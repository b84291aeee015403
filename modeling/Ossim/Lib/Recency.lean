import Mathlib.Data.List.Basic
import Mathlib.Data.List.Nodup
import Mathlib.Tactic.Common

set_option autoImplicit false

/-! # Lists ordered by recency

A history lists events, the latest first. An element is more recent than another if it occurs in the
history first; earlier occurrences do not count. A queue that takes in every event at its front, and
gives up elements anywhere, is ordered by recency. -/

namespace Recency

variable {α : Type} [DecidableEq α]

/-- The elements of `l` are in the history, the most recent ones first. -/
structure Ordered (hist l : List α) : Prop where
  mem : ∀ x ∈ l, x ∈ hist
  later : l.Pairwise fun x y => hist.idxOf x < hist.idxOf y

variable {hist l l' new : List α} {x : α}

theorem Ordered.nil (hist : List α) : Ordered hist [] :=
  ⟨fun _ h => absurd h List.not_mem_nil, List.Pairwise.nil⟩

theorem Ordered.sublist (h : Ordered hist l) (hsub : l'.Sublist l) : Ordered hist l' :=
  ⟨fun x hx => h.mem x (hsub.subset hx), h.later.sublist hsub⟩

/-- An event of some other element makes all elements older alike. -/
theorem Ordered.event (h : Ordered hist l) (hx : x ∉ l) : Ordered (x :: hist) l := by
  refine ⟨fun y hy => List.mem_cons_of_mem x (h.mem y hy), ?_⟩
  refine h.later.imp_of_mem fun {y z} hy hz hlt => ?_
  have hne : ∀ w ∈ l, x ≠ w := fun w hw he => hx (he ▸ hw)
  rw [List.idxOf_cons_ne _ (hne y hy), List.idxOf_cons_ne _ (hne z hz)]
  omega

theorem Ordered.cons (h : Ordered hist l) (hx : x ∉ l) : Ordered (x :: hist) (x :: l) := by
  have hevent := h.event hx
  refine ⟨fun y hy => ?_, List.Pairwise.cons (fun y hy => ?_) hevent.later⟩
  · rcases List.mem_cons.1 hy with rfl | hy
    · exact List.mem_cons_self
    · exact hevent.mem y hy
  · have hne : x ≠ y := fun he => hx (he ▸ hy)
    rw [List.idxOf_cons_self, List.idxOf_cons_ne _ hne]
    omega

theorem Ordered.append (h : Ordered hist l) (hnodup : (new ++ l).Nodup) :
    Ordered (new ++ hist) (new ++ l) := by
  induction new with
  | nil => exact h
  | cons x new ih =>
      obtain ⟨hnot, hrest⟩ := List.nodup_cons.1 hnodup
      exact (ih hrest).cons hnot

/-- The last element is the least recent one. -/
theorem Ordered.last (h : Ordered hist (l ++ [x])) {y : α} (hy : y ∈ l ++ [x]) (hne : y ≠ x) :
    hist.idxOf y < hist.idxOf x := by
  have hmem : y ∈ l := by
    rcases List.mem_append.1 hy with hl | hx
    · exact hl
    · exact absurd (List.mem_singleton.1 hx) hne
  exact (List.pairwise_append.1 h.later).2.2 y hmem x (List.mem_singleton_self x)

end Recency
