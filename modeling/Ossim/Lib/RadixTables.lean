import Mathlib.Algebra.BigOperators.Group.Finset.Piecewise
import Mathlib.Algebra.BigOperators.Ring.Finset
import Mathlib.Algebra.Order.BigOperators.Group.Finset
import Ossim.Lib.Radix

set_option autoImplicit false

/-! # The size of a radix tree

`tables` is the number of tables of a tree. A walk turns tables its path lacks into tables of the tree
(`tables_walk`), whatever the allocator grants, and no path lacks more than before (`missing_walk_le`).
A counter of the granted tables counts those of the tree (`tbl_walk_add_tables`), and a counter of the
visits says whether the walk got to its leaf (`visits_walk`). -/

open scoped BigOperators

namespace Radix.Tree

variable {ι V σ : Type} (zero : V)

/-! ## Walks -/

section Walk

variable [DecidableEq ι] {visit : σ → σ} {grow : σ → Bool × σ}

/-- What is kept by the bookkeeping is kept by a walk. -/
theorem walk_state {P : σ → Prop} (hvisit : ∀ s, P s → P (visit s)) (hgrow : ∀ s, P s → P (grow s).2)
    {n : ℕ} (t : Tree ι V n) (p : Path ι n) {s : σ} (hs : P s) :
    P (t.walk zero visit grow p s).2.2 := by
  induction n generalizing s with
  | zero => exact hvisit s hs
  | succ n ih =>
      obtain ⟨i, p⟩ := p
      cases hi : t.child i with
      | some sub =>
          simp only [walk, hi]
          exact ih sub p (hvisit s hs)
      | none =>
          simp only [walk, hi]
          split
          · exact ih _ p (hgrow _ (hvisit s hs))
          · exact hgrow _ (hvisit s hs)

/-- A counter of the levels visited. -/
structure CountsVisits (visit : σ → σ) (grow : σ → Bool × σ) (rd : σ → ℕ) : Prop where
  visit : ∀ s, rd (visit s) = rd s + 1
  grow : ∀ s, rd (grow s).2 = rd s

/-- A walk visits one table a level, and all levels if and only if it gets to its leaf. -/
theorem visits_walk {rd : σ → ℕ} (hv : CountsVisits visit grow rd) {n : ℕ} (t : Tree ι V n)
    (p : Path ι n) (s : σ) :
    rd (t.walk zero visit grow p s).2.2 ≤ rd s + (n + 1) ∧
      (rd (t.walk zero visit grow p s).2.2 = rd s + (n + 1) ↔
        (t.walk zero visit grow p s).1 = true) := by
  induction n generalizing s with
  | zero => simp [walk, hv.visit]
  | succ n ih =>
      obtain ⟨i, p⟩ := p
      have hshift : ∀ m, m + 1 + (n + 1) = m + (n + 1 + 1) := fun m => by omega
      cases hi : t.child i with
      | some sub =>
          have hsub := ih sub p (visit s)
          rw [hv.visit, hshift] at hsub
          simp only [walk, hi]
          exact hsub
      | none =>
          simp only [walk, hi]
          split
          · have hsub := ih (empty zero n) p (grow (visit s)).2
            rw [hv.grow, hv.visit, hshift] at hsub
            exact hsub
          · rw [hv.grow, hv.visit]
            exact ⟨by omega, iff_of_false (by omega) (by simp)⟩

/-- No path lacks more tables after a walk than before. -/
theorem missing_walk_le (visit : σ → σ) (grow : σ → Bool × σ) {n : ℕ} (t : Tree ι V n)
    (p q : Path ι n) (s : σ) :
    (t.walk zero visit grow p s).2.1.missing q ≤ t.missing q := by
  induction n generalizing s with
  | zero => exact Nat.le_refl _
  | succ n ih =>
      obtain ⟨i, p⟩ := p
      obtain ⟨j, q⟩ := q
      cases hi : t.child i with
      | some sub =>
          simp only [walk, hi]
          by_cases hji : j = i
          · subst hji
            simp only [missing, hi, child_setChild_self, ih]
          · simp only [missing, child_setChild_of_ne _ _ hji, Nat.le_refl]
      | none =>
          simp only [walk, hi]
          split
          · by_cases hji : j = i
            · subst hji
              have hle := missing_le ((empty zero n).walk zero visit grow p (grow (visit s)).2).2.1 q
              simp only [missing, hi, child_setChild_self]
              omega
            · simp only [missing, child_setChild_of_ne _ _ hji, Nat.le_refl]
          · exact Nat.le_refl _

end Walk

/-! ## Tables -/

variable [Fintype ι]

/-- The number of tables, the root included. -/
def tables : {n : ℕ} → Tree ι V n → ℕ
  | 0, _ => 1
  | _ + 1, t => 1 + ∑ i, (child t i).elim 0 fun sub => sub.tables

theorem tables_succ {n : ℕ} (t : Tree ι V (n + 1)) :
    t.tables = 1 + ∑ i, (t.child i).elim 0 tables := rfl

@[simp]
theorem tables_empty (n : ℕ) : (empty zero n : Tree ι V n).tables = 1 := by
  cases n with
  | zero => rfl
  | succ n =>
      rw [tables_succ]
      exact congrArg (1 + ·) (Finset.sum_eq_zero fun i _ => rfl)

theorem tables_le {n : ℕ} (t : Tree ι V n) :
    t.tables ≤ ∑ k ∈ Finset.range (n + 1), Fintype.card ι ^ k := by
  induction n with
  | zero => exact Nat.le_refl 1
  | succ n ih =>
      have hchild : ∀ i : ι, (t.child i).elim 0 tables ≤
          ∑ k ∈ Finset.range (n + 1), Fintype.card ι ^ k := by
        intro i
        cases t.child i with
        | none => exact Nat.zero_le _
        | some sub => exact ih sub
      have hsum := Finset.sum_le_card_nsmul Finset.univ _ _ fun i _ => hchild i
      rw [Finset.card_univ, nsmul_eq_mul, Nat.cast_id, Finset.mul_sum] at hsum
      rw [tables_succ, Finset.sum_range_succ', Nat.add_comm, pow_zero]
      simp only [pow_succ']
      exact Nat.add_le_add_right hsum 1

variable [DecidableEq ι]

theorem tables_setChild {n : ℕ} (t : Tree ι V (n + 1)) (i : ι) (sub : Tree ι V n) :
    (t.setChild i sub).tables + (t.child i).elim 0 tables = t.tables + sub.tables := by
  have hrest : ∑ j ∈ Finset.univ.erase i, ((t.setChild i sub).child j).elim 0 tables =
      ∑ j ∈ Finset.univ.erase i, (t.child j).elim 0 tables :=
    Finset.sum_congr rfl fun j hj => by rw [child_setChild_of_ne t sub (Finset.ne_of_mem_erase hj)]
  rw [tables_succ, tables_succ, ← Finset.add_sum_erase _ _ (Finset.mem_univ i), hrest,
    ← Finset.add_sum_erase _ (fun j => (t.child j).elim 0 tables) (Finset.mem_univ i),
    child_setChild_self, Option.elim_some]
  omega

@[simp]
theorem tables_write {n : ℕ} (t : Tree ι V n) (p : Path ι n) (v : V) :
    (t.write p v).tables = t.tables := by
  induction n with
  | zero => rfl
  | succ n ih =>
      obtain ⟨i, p⟩ := p
      cases hi : t.child i with
      | none => simp only [write, hi]
      | some sub =>
          have hset := tables_setChild t i (sub.write p v)
          rw [hi, Option.elim_some, ih] at hset
          simp only [write, hi]
          omega

/-- A walk adds the tables that its path lacks no longer. -/
theorem tables_walk (visit : σ → σ) (grow : σ → Bool × σ) {n : ℕ} (t : Tree ι V n)
    (p : Path ι n) (s : σ) :
    (t.walk zero visit grow p s).2.1.tables + (t.walk zero visit grow p s).2.1.missing p =
      t.tables + t.missing p := by
  induction n generalizing s with
  | zero => rfl
  | succ n ih =>
      obtain ⟨i, p⟩ := p
      cases hi : t.child i with
      | some sub =>
          have hset := tables_setChild t i (sub.walk zero visit grow p (visit s)).2.1
          have hsub := ih sub p (visit s)
          rw [hi, Option.elim_some] at hset
          simp only [walk, missing, hi, child_setChild_self]
          omega
      | none =>
          simp only [walk, hi]
          split
          · have hset := tables_setChild t i
              ((empty zero n).walk zero visit grow p (grow (visit s)).2).2.1
            have hsub := ih (empty zero n) p (grow (visit s)).2
            rw [hi, Option.elim_none] at hset
            rw [tables_empty, missing_empty] at hsub
            simp only [missing, hi, child_setChild_self]
            omega
          · rfl

/-- A counter of the granted tables grows with the tree. -/
theorem tbl_walk_add_tables {visit : σ → σ} {grow : σ → Bool × σ} {tbl : σ → ℕ}
    (ht : CountsGranted visit grow tbl) {n : ℕ} (t : Tree ι V n) (p : Path ι n) (s : σ) :
    tbl (t.walk zero visit grow p s).2.2 + t.tables =
      tbl s + (t.walk zero visit grow p s).2.1.tables := by
  induction n generalizing s with
  | zero => exact congrArg (· + t.tables) (ht.visit s)
  | succ n ih =>
      obtain ⟨i, p⟩ := p
      have hgrow := ht.grow (visit s)
      rw [ht.visit] at hgrow
      cases hi : t.child i with
      | some sub =>
          have hset := tables_setChild t i (sub.walk zero visit grow p (visit s)).2.1
          have hsub := ih sub p (visit s)
          rw [ht.visit] at hsub
          rw [hi, Option.elim_some] at hset
          simp only [walk, hi]
          omega
      | none =>
          simp only [walk, hi]
          split
          · next hg =>
              have hset := tables_setChild t i
                ((empty zero n).walk zero visit grow p (grow (visit s)).2).2.1
              have hsub := ih (empty zero n) p (grow (visit s)).2
              rw [hi, Option.elim_none] at hset
              rw [tables_empty] at hsub
              rw [if_pos hg] at hgrow
              simp only
              omega
          · next hg =>
              rw [if_neg hg] at hgrow
              simp only
              omega

end Radix.Tree
