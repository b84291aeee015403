import Mathlib.Data.Set.Insert
import Mathlib.Logic.Function.Basic
import Mathlib.Tactic.Common

set_option autoImplicit false

/-! # Demand paging over two frame pools

An abstract pager: pages (`κ`) live in a frame of the main memory, in a frame of the backing store,
or nowhere yet. The two stores map frame numbers to contents, a content being a byte (`β`) at every
offset (`J`). A pager moves pages between the stores with the six steps of `Step`; which page is
evicted, and when, is left open.

`Step` and `Run` carry a set of *touched* locations: the (page, offset) pairs whose content the
client changed on purpose. The two facts a client needs are

* `Run.wf`: no frame is ever owned by two pages, or owned while it is free;
* `Run.content_eq`: the content of every mapped location outside the touched set survives, wherever
  the page travels in between. This one needs the copies between the stores to be `exact`. -/

namespace Pager

/-- Where the content of a page is kept. -/
inductive Residence where
  | none
  | ram (f : ℕ)
  | swap (s : ℕ)
  deriving DecidableEq

variable {κ J β : Type}

@[ext]
structure State (κ J β : Type) where
  /-- where each page is -/
  res : κ → Residence
  /-- the frames of main memory nobody owns -/
  ramFree : Set ℕ
  /-- the frames of the backing store nobody owns -/
  swapFree : Set ℕ
  ram : ℕ → J → β
  swap : ℕ → J → β

/-- Frames have one owner, and owned frames are not free. -/
structure State.Wf (s : State κ J β) : Prop where
  ram_inj : ∀ {x y f}, s.res x = .ram f → s.res y = .ram f → x = y
  swap_inj : ∀ {x y t}, s.res x = .swap t → s.res y = .swap t → x = y
  ram_used : ∀ {x f}, s.res x = .ram f → f ∉ s.ramFree
  swap_used : ∀ {x t}, s.res x = .swap t → t ∉ s.swapFree

/-- All frames in play come from two fixed pools, `R` of main memory and `S` of the backing store. -/
structure State.Within (s : State κ J β) (R S : Set ℕ) : Prop where
  ram_free : ∀ {f}, f ∈ s.ramFree → f ∈ R
  swap_free : ∀ {t}, t ∈ s.swapFree → t ∈ S
  ram_mem : ∀ {x f}, s.res x = .ram f → f ∈ R
  swap_mem : ∀ {x t}, s.res x = .swap t → t ∈ S

/-- The byte a page holds at an offset, if the page is anywhere. -/
def State.content (s : State κ J β) (x : κ) (j : J) : Option β :=
  match s.res x with
  | .none => Option.none
  | .ram f => some (s.ram f j)
  | .swap t => some (s.swap t j)

/-- Only a page that is somewhere has bytes. -/
theorem State.mapped_of_content {s : State κ J β} {x : κ} {j : J} {b : β}
    (h : s.content x j = some b) : s.res x ≠ .none := by
  intro hnone
  simp [State.content, hnone] at h

/-- The content of a page depends on its residence and the frame it owns only. -/
theorem State.content_congr {s s' : State κ J β} {y : κ} (hres : s'.res y = s.res y)
    (hram : ∀ g, s.res y = .ram g → s'.ram g = s.ram g)
    (hswap : ∀ t, s.res y = .swap t → s'.swap t = s.swap t) (j : J) :
    s'.content y j = s.content y j := by
  unfold State.content
  rw [hres]
  cases hy : s.res y with
  | none => rfl
  | ram g => simp only [hram g hy]
  | swap t => simp only [hswap t hy]

/-! ## Steps -/

section Steps

variable [DecidableEq κ] [DecidableEq J]

/-- One move of the pager, with the locations it touches. Copies carry a content `d` that is the
    source's if the copying is `exact`, and anything otherwise. -/
inductive Step (exact : Prop) : State κ J β → Set (κ × J) → State κ J β → Prop where
  /-- a page that is nowhere gets a free frame, with whatever the frame contains -/
  | map {s : State κ J β} {x : κ} {f : ℕ} (hx : s.res x = .none) (hf : f ∈ s.ramFree) :
      Step exact s ∅ { s with res := Function.update s.res x (.ram f), ramFree := s.ramFree \ {f} }
  /-- a resident page is moved to another frame without its content; the old frame is lost -/
  | remap {s : State κ J β} {x : κ} {f g : ℕ} (hx : s.res x = .ram g) (hf : f ∈ s.ramFree) :
      Step exact s {p | p.1 = x}
        { s with res := Function.update s.res x (.ram f), ramFree := s.ramFree \ {f} }
  /-- a resident page is copied out and gives up its frame -/
  | evict {s : State κ J β} {x : κ} {f t : ℕ} {d : J → β} (hx : s.res x = .ram f)
      (ht : t ∈ s.swapFree) (hd : exact → d = s.ram f) :
      Step exact s ∅
        { s with
          res := Function.update s.res x (.swap t)
          ramFree := insert f s.ramFree
          swapFree := s.swapFree \ {t}
          swap := Function.update s.swap t d }
  /-- a swapped page is copied into a free frame; its old frame may be released -/
  | pageIn {s : State κ J β} {x : κ} {f t : ℕ} {d : J → β} {F : Set ℕ} (hx : s.res x = .swap t)
      (hf : f ∈ s.ramFree) (hd : exact → d = s.swap t)
      (hF : F = s.swapFree ∨ F = insert t s.swapFree) :
      Step exact s ∅
        { s with
          res := Function.update s.res x (.ram f)
          ramFree := s.ramFree \ {f}
          swapFree := F
          ram := Function.update s.ram f d }
  /-- the client writes a byte of a resident page -/
  | write {s : State κ J β} {x : κ} {f : ℕ} {j : J} (b : β) (hx : s.res x = .ram f) :
      Step exact s {(x, j)}
        { s with ram := Function.update s.ram f (Function.update (s.ram f) j b) }

variable {exact : Prop} {s s' : State κ J β} {T U : Set (κ × J)}

omit [DecidableEq J] in
/-- Handing a free frame of main memory to a page keeps frames single-owned, whatever the page owned
    before; its old frame of the backing store may become free. -/
theorem State.Wf.assignRam (hw : s.Wf) {x : κ} {f : ℕ} {F : Set ℕ} (hf : f ∈ s.ramFree)
    (hF : ∀ t ∈ F, t ∈ s.swapFree ∨ s.res x = .swap t) (ram swap : ℕ → J → β) :
    State.Wf ⟨Function.update s.res x (.ram f), s.ramFree \ {f}, F, ram, swap⟩ := by
  refine ⟨?_, ?_, ?_, ?_⟩
  · intro y z g hy hz
    simp only [Function.update_apply] at hy hz
    split_ifs at hy hz with h1 h2 h2
    · rw [h1, h2]
    · cases hy; exact absurd hf (hw.ram_used hz)
    · cases hz; exact absurd hf (hw.ram_used hy)
    · exact hw.ram_inj hy hz
  · intro y z t hy hz
    simp only [Function.update_apply] at hy hz
    split_ifs at hy hz
    exact hw.swap_inj hy hz
  · intro y g hy
    simp only [Function.update_apply] at hy
    split_ifs at hy
    · cases hy; simp
    · exact fun hg => hw.ram_used hy hg.1
  · intro y t hy ht
    simp only [Function.update_apply] at hy
    split_ifs at hy with hyx
    rcases hF t ht with hfree | hx
    · exact hw.swap_used hy hfree
    · exact hyx (hw.swap_inj hy hx)

omit [DecidableEq J] in
/-- Exchanging the frame of a resident page for a free frame of the backing store. -/
theorem State.Wf.assignSwap (hw : s.Wf) {x : κ} {f t : ℕ} (hx : s.res x = .ram f)
    (ht : t ∈ s.swapFree) (ram swap : ℕ → J → β) :
    State.Wf ⟨Function.update s.res x (.swap t), insert f s.ramFree, s.swapFree \ {t}, ram, swap⟩ := by
  refine ⟨?_, ?_, ?_, ?_⟩
  · intro y z g hy hz
    simp only [Function.update_apply] at hy hz
    split_ifs at hy hz
    exact hw.ram_inj hy hz
  · intro y z u hy hz
    simp only [Function.update_apply] at hy hz
    split_ifs at hy hz with h1 h2 h2
    · rw [h1, h2]
    · cases hy; exact absurd ht (hw.swap_used hz)
    · cases hz; exact absurd ht (hw.swap_used hy)
    · exact hw.swap_inj hy hz
  · intro y g hy hg
    simp only [Function.update_apply] at hy
    split_ifs at hy with hyx
    rcases hg with rfl | hg
    · exact hyx (hw.ram_inj hy hx)
    · exact hw.ram_used hy hg
  · intro y u hy
    simp only [Function.update_apply] at hy
    split_ifs at hy
    · cases hy; simp
    · exact fun hu => hw.swap_used hy hu.1

theorem Step.wf (h : Step exact s T s') (hw : s.Wf) : s'.Wf := by
  cases h with
  | map hx hf => exact hw.assignRam hf (fun t ht => Or.inl ht) _ _
  | remap hx hf => exact hw.assignRam hf (fun t ht => Or.inl ht) _ _
  | evict hx ht hd => exact hw.assignSwap hx ht _ _
  | pageIn hx hf hd hF =>
      refine hw.assignRam hf (fun u hu => ?_) _ _
      rcases hF with rfl | rfl
      · exact Or.inl hu
      · rcases hu with rfl | hu
        · exact Or.inr hx
        · exact Or.inl hu
  | write b hx => exact ⟨hw.ram_inj, hw.swap_inj, hw.ram_used, hw.swap_used⟩

/-- No step brings in frames from outside the pools. -/
theorem Step.within {R S : Set ℕ} (h : Step exact s T s') (hw : s.Within R S) : s'.Within R S := by
  cases h with
  -- the frame of the page comes from the free ones
  | map hx hf | remap hx hf =>
      refine ⟨fun hg => hw.ram_free hg.1, hw.swap_free, ?_, ?_⟩ <;> intro y g hy <;>
        simp only [Function.update_apply] at hy <;> split_ifs at hy
      · cases hy; exact hw.ram_free hf
      · exact hw.ram_mem hy
      · exact hw.swap_mem hy
  -- the frame of RAM is freed, and the page moves to a free frame of swap
  | evict hx ht hd =>
      refine ⟨?_, fun hu => hw.swap_free hu.1, ?_, ?_⟩
      · rintro g (rfl | hg)
        · exact hw.ram_mem hx
        · exact hw.ram_free hg
      all_goals
        intro y g hy
        simp only [Function.update_apply] at hy
        split_ifs at hy
      · exact hw.ram_mem hy
      · cases hy; exact hw.swap_free ht
      · exact hw.swap_mem hy
  | pageIn hx hf hd hF =>
      refine ⟨fun hg => hw.ram_free hg.1, ?_, ?_, ?_⟩
      · intro u hu
        rcases hF with rfl | rfl
        · exact hw.swap_free hu
        · rcases hu with rfl | hu
          · exact hw.swap_mem hx
          · exact hw.swap_free hu
      all_goals
        intro y g hy
        simp only [Function.update_apply] at hy
        split_ifs at hy
      · cases hy; exact hw.ram_free hf
      · exact hw.ram_mem hy
      · exact hw.swap_mem hy
  | write b hx => exact ⟨hw.ram_free, hw.swap_free, hw.ram_mem, hw.swap_mem⟩

/-- A mapped page stays mapped. -/
theorem Step.mapped (h : Step exact s T s') {x : κ} (hx : s.res x ≠ .none) :
    s'.res x ≠ .none := by
  cases h with
  | map | remap | evict | pageIn =>
      simp only [Function.update_apply]
      split_ifs
      · simp
      · exact hx
  | write => exact hx

/-- An exact step preserves the content of every mapped location it does not touch. -/
theorem Step.content_eq (h : Step exact s T s') (he : exact) (hw : s.Wf) {y : κ} {j : J}
    (hy : s.res y ≠ .none) (hT : (y, j) ∉ T) : s'.content y j = s.content y j := by
  cases h with
  | @map x f hx hf =>
      -- `y` was mapped, `x` was not
      have hyx : y ≠ x := fun he => hy (he ▸ hx)
      apply State.content_congr
      · exact Function.update_of_ne hyx ..
      · exact fun _ _ => rfl
      · exact fun _ _ => rfl
  -- the page that moves is in `T` with all its bytes
  | @remap x f g hx hf =>
      have hyx : y ≠ x := fun he => hT he
      apply State.content_congr
      · exact Function.update_of_ne hyx ..
      · exact fun _ _ => rfl
      · exact fun _ _ => rfl
  | @evict x f t d hx ht hd =>
      by_cases hyx : y = x
      · subst hyx
        simp [State.content, hx, hd he]
      · -- the frame copied to was free, so it is not the one `y` may own
        apply State.content_congr
        · exact Function.update_of_ne hyx ..
        · exact fun _ _ => rfl
        · intro u hu
          have hut : u ≠ t := fun he => hw.swap_used hu (he ▸ ht)
          exact Function.update_of_ne hut ..
  | @pageIn x f t d F hx hf hd hF =>
      by_cases hyx : y = x
      · subst hyx
        simp [State.content, hx, hd he]
      · -- the frame was free, so no other page is in it
        apply State.content_congr
        · exact Function.update_of_ne hyx ..
        · intro g hg
          have hgf : g ≠ f := fun he => hw.ram_used hg (he ▸ hf)
          exact Function.update_of_ne hgf ..
        · exact fun _ _ => rfl
  | @write x f i b hx =>
      by_cases hyx : y = x
      · subst hyx
        have hji : j ≠ i := fun he => hT (by rw [he]; rfl)
        simp [State.content, hx, hji]
      · -- the frame is that of `x` alone
        apply State.content_congr
        · rfl
        · intro g hg
          have hgf : g ≠ f := fun he => hyx (hw.ram_inj (he ▸ hg) hx)
          exact Function.update_of_ne hgf ..
        · exact fun _ _ => rfl

/-! ## Runs -/

/-- Finitely many steps, all of them touching only locations in `T`. -/
inductive Run (exact : Prop) (T : Set (κ × J)) : State κ J β → State κ J β → Prop where
  | refl (s : State κ J β) : Run exact T s s
  | tail {s s' s'' : State κ J β} {U : Set (κ × J)} (h : Run exact T s s')
      (hs : Step exact s' U s'') (hU : U ⊆ T) : Run exact T s s''

theorem Run.single (h : Step exact s U s') (hU : U ⊆ T) : Run exact T s s' :=
  .tail (.refl s) h hU

theorem Run.trans {s'' : State κ J β} (h : Run exact T s s') (h' : Run exact T s' s'') :
    Run exact T s s'' := by
  induction h' with
  | refl => exact h
  | tail _ hs hU ih => exact .tail ih hs hU

theorem Run.mono (h : Run exact T s s') (hTU : T ⊆ U) : Run exact U s s' := by
  induction h with
  | refl => exact .refl _
  | tail _ hs hU ih => exact .tail ih hs (hU.trans hTU)

theorem Run.wf (h : Run exact T s s') (hw : s.Wf) : s'.Wf := by
  induction h with
  | refl => exact hw
  | tail _ hs _ ih => exact hs.wf ih

theorem Run.within {R S : Set ℕ} (h : Run exact T s s') (hw : s.Within R S) : s'.Within R S := by
  induction h with
  | refl => exact hw
  | tail _ hs _ ih => exact hs.within ih

theorem Run.mapped (h : Run exact T s s') {x : κ} (hx : s.res x ≠ .none) : s'.res x ≠ .none := by
  induction h with
  | refl => exact hx
  | tail _ hs _ ih => exact hs.mapped ih

/-- **Transparency.** An exact run preserves the content of every mapped location outside the
    touched set, wherever the page is moved. -/
theorem Run.content_eq (h : Run exact T s s') (he : exact) (hw : s.Wf) {y : κ} {j : J}
    (hy : s.res y ≠ .none) (hT : (y, j) ∉ T) : s'.content y j = s.content y j := by
  induction h with
  | refl => rfl
  | tail h hs hU ih =>
      rw [hs.content_eq he (h.wf hw) (h.mapped hy) (fun hmem => hT (hU hmem)), ih]

end Steps

end Pager
