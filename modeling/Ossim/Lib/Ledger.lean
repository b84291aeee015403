import Mathlib.Data.Set.Card
import Ossim.Lib.Pager

set_option autoImplicit false

/-! # The frame accounts of a pager

A pager that keeps lists of the frames in use has its books in order (`Books`) if every frame of main
memory in use is that of a resident page or is held by the code for the moment, and every frame of the
backing store in use is that of the one page that is there. Frames of main memory are only counted:
nothing ever looks one up on the list. Frames of the backing store are, when a page comes back, so the
books have their numbers.

The rules say what the moves of a pager do to the books, one for each. -/

namespace Pager

variable {κ : Type}

/-- The pages in main memory. -/
def inRam (res : κ → Residence) : Set κ := {x | ∃ f, res x = .ram f}

/-- The pages in the backing store. -/
def inSwap (res : κ → Residence) : Set κ := {x | ∃ t, res x = .swap t}

/-- The number of frames of main memory in use, `held` of them by no page, and the lists of the frames
    of the backing store. -/
structure Books (res : κ → Residence) (ramUsed : ℕ) (swapFree swapUsed : List ℕ) (held : ℕ) :
    Prop where
  ram : (ramUsed : ℕ∞) = (inRam res).encard + held
  swap_nodup : (swapFree ++ swapUsed).Nodup
  swap_used : ∀ t, t ∈ swapUsed ↔ ∃ x, res x = .swap t
  swap_inj : ∀ {x y t}, res x = .swap t → res y = .swap t → x = y

variable {res : κ → Residence} {ramUsed held f t : ℕ} {swapFree swapUsed : List ℕ} {x : κ}

theorem Books.empty (hres : ∀ x, res x = .none) (hnodup : swapFree.Nodup) :
    Books res 0 swapFree [] 0 where
  ram := by
    have hnone : inRam res = ∅ := by
      ext x
      simp [inRam, hres]
    simp [hnone]
  swap_nodup := by simpa using hnodup
  swap_used := fun t => by simp [hres]
  swap_inj := fun hx => by simp [hres] at hx

/-- **No frame leaks.** With nothing held there are as many frames in use as pages. -/
theorem Books.counts (h : Books res ramUsed swapFree swapUsed 0) :
    (ramUsed : ℕ∞) = (inRam res).encard ∧ (swapUsed.length : ℕ∞) = (inSwap res).encard := by
  refine ⟨by simpa using h.ram, ?_⟩
  -- the pages in the backing store and the frames in use are in bijection
  have hinj : Set.InjOn res (inSwap res) := by
    rintro x ⟨t, hx⟩ y - hxy
    exact h.swap_inj hx (hxy ▸ hx)
  have himage : res '' inSwap res = Residence.swap '' {t | t ∈ swapUsed} := by
    ext r
    constructor
    · rintro ⟨x, ⟨t, hx⟩, rfl⟩
      exact ⟨t, (h.swap_used t).2 ⟨x, hx⟩, hx.symm⟩
    · rintro ⟨t, ht, rfl⟩
      obtain ⟨x, hx⟩ := (h.swap_used t).1 ht
      exact ⟨x, ⟨t, hx⟩, hx⟩
  have hswap : Function.Injective Residence.swap := fun _ _ he => Residence.swap.inj he
  have hnodup := (List.nodup_append.1 h.swap_nodup).2.1
  calc (swapUsed.length : ℕ∞) = {t | t ∈ swapUsed}.encard := by
        rw [← List.toFinset_card_of_nodup hnodup, ← Set.encard_coe_eq_coe_finsetCard]
        congr 1
        ext t
        simp
    _ = (res '' inSwap res).encard := by rw [himage, hswap.encard_image]
    _ = (inSwap res).encard := hinj.encard_image

theorem Books.take (h : Books res ramUsed swapFree swapUsed held) (n : ℕ) :
    Books res (ramUsed + n) swapFree swapUsed (held + n) :=
  ⟨by rw [Nat.cast_add, h.ram, Nat.cast_add, add_assoc], h.swap_nodup, h.swap_used, h.swap_inj⟩

variable [DecidableEq κ]

theorem inRam_update_ram (hx : ∀ g, res x ≠ .ram g) :
    (inRam (Function.update res x (.ram f))).encard = (inRam res).encard + 1 := by
  have hnot : x ∉ inRam res := fun ⟨g, hg⟩ => hx g hg
  rw [← Set.encard_insert_of_notMem hnot]
  congr 1
  ext y
  by_cases hyx : y = x
  · subst hyx
    simp [inRam]
  · simp [inRam, hyx]

theorem inRam_update_swap (hx : res x = .ram f) :
    (inRam (Function.update res x (.swap t))).encard + 1 = (inRam res).encard := by
  have hnot : x ∉ inRam (Function.update res x (.swap t)) := fun ⟨g, hg⟩ => by simp at hg
  rw [← Set.encard_insert_of_notMem hnot]
  congr 1
  ext y
  by_cases hyx : y = x
  · subst hyx
    simp [inRam, hx]
  · simp [inRam, hyx]

theorem update_eq_swap {r : Residence} (hr : ∀ u, r ≠ .swap u) {y : κ} {u : ℕ} :
    Function.update res x r y = .swap u ↔ y ≠ x ∧ res y = .swap u := by
  by_cases hyx : y = x
  · subst hyx
    simp [hr]
  · simp [hyx]

theorem Books.map (h : Books res ramUsed swapFree swapUsed (held + 1)) (hx : res x = .none) :
    Books (Function.update res x (.ram f)) ramUsed swapFree swapUsed held := by
  have hsame : ∀ {y u}, Function.update res x (.ram f) y = .swap u ↔ res y = .swap u := by
    intro y u
    rw [update_eq_swap (by simp)]
    refine ⟨fun hy => hy.2, fun hy => ⟨?_, hy⟩⟩
    rintro rfl
    simp [hx] at hy
  refine ⟨?_, h.swap_nodup, fun u => ?_, fun hy hz => ?_⟩
  · rw [inRam_update_ram (by simp [hx]), h.ram, Nat.cast_add, Nat.cast_one, add_assoc, add_comm 1]
  · simp only [hsame]
    exact h.swap_used u
  · exact h.swap_inj (hsame.1 hy) (hsame.1 hz)

/-- A resident page goes to a free frame of the backing store; the frame it was in is held. -/
theorem Books.evict (h : Books res ramUsed (t :: swapFree) swapUsed held) (hx : res x = .ram f) :
    Books (Function.update res x (.swap t)) ramUsed swapFree (t :: swapUsed) (held + 1) := by
  have hfree : ∀ y, res y ≠ .swap t := by
    intro y hy
    have hused := (h.swap_used t).2 ⟨y, hy⟩
    exact (List.nodup_append.1 h.swap_nodup).2.2 t (List.mem_cons_self ..) t hused rfl
  have hother : ∀ {y u}, y ≠ x → (Function.update res x (.swap t) y = .swap u ↔ res y = .swap u) :=
    fun hy => by rw [Function.update_of_ne hy]
  have hself : ∀ {u}, Function.update res x (.swap t) x = .swap u ↔ u = t := by simp [eq_comm]
  refine ⟨?_, ?_, fun u => ?_, fun {y z u} hy hz => ?_⟩
  · rw [h.ram, ← inRam_update_swap hx, Nat.cast_add, Nat.cast_one, add_assoc, add_comm 1]
  · exact (List.perm_middle.nodup_iff).2 h.swap_nodup
  · rw [List.mem_cons, h.swap_used]
    constructor
    · rintro (rfl | ⟨y, hy⟩)
      · exact ⟨x, hself.2 rfl⟩
      · have hyx : y ≠ x := by
          rintro rfl
          simp [hx] at hy
        exact ⟨y, (hother hyx).2 hy⟩
    · rintro ⟨y, hy⟩
      by_cases hyx : y = x
      · subst hyx
        exact Or.inl (hself.1 hy)
      · exact Or.inr ⟨y, (hother hyx).1 hy⟩
  · -- nothing else was in frame `t`
    by_cases hyx : y = x <;> by_cases hzx : z = x
    · rw [hyx, hzx]
    · subst hyx
      obtain rfl := hself.1 hy
      exact absurd ((hother hzx).1 hz) (hfree z)
    · subst hzx
      obtain rfl := hself.1 hz
      exact absurd ((hother hyx).1 hy) (hfree y)
    · exact h.swap_inj ((hother hyx).1 hy) ((hother hzx).1 hz)

/-- A page comes back into a frame that is held, and its frame of the backing store is released. -/
theorem Books.pageIn (h : Books res ramUsed swapFree swapUsed (held + 1)) (hx : res x = .swap t) :
    Books (Function.update res x (.ram f)) ramUsed (t :: swapFree) (swapUsed.erase t) held := by
  have hused : t ∈ swapUsed := (h.swap_used t).2 ⟨x, hx⟩
  have hnodup := (List.nodup_append.1 h.swap_nodup).2.1
  refine ⟨?_, ?_, fun u => ?_, fun hy hz => ?_⟩
  · rw [inRam_update_ram (by simp [hx]), h.ram, Nat.cast_add, Nat.cast_one, add_assoc, add_comm 1]
  · have hperm : (t :: swapFree ++ swapUsed.erase t).Perm (swapFree ++ swapUsed) :=
      List.perm_middle.symm.trans ((List.perm_cons_erase hused).symm.append_left swapFree)
    exact hperm.nodup_iff.2 h.swap_nodup
  · rw [hnodup.mem_erase_iff, h.swap_used]
    simp only [update_eq_swap (r := .ram f) (by simp)]
    constructor
    · rintro ⟨hut, y, hy⟩
      refine ⟨y, ?_, hy⟩
      rintro rfl
      exact hut (Residence.swap.inj (hy.symm.trans hx))
    · rintro ⟨y, hyx, hy⟩
      refine ⟨?_, y, hy⟩
      rintro rfl
      exact hyx (h.swap_inj hy hx)
  · rw [update_eq_swap (by simp)] at hy hz
    exact h.swap_inj hy.2 hz.2

/-! ## Where the books do not balance -/

omit [DecidableEq κ] in
theorem nodup_of_count {P : Set κ} {xs : List κ} {n : ℕ} (hP : (n : ℕ∞) = P.encard)
    (h : ((n + xs.length : ℕ) : ℕ∞) = (P ∪ {x | x ∈ xs}).encard) : xs.Nodup ∧ ∀ x ∈ xs, x ∉ P := by
  classical
  obtain ⟨F, rfl⟩ := (Set.finite_of_encard_eq_coe hP.symm).exists_finset_coe
  have hxs : {x | x ∈ xs} = (xs.toFinset : Set κ) := by
    ext x
    simp
  rw [hxs, ← Finset.coe_union, Set.encard_coe_eq_coe_finsetCard, Nat.cast_inj] at h
  rw [Set.encard_coe_eq_coe_finsetCard, Nat.cast_inj] at hP
  have hunion := Finset.card_union_add_card_inter F xs.toFinset
  have hle := xs.toFinset_card_le
  have hinter : F ∩ xs.toFinset = ∅ := Finset.card_eq_zero.1 (by omega)
  refine ⟨?_, fun x hx hF => ?_⟩
  · have hcard : xs.toFinset.card = xs.length := by omega
    exact Multiset.toFinset_card_eq_card_iff_nodup.1 hcard
  · have hmem : x ∈ F ∩ xs.toFinset := by simpa using And.intro hF hx
    rw [hinter] at hmem
    exact absurd hmem (Finset.notMem_empty x)

/-- Pages have been put in main memory, wherever they were, and no other page has moved. -/
structure Overwritten (res res' : κ → Residence) (xs : List κ) : Prop where
  on : ∀ x ∈ xs, ∃ f, res' x = .ram f
  off : ∀ x ∉ xs, res' x = res x

omit [DecidableEq κ] in
/-- A frame for each page is one too many for a page that is put in twice or that was somewhere. -/
theorem Books.nodup_of_overwritten {res' : κ → Residence} {xs : List κ}
    (h : Books res ramUsed swapFree swapUsed 0) (ho : Overwritten res res' xs)
    (hram : ((ramUsed + xs.length : ℕ) : ℕ∞) = (inRam res').encard)
    (hswap : (swapUsed.length : ℕ∞) = (inSwap res').encard) :
    xs.Nodup ∧ ∀ x ∈ xs, res x = .none := by
  obtain ⟨hR, hS⟩ := h.counts
  -- both counts are of finite sets, so equal counts leave no room for an overlap
  have hunion : inRam res' = inRam res ∪ {x | x ∈ xs} := by
    ext x
    by_cases hx : x ∈ xs
    · simp [inRam, hx, ho.on x hx]
    · simp [inRam, hx, ho.off x hx]
  have hsub : inSwap res' ⊆ inSwap res := by
    rintro x ⟨t, ht⟩
    have hx : x ∉ xs := fun hx => by
      obtain ⟨f, hf⟩ := ho.on x hx
      simp [hf] at ht
    exact ⟨t, ho.off x hx ▸ ht⟩
  have hsame : inSwap res' = inSwap res :=
    (Set.finite_of_encard_eq_coe hswap.symm).eq_of_subset_of_encard_le hsub
      (le_of_eq (hS.symm.trans hswap))
  rw [hunion] at hram
  obtain ⟨hnodup, hnot⟩ := nodup_of_count hR hram
  refine ⟨hnodup, fun x hx => ?_⟩
  cases hres : res x with
  | none => rfl
  | ram f => exact absurd ⟨f, hres⟩ (hnot x hx)
  | swap t =>
      have hmem : x ∈ inSwap res' := hsame ▸ ⟨t, hres⟩
      obtain ⟨u, hu⟩ := hmem
      obtain ⟨f, hf⟩ := ho.on x hx
      simp [hf] at hu

omit [DecidableEq κ] in
/-- The frames of pages that are forgotten are too many. -/
theorem Books.eq_of_forgotten {res' : κ → Residence} (h : Books res ramUsed swapFree swapUsed 0)
    (hsub : ∀ x, res' x = res x ∨ res' x = .none)
    (hram : (ramUsed : ℕ∞) = (inRam res').encard)
    (hswap : (swapUsed.length : ℕ∞) = (inSwap res').encard) : res' = res := by
  obtain ⟨hR, hS⟩ := h.counts
  have hsame : ∀ {x r}, res' x = r → r ≠ .none → res x = r := by
    intro x r hx hr
    rcases hsub x with heq | hnone
    · exact heq ▸ hx
    · exact absurd (hx.symm.trans hnone) hr
  have hramEq : inRam res' = inRam res :=
    (Set.finite_of_encard_eq_coe hram.symm).eq_of_subset_of_encard_le
      (fun x ⟨f, hf⟩ => ⟨f, hsame hf (by simp)⟩) (le_of_eq (hR.symm.trans hram))
  have hswapEq : inSwap res' = inSwap res :=
    (Set.finite_of_encard_eq_coe hswap.symm).eq_of_subset_of_encard_le
      (fun x ⟨t, ht⟩ => ⟨t, hsame ht (by simp)⟩) (le_of_eq (hS.symm.trans hswap))
  funext x
  refine (hsub x).elim id fun hnone => ?_
  cases hres : res x with
  | none => exact hnone
  | ram f =>
      have hmem : x ∈ inRam res' := hramEq ▸ ⟨f, hres⟩
      obtain ⟨g, hg⟩ := hmem
      simp [hnone] at hg
  | swap t =>
      have hmem : x ∈ inSwap res' := hswapEq ▸ ⟨t, hres⟩
      obtain ⟨u, hu⟩ := hmem
      simp [hnone] at hu

end Pager
