import Ossim.Memphy.Proofs

set_option autoImplicit false

/-! # How `init_memphy` carves a device

Frames are used as blocks of `PAGING64_PAGESZ` bytes, and `MEMPHY_format` is called with
`PAGING_PAGESZ`. This module says what has to hold for the frames of a fresh device to lie inside it,
and that this is so only for devices without frames. -/

namespace Ossim

/-- The lives of a device: frames are obtained, and the obtained ones released, in any order. The list
    collects the frames obtained so far. -/
inductive DeviceRun (start : Memphy) : List ℕ → Memphy → Prop where
  | start : DeviceRun start [] start
  | get {fs : List ℕ} {mp mp' : Memphy} {f : ℕ} (h : DeviceRun start fs mp)
      (hget : memphyGetFreefp mp = some (f, mp')) : DeviceRun start (f :: fs) mp'
  | put {fs : List ℕ} {mp : Memphy} {f : ℕ} (h : DeviceRun start fs mp) (hf : f ∈ fs) :
      DeviceRun start fs (memphyPutFreefp mp f).2
  | write {fs : List ℕ} {mp : Memphy} (addr : ℕ) (b : Byte) (h : DeviceRun start fs mp) :
      DeviceRun start fs (memphyWrite mp addr b).2

/-- The addresses computed from a frame number: by the accesses to a byte of the frame, and by
    `__swap_cp_page`. -/
def FrameAddress (f a : ℕ) : Prop :=
  ∃ off < paging64Pagesz, a = phyaddr f off ∨ a = addrT (f * paging64Pagesz + off)

/-- The frames of a device made by `init_memphy` are the pages that fit into it, each listed once, and
    the addresses computed from them stay below its size. -/
structure CarvesPages (mp : Memphy) (maxSize : ℕ) (randomflg : Bool) : Prop where
  nodup : (initMemphy mp maxSize randomflg).freeFpList.Nodup
  mem_iff : ∀ f, f ∈ (initMemphy mp maxSize randomflg).freeFpList ↔
    (f + 1) * paging64Pagesz ≤ maxSize
  inside : ∀ {fs dev}, DeviceRun (initMemphy mp maxSize randomflg) fs dev →
    ∀ f ∈ fs, ∀ a, FrameAddress f a → (a : ℤ) < dev.maxsz

/-! ## The free list of a fresh device -/

section Init

variable (mp : Memphy) (maxSize : ℕ) (randomflg : Bool)

@[simp]
theorem initMemphy_maxsz : (initMemphy mp maxSize randomflg).maxsz = cInt maxSize := by
  simp only [initMemphy, memphyFormat]
  split <;> rfl

/-- A device too small for one frame of `PAGING_PAGESZ` keeps the list it was given. -/
theorem initMemphy_freeFpList_of_lt (h : cInt maxSize < 256) :
    (initMemphy mp maxSize randomflg).freeFpList = mp.freeFpList := by
  have hnum : (cInt maxSize).tdiv 256 ≤ 0 := by
    rcases Int.le_total 0 (cInt maxSize) with hpos | hneg
    · exact Int.le_of_eq (Int.tdiv_eq_zero_of_lt hpos h)
    · have hnonneg : 0 ≤ (-cInt maxSize).tdiv 256 := Int.tdiv_nonneg (by omega) (by omega)
      rw [Int.neg_tdiv] at hnonneg
      omega
  simp [initMemphy, memphyFormat, pagingPagesz, hnum]

/-- Any other device is cut into frames of `PAGING_PAGESZ` bytes. -/
theorem initMemphy_freeFpList_of_le (h : 256 ≤ cInt maxSize) :
    (initMemphy mp maxSize randomflg).freeFpList = List.range (cInt maxSize / 256).toNat := by
  have hdiv : (cInt maxSize).tdiv 256 = cInt maxSize / 256 :=
    Int.tdiv_eq_ediv_of_nonneg (by omega)
  have hnum : ¬ cInt maxSize / 256 ≤ 0 := by omega
  obtain ⟨k, hk⟩ : ∃ k, (cInt maxSize / 256).toNat = k + 1 :=
    Nat.exists_eq_succ_of_ne_zero (by omega)
  simp only [initMemphy, memphyFormat, pagingPagesz, Nat.cast_ofNat, hdiv, if_neg hnum, hk,
    Nat.add_sub_cancel]
  rw [List.range_eq_range', List.range'_succ]

theorem initMemphy_usedFpList_of_le (h : 256 ≤ cInt maxSize) :
    (initMemphy mp maxSize randomflg).usedFpList = [] := by
  have hdiv : (cInt maxSize).tdiv 256 = cInt maxSize / 256 :=
    Int.tdiv_eq_ediv_of_nonneg (by omega)
  have hnum : ¬ cInt maxSize / 256 ≤ 0 := by omega
  simp only [initMemphy, memphyFormat, pagingPagesz, Nat.cast_ofNat, hdiv, if_neg hnum]

end Init

/-! ## Runs -/

theorem memphyPutFreefp_maxsz (mp : Memphy) (f : ℕ) : (memphyPutFreefp mp f).2.maxsz = mp.maxsz := by
  simp only [memphyPutFreefp]
  split <;> rfl

theorem DeviceRun.maxsz {start mp : Memphy} {fs : List ℕ} (h : DeviceRun start fs mp) :
    mp.maxsz = start.maxsz := by
  induction h with
  | start => rfl
  | get _ hget ih =>
      obtain ⟨_, _, rfl⟩ := memphyGetFreefp_eq_some hget
      exact ih
  | put _ _ ih => rw [memphyPutFreefp_maxsz, ih]
  | write addr b _ ih =>
      obtain ⟨_, _, he⟩ := memphyWrite_eq _ addr b
      rw [he]
      exact ih

/-- Every frame of the free list can be obtained, by asking often enough. -/
theorem DeviceRun.obtain_of_mem {start : Memphy} {l : List ℕ} {fs : List ℕ} {mp : Memphy}
    (h : DeviceRun start fs mp) (hl : mp.freeFpList = l) {f : ℕ} (hf : f ∈ l) :
    ∃ fs' mp', DeviceRun start fs' mp' ∧ f ∈ fs' := by
  induction l generalizing fs mp with
  | nil => exact absurd hf (by simp)
  | cons g rest ih =>
      have hget : memphyGetFreefp mp =
          some (g, { mp with freeFpList := rest, usedFpList := g :: mp.usedFpList }) := by
        simp [memphyGetFreefp, hl]
      rcases List.mem_cons.1 hf with rfl | hf
      · exact ⟨_, _, h.get hget, List.mem_cons_self ..⟩
      · exact ih (h.get hget) rfl hf

/-- A device with no free frame never hands one out. -/
theorem DeviceRun.eq_nil_of_free_nil {start mp : Memphy} {fs : List ℕ} (h : DeviceRun start fs mp)
    (hfree : start.freeFpList = []) : fs = [] ∧ mp.freeFpList = [] := by
  induction h with
  | start => exact ⟨rfl, hfree⟩
  | get _ hget ih =>
      obtain ⟨_, hcons, _⟩ := memphyGetFreefp_eq_some hget
      rw [ih.2] at hcons
      exact absurd hcons (by simp)
  | put _ hf ih =>
      rw [ih.1] at hf
      exact absurd hf (by simp)
  | write addr b _ ih => exact ⟨ih.1, by rw [memphyWrite_freeFpList, ih.2]⟩

/-! ## Pages inside the device -/

/-- The last byte of an obtained frame bounds the size of the device from below. -/
theorem CarvesPages.lt_maxsz {mp : Memphy} {maxSize : ℕ} {randomflg : Bool}
    (h : CarvesPages mp maxSize randomflg) {f : ℕ}
    (hf : f ∈ (initMemphy mp maxSize randomflg).freeFpList) :
    ((f * 4096 + 4095 : ℕ) : ℤ) < cInt maxSize := by
  obtain ⟨fs, dev, hrun, hmem⟩ := DeviceRun.obtain_of_mem .start rfl hf
  have hlt := h.inside hrun f hmem (phyaddr f 4095) ⟨4095, by decide, Or.inl rfl⟩
  rwa [hrun.maxsz, initMemphy_maxsz, phyaddr, Nat.shiftLeft_eq] at hlt

/-- **Frames inside the device.** `init_memphy` builds the list of the pages that fit, and only
    addresses inside the device are computed from its frames, exactly when there is no frame at all:
    the device is smaller than `PAGING_PAGESZ`, and its list was empty before. -/
theorem initMemphy_carvesPages_iff (mp : Memphy) (maxSize : ℕ) (randomflg : Bool) :
    CarvesPages mp maxSize randomflg ↔ maxSize < 256 ∧ mp.freeFpList = [] := by
  constructor
  · intro h
    by_cases hsmall : cInt maxSize < 256
    · have hlist := initMemphy_freeFpList_of_lt mp maxSize randomflg hsmall
      have hnil : mp.freeFpList = [] := by
        by_contra hne
        obtain ⟨f, hf⟩ := List.exists_mem_of_ne_nil _ hne
        have hlt := h.lt_maxsz (hlist ▸ hf)
        omega
      refine ⟨?_, hnil⟩
      -- a large size narrowed to a small one: page 0 fits and is missing from the list
      by_contra hge
      have hmaxlt : maxSize < 4096 := by
        by_contra hge'
        have hmem := (h.mem_iff 0).2 (by rw [paging64Pagesz]; omega)
        rw [hlist, hnil] at hmem
        exact absurd hmem (by simp)
      rw [cInt_of_lt (by omega)] at hsmall
      omega
    · -- the last of the 256-byte frames, used as a page, ends beyond the device
      exfalso
      have hlist := initMemphy_freeFpList_of_le mp maxSize randomflg (by omega)
      have hmem : (cInt maxSize / 256).toNat - 1 ∈
          (initMemphy mp maxSize randomflg).freeFpList := by
        rw [hlist, List.mem_range]
        omega
      have hlt := h.lt_maxsz hmem
      omega
  · rintro ⟨hlt, hnil⟩
    have hsmall : cInt maxSize < 256 := by
      rw [cInt_of_lt (by omega)]
      omega
    have hlist : (initMemphy mp maxSize randomflg).freeFpList = [] := by
      rw [initMemphy_freeFpList_of_lt mp maxSize randomflg hsmall, hnil]
    refine ⟨?_, ?_, ?_⟩
    · rw [hlist]
      exact List.nodup_nil
    · intro f
      rw [hlist, paging64Pagesz]
      simp only [List.not_mem_nil, false_iff]
      omega
    · intro fs dev hrun f hf
      rw [(hrun.eq_nil_of_free_nil hlist).1] at hf
      exact absurd hf (by simp)

/-- A device of one page gets sixteen frames. -/
theorem not_carvesPages_onePage : ¬ CarvesPages zeroMemphy 4096 true := by
  intro h
  have hmem : 1 ∈ (initMemphy zeroMemphy 4096 true).freeFpList := by decide
  have hfits := (h.mem_iff 1).1 hmem
  exact absurd hfits (by decide)

end Ossim
