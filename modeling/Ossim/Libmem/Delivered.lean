import Ossim.Libmem.Regions

set_option autoImplicit false

/-! # What an allocation delivers

`__alloc` looks for a free region with its size narrowed to an `int`, and records a region at a break it
has narrowed to an `int` as well, whether the area grew or not. As long as neither conversion changes
its number, nothing wraps and the area grows, the regions stay disjoint and below the break (`HeapOk`),
whatever other system calls do to the break, and a request gets what it asked for (`Delivers`). -/

namespace Ossim

open Intervals

/-! ## Rounding up to pages -/

theorem paging64PageAlignsz_facts (sz : ℕ) :
    paging64PageAlignsz sz % 4096 = 0 ∧ paging64PageAlignsz sz < 2 ^ 64 ∧
    (paging64PageAlignsz sz ≠ 0 → sz % 2 ^ 64 ≤ paging64PageAlignsz sz) := by
  unfold paging64PageAlignsz addrT paging64Pagesz
  omega

/-- The rounding of `inc_vma_limit` does nothing to a size `__alloc` has rounded. -/
theorem paging64PageAlignsz_self (sz : ℕ) :
    paging64PageAlignsz (paging64PageAlignsz sz) = paging64PageAlignsz sz := by
  obtain ⟨hmod, hlt, -⟩ := paging64PageAlignsz_facts sz
  generalize paging64PageAlignsz sz = n at hmod hlt ⊢
  unfold paging64PageAlignsz addrT paging64Pagesz
  omega

/-- An end that moves up does not wrap. -/
theorem addrT_add_of_lt {a b : ℕ} (ha : a < 2 ^ 64) (hb : b < 2 ^ 64) (h : a < addrT (a + b)) :
    addrT (a + b) = a + b ∧ b ≠ 0 := by
  unfold addrT at h ⊢
  omega

/-! ## The invariant -/

/-- The invariant of a heap that other system calls may grow too. -/
structure HeapOk (mm : Mm) : Prop extends DisjointBelow mm where
  brk_le : mm.mmap.sbrk ≤ mm.mmap.vmEnd
  end_page : mm.mmap.vmEnd % 4096 = 0
  end_lt : mm.mmap.vmEnd < 2 ^ 64

theorem initMm_heapOk : HeapOk initMm :=
  ⟨initMm_partitioned.1.disjointBelow, Nat.le_refl _, rfl, by decide⟩

theorem HeapOk.congr {mm mm' : Mm} (h : HeapOk mm) (hmmap : mm'.mmap = mm.mmap)
    (hsym : mm'.symrgtbl = mm.symrgtbl) : HeapOk mm' where
  toDisjointBelow := h.raise hsym (by rw [hmmap]) (by rw [hmmap])
  brk_le := by
    rw [hmmap]
    exact h.brk_le
  end_page := by
    rw [hmmap]
    exact h.end_page
  end_lt := by
    rw [hmmap]
    exact h.end_lt

section Growing

variable (host : Host) {c : Caller}

theorem incVmaLimit_heapOk (h : HeapOk c.mm) (vmaid : ℤ) (incSz : ℕ) :
    HeapOk (incVmaLimit host c vmaid incSz).2.mm := by
  rcases incVmaLimit_cases host c vmaid incSz with hsame | ⟨-, -, hgrow, heq⟩
  · rw [hsame]
    exact h
  · obtain ⟨hpage, hlt, hsize⟩ := paging64PageAlignsz_facts incSz
    obtain ⟨hend, hne⟩ := addrT_add_of_lt h.end_lt hlt hgrow
    have hendlt : addrT (c.mm.mmap.vmEnd + paging64PageAlignsz incSz) < 2 ^ 64 :=
      Nat.mod_lt _ (by decide)
    have hle := hsize hne
    have hbrk := h.brk_le
    -- the break moves by the size modulo the width of an address, which is at most its pages
    have hsb : addrT (c.mm.mmap.sbrk + incSz) = c.mm.mmap.sbrk + incSz % 2 ^ 64 := by
      unfold addrT
      omega
    obtain ⟨-, -, hmmap, hsym⟩ := vmMapRam_same host
      (c.setMm (c.mm.setArea (addrT (c.mm.mmap.vmEnd + paging64PageAlignsz incSz))
        (addrT (c.mm.mmap.sbrk + incSz)))) c.mm.mmap.vmEnd
      (cInt (paging64PageAlignsz incSz / paging64Pagesz)).toNat
    have harea : HeapOk (c.mm.setArea (addrT (c.mm.mmap.vmEnd + paging64PageAlignsz incSz))
        (addrT (c.mm.mmap.sbrk + incSz))) := by
      refine ⟨h.raise rfl rfl ?_, ?_, ?_, hendlt⟩
      · show c.mm.mmap.sbrk ≤ addrT (c.mm.mmap.sbrk + incSz)
        omega
      · show addrT (c.mm.mmap.sbrk + incSz) ≤ addrT (c.mm.mmap.vmEnd + paging64PageAlignsz incSz)
        omega
      · show addrT (c.mm.mmap.vmEnd + paging64PageAlignsz incSz) % 4096 = 0
        have hold := h.end_page
        omega
    rw [heq]
    exact harea.congr hmmap hsym

theorem syscall_heapOk (h : HeapOk c.mm) (nr : ℕ) (regs : ScRegs) :
    HeapOk (syscall host c nr regs).2.2.mm := by
  rw [syscall]
  split
  · simp only [sysMemmap]
    split_ifs
    · exact h
    · obtain ⟨hmmap, hsym⟩ := vmapPgdMemset_rest host c.mm (uint32 regs.a2) (cInt regs.a3)
      exact h.congr hmmap hsym
    · exact incVmaLimit_heapOk host h _ _
    · rw [mmSwapPage, Caller.setMswp_mm]
      exact h
    · exact h
    · exact h
    · exact h
  · exact h

end Growing

theorem free_heapOk {c : Caller} (h : HeapOk c.mm) (rgid : ℕ) : HeapOk (free c rgid).2.mm := by
  rw [free]
  split
  · exact h
  · next hid =>
      simp only
      split
      · exact h
      · obtain ⟨hsbrk, hend⟩ :=
          enlistVmFreergList_area (c.mm.setSymrg rgid ⟨0, 0⟩) (c.mm.symrgtbl rgid)
        have hrel := h.release (Nat.lt_of_not_le hid)
        refine ⟨hrel, ?_, ?_, ?_⟩
        · rw [Caller.setMm_mm, hsbrk, hend]
          exact h.brk_le
        · rw [Caller.setMm_mm, hend]
          exact h.end_page
        · rw [Caller.setMm_mm, hend]
          exact h.end_lt

/-! ## Requests that can be served -/

/-- The free region the search of `__alloc` takes from. -/
def Mm.firstFit (mm : Mm) (size : ℕ) : Option VmRg :=
  mm.mmap.vmFreergList.find? (VmRg.fits (addrOfInt size))

/-- The conversions to `int` keep the number they are applied to, the size if a free region is found and
    the break otherwise; nothing wraps; and the area can grow, by a request that the system call does not
    cut. -/
structure Caller.Serves (c : Caller) (size : ℕ) : Prop where
  size_lt : size < 2 ^ 64
  fit : ∀ rg, c.mm.firstFit size = some rg → addrOfInt size = size ∧ rg.rgStart + size < 2 ^ 64
  brk : c.mm.firstFit size = none → c.proc.registered = true ∧
    addrOfInt c.mm.mmap.sbrk = c.mm.mmap.sbrk ∧ paging64PageAlignsz size < 2 ^ 32 ∧
    c.mm.mmap.vmEnd < addrT (c.mm.mmap.vmEnd + paging64PageAlignsz size)

/-- `x` is one of the bytes of the region. -/
def VmRg.Holds (rg : VmRg) (x : ℕ) : Prop := rg.rgStart ≤ x ∧ x < rg.rgEnd

/-- What a successful `__alloc` is to deliver. -/
structure Delivers (c c' : Caller) (rgid size : ℕ) : Prop where
  size_eq : (c'.mm.symrgtbl rgid).rgStart + size = (c'.mm.symrgtbl rgid).rgEnd
  apart : ∀ x, (c'.mm.symrgtbl rgid).Holds x → ∀ rg ∈ c.mm.symRegions, ¬ rg.Holds x
  free : (getFreeVmrgArea c.mm size).1 = 0 → ∀ x,
    (∃ rg ∈ c'.mm.mmap.vmFreergList, rg.Holds x) ↔
      (∃ rg ∈ c.mm.mmap.vmFreergList, rg.Holds x) ∧ ¬ (c'.mm.symrgtbl rgid).Holds x

section Serving

variable (host : Host) {c : Caller} {rgid size : ℕ}

theorem getFreeVmrgArea_of_none {mm : Mm} (hno : mm.firstFit size = none) :
    getFreeVmrgArea mm size = (-1, noRg, mm) := by
  rw [getFreeVmrgArea, freergFirstFit_of_none hno]
  rfl

/-- No free region starts at the mark of the search for none. -/
theorem HeapOk.start_ne_noRg {mm : Mm} (h : HeapOk mm) {rg : VmRg} (hrg : rg ∈ mm.mmap.vmFreergList) :
    rg.rgStart ≠ noRg.rgStart := by
  have hmem : rg ∈ mm.regions := List.mem_append_right _ hrg
  have hstart := h.start_le rg hmem
  have hend := h.end_le rg hmem
  have hbrk := h.brk_le
  have hpage := h.end_page
  have hlt := h.end_lt
  show rg.rgStart ≠ 2 ^ 64 - 1
  omega

theorem getFreeVmrgArea_of_some {mm : Mm} (h : HeapOk mm) {rg : VmRg}
    (hfit : mm.firstFit size = some rg) :
    (getFreeVmrgArea mm size).1 = 0 ∧
    (getFreeVmrgArea mm size).2.1 = ⟨rg.rgStart, addrT (rg.rgStart + addrOfInt size)⟩ := by
  have hfst := freergFirstFit_of_some hfit
  have hne := h.start_ne_noRg (List.mem_of_find?_eq_some hfit)
  simp only [getFreeVmrgArea, hfst, if_neg hne, and_self]

/-- A region that was free is in none of the recorded ones. -/
theorem DisjointBelow.apart_of_free {mm : Mm} (h : DisjointBelow mm) {x : ℕ}
    (hx : 0 < depth VmRg.rgStart VmRg.rgEnd x mm.mmap.vmFreergList) {rg : VmRg}
    (hrg : rg ∈ mm.symRegions) : ¬ rg.Holds x := by
  intro hin
  have hsym : 0 < depth VmRg.rgStart VmRg.rgEnd x mm.symRegions := depth_pos_iff.2 ⟨rg, hrg, hin⟩
  have hle := h.depth_le x
  rw [Mm.regionDepth, Mm.regions, depth_append] at hle
  omega

theorem alloc_fit (h : HeapOk c.mm) (hid : rgid < pagingMaxSymtblSz) (hserve : c.Serves size)
    {rg : VmRg} (hfit : c.mm.firstFit size = some rg) :
    HeapOk (alloc host c rgid size).2.2.mm ∧ Delivers c (alloc host c rgid size).2.2 rgid size := by
  obtain ⟨hint, hcut⟩ := hserve.fit rg hfit
  have hfound := (getFreeVmrgArea_of_some h hfit).1
  rw [Mm.firstFit, hint] at hfit
  have hmem := List.mem_of_find?_eq_some hfit
  have hle := List.find?_some hfit
  simp only [VmRg.fits, decide_eq_true_eq, addrT_of_lt hcut] at hle
  have hend := h.end_le rg (List.mem_append_right _ hmem)
  have hfst := freergFirstFit_of_some hfit
  rw [addrT_of_lt hcut] at hfst
  obtain ⟨hrest, hdepth⟩ := freergFirstFit_split hfit hcut
  rw [hfst] at hdepth
  rw [alloc_from_list host c rgid hid hfound]
  simp only [getFreeVmrgArea, hint, hfst]
  generalize (freergFirstFit size c.mm.mmap.vmFreergList).2 = l at hrest hdepth
  have hrg : ((({ c.mm with mmap := { c.mm.mmap with vmFreergList := l } } : Mm).setSymrg rgid
      ⟨rg.rgStart, rg.rgStart + size⟩).symrgtbl rgid) = ⟨rg.rgStart, rg.rgStart + size⟩ :=
    Function.update_self ..
  -- what is left of the free list ends where the free regions ended
  have htake := h.takeFree hid ⟨Nat.le_add_right .., Nat.le_trans hle hend⟩ (fun q hq => by
    rcases hrest q hq with hq | ⟨-, hq, heq⟩
    · exact ⟨h.start_le q (List.mem_append_right _ hq), h.end_le q (List.mem_append_right _ hq)⟩
    · exact ⟨hq, heq ▸ hend⟩) hdepth
  refine ⟨⟨htake, h.brk_le, h.end_page, h.end_lt⟩, ?_, ?_, ?_⟩
  · rw [Caller.setMm_mm, hrg]
  · -- the region is part of a free one
    intro x hx q hq
    rw [Caller.setMm_mm, hrg] at hx
    refine h.apart_of_free ?_ hq
    have hdx := hdepth x
    rw [point_eq_one hx] at hdx
    omega
  · intro _ x
    rw [Caller.setMm_mm, hrg]
    have hdx := hdepth x
    have hdl := h.depth_le x
    have hfree := @depth_pos_iff _ VmRg.rgStart VmRg.rgEnd x l
    have hfree' := @depth_pos_iff _ VmRg.rgStart VmRg.rgEnd x c.mm.mmap.vmFreergList
    rw [Mm.regionDepth, Mm.regions, depth_append] at hdl
    change (∃ q ∈ l, q.rgStart ≤ x ∧ x < q.rgEnd) ↔
      (∃ q ∈ c.mm.mmap.vmFreergList, q.rgStart ≤ x ∧ x < q.rgEnd) ∧ _
    rw [← hfree, ← hfree']
    by_cases hx : rg.rgStart ≤ x ∧ x < rg.rgStart + size
    · rw [point_eq_one hx] at hdx
      exact iff_of_false (by omega) fun hin => hin.2 hx
    · rw [point_eq_zero hx] at hdx
      exact ⟨fun hin => ⟨by omega, hx⟩, fun hin => by omega⟩

theorem alloc_brk (h : HeapOk c.mm) (hid : rgid < pagingMaxSymtblSz) (hserve : c.Serves size)
    (hno : c.mm.firstFit size = none) :
    HeapOk (alloc host c rgid size).2.2.mm ∧ Delivers c (alloc host c rgid size).2.2 rgid size := by
  obtain ⟨hreg, hbrk, hnarrow, hgrow⟩ := hserve.brk hno
  have hsearch := getFreeVmrgArea_of_none hno
  obtain ⟨-, hallt, hal⟩ := paging64PageAlignsz_facts size
  obtain ⟨hend, hne⟩ := addrT_add_of_lt h.end_lt hallt hgrow
  have hsz := hal hne
  rw [Nat.mod_eq_of_lt hserve.size_lt] at hsz
  have hle := h.brk_le
  have hendlt : addrT (c.mm.mmap.vmEnd + paging64PageAlignsz size) < 2 ^ 64 := Nat.mod_lt _ (by decide)
  have hsb : addrT (c.mm.mmap.sbrk + paging64PageAlignsz size) =
      c.mm.mmap.sbrk + paging64PageAlignsz size := addrT_of_lt (by omega)
  -- the area grows by the whole request, since no sum wraps and nothing is cut
  have hgrown := incVmaLimit_heapOk host h 0 (paging64PageAlignsz size)
  have hlimits : (incVmaLimit host c 0 (paging64PageAlignsz size)).2.mm.mmap =
      (c.mm.setArea (c.mm.mmap.vmEnd + paging64PageAlignsz size)
        (c.mm.mmap.sbrk + paging64PageAlignsz size)).mmap ∧
      (incVmaLimit host c 0 (paging64PageAlignsz size)).2.mm.symrgtbl = c.mm.symrgtbl := by
    rw [incVmaLimit_grows host c (le_refl 0) hne (by rw [paging64PageAlignsz_self]; exact hgrow),
      paging64PageAlignsz_self, hend, hsb]
    exact (vmMapRam_same host ..).2.2
  rw [alloc_at_brk host c rgid hid (by rw [hsearch]; simp)]
  have hmm : c.setMm c.mm = c := rfl
  simp only [hsearch, hreg, if_true, hbrk, hmm, uint32_of_lt hnarrow]
  generalize (incVmaLimit host c 0 (paging64PageAlignsz size)).2 = c₁ at hgrown hlimits
  obtain ⟨hmmap, hsym⟩ := hlimits
  have hcut : addrT (c.mm.mmap.sbrk + size) = c.mm.mmap.sbrk + size := addrT_of_lt (by omega)
  obtain ⟨hsbrk, hvmEnd⟩ :=
    allocAtBrk_area c₁.mm rgid size c.mm.mmap.sbrk (paging64PageAlignsz size)
  have hbelow := h.allocAtBrk hid hsz hsym (by rw [hmmap]; rfl) (by rw [hmmap]; exact Nat.le_refl _)
    (Nat.lt_of_le_of_lt hgrown.brk_le hgrown.end_lt)
  refine ⟨⟨hbelow, ?_, ?_, ?_⟩, ?_, ?_, ?_⟩
  · rw [Caller.setMm_mm, hsbrk, hvmEnd]
    exact hgrown.brk_le
  · rw [Caller.setMm_mm, hvmEnd]
    exact hgrown.end_page
  · rw [Caller.setMm_mm, hvmEnd]
    exact hgrown.end_lt
  · rw [Caller.setMm_mm, allocAtBrk_symrgtbl_self, hcut]
  · -- the other regions end at the old break
    intro x hx q hq hin
    rw [Caller.setMm_mm, allocAtBrk_symrgtbl_self] at hx
    have hqend := h.end_le q (List.mem_append_left _ hq)
    have hlo : c.mm.mmap.sbrk ≤ x := hx.1
    have hhi : x < q.rgEnd := hin.2
    omega
  · intro hfound
    rw [hsearch] at hfound
    exact absurd hfound (by simp)

/-- **Step.** A request that can be served gets what it asked for. -/
theorem alloc_delivered (h : HeapOk c.mm) (hid : rgid < pagingMaxSymtblSz) (hserve : c.Serves size) :
    HeapOk (alloc host c rgid size).2.2.mm ∧ Delivers c (alloc host c rgid size).2.2 rgid size := by
  cases hfit : c.mm.firstFit size with
  | none => exact alloc_brk host h hid hserve hfit
  | some rg => exact alloc_fit host h hid hserve hfit

/-- A request for which the search finds a region gets its size only if it can be served. -/
theorem Delivers.serves (h : HeapOk c.mm) (hid : rgid < pagingMaxSymtblSz) (hsize : size < 2 ^ 64)
    {rg : VmRg} (hfit : c.mm.firstFit size = some rg)
    (hdel : Delivers c (alloc host c rgid size).2.2 rgid size) : c.Serves size := by
  obtain ⟨hfound, hrg⟩ := getFreeVmrgArea_of_some h hfit
  have hset : (alloc host c rgid size).2.2.mm.symrgtbl rgid =
      ⟨rg.rgStart, addrT (rg.rgStart + addrOfInt size)⟩ := by
    rw [alloc_from_list host c rgid hid hfound, hrg]
    exact Function.update_self ..
  have heq := hdel.size_eq
  rw [hset] at heq
  change rg.rgStart + size = addrT (rg.rgStart + addrOfInt size) at heq
  have hint : addrOfInt size < 2 ^ 64 := ((BitVec.ofNat 32 size).signExtend 64).isLt
  refine ⟨hsize, fun q hq => ?_, fun hno => absurd (hno.symm.trans hfit) (by simp)⟩
  obtain rfl := Option.some.inj (hfit.symm.trans hq)
  unfold addrT at heq
  omega

end Serving

end Ossim
