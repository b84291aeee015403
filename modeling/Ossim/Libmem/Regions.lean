import Ossim.Lib.Intervals
import Ossim.Libmem.Proofs

set_option autoImplicit false

/-! # Regions partition the heap of a process

The symbol table and the free list of a process hold intervals of its address space. `liballoc` and
`libfree` cut them, move them between the two, and append new ones at the break; the invariant is
that every address below the break is in at most one of them (`Partitioned`), and in exactly one as
long as no allocation overwrites a region that is still live (`Covered`). -/

namespace Ossim

open Intervals

/-- The regions recorded in the symbol table. -/
def Mm.symRegions (mm : Mm) : List VmRg := (List.range pagingMaxSymtblSz).map mm.symrgtbl

/-- All intervals of an address space. -/
def Mm.regions (mm : Mm) : List VmRg := mm.symRegions ++ mm.mmap.vmFreergList

/-- The number of intervals an address lies in. -/
def Mm.regionDepth (mm : Mm) (x : ℕ) : ℕ := depth VmRg.rgStart VmRg.rgEnd x mm.regions

/-- `[rg_start, rg_end)` is empty. -/
def VmRg.IsEmpty (rg : VmRg) : Prop := rg.rgEnd ≤ rg.rgStart

instance (rg : VmRg) : Decidable rg.IsEmpty := inferInstanceAs (Decidable (_ ≤ _))

/-- The invariant of an address space. -/
structure Partitioned (mm : Mm) : Prop where
  start_le : ∀ r ∈ mm.regions, r.rgStart ≤ r.rgEnd
  end_le : ∀ r ∈ mm.regions, r.rgEnd ≤ mm.mmap.sbrk
  depth_le : ∀ x, mm.regionDepth x ≤ 1
  brk_eq : mm.mmap.sbrk = mm.mmap.vmEnd
  brk_lt : mm.mmap.sbrk < 2 ^ 31

/-- What every growth of the area keeps: the intervals are disjoint, and end at the break or below. -/
structure DisjointBelow (mm : Mm) : Prop where
  start_le : ∀ r ∈ mm.regions, r.rgStart ≤ r.rgEnd
  end_le : ∀ r ∈ mm.regions, r.rgEnd ≤ mm.mmap.sbrk
  depth_le : ∀ x, mm.regionDepth x ≤ 1

theorem Partitioned.disjointBelow {mm : Mm} (h : Partitioned mm) : DisjointBelow mm :=
  ⟨h.start_le, h.end_le, h.depth_le⟩

/-- No byte is lost. -/
def Covered (mm : Mm) : Prop := ∀ x < mm.mmap.sbrk, mm.regionDepth x = 1

/-! ## The first-fit search -/

theorem mem_dropFreerg {rgit r : VmRg} {rest : List VmRg} (h : r ∈ dropFreerg rgit rest) :
    r = ⟨rgit.rgEnd, rgit.rgEnd⟩ ∨ r ∈ rest := by
  cases rest with
  | nil => exact Or.inl (List.mem_singleton.1 h)
  | cons next rest => exact Or.inr h

theorem depth_dropFreerg (rgit : VmRg) (rest : List VmRg) (x : ℕ) :
    depth VmRg.rgStart VmRg.rgEnd x (dropFreerg rgit rest) = depth VmRg.rgStart VmRg.rgEnd x rest := by
  cases rest with
  | nil => simp [dropFreerg, point]
  | cons next rest => rfl

/-- The test of the search on a region. -/
def VmRg.fits (size : ℕ) (rgit : VmRg) : Bool := decide (addrT (rgit.rgStart + size) ≤ rgit.rgEnd)

theorem freergFirstFit_of_none {size : ℕ} {l : List VmRg} (h : l.find? (VmRg.fits size) = none) :
    freergFirstFit size l = (noRg, l) := by
  induction l with
  | nil => rfl
  | cons rgit rest ih =>
      obtain ⟨hfit, hrest⟩ := List.forall_mem_cons.1 (List.find?_eq_none.1 h)
      simp only [VmRg.fits, decide_eq_true_eq] at hfit
      rw [freergFirstFit]
      simp only [if_neg hfit, ih (List.find?_eq_none.2 hrest)]

/-- The search takes the lower end of the first region that fits. -/
theorem freergFirstFit_of_some {size : ℕ} {l : List VmRg} {rg : VmRg}
    (h : l.find? (VmRg.fits size) = some rg) :
    (freergFirstFit size l).1 = ⟨rg.rgStart, addrT (rg.rgStart + size)⟩ := by
  induction l with
  | nil => exact absurd h (by simp)
  | cons rgit rest ih =>
      rw [freergFirstFit]
      by_cases hfit : addrT (rgit.rgStart + size) ≤ rgit.rgEnd
      · rw [List.find?_cons_of_pos (by simpa [VmRg.fits] using hfit)] at h
        obtain rfl := Option.some.inj h
        simp only [if_pos hfit]
      · rw [List.find?_cons_of_neg (by simpa [VmRg.fits] using hfit)] at h
        simp only [if_neg hfit, ih h]

/-- If the cut does not wrap, what the search leaves is the list without the region it took. -/
theorem freergFirstFit_split {size : ℕ} {l : List VmRg} {rg : VmRg}
    (h : l.find? (VmRg.fits size) = some rg) (hcut : rg.rgStart + size < 2 ^ 64) :
    (∀ q ∈ (freergFirstFit size l).2,
      q ∈ l ∨ rg.rgStart + size ≤ q.rgStart ∧ q.rgStart ≤ q.rgEnd ∧ q.rgEnd = rg.rgEnd) ∧
    ∀ x, point VmRg.rgStart VmRg.rgEnd x (freergFirstFit size l).1 +
      depth VmRg.rgStart VmRg.rgEnd x (freergFirstFit size l).2 = depth VmRg.rgStart VmRg.rgEnd x l := by
  induction l with
  | nil => exact absurd h (by simp)
  | cons rgit rest ih =>
      rw [freergFirstFit]
      by_cases hfit : addrT (rgit.rgStart + size) ≤ rgit.rgEnd
      · rw [List.find?_cons_of_pos (by simpa [VmRg.fits] using hfit)] at h
        obtain rfl := Option.some.inj h
        rw [addrT_of_lt hcut] at hfit ⊢
        simp only [if_pos hfit]
        by_cases hleft : rgit.rgStart + size < rgit.rgEnd
        · -- the node keeps what is behind the cut
          simp only [if_pos hleft]
          refine ⟨fun q hq => ?_, fun x => ?_⟩
          · rcases List.mem_cons.1 hq with rfl | hq
            · exact Or.inr ⟨Nat.le_refl _, hfit, rfl⟩
            · exact Or.inl (List.mem_cons_of_mem _ hq)
          · simp only [depth_cons, point]
            split_ifs <;> omega
        · -- the node is used up: its successor is cloned into it, or it stays as an empty dummy
          simp only [if_neg hleft]
          refine ⟨fun q hq => ?_, fun x => ?_⟩
          · rcases mem_dropFreerg hq with rfl | hq
            · exact Or.inr ⟨hfit, Nat.le_refl _, rfl⟩
            · exact Or.inl (List.mem_cons_of_mem _ hq)
          · have hend : rgit.rgStart + size = rgit.rgEnd := by omega
            rw [depth_dropFreerg, depth_cons, hend]
      · rw [List.find?_cons_of_neg (by simpa [VmRg.fits] using hfit)] at h
        simp only [if_neg hfit]
        obtain ⟨hmem, hdepth⟩ := ih h
        refine ⟨fun q hq => ?_, fun x => ?_⟩
        · rcases List.mem_cons.1 hq with rfl | hq
          · exact Or.inl (List.mem_cons_self ..)
          · exact (hmem q hq).imp_left (List.mem_cons_of_mem _)
        · have hx := hdepth x
          simp only [depth_cons]
          omega

/-- What the search does to a list of intervals below `B`: nothing, or it takes a region out of it
    without losing a point. -/
theorem freergFirstFit_spec {size B : ℕ} (hsize : size < 2 ^ 31) (hB : B ≤ 2 ^ 31) (l : List VmRg)
    (hl : ∀ r ∈ l, r.rgStart ≤ r.rgEnd ∧ r.rgEnd ≤ B) :
    let r := freergFirstFit size l
    (∀ q ∈ r.2, q.rgStart ≤ q.rgEnd ∧ q.rgEnd ≤ B) ∧
    (r.1 = noRg ∧ r.2 = l ∨
      r.1.rgEnd = r.1.rgStart + size ∧ r.1.rgEnd ≤ B ∧
      ∀ x, point VmRg.rgStart VmRg.rgEnd x r.1 + depth VmRg.rgStart VmRg.rgEnd x r.2 =
        depth VmRg.rgStart VmRg.rgEnd x l) := by
  intro r
  cases hfind : l.find? (VmRg.fits size) with
  | none =>
      have hr : r = (noRg, l) := freergFirstFit_of_none hfind
      rw [hr]
      exact ⟨hl, Or.inl ⟨rfl, rfl⟩⟩
  | some rg =>
      obtain ⟨hle, hend⟩ := hl rg (List.mem_of_find?_eq_some hfind)
      have hcut : rg.rgStart + size < 2 ^ 64 := by omega
      have hfit := List.find?_some hfind
      simp only [VmRg.fits, decide_eq_true_eq, addrT_of_lt hcut] at hfit
      obtain ⟨hmem, hdepth⟩ := freergFirstFit_split hfind hcut
      have hfst : r.1 = ⟨rg.rgStart, rg.rgStart + size⟩ := by
        rw [freergFirstFit_of_some hfind, addrT_of_lt hcut]
      refine ⟨fun q hq => ?_, Or.inr ⟨by rw [hfst], hfst ▸ Nat.le_trans hfit hend, hdepth⟩⟩
      rcases hmem q hq with hq | ⟨-, hq, heq⟩
      · exact hl q hq
      · exact ⟨hq, heq ▸ hend⟩

/-! ## The two operations on intervals -/

theorem mem_symRegions_setSymrg {mm : Mm} {rgid : ℕ} {rg r : VmRg}
    (h : r ∈ (mm.setSymrg rgid rg).symRegions) : r = rg ∨ r ∈ mm.symRegions := by
  obtain ⟨i, hi, rfl⟩ := List.mem_map.1 h
  rw [Mm.setSymrg]
  by_cases hid : i = rgid
  · left
    rw [hid]
    exact Function.update_self ..
  · right
    exact List.mem_map.2 ⟨i, hi, (Function.update_of_ne hid ..).symm⟩

theorem symrgtbl_mem_regions (mm : Mm) {rgid : ℕ} (h : rgid < pagingMaxSymtblSz) :
    mm.symrgtbl rgid ∈ mm.regions :=
  List.mem_append_left _ (List.mem_map_of_mem (List.mem_range.2 h))

/-- Writing an entry of the symbol table replaces its interval. -/
theorem regionDepth_setSymrg (mm : Mm) {rgid : ℕ} (h : rgid < pagingMaxSymtblSz) (rg : VmRg) (x : ℕ) :
    (mm.setSymrg rgid rg).regionDepth x + point VmRg.rgStart VmRg.rgEnd x (mm.symrgtbl rgid) =
      mm.regionDepth x + point VmRg.rgStart VmRg.rgEnd x rg := by
  have hupd := @depth_range_update _ VmRg.rgStart VmRg.rgEnd mm.symrgtbl _ _ h rg x
  simp only [Mm.regionDepth, Mm.regions, Mm.symRegions, depth_append, Mm.setSymrg] at hupd ⊢
  omega

theorem enlistVmFreergList_regions (mm : Mm) (rg : VmRg) :
    (∀ r ∈ (enlistVmFreergList mm rg).2.regions, r = rg ∨ r ∈ mm.regions) ∧
    (∀ x, (enlistVmFreergList mm rg).2.regionDepth x =
      point VmRg.rgStart VmRg.rgEnd x rg + mm.regionDepth x) := by
  rw [enlistVmFreergList]
  split
  · next hempty =>
      refine ⟨fun r hr => Or.inr hr, fun x => ?_⟩
      rw [point_eq_zero (by omega), Nat.zero_add]
  · simp only [Mm.regionDepth, Mm.regions, Mm.symRegions, depth_append, depth_cons, List.mem_append,
      List.mem_cons]
    exact ⟨fun r hr => by tauto, fun x => by omega⟩

theorem enlistVmFreergList_area (mm : Mm) (rg : VmRg) :
    (enlistVmFreergList mm rg).2.mmap.sbrk = mm.mmap.sbrk ∧
    (enlistVmFreergList mm rg).2.mmap.vmEnd = mm.mmap.vmEnd := by
  rw [enlistVmFreergList]
  split <;> simp

/-- The intervals after an entry of the table was set and the free list replaced. -/
theorem mem_regions_takeFree {mm : Mm} {rgid : ℕ} {rg r : VmRg} {l : List VmRg}
    (h : r ∈ (({ mm with mmap := { mm.mmap with vmFreergList := l } } : Mm).setSymrg rgid rg).regions) :
    r = rg ∨ r ∈ mm.regions ∨ r ∈ l := by
  rcases List.mem_append.1 h with h | h
  · rcases mem_symRegions_setSymrg h with rfl | h
    · exact Or.inl rfl
    · exact Or.inr (Or.inl (List.mem_append_left _ h))
  · exact Or.inr (Or.inr h)

/-- Setting an entry of the table to an interval taken out of the free list. -/
theorem regionDepth_takeFree {mm : Mm} {rgid : ℕ} (hid : rgid < pagingMaxSymtblSz) {rg : VmRg}
    {l : List VmRg}
    (hdepth : ∀ x, point VmRg.rgStart VmRg.rgEnd x rg + depth VmRg.rgStart VmRg.rgEnd x l =
      depth VmRg.rgStart VmRg.rgEnd x mm.mmap.vmFreergList) (x : ℕ) :
    (({ mm with mmap := { mm.mmap with vmFreergList := l } } : Mm).setSymrg rgid rg).regionDepth x +
      point VmRg.rgStart VmRg.rgEnd x (mm.symrgtbl rgid) = mm.regionDepth x := by
  have hset := regionDepth_setSymrg
    ({ mm with mmap := { mm.mmap with vmFreergList := l } } : Mm) hid rg x
  have hx := hdepth x
  rw [Mm.regionDepth, Mm.regions, depth_append] at hset ⊢
  rw [Mm.regionDepth, Mm.regions, depth_append] at hset ⊢
  change _ = depth _ _ x mm.symRegions + depth _ _ x l + _ at hset
  change _ + point _ _ x (mm.symrgtbl rgid) = _ at hset
  omega

/-- Giving an interval from the free list to the symbol table. -/
theorem DisjointBelow.takeFree {mm : Mm} (h : DisjointBelow mm) {rgid : ℕ}
    (hid : rgid < pagingMaxSymtblSz) {rg : VmRg} {l : List VmRg}
    (hrg : rg.rgStart ≤ rg.rgEnd ∧ rg.rgEnd ≤ mm.mmap.sbrk)
    (hl : ∀ q ∈ l, q.rgStart ≤ q.rgEnd ∧ q.rgEnd ≤ mm.mmap.sbrk)
    (hdepth : ∀ x, point VmRg.rgStart VmRg.rgEnd x rg + depth VmRg.rgStart VmRg.rgEnd x l =
      depth VmRg.rgStart VmRg.rgEnd x mm.mmap.vmFreergList) :
    DisjointBelow (({ mm with mmap := { mm.mmap with vmFreergList := l } } : Mm).setSymrg rgid rg) where
  start_le := fun r hr => by
    rcases mem_regions_takeFree hr with rfl | hr | hr
    · exact hrg.1
    · exact h.start_le r hr
    · exact (hl r hr).1
  end_le := fun r hr => by
    rcases mem_regions_takeFree hr with rfl | hr | hr
    · exact hrg.2
    · exact h.end_le r hr
    · exact (hl r hr).2
  depth_le := fun x => by
    have hx := regionDepth_takeFree hid hdepth x
    have hle := h.depth_le x
    omega

theorem Partitioned.takeFree {mm : Mm} (h : Partitioned mm) {rgid : ℕ} (hid : rgid < pagingMaxSymtblSz)
    {rg : VmRg} {l : List VmRg} (hrg : rg.rgStart ≤ rg.rgEnd ∧ rg.rgEnd ≤ mm.mmap.sbrk)
    (hl : ∀ q ∈ l, q.rgStart ≤ q.rgEnd ∧ q.rgEnd ≤ mm.mmap.sbrk)
    (hdepth : ∀ x, point VmRg.rgStart VmRg.rgEnd x rg + depth VmRg.rgStart VmRg.rgEnd x l =
      depth VmRg.rgStart VmRg.rgEnd x mm.mmap.vmFreergList) :
    let mm' := ({ mm with mmap := { mm.mmap with vmFreergList := l } } : Mm).setSymrg rgid rg
    Partitioned mm' ∧ ((mm.symrgtbl rgid).IsEmpty → Covered mm → Covered mm') := by
  intro mm'
  obtain ⟨hstart, hend, hle⟩ := h.disjointBelow.takeFree hid hrg hl hdepth
  refine ⟨⟨hstart, hend, hle, h.brk_eq, h.brk_lt⟩, ?_⟩
  -- the region the register had before was empty, so no byte is lost with it
  intro hempty hcov x hx
  have hnewx := regionDepth_takeFree hid hdepth x
  rw [point_eq_zero (by rw [VmRg.IsEmpty] at hempty; omega)] at hnewx
  have hone := hcov x hx
  rw [← hone, ← hnewx, Nat.add_zero]

/-- The intervals after an allocation at the break: the new region and the remainder are what was
    added. -/
theorem allocAtBrk_regions (mm : Mm) {rgid size brk alignedSize : ℕ} (hid : rgid < pagingMaxSymtblSz)
    (hsz : size ≤ alignedSize) (hlt : brk + alignedSize < 2 ^ 64) :
    let mm' := allocAtBrk mm rgid size brk alignedSize
    (∀ r ∈ mm'.regions, r ∈ mm.regions ∨
      brk ≤ r.rgStart ∧ r.rgStart ≤ r.rgEnd ∧ r.rgEnd ≤ brk + alignedSize) ∧
    ∀ x, mm'.regionDepth x + point VmRg.rgStart VmRg.rgEnd x (mm.symrgtbl rgid) =
      mm.regionDepth x + if brk ≤ x ∧ x < brk + alignedSize then 1 else 0 := by
  have h1 : addrT (brk + size) = brk + size := addrT_of_lt (by omega)
  have h2 : addrT (brk + alignedSize) = brk + alignedSize := addrT_of_lt hlt
  have hmem : ∀ r ∈ (mm.setSymrg rgid ⟨brk, brk + size⟩).regions, r ∈ mm.regions ∨
      brk ≤ r.rgStart ∧ r.rgStart ≤ r.rgEnd ∧ r.rgEnd ≤ brk + alignedSize := by
    intro r hr
    rcases List.mem_append.1 hr with hr | hr
    · rcases mem_symRegions_setSymrg hr with rfl | hr
      · exact Or.inr ⟨Nat.le_refl _, Nat.le_add_right .., Nat.add_le_add_left hsz _⟩
      · exact Or.inl (List.mem_append_left _ hr)
    · exact Or.inl (List.mem_append_right _ hr)
  have hset := regionDepth_setSymrg mm hid ⟨brk, brk + size⟩
  simp only [allocAtBrk, h1, h2]
  split
  · -- the remainder of the last page goes to the free list
    obtain ⟨hmem', hdepth⟩ := enlistVmFreergList_regions (mm.setSymrg rgid ⟨brk, brk + size⟩)
      ⟨brk + size, brk + alignedSize⟩
    refine ⟨fun r hr => ?_, fun x => ?_⟩
    · rcases hmem' r hr with rfl | hr
      · exact Or.inr ⟨Nat.le_add_right .., Nat.add_le_add_left hsz _, Nat.le_refl _⟩
      · exact hmem r hr
    · have hx := hset x
      rw [hdepth x]
      simp only [point] at hx ⊢
      split_ifs at hx ⊢ <;> omega
  · have hsz' : size = alignedSize := by omega
    subst hsz'
    exact ⟨hmem, fun x => hset x⟩

theorem allocAtBrk_area (mm : Mm) (rgid size brk alignedSize : ℕ) :
    (allocAtBrk mm rgid size brk alignedSize).mmap.sbrk = mm.mmap.sbrk ∧
    (allocAtBrk mm rgid size brk alignedSize).mmap.vmEnd = mm.mmap.vmEnd := by
  rw [allocAtBrk]
  split
  · exact enlistVmFreergList_area ..
  · exact ⟨rfl, rfl⟩

theorem DisjointBelow.depth_eq_zero {mm : Mm} (h : DisjointBelow mm) {x : ℕ} (hx : mm.mmap.sbrk ≤ x) :
    mm.regionDepth x = 0 := by
  rw [Mm.regionDepth, depth, List.sum_eq_zero]
  intro n hn
  obtain ⟨r, hr, rfl⟩ := List.mem_map.1 hn
  have hre := h.end_le r hr
  exact point_eq_zero (by omega)

/-- Growing the area leaves the intervals where they are. -/
theorem regions_congr {mm mm' : Mm} (hsym : mm'.symrgtbl = mm.symrgtbl)
    (hfree : mm'.mmap.vmFreergList = mm.mmap.vmFreergList) : mm'.regions = mm.regions := by
  rw [Mm.regions, Mm.regions, Mm.symRegions, Mm.symRegions, hsym, hfree]

theorem DisjointBelow.raise {mm mm' : Mm} (h : DisjointBelow mm) (hsym : mm'.symrgtbl = mm.symrgtbl)
    (hfree : mm'.mmap.vmFreergList = mm.mmap.vmFreergList) (hbrk : mm.mmap.sbrk ≤ mm'.mmap.sbrk) :
    DisjointBelow mm' := by
  have hregions := regions_congr hsym hfree
  refine ⟨?_, ?_, fun x => ?_⟩
  · rw [hregions]
    exact h.start_le
  · rw [hregions]
    exact fun r hr => Nat.le_trans (h.end_le r hr) hbrk
  · rw [Mm.regionDepth, hregions]
    exact h.depth_le x

/-- The intervals after a region was recorded at a break that was raised by `alignedSize`, or more. -/
theorem allocAtBrk_raised {mm mm' : Mm} {rgid : ℕ} (hid : rgid < pagingMaxSymtblSz)
    {size alignedSize : ℕ} (hsz : size ≤ alignedSize) (hsym : mm'.symrgtbl = mm.symrgtbl)
    (hfree : mm'.mmap.vmFreergList = mm.mmap.vmFreergList) (hlt : mm.mmap.sbrk + alignedSize < 2 ^ 64) :
    let mm'' := Ossim.allocAtBrk mm' rgid size mm.mmap.sbrk alignedSize
    (∀ r ∈ mm''.regions, r ∈ mm.regions ∨ mm.mmap.sbrk ≤ r.rgStart ∧ r.rgStart ≤ r.rgEnd ∧
      r.rgEnd ≤ mm.mmap.sbrk + alignedSize) ∧
    ∀ x, mm''.regionDepth x + point VmRg.rgStart VmRg.rgEnd x (mm.symrgtbl rgid) =
      mm.regionDepth x + if mm.mmap.sbrk ≤ x ∧ x < mm.mmap.sbrk + alignedSize then 1 else 0 := by
  have hregions := regions_congr hsym hfree
  have hspec := @allocAtBrk_regions mm' _ _ mm.mmap.sbrk _ hid hsz hlt
  have hold : ∀ x, mm'.regionDepth x = mm.regionDepth x := fun x => by
    rw [Mm.regionDepth, Mm.regionDepth, hregions]
  simp only [hold, hregions, hsym] at hspec
  exact hspec

/-- Recording a region at a break that was raised by `alignedSize`, or more. -/
theorem DisjointBelow.allocAtBrk {mm mm' : Mm} (h : DisjointBelow mm) {rgid : ℕ}
    (hid : rgid < pagingMaxSymtblSz) {size alignedSize : ℕ} (hsz : size ≤ alignedSize)
    (hsym : mm'.symrgtbl = mm.symrgtbl) (hfree : mm'.mmap.vmFreergList = mm.mmap.vmFreergList)
    (hbrk : mm.mmap.sbrk + alignedSize ≤ mm'.mmap.sbrk) (hlt : mm'.mmap.sbrk < 2 ^ 64) :
    DisjointBelow (Ossim.allocAtBrk mm' rgid size mm.mmap.sbrk alignedSize) := by
  obtain ⟨hmem, hdepth⟩ := allocAtBrk_raised hid hsz hsym hfree (Nat.lt_of_le_of_lt hbrk hlt)
  have hsbrk := (allocAtBrk_area mm' rgid size mm.mmap.sbrk alignedSize).1
  refine ⟨fun r hr => ?_, fun r hr => ?_, fun x => ?_⟩
  · rcases hmem r hr with hr | hr
    · exact h.start_le r hr
    · exact hr.2.1
  · rw [hsbrk]
    rcases hmem r hr with hr | hr
    · have hre := h.end_le r hr
      omega
    · omega
  · have hx := hdepth x
    have hle := h.depth_le x
    split_ifs at hx with hin
    · have hz := h.depth_eq_zero hin.1
      omega
    · omega

theorem Partitioned.allocAtBrk {mm mm' : Mm} (h : Partitioned mm) {rgid : ℕ}
    (hid : rgid < pagingMaxSymtblSz) {size alignedSize : ℕ} (hsz : size ≤ alignedSize)
    (hsym : mm'.symrgtbl = mm.symrgtbl) (hfree : mm'.mmap.vmFreergList = mm.mmap.vmFreergList)
    (hbrk : mm'.mmap.sbrk = mm.mmap.sbrk + alignedSize) (hend : mm'.mmap.vmEnd = mm'.mmap.sbrk)
    (hlt : mm'.mmap.sbrk < 2 ^ 31) :
    let mm'' := Ossim.allocAtBrk mm' rgid size mm.mmap.sbrk alignedSize
    Partitioned mm'' ∧ ((mm.symrgtbl rgid).IsEmpty → Covered mm → Covered mm'') := by
  obtain ⟨hsbrk, hvmEnd⟩ := allocAtBrk_area mm' rgid size mm.mmap.sbrk alignedSize
  obtain ⟨hstart, hendle, hle⟩ :=
    h.disjointBelow.allocAtBrk hid hsz hsym hfree (Nat.le_of_eq hbrk.symm) (by omega)
  have hdepth := (@allocAtBrk_raised mm mm' rgid hid size alignedSize hsz hsym hfree (by omega)).2
  refine ⟨⟨hstart, hendle, hle, by omega, by omega⟩, ?_⟩
  -- below the old break nothing changes, above it the new intervals are the only ones
  intro hempty hcov x hx
  have hxd := hdepth x
  rw [point_eq_zero (by rw [VmRg.IsEmpty] at hempty; omega)] at hxd
  by_cases hbelow : x < mm.mmap.sbrk
  · have hone := hcov x hbelow
    rw [if_neg (by omega)] at hxd
    omega
  · have hz := h.disjointBelow.depth_eq_zero (Nat.le_of_not_lt hbelow)
    rw [if_pos (by omega)] at hxd
    omega

/-! ## The two operations of the library -/

/-- Growing the area by whole pages raises both limits by as much, whether or not frames were found;
    growing it by nothing does nothing. -/
theorem incVmaLimit_limits (host : Host) (c : Caller) (hbrk : c.mm.mmap.sbrk < 2 ^ 31)
    (hvm : c.mm.mmap.vmEnd < 2 ^ 31) {size : ℕ} (hsize : size < 2 ^ 31) :
    let c' := (incVmaLimit host c 0 (paging64PageAlignsz size)).2
    c'.mm.mmap = { c.mm.mmap with
      vmEnd := c.mm.mmap.vmEnd + paging64PageAlignsz size
      sbrk := c.mm.mmap.sbrk + paging64PageAlignsz size } ∧
    c'.mm.symrgtbl = c.mm.symrgtbl := by
  have halign := @paging64PageAlignsz_eq size (by omega)
  by_cases hzero : paging64PageAlignsz size = 0
  · rw [incVmaLimit, if_pos hzero, hzero]
    exact ⟨rfl, rfl⟩
  · have hself : paging64PageAlignsz (paging64PageAlignsz size) = paging64PageAlignsz size := by
      rw [paging64PageAlignsz_eq (by omega), halign]
      omega
    have hend : addrT (c.mm.mmap.vmEnd + paging64PageAlignsz size) =
        c.mm.mmap.vmEnd + paging64PageAlignsz size := addrT_of_lt (by omega)
    have hsb : addrT (c.mm.mmap.sbrk + paging64PageAlignsz size) =
        c.mm.mmap.sbrk + paging64PageAlignsz size := addrT_of_lt (by omega)
    rw [incVmaLimit_grows host c (le_refl 0) hzero (by rw [hself, hend]; omega), hself, hend, hsb]
    obtain ⟨-, -, hmmap, hsym⟩ := vmMapRam_same host
      (c.setMm (c.mm.setArea (c.mm.mmap.vmEnd + paging64PageAlignsz size)
        (c.mm.mmap.sbrk + paging64PageAlignsz size)))
      c.mm.mmap.vmEnd (cInt (paging64PageAlignsz size / paging64Pagesz)).toNat
    exact ⟨hmmap, hsym⟩

theorem alloc_partitioned (host : Host) (c : Caller) (hreg : c.proc.registered = true)
    (h : Partitioned c.mm) {rgid size : ℕ} (hid : rgid < pagingMaxSymtblSz) (hsize : size < 2 ^ 31)
    (hbrk : (alloc host c rgid size).2.2.mm.mmap.sbrk < 2 ^ 31) :
    let mm := (alloc host c rgid size).2.2.mm
    Partitioned mm ∧ ((c.mm.symrgtbl rgid).IsEmpty → Covered c.mm → Covered mm) := by
  have hlist : ∀ r ∈ c.mm.mmap.vmFreergList, r.rgStart ≤ r.rgEnd ∧ r.rgEnd ≤ c.mm.mmap.sbrk :=
    fun r hr => ⟨h.start_le r (List.mem_append_right _ hr), h.end_le r (List.mem_append_right _ hr)⟩
  obtain ⟨hwf, hcases⟩ :=
    freergFirstFit_spec hsize (Nat.le_of_lt h.brk_lt) c.mm.mmap.vmFreergList hlist
  have hserved := alloc_cases host c rgid hid hsize
  rcases hcases with ⟨hno, hsame⟩ | ⟨hlen, hend, hdepth⟩
  · -- no free region fits: the request is served at the break
    simp only [hno, hsame, if_true, hreg] at hserved
    rw [addrOfInt_of_lt h.brk_lt] at hserved
    rw [hserved] at hbrk ⊢
    have hlimits := incVmaLimit_limits host c h.brk_lt (h.brk_eq ▸ h.brk_lt) hsize
    have hmm : c.setMm c.mm = c := rfl
    simp only [hmm, Caller.setMm_mm] at hbrk hlimits ⊢
    obtain ⟨hmmap, hsym⟩ := hlimits
    rw [(allocAtBrk_area ..).1, hmmap] at hbrk
    have halign := @paging64PageAlignsz_eq size (by omega)
    refine h.allocAtBrk hid (by omega) hsym (by rw [hmmap]) (by rw [hmmap]) ?_ ?_
    · rw [hmmap]
      simp only [h.brk_eq]
    · rw [hmmap]
      exact hbrk
  · -- a free region fits, and it does not start where a refused search says
    have hstart : (freergFirstFit size c.mm.mmap.vmFreergList).1.rgStart ≠ noRg.rgStart := by
      have hlt := h.brk_lt
      change _ ≠ 2 ^ 64 - 1
      omega
    simp only [if_neg hstart] at hserved
    rw [hserved]
    exact h.takeFree hid ⟨by omega, hend⟩ hwf hdepth

/-- The intervals after an entry of the table was returned to the free list. -/
theorem mem_regions_release {mm : Mm} {rgid : ℕ} (hid : rgid < pagingMaxSymtblSz) {r : VmRg}
    (h : r ∈ (enlistVmFreergList (mm.setSymrg rgid ⟨0, 0⟩) (mm.symrgtbl rgid)).2.regions) :
    r = ⟨0, 0⟩ ∨ r ∈ mm.regions := by
  rcases (enlistVmFreergList_regions ..).1 r h with rfl | h
  · exact Or.inr (symrgtbl_mem_regions _ hid)
  · rcases List.mem_append.1 h with h | h
    · rcases mem_symRegions_setSymrg h with h | h
      · exact Or.inl h
      · exact Or.inr (List.mem_append_left _ h)
    · exact Or.inr (List.mem_append_right _ h)

/-- Returning a region moves its interval. -/
theorem regionDepth_release {mm : Mm} {rgid : ℕ} (hid : rgid < pagingMaxSymtblSz) (x : ℕ) :
    (enlistVmFreergList (mm.setSymrg rgid ⟨0, 0⟩) (mm.symrgtbl rgid)).2.regionDepth x =
      mm.regionDepth x := by
  have hset := regionDepth_setSymrg mm hid ⟨0, 0⟩ x
  rw [point_eq_zero (r := (⟨0, 0⟩ : VmRg)) (by simp)] at hset
  have hx := (enlistVmFreergList_regions (mm.setSymrg rgid ⟨0, 0⟩) (mm.symrgtbl rgid)).2 x
  omega

/-- Returning a region from the symbol table to the free list. -/
theorem DisjointBelow.release {mm : Mm} (h : DisjointBelow mm) {rgid : ℕ}
    (hid : rgid < pagingMaxSymtblSz) :
    DisjointBelow (enlistVmFreergList (mm.setSymrg rgid ⟨0, 0⟩) (mm.symrgtbl rgid)).2 where
  start_le := fun r hr => by
    rcases mem_regions_release hid hr with rfl | hr
    · exact Nat.le_refl _
    · exact h.start_le r hr
  end_le := fun r hr => by
    rw [(enlistVmFreergList_area ..).1]
    rcases mem_regions_release hid hr with rfl | hr
    · exact Nat.zero_le _
    · exact h.end_le r hr
  depth_le := fun x => by
    rw [regionDepth_release hid]
    exact h.depth_le x

theorem Partitioned.release {mm : Mm} (h : Partitioned mm) {rgid : ℕ} (hid : rgid < pagingMaxSymtblSz) :
    let mm' := (enlistVmFreergList (mm.setSymrg rgid ⟨0, 0⟩) (mm.symrgtbl rgid)).2
    Partitioned mm' ∧ (Covered mm → Covered mm') := by
  intro mm'
  obtain ⟨hsbrk, hend⟩ := enlistVmFreergList_area (mm.setSymrg rgid ⟨0, 0⟩) (mm.symrgtbl rgid)
  change mm'.mmap.sbrk = mm.mmap.sbrk at hsbrk
  change mm'.mmap.vmEnd = mm.mmap.vmEnd at hend
  obtain ⟨hstart, hle, hdepth⟩ := h.disjointBelow.release hid
  refine ⟨⟨hstart, hle, hdepth, by rw [hsbrk, hend, h.brk_eq], by rw [hsbrk]; exact h.brk_lt⟩, ?_⟩
  intro hcov x hx
  rw [hsbrk] at hx
  rw [regionDepth_release hid]
  exact hcov x hx

theorem free_partitioned (c : Caller) (h : Partitioned c.mm) (rgid : ℕ) :
    Partitioned (free c rgid).2.mm ∧ (Covered c.mm → Covered (free c rgid).2.mm) := by
  rw [free]
  split
  · exact ⟨h, id⟩
  · next hid =>
      simp only
      split
      · exact ⟨h, id⟩
      · exact h.release (Nat.lt_of_not_le hid)

/-! ## Runs -/

/-- The processes reachable by `liballoc` and `libfree`, with any devices at each call. The flag says
    that no allocation so far hit a register whose region was live. -/
inductive RegionRun : Bool → Pcb → Prop where
  | init {proc : Pcb} (hmm : proc.mm = initMm) (hreg : proc.registered = true) : RegionRun true proc
  | alloc {fresh : Bool} {proc : Pcb} (h : RegionRun fresh proc) (host : Host) (krnl : Krnl)
      {size rgid : ℕ} {st : ℤ} {c : Caller} (hid : rgid < numRegs) (hsize : size < 2 ^ 31)
      (hstep : liballoc host ⟨proc, krnl⟩ size rgid = some (st, c)) (hbrk : c.mm.mmap.sbrk < 2 ^ 31) :
      RegionRun (fresh && decide (proc.mm.symrgtbl rgid).IsEmpty) c.proc
  | free {fresh : Bool} {proc : Pcb} (h : RegionRun fresh proc) (krnl : Krnl) {rgid : ℕ} {st : ℤ}
      {c : Caller} (hid : rgid < numRegs) (hstep : libfree ⟨proc, krnl⟩ rgid = some (st, c)) :
      RegionRun fresh c.proc

theorem initMm_partitioned : Partitioned initMm ∧ Covered initMm := by
  have hzero : ∀ r ∈ initMm.regions, r = ⟨0, 0⟩ := by
    intro r hr
    rcases List.mem_append.1 hr with hr | hr
    · obtain ⟨_, _, rfl⟩ := List.mem_map.1 hr
      rfl
    · exact List.mem_singleton.1 hr
  refine ⟨⟨?_, ?_, ?_, rfl, by decide⟩, fun x hx => absurd hx (Nat.not_lt_zero x)⟩
  · exact fun r hr => by rw [hzero r hr]
  · exact fun r hr => by rw [hzero r hr]; exact Nat.zero_le _
  · intro x
    have hsum : initMm.regionDepth x = 0 := by
      rw [Mm.regionDepth, depth, List.sum_eq_zero]
      intro n hn
      obtain ⟨r, hr, rfl⟩ := List.mem_map.1 hn
      rw [hzero r hr]
      exact point_eq_zero (by simp)
    omega

theorem RegionRun.inv {fresh : Bool} {proc : Pcb} (h : RegionRun fresh proc) :
    proc.registered = true ∧ Partitioned proc.mm ∧ (fresh = true → Covered proc.mm) := by
  induction h with
  | init hmm hreg =>
      rw [hmm]
      exact ⟨hreg, initMm_partitioned.1, fun _ => initMm_partitioned.2⟩
  | @alloc fresh proc _ host krnl size rgid st c hid hsize hstep hbrk ih =>
      obtain ⟨hreg, hpart, hcov⟩ := ih
      obtain ⟨regs, rfl⟩ := liballoc_eq_some host _ hstep
      have hid' : rgid < pagingMaxSymtblSz := Nat.lt_trans hid (by decide)
      obtain ⟨hpart', hcov'⟩ := alloc_partitioned host ⟨proc, krnl⟩ hreg hpart hid' hsize hbrk
      refine ⟨(alloc_same host ⟨proc, krnl⟩ rgid size).registered.trans hreg, hpart', fun hfresh => ?_⟩
      rw [Bool.and_eq_true, decide_eq_true_eq] at hfresh
      exact hcov' hfresh.2 (hcov hfresh.1)
  | @free fresh proc _ krnl rgid st c hid hstep ih =>
      obtain ⟨hreg, hpart, hcov⟩ := ih
      obtain ⟨regs, rfl⟩ := libfree_eq_some _ hstep
      obtain ⟨hpart', hcov'⟩ := free_partitioned ⟨proc, krnl⟩ hpart rgid
      exact ⟨(free_same ⟨proc, krnl⟩ rgid).registered.trans hreg, hpart',
        fun hfresh => hcov' (hcov hfresh)⟩

/-- The non-empty regions of the symbol table. -/
def Mm.liveRegions (mm : Mm) : List VmRg := mm.symRegions.filter fun r => !decide r.IsEmpty

/-- The number of bytes of a list of regions. -/
def totalSize (l : List VmRg) : ℕ := (l.map fun r => r.rgEnd - r.rgStart).sum

theorem totalSize_filter_nonempty (l : List VmRg) :
    totalSize (l.filter fun r => !decide r.IsEmpty) = totalSize l := by
  induction l with
  | nil => rfl
  | cons r l ih =>
      by_cases hr : r.IsEmpty
      · have hzero : r.rgEnd - r.rgStart = 0 := Nat.sub_eq_zero_of_le hr
        simp only [List.filter_cons, hr, decide_true, Bool.not_true, Bool.false_eq_true, if_false,
          totalSize, List.map_cons, List.sum_cons, hzero, Nat.zero_add]
        exact ih
      · simp only [List.filter_cons, hr, decide_false, Bool.not_false, if_true, totalSize,
          List.map_cons, List.sum_cons]
        exact congrArg _ ih

/-- **Regions partition the heap.** After any sequence of allocations and releases the live regions
    and the free nodes are disjoint intervals below the break, and they add up to the break unless a
    live region was overwritten. -/
theorem regions_partition_heap {fresh : Bool} {proc : Pcb} (h : RegionRun fresh proc) :
    let mm := proc.mm
    (mm.liveRegions ++ mm.mmap.vmFreergList).Pairwise (fun a b =>
      ∀ x, ¬ ((a.rgStart ≤ x ∧ x < a.rgEnd) ∧ (b.rgStart ≤ x ∧ x < b.rgEnd))) ∧
    (∀ r ∈ mm.liveRegions ++ mm.mmap.vmFreergList, r.rgStart ≤ r.rgEnd ∧ r.rgEnd ≤ mm.mmap.sbrk) ∧
    mm.mmap.sbrk ≤ mm.mmap.vmEnd ∧
    (fresh = true → totalSize mm.liveRegions + totalSize mm.mmap.vmFreergList = mm.mmap.sbrk) := by
  obtain ⟨-, hpart, hcov⟩ := h.inv
  intro mm
  have hsub : (mm.liveRegions ++ mm.mmap.vmFreergList).Sublist mm.regions :=
    (List.filter_sublist ..).append (List.Sublist.refl _)
  refine ⟨?_, ?_, Nat.le_of_eq hpart.brk_eq, ?_⟩
  · exact (pairwise_of_depth_le_one hpart.depth_le).sublist hsub
  · exact fun r hr => ⟨hpart.start_le r (hsub.subset hr), hpart.end_le r (hsub.subset hr)⟩
  · intro hfresh
    have hsum : totalSize mm.regions = mm.mmap.sbrk :=
      sum_length_of_depth_eq_one hpart.end_le (hcov hfresh)
    rw [Mm.liveRegions, totalSize_filter_nonempty, ← hsum]
    simp [Mm.regions, totalSize]

theorem regions_partition_heap_alloc :
    ∃ proc, RegionRun true proc ∧ proc.mm.mmap.sbrk = 4096 ∧
      totalSize proc.mm.liveRegions + totalSize proc.mm.mmap.vmFreergList = 4096 := by
  let krnl : Krnl := ⟨zeroMemphy, zeroMemphy, initMm⟩
  have hinit : RegionRun true (freshProc [] 0) := .init rfl rfl
  have halloc := RegionRun.alloc hinit generousHost krnl (by decide : 1 < numRegs)
    (by decide : 300 < 2 ^ 31) rfl (by decide)
  have hsum := (regions_partition_heap halloc).2.2.2 (by decide)
  exact ⟨_, halloc, by decide, hsum.trans (by decide)⟩

end Ossim
