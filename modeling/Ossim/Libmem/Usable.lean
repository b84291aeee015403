import Ossim.Libmem.Kmalloc

set_option autoImplicit false

/-! # Using what KMALLOC allocated

`__kmalloc` maps pages for a register and `__read_kernel_mem` and `__write_kernel_mem` find a byte by the
region the register has in the kernel's symbol table, and `__kmalloc` enters none there. A region that is
in the table comes from `__kmem_cache_alloc`, so KMALLOC yields usable memory only where such a region
happens to have the size asked for and its pages are mapped. -/

namespace Ossim

variable (host : Host)

/-! ## Accesses -/

/-- The byte of RAM an offset of a kernel region leads to: the region is `rg`, the page table has the
    entries `e`. -/
def kernelPhyaddr (rg : VmRg) (e : PageIx → BitVec 64) (offset : ℕ) : Option ℕ :=
  (rg.resolve offset).bind fun vaddr =>
    let pte := (e (pageIx host (vaddr >>> 12))).setWidth 32
    if pagingPagePresent pte then some (phyaddr (pagingFpn pte) (vaddr % 4096)) else none

/-- Register `rgid` has `size` usable bytes: each can be written and read back, and what lies beyond is
    rejected. -/
structure Usable (c : Caller) (rgid size : ℕ) : Prop where
  inside : ∀ offset < size, ∀ v, (writeKernelMem host c rgid offset v).1 = 0 ∧
    (readKernelMem host (writeKernelMem host c rgid offset v).2 rgid offset).1 = some v
  beyond : ∀ offset, size ≤ offset → offset < 2 ^ 64 →
    (∀ v, (writeKernelMem host c rgid offset v).1 = -1) ∧ (readKernelMem host c rgid offset).1 = none

/-- In region `rg`, with the entries `e`, the offsets below `size` lead to bytes that RAM stores, and no
    others lead to RAM. -/
structure Spans (rg : VmRg) (e : PageIx → BitVec 64) (mram : Memphy) (size : ℕ) : Prop where
  inside : ∀ offset < size, ∃ addr, kernelPhyaddr host rg e offset = some addr ∧
    mram.rdmflg = true ∧ addr < mram.storageSz
  beyond : ∀ offset, size ≤ offset → offset < 2 ^ 64 → kernelPhyaddr host rg e offset = none

theorem readKernelMem_fst {c : Caller} {rgid : ℕ} (hid : rgid < pagingMaxSymtblSz) (offset : ℕ) :
    (readKernelMem host c rgid offset).1 =
      (kernelPhyaddr host (c.krnl.mm.symrgtbl rgid) c.krnl.mm.entry offset).bind fun addr =>
        (memphyRead c.krnl.mram addr).1 := by
  rw [readKernelMem, Mm.resolve, if_neg (Nat.not_le.2 hid), kernelPhyaddr]
  cases (c.krnl.mm.symrgtbl rgid).resolve offset with
  | none => rfl
  | some vaddr =>
      simp only [kernelFrame, pteGetEntry_fst, Option.bind_some]
      by_cases hpres : pagingPagePresent
        ((c.krnl.mm.entry (pageIx host (vaddr >>> 12))).setWidth 32) = true
      · simp only [hpres, if_true, Option.bind_some]
      · simp only [hpres, Bool.false_eq_true, if_false, Option.bind_none]

theorem writeKernelMem_cases {c : Caller} {rgid : ℕ} (hid : rgid < pagingMaxSymtblSz) (offset : ℕ)
    (v : Byte) :
    kernelPhyaddr host (c.krnl.mm.symrgtbl rgid) c.krnl.mm.entry offset = none ∧
      (writeKernelMem host c rgid offset v).1 = -1 ∨
    ∃ addr, kernelPhyaddr host (c.krnl.mm.symrgtbl rgid) c.krnl.mm.entry offset = some addr ∧
      (writeKernelMem host c rgid offset v).1 = (if c.krnl.mram.rdmflg = true then 0 else -1) ∧
      (writeKernelMem host c rgid offset v).2.krnl.mm.symrgtbl = c.krnl.mm.symrgtbl ∧
      (writeKernelMem host c rgid offset v).2.krnl.mm.entry = c.krnl.mm.entry ∧
      (writeKernelMem host c rgid offset v).2.krnl.mram = (memphyWrite c.krnl.mram addr v).2 := by
  rw [writeKernelMem, Mm.resolve, if_neg (Nat.not_le.2 hid), kernelPhyaddr]
  cases (c.krnl.mm.symrgtbl rgid).resolve offset with
  | none => exact Or.inl ⟨rfl, rfl⟩
  | some vaddr =>
      simp only [kernelFrame, pteGetEntry_fst, Option.bind_some]
      by_cases hpres : pagingPagePresent
        ((c.krnl.mm.entry (pageIx host (vaddr >>> 12))).setWidth 32) = true
      · right
        simp only [hpres, if_true]
        exact ⟨_, rfl, by simp only [ne_eq, ite_not, memphyWrite_ok], pteGetEntry_symrgtbl ..,
          pteGetEntry_entry .., rfl⟩
      · left
        simp only [hpres, Bool.false_eq_true, if_false, and_self]

/-- A read behind a write of the same byte delivers what the RAM of the write has there. -/
theorem read_of_write {c : Caller} {rgid offset addr : ℕ} (hid : rgid < pagingMaxSymtblSz) (v : Byte)
    (haddr : kernelPhyaddr host (c.krnl.mm.symrgtbl rgid) c.krnl.mm.entry offset = some addr)
    (hrdm : c.krnl.mram.rdmflg = true) :
    (readKernelMem host (writeKernelMem host c rgid offset v).2 rgid offset).1 =
      some ((memphyWrite c.krnl.mram addr v).2.storage addr) := by
  rcases writeKernelMem_cases host hid offset v with ⟨hnone, -⟩ | ⟨addr', haddr', -, hsym, hentry, hmram⟩
  · exact absurd (haddr.symm.trans hnone) (by simp)
  · obtain rfl : addr = addr' := Option.some.inj (haddr.symm.trans haddr')
    rw [readKernelMem_fst host hid, hsym, hentry, haddr, Option.bind_some, hmram, memphyRead,
      memphyWrite_rdmflg, if_pos hrdm]

/-- The usable bytes of a register are those its region spans. -/
theorem usable_iff {c : Caller} {rgid size : ℕ} (hid : rgid < pagingMaxSymtblSz) (hsize : 0 < size) :
    Usable host c rgid size ↔
      Spans host (c.krnl.mm.symrgtbl rgid) c.krnl.mm.entry c.krnl.mram size := by
  constructor
  · intro h
    have hinside : ∀ offset < size, ∃ addr,
        kernelPhyaddr host (c.krnl.mm.symrgtbl rgid) c.krnl.mm.entry offset = some addr ∧
        c.krnl.mram.rdmflg = true ∧ addr < c.krnl.mram.storageSz := by
      intro offset hoffset
      rcases writeKernelMem_cases host hid offset 0 with ⟨-, hst⟩ | ⟨addr, haddr, hst, -⟩
      · exact absurd (hst.symm.trans (h.inside offset hoffset 0).1) (by decide)
      · have hrdm : c.krnl.mram.rdmflg = true := by
          by_contra hrdm
          rw [if_neg hrdm] at hst
          exact absurd (hst.symm.trans (h.inside offset hoffset 0).1) (by decide)
        refine ⟨addr, haddr, hrdm, ?_⟩
        by_contra hbeyond
        -- a write behind the storage is lost: write a byte that is not there
        have hread := (h.inside offset hoffset (c.krnl.mram.storage addr + 1)).2
        rw [read_of_write host hid _ haddr hrdm, memphyWrite, if_pos hrdm, Memphy.poke,
          if_neg hbeyond] at hread
        exact absurd (Option.some.inj hread) (by simp)
    refine ⟨hinside, fun offset hoffset hlt => ?_⟩
    obtain ⟨-, -, hrdm, -⟩ := hinside 0 hsize
    rcases writeKernelMem_cases host hid offset 0 with ⟨hnone, -⟩ | ⟨addr, -, hst, -⟩
    · exact hnone
    · rw [if_pos hrdm] at hst
      exact absurd (hst.symm.trans ((h.beyond offset hoffset hlt).1 0)) (by decide)
  · intro h
    refine ⟨fun offset hoffset v => ?_, fun offset hoffset hlt => ⟨fun v => ?_, ?_⟩⟩
    · obtain ⟨addr, haddr, hrdm, hlt⟩ := h.inside offset hoffset
      rw [read_of_write host hid v haddr hrdm, memphyWrite_storage_self _ _ _ hrdm hlt]
      rcases writeKernelMem_cases host hid offset v with ⟨hnone, -⟩ | ⟨-, -, hst, -⟩
      · exact absurd (haddr.symm.trans hnone) (by simp)
      · rw [hst, if_pos hrdm]
        exact ⟨rfl, rfl⟩
    · rcases writeKernelMem_cases host hid offset v with ⟨-, hst⟩ | ⟨addr, haddr, -⟩
      · exact hst
      · exact absurd (haddr.symm.trans (h.beyond offset hoffset hlt)) (by simp)
    · rw [readKernelMem_fst host hid, h.beyond offset hoffset hlt, Option.bind_none]

/-! ## What the allocation maps -/

/-- The entries after page `i` of the request for `rgid` and those behind it have been put in the
    frames listed. -/
def mapFrames (rgid : ℕ) : List ℕ → (i : ℕ) → (PageIx → BitVec 64) → PageIx → BitVec 64
  | [], _, e => e
  | f :: fs, i, e =>
    mapFrames rgid fs (i + 1) (Function.update e (pageIx host (kmallocPgn rgid i))
      (pteFpnWord (e (pageIx host (kmallocPgn rgid i))) f))

/-- A loop that ends has mapped its pages to the frames at the head of the free list. -/
theorem kmallocLoop_entry {rgid n i : ℕ} {krnl : Krnl}
    (hok : (kmallocLoop host rgid n i krnl).1 = 0) :
    (kmallocLoop host rgid n i krnl).2.mm.entry =
      mapFrames host rgid (krnl.mram.freeFpList.take n) i krnl.mm.entry := by
  induction n generalizing i krnl with
  | zero => rfl
  | succ n ih =>
      rcases kmallocLoop_step host rgid n i krnl with
        ⟨-, heq⟩ | ⟨f, rest, krnl₁, hfree, htook, heq | ⟨hentry, heq⟩⟩
      · exact absurd (congrArg Prod.fst heq ▸ hok) (by simp)
      · exact absurd (congrArg Prod.fst heq ▸ hok) (by simp)
      · have hrest : krnl₁.mram.freeFpList = rest := by
          rw [htook.mram, hfree]
          rfl
        rw [heq] at hok ⊢
        rw [ih hok, hrest, hentry, hfree, List.take_succ_cons, mapFrames]

/-- The RAM of `__kmalloc` is the one it was called with, but for the lists of frames. -/
theorem kmalloc_mram (c : Caller) (rgid size : ℕ) :
    (kmalloc host c rgid size).2.krnl.mram.rdmflg = c.krnl.mram.rdmflg ∧
    (kmalloc host c rgid size).2.krnl.mram.storageSz = c.krnl.mram.storageSz := by
  rw [kmalloc]
  split
  · exact ⟨rfl, rfl⟩
  · obtain ⟨k, -, htook, -⟩ := kmallocLoop_took host rgid (kmallocNumPages size) 0 c.krnl
    simp only [htook.mram, and_self]

theorem Spans.congr_mram {rg : VmRg} {e : PageIx → BitVec 64} {mram mram' : Memphy} {size : ℕ}
    (hrdm : mram'.rdmflg = mram.rdmflg) (hsz : mram'.storageSz = mram.storageSz) :
    Spans host rg e mram' size ↔ Spans host rg e mram size := by
  constructor <;> rintro ⟨hinside, hbeyond⟩
  · rw [hrdm, hsz] at hinside
    exact ⟨hinside, hbeyond⟩
  · rw [← hrdm, ← hsz] at hinside
    exact ⟨hinside, hbeyond⟩

/-- **KMALLOC enters no region.** After a KMALLOC that returns 0, its register has the bytes asked for
    exactly if the region the kernel had for the register before spans them, once the pages of the
    request are in the first free frames. -/
theorem kmalloc_usable_iff {c : Caller} {rgid size : ℕ} (hid : rgid < pagingMaxSymtblSz)
    (hsize : 0 < size) (hok : (libkmemMalloc host c size rgid).1 = 0) :
    Usable host (libkmemMalloc host c size rgid).2 rgid size ↔
      Spans host (c.krnl.mm.symrgtbl rgid)
        (mapFrames host rgid (c.krnl.mram.freeFpList.take (kmallocNumPages size)) 0 c.krnl.mm.entry)
        c.krnl.mram size := by
  obtain ⟨-, hsym⟩ := kmalloc_tables host c rgid size
  obtain ⟨hrdm, hsz⟩ := kmalloc_mram host c rgid size
  have hloop : (kmallocLoop host rgid (kmallocNumPages size) 0 c.krnl).1 = 0 := by
    rw [libkmemMalloc, if_neg (by omega), kmalloc, if_neg (by omega)] at hok
    by_contra hne
    simp only at hok
    exact absurd hok (by decide)
  have hentry := kmallocLoop_entry host hloop
  have hsnd : (kmalloc host c rgid size).2.krnl.mm =
      (kmallocLoop host rgid (kmallocNumPages size) 0 c.krnl).2.mm := by
    rw [kmalloc, if_neg (by omega)]
  rw [libkmemMalloc_snd, usable_iff host hid hsize, Spans.congr_mram host hrdm hsz, hsym, hsnd,
    hentry]

/-! ## Small requests -/

/-- A process that has a slot of 300 bytes of the kernel under register 0, in the page KMALLOC maps for
    it. -/
def slotCaller : Caller :=
  let c := (libkmemCachePoolCreate generousHost (freshCaller 2 1) 300 300 0).2
  ((libkmemCacheAlloc c 0 0).map Prod.snd).getD c

/-- The slot recorded for the register has the size of the request. -/
theorem kmalloc_usable_iff_slot :
    Usable generousHost (libkmemMalloc generousHost slotCaller 300 0).2 0 300 := by
  refine (kmalloc_usable_iff generousHost (by decide) (by decide) (by decide +kernel)).2 ?_
  have hrg : slotCaller.krnl.mm.symrgtbl 0 = ⟨0, 300⟩ := by decide +kernel
  have hmapped : ∀ e, e = mapFrames generousHost 0
      (slotCaller.krnl.mram.freeFpList.take (kmallocNumPages 300)) 0 slotCaller.krnl.mm.entry →
      pagingPagePresent ((e (pageIx generousHost 0)).setWidth 32) = true ∧
      pagingFpn ((e (pageIx generousHost 0)).setWidth 32) = 1 := by
    rintro _ rfl
    decide +kernel
  have hram : slotCaller.krnl.mram.rdmflg = true ∧ slotCaller.krnl.mram.storageSz = 2 * 4096 := by
    decide +kernel
  rw [hrg]
  obtain ⟨hpres, hfpn⟩ := hmapped _ rfl
  have hresolve : ∀ offset < 2 ^ 64, VmRg.resolve ⟨0, 300⟩ offset =
      if 300 ≤ offset then none else some offset := by
    intro offset hlt
    simp [VmRg.resolve, VmRg.isNull, addrT_of_lt hlt]
  refine ⟨fun offset hoffset => ?_, fun offset hoffset hlt => ?_⟩
  · have hpage : offset >>> 12 = 0 := by
      rw [Nat.shiftRight_eq_div_pow]
      omega
    rw [kernelPhyaddr, hresolve offset (by omega), if_neg (by omega), Option.bind_some, hpage]
    simp only [hpres, if_true, hfpn]
    refine ⟨_, rfl, hram.1, ?_⟩
    rw [hram.2, phyaddr, Nat.shiftLeft_eq]
    omega
  · rw [kernelPhyaddr, hresolve offset hlt, if_pos hoffset, Option.bind_none]

/-- KMALLOC of 300 bytes for a register returns 0 in a fresh kernel, and no byte can be written. -/
theorem not_kmalloc_usable_fresh :
    (libkmemMalloc generousHost (freshCaller 1 1) 300 2).1 = 0 ∧
    ¬ Usable generousHost (libkmemMalloc generousHost (freshCaller 1 1) 300 2).2 2 300 := by
  refine ⟨by decide +kernel, fun h => ?_⟩
  have hwrite : (writeKernelMem generousHost (libkmemMalloc generousHost (freshCaller 1 1) 300 2).2
      2 0 7).1 = -1 := by
    decide +kernel
  exact absurd (hwrite.symm.trans (h.inside 0 (by decide) 7).1) (by decide)

end Ossim
