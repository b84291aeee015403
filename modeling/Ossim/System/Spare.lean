import Ossim.System.Ample

set_option autoImplicit false

/-! # Frames nobody gets to

Frames are taken from the front of the free list. An instruction that finds enough frames there does the
same whatever frames follow them, and as it swaps nothing, whatever swap device there is
(`execInst_spare`). -/

namespace Ossim

open Pager

/-! ## More frames -/

/-- A device with more frames behind those on its free list. -/
def Memphy.spare (mp : Memphy) (more : List ℕ) : Memphy :=
  { mp with freeFpList := mp.freeFpList ++ more }

/-- A kernel with more frames of RAM, and another swap device. -/
def Krnl.spare (krnl : Krnl) (more : List ℕ) (mswp : Memphy) : Krnl :=
  { krnl with mram := krnl.mram.spare more, activeMswp := mswp }

def Caller.spare (c : Caller) (more : List ℕ) (mswp : Memphy) : Caller :=
  { c with krnl := c.krnl.spare more mswp }

section Fields

variable (c : Caller) (more : List ℕ) (mswp : Memphy)

@[simp] theorem Caller.spare_mm : (c.spare more mswp).mm = c.mm := rfl
@[simp] theorem Caller.spare_proc : (c.spare more mswp).proc = c.proc := rfl
@[simp] theorem Caller.spare_mram : (c.spare more mswp).krnl.mram = c.krnl.mram.spare more := rfl
@[simp] theorem Caller.spare_krnl_mm : (c.spare more mswp).krnl.mm = c.krnl.mm := rfl

end Fields

/-- What an operation returns, with the frames nobody got to. -/
def spared {α : Type} (more : List ℕ) (mswp : Memphy) (r : α × Caller) : α × Caller :=
  (r.1, r.2.spare more mswp)

section Devices

variable (mp : Memphy) (more : List ℕ) (addr : ℕ)

theorem memphyRead_spare :
    memphyRead (mp.spare more) addr = ((memphyRead mp addr).1, (memphyRead mp addr).2.spare more) := by
  cases hr : mp.rdmflg <;> simp [memphyRead, memphySeqRead, Memphy.spare, hr]

theorem memphyWrite_spare (b : Byte) :
    memphyWrite (mp.spare more) addr b =
      ((memphyWrite mp addr b).1, (memphyWrite mp addr b).2.spare more) := by
  unfold memphyWrite memphySeqWrite Memphy.poke
  cases hr : mp.rdmflg
  · simp [Memphy.spare, hr]
  · by_cases haddr : addr < mp.storageSz
    · simp [Memphy.spare, hr, haddr]
    · simp [Memphy.spare, hr, haddr]

theorem memphyGetFreefp_spare {f : ℕ} {mp' : Memphy} (h : memphyGetFreefp mp = some (f, mp')) :
    memphyGetFreefp (mp.spare more) = some (f, mp'.spare more) := by
  obtain ⟨rest, hcons, rfl⟩ := memphyGetFreefp_eq_some h
  simp [memphyGetFreefp, Memphy.spare, hcons]

end Devices

/-! ## Accesses -/

section Access

variable {host : Host} {exact : Prop} {R S : Set ℕ} {pid : ℕ} {others : ℕ → PageIx → Residence}
variable {c : Caller} (more : List ℕ) (mswp : Memphy)

/-- A page that is present is found in the same frame. -/
theorem pgGetpage_spare {pgn : ℕ} (h : c.mm.presentAt (pageIx host pgn)) :
    pgGetpage host (c.spare more mswp) pgn = spared more mswp (pgGetpage host c pgn) := by
  have hsame : (c.spare more mswp).mm.presentAt (pageIx host pgn) := h
  rw [pgGetpage_of_present h, pgGetpage_of_present hsame]
  rfl

section Registered

variable (h : MemInv host exact R S pid others c) (hreg : c.proc.registered = true)
variable (hres : c.mm.Resident host)

include h hreg hres

theorem read_spare (rgid off : ℕ) :
    read host (c.spare more mswp) rgid off = spared more mswp (read host c rgid off) := by
  rw [read, read, Caller.spare_mm]
  cases ha : c.mm.resolve rgid off with
  | none => rfl
  | some a =>
      obtain ⟨hlt, hpres⟩ := h.resolved_present hreg hres ha
      simp only [pgGetval, pgnOfIntAddr_eq hlt, pgGetpage_spare more mswp hpres,
        pgGetpage_of_present hpres, spared, syscall_ioRead, Caller.spare_proc,
        Caller.setMm_registered, hreg, if_true, memphyRead_snd]
      rfl

theorem write_spare (rgid off : ℕ) (v : Byte) :
    write host (c.spare more mswp) rgid off v = spared more mswp (write host c rgid off v) := by
  rw [write, write, Caller.spare_mm]
  cases ha : c.mm.resolve rgid off with
  | none => rfl
  | some a =>
      obtain ⟨hlt, hpres⟩ := h.resolved_present hreg hres ha
      simp only [pgSetval, pgnOfIntAddr_eq hlt, pgGetpage_spare more mswp hpres,
        pgGetpage_of_present hpres, spared, syscall_ioWrite, Caller.spare_proc,
        Caller.setMm_registered, hreg, if_true, Caller.spare_mram, memphyWrite_spare]
      rfl

theorem readUserMem_spare (rgid off : ℕ) :
    readUserMem host (c.spare more mswp) rgid off = spared more mswp (readUserMem host c rgid off) := by
  rw [readUserMem, readUserMem, Caller.spare_mm]
  cases ha : c.mm.resolve rgid off with
  | none => rfl
  | some a =>
      obtain ⟨hlt, hpres⟩ := h.resolved_present hreg hres ha
      simp only [addrOfInt_shift hlt, pgGetpage_spare more mswp hpres, pgGetpage_of_present hpres, spared,
        Caller.spare_mram, memphyRead_spare]
      rfl

theorem writeUserMem_spare (rgid off : ℕ) (v : Byte) :
    writeUserMem host (c.spare more mswp) rgid off v =
      spared more mswp (writeUserMem host c rgid off v) := by
  rw [writeUserMem, writeUserMem, Caller.spare_mm]
  cases ha : c.mm.resolve rgid off with
  | none => rfl
  | some a =>
      obtain ⟨hlt, hpres⟩ := h.resolved_present hreg hres ha
      simp only [addrOfInt_shift hlt, pgGetpage_spare more mswp hpres, pgGetpage_of_present hpres, spared,
        Caller.spare_mram, memphyWrite_spare]
      rfl

end Registered

theorem readKernelMem_spare (c : Caller) (rgid off : ℕ) :
    readKernelMem host (c.spare more mswp) rgid off = spared more mswp (readKernelMem host c rgid off) := by
  rw [readKernelMem, readKernelMem, Caller.spare_krnl_mm]
  cases c.krnl.mm.resolve rgid off with
  | none => rfl
  | some vaddr =>
      have hframe : kernelFrame host (c.spare more mswp).krnl vaddr =
          ((kernelFrame host c.krnl vaddr).1, (kernelFrame host c.krnl vaddr).2.spare more mswp) := rfl
      simp only [hframe]
      generalize kernelFrame host c.krnl vaddr = r
      obtain ⟨fpn, krnl⟩ := r
      cases fpn with
      | none => rfl
      | some f =>
          simp only [Krnl.spare, memphyRead_spare]
          rfl

theorem copyLoop_spare (hc : ∀ n, host.calloc n = true) (hp : PoolsOk R S)
    (h : MemInv host exact R S pid others c) (hreg : c.proc.registered = true)
    (hres : c.mm.Resident host) (source destination offset n i : ℕ) :
    copyLoop host source destination offset n i (c.spare more mswp) =
      spared more mswp (copyLoop host source destination offset n i c) := by
  induction n generalizing c i with
  | zero => rfl
  | succ n ih =>
      have hread := @readKernelMem_takes host c source (uint32 (offset + i))
      obtain ⟨h₁, honly₁, -⟩ := readKernelMem_spec h source (uint32 (offset + i))
      rw [copyLoop, copyLoop, readKernelMem_spare]
      generalize readKernelMem host c source (uint32 (offset + i)) = r at *
      obtain ⟨byte, c₁⟩ := r
      cases byte with
      | none => rfl
      | some b =>
          have hreg₁ := honly₁.registered.trans hreg
          have hres₁ := hread.resident hres
          have hwrite := writeUserMem_takes h₁ hreg₁ hres₁ destination (uint32 (offset + i)) b
          obtain ⟨h₂, honly₂, -⟩ := writeUserMem_spec hc hp h₁ destination (uint32 (offset + i)) b
          simp only [spared, writeUserMem_spare more mswp h₁ hreg₁ hres₁]
          generalize writeUserMem host c₁ destination (uint32 (offset + i)) b = r at *
          obtain ⟨st, c₂⟩ := r
          by_cases hst : st = 0
          · subst hst
            exact ih h₂ (honly₂.registered.trans hreg₁) (hwrite.resident hres₁) (i + 1)
          · simp only

end Access

/-! ## Growing -/

section Grow

variable {host : Host} {c : Caller} (more : List ℕ) (mswp : Memphy)

theorem vmMapRam_spare (hg : host.Generous) {n : ℕ} (hfree : n ≤ c.krnl.mram.freeFpList.length)
    (mapstart : ℕ) :
    vmMapRam host (c.spare more mswp) mapstart n = spared more mswp (vmMapRam host c mapstart n) := by
  have hgranted : FramesGranted host c.krnl.mram n := ⟨hfree, fun k _ => hg.2 k⟩
  have hgranted' : FramesGranted host (c.krnl.mram.spare more) n := by
    refine ⟨?_, fun k _ => hg.2 k⟩
    rw [Memphy.spare, List.length_append]
    omega
  rw [vmMapRam, vmMapRam, Caller.spare_mram, allocPagesRange_of_granted hgranted,
    allocPagesRange_of_granted hgranted']
  simp only [Memphy.spare, List.take_append_of_le_length hfree, List.drop_append_of_le_length hfree,
    Nat.not_lt_zero, if_false]
  rfl

theorem incVmaLimit_spare (hg : host.Generous) {vmaid : ℤ} {incSz : ℕ}
    (hlt : c.mm.mmap.vmEnd + paging64PageAlignsz incSz < 2 ^ 31)
    (hfree : vmaid ≤ 0 → paging64PageAlignsz incSz / 4096 ≤ c.krnl.mram.freeFpList.length) :
    incVmaLimit host (c.spare more mswp) vmaid incSz = spared more mswp (incVmaLimit host c vmaid incSz) := by
  by_cases hsz : incSz = 0
  · rw [incVmaLimit, incVmaLimit, if_pos hsz, if_pos hsz]
    rfl
  · by_cases href : 0 < vmaid ∨
        addrT (c.mm.mmap.vmEnd + paging64PageAlignsz incSz) ≤ c.mm.mmap.vmEnd
    · rw [incVmaLimit_refused host c hsz href, incVmaLimit_refused host (c.spare more mswp) hsz href]
      rfl
    · rw [not_or, not_lt, not_le] at href
      rw [incVmaLimit_grows host c href.1 hsz href.2,
        incVmaLimit_grows host (c.spare more mswp) href.1 hsz href.2]
      have hpages : (cInt (paging64PageAlignsz incSz / paging64Pagesz)).toNat ≤
          c.krnl.mram.freeFpList.length := by
        rw [paging64Pagesz, cInt_of_lt (by omega), Int.toNat_natCast]
        exact hfree href.1
      have hmap := vmMapRam_spare more mswp hg
        (c := c.setMm (c.mm.setArea (addrT (c.mm.mmap.vmEnd + paging64PageAlignsz incSz))
          (addrT (c.mm.mmap.sbrk + incSz)))) hpages c.mm.mmap.vmEnd
      exact congrArg (fun r : ℕ × Caller => ((0 : ℤ), r.2)) hmap

end Grow

/-! ## Instructions -/

section Instruction

variable {host : Host} {exact : Prop} {R S : Set ℕ} {pid : ℕ} {others : ℕ → PageIx → Residence}
variable {c : Caller} (more : List ℕ) (mswp : Memphy)

theorem setReg_spare (c : Caller) (i v : ℕ) :
    (c.spare more mswp).setReg i v = (c.setReg i v).map (·.spare more mswp) := by
  unfold Caller.setReg
  split <;> rfl

/-- A request no free region fits moves the end of the area. -/
theorem Heap.alloc_vmEnd {h : Heap} {rgid size : ℕ}
    (hno : (freergFirstFit size h.freergList).1.rgStart = noRg.rgStart) :
    (h.alloc rgid size).2.vmEnd = h.vmEnd + paging64PageAlignsz size := by
  simp only [Heap.alloc, if_pos hno, Heap.enlist]
  split <;> exact congrArg (h.vmEnd + ·) (paging64PageAlignsz_self size)

theorem alloc_spare (hg : host.Generous) (hreg : c.proc.registered = true) {rgid size : ℕ}
    (hid : rgid < pagingMaxSymtblSz) (hsize : size < 2 ^ 31) (hlt : c.mm.mmap.vmEnd + paging64PageAlignsz size < 2 ^ 31)
    (hfree : ((c.mm.heap.alloc rgid size).2.vmEnd - c.mm.mmap.vmEnd) / 4096 ≤
      c.krnl.mram.freeFpList.length) :
    alloc host (c.spare more mswp) rgid size = ((alloc host c rgid size).1, (alloc host c rgid size).2.1,
      (alloc host c rgid size).2.2.spare more mswp) := by
  have hcases := alloc_cases host c rgid hid hsize
  have hcases' := alloc_cases host (c.spare more mswp) rgid hid hsize
  simp only [Caller.spare_proc, Caller.spare_mm, hreg, if_true] at hcases hcases'
  by_cases hno : (freergFirstFit size c.mm.mmap.vmFreergList).1.rgStart = noRg.rgStart
  · rw [Heap.alloc_vmEnd hno] at hfree
    simp only [if_pos hno] at hcases hcases'
    have hinc := @incVmaLimit_spare host (c.setMm { c.mm with mmap :=
        { c.mm.mmap with vmFreergList := (freergFirstFit size c.mm.mmap.vmFreergList).2 } })
      more mswp hg 0 (paging64PageAlignsz size) (by rw [paging64PageAlignsz_self]; exact hlt)
      (fun _ => by
        rw [paging64PageAlignsz_self]
        change (c.mm.mmap.vmEnd + paging64PageAlignsz size - c.mm.mmap.vmEnd) / 4096 ≤ _ at hfree
        rwa [Nat.add_sub_cancel_left] at hfree)
    rw [hcases, hcases']
    exact congrArg (fun r : ℤ × Caller => ((0 : ℤ), addrOfInt c.mm.mmap.sbrk, r.2.setMm
      (allocAtBrk r.2.mm rgid size (addrOfInt c.mm.mmap.sbrk) (paging64PageAlignsz size)))) hinc
  · rw [if_neg hno] at hcases hcases'
    rw [hcases, hcases']
    rfl

theorem liballoc_spare (hg : host.Generous) (hreg : c.proc.registered = true) {regIndex size : ℕ}
    (hsize : size < 2 ^ 31) (hlt : c.mm.mmap.vmEnd + paging64PageAlignsz size < 2 ^ 31)
    (hfree : regIndex < pagingMaxSymtblSz →
      ((c.mm.heap.alloc regIndex size).2.vmEnd - c.mm.mmap.vmEnd) / 4096 ≤
        c.krnl.mram.freeFpList.length) :
    liballoc host (c.spare more mswp) size regIndex =
      (liballoc host c size regIndex).map (spared more mswp) := by
  rw [liballoc, liballoc]
  by_cases hid : pagingMaxSymtblSz ≤ regIndex
  · rw [alloc, alloc, if_pos hid, if_pos hid]
    rfl
  · have hid := Nat.lt_of_not_le hid
    rw [alloc_spare more mswp hg hreg hid hsize hlt (hfree hid)]
    generalize alloc host c regIndex size = r
    obtain ⟨st, addr, c'⟩ := r
    by_cases hst : st = 0
    · subst hst
      simp only [setReg_spare, Option.map_map]
      rfl
    · simp only
      rfl

theorem libfree_spare (c : Caller) (regIndex : ℕ) :
    libfree (c.spare more mswp) regIndex = (libfree c regIndex).map (spared more mswp) := by
  have hfree : free (c.spare more mswp) regIndex = spared more mswp (free c regIndex) := by
    rw [free, free, Caller.spare_mm]
    split
    · rfl
    · simp only
      split <;> rfl
  rw [libfree, libfree, hfree]
  generalize free c regIndex = r
  obtain ⟨st, c'⟩ := r
  by_cases hst : st = 0
  · subst hst
    simp only [spared, setReg_spare, Option.map_map]
    rfl
  · simp only [spared]
    rfl

theorem kmallocLoop_spare (rgid : ℕ) {n : ℕ} (i : ℕ) {krnl : Krnl}
    (hfree : n ≤ krnl.mram.freeFpList.length) :
    kmallocLoop host rgid n i (krnl.spare more mswp) =
      ((kmallocLoop host rgid n i krnl).1, (kmallocLoop host rgid n i krnl).2.spare more mswp) := by
  induction n generalizing i krnl with
  | zero => rfl
  | succ n ih =>
      cases hget : memphyGetFreefp krnl.mram with
      | none =>
          rw [memphyGetFreefp_eq_none.1 hget] at hfree
          exact absurd hfree (Nat.not_succ_le_zero n)
      | some r =>
          -- the frame in front is the same, and enough are left behind it
          obtain ⟨f, mram⟩ := r
          have hlen : n ≤ mram.freeFpList.length := by
            obtain ⟨rest, hcons, rfl⟩ := memphyGetFreefp_eq_some hget
            rw [hcons] at hfree
            exact Nat.le_of_succ_le_succ hfree
          have hget' : memphyGetFreefp (krnl.spare more mswp).mram = some (f, mram.spare more) :=
            memphyGetFreefp_spare krnl.mram more hget
          have hmm : (krnl.spare more mswp).mm = krnl.mm := rfl
          rw [kmallocLoop, kmallocLoop, hget, hget', hmm]
          simp only
          generalize getPtePtr host krnl.mm (kmallocPgn rgid i) true = r
          obtain ⟨ptr, mm₁⟩ := r
          cases ptr with
          | none => rfl
          | some pte =>
              simp only
              generalize pteSetFpn host mm₁ (kmallocPgn rgid i) f = r
              obtain ⟨st, mm₂⟩ := r
              by_cases hst : st = 0
              · subst hst
                exact @ih (i + 1) { krnl with mram := mram, mm := mm₂.setPresent pte } hlen
              · simp only
                rfl

theorem kmalloc_spare (rgid : ℕ) {size : ℕ} (c : Caller)
    (hfree : kmallocNumPages size ≤ c.krnl.mram.freeFpList.length) :
    kmalloc host (c.spare more mswp) rgid size = spared more mswp (kmalloc host c rgid size) := by
  rw [kmalloc, kmalloc]
  split
  · rfl
  · have hloop := @kmallocLoop_spare host more mswp rgid _ 0 _ hfree
    exact congrArg (fun r : ℤ × Krnl => (r.1, { c with krnl := r.2 })) hloop

theorem libkmemMalloc_spare {size : ℕ} (c : Caller) (regIndex : ℕ)
    (hfree : kmallocNumPages size ≤ c.krnl.mram.freeFpList.length) :
    libkmemMalloc host (c.spare more mswp) size regIndex =
      spared more mswp (libkmemMalloc host c size regIndex) := by
  rw [libkmemMalloc, libkmemMalloc]
  split
  · rfl
  · rw [kmalloc_spare more mswp regIndex c hfree]
    generalize kmalloc host c regIndex size = r
    obtain ⟨st, c'⟩ := r
    by_cases hst : st = 0
    · subst hst
      rfl
    · simp only [spared]

theorem libkmemCachePoolCreate_spare {size : ℕ} (c : Caller) (align id : ℕ)
    (hfree : kmallocNumPages size ≤ c.krnl.mram.freeFpList.length) :
    libkmemCachePoolCreate host (c.spare more mswp) size align id =
      spared more mswp (libkmemCachePoolCreate host c size align id) := by
  rw [libkmemCachePoolCreate, libkmemCachePoolCreate]
  split
  · rfl
  · have htable : ({ c.spare more mswp with krnl := (c.spare more mswp).krnl.withKcpooltbl } : Caller) =
        ({ c with krnl := c.krnl.withKcpooltbl } : Caller).spare more mswp := rfl
    simp only [htable]
    split
    · rfl
    · have hk := @kmalloc_spare host more mswp id _
        (c := { c with krnl := c.krnl.withKcpooltbl }) hfree
      rw [hk]
      generalize kmalloc host { c with krnl := c.krnl.withKcpooltbl } id size = r
      obtain ⟨st, c'⟩ := r
      by_cases hst : st = 0
      · subst hst
        rfl
      · simp only [spared]

theorem kmemCacheAlloc_spare (c : Caller) (rgid cachePoolId : ℕ) :
    kmemCacheAlloc (c.spare more mswp) rgid cachePoolId =
      (kmemCacheAlloc c rgid cachePoolId).map (spared more mswp) := by
  rw [kmemCacheAlloc, kmemCacheAlloc, Caller.spare_krnl_mm]
  split
  · rfl
  · cases c.krnl.mm.kcpooltbl with
    | none => rfl
    | some tbl =>
        simp only
        split
        · rfl
        · split <;> rfl

theorem libsyscall_spare (hg : host.Generous) (hreg : c.proc.registered = true) {nr a1 a2 a3 : ℕ}
    (hop : nr = 17 → cInt a1 ∉ rawMemops)
    (hlt : nr = 17 → cInt a1 = sysmemIncOp → c.mm.mmap.vmEnd + paging64PageAlignsz (uint32 a3) < 2 ^ 31)
    (hfree : ((c.mm.heap.syscall nr a1 a2 a3).vmEnd - c.mm.mmap.vmEnd) / 4096 ≤
      c.krnl.mram.freeFpList.length) :
    libsyscall host (c.spare more mswp) nr a1 a2 a3 = spared more mswp (libsyscall host c nr a1 a2 a3) := by
  rw [libsyscall, libsyscall, syscall, syscall]
  by_cases hnr : nr = 17
  · have hraw := hop hnr
    simp only [rawMemops, List.mem_cons, List.not_mem_nil, or_false, not_or] at hraw
    simp only [if_pos hnr, sysMemmap, Caller.spare_proc, hreg, Bool.not_true, Bool.false_eq_true,
      if_false, if_neg hraw.1, if_neg hraw.2.1, if_neg hraw.2.2]
    by_cases hinc : cInt a1 = sysmemIncOp
    · have hgrow : cInt a2 ≤ 0 →
          paging64PageAlignsz (uint32 a3) / 4096 ≤ c.krnl.mram.freeFpList.length := by
        intro hvma
        rw [Heap.syscall, if_pos ⟨hnr, hinc⟩, Heap.request] at hfree
        by_cases hzero : paging64PageAlignsz (uint32 a3) = 0
        · rw [hzero]
          exact Nat.zero_le _
        · rw [if_pos ⟨hvma, hzero⟩] at hfree
          change (c.mm.mmap.vmEnd + paging64PageAlignsz (addrT (uint32 a3)) - c.mm.mmap.vmEnd) / 4096 ≤ _
            at hfree
          rwa [Nat.add_sub_cancel_left, paging64PageAlignsz_addrT] at hfree
      simp only [if_pos hinc, incVmaLimit_spare more mswp hg (hlt hnr hinc) hgrow]
      rfl
    · simp only [if_neg hinc, memphyRead_snd]
      split <;> rfl
  · simp only [if_neg hnr]
    rfl

/-- **Instructions.** With enough frames in front, the frames behind them and the swap device do not
    matter. -/
theorem execInst_spare (hg : host.Generous) (hp : PoolsOk R S) (h : MemInv host exact R S pid others c)
    (hreg : c.proc.registered = true) (hres : c.mm.Resident host) {ins : Inst} (htame : ins.Tame)
    (hfits : c.mm.heap.Fits ins) (hfree : c.proc.solo.frames ins ≤ c.krnl.mram.freeFpList.length) :
    execInst host (c.spare more mswp) ins = (execInst host c ins).map (spared more mswp) := by
  have hkernel : ins.kernelPages ≤ c.krnl.mram.freeFpList.length :=
    Nat.le_trans (Nat.le_add_left ..) hfree
  have hgrowth : ((c.proc.solo.exec ins).heap.vmEnd - c.mm.mmap.vmEnd) / 4096 ≤
      c.krnl.mram.freeFpList.length := Nat.le_trans (Nat.le_add_right ..) hfree
  -- each instruction asks for its share of the frames: the kernel pages, or what the area grows by
  unfold execInst
  cases hop : ins.opcode with
  | alloc =>
      refine liballoc_spare more mswp hg hreg (htame.alloc_size hop) (hfits.alloc hop) fun hid => ?_
      simp only [Solo.exec, hop, if_neg (Nat.not_le.2 hid)] at hgrowth
      exact hgrowth
  | free => exact libfree_spare more mswp c _
  | syscall =>
      simp only [Solo.exec, hop] at hgrowth
      exact congrArg some (libsyscall_spare more mswp hg hreg (htame.memop hop) (hfits.inc hop) hgrowth)
  | kmalloc =>
      rw [Inst.kernelPages, hop] at hkernel
      exact congrArg some (libkmemMalloc_spare more mswp c _ hkernel)
  | kmemCacheCreate =>
      rw [Inst.kernelPages, hop] at hkernel
      exact congrArg some (libkmemCachePoolCreate_spare more mswp c _ _ hkernel)
  | kmemCacheAlloc =>
      simp only [libkmemCacheAlloc, kmemCacheAlloc_spare, Option.map_map]
      rfl
  | copyFromUser | copyToUser =>
      simp only [libkmemCopyFromUser, libkmemCopyToUser, libkmemCopy]
      split
      · rfl
      · exact congrArg some (copyLoop_spare more mswp hg.1 hp h hreg hres ..)
  | read =>
      exact congrArg (fun r : ℤ × Caller => some r) (read_spare more mswp h hreg hres _ _)
  | write => exact congrArg some (write_spare more mswp h hreg hres ..)
  | _ => rfl

end Instruction

end Ossim
