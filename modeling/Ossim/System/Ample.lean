import Ossim.Libmem.Kmalloc
import Ossim.System.Flat
import Ossim.Vm.Mapping

set_option autoImplicit false

/-! # Enough memory

An area maps its pages when it grows, so a process that finds frames for its pages never faults: its
accesses take no frame and do not go to the swap device. -/

namespace Ossim

open Pager

/-! ## What is taken -/

/-- Every page of the area is in RAM. -/
def Mm.Resident (host : Host) (mm : Mm) : Prop :=
  ∀ pgn, pgn * 4096 < mm.mmap.vmEnd → mm.presentAt (pageIx host pgn)

/-- At most `n` frames of RAM are taken, none of them from a page of the area, and nothing is swapped. -/
structure Takes (host : Host) (n : ℕ) (c c' : Caller) : Prop where
  resident : c.mm.Resident host → c'.mm.Resident host
  free : c.krnl.mram.freeFpList.length ≤ c'.krnl.mram.freeFpList.length + n
  swap : c'.krnl.activeMswp = c.krnl.activeMswp

/-- The frames an instruction takes for the kernel. -/
def Inst.kernelPages (ins : Inst) : ℕ :=
  match ins.opcode with
  | .kmalloc | .kmemCacheCreate => kmallocNumPages (uint32 ins.arg0)
  | _ => 0

/-- The frames an instruction takes, as registers and regions say: those of the pages the area grows by,
    and those of the kernel. -/
def Solo.frames (m : Solo) (ins : Inst) : ℕ :=
  ((m.exec ins).heap.vmEnd - m.heap.vmEnd) / 4096 + ins.kernelPages

/-- The frames the next instruction takes. -/
def Solo.cost (m : Solo) : ℕ :=
  match m.fetch with
  | none => 0
  | some ins => { m with pc := m.pc + 1 }.frames ins

namespace Takes

variable {host : Host} {n m : ℕ} {c c' c'' : Caller}

theorem refl (c : Caller) : Takes host n c c := ⟨fun h => h, Nat.le_add_right .., rfl⟩

theorem trans (h : Takes host n c c') (h' : Takes host m c' c'') : Takes host (n + m) c c'' where
  resident := fun hres => h'.resident (h.resident hres)
  free := by
    have h1 := h.free
    have h2 := h'.free
    omega
  swap := h'.swap.trans h.swap

theorem mono (h : Takes host n c c') (hle : n ≤ m) : Takes host m c c' :=
  ⟨h.resident, h.free.trans (Nat.add_le_add_left hle _), h.swap⟩

/-- The entries and the end of the area decide. -/
theorem of_pages (hentry : c'.mm.entry = c.mm.entry) (hend : c'.mm.mmap.vmEnd = c.mm.mmap.vmEnd)
    (hfree : c'.krnl.mram.freeFpList = c.krnl.mram.freeFpList)
    (hswap : c'.krnl.activeMswp = c.krnl.activeMswp) : Takes host n c c' where
  resident := fun hres pgn hlt => by
    rw [Mm.presentAt, hentry]
    exact hres pgn (hend ▸ hlt)
  free := by
    rw [hfree]
    exact Nat.le_add_right ..
  swap := hswap

end Takes

/-! ## Accesses -/

section Access

variable {host : Host} {exact : Prop} {R S : Set ℕ} {pid : ℕ} {others : ℕ → PageIx → Residence}
variable {c : Caller}

/-- A page that is present is looked up, twice, and that is all. -/
theorem pgGetpage_of_present {pgn : ℕ} (h : c.mm.presentAt (pageIx host pgn)) :
    pgGetpage host c pgn = (some (pagingFpn ((c.mm.entry (pageIx host pgn)).setWidth 32)),
      c.setMm (pteGetEntry host (pteGetEntry host c.mm pgn).2 pgn).2) := by
  have hpres : pagingPagePresent (pteGetEntry host c.mm pgn).1 = true := by
    rw [pteGetEntry_fst]
    exact h
  simp only [pgGetpage, if_pos hpres]
  rw [pteGetEntry_fst, Caller.setMm_mm, pteGetEntry_entry]
  rfl

/-- Then nothing is taken. -/
theorem takes_getpage (pgn : ℕ) (mp : Memphy) (hfree : mp.freeFpList = c.krnl.mram.freeFpList) :
    Takes host 0 c
      ((c.setMm (pteGetEntry host (pteGetEntry host c.mm pgn).2 pgn).2).setMram mp) := by
  refine .of_pages ?_ ?_ hfree rfl
  · simp
  · simp

/-- An access of a process whose area is resident finds its page. -/
theorem MemInv.resolved_present (h : MemInv host exact R S pid others c)
    (hreg : c.proc.registered = true) (hres : c.mm.Resident host) {rgid off a : ℕ}
    (ha : c.mm.resolve rgid off = some a) : a < 2 ^ 31 ∧ c.mm.presentAt (pageIx host (a / 4096)) := by
  have hlt := resolve_lt h.regions ha
  obtain ⟨hbrk, -, hend⟩ := h.regions.brk hreg
  rw [heapEnd, if_pos hreg] at hlt
  exact ⟨by omega, hres _ (by omega)⟩

section Registered

variable (h : MemInv host exact R S pid others c) (hreg : c.proc.registered = true)
variable (hres : c.mm.Resident host)

include h hreg hres

theorem read_takes (rgid off : ℕ) : Takes host 0 c (read host c rgid off).2 := by
  rw [read]
  cases ha : c.mm.resolve rgid off with
  | none => exact .refl c
  | some a =>
      obtain ⟨hlt, hpres⟩ := h.resolved_present hreg hres ha
      simp only [pgGetval, pgnOfIntAddr_eq hlt, pgGetpage_of_present hpres, syscall_ioRead, memphyRead_snd]
      split <;> exact takes_getpage _ _ rfl

/-- A write into a region succeeds. -/
theorem write_takes (rgid off : ℕ) (v : Byte) :
    Takes host 0 c (write host c rgid off v).2 ∧
    ∀ a, c.mm.resolve rgid off = some a → (write host c rgid off v).1 = 0 := by
  rw [write]
  cases ha : c.mm.resolve rgid off with
  | none => exact ⟨.refl c, by simp⟩
  | some a =>
      obtain ⟨hlt, hpres⟩ := h.resolved_present hreg hres ha
      simp only [pgSetval, pgnOfIntAddr_eq hlt, pgGetpage_of_present hpres, syscall_ioWrite]
      refine ⟨?_, fun _ _ => trivial⟩
      split
      · exact takes_getpage _ _ (memphyWrite_freeFpList ..)
      · exact takes_getpage _ c.krnl.mram rfl

theorem writeUserMem_takes (rgid off : ℕ) (v : Byte) :
    Takes host 0 c (writeUserMem host c rgid off v).2 := by
  rw [writeUserMem]
  cases ha : c.mm.resolve rgid off with
  | none => exact .refl c
  | some a =>
      obtain ⟨hlt, hpres⟩ := h.resolved_present hreg hres ha
      simp only [addrOfInt_shift hlt, pgGetpage_of_present hpres]
      exact takes_getpage _ _ (memphyWrite_freeFpList ..)

end Registered

theorem readKernelMem_takes (c : Caller) (rgid off : ℕ) :
    Takes host 0 c (readKernelMem host c rgid off).2 := by
  rw [readKernelMem]
  cases c.krnl.mm.resolve rgid off with
  | none => exact .refl c
  | some vaddr =>
      simp only [kernelFrame]
      split
      · next heq =>
          obtain ⟨-, rfl⟩ := Prod.mk.inj heq
          exact .of_pages rfl rfl rfl rfl
      · next heq =>
          obtain ⟨-, rfl⟩ := Prod.mk.inj heq
          rw [memphyRead_snd]
          exact .of_pages rfl rfl rfl rfl

theorem copyLoop_takes (hc : ∀ n, host.calloc n = true) (hp : PoolsOk R S)
    (h : MemInv host exact R S pid others c) (hreg : c.proc.registered = true)
    (hres : c.mm.Resident host) (source destination offset n i : ℕ) :
    Takes host 0 c (copyLoop host source destination offset n i c).2 := by
  induction n generalizing c i with
  | zero => exact .refl c
  | succ n ih =>
      have hread := @readKernelMem_takes host c source (uint32 (offset + i))
      obtain ⟨h₁, honly₁, -⟩ := readKernelMem_spec h source (uint32 (offset + i))
      rw [copyLoop]
      generalize readKernelMem host c source (uint32 (offset + i)) = r at *
      obtain ⟨byte, c₁⟩ := r
      cases byte with
      | none => exact hread
      | some b =>
          have hreg₁ := honly₁.registered.trans hreg
          have hwrite := writeUserMem_takes h₁ hreg₁ (hread.resident hres) destination
            (uint32 (offset + i)) b
          obtain ⟨h₂, honly₂, -⟩ := writeUserMem_spec hc hp h₁ destination (uint32 (offset + i)) b
          simp only
          generalize writeUserMem host c₁ destination (uint32 (offset + i)) b = r at *
          obtain ⟨st, c₂⟩ := r
          have hboth := hread.trans hwrite
          split
          · next heq =>
              cases heq
              exact hboth.trans (ih h₂ (honly₂.registered.trans hreg₁) (hboth.resident hres) (i + 1))
          · next heq =>
              cases heq
              exact hboth

end Access

/-! ## Growing -/

section Grow

variable {host : Host} {exact : Prop} {R S : Set ℕ} {pid : ℕ} {others : ℕ → PageIx → Residence}
variable {c : Caller}

/-- With frames for them, all pages of the range get one. -/
theorem vmMapRam_present (hg : host.Generous) (c : Caller) {a n : ℕ} (hlt : a + n < 2 ^ 19)
    (hfree : n ≤ c.krnl.mram.freeFpList.length) :
    let c' := (vmMapRam host c (a * 4096) n).2
    c'.krnl.mram.freeFpList.length + n = c.krnl.mram.freeFpList.length ∧
    (∀ q, c.mm.presentAt q → c'.mm.presentAt q) ∧
    ∀ i < n, c'.mm.presentAt (pageIx host (a + i)) := by
  have hgranted : FramesGranted host c.krnl.mram n := ⟨hfree, fun k _ => hg.2 k⟩
  obtain ⟨frames, mram, hlen, halloc, hmap⟩ := vmMapRam_of_frames host c (a * 4096) n hgranted
  rw [allocPagesRange_of_granted hgranted] at halloc
  cases halloc
  have hok := (vmapPagesLoop_ok_iff host (a * 4096) 0 hlen c.mm).2 (.of_calloc hg.1 ..)
  rw [hmap]
  refine ⟨?_, fun q hq => ?_, fun i hi => ?_⟩
  · change (c.krnl.mram.freeFpList.drop n).length + n = _
    rw [List.length_drop]
    omega
  · exact vmapPagesLoop_keeps_present host _ n 0 _ hq
  · refine vmapPagesLoop_present host _ hlen hok (mem_vmapPages.2 ⟨i, hi, ?_⟩)
    have hpgn := @vmapPgn_of_range (a * 4096) n (Dvd.intro_left _ rfl) (by omega) i hi
    rw [hpgn, Nat.mul_div_cancel _ (by decide)]

/-- Growing an area takes a frame for each of its new pages, and all of it stays in RAM. -/
theorem incVmaLimit_takes (hg : host.Generous) (h : MemInv host exact R S pid others c)
    (hreg : c.proc.registered = true) {vmaid : ℤ} {incSz : ℕ} :
    let c' := (incVmaLimit host c vmaid incSz).2
    c'.mm.mmap.vmEnd < 2 ^ 31 →
    (c'.mm.mmap.vmEnd - c.mm.mmap.vmEnd) / 4096 ≤ c.krnl.mram.freeFpList.length →
    Takes host ((c'.mm.mmap.vmEnd - c.mm.mmap.vmEnd) / 4096) c c' := by
  intro c' hlt hfree
  rcases incVmaLimit_cases host c vmaid incSz with heq | ⟨-, -, hgrow, heq⟩
  · rw [show c' = c from heq]
    exact .refl c
  · generalize hc₁ : c.setMm (c.mm.setArea (addrT (c.mm.mmap.vmEnd + paging64PageAlignsz incSz))
      (addrT (c.mm.mmap.sbrk + incSz))) = c₁ at heq
    have hend : c'.mm.mmap.vmEnd = addrT (c.mm.mmap.vmEnd + paging64PageAlignsz incSz) := by
      obtain ⟨-, -, hmmap, -⟩ := vmMapRam_same host c₁ c.mm.mmap.vmEnd
        (cInt (paging64PageAlignsz incSz / paging64Pagesz)).toNat
      rw [show c' = _ from heq, hmmap, ← hc₁]
      rfl
    rw [hend] at hlt hfree ⊢
    obtain ⟨a, n, haddr, hn, hnew, hpages, -⟩ := h.grow_pages hreg hgrow hlt
    have hcount : (addrT (c.mm.mmap.vmEnd + paging64PageAlignsz incSz) - c.mm.mmap.vmEnd) / 4096 = n := by
      omega
    rw [hcount] at hfree ⊢
    rw [hn, haddr] at heq
    have hkrnl : c₁.krnl = c.krnl := by rw [← hc₁]; rfl
    obtain ⟨hlen, hkeep, hmapped⟩ := vmMapRam_present hg c₁ hpages (by rw [hkrnl]; exact hfree)
    rw [← heq] at hlen hkeep hmapped
    refine ⟨fun hres pgn hpgn => ?_, ?_, ?_⟩
    · rw [hend, hnew] at hpgn
      -- pages below the old end stay mapped, and those from it on were mapped one by one
      by_cases hold : pgn < a
      · refine hkeep _ ?_
        rw [← hc₁]
        exact hres pgn (by omega)
      · obtain ⟨i, rfl⟩ := Nat.exists_eq_add_of_le (Nat.le_of_not_lt hold)
        exact hmapped i (by omega)
    · rw [hkrnl] at hlen
      exact Nat.le_of_eq hlen.symm
    · rw [show c' = _ from heq, (vmMapRam_same host c₁ (a * 4096) n).2.1, hkrnl]

end Grow

/-! ## Instructions -/

section Instruction

variable {host : Host} {exact : Prop} {R S : Set ℕ} {pid : ℕ} {others : ℕ → PageIx → Residence}
variable {c c' : Caller} {rgid size : ℕ}

theorem alloc_takes (hg : host.Generous) (h : MemInv host exact R S pid others c)
    (hreg : c.proc.registered = true) (hsize : size < 2 ^ 31) :
    let c' := (alloc host c rgid size).2.2
    c'.mm.mmap.vmEnd < 2 ^ 31 →
    (c'.mm.mmap.vmEnd - c.mm.mmap.vmEnd) / 4096 ≤ c.krnl.mram.freeFpList.length →
    Takes host ((c'.mm.mmap.vmEnd - c.mm.mmap.vmEnd) / 4096) c c' := by
  by_cases hid : pagingMaxSymtblSz ≤ rgid
  · rw [alloc, if_pos hid]
    exact fun _ _ => .refl c
  have hid : rgid < pagingMaxSymtblSz := Nat.lt_of_not_le hid
  obtain ⟨-, hsearch⟩ := freergFirstFit_spec hsize h.regions.heapEnd_le c.mm.mmap.vmFreergList
    (fun r hr => h.regions.mem r (List.mem_append_right _ hr))
  have hcases := alloc_cases host c rgid hid hsize
  simp only [hreg, if_true] at hcases
  rcases hsearch with ⟨hno, hsame⟩ | ⟨hlen, hend, -⟩
  · -- at the break
    simp only [hno, hsame, if_true] at hcases
    have hmm : c.setMm { c.mm with mmap := { c.mm.mmap with
        vmFreergList := c.mm.mmap.vmFreergList } } = c := rfl
    rw [hmm] at hcases
    rw [hcases]
    have harea := fun mm => (allocAtBrk_area mm rgid size (addrOfInt c.mm.mmap.sbrk)
      (paging64PageAlignsz size)).2
    simp only [Caller.setMm_mm, harea]
    intro hlt hfree
    refine (incVmaLimit_takes hg h hreg hlt hfree).trans (m := 0) ?_
    exact .of_pages (allocAtBrk_rest ..).1 (harea _) rfl rfl
  · -- from the free list: the area does not grow
    have hne : (freergFirstFit size c.mm.mmap.vmFreergList).1.rgStart ≠ noRg.rgStart := by
      change _ ≠ 2 ^ 64 - 1
      have hle := h.regions.heapEnd_le
      omega
    rw [if_neg hne] at hcases
    rw [hcases]
    exact fun _ _ => .of_pages rfl rfl rfl rfl

theorem kmallocLoop_activeMswp (rgid n i : ℕ) (krnl : Krnl) :
    (kmallocLoop host rgid n i krnl).2.activeMswp = krnl.activeMswp := by
  induction n generalizing i krnl with
  | zero => rfl
  | succ n ih =>
      cases hget : memphyGetFreefp krnl.mram with
      | none => rw [kmallocLoop, hget]
      | some r =>
          obtain ⟨f, mram⟩ := r
          obtain ⟨mm, -, -, ⟨-, heq⟩ | ⟨-, heq⟩⟩ := @kmallocLoop_some host rgid n i _ _ _ hget
          · rw [heq]
          · rw [heq, ih]

theorem kmalloc_takes (c : Caller) (rgid size : ℕ) :
    Takes host (kmallocNumPages size) c (kmalloc host c rgid size).2 := by
  rw [kmalloc]
  split
  · exact .refl c
  · obtain ⟨k, hk, htook, -⟩ := kmallocLoop_took host rgid (kmallocNumPages size) 0 c.krnl
    refine ⟨fun hres => hres, ?_, kmallocLoop_activeMswp ..⟩
    change _ ≤ (kmallocLoop host rgid (kmallocNumPages size) 0 c.krnl).2.mram.freeFpList.length + _
    rw [htook.mram]
    simp only [List.length_drop]
    omega

theorem libkmemMalloc_takes (c : Caller) (size regIndex : ℕ) :
    Takes host (kmallocNumPages size) c (libkmemMalloc host c size regIndex).2 := by
  have hkmalloc := @kmalloc_takes host c regIndex size
  rw [libkmemMalloc]
  split
  · exact .refl c
  · generalize kmalloc host c regIndex size = r at *
    split <;> exact hkmalloc

theorem libkmemCachePoolCreate_takes (c : Caller) (size align id : ℕ) :
    Takes host (kmallocNumPages size) c (libkmemCachePoolCreate host c size align id).2 := by
  have htable : Takes host 0 c { c with krnl := c.krnl.withKcpooltbl } := .of_pages rfl rfl rfl rfl
  have hkmalloc := @kmalloc_takes host { c with krnl := c.krnl.withKcpooltbl } id size
  have hboth := htable.trans hkmalloc
  rw [Nat.zero_add] at hboth
  rw [libkmemCachePoolCreate]
  split
  · exact .refl c
  · simp only
    split
    · exact htable.mono (Nat.zero_le _)
    · generalize kmalloc host { c with krnl := c.krnl.withKcpooltbl } id size = r at *
      split
      · exact hboth.trans (m := 0) (.of_pages rfl rfl rfl rfl)
      · exact hboth

theorem kmemCacheAlloc_takes {rgid cachePoolId : ℕ} {st : ℤ}
    (hstep : kmemCacheAlloc c rgid cachePoolId = some (st, c')) : Takes host 0 c c' := by
  rw [kmemCacheAlloc] at hstep
  split at hstep
  · cases hstep
    exact .refl c
  · split at hstep
    · exact absurd hstep (by simp)
    · simp only at hstep
      split_ifs at hstep
      all_goals
        cases hstep
        exact .of_pages rfl rfl rfl rfl

theorem free_takes (c : Caller) (rgid : ℕ) : Takes host 0 c (free c rgid).2 := by
  rw [free]
  split
  · exact .refl c
  · simp only
    split
    · exact .refl c
    · refine .of_pages ?_ (enlistVmFreergList_area ..).2 rfl rfl
      rw [Caller.setMm_mm, enlistVmFreergList]
      split <;> rfl

theorem syscall_takes (hg : host.Generous) (h : MemInv host exact R S pid others c)
    (hreg : c.proc.registered = true) {nr a1 a2 a3 : ℕ} (hop : nr = 17 → cInt a1 ∉ rawMemops) :
    let c' := (syscall host c nr ⟨a1, a2, a3⟩).2.2
    c'.mm.mmap.vmEnd < 2 ^ 31 →
    (c'.mm.mmap.vmEnd - c.mm.mmap.vmEnd) / 4096 ≤ c.krnl.mram.freeFpList.length →
    Takes host ((c'.mm.mmap.vmEnd - c.mm.mmap.vmEnd) / 4096) c c' := by
  rw [syscall]
  split
  · next hnr =>
      have hraw := hop hnr
      simp only [rawMemops, List.mem_cons, List.not_mem_nil, or_false, not_or] at hraw
      simp only [sysMemmap, hreg, Bool.not_true, Bool.false_eq_true, if_false, if_neg hraw.1,
        if_neg hraw.2.1, if_neg hraw.2.2]
      split_ifs with hinc
      · exact incVmaLimit_takes hg h hreg
      · exact fun _ _ => .of_pages rfl rfl (by rw [memphyRead_snd]; rfl) rfl
      · exact fun _ _ => .refl c
  · exact fun _ _ => .refl c

/-- **Instructions.** A tame instruction of a process whose area is resident takes frames for the kernel
    and for the pages the area grows by. The area stays resident, and the swap device is not used. -/
theorem execInst_takes (hg : host.Generous) (hp : PoolsOk R S) (h : MemInv host exact R S pid others c)
    (hreg : c.proc.registered = true) (hres : c.mm.Resident host) {ins : Inst} (htame : ins.Tame)
    (hfits : c.Fits ins)
    (hfree : (c'.mm.mmap.vmEnd - c.mm.mmap.vmEnd) / 4096 ≤ c.krnl.mram.freeFpList.length)
    {st : ℤ} (hexec : execInst host c ins = some (st, c')) :
    Takes host ((c'.mm.mmap.vmEnd - c.mm.mmap.vmEnd) / 4096 + ins.kernelPages) c c' := by
  have hend := execInst_vmEnd h htame hfits hexec
  unfold execInst at hexec
  -- frames go to the pages the area grows by and to the kernel; accesses find their pages resident
  cases hop : ins.opcode with
  | alloc =>
      rw [hop] at hexec
      have hlt := hend (Or.inl hop) hreg
      obtain ⟨regs, heq⟩ := liballoc_eq_some _ _ hexec
      have hmm : c'.mm = (alloc host c (uint32 ins.arg1) ins.arg0).2.2.mm := by rw [heq]; rfl
      have hkrnl : c'.krnl = (alloc host c (uint32 ins.arg1) ins.arg0).2.2.krnl := by rw [heq]
      rw [hmm] at hlt hfree
      have halloc := alloc_takes hg h hreg (htame.alloc_size hop) hlt hfree
      rw [← hmm] at halloc
      exact halloc.trans (.of_pages (by rw [hmm]) (by rw [hmm]) (by rw [hkrnl]) (by rw [hkrnl]))
  | free =>
      rw [hop] at hexec
      obtain ⟨regs, heq⟩ := libfree_eq_some _ hexec
      have hregs : Takes host 0 (free c (uint32 ins.arg0)).2 c' := by
        rw [heq]
        exact .of_pages rfl rfl rfl rfl
      exact ((free_takes c _).trans hregs).mono (Nat.zero_le _)
  | syscall =>
      rw [hop] at hexec
      have hlt := hend (Or.inr (Or.inr hop)) hreg
      obtain rfl : (syscall host c (uint32 ins.arg0) ⟨ins.arg1, ins.arg2, ins.arg3⟩).2.2 = c' :=
        congrArg Prod.snd (Option.some.inj hexec)
      exact (syscall_takes hg h hreg (htame.memop hop) hlt hfree).mono (Nat.le_add_right ..)
  | kmalloc =>
      rw [hop] at hexec
      obtain rfl : _ = c' := congrArg Prod.snd (Option.some.inj hexec)
      refine (libkmemMalloc_takes ..).mono ?_
      rw [Inst.kernelPages, hop]
      exact Nat.le_add_left ..
  | kmemCacheCreate =>
      rw [hop] at hexec
      obtain rfl : _ = c' := congrArg Prod.snd (Option.some.inj hexec)
      refine (libkmemCachePoolCreate_takes ..).mono ?_
      rw [Inst.kernelPages, hop]
      exact Nat.le_add_left ..
  | kmemCacheAlloc =>
      rw [hop] at hexec
      obtain ⟨⟨st', c₁⟩, hcache, heq⟩ := Option.map_eq_some_iff.1 hexec
      obtain rfl : c₁ = c' := congrArg Prod.snd heq
      exact (kmemCacheAlloc_takes hcache).mono (Nat.zero_le _)
  | copyFromUser | copyToUser =>
      rw [hop] at hexec
      obtain rfl : _ = c' := congrArg Prod.snd (Option.some.inj hexec)
      simp only [libkmemCopyFromUser, libkmemCopyToUser, libkmemCopy]
      split
      · exact .refl c
      · exact (copyLoop_takes hg.1 hp h hreg hres ..).mono (Nat.zero_le _)
  | read =>
      rw [hop] at hexec
      obtain rfl : _ = c' := congrArg Prod.snd (Option.some.inj hexec)
      exact (read_takes h hreg hres ..).mono (Nat.zero_le _)
  | write =>
      rw [hop] at hexec
      obtain rfl : _ = c' := congrArg Prod.snd (Option.some.inj hexec)
      exact (write_takes h hreg hres ..).1.mono (Nat.zero_le _)
  | _ =>
      rw [hop] at hexec
      obtain rfl : _ = c' := congrArg Prod.snd (Option.some.inj hexec)
      exact .refl c

/-- A write into a region of such a process does not fail. -/
theorem execInst_write_ok (h : MemInv host exact R S pid others c) (hreg : c.proc.registered = true)
    (hres : c.mm.Resident host) {ins : Inst} (hop : ins.opcode = .write) {a : ℕ}
    (ha : c.mm.resolve (uint32 ins.arg1) ins.arg2 = some a) {st : ℤ}
    (hexec : execInst host c ins = some (st, c')) : st = 0 := by
  have hwrite := (write_takes h hreg hres (uint32 ins.arg1) ins.arg2 (byteOfAddr ins.arg0)).2 a ha
  simp only [execInst, hop, libwrite, Option.some.injEq] at hexec
  rw [hexec] at hwrite
  exact hwrite

/-- Reading a byte of such a process succeeds. -/
theorem readUserMem_isSome (h : MemInv host True R S pid others c) (hreg : c.proc.registered = true)
    (hres : c.mm.Resident host) {off a : ℕ} (ha : c.mm.resolve rgid off = some a) :
    (readUserMem host c rgid off).1.isSome := by
  obtain ⟨hlt, hpres⟩ := h.resolved_present hreg hres ha
  have hpool := h.within.ram_mem (x := (.proc pid, pageIx host (a / 4096))) (by
    rw [pager_res_self]
    exact residence_eq_ram hpres)
  have hrdm := (h.devices.ram_holds trivial _ hpool).rdm
  simp only [readUserMem, ha, addrOfInt_shift hlt, pgGetpage_of_present hpres, Caller.setMm_krnl,
    memphyRead, hrdm, if_true]
  rfl

end Instruction

end Ossim
