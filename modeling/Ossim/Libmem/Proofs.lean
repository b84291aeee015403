import Ossim.Libmem
import Ossim.Vm.Proofs

set_option autoImplicit false

/-! # The library's system calls

The library goes through `_syscall` for the growth of an area, the copy of a frame to swap and the
access to a byte of RAM. These lemmas say what each call amounts to, so that nothing else has to look
into `__sys_memmap`. -/

namespace Ossim

section Syscalls

variable (host : Host) (c : Caller)

theorem syscall_inc (incSz : ℕ) :
    (syscall host c 17 ⟨2, 0, incSz⟩).2.2 =
      if c.proc.registered then (incVmaLimit host c 0 (uint32 incSz)).2 else c := by
  have hop : cInt 2 = 2 := cInt_of_lt (by omega)
  have hvma : cInt 0 = 0 := cInt_of_lt (by omega)
  cases hr : c.proc.registered <;>
    simp [syscall, sysMemmap, hr, hop, hvma, sysmemMapOp, sysmemIncOp]

theorem syscall_swp (vicfpn swpfpn : ℕ) :
    (syscall host c 17 ⟨3, vicfpn, swpfpn⟩).2.2 =
      if c.proc.registered then mmSwapPage host c (uint32 vicfpn) (uint32 swpfpn) else c := by
  have hop : cInt 3 = 3 := cInt_of_lt (by omega)
  cases hr : c.proc.registered <;>
    simp [syscall, sysMemmap, hr, hop, sysmemMapOp, sysmemIncOp, sysmemSwpOp]

theorem syscall_ioRead (phy a3 : ℕ) :
    (syscall host c 17 ⟨4, phy, a3⟩).2.2 =
      if c.proc.registered then c.setMram (memphyRead c.krnl.mram (uint32 phy)).2 else c := by
  have hop : cInt 4 = 4 := cInt_of_lt (by omega)
  cases hr : c.proc.registered <;>
    simp [syscall, sysMemmap, hr, hop, sysmemMapOp, sysmemIncOp, sysmemSwpOp, sysmemIoRead]

theorem syscall_ioWrite (phy : ℕ) (value : Byte) :
    (syscall host c 17 ⟨5, phy, addrOfByte value⟩).2.2 =
      if c.proc.registered then c.setMram (memphyWrite c.krnl.mram (uint32 phy) value).2 else c := by
  have hop : cInt 5 = 5 := cInt_of_lt (by omega)
  cases hr : c.proc.registered <;>
    simp [syscall, sysMemmap, hr, hop, sysmemMapOp, sysmemIncOp, sysmemSwpOp, sysmemIoRead,
      sysmemIoWrite, byteOfAddr_addrOfByte]

/-- A physical address of RAM is below the range of the call's addresses. -/
theorem uint32_phyaddr {fpn : ℕ} (h : fpn < 2 ^ 13) (addr : ℕ) :
    uint32 (phyaddr fpn (addr % 4096)) = phyaddr fpn (addr % 4096) := by
  refine uint32_of_lt ?_
  rw [phyaddr, Nat.shiftLeft_eq]
  omega

theorem syscall_swp_same (vicfpn swpfpn : ℕ) :
    SameButPages c (syscall host c 17 ⟨3, vicfpn, swpfpn⟩).2.2 := by
  rw [syscall_swp]
  split
  · exact .setMswp c _
  · exact .refl c

theorem syscall_ioRead_same (phy a3 : ℕ) :
    SameButPages c (syscall host c 17 ⟨4, phy, a3⟩).2.2 := by
  rw [syscall_ioRead]
  split
  · exact .setMram c _
  · exact .refl c

theorem syscall_ioWrite_same (phy : ℕ) (value : Byte) :
    SameButPages c (syscall host c 17 ⟨5, phy, addrOfByte value⟩).2.2 := by
  rw [syscall_ioWrite]
  split
  · exact .setMram c _
  · exact .refl c

theorem syscall_same (nr : ℕ) (regs : ScRegs) : SameButUser c (syscall host c nr regs).2.2 := by
  rw [syscall]
  split
  · simp only [sysMemmap]
    split_ifs
    · exact .refl c
    · exact .setMm c _
    · exact incVmaLimit_same host c _ _
    · exact .setMswp c _
    · exact .setMram c _
    · exact .setMram c _
    · exact .refl c
  · exact .refl c

end Syscalls

/-! ## Demand paging -/

section Paging

variable (host : Host) (c : Caller)

/-- The lookup of an entry counts, and changes nothing else. -/
theorem pteGetEntry_same (pgn : ℕ) : SameButPages c (c.setMm (pteGetEntry host c.mm pgn).2) :=
  .setMm c (pteGetEntry_mmap ..) (pteGetEntry_symrgtbl ..)

theorem stealFrame_same : SameButPages c (stealFrame host c).2 := by
  rw [stealFrame, findVictimPage]
  cases c.mm.fifoPgn.getLast? with
  | none => exact .refl c
  | some vicpgn =>
      have hget : SameButPages c (c.setMm (pteGetEntry host
          { c.mm with fifoPgn := c.mm.fifoPgn.dropLast } vicpgn).2) :=
        .setMm c (pteGetEntry_mmap ..) (pteGetEntry_symrgtbl ..)
      simp only
      split
      · exact hget
      · next swpfpn mswp _ =>
          have hswp := fun vicfpn => (hget.trans (.setMswp _ mswp)).trans
            (syscall_swp_same host _ vicfpn swpfpn)
          exact (hswp _).trans (.setMm _ (pteUpdate_mmap ..) (pteUpdate_symrgtbl ..))

theorem getTargetFrame_same : SameButPages c (getTargetFrame host c).2 := by
  rw [getTargetFrame]
  split
  · exact .setMram c _
  · exact stealFrame_same host c

/-- The page-in is a matter of the devices. -/
theorem swapIn_proc (pte : BitVec 32) (tgtfpn : ℕ) : (swapIn host c pte tgtfpn).proc = c.proc := by
  rw [swapIn]
  split
  · exact (Caller.setMswp_proc ..).trans (Caller.setMram_proc ..)
  · rfl

theorem swapIn_mm (pte : BitVec 32) (tgtfpn : ℕ) : (swapIn host c pte tgtfpn).mm = c.mm :=
  congrArg Pcb.mm (swapIn_proc host c pte tgtfpn)

theorem swapIn_same (pte : BitVec 32) (tgtfpn : ℕ) : SameButPages c (swapIn host c pte tgtfpn) := by
  rw [swapIn]
  split
  · exact (SameButPages.setMram c _).trans (.setMswp _ _)
  · exact .refl c

theorem installPage_same (pgn tgtfpn : ℕ) : SameButPages c (installPage host c pgn tgtfpn) :=
  .setMm c (pteUpdate_mmap ..) (pteUpdate_symrgtbl ..)

theorem pgGetpage_same (pgn : ℕ) : SameButPages c (pgGetpage host c pgn).2 := by
  have hget := pteGetEntry_same host c pgn
  have htgt := getTargetFrame_same host (c.setMm (pteGetEntry host c.mm pgn).2)
  simp only [pgGetpage]
  generalize getTargetFrame host (c.setMm (pteGetEntry host c.mm pgn).2) = r at *
  obtain ⟨f, c₁⟩ := r
  split
  · exact hget.trans (pteGetEntry_same host _ pgn)
  · cases f with
    | none => exact hget.trans htgt
    | some f =>
        have hin := fun pte => (swapIn_same host c₁ pte f).trans (installPage_same host _ pgn f)
        exact ((hget.trans htgt).trans (hin _)).trans (pteGetEntry_same host _ pgn)

/-! The kind of RAM is decided once and for all. -/

theorem swapIn_rdmflg (pte : BitVec 32) (tgtfpn : ℕ) :
    (swapIn host c pte tgtfpn).krnl.mram.rdmflg = c.krnl.mram.rdmflg := by
  rw [swapIn]
  split
  · rw [Caller.setMswp_mram, Caller.setMram_mram, swapCpPage_rdmflg]
  · rfl

theorem getTargetFrame_rdmflg : (getTargetFrame host c).2.krnl.mram.rdmflg = c.krnl.mram.rdmflg := by
  rw [getTargetFrame]
  split
  · next hget =>
      obtain ⟨_, _, rfl⟩ := memphyGetFreefp_eq_some hget
      rfl
  · rw [stealFrame]
    split
    · rfl
    · simp only
      split
      · rfl
      · rw [Caller.setMm_krnl, syscall_swp]
        split
        · rw [mmSwapPage, Caller.setMswp_mram, Caller.setMswp_mram, Caller.setMm_krnl]
        · rw [Caller.setMswp_mram, Caller.setMm_krnl]

/-- The frame of a page is read from its entry. -/
theorem pgGetpage_lt {pgn fpn : ℕ} (h : (pgGetpage host c pgn).1 = some fpn) : fpn < 2 ^ 13 := by
  have hentry : ∀ pte, pagingFpn pte = fpn → fpn < 2 ^ 13 := by
    rintro pte rfl
    rw [pagingFpn_eq]
    exact Nat.mod_lt _ (by decide)
  simp only [pgGetpage] at h
  split at h
  · exact hentry _ (Option.some.inj h)
  · split at h
    · exact absurd h (by simp)
    · exact hentry _ (Option.some.inj h)

theorem pgGetpage_rdmflg (pgn : ℕ) :
    (pgGetpage host c pgn).2.krnl.mram.rdmflg = c.krnl.mram.rdmflg := by
  have htgt := getTargetFrame_rdmflg host (c.setMm (pteGetEntry host c.mm pgn).2)
  simp only [pgGetpage]
  generalize getTargetFrame host (c.setMm (pteGetEntry host c.mm pgn).2) = r at *
  obtain ⟨f, c₁⟩ := r
  split
  · rfl
  · cases f with
    | none => exact htgt
    | some f =>
        simp only [installPage, Caller.setMm_krnl, swapIn_rdmflg]
        exact htgt

end Paging

/-- A page that is not there takes the next free frame of RAM, if there is one. -/
theorem pgGetpage_of_free (host : Host) (c : Caller) {pgn f : ℕ} {rest : List ℕ}
    (habs : c.mm.present host pgn = false) (hfree : c.krnl.mram.freeFpList = f :: rest) :
    (pgGetpage host c pgn).1.isSome = true ∧
      (pgGetpage host c pgn).2.mm.fifoPgn = pgn :: c.mm.fifoPgn := by
  have hfst : pagingPagePresent (pteGetEntry host c.mm pgn).1 = false := by
    rw [pteGetEntry_fst]
    exact habs
  have hget : memphyGetFreefp c.krnl.mram = some (f, { c.krnl.mram with
      freeFpList := rest, usedFpList := f :: c.krnl.mram.usedFpList }) := by
    simp [memphyGetFreefp, hfree]
  simp only [pgGetpage, hfst, Bool.false_eq_true, if_false, getTargetFrame, Caller.setMm_krnl, hget]
  refine ⟨rfl, ?_⟩
  simp [installPage, enlistPgnNode, swapIn_mm]

/-! ## Allocating -/

section Alloc

variable (host : Host) (c : Caller) (rgid : ℕ) {size : ℕ}

theorem allocAtBrk_rest (mm : Mm) (rgid size brk alignedSize : ℕ) :
    (allocAtBrk mm rgid size brk alignedSize).entry = mm.entry ∧
    (allocAtBrk mm rgid size brk alignedSize).fifoPgn = mm.fifoPgn := by
  simp only [allocAtBrk, enlistVmFreergList]
  split_ifs <;> exact ⟨rfl, rfl⟩

@[simp]
theorem allocAtBrk_symrgtbl_self (mm : Mm) (rgid size brk alignedSize : ℕ) :
    (allocAtBrk mm rgid size brk alignedSize).symrgtbl rgid = ⟨brk, addrT (brk + size)⟩ := by
  simp only [allocAtBrk, enlistVmFreergList, Mm.setSymrg]
  split_ifs <;> exact Function.update_self ..

/-- A request that a free region fits is served from the free list. -/
theorem alloc_from_list (hid : rgid < pagingMaxSymtblSz) (hfit : (getFreeVmrgArea c.mm size).1 = 0) :
    alloc host c rgid size =
      (0, (getFreeVmrgArea c.mm size).2.1.rgStart,
        c.setMm ((getFreeVmrgArea c.mm size).2.2.setSymrg rgid (getFreeVmrgArea c.mm size).2.1)) := by
  rw [alloc, if_neg (Nat.not_le.2 hid)]
  generalize getFreeVmrgArea c.mm size = r at hfit
  obtain ⟨st, rg, mm⟩ := r
  simp only at hfit
  subst hfit
  rfl

/-- Any other request is served at the break, whatever the system call returned. -/
theorem alloc_at_brk (hid : rgid < pagingMaxSymtblSz) (hmiss : (getFreeVmrgArea c.mm size).1 ≠ 0) :
    let c₁ := c.setMm (getFreeVmrgArea c.mm size).2.2
    let c' := if c.proc.registered then (incVmaLimit host c₁ 0 (uint32 (paging64PageAlignsz size))).2
      else c₁
    alloc host c rgid size = (0, addrOfInt c.mm.mmap.sbrk,
      c'.setMm (allocAtBrk c'.mm rgid size (addrOfInt c.mm.mmap.sbrk) (paging64PageAlignsz size))) := by
  intro c₁ c'
  have hbrk : (getFreeVmrgArea c.mm size).2.2.mmap.sbrk = c.mm.mmap.sbrk := rfl
  rw [alloc, if_neg (Nat.not_le.2 hid)]
  rcases hr : getFreeVmrgArea c.mm size with ⟨st, rg, mm⟩
  rw [hr] at hmiss hbrk
  simp only at hmiss hbrk
  split
  · next heq =>
      cases heq
      exact absurd rfl hmiss
  · next heq =>
      cases heq
      simp only [syscall_inc, Caller.setMm_registered, hbrk, c', c₁, hr]
      rfl

/-- The system call passes on the request for a size below the range of an `int`. -/
theorem uint32_alignsz {size : ℕ} (h : size < 2 ^ 31) :
    uint32 (paging64PageAlignsz size) = paging64PageAlignsz size := by
  refine uint32_of_lt ?_
  rw [paging64PageAlignsz_eq (by omega)]
  omega

/-- The two ways `__alloc` serves a request: from the free list, or at the break. -/
theorem alloc_cases (hid : rgid < pagingMaxSymtblSz) (hsize : size < 2 ^ 31) :
    let r := freergFirstFit size c.mm.mmap.vmFreergList
    let mm := { c.mm with mmap := { c.mm.mmap with vmFreergList := r.2 } }
    let brk := addrOfInt c.mm.mmap.sbrk
    let alignedSize := paging64PageAlignsz size
    let c' := if c.proc.registered then (incVmaLimit host (c.setMm mm) 0 alignedSize).2
      else c.setMm mm
    if r.1.rgStart = noRg.rgStart then
      alloc host c rgid size = (0, brk, c'.setMm (allocAtBrk c'.mm rgid size brk alignedSize))
    else alloc host c rgid size = (0, r.1.rgStart, c.setMm (mm.setSymrg rgid r.1)) := by
  have hsearch : getFreeVmrgArea c.mm size =
      (if (freergFirstFit size c.mm.mmap.vmFreergList).1.rgStart = noRg.rgStart then -1 else 0,
        (freergFirstFit size c.mm.mmap.vmFreergList).1, { c.mm with mmap := { c.mm.mmap with
          vmFreergList := (freergFirstFit size c.mm.mmap.vmFreergList).2 } }) := by
    rw [getFreeVmrgArea, addrOfInt_of_lt hsize]
  by_cases hno : (freergFirstFit size c.mm.mmap.vmFreergList).1.rgStart = noRg.rgStart
  · have hbrk := @alloc_at_brk host c rgid size hid (by simp [hsearch, hno])
    simp only [hsearch, uint32_alignsz hsize] at hbrk
    simpa only [if_pos hno] using hbrk
  · have hlist := @alloc_from_list host c rgid size hid (by simp [hsearch, hno])
    simp only [hsearch] at hlist
    simpa only [if_neg hno] using hlist

variable (size) in
theorem alloc_same : SameButUser c (alloc host c rgid size).2.2 := by
  rw [alloc]
  split
  · exact .refl c
  · split
    · exact .setMm c _
    · exact ((SameButUser.setMm c _).trans (syscall_same host _ 17 _)).trans (.setMm _ _)

theorem free_same : SameButUser c (free c rgid).2 := by
  rw [free]
  split
  · exact .refl c
  · simp only
    split
    · exact .refl c
    · exact .setMm c _

/-- Setting a register touches nothing but the register, which is one of the process's. -/
theorem setReg_eq_some {c c' : Caller} {i v : ℕ} (h : c.setReg i v = some c') :
    i < numRegs ∧
    c' = { c with proc := { c.proc with regs := Function.update c.proc.regs i v } } := by
  rw [Caller.setReg] at h
  split at h
  · next hi => exact ⟨hi, (Option.some.inj h).symm⟩
  · exact absurd h (by simp)

/-- `liballoc` is `__alloc` with the address stored in a register. -/
theorem liballoc_eq_some {regIndex : ℕ} {st : ℤ} {c' : Caller}
    (h : liballoc host c size regIndex = some (st, c')) :
    ∃ regs, c' = { (alloc host c regIndex size).2.2 with
      proc := { (alloc host c regIndex size).2.2.proc with regs := regs } } := by
  rw [liballoc] at h
  generalize alloc host c regIndex size = r at h ⊢
  obtain ⟨val, addr, c''⟩ := r
  split at h
  · next heq =>
      cases heq
      obtain ⟨d, hd, hde⟩ := Option.map_eq_some_iff.1 h
      cases hde
      exact ⟨_, (setReg_eq_some hd).2⟩
  · next heq =>
      cases heq
      cases h
      exact ⟨_, rfl⟩

/-- `libfree` is `__free` with a register cleared. -/
theorem libfree_eq_some {regIndex : ℕ} {st : ℤ} {c' : Caller}
    (h : libfree c regIndex = some (st, c')) :
    ∃ regs, c' = { (free c regIndex).2 with proc := { (free c regIndex).2.proc with regs := regs } } := by
  rw [libfree] at h
  generalize free c regIndex = r at h ⊢
  obtain ⟨val, c''⟩ := r
  split at h
  · next heq =>
      cases heq
      obtain ⟨d, hd, hde⟩ := Option.map_eq_some_iff.1 h
      cases hde
      exact ⟨_, (setReg_eq_some hd).2⟩
  · next heq =>
      cases heq
      cases h
      exact ⟨_, rfl⟩

end Alloc

/-! ## Kernel memory -/

/-- Marking a page present that `pte_set_fpn` has just mapped. -/
theorem setPresent_entry {mm : Mm} {p : PageIx} {v : BitVec 64} {fpn : ℕ}
    (h : mm.entry p = pteFpnWord v fpn) : (mm.setPresent p).entry = mm.entry := by
  have hbit : BitField.setbit (mm.entry p) pagingPtePresentMask = mm.pgd.lookup 0 p := by
    rw [h, setbit_pteFpnWord, ← h]
    rfl
  change (mm.pgd.write p (BitField.setbit (mm.entry p) pagingPtePresentMask)).lookup 0 = _
  rw [hbit, Radix.Tree.lookup_write_lookup]
  rfl

/-- One iteration of `__kmalloc` that has a frame: the loop ends, for want of a table, or the page is
    mapped to the frame and the loop goes on. -/
theorem kmallocLoop_some {host : Host} {rgid n i f : ℕ} {krnl : Krnl} {mram : Memphy}
    (hget : memphyGetFreefp krnl.mram = some (f, mram)) :
    ∃ mm, mm.symrgtbl = krnl.mm.symrgtbl ∧ mm.kcpooltbl = krnl.mm.kcpooltbl ∧
      ((¬ ∀ k, host.calloc k = true) ∧
        kmallocLoop host rgid (n + 1) i krnl = (-1, { krnl with mram := mram, mm := mm }) ∨
      mm.entry = Function.update krnl.mm.entry (pageIx host (kmallocPgn rgid i))
          (pteFpnWord (krnl.mm.entry (pageIx host (kmallocPgn rgid i))) f) ∧
        kmallocLoop host rgid (n + 1) i krnl =
          kmallocLoop host rgid n (i + 1) { krnl with mram := mram, mm := mm }) := by
  have hsym := getPtePtr_symrgtbl host krnl.mm (kmallocPgn rgid i) true
  have hpool := getPtePtr_kcpooltbl host krnl.mm (kmallocPgn rgid i) true
  have hsame : (getPtePtr host krnl.mm (kmallocPgn rgid i) true).2.entry = krnl.mm.entry :=
    funext fun q => getPtePtr_entry ..
  have hptr := fun p => getPtePtr_some host krnl.mm (kmallocPgn rgid i) true (p := p)
  have halloc := getPtePtr_alloc host krnl.mm (kmallocPgn rgid i)
  rw [kmallocLoop, hget]
  simp only
  generalize getPtePtr host krnl.mm (kmallocPgn rgid i) true = r at *
  obtain ⟨ptr, mm₁⟩ := r
  -- the slot is found first, and the entry written through `pte_set_fpn` then
  cases ptr with
  | none => exact ⟨mm₁, hsym, hpool, Or.inl ⟨fun hc => (by cases halloc hc), rfl⟩⟩
  | some p =>
      obtain ⟨rfl, -⟩ := hptr p rfl
      have hset := fun hc => pteSetFpn_fst host mm₁ (kmallocPgn rgid i) hc f
      have hrest := pteUpdate_rest host mm₁ (kmallocPgn rgid i) (fun pte => pteFpnWord pte f)
      have hentry := pteUpdate_entry_of_ok host mm₁ (kmallocPgn rgid i)
        (fun pte => pteFpnWord pte f)
      rw [← pteSetFpn] at hrest hentry
      simp only at hsame hsym hpool ⊢
      generalize pteSetFpn host mm₁ (kmallocPgn rgid i) f = r at *
      obtain ⟨st, mm₂⟩ := r
      obtain ⟨-, hsym₂, -, hpool₂⟩ := hrest
      split
      · next heq =>
          cases heq
          have hmapped : mm₂.entry = _ := hentry rfl
          refine ⟨mm₂.setPresent (pageIx host (kmallocPgn rgid i)), hsym₂.trans hsym,
            hpool₂.trans hpool, Or.inr ⟨?_, rfl⟩⟩
          rw [setPresent_entry (by rw [hmapped, Function.update_self]), hmapped, hsame]
      · next hst heq =>
          cases heq
          exact ⟨mm₂, hsym₂.trans hsym, hpool₂.trans hpool, Or.inl ⟨fun hc => hst (hset hc), rfl⟩⟩

theorem libkmemMalloc_snd (host : Host) (c : Caller) (size regIndex : ℕ) :
    (libkmemMalloc host c size regIndex).2 = (kmalloc host c regIndex size).2 := by
  by_cases hsize : size = 0
  · simp [libkmemMalloc, kmalloc, hsize]
  · rw [libkmemMalloc, if_neg hsize]
    split <;> next heq => rw [heq]

end Ossim
