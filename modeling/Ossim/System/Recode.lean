import Ossim.Cpu

set_option autoImplicit false

/-! # An instruction does not look at the program

Of its process an instruction gets to see the address space and the registers. It does the same
whatever the code of the process is, and leaves the code alone (`execInst_recode`). -/

namespace Ossim

/-- A process with other code. -/
def Pcb.recode (proc : Pcb) (f : List Inst → List Inst) : Pcb := { proc with code := f proc.code }

def Caller.recode (c : Caller) (f : List Inst → List Inst) : Caller := { c with proc := c.proc.recode f }

section Fields

variable (c : Caller) (f : List Inst → List Inst)

@[simp] theorem Caller.recode_mm : (c.recode f).mm = c.mm := rfl
@[simp] theorem Caller.recode_krnl : (c.recode f).krnl = c.krnl := rfl
@[simp] theorem Caller.recode_registered : (c.recode f).proc.registered = c.proc.registered := rfl

theorem Caller.setMm_recode (mm : Mm) : (c.recode f).setMm mm = (c.setMm mm).recode f := rfl

theorem Caller.setMram_recode (mram : Memphy) :
    (c.recode f).setMram mram = (c.setMram mram).recode f := rfl

theorem Caller.setMswp_recode (mswp : Memphy) :
    (c.recode f).setMswp mswp = (c.setMswp mswp).recode f := rfl

end Fields

/-- What an operation returns, with other code for its caller. -/
def recoded {α : Type} (f : List Inst → List Inst) (r : α × Caller) : α × Caller := (r.1, r.2.recode f)

section Operations

variable (host : Host) (f : List Inst → List Inst) (c : Caller)

/-! ## Growing -/

theorem vmMapRam_recode (mapstart n : ℕ) :
    vmMapRam host (c.recode f) mapstart n = recoded f (vmMapRam host c mapstart n) := by
  unfold vmMapRam
  rw [Caller.recode_krnl]
  generalize allocPagesRange host c.krnl.mram n = r
  obtain ⟨st, frames, mram⟩ := r
  by_cases hst : st = 0
  · subst hst
    simp only [Nat.not_lt_zero, if_false]
    rfl
  · simp only
    rfl

theorem incVmaLimit_recode (vmaid : ℤ) (incSz : ℕ) :
    incVmaLimit host (c.recode f) vmaid incSz = recoded f (incVmaLimit host c vmaid incSz) := by
  unfold incVmaLimit
  rw [Caller.recode_mm]
  by_cases hsz : incSz = 0
  · rw [if_pos hsz, if_pos hsz]
    rfl
  · rw [if_neg hsz, if_neg hsz]
    cases getVmaByNum c.mm vmaid with
    | none => rfl
    | some curVma =>
        simp only [Caller.setMm_recode, vmMapRam_recode, recoded]
        split
        · rfl
        · simp only [Nat.not_lt_zero, if_false]

/-! ## The system call -/

theorem mmSwapPage_recode (vicfpn swpfpn : ℕ) :
    mmSwapPage host (c.recode f) vicfpn swpfpn = (mmSwapPage host c vicfpn swpfpn).recode f := by
  rw [mmSwapPage, mmSwapPage, Caller.recode_krnl, Caller.setMswp_recode]

theorem sysMemmap_recode (regs : ScRegs) :
    sysMemmap host (c.recode f) regs =
      ((sysMemmap host c regs).1, recoded f (sysMemmap host c regs).2) := by
  unfold sysMemmap
  rw [Caller.recode_registered, Caller.recode_mm, Caller.recode_krnl, incVmaLimit_recode,
    mmSwapPage_recode]
  split
  · rfl
  · -- one case for each memory operation
    dsimp only
    rw [Caller.setMm_recode, Caller.setMram_recode, Caller.setMram_recode]
    repeat' split
    all_goals rfl

theorem syscall_recode (nr : ℕ) (regs : ScRegs) :
    syscall host (c.recode f) nr regs =
      ((syscall host c nr regs).1, recoded f (syscall host c nr regs).2) := by
  unfold syscall
  split
  · exact sysMemmap_recode host f c regs
  · rfl

/-! ## Allocating and freeing -/

theorem alloc_recode (rgid size : ℕ) :
    alloc host (c.recode f) rgid size =
      ((alloc host c rgid size).1, recoded f (alloc host c rgid size).2) := by
  unfold alloc
  rw [Caller.recode_mm]
  split
  · rfl
  · generalize getFreeVmrgArea c.mm size = r
    obtain ⟨st, rgnode, mm⟩ := r
    by_cases hst : st = 0
    · subst hst
      rfl
    · simp only [Caller.setMm_recode, syscall_recode]
      rfl

theorem setReg_recode (regIndex v : ℕ) :
    (c.recode f).setReg regIndex v = (c.setReg regIndex v).map fun c => c.recode f := by
  unfold Caller.setReg
  split <;> rfl

theorem liballoc_recode (size regIndex : ℕ) :
    liballoc host (c.recode f) size regIndex = (liballoc host c size regIndex).map (recoded f) := by
  unfold liballoc
  rw [alloc_recode]
  generalize alloc host c regIndex size = r
  obtain ⟨st, addr, c'⟩ := r
  by_cases hst : st = 0
  · subst hst
    simp only [recoded, setReg_recode]
    cases c'.setReg regIndex addr <;> rfl
  · simp only
    rfl

theorem free_recode (rgid : ℕ) : free (c.recode f) rgid = recoded f (free c rgid) := by
  unfold free
  split
  · rfl
  · dsimp only
    rw [Caller.recode_mm]
    split <;> rfl

theorem libfree_recode (regIndex : ℕ) :
    libfree (c.recode f) regIndex = (libfree c regIndex).map (recoded f) := by
  unfold libfree
  rw [free_recode]
  generalize free c regIndex = r
  obtain ⟨st, c'⟩ := r
  by_cases hst : st = 0
  · subst hst
    simp only [recoded, setReg_recode]
    cases c'.setReg regIndex 0 <;> rfl
  · simp only [recoded]
    rfl

/-! ## Paging -/

theorem stealFrame_recode : stealFrame host (c.recode f) = recoded f (stealFrame host c) := by
  unfold stealFrame
  rw [Caller.recode_mm]
  cases findVictimPage c.mm with
  | none => rfl
  | some r =>
      obtain ⟨vicpgn, mm⟩ := r
      simp only [Caller.setMm_recode, Caller.recode_krnl]
      cases memphyGetFreefp (c.setMm (pteGetEntry host mm vicpgn).2).krnl.activeMswp with
      | none => rfl
      | some r =>
          obtain ⟨swpfpn, mswp⟩ := r
          simp only [Caller.setMswp_recode, syscall_recode]
          rfl

theorem getTargetFrame_recode : getTargetFrame host (c.recode f) = recoded f (getTargetFrame host c) := by
  unfold getTargetFrame
  rw [Caller.recode_krnl, stealFrame_recode]
  cases memphyGetFreefp c.krnl.mram with
  | none => simp only
  | some r => rfl

theorem swapIn_recode (pte : BitVec 32) (tgtfpn : ℕ) :
    swapIn host (c.recode f) pte tgtfpn = (swapIn host c pte tgtfpn).recode f := by
  by_cases h : pagingPageSwapped pte = true
  · rw [swapIn, swapIn, if_pos h, if_pos h, Caller.recode_krnl]
    dsimp only
    rw [Caller.setMram_recode, Caller.setMswp_recode]
  · rw [swapIn, swapIn, if_neg h, if_neg h]

theorem pgGetpage_recode (pgn : ℕ) :
    pgGetpage host (c.recode f) pgn = recoded f (pgGetpage host c pgn) := by
  unfold pgGetpage
  simp only [Caller.recode_mm, Caller.setMm_recode, getTargetFrame_recode]
  split
  · rfl
  · generalize getTargetFrame host (c.setMm (pteGetEntry host c.mm pgn).2) = r
    obtain ⟨tgtfpn, c'⟩ := r
    cases tgtfpn with
    | none => rfl
    | some tgtfpn =>
        simp only [recoded, swapIn_recode]
        rfl

/-! ## Accesses -/

theorem read_recode (rgid offset : ℕ) :
    read host (c.recode f) rgid offset = recoded f (read host c rgid offset) := by
  unfold read pgGetval
  rw [Caller.recode_mm]
  cases c.mm.resolve rgid offset with
  | none => rfl
  | some vaddr =>
      simp only [pgGetpage_recode]
      generalize pgGetpage host c (pgnOfIntAddr vaddr) = r
      obtain ⟨fpn, c'⟩ := r
      cases fpn with
      | none => rfl
      | some fpn =>
          simp only [recoded, syscall_recode]

theorem write_recode (rgid offset : ℕ) (value : Byte) :
    write host (c.recode f) rgid offset value = recoded f (write host c rgid offset value) := by
  unfold write pgSetval
  rw [Caller.recode_mm]
  cases c.mm.resolve rgid offset with
  | none => rfl
  | some vaddr =>
      simp only [pgGetpage_recode]
      generalize pgGetpage host c (pgnOfIntAddr vaddr) = r
      obtain ⟨fpn, c'⟩ := r
      cases fpn with
      | none => rfl
      | some fpn =>
          simp only [recoded, syscall_recode]

theorem writeUserMem_recode (rgid offset : ℕ) (value : Byte) :
    writeUserMem host (c.recode f) rgid offset value =
      recoded f (writeUserMem host c rgid offset value) := by
  unfold writeUserMem
  rw [Caller.recode_mm]
  cases c.mm.resolve rgid offset with
  | none => rfl
  | some vaddr =>
      simp only [pgGetpage_recode]
      generalize pgGetpage host c (addrOfInt (vaddr >>> 12)) = r
      obtain ⟨fpn, c'⟩ := r
      cases fpn <;> rfl

theorem readKernelMem_recode (rgid offset : ℕ) :
    readKernelMem host (c.recode f) rgid offset = recoded f (readKernelMem host c rgid offset) := by
  unfold readKernelMem
  rw [Caller.recode_krnl]
  cases c.krnl.mm.resolve rgid offset with
  | none => rfl
  | some vaddr =>
      simp only
      generalize kernelFrame host c.krnl vaddr = r
      obtain ⟨fpn, krnl⟩ := r
      cases fpn <;> rfl

theorem copyLoop_recode (source destination offset n i : ℕ) :
    copyLoop host source destination offset n i (c.recode f) =
      recoded f (copyLoop host source destination offset n i c) := by
  induction n generalizing c i with
  | zero => rfl
  | succ n ih =>
      rw [copyLoop, copyLoop, readKernelMem_recode]
      generalize readKernelMem host c source (uint32 (offset + i)) = r
      obtain ⟨byte, c₁⟩ := r
      cases byte with
      | none => rfl
      | some b =>
          simp only [recoded, writeUserMem_recode]
          generalize writeUserMem host c₁ destination (uint32 (offset + i)) b = r
          obtain ⟨st, c₂⟩ := r
          by_cases hst : st = 0
          · subst hst
            exact ih c₂ (i + 1)
          · simp only

theorem libkmemCopy_recode (source destination offset size : ℕ) :
    libkmemCopy host (c.recode f) source destination offset size =
      recoded f (libkmemCopy host c source destination offset size) := by
  unfold libkmemCopy
  split
  · rfl
  · exact copyLoop_recode host f c source destination offset size 0

/-! ## Kernel memory -/

theorem kmalloc_recode (rgid size : ℕ) :
    kmalloc host (c.recode f) rgid size = recoded f (kmalloc host c rgid size) := by
  unfold kmalloc
  split <;> rfl

theorem libkmemMalloc_recode (size regIndex : ℕ) :
    libkmemMalloc host (c.recode f) size regIndex = recoded f (libkmemMalloc host c size regIndex) := by
  unfold libkmemMalloc
  rw [kmalloc_recode]
  split
  · rfl
  · generalize kmalloc host c regIndex size = r
    obtain ⟨st, c'⟩ := r
    by_cases hst : st = 0
    · subst hst
      rfl
    · simp only [recoded]

theorem libkmemCachePoolCreate_recode (size align cachePoolId : ℕ) :
    libkmemCachePoolCreate host (c.recode f) size align cachePoolId =
      recoded f (libkmemCachePoolCreate host c size align cachePoolId) := by
  unfold libkmemCachePoolCreate
  have htable : ({ c.recode f with krnl := c.krnl.withKcpooltbl } : Caller) =
      ({ c with krnl := c.krnl.withKcpooltbl } : Caller).recode f := rfl
  simp only [Caller.recode_krnl, htable, kmalloc_recode]
  split
  · rfl
  · split
    · rfl
    · generalize kmalloc host { c with krnl := c.krnl.withKcpooltbl } cachePoolId size = r
      obtain ⟨st, c'⟩ := r
      by_cases hst : st = 0
      · subst hst
        rfl
      · simp only [recoded]

theorem libkmemCacheAlloc_recode (cachePoolId regIndex : ℕ) :
    libkmemCacheAlloc (c.recode f) cachePoolId regIndex =
      (libkmemCacheAlloc c cachePoolId regIndex).map (recoded f) := by
  unfold libkmemCacheAlloc kmemCacheAlloc
  rw [Caller.recode_krnl]
  split
  · rfl
  · cases c.krnl.mm.kcpooltbl with
    | none => rfl
    | some tbl =>
        dsimp only
        repeat' split
        all_goals rfl

/-! ## Instructions -/

theorem execInst_recode (ins : Inst) :
    execInst host (c.recode f) ins = (execInst host c ins).map (recoded f) := by
  unfold execInst
  cases ins.opcode with
  | «calc» => rfl
  | alloc => exact liballoc_recode host f c ins.arg0 _
  | free => exact libfree_recode f c _
  | read =>
      simp only [libread, read_recode]
      rfl
  | write => exact congrArg some (write_recode host f c _ _ _)
  | kmalloc => exact congrArg some (libkmemMalloc_recode host f c _ _)
  | kmemCacheCreate => exact congrArg some (libkmemCachePoolCreate_recode host f c _ _ _)
  | kmemCacheAlloc => exact libkmemCacheAlloc_recode f c _ _
  | copyFromUser => exact congrArg some (libkmemCopy_recode host f c _ _ _ _)
  | copyToUser => exact congrArg some (libkmemCopy_recode host f c _ _ _ _)
  | syscall =>
      simp only [libsyscall, syscall_recode]
      rfl

end Operations

end Ossim
