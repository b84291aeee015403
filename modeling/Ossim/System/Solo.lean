import Ossim.Cpu.Bounds
import Ossim.Lib.Components
import Ossim.Libmem.Delivered
import Ossim.System.Isolation

set_option autoImplicit false

/-! # A process on its own

What a program can see of the system it runs in is little: its registers, its regions, and the bytes
it wrote. `Solo` is a process with registers and regions and no memory management, and a `Flat` memory
has a byte at every address the program wrote. Every process of a system is such a machine
(`flat_memory`): the page tables, the frames, the swap device and the other processes do not show. -/

namespace Ossim

open Pager Components

/-! ## The machine -/

/-- The regions of an address space, without its pages. -/
@[ext]
structure Heap where
  symrgtbl : ℕ → VmRg
  freergList : List VmRg
  sbrk : ℕ
  vmEnd : ℕ

namespace Heap

/-- Put a region that is not empty in front of the free regions. -/
def enlist (h : Heap) (rg : VmRg) : Heap :=
  if rg.rgEnd ≤ rg.rgStart then h else { h with freergList := rg :: h.freergList }

def setRegion (h : Heap) (rgid : ℕ) (rg : VmRg) : Heap :=
  { h with symrgtbl := Function.update h.symrgtbl rgid rg }

/-- Raise the break by `size`, and the end of the area by as many whole pages. -/
def grow (h : Heap) (size : ℕ) : Heap :=
  { h with sbrk := h.sbrk + size, vmEnd := h.vmEnd + paging64PageAlignsz size }

/-- The lower end of the first free region that is large enough, else whole pages at the break, of which
    what is left over is free. -/
def alloc (h : Heap) (rgid size : ℕ) : ℕ × Heap :=
  let r := freergFirstFit size h.freergList
  let h := { h with freergList := r.2 }
  if r.1.rgStart = noRg.rgStart then
    let whole := paging64PageAlignsz size
    (h.sbrk, ((h.grow whole).setRegion rgid ⟨h.sbrk, h.sbrk + size⟩).enlist
      ⟨h.sbrk + size, h.sbrk + whole⟩)
  else (r.1.rgStart, h.setRegion rgid r.1)

def free (h : Heap) (rgid : ℕ) : Heap := (h.setRegion rgid ⟨0, 0⟩).enlist (h.symrgtbl rgid)

/-- The address of a byte of a region. -/
def resolve (h : Heap) (rgid offset : ℕ) : Option ℕ :=
  if pagingMaxSymtblSz ≤ rgid then none else (h.symrgtbl rgid).resolve offset

/-- Growing the area by a request, which is refused for another area than the first, or if it comes to
    no page. -/
def request (h : Heap) (vmaid : ℤ) (incSz : ℕ) : Heap :=
  if vmaid ≤ 0 ∧ paging64PageAlignsz incSz ≠ 0 then h.grow (addrT incSz) else h

/-- The only system call that shows. The request is cut to 32 bits. -/
def syscall (h : Heap) (nr memop vmaid incSz : ℕ) : Heap :=
  if nr = 17 ∧ cInt memop = sysmemIncOp then h.request (cInt vmaid) (uint32 incSz) else h

/-- The growth an instruction asks for stays below the range of an `int`. -/
structure Fits (h : Heap) (ins : Inst) : Prop where
  alloc : ins.opcode = .alloc → h.vmEnd + paging64PageAlignsz ins.arg0 < 2 ^ 31
  inc : ins.opcode = .syscall → uint32 ins.arg0 = 17 → cInt ins.arg1 = sysmemIncOp →
    h.vmEnd + paging64PageAlignsz (uint32 ins.arg3) < 2 ^ 31

end Heap

/-- The regions of an address space. -/
def Mm.heap (mm : Mm) : Heap := ⟨mm.symrgtbl, mm.mmap.vmFreergList, mm.mmap.sbrk, mm.mmap.vmEnd⟩

/-- A process without memory management. -/
@[ext]
structure Solo where
  code : List Inst
  regs : ℕ → ℕ
  pc : ℕ
  heap : Heap

namespace Solo

def setReg (m : Solo) (regIndex v : ℕ) : Solo :=
  { m with regs := Function.update m.regs regIndex v }

/-- Allocating and freeing set a register, and nothing else shows. -/
def exec (m : Solo) (ins : Inst) : Solo :=
  match ins.opcode with
  | .alloc =>
    let rgid := uint32 ins.arg1
    if pagingMaxSymtblSz ≤ rgid then m
    else
      let r := m.heap.alloc rgid ins.arg0
      { m with heap := r.2 }.setReg rgid r.1
  | .free =>
    let rgid := uint32 ins.arg0
    if pagingMaxSymtblSz ≤ rgid ∨ (m.heap.symrgtbl rgid).isNull then m
    else { m with heap := m.heap.free rgid }.setReg rgid 0
  | .syscall =>
    { m with heap := m.heap.syscall (uint32 ins.arg0) ins.arg1 ins.arg2 ins.arg3 }
  | _ => m

def fetch (m : Solo) : Option Inst := m.code[m.pc]?

/-- One instruction; past the end of the code nothing happens. -/
def step (m : Solo) : Solo :=
  match m.fetch with
  | none => m
  | some ins => { m with pc := m.pc + 1 }.exec ins

/-- The bytes the program knows, by address, after an instruction that returned `st`. A copy from the
    kernel brings bytes it does not know. -/
def store (m : Solo) (st : ℤ) (mem : ℕ → Option Byte) (ins : Inst) : ℕ → Option Byte :=
  match ins.opcode with
  | .write =>
    match m.heap.resolve (uint32 ins.arg1) ins.arg2 with
    | none => mem
    | some a => if st = 0 then Function.update mem a (some (byteOfAddr ins.arg0)) else mem
  | .copyFromUser | .copyToUser => fun a =>
    if ∃ k < uint32 ins.arg3, m.heap.resolve (uint32 ins.arg1) (uint32 (uint32 ins.arg2 + k)) = some a
    then none else mem a
  | _ => mem

end Solo

/-- The process of a system, without its memory management. -/
def Pcb.solo (proc : Pcb) : Solo := ⟨proc.code, proc.regs, proc.pc, proc.mm.heap⟩

/-- A process on its own, with the bytes it knows. -/
structure Flat where
  solo : Solo
  mem : ℕ → Option Byte

/-- One instruction, of which the system reports the status. -/
def Flat.step (m : Flat) (st : ℤ) : Flat where
  solo := m.solo.step
  mem := match m.solo.fetch with
    | none => m.mem
    | some ins => m.solo.store st m.mem ins

/-! ## The regions -/

theorem allocAtBrk_heap (mm : Mm) {rgid size brk whole : ℕ} (hlt : brk + whole < 2 ^ 64)
    (hle : size ≤ whole) :
    (allocAtBrk mm rgid size brk whole).heap =
      (mm.heap.setRegion rgid ⟨brk, brk + size⟩).enlist ⟨brk + size, brk + whole⟩ := by
  have h1 : addrT (brk + size) = brk + size := addrT_of_lt (by omega)
  have h2 : addrT (brk + whole) = brk + whole := addrT_of_lt hlt
  simp only [allocAtBrk, Heap.enlist, enlistVmFreergList, h1, h2]
  by_cases hrest : size < whole
  · rw [if_pos hrest, if_neg (by omega), if_neg (by omega)]
    rfl
  · rw [if_neg hrest, if_pos (by omega)]
    rfl

theorem free_heap (mm : Mm) (rgid : ℕ) :
    (enlistVmFreergList (mm.setSymrg rgid ⟨0, 0⟩) (mm.symrgtbl rgid)).2.heap = mm.heap.free rgid := by
  simp only [enlistVmFreergList, Heap.free, Heap.enlist]
  split
  · next hempty => rw [if_pos (by exact hempty)]; rfl
  · next hempty => rw [if_neg (by exact hempty)]; rfl

theorem paging64PageAlignsz_addrT (n : ℕ) : paging64PageAlignsz (addrT n) = paging64PageAlignsz n := by
  simp only [paging64PageAlignsz, addrT, paging64Pagesz]
  omega

section Heaps

variable {host : Host} {c c' : Caller}

/-- Growing the area raises the limits, whether or not there are frames for it. -/
theorem incVmaLimit_heap (hbrk : c.mm.mmap.sbrk ≤ c.mm.mmap.vmEnd) {vmaid : ℤ} {incSz : ℕ}
    (hlt : c.mm.mmap.vmEnd + paging64PageAlignsz incSz < 2 ^ 31) :
    (incVmaLimit host c vmaid incSz).2.mm.heap = c.mm.heap.request vmaid incSz := by
  have hend : addrT (c.mm.mmap.vmEnd + paging64PageAlignsz incSz) =
      c.mm.mmap.vmEnd + paging64PageAlignsz incSz := addrT_of_lt (by omega)
  rw [Heap.request]
  -- nothing is asked for, the request is granted, or it is refused
  by_cases hzero : incSz = 0
  · have halign : paging64PageAlignsz incSz = 0 := by rw [hzero]; rfl
    rw [incVmaLimit, if_pos hzero, if_neg fun h => h.2 halign]
  · split
    · next hok =>
        have hpos := Nat.pos_of_ne_zero hok.2
        rw [incVmaLimit_grows host c hok.1 hzero (by omega), hend]
        have hle : addrT incSz ≤ _ := (paging64PageAlignsz_facts incSz).2.2 hok.2
        have hsb : addrT (c.mm.mmap.sbrk + incSz) = c.mm.mmap.sbrk + addrT incSz := by
          simp only [addrT] at hle ⊢
          omega
        obtain ⟨-, -, hmmap, hsym⟩ := vmMapRam_same host
          (c.setMm (c.mm.setArea (c.mm.mmap.vmEnd + paging64PageAlignsz incSz)
            (addrT (c.mm.mmap.sbrk + incSz))))
          c.mm.mmap.vmEnd (cInt (paging64PageAlignsz incSz / paging64Pagesz)).toNat
        simp only [Mm.heap, hmmap, hsym, Heap.grow, paging64PageAlignsz_addrT]
        simp only [Caller.setMm_mm, Mm.setArea, hsb]
    · next hno =>
        rw [not_and_or, not_le, not_not] at hno
        have href : 0 < vmaid ∨
            addrT (c.mm.mmap.vmEnd + paging64PageAlignsz incSz) ≤ c.mm.mmap.vmEnd := by
          rw [hend]
          omega
        rw [incVmaLimit_refused host c hzero href]

/-- `__alloc` is the allocation of the heap, with or without frames. -/
theorem alloc_heap (hreg : c.proc.registered = true) (hbrk : c.mm.mmap.sbrk ≤ c.mm.mmap.vmEnd)
    {rgid size : ℕ} (hid : rgid < pagingMaxSymtblSz) (hsize : size < 2 ^ 31)
    (hlt : c.mm.mmap.vmEnd + paging64PageAlignsz size < 2 ^ 31) :
    (alloc host c rgid size).2.1 = (c.mm.heap.alloc rgid size).1 ∧
    (alloc host c rgid size).2.2.mm.heap = (c.mm.heap.alloc rgid size).2 := by
  have hcases := alloc_cases host c rgid hid hsize
  have halign := @paging64PageAlignsz_eq size (by omega)
  simp only [hreg, if_true] at hcases
  rw [Heap.alloc]
  simp only
  split at hcases
  · next hno =>
      rw [if_pos (by exact hno), hcases, addrOfInt_of_lt (by omega)]
      refine ⟨rfl, ?_⟩
      simp only [Caller.setMm_mm]
      generalize hc₁ : c.setMm _ = c₁
      have hmmap : c₁.mm.mmap.sbrk = c.mm.mmap.sbrk ∧ c₁.mm.mmap.vmEnd = c.mm.mmap.vmEnd := by
        rw [← hc₁]
        exact ⟨rfl, rfl⟩
      obtain ⟨harea, hsym⟩ := incVmaLimit_limits host c₁ (by omega) (by omega) hsize
      rw [allocAtBrk_heap _ (by omega) (by omega), Mm.heap, harea, hsym, ← hc₁]
      simp only [Mm.heap, Heap.grow, Caller.setMm_mm]
      rw [paging64PageAlignsz_self]
  · next hyes =>
      rw [if_neg (by exact hyes), hcases]
      exact ⟨rfl, rfl⟩

end Heaps

/-! ## One instruction -/

theorem SameButPages.solo {c c' : Caller} (h : SameButPages c c') : c'.proc.solo = c.proc.solo := by
  have hheap : c'.mm.heap = c.mm.heap := by
    rw [Mm.heap, h.mmap, h.symrgtbl]
    rfl
  change (⟨c'.proc.code, c'.proc.regs, c'.proc.pc, c'.mm.heap⟩ : Solo) = _
  rw [hheap, h.proc]
  rfl

/-- The registers and regions after an operation on the heap. -/
theorem SameButUser.solo {c c' : Caller} (h : SameButUser c c') :
    c'.proc.solo = { c.proc.solo with heap := c'.mm.heap } := by
  change (⟨c'.proc.code, c'.proc.regs, c'.proc.pc, c'.mm.heap⟩ : Solo) = _
  rw [h.proc]
  rfl

theorem Caller.setReg_eq_some {c c' : Caller} {regIndex v : ℕ} (h : c.setReg regIndex v = some c') :
    c'.proc.solo = c.proc.solo.setReg regIndex v := by
  rw [Caller.setReg] at h
  split at h
  · obtain rfl := Option.some.inj h
    rfl
  · exact absurd h (by simp)

section Instruction

variable {host : Host} {c c' : Caller}

theorem liballoc_solo (hreg : c.proc.registered = true) (hbrk : c.mm.mmap.sbrk ≤ c.mm.mmap.vmEnd)
    {size regIndex : ℕ} (hsize : size < 2 ^ 31)
    (hlt : c.mm.mmap.vmEnd + paging64PageAlignsz size < 2 ^ 31) {st : ℤ}
    (h : liballoc host c size regIndex = some (st, c')) :
    c'.proc.solo =
      if pagingMaxSymtblSz ≤ regIndex then c.proc.solo
      else { c.proc.solo with heap := (c.mm.heap.alloc regIndex size).2 }.setReg regIndex
        (c.mm.heap.alloc regIndex size).1 := by
  have hst := alloc_status host c regIndex size
  have hsolo := (alloc_same host c regIndex size).solo
  rw [liballoc] at h
  by_cases hid : pagingMaxSymtblSz ≤ regIndex
  · have hrefused : alloc host c regIndex size = (-1, 0, c) := by rw [alloc, if_pos hid]
    rw [hrefused] at h
    rw [if_pos hid]
    obtain rfl : c = c' := congrArg Prod.snd (Option.some.inj h)
    rfl
  · obtain ⟨haddr, hheap⟩ := alloc_heap hreg hbrk (Nat.lt_of_not_le hid) hsize hlt
    rw [if_neg hid] at hst ⊢
    generalize alloc host c regIndex size = r at *
    obtain ⟨st', addr, c₁⟩ := r
    obtain rfl : st' = 0 := hst
    obtain ⟨c₂, hset, heq⟩ := Option.map_eq_some_iff.1 h
    obtain rfl : c₂ = c' := congrArg Prod.snd heq
    rw [Caller.setReg_eq_some hset, ← hheap, ← haddr, hsolo]

theorem libfree_solo {regIndex : ℕ} {st : ℤ} (h : libfree c regIndex = some (st, c')) :
    c'.proc.solo =
      if pagingMaxSymtblSz ≤ regIndex ∨ (c.mm.symrgtbl regIndex).isNull then c.proc.solo
      else { c.proc.solo with heap := c.mm.heap.free regIndex }.setReg regIndex 0 := by
  rw [libfree] at h
  split
  · next hno =>
      have hrefused : free c regIndex = (-1, c) := by
        rw [free]
        split
        · rfl
        · next hid => exact if_pos (hno.resolve_left hid)
      rw [hrefused] at h
      obtain rfl : c = c' := congrArg Prod.snd (Option.some.inj h)
      rfl
  · next hyes =>
      rw [not_or] at hyes
      have hfreed : free c regIndex = (0, c.setMm
          (enlistVmFreergList (c.mm.setSymrg regIndex ⟨0, 0⟩) (c.mm.symrgtbl regIndex)).2) := by
        rw [free, if_neg hyes.1]
        exact if_neg hyes.2
      rw [hfreed] at h
      obtain ⟨c₂, hset, heq⟩ := Option.map_eq_some_iff.1 h
      obtain rfl : c₂ = c' := congrArg Prod.snd heq
      rw [Caller.setReg_eq_some hset, ← free_heap]
      rfl

theorem libsyscall_solo (hreg : c.proc.registered = true) (hbrk : c.mm.mmap.sbrk ≤ c.mm.mmap.vmEnd)
    {nr a1 a2 a3 : ℕ} (hop : nr = 17 → cInt a1 ∉ rawMemops)
    (hlt : nr = 17 → cInt a1 = sysmemIncOp → c.mm.mmap.vmEnd + paging64PageAlignsz (uint32 a3) < 2 ^ 31) :
    (libsyscall host c nr a1 a2 a3).2.proc.solo =
      { c.proc.solo with heap := c.mm.heap.syscall nr a1 a2 a3 } := by
  have hheap : (syscall host c nr ⟨a1, a2, a3⟩).2.2.mm.heap = c.mm.heap.syscall nr a1 a2 a3 := by
    rw [Heap.syscall, syscall]
    by_cases hnr : nr = 17
    · have hraw := hop hnr
      simp only [rawMemops, List.mem_cons, List.not_mem_nil, or_false, not_or] at hraw
      rw [if_pos hnr]
      simp only [sysMemmap, hreg, Bool.not_true, Bool.false_eq_true, if_false, if_neg hraw.1,
        if_neg hraw.2.1, if_neg hraw.2.2]
      by_cases hinc : cInt a1 = sysmemIncOp
      · rw [if_pos hinc, if_pos ⟨hnr, hinc⟩]
        exact incVmaLimit_heap hbrk (hlt hnr hinc)
      · rw [if_neg hinc, if_neg (not_and_of_not_right _ hinc)]
        split <;> rfl
    · rw [if_neg hnr, if_neg (not_and_of_not_left _ hnr)]
  rw [libsyscall, (syscall_same host c nr _).solo, hheap]

/-- **Instructions.** Registers and regions after a tame instruction are those of the machine without
    memory management. -/
theorem execInst_solo (hreg : c.proc.registered = true) (hbrk : c.mm.mmap.sbrk ≤ c.mm.mmap.vmEnd)
    {ins : Inst} (htame : ins.Tame) (hfits : c.mm.heap.Fits ins) {st : ℤ}
    (h : execInst host c ins = some (st, c')) : c'.proc.solo = c.proc.solo.exec ins := by
  have hproc : ∀ {r : ℤ × Caller}, some r = some (st, c') → r.2.proc = c.proc →
      c'.proc.solo = c.proc.solo := by
    intro r heq hsame
    obtain rfl := Option.some.inj heq
    rw [hsame]
  have hpages : ∀ {r : ℤ × Caller}, some r = some (st, c') → SameButPages c r.2 →
      c'.proc.solo = c.proc.solo := by
    intro r heq hsame
    obtain rfl := Option.some.inj heq
    exact hsame.solo
  unfold execInst at h
  unfold Solo.exec
  cases hop : ins.opcode with
  | alloc =>
      rw [hop] at h
      exact liballoc_solo hreg hbrk (htame.alloc_size hop) (hfits.alloc hop) h
  | free =>
      rw [hop] at h
      exact libfree_solo h
  | syscall =>
      rw [hop] at h
      obtain rfl : _ = c' := congrArg Prod.snd (Option.some.inj h)
      exact libsyscall_solo hreg hbrk (htame.memop hop) (hfits.inc hop)
  | kmalloc => rw [hop] at h; exact hproc h (libkmemMalloc_proc ..)
  | kmemCacheCreate => rw [hop] at h; exact hproc h (libkmemCachePoolCreate_proc ..)
  | kmemCacheAlloc =>
      rw [hop] at h
      exact congrArg Pcb.solo (libkmemCacheAlloc_proc c h)
  | copyFromUser | copyToUser => rw [hop] at h; exact hpages h (libkmemCopy_same ..)
  | read => rw [hop] at h; exact hpages h (read_same ..)
  | write => rw [hop] at h; exact hpages h (write_same ..)
  | _ => rw [hop] at h; exact hproc h rfl

end Instruction

/-! ## The program counter -/

namespace Solo

theorem exec_pc (m : Solo) (ins : Inst) : (m.exec ins).pc = m.pc := by
  unfold exec
  split
  · simp only
    split <;> rfl
  · simp only
    split <;> rfl
  · rfl
  · rfl

theorem exec_code (m : Solo) (ins : Inst) : (m.exec ins).code = m.code := by
  unfold exec
  split
  · simp only
    split <;> rfl
  · simp only
    split <;> rfl
  · rfl
  · rfl

theorem step_code (m : Solo) : m.step.code = m.code := by
  unfold step
  split
  · rfl
  · exact exec_code ..

theorem step_of_fetch_none {m : Solo} (h : m.fetch = none) : m.step = m := by
  rw [step, h]

theorem step_pc {m : Solo} {ins : Inst} (h : m.fetch = some ins) : m.step.pc = m.pc + 1 := by
  rw [step, h]
  exact exec_pc ..

/-- The program counter counts the instructions. -/
theorem step_counts (m : Solo) : m.step = m ∨ m.step.pc = m.pc + 1 := by
  cases h : m.fetch with
  | none => exact Or.inl (step_of_fetch_none h)
  | some ins => exact Or.inr (step_pc h)

end Solo

namespace Flat

theorem step_counts (m : Flat) (st : ℤ) : m.step st = m ∨ (m.step st).solo.pc = m.solo.pc + 1 := by
  cases h : m.solo.fetch with
  | none =>
      left
      simp only [step, h, Solo.step_of_fetch_none h]
  | some ins => exact Or.inr (Solo.step_pc h)

/-- No WRITE into a region failed along the statuses: its page always found a frame. -/
def Served (m : Flat) : List ℤ → Prop
  | [] => True
  | st :: l =>
    (∀ ins a, m.solo.fetch = some ins → ins.opcode = .write →
      m.solo.heap.resolve (uint32 ins.arg1) ins.arg2 = some a → st = 0) ∧ (m.step st).Served l

theorem served_append {m : Flat} {l l' : List ℤ} :
    m.Served (l ++ l') ↔ m.Served l ∧ (l.foldl step m).Served l' := by
  induction l generalizing m with
  | nil => exact (and_iff_right trivial).symm
  | cons st l ih => simp only [List.cons_append, Served, ih, List.foldl_cons, and_assoc]

/-- Only the status of such a WRITE shows. -/
theorem step_eq_of_served {m : Flat} {st : ℤ}
    (h : ∀ ins a, m.solo.fetch = some ins → ins.opcode = .write →
      m.solo.heap.resolve (uint32 ins.arg1) ins.arg2 = some a → st = 0) : m.step st = m.step 0 := by
  unfold step
  cases hfetch : m.solo.fetch with
  | none => rfl
  | some ins =>
      simp only [Flat.mk.injEq, true_and]
      unfold Solo.store
      split
      · next hop =>
          split
          · rfl
          · next a hres => rw [h ins a hfetch hop hres]
      · rfl
      · rfl
      · rfl

theorem foldl_eq_of_served {m : Flat} {l : List ℤ} (h : m.Served l) :
    l.foldl step m = (fun m => m.step 0)^[l.length] m := by
  induction l generalizing m with
  | nil => rfl
  | cons st l ih =>
      obtain ⟨hst, hl⟩ := h
      rw [step_eq_of_served hst] at hl
      rw [List.foldl_cons, step_eq_of_served hst, List.length_cons, Function.iterate_succ_apply]
      exact ih hl

end Flat

end Ossim
