import Ossim.Libmem

set_option autoImplicit false

/-! # Executing instructions (`cpu.c`)

One call of `run` executes one instruction of a process. A `System` is the kernel with all its
processes; `System.run` is `run` on one of them. -/

namespace Ossim

/-- The `switch` of `run`. The operands of an instruction are 64-bit and are narrowed to the parameter
    types of the library. `libread` stores its value in a copy of the instruction, so it is lost. -/
def execInst (host : Host) (c : Caller) (ins : Inst) : Option (ℤ × Caller) :=
  match ins.opcode with
  | .calc => some (0, c)
  | .alloc => liballoc host c ins.arg0 (uint32 ins.arg1)
  | .kmalloc => some (libkmemMalloc host c (uint32 ins.arg0) (uint32 ins.arg1))
  | .kmemCacheCreate =>
    some (libkmemCachePoolCreate host c (uint32 ins.arg0) (uint32 ins.arg1) (uint32 ins.arg2))
  | .kmemCacheAlloc => libkmemCacheAlloc c (uint32 ins.arg0) (uint32 ins.arg1)
  | .copyFromUser =>
    some (libkmemCopyFromUser host c (uint32 ins.arg0) (uint32 ins.arg1) (uint32 ins.arg2)
      (uint32 ins.arg3))
  | .copyToUser =>
    some (libkmemCopyToUser host c (uint32 ins.arg0) (uint32 ins.arg1) (uint32 ins.arg2)
      (uint32 ins.arg3))
  | .free => libfree c (uint32 ins.arg0)
  | .read =>
    let r := libread host c (uint32 ins.arg0) ins.arg1
    some (r.1, r.2.2)
  | .write => some (libwrite host c (byteOfAddr ins.arg0) (uint32 ins.arg1) ins.arg2)
  | .syscall => some (libsyscall host c (uint32 ins.arg0) ins.arg1 ins.arg2 ins.arg3)

/-- `proc->pc++` -/
def Caller.incPc (c : Caller) : Caller := { c with proc := { c.proc with pc := c.proc.pc + 1 } }

/-- `run` -/
def run (host : Host) (c : Caller) : Option (ℤ × Caller) :=
  match c.proc.code[c.proc.pc]? with
  | none => some (1, c)
  | some ins => execInst host c.incPc ins

/-- The kernel and the processes, by number. -/
structure System where
  krnl : Krnl
  procs : ℕ → Option Pcb

namespace System

/-- The process with number `pid`, as a caller. -/
def caller (s : System) (pid : ℕ) : Option Caller := (s.procs pid).map fun proc => ⟨proc, s.krnl⟩

/-- The system after process `pid` was the caller `c`. -/
def put (s : System) (pid : ℕ) (c : Caller) : System :=
  ⟨c.krnl, Function.update s.procs pid (some c.proc)⟩

/-- `run` on process `pid`. -/
def run (host : Host) (s : System) (pid : ℕ) : Option (ℤ × System) := do
  let c ← s.caller pid
  let r ← Ossim.run host c
  return (r.1, s.put pid r.2)

end System

end Ossim
