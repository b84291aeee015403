import Ossim.Memphy
import Ossim.Mm

set_option autoImplicit false

/-! # Processes and the kernel (`common.h`)

The structures behind a `struct pcb_t *caller`. The operations of the memory modules receive such a
pointer and reach through it the process, its address space, the devices and the kernel's own address
space: a `Caller` is all of that. -/

namespace Ossim

/-- `enum ins_opcode_t` -/
inductive InsOpcode where
  | calc
  | alloc
  | free
  | read
  | write
  | kmalloc
  | kmemCacheCreate
  | kmemCacheAlloc
  | copyFromUser
  | copyToUser
  | syscall
  deriving DecidableEq

/-- `struct inst_t` -/
structure Inst where
  opcode : InsOpcode
  arg0 : ℕ
  arg1 : ℕ
  arg2 : ℕ
  arg3 : ℕ
  deriving DecidableEq

/-- `struct pcb_t` -/
structure Pcb where
  code : List Inst
  /-- the `numRegs` registers -/
  regs : ℕ → ℕ
  pc : ℕ
  prio : ℕ
  mm : Mm
  /-- Whether `proc_table[pid]` of the kernel is this process. The loader registers every process,
      and the table has `PID_MAX` entries. -/
  registered : Bool

/-- `struct krnl_t`, the part the memory modules use. -/
structure Krnl where
  mram : Memphy
  activeMswp : Memphy
  mm : Mm

/-- What `struct pcb_t *caller` gives access to. -/
structure Caller where
  proc : Pcb
  krnl : Krnl

namespace Caller

/-- `caller->mm` -/
def mm (c : Caller) : Mm := c.proc.mm

def setMm (c : Caller) (mm : Mm) : Caller := { c with proc := { c.proc with mm := mm } }

def setMram (c : Caller) (mram : Memphy) : Caller := { c with krnl := { c.krnl with mram := mram } }

def setMswp (c : Caller) (mswp : Memphy) : Caller :=
  { c with krnl := { c.krnl with activeMswp := mswp } }

section Fields

variable (c : Caller) (mm : Mm) (mp : Memphy)

@[simp] theorem setMm_mm : (c.setMm mm).mm = mm := rfl
@[simp] theorem setMm_krnl : (c.setMm mm).krnl = c.krnl := rfl
@[simp] theorem setMm_registered : (c.setMm mm).proc.registered = c.proc.registered := rfl
@[simp] theorem setMram_proc : (c.setMram mp).proc = c.proc := rfl
@[simp] theorem setMram_mm : (c.setMram mp).mm = c.mm := rfl
@[simp] theorem setMram_mram : (c.setMram mp).krnl.mram = mp := rfl
@[simp] theorem setMram_activeMswp : (c.setMram mp).krnl.activeMswp = c.krnl.activeMswp := rfl
@[simp] theorem setMram_krnl_mm : (c.setMram mp).krnl.mm = c.krnl.mm := rfl
@[simp] theorem setMswp_proc : (c.setMswp mp).proc = c.proc := rfl
@[simp] theorem setMswp_mm : (c.setMswp mp).mm = c.mm := rfl
@[simp] theorem setMswp_mram : (c.setMswp mp).krnl.mram = c.krnl.mram := rfl
@[simp] theorem setMswp_activeMswp : (c.setMswp mp).krnl.activeMswp = mp := rfl
@[simp] theorem setMswp_krnl_mm : (c.setMswp mp).krnl.mm = c.krnl.mm := rfl

end Fields

end Caller

end Ossim
