import Mathlib.Order.Basic
import Ossim.Caller
import Ossim.Lib.Locks

set_option autoImplicit false

/-! # The locks of the memory operations

The skeleton of every function below the memory instructions that takes a lock or calls one that does,
statement by statement: its early returns, its loops and its calls. The other functions
(`pte_get_entry`, `pte_set_fpn`, `pte_set_swap`, `find_victim_page`, the region lists, ..) take none. -/

namespace Ossim

open Locks

/-- The mutexes, in the order they are nested in. -/
inductive Lock where
  | mmvm
  | vm
  | mm64
  | memphy
  deriving DecidableEq

namespace Lock

def rank : Lock → ℕ
  | mmvm => 0
  | vm => 1
  | mm64 => 2
  | memphy => 3

theorem rank_injective : Function.Injective rank := by
  intro l l' h
  cases l <;> cases l' <;> first | rfl | exact absurd h (by decide)

instance : LinearOrder Lock := LinearOrder.lift' rank rank_injective

theorem lt_iff {l l' : Lock} : l < l' ↔ l.rank < l'.rank := Iff.rfl

theorem rank_lt (l : Lock) : l.rank < 4 := by
  cases l <;> decide

/-- There is no endless chain of ever higher locks. -/
instance : WellFoundedGT Lock where
  wf := by
    refine Subrelation.wf ?_ (InvImage.wf (fun l : Lock => 4 - l.rank) Nat.lt_wfRel.wf)
    intro l l' h
    change 4 - l.rank < 4 - l'.rank
    have hlt := lt_iff.1 h
    have hbound := rank_lt l
    omega

end Lock

namespace Locking

open Stmt

/-! ## Devices (`mm-memphy.c`) -/

/-- `MEMPHY_seq_read`; `MEMPHY_seq_write` has the same locks. -/
def memphySeqRead : Stmt Lock := call (block [opt ret, opt ret, lock .memphy, unlock .memphy])

/-- `MEMPHY_read`; `MEMPHY_write` has the same locks. -/
def memphyRead : Stmt Lock :=
  call (block [opt ret, choice (block [lock .memphy, unlock .memphy]) (block [memphySeqRead, ret])])

def memphyWrite : Stmt Lock := memphyRead

/-- `MEMPHY_get_freefp`: an empty list is noticed before the lock is taken. -/
def memphyGetFreefp : Stmt Lock := call (block [opt ret, lock .memphy, unlock .memphy])

/-- `MEMPHY_put_freefp` -/
def memphyPutFreefp : Stmt Lock :=
  call (block [opt ret, lock .memphy, opt (block [unlock .memphy, ret]), unlock .memphy])

/-- `__swap_cp_page` -/
def swapCpPage : Stmt Lock := call (loop (block [memphyRead, memphyWrite]))

/-- `__mm_swap_page` -/
def mmSwapPage : Stmt Lock := call swapCpPage

/-! ## Page tables and mapping (`mm64.c`) -/

/-- `enlist_pgn_node` -/
def enlistPgnNode : Stmt Lock := call (block [lock .mm64, unlock .mm64])

/-- `vmap_pgd_memset` -/
def vmapPgdMemset : Stmt Lock :=
  call (block [opt ret, lock .mm64, loop (opt (block [unlock .mm64, ret])), unlock .mm64])

/-- `vmap_page_range` -/
def vmapPageRange : Stmt Lock :=
  call (block [opt ret, loop (block [opt brk, opt brk, opt enlistPgnNode]), lock .mm64, unlock .mm64])

/-- `alloc_pages_range` -/
def allocPagesRange : Stmt Lock :=
  call (block [opt ret, lock .mm64,
    loop (block [memphyGetFreefp, choice (opt (block [memphyPutFreefp, brk])) brk]),
    opt (block [loop memphyPutFreefp, unlock .mm64, ret]),
    unlock .mm64])

/-- `vm_map_ram` -/
def vmMapRam : Stmt Lock :=
  call (block [opt ret, allocPagesRange, opt ret, opt ret, vmapPageRange, lock .mm64,
    loop (opt memphyPutFreefp), unlock .mm64])

/-! ## Areas and the system call (`mm-vm.c`, `sys_mem.c`, `syscall.c`) -/

/-- `inc_vma_limit` -/
def incVmaLimit : Stmt Lock :=
  call (block [opt ret, opt ret, lock .vm,
    opt (block [unlock .vm, ret]),
    opt (block [unlock .vm, ret]),
    opt (block [unlock .vm, ret]),
    vmMapRam,
    opt (block [unlock .vm, ret]),
    unlock .vm])

/-- `__sys_memmap` -/
def sysMemmap : Stmt Lock :=
  call (block [opt ret, choice vmapPgdMemset (choice incVmaLimit (choice mmSwapPage
    (choice memphyRead (choice memphyWrite skip))))])

/-- `_syscall` -/
def syscall : Stmt Lock := call (choice sysMemmap skip)

/-! ## The library (`libmem.c`) -/

/-- `__alloc` -/
def alloc : Stmt Lock :=
  call (block [opt ret, lock .mmvm, opt (block [unlock .mmvm, ret]), syscall, unlock .mmvm])

/-- `__free` -/
def free : Stmt Lock :=
  call (block [opt ret, lock .mmvm, opt (block [unlock .mmvm, ret]), opt (block [unlock .mmvm, ret]),
    opt (block [unlock .mmvm, ret]), unlock .mmvm])

/-- `liballoc` -/
def liballoc : Stmt Lock := call (block [alloc, opt ret])

/-- `libfree` -/
def libfree : Stmt Lock := call (block [free, opt ret])

/-- `pg_getpage` -/
def pgGetpage : Stmt Lock :=
  call (opt (block [memphyGetFreefp, opt (block [opt ret, memphyGetFreefp, opt ret, syscall]),
    opt (block [swapCpPage, memphyPutFreefp]), enlistPgnNode]))

/-- `pg_getval`; `pg_setval` has the same locks. -/
def pgGetval : Stmt Lock := call (block [pgGetpage, opt ret, syscall])

def pgSetval : Stmt Lock := pgGetval

/-- `__read`: it takes no lock of its own. -/
def read : Stmt Lock := call (block [opt ret, opt ret, opt ret, opt ret, pgGetval])

/-- `__write` -/
def write : Stmt Lock :=
  call (block [opt ret, lock .mmvm, opt (block [unlock .mmvm, ret]), opt (block [unlock .mmvm, ret]),
    opt (block [unlock .mmvm, ret]), pgSetval, unlock .mmvm])

/-- `libread` -/
def libread : Stmt Lock := call read

/-- `libwrite` -/
def libwrite : Stmt Lock := call (block [write, opt ret])

/-- `__kmalloc` -/
def kmalloc : Stmt Lock :=
  call (block [opt ret, loop (block [memphyGetFreefp, opt ret, choice (opt ret) ret])])

/-- `libkmem_malloc` -/
def libkmemMalloc : Stmt Lock := call (block [opt ret, opt ret, kmalloc, opt ret])

/-- `libkmem_cache_pool_create` -/
def libkmemCachePoolCreate : Stmt Lock :=
  call (block [opt ret, opt ret, opt (opt ret), opt ret, kmalloc, opt ret])

/-- `libkmem_cache_alloc` and its helper take no lock. -/
def libkmemCacheAlloc : Stmt Lock := call (block [opt ret, opt ret])

/-- `__read_kernel_mem` -/
def readKernelMem : Stmt Lock :=
  call (block [opt ret, opt ret, opt ret, opt ret, opt ret, opt ret, opt ret, memphyRead, opt ret])

/-- `__write_user_mem` -/
def writeUserMem : Stmt Lock :=
  call (block [opt ret, opt ret, opt ret, opt ret, opt ret, opt ret, pgGetpage, opt ret, memphyWrite,
    opt ret])

/-- `libkmem_copy_from_user` and `libkmem_copy_to_user` -/
def libkmemCopy : Stmt Lock :=
  call (block [opt ret, loop (block [readKernelMem, opt ret, writeUserMem, opt ret])])

/-- `libsyscall` -/
def libsyscall : Stmt Lock := call syscall

end Locking

/-- The operation of an instruction. -/
def InsOpcode.locking : InsOpcode → Stmt Lock
  | .calc => .skip
  | .alloc => Locking.liballoc
  | .free => Locking.libfree
  | .read => Locking.libread
  | .write => Locking.libwrite
  | .kmalloc => Locking.libkmemMalloc
  | .kmemCacheCreate => Locking.libkmemCachePoolCreate
  | .kmemCacheAlloc => Locking.libkmemCacheAlloc
  | .copyFromUser => Locking.libkmemCopy
  | .copyToUser => Locking.libkmemCopy
  | .syscall => Locking.libsyscall

/-- All operations pass the check. -/
theorem InsOpcode.locking_check (op : InsOpcode) :
    op.locking.check [] = some ⟨some [], none, none⟩ := by
  cases op <;> decide +kernel

end Ossim
