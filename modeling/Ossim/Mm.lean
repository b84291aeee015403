import Ossim.Basic

set_option autoImplicit false

/-! # Address spaces (`os-mm.h`, `init_mm` in `mm64.c`)

The data of a `struct mm_struct`. Every process has one, and the kernel has one of its own. -/

namespace Ossim

/-- `struct vm_rg_struct`: the half-open range of addresses of a variable or of a free region. -/
structure VmRg where
  rgStart : ℕ
  rgEnd : ℕ
  deriving DecidableEq

/-- `struct vm_area_struct`. `init_mm` creates the area with `vm_id` 0 and nothing ever links a
    second one, so an address space has a single area. -/
structure VmArea where
  vmStart : ℕ
  vmEnd : ℕ
  sbrk : ℕ
  vmFreergList : List VmRg

/-- `struct kcache_pool_struct`; `storage` is an `addr_t`. -/
@[ext]
structure KcachePool where
  size : ℤ
  align : ℤ
  storage : ℕ
  storage_lt : storage < 2 ^ 64

/-- The `pgtbl_*` counters of `struct mm_struct`. They are `uint64_t`s, and the first three would wrap
    after `2 ^ 64` counts; here they go on. The two counters of tables never come that far. -/
structure PgtblStats where
  walks : ℕ
  levelReads : ℕ
  levelWrites : ℕ
  tablesAllocated : ℕ
  storageBytes : ℕ

/-- The five-level page table: four levels of directories above the tables of entries. A zero
    directory slot is an absent table. -/
abbrev PageDir := Radix.Tree (Fin 512) (BitVec 64) 4

/-- `struct mm_struct` -/
structure Mm where
  pgd : PageDir
  stats : PgtblStats
  mmap : VmArea
  /-- the symbol table, `PAGING_MAX_SYMTBL_SZ` regions -/
  symrgtbl : ℕ → VmRg
  /-- the resident pages, the most recent first -/
  fifoPgn : List ℕ
  /-- the cache pools, created by the first `KMEM_CACHE_CREATE` -/
  kcpooltbl : Option (ℕ → KcachePool)

/-- `PGTBL_TABLE_BYTES` -/
def pgtblTableBytes : ℕ := paging64DirEntries * 8

/-- `init_mm`, its allocations granted. -/
def initMm : Mm where
  pgd := Radix.Tree.empty 0 4
  stats := ⟨0, 0, 0, 1, pgtblTableBytes⟩
  mmap := { vmStart := 0, vmEnd := 0, sbrk := 0, vmFreergList := [⟨0, 0⟩] }
  symrgtbl := fun _ => ⟨0, 0⟩
  fifoPgn := []
  kcpooltbl := none

end Ossim
