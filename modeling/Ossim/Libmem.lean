import Ossim.Vm

set_option autoImplicit false

/-! # The memory library and its system call (`libmem.c`, `sys_mem.c`, `syscall.c`)

User memory (`liballoc`, `libfree`, `libread`, `libwrite`, `__read_user_mem`, `__write_user_mem`),
kernel memory (`libkmem_*`), demand paging (`pg_getpage`) and the memory system call they go through.
Every function runs to its end under the locks of the source, so each is one step. A function that
can run into undefined behaviour returns an `Option`, `none` for that. -/

namespace Ossim

open BitField

/-! ## The memory system call -/

/-- `struct sc_regs`, the registers that are used. -/
structure ScRegs where
  a1 : ℕ
  a2 : ℕ
  a3 : ℕ

def sysmemMapOp : ℤ := 1
def sysmemIncOp : ℤ := 2
def sysmemSwpOp : ℤ := 3
def sysmemIoRead : ℤ := 4
def sysmemIoWrite : ℤ := 5

/-- `__mm_swap_page`: copy a frame of RAM to a frame of the swap device. -/
def mmSwapPage (host : Host) (c : Caller) (vicfpn swpfpn : ℕ) : Caller :=
  c.setMswp (swapCpPage host c.krnl.mram vicfpn c.krnl.activeMswp swpfpn)

/-- `__sys_memmap`, with the registers it leaves. The process found under the caller's number is the
    caller, if it is registered. `sys_mem.c` includes `os-mm.h` before `MM64` is defined, so there an
    `addr_t` has 32 bits, and an argument that is passed on as one is cut. -/
def sysMemmap (host : Host) (c : Caller) (regs : ScRegs) : ℤ × ScRegs × Caller :=
  if !c.proc.registered then (-1, regs, c)
  else
    let memop := cInt regs.a1
    if memop = sysmemMapOp then
      (0, regs, c.setMm (vmapPgdMemset host c.mm (uint32 regs.a2) (cInt regs.a3)).2)
    else if memop = sysmemIncOp then
      (0, regs, (incVmaLimit host c (cInt regs.a2) (uint32 regs.a3)).2)
    else if memop = sysmemSwpOp then
      (0, regs, mmSwapPage host c (uint32 regs.a2) (uint32 regs.a3))
    else if memop = sysmemIoRead then
      let r := memphyRead c.krnl.mram (uint32 regs.a2)
      (0, { regs with a3 := addrOfByte (r.1.getD host.data) }, c.setMram r.2)
    else if memop = sysmemIoWrite then
      (0, regs, c.setMram (memphyWrite c.krnl.mram (uint32 regs.a2) (byteOfAddr regs.a3)).2)
    else (0, regs, c)

/-- `_syscall` over the table `syscall.tbl`: 0 lists the table, 17 is `sys_memmap`, and the others are
    not implemented. -/
def syscall (host : Host) (c : Caller) (nr : ℕ) (regs : ScRegs) : ℤ × ScRegs × Caller :=
  if nr = 17 then sysMemmap host c regs else (0, regs, c)

/-- `libsyscall` (`libstd.c`) -/
def libsyscall (host : Host) (c : Caller) (syscallIdx a1 a2 a3 : ℕ) : ℤ × Caller :=
  let r := syscall host c syscallIdx ⟨a1, a2, a3⟩
  (r.1, r.2.2)

/-! ## Allocating and freeing -/

/-- `symrgtbl[rgid] = rg` -/
def Mm.setSymrg (mm : Mm) (rgid : ℕ) (rg : VmRg) : Mm :=
  { mm with symrgtbl := Function.update mm.symrgtbl rgid rg }

/-- The part of `__alloc` behind the system call: record the region at the old break, and enlist what
    the page rounding left over. -/
def allocAtBrk (mm : Mm) (rgid size oldSbrk alignedSize : ℕ) : Mm :=
  let mm := mm.setSymrg rgid ⟨oldSbrk, addrT (oldSbrk + size)⟩
  if size < alignedSize then
    (enlistVmFreergList mm ⟨addrT (oldSbrk + size), addrT (oldSbrk + alignedSize)⟩).2
  else mm

/-- `__alloc`, with the address in `*alloc_addr`. A negative `rgid` is a large one here. -/
def alloc (host : Host) (c : Caller) (rgid size : ℕ) : ℤ × ℕ × Caller :=
  if pagingMaxSymtblSz ≤ rgid then (-1, 0, c)
  else
    match getFreeVmrgArea c.mm size with
    | (0, rgnode, mm) => (0, rgnode.rgStart, c.setMm (mm.setSymrg rgid rgnode))
    | (_, _, mm) =>
      let c := c.setMm mm
      let oldSbrk := addrOfInt mm.mmap.sbrk
      let alignedSize := paging64PageAlignsz size
      let c := (syscall host c 17 ⟨2, 0, alignedSize⟩).2.2
      (0, oldSbrk, c.setMm (allocAtBrk c.mm rgid size oldSbrk alignedSize))

/-- `rg_start == 0 && rg_end == 0`, the mark of a region that is not allocated. -/
def VmRg.isNull (rg : VmRg) : Bool := rg.rgStart == 0 && rg.rgEnd == 0

/-- `__free`, the `malloc` of `freerg_node` granted. -/
def free (c : Caller) (rgid : ℕ) : ℤ × Caller :=
  if pagingMaxSymtblSz ≤ rgid then (-1, c)
  else
    let rgnode := c.mm.symrgtbl rgid
    if rgnode.isNull then (-1, c)
    else (0, c.setMm (enlistVmFreergList (c.mm.setSymrg rgid ⟨0, 0⟩) rgnode).2)

/-- `proc->regs[reg_index] = v`, undefined beyond the registers. -/
def Caller.setReg (c : Caller) (regIndex v : ℕ) : Option Caller :=
  if regIndex < numRegs then
    some { c with proc := { c.proc with regs := Function.update c.proc.regs regIndex v } }
  else none

/-- `liballoc` -/
def liballoc (host : Host) (c : Caller) (size regIndex : ℕ) : Option (ℤ × Caller) :=
  match alloc host c regIndex size with
  | (0, addr, c) => (c.setReg regIndex addr).map ((0, ·))
  | (_, _, c) => some (-1, c)

/-- `libfree` -/
def libfree (c : Caller) (regIndex : ℕ) : Option (ℤ × Caller) :=
  match free c regIndex with
  | (0, c) => (c.setReg regIndex 0).map ((0, ·))
  | (_, c) => some (-1, c)

/-! ## Demand paging -/

/-- `find_victim_page`: the oldest resident page leaves the list. -/
def findVictimPage (mm : Mm) : Option (ℕ × Mm) :=
  match mm.fifoPgn.getLast? with
  | none => none
  | some pgn => some (pgn, { mm with fifoPgn := mm.fifoPgn.dropLast })

/-- `pg_getpage` without a free frame of RAM: a victim is copied out and its frame taken. Without a
    frame of swap the victim stays, no longer on the list. -/
def stealFrame (host : Host) (c : Caller) : Option ℕ × Caller :=
  match findVictimPage c.mm with
  | none => (none, c)
  | some (vicpgn, mm) =>
    let r := pteGetEntry host mm vicpgn
    let vicfpn := pagingFpn r.1
    let c := c.setMm r.2
    match memphyGetFreefp c.krnl.activeMswp with
    | none => (none, c)
    | some (swpfpn, mswp) =>
      let c := (syscall host (c.setMswp mswp) 17 ⟨3, vicfpn, swpfpn⟩).2.2
      (some vicfpn, c.setMm (pteSetSwap host c.mm vicpgn 0 swpfpn).2)

/-- The frame `pg_getpage` puts its page in. -/
def getTargetFrame (host : Host) (c : Caller) : Option ℕ × Caller :=
  match memphyGetFreefp c.krnl.mram with
  | some (tgtfpn, mram) => (some tgtfpn, c.setMram mram)
  | none => stealFrame host c

/-- The page-in of `pg_getpage`: a swapped page is copied to its frame and its frame of swap
    released. -/
def swapIn (host : Host) (c : Caller) (pte : BitVec 32) (tgtfpn : ℕ) : Caller :=
  if pagingPageSwapped pte then
    let savedSwpfpn := pagingSwp pte
    let activeMswp := c.krnl.activeMswp
    let c := c.setMram (swapCpPage host activeMswp savedSwpfpn c.krnl.mram tgtfpn)
    c.setMswp (memphyPutFreefp activeMswp savedSwpfpn).2
  else c

/-- Make `pgn` the newest resident page, in frame `tgtfpn`. -/
def installPage (host : Host) (c : Caller) (pgn tgtfpn : ℕ) : Caller :=
  c.setMm (enlistPgnNode (pteSetFpn host c.mm pgn tgtfpn).2 pgn)

/-- `pg_getpage`: the frame of a page, which is made resident if it is not. -/
def pgGetpage (host : Host) (c : Caller) (pgn : ℕ) : Option ℕ × Caller :=
  let r := pteGetEntry host c.mm pgn
  let c := c.setMm r.2
  let resident := fun (c : Caller) =>
    let r := pteGetEntry host c.mm pgn
    (some (pagingFpn r.1), c.setMm r.2)
  if pagingPagePresent r.1 then resident c
  else match getTargetFrame host c with
    | (none, c) => (none, c)
    | (some tgtfpn, c) => resident (installPage host (swapIn host c r.1 tgtfpn) pgn tgtfpn)

/-! ## Reading and writing user memory -/

/-- The address of a byte of a region, `none` if the region is not allocated or ends before it. -/
def VmRg.resolve (currg : VmRg) (offset : ℕ) : Option ℕ :=
  if currg.isNull then none
  else if currg.rgEnd ≤ addrT (currg.rgStart + offset) then none
  else some (addrT (currg.rgStart + offset))

/-- The address `offset` of region `rgid` stands for. -/
def Mm.resolve (mm : Mm) (rgid offset : ℕ) : Option ℕ :=
  if pagingMaxSymtblSz ≤ rgid then none else (mm.symrgtbl rgid).resolve offset

/-- `addr >> PAGING64_ADDR_PT_SHIFT` of an `int` address, as an `addr_t`. -/
def pgnOfIntAddr (addr : ℕ) : ℕ := (((BitVec.ofNat 32 addr).sshiftRight 12).signExtend 64).toNat

/-- `pg_getval`. The byte read by the system call stays in the register block: `*data` is not
    written. -/
def pgGetval (host : Host) (c : Caller) (addr : ℕ) : ℤ × Caller :=
  match pgGetpage host c (pgnOfIntAddr addr) with
  | (none, c) => (-1, c)
  | (some fpn, c) => (0, (syscall host c 17 ⟨4, phyaddr fpn (addr % 4096), 0⟩).2.2)

/-- `pg_setval` -/
def pgSetval (host : Host) (c : Caller) (addr : ℕ) (value : Byte) : ℤ × Caller :=
  match pgGetpage host c (pgnOfIntAddr addr) with
  | (none, c) => (-1, c)
  | (some fpn, c) =>
    (0, (syscall host c 17 ⟨5, phyaddr fpn (addr % 4096), addrOfByte value⟩).2.2)

/-- `__read` -/
def read (host : Host) (c : Caller) (rgid offset : ℕ) : ℤ × Caller :=
  match c.mm.resolve rgid offset with
  | none => (-1, c)
  | some vaddr => pgGetval host c vaddr

/-- `libread`, with the value in `*destination`: the byte it declared and passed down. -/
def libread (host : Host) (c : Caller) (source offset : ℕ) : ℤ × ℕ × Caller :=
  let r := read host c source offset
  (r.1, uint32 (addrOfByte host.data), r.2)

/-- `__write` -/
def write (host : Host) (c : Caller) (rgid offset : ℕ) (value : Byte) : ℤ × Caller :=
  match c.mm.resolve rgid offset with
  | none => (-1, c)
  | some vaddr => pgSetval host c vaddr value

/-- `libwrite` -/
def libwrite (host : Host) (c : Caller) (data : Byte) (destination offset : ℕ) : ℤ × Caller :=
  write host c destination offset data

/-- `__read_user_mem`, with the byte in `*data`. -/
def readUserMem (host : Host) (c : Caller) (rgid offset : ℕ) : Option Byte × Caller :=
  match c.mm.resolve rgid offset with
  | none => (none, c)
  | some vaddr =>
    match pgGetpage host c (addrOfInt (vaddr >>> 12)) with
    | (none, c) => (none, c)
    | (some fpn, c) =>
      let r := memphyRead c.krnl.mram (phyaddr fpn (vaddr % 4096))
      (r.1, c.setMram r.2)

/-- `__write_user_mem` -/
def writeUserMem (host : Host) (c : Caller) (rgid offset : ℕ) (value : Byte) : ℤ × Caller :=
  match c.mm.resolve rgid offset with
  | none => (-1, c)
  | some vaddr =>
    match pgGetpage host c (addrOfInt (vaddr >>> 12)) with
    | (none, c) => (-1, c)
    | (some fpn, c) =>
      let r := memphyWrite c.krnl.mram (phyaddr fpn (vaddr % 4096)) value
      (if r.1 ≠ 0 then -1 else 0, c.setMram r.2)

/-! ## Kernel memory -/

/-- `*pte = *pte | PAGING_PTE_PRESENT_MASK` -/
def Mm.setPresent (mm : Mm) (p : PageIx) : Mm :=
  { mm with pgd := mm.pgd.write p (setbit (mm.entry p) pagingPtePresentMask) }

/-- `(addr_t)rgid * PAGING64_PAGESZ * 1000`, where the kernel region of a number starts. -/
def kmallocVaddr (rgid : ℕ) : ℕ := addrT (addrOfInt rgid * paging64Pagesz * 1000)

/-- The page `__kmalloc` maps in iteration `i`. -/
def kmallocPgn (rgid i : ℕ) : ℕ :=
  addrT (kmallocVaddr rgid + addrOfInt (i * paging64Pagesz)) >>> 12

/-- The loop of `__kmalloc`, from page `i` on. A failure keeps what has been mapped. -/
def kmallocLoop (host : Host) (rgid : ℕ) : (n i : ℕ) → Krnl → ℤ × Krnl
  | 0, _, krnl => (0, krnl)
  | n + 1, i, krnl =>
    match memphyGetFreefp krnl.mram with
    | none => (-1, krnl)
    | some (fpn, mram) =>
      match getPtePtr host krnl.mm (kmallocPgn rgid i) true with
      | (none, mm) => (-1, { krnl with mram := mram, mm := mm })
      | (some pte, mm) =>
        match pteSetFpn host mm (kmallocPgn rgid i) fpn with
        | (0, mm) => kmallocLoop host rgid n (i + 1) { krnl with mram := mram, mm := mm.setPresent pte }
        | (_, mm) => (-1, { krnl with mram := mram, mm := mm })

/-- `int num_pages = (size + PAGING64_PAGESZ - 1) / PAGING64_PAGESZ`, the bound of a loop that counts up
    from 0. -/
def kmallocNumPages (size : ℕ) : ℕ :=
  (cInt (addrT (size + paging64Pagesz - 1) / paging64Pagesz)).toNat

theorem kmallocNumPages_of_lt {size : ℕ} (h : size < 2 ^ 32) :
    kmallocNumPages size = (size + 4095) / 4096 := by
  have hwrap : addrT (size + 4096 - 1) = size + 4095 := addrT_of_lt (by omega)
  rw [kmallocNumPages, paging64Pagesz, hwrap, cInt_of_lt (by omega), Int.toNat_natCast]

/-- `__kmalloc` -/
def kmalloc (host : Host) (c : Caller) (rgid size : ℕ) : ℤ × Caller :=
  if size = 0 then (-1, c)
  else
    let r := kmallocLoop host rgid (kmallocNumPages size) 0 c.krnl
    (r.1, { c with krnl := r.2 })

/-- `libkmem_malloc` -/
def libkmemMalloc (host : Host) (c : Caller) (size regIndex : ℕ) : ℤ × Caller :=
  if size = 0 then (-1, c)
  else
    match kmalloc host c regIndex size with
    | (0, c) => (0, c)
    | (_, c) => (-1, c)

/-- A pool descriptor as `calloc` leaves it. -/
def zeroPool : KcachePool := { size := 0, align := 0, storage := 0, storage_lt := by decide }

/-- `mm->kcpooltbl` of the kernel, created if it is not there. -/
def Krnl.withKcpooltbl (krnl : Krnl) : Krnl :=
  { krnl with mm := { krnl.mm with
    kcpooltbl := some (krnl.mm.kcpooltbl.getD fun _ => zeroPool) } }

/-- `kcpooltbl[id] = pool` -/
def Mm.setPool (mm : Mm) (id : ℕ) (pool : KcachePool) : Mm :=
  { mm with kcpooltbl := mm.kcpooltbl.map fun tbl => Function.update tbl id pool }

/-- `libkmem_cache_pool_create`, the `calloc` of `kcpooltbl` granted. -/
def libkmemCachePoolCreate (host : Host) (c : Caller) (size align cachePoolId : ℕ) : ℤ × Caller :=
  if size = 0 ∨ align = 0 ∨ size < align then (-1, c)
  else
    let c := { c with krnl := c.krnl.withKcpooltbl }
    if pagingMaxKcachePools ≤ cachePoolId then (-1, c)
    else
      match kmalloc host c cachePoolId size with
      | (0, c) =>
        let pool := {
          size := cInt size
          align := cInt align
          storage := kmallocVaddr cachePoolId
          storage_lt := Nat.mod_lt _ (by decide) }
        (0, { c with krnl := { c.krnl with mm := c.krnl.mm.setPool cachePoolId pool } })
      | (_, c) => (-1, c)

/-- `(addr_t)` of an `int` sum: `pool->storage + pool->align`. -/
def addrAddInt (addr : ℕ) (n : ℤ) : ℕ := ((addr + n) % 2 ^ 64).toNat

theorem addrAddInt_lt (addr : ℕ) (n : ℤ) : addrAddInt addr n < 2 ^ 64 := by
  unfold addrAddInt
  omega

/-- `pool->storage += n; pool->size -= n` -/
def KcachePool.bump (pool : KcachePool) (n : ℤ) : KcachePool :=
  { pool with
    storage := addrAddInt pool.storage n
    size := pool.size - n
    storage_lt := addrAddInt_lt .. }

/-- `__kmem_cache_alloc`. Without a pool table the pool it looks at is not there: undefined. -/
def kmemCacheAlloc (c : Caller) (rgid cachePoolId : ℕ) : Option (ℤ × Caller) :=
  if pagingMaxKcachePools ≤ cachePoolId then some (-1, c)
  else
    match c.krnl.mm.kcpooltbl with
    | none => none
    | some tbl =>
      let pool := tbl cachePoolId
      if pool.align = 0 ∨ pool.size < pool.align then some (-1, c)
      else
        let slotAddr := pool.storage
        let pool := pool.bump pool.align
        if rgid < pagingMaxSymtblSz then
          let mm := (c.krnl.mm.setPool cachePoolId pool).setSymrg rgid
            ⟨slotAddr, addrAddInt slotAddr pool.align⟩
          some (0, { c with krnl := { c.krnl with mm := mm } })
        else
          -- the slot is taken back
          let mm := c.krnl.mm.setPool cachePoolId (pool.bump (-pool.align))
          some (-1, { c with krnl := { c.krnl with mm := mm } })

/-- `libkmem_cache_alloc`: 0 is what its helper returns on success, and is reported as a failure. -/
def libkmemCacheAlloc (c : Caller) (cachePoolId regIndex : ℕ) : Option (ℤ × Caller) :=
  (kmemCacheAlloc c regIndex cachePoolId).map fun r => (if r.1 = -1 ∨ r.1 = 0 then -1 else 0, r.2)

/-- The page of a kernel address, if it is mapped: the frame it is in. -/
def kernelFrame (host : Host) (krnl : Krnl) (vaddr : ℕ) : Option ℕ × Krnl :=
  let r := pteGetEntry host krnl.mm (vaddr >>> 12)
  (if pagingPagePresent r.1 then some (pagingFpn r.1) else none, { krnl with mm := r.2 })

/-- `__read_kernel_mem`, with the byte in `*data`. -/
def readKernelMem (host : Host) (c : Caller) (rgid offset : ℕ) : Option Byte × Caller :=
  match c.krnl.mm.resolve rgid offset with
  | none => (none, c)
  | some vaddr =>
    match kernelFrame host c.krnl vaddr with
    | (none, krnl) => (none, { c with krnl := krnl })
    | (some fpn, krnl) =>
      let r := memphyRead krnl.mram (phyaddr fpn (vaddr % 4096))
      (r.1, { c with krnl := { krnl with mram := r.2 } })

/-- `__write_kernel_mem` -/
def writeKernelMem (host : Host) (c : Caller) (rgid offset : ℕ) (value : Byte) : ℤ × Caller :=
  match c.krnl.mm.resolve rgid offset with
  | none => (-1, c)
  | some vaddr =>
    match kernelFrame host c.krnl vaddr with
    | (none, krnl) => (-1, { c with krnl := krnl })
    | (some fpn, krnl) =>
      let r := memphyWrite krnl.mram (phyaddr fpn (vaddr % 4096)) value
      (if r.1 ≠ 0 then -1 else 0, { c with krnl := { krnl with mram := r.2 } })

/-- The loop of the copies, `n` bytes left, the next one being number `i`. -/
def copyLoop (host : Host) (source destination offset : ℕ) : (n i : ℕ) → Caller → ℤ × Caller
  | 0, _, c => (0, c)
  | n + 1, i, c =>
    match readKernelMem host c source (uint32 (offset + i)) with
    | (none, c) => (-1, c)
    | (some tempData, c) =>
      match writeUserMem host c destination (uint32 (offset + i)) tempData with
      | (0, c) => copyLoop host source destination offset n (i + 1) c
      | (_, c) => (-1, c)

/-- The body the two copies share: kernel region `source` to user region `destination`. -/
def libkmemCopy (host : Host) (c : Caller) (source destination offset size : ℕ) : ℤ × Caller :=
  if size = 0 then (-1, c) else copyLoop host source destination offset size 0 c

/-- `libkmem_copy_to_user` -/
def libkmemCopyToUser (host : Host) (c : Caller) (source destination offset size : ℕ) : ℤ × Caller :=
  libkmemCopy host c source destination offset size

/-- `libkmem_copy_from_user`: the same body, down to the direction of the copy. -/
def libkmemCopyFromUser (host : Host) (c : Caller) (source destination offset size : ℕ) :
    ℤ × Caller :=
  libkmemCopy host c source destination offset size

/-! ## Releasing a process -/

/-- What the host has in the words from `mm->pgd` on: in a slot that is not zero the address of its
    table, and behind the slots whatever lies there. -/
structure PgdWords where
  table : Fin 512 → BitVec 64
  beyond : ℕ → BitVec 64

/-- `mm->pgd[pagenum]` -/
def Mm.pgdWord (mm : Mm) (words : PgdWords) (pagenum : ℕ) : BitVec 64 :=
  if h : pagenum < 512 then
    if (mm.pgd.child ⟨pagenum, h⟩).isSome then words.table ⟨pagenum, h⟩ else 0
  else words.beyond pagenum

/-- The body of the loop of `free_pcb_memph`. The status of `MEMPHY_put_freefp` is not looked at. -/
def freePgdWord (krnl : Krnl) (word : BitVec 64) : Krnl :=
  let pte := word.setWidth 32
  if pagingPagePresent pte then
    { krnl with mram := (memphyPutFreefp krnl.mram (pagingFpn pte)).2 }
  else { krnl with activeMswp := (memphyPutFreefp krnl.activeMswp (pagingSwp pte)).2 }

/-- The loop of `free_pcb_memph`, `n` words left, with the indices of the words it reads. -/
def freePcbLoop (words : PgdWords) (mm : Mm) : (n pagenum : ℕ) → Krnl → List ℕ × Krnl
  | 0, _, krnl => ([], krnl)
  | n + 1, pagenum, krnl =>
    let r := freePcbLoop words mm n (pagenum + 1) (freePgdWord krnl (mm.pgdWord words pagenum))
    (pagenum :: r.1, r.2)

/-- `free_pcb_memph`, with the indices it reads `pgd` at. -/
def freePcbMemph (words : PgdWords) (c : Caller) : ℤ × List ℕ × Caller :=
  let r := freePcbLoop words c.mm pagingMaxPgn 0 c.krnl
  (0, r.1, { c with krnl := r.2 })

end Ossim
