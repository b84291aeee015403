import Ossim.Lib.BitField
import Ossim.Mm

set_option autoImplicit false

/-! # The page table (`mm64.c`, the PTE macros of `mm.h`)

Page-table entries, the decomposition of addresses into directory indices, and the walk of the
five-level tree. A pointer into a page table is the path of indices to its slot. -/

namespace Ossim

open BitField

/-! ## Entries

An entry is stored in a 64-bit slot and read as a 32-bit word. -/

/-- `BIT(nr)` -/
def bit (nr : ℕ) : BitVec 32 := 1#32 <<< nr

def pagingPtePresentMask : BitVec 32 := bit 31

def pagingPteSwappedMask : BitVec 32 := bit 30

/-- `GENMASK(PAGING_PTE_FPN_HIBIT, PAGING_PTE_FPN_LOBIT)` -/
def pagingPteFpnMask : BitVec 32 := genmask 32 12 0

/-- `GENMASK(PAGING_PTE_SWPTYP_HIBIT, PAGING_PTE_SWPTYP_LOBIT)` -/
def pagingPteSwptypMask : BitVec 32 := genmask 32 4 0

/-- `GENMASK(PAGING_PTE_SWPOFF_HIBIT, PAGING_PTE_SWPOFF_LOBIT)` -/
def pagingPteSwpoffMask : BitVec 32 := genmask 32 25 5

/-- `PAGING_PAGE_PRESENT(pte)` as a condition. -/
def pagingPagePresent (pte : BitVec 32) : Bool := pte &&& pagingPtePresentMask != 0

/-- `pte & PAGING_PTE_SWAPPED_MASK` as a condition. -/
def pagingPageSwapped (pte : BitVec 32) : Bool := pte &&& pagingPteSwappedMask != 0

/-- `PAGING_FPN(pte)` -/
def pagingFpn (pte : BitVec 32) : ℕ := (getval pte pagingPteFpnMask 0).toNat

/-- `PAGING_SWP(pte)` -/
def pagingSwp (pte : BitVec 32) : ℕ := (getval pte pagingPteSwpoffMask 5).toNat

/-- The updates of `*pte` in `pte_set_fpn`. -/
def pteFpnWord (pte : BitVec 64) (fpn : ℕ) : BitVec 64 :=
  let pte := setbit pte pagingPtePresentMask
  let pte := clrbit pte pagingPteSwappedMask
  setval pte (BitVec.ofNat 64 fpn) pagingPteFpnMask 0

/-- The updates of `*pte` in `pte_set_swap`. -/
def pteSwapWord (pte : BitVec 64) (swptyp swpoff : ℕ) : BitVec 64 :=
  let pte := clrbit pte pagingPtePresentMask
  let pte := setbit pte pagingPteSwappedMask
  let pte := setval pte (BitVec.ofNat 64 swptyp) pagingPteSwptypMask 0
  setval pte (BitVec.ofNat 64 swpoff) pagingPteSwpoffMask 5

/-! ## Indices -/

/-- `(addr & MASK) >> LOBIT` for the directory level in bits `l..h`. -/
def dirIx (addr : BitVec 64) (h l : ℕ) : Fin 512 :=
  ⟨(getval addr (genmask 64 h l) l).toNat % 512, Nat.mod_lt _ (by decide)⟩

/-- `get_pd_from_address`. The out-parameters are set on success only: `out` is what they held. -/
def getPdFromAddress (addr : BitVec 64) (out : PageIx) : ℤ × PageIx :=
  let topBits := addr >>> 57
  if topBits ≠ 0 ∧ topBits ≠ 0x7f then (-1, out)
  else (0, (dirIx addr 56 48, dirIx addr 47 39, dirIx addr 38 30, dirIx addr 29 21, dirIx addr 20 12))

/-- `get_pd_from_pagenum` -/
def getPdFromPagenum (pgn : ℕ) (out : PageIx) : ℤ × PageIx :=
  getPdFromAddress (BitVec.ofNat 64 pgn <<< 12) out

/-- The slot `get_pte_ptr` goes to: it does not look at the status of `get_pd_from_pagenum`. -/
def pageIx (host : Host) (pgn : ℕ) : PageIx := (getPdFromPagenum pgn host.stale).2

/-! ## The walk -/

/-- `mm->pgtbl_level_reads++` -/
def PgtblStats.read (st : PgtblStats) : PgtblStats := { st with levelReads := st.levelReads + 1 }

/-- `pgtbl_level_writes++` -/
def PgtblStats.write (st : PgtblStats) : PgtblStats := { st with levelWrites := st.levelWrites + 1 }

/-- `alloc_pgtbl_level` and the counting of the slot written with its result. -/
def allocPgtblLevel (host : Host) (st : PgtblStats) : Bool × PgtblStats :=
  if host.calloc st.levelWrites then
    (true, { st with
      tablesAllocated := st.tablesAllocated + 1
      storageBytes := st.storageBytes + pgtblTableBytes
      levelWrites := st.levelWrites + 1 })
  else (false, st.write)

/-- The four directory levels of `get_pte_ptr`, which the source writes out one after the other:
    read the slot, stop or allocate if it is zero, go on in the table it points to. -/
def pgdWalk (host : Host) (mm : Mm) (pgn : ℕ) (isAlloc : Bool) : Bool × PageDir × PgtblStats :=
  mm.pgd.walk 0 PgtblStats.read (fun st => if isAlloc then allocPgtblLevel host st else (false, st))
    (pageIx host pgn) { mm.stats with walks := mm.stats.walks + 1 }

/-- `get_pte_ptr`: the slot of a page, `none` for NULL. Missing tables are created if `isAlloc`. -/
def getPtePtr (host : Host) (mm : Mm) (pgn : ℕ) (isAlloc : Bool) : Option PageIx × Mm :=
  let r := pgdWalk host mm pgn isAlloc
  (if r.1 then some (pageIx host pgn) else none, { mm with pgd := r.2.1, stats := r.2.2 })

/-- `*pte` -/
def Mm.entry (mm : Mm) (p : PageIx) : BitVec 64 := mm.pgd.lookup 0 p

/-- `*pte = v`, counted as a table write. -/
def Mm.setEntry (mm : Mm) (p : PageIx) (v : BitVec 64) : Mm :=
  { mm with pgd := mm.pgd.write p v, stats := mm.stats.write }

/-! ## Operations on entries -/

/-- The pattern the four setters share: walk with allocation, then update the slot. -/
def pteUpdate (host : Host) (mm : Mm) (pgn : ℕ) (upd : BitVec 64 → BitVec 64) : ℤ × Mm :=
  match getPtePtr host mm pgn true with
  | (none, mm) => (-1, mm)
  | (some p, mm) => (0, mm.setEntry p (upd (mm.entry p)))

/-- `pte_set_swap` -/
def pteSetSwap (host : Host) (mm : Mm) (pgn swptyp swpoff : ℕ) : ℤ × Mm :=
  pteUpdate host mm pgn (fun pte => pteSwapWord pte swptyp swpoff)

/-- `pte_set_fpn` -/
def pteSetFpn (host : Host) (mm : Mm) (pgn fpn : ℕ) : ℤ × Mm :=
  pteUpdate host mm pgn (fun pte => pteFpnWord pte fpn)

/-- `pte_set_entry` -/
def pteSetEntry (host : Host) (mm : Mm) (pgn : ℕ) (pteVal : BitVec 32) : ℤ × Mm :=
  pteUpdate host mm pgn (fun _ => pteVal.setWidth 64)

/-- `pte_get_entry`: 0 if the walk ends early. -/
def pteGetEntry (host : Host) (mm : Mm) (pgn : ℕ) : BitVec 32 × Mm :=
  match getPtePtr host mm pgn false with
  | (none, mm) => (0, mm)
  | (some p, mm) => ((mm.entry p).setWidth 32, mm)

/-- The loop of `vmap_pgd_memset`, `n` pages left. -/
def vmapPgdMemsetLoop (host : Host) : (n : ℕ) → Mm → (addr : ℕ) → ℤ × Mm
  | 0, mm, _ => (0, mm)
  | n + 1, mm, addr =>
    match pteUpdate host mm (addr >>> 12) (fun _ => 0xdeadbeef) with
    | (0, mm) => vmapPgdMemsetLoop host n mm (addrT (addr + paging64Pagesz))
    | (_, mm) => (-1, mm)

/-- `vmap_pgd_memset` -/
def vmapPgdMemset (host : Host) (mm : Mm) (addr : ℕ) (pgnum : ℤ) : ℤ × Mm :=
  vmapPgdMemsetLoop host pgnum.toNat mm addr

end Ossim
