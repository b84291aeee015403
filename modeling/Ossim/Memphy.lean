import Ossim.Basic

set_option autoImplicit false

/-! # Physical memory devices (`mm-memphy.c`)

A device is a block of bytes with two lists of frames. The intrusive lists `free_fp_list` and
`used_fp_list` are lists of frame numbers; relinking a node moves its number. -/

namespace Ossim

/-- `struct memphy_struct` -/
structure Memphy where
  /-- The block `storage` points to. What lies beyond its `storageSz` bytes is not the device's:
      reading there gives whatever the host has, and a write there is not tracked. -/
  storage : ℕ → Byte
  /-- The number of bytes `init_memphy` allocated. -/
  storageSz : ℕ
  maxsz : ℤ
  rdmflg : Bool
  cursor : ℤ
  freeFpList : List ℕ
  usedFpList : List ℕ

/-- A cleared `struct memphy_struct`. -/
def zeroMemphy : Memphy where
  storage := fun _ => 0
  storageSz := 0
  maxsz := 0
  rdmflg := false
  cursor := 0
  freeFpList := []
  usedFpList := []

/-! ## Reading and writing -/

/-- Store a byte of the block. -/
def Memphy.poke (mp : Memphy) (addr : ℕ) (value : Byte) : Memphy :=
  if addr < mp.storageSz then { mp with storage := Function.update mp.storage addr value } else mp

/-- `MEMPHY_mv_csr`: rewind, then step to the offset, at most `maxsz` steps. -/
def memphyMvCsr (mp : Memphy) (offset : ℕ) : Memphy :=
  { mp with cursor := (fun c => (c + 1) % mp.maxsz)^[min offset mp.maxsz.toNat] 0 }

/-- `MEMPHY_seq_read`. The mode test is the one of the source: it refuses a device whose `rdmflg` is
    clear, that is, every sequential device. -/
def memphySeqRead (mp : Memphy) (addr : ℕ) : Option Byte × Memphy :=
  if !mp.rdmflg then (none, mp)
  else (some (mp.storage addr), memphyMvCsr mp addr)

/-- `MEMPHY_read` -/
def memphyRead (mp : Memphy) (addr : ℕ) : Option Byte × Memphy :=
  if mp.rdmflg then (some (mp.storage addr), mp) else memphySeqRead mp addr

/-- `MEMPHY_seq_write`, with the same mode test. -/
def memphySeqWrite (mp : Memphy) (addr : ℕ) (value : Byte) : ℤ × Memphy :=
  if !mp.rdmflg then (-1, mp)
  else (0, (memphyMvCsr mp addr).poke addr value)

/-- `MEMPHY_write` -/
def memphyWrite (mp : Memphy) (addr : ℕ) (data : Byte) : ℤ × Memphy :=
  if mp.rdmflg then (0, mp.poke addr data) else memphySeqWrite mp addr data

/-! ## Frames -/

/-- `MEMPHY_format`: carve the device into frames. Too small a device is refused with its lists left
    as they were. -/
def memphyFormat (mp : Memphy) (pagesz : ℕ) : ℤ × Memphy :=
  let numfp := mp.maxsz.tdiv pagesz
  if numfp ≤ 0 then (-1, mp)
  else (0, { mp with
    freeFpList := 0 :: List.range' 1 (numfp.toNat - 1)
    usedFpList := [] })

/-- `init_memphy`, on a device structure with arbitrary contents. -/
def initMemphy (mp : Memphy) (maxSize : ℕ) (randomflg : Bool) : Memphy :=
  let mp := { mp with
    storage := fun _ => 0
    storageSz := maxSize
    maxsz := cInt maxSize }
  let mp := (memphyFormat mp pagingPagesz).2
  { mp with
    rdmflg := randomflg
    cursor := if randomflg then mp.cursor else 0 }

/-- `MEMPHY_get_freefp`: pop the head of the free list and push it onto the used list. -/
def memphyGetFreefp (mp : Memphy) : Option (ℕ × Memphy) :=
  match mp.freeFpList with
  | [] => none
  | fpn :: rest =>
    some (fpn, { mp with freeFpList := rest, usedFpList := fpn :: mp.usedFpList })

/-- `MEMPHY_put_freefp`: unlink the first used node with that number, narrowed to `int` as in the
    source's comparison, and push it onto the free list. -/
def memphyPutFreefp (mp : Memphy) (fpn : ℕ) : ℤ × Memphy :=
  let n := addrOfInt fpn
  if n ∈ mp.usedFpList then
    (0, { mp with freeFpList := n :: mp.freeFpList, usedFpList := mp.usedFpList.erase n })
  else (-1, mp)

/-- `(fpn << PAGING64_ADDR_PT_SHIFT) + off`, the physical address of a byte of a frame. A frame
    number read from an entry is below `2 ^ 13`, so the `int` it is kept in does not overflow. -/
def phyaddr (fpn off : ℕ) : ℕ := fpn <<< 12 + off

/-! ## Copying a frame -/

/-- The loop of `__swap_cp_page` (`mm64.c`), from cell `cellidx` on, `n` cells left. `data` is the
    loop's local variable: a failed read leaves it as it was. -/
def swapCpCells (mpsrc : Memphy) (srcfpn : ℕ) (dstfpn : ℕ) :
    (n cellidx : ℕ) → (data : Byte) → Memphy → Memphy
  | 0, _, _, mpdst => mpdst
  | n + 1, cellidx, data, mpdst =>
    let addrsrc := addrT (srcfpn * paging64Pagesz + cellidx)
    let addrdst := addrT (dstfpn * paging64Pagesz + cellidx)
    let data := (memphyRead mpsrc addrsrc).1.getD data
    swapCpCells mpsrc srcfpn dstfpn n (cellidx + 1) data (memphyWrite mpdst addrdst data).2

/-- `__swap_cp_page`: the destination after the copy; the source is only read. -/
def swapCpPage (host : Host) (mpsrc : Memphy) (srcfpn : ℕ) (mpdst : Memphy) (dstfpn : ℕ) : Memphy :=
  swapCpCells mpsrc srcfpn dstfpn paging64Pagesz 0 host.data mpdst

end Ossim
