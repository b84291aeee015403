import Ossim.Caller
import Ossim.PageTable

set_option autoImplicit false

/-! # Virtual memory areas (`mm-vm.c`, the mapping functions of `mm64.c`, `libmem.c`)

The free regions of an area, and the growth of an area with the frames it maps. The nodes of the
region lists and of the FIFO list are small heap blocks and taken as granted by the host; the nodes
of a frame list are not, as `alloc_pages_range` has a path for that. -/

namespace Ossim

/-! ## Regions -/

/-- `PAGING64_PAGE_ALIGNSZ(sz)` -/
def paging64PageAlignsz (sz : ℕ) : ℕ :=
  addrT (addrT (sz + paging64Pagesz - 1) / paging64Pagesz * paging64Pagesz)

/-- `get_vma_by_num`: the only area has number 0. -/
def getVmaByNum (mm : Mm) (vmaid : ℤ) : Option VmArea := if 0 < vmaid then none else some mm.mmap

/-- `enlist_vm_freerg_list`, on the list of the area. -/
def enlistVmFreergList (mm : Mm) (rgElmt : VmRg) : ℤ × Mm :=
  if rgElmt.rgEnd ≤ rgElmt.rgStart then (-1, mm)
  else (0, { mm with mmap := { mm.mmap with vmFreergList := rgElmt :: mm.mmap.vmFreergList } })

/-- `newrg->rg_start = newrg->rg_end = -1`, the probe of `get_free_vmrg_area`. -/
def noRg : VmRg := ⟨2 ^ 64 - 1, 2 ^ 64 - 1⟩

/-- The list after a node was used up: its successor takes its place, and the last node becomes a
    region of size 0. -/
def dropFreerg (rgit : VmRg) : List VmRg → List VmRg
  | [] => [⟨rgit.rgEnd, rgit.rgEnd⟩]
  | next :: rest => next :: rest

/-- The first-fit loop of `get_free_vmrg_area`: the region taken and the list that is left. -/
def freergFirstFit (size : ℕ) : List VmRg → VmRg × List VmRg
  | [] => (noRg, [])
  | rgit :: rest =>
    let cut := addrT (rgit.rgStart + size)
    if cut ≤ rgit.rgEnd then
      (⟨rgit.rgStart, cut⟩,
        if cut < rgit.rgEnd then ⟨cut, rgit.rgEnd⟩ :: rest else dropFreerg rgit rest)
    else
      let r := freergFirstFit size rest
      (r.1, rgit :: r.2)

/-- `get_free_vmrg_area`. The size is passed as an `int`. -/
def getFreeVmrgArea (mm : Mm) (size : ℕ) : ℤ × VmRg × Mm :=
  let r := freergFirstFit (addrOfInt size) mm.mmap.vmFreergList
  (if r.1.rgStart = noRg.rgStart then -1 else 0, r.1,
    { mm with mmap := { mm.mmap with vmFreergList := r.2 } })

/-! ## Mapping frames -/

/-- `enlist_pgn_node` on `mm->fifo_pgn`. -/
def enlistPgnNode (mm : Mm) (pgn : ℕ) : Mm := { mm with fifoPgn := pgn :: mm.fifoPgn }

/-- The loop of `alloc_pages_range` from page `pgit` on, with the frames obtained so far and whether
    it ran to its end. -/
def allocPagesLoop (host : Host) : (n pgit : ℕ) → Memphy → List ℕ → Bool × List ℕ × Memphy
  | 0, _, mram, frmLst => (true, frmLst, mram)
  | n + 1, pgit, mram, frmLst =>
    match memphyGetFreefp mram with
    | none => (false, frmLst, mram)
    | some (fpn, mram) =>
      if host.malloc pgit then allocPagesLoop host n (pgit + 1) mram (frmLst ++ [fpn])
      else (false, frmLst, (memphyPutFreefp mram fpn).2)

/-- Give every frame of a list back to the device. -/
def putFrames (mram : Memphy) (frmLst : List ℕ) : Memphy :=
  frmLst.foldl (fun mram fpn => (memphyPutFreefp mram fpn).2) mram

/-- `alloc_pages_range`: the frames, or `-3000` after giving back those obtained. -/
def allocPagesRange (host : Host) (mram : Memphy) (reqPgnum : ℕ) : ℤ × List ℕ × Memphy :=
  match allocPagesLoop host reqPgnum 0 mram [] with
  | (true, frmLst, mram) => (0, frmLst, mram)
  | (false, frmLst, mram) => (-3000, [], putFrames mram frmLst)

/-- The loop of `vmap_page_range` from page `pgit` on. -/
def vmapPagesLoop (host : Host) (addr : ℕ) : (n pgit : ℕ) → List ℕ → Mm → ℤ × Mm
  | 0, _, _, mm => (0, mm)
  | _ + 1, _, [], mm => (0, mm)
  | n + 1, pgit, fpn :: fpit, mm =>
    let pgn := addrT (addr + addrOfInt (pgit * paging64Pagesz)) >>> 12
    match pteSetFpn host mm pgn fpn with
    | (0, mm) => vmapPagesLoop host addr n (pgit + 1) fpit (enlistPgnNode mm pgn)
    | (_, mm) => (-1, mm)

/-- `pgit` when the loop of `vmap_page_range` ends: all pages are mapped, the frames are used up, or
    there was no entry for the page. -/
def vmapPagesEnd (host : Host) (addr : ℕ) : (n pgit : ℕ) → List ℕ → Mm → ℕ
  | 0, pgit, _, _ => pgit
  | _ + 1, pgit, [], _ => pgit
  | n + 1, pgit, fpn :: fpit, mm =>
    let pgn := addrT (addr + addrOfInt (pgit * paging64Pagesz)) >>> 12
    match pteSetFpn host mm pgn fpn with
    | (0, mm) => vmapPagesEnd host addr n (pgit + 1) fpit (enlistPgnNode mm pgn)
    | (_, _) => pgit

/-- `ret_rg` of `vmap_page_range`. -/
def vmapPageRangeRg (host : Host) (mm : Mm) (addr pgnum : ℕ) (frames : List ℕ) : VmRg :=
  ⟨addr, addrT (addr + addrOfInt (vmapPagesEnd host addr pgnum 0 frames mm * paging64Pagesz))⟩

/-- `vmap_page_range`, the status as the `addr_t` it is returned in. The region it reports,
    `vmapPageRangeRg`, is not used by its caller. -/
def vmapPageRange (host : Host) (mm : Mm) (addr pgnum : ℕ) (frames : List ℕ) : ℕ × Mm :=
  match vmapPagesLoop host addr pgnum 0 frames mm with
  | (0, mm) => (0, mm)
  | (_, mm) => (2 ^ 64 - 1, mm)

/-- `vm_map_ram`, the status as an `addr_t`. The status of `vmap_page_range` is tested with `< 0`,
    which no `addr_t` is: the frames are not given back when the mapping fails. -/
def vmMapRam (host : Host) (c : Caller) (mapstart incpgnum : ℕ) : ℕ × Caller :=
  match allocPagesRange host c.krnl.mram incpgnum with
  | (0, frmLst, mram) =>
    let r := vmapPageRange host c.mm mapstart incpgnum frmLst
    let c := (c.setMram mram).setMm r.2
    if r.1 < 0 then (2 ^ 64 - 1, c.setMram (putFrames c.krnl.mram frmLst)) else (0, c)
  | (_, _, mram) => (2 ^ 64 - 1, c.setMram mram)

/-- `ret_rg` of `vm_map_ram`, which is left alone if there are not enough frames. -/
def vmMapRamRg (host : Host) (c : Caller) (mapstart incpgnum : ℕ) (retRg : VmRg) : VmRg :=
  match allocPagesRange host c.krnl.mram incpgnum with
  | (0, frmLst, _) => vmapPageRangeRg host c.mm mapstart incpgnum frmLst
  | _ => retRg

/-- `validate_overlap_vm_area` over the only area, whose number is 0. -/
def validateOverlapVmArea (mm : Mm) (vmaid : ℤ) (vmastart vmaend : ℕ) : ℤ :=
  if vmaend ≤ vmastart then -1
  else if vmaid ≠ 0 ∧ vmastart < mm.mmap.vmEnd ∧ mm.mmap.vmStart < vmaend then -1
  else 0

/-- `cur_vma->vm_end = vmEnd; cur_vma->sbrk = sbrk` -/
def Mm.setArea (mm : Mm) (vmEnd sbrk : ℕ) : Mm :=
  { mm with mmap := { mm.mmap with vmEnd := vmEnd, sbrk := sbrk } }

/-- `inc_vma_limit`, the `malloc` of `newrg` granted. The status of `vm_map_ram` is an `addr_t` tested with
    `< 0`, so the limits stay raised when there are not enough frames. -/
def incVmaLimit (host : Host) (c : Caller) (vmaid : ℤ) (incSz : ℕ) : ℤ × Caller :=
  if incSz = 0 then (0, c)
  else match getVmaByNum c.mm vmaid with
  | none => (-1, c)
  | some curVma =>
    let incAmt := paging64PageAlignsz incSz
    -- `int incnumpage`, the bound of loops that count up from 0
    let incnumpage := (cInt (incAmt / paging64Pagesz)).toNat
    let oldEnd := curVma.vmEnd
    let newEnd := addrT (oldEnd + incAmt)
    if validateOverlapVmArea c.mm vmaid oldEnd newEnd < 0 then (-1, c)
    else
      let c := c.setMm (c.mm.setArea newEnd (addrT (curVma.sbrk + incSz)))
      let r := vmMapRam host c oldEnd incnumpage
      if r.1 < 0 then (-1, r.2.setMm (r.2.mm.setArea oldEnd curVma.sbrk)) else (0, r.2)

end Ossim
