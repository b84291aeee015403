import Ossim.Locking
import Ossim.System

set_option autoImplicit false

/-! # Lock traces of the model

What the functions of the model do with locks, from any state and for any operands (`..Trace`). Every
trace is a path through the skeleton of its function. -/

namespace Ossim

open Locks Locks.Stmt

abbrev LockTrace := List (Event Lock)

/-- A critical section. -/
def locked (l : Lock) (t : LockTrace) : LockTrace := .lock l :: (t ++ [.unlock l])

/-! ## Devices -/

/-- `MEMPHY_read` and `MEMPHY_write`: the mode is tested before the lock is taken. -/
def memphyReadTrace (mp : Memphy) : LockTrace := if mp.rdmflg then locked .memphy [] else []

def memphyGetFreefpTrace (mp : Memphy) : LockTrace :=
  match mp.freeFpList with
  | [] => []
  | _ :: _ => locked .memphy []

/-- `MEMPHY_put_freefp`, whether the frame is in use or not. -/
def memphyPutFreefpTrace : LockTrace := locked .memphy []

def swapCpPageTrace (mpsrc mpdst : Memphy) : LockTrace :=
  (List.replicate paging64Pagesz (memphyReadTrace mpsrc ++ memphyReadTrace mpdst)).flatten

theorem memphyRead_path (mp : Memphy) : Path Locking.memphyRead (memphyReadTrace mp) .next := by
  unfold memphyReadTrace
  split
  · exact .call_next (.block_skip (.left (.block_lock (.unlock _))))
  · refine .call_ret (.block_skip (.right ?_))
    exact .block_next (.call_ret (.block_ret .ret)) .ret

theorem memphyGetFreefp_path (mp : Memphy) :
    Path Locking.memphyGetFreefp (memphyGetFreefpTrace mp) .next := by
  unfold memphyGetFreefpTrace
  split
  · exact .call_ret (.block_ret .ret)
  · exact .call_next (.block_skip (.block_lock (.unlock _)))

theorem memphyPutFreefp_path : Path Locking.memphyPutFreefp memphyPutFreefpTrace .next :=
  .call_next (.block_skip (.block_lock (.block_skip (.unlock _))))

theorem swapCpPage_path (mpsrc mpdst : Memphy) :
    Path Locking.swapCpPage (swapCpPageTrace mpsrc mpdst) .next :=
  .call_next (.loop_replicate
    (.block_next (memphyRead_path mpsrc) (.block_last (memphyRead_path mpdst))) _)

/-! ## Mapping -/

def enlistPgnNodeTrace : LockTrace := locked .mm64 []

/-- `vmap_pgd_memset`, to its end or to a table it cannot allocate. -/
def vmapPgdMemsetTrace : LockTrace := locked .mm64 []

def vmapPagesTrace (host : Host) (addr : ℕ) : (n pgit : ℕ) → List ℕ → Mm → LockTrace
  | 0, _, _, _ => []
  | _ + 1, _, [], _ => []
  | n + 1, pgit, fpn :: fpit, mm =>
    let pgn := addrT (addr + addrOfInt (pgit * paging64Pagesz)) >>> 12
    match pteSetFpn host mm pgn fpn with
    | (0, mm) =>
      enlistPgnNodeTrace ++ vmapPagesTrace host addr n (pgit + 1) fpit (enlistPgnNode mm pgn)
    | (_, _) => []

def vmapPageRangeTrace (host : Host) (mm : Mm) (addr pgnum : ℕ) (frames : List ℕ) : LockTrace :=
  vmapPagesTrace host addr pgnum 0 frames mm ++ locked .mm64 []

def allocPagesTrace (host : Host) : (n pgit : ℕ) → Memphy → LockTrace
  | 0, _, _ => []
  | n + 1, pgit, mram =>
    memphyGetFreefpTrace mram ++
      match memphyGetFreefp mram with
      | none => []
      | some (_, mram) =>
        if host.malloc pgit then allocPagesTrace host n (pgit + 1) mram else memphyPutFreefpTrace

def putFramesTrace (frmLst : List ℕ) : LockTrace :=
  (List.replicate frmLst.length memphyPutFreefpTrace).flatten

def allocPagesRangeTrace (host : Host) (mram : Memphy) (reqPgnum : ℕ) : LockTrace :=
  locked .mm64 (allocPagesTrace host reqPgnum 0 mram ++
    match allocPagesLoop host reqPgnum 0 mram [] with
    | (true, _, _) => []
    | (false, frmLst, _) => putFramesTrace frmLst)

def vmMapRamTrace (host : Host) (c : Caller) (mapstart incpgnum : ℕ) : LockTrace :=
  allocPagesRangeTrace host c.krnl.mram incpgnum ++
    match allocPagesRange host c.krnl.mram incpgnum with
    | (0, frmLst, _) =>
      vmapPageRangeTrace host c.mm mapstart incpgnum frmLst ++
        locked .mm64
          (if (vmapPageRange host c.mm mapstart incpgnum frmLst).1 < 0 then putFramesTrace frmLst
          else [])
    | _ => []

theorem enlistPgnNode_path : Path Locking.enlistPgnNode enlistPgnNodeTrace .next :=
  .call_next (.block_lock (.unlock _))

theorem vmapPgdMemset_path : Path Locking.vmapPgdMemset vmapPgdMemsetTrace .next :=
  .call_next (.block_skip (.block_lock (.block_next .loopEnd (.unlock _))))

/-- The loop ends early when the frames run out or an entry cannot be set. -/
theorem vmapPages_path (host : Host) (addr n pgit : ℕ) (frames : List ℕ) (mm : Mm) :
    Path (.loop (block [opt .brk, opt .brk, opt Locking.enlistPgnNode]))
      (vmapPagesTrace host addr n pgit frames mm) .next := by
  induction n generalizing pgit frames mm with
  | zero => exact .loopEnd
  | succ n ih =>
      cases frames with
      | nil => exact .loopEnd
      | cons fpn fpit =>
          rw [vmapPagesTrace]
          split
          · exact .loopNext (.block_skip (.block_skip (.enter_opt enlistPgnNode_path))) (ih _ _ _)
          · exact .loopEnd

theorem vmapPageRange_path (host : Host) (mm : Mm) (addr pgnum : ℕ) (frames : List ℕ) :
    Path Locking.vmapPageRange (vmapPageRangeTrace host mm addr pgnum frames) .next :=
  .call_next (.block_skip (.block_next (vmapPages_path host addr pgnum 0 frames mm)
    (.block_lock (.unlock _))))

theorem allocPages_path (host : Host) (n pgit : ℕ) (mram : Memphy) :
    Path (.loop (block [Locking.memphyGetFreefp,
        .choice (opt (block [Locking.memphyPutFreefp, .brk])) .brk]))
      (allocPagesTrace host n pgit mram) .next := by
  induction n generalizing pgit mram with
  | zero => exact .loopEnd
  | succ n ih =>
      rw [allocPagesTrace]
      have hget := memphyGetFreefp_path mram
      split
      · exact .loopBrk (.block_next hget (.block_last (.right .brk)))
      · split
        · refine .loopNext ?_ (ih _ _)
          rw [← List.append_nil (memphyGetFreefpTrace mram)]
          exact .block_next hget (.block_last (.left .skip_opt))
        · exact .loopBrk (.block_next hget (.block_last (.left (.enter_opt (.block_next
            memphyPutFreefp_path (.block_last .brk))))))

theorem putFrames_path (frmLst : List ℕ) :
    Path (.loop Locking.memphyPutFreefp) (putFramesTrace frmLst) .next :=
  .loop_replicate memphyPutFreefp_path _

theorem allocPagesRange_path (host : Host) (mram : Memphy) (reqPgnum : ℕ) :
    Path Locking.allocPagesRange (allocPagesRangeTrace host mram reqPgnum) .next := by
  have hloop := allocPages_path host reqPgnum 0 mram
  rw [allocPagesRangeTrace, locked, List.append_assoc]
  split
  · exact .call_next (.block_skip (.block_lock (.block_next hloop (.block_skip (.unlock _)))))
  · refine .call_ret (.block_skip (.block_lock (.block_next hloop (.block_ret ?_))))
    exact .block_next (putFrames_path _) (.block_unlock (.block_last .ret))

theorem vmMapRam_path (host : Host) (c : Caller) (mapstart incpgnum : ℕ) :
    Path Locking.vmMapRam (vmMapRamTrace host c mapstart incpgnum) .next := by
  have halloc := allocPagesRange_path host c.krnl.mram incpgnum
  rw [vmMapRamTrace]
  split
  · next frmLst _ _ =>
      have hput : Path (.loop (opt Locking.memphyPutFreefp))
          (if (vmapPageRange host c.mm mapstart incpgnum frmLst).1 < 0 then putFramesTrace frmLst
          else []) .next := by
        split
        · exact .loop_replicate (.enter_opt memphyPutFreefp_path) _
        · exact .loopEnd
      exact .call_next (.block_skip (.block_next halloc (.block_skip (.block_skip (.block_next
        (vmapPageRange_path ..) (.block_lock (.block_next hput (.block_last (.unlock _)))))))))
  · exact .call_ret (.block_skip (.block_next halloc (.block_ret .ret)))

/-! ## Areas and the system call -/

def incVmaLimitTrace (host : Host) (c : Caller) (vmaid : ℤ) (incSz : ℕ) : LockTrace :=
  if incSz = 0 then []
  else locked .vm (match getVmaByNum c.mm vmaid with
    | none => []
    | some curVma =>
      let incAmt := paging64PageAlignsz incSz
      let newEnd := addrT (curVma.vmEnd + incAmt)
      if validateOverlapVmArea c.mm vmaid curVma.vmEnd newEnd < 0 then []
      else
        vmMapRamTrace host (c.setMm (c.mm.setArea newEnd (addrT (curVma.sbrk + incSz)))) curVma.vmEnd
          (cInt (incAmt / paging64Pagesz)).toNat)

def sysMemmapTrace (host : Host) (c : Caller) (regs : ScRegs) : LockTrace :=
  if !c.proc.registered then []
  else
    let memop := cInt regs.a1
    if memop = sysmemMapOp then vmapPgdMemsetTrace
    else if memop = sysmemIncOp then incVmaLimitTrace host c (cInt regs.a2) (uint32 regs.a3)
    else if memop = sysmemSwpOp then swapCpPageTrace c.krnl.mram c.krnl.activeMswp
    else if memop = sysmemIoRead ∨ memop = sysmemIoWrite then memphyReadTrace c.krnl.mram
    else []

def syscallTrace (host : Host) (c : Caller) (nr : ℕ) (regs : ScRegs) : LockTrace :=
  if nr = 17 then sysMemmapTrace host c regs else []

theorem incVmaLimit_path (host : Host) (c : Caller) (vmaid : ℤ) (incSz : ℕ) :
    Path Locking.incVmaLimit (incVmaLimitTrace host c vmaid incSz) .next := by
  rw [incVmaLimitTrace]
  split
  · exact .call_ret (.block_skip (.block_ret .ret))
  · have hret : Path (block [.unlock Lock.vm, .ret]) [.unlock .vm] .ret :=
      .block_unlock (.block_last .ret)
    split
    · exact .call_ret (.block_skip (.block_skip (.block_lock (.block_ret hret))))
    · simp only
      split
      · exact .call_ret (.block_skip (.block_skip (.block_lock (.block_skip (.block_ret hret)))))
      · exact .call_next (.block_skip (.block_skip (.block_lock (.block_skip (.block_skip
          (.block_skip (.block_next (vmMapRam_path ..) (.block_skip (.block_last (.unlock _))))))))))

theorem sysMemmap_path (host : Host) (c : Caller) (regs : ScRegs) :
    Path Locking.sysMemmap (sysMemmapTrace host c regs) .next := by
  rw [sysMemmapTrace]
  split
  · exact .call_ret (.block_ret .ret)
  · simp only
    have hread := memphyRead_path c.krnl.mram
    split_ifs
    · exact .call_next (.block_skip (.block_last (.left vmapPgdMemset_path)))
    · exact .call_next (.block_skip (.block_last (.right (.left (incVmaLimit_path ..)))))
    · exact .call_next (.block_skip (.block_last (.right (.right (.left (.call_next
        (swapCpPage_path ..)))))))
    · exact .call_next (.block_skip (.block_last (.right (.right (.right (.left hread))))))
    · exact .call_next (.block_skip (.block_last (.right (.right (.right (.right (.right .skip)))))))

theorem syscall_path (host : Host) (c : Caller) (nr : ℕ) (regs : ScRegs) :
    Path Locking.syscall (syscallTrace host c nr regs) .next := by
  rw [syscallTrace]
  split
  · exact .call_next (.left (sysMemmap_path ..))
  · exact .call_next (.right .skip)

/-! ## Allocating and freeing -/

def allocTrace (host : Host) (c : Caller) (rgid size : ℕ) : LockTrace :=
  if pagingMaxSymtblSz ≤ rgid then []
  else locked .mmvm (match getFreeVmrgArea c.mm size with
    | (0, _, _) => []
    | (_, _, mm) => syscallTrace host (c.setMm mm) 17 ⟨2, 0, paging64PageAlignsz size⟩)

def freeTrace (rgid : ℕ) : LockTrace := if pagingMaxSymtblSz ≤ rgid then [] else locked .mmvm []

theorem alloc_path (host : Host) (c : Caller) (rgid size : ℕ) :
    Path Locking.alloc (allocTrace host c rgid size) .next := by
  rw [allocTrace]
  split
  · exact .call_ret (.block_ret .ret)
  · split
    · exact .call_ret (.block_skip (.block_lock (.block_ret (.block_unlock (.block_last .ret)))))
    · exact .call_next (.block_skip (.block_lock (.block_skip (.block_next (syscall_path ..)
        (.block_last (.unlock _))))))

theorem free_path (rgid : ℕ) : Path Locking.free (freeTrace rgid) .next := by
  rw [freeTrace]
  split
  · exact .call_ret (.block_ret .ret)
  · exact .call_next (.block_skip (.block_lock (.block_skip (.block_skip (.block_skip
      (.block_last (.unlock _)))))))

/-! ## Demand paging -/

def stealFrameTrace (host : Host) (c : Caller) : LockTrace :=
  match findVictimPage c.mm with
  | none => []
  | some (vicpgn, mm) =>
    let r := pteGetEntry host mm vicpgn
    let c := c.setMm r.2
    memphyGetFreefpTrace c.krnl.activeMswp ++
      match memphyGetFreefp c.krnl.activeMswp with
      | none => []
      | some (swpfpn, mswp) => syscallTrace host (c.setMswp mswp) 17 ⟨3, pagingFpn r.1, swpfpn⟩

def getTargetFrameTrace (host : Host) (c : Caller) : LockTrace :=
  memphyGetFreefpTrace c.krnl.mram ++
    match memphyGetFreefp c.krnl.mram with
    | some _ => []
    | none => stealFrameTrace host c

def swapInTrace (c : Caller) (pte : BitVec 32) : LockTrace :=
  if pagingPageSwapped pte then swapCpPageTrace c.krnl.activeMswp c.krnl.mram ++ memphyPutFreefpTrace
  else []

def pgGetpageTrace (host : Host) (c : Caller) (pgn : ℕ) : LockTrace :=
  let r := pteGetEntry host c.mm pgn
  let c := c.setMm r.2
  if pagingPagePresent r.1 then []
  else
    getTargetFrameTrace host c ++
      match getTargetFrame host c with
      | (none, _) => []
      | (some _, c) => swapInTrace c r.1 ++ enlistPgnNodeTrace

def pgGetvalTrace (host : Host) (c : Caller) (addr : ℕ) : LockTrace :=
  pgGetpageTrace host c (pgnOfIntAddr addr) ++
    match pgGetpage host c (pgnOfIntAddr addr) with
    | (none, _) => []
    | (some fpn, c) => syscallTrace host c 17 ⟨4, phyaddr fpn (addr % 4096), 0⟩

def pgSetvalTrace (host : Host) (c : Caller) (addr : ℕ) (value : Byte) : LockTrace :=
  pgGetpageTrace host c (pgnOfIntAddr addr) ++
    match pgGetpage host c (pgnOfIntAddr addr) with
    | (none, _) => []
    | (some fpn, c) => syscallTrace host c 17 ⟨5, phyaddr fpn (addr % 4096), addrOfByte value⟩

def readTrace (host : Host) (c : Caller) (rgid offset : ℕ) : LockTrace :=
  match c.mm.resolve rgid offset with
  | none => []
  | some vaddr => pgGetvalTrace host c vaddr

/-- `__write` takes the lock before it looks at the region. -/
def writeTrace (host : Host) (c : Caller) (rgid offset : ℕ) (value : Byte) : LockTrace :=
  if pagingMaxSymtblSz ≤ rgid then []
  else locked .mmvm (match c.mm.resolve rgid offset with
    | none => []
    | some vaddr => pgSetvalTrace host c vaddr value)

/-- The paths through the frame search of `pg_getpage`: it returns if it finds none. -/
theorem getTargetFrame_path (host : Host) (c : Caller) {s : Stmt Lock} {ss : List (Stmt Lock)}
    {t : LockTrace} {x : Exit} (ht : (getTargetFrame host c).1 ≠ none → Path (block (s :: ss)) t x)
    (hx : (getTargetFrame host c).1 = none → t = [] ∧ x = .ret) :
    Path (block (Locking.memphyGetFreefp ::
      opt (block [opt .ret, Locking.memphyGetFreefp, opt .ret, Locking.syscall]) :: s :: ss))
      (getTargetFrameTrace host c ++ t) x := by
  have hget := memphyGetFreefp_path c.krnl.mram
  rw [getTargetFrameTrace]
  rw [getTargetFrame] at ht hx
  cases hram : memphyGetFreefp c.krnl.mram with
  | some r =>
      simp only [hram, List.append_nil] at ht hx ⊢
      exact .block_next hget (.block_skip (ht (by simp)))
  | none =>
      simp only [hram] at ht hx ⊢
      rw [stealFrame] at ht hx
      rw [stealFrameTrace, List.append_assoc]
      refine .block_next hget ?_
      cases hvic : findVictimPage c.mm with
      | none =>
          simp only [hvic] at hx ⊢
          obtain ⟨rfl, rfl⟩ := hx trivial
          exact .block_ret (.block_ret .ret)
      | some v =>
          obtain ⟨vicpgn, mm⟩ := v
          simp only [hvic] at ht hx ⊢
          have hswp := memphyGetFreefp_path (c.setMm (pteGetEntry host mm vicpgn).2).krnl.activeMswp
          cases hget₂ : memphyGetFreefp (c.setMm (pteGetEntry host mm vicpgn).2).krnl.activeMswp with
          | none =>
              simp only [hget₂] at hx ⊢
              obtain ⟨rfl, rfl⟩ := hx trivial
              rw [List.append_nil]
              exact .block_ret (.block_skip (.block_next hswp (.block_ret .ret)))
          | some w =>
              simp only [hget₂] at ht ⊢
              refine .block_next (.enter_opt ?_) (ht (by simp))
              exact .block_skip (.block_next hswp (.block_skip (.block_last (syscall_path ..))))

theorem swapIn_path (c : Caller) (pte : BitVec 32) :
    Path (opt (block [Locking.swapCpPage, Locking.memphyPutFreefp])) (swapInTrace c pte) .next := by
  rw [swapInTrace]
  split
  · exact .enter_opt (.block_next (swapCpPage_path ..) (.block_last memphyPutFreefp_path))
  · exact .skip_opt

theorem pgGetpage_path (host : Host) (c : Caller) (pgn : ℕ) :
    Path Locking.pgGetpage (pgGetpageTrace host c pgn) .next := by
  rw [pgGetpageTrace]
  split
  · exact .call_next .skip_opt
  · generalize c.setMm (pteGetEntry host c.mm pgn).2 = c₁
    cases htgt : getTargetFrame host c₁ with
    | mk tgt c₂ =>
        cases tgt with
        | none =>
            refine .call_ret (.enter_opt (getTargetFrame_path host c₁ (fun hsome => ?_) fun _ => ⟨rfl, rfl⟩))
            exact absurd (by rw [htgt]) hsome
        | some f =>
            refine .call_next (.enter_opt (getTargetFrame_path host c₁ (fun _ => ?_) fun hnone => ?_))
            · exact .block_next (swapIn_path ..) (.block_last enlistPgnNode_path)
            · rw [htgt] at hnone
              exact absurd hnone (by simp)

theorem pgGetval_path (host : Host) (c : Caller) (addr : ℕ) :
    Path Locking.pgGetval (pgGetvalTrace host c addr) .next := by
  have hpage := pgGetpage_path host c (pgnOfIntAddr addr)
  rw [pgGetvalTrace]
  split
  · exact .call_ret (.block_next hpage (.block_ret .ret))
  · exact .call_next (.block_next hpage (.block_skip (.block_last (syscall_path ..))))

theorem pgSetval_path (host : Host) (c : Caller) (addr : ℕ) (value : Byte) :
    Path Locking.pgSetval (pgSetvalTrace host c addr value) .next := by
  have hpage := pgGetpage_path host c (pgnOfIntAddr addr)
  rw [pgSetvalTrace]
  split
  · exact .call_ret (.block_next hpage (.block_ret .ret))
  · exact .call_next (.block_next hpage (.block_skip (.block_last (syscall_path ..))))

theorem read_path (host : Host) (c : Caller) (rgid offset : ℕ) :
    Path Locking.read (readTrace host c rgid offset) .next := by
  rw [readTrace]
  split
  · exact .call_ret (.block_ret .ret)
  · exact .call_next (.block_skip (.block_skip (.block_skip (.block_skip (.block_last
      (pgGetval_path ..))))))

theorem write_path (host : Host) (c : Caller) (rgid offset : ℕ) (value : Byte) :
    Path Locking.write (writeTrace host c rgid offset value) .next := by
  rw [writeTrace]
  split
  · exact .call_ret (.block_ret .ret)
  · split
    · exact .call_ret (.block_skip (.block_lock (.block_ret (.block_unlock (.block_last .ret)))))
    · exact .call_next (.block_skip (.block_lock (.block_skip (.block_skip (.block_skip (.block_next
        (pgSetval_path ..) (.block_last (.unlock _))))))))

/-! ## Kernel memory -/

def kmallocLoopTrace (host : Host) (rgid : ℕ) : (n i : ℕ) → Krnl → LockTrace
  | 0, _, _ => []
  | n + 1, i, krnl =>
    memphyGetFreefpTrace krnl.mram ++
      match memphyGetFreefp krnl.mram with
      | none => []
      | some (fpn, mram) =>
        match getPtePtr host krnl.mm (kmallocPgn rgid i) true with
        | (none, _) => []
        | (some pte, mm) =>
          match pteSetFpn host mm (kmallocPgn rgid i) fpn with
          | (0, mm) =>
            kmallocLoopTrace host rgid n (i + 1) { krnl with mram := mram, mm := mm.setPresent pte }
          | (_, _) => []

def kmallocTrace (host : Host) (c : Caller) (rgid size : ℕ) : LockTrace :=
  if size = 0 then [] else kmallocLoopTrace host rgid (kmallocNumPages size) 0 c.krnl

def libkmemCachePoolCreateTrace (host : Host) (c : Caller) (size align cachePoolId : ℕ) : LockTrace :=
  if size = 0 ∨ align = 0 ∨ size < align then []
  else if pagingMaxKcachePools ≤ cachePoolId then []
  else kmallocTrace host { c with krnl := c.krnl.withKcpooltbl } cachePoolId size

def readKernelMemTrace (host : Host) (c : Caller) (rgid offset : ℕ) : LockTrace :=
  match c.krnl.mm.resolve rgid offset with
  | none => []
  | some vaddr =>
    match kernelFrame host c.krnl vaddr with
    | (none, _) => []
    | (some _, krnl) => memphyReadTrace krnl.mram

def writeUserMemTrace (host : Host) (c : Caller) (rgid offset : ℕ) : LockTrace :=
  match c.mm.resolve rgid offset with
  | none => []
  | some vaddr =>
    pgGetpageTrace host c (addrOfInt (vaddr >>> 12)) ++
      match pgGetpage host c (addrOfInt (vaddr >>> 12)) with
      | (none, _) => []
      | (some _, c) => memphyReadTrace c.krnl.mram

def copyLoopTrace (host : Host) (source destination offset : ℕ) : (n i : ℕ) → Caller → LockTrace
  | 0, _, _ => []
  | n + 1, i, c =>
    readKernelMemTrace host c source (uint32 (offset + i)) ++
      match readKernelMem host c source (uint32 (offset + i)) with
      | (none, _) => []
      | (some tempData, c) =>
        writeUserMemTrace host c destination (uint32 (offset + i)) ++
          match writeUserMem host c destination (uint32 (offset + i)) tempData with
          | (0, c) => copyLoopTrace host source destination offset n (i + 1) c
          | (_, _) => []

def libkmemCopyTrace (host : Host) (c : Caller) (source destination offset size : ℕ) : LockTrace :=
  if size = 0 then [] else copyLoopTrace host source destination offset size 0 c

/-- The loop of `__kmalloc` runs to its end or returns in between. -/
theorem kmallocLoop_path (host : Host) (rgid n i : ℕ) (krnl : Krnl) :
    let body := Stmt.loop (block [Locking.memphyGetFreefp, opt .ret, .choice (opt .ret) .ret])
    Path body (kmallocLoopTrace host rgid n i krnl) .next ∨
      Path body (kmallocLoopTrace host rgid n i krnl) .ret := by
  intro body
  induction n generalizing i krnl with
  | zero => exact Or.inl .loopEnd
  | succ n ih =>
      rw [kmallocLoopTrace]
      have hget := memphyGetFreefp_path krnl.mram
      split
      · exact Or.inr (.loopRet (.block_next hget (.block_ret .ret)))
      · split
        · exact Or.inr (.loopRet (.block_next hget (.block_skip (.block_last (.right .ret)))))
        · split
          · next mm _ =>
              have hround : Path (block [Locking.memphyGetFreefp, opt .ret, .choice (opt .ret) .ret])
                  (memphyGetFreefpTrace krnl.mram) .next := by
                rw [← List.append_nil (memphyGetFreefpTrace krnl.mram)]
                exact .block_next hget (.block_skip (.block_last (.left .skip_opt)))
              exact (ih _ _).imp (.loopNext hround) (.loopNext hround)
          · exact Or.inr (.loopRet (.block_next hget (.block_skip (.block_last (.left
              (.enter_opt .ret))))))

theorem kmalloc_path (host : Host) (c : Caller) (rgid size : ℕ) :
    Path Locking.kmalloc (kmallocTrace host c rgid size) .next := by
  rw [kmallocTrace]
  split
  · exact .call_ret (.block_ret .ret)
  · rcases kmallocLoop_path host rgid (kmallocNumPages size) 0 c.krnl with hnext | hret
    · exact .call_next (.block_skip (.block_last hnext))
    · exact .call_ret (.block_skip (.block_last hret))

theorem libkmemMalloc_path (host : Host) (c : Caller) (rgid size : ℕ) :
    Path Locking.libkmemMalloc (kmallocTrace host c rgid size) .next := by
  have hkmalloc := kmalloc_path host c rgid size
  have hend : Path (block [Locking.kmalloc, opt Stmt.ret]) (kmallocTrace host c rgid size ++ []) .next :=
    .block_next hkmalloc (.block_last .skip_opt)
  rw [List.append_nil] at hend
  exact .call_next (.block_skip (.block_skip hend))

theorem libkmemCachePoolCreate_path (host : Host) (c : Caller) (size align cachePoolId : ℕ) :
    Path Locking.libkmemCachePoolCreate (libkmemCachePoolCreateTrace host c size align cachePoolId)
      .next := by
  rw [libkmemCachePoolCreateTrace]
  split
  · exact .call_ret (.block_ret .ret)
  · split
    · exact .call_ret (.block_skip (.block_skip (.block_skip (.block_ret .ret))))
    · have hkmalloc := kmalloc_path host { c with krnl := c.krnl.withKcpooltbl } cachePoolId size
      rw [← List.append_nil (kmallocTrace ..)]
      exact .call_next (.block_skip (.block_skip (.block_skip (.block_skip (.block_next hkmalloc
        (.block_last .skip_opt))))))

theorem readKernelMem_path (host : Host) (c : Caller) (rgid offset : ℕ) :
    Path Locking.readKernelMem (readKernelMemTrace host c rgid offset) .next := by
  rw [readKernelMemTrace]
  split
  · exact .call_ret (.block_ret .ret)
  · split
    · exact .call_ret (.block_ret .ret)
    · next krnl _ =>
        rw [← List.append_nil (memphyReadTrace krnl.mram)]
        exact .call_next (.block_skip (.block_skip (.block_skip (.block_skip (.block_skip
          (.block_skip (.block_skip (.block_next (memphyRead_path _) (.block_last .skip_opt)))))))))

theorem writeUserMem_path (host : Host) (c : Caller) (rgid offset : ℕ) :
    Path Locking.writeUserMem (writeUserMemTrace host c rgid offset) .next := by
  rw [writeUserMemTrace]
  split
  · exact .call_ret (.block_ret .ret)
  · next vaddr _ =>
      have hpage := pgGetpage_path host c (addrOfInt (vaddr >>> 12))
      split
      · exact .call_ret (.block_skip (.block_skip (.block_skip (.block_skip (.block_skip
          (.block_skip (.block_next hpage (.block_ret .ret))))))))
      · next c₁ _ =>
          rw [← List.append_nil (memphyReadTrace c₁.krnl.mram)]
          exact .call_next (.block_skip (.block_skip (.block_skip (.block_skip (.block_skip
            (.block_skip (.block_next hpage (.block_skip (.block_next (memphyRead_path _)
              (.block_last .skip_opt))))))))))

theorem copyLoop_path (host : Host) (source destination offset n i : ℕ) (c : Caller) :
    let body := Stmt.loop (block [Locking.readKernelMem, opt .ret, Locking.writeUserMem, opt .ret])
    Path body (copyLoopTrace host source destination offset n i c) .next ∨
      Path body (copyLoopTrace host source destination offset n i c) .ret := by
  intro body
  induction n generalizing i c with
  | zero => exact Or.inl .loopEnd
  | succ n ih =>
      rw [copyLoopTrace]
      have hread := readKernelMem_path host c source (uint32 (offset + i))
      split
      · exact Or.inr (.loopRet (.block_next hread (.block_ret .ret)))
      · next b c₁ _ =>
          have hwrite := writeUserMem_path host c₁ destination (uint32 (offset + i))
          split
          · have hround : Path (block [Locking.readKernelMem, opt .ret, Locking.writeUserMem, opt .ret])
                (readKernelMemTrace host c source (uint32 (offset + i)) ++
                  (writeUserMemTrace host c₁ destination (uint32 (offset + i)) ++ [])) .next :=
              .block_next hread (.block_skip (.block_next hwrite (.block_last .skip_opt)))
            rw [List.append_nil] at hround
            rw [← List.append_assoc]
            exact (ih _ _).imp (.loopNext hround) (.loopNext hround)
          · exact Or.inr (.loopRet (.block_next hread (.block_skip (.block_next hwrite
              (.block_last (.enter_opt .ret))))))

theorem libkmemCopy_path (host : Host) (c : Caller) (source destination offset size : ℕ) :
    Path Locking.libkmemCopy (libkmemCopyTrace host c source destination offset size) .next := by
  rw [libkmemCopyTrace]
  split
  · exact .call_ret (.block_ret .ret)
  · rcases copyLoop_path host source destination offset size 0 c with hnext | hret
    · exact .call_next (.block_skip (.block_last hnext))
    · exact .call_ret (.block_skip (.block_last hret))

/-! ## Instructions -/

/-- The lock trace of an instruction. -/
def Inst.lockTrace (host : Host) (c : Caller) (ins : Inst) : LockTrace :=
  match ins.opcode with
  | .calc => []
  | .alloc => allocTrace host c (uint32 ins.arg1) ins.arg0
  | .free => freeTrace (uint32 ins.arg0)
  | .read => readTrace host c (uint32 ins.arg0) ins.arg1
  | .write => writeTrace host c (uint32 ins.arg1) ins.arg2 (byteOfAddr ins.arg0)
  | .kmalloc => kmallocTrace host c (uint32 ins.arg1) (uint32 ins.arg0)
  | .kmemCacheCreate =>
    libkmemCachePoolCreateTrace host c (uint32 ins.arg0) (uint32 ins.arg1) (uint32 ins.arg2)
  | .kmemCacheAlloc => []
  | .copyFromUser | .copyToUser =>
    libkmemCopyTrace host c (uint32 ins.arg0) (uint32 ins.arg1) (uint32 ins.arg2) (uint32 ins.arg3)
  | .syscall => syscallTrace host c (uint32 ins.arg0) ⟨ins.arg1, ins.arg2, ins.arg3⟩

/-- Every instruction, in every state, takes a path through its operation. -/
theorem Inst.lockTrace_path (host : Host) (c : Caller) (ins : Inst) :
    Path ins.opcode.locking (ins.lockTrace host c) .next := by
  have hopt : ∀ {s : Stmt Lock} {t : LockTrace}, Path s t .next → Path (block [s, opt .ret]) t .next := by
    intro s t h
    rw [← List.append_nil t]
    exact .block_next h (.block_last .skip_opt)
  rw [Inst.lockTrace]
  cases ins.opcode with
  | alloc => exact .call_next (hopt (alloc_path ..))
  | free => exact .call_next (hopt (free_path _))
  | read => exact .call_next (read_path ..)
  | write => exact .call_next (hopt (write_path ..))
  | kmalloc => exact libkmemMalloc_path ..
  | kmemCacheCreate => exact libkmemCachePoolCreate_path ..
  | kmemCacheAlloc => exact .call_ret (.block_ret .ret)
  | copyFromUser | copyToUser => exact libkmemCopy_path ..
  | syscall => exact .call_next (syscall_path ..)
  | _ => exact .skip

/-- **Lock discipline.** On all paths through an operation of the memory library, and on those its
    instructions take in any state with any operands, locks are taken in the order `mmvm_lock`,
    `vm_Lock`, `mm64_lock`, `memphy_lock`, none twice, and all are released in the end. So threads that
    run such operations never all wait for a lock. -/
theorem lock_discipline :
    (∀ (op : InsOpcode) (t : LockTrace), Path op.locking t .next → Disciplined t) ∧
    (∀ (host : Host) (c : Caller) (ins : Inst), Path ins.opcode.locking (ins.lockTrace host c) .next) ∧
    ∀ (ι : Type) [DecidableEq ι] (s : ι → Thread Lock),
      Reaches {t | ∃ op : InsOpcode, Path op.locking t .next} s → ¬ Deadlock s := by
  have hruns : ∀ (op : InsOpcode) (t : LockTrace), Path op.locking t .next → Runs [] t [] :=
    fun op t h => disciplined_of_check h op.locking_check
  refine ⟨fun op t h => (hruns op t h).disciplined, fun host c ins => ins.lockTrace_path host c, ?_⟩
  intro ι _ s h
  refine no_deadlock ?_ h
  rintro t ⟨op, hpath⟩
  exact hruns op t hpath

/-- ALLOC of one page goes down through all four locks. -/
theorem lock_discipline_alloc :
    let c : Caller := ⟨freshProc [] 0, (twoProcs 2 1 fun _ => []).krnl⟩
    let ins : Inst := ⟨.alloc, 300, 0, 0, 0⟩
    ins.lockTrace generousHost c =
      locked .mmvm (locked .vm (locked .mm64 (locked .memphy []) ++ locked .mm64 [] ++
        locked .mm64 [] ++ locked .mm64 [])) ∧
    Disciplined (ins.lockTrace generousHost c) := by
  intro c ins
  have hpath := lock_discipline.2.1 generousHost c ins
  exact ⟨by decide +kernel, lock_discipline.1 _ _ hpath⟩

end Ossim
