import Ossim.Memphy.Proofs
import Ossim.PageTable.Proofs
import Ossim.Vm

set_option autoImplicit false

/-! # What growing an area leaves alone

`inc_vma_limit` changes the limits of the area, its page table and FIFO list, and the free frames of
RAM. The mapping it asks for may fail for want of frames or directories: that makes no difference to
the limits. -/

namespace Ossim

/-! ## Address spaces -/

section Vmap

variable (host : Host) (addr : ℕ)

theorem vmapPagesLoop_rest (n pgit : ℕ) (fpit : List ℕ) (mm : Mm) :
    (vmapPagesLoop host addr n pgit fpit mm).2.mmap = mm.mmap ∧
    (vmapPagesLoop host addr n pgit fpit mm).2.symrgtbl = mm.symrgtbl := by
  induction n generalizing pgit fpit mm with
  | zero => exact ⟨rfl, rfl⟩
  | succ n ih =>
      cases fpit with
      | nil => exact ⟨rfl, rfl⟩
      | cons fpn fpit =>
          rw [vmapPagesLoop]
          have hpte := pteUpdate_rest host mm (addrT (addr + addrOfInt (pgit * paging64Pagesz)) >>> 12)
            (fun pte => pteFpnWord pte fpn)
          rw [← pteSetFpn] at hpte
          generalize pteSetFpn host mm _ fpn = r at hpte
          obtain ⟨st, mm'⟩ := r
          simp only at hpte ⊢
          split
          · next heq =>
              cases heq
              obtain ⟨hmmap, hsym⟩ := ih (pgit + 1) fpit (enlistPgnNode mm' _)
              exact ⟨hmmap.trans hpte.1, hsym.trans hpte.2.1⟩
          · next heq =>
              cases heq
              exact ⟨hpte.1, hpte.2.1⟩

theorem vmapPageRange_snd (pgnum : ℕ) (frames : List ℕ) (mm : Mm) :
    (vmapPageRange host mm addr pgnum frames).2 = (vmapPagesLoop host addr pgnum 0 frames mm).2 := by
  rw [vmapPageRange]
  split <;> next heq => rw [heq]

@[simp]
theorem vmapPageRange_mmap (mm : Mm) (pgnum : ℕ) (frames : List ℕ) :
    (vmapPageRange host mm addr pgnum frames).2.mmap = mm.mmap := by
  rw [vmapPageRange_snd]
  exact (vmapPagesLoop_rest host addr pgnum 0 frames mm).1

@[simp]
theorem vmapPageRange_symrgtbl (mm : Mm) (pgnum : ℕ) (frames : List ℕ) :
    (vmapPageRange host mm addr pgnum frames).2.symrgtbl = mm.symrgtbl := by
  rw [vmapPageRange_snd]
  exact (vmapPagesLoop_rest host addr pgnum 0 frames mm).2

end Vmap

/-! ## Callers -/

/-- What operations on user memory leave alone: the process but for its address space, and the
    kernel's address space but for its counters. -/
structure SameButUser (c c' : Caller) : Prop where
  proc : c'.proc = { c.proc with mm := c'.mm }
  krnl_mm : c'.krnl.mm = { c.krnl.mm with stats := c'.krnl.mm.stats }

namespace SameButUser

theorem refl (c : Caller) : SameButUser c c := ⟨rfl, rfl⟩

theorem trans {c c' c'' : Caller} (h : SameButUser c c') (h' : SameButUser c' c'') :
    SameButUser c c'' := by
  refine ⟨?_, ?_⟩
  · rw [h'.proc, h.proc]
  · rw [h'.krnl_mm, h.krnl_mm]

theorem registered {c c' : Caller} (h : SameButUser c c') :
    c'.proc.registered = c.proc.registered := by
  rw [h.proc]

theorem krnl_entry {c c' : Caller} (h : SameButUser c c') :
    c'.krnl.mm.entry = c.krnl.mm.entry := by
  rw [h.krnl_mm]
  rfl

theorem kcpooltbl {c c' : Caller} (h : SameButUser c c') :
    c'.krnl.mm.kcpooltbl = c.krnl.mm.kcpooltbl := by
  rw [h.krnl_mm]

theorem setMm (c : Caller) (mm : Mm) : SameButUser c (c.setMm mm) := ⟨rfl, rfl⟩

theorem setMram (c : Caller) (mp : Memphy) : SameButUser c (c.setMram mp) := ⟨rfl, rfl⟩

theorem setMswp (c : Caller) (mp : Memphy) : SameButUser c (c.setMswp mp) := ⟨rfl, rfl⟩

end SameButUser

/-- What demand paging leaves alone besides: the area of the process and its regions. -/
structure SameButPages (c c' : Caller) : Prop extends SameButUser c c' where
  mmap : c'.mm.mmap = c.mm.mmap
  symrgtbl : c'.mm.symrgtbl = c.mm.symrgtbl

namespace SameButPages

theorem refl (c : Caller) : SameButPages c c := ⟨.refl c, rfl, rfl⟩

theorem trans {c c' c'' : Caller} (h : SameButPages c c') (h' : SameButPages c' c'') :
    SameButPages c c'' :=
  ⟨h.toSameButUser.trans h'.toSameButUser, h'.mmap.trans h.mmap, h'.symrgtbl.trans h.symrgtbl⟩

theorem setMm (c : Caller) {mm : Mm} (hmmap : mm.mmap = c.mm.mmap) (hsym : mm.symrgtbl = c.mm.symrgtbl) :
    SameButPages c (c.setMm mm) := ⟨.setMm c mm, hmmap, hsym⟩

theorem setMram (c : Caller) (mp : Memphy) : SameButPages c (c.setMram mp) :=
  ⟨.setMram c mp, rfl, rfl⟩

theorem setMswp (c : Caller) (mp : Memphy) : SameButPages c (c.setMswp mp) :=
  ⟨.setMswp c mp, rfl, rfl⟩

end SameButPages

section Callers

variable (host : Host)

/-- `vm_map_ram` in terms of the frames it was given: it never reaches its own clean-up. -/
theorem vmMapRam_snd (c : Caller) (mapstart n : ℕ) :
    (vmMapRam host c mapstart n).2 =
      if (allocPagesRange host c.krnl.mram n).1 = 0 then
        (c.setMram (allocPagesRange host c.krnl.mram n).2.2).setMm
          (vmapPageRange host c.mm mapstart n (allocPagesRange host c.krnl.mram n).2.1).2
      else c.setMram (allocPagesRange host c.krnl.mram n).2.2 := by
  rw [vmMapRam]
  generalize allocPagesRange host c.krnl.mram n = r
  obtain ⟨st, frames, mram⟩ := r
  split
  · next heq =>
      cases heq
      simp
  · next hne heq =>
      cases heq
      simp only at hne ⊢
      rw [if_neg hne]

theorem vmMapRam_same (c : Caller) (mapstart n : ℕ) :
    SameButUser c (vmMapRam host c mapstart n).2 ∧
    (vmMapRam host c mapstart n).2.krnl.activeMswp = c.krnl.activeMswp ∧
    (vmMapRam host c mapstart n).2.mm.mmap = c.mm.mmap ∧
    (vmMapRam host c mapstart n).2.mm.symrgtbl = c.mm.symrgtbl := by
  rw [vmMapRam_snd]
  split
  · exact ⟨⟨rfl, rfl⟩, rfl, by simp, by simp⟩
  · exact ⟨⟨rfl, rfl⟩, rfl, rfl, rfl⟩

section Grow

variable {vmaid : ℤ} {incSz : ℕ}

/-- There is no such area, or its end would not move up: growing is refused. -/
theorem incVmaLimit_refused (c : Caller) (hsz : incSz ≠ 0)
    (h : 0 < vmaid ∨ addrT (c.mm.mmap.vmEnd + paging64PageAlignsz incSz) ≤ c.mm.mmap.vmEnd) :
    incVmaLimit host c vmaid incSz = (-1, c) := by
  by_cases hvma : 0 < vmaid
  · simp [incVmaLimit, hsz, getVmaByNum, hvma]
  · have hval : validateOverlapVmArea c.mm vmaid c.mm.mmap.vmEnd
        (addrT (c.mm.mmap.vmEnd + paging64PageAlignsz incSz)) = -1 := by
      rw [validateOverlapVmArea, if_pos (h.resolve_left hvma)]
    simp [incVmaLimit, hsz, getVmaByNum, hval, hvma]

/-- Otherwise the new limits are set, the mapping is tried, and success is reported: an `addr_t` is
    never negative. -/
theorem incVmaLimit_grows (c : Caller) (hvma : vmaid ≤ 0) (hsz : incSz ≠ 0)
    (hlt : c.mm.mmap.vmEnd < addrT (c.mm.mmap.vmEnd + paging64PageAlignsz incSz)) :
    incVmaLimit host c vmaid incSz =
      (0, (vmMapRam host
        (c.setMm (c.mm.setArea (addrT (c.mm.mmap.vmEnd + paging64PageAlignsz incSz))
          (addrT (c.mm.mmap.sbrk + incSz))))
        c.mm.mmap.vmEnd (cInt (paging64PageAlignsz incSz / paging64Pagesz)).toNat).2) := by
  have hval : validateOverlapVmArea c.mm vmaid c.mm.mmap.vmEnd
      (addrT (c.mm.mmap.vmEnd + paging64PageAlignsz incSz)) = 0 := by
    rw [validateOverlapVmArea, if_neg (by omega), if_neg (by simp)]
  simp [incVmaLimit, hsz, getVmaByNum, hval, Int.not_lt.2 hvma]

/-- Growing an area: refused, or the new limits are set and the mapping is tried. -/
theorem incVmaLimit_cases (c : Caller) (vmaid : ℤ) (incSz : ℕ) :
    (incVmaLimit host c vmaid incSz).2 = c ∨
    incSz ≠ 0 ∧ vmaid ≤ 0 ∧
    c.mm.mmap.vmEnd < addrT (c.mm.mmap.vmEnd + paging64PageAlignsz incSz) ∧
    (incVmaLimit host c vmaid incSz).2 =
      (vmMapRam host
        (c.setMm (c.mm.setArea (addrT (c.mm.mmap.vmEnd + paging64PageAlignsz incSz))
          (addrT (c.mm.mmap.sbrk + incSz))))
        c.mm.mmap.vmEnd (cInt (paging64PageAlignsz incSz / paging64Pagesz)).toNat).2 := by
  by_cases hsz : incSz = 0
  · left
    rw [incVmaLimit, if_pos hsz]
  · by_cases h : 0 < vmaid ∨
        addrT (c.mm.mmap.vmEnd + paging64PageAlignsz incSz) ≤ c.mm.mmap.vmEnd
    · left
      rw [incVmaLimit_refused host c hsz h]
    · rw [not_or, not_lt, not_le] at h
      right
      refine ⟨hsz, h.1, h.2, ?_⟩
      rw [incVmaLimit_grows host c h.1 hsz h.2]

end Grow

theorem incVmaLimit_same (c : Caller) (vmaid : ℤ) (incSz : ℕ) :
    SameButUser c (incVmaLimit host c vmaid incSz).2 := by
  rcases incVmaLimit_cases host c vmaid incSz with h | ⟨-, -, -, h⟩
  · rw [h]
    exact .refl c
  · rw [h]
    exact (SameButUser.setMm c _).trans (vmMapRam_same host ..).1

end Callers

/-! ## Rounding -/

theorem paging64PageAlignsz_eq {sz : ℕ} (h : sz < 2 ^ 63) :
    paging64PageAlignsz sz = (sz + 4095) / 4096 * 4096 := by
  rw [paging64PageAlignsz, paging64Pagesz, addrT_of_lt (by omega : sz + 4096 - 1 < 2 ^ 64),
    addrT_of_lt (by omega)]
  omega

/-! ## A small machine -/

/-- A process as the loader registers it, before its first instruction. -/
def freshProc (code : List Inst) (prio : ℕ) : Pcb where
  code := code
  regs := fun _ => 0
  pc := 0
  prio := prio
  mm := initMm
  registered := true

/-- A fresh process on a RAM of `n` frames and a swap device of `m`. -/
def freshCaller (n m : ℕ) : Caller where
  proc := freshProc [] 0
  krnl := ⟨pagesDevice n, pagesDevice m, initMm⟩

end Ossim
