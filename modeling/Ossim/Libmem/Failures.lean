import Ossim.Libmem.Proofs
import Ossim.Vm.Mapping

set_option autoImplicit false

/-! # Requests that fail

Growing an area, allocating a region and making a page resident can all fail half way, when RAM or swap
is full or a table is refused. This module says for each of them when a failure is reported and leaves
the state as it was. The clean-up of `inc_vma_limit` is never reached, as the status it looks at is an
`addr_t`; `__alloc` does not look at the status of its system call; `pg_getpage` takes its victim off
the queue before it knows of a frame of swap. -/

namespace Ossim

/-- The pages that `sz` bytes take, without wrap-around. -/
def numPages (sz : ℕ) : ℕ := (sz + 4095) / 4096

/-- The `n` pages from `mapstart` on can be mapped: there are frames for them, and the tables that their
    entries need are granted. -/
def Caller.CanMap (host : Host) (c : Caller) (mapstart n : ℕ) : Prop :=
  FramesGranted host c.krnl.mram n ∧
  TablesGranted host (vmapPages host mapstart n 0) c.mm.pgd.missing c.mm.stats.levelWrites

theorem Caller.canMap_zero (host : Host) (c : Caller) (mapstart : ℕ) : c.CanMap host mapstart 0 :=
  ⟨⟨Nat.zero_le _, fun _ hk => absurd hk (Nat.not_lt_zero _)⟩, trivial⟩

/-! ## Growing an area -/

/-- `inc_vma_limit` reports failure and has changed nothing that counts. -/
structure RolledBack (c : Caller) (r : ℤ × Caller) : Prop where
  status : r.1 = -1
  vmEnd : r.2.mm.mmap.vmEnd = c.mm.mmap.vmEnd
  sbrk : r.2.mm.mmap.sbrk = c.mm.mmap.sbrk
  entry : r.2.mm.entry = c.mm.entry
  fifoPgn : r.2.mm.fifoPgn = c.mm.fifoPgn
  free : ∀ f, f ∈ r.2.krnl.mram.freeFpList ↔ f ∈ c.krnl.mram.freeFpList

section Grow

variable (host : Host) (c : Caller) (vmaid : ℤ) (incSz : ℕ)

/-- **Rolling back.** When the pages of the growth cannot be mapped, `inc_vma_limit` fails and leaves
    everything as it was exactly if it is refused before the limits are raised. -/
theorem incVmaLimit_rolledBack_iff
    (hfail : c.krnl.mram.freeFpList.length < numPages incSz ∨
      ¬ c.CanMap host c.mm.mmap.vmEnd (numPages incSz)) :
    RolledBack c (incVmaLimit host c vmaid incSz) ↔
      0 < vmaid ∨ addrT (c.mm.mmap.vmEnd + paging64PageAlignsz incSz) ≤ c.mm.mmap.vmEnd := by
  have hsz : incSz ≠ 0 := by
    rintro rfl
    rcases hfail with hshort | hmap
    · exact absurd hshort (by simp [numPages])
    · exact hmap (c.canMap_zero host _)
  constructor
  · intro hback
    by_contra hno
    rw [not_or, not_lt, not_le] at hno
    have hst := hback.status
    rw [incVmaLimit_grows host c hno.1 hsz hno.2] at hst
    exact absurd hst (by simp)
  · intro href
    rw [incVmaLimit_refused host c hsz href]
    exact ⟨rfl, rfl, rfl, rfl, rfl, fun _ => Iff.rfl⟩

end Grow

/-- There is no area of number 1. -/
theorem incVmaLimit_rolledBack_noArea :
    (freshCaller 0 1).krnl.mram.freeFpList.length < numPages 4096 ∧
      RolledBack (freshCaller 0 1) (incVmaLimit generousHost (freshCaller 0 1) 1 4096) :=
  ⟨by decide, (incVmaLimit_rolledBack_iff generousHost (freshCaller 0 1) 1 4096
    (Or.inl (by decide))).2 (Or.inl (by decide))⟩

/-- RAM without a free frame: the area grows by a page that is nowhere. -/
theorem not_incVmaLimit_rolledBack_noFrame :
    (freshCaller 0 1).krnl.mram.freeFpList.length < numPages 4096 ∧
      ¬ RolledBack (freshCaller 0 1) (incVmaLimit generousHost (freshCaller 0 1) 0 4096) := by
  refine ⟨by decide, fun hback => ?_⟩
  have hst : (incVmaLimit generousHost (freshCaller 0 1) 0 4096).1 = 0 := by decide +kernel
  rw [hback.status] at hst
  exact absurd hst (by decide)

/-! ## Allocating -/

/-- The request that `__alloc` makes for `size` bytes can map the pages it is for. One for `2 ^ 20` pages
    or more is cut to 32 bits and asks for fewer. -/
def Caller.CanGrow (host : Host) (c : Caller) (size : ℕ) : Prop :=
  numPages size = 0 ∨
  c.proc.registered = true ∧ numPages size < 2 ^ 20 ∧
  c.mm.mmap.vmEnd < addrT (c.mm.mmap.vmEnd + numPages size * 4096) ∧
  c.CanMap host c.mm.mmap.vmEnd (numPages size)

/-- What a failed `__alloc` is to leave alone. -/
structure AllocUntouched (c c' : Caller) : Prop where
  symrgtbl : c'.mm.symrgtbl = c.mm.symrgtbl
  vmFreergList : c'.mm.mmap.vmFreergList = c.mm.mmap.vmFreergList
  sbrk : c'.mm.mmap.sbrk = c.mm.mmap.sbrk
  vmEnd : c'.mm.mmap.vmEnd = c.mm.mmap.vmEnd
  regs : c'.proc.regs = c.proc.regs

/-- `__alloc` reports that memory is exhausted, and reports success for regions in RAM only. -/
structure ReportsExhaustion (host : Host) (c : Caller) (rgid size : ℕ) (r : ℤ × ℕ × Caller) : Prop where
  fails : ¬ c.CanGrow host size → r.1 = -1 ∧ AllocUntouched c r.2.2
  present : r.1 = 0 → ∀ a, (r.2.2.mm.symrgtbl rgid).rgStart ≤ a → a < (r.2.2.mm.symrgtbl rgid).rgEnd →
    r.2.2.mm.present host (a >>> 12) = true

/-- The rounding of `__alloc` and `inc_vma_limit` for a number of pages that is an `int`. -/
theorem alignsz_of_numPages {size : ℕ} (h : numPages size < 2 ^ 31) :
    paging64PageAlignsz size = numPages size * 4096 ∧
    (cInt (paging64PageAlignsz size / paging64Pagesz)).toNat = numPages size := by
  have hsize : size < 2 ^ 63 := by
    rw [numPages] at h
    omega
  have hal : paging64PageAlignsz size = numPages size * 4096 := paging64PageAlignsz_eq hsize
  refine ⟨hal, ?_⟩
  rw [hal, paging64Pagesz, Nat.mul_div_cancel _ (by decide), cInt_of_lt h, Int.toNat_natCast]

section Alloc

variable (host : Host) (c : Caller) {rgid size : ℕ}

/-- Whether the pages that can be mapped are: what is present after the request. -/
theorem incVmaLimit_present_iff (hpages : numPages size ≠ 0) (hlt : numPages size < 2 ^ 31)
    (hgrow : c.mm.mmap.vmEnd < addrT (c.mm.mmap.vmEnd + numPages size * 4096))
    (hmap : c.CanMap host c.mm.mmap.vmEnd (numPages size)) (q : PageIx) :
    (incVmaLimit host c 0 (paging64PageAlignsz size)).2.mm.presentAt q ↔
      c.mm.presentAt q ∨ q ∈ vmapPages host c.mm.mmap.vmEnd (numPages size) 0 := by
  obtain ⟨hal, hnum⟩ := alignsz_of_numPages hlt
  have hself : paging64PageAlignsz (paging64PageAlignsz size) = paging64PageAlignsz size := by
    rw [hal, paging64PageAlignsz_eq (by omega)]
    omega
  rw [incVmaLimit_grows host c (le_refl 0) (by omega) (by rw [hself, hal]; exact hgrow), hself, hnum]
  obtain ⟨frames, mram, hlen, -, heq⟩ := vmMapRam_of_frames host
    (c.setMm (c.mm.setArea (addrT (c.mm.mmap.vmEnd + paging64PageAlignsz size))
      (addrT (c.mm.mmap.sbrk + paging64PageAlignsz size)))) c.mm.mmap.vmEnd (numPages size) hmap.1
  rw [heq]
  have hok := (vmapPagesLoop_ok_iff host c.mm.mmap.vmEnd 0 hlen
    (c.mm.setArea (addrT (c.mm.mmap.vmEnd + paging64PageAlignsz size))
      (addrT (c.mm.mmap.sbrk + paging64PageAlignsz size)))).2 hmap.2
  constructor
  · intro hafter
    by_cases hq : q ∈ vmapPages host c.mm.mmap.vmEnd (numPages size) 0
    · exact Or.inr hq
    · left
      rw [Mm.presentAt] at hafter ⊢
      rwa [Caller.setMm_mm, Caller.setMm_mm, vmapPagesLoop_entry_of_not_mem host _ _ _ _ _ hq] at hafter
  · rintro (hbefore | hq)
    · exact vmapPagesLoop_keeps_present host _ _ _ _ hbefore
    · exact vmapPagesLoop_present host _ hlen hok hq

/-- If the request can map its pages, these are what `__alloc` adds to the present ones. -/
theorem alloc_present_iff (hid : rgid < pagingMaxSymtblSz) (hmiss : (getFreeVmrgArea c.mm size).1 ≠ 0)
    (hgrow : c.CanGrow host size) (q : PageIx) :
    (alloc host c rgid size).2.2.mm.presentAt q ↔
      c.mm.presentAt q ∨ q ∈ vmapPages host c.mm.mmap.vmEnd (numPages size) 0 := by
  rw [alloc_at_brk host c rgid hid hmiss]
  simp only [Caller.setMm_mm]
  rw [Mm.presentAt, (allocAtBrk_rest ..).1, ← Mm.presentAt]
  by_cases hpages : numPages size = 0
  · -- nothing is asked for
    have hsize : size = 0 := by
      rw [numPages] at hpages
      omega
    subst hsize
    have hnone : (incVmaLimit host (c.setMm (getFreeVmrgArea c.mm 0).2.2) 0
        (uint32 (paging64PageAlignsz 0))).2 = c.setMm (getFreeVmrgArea c.mm 0).2.2 := by
      rw [incVmaLimit, if_pos (by decide)]
    rw [hnone, ite_self, hpages]
    exact (or_iff_left (by simp [vmapPages])).symm
  · obtain ⟨hreg, hlt, hend, hmap⟩ := hgrow.resolve_left hpages
    have hlt' : numPages size < 2 ^ 31 := by omega
    -- the request is not cut
    have hcut : uint32 (paging64PageAlignsz size) = paging64PageAlignsz size := by
      rw [(alignsz_of_numPages hlt').1]
      exact uint32_of_lt (by omega)
    rw [if_pos hreg, hcut]
    exact incVmaLimit_present_iff host (c.setMm (getFreeVmrgArea c.mm size).2.2) hpages hlt' hend hmap q

/-- **Exhaustion.** At the break `__alloc` always reports success. It does as it should exactly if its
    request can map the pages it is for, and the region has no other pages but present ones. -/
theorem alloc_reportsExhaustion_iff (hid : rgid < pagingMaxSymtblSz)
    (hmiss : (getFreeVmrgArea c.mm size).1 ≠ 0) :
    ReportsExhaustion host c rgid size (alloc host c rgid size) ↔
      c.CanGrow host size ∧
      ∀ a, addrOfInt c.mm.mmap.sbrk ≤ a → a < addrT (addrOfInt c.mm.mmap.sbrk + size) →
        c.mm.present host (a >>> 12) = true ∨
          pageIx host (a >>> 12) ∈ vmapPages host c.mm.mmap.vmEnd (numPages size) 0 := by
  have hst : (alloc host c rgid size).1 = 0 := by rw [alloc_at_brk host c rgid hid hmiss]
  have hrg : (alloc host c rgid size).2.2.mm.symrgtbl rgid =
      ⟨addrOfInt c.mm.mmap.sbrk, addrT (addrOfInt c.mm.mmap.sbrk + size)⟩ := by
    rw [alloc_at_brk host c rgid hid hmiss]
    exact allocAtBrk_symrgtbl_self ..
  constructor
  · intro hreports
    have hgrow : c.CanGrow host size := by
      by_contra hno
      have hfails := (hreports.fails hno).1
      rw [hst] at hfails
      exact absurd hfails (by decide)
    refine ⟨hgrow, fun a hlo hhi => ?_⟩
    have hpresent := hreports.present hst a (by rw [hrg]; exact hlo) (by rw [hrg]; exact hhi)
    exact (alloc_present_iff host c hid hmiss hgrow _).1 hpresent
  · rintro ⟨hgrow, hregion⟩
    refine ⟨fun hno => absurd hgrow hno, fun _ a hlo hhi => ?_⟩
    rw [hrg] at hlo hhi
    exact (alloc_present_iff host c hid hmiss hgrow _).2 (hregion a hlo hhi)

end Alloc

/-- One page on a RAM of one frame. -/
theorem alloc_reportsExhaustion_page :
    ReportsExhaustion generousHost (freshCaller 1 1) 0 300
      (alloc generousHost (freshCaller 1 1) 0 300) := by
  have hmiss : (getFreeVmrgArea (freshCaller 1 1).mm 300).1 ≠ 0 := by decide
  refine (alloc_reportsExhaustion_iff generousHost (freshCaller 1 1) (by decide) hmiss).2 ⟨?_, ?_⟩
  · exact Or.inr ⟨rfl, by decide, by decide, ⟨by decide, fun _ _ => rfl⟩,
      .of_calloc generousHost_generous.1 ..⟩
  · intro a _ ha
    have hend : addrT (addrOfInt (freshCaller 1 1).mm.mmap.sbrk + 300) = 300 := by decide
    rw [hend] at ha
    have hpage : a >>> 12 = 0 := by
      rw [Nat.shiftRight_eq_div_pow]
      omega
    rw [hpage]
    exact Or.inr (by decide)

/-- RAM is full, and 300 bytes are reported as allocated. -/
theorem not_alloc_reportsExhaustion_noFrame :
    ¬ (freshCaller 0 1).CanGrow generousHost 300 ∧ (getFreeVmrgArea (freshCaller 0 1).mm 300).1 ≠ 0 ∧
      ¬ ReportsExhaustion generousHost (freshCaller 0 1) 0 300
        (alloc generousHost (freshCaller 0 1) 0 300) := by
  have hno : ¬ (freshCaller 0 1).CanGrow generousHost 300 := by
    rintro (hpages | ⟨-, -, -, hmap⟩)
    · exact absurd hpages (by decide)
    · exact absurd hmap.1.1 (by decide)
  refine ⟨hno, by decide, fun h => ?_⟩
  have hst : (alloc generousHost (freshCaller 0 1) 0 300).1 = 0 := by decide +kernel
  rw [(h.fails hno).1] at hst
  exact absurd hst (by decide)

/-! ## Making a page resident -/

/-- What a failed page access is to leave alone: the page tables, the queues and the devices. -/
structure PagesUntouched (c c' : Caller) : Prop where
  entry : c'.mm.entry = c.mm.entry
  fifoPgn : c'.mm.fifoPgn = c.mm.fifoPgn
  krnl_entry : c'.krnl.mm.entry = c.krnl.mm.entry
  krnl_fifoPgn : c'.krnl.mm.fifoPgn = c.krnl.mm.fifoPgn
  mram : c'.krnl.mram = c.krnl.mram
  activeMswp : c'.krnl.activeMswp = c.krnl.activeMswp

/-- There is a frame for the page, or no page to take one from: `pg_getpage` does not come to look for a
    frame of swap in vain. -/
def Caller.FaultServed (host : Host) (c : Caller) (pgn : ℕ) : Prop :=
  c.mm.present host pgn = true ∨ c.krnl.mram.freeFpList ≠ [] ∨ c.mm.fifoPgn = [] ∨
    c.krnl.activeMswp.freeFpList ≠ []

section Fault

variable (host : Host) (c : Caller)

theorem stealFrame_cases :
    c.mm.fifoPgn = [] ∧ stealFrame host c = (none, c) ∨
    c.mm.fifoPgn ≠ [] ∧ c.krnl.activeMswp.freeFpList = [] ∧ (stealFrame host c).1 = none ∧
      (stealFrame host c).2.mm.fifoPgn = c.mm.fifoPgn.dropLast ∨
    c.krnl.activeMswp.freeFpList ≠ [] ∧ (stealFrame host c).1.isSome = true := by
  rw [stealFrame, findVictimPage]
  cases hlast : c.mm.fifoPgn.getLast? with
  | none => exact Or.inl ⟨List.getLast?_eq_none_iff.1 hlast, rfl⟩
  | some vicpgn =>
      have hne : c.mm.fifoPgn ≠ [] := fun he => by simp [he] at hlast
      simp only [Caller.setMm_krnl]
      cases hget : memphyGetFreefp c.krnl.activeMswp with
      | none =>
          refine Or.inr (Or.inl ⟨hne, memphyGetFreefp_eq_none.1 hget, rfl, ?_⟩)
          exact pteGetEntry_fifoPgn ..
      | some r =>
          obtain ⟨rest, hcons, -⟩ := memphyGetFreefp_eq_some hget
          refine Or.inr (Or.inr ⟨fun he => ?_, rfl⟩)
          rw [he] at hcons
          exact absurd hcons (by simp)

/-- **Failed accesses.** Whenever `pg_getpage` fails the state is as before, in those states exactly in
    which it does not fail for want of a frame of swap. There the victim is no longer queued. -/
theorem pgGetpage_untouched_iff (pgn : ℕ) :
    ((pgGetpage host c pgn).1 = none → PagesUntouched c (pgGetpage host c pgn).2) ↔
      c.FaultServed host pgn := by
  have hc : PagesUntouched c (c.setMm (pteGetEntry host c.mm pgn).2) :=
    ⟨pteGetEntry_entry .., pteGetEntry_fifoPgn .., rfl, rfl, rfl, rfl⟩
  have hfst : pagingPagePresent (pteGetEntry host c.mm pgn).1 = c.mm.present host pgn := by
    rw [pteGetEntry_fst, Mm.present]
  rw [pgGetpage, hfst, Caller.FaultServed]
  cases hpres : c.mm.present host pgn with
  | true => simp
  | false =>
      simp only [Bool.false_eq_true, if_false, false_or]
      rw [getTargetFrame]
      simp only [Caller.setMm_krnl]
      cases hget : memphyGetFreefp c.krnl.mram with
      | some r =>
          obtain ⟨rest, hcons, -⟩ := memphyGetFreefp_eq_some hget
          simp [hcons]
      | none =>
          have hfree := memphyGetFreefp_eq_none.1 hget
          simp only [hfree, ne_eq, not_true_eq_false, false_or]
          have hsteal := stealFrame_cases host (c.setMm (pteGetEntry host c.mm pgn).2)
          generalize stealFrame host (c.setMm (pteGetEntry host c.mm pgn).2) = r at hsteal
          obtain ⟨frame, c'⟩ := r
          simp only [Caller.setMm_mm, Caller.setMm_krnl, pteGetEntry_fifoPgn] at hsteal
          rcases hsteal with ⟨hnil, heq⟩ | ⟨hne, hswap, hnone, hdrop⟩ | ⟨hswap, hsome⟩
          · obtain ⟨rfl, rfl⟩ := Prod.mk.inj heq
            exact iff_of_true (fun _ => hc) (Or.inl hnil)
          · subst hnone
            refine iff_of_false (fun h => ?_) (by simp [hne, hswap])
            -- the list is shorter by its last page
            have hfifo := (h rfl).fifoPgn
            have hlen := congrArg List.length (hdrop.symm.trans hfifo)
            have hpos := List.length_pos_iff.2 hne
            rw [List.length_dropLast] at hlen
            omega
          · obtain ⟨f, rfl⟩ := Option.isSome_iff_exists.1 hsome
            simp [hswap]

end Fault

/-- A process with page 0 in the only frame of RAM, on a swap device without frames. -/
def fullCaller : Caller := (alloc generousHost (freshCaller 1 0) 0 300).2.2

/-- An access to page 1 fails, and page 0 is no longer a page that can be evicted. -/
theorem not_pgGetpage_untouched_fullSwap :
    ¬ ((pgGetpage generousHost fullCaller 1).1 = none →
      PagesUntouched fullCaller (pgGetpage generousHost fullCaller 1).2) := by
  intro h
  have hfifo := (h (by decide +kernel)).fifoPgn
  have hbefore : fullCaller.mm.fifoPgn = [0] := by decide +kernel
  have hafter : (pgGetpage generousHost fullCaller 1).2.mm.fifoPgn = [] := by decide +kernel
  rw [hbefore, hafter] at hfifo
  exact absurd hfifo (by simp)

end Ossim
