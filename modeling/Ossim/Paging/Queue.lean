import Ossim.Lib.Recency
import Ossim.Paging.Kernel

set_option autoImplicit false

/-! # The queue of resident pages

Pages enter `fifo_pgn` on two paths, the mapping of a new range and a page fault, and leave it when
`find_victim_page` takes the last one. The pages an operation makes resident are collected along the
code (`..Loads`, the latest first); with those of all operations before, they are the history the queue
is ordered by. -/

namespace Ossim

open Pager

/-! ## Pages made resident -/

/-- The page, if it was made resident between two states of its address space. -/
def madeResident (host : Host) (mm mm' : Mm) (pgn : ℕ) : List ℕ :=
  if mm.present host pgn = false ∧ mm'.present host pgn = true then [pgn] else []

/-- The pages the loop of `vmap_page_range` makes resident. -/
def vmapPagesLoads (host : Host) (addr : ℕ) : (n pgit : ℕ) → List ℕ → Mm → List ℕ
  | 0, _, _, _ => []
  | _ + 1, _, [], _ => []
  | n + 1, pgit, fpn :: fpit, mm =>
    let pgn := addrT (addr + addrOfInt (pgit * paging64Pagesz)) >>> 12
    match pteSetFpn host mm pgn fpn with
    | (0, mm') =>
      vmapPagesLoads host addr n (pgit + 1) fpit (enlistPgnNode mm' pgn) ++ madeResident host mm mm' pgn
    | (_, mm') => madeResident host mm mm' pgn

def vmMapRamLoads (host : Host) (c : Caller) (mapstart incpgnum : ℕ) : List ℕ :=
  match allocPagesRange host c.krnl.mram incpgnum with
  | (0, frmLst, _) => vmapPagesLoads host mapstart incpgnum 0 frmLst c.mm
  | _ => []

def incVmaLimitLoads (host : Host) (c : Caller) (vmaid : ℤ) (incSz : ℕ) : List ℕ :=
  if incSz = 0 then []
  else match getVmaByNum c.mm vmaid with
  | none => []
  | some curVma =>
    let incAmt := paging64PageAlignsz incSz
    let newEnd := addrT (curVma.vmEnd + incAmt)
    if validateOverlapVmArea c.mm vmaid curVma.vmEnd newEnd < 0 then []
    else
      vmMapRamLoads host (c.setMm (c.mm.setArea newEnd (addrT (curVma.sbrk + incSz)))) curVma.vmEnd
        (cInt (incAmt / paging64Pagesz)).toNat

def allocLoads (host : Host) (c : Caller) (rgid size : ℕ) : List ℕ :=
  if pagingMaxSymtblSz ≤ rgid then []
  else
    match getFreeVmrgArea c.mm size with
    | (0, _, _) => []
    | (_, _, mm) =>
      -- the system call finds the caller if it is registered
      if c.proc.registered then
        incVmaLimitLoads host (c.setMm mm) 0 (uint32 (paging64PageAlignsz size))
      else []

/-- A call of `pg_getpage`: the caller as it is then, and the page. -/
abbrev PageCall := Caller × ℕ

/-- The pages a sequence of calls makes resident. -/
def callLoads (host : Host) : List PageCall → List ℕ
  | [] => []
  | (c, pgn) :: calls => callLoads host calls ++ madeResident host c.mm (pgGetpage host c pgn).2.mm pgn

/-- The call of `__read` and `__write`. -/
def accessCalls (c : Caller) (rgid offset : ℕ) : List PageCall :=
  match c.mm.resolve rgid offset with
  | none => []
  | some vaddr => [(c, pgnOfIntAddr vaddr)]

/-- The call of `__read_user_mem` and `__write_user_mem`. -/
def userMemCalls (c : Caller) (rgid offset : ℕ) : List PageCall :=
  match c.mm.resolve rgid offset with
  | none => []
  | some vaddr => [(c, addrOfInt (vaddr >>> 12))]

/-- The calls of the copies. -/
def copyCalls (host : Host) (source destination offset : ℕ) : (n i : ℕ) → Caller → List PageCall
  | 0, _, _ => []
  | n + 1, i, c =>
    match readKernelMem host c source (uint32 (offset + i)) with
    | (none, _) => []
    | (some tempData, c) =>
      userMemCalls c destination (uint32 (offset + i)) ++
        match writeUserMem host c destination (uint32 (offset + i)) tempData with
        | (0, c) => copyCalls host source destination offset n (i + 1) c
        | (_, _) => []

/-! ## The queue and its victims -/

/-- The queue has each page once, only resident ones, and the most recent first. -/
structure QueueOk (host : Host) (loads : List ℕ) (mm : Mm) : Prop where
  nodup : mm.fifoPgn.Nodup
  present : ∀ pgn ∈ mm.fifoPgn, mm.present host pgn = true
  order : Recency.Ordered loads mm.fifoPgn

/-- The victim `pg_getpage` chooses: it asks for one if its page is not resident and no frame of RAM is
    free. -/
def pgVictim (host : Host) (call : PageCall) : Option ℕ :=
  let r := pteGetEntry host call.1.mm call.2
  if pagingPagePresent r.1 then none
  else match memphyGetFreefp call.1.krnl.mram with
    | some _ => none
    | none => (findVictimPage r.2).map Prod.fst

/-- A victim is a resident page, the one on the list that has been resident longest, and not the page
    that is asked for. -/
structure VictimOk (host : Host) (loads : List ℕ) (call : PageCall) (vicpgn : ℕ) : Prop where
  present : call.1.mm.present host vicpgn = true
  listed : vicpgn ∈ call.1.mm.fifoPgn
  oldest : ∀ pgn ∈ call.1.mm.fifoPgn, pgn ≠ vicpgn → loads.idxOf pgn < loads.idxOf vicpgn
  ne_page : vicpgn ≠ call.2

theorem madeResident_of_absent {host : Host} {mm mm' : Mm} {pgn : ℕ} (h : mm.present host pgn = false)
    (h' : mm'.present host pgn = true) : madeResident host mm mm' pgn = [pgn] := if_pos ⟨h, h'⟩

theorem madeResident_cases (host : Host) (mm mm' : Mm) (pgn : ℕ) :
    madeResident host mm mm' pgn = [] ∨
      madeResident host mm mm' pgn = [pgn] ∧ mm.present host pgn = false := by
  unfold madeResident
  split
  · next h => exact Or.inr ⟨rfl, h.1⟩
  · exact Or.inl rfl

/-- What the queue is about: entries and list. -/
structure SamePages (mm mm' : Mm) : Prop where
  entry : mm'.entry = mm.entry
  fifoPgn : mm'.fifoPgn = mm.fifoPgn

theorem SamePages.refl (mm : Mm) : SamePages mm mm := ⟨rfl, rfl⟩

theorem SamePages.present {host : Host} {mm mm' : Mm} (h : SamePages mm mm') (pgn : ℕ) :
    mm'.present host pgn = mm.present host pgn := by
  unfold Mm.present
  rw [h.entry]

theorem QueueOk.congr {host : Host} {loads : List ℕ} {mm mm' : Mm} (h : QueueOk host loads mm)
    (hsame : SamePages mm mm') : QueueOk host loads mm' := by
  refine ⟨?_, ?_, ?_⟩
  · rw [hsame.fifoPgn]
    exact h.nodup
  · rw [hsame.fifoPgn]
    intro pgn hpgn
    rw [hsame.present]
    exact h.present pgn hpgn
  · rw [hsame.fifoPgn]
    exact h.order

/-- A page that is not resident is not on the list. -/
theorem QueueOk.not_mem {host : Host} {loads : List ℕ} {mm : Mm} (h : QueueOk host loads mm) {pgn : ℕ}
    (habs : mm.present host pgn = false) : pgn ∉ mm.fifoPgn := fun hmem => by
  rw [h.present pgn hmem] at habs
  exact absurd habs (by simp)

theorem PagesOk.queueOk {host : Host} {registered : Bool} {mm : Mm} {loads : List ℕ}
    (h : PagesOk host registered mm) (horder : Recency.Ordered loads mm.fifoPgn) :
    QueueOk host loads mm := by
  refine ⟨h.fifo_nodup, fun pgn hpgn => ?_, horder⟩
  obtain ⟨f, hf⟩ := h.fifo_ram pgn hpgn
  exact (present_of_residence hf).1

/-- **Victims.** The page `find_victim_page` takes is resident, the oldest one listed, and another one
    than the page that is asked for. -/
theorem QueueOk.victimOk {host : Host} {loads : List ℕ} {call : PageCall} {vicpgn : ℕ}
    (h : QueueOk host loads call.1.mm) (hvic : pgVictim host call = some vicpgn) :
    VictimOk host loads call vicpgn := by
  simp only [pgVictim] at hvic
  split at hvic
  · exact absurd hvic (by simp)
  · next habs =>
      split at hvic
      · exact absurd hvic (by simp)
      · obtain ⟨⟨vic, mm⟩, hfind, rfl⟩ := Option.map_eq_some_iff.1 hvic
        have hfifo := (findVictimPage_eq_some hfind).1
        rw [pteGetEntry_fifoPgn] at hfifo
        have hmem : vic ∈ call.1.mm.fifoPgn := by
          rw [hfifo]
          exact List.mem_append_right _ (List.mem_singleton_self vic)
        have hpres := h.present vic hmem
        refine ⟨hpres, hmem, fun pgn hpgn hne => ?_, ?_⟩
        · have horder := h.order
          rw [hfifo] at horder hpgn
          exact horder.last hpgn hne
        · rintro rfl
          rw [pteGetEntry_fst] at habs
          exact habs hpres

/-! ## A page fault -/

section Fault

variable {host : Host} {exact : Prop} {R S : Set ℕ} {pid : ℕ} {others : ℕ → PageIx → Residence}
variable {c : Caller}

theorem syscall_swp_mm (host : Host) (c : Caller) (vicfpn swpfpn : ℕ) :
    (syscall host c 17 ⟨3, vicfpn, swpfpn⟩).2.2.mm = c.mm := by
  rw [syscall_swp]
  split
  · exact Caller.setMswp_mm ..
  · rfl

/-- Getting a frame takes at most a page off the list. -/
theorem getTargetFrame_fifoPgn (host : Host) (c : Caller) :
    (getTargetFrame host c).2.mm.fifoPgn.Sublist c.mm.fifoPgn := by
  rw [getTargetFrame]
  split
  · exact List.Sublist.refl _
  · rw [stealFrame]
    split
    · exact List.Sublist.refl _
    · next hvic =>
        obtain ⟨-, rfl⟩ := findVictimPage_eq_some hvic
        simp only
        split
        · simpa using List.dropLast_sublist _
        · rw [Caller.setMm_mm, pteSetSwap_fifoPgn, syscall_swp_mm]
          simpa using List.dropLast_sublist _

/-- A fault puts its page at the front of what is left of the list, if it gets a frame. -/
theorem pgGetpage_fifoPgn (host : Host) (c : Caller) (pgn : ℕ) :
    let r := pgGetpage host c pgn
    ∃ l, l.Sublist c.mm.fifoPgn ∧ (r.2.mm.fifoPgn = l ∨
      c.mm.present host pgn = false ∧ r.1.isSome = true ∧ r.2.mm.fifoPgn = pgn :: l) := by
  simp only [pgGetpage]
  split
  · exact ⟨_, List.Sublist.refl _, Or.inl (by simp)⟩
  · next habs =>
      have habs' : c.mm.present host pgn = false := by
        rw [pteGetEntry_fst] at habs
        exact Bool.eq_false_iff.2 habs
      have hsub := getTargetFrame_fifoPgn host (c.setMm (pteGetEntry host c.mm pgn).2)
      rw [Caller.setMm_mm, pteGetEntry_fifoPgn] at hsub
      generalize getTargetFrame host (c.setMm (pteGetEntry host c.mm pgn).2) = r at *
      obtain ⟨fpn, c₁⟩ := r
      refine ⟨c₁.mm.fifoPgn, hsub, ?_⟩
      cases fpn with
      | none => exact Or.inl rfl
      | some f =>
          refine Or.inr ⟨habs', rfl, ?_⟩
          simp [installPage, enlistPgnNode, pteSetFpn, swapIn_mm]

/-- **A fault** keeps the queue in order. -/
theorem pgGetpage_queue (hc : ∀ n, host.calloc n = true) (hp : PoolsOk R S)
    (h : MemInv host exact R S pid others c) {pgn : ℕ} (hpgn : pgn < 2 ^ 45)
    (hend : c.proc.registered = true → pgn * 4096 < c.mm.mmap.vmEnd) {loads : List ℕ}
    (hq : QueueOk host loads c.mm) :
    QueueOk host (madeResident host c.mm (pgGetpage host c pgn).2.mm pgn ++ loads)
      (pgGetpage host c pgn).2.mm := by
  obtain ⟨h', -, -, hres⟩ := pgGetpage_spec hc hp h hpgn hend
  obtain ⟨l, hsub, hfifo⟩ := pgGetpage_fifoPgn host c pgn
  refine h'.pages.queueOk ?_
  have hold := hq.order.sublist hsub
  rcases hfifo with hfifo | ⟨habs, hsome, hfifo⟩
  · rw [hfifo]
    rcases madeResident_cases host c.mm (pgGetpage host c pgn).2.mm pgn with hnil | ⟨hone, habs⟩
    · rw [hnil]
      exact hold
    · rw [hone]
      exact hold.event fun hmem => hq.not_mem habs (hsub.subset hmem)
  · obtain ⟨f, hf⟩ := Option.isSome_iff_exists.1 hsome
    rw [hfifo, madeResident_of_absent habs (present_of_residence (hres f hf)).1]
    exact hold.cons fun hmem => hq.not_mem habs (hsub.subset hmem)

end Fault

/-! ## Mapping a range -/

section Map

variable {host : Host} {exact : Prop} {R S : Set ℕ} {pid : ℕ} {others : ℕ → PageIx → Residence}
variable {c : Caller}

/-- The loop puts each of its pages at the front; none of them was resident. -/
theorem vmapPagesLoop_fifoPgn (hc : ∀ n, host.calloc n = true) {a n : ℕ} (pgit : ℕ) {fpit : List ℕ}
    {mm : Mm} (hlt : a + pgit + n < 2 ^ 19) (habs : ∀ k < n, mm.present host (a + pgit + k) = false) :
    (vmapPagesLoop host (a * 4096) n pgit fpit mm).2.fifoPgn =
      vmapPagesLoads host (a * 4096) n pgit fpit mm ++ mm.fifoPgn := by
  induction n generalizing pgit fpit mm with
  | zero => simp [vmapPagesLoop, vmapPagesLoads]
  | succ n ih =>
      cases fpit with
      | nil => simp [vmapPagesLoop, vmapPagesLoads]
      | cons f rest =>
          have hpage : addrT (a * 4096 + addrOfInt (pgit * paging64Pagesz)) >>> 12 = a + pgit := by
            rw [paging64Pagesz, addrOfInt_of_lt (by omega), addrT_of_lt (by omega),
              Nat.shiftRight_eq_div_pow]
            omega
          have hst := pteSetFpn_fst host mm (a + pgit) hc f
          have hentry := pteSetFpn_entry host mm (a + pgit) hc f
          have hfifo := pteSetFpn_fifoPgn host mm (a + pgit) f
          rw [vmapPagesLoop, vmapPagesLoads]
          simp only [hpage]
          generalize pteSetFpn host mm (a + pgit) f = r at *
          obtain ⟨st, mm₁⟩ := r
          simp only at hst hentry hfifo
          subst hst
          have hfirst : mm.present host (a + pgit) = false := habs 0 (by omega)
          have hpres : mm₁.present host (a + pgit) = true := by
            rw [Mm.present, hentry, Function.update_self, present_pteFpnWord]
          -- the pages still to be mapped are other pages
          have hrest : ∀ k < n, (enlistPgnNode mm₁ (a + pgit)).present host (a + (pgit + 1) + k) =
              false := by
            intro k hk
            have hne : pageIx host (a + pgit + (k + 1)) ≠ pageIx host (a + pgit) := fun he => by
              have hinj := pageIx_inj host (by omega) (by omega) he
              omega
            have habs' := habs (k + 1) (by omega)
            rw [show a + (pgit + 1) + k = a + pgit + (k + 1) by omega]
            change mm₁.present host _ = false
            rw [Mm.present, hentry, Function.update_of_ne hne]
            exact habs'
          simp only
          rw [@ih (pgit + 1) rest (enlistPgnNode mm₁ (a + pgit)) (by omega) hrest,
            madeResident_of_absent hfirst hpres]
          simp [enlistPgnNode, hfifo]

theorem vmMapRam_fifoPgn (hc : ∀ n, host.calloc n = true) {a n : ℕ} (hlt : a + n < 2 ^ 19)
    (habs : ∀ k < n, c.mm.present host (a + k) = false) :
    (vmMapRam host c (a * 4096) n).2.mm.fifoPgn =
      vmMapRamLoads host c (a * 4096) n ++ c.mm.fifoPgn := by
  rw [vmMapRam_snd, vmMapRamLoads]
  generalize allocPagesRange host c.krnl.mram n = r
  obtain ⟨st, frames, mram⟩ := r
  by_cases hst : st = 0
  · subst hst
    simp only [if_true, Caller.setMm_mm, vmapPageRange_snd]
    exact vmapPagesLoop_fifoPgn hc 0 hlt habs
  · simp only [if_neg hst, Caller.setMram_mm]
    split
    · next heq => exact absurd (Prod.mk.inj heq).1 hst
    · rfl

/-- What growing an area makes resident: nothing if it is refused. -/
theorem incVmaLimitLoads_cases (host : Host) (c : Caller) (vmaid : ℤ) (incSz : ℕ) :
    (incVmaLimit host c vmaid incSz).2 = c ∧ incVmaLimitLoads host c vmaid incSz = [] ∨
    c.mm.mmap.vmEnd < addrT (c.mm.mmap.vmEnd + paging64PageAlignsz incSz) ∧
    incVmaLimitLoads host c vmaid incSz =
      vmMapRamLoads host
        (c.setMm (c.mm.setArea (addrT (c.mm.mmap.vmEnd + paging64PageAlignsz incSz))
          (addrT (c.mm.mmap.sbrk + incSz))))
        c.mm.mmap.vmEnd (cInt (paging64PageAlignsz incSz / paging64Pagesz)).toNat ∧
    (incVmaLimit host c vmaid incSz).2 =
      (vmMapRam host
        (c.setMm (c.mm.setArea (addrT (c.mm.mmap.vmEnd + paging64PageAlignsz incSz))
          (addrT (c.mm.mmap.sbrk + incSz))))
        c.mm.mmap.vmEnd (cInt (paging64PageAlignsz incSz / paging64Pagesz)).toNat).2 := by
  rw [incVmaLimit, incVmaLimitLoads]
  split
  · exact Or.inl ⟨rfl, rfl⟩
  · by_cases hvma : 0 < vmaid
    · simp [getVmaByNum, hvma]
    · simp only [getVmaByNum, if_neg hvma, Nat.not_lt_zero, if_false]
      split
      · exact Or.inl ⟨rfl, rfl⟩
      · next hval =>
          refine Or.inr ⟨?_, rfl, rfl⟩
          by_contra hle
          rw [validateOverlapVmArea, if_pos (by omega)] at hval
          omega

/-- Growing an area puts the new pages at the front. -/
theorem incVmaLimit_fifoPgn (hc : ∀ n, host.calloc n = true) (h : MemInv host exact R S pid others c)
    (hreg : c.proc.registered = true) {vmaid : ℤ} {incSz : ℕ}
    (hlt : (incVmaLimit host c vmaid incSz).2.mm.mmap.vmEnd < 2 ^ 31) :
    (incVmaLimit host c vmaid incSz).2.mm.fifoPgn =
      incVmaLimitLoads host c vmaid incSz ++ c.mm.fifoPgn := by
  rcases incVmaLimitLoads_cases host c vmaid incSz with ⟨heq, hnil⟩ | ⟨hgrow, hloads, heq⟩
  · rw [heq, hnil]
    rfl
  · rw [heq, (vmMapRam_same host ..).2.2.1] at hlt
    change addrT (c.mm.mmap.vmEnd + paging64PageAlignsz incSz) < 2 ^ 31 at hlt
    obtain ⟨a, n, haddr, hn, -, hpages, hnone⟩ := h.grow_pages hreg hgrow hlt
    have habs : ∀ k < n, c.mm.present host (a + k) = false := fun k hk =>
      (absent_of_residence (hnone k hk)).1
    rw [heq, hloads, hn, haddr]
    exact vmMapRam_fifoPgn hc hpages habs

/-- `__alloc` puts the pages it maps at the front. -/
theorem alloc_fifoPgn (hc : ∀ n, host.calloc n = true) (h : MemInv host exact R S pid others c)
    (rgid : ℕ) {size : ℕ} (hsize : size < 2 ^ 31)
    (hlt : c.proc.registered = true → (alloc host c rgid size).2.2.mm.mmap.vmEnd < 2 ^ 31) :
    (alloc host c rgid size).2.2.mm.fifoPgn = allocLoads host c rgid size ++ c.mm.fifoPgn := by
  by_cases hid : pagingMaxSymtblSz ≤ rgid
  · rw [alloc, allocLoads, if_pos hid, if_pos hid]
    rfl
  have hserved := alloc_cases host c rgid (Nat.lt_of_not_le hid) hsize
  have hint : addrOfInt size = size := addrOfInt_of_lt hsize
  have hheap := h.regions.heapEnd_le
  obtain ⟨-, hcases⟩ := freergFirstFit_spec hsize hheap c.mm.mmap.vmFreergList
    (fun r hr => h.regions.mem r (List.mem_append_right _ hr))
  rcases hcases with ⟨hno, hsame⟩ | ⟨hlen, hend, -⟩
  · have hmm : c.setMm { c.mm with mmap := { c.mm.mmap with
        vmFreergList := c.mm.mmap.vmFreergList } } = c := rfl
    simp only [hno, hsame, if_true, hmm] at hserved
    simp only [allocLoads, if_neg hid, getFreeVmrgArea, hint, hno, hsame, if_true, hmm,
      uint32_alignsz hsize]
    rw [hserved] at hlt ⊢
    simp only [Caller.setMm_mm, (allocAtBrk_rest ..).2, (allocAtBrk_area ..).2] at hlt ⊢
    cases hreg : c.proc.registered with
    | false => rfl
    | true =>
        simp only [hreg, if_true, forall_const] at hlt ⊢
        exact incVmaLimit_fifoPgn hc h hreg hlt
  · have hne : (freergFirstFit size c.mm.mmap.vmFreergList).1.rgStart ≠ noRg.rgStart := by
      change _ ≠ 2 ^ 64 - 1
      omega
    simp only [if_neg hne] at hserved
    simp only [allocLoads, if_neg hid, getFreeVmrgArea, hint, if_neg hne]
    rw [hserved]
    rfl

end Map

/-! ## Operations on user memory -/

/-- An operation, from `c` to the last caller, that amounts to a sequence of calls: between them the
    entries and the list stay. -/
inductive Calls (host : Host) (exact : Prop) (R S : Set ℕ) (pid : ℕ)
    (others : ℕ → PageIx → Residence) : Caller → List PageCall → Caller → Prop where
  | done {c c' : Caller} (hsame : SamePages c.mm c'.mm) :
      Calls host exact R S pid others c [] c'
  | call {c c₁ c' : Caller} {pgn : ℕ} {calls : List PageCall} (hsame : SamePages c.mm c₁.mm)
      (hinv : MemInv host exact R S pid others c₁) (hpgn : pgn < 2 ^ 45)
      (hend : c₁.proc.registered = true → pgn * 4096 < c₁.mm.mmap.vmEnd)
      (hrest : Calls host exact R S pid others (pgGetpage host c₁ pgn).2 calls c') :
      Calls host exact R S pid others c ((c₁, pgn) :: calls) c'

section Calls

variable {host : Host} {exact : Prop} {R S : Set ℕ} {pid : ℕ} {others : ℕ → PageIx → Residence}
variable {c c' : Caller} {calls : List PageCall}

theorem Calls.of_same {c₀ : Caller} (hsame : SamePages c₀.mm c.mm)
    (h : Calls host exact R S pid others c calls c') :
    Calls host exact R S pid others c₀ calls c' := by
  have htrans : ∀ {mm : Mm}, SamePages c.mm mm → SamePages c₀.mm mm := fun h' =>
    ⟨h'.entry.trans hsame.entry, h'.fifoPgn.trans hsame.fifoPgn⟩
  cases h with
  | done h' => exact .done (htrans h')
  | call h' hinv hpgn hend hrest => exact .call (htrans h') hinv hpgn hend hrest

theorem Calls.append {c'' : Caller} {calls' : List PageCall}
    (h : Calls host exact R S pid others c calls c')
    (h' : Calls host exact R S pid others c' calls' c'') :
    Calls host exact R S pid others c (calls ++ calls') c'' := by
  induction h with
  | done hsame => exact h'.of_same hsame
  | call hsame hinv hpgn hend _ ih => exact .call hsame hinv hpgn hend (ih h')

/-- **Calls** keep the queue in order, and each finds a proper victim. The induction is on the calls,
    the history growing with each. -/
theorem Calls.queue (hc : ∀ n, host.calloc n = true) (hp : PoolsOk R S)
    (h : Calls host exact R S pid others c calls c') {loads : List ℕ} (hq : QueueOk host loads c.mm) :
    QueueOk host (callLoads host calls ++ loads) c'.mm ∧
    ∀ pre call post, calls = pre ++ call :: post → ∀ vicpgn, pgVictim host call = some vicpgn →
      VictimOk host (callLoads host pre ++ loads) call vicpgn := by
  induction h generalizing loads with
  | done hsame => exact ⟨hq.congr hsame, fun pre call post heq => absurd heq (by simp)⟩
  | @call _ c₁ c' pgn calls hsame hinv hpgn hend hrest ih =>
      have hq₁ := hq.congr hsame
      obtain ⟨hq', hvic⟩ := ih (pgGetpage_queue hc hp hinv hpgn hend hq₁)
      refine ⟨?_, fun pre call post heq vicpgn hcall => ?_⟩
      · rw [callLoads, List.append_assoc]
        exact hq'
      · cases pre with
        | nil =>
            obtain ⟨rfl, -⟩ := List.cons.inj heq
            exact hq₁.victimOk hcall
        | cons first pre =>
            obtain ⟨rfl, htail⟩ := List.cons.inj heq
            rw [callLoads, List.append_assoc]
            exact hvic pre call post htail vicpgn hcall

/-- The page of an address a process can name. -/
theorem Calls.of_addr (h : MemInv host exact R S pid others c) {rgid off vaddr : ℕ}
    (hres : c.mm.resolve rgid off = some vaddr)
    (hrest : SamePages (pgGetpage host c (vaddr / 4096)).2.mm c'.mm) :
    Calls host exact R S pid others c [(c, vaddr / 4096)] c' := by
  have hv := resolve_lt h.regions hres
  have hle := h.regions.heapEnd_le
  refine .call (.refl _) h (by omega) (fun hreg => ?_) (.done hrest)
  have hbrk := (h.regions.brk hreg).1
  rw [heapEnd, if_pos hreg] at hv
  omega

theorem read_calls (h : MemInv host exact R S pid others c) (rgid off : ℕ) :
    Calls host exact R S pid others c (accessCalls c rgid off) (read host c rgid off).2 := by
  rw [read, accessCalls]
  cases hres : c.mm.resolve rgid off with
  | none => exact .done (.refl _)
  | some vaddr =>
      have hv := resolve_lt_int h hres
      simp only [pgGetval, pgnOfIntAddr_eq hv]
      refine .of_addr h hres ?_
      generalize pgGetpage host c (vaddr / 4096) = r
      obtain ⟨fpn, c₁⟩ := r
      cases fpn with
      | none => exact .refl _
      | some f =>
          simp only [syscall_ioRead]
          split <;> exact .refl _

theorem write_calls (h : MemInv host exact R S pid others c) (rgid off : ℕ) (v : Byte) :
    Calls host exact R S pid others c (accessCalls c rgid off) (write host c rgid off v).2 := by
  rw [write, accessCalls]
  cases hres : c.mm.resolve rgid off with
  | none => exact .done (.refl _)
  | some vaddr =>
      have hv := resolve_lt_int h hres
      simp only [pgSetval, pgnOfIntAddr_eq hv]
      refine .of_addr h hres ?_
      generalize pgGetpage host c (vaddr / 4096) = r
      obtain ⟨fpn, c₁⟩ := r
      cases fpn with
      | none => exact .refl _
      | some f =>
          simp only [syscall_ioWrite]
          split <;> exact .refl _

theorem readUserMem_calls (h : MemInv host exact R S pid others c) (rgid off : ℕ) :
    Calls host exact R S pid others c (userMemCalls c rgid off) (readUserMem host c rgid off).2 := by
  rw [readUserMem, userMemCalls]
  cases hres : c.mm.resolve rgid off with
  | none => exact .done (.refl _)
  | some vaddr =>
      have hv := resolve_lt_int h hres
      simp only [addrOfInt_shift hv]
      refine .of_addr h hres ?_
      generalize pgGetpage host c (vaddr / 4096) = r
      obtain ⟨fpn, c₁⟩ := r
      cases fpn <;> exact .refl _

theorem writeUserMem_calls (h : MemInv host exact R S pid others c) (rgid off : ℕ) (v : Byte) :
    Calls host exact R S pid others c (userMemCalls c rgid off) (writeUserMem host c rgid off v).2 := by
  rw [writeUserMem, userMemCalls]
  cases hres : c.mm.resolve rgid off with
  | none => exact .done (.refl _)
  | some vaddr =>
      have hv := resolve_lt_int h hres
      simp only [addrOfInt_shift hv]
      refine .of_addr h hres ?_
      generalize pgGetpage host c (vaddr / 4096) = r
      obtain ⟨fpn, c₁⟩ := r
      cases fpn <;> exact .refl _

/-- Reading memory of the kernel is none of the caller's pages. -/
theorem readKernelMem_samePages (c : Caller) (rgid off : ℕ) :
    SamePages c.mm (readKernelMem host c rgid off).2.mm := by
  rw [readKernelMem]
  split
  · exact .refl _
  · split <;> exact .refl _

theorem copyLoop_calls (hc : ∀ n, host.calloc n = true) (hp : PoolsOk R S)
    (h : MemInv host exact R S pid others c) (source destination offset n i : ℕ) :
    Calls host exact R S pid others c (copyCalls host source destination offset n i c)
      (copyLoop host source destination offset n i c).2 := by
  induction n generalizing c i with
  | zero => exact .done (.refl _)
  | succ n ih =>
      obtain ⟨h₁, -⟩ := readKernelMem_spec h source (uint32 (offset + i))
      have hsame := @readKernelMem_samePages host c source (uint32 (offset + i))
      rw [copyLoop, copyCalls]
      generalize readKernelMem host c source (uint32 (offset + i)) = r at *
      obtain ⟨byte, c₁⟩ := r
      cases byte with
      | none => exact .done hsame
      | some b =>
          obtain ⟨h₂, -⟩ := writeUserMem_spec hc hp h₁ destination (uint32 (offset + i)) b
          have hcalls := (writeUserMem_calls h₁ destination (uint32 (offset + i)) b).of_same hsame
          simp only
          generalize writeUserMem host c₁ destination (uint32 (offset + i)) b = r at *
          obtain ⟨st, c₂⟩ := r
          refine hcalls.append ?_
          by_cases hst : st = 0
          · subst hst
            exact ih h₂ (i + 1)
          · simp only
            exact .done (.refl _)

theorem libkmemCopy_calls (hc : ∀ n, host.calloc n = true) (hp : PoolsOk R S)
    (h : MemInv host exact R S pid others c) (source destination offset size : ℕ) :
    Calls host exact R S pid others c (copyCalls host source destination offset size 0 c)
      (libkmemCopy host c source destination offset size).2 := by
  rw [libkmemCopy]
  split
  · next hsize =>
      rw [hsize]
      exact .done (.refl _)
  · exact copyLoop_calls hc hp h source destination offset size 0

end Calls

end Ossim
