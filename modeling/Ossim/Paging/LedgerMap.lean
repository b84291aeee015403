import Ossim.Paging.Ledger
import Ossim.Vm.Mapping

set_option autoImplicit false

/-! # Mapping pages keeps the books

Both ways to map pages that are not asked for one by one, the growth of an area and `__kmalloc`, take a
frame for each page and overwrite its entry. The books stay in order if the entry was empty. -/

namespace Ossim

open Pager

/-- The slots are different ones, and their pages are neither in RAM nor on swap. -/
structure Unmapped (mm : Mm) (ps : List PageIx) : Prop where
  nodup : ps.Nodup
  none : ∀ p ∈ ps, residence (mm.entry p) = .none

theorem Unmapped.cons {mm mm' : Mm} {p : PageIx} {ps : List PageIx} (h : Unmapped mm (p :: ps))
    (hkeep : ∀ q ≠ p, mm'.entry q = mm.entry q) :
    residence (mm.entry p) = .none ∧ Unmapped mm' ps := by
  obtain ⟨hnot, hnodup⟩ := List.nodup_cons.1 h.nodup
  refine ⟨h.none p (List.mem_cons_self ..), hnodup, fun q hq => ?_⟩
  rw [hkeep q fun he => hnot (he ▸ hq)]
  exact h.none q (List.mem_cons_of_mem _ hq)

theorem Unmapped.congr {mm mm' : Mm} {ps : List PageIx} (h : Unmapped mm ps)
    (hentry : mm'.entry = mm.entry) : Unmapped mm' ps := by
  obtain ⟨hnodup, hnone⟩ := h
  exact ⟨hnodup, hentry ▸ hnone⟩

/-! ## Growing an area -/

/-- If `vm_map_ram` gets its frames and their list nodes, the pages are unmapped ones. -/
def Caller.MapsUnmapped (host : Host) (c : Caller) (mapstart incpgnum : ℕ) : Prop :=
  incpgnum ≤ c.krnl.mram.freeFpList.length → (∀ k < incpgnum, host.malloc k = true) →
    Unmapped c.mm (vmapPages host mapstart incpgnum 0)

/-- If `inc_vma_limit` gets to its mapping, the pages are unmapped ones. -/
def Caller.GrowsUnmapped (host : Host) (c : Caller) (vmaid : ℤ) (incSz : ℕ) : Prop :=
  incSz ≠ 0 → vmaid ≤ 0 → c.mm.mmap.vmEnd < addrT (c.mm.mmap.vmEnd + paging64PageAlignsz incSz) →
    c.MapsUnmapped host c.mm.mmap.vmEnd (cInt (paging64PageAlignsz incSz / paging64Pagesz)).toNat

theorem Caller.growsUnmapped_setMm (host : Host) (c : Caller) (mm : Mm) (hentry : mm.entry = c.mm.entry)
    (hend : mm.mmap.vmEnd = c.mm.mmap.vmEnd) {vmaid : ℤ} {incSz : ℕ} :
    (c.setMm mm).GrowsUnmapped host vmaid incSz ↔ c.GrowsUnmapped host vmaid incSz := by
  unfold Caller.GrowsUnmapped Caller.MapsUnmapped
  rw [Caller.setMm_mm, hend]
  constructor
  · intro h hsz hvma hgrow hle hall
    exact (h hsz hvma hgrow hle hall).congr hentry.symm
  · intro h hsz hvma hgrow hle hall
    exact (h hsz hvma hgrow hle hall).congr hentry

/-- If `__alloc` gets to its system call, the pages are unmapped ones. -/
def Caller.AllocsUnmapped (host : Host) (c : Caller) (rgid size : ℕ) : Prop :=
  rgid < pagingMaxSymtblSz → (getFreeVmrgArea c.mm size).1 ≠ 0 → c.proc.registered = true →
    c.GrowsUnmapped host 0 (uint32 (paging64PageAlignsz size))

section Map

variable {host : Host} {pid : ℕ} {others : ℕ → PageIx → Residence} {c c' : Caller}

/-- **Mapping** pages that are unmapped to frames that are held. -/
theorem vmapPagesLoop_booked (hc : ∀ n, host.calloc n = true) {addr n pgit : ℕ} {fpit : List ℕ}
    (hlen : fpit.length = n) (h : c.Booked host pid others n)
    (hnone : Unmapped c.mm (vmapPages host addr n pgit)) :
    (c.setMm (vmapPagesLoop host addr n pgit fpit c.mm).2).Booked host pid others 0 := by
  induction n generalizing pgit fpit c with
  | zero => exact h
  | succ n ih =>
      obtain ⟨f, rest, rfl⟩ := List.exists_cons_of_length_eq_add_one hlen
      rw [vmapPages, List.range'_succ, List.map_cons] at hnone
      have hfirst := (hnone.cons fun _ _ => rfl).1
      have habs : ∀ g, residence (c.mm.entry (pageIx host (vmapPgn addr pgit))) ≠ .ram g :=
        fun g => by simp [hfirst]
      obtain ⟨h', -, hkeep⟩ := h.install hc habs f
      have hnoswap : swapIn host c ((c.mm.entry (pageIx host (vmapPgn addr pgit))).setWidth 32) f =
          c := by simp [swapIn, (absent_of_residence hfirst).2]
      rw [hnoswap] at h' hkeep
      rw [vmapPagesLoop_succ hc rfl]
      exact ih (c := installPage host c (vmapPgn addr pgit) f) (by simpa using hlen) h'
        (hnone.cons hkeep).2

theorem vmMapRam_booked (hc : ∀ n, host.calloc n = true) (h : c.Booked host pid others 0)
    {mapstart n : ℕ} (hnone : c.MapsUnmapped host mapstart n) :
    (vmMapRam host c mapstart n).2.Booked host pid others 0 := by
  obtain ⟨hfree, hlen, hfail⟩ := allocPagesRange_lists host h.krnl.ram_lt n
  have hok := allocPagesRange_fst host c.krnl.mram n
  rw [vmMapRam_snd]
  generalize allocPagesRange host c.krnl.mram n = r at *
  obtain ⟨st, frames, mram⟩ := r
  have hkrnl : KrnlBooked { c.krnl with mram := mram } :=
    ⟨fun f hf => h.krnl.ram_lt f (hfree f hf), h.krnl.swap_free_lt, h.krnl.swap_used_lt, h.krnl.marks⟩
  split
  · next hst =>
      obtain ⟨hlen, hused⟩ := hlen hst
      obtain ⟨hle, hall⟩ := hok.1 hst
      have hheld : (c.setMram mram).Booked host pid others n := by
        refine ⟨?_, hkrnl, h.pages⟩
        have hbooks := h.books.take n
        rw [← hused, Nat.zero_add] at hbooks
        exact hbooks
      rw [vmapPageRange_snd]
      exact vmapPagesLoop_booked hc hlen hheld (hnone hle hall)
  · next hst =>
      refine h.congr ⟨rfl, .refl _, rfl, (hfail hst).1, hfree, rfl, rfl⟩

/-- **Growing an area** keeps the books if its new pages are unmapped. -/
theorem incVmaLimit_booked (hc : ∀ n, host.calloc n = true) (h : c.Booked host pid others 0)
    {vmaid : ℤ} {incSz : ℕ} (hnone : c.GrowsUnmapped host vmaid incSz) :
    (incVmaLimit host c vmaid incSz).2.Booked host pid others 0 := by
  rcases incVmaLimit_cases host c vmaid incSz with heq | ⟨hsz, hvma, hgrow, heq⟩
  · rw [heq]
    exact h
  · rw [heq]
    have h₁ : (c.setMm (c.mm.setArea (addrT (c.mm.mmap.vmEnd + paging64PageAlignsz incSz))
        (addrT (c.mm.mmap.sbrk + incSz)))).Booked host pid others 0 :=
      h.congr (.setMm c rfl (.refl c.mm.fifoPgn))
    refine vmMapRam_booked hc h₁ fun hle hall => ?_
    exact (hnone hsz hvma hgrow hle hall).congr rfl

/-- Where `__alloc` gets to its system call, it does to the books what `inc_vma_limit` does. -/
theorem alloc_grows (host : Host) (c : Caller) {rgid size : ℕ} (hid : rgid < pagingMaxSymtblSz)
    (hmiss : (getFreeVmrgArea c.mm size).1 ≠ 0) (hreg : c.proc.registered = true) :
    SameBooks (incVmaLimit host (c.setMm (getFreeVmrgArea c.mm size).2.2) 0
      (uint32 (paging64PageAlignsz size))).2 (alloc host c rgid size).2.2 := by
  rw [alloc_at_brk host c rgid hid hmiss]
  simp only [hreg, if_true]
  refine .setMm _ (allocAtBrk_rest ..).1 ?_
  rw [(allocAtBrk_rest ..).2]

theorem alloc_books (host : Host) (c : Caller) {rgid size : ℕ}
    (hnot : ¬ (rgid < pagingMaxSymtblSz ∧ (getFreeVmrgArea c.mm size).1 ≠ 0 ∧
      c.proc.registered = true)) : SameBooks c (alloc host c rgid size).2.2 := by
  by_cases hid : rgid < pagingMaxSymtblSz
  · by_cases hmiss : (getFreeVmrgArea c.mm size).1 ≠ 0
    · -- at the break, without the system call
      have hreg : ¬ c.proc.registered = true := fun hreg => hnot ⟨hid, hmiss, hreg⟩
      rw [alloc_at_brk host c rgid hid hmiss]
      simp only [if_neg hreg]
      refine .setMm c (allocAtBrk_rest ..).1 ?_
      rw [(allocAtBrk_rest ..).2]
      exact .refl c.mm.fifoPgn
    · rw [alloc_from_list host c rgid hid (not_not.1 hmiss)]
      exact .setMm c rfl (.refl c.mm.fifoPgn)
  · rw [alloc, if_pos (Nat.le_of_not_lt hid)]
    exact .refl c

theorem alloc_booked (hc : ∀ n, host.calloc n = true) (h : c.Booked host pid others 0)
    {rgid size : ℕ} (hnone : c.AllocsUnmapped host rgid size) :
    (alloc host c rgid size).2.2.Booked host pid others 0 := by
  by_cases hcall : rgid < pagingMaxSymtblSz ∧ (getFreeVmrgArea c.mm size).1 ≠ 0 ∧
      c.proc.registered = true
  · obtain ⟨hid, hmiss, hreg⟩ := hcall
    have h₁ : (c.setMm (getFreeVmrgArea c.mm size).2.2).Booked host pid others 0 :=
      h.congr (.setMm c rfl (.refl c.mm.fifoPgn))
    have hgrow := (Caller.growsUnmapped_setMm host c (getFreeVmrgArea c.mm size).2.2 rfl rfl).2
      (hnone hid hmiss hreg)
    exact (incVmaLimit_booked hc h₁ hgrow).congr (alloc_grows host c hid hmiss hreg)
  · exact h.congr (alloc_books host c hcall)

theorem free_books (c : Caller) (rgid : ℕ) : SameBooks c (free c rgid).2 := by
  rw [free]
  split
  · exact .refl c
  · simp only
    split
    · exact .refl c
    · refine .setMm c ?_ ?_ <;> rw [enlistVmFreergList] <;> split <;> rfl

/-! ## Kernel memory -/

/-- `libkmem_cache_pool_create` with good arguments does to the books what `__kmalloc` does. -/
theorem libkmemCachePoolCreate_books (host : Host) (c : Caller) {size align cachePoolId : ℕ}
    (hargs : ¬ (size = 0 ∨ align = 0 ∨ size < align)) (hid : cachePoolId < pagingMaxKcachePools) :
    SameBooks (kmalloc host { c with krnl := c.krnl.withKcpooltbl } cachePoolId size).2
      (libkmemCachePoolCreate host c size align cachePoolId).2 := by
  rw [libkmemCachePoolCreate, if_neg hargs]
  simp only [if_neg (Nat.not_le.2 hid)]
  generalize kmalloc host { c with krnl := c.krnl.withKcpooltbl } cachePoolId size = r
  obtain ⟨st, c₂⟩ := r
  split
  · next heq =>
      cases heq
      exact .setKrnlMm c₂ rfl
  · next heq =>
      cases heq
      exact .refl c₂

/-- `__kmalloc` keeps the books if the pages it gets to are unmapped. -/
theorem kmallocLoop_booked (hc : ∀ n, host.calloc n = true) (h : c.Booked host pid others 0)
    {rgid n i : ℕ}
    (hnone : Unmapped c.krnl.mm ((List.range' i (min n c.krnl.mram.freeFpList.length)).map
      fun j => pageIx host (kmallocPgn rgid j))) :
    Caller.Booked host pid others 0 { c with krnl := (kmallocLoop host rgid n i c.krnl).2 } := by
  induction n generalizing c i with
  | zero => exact h
  | succ n ih =>
      cases hget : memphyGetFreefp c.krnl.mram with
      | none =>
          rw [kmallocLoop, hget]
          exact h
      | some r =>
          obtain ⟨f, mram⟩ := r
          obtain ⟨mm, heq, -, -, hentry⟩ := @kmallocLoop_succ _ hc rgid n i _ _ _ hget
          obtain ⟨rest, hcons, rfl⟩ := memphyGetFreefp_eq_some hget
          rw [hcons, List.length_cons, Nat.add_min_add_right, List.range'_succ, List.map_cons] at hnone
          have hkeep : ∀ q ≠ pageIx host (kmallocPgn rgid i), mm.entry q = c.krnl.mm.entry q :=
            fun q hq => by rw [hentry, Function.update_of_ne hq]
          -- the page of this iteration is not one of the later ones
          obtain ⟨hfirst, hrest⟩ := hnone.cons hkeep
          obtain ⟨g, hg⟩ :=
            residence_pteFpnWord_ram (c.krnl.mm.entry (pageIx host (kmallocPgn rgid i))) f
          rw [heq]
          let c' : Caller := { c with krnl := { c.krnl with
            mram := { c.krnl.mram with freeFpList := rest, usedFpList := f :: c.krnl.mram.usedFpList }
            mm := mm } }
          have hres : (c'.pager pid others).res = _ := pager_res_updateKrnl (c := c) rfl hentry
          refine ih (c := c') ⟨?_, ⟨?_, h.krnl.swap_free_lt, h.krnl.swap_used_lt, ?_⟩, h.pages⟩ hrest
          · rw [hres, hg]
            exact (h.books.take 1).map (by simpa using hfirst)
          · exact fun u hu => h.krnl.ram_lt u (by rw [hcons]; exact List.mem_cons_of_mem _ hu)
          · intro q
            change Unambiguous (mm.entry q)
            rw [hentry, Function.update_apply]
            split
            · exact unambiguous_pteFpnWord _ _
            · exact h.krnl.marks q

end Map

end Ossim
