import Ossim.Paging.LedgerMap

set_option autoImplicit false

/-! # Mapping pages that are mapped already

Neither `vmap_page_range` nor `__kmalloc` looks at the entry it overwrites. Whatever was there, each
page of the request has taken a frame of RAM and its entry names one; no other entry has changed, and
nothing is released. -/

namespace Ossim

open Pager

/-- The slots have been set to frames of RAM, and no other slot has changed. -/
structure SetToRam (mm mm' : Mm) (ps : List PageIx) : Prop where
  on : ∀ p ∈ ps, ∃ v f, mm'.entry p = pteFpnWord v f
  off : ∀ p ∉ ps, mm'.entry p = mm.entry p

theorem SetToRam.nil {mm mm' : Mm} (h : mm'.entry = mm.entry) : SetToRam mm mm' [] :=
  ⟨fun _ hp => absurd hp List.not_mem_nil, fun p _ => congrFun h p⟩

/-- One slot, and then the rest. -/
theorem SetToRam.cons {mm mm₁ mm' : Mm} {p : PageIx} {ps : List PageIx} {v : BitVec 64} {f : ℕ}
    (hentry : mm₁.entry = Function.update mm.entry p (pteFpnWord v f)) (h : SetToRam mm₁ mm' ps) :
    SetToRam mm mm' (p :: ps) := by
  refine ⟨fun q hq => ?_, fun q hq => ?_⟩
  · by_cases hmem : q ∈ ps
    · exact h.on q hmem
    · obtain rfl : q = p := (List.mem_cons.1 hq).resolve_right hmem
      exact ⟨v, f, by rw [h.off q hmem, hentry, Function.update_self]⟩
  · rw [List.mem_cons, not_or] at hq
    rw [h.off q hq.2, hentry, Function.update_of_ne hq.1]

/-- Entries that are the same before, or after, are as good. -/
theorem SetToRam.congr {mm mm₁ mm₂ mm' : Mm} {ps : List PageIx} (h : SetToRam mm₁ mm₂ ps)
    (hbefore : mm₁.entry = mm.entry) (hafter : mm'.entry = mm₂.entry) : SetToRam mm mm' ps :=
  ⟨fun p hp => hafter ▸ h.on p hp, fun p hp => by rw [hafter, h.off p hp, hbefore]⟩

theorem SetToRam.marks {mm mm' : Mm} {ps : List PageIx} (h : SetToRam mm mm' ps)
    (hmarks : ∀ p, Unambiguous (mm.entry p)) (p : PageIx) : Unambiguous (mm'.entry p) := by
  by_cases hp : p ∈ ps
  · obtain ⟨v, f, hv⟩ := h.on p hp
    rw [hv]
    exact unambiguous_pteFpnWord v f
  · rw [h.off p hp]
    exact hmarks p

theorem SetToRam.residence_on {mm mm' : Mm} {ps : List PageIx} (h : SetToRam mm mm' ps) {p : PageIx}
    (hp : p ∈ ps) : ∃ f, residence (mm'.entry p) = .ram f := by
  obtain ⟨v, f, hv⟩ := h.on p hp
  rw [hv]
  exact residence_pteFpnWord_ram v f

/-- An operation has set slots of its process, with a frame taken for each. -/
structure SetsPages (c c' : Caller) (ps : List PageIx) : Prop where
  set : SetToRam c.mm c'.mm ps
  krnl_entry : c'.krnl.mm.entry = c.krnl.mm.entry
  ram_used : c'.krnl.mram.usedFpList.length = c.krnl.mram.usedFpList.length + ps.length
  swap_used : c'.krnl.activeMswp.usedFpList = c.krnl.activeMswp.usedFpList

/-- An operation has set slots of the kernel, with a frame taken for each. -/
structure SetsKrnlPages (c c' : Caller) (ps : List PageIx) : Prop where
  set : SetToRam c.krnl.mm c'.krnl.mm ps
  entry : c'.mm.entry = c.mm.entry
  ram_used : c'.krnl.mram.usedFpList.length = c.krnl.mram.usedFpList.length + ps.length
  swap_used : c'.krnl.activeMswp.usedFpList = c.krnl.activeMswp.usedFpList

section Overwritten

variable {host : Host} {pid : ℕ} {others : ℕ → PageIx → Residence} {c c₁ c₂ c' : Caller}
variable {ps : List PageIx}

theorem SetsPages.congr (h : SetsPages c₁ c₂ ps) (hbefore : SameBooks c c₁) (hafter : SameBooks c₂ c') :
    SetsPages c c' ps where
  set := h.set.congr hbefore.entry hafter.entry
  krnl_entry := hafter.krnl_entry.trans (h.krnl_entry.trans hbefore.krnl_entry)
  ram_used := by rw [hafter.ram_used, h.ram_used, hbefore.ram_used]
  swap_used := hafter.swap_used.trans (h.swap_used.trans hbefore.swap_used)

theorem SetsKrnlPages.congr (h : SetsKrnlPages c₁ c₂ ps) (hbefore : SameBooks c c₁)
    (hafter : SameBooks c₂ c') : SetsKrnlPages c c' ps where
  set := h.set.congr hbefore.krnl_entry hafter.krnl_entry
  entry := hafter.entry.trans (h.entry.trans hbefore.entry)
  ram_used := by rw [hafter.ram_used, h.ram_used, hbefore.ram_used]
  swap_used := hafter.swap_used.trans (h.swap_used.trans hbefore.swap_used)

theorem SetsPages.overwritten (h : SetsPages c c' ps) :
    Overwritten (c.pager pid others).res (c'.pager pid others).res (ps.map (.proc pid, ·)) where
  on := by
    intro k hk
    obtain ⟨p, hp, rfl⟩ := List.mem_map.1 hk
    simpa using h.set.residence_on hp
  off := by
    rintro ⟨o, p⟩ hk
    cases o with
    | krnl => rw [pager_res_krnl, pager_res_krnl, h.krnl_entry]
    | proc q =>
        by_cases hq : q = pid
        · subst hq
          have hp : p ∉ ps := fun hp => hk (List.mem_map_of_mem hp)
          rw [pager_res_self, pager_res_self, h.set.off p hp]
        · rw [pager_res_other _ _ _ hq, pager_res_other _ _ _ hq]

theorem SetsKrnlPages.overwritten (h : SetsKrnlPages c c' ps) :
    Overwritten (c.pager pid others).res (c'.pager pid others).res (ps.map (.krnl, ·)) where
  on := by
    intro k hk
    obtain ⟨p, hp, rfl⟩ := List.mem_map.1 hk
    simpa using h.set.residence_on hp
  off := by
    rintro ⟨o, p⟩ hk
    cases o with
    | krnl =>
        have hp : p ∉ ps := fun hp => hk (List.mem_map_of_mem hp)
        rw [pager_res_krnl, pager_res_krnl, h.set.off p hp]
    | proc q => simp only [Caller.pager, h.entry]

/-! ## Growing an area -/

theorem vmapPagesLoop_set (hc : ∀ n, host.calloc n = true) {addr n pgit : ℕ} {fpit : List ℕ}
    (hlen : fpit.length = n) :
    SetToRam c.mm (vmapPagesLoop host addr n pgit fpit c.mm).2 (vmapPages host addr n pgit) := by
  induction n generalizing pgit fpit c with
  | zero => exact .nil rfl
  | succ n ih =>
      obtain ⟨f, rest, rfl⟩ := List.exists_cons_of_length_eq_add_one hlen
      have hentry := installPage_entry hc c (vmapPgn addr pgit) f
      rw [vmapPagesLoop_succ hc rfl, vmapPages, List.range'_succ, List.map_cons]
      exact .cons hentry (ih (by simpa using hlen))

theorem vmMapRam_set (hc : ∀ n, host.calloc n = true) (hlt : ∀ f ∈ c.krnl.mram.freeFpList, f < 2 ^ 31)
    {mapstart n : ℕ} (hle : n ≤ c.krnl.mram.freeFpList.length) (hm : ∀ k < n, host.malloc k = true) :
    SetsPages c (vmMapRam host c mapstart n).2 (vmapPages host mapstart n 0) := by
  obtain ⟨-, hlen, -⟩ := allocPagesRange_lists host hlt n
  have hok := allocPagesRange_fst host c.krnl.mram n
  rw [vmMapRam_snd]
  generalize allocPagesRange host c.krnl.mram n = r at *
  obtain ⟨st, frames, mram⟩ := r
  obtain rfl : st = 0 := hok.2 ⟨hle, hm⟩
  obtain ⟨hlen, hused⟩ := hlen rfl
  simp only [if_true, vmapPageRange_snd]
  exact ⟨vmapPagesLoop_set hc hlen, rfl, by simpa [vmapPages] using hused, rfl⟩

/-- A growing area whose pages are not all unmapped. -/
theorem incVmaLimit_set (hc : ∀ n, host.calloc n = true)
    (hlt : ∀ f ∈ c.krnl.mram.freeFpList, f < 2 ^ 31) {vmaid : ℤ} {incSz : ℕ}
    (hnot : ¬ c.GrowsUnmapped host vmaid incSz) :
    ∃ ps, SetsPages c (incVmaLimit host c vmaid incSz).2 ps ∧ ¬ Unmapped c.mm ps := by
  simp only [Caller.GrowsUnmapped, Caller.MapsUnmapped, not_forall] at hnot
  obtain ⟨hsz, hvma, hgrow, hle, hm, hnone⟩ := hnot
  rw [incVmaLimit_grows host c hvma hsz hgrow]
  have hset := @vmMapRam_set host (c.setMm (c.mm.setArea
      (addrT (c.mm.mmap.vmEnd + paging64PageAlignsz incSz)) (addrT (c.mm.mmap.sbrk + incSz)))) hc hlt
    c.mm.mmap.vmEnd _ hle hm
  exact ⟨_, hset.congr (.setMm c rfl (.refl c.mm.fifoPgn)) (.refl _), hnone⟩

theorem alloc_set (hc : ∀ n, host.calloc n = true) (hlt : ∀ f ∈ c.krnl.mram.freeFpList, f < 2 ^ 31)
    {rgid size : ℕ} (hnot : ¬ c.AllocsUnmapped host rgid size) :
    ∃ ps, SetsPages c (alloc host c rgid size).2.2 ps ∧ ¬ Unmapped c.mm ps := by
  simp only [Caller.AllocsUnmapped, not_forall] at hnot
  obtain ⟨hid, hmiss, hreg, hnot⟩ := hnot
  have hnot' : ¬ (c.setMm (getFreeVmrgArea c.mm size).2.2).GrowsUnmapped host 0
      (uint32 (paging64PageAlignsz size)) := fun hgrow =>
    hnot ((Caller.growsUnmapped_setMm host c (getFreeVmrgArea c.mm size).2.2 rfl rfl).1 hgrow)
  obtain ⟨ps, hset, hnone⟩ :=
    incVmaLimit_set (c := c.setMm (getFreeVmrgArea c.mm size).2.2) hc hlt hnot'
  exact ⟨ps, hset.congr (.setMm c rfl (.refl c.mm.fifoPgn))
    (alloc_grows host c hid hmiss hreg),
    fun hps => hnone (hps.congr rfl)⟩

/-! ## Kernel memory -/

theorem kmallocLoop_set (hc : ∀ n, host.calloc n = true) (rgid n i : ℕ) (c : Caller) :
    SetsKrnlPages c { c with krnl := (kmallocLoop host rgid n i c.krnl).2 }
      ((List.range' i (min n c.krnl.mram.freeFpList.length)).map
        fun j => pageIx host (kmallocPgn rgid j)) := by
  induction n generalizing c i with
  | zero => exact ⟨by simpa [kmallocLoop] using .nil rfl, rfl, by simp [kmallocLoop], rfl⟩
  | succ n ih =>
      cases hget : memphyGetFreefp c.krnl.mram with
      | none =>
          rw [kmallocLoop, hget, memphyGetFreefp_eq_none.1 hget]
          exact ⟨by simpa using .nil rfl, rfl, by simp, rfl⟩
      | some r =>
          obtain ⟨f, mram⟩ := r
          obtain ⟨mm, heq, -, -, hentry⟩ := @kmallocLoop_succ _ hc rgid n i _ _ _ hget
          obtain ⟨rest, hcons, rfl⟩ := memphyGetFreefp_eq_some hget
          have hrest := ih (i + 1) { c with krnl := { c.krnl with
            mram := { c.krnl.mram with freeFpList := rest, usedFpList := f :: c.krnl.mram.usedFpList }
            mm := mm } }
          rw [heq, hcons, List.length_cons, Nat.add_min_add_right, List.range'_succ, List.map_cons]
          refine ⟨.cons hentry hrest.set, hrest.entry, ?_, hrest.swap_used⟩
          rw [hrest.ram_used]
          simp only [List.length_cons]
          omega

theorem kmalloc_set (hc : ∀ n, host.calloc n = true) (c : Caller) (rgid size : ℕ) :
    SetsKrnlPages c (kmalloc host c rgid size).2
      ((List.range (min (kmallocNumPages size) c.krnl.mram.freeFpList.length)).map
        fun j => pageIx host (kmallocPgn rgid j)) := by
  rw [kmalloc, List.range_eq_range']
  split
  · next hsize =>
      have hzero : kmallocNumPages size = 0 := by rw [hsize]; rfl
      rw [hzero, Nat.zero_min]
      exact ⟨.nil rfl, rfl, rfl, rfl⟩
  · exact kmallocLoop_set hc rgid (kmallocNumPages size) 0 c

theorem libkmemCachePoolCreate_set (hc : ∀ n, host.calloc n = true) (c : Caller)
    {size align cachePoolId : ℕ} (hargs : ¬ (size = 0 ∨ align = 0 ∨ size < align))
    (hid : cachePoolId < pagingMaxKcachePools) :
    SetsKrnlPages c (libkmemCachePoolCreate host c size align cachePoolId).2
      ((List.range (min (kmallocNumPages size) c.krnl.mram.freeFpList.length)).map
        fun j => pageIx host (kmallocPgn cachePoolId j)) := by
  have hset := kmalloc_set hc { c with krnl := c.krnl.withKcpooltbl } cachePoolId size
  exact hset.congr (.setKrnlMm c rfl) (libkmemCachePoolCreate_books host c hargs hid)

/-! ## The map operation -/

/-- The map operation writes its pattern over some entries, and takes no frame. -/
theorem vmapPgdMemsetLoop_entry (hc : ∀ n, host.calloc n = true) (n addr : ℕ) (mm : Mm) :
    ∃ K : Set PageIx, (n ≠ 0 → K.Nonempty) ∧
      (∀ p ∈ K, (vmapPgdMemsetLoop host n mm addr).2.entry p = 0xdeadbeef) ∧
      ∀ p ∉ K, (vmapPgdMemsetLoop host n mm addr).2.entry p = mm.entry p := by
  induction n generalizing mm addr with
  | zero => exact ⟨∅, by simp, by simp, fun _ _ => rfl⟩
  | succ n ih =>
      have hst : (pteUpdate host mm (addr >>> 12) fun _ => 0xdeadbeef).1 = 0 := by
        rw [pteUpdate_eq _ _ _ _ hc]
      have hentry : (pteUpdate host mm (addr >>> 12) fun _ => 0xdeadbeef).2.entry =
          Function.update mm.entry (pageIx host (addr >>> 12)) 0xdeadbeef :=
        pteUpdate_entry _ _ _ _ hc
      rw [vmapPgdMemsetLoop]
      generalize pteUpdate host mm (addr >>> 12) (fun _ => 0xdeadbeef) = r at *
      obtain ⟨st, mm₁⟩ := r
      obtain rfl : st = 0 := hst
      obtain ⟨K, -, hon, hoff⟩ := ih (addrT (addr + paging64Pagesz)) mm₁
      simp only
      refine ⟨insert (pageIx host (addr >>> 12)) K, fun _ => Set.insert_nonempty .., fun p hp => ?_,
        fun p hp => ?_⟩
      · by_cases hK : p ∈ K
        · exact hon p hK
        · obtain rfl : p = pageIx host (addr >>> 12) := hp.resolve_right hK
          rw [hoff _ hK, hentry, Function.update_self]
      · rw [Set.mem_insert_iff, not_or] at hp
        rw [hoff p hp.2, hentry, Function.update_of_ne hp.1]

end Overwritten

end Ossim
