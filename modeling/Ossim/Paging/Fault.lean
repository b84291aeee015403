import Ossim.Paging

set_option autoImplicit false

/-! # Demand paging refines the pager

`pg_getpage` finds a frame (a free one, or that of a victim it copies out), copies its page in if it
was swapped, and records the page in the frame. Between the first step and the last the frame belongs
to nobody: it is *held*. In terms of the pager, getting the frame is an eviction or nothing, and
putting the page in it is a mapping or a page-in. -/

namespace Ossim

open Pager

/-- What paging leaves alone: the process but for its page table and FIFO list, and the shape of the
    devices. -/
structure PagingOnly (c c' : Caller) : Prop where
  same : SameButUser c c'
  mmap : c'.mm.mmap = c.mm.mmap
  symrgtbl : c'.mm.symrgtbl = c.mm.symrgtbl
  ram_holds : ∀ f, c.krnl.mram.Holds f → c'.krnl.mram.Holds f
  swap_holds : ∀ t, c.krnl.activeMswp.Holds t → c'.krnl.activeMswp.Holds t

namespace PagingOnly

theorem refl (c : Caller) : PagingOnly c c := ⟨.refl c, rfl, rfl, fun _ h => h, fun _ h => h⟩

theorem trans {c c' c'' : Caller} (h : PagingOnly c c') (h' : PagingOnly c' c'') :
    PagingOnly c c'' :=
  ⟨h.same.trans h'.same, h'.mmap.trans h.mmap, h'.symrgtbl.trans h.symrgtbl,
    fun f hf => h'.ram_holds f (h.ram_holds f hf), fun t ht => h'.swap_holds t (h.swap_holds t ht)⟩

theorem setMm (c : Caller) {mm : Mm} (hmmap : mm.mmap = c.mm.mmap)
    (hsym : mm.symrgtbl = c.mm.symrgtbl) : PagingOnly c (c.setMm mm) :=
  ⟨.setMm c mm, hmmap, hsym, fun _ h => h, fun _ h => h⟩

theorem setMram (c : Caller) {mp : Memphy} (hr : mp.rdmflg = c.krnl.mram.rdmflg)
    (hsz : mp.storageSz = c.krnl.mram.storageSz) : PagingOnly c (c.setMram mp) :=
  ⟨.setMram c mp, rfl, rfl, fun _ h => ⟨hr.trans h.rdm, hsz ▸ h.fits⟩, fun _ h => h⟩

theorem setMswp (c : Caller) {mp : Memphy} (hr : mp.rdmflg = c.krnl.activeMswp.rdmflg)
    (hsz : mp.storageSz = c.krnl.activeMswp.storageSz) : PagingOnly c (c.setMswp mp) :=
  ⟨.setMswp c mp, rfl, rfl, fun _ h => h, fun _ h => ⟨hr.trans h.rdm, hsz ▸ h.fits⟩⟩

theorem registered {c c' : Caller} (h : PagingOnly c c') :
    c'.proc.registered = c.proc.registered := h.same.registered

theorem regionsOk {c c' : Caller} (h : PagingOnly c c')
    (hr : RegionsOk c.proc.registered c.mm) : RegionsOk c'.proc.registered c'.mm := by
  have hend : heapEnd c'.proc.registered c'.mm = heapEnd c.proc.registered c.mm := by
    rw [heapEnd, heapEnd, h.registered, h.mmap]
  have hregions : c'.mm.regions = c.mm.regions := by
    rw [Mm.regions, Mm.regions, Mm.symRegions, Mm.symRegions, h.mmap, h.symrgtbl]
  refine ⟨?_, ?_, ?_⟩
  · rw [hend, hregions]
    exact hr.mem
  · rw [h.registered, h.mmap]
    exact hr.brk
  · rw [h.registered, h.mmap]
    exact hr.brk_zero

theorem devicesOk {exact : Prop} {R S : Set ℕ} {c c' : Caller} (h : PagingOnly c c')
    (hd : DevicesOk exact R S c) (hram : c'.krnl.mram.freeFpList.Nodup)
    (hswap : c'.krnl.activeMswp.freeFpList.Nodup) : DevicesOk exact R S c' where
  ram_nodup := hram
  swap_nodup := hswap
  registered := fun he => h.registered.trans (hd.registered he)
  ram_holds := fun he f hf => h.ram_holds f (hd.ram_holds he f hf)
  swap_holds := fun he t ht => h.swap_holds t (hd.swap_holds he t ht)

end PagingOnly

/-- Paging data survive a change of one entry and a FIFO list of pages that are resident after it. -/
theorem PagesOk.update {host : Host} {registered : Bool} {mm mm' : Mm}
    (h : PagesOk host registered mm) {p : ℕ} {w : BitVec 64} (hp : p < 2 ^ 45) (hw : Unambiguous w)
    (hentry : mm'.entry = Function.update mm.entry (pageIx host p) w) (hmmap : mm'.mmap = mm.mmap)
    (hnodup : mm'.fifoPgn.Nodup) (hold : registered = true → ¬ mm.mmap.vmEnd ≤ p * 4096)
    (hfifo : ∀ pgn ∈ mm'.fifoPgn, (pgn ≠ p ∧ pgn ∈ mm.fifoPgn) ∨
      (pgn = p ∧ ∃ f, residence w = .ram f)) :
    PagesOk host registered mm' := by
  -- below `2 ^ 45` different pages have different entries
  have hother : ∀ pgn < 2 ^ 45, pgn ≠ p →
      mm'.entry (pageIx host pgn) = mm.entry (pageIx host pgn) := by
    intro pgn hpgn hne
    rw [hentry, Function.update_of_ne fun he => hne (pageIx_inj host hpgn hp he)]
  refine ⟨?_, hnodup, ?_, ?_, ?_⟩
  · intro q
    rw [hentry, Function.update_apply]
    split
    · exact hw
    · exact h.marks q
  · intro pgn hpgn
    rcases hfifo pgn hpgn with ⟨-, hmem⟩ | ⟨rfl, -⟩
    · exact h.fifo_lt pgn hmem
    · exact hp
  · intro pgn hpgn
    rcases hfifo pgn hpgn with ⟨hne, hmem⟩ | ⟨rfl, hw⟩
    · rw [hother pgn (h.fifo_lt pgn hmem) hne]
      exact h.fifo_ram pgn hmem
    · rw [hentry, Function.update_self]
      exact hw
  · intro hreg pgn hpgn hend
    rw [hmmap] at hend
    have hne : pgn ≠ p := fun he => hold hreg (he ▸ hend)
    rw [hother pgn hpgn hne]
    exact h.fresh hreg pgn hpgn hend

/-- Dropping pages from the FIFO list is harmless. -/
theorem PagesOk.sublist {host : Host} {registered : Bool} {mm mm' : Mm}
    (h : PagesOk host registered mm) (hentry : mm'.entry = mm.entry) (hmmap : mm'.mmap = mm.mmap)
    (hfifo : mm'.fifoPgn.Sublist mm.fifoPgn) : PagesOk host registered mm' where
  marks := hentry ▸ h.marks
  fifo_nodup := h.fifo_nodup.sublist hfifo
  fifo_lt := fun pgn hpgn => h.fifo_lt pgn (hfifo.subset hpgn)
  fifo_ram := fun pgn hpgn => by
    rw [hentry]
    exact h.fifo_ram pgn (hfifo.subset hpgn)
  fresh := fun hreg pgn hpgn hend => by
    rw [hentry]
    exact h.fresh hreg pgn hpgn (hmmap ▸ hend)

/-- What paging does to an address space when page `pgn` is asked for: pages leave the FIFO list, a
    victim goes to swap, or the page gets a frame. -/
inductive PageMove (host : Host) (pgn : ℕ) (mm mm' : Mm) : Prop where
  | drop (hentry : mm'.entry = mm.entry) (hmmap : mm'.mmap = mm.mmap)
      (hfifo : mm'.fifoPgn.Sublist mm.fifoPgn)
  | evict (vic t : ℕ)
      (hentry : mm'.entry = Function.update mm.entry (pageIx host vic)
        (pteSwapWord (mm.entry (pageIx host vic)) 0 t))
      (hmmap : mm'.mmap = mm.mmap) (hfifo : mm.fifoPgn = mm'.fifoPgn ++ [vic])
  | install (f : ℕ) (habs : pagingPagePresent ((mm.entry (pageIx host pgn)).setWidth 32) = false)
      (hentry : mm'.entry = Function.update mm.entry (pageIx host pgn)
        (pteFpnWord (mm.entry (pageIx host pgn)) f))
      (hmmap : mm'.mmap = mm.mmap) (hfifo : mm'.fifoPgn = pgn :: mm.fifoPgn)

theorem PageMove.mmap {host : Host} {pgn : ℕ} {mm mm' : Mm} (h : PageMove host pgn mm mm') :
    mm'.mmap = mm.mmap := by
  cases h with
  | drop _ hmmap => exact hmmap
  | evict _ _ _ hmmap => exact hmmap
  | install _ _ _ hmmap => exact hmmap

theorem FifoOk.move {host : Host} {pgn : ℕ} {mm mm' : Mm} (h : FifoOk host mm)
    (hmove : PageMove host pgn mm mm') : FifoOk host mm' := by
  cases hmove with
  | drop hentry _ hfifo =>
      refine ⟨h.nodup.sublist (hfifo.map _), fun q hq => ?_⟩
      rw [hentry]
      exact h.ram q (hfifo.subset hq)
  | evict vic t hentry _ hfifo =>
      have hnodup := h.nodup
      rw [hfifo, List.map_append] at hnodup
      obtain ⟨hnodup', -, hdisj⟩ := List.nodup_append.1 hnodup
      refine ⟨hnodup', fun q hq => ?_⟩
      rw [hentry, Function.update_of_ne (hdisj _ (List.mem_map_of_mem hq) _ (by simp))]
      exact h.ram q (hfifo ▸ List.mem_append_left _ hq)
  | install f habs hentry _ hfifo =>
      -- the page was not resident, so it is none of those on the list
      have hne : ∀ q ∈ mm.fifoPgn, pageIx host q ≠ pageIx host pgn := by
        intro q hq he
        obtain ⟨g, hg⟩ := h.ram q hq
        rw [he] at hg
        exact absurd (present_of_residence hg).1 (by simp [habs])
      refine ⟨?_, fun q hq => ?_⟩
      · rw [hfifo, List.map_cons]
        refine List.nodup_cons.2 ⟨fun hmem => ?_, h.nodup⟩
        obtain ⟨q, hq, he⟩ := List.mem_map.1 hmem
        exact hne q hq he
      · rw [hfifo] at hq
        rw [hentry]
        rcases List.mem_cons.1 hq with rfl | hq
        · rw [Function.update_self]
          exact residence_pteFpnWord_ram _ _
        · rw [Function.update_of_ne (hne q hq)]
          exact h.ram q hq

theorem PagesOk.move {host : Host} {registered : Bool} {pgn : ℕ} {mm mm' : Mm}
    (h : PagesOk host registered mm) (hpgn : pgn < 2 ^ 45)
    (hend : registered = true → pgn * 4096 < mm.mmap.vmEnd) (hmove : PageMove host pgn mm mm') :
    PagesOk host registered mm' := by
  cases hmove with
  | drop hentry hmmap hfifo => exact h.sublist hentry hmmap hfifo
  | evict vic t hentry hmmap hfifo =>
      have hsplit := List.nodup_append.1 (hfifo ▸ h.fifo_nodup)
      have hvmem : vic ∈ mm.fifoPgn := hfifo ▸ List.mem_append_right _ (List.mem_singleton_self _)
      have hvlt := h.fifo_lt vic hvmem
      obtain ⟨g, hg⟩ := h.fifo_ram vic hvmem
      refine h.update hvlt (unambiguous_pteSwapWord _ _ _) hentry hmmap hsplit.1 ?_ ?_
      · -- a page behind the end of the area is not mapped, so it is no victim
        intro hreg hle
        rw [h.fresh hreg vic hvlt hle] at hg
        exact absurd hg (by simp)
      · intro q hq
        exact Or.inl ⟨fun he => hsplit.2.2 q hq vic (List.mem_singleton_self _) he,
          hfifo ▸ List.mem_append_left _ hq⟩
  | install f habs hentry hmmap hfifo =>
      refine h.update hpgn (unambiguous_pteFpnWord _ _) hentry hmmap ?_ ?_ ?_
      · rw [hfifo]
        -- a page on the list is resident, and this one is not
        refine List.nodup_cons.2 ⟨fun hmem => ?_, h.fifo_nodup⟩
        obtain ⟨g, hg⟩ := h.fifo_ram pgn hmem
        exact absurd (present_of_residence hg).1 (by simp [habs])
      · intro hreg
        exact Nat.not_le.2 (hend hreg)
      · intro q hq
        rw [hfifo] at hq
        by_cases hqp : q = pgn
        · exact Or.inr ⟨hqp, residence_pteFpnWord_ram _ _⟩
        · exact Or.inl ⟨hqp, (List.mem_cons.1 hq).resolve_left hqp⟩

/-- Finitely many moves, for pages of a set. -/
abbrev PageMoves (host : Host) (Q : Set ℕ) : Mm → Mm → Prop :=
  Relation.ReflTransGen fun mm mm' => ∃ pgn ∈ Q, PageMove host pgn mm mm'

theorem PageMove.moves {host : Host} {pgn : ℕ} {mm mm' : Mm} (h : PageMove host pgn mm mm') :
    PageMoves host {pgn} mm mm' := .single ⟨pgn, rfl, h⟩

theorem PageMoves.mono {host : Host} {Q Q' : Set ℕ} {mm mm' : Mm} (h : PageMoves host Q mm mm')
    (hQ : Q ⊆ Q') : PageMoves host Q' mm mm' := by
  induction h with
  | refl => exact .refl
  | tail _ hstep ih =>
      obtain ⟨pgn, hpgn, hmove⟩ := hstep
      exact ih.tail ⟨pgn, hQ hpgn, hmove⟩

theorem PagesOk.moves {host : Host} {registered : Bool} {Q : Set ℕ} {mm mm' : Mm}
    (h : PagesOk host registered mm)
    (hQ : ∀ pgn ∈ Q, pgn < 2 ^ 45 ∧ (registered = true → pgn * 4096 < mm.mmap.vmEnd))
    (hmoves : PageMoves host Q mm mm') : PagesOk host registered mm' := by
  have hmmap : mm'.mmap = mm.mmap ∧ PagesOk host registered mm' := by
    induction hmoves with
    | refl => exact ⟨rfl, h⟩
    | tail _ hstep ih =>
        obtain ⟨hmmap, hpages⟩ := ih
        obtain ⟨pgn, hpgn, hmove⟩ := hstep
        obtain ⟨hlt, hend⟩ := hQ pgn hpgn
        exact ⟨hmove.mmap.trans hmmap, hpages.move hlt (hmmap ▸ hend) hmove⟩
  exact hmmap.2

/-! ## Getting a frame -/

/-- The pager while the code holds the frames `fs`: nobody owns them, as if they were free. -/
def Caller.heldPager (c : Caller) (pid : ℕ) (others : ℕ → PageIx → Residence) (fs : List ℕ) :
    State PageKey (Fin 4096) Byte :=
  { c.pager pid others with ramFree := {f | f ∈ fs ++ c.krnl.mram.freeFpList} }

/-- What the code has after getting the frames `fs`, while it puts pages in them. -/
structure HoldsFrames (host : Host) (exact : Prop) (R S : Set ℕ) (pid : ℕ)
    (others : ℕ → PageIx → Residence) (c c' : Caller) (fs : List ℕ) : Prop where
  run : Run exact ∅ (c.pager pid others) (c'.heldPager pid others fs)
  nodup : (fs ++ c'.krnl.mram.freeFpList).Nodup
  only : PagingOnly c c'
  devices : DevicesOk exact R S c'
  pages : PagesOk host c'.proc.registered c'.mm

/-- The same, for a process whose regions may be anywhere. -/
structure Holding (host : Host) (exact : Prop) (R S : Set ℕ) (pid : ℕ)
    (others : ℕ → PageIx → Residence) (c c' : Caller) (fs : List ℕ) : Prop where
  run : Run exact ∅ (c.pager pid others) (c'.heldPager pid others fs)
  nodup : (fs ++ c'.krnl.mram.freeFpList).Nodup
  only : PagingOnly c c'
  devices : DevicesOk exact R S c'
  fifo : FifoOk host c'.mm

section Fault

variable {host : Host} {exact : Prop} {R S : Set ℕ} {pid : ℕ} {others : ℕ → PageIx → Residence}
variable {c : Caller}

theorem HoldsFrames.holding {c' : Caller} {fs : List ℕ}
    (hf : HoldsFrames host exact R S pid others c c' fs) :
    Holding host exact R S pid others c c' fs :=
  ⟨hf.run, hf.nodup, hf.only, hf.devices, hf.pages.fifoOk⟩

theorem Holding.holdsFrames {c' : Caller} {fs : List ℕ}
    (hf : Holding host exact R S pid others c c' fs)
    (hpages : PagesOk host c'.proc.registered c'.mm) :
    HoldsFrames host exact R S pid others c c' fs :=
  ⟨hf.run, hf.nodup, hf.only, hf.devices, hpages⟩

/-- When no frame is held any more, the invariant is back. -/
theorem Holding.frameInv (h : FrameInv host exact R S pid others c) {c' : Caller}
    (hf : Holding host exact R S pid others c c' []) : FrameInv host exact R S pid others c' where
  wf := hf.run.wf h.wf
  within := hf.run.within h.within
  devices := hf.devices
  fifo := hf.fifo

theorem HoldsFrames.memInv (h : MemInv host exact R S pid others c) {c' : Caller}
    (hf : HoldsFrames host exact R S pid others c c' []) : MemInv host exact R S pid others c' where
  wf := hf.run.wf h.wf
  within := hf.run.within h.within
  devices := hf.devices
  pages := hf.pages
  regions := hf.only.regionsOk h.regions
  pinned := hf.only.same.krnl_entry ▸ h.pinned

/-- Taking frames from the front of the free list is nothing to the pager. -/
theorem Holding.of_free (h : FrameInv host exact R S pid others c) {fs rest used : List ℕ}
    (hcons : c.krnl.mram.freeFpList = fs ++ rest) :
    Holding host exact R S pid others c
      (c.setMram { c.krnl.mram with freeFpList := rest, usedFpList := used }) fs := by
  have hnodup := h.devices.ram_nodup
  rw [hcons] at hnodup
  have honly : PagingOnly c (c.setMram { c.krnl.mram with
      freeFpList := rest, usedFpList := used }) := .setMram c rfl rfl
  refine ⟨?_, hnodup, honly, honly.devicesOk h.devices ?_ h.devices.swap_nodup, h.fifo⟩
  · have hpager : (c.setMram { c.krnl.mram with
        freeFpList := rest, usedFpList := used }).heldPager pid others fs = c.pager pid others := by
      refine State.ext rfl ?_ rfl rfl rfl
      simp only [Caller.heldPager, Caller.pager, hcons, Caller.setMram_mram]
    rw [hpager]
    exact .refl _
  · exact (List.nodup_append.1 hnodup).2.1

theorem HoldsFrames.of_free (h : MemInv host exact R S pid others c) {fs rest used : List ℕ}
    (hcons : c.krnl.mram.freeFpList = fs ++ rest) :
    HoldsFrames host exact R S pid others c
      (c.setMram { c.krnl.mram with freeFpList := rest, usedFpList := used }) fs :=
  (Holding.of_free h.frameInv hcons).holdsFrames h.pages

theorem findVictimPage_eq_some {mm mm' : Mm} {pgn : ℕ} (h : findVictimPage mm = some (pgn, mm')) :
    mm.fifoPgn = mm.fifoPgn.dropLast ++ [pgn] ∧ mm' = { mm with fifoPgn := mm.fifoPgn.dropLast } := by
  rw [findVictimPage] at h
  split at h
  · exact absurd h (by simp)
  · next hlast =>
      cases h
      exact ⟨(List.dropLast_append_getLast? _ hlast).symm, rfl⟩

/-- The copy of a frame to swap, as far as the pager sees it. -/
theorem syscall_swp_spec (host : Host) (c : Caller) {g t : ℕ} (hg : g < 2 ^ 32) (ht : t < 2 ^ 32) :
    ∃ (mswp : Memphy) (d : Fin 4096 → Byte),
      (syscall host c 17 ⟨3, g, t⟩).2.2 = c.setMswp mswp ∧
      mswp.freeFpList = c.krnl.activeMswp.freeFpList ∧
      mswp.rdmflg = c.krnl.activeMswp.rdmflg ∧ mswp.storageSz = c.krnl.activeMswp.storageSz ∧
      mswp.page = Function.update c.krnl.activeMswp.page t d ∧
      (c.proc.registered = true → c.krnl.mram.rdmflg = true → c.krnl.activeMswp.Holds t →
        d = c.krnl.mram.page g) := by
  rw [syscall_swp, uint32_of_lt hg, uint32_of_lt ht]
  split
  · obtain ⟨d, hpage, hd⟩ :=
      swapCpPage_page c.krnl.mram g t host c.krnl.activeMswp (by omega) (by omega)
    exact ⟨_, d, rfl, by simp, by simp, by simp, hpage, fun _ => hd⟩
  · next hreg =>
      exact ⟨c.krnl.activeMswp, c.krnl.activeMswp.page t, rfl, rfl, rfl, rfl,
        (Function.update_eq_self ..).symm, fun h => absurd h hreg⟩

/-- An eviction, as a step of the pager: page `p` goes from frame `g` to the first free swap frame,
    and nobody owns `g` any more. -/
theorem run_evict {c' : Caller} {p : PageIx} {w : BitVec 64} {g t : ℕ} {rest : List ℕ}
    {d : Fin 4096 → Byte} (hg : residence (c.mm.entry p) = .ram g) (hw : residence w = .swap t)
    (hentry : c'.mm.entry = Function.update c.mm.entry p w)
    (hkrnl : c'.krnl.mm.entry = c.krnl.mm.entry) (hempty : c.krnl.mram.freeFpList = [])
    (hram : c'.krnl.mram.freeFpList = []) (hpage : c'.krnl.mram.page = c.krnl.mram.page)
    (hcons : c.krnl.activeMswp.freeFpList = t :: rest) (hnot : t ∉ rest)
    (hrest : c'.krnl.activeMswp.freeFpList = rest)
    (hswap : c'.krnl.activeMswp.page = Function.update c.krnl.activeMswp.page t d)
    (hexact : exact → d = c.krnl.mram.page g) :
    Run exact ∅ (c.pager pid others) (c'.heldPager pid others [g]) := by
  refine Run.single (U := ∅) ?_ (Set.empty_subset _)
  have hstep := Step.evict (s := c.pager pid others) (x := (.proc pid, p)) (f := g) (t := t)
    (by simpa using hg) (by simp [Caller.pager, hcons]) hexact
  convert hstep using 1
  apply State.ext
  · have hres : (c'.pager pid others).res = _ := pager_res_update hentry hkrnl
    rw [hw] at hres
    exact hres
  · simp only [Caller.heldPager, Caller.pager, hram, hempty]
    ext u
    simp
  · change {u | u ∈ c'.krnl.activeMswp.freeFpList} = {u | u ∈ c.krnl.activeMswp.freeFpList} \ {t}
    rw [hrest, hcons]
    ext u
    simp only [Set.mem_ofPred_eq, Set.mem_sdiff, List.mem_cons, Set.mem_singleton_iff]
    exact mem_tail_iff hnot
  · exact hpage
  · exact hswap

/-- A victim leaves RAM: the frame it was in is held, and it is in the swap frame that was free. -/
theorem Holding.of_victim (hc : ∀ n, host.calloc n = true) (hp : PoolsOk R S)
    (h : FrameInv host exact R S pid others c) (hempty : c.krnl.mram.freeFpList = []) {vic g t : ℕ}
    {mm : Mm} {mswp : Memphy} (hvic : findVictimPage c.mm = some (vic, mm))
    (hg : residence (c.mm.entry (pageIx host vic)) = .ram g)
    (hget : memphyGetFreefp c.krnl.activeMswp = some (t, mswp)) (pgn : ℕ) :
    let c₁ := (c.setMm (pteGetEntry host mm vic).2).setMswp mswp
    let c₂ := (syscall host c₁ 17 ⟨3, g, t⟩).2.2
    let c' := c₂.setMm (pteSetSwap host c₂.mm vic 0 t).2
    Holding host exact R S pid others c c' [g] ∧ PageMove host pgn c.mm c'.mm ∧
    ∀ p ≠ pageIx host vic, c'.mm.entry p = c.mm.entry p := by
  intro c₁ c₂ c'
  obtain ⟨hfifo, rfl⟩ := findVictimPage_eq_some hvic
  obtain ⟨rest, hcons, rfl⟩ := memphyGetFreefp_eq_some hget
  have hgR : g ∈ R := h.within.ram_mem (x := (.proc pid, pageIx host vic)) (by simpa using hg)
  have htS : t ∈ S := h.within.swap_free (t := t) (by simp [Caller.pager, hcons])
  have hglt := hp.ram_lt g hgR
  have htlt := hp.swap_lt t htS
  obtain ⟨hnot, hrest⟩ := List.nodup_cons.1 (hcons ▸ h.devices.swap_nodup)
  -- the copy changes one page of the swap device and no list
  obtain ⟨mswp', d, hc₂, hlist, hrdm, hsz, hpage, hd⟩ :=
    syscall_swp_spec host c₁ (g := g) (t := t) (by omega) (by omega)
  change c₂ = _ at hc₂
  have hentry₂ : c₂.mm.entry = c.mm.entry := by
    rw [hc₂, Caller.setMswp_mm]
    exact pteGetEntry_entry ..
  have hentry : (pteSetSwap host c₂.mm vic 0 t).2.entry = Function.update c.mm.entry
      (pageIx host vic) (pteSwapWord (c.mm.entry (pageIx host vic)) 0 t) := by
    rw [pteSetSwap_entry _ _ _ hc, hentry₂]
  have honly₂ : PagingOnly c c₂ := by
    rw [hc₂]
    have hmm : PagingOnly c (c.setMm (pteGetEntry host
        { c.mm with fifoPgn := c.mm.fifoPgn.dropLast } vic).2) := .setMm c (by simp) (by simp)
    exact (hmm.trans (.setMswp _ rfl rfl)).trans (.setMswp _ hrdm hsz)
  have honly : PagingOnly c c' :=
    honly₂.trans (.setMm c₂ (by simp [pteSetSwap]) (by simp [pteSetSwap]))
  have hmove : PageMove host pgn c.mm c'.mm := by
    refine .evict vic t hentry honly.mmap ?_
    have hlist' : c'.mm.fifoPgn = c.mm.fifoPgn.dropLast := by simp [c', pteSetSwap, hc₂, c₁]
    rw [hlist']
    exact hfifo
  have hram : c'.krnl.mram.freeFpList = [] := by
    change c₂.krnl.mram.freeFpList = []
    rw [hc₂]
    exact hempty
  have hswap : c'.krnl.activeMswp.freeFpList = rest := by
    change c₂.krnl.activeMswp.freeFpList = rest
    rw [hc₂, Caller.setMswp_activeMswp, hlist]
    rfl
  -- the calls together are one step of the pager: the victim is in `t`, and its frame is held
  refine ⟨⟨?_, ?_, honly, honly.devicesOk h.devices ?_ ?_, h.fifo.move hmove⟩, hmove, ?_⟩
  · have hexact : exact → d = c.krnl.mram.page g := fun he =>
      hd (h.devices.registered he) (h.devices.ram_holds he g hgR).rdm
        ⟨(h.devices.swap_holds he t htS).rdm, (h.devices.swap_holds he t htS).fits⟩
    refine run_evict hg (residence_pteSwapWord _ _ htlt) hentry honly.same.krnl_entry hempty hram ?_
      hcons hnot hswap ?_ hexact
    · change c₂.krnl.mram.page = c.krnl.mram.page
      rw [hc₂]
      rfl
    · change c₂.krnl.activeMswp.page = _
      rw [hc₂]
      exact hpage
  · rw [hram]
    exact List.nodup_singleton g
  · rw [hram]
    exact List.nodup_nil
  · rw [hswap]
    exact hrest
  · intro p hne
    change (pteSetSwap host c₂.mm vic 0 t).2.entry p = _
    rw [hentry, Function.update_of_ne hne]

/-- Changing only the statistics and the FIFO list of an address space. -/
theorem FrameInv.setMm_entry (h : FrameInv host exact R S pid others c) {mm : Mm}
    (hentry : mm.entry = c.mm.entry) (hmmap : mm.mmap = c.mm.mmap)
    (hfifo : mm.fifoPgn.Sublist c.mm.fifoPgn) (pgn : ℕ) :
    FrameInv host exact R S pid others (c.setMm mm) ∧
    (c.setMm mm).pager pid others = c.pager pid others ∧
    PageMove host pgn c.mm (c.setMm mm).mm := by
  have hpager : (c.setMm mm).pager pid others = c.pager pid others :=
    State.ext (pager_res_congr hentry rfl) rfl rfl rfl rfl
  have hmove : PageMove host pgn c.mm (c.setMm mm).mm := .drop hentry hmmap hfifo
  refine ⟨⟨hpager ▸ h.wf, hpager ▸ h.within, ?_, h.fifo.move hmove⟩, hpager, hmove⟩
  exact ⟨h.devices.ram_nodup, h.devices.swap_nodup, h.devices.registered, h.devices.ram_holds,
    h.devices.swap_holds⟩

/-- Getting a frame for a page: it is held afterwards, or nothing moved. -/
theorem getTargetFrame_spec (hc : ∀ n, host.calloc n = true) (hp : PoolsOk R S)
    (h : FrameInv host exact R S pid others c) (pgn : ℕ) :
    (∃ f c', getTargetFrame host c = (some f, c') ∧ Holding host exact R S pid others c c' [f] ∧
      PageMoves host {pgn} c.mm c'.mm ∧
      ∀ p, (∀ g, residence (c.mm.entry p) ≠ .ram g) → c'.mm.entry p = c.mm.entry p) ∨
    (∃ c', getTargetFrame host c = (none, c') ∧ FrameInv host exact R S pid others c' ∧
      PagingOnly c c' ∧ PageMoves host {pgn} c.mm c'.mm ∧
      c'.pager pid others = c.pager pid others) := by
  rw [getTargetFrame]
  split
  · next f mram hget =>
      -- a free frame
      obtain ⟨rest, hcons, rfl⟩ := memphyGetFreefp_eq_some hget
      exact Or.inl ⟨f, _, rfl, .of_free h hcons, .refl, fun _ _ => rfl⟩
  · next hnone =>
      have hempty := memphyGetFreefp_eq_none.1 hnone
      rw [stealFrame]
      split
      · -- there is no page to take one from
        exact Or.inr ⟨c, rfl, h, .refl c, .refl, rfl⟩
      · next vic mm hvic =>
          obtain ⟨hfifo, hmm⟩ := findVictimPage_eq_some hvic
          have hvmem : vic ∈ c.mm.fifoPgn := hfifo ▸ List.mem_append_right _ (List.mem_singleton_self _)
          obtain ⟨g, hg⟩ := h.fifo.ram vic hvmem
          have hfpn : pagingFpn (pteGetEntry host mm vic).1 = g := by
            rw [pteGetEntry_fst, hmm]
            exact (present_of_residence hg).2
          simp only [hfpn]
          split
          · -- swap is full: the victim has left the FIFO list, and stays where it is
            have hmm' : (pteGetEntry host mm vic).2.entry = c.mm.entry := by
              rw [pteGetEntry_entry, hmm]
              rfl
            obtain ⟨hinv, hpager, hmove⟩ := h.setMm_entry hmm' (by simp [hmm])
              (by simpa [hmm] using List.dropLast_sublist _) pgn
            exact Or.inr ⟨_, rfl, hinv, .setMm c (by simp [hmm]) (by simp [hmm]), hmove.moves, hpager⟩
          · next t mswp hget =>
              obtain ⟨hheld, hmove, hentry⟩ := Holding.of_victim hc hp h hempty hvic hg hget pgn
              exact Or.inl ⟨g, _, rfl, hheld, hmove.moves, fun p hp => hentry p fun he => hp g (he ▸ hg)⟩

/-! ## Putting a page in the frame -/

/-- Copying a swapped page into the held frame, as far as the pager sees it. -/
theorem swapIn_spec (host : Host) (c : Caller) {pte : BitVec 32} {f t : ℕ} (hf : f < 2 ^ 13)
    (hsw : pagingPageSwapped pte = true) (ht : pagingSwp pte = t) (htlt : t < 2 ^ 21) :
    ∃ (mram mswp : Memphy) (d : Fin 4096 → Byte),
      swapIn host c pte f = (c.setMram mram).setMswp mswp ∧
      mram.freeFpList = c.krnl.mram.freeFpList ∧
      mram.rdmflg = c.krnl.mram.rdmflg ∧ mram.storageSz = c.krnl.mram.storageSz ∧
      mram.page = Function.update c.krnl.mram.page f d ∧
      (c.krnl.activeMswp.rdmflg = true → c.krnl.mram.Holds f → d = c.krnl.activeMswp.page t) ∧
      (mswp = c.krnl.activeMswp ∨
        ∃ used, mswp = { c.krnl.activeMswp with
          freeFpList := t :: c.krnl.activeMswp.freeFpList, usedFpList := used }) := by
  obtain ⟨d, hpage, hd⟩ :=
    swapCpPage_page c.krnl.activeMswp t f host c.krnl.mram (by omega) (by omega)
  subst ht
  refine ⟨_, _, d, if_pos hsw, ?_, ?_, ?_, hpage, hd, ?_⟩
  · exact swapCpPage_freeFpList ..
  · exact swapCpPage_rdmflg ..
  · exact swapCpPage_storageSz ..
  · exact memphyPutFreefp_snd (by omega)

/-- The frames that are free or held, once one held frame is used. -/
theorem Holding.frames_tail {c₁ : Caller} {f : ℕ} {fs : List ℕ}
    (hf : Holding host exact R S pid others c c₁ (f :: fs)) :
    {g | g ∈ fs ++ c₁.krnl.mram.freeFpList} =
      {g | g ∈ f :: fs ++ c₁.krnl.mram.freeFpList} \ {f} := by
  have hnotin : f ∉ fs ++ c₁.krnl.mram.freeFpList := (List.nodup_cons.1 hf.nodup).1
  ext g
  simp only [List.cons_append, Set.mem_sdiff, Set.mem_ofPred_eq, List.mem_cons,
    Set.mem_singleton_iff]
  exact mem_tail_iff hnotin

/-- A page on the swap device is copied into the held frame. -/
theorem Holding.pageIn (hp : PoolsOk R S) (h : FrameInv host exact R S pid others c) {c₁ : Caller}
    {f : ℕ} {fs : List ℕ} (hf : Holding host exact R S pid others c c₁ (f :: fs)) (p : PageIx)
    (habs : pagingPagePresent ((c₁.mm.entry p).setWidth 32) = false)
    (hsw : pagingPageSwapped ((c₁.mm.entry p).setWidth 32) = true) :
    let c₂ := Ossim.swapIn host c₁ ((c₁.mm.entry p).setWidth 32) f
    PagingOnly c₁ c₂ ∧ c₂.mm = c₁.mm ∧ DevicesOk exact R S c₂ ∧
    c₂.krnl.mram.freeFpList = c₁.krnl.mram.freeFpList ∧
    Step exact (c₁.heldPager pid others (f :: fs)) ∅
      { c₂.heldPager pid others fs with
        res := Function.update (c₁.pager pid others).res (.proc pid, p) (.ram f) } := by
  have hin := hf.run.within h.within
  have hmem : f ∈ (c₁.heldPager pid others (f :: fs)).ramFree := by simp [Caller.heldPager]
  have hfR : f ∈ R := hin.ram_free hmem
  have hswap : (c₁.heldPager pid others (f :: fs)).res (.proc pid, p) =
      .swap (pagingSwp ((c₁.mm.entry p).setWidth 32)) := by
    rw [← residence_eq_swap habs hsw]
    exact pager_res_self c₁ pid others p
  have htS := hin.swap_mem hswap
  have hnotfree : pagingSwp ((c₁.mm.entry p).setWidth 32) ∉ c₁.krnl.activeMswp.freeFpList :=
    (hf.run.wf h.wf).swap_used hswap
  obtain ⟨mram, mswp, d, heq, hfl, hrdm, hsz, hpage, hd, hput⟩ :=
    swapIn_spec host c₁ (hp.ram_lt f hfR) hsw rfl (hp.swap_lt _ htS)
  intro c₂
  change c₂ = _ at heq
  have honly : PagingOnly c₁ c₂ := by
    rw [heq]
    refine (PagingOnly.setMram c₁ hrdm hsz).trans (.setMswp _ ?_ ?_)
    · rcases hput with rfl | ⟨_, rfl⟩ <;> rfl
    · rcases hput with rfl | ⟨_, rfl⟩ <;> rfl
  have hram : c₂.krnl.mram.freeFpList = c₁.krnl.mram.freeFpList := by
    rw [heq, Caller.setMswp_mram, Caller.setMram_mram, hfl]
  refine ⟨honly, by rw [heq]; rfl, honly.devicesOk hf.devices ?_ ?_, hram, ?_⟩
  · rw [hram]
    exact hf.devices.ram_nodup
  · rw [heq, Caller.setMswp_activeMswp]
    rcases hput with rfl | ⟨_, rfl⟩
    · exact hf.devices.swap_nodup
    · exact List.nodup_cons.2 ⟨hnotfree, hf.devices.swap_nodup⟩
  · -- the swap frame is given back, or lost if it was not on the used list
    have hF : {u | u ∈ mswp.freeFpList} = {u | u ∈ c₁.krnl.activeMswp.freeFpList} ∨
        {u | u ∈ mswp.freeFpList} = insert (pagingSwp ((c₁.mm.entry p).setWidth 32))
          {u | u ∈ c₁.krnl.activeMswp.freeFpList} := by
      rcases hput with rfl | ⟨_, rfl⟩
      · exact Or.inl rfl
      · right
        ext u
        simp
    have hexact : exact → d = (c₁.heldPager pid others (f :: fs)).swap
        (pagingSwp ((c₁.mm.entry p).setWidth 32)) := fun he =>
      hd (hf.devices.swap_holds he _ htS).rdm (hf.devices.ram_holds he f hfR)
    convert Step.pageIn hswap hmem hexact hF using 1
    refine State.ext rfl ?_ ?_ ?_ ?_
    · change {g | g ∈ fs ++ c₂.krnl.mram.freeFpList} = _
      rw [hram]
      exact hf.frames_tail
    · rw [heq]
      rfl
    · rw [heq]
      exact hpage
    · rw [heq]
      change mswp.page = c₁.krnl.activeMswp.page
      rcases hput with rfl | ⟨_, rfl⟩ <;> rfl

/-- The page-in as a step of the pager. Between the copy and the write of the entry the page is still
    where it was, so that state is not compared. -/
theorem Holding.swapIn (hp : PoolsOk R S) (h : FrameInv host exact R S pid others c) {c₁ : Caller}
    {f : ℕ} {fs : List ℕ} (hf : Holding host exact R S pid others c c₁ (f :: fs)) (p : PageIx)
    (habs : pagingPagePresent ((c₁.mm.entry p).setWidth 32) = false) :
    let c₂ := Ossim.swapIn host c₁ ((c₁.mm.entry p).setWidth 32) f
    PagingOnly c₁ c₂ ∧ c₂.mm = c₁.mm ∧ DevicesOk exact R S c₂ ∧
    c₂.krnl.mram.freeFpList = c₁.krnl.mram.freeFpList ∧
    Step exact (c₁.heldPager pid others (f :: fs)) ∅
      { c₂.heldPager pid others fs with
        res := Function.update (c₁.pager pid others).res (.proc pid, p) (.ram f) } := by
  cases hsw : pagingPageSwapped ((c₁.mm.entry p).setWidth 32) with
  | true => exact hf.pageIn hp h p habs hsw
  | false =>
      -- the page was nowhere: nothing is copied
      intro c₂
      have hc₂ : c₂ = c₁ := by simp [c₂, Ossim.swapIn, hsw]
      rw [hc₂]
      refine ⟨.refl c₁, rfl, hf.devices, rfl, ?_⟩
      have hmem : f ∈ (c₁.heldPager pid others (f :: fs)).ramFree := by simp [Caller.heldPager]
      have hnone : (c₁.heldPager pid others (f :: fs)).res (.proc pid, p) = .none := by
        rw [← residence_eq_none habs hsw]
        exact pager_res_self c₁ pid others p
      convert Step.map hnone hmem using 1
      exact State.ext rfl hf.frames_tail rfl rfl rfl

theorem installPage_entry (hc : ∀ n, host.calloc n = true) (c : Caller) (pgn f : ℕ) :
    (installPage host c pgn f).mm.entry = Function.update c.mm.entry (pageIx host pgn)
      (pteFpnWord (c.mm.entry (pageIx host pgn)) f) :=
  pteSetFpn_entry host c.mm pgn hc f

theorem installPage_fifoPgn (host : Host) (c : Caller) (pgn f : ℕ) :
    (installPage host c pgn f).mm.fifoPgn = pgn :: c.mm.fifoPgn :=
  congrArg (pgn :: ·) (pteSetFpn_fifoPgn host c.mm pgn f)

/-- A page that is not resident is put in a frame that is held. -/
theorem Holding.install (hc : ∀ n, host.calloc n = true) (hp : PoolsOk R S)
    (h : FrameInv host exact R S pid others c) {c₁ : Caller} {f pgn : ℕ} {fs : List ℕ}
    (hf : Holding host exact R S pid others c c₁ (f :: fs))
    (habs : pagingPagePresent ((c₁.mm.entry (pageIx host pgn)).setWidth 32) = false) :
    let c' := installPage host
      (Ossim.swapIn host c₁ ((c₁.mm.entry (pageIx host pgn)).setWidth 32) f) pgn f
    Holding host exact R S pid others c c' fs ∧ PageMove host pgn c₁.mm c'.mm ∧
    residence (c'.mm.entry (pageIx host pgn)) = .ram f ∧
    ∀ p ≠ pageIx host pgn, c'.mm.entry p = c₁.mm.entry p := by
  obtain ⟨honly₂, hmm₂, hdev₂, hram₂, hstep⟩ := hf.swapIn hp h (pageIx host pgn) habs
  generalize Ossim.swapIn host c₁ ((c₁.mm.entry (pageIx host pgn)).setWidth 32) f = c₂ at *
  have hflt := hp.ram_lt f
    ((hf.run.within h.within).ram_free (f := f) (by simp [Caller.heldPager]))
  intro c'
  have hentry : c'.mm.entry = Function.update c₁.mm.entry (pageIx host pgn)
      (pteFpnWord (c₁.mm.entry (pageIx host pgn)) f) := by
    rw [← hmm₂]
    exact installPage_entry hc c₂ pgn f
  have honly₁ : PagingOnly c₁ c' :=
    honly₂.trans (.setMm c₂ (by simp [enlistPgnNode, pteSetFpn]) (by simp [enlistPgnNode, pteSetFpn]))
  have honly : PagingOnly c c' := hf.only.trans honly₁
  have hmove : PageMove host pgn c₁.mm c'.mm := by
    refine .install f habs hentry honly₁.mmap ?_
    rw [← hmm₂]
    exact installPage_fifoPgn host c₂ pgn f
  refine ⟨⟨?_, ?_, honly, ?_, hf.fifo.move hmove⟩, hmove, ?_, ?_⟩
  · -- the entry is written after the copy, and only then is the page in the frame
    refine hf.run.trans (.single (U := ∅) ?_ (Set.empty_subset _))
    convert hstep using 1
    refine State.ext ?_ rfl rfl rfl rfl
    have hres : (c'.pager pid others).res = _ :=
      pager_res_update hentry honly₁.same.krnl_entry
    rw [residence_pteFpnWord _ hflt] at hres
    exact hres
  · change (fs ++ c₂.krnl.mram.freeFpList).Nodup
    rw [hram₂]
    exact (List.nodup_cons.1 hf.nodup).2
  · exact ⟨hdev₂.ram_nodup, hdev₂.swap_nodup, hdev₂.registered, hdev₂.ram_holds, hdev₂.swap_holds⟩
  · rw [hentry, Function.update_self, residence_pteFpnWord _ hflt]
  · intro p hne
    rw [hentry, Function.update_of_ne hne]

theorem HoldsFrames.install (hc : ∀ n, host.calloc n = true) (hp : PoolsOk R S)
    (h : MemInv host exact R S pid others c) {c₁ : Caller} {f pgn : ℕ} {fs : List ℕ}
    (hf : HoldsFrames host exact R S pid others c c₁ (f :: fs)) (hpgn : pgn < 2 ^ 45)
    (hend : c.proc.registered = true → pgn * 4096 < c.mm.mmap.vmEnd)
    (habs : pagingPagePresent ((c₁.mm.entry (pageIx host pgn)).setWidth 32) = false) :
    let c' := installPage host
      (Ossim.swapIn host c₁ ((c₁.mm.entry (pageIx host pgn)).setWidth 32) f) pgn f
    HoldsFrames host exact R S pid others c c' fs ∧
    residence (c'.mm.entry (pageIx host pgn)) = .ram f ∧
    ∀ p ≠ pageIx host pgn, c'.mm.entry p = c₁.mm.entry p := by
  obtain ⟨hf', hmove, hres, hkeep⟩ := hf.holding.install hc hp h.frameInv habs
  refine ⟨hf'.holdsFrames ?_, hres, hkeep⟩
  rw [← hf.only.registered, ← hf.only.mmap] at hend
  have hpages := hf.pages.move hpgn hend hmove
  rw [hf.only.registered, ← hf'.only.registered] at hpages
  exact hpages

/-! ## The whole fault -/

/-- **Demand paging.** Asking for a page of the process keeps the invariant and the content of every
    page, and the frame that is returned is where the page is. -/
theorem FrameInv.getpage (hc : ∀ n, host.calloc n = true) (hp : PoolsOk R S)
    (h : FrameInv host exact R S pid others c) (pgn : ℕ) :
    let r := pgGetpage host c pgn
    FrameInv host exact R S pid others r.2 ∧ PagingOnly c r.2 ∧ PageMoves host {pgn} c.mm r.2.mm ∧
    Run exact ∅ (c.pager pid others) (r.2.pager pid others) ∧
    ∀ f, r.1 = some f → residence (r.2.mm.entry (pageIx host pgn)) = .ram f := by
  -- the two lookups only count
  have hget : ∀ {c : Caller}, FrameInv host exact R S pid others c →
      FrameInv host exact R S pid others (c.setMm (pteGetEntry host c.mm pgn).2) ∧
      PagingOnly c (c.setMm (pteGetEntry host c.mm pgn).2) ∧
      PageMove host pgn c.mm (c.setMm (pteGetEntry host c.mm pgn).2).mm ∧
      (c.setMm (pteGetEntry host c.mm pgn).2).pager pid others = c.pager pid others := by
    intro c h
    obtain ⟨hinv, hpager, hmove⟩ := h.setMm_entry (pteGetEntry_entry host c.mm pgn)
      (pteGetEntry_mmap host c.mm pgn) (by rw [pteGetEntry_fifoPgn]) pgn
    exact ⟨hinv, .setMm c (by simp) (by simp), hmove, hpager⟩
  obtain ⟨h₀, honly₀, hmove₀, hpager₀⟩ := hget h
  have hentry₀ : (c.setMm (pteGetEntry host c.mm pgn).2).mm.entry = c.mm.entry := by simp
  simp only [pgGetpage]
  cases hpres : pagingPagePresent (pteGetEntry host c.mm pgn).1 with
  | true =>
      simp only [if_true]
      obtain ⟨h₁, honly₁, hmove₁, hpager₁⟩ := hget h₀
      refine ⟨h₁, honly₀.trans honly₁, hmove₀.moves.trans hmove₁.moves, ?_, ?_⟩
      · rw [hpager₁, hpager₀]
        exact .refl _
      · intro f hf
        simp only [Option.some.injEq, pteGetEntry_fst, Caller.setMm_mm, pteGetEntry_entry] at hf hpres ⊢
        rw [← hf]
        exact residence_eq_ram hpres
  | false =>
      simp only [Bool.false_eq_true, if_false]
      rcases getTargetFrame_spec hc hp h₀ pgn with
        ⟨f, c₁, htgt, hf, hmoves₁, hkeep⟩ | ⟨c₁, htgt, h₁, honly₁, hmoves₁, hpager₁⟩
      · rw [htgt]
        -- getting the frame has not moved the page
        have hword : (pteGetEntry host c.mm pgn).1 =
            (c₁.mm.entry (pageIx host pgn)).setWidth 32 := by
          rw [pteGetEntry_fst] at hpres ⊢
          rw [hkeep, hentry₀]
          intro g hg
          rw [hentry₀] at hg
          rw [(present_of_residence hg).1] at hpres
          exact absurd hpres (by simp)
        rw [hword] at hpres ⊢
        obtain ⟨hf₂, hmove₂, hres, -⟩ := hf.install hc hp h₀ hpres
        simp only
        generalize installPage host (Ossim.swapIn host c₁ _ f) pgn f = c₂ at *
        obtain ⟨h₃, honly₃, hmove₃, hpager₃⟩ := hget (hf₂.frameInv h₀)
        refine ⟨h₃, (honly₀.trans hf₂.only).trans honly₃, ?_, ?_, ?_⟩
        · exact ((hmove₀.moves.trans hmoves₁).trans hmove₂.moves).trans hmove₃.moves
        · rw [hpager₃, ← hpager₀]
          exact hf₂.run
        · intro g hg
          simp only [Option.some.injEq, pteGetEntry_fst, Caller.setMm_mm, pteGetEntry_entry] at hg ⊢
          rw [hres, ← hg, (present_of_residence hres).2]
      · rw [htgt]
        refine ⟨h₁, honly₀.trans honly₁, hmove₀.moves.trans hmoves₁, ?_, by simp⟩
        rw [hpager₁, hpager₀]
        exact .refl _

theorem pgGetpage_spec (hc : ∀ n, host.calloc n = true) (hp : PoolsOk R S)
    (h : MemInv host exact R S pid others c) {pgn : ℕ} (hpgn : pgn < 2 ^ 45)
    (hend : c.proc.registered = true → pgn * 4096 < c.mm.mmap.vmEnd) :
    let r := pgGetpage host c pgn
    MemInv host exact R S pid others r.2 ∧ PagingOnly c r.2 ∧
    Run exact ∅ (c.pager pid others) (r.2.pager pid others) ∧
    ∀ f, r.1 = some f → residence (r.2.mm.entry (pageIx host pgn)) = .ram f := by
  obtain ⟨hinv, honly, hmoves, hrun, hres⟩ := h.frameInv.getpage hc hp pgn
  refine ⟨⟨hinv.wf, hinv.within, hinv.devices, ?_, honly.regionsOk h.regions, ?_⟩, honly, hrun, hres⟩
  · rw [honly.registered]
    refine h.pages.moves (fun q hq => ?_) hmoves
    obtain rfl : q = pgn := hq
    exact ⟨hpgn, hend⟩
  · rw [honly.same.krnl_entry]
    exact h.pinned

end Fault

end Ossim
