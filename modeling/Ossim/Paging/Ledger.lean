import Ossim.Lib.Ledger
import Ossim.Paging.Queue

set_option autoImplicit false

/-! # The frame lists as books of the pager

The used lists of the two devices are the books of the frames (`Books`): a frame of RAM gets on its
list when it is taken off the free list, and the code then puts a page in it; a frame of swap is
released when its page comes back. This holds whatever numbers the program passes, as long as no page
is mapped that is mapped already: then its old frame stays on the list for good. -/

namespace Ossim

open Pager

/-! ## Books -/

/-- The pages of an address space: no entry has both marks, and the FIFO list has slots of resident
    pages, each once. -/
structure PagesBooked (host : Host) (mm : Mm) : Prop where
  marks : ∀ p, Unambiguous (mm.entry p)
  fifo_nodup : (mm.fifoPgn.map (pageIx host)).Nodup
  fifo_ram : ∀ pgn ∈ mm.fifoPgn, ∃ f, residence (mm.entry (pageIx host pgn)) = .ram f

/-- Frame numbers of RAM fit an `int`, those of swap fit an entry, and no kernel entry has both
    marks. -/
structure KrnlBooked (krnl : Krnl) : Prop where
  ram_lt : ∀ f ∈ krnl.mram.freeFpList, f < 2 ^ 31
  swap_free_lt : ∀ t ∈ krnl.activeMswp.freeFpList, t < 2 ^ 21
  swap_used_lt : ∀ t ∈ krnl.activeMswp.usedFpList, t < 2 ^ 21
  marks : ∀ p, Unambiguous (krnl.mm.entry p)

/-- The books are in order, with `held` frames of RAM that have no page yet. -/
structure Caller.Booked (host : Host) (pid : ℕ) (others : ℕ → PageIx → Residence) (held : ℕ)
    (c : Caller) : Prop where
  books : Books (c.pager pid others).res c.krnl.mram.usedFpList.length
    c.krnl.activeMswp.freeFpList c.krnl.activeMswp.usedFpList held
  krnl : KrnlBooked c.krnl
  pages : PagesBooked host c.mm

/-- What the books are about is the same, but for pages off the FIFO list. -/
structure SameBooks (c c' : Caller) : Prop where
  entry : c'.mm.entry = c.mm.entry
  fifo : c'.mm.fifoPgn.Sublist c.mm.fifoPgn
  krnl_entry : c'.krnl.mm.entry = c.krnl.mm.entry
  ram_used : c'.krnl.mram.usedFpList.length = c.krnl.mram.usedFpList.length
  ram_free : ∀ f ∈ c'.krnl.mram.freeFpList, f ∈ c.krnl.mram.freeFpList
  swap_used : c'.krnl.activeMswp.usedFpList = c.krnl.activeMswp.usedFpList
  swap_free : c'.krnl.activeMswp.freeFpList = c.krnl.activeMswp.freeFpList

namespace SameBooks

theorem refl (c : Caller) : SameBooks c c := ⟨rfl, .refl _, rfl, rfl, fun _ h => h, rfl, rfl⟩

theorem setMm (c : Caller) {mm : Mm} (hentry : mm.entry = c.mm.entry)
    (hfifo : mm.fifoPgn.Sublist c.mm.fifoPgn) : SameBooks c (c.setMm mm) :=
  ⟨hentry, hfifo, rfl, rfl, fun _ h => h, rfl, rfl⟩

theorem setMram (c : Caller) {mp : Memphy} (hused : mp.usedFpList = c.krnl.mram.usedFpList)
    (hfree : mp.freeFpList = c.krnl.mram.freeFpList) : SameBooks c (c.setMram mp) :=
  ⟨rfl, .refl _, rfl, congrArg List.length hused, fun _ h => hfree ▸ h, rfl, rfl⟩

theorem setMswp (c : Caller) {mp : Memphy} (hused : mp.usedFpList = c.krnl.activeMswp.usedFpList)
    (hfree : mp.freeFpList = c.krnl.activeMswp.freeFpList) : SameBooks c (c.setMswp mp) :=
  ⟨rfl, .refl _, rfl, rfl, fun _ h => h, hused, hfree⟩

theorem setKrnlMm (c : Caller) {mm : Mm} (hentry : mm.entry = c.krnl.mm.entry) :
    SameBooks c { c with krnl := { c.krnl with mm := mm } } :=
  ⟨rfl, .refl _, hentry, rfl, fun _ h => h, rfl, rfl⟩

theorem setRegs (c : Caller) (regs : ℕ → ℕ) : SameBooks c { c with proc := { c.proc with regs := regs } } :=
  ⟨rfl, .refl _, rfl, rfl, fun _ h => h, rfl, rfl⟩

end SameBooks

/-- The entries and the list after one entry changed. -/
theorem PagesBooked.update {host : Host} {mm mm' : Mm} (h : PagesBooked host mm) {p : PageIx}
    {w : BitVec 64} (hw : Unambiguous w) (hentry : mm'.entry = Function.update mm.entry p w)
    (hnodup : (mm'.fifoPgn.map (pageIx host)).Nodup)
    (hfifo : ∀ pgn ∈ mm'.fifoPgn, (pageIx host pgn ≠ p ∧ pgn ∈ mm.fifoPgn) ∨
      (pageIx host pgn = p ∧ ∃ f, residence w = .ram f)) : PagesBooked host mm' := by
  refine ⟨fun q => ?_, hnodup, fun pgn hpgn => ?_⟩
  · rw [hentry, Function.update_apply]
    split
    · exact hw
    · exact h.marks q
  · rw [hentry]
    rcases hfifo pgn hpgn with ⟨hne, hmem⟩ | ⟨heq, hram⟩
    · rw [Function.update_of_ne hne]
      exact h.fifo_ram pgn hmem
    · rw [heq, Function.update_self]
      exact hram

section Fault

variable {host : Host} {pid held : ℕ} {others : ℕ → PageIx → Residence} {c c' : Caller}

theorem Caller.Booked.congr (h : c.Booked host pid others held) (hs : SameBooks c c') :
    c'.Booked host pid others held := by
  refine ⟨?_, ⟨?_, ?_, ?_, ?_⟩, ⟨?_, ?_, ?_⟩⟩
  · rw [pager_res_congr hs.entry hs.krnl_entry, hs.ram_used, hs.swap_free, hs.swap_used]
    exact h.books
  · exact fun f hf => h.krnl.ram_lt f (hs.ram_free f hf)
  · rw [hs.swap_free]
    exact h.krnl.swap_free_lt
  · rw [hs.swap_used]
    exact h.krnl.swap_used_lt
  · rw [hs.krnl_entry]
    exact h.krnl.marks
  · rw [hs.entry]
    exact h.pages.marks
  · exact h.pages.fifo_nodup.sublist (hs.fifo.map _)
  · intro pgn hpgn
    rw [hs.entry]
    exact h.pages.fifo_ram pgn (hs.fifo.subset hpgn)

/-! ## A page fault -/

/-- The copy of a frame to swap leaves the lists alone. -/
theorem syscall_swp_lists (host : Host) (c : Caller) (g t : ℕ) :
    ∃ mswp, (syscall host c 17 ⟨3, g, t⟩).2.2 = c.setMswp mswp ∧
      mswp.freeFpList = c.krnl.activeMswp.freeFpList ∧
      mswp.usedFpList = c.krnl.activeMswp.usedFpList := by
  rw [syscall_swp]
  split
  · exact ⟨_, rfl, swapCpPage_freeFpList .., swapCpPage_usedFpList ..⟩
  · exact ⟨c.krnl.activeMswp, rfl, rfl, rfl⟩

/-- A victim goes to the first free frame of swap; its frame of RAM is held. -/
theorem Caller.Booked.evict (hc : ∀ n, host.calloc n = true) (h : c.Booked host pid others held)
    {vic g t : ℕ} {mm : Mm} {mswp : Memphy} (hvic : findVictimPage c.mm = some (vic, mm))
    (hget : memphyGetFreefp c.krnl.activeMswp = some (t, mswp)) :
    let c₁ := (c.setMm (pteGetEntry host mm vic).2).setMswp mswp
    let c₂ := (syscall host c₁ 17 ⟨3, g, t⟩).2.2
    let c' := c₂.setMm (pteSetSwap host c₂.mm vic 0 t).2
    c'.Booked host pid others (held + 1) ∧
    ∀ p, (∀ f, residence (c.mm.entry p) ≠ .ram f) → c'.mm.entry p = c.mm.entry p := by
  obtain ⟨hfifo, rfl⟩ := findVictimPage_eq_some hvic
  obtain ⟨rest, hcons, rfl⟩ := memphyGetFreefp_eq_some hget
  intro c₁ c₂ c'
  obtain ⟨mswp', hc₂, hfree, hused⟩ := syscall_swp_lists host c₁ g t
  change c₂ = _ at hc₂
  have hvmem : vic ∈ c.mm.fifoPgn := hfifo ▸ List.mem_append_right _ (List.mem_singleton_self vic)
  obtain ⟨f, hf⟩ := h.pages.fifo_ram vic hvmem
  have htlt : t < 2 ^ 21 := h.krnl.swap_free_lt t (by rw [hcons]; exact List.mem_cons_self ..)
  have hentry : c'.mm.entry = Function.update c.mm.entry (pageIx host vic)
      (pteSwapWord (c.mm.entry (pageIx host vic)) 0 t) := by
    have hentry₂ : c₂.mm.entry = c.mm.entry := by
      rw [hc₂, Caller.setMswp_mm]
      exact pteGetEntry_entry ..
    change (pteSetSwap host c₂.mm vic 0 t).2.entry = _
    rw [pteSetSwap_entry _ _ _ hc, hentry₂]
  have hk : c'.krnl = { c.krnl with activeMswp := mswp' } := by
    change c₂.krnl = _
    rw [hc₂]
    rfl
  have hlist : c'.mm.fifoPgn = c.mm.fifoPgn.dropLast := by
    change (pteSetSwap host c₂.mm vic 0 t).2.fifoPgn = _
    rw [pteSetSwap_fifoPgn, hc₂, Caller.setMswp_mm]
    exact pteGetEntry_fifoPgn ..
  refine ⟨⟨?_, ?_, ?_⟩, fun p hp => ?_⟩
  · -- `t` goes from the free list of swap to the used one
    have hbooks := h.books
    rw [hcons] at hbooks
    have hres : (c'.pager pid others).res = _ := pager_res_update hentry (by rw [hk])
    rw [residence_pteSwapWord _ _ htlt] at hres
    rw [hres, hk]
    change Books _ _ mswp'.freeFpList mswp'.usedFpList _
    rw [hfree, hused]
    exact hbooks.evict (by simpa using hf)
  · rw [hk]
    refine ⟨h.krnl.ram_lt, fun u hu => ?_, fun u hu => ?_, h.krnl.marks⟩
    · rw [hfree] at hu
      exact h.krnl.swap_free_lt u (by rw [hcons]; exact List.mem_cons_of_mem _ hu)
    · rw [hused] at hu
      rcases List.mem_cons.1 hu with rfl | hu
      · exact htlt
      · exact h.krnl.swap_used_lt u hu
  · -- the victim's slot is not that of another page on the list
    have hsplit : (c.mm.fifoPgn.dropLast.map (pageIx host) ++ [pageIx host vic]).Nodup := by
      have hnodup := h.pages.fifo_nodup
      rw [hfifo] at hnodup
      simpa using hnodup
    obtain ⟨hnodup, -, hdisj⟩ := List.nodup_append.1 hsplit
    refine h.pages.update (unambiguous_pteSwapWord _ _ _) hentry ?_ fun pgn hpgn => ?_
    · rw [hlist]
      exact hnodup
    · rw [hlist] at hpgn
      refine Or.inl ⟨?_, List.mem_of_mem_dropLast hpgn⟩
      exact hdisj _ (List.mem_map_of_mem hpgn) _ (List.mem_singleton_self _)
  · rw [hentry, Function.update_of_ne]
    rintro rfl
    exact hp f hf

/-- Getting a frame of RAM: it is held afterwards, or none was to be had. -/
theorem getTargetFrame_booked (hc : ∀ n, host.calloc n = true) (h : c.Booked host pid others held) :
    (∃ f c', getTargetFrame host c = (some f, c') ∧ c'.Booked host pid others (held + 1) ∧
      ∀ p, (∀ g, residence (c.mm.entry p) ≠ .ram g) → c'.mm.entry p = c.mm.entry p) ∨
    ∃ c', getTargetFrame host c = (none, c') ∧ c'.Booked host pid others held := by
  rw [getTargetFrame]
  split
  · next f mram hget =>
      obtain ⟨rest, hcons, rfl⟩ := memphyGetFreefp_eq_some hget
      refine Or.inl ⟨f, _, rfl, ⟨h.books.take 1, ?_, h.pages⟩, fun _ _ => rfl⟩
      refine ⟨fun g hg => h.krnl.ram_lt g ?_, h.krnl.swap_free_lt, h.krnl.swap_used_lt, h.krnl.marks⟩
      rw [hcons]
      exact List.mem_cons_of_mem _ hg
  · rw [stealFrame]
    split
    · exact Or.inr ⟨c, rfl, h⟩
    · next vic mm hvic =>
        simp only
        split
        · -- swap is full: the books do not mind a page that is no longer on the FIFO list
          obtain ⟨hfifo, rfl⟩ := findVictimPage_eq_some hvic
          refine Or.inr ⟨_, rfl, h.congr (.setMm c (by rw [pteGetEntry_entry]; rfl) ?_)⟩
          rw [pteGetEntry_fifoPgn]
          exact List.dropLast_sublist _
        · next t mswp hget =>
            obtain ⟨hbooked, hkeep⟩ := h.evict hc hvic hget
            exact Or.inl ⟨_, _, rfl, hbooked, hkeep⟩

/-- A page-in releases the frame of swap; the copy leaves the lists of RAM alone. -/
theorem swapIn_lists (host : Host) (c : Caller) {pte : BitVec 32} (f : ℕ) {t : ℕ}
    (hsw : pagingPageSwapped pte = true) (ht : pagingSwp pte = t) (hlt : t < 2 ^ 31)
    (hused : t ∈ c.krnl.activeMswp.usedFpList) :
    ∃ mram, swapIn host c pte f = (c.setMram mram).setMswp { c.krnl.activeMswp with
        freeFpList := t :: c.krnl.activeMswp.freeFpList
        usedFpList := c.krnl.activeMswp.usedFpList.erase t } ∧
      mram.freeFpList = c.krnl.mram.freeFpList ∧ mram.usedFpList = c.krnl.mram.usedFpList := by
  subst ht
  refine ⟨swapCpPage host c.krnl.activeMswp (pagingSwp pte) c.krnl.mram f, ?_,
    swapCpPage_freeFpList .., swapCpPage_usedFpList ..⟩
  exact (if_pos hsw).trans (congrArg (Caller.setMswp _) (memphyPutFreefp_of_mem hlt hused))

/-- A page that is not resident comes to a frame that is held. -/
theorem Caller.Booked.install (hc : ∀ n, host.calloc n = true)
    (h : c.Booked host pid others (held + 1)) {pgn : ℕ}
    (habs : ∀ g, residence (c.mm.entry (pageIx host pgn)) ≠ .ram g) (f : ℕ) :
    let c' := installPage host
      (swapIn host c ((c.mm.entry (pageIx host pgn)).setWidth 32) f) pgn f
    c'.Booked host pid others held ∧
    (∃ g, residence (c'.mm.entry (pageIx host pgn)) = .ram g) ∧
    ∀ p ≠ pageIx host pgn, c'.mm.entry p = c.mm.entry p := by
  obtain ⟨g, hg⟩ := residence_pteFpnWord_ram (c.mm.entry (pageIx host pgn)) f
  -- the books with the page where it is going to be, and the lists as the page-in leaves them
  have hbooks : let krnl := (swapIn host c ((c.mm.entry (pageIx host pgn)).setWidth 32) f).krnl
      Books (Function.update (c.pager pid others).res (.proc pid, pageIx host pgn) (.ram g))
        krnl.mram.usedFpList.length krnl.activeMswp.freeFpList krnl.activeMswp.usedFpList held ∧
      KrnlBooked krnl ∧ krnl.mm = c.krnl.mm := by
    cases hres : residence (c.mm.entry (pageIx host pgn)) with
    | ram g => exact absurd hres (habs g)
    | none =>
        rw [swapIn, if_neg (by simp [(absent_of_residence hres).2])]
        exact ⟨h.books.map (by simpa using hres), h.krnl, rfl⟩
    | swap t =>
        have hsw := swapped_of_residence hres
        have htpte : pagingSwp ((c.mm.entry (pageIx host pgn)).setWidth 32) = t := by
          rw [residence_eq_swap (h.pages.marks _ hsw) hsw] at hres
          exact Residence.swap.inj hres
        have hused : t ∈ c.krnl.activeMswp.usedFpList :=
          (h.books.swap_used t).2 ⟨(.proc pid, pageIx host pgn), by simpa using hres⟩
        have htlt := h.krnl.swap_used_lt t hused
        obtain ⟨mram, heq, hram_free, hram_used⟩ := swapIn_lists host c f hsw htpte (by omega) hused
        simp only [heq]
        refine ⟨?_, ⟨?_, ?_, ?_, h.krnl.marks⟩, rfl⟩
        · change Books _ mram.usedFpList.length _ _ _
          rw [hram_used]
          exact h.books.pageIn (by simpa using hres)
        · change ∀ u ∈ mram.freeFpList, u < 2 ^ 31
          rw [hram_free]
          exact h.krnl.ram_lt
        · exact List.forall_mem_cons.2 ⟨htlt, h.krnl.swap_free_lt⟩
        · exact fun u hu => h.krnl.swap_used_lt u (List.mem_of_mem_erase hu)
  have hmm := swapIn_mm host c ((c.mm.entry (pageIx host pgn)).setWidth 32) f
  generalize swapIn host c ((c.mm.entry (pageIx host pgn)).setWidth 32) f = c₂ at hbooks hmm
  obtain ⟨hbooks, hkrnl, hk⟩ := hbooks
  intro c'
  have hentry : c'.mm.entry = Function.update c.mm.entry (pageIx host pgn)
      (pteFpnWord (c.mm.entry (pageIx host pgn)) f) := by
    rw [← hmm]
    exact installPage_entry hc c₂ pgn f
  have hfifo : c'.mm.fifoPgn = pgn :: c.mm.fifoPgn := by
    rw [← hmm]
    exact installPage_fifoPgn host c₂ pgn f
  -- a page that is not resident has no slot on the list
  have hnot : ∀ q ∈ c.mm.fifoPgn, pageIx host q ≠ pageIx host pgn := by
    intro q hq he
    obtain ⟨g, hg⟩ := h.pages.fifo_ram q hq
    exact habs g (he ▸ hg)
  refine ⟨⟨?_, hkrnl, ?_⟩, ⟨g, ?_⟩, fun p hp => ?_⟩
  · have hres : (c'.pager pid others).res = _ :=
      pager_res_update hentry (congrArg Mm.entry hk)
    rw [hg] at hres
    rw [hres]
    exact hbooks
  · refine h.pages.update (unambiguous_pteFpnWord _ _) hentry ?_ fun q hq => ?_
    · rw [hfifo, List.map_cons, List.nodup_cons]
      refine ⟨fun hmem => ?_, h.pages.fifo_nodup⟩
      obtain ⟨q, hq, he⟩ := List.mem_map.1 hmem
      exact hnot q hq he
    · rw [hfifo] at hq
      rcases List.mem_cons.1 hq with rfl | hq
      · exact Or.inr ⟨rfl, g, hg⟩
      · exact Or.inl ⟨hnot q hq, hq⟩
  · rw [hentry, Function.update_self]
    exact hg
  · rw [hentry, Function.update_of_ne hp]

/-- **A page fault** keeps the books, for any page number. -/
theorem pgGetpage_booked (hc : ∀ n, host.calloc n = true) (h : c.Booked host pid others 0) (pgn : ℕ) :
    (pgGetpage host c pgn).2.Booked host pid others 0 := by
  -- the two lookups only count
  have hget : ∀ {c : Caller}, c.Booked host pid others 0 →
      (c.setMm (pteGetEntry host c.mm pgn).2).Booked host pid others 0 := fun h =>
    h.congr (.setMm _ (pteGetEntry_entry ..) (by rw [pteGetEntry_fifoPgn]))
  have h₀ := hget h
  have hentry₀ : (c.setMm (pteGetEntry host c.mm pgn).2).mm.entry = c.mm.entry := by simp
  simp only [pgGetpage]
  split
  · exact hget h₀
  · next hpres =>
      have habs : ∀ g, residence (c.mm.entry (pageIx host pgn)) ≠ .ram g := fun g hg => by
        rw [pteGetEntry_fst] at hpres
        exact hpres (present_of_residence hg).1
      rcases getTargetFrame_booked hc h₀ with ⟨f, c₁, htgt, h₁, hkeep⟩ | ⟨c₁, htgt, h₁⟩
      · have hsame : c₁.mm.entry (pageIx host pgn) = c.mm.entry (pageIx host pgn) := by
          rw [hkeep _ (by rwa [hentry₀]), hentry₀]
        obtain ⟨h₂, -⟩ := h₁.install hc (by rwa [hsame]) f
        rw [htgt, pteGetEntry_fst, ← hsame]
        exact hget h₂
      · rw [htgt]
        exact h₁

/-! ## Accesses -/

/-- A fault followed by something that leaves the books alone. -/
theorem Caller.Booked.access (hc : ∀ n, host.calloc n = true) (h : c.Booked host pid others 0)
    (pgn : ℕ) (hs : SameBooks (pgGetpage host c pgn).2 c') : c'.Booked host pid others 0 :=
  (pgGetpage_booked hc h pgn).congr hs

theorem syscall_ioRead_books (c : Caller) (phy : ℕ) :
    SameBooks c (syscall host c 17 ⟨4, phy, 0⟩).2.2 := by
  rw [syscall_ioRead, memphyRead_snd]
  split <;> exact .refl c

theorem syscall_ioWrite_books (c : Caller) (phy : ℕ) (value : Byte) :
    SameBooks c (syscall host c 17 ⟨5, phy, addrOfByte value⟩).2.2 := by
  rw [syscall_ioWrite]
  split
  · exact .setMram c (memphyWrite_usedFpList ..) (memphyWrite_freeFpList ..)
  · exact .refl c

theorem read_booked (hc : ∀ n, host.calloc n = true) (h : c.Booked host pid others 0)
    (rgid offset : ℕ) : (read host c rgid offset).2.Booked host pid others 0 := by
  rw [read]
  split
  · exact h
  · next vaddr _ =>
      refine h.access hc (pgnOfIntAddr vaddr) ?_
      rw [pgGetval]
      generalize pgGetpage host c (pgnOfIntAddr vaddr) = r
      obtain ⟨fpn, c₁⟩ := r
      cases fpn with
      | none => exact .refl c₁
      | some f => exact syscall_ioRead_books c₁ _

theorem write_booked (hc : ∀ n, host.calloc n = true) (h : c.Booked host pid others 0)
    (rgid offset : ℕ) (value : Byte) : (write host c rgid offset value).2.Booked host pid others 0 := by
  rw [write]
  split
  · exact h
  · next vaddr _ =>
      refine h.access hc (pgnOfIntAddr vaddr) ?_
      rw [pgSetval]
      generalize pgGetpage host c (pgnOfIntAddr vaddr) = r
      obtain ⟨fpn, c₁⟩ := r
      cases fpn with
      | none => exact .refl c₁
      | some f => exact syscall_ioWrite_books c₁ _ value

theorem writeUserMem_booked (hc : ∀ n, host.calloc n = true) (h : c.Booked host pid others 0)
    (rgid offset : ℕ) (value : Byte) :
    (writeUserMem host c rgid offset value).2.Booked host pid others 0 := by
  rw [writeUserMem]
  split
  · exact h
  · next vaddr _ =>
      refine h.access hc (addrOfInt (vaddr >>> 12)) ?_
      generalize pgGetpage host c (addrOfInt (vaddr >>> 12)) = r
      obtain ⟨fpn, c₁⟩ := r
      cases fpn with
      | none => exact .refl c₁
      | some f => exact .setMram c₁ (memphyWrite_usedFpList ..) (memphyWrite_freeFpList ..)

/-- Reading kernel memory only counts. -/
theorem readKernelMem_books (host : Host) (c : Caller) (rgid offset : ℕ) :
    SameBooks c (readKernelMem host c rgid offset).2 := by
  rw [readKernelMem]
  split
  · exact .refl c
  · simp only [kernelFrame]
    split
    · next heq =>
        obtain ⟨-, rfl⟩ := Prod.mk.inj heq
        exact .setKrnlMm c (pteGetEntry_entry ..)
    · next heq =>
        obtain ⟨-, rfl⟩ := Prod.mk.inj heq
        simp only [memphyRead_snd]
        exact .setKrnlMm c (pteGetEntry_entry ..)

theorem copyLoop_booked (hc : ∀ n, host.calloc n = true) (h : c.Booked host pid others 0)
    (source destination offset n i : ℕ) :
    (copyLoop host source destination offset n i c).2.Booked host pid others 0 := by
  induction n generalizing c i with
  | zero => exact h
  | succ n ih =>
      have h₁ := h.congr (readKernelMem_books host c source (uint32 (offset + i)))
      rw [copyLoop]
      generalize readKernelMem host c source (uint32 (offset + i)) = r at h₁
      obtain ⟨byte, c₁⟩ := r
      cases byte with
      | none => exact h₁
      | some b =>
          have h₂ := writeUserMem_booked hc h₁ destination (uint32 (offset + i)) b
          simp only
          generalize writeUserMem host c₁ destination (uint32 (offset + i)) b = r at h₂
          obtain ⟨st, c₂⟩ := r
          split
          · next heq =>
              cases heq
              exact ih h₂ (i + 1)
          · next heq =>
              cases heq
              exact h₂

theorem libkmemCopy_booked (hc : ∀ n, host.calloc n = true) (h : c.Booked host pid others 0)
    (source destination offset size : ℕ) :
    (libkmemCopy host c source destination offset size).2.Booked host pid others 0 := by
  rw [libkmemCopy]
  split
  · exact h
  · exact copyLoop_booked hc h source destination offset size 0

end Fault

end Ossim
