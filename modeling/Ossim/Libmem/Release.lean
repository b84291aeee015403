import Ossim.Libmem.Proofs

set_option autoImplicit false

/-! # Releasing the frames of a process

`free_pcb_memph` reads the root of a page table as if it were the table of entries of the 32-bit
layout: `PAGING_MAX_PGN` words where there are `PAGING64_DIR_ENTRIES` slots, and in them the addresses
of tables, which it takes for entries. The entries themselves are never read. -/

namespace Ossim

/-- An entry names a frame of RAM. -/
def Mm.NamesFrame (mm : Mm) (f : ℕ) : Prop :=
  ∃ p, pagingPagePresent ((mm.entry p).setWidth 32) = true ∧ pagingFpn ((mm.entry p).setWidth 32) = f

/-- An entry names a frame of swap. -/
def Mm.NamesSwapFrame (mm : Mm) (t : ℕ) : Prop :=
  ∃ p, pagingPagePresent ((mm.entry p).setWidth 32) = false ∧
    pagingPageSwapped ((mm.entry p).setWidth 32) = true ∧ pagingSwp ((mm.entry p).setWidth 32) = t

/-- The frames that the entries name return to the free lists, and no others, and what is read is in
    the table. -/
structure ReleasesMapped (mm : Mm) (krnl : Krnl) (reads : List ℕ) (krnl' : Krnl) : Prop where
  inside : ∀ ix ∈ reads, ix < paging64DirEntries
  ram : ∀ f, f ∈ krnl'.mram.freeFpList ↔ f ∈ krnl.mram.freeFpList ∨ mm.NamesFrame f
  swap : ∀ t, t ∈ krnl'.activeMswp.freeFpList ↔
    t ∈ krnl.activeMswp.freeFpList ∨ mm.NamesSwapFrame t

section Loop

variable (words : PgdWords) (mm : Mm)

theorem freePcbLoop_reads (n pagenum : ℕ) (krnl : Krnl) :
    (freePcbLoop words mm n pagenum krnl).1 = List.range' pagenum n := by
  induction n generalizing pagenum krnl with
  | zero => rfl
  | succ n ih => rw [freePcbLoop, List.range'_succ, ih]

/-- The entries are not read: address spaces with the same slots in use at the root are the same to
    the loop. -/
theorem freePcbLoop_congr {mm' : Mm}
    (h : ∀ i, (mm'.pgd.child i).isSome = (mm.pgd.child i).isSome) (n pagenum : ℕ) (krnl : Krnl) :
    freePcbLoop words mm' n pagenum krnl = freePcbLoop words mm n pagenum krnl := by
  induction n generalizing pagenum krnl with
  | zero => rfl
  | succ n ih =>
      have hword : mm'.pgdWord words pagenum = mm.pgdWord words pagenum := by
        simp only [Mm.pgdWord, h]
      rw [freePcbLoop, freePcbLoop, hword, ih]

/-- RAM gets frames back only from words that look like entries of resident pages. -/
theorem freePcbLoop_mram (h : ∀ k, pagingPagePresent ((mm.pgdWord words k).setWidth 32) = false)
    (n pagenum : ℕ) (krnl : Krnl) : (freePcbLoop words mm n pagenum krnl).2.mram = krnl.mram := by
  induction n generalizing pagenum krnl with
  | zero => rfl
  | succ n ih =>
      rw [freePcbLoop, ih, freePgdWord]
      simp [h pagenum]

theorem freePgdWord_mono {krnl : Krnl} {t : ℕ} (h : t ∈ krnl.activeMswp.freeFpList)
    (word : BitVec 64) : t ∈ (freePgdWord krnl word).activeMswp.freeFpList := by
  rw [freePgdWord]
  split
  · exact h
  · rw [memphyPutFreefp]
    simp only
    split
    · exact List.mem_cons_of_mem _ h
    · exact h

/-- What is free stays free. -/
theorem freePcbLoop_mono (n pagenum : ℕ) {krnl : Krnl} {t : ℕ}
    (h : t ∈ krnl.activeMswp.freeFpList) :
    t ∈ (freePcbLoop words mm n pagenum krnl).2.activeMswp.freeFpList := by
  induction n generalizing pagenum krnl with
  | zero => exact h
  | succ n ih =>
      rw [freePcbLoop]
      exact ih _ (freePgdWord_mono h _)

end Loop

/-- **Releasing.** Whatever was mapped and wherever its tables are, `free_pcb_memph` reads beyond the
    root of the page table. -/
theorem freePcbMemph_not_releasesMapped (words : PgdWords) (c : Caller) :
    ¬ ReleasesMapped c.mm c.krnl (freePcbMemph words c).2.1 (freePcbMemph words c).2.2.krnl := by
  intro h
  have hread : paging64DirEntries ∈ (freePcbMemph words c).2.1 := by
    rw [freePcbMemph, freePcbLoop_reads, List.mem_range'_1]
    decide
  exact absurd (h.inside _ hread) (Nat.lt_irrefl _)

/-! ## A process with one page -/

/-- The tables at addresses whose low halves look like no entry. -/
def lowTables : PgdWords := ⟨fun _ => 0x1000, fun _ => 0⟩

/-- A process whose page 0 is in frame 0 of RAM, while frame 0 of swap is in use by another one. -/
def onePage : Caller where
  proc := { freshProc [] 0 with mm := (pteSetFpn generousHost initMm 0 0).2 }
  krnl := {
    mram := { pagesDevice 1 with freeFpList := [], usedFpList := [0] }
    activeMswp := { pagesDevice 1 with freeFpList := [], usedFpList := [0] }
    mm := initMm }

theorem onePage_entry : onePage.mm.entry =
    Function.update (fun _ => 0) (pageIx generousHost 0) (pteFpnWord 0 0) := by
  have hzero : initMm.entry = fun _ => 0 := funext initMm_entry
  have hentry := pteSetFpn_entry generousHost initMm 0 generousHost_generous.1 0
  rw [hzero] at hentry
  exact hentry

theorem onePage_names : onePage.mm.NamesFrame 0 ∧ ∀ t, ¬ onePage.mm.NamesSwapFrame t := by
  constructor
  · refine ⟨pageIx generousHost 0, ?_, ?_⟩
    · rw [onePage_entry, Function.update_self, present_pteFpnWord]
    · rw [onePage_entry, Function.update_self]
      exact fpn_pteFpnWord 0 0 (by decide)
  · rintro t ⟨p, -, hswapped, -⟩
    rw [onePage_entry, Function.update_apply] at hswapped
    split at hswapped
    · rw [swapped_pteFpnWord] at hswapped
      exact absurd hswapped (by decide)
    · exact absurd hswapped (by decide)

theorem lowTables_absent (mm : Mm) (k : ℕ) :
    pagingPagePresent ((mm.pgdWord lowTables k).setWidth 32) = false := by
  rw [Mm.pgdWord]
  split
  · split
    · exact (by decide : pagingPagePresent ((0x1000 : BitVec 64).setWidth 32) = false)
    · decide
  · exact (by decide : pagingPagePresent ((0 : BitVec 64).setWidth 32) = false)

/-- The address in slot 0 looks like frame 128 of swap, and the empty slot 1 like frame 0. -/
theorem onePage_loop (n : ℕ) :
    0 ∈ (freePcbLoop lowTables onePage.mm (n + 2) 0 onePage.krnl).2.activeMswp.freeFpList := by
  have hword₀ : onePage.mm.pgdWord lowTables 0 = 0x1000 := by decide +kernel
  have hword₁ : onePage.mm.pgdWord lowTables 1 = 0 := by decide +kernel
  rw [freePcbLoop, freePcbLoop, hword₀, hword₁]
  refine freePcbLoop_mono _ _ _ _ ?_
  decide +kernel

/-- The frame the page is in stays in use, the frame of swap that is not the process's is released, and
    the loop reads beyond the table. -/
theorem not_releasesMapped_onePage :
    (onePage.mm.NamesFrame 0 ∧ 0 ∉ (freePcbMemph lowTables onePage).2.2.krnl.mram.freeFpList) ∧
    (¬ onePage.mm.NamesSwapFrame 0 ∧
      0 ∈ (freePcbMemph lowTables onePage).2.2.krnl.activeMswp.freeFpList) ∧
    ¬ ReleasesMapped onePage.mm onePage.krnl (freePcbMemph lowTables onePage).2.1
      (freePcbMemph lowTables onePage).2.2.krnl := by
  obtain ⟨hnames, hswap⟩ := onePage_names
  have hkept : 0 ∉ (freePcbMemph lowTables onePage).2.2.krnl.mram.freeFpList := by
    rw [freePcbMemph, freePcbLoop_mram _ _ (lowTables_absent _)]
    exact List.not_mem_nil
  refine ⟨⟨hnames, hkept⟩, ⟨hswap 0, ?_⟩, fun h => hkept ((h.ram 0).2 (Or.inr hnames))⟩
  obtain ⟨n, hn⟩ : ∃ n, pagingMaxPgn = n + 2 := ⟨16382, by decide⟩
  rw [freePcbMemph, hn]
  exact onePage_loop n

end Ossim
