import Ossim.Libmem.Addresses

set_option autoImplicit false

/-! # The two ways to write user memory

`__write` goes through `pg_setval` and the system call, `__write_user_mem` accesses RAM itself. They do
the same to memory where they look for the same page, and report the same where RAM takes the write. -/

namespace Ossim

/-- Two calls ended alike, as far as memory is concerned. -/
structure SameOutcome (r r' : ℤ × Caller) : Prop where
  status : r.1 = r'.1
  entry : r.2.mm.entry = r'.2.mm.entry
  fifoPgn : r.2.mm.fifoPgn = r'.2.mm.fifoPgn
  krnl_entry : r.2.krnl.mm.entry = r'.2.krnl.mm.entry
  krnl_fifoPgn : r.2.krnl.mm.fifoPgn = r'.2.krnl.mm.fifoPgn
  mram : r.2.krnl.mram = r'.2.krnl.mram
  activeMswp : r.2.krnl.activeMswp = r'.2.krnl.activeMswp

theorem SameOutcome.refl (r : ℤ × Caller) : SameOutcome r r := ⟨rfl, rfl, rfl, rfl, rfl, rfl, rfl⟩

section Writes

variable (host : Host) {c : Caller} {rgid offset a : ℕ} (value : Byte)

/-- `__write` for an address whose page is not to be had, or is in a frame. -/
theorem write_of_page (hreg : c.proc.registered = true)
    (hres : c.mm.resolve rgid offset = some a) :
    (∀ c', pgGetpage host c (pgnOfIntAddr a) = (none, c') → write host c rgid offset value = (-1, c')) ∧
    ∀ fpn c', pgGetpage host c (pgnOfIntAddr a) = (some fpn, c') →
      write host c rgid offset value =
        (0, c'.setMram (memphyWrite c'.krnl.mram (phyaddr fpn (a % 4096)) value).2) := by
  have hsame := (pgGetpage_same host c (pgnOfIntAddr a)).registered
  rw [write, hres]
  simp only [pgSetval]
  refine ⟨fun c' h => by rw [h], fun fpn c' h => ?_⟩
  rw [h] at hsame ⊢
  have hreg' : c'.proc.registered = true := hsame.trans hreg
  simp only [syscall_ioWrite, uint32_phyaddr (pgGetpage_lt host c (congrArg Prod.fst h)), hreg', if_true]

/-- `__write_user_mem` for such an address. -/
theorem writeUserMem_of_page (hres : c.mm.resolve rgid offset = some a) :
    (∀ c', pgGetpage host c (addrOfInt (a >>> 12)) = (none, c') →
      writeUserMem host c rgid offset value = (-1, c')) ∧
    ∀ fpn c', pgGetpage host c (addrOfInt (a >>> 12)) = (some fpn, c') →
      writeUserMem host c rgid offset value =
        (if c.krnl.mram.rdmflg = true then 0 else -1,
          c'.setMram (memphyWrite c'.krnl.mram (phyaddr fpn (a % 4096)) value).2) := by
  have hrdm := pgGetpage_rdmflg host c (addrOfInt (a >>> 12))
  rw [writeUserMem, hres]
  refine ⟨fun c' h => by simp only [h], fun fpn c' h => ?_⟩
  rw [h] at hrdm
  have hrdm' : c'.krnl.mram.rdmflg = c.krnl.mram.rdmflg := hrdm
  simp only [h, ne_eq, ite_not, memphyWrite_ok, hrdm']

end Writes

/-- A process whose region `rgid` is `rg`, with one free frame of RAM. -/
def writerCaller (rgid : ℕ) (rg : VmRg) (rdmflg : Bool) : Caller :=
  ((freshCaller 1 1).setMm (initMm.setSymrg rgid rg)).setMram
    { pagesDevice 1 with rdmflg := rdmflg }

section Agree

variable (host : Host) {rgid offset a : ℕ} {rg : VmRg} (value : Byte)

/-- In every state of memory with this kind of RAM, the two ways to write a byte at this offset of a
    region end alike. -/
def WritesAgree (rgid offset : ℕ) (rg : VmRg) (rdmflg : Bool) : Prop :=
  ∀ c : Caller, c.proc.registered = true → c.mm.symrgtbl rgid = rg → c.krnl.mram.rdmflg = rdmflg →
    SameOutcome (write host c rgid offset value) (writeUserMem host c rgid offset value)

theorem resolve_of_symrg {c : Caller} (hid : rgid < pagingMaxSymtblSz)
    (hrg : c.mm.symrgtbl rgid = rg) (hacc : rg.resolve offset = some a) :
    c.mm.resolve rgid offset = some a := by
  rw [Mm.resolve, if_neg (Nat.not_le.2 hid), hrg, hacc]

/-- In a state where its page is not there, each of the two makes the page it looks for resident. -/
theorem writerCaller_outcome (hid : rgid < pagingMaxSymtblSz) (hacc : rg.resolve offset = some a)
    (rdmflg : Bool) :
    (write host (writerCaller rgid rg rdmflg) rgid offset value).1 = 0 ∧
    (write host (writerCaller rgid rg rdmflg) rgid offset value).2.mm.fifoPgn = [pgnOfIntAddr a] ∧
    (writeUserMem host (writerCaller rgid rg rdmflg) rgid offset value).1 =
      (if rdmflg = true then 0 else -1) ∧
    (writeUserMem host (writerCaller rgid rg rdmflg) rgid offset value).2.mm.fifoPgn =
      [addrOfInt (a >>> 12)] := by
  have hres : (writerCaller rgid rg rdmflg).mm.resolve rgid offset = some a :=
    resolve_of_symrg hid (Function.update_self ..) hacc
  have habs : ∀ pgn, (writerCaller rgid rg rdmflg).mm.present host pgn = false := by
    intro pgn
    change pagingPagePresent ((initMm.entry (pageIx host pgn)).setWidth 32) = false
    rw [initMm_entry]
    decide
  -- the page that was made resident is on the FIFO list, so the list tells the pages apart
  have hpage := fun pgn => pgGetpage_of_free host (writerCaller rgid rg rdmflg) (habs pgn) rfl
  obtain ⟨hsome, hfifo⟩ := hpage (pgnOfIntAddr a)
  obtain ⟨hsome', hfifo'⟩ := hpage (addrOfInt (a >>> 12))
  rcases heq : pgGetpage host (writerCaller rgid rg rdmflg) (pgnOfIntAddr a) with ⟨_ | f, c₁⟩
  · rw [heq] at hsome
    exact absurd hsome (by simp)
  · rcases heq' : pgGetpage host (writerCaller rgid rg rdmflg) (addrOfInt (a >>> 12)) with ⟨_ | g, c₂⟩
    · rw [heq'] at hsome'
      exact absurd hsome' (by simp)
    · rw [heq] at hfifo
      rw [heq'] at hfifo'
      rw [(write_of_page host value rfl hres).2 f c₁ heq,
        (writeUserMem_of_page host value hres).2 g c₂ heq']
      exact ⟨rfl, hfifo, rfl, hfifo'⟩

/-- **The write paths.** For an offset that the bounds checks accept, the two ways to write agree in all
    states exactly if RAM is random-access and the bits of the address from 31 to 43 are all equal. -/
theorem writesAgree_iff (hid : rgid < pagingMaxSymtblSz) (hacc : rg.resolve offset = some a)
    (rdmflg : Bool) :
    WritesAgree host value rgid offset rg rdmflg ↔
      rdmflg = true ∧ (a / 2 ^ 31 % 2 ^ 13 = 0 ∨ a / 2 ^ 31 % 2 ^ 13 = 2 ^ 13 - 1) := by
  rw [← pgnOfIntAddr_eq_addrOfInt_iff]
  constructor
  · intro hagree
    obtain ⟨hst, hfifo, hst', hfifo'⟩ := writerCaller_outcome host value hid hacc rdmflg
    -- the state without pages shows both differences
    have hsame := hagree (writerCaller rgid rg rdmflg) rfl (Function.update_self ..) rfl
    refine ⟨?_, ?_⟩
    · have hstatus := hsame.status
      rw [hst, hst'] at hstatus
      by_contra hseq
      rw [if_neg hseq] at hstatus
      exact absurd hstatus (by decide)
    · have hqueue := hsame.fifoPgn
      rw [hfifo, hfifo'] at hqueue
      exact List.cons.inj hqueue |>.1
  · rintro ⟨rfl, hpgn⟩ c hreg hrg hrdm
    have hres := resolve_of_symrg hid hrg hacc
    rcases hget : pgGetpage host c (pgnOfIntAddr a) with ⟨_ | fpn, c'⟩
    · rw [(write_of_page host value hreg hres).1 c' hget,
        (writeUserMem_of_page host value hres).1 c' (hpgn ▸ hget)]
      exact .refl _
    · rw [(write_of_page host value hreg hres).2 fpn c' hget,
        (writeUserMem_of_page host value hres).2 fpn c' (hpgn ▸ hget), if_pos hrdm]
      exact .refl _

end Agree

theorem writesAgree_iff_first :
    WritesAgree generousHost 7 0 100 ⟨300, 600⟩ true ∧ (400 / 2 ^ 31 % 2 ^ 13 = 0) :=
  ⟨(writesAgree_iff generousHost 7 (show 0 < pagingMaxSymtblSz by decide)
    (show VmRg.resolve ⟨300, 600⟩ 100 = some 400 by decide) true).2 ⟨rfl, Or.inl (by decide)⟩,
    by decide⟩

/-- Offset `2 ^ 31` of a region of more than 2 GiB: one path makes page `2 ^ 64 - 2 ^ 19` resident, the
    other page `2 ^ 19`. -/
theorem not_writesAgree_twoGiB :
    VmRg.resolve ⟨0, 2 ^ 31 + 4096⟩ (2 ^ 31) = some (2 ^ 31) ∧
      ¬ WritesAgree generousHost 7 0 (2 ^ 31) ⟨0, 2 ^ 31 + 4096⟩ true := by
  refine ⟨by decide, fun hagree => ?_⟩
  have hfifo := (hagree (writerCaller 0 ⟨0, 2 ^ 31 + 4096⟩ true) rfl rfl rfl).fifoPgn
  have hwrite : (write generousHost (writerCaller 0 ⟨0, 2 ^ 31 + 4096⟩ true) 0 (2 ^ 31) 7).2.mm.fifoPgn =
      [2 ^ 64 - 2 ^ 19] := by decide +kernel
  have hwriteUser : (writeUserMem generousHost (writerCaller 0 ⟨0, 2 ^ 31 + 4096⟩ true) 0
      (2 ^ 31) 7).2.mm.fifoPgn = [2 ^ 19] := by decide +kernel
  rw [hwrite, hwriteUser] at hfifo
  exact absurd hfifo (by decide)

end Ossim
