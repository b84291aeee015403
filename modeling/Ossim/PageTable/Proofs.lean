import Mathlib.Data.Nat.Digits.Lemmas
import Ossim.PageTable

set_option autoImplicit false

/-! # The page table is a map

What the walks and the setters of `mm64.c` do to the entries of an address space (`Mm.entry`), so
that nothing above has to look at the tree again: a walk changes no entry, a setter changes the one
of its page, and the entries it writes decode as intended whatever they held before. -/

namespace Ossim

open BitField

/-! ## Decoding -/

theorem getLsbD_bit {n : ℕ} (hn : n < 32) (i : ℕ) : (bit n).getLsbD i = decide (i = n) := by
  rw [bit, ← BitVec.twoPow_eq, BitVec.getLsbD_twoPow]
  by_cases h : i = n
  · simp [h, hn]
  · have h' : ¬ n = i := fun he => h he.symm
    simp [h, h']

theorem and_bit_ne_zero {n : ℕ} (hn : n < 32) (pte : BitVec 32) :
    (pte &&& bit n != 0) = pte.getLsbD n := by
  rw [bit, ← BitVec.twoPow_eq, BitVec.and_twoPow]
  cases pte.getLsbD n with
  | false => rfl
  | true =>
      have hne : BitVec.twoPow 32 n ≠ 0#32 := by
        intro h
        have := congrArg (fun v => v.getLsbD n) h
        simp [hn] at this
      simpa using hne

theorem pagingPagePresent_eq (pte : BitVec 32) : pagingPagePresent pte = pte.getLsbD 31 :=
  and_bit_ne_zero (by omega) pte

theorem pagingPageSwapped_eq (pte : BitVec 32) : pagingPageSwapped pte = pte.getLsbD 30 :=
  and_bit_ne_zero (by omega) pte

theorem pagingFpn_eq (pte : BitVec 32) : pagingFpn pte = pte.toNat % 2 ^ 13 := by
  rw [pagingFpn, pagingPteFpnMask, toNat_getval_genmask pte (by omega) (by omega)]
  simp

theorem pagingSwp_eq (pte : BitVec 32) : pagingSwp pte = pte.toNat / 2 ^ 5 % 2 ^ 21 := by
  rw [pagingSwp, pagingPteSwpoffMask, toNat_getval_genmask pte (by omega) (by omega)]

section Words

variable (v : BitVec 64) (fpn swptyp swpoff : ℕ)

theorem getLsbD_pteFpnWord {i : ℕ} (hi : i < 32) :
    (pteFpnWord v fpn).getLsbD i =
      (if i ≤ 12 then fpn.testBit i else if i = 31 then true else if i = 30 then false
        else v.getLsbD i) := by
  simp only [pteFpnWord, pagingPteFpnMask, pagingPteSwappedMask, pagingPtePresentMask,
    getLsbD_setval, getLsbD_clrbit, getLsbD_setbit, getLsbD_genmask (m := 32) (h := 12) (by omega),
    getLsbD_bit (n := 30) (by omega), getLsbD_bit (n := 31) (by omega), BitVec.getLsbD_ofNat]
  have h64 : i < 64 := by omega
  by_cases h12 : i ≤ 12
  · simp [h12, h64]
  · by_cases h31 : i = 31
    · subst h31; simp
    · by_cases h30 : i = 30
      · subst h30; simp
      · simp [h12, h31, h30, hi]

theorem getLsbD_pteSwapWord {i : ℕ} (hi : i < 32) :
    (pteSwapWord v swptyp swpoff).getLsbD i =
      (if i < 5 then swptyp.testBit i else if i ≤ 25 then swpoff.testBit (i - 5)
        else if i = 30 then true else if i = 31 then false else v.getLsbD i) := by
  simp only [pteSwapWord, pagingPteSwptypMask, pagingPteSwpoffMask, pagingPteSwappedMask,
    pagingPtePresentMask, getLsbD_setval, getLsbD_clrbit, getLsbD_setbit,
    getLsbD_genmask (m := 32) (h := 4) (by omega), getLsbD_genmask (m := 32) (h := 25) (by omega),
    getLsbD_bit (n := 30) (by omega), getLsbD_bit (n := 31) (by omega), BitVec.getLsbD_ofNat]
  have h64 : i < 64 := by omega
  have h64' : i - 5 < 64 := by omega
  by_cases h5 : i < 5
  · have h4 : i ≤ 4 := by omega
    have h5' : ¬ 5 ≤ i := by omega
    simp [h5, h4, h5', h64, hi]
  · have h5' : 5 ≤ i := by omega
    have h4 : ¬ i ≤ 4 := by omega
    by_cases h25 : i ≤ 25
    · simp [h5, h5', h25, h64, h64']
    · by_cases h31 : i = 31
      · subst h31; simp
      · by_cases h30 : i = 30
        · subst h30; simp
        · simp [h5, h4, h25, h31, h30, hi]

@[simp]
theorem present_pteFpnWord : pagingPagePresent ((pteFpnWord v fpn).setWidth 32) = true := by
  rw [pagingPagePresent_eq, BitVec.getLsbD_setWidth, getLsbD_pteFpnWord v fpn (by omega)]
  simp

@[simp]
theorem swapped_pteFpnWord : pagingPageSwapped ((pteFpnWord v fpn).setWidth 32) = false := by
  rw [pagingPageSwapped_eq, BitVec.getLsbD_setWidth, getLsbD_pteFpnWord v fpn (by omega)]
  simp

/-- The present mark is already there. -/
theorem setbit_pteFpnWord : setbit (pteFpnWord v fpn) pagingPtePresentMask = pteFpnWord v fpn := by
  apply BitVec.eq_of_getLsbD_eq
  intro i hi
  rw [getLsbD_setbit, pagingPtePresentMask, getLsbD_bit (by omega)]
  by_cases h31 : i = 31
  · subst h31
    rw [getLsbD_pteFpnWord v fpn (by omega)]
    simp
  · simp [h31]

/-- A frame number that fits its field survives the encoding. -/
theorem fpn_pteFpnWord (h : fpn < 2 ^ 13) : pagingFpn ((pteFpnWord v fpn).setWidth 32) = fpn := by
  rw [pagingFpn_eq]
  apply Nat.eq_of_testBit_eq
  intro i
  rw [Nat.testBit_mod_two_pow, BitVec.testBit_toNat, BitVec.getLsbD_setWidth]
  by_cases hi : i < 13
  · have h12 : i ≤ 12 := by omega
    have h32 : i < 32 := by omega
    rw [getLsbD_pteFpnWord v fpn h32]
    simp [hi, h12, h32]
  · have hle : 2 ^ 13 ≤ 2 ^ i := Nat.pow_le_pow_right (by omega) (by omega)
    simp [hi, Nat.testBit_lt_two_pow (lt_of_lt_of_le h hle)]

@[simp]
theorem present_pteSwapWord :
    pagingPagePresent ((pteSwapWord v swptyp swpoff).setWidth 32) = false := by
  rw [pagingPagePresent_eq, BitVec.getLsbD_setWidth, getLsbD_pteSwapWord v swptyp swpoff (by omega)]
  simp

@[simp]
theorem swapped_pteSwapWord :
    pagingPageSwapped ((pteSwapWord v swptyp swpoff).setWidth 32) = true := by
  rw [pagingPageSwapped_eq, BitVec.getLsbD_setWidth, getLsbD_pteSwapWord v swptyp swpoff (by omega)]
  simp

/-- A swap offset that fits its field survives the encoding. -/
theorem swp_pteSwapWord (h : swpoff < 2 ^ 21) :
    pagingSwp ((pteSwapWord v swptyp swpoff).setWidth 32) = swpoff := by
  rw [pagingSwp_eq]
  apply Nat.eq_of_testBit_eq
  intro i
  rw [Nat.testBit_mod_two_pow, Nat.testBit_div_two_pow, BitVec.testBit_toNat,
    BitVec.getLsbD_setWidth]
  by_cases hi : i < 21
  · have h5 : ¬ i + 5 < 5 := by omega
    have h25 : i + 5 ≤ 25 := by omega
    have h32 : i + 5 < 32 := by omega
    rw [getLsbD_pteSwapWord v swptyp swpoff h32]
    simp [hi, h25, h32]
  · have hle : 2 ^ 21 ≤ 2 ^ i := Nat.pow_le_pow_right (by omega) (by omega)
    simp [hi, Nat.testBit_lt_two_pow (lt_of_lt_of_le h hle)]

end Words

/-! ## Indices -/

theorem dirIx_val (addr : BitVec 64) {l : ℕ} (hl : l + 8 < 64) :
    (dirIx addr (l + 8) l).val = addr.toNat / 2 ^ l % 512 := by
  have hg := toNat_getval_genmask (m := 64) addr (by omega : l ≤ l + 8) hl
  rw [show l + 8 + 1 - l = 9 by omega] at hg
  simp only [dirIx, hg]
  omega

/-- The page numbers of canonical addresses: the bits above the directory indices are all equal. -/
def CanonicalPgn (pgn : ℕ) : Prop := pgn < 2 ^ 45 ∨ 127 * 2 ^ 45 ≤ pgn ∧ pgn < 2 ^ 52

/-- The indices of a canonical page number are its last five digits in base 512. -/
theorem pageIx_of_canonical (host : Host) {pgn : ℕ} (h : CanonicalPgn pgn) :
    pageIx host pgn = (Fin.ofNat 512 (pgn / 512 ^ 4), Fin.ofNat 512 (pgn / 512 ^ 3),
      Fin.ofNat 512 (pgn / 512 ^ 2), Fin.ofNat 512 (pgn / 512), Fin.ofNat 512 pgn) := by
  unfold CanonicalPgn at h
  have haddr : (BitVec.ofNat 64 pgn <<< 12).toNat = pgn * 4096 := by
    rw [BitVec.toNat_shiftLeft, BitVec.toNat_ofNat, Nat.shiftLeft_eq]
    omega
  -- what is above bit 57 is all zeros or all ones, so the address is accepted
  have htop : BitVec.ofNat 64 pgn <<< 12 >>> 57 = 0#64 ∨
      BitVec.ofNat 64 pgn <<< 12 >>> 57 = 0x7f#64 := by
    rcases h with h | h
    · left
      apply BitVec.eq_of_toNat_eq
      rw [BitVec.toNat_ushiftRight, haddr, Nat.shiftRight_eq_div_pow]
      simp only [BitVec.toNat_ofNat]
      omega
    · right
      apply BitVec.eq_of_toNat_eq
      rw [BitVec.toNat_ushiftRight, haddr, Nat.shiftRight_eq_div_pow]
      simp only [BitVec.toNat_ofNat]
      omega
  -- a directory index is a digit, the offset within the page being 12 bits
  have hdig : ∀ l : ℕ, l + 8 < 64 → 12 ≤ l →
      dirIx (BitVec.ofNat 64 pgn <<< 12) (l + 8) l = Fin.ofNat 512 (pgn / 2 ^ (l - 12)) := by
    intro l hl h12
    apply Fin.ext
    rw [dirIx_val _ hl, haddr, Fin.ofNat_eq_cast, Fin.val_natCast]
    have : (2 : ℕ) ^ l = 4096 * 2 ^ (l - 12) := by
      rw [show (4096 : ℕ) = 2 ^ 12 by norm_num, ← Nat.pow_add]
      congr 1; omega
    rw [this, Nat.mul_comm pgn, Nat.mul_div_mul_left _ _ (by norm_num)]
  rw [pageIx, getPdFromPagenum, getPdFromAddress]
  simp only
  rw [if_neg (fun hne => htop.elim hne.1 hne.2)]
  rw [hdig 48 (by omega) (by omega), hdig 39 (by omega) (by omega), hdig 30 (by omega) (by omega),
    hdig 21 (by omega) (by omega), hdig 12 (by omega) (by omega)]
  simp only [Nat.sub_self, Nat.pow_zero, Nat.div_one]
  rfl

/-- Canonical page numbers with the same slot agree in the bits of the directory indices. -/
theorem mod_eq_of_pageIx_eq (host : Host) {a b : ℕ} (ha : CanonicalPgn a) (hb : CanonicalPgn b)
    (h : pageIx host a = pageIx host b) : a % 2 ^ 45 = b % 2 ^ 45 := by
  rw [pageIx_of_canonical host ha, pageIx_of_canonical host hb] at h
  obtain ⟨h4, h3210⟩ := Prod.mk.inj h
  obtain ⟨h3, h210⟩ := Prod.mk.inj h3210
  obtain ⟨h2, h10⟩ := Prod.mk.inj h210
  obtain ⟨h1, h0⟩ := Prod.mk.inj h10
  simp only [Fin.ofNat_eq_cast, Fin.ext_iff, Fin.val_natCast] at h4 h3 h2 h1 h0
  omega

/-- Different page numbers below `2 ^ 45` have different slots. -/
theorem pageIx_inj (host : Host) {a b : ℕ} (ha : a < 2 ^ 45) (hb : b < 2 ^ 45)
    (h : pageIx host a = pageIx host b) : a = b := by
  have hmod := mod_eq_of_pageIx_eq host (Or.inl ha) (Or.inl hb) h
  rwa [Nat.mod_eq_of_lt ha, Nat.mod_eq_of_lt hb] at hmod

/-! ## Walks -/

section Walk

variable (host : Host) (mm : Mm) (pgn : ℕ) (isAlloc : Bool)

@[simp]
theorem getPtePtr_entry (q : PageIx) : (getPtePtr host mm pgn isAlloc).2.entry q = mm.entry q := by
  simp [getPtePtr, pgdWalk, Mm.entry]

@[simp]
theorem getPtePtr_mmap : (getPtePtr host mm pgn isAlloc).2.mmap = mm.mmap := rfl

@[simp]
theorem getPtePtr_symrgtbl : (getPtePtr host mm pgn isAlloc).2.symrgtbl = mm.symrgtbl := rfl

@[simp]
theorem getPtePtr_fifoPgn : (getPtePtr host mm pgn isAlloc).2.fifoPgn = mm.fifoPgn := rfl

@[simp]
theorem getPtePtr_kcpooltbl : (getPtePtr host mm pgn isAlloc).2.kcpooltbl = mm.kcpooltbl := rfl

/-- A read-only walk changes no table. -/
@[simp]
theorem getPtePtr_pgd_of_read : (getPtePtr host mm pgn false).2.pgd = mm.pgd :=
  Radix.Tree.walk_tree_of_refuse _ _ _ (fun _ => rfl) _ _ _

/-- With allocations granted, an allocating walk ends at the slot of its page. -/
theorem getPtePtr_alloc (hc : ∀ n, host.calloc n = true) :
    (getPtePtr host mm pgn true).1 = some (pageIx host pgn) := by
  have hgrow : ∀ st, (allocPgtblLevel host st).1 = true := by
    intro st
    simp [allocPgtblLevel, hc]
  simp [getPtePtr, pgdWalk, Radix.Tree.walk_of_grow _ _ (allocPgtblLevel host) hgrow]

theorem getPtePtr_some {p : PageIx} (h : (getPtePtr host mm pgn isAlloc).1 = some p) :
    p = pageIx host pgn ∧ (getPtePtr host mm pgn isAlloc).2.pgd.Reaches p := by
  simp only [getPtePtr] at h ⊢
  split at h
  · next hr =>
      cases h
      exact ⟨rfl, Radix.Tree.reaches_of_walk _ _ _ _ _ _ hr⟩
  · exact absurd h (by simp)

theorem getPtePtr_none (h : (getPtePtr host mm pgn isAlloc).1 = none) :
    mm.entry (pageIx host pgn) = 0 := by
  simp only [getPtePtr] at h
  split at h
  · exact absurd h (by simp)
  · next hr => exact Radix.Tree.lookup_of_walk_stops _ _ _ _ _ _ (Bool.eq_false_iff.2 hr)

/-- `alloc_pgtbl_level` asks for one table at each attempt, and the table writes count the attempts. -/
theorem allocPgtblLevel_counts :
    Radix.Tree.CountsRequests PgtblStats.read (allocPgtblLevel host) PgtblStats.levelWrites
      host.calloc where
  visit _ := rfl
  granted st := by
    rw [allocPgtblLevel]
    split <;> next h => simp [h]
  grow st := by
    rw [allocPgtblLevel]
    split <;> rfl

/-- An allocating walk that gets to its slot has created the tables the slot lacked. -/
theorem getPtePtr_of_some {p : PageIx} (h : (getPtePtr host mm pgn true).1 = some p) :
    (getPtePtr host mm pgn true).2.stats.levelWrites =
      mm.stats.levelWrites + mm.pgd.missing (pageIx host pgn) ∧
    ∀ q, (getPtePtr host mm pgn true).2.pgd.missing q =
      min (mm.pgd.missing q) ((pageIx host pgn).apart q) := by
  have hdone : (pgdWalk host mm pgn true).1 = true := by
    simp only [getPtePtr] at h
    split at h
    · assumption
    · exact absurd h (by simp)
  exact ⟨Radix.Tree.cnt_walk 0 (allocPgtblLevel_counts host) _ _ _ hdone,
    fun q => Radix.Tree.missing_walk 0 _ _ q _ hdone⟩

/-- An allocating walk gets to its slot if the tables the slot lacks are granted. -/
theorem getPtePtr_isSome_iff :
    (getPtePtr host mm pgn true).1.isSome = true ↔
      ∀ k < mm.pgd.missing (pageIx host pgn), host.calloc (mm.stats.levelWrites + k) = true := by
  have hwalk : (pgdWalk host mm pgn true).1 = true ↔
      ∀ k < mm.pgd.missing (pageIx host pgn), host.calloc (mm.stats.levelWrites + k) = true :=
    Radix.Tree.walk_granted_iff 0 (allocPgtblLevel_counts host) ..
  rw [← hwalk, getPtePtr]
  cases (pgdWalk host mm pgn true).1 <;> simp

end Walk

/-! ## Setters and getters -/

/-- Whether the entry of a page is marked present. -/
def Mm.present (host : Host) (mm : Mm) (pgn : ℕ) : Bool :=
  pagingPagePresent ((mm.entry (pageIx host pgn)).setWidth 32)

section Entries

variable (host : Host) (mm : Mm) (pgn : ℕ) (upd : BitVec 64 → BitVec 64)

theorem pteUpdate_eq (hc : ∀ n, host.calloc n = true) :
    pteUpdate host mm pgn upd =
      (0, (getPtePtr host mm pgn true).2.setEntry (pageIx host pgn)
        (upd (mm.entry (pageIx host pgn)))) := by
  have hp := getPtePtr_alloc host mm pgn hc
  have he := getPtePtr_entry host mm pgn true (pageIx host pgn)
  rw [pteUpdate]
  generalize getPtePtr host mm pgn true = r at hp he ⊢
  obtain ⟨p, mm'⟩ := r
  simp only at hp he
  subst hp
  rw [← he]

/-- A setter updates the entry of its page, or it runs out of tables: then the page had no entry. -/
theorem pteUpdate_cases :
    (pteUpdate host mm pgn upd).1 = 0 ∧
      (pteUpdate host mm pgn upd).2.entry =
        Function.update mm.entry (pageIx host pgn) (upd (mm.entry (pageIx host pgn))) ∨
    (pteUpdate host mm pgn upd).1 = -1 ∧
      (pteUpdate host mm pgn upd).2.entry = mm.entry ∧ mm.entry (pageIx host pgn) = 0 := by
  have hsame : (getPtePtr host mm pgn true).2.pgd.lookup 0 = mm.entry :=
    funext (getPtePtr_entry host mm pgn true)
  have hnone := getPtePtr_none host mm pgn true
  have hsome := fun p => getPtePtr_some host mm pgn true (p := p)
  rw [pteUpdate]
  generalize getPtePtr host mm pgn true = r at hsame hnone hsome ⊢
  obtain ⟨ptr, mm'⟩ := r
  cases ptr with
  | none => exact Or.inr ⟨rfl, hsame, hnone rfl⟩
  | some p =>
      obtain ⟨rfl, hreach⟩ := hsome p rfl
      have hw := Radix.Tree.lookup_write 0 _ _ (upd (mm'.entry (pageIx host pgn))) hreach
      rw [hsame] at hw
      refine Or.inl ⟨rfl, ?_⟩
      rw [← show mm'.entry = mm.entry from hsame]
      exact hw.trans (by rw [← hsame]; rfl)

theorem pteUpdate_entry_of_ok (h : (pteUpdate host mm pgn upd).1 = 0) :
    (pteUpdate host mm pgn upd).2.entry =
      Function.update mm.entry (pageIx host pgn) (upd (mm.entry (pageIx host pgn))) := by
  rcases pteUpdate_cases host mm pgn upd with ⟨-, he⟩ | ⟨hst, -⟩
  · exact he
  · rw [hst] at h
    exact absurd h (by decide)

theorem pteUpdate_entry (hc : ∀ n, host.calloc n = true) :
    (pteUpdate host mm pgn upd).2.entry =
      Function.update mm.entry (pageIx host pgn) (upd (mm.entry (pageIx host pgn))) :=
  pteUpdate_entry_of_ok host mm pgn upd (by rw [pteUpdate_eq host mm pgn upd hc])

/-- A setter succeeds if the tables its page lacks are granted. -/
theorem pteUpdate_fst_iff :
    (pteUpdate host mm pgn upd).1 = 0 ↔
      ∀ k < mm.pgd.missing (pageIx host pgn), host.calloc (mm.stats.levelWrites + k) = true := by
  rw [← getPtePtr_isSome_iff, pteUpdate]
  split <;> next h => simp [h]

/-- What a setter that succeeds leaves to be granted to the ones after it. -/
theorem pteUpdate_tables (h : (pteUpdate host mm pgn upd).1 = 0) :
    (pteUpdate host mm pgn upd).2.stats.levelWrites =
      mm.stats.levelWrites + mm.pgd.missing (pageIx host pgn) + 1 ∧
    (pteUpdate host mm pgn upd).2.pgd.missing =
      fun q => min (mm.pgd.missing q) ((pageIx host pgn).apart q) := by
  have htables := fun p => getPtePtr_of_some host mm pgn (p := p)
  rw [pteUpdate] at h ⊢
  generalize getPtePtr host mm pgn true = r at h htables ⊢
  obtain ⟨ptr, mm'⟩ := r
  cases ptr with
  | none => exact absurd h (by simp)
  | some p =>
      obtain ⟨hwrites, hmissing⟩ := htables p rfl
      refine ⟨congrArg (· + 1) hwrites, funext fun q => ?_⟩
      exact (Radix.Tree.missing_write mm'.pgd p q _).trans (hmissing q)

/-- A setter changes at most the entry of its page. -/
theorem pteUpdate_entry_of_ne {q : PageIx} (hq : q ≠ pageIx host pgn) :
    (pteUpdate host mm pgn upd).2.entry q = mm.entry q := by
  have hsame := getPtePtr_entry host mm pgn true q
  have hsome := fun p => getPtePtr_some host mm pgn true (p := p)
  rw [pteUpdate]
  generalize getPtePtr host mm pgn true = r at hsame hsome ⊢
  obtain ⟨ptr, mm'⟩ := r
  cases ptr with
  | none => exact hsame
  | some p =>
      obtain ⟨rfl, -⟩ := hsome p rfl
      exact (Radix.Tree.lookup_write_of_ne 0 mm'.pgd _ hq).trans hsame

theorem pteUpdate_rest :
    (pteUpdate host mm pgn upd).2.mmap = mm.mmap ∧
    (pteUpdate host mm pgn upd).2.symrgtbl = mm.symrgtbl ∧
    (pteUpdate host mm pgn upd).2.fifoPgn = mm.fifoPgn ∧
    (pteUpdate host mm pgn upd).2.kcpooltbl = mm.kcpooltbl := by
  have hfields : ∀ m : Mm, ∀ r : Option PageIx, (r, m) = getPtePtr host mm pgn true →
      m.mmap = mm.mmap ∧ m.symrgtbl = mm.symrgtbl ∧ m.fifoPgn = mm.fifoPgn ∧
        m.kcpooltbl = mm.kcpooltbl := by
    intro m r h
    rw [show m = (getPtePtr host mm pgn true).2 by rw [← h]]
    exact ⟨rfl, rfl, rfl, rfl⟩
  rw [pteUpdate]
  split
  · next h => exact hfields _ _ h.symm
  · next h =>
      have hrest := hfields _ _ h.symm
      exact hrest

@[simp]
theorem pteUpdate_mmap : (pteUpdate host mm pgn upd).2.mmap = mm.mmap :=
  (pteUpdate_rest host mm pgn upd).1

@[simp]
theorem pteUpdate_symrgtbl : (pteUpdate host mm pgn upd).2.symrgtbl = mm.symrgtbl :=
  (pteUpdate_rest host mm pgn upd).2.1

@[simp]
theorem pteUpdate_fifoPgn : (pteUpdate host mm pgn upd).2.fifoPgn = mm.fifoPgn :=
  (pteUpdate_rest host mm pgn upd).2.2.1

@[simp]
theorem pteUpdate_kcpooltbl : (pteUpdate host mm pgn upd).2.kcpooltbl = mm.kcpooltbl :=
  (pteUpdate_rest host mm pgn upd).2.2.2

theorem vmapPgdMemset_rest (addr : ℕ) (pgnum : ℤ) :
    (vmapPgdMemset host mm addr pgnum).2.mmap = mm.mmap ∧
    (vmapPgdMemset host mm addr pgnum).2.symrgtbl = mm.symrgtbl := by
  rw [vmapPgdMemset]
  generalize pgnum.toNat = n
  induction n generalizing mm addr with
  | zero => exact ⟨rfl, rfl⟩
  | succ n ih =>
      have hpte := pteUpdate_rest host mm (addr >>> 12) fun _ => 0xdeadbeef
      rw [vmapPgdMemsetLoop]
      generalize pteUpdate host mm (addr >>> 12) (fun _ => 0xdeadbeef) = r at hpte
      obtain ⟨st, mm'⟩ := r
      split
      · next heq =>
          cases heq
          obtain ⟨hmmap, hsym⟩ := ih mm' (addrT (addr + paging64Pagesz))
          exact ⟨hmmap.trans hpte.1, hsym.trans hpte.2.1⟩
      · next heq =>
          cases heq
          exact ⟨hpte.1, hpte.2.1⟩

theorem pteSetFpn_fst (hc : ∀ n, host.calloc n = true) (fpn : ℕ) :
    (pteSetFpn host mm pgn fpn).1 = 0 := by
  rw [pteSetFpn, pteUpdate_eq host mm pgn _ hc]

theorem pteSetFpn_entry (hc : ∀ n, host.calloc n = true) (fpn : ℕ) :
    (pteSetFpn host mm pgn fpn).2.entry =
      Function.update mm.entry (pageIx host pgn) (pteFpnWord (mm.entry (pageIx host pgn)) fpn) := by
  rw [pteSetFpn, pteUpdate_entry host mm pgn _ hc]

@[simp]
theorem pteSetFpn_fifoPgn (fpn : ℕ) : (pteSetFpn host mm pgn fpn).2.fifoPgn = mm.fifoPgn :=
  pteUpdate_fifoPgn host mm pgn _

theorem pteSetSwap_entry (hc : ∀ n, host.calloc n = true) (swptyp swpoff : ℕ) :
    (pteSetSwap host mm pgn swptyp swpoff).2.entry =
      Function.update mm.entry (pageIx host pgn)
        (pteSwapWord (mm.entry (pageIx host pgn)) swptyp swpoff) := by
  rw [pteSetSwap, pteUpdate_entry host mm pgn _ hc]

@[simp]
theorem pteSetSwap_fifoPgn (swptyp swpoff : ℕ) :
    (pteSetSwap host mm pgn swptyp swpoff).2.fifoPgn = mm.fifoPgn :=
  pteUpdate_fifoPgn host mm pgn _

/-- A getter returns the low half of the slot of its page. -/
@[simp]
theorem pteGetEntry_fst :
    (pteGetEntry host mm pgn).1 = (mm.entry (pageIx host pgn)).setWidth 32 := by
  rw [pteGetEntry]
  split
  · next h =>
      have hn : (getPtePtr host mm pgn false).1 = none := by rw [h]
      rw [getPtePtr_none host mm pgn false hn]
      rfl
  · next p mm' h =>
      have hs : (getPtePtr host mm pgn false).1 = some p := by rw [h]
      have he := getPtePtr_entry host mm pgn false p
      rw [h] at he
      simp only at he
      rw [he, (getPtePtr_some host mm pgn false hs).1]

/-- A getter changes nothing but the counters. -/
theorem pteGetEntry_snd :
    (pteGetEntry host mm pgn).2 = { mm with stats := (pteGetEntry host mm pgn).2.stats } := by
  have hsnd : (pteGetEntry host mm pgn).2 = (getPtePtr host mm pgn false).2 := by
    rw [pteGetEntry]
    split
    · next h => rw [h]
    · next h => rw [h]
  have hpgd := getPtePtr_pgd_of_read host mm pgn
  rw [hsnd]
  generalize hr : getPtePtr host mm pgn false = r at hpgd
  rw [← hpgd, ← hr]
  rfl

@[simp]
theorem pteGetEntry_pgd : (pteGetEntry host mm pgn).2.pgd = mm.pgd := by
  rw [pteGetEntry_snd]

@[simp]
theorem pteGetEntry_entry : (pteGetEntry host mm pgn).2.entry = mm.entry := by
  rw [pteGetEntry_snd]; rfl

@[simp]
theorem pteGetEntry_mmap : (pteGetEntry host mm pgn).2.mmap = mm.mmap := by
  rw [pteGetEntry_snd]

@[simp]
theorem pteGetEntry_symrgtbl : (pteGetEntry host mm pgn).2.symrgtbl = mm.symrgtbl := by
  rw [pteGetEntry_snd]

@[simp]
theorem pteGetEntry_fifoPgn : (pteGetEntry host mm pgn).2.fifoPgn = mm.fifoPgn := by
  rw [pteGetEntry_snd]

@[simp]
theorem pteGetEntry_kcpooltbl : (pteGetEntry host mm pgn).2.kcpooltbl = mm.kcpooltbl := by
  rw [pteGetEntry_snd]

end Entries

@[simp]
theorem initMm_entry (p : PageIx) : initMm.entry p = 0 := Radix.Tree.lookup_empty 0 p

end Ossim
