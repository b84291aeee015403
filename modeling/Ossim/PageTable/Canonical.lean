import Ossim.PageTable.Proofs

set_option autoImplicit false

/-! # Addresses beyond the canonical form

`get_pd_from_address` takes an address whose top seven bits are all clear or all set, and no directory
index has bit 57 or a higher one: an address of each kind can have the same indices. A rejected
address has no indices, but `get_pte_ptr` does not look at the status and goes on with the ones its
variables happened to hold. -/

namespace Ossim

/-! ## Accepted addresses -/

/-- `get_pd_from_address` accepts the address. -/
def Accepted (addr : BitVec 64) : Prop := addr >>> 57 = 0 ∨ addr >>> 57 = 0x7f

theorem getPdFromAddress_fst (addr : BitVec 64) (out : PageIx) :
    (getPdFromAddress addr out).1 = 0 ↔ Accepted addr := by
  rw [getPdFromAddress, Accepted]
  simp only
  split
  · next h => exact iff_of_false (by simp) fun ha => ha.elim h.1 h.2
  · next h => exact iff_of_true rfl (by tauto)

/-- The bits of an address that the directory indices are made of. -/
def indexBits (addr : BitVec 64) : BitVec 45 := addr.extractLsb' 12 45

theorem indexBits_toNat (addr : BitVec 64) : (indexBits addr).toNat = addr.toNat / 2 ^ 12 % 2 ^ 45 := by
  rw [indexBits, BitVec.extractLsb'_toNat, Nat.shiftRight_eq_div_pow]

theorem getPdFromAddress_of_accepted {addr : BitVec 64} (h : Accepted addr) (out : PageIx) :
    (getPdFromAddress addr out).2 =
      (dirIx addr 56 48, dirIx addr 47 39, dirIx addr 38 30, dirIx addr 29 21, dirIx addr 20 12) := by
  rw [getPdFromAddress]
  simp only
  rw [if_neg (fun hne => h.elim hne.1 hne.2)]
  rfl

/-- The indices are those bits. -/
theorem indices_eq_iff {a b : BitVec 64} (ha : Accepted a) (hb : Accepted b) (out out' : PageIx) :
    (getPdFromAddress a out).2 = (getPdFromAddress b out').2 ↔ indexBits a = indexBits b := by
  rw [getPdFromAddress_of_accepted ha, getPdFromAddress_of_accepted hb, ← BitVec.toNat_inj,
    indexBits_toNat, indexBits_toNat]
  change ((_, _, _, _, _) : Fin 512 × Fin 512 × Fin 512 × Fin 512 × Fin 512) = _ ↔ _
  simp only [Prod.mk.injEq, Fin.ext_iff, dirIx_val _ (show 48 + 8 < 64 by decide),
    dirIx_val _ (show 39 + 8 < 64 by decide), dirIx_val _ (show 30 + 8 < 64 by decide),
    dirIx_val _ (show 21 + 8 < 64 by decide), dirIx_val _ (show 12 + 8 < 64 by decide)]
  omega

/-- The page number is those bits and the top seven. -/
theorem page_eq_iff (a b : BitVec 64) :
    a >>> 12 = b >>> 12 ↔ a >>> 57 = b >>> 57 ∧ indexBits a = indexBits b := by
  simp only [← BitVec.toNat_inj, indexBits_toNat, BitVec.toNat_ushiftRight,
    Nat.shiftRight_eq_div_pow]
  omega

/-! ## Rejected page numbers -/

/-- The tables and entries are those of an earlier state. -/
structure Mm.TablesAsIn (mm' mm : Mm) : Prop where
  pgd : mm'.pgd = mm.pgd
  tablesAllocated : mm'.stats.tablesAllocated = mm.stats.tablesAllocated

theorem Mm.TablesAsIn.trans {mm mm' mm'' : Mm} (h' : mm''.TablesAsIn mm') (h : mm'.TablesAsIn mm) :
    mm''.TablesAsIn mm :=
  ⟨h'.pgd.trans h.pgd, h'.tablesAllocated.trans h.tablesAllocated⟩

section Walk

variable (host : Host) (mm : Mm) (pgn : ℕ)

/-- The slot's tables are not all there, and the host refuses the first that is missing. -/
def Mm.Refused (p : PageIx) : Prop :=
  mm.pgd.missing p ≠ 0 ∧ host.calloc mm.stats.levelWrites = false

theorem allocPgtblLevel_countsGranted :
    Radix.Tree.CountsGranted PgtblStats.read (allocPgtblLevel host) PgtblStats.tablesAllocated where
  visit _ := rfl
  grow st := by
    rw [allocPgtblLevel]
    split <;> rfl

/-- A walk that only reads leaves the tables as they are. -/
theorem getPtePtr_read_tables : (getPtePtr host mm pgn false).2.TablesAsIn mm := by
  have hcounts : Radix.Tree.CountsGranted PgtblStats.read (fun st => (false, st))
      PgtblStats.tablesAllocated := ⟨fun _ => rfl, fun _ => rfl⟩
  exact ⟨getPtePtr_pgd_of_read host mm pgn,
    Radix.Tree.tbl_walk_of_refuse 0 hcounts (fun _ => rfl) _ (pageIx host pgn) _⟩

theorem getPtePtr_read_iff :
    (getPtePtr host mm pgn false).1 = none ↔ mm.pgd.missing (pageIx host pgn) ≠ 0 := by
  have hwalk : (pgdWalk host mm pgn false).1 = true ↔ mm.pgd.missing (pageIx host pgn) = 0 :=
    Radix.Tree.walk_fst_of_refuse 0 _ _ (fun _ => rfl) ..
  rw [Ne, ← hwalk, getPtePtr]
  cases (pgdWalk host mm pgn false).1 <;> simp

/-- An allocating walk stops without a trace exactly if its first request is refused. -/
theorem getPtePtr_alloc_iff :
    (getPtePtr host mm pgn true).1 = none ∧ (getPtePtr host mm pgn true).2.TablesAsIn mm ↔
      mm.Refused host (pageIx host pgn) := by
  have hcounts := allocPgtblLevel_counts host
  have htables : (getPtePtr host mm pgn true).2.stats.tablesAllocated = mm.stats.tablesAllocated ↔
      mm.pgd.missing (pageIx host pgn) = 0 ∨ host.calloc mm.stats.levelWrites = false :=
    Radix.Tree.tbl_walk_eq_iff 0 hcounts (allocPgtblLevel_countsGranted host) ..
  constructor
  · rintro ⟨hnone, hsame⟩
    have hmissing : mm.pgd.missing (pageIx host pgn) ≠ 0 := by
      intro hzero
      have hsome := (getPtePtr_isSome_iff host mm pgn).2 (by simp [hzero])
      rw [hnone] at hsome
      exact absurd hsome (by simp)
    exact ⟨hmissing, (htables.1 hsame.tablesAllocated).resolve_left hmissing⟩
  · rintro ⟨hmissing, href⟩
    have hwalk : (pgdWalk host mm pgn true).1 = false ∧ (pgdWalk host mm pgn true).2.1 = mm.pgd :=
      Radix.Tree.walk_of_refused 0 hcounts _ _ _ hmissing href
    refine ⟨?_, hwalk.2, htables.2 (Or.inr href)⟩
    simp only [getPtePtr, hwalk.1, Bool.false_eq_true, if_false]

/-- A setter fails without a trace exactly if its first request is refused. -/
theorem pteUpdate_fails_iff (upd : BitVec 64 → BitVec 64) :
    (pteUpdate host mm pgn upd).1 = -1 ∧ (pteUpdate host mm pgn upd).2.TablesAsIn mm ↔
      mm.Refused host (pageIx host pgn) := by
  rw [← getPtePtr_alloc_iff, pteUpdate]
  generalize getPtePtr host mm pgn true = r
  obtain ⟨ptr, mm'⟩ := r
  cases ptr with
  | none => simp
  | some p => simp

end Walk

/-- Every access to a page fails, with no table allocated and no entry touched. -/
structure FailsUntouched (host : Host) (mm : Mm) (pgn : ℕ) : Prop where
  ptr : ∀ isAlloc, (getPtePtr host mm pgn isAlloc).1 = none ∧
    (getPtePtr host mm pgn isAlloc).2.TablesAsIn mm
  setFpn : ∀ fpn, (pteSetFpn host mm pgn fpn).1 = -1 ∧ (pteSetFpn host mm pgn fpn).2.TablesAsIn mm
  setSwap : ∀ swptyp swpoff, (pteSetSwap host mm pgn swptyp swpoff).1 = -1 ∧
    (pteSetSwap host mm pgn swptyp swpoff).2.TablesAsIn mm
  setEntry : ∀ pteVal, (pteSetEntry host mm pgn pteVal).1 = -1 ∧
    (pteSetEntry host mm pgn pteVal).2.TablesAsIn mm
  getEntry : (pteGetEntry host mm pgn).1 = 0 ∧ (pteGetEntry host mm pgn).2.TablesAsIn mm
  memset : ∀ addr pgnum, addr >>> 12 = pgn → 0 < pgnum →
    (vmapPgdMemset host mm addr pgnum).1 = -1 ∧ (vmapPgdMemset host mm addr pgnum).2.TablesAsIn mm

theorem failsUntouched_iff (host : Host) (mm : Mm) (pgn : ℕ) :
    FailsUntouched host mm pgn ↔ mm.Refused host (pageIx host pgn) := by
  constructor
  · exact fun h => (getPtePtr_alloc_iff host mm pgn).1 (h.ptr true)
  · intro href
    have hset := fun upd => (pteUpdate_fails_iff host mm pgn upd).2 href
    have hread : (getPtePtr host mm pgn false).1 = none :=
      (getPtePtr_read_iff host mm pgn).2 href.1
    have htables := getPtePtr_read_tables host mm pgn
    refine ⟨fun isAlloc => ?_, fun _ => hset _, fun _ _ => hset _, fun _ => hset _, ?_, ?_⟩
    · cases isAlloc with
      | false => exact ⟨hread, htables⟩
      | true => exact (getPtePtr_alloc_iff host mm pgn).2 href
    · rw [pteGetEntry]
      generalize getPtePtr host mm pgn false = r at hread htables
      obtain ⟨ptr, mm'⟩ := r
      obtain rfl : ptr = none := hread
      exact ⟨rfl, htables⟩
    · rintro addr pgnum rfl hpos
      -- the loop ends with the first entry
      obtain ⟨n, hn⟩ := Nat.exists_eq_succ_of_ne_zero (show pgnum.toNat ≠ 0 by omega)
      have hfirst := hset fun _ => 0xdeadbeef
      rw [vmapPgdMemset, hn, vmapPgdMemsetLoop]
      generalize pteUpdate host mm (addr >>> 12) (fun _ => 0xdeadbeef) = r at hfirst
      obtain ⟨st, mm'⟩ := r
      obtain ⟨rfl, hsame⟩ := hfirst
      exact ⟨rfl, hsame⟩

theorem pageIx_of_rejected {host : Host} {pgn : ℕ}
    (h : (getPdFromPagenum pgn host.stale).1 = -1) : pageIx host pgn = host.stale := by
  rw [pageIx]
  rw [getPdFromPagenum, getPdFromAddress] at h ⊢
  simp only at h ⊢
  split
  · rfl
  · next hacc =>
      rw [if_neg hacc] at h
      exact absurd h (by simp)

/-! ## Decomposing addresses -/

/-- **Decomposing addresses.** The indices of two accepted addresses tell their pages apart exactly if
    the addresses agree in their top bits or differ in those of the indices; and the accesses to a page
    whose number is rejected fail and leave the tables alone exactly if the host refuses the table
    that the indices left over from other addresses lack. -/
theorem decomposition_faithful_iff (host : Host) (mm : Mm) :
    (∀ a b out out', (getPdFromAddress a out).1 = 0 → (getPdFromAddress b out').1 = 0 →
      (((getPdFromAddress a out).2 = (getPdFromAddress b out').2 → a >>> 12 = b >>> 12) ↔
        a >>> 57 = b >>> 57 ∨ indexBits a ≠ indexBits b)) ∧
    ∀ pgn, (getPdFromPagenum pgn host.stale).1 = -1 →
      (FailsUntouched host mm pgn ↔ mm.Refused host host.stale) := by
  constructor
  · intro a b out out' ha hb
    rw [getPdFromAddress_fst] at ha hb
    rw [indices_eq_iff ha hb, page_eq_iff]
    tauto
  · intro pgn hrej
    rw [failsUntouched_iff, pageIx_of_rejected hrej]

/-- The addresses 0 and `0x7f << 57` are accepted and have the same indices; page number `2 ^ 45` is
    rejected, and a table for it is allocated all the same. -/
theorem not_decomposition_faithful_aliases :
    ((getPdFromAddress 0 generousHost.stale).1 = 0 ∧
      (getPdFromAddress (0x7f <<< 57) generousHost.stale).1 = 0 ∧
      (getPdFromAddress 0 generousHost.stale).2 =
        (getPdFromAddress (0x7f <<< 57) generousHost.stale).2 ∧
      (0 : BitVec 64) >>> 12 ≠ (0x7f <<< 57) >>> 12) ∧
    (getPdFromPagenum (2 ^ 45) generousHost.stale).1 = -1 ∧
      ¬ FailsUntouched generousHost initMm (2 ^ 45) := by
  refine ⟨⟨by decide, by decide, by decide, by decide⟩, by decide, fun h => ?_⟩
  have hsome := getPtePtr_alloc generousHost initMm (2 ^ 45) generousHost_generous.1
  rw [(h.ptr true).1] at hsome
  exact absurd hsome (by simp)

end Ossim
