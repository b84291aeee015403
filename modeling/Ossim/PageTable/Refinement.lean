import Ossim.PageTable.Proofs

set_option autoImplicit false

/-! # The five-level table refines a flat table

The purpose of the tree is to be an array of 32-bit entries indexed by page number. `PteOp` lists the
operations `mm64.c` offers on entries, `PteOp.exec` runs one on an address space, and
`PteOp.updateAt` says what it is for: the update it makes to the entry of a given page. The two are
related by `TableCorr`, kept by every operation (`PteOp.exec_corr`) and so by every sequence. -/

namespace Ossim

open BitField

/-! ## The flat table -/

/-- The entry of a page put in frame `fpn`. -/
def fpnEntry (pte : BitVec 32) (fpn : ℕ) : BitVec 32 :=
  setval (clrbit (setbit pte pagingPtePresentMask) pagingPteSwappedMask) (BitVec.ofNat 32 fpn)
    pagingPteFpnMask 0

/-- The entry of a page put in frame `swpoff` of swap device `swptyp`. -/
def swapEntry (pte : BitVec 32) (swptyp swpoff : ℕ) : BitVec 32 :=
  setval (setval (setbit (clrbit pte pagingPtePresentMask) pagingPteSwappedMask)
    (BitVec.ofNat 32 swptyp) pagingPteSwptypMask 0) (BitVec.ofNat 32 swpoff) pagingPteSwpoffMask 5

/-- The operations on entries. -/
inductive PteOp where
  | setFpn (pgn fpn : ℕ)
  | setSwap (pgn swptyp swpoff : ℕ)
  | setEntry (pgn : ℕ) (pteVal : BitVec 32)
  | memset (addr : ℕ) (pgnum : ℤ)
  | getEntry (pgn : ℕ)

/-- What an operation makes of the entry of page `pgn`: its update if it addresses that page. -/
def PteOp.updateAt (pgn : ℕ) : PteOp → BitVec 32 → BitVec 32
  | .setFpn p fpn, e => if p = pgn then fpnEntry e fpn else e
  | .setSwap p swptyp swpoff, e => if p = pgn then swapEntry e swptyp swpoff else e
  | .setEntry p v, e => if p = pgn then v else e
  | .memset addr n, e => if addr / 4096 ≤ pgn ∧ pgn < addr / 4096 + n.toNat then 0xdeadbeef else e
  | .getEntry _, e => e

/-- The entry of page `pgn` after a sequence of operations on an empty table. -/
def flatEntry (pgn : ℕ) (ops : List PteOp) : BitVec 32 :=
  ops.foldl (fun e op => op.updateAt pgn e) 0

/-! ## The tree -/

/-- Run one operation. -/
def PteOp.exec (host : Host) (mm : Mm) : PteOp → Mm
  | .setFpn pgn fpn => (pteSetFpn host mm pgn fpn).2
  | .setSwap pgn swptyp swpoff => (pteSetSwap host mm pgn swptyp swpoff).2
  | .setEntry pgn v => (pteSetEntry host mm pgn v).2
  | .memset addr n => (vmapPgdMemset host mm addr n).2
  | .getEntry pgn => (pteGetEntry host mm pgn).2

/-- The operation addresses pages below `2 ^ 45` only. -/
def PteOp.InRange : PteOp → Prop
  | .setFpn pgn _ | .setSwap pgn _ _ | .setEntry pgn _ | .getEntry pgn => pgn < 2 ^ 45
  | .memset addr n => addr / 4096 + n.toNat ≤ 2 ^ 45

/-- The low halves of the slots are the entries of the flat table. -/
def TableCorr (host : Host) (mm : Mm) (e : ℕ → BitVec 32) : Prop :=
  ∀ pgn < 2 ^ 45, (mm.entry (pageIx host pgn)).setWidth 32 = e pgn

theorem setWidth_pteFpnWord (v : BitVec 64) (fpn : ℕ) :
    (pteFpnWord v fpn).setWidth 32 = fpnEntry (v.setWidth 32) fpn := by
  apply BitVec.eq_of_getLsbD_eq
  intro i hi
  rw [BitVec.getLsbD_setWidth, getLsbD_pteFpnWord v fpn hi]
  simp only [fpnEntry, pagingPteFpnMask, pagingPteSwappedMask, pagingPtePresentMask, getLsbD_setval,
    getLsbD_clrbit, getLsbD_setbit, getLsbD_genmask (m := 32) (h := 12) (by omega),
    getLsbD_bit (n := 30) (by omega), getLsbD_bit (n := 31) (by omega), BitVec.getLsbD_ofNat,
    BitVec.getLsbD_setWidth]
  by_cases h12 : i ≤ 12
  · simp [h12, hi]
  · by_cases h31 : i = 31
    · subst h31; simp
    · by_cases h30 : i = 30
      · subst h30; simp
      · simp [h12, h31, h30, hi]

theorem setWidth_pteSwapWord (v : BitVec 64) (swptyp swpoff : ℕ) :
    (pteSwapWord v swptyp swpoff).setWidth 32 = swapEntry (v.setWidth 32) swptyp swpoff := by
  apply BitVec.eq_of_getLsbD_eq
  intro i hi
  rw [BitVec.getLsbD_setWidth, getLsbD_pteSwapWord v swptyp swpoff hi]
  simp only [swapEntry, pagingPteSwptypMask, pagingPteSwpoffMask, pagingPteSwappedMask,
    pagingPtePresentMask, getLsbD_setval, getLsbD_clrbit, getLsbD_setbit,
    getLsbD_genmask (m := 32) (h := 4) (by omega), getLsbD_genmask (m := 32) (h := 25) (by omega),
    getLsbD_bit (n := 30) (by omega), getLsbD_bit (n := 31) (by omega), BitVec.getLsbD_ofNat,
    BitVec.getLsbD_setWidth]
  have hi' : i - 5 < 32 := by omega
  by_cases h5 : i < 5
  · have h4 : i ≤ 4 := by omega
    have h5' : ¬ 5 ≤ i := by omega
    simp [h5, h4, h5', hi]
  · have h5' : 5 ≤ i := by omega
    have h4 : ¬ i ≤ 4 := by omega
    by_cases h25 : i ≤ 25
    · simp [h5, h5', h25, hi, hi']
    · by_cases h31 : i = 31
      · subst h31; simp
      · by_cases h30 : i = 30
        · subst h30; simp
        · simp [h5, h4, h25, h31, h30, hi]

/-! ## The simulation -/

section Simulation

variable {host : Host} (hc : ∀ n, host.calloc n = true)

include hc

/-- A setter whose update on slots is `upd'` on entries corresponds to an update of the flat table
    at its page. -/
theorem pteUpdate_corr {mm : Mm} {e : ℕ → BitVec 32} (h : TableCorr host mm e) {p : ℕ}
    (hp : p < 2 ^ 45) (upd : BitVec 64 → BitVec 64) (upd' : BitVec 32 → BitVec 32)
    (hupd : ∀ v, (upd v).setWidth 32 = upd' (v.setWidth 32)) :
    TableCorr host (pteUpdate host mm p upd).2 (fun pgn => if p = pgn then upd' (e pgn) else e pgn) := by
  intro pgn hpgn
  beta_reduce
  rw [pteUpdate_entry host mm p upd hc]
  by_cases hpp : p = pgn
  · subst hpp
    rw [if_pos rfl, Function.update_self, hupd, h p hp]
  · have hix : pageIx host pgn ≠ pageIx host p := fun he => hpp (pageIx_inj host hpgn hp he).symm
    rw [if_neg hpp, Function.update_of_ne hix, h pgn hpgn]

theorem vmapPgdMemsetLoop_corr (n : ℕ) {mm : Mm} {e : ℕ → BitVec 32} (h : TableCorr host mm e)
    {addr : ℕ} (haddr : addr / 4096 + n ≤ 2 ^ 45) :
    TableCorr host (vmapPgdMemsetLoop host n mm addr).2
      (fun pgn => if addr / 4096 ≤ pgn ∧ pgn < addr / 4096 + n then 0xdeadbeef else e pgn) := by
  induction n generalizing mm e addr with
  | zero =>
      intro pgn hpgn
      beta_reduce
      rw [if_neg (by omega)]
      exact h pgn hpgn
  | succ n ih =>
      have hshift : addr >>> 12 = addr / 4096 := Nat.shiftRight_eq_div_pow addr 12
      have hstep := pteUpdate_corr hc h (by omega : addr / 4096 < 2 ^ 45)
        (fun _ => 0xdeadbeef) (fun _ => 0xdeadbeef) (fun _ => rfl)
      have hwrap : addrT (addr + paging64Pagesz) = addr + 4096 := by
        rw [paging64Pagesz]
        exact addrT_of_lt (by omega)
      have hloop : vmapPgdMemsetLoop host (n + 1) mm addr =
          vmapPgdMemsetLoop host n (pteUpdate host mm (addr / 4096) (fun _ => 0xdeadbeef)).2
            (addr + 4096) := by
        rw [vmapPgdMemsetLoop, hshift, hwrap, pteUpdate_eq host mm _ _ hc]
        rfl
      rw [hloop]
      -- the pages left to fill start one page further
      intro pgn hpgn
      have hrest := @ih _ _ hstep (addr + 4096) (by omega) pgn hpgn
      beta_reduce at hrest ⊢
      rw [hrest]
      by_cases hpage : addr / 4096 = pgn
      · rw [if_pos hpage, if_neg (by omega)]
        exact (if_pos ⟨by omega, by omega⟩).symm
      · rw [if_neg hpage]
        exact if_congr (by omega) rfl rfl

theorem PteOp.exec_corr (op : PteOp) (hop : op.InRange) {mm : Mm} {e : ℕ → BitVec 32}
    (h : TableCorr host mm e) : TableCorr host (op.exec host mm) (fun pgn => op.updateAt pgn (e pgn)) := by
  cases op with
  | setFpn p fpn => exact pteUpdate_corr hc h hop _ (fpnEntry · fpn) (setWidth_pteFpnWord · fpn)
  | setSwap p swptyp swpoff =>
      exact pteUpdate_corr hc h hop _ (swapEntry · swptyp swpoff)
        (setWidth_pteSwapWord · swptyp swpoff)
  | setEntry p v =>
      exact pteUpdate_corr hc h hop _ (fun _ => v) (fun _ => by simp)
  | memset addr n => exact vmapPgdMemsetLoop_corr hc n.toNat h hop
  | getEntry p =>
      intro pgn hpgn
      rw [PteOp.exec, pteGetEntry_entry]
      exact h pgn hpgn

theorem PteOp.execAll_corr (ops : List PteOp) (hops : ∀ op ∈ ops, op.InRange) {mm : Mm}
    {e : ℕ → BitVec 32} (h : TableCorr host mm e) :
    TableCorr host (ops.foldl (PteOp.exec host) mm)
      (fun pgn => ops.foldl (fun e op => op.updateAt pgn e) (e pgn)) := by
  induction ops generalizing mm e with
  | nil => exact h
  | cons op ops ih =>
      have hop := hops op (List.mem_cons_self ..)
      exact ih (fun o ho => hops o (List.mem_cons_of_mem _ ho)) (PteOp.exec_corr hc op hop h)

end Simulation

/-- **The five-level page table is a map.** After any operations on pages below `2 ^ 45`, reading a
    page gives the entry of the flat table, reading changes no table, and the entries the setters
    leave decode to what was set. -/
theorem pageTable_refines_flat (host : Host) (hc : ∀ n, host.calloc n = true) (ops : List PteOp)
    (hops : ∀ op ∈ ops, op.InRange) :
    let mm := ops.foldl (PteOp.exec host) initMm
    (∀ pgn < 2 ^ 45, (pteGetEntry host mm pgn).1 = flatEntry pgn ops) ∧
    (∀ pgn, (pteGetEntry host mm pgn).2.pgd = mm.pgd) ∧
    (∀ pgn < 2 ^ 45, ∀ f < 2 ^ 13,
      let pte := (pteGetEntry host (pteSetFpn host mm pgn f).2 pgn).1
      pagingPagePresent pte = true ∧ pagingPageSwapped pte = false ∧ pagingFpn pte = f) ∧
    (∀ pgn < 2 ^ 45, ∀ t < 2 ^ 5, ∀ s < 2 ^ 21,
      let pte := (pteGetEntry host (pteSetSwap host mm pgn t s).2 pgn).1
      pagingPagePresent pte = false ∧ pagingPageSwapped pte = true ∧ pagingSwp pte = s) := by
  intro mm
  have hinit : TableCorr host initMm (fun _ => 0) := by
    intro pgn _
    rw [initMm_entry]
    rfl
  have hcorr := PteOp.execAll_corr hc ops hops hinit
  refine ⟨?_, ?_, ?_, ?_⟩
  · intro pgn hpgn
    rw [pteGetEntry_fst]
    exact hcorr pgn hpgn
  · exact fun pgn => pteGetEntry_pgd host mm pgn
  · intro pgn _ f hf
    simp only [pteGetEntry_fst, pteSetFpn_entry host mm pgn hc, Function.update_self]
    exact ⟨present_pteFpnWord _ f, swapped_pteFpnWord _ f, fpn_pteFpnWord _ f hf⟩
  · intro pgn _ t _ s hs
    simp only [pteGetEntry_fst, pteSetSwap_entry host mm pgn hc, Function.update_self]
    exact ⟨present_pteSwapWord _ t s, swapped_pteSwapWord _ t s, swp_pteSwapWord _ t s hs⟩

theorem pageTable_refines_flat_setFpn_setSwap :
    let mm := [PteOp.setFpn 3 7, PteOp.setSwap 3 0 9, PteOp.setFpn (2 ^ 44) 1].foldl
      (PteOp.exec generousHost) initMm
    (pteGetEntry generousHost mm 3).1 = 0x40000120 := by
  have h := pageTable_refines_flat generousHost (fun _ => rfl)
    [PteOp.setFpn 3 7, PteOp.setSwap 3 0 9, PteOp.setFpn (2 ^ 44) 1]
    (by simp [PteOp.InRange])
  exact (h.1 3 (by omega)).trans (by decide)

end Ossim
