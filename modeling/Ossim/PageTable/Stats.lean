import Mathlib.Data.Finset.Card
import Mathlib.Data.List.Induction
import Ossim.Lib.RadixTables
import Ossim.PageTable.Canonical

set_option autoImplicit false

/-! # The statistics of the page table (`mm64.c`)

The counters that `print_pgtbl` shows, against what they are meant to count: the tables of the tree, the
calls of `get_pte_ptr`, and the levels these looked at. They hold after any sequence of page-table
operations on a new address space, whether or not its tables are granted. The number of tables is
bounded by the pages that were walked to with allocation: what these pages still lack and what has been
created for them is at most four tables a page. -/

namespace Ossim

/-! ## Operations and their walks -/

/-- A call of `get_pte_ptr`, and whether it got to the entry. -/
structure PteWalk where
  pgn : ℕ
  isAlloc : Bool
  reached : Bool

section Operations

variable (host : Host)

def pteWalk (mm : Mm) (pgn : ℕ) (isAlloc : Bool) : PteWalk :=
  ⟨pgn, isAlloc, (getPtePtr host mm pgn isAlloc).1.isSome⟩

/-- The walks of the loop of `vmap_pgd_memset`: the last may be one that fails. -/
def vmapPgdMemsetWalks : (n : ℕ) → Mm → (addr : ℕ) → List PteWalk
  | 0, _, _ => []
  | n + 1, mm, addr =>
    let r := pteUpdate host mm (addr >>> 12) fun _ => 0xdeadbeef
    pteWalk host mm (addr >>> 12) true ::
      if r.1 = 0 then vmapPgdMemsetWalks n r.2 (addrT (addr + paging64Pagesz)) else []

inductive PgtblOp where
  | getPtePtr (pgn : ℕ) (isAlloc : Bool)
  | pteSetSwap (pgn swptyp swpoff : ℕ)
  | pteSetFpn (pgn fpn : ℕ)
  | pteSetEntry (pgn : ℕ) (pteVal : BitVec 32)
  | pteGetEntry (pgn : ℕ)
  | vmapPgdMemset (addr : ℕ) (pgnum : ℤ)

namespace PgtblOp

/-- The address space after an operation. -/
def exec (mm : Mm) : PgtblOp → Mm
  | getPtePtr pgn isAlloc => (Ossim.getPtePtr host mm pgn isAlloc).2
  | pteSetSwap pgn swptyp swpoff => (Ossim.pteSetSwap host mm pgn swptyp swpoff).2
  | pteSetFpn pgn fpn => (Ossim.pteSetFpn host mm pgn fpn).2
  | pteSetEntry pgn pteVal => (Ossim.pteSetEntry host mm pgn pteVal).2
  | pteGetEntry pgn => (Ossim.pteGetEntry host mm pgn).2
  | vmapPgdMemset addr pgnum => (Ossim.vmapPgdMemset host mm addr pgnum).2

/-- The calls of `get_pte_ptr` it makes. -/
def walks (mm : Mm) : PgtblOp → List PteWalk
  | getPtePtr pgn isAlloc => [pteWalk host mm pgn isAlloc]
  | pteSetSwap pgn _ _ | pteSetFpn pgn _ | pteSetEntry pgn _ => [pteWalk host mm pgn true]
  | pteGetEntry pgn => [pteWalk host mm pgn false]
  | vmapPgdMemset addr pgnum => vmapPgdMemsetWalks host pgnum.toNat mm addr

end PgtblOp

/-- A sequence of operations on a new address space, with its walks. -/
def pgtblRun (ops : List PgtblOp) : List PteWalk × Mm :=
  ops.foldl (fun s op => (s.1 ++ op.walks host s.2, op.exec host s.2)) ([], initMm)

end Operations

/-- The pages walked to with allocation. -/
def pagesAllocated (log : List PteWalk) : Finset ℕ :=
  ((log.filter fun w => w.isAlloc).map fun w => w.pgn).toFinset

/-- The counters of an address space that has seen these walks. -/
structure PgtblTruthful (log : List PteWalk) (mm : Mm) : Prop where
  walks : mm.stats.walks = log.length
  tables : mm.stats.tablesAllocated = mm.pgd.tables
  bytes : mm.stats.storageBytes = 4096 * mm.pgd.tables
  reads_le : mm.stats.levelReads ≤ 5 * mm.stats.walks
  reads_eq_iff : mm.stats.levelReads = 5 * mm.stats.walks ↔ ∀ w ∈ log, w.reached = true

/-! ## One walk -/

/-- The bytes are those of the tables counted. -/
def PgtblStats.BytesOfTables (st : PgtblStats) : Prop := st.storageBytes = 4096 * st.tablesAllocated

/-- What a walk does to the tree and the counters. -/
structure Walked (host : Host) (mm mm' : Mm) (w : PteWalk) : Prop where
  walks : mm'.stats.walks = mm.stats.walks + 1
  reads : mm'.stats.levelReads ≤ mm.stats.levelReads + 5 ∧
    (mm'.stats.levelReads = mm.stats.levelReads + 5 ↔ w.reached = true)
  tables : mm'.stats.tablesAllocated + mm.pgd.tables = mm.stats.tablesAllocated + mm'.pgd.tables
  bytes : mm.stats.BytesOfTables → mm'.stats.BytesOfTables
  grown : mm'.pgd.tables + mm'.pgd.missing (pageIx host w.pgn) =
    mm.pgd.tables + mm.pgd.missing (pageIx host w.pgn)
  missing_le : ∀ p, mm'.pgd.missing p ≤ mm.pgd.missing p
  kept : w.isAlloc = false → mm'.pgd = mm.pgd

/-- The bookkeeping of a walk: a level visited, and a table asked for. -/
def pteGrow (host : Host) (isAlloc : Bool) (st : PgtblStats) : Bool × PgtblStats :=
  if isAlloc then allocPgtblLevel host st else (false, st)

theorem pteGrow_countsGranted (host : Host) (isAlloc : Bool) :
    Radix.Tree.CountsGranted PgtblStats.read (pteGrow host isAlloc) PgtblStats.tablesAllocated := by
  cases isAlloc with
  | true => exact allocPgtblLevel_countsGranted host
  | false => exact ⟨fun _ => rfl, fun _ => rfl⟩

theorem pteGrow_countsVisits (host : Host) (isAlloc : Bool) :
    Radix.Tree.CountsVisits PgtblStats.read (pteGrow host isAlloc) PgtblStats.levelReads := by
  refine ⟨fun _ => rfl, fun st => ?_⟩
  unfold pteGrow allocPgtblLevel
  split_ifs <;> rfl

/-- A walk is counted where it starts. -/
theorem pteGrow_walks (host : Host) (isAlloc : Bool) (st : PgtblStats) :
    (pteGrow host isAlloc st).2.walks = st.walks := by
  unfold pteGrow allocPgtblLevel
  split_ifs <;> rfl

theorem pteGrow_bytes (host : Host) (isAlloc : Bool) {st : PgtblStats} (h : st.BytesOfTables) :
    (pteGrow host isAlloc st).2.BytesOfTables := by
  have htable : pgtblTableBytes = 4096 := rfl
  unfold PgtblStats.BytesOfTables at h ⊢
  unfold pteGrow allocPgtblLevel
  split_ifs
  · simp only [h, htable]
    omega
  · exact h
  · exact h

theorem getPtePtr_walked (host : Host) (mm : Mm) (pgn : ℕ) (isAlloc : Bool) :
    Walked host mm (getPtePtr host mm pgn isAlloc).2 (pteWalk host mm pgn isAlloc) := by
  have hreached : (pteWalk host mm pgn isAlloc).reached = (pgdWalk host mm pgn isAlloc).1 := by
    rw [pteWalk, getPtePtr]
    cases (pgdWalk host mm pgn isAlloc).1 <;> rfl
  have hvisits := Radix.Tree.visits_walk 0 (pteGrow_countsVisits host isAlloc) mm.pgd
    (pageIx host pgn) { mm.stats with walks := mm.stats.walks + 1 }
  have hwalk : ∀ P : PgtblStats → Prop, (∀ st, P st → P st.read) →
      (∀ st, P st → P (pteGrow host isAlloc st).2) →
      P { mm.stats with walks := mm.stats.walks + 1 } → P (getPtePtr host mm pgn isAlloc).2.stats :=
    fun P hread hgrow => Radix.Tree.walk_state 0 hread hgrow mm.pgd (pageIx host pgn)
  refine ⟨?_, ?_, ?_, fun h => ?_, ?_, fun p => ?_, fun h => ?_⟩
  · exact hwalk (fun st => st.walks = mm.stats.walks + 1) (fun _ h => h)
      (fun st h => (pteGrow_walks host isAlloc st).trans h) rfl
  · rw [hreached]
    exact hvisits
  · exact Radix.Tree.tbl_walk_add_tables 0 (pteGrow_countsGranted host isAlloc) ..
  · exact hwalk PgtblStats.BytesOfTables (fun _ h => h) (fun _ h => pteGrow_bytes host isAlloc h) h
  · exact Radix.Tree.tables_walk ..
  · exact Radix.Tree.missing_walk_le ..
  · have hread : isAlloc = false := h
    rw [hread]
    exact getPtePtr_pgd_of_read ..

/-! ## Runs -/

/-- The counters, and the tables there are with those that the pages allocated lack. -/
structure PgtblInv (host : Host) (log : List PteWalk) (mm : Mm) : Prop extends
    PgtblTruthful log mm where
  room : mm.pgd.tables + ∑ pgn ∈ pagesAllocated log, mm.pgd.missing (pageIx host pgn) ≤
    1 + 4 * (pagesAllocated log).card

theorem pagesAllocated_concat (log : List PteWalk) (w : PteWalk) :
    pagesAllocated (log ++ [w]) =
      if w.isAlloc then insert w.pgn (pagesAllocated log) else pagesAllocated log := by
  unfold pagesAllocated
  cases hw : w.isAlloc with
  | true =>
      ext pgn
      simp [hw]
  | false => simp [hw]

theorem pgtblInv_initMm (host : Host) : PgtblInv host [] initMm := by
  have htables : initMm.pgd.tables = 1 := Radix.Tree.tables_empty 0 4
  refine ⟨⟨rfl, htables.symm, ?_, Nat.le_refl _, by simp [initMm]⟩, ?_⟩
  · rw [htables]
    rfl
  · rw [htables]
    exact Nat.le_refl 1

section Step

variable {host : Host} {log : List PteWalk} {mm mm' : Mm} {w : PteWalk}

theorem PgtblInv.room_walked (h : PgtblInv host log mm) (hw : Walked host mm mm' w) :
    mm'.pgd.tables + ∑ pgn ∈ pagesAllocated (log ++ [w]), mm'.pgd.missing (pageIx host pgn) ≤
      1 + 4 * (pagesAllocated (log ++ [w])).card := by
  have hroom := h.room
  rw [pagesAllocated_concat]
  cases halloc : w.isAlloc with
  | false =>
      rw [hw.kept halloc]
      exact hroom
  | true =>
      rw [if_pos rfl]
      have hgrown := hw.grown
      have hle : ∀ S : Finset ℕ, ∑ pgn ∈ S, mm'.pgd.missing (pageIx host pgn) ≤
          ∑ pgn ∈ S, mm.pgd.missing (pageIx host pgn) := fun S =>
        Finset.sum_le_sum fun _ _ => hw.missing_le _
      by_cases hmem : w.pgn ∈ pagesAllocated log
      · -- what the page lacks no longer has become tables
        rw [Finset.insert_eq_of_mem hmem]
        rw [← Finset.add_sum_erase _ _ hmem] at hroom ⊢
        have hrest := hle ((pagesAllocated log).erase w.pgn)
        omega
      · rw [Finset.sum_insert hmem, Finset.card_insert_of_notMem hmem]
        have hfour := Radix.Tree.missing_le mm.pgd (pageIx host w.pgn)
        have hrest := hle (pagesAllocated log)
        omega

theorem PgtblInv.walked (h : PgtblInv host log mm) (hw : Walked host mm mm' w) :
    PgtblInv host (log ++ [w]) mm' := by
  have htables := hw.tables
  rw [h.tables] at htables
  have hcount : mm'.stats.tablesAllocated = mm'.pgd.tables := by omega
  refine ⟨⟨?_, hcount, ?_, ?_, ?_⟩, h.room_walked hw⟩
  · rw [hw.walks, h.walks, List.length_append, List.length_singleton]
  · have hbytes : mm.stats.BytesOfTables := by
      rw [PgtblStats.BytesOfTables, h.bytes, h.tables]
    rw [← hcount]
    exact hw.bytes hbytes
  · have hle := h.reads_le
    have hstep := hw.reads.1
    rw [hw.walks]
    omega
  · have hle := h.reads_le
    have hstep := hw.reads.1
    simp only [List.mem_append, List.mem_singleton, or_imp, forall_and, forall_eq]
    rw [← h.reads_eq_iff, ← hw.reads.2, hw.walks]
    omega

theorem PgtblInv.setEntry (h : PgtblInv host log mm) (p : PageIx) (v : BitVec 64) :
    PgtblInv host log (mm.setEntry p v) := by
  have htables : (mm.setEntry p v).pgd.tables = mm.pgd.tables := Radix.Tree.tables_write ..
  refine ⟨⟨h.walks, ?_, ?_, h.reads_le, h.reads_eq_iff⟩, ?_⟩
  · rw [htables]
    exact h.tables
  · rw [htables]
    exact h.bytes
  · rw [htables]
    simp only [Mm.setEntry, Radix.Tree.missing_write]
    exact h.room

theorem PgtblInv.getPtePtr (h : PgtblInv host log mm) (pgn : ℕ) (isAlloc : Bool) :
    PgtblInv host (log ++ [pteWalk host mm pgn isAlloc]) (Ossim.getPtePtr host mm pgn isAlloc).2 :=
  h.walked (getPtePtr_walked host mm pgn isAlloc)

theorem PgtblInv.pteUpdate (h : PgtblInv host log mm) (pgn : ℕ) (upd : BitVec 64 → BitVec 64) :
    PgtblInv host (log ++ [pteWalk host mm pgn true]) (Ossim.pteUpdate host mm pgn upd).2 := by
  have hwalked := h.getPtePtr pgn true
  unfold Ossim.pteUpdate
  split
  · next heq => rwa [heq] at hwalked
  · next heq =>
      rw [heq] at hwalked
      exact hwalked.setEntry ..

theorem PgtblInv.pteGetEntry (h : PgtblInv host log mm) (pgn : ℕ) :
    PgtblInv host (log ++ [pteWalk host mm pgn false]) (Ossim.pteGetEntry host mm pgn).2 := by
  have hwalked := h.getPtePtr pgn false
  unfold Ossim.pteGetEntry
  split
  · next heq => rwa [heq] at hwalked
  · next heq => rwa [heq] at hwalked

theorem PgtblInv.vmapPgdMemset (h : PgtblInv host log mm) (n addr : ℕ) :
    PgtblInv host (log ++ vmapPgdMemsetWalks host n mm addr)
      (vmapPgdMemsetLoop host n mm addr).2 := by
  induction n generalizing log mm addr with
  | zero =>
      rw [vmapPgdMemsetWalks, List.append_nil]
      exact h
  | succ n ih =>
      have hstep := h.pteUpdate (addr >>> 12) fun _ => 0xdeadbeef
      rw [vmapPgdMemsetWalks, vmapPgdMemsetLoop, List.append_cons]
      generalize (Ossim.pteUpdate host mm (addr >>> 12) fun _ => 0xdeadbeef) = r at hstep ⊢
      obtain ⟨status, mm'⟩ := r
      by_cases hzero : status = 0
      · subst hzero
        rw [if_pos rfl]
        exact ih hstep _
      · rw [if_neg hzero, List.append_nil]
        split
        · next heq => exact absurd (congrArg Prod.fst heq) hzero
        · next heq =>
            cases heq
            exact hstep

theorem PgtblInv.exec (h : PgtblInv host log mm) (op : PgtblOp) :
    PgtblInv host (log ++ op.walks host mm) (op.exec host mm) := by
  cases op with
  | getPtePtr pgn isAlloc => exact h.getPtePtr pgn isAlloc
  | pteSetSwap pgn swptyp swpoff => exact h.pteUpdate pgn _
  | pteSetFpn pgn fpn => exact h.pteUpdate pgn _
  | pteSetEntry pgn pteVal => exact h.pteUpdate pgn _
  | pteGetEntry pgn => exact h.pteGetEntry pgn
  | vmapPgdMemset addr pgnum => exact h.vmapPgdMemset _ addr

end Step

theorem pgtblRun_inv (host : Host) (ops : List PgtblOp) :
    PgtblInv host (pgtblRun host ops).1 (pgtblRun host ops).2 := by
  induction ops using List.reverseRecOn with
  | nil => exact pgtblInv_initMm host
  | append_singleton ops op ih =>
      rw [pgtblRun, List.foldl_concat]
      exact ih.exec op

/-- The two counters of tables do not overflow: a tree has room for fewer than `2 ^ 37` of them. -/
theorem pgtblRun_bytes_lt (host : Host) (ops : List PgtblOp) :
    (pgtblRun host ops).2.stats.tablesAllocated < 2 ^ 64 ∧
      (pgtblRun host ops).2.stats.storageBytes < 2 ^ 64 := by
  have h := pgtblRun_inv host ops
  have htables := Radix.Tree.tables_le (pgtblRun host ops).2.pgd
  rw [Fintype.card_fin] at htables
  have hplaces : ∑ k ∈ Finset.range (4 + 1), 512 ^ k < 2 ^ 37 := by decide
  rw [h.tables, h.bytes]
  omega

/-- **The statistics of the page table are truthful**, and a page takes at most four tables. -/
theorem pgtblRun_truthful (host : Host) (ops : List PgtblOp) :
    PgtblTruthful (pgtblRun host ops).1 (pgtblRun host ops).2 ∧
      (pgtblRun host ops).2.pgd.tables ≤ 1 + 4 * (pagesAllocated (pgtblRun host ops).1).card := by
  have h := pgtblRun_inv host ops
  exact ⟨h.toPgtblTruthful, Nat.le_trans (Nat.le_add_right _ _) h.room⟩

end Ossim
