import Ossim.Libmem.CachePools
import Ossim.System

set_option autoImplicit false

/-! # The pool table over a run

The kernel gets its pool table with the first KMEM_CACHE_CREATE that has a size and a slot width, also
one that fails later, and keeps it. Until then a KMEM_CACHE_ALLOC reads through NULL; from then on it
reports a failure whatever it did, which is right only where there was no slot to carve. -/

namespace Ossim

/-- KMEM_CACHE_CREATE with operands that make a pool. -/
def Inst.CreatesPoolTable (ins : Inst) : Prop :=
  ins.opcode = .kmemCacheCreate ∧ 0 < uint32 ins.arg1 ∧ uint32 ins.arg1 ≤ uint32 ins.arg0

/-- Any sequence of instructions, by any of the processes, with the instructions that were run, the
    latest first. -/
inductive InstRun (host : Host) (s₀ : System) : List Inst → System → Prop where
  | start : InstRun host s₀ [] s₀
  | step {log : List Inst} {s s' : System} (h : InstRun host s₀ log s) {pid : ℕ} {ins : Inst} {st : ℤ}
      (hfetch : s.fetch pid = some ins) (hrun : s.run host pid = some (st, s')) :
      InstRun host s₀ (ins :: log) s'

section Table

variable {host : Host} {c c' : Caller} {ins : Inst} {st : ℤ}

theorem libkmemMalloc_tables (host : Host) (c : Caller) (size regIndex : ℕ) :
    (libkmemMalloc host c size regIndex).2.krnl.mm.kcpooltbl = c.krnl.mm.kcpooltbl := by
  rw [libkmemMalloc_snd]
  exact (kmalloc_tables host c regIndex size).1

theorem libkmemCacheAlloc_table {id regIndex : ℕ}
    (h : libkmemCacheAlloc c id regIndex = some (st, c')) :
    c'.krnl.mm.kcpooltbl.isSome = c.krnl.mm.kcpooltbl.isSome := by
  obtain ⟨⟨st₁, c₁⟩, hcall, heq⟩ := Option.map_eq_some_iff.1 h
  obtain ⟨-, rfl⟩ := Prod.mk.inj heq
  cases htable : c.krnl.mm.kcpooltbl with
  | none =>
      by_cases hid : pagingMaxKcachePools ≤ id
      · rw [kmemCacheAlloc_refused (Or.inl hid)] at hcall
        cases hcall
        rw [htable]
      · rw [kmemCacheAlloc_undefined (Nat.not_le.1 hid) htable] at hcall
        exact absurd hcall (by simp)
  | some tbl =>
      have hsome : c.krnl.mm.kcpooltbl.isSome := by rw [htable]; rfl
      rcases kmemCacheAlloc_cases hsome regIndex id with ⟨-, heq⟩ | ⟨-, c₂, heq, hcarved⟩
      · rw [heq] at hcall
        cases hcall
        rw [htable]
      · rw [heq] at hcall
        cases hcall
        rw [hcarved.pools]
        rfl

theorem libkmemCachePoolCreate_table (host : Host) (c : Caller) (size align id : ℕ) :
    (libkmemCachePoolCreate host c size align id).2.krnl.mm.kcpooltbl.isSome ↔
      c.krnl.mm.kcpooltbl.isSome ∨ 0 < align ∧ align ≤ size := by
  rcases libkmemCachePoolCreate_cases host c size align id with
    ⟨hargs, heq⟩ | ⟨st, c', heq, hvalid, -, ⟨-, htable⟩ | ⟨-, -, htable⟩⟩
  · rw [heq]
    have hno : ¬ (0 < align ∧ align ≤ size) := by omega
    simp [hno]
  · simp [heq, htable, hvalid]
  · simp [heq, htable, hvalid]

/-- The table is there after an instruction if it was there before or the instruction creates it. -/
theorem execInst_table (h : execInst host c ins = some (st, c')) :
    c'.krnl.mm.kcpooltbl.isSome ↔ c.krnl.mm.kcpooltbl.isSome ∨ ins.CreatesPoolTable := by
  have hother : ∀ {d : Caller}, d.krnl.mm.kcpooltbl.isSome = c.krnl.mm.kcpooltbl.isSome →
      ins.opcode ≠ .kmemCacheCreate →
      (d.krnl.mm.kcpooltbl.isSome ↔ c.krnl.mm.kcpooltbl.isSome ∨ ins.CreatesPoolTable) := by
    intro d hd hop
    have hno : ¬ ins.CreatesPoolTable := fun hc => hop hc.1
    simp [hd, hno]
  have hsame : ∀ {r : ℤ × Caller}, some r = some (st, c') → SameButUser c r.2 →
      c'.krnl.mm.kcpooltbl.isSome = c.krnl.mm.kcpooltbl.isSome := by
    intro r hr hd
    rw [Option.some.inj hr] at hd
    rw [hd.kcpooltbl]
  rw [execInst] at h
  cases hop : ins.opcode <;> rw [hop] at h <;> simp only at h
  case kmemCacheCreate =>
    have htable := libkmemCachePoolCreate_table host c (uint32 ins.arg0)
      (uint32 ins.arg1) (uint32 ins.arg2)
    rw [Option.some.inj h] at htable
    simpa [Inst.CreatesPoolTable, hop] using htable
  all_goals refine hother ?_ (by simp [hop])
  case «calc» => exact hsame h (.refl c)
  case alloc =>
    obtain ⟨regs, rfl⟩ := liballoc_eq_some _ _ h
    exact congrArg Option.isSome (alloc_same host c (uint32 ins.arg1) ins.arg0).kcpooltbl
  case free =>
    obtain ⟨regs, rfl⟩ := libfree_eq_some _ h
    exact congrArg Option.isSome (free_same c (uint32 ins.arg0)).kcpooltbl
  case read => exact hsame h (read_same ..).toSameButUser
  case write => exact hsame h (write_same ..).toSameButUser
  case kmalloc =>
    have htable := libkmemMalloc_tables host c (uint32 ins.arg0) (uint32 ins.arg1)
    rw [Option.some.inj h] at htable
    rw [htable]
  case kmemCacheAlloc => exact libkmemCacheAlloc_table h
  case copyFromUser => exact hsame h (libkmemCopy_same ..).toSameButUser
  case copyToUser => exact hsame h (libkmemCopy_same ..).toSameButUser
  case syscall => exact hsame h (syscall_same ..)

end Table

/-! ## Runs -/

section Runs

variable {host : Host} {s₀ s : System} {log : List Inst}

/-- After a run from a fresh kernel, the table is there if and only if some instruction has created it. -/
theorem InstRun.table_iff (hmm : s₀.krnl.mm = initMm) (h : InstRun host s₀ log s) :
    s.krnl.mm.kcpooltbl.isSome ↔ ∃ ins ∈ log, ins.CreatesPoolTable := by
  induction h with
  | start =>
      rw [hmm]
      simp [initMm]
  | @step log s s' _ pid ins st hfetch hrun ih =>
      obtain ⟨c, c', hc, hexec, rfl⟩ := System.run_eq_some hrun
      rw [System.fetch_of_caller hc] at hfetch
      rw [Ossim.run, hfetch] at hexec
      have htable := execInst_table hexec
      rw [(System.caller_eq_some hc).2] at ih
      change c'.krnl.mm.kcpooltbl.isSome ↔ _
      rw [htable, List.exists_mem_cons_iff]
      change c.krnl.mm.kcpooltbl.isSome ∨ _ ↔ _
      rw [ih, or_comm]

/-- **Reporting.** In every state reached, `libkmem_cache_alloc` reports what it did exactly if the pool
    number is out of range, or the table has been created and there is no slot to carve. -/
theorem cacheAlloc_reports_iff (hmm : s₀.krnl.mm = initMm) (h : InstRun host s₀ log s) {pid : ℕ}
    {c : Caller} (hc : s.caller pid = some c) (id regIndex : ℕ) :
    ReportsCarving c id regIndex ↔ pagingMaxKcachePools ≤ id ∨
      (∃ ins ∈ log, ins.CreatesPoolTable) ∧
        ((c.krnl.pool id).Exhausted ∨ pagingMaxSymtblSz ≤ regIndex) := by
  rw [reportsCarving_iff, ← h.table_iff hmm, (System.caller_eq_some hc).2]

end Runs

/-! ## A run -/

/-- Two processes that create a pool of three slots. -/
def poolSystem : System := twoProcs 2 1 fun _ => [⟨.kmemCacheCreate, 300, 100, 0, 0⟩]

theorem poolSystem_run : InstRun generousHost poolSystem [⟨.kmemCacheCreate, 300, 100, 0, 0⟩]
    (poolSystem.next generousHost 1) := by
  have hfetch : poolSystem.fetch 1 = some ⟨.kmemCacheCreate, 300, 100, 0, 0⟩ := rfl
  have hrun : poolSystem.run generousHost 1 = some (0, poolSystem.next generousHost 1) :=
    System.run_next (by decide +kernel)
  exact .step .start hfetch hrun

/-- A register without a region is refused, and the refusal is reported. -/
theorem cacheAlloc_reports_iff_thirty : ∃ c, (poolSystem.next generousHost 1).caller 1 = some c ∧
    ReportsCarving c 0 30 := by
  have hcaller : ((poolSystem.next generousHost 1).caller 1).isSome := by decide +kernel
  obtain ⟨c, hc⟩ := Option.isSome_iff_exists.1 hcaller
  refine ⟨c, hc, (cacheAlloc_reports_iff rfl poolSystem_run hc 0 30).2 (Or.inr ?_)⟩
  exact ⟨⟨_, List.mem_cons_self .., by decide, by decide⟩, Or.inr (Nat.le_refl 30)⟩

/-- Before the pool is there the table is read through NULL, and afterwards its first slot is reported
    as a failure. -/
theorem not_cacheAlloc_reports_firstSlot :
    (∃ c, poolSystem.caller 1 = some c ∧ ¬ ReportsCarving c 0 1) ∧
    ∃ c, InstRun generousHost poolSystem [⟨.kmemCacheCreate, 300, 100, 0, 0⟩]
        (poolSystem.next generousHost 1) ∧
      (poolSystem.next generousHost 1).caller 1 = some c ∧ ¬ ReportsCarving c 0 1 := by
  constructor
  · refine ⟨_, rfl, fun h => ?_⟩
    rcases (reportsCarving_iff _ 0 1).1 h with hid | ⟨htable, -⟩
    · exact absurd hid (by decide)
    · exact absurd htable (by decide)
  · have hpool : ((poolSystem.next generousHost 1).caller 1).map (fun c =>
        ((c.krnl.pool 0).align, (c.krnl.pool 0).size)) = some (100, 300) := by decide +kernel
    obtain ⟨c, hc, hpool⟩ := Option.map_eq_some_iff.1 hpool
    obtain ⟨halign, hsize⟩ := Prod.mk.inj hpool
    refine ⟨c, poolSystem_run, hc, fun h => ?_⟩
    rcases (reportsCarving_iff c 0 1).1 h with hid | ⟨-, hslot | hreg⟩
    · exact absurd hid (by decide)
    · rw [KcachePool.Exhausted, halign, hsize] at hslot
      exact absurd hslot (by decide)
    · exact absurd hreg (by decide)

end Ossim
