import Ossim.Cpu.Proofs

set_option autoImplicit false

/-! # The tables an instruction indexes

The operands of an instruction are register numbers, region numbers and pool numbers at once. The
tests they pass are those of the region table, which has more entries than there are registers, and
nothing tests whether there is a pool table. An instruction with operands that pass and are out of
range writes past the registers, over the other fields of the process, or reads through NULL. -/

namespace Ossim

/-! ## Indices -/

/-- The use of an index into a table of the process or the kernel. -/
inductive TableUse where
  | regs (ix : ℕ)
  /-- of the process or of the kernel -/
  | symrgtbl (ix : ℕ)
  /-- with the number of entries the pool table has: none before it is created -/
  | kcpooltbl (entries ix : ℕ)

/-- The index is within the array. -/
def TableUse.InRange : TableUse → Prop
  | regs ix => ix < numRegs
  | symrgtbl ix => ix < pagingMaxSymtblSz
  | kcpooltbl entries ix => ix < entries

/-- The entries of the pool table. -/
def Mm.poolEntries (mm : Mm) : ℕ := if mm.kcpooltbl.isSome then pagingMaxKcachePools else 0

/-- `symrgtbl[rgid]` behind the test of the region number. -/
def symrgUses (rgid : ℕ) : List TableUse :=
  if pagingMaxSymtblSz ≤ rgid then [] else [.symrgtbl rgid]

/-- `liballoc`: `__alloc` records the region on every path, and the address goes to the register. -/
def liballocUses (regIndex : ℕ) : List TableUse :=
  if pagingMaxSymtblSz ≤ regIndex then [] else [.symrgtbl regIndex, .regs regIndex]

/-- `libfree`: the register is cleared if the region was allocated. -/
def libfreeUses (mm : Mm) (regIndex : ℕ) : List TableUse :=
  if pagingMaxSymtblSz ≤ regIndex then []
  else if (mm.symrgtbl regIndex).isNull then [.symrgtbl regIndex]
  else [.symrgtbl regIndex, .regs regIndex]

/-- `libkmem_cache_pool_create`, which creates the table before it gets to the entry. -/
def poolCreateUses (size align cachePoolId : ℕ) : List TableUse :=
  if size = 0 ∨ align = 0 ∨ size < align then []
  else if pagingMaxKcachePools ≤ cachePoolId then []
  else [.kcpooltbl pagingMaxKcachePools cachePoolId]

/-- `__kmem_cache_alloc` -/
def cacheAllocUses (krnlMm : Mm) (rgid cachePoolId : ℕ) : List TableUse :=
  if pagingMaxKcachePools ≤ cachePoolId then []
  else .kcpooltbl krnlMm.poolEntries cachePoolId :: symrgUses rgid

/-- The indices an instruction uses. A path of the kernel instructions that ends early uses the first
    of them only. -/
def Inst.tableUses (ins : Inst) (c : Caller) : List TableUse :=
  match ins.opcode with
  | .calc | .kmalloc | .syscall => []
  | .alloc => liballocUses (uint32 ins.arg1)
  | .free => libfreeUses c.mm (uint32 ins.arg0)
  | .read => symrgUses (uint32 ins.arg0)
  | .write => symrgUses (uint32 ins.arg1)
  | .kmemCacheCreate => poolCreateUses (uint32 ins.arg0) (uint32 ins.arg1) (uint32 ins.arg2)
  | .kmemCacheAlloc => cacheAllocUses c.krnl.mm (uint32 ins.arg1) (uint32 ins.arg0)
  | .copyFromUser | .copyToUser => symrgUses (uint32 ins.arg0) ++ symrgUses (uint32 ins.arg1)

/-! ## The condition -/

/-- A number that passes the test of the region table is that of a register. -/
def RegOk (regIndex : ℕ) : Prop := regIndex < numRegs ∨ pagingMaxSymtblSz ≤ regIndex

/-- The operands that pass their tests are in range. -/
def Inst.Inside (ins : Inst) (c : Caller) : Prop :=
  match ins.opcode with
  | .alloc => RegOk (uint32 ins.arg1)
  | .free => RegOk (uint32 ins.arg0) ∨ (c.mm.symrgtbl (uint32 ins.arg0)).isNull = true
  | .kmemCacheAlloc => c.krnl.mm.kcpooltbl.isSome = true ∨ pagingMaxKcachePools ≤ uint32 ins.arg0
  | _ => True

/-- `run` stays inside the tables: it returns, with the program counter moved over the instruction,
    the other fields of the process as they were and all indices in range. -/
structure RunsInside (host : Host) (c : Caller) (ins : Inst) : Prop where
  returns : ∃ st c', run host c = some (st, c') ∧ c'.proc.pc = c.proc.pc + 1 ∧
    c'.proc.code = c.proc.code ∧ c'.proc.prio = c.proc.prio ∧ c'.proc.registered = c.proc.registered
  in_range : ∀ u ∈ ins.tableUses c, u.InRange

/-! ## When an instruction returns -/

section Returns

variable (host : Host) (c : Caller)

theorem setReg_isSome (regIndex v : ℕ) : (c.setReg regIndex v).isSome ↔ regIndex < numRegs := by
  rw [Caller.setReg]
  split <;> simp_all

/-- `__alloc` refuses the region number, or succeeds. -/
theorem alloc_status (rgid size : ℕ) :
    (alloc host c rgid size).1 = if pagingMaxSymtblSz ≤ rgid then -1 else 0 := by
  rw [alloc]
  split
  · rfl
  · split <;> rfl

theorem liballoc_isSome (size regIndex : ℕ) :
    (liballoc host c size regIndex).isSome ↔ RegOk regIndex := by
  have hst := alloc_status host c regIndex size
  rw [liballoc]
  generalize alloc host c regIndex size = r at *
  obtain ⟨st, addr, c'⟩ := r
  unfold RegOk
  by_cases hid : pagingMaxSymtblSz ≤ regIndex
  · rw [if_pos hid] at hst
    obtain rfl : st = -1 := hst
    simp [hid]
  · rw [if_neg hid] at hst
    obtain rfl : st = 0 := hst
    simp [setReg_isSome, hid]

/-- `__free` refuses the region number or a region that is not allocated, or succeeds. -/
theorem free_status (rgid : ℕ) :
    (free c rgid).1 =
      if pagingMaxSymtblSz ≤ rgid ∨ (c.mm.symrgtbl rgid).isNull then -1 else 0 := by
  rw [free]
  by_cases hid : pagingMaxSymtblSz ≤ rgid
  · simp [hid]
  · simp only [hid, if_false, false_or]
    split <;> rfl

theorem libfree_isSome (regIndex : ℕ) :
    (libfree c regIndex).isSome ↔ RegOk regIndex ∨ (c.mm.symrgtbl regIndex).isNull = true := by
  have hst := free_status c regIndex
  rw [libfree]
  generalize free c regIndex = r at *
  obtain ⟨st, c'⟩ := r
  unfold RegOk
  by_cases hid : pagingMaxSymtblSz ≤ regIndex ∨ (c.mm.symrgtbl regIndex).isNull
  · rw [if_pos hid] at hst
    obtain rfl : st = -1 := hst
    have hok : (regIndex < numRegs ∨ pagingMaxSymtblSz ≤ regIndex) ∨
        (c.mm.symrgtbl regIndex).isNull = true := by tauto
    simp [hok]
  · rw [if_neg hid] at hst
    obtain rfl : st = 0 := hst
    simp only [Option.isSome_map, setReg_isSome]
    tauto

theorem libkmemCacheAlloc_isSome (cachePoolId regIndex : ℕ) :
    (libkmemCacheAlloc c cachePoolId regIndex).isSome ↔
      c.krnl.mm.kcpooltbl.isSome = true ∨ pagingMaxKcachePools ≤ cachePoolId := by
  rw [libkmemCacheAlloc, Option.isSome_map, kmemCacheAlloc]
  by_cases hid : pagingMaxKcachePools ≤ cachePoolId
  · simp [hid]
  · cases hpool : c.krnl.mm.kcpooltbl with
    | none => simp [hid]
    | some tbl =>
        simp only [hid, if_false]
        split_ifs <;> simp

/-- An instruction returns if and only if its operands that pass are in range. -/
theorem execInst_isSome (ins : Inst) : (execInst host c ins).isSome ↔ ins.Inside c := by
  unfold execInst Inst.Inside
  cases ins.opcode with
  | alloc => exact liballoc_isSome ..
  | free => exact libfree_isSome ..
  | kmemCacheAlloc => exact libkmemCacheAlloc_isSome ..
  | _ => simp

end Returns

/-! ## Indices in range -/

section InRange

variable {c : Caller}

theorem symrgUses_inRange (rgid : ℕ) : ∀ u ∈ symrgUses rgid, u.InRange := by
  rw [symrgUses]
  split
  · simp
  · next hid => exact List.forall_mem_singleton.2 (Nat.lt_of_not_le hid)

/-- The numbers that pass the test of the region table. -/
theorem regUses_inRange {regIndex : ℕ} (hid : ¬ pagingMaxSymtblSz ≤ regIndex)
    (hok : RegOk regIndex) : ∀ u ∈ [.symrgtbl regIndex, .regs regIndex], TableUse.InRange u := by
  refine List.forall_mem_cons.2 ⟨Nat.lt_of_not_le hid, ?_⟩
  exact List.forall_mem_singleton.2 (hok.resolve_right hid)

theorem Inst.tableUses_inRange {ins : Inst} (h : ins.Inside c) : ∀ u ∈ ins.tableUses c, u.InRange := by
  unfold Inst.tableUses
  unfold Inst.Inside at h
  cases hop : ins.opcode with
  | alloc =>
      rw [hop] at h
      simp only [liballocUses]
      split
      · simp
      · next hid => exact regUses_inRange hid h
  | free =>
      rw [hop] at h
      simp only [libfreeUses]
      split
      · simp
      · next hid =>
          split
          · exact List.forall_mem_singleton.2 (Nat.lt_of_not_le hid)
          · next hnull => exact regUses_inRange hid (h.resolve_right hnull)
  | read | write => exact symrgUses_inRange _
  | kmemCacheCreate =>
      simp only [poolCreateUses]
      split_ifs with _ hid
      · simp
      · simp
      · exact List.forall_mem_singleton.2 (Nat.lt_of_not_le hid)
  | kmemCacheAlloc =>
      rw [hop] at h
      simp only [cacheAllocUses]
      split
      · simp
      · next hid =>
          refine List.forall_mem_cons.2 ⟨?_, symrgUses_inRange _⟩
          show uint32 ins.arg0 < c.krnl.mm.poolEntries
          rw [Mm.poolEntries, if_pos (h.resolve_right hid)]
          exact Nat.lt_of_not_le hid
  | copyFromUser | copyToUser =>
      intro u hu
      rcases List.mem_append.1 hu with hu | hu
      · exact symrgUses_inRange _ u hu
      · exact symrgUses_inRange _ u hu
  | _ => simp

end InRange

/-- **When an instruction stays inside the tables.** For every state of the process and the kernel and
    all operands: `run` moves the program counter over the instruction, leaves the other fields of
    the process and uses indices in range, if and only if the register number of an ALLOC, or of a
    FREE of an allocated region, is below 10 or refused, and a pool number of a KMEM_CACHE_ALLOC is
    refused unless there is a pool table. -/
theorem runs_inside_iff {host : Host} {c : Caller} {ins : Inst}
    (hins : c.proc.code[c.proc.pc]? = some ins) : RunsInside host c ins ↔ ins.Inside c := by
  have hinside : ins.Inside c.incPc ↔ ins.Inside c := Iff.rfl
  have hrun : run host c = execInst host c.incPc ins := by
    rw [run]
    simp only [hins]
  constructor
  · intro h
    obtain ⟨st, c', hsome, -⟩ := h.returns
    rw [hrun] at hsome
    refine hinside.1 ((execInst_isSome host c.incPc ins).1 ?_)
    rw [hsome]
    rfl
  · intro h
    refine ⟨?_, Inst.tableUses_inRange h⟩
    obtain ⟨⟨st, c'⟩, hsome⟩ :=
      Option.isSome_iff_exists.1 ((execInst_isSome host c.incPc ins).2 (hinside.2 h))
    have hframe := execInst_proc hsome
    refine ⟨st, c', hrun.trans hsome, ?_⟩
    rw [hframe]
    exact ⟨rfl, rfl, rfl, rfl⟩

/-- A process at the start of its code, on a kernel without frames. -/
def startOf (code : List Inst) : Caller where
  proc := ⟨code, fun _ => 0, 0, 0, initMm, true⟩
  krnl := ⟨zeroMemphy, zeroMemphy, initMm⟩

/-- ALLOC 300 9 -/
theorem runs_inside_iff_alloc :
    let ins : Inst := ⟨.alloc, 300, 9, 0, 0⟩
    ins.Inside (startOf [ins]) ∧ RunsInside generousHost (startOf [ins]) ins := by
  intro ins
  have hinside : ins.Inside (startOf [ins]) := Or.inl (by decide)
  exact ⟨hinside, (runs_inside_iff rfl).2 hinside⟩

/-- ALLOC 300 10: the number passes the test of the region table, and there is no such register. -/
theorem not_runs_inside_alloc :
    let ins : Inst := ⟨.alloc, 300, 10, 0, 0⟩
    (startOf [ins]).proc.code[(startOf [ins]).proc.pc]? = some ins ∧
    .regs 10 ∈ ins.tableUses (startOf [ins]) ∧ ¬ RunsInside generousHost (startOf [ins]) ins := by
  intro ins
  have hmem : .regs 10 ∈ ins.tableUses (startOf [ins]) := List.mem_cons_of_mem _ List.mem_cons_self
  refine ⟨rfl, hmem, fun h => ?_⟩
  exact absurd (h.in_range _ hmem) (by simp [TableUse.InRange, numRegs])

end Ossim
