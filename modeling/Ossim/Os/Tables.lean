import Ossim.Os.Lost

set_option autoImplicit false

/-! # Indices into the tables of the kernel

`ld_routine` writes a process into `proc_table` at its number and into the ready queue of its
priority; both are taken as they come. `get_proc_from_PID` reads the table for the system calls of the
process, and its test lets the number `PID_MAX` through. With numbers below `PID_MAX` and priorities
below `MAX_PRIO` at every `add_proc`, all indices are in range from then on. -/

namespace Ossim

/-! ## The table of processes -/

/-- `get_proc_from_PID`, for a table of process numbers. -/
def getProcFromPid (procTable : ℕ → Option ℕ) (pid : ℕ) : Option ℕ :=
  if pidMax < pid then none else procTable pid

/-- The use of an index into one of the tables. -/
inductive IndexUse where
  | mlqReadyQueue (prio : ℕ)
  | slot (prio : ℕ)
  | procTable (pid : ℕ)

/-- The index is within the array. -/
def IndexUse.InRange : IndexUse → Prop
  | mlqReadyQueue prio | slot prio => prio < maxPrio
  | procTable pid => pid < pidMax

/-- The loops of `get_mlq_proc`. -/
def getUses : List IndexUse :=
  (List.range maxPrio).flatMap fun prio => [.mlqReadyQueue prio, .slot prio]

/-- `get_proc_from_PID` -/
def resolveUses (pid : ℕ) : List IndexUse := if pidMax < pid then [] else [.procTable pid]

/-- The indices a step uses: the calls into the scheduler, the registration of a process by the
    loader, and the system calls of an instruction for the process that runs it. -/
def Os.indexUses (cfg : Config) (s : Os) : Actor → List IndexUse
  | .cpu i =>
    match (s.cpus i).loc, (s.cpus i).proc with
    | .top, none => getUses
    | .top, some p =>
      if s.isFinished p then getUses
      else if (s.cpus i).timeLeft = 0 then [.mlqReadyQueue (s.prio p)] else []
    | .refetch, _ => getUses
    | .run, some p => resolveUses p
    | _, _ => []
  | .ld =>
    match s.ldLoc, cfg.programs[s.loaded]? with
    | .add, some prog => [.procTable (s.loaded + 1), .mlqReadyQueue prog.prio]
    | _, _ => []
  | .timer => []

/-- `proc_table` after a step. -/
def Os.register (s : Os) (procTable : ℕ → Option ℕ) : Actor → ℕ → Option ℕ
  | .ld =>
    match s.ldLoc with
    | .add => Function.update procTable (s.loaded + 1) (some (s.loaded + 1))
    | _ => procTable
  | _ => procTable

/-- A run all whose steps meet a condition, with the indices used and the table of processes. -/
inductive TableRun (ok : Os → Actor → Prop) (host : Host) (cfg : Config) :
    List IndexUse → (ℕ → Option ℕ) → Os → Prop where
  | boot : TableRun ok host cfg [] (fun _ => none) (Os.boot cfg)
  | step {uses : List IndexUse} {procTable : ℕ → Option ℕ} {s s' : Os}
      (h : TableRun ok host cfg uses procTable s) (a : Actor) (hok : ok s a)
      (hstep : s.step host cfg a = some s') :
      TableRun ok host cfg (s.indexUses cfg a ++ uses) (s.register procTable a) s'

/-- All indices used are in range, and every process loaded is found under its number. -/
structure Os.TablesOk (uses : List IndexUse) (procTable : ℕ → Option ℕ) (s : Os) : Prop where
  in_range : ∀ u ∈ uses, u.InRange
  resolves : ∀ p proc, s.sys.procs p = some proc → getProcFromPid procTable p = some p

/-- Where the step is an `add_proc`, there is a queue for the process and a slot in the table. -/
def Os.AddOk (cfg : Config) (s : Os) : Actor → Prop
  | .ld => s.ldLoc = .add → ∀ prog ∈ cfg.programs[s.loaded]?,
      prog.prio < maxPrio ∧ s.loaded + 1 < pidMax
  | _ => True

/-! ## The invariant -/

/-- Numbers and priorities are within the tables. -/
structure TableInv (uses : List IndexUse) (procTable : ℕ → Option ℕ) (s : Os) : Prop where
  tables : s.TablesOk uses procTable
  loaded_lt : s.loaded < pidMax
  prio_lt : ∀ p proc, s.sys.procs p = some proc → proc.prio < maxPrio

section Invariant

variable {host : Host} {cfg : Config} {s s' : Os} {uses : List IndexUse} {procTable : ℕ → Option ℕ}

theorem TableInv.boot (cfg : Config) : TableInv [] (fun _ => none) (Os.boot cfg) where
  tables := ⟨by simp, fun _ _ h => absurd h (by simp [Os.boot])⟩
  loaded_lt := Nat.zero_lt_succ _
  prio_lt := fun _ _ h => absurd h (by simp [Os.boot])

theorem getUses_inRange : ∀ u ∈ getUses, u.InRange := by
  intro u hu
  obtain ⟨prio, hprio, hmem⟩ := List.mem_flatMap.1 hu
  have hlt := List.mem_range.1 hprio
  rcases List.mem_cons.1 hmem with rfl | hmem
  · exact hlt
  · rw [List.mem_singleton.1 hmem]
    exact hlt

theorem TableInv.uses_inRange (h : TableInv uses procTable s) (hh : HoldersInv s) {a : Actor}
    (hok : s.AddOk cfg a) : ∀ u ∈ s.indexUses cfg a, u.InRange := by
  cases a with
  | cpu i =>
      simp only [Os.indexUses]
      split
      · exact getUses_inRange
      · next p _ hproc =>
          split
          · exact getUses_inRange
          · split
            · -- `put_proc` uses the priority the process was added with
              obtain ⟨proc, hknown⟩ := hh.hand_known i p hproc
              refine List.forall_mem_singleton.2 ?_
              rw [Os.prio_eq hknown]
              exact h.prio_lt p proc hknown
            · simp
      · exact getUses_inRange
      · next p _ hproc =>
          obtain ⟨proc, hknown⟩ := hh.hand_known i p hproc
          rw [resolveUses]
          split
          · simp
          · exact List.forall_mem_singleton.2 (Nat.lt_of_le_of_lt (hh.procs_le p proc hknown) h.loaded_lt)
      · simp
  | ld =>
      simp only [Os.indexUses]
      split
      · next prog hloc hprog =>
          obtain ⟨hprio, hpid⟩ := hok hloc prog hprog
          exact List.forall_mem_cons.2 ⟨hpid, List.forall_mem_singleton.2 hprio⟩
      · simp
  | timer => simp [Os.indexUses]

/-- **Step.** -/
theorem TableInv.move (h : TableInv uses procTable s) (hh : HoldersInv s) {a : Actor}
    (hok : s.AddOk cfg a) (hmove : s.Move host cfg a s') :
    TableInv (s.indexUses cfg a ++ uses) (s.register procTable a) s' := by
  have huses : ∀ u ∈ s.indexUses cfg a ++ uses, u.InRange := fun u hu =>
    (List.mem_append.1 hu).elim (h.uses_inRange hh hok u) (h.tables.in_range u)
  cases hmove with
  | @ldAdd prog hloc hprog =>
      obtain ⟨hprio, hpid⟩ := hok hloc prog hprog
      refine ⟨⟨huses, fun p proc hproc => ?_⟩, hpid, fun p proc hproc => ?_⟩
      · -- the new process is entered under its own number, and no other entry changes
        simp only [Os.register, hloc]
        rcases procs_add_cases hproc with ⟨rfl, -⟩ | hproc
        · rw [getProcFromPid, if_neg (by omega), Function.update_self]
        · have hne : p ≠ s.loaded + 1 := by
            rintro rfl
            exact hh.procs_next hproc
          rw [getProcFromPid, Function.update_of_ne hne]
          exact h.tables.resolves p proc hproc
      · rcases procs_add_cases hproc with ⟨-, rfl⟩ | hproc
        · exact hprio
        · exact h.prio_lt p proc hproc
  | @run i p st sys hi hloc hproc hrun =>
      refine ⟨⟨huses, fun q r hr => ?_⟩, h.loaded_lt, fun q r hr => ?_⟩
      · obtain ⟨r', hr', -⟩ := System.run_prio hrun hr
        exact h.tables.resolves q r' hr'
      · obtain ⟨r', hr', hpr⟩ := System.run_prio hrun hr
        exact hpr ▸ h.prio_lt q r' hr'
  | ldNext hloc | ldDone hloc | ldWait hloc | ldReady hloc | ldEnter hloc | ldLeave hloc
  | ldDetach hloc =>
      refine ⟨⟨huses, ?_⟩, h.loaded_lt, h.prio_lt⟩
      simp only [Os.register, hloc]
      exact h.tables.resolves
  | first | finish | put | keep | refetch | stop | idle | dispatch | enter | leave | detach
  | timer => exact ⟨⟨huses, h.tables.resolves⟩, h.loaded_lt, h.prio_lt⟩

/-- An `add_proc` without a queue or without a slot uses an index out of range. -/
theorem Os.not_tablesOk_of_step {a : Actor} (hnot : ¬ s.AddOk cfg a) :
    ¬ ∀ u ∈ s.indexUses cfg a, u.InRange := by
  cases a with
  | ld =>
      simp only [Os.AddOk, not_forall] at hnot
      obtain ⟨hloc, prog, hprog, hbad⟩ := hnot
      intro hrange
      have hprog : cfg.programs[s.loaded]? = some prog := hprog
      simp only [Os.indexUses, hloc, hprog] at hrange
      obtain ⟨hpid, hrest⟩ := List.forall_mem_cons.1 hrange
      exact hbad ⟨hrest _ List.mem_cons_self, hpid⟩
  | cpu i => exact absurd trivial hnot
  | timer => exact absurd trivial hnot

end Invariant

/-! ## Runs -/

section Runs

variable {ok : Os → Actor → Prop} {host : Host} {cfg : Config} {s : Os} {uses : List IndexUse}
  {procTable : ℕ → Option ℕ} {trace : List (ℕ × ℕ)}

theorem TableRun.osRun (h : TableRun ok host cfg uses procTable s) :
    ∃ trace, OsRun host cfg trace s := by
  induction h with
  | boot => exact ⟨[], .boot⟩
  | step _ a _ hstep ih =>
      obtain ⟨trace, hrun⟩ := ih
      exact ⟨_, hrun.step a hstep⟩

theorem OsRun.tableRun (h : OsRun host cfg trace s) :
    ∃ uses procTable, TableRun (fun _ _ => True) host cfg uses procTable s := by
  induction h with
  | boot => exact ⟨_, _, .boot⟩
  | step _ a hstep ih =>
      obtain ⟨uses, procTable, hrun⟩ := ih
      exact ⟨_, _, hrun.step a trivial hstep⟩

/-- **Run.** -/
theorem TableRun.tableInv (h : TableRun (Os.AddOk cfg) host cfg uses procTable s) :
    TableInv uses procTable s := by
  induction h with
  | boot => exact .boot cfg
  | step h a hok hstep ih =>
      obtain ⟨trace, hrun⟩ := h.osRun
      exact ih.move hrun.holdersInv hok (Os.move_of_step hstep)

/-- **When the indices are in range.** For any configuration: as long as every process is loaded with
    a priority below `MAX_PRIO` and a number below `PID_MAX`, all indices into the ready queues, the
    budgets and the table of processes are in range, and `get_proc_from_PID` finds every process
    loaded. The first process loaded otherwise brings an index out of range. So the indices are in
    range in all runs if and only if no run loads such a process. -/
theorem tables_ok_iff :
    (∀ uses procTable s, TableRun (Os.AddOk cfg) host cfg uses procTable s →
      s.TablesOk uses procTable ∧ ∀ a s', s.step host cfg a = some s' →
        (s'.TablesOk (s.indexUses cfg a ++ uses) (s.register procTable a) ↔ s.AddOk cfg a)) ∧
    ((∀ uses procTable s, TableRun (fun _ _ => True) host cfg uses procTable s →
        s.TablesOk uses procTable) ↔
      ∀ trace s a s', OsRun host cfg trace s → s.step host cfg a = some s' → s.AddOk cfg a) := by
  refine ⟨fun uses procTable s h => ⟨h.tableInv.tables, fun a s' hstep => ?_⟩, ?_, ?_⟩
  · refine ⟨fun htables => ?_, fun hok => (h.step a hok hstep).tableInv.tables⟩
    by_contra hnot
    exact Os.not_tablesOk_of_step hnot fun u hu => htables.in_range u (List.mem_append_left _ hu)
  · intro hall trace s a s' h hstep
    by_contra hnot
    obtain ⟨uses, procTable, hrun⟩ := h.tableRun
    have htables := hall _ _ s' (hrun.step a trivial hstep)
    exact Os.not_tablesOk_of_step hnot fun u hu => htables.in_range u (List.mem_append_left _ hu)
  · intro hok uses procTable s h
    have hrun : TableRun (Os.AddOk cfg) host cfg uses procTable s := by
      induction h with
      | boot => exact .boot
      | step h a _ hstep ih =>
          obtain ⟨trace, hrun⟩ := h.osRun
          exact ih.step a (hok _ _ a _ hrun hstep) hstep
    exact hrun.tableInv.tables

end Runs

/-- A process of priority 140. -/
def prio140 : Config := { oneCpu [] with programs := [⟨[⟨.calc, 0, 0, 0, 0⟩], 140, 0, fun _ => 0⟩] }

/-- The loader enqueues it past the end of the ready queues. -/
theorem not_tables_ok_prio140 :
    ∃ uses procTable s, TableRun (fun _ _ => True) generousHost prio140 uses procTable s ∧
      .mlqReadyQueue 140 ∈ uses ∧ ¬ s.TablesOk uses procTable := by
  let s := (Os.after generousHost prio140 [.ld, .ld]).2
  have hrun : OsRun generousHost prio140 _ s := OsRun.after (by decide +kernel)
  obtain ⟨uses, procTable, htable⟩ := hrun.tableRun
  obtain ⟨s', hs'⟩ : ∃ s', s.step generousHost prio140 .ld = some s' :=
    Option.isSome_iff_exists.1 (by decide +kernel)
  have huses : s.indexUses prio140 .ld = [.procTable 1, .mlqReadyQueue 140] := rfl
  have hmem : .mlqReadyQueue 140 ∈ s.indexUses prio140 .ld ++ uses := by simp [huses]
  refine ⟨_, _, s', htable.step .ld trivial hs', hmem, fun htables => ?_⟩
  exact absurd (htables.in_range _ hmem) (by simp [IndexUse.InRange, maxPrio])

end Ossim
