import Ossim.Os.Quantum
import Ossim.Os.Stuck
import Ossim.Sched.Waiting

set_option autoImplicit false

/-! # The scheduler in the simulator

What the threads of the simulator do to the scheduler is a sequence of calls, so what holds of every
sequence of calls holds in every run. In particular no process starves: every CPU in its loop calls
`get_proc` at least once in `time_slot` time slots, so the bound on the calls of `get_proc` a process
waits for is a bound on the time. -/

namespace Ossim

/-! ## The programs of the processes -/

/-- A process has the code and the priority of its line of the configuration. -/
def Os.FromConfig (cfg : Config) (s : Os) : Prop :=
  ∀ p proc, s.sys.procs p = some proc → ∃ prog, cfg.programs[p - 1]? = some prog ∧
    proc.code = prog.code ∧ proc.prio = prog.prio

section Programs

variable {host : Host} {cfg : Config} {s s' : Os} {trace : List (ℕ × ℕ)}

theorem Os.FromConfig.move (h : s.FromConfig cfg) {a : Actor} (hmove : s.Move host cfg a s') :
    s'.FromConfig cfg := by
  cases hmove with
  | run hi hloc hproc hrun =>
      obtain ⟨proc, proc', hknown, hupd, hcode, hprio, -⟩ := System.run_procs hrun
      intro q pcb hq
      simp only [Os.setCpu] at hq
      rw [hupd, Function.update_apply] at hq
      split at hq
      · next hqp =>
          subst hqp
          cases hq
          obtain ⟨prog, hprog, hcode', hprio'⟩ := h q proc hknown
          exact ⟨prog, hprog, hcode.trans hcode', hprio.trans hprio'⟩
      · exact h q pcb hq
  | @ldAdd prog hloc hprog =>
      intro q pcb hq
      rcases procs_add_cases hq with ⟨rfl, rfl⟩ | hq
      · exact ⟨prog, hprog, rfl, rfl⟩
      · exact h q pcb hq
  | first | finish | put | keep | refetch | stop | idle | dispatch | enter | leave | detach
  | ldNext | ldDone | ldWait | ldReady | ldEnter | ldLeave | ldDetach | timer => exact h

theorem OsRun.fromConfig (h : OsRun host cfg trace s) : s.FromConfig cfg := by
  induction h with
  | boot => exact fun _ _ hp => absurd hp (by simp [Os.boot])
  | step _ a hstep ih => exact ih.move (Os.move_of_step hstep)

end Programs

/-- There is a queue for every priority of the configuration. -/
def Config.PriosOk (cfg : Config) : Prop := ∀ prog ∈ cfg.programs, prog.prio < maxPrio

/-! ## The calls -/

/-- The calls into the scheduler in a step. -/
def Os.schedCalls (cfg : Config) (s : Os) : Actor → List (SchedCall ℕ)
  | .cpu i =>
    match (s.cpus i).loc, (s.cpus i).proc with
    | .top, none => [.get]
    | .top, some p =>
      if s.isFinished p then [.get]
      else if (s.cpus i).timeLeft = 0 then [.put p (s.prio p)]
      else []
    | .refetch, _ => [.get]
    | _, _ => []
  | .ld =>
    match s.ldLoc, cfg.programs[s.loaded]? with
    | .add, some prog => [.add (s.loaded + 1) prog.prio]
    | _, _ => []
  | .timer => []

section Calls

variable {host : Host} {cfg : Config} {s s' : Os} {trace : List (ℕ × ℕ)}

/-- The scheduler after a step is the one after its calls. -/
theorem Os.sched_move {a : Actor} (hmove : s.Move host cfg a s') :
    s'.sched = s.sched.calls (s.schedCalls cfg a) := by
  cases hmove with
  | first hi hloc hproc | finish hi hloc hproc hfin | put hi hloc hproc hfin htime
  | keep hi hloc hproc hfin htime => simp_all [Os.schedCalls, Sched.calls, Os.getProc, Os.setCpu, Sched.call]
  | refetch hi hloc | stop hi hloc | idle hi hloc | dispatch hi hloc | run hi hloc | enter hi hloc
  | leave hi hloc | detach hi hloc =>
      simp_all [Os.schedCalls, Sched.calls, Os.getProc, Os.setCpu, Sched.call]
  | ldNext hloc | ldDone hloc | ldWait hloc | ldReady hloc | ldAdd hloc hprog | ldEnter hloc
  | ldLeave hloc | ldDetach hloc => simp_all [Os.schedCalls, Sched.calls, Sched.call]
  | timer => rfl

/-- The calls are for queues that exist. -/
theorem OsRun.schedCalls_legal (h : OsRun host cfg trace s) (hprios : cfg.PriosOk) (a : Actor) :
    ∀ c ∈ s.schedCalls cfg a, c.Legal := by
  intro c hc
  cases a with
  | cpu i =>
      simp only [Os.schedCalls] at hc
      split at hc
      · obtain rfl := List.mem_singleton.1 hc
        trivial
      · next p hloc hproc =>
          split at hc
          · obtain rfl := List.mem_singleton.1 hc
            trivial
          · split at hc
            · obtain rfl := List.mem_singleton.1 hc
              obtain ⟨proc, hknown⟩ := h.holdersInv.hand_known i p hproc
              obtain ⟨prog, hprog, -, hprio⟩ := h.fromConfig p proc hknown
              change s.prio p < maxPrio
              rw [Os.prio_eq hknown, hprio]
              exact hprios prog (List.mem_of_getElem? hprog)
            · exact absurd hc List.not_mem_nil
      · obtain rfl := List.mem_singleton.1 hc
        trivial
      · exact absurd hc List.not_mem_nil
  | ld =>
      simp only [Os.schedCalls] at hc
      split at hc
      · next prog _ hprog =>
          obtain rfl := List.mem_singleton.1 hc
          exact hprios prog (List.mem_of_getElem? hprog)
      · exact absurd hc List.not_mem_nil
  | timer => exact absurd hc List.not_mem_nil

/-- **Refinement.** Every run of the simulator is a sequence of calls for its scheduler. -/
theorem OsRun.schedRun (h : OsRun host cfg trace s) (hprios : cfg.PriosOk) :
    ∃ log, SchedRun log s.sched := by
  induction h with
  | boot => exact ⟨[], .init⟩
  | step h a hstep ih =>
      obtain ⟨log, hlog⟩ := ih
      rw [Os.sched_move (Os.move_of_step hstep)]
      exact ⟨_, hlog.calls (h.schedCalls_legal hprios a)⟩

end Calls

/-! ## Continuations -/

/-- Steps from `s` on during which process `p` is in nobody's hands, with their calls into the
    scheduler. -/
inductive WaitRun (host : Host) (cfg : Config) (p : ℕ) (s : Os) : List (SchedCall ℕ) → Os → Prop where
  | start : WaitRun host cfg p s [] s
  | step {cs : List (SchedCall ℕ)} {t t' : Os} (h : WaitRun host cfg p s cs t) (a : Actor)
      (hstep : t.step host cfg a = some t') (hands : ∀ j < cfg.numCpus, (t'.cpus j).proc ≠ some p) :
      WaitRun host cfg p s (cs ++ t.schedCalls cfg a) t'

section Continuations

variable {host : Host} {cfg : Config} {s t t' : Os} {trace : List (ℕ × ℕ)} {p : ℕ}
  {cs : List (SchedCall ℕ)}

theorem OsRun.continue (h : OsRun host cfg trace s) (hw : WaitRun host cfg p s cs t) :
    ∃ trace', OsRun host cfg trace' t := by
  induction hw with
  | start => exact ⟨trace, h⟩
  | step _ a hstep _ ih =>
      obtain ⟨trace', hrun⟩ := ih
      exact ⟨_, hrun.step a hstep⟩

theorem Sched.history_append (sched : Sched ℕ) (cs ds : List (SchedCall ℕ)) :
    sched.history (cs ++ ds) = sched.history cs ++ (sched.calls cs).history ds := by
  induction cs generalizing sched with
  | nil => rfl
  | cons c cs ih =>
      rw [List.cons_append, Sched.history, Sched.history, ih, List.append_assoc]
      rfl

theorem WaitRun.sched_eq (h : WaitRun host cfg p s cs t) : t.sched = s.sched.calls cs := by
  induction h with
  | start => rfl
  | step _ a hstep _ ih =>
      rw [Os.sched_move (Os.move_of_step hstep), ih]
      exact (List.foldl_append ..).symm

/-- Who leaves a queue in a step is in the hands of a CPU then. -/
theorem Os.hand_of_leavers {a : Actor} (hmove : t.Move host cfg a t') {prio : ℕ}
    (hp : p ∈ leavers prio (t.sched.history (t.schedCalls cfg a))) :
    ∃ j < cfg.numCpus, (t'.cpus j).proc = some p := by
  have hget : ∀ {i : ℕ} {cpu : Cpu}, p ∈ leavers prio (t.sched.history [.get]) →
      ((t.getProc i cpu).cpus i).proc = some p := by
    intro i cpu hmem
    rw [Sched.history, Sched.history, List.append_nil] at hmem
    have hself : ((t.getProc i cpu).cpus i).proc = t.sched.getMlqProc.1 := by
      rw [Os.getProc, Os.setCpu_self]
    rw [hself]
    rcases t.sched.getMlqProc_spec with ⟨q, x, rest, hserves⟩ | hnone
    · rw [Sched.events_get_of_serves hserves] at hmem
      simp only [leavers, List.filterMap_cons, SchedEvent.leaving] at hmem
      split at hmem <;> simp_all [hserves.fst_eq]
    · rw [Sched.events_get_of_servesNone hnone] at hmem
      split at hmem <;> simp [leavers, SchedEvent.leaving] at hmem
  cases hmove with
  | @first i hi hloc hproc => exact ⟨i, hi, hget (by simpa [Os.schedCalls, hloc, hproc] using hp)⟩
  | @finish i q hi hloc hproc hfin =>
      exact ⟨i, hi, hget (by simpa [Os.schedCalls, hloc, hproc, hfin] using hp)⟩
  | @refetch i hi hloc => exact ⟨i, hi, hget (by simpa [Os.schedCalls, hloc] using hp)⟩
  | put hi hloc hproc hfin htime =>
      simp only [Os.schedCalls, hloc, hproc, hfin, htime, Bool.false_eq_true, if_false, if_true,
        Sched.history, Sched.events, leavers] at hp
      split at hp <;> simp [SchedEvent.leaving] at hp
  | keep hi hloc hproc hfin htime =>
      simp [Os.schedCalls, hloc, hproc, hfin, htime, Sched.history, leavers] at hp
  | stop hi hloc | idle hi hloc | dispatch hi hloc | run hi hloc | enter hi hloc | leave hi hloc
  | detach hi hloc => simp [Os.schedCalls, hloc, Sched.history, leavers] at hp
  | ldAdd hloc hprog =>
      simp only [Os.schedCalls, hloc, hprog, Sched.history, Sched.events, leavers] at hp
      split at hp <;> simp [SchedEvent.leaving] at hp
  | ldNext hloc | ldDone hloc | ldWait hloc | ldReady hloc | ldEnter hloc | ldLeave hloc
  | ldDetach hloc => simp [Os.schedCalls, hloc, Sched.history, leavers] at hp
  | timer => simp [Os.schedCalls, Sched.history, leavers] at hp

/-- While a process is in nobody's hands it leaves no queue. -/
theorem WaitRun.notMem_leavers (h : WaitRun host cfg p s cs t) (prio : ℕ) :
    p ∉ leavers prio (s.sched.history cs) := by
  induction h with
  | start => exact List.not_mem_nil
  | @step cs t t' hw a hstep hands ih =>
      intro hmem
      rw [Sched.history_append, leavers, List.filterMap_append] at hmem
      rcases List.mem_append.1 hmem with hmem | hmem
      · exact ih hmem
      · rw [← hw.sched_eq] at hmem
        obtain ⟨j, hj, hhand⟩ := Os.hand_of_leavers (Os.move_of_step hstep) hmem
        exact hands j hj hhand

/-- A process that keeps waiting bounds the calls of `get_proc`. -/
theorem WaitRun.gets_lt (h : WaitRun host cfg p s cs t) {prio : ℕ} (hprio : prio < maxPrio)
    {ahead behind : List ℕ} (hwait : s.sched.waiting prio = ahead ++ p :: behind) :
    numGets cs < s.sched.patience prio ahead.length := by
  by_contra hge
  have hserved := Sched.served_of_patience hprio hwait (Nat.le_of_not_lt hge)
  exact h.notMem_leavers prio (hserved.subset (by simp))

end Continuations

end Ossim
