import Ossim.Os.Holders

set_option autoImplicit false

/-! # The list of running processes

`get_proc` puts a process on `running_list` and `put_proc` takes it off. A CPU that drops a finished
process takes nothing off, so the list is exact as long as no CPU does. -/

namespace Ossim

/-- The list of running processes has exactly those in the hands of the CPUs, each once. -/
structure Os.RunningExact (cfg : Config) (s : Os) : Prop where
  nodup : s.sched.runningList.proc.Nodup
  mem_iff : ∀ p, p ∈ s.sched.runningList.proc ↔ ∃ i < cfg.numCpus, (s.cpus i).proc = some p

/-- The step is not the one of a CPU at the top of its loop with a finished process. -/
def Os.NotFinishing (s : Os) : Actor → Prop
  | .cpu i => (s.cpus i).loc = .top → ∀ p ∈ (s.cpus i).proc, s.isFinished p = false
  | _ => True

instance (s : Os) (a : Actor) : Decidable (s.NotFinishing a) :=
  match a with
  | .cpu i =>
    inferInstanceAs (Decidable ((s.cpus i).loc = .top → ∀ p ∈ (s.cpus i).proc, s.isFinished p = false))
  | .ld | .timer => .isTrue trivial

section Invariant

variable {host : Host} {cfg : Config} {s s' : Os}

theorem Os.RunningExact.boot (cfg : Config) : (Os.boot cfg).RunningExact cfg where
  nodup := List.nodup_nil
  mem_iff := fun p => by simp [Os.boot, Sched.init, Queue.nil]

theorem Os.RunningExact.congr (h : s.RunningExact cfg)
    (hr : s'.sched.runningList = s.sched.runningList)
    (hh : ∀ i, (s'.cpus i).proc = (s.cpus i).proc) : s'.RunningExact cfg := by
  obtain ⟨h1, h2⟩ := h
  refine ⟨?_, ?_⟩ <;> simp only [hr, hh] <;> assumption

theorem Os.RunningExact.length_lt (h : s.RunningExact cfg) (hcpus : cfg.numCpus ≤ maxQueueSize)
    {i : ℕ} (hi : i < cfg.numCpus) (hnone : (s.cpus i).proc = none) :
    s.sched.runningList.proc.length < maxQueueSize := by
  have hsub : s.sched.runningList.proc ⊆
      ((List.range cfg.numCpus).erase i).filterMap fun j => (s.cpus j).proc := by
    intro p hp
    obtain ⟨j, hj, hhand⟩ := (h.mem_iff p).1 hp
    have hji : j ≠ i := by
      rintro rfl
      exact absurd (hnone.symm.trans hhand) (by simp)
    exact List.mem_filterMap.2 ⟨j, (List.mem_erase_of_ne hji).2 (List.mem_range.2 hj), hhand⟩
  have hlen := (List.subperm_of_subset h.nodup hsub).length_le
  have hfilter := List.length_filterMap_le (fun j => (s.cpus j).proc)
    ((List.range cfg.numCpus).erase i)
  rw [List.length_erase_of_mem (List.mem_range.2 hi), List.length_range] at hfilter
  omega

theorem Os.RunningExact.getProc (h : s.RunningExact cfg) (hh : HoldersInv s)
    (hcpus : cfg.numCpus ≤ maxQueueSize) {i : ℕ} (hi : i < cfg.numCpus)
    (hnone : (s.cpus i).proc = none) (cpu : Cpu) : (s.getProc i cpu).RunningExact cfg := by
  rcases s.sched.getMlqProc_spec with ⟨prio, p, rest, hserves⟩ | hserves
  · have hmem : p ∈ s.sched.waiting prio := by simp [hserves.waiting_eq]
    have hrun : (s.getProc i cpu).sched.runningList.proc = s.sched.runningList.proc ++ [p] := by
      change s.sched.getMlqProc.2.runningList.proc = _
      rw [hserves.running_get, Sched.enqueue_of_lt p (h.length_lt hcpus hi hnone)]
    -- a process that was waiting was in nobody's hands
    have hnew : p ∉ s.sched.runningList.proc := by
      intro hp
      obtain ⟨j, -, hhand⟩ := (h.mem_iff p).1 hp
      exact hh.hand_waiting j p hhand prio hmem
    refine ⟨?_, fun q => ?_⟩
    · rw [hrun]
      exact List.nodup_append_comm.1 (List.nodup_cons.2 ⟨hnew, h.nodup⟩)
    · rw [hrun, List.mem_append, List.mem_singleton, h.mem_iff q]
      constructor
      · rintro (⟨j, hj, hhand⟩ | rfl)
        · have hji : j ≠ i := by
            rintro rfl
            exact absurd (hnone.symm.trans hhand) (by simp)
          exact ⟨j, hj, by simpa [Os.getProc, Os.setCpu, Function.update_of_ne hji] using hhand⟩
        · exact ⟨i, hi, by simpa [Os.getProc, Os.setCpu] using hserves.fst_eq⟩
      · rintro ⟨j, hj, hhand⟩
        rcases hand_of_setCpu hhand with ⟨-, hq⟩ | ⟨-, hhand⟩
        · exact Or.inr (Option.some.inj (hq.symm.trans hserves.fst_eq))
        · exact Or.inl ⟨j, hj, hhand⟩
  · refine h.congr hserves.running_get fun j => ?_
    by_cases hji : j = i
    · subst hji
      simpa [Os.getProc, Os.setCpu, hnone] using hserves.fst_eq
    · simp [Os.getProc, Os.setCpu, Function.update_of_ne hji]

theorem Os.RunningExact.put (h : s.RunningExact cfg) (hh : HoldersInv s) {i p : ℕ}
    (hproc : (s.cpus i).proc = some p) {cpu : Cpu} (hcpu : cpu.proc = none) :
    ({ s with sched := s.sched.putMlqProc p (s.prio p) }.setCpu i cpu).RunningExact cfg := by
  refine ⟨h.nodup.erase p, fun q => ?_⟩
  change q ∈ s.sched.runningList.proc.erase p ↔ _
  rw [h.nodup.mem_erase_iff, h.mem_iff q]
  constructor
  · rintro ⟨hqp, j, hj, hhand⟩
    have hji : j ≠ i := by
      rintro rfl
      exact hqp (Option.some.inj (hhand.symm.trans hproc))
    exact ⟨j, hj, by simpa [Os.setCpu, Function.update_of_ne hji] using hhand⟩
  · rintro ⟨j, hj, hhand⟩
    rcases hand_of_setCpu hhand with ⟨-, hq⟩ | ⟨hji, hhand⟩
    · exact absurd (hcpu.symm.trans hq) (by simp)
    · refine ⟨?_, j, hj, hhand⟩
      rintro rfl
      exact hji (hh.hand_inj j i q hhand hproc)

/-- A CPU that drops its process leaves it on the list. -/
theorem Os.RunningExact.not_of_finish (h : s.RunningExact cfg) (hh : HoldersInv s) {i p : ℕ}
    (hi : i < cfg.numCpus) (hproc : (s.cpus i).proc = some p) (cpu : Cpu) :
    ¬ (s.getProc i cpu).RunningExact cfg := by
  intro h'
  have hmem : p ∈ (s.getProc i cpu).sched.runningList.proc := by
    have hp := (h.mem_iff p).2 ⟨i, hi, hproc⟩
    change p ∈ s.sched.getMlqProc.2.runningList.proc
    rcases s.sched.getMlqProc_spec with ⟨_, q, _, hserves⟩ | hserves
    · rw [hserves.running_get]
      rcases Sched.enqueue_cases s.sched.runningList q with heq | ⟨-, heq⟩
      · rw [heq]
        exact List.mem_append_left _ hp
      · rwa [heq]
    · rwa [hserves.running_get]
  obtain ⟨j, -, hhand⟩ := (h'.mem_iff p).1 hmem
  rcases hand_of_setCpu hhand with ⟨-, hget⟩ | ⟨hji, hhand⟩
  · -- the process it gets instead was waiting
    rcases s.sched.getMlqProc_spec with ⟨prio, q, rest, hserves⟩ | hserves
    · obtain rfl : q = p := Option.some.inj (hserves.fst_eq.symm.trans hget)
      exact hh.hand_waiting i q hproc prio (by simp [hserves.waiting_eq])
    · exact absurd (hserves.fst_eq.symm.trans hget) (by simp)
  · exact hji (hh.hand_inj j i p hhand hproc)

/-- **Step.** -/
theorem Os.RunningExact.move (h : s.RunningExact cfg) (hh : HoldersInv s)
    (hrefetch : ∀ i, (s.cpus i).loc = .refetch → (s.cpus i).proc = none)
    (hcpus : cfg.numCpus ≤ maxQueueSize) {a : Actor} (hok : s.NotFinishing a)
    (hmove : s.Move host cfg a s') : s'.RunningExact cfg := by
  cases hmove with
  | first hi hloc hproc => exact h.getProc hh hcpus hi hproc _
  | @finish i p hi hloc hproc hfin =>
      rw [hok hloc p hproc] at hfin
      exact absurd hfin (by simp)
  | @refetch i hi hloc => exact h.getProc hh hcpus hi (hrefetch i hloc) _
  | put hi hloc hproc hfin htime => exact h.put hh hproc rfl
  | keep | stop | idle | dispatch | run | enter | leave | detach =>
      exact h.congr rfl (proc_setCpu rfl)
  | ldNext | ldDone | ldWait | ldReady | ldAdd | ldEnter | ldLeave | ldDetach | timer =>
      exact h.congr rfl fun _ => rfl

theorem Os.RunningExact.not_of_step (h : s.RunningExact cfg) (hh : HoldersInv s) {a : Actor}
    (hstep : s.step host cfg a = some s') (hnot : ¬ s.NotFinishing a) : ¬ s'.RunningExact cfg := by
  cases Os.move_of_step hstep with
  | finish hi hloc hproc hfin => exact h.not_of_finish hh hi hproc _
  | first hi hloc hproc =>
      exact absurd (fun _ p hp => absurd (hproc.symm.trans hp) (by simp)) hnot
  | put hi hloc hproc hfin | keep hi hloc hproc hfin =>
      refine absurd (fun _ q hq => ?_) hnot
      rw [← Option.some.inj (hproc.symm.trans hq)]
      exact hfin
  | refetch hi hloc | stop hi hloc | idle hi hloc | dispatch hi hloc | run hi hloc | enter hi hloc
  | leave hi hloc | detach hi hloc =>
      exact absurd (fun htop => absurd (hloc.symm.trans htop) (by simp)) hnot
  | ldNext | ldDone | ldWait | ldReady | ldAdd | ldEnter | ldLeave | ldDetach | timer =>
      exact absurd trivial hnot

end Invariant

/-! ## Runs -/

section Runs

variable {host : Host} {cfg : Config} {s : Os}

/-- **Run.** -/
theorem OsRunIf.runningExact (h : OsRunIf Os.NotFinishing host cfg s)
    (hcpus : cfg.numCpus ≤ maxQueueSize) : s.RunningExact cfg := by
  induction h with
  | boot => exact .boot cfg
  | step h a hok hstep ih =>
      obtain ⟨trace, hrun⟩ := h.osRun
      exact ih.move hrun.holdersInv hrun.refetch_none hcpus hok (Os.move_of_step hstep)

/-- **When `running_list` is exact.** With CPUs that fit on the list: in every run in which no CPU
    drops a finished process, the list has exactly the processes in the hands of the CPUs, in every
    state. The first CPU to drop one leaves it on the list. So the list is exact in all runs if and
    only if none of them gets to the branch for finished processes. -/
theorem running_exact_iff (hcpus : cfg.numCpus ≤ maxQueueSize) :
    (∀ s, OsRunIf Os.NotFinishing host cfg s → s.RunningExact cfg ∧
      ∀ a s', s.step host cfg a = some s' → (s'.RunningExact cfg ↔ s.NotFinishing a)) ∧
    ((∀ trace s, OsRun host cfg trace s → s.RunningExact cfg) ↔
      ∀ trace s a s', OsRun host cfg trace s → s.step host cfg a = some s' → s.NotFinishing a) := by
  refine OsRunIf.holds_iff (fun s h => h.runningExact hcpus) fun s a s' h hstep hnot => ?_
  obtain ⟨trace, hrun⟩ := h.osRun
  exact (h.runningExact hcpus).not_of_step hrun.holdersInv hstep hnot

end Runs

/-- A run without the branch for finished processes: a process is loaded and dispatched. -/
theorem running_exact_iff_firstSlot :
    let cfg := oneCpu [⟨.calc, 0, 0, 0, 0⟩]
    ∃ s, Os.afterIf Os.NotFinishing generousHost cfg firstSlot = some s ∧
      s.sched.runningList.proc = [1] ∧ s.RunningExact cfg := by
  intro cfg
  have hlist : (Os.afterIf Os.NotFinishing generousHost cfg firstSlot).map
      (fun s => s.sched.runningList.proc) = some [1] := by decide +kernel
  obtain ⟨s, hs, hproc⟩ := Option.map_eq_some_iff.1 hlist
  exact ⟨s, hs, hproc, ((running_exact_iff (by decide)).1 s (.after hs)).1⟩

/-- A process of one instruction runs to its end, and the CPU drops it: it stays on the list. -/
theorem not_running_exact_calc :
    let cfg := oneCpu [⟨.calc, 0, 0, 0, 0⟩]
    cfg.numCpus ≤ maxQueueSize ∧
    ∃ trace s, OsRun generousHost cfg trace s ∧ s.isFinished 1 = true ∧
      (∀ i < cfg.numCpus, (s.cpus i).proc = none) ∧ s.sched.runningList.proc = [1] ∧
      ¬ s.RunningExact cfg := by
  intro cfg
  let s := (Os.after generousHost cfg (firstSlot ++ nextSlot ++ [.cpu 0])).2
  have hhands : ∀ i < cfg.numCpus, (s.cpus i).proc = none := by decide +kernel
  have hlist : s.sched.runningList.proc = [1] := by decide +kernel
  refine ⟨by decide, _, s, OsRun.after (by decide +kernel), by decide +kernel, hhands, hlist,
    fun hexact => ?_⟩
  obtain ⟨i, hi, hhand⟩ := (hexact.mem_iff 1).1 (by simp [hlist])
  exact absurd ((hhands i hi).symm.trans hhand) (by simp)

end Ossim
