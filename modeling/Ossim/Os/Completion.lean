import Ossim.Os.Progress
import Ossim.Os.Waiting

set_option autoImplicit false

/-! # The programs run to their ends

The work of a state is what is left to do for all programs: it grows in no step, and `get_proc` that
finds a process, `run` and giving up a process that has finished each lower it. Once the loader is done,
a CPU in its loop sees to it that there is such a step within three time slots: `get_proc` finds a
process, renews the budgets, or the process is in the hands of another CPU. So the time at which all
programs are at their ends is bounded by their instructions, unless every CPU has stopped before. -/

namespace Ossim

/-! ## The work -/

/-- The work of a program that is not loaded. -/
def Program.work (prog : Program) : ℕ := 2 * prog.code.length + 3

/-- The work for the process in the hands of a CPU, besides its instructions. -/
def Os.handWork (s : Os) (i : ℕ) : ℕ :=
  match (s.cpus i).proc with
  | none => 0
  | some p =>
    if (s.cpus i).loc = .check ∨ (s.cpus i).loc = .run then 2 else if s.isFinished p then 1 else 3

/-- The processes that are waiting. -/
def Sched.queued (sched : Sched ℕ) : ℕ := ∑ prio ∈ Finset.range maxPrio, (sched.waiting prio).length

/-- The work that is left. -/
def Os.work (cfg : Config) (s : Os) : ℕ :=
  ((cfg.programs.drop s.loaded).map Program.work).sum +
    ∑ k ∈ Finset.range s.loaded, 2 * remaining (s.sys.procs (k + 1)) + 3 * s.sched.queued +
    ∑ i ∈ Finset.range cfg.numCpus, s.handWork i

section Queued

variable {sched sched' : Sched ℕ} {p prio : ℕ}

theorem Sched.Serves.queued {rest : List ℕ} (h : sched.Serves prio p rest) :
    sched.getMlqProc.2.queued + 1 = sched.queued := by
  have hsum := Sums.sum_update_add (s := Finset.range maxPrio) (fun _ ps => ps.length) sched.waiting
    (Finset.mem_range.2 h.prio_lt) rest
  rw [h.waiting_eq, List.length_cons] at hsum
  rw [Sched.queued, Sched.queued, h.waiting_get]
  omega

theorem Sched.ServesNone.queued (h : sched.ServesNone) : sched.getMlqProc.2.queued = sched.queued := by
  rw [Sched.queued, Sched.queued, h.waiting_get]

theorem Sched.queued_enqueue (hw : sched'.waiting = Function.update sched.waiting prio
    ((sched.mlqReadyQueue prio).enqueue p).proc) : sched'.queued ≤ sched.queued + 1 := by
  rw [Sched.queued, Sched.queued, hw]
  by_cases hprio : prio ∈ Finset.range maxPrio
  · have hsum := Sums.sum_update_add (s := Finset.range maxPrio) (fun _ ps => ps.length) sched.waiting
      hprio ((sched.mlqReadyQueue prio).enqueue p).proc
    have hlen : ((sched.mlqReadyQueue prio).enqueue p).proc.length ≤
        (sched.waiting prio).length + 1 := by
      rcases Sched.enqueue_cases (sched.mlqReadyQueue prio) p with heq | ⟨-, heq⟩ <;>
        simp [heq, Sched.waiting]
    omega
  · refine Nat.le_succ_of_le (Nat.le_of_eq (Finset.sum_congr rfl fun q hq => ?_))
    have hqp : q ≠ prio := by
      rintro rfl
      exact hprio hq
    rw [Function.update_of_ne hqp]

end Queued

section Work

variable {host : Host} {cfg : Config} {s s' : Os} {trace : List (ℕ × ℕ)} {i p : ℕ}

theorem OsRun.pc_le (h : OsRun host cfg trace s) {proc : Pcb} (hp : s.sys.procs p = some proc) :
    proc.pc ≤ proc.code.length := by
  have hall : ∀ q pcb, s.sys.procs q = some pcb → pcb.pc ≤ pcb.code.length := by
    clear hp
    induction h with
    | boot => exact fun _ _ hq => absurd hq (by simp [Os.boot])
    | step _ a hstep ih => exact Os.pc_le_move ih (Os.move_of_step hstep)
  exact hall p proc hp

theorem remaining_some (proc : Pcb) : remaining (some proc) = proc.code.length - proc.pc := rfl

theorem Os.handWork_congr (hcpu : s'.cpus i = s.cpus i)
    (hfin : ∀ p, (s.cpus i).proc = some p → s'.isFinished p = s.isFinished p) :
    s'.handWork i = s.handWork i := by
  rw [Os.handWork, Os.handWork, hcpu]
  cases hproc : (s.cpus i).proc with
  | none => rfl
  | some p => simp only [hfin p hproc]

theorem Os.work_setCpu (hi : i < cfg.numCpus) (t : Os) (cpu : Cpu) (hprocs : t.sys.procs = s.sys.procs)
    (hloaded : t.loaded = s.loaded) (hcpus : t.cpus = s.cpus) :
    (t.setCpu i cpu).work cfg + 3 * s.sched.queued + s.handWork i =
      s.work cfg + 3 * t.sched.queued + (t.setCpu i cpu).handWork i := by
  have hsum := Sums.sum_add_of_eq_off (i := i) (f := (t.setCpu i cpu).handWork) (g := s.handWork)
    (Finset.mem_range.2 hi) fun j _ hj => by
      refine Os.handWork_congr ?_ fun p _ => ?_
      · exact (Function.update_of_ne hj ..).trans (congrFun hcpus j)
      · simp only [Os.isFinished, Os.setCpu, hprocs]
  have hprocs' : (t.setCpu i cpu).sys.procs = s.sys.procs := hprocs
  have hloaded' : (t.setCpu i cpu).loaded = s.loaded := hloaded
  have hsched : (t.setCpu i cpu).sched = t.sched := rfl
  rw [Os.work, Os.work, hprocs', hloaded', hsched]
  omega

theorem Os.work_goOn (hi : i < cfg.numCpus) {t : Os} {cpu : Cpu} (hprocs : t.sys.procs = s.sys.procs)
    (hloaded : t.loaded = s.loaded) (hcpus : t.cpus = s.cpus) (hsched : t.sched = s.sched)
    (hproc : cpu.proc = (s.cpus i).proc)
    (hloc : cpu.loc = .check ∨ cpu.loc = .run ↔ (s.cpus i).loc = .check ∨ (s.cpus i).loc = .run) :
    (t.setCpu i cpu).work cfg = s.work cfg := by
  have heq := Os.work_setCpu hi t cpu hprocs hloaded hcpus
  have hfin : ∀ p, (t.setCpu i cpu).isFinished p = s.isFinished p := fun p => by
    simp only [Os.isFinished, Os.setCpu, hprocs]
  have hhand : (t.setCpu i cpu).handWork i = s.handWork i := by
    simp only [Os.handWork, Os.setCpu_self, hproc, hloc, hfin]
  rw [hsched] at heq
  omega

theorem Os.handWork_of_none (hproc : (s.cpus i).proc = none) : s.handWork i = 0 := by
  rw [Os.handWork, hproc]

theorem Os.work_getProc_some (hi : i < cfg.numCpus) {cpu : Cpu} (hloc : cpu.loc = .check)
    (hget : s.sched.getMlqProc.1 = some p) : (s.getProc i cpu).work cfg < s.work cfg := by
  have heq := Os.work_setCpu (s := s) hi { s with sched := s.sched.getMlqProc.2 }
    { cpu with proc := s.sched.getMlqProc.1 } rfl rfl rfl
  have hhand : (s.getProc i cpu).handWork i = 2 := by
    simp only [Os.handWork, Os.getProc, Os.setCpu_self, hget, hloc, true_or, if_true]
  rcases s.sched.getMlqProc_spec with ⟨prio, x, rest, hserves⟩ | hnone
  · have hqueued := hserves.queued
    change (s.getProc i cpu).work cfg + 3 * s.sched.queued + s.handWork i =
      s.work cfg + 3 * s.sched.getMlqProc.2.queued + (s.getProc i cpu).handWork i at heq
    omega
  · exact absurd (hnone.fst_eq.symm.trans hget) (by simp)

theorem Os.work_getProc_none (hi : i < cfg.numCpus) (cpu : Cpu) (hget : s.sched.getMlqProc.1 = none) :
    (s.getProc i cpu).work cfg + s.handWork i = s.work cfg := by
  have heq := Os.work_setCpu (s := s) hi { s with sched := s.sched.getMlqProc.2 }
    { cpu with proc := s.sched.getMlqProc.1 } rfl rfl rfl
  have hhand : (s.getProc i cpu).handWork i = 0 :=
    Os.handWork_of_none (by rw [Os.getProc, Os.setCpu_self, hget])
  rcases s.sched.getMlqProc_spec with ⟨prio, x, rest, hserves⟩ | hnone
  · exact absurd (hserves.fst_eq.symm.trans hget) (by simp)
  · have hqueued := hnone.queued
    change (s.getProc i cpu).work cfg + 3 * s.sched.queued + s.handWork i =
      s.work cfg + 3 * s.sched.getMlqProc.2.queued + (s.getProc i cpu).handWork i at heq
    omega

theorem Os.work_none (hi : i < cfg.numCpus) (hproc : (s.cpus i).proc = none) {cpu : Cpu}
    (hnone : cpu.proc = none) : (s.setCpu i cpu).work cfg = s.work cfg := by
  have heq := Os.work_setCpu (s := s) hi s cpu rfl rfl rfl
  rw [Os.handWork_of_none hproc, Os.handWork_of_none (by rw [Os.setCpu_self, hnone])] at heq
  omega

theorem Os.handWork_top (hloc : (s.cpus i).loc = .top) (hproc : (s.cpus i).proc = some p) :
    s.handWork i = if s.isFinished p then 1 else 3 := by
  simp [Os.handWork, hproc, hloc]

theorem Os.work_finish (hi : i < cfg.numCpus) (hloc : (s.cpus i).loc = .top)
    (hproc : (s.cpus i).proc = some p) (hfin : s.isFinished p = true) {cpu : Cpu}
    (hcheck : cpu.loc = .check) : (s.getProc i cpu).work cfg < s.work cfg := by
  cases hget : s.sched.getMlqProc.1 with
  | some q => exact Os.work_getProc_some hi hcheck hget
  | none =>
      have heq := Os.work_getProc_none (s := s) hi cpu hget
      rw [Os.handWork_top hloc hproc, if_pos hfin] at heq
      omega

theorem Os.work_put (hi : i < cfg.numCpus) (hloc : (s.cpus i).loc = .top)
    (hproc : (s.cpus i).proc = some p) (hfin : s.isFinished p = false) {cpu : Cpu}
    (hnone : cpu.proc = none) :
    ({ s with sched := s.sched.putMlqProc p (s.prio p) }.setCpu i cpu).work cfg ≤ s.work cfg := by
  have heq := Os.work_setCpu (s := s) hi { s with sched := s.sched.putMlqProc p (s.prio p) } cpu
    rfl rfl rfl
  have hqueued := Sched.queued_enqueue (s.sched.putMlqProc_waiting p (s.prio p))
  have hhand := Os.handWork_of_none (s := { s with sched := s.sched.putMlqProc p (s.prio p) }.setCpu i cpu)
    (i := i) (by rw [Os.setCpu_self, hnone])
  rw [Os.handWork_top hloc hproc, hfin, hhand] at heq
  simp only [Bool.false_eq_true, if_false] at heq
  omega

theorem Os.work_keep (hi : i < cfg.numCpus) (hloc : (s.cpus i).loc = .top)
    (hproc : (s.cpus i).proc = some p) (hfin : s.isFinished p = false) {cpu : Cpu}
    (hcheck : cpu.loc = .check) (hkeep : cpu.proc = some p) :
    (s.setCpu i cpu).work cfg < s.work cfg := by
  have heq := Os.work_setCpu (s := s) hi s cpu rfl rfl rfl
  have hhand : (s.setCpu i cpu).handWork i = 2 := by
    simp only [Os.handWork, Os.setCpu_self, hkeep, hcheck, true_or, if_true]
  rw [Os.handWork_top hloc hproc, hfin, hhand] at heq
  simp only [Bool.false_eq_true, if_false] at heq
  omega

/-- One call of `run`: an instruction less, or the process is at its end. -/
theorem Os.work_run (h : OsRun host cfg trace s) (hi : i < cfg.numCpus)
    (hloc : (s.cpus i).loc = .run) (hproc : (s.cpus i).proc = some p) {st : ℤ} {sys : System}
    (hrun : s.sys.run host p = some (st, sys)) {cpu : Cpu} (hslot : cpu.loc = .slotEnter)
    (hkeep : cpu.proc = some p) : ({ s with sys := sys }.setCpu i cpu).work cfg < s.work cfg := by
  have hh := h.holdersInv
  obtain ⟨proc, proc', hknown, hupd, hcode, -, hpc⟩ := System.run_procs hrun
  have hle := h.pc_le hknown
  have hpos := h.procs_pos hknown
  have hloaded := hh.procs_le p proc hknown
  -- only the CPU `i` and the process `p` count differently than before
  have hothers := Sums.sum_add_of_eq_off (i := i)
    (f := ({ s with sys := sys }.setCpu i cpu : Os).handWork) (g := s.handWork)
    (Finset.mem_range.2 hi) fun j _ hj => by
      refine Os.handWork_congr (Function.update_of_ne hj ..) fun q hq => ?_
      have hqp : q ≠ p := fun hqp => hj (hh.hand_inj j i p (hqp ▸ hq) hproc)
      simp only [Os.isFinished, Os.setCpu, hupd, Function.update_of_ne hqp]
  have hprocs := Sums.sum_add_of_eq_off (s := Finset.range s.loaded) (i := p - 1)
    (f := fun k => 2 * remaining (sys.procs (k + 1))) (g := fun k => 2 * remaining (s.sys.procs (k + 1)))
    (Finset.mem_range.2 (by omega)) fun k _ hk => by
      rw [hupd, Function.update_of_ne (by omega)]
  have hold : s.handWork i = 2 := by simp [Os.handWork, hproc, hloc]
  have hnew : ({ s with sys := sys }.setCpu i cpu : Os).handWork i =
      if proc'.pc = proc'.code.length then 1 else 3 := by
    simp [Os.handWork, Os.setCpu, hkeep, hslot, Os.isFinished, hupd]
  have hsub : p - 1 + 1 = p := by omega
  have hafter : sys.procs p = some proc' := by rw [hupd, Function.update_self]
  rw [hsub, hknown, hafter, remaining_some, remaining_some, hcode, hpc] at hprocs
  rw [hold, hnew, hcode, hpc] at hothers
  have hwork : ({ s with sys := sys }.setCpu i cpu).work cfg =
      ((cfg.programs.drop s.loaded).map Program.work).sum +
        ∑ k ∈ Finset.range s.loaded, 2 * remaining (sys.procs (k + 1)) + 3 * s.sched.queued +
        ∑ j ∈ Finset.range cfg.numCpus, ({ s with sys := sys }.setCpu i cpu : Os).handWork j := rfl
  rw [hwork, Os.work]
  by_cases hlt : proc.pc < proc.code.length
  · -- whether this was the last one or not, giving up the process is 3 at most
    rw [if_pos hlt] at hprocs hothers
    have hslotWork : (if proc.pc + 1 = proc.code.length then 1 else 3) ≤ 3 := by split <;> omega
    omega
  · rw [if_neg hlt] at hprocs hothers
    rw [if_pos (by omega)] at hothers
    omega

theorem Os.work_add (hh : HoldersInv s) {prog : Program} (hprog : cfg.programs[s.loaded]? = some prog)
    (ldLoc : LdLoc) :
    ({ s with
      sys := { s.sys with procs := Function.update s.sys.procs (s.loaded + 1) (some (load prog)) }
      sched := s.sched.addMlqProc (s.loaded + 1) prog.prio
      loaded := s.loaded + 1
      ldLoc := ldLoc } : Os).work cfg ≤ s.work cfg := by
  have hqueued := Sched.queued_enqueue (s.sched.addMlqProc_waiting (s.loaded + 1) prog.prio)
  obtain ⟨hlen, hget⟩ := List.getElem?_eq_some_iff.1 hprog
  have hdrop : ((cfg.programs.drop s.loaded).map Program.work).sum =
      prog.work + ((cfg.programs.drop (s.loaded + 1)).map Program.work).sum := by
    rw [List.drop_eq_getElem_cons hlen, hget, List.map_cons, List.sum_cons]
  have hprocs : ∑ k ∈ Finset.range s.loaded,
      2 * remaining (Function.update s.sys.procs (s.loaded + 1) (some (load prog)) (k + 1)) =
        ∑ k ∈ Finset.range s.loaded, 2 * remaining (s.sys.procs (k + 1)) := by
    refine Finset.sum_congr rfl fun k hk => ?_
    have hlt := Finset.mem_range.1 hk
    rw [Function.update_of_ne (by omega)]
  have hnew : remaining (some (load prog)) = prog.code.length := by simp [remaining, load]
  have hhands : ∀ i, ({ s with
      sys := { s.sys with procs := Function.update s.sys.procs (s.loaded + 1) (some (load prog)) }
      sched := s.sched.addMlqProc (s.loaded + 1) prog.prio
      loaded := s.loaded + 1
      ldLoc := ldLoc } : Os).handWork i = s.handWork i := by
    intro i
    refine Os.handWork_congr rfl fun p hp => ?_
    obtain ⟨proc, hknown⟩ := hh.hand_known i p hp
    have hpl : p ≠ s.loaded + 1 := by
      rintro rfl
      exact hh.procs_next hknown
    simp only [Os.isFinished, Function.update_of_ne hpl]
  -- the work of the program goes from what is to be loaded to the queue and its process
  unfold Os.work
  simp only [hhands, Finset.sum_range_succ, hprocs, Function.update_self, hnew, hdrop, Program.work]
  omega

end Work

/-! ## The next step that lowers the work -/

/-- The times the CPU has passed the rest of its loop, on its way to `next_slot`. -/
def Os.passes (s : Os) (i : ℕ) : ℕ :=
  s.timer.entered (.cpu i) + if (s.cpus i).loc = .slotEnter then 1 else 0

/-- CPU `i` sees to a step that lowers the work before it has passed `b` times: its next `get_proc` finds
    a process, or the one after it, with new budgets, or another CPU has a process in its hands. -/
def Os.Due (cfg : Config) (s : Os) (i b : ℕ) : Prop :=
  s.passes i ≤ b ∧ (s.sched.Serving ∨ ¬ s.sched.Idle ∧ s.passes i + 1 ≤ b ∨
    ∃ j < cfg.numCpus, (s.cpus j).proc ≠ none ∧ s.passes j + 2 ≤ b)

/-- A CPU out of its loop has no process. -/
def Os.OutFree (s : Os) : Prop := ∀ i, (s.cpus i).Out → (s.cpus i).proc = none

section Due

variable {host : Host} {cfg : Config} {s s' : Os} {trace : List (ℕ × ℕ)} {i j p b : ℕ}

theorem Os.OutFree.setCpu (h : s.OutFree) {t : Os} (hcpus : t.cpus = s.cpus) {cpu : Cpu}
    (hcpu : cpu.Out → cpu.proc = none) : (t.setCpu i cpu).OutFree := by
  intro j
  by_cases hji : j = i
  · subst hji
    rw [Os.setCpu_self]
    exact hcpu
  · have hother : (t.setCpu i cpu).cpus j = s.cpus j :=
      (Function.update_of_ne hji ..).trans (congrFun hcpus j)
    rw [hother]
    exact h j

theorem OsRun.outFree (h : OsRun host cfg trace s) : s.OutFree := by
  induction h with
  | boot => exact fun _ _ => rfl
  | step _ a hstep ih =>
      cases Os.move_of_step hstep with
      | first =>
          refine ih.setCpu rfl fun hout => ?_
          simp only [Cpu.Out] at hout
          split at hout <;> simp at hout
      | finish | put | keep | refetch | idle | dispatch | run | enter | leave =>
          exact ih.setCpu rfl fun hout => by simp [Cpu.Out] at hout
      | stop hi hloc hproc => exact ih.setCpu rfl fun _ => hproc
      | detach hi hloc => exact ih.setCpu rfl fun _ => ih _ (Or.inl hloc)
      | ldNext | ldDone | ldWait | ldReady | ldAdd | ldEnter | ldLeave | ldDetach | timer => exact ih

/-- By the barrier, the CPUs in their loops have passed as often as the time says, or once more. -/
theorem OsRun.passes_bounds (h : OsRun host cfg trace s) (hi : i < cfg.numCpus)
    (hin : ¬ (s.cpus i).Out) : s.timer.time ≤ s.passes i ∧ s.passes i ≤ s.timer.time + 1 := by
  by_cases hloc : (s.cpus i).loc = .slotEnter
  · have hentered := h.clockInv.entered_eq (Config.cpu_mem_devList hi) (by simp [Os.Waits, hloc])
      (by simp [Os.Gone, hloc])
    rw [Os.passes, if_pos hloc]
    omega
  · have hentered := h.entered_bounds hi hin
    rw [Os.passes, if_neg hloc]
    omega

theorem Os.passes_congr (hentered : s'.timer.entered (.cpu j) = s.timer.entered (.cpu j))
    (hloc : (s'.cpus j).loc = .slotEnter ↔ (s.cpus j).loc = .slotEnter) : s'.passes j = s.passes j := by
  simp only [Os.passes, hentered, hloc]

theorem Os.Due.congr (h : s.Due cfg i b) (hsched : s'.sched = s.sched)
    (hproc : ∀ j, (s'.cpus j).proc = (s.cpus j).proc) (hpasses : ∀ j, s'.passes j = s.passes j) :
    s'.Due cfg i b := by
  unfold Os.Due
  rw [hsched, hpasses i]
  refine ⟨h.1, ?_⟩
  rcases h.2 with hserving | hwaits | ⟨j, hj, hhand, hle⟩
  · exact Or.inl hserving
  · exact Or.inr (Or.inl hwaits)
  · refine Or.inr (Or.inr ⟨j, hj, ?_, ?_⟩)
    · rwa [hproc j]
    · rwa [hpasses j]

theorem Os.Due.goOn (h : s.Due cfg i b) {t : Os} (hsched : t.sched = s.sched) (hcpus : t.cpus = s.cpus)
    (hentered : t.timer.entered = s.timer.entered) {k : ℕ} {cpu : Cpu}
    (hproc : cpu.proc = (s.cpus k).proc)
    (hslot : cpu.loc = .slotEnter ↔ (s.cpus k).loc = .slotEnter) : (t.setCpu k cpu).Due cfg i b := by
  have hother : ∀ j, j ≠ k → (t.setCpu k cpu).cpus j = s.cpus j := fun j hjk =>
    (Function.update_of_ne hjk ..).trans (congrFun hcpus j)
  refine h.congr hsched (fun j => ?_) fun j => Os.passes_congr (congrFun hentered _) ?_
  · by_cases hjk : j = k
    · subst hjk
      rw [Os.setCpu_self, hproc]
    · rw [hother j hjk]
  · by_cases hjk : j = k
    · subst hjk
      rw [Os.setCpu_self]
      exact hslot
    · rw [hother j hjk]

/-- A CPU without a process asks for one in vain: the budgets are renewed, if a process is waiting. -/
theorem Os.Due.getNone (h : s.Due cfg i b) (hrun : OsRun host cfg trace s) (hi : i < cfg.numCpus)
    (hin : ¬ (s.cpus i).Out) {k : ℕ} {cpu : Cpu} {trace' : List (ℕ × ℕ)}
    (hrun' : OsRun host cfg trace' (s.getProc k cpu)) (hin' : ¬ ((s.getProc k cpu).cpus i).Out)
    (hget : s.sched.getMlqProc.1 = none) (hnone : (s.cpus k).proc = none) :
    (s.getProc k cpu).Due cfg i b := by
  have hbefore := (hrun.passes_bounds hi hin).1
  have hafter := (hrun'.passes_bounds hi hin').2
  have htime : (s.getProc k cpu).timer.time = s.timer.time := rfl
  rw [htime] at hafter
  rcases s.sched.getMlqProc_spec with ⟨prio, x, rest, hserves⟩ | hservesNone
  · exact absurd (hserves.fst_eq.symm.trans hget) (by simp)
  rcases h.2 with hserving | ⟨hidle, hle⟩ | ⟨j, hj, hhand, hle⟩
  · exact absurd hserving hservesNone.not_serving
  · -- a process waits, and all budgets are what they were at the start
    refine ⟨by omega, Or.inl ?_⟩
    simp only [Sched.Idle, not_forall] at hidle
    obtain ⟨prio, hprio, hwait⟩ := hidle
    have hempty : s.sched.queueEmpty = -1 := by
      rw [Sched.queueEmpty, if_neg]
      intro hall
      have hnil := List.all_eq_true.1 hall prio (List.mem_range.2 hprio)
      exact hwait (List.isEmpty_iff.1 hnil)
    refine ⟨prio, hprio, ?_, ?_⟩
    · change s.sched.getMlqProc.2.waiting prio ≠ []
      rwa [hservesNone.waiting_get]
    · change 0 < s.sched.getMlqProc.2.slot prio
      rw [hservesNone.slot_get, if_pos hempty]
      exact Nat.sub_pos_of_lt hprio
  · have hjk : j ≠ k := by
      rintro rfl
      exact hhand hnone
    have hjin := (hrun.passes_bounds hj fun hout => hhand (hrun.outFree j hout)).1
    have hother : (s.getProc k cpu).cpus j = s.cpus j := Function.update_of_ne hjk ..
    refine ⟨by omega, Or.inr (Or.inr ⟨j, hj, by rwa [hother], ?_⟩)⟩
    have hpasses : (s.getProc k cpu).passes j = s.passes j :=
      Os.passes_congr rfl (by rw [hother])
    omega

theorem Os.Due.put (h : s.Due cfg i b) (hrun : OsRun host cfg trace s) (hfits : cfg.Fits)
    (hi : i < cfg.numCpus) (hin : ¬ (s.cpus i).Out) {k : ℕ} (hproc : (s.cpus k).proc = some p)
    (hloc : (s.cpus k).loc = .top) {cpu : Cpu} (hslot : cpu.loc ≠ .slotEnter) :
    ({ s with sched := s.sched.putMlqProc p (s.prio p) }.setCpu k cpu).Due cfg i b := by
  have hprio := (hrun.keptInv hfits).prio_lt_of_hand hrun.holdersInv hproc
  have hpasses : ({ s with sched := s.sched.putMlqProc p (s.prio p) }.setCpu k cpu).passes i =
      s.passes i := by
    refine Os.passes_congr rfl ?_
    by_cases hik : i = k
    · subst hik
      rw [Os.setCpu_self, hloc]
      exact iff_of_false hslot (by simp)
    · have hother : ({ s with sched := s.sched.putMlqProc p (s.prio p) }.setCpu k cpu).cpus i =
          s.cpus i := Function.update_of_ne hik ..
      rw [hother]
  have hidle : ¬ (s.sched.putMlqProc p (s.prio p)).Idle := Sched.not_idle_put hprio
  refine ⟨by rw [hpasses]; exact h.1, ?_⟩
  rcases h.2 with ⟨q, hq, hwait, hslots⟩ | ⟨-, hle⟩ | ⟨j, hj, hhand, hle⟩
  · left
    refine ⟨q, hq, ?_, hslots⟩
    obtain ⟨x, rest, hcons⟩ := List.exists_cons_of_ne_nil hwait
    have hmem := mem_waiting_enqueue (s.sched.putMlqProc_waiting p (s.prio p)) (q := q) (x := x)
      (by simp [hcons])
    exact List.ne_nil_of_mem hmem
  · exact Or.inr (Or.inl ⟨hidle, by rwa [hpasses]⟩)
  · -- the CPU with a process has not passed less often than the time says
    have hjin := (hrun.passes_bounds hj fun hout => hhand (hrun.outFree j hout)).1
    have hbound := (hrun.passes_bounds hi hin).2
    exact Or.inr (Or.inl ⟨hidle, by rw [hpasses]; omega⟩)

end Due

/-! ## Steps -/

section Steps

variable {host : Host} {cfg : Config} {s s' : Os} {trace : List (ℕ × ℕ)} {i b : ℕ}

/-- **Step.** The work does not grow. -/
theorem Os.work_move (h : OsRun host cfg trace s) {a : Actor} (hmove : s.Move host cfg a s') :
    s'.work cfg ≤ s.work cfg := by
  cases hmove with
  | first hi hloc hproc =>
      rcases Option.eq_none_or_eq_some s.sched.getMlqProc.1 with hget | ⟨p, hget⟩
      · exact Nat.le_of_add_right_le (Nat.le_of_eq (Os.work_getProc_none hi _ hget))
      · exact Nat.le_of_lt (Os.work_getProc_some hi (by simp [hget]) hget)
  | finish hi hloc hproc hfin => exact Nat.le_of_lt (Os.work_finish hi hloc hproc hfin rfl)
  | refetch hi hloc =>
      rcases Option.eq_none_or_eq_some s.sched.getMlqProc.1 with hget | ⟨p, hget⟩
      · exact Nat.le_of_add_right_le (Nat.le_of_eq (Os.work_getProc_none hi _ hget))
      · exact Nat.le_of_lt (Os.work_getProc_some hi rfl hget)
  | put hi hloc hproc hfin => exact Os.work_put hi hloc hproc hfin rfl
  | keep hi hloc hproc hfin => exact Nat.le_of_lt (Os.work_keep hi hloc hproc hfin rfl hproc)
  | run hi hloc hproc hrun => exact Nat.le_of_lt (Os.work_run h hi hloc hproc hrun rfl hproc)
  | stop hi hloc hproc | idle hi hloc hproc => exact Nat.le_of_eq (Os.work_none hi hproc hproc)
  | dispatch hi hloc | enter hi hloc | leave hi hloc | detach hi hloc =>
      exact Nat.le_of_eq (Os.work_goOn hi rfl rfl rfl rfl rfl (by simp [hloc]))
  | ldAdd hloc hprog => exact Os.work_add h.holdersInv hprog _
  | ldNext | ldDone | ldWait | ldReady | ldEnter | ldLeave | ldDetach | timer => exact Nat.le_refl _

/-- **Step.** Once the loader is done, a step lowers the work, or what is due stays due. -/
theorem Os.Due.step (h : s.Due cfg i b) (hfits : cfg.Fits) (hrun : OsRun host cfg trace s)
    (hdone : s.done = true) (hi : i < cfg.numCpus) {a : Actor} (hstep : s.step host cfg a = some s')
    (hin' : ¬ (s'.cpus i).Out) :
    s'.work cfg < s.work cfg ∧ s'.timer.time = s.timer.time ∨ s'.Due cfg i b := by
  have hrun' := hrun.step a hstep
  have hmove := Os.move_of_step hstep
  have hin := Os.in_of_move hrun.holdersInv hmove hin'
  cases hmove with
  | first hk hloc hproc =>
      rcases Option.eq_none_or_eq_some s.sched.getMlqProc.1 with hget | ⟨p, hget⟩
      · exact Or.inr (h.getNone hrun hi hin hrun' hin' hget hproc)
      · exact Or.inl ⟨Os.work_getProc_some hk (by simp [hget]) hget, rfl⟩
  | finish hk hloc hproc hfin => exact Or.inl ⟨Os.work_finish hk hloc hproc hfin rfl, rfl⟩
  | refetch hk hloc =>
      rcases Option.eq_none_or_eq_some s.sched.getMlqProc.1 with hget | ⟨p, hget⟩
      · exact Or.inr (h.getNone hrun hi hin hrun' hin' hget (hrun.refetch_none _ hloc))
      · exact Or.inl ⟨Os.work_getProc_some hk rfl hget, rfl⟩
  | put hk hloc hproc hfin => exact Or.inr (h.put hrun hfits hi hin hproc hloc (by simp))
  | keep hk hloc hproc hfin => exact Or.inl ⟨Os.work_keep hk hloc hproc hfin rfl hproc, rfl⟩
  | run hk hloc hproc hrun₁ => exact Or.inl ⟨Os.work_run hrun hk hloc hproc hrun₁ rfl hproc, rfl⟩
  | stop hk hloc | dispatch hk hloc => exact Or.inr (h.goOn rfl rfl rfl rfl (by simp [hloc]))
  | idle hk hloc hproc hnot => exact absurd (hdone.symm.trans hnot) (by simp)
  -- entering `next_slot` is a pass, which the timer counts from now on
  | @enter k hk hloc =>
      refine Or.inr (h.congr rfl (proc_setCpu rfl) fun j => ?_)
      by_cases hjk : j = k
      · subst hjk
        simp [Os.passes, Os.setCpu, Timer.enter, hloc]
      · have hne : Dev.cpu j ≠ .cpu k := fun heq => hjk (Dev.cpu.inj heq)
        simp [Os.passes, Os.setCpu, Timer.enter, Function.update_of_ne hjk, Function.update_of_ne hne]
  | leave hk hloc hleave =>
      obtain ⟨-, rfl⟩ := Timer.leave_eq_some hleave
      exact Or.inr (h.goOn rfl rfl rfl rfl (by simp [hloc]))
  | detach hk hloc =>
      exact Or.inr (h.goOn rfl rfl rfl rfl (by simp [hloc]))
  | ldNext hloc | ldDone hloc | ldWait hloc | ldReady hloc | ldAdd hloc | ldEnter hloc | ldLeave hloc =>
      rcases hrun.placeInv.done_ld hdone with hld | hld
      · exact absurd (hloc.symm.trans hld) (by simp)
      · exact absurd (hloc.symm.trans hld) (by simp)
  | ldDetach => exact Or.inr (h.congr rfl (fun _ => rfl) fun _ => rfl)
  | timer htick =>
      refine Or.inr (h.congr rfl (fun _ => rfl) fun j => Os.passes_congr ?_ Iff.rfl)
      cases Timer.move_of_step htick <;> rfl

/-- There is always something due within three time slots, until nothing is left to do. -/
theorem Os.ended_or_due (hrun : OsRun host cfg trace s) (hdone : s.done = true) (hi : i < cfg.numCpus)
    (hin : ¬ (s.cpus i).Out) : s.Ended cfg ∨ s.Due cfg i (s.timer.time + 3) := by
  have hself := (hrun.passes_bounds hi hin).2
  by_cases hidle : s.sched.Idle
  · by_cases hhands : ∀ j < cfg.numCpus, (s.cpus j).proc = none
    · exact Or.inl ⟨hdone, hidle, hhands⟩
    · right
      simp only [not_forall] at hhands
      obtain ⟨j, hj, hhand⟩ := hhands
      have hother := (hrun.passes_bounds hj fun hout => hhand (hrun.outFree j hout)).2
      exact ⟨by omega, Or.inr (Or.inr ⟨j, hj, hhand, by omega⟩)⟩
  · exact Or.inr ⟨by omega, Or.inr (Or.inl ⟨hidle, by omega⟩)⟩

end Steps

/-! ## The loader -/

/-- The last start time. -/
def Config.lastStart (cfg : Config) : ℕ := (cfg.programs.map Program.startTime).foldr max 0

/-- The instructions of all programs. -/
def Config.instructions (cfg : Config) : ℕ := (cfg.programs.map fun prog => prog.code.length).sum

/-- When all programs are at their ends. -/
def Config.deadline (cfg : Config) : ℕ :=
  cfg.lastStart + 10 * cfg.programs.length + 6 * cfg.instructions + 3

/-- The times the loader has passed the rest of its loop, on its way to `next_slot`. -/
def Os.ldPasses (s : Os) : ℕ :=
  s.timer.entered .ld + match s.ldLoc with | .slotEnter _ => 1 | _ => 0

/-- Every program has been loaded, and every process is at the end of its program. -/
structure Os.Complete (cfg : Config) (s : Os) : Prop where
  loaded : s.loaded = cfg.programs.length
  finished : ∀ p proc, s.sys.procs p = some proc → proc.pc = proc.code.length

section Loader

variable {host : Host} {cfg : Config} {s s' : Os} {trace : List (ℕ × ℕ)} {i : ℕ}

theorem Config.startTime_le {prog : Program} (h : prog ∈ cfg.programs) : prog.startTime ≤ cfg.lastStart := by
  have hle : ∀ (ts : List ℕ) (t : ℕ), t ∈ ts → t ≤ ts.foldr max 0 := by
    intro ts t ht
    induction ts with
    | nil => exact absurd ht List.not_mem_nil
    | cons u ts ih =>
        rw [List.foldr_cons]
        rcases List.mem_cons.1 ht with rfl | ht
        · exact Nat.le_max_left ..
        · exact (ih ht).trans (Nat.le_max_right ..)
  exact hle _ _ (List.mem_map_of_mem h)

/-- The loader waits for the start times, and one slot after each process. -/
theorem OsRun.ldPasses_le (h : OsRun host cfg trace s) : s.ldPasses ≤ cfg.lastStart + s.loaded := by
  induction h with
  | boot => exact Nat.zero_le _
  | @step trace s s' h a hstep ih =>
      cases Os.move_of_step hstep with
      | first | finish | put | keep | refetch | stop | idle | dispatch | run | detach => exact ih
      | enter => exact ih
      | leave hi hloc hleave =>
          obtain ⟨-, rfl⟩ := Timer.leave_eq_some hleave
          exact ih
      | ldNext hloc | ldDone hloc | ldReady hloc =>
          simpa [Os.ldPasses, hloc] using ih
      | ldWait hloc =>
          -- the start time of the program is still to come
          simp only [Os.step, Os.ldStep, hloc] at hstep
          obtain ⟨prog, hprog, heq⟩ := Option.bind_eq_some_iff.1 hstep
          have hwait : s.timer.time < prog.startTime := by
            by_contra hnot
            rw [if_neg hnot] at heq
            simp at heq
          have hstart := Config.startTime_le (List.mem_of_getElem? hprog)
          have hentered := h.clockInv.entered_eq cfg.ld_mem_devList (by simp [Os.Waits, hloc])
            (by simp [Os.Gone, hloc])
          simp only [Os.ldPasses, hentered]
          omega
      | ldAdd hloc hprog =>
          simp only [Os.ldPasses, hloc] at ih ⊢
          omega
      | ldEnter hloc =>
          simp only [Os.ldPasses, hloc] at ih ⊢
          simpa [Timer.enter] using ih
      | @ldLeave again timer hloc hleave =>
          obtain ⟨-, rfl⟩ := Timer.leave_eq_some hleave
          simp only [Os.ldPasses, hloc] at ih ⊢
          cases again <;> simpa using ih
      | ldDetach hloc => simpa [Os.ldPasses, hloc, Timer.detach] using ih
      | timer htick => cases Timer.move_of_step htick <;> exact ih

/-- When the loader is done, every program has been loaded. -/
theorem OsRun.loaded_of_done (h : OsRun host cfg trace s) (hdone : s.done = true) :
    s.loaded = cfg.programs.length := by
  induction h with
  | boot => exact absurd hdone (by simp [Os.boot])
  | @step trace s s' h a hstep ih =>
      cases Os.move_of_step hstep with
      | ldDone hloc hlen => exact Nat.le_antisymm h.numbers.1 (Nat.le_of_not_lt hlen)
      | ldAdd hloc hprog =>
          rcases h.placeInv.done_ld hdone with hld | hld
          · exact absurd (hloc.symm.trans hld) (by simp)
          · exact absurd (hloc.symm.trans hld) (by simp)
      | first | finish | put | keep | refetch | stop | idle | dispatch | run | enter | leave | detach
      | ldNext | ldWait | ldReady | ldEnter | ldLeave | ldDetach | timer => exact ih hdone

/-- The loader is done soon after the last start time. -/
theorem OsRun.done_of_time (h : OsRun host cfg trace s)
    (htime : cfg.lastStart + cfg.programs.length < s.timer.time) : s.done = true := by
  by_contra hnot
  have hhere : ¬ s.Gone .ld := fun hgone => hnot (h.ldInv.done_of_exit (Or.inr hgone))
  have hentered := (h.clockInv.entered_bounds cfg.ld_mem_devList hhere).1
  have hpasses := h.ldPasses_le
  have hloaded := h.numbers.1
  rw [Os.ldPasses] at hpasses
  omega

/-! ## Runs -/

theorem OsRun.work_le (h : OsRun host cfg trace s) :
    s.work cfg ≤ 2 * cfg.instructions + 3 * cfg.programs.length := by
  induction h with
  | boot =>
      have hsum : ∀ progs : List Program, (progs.map Program.work).sum =
          2 * (progs.map fun prog => prog.code.length).sum + 3 * progs.length := by
        intro progs
        induction progs with
        | nil => rfl
        | cons prog progs ih =>
            simp only [List.map_cons, List.sum_cons, List.length_cons, ih, Program.work]
            omega
      have hqueued : (Os.boot cfg).sched.queued = 0 := Finset.sum_eq_zero fun _ _ => rfl
      have hhands : ∑ i ∈ Finset.range cfg.numCpus, (Os.boot cfg).handWork i = 0 :=
        Finset.sum_eq_zero fun _ _ => rfl
      have hprocs : ∑ k ∈ Finset.range (Os.boot cfg).loaded,
          2 * remaining ((Os.boot cfg).sys.procs (k + 1)) = 0 := Finset.sum_range_zero _
      have hdrop : cfg.programs.drop (Os.boot cfg).loaded = cfg.programs := List.drop_zero
      rw [Os.work, hqueued, hhands, hprocs, hdrop, hsum, Config.instructions]
      omega
  | step h a hstep ih => exact (Os.work_move h (Os.move_of_step hstep)).trans ih

/-- **Run.** While CPU `i` is in its loop, what is due and the work there is after it meet the
    deadline. -/
theorem OsRun.onTime (h : OsRun host cfg trace s) (hfits : cfg.Fits) (hi : i < cfg.numCpus)
    (hin : ¬ (s.cpus i).Out) (hdone : s.done = true) :
    s.Ended cfg ∨ ∃ b, s.Due cfg i b ∧ b + 3 * s.work cfg ≤ cfg.deadline := by
  induction h with
  | boot => exact absurd hdone (by simp [Os.boot])
  | @step trace s s' h a hstep ih =>
      have hmove := Os.move_of_step hstep
      have hrun' := h.step a hstep
      have hbefore := Os.in_of_move h.holdersInv hmove hin
      have hwork := Os.work_move h hmove
      by_cases hold : s.done = true
      · rcases ih hbefore hold with hended | ⟨b, hdue, hle⟩
        · exact Or.inl (hended.move h.placeInv hmove)
        · rcases hdue.step hfits h hold hi hstep hin with ⟨hlt, htime⟩ | hdue'
          · -- one unit of work is done, in time
            have hpasses := (h.passes_bounds hi hbefore).1
            have hb := hdue.1
            refine (Os.ended_or_due hrun' hdone hi hin).imp id fun hnext => ⟨_, hnext, ?_⟩
            omega
          · exact Or.inr ⟨b, hdue', by omega⟩
      · -- the loader gets done
        have htime : s'.timer.time ≤ cfg.lastStart + cfg.programs.length := by
          cases hmove with
          | ldDone hloc hlen =>
              have hentered := h.clockInv.entered_eq cfg.ld_mem_devList (by simp [Os.Waits, hloc])
                (by simp [Os.Gone, hloc])
              have hpasses := h.ldPasses_le
              have hloaded := h.numbers.1
              simp only [Os.ldPasses, hloc] at hpasses
              change s.timer.time ≤ _
              omega
          | first | finish | put | keep | refetch | stop | idle | dispatch | run | enter | leave | detach
          | ldNext | ldWait | ldReady | ldAdd | ldEnter | ldLeave | ldDetach | timer =>
              exact absurd hdone hold
        have hall := hrun'.work_le
        refine (Os.ended_or_due hrun' hdone hi hin).imp id fun hnext => ⟨_, hnext, ?_⟩
        rw [Config.deadline]
        omega

/-- At the end every process is at the end of its program. -/
theorem Os.Ended.complete (h : s.Ended cfg) (hfits : cfg.Fits) (hrun : OsRun host cfg trace s) :
    s.Complete cfg := by
  refine ⟨hrun.loaded_of_done h.done, fun p proc hproc => ?_⟩
  by_contra hpc
  rcases (hrun.keptInv hfits).kept p proc hproc hpc with ⟨prio, hprio, hmem⟩ | ⟨i, hi, hhand⟩
  · rw [h.idle prio hprio] at hmem
    exact absurd hmem List.not_mem_nil
  · exact absurd ((h.hands i hi).symm.trans hhand) (by simp)

/-- **All programs run to their ends.** In every run of so many steps, whichever threads take them, every
    program has been loaded and every process is at the end of its program, unless every CPU has stopped.
    The processes are to fit into one queue. -/
theorem completes (hfits : cfg.Fits) {n : ℕ} (h : OsSteps host cfg n s)
    (hn : cfg.slotSteps * (cfg.deadline + 2) ≤ n) :
    s.Complete cfg ∨ ∀ i < cfg.numCpus, (s.cpus i).Out := by
  by_cases hout : ∀ i < cfg.numCpus, (s.cpus i).Out
  · exact Or.inr hout
  · left
    simp only [not_forall] at hout
    obtain ⟨i, hi, hin⟩ := hout
    obtain ⟨trace, hrun⟩ := h.osRun
    have hticks : cfg.slotSteps * (cfg.deadline + 2) ≤ cfg.slotSteps * (s.timer.time + 1) :=
      hn.trans (Nat.le_of_add_right_le h.add_toGo_le)
    have hpos : 0 < cfg.slotSteps := by
      rw [Config.slotSteps]
      omega
    -- so many steps cannot be made in less time
    have htime := Nat.le_of_mul_le_mul_left hticks hpos
    have hdone : s.done = true := by
      refine hrun.done_of_time ?_
      rw [Config.deadline] at htime
      omega
    rcases hrun.onTime hfits hi hin hdone with hended | ⟨b, hdue, hle⟩
    · exact hended.complete hfits hrun
    · -- what is due is overdue
      have hpasses := (hrun.passes_bounds hi hin).1
      have hb := hdue.1
      omega

end Loader

/-- CPU 0 runs the only process and stops, and CPU 1 finds nothing in 47 time slots. -/
def longActors : List Actor :=
  twoCpusActors.dropLast ++ [.cpu 0, .cpu 0] ++
    (List.replicate 46 ([.cpu 1, .cpu 1, .cpu 1] ++ List.replicate 9 .timer)).flatten

theorem completes_twoCpus :
    let s := (Os.after generousHost twoCpus longActors).2
    s.pc 1 = 1 ∧ s.Complete twoCpus := by
  intro s
  have hsome : (Os.schedule generousHost twoCpus longActors).isSome = true := by decide +kernel
  have hin : ¬ (s.cpus 1).Out := by
    unfold Cpu.Out
    decide +kernel
  have hlong : twoCpus.slotSteps * (twoCpus.deadline + 2) ≤ longActors.length := by decide +kernel
  have hcomplete : s.Complete twoCpus ∨ ∀ i < twoCpus.numCpus, (s.cpus i).Out :=
    completes ⟨by decide, by decide⟩ (OsSteps.after hsome) hlong
  exact ⟨by decide +kernel, hcomplete.resolve_right fun hout => hin (hout 1 Nat.one_lt_two)⟩

end Ossim
