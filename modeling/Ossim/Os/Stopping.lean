import Ossim.Os.Clock
import Ossim.Os.Kept

set_option autoImplicit false

/-! # When the CPUs stop

A CPU stops when `get_proc` gave it nothing and the loader is done. `get_mlq_proc` may return NULL
with processes waiting, if their queues have used up their slots, and another CPU may put a process
back between the `get_proc` of a CPU and its test of `done`: then a CPU stops while there is work. In
the runs without these two accidents the CPUs stop only when every process has finished.

A CPU that found nothing in this time slot is harmless as long as the loader has to wait for the end
of the slot before it can be done (`Os.Loading`): by the barrier of the timer, the CPU tests `done`
before that. -/

namespace Ossim

/-! ## Served states -/

/-- No CPU stops while a process is waiting, and when all have stopped every process has finished. -/
structure Os.Served (cfg : Config) (s : Os) : Prop where
  finished : (∀ i < cfg.numCpus, (s.cpus i).loc = .stopped) →
    ∀ p proc, s.sys.procs p = some proc → proc.pc = proc.code.length
  stop_idle : ∀ i < cfg.numCpus, (s.cpus i).loc = .check → (s.cpus i).proc = none → s.done = true →
    s.sched.Idle

/-! ## The condition -/

/-- The loader has to wait for the end of this time slot before it can set `done`. -/
def Os.Loading (cfg : Config) (s : Os) : Prop :=
  match s.ldLoc with
  | .top => s.loaded < cfg.programs.length
  | .start | .add | .slotEnter _ => True
  | .slotWait _ =>
    s.loaded < cfg.programs.length ∨ s.timer.entered .ld = s.timer.time + 1
  | .exit | .finished => False

/-- A CPU may find nothing. -/
def Os.Quiet (cfg : Config) (s : Os) : Prop := s.sched.Idle ∨ s.Loading cfg

/-- `get_proc` finds a process if there is one. -/
def Os.GetOk (cfg : Config) (s : Os) : Prop := s.sched.Serving ∨ s.Quiet cfg

/-- No other CPU than `i` has found nothing and is about to test `done`. -/
def Os.PutOk (cfg : Config) (s : Os) (i : ℕ) : Prop :=
  ∀ j < cfg.numCpus, j ≠ i → (s.cpus j).loc = .check → (s.cpus j).proc = none → s.Loading cfg

/-- A step of a thread without the two accidents: a CPU that finished or put back a process finds
    another one if there is one, and a CPU puts a process back only while no other CPU is stopping. -/
def Os.Orderly (cfg : Config) (s : Os) : Actor → Prop
  | .cpu i =>
    match (s.cpus i).loc, (s.cpus i).proc with
    | .refetch, _ => s.GetOk cfg
    | .top, some p =>
      if s.isFinished p then s.GetOk cfg else (s.cpus i).timeLeft = 0 → s.PutOk cfg i
    | _, _ => True
  | _ => True

section Decidable

variable (cfg : Config) (s : Os)

instance : Decidable (s.Loading cfg) :=
  match h : s.ldLoc with
  | .top => decidable_of_iff (s.loaded < cfg.programs.length) (by rw [Os.Loading, h])
  | .start | .add | .slotEnter _ => .isTrue (by rw [Os.Loading, h]; trivial)
  | .slotWait _ =>
    decidable_of_iff (s.loaded < cfg.programs.length ∨ s.timer.entered .ld = s.timer.time + 1)
      (by rw [Os.Loading, h])
  | .exit | .finished => .isFalse (by rw [Os.Loading, h]; exact id)

instance : Decidable (s.Quiet cfg) := inferInstanceAs (Decidable (_ ∨ _))

instance : Decidable (s.GetOk cfg) := inferInstanceAs (Decidable (_ ∨ _))

instance (i : ℕ) : Decidable (s.PutOk cfg i) :=
  inferInstanceAs (Decidable (∀ j < cfg.numCpus, j ≠ i → (s.cpus j).loc = .check →
    (s.cpus j).proc = none → s.Loading cfg))

instance (a : Actor) : Decidable (s.Orderly cfg a) :=
  match a with
  | .cpu i =>
    match h : (s.cpus i).loc, h' : (s.cpus i).proc with
    | .refetch, _ => decidable_of_iff (s.GetOk cfg) (by simp only [Os.Orderly, h])
    | .top, some p =>
      decidable_of_iff (if s.isFinished p then s.GetOk cfg else (s.cpus i).timeLeft = 0 → s.PutOk cfg i)
        (by simp only [Os.Orderly, h, h'])
    | .top, none => .isTrue (by simp only [Os.Orderly, h, h'])
    | .check, _ | .run, _ | .slotEnter, _ | .slotWait, _ | .exit, _ | .stopped, _ =>
      .isTrue (by simp only [Os.Orderly, h])
  | .ld | .timer => .isTrue trivial

end Decidable

/-- A run of orderly steps. -/
inductive OrderlyRun (host : Host) (cfg : Config) : Os → Prop where
  | boot : OrderlyRun host cfg (Os.boot cfg)
  | step {s s' : Os} (h : OrderlyRun host cfg s) (a : Actor) (hok : s.Orderly cfg a)
      (hstep : s.step host cfg a = some s') : OrderlyRun host cfg s'

/-! ## The invariant -/

structure StopInv (cfg : Config) (s : Os) : Prop where
  check : ∀ i < cfg.numCpus, (s.cpus i).loc = .check → (s.cpus i).proc = none → s.Quiet cfg
  done_ld : s.done = true → s.ldLoc = .exit ∨ s.ldLoc = .finished
  out : ∀ i < cfg.numCpus, (s.cpus i).loc = .exit ∨ (s.cpus i).loc = .stopped →
    s.done = true ∧ (s.cpus i).proc = none
  idle : 0 < cfg.numCpus →
    (∀ i < cfg.numCpus, (s.cpus i).loc = .exit ∨ (s.cpus i).loc = .stopped) → s.sched.Idle

section Invariant

variable {host : Host} {cfg : Config} {s s' : Os}

theorem StopInv.boot (cfg : Config) : StopInv cfg (Os.boot cfg) where
  check := fun _ _ h => absurd h (by simp [Os.boot])
  done_ld := fun h => absurd h (by simp [Os.boot])
  out := fun _ _ h => absurd h (by simp [Os.boot])
  idle := fun _ _ _ _ => rfl

/-! ## Quiet states -/

theorem Sched.Idle.congr {sched sched' : Sched ℕ} (h : sched.Idle)
    (hw : sched'.waiting = sched.waiting) : sched'.Idle := by
  intro prio hprio
  rw [hw]
  exact h prio hprio

theorem Os.Loading.congr (h : s.Loading cfg) (hld : s'.ldLoc = s.ldLoc) (hl : s'.loaded = s.loaded)
    (he : s'.timer.entered .ld = s.timer.entered .ld) (ht : s'.timer.time = s.timer.time) :
    s'.Loading cfg := by
  rw [Os.Loading, hld, hl, he, ht]
  exact h

theorem StopInv.idle_of_quiet (h : StopInv cfg s) (hdone : s.done = true) (hq : s.Quiet cfg) :
    s.sched.Idle := by
  rcases hq with hidle | hload
  · exact hidle
  · rcases h.done_ld hdone with hld | hld
    · rw [Os.Loading, hld] at hload
      exact hload.elim
    · rw [Os.Loading, hld] at hload
      exact hload.elim

/-! ## Moves of a CPU -/

/-- A CPU moves: what it needs for itself, for the others, and if it leaves its loop. -/
theorem StopInv.setCpu (h : StopInv cfg s) {i : ℕ} (hi : i < cfg.numCpus) {cpu : Cpu}
    (hcpus : s'.cpus = Function.update s.cpus i cpu) (hld : s'.ldLoc = s.ldLoc)
    (hdone : s'.done = s.done)
    (hself : cpu.loc = .check → cpu.proc = none → s'.Quiet cfg)
    (hother : ∀ j < cfg.numCpus, j ≠ i → (s.cpus j).loc = .check → (s.cpus j).proc = none →
      s'.Quiet cfg)
    (hout : cpu.loc = .exit ∨ cpu.loc = .stopped → s.done = true ∧ cpu.proc = none ∧
      ((∀ j < cfg.numCpus, j ≠ i → (s.cpus j).loc = .exit ∨ (s.cpus j).loc = .stopped) →
        s'.sched.Idle)) : StopInv cfg s' := by
  refine ⟨fun j hj => ?_, ?_, fun j hj => ?_, fun _ hall => ?_⟩
  · rw [hcpus, Function.update_apply]
    split
    · exact hself
    · next hji => exact hother j hj hji
  · rw [hdone, hld]
    exact h.done_ld
  · rw [hcpus, hdone, Function.update_apply]
    split
    · exact fun hloc => ⟨(hout hloc).1, (hout hloc).2.1⟩
    · exact h.out j hj
  · have hloc := hall i hi
    rw [hcpus, Function.update_self] at hloc
    refine (hout hloc).2.2 fun j hj hji => ?_
    have hj' := hall j hj
    rwa [hcpus, Function.update_of_ne hji] at hj'

theorem StopInv.within (h : StopInv cfg s) {i : ℕ} (hi : i < cfg.numCpus) {cpu : Cpu}
    (hcpus : s'.cpus = Function.update s.cpus i cpu) (hld : s'.ldLoc = s.ldLoc)
    (hdone : s'.done = s.done) (hl : s'.loaded = s.loaded) (hsched : s'.sched = s.sched)
    (he : s'.timer.entered .ld = s.timer.entered .ld) (ht : s'.timer.time = s.timer.time)
    (hself : cpu.loc = .check → cpu.proc ≠ none) (hin : cpu.loc ≠ .exit ∧ cpu.loc ≠ .stopped) :
    StopInv cfg s' := by
  refine h.setCpu hi hcpus hld hdone (fun hloc hproc => absurd hproc (hself hloc)) ?_ ?_
  · intro j hj _ hloc hproc
    rcases h.check j hj hloc hproc with hidle | hload
    · exact Or.inl (hsched ▸ hidle)
    · exact Or.inr (hload.congr hld hl he ht)
  · rintro (hloc | hloc)
    · exact absurd hloc hin.1
    · exact absurd hloc hin.2

theorem Os.Quiet.getProc (h : s.Quiet cfg) (i : ℕ) (cpu : Cpu) : (s.getProc i cpu).Quiet cfg := by
  rcases h with hidle | hload
  · exact Or.inl hidle.getMlqProc
  · exact Or.inr (hload.congr rfl rfl rfl rfl)

/-- `get_proc`, where it finds a process if there is one or the CPU does not go on to stop. -/
theorem StopInv.getProc (h : StopInv cfg s) {i : ℕ} (hi : i < cfg.numCpus) {cpu : Cpu}
    (hin : cpu.loc ≠ .exit ∧ cpu.loc ≠ .stopped)
    (hget : cpu.loc = .check → s.sched.getMlqProc.1 = none → s.GetOk cfg) :
    StopInv cfg (s.getProc i cpu) := by
  refine h.setCpu hi rfl rfl rfl (fun hloc hnone => ?_) ?_ ?_
  · rcases hget hloc hnone with hserving | hquiet
    · rcases s.sched.getMlqProc_cases with ⟨-, -, p, -, -, -, hsome, -⟩ | ⟨hnot, -⟩
      · exact absurd (hsome.symm.trans hnone) (by simp)
      · exact absurd hserving hnot
    · exact hquiet.getProc i cpu
  · exact fun j hj _ hloc hproc => (h.check j hj hloc hproc).getProc i cpu
  · rintro (hloc | hloc)
    · exact absurd hloc hin.1
    · exact absurd hloc hin.2

/-! ## Moves of the loader and the timer -/

/-- A thread other than the CPUs moves: a quiet state stays quiet while some CPU is on its way. -/
theorem StopInv.other (h : StopInv cfg s) (hcpus : s'.cpus = s.cpus)
    (hdone : s.done = true → s'.done = true)
    (hld : s'.done = true → s'.ldLoc = .exit ∨ s'.ldLoc = .finished)
    (hsched : s.done = true → s'.sched = s.sched)
    (hq : ∀ i < cfg.numCpus, (s.cpus i).loc = .check → s.Quiet cfg → s'.Quiet cfg) :
    StopInv cfg s' := by
  refine ⟨fun i hi => ?_, hld, fun i hi => ?_, fun hpos => ?_⟩
  · rw [hcpus]
    exact fun hloc hproc => hq i hi hloc (h.check i hi hloc hproc)
  · rw [hcpus]
    exact fun hloc => ⟨hdone (h.out i hi hloc).1, (h.out i hi hloc).2⟩
  · rw [hcpus]
    intro hall
    rw [hsched (h.out 0 hpos (hall 0 hpos)).1]
    exact h.idle hpos hall

theorem StopInv.not_done (h : StopInv cfg s) (hne : s.ldLoc ≠ .exit ∧ s.ldLoc ≠ .finished) :
    s.done ≠ true := fun hdone => by
  rcases h.done_ld hdone with hld | hld
  · exact hne.1 hld
  · exact hne.2 hld

theorem StopInv.ldMove (h : StopInv cfg s) (hcpus : s'.cpus = s.cpus) (hdone : s'.done = s.done)
    (hne : s.ldLoc ≠ .exit ∧ s.ldLoc ≠ .finished)
    (hq : s.Quiet cfg → s'.Quiet cfg) : StopInv cfg s' := by
  have hnot := h.not_done hne
  exact h.other hcpus (fun hd => absurd hd hnot) (fun hd => absurd (hdone ▸ hd) hnot)
    (fun hd => absurd hd hnot) fun _ _ _ => hq

/-- **Step.** -/
theorem StopInv.move (h : StopInv cfg s) (hclock : ClockInv cfg s) {a : Actor}
    (hok : s.Orderly cfg a) (hmove : s.Move host cfg a s') : StopInv cfg s' := by
  cases hmove with
  | @first i hi hloc hproc =>
      refine h.getProc hi ?_ fun hcheck hnone => ?_
      · simp only
        split <;> simp
      · -- the CPU goes on to the check with a process only
        simp [hnone] at hcheck
  | @finish i p hi hloc hproc hfin =>
      simp only [Os.Orderly, hloc, hproc, hfin, if_true] at hok
      exact h.getProc hi (by simp) fun _ _ => hok
  | @refetch i hi hloc =>
      simp only [Os.Orderly, hloc] at hok
      exact h.getProc hi (by simp) fun _ _ => hok
  | @put i p hi hloc hproc hfin htime =>
      simp only [Os.Orderly, hloc, hproc, hfin, Bool.false_eq_true, if_false] at hok
      refine h.setCpu hi rfl rfl rfl (by simp) (fun j hj hji hcheck hnone => ?_) (by simp)
      exact Or.inr ((hok htime j hj hji hcheck hnone).congr rfl rfl rfl rfl)
  | keep hi hloc hproc =>
      exact h.within hi rfl rfl rfl rfl rfl rfl rfl (by simp [hproc]) (by simp)
  | @stop i hi hloc hproc hdone =>
      have hidle := h.idle_of_quiet hdone (h.check i hi hloc hproc)
      exact h.setCpu hi rfl rfl rfl (by simp) (fun _ _ _ _ _ => Or.inl hidle)
        fun _ => ⟨hdone, hproc, fun _ => hidle⟩
  | idle hi hloc | dispatch hi hloc | run hi hloc =>
      exact h.within hi rfl rfl rfl rfl rfl rfl rfl (by simp) (by simp)
  | @enter i hi hloc =>
      have hent : (s.timer.enter (.cpu i)).entered .ld = s.timer.entered .ld := by
        simp [Timer.enter]
      exact h.within hi rfl rfl rfl rfl rfl hent rfl (by simp) (by simp)
  | leave hi hloc hleave =>
      obtain ⟨-, rfl⟩ := Timer.leave_eq_some hleave
      exact h.within hi rfl rfl rfl rfl rfl rfl rfl (by simp) (by simp)
  | @detach i hi hloc =>
      obtain ⟨hdone, hproc⟩ := h.out i hi (Or.inl hloc)
      refine h.setCpu hi rfl rfl rfl (by simp) (fun j hj _ hcheck hnone => ?_)
        fun _ => ⟨hdone, hproc, fun hall => ?_⟩
      · exact Or.inl (h.idle_of_quiet hdone (h.check j hj hcheck hnone))
      · refine h.idle (Nat.zero_lt_of_lt hi) fun j hj => ?_
        by_cases hji : j = i
        · exact Or.inl (hji ▸ hloc)
        · exact hall j hj hji
  | ldNext hloc hlen =>
      refine h.ldMove rfl rfl (by simp [hloc]) fun _ => Or.inr ?_
      rw [Os.Loading]
      trivial
  | ldDone hloc hlen =>
      refine h.other rfl (fun _ => rfl) (fun _ => Or.inl rfl) (fun _ => rfl) fun _ _ _ hq => ?_
      rcases hq with hidle | hload
      · exact Or.inl hidle
      · rw [Os.Loading, hloc] at hload
        exact absurd hload hlen
  | ldWait hloc => exact h.ldMove rfl rfl (by simp [hloc]) fun _ => Or.inr trivial
  | ldReady hloc => exact h.ldMove rfl rfl (by simp [hloc]) fun _ => Or.inr trivial
  | ldAdd hloc hprog => exact h.ldMove rfl rfl (by simp [hloc]) fun _ => Or.inr trivial
  | @ldEnter again hloc =>
      -- the loader is marked for the slot that is running
      refine h.ldMove rfl rfl (by simp [hloc]) fun _ => Or.inr (Or.inr ?_)
      have hent := hclock.entered_eq cfg.ld_mem_devList (by simp [Os.Waits, hloc])
        (by simp [Os.Gone, hloc])
      simp [Timer.enter, hent]
  | @ldLeave again timer hloc hleave =>
      -- it leaves after the tick only, so it has more to load or nobody relied on it
      refine h.ldMove rfl rfl (by simp [hloc]) fun hq => ?_
      have hent := hclock.entered_of_leave cfg.ld_mem_devList (by simp [Os.Gone, hloc]) hleave
      rcases hq with hidle | hload
      · exact Or.inl hidle
      · right
        rw [Os.Loading, hloc] at hload
        have hlen : s.loaded < cfg.programs.length := hload.resolve_right (by omega)
        cases again with
        | true => trivial
        | false => exact hlen
  | ldDetach hloc =>
      refine h.other rfl (fun hd => hd) (fun _ => Or.inr rfl) (fun _ => rfl) fun _ _ _ hq => ?_
      rcases hq with hidle | hload
      · exact Or.inl hidle
      · rw [Os.Loading, hloc] at hload
        exact hload.elim
  | @timer timer hstep =>
      -- the CPU that is on its way holds back the tick
      refine h.other rfl (fun hd => hd) h.done_ld (fun _ => rfl) fun i hi hloc hq => ?_
      have htime := hclock.time_of_step hi (by simp [Os.Waits, hloc]) (by simp [Os.Gone, hloc]) hstep
      rcases hq with hidle | hload
      · exact Or.inl hidle
      · refine Or.inr (hload.congr rfl rfl ?_ htime)
        cases Timer.move_of_step hstep <;> rfl

end Invariant

/-! ## Runs -/

section Runs

variable {host : Host} {cfg : Config} {s : Os}

theorem OrderlyRun.osRun (h : OrderlyRun host cfg s) : ∃ trace, OsRun host cfg trace s := by
  induction h with
  | boot => exact ⟨[], .boot⟩
  | step _ a _ hstep ih =>
      obtain ⟨trace, hrun⟩ := ih
      exact ⟨_, hrun.step a hstep⟩

/-- **Run.** -/
theorem OrderlyRun.stopInv (h : OrderlyRun host cfg s) : StopInv cfg s := by
  induction h with
  | boot => exact .boot cfg
  | step h a hok hstep ih =>
      obtain ⟨trace, hrun⟩ := h.osRun
      exact ih.move hrun.clockInv hok (Os.move_of_step hstep)

/-- **No process is abandoned in an orderly run.** With a CPU at least, and processes that fit into
    the queues, every state of every run of orderly steps is served. -/
theorem served_of_orderly (hcpus : 0 < cfg.numCpus) (hfits : cfg.Fits)
    (h : OrderlyRun host cfg s) : s.Served cfg := by
  obtain ⟨trace, hrun⟩ := h.osRun
  have hkept := hrun.keptInv hfits
  have hstop := h.stopInv
  refine ⟨fun hall p proc hproc => ?_, fun i hi hloc hproc hdone => ?_⟩
  · have hidle := hstop.idle hcpus fun i hi => Or.inr (hall i hi)
    by_contra hpc
    rcases hkept.kept p proc hproc hpc with ⟨prio, hprio, hmem⟩ | ⟨i, hi, hhand⟩
    · rw [hidle prio hprio] at hmem
      exact absurd hmem List.not_mem_nil
    · have hnone := (hstop.out i hi (Or.inr (hall i hi))).2
      exact absurd (hnone.symm.trans hhand) (by simp)
  · exact hstop.idle_of_quiet hdone (hstop.check i hi hloc hproc)

/-- The run in which the threads take orderly steps in the order given. -/
def Os.orderlySchedule (host : Host) (cfg : Config) (actors : List Actor) : Option Os :=
  actors.foldlM (fun s a => if s.Orderly cfg a then s.step host cfg a else none) (Os.boot cfg)

theorem OrderlyRun.of_schedule {actors : List Actor}
    (h : Os.orderlySchedule host cfg actors = some s) : OrderlyRun host cfg s := by
  unfold Os.orderlySchedule at h
  refine foldlM_invariant ?_ .boot h
  intro s a s' hs hs'
  split at hs'
  · next hok => exact hs.step a hok hs'
  · exact absurd hs' (by simp)

end Runs

/-- After `firstSlot` the time advances, and the loader is done before the CPU goes on. -/
def loaderDone : List Actor :=
  .cpu 0 :: List.replicate 7 .timer ++ [.ld, .ld, .ld, .cpu 0]

/-- A process of two instructions: after the first its slot budget, 1 for the last priority, is used
    up, so the CPU that put it back finds nothing and stops, with the process waiting. -/
theorem not_served_calc_calc :
    let cfg := oneCpu [⟨.calc, 0, 0, 0, 0⟩, ⟨.calc, 0, 0, 0, 0⟩]
    1 ≤ cfg.timeSlot ∧ cfg.Fits ∧
    ∃ trace s, OsRun generousHost cfg trace s ∧ (∀ i < cfg.numCpus, (s.cpus i).loc = .stopped) ∧
      s.pc 1 = 1 ∧ s.sched.waiting 139 = [1] ∧ ¬ s.Served cfg := by
  intro cfg
  let s := (Os.after generousHost cfg
    (firstSlot ++ loaderDone ++ [.cpu 0, .cpu 0, .cpu 0, .cpu 0])).2
  have hstopped : ∀ i < cfg.numCpus, (s.cpus i).loc = .stopped := by decide +kernel
  have hpc : (s.sys.procs 1).map (fun proc => (proc.pc, proc.code.length)) = some (1, 2) := by
    decide +kernel
  refine ⟨by decide, ⟨by decide, by decide⟩, _, s, OsRun.after (by decide +kernel), hstopped, by decide +kernel, by decide +kernel,
    fun hserved => ?_⟩
  obtain ⟨proc, hproc, hpair⟩ := Option.map_eq_some_iff.1 hpc
  have hfin := hserved.finished hstopped 1 proc hproc
  have hpc' : proc.pc = 1 := congrArg Prod.fst hpair
  have hlen : proc.code.length = 2 := congrArg Prod.snd hpair
  omega

end Ossim
