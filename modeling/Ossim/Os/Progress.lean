import Ossim.Lib.Sums
import Ossim.Os.Abandoned
import Ossim.Os.Stuck

set_option autoImplicit false

/-! # The simulator goes on

The threads wait for each other: the CPUs and the loader for the timer to clear their marks, the timer
for their marks. In no state that can be reached do all of them wait (`goes_on`): unless every thread is
at its end, some thread can take a step, if no CPU is in front of an instruction without a defined
outcome. And no threads can go on without the timer: a run of many steps sees many ticks
(`steps_le_ticks`). -/

namespace Ossim

/-! ## Invariants -/

/-- Nobody stops the timer while the threads run. -/
def Timer.NotStopped {D : Type} (t : Timer D) : Prop := t.timerStop = false ∧ t.loc ≠ .exited false

section Invariants

variable {host : Host} {cfg : Config} {s s' : Os} {trace : List (ℕ × ℕ)}

theorem Os.notStopped_move (h : s.timer.NotStopped) {a : Actor} (hmove : s.Move host cfg a s') :
    s'.timer.NotStopped := by
  cases hmove with
  | leave _ _ hleave | ldLeave _ hleave =>
      obtain ⟨-, htimer⟩ := Timer.leave_eq_some hleave
      simp only [Os.setCpu, htimer]
      exact h
  | timer hstep =>
      have hmove := Timer.move_of_step hstep
      rw [Timer.step] at hstep
      cases hmove with
      | stopped hloc => simp [hloc, h.1] at hstep
      | begins | passFsh | passDone | tick | clear | finish | again =>
          exact ⟨h.1, by simp⟩
  | first | finish | put | keep | refetch | stop | idle | dispatch | run | enter | detach | ldNext
  | ldDone | ldWait | ldReady | ldAdd | ldEnter | ldDetach => exact h

theorem OsRun.notStopped (h : OsRun host cfg trace s) : s.timer.NotStopped := by
  induction h with
  | boot => exact ⟨rfl, by simp [Os.boot, Timer.start]⟩
  | step _ a hstep ih => exact Os.notStopped_move ih (Os.move_of_step hstep)

/-- The loader adds programs of the configuration. -/
theorem OsRun.loading (h : OsRun host cfg trace s) (hld : s.ldLoc = .start ∨ s.ldLoc = .add) :
    s.loaded < cfg.programs.length := by
  induction h with
  | boot => simp [Os.boot] at hld
  | @step trace s s' h a hstep ih =>
      cases Os.move_of_step hstep with
      | ldNext hloc hlen => exact hlen
      | ldReady hloc => exact ih (Or.inl hloc)
      | @ldLeave again timer hloc hleave =>
          cases again with
          | true => exact h.ldInv.wait_again hloc
          | false => simp at hld
      | ldDone | ldWait | ldAdd | ldEnter | ldDetach => simp at hld
      | first | finish | put | keep | refetch | stop | idle | dispatch | run | enter | leave | detach
      | timer => exact ih hld

end Invariants

/-! ## Some thread can take a step -/

/-- A CPU is about to execute an instruction without a defined outcome. -/
def Os.Crashes (host : Host) (s : Os) (i : ℕ) : Prop :=
  (s.cpus i).loc = .run ∧ ∃ p, (s.cpus i).proc = some p ∧ s.sys.run host p = none

/-- Every thread is at its end. -/
structure Os.AllEnded (cfg : Config) (s : Os) : Prop where
  cpus : ∀ i < cfg.numCpus, (s.cpus i).loc = .stopped
  ld : s.ldLoc = .finished
  timer : s.timer.loc = .exited true

section Steps

variable {host : Host} {cfg : Config} {s : Os} {trace : List (ℕ × ℕ)}

/-- A CPU that cannot take a step waits in `next_slot`, or is at its end. -/
theorem Os.waits_of_cpu_stuck (hplace : PlaceInv s) {i : ℕ} (hi : i < cfg.numCpus)
    (hcrash : ¬ s.Crashes host i) (hstuck : s.step host cfg (.cpu i) = none) :
    (s.cpus i).loc = .slotWait ∧ s.timer.done (.cpu i) = true ∨ (s.cpus i).loc = .stopped := by
  rw [Os.step, if_pos hi] at hstuck
  simp only [Os.cpuStep] at hstuck
  split at hstuck
  · exact absurd hstuck (by simp)
  · split at hstuck
    · exact absurd hstuck (by simp)
    · split at hstuck <;> exact absurd hstuck (by simp)
  · exact absurd hstuck (by simp)
  · exact absurd hstuck (by simp)
  · exact absurd hstuck (by simp)
  · next hloc hproc => exact absurd hproc (hplace.run_some i hloc)
  · next p hloc hproc =>
      cases hrun : s.sys.run host p with
      | none => exact absurd ⟨hloc, p, hproc, hrun⟩ hcrash
      | some r => simp [hrun] at hstuck
  · exact absurd hstuck (by simp)
  · next hloc =>
      left
      refine ⟨hloc, ?_⟩
      by_contra hmark
      simp [Timer.leave, hmark] at hstuck
  · exact absurd hstuck (by simp)
  · next hloc => exact Or.inr hloc

theorem Os.waits_of_ld_stuck (h : OsRun host cfg trace s) (hstuck : s.step host cfg .ld = none) :
    (∃ again, s.ldLoc = .slotWait again) ∧ s.timer.done .ld = true ∨ s.ldLoc = .finished := by
  rw [Os.step, Os.ldStep] at hstuck
  split at hstuck
  · split at hstuck <;> exact absurd hstuck (by simp)
  · next hloc =>
      have hlt := h.loading (Or.inl hloc)
      simp [List.getElem?_eq_getElem hlt] at hstuck
  · next hloc =>
      have hlt := h.loading (Or.inr hloc)
      simp [List.getElem?_eq_getElem hlt] at hstuck
  · exact absurd hstuck (by simp)
  · next again hloc =>
      left
      refine ⟨⟨again, hloc⟩, ?_⟩
      by_contra hmark
      simp [Timer.leave, hmark] at hstuck
  · exact absurd hstuck (by simp)
  · next hloc => exact Or.inr hloc

/-- A timer that cannot take a step waits for a device without a mark, or is at its end. -/
theorem Os.waits_of_timer_stuck (hstop : s.timer.NotStopped) (hstuck : s.step host cfg .timer = none) :
    (∃ d rest fsh event, s.timer.loc = .wait (d :: rest) fsh event ∧ s.timer.done d = false ∧
      s.timer.fsh d = false) ∨ s.timer.loc = .exited true := by
  rw [Os.step, Option.map_eq_none_iff, Timer.step] at hstuck
  split at hstuck
  · exact absurd hstuck (by simp)
  · next d rest fsh event hloc =>
      split at hstuck
      · exact absurd hstuck (by simp)
      · next hmark => exact Or.inl ⟨d, rest, fsh, event, hloc, by simpa using hmark⟩
  · exact absurd hstuck (by simp)
  · exact absurd hstuck (by simp)
  · exact absurd hstuck (by simp)
  · next allFsh hloc =>
      cases allFsh with
      | true => exact Or.inr hloc
      | false => exact absurd hloc hstop.2

/-- **No deadlock.** In every state of every run some thread can take a step, unless all threads are at
    their ends or a CPU is in front of an instruction without a defined outcome. -/
theorem goes_on (h : OsRun host cfg trace s) :
    (∃ a s', s.step host cfg a = some s') ∨ (∃ i < cfg.numCpus, s.Crashes host i) ∨
      s.AllEnded cfg := by
  by_contra hnot
  rw [not_or, not_or] at hnot
  obtain ⟨hstuck, hcrash, hends⟩ := hnot
  have hnone : ∀ a, s.step host cfg a = none := by
    intro a
    refine Option.eq_none_iff_forall_not_mem.2 fun s' hs' => hstuck ⟨a, s', hs'⟩
  -- a thread that cannot go on waits for the timer or is at its end
  have hcpu : ∀ i < cfg.numCpus,
      (s.cpus i).loc = .slotWait ∧ s.timer.done (.cpu i) = true ∨ (s.cpus i).loc = .stopped :=
    fun i hi => Os.waits_of_cpu_stuck h.placeInv hi (fun hc => hcrash ⟨i, hi, hc⟩) (hnone _)
  have hld := Os.waits_of_ld_stuck h (hnone .ld)
  have hclock := h.clockInv
  have hcounts := hclock.timer.counts
  rcases Os.waits_of_timer_stuck h.notStopped (hnone .timer) with
    ⟨d, rest, fsh, event, hloc, hmark, hhere⟩ | hloc
  · -- the timer waits for a device whose thread could go on
    rw [Timer.CountsOk, hloc] at hcounts
    obtain ⟨passed, hlist, -⟩ := hcounts
    have hd : d ∈ cfg.devList := by simp [hlist]
    cases d with
    | cpu i =>
        have hi : i < cfg.numCpus := by simpa [Config.devList] using hd
        rcases hcpu i hi with ⟨-, hdone⟩ | hstopped
        · rw [hdone] at hmark
          exact absurd hmark (by simp)
        · rw [(hclock.fsh (.cpu i)).2 hstopped] at hhere
          exact absurd hhere (by simp)
    | ld =>
        rcases hld with ⟨-, hdone⟩ | hfinished
        · rw [hdone] at hmark
          exact absurd hmark (by simp)
        · rw [(hclock.fsh .ld).2 hfinished] at hhere
          exact absurd hhere (by simp)
  · -- the timer has stopped, and it does so when all devices are detached
    rw [Timer.CountsOk, hloc] at hcounts
    exact hends ⟨fun i hi => (hclock.fsh (.cpu i)).1 (hcounts _ (Config.cpu_mem_devList hi)),
      (hclock.fsh .ld).1 (hcounts _ cfg.ld_mem_devList), hloc⟩

end Steps

/-- The loader and the only CPU wait in `next_slot`: it is the timer's turn. -/
theorem goes_on_firstSlot :
    let cfg := oneCpu [⟨.calc, 0, 0, 0, 0⟩]
    let s := (Os.after generousHost cfg (firstSlot ++ [.cpu 0])).2
    s.step generousHost cfg (.cpu 0) = none ∧ s.step generousHost cfg .ld = none ∧
      ((∃ a s', s.step generousHost cfg a = some s') ∨
        (∃ i < cfg.numCpus, s.Crashes generousHost i) ∨ s.AllEnded cfg) := by
  intro cfg s
  have hrun : OsRun generousHost cfg _ s := OsRun.after (by decide +kernel)
  exact ⟨Option.isNone_iff_eq_none.1 (by decide +kernel),
    Option.isNone_iff_eq_none.1 (by decide +kernel), goes_on hrun⟩

/-! ## The timer ticks -/

/-- A run, with the number of its steps. -/
inductive OsSteps (host : Host) (cfg : Config) : ℕ → Os → Prop where
  | boot : OsSteps host cfg 0 (Os.boot cfg)
  | step {n : ℕ} {s s' : Os} (h : OsSteps host cfg n s) (a : Actor)
      (hstep : s.step host cfg a = some s') : OsSteps host cfg (n + 1) s'

/-- The steps a CPU can take before it has to wait for the timer, by its place and its mark. -/
def CpuLoc.toGo (mark : Bool) : CpuLoc → ℕ
  | .slotWait => if mark then 0 else 6
  | .top => 5
  | .refetch => 4
  | .check => 3
  | .run => 2
  | .slotEnter | .exit => 1
  | .stopped => 0

/-- The same of the loader. -/
def LdLoc.toGo (mark : Bool) : LdLoc → ℕ
  | .slotWait _ => if mark then 0 else 5
  | .top => 4
  | .start => 3
  | .add => 2
  | .slotEnter _ | .exit => 1
  | .finished => 0

/-- The steps of the timer until the next tick, of `n` devices, with those the devices can take once
    their marks are cleared. -/
def Timer.toGo {D : Type} (n : ℕ) (t : Timer D) : ℕ :=
  match t.loc with
  | .loop => n + 2
  | .wait rest _ _ => rest.length + 1
  | .release rest _ _ => 7 * rest.length + n + 3
  | .exited _ => 0

/-- The steps all threads can take until the next tick. -/
def Os.toGo (cfg : Config) (s : Os) : ℕ :=
  ∑ i ∈ Finset.range cfg.numCpus, (s.cpus i).loc.toGo (s.timer.done (.cpu i)) +
    s.ldLoc.toGo (s.timer.done .ld) + s.timer.toGo cfg.devList.length

/-- The most steps between two ticks. -/
def Config.slotSteps (cfg : Config) : ℕ := 8 * cfg.numCpus + 11

section Ticks

variable {host : Host} {cfg : Config} {s s' : Os} {n : ℕ}

theorem OsSteps.osRun (h : OsSteps host cfg n s) : ∃ trace, OsRun host cfg trace s := by
  induction h with
  | boot => exact ⟨[], .boot⟩
  | step _ a hstep ih =>
      obtain ⟨trace, hrun⟩ := ih
      exact ⟨_, hrun.step a hstep⟩

theorem Os.toGo_cpu {i : ℕ} (hi : i < cfg.numCpus) {cpu : Cpu} {t : Os} (hcpus : t.cpus = s.cpus)
    (hmark : ∀ d, d ≠ .cpu i → t.timer.done d = s.timer.done d) (hld : t.ldLoc = s.ldLoc)
    (hloc : t.timer.loc = s.timer.loc)
    (hlt : cpu.loc.toGo (t.timer.done (.cpu i)) < (s.cpus i).loc.toGo (s.timer.done (.cpu i))) :
    (t.setCpu i cpu).toGo cfg + 1 ≤ s.toGo cfg := by
  have hsum := Sums.sum_add_of_eq_off (i := i)
    (f := fun j => ((t.setCpu i cpu).cpus j).loc.toGo (t.timer.done (.cpu j)))
    (g := fun j => (s.cpus j).loc.toGo (s.timer.done (.cpu j))) (Finset.mem_range.2 hi) ?_
  · have hself : (t.setCpu i cpu).cpus i = cpu := Function.update_self ..
    simp only [hself] at hsum
    have htimer : t.timer.toGo cfg.devList.length = s.timer.toGo cfg.devList.length := by
      rw [Timer.toGo, Timer.toGo, hloc]
    unfold Os.toGo
    change ∑ j ∈ Finset.range cfg.numCpus, ((t.setCpu i cpu).cpus j).loc.toGo (t.timer.done (.cpu j)) +
      t.ldLoc.toGo (t.timer.done .ld) + t.timer.toGo cfg.devList.length + 1 ≤ _
    rw [hld, hmark .ld (by simp), htimer]
    omega
  · intro j _ hj
    have hne : Dev.cpu j ≠ .cpu i := fun heq => hj (Dev.cpu.inj heq)
    simp only [Os.setCpu, Function.update_of_ne hj, hcpus, hmark _ hne]

theorem Os.toGo_ld (hcpus : s'.cpus = s.cpus)
    (hmark : ∀ d, d ≠ .ld → s'.timer.done d = s.timer.done d) (hloc : s'.timer.loc = s.timer.loc)
    (hlt : s'.ldLoc.toGo (s'.timer.done .ld) < s.ldLoc.toGo (s.timer.done .ld)) :
    s'.toGo cfg + 1 ≤ s.toGo cfg := by
  have hsum : ∑ i ∈ Finset.range cfg.numCpus, (s'.cpus i).loc.toGo (s'.timer.done (.cpu i)) =
      ∑ i ∈ Finset.range cfg.numCpus, (s.cpus i).loc.toGo (s.timer.done (.cpu i)) :=
    Finset.sum_congr rfl fun i _ => by rw [hcpus, hmark _ (by simp)]
  rw [Os.toGo, Os.toGo, hsum, Timer.toGo, Timer.toGo, hloc]
  omega

theorem CpuLoc.toGo_false_le (loc : CpuLoc) (mark : Bool) : loc.toGo false ≤ loc.toGo mark + 6 := by
  cases loc <;> cases mark <;> simp [CpuLoc.toGo]

theorem LdLoc.toGo_false_le (loc : LdLoc) (mark : Bool) : loc.toGo false ≤ loc.toGo mark + 6 := by
  cases loc <;> cases mark <;> simp [LdLoc.toGo]

theorem Os.toGo_clear {d : Dev} {rest : List Dev} {fsh event : ℕ}
    (hloc : s.timer.loc = .release (d :: rest) fsh event) :
    ({ s with timer := { s.timer with
      done := Function.update s.timer.done d false, loc := .release rest fsh event } } : Os).toGo cfg + 1 ≤
      s.toGo cfg := by
  -- clearing the mark of `d` puts six more steps in front of its thread and of no other
  have hcpus : ∑ i ∈ Finset.range cfg.numCpus,
      (s.cpus i).loc.toGo (Function.update s.timer.done d false (.cpu i)) ≤
        ∑ i ∈ Finset.range cfg.numCpus, (s.cpus i).loc.toGo (s.timer.done (.cpu i)) +
          if d = .ld then 0 else 6 := by
    cases d with
    | ld =>
        refine Nat.le_of_eq (Finset.sum_congr rfl fun i _ => ?_)
        rw [Function.update_of_ne (by simp)]
    | cpu j =>
        rw [if_neg (by simp)]
        by_cases hj : j ∈ Finset.range cfg.numCpus
        · have hsum := Sums.sum_add_of_eq_off (i := j)
            (f := fun i => (s.cpus i).loc.toGo (Function.update s.timer.done (.cpu j) false (.cpu i)))
            (g := fun i => (s.cpus i).loc.toGo (s.timer.done (.cpu i))) hj fun i _ hij => by
              rw [Function.update_of_ne (by simpa using hij)]
          rw [Function.update_self] at hsum
          have hle := (s.cpus j).loc.toGo_false_le (s.timer.done (.cpu j))
          omega
        · refine Nat.le_add_right_of_le (Nat.le_of_eq (Finset.sum_congr rfl fun i hi => ?_))
          have hij : i ≠ j := fun heq => hj (heq ▸ hi)
          rw [Function.update_of_ne (by simpa using hij)]
  have hld : s.ldLoc.toGo (Function.update s.timer.done d false .ld) ≤
      s.ldLoc.toGo (s.timer.done .ld) + if d = .ld then 6 else 0 := by
    cases d with
    | ld =>
        rw [Function.update_self, if_pos rfl]
        exact s.ldLoc.toGo_false_le _
    | cpu j => rw [Function.update_of_ne (by simp), if_neg (by simp), Nat.add_zero]
  unfold Os.toGo
  simp only [Timer.toGo, hloc, List.length_cons]
  by_cases hd : d = .ld
  · rw [if_pos hd] at hcpus hld
    omega
  · rw [if_neg hd] at hcpus hld
    omega

/-- **Step.** Every step but a tick is one less to go. -/
theorem Os.toGo_move {a : Actor} (hmove : s.Move host cfg a s') :
    s'.toGo cfg + 1 ≤ s.toGo cfg ∧ s'.timer.time = s.timer.time ∨
    s'.toGo cfg + 1 ≤ s.toGo cfg + cfg.slotSteps ∧ s'.timer.time = s.timer.time + 1 := by
  cases hmove with
  | @first i hi hloc hproc =>
      refine Or.inl ⟨Os.toGo_cpu hi rfl (fun _ _ => rfl) rfl rfl ?_, rfl⟩
      simp only [hloc]
      split <;> simp [CpuLoc.toGo]
  | finish hi hloc | put hi hloc | keep hi hloc | refetch hi hloc | stop hi hloc | idle hi hloc
  | dispatch hi hloc | run hi hloc =>
      refine Or.inl ⟨Os.toGo_cpu hi rfl (fun _ _ => rfl) rfl rfl ?_, rfl⟩
      simp [hloc, CpuLoc.toGo]
  | enter hi hloc =>
      refine Or.inl ⟨Os.toGo_cpu hi rfl (fun d hd => Function.update_of_ne hd ..) rfl rfl ?_, rfl⟩
      simp [hloc, CpuLoc.toGo, Timer.enter]
  | leave hi hloc hleave =>
      obtain ⟨hmark, htimer⟩ := Timer.leave_eq_some hleave
      subst htimer
      refine Or.inl ⟨Os.toGo_cpu hi rfl (fun _ _ => rfl) rfl rfl ?_, rfl⟩
      simp [hloc, CpuLoc.toGo, hmark]
  | detach hi hloc =>
      refine Or.inl ⟨Os.toGo_cpu hi rfl (fun _ _ => rfl) rfl rfl ?_, rfl⟩
      simp [hloc, CpuLoc.toGo]
  | ldNext hloc | ldDone hloc | ldWait hloc | ldReady hloc | ldAdd hloc =>
      exact Or.inl ⟨Os.toGo_ld rfl (fun _ _ => rfl) rfl (by simp [hloc, LdLoc.toGo]), rfl⟩
  | ldEnter hloc =>
      refine Or.inl ⟨Os.toGo_ld rfl (fun d hd => Function.update_of_ne hd ..) rfl ?_, rfl⟩
      simp [hloc, LdLoc.toGo, Timer.enter]
  | @ldLeave again timer hloc hleave =>
      obtain ⟨hmark, htimer⟩ := Timer.leave_eq_some hleave
      subst htimer
      refine Or.inl ⟨Os.toGo_ld rfl (fun _ _ => rfl) rfl ?_, rfl⟩
      cases again <;> simp [hloc, LdLoc.toGo, hmark]
  | ldDetach hloc =>
      exact Or.inl ⟨Os.toGo_ld rfl (fun _ _ => rfl) rfl (by simp [hloc, LdLoc.toGo]), rfl⟩
  | timer hstep =>
      cases Timer.move_of_step hstep with
      -- the only step that gives every thread a slot more to go through
      | tick hloc =>
          right
          refine ⟨?_, rfl⟩
          have hlen : cfg.devList.length = cfg.numCpus + 1 := by simp [Config.devList]
          simp only [Os.toGo, Timer.toGo, hloc, hlen, List.length_nil, Config.slotSteps]
          omega
      | clear hloc => exact Or.inl ⟨Os.toGo_clear hloc, rfl⟩
      | stopped hloc | begins hloc | passFsh hloc | passDone hloc | finish hloc | again hloc =>
          refine Or.inl ⟨?_, rfl⟩
          simp only [Os.toGo, Timer.toGo, hloc, List.length_cons, List.length_nil]
          omega

/-- **Run.** -/
theorem OsSteps.add_toGo_le (h : OsSteps host cfg n s) :
    n + s.toGo cfg ≤ cfg.slotSteps * (s.timer.time + 1) := by
  induction h with
  | boot =>
      have hlen : cfg.devList.length = cfg.numCpus + 1 := by simp [Config.devList]
      have hsum : ∑ i ∈ Finset.range cfg.numCpus, (((Os.boot cfg).cpus i).loc.toGo
          ((Os.boot cfg).timer.done (.cpu i))) = cfg.numCpus * 5 := by
        have hconst := Finset.sum_const_nat (s := Finset.range cfg.numCpus) (m := 5)
          (f := fun i => ((Os.boot cfg).cpus i).loc.toGo ((Os.boot cfg).timer.done (.cpu i)))
          fun _ _ => rfl
        rwa [Finset.card_range] at hconst
      rw [Os.toGo, hsum]
      simp only [Os.boot, Timer.start, Timer.toGo, LdLoc.toGo, hlen, Config.slotSteps]
      omega
  | step _ a hstep ih =>
      rcases Os.toGo_move (Os.move_of_step hstep) with ⟨hle, htime⟩ | ⟨hle, htime⟩
      · rw [htime]
        omega
      · rw [htime, Nat.mul_add _ _ 1, Nat.mul_one]
        omega

/-- **No livelock.** A run of `n` steps, whichever threads take them, has seen a tick for every
    `8 * num_cpus + 11` of them. -/
theorem steps_le_ticks (h : OsSteps host cfg n s) : n ≤ cfg.slotSteps * (s.timer.time + 1) :=
  Nat.le_of_add_right_le h.add_toGo_le

/-- A schedule that is a run has as many steps as it lists. -/
theorem OsSteps.of_schedule {actors : List Actor} {r : List (ℕ × ℕ) × Os}
    (h : Os.schedule host cfg actors = some r) : OsSteps host cfg actors.length r.2 := by
  have hfollow : ∀ (actors : List Actor) (n : ℕ) (q : List (ℕ × ℕ) × Os), OsSteps host cfg n q.2 →
      actors.foldlM (fun r a => (r.2.step host cfg a).map fun s => (r.1 ++ r.2.fetches a, s)) q = some r →
      OsSteps host cfg (n + actors.length) r.2 := by
    intro actors
    induction actors with
    | nil =>
        intro n q hq heq
        obtain rfl := Option.some.inj heq
        exact hq
    | cons a actors ih =>
        intro n q hq heq
        rw [List.foldlM_cons] at heq
        obtain ⟨q', hq', heq⟩ := Option.bind_eq_some_iff.1 heq
        obtain ⟨s, hstep, rfl⟩ := Option.map_eq_some_iff.1 hq'
        have hlen : n + (a :: actors).length = n + 1 + actors.length := by
          rw [List.length_cons]
          omega
        rw [hlen]
        exact ih (n + 1) _ (hq.step a hstep) heq
  have hrun := hfollow actors 0 _ .boot h
  rwa [Nat.zero_add] at hrun

theorem OsSteps.after {actors : List Actor} (h : (Os.schedule host cfg actors).isSome = true) :
    OsSteps host cfg actors.length (Os.after host cfg actors).2 := by
  obtain ⟨r, hr⟩ := Option.isSome_iff_exists.1 h
  rw [Os.after, hr]
  exact .of_schedule hr

end Ticks

/-- Sixteen steps, and one tick. -/
theorem steps_le_ticks_nextSlot :
    let cfg := oneCpu [⟨.calc, 0, 0, 0, 0⟩]
    let s := (Os.after generousHost cfg (firstSlot ++ nextSlot)).2
    s.timer.time = 1 ∧ 16 ≤ cfg.slotSteps * (s.timer.time + 1) := by
  intro cfg s
  have hsome : (Os.schedule generousHost cfg (firstSlot ++ nextSlot)).isSome = true := by
    decide +kernel
  exact ⟨by decide +kernel, steps_le_ticks (OsSteps.after hsome)⟩

end Ossim
