import Ossim.Os.Lost

set_option autoImplicit false

/-! # CPUs that never stop

A CPU that finds nothing on its first `get_proc` goes to the next time slot without a look at `done`:
at the end, with the loader done and no process left, it goes round for ever. The CPUs that stop are
those on the other paths, between `put_proc` and `get_proc` or before the test of `done`. So the
simulator comes to its end if and only if no CPU is on the first path when the last process is dropped
or the loader gets done. -/

namespace Ossim

/-! ## The end -/

/-- The loader is done, no process is waiting, and no CPU has one in hands. -/
structure Os.Ended (cfg : Config) (s : Os) : Prop where
  done : s.done = true
  idle : s.sched.Idle
  hands : ∀ i < cfg.numCpus, (s.cpus i).proc = none

/-- One state leads to another by steps of any threads. -/
def Os.Reaches (host : Host) (cfg : Config) : Os → Os → Prop :=
  Relation.ReflTransGen fun s s' => ∃ a, s.step host cfg a = some s'

/-- A CPU has taken its stop branch. -/
def Cpu.Out (cpu : Cpu) : Prop := cpu.loc = .exit ∨ cpu.loc = .stopped

/-- Some continuation takes CPU `i` to its stop branch, or it has been there. -/
def Os.CanStop (host : Host) (cfg : Config) (s : Os) (i : ℕ) : Prop :=
  ∃ t, s.Reaches host cfg t ∧ (t.cpus i).Out

/-- At the end every CPU can stop. -/
def Os.NoneStuck (host : Host) (cfg : Config) (s : Os) : Prop :=
  s.Ended cfg → ∀ i < cfg.numCpus, s.CanStop host cfg i

/-! ## The condition -/

/-- The places on the path of a CPU without a process that does not test `done`. -/
def CpuLoc.Idles : CpuLoc → Prop
  | .top | .slotEnter | .slotWait => True
  | .refetch | .check | .run | .exit | .stopped => False

/-- CPU `i` is about to drop its process: as finished, or into a queue that does not exist. -/
def Os.LetsGo (s : Os) (i : ℕ) : Prop :=
  (s.cpus i).loc = .top ∧ ∃ p ∈ (s.cpus i).proc,
    s.isFinished p = true ∨ (s.cpus i).timeLeft = 0 ∧ ¬ s.prio p < maxPrio

/-- When the step brings about the end, no CPU is idle: the loader gets done with no process left, or
    a CPU drops the last one after that. -/
def Os.NoIdler (cfg : Config) (s : Os) : Actor → Prop
  | .ld => s.ldLoc = .top → ¬ s.loaded < cfg.programs.length → s.sched.Idle →
      (∀ j < cfg.numCpus, (s.cpus j).proc = none) → ∀ j < cfg.numCpus, ¬ (s.cpus j).loc.Idles
  | .cpu i => s.LetsGo i → s.done = true → s.sched.Idle →
      (∀ j < cfg.numCpus, j ≠ i → (s.cpus j).proc = none) →
      ∀ j < cfg.numCpus, j ≠ i → ¬ (s.cpus j).loc.Idles
  | .timer => True

/-! ## Two more invariants -/

/-- The loader is out of its loop when it is done, and a CPU in `run` has a process. -/
structure PlaceInv (s : Os) : Prop where
  done_ld : s.done = true → s.ldLoc = .exit ∨ s.ldLoc = .finished
  run_some : ∀ i, (s.cpus i).loc = .run → (s.cpus i).proc ≠ none

section Places

variable {host : Host} {cfg : Config} {s s' : Os} {trace : List (ℕ × ℕ)}

theorem PlaceInv.setCpu (h : PlaceInv s) {i : ℕ} {cpu : Cpu}
    (hcpus : s'.cpus = Function.update s.cpus i cpu) (hdone : s'.done = s.done)
    (hld : s'.ldLoc = s.ldLoc) (hcpu : cpu.loc = .run → cpu.proc ≠ none) : PlaceInv s' := by
  refine ⟨by rw [hdone, hld]; exact h.done_ld, fun j => ?_⟩
  rw [hcpus, Function.update_apply]
  split
  · exact hcpu
  · exact h.run_some j

theorem PlaceInv.ldMove (h : PlaceInv s) (hcpus : s'.cpus = s.cpus) (hdone : s'.done = s.done)
    (hne : s.ldLoc ≠ .exit ∧ s.ldLoc ≠ .finished) : PlaceInv s' := by
  refine ⟨fun hd => ?_, hcpus ▸ h.run_some⟩
  rcases h.done_ld (hdone ▸ hd) with hld | hld
  · exact absurd hld hne.1
  · exact absurd hld hne.2

theorem PlaceInv.move (h : PlaceInv s) {a : Actor} (hmove : s.Move host cfg a s') : PlaceInv s' := by
  cases hmove with
  | first =>
      refine h.setCpu rfl rfl rfl fun hrun => ?_
      simp only at hrun
      split at hrun <;> simp at hrun
  | dispatch hi hloc hproc => exact h.setCpu rfl rfl rfl fun _ => by simp [hproc]
  | finish | put | keep | refetch | stop | idle | run | enter | leave | detach =>
      exact h.setCpu rfl rfl rfl fun hrun => absurd hrun (by simp)
  | ldNext hloc | ldWait hloc | ldReady hloc | ldAdd hloc | ldEnter hloc | ldLeave hloc =>
      exact h.ldMove rfl rfl (by simp [hloc])
  | ldDone hloc hlen => exact ⟨fun _ => Or.inl rfl, h.run_some⟩
  | ldDetach hloc => exact ⟨fun _ => Or.inr rfl, h.run_some⟩
  | timer => exact ⟨h.done_ld, h.run_some⟩

theorem OsRun.placeInv (h : OsRun host cfg trace s) : PlaceInv s := by
  induction h with
  | boot => exact ⟨by simp [Os.boot], by simp [Os.boot]⟩
  | step _ a hstep ih => exact ih.move (Os.move_of_step hstep)

end Places

/-! ## Nothing changes at the end -/

section Ended

variable {host : Host} {cfg : Config} {s s' : Os} {trace : List (ℕ × ℕ)}

theorem Os.Ended.getProc (h : s.Ended cfg) (i : ℕ) (cpu : Cpu) : (s.getProc i cpu).Ended cfg := by
  refine ⟨h.done, h.idle.getMlqProc, fun j hj => ?_⟩
  by_cases hji : j = i
  · subst hji
    simpa [Os.getProc, Os.setCpu] using h.idle.get_none
  · simpa [Os.getProc, Os.setCpu, Function.update_of_ne hji] using h.hands j hj

theorem Os.Ended.congr (h : s.Ended cfg) (hd : s'.done = s.done) (hw : s'.sched = s.sched)
    (hh : ∀ i, (s'.cpus i).proc = (s.cpus i).proc) : s'.Ended cfg := by
  obtain ⟨h1, h2, h3⟩ := h
  refine ⟨hd ▸ h1, hw ▸ h2, ?_⟩
  simpa only [hh] using h3

theorem Os.Ended.of_update (h : s'.Ended cfg) {i : ℕ} {cpu : Cpu}
    (hcpus : s'.cpus = Function.update s.cpus i cpu) (hproc : cpu.proc = (s.cpus i).proc)
    (hd : s'.done = s.done) (hw : s'.sched = s.sched) : s.Ended cfg := by
  refine h.congr hd.symm hw.symm fun j => ?_
  rw [hcpus, Function.update_apply]
  split
  · next hji => rw [hji, hproc]
  · rfl

theorem Os.Ended.move (h : s.Ended cfg) (hp : PlaceInv s) {a : Actor}
    (hmove : s.Move host cfg a s') : s'.Ended cfg := by
  cases hmove with
  | first hi | refetch hi => exact h.getProc _ _
  | finish hi hloc hproc | put hi hloc hproc | keep hi hloc hproc | dispatch hi hloc hproc
  | run hi hloc hproc => exact absurd ((h.hands _ hi).symm.trans hproc) (by simp)
  | stop | idle | enter | leave | detach => exact h.congr rfl rfl (proc_setCpu rfl)
  | ldNext hloc | ldWait hloc | ldReady hloc | ldAdd hloc | ldEnter hloc | ldLeave hloc
  | ldDone hloc =>
      rcases hp.done_ld h.done with hld | hld
      · exact absurd (hloc.symm.trans hld) (by simp)
      · exact absurd (hloc.symm.trans hld) (by simp)
  | ldDetach | timer => exact h.congr rfl rfl fun _ => rfl

theorem loc_setCpu {s : Os} {i : ℕ} {cpu : Cpu} {L : CpuLoc → Prop} {j : ℕ}
    (h : L (s.cpus j).loc) (hcpu : j = i → L cpu.loc) : L ((s.setCpu i cpu).cpus j).loc := by
  simp only [Os.setCpu, Function.update_apply]
  split
  · next hji => exact hcpu hji
  · exact h

/-- At the end a CPU that is idle stays so, for it finds nothing again. -/
theorem Os.Ended.idles_move (h : s.Ended cfg) {j : ℕ} (hidle : (s.cpus j).loc.Idles) {a : Actor}
    (hmove : s.Move host cfg a s') : (s'.cpus j).loc.Idles := by
  cases hmove with
  | first hi hloc hproc =>
      refine loc_setCpu hidle fun _ => ?_
      simp [h.idle.get_none, CpuLoc.Idles]
  | finish hi hloc hproc | put hi hloc hproc | keep hi hloc hproc | dispatch hi hloc hproc
  | run hi hloc hproc => exact absurd ((h.hands _ hi).symm.trans hproc) (by simp)
  | refetch hi hloc | stop hi hloc | detach hi hloc =>
      refine loc_setCpu hidle fun hji => ?_
      rw [hji, hloc] at hidle
      exact hidle.elim
  | idle | enter | leave => exact loc_setCpu hidle fun _ => trivial
  | ldNext | ldDone | ldWait | ldReady | ldAdd | ldEnter | ldLeave | ldDetach | timer => exact hidle

/-- At the end a CPU that is not idle goes on to stop. -/
theorem Os.Ended.not_idles_move (h : s.Ended cfg) {j : ℕ} (hnot : ¬ (s.cpus j).loc.Idles)
    {a : Actor} (hmove : s.Move host cfg a s') : ¬ (s'.cpus j).loc.Idles := by
  cases hmove with
  | first hi hloc | enter hi hloc | leave hi hloc =>
      refine loc_setCpu (L := fun loc => ¬ loc.Idles) hnot fun hji => ?_
      rw [hji, hloc] at hnot
      exact absurd trivial hnot
  | finish hi hloc hproc | put hi hloc hproc | keep hi hloc hproc | dispatch hi hloc hproc
  | run hi hloc hproc => exact absurd ((h.hands _ hi).symm.trans hproc) (by simp)
  | refetch | stop | detach => exact loc_setCpu (L := fun loc => ¬ loc.Idles) hnot fun _ => id
  | idle hi hloc hproc hdone => exact absurd (h.done.symm.trans hdone) (by simp)
  | ldNext | ldDone | ldWait | ldReady | ldAdd | ldEnter | ldLeave | ldDetach | timer => exact hnot

/-- At the end an idle CPU stays idle in every continuation. -/
theorem Os.Ended.reaches (h : s.Ended cfg) (hp : PlaceInv s) {j : ℕ}
    (hidle : (s.cpus j).loc.Idles) {t : Os} (hreach : s.Reaches host cfg t) :
    t.Ended cfg ∧ PlaceInv t ∧ (t.cpus j).loc.Idles := by
  induction hreach with
  | refl => exact ⟨h, hp, hidle⟩
  | tail _ hstep ih =>
      obtain ⟨hended, hplace, hidles⟩ := ih
      obtain ⟨a, ha⟩ := hstep
      have hmove := Os.move_of_step ha
      exact ⟨hended.move hplace hmove, hplace.move hmove, hended.idles_move hidles hmove⟩

/-- **An idle CPU never stops.** -/
theorem Os.Ended.not_canStop (h : s.Ended cfg) (hp : PlaceInv s) {j : ℕ}
    (hidle : (s.cpus j).loc.Idles) : ¬ s.CanStop host cfg j := by
  rintro ⟨t, hreach, hout⟩
  obtain ⟨-, -, hidles⟩ := h.reaches hp hidle hreach
  rcases hout with hloc | hloc
  · rw [hloc] at hidles
    exact hidles
  · rw [hloc] at hidles
    exact hidles

/-- A CPU before its test of `done` takes the stop branch. -/
theorem Os.canStop_of_check {i : ℕ} (hi : i < cfg.numCpus) (hdone : s.done = true)
    (hloc : (s.cpus i).loc = .check) (hproc : (s.cpus i).proc = none) : s.CanStop host cfg i := by
  have hstep : s.step host cfg (.cpu i) = some (s.setCpu i { s.cpus i with loc := .exit }) := by
    simp [Os.step, hi, Os.cpuStep, hloc, hproc, hdone]
  exact ⟨_, .single ⟨.cpu i, hstep⟩, Or.inl (by simp [Os.setCpu])⟩

/-- **The other CPUs can stop.** -/
theorem Os.Ended.canStop (h : s.Ended cfg) (hp : PlaceInv s) {i : ℕ} (hi : i < cfg.numCpus)
    (hnot : ¬ (s.cpus i).loc.Idles) : s.CanStop host cfg i := by
  have hnone := h.hands i hi
  cases hloc : (s.cpus i).loc with
  | top | slotEnter | slotWait =>
      rw [hloc] at hnot
      exact absurd trivial hnot
  | refetch =>
      have hstep : s.step host cfg (.cpu i) = some (s.getProc i { s.cpus i with loc := .check }) := by
        simp [Os.step, hi, Os.cpuStep, hloc]
      have hended : (s.getProc i { s.cpus i with loc := .check }).Ended cfg := h.getProc _ _
      have hstops : (s.getProc i { s.cpus i with loc := .check }).CanStop host cfg i :=
        Os.canStop_of_check hi hended.done (by simp [Os.getProc, Os.setCpu]) (hended.hands i hi)
      obtain ⟨t, hreach, hout⟩ := hstops
      exact ⟨t, .head ⟨.cpu i, hstep⟩ hreach, hout⟩
  | check => exact Os.canStop_of_check hi h.done hloc hnone
  | run => exact absurd hnone (hp.run_some i hloc)
  | exit => exact ⟨s, .refl, Or.inl hloc⟩
  | stopped => exact ⟨s, .refl, Or.inr hloc⟩

/-- At the end, all CPUs can stop if and only if none is idle. -/
theorem Os.noneStuck_iff (hp : PlaceInv s) :
    s.NoneStuck host cfg ↔ (s.Ended cfg → ∀ i < cfg.numCpus, ¬ (s.cpus i).loc.Idles) :=
  ⟨fun h hended i hi hidle => hended.not_canStop hp hidle (h hended i hi),
    fun h hended i hi => hended.canStop hp hi (h hended i hi)⟩

end Ended

/-! ## How the end comes about -/

section Steps

variable {host : Host} {cfg : Config} {s s' : Os} {trace : List (ℕ × ℕ)}

theorem Os.ended_of_getProc {i : ℕ} (hnone : (s.cpus i).proc = none) {cpu : Cpu}
    (h : (s.getProc i cpu).Ended cfg) (hi : i < cfg.numCpus) : s.Ended cfg := by
  have hget : s.sched.getMlqProc.1 = none := by
    simpa [Os.getProc, Os.setCpu] using h.hands i hi
  refine ⟨h.done, h.idle.of_get hget, fun j hj => ?_⟩
  · by_cases hji : j = i
    · exact hji ▸ hnone
    · simpa [Os.getProc, Os.setCpu, Function.update_of_ne hji] using h.hands j hj

/-- A process put back is waiting, unless there is no queue for it. -/
theorem Sched.not_idle_put {sched : Sched ℕ} {p prio : ℕ} (hprio : prio < maxPrio) :
    ¬ (sched.putMlqProc p prio).Idle := by
  intro hidle
  have hnil := hidle prio hprio
  rw [Sched.putMlqProc_waiting, Function.update_self] at hnil
  rcases Sched.enqueue_cases (sched.mlqReadyQueue prio) p with heq | ⟨hfull, heq⟩
  · exact absurd (heq.symm.trans hnil) (by simp)
  · rw [← heq, hnil] at hfull
    exact absurd hfull (by decide)

theorem Sched.idle_put {sched : Sched ℕ} {p prio : ℕ} (hprio : ¬ prio < maxPrio) :
    (sched.putMlqProc p prio).Idle ↔ sched.Idle := by
  have hsame : ∀ q < maxPrio, (sched.putMlqProc p prio).waiting q = sched.waiting q := by
    intro q hq
    have hne : q ≠ prio := by
      rintro rfl
      exact hprio hq
    rw [Sched.putMlqProc_waiting, Function.update_of_ne hne]
  exact forall₂_congr fun q hq => by rw [hsame q hq]

theorem Os.NoIdler.setCpu {i : ℕ} (hok : s.NoIdler cfg (.cpu i)) (hgo : s.LetsGo i)
    (hdone : s.done = true) (hidle : s.sched.Idle) {cpu : Cpu} (hcpus : s'.cpus = Function.update s.cpus i cpu)
    (hcpu : ¬ cpu.loc.Idles) (hhands : ∀ j < cfg.numCpus, (s'.cpus j).proc = none) (j : ℕ)
    (hj : j < cfg.numCpus) : ¬ (s'.cpus j).loc.Idles := by
  rw [hcpus, Function.update_apply]
  split
  · exact hcpu
  · next hji =>
      refine hok hgo hdone hidle (fun k hk hki => ?_) j hj hji
      have hnone := hhands k hk
      rwa [hcpus, Function.update_of_ne hki] at hnone

/-- **Step.** If no CPU was idle at the end, none is. -/
theorem Os.not_idles_step (hp : PlaceInv s)
    (hrefetch : ∀ i, (s.cpus i).loc = .refetch → (s.cpus i).proc = none)
    (h : s.Ended cfg → ∀ i < cfg.numCpus, ¬ (s.cpus i).loc.Idles) {a : Actor}
    (hok : s.NoIdler cfg a) (hmove : s.Move host cfg a s') (hended : s'.Ended cfg) (j : ℕ)
    (hj : j < cfg.numCpus) : ¬ (s'.cpus j).loc.Idles := by
  by_cases hs : s.Ended cfg
  · exact hs.not_idles_move (h hs j hj) hmove
  · -- the end has just come about
    cases hmove with
    | first hi hloc hproc => exact absurd (Os.ended_of_getProc hproc hended hi) hs
    | @refetch i hi hloc => exact absurd (Os.ended_of_getProc (hrefetch i hloc) hended hi) hs
    | @finish i p hi hloc hproc hfin =>
        have hget : s.sched.getMlqProc.1 = none := by
          simpa [Os.getProc, Os.setCpu] using hended.hands i hi
        exact hok.setCpu ⟨hloc, p, hproc, Or.inl hfin⟩ hended.done (hended.idle.of_get hget) rfl id
          hended.hands j hj
    | @put i p hi hloc hproc hfin htime =>
        by_cases hprio : s.prio p < maxPrio
        · exact absurd hended.idle (Sched.not_idle_put hprio)
        · exact hok.setCpu ⟨hloc, p, hproc, Or.inr ⟨htime, hprio⟩⟩ hended.done
            ((Sched.idle_put hprio).1 hended.idle) rfl id hended.hands j hj
    | @keep i p hi hloc hproc | @dispatch i p hi hloc hproc | @run i p st sys hi hloc hproc =>
        have hnone := hended.hands i hi
        simp only [Os.setCpu, Function.update_self, hproc] at hnone
        exact absurd hnone (by simp)
    | stop hi hloc hproc | idle hi hloc hproc | enter hi hloc | leave hi hloc | detach hi hloc =>
        exact (hs (hended.of_update rfl rfl rfl rfl)).elim
    | ldDone hloc hlen => exact hok hloc hlen hended.idle hended.hands j hj
    | ldAdd hloc hprog =>
        rcases hp.done_ld hended.done with hld | hld
        · exact absurd (hloc.symm.trans hld) (by simp)
        · exact absurd (hloc.symm.trans hld) (by simp)
    | ldNext | ldWait | ldReady | ldEnter | ldLeave | ldDetach | timer =>
        exact (hs (hended.congr rfl rfl fun _ => rfl)).elim

/-- A CPU lets go of the last process after the loader got done. -/
theorem Os.ended_of_letsGo {i : ℕ} (hgo : s.LetsGo i) (hdone : s.done = true)
    (hidle : s.sched.Idle) (hhands : ∀ j < cfg.numCpus, j ≠ i → (s.cpus j).proc = none)
    (hmove : s.Move host cfg (.cpu i) s') : s'.Ended cfg := by
  obtain ⟨hloc, p, hproc, hwhy⟩ := hgo
  have hproc : (s.cpus i).proc = some p := hproc
  cases hmove with
  | finish hi =>
      refine ⟨hdone, hidle.getMlqProc, fun j hj => ?_⟩
      by_cases hji : j = i
      · subst hji
        simpa [Os.getProc, Os.setCpu] using hidle.get_none
      · simpa [Os.getProc, Os.setCpu, Function.update_of_ne hji] using hhands j hj hji
  | @put _ q hi _ hq hfin =>
      obtain rfl : p = q := Option.some.inj (hproc.symm.trans hq)
      rw [hfin] at hwhy
      have hprio : ¬ s.prio p < maxPrio := (hwhy.resolve_left (by simp)).2
      refine ⟨hdone, (Sched.idle_put hprio).2 hidle, fun j hj => ?_⟩
      by_cases hji : j = i
      · subst hji
        simp [Os.setCpu]
      · simpa [Os.setCpu, Function.update_of_ne hji] using hhands j hj hji
  | @keep _ q hi _ hq hfin htime =>
      obtain rfl : p = q := Option.some.inj (hproc.symm.trans hq)
      rw [hfin] at hwhy
      exact absurd (hwhy.resolve_left (by simp)).1 htime
  | first hi _ hnone => exact absurd (hproc.symm.trans hnone) (by simp)
  | refetch _ hl | stop _ hl | idle _ hl | dispatch _ hl | run _ hl | enter _ hl | leave _ hl
  | detach _ hl => exact absurd (hloc.symm.trans hl) (by simp)

theorem Os.loc_of_ne {i j : ℕ} (hji : j ≠ i) (hmove : s.Move host cfg (.cpu i) s') :
    (s'.cpus j).loc = (s.cpus j).loc := by
  cases hmove <;> simp [Os.getProc, Os.setCpu, Function.update_of_ne hji]

/-- **The condition is exact.** A step that brings about the end while a CPU is idle leaves it stuck. -/
theorem Os.not_noneStuck_of_step (hp : PlaceInv s) {a : Actor}
    (hstep : s.step host cfg a = some s') (hnot : ¬ s.NoIdler cfg a) :
    ¬ s'.NoneStuck host cfg := by
  have hmove := Os.move_of_step hstep
  intro hstuck
  have hplace := hp.move hmove
  cases a with
  | cpu i =>
      simp only [Os.NoIdler, not_forall, not_not] at hnot
      obtain ⟨hgo, hdone, hidle, hhands, j, hj, hji, hloc⟩ := hnot
      have hended := Os.ended_of_letsGo hgo hdone hidle hhands hmove
      rw [← Os.loc_of_ne hji hmove] at hloc
      exact hended.not_canStop hplace hloc (hstuck hended j hj)
  | ld =>
      simp only [Os.NoIdler, not_forall, not_not] at hnot
      obtain ⟨hloc, hlen, hidle, hhands, j, hj, hidles⟩ := hnot
      have hs' : s' = { s with ldLoc := .exit, done := true } := by
        simp only [Os.step, Os.ldStep, hloc, if_neg hlen, Option.some.injEq] at hstep
        exact hstep.symm
      have hended : s'.Ended cfg := by
        rw [hs']
        exact ⟨rfl, hidle, hhands⟩
      refine hended.not_canStop hplace (j := j) ?_ (hstuck hended j hj)
      rw [hs']
      exact hidles
  | timer => exact hnot trivial

end Steps

/-! ## Runs -/

section Runs

variable {host : Host} {cfg : Config} {s : Os}

/-- **Run.** -/
theorem OsRunIf.not_idles (h : OsRunIf (Os.NoIdler cfg) host cfg s) :
    s.Ended cfg → ∀ i < cfg.numCpus, ¬ (s.cpus i).loc.Idles := by
  induction h with
  | boot => exact fun hended => absurd hended.done (by simp [Os.boot])
  | step h a hok hstep ih =>
      obtain ⟨trace, hrun⟩ := h.osRun
      exact Os.not_idles_step hrun.placeInv hrun.refetch_none ih hok (Os.move_of_step hstep)

theorem OsRunIf.noneStuck (h : OsRunIf (Os.NoIdler cfg) host cfg s) : s.NoneStuck host cfg := by
  obtain ⟨trace, hrun⟩ := h.osRun
  exact (Os.noneStuck_iff hrun.placeInv).2 h.not_idles

/-- **When no CPU is stuck at the end.** For any number of CPUs and any processes: as long as no CPU
    is idle when the loader gets done with no process left, or when a CPU drops the last process after
    that, every CPU can stop at the end; a step that does not meet the condition leaves a CPU that
    never stops. So no CPU is stuck in any run if and only if all steps of all runs meet it. -/
theorem none_stuck_iff :
    (∀ s, OsRunIf (Os.NoIdler cfg) host cfg s → s.NoneStuck host cfg ∧
      ∀ a s', s.step host cfg a = some s' → (s'.NoneStuck host cfg ↔ s.NoIdler cfg a)) ∧
    ((∀ trace s, OsRun host cfg trace s → s.NoneStuck host cfg) ↔
      ∀ trace s a s', OsRun host cfg trace s → s.step host cfg a = some s' → s.NoIdler cfg a) := by
  refine OsRunIf.holds_iff (fun s h => h.noneStuck) fun s a s' h hstep hnot => ?_
  obtain ⟨trace, hrun⟩ := h.osRun
  exact Os.not_noneStuck_of_step hrun.placeInv hstep hnot

end Runs

/-- Two CPUs and one process, which CPU 0 takes. -/
def twoCpus : Config where
  timeSlot := 1
  numCpus := 2
  programs := [⟨[⟨.calc, 0, 0, 0, 0⟩], 0, 0, fun _ => 0⟩]
  krnl := ⟨pagesDevice 1, pagesDevice 1, initMm⟩

/-- CPU 0 runs the process in the first time slot and drops it in the second, after the loader got
    done; CPU 1 finds nothing. -/
def twoCpusActors : List Actor :=
  firstSlot ++ [.cpu 0, .cpu 1, .cpu 1] ++ List.replicate 9 .timer ++
    [.ld, .ld, .ld, .cpu 0, .cpu 0, .cpu 1]

/-- CPU 1 never stops. -/
theorem not_none_stuck_twoCpus :
    ∃ trace s, OsRun generousHost twoCpus trace s ∧ s.Ended twoCpus ∧ (s.cpus 1).loc = .top ∧
      ¬ s.CanStop generousHost twoCpus 1 ∧ ¬ s.NoneStuck generousHost twoCpus := by
  let s := (Os.after generousHost twoCpus twoCpusActors).2
  have hrun : OsRun generousHost twoCpus _ s := OsRun.after (by decide +kernel)
  have hloc : (s.cpus 1).loc = .top := by decide +kernel
  have hended : s.Ended twoCpus := ⟨by decide +kernel, by decide +kernel, by decide +kernel⟩
  have hnot : ¬ s.CanStop generousHost twoCpus 1 :=
    hended.not_canStop hrun.placeInv (by rw [hloc]; trivial)
  exact ⟨_, s, hrun, hended, hloc, hnot, fun hstuck => hnot (hstuck hended 1 (by decide))⟩

end Ossim
