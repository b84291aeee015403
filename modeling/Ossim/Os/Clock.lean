import Ossim.Os.Proofs
import Ossim.Timer.Proofs

set_option autoImplicit false

/-! # The timer of the simulator

The CPUs and the loader use the timer as the barrier theorem wants it: a thread is in `next_slot` or
outside, and calls nothing after `detach_event`. So the invariant of the timer holds in every state of
the simulator, with the marks of a device telling where its thread is. -/

namespace Ossim

/-- The thread of a device is in `next_slot`. -/
def Os.Waits (s : Os) : Dev → Prop
  | .cpu i => (s.cpus i).loc = .slotWait
  | .ld => ∃ again, s.ldLoc = .slotWait again

/-- The thread of a device is detached. -/
def Os.Gone (s : Os) : Dev → Prop
  | .cpu i => (s.cpus i).loc = .stopped
  | .ld => s.ldLoc = .finished

structure ClockInv (cfg : Config) (s : Os) : Prop where
  timer : s.timer.Inv cfg.devList
  inSlot : ∀ d, s.timer.inSlot d = true ↔ s.Waits d
  fsh : ∀ d, s.timer.fsh d = true ↔ s.Gone d

theorem Config.devList_nodup (cfg : Config) : cfg.devList.Nodup := by
  refine List.nodup_cons.2 ⟨by simp, List.nodup_reverse.2 ?_⟩
  exact List.nodup_range.map fun _ _ h => Dev.cpu.inj h

theorem Config.cpu_mem_devList {cfg : Config} {i : ℕ} (h : i < cfg.numCpus) :
    .cpu i ∈ cfg.devList := by
  simp [Config.devList, h]

theorem Config.ld_mem_devList (cfg : Config) : .ld ∈ cfg.devList := List.mem_cons_self

section Invariant

variable {host : Host} {cfg : Config} {s s' : Os} {d : Dev}

theorem ClockInv.boot (cfg : Config) : ClockInv cfg (Os.boot cfg) where
  timer := .start _
  inSlot := fun d => by cases d <;> simp [Os.boot, Timer.start, Os.Waits]
  fsh := fun d => by cases d <;> simp [Os.boot, Timer.start, Os.Gone]

theorem ClockInv.inSlot_false (h : ClockInv cfg s) (hd : ¬ s.Waits d) : s.timer.inSlot d = false :=
  Bool.eq_false_iff.2 fun hc => hd ((h.inSlot d).1 hc)

theorem ClockInv.fsh_false (h : ClockInv cfg s) (hd : ¬ s.Gone d) : s.timer.fsh d = false :=
  Bool.eq_false_iff.2 fun hc => hd ((h.fsh d).1 hc)

/-- Steps outside the timer. -/
theorem ClockInv.congr (h : ClockInv cfg s) (ht : s'.timer = s.timer)
    (hw : ∀ d, s'.Waits d ↔ s.Waits d) (hg : ∀ d, s'.Gone d ↔ s.Gone d) : ClockInv cfg s' := by
  refine ⟨ht ▸ h.timer, fun d => ?_, fun d => ?_⟩
  · rw [ht, hw]
    exact h.inSlot d
  · rw [ht, hg]
    exact h.fsh d

theorem ClockInv.enter (h : ClockInv cfg s) (hd : d ∈ cfg.devList) (ht : s'.timer = s.timer.enter d)
    (hout : ¬ s.Waits d) (hhere : ¬ s.Gone d) (hw : ∀ e, s'.Waits e ↔ e = d ∨ s.Waits e)
    (hg : ∀ e, s'.Gone e ↔ s.Gone e) : ClockInv cfg s' := by
  refine ⟨?_, fun e => ?_, fun e => ?_⟩
  · rw [ht]
    exact h.timer.enter hd (h.inSlot_false hout) (h.fsh_false hhere)
  · rw [ht, hw, Timer.enter, ← h.inSlot e]
    simp only [Function.update_apply]
    split <;> simp_all
  · rw [ht, hg]
    exact h.fsh e

theorem ClockInv.leave (h : ClockInv cfg s) (ht : s.timer.leave d = some s'.timer)
    (hin : s.Waits d) (hw : ∀ e, s'.Waits e ↔ e ≠ d ∧ s.Waits e) (hg : ∀ e, s'.Gone e ↔ s.Gone e) :
    ClockInv cfg s' := by
  obtain ⟨-, heq⟩ := Timer.leave_eq_some ht
  refine ⟨h.timer.leave ((h.inSlot d).2 hin) ht, fun e => ?_, fun e => ?_⟩
  · rw [heq, hw, ← h.inSlot e]
    simp only [Function.update_apply]
    split <;> simp_all
  · rw [heq, hg]
    exact h.fsh e

theorem ClockInv.detach (h : ClockInv cfg s) (ht : s'.timer = s.timer.detach d)
    (hw : ∀ e, s'.Waits e ↔ s.Waits e) (hg : ∀ e, s'.Gone e ↔ e = d ∨ s.Gone e) :
    ClockInv cfg s' := by
  refine ⟨?_, fun e => ?_, fun e => ?_⟩
  · rw [ht]
    exact h.timer.detach d
  · rw [ht, hw]
    exact h.inSlot e
  · rw [ht, hg, Timer.detach, ← h.fsh e]
    simp only [Function.update_apply]
    split <;> simp_all

/-- The timer thread leaves the devices where they are. -/
theorem ClockInv.step (h : ClockInv cfg s) {timer : Timer Dev}
    (hstep : s.timer.step cfg.devList = some timer) : ClockInv cfg { s with timer := timer } := by
  have hmove := Timer.move_of_step hstep
  refine ⟨h.timer.move cfg.devList_nodup hmove, ?_, ?_⟩
  · cases hmove <;> exact h.inSlot
  · cases hmove <;> exact h.fsh

/-! ## Moves -/

/-- The place of one CPU changes. -/
theorem Os.waits_setCpu {s : Os} {i : ℕ} {cpu : Cpu} (d : Dev) :
    (s.setCpu i cpu).Waits d ↔ if d = .cpu i then cpu.loc = .slotWait else s.Waits d := by
  cases d with
  | ld => simp [Os.Waits, Os.setCpu]
  | cpu j =>
      simp only [Os.Waits, Os.setCpu, Function.update_apply, Dev.cpu.injEq]
      split <;> rfl

theorem Os.gone_setCpu {s : Os} {i : ℕ} {cpu : Cpu} (d : Dev) :
    (s.setCpu i cpu).Gone d ↔ if d = .cpu i then cpu.loc = .stopped else s.Gone d := by
  cases d with
  | ld => simp [Os.Gone, Os.setCpu]
  | cpu j =>
      simp only [Os.Gone, Os.setCpu, Function.update_apply, Dev.cpu.injEq]
      split <;> rfl

/-- A CPU moves on within its time slot. -/
theorem ClockInv.setCpu (h : ClockInv cfg s) {i : ℕ} {cpu : Cpu}
    (hold : (s.cpus i).loc ≠ .slotWait ∧ (s.cpus i).loc ≠ .stopped)
    (hnew : cpu.loc ≠ .slotWait ∧ cpu.loc ≠ .stopped) : ClockInv cfg (s.setCpu i cpu) := by
  refine h.congr rfl (fun d => ?_) fun d => ?_
  · rw [Os.waits_setCpu]
    split
    · next hd =>
        subst hd
        exact iff_of_false hnew.1 hold.1
    · rfl
  · rw [Os.gone_setCpu]
    split
    · next hd =>
        subst hd
        exact iff_of_false hnew.2 hold.2
    · rfl

/-- **Step.** -/
theorem ClockInv.move (h : ClockInv cfg s) {a : Actor} (hmove : s.Move host cfg a s') :
    ClockInv cfg s' := by
  cases hmove with
  | first hi hloc hproc =>
      have h' : ClockInv cfg { s with sched := s.sched.getMlqProc.2 } := ⟨h.timer, h.inSlot, h.fsh⟩
      refine h'.setCpu ?_ ?_
      · simp [hloc]
      · simp only
        split <;> simp
  | finish hi hloc hproc hfin =>
      have h' : ClockInv cfg { s with sched := s.sched.getMlqProc.2 } := ⟨h.timer, h.inSlot, h.fsh⟩
      exact h'.setCpu (by simp [hloc]) (by simp)
  | refetch hi hloc =>
      have h' : ClockInv cfg { s with sched := s.sched.getMlqProc.2 } := ⟨h.timer, h.inSlot, h.fsh⟩
      exact h'.setCpu (by simp [hloc]) (by simp)
  | @put i p hi hloc hproc hfin htime =>
      have h' : ClockInv cfg { s with sched := s.sched.putMlqProc p (s.prio p) } :=
        ⟨h.timer, h.inSlot, h.fsh⟩
      exact h'.setCpu (by simp [hloc]) (by simp)
  | @run i p st sys hi hloc hproc hrun =>
      have h' : ClockInv cfg { s with sys := sys } := ⟨h.timer, h.inSlot, h.fsh⟩
      exact h'.setCpu (by simp [hloc]) (by simp)
  | keep hi hloc | stop hi hloc | idle hi hloc | dispatch hi hloc =>
      exact h.setCpu (by simp [hloc]) (by simp)
  | @enter i hi hloc =>
      refine h.enter (Config.cpu_mem_devList hi) rfl (by simp [Os.Waits, hloc])
        (by simp [Os.Gone, hloc]) (fun e => ?_) fun e => ?_
      · rw [Os.waits_setCpu]
        split <;> simp_all [Os.Waits]
      · rw [Os.gone_setCpu]
        split <;> simp_all [Os.Gone]
  | @leave i timer hi hloc hleave =>
      refine h.leave hleave hloc (fun e => ?_) fun e => ?_
      · rw [Os.waits_setCpu]
        split <;> simp_all [Os.Waits]
      · rw [Os.gone_setCpu]
        split <;> simp_all [Os.Gone]
  | @detach i hi hloc =>
      refine h.detach rfl (fun e => ?_) fun e => ?_
      · rw [Os.waits_setCpu]
        split <;> simp_all [Os.Waits]
      · rw [Os.gone_setCpu]
        split <;> simp_all [Os.Gone]
  | ldNext hloc | ldDone hloc | ldWait hloc | ldReady hloc | ldAdd hloc =>
      exact h.congr rfl (fun d => by cases d <;> simp [Os.Waits, hloc])
        fun d => by cases d <;> simp [Os.Gone, hloc]
  | ldEnter hloc =>
      exact h.enter cfg.ld_mem_devList rfl (by simp [Os.Waits, hloc]) (by simp [Os.Gone, hloc])
        (fun d => by cases d <;> simp [Os.Waits]) fun d => by cases d <;> simp [Os.Gone, hloc]
  | @ldLeave again timer hloc hleave =>
      refine h.leave hleave ⟨again, hloc⟩ (fun d => ?_) fun d => ?_
      · cases again <;> cases d <;> simp [Os.Waits]
      · cases again <;> cases d <;> simp [Os.Gone, hloc]
  | ldDetach hloc =>
      exact h.detach rfl (fun d => by cases d <;> simp [Os.Waits, hloc])
        fun d => by cases d <;> simp [Os.Gone]
  | timer hstep => exact h.step hstep

theorem OsRun.clockInv {trace : List (ℕ × ℕ)} (h : OsRun host cfg trace s) : ClockInv cfg s := by
  induction h with
  | boot => exact .boot cfg
  | step _ a hstep ih => exact ih.move (Os.move_of_step hstep)

/-! ## What it says about the threads -/

/-- While a CPU is on its way through a slot, the time does not change. -/
theorem ClockInv.time_of_step (h : ClockInv cfg s) {i : ℕ} (hi : i < cfg.numCpus)
    (hout : ¬ s.Waits (.cpu i)) (hhere : ¬ s.Gone (.cpu i)) {timer : Timer Dev}
    (hstep : s.timer.step cfg.devList = some timer) : timer.time = s.timer.time := by
  by_contra hne
  have hin := (h.timer.at_tick (.timer hstep) hne (Config.cpu_mem_devList hi) (h.fsh_false hhere)).2.1
  exact hout ((h.inSlot _).1 hin)

/-- A thread outside `next_slot` has been there as often as the time says. -/
theorem ClockInv.entered_eq (h : ClockInv cfg s) (hd : d ∈ cfg.devList) (hout : ¬ s.Waits d)
    (hhere : ¬ s.Gone d) : s.timer.entered d = s.timer.time := by
  have hok := h.timer.devs d hd (h.fsh_false hhere)
  have hdone : s.timer.done d ≠ true := fun hc => hout ((h.inSlot d).1 (hok.inSlot_of_done hc))
  have hpend : d ∉ s.timer.pending := fun hmem => hdone (hok.pending hmem).1
  have hcur := hok.current hpend
  rwa [if_neg hdone] at hcur

/-- A thread leaves `next_slot` after the tick only. -/
theorem ClockInv.entered_of_leave (h : ClockInv cfg s) (hd : d ∈ cfg.devList) (hhere : ¬ s.Gone d)
    {timer : Timer Dev} (hleave : s.timer.leave d = some timer) :
    s.timer.entered d = s.timer.time := by
  obtain ⟨hdone, -⟩ := Timer.leave_eq_some hleave
  have hok := h.timer.devs d hd (h.fsh_false hhere)
  have hpend : d ∉ s.timer.pending := fun hmem => by
    rw [(hok.pending hmem).1] at hdone
    exact absurd hdone (by simp)
  have hcur := hok.current hpend
  rwa [hdone] at hcur

end Invariant

end Ossim
