import Ossim.Os.Clock
import Ossim.Os.Scheduling

set_option autoImplicit false

/-! # No process starves

A CPU in its loop passes `next_slot` at most `time_slot` times between two calls of `get_proc`: its
`credit` is what it may still pass, and `get_proc` is the only step that raises it. By the barrier of
the timer the time goes on no faster than each CPU passes. So the time a process waits in its queue is
bounded by the calls of `get_proc` it waits for, `time_slot` time slots each. -/

namespace Ossim

/-! ## Credit -/

/-- The times the CPU may enter `next_slot` before it calls `get_proc`. -/
def Cpu.credit (ts : ℤ) (cpu : Cpu) : ℤ :=
  match cpu.loc, cpu.proc with
  | .check, none => 1
  | .check, some _ => if cpu.timeLeft = 0 then ts else cpu.timeLeft
  | .slotEnter, _ => cpu.timeLeft + 1
  | _, _ => cpu.timeLeft

/-- The time left of a CPU in its loop. -/
structure Cpu.Timed (ts : ℤ) (cpu : Cpu) : Prop where
  nonneg : 0 ≤ cpu.timeLeft
  credit_le : cpu.credit ts ≤ ts
  none_zero : cpu.proc = none → cpu.timeLeft = 0
  run_pos : cpu.loc = .run → 1 ≤ cpu.timeLeft

section Credit

variable {ts : ℤ} {cpu cpu' : Cpu}

theorem Cpu.credit_nonneg (hts : 1 ≤ ts) (h : cpu.Timed ts) : 0 ≤ cpu.credit ts := by
  have hpos := h.nonneg
  unfold Cpu.credit
  split
  · omega
  · split <;> omega
  · omega
  · exact hpos

theorem Cpu.timed_got (hts : 1 ≤ ts) (hzero : cpu.timeLeft = 0)
    (hloc : cpu.loc = .check ∨ cpu.loc = .slotEnter) : cpu.Timed ts := by
  have hcredit : cpu.credit ts ≤ ts := by
    unfold Cpu.credit
    split
    · exact hts
    · rw [if_pos hzero]
    · omega
    · omega
  exact ⟨by omega, hcredit, fun _ => hzero, fun hrun => by rcases hloc with h | h <;> simp [h] at hrun⟩

theorem Cpu.Timed.goOn (h : cpu.Timed ts) (hnonneg : 0 ≤ cpu'.timeLeft)
    (hcredit : cpu'.credit ts ≤ cpu.credit ts) (hnone : cpu'.proc = none → cpu'.timeLeft = 0)
    (hrun : cpu'.loc = .run → 1 ≤ cpu'.timeLeft) : cpu'.Timed ts :=
  ⟨hnonneg, hcredit.trans h.credit_le, hnone, hrun⟩

end Credit

/-! ## The steps of one CPU -/

/-- What CPU `i` has spent in `next_slot`, and may still spend. -/
def Os.spent (cfg : Config) (s : Os) (i : ℕ) : ℤ :=
  s.timer.entered (.cpu i) + (s.cpus i).credit cfg.timeSlot

section Steps

variable {host : Host} {cfg : Config} {s s' : Os} {i : ℕ}

theorem Os.spent_getProc (hts : 1 ≤ cfg.timeSlot) (h : (s.cpus i).Timed cfg.timeSlot) {cpu : Cpu}
    (hzero : cpu.timeLeft = 0) (hloc : cpu.loc = .check ∨ cpu.loc = .slotEnter)
    (hcalls : s.schedCalls cfg (.cpu i) = [.get]) :
    ((s.getProc i cpu).cpus i).Timed cfg.timeSlot ∧
      (s.getProc i cpu).spent cfg i ≤
        s.spent cfg i + cfg.timeSlot * numGets (s.schedCalls cfg (.cpu i)) := by
  have hold := Cpu.credit_nonneg hts h
  have htimed : ({ cpu with proc := s.sched.getMlqProc.1 } : Cpu).Timed cfg.timeSlot :=
    Cpu.timed_got hts hzero hloc
  have hnew := htimed.credit_le
  have hself : (s.getProc i cpu).cpus i = { cpu with proc := s.sched.getMlqProc.1 } :=
    Os.setCpu_self ..
  have hone : numGets (s.schedCalls cfg (.cpu i)) = 1 := by rw [hcalls]; rfl
  have htimer : (s.getProc i cpu).timer = s.timer := rfl
  rw [Os.spent, Os.spent, hself, hone, htimer]
  refine ⟨htimed, ?_⟩
  omega

theorem Os.spent_goOn (h : (s.cpus i).Timed cfg.timeSlot) (hnonneg : 0 ≤ (s'.cpus i).timeLeft)
    (hcredit : (s'.cpus i).credit cfg.timeSlot ≤ (s.cpus i).credit cfg.timeSlot)
    (hnone : (s'.cpus i).proc = none → (s'.cpus i).timeLeft = 0)
    (hrun : (s'.cpus i).loc = .run → 1 ≤ (s'.cpus i).timeLeft) (htimer : s'.timer.entered (.cpu i) = s.timer.entered (.cpu i))
    (hcalls : numGets (s.schedCalls cfg (.cpu i)) = 0) :
    (s'.cpus i).Timed cfg.timeSlot ∧ s'.spent cfg i ≤
      s.spent cfg i + cfg.timeSlot * numGets (s.schedCalls cfg (.cpu i)) := by
  refine ⟨h.goOn hnonneg hcredit hnone hrun, ?_⟩
  rw [Os.spent, Os.spent, hcalls, htimer]
  omega

/-- The credit of a CPU is spent by entering `next_slot`, and renewed by `get_proc` only. -/
theorem Os.spent_cpuStep (hts : 1 ≤ cfg.timeSlot)
    (hrefetch : (s.cpus i).loc = .refetch → (s.cpus i).proc = none)
    (h : (s.cpus i).Timed cfg.timeSlot) (hi : i < cfg.numCpus)
    (hstep : s.cpuStep host cfg i = some s') (hin : ¬ (s'.cpus i).Out) :
    (s'.cpus i).Timed cfg.timeSlot ∧ s'.spent cfg i ≤
      s.spent cfg i + cfg.timeSlot * numGets (s.schedCalls cfg (.cpu i)) := by
  have hnonneg := h.nonneg
  cases Os.move_of_cpuStep hi hstep with
  | first _ hloc hproc =>
      -- a call of `get_proc` pays for a whole time slot, whether it delivers or not
      refine Os.spent_getProc hts h (h.none_zero hproc) ?_ (by simp [Os.schedCalls, hloc, hproc])
      simp only
      split <;> simp
  | finish _ hloc hproc hfin =>
      exact Os.spent_getProc hts h rfl (Or.inl rfl) (by simp [Os.schedCalls, hloc, hproc, hfin])
  | refetch _ hloc =>
      exact Os.spent_getProc hts h (h.none_zero (hrefetch hloc)) (Or.inl rfl) (by simp [Os.schedCalls, hloc])
  | put _ hloc hproc hfin htime =>
      refine Os.spent_goOn h ?_ ?_ ?_ ?_ rfl (by simp [Os.schedCalls, hloc, hproc, hfin, htime, numGets, SchedCall.isGet])
      all_goals simp [Os.setCpu_self, Cpu.credit, hloc, htime]
  | keep _ hloc hproc hfin htime =>
      refine Os.spent_goOn h ?_ ?_ ?_ ?_ rfl (by simp [Os.schedCalls, hloc, hproc, hfin, htime, numGets])
      all_goals simp [Os.setCpu_self, Cpu.credit, hloc, hproc, htime, hnonneg]
  | stop _ hloc hproc hdone => exact absurd (Or.inl (by rw [Os.setCpu_self])) hin
  | idle _ hloc hproc hdone =>
      have hzero := h.none_zero hproc
      refine Os.spent_goOn h ?_ ?_ ?_ ?_ rfl (by simp [Os.schedCalls, hloc, numGets])
      all_goals simp [Os.setCpu_self, Cpu.credit, hloc, hproc, hzero]
  | dispatch _ hloc hproc timeLeft =>
      have htime := Os.timeLeft_of_dispatch hloc hproc hstep
      rw [Os.setCpu_self] at htime
      simp only at htime
      refine Os.spent_goOn h ?_ ?_ ?_ ?_ rfl (by simp [Os.schedCalls, hloc, numGets])
      · rw [Os.setCpu_self, htime]
        simp only
        split <;> omega
      · simp [Os.setCpu_self, Cpu.credit, hloc, hproc, htime]
      · simp [Os.setCpu_self, hproc]
      · intro _
        rw [Os.setCpu_self, htime]
        simp only
        split <;> omega
  | run _ hloc hproc hrun =>
      have hpos := h.run_pos hloc
      refine Os.spent_goOn h ?_ ?_ ?_ ?_ rfl (by simp [Os.schedCalls, hloc, numGets])
      · rw [Os.setCpu_self]
        simp only
        omega
      all_goals simp [Os.setCpu_self, Cpu.credit, hloc, hproc]
  | enter _ hloc =>
      -- the one step that spends: it marks the CPU in the timer
      refine ⟨?_, ?_⟩
      · refine h.goOn ?_ ?_ ?_ ?_
        · simpa [Os.setCpu_self] using hnonneg
        · simp [Os.setCpu_self, Cpu.credit, hloc]
        · simpa [Os.setCpu_self] using h.none_zero
        · simp [Os.setCpu_self]
      · simp [Os.spent, Os.setCpu, Os.schedCalls, hloc, numGets, Cpu.credit, Timer.enter]
        omega
  | leave _ hloc hleave =>
      obtain ⟨-, htimer⟩ := Timer.leave_eq_some hleave
      refine Os.spent_goOn h ?_ ?_ ?_ ?_ ?_ (by simp [Os.schedCalls, hloc, numGets])
      · simpa [Os.setCpu_self] using hnonneg
      · simp [Os.setCpu_self, Cpu.credit, hloc]
      · simpa [Os.setCpu_self] using h.none_zero
      · simp [Os.setCpu_self]
      · simp [Os.setCpu, htimer]
  | detach _ hloc => exact absurd (Or.inr (by rw [Os.setCpu_self])) hin

/-- A CPU that is in its loop after a step was there before. -/
theorem Os.in_of_move {a : Actor} (hh : HoldersInv s) (hmove : s.Move host cfg a s')
    (hin : ¬ (s'.cpus i).Out) : ¬ (s.cpus i).Out := by
  intro hout
  by_cases ha : a = .cpu i
  · subst ha
    cases hmove with
    | detach _ hloc => exact hin (Or.inr (by rw [Os.setCpu_self]))
    | first _ hloc | finish _ hloc | put _ hloc | keep _ hloc | refetch _ hloc | stop _ hloc | idle _ hloc
    | dispatch _ hloc | run _ hloc | enter _ hloc | leave _ hloc =>
        rcases hout with hout | hout <;> simp [hloc] at hout
  · rw [(Os.others_move hh ha hmove).1] at hin
    exact hin hout

theorem Os.spent_others (hh : HoldersInv s) {a : Actor} (ha : a ≠ .cpu i) (hmove : s.Move host cfg a s') :
    s'.cpus i = s.cpus i ∧ s'.spent cfg i = s.spent cfg i := by
  have hcpu := (Os.others_move hh ha hmove).1
  have hentered : s'.timer.entered (.cpu i) = s.timer.entered (.cpu i) := by
    cases hmove with
    | @enter j _ hloc =>
        have hne : Dev.cpu i ≠ .cpu j := by
          rintro heq
          exact ha (by rw [Dev.cpu.inj heq])
        exact Function.update_of_ne hne ..
    | leave _ hloc hleave | ldLeave hloc hleave =>
        obtain ⟨-, htimer⟩ := Timer.leave_eq_some hleave
        simp [Os.setCpu, htimer]
    | ldEnter hloc =>
        have hne : Dev.cpu i ≠ .ld := by simp
        exact Function.update_of_ne hne (s.timer.entered .ld + 1) s.timer.entered
    | timer hstep => cases Timer.move_of_step hstep <;> rfl
    | first | finish | put | keep | refetch | stop | idle | dispatch | run | detach | ldNext | ldDone
    | ldWait | ldReady | ldAdd | ldDetach => rfl
  exact ⟨hcpu, by rw [Os.spent, Os.spent, hcpu, hentered]⟩

/-- **Step.** -/
theorem Os.spent_step (hts : 1 ≤ cfg.timeSlot) {trace : List (ℕ × ℕ)} (hrun : OsRun host cfg trace s)
    (h : (s.cpus i).Timed cfg.timeSlot) (hi : i < cfg.numCpus) {a : Actor}
    (hstep : s.step host cfg a = some s') (hin : ¬ (s'.cpus i).Out) :
    (s'.cpus i).Timed cfg.timeSlot ∧ s'.spent cfg i ≤
      s.spent cfg i + cfg.timeSlot * numGets (s.schedCalls cfg a) := by
  by_cases ha : a = .cpu i
  · subst ha
    rw [Os.step, if_pos hi] at hstep
    exact Os.spent_cpuStep hts (hrun.refetch_none i) h hi hstep hin
  · obtain ⟨hcpu, hspent⟩ := Os.spent_others hrun.holdersInv ha (Os.move_of_step hstep)
    have hpos : 0 ≤ cfg.timeSlot * numGets (s.schedCalls cfg a) :=
      Int.mul_nonneg (by omega) (Int.natCast_nonneg _)
    exact ⟨hcpu ▸ h, by omega⟩

end Steps

/-! ## Runs -/

section Runs

variable {host : Host} {cfg : Config} {s t : Os} {trace : List (ℕ × ℕ)} {i p : ℕ}
  {cs : List (SchedCall ℕ)}

theorem OsRun.timed (hts : 1 ≤ cfg.timeSlot) (h : OsRun host cfg trace s) (hi : i < cfg.numCpus)
    (hin : ¬ (s.cpus i).Out) : (s.cpus i).Timed cfg.timeSlot := by
  induction h with
  | boot => exact ⟨Int.le_refl 0, by simp only [Os.boot, Cpu.credit]; omega, fun _ => rfl, by simp [Os.boot]⟩
  | step h a hstep ih =>
      have hold := ih (Os.in_of_move h.holdersInv (Os.move_of_step hstep) hin)
      exact (Os.spent_step hts h hold hi hstep hin).1

/-- **Run.** -/
theorem WaitRun.spent_le (hts : 1 ≤ cfg.timeSlot) (h : OsRun host cfg trace s)
    (hw : WaitRun host cfg p s cs t) (hi : i < cfg.numCpus) (hin : ¬ (t.cpus i).Out) :
    ¬ (s.cpus i).Out ∧ t.spent cfg i ≤ s.spent cfg i + cfg.timeSlot * numGets cs := by
  induction hw with
  | start => exact ⟨hin, by simp [numGets]⟩
  | @step cs t t' hw a hstep _ ih =>
      obtain ⟨trace', hrun⟩ := h.continue hw
      have hin' := Os.in_of_move hrun.holdersInv (Os.move_of_step hstep) hin
      obtain ⟨hstart, hle⟩ := ih hin'
      have hnext := (Os.spent_step hts hrun (hrun.timed hts hi hin') hi hstep hin).2
      have hgets : numGets (cs ++ t.schedCalls cfg a) = numGets cs + numGets (t.schedCalls cfg a) :=
        List.countP_append
      rw [hgets, Int.natCast_add, Int.mul_add]
      exact ⟨hstart, by omega⟩

/-- A thread that has not detached has entered `next_slot` as often as the time says, or once more. -/
theorem ClockInv.entered_bounds (h : ClockInv cfg s) {d : Dev} (hd : d ∈ cfg.devList)
    (hhere : ¬ s.Gone d) :
    s.timer.time ≤ s.timer.entered d ∧ s.timer.entered d ≤ s.timer.time + 1 := by
  have hok := h.timer.devs d hd (h.fsh_false hhere)
  by_cases hpend : d ∈ s.timer.pending
  · have hentered := (hok.pending hpend).2
    omega
  · have hentered := hok.current hpend
    split at hentered <;> omega

theorem OsRun.entered_bounds (h : OsRun host cfg trace s) (hi : i < cfg.numCpus)
    (hin : ¬ (s.cpus i).Out) :
    s.timer.time ≤ s.timer.entered (.cpu i) ∧ s.timer.entered (.cpu i) ≤ s.timer.time + 1 :=
  h.clockInv.entered_bounds (Config.cpu_mem_devList hi) fun hgone => hin (Or.inr hgone)

/-- **No starvation.** In every run, as long as a process with `k` others before it waits in the queue
    of its priority, whatever else is loaded, runs and is put back meanwhile, the time advances by no
    more than `(k / (MAX_PRIO - prio) + 2) * 9871` times `time_slot`, and one, if any CPU is still in its
    loop. -/
theorem no_starvation (hts : 1 ≤ cfg.timeSlot) (hprios : cfg.PriosOk) (h : OsRun host cfg trace s)
    {prio : ℕ} {ahead behind : List ℕ} (hwait : s.sched.waiting prio = ahead ++ p :: behind)
    (hw : WaitRun host cfg p s cs t) (hi : i < cfg.numCpus) (hin : ¬ (t.cpus i).Out) :
    (t.timer.time : ℤ) ≤
      s.timer.time + cfg.timeSlot * ((ahead.length / (maxPrio - prio) + 2) * 9871 : ℕ) + 1 := by
  have hprio : prio < maxPrio := by
    obtain ⟨proc, hknown, rfl⟩ := h.holdersInv.waiting_prio prio p (by simp [hwait])
    obtain ⟨prog, hprog, -, heq⟩ := h.fromConfig p proc hknown
    exact heq ▸ hprios prog (List.mem_of_getElem? hprog)
  obtain ⟨log, hlog⟩ := h.schedRun hprios
  have hgets := hw.gets_lt hprio hwait
  have hpatience := Sched.patience_le hlog prio ahead.length
  obtain ⟨hstart, hspent⟩ := hw.spent_le hts h hi hin
  obtain ⟨trace', hrun⟩ := h.continue hw
  have hcredit := Cpu.credit_nonneg hts (hrun.timed hts hi hin)
  have hcredit' := (h.timed hts hi hstart).credit_le
  have hentered := (hrun.entered_bounds hi hin).1
  have hentered' := (h.entered_bounds hi hstart).2
  have hmul : cfg.timeSlot * ((numGets cs + 1 : ℕ) : ℤ) ≤
      cfg.timeSlot * ((ahead.length / (maxPrio - prio) + 2) * 9871 : ℕ) :=
    Int.mul_le_mul_of_nonneg_left (by omega) (by omega)
  rw [Int.natCast_add, Int.mul_add] at hmul
  unfold Os.spent at hspent
  omega

/-- The continuation in which the threads take steps in the order given, `none` if one cannot or the
    process gets into somebody's hands. -/
def Os.waitSchedule (host : Host) (cfg : Config) (p : ℕ) (s : Os) (actors : List Actor) :
    Option (List (SchedCall ℕ) × Os) :=
  actors.foldlM (fun r a => (r.2.step host cfg a).bind fun t =>
    if ∀ j < cfg.numCpus, (t.cpus j).proc ≠ some p then some (r.1 ++ r.2.schedCalls cfg a, t) else none)
    ([], s)

theorem WaitRun.of_schedule {actors : List Actor} {r : List (SchedCall ℕ) × Os}
    (h : s.waitSchedule host cfg p actors = some r) : WaitRun host cfg p s r.1 r.2 := by
  unfold Os.waitSchedule at h
  refine foldlM_invariant (P := fun r => WaitRun host cfg p s r.1 r.2) ?_ .start h
  intro r a r' hr hr'
  obtain ⟨t, hstep, hnext⟩ := Option.bind_eq_some_iff.1 hr'
  split at hnext
  · next hands =>
      obtain rfl := Option.some.inj hnext
      exact hr.step a hstep hands
  · exact absurd hnext (by simp)

end Runs

/-- Two programs of two instructions for one CPU. The second is waiting from the second slot on; a slot
    later the CPU still has the first one. -/
theorem no_starvation_second :
    let prog : Program := ⟨[⟨.calc, 0, 0, 0, 0⟩, ⟨.calc, 0, 0, 0, 0⟩], 0, 0, fun _ => 0⟩
    let cfg : Config := { oneCpu [] with timeSlot := 2, programs := [prog, prog] }
    let s := (Os.after generousHost cfg (firstSlot ++ [.cpu 0] ++ List.replicate 7 .timer ++
      List.replicate 4 .ld)).2
    let r := (s.waitSchedule generousHost cfg 2 (.ld :: List.replicate 5 (.cpu 0) ++
      List.replicate 7 .timer)).getD ([], s)
    s.sched.waiting 0 = [2] ∧ s.timer.time = 1 ∧ r.2.timer.time = 2 ∧
      (r.2.timer.time : ℤ) ≤ s.timer.time + cfg.timeSlot * ((0 / (maxPrio - 0) + 2) * 9871 : ℕ) + 1 := by
  intro prog cfg s r
  have hrun : OsRun generousHost cfg _ s := OsRun.after (by decide +kernel)
  have hsome : (s.waitSchedule generousHost cfg 2 (.ld :: List.replicate 5 (.cpu 0) ++
      List.replicate 7 .timer)).isSome = true := by decide +kernel
  obtain ⟨r', hr'⟩ := Option.isSome_iff_exists.1 hsome
  have hr : r = r' := by simp only [r, hr', Option.getD_some]
  have hwaiting : s.sched.waiting 0 = [] ++ 2 :: [] := by decide +kernel
  have hts : 1 ≤ cfg.timeSlot := by decide +kernel
  have hprios : cfg.PriosOk := by simp [Config.PriosOk, cfg, prog, maxPrio]
  have hin : ¬ (r.2.cpus 0).Out := by
    unfold Cpu.Out
    decide +kernel
  have hle := no_starvation hts hprios hrun hwaiting (hr ▸ WaitRun.of_schedule hr') Nat.zero_lt_one hin
  exact ⟨hwaiting, by decide +kernel, by decide +kernel, hle⟩

end Ossim
