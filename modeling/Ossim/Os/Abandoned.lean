import Ossim.Os.Stopping

set_option autoImplicit false

/-! # The condition on orderly steps is exact

A step that is not orderly leaves a CPU before its test of `done` with a process waiting, at a time
when nothing keeps the loader from being done first. So if a run of the simulator can reach such a
step, it can go on to a state that is not served. -/

namespace Ossim

/-! ## The loader -/

structure LdInv (cfg : Config) (s : Os) : Prop where
  done_of_exit : s.ldLoc = .exit ∨ s.ldLoc = .finished → s.done = true
  enter_again : s.ldLoc = .slotEnter true → s.loaded < cfg.programs.length
  wait_again : s.ldLoc = .slotWait true → s.loaded < cfg.programs.length
  start : s.ldLoc = .start → s.loaded < cfg.programs.length

section Loader

variable {host : Host} {cfg : Config} {s s' : Os} {trace : List (ℕ × ℕ)}

theorem LdInv.boot (cfg : Config) : LdInv cfg (Os.boot cfg) := by
  refine ⟨?_, ?_, ?_, ?_⟩ <;> simp [Os.boot]

theorem LdInv.congr (h : LdInv cfg s) (hld : s'.ldLoc = s.ldLoc) (hl : s'.loaded = s.loaded)
    (hdone : s'.done = s.done) : LdInv cfg s' := by
  obtain ⟨h1, h2, h3, h4⟩ := h
  refine ⟨?_, ?_, ?_, ?_⟩ <;> rw [hld]
  · rw [hdone]
    exact h1
  · rw [hl]
    exact h2
  · rw [hl]
    exact h3
  · rw [hl]
    exact h4

/-- **Step.** -/
theorem LdInv.move (h : LdInv cfg s) {a : Actor} (hmove : s.Move host cfg a s') : LdInv cfg s' := by
  cases hmove with
  | first | finish | put | keep | refetch | stop | idle | dispatch | run | enter | leave | detach
  | timer => exact h.congr rfl rfl rfl
  | ldNext hloc hlen => exact ⟨by simp, by simp, by simp, fun _ => hlen⟩
  | ldDone hloc hlen => exact ⟨fun _ => rfl, by simp, by simp, by simp⟩
  | ldWait hloc => exact ⟨by simp, fun _ => h.start hloc, by simp, by simp⟩
  | ldReady hloc => exact ⟨by simp, by simp, by simp, by simp⟩
  | ldAdd hloc hprog => exact ⟨by simp, by simp, by simp, by simp⟩
  | @ldEnter again hloc =>
      refine ⟨by simp, by simp, fun hagain => ?_, by simp⟩
      cases hagain
      exact h.enter_again hloc
  | @ldLeave again timer hloc hleave =>
      cases again with
      | true => exact ⟨by simp, by simp, by simp, fun _ => h.wait_again hloc⟩
      | false => exact ⟨by simp, by simp, by simp, by simp⟩
  | ldDetach hloc => exact ⟨fun _ => h.done_of_exit (Or.inl hloc), by simp, by simp, by simp⟩

theorem OsRun.ldInv (h : OsRun host cfg trace s) : LdInv cfg s := by
  induction h with
  | boot => exact .boot cfg
  | step _ a hstep ih => exact ih.move (Os.move_of_step hstep)

/-! ## The loader gets done -/

/-- Where the simulator can get with the CPUs and the queues as they are. -/
def Os.GetsDone (host : Host) (cfg : Config) (s : Os) : Prop :=
  ∃ trace t, OsRun host cfg trace t ∧ t.cpus = s.cpus ∧ t.sched = s.sched ∧ t.done = true

theorem Os.GetsDone.of_eq {t : Os} (h : t.GetsDone host cfg) (hcpus : t.cpus = s.cpus)
    (hsched : t.sched = s.sched) : s.GetsDone host cfg := by
  obtain ⟨trace, u, hrun, hc, hs, hdone⟩ := h
  exact ⟨trace, u, hrun, hc.trans hcpus, hs.trans hsched, hdone⟩

theorem Os.getsDone_of_top (h : OsRun host cfg trace s) (hloc : s.ldLoc = .top)
    (hlen : ¬ s.loaded < cfg.programs.length) : s.GetsDone host cfg := by
  have hstep : s.step host cfg .ld = some { s with ldLoc := .exit, done := true } := by
    simp [Os.step, Os.ldStep, hloc, hlen]
  exact ⟨_, _, h.step .ld hstep, rfl, rfl, rfl⟩

theorem Os.getsDone_of_released (h : OsRun host cfg trace s) (hloc : s.ldLoc = .slotWait false)
    (hlen : ¬ s.loaded < cfg.programs.length) (hmark : s.timer.done .ld = false) :
    s.GetsDone host cfg := by
  obtain ⟨timer, hleave⟩ : ∃ timer, s.timer.leave .ld = some timer := by
    rw [Timer.leave, if_neg (by simp [hmark])]
    exact ⟨_, rfl⟩
  have hstep : s.step host cfg .ld = some { s with timer := timer, ldLoc := .top } := by
    simp [Os.step, Os.ldStep, hloc, hleave]
  have hdone := Os.getsDone_of_top (h.step .ld hstep) rfl hlen
  exact hdone.of_eq rfl rfl

/-- The mark of the loader is the first that the timer clears. -/
theorem Os.clear_ld (hclock : ClockInv cfg s) (hpend : .ld ∈ s.timer.pending) :
    ∃ timer, s.timer.step cfg.devList = some timer ∧ timer.done .ld = false := by
  have hcounts := hclock.timer.counts
  cases hloc : s.timer.loc with
  | release rest fsh event =>
      rw [Timer.CountsOk, hloc] at hcounts
      rw [Timer.pending, hloc] at hpend
      -- a suffix of the device list with the first device in it is all of the list
      have hrest : rest = cfg.devList := by
        rcases List.suffix_cons_iff.1 hcounts.1 with heq | hsuf
        · exact heq
        · exact absurd (hsuf.subset hpend) (List.nodup_cons.1 cfg.devList_nodup).1
      rw [Timer.step, hloc, hrest, Config.devList]
      exact ⟨_, rfl, by simp⟩
  | loop | wait | exited =>
      rw [Timer.pending, hloc] at hpend
      exact absurd hpend (by simp)

/-- Unless it has to wait for the end of the slot, the loader can be done at once. -/
theorem Os.getsDone_of_not_loading (h : OsRun host cfg trace s) (hnot : ¬ s.Loading cfg) :
    s.GetsDone host cfg := by
  have hld := h.ldInv
  have hclock := h.clockInv
  unfold Os.Loading at hnot
  cases hloc : s.ldLoc with
  | top =>
      rw [hloc] at hnot
      exact Os.getsDone_of_top h hloc hnot
  | start | add | slotEnter again =>
      rw [hloc] at hnot
      exact absurd trivial hnot
  | exit => exact ⟨trace, s, h, rfl, rfl, hld.done_of_exit (Or.inl hloc)⟩
  | finished => exact ⟨trace, s, h, rfl, rfl, hld.done_of_exit (Or.inr hloc)⟩
  | slotWait again =>
      rw [hloc] at hnot
      obtain ⟨hlen, hent⟩ := not_or.1 hnot
      cases again with
      | true => exact absurd (hld.wait_again hloc) hlen
      | false =>
          have hok := hclock.timer.devs .ld cfg.ld_mem_devList
            (hclock.fsh_false (by simp [Os.Gone, hloc]))
          -- the timer is about to clear the mark of the loader, or it has been cleared
          by_cases hpend : .ld ∈ s.timer.pending
          · obtain ⟨timer, hstep, hmark⟩ := Os.clear_ld hclock hpend
            have hstep' : s.step host cfg .timer = some { s with timer := timer } := by
              simp [Os.step, hstep]
            have hdone := Os.getsDone_of_released (h.step .timer hstep') hloc hlen hmark
            exact hdone.of_eq rfl rfl
          · have hcur := hok.current hpend
            refine Os.getsDone_of_released h hloc hlen ?_
            by_contra hmark
            rw [if_pos (by simpa using hmark)] at hcur
            exact hent hcur

end Loader

/-! ## Accidents -/

section Accidents

variable {host : Host} {cfg : Config} {s s' : Os} {trace : List (ℕ × ℕ)}

/-- A CPU that found nothing is before its test of `done`, a process is waiting, and the loader does
    not have to wait. -/
theorem exists_not_served_of_check (h : OsRun host cfg trace s) {i : ℕ} (hi : i < cfg.numCpus)
    (hloc : (s.cpus i).loc = .check) (hproc : (s.cpus i).proc = none) (hidle : ¬ s.sched.Idle)
    (hload : ¬ s.Loading cfg) : ∃ trace' t, OsRun host cfg trace' t ∧ ¬ t.Served cfg := by
  obtain ⟨trace', t, hrun, hcpus, hsched, hdone⟩ := Os.getsDone_of_not_loading h hload
  refine ⟨trace', t, hrun, fun hserved => hidle ?_⟩
  rw [← hsched]
  exact hserved.stop_idle i hi (hcpus ▸ hloc) (hcpus ▸ hproc) hdone

/-- `get_proc` returns NULL with a process waiting. -/
theorem exists_not_served_of_get {i : ℕ} (hi : i < cfg.numCpus) {cpu : Cpu} (hloc : cpu.loc = .check)
    (h : OsRun host cfg trace (s.getProc i cpu)) (hnot : ¬ s.GetOk cfg) :
    ∃ trace' t, OsRun host cfg trace' t ∧ ¬ t.Served cfg := by
  obtain ⟨hserving, hquiet⟩ := not_or.1 hnot
  obtain ⟨hidle, hload⟩ := not_or.1 hquiet
  rcases s.sched.getMlqProc_cases with ⟨prio, hprio, p, rest, hcons, hslot, -⟩ | ⟨-, hget, hwait⟩
  · exact absurd ⟨prio, hprio, by simp [hcons], hslot⟩ hserving
  · refine exists_not_served_of_check h hi ?_ ?_ (fun hc => hidle (hc.congr hwait.symm)) ?_
    · simpa [Os.getProc, Os.setCpu] using hloc
    · simpa [Os.getProc, Os.setCpu] using hget
    · exact fun hc => hload (hc.congr rfl rfl rfl rfl)

/-- A CPU puts its process back while another is before its test of `done`. -/
theorem exists_not_served_of_put (hfits : cfg.Fits) (hs : OsRun host cfg trace s) {i p : ℕ}
    (hproc : (s.cpus i).proc = some p) {cpu : Cpu} {trace₁ : List (ℕ × ℕ)}
    (h : OsRun host cfg trace₁ ({ s with sched := s.sched.putMlqProc p (s.prio p) }.setCpu i cpu))
    (hnot : ¬ s.PutOk cfg i) : ∃ trace' t, OsRun host cfg trace' t ∧ ¬ t.Served cfg := by
  simp only [Os.PutOk, not_forall] at hnot
  obtain ⟨j, hj, hji, hcheck, hnone, hload⟩ := hnot
  have hholders := hs.holdersInv
  have hkept := hs.keptInv hfits
  refine exists_not_served_of_check h hj ?_ ?_ (fun hidle => ?_) ?_
  · simpa [Os.setCpu, Function.update_of_ne hji] using hcheck
  · simpa [Os.setCpu, Function.update_of_ne hji] using hnone
  · -- the process is in the queue of its priority now
    have hmem := mem_waiting_enqueue_self (s.sched.putMlqProc_waiting p (s.prio p))
      (hs.room_put hfits hproc)
    have hnil : (s.sched.putMlqProc p (s.prio p)).waiting (s.prio p) = [] :=
      hidle (s.prio p) (hkept.prio_lt_of_hand hholders hproc)
    rw [hnil] at hmem
    exact absurd hmem List.not_mem_nil
  · exact fun hc => hload (hc.congr rfl rfl rfl rfl)

/-- **The condition is exact.** If a run reaches a step that is not orderly, there is a run to a state
    that is not served. -/
theorem exists_not_served (hfits : cfg.Fits) (h : OsRun host cfg trace s) {a : Actor}
    (hstep : s.step host cfg a = some s') (hnot : ¬ s.Orderly cfg a) :
    ∃ trace' t, OsRun host cfg trace' t ∧ ¬ t.Served cfg := by
  have h' := h.step a hstep
  cases Os.move_of_step hstep with
  | finish hi hloc hproc hfin =>
      simp only [Os.Orderly, hloc, hproc, hfin, if_true] at hnot
      exact exists_not_served_of_get hi rfl h' hnot
  | refetch hi hloc =>
      simp only [Os.Orderly, hloc] at hnot
      exact exists_not_served_of_get hi rfl h' hnot
  | put hi hloc hproc hfin htime =>
      simp only [Os.Orderly, hloc, hproc, hfin, Bool.false_eq_true, if_false] at hnot
      exact exists_not_served_of_put hfits h hproc h' fun hok => hnot fun _ => hok
  | keep hi hloc hproc hfin htime =>
      simp [Os.Orderly, hloc, hproc, hfin, htime] at hnot
  | first hi hloc hproc => simp [Os.Orderly, hloc, hproc] at hnot
  | stop hi hloc | idle hi hloc | dispatch hi hloc | run hi hloc | enter hi hloc | leave hi hloc
  | detach hi hloc => simp [Os.Orderly, hloc] at hnot
  | ldNext | ldDone | ldWait | ldReady | ldAdd | ldEnter | ldLeave | ldDetach | timer =>
      exact absurd trivial hnot

theorem OsRun.orderly (h : OsRun host cfg trace s) (hok : ∀ trace s a s', OsRun host cfg trace s →
    s.step host cfg a = some s' → s.Orderly cfg a) : OrderlyRun host cfg s := by
  induction h with
  | boot => exact .boot
  | step h a hstep ih => exact ih.step a (hok _ _ a _ h hstep) hstep

/-- **When the CPUs serve all processes.** With a CPU at least, and processes that fit into the
    queues, every state of every run of orderly steps is served; and the simulator is served in all
    its runs if and only if all their steps are orderly. -/
theorem served_iff_orderly (hcpus : 0 < cfg.numCpus) (hfits : cfg.Fits) :
    (∀ s, OrderlyRun host cfg s → s.Served cfg) ∧
    ((∀ trace s, OsRun host cfg trace s → s.Served cfg) ↔
      ∀ trace s a s', OsRun host cfg trace s → s.step host cfg a = some s' → s.Orderly cfg a) := by
  refine ⟨fun s h => served_of_orderly hcpus hfits h, ?_, ?_⟩
  · intro hall trace s a s' h hstep
    by_contra hnot
    obtain ⟨trace', t, hrun, hbad⟩ := exists_not_served hfits h hstep hnot
    exact hbad (hall trace' t hrun)
  · intro hok trace s h
    exact served_of_orderly hcpus hfits (h.orderly hok)

end Accidents

/-- A process of one instruction: the CPU drops it, finds nothing and stops. -/
theorem served_iff_orderly_calc :
    let cfg := oneCpu [⟨.calc, 0, 0, 0, 0⟩]
    let s := (Os.orderlySchedule generousHost cfg
      (firstSlot ++ loaderDone ++ [.cpu 0, .cpu 0, .cpu 0])).getD (Os.boot cfg)
    (s.cpus 0).loc = .stopped ∧ (s.sys.procs 1).isSome ∧ s.Served cfg := by
  intro cfg s
  have hsome : (Os.orderlySchedule generousHost cfg
      (firstSlot ++ loaderDone ++ [.cpu 0, .cpu 0, .cpu 0])).isSome = true := by decide +kernel
  obtain ⟨s', hs'⟩ := Option.isSome_iff_exists.1 hsome
  have hs : s = s' := by simp only [s, hs', Option.getD_some]
  refine ⟨by decide +kernel, by decide +kernel, ?_⟩
  exact (served_iff_orderly (by decide) ⟨by decide, by decide⟩).1 s (.of_schedule (hs ▸ hs'))

end Ossim
