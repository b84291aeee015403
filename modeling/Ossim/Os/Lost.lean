import Ossim.Os.Running

set_option autoImplicit false

/-! # No process is lost while the queues have room

A process that was loaded is in the ready queue of its priority or in the hands of a CPU until a CPU
drops it as finished, as long as there is a queue for its priority and room in the queue whenever it
is put there. A full queue drops it without a word. -/

namespace Ossim

/-! ## Runs with the processes dropped -/

/-- The process a step drops as finished. -/
def Os.drops (s : Os) : Actor → List ℕ
  | .cpu i =>
    match (s.cpus i).loc, (s.cpus i).proc with
    | .top, some p => if s.isFinished p then [p] else []
    | _, _ => []
  | _ => []

theorem Os.drops_of_finished {s : Os} {i p : ℕ} (hloc : (s.cpus i).loc = .top)
    (hproc : (s.cpus i).proc = some p) (hfin : s.isFinished p = true) : s.drops (.cpu i) = [p] := by
  simp [Os.drops, hloc, hproc, hfin]

theorem Os.drops_of_not_finished {s : Os} {i p : ℕ} (hproc : (s.cpus i).proc = some p)
    (hfin : s.isFinished p = false) : s.drops (.cpu i) = [] := by
  simp only [Os.drops]
  split
  · next q _ hq =>
      obtain rfl : p = q := Option.some.inj (hproc.symm.trans hq)
      simp [hfin]
  · rfl

theorem Os.drops_of_ne {s : Os} {i : ℕ} (hloc : (s.cpus i).loc ≠ .top) : s.drops (.cpu i) = [] := by
  simp only [Os.drops]
  split
  · next h _ => exact absurd h hloc
  · rfl

/-- A run all whose steps meet a condition, with the processes dropped as finished. -/
inductive LifeRun (ok : Os → Actor → Prop) (host : Host) (cfg : Config) : List ℕ → Os → Prop where
  | boot : LifeRun ok host cfg [] (Os.boot cfg)
  | step {dropped : List ℕ} {s s' : Os} (h : LifeRun ok host cfg dropped s) (a : Actor) (hok : ok s a)
      (hstep : s.step host cfg a = some s') : LifeRun ok host cfg (s.drops a ++ dropped) s'

/-- Every process loaded and not dropped as finished is in the queue of its priority or in the hands
    of a CPU. -/
def Os.NoneLost (cfg : Config) (dropped : List ℕ) (s : Os) : Prop :=
  ∀ p proc, s.sys.procs p = some proc → p ∉ dropped →
    proc.prio < maxPrio ∧ p ∈ s.sched.waiting proc.prio ∨
    ∃ i < cfg.numCpus, (s.cpus i).proc = some p

/-- Where the step is an `add_proc` or a `put_proc`, there is a queue for the process, with room. -/
def Os.HasRoom (cfg : Config) (s : Os) : Actor → Prop
  | .cpu i => (s.cpus i).loc = .top → ∀ p ∈ (s.cpus i).proc, s.isFinished p = false →
      (s.cpus i).timeLeft = 0 → (s.sched.waiting (s.prio p)).length < maxQueueSize
  | .ld => s.ldLoc = .add → ∀ prog ∈ cfg.programs[s.loaded]?,
      prog.prio < maxPrio ∧ (s.sched.waiting prog.prio).length < maxQueueSize
  | .timer => True

section Runs

variable {ok : Os → Actor → Prop} {host : Host} {cfg : Config} {s : Os} {dropped : List ℕ}

theorem LifeRun.runIf (h : LifeRun ok host cfg dropped s) : OsRunIf ok host cfg s := by
  induction h with
  | boot => exact .boot
  | step _ a hok hstep ih => exact ih.step a hok hstep

theorem OsRunIf.lifeRun (h : OsRunIf ok host cfg s) : ∃ dropped, LifeRun ok host cfg dropped s := by
  induction h with
  | boot => exact ⟨[], .boot⟩
  | step _ a hok hstep ih =>
      obtain ⟨dropped, hrun⟩ := ih
      exact ⟨_, hrun.step a hok hstep⟩

theorem OsRun.lifeRun {trace : List (ℕ × ℕ)} (h : OsRun host cfg trace s) :
    ∃ dropped, LifeRun (fun _ _ => True) host cfg dropped s := by
  have hrun : OsRunIf (fun _ _ => True) host cfg s := h.runIf fun _ _ _ _ _ _ => trivial
  exact hrun.lifeRun

/-- A condition that every step of every run meets is met in this one. -/
theorem LifeRun.of_steps {ok' : Os → Actor → Prop} (h : LifeRun ok host cfg dropped s)
    (hok : ∀ trace s a s', OsRun host cfg trace s → s.step host cfg a = some s' → ok' s a) :
    LifeRun ok' host cfg dropped s := by
  induction h with
  | boot => exact .boot
  | step h a _ hstep ih =>
      obtain ⟨trace, hrun⟩ := h.runIf.osRun
      exact ih.step a (hok _ _ a _ hrun hstep) hstep

/-- `OsRunIf.holds_iff`, for a property of the processes dropped and the state. -/
theorem LifeRun.holds_iff {P : List ℕ → Os → Prop}
    (hgood : ∀ dropped s, LifeRun ok host cfg dropped s → P dropped s)
    (hbad : ∀ dropped s a s', LifeRun ok host cfg dropped s → s.step host cfg a = some s' →
      ¬ ok s a → ¬ P (s.drops a ++ dropped) s') :
    (∀ dropped s, LifeRun ok host cfg dropped s → P dropped s ∧
      ∀ a s', s.step host cfg a = some s' → (P (s.drops a ++ dropped) s' ↔ ok s a)) ∧
    ((∀ dropped s, LifeRun (fun _ _ => True) host cfg dropped s → P dropped s) ↔
      ∀ trace s a s', OsRun host cfg trace s → s.step host cfg a = some s' → ok s a) := by
  refine ⟨fun dropped s h => ⟨hgood dropped s h, fun a s' hstep => ⟨fun h' => ?_, fun hok => ?_⟩⟩,
    fun hall => ?_, fun hok dropped s h => hgood dropped s (h.of_steps hok)⟩
  · by_contra hnot
    exact hbad dropped s a s' h hstep hnot h'
  · exact hgood _ s' (h.step a hok hstep)
  · have hlifeRun : ∀ dropped s, LifeRun (fun _ _ => True) host cfg dropped s →
        LifeRun ok host cfg dropped s := by
      intro dropped s h
      induction h with
      | boot => exact .boot
      | step h a _ hstep ih =>
          refine ih.step a ?_ hstep
          by_contra hnot
          exact hbad _ _ a _ ih hstep hnot (hall _ _ (h.step a trivial hstep))
    intro trace s a s' h hstep
    by_contra hnot
    obtain ⟨dropped, hrun⟩ := h.lifeRun
    exact hbad _ s a s' (hlifeRun dropped s hrun) hstep hnot (hall _ s' (hrun.step a trivial hstep))

end Runs

/-! ## The processes dropped -/

/-- The processes dropped are finished, and nobody holds them. -/
structure DropInv (dropped : List ℕ) (s : Os) : Prop where
  finished : ∀ p ∈ dropped, ∃ proc, s.sys.procs p = some proc ∧ proc.pc = proc.code.length
  hand : ∀ p ∈ dropped, ∀ i, (s.cpus i).proc ≠ some p
  waiting : ∀ p ∈ dropped, ∀ prio, p ∉ s.sched.waiting prio

section Dropped

variable {ok : Os → Actor → Prop} {host : Host} {cfg : Config} {s s' : Os} {dropped : List ℕ}

theorem DropInv.congr (h : DropInv dropped s) (hp : s'.sys.procs = s.sys.procs)
    (hh : ∀ i, (s'.cpus i).proc = (s.cpus i).proc) (hw : s'.sched.waiting = s.sched.waiting) :
    DropInv dropped s' := by
  obtain ⟨h1, h2, h3⟩ := h
  refine ⟨?_, ?_, ?_⟩ <;> simp only [hp, hh, hw] <;> assumption

theorem DropInv.getProc (h : DropInv dropped s) (i : ℕ) (cpu : Cpu) :
    DropInv dropped (s.getProc i cpu) := by
  refine ⟨h.finished, fun p hp j hhand => ?_, fun p hp prio hmem => ?_⟩
  · rcases hand_of_setCpu hhand with ⟨-, hget⟩ | ⟨-, hhand⟩
    · obtain ⟨prio, -, hmem⟩ := Sched.mem_waiting_of_fst hget
      exact h.waiting p hp prio hmem
    · exact h.hand p hp j hhand
  · exact h.waiting p hp prio (Sched.mem_waiting_of_getMlqProc hmem)

theorem DropInv.finish (h : DropInv dropped s) (hh : HoldersInv s) {i p : ℕ}
    (hproc : (s.cpus i).proc = some p) (hfin : s.isFinished p = true) (cpu : Cpu) :
    DropInv (p :: dropped) (s.getProc i cpu) := by
  obtain ⟨h1, h2, h3⟩ := h.getProc i cpu
  refine ⟨?_, ?_, ?_⟩
  · refine List.forall_mem_cons.2 ⟨?_, h1⟩
    obtain ⟨proc, hknown⟩ := hh.hand_known i p hproc
    exact ⟨proc, hknown, by simpa [Os.isFinished, hknown] using hfin⟩
  · refine List.forall_mem_cons.2 ⟨fun j hhand => ?_, h2⟩
    rcases hand_of_setCpu hhand with ⟨-, hget⟩ | ⟨hji, hhand⟩
    · obtain ⟨prio, -, hmem⟩ := Sched.mem_waiting_of_fst hget
      exact hh.hand_waiting i p hproc prio hmem
    · exact hji (hh.hand_inj j i p hhand hproc)
  · refine List.forall_mem_cons.2 ⟨fun prio hmem => ?_, h3⟩
    exact hh.hand_waiting i p hproc prio (Sched.mem_waiting_of_getMlqProc hmem)

theorem DropInv.put (h : DropInv dropped s) {i p : ℕ} (hproc : (s.cpus i).proc = some p) {cpu : Cpu}
    (hcpu : cpu.proc = none) :
    DropInv dropped ({ s with sched := s.sched.putMlqProc p (s.prio p) }.setCpu i cpu) := by
  refine ⟨h.finished, fun q hq j hhand => ?_, fun q hq prio hmem => ?_⟩
  · rcases hand_of_setCpu hhand with ⟨-, hnone⟩ | ⟨-, hhand⟩
    · exact absurd (hcpu.symm.trans hnone) (by simp)
    · exact h.hand q hq j hhand
  · rcases mem_waiting_of_enqueue (s.sched.putMlqProc_waiting p (s.prio p)) hmem with hmem | ⟨rfl, -⟩
    · exact h.waiting q hq prio hmem
    · exact h.hand q hq i hproc

theorem DropInv.run (h : DropInv dropped s) {i p : ℕ} (hproc : (s.cpus i).proc = some p) {st : ℤ}
    {sys : System} (hrun : s.sys.run host p = some (st, sys)) :
    DropInv dropped { s with sys := sys } := by
  refine ⟨fun q hq => ?_, h.hand, h.waiting⟩
  obtain ⟨_, _, _, hupd, -⟩ := System.run_procs hrun
  have hne : q ≠ p := by
    rintro rfl
    exact h.hand q hq i hproc
  obtain ⟨proc, hknown, hpc⟩ := h.finished q hq
  exact ⟨proc, by rw [hupd, Function.update_of_ne hne, hknown], hpc⟩

theorem DropInv.add (h : DropInv dropped s) (hh : HoldersInv s) (prog : Program) (ldLoc : LdLoc) :
    DropInv dropped { s with
      sys := { s.sys with procs := Function.update s.sys.procs (s.loaded + 1) (some (load prog)) }
      sched := s.sched.addMlqProc (s.loaded + 1) prog.prio
      loaded := s.loaded + 1
      ldLoc := ldLoc } := by
  have hne : ∀ q ∈ dropped, q ≠ s.loaded + 1 := by
    rintro q hq rfl
    obtain ⟨proc, hknown, -⟩ := h.finished _ hq
    exact hh.procs_next hknown
  refine ⟨fun q hq => ?_, h.hand, fun q hq prio hmem => ?_⟩
  · obtain ⟨proc, hknown, hpc⟩ := h.finished q hq
    exact ⟨proc, (Function.update_of_ne (hne q hq) ..).trans hknown, hpc⟩
  · rcases mem_waiting_of_enqueue (s.sched.addMlqProc_waiting (s.loaded + 1) prog.prio) hmem with
      hmem | ⟨hq', -⟩
    · exact h.waiting q hq prio hmem
    · exact hne q hq hq'

/-- **Step.** -/
theorem DropInv.move (h : DropInv dropped s) (hh : HoldersInv s) {a : Actor}
    (hmove : s.Move host cfg a s') : DropInv (s.drops a ++ dropped) s' := by
  cases hmove with
  | first hi hloc hproc =>
      simp only [Os.drops, hloc, hproc]
      exact h.getProc _ _
  | finish hi hloc hproc hfin =>
      rw [Os.drops_of_finished hloc hproc hfin]
      exact h.finish hh hproc hfin _
  | refetch hi hloc =>
      rw [Os.drops_of_ne (by simp [hloc])]
      exact h.getProc _ _
  | put hi hloc hproc hfin htime =>
      rw [Os.drops_of_not_finished hproc hfin]
      exact h.put hproc rfl
  | keep hi hloc hproc hfin htime =>
      rw [Os.drops_of_not_finished hproc hfin]
      exact h.congr rfl (proc_setCpu rfl) rfl
  | run hi hloc hproc hrun =>
      rw [Os.drops_of_ne (by simp [hloc])]
      exact (h.run hproc hrun).congr rfl (proc_setCpu rfl) rfl
  | stop hi hloc | idle hi hloc | dispatch hi hloc | enter hi hloc | leave hi hloc | detach hi hloc =>
      rw [Os.drops_of_ne (by simp [hloc])]
      exact h.congr rfl (proc_setCpu rfl) rfl
  | ldAdd hloc hprog => exact h.add hh _ _
  | ldNext | ldDone | ldWait | ldReady | ldEnter | ldLeave | ldDetach | timer =>
      exact h.congr rfl (fun _ => rfl) rfl

theorem LifeRun.dropInv (h : LifeRun ok host cfg dropped s) : DropInv dropped s := by
  induction h with
  | boot => exact ⟨by simp, by simp, by simp⟩
  | step h a _ hstep ih =>
      obtain ⟨trace, hrun⟩ := h.runIf.osRun
      exact ih.move hrun.holdersInv (Os.move_of_step hstep)

end Dropped

/-! ## The processes not dropped -/

/-- The invariant of the runs that meet the condition. -/
structure LostInv (cfg : Config) (dropped : List ℕ) (s : Os) : Prop where
  prio_lt : ∀ p proc, s.sys.procs p = some proc → proc.prio < maxPrio
  none_lost : s.NoneLost cfg dropped

section Lost

variable {host : Host} {cfg : Config} {s s' : Os} {dropped : List ℕ}

theorem LostInv.boot (cfg : Config) : LostInv cfg [] (Os.boot cfg) where
  prio_lt := fun _ _ h => absurd h (by simp [Os.boot])
  none_lost := fun _ _ h => absurd h (by simp [Os.boot])

theorem LostInv.congr (h : LostInv cfg dropped s) (hp : s'.sys.procs = s.sys.procs)
    (hh : ∀ i, (s'.cpus i).proc = (s.cpus i).proc) (hw : s'.sched.waiting = s.sched.waiting) :
    LostInv cfg dropped s' := by
  obtain ⟨h1, h2⟩ := h
  refine ⟨?_, ?_⟩ <;> simp only [Os.NoneLost, hp, hh, hw] <;> assumption

theorem LostInv.getProc (h : LostInv cfg dropped s) {i : ℕ} (hi : i < cfg.numCpus) {more : List ℕ}
    (hdrop : ∀ p, (s.cpus i).proc = some p → p ∈ more) (cpu : Cpu) :
    LostInv cfg (more ++ dropped) (s.getProc i cpu) := by
  refine ⟨h.prio_lt, fun p proc hproc hp => ?_⟩
  obtain ⟨hmore, hdropped⟩ := not_or.1 (fun hor => hp (List.mem_append.2 hor))
  rcases h.none_lost p proc hproc hdropped with ⟨hprio, hmem⟩ | ⟨j, hj, hhand⟩
  · rcases Sched.mem_waiting_getMlqProc hmem with hmem | hget
    · exact Or.inl ⟨hprio, hmem⟩
    · exact Or.inr ⟨i, hi, by simpa [Os.getProc, Os.setCpu] using hget⟩
  · have hji : j ≠ i := by
      rintro rfl
      exact hmore (hdrop p hhand)
    exact Or.inr ⟨j, hj, by simpa [Os.getProc, Os.setCpu, Function.update_of_ne hji] using hhand⟩

theorem mem_waiting_enqueue {sched sched' : Sched ℕ} {p prio : ℕ}
    (hw : sched'.waiting = Function.update sched.waiting prio
      ((sched.mlqReadyQueue prio).enqueue p).proc) {q x : ℕ} (hx : x ∈ sched.waiting q) :
    x ∈ sched'.waiting q := by
  rw [hw, Function.update_apply]
  split
  · next hq =>
      subst hq
      rcases Sched.enqueue_cases (sched.mlqReadyQueue q) p with heq | ⟨-, heq⟩
      · rw [heq]
        exact List.mem_append_left _ hx
      · rw [heq]
        exact hx
  · exact hx

theorem mem_waiting_enqueue_self {sched sched' : Sched ℕ} {p prio : ℕ}
    (hw : sched'.waiting = Function.update sched.waiting prio
      ((sched.mlqReadyQueue prio).enqueue p).proc)
    (hroom : (sched.waiting prio).length < maxQueueSize) : p ∈ sched'.waiting prio := by
  rw [hw, Function.update_self, Sched.enqueue_of_lt p hroom]
  simp

theorem notMem_waiting_enqueue_self {sched sched' : Sched ℕ} {p prio : ℕ}
    (hw : sched'.waiting = Function.update sched.waiting prio
      ((sched.mlqReadyQueue prio).enqueue p).proc)
    (hroom : ¬ (sched.waiting prio).length < maxQueueSize) (hp : p ∉ sched.waiting prio) :
    p ∉ sched'.waiting prio := by
  rw [hw, Function.update_self, Sched.enqueue_of_not_lt p hroom]
  exact hp

theorem Os.prio_eq {p : ℕ} {proc : Pcb} (h : s.sys.procs p = some proc) : s.prio p = proc.prio := by
  simp [Os.prio, h]

theorem LostInv.put (h : LostInv cfg dropped s) {i p : ℕ} (hproc : (s.cpus i).proc = some p)
    (hroom : (s.sched.waiting (s.prio p)).length < maxQueueSize) (cpu : Cpu) :
    LostInv cfg dropped ({ s with sched := s.sched.putMlqProc p (s.prio p) }.setCpu i cpu) := by
  have hw := s.sched.putMlqProc_waiting p (s.prio p)
  refine ⟨h.prio_lt, fun q proc hknown hq => ?_⟩
  rcases h.none_lost q proc hknown hq with ⟨hprio, hmem⟩ | ⟨j, hj, hhand⟩
  · exact Or.inl ⟨hprio, mem_waiting_enqueue hw hmem⟩
  · by_cases hji : j = i
    · subst hji
      obtain rfl : p = q := Option.some.inj (hproc.symm.trans hhand)
      refine Or.inl ⟨h.prio_lt p proc hknown, ?_⟩
      rw [← Os.prio_eq hknown]
      exact mem_waiting_enqueue_self hw hroom
    · exact Or.inr ⟨j, hj, by simpa [Os.setCpu, Function.update_of_ne hji] using hhand⟩

theorem LostInv.run (h : LostInv cfg dropped s) {p : ℕ} {st : ℤ} {sys : System}
    (hrun : s.sys.run host p = some (st, sys)) : LostInv cfg dropped { s with sys := sys } := by
  refine ⟨fun q r hr => ?_, fun q r hr hq => ?_⟩
  · obtain ⟨r', hr', hpr⟩ := System.run_prio hrun hr
    exact hpr ▸ h.prio_lt q r' hr'
  · obtain ⟨r', hr', hpr⟩ := System.run_prio hrun hr
    exact hpr ▸ h.none_lost q r' hr' hq

theorem LostInv.add (h : LostInv cfg dropped s) {prog : Program} (hprio : prog.prio < maxPrio)
    (hroom : (s.sched.waiting prog.prio).length < maxQueueSize) (ldLoc : LdLoc) :
    LostInv cfg dropped { s with
      sys := { s.sys with procs := Function.update s.sys.procs (s.loaded + 1) (some (load prog)) }
      sched := s.sched.addMlqProc (s.loaded + 1) prog.prio
      loaded := s.loaded + 1
      ldLoc := ldLoc } := by
  have hw := s.sched.addMlqProc_waiting (s.loaded + 1) prog.prio
  refine ⟨fun q r hr => ?_, fun q r hr hq => ?_⟩
  · rcases procs_add_cases hr with ⟨-, rfl⟩ | hr
    · exact hprio
    · exact h.prio_lt q r hr
  · rcases procs_add_cases hr with ⟨rfl, rfl⟩ | hr
    · exact Or.inl ⟨hprio, mem_waiting_enqueue_self hw hroom⟩
    · rcases h.none_lost q r hr hq with ⟨hlt, hmem⟩ | hhand
      · exact Or.inl ⟨hlt, mem_waiting_enqueue hw hmem⟩
      · exact Or.inr hhand

/-- **Step.** -/
theorem LostInv.move (h : LostInv cfg dropped s)
    (hrefetch : ∀ i, (s.cpus i).loc = .refetch → (s.cpus i).proc = none) {a : Actor}
    (hok : s.HasRoom cfg a) (hmove : s.Move host cfg a s') : LostInv cfg (s.drops a ++ dropped) s' := by
  cases hmove with
  | first hi hloc hproc => exact h.getProc hi (fun p hp => absurd (hproc.symm.trans hp) (by simp)) _
  | @finish i p hi hloc hproc hfin =>
      refine h.getProc hi (fun q hq => ?_) _
      rw [Os.drops_of_finished hloc hproc hfin, List.mem_singleton]
      exact (Option.some.inj (hproc.symm.trans hq)).symm
  | @refetch i hi hloc =>
      exact h.getProc hi (fun p hp => absurd ((hrefetch i hloc).symm.trans hp) (by simp)) _
  | put hi hloc hproc hfin htime =>
      rw [Os.drops_of_not_finished hproc hfin]
      exact h.put hproc (hok hloc _ hproc hfin htime) _
  | keep hi hloc hproc hfin htime =>
      rw [Os.drops_of_not_finished hproc hfin]
      exact h.congr rfl (proc_setCpu rfl) rfl
  | run hi hloc hproc hrun =>
      rw [Os.drops_of_ne (by simp [hloc])]
      exact (h.run hrun).congr rfl (proc_setCpu rfl) rfl
  | stop hi hloc | idle hi hloc | dispatch hi hloc | enter hi hloc | leave hi hloc | detach hi hloc =>
      rw [Os.drops_of_ne (by simp [hloc])]
      exact h.congr rfl (proc_setCpu rfl) rfl
  | ldAdd hloc hprog =>
      obtain ⟨hprio, hroom⟩ := hok hloc _ hprog
      exact h.add hprio hroom _
  | ldNext | ldDone | ldWait | ldReady | ldEnter | ldLeave | ldDetach | timer =>
      exact h.congr rfl (fun _ => rfl) rfl

/-! ## The condition is exact -/

/-- `put_proc` without room in the queue. -/
theorem not_noneLost_put (hh : HoldersInv s) (hd : DropInv dropped s) {i p : ℕ}
    (hproc : (s.cpus i).proc = some p)
    (hroom : ¬ (s.sched.waiting (s.prio p)).length < maxQueueSize) {cpu : Cpu} (hcpu : cpu.proc = none) :
    ¬ ({ s with sched := s.sched.putMlqProc p (s.prio p) }.setCpu i cpu).NoneLost cfg dropped := by
  intro hlost
  obtain ⟨proc, hknown⟩ := hh.hand_known i p hproc
  rcases hlost p proc hknown (fun hp => hd.hand p hp i hproc) with ⟨-, hmem⟩ | ⟨j, -, hhand⟩
  · rw [← Os.prio_eq hknown] at hmem
    exact notMem_waiting_enqueue_self (s.sched.putMlqProc_waiting p (s.prio p)) hroom
      (hh.hand_waiting i p hproc _) hmem
  · rcases hand_of_setCpu hhand with ⟨-, hnone⟩ | ⟨hji, hhand⟩
    · exact absurd (hcpu.symm.trans hnone) (by simp)
    · exact hji (hh.hand_inj j i p hhand hproc)

/-- `add_proc` without a queue, or without room in it. -/
theorem not_noneLost_add (hh : HoldersInv s) (hd : DropInv dropped s) {prog : Program}
    (hroom : ¬ (prog.prio < maxPrio ∧ (s.sched.waiting prog.prio).length < maxQueueSize))
    (ldLoc : LdLoc) :
    ¬ ({ s with
      sys := { s.sys with procs := Function.update s.sys.procs (s.loaded + 1) (some (load prog)) }
      sched := s.sched.addMlqProc (s.loaded + 1) prog.prio
      loaded := s.loaded + 1
      ldLoc := ldLoc } : Os).NoneLost cfg dropped := by
  intro hlost
  have hnew : s.loaded + 1 ∉ dropped := by
    intro hp
    obtain ⟨proc, hknown, -⟩ := hd.finished _ hp
    exact hh.procs_next hknown
  rcases hlost (s.loaded + 1) (load prog) (Function.update_self ..) hnew with
    ⟨hprio, hmem⟩ | ⟨j, -, hhand⟩
  · exact notMem_waiting_enqueue_self (s.sched.addMlqProc_waiting (s.loaded + 1) prog.prio)
      (fun hlen => hroom ⟨hprio, hlen⟩) (hh.next_notMem _) hmem
  · obtain ⟨proc, hknown⟩ := hh.hand_known j _ hhand
    exact hh.procs_next hknown

/-- A step without room loses a process. -/
theorem Os.not_noneLost_of_step (hh : HoldersInv s) (hd : DropInv dropped s) {a : Actor}
    (hstep : s.step host cfg a = some s') (hnot : ¬ s.HasRoom cfg a) :
    ¬ s'.NoneLost cfg (s.drops a ++ dropped) := by
  cases Os.move_of_step hstep with
  | @put i p hi hloc hproc hfin htime =>
      rw [Os.drops_of_not_finished hproc hfin]
      refine not_noneLost_put hh hd hproc (fun hroom => hnot fun _ q hq _ _ => ?_) rfl
      rwa [← Option.some.inj (hproc.symm.trans hq)]
  | ldAdd hloc hprog =>
      refine not_noneLost_add hh hd (fun hroom => hnot fun _ prog' hprog' => ?_) _
      rwa [← Option.some.inj (hprog.symm.trans hprog')]
  | first hi hloc hproc =>
      exact absurd (fun _ p hp => absurd (hproc.symm.trans hp) (by simp)) hnot
  | finish hi hloc hproc hfin =>
      refine absurd (fun _ q hq hfin' => ?_) hnot
      rw [← Option.some.inj (hproc.symm.trans hq), hfin] at hfin'
      exact absurd hfin' (by simp)
  | keep hi hloc hproc hfin htime => exact absurd (fun _ _ _ _ ht => absurd ht htime) hnot
  | refetch hi hloc | stop hi hloc | idle hi hloc | dispatch hi hloc | run hi hloc | enter hi hloc
  | leave hi hloc | detach hi hloc =>
      exact absurd (fun htop => absurd (hloc.symm.trans htop) (by simp)) hnot
  | ldNext hloc | ldDone hloc | ldWait hloc | ldReady hloc | ldEnter hloc | ldLeave hloc
  | ldDetach hloc => exact absurd (fun hadd => absurd (hloc.symm.trans hadd) (by simp)) hnot
  | timer => exact absurd trivial hnot

/-- **Run.** -/
theorem LifeRun.lostInv (h : LifeRun (Os.HasRoom cfg) host cfg dropped s) :
    LostInv cfg dropped s := by
  induction h with
  | boot => exact .boot cfg
  | step h a hok hstep ih =>
      obtain ⟨trace, hrun⟩ := h.runIf.osRun
      exact ih.move hrun.refetch_none hok (Os.move_of_step hstep)

/-- **When no process is lost.** For any number of processes and CPUs: as long as every `add_proc`
    and `put_proc` has a queue with room, every process that was loaded and not dropped as finished
    is in the queue of its priority or in the hands of a CPU; the first call without room loses a
    process. So no run loses a process if and only if no run gets to such a call. -/
theorem none_lost_iff :
    (∀ dropped s, LifeRun (Os.HasRoom cfg) host cfg dropped s → s.NoneLost cfg dropped ∧
      ∀ a s', s.step host cfg a = some s' →
        (s'.NoneLost cfg (s.drops a ++ dropped) ↔ s.HasRoom cfg a)) ∧
    ((∀ dropped s, LifeRun (fun _ _ => True) host cfg dropped s → s.NoneLost cfg dropped) ↔
      ∀ trace s a s', OsRun host cfg trace s → s.step host cfg a = some s' → s.HasRoom cfg a) := by
  refine LifeRun.holds_iff (fun dropped s h => h.lostInv.none_lost)
    fun dropped s a s' h hstep hnot => ?_
  obtain ⟨trace, hrun⟩ := h.runIf.osRun
  exact Os.not_noneLost_of_step hrun.holdersInv h.dropInv hstep hnot

end Lost

/-- One CPU, and processes of the first priority that all start at once. -/
def manyProcs (n : ℕ) : Config where
  timeSlot := 100
  numCpus := 1
  programs := List.replicate n ⟨List.replicate 60 ⟨.calc, 0, 0, 0, 0⟩, 0, 0, fun _ => 0⟩
  krnl := ⟨pagesDevice 1, pagesDevice 1, initMm⟩

/-- A time slot in which the CPU runs its process and the loader adds the next one. -/
def loadSlot : List Actor :=
  [.cpu 0, .cpu 0, .cpu 0, .cpu 0, .ld, .ld, .ld, .ld] ++ List.replicate 7 .timer ++ [.ld, .cpu 0]

/-- The first time slot, in which the CPU finds nothing, and `n` more. -/
def loadSlots (n : ℕ) : List Actor :=
  [.cpu 0, .cpu 0, .ld, .ld, .ld, .ld] ++ List.replicate 7 .timer ++ [.ld, .cpu 0] ++
    (List.replicate n loadSlot).flatten

/-- With 52 processes, one runs and 50 wait when the last one is added: it is nowhere. -/
theorem not_none_lost_manyProcs :
    let cfg := manyProcs 52
    ∃ dropped s, LifeRun (fun _ _ => True) generousHost cfg dropped s ∧
      (s.sys.procs 52).map (fun proc => (proc.pc, proc.prio)) = some (0, 0) ∧
      52 ∉ s.sched.waiting 0 ∧ (∀ i < cfg.numCpus, (s.cpus i).proc = some 1) ∧
      ¬ s.NoneLost cfg dropped := by
  intro cfg
  let s := (Os.after generousHost cfg (loadSlots 51)).2
  have hrun : OsRun generousHost cfg _ s := OsRun.after (by decide +kernel)
  obtain ⟨dropped, hlife⟩ := hrun.lifeRun
  -- one evaluation of the run
  obtain ⟨hproc, hwait, hhands⟩ :
      (s.sys.procs 52).map (fun proc => (proc.pc, proc.prio, proc.code.length)) = some (0, 0, 60) ∧
      52 ∉ s.sched.waiting 0 ∧ ∀ i < cfg.numCpus, (s.cpus i).proc = some 1 := by
    decide +kernel
  obtain ⟨proc, hknown, hfields⟩ := Option.map_eq_some_iff.1 hproc
  obtain ⟨hpc, hprio, hlen⟩ : proc.pc = 0 ∧ proc.prio = 0 ∧ proc.code.length = 60 := by
    simpa using hfields
  refine ⟨dropped, s, hlife, by simp [hknown, hpc, hprio], hwait, hhands, fun hlost => ?_⟩
  have hdropped : 52 ∉ dropped := by
    intro hmem
    obtain ⟨proc', hknown', hfin⟩ := hlife.dropInv.finished 52 hmem
    rw [hknown] at hknown'
    cases hknown'
    omega
  rcases hlost 52 proc hknown hdropped with ⟨-, hmem⟩ | ⟨i, hi, hhand⟩
  · rw [hprio] at hmem
    exact hwait hmem
  · exact absurd ((hhands i hi).symm.trans hhand) (by simp)

end Ossim
