import Ossim.Cpu.Proofs
import Ossim.Os
import Ossim.System

set_option autoImplicit false

/-! # The steps of the simulator, one by one

`Os.Move` lists what a step can do, each with the state it needs; `move_of_step` says that there is
nothing else. The invariants of the simulator are proved by cases on it. -/

namespace Ossim

/-! ## Moves -/

inductive Os.Move (host : Host) (cfg : Config) (s : Os) : Actor → Os → Prop where
  /-- an idle CPU asks for a process -/
  | first {i : ℕ} (hi : i < cfg.numCpus) (hloc : (s.cpus i).loc = .top)
      (hproc : (s.cpus i).proc = none) :
      Move host cfg s (.cpu i) (s.getProc i { s.cpus i with
        loc := if s.sched.getMlqProc.1.isSome then .check else .slotEnter })
  /-- a CPU drops a finished process and asks for another -/
  | finish {i p : ℕ} (hi : i < cfg.numCpus) (hloc : (s.cpus i).loc = .top)
      (hproc : (s.cpus i).proc = some p) (hfin : s.isFinished p = true) :
      Move host cfg s (.cpu i) (s.getProc i { s.cpus i with loc := .check, timeLeft := 0 })
  /-- a CPU puts back a process whose time is up -/
  | put {i p : ℕ} (hi : i < cfg.numCpus) (hloc : (s.cpus i).loc = .top)
      (hproc : (s.cpus i).proc = some p) (hfin : s.isFinished p = false)
      (htime : (s.cpus i).timeLeft = 0) :
      Move host cfg s (.cpu i) ({ s with sched := s.sched.putMlqProc p (s.prio p) }.setCpu i
        { s.cpus i with loc := .refetch, proc := none })
  /-- a CPU keeps its process -/
  | keep {i p : ℕ} (hi : i < cfg.numCpus) (hloc : (s.cpus i).loc = .top)
      (hproc : (s.cpus i).proc = some p) (hfin : s.isFinished p = false)
      (htime : (s.cpus i).timeLeft ≠ 0) :
      Move host cfg s (.cpu i) (s.setCpu i { s.cpus i with loc := .check })
  /-- a CPU that has put back its process asks for another -/
  | refetch {i : ℕ} (hi : i < cfg.numCpus) (hloc : (s.cpus i).loc = .refetch) :
      Move host cfg s (.cpu i) (s.getProc i { s.cpus i with loc := .check })
  /-- the stop branch -/
  | stop {i : ℕ} (hi : i < cfg.numCpus) (hloc : (s.cpus i).loc = .check)
      (hproc : (s.cpus i).proc = none) (hdone : s.done = true) :
      Move host cfg s (.cpu i) (s.setCpu i { s.cpus i with loc := .exit })
  | idle {i : ℕ} (hi : i < cfg.numCpus) (hloc : (s.cpus i).loc = .check)
      (hproc : (s.cpus i).proc = none) (hdone : s.done = false) :
      Move host cfg s (.cpu i) (s.setCpu i { s.cpus i with loc := .slotEnter })
  | dispatch {i p : ℕ} (hi : i < cfg.numCpus) (hloc : (s.cpus i).loc = .check)
      (hproc : (s.cpus i).proc = some p) (timeLeft : ℤ) :
      Move host cfg s (.cpu i) (s.setCpu i { s.cpus i with loc := .run, timeLeft := timeLeft })
  | run {i p : ℕ} {st : ℤ} {sys : System} (hi : i < cfg.numCpus) (hloc : (s.cpus i).loc = .run)
      (hproc : (s.cpus i).proc = some p) (hrun : s.sys.run host p = some (st, sys)) :
      Move host cfg s (.cpu i) ({ s with sys := sys }.setCpu i
        { s.cpus i with loc := .slotEnter, timeLeft := (s.cpus i).timeLeft - 1 })
  | enter {i : ℕ} (hi : i < cfg.numCpus) (hloc : (s.cpus i).loc = .slotEnter) :
      Move host cfg s (.cpu i) ({ s with timer := s.timer.enter (.cpu i) }.setCpu i
        { s.cpus i with loc := .slotWait })
  | leave {i : ℕ} {timer : Timer Dev} (hi : i < cfg.numCpus) (hloc : (s.cpus i).loc = .slotWait)
      (hleave : s.timer.leave (.cpu i) = some timer) :
      Move host cfg s (.cpu i) ({ s with timer := timer }.setCpu i { s.cpus i with loc := .top })
  | detach {i : ℕ} (hi : i < cfg.numCpus) (hloc : (s.cpus i).loc = .exit) :
      Move host cfg s (.cpu i) ({ s with timer := s.timer.detach (.cpu i) }.setCpu i
        { s.cpus i with loc := .stopped })
  | ldNext (hloc : s.ldLoc = .top) (hlen : s.loaded < cfg.programs.length) :
      Move host cfg s .ld { s with ldLoc := .start }
  /-- the loader has added all processes -/
  | ldDone (hloc : s.ldLoc = .top) (hlen : ¬ s.loaded < cfg.programs.length) :
      Move host cfg s .ld { s with ldLoc := .exit, done := true }
  | ldWait (hloc : s.ldLoc = .start) : Move host cfg s .ld { s with ldLoc := .slotEnter true }
  | ldReady (hloc : s.ldLoc = .start) : Move host cfg s .ld { s with ldLoc := .add }
  | ldAdd {prog : Program} (hloc : s.ldLoc = .add) (hprog : cfg.programs[s.loaded]? = some prog) :
      Move host cfg s .ld { s with
        sys := { s.sys with
          procs := Function.update s.sys.procs (s.loaded + 1) (some (load prog)) }
        sched := s.sched.addMlqProc (s.loaded + 1) prog.prio
        loaded := s.loaded + 1
        ldLoc := .slotEnter false }
  | ldEnter {again : Bool} (hloc : s.ldLoc = .slotEnter again) :
      Move host cfg s .ld { s with timer := s.timer.enter .ld, ldLoc := .slotWait again }
  | ldLeave {again : Bool} {timer : Timer Dev} (hloc : s.ldLoc = .slotWait again)
      (hleave : s.timer.leave .ld = some timer) :
      Move host cfg s .ld { s with timer := timer, ldLoc := if again then .start else .top }
  | ldDetach (hloc : s.ldLoc = .exit) :
      Move host cfg s .ld { s with timer := s.timer.detach .ld, ldLoc := .finished }
  | timer {timer : Timer Dev} (hstep : s.timer.step cfg.devList = some timer) :
      Move host cfg s .timer { s with timer := timer }

section Inversion

variable {host : Host} {cfg : Config} {s s' : Os}

theorem Os.move_of_cpuStep {i : ℕ} (hi : i < cfg.numCpus) (h : s.cpuStep host cfg i = some s') :
    s.Move host cfg (.cpu i) s' := by
  simp only [Os.cpuStep] at h
  split at h
  · next hloc hproc =>
      obtain rfl := Option.some.inj h
      exact .first hi hloc hproc
  · next p hloc hproc =>
      split at h
      · next hfin =>
          obtain rfl := Option.some.inj h
          exact .finish hi hloc hproc hfin
      · next hfin =>
          split at h
          · next htime =>
              obtain rfl := Option.some.inj h
              exact .put hi hloc hproc (by simpa using hfin) htime
          · next htime =>
              obtain rfl := Option.some.inj h
              exact .keep hi hloc hproc (by simpa using hfin) htime
  · next hloc =>
      obtain rfl := Option.some.inj h
      exact .refetch hi hloc
  · next hloc hproc =>
      obtain rfl := Option.some.inj h
      cases hdone : s.done with
      | true => exact .stop hi hloc hproc hdone
      | false => exact .idle hi hloc hproc hdone
  · next p hloc hproc =>
      obtain rfl := Option.some.inj h
      exact .dispatch hi hloc hproc _
  · exact absurd h (by simp)
  · next p hloc hproc =>
      obtain ⟨⟨st, sys⟩, hrun, heq⟩ := Option.bind_eq_some_iff.1 h
      obtain rfl := Option.some.inj heq
      exact .run hi hloc hproc hrun
  · next hloc =>
      obtain rfl := Option.some.inj h
      exact .enter hi hloc
  · next hloc =>
      obtain ⟨timer, hleave, heq⟩ := Option.bind_eq_some_iff.1 h
      obtain rfl := Option.some.inj heq
      exact .leave hi hloc hleave
  · next hloc =>
      obtain rfl := Option.some.inj h
      exact .detach hi hloc
  · exact absurd h (by simp)

theorem Os.move_of_ldStep (h : s.ldStep cfg = some s') : s.Move host cfg .ld s' := by
  rw [Os.ldStep] at h
  split at h
  · next hloc =>
      split at h
      · next hlen =>
          obtain rfl := Option.some.inj h
          exact .ldNext hloc hlen
      · next hlen =>
          obtain rfl := Option.some.inj h
          exact .ldDone hloc hlen
  · next hloc =>
      obtain ⟨prog, -, heq⟩ := Option.bind_eq_some_iff.1 h
      obtain rfl := Option.some.inj heq
      split
      · exact .ldWait hloc
      · exact .ldReady hloc
  · next hloc =>
      obtain ⟨prog, hprog, heq⟩ := Option.bind_eq_some_iff.1 h
      obtain rfl := Option.some.inj heq
      exact .ldAdd hloc hprog
  · next hloc =>
      obtain rfl := Option.some.inj h
      exact .ldEnter hloc
  · next hloc =>
      obtain ⟨timer, hleave, heq⟩ := Option.bind_eq_some_iff.1 h
      obtain rfl := Option.some.inj heq
      exact .ldLeave hloc hleave
  · next hloc =>
      obtain rfl := Option.some.inj h
      exact .ldDetach hloc
  · exact absurd h (by simp)

theorem Os.move_of_step {a : Actor} (h : s.step host cfg a = some s') : s.Move host cfg a s' := by
  cases a with
  | cpu i =>
      simp only [Os.step] at h
      split at h
      · next hi => exact Os.move_of_cpuStep hi h
      · exact absurd h (by simp)
  | ld => exact Os.move_of_ldStep h
  | timer =>
      obtain ⟨timer, hstep, rfl⟩ := Option.map_eq_some_iff.1 h
      exact .timer hstep

end Inversion

/-- What every step of a loop that may fail keeps holds at its end. -/
theorem foldlM_invariant {α β : Type} {f : β → α → Option β} {P : β → Prop}
    (hstep : ∀ b a b', P b → f b a = some b' → P b') {as : List α} {b b' : β} (hb : P b)
    (h : as.foldlM f b = some b') : P b' := by
  induction as generalizing b with
  | nil =>
      obtain rfl := Option.some.inj h
      exact hb
  | cons a as ih =>
      rw [List.foldlM_cons] at h
      obtain ⟨b₁, hb₁, h⟩ := Option.bind_eq_some_iff.1 h
      exact ih (hstep b a b₁ hb hb₁) h

theorem OsRun.of_schedule {host : Host} {cfg : Config} {actors : List Actor}
    {r : List (ℕ × ℕ) × Os} (h : Os.schedule host cfg actors = some r) : OsRun host cfg r.1 r.2 := by
  unfold Os.schedule at h
  refine foldlM_invariant (P := fun r => OsRun host cfg r.1 r.2) ?_ .boot h
  intro r a r' hr hr'
  obtain ⟨s, hstep, rfl⟩ := Option.map_eq_some_iff.1 hr'
  exact hr.step a hstep

/-- Where a schedule ends that is a run. -/
def Os.after (host : Host) (cfg : Config) (actors : List Actor) : List (ℕ × ℕ) × Os :=
  (Os.schedule host cfg actors).getD ([], Os.boot cfg)

theorem OsRun.after {host : Host} {cfg : Config} {actors : List Actor}
    (h : (Os.schedule host cfg actors).isSome = true) :
    OsRun host cfg (Os.after host cfg actors).1 (Os.after host cfg actors).2 := by
  obtain ⟨r, hr⟩ := Option.isSome_iff_exists.1 h
  rw [Os.after, hr]
  exact .of_schedule hr

/-! ## Runs under a condition -/

/-- A run all whose steps meet a condition on the thread that takes the step and the state before. -/
inductive OsRunIf (ok : Os → Actor → Prop) (host : Host) (cfg : Config) : Os → Prop where
  | boot : OsRunIf ok host cfg (Os.boot cfg)
  | step {s s' : Os} (h : OsRunIf ok host cfg s) (a : Actor) (hok : ok s a)
      (hstep : s.step host cfg a = some s') : OsRunIf ok host cfg s'

section RunIf

variable {ok : Os → Actor → Prop} {host : Host} {cfg : Config} {s : Os} {trace : List (ℕ × ℕ)}

theorem OsRunIf.osRun (h : OsRunIf ok host cfg s) : ∃ trace, OsRun host cfg trace s := by
  induction h with
  | boot => exact ⟨[], .boot⟩
  | step _ a _ hstep ih =>
      obtain ⟨trace, hrun⟩ := ih
      exact ⟨_, hrun.step a hstep⟩

/-- If every step that can be reached meets the condition, every run does. -/
theorem OsRun.runIf (h : OsRun host cfg trace s)
    (hok : ∀ trace s a s', OsRun host cfg trace s → s.step host cfg a = some s' → ok s a) :
    OsRunIf ok host cfg s := by
  induction h with
  | boot => exact .boot
  | step h a hstep ih => exact ih.step a (hok _ _ a _ h hstep) hstep

/-- Where the threads get with steps in the order given, as long as they meet the condition. -/
def Os.afterIf (ok : Os → Actor → Prop) [∀ s a, Decidable (ok s a)] (host : Host) (cfg : Config)
    (actors : List Actor) : Option Os :=
  actors.foldlM (fun s a => if ok s a then s.step host cfg a else none) (Os.boot cfg)

theorem OsRunIf.after [∀ s a, Decidable (ok s a)] {actors : List Actor}
    (h : Os.afterIf ok host cfg actors = some s) : OsRunIf ok host cfg s := by
  unfold Os.afterIf at h
  refine foldlM_invariant ?_ .boot h
  intro s a s' hs hs'
  split at hs'
  · next hok => exact hs.step a hok hs'
  · exact absurd hs' (by simp)

/-- A property that holds along the runs under a condition, and that the first step that does not meet
    the condition breaks: it holds in all runs if and only if all their steps meet the condition. -/
theorem OsRunIf.holds_iff {P : Os → Prop} (hgood : ∀ s, OsRunIf ok host cfg s → P s)
    (hbad : ∀ s a s', OsRunIf ok host cfg s → s.step host cfg a = some s' → ¬ ok s a → ¬ P s') :
    (∀ s, OsRunIf ok host cfg s → P s ∧ ∀ a s', s.step host cfg a = some s' → (P s' ↔ ok s a)) ∧
    ((∀ trace s, OsRun host cfg trace s → P s) ↔
      ∀ trace s a s', OsRun host cfg trace s → s.step host cfg a = some s' → ok s a) := by
  refine ⟨fun s h => ⟨hgood s h, fun a s' hstep => ⟨fun h' => ?_, fun hok => ?_⟩⟩, fun hall => ?_,
    fun hok trace s h => hgood s (h.runIf hok)⟩
  · by_contra hnot
    exact hbad s a s' h hstep hnot h'
  · exact hgood s' (h.step a hok hstep)
  · -- the runs of which all states have the property are runs under the condition
    have hrunIf : ∀ trace s, OsRun host cfg trace s → OsRunIf ok host cfg s := by
      intro trace s h
      induction h with
      | boot => exact .boot
      | step h a hstep ih =>
          refine ih.step a ?_ hstep
          by_contra hnot
          exact hbad _ a _ ih hstep hnot (hall _ _ (h.step a hstep))
    intro trace s a s' h hstep
    by_contra hnot
    exact hbad s a s' (hrunIf trace s h) hstep hnot (hall _ s' (h.step a hstep))

end RunIf

/-- One CPU with time slots of 1, and one process that starts at once with the last priority. -/
def oneCpu (code : List Inst) : Config where
  timeSlot := 1
  numCpus := 1
  programs := [⟨code, 139, 0, fun _ => 0⟩]
  krnl := ⟨pagesDevice 1, pagesDevice 1, initMm⟩

/-- The process is loaded and runs its first instruction. -/
def firstSlot : List Actor := [.ld, .ld, .ld, .ld, .cpu 0, .cpu 0, .cpu 0]

/-- After `firstSlot` the time advances, and the CPU comes back to the top of its loop. -/
def nextSlot : List Actor := .cpu 0 :: List.replicate 7 .timer ++ [.cpu 0]

/-! ## Processes -/

/-- `run` moves the program counter over an instruction, and leaves code and priority. -/
theorem System.run_procs {host : Host} {s s' : System} {pid : ℕ} {st : ℤ}
    (h : s.run host pid = some (st, s')) :
    ∃ proc proc', s.procs pid = some proc ∧
      s'.procs = Function.update s.procs pid (some proc') ∧
      proc'.code = proc.code ∧ proc'.prio = proc.prio ∧
      proc'.pc = if proc.pc < proc.code.length then proc.pc + 1 else proc.pc := by
  obtain ⟨c, c', hc, hrun, rfl⟩ := System.run_eq_some h
  obtain ⟨hproc, -⟩ := System.caller_eq_some hc
  refine ⟨c.proc, c'.proc, hproc, rfl, ?_⟩
  rw [Ossim.run] at hrun
  split at hrun
  · next hnone =>
      obtain rfl : c = c' := congrArg Prod.snd (Option.some.inj hrun)
      have hlen := List.getElem?_eq_none_iff.1 hnone
      exact ⟨rfl, rfl, (if_neg (by omega)).symm⟩
  · next ins hsome =>
      have hlen : c.proc.pc < c.proc.code.length := (List.getElem?_eq_some_iff.1 hsome).1
      have hframe := execInst_proc hrun
      rw [if_pos hlen]
      exact ⟨by rw [hframe]; rfl, by rw [hframe]; rfl, by rw [hframe]; rfl⟩

/-- A process after `run` is an old one with its priority. -/
theorem System.run_prio {host : Host} {s s' : System} {pid : ℕ} {st : ℤ}
    (h : s.run host pid = some (st, s')) {q : ℕ} {r : Pcb} (hr : s'.procs q = some r) :
    ∃ r', s.procs q = some r' ∧ r'.prio = r.prio := by
  obtain ⟨proc, proc', hp, hupd, -, hprio, -⟩ := System.run_procs h
  rw [hupd, Function.update_apply] at hr
  split at hr
  · next hq =>
      cases hr
      exact ⟨proc, hq ▸ hp, hprio.symm⟩
  · exact ⟨r, hr, rfl⟩

end Ossim
