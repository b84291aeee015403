import Ossim.Config.Printing
import Ossim.Loader.Accepted
import Ossim.Os.Mapped
import Ossim.System.Recode

set_option autoImplicit false

/-! # From the files to the runs

`load` leaves the operands an opcode does not take as `malloc` has left them, and no instruction looks
at them. So the simulator, started on a printed configuration with printed process files, runs as what
was printed says, whatever the memory it started in held. -/

namespace Ossim

open Scanf Loader

/-! ## Operands that are not taken -/

/-- An instruction with zeros for the operands its opcode does not take. -/
def Inst.trim (ins : Inst) : Inst := setArgs ⟨ins.opcode, 0, 0, 0, 0⟩ ins.operands

theorem Inst.same_trim (ins : Inst) : ins.Same ins.trim := setArgs_same rfl

theorem Inst.Same.trim_eq {ins ins' : Inst} (h : ins.Same ins') : ins'.trim = ins.trim := by
  rw [Inst.trim, Inst.trim, h.opcode, h.operands]

def System.trim (s : System) : System :=
  { s with procs := fun pid => (s.procs pid).map (·.recode (List.map Inst.trim)) }

def Program.trim (prog : Program) : Program := { prog with code := prog.code.map Inst.trim }

def Os.trim (s : Os) : Os := s.mapSys System.trim

section Steps

variable (host : Host)

theorem run_trim (c : Caller) :
    Ossim.run host (c.recode (List.map Inst.trim)) =
      (Ossim.run host c).map (recoded (List.map Inst.trim)) := by
  have hfetch : (c.recode (List.map Inst.trim)).proc.code[(c.recode (List.map Inst.trim)).proc.pc]? =
      (c.proc.code[c.proc.pc]?).map Inst.trim := List.getElem?_map ..
  rw [Ossim.run, Ossim.run, hfetch]
  cases c.proc.code[c.proc.pc]? with
  | none => rfl
  | some ins =>
      change execInst host (c.incPc.recode _) ins.trim = (execInst host c.incPc ins).map _
      rw [execInst_congr host _ ins.same_trim, execInst_recode]

theorem System.run_trim (s : System) (p : ℕ) :
    s.trim.run host p = (s.run host p).map fun r => (r.1, r.2.trim) := by
  have hcaller : s.trim.caller p = (s.caller p).map (·.recode (List.map Inst.trim)) := by
    simp only [System.caller, System.trim, Option.map_map]
    rfl
  have hput : ∀ c : Caller, s.trim.put p (c.recode (List.map Inst.trim)) = (s.put p c).trim := by
    intro c
    simp only [System.put, System.trim, System.mk.injEq]
    refine ⟨rfl, funext fun q => ?_⟩
    by_cases hq : q = p
    · subst hq
      simp only [Function.update_self]
      rfl
    · simp only [Function.update_of_ne hq]
  rw [System.run, System.run, hcaller]
  cases s.caller p with
  | none => rfl
  | some c =>
      simp only [Option.map_some, Option.bind_eq_bind, Option.bind_some, Ossim.run_trim]
      cases Ossim.run host c with
      | none => rfl
      | some r => exact congrArg (fun s => some (r.1, s)) (hput r.2)

/-- The threads do not notice. -/
theorem Os.unseen_trim (s : Os) : s.Unseen host System.trim Program.trim where
  finished := fun p => by
    simp only [Os.isFinished, Os.mapSys, System.trim, Option.map_map]
    cases s.sys.procs p with
    | none => rfl
    | some proc => simp [Pcb.recode]
  prio := fun p => by
    simp only [Os.prio, Os.mapSys, System.trim, Option.map_map]
    rfl
  run := System.run_trim host s.sys
  load := fun pid prog => by
    simp only [System.trim, System.mk.injEq, true_and]
    funext q
    by_cases hq : q = pid
    · subst hq
      simp only [Function.update_self]
      rfl
    · simp only [Function.update_of_ne hq]
  program := fun _ => ⟨rfl, rfl⟩

/-- **Trimming.** The same steps, the same statuses, and the same states but for the operands. -/
theorem Os.reported_trim (cfg : Config) (actors : List Actor) :
    Os.reported host (cfg.mapPrograms Program.trim cfg.krnl) actors =
      (Os.reported host cfg actors).map fun r => (r.1, r.2.trim) := by
  have hfold : ∀ (trace : List (ℕ × ℤ)) (s : Os),
      actors.foldlM (fun (r : List (ℕ × ℤ) × Os) a =>
        (r.2.step host (cfg.mapPrograms Program.trim cfg.krnl) a).map fun s =>
          (r.1 ++ r.2.results host a, s)) (trace, s.trim) =
      (actors.foldlM (fun (r : List (ℕ × ℤ) × Os) a => (r.2.step host cfg a).map fun s =>
        (r.1 ++ r.2.results host a, s)) (trace, s)).map fun r => (r.1, r.2.trim) := by
    induction actors with
    | nil => exact fun _ _ => rfl
    | cons a actors ih =>
        intro trace s
        have hstep := @Os.step_mapSys host cfg _ _ s (s.unseen_trim host) cfg.krnl a
        have hres := Os.results_mapSys (s.unseen_trim host) a
        simp only [List.foldlM_cons]
        unfold Os.trim
        rw [hstep, hres]
        cases s.step host cfg a with
        | none => rfl
        | some s' => exact ih (trace ++ s.results host a) s'
  exact hfold [] (Os.boot cfg)

/-- Configurations with the same programs but for such operands run alike. -/
theorem Os.reported_of_trim {cfg cfg' : Config}
    (h : cfg.mapPrograms Program.trim cfg.krnl = cfg'.mapPrograms Program.trim cfg'.krnl)
    (actors : List Actor) :
    (Os.reported host cfg actors).map (fun r => (r.1, r.2.trim)) =
      (Os.reported host cfg' actors).map fun r => (r.1, r.2.trim) := by
  rw [← Os.reported_trim, ← Os.reported_trim, h]

end Steps

/-! ## Printed files -/

/-- The files of a setup: the configuration, and for each name in it what its process file says. -/
structure Printed (files : Files) (arg : Text) (s : Setup) (code : Text → ProcText) : Prop where
  config : files (inputDir ++ arg) = some s.print
  process : ∀ l ∈ s.lines, files (procDir ++ l.name) = some (code l.name).print

/-- The programs of a setup, from process `i` on. -/
def Setup.programs (mem : StartMem) (code : Text → ProcText) : (i : ℕ) → List ConfigLine → List Program
  | _, [] => []
  | i, l :: ls =>
    ⟨(code l.name).insts, uint32 l.prio, l.startTime, mem.regs i⟩ :: Setup.programs mem code (i + 1) ls

/-- The configuration a setup stands for. -/
def Setup.config (s : Setup) (mem : StartMem) (code : Text → ProcText) : Config where
  timeSlot := s.timeSlot
  numCpus := s.numCpus.toNat
  programs := Setup.programs mem code 0 s.lines
  krnl := mainKrnl mem.mram mem.mswp s.conf.memramsz (s.conf.memswpsz[0]?.getD 0)

theorem map_trim_of_same {insts insts' : List Inst} (h : List.Forall₂ Inst.Same insts insts') :
    insts'.map Inst.trim = insts.map Inst.trim := by
  induction h with
  | nil => rfl
  | cons hins _ ih => rw [List.map_cons, List.map_cons, hins.trim_eq, ih]

/-- All process files load, and what they load to is what they say. -/
theorem loadPrograms_printed (mem : StartMem) {files : Files} {code : Text → ProcText}
    {ls : List ConfigLine} (h : ∀ l ∈ ls, files (procDir ++ l.name) = some (code l.name).print) (i : ℕ) :
    ∃ programs, loadPrograms mem files i (ls.map ConfigLine.ldProcess) = (programs, none) ∧
      programs.map Program.trim = (Setup.programs mem code i ls).map Program.trim := by
  induction ls generalizing i with
  | nil => exact ⟨[], rfl, rfl⟩
  | cons l ls ih =>
      obtain ⟨hl, hls⟩ := List.forall_mem_cons.1 h
      obtain ⟨r, hload, -, hcode⟩ := load_print (mem.load i) (code l.name)
      obtain ⟨programs, hrest, htrim⟩ := ih hls (i + 1)
      refine ⟨⟨r.code, uint32 l.prio, l.startTime, mem.regs i⟩ :: programs, ?_, ?_⟩
      · rw [List.map_cons, loadPrograms, ConfigLine.ldProcess, hl, hload]
        simp only [hrest]
      · rw [Setup.programs, List.map_cons, List.map_cons, htrim, Program.trim, Program.trim,
          map_trim_of_same hcode]

/-! ## Runs from the files -/

theorem Startup.step_ok {host : Host} {st : Startup} {s : Os} {a : Actor} {r : Option Os}
    (h : st.step host s a = .ok r) : s.step host st.cfg a = r := by
  unfold Startup.step at h
  split at h
  · split at h
    · exact Except.ok.inj h
    · exact absurd h (by simp)
  · exact Except.ok.inj h

/-- Up to a load that fails, the threads run as the configuration says. -/
theorem Startup.Run.osRun {host : Host} {st : Startup} {trace : List (ℕ × ℕ)} {s : Os}
    (h : st.Run host trace s) : OsRun host st.cfg trace s := by
  induction h with
  | boot => exact .boot
  | step _ a hstep ih => exact .step ih a (st.step_ok hstep)

theorem Startup.step_of_loads {host : Host} {cfg : Config} {s : Os} {a : Actor} :
    (Startup.mk cfg none).step host s a = .ok (s.step host cfg a) := by
  unfold Startup.step
  split
  · next h => exact absurd h (by simp)
  · rfl

/-- Where all files load, the runs are those of the configuration. -/
theorem Startup.run_iff_of_loads {host : Host} {cfg : Config} {trace : List (ℕ × ℕ)} {s : Os} :
    (Startup.mk cfg none).Run host trace s ↔ OsRun host cfg trace s := by
  refine ⟨Startup.Run.osRun, fun h => ?_⟩
  induction h with
  | boot => exact .boot
  | step _ a hstep ih => exact .step ih a (by rw [Startup.step_of_loads, hstep])

theorem Startup.Run.of_schedule {host : Host} {st : Startup} {actors : List Actor}
    {r : List (ℕ × ℕ) × Os} (h : st.schedule host actors = some r) : st.Run host r.1 r.2 := by
  unfold Startup.schedule at h
  refine foldlM_invariant (P := fun r => st.Run host r.1 r.2) ?_ .boot h
  intro r a r' hr hr'
  obtain ⟨s, hs, rfl⟩ := Option.map_eq_some_iff.1 hr'
  refine hr.step a ?_
  cases hstep : st.step host r.2 a with
  | error e =>
      rw [hstep] at hs
      exact absurd hs (by simp [Except.toOption])
  | ok _ =>
      rw [hstep] at hs
      exact congrArg Except.ok hs

/-- **From the files to the runs.** Started on printed files, `main` sets up a simulator that runs as
    the setup says: in whatever order the threads take their steps, they take the same steps, the
    instructions report the same statuses, and the states are the same but for operands that no opcode
    takes. What the memory of `read_config` and `load` held before makes no difference. -/
theorem startup_runs (mem : StartMem) {files : Files} {arg : Text} {s : Setup} {code : Text → ProcText}
    (h : Printed files arg s code) (hs : s.Readable) (harg : (inputDir ++ arg).length + 1 ≤ pathSz)
    (argv₀ : Text) :
    ∃ cfg, startup mem files [argv₀, arg] = .ok ⟨cfg, none⟩ ∧ ∀ host actors,
      (Os.reported host cfg actors).map (fun r => (r.1, r.2.trim)) =
        (Os.reported host (s.config mem code) actors).map fun r => (r.1, r.2.trim) := by
  obtain ⟨programs, hload, htrim⟩ := loadPrograms_printed mem h.process 0
  refine ⟨⟨s.timeSlot, s.numCpus.toNat, programs, (s.config mem code).krnl⟩, ?_, ?_⟩
  · rw [startup]
    simp only [if_pos harg, h.config, readConfig_printed mem.prio hs]
    change Except.ok (Startup.mk ⟨_, _, (loadPrograms mem files 0 (s.lines.map ConfigLine.ldProcess)).1, _⟩
      (loadPrograms mem files 0 (s.lines.map ConfigLine.ldProcess)).2) = _
    rw [hload]
    rfl
  · intro host actors
    refine Os.reported_of_trim host ?_ actors
    rw [Config.mapPrograms, Config.mapPrograms]
    exact congrArg (fun programs => (⟨s.timeSlot, s.numCpus.toNat, programs, _⟩ : Config)) htrim

/-- One process, and memory full of other things: its instruction is the first that CPU 0 executes, and
    the region it asks for is allocated. -/
theorem startup_runs_oneProc :
    let s : Setup := {
      timeSlot := 2
      numCpus := 1
      sizes := none
      lines := [⟨['p'], 0, 0, by decide, List.forall_mem_singleton.2 rfl, by decide, by decide⟩]
      timeSlot_fits := by decide
      numCpus_fits := by decide }
    let files : Files := fun path =>
      if path = inputDir ++ ['c'] then some s.print else some (printProc 1 [⟨.alloc, 300, 0, 0, 0⟩])
    let mem : StartMem := ⟨fun _ => 7, zeroMemphy, zeroMemphy,
      fun _ => ⟨['x'], ['y'], 5, 6, fun _ => ⟨.syscall, 1, 2, 3, 4⟩⟩, fun _ _ => 8⟩
    ∃ cfg, startup mem files [[], ['c']] = .ok ⟨cfg, none⟩ ∧
      (Os.reported generousHost cfg (List.replicate 4 .ld ++ List.replicate 4 (.cpu 0))).map Prod.fst =
        some [(1, 0)] := by
  intro s files mem
  let code : Text → ProcText := fun _ => {
    priority := 1
    insts := [⟨.alloc, 300, 0, 0, 0⟩]
    priority_lt := by decide
    length_lt := by decide
    operands_lt := by decide
    short := by unfold LongName; decide }
  have hprinted : Printed files ['c'] s code := ⟨rfl, fun l hl => by
    obtain rfl := List.mem_singleton.1 hl
    rfl⟩
  have hreadable : s.Readable := by
    refine ⟨by decide, fun l hl => ?_, fun _ => ⟨_, [], rfl, ?_⟩⟩
    · obtain rfl := List.mem_singleton.1 hl
      decide
    · exact ConfigLine.notSizes_of_head rfl (by decide) (by decide) (by decide)
  obtain ⟨cfg, hcfg, hruns⟩ := startup_runs mem hprinted hreadable (by decide) []
  refine ⟨cfg, hcfg, ?_⟩
  have hrun := congrArg (Option.map Prod.fst) (hruns generousHost
    (List.replicate 4 .ld ++ List.replicate 4 (.cpu 0)))
  rw [Option.map_map, Option.map_map] at hrun
  refine Eq.trans hrun ?_
  decide +kernel

end Ossim
