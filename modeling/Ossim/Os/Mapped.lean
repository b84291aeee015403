import Ossim.Os.Independent

set_option autoImplicit false

/-! # What the threads do not look at

The scheduler, the timer and the loops of the threads look at little of the memory of the system: the
priorities of the processes and whether they are at their ends. A change to the system that spares
these, and that commutes with `run` and with the loading of a process, is carried along by every step
(`Os.step_mapSys`). -/

namespace Ossim

def Os.mapSys (s : Os) (g : System → System) : Os := { s with sys := g s.sys }

/-- The change `g` of the system, and the change `h` of the programs it comes with, go unnoticed by the
    next step. -/
structure Os.Unseen (host : Host) (g : System → System) (h : Program → Program) (s : Os) : Prop where
  finished : ∀ p, (s.mapSys g).isFinished p = s.isFinished p
  prio : ∀ p, (s.mapSys g).prio p = s.prio p
  run : ∀ p, (g s.sys).run host p = (s.sys.run host p).map fun r => (r.1, g r.2)
  load : ∀ pid prog, g { s.sys with procs := Function.update s.sys.procs pid (some (load prog)) } =
    { g s.sys with procs := Function.update (g s.sys).procs pid (some (load (h prog))) }
  program : ∀ prog, (h prog).prio = prog.prio ∧ (h prog).startTime = prog.startTime

section Steps

variable {host : Host} {cfg : Config} {g : System → System} {h : Program → Program} {s : Os}

/-- The configuration with other programs and another kernel. -/
def Config.mapPrograms (cfg : Config) (h : Program → Program) (krnl : Krnl) : Config :=
  { cfg with programs := cfg.programs.map h, krnl := krnl }

theorem Os.ldStep_mapSys (hs : s.Unseen host g h) (krnl : Krnl) :
    (s.mapSys g).ldStep (cfg.mapPrograms h krnl) = (s.ldStep cfg).map (·.mapSys g) := by
  have hloc : (s.mapSys g).ldLoc = s.ldLoc := rfl
  have hprog : (cfg.mapPrograms h krnl).programs[(s.mapSys g).loaded]? = (cfg.programs[s.loaded]?).map h :=
    List.getElem?_map ..
  unfold Os.ldStep
  rw [hloc]
  cases s.ldLoc with
  | top =>
      have hlen : (cfg.mapPrograms h krnl).programs.length = cfg.programs.length := List.length_map _
      simp only [hlen]
      change (if s.loaded < cfg.programs.length then _ else _) = _
      split <;> rfl
  | start =>
      simp only [hprog, Option.bind_eq_bind]
      cases cfg.programs[s.loaded]? with
      | none => rfl
      | some prog =>
          simp only [Option.map_some, Option.bind_some, (hs.program prog).2]
          rfl
  | add =>
      simp only [hprog, Option.bind_eq_bind]
      cases cfg.programs[s.loaded]? with
      | none => rfl
      | some prog =>
          simp only [Option.map_some, Option.bind_some, (hs.program prog).1, Os.mapSys, hs.load,
            Option.pure_def]
  | slotWait again =>
      change (s.timer.leave .ld).bind _ = _
      simp only [Option.bind_eq_bind]
      cases s.timer.leave .ld <;> rfl
  | slotEnter again | exit | finished => rfl

theorem Os.cpuStep_mapSys (hs : s.Unseen host g h) (krnl : Krnl) (i : ℕ) :
    (s.mapSys g).cpuStep host (cfg.mapPrograms h krnl) i = (s.cpuStep host cfg i).map (·.mapSys g) := by
  have hcpu : (s.mapSys g).cpus i = s.cpus i := rfl
  simp only [Os.cpuStep, hcpu]
  cases (s.cpus i).loc with
  | top =>
      cases (s.cpus i).proc with
      | none => rfl
      | some p =>
          simp only [hs.finished p, hs.prio p]
          split
          · rfl
          · split <;> rfl
  | check => cases (s.cpus i).proc <;> rfl
  | run =>
      cases (s.cpus i).proc with
      | none => rfl
      | some p =>
          change ((g s.sys).run host p).bind _ = _
          rw [hs.run p]
          simp only [Option.bind_eq_bind]
          cases s.sys.run host p <;> rfl
  | slotWait =>
      change (s.timer.leave (.cpu i)).bind _ = _
      simp only [Option.bind_eq_bind]
      cases s.timer.leave (.cpu i) <;> rfl
  | refetch | slotEnter | exit | stopped => rfl

/-- The threads take the same steps. -/
theorem Os.step_mapSys (hs : s.Unseen host g h) (krnl : Krnl) (a : Actor) :
    (s.mapSys g).step host (cfg.mapPrograms h krnl) a = (s.step host cfg a).map (·.mapSys g) := by
  cases a with
  | cpu i =>
      have hnum : (cfg.mapPrograms h krnl).numCpus = cfg.numCpus := rfl
      simp only [Os.step, hnum]
      split
      · exact Os.cpuStep_mapSys hs krnl i
      · rfl
  | ld => exact Os.ldStep_mapSys hs krnl
  | timer =>
      change (s.timer.step cfg.devList).map _ = ((s.timer.step cfg.devList).map _).map _
      cases s.timer.step cfg.devList <;> rfl

/-- They report the same statuses. -/
theorem Os.results_mapSys (hs : s.Unseen host g h) (a : Actor) :
    (s.mapSys g).results host a = s.results host a := by
  cases a with
  | cpu i =>
      have hcpu : (s.mapSys g).cpus i = s.cpus i := rfl
      simp only [Os.results, hcpu]
      split
      · next p _ _ =>
          change (((g s.sys).run host p).map _).toList = _
          rw [hs.run p, Option.map_map]
          rfl
      · rfl
  | ld | timer => rfl

end Steps

end Ossim
