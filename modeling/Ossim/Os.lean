import Ossim.Cpu
import Ossim.Sched
import Ossim.Timer

set_option autoImplicit false

/-! # The simulator (`os.c`)

The threads of the simulator: `cpu_routine` for every CPU, `ld_routine`, and the timer. Each thread is
a state machine whose steps are the calls into the scheduler, the timer and `run`, and the reads and
writes of shared variables between them; a run of the simulator is any interleaving of their steps. -/

namespace Ossim

/-- A line of the configuration: the program to load, its priority, as `proc->prio` holds it, and its
    start time. -/
structure Program where
  code : List Inst
  prio : ℕ
  startTime : ℕ
  /-- what the registers of the new process hold: `load` does not set them -/
  regs : ℕ → ℕ

/-- `load` and the set-up of the process in `ld_routine`, the allocations granted. -/
def load (prog : Program) : Pcb where
  code := prog.code
  regs := prog.regs
  pc := 0
  prio := prog.prio
  mm := initMm
  registered := true

/-- What `read_config` reads, and the kernel `main` sets up. -/
structure Config where
  timeSlot : ℤ
  numCpus : ℕ
  programs : List Program
  krnl : Krnl

/-- The devices attached to the timer. -/
inductive Dev where
  | cpu (id : ℕ)
  | ld
  deriving DecidableEq

/-- `dev_list`: `attach_event` puts the newest in front. -/
def Config.devList (cfg : Config) : List Dev := .ld :: ((List.range cfg.numCpus).map .cpu).reverse

/-! ## States -/

/-- Where `cpu_routine` is. -/
inductive CpuLoc where
  /-- at the check of the current process -/
  | top
  /-- between `put_proc` and `get_proc` -/
  | refetch
  /-- at the recheck after loading a process -/
  | check
  /-- in `run` -/
  | run
  /-- about to call `next_slot` -/
  | slotEnter
  /-- in `next_slot` -/
  | slotWait
  /-- out of the loop, about to detach -/
  | exit
  | stopped
  deriving DecidableEq

/-- The variables of a `cpu_routine`. -/
structure Cpu where
  loc : CpuLoc
  /-- the process in the hands of the CPU -/
  proc : Option ℕ
  timeLeft : ℤ

/-- Where `ld_routine` is. The flag of the slot says where it goes on: to the test of the start time,
    or to the next process. -/
inductive LdLoc where
  | top
  /-- at the test of the start time -/
  | start
  | add
  | slotEnter (again : Bool)
  | slotWait (again : Bool)
  /-- out of the loop, about to detach -/
  | exit
  | finished

/-- The simulator. Processes have the numbers `load` gives them, from 1 on. -/
structure Os where
  sys : System
  sched : Sched ℕ
  timer : Timer Dev
  cpus : ℕ → Cpu
  ldLoc : LdLoc
  /-- the number of processes loaded -/
  loaded : ℕ
  done : Bool

namespace Os

/-- Once `main` has created the threads. -/
def boot (cfg : Config) : Os where
  sys := ⟨cfg.krnl, fun _ => none⟩
  sched := Sched.init
  timer := Timer.start
  cpus := fun _ => ⟨.top, none, 0⟩
  ldLoc := .top
  loaded := 0
  done := false

def setCpu (s : Os) (i : ℕ) (cpu : Cpu) : Os := { s with cpus := Function.update s.cpus i cpu }

/-- `proc->prio` -/
def prio (s : Os) (p : ℕ) : ℕ := ((s.sys.procs p).map Pcb.prio).getD 0

/-- `proc->pc == proc->code->size` -/
def isFinished (s : Os) (p : ℕ) : Bool :=
  ((s.sys.procs p).map fun proc => proc.pc == proc.code.length).getD false

/-! ## Steps -/

/-- `get_proc` by CPU `i`, which then is `cpu` with the process in its hands. -/
def getProc (s : Os) (i : ℕ) (cpu : Cpu) : Os :=
  { s with sched := s.sched.getMlqProc.2 }.setCpu i { cpu with proc := s.sched.getMlqProc.1 }

/-- A step of `cpu_routine`. -/
def cpuStep (host : Host) (cfg : Config) (s : Os) (i : ℕ) : Option Os :=
  let cpu := s.cpus i
  match cpu.loc, cpu.proc with
  | .top, none =>
    some (s.getProc i { cpu with loc := if s.sched.getMlqProc.1.isSome then .check else .slotEnter })
  | .top, some p =>
    if s.isFinished p then some (s.getProc i { cpu with loc := .check, timeLeft := 0 })
    else if cpu.timeLeft = 0 then
      some ({ s with sched := s.sched.putMlqProc p (s.prio p) }.setCpu i
        { cpu with loc := .refetch, proc := none })
    else some (s.setCpu i { cpu with loc := .check })
  | .refetch, _ => some (s.getProc i { cpu with loc := .check })
  | .check, none => some (s.setCpu i { cpu with loc := if s.done then .exit else .slotEnter })
  | .check, some _ =>
    some (s.setCpu i { cpu with
      loc := .run
      timeLeft := if cpu.timeLeft = 0 then cfg.timeSlot else cpu.timeLeft })
  | .run, none => none
  | .run, some p => do
    let r ← s.sys.run host p
    return { s with sys := r.2 }.setCpu i
      { cpu with loc := .slotEnter, timeLeft := cpu.timeLeft - 1 }
  | .slotEnter, _ =>
    some ({ s with timer := s.timer.enter (.cpu i) }.setCpu i { cpu with loc := .slotWait })
  | .slotWait, _ => do
    let timer ← s.timer.leave (.cpu i)
    return { s with timer := timer }.setCpu i { cpu with loc := .top }
  | .exit, _ =>
    some ({ s with timer := s.timer.detach (.cpu i) }.setCpu i { cpu with loc := .stopped })
  | .stopped, _ => none

/-- A step of `ld_routine`. -/
def ldStep (cfg : Config) (s : Os) : Option Os :=
  match s.ldLoc with
  | .top =>
    if s.loaded < cfg.programs.length then some { s with ldLoc := .start }
    else some { s with ldLoc := .exit, done := true }
  | .start => do
    let prog ← cfg.programs[s.loaded]?
    return { s with ldLoc := if s.timer.time < prog.startTime then .slotEnter true else .add }
  | .add => do
    let prog ← cfg.programs[s.loaded]?
    let pid := s.loaded + 1
    return { s with
      sys := { s.sys with procs := Function.update s.sys.procs pid (some (load prog)) }
      sched := s.sched.addMlqProc pid prog.prio
      loaded := pid
      ldLoc := .slotEnter false }
  | .slotEnter again => some { s with timer := s.timer.enter .ld, ldLoc := .slotWait again }
  | .slotWait again => do
    let timer ← s.timer.leave .ld
    return { s with timer := timer, ldLoc := if again then .start else .top }
  | .exit => some { s with timer := s.timer.detach .ld, ldLoc := .finished }
  | .finished => none

end Os

/-- The threads. -/
inductive Actor where
  | cpu (i : ℕ)
  | ld
  | timer

namespace Os

/-- A step of a thread, `none` if it has to wait or is at its end. -/
def step (host : Host) (cfg : Config) (s : Os) : Actor → Option Os
  | .cpu i => if i < cfg.numCpus then s.cpuStep host cfg i else none
  | .ld => s.ldStep cfg
  | .timer => (s.timer.step cfg.devList).map fun timer => { s with timer := timer }

/-- The instruction a step fetches: the process and its program counter. -/
def fetches (s : Os) : Actor → List (ℕ × ℕ)
  | .cpu i =>
    match (s.cpus i).loc, (s.cpus i).proc with
    | .run, some p =>
      match s.sys.procs p with
      | some proc => if proc.pc < proc.code.length then [(p, proc.pc)] else []
      | none => []
    | _, _ => []
  | _ => []

end Os

/-- A run of the simulator, with the instructions fetched so far. -/
inductive OsRun (host : Host) (cfg : Config) : List (ℕ × ℕ) → Os → Prop where
  | boot : OsRun host cfg [] (Os.boot cfg)
  | step {trace : List (ℕ × ℕ)} {s s' : Os} (h : OsRun host cfg trace s) (a : Actor)
      (hstep : s.step host cfg a = some s') : OsRun host cfg (trace ++ s.fetches a) s'

/-- The run in which the threads take steps in the order given, `none` if one cannot. -/
def Os.schedule (host : Host) (cfg : Config) (actors : List Actor) : Option (List (ℕ × ℕ) × Os) :=
  actors.foldlM (fun r a => (r.2.step host cfg a).map fun s => (r.1 ++ r.2.fetches a, s))
    ([], Os.boot cfg)

end Ossim
