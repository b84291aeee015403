import Ossim.Loader
import Ossim.Os

set_option autoImplicit false

/-! # Configuration files (`os.c`)

`read_config` reads the time slot and the numbers of CPUs and processes, then a line with the sizes of
the devices, and then a line for each process. An older kind of file has no line of sizes: a first line
that does not begin with five numbers is taken for a process. `main` sets up the devices and starts the
threads, and `ld_routine` loads the processes, one when it is through with the one before. -/

namespace Ossim

open Scanf Loader

/-! ## `read_config` -/

/-- `char buf[512]` -/
def configBufSz : ℕ := 512

/-- `char proc[100]` -/
def procNameSz : ℕ := 100

/-- The paths of `ld_processes`, and the path of the configuration in `main`. -/
def pathSz : ℕ := 100

def procDir : Text := "input/proc/".toList

/-- The sizes of the devices in a file that does not give them. -/
def defaultSz : ℕ := 0x1000000

/-- An entry of `ld_processes`. -/
structure LdProcess where
  path : Text
  startTime : ℕ
  prio : ℕ

/-- What `read_config` leaves in the variables of `os.c`. The entries are as many as `num_processes`
    says. -/
structure ReadConfig where
  timeSlot : ℤ
  numCpus : ℤ
  memramsz : ℕ
  memswpsz : List ℕ
  ldProcesses : List LdProcess

/-- `fgets` and the `sscanf` of five numbers: the sizes of RAM and of the swap devices, and where the
    processes begin. At the end of the file the sizes stay as they are initialised. -/
def readSizes (file : Text) : Except LoadEnd ((ℕ × List ℕ) × Text) :=
  let r := takeLine (configBufSz - 1) file
  if r.1 = [] then .ok ((0, [0, 0, 0, 0]), file)
  else
    match scanf (numbers 64 5) r.1 with
    | none => .error .undefined
    | some ([v₀, v₁, v₂, v₃, v₄], _) => .ok ((v₀, [v₁, v₂, v₃, v₄]), r.2)
    | some _ => .ok ((defaultSz, [defaultSz, 0, 0, 0]), file)

/-- The body of the loop. Without a word for it, `proc` is used with what the stack holds; `prio` is
    what `malloc` has left in `ld_processes.prio[i]`. -/
def readProcess (prio : ℕ) (file : Text) : Except LoadEnd (LdProcess × Text) :=
  match scanf [.unsigned 64, .space] file with
  | some ([startTime], file) =>
    match scanWord file with
    | (none, _) => .error .undefined
    | (some proc, file) =>
      let path := procDir ++ proc
      if proc.length + 1 ≤ procNameSz ∧ path.length + 1 ≤ pathSz then
        match scanf [.space, .unsigned 64, .space] file with
        | none => .error .undefined
        | some (vs, file) => .ok (⟨path, startTime, vs[0]?.getD prio⟩, file)
      else .error .undefined
  | _ => .error .undefined

/-- The loop, from process `i` on, `n` processes left. -/
def readProcesses (prio : ℕ → ℕ) : (n i : ℕ) → Text → Except LoadEnd (List LdProcess)
  | 0, _, _ => .ok []
  | n + 1, i, file => do
    let (proc, file) ← readProcess (prio i) file
    let procs ← readProcesses prio n (i + 1) file
    .ok (proc :: procs)

/-- `read_config`, on the file that `fopen` opens. -/
def readConfig (prio : ℕ → ℕ) (file : Option Text) : Except LoadEnd ReadConfig :=
  match file with
  | none => .error .exit
  | some file =>
    match scanInts 3 file with
    | none => .error .undefined
    | some (vs, file) => do
      let (sizes, file) ← readSizes file
      let procs ← readProcesses prio (vs[2]?.getD 0).toNat 0 file
      .ok ⟨vs[0]?.getD 0, vs[1]?.getD 0, sizes.1, sizes.2, procs⟩

/-! ## `main` -/

/-- What `main` makes of the sizes it has read, on device structures with arbitrary contents. -/
def mainKrnl (mram mswp : Memphy) (memramsz memswpsz : ℕ) : Krnl :=
  ⟨initMemphy mram memramsz true, initMemphy mswp memswpsz true, initMm⟩

/-- What memory holds before the simulator sets it: the priorities, the structures of the devices, and
    for each process what `load` works on and the registers. -/
structure StartMem where
  prio : ℕ → ℕ
  mram : Memphy
  mswp : Memphy
  load : ℕ → LoadMem
  regs : ℕ → ℕ → ℕ

/-- The files, by their paths. -/
abbrev Files := Text → Option Text

/-- The loads, from process `i` on, up to the first that fails: the programs, and how that load ends.
    `ld_routine` does each when it comes to the process; they depend on the files only. `proc->prio` is
    a `uint32_t`. -/
def loadPrograms (mem : StartMem) (files : Files) : (i : ℕ) → List LdProcess → List Program × Option LoadEnd
  | _, [] => ([], none)
  | i, p :: ps =>
    match Loader.load (mem.load i) (files p.path) with
    | .error e => ([], some e)
    | .ok r =>
      let (programs, ldEnd) := loadPrograms mem files (i + 1) ps
      (⟨r.code, uint32 p.prio, p.startTime, mem.regs i⟩ :: programs, ldEnd)

def inputDir : Text := "input/".toList

/-- What the threads work on: the configuration, with the programs that load, and how the load behind
    the last of them ends, if there is one. -/
structure Startup where
  cfg : Config
  ldEnd : Option LoadEnd

/-- `main` with the given arguments, up to the start of the threads. -/
def startup (mem : StartMem) (files : Files) (argv : List Text) : Except LoadEnd Startup :=
  match argv with
  | [_, arg] =>
    let path := inputDir ++ arg
    if path.length + 1 ≤ pathSz then do
      let conf ← readConfig mem.prio (files path)
      let (programs, ldEnd) := loadPrograms mem files 0 conf.ldProcesses
      .ok {
        cfg := {
          timeSlot := conf.timeSlot
          numCpus := conf.numCpus.toNat
          programs := programs
          krnl := mainKrnl mem.mram mem.mswp conf.memramsz (conf.memswpsz[0]?.getD 0) }
        ldEnd := ldEnd }
    else .error .undefined
  | _ => .error .exit

namespace Startup

/-- A step of a thread. `ld_routine` loads at the top of its loop, and a load that fails ends the
    simulator, whatever the other threads are doing. -/
def step (host : Host) (st : Startup) (s : Os) (a : Actor) : Except LoadEnd (Option Os) :=
  match a, s.ldLoc, st.ldEnd with
  | .ld, .top, some e =>
    if s.loaded < st.cfg.programs.length then .ok (s.step host st.cfg .ld) else .error e
  | _, _, _ => .ok (s.step host st.cfg a)

/-- A run of the simulator, with the instructions fetched so far. -/
inductive Run (host : Host) (st : Startup) : List (ℕ × ℕ) → Os → Prop where
  | boot : Run host st [] (Os.boot st.cfg)
  | step {trace : List (ℕ × ℕ)} {s s' : Os} (h : Run host st trace s) (a : Actor)
      (hstep : st.step host s a = .ok (some s')) : Run host st (trace ++ s.fetches a) s'

/-- The run in which the threads take steps in the order given, `none` if one cannot or the simulator
    ends. -/
def schedule (host : Host) (st : Startup) (actors : List Actor) : Option (List (ℕ × ℕ) × Os) :=
  actors.foldlM (fun r a => (st.step host r.2 a).toOption.join.map fun s => (r.1 ++ r.2.fetches a, s))
    ([], Os.boot st.cfg)

end Startup

end Ossim
