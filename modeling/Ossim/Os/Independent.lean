import Ossim.Os.Holders
import Ossim.System.Flat

set_option autoImplicit false

/-! # A process of the simulator is its program on its own

The threads of the simulator interleave as they like, and CPUs, time slots, priorities, devices and the
other programs differ from run to run. None of it shows in the registers and regions of a process: they
are those of the program on its own, after as many instructions (`Os.flat_of_run`). -/

namespace Ossim

open Pager Components

/-! ## Programs on their own -/

/-- A program before its first instruction. -/
def Program.solo (prog : Program) : Solo := (load prog).solo

/-- A program on its own, `n` instructions later. -/
def Program.after (prog : Program) (n : ℕ) : Solo := Solo.step^[n] prog.solo

/-- The program before its first instruction, with no byte known. -/
def Program.flat (prog : Program) : Flat := ⟨prog.solo, fun _ => none⟩

/-- The bytes a program knows after `n` instructions of which no WRITE failed. -/
def Program.known (prog : Program) (n : ℕ) : ℕ → Option Byte := ((fun m => m.step 0)^[n] prog.flat).mem

/-- The instructions of a program are tame, and its area stays below the range of an `int`: all of it
    can be told from the program alone. -/
structure Program.Tame (prog : Program) : Prop where
  insts : ∀ ins ∈ prog.code, ins.Tame
  fits : ∀ n < prog.code.length, ∀ ins, prog.code[n]? = some ins → (prog.after n).heap.Fits ins

/-- Tame programs, and a fresh kernel with devices that hold all frames on their lists, with numbers that
    fit an entry. -/
structure Config.Tame (cfg : Config) : Prop where
  booted : Booted (Os.boot cfg).sys
  framesHeld : FramesHeld (Os.boot cfg).sys
  programs : ∀ prog ∈ cfg.programs, prog.Tame

/-- The machine of process `pid`, which runs program number `pid - 1`. -/
def Config.flat (cfg : Config) (pid : ℕ) : Flat :=
  ((cfg.programs[pid - 1]?).map Program.flat).getD ⟨⟨[], fun _ => 0, 0, initMm.heap⟩, fun _ => none⟩

section Programs

variable {prog : Program}

theorem Program.after_succ (n : ℕ) : prog.after (n + 1) = (prog.after n).step :=
  Function.iterate_succ_apply' ..

theorem Program.after_code (n : ℕ) : (prog.after n).code = prog.code := by
  induction n with
  | zero => rfl
  | succ n ih => rw [Program.after_succ, Solo.step_code, ih]

/-- A program that is at its counter's place is where the counter says. -/
theorem Program.after_of_iterate {m : Solo} {n : ℕ} (h : Solo.step^[n] prog.solo = m) :
    m = prog.after m.pc := by
  have hcount := (iterate_eq_of_counter Solo.step_counts prog.solo n).2
  rw [h] at hcount
  exact hcount.symm

/-- The next instruction of a tame program is tame and fits. -/
theorem Program.Tame.next (h : prog.Tame) {m : Solo} (hm : m = prog.after m.pc) {ins : Inst}
    (hfetch : m.fetch = some ins) : ins.Tame ∧ m.heap.Fits ins := by
  have hcode : m.code = prog.code := (congrArg Solo.code hm).trans (prog.after_code m.pc)
  rw [Solo.fetch, hcode] at hfetch
  obtain ⟨hlt, hget⟩ := List.getElem?_eq_some_iff.1 hfetch
  have hfits := h.fits m.pc hlt ins hfetch
  rw [← hm] at hfits
  exact ⟨h.insts ins (hget ▸ List.getElem_mem hlt), hfits⟩

end Programs

/-! ## A new process -/

/-- A process is added, as `load` leaves it. -/
def System.add (s : System) (pid : ℕ) (prog : Program) : System :=
  { s with procs := Function.update s.procs pid (some (load prog)) }

section Add

variable {host : Host} {exact : Prop} {R S : Set ℕ} {s : System} {pid : ℕ} {prog : Program}

/-- A new process has no page anywhere. -/
theorem System.pager_add (hnew : s.procs pid = none) : (s.add pid prog).pager = s.pager := by
  refine State.ext ?_ rfl rfl rfl rfl
  funext ⟨o, p⟩
  cases o with
  | krnl => rfl
  | proc q =>
      by_cases hq : q = pid
      · subst hq
        simp only [pager, others, add, Function.update_self, hnew]
        change residence (initMm.entry p) = _
        rw [initMm_entry, residence_zero]
      · simp only [pager, others, add, Function.update_of_ne hq]

theorem System.procs_add_of_ne {q : ℕ} (hq : q ≠ pid) : (s.add pid prog).procs q = s.procs q :=
  Function.update_of_ne hq ..

theorem System.procs_add_self : (s.add pid prog).procs pid = some (load prog) :=
  Function.update_self ..

theorem SysInv.add (h : SysInv host exact R S s) (hnew : s.procs pid = none) :
    SysInv host exact R S (s.add pid prog) where
  wf := System.pager_add hnew ▸ h.wf
  within := System.pager_add hnew ▸ h.within
  ram_nodup := h.ram_nodup
  swap_nodup := h.swap_nodup
  ram_holds := h.ram_holds
  swap_holds := h.swap_holds
  pinned := h.pinned
  procs := fun q proc hq => by
    by_cases hqp : q = pid
    · subst hqp
      rw [System.procs_add_self, Option.some.injEq] at hq
      subst hq
      exact ⟨fun _ => rfl, initMm_pagesOk host _, initMm_regionsOk _⟩
    · rw [System.procs_add_of_ne hqp] at hq
      exact h.procs q proc hq

theorem System.IsFlat.add (hnew : s.procs pid = none) {q : ℕ} {m : Flat} (h : s.IsFlat host q m) :
    (s.add pid prog).IsFlat host q m := by
  obtain ⟨proc, hproc, hsolo⟩ := h.solo
  have hq : q ≠ pid := by
    rintro rfl
    exact absurd (hnew.symm.trans hproc) (by simp)
  refine ⟨⟨proc, ?_, hsolo⟩, ?_⟩
  · rw [System.procs_add_of_ne hq]
    exact hproc
  · intro a b hab
    rw [System.pager_add hnew]
    exact h.keeps a b hab

end Add

/-! ## Steps of the simulator -/

/-- The status of the instruction a step executes, with the process. -/
def Os.results (host : Host) (s : Os) : Actor → List (ℕ × ℤ)
  | .cpu i =>
    match (s.cpus i).loc, (s.cpus i).proc with
    | .run, some p => ((s.sys.run host p).map fun r => (p, r.1)).toList
    | _, _ => []
  | _ => []

/-- A step of some thread, which reports the status of the instruction it executes. -/
def Os.Reports (host : Host) (cfg : Config) (s : Os) (events : List (ℕ × ℤ)) (s' : Os) : Prop :=
  ∃ a, s.step host cfg a = some s' ∧ events = s.results host a

/-- The runs of the simulator are those of which the steps report. -/
theorem OsRun.reports {host : Host} {cfg : Config} {fetched : List (ℕ × ℕ)} {s : Os}
    (h : OsRun host cfg fetched s) :
    ∃ trace, Components.Run (Os.Reports host cfg) (Os.boot cfg) trace s := by
  induction h with
  | boot => exact ⟨[], .refl⟩
  | step _ a hstep ih =>
      obtain ⟨trace, hrun⟩ := ih
      exact ⟨_, hrun.step ⟨a, hstep, rfl⟩⟩

/-- What a step does to the processes and their memory. -/
inductive Os.Touch (host : Host) (cfg : Config) (s : Os) (events : List (ℕ × ℤ)) (s' : Os) : Prop where
  | nothing (hsys : s'.sys = s.sys) (hev : events = [])
  | run {p : ℕ} {st : ℤ} (hrun : s.sys.run host p = some (st, s'.sys)) (hev : events = [(p, st)])
  | add {prog : Program} (hprog : cfg.programs[s.loaded]? = some prog)
      (hsys : s'.sys = s.sys.add (s.loaded + 1) prog) (hev : events = [])

theorem Os.Move.touch {host : Host} {cfg : Config} {s s' : Os} {a : Actor}
    (h : s.Move host cfg a s') : s.Touch host cfg (s.results host a) s' := by
  have hnot : ∀ {i : ℕ}, (s.cpus i).loc ≠ .run → s.results host (.cpu i) = [] := by
    intro i hloc
    simp only [Os.results]
    split
    · next hrun _ => exact absurd hrun hloc
    · rfl
  cases h with
  | first hi hloc | finish hi hloc | put hi hloc | keep hi hloc | refetch hi hloc | stop hi hloc
  | idle hi hloc | dispatch hi hloc | enter hi hloc | leave hi hloc | detach hi hloc =>
      exact .nothing rfl (hnot (by rw [hloc]; decide))
  | @run i p st sys hi hloc hproc hrun =>
      refine .run hrun ?_
      simp only [Os.results, hloc, hproc, hrun]
      rfl
  | ldAdd hloc hprog => exact .add hprog rfl rfl
  | ldNext | ldDone | ldWait | ldReady | ldEnter | ldLeave | ldDetach | timer => exact .nothing rfl rfl

theorem Os.Reports.touch {host : Host} {cfg : Config} {s s' : Os} {events : List (ℕ × ℤ)}
    (h : s.Reports host cfg events s') : s.Touch host cfg events s' := by
  obtain ⟨a, hstep, rfl⟩ := h
  exact (Os.move_of_step hstep).touch

/-! ## The invariant -/

/-- Every process is its program on its own, over a memory that is in order. -/
structure SoloInv (host : Host) (cfg : Config) (R S : Set ℕ) (s : Os) : Prop where
  sys : SysInv host True R S s.sys
  holders : HoldersInv s
  solo : ∀ p proc, s.sys.procs p = some proc →
    ∃ prog, cfg.programs[p - 1]? = some prog ∧ proc.solo = prog.after proc.pc

theorem HoldersInv.next_none {s : Os} (h : HoldersInv s) : s.sys.procs (s.loaded + 1) = none :=
  Option.eq_none_iff_forall_ne_some.2 fun _ => h.procs_next

section Steps

variable {host : Host} {cfg : Config} {R S : Set ℕ} {s s' : Os} {events : List (ℕ × ℤ)}

/-- The instruction a process is about to execute is tame. -/
theorem SoloInv.tameStep (ht : cfg.Tame) (h : SoloInv host cfg R S s) {p : ℕ} {st : ℤ} {sys : System}
    (hrun : s.sys.run host p = some (st, sys)) : TameStep host s.sys p sys := by
  obtain ⟨c, _, hc, -, -⟩ := System.run_eq_some hrun
  obtain ⟨prog, hprog, hsolo⟩ := h.solo p c.proc (System.caller_eq_some hc).1
  have htame := ht.programs prog (List.mem_of_getElem? hprog)
  have hins : ∀ ins, s.sys.fetch p = some ins → ins.Tame ∧ c.mm.heap.Fits ins := by
    intro ins hfetch
    rw [System.fetch_of_caller hc] at hfetch
    exact htame.next hsolo hfetch
  refine ⟨⟨st, hrun⟩, fun ins hfetch => (hins ins hfetch).1, fun c' ins hc' hfetch => ?_⟩
  obtain rfl : c = c' := Option.some.inj (hc.symm.trans hc')
  exact ⟨(hins ins hfetch).2.alloc, (hins ins hfetch).2.inc⟩

/-- The process of a step after it. -/
theorem SoloInv.run_solo (hg : host.Generous) (hp : PoolsOk R S) (ht : cfg.Tame)
    (h : SoloInv host cfg R S s) {p : ℕ} {st : ℤ} {sys : System}
    (hrun : s.sys.run host p = some (st, sys)) :
    ∃ proc proc', s.sys.procs p = some proc ∧ sys.procs p = some proc' ∧ proc'.solo = proc.solo.step := by
  obtain ⟨c, _, hc, -, -⟩ := System.run_eq_some hrun
  obtain ⟨hproc, -⟩ := System.caller_eq_some hc
  have hflat : s.sys.IsFlat host p ⟨c.proc.solo, fun _ => none⟩ :=
    ⟨⟨c.proc, hproc, rfl⟩, fun _ _ hab => absurd hab (by simp)⟩
  obtain ⟨proc', hproc', hsolo⟩ := (hflat.step hg hp h.sys (h.tameStep ht hrun) hrun).solo
  exact ⟨c.proc, proc', hproc, hproc', hsolo⟩

/-- **Step.** -/
theorem SoloInv.step (hg : host.Generous) (hp : PoolsOk R S) (ht : cfg.Tame)
    (h : SoloInv host cfg R S s) (hstep : s.Reports host cfg events s') : SoloInv host cfg R S s' := by
  obtain ⟨a, hstep, -⟩ := hstep
  have hmove := Os.move_of_step hstep
  have hholders := h.holders.move hmove
  cases hmove.touch with
  | nothing hsys _ => exact ⟨hsys ▸ h.sys, hholders, hsys ▸ h.solo⟩
  | @run p st hrun _ =>
      have heff := (h.tameStep ht hrun).effect hg hp h.sys
      obtain ⟨proc, proc', hproc, hproc', hnext⟩ := h.run_solo hg hp ht hrun
      refine ⟨heff.inv, hholders, fun q r hq => ?_⟩
      -- the process that ran is one instruction further, the others are where they were
      by_cases hqp : q = p
      · subst hqp
        obtain rfl : proc' = r := Option.some.inj (hproc'.symm.trans hq)
        obtain ⟨prog, hprog, hsolo⟩ := h.solo q proc hproc
        refine ⟨prog, hprog, Program.after_of_iterate (n := proc.pc + 1) ?_⟩
        rw [Function.iterate_succ_apply', hnext, hsolo]
        rfl
      · rw [heff.procs q hqp] at hq
        exact h.solo q r hq
  | @add prog hprog hsys _ =>
      have hnew := h.holders.next_none
      refine ⟨hsys ▸ h.sys.add hnew, hholders, fun q r hq => ?_⟩
      rw [hsys] at hq
      by_cases hq' : q = s.loaded + 1
      · subst hq'
        rw [System.procs_add_self, Option.some.injEq] at hq
        subst hq
        exact ⟨prog, hprog, rfl⟩
      · rw [System.procs_add_of_ne hq'] at hq
        exact h.solo q r hq

theorem SoloInv.boot (ht : cfg.Tame) :
    SoloInv host cfg (Os.boot cfg).sys.ramPool (Os.boot cfg).sys.swapPool (Os.boot cfg) where
  sys := ht.booted.sysInv host fun _ => ht.framesHeld
  holders := .boot cfg
  solo := fun _ _ hp => absurd hp (by simp [Os.boot])

/-- The processes of the simulator are components that do not see each other. -/
theorem os_simulation (hg : host.Generous) (hp : PoolsOk R S) (ht : cfg.Tame) :
    Simulation (Os.Reports host cfg) (SoloInv host cfg R S) (fun p s => (s.sys.procs p).isSome)
      (fun p s m => s.sys.IsFlat host p m) Flat.step cfg.flat where
  inv := fun h hstep => h.step hg hp ht hstep
  alive := fun {q s events s'} h hq hstep => by
    cases hstep.touch with
    | nothing hsys _ => rw [hsys]; exact hq
    | @run p st hrun _ =>
        -- an instruction puts its process back, and no other
        by_cases hqp : q = p
        · obtain ⟨_, proc', -, hproc', -⟩ := h.run_solo hg hp ht hrun
          rw [hqp, hproc']
          rfl
        · rw [((h.tameStep ht hrun).effect hg hp h.sys).procs q hqp]
          exact hq
    | add hprog hsys _ =>
        rw [hsys]
        by_cases hnew : q = s.loaded + 1
        · rw [hnew, System.procs_add_self]
          rfl
        · rw [System.procs_add_of_ne hnew]
          exact hq
  rel := fun {q s events s' m} h _ hm hstep => by
    cases hstep.touch with
    | nothing hsys hev =>
        rw [hev, hsys]
        exact hm
    | @run p st hrun hev =>
        -- only its own instructions move a process, and their statuses are the reported ones
        have htame := h.tameStep ht hrun
        rw [hev]
        by_cases hqp : p = q
        · subst hqp
          rw [reports_self]
          exact hm.step hg hp h.sys htame hrun
        · rw [reports_of_ne hqp]
          exact hm.other hg hp h.sys htame hqp
    | add hprog hsys hev =>
        rw [hev, hsys]
        exact hm.add h.holders.next_none
  silent := fun {q s events s'} h hnot hstep => by
    cases hstep.touch with
    | nothing _ hev | add _ _ hev => rw [hev]; rfl
    | @run p st hrun hev =>
        rw [hev]
        refine reports_of_ne ?_ st
        rintro rfl
        obtain ⟨proc, -, hproc, -, -⟩ := h.run_solo hg hp ht hrun
        exact hnot (by rw [hproc]; rfl)
  born := fun {q s events s'} h hnot hstep hborn => by
    cases hstep.touch with
    | nothing hsys _ =>
        rw [hsys] at hborn
        exact absurd hborn hnot
    | @run p st hrun _ =>
        obtain ⟨proc, -, hproc, -, -⟩ := h.run_solo hg hp ht hrun
        have hqp : q ≠ p := by
          rintro rfl
          exact hnot (by rw [hproc]; rfl)
        rw [((h.tameStep ht hrun).effect hg hp h.sys).procs q hqp] at hborn
        exact absurd hborn hnot
    | @add prog hprog hsys _ =>
        rw [hsys] at hborn ⊢
        by_cases hnew : q = s.loaded + 1
        · subst hnew
          -- the loader numbers the processes in the order of the programs
          have hflat : cfg.flat (s.loaded + 1) = prog.flat := by
            rw [Config.flat, Nat.add_sub_cancel, hprog]
            rfl
          rw [hflat]
          exact ⟨⟨load prog, System.procs_add_self, rfl⟩, fun _ _ hab => absurd hab (by simp [Program.flat])⟩
        · rw [System.procs_add_of_ne hnew] at hborn
          exact absurd hborn hnot

end Steps

/-! ## Runs -/

section Runs

variable {host : Host} {cfg : Config} {trace : List (ℕ × ℤ)} {s : Os} {i : ℕ} {prog : Program} {c : Caller}

/-- **Run.** A process of the simulator is its program on its own. -/
theorem Os.flat_of_run (hg : host.Generous) (ht : cfg.Tame)
    (h : Components.Run (Os.Reports host cfg) (Os.boot cfg) trace s)
    (hprog : cfg.programs[i]? = some prog) (hc : s.sys.caller (i + 1) = some c) :
    SoloInv host cfg (Os.boot cfg).sys.ramPool (Os.boot cfg).sys.swapPool s ∧
    c.proc.solo = prog.after c.proc.pc ∧
    s.sys.IsFlat host (i + 1) ((reports (i + 1) trace).foldl Flat.step prog.flat) := by
  have hp := ht.booted.poolsOk
  have hstart : ∀ p, ((Os.boot cfg).sys.procs p).isSome →
      (Os.boot cfg).sys.IsFlat host p (cfg.flat p) := fun _ hsome => absurd hsome (by simp [Os.boot])
  obtain ⟨hinv, hall⟩ := (os_simulation hg hp ht).run h (.boot ht) hstart
  obtain ⟨hproc, -⟩ := System.caller_eq_some hc
  have hflat : cfg.flat (i + 1) = prog.flat := by
    rw [Config.flat, Nat.add_sub_cancel, hprog]
    rfl
  rw [← hflat]
  refine ⟨hinv, ?_, (hall (i + 1)).1 (by rw [hproc]; rfl)⟩
  obtain ⟨prog', hprog', hsolo⟩ := hinv.solo (i + 1) c.proc hproc
  rw [Nat.add_sub_cancel] at hprog'
  obtain rfl : prog = prog' := Option.some.inj (hprog.symm.trans hprog')
  exact hsolo

/-- A process of which no WRITE failed reads what its program on its own knows. -/
theorem Os.read_of_run (hg : host.Generous) (ht : cfg.Tame)
    (h : Components.Run (Os.Reports host cfg) (Os.boot cfg) trace s)
    (hprog : cfg.programs[i]? = some prog) (hc : s.sys.caller (i + 1) = some c)
    (hserved : prog.flat.Served (reports (i + 1) trace)) {rgid offset a : ℕ} {b v : Byte}
    (ha : c.mm.resolve rgid offset = some a) (hb : prog.known c.proc.pc a = some b)
    (hr : (readUserMem host c rgid offset).1 = some v) : v = b := by
  obtain ⟨hinv, hsolo, hflat⟩ := Os.flat_of_run hg ht h hprog hc
  obtain ⟨hproc, -⟩ := System.caller_eq_some hc
  obtain ⟨proc, hproc', hm⟩ := hflat.solo
  obtain rfl : c.proc = proc := Option.some.inj (hproc.symm.trans hproc')
  rw [Flat.foldl_eq_of_served hserved] at hm hflat
  have hcount := (@iterate_eq_of_counter Flat (fun m => m.step 0) (fun m => m.solo.pc)
    (fun m => m.step_counts 0) prog.flat (reports (i + 1) trace).length).2
  rw [← hm] at hcount
  have ha' : c.proc.solo.heap.resolve rgid offset = some a := ha
  have hb' : ((fun m => m.step 0)^[c.proc.solo.pc - prog.flat.solo.pc] prog.flat).mem a = some b := hb
  rw [hm] at ha'
  rw [hcount] at hb'
  exact hflat.read hg ht.booted.poolsOk hinv.sys hc ha' hb' hr

end Runs

/-! ## Reports of a schedule -/

/-- The run in which the threads take steps in the order given, with what they report. -/
def Os.reported (host : Host) (cfg : Config) (actors : List Actor) : Option (List (ℕ × ℤ) × Os) :=
  actors.foldlM (fun r a => (r.2.step host cfg a).map fun s => (r.1 ++ r.2.results host a, s))
    ([], Os.boot cfg)

end Ossim
