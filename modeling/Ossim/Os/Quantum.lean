import Ossim.Os.Lost

set_option autoImplicit false

/-! # The time quantum

A CPU carries `time_left` across the iterations of its loop. It is 0 whenever the CPU gets a process,
so the process is dispatched with a whole time slot, and `run` is called until the time or the program
is at its end. Nothing of this depends on what `get_proc` returns or on what other threads do, as long
as a process that was freed does not come back and nobody else runs the process in the CPU's hands. -/

namespace Ossim

/-! ## What a CPU does with processes -/

/-- What a CPU does with a process, with the process as it is then. -/
inductive CpuEvent where
  /-- `get_proc` returns it -/
  | got (p : ℕ) (proc : Option Pcb)
  /-- a call of `run` -/
  | ran (p : ℕ)
  /-- `put_proc` -/
  | put (p : ℕ) (proc : Option Pcb)
  /-- it is reported as finished and freed -/
  | finished (p : ℕ) (proc : Option Pcb)

/-- The process the CPU gives up. -/
def CpuEvent.gaveUp : CpuEvent → Option ℕ
  | .put p _ => some p
  | .finished p _ => some p
  | _ => none

/-- The process that is reported as finished. -/
def CpuEvent.reported : CpuEvent → Option ℕ
  | .finished p _ => some p
  | _ => none

/-- The instructions a process has left. -/
def remaining (proc : Option Pcb) : ℕ := (proc.map fun pcb => pcb.code.length - pcb.pc).getD 0

/-- What `get_proc` would return. -/
def Os.gets (s : Os) : List CpuEvent :=
  s.sched.getMlqProc.1.toList.map fun p => .got p (s.sys.procs p)

/-- What the next step of CPU `i` does with processes, the latest first. -/
def Os.cpuEvents (s : Os) (i : ℕ) : List CpuEvent :=
  match (s.cpus i).loc, (s.cpus i).proc with
  | .top, none => s.gets
  | .top, some p =>
    if s.isFinished p then s.gets ++ [.finished p (s.sys.procs p)]
    else if (s.cpus i).timeLeft = 0 then [.put p (s.sys.procs p)]
    else []
  | .refetch, _ => s.gets
  | .run, some p => [.ran p]
  | _, _ => []

/-- What `get_proc` returns is a process whose program counter is within its program, as the loader and
    `run` leave it, and which was not freed. -/
def Os.GetsLive (s : Os) (i : ℕ) (log : List CpuEvent) : Prop :=
  ∀ p proc, .got p proc ∈ s.cpuEvents i →
    (∃ pcb, proc = some pcb ∧ pcb.pc ≤ pcb.code.length) ∧
    p ∉ (s.cpuEvents i ++ log).filterMap CpuEvent.reported

/-- The loop of CPU `i` from its start on, with what it did with processes, the latest first. Between
    its steps all the rest may change in any way, so that `get_proc` can return anything, but not the
    process in the CPU's hands. -/
inductive CpuRun (host : Host) (cfg : Config) (i : ℕ) : List CpuEvent → Os → Prop where
  | start {s : Os} (hi : i < cfg.numCpus) (hcpu : s.cpus i = ⟨.top, none, 0⟩) : CpuRun host cfg i [] s
  | step {log : List CpuEvent} {s s' : Os} (h : CpuRun host cfg i log s) (hlive : s.GetsLive i log)
      (hstep : s.cpuStep host cfg i = some s') : CpuRun host cfg i (s.cpuEvents i ++ log) s'
  | others {log : List CpuEvent} {s s' : Os} (h : CpuRun host cfg i log s)
      (hcpu : s'.cpus i = s.cpus i)
      (hheld : ∀ p, (s.cpus i).proc = some p → s'.sys.procs p = s.sys.procs p) :
      CpuRun host cfg i log s'

/-! ## The property -/

/-- The process was got, and `run` has been called for it `n` times since. -/
def RanSinceGot (p n : ℕ) (before : Option Pcb) (log : List CpuEvent) : Prop :=
  ∃ rest, log = List.replicate n (.ran p) ++ .got p before :: rest

/-- Between getting a process and giving it up, a CPU calls `run` as often as the time slot of `ts`
    allows and the process needs, and at least once; a process that is put back has instructions left
    and had its whole slot; and one that is reported is at its end, and is reported once. -/
structure QuantumKept (ts : ℕ) (log : List CpuEvent) : Prop where
  gaveUp : ∀ p e older, e.gaveUp = some p → e :: older <:+ log →
    ∃ before, RanSinceGot p (min ts (max 1 (remaining before))) before older
  put : ∀ p proc older, .put p proc :: older <:+ log →
    0 < remaining proc ∧ ∃ before, RanSinceGot p ts before older
  finished : ∀ p proc, .finished p proc ∈ log → ∃ pcb, proc = some pcb ∧ pcb.pc = pcb.code.length
  once : (log.filterMap CpuEvent.reported).Nodup

section Log

variable {ts p : ℕ} {log : List CpuEvent}

theorem QuantumKept.nil : QuantumKept ts [] where
  gaveUp := fun _ _ _ _ h => absurd (List.suffix_nil.1 h) (by simp)
  put := fun _ _ _ h => absurd (List.suffix_nil.1 h) (by simp)
  finished := fun _ _ h => absurd h List.not_mem_nil
  once := List.nodup_nil

/-- Getting or running a process gives none up. -/
theorem QuantumKept.cons (h : QuantumKept ts log) {e : CpuEvent} (he : e.gaveUp = none) :
    QuantumKept ts (e :: log) where
  gaveUp := fun p e' older hp hsuf => by
    rcases List.suffix_cons_iff.1 hsuf with heq | hsuf
    · cases heq
      exact absurd (he.symm.trans hp) (by simp)
    · exact h.gaveUp p e' older hp hsuf
  put := fun p proc older hsuf => by
    rcases List.suffix_cons_iff.1 hsuf with heq | hsuf
    · cases heq
      exact absurd he (by simp [CpuEvent.gaveUp])
    · exact h.put p proc older hsuf
  finished := fun p proc hmem => by
    rcases List.mem_cons.1 hmem with heq | hmem
    · cases heq
      exact absurd he (by simp [CpuEvent.gaveUp])
    · exact h.finished p proc hmem
  once := by
    have hnone : e.reported = none := by cases e <;> simp_all [CpuEvent.gaveUp, CpuEvent.reported]
    rw [List.filterMap_cons, hnone]
    exact h.once

/-- A process given up after its share. -/
theorem QuantumKept.gaveUp_cons (h : QuantumKept ts log) {e : CpuEvent} {before : Option Pcb}
    (he : e.gaveUp = some p)
    (hran : RanSinceGot p (min ts (max 1 (remaining before))) before log) :
    ∀ q e' older, e'.gaveUp = some q → e' :: older <:+ e :: log →
      ∃ before, RanSinceGot q (min ts (max 1 (remaining before))) before older := by
  intro q e' older hq hsuf
  rcases List.suffix_cons_iff.1 hsuf with heq | hsuf
  · cases heq
    obtain rfl : p = q := Option.some.inj (he.symm.trans hq)
    exact ⟨before, hran⟩
  · exact h.gaveUp q e' older hq hsuf

theorem QuantumKept.cons_put (h : QuantumKept ts log) {before proc : Option Pcb}
    (hran : RanSinceGot p ts before log) (hlong : ts < remaining before) (hleft : 0 < remaining proc) :
    QuantumKept ts (.put p proc :: log) where
  gaveUp := by
    have hmin : min ts (max 1 (remaining before)) = ts := by omega
    exact h.gaveUp_cons rfl (by rwa [hmin])
  put := fun q proc' older hsuf => by
    rcases List.suffix_cons_iff.1 hsuf with heq | hsuf
    · cases heq
      exact ⟨hleft, before, hran⟩
    · exact h.put q proc' older hsuf
  finished := fun q proc' hmem => by
    rcases List.mem_cons.1 hmem with heq | hmem
    · exact absurd heq (by simp)
    · exact h.finished q proc' hmem
  once := h.once

theorem QuantumKept.cons_finished (h : QuantumKept ts log) {before : Option Pcb} {pcb : Pcb}
    (hran : RanSinceGot p (max 1 (remaining before)) before log) (hle : max 1 (remaining before) ≤ ts)
    (hend : pcb.pc = pcb.code.length) (hnew : p ∉ log.filterMap CpuEvent.reported) :
    QuantumKept ts (.finished p (some pcb) :: log) where
  gaveUp := by
    have hmin : min ts (max 1 (remaining before)) = max 1 (remaining before) := Nat.min_eq_right hle
    exact h.gaveUp_cons rfl (by rwa [hmin])
  put := fun q proc' older hsuf => by
    rcases List.suffix_cons_iff.1 hsuf with heq | hsuf
    · exact absurd heq (by simp)
    · exact h.put q proc' older hsuf
  finished := fun q proc' hmem => by
    rcases List.mem_cons.1 hmem with heq | hmem
    · cases heq
      exact ⟨pcb, rfl, hend⟩
    · exact h.finished q proc' hmem
  once := List.nodup_cons.2 ⟨hnew, h.once⟩

end Log

/-! ## The invariant -/

/-- How the time left and the place in the loop go together for a process that had `rem` instructions
    left when the CPU got it and has been run `k` times since. -/
structure TimeOk (ts : ℤ) (rem k : ℕ) (cpu : Cpu) : Prop where
  check : cpu.loc = .check →
    k = 0 ∧ cpu.timeLeft = 0 ∨ 0 < k ∧ k < rem ∧ cpu.timeLeft = ts - k ∧ 0 < cpu.timeLeft
  run : cpu.loc = .run → (k = 0 ∨ k < rem) ∧ cpu.timeLeft = ts - k ∧ 0 < cpu.timeLeft
  slot : cpu.loc = .slotEnter ∨ cpu.loc = .slotWait ∨ cpu.loc = .top →
    0 < k ∧ k ≤ max 1 rem ∧ cpu.timeLeft = ts - k ∧ 0 ≤ cpu.timeLeft
  inside : cpu.loc ≠ .refetch ∧ cpu.loc ≠ .exit ∧ cpu.loc ≠ .stopped

/-- The process in the CPU's hands, got as `before` and run `k` times since. -/
structure Stint (ts : ℤ) (log : List CpuEvent) (cpu : Cpu) (p : ℕ) (proc before : Pcb) (k : ℕ) :
    Prop where
  ran : RanSinceGot p k (some before) log
  code : proc.code = before.code
  pc : proc.pc = before.pc + min k (before.code.length - before.pc)
  pc_le : before.pc ≤ before.code.length
  time : TimeOk ts (before.code.length - before.pc) k cpu

/-- What the loop keeps. -/
structure QuantumInv (ts : ℤ) (i : ℕ) (log : List CpuEvent) (s : Os) : Prop where
  kept : QuantumKept ts.toNat log
  idle : (s.cpus i).proc = none → (s.cpus i).timeLeft = 0
  held : ∀ p, (s.cpus i).proc = some p → p ∉ log.filterMap CpuEvent.reported ∧
    ∃ proc before k, s.sys.procs p = some proc ∧ Stint ts log (s.cpus i) p proc before k

section Step

variable {host : Host} {cfg : Config} {i p : ℕ} {log : List CpuEvent} {s s' : Os}

theorem Os.setCpu_self (s : Os) (i : ℕ) (cpu : Cpu) : (s.setCpu i cpu).cpus i = cpu :=
  Function.update_self ..

theorem QuantumInv.setCpu {ts : ℤ} (h : QuantumInv ts i log s) {t : Os} (hsys : t.sys = s.sys)
    {cpu : Cpu} (hproc : cpu.proc = (s.cpus i).proc) (hleft : cpu.proc = none → cpu.timeLeft = 0)
    (htime : ∀ p proc before k, (s.cpus i).proc = some p → s.sys.procs p = some proc →
      Stint ts log (s.cpus i) p proc before k → TimeOk ts (before.code.length - before.pc) k cpu) :
    QuantumInv ts i log (t.setCpu i cpu) where
  kept := h.kept
  idle := by
    rw [Os.setCpu_self]
    exact hleft
  held := fun p hp => by
    rw [Os.setCpu_self, hproc] at hp
    obtain ⟨hnew, proc, before, k, hknown, hstint⟩ := h.held p hp
    rw [Os.setCpu_self]
    refine ⟨hnew, proc, before, k, by rw [← hknown, ← hsys]; rfl, hstint.ran, hstint.code, hstint.pc,
      hstint.pc_le, htime p proc before k hp hknown hstint⟩

theorem QuantumInv.goto {ts : ℤ} (h : QuantumInv ts i log s) {t : Os} (hsys : t.sys = s.sys) (loc : CpuLoc)
    (htime : ∀ p proc before k, (s.cpus i).proc = some p → s.sys.procs p = some proc →
      Stint ts log (s.cpus i) p proc before k →
      TimeOk ts (before.code.length - before.pc) k { s.cpus i with loc := loc }) :
    QuantumInv ts i log (t.setCpu i { s.cpus i with loc := loc }) :=
  h.setCpu hsys rfl h.idle htime

theorem QuantumInv.getProc {ts : ℤ} (hkept : QuantumKept ts.toNat log) {cpu : Cpu}
    (hleft : cpu.timeLeft = 0) (hloc : ∀ p, s.sched.getMlqProc.1 = some p → cpu.loc = .check)
    (hlive : ∀ p, s.sched.getMlqProc.1 = some p →
      (∃ pcb, s.sys.procs p = some pcb ∧ pcb.pc ≤ pcb.code.length) ∧
      p ∉ log.filterMap CpuEvent.reported) :
    QuantumInv ts i (s.gets ++ log) (s.getProc i cpu) := by
  cases hget : s.sched.getMlqProc.1 with
  | none =>
      have hnothing : s.gets = [] := by rw [Os.gets, hget]; rfl
      rw [hnothing]
      refine ⟨hkept, fun _ => ?_, fun p hp => ?_⟩
      · rw [Os.getProc, Os.setCpu_self]
        exact hleft
      · rw [Os.getProc, Os.setCpu_self] at hp
        exact absurd (hget.symm.trans hp) (by simp)
  | some q =>
      -- a stint begins, with no instruction run so far
      obtain ⟨⟨pcb, hknown, hle⟩, hnew⟩ := hlive q hget
      have hone : s.gets = [.got q (some pcb)] := by rw [Os.gets, hget, ← hknown]; rfl
      rw [hone]
      refine ⟨hkept.cons rfl, fun hnone => ?_, fun p hp => ?_⟩
      · rw [Os.getProc, Os.setCpu_self] at hnone
        exact absurd (hget.symm.trans hnone) (by simp)
      · rw [Os.getProc, Os.setCpu_self] at hp ⊢
        obtain rfl : q = p := Option.some.inj (hget.symm.trans hp)
        have hcheck := hloc q hget
        refine ⟨hnew, pcb, pcb, 0, hknown, ⟨log, rfl⟩, rfl, by simp, hle, ?_, ?_, ?_, ?_⟩
        · exact fun _ => Or.inl ⟨rfl, hleft⟩
        · exact fun hrun => absurd (hcheck.symm.trans hrun) (by simp)
        · simp [hcheck]
        · simp [hcheck]

theorem Stint.finished {ts : ℤ} {cpu : Cpu} {proc before : Pcb} {k : ℕ}
    (h : Stint ts log cpu p proc before k) (hloc : cpu.loc = .top) (hend : proc.pc = proc.code.length) :
    RanSinceGot p (max 1 (remaining (some before))) (some before) log ∧
      max 1 (remaining (some before)) ≤ ts.toNat := by
  obtain ⟨hpos, hle, hleft, hnonneg⟩ := h.time.slot (Or.inr (Or.inr hloc))
  have hpc := h.pc
  have hstart := h.pc_le
  rw [hend, h.code] at hpc
  have hrem : remaining (some before) = before.code.length - before.pc := rfl
  have hk : k = max 1 (remaining (some before)) := by omega
  refine ⟨hk ▸ h.ran, ?_⟩
  omega

theorem Stint.put {ts : ℤ} {cpu : Cpu} {proc before : Pcb} {k : ℕ}
    (h : Stint ts log cpu p proc before k) (hloc : cpu.loc = .top) (hleft : cpu.timeLeft = 0)
    (hend : proc.pc ≠ proc.code.length) :
    RanSinceGot p ts.toNat (some before) log ∧ ts.toNat < remaining (some before) ∧
      0 < remaining (some proc) := by
  obtain ⟨-, hle, htime, -⟩ := h.time.slot (Or.inr (Or.inr hloc))
  have hpc := h.pc
  have hstart := h.pc_le
  rw [h.code] at hend
  have hrem : remaining (some before) = before.code.length - before.pc := rfl
  have hrem' : remaining (some proc) = before.code.length - proc.pc := by rw [← h.code]; rfl
  have hk : k = ts.toNat := by omega
  refine ⟨hk ▸ h.ran, ?_, ?_⟩ <;> omega

/-- A process in hand that has time and instructions left goes on to the check. -/
theorem Stint.keep {ts : ℤ} {cpu : Cpu} {proc before : Pcb} {k : ℕ}
    (h : Stint ts log cpu p proc before k) (hloc : cpu.loc = .top) (hleft : cpu.timeLeft ≠ 0)
    (hend : proc.pc ≠ proc.code.length) :
    TimeOk ts (before.code.length - before.pc) k { cpu with loc := .check } := by
  obtain ⟨hpos, hle, htime, hnonneg⟩ := h.time.slot (Or.inr (Or.inr hloc))
  have hpc := h.pc
  have hstart := h.pc_le
  rw [h.code] at hend
  refine ⟨fun _ => Or.inr ?_, by simp, by simp, by simp⟩
  simp only
  omega

/-- A process gets the whole slot when it is dispatched, and keeps what it has otherwise. -/
theorem TimeOk.dispatch {ts : ℤ} {rem k : ℕ} {cpu : Cpu} (hts : 1 ≤ ts) (h : TimeOk ts rem k cpu)
    (hloc : cpu.loc = .check) :
    TimeOk ts rem k
      { cpu with loc := .run, timeLeft := if cpu.timeLeft = 0 then ts else cpu.timeLeft } := by
  have hcheck := h.check hloc
  refine ⟨by simp, fun _ => ?_, by simp, by simp⟩
  simp only
  split <;> omega

theorem QuantumInv.run {ts : ℤ} (h : QuantumInv ts i log s) (hloc : (s.cpus i).loc = .run)
    (hproc : (s.cpus i).proc = some p) {st : ℤ} {sys : System}
    (hrun : s.sys.run host p = some (st, sys)) :
    QuantumInv ts i (.ran p :: log) ({ s with sys := sys }.setCpu i
      { s.cpus i with loc := .slotEnter, timeLeft := (s.cpus i).timeLeft - 1 }) := by
  obtain ⟨hnew, proc, before, k, hknown, ⟨rest, hlog⟩, hcode, hpc, hle, hok⟩ := h.held p hproc
  obtain ⟨proc₁, proc', hknown₁, hupd, hcode', -, hpc'⟩ := System.run_procs hrun
  obtain rfl : proc = proc₁ := Option.some.inj (hknown.symm.trans hknown₁)
  obtain ⟨hfew, hleft, hpos⟩ := hok.run hloc
  refine ⟨h.kept.cons rfl, fun hnone => ?_, fun q hq => ?_⟩
  · rw [Os.setCpu_self] at hnone
    exact absurd (hproc.symm.trans hnone) (by simp)
  · rw [Os.setCpu_self] at hq ⊢
    obtain rfl : p = q := Option.some.inj (hproc.symm.trans hq)
    refine ⟨hnew, proc', before, k + 1, ?_, ⟨rest, ?_⟩, hcode'.trans hcode, ?_, hle, ?_⟩
    · change sys.procs p = some proc'
      rw [hupd, Function.update_self]
    · rw [hlog, List.replicate_succ, List.cons_append]
    · rw [hpc', hcode, hpc]
      split <;> omega
    · refine ⟨fun hc => absurd hc (by simp), fun hr => absurd hr (by simp), fun _ => ?_, by simp⟩
      simp only
      omega

theorem Os.timeLeft_of_dispatch (hloc : (s.cpus i).loc = .check) (hproc : (s.cpus i).proc = some p)
    (hstep : s.cpuStep host cfg i = some s') : (s'.cpus i).timeLeft =
      if (s.cpus i).timeLeft = 0 then cfg.timeSlot else (s.cpus i).timeLeft := by
  simp only [Os.cpuStep, hloc, hproc, Option.some.injEq] at hstep
  rw [← hstep, Os.setCpu_self]

theorem Os.mem_gets (hget : s.sched.getMlqProc.1 = some p) : .got p (s.sys.procs p) ∈ s.gets := by
  simp [Os.gets, hget]

/-- Where a CPU does nothing with processes. -/
theorem Os.cpuEvents_of_quiet (htop : (s.cpus i).loc ≠ .top) (hrefetch : (s.cpus i).loc ≠ .refetch)
    (hrun : (s.cpus i).loc ≠ .run) : s.cpuEvents i = [] := by
  simp only [Os.cpuEvents]
  split
  · next hloc _ => exact absurd hloc htop
  · next hloc _ => exact absurd hloc htop
  · next hloc => exact absurd hloc hrefetch
  · next hloc _ => exact absurd hloc hrun
  · rfl

theorem Os.GetsLive.of_gets {older : List CpuEvent} (hlive : s.GetsLive i log)
    (hev : s.cpuEvents i = s.gets ++ older) (hget : s.sched.getMlqProc.1 = some p) :
    (∃ pcb, s.sys.procs p = some pcb ∧ pcb.pc ≤ pcb.code.length) ∧
      p ∉ (older ++ log).filterMap CpuEvent.reported := by
  rw [Os.GetsLive, hev] at hlive
  obtain ⟨halive, hnew⟩ := hlive p _ (List.mem_append_left _ (Os.mem_gets hget))
  rw [List.append_assoc, List.filterMap_append] at hnew
  exact ⟨halive, fun hmem => hnew (List.mem_append_right _ hmem)⟩

theorem QuantumInv.finish {ts : ℤ} (h : QuantumInv ts i log s) (hlive : s.GetsLive i log)
    (hloc : (s.cpus i).loc = .top) (hproc : (s.cpus i).proc = some p) (hfin : s.isFinished p = true)
    {cpu : Cpu} (hleft : cpu.timeLeft = 0) (hcheck : cpu.loc = .check) :
    QuantumInv ts i (s.cpuEvents i ++ log) (s.getProc i cpu) := by
  have hev : s.cpuEvents i = s.gets ++ [.finished p (s.sys.procs p)] := by
    simp only [Os.cpuEvents, hloc, hproc, hfin, if_true]
  obtain ⟨hnew, proc, before, k, hknown, hstint⟩ := h.held p hproc
  have hend : proc.pc = proc.code.length := by simpa [Os.isFinished, hknown] using hfin
  obtain ⟨hran, hle⟩ := hstint.finished hloc hend
  have hkept := h.kept.cons_finished hran hle hend hnew
  rw [← hknown] at hkept
  rw [hev, List.append_assoc]
  exact .getProc hkept hleft (fun _ _ => hcheck) fun q hq => hlive.of_gets hev hq

theorem QuantumInv.put {ts : ℤ} (h : QuantumInv ts i log s) (hloc : (s.cpus i).loc = .top)
    (hproc : (s.cpus i).proc = some p) (hfin : s.isFinished p = false)
    (hleft : (s.cpus i).timeLeft = 0) {cpu : Cpu} (hcpu : cpu.timeLeft = 0) (hnone : cpu.proc = none)
    (t : Os) : QuantumInv ts i (s.cpuEvents i ++ log) (t.setCpu i cpu) := by
  have hev : s.cpuEvents i = [.put p (s.sys.procs p)] := by
    simp [Os.cpuEvents, hloc, hproc, hfin, hleft]
  obtain ⟨-, proc, before, k, hknown, hstint⟩ := h.held p hproc
  have hend : proc.pc ≠ proc.code.length := by simpa [Os.isFinished, hknown] using hfin
  obtain ⟨hran, hlong, hmore⟩ := hstint.put hloc hleft hend
  rw [hev, hknown, List.singleton_append]
  refine ⟨h.kept.cons_put hran hlong hmore, fun _ => ?_, fun q hq => ?_⟩
  · rw [Os.setCpu_self]
    exact hcpu
  · rw [Os.setCpu_self, hnone] at hq
    exact absurd hq (by simp)

/-- **Step.** -/
theorem QuantumInv.step (hts : 1 ≤ cfg.timeSlot) (hi : i < cfg.numCpus)
    (h : QuantumInv cfg.timeSlot i log s) (hlive : s.GetsLive i log)
    (hstep : s.cpuStep host cfg i = some s') :
    QuantumInv cfg.timeSlot i (s.cpuEvents i ++ log) s' := by
  cases Os.move_of_cpuStep hi hstep with
  | first hi hloc hproc =>
      have hev : s.cpuEvents i = s.gets := by simp only [Os.cpuEvents, hloc, hproc]
      rw [hev]
      exact .getProc h.kept (h.idle hproc) (fun q hq => by simp [hq]) fun q hq =>
        hlive.of_gets (hev.trans (List.append_nil _).symm) hq
  | finish _ hloc hproc hfin => exact h.finish hlive hloc hproc hfin rfl rfl
  | put _ hloc hproc hfin htime =>
      refine h.put hloc hproc hfin htime ?_ ?_ _
      · exact htime
      · rfl
  | @keep _ p _ hloc hproc hfin htime =>
      have hev : s.cpuEvents i = [] := by simp [Os.cpuEvents, hloc, hproc, hfin, htime]
      rw [hev]
      refine h.goto rfl .check fun q proc before k hq hknown hstint => ?_
      obtain rfl : p = q := Option.some.inj (hproc.symm.trans hq)
      exact hstint.keep hloc htime (by simpa [Os.isFinished, hknown] using hfin)
  | refetch _ hloc =>
      have hev : s.cpuEvents i = s.gets := by simp only [Os.cpuEvents, hloc]
      have hnone : (s.cpus i).proc = none := by
        cases hproc : (s.cpus i).proc with
        | none => rfl
        | some p =>
            obtain ⟨-, _, _, _, -, hstint⟩ := h.held p hproc
            exact absurd hloc hstint.time.inside.1
      rw [hev]
      exact .getProc h.kept (h.idle hnone) (fun _ _ => rfl) fun q hq =>
        hlive.of_gets (hev.trans (List.append_nil _).symm) hq
  | @dispatch _ p _ hloc hproc timeLeft =>
      have hleft := Os.timeLeft_of_dispatch hloc hproc hstep
      rw [Os.setCpu_self] at hleft
      rw [Os.cpuEvents_of_quiet (by simp [hloc]) (by simp [hloc]) (by simp [hloc])]
      obtain rfl : timeLeft = _ := hleft
      refine h.setCpu rfl rfl (fun hnone => absurd (hproc.symm.trans hnone) (by simp)) ?_
      exact fun _ _ _ _ _ _ hstint => hstint.time.dispatch hts hloc
  | @run _ p st sys _ hloc hproc hrun =>
      have hev : s.cpuEvents i = [.ran p] := by simp only [Os.cpuEvents, hloc, hproc]
      rw [hev]
      exact h.run hloc hproc hrun
  | stop _ hloc hproc | idle _ hloc hproc =>
      rw [Os.cpuEvents_of_quiet (by simp [hloc]) (by simp [hloc]) (by simp [hloc])]
      exact h.goto rfl _ fun q _ _ _ hq => absurd (hproc.symm.trans hq) (by simp)
  | enter _ hloc =>
      rw [Os.cpuEvents_of_quiet (by simp [hloc]) (by simp [hloc]) (by simp [hloc])]
      refine h.goto ?_ .slotWait fun q proc before k _ _ hstint => ?_
      · rfl
      · exact ⟨by simp, by simp, fun _ => hstint.time.slot (Or.inl hloc), by simp⟩
  | leave _ hloc =>
      rw [Os.cpuEvents_of_quiet (by simp [hloc]) (by simp [hloc]) (by simp [hloc])]
      refine h.goto ?_ .top fun q proc before k _ _ hstint => ?_
      · rfl
      · exact ⟨by simp, by simp, fun _ => hstint.time.slot (Or.inr (Or.inl hloc)), by simp⟩
  | detach _ hloc =>
      rw [Os.cpuEvents_of_quiet (by simp [hloc]) (by simp [hloc]) (by simp [hloc])]
      refine h.goto ?_ .stopped fun q proc before k _ _ hstint => ?_
      · rfl
      · exact absurd hloc hstint.time.inside.2.1

theorem CpuRun.inv (hts : 1 ≤ cfg.timeSlot) (h : CpuRun host cfg i log s) :
    i < cfg.numCpus ∧ QuantumInv cfg.timeSlot i log s := by
  induction h with
  | start hi hcpu =>
      refine ⟨hi, .nil, fun _ => by rw [hcpu], fun p hp => ?_⟩
      rw [hcpu] at hp
      exact absurd hp (by simp)
  | step _ hlive hstep ih => exact ⟨ih.1, ih.2.step hts ih.1 hlive hstep⟩
  | others _ hcpu hheld ih =>
      obtain ⟨hi, hkept, hidle, hheldInv⟩ := ih
      refine ⟨hi, hkept, by rw [hcpu]; exact hidle, fun p hp => ?_⟩
      rw [hcpu] at hp ⊢
      rw [hheld p hp]
      exact hheldInv p hp

/-- **The time quantum.** In every run of the loop of a CPU, whatever `get_proc` returns, the calls of
    `run` between getting a process and giving it up are as many as its time slot allows and it needs;
    and a process that is at its end at the top of the loop is reported there, and was not before. -/
theorem cpuRun_quantum (hts : 1 ≤ cfg.timeSlot) (h : CpuRun host cfg i log s) :
    QuantumKept cfg.timeSlot.toNat log ∧
    ∀ p, (s.cpus i).loc = .top → (s.cpus i).proc = some p → s.isFinished p = true →
      p ∉ log.filterMap CpuEvent.reported ∧ .finished p (s.sys.procs p) ∈ s.cpuEvents i := by
  obtain ⟨-, hinv⟩ := h.inv hts
  refine ⟨hinv.kept, fun p hloc hproc hfin => ⟨(hinv.held p hproc).1, ?_⟩⟩
  simp [Os.cpuEvents, hloc, hproc, hfin]

end Step

/-! ## The CPUs of the simulator -/

section Runs

variable {host : Host} {cfg : Config} {i p : ℕ} {s s' : Os}

theorem Os.mem_cpuEvents_got {proc : Option Pcb} (h : .got p proc ∈ s.cpuEvents i) :
    s.sched.getMlqProc.1 = some p ∧ proc = s.sys.procs p := by
  have hgets : ∀ {e : CpuEvent}, e ∈ s.gets → ∀ q pcb, e = .got q pcb →
      s.sched.getMlqProc.1 = some q ∧ pcb = s.sys.procs q := by
    intro e he q pcb heq
    obtain ⟨r, hr, rfl⟩ := List.mem_map.1 he
    cases heq
    exact ⟨by simpa using hr, rfl⟩
  simp only [Os.cpuEvents] at h
  split at h
  · exact hgets h p proc rfl
  · split_ifs at h
    · rcases List.mem_append.1 h with h | h
      · exact hgets h p proc rfl
      · exact absurd h (by simp)
    · exact absurd h (by simp)
    · exact absurd h (by simp)
  · exact hgets h p proc rfl
  · exact absurd h (by simp)
  · exact absurd h (by simp)

theorem Os.reported_cpuEvents (s : Os) (i : ℕ) :
    (s.cpuEvents i).filterMap CpuEvent.reported = s.drops (.cpu i) := by
  have hgets : s.gets.filterMap CpuEvent.reported = [] := by
    rw [Os.gets, List.filterMap_map]
    exact List.filterMap_eq_nil_iff.2 fun _ _ => rfl
  simp only [Os.cpuEvents]
  split
  · next hproc => simp [Os.drops, hproc, hgets]
  · next p hloc hproc =>
      simp only [Os.drops, hloc, hproc]
      split_ifs
      · rw [List.filterMap_append, hgets]
        rfl
      · rfl
      · rfl
  · next hloc => rw [hgets, Os.drops_of_ne (by simp [hloc])]
  · next hloc _ =>
      rw [Os.drops_of_ne (by simp [hloc])]
      rfl
  · next hidle hhand _ =>
      have hloc : (s.cpus i).loc ≠ .top := by
        intro hloc
        cases hproc : (s.cpus i).proc with
        | none => exact hidle hloc hproc
        | some p => exact hhand p hloc hproc
      rw [Os.drops_of_ne hloc]
      rfl

theorem Os.pc_le_move (h : ∀ p proc, s.sys.procs p = some proc → proc.pc ≤ proc.code.length) {a : Actor}
    (hmove : s.Move host cfg a s') :
    ∀ p proc, s'.sys.procs p = some proc → proc.pc ≤ proc.code.length := by
  cases hmove with
  | run hi hloc hproc hrun =>
      obtain ⟨proc, proc', hknown, hupd, hcode, -, hpc⟩ := System.run_procs hrun
      intro q pcb hq
      simp only [Os.setCpu] at hq
      rw [hupd, Function.update_apply] at hq
      have hle := h _ proc hknown
      split at hq
      · cases hq
        rw [hpc, hcode]
        split <;> omega
      · exact h q pcb hq
  | ldAdd hloc hprog =>
      intro q pcb hq
      rcases procs_add_cases hq with ⟨-, rfl⟩ | hq
      · exact Nat.zero_le _
      · exact h q pcb hq
  | first | finish | put | keep | refetch | stop | idle | dispatch | enter | leave | detach
  | ldNext | ldDone | ldWait | ldReady | ldEnter | ldLeave | ldDetach | timer => exact h

/-- Another thread leaves a CPU and the process in its hands alone. -/
theorem Os.others_move (hh : HoldersInv s) {a : Actor} (ha : a ≠ .cpu i) (hmove : s.Move host cfg a s') :
    s'.cpus i = s.cpus i ∧ ∀ p, (s.cpus i).proc = some p → s'.sys.procs p = s.sys.procs p := by
  have hne : ∀ {j : ℕ}, Actor.cpu j ≠ .cpu i → i ≠ j := by
    rintro j hj rfl
    exact hj rfl
  cases hmove with
  | @run j q _ _ _ _ hproc hrun =>
      obtain ⟨_, _, _, hupd, -⟩ := System.run_procs hrun
      refine ⟨Function.update_of_ne (hne ha) .., fun p hp => ?_⟩
      have hpq : p ≠ q := by
        rintro rfl
        exact hne ha (hh.hand_inj i j p hp hproc)
      simp only [Os.setCpu]
      rw [hupd, Function.update_of_ne hpq]
  | ldAdd hloc hprog =>
      refine ⟨rfl, fun p hp => ?_⟩
      obtain ⟨proc, hknown⟩ := hh.hand_known i p hp
      have hpl : p ≠ s.loaded + 1 := by
        rintro rfl
        exact hh.procs_next hknown
      exact Function.update_of_ne hpl ..
  | first | finish | put | keep | refetch | stop | idle | dispatch | enter | leave | detach =>
      exact ⟨Function.update_of_ne (hne ha) .., fun _ _ => rfl⟩
  | ldNext | ldDone | ldWait | ldReady | ldEnter | ldLeave | ldDetach | timer =>
      exact ⟨rfl, fun _ _ => rfl⟩

/-- What `get_proc` returns was waiting, and neither dropped nor in the hands of the CPU. -/
theorem Os.getsLive {dropped : List ℕ} {log : List CpuEvent} (hh : HoldersInv s)
    (hd : DropInv dropped s) (hpc : ∀ p proc, s.sys.procs p = some proc → proc.pc ≤ proc.code.length)
    (hlog : ∀ p ∈ log.filterMap CpuEvent.reported, p ∈ dropped) : s.GetsLive i log := by
  intro p proc hmem
  obtain ⟨hget, rfl⟩ := Os.mem_cpuEvents_got hmem
  obtain ⟨prio, -, hwait⟩ := Sched.mem_waiting_of_fst hget
  obtain ⟨pcb, hknown, -⟩ := hh.waiting_prio prio p hwait
  refine ⟨⟨pcb, hknown, hpc p pcb hknown⟩, fun hgone => ?_⟩
  rw [List.filterMap_append, Os.reported_cpuEvents] at hgone
  rcases List.mem_append.1 hgone with hgone | hgone
  · simp only [Os.drops] at hgone
    split at hgone
    · next q _ hproc =>
        split at hgone
        · obtain rfl := List.mem_singleton.1 hgone
          exact hh.hand_waiting i p hproc prio hwait
        · exact absurd hgone List.not_mem_nil
    · exact absurd hgone List.not_mem_nil
  · exact hd.waiting p (hlog p hgone) prio hwait

/-- Every CPU of the simulator runs the loop among threads that leave it and its process alone. -/
theorem OsRun.cpuRun {trace : List (ℕ × ℕ)} (h : OsRun host cfg trace s) (hi : i < cfg.numCpus) :
    ∃ log, CpuRun host cfg i log s := by
  obtain ⟨dropped, hlife⟩ := h.lifeRun
  have hall : (∀ p proc, s.sys.procs p = some proc → proc.pc ≤ proc.code.length) ∧
      ∃ log, CpuRun host cfg i log s ∧ ∀ p ∈ log.filterMap CpuEvent.reported, p ∈ dropped := by
    clear h
    induction hlife with
    | boot => exact ⟨fun _ _ hp => absurd hp (by simp [Os.boot]), [], .start hi rfl, by simp⟩
    | @step dropped s s' hlife a _ hstep ih =>
        obtain ⟨trace, hrun⟩ := hlife.runIf.osRun
        obtain ⟨hpc, log, hcpu, hlog⟩ := ih
        have hmove := Os.move_of_step hstep
        have hh := hrun.holdersInv
        refine ⟨Os.pc_le_move hpc hmove, ?_⟩
        by_cases ha : a = .cpu i
        · subst ha
          rw [Os.step, if_pos hi] at hstep
          refine ⟨_, hcpu.step (Os.getsLive hh hlife.dropInv hpc hlog) hstep, fun p hp => ?_⟩
          rw [List.filterMap_append, Os.reported_cpuEvents] at hp
          rcases List.mem_append.1 hp with hp | hp
          · exact List.mem_append_left _ hp
          · exact List.mem_append_right _ (hlog p hp)
        · obtain ⟨hcpus, hprocs⟩ := Os.others_move hh ha hmove
          exact ⟨log, hcpu.others hcpus hprocs, fun p hp => List.mem_append_right _ (hlog p hp)⟩
  obtain ⟨-, log, hcpu, -⟩ := hall
  exact ⟨log, hcpu⟩

end Runs

/-- A process of two instructions, with time slots of 1: after its first it is put back, and after its
    second it is reported. -/
theorem cpuRun_quantum_twoSlots :
    let cfg := { oneCpu [] with
      programs := [⟨[⟨.calc, 0, 0, 0, 0⟩, ⟨.calc, 0, 0, 0, 0⟩], 0, 0, fun _ => 0⟩] }
    let s := (Os.after generousHost cfg (firstSlot ++ nextSlot)).2
    let s' := (Os.after generousHost cfg (firstSlot ++ nextSlot ++ List.replicate 3 .ld ++
      List.replicate 4 (.cpu 0) ++ nextSlot)).2
    (∃ log, CpuRun generousHost cfg 0 (.put 1 (s.sys.procs 1) :: log)
      ((s.cpuStep generousHost cfg 0).getD s) ∧ QuantumKept 1 (.put 1 (s.sys.procs 1) :: log)) ∧
    ∃ log, CpuRun generousHost cfg 0 log s' ∧ QuantumKept 1 log ∧
      .finished 1 (s'.sys.procs 1) ∈ s'.cpuEvents 0 := by
  intro cfg s s'
  have hts : 1 ≤ cfg.timeSlot := by decide
  have hrun : OsRun generousHost cfg _ s := OsRun.after (by decide +kernel)
  have hrun' : OsRun generousHost cfg _ s' := OsRun.after (by decide +kernel)
  obtain ⟨log, hlog⟩ := hrun.cpuRun (i := 0) (by decide)
  obtain ⟨log', hlog'⟩ := hrun'.cpuRun (i := 0) (by decide)
  constructor
  · have hput : (s.cpus 0).loc = .top ∧ (s.cpus 0).proc = some 1 ∧ s.isFinished 1 = false ∧
        (s.cpus 0).timeLeft = 0 := by decide +kernel
    have hevents : s.cpuEvents 0 = [.put 1 (s.sys.procs 1)] := by
      simp [Os.cpuEvents, hput.1, hput.2.1, hput.2.2.1, hput.2.2.2]
    have hlive : s.GetsLive 0 log := fun p proc hgot => by
      rw [hevents] at hgot
      exact absurd hgot (by simp)
    have hsome : (s.cpuStep generousHost cfg 0).isSome = true := by decide +kernel
    obtain ⟨t, ht⟩ := Option.isSome_iff_exists.1 hsome
    have hstep := hlog.step hlive ht
    rw [hevents] at hstep
    rw [ht]
    exact ⟨log, hstep, (cpuRun_quantum hts hstep).1⟩
  · have hfin : (s'.cpus 0).loc = .top ∧ (s'.cpus 0).proc = some 1 ∧ s'.isFinished 1 = true := by
      decide +kernel
    obtain ⟨hkept, hreport⟩ := cpuRun_quantum hts hlog'
    exact ⟨log', hlog', hkept, (hreport 1 hfin.1 hfin.2.1 hfin.2.2).2⟩

end Ossim
