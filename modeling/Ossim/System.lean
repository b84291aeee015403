import Ossim.Cpu.Memory

set_option autoImplicit false

/-! # The memory of the whole system

The pager of a system has the pages of all processes and of the kernel. Its invariant `SysInv` is
what one process sees as `MemInv`: an operation of a process on its caller's view (`SysInv.memInv`)
can be put back into the system (`SysInv.put`). -/

namespace Ossim

open Pager

namespace System

/-- Where a page of a process is; nowhere if there is no such process. -/
def others (s : System) (pid : ℕ) (p : PageIx) : Residence :=
  match s.procs pid with
  | none => .none
  | some proc => residence (proc.mm.entry p)

def pager (s : System) : State PageKey (Fin 4096) Byte where
  res := fun k => match k.1 with
    | .krnl => residence (s.krnl.mm.entry k.2)
    | .proc q => s.others q k.2
  ramFree := {f | f ∈ s.krnl.mram.freeFpList}
  swapFree := {t | t ∈ s.krnl.activeMswp.freeFpList}
  ram := s.krnl.mram.page
  swap := s.krnl.activeMswp.page

theorem caller_eq_some {s : System} {pid : ℕ} {c : Caller} (h : s.caller pid = some c) :
    s.procs pid = some c.proc ∧ s.krnl = c.krnl := by
  obtain ⟨proc, hproc, rfl⟩ := Option.map_eq_some_iff.1 h
  exact ⟨hproc, rfl⟩

/-- A process sees the pager of the system. -/
theorem pager_caller {s : System} {pid : ℕ} {c : Caller} (h : s.caller pid = some c) :
    c.pager pid s.others = s.pager := by
  obtain ⟨hproc, hk⟩ := caller_eq_some h
  refine State.ext ?_ ?_ ?_ ?_ ?_
  · funext ⟨o, p⟩
    cases o with
    | krnl => rw [pager_res_krnl, ← hk]; rfl
    | proc q =>
        by_cases hq : q = pid
        · subst hq
          rw [pager_res_self]
          simp only [pager, others, hproc]
          rfl
        · rw [pager_res_other _ _ _ hq]
          rfl
  · simp only [Caller.pager, pager, hk]
  · simp only [Caller.pager, pager, hk]
  · simp only [Caller.pager, pager, hk]
  · simp only [Caller.pager, pager, hk]

/-- What a process leaves is the pager of the system with it put back. -/
theorem pager_put (s : System) (pid : ℕ) (c : Caller) :
    (s.put pid c).pager = c.pager pid s.others := by
  refine State.ext ?_ rfl rfl rfl rfl
  funext ⟨o, p⟩
  cases o with
  | krnl => rfl
  | proc q =>
      by_cases hq : q = pid
      · subst hq
        rw [pager_res_self]
        simp only [pager, others, put, Function.update_self]
        rfl
      · rw [pager_res_other _ _ _ hq]
        simp only [pager, others, put, Function.update_of_ne hq]

theorem caller_put_self (s : System) (pid : ℕ) (c : Caller) : (s.put pid c).caller pid = some c := by
  simp [caller, put]

theorem procs_put_of_ne (s : System) {pid q : ℕ} (c : Caller) (h : q ≠ pid) :
    (s.put pid c).procs q = s.procs q := Function.update_of_ne h ..

/-- What holds of the process put back and of every other one holds of them all. -/
theorem forall_put {s : System} {pid : ℕ} {c : Caller} {P : ℕ → Pcb → Prop} (hself : P pid c.proc)
    (hother : ∀ q ≠ pid, ∀ proc, s.procs q = some proc → P q proc) (q : ℕ) (proc : Pcb)
    (hq : (s.put pid c).procs q = some proc) : P q proc := by
  by_cases hqp : q = pid
  · subst hqp
    obtain rfl : c.proc = proc := by simpa [put] using hq
    exact hself
  · rw [procs_put_of_ne s c hqp] at hq
    exact hother q hqp proc hq

end System

/-! ## The invariant -/

/-- The invariant of one process. -/
structure ProcOk (host : Host) (exact : Prop) (proc : Pcb) : Prop where
  registered : exact → proc.registered = true
  pages : PagesOk host proc.registered proc.mm
  regions : RegionsOk proc.registered proc.mm

/-- The invariant of the system; `exact` as in `MemInv`. -/
structure SysInv (host : Host) (exact : Prop) (R S : Set ℕ) (s : System) : Prop where
  wf : s.pager.Wf
  within : s.pager.Within R S
  ram_nodup : s.krnl.mram.freeFpList.Nodup
  swap_nodup : s.krnl.activeMswp.freeFpList.Nodup
  ram_holds : exact → ∀ f ∈ R, s.krnl.mram.Holds f
  swap_holds : exact → ∀ t ∈ S, s.krnl.activeMswp.Holds t
  pinned : ∀ p, pagingPageSwapped ((s.krnl.mm.entry p).setWidth 32) = false
  procs : ∀ pid proc, s.procs pid = some proc → ProcOk host exact proc

section Invariant

variable {host : Host} {exact : Prop} {R S : Set ℕ} {s : System} {pid : ℕ} {c c' : Caller}

theorem SysInv.memInv (h : SysInv host exact R S s) (hc : s.caller pid = some c) :
    MemInv host exact R S pid s.others c := by
  obtain ⟨hproc, hk⟩ := System.caller_eq_some hc
  have hpager := System.pager_caller hc
  obtain ⟨hreg, hpages, hregions⟩ := h.procs pid c.proc hproc
  exact ⟨hpager ▸ h.wf, hpager ▸ h.within,
    ⟨hk ▸ h.ram_nodup, hk ▸ h.swap_nodup, hreg, hk ▸ h.ram_holds, hk ▸ h.swap_holds⟩,
    hpages, hregions, hk ▸ h.pinned⟩

theorem SysInv.put (h : SysInv host exact R S s) (hm : MemInv host exact R S pid s.others c') :
    SysInv host exact R S (s.put pid c') where
  wf := System.pager_put s pid c' ▸ hm.wf
  within := System.pager_put s pid c' ▸ hm.within
  ram_nodup := hm.devices.ram_nodup
  swap_nodup := hm.devices.swap_nodup
  ram_holds := hm.devices.ram_holds
  swap_holds := hm.devices.swap_holds
  pinned := hm.pinned
  procs := System.forall_put ⟨hm.devices.registered, hm.pages, hm.regions⟩ fun q _ => h.procs q

end Invariant

/-! ## Where a system starts -/

/-- The system once `main` and the loader have set it up: fresh address spaces, and free lists of
    distinct frame numbers that fit an entry. -/
structure Booted (s : System) : Prop where
  krnl_mm : s.krnl.mm = initMm
  proc_mm : ∀ pid proc, s.procs pid = some proc → proc.mm = initMm
  ram_nodup : s.krnl.mram.freeFpList.Nodup
  swap_nodup : s.krnl.activeMswp.freeFpList.Nodup
  ram_lt : ∀ f ∈ s.krnl.mram.freeFpList, f < 2 ^ 13
  swap_lt : ∀ t ∈ s.krnl.activeMswp.freeFpList, t < 2 ^ 21

/-- All processes are registered, and the devices are random-access ones (the only kind `main`
    creates) that hold the frames on their lists. Of those that `init_memphy` carves, 256 bytes each, a
    device holds the first sixteenth. -/
structure FramesHeld (s : System) : Prop where
  registered : ∀ pid proc, s.procs pid = some proc → proc.registered = true
  ram_holds : ∀ f ∈ s.krnl.mram.freeFpList, s.krnl.mram.Holds f
  swap_holds : ∀ t ∈ s.krnl.activeMswp.freeFpList, s.krnl.activeMswp.Holds t

/-- The frames of RAM a system started with. -/
def System.ramPool (s : System) : Set ℕ := {f | f ∈ s.krnl.mram.freeFpList}

/-- The frames of the swap device a system started with. -/
def System.swapPool (s : System) : Set ℕ := {t | t ∈ s.krnl.activeMswp.freeFpList}

theorem Booted.poolsOk {s : System} (h : Booted s) : PoolsOk s.ramPool s.swapPool :=
  ⟨h.ram_lt, h.swap_lt⟩

theorem initMm_pagesOk (host : Host) (registered : Bool) : PagesOk host registered initMm where
  marks := fun p => by
    rw [initMm_entry]
    exact unambiguous_zero
  fifo_nodup := List.nodup_nil
  fifo_lt := fun _ h => absurd h (List.not_mem_nil)
  fifo_ram := fun _ h => absurd h (List.not_mem_nil)
  fresh := fun _ pgn _ _ => by rw [initMm_entry, residence_zero]

theorem initMm_regionsOk (registered : Bool) : RegionsOk registered initMm where
  mem := fun r hr => by
    have hpart := initMm_partitioned.1
    have hend := hpart.end_le r hr
    refine ⟨hpart.start_le r hr, ?_⟩
    have hzero : r.rgEnd = 0 := Nat.le_zero.1 hend
    rw [hzero]
    exact Nat.zero_le _
  brk := fun _ => by decide
  brk_zero := fun _ => rfl

theorem Booted.pager_res {s : System} (h : Booted s) (k : PageKey) : s.pager.res k = .none := by
  obtain ⟨o, p⟩ := k
  cases o with
  | krnl =>
      change residence (s.krnl.mm.entry p) = .none
      rw [h.krnl_mm, initMm_entry, residence_zero]
  | proc q =>
      change s.others q p = .none
      rw [System.others]
      split
      · rfl
      · next proc hproc => rw [h.proc_mm q proc hproc, initMm_entry, residence_zero]

theorem Booted.sysInv {s : System} (h : Booted s) (host : Host) {exact : Prop}
    (hf : exact → FramesHeld s) : SysInv host exact s.ramPool s.swapPool s where
  wf := by refine ⟨?_, ?_, ?_, ?_⟩ <;> intros <;> simp_all [h.pager_res]
  within := by
    refine ⟨fun hf => hf, fun ht => ht, ?_, ?_⟩ <;> intro k f hk <;> rw [h.pager_res] at hk <;> cases hk
  ram_nodup := h.ram_nodup
  swap_nodup := h.swap_nodup
  ram_holds := fun he => (hf he).ram_holds
  swap_holds := fun he => (hf he).swap_holds
  pinned := fun p => by
    rw [h.krnl_mm, initMm_entry]
    decide
  procs := fun pid proc hproc => by
    refine ⟨fun he => (hf he).registered pid proc hproc, ?_, ?_⟩
    · rw [h.proc_mm pid proc hproc]
      exact initMm_pagesOk host _
    · rw [h.proc_mm pid proc hproc]
      exact initMm_regionsOk _

/-! ## Running instructions -/

/-- Any sequence of instructions, by any of the processes. -/
inductive SysRun (host : Host) : System → System → Prop where
  | refl (s : System) : SysRun host s s
  | step {s s' s'' : System} (h : SysRun host s s') {pid : ℕ} {st : ℤ}
      (hrun : s'.run host pid = some (st, s'')) : SysRun host s s''

/-- The instruction `run` would execute next for a process. -/
def System.fetch (s : System) (pid : ℕ) : Option Inst :=
  (s.procs pid).bind fun proc => proc.code[proc.pc]?

section Steps

variable {host : Host} {s s' : System} {pid : ℕ}

theorem System.run_eq_some {st : ℤ} (h : s.run host pid = some (st, s')) :
    ∃ c c', s.caller pid = some c ∧ Ossim.run host c = some (st, c') ∧ s' = s.put pid c' := by
  simp only [System.run, Option.bind_eq_bind, Option.bind_eq_some_iff, Option.pure_def,
    Option.some.injEq, Prod.mk.injEq] at h
  obtain ⟨c, hc, ⟨st', c'⟩, hrun, rfl, rfl⟩ := h
  exact ⟨c, c', hc, hrun, rfl⟩

theorem System.fetch_of_caller {c : Caller} (h : s.caller pid = some c) :
    s.fetch pid = c.proc.code[c.proc.pc]? := by
  rw [System.fetch, (System.caller_eq_some h).1]
  rfl

/-- The state after an instruction of a process that has one to run. -/
def System.next (host : Host) (s : System) (pid : ℕ) : System :=
  ((s.run host pid).map Prod.snd).getD s

theorem System.run_next {st : ℤ}
    (h : (s.run host pid).map Prod.fst = some st) : s.run host pid = some (st, s.next host pid) := by
  obtain ⟨⟨st', s'⟩, hrun, rfl⟩ := Option.map_eq_some_iff.1 h
  simp [System.next, hrun]

end Steps

/-! ## A small system -/

/-- Two fresh processes, numbers 1 and 2, on a RAM of `n` frames and a swap device of `m`. -/
def twoProcs (n m : ℕ) (code : ℕ → List Inst) : System where
  krnl := ⟨pagesDevice n, pagesDevice m, initMm⟩
  procs := fun pid => if pid = 1 ∨ pid = 2 then some (freshProc (code pid) 0) else none

theorem twoProcs_proc {n m pid : ℕ} {code : ℕ → List Inst} {proc : Pcb}
    (h : (twoProcs n m code).procs pid = some proc) : proc = freshProc (code pid) 0 := by
  simp only [twoProcs] at h
  split at h
  · exact (Option.some.inj h).symm
  · exact absurd h (by simp)

theorem twoProcs_booted {n m : ℕ} (hn : n ≤ 2 ^ 13) (hm : m ≤ 2 ^ 21) (code : ℕ → List Inst) :
    Booted (twoProcs n m code) where
  krnl_mm := rfl
  proc_mm := fun _ _ h => by rw [twoProcs_proc h]; rfl
  ram_nodup := List.nodup_range
  swap_nodup := List.nodup_range
  ram_lt := fun f hf => Nat.lt_of_lt_of_le (List.mem_range.1 hf) hn
  swap_lt := fun t ht => Nat.lt_of_lt_of_le (List.mem_range.1 ht) hm

theorem twoProcs_framesHeld (n m : ℕ) (code : ℕ → List Inst) : FramesHeld (twoProcs n m code) where
  registered := fun _ _ h => by rw [twoProcs_proc h]; rfl
  ram_holds := fun f hf => pagesDevice_holds (List.mem_range.1 hf)
  swap_holds := fun t ht => pagesDevice_holds (List.mem_range.1 ht)

end Ossim
