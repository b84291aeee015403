import Ossim.Os.Lost

set_option autoImplicit false

/-! # Configurations whose processes fit into one queue

With at most `MAX_QUEUE_SIZE` processes in all, no queue is ever full when a process is put into it:
a process that has not finished is in a ready queue or in the hands of a CPU. -/

namespace Ossim

/-- The configurations in question: the processes fit into one queue, and their priorities have one. -/
structure Config.Fits (cfg : Config) : Prop where
  programs_le : cfg.programs.length ≤ maxQueueSize
  prio_lt : ∀ prog ∈ cfg.programs, prog.prio < maxPrio

/-- A process is waiting, or in the hands of a CPU. -/
def Os.Held (cfg : Config) (s : Os) (p : ℕ) : Prop :=
  (∃ prio < maxPrio, p ∈ s.sched.waiting prio) ∨ ∃ i < cfg.numCpus, (s.cpus i).proc = some p

structure KeptInv (cfg : Config) (s : Os) : Prop where
  loaded_le : s.loaded ≤ cfg.programs.length
  procs_pos : ∀ p proc, s.sys.procs p = some proc → 1 ≤ p
  prio_lt : ∀ p proc, s.sys.procs p = some proc → proc.prio < maxPrio
  refetch_none : ∀ i, (s.cpus i).loc = .refetch → (s.cpus i).proc = none
  kept : ∀ p proc, s.sys.procs p = some proc → proc.pc ≠ proc.code.length → s.Held cfg p

section Numbers

variable {host : Host} {cfg : Config} {s s' : Os} {trace : List (ℕ × ℕ)}

/-- Processes are numbered from 1, and there are no more than programs. -/
theorem Os.numbers_move (h : s.loaded ≤ cfg.programs.length ∧ s.sys.procs 0 = none) {a : Actor}
    (hmove : s.Move host cfg a s') : s'.loaded ≤ cfg.programs.length ∧ s'.sys.procs 0 = none := by
  cases hmove with
  | @run i p st sys hi hloc hproc hrun =>
      obtain ⟨proc, proc', hp, hupd, -⟩ := System.run_procs hrun
      refine ⟨h.1, ?_⟩
      have hne : 0 ≠ p := by
        rintro rfl
        exact absurd (h.2.symm.trans hp) (by simp)
      change sys.procs 0 = none
      rw [hupd, Function.update_of_ne hne]
      exact h.2
  | @ldAdd prog hloc hprog =>
      obtain ⟨hlen, -⟩ := List.getElem?_eq_some_iff.1 hprog
      refine ⟨hlen, ?_⟩
      change Function.update s.sys.procs (s.loaded + 1) (some (load prog)) 0 = none
      rw [Function.update_of_ne (by omega)]
      exact h.2
  | first | finish | put | keep | refetch | stop | idle | dispatch | enter | leave | detach | ldNext
  | ldDone | ldWait | ldReady | ldEnter | ldLeave | ldDetach | timer => exact h

theorem OsRun.numbers (h : OsRun host cfg trace s) :
    s.loaded ≤ cfg.programs.length ∧ s.sys.procs 0 = none := by
  induction h with
  | boot => exact ⟨Nat.zero_le _, rfl⟩
  | step _ a hstep ih => exact Os.numbers_move ih (Os.move_of_step hstep)

theorem OsRun.procs_pos (h : OsRun host cfg trace s) {p : ℕ} {proc : Pcb}
    (hproc : s.sys.procs p = some proc) : 1 ≤ p := by
  rcases Nat.eq_zero_or_pos p with rfl | hpos
  · exact absurd (h.numbers.2.symm.trans hproc) (by simp)
  · exact hpos

theorem length_lt_of_le {ps : List ℕ} {n : ℕ} (hnodup : ps.Nodup)
    (hle : ∀ x ∈ ps, 1 ≤ x ∧ x < n) (hn : 0 < n) : ps.length < n := by
  have hsub : ps ⊆ List.range' 1 (n - 1) := by
    intro x hx
    have := hle x hx
    rw [List.mem_range'_1]
    omega
  have hlen := (List.subperm_of_subset hnodup hsub).length_le
  rw [List.length_range'] at hlen
  omega

theorem OsRun.room_put (h : OsRun host cfg trace s) (hfits : cfg.Fits) {i p : ℕ}
    (hproc : (s.cpus i).proc = some p) :
    (s.sched.waiting (s.prio p)).length < maxQueueSize := by
  have hh := h.holdersInv
  obtain ⟨proc, hknown⟩ := hh.hand_known i p hproc
  have hlen := h.numbers.1
  have hfit := hfits.programs_le
  have hmem : ∀ x ∈ p :: s.sched.waiting (s.prio p), 1 ≤ x ∧ x < s.loaded + 1 := by
    refine List.forall_mem_cons.2 ⟨?_, fun x hx => ?_⟩
    · exact ⟨h.procs_pos hknown, Nat.lt_succ_of_le (hh.procs_le p proc hknown)⟩
    · obtain ⟨proc', hknown', -⟩ := hh.waiting_prio _ x hx
      exact ⟨h.procs_pos hknown', Nat.lt_succ_of_le (hh.procs_le x proc' hknown')⟩
  have hnodup := List.nodup_cons.2 ⟨hh.hand_waiting i p hproc _, hh.waiting_nodup (s.prio p)⟩
  have hlt := length_lt_of_le hnodup hmem (by omega)
  rw [List.length_cons] at hlt
  omega

theorem OsRun.room_add (h : OsRun host cfg trace s) (hfits : cfg.Fits) {prog : Program}
    (hprog : cfg.programs[s.loaded]? = some prog) :
    (s.sched.waiting prog.prio).length < maxQueueSize := by
  have hh := h.holdersInv
  obtain ⟨hlen, -⟩ := List.getElem?_eq_some_iff.1 hprog
  have hfit := hfits.programs_le
  have hmem : ∀ x ∈ s.sched.waiting prog.prio, 1 ≤ x ∧ x < s.loaded + 1 := by
    intro x hx
    obtain ⟨proc, hknown, -⟩ := hh.waiting_prio _ x hx
    exact ⟨h.procs_pos hknown, Nat.lt_succ_of_le (hh.procs_le x proc hknown)⟩
  have hlt := length_lt_of_le (hh.waiting_nodup prog.prio) hmem (by omega)
  omega

/-- The processes of a configuration that fits have room at all times. -/
theorem OsRun.hasRoom (h : OsRun host cfg trace s) (hfits : cfg.Fits) (a : Actor) :
    s.HasRoom cfg a := by
  cases a with
  | cpu i => exact fun _ p hproc _ _ => h.room_put hfits hproc
  | ld =>
      intro _ prog hprog
      exact ⟨hfits.prio_lt prog (List.mem_of_getElem? hprog), h.room_add hfits hprog⟩
  | timer => trivial

/-- **Run.** -/
theorem OsRun.keptInv (h : OsRun host cfg trace s) (hfits : cfg.Fits) : KeptInv cfg s := by
  obtain ⟨dropped, hrun⟩ := h.lifeRun
  have hlife : LifeRun (Os.HasRoom cfg) host cfg dropped s :=
    hrun.of_steps fun _ _ a _ hs _ => hs.hasRoom hfits a
  refine ⟨h.numbers.1, fun p proc => h.procs_pos, hlife.lostInv.prio_lt, h.refetch_none,
    fun p proc hproc hpc => ?_⟩
  have hp : p ∉ dropped := by
    intro hp
    obtain ⟨proc', hproc', hfin⟩ := hlife.dropInv.finished p hp
    rw [hproc] at hproc'
    cases hproc'
    exact hpc hfin
  rcases hlife.lostInv.none_lost p proc hproc hp with ⟨hprio, hmem⟩ | hhand
  · exact Or.inl ⟨proc.prio, hprio, hmem⟩
  · exact Or.inr hhand

theorem KeptInv.prio_lt_of_hand (h : KeptInv cfg s) (hh : HoldersInv s) {i p : ℕ}
    (hproc : (s.cpus i).proc = some p) : s.prio p < maxPrio := by
  obtain ⟨proc, hknown⟩ := hh.hand_known i p hproc
  rw [Os.prio_eq hknown]
  exact h.prio_lt p proc hknown

end Numbers

end Ossim
