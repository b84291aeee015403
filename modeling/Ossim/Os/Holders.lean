import Ossim.Os.Proofs

set_option autoImplicit false

/-! # A process has one holder at most

A process is in one ready queue, in the hands of one CPU, or nowhere (finished, or dropped by a full
queue). No two CPUs run it at once, and its instructions are fetched in order. -/

namespace Ossim

/-- The invariant of the queues and hands. -/
structure HoldersInv (s : Os) : Prop where
  waiting_nodup : ∀ prio, (s.sched.waiting prio).Nodup
  waiting_prio : ∀ prio, ∀ p ∈ s.sched.waiting prio, ∃ proc, s.sys.procs p = some proc ∧ proc.prio = prio
  hand_inj : ∀ i j p, (s.cpus i).proc = some p → (s.cpus j).proc = some p → i = j
  hand_waiting : ∀ i p, (s.cpus i).proc = some p → ∀ prio, p ∉ s.sched.waiting prio
  hand_known : ∀ i p, (s.cpus i).proc = some p → ∃ proc, s.sys.procs p = some proc
  procs_le : ∀ p proc, s.sys.procs p = some proc → p ≤ s.loaded

section Invariant

variable {s s' : Os}

theorem HoldersInv.boot (cfg : Config) : HoldersInv (Os.boot cfg) where
  waiting_nodup := fun _ => List.nodup_nil
  waiting_prio := fun _ _ h => absurd h List.not_mem_nil
  hand_inj := fun _ _ _ h => absurd h (by simp [Os.boot])
  hand_waiting := fun _ _ _ _ => List.not_mem_nil
  hand_known := fun _ _ h => absurd h (by simp [Os.boot])
  procs_le := fun _ _ h => absurd h (by simp [Os.boot])

/-- The invariant is about queues, hands and processes only. -/
theorem HoldersInv.congr (h : HoldersInv s) (hw : s'.sched.waiting = s.sched.waiting)
    (hh : ∀ i, (s'.cpus i).proc = (s.cpus i).proc) (hp : s'.sys.procs = s.sys.procs)
    (hl : s'.loaded = s.loaded) : HoldersInv s' := by
  obtain ⟨h1, h2, h3, h4, h5, h6⟩ := h
  refine ⟨?_, ?_, ?_, ?_, ?_, ?_⟩ <;> simp only [hw, hh, hp, hl] <;> assumption

theorem proc_setCpu {s : Os} {i : ℕ} {cpu : Cpu} (h : cpu.proc = (s.cpus i).proc) (j : ℕ) :
    ((s.setCpu i cpu).cpus j).proc = (s.cpus j).proc := by
  simp only [Os.setCpu, Function.update_apply]
  split
  · next hj => rw [h, hj]
  · rfl

theorem hand_of_setCpu {s : Os} {i j p : ℕ} {cpu : Cpu} (h : ((s.setCpu i cpu).cpus j).proc = some p) :
    j = i ∧ cpu.proc = some p ∨ j ≠ i ∧ (s.cpus j).proc = some p := by
  simp only [Os.setCpu, Function.update_apply] at h
  split at h
  · next hj => exact Or.inl ⟨hj, h⟩
  · next hj => exact Or.inr ⟨hj, h⟩

/-- `get_proc` moves a process from its queue to the hands of the CPU. -/
theorem HoldersInv.getProc (h : HoldersInv s) (i : ℕ) (cpu : Cpu) : HoldersInv (s.getProc i cpu) := by
  rcases s.sched.getMlqProc_cases with ⟨prio, hprio, p, rest, hcons, -, hget, hwait⟩ | ⟨-, hget, hwait⟩
  · have hnodup := List.nodup_cons.1 (hcons ▸ h.waiting_nodup prio)
    have hmem : p ∈ s.sched.waiting prio := by simp [hcons]
    obtain ⟨proc, hproc, hpp⟩ := h.waiting_prio prio p hmem
    have hwait' : (s.getProc i cpu).sched.waiting = Function.update s.sched.waiting prio rest := hwait
    -- what waits afterwards waited before, and is not `p`
    have hsub : ∀ q, ∀ x ∈ (s.getProc i cpu).sched.waiting q, x ∈ s.sched.waiting q ∧ x ≠ p := by
      intro q x hx
      rw [hwait', Function.update_apply] at hx
      split at hx
      · next hq =>
          rw [hq, hcons]
          exact ⟨List.mem_cons_of_mem _ hx, fun he => hnodup.1 (he ▸ hx)⟩
      · next hq =>
          refine ⟨hx, ?_⟩
          rintro rfl
          obtain ⟨proc', hproc', hpq⟩ := h.waiting_prio q x hx
          rw [hproc] at hproc'
          cases hproc'
          exact hq (hpq.symm.trans hpp)
    have hhand : ∀ {j x}, ((s.getProc i cpu).cpus j).proc = some x →
        j = i ∧ x = p ∨ j ≠ i ∧ (s.cpus j).proc = some x := by
      intro j x hx
      rcases hand_of_setCpu hx with ⟨hj, hx⟩ | hx
      · rw [hget] at hx
        exact Or.inl ⟨hj, (Option.some.inj hx).symm⟩
      · exact Or.inr hx
    refine ⟨?_, ?_, ?_, ?_, ?_, h.procs_le⟩
    · intro q
      rw [hwait', Function.update_apply]
      split
      · exact hnodup.2
      · exact h.waiting_nodup q
    · intro q x hx
      exact h.waiting_prio q x (hsub q x hx).1
    · -- a process taken from a queue was in nobody's hands
      intro j k x hj hk
      rcases hhand hj with ⟨hji, hxj⟩ | ⟨-, hj'⟩ <;> rcases hhand hk with ⟨hki, hxk⟩ | ⟨-, hk'⟩
      · rw [hji, hki]
      · exact absurd (hxj ▸ hmem) (h.hand_waiting k x hk' prio)
      · exact absurd (hxk ▸ hmem) (h.hand_waiting j x hj' prio)
      · exact h.hand_inj j k x hj' hk'
    · intro j x hj q hx
      rcases hhand hj with ⟨-, rfl⟩ | ⟨-, hj⟩
      · exact (hsub q x hx).2 rfl
      · exact h.hand_waiting j x hj q (hsub q x hx).1
    · intro j x hj
      rcases hhand hj with ⟨-, rfl⟩ | ⟨-, hj⟩
      · exact ⟨proc, hproc⟩
      · exact h.hand_known j x hj
  · -- NULL: the queues stay, and the CPU has nothing in hands
    have hhand : ∀ {j x}, ((s.getProc i cpu).cpus j).proc = some x → (s.cpus j).proc = some x := by
      intro j x hx
      rcases hand_of_setCpu hx with ⟨-, hx⟩ | ⟨-, hx⟩
      · rw [hget] at hx
        exact absurd hx (by simp)
      · exact hx
    have hwait' : (s.getProc i cpu).sched.waiting = s.sched.waiting := hwait
    refine ⟨?_, ?_, ?_, ?_, ?_, h.procs_le⟩
    · rw [hwait']
      exact h.waiting_nodup
    · rw [hwait']
      exact h.waiting_prio
    · exact fun j k x hj hk => h.hand_inj j k x (hhand hj) (hhand hk)
    · rw [hwait']
      exact fun j x hj => h.hand_waiting j x (hhand hj)
    · exact fun j x hj => h.hand_known j x (hhand hj)

/-- The queues after a process that was not waiting is enqueued, or dropped. -/
theorem mem_waiting_of_enqueue {sched sched' : Sched ℕ} {p prio : ℕ}
    (hw : sched'.waiting = Function.update sched.waiting prio
      ((sched.mlqReadyQueue prio).enqueue p).proc) {q x : ℕ} (hx : x ∈ sched'.waiting q) :
    x ∈ sched.waiting q ∨ x = p ∧ q = prio := by
  rw [hw, Function.update_apply] at hx
  split at hx
  · next hq =>
      subst hq
      rcases Sched.enqueue_cases (sched.mlqReadyQueue q) p with heq | ⟨-, heq⟩
      · rw [heq] at hx
        rcases List.mem_append.1 hx with hx | hx
        · exact Or.inl hx
        · exact Or.inr ⟨List.mem_singleton.1 hx, rfl⟩
      · rw [heq] at hx
        exact Or.inl hx
  · exact Or.inl hx

theorem waiting_nodup_of_enqueue {sched sched' : Sched ℕ} {p prio : ℕ}
    (hw : sched'.waiting = Function.update sched.waiting prio
      ((sched.mlqReadyQueue prio).enqueue p).proc) (hnodup : ∀ q, (sched.waiting q).Nodup)
    (hp : p ∉ sched.waiting prio) (q : ℕ) : (sched'.waiting q).Nodup := by
  rw [hw, Function.update_apply]
  split
  · next hq =>
      subst hq
      rcases Sched.enqueue_cases (sched.mlqReadyQueue q) p with heq | ⟨-, heq⟩
      · rw [heq]
        exact List.nodup_append.2 ⟨hnodup q, by simp, fun x hx y hy hxy => by
          rw [List.mem_singleton.1 hy] at hxy
          exact hp (hxy ▸ hx)⟩
      · rw [heq]
        exact hnodup q
  · exact hnodup q

/-- `put_proc` moves a process from the hands of the CPU to the queue of its priority. -/
theorem HoldersInv.put (h : HoldersInv s) {i p : ℕ} (hproc : (s.cpus i).proc = some p) {cpu : Cpu}
    (hcpu : cpu.proc = none) :
    HoldersInv ({ s with sched := s.sched.putMlqProc p (s.prio p) }.setCpu i cpu) := by
  have hw := s.sched.putMlqProc_waiting p (s.prio p)
  have hhand : ∀ {j x}, (({ s with sched := s.sched.putMlqProc p (s.prio p) }.setCpu i cpu).cpus
      j).proc = some x → j ≠ i ∧ (s.cpus j).proc = some x := by
    intro j x hx
    rcases hand_of_setCpu hx with ⟨-, hx⟩ | hx
    · rw [hcpu] at hx
      exact absurd hx (by simp)
    · exact hx
  refine ⟨?_, ?_, ?_, ?_, ?_, h.procs_le⟩
  · exact waiting_nodup_of_enqueue hw h.waiting_nodup (h.hand_waiting i p hproc _)
  · intro q x hx
    rcases mem_waiting_of_enqueue hw hx with hx | ⟨rfl, rfl⟩
    · exact h.waiting_prio q x hx
    · obtain ⟨proc, hknown⟩ := h.hand_known i x hproc
      exact ⟨proc, hknown, by simp [Os.prio, hknown]⟩
  · exact fun j k x hj hk => h.hand_inj j k x (hhand hj).2 (hhand hk).2
  · intro j x hj q hx
    obtain ⟨hji, hj'⟩ := hhand hj
    rcases mem_waiting_of_enqueue hw hx with hx | ⟨hxp, -⟩
    · exact h.hand_waiting j x hj' q hx
    · exact hji (h.hand_inj j i x hj' (hxp ▸ hproc))
  · exact fun j x hj => h.hand_known j x (hhand hj).2

/-- `run` changes the process it runs, but not its priority. -/
theorem HoldersInv.run (h : HoldersInv s) {host : Host} {p : ℕ} {st : ℤ} {sys : System}
    (hrun : s.sys.run host p = some (st, sys)) : HoldersInv { s with sys := sys } := by
  obtain ⟨proc, proc', hproc, hupd, -, hprio, -⟩ := System.run_procs hrun
  have hknown : ∀ q r, s.sys.procs q = some r → ∃ r', sys.procs q = some r' ∧ r'.prio = r.prio := by
    intro q r hr
    rw [hupd, Function.update_apply]
    split
    · next hq =>
        rw [hq, hproc] at hr
        cases hr
        exact ⟨proc', rfl, hprio⟩
    · exact ⟨r, hr, rfl⟩
  refine ⟨h.waiting_nodup, ?_, h.hand_inj, h.hand_waiting, ?_, ?_⟩
  · intro q x hx
    obtain ⟨r, hr, hrq⟩ := h.waiting_prio q x hx
    obtain ⟨r', hr', hprio'⟩ := hknown x r hr
    exact ⟨r', hr', hprio'.trans hrq⟩
  · intro j x hj
    obtain ⟨r, hr⟩ := h.hand_known j x hj
    obtain ⟨r', hr', -⟩ := hknown x r hr
    exact ⟨r', hr'⟩
  · intro q r hr
    change sys.procs q = some r at hr
    rw [hupd, Function.update_apply] at hr
    split at hr
    · next hq => exact hq ▸ h.procs_le p proc hproc
    · exact h.procs_le q r hr

/-- A process after one was loaded is the new one or an old one. -/
theorem procs_add_cases {prog : Program} {p : ℕ} {proc : Pcb}
    (h : Function.update s.sys.procs (s.loaded + 1) (some (load prog)) p = some proc) :
    p = s.loaded + 1 ∧ proc = load prog ∨ s.sys.procs p = some proc := by
  rw [Function.update_apply] at h
  split at h
  · next hp => exact Or.inl ⟨hp, (Option.some.inj h).symm⟩
  · exact Or.inr h

/-- The next number is not in use. -/
theorem HoldersInv.procs_next (h : HoldersInv s) {proc : Pcb} :
    s.sys.procs (s.loaded + 1) ≠ some proc := fun hproc =>
  absurd (h.procs_le _ proc hproc) (by omega)

theorem HoldersInv.next_notMem (h : HoldersInv s) (prio : ℕ) :
    s.loaded + 1 ∉ s.sched.waiting prio := fun hmem => by
  obtain ⟨proc, hproc, -⟩ := h.waiting_prio prio _ hmem
  exact h.procs_next hproc

/-- `add_proc` for a process with a new number. -/
theorem HoldersInv.add (h : HoldersInv s) (prog : Program) (ldLoc : LdLoc) :
    HoldersInv { s with
      sys := { s.sys with procs := Function.update s.sys.procs (s.loaded + 1) (some (load prog)) }
      sched := s.sched.addMlqProc (s.loaded + 1) prog.prio
      loaded := s.loaded + 1
      ldLoc := ldLoc } := by
  have hw := s.sched.addMlqProc_waiting (s.loaded + 1) prog.prio
  have hold : ∀ p proc, s.sys.procs p = some proc →
      Function.update s.sys.procs (s.loaded + 1) (some (load prog)) p = some proc := by
    intro p proc hp
    have hne : p ≠ s.loaded + 1 := by
      rintro rfl
      exact h.procs_next hp
    rw [Function.update_of_ne hne, hp]
  refine ⟨?_, ?_, h.hand_inj, ?_, ?_, ?_⟩
  · exact waiting_nodup_of_enqueue hw h.waiting_nodup (h.next_notMem _)
  · intro q x hx
    rcases mem_waiting_of_enqueue hw hx with hx | ⟨rfl, rfl⟩
    · obtain ⟨proc, hproc, hprio⟩ := h.waiting_prio q x hx
      exact ⟨proc, hold x proc hproc, hprio⟩
    · exact ⟨load prog, Function.update_self .., rfl⟩
  · intro j x hj q hx
    rcases mem_waiting_of_enqueue hw hx with hx | ⟨rfl, -⟩
    · exact h.hand_waiting j x hj q hx
    · obtain ⟨proc, hproc⟩ := h.hand_known j _ hj
      exact h.procs_next hproc
  · intro j x hj
    obtain ⟨proc, hproc⟩ := h.hand_known j x hj
    exact ⟨proc, hold x proc hproc⟩
  · intro q r hr
    rcases procs_add_cases hr with ⟨rfl, -⟩ | hr
    · exact Nat.le_refl _
    · exact Nat.le_succ_of_le (h.procs_le q r hr)

/-- **Step.** -/
theorem HoldersInv.move {host : Host} {cfg : Config} (h : HoldersInv s) {a : Actor}
    (hmove : s.Move host cfg a s') : HoldersInv s' := by
  cases hmove with
  | first hi hloc hproc => exact h.getProc _ _
  | finish hi hloc hproc hfin => exact h.getProc _ _
  | refetch hi hloc => exact h.getProc _ _
  | put hi hloc hproc hfin htime => exact h.put hproc rfl
  | run hi hloc hproc hrun => exact (h.run hrun).congr rfl (proc_setCpu rfl) rfl rfl
  | ldAdd hloc hprog => exact h.add _ _
  | keep | stop | idle | dispatch | enter | leave | detach =>
      exact h.congr rfl (proc_setCpu rfl) rfl rfl
  | ldNext | ldDone | ldWait | ldReady | ldEnter | ldLeave | ldDetach | timer =>
      exact h.congr rfl (fun _ => rfl) rfl rfl

end Invariant

/-! ## Empty hands -/

theorem refetch_none_setCpu {s : Os} (h : ∀ i, (s.cpus i).loc = .refetch → (s.cpus i).proc = none) {i : ℕ}
    {cpu : Cpu} (hcpu : cpu.loc = .refetch → cpu.proc = none) (j : ℕ) :
    ((s.setCpu i cpu).cpus j).loc = .refetch → ((s.setCpu i cpu).cpus j).proc = none := by
  simp only [Os.setCpu, Function.update_apply]
  split
  · exact hcpu
  · exact h j

/-- A CPU between `put_proc` and `get_proc` has nothing in hands. -/
theorem Os.refetch_none_move {host : Host} {cfg : Config} {s s' : Os}
    (h : ∀ i, (s.cpus i).loc = .refetch → (s.cpus i).proc = none) {a : Actor}
    (hmove : s.Move host cfg a s') (i : ℕ) :
    (s'.cpus i).loc = .refetch → (s'.cpus i).proc = none := by
  cases hmove with
  | first =>
      refine refetch_none_setCpu h (fun hc => ?_) i
      simp only at hc
      split at hc <;> simp at hc
  | put => exact refetch_none_setCpu h (fun _ => rfl) i
  | finish | keep | refetch | stop | idle | dispatch | run | enter | leave | detach =>
      exact refetch_none_setCpu h (fun hc => absurd hc (by simp)) i
  | ldNext | ldDone | ldWait | ldReady | ldAdd | ldEnter | ldLeave | ldDetach | timer => exact h i

/-! ## Program counters -/

/-- The program counter of a process, 0 before it is loaded. -/
def Os.pc (s : Os) (p : ℕ) : ℕ := ((s.sys.procs p).map Pcb.pc).getD 0

/-- The program counters at which instructions of a process were fetched. -/
def fetchedPcs (trace : List (ℕ × ℕ)) (p : ℕ) : List ℕ :=
  (trace.filter fun x => x.1 = p).map Prod.snd

section Counters

variable {host : Host} {cfg : Config} {s s' : Os}

/-- A CPU fetches in `run` only. -/
theorem Os.fetches_of_ne {i : ℕ} (h : (s.cpus i).loc ≠ .run) : s.fetches (.cpu i) = [] := by
  simp only [Os.fetches]
  split
  · next hloc _ => exact absurd hloc h
  · rfl

/-- `run` fetches the instruction at the program counter and moves over it; at the end of the code it
    fetches nothing. -/
theorem Os.run_pc {i q : ℕ} (hloc : (s.cpus i).loc = .run) (hproc : (s.cpus i).proc = some q)
    {st : ℤ} {sys : System} (hrun : s.sys.run host q = some (st, sys)) (p : ℕ) :
    fetchedPcs (s.fetches (.cpu i)) p = [] ∧ ({ s with sys := sys } : Os).pc p = s.pc p ∨
    fetchedPcs (s.fetches (.cpu i)) p = [s.pc p] ∧
      ({ s with sys := sys } : Os).pc p = s.pc p + 1 := by
  obtain ⟨proc, proc', hq, hupd, -, -, hpc⟩ := System.run_procs hrun
  have hfetch : s.fetches (.cpu i) = if proc.pc < proc.code.length then [(q, proc.pc)] else [] := by
    simp only [Os.fetches, hloc, hproc, hq]
  have hpc' : ({ s with sys := sys } : Os).pc p = if p = q then proc'.pc else s.pc p := by
    simp only [Os.pc, hupd, Function.update_apply]
    split <;> rfl
  rw [hfetch, hpc', hpc]
  by_cases hpq : p = q
  · subst hpq
    have hsp : s.pc p = proc.pc := by simp [Os.pc, hq]
    rw [if_pos rfl, hsp]
    split
    · exact Or.inr ⟨by simp [fetchedPcs], rfl⟩
    · exact Or.inl ⟨rfl, rfl⟩
  · left
    rw [if_neg hpq]
    split
    · exact ⟨by simp [fetchedPcs, Ne.symm hpq], rfl⟩
    · exact ⟨rfl, rfl⟩

/-- A process is loaded with its program counter at 0, where that of an unknown process is. -/
theorem Os.add_pc (hinv : HoldersInv s) (prog : Program) (p : ℕ) :
    ({ s with sys := { s.sys with
      procs := Function.update s.sys.procs (s.loaded + 1) (some (load prog)) } } : Os).pc p =
      s.pc p := by
  simp only [Os.pc, Function.update_apply]
  split
  · next hp =>
      cases hproc : s.sys.procs p with
      | none => rfl
      | some proc => exact absurd (hp ▸ hproc) hinv.procs_next
  · rfl

/-- A step fetches the instruction at the program counter and moves over it, or fetches nothing. -/
theorem Os.move_pc (hinv : HoldersInv s) {a : Actor} (h : s.Move host cfg a s') (p : ℕ) :
    fetchedPcs (s.fetches a) p = [] ∧ s'.pc p = s.pc p ∨
    fetchedPcs (s.fetches a) p = [s.pc p] ∧ s'.pc p = s.pc p + 1 := by
  cases h with
  | run hi hloc hproc hrun => exact Os.run_pc hloc hproc hrun p
  | ldAdd hloc hprog => exact Or.inl ⟨rfl, Os.add_pc hinv _ p⟩
  | first hi hloc | finish hi hloc | put hi hloc | keep hi hloc | refetch hi hloc | stop hi hloc
  | idle hi hloc | dispatch hi hloc | enter hi hloc | leave hi hloc | detach hi hloc =>
      exact Or.inl ⟨by rw [Os.fetches_of_ne (by simp [hloc])]; rfl, rfl⟩
  | ldNext | ldDone | ldWait | ldReady | ldEnter | ldLeave | ldDetach | timer =>
      exact Or.inl ⟨rfl, rfl⟩

end Counters

/-! ## Runs -/

section Runs

variable {host : Host} {cfg : Config} {trace : List (ℕ × ℕ)} {s : Os}

theorem OsRun.holdersInv (h : OsRun host cfg trace s) : HoldersInv s := by
  induction h with
  | boot => exact .boot cfg
  | step _ a hstep ih => exact ih.move (Os.move_of_step hstep)

theorem OsRun.refetch_none (h : OsRun host cfg trace s) :
    ∀ i, (s.cpus i).loc = .refetch → (s.cpus i).proc = none := by
  induction h with
  | boot => exact fun _ _ => rfl
  | step _ a hstep ih => exact Os.refetch_none_move ih (Os.move_of_step hstep)

/-- **Run.** The instructions fetched so far are those before the program counter. -/
theorem OsRun.fetchedPcs_eq (h : OsRun host cfg trace s) (p : ℕ) :
    fetchedPcs trace p = List.range (s.pc p) := by
  induction h with
  | boot => rfl
  | step h a hstep ih =>
      rw [fetchedPcs, List.filter_append, List.map_append, ← fetchedPcs, ← fetchedPcs, ih]
      rcases Os.move_pc h.holdersInv (Os.move_of_step hstep) p with ⟨hf, hpc⟩ | ⟨hf, hpc⟩
      · rw [hf, hpc, List.append_nil]
      · rw [hf, hpc, List.range_succ]

/-- Who has the processes: the ready queues, then the CPUs. -/
def Os.holders (cfg : Config) (s : Os) : List ℕ :=
  (List.range maxPrio).flatMap s.sched.waiting ++
    (List.range cfg.numCpus).filterMap fun i => (s.cpus i).proc

theorem HoldersInv.waiting_inj (h : HoldersInv s) {p q r : ℕ} (hq : p ∈ s.sched.waiting q)
    (hr : p ∈ s.sched.waiting r) : q = r := by
  obtain ⟨proc, hproc, rfl⟩ := h.waiting_prio q p hq
  obtain ⟨proc', hproc', rfl⟩ := h.waiting_prio r p hr
  rw [hproc] at hproc'
  rw [Option.some.inj hproc']

theorem HoldersInv.holders_nodup (h : HoldersInv s) : (s.holders cfg).Nodup := by
  refine List.nodup_append.2 ⟨?_, ?_, ?_⟩
  · refine List.nodup_flatMap.2 ⟨fun q _ => h.waiting_nodup q, ?_⟩
    refine List.nodup_range.imp ?_
    intro q r hne p hq hr
    exact hne (h.waiting_inj hq hr)
  · refine List.Nodup.filterMap ?_ List.nodup_range
    intro i j p hi hj
    exact h.hand_inj i j p hi hj
  · intro p hp p' hp' heq
    subst heq
    obtain ⟨prio, -, hwait⟩ := List.mem_flatMap.1 hp
    obtain ⟨i, -, hhand⟩ := List.mem_filterMap.1 hp'
    exact h.hand_waiting i p hhand prio hwait

/-- **One holder.** In every state of every run, with any number of CPUs and processes and also with
    full queues: a process occurs once at most in all queues and hands, a queue holds processes of its
    priority only, no two CPUs are in `run` with one process, and the instructions of a process are
    fetched at 0, 1, 2 and so on. -/
theorem one_holder (h : OsRun host cfg trace s) :
    (s.holders cfg).Nodup ∧
    (∀ prio < maxPrio, ∀ p ∈ s.sched.waiting prio,
      ∃ proc, s.sys.procs p = some proc ∧ proc.prio = prio) ∧
    (∀ i j p, (s.cpus i).loc = .run → (s.cpus j).loc = .run → (s.cpus i).proc = some p →
      (s.cpus j).proc = some p → i = j) ∧
    ∀ p, ∃ n, fetchedPcs trace p = List.range n := by
  have hinv := h.holdersInv
  exact ⟨hinv.holders_nodup, fun prio _ => hinv.waiting_prio prio,
    fun i j p _ _ => hinv.hand_inj i j p, fun p => ⟨s.pc p, h.fetchedPcs_eq p⟩⟩

end Runs

/-- Two CPUs, each in `run` with a process of its own, and the instructions fetched when both have left
    it. -/
theorem one_holder_twoCpus :
    let prog : Program := ⟨[⟨.calc, 0, 0, 0, 0⟩, ⟨.calc, 0, 0, 0, 0⟩], 0, 0, fun _ => 0⟩
    let cfg : Config := ⟨2, 2, [prog, prog], ⟨pagesDevice 1, pagesDevice 1, initMm⟩⟩
    let actors := firstSlot ++ [.cpu 0, .cpu 1, .cpu 1] ++ List.replicate 9 .timer ++
      List.replicate 4 .ld ++ List.replicate 3 (.cpu 0) ++ List.replicate 3 (.cpu 1)
    let s := (Os.after generousHost cfg actors).2
    let r := Os.after generousHost cfg (actors ++ [.cpu 1, .cpu 0])
    (s.cpus 0).loc = .run ∧ (s.cpus 1).loc = .run ∧ s.holders cfg = [1, 2] ∧
      (s.holders cfg).Nodup ∧ (∀ p, (s.cpus 0).proc = some p → (s.cpus 1).proc ≠ some p) ∧
      r.1 = [(1, 0), (2, 0), (1, 1)] ∧ ∀ p, ∃ n, fetchedPcs r.1 p = List.range n := by
  intro prog cfg actors s r
  have hs : (s.cpus 0).loc = .run ∧ (s.cpus 1).loc = .run ∧ s.holders cfg = [1, 2] := by decide +kernel
  have hr : r.1 = [(1, 0), (2, 0), (1, 1)] := by decide +kernel
  have hrun : OsRun generousHost cfg _ s := OsRun.after (by decide +kernel)
  have hrun' : OsRun generousHost cfg r.1 r.2 := OsRun.after (by decide +kernel)
  obtain ⟨hnodup, -, hapart, -⟩ := one_holder hrun
  exact ⟨hs.1, hs.2.1, hs.2.2, hnodup,
    fun p h₀ h₁ => absurd (hapart 0 1 p hs.1 hs.2.1 h₀ h₁) Nat.zero_ne_one, hr,
    (one_holder hrun').2.2.2⟩

end Ossim
