import Ossim.Timer

set_option autoImplicit false

/-! # The timer is a barrier

Between two ticks every attached device goes through `next_slot` exactly once. A device that is fast
may enter the next slot while the timer is still releasing the others: its mark is then set again
before the timer has cleared all, and the invariant has to tell the marks of the old slot, still to be
cleared, from those of the new one. -/

namespace Ossim

open Relation

variable {D : Type} {devList : List D} {t t' : Timer D}

/-- The devices whose marks are still those of the slot before the last tick. -/
def Timer.pending (t : Timer D) : List D :=
  match t.loc with
  | .release rest _ _ => rest
  | _ => []

/-- What the counters of the timer's loop say about the devices it has passed. -/
def Timer.CountsOk (devList : List D) (t : Timer D) : Prop :=
  match t.loc with
  | .wait rest fsh event => ∃ passed, devList = passed ++ rest ∧ fsh ≤ event ∧
    (fsh = event → ∀ d ∈ passed, t.fsh d = true) ∧ ∀ d ∈ passed, t.fsh d = false → t.done d = true
  | .release rest fsh event => rest <:+ devList ∧ (fsh = event → ∀ d ∈ devList, t.fsh d = true)
  | .exited true => ∀ d ∈ devList, t.fsh d = true
  | _ => True

/-- The marks and counters of an attached device. -/
structure Timer.DevOk (t : Timer D) (d : D) : Prop where
  inSlot_of_done : t.done d = true → t.inSlot d = true
  pending : d ∈ t.pending → t.done d = true ∧ t.entered d = t.time
  current : d ∉ t.pending → t.entered d = t.time + if t.done d then 1 else 0
  balance : t.entered d = t.left d + if t.inSlot d then 1 else 0

structure Timer.Inv (devList : List D) (t : Timer D) : Prop where
  devs : ∀ d ∈ devList, t.fsh d = false → t.DevOk d
  counts : t.CountsOk devList

theorem Timer.Inv.start (devList : List D) : (Timer.start : Timer D).Inv devList := by
  refine ⟨fun d _ _ => ⟨?_, ?_, ?_, ?_⟩, trivial⟩ <;> simp [Timer.start, Timer.pending]

variable [DecidableEq D]

/-! ## The timer thread -/

/-- The steps of `timer_routine`, one by one. -/
inductive Timer.Move (devList : List D) (t : Timer D) : Timer D → Prop where
  | stopped (hloc : t.loc = .loop) : Move devList t { t with loc := .exited false }
  | begins (hloc : t.loc = .loop) : Move devList t { t with loc := .wait devList 0 0 }
  | passFsh {d : D} {rest : List D} {fsh event : ℕ} (hloc : t.loc = .wait (d :: rest) fsh event)
      (hd : t.fsh d = true) : Move devList t { t with loc := .wait rest (fsh + 1) (event + 1) }
  | passDone {d : D} {rest : List D} {fsh event : ℕ} (hloc : t.loc = .wait (d :: rest) fsh event)
      (hd : t.fsh d = false) (hdone : t.done d = true) :
      Move devList t { t with loc := .wait rest fsh (event + 1) }
  | tick {fsh event : ℕ} (hloc : t.loc = .wait [] fsh event) :
      Move devList t { t with time := t.time + 1, loc := .release devList fsh event }
  | clear {d : D} {rest : List D} {fsh event : ℕ} (hloc : t.loc = .release (d :: rest) fsh event) :
      Move devList t
        { t with done := Function.update t.done d false, loc := .release rest fsh event }
  | finish {fsh : ℕ} (hloc : t.loc = .release [] fsh fsh) :
      Move devList t { t with loc := .exited true }
  | again {fsh event : ℕ} (hloc : t.loc = .release [] fsh event) :
      Move devList t { t with loc := .loop }

theorem Timer.move_of_step (h : t.step devList = some t') : t.Move devList t' := by
  rw [Timer.step] at h
  split at h
  · next hloc =>
      obtain rfl := Option.some.inj h
      split
      · exact .stopped hloc
      · exact .begins hloc
  · next d rest fsh event hloc =>
      split at h
      · next hd =>
          obtain rfl := Option.some.inj h
          cases hfsh : t.fsh d with
          | true => exact .passFsh hloc hfsh
          | false => exact .passDone hloc hfsh (by simpa [hfsh] using hd)
      · exact absurd h (by simp)
  · next hloc =>
      obtain rfl := Option.some.inj h
      exact .tick hloc
  · next hloc =>
      obtain rfl := Option.some.inj h
      exact .clear hloc
  · next fsh event hloc =>
      obtain rfl := Option.some.inj h
      by_cases heq : fsh = event
      · subst heq
        rw [if_pos rfl]
        exact .finish hloc
      · rw [if_neg heq]
        exact .again hloc
  · exact absurd h (by simp)

omit [DecidableEq D] in
/-- A device keeps its marks while the timer moves on without releasing anybody. -/
theorem Timer.DevOk.setLoc {d : D} (h : t.DevOk d) (hpend : t.pending = []) {loc : TimerLoc D}
    (hpend' : ({ t with loc := loc } : Timer D).pending = []) :
    ({ t with loc := loc } : Timer D).DevOk d where
  inSlot_of_done := h.inSlot_of_done
  pending := by simp [hpend']
  current := fun _ => h.current (by simp [hpend])
  balance := h.balance

/-- The steps of the timer thread keep the invariant. -/
theorem Timer.Inv.move (h : t.Inv devList) (hnodup : devList.Nodup) (hmove : t.Move devList t') :
    t'.Inv devList := by
  have hcounts := h.counts
  cases hmove with
  | stopped hloc =>
      have hpend : t.pending = [] := by rw [Timer.pending, hloc]
      exact ⟨fun d hd hfsh => (h.devs d hd hfsh).setLoc hpend rfl, trivial⟩
  | begins hloc =>
      have hpend : t.pending = [] := by rw [Timer.pending, hloc]
      exact ⟨fun d hd hfsh => (h.devs d hd hfsh).setLoc hpend rfl,
        [], rfl, Nat.le_refl 0, by simp, by simp⟩
  | @passFsh d rest fsh event hloc hd =>
      have hpend : t.pending = [] := by rw [Timer.pending, hloc]
      rw [Timer.CountsOk, hloc] at hcounts
      obtain ⟨passed, hlist, hle, hall, hdone⟩ := hcounts
      refine ⟨fun e he hfsh => (h.devs e he hfsh).setLoc hpend rfl, passed ++ [d], by simp [hlist],
        by omega, ?_, ?_⟩
      · intro heq e he
        rcases List.mem_append.1 he with he | he
        · exact hall (by omega) e he
        · rw [List.mem_singleton.1 he]
          exact hd
      · intro e he hfsh
        rcases List.mem_append.1 he with he | he
        · exact hdone e he hfsh
        · rw [List.mem_singleton.1 he] at hfsh
          exact absurd (hd.symm.trans hfsh) (by simp)
  | @passDone d rest fsh event hloc hd hddone =>
      have hpend : t.pending = [] := by rw [Timer.pending, hloc]
      rw [Timer.CountsOk, hloc] at hcounts
      obtain ⟨passed, hlist, hle, hall, hdone⟩ := hcounts
      refine ⟨fun e he hfsh => (h.devs e he hfsh).setLoc hpend rfl, passed ++ [d], by simp [hlist],
        by omega, by omega, ?_⟩
      intro e he hfsh
      rcases List.mem_append.1 he with he | he
      · exact hdone e he hfsh
      · rw [List.mem_singleton.1 he]
        exact hddone
  | @tick fsh event hloc =>
      -- everybody has been passed, so the marks of all attached devices are set
      have hpend : t.pending = [] := by rw [Timer.pending, hloc]
      rw [Timer.CountsOk, hloc] at hcounts
      obtain ⟨passed, hlist, hle, hall, hdone⟩ := hcounts
      rw [List.append_nil] at hlist
      subst hlist
      refine ⟨fun d hd hfsh => ?_, List.suffix_refl _, hall⟩
      have hok := h.devs d hd hfsh
      have hd' := hdone d hd hfsh
      have hent := hok.current (by simp [hpend])
      rw [hd', if_pos rfl] at hent
      exact ⟨hok.inSlot_of_done, fun _ => ⟨hd', hent⟩, fun hnot => absurd hd hnot, hok.balance⟩
  | @clear d rest fsh event hloc =>
      rw [Timer.CountsOk, hloc] at hcounts
      obtain ⟨hsuf, hall⟩ := hcounts
      have hpend : t.pending = d :: rest := by rw [Timer.pending, hloc]
      have hnot : d ∉ rest := (List.nodup_cons.1 (hnodup.sublist hsuf.sublist)).1
      refine ⟨fun e he hfsh => ?_, (List.suffix_cons d rest).trans hsuf, hall⟩
      have hok := h.devs e he hfsh
      by_cases hed : e = d
      · -- released: the next mark it sets is that of the new slot
        subst hed
        refine ⟨by simp, fun hmem => absurd hmem hnot, fun _ => ?_, hok.balance⟩
        have hent := (hok.pending (by simp [hpend])).2
        simpa using hent
      · refine ⟨?_, ?_, ?_, hok.balance⟩
        · simp only [Function.update_of_ne hed]
          exact hok.inSlot_of_done
        · intro hmem
          simp only [Function.update_of_ne hed]
          exact hok.pending (by rw [hpend]; exact List.mem_cons_of_mem _ hmem)
        · intro hmem
          simp only [Function.update_of_ne hed]
          exact hok.current (by rw [hpend]; exact fun hc => hmem ((List.mem_cons.1 hc).resolve_left hed))
  | finish hloc =>
      have hpend : t.pending = [] := by rw [Timer.pending, hloc]
      rw [Timer.CountsOk, hloc] at hcounts
      exact ⟨fun d hd hfsh => (h.devs d hd hfsh).setLoc hpend rfl, hcounts.2 rfl⟩
  | again hloc =>
      have hpend : t.pending = [] := by rw [Timer.pending, hloc]
      exact ⟨fun d hd hfsh => (h.devs d hd hfsh).setLoc hpend rfl, trivial⟩

/-! ## The devices -/

omit [DecidableEq D] in
/-- The counters of the loop survive steps of the devices: marks are set, not cleared, while the timer
    waits, and devices are detached for good. -/
theorem Timer.CountsOk.mono (h : t.CountsOk devList) (hloc : t'.loc = t.loc)
    (hfsh : ∀ d ∈ devList, t.fsh d = true → t'.fsh d = true)
    (hdone : ∀ d ∈ devList, t.done d = true → t'.done d = true) : t'.CountsOk devList := by
  rw [Timer.CountsOk, hloc]
  rw [Timer.CountsOk] at h
  cases hl : t.loc with
  | loop => trivial
  | wait rest fsh event =>
      rw [hl] at h
      obtain ⟨passed, hlist, hle, hall, hd⟩ := h
      have hmem : ∀ d ∈ passed, d ∈ devList := fun d hp => hlist ▸ List.mem_append_left _ hp
      refine ⟨passed, hlist, hle, fun heq d hp => hfsh d (hmem d hp) (hall heq d hp), ?_⟩
      intro d hp hf
      cases hold : t.fsh d with
      | true => exact absurd ((hfsh d (hmem d hp) hold).symm.trans hf) (by simp)
      | false => exact hdone d (hmem d hp) (hd d hp hold)
  | release rest fsh event =>
      rw [hl] at h
      exact ⟨h.1, fun heq d hd => hfsh d hd (h.2 heq d hd)⟩
  | exited b =>
      rw [hl] at h
      cases b with
      | false => trivial
      | true => exact fun d hd => hfsh d hd (h d hd)

omit [DecidableEq D] in
theorem Timer.pending_congr (hloc : t'.loc = t.loc) : t'.pending = t.pending := by
  rw [Timer.pending, Timer.pending, hloc]

/-- A device that is outside `next_slot` has been released, so its mark is that of this slot. -/
theorem Timer.Inv.enter (h : t.Inv devList) {d : D} (hd : d ∈ devList) (hout : t.inSlot d = false)
    (hfsh : t.fsh d = false) : (t.enter d).Inv devList := by
  have hpend : (t.enter d).pending = t.pending := Timer.pending_congr rfl
  have hok := h.devs d hd hfsh
  have hdone : t.done d = false := by
    cases hdd : t.done d with
    | false => rfl
    | true => exact absurd (hok.inSlot_of_done hdd) (by simp [hout])
  have hnot : d ∉ t.pending := fun hmem => absurd (hok.pending hmem).1 (by simp [hdone])
  have hent := hok.current hnot
  have hbal := hok.balance
  rw [hdone] at hent
  rw [hout] at hbal
  refine ⟨fun e he hf => ?_, h.counts.mono rfl (fun _ _ hf => hf) ?_⟩
  · by_cases hed : e = d
    · subst hed
      refine ⟨by simp [Timer.enter], fun hmem => absurd (hpend ▸ hmem) hnot, fun _ => ?_, ?_⟩
      · simpa [Timer.enter] using hent
      · simpa [Timer.enter] using hbal
    · obtain ⟨h1, h2, h3, h4⟩ := h.devs e he hf
      refine ⟨?_, ?_, ?_, ?_⟩
      · simpa only [Timer.enter, Function.update_of_ne hed] using h1
      · rw [hpend]
        simpa only [Timer.enter, Function.update_of_ne hed] using h2
      · rw [hpend]
        simpa only [Timer.enter, Function.update_of_ne hed] using h3
      · simpa only [Timer.enter, Function.update_of_ne hed] using h4
  · intro e _ hdone'
    by_cases hed : e = d
    · subst hed
      simp [Timer.enter]
    · simpa only [Timer.enter, Function.update_of_ne hed] using hdone'

theorem Timer.leave_eq_some {d : D} (h : t.leave d = some t') :
    t.done d = false ∧ t' = { t with
      inSlot := Function.update t.inSlot d false
      left := Function.update t.left d (t.left d + 1) } := by
  rw [Timer.leave] at h
  split at h
  · exact absurd h (by simp)
  · next hd => exact ⟨by simpa using hd, (Option.some.inj h).symm⟩

theorem Timer.Inv.leave (h : t.Inv devList) {d : D} (hin : t.inSlot d = true)
    (hleave : t.leave d = some t') : t'.Inv devList := by
  obtain ⟨hdone, rfl⟩ := Timer.leave_eq_some hleave
  refine ⟨fun e he hf => ?_, h.counts.mono rfl (fun _ _ hf => hf) fun _ _ hd => hd⟩
  obtain ⟨h1, h2, h3, h4⟩ := h.devs e he hf
  by_cases hed : e = d
  · subst hed
    refine ⟨fun hd => absurd hd (by simp [hdone]), h2, h3, ?_⟩
    rw [hin] at h4
    simpa using h4
  · refine ⟨?_, h2, h3, ?_⟩ <;> simp only [Function.update_of_ne hed]
    · exact h1
    · exact h4

theorem Timer.Inv.detach (h : t.Inv devList) (d : D) : (t.detach d).Inv devList := by
  refine ⟨fun e he hf => ?_, h.counts.mono rfl ?_ fun _ _ hd => hd⟩
  · have hed : e ≠ d := by
      rintro rfl
      simp [Timer.detach] at hf
    simp only [Timer.detach, Function.update_of_ne hed] at hf
    obtain ⟨h1, h2, h3, h4⟩ := h.devs e he hf
    exact ⟨h1, h2, h3, h4⟩
  · intro e _ hf
    by_cases hed : e = d
    · subst hed
      simp [Timer.detach]
    · simpa only [Timer.detach, Function.update_of_ne hed] using hf

/-- **Step.** -/
theorem TimerStep.inv (h : TimerStep devList t t') (hnodup : devList.Nodup) (hinv : t.Inv devList) :
    t'.Inv devList := by
  cases h with
  | timer hstep => exact hinv.move hnodup (Timer.move_of_step hstep)
  | enter hd hout hfsh => exact hinv.enter hd hout hfsh
  | leave hd hin hleave => exact hinv.leave hin hleave
  | detach hd hout hfsh => exact hinv.detach _
  | stop => exact ⟨fun d hd hf => ⟨(hinv.devs d hd hf).1, (hinv.devs d hd hf).2,
      (hinv.devs d hd hf).3, (hinv.devs d hd hf).4⟩, hinv.counts⟩

/-! ## Runs -/

/-- **Run.** -/
theorem Timer.Inv.run (h : ReflTransGen (TimerStep devList) t t') (hnodup : devList.Nodup)
    (hinv : t.Inv devList) : t'.Inv devList := by
  induction h with
  | refl => exact hinv
  | tail _ hstep ih => exact hstep.inv hnodup ih

/-- Devices are detached for good. -/
theorem TimerStep.fsh_of_false (h : TimerStep devList t t') {d : D} (hf : t'.fsh d = false) :
    t.fsh d = false := by
  cases h with
  | timer hstep => cases Timer.move_of_step hstep <;> exact hf
  | enter hd hout hfsh => exact hf
  | leave hd hin hleave =>
      obtain ⟨-, rfl⟩ := Timer.leave_eq_some hleave
      exact hf
  | detach hd hout hfsh =>
      simp only [Timer.detach, Function.update_apply] at hf
      split at hf
      · exact absurd hf (by simp)
      · exact hf
  | stop => exact hf

theorem Timer.fsh_of_run (h : ReflTransGen (TimerStep devList) t t') {d : D}
    (hf : t'.fsh d = false) : t.fsh d = false := by
  induction h with
  | refl => exact hf
  | tail _ hstep ih => exact ih (hstep.fsh_of_false hf)

/-- Only the timer thread advances the time, having passed all devices. -/
theorem TimerStep.tick_of_time (h : TimerStep devList t t') (htime : t'.time ≠ t.time) :
    ∃ fsh event, t.loc = .wait [] fsh event ∧
      t' = { t with time := t.time + 1, loc := .release devList fsh event } := by
  cases h with
  | timer hstep =>
      cases Timer.move_of_step hstep with
      | tick hloc => exact ⟨_, _, hloc, rfl⟩
      | _ => exact absurd rfl htime
  | leave hd hin hleave =>
      obtain ⟨-, rfl⟩ := Timer.leave_eq_some hleave
      exact absurd rfl htime
  | _ => exact absurd rfl htime

/-- At a tick, every attached device has entered `next_slot` for this slot and waits there. -/
theorem Timer.Inv.at_tick (h : t.Inv devList) (hstep : TimerStep devList t t')
    (htime : t'.time ≠ t.time) {d : D} (hd : d ∈ devList) (hfsh : t.fsh d = false) :
    t.done d = true ∧ t.inSlot d = true ∧ t.entered d = t.time + 1 ∧ t.left d = t.time := by
  obtain ⟨fsh, event, hloc, -⟩ := hstep.tick_of_time htime
  have hcounts := h.counts
  rw [Timer.CountsOk, hloc] at hcounts
  obtain ⟨passed, hlist, -, -, hdone⟩ := hcounts
  rw [List.append_nil] at hlist
  have hok := h.devs d hd hfsh
  have hdd := hdone d (hlist ▸ hd) hfsh
  have hin := hok.inSlot_of_done hdd
  have hent := hok.current (by simp [Timer.pending, hloc])
  have hbal := hok.balance
  rw [hdd, if_pos rfl] at hent
  rw [hin, if_pos rfl] at hbal
  exact ⟨hdd, hin, hent, by omega⟩

/-- `n` steps of the timer, as far as it does not have to wait. -/
def Timer.goOn {D : Type} [DecidableEq D] (devList : List D) : ℕ → Timer D → Timer D
  | 0, t => t
  | n + 1, t => Timer.goOn devList n ((t.step devList).getD t)

theorem Timer.run_goOn {D : Type} [DecidableEq D] (devList : List D) (n : ℕ) (t : Timer D) :
    ReflTransGen (TimerStep devList) t (t.goOn devList n) := by
  induction n generalizing t with
  | zero => exact .refl
  | succ n ih =>
      refine ReflTransGen.trans ?_ (ih _)
      cases h : t.step devList with
      | none => exact .refl
      | some t' => exact .single (.timer h)

/-- **Barrier.** In every state of every run, an attached device has entered `next_slot` as often as
    the time says, or once more. Between two ticks it goes through exactly one slot; at a tick it is
    in `next_slot`, marked; and the timer leaves its loop by the count only if all are detached. -/
theorem timer_barrier (hnodup : devList.Nodup)
    (h : ReflTransGen (TimerStep devList) Timer.start t) :
    (∀ d ∈ devList, t.fsh d = false → t.entered d = t.time ∨ t.entered d = t.time + 1) ∧
    (∀ t₁ t₂ t₃, TimerStep devList t t₁ → t₁.time ≠ t.time →
      ReflTransGen (TimerStep devList) t₁ t₂ → t₂.time = t₁.time →
      TimerStep devList t₂ t₃ → t₃.time ≠ t₂.time → ∀ d ∈ devList, t₂.fsh d = false →
      t₂.entered d = t₁.entered d + 1 ∧ t₂.left d = t₁.left d + 1) ∧
    (∀ t', TimerStep devList t t' → t'.time ≠ t.time → ∀ d ∈ devList, t.fsh d = false →
      t.inSlot d = true ∧ t.done d = true) ∧
    (t.loc = .exited true → ∀ d ∈ devList, t.fsh d = true) := by
  have hinv := Timer.Inv.run h hnodup (.start devList)
  refine ⟨?_, ?_, ?_, ?_⟩
  · intro d hd hfsh
    have hok := hinv.devs d hd hfsh
    by_cases hmem : d ∈ t.pending
    · exact Or.inl (hok.pending hmem).2
    · have hcur := hok.current hmem
      split at hcur
      · exact Or.inr hcur
      · exact Or.inl hcur
  · intro t₁ t₂ t₃ hstep₁ htick₁ hrun hsame hstep₂ htick₂ d hd hfsh
    have hfsh₁ := Timer.fsh_of_run hrun hfsh
    have hinv₂ := Timer.Inv.run hrun hnodup (hstep₁.inv hnodup hinv)
    obtain ⟨-, -, hent, hleft⟩ := hinv.at_tick hstep₁ htick₁ hd (hstep₁.fsh_of_false hfsh₁)
    obtain ⟨-, -, hent₂, hleft₂⟩ := hinv₂.at_tick hstep₂ htick₂ hd hfsh
    obtain ⟨_, _, -, rfl⟩ := hstep₁.tick_of_time htick₁
    simp only at hsame ⊢
    omega
  · intro t' hstep htick d hd hfsh
    obtain ⟨hdone, hin, -, -⟩ := hinv.at_tick hstep htick hd hfsh
    exact ⟨hin, hdone⟩
  · intro hloc
    have hcounts := hinv.counts
    rwa [Timer.CountsOk, hloc] at hcounts

/-- Two devices go through two time slots. -/
theorem timer_barrier_twoDevices :
    let devList := [false, true]
    let t := ((Timer.start.enter false).enter true).goOn devList 3
    let t₁ := t.goOn devList 1
    let t₂ := ((((t₁.goOn devList 3).leave true).bind (·.leave false)).map fun t =>
      ((t.enter false).enter true).goOn devList 3).getD t₁
    let t₃ := t₂.goOn devList 1
    (t₁.time, t₂.time, t₃.time) = (1, 1, 2) ∧
      ∀ d, t₂.entered d = t₁.entered d + 1 ∧ t₂.left d = t₁.left d + 1 := by
  intro devList t t₁ t₂ t₃
  have hmem : ∀ d, d ∈ devList := by decide
  have hfirst : ReflTransGen (TimerStep devList) Timer.start t :=
    (((ReflTransGen.refl.tail (.enter (hmem false) rfl rfl)).tail (.enter (hmem true) rfl rfl))).trans
      (Timer.run_goOn devList 3 _)
  have hleave := (Timer.run_goOn devList 3 t₁).tail (.leave (hmem true) rfl rfl) |>.tail
    (.leave (hmem false) rfl rfl)
  have hsecond : ReflTransGen (TimerStep devList) t₁ t₂ :=
    ((hleave.tail (.enter (hmem false) rfl rfl)).tail (.enter (hmem true) rfl rfl)).trans
      (Timer.run_goOn devList 3 _)
  refine ⟨rfl, fun d => ?_⟩
  exact (timer_barrier (by decide) hfirst).2.1 t₁ t₂ t₃ (.timer rfl) (by decide) hsecond rfl
    (.timer rfl) (by decide) d (hmem d) (by cases d <;> rfl)

end Ossim
