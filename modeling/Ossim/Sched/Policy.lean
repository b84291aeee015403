import Ossim.Sched.Arrays

set_option autoImplicit false

/-! # The scheduling policy

Any sequence of calls of `add_proc`, `put_proc` and `get_proc`, with a log of what they did: the
processes that entered and left the queues, and the renewals of the budgets. The log determines the
budgets and, in order, who is waiting; with it the choice of `get_proc` is described. -/

namespace Ossim

variable {P : Type}

/-! ## Calls and their log -/

/-- A call into the scheduler, with the process and its priority. -/
inductive SchedCall (P : Type) where
  | add (proc : P) (prio : ℕ)
  | put (proc : P) (prio : ℕ)
  | get

/-- The calls in question: there is a queue for the priority. -/
def SchedCall.Legal : SchedCall P → Prop
  | .add _ prio | .put _ prio => prio < maxPrio
  | .get => True

/-- What happens in a call. -/
inductive SchedEvent (P : Type) where
  | enqueued (prio : ℕ) (proc : P)
  | dispatched (prio : ℕ) (proc : P)
  | refilled
  deriving DecidableEq

namespace SchedEvent

/-- The process that enters the queue of a priority. -/
def entering (prio : ℕ) : SchedEvent P → Option P
  | enqueued q proc => if q = prio then some proc else none
  | _ => none

/-- The process that leaves the queue of a priority. -/
def leaving (prio : ℕ) : SchedEvent P → Option P
  | dispatched q proc => if q = prio then some proc else none
  | _ => none

def isRefill : SchedEvent P → Bool
  | refilled => true
  | _ => false

end SchedEvent

namespace Sched

/-- The scheduler after a call. -/
def call [DecidableEq P] (s : Sched P) : SchedCall P → Sched P
  | .add proc prio => s.addMlqProc proc prio
  | .put proc prio => s.putMlqProc proc prio
  | .get => s.getMlqProc.2

/-- What a call does: a full queue takes no process, and `get_mlq_proc` renews the budgets if it has
    no priority to serve and some process is waiting. -/
def events (s : Sched P) : SchedCall P → List (SchedEvent P)
  | .add proc prio | .put proc prio =>
    if (s.waiting prio).length < maxQueueSize then [.enqueued prio proc] else []
  | .get =>
    match s.servedPrio with
    | some prio => (s.waiting prio).head?.toList.map (.dispatched prio)
    | none => if s.queueEmpty = -1 then [.refilled] else []

end Sched

/-- A sequence of calls, with the log of all they did, the newest first. -/
inductive SchedRun [DecidableEq P] : List (SchedEvent P) → Sched P → Prop where
  | init : SchedRun [] Sched.init
  | call {log : List (SchedEvent P)} {s : Sched P} (h : SchedRun log s) (c : SchedCall P)
      (hc : c.Legal) : SchedRun (s.events c ++ log) (s.call c)

/-- The processes that have entered the queue of a priority, in order. -/
def entered (log : List (SchedEvent P)) (prio : ℕ) : List P :=
  (log.filterMap (SchedEvent.entering prio)).reverse

/-- The processes that have left the queue of a priority, in order. -/
def departed (log : List (SchedEvent P)) (prio : ℕ) : List P :=
  (log.filterMap (SchedEvent.leaving prio)).reverse

/-- The number of processes dispatched with a priority since the budgets were renewed last. -/
def dispatches (log : List (SchedEvent P)) (prio : ℕ) : ℕ :=
  ((log.takeWhile fun e => !e.isRefill).filterMap (SchedEvent.leaving prio)).length

section Log

variable (log : List (SchedEvent P)) (prio q : ℕ) (proc : P)

@[simp] theorem entered_enqueued : entered (.enqueued q proc :: log) prio =
    if q = prio then entered log prio ++ [proc] else entered log prio := by
  simp only [entered, List.filterMap_cons, SchedEvent.entering]
  split <;> simp_all

@[simp] theorem entered_dispatched :
    entered (.dispatched q proc :: log) prio = entered log prio := rfl

@[simp] theorem entered_refilled : entered (.refilled :: log) prio = entered log prio := rfl

@[simp] theorem departed_enqueued : departed (.enqueued q proc :: log) prio = departed log prio := rfl

@[simp] theorem departed_dispatched : departed (.dispatched q proc :: log) prio =
    if q = prio then departed log prio ++ [proc] else departed log prio := by
  simp only [departed, List.filterMap_cons, SchedEvent.leaving]
  split <;> simp_all

@[simp] theorem departed_refilled : departed (.refilled :: log) prio = departed log prio := rfl

@[simp] theorem dispatches_enqueued :
    dispatches (.enqueued q proc :: log) prio = dispatches log prio := rfl

@[simp] theorem dispatches_dispatched : dispatches (.dispatched q proc :: log) prio =
    if q = prio then dispatches log prio + 1 else dispatches log prio := by
  simp only [dispatches, List.takeWhile_cons, SchedEvent.isRefill, Bool.not_false, if_true,
    List.filterMap_cons, SchedEvent.leaving]
  split <;> simp_all

@[simp] theorem dispatches_refilled : dispatches (.refilled :: log) prio = 0 := rfl

end Log

/-! ## What a call does -/

section Calls

variable {s : Sched P}

theorem Sched.enqueues_cases [DecidableEq P] {proc : P} {prio : ℕ} {c : SchedCall P}
    (hc : c = .add proc prio ∨ c = .put proc prio) :
    (s.call c).slot = s.slot ∧
    (s.events c = [.enqueued prio proc] ∧
        (s.call c).waiting = Function.update s.waiting prio (s.waiting prio ++ [proc]) ∨
      s.events c = [] ∧ (s.call c).waiting = s.waiting) := by
  have hwait : (s.call c).waiting =
      Function.update s.waiting prio ((s.mlqReadyQueue prio).enqueue proc).proc := by
    rcases hc with rfl | rfl
    · exact s.addMlqProc_waiting proc prio
    · exact s.putMlqProc_waiting proc prio
  have hevents : s.events c =
      if (s.waiting prio).length < maxQueueSize then [.enqueued prio proc] else [] := by
    rcases hc with rfl | rfl <;> rfl
  refine ⟨by rcases hc with rfl | rfl <;> rfl, ?_⟩
  rw [hevents, hwait]
  by_cases hroom : (s.waiting prio).length < maxQueueSize
  · left
    rw [if_pos hroom, Sched.enqueue_of_lt proc hroom]
    exact ⟨rfl, rfl⟩
  · right
    rw [if_neg hroom, Sched.enqueue_of_not_lt proc hroom]
    exact ⟨rfl, Function.update_eq_self prio s.waiting⟩

theorem Sched.events_get_of_serves {prio : ℕ} {p : P} {rest : List P} (h : s.Serves prio p rest) :
    s.events .get = [.dispatched prio p] := by
  cases hserved : s.servedPrio with
  | none =>
      have hnone := (Sched.servesNone_of_servedPrio hserved).fst_eq
      rw [h.fst_eq] at hnone
      exact absurd hnone (by simp)
  | some q =>
      obtain ⟨p', rest', h'⟩ := Sched.serves_of_servedPrio hserved
      -- each of the two is the first with a process waiting and budget left
      have hq : q = prio := by
        rcases Nat.lt_trichotomy q prio with hlt | heq | hlt
        · rcases h.before q hlt with hnil | hzero
          · exact absurd (h'.waiting_eq.symm.trans hnil) (by simp)
          · exact absurd hzero (Nat.ne_of_gt h'.slot_pos)
        · exact heq
        · rcases h'.before prio hlt with hnil | hzero
          · exact absurd (h.waiting_eq.symm.trans hnil) (by simp)
          · exact absurd hzero (Nat.ne_of_gt h.slot_pos)
      simp [Sched.events, hserved, hq, h.waiting_eq]

theorem Sched.events_get_of_servesNone (h : s.ServesNone) :
    s.events .get = if s.queueEmpty = -1 then [.refilled] else [] := by
  cases hserved : s.servedPrio with
  | none => simp [Sched.events, hserved]
  | some prio =>
      obtain ⟨p, rest, hserves⟩ := Sched.serves_of_servedPrio hserved
      have hsome := hserves.fst_eq
      rw [h.fst_eq] at hsome
      exact absurd hsome (by simp)

end Calls

/-! ## The invariant -/

/-- The log determines the budgets and the queues. -/
structure PolicyInv (log : List (SchedEvent P)) (s : Sched P) : Prop where
  budget : ∀ prio < maxPrio, dispatches log prio + s.slot prio = maxPrio - prio
  fifo : ∀ prio, entered log prio = departed log prio ++ s.waiting prio

theorem PolicyInv.init : PolicyInv [] (Sched.init : Sched P) where
  budget := fun _ _ => Nat.zero_add _
  fifo := fun _ => rfl

section Runs

variable [DecidableEq P] {log : List (SchedEvent P)} {s : Sched P}

theorem PolicyInv.enqueues (h : PolicyInv log s) {proc : P} {prio : ℕ} {c : SchedCall P}
    (hc : c = .add proc prio ∨ c = .put proc prio) : PolicyInv (s.events c ++ log) (s.call c) := by
  obtain ⟨hslot, ⟨hev, hwait⟩ | ⟨hev, hwait⟩⟩ := Sched.enqueues_cases (s := s) hc
  · rw [hev, List.singleton_append]
    refine ⟨?_, ?_⟩
    · intro q hq
      rw [dispatches_enqueued, hslot]
      exact h.budget q hq
    · intro q
      rw [entered_enqueued, departed_enqueued, hwait, Function.update_apply, h.fifo q]
      by_cases hqp : prio = q
      · rw [if_pos hqp, if_pos hqp.symm, List.append_assoc, hqp]
      · rw [if_neg hqp, if_neg (Ne.symm hqp)]
  · rw [hev, List.nil_append]
    exact ⟨fun q hq => hslot ▸ h.budget q hq, fun q => hwait ▸ h.fifo q⟩

omit [DecidableEq P] in
theorem PolicyInv.get (h : PolicyInv log s) :
    PolicyInv (s.events .get ++ log) s.getMlqProc.2 := by
  rcases s.getMlqProc_spec with ⟨prio, p, rest, hserves⟩ | hnone
  · rw [Sched.events_get_of_serves hserves, List.singleton_append]
    refine ⟨?_, ?_⟩
    · intro q hq
      have hbudget := h.budget q hq
      rw [dispatches_dispatched, hserves.slot_get, Function.update_apply]
      -- the queue that is served has one dispatch more and one unit of budget less
      by_cases hqp : prio = q
      · subst hqp
        have hpos := hserves.slot_pos
        rw [if_pos rfl, if_pos rfl]
        omega
      · rw [if_neg hqp, if_neg (Ne.symm hqp)]
        exact hbudget
    · intro q
      rw [entered_dispatched, departed_dispatched, hserves.waiting_get, Function.update_apply, h.fifo q]
      by_cases hqp : prio = q
      · subst hqp
        rw [if_pos rfl, if_pos rfl, hserves.waiting_eq, List.append_assoc, List.singleton_append]
      · rw [if_neg hqp, if_neg (Ne.symm hqp)]
  · -- no queue is served: the budgets stay, or all of them are renewed and counted anew
    rw [Sched.events_get_of_servesNone hnone]
    refine ⟨?_, ?_⟩
    · intro q hq
      rw [hnone.slot_get]
      split
      · exact Nat.zero_add _
      · exact h.budget q hq
    · intro q
      rw [hnone.waiting_get]
      split
      · exact h.fifo q
      · exact h.fifo q

theorem SchedRun.policyInv (h : SchedRun log s) : PolicyInv log s := by
  induction h with
  | init => exact .init
  | call _ c _ ih =>
      cases c with
      | add proc prio => exact ih.enqueues (Or.inl rfl)
      | put proc prio => exact ih.enqueues (Or.inr rfl)
      | get => exact ih.get

omit [DecidableEq P] in
/-- When the budgets are renewed, every priority with a process waiting has none left. -/
theorem Sched.slot_of_refilled (h : .refilled ∈ s.events .get) {prio : ℕ} (hprio : prio < maxPrio)
    (hwait : s.waiting prio ≠ []) : s.slot prio = 0 := by
  rcases s.getMlqProc_spec with ⟨q, p, rest, hserves⟩ | hnone
  · rw [Sched.events_get_of_serves hserves] at h
    simp at h
  · by_contra hne
    exact hnone.not_serving ⟨prio, hprio, hwait, Nat.pos_of_ne_zero hne⟩

/-- A budget grows when the budgets are renewed, and at no other time. -/
theorem Sched.refilled_of_slot_lt {c : SchedCall P} {prio : ℕ}
    (h : s.slot prio < (s.call c).slot prio) : c = .get ∧ .refilled ∈ s.events c := by
  cases c with
  | add proc q => exact absurd h (Nat.lt_irrefl _)
  | put proc q => exact absurd h (Nat.lt_irrefl _)
  | get =>
      refine ⟨rfl, ?_⟩
      change s.slot prio < s.getMlqProc.2.slot prio at h
      rcases s.getMlqProc_spec with ⟨q, p, rest, hserves⟩ | hnone
      · rw [hserves.slot_get, Function.update_apply] at h
        split at h
        · next hq =>
            subst hq
            omega
        · omega
      · rw [hnone.slot_get] at h
        rw [Sched.events_get_of_servesNone hnone]
        split at h
        · next hwaiting => simp [hwaiting]
        · omega

/-- **Policy.** After any sequence of calls: the budget of a priority is what is left of
    `MAX_PRIO - prio` after its dispatches since the last renewal; `get_proc` returns, of the
    processes that entered the first queue with a process waiting and budget left, the first that has
    not left it; the budgets grow in a `get_proc` only, when every priority with a process waiting has
    had its `MAX_PRIO - prio` dispatches. -/
theorem mlq_policy (h : SchedRun log s) :
    (∀ prio < maxPrio, s.slot prio ≤ maxPrio - prio ∧
      dispatches log prio = maxPrio - prio - s.slot prio) ∧
    (∀ prio, entered log prio = departed log prio ++ s.waiting prio) ∧
    (∀ proc, s.getMlqProc.1 = some proc → ∃ prio < maxPrio, ∃ rest,
      s.events .get = [.dispatched prio proc] ∧ 0 < s.slot prio ∧
      (∀ q < prio, s.waiting q = [] ∨ s.slot q = 0) ∧ s.waiting prio = proc :: rest ∧
      entered log prio = departed log prio ++ proc :: rest) ∧
    (∀ c prio, s.slot prio < (s.call c).slot prio → c = .get ∧ .refilled ∈ s.events c) ∧
    (.refilled ∈ s.events .get → ∀ prio < maxPrio, s.waiting prio ≠ [] →
      dispatches log prio = maxPrio - prio) := by
  have hinv := h.policyInv
  refine ⟨?_, hinv.fifo, ?_, fun c prio => Sched.refilled_of_slot_lt, ?_⟩
  · intro prio hprio
    have hbudget := hinv.budget prio hprio
    omega
  · intro proc hproc
    rcases s.getMlqProc_spec with ⟨prio, p, rest, hserves⟩ | hnone
    · obtain rfl : p = proc := Option.some.inj (hserves.fst_eq.symm.trans hproc)
      refine ⟨prio, hserves.prio_lt, rest, Sched.events_get_of_serves hserves, hserves.slot_pos,
        hserves.before, hserves.waiting_eq, ?_⟩
      rw [hinv.fifo prio, hserves.waiting_eq]
    · rw [hnone.fst_eq] at hproc
      exact absurd hproc (by simp)
  · intro hrefill prio hprio hwait
    have hbudget := hinv.budget prio hprio
    have hzero := Sched.slot_of_refilled hrefill hprio hwait
    omega

end Runs

/-- The last priority has one slot: two processes wait there, one is dispatched, and the next call
    finds the other waiting without budget. -/
theorem mlq_policy_last_prio :
    let s := (((Sched.init.call (.add 1 139)).call (.add 2 139)).call .get : Sched ℕ)
    s.getMlqProc.1 = none ∧ s.getMlqProc.2.getMlqProc.1 = some 2 ∧
    dispatches ([.dispatched 139 1, .enqueued 139 2, .enqueued 139 1] : List (SchedEvent ℕ)) 139 =
      maxPrio - 139 := by
  have hlegal : 139 < maxPrio := by decide
  have hrun := ((SchedRun.init.call (.add 1 139) hlegal).call (.add 2 139) hlegal).call .get trivial
  refine ⟨by decide +kernel, by decide +kernel, ?_⟩
  exact (mlq_policy hrun).2.2.2.2 (by decide +kernel) 139 (by decide) (by decide +kernel)

/-! ## Work conservation -/

/-- `get_proc` keeps no CPU waiting: it returns NULL only if nobody is waiting, and otherwise a process,
    with the budgets renewed first if no priority with a process waiting has any left. -/
structure Sched.WorkConserving (s : Sched P) : Prop where
  null : s.getMlqProc.1 = none → s.Idle
  returned : ¬ s.Idle → s.getMlqProc.1.isSome = true
  refilled : ¬ s.Idle → ¬ s.Serving →
    s.getMlqProc = ({ s with slot := Sched.fullSlots } : Sched P).getMlqProc

/-- In a history of calls: every process that entered a queue has left it, or some priority with a process
    waiting has dispatches left before the budgets are renewed. -/
def DispatchesLeft (log : List (SchedEvent P)) : Prop :=
  (∀ prio < maxPrio, entered log prio = departed log prio) ∨
    ∃ prio < maxPrio, entered log prio ≠ departed log prio ∧ dispatches log prio < maxPrio - prio

/-- `get_proc` keeps no CPU waiting unless it has to renew the budgets. -/
theorem Sched.workConserving_iff (s : Sched P) : s.WorkConserving ↔ s.Idle ∨ s.Serving := by
  rcases s.getMlqProc_spec with ⟨prio, p, rest, hserves⟩ | hnone
  · have hserving : s.Serving :=
      ⟨prio, hserves.prio_lt, by simp [hserves.waiting_eq], hserves.slot_pos⟩
    refine iff_of_true ⟨fun hnull => ?_, fun _ => ?_, fun _ hnot => absurd hserving hnot⟩ (Or.inr hserving)
    · rw [hserves.fst_eq] at hnull
      exact absurd hnull (by simp)
    · rw [hserves.fst_eq]
      rfl
  · constructor
    · exact fun h => Or.inl (h.null hnone.fst_eq)
    · intro h
      have hidle : s.Idle := h.resolve_right hnone.not_serving
      exact ⟨fun _ => hidle, fun hnot => absurd hidle hnot, fun hnot => absurd hidle hnot⟩

section Log

variable {log : List (SchedEvent P)} {s : Sched P}

/-- The log says who is waiting. -/
theorem PolicyInv.waiting_eq_nil_iff (h : PolicyInv log s) (prio : ℕ) :
    s.waiting prio = [] ↔ entered log prio = departed log prio := by
  rw [h.fifo prio, List.append_right_eq_self]

theorem PolicyInv.idle_or_serving_iff (h : PolicyInv log s) :
    s.Idle ∨ s.Serving ↔ DispatchesLeft log := by
  have hpos : ∀ prio < maxPrio, 0 < s.slot prio ↔ dispatches log prio < maxPrio - prio := by
    intro prio hprio
    have hbudget := h.budget prio hprio
    omega
  refine or_congr (forall₂_congr fun prio _ => h.waiting_eq_nil_iff prio) ?_
  constructor
  · rintro ⟨prio, hprio, hwait, hslot⟩
    exact ⟨prio, hprio, fun he => hwait ((h.waiting_eq_nil_iff prio).2 he), (hpos prio hprio).1 hslot⟩
  · rintro ⟨prio, hprio, hne, hleft⟩
    exact ⟨prio, hprio, fun he => hne ((h.waiting_eq_nil_iff prio).1 he), (hpos prio hprio).2 hleft⟩

end Log

/-- **Work conservation.** After any sequence of calls, `get_proc` keeps no CPU waiting if and only if
    nobody is waiting or some priority with a process waiting has had fewer than `MAX_PRIO - prio`
    dispatches since the budgets were renewed last. -/
theorem work_conserving_iff [DecidableEq P] {log : List (SchedEvent P)} {s : Sched P}
    (h : SchedRun log s) : s.WorkConserving ↔ DispatchesLeft log :=
  s.workConserving_iff.trans h.policyInv.idle_or_serving_iff

/-- The first dispatch of the last priority. -/
theorem work_conserving_iff_first :
    let s : Sched ℕ := (Sched.init.call (.add 1 139)).call (.add 2 139)
    s.WorkConserving := by
  have hlegal : 139 < maxPrio := by decide
  have hrun := (SchedRun.init.call (.add 1 139) hlegal).call (.add 2 139) hlegal
  refine (work_conserving_iff hrun).2 (Or.inr ⟨139, by decide, by decide +kernel, by decide +kernel⟩)

/-- Of two processes with the last priority one is dispatched; the other is waiting and the next call
    returns NULL. -/
theorem not_work_conserving_lastPrio :
    ¬ ∀ (log : List (SchedEvent ℕ)) (s : Sched ℕ), SchedRun log s → s.WorkConserving := by
  intro h
  have hlegal : 139 < maxPrio := by decide
  have hrun := ((SchedRun.init.call (.add 1 139) hlegal).call (.add 2 139) hlegal).call .get trivial
  have hidle := (h _ _ hrun).null (by decide +kernel) 139 hlegal
  exact absurd hidle (by decide +kernel)

end Ossim
