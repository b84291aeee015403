import Ossim.Lib.Rounds
import Ossim.Sched.Policy

set_option autoImplicit false

/-! # Waiting for a turn

The budgets of the priorities make the scheduler a weighted round robin (`Lib.Rounds`): a priority
`prio` has `MAX_PRIO - prio` dispatches a round, and the budgets are renewed only when no priority with
a process waiting has any left. So no process starves, whatever is added and put back meanwhile, and
priorities that always have a process waiting share the dispatches in the proportion of their budgets. -/

namespace Ossim

open Rounds

variable {P : Type}

/-! ## Sequences of calls -/

def SchedCall.isGet : SchedCall P → Bool
  | .get => true
  | _ => false

theorem SchedCall.enqueues_or_get (c : SchedCall P) :
    (∃ proc prio, c = .add proc prio ∨ c = .put proc prio) ∨ c = .get := by
  cases c <;> simp

/-- The calls that ask for a process. -/
def numGets (cs : List (SchedCall P)) : ℕ := cs.countP SchedCall.isGet

/-- The scheduler after a sequence of calls. -/
def Sched.calls [DecidableEq P] (s : Sched P) (cs : List (SchedCall P)) : Sched P := cs.foldl Sched.call s

/-- What a sequence of calls does, in order. -/
def Sched.history [DecidableEq P] (s : Sched P) : List (SchedCall P) → List (SchedEvent P)
  | [] => []
  | c :: cs => s.events c ++ (s.call c).history cs

theorem Sched.events_reverse (s : Sched P) (c : SchedCall P) : (s.events c).reverse = s.events c := by
  cases c with
  | add proc prio | put proc prio =>
      simp only [Sched.events]
      split <;> rfl
  | get =>
      simp only [Sched.events]
      split
      · cases (s.waiting _).head? <;> rfl
      · split <;> rfl

theorem SchedRun.calls [DecidableEq P] {log : List (SchedEvent P)} {s : Sched P} (h : SchedRun log s)
    {cs : List (SchedCall P)} (hcs : ∀ c ∈ cs, c.Legal) :
    SchedRun ((s.history cs).reverse ++ log) (s.calls cs) := by
  induction cs generalizing s log with
  | nil => exact h
  | cons c cs ih =>
      obtain ⟨hc, hcs⟩ := List.forall_mem_cons.1 hcs
      have hrun := ih (h.call c hc) hcs
      rwa [Sched.history, List.reverse_append, s.events_reverse, List.append_assoc]

/-- The processes dispatched with a priority, in order. -/
def leavers (prio : ℕ) (events : List (SchedEvent P)) : List P :=
  events.filterMap (SchedEvent.leaving prio)

/-- A dispatch or a renewal of the budgets. -/
def SchedEvent.turn : SchedEvent P → Option (Turn ℕ)
  | .enqueued _ _ => none
  | .dispatched prio _ => some (.serve prio)
  | .refilled => some .renew

def turns (events : List (SchedEvent P)) : List (Turn ℕ) := events.filterMap SchedEvent.turn

/-- The priorities there are queues for. -/
def priorities : Finset ℕ := Finset.range maxPrio

/-- The dispatches of a round: 9870. -/
theorem sum_fullSlots : ∑ prio ∈ priorities, Sched.fullSlots prio = 9870 := by decide +kernel

theorem fullSlots_pos {prio : ℕ} (h : prio < maxPrio) : 0 < Sched.fullSlots prio := Nat.sub_pos_of_lt h

/-- The services of a priority are its dispatches. -/
theorem services_turns (prio : ℕ) (events : List (SchedEvent P)) :
    services prio (turns events) = (leavers prio events).length := by
  unfold services turns leavers
  induction events with
  | nil => rfl
  | cons e events ih =>
      cases e with
      | enqueued q p => exact ih
      | dispatched q p =>
          by_cases hq : q = prio <;> simp [SchedEvent.turn, SchedEvent.leaving, hq, ih]
      | refilled => exact (List.count_cons_of_ne (by simp)).trans ih

/-! ## One call -/

section Calls

variable {s : Sched P} {prio : ℕ}

theorem Sched.queueEmpty_of_waiting (hprio : prio < maxPrio) (hwait : s.waiting prio ≠ []) :
    s.queueEmpty = -1 := by
  refine if_neg fun hall => hwait ?_
  have hempty := List.all_eq_true.1 hall prio (List.mem_range.2 hprio)
  exact List.isEmpty_iff.1 hempty

/-- A `get_proc` while a process is waiting is a turn. -/
theorem Sched.get_cases (hprio : prio < maxPrio) (hwait : s.waiting prio ≠ []) :
    (∃ q p rest, s.Serves q p rest ∧ s.events .get = [.dispatched q p]) ∨
    s.slot prio = 0 ∧ s.events .get = [.refilled] ∧ s.getMlqProc.2.waiting = s.waiting ∧
      s.getMlqProc.2.slot = fullSlots := by
  rcases s.getMlqProc_spec with ⟨q, p, rest, hserves⟩ | hnone
  · exact Or.inl ⟨q, p, rest, hserves, Sched.events_get_of_serves hserves⟩
  · have hempty := Sched.queueEmpty_of_waiting hprio hwait
    have hevents := Sched.events_get_of_servesNone hnone
    have hslot := hnone.slot_get
    rw [if_pos hempty] at hevents hslot
    refine Or.inr ⟨?_, hevents, hnone.waiting_get, hslot⟩
    by_contra hne
    exact hnone.not_serving ⟨prio, hprio, hwait, Nat.pos_of_ne_zero hne⟩

/-- A call that enqueues leaves those in front where they are. -/
theorem Sched.enqueues_waiting [DecidableEq P] {proc p : P} {q : ℕ} {c : SchedCall P}
    (hc : c = .add proc q ∨ c = .put proc q) {ahead behind : List P}
    (hwait : s.waiting prio = ahead ++ p :: behind) :
    (s.call c).slot = s.slot ∧ turns (s.events c) = [] ∧ leavers prio (s.events c) = [] ∧
      ∃ behind', (s.call c).waiting prio = ahead ++ p :: behind' := by
  obtain ⟨hslot, ⟨hevents, hwait'⟩ | ⟨hevents, hwait'⟩⟩ := Sched.enqueues_cases (s := s) hc
  · refine ⟨hslot, by rw [hevents]; rfl, by rw [hevents]; rfl, ?_⟩
    rw [hwait', Function.update_apply]
    split
    · next hq =>
        subst hq
        refine ⟨behind ++ [proc], ?_⟩
        rw [hwait, List.append_assoc, List.cons_append]
    · exact ⟨behind, hwait⟩
  · exact ⟨hslot, by rw [hevents]; rfl, by rw [hevents]; rfl, behind, by rw [hwait', hwait]⟩

end Calls

/-! ## Bounded waiting -/

section Waiting

variable [DecidableEq P] {prio : ℕ} {p : P}

/-- What comes of a process with `ahead` before it in its queue: those before it are dispatched and then
    itself, or it is waiting all the time, and then every `get_proc` is a turn. -/
def Sched.ServedOrWaits (s : Sched P) (prio : ℕ) (p : P) (ahead : List P) (cs : List (SchedCall P)) :
    Prop :=
  ahead ++ [p] <+: leavers prio (s.history cs) ∨
  (Waits priorities fullSlots prio s.slot (turns (s.history cs)) ∧
    (turns (s.history cs)).length = numGets cs ∧
    (leavers prio (s.history cs)).length ≤ ahead.length)

theorem Sched.turns_cons (s : Sched P) (c : SchedCall P) (cs : List (SchedCall P)) :
    turns (s.history (c :: cs)) = turns (s.events c) ++ turns ((s.call c).history cs) :=
  List.filterMap_append ..

theorem Sched.leavers_cons (s : Sched P) (c : SchedCall P) (cs : List (SchedCall P)) :
    leavers prio (s.history (c :: cs)) =
      leavers prio (s.events c) ++ leavers prio ((s.call c).history cs) :=
  List.filterMap_append ..

theorem Sched.ServedOrWaits.quiet {s : Sched P} {c : SchedCall P} {cs : List (SchedCall P)}
    {ahead : List P} (h : (s.call c).ServedOrWaits prio p ahead cs) (hget : c.isGet = false)
    (hslot : (s.call c).slot = s.slot) (hturn : turns (s.events c) = [])
    (hleft : leavers prio (s.events c) = []) : s.ServedOrWaits prio p ahead (c :: cs) := by
  unfold Sched.ServedOrWaits at h ⊢
  have hgets : numGets (c :: cs) = numGets cs := List.countP_cons_of_neg (by simp [hget])
  rw [s.turns_cons, s.leavers_cons, hturn, hleft, hgets, ← hslot]
  exact h

theorem Sched.ServedOrWaits.turn {s : Sched P} {cs : List (SchedCall P)} {ahead : List P} {t : Turn ℕ}
    (h : (s.call .get).ServedOrWaits prio p ahead cs) (hturn : turns (s.events .get) = [t])
    (hleft : leavers prio (s.events .get) = [])
    (hwaits : ∀ ts, Waits priorities fullSlots prio (s.call .get).slot ts →
      Waits priorities fullSlots prio s.slot (t :: ts)) :
    s.ServedOrWaits prio p ahead (.get :: cs) := by
  unfold Sched.ServedOrWaits at h ⊢
  have hgets : numGets (.get :: cs) = numGets cs + 1 := List.countP_cons_of_pos rfl
  rw [s.turns_cons, s.leavers_cons, hturn, hleft, hgets]
  rcases h with hserved | ⟨hw, hlen, hle⟩
  · exact Or.inl hserved
  · exact Or.inr ⟨hwaits _ hw, congrArg (· + 1) hlen, hle⟩

/-- The first process of the queue in question is dispatched, and it is not yet the one in question. -/
theorem Sched.ServedOrWaits.moveUp {s : Sched P} {cs : List (SchedCall P)} {a : P} {ahead : List P}
    (h : (s.call .get).ServedOrWaits prio p ahead cs) (hturn : turns (s.events .get) = [.serve prio])
    (hleft : leavers prio (s.events .get) = [a])
    (hwaits : ∀ ts, Waits priorities fullSlots prio (s.call .get).slot ts →
      Waits priorities fullSlots prio s.slot (.serve prio :: ts)) :
    s.ServedOrWaits prio p (a :: ahead) (.get :: cs) := by
  unfold Sched.ServedOrWaits at h ⊢
  have hgets : numGets (.get :: cs) = numGets cs + 1 := List.countP_cons_of_pos rfl
  rw [s.turns_cons, s.leavers_cons, hturn, hleft, hgets]
  rcases h with hserved | ⟨hw, hlen, hle⟩
  · exact Or.inl (List.cons_prefix_cons.2 ⟨rfl, hserved⟩)
  · exact Or.inr ⟨hwaits _ hw, congrArg (· + 1) hlen, Nat.succ_le_succ hle⟩

theorem Sched.servedOrWaits (hprio : prio < maxPrio) (cs : List (SchedCall P)) {s : Sched P}
    {ahead behind : List P} (hwait : s.waiting prio = ahead ++ p :: behind) :
    s.ServedOrWaits prio p ahead cs := by
  induction cs generalizing s ahead behind with
  | nil => exact Or.inr ⟨.nil, rfl, Nat.zero_le _⟩
  | cons c cs ih =>
      rcases c.enqueues_or_get with ⟨proc, q, hc⟩ | rfl
      · -- what is enqueued comes behind `p`
        obtain ⟨hslot, hturn, hleft, behind', hwait'⟩ := Sched.enqueues_waiting hc hwait
        have hget : c.isGet = false := by rcases hc with rfl | rfl <;> rfl
        exact (ih hwait').quiet hget hslot hturn hleft
      · have hne : s.waiting prio ≠ [] := by simp [hwait]
        rcases Sched.get_cases hprio hne with
          ⟨q, x, rest, hserves, hevents⟩ | ⟨hzero, hevents, hkeep, hfull⟩
        · have hturn : turns (s.events .get) = [.serve q] := by rw [hevents]; rfl
          have hwaits : ∀ ts, Waits priorities fullSlots prio (s.call .get).slot ts →
              Waits priorities fullSlots prio s.slot (.serve q :: ts) := by
            intro ts hw
            have hslot : (s.call .get).slot = Function.update s.slot q (s.slot q - 1) := hserves.slot_get
            exact .serve (Finset.mem_range.2 hserves.prio_lt) hserves.slot_pos (hslot ▸ hw)
          have hget' : (s.call .get).waiting = Function.update s.waiting q rest := hserves.waiting_get
          -- a turn of its own queue moves `p` up by one, a turn of another leaves it where it is
          by_cases hq : q = prio
          · subst hq
            have hleft : leavers q (s.events .get) = [x] := by
              simp [hevents, leavers, SchedEvent.leaving]
            have hcons := hserves.waiting_eq.symm.trans hwait
            cases ahead with
            | nil =>
                left
                rw [s.leavers_cons, hleft, (List.cons.inj hcons).1]
                exact List.prefix_append [p] _
            | cons a ahead =>
                obtain ⟨rfl, hrest⟩ := List.cons.inj hcons
                have hwait' : (s.call .get).waiting q = ahead ++ p :: behind := by
                  rw [hget', Function.update_self, hrest]
                  rfl
                exact (ih hwait').moveUp hturn hleft hwaits
          · have hleft : leavers prio (s.events .get) = [] := by
              simp [hevents, leavers, SchedEvent.leaving, hq]
            have hwait' : (s.call .get).waiting prio = ahead ++ p :: behind := by
              rw [hget', Function.update_of_ne (Ne.symm hq), hwait]
            exact (ih hwait').turn hturn hleft hwaits
        · -- nothing had budget left: the budgets are renewed
          have hturn : turns (s.events .get) = [.renew] := by rw [hevents]; rfl
          have hleft : leavers prio (s.events .get) = [] := by rw [hevents]; rfl
          have hwait' : (s.call .get).waiting prio = ahead ++ p :: behind := by
            change s.getMlqProc.2.waiting prio = _
            rw [hkeep, hwait]
          refine (ih hwait').turn hturn hleft fun ts hw => .renew hzero ?_
          have hslot : (s.call .get).slot = fullSlots := hfull
          exact hslot ▸ hw

/-- A bound on the calls of `get_proc` until a process is dispatched that has `k` before it. -/
def Sched.patience (s : Sched P) (prio k : ℕ) : ℕ := Rounds.patience priorities fullSlots s.slot prio k

/-- Nobody starves, whatever the budgets. -/
theorem Sched.served_of_patience (hprio : prio < maxPrio) {s : Sched P} {ahead behind : List P}
    (hwait : s.waiting prio = ahead ++ p :: behind) {cs : List (SchedCall P)}
    (hgets : s.patience prio ahead.length ≤ numGets cs) :
    ahead ++ [p] <+: leavers prio (s.history cs) := by
  rcases Sched.servedOrWaits hprio cs hwait with hserved | ⟨hw, hlen, hle⟩
  · exact hserved
  · have hlt := lt_services hw (Finset.mem_range.2 hprio) (fullSlots_pos hprio)
      (hgets.trans (Nat.le_of_eq hlen.symm))
    rw [services_turns] at hlt
    omega

/-- In the states that can be reached a process with `k` before it waits for as many rounds of 9870
    dispatches and a renewal as it takes to dispatch those, and two more. -/
theorem Sched.patience_le {log : List (SchedEvent P)} {s : Sched P} (h : SchedRun log s) (prio k : ℕ) :
    s.patience prio k ≤ (k / (maxPrio - prio) + 2) * 9871 := by
  have hslot : ∀ q ∈ priorities, s.slot q ≤ fullSlots q := by
    intro q hq
    have hbudget := h.policyInv.budget q (Finset.mem_range.1 hq)
    exact Nat.le.intro (by rw [Nat.add_comm]; exact hbudget)
  have hle := Rounds.patience_le (w := fullSlots) (c := prio) hslot k
  rwa [sum_fullSlots] at hle

/-- **Bounded waiting.** In every state that can be reached, a process with `ahead` before it in the
    queue of its priority is dispatched, after those before it and nobody else of the queue, within
    `(k / (MAX_PRIO - prio) + 2) * 9871` calls of `get_proc` (`k` the number of those before it),
    whatever else is added, put back and dispatched meanwhile. -/
theorem mlq_bounded_waiting {log : List (SchedEvent P)} {s : Sched P} (h : SchedRun log s)
    (hprio : prio < maxPrio) {ahead behind : List P} (hwait : s.waiting prio = ahead ++ p :: behind)
    (cs : List (SchedCall P))
    (hgets : (ahead.length / (maxPrio - prio) + 2) * 9871 ≤ numGets cs) :
    ahead ++ [p] <+: leavers prio (s.history cs) :=
  Sched.served_of_patience hprio hwait ((Sched.patience_le h prio ahead.length).trans hgets)

end Waiting

/-- Two processes of the last priority, which has one dispatch a round. -/
theorem mlq_bounded_waiting_last_prio :
    let s : Sched ℕ := (Sched.init.call (.add 1 139)).call (.add 2 139)
    [1, 2] <+: leavers 139 (s.history (List.replicate 29613 .get)) := by
  intro s
  have hlegal : 139 < maxPrio := by decide
  have hrun := (SchedRun.init.call (.add 1 139) hlegal).call (.add 2 139) hlegal
  have hwait : s.waiting 139 = [1] ++ 2 :: [] := by decide +kernel
  refine mlq_bounded_waiting hrun hlegal hwait _ ?_
  rw [numGets, List.countP_replicate]
  decide

/-! ## Shares -/

/-- A priority had a process waiting whenever the budgets were renewed. -/
def Backlogged (prio : ℕ) (log : List (SchedEvent P)) : Prop :=
  ∀ older, .refilled :: older <:+ log → departed older prio ≠ entered older prio

section Shares

variable {log : List (SchedEvent P)} {s : Sched P} {prio : ℕ}

theorem leavers_reverse (prio : ℕ) (log : List (SchedEvent P)) :
    leavers prio log.reverse = departed log prio := List.filterMap_reverse ..

theorem turns_append (log : List (SchedEvent P)) (e : SchedEvent P) :
    turns (e :: log).reverse = turns log.reverse ++ e.turn.toList := by
  rw [List.reverse_cons, turns, List.filterMap_append]
  cases e <;> rfl

theorem Backlogged.older {e : SchedEvent P} (h : Backlogged prio (e :: log)) : Backlogged prio log :=
  fun _ hsuf => h _ (hsuf.trans (List.suffix_cons e log))

variable [DecidableEq P]

theorem SchedRun.slot_eq (h : SchedRun log s) :
    s.slot = budgets Sched.fullSlots Sched.fullSlots (turns log.reverse) := by
  induction h with
  | init => rfl
  | @call log s h c hc ih =>
      rcases c.enqueues_or_get with ⟨proc, q, hc⟩ | rfl
      · obtain ⟨hslot, ⟨hev, -⟩ | ⟨hev, -⟩⟩ := Sched.enqueues_cases (s := s) hc
        · rw [hslot, hev, ih, List.singleton_append, turns_append]
          exact congrArg _ (List.append_nil _).symm
        · rw [hslot, hev, ih, List.nil_append]
      · change s.getMlqProc.2.slot = _
        rcases s.getMlqProc_spec with ⟨q, p, rest, hserves⟩ | hnone
        · rw [Sched.events_get_of_serves hserves, List.singleton_append, turns_append, budgets_append,
            ← ih, hserves.slot_get]
          rfl
        · rw [Sched.events_get_of_servesNone hnone, hnone.slot_get]
          split
          · rw [List.singleton_append, turns_append, budgets_append]
            rfl
          · exact ih

/-- A priority with a process waiting at every renewal waits in the sense of the weighted rounds. -/
theorem SchedRun.waits (h : SchedRun log s) (hprio : prio < maxPrio) (hback : Backlogged prio log) :
    Waits priorities Sched.fullSlots prio Sched.fullSlots (turns log.reverse) := by
  induction h with
  | init => exact .nil
  | @call log s h c hc ih =>
      rcases c.enqueues_or_get with ⟨proc, q, hc⟩ | rfl
      · obtain ⟨-, ⟨hev, -⟩ | ⟨hev, -⟩⟩ := Sched.enqueues_cases (s := s) hc
        · rw [hev, List.singleton_append] at hback ⊢
          rw [turns_append]
          exact (ih hback.older).append .nil
        · rw [hev, List.nil_append] at hback ⊢
          exact ih hback
      · rcases s.getMlqProc_spec with ⟨q, p, rest, hserves⟩ | hnone
        · rw [Sched.events_get_of_serves hserves, List.singleton_append] at hback ⊢
          rw [turns_append]
          refine (ih hback.older).append (.serve (Finset.mem_range.2 hserves.prio_lt) ?_ .nil)
          rw [← h.slot_eq]
          exact hserves.slot_pos
        · rw [Sched.events_get_of_servesNone hnone] at hback ⊢
          split at hback
          · next hempty =>
              rw [if_pos hempty, List.singleton_append, turns_append]
              refine (ih hback.older).append (.renew ?_ .nil)
              -- a renewal: no priority with a process waiting has budget left
              rw [← h.slot_eq]
              by_contra hne
              have hwait : s.waiting prio ≠ [] := fun hnil =>
                hback log (List.suffix_refl _) ((h.policyInv.waiting_eq_nil_iff prio).1 hnil).symm
              exact hnone.not_serving ⟨prio, hprio, hwait, Nat.pos_of_ne_zero hne⟩
          · next hempty =>
              rw [if_neg hempty]
              exact ih hback

/-- **Shares.** After any sequence of calls, of two priorities that had a process waiting whenever the
    budgets were renewed, each had dispatches in the proportion of `MAX_PRIO - prio`, up to one round. -/
theorem mlq_shares (h : SchedRun log s) {p q : ℕ} (hp : p < maxPrio) (hq : q < maxPrio)
    (hbp : Backlogged p log) (hbq : Backlogged q log) :
    (departed log p).length * (maxPrio - q) ≤
      ((departed log q).length + (maxPrio - q)) * (maxPrio - p) := by
  have hshare := share (h.waits hp hbp) (h.waits hq hbq)
  rwa [services_turns, services_turns, leavers_reverse, leavers_reverse] at hshare

end Shares

/-- Three processes of priority 138 and two of the last one: two and one are dispatched in a round. -/
theorem mlq_shares_last_two :
    let cs : List (SchedCall ℕ) := [.add 1 138, .add 2 138, .add 3 138, .add 4 139, .add 5 139,
      .get, .get, .get, .get]
    let log := (Sched.init.history cs).reverse
    (departed log 138).length = 2 ∧ (departed log 139).length = 1 ∧
      (departed log 138).length * (maxPrio - 139) ≤
        ((departed log 139).length + (maxPrio - 139)) * (maxPrio - 138) := by
  intro cs log
  have hlegal : 138 < maxPrio ∧ 139 < maxPrio := by decide
  have hrun : SchedRun (log ++ []) (Sched.init.calls cs) :=
    SchedRun.init.calls (by simp [cs, SchedCall.Legal, hlegal])
  rw [List.append_nil] at hrun
  have hlog : log = [.refilled, .dispatched 139 4, .dispatched 138 2, .dispatched 138 1,
      .enqueued 139 5, .enqueued 139 4, .enqueued 138 3, .enqueued 138 2, .enqueued 138 1] := by
    decide +kernel
  have hback : Backlogged 138 log ∧ Backlogged 139 log := by
    refine ⟨fun older hsuf => ?_, fun older hsuf => ?_⟩
    all_goals
      rw [hlog] at hsuf
      simp only [List.suffix_cons_iff, List.cons.injEq, reduceCtorEq, false_and, true_and,
        List.suffix_nil, or_false] at hsuf
      subst hsuf
      decide
  exact ⟨by decide +kernel, by decide +kernel, mlq_shares hrun hlegal.1 hlegal.2 hback.1 hback.2⟩

end Ossim
