import Mathlib.Data.List.Nodup
import Ossim.Basic

set_option autoImplicit false

/-! # Queues and the multilevel scheduler (`queue.c`, `sched.c`)

A queue is the list of the processes in its array, never longer than the array. The scheduler has one
queue for every priority, with a budget of slots each. Every operation holds `queue_lock` throughout,
so each is one step. Processes are generic (`P`): the code compares and moves pointers. -/

namespace Ossim

variable {P : Type}

/-! ## Queues -/

/-- `struct queue_t` -/
structure Queue (P : Type) where
  proc : List P
  size_le : proc.length ≤ maxQueueSize

namespace Queue

/-- A queue of size 0. -/
def nil : Queue P := ⟨[], Nat.zero_le _⟩

/-- `empty` -/
def empty (q : Queue P) : Bool := q.proc.isEmpty

/-- `enqueue`: a full queue is left as it is. -/
def enqueue (q : Queue P) (proc : P) : Queue P :=
  if h : q.proc.length < maxQueueSize then
    ⟨q.proc ++ [proc], by rw [List.length_append]; exact h⟩
  else q

/-- `dequeue` -/
def dequeue (q : Queue P) : Option P × Queue P :=
  (q.proc.head?, ⟨q.proc.tail, Nat.le_trans (by simp) q.size_le⟩)

/-- `purgequeue` -/
def purgequeue [DecidableEq P] (q : Queue P) (proc : P) : Queue P :=
  ⟨q.proc.erase proc, Nat.le_trans List.length_erase_le q.size_le⟩

end Queue

/-! ## The scheduler -/

/-- The variables of `sched.c` in use with `MLQ_SCHED`. Queues and budgets are there for the
    priorities below `MAX_PRIO`. -/
structure Sched (P : Type) where
  mlqReadyQueue : ℕ → Queue P
  slot : ℕ → ℕ
  runningList : Queue P

namespace Sched

/-- The budgets of a fresh round. -/
def fullSlots : ℕ → ℕ := fun prio => maxPrio - prio

/-- `init_scheduler` -/
def init : Sched P where
  mlqReadyQueue := fun _ => Queue.nil
  slot := fullSlots
  runningList := Queue.nil

/-- `queue_empty`. The two queues of the other scheduler stay empty. -/
def queueEmpty (s : Sched P) : ℤ :=
  if (List.range maxPrio).all fun prio => (s.mlqReadyQueue prio).empty then 1 else -1

/-- The priority `get_mlq_proc` serves: the first with a process waiting and budget left. -/
def servedPrio (s : Sched P) : Option ℕ :=
  (List.range maxPrio).find? fun prio => !(s.mlqReadyQueue prio).empty && decide (0 < s.slot prio)

/-- `enqueue(&running_list, proc)` -/
def pushRunning (s : Sched P) (proc : P) : Sched P :=
  { s with runningList := s.runningList.enqueue proc }

/-- `get_mlq_proc`. Without a priority to serve the budgets are renewed, and the caller gets NULL all
    the same. -/
def getMlqProc (s : Sched P) : Option P × Sched P :=
  match s.servedPrio with
  | some prio =>
    let r := (s.mlqReadyQueue prio).dequeue
    let s := { s with
      mlqReadyQueue := Function.update s.mlqReadyQueue prio r.2
      slot := Function.update s.slot prio (s.slot prio - 1) }
    (r.1, r.1.elim s s.pushRunning)
  | none => (none, if s.queueEmpty = -1 then { s with slot := fullSlots } else s)

/-- `add_mlq_proc` -/
def addMlqProc (s : Sched P) (proc : P) (prio : ℕ) : Sched P :=
  { s with mlqReadyQueue :=
    Function.update s.mlqReadyQueue prio ((s.mlqReadyQueue prio).enqueue proc) }

/-- `put_mlq_proc` -/
def putMlqProc [DecidableEq P] (s : Sched P) (proc : P) (prio : ℕ) : Sched P :=
  { s with runningList := s.runningList.purgequeue proc }.addMlqProc proc prio

/-- The processes waiting with a priority. -/
def waiting (s : Sched P) (prio : ℕ) : List P := (s.mlqReadyQueue prio).proc

/-- No process is waiting. -/
def Idle (s : Sched P) : Prop := ∀ prio < maxPrio, s.waiting prio = []

/-- Some process is waiting with budget left. -/
def Serving (s : Sched P) : Prop := ∃ prio < maxPrio, s.waiting prio ≠ [] ∧ 0 < s.slot prio

instance [DecidableEq P] (s : Sched P) : Decidable s.Idle :=
  inferInstanceAs (Decidable (∀ prio < maxPrio, s.waiting prio = []))

instance [DecidableEq P] (s : Sched P) : Decidable s.Serving :=
  inferInstanceAs (Decidable (∃ prio < maxPrio, s.waiting prio ≠ [] ∧ 0 < s.slot prio))

/-! ## What the operations do -/

/-- `get_mlq_proc` serves a priority: it takes the first process of its queue and a slot of its budget,
    and no priority before it has both a process waiting and budget left. -/
structure Serves (s : Sched P) (prio : ℕ) (p : P) (rest : List P) : Prop where
  prio_lt : prio < maxPrio
  waiting_eq : s.waiting prio = p :: rest
  slot_pos : 0 < s.slot prio
  before : ∀ q < prio, s.waiting q = [] ∨ s.slot q = 0
  fst_eq : s.getMlqProc.1 = some p
  waiting_get : s.getMlqProc.2.waiting = Function.update s.waiting prio rest
  slot_get : s.getMlqProc.2.slot = Function.update s.slot prio (s.slot prio - 1)
  running_get : s.getMlqProc.2.runningList = s.runningList.enqueue p

/-- `get_mlq_proc` has no priority to serve: the budgets are renewed if some process is waiting. -/
structure ServesNone (s : Sched P) : Prop where
  not_serving : ¬ s.Serving
  fst_eq : s.getMlqProc.1 = none
  waiting_get : s.getMlqProc.2.waiting = s.waiting
  slot_get : s.getMlqProc.2.slot = if s.queueEmpty = -1 then fullSlots else s.slot
  running_get : s.getMlqProc.2.runningList = s.runningList

/-- The test of `get_mlq_proc`. -/
theorem served_iff (s : Sched P) (prio : ℕ) :
    (!(s.mlqReadyQueue prio).empty && decide (0 < s.slot prio)) = true ↔
      s.waiting prio ≠ [] ∧ 0 < s.slot prio := by
  simp [Queue.empty, waiting]

theorem servesNone_of_servedPrio {s : Sched P} (hserved : s.servedPrio = none) : s.ServesNone := by
  refine ⟨?_, by simp [getMlqProc, hserved], ?_, ?_, ?_⟩
  · rintro ⟨prio, hlt, hprio⟩
    exact List.find?_eq_none.1 hserved prio (List.mem_range.2 hlt) ((s.served_iff prio).2 hprio)
  · funext prio
    simp only [getMlqProc, hserved, waiting]
    split <;> rfl
  · simp only [getMlqProc, hserved]
    split <;> rfl
  · simp only [getMlqProc, hserved]
    split <;> rfl

theorem serves_of_servedPrio {s : Sched P} {prio : ℕ} (hserved : s.servedPrio = some prio) :
    ∃ p rest, s.Serves prio p rest := by
  have hlt := List.mem_range.1 (List.mem_of_find?_eq_some hserved)
  have htest := List.find?_some hserved
  have hprio := (s.served_iff prio).1 htest
  obtain ⟨p, rest, hcons⟩ := List.exists_cons_of_ne_nil hprio.1
  have hproc : (s.mlqReadyQueue prio).proc = p :: rest := hcons
  refine ⟨p, rest, hlt, hcons, hprio.2, ?_, ?_, ?_, ?_, ?_⟩
  · intro q hq
    have hbefore := (List.find?_range_eq_some.1 hserved).2.2 q hq
    by_contra hne
    rw [not_or] at hne
    have hserve := (s.served_iff q).2 ⟨hne.1, Nat.pos_of_ne_zero hne.2⟩
    rw [hserve] at hbefore
    exact absurd hbefore (by simp)
  · simp [getMlqProc, hserved, Queue.dequeue, hproc]
  · funext q
    simp only [getMlqProc, hserved, Queue.dequeue, hproc, List.head?_cons, Option.elim, pushRunning,
      waiting, List.tail_cons, Function.update_apply]
    split <;> rfl
  · simp [getMlqProc, hserved, Queue.dequeue, hproc, pushRunning]
  · simp [getMlqProc, hserved, Queue.dequeue, hproc, pushRunning]

/-- What `get_mlq_proc` does. -/
theorem getMlqProc_spec (s : Sched P) : (∃ prio p rest, s.Serves prio p rest) ∨ s.ServesNone := by
  cases hserved : s.servedPrio with
  | none => exact Or.inr (servesNone_of_servedPrio hserved)
  | some prio => exact Or.inl ⟨prio, serves_of_servedPrio hserved⟩

/-- `get_mlq_proc` takes the first process of a queue with budget left, or there is no such queue and
    the queues stay as they are. -/
theorem getMlqProc_cases (s : Sched P) :
    (∃ prio < maxPrio, ∃ p rest, s.waiting prio = p :: rest ∧ 0 < s.slot prio ∧
      s.getMlqProc.1 = some p ∧ s.getMlqProc.2.waiting = Function.update s.waiting prio rest) ∨
    (¬ s.Serving ∧ s.getMlqProc.1 = none ∧ s.getMlqProc.2.waiting = s.waiting) := by
  rcases s.getMlqProc_spec with ⟨prio, p, rest, h⟩ | h
  · exact Or.inl ⟨prio, h.prio_lt, p, rest, h.waiting_eq, h.slot_pos, h.fst_eq, h.waiting_get⟩
  · exact Or.inr ⟨h.not_serving, h.fst_eq, h.waiting_get⟩

/-- Who was waiting is waiting still, or is the process returned. -/
theorem mem_waiting_getMlqProc {s : Sched P} {q : ℕ} {x : P} (hx : x ∈ s.waiting q) :
    x ∈ s.getMlqProc.2.waiting q ∨ s.getMlqProc.1 = some x := by
  rcases s.getMlqProc_cases with ⟨prio, -, p, rest, hcons, -, hget, hwait⟩ | ⟨-, -, hwait⟩
  · by_cases hqp : q = prio
    · rw [hqp, hcons] at hx
      rcases List.mem_cons.1 hx with rfl | hx
      · exact Or.inr hget
      · left
        rw [hwait, hqp, Function.update_self]
        exact hx
    · left
      rwa [hwait, Function.update_of_ne hqp]
  · left
    rwa [hwait]

theorem mem_waiting_of_getMlqProc {s : Sched P} {q : ℕ} {x : P}
    (hx : x ∈ s.getMlqProc.2.waiting q) : x ∈ s.waiting q := by
  rcases s.getMlqProc_cases with ⟨prio, -, p, rest, hcons, -, -, hwait⟩ | ⟨-, -, hwait⟩
  · rw [hwait, Function.update_apply] at hx
    split at hx
    · next hq =>
        rw [hq, hcons]
        exact List.mem_cons_of_mem _ hx
    · exact hx
  · rwa [hwait] at hx

/-- The process returned was waiting. -/
theorem mem_waiting_of_fst {s : Sched P} {p : P} (h : s.getMlqProc.1 = some p) :
    ∃ prio < maxPrio, p ∈ s.waiting prio := by
  rcases s.getMlqProc_cases with ⟨prio, hprio, q, rest, hcons, -, hget, -⟩ | ⟨-, hget, -⟩
  · obtain rfl : q = p := Option.some.inj (hget.symm.trans h)
    exact ⟨prio, hprio, by simp [hcons]⟩
  · exact absurd (hget.symm.trans h) (by simp)

/-- There is nothing to get from an idle scheduler. -/
theorem Idle.get_none {s : Sched P} (h : s.Idle) : s.getMlqProc.1 = none := by
  rcases s.getMlqProc_cases with ⟨prio, hprio, p, rest, hcons, -⟩ | ⟨-, hget, -⟩
  · exact absurd (hcons.symm.trans (h prio hprio)) (by simp)
  · exact hget

theorem Idle.getMlqProc {s : Sched P} (h : s.Idle) : s.getMlqProc.2.Idle := by
  rcases s.getMlqProc_cases with ⟨prio, hprio, p, rest, hcons, -⟩ | ⟨-, -, hwait⟩
  · exact absurd (hcons.symm.trans (h prio hprio)) (by simp)
  · intro prio hprio
    rw [hwait]
    exact h prio hprio

/-- If nothing was got and nothing is waiting, nothing was. -/
theorem Idle.of_get {s : Sched P} (h : s.getMlqProc.2.Idle) (hget : s.getMlqProc.1 = none) :
    s.Idle := by
  intro prio hprio
  rcases s.getMlqProc_cases with ⟨_, _, p, _, _, _, hsome, _⟩ | ⟨_, _, hwait⟩
  · exact absurd (hget.symm.trans hsome) (by simp)
  · rw [← hwait]
    exact h prio hprio

theorem addMlqProc_waiting (s : Sched P) (proc : P) (prio : ℕ) :
    (s.addMlqProc proc prio).waiting =
      Function.update s.waiting prio ((s.mlqReadyQueue prio).enqueue proc).proc := by
  funext q
  simp only [addMlqProc, waiting, Function.update_apply]
  split <;> rfl

theorem putMlqProc_waiting [DecidableEq P] (s : Sched P) (proc : P) (prio : ℕ) :
    (s.putMlqProc proc prio).waiting =
      Function.update s.waiting prio ((s.mlqReadyQueue prio).enqueue proc).proc :=
  addMlqProc_waiting ..

theorem enqueue_of_lt {q : Queue P} (proc : P) (h : q.proc.length < maxQueueSize) :
    (q.enqueue proc).proc = q.proc ++ [proc] := by rw [Queue.enqueue, dif_pos h]

/-- A full queue drops what is enqueued. -/
theorem enqueue_of_not_lt {q : Queue P} (proc : P) (h : ¬ q.proc.length < maxQueueSize) :
    (q.enqueue proc).proc = q.proc := by rw [Queue.enqueue, dif_neg h]

theorem enqueue_cases (q : Queue P) (proc : P) :
    (q.enqueue proc).proc = q.proc ++ [proc] ∨
    maxQueueSize ≤ q.proc.length ∧ (q.enqueue proc).proc = q.proc := by
  by_cases h : q.proc.length < maxQueueSize
  · exact Or.inl (enqueue_of_lt proc h)
  · exact Or.inr ⟨Nat.le_of_not_lt h, enqueue_of_not_lt proc h⟩

end Sched

end Ossim
