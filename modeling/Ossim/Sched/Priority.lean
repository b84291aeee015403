import Mathlib.Data.List.Induction
import Mathlib.Data.Multiset.Basic
import Ossim.Sched.Arrays

set_option autoImplicit false

/-! # Queues by priority (`queue.c` without `MLQ_SCHED`)

Without `MLQ_SCHED`, `dequeue` looks for the first process with the smallest priority value and returns
it, but the process it removes is the one in front. These are the same process exactly if no process of
the queue has a smaller value than the one in front; otherwise the one in front is lost, and the one
returned stays in the queue. -/

namespace Ossim.NonMlq

variable {P : Type} (priority : P → ℕ)

/-- The loop over `i`, `n` slots left. -/
def highestPriorityLoop (proc : ℕ → P) : (n i highestPriorityIdx : ℕ) → ℕ
  | 0, _, highestPriorityIdx => highestPriorityIdx
  | n + 1, i, highestPriorityIdx =>
    highestPriorityLoop proc n (i + 1)
      (if priority (proc i) < priority (proc highestPriorityIdx) then i else highestPriorityIdx)

def highestPriorityIdx (q : QueueT P) : ℕ := highestPriorityLoop priority q.proc (q.size - 1) 1 0

/-- `dequeue` -/
def dequeue (q : QueueT P) : Option P × QueueT P :=
  if q.empty then (none, q)
  else (some (q.proc (highestPriorityIdx priority q)),
    ⟨shiftDown q.proc 0 (q.size - 1), q.size - 1, Nat.le_trans (Nat.sub_le ..) q.size_le⟩)

/-! ## The process returned -/

/-- Of the first `n` slots, slot `i` is the first with the smallest priority value. -/
structure FirstMinimal (proc : ℕ → P) (n i : ℕ) : Prop where
  lt : i < n
  le : ∀ j < n, priority (proc i) ≤ priority (proc j)
  first : ∀ j < i, priority (proc i) < priority (proc j)

/-- The process in front has the smallest priority value. -/
def FrontMinimal (q : QueueT P) : Prop := ∀ j < q.size, priority (q.proc 0) ≤ priority (q.proc j)

variable {priority}

theorem FirstMinimal.step {proc : ℕ → P} {n i : ℕ} (h : FirstMinimal priority proc n i) :
    FirstMinimal priority proc (n + 1) (if priority (proc n) < priority (proc i) then n else i) := by
  by_cases hless : priority (proc n) < priority (proc i)
  · rw [if_pos hless]
    refine ⟨Nat.lt_succ_self n, fun j hj => ?_, fun j hj => lt_of_lt_of_le hless (h.le j hj)⟩
    rcases Nat.lt_succ_iff_lt_or_eq.1 hj with hj | rfl
    · exact Nat.le_trans (Nat.le_of_lt hless) (h.le j hj)
    · exact Nat.le_refl _
  · rw [if_neg hless]
    refine ⟨Nat.lt_succ_of_lt h.lt, fun j hj => ?_, h.first⟩
    rcases Nat.lt_succ_iff_lt_or_eq.1 hj with hj | rfl
    · exact h.le j hj
    · exact Nat.le_of_not_lt hless

theorem FirstMinimal.loop {proc : ℕ → P} {i k : ℕ} (h : FirstMinimal priority proc i k) (n : ℕ) :
    FirstMinimal priority proc (i + n) (highestPriorityLoop priority proc n i k) := by
  induction n generalizing i k with
  | zero => exact h
  | succ n ih =>
      rw [highestPriorityLoop, ← Nat.add_assoc, Nat.add_right_comm]
      exact ih h.step

/-- The loop finds it. -/
theorem firstMinimal_highestPriorityIdx {q : QueueT P} (hne : q.size ≠ 0) :
    FirstMinimal priority q.proc q.size (highestPriorityIdx priority q) := by
  have hone : FirstMinimal priority q.proc 1 0 :=
    ⟨Nat.zero_lt_one, fun j hj => by rw [Nat.lt_one_iff.1 hj], fun j hj => absurd hj (Nat.not_lt_zero j)⟩
  have hsize : 1 + (q.size - 1) = q.size := by omega
  have hloop := hone.loop (q.size - 1)
  rwa [hsize] at hloop

theorem FirstMinimal.unique {proc : ℕ → P} {n i j : ℕ} (hi : FirstMinimal priority proc n i)
    (hj : FirstMinimal priority proc n j) : i = j := by
  rcases Nat.lt_trichotomy i j with hlt | heq | hlt
  · exact absurd (hj.first i hlt) (Nat.not_lt_of_le (hi.le j hj.lt))
  · exact heq
  · exact absurd (hi.first j hlt) (Nat.not_lt_of_le (hj.le i hi.lt))

theorem FirstMinimal.eq_zero_iff {q : QueueT P} {i : ℕ} (h : FirstMinimal priority q.proc q.size i) :
    i = 0 ↔ FrontMinimal priority q := by
  constructor
  · rintro rfl
    exact h.le
  · intro hfront
    by_contra hne
    exact absurd (h.first 0 (Nat.pos_of_ne_zero hne)) (Nat.not_lt_of_le (hfront i h.lt))

/-! ## The process removed -/

/-- What is left does not depend on the priorities. -/
theorem dequeue_snd (q : QueueT P) : (dequeue priority q).2 = q.dequeue.2 := by
  unfold dequeue QueueT.dequeue
  split <;> rfl

theorem contents_dequeue (q : QueueT P) : (dequeue priority q).2.contents = q.contents.tail := by
  rw [dequeue_snd]
  exact q.toQueue_dequeue.2

theorem dequeue_fst {q : QueueT P} (hne : q.size ≠ 0) :
    (dequeue priority q).1 = some (q.proc (highestPriorityIdx priority q)) := by
  have hempty : ¬ q.empty = true := by simpa [QueueT.empty] using hne
  rw [dequeue, if_neg hempty]

theorem contents_eq_cons {q : QueueT P} (hne : q.size ≠ 0) :
    q.contents = q.proc 0 :: q.contents.tail := by
  obtain ⟨n, hn⟩ := Nat.exists_eq_succ_of_ne_zero hne
  rw [QueueT.contents, hn, List.range_succ_eq_map, List.map_cons, List.tail_cons]

theorem getElem?_contents {q : QueueT P} {i : ℕ} (hi : i < q.size) :
    q.contents[i]? = some (q.proc i) := by
  rw [QueueT.contents, List.getElem?_map, List.getElem?_range hi, Option.map_some]

/-- The process returned and those left are the processes there were. -/
theorem dequeue_perm_iff {q : QueueT P} (hne : q.size ≠ 0) :
    ((dequeue priority q).1.toList ++ (dequeue priority q).2.contents).Perm q.contents ↔
      FrontMinimal priority q := by
  have hmin := @firstMinimal_highestPriorityIdx _ priority _ hne
  rw [dequeue_fst hne, contents_dequeue, ← hmin.eq_zero_iff]
  conv_lhs => rw [contents_eq_cons hne]
  rw [List.tail_cons, Option.toList_some, List.singleton_append, ← Multiset.coe_eq_coe,
    ← Multiset.cons_coe, ← Multiset.cons_coe, Multiset.cons_inj_left]
  constructor
  · intro heq
    by_contra hidx
    have hless := hmin.first 0 (Nat.pos_of_ne_zero hidx)
    rw [heq] at hless
    exact absurd hless (Nat.lt_irrefl _)
  · intro hidx
    rw [hidx]

variable (priority) in
/-- `dequeue` returns the first process with the smallest priority value, and the others are left in
    their order. -/
def RemovesReturned (q : QueueT P) : Prop :=
  ∃ i, FirstMinimal priority q.proc q.size i ∧ (dequeue priority q).1 = some (q.proc i) ∧
    (dequeue priority q).2.contents = q.contents.eraseIdx i

theorem RemovesReturned.perm {q : QueueT P} (h : RemovesReturned priority q) :
    ((dequeue priority q).1.toList ++ (dequeue priority q).2.contents).Perm q.contents := by
  obtain ⟨i, hmin, hfst, hsnd⟩ := h
  obtain ⟨hlt, hget⟩ := List.getElem?_eq_some_iff.1 (getElem?_contents hmin.lt)
  rw [hfst, hsnd, ← hget]
  exact List.getElem_cons_eraseIdx_perm hlt

theorem removesReturned_iff {q : QueueT P} (hne : q.size ≠ 0) :
    RemovesReturned priority q ↔ FrontMinimal priority q := by
  constructor
  · exact fun h => (dequeue_perm_iff hne).1 h.perm
  · intro hfront
    have hmin := @firstMinimal_highestPriorityIdx _ priority _ hne
    refine ⟨_, hmin, dequeue_fst hne, ?_⟩
    rw [contents_dequeue, hmin.eq_zero_iff.2 hfront, List.eraseIdx_zero]

/-! ## Sequences of operations -/

inductive QueueOp (P : Type) where
  | enqueue (proc : P)
  | dequeue

/-- A queue with the processes that have entered and left it, the latest first. -/
structure Traffic (P : Type) where
  queue : QueueT P
  entered : List P
  left : List P

namespace Traffic

variable (priority)

def step (t : Traffic P) : QueueOp P → Traffic P
  | .enqueue proc => { t with queue := t.queue.enqueue proc, entered := proc :: t.entered }
  | .dequeue => { t with
      queue := (dequeue priority t.queue).2
      left := (dequeue priority t.queue).1.toList ++ t.left }

/-- Operations on a queue nothing has entered or left. -/
def run (q : QueueT P) (ops : List (QueueOp P)) : Traffic P := ops.foldl (step priority) ⟨q, [], []⟩

/-- `R` holds of every operation and the queue it meets. -/
def Each (R : QueueT P → QueueOp P → Prop) (q : QueueT P) (ops : List (QueueOp P)) : Prop :=
  ∀ pre op, pre ++ [op] <+: ops → R (run priority q pre).queue op

/-- `enqueue` meets a queue with room only. -/
def HasRoom : QueueT P → List (QueueOp P) → Prop :=
  Each priority fun q op => ∀ proc, op = .enqueue proc → q.size < maxQueueSize

/-- `dequeue` meets a queue with the smallest priority value in front only. -/
def FrontServed : QueueT P → List (QueueOp P) → Prop :=
  Each priority fun q op => op = .dequeue → FrontMinimal priority q

/-- The processes that have left and those still there are those there were and those that have
    entered. -/
def Conserves (ps : List P) (t : Traffic P) : Prop :=
  (t.left ++ t.queue.contents).Perm (t.entered ++ ps)

/-- They are so at all times. -/
def Conserved (q : QueueT P) (ops : List (QueueOp P)) : Prop :=
  ∀ pre, pre <+: ops → Conserves q.contents (run priority q pre)

variable {priority}

theorem run_concat (q : QueueT P) (ops : List (QueueOp P)) (op : QueueOp P) :
    run priority q (ops ++ [op]) = (run priority q ops).step priority op := by
  rw [run, List.foldl_concat]
  rfl

theorem each_nil {R : QueueT P → QueueOp P → Prop} (q : QueueT P) : Each priority R q [] :=
  fun pre op h => absurd (List.prefix_nil.1 h) (by simp)

theorem each_concat {R : QueueT P → QueueOp P → Prop} {q : QueueT P} {ops : List (QueueOp P)}
    {op : QueueOp P} :
    Each priority R q (ops ++ [op]) ↔ Each priority R q ops ∧ R (run priority q ops).queue op := by
  unfold Each
  constructor
  · intro h
    exact ⟨fun pre op' hpre => h pre op' (hpre.trans (List.prefix_append ..)),
      h ops op (List.prefix_refl _)⟩
  · rintro ⟨h, hlast⟩ pre op' hpre
    rcases List.prefix_concat_iff.1 hpre with heq | hpre
    · obtain ⟨rfl, rfl⟩ := List.append_singleton_inj.1 heq
      exact hlast
    · exact h pre op' hpre

theorem conserved_concat {q : QueueT P} {ops : List (QueueOp P)} {op : QueueOp P} :
    Conserved priority q (ops ++ [op]) ↔ Conserved priority q ops ∧
      Conserves q.contents (run priority q (ops ++ [op])) := by
  simp only [Conserved, List.prefix_concat_iff, or_imp, forall_and, forall_eq, and_comm]

theorem contents_enqueue {q : QueueT P} (proc : P) (h : q.size < maxQueueSize) :
    (q.enqueue proc).contents = q.contents ++ [proc] := by
  have hlt : q.toQueue.proc.length < maxQueueSize := by
    rw [QueueT.toQueue, q.length_contents]
    exact h
  exact (q.toQueue_enqueue proc).trans (Sched.enqueue_of_lt proc hlt)

/-- An operation loses and duplicates nothing, unless it is a `dequeue` with a smaller priority value
    behind the one in front. -/
theorem conserves_step_iff {ps : List P} {t : Traffic P} (h : t.Conserves ps) {op : QueueOp P}
    (hroom : ∀ proc, op = .enqueue proc → t.queue.size < maxQueueSize) :
    (t.step priority op).Conserves ps ↔ (op = .dequeue → FrontMinimal priority t.queue) := by
  cases op with
  | enqueue proc =>
      refine iff_of_true ?_ (fun h => absurd h (by simp))
      rw [Conserves, step, contents_enqueue proc (hroom proc rfl), ← List.append_assoc]
      exact (List.perm_append_singleton proc _).trans (h.cons proc)
  | dequeue =>
      by_cases hne : t.queue.size = 0
      · have hempty : t.queue.empty = true := by rw [QueueT.empty, hne]; rfl
        refine iff_of_true ?_ (fun _ j hj => absurd hj (by omega))
        rw [Conserves, step, dequeue, if_pos hempty]
        exact h
      · have hswap : ((dequeue priority t.queue).1.toList ++ t.left ++
            (dequeue priority t.queue).2.contents).Perm (t.left ++
              ((dequeue priority t.queue).1.toList ++ (dequeue priority t.queue).2.contents)) := by
          rw [← List.append_assoc]
          exact List.perm_append_comm.append_right _
        calc (t.step priority .dequeue).Conserves ps
            ↔ (t.left ++ ((dequeue priority t.queue).1.toList ++
                (dequeue priority t.queue).2.contents)).Perm (t.left ++ t.queue.contents) :=
              (hswap.congr_left _).trans (h.congr_right _).symm
          _ ↔ FrontMinimal priority t.queue :=
              (List.perm_append_left_iff _).trans (dequeue_perm_iff hne)
          _ ↔ (QueueOp.dequeue = QueueOp.dequeue → FrontMinimal priority t.queue) :=
              ⟨fun hfront _ => hfront, fun hfront => hfront rfl⟩

theorem conserved_iff {q : QueueT P} {ops : List (QueueOp P)} (hroom : HasRoom priority q ops) :
    Conserved priority q ops ↔ FrontServed priority q ops := by
  induction ops using List.reverseRecOn with
  | nil =>
      refine iff_of_true (fun pre hpre => ?_) (each_nil q)
      rw [List.prefix_nil.1 hpre]
      exact List.Perm.refl _
  | append_singleton ops op ih =>
      obtain ⟨hroom, hlast⟩ := each_concat.1 hroom
      rw [conserved_concat, FrontServed, each_concat, ← FrontServed, ← ih hroom, run_concat]
      exact and_congr_right fun h => conserves_step_iff (h ops (List.prefix_refl ops)) hlast

end Traffic

/-- **`dequeue` removes what it returns** exactly if the process in front has the smallest priority
    value. Sequences of `enqueue` and `dequeue` lose and duplicate no process exactly if all their
    `dequeue` find it so. -/
theorem dequeue_removes_iff (priority : P → ℕ) :
    (∀ q : QueueT P, q.size ≠ 0 → (RemovesReturned priority q ↔ FrontMinimal priority q)) ∧
      ∀ (q : QueueT P) (ops : List (QueueOp P)), Traffic.HasRoom priority q ops →
        (Traffic.Conserved priority q ops ↔ Traffic.FrontServed priority q ops) :=
  ⟨fun _ hne => removesReturned_iff hne, fun _ _ hroom => Traffic.conserved_iff hroom⟩

/-- Two processes, numbered by their priority. -/
def twoProcs (a b : ℕ) : QueueT ℕ :=
  ⟨fun i => if i = 0 then a else b, 2, Nat.le_of_ble_eq_true rfl⟩

/-- `dequeue` returns process 0 and leaves it in the queue; process 1 is gone. -/
theorem dequeue_smaller_behind :
    ¬ RemovesReturned id (twoProcs 1 0) ∧ ¬ Traffic.Conserved id (twoProcs 1 0) [.dequeue] := by
  have hsnd : (dequeue id (twoProcs 1 0)).2.contents = [0] := by decide
  constructor
  · rintro ⟨i, hmin, -, hcontents⟩
    have hi : i = 1 := hmin.unique ⟨by decide, by decide, by decide⟩
    rw [hsnd, hi] at hcontents
    exact absurd hcontents (by decide)
  · intro h
    have hperm : [0, 0].Perm [1, 0] := h [.dequeue] (List.prefix_refl _)
    exact absurd (hperm.symm.subset List.mem_cons_self) (by decide)

/-- In the other order they are served, also with another process behind them. -/
theorem dequeue_smaller_in_front :
    RemovesReturned id (twoProcs 0 1) ∧
      Traffic.Conserved id (twoProcs 0 1) ([.enqueue 5] ++ [.dequeue]) := by
  have hroom : Traffic.HasRoom id (twoProcs 0 1) ([.enqueue 5] ++ [.dequeue]) :=
    Traffic.each_concat.2 ⟨Traffic.each_concat.2 ⟨Traffic.each_nil _, fun _ _ => by decide⟩,
      fun _ h => absurd h (by simp)⟩
  have hfront : Traffic.FrontServed id (twoProcs 0 1) ([.enqueue 5] ++ [.dequeue]) :=
    Traffic.each_concat.2 ⟨Traffic.each_concat.2 ⟨Traffic.each_nil _, fun h => absurd h (by simp)⟩,
      fun _ => by unfold FrontMinimal; decide⟩
  exact ⟨((dequeue_removes_iff id).1 _ (by decide)).2 (by unfold FrontMinimal; decide),
    ((dequeue_removes_iff id).2 _ _ hroom).2 hfront⟩

end Ossim.NonMlq
