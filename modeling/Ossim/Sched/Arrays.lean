import Ossim.Sched

set_option autoImplicit false

/-! # Queues as arrays (`queue.c`)

`struct queue_t` as the C code keeps it: an array with the number of slots in use. Taking an element
out moves the elements after it one slot down, one at a time. The contents of the array behave as the
queue of `Sched`. -/

namespace Ossim

variable {P : Type}

/-- `struct queue_t`, with whatever the slots not in use hold. -/
structure QueueT (P : Type) where
  proc : ℕ → P
  size : ℕ
  size_le : size ≤ maxQueueSize

/-- `for (j = i; j < i + n; j++) proc[j] = proc[j + 1];` -/
def shiftDown (proc : ℕ → P) (i : ℕ) : ℕ → ℕ → P
  | 0 => proc
  | n + 1 => shiftDown (Function.update proc i (proc (i + 1))) (i + 1) n

/-- Every slot of the loop ends up with the element after it: that one is moved before it is
    overwritten. -/
theorem shiftDown_apply (proc : ℕ → P) (i n j : ℕ) :
    shiftDown proc i n j = if i ≤ j ∧ j < i + n then proc (j + 1) else proc j := by
  induction n generalizing proc i with
  | zero => rw [shiftDown, if_neg (by omega)]
  | succ n ih =>
      rw [shiftDown, ih]
      by_cases hij : j = i
      · subst hij
        rw [if_neg (by omega), if_pos (by omega), Function.update_self]
      · by_cases hlt : i ≤ j ∧ j < i + (n + 1)
        · rw [if_pos (by omega), if_pos hlt, Function.update_of_ne (by omega)]
        · rw [if_neg (by omega), if_neg hlt, Function.update_of_ne hij]

namespace QueueT

/-- The elements of a queue, the first in slot 0. -/
def contents (q : QueueT P) : List P := (List.range q.size).map q.proc

theorem length_contents (q : QueueT P) : q.contents.length = q.size := by simp [contents]

/-- The queue an array stands for. -/
def toQueue (q : QueueT P) : Queue P := ⟨q.contents, by rw [length_contents]; exact q.size_le⟩

/-- `empty` -/
def empty (q : QueueT P) : Bool := q.size == 0

/-- `enqueue` -/
def enqueue (q : QueueT P) (proc : P) : QueueT P :=
  if h : q.size < maxQueueSize then ⟨Function.update q.proc q.size proc, q.size + 1, h⟩ else q

/-- `dequeue` -/
def dequeue (q : QueueT P) : Option P × QueueT P :=
  if q.empty then (none, q)
  else (some (q.proc 0), ⟨shiftDown q.proc 0 (q.size - 1), q.size - 1, by have := q.size_le; omega⟩)

/-- `purgequeue` -/
def purgequeue [DecidableEq P] (q : QueueT P) (proc : P) : QueueT P :=
  match (List.range q.size).find? fun i => decide (q.proc i = proc) with
  | some i => ⟨shiftDown q.proc i (q.size - 1 - i), q.size - 1, by have := q.size_le; omega⟩
  | none => q

/-! ## The array holds the queue -/

theorem toQueue_empty (q : QueueT P) : q.toQueue.empty = q.empty := by
  rw [Queue.empty, empty, toQueue, Bool.eq_iff_iff, List.isEmpty_iff_length_eq_zero,
    length_contents, beq_iff_eq]

theorem toQueue_enqueue (q : QueueT P) (proc : P) :
    (q.enqueue proc).toQueue.proc = (q.toQueue.enqueue proc).proc := by
  unfold enqueue Queue.enqueue
  by_cases h : q.size < maxQueueSize
  · rw [dif_pos h, dif_pos (by rw [toQueue, length_contents]; exact h)]
    simp only [toQueue, contents, List.range_succ, List.map_append, List.map_cons, List.map_nil,
      Function.update_self]
    congr 1
    refine List.map_congr_left fun i hi => Function.update_of_ne ?_ ..
    exact Nat.ne_of_lt (List.mem_range.1 hi)
  · rw [dif_neg h, dif_neg (by rw [toQueue, length_contents]; exact h)]

theorem toQueue_dequeue (q : QueueT P) :
    q.dequeue.1 = q.toQueue.dequeue.1 ∧ q.dequeue.2.toQueue.proc = q.toQueue.dequeue.2.proc := by
  obtain ⟨proc, size, hle⟩ := q
  cases size with
  | zero => exact ⟨rfl, rfl⟩
  | succ n =>
      have hcons : (List.range (n + 1)).map proc =
          proc 0 :: (List.range n).map fun i => proc (i + 1) := by
        rw [List.range_succ_eq_map, List.map_cons, List.map_map]
        rfl
      have hshift : (List.range n).map (shiftDown proc 0 n) =
          (List.range n).map fun i => proc (i + 1) := by
        refine List.map_congr_left fun i hi => ?_
        rw [shiftDown_apply, if_pos (by have := List.mem_range.1 hi; omega)]
      refine ⟨?_, ?_⟩
      · show some (proc 0) = ((List.range (n + 1)).map proc).head?
        rw [hcons, List.head?_cons]
      · show (List.range n).map (shiftDown proc 0 n) = ((List.range (n + 1)).map proc).tail
        rw [hcons, List.tail_cons, hshift]

theorem toQueue_purgequeue [DecidableEq P] (q : QueueT P) (proc : P) :
    (q.purgequeue proc).toQueue.proc = (q.toQueue.purgequeue proc).proc := by
  unfold purgequeue Queue.purgequeue
  split
  · next i hfind =>
      obtain ⟨hfound, hlt, hbefore⟩ := List.find?_range_eq_some.1 hfind
      simp only [decide_eq_true_eq, List.mem_range, Bool.not_eq_true', decide_eq_false_iff_not]
        at hfound hlt hbefore
      -- the elements before slot `i` are others, so it is the first that `erase` takes out
      have hsplit : q.contents = (List.range i).map q.proc ++ proc ::
          (List.range (q.size - 1 - i)).map fun j => q.proc (i + 1 + j) := by
        obtain ⟨k, hk⟩ : ∃ k, q.size = i + (k + 1) := ⟨q.size - 1 - i, by omega⟩
        have hk' : q.size - 1 - i = k := by omega
        rw [contents, hk', hk, List.range_add, List.range_succ_eq_map, List.map_append, List.map_map,
          List.map_cons, List.map_map, ← hfound]
        congr 3
        funext j
        simp only [Function.comp_apply]
        congr 1
        omega
      have hnotMem : proc ∉ (List.range i).map q.proc := by
        intro hmem
        obtain ⟨j, hj, hjp⟩ := List.mem_map.1 hmem
        exact hbefore j (List.mem_range.1 hj) hjp
      simp only [toQueue, hsplit, List.erase_append_right _ hnotMem, List.erase_cons_head]
      obtain ⟨k, hk⟩ : ∃ k, q.size - 1 = i + k := ⟨q.size - 1 - i, by omega⟩
      have hk' : q.size - 1 - i = k := by omega
      rw [contents]
      simp only [hk, List.range_add, List.map_append, List.map_map, Nat.add_sub_cancel_left]
      congr 1
      · refine List.map_congr_left fun j hj => ?_
        rw [shiftDown_apply, if_neg (by have := List.mem_range.1 hj; omega)]
      · refine List.map_congr_left fun j hj => ?_
        rw [Function.comp_apply, shiftDown_apply, if_pos (by have := List.mem_range.1 hj; omega)]
        congr 1
        omega
  · next hnone =>
      have hnotMem : proc ∉ q.contents := by
        intro hmem
        obtain ⟨i, hi, hip⟩ := List.mem_map.1 hmem
        exact List.find?_eq_none.1 hnone i hi (decide_eq_true hip)
      exact (List.erase_of_not_mem hnotMem).symm

end QueueT

end Ossim
