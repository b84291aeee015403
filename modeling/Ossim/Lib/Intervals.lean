import Mathlib.Algebra.BigOperators.Group.Finset.Piecewise
import Mathlib.Algebra.Order.BigOperators.Group.List
import Mathlib.Algebra.Order.Ring.Nat
import Mathlib.Order.Interval.Finset.Nat
import Mathlib.Tactic.Ring

set_option autoImplicit false

/-! # Lists of half-open intervals

An element `r` of a list stands for the interval `[lo r, hi r)`. The `depth` of the list at a point is
the number of its intervals that contain the point: intervals are disjoint if the depth is at most 1
everywhere, and they cover a range without overlap if it is 1 there. Splitting, dropping and moving
intervals changes the depth in a way linear arithmetic can follow, which makes it the quantity to
reason about allocators with. An allocator that cuts slots of one width off the front of its range
hands out the intervals of `slots`. -/

namespace Intervals

variable {α : Type} (lo hi : α → ℕ)

/-- 1 if the interval contains the point, 0 otherwise. -/
def point (x : ℕ) (r : α) : ℕ := if lo r ≤ x ∧ x < hi r then 1 else 0

/-- The number of intervals of a list that contain a point. -/
def depth (x : ℕ) (l : List α) : ℕ := (l.map (point lo hi x)).sum

@[simp]
theorem depth_nil (x : ℕ) : depth lo hi x [] = 0 := rfl

@[simp]
theorem depth_cons (x : ℕ) (r : α) (l : List α) :
    depth lo hi x (r :: l) = point lo hi x r + depth lo hi x l := rfl

@[simp]
theorem depth_append (x : ℕ) (l m : List α) :
    depth lo hi x (l ++ m) = depth lo hi x l + depth lo hi x m := by
  simp [depth]

variable {lo hi}

theorem point_eq_one {x : ℕ} {r : α} (h : lo r ≤ x ∧ x < hi r) : point lo hi x r = 1 := if_pos h

theorem point_eq_zero {x : ℕ} {r : α} (h : ¬ (lo r ≤ x ∧ x < hi r)) : point lo hi x r = 0 := if_neg h

theorem point_le_depth {x : ℕ} {r : α} {l : List α} (h : r ∈ l) :
    point lo hi x r ≤ depth lo hi x l :=
  List.single_le_sum (fun _ _ => Nat.zero_le _) _ (List.mem_map_of_mem h)

theorem depth_pos_iff {x : ℕ} {l : List α} : 0 < depth lo hi x l ↔ ∃ r ∈ l, lo r ≤ x ∧ x < hi r := by
  constructor
  · intro h
    by_contra hno
    refine absurd (List.sum_eq_zero fun n hn => ?_) (Nat.ne_of_gt h)
    obtain ⟨r, hr, rfl⟩ := List.mem_map.1 hn
    exact point_eq_zero fun hx => hno ⟨r, hr, hx⟩
  · rintro ⟨r, hr, hx⟩
    have hle : point lo hi x r ≤ depth lo hi x l := point_le_depth hr
    rw [point_eq_one hx] at hle
    exact hle

/-- Replacing the interval at one index of a table. -/
theorem depth_range_update (f : ℕ → α) {i n : ℕ} (hi' : i < n) (r : α) (x : ℕ) :
    depth lo hi x ((List.range n).map (Function.update f i r)) + point lo hi x (f i) =
      depth lo hi x ((List.range n).map f) + point lo hi x r := by
  induction n with
  | zero => omega
  | succ n ih =>
      simp only [List.range_succ, List.map_append, depth_append, List.map_cons, List.map_nil,
        depth_cons, depth_nil]
      by_cases hin : i = n
      · -- the replaced entry is the last one, the others are as they were
        subst hin
        have hsame : (List.range i).map (Function.update f i r) = (List.range i).map f := by
          apply List.map_congr_left
          intro j hj
          exact Function.update_of_ne (Nat.ne_of_lt (List.mem_range.1 hj)) ..
        rw [hsame, Function.update_self]
        omega
      · have hne : n ≠ i := fun he => hin he.symm
        rw [Function.update_of_ne hne]
        have hih := ih (by omega)
        omega

/-- Where at most one interval covers each point, any two of them are disjoint. -/
theorem pairwise_of_depth_le_one {l : List α} (h : ∀ x, depth lo hi x l ≤ 1) :
    l.Pairwise fun a b => ∀ x, ¬ ((lo a ≤ x ∧ x < hi a) ∧ (lo b ≤ x ∧ x < hi b)) := by
  induction l with
  | nil => exact List.Pairwise.nil
  | cons r l ih =>
      refine List.pairwise_cons.2 ⟨?_, ih fun x => ?_⟩
      · rintro b hb x ⟨hxr, hxb⟩
        have hx := h x
        have hbl : point lo hi x b ≤ depth lo hi x l := point_le_depth hb
        rw [depth_cons, point_eq_one hxr] at hx
        rw [point_eq_one hxb] at hbl
        omega
      · have hx := h x
        rw [depth_cons] at hx
        omega

theorem sum_point {B : ℕ} {r : α} (hr : hi r ≤ B) :
    ∑ x ∈ Finset.range B, point lo hi x r = hi r - lo r := by
  have hfilter : (Finset.range B).filter (fun x => lo r ≤ x ∧ x < hi r) =
      Finset.Ico (lo r) (hi r) := by
    ext x
    simp only [Finset.mem_filter, Finset.mem_range, Finset.mem_Ico]
    omega
  simp only [point]
  rw [← Finset.card_filter, hfilter, Nat.card_Ico]

/-- The lengths of intervals below `B` add up to the depths below `B`. -/
theorem sum_length {l : List α} {B : ℕ} (hB : ∀ r ∈ l, hi r ≤ B) :
    (l.map fun r => hi r - lo r).sum = ∑ x ∈ Finset.range B, depth lo hi x l := by
  induction l with
  | nil => simp
  | cons r l ih =>
      have hr := hB r (List.mem_cons_self ..)
      have hl := ih fun s hs => hB s (List.mem_cons_of_mem _ hs)
      simp only [List.map_cons, List.sum_cons, depth_cons, Finset.sum_add_distrib, sum_point hr, hl]

/-- Intervals that cover each point below `B` once have total length `B`. -/
theorem sum_length_of_depth_eq_one {l : List α} {B : ℕ} (hB : ∀ r ∈ l, hi r ≤ B)
    (h : ∀ x < B, depth lo hi x l = 1) : (l.map fun r => hi r - lo r).sum = B := by
  rw [sum_length hB, Finset.sum_congr rfl fun x hx => h x (Finset.mem_range.1 hx)]
  simp

/-! ## Slots of one width -/

/-- The first `k` slots of width `w` from `base` on. -/
def slots (base w k : ℕ) : List (ℕ × ℕ) :=
  (List.range k).map fun j => (base + j * w, base + (j + 1) * w)

@[simp]
theorem slots_zero (base w : ℕ) : slots base w 0 = [] := rfl

theorem slots_succ (base w k : ℕ) :
    slots base w (k + 1) = slots base w k ++ [(base + k * w, base + (k + 1) * w)] := by
  simp [slots, List.range_succ]

@[simp]
theorem length_slots (base w k : ℕ) : (slots base w k).length = k := by simp [slots]

/-- A slot ends before the next ones. -/
theorem pairwise_slots (base w k : ℕ) : (slots base w k).Pairwise fun a b => a.2 ≤ b.1 := by
  refine List.pairwise_map.2 (List.pairwise_lt_range.imp fun {i j} hij => ?_)
  exact Nat.add_le_add_left (Nat.mul_le_mul_right w hij) base

/-- A slot fits into what `k` slots leave of a range exactly if more than `k` fit into the range. -/
theorem slot_fits_iff {w size k : ℕ} (hw : 0 < w) : (k + 1) * w ≤ size ↔ k < size / w := by
  rw [Nat.lt_iff_add_one_le, Nat.le_div_iff_mul_le hw]

/-- The slots that fit are within the range. -/
theorem mem_slots_inside {base w size k : ℕ} (hw : 0 < w) (hk : k ≤ size / w) {s : ℕ × ℕ}
    (hs : s ∈ slots base w k) : base ≤ s.1 ∧ s.2 = s.1 + w ∧ s.2 ≤ base + size := by
  obtain ⟨j, hj, rfl⟩ := List.mem_map.1 hs
  have hfit := (slot_fits_iff hw).2 (Nat.lt_of_lt_of_le (List.mem_range.1 hj) hk)
  exact ⟨Nat.le_add_right .., by ring, Nat.add_le_add_left hfit base⟩

end Intervals
