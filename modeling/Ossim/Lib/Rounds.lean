import Mathlib.Tactic.Common
import Ossim.Lib.Sums

set_option autoImplicit false

/-! # Weighted rounds

Classes of customers are served in rounds. A class `c` has a budget of `w c` services a round, and a
new round gives every class its whole budget, whatever was left. Which class is served is not said:
the results below hold of every policy that never starts a new round while the class in question has
budget left (`Waits`).

`services_add_budget` counts the services of such a class exactly. From it, two such classes share
the services in the proportion of their weights (`share`), and a customer waits for a bounded number of
turns only (`lt_services`): its `patience` goes down with every turn. -/

namespace Rounds

open Finset

variable {C : Type} [DecidableEq C]

/-- A turn: some class is served, or a new round begins. -/
inductive Turn (C : Type) where
  | serve (c : C)
  | renew
  deriving DecidableEq

/-- The budgets after a turn. -/
def Turn.after (w b : C → ℕ) : Turn C → C → ℕ
  | serve c => Function.update b c (b c - 1)
  | renew => w

/-- The budgets after a sequence of turns. -/
def budgets (w : C → ℕ) (b : C → ℕ) (turns : List (Turn C)) : C → ℕ :=
  turns.foldl (Turn.after w) b

theorem budgets_append (w b : C → ℕ) (turns more : List (Turn C)) :
    budgets w b (turns ++ more) = budgets w (budgets w b turns) more := List.foldl_append ..

/-- The services of a class. -/
def services (c : C) (turns : List (Turn C)) : ℕ := turns.count (.serve c)

/-- The new rounds begun. -/
def renewals (turns : List (Turn C)) : ℕ := turns.count .renew

/-- Turns that can follow each other while class `c` waits: who is served has budget left, and no new
    round begins before `c` has used up its own. -/
inductive Waits (classes : Finset C) (w : C → ℕ) (c : C) : (C → ℕ) → List (Turn C) → Prop where
  | nil {b : C → ℕ} : Waits classes w c b []
  | serve {b : C → ℕ} {d : C} {turns : List (Turn C)} (hd : d ∈ classes) (hpos : 0 < b d)
      (h : Waits classes w c (Function.update b d (b d - 1)) turns) :
      Waits classes w c b (.serve d :: turns)
  | renew {b : C → ℕ} {turns : List (Turn C)} (hused : b c = 0) (h : Waits classes w c w turns) :
      Waits classes w c b (.renew :: turns)

variable {classes : Finset C} {w b : C → ℕ} {c d : C} {turns : List (Turn C)}

theorem Waits.append {more : List (Turn C)} (h : Waits classes w c b turns)
    (hmore : Waits classes w c (budgets w b turns) more) : Waits classes w c b (turns ++ more) := by
  induction h with
  | nil => exact hmore
  | serve hd hpos _ ih => exact .serve hd hpos (ih hmore)
  | renew hused _ ih => exact .renew hused (ih hmore)

/-! ## Counting services -/

/-- A service of `c` costs one of its budget, and a new round is worth `w c`. -/
theorem services_add_budget (h : Waits classes w c b turns) :
    services c turns + budgets w b turns c = b c + renewals turns * w c := by
  induction h with
  | nil => simp [services, renewals, budgets]
  | @serve b d turns hd hpos h ih =>
      have hrenew : renewals (.serve d :: turns) = renewals turns :=
        List.count_cons_of_ne (by simp)
      rw [hrenew]
      change services c (.serve d :: turns) + budgets w (Function.update b d (b d - 1)) turns c = _
      by_cases hdc : d = c
      · subst hdc
        have hserve : services d (.serve d :: turns) = services d turns + 1 := List.count_cons_self
        rw [Function.update_self] at ih
        omega
      · have hserve : services c (.serve d :: turns) = services c turns :=
          List.count_cons_of_ne (by simpa using hdc)
        rw [Function.update_of_ne (Ne.symm hdc)] at ih
        omega
  | @renew b turns hused h ih =>
      have hrenew : renewals (.renew :: turns) = renewals turns + 1 := List.count_cons_self
      have hserve : services c (.renew :: turns) = services c turns :=
        List.count_cons_of_ne (by simp)
      change services c (.renew :: turns) + budgets w w turns c = _
      rw [hrenew, hserve, hused, Nat.add_mul]
      omega

theorem budgets_le (hb : b d ≤ w d) (turns : List (Turn C)) : budgets w b turns d ≤ w d := by
  induction turns generalizing b with
  | nil => exact hb
  | cons t turns ih =>
      refine ih ?_
      cases t with
      | serve e =>
          simp only [Turn.after, Function.update_apply]
          split
          · next hde => subst hde; omega
          · exact hb
      | renew => exact Nat.le_refl _

/-- **Share.** Two classes that wait from the start of a round on are served in the proportion of their
    weights, up to one round. -/
theorem share (hc : Waits classes w c w turns) (hd : Waits classes w d w turns) :
    services c turns * w d ≤ (services d turns + w d) * w c := by
  have hbc := services_add_budget hc
  have hbd := services_add_budget hd
  have hle := budgets_le (Nat.le_refl (w d)) turns
  have hmost : services c turns ≤ (renewals turns + 1) * w c := by
    rw [Nat.add_mul]
    omega
  have hleast : (renewals turns + 1) * w d ≤ services d turns + w d := by
    rw [Nat.add_mul]
    omega
  calc services c turns * w d ≤ (renewals turns + 1) * w c * w d := Nat.mul_le_mul_right _ hmost
    _ = (renewals turns + 1) * w d * w c := Nat.mul_right_comm ..
    _ ≤ (services d turns + w d) * w c := Nat.mul_le_mul_right _ hleast

/-! ## Waiting -/

/-- The new rounds a customer has to see with `k` others of its class before it. -/
def rounds (w b : C → ℕ) (c : C) (k : ℕ) : ℕ := if k < b c then 0 else (k - b c) / w c + 1

/-- A bound on the turns a customer waits for with `k` others of its class before it: all budgets are
    used up now and in every round to come, with one turn to begin each. -/
def patience (classes : Finset C) (w b : C → ℕ) (c : C) (k : ℕ) : ℕ :=
  ∑ d ∈ classes, b d + rounds w b c k * (∑ d ∈ classes, w d + 1)

/-- A service takes one from the sum of the budgets. -/
theorem sum_update (hd : d ∈ classes) (hpos : 0 < b d) :
    ∑ e ∈ classes, Function.update b d (b d - 1) e + 1 = ∑ e ∈ classes, b e := by
  have hsum := Sums.sum_update_add (fun _ n => n) b hd (b d - 1)
  omega

theorem patience_serve_of_ne (hd : d ∈ classes) (hpos : 0 < b d) (hdc : d ≠ c) (k : ℕ) :
    patience classes w (Function.update b d (b d - 1)) c k + 1 = patience classes w b c k := by
  have hsum := sum_update hd hpos
  have hrounds : rounds w (Function.update b d (b d - 1)) c k = rounds w b c k := by
    rw [rounds, rounds, Function.update_of_ne (Ne.symm hdc)]
  rw [patience, patience, hrounds]
  omega

theorem patience_serve (hc : c ∈ classes) (hpos : 0 < b c) (k : ℕ) :
    patience classes w (Function.update b c (b c - 1)) c k + 1 = patience classes w b c (k + 1) := by
  have hsum := sum_update hc hpos
  have hrounds : rounds w (Function.update b c (b c - 1)) c k = rounds w b c (k + 1) := by
    rw [rounds, rounds, Function.update_self]
    have hsub : k - (b c - 1) = k + 1 - b c := by omega
    rw [hsub]
    split <;> split <;> omega
  rw [patience, patience, hrounds]
  omega

omit [DecidableEq C] in
theorem patience_renew (hw : 0 < w c) (hused : b c = 0) (k : ℕ) :
    patience classes w w c k + 1 ≤ patience classes w b c k := by
  have hrounds : rounds w b c k = rounds w w c k + 1 := by
    rw [rounds, rounds, hused, if_neg (Nat.not_lt_zero k), Nat.sub_zero]
    split
    · next hlt => rw [Nat.div_eq_of_lt hlt]
    · next hge => rw [Nat.div_eq_sub_div hw (Nat.le_of_not_lt hge)]
  rw [patience, patience, hrounds, Nat.add_mul]
  omega

omit [DecidableEq C] in
theorem patience_pos (hc : c ∈ classes) (k : ℕ) : 0 < patience classes w b c k := by
  rw [patience, rounds]
  split
  · next hlt =>
      have hle := single_le_sum (fun d _ => Nat.zero_le (b d)) hc
      omega
  · rw [Nat.add_mul]
    omega

/-- **Bounded waiting.** After as many turns as its patience says, a customer has been served. -/
theorem lt_services (h : Waits classes w c b turns) (hc : c ∈ classes) (hw : 0 < w c) {k : ℕ}
    (hlen : patience classes w b c k ≤ turns.length) : k < services c turns := by
  induction h generalizing k with
  | @nil b =>
      have hpos := patience_pos (w := w) (b := b) hc k
      rw [List.length_nil] at hlen
      omega
  | @serve b d turns hd hpos h ih =>
      rw [List.length_cons] at hlen
      by_cases hdc : d = c
      · subst hdc
        have hserve : services d (.serve d :: turns) = services d turns + 1 := List.count_cons_self
        cases k with
        | zero => omega
        | succ k =>
            have hpat := patience_serve (w := w) hd hpos k
            have hlt := ih (k := k) (by omega)
            omega
      · have hserve : services c (.serve d :: turns) = services c turns :=
          List.count_cons_of_ne (by simpa using hdc)
        have hpat := patience_serve_of_ne (w := w) hd hpos hdc k
        rw [hserve]
        exact ih (by omega)
  | @renew b turns hused h ih =>
      have hserve : services c (.renew :: turns) = services c turns :=
        List.count_cons_of_ne (by simp)
      rw [List.length_cons] at hlen
      have hpat : patience classes w w c k + 1 ≤ patience classes w b c k := patience_renew hw hused k
      rw [hserve]
      exact ih (by omega)

omit [DecidableEq C] in
/-- No more than all budgets twice for each block of `w c` customers before the one in question. -/
theorem patience_le (hb : ∀ d ∈ classes, b d ≤ w d) (k : ℕ) :
    patience classes w b c k ≤ (k / w c + 2) * (∑ d ∈ classes, w d + 1) := by
  have hsum : ∑ d ∈ classes, b d ≤ ∑ d ∈ classes, w d := sum_le_sum hb
  have hrounds : rounds w b c k ≤ k / w c + 1 := by
    rw [rounds]
    split
    · exact Nat.zero_le _
    · exact Nat.add_le_add_right (Nat.div_le_div_right (Nat.sub_le _ _)) 1
  have hmul := Nat.mul_le_mul_right (∑ d ∈ classes, w d + 1) hrounds
  rw [patience]
  calc ∑ d ∈ classes, b d + rounds w b c k * (∑ d ∈ classes, w d + 1)
      ≤ (∑ d ∈ classes, w d + 1) + (k / w c + 1) * (∑ d ∈ classes, w d + 1) :=
        Nat.add_le_add (Nat.le_succ_of_le hsum) hmul
    _ = (k / w c + 2) * (∑ d ∈ classes, w d + 1) := by
      rw [Nat.add_comm, ← Nat.succ_mul]

end Rounds
