import Mathlib.Algebra.BigOperators.Group.Finset.Basic
import Mathlib.Algebra.Order.BigOperators.Group.Finset

set_option autoImplicit false

/-! # Sums that change in one place

A measure of a state is often a sum over its components, of which a step changes one. The equations
have no subtraction, so they can be read in both directions. -/

namespace Sums

open Finset

variable {ι : Type} {s : Finset ι} {f g : ι → ℕ} {i : ι}

theorem sum_add_of_eq_off (hi : i ∈ s) (h : ∀ j ∈ s, j ≠ i → f j = g j) :
    ∑ j ∈ s, f j + g i = ∑ j ∈ s, g j + f i := by
  classical
  have hrest : ∑ j ∈ s.erase i, f j = ∑ j ∈ s.erase i, g j :=
    sum_congr rfl fun j hj => h j (mem_of_mem_erase hj) (ne_of_mem_erase hj)
  rw [← add_sum_erase s f hi, ← add_sum_erase s g hi, hrest]
  omega

/-- One component replaced by a function of its own. -/
theorem sum_update_add [DecidableEq ι] {α : Type} (F : ι → α → ℕ) (x : ι → α) (hi : i ∈ s) (a : α) :
    ∑ j ∈ s, F j (Function.update x i a j) + F i (x i) = ∑ j ∈ s, F j (x j) + F i a := by
  have hsum := sum_add_of_eq_off (f := fun j => F j (Function.update x i a j)) (g := fun j => F j (x j)) hi
    fun j _ hj => by rw [Function.update_of_ne hj]
  rwa [Function.update_self] at hsum

end Sums
