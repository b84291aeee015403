import Mathlib.Data.List.Basic
import Mathlib.Logic.Function.Iterate
import Mathlib.Tactic.Common

set_option autoImplicit false

/-! # Interleaved components

A system (`G`) of components (`ι`). A step of the system may report something (`L`) of components, say
the results of the instructions they execute. Every component is to be a machine of its own (`A`), which
advances by what the system reports of it and by nothing else: `Simulation` lists what has to be shown
for one step, and `Simulation.run` is that the machines agree with the system in any interleaving.

A component may come into being in the course of a run; it starts as its machine does. Where the
machines count their steps, the counter tells two runs apart (`iterate_eq_of_counter`). -/

namespace Components

variable {G ι L A : Type}

/-- A run of the system, with what it reports. -/
inductive Run (step : G → List (ι × L) → G → Prop) (g₀ : G) : List (ι × L) → G → Prop where
  | refl : Run step g₀ [] g₀
  | step {trace events : List (ι × L)} {g g' : G} (h : Run step g₀ trace g)
      (hstep : step g events g') : Run step g₀ (trace ++ events) g'

section Reports

variable [DecidableEq ι]

/-- What is reported of one component. -/
def reports (i : ι) (trace : List (ι × L)) : List L :=
  trace.filterMap fun x => if x.1 = i then some x.2 else none

theorem reports_append (i : ι) (trace events : List (ι × L)) :
    reports i (trace ++ events) = reports i trace ++ reports i events :=
  List.filterMap_append

@[simp] theorem reports_nil (i : ι) : reports i ([] : List (ι × L)) = [] := rfl

@[simp] theorem reports_self (i : ι) (l : L) : reports i [(i, l)] = [l] := by
  simp [reports]

theorem reports_of_ne {i j : ι} (h : j ≠ i) (l : L) : reports i [(j, l)] = [] := by
  simp [reports, h]

end Reports

variable [DecidableEq ι] (step : G → List (ι × L) → G → Prop) (Inv : G → Prop)
variable (Alive : ι → G → Prop) (Rel : ι → G → A → Prop) (exec : A → L → A) (start : ι → A)

/-- Every step advances the machines of the components by what it reports of them. -/
structure Simulation : Prop where
  inv : ∀ {g events g'}, Inv g → step g events g' → Inv g'
  alive : ∀ {i g events g'}, Inv g → Alive i g → step g events g' → Alive i g'
  rel : ∀ {i g events g' a}, Inv g → Alive i g → Rel i g a → step g events g' →
    Rel i g' ((reports i events).foldl exec a)
  /-- nothing is reported of a component before it is there -/
  silent : ∀ {i g events g'}, Inv g → ¬ Alive i g → step g events g' → reports i events = []
  born : ∀ {i g events g'}, Inv g → ¬ Alive i g → step g events g' → Alive i g' → Rel i g' (start i)

variable {step Inv Alive Rel exec start}

/-- **Run.** In every state a run reaches, whatever the order of its steps, a component is what its
    machine is after the reports of that component. -/
theorem Simulation.run (h : Simulation step Inv Alive Rel exec start) {g₀ g : G}
    {trace : List (ι × L)} (hrun : Run step g₀ trace g) (hinv : Inv g₀)
    (hstart : ∀ i, Alive i g₀ → Rel i g₀ (start i)) :
    Inv g ∧ ∀ i, (Alive i g → Rel i g ((reports i trace).foldl exec (start i))) ∧
      (¬ Alive i g → reports i trace = []) := by
  induction hrun with
  | refl => exact ⟨hinv, fun i => ⟨hstart i, fun _ => rfl⟩⟩
  | @step trace events g g' _ hstep ih =>
      obtain ⟨hg, hrel⟩ := ih
      refine ⟨h.inv hg hstep, fun i => ?_⟩
      rw [reports_append, List.foldl_append]
      by_cases hi : Alive i g
      · refine ⟨fun _ => h.rel hg hi ((hrel i).1 hi) hstep, fun hnot => ?_⟩
        exact absurd (h.alive hg hi hstep) hnot
      · have hsilent := h.silent hg hi hstep
        rw [(hrel i).2 hi, hsilent]
        exact ⟨fun hi' => h.born hg hi hstep hi', fun _ => rfl⟩

/-! ## Machines that count their steps -/

/-- A machine that counts its steps and can be stuck: how often it was told to go on does not matter,
    its counter says where it is. -/
theorem iterate_eq_of_counter {f : A → A} {pc : A → ℕ} (h : ∀ x, f x = x ∨ pc (f x) = pc x + 1) (x : A)
    (n : ℕ) : pc x ≤ pc (f^[n] x) ∧ f^[pc (f^[n] x) - pc x] x = f^[n] x := by
  induction n with
  | zero =>
      refine ⟨Nat.le_refl _, ?_⟩
      simp
  | succ n ih =>
      obtain ⟨hle, heq⟩ := ih
      rw [Function.iterate_succ_apply']
      generalize hy : f^[n] x = y at *
      rcases h y with hstuck | hcount
      · rw [hstuck]
        exact ⟨hle, heq⟩
      · refine ⟨by omega, ?_⟩
        rw [hcount, Nat.succ_sub hle, Function.iterate_succ_apply', heq]

end Components
