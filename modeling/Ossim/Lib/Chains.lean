import Mathlib.Data.Fintype.Card
import Mathlib.Data.List.Basic
import Mathlib.Logic.Function.Basic

set_option autoImplicit false

/-! # Singly linked lists

Lists of nodes linked by a pointer each, several of them in one memory. `Chain next head l` says that
following `next` from `head` leads through the nodes of `l` to the null pointer; the nodes of a chain
are then distinct. The rules say what the writes of linking and unlinking a node do to a chain, and
what a search with a pointer that trails by one node finds. A write to a node outside a chain does
nothing to it (`Chain.update`). -/

namespace Chains

variable {Node : Type}

def Chain (next : Node → Option Node) : Option Node → List Node → Prop
  | head, [] => head = none
  | head, n :: l => head = some n ∧ Chain next (next n) l

/-! ## Searching and unlinking -/

/-- The loop `while (curr != NULL && !p(curr)) { prev = curr; curr = curr->next; }`: the two pointers
    at its end, `none` if it takes more than `fuel` tests. -/
def search (p : Node → Bool) (next : Node → Option Node) :
    (fuel : ℕ) → (prev curr : Option Node) → Option (Option Node × Option Node)
  | 0, _, _ => none
  | _ + 1, prev, none => some (prev, none)
  | fuel + 1, prev, some curr =>
    if p curr then some (prev, some curr) else search p next fuel (some curr) (next curr)

/-- Take out the node behind `prev`, or the head: the pointers and the head after it. -/
def unlink [DecidableEq Node] (next : Node → Option Node) (head prev : Option Node) (curr : Node) :
    (Node → Option Node) × Option Node :=
  match prev with
  | none => (next, next curr)
  | some prev => (Function.update next prev (next curr), head)

/-! ## Chains -/

section Chain

variable {next : Node → Option Node} {head : Option Node} {l l₁ l₂ : List Node} {n : Node}

@[simp]
theorem chain_nil : Chain next head [] ↔ head = none := Iff.rfl

theorem Chain.unique (h₁ : Chain next head l₁) (h₂ : Chain next head l₂) : l₁ = l₂ := by
  induction l₁ generalizing head l₂ with
  | nil =>
      cases l₂ with
      | nil => rfl
      | cons m l₂ => exact absurd (h₁.symm.trans h₂.1) (by simp)
  | cons n l₁ ih =>
      cases l₂ with
      | nil => exact absurd (h₂.symm.trans h₁.1) (by simp)
      | cons m l₂ =>
          obtain rfl : n = m := Option.some.inj (h₁.1.symm.trans h₂.1)
          rw [ih h₁.2 h₂.2]

/-- Behind a node, the chain goes on from its pointer. -/
theorem Chain.of_append (h : Chain next head (l₁ ++ n :: l₂)) : Chain next (next n) l₂ := by
  induction l₁ generalizing head with
  | nil => exact h.2
  | cons m l₁ ih => exact ih h.2

/-- A node met twice would have the same chain behind it both times. -/
theorem Chain.nodup (h : Chain next head l) : l.Nodup := by
  induction l generalizing head with
  | nil => exact List.nodup_nil
  | cons n l ih =>
      refine List.nodup_cons.2 ⟨fun hmem => ?_, ih h.2⟩
      obtain ⟨l₁, l₂, rfl⟩ := List.append_of_mem hmem
      have hsame : l₁ ++ n :: l₂ = l₂ := h.2.unique h.2.of_append
      have hlen := congrArg List.length hsame
      rw [List.length_append, List.length_cons] at hlen
      omega

theorem Chain.congr {next' : Node → Option Node} (h : Chain next head l)
    (hsame : ∀ m ∈ l, next' m = next m) : Chain next' head l := by
  induction l generalizing head with
  | nil => exact h
  | cons n l ih =>
      obtain ⟨hn, hl⟩ := List.forall_mem_cons.1 hsame
      refine ⟨h.1, ?_⟩
      rw [hn]
      exact ih h.2 hl

/-! ## Searches -/

theorem Chain.head_eq (h : Chain next head l) : head = l.head? := by
  cases l with
  | nil => exact h
  | cons n l => exact h.1

theorem search_skip {p : Node → Bool} (h : Chain next head (l₁ ++ l₂)) (hskip : ∀ m ∈ l₁, p m = false)
    (fuel : ℕ) (prev : Option Node) :
    search p next (l₁.length + fuel) prev head = search p next fuel (l₁.getLast?.or prev) l₂.head? := by
  induction l₁ generalizing head prev with
  | nil =>
      have hhead : head = l₂.head? := h.head_eq
      rw [List.length_nil, Nat.zero_add, ← hhead]
      rfl
  | cons m l₁ ih =>
      obtain ⟨hm, hskip⟩ := List.forall_mem_cons.1 hskip
      rw [h.1, List.length_cons, Nat.add_right_comm, search, if_neg (by rw [hm]; decide), ih h.2 hskip,
        List.getLast?_cons]
      cases l₁.getLast? <;> rfl

theorem search_found {p : Node → Bool} (h : Chain next head (l₁ ++ n :: l₂))
    (hbefore : ∀ m ∈ l₁, p m = false) (hn : p n = true) {fuel : ℕ} (hfuel : l₁.length < fuel)
    (prev : Option Node) :
    search p next fuel prev head = some (l₁.getLast?.or prev, some n) := by
  obtain ⟨k, rfl⟩ := Nat.exists_eq_add_of_lt hfuel
  rw [Nat.add_assoc, search_skip h hbefore, List.head?_cons, search, if_pos hn]

theorem search_not_found {p : Node → Bool} (h : Chain next head l) (hnone : ∀ m ∈ l, p m = false)
    {fuel : ℕ} (hfuel : l.length < fuel) (prev : Option Node) :
    search p next fuel prev head = some (l.getLast?.or prev, none) := by
  obtain ⟨k, rfl⟩ := Nat.exists_eq_add_of_lt hfuel
  rw [← l.append_nil] at h
  rw [Nat.add_assoc, search_skip h hnone, List.head?_nil, search]

/-- There is room for a search along every chain. -/
theorem Chain.length_lt_card [Fintype Node] (h : Chain next head l) :
    l.length < Fintype.card Node + 1 :=
  Nat.lt_succ_of_le h.nodup.length_le_card

/-! ## Writes -/

variable [DecidableEq Node]

theorem Chain.update (h : Chain next head l) (hn : n ∉ l) (v : Option Node) :
    Chain (Function.update next n v) head l :=
  h.congr fun _ hm => Function.update_of_ne (ne_of_mem_of_not_mem hm hn) ..

theorem Chain.push (h : Chain next head l) (hn : n ∉ l) :
    Chain (Function.update next n head) (some n) (n :: l) := by
  refine ⟨rfl, ?_⟩
  rw [Function.update_self]
  exact h.update hn head

/-- What is written into the last node is where the chain goes on. -/
theorem Chain.relink (h : Chain next head (l₁ ++ n :: l₂)) {v : Option Node} {l : List Node}
    (hl : Chain next v l) (hn : n ∉ l) : Chain (Function.update next n v) head (l₁ ++ n :: l) := by
  have hnd := h.nodup
  induction l₁ generalizing head with
  | nil =>
      refine ⟨h.1, ?_⟩
      rw [Function.update_self]
      exact hl.update hn v
  | cons m l₁ ih =>
      have hmn : m ≠ n := fun heq =>
        (List.nodup_cons.1 hnd).1 (List.mem_append_right _ (heq ▸ List.mem_cons_self))
      refine ⟨h.1, ?_⟩
      rw [Function.update_of_ne hmn]
      exact ih h.2 (List.nodup_cons.1 hnd).2

theorem Chain.snoc {m : Node} (h : Chain next head (l ++ [n])) (hm : m ∉ l ++ [n]) :
    Chain (Function.update (Function.update next m none) n (some m)) head (l ++ [n, m]) := by
  have hmn : n ≠ m := fun heq => hm (heq ▸ List.mem_append_right _ List.mem_cons_self)
  refine (h.update hm none).relink (l := [m]) ⟨rfl, ?_⟩ (by simpa using hmn)
  rw [Function.update_self]
  rfl

/-- The node behind the last of `l₁` taken out. -/
theorem Chain.unlink (h : Chain next head (l₁ ++ n :: l₂)) :
    Chain (unlink next head l₁.getLast? n).1 (unlink next head l₁.getLast? n).2 (l₁ ++ l₂) := by
  rcases List.eq_nil_or_concat' l₁ with rfl | ⟨l, m, rfl⟩
  · exact h.2
  · rw [List.append_assoc, List.singleton_append] at h
    rw [List.getLast?_concat, List.append_assoc, List.singleton_append]
    have hm : m ∉ l₂ := by
      have hnd := (List.nodup_append.1 h.nodup).2.1
      exact fun hmem => (List.nodup_cons.1 hnd).1 (List.mem_cons_of_mem _ hmem)
    exact h.relink h.of_append.2 hm

/-- What is taken out of one chain leaves the others. -/
theorem Chain.unlink_other {head' : Option Node} (h : Chain next head l)
    (hdisj : ∀ m ∈ l₁, m ∉ l) : Chain (Chains.unlink next head' l₁.getLast? n).1 head l := by
  cases hlast : l₁.getLast? with
  | none => exact h
  | some m => exact h.update (hdisj m (List.mem_of_getLast? hlast)) _

end Chain

end Chains
