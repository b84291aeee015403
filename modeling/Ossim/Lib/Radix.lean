import Mathlib.Logic.Function.Basic
import Mathlib.Tactic.Common

set_option autoImplicit false

/-! # Lazily grown radix trees

A `Tree ι V n` is a tree of tables indexed by `ι`: `n` levels of directories, whose slots are empty
or hold a table of the next level, above a level of leaf tables with a value in every slot. A `Path`
gives one index per level. This is the shape of a multi-level page table, and of any sparse array
indexed by a fixed number of digits.

`walk` descends along a path, creating the missing tables if the caller's allocator grants them,
and threads the caller's own bookkeeping through the levels. Seen through `lookup`, a tree is a map
from paths to values in which a missing table reads as the default: walks do not change this map
(`lookup_walk`), and a write through a completed walk changes it at one path only
(`lookup_write_self`, `lookup_write_of_ne`).

Where the allocator may refuse, what a walk asks for is the number of tables its path lacks
(`missing`): it completes if that many requests in a row are granted (`walk_granted_iff`), and lowers
what other paths lack down to where they part from it (`missing_walk`). -/

namespace Radix

variable {ι V σ : Type}

/-- `n` levels of directories above the leaf tables. -/
def Tree (ι V : Type) : ℕ → Type
  | 0 => ι → V
  | n + 1 => ι → Option (Tree ι V n)

/-- One index for each level, from the root down. -/
def Path (ι : Type) : ℕ → Type
  | 0 => ι
  | n + 1 => ι × Path ι n

instance Path.decidableEq [DecidableEq ι] : (n : ℕ) → DecidableEq (Path ι n)
  | 0 => inferInstanceAs (DecidableEq ι)
  | n + 1 => @instDecidableEqProd ι (Path ι n) _ (Path.decidableEq n)

/-- The number of directory levels below the table in which two paths part. -/
def Path.apart [DecidableEq ι] : {n : ℕ} → Path ι n → Path ι n → ℕ
  | 0, _, _ => 0
  | n + 1, (i, p), (j, q) => if i = j then Path.apart p q else n + 1

theorem Path.apart_le [DecidableEq ι] {n : ℕ} (p q : Path ι n) : p.apart q ≤ n := by
  induction n with
  | zero => exact Nat.le_refl 0
  | succ n ih =>
      obtain ⟨i, p⟩ := p
      obtain ⟨j, q⟩ := q
      rw [apart]
      split
      · exact Nat.le_succ_of_le (ih p q)
      · exact Nat.le_refl _

namespace Tree

/-- A freshly allocated table: every slot of a leaf holds the default, every directory is empty. -/
def empty (zero : V) : (n : ℕ) → Tree ι V n
  | 0 => fun _ => zero
  | _ + 1 => fun _ => none

/-- The table a directory slot points to. -/
def child {n : ℕ} (t : Tree ι V (n + 1)) (i : ι) : Option (Tree ι V n) := t i

/-- The value at a path, the default if a table on the way is missing. -/
def lookup (zero : V) : {n : ℕ} → Tree ι V n → Path ι n → V
  | 0, t, i => t i
  | _ + 1, t, (i, p) =>
    match child t i with
    | none => zero
    | some sub => sub.lookup zero p

/-- Every table on the way to the leaf slot of a path exists. -/
def Reaches : {n : ℕ} → Tree ι V n → Path ι n → Prop
  | 0, _, _ => True
  | _ + 1, t, (i, p) => ∃ sub, child t i = some sub ∧ sub.Reaches p

/-- The number of tables that a path lacks: from the first empty directory slot on, all of them. -/
def missing : {n : ℕ} → Tree ι V n → Path ι n → ℕ
  | 0, _, _ => 0
  | n + 1, t, (i, p) =>
    match child t i with
    | none => n + 1
    | some sub => sub.missing p

@[simp]
theorem missing_empty (zero : V) {n : ℕ} (p : Path ι n) :
    (empty zero n : Tree ι V n).missing p = n := by
  cases n <;> rfl

theorem missing_le {n : ℕ} (t : Tree ι V n) (p : Path ι n) : t.missing p ≤ n := by
  induction n with
  | zero => exact Nat.le_refl 0
  | succ n ih =>
      obtain ⟨i, p⟩ := p
      cases hi : t.child i with
      | none => simp only [missing, hi, Nat.le_refl]
      | some sub =>
          simp only [missing, hi]
          exact Nat.le_succ_of_le (ih sub p)

@[simp]
theorem lookup_empty (zero : V) {n : ℕ} (p : Path ι n) :
    (empty zero n : Tree ι V n).lookup zero p = zero := by
  cases n <;> rfl

variable [DecidableEq ι]

/-- Point a directory slot to a table. -/
def setChild {n : ℕ} (t : Tree ι V (n + 1)) (i : ι) (sub : Tree ι V n) : Tree ι V (n + 1) :=
  fun j => if j = i then some sub else child t j

/-- Store a value in the leaf slot of a path; nothing happens if a table on the way is missing. -/
def write : {n : ℕ} → Tree ι V n → Path ι n → V → Tree ι V n
  | 0, t, i, v => fun j : Path ι 0 => if j = i then v else t j
  | _ + 1, t, (i, p), v =>
    match child t i with
    | none => t
    | some sub => setChild t i (sub.write p v)

/-- Descend along a path. `visit` is the bookkeeping for one level; `grow` is called where a table
    is missing and says whether a new one was allocated. Returns whether the leaf was reached. -/
def walk (zero : V) (visit : σ → σ) (grow : σ → Bool × σ) :
    {n : ℕ} → Tree ι V n → Path ι n → σ → Bool × Tree ι V n × σ
  | 0, t, _, s => (true, t, visit s)
  | n + 1, t, (i, p), s =>
    match child t i with
    | some sub =>
      let r := sub.walk zero visit grow p (visit s)
      (r.1, setChild t i r.2.1, r.2.2)
    | none =>
      let g := grow (visit s)
      if g.1 then
        let r := (empty zero n).walk zero visit grow p g.2
        (r.1, setChild t i r.2.1, r.2.2)
      else (false, t, g.2)

@[simp]
theorem child_setChild_self {n : ℕ} (t : Tree ι V (n + 1)) (i : ι) (sub : Tree ι V n) :
    (t.setChild i sub).child i = some sub := by
  simp [setChild, child]

theorem child_setChild_of_ne {n : ℕ} (t : Tree ι V (n + 1)) {i j : ι} (sub : Tree ι V n)
    (h : j ≠ i) : (t.setChild i sub).child j = t.child j := by
  simp [setChild, child, h]

theorem setChild_eq_self {n : ℕ} {t : Tree ι V (n + 1)} {i : ι} {sub : Tree ι V n}
    (h : t.child i = some sub) : t.setChild i sub = t := by
  funext j
  by_cases hj : j = i
  · subst hj
    exact (if_pos rfl).trans h.symm
  · simp [setChild, child, hj]

/-! ## Walks -/

/-- A walk does not change the map the tree stands for. -/
@[simp]
theorem lookup_walk (zero : V) (visit : σ → σ) (grow : σ → Bool × σ) {n : ℕ} (t : Tree ι V n)
    (p q : Path ι n) (s : σ) : (t.walk zero visit grow p s).2.1.lookup zero q = t.lookup zero q := by
  induction n generalizing s with
  | zero => rfl
  | succ n ih =>
      obtain ⟨i, p⟩ := p
      obtain ⟨j, q⟩ := q
      by_cases hji : j = i
      · subst hji
        cases hj : t.child j with
        | some sub => simp only [walk, lookup, hj, child_setChild_self, ih]
        | none =>
            simp only [walk, hj]
            split
            · simp only [lookup, hj, child_setChild_self, ih, lookup_empty]
            · rfl
      · cases hi : t.child i with
        | some sub => simp only [walk, lookup, hi, child_setChild_of_ne _ _ hji]
        | none =>
            simp only [walk, hi]
            split
            · simp only [lookup, child_setChild_of_ne _ _ hji]
            · rfl

theorem reaches_of_walk (zero : V) (visit : σ → σ) (grow : σ → Bool × σ) {n : ℕ} (t : Tree ι V n)
    (p : Path ι n) (s : σ) (h : (t.walk zero visit grow p s).1 = true) :
    (t.walk zero visit grow p s).2.1.Reaches p := by
  induction n generalizing s with
  | zero => trivial
  | succ n ih =>
      obtain ⟨i, p⟩ := p
      cases hi : t.child i with
      | some sub =>
          simp only [walk, hi] at h ⊢
          exact ⟨_, child_setChild_self .., ih sub p _ h⟩
      | none =>
          simp only [walk, hi] at h ⊢
          split at h
          · next hg =>
              simp only [if_pos hg]
              exact ⟨_, child_setChild_self .., ih _ p _ h⟩
          · exact absurd h (by simp)

/-- If the allocator never refuses, the leaf is reached. -/
theorem walk_of_grow (zero : V) (visit : σ → σ) (grow : σ → Bool × σ)
    (hg : ∀ s, (grow s).1 = true) {n : ℕ} (t : Tree ι V n) (p : Path ι n) (s : σ) :
    (t.walk zero visit grow p s).1 = true := by
  induction n generalizing s with
  | zero => rfl
  | succ n ih =>
      obtain ⟨i, p⟩ := p
      cases hi : t.child i with
      | some sub => simpa only [walk, hi] using ih sub p _
      | none => simp only [walk, hi, hg, if_true, ih]

/-- A walk that may not allocate leaves every table as it is. -/
theorem walk_tree_of_refuse (zero : V) (visit : σ → σ) (grow : σ → Bool × σ)
    (hg : ∀ s, (grow s).1 = false) {n : ℕ} (t : Tree ι V n) (p : Path ι n) (s : σ) :
    (t.walk zero visit grow p s).2.1 = t := by
  induction n generalizing s with
  | zero => rfl
  | succ n ih =>
      obtain ⟨i, p⟩ := p
      cases hi : t.child i with
      | some sub => simp only [walk, hi, ih, setChild_eq_self hi]
      | none => simp [walk, hi, hg]

/-- It gets to its leaf if no table is missing. -/
theorem walk_fst_of_refuse (zero : V) (visit : σ → σ) (grow : σ → Bool × σ)
    (hg : ∀ s, (grow s).1 = false) {n : ℕ} (t : Tree ι V n) (p : Path ι n) (s : σ) :
    (t.walk zero visit grow p s).1 = true ↔ t.missing p = 0 := by
  induction n generalizing s with
  | zero => simp [walk, missing]
  | succ n ih =>
      obtain ⟨i, p⟩ := p
      cases hi : t.child i with
      | some sub => simp only [walk, missing, hi, ih]
      | none => simp [walk, missing, hi, hg]

/-- A walk that stops early stops at a table that was missing. -/
theorem lookup_of_walk_stops (zero : V) (visit : σ → σ) (grow : σ → Bool × σ) {n : ℕ}
    (t : Tree ι V n) (p : Path ι n) (s : σ) (h : (t.walk zero visit grow p s).1 = false) :
    t.lookup zero p = zero := by
  induction n generalizing s with
  | zero => exact absurd h (by simp [walk])
  | succ n ih =>
      obtain ⟨i, p⟩ := p
      cases hi : t.child i with
      | some sub =>
          simp only [walk, hi] at h
          simp only [lookup, hi]
          exact ih sub p _ h
      | none => simp only [lookup, hi]

/-! ## Walks that may be refused -/

section Refusals

variable (zero : V) (visit : σ → σ) (grow : σ → Bool × σ) (cnt : σ → ℕ) (ok : ℕ → Bool)

/-- `grow` grants its requests by their number, and counts them. -/
structure CountsRequests : Prop where
  visit : ∀ s, cnt (visit s) = cnt s
  granted : ∀ s, (grow s).1 = ok (cnt s)
  grow : ∀ s, cnt (grow s).2 = cnt s + 1

variable {visit grow cnt ok}

/-- A walk completes if and only if the requests for the missing tables are granted. -/
theorem walk_granted_iff (hc : CountsRequests visit grow cnt ok) {n : ℕ} (t : Tree ι V n)
    (p : Path ι n) (s : σ) :
    (t.walk zero visit grow p s).1 = true ↔ ∀ k < t.missing p, ok (cnt s + k) = true := by
  induction n generalizing s with
  | zero => simp [walk, missing]
  | succ n ih =>
      obtain ⟨i, p⟩ := p
      cases hi : t.child i with
      | some sub => simp only [walk, missing, hi, ih, hc.visit]
      | none =>
          have hshift : ∀ k, cnt s + 1 + k = cnt s + (k + 1) := fun k => by omega
          simp only [walk, missing, hi, hc.granted, hc.visit, Nat.forall_lt_succ_left, Nat.add_zero]
          split
          · next hg => simp only [ih, missing_empty, hc.grow, hc.visit, hshift, hg, true_and]
          · next hg => simp only [Bool.false_eq_true, hg, false_and]

/-- A completed walk has made one request for each missing table. -/
theorem cnt_walk (hc : CountsRequests visit grow cnt ok) {n : ℕ} (t : Tree ι V n) (p : Path ι n)
    (s : σ) (h : (t.walk zero visit grow p s).1 = true) :
    cnt (t.walk zero visit grow p s).2.2 = cnt s + t.missing p := by
  induction n generalizing s with
  | zero => simp [walk, missing, hc.visit]
  | succ n ih =>
      obtain ⟨i, p⟩ := p
      cases hi : t.child i with
      | some sub =>
          simp only [walk, hi] at h
          simp only [walk, missing, hi, ih sub p _ h, hc.visit]
      | none =>
          simp only [walk, hi] at h
          split at h
          · next hg =>
              simp only [walk, missing, hi, if_pos hg, ih _ p _ h, missing_empty, hc.grow, hc.visit]
              omega
          · exact absurd h (by simp)

/-- After a completed walk a path lacks only tables below the place where it parts from the walk's. -/
theorem missing_walk {n : ℕ} (t : Tree ι V n) (p q : Path ι n) (s : σ)
    (h : (t.walk zero visit grow p s).1 = true) :
    (t.walk zero visit grow p s).2.1.missing q = min (t.missing q) (p.apart q) := by
  induction n generalizing s with
  | zero => rfl
  | succ n ih =>
      obtain ⟨i, p⟩ := p
      obtain ⟨j, q⟩ := q
      rw [Path.apart]
      cases hi : t.child i with
      | some sub =>
          simp only [walk, hi] at h ⊢
          by_cases hij : i = j
          · subst hij
            simp only [missing, hi, child_setChild_self, if_pos, ih sub p q _ h]
          · have hle := missing_le t (j, q)
            rw [if_neg hij, Nat.min_eq_left hle]
            simp only [missing, child_setChild_of_ne _ _ (Ne.symm hij)]
      | none =>
          simp only [walk, hi] at h ⊢
          split at h
          · next hg =>
              rw [if_pos hg]
              by_cases hij : i = j
              · subst hij
                have hle := Path.apart_le p q
                simp only [missing, hi, child_setChild_self, if_pos, ih _ p q _ h, missing_empty]
                omega
              · have hle := missing_le t (j, q)
                rw [if_neg hij, Nat.min_eq_left hle]
                simp only [missing, child_setChild_of_ne _ _ (Ne.symm hij)]
          · exact absurd h (by simp)

/-- A walk whose first request is refused ends there, and the tree is as it was. -/
theorem walk_of_refused (hc : CountsRequests visit grow cnt ok) {n : ℕ} (t : Tree ι V n)
    (p : Path ι n) (s : σ) (hmissing : t.missing p ≠ 0) (href : ok (cnt s) = false) :
    (t.walk zero visit grow p s).1 = false ∧ (t.walk zero visit grow p s).2.1 = t := by
  induction n generalizing s with
  | zero => exact absurd rfl hmissing
  | succ n ih =>
      obtain ⟨i, p⟩ := p
      cases hi : t.child i with
      | some sub =>
          simp only [missing, hi] at hmissing
          obtain ⟨hfst, htree⟩ := ih sub p (visit s) hmissing (by rw [hc.visit, href])
          simp only [walk, hi, hfst, htree, setChild_eq_self hi, and_self]
      | none => simp [walk, hi, hc.granted, hc.visit, href]

/-- What `grow` counts of the tables it grants. -/
structure CountsGranted (visit : σ → σ) (grow : σ → Bool × σ) (tbl : σ → ℕ) : Prop where
  visit : ∀ s, tbl (visit s) = tbl s
  grow : ∀ s, tbl (grow s).2 = tbl s + if (grow s).1 then 1 else 0

variable {tbl : σ → ℕ}

theorem le_tbl_walk (ht : CountsGranted visit grow tbl) {n : ℕ} (t : Tree ι V n) (p : Path ι n)
    (s : σ) : tbl s ≤ tbl (t.walk zero visit grow p s).2.2 := by
  induction n generalizing s with
  | zero => exact Nat.le_of_eq (ht.visit s).symm
  | succ n ih =>
      obtain ⟨i, p⟩ := p
      have hgrow := ht.grow (visit s)
      rw [ht.visit] at hgrow
      cases hi : t.child i with
      | some sub =>
          simp only [walk, hi]
          rw [← ht.visit s]
          exact ih sub p (visit s)
      | none =>
          simp only [walk, hi]
          split
          · have hle := ih (empty zero n) p (grow (visit s)).2
            simp only
            omega
          · simp only
            omega

theorem tbl_walk_of_refuse (ht : CountsGranted visit grow tbl) (hg : ∀ s, (grow s).1 = false) {n : ℕ}
    (t : Tree ι V n) (p : Path ι n) (s : σ) : tbl (t.walk zero visit grow p s).2.2 = tbl s := by
  induction n generalizing s with
  | zero => exact ht.visit s
  | succ n ih =>
      obtain ⟨i, p⟩ := p
      cases hi : t.child i with
      | some sub => simp only [walk, hi, ih, ht.visit]
      | none => simp [walk, hi, hg, ht.grow, ht.visit]

/-- A walk has been granted a table if and only if it lacked one and its first request was granted. -/
theorem tbl_walk_eq_iff (hc : CountsRequests visit grow cnt ok) (ht : CountsGranted visit grow tbl)
    {n : ℕ} (t : Tree ι V n) (p : Path ι n) (s : σ) :
    tbl (t.walk zero visit grow p s).2.2 = tbl s ↔ t.missing p = 0 ∨ ok (cnt s) = false := by
  induction n generalizing s with
  | zero => simp [walk, missing, ht.visit]
  | succ n ih =>
      obtain ⟨i, p⟩ := p
      have hgrow := ht.grow (visit s)
      rw [ht.visit, hc.granted, hc.visit] at hgrow
      cases hi : t.child i with
      | some sub =>
          have hih := ih sub p (visit s)
          rw [ht.visit, hc.visit] at hih
          simp only [walk, missing, hi, hih]
      | none =>
          simp only [walk, missing, hi, hc.granted, hc.visit, Nat.succ_ne_zero, false_or]
          cases hok : ok (cnt s) with
          | true =>
              have hle := le_tbl_walk zero ht (empty zero n : Tree ι V n) p (grow (visit s)).2
              rw [hok, if_pos rfl] at hgrow
              simp only [if_true, Bool.true_eq_false, iff_false]
              omega
          | false =>
              rw [hok] at hgrow
              simpa using hgrow

end Refusals

/-! ## Writes -/

/-- Writes go to leaf tables. -/
@[simp]
theorem missing_write {n : ℕ} (t : Tree ι V n) (p q : Path ι n) (v : V) :
    (t.write p v).missing q = t.missing q := by
  induction n with
  | zero => rfl
  | succ n ih =>
      obtain ⟨i, p⟩ := p
      obtain ⟨j, q⟩ := q
      cases hi : t.child i with
      | none => simp only [write, hi]
      | some sub =>
          simp only [write, hi, missing]
          by_cases hij : j = i
          · subst hij
            simp only [child_setChild_self, hi, ih]
          · rw [child_setChild_of_ne _ _ hij]

theorem lookup_write_self (zero : V) {n : ℕ} (t : Tree ι V n) (p : Path ι n) (v : V)
    (h : t.Reaches p) : (t.write p v).lookup zero p = v := by
  induction n with
  | zero => exact if_pos rfl
  | succ n ih =>
      obtain ⟨i, p⟩ := p
      obtain ⟨sub, hi, hsub⟩ := h
      simp only [write, hi, lookup, child_setChild_self]
      exact ih sub p hsub

theorem lookup_write_of_ne (zero : V) {n : ℕ} (t : Tree ι V n) {p q : Path ι n} (v : V)
    (hne : q ≠ p) : (t.write p v).lookup zero q = t.lookup zero q := by
  induction n with
  | zero => exact if_neg hne
  | succ n ih =>
      obtain ⟨i, p⟩ := p
      obtain ⟨j, q⟩ := q
      cases hi : t.child i with
      | none => simp only [write, hi]
      | some sub =>
          simp only [write, hi, lookup]
          by_cases hji : j = i
          · subst hji
            simp only [child_setChild_self, hi]
            exact ih sub (fun hqp => hne (by rw [hqp]))
          · rw [child_setChild_of_ne _ _ hji]

/-- A write through a path that reaches its leaf updates the map at that path. -/
theorem lookup_write (zero : V) {n : ℕ} (t : Tree ι V n) (p : Path ι n) (v : V)
    (h : t.Reaches p) :
    (t.write p v).lookup zero = Function.update (t.lookup zero) p v := by
  funext q
  by_cases hq : q = p
  · subst hq
    rw [Function.update_self, lookup_write_self zero t q v h]
  · rw [Function.update_of_ne hq, lookup_write_of_ne zero t v hq]

/-- Writing back what is there changes nothing, whether or not the path reaches its leaf. -/
theorem lookup_write_lookup (zero : V) {n : ℕ} (t : Tree ι V n) (p : Path ι n) :
    (t.write p (t.lookup zero p)).lookup zero = t.lookup zero := by
  funext q
  by_cases hq : q = p
  · subst hq
    induction n with
    | zero => exact if_pos rfl
    | succ n ih =>
        obtain ⟨i, q⟩ := q
        cases hi : t.child i with
        | none => simp only [write, hi]
        | some sub => simp only [write, lookup, hi, child_setChild_self, ih sub q]
  · exact lookup_write_of_ne zero t _ hq

end Tree

end Radix
