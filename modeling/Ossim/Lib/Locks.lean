import Mathlib.Data.List.Basic
import Mathlib.Data.Finite.Defs
import Mathlib.Order.WellFounded
import Mathlib.Order.RelClasses
import Mathlib.Tactic.Common

set_option autoImplicit false

/-! # Locks taken in order

What a thread does with its locks is a trace of `lock` and `unlock` events. A trace is `Disciplined` if
it takes locks in the order of their type only, releases what it holds and ends with nothing held.

* `Stmt` is the lock skeleton of a program: its control flow, down to the calls that take locks, with
  conditions left open. `Stmt.check` follows the locks held through a skeleton, and `Stmt.check_sound`
  says that all paths of a skeleton that passes are disciplined.
* `no_deadlock`: threads that run disciplined traces, any number of them in any interleaving, are never
  all waiting for a lock. -/

namespace Locks

variable {L : Type}

inductive Event (L : Type) where
  | lock (l : L)
  | unlock (l : L)
  deriving DecidableEq

section Order

variable [LinearOrder L]

/-! ## Traces -/

/-- The locks held after a trace, the last one taken first. -/
def after (held : List L) : List (Event L) → List L
  | [] => held
  | .lock l :: t => after (l :: held) t
  | .unlock l :: t => after (held.erase l) t

/-- A lock is taken while only lower ones are held (so not twice), only locks that are held are
    released, and in the end all are. -/
structure Disciplined (t : List (Event L)) : Prop where
  ordered : ∀ pre l post, t = pre ++ .lock l :: post → ∀ k ∈ after [] pre, k < l
  owned : ∀ pre l post, t = pre ++ .unlock l :: post → l ∈ after [] pre
  released : after [] t = []

/-- The same step by step: a disciplined trace between two sets of held locks. -/
def Runs (held : List L) : List (Event L) → List L → Prop
  | [], held' => held = held'
  | .lock l :: t, held' => (∀ k ∈ held, k < l) ∧ Runs (l :: held) t held'
  | .unlock l :: t, held' => l ∈ held ∧ Runs (held.erase l) t held'

variable {held held' held'' : List L} {t t' : List (Event L)}

theorem Runs.append (h : Runs held t held') (h' : Runs held' t' held'') :
    Runs held (t ++ t') held'' := by
  induction t generalizing held with
  | nil =>
      obtain rfl : held = held' := h
      exact h'
  | cons e t ih =>
      cases e with
      | lock l => exact ⟨h.1, ih h.2⟩
      | unlock l => exact ⟨h.1, ih h.2⟩

theorem Runs.after_eq (h : Runs held t held') : after held t = held' := by
  induction t generalizing held with
  | nil => exact h
  | cons e t ih =>
      cases e with
      | lock l => exact ih h.2
      | unlock l => exact ih h.2

/-- What is left of a trace is disciplined as well. -/
theorem Runs.suffix {pre post : List (Event L)} (h : Runs held (pre ++ post) held') :
    Runs (after held pre) post held' := by
  induction pre generalizing held with
  | nil => exact h
  | cons e pre ih =>
      cases e with
      | lock l => exact ih h.2
      | unlock l => exact ih h.2

theorem Runs.disciplined (h : Runs [] t []) : Disciplined t where
  ordered := by
    rintro pre l post rfl
    exact h.suffix.1
  owned := by
    rintro pre l post rfl
    exact h.suffix.1
  released := h.after_eq

end Order

/-! ## Skeletons -/

/-- A program as far as its locks are concerned. `ret` leaves the innermost `call`, `brk` the innermost
    `loop`. -/
inductive Stmt (L : Type) where
  | skip
  | lock (l : L)
  | unlock (l : L)
  | seq (s t : Stmt L)
  | choice (s t : Stmt L)
  | loop (s : Stmt L)
  | brk
  | ret
  | call (s : Stmt L)

/-- How a statement ends. -/
inductive Exit where
  | next
  | brk
  | ret
  deriving DecidableEq

/-- The paths through a statement, whatever its conditions are. -/
inductive Path : Stmt L → List (Event L) → Exit → Prop where
  | skip : Path .skip [] .next
  | lock (l : L) : Path (.lock l) [.lock l] .next
  | unlock (l : L) : Path (.unlock l) [.unlock l] .next
  | seq {s s' : Stmt L} {t t' : List (Event L)} {x : Exit} (h : Path s t .next) (h' : Path s' t' x) :
      Path (.seq s s') (t ++ t') x
  | seqExit {s s' : Stmt L} {t : List (Event L)} {x : Exit} (h : Path s t x) (hx : x ≠ .next) :
      Path (.seq s s') t x
  | left {s s' : Stmt L} {t : List (Event L)} {x : Exit} (h : Path s t x) : Path (.choice s s') t x
  | right {s s' : Stmt L} {t : List (Event L)} {x : Exit} (h : Path s' t x) : Path (.choice s s') t x
  | loopEnd {s : Stmt L} : Path (.loop s) [] .next
  | loopNext {s : Stmt L} {t t' : List (Event L)} {x : Exit} (h : Path s t .next)
      (h' : Path (.loop s) t' x) : Path (.loop s) (t ++ t') x
  | loopBrk {s : Stmt L} {t : List (Event L)} (h : Path s t .brk) : Path (.loop s) t .next
  | loopRet {s : Stmt L} {t : List (Event L)} (h : Path s t .ret) : Path (.loop s) t .ret
  | brk : Path .brk [] .brk
  | ret : Path .ret [] .ret
  | call {s : Stmt L} {t : List (Event L)} {x : Exit} (h : Path s t x) (hx : x ≠ .brk) :
      Path (.call s) t .next

namespace Stmt

/-- `if (..) s` -/
def opt (s : Stmt L) : Stmt L := .choice s .skip

/-- `{ s; .. }` -/
def block : List (Stmt L) → Stmt L
  | [] => .skip
  | [s] => s
  | s :: ss => .seq s (block ss)

end Stmt

/-! ## Finding paths -/

namespace Path

open Stmt

variable {s s' : Stmt L} {ss : List (Stmt L)} {t t' : List (Event L)} {x : Exit}

theorem block_last (h : Path s t x) : Path (block [s]) t x := h

/-- The condition of an `if` does not hold. -/
theorem skip_opt : Path (opt s) [] .next := .right .skip

theorem enter_opt (h : Path s t x) : Path (opt s) t x := .left h

theorem block_next (h : Path s t .next) (h' : Path (block (s' :: ss)) t' x) :
    Path (block (s :: s' :: ss)) (t ++ t') x := .seq h h'

theorem block_skip (h : Path (block (s' :: ss)) t x) : Path (block (opt s :: s' :: ss)) t x :=
  .seq skip_opt h

/-- An `if` that returns. -/
theorem block_ret (h : Path s t .ret) : Path (block (opt s :: s' :: ss)) t .ret :=
  .seqExit (.left h) (by simp)

theorem block_lock {l : L} (h : Path (block (s' :: ss)) t x) :
    Path (block (.lock l :: s' :: ss)) (.lock l :: t) x := .seq (.lock l) h

theorem block_unlock {l : L} (h : Path (block (s' :: ss)) t x) :
    Path (block (.unlock l :: s' :: ss)) (.unlock l :: t) x := .seq (.unlock l) h

theorem call_next (h : Path s t .next) : Path (.call s) t .next := .call h (by simp)

theorem call_ret (h : Path s t .ret) : Path (.call s) t .next := .call h (by simp)

theorem loop_replicate (h : Path s t .next) (n : ℕ) :
    Path (.loop s) (List.replicate n t).flatten .next := by
  induction n with
  | zero => exact .loopEnd
  | succ n ih => exact .loopNext h ih

end Path

/-! ## The check -/

namespace Stmt

section Check

variable [LinearOrder L]

/-- The locks held at the exits of a statement, `none` for an exit it does not have. -/
structure Exits (L : Type) where
  next : Option (List L)
  brk : Option (List L)
  ret : Option (List L)
  deriving DecidableEq

def Exits.at (e : Exits L) : Exit → Option (List L)
  | .next => e.next
  | .brk => e.brk
  | .ret => e.ret

/-- Two paths that meet hold the same locks. -/
def meet (a b : Option (List L)) : Option (Option (List L)) :=
  match a, b with
  | none, b => some b
  | a, none => some a
  | some x, some y => if x = y then some (some x) else none

def Exits.meet (e e' : Exits L) : Option (Exits L) := do
  return ⟨← Stmt.meet e.next e'.next, ← Stmt.meet e.brk e'.brk, ← Stmt.meet e.ret e'.ret⟩

/-- Follow the locks held through a statement; `none` if it breaks the discipline, or if what is held
    depends on the path. -/
def check (held : List L) : Stmt L → Option (Exits L)
  | .skip => some ⟨some held, none, none⟩
  | .lock l => if ∀ k ∈ held, k < l then some ⟨some (l :: held), none, none⟩ else none
  | .unlock l => if l ∈ held then some ⟨some (held.erase l), none, none⟩ else none
  | .seq s t => do
    let e ← check held s
    match e.next with
    | none => return e
    | some held' => Exits.meet ⟨none, e.brk, e.ret⟩ (← check held' t)
  | .choice s t => do Exits.meet (← check held s) (← check held t)
  | .loop s => do
    let e ← check held s
    -- every round starts with the same locks
    if e.next = none ∨ e.next = some held then
      return ⟨← Stmt.meet (some held) e.brk, none, e.ret⟩
    else none
  | .brk => some ⟨none, some held, none⟩
  | .ret => some ⟨none, none, some held⟩
  | .call s => do
    let e ← check held s
    return ⟨← Stmt.meet e.next e.ret, none, none⟩

theorem meet_eq_some {a b c : Option (List L)} (h : meet a b = some c) {held : List L}
    (hab : a = some held ∨ b = some held) : c = some held := by
  unfold meet at h
  split at h
  · cases h
    exact hab.resolve_left (by simp)
  · cases h
    exact hab.resolve_right (by simp)
  · split at h
    · next heq =>
        cases h
        subst heq
        exact hab.elim id id
    · cases h

/-- What either side holds at an exit is held at the exit of both. -/
theorem Exits.meet_eq_some {e e' e'' : Exits L} (h : e.meet e' = some e'') {x : Exit} {held : List L}
    (hx : e.at x = some held ∨ e'.at x = some held) : e''.at x = some held := by
  simp only [Exits.meet, Option.bind_eq_bind, Option.bind_eq_some_iff, Option.pure_def,
    Option.some.injEq] at h
  obtain ⟨next, hnext, brk, hbrk, ret, hret, rfl⟩ := h
  cases x with
  | next => exact Stmt.meet_eq_some hnext hx
  | brk => exact Stmt.meet_eq_some hbrk hx
  | ret => exact Stmt.meet_eq_some hret hx

section Inversion

variable {held : List L} {s s' : Stmt L} {e : Exits L}

/-- What the check of a sequence has found out: about the exits of its first statement, and, if that
    one gets to its end, about its second. -/
theorem check_seq (h : check held (.seq s s') = some e) :
    ∃ e₁, check held s = some e₁ ∧
      (∀ x ≠ .next, ∀ held', e₁.at x = some held' → e.at x = some held') ∧
      ∀ held₁, e₁.next = some held₁ → ∃ e₂, check held₁ s' = some e₂ ∧
        ∀ x held', e₂.at x = some held' → e.at x = some held' := by
  simp only [check, Option.bind_eq_bind, Option.bind_eq_some_iff] at h
  obtain ⟨e₁, he₁, h⟩ := h
  refine ⟨e₁, he₁, ?_⟩
  split at h
  · next hnext =>
      cases h
      exact ⟨fun _ _ _ => id, fun held₁ hsome => absurd (hnext.symm.trans hsome) (by simp)⟩
  · next held₁ hnext =>
      obtain ⟨e₂, he₂, hmeet⟩ := Option.bind_eq_some_iff.1 h
      refine ⟨fun x hx held' hat => Exits.meet_eq_some hmeet (Or.inl ?_), fun held' hsome => ?_⟩
      · cases x with
        | next => exact absurd rfl hx
        | brk => exact hat
        | ret => exact hat
      · obtain rfl := Option.some.inj (hnext.symm.trans hsome)
        exact ⟨e₂, he₂, fun x held' hat => Exits.meet_eq_some hmeet (Or.inr hat)⟩

theorem check_choice (h : check held (.choice s s') = some e) :
    ∃ e₁ e₂, check held s = some e₁ ∧ check held s' = some e₂ ∧ e₁.meet e₂ = some e := by
  simp only [check, Option.bind_eq_bind, Option.bind_eq_some_iff] at h
  obtain ⟨e₁, he₁, e₂, he₂, hmeet⟩ := h
  exact ⟨e₁, e₂, he₁, he₂, hmeet⟩

/-- A round of the loop that gets to its end holds what the loop started with; so does the loop when it
    ends, by its condition or by a `break`. -/
theorem check_loop (h : check held (.loop s) = some e) :
    ∃ e₁, check held s = some e₁ ∧ (∀ held', e₁.next = some held' → held' = held) ∧
      e.next = some held ∧ (∀ held', e₁.brk = some held' → e.next = some held') ∧ e.ret = e₁.ret := by
  simp only [check, Option.bind_eq_bind, Option.bind_eq_some_iff] at h
  obtain ⟨e₁, he₁, h⟩ := h
  split at h
  · next hinv =>
      obtain ⟨next, hnext, heq⟩ := Option.bind_eq_some_iff.1 h
      cases heq
      refine ⟨e₁, he₁, fun held' hsome => ?_, Stmt.meet_eq_some hnext (Or.inl rfl),
        fun held' hbrk => Stmt.meet_eq_some hnext (Or.inr hbrk), rfl⟩
      rw [hsome] at hinv
      simpa using hinv
  · cases h

theorem check_call (h : check held (.call s) = some e) :
    ∃ e₁, check held s = some e₁ ∧
      ∀ x ≠ .brk, ∀ held', e₁.at x = some held' → e.next = some held' := by
  simp only [check, Option.bind_eq_bind, Option.bind_eq_some_iff] at h
  obtain ⟨e₁, he₁, next, hnext, heq⟩ := h
  cases heq
  refine ⟨e₁, he₁, fun x hx held' hat => Stmt.meet_eq_some hnext ?_⟩
  cases x with
  | next => exact Or.inl hat
  | brk => exact absurd rfl hx
  | ret => exact Or.inr hat

end Inversion

/-- **The check is sound.** All paths of a statement that passes are disciplined, and hold what the
    check says at their exit. The induction is on the path; a further round of a loop starts with the
    locks of the first. -/
theorem check_sound {s : Stmt L} {t : List (Event L)} {x : Exit} (hp : Path s t x) {held : List L}
    {e : Exits L} (hc : check held s = some e) :
    ∃ held', e.at x = some held' ∧ Runs held t held' := by
  induction hp generalizing held e with
  | skip | brk | ret =>
      cases hc
      exact ⟨held, rfl, rfl⟩
  | lock l =>
      rw [check] at hc
      split at hc
      · next hlt =>
          cases hc
          exact ⟨l :: held, rfl, hlt, rfl⟩
      · cases hc
  | unlock l =>
      rw [check] at hc
      split at hc
      · next hmem =>
          cases hc
          exact ⟨held.erase l, rfl, hmem, rfl⟩
      · cases hc
  | seq h h' ih ih' =>
      obtain ⟨e₁, he₁, -, hthen⟩ := check_seq hc
      obtain ⟨held₁, hat₁, hruns₁⟩ := ih he₁
      obtain ⟨e₂, he₂, hexits⟩ := hthen held₁ hat₁
      obtain ⟨held₂, hat₂, hruns₂⟩ := ih' he₂
      exact ⟨held₂, hexits _ _ hat₂, hruns₁.append hruns₂⟩
  | seqExit h hx ih =>
      obtain ⟨e₁, he₁, hexits, -⟩ := check_seq hc
      obtain ⟨held₁, hat₁, hruns₁⟩ := ih he₁
      exact ⟨held₁, hexits _ hx _ hat₁, hruns₁⟩
  | left h ih =>
      obtain ⟨e₁, e₂, he₁, -, hmeet⟩ := check_choice hc
      obtain ⟨held₁, hat₁, hruns₁⟩ := ih he₁
      exact ⟨held₁, Exits.meet_eq_some hmeet (Or.inl hat₁), hruns₁⟩
  | right h ih =>
      obtain ⟨e₁, e₂, -, he₂, hmeet⟩ := check_choice hc
      obtain ⟨held₂, hat₂, hruns₂⟩ := ih he₂
      exact ⟨held₂, Exits.meet_eq_some hmeet (Or.inr hat₂), hruns₂⟩
  | loopEnd =>
      obtain ⟨_, -, -, hnext, -⟩ := check_loop hc
      exact ⟨held, hnext, rfl⟩
  | loopNext h h' ih ih' =>
      obtain ⟨e₁, he₁, hround, -⟩ := check_loop hc
      obtain ⟨held₁, hat₁, hruns₁⟩ := ih he₁
      obtain rfl := hround held₁ hat₁
      obtain ⟨held₂, hat₂, hruns₂⟩ := ih' hc
      exact ⟨held₂, hat₂, hruns₁.append hruns₂⟩
  | loopBrk h ih =>
      obtain ⟨e₁, he₁, -, -, hbrk, -⟩ := check_loop hc
      obtain ⟨held₁, hat₁, hruns₁⟩ := ih he₁
      exact ⟨held₁, hbrk held₁ hat₁, hruns₁⟩
  | loopRet h ih =>
      obtain ⟨e₁, he₁, -, -, -, hret⟩ := check_loop hc
      obtain ⟨held₁, hat₁, hruns₁⟩ := ih he₁
      exact ⟨held₁, hret.trans hat₁, hruns₁⟩
  | call h hx ih =>
      obtain ⟨e₁, he₁, hexits⟩ := check_call hc
      obtain ⟨held₁, hat₁, hruns₁⟩ := ih he₁
      exact ⟨held₁, hexits _ hx _ hat₁, hruns₁⟩

/-- A statement is fine if it ends with the locks it started with: none. -/
theorem disciplined_of_check {s : Stmt L} {t : List (Event L)} (hp : Path s t .next)
    (hc : check [] s = some ⟨some [], none, none⟩) : Runs [] t [] := by
  obtain ⟨held', hat, hruns⟩ := check_sound hp hc
  cases hat
  exact hruns

end Check

end Stmt

/-! ## Threads -/

section Threads

variable [LinearOrder L] {ι : Type} [DecidableEq ι]

/-- A thread: the locks it holds, and what is left of the operation it is in. -/
structure Thread (L : Type) where
  held : List L
  todo : List (Event L)

/-- Threads that run operations one after the other. A lock can be taken while no thread holds it. -/
inductive Reaches (ops : Set (List (Event L))) : (ι → Thread L) → Prop where
  | init : Reaches ops fun _ => ⟨[], []⟩
  | start {s : ι → Thread L} (h : Reaches ops s) {i : ι} {t : List (Event L)}
      (hidle : (s i).todo = []) (hop : t ∈ ops) :
      Reaches ops (Function.update s i ⟨(s i).held, t⟩)
  | lock {s : ι → Thread L} (h : Reaches ops s) {i : ι} {l : L} {t : List (Event L)}
      (htodo : (s i).todo = .lock l :: t) (hfree : ∀ j, l ∉ (s j).held) :
      Reaches ops (Function.update s i ⟨l :: (s i).held, t⟩)
  | unlock {s : ι → Thread L} (h : Reaches ops s) {i : ι} {l : L} {t : List (Event L)}
      (htodo : (s i).todo = .unlock l :: t) :
      Reaches ops (Function.update s i ⟨(s i).held.erase l, t⟩)

/-- The thread waits for a lock that is held. -/
def Waits (s : ι → Thread L) (i : ι) : Prop :=
  ∃ l t, (s i).todo = .lock l :: t ∧ ∃ j, l ∈ (s j).held

/-- Somebody is in an operation, and everybody who is waits for a lock. -/
def Deadlock (s : ι → Thread L) : Prop :=
  (∃ i, (s i).todo ≠ []) ∧ ∀ i, (s i).todo ≠ [] → Waits s i

/-- What is left of an operation releases what its thread holds. -/
theorem Reaches.runs {ops : Set (List (Event L))} (hops : ∀ t ∈ ops, Runs [] t []) {s : ι → Thread L}
    (h : Reaches ops s) (i : ι) : Runs (s i).held (s i).todo [] := by
  induction h with
  | init => exact rfl
  | @start s h j t hidle hop ih =>
      rw [Function.update_apply]
      split
      · next hij =>
          subst hij
          have hnone : (s i).held = [] := by
            rw [hidle] at ih
            exact ih
          rw [hnone]
          exact hops t hop
      · exact ih
  | @lock s h j l t htodo hfree ih =>
      rw [Function.update_apply]
      split
      · next hij =>
          subst hij
          rw [htodo] at ih
          exact ih.2
      · exact ih
  | @unlock s h j l t htodo ih =>
      rw [Function.update_apply]
      split
      · next hij =>
          subst hij
          rw [htodo] at ih
          exact ih.2
      · exact ih

/-- **No deadlock.** The thread that holds the highest lock somebody waits for would have to wait for
    a higher one. -/
theorem no_deadlock [WellFoundedGT L] {ops : Set (List (Event L))} (hops : ∀ t ∈ ops, Runs [] t [])
    {s : ι → Thread L} (h : Reaches ops s) : ¬ Deadlock s := by
  rintro ⟨⟨i, hi⟩, hwaits⟩
  let waited : Set L := {l | ∃ i t, (s i).todo = .lock l :: t ∧ ∃ j, l ∈ (s j).held}
  have hne : waited.Nonempty := by
    obtain ⟨l, t, htodo, hheld⟩ := hwaits i hi
    exact ⟨l, i, t, htodo, hheld⟩
  obtain ⟨l, ⟨-, -, -, j, hj⟩, hmax⟩ := wellFounded_gt.has_min waited hne
  have hruns := h.runs hops j
  have hbusy : (s j).todo ≠ [] := fun hnil => by
    rw [hnil] at hruns
    have hnone : (s j).held = [] := hruns
    rw [hnone] at hj
    exact absurd hj List.not_mem_nil
  obtain ⟨l', t', htodo', hheld'⟩ := hwaits j hbusy
  rw [htodo'] at hruns
  exact hmax l' ⟨j, t', htodo', hheld'⟩ (hruns.1 l hj)

end Threads

end Locks
