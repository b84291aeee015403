import Mathlib.Logic.Function.Basic
import Mathlib.Logic.Relation
import Mathlib.Tactic.Common

set_option autoImplicit false

/-! # The timer (`timer.c`)

The timer thread and the devices attached to it (the CPUs and the loader) go through time slots in
lockstep: `next_slot` marks the device done and waits until the timer clears the mark; the timer waits
until every device is done or detached, advances the time, and clears the marks one by one.

Each step below is one critical section of the source. Devices (`D`) are the containers
`attach_event` created, all before the timer started: `devList` is `dev_list`. -/

namespace Ossim

/-- Where `timer_routine` is. -/
inductive TimerLoc (D : Type) where
  /-- at the test of `timer_stop` -/
  | loop
  /-- waiting for the devices `rest`, with the counters of the slot -/
  | wait (rest : List D) (fsh event : ℕ)
  /-- the time is advanced, the marks of `rest` still to be cleared -/
  | release (rest : List D) (fsh event : ℕ)
  /-- out of the loop, by the test `fsh == event` or by that of `timer_stop` -/
  | exited (allFsh : Bool)

/-- The variables of `timer.c`. The last two fields are not in the source: they count how often a
    device has entered and left `next_slot`. -/
structure Timer (D : Type) where
  done : D → Bool
  fsh : D → Bool
  time : ℕ
  timerStop : Bool
  loc : TimerLoc D
  /-- whether a device is waiting in `next_slot` -/
  inSlot : D → Bool
  entered : D → ℕ
  left : D → ℕ

namespace Timer

variable {D : Type} [DecidableEq D]

/-- After `attach_event` for all devices and `start_timer`. -/
def start : Timer D where
  done := fun _ => false
  fsh := fun _ => false
  time := 0
  timerStop := false
  loc := .loop
  inSlot := fun _ => false
  entered := fun _ => 0
  left := fun _ => 0

/-- A step of `timer_routine`, `none` while it waits for a device or after its exit. -/
def step (devList : List D) (t : Timer D) : Option (Timer D) :=
  match t.loc with
  | .loop => some { t with loc := if t.timerStop then .exited false else .wait devList 0 0 }
  | .wait (d :: rest) fsh event =>
    if t.done d || t.fsh d then
      some { t with loc := .wait rest (if t.fsh d then fsh + 1 else fsh) (event + 1) }
    else none
  | .wait [] fsh event => some { t with time := t.time + 1, loc := .release devList fsh event }
  | .release (d :: rest) fsh event =>
    some { t with done := Function.update t.done d false, loc := .release rest fsh event }
  | .release [] fsh event => some { t with loc := if fsh = event then .exited true else .loop }
  | .exited _ => none

/-- The first half of `next_slot`: tell the timer that the device is done. -/
def enter (t : Timer D) (d : D) : Timer D :=
  { t with
    done := Function.update t.done d true
    inSlot := Function.update t.inSlot d true
    entered := Function.update t.entered d (t.entered d + 1) }

/-- The second half of `next_slot`: go on once the mark is cleared. -/
def leave (t : Timer D) (d : D) : Option (Timer D) :=
  if t.done d then none
  else some { t with
    inSlot := Function.update t.inSlot d false
    left := Function.update t.left d (t.left d + 1) }

/-- `detach_event` -/
def detach (t : Timer D) (d : D) : Timer D := { t with fsh := Function.update t.fsh d true }

end Timer

/-- A step of the timer, of a device, or of `stop_timer`. A device is in one place at a time, and a
    detached one does not come back. -/
inductive TimerStep {D : Type} [DecidableEq D] (devList : List D) : Timer D → Timer D → Prop where
  | timer {t t' : Timer D} (h : t.step devList = some t') : TimerStep devList t t'
  | enter {t : Timer D} {d : D} (hd : d ∈ devList) (hout : t.inSlot d = false)
      (hfsh : t.fsh d = false) : TimerStep devList t (t.enter d)
  | leave {t t' : Timer D} {d : D} (hd : d ∈ devList) (hin : t.inSlot d = true)
      (h : t.leave d = some t') : TimerStep devList t t'
  | detach {t : Timer D} {d : D} (hd : d ∈ devList) (hout : t.inSlot d = false)
      (hfsh : t.fsh d = false) : TimerStep devList t (t.detach d)
  | stop {t : Timer D} : TimerStep devList t { t with timerStop := true }

end Ossim
