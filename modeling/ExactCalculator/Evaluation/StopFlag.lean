import ExactCalculator.Evaluation.Journal

/-! The stop flag, and schedules that raise and clear it at given events of a run. -/
namespace ExactCalculator
set_option autoImplicit false

/-- The events, counted from one, at which the stop flag is raised and cleared. -/
structure Schedule where
  raiseAt : Option Nat := none
  clearAt : Option Nat := none
deriving DecidableEq, Repr

namespace Schedule

/-- The flag after an event. At one event the flag is raised first and cleared then. -/
def press (schedule : Schedule) (event : Nat) (flag : Bool) : Bool :=
  if schedule.clearAt = some event then false
  else if schedule.raiseAt = some event then true
  else flag

/-- The number of the event at which something is scheduled, if it is among the first `count`. -/
def reached (event : Option Nat) (count : Nat) : Option Nat :=
  event.filter fun n => decide (1 ≤ n ∧ n ≤ count)

/-- The flag after the first `count` events. -/
def flagAfter (schedule : Schedule) (initial : Bool) (count : Nat) : Bool :=
  match reached schedule.raiseAt count, reached schedule.clearAt count with
  | none, none => initial
  | some _, none => true
  | none, some _ => false
  | some raised, some cleared => decide (cleared < raised)

@[simp] theorem flagAfter_zero (schedule : Schedule) (initial : Bool) :
    schedule.flagAfter initial 0 = initial := by
  have h : ∀ event : Option Nat, reached event 0 = none := by
    intro event
    cases event with
    | none => rfl
    | some n => simp [reached]; omega
  simp [flagAfter, h]

theorem reached_succ (event : Option Nat) (count : Nat) :
    reached event (count + 1) =
      if event = some (count + 1) then some (count + 1) else reached event count := by
  cases event with
  | none => rfl
  | some n =>
    by_cases h : n = count + 1
    · simp [reached, h, Option.filter]
    · have e : decide (1 ≤ n ∧ n ≤ count + 1) = decide (1 ≤ n ∧ n ≤ count) := by
        apply decide_eq_decide.2; omega
      simp [reached, h, Option.filter, e]

theorem reached_le {event : Option Nat} {count n : Nat} (h : reached event count = some n) :
    n ≤ count := by
  cases event with
  | none => simp [reached] at h
  | some m =>
    simp [reached, Option.filter] at h
    omega

/-- One more event changes the flag as scheduled for that event. -/
theorem flagAfter_succ (schedule : Schedule) (initial : Bool) (count : Nat) :
    schedule.flagAfter initial (count + 1) =
      schedule.press (count + 1) (schedule.flagAfter initial count) := by
  unfold flagAfter press
  rw [reached_succ, reached_succ]
  by_cases hc : schedule.clearAt = some (count + 1)
  · simp only [hc, if_true]
    by_cases hr : schedule.raiseAt = some (count + 1)
    · simp [hr]
    · simp only [hr, if_false]
      cases h : reached schedule.raiseAt count with
      | none => rfl
      | some n =>
        have := reached_le h
        simp; omega
  · simp only [hc, if_false]
    by_cases hr : schedule.raiseAt = some (count + 1)
    · simp only [hr, if_true]
      cases h : reached schedule.clearAt count with
      | none => rfl
      | some n =>
        have := reached_le h
        simp; omega
    · simp only [hr, if_false]

/-- The signal of a run that starts with the given flag. -/
def signal (schedule : Schedule) (initial : Bool) : Signal :=
  fun journal => schedule.flagAfter initial journal.events.size

end Schedule

end ExactCalculator
