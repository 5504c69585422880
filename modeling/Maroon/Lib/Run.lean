import Mathlib.Data.List.Basic

/-!
# Runs of a deterministic system

`step s e` is the state after the event `e` in the state `s`, and a run is a
list of events from a state on, oldest first.  `Throughout step P s events`
says that `P` holds of every state of the run, of the first and of the last
too.  `Along step P s events` says that `P` holds of every event together with
the state it finds.

`Along.throughout` is the rule of invariants.  `throughout_iff_along` is for a
property that some events break: what is good stays good in exactly those runs
whose events all meet the condition that decides it for one step.
-/

namespace Lib

variable {σ ε : Type} {step : σ → ε → σ}

/-- Every event of the run finds a state that it is in relation `P` to. -/
def Along (step : σ → ε → σ) (P : σ → ε → Prop) : σ → List ε → Prop
  | _, [] => True
  | s, e :: events => P s e ∧ Along step P (step s e) events

/-- Every state of the run has the property. -/
def Throughout (step : σ → ε → σ) (P : σ → Prop) : σ → List ε → Prop
  | s, [] => P s
  | s, e :: events => P s ∧ Throughout step P (step s e) events

namespace Throughout

theorem first {P : σ → Prop} {s : σ} {events : List ε} (h : Throughout step P s events) :
    P s := by
  cases events with
  | nil => exact h
  | cons e events => exact h.1

theorem last {P : σ → Prop} {s : σ} {events : List ε} (h : Throughout step P s events) :
    P (events.foldl step s) := by
  induction events generalizing s with
  | nil => exact h
  | cons e events ih => exact ih h.2

/-- What follows from a property of the state for the events that may come. -/
theorem along {P : σ → Prop} {Allowed Q : σ → ε → Prop}
    (himp : ∀ s e, P s → Allowed s e → Q s e) {s : σ} {events : List ε}
    (h : Throughout step P s events) (hallowed : Along step Allowed s events) :
    Along step Q s events := by
  induction events generalizing s with
  | nil => trivial
  | cons e events ih => exact ⟨himp s e h.1 hallowed.1, ih h.2 hallowed.2⟩

end Throughout

/-- What every event that may come keeps holds throughout. -/
theorem Along.throughout {Allowed : σ → ε → Prop} {I : σ → Prop}
    (keep : ∀ s e, I s → Allowed s e → I (step s e)) {s : σ} {events : List ε}
    (h : Along step Allowed s events) (init : I s) : Throughout step I s events := by
  induction events generalizing s with
  | nil => exact init
  | cons e events ih => exact ⟨init, ih h.2 (keep s e init h.1)⟩

/-- A property that one step keeps exactly under `Ok` holds throughout exactly
the runs whose events meet `Ok`.  The invariant `I` is known of every state. -/
theorem throughout_iff_along {Allowed Ok : σ → ε → Prop} {I Good : σ → Prop}
    (keep : ∀ s e, I s → Allowed s e → I (step s e))
    (sharp : ∀ s e, I s → Good s → Allowed s e → (Good (step s e) ↔ Ok s e))
    {s : σ} {events : List ε} (h : Along step Allowed s events) (init : I s) (good : Good s) :
    Throughout step Good s events ↔ Along step Ok s events := by
  induction events generalizing s with
  | nil => exact iff_of_true good trivial
  | cons e events ih =>
      have hstep := sharp s e init good h.1
      have hnext := keep s e init h.1
      constructor
      · intro hall
        have hgood := hall.2.first
        exact ⟨hstep.mp hgood, (ih h.2 hnext hgood).mp hall.2⟩
      · intro hok
        have hgood := hstep.mpr hok.1
        exact ⟨good, (ih h.2 hnext hgood).mpr hok.2⟩

end Lib
