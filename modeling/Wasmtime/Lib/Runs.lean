import Mathlib

/-!
# Runs

A system that takes one step for each event. `Along` is a condition on every step of a run, read in the state
before the step: what the surroundings promise.

Results:
* `Along.inv`: an invariant that the steps keep under the condition holds at the end of the run.
* `Along.rel`: what each of these steps relates, the run relates from its start to its end.
-/

namespace Runs

variable {S E : Type*} (step : S → E → S)

/-- The state after the events. -/
def run (s : S) (events : List E) : S := events.foldl step s

/-- A condition on every step of a run. -/
def Along (P : S → E → Prop) : S → List E → Prop
  | _, [] => True
  | s, e :: events => P s e ∧ Along P (step s e) events

variable {step} {P : S → E → Prop} {Inv : S → Prop} {R : S → S → Prop} {s : S} {events later : List E}

@[simp] theorem run_nil (s : S) : run step s [] = s := rfl

@[simp] theorem run_cons (s : S) (e : E) (events : List E) :
    run step s (e :: events) = run step (step s e) events := rfl

theorem run_append (s : S) (events later : List E) :
    run step s (events ++ later) = run step (run step s events) later := List.foldl_append ..

/-- A run in two parts. -/
theorem along_append : Along step P s (events ++ later) ↔
    Along step P s events ∧ Along step P (run step s events) later := by
  induction events generalizing s with
  | nil => simp [Along]
  | cons e events ih => rw [List.cons_append, Along, Along, ih, run_cons, and_assoc]

theorem Along.take (h : Along step P s events) (n : Nat) : Along step P s (events.take n) := by
  rw [← List.take_append_drop n events, along_append] at h
  exact h.1

/-- The invariant rule. -/
theorem Along.inv (h : Along step P s events) (hs : Inv s)
    (hstep : ∀ s e, Inv s → P s e → Inv (step s e)) : Inv (run step s events) := by
  induction events generalizing s with
  | nil => exact hs
  | cons e events ih => exact ih h.2 (hstep s e hs h.1)

/-- The rule for what a run relates; the relation may use the invariant. -/
theorem Along.rel (h : Along step P s events) (hs : Inv s)
    (hstep : ∀ s e, Inv s → P s e → Inv (step s e) ∧ R s (step s e)) (hrefl : ∀ s, R s s)
    (htrans : ∀ a b c, R a b → R b c → R a c) : R s (run step s events) := by
  induction events generalizing s with
  | nil => exact hrefl s
  | cons e events ih =>
    obtain ⟨hinv, hrel⟩ := hstep s e hs h.1
    exact htrans _ _ _ hrel (ih h.2 hinv)

end Runs
