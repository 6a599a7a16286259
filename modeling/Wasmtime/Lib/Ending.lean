import Mathlib.Data.List.Basic

/-!
# Endings

How a fallible computation ends: with a value, with an error, or with a panic. An error goes to the caller, who
may turn it into another one; a panic goes through to the end.

* `map`, `mapErr`, `bind`: what is made of a value, of an error, and the rest of a computation.
* `okOrElse`, `expect`: a missing value is an error, or a panic.

Results: `bind_eq_ok`, `bind_eq_panic` and `map_eq_ok`, which take a computation apart.
-/

/-- How a computation ends. -/
inductive Ending (ε π α : Type) where
  | ok (a : α)
  | err (e : ε)
  | panic (p : π)
  deriving DecidableEq, Repr

namespace Ending

variable {ε ε' π α β : Type}

def map (f : α → β) : Ending ε π α → Ending ε π β
  | ok a => ok (f a)
  | err e => err e
  | panic p => panic p

def mapErr (r : Ending ε π α) (f : ε → ε') : Ending ε' π α :=
  match r with
  | ok a => ok a
  | err e => err (f e)
  | panic p => panic p

/-- `?`, with panics passed on. -/
def bind (r : Ending ε π α) (f : α → Ending ε π β) : Ending ε π β :=
  match r with
  | ok a => f a
  | err e => err e
  | panic p => panic p

/-- A missing value is an error. -/
def okOrElse (e : ε) : Option α → Ending ε π α
  | some a => ok a
  | none => err e

/-- A missing value is a panic. -/
def expect (p : π) : Option α → Ending ε π α
  | some a => ok a
  | none => panic p

@[simp] theorem ok_bind (a : α) (f : α → Ending ε π β) : (ok a).bind f = f a := rfl

@[simp] theorem err_bind (e : ε) (f : α → Ending ε π β) : (err e).bind f = err e := rfl

@[simp] theorem panic_bind (p : π) (f : α → Ending ε π β) : (panic p).bind f = panic p := rfl

@[simp] theorem map_ok (f : α → β) (a : α) : (ok a : Ending ε π α).map f = ok (f a) := rfl

@[simp] theorem expect_some (p : π) (a : α) : (expect p (some a) : Ending ε π α) = ok a := rfl

section

variable {r : Ending ε π α} {b : β} {p : π}

theorem bind_eq_ok {f : α → Ending ε π β} : r.bind f = ok b ↔ ∃ a, r = ok a ∧ f a = ok b := by
  cases r <;> simp

/-- A panic comes from the first part or from the rest. -/
theorem bind_eq_panic {f : α → Ending ε π β} :
    r.bind f = panic p ↔ r = panic p ∨ ∃ a, r = ok a ∧ f a = panic p := by
  cases r <;> simp

/-- When the rest does not panic. -/
theorem bind_ne_panic {f : α → Ending ε π β} (hf : ∀ a, f a ≠ panic p) :
    r.bind f ≠ panic p ↔ r ≠ panic p := by
  rw [Ne, bind_eq_panic, not_or]
  refine and_iff_left ?_
  rintro ⟨a, -, h⟩
  exact hf a h

theorem map_eq_ok {f : α → β} : r.map f = ok b ↔ ∃ a, r = ok a ∧ f a = b := by
  cases r <;> simp [map]

theorem expect_eq_ok {o : Option α} {a : α} : (expect p o : Ending ε π α) = ok a ↔ o = some a := by
  cases o <;> simp [expect]

@[simp] theorem mapErr_eq_ok {f : ε → ε'} {a : α} : r.mapErr f = ok a ↔ r = ok a := by
  cases r <;> simp [mapErr]

end

end Ending
