import Mathlib.Data.List.Induction
import Mathlib.Logic.Function.Basic

/-!
# The last write wins

A store of cells, a list of writes to it, and what a cell holds after them: the value last written to
it, or what it held before (`replay_apply`).
-/

namespace LastWrite

variable {κ α : Type} [DecidableEq κ]

/-- The store after the writes, made in order. -/
def replay (c : κ → α) (ws : List (κ × α)) : κ → α :=
  ws.foldl (fun c w => Function.update c w.1 w.2) c

/-- The value last written to a cell. -/
def lastWrite (ws : List (κ × α)) (k : κ) : Option α :=
  (ws.reverse.find? fun w => w.1 = k).map Prod.snd

theorem replay_append (c : κ → α) (ws ws' : List (κ × α)) :
    replay c (ws ++ ws') = replay (replay c ws) ws' := List.foldl_append

/-- **The last write wins.** -/
theorem replay_apply (c : κ → α) (ws : List (κ × α)) (k : κ) :
    replay c ws k = (lastWrite ws k).getD (c k) := by
  induction ws using List.reverseRecOn with
  | nil => rfl
  | append_singleton ws w ih =>
    unfold lastWrite at ih ⊢
    rw [replay_append, List.reverse_append, List.reverse_singleton, List.singleton_append,
      List.find?_cons]
    by_cases hk : w.1 = k
    · subst hk
      simp [replay]
    · have hne : k ≠ w.1 := fun h => hk h.symm
      simp only [replay, List.foldl_cons, List.foldl_nil, Function.update_of_ne hne, decide_eq_false hk]
      exact ih

end LastWrite
