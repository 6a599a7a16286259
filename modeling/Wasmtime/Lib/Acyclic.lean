import Mathlib

/-!
# Recursion over a finite graph

What is reached from a node of a relation, when only finitely many nodes are: following the relation comes to
an end on every path exactly when no node that is reached leads back to itself (`acc_iff`).
-/

namespace Acyclic

open Relation

variable {α : Type} {r : α → α → Prop} {a b : α}

/-- A node from which every path ends does not lead to itself. -/
theorem not_self_of_acc {s : α → α → Prop} (h : Acc s a) : ¬ s a a := by
  induction h with
  | intro a _ ih => exact fun hself => ih a hself hself

/-- Every path from what is reached ends if every path from the start does. -/
theorem acc_of_reflTransGen (h : Acc (Function.swap r) a) (hab : ReflTransGen r a b) :
    Acc (Function.swap r) b := by
  induction hab with
  | refl => exact h
  | tail _ hbc ih => exact ih.inv hbc

theorem transGen_of_lt {f : Nat → α} (hf : ∀ n, r (f n) (f (n + 1))) {i j : Nat} (hij : i < j) :
    TransGen r (f i) (f j) := by
  induction j, hij using Nat.le_induction with
  | base => exact .single (hf i)
  | succ j _ ih => exact ih.tail (hf j)

/-- **Headline.** Every path from a node ends iff no node that is reached from it leads back to itself. -/
theorem acc_iff (hfinite : {b | ReflTransGen r a b}.Finite) :
    Acc (Function.swap r) a ↔ ∀ b, ReflTransGen r a b → ¬ TransGen r b b := by
  constructor
  · intro h b hab hcycle
    exact not_self_of_acc (acc_of_reflTransGen h hab).transGen (transGen_swap.mpr hcycle)
  · intro hall
    by_contra hacc
    obtain ⟨f, rfl, hf⟩ := not_acc_iff_exists_descending_chain.mp hacc
    -- a path that goes on for ever comes by some node twice
    have hreach : ∀ n, ReflTransGen r (f 0) (f n) := fun n => by
      induction n with
      | zero => exact .refl
      | succ n ih => exact ih.tail (hf n)
    have hrepeat : ¬ Function.Injective f := fun hinj =>
      Set.infinite_of_injective_forall_mem hinj hreach hfinite
    obtain ⟨i, j, heq, hne⟩ := Function.not_injective_iff.mp hrepeat
    rcases Nat.lt_or_gt_of_ne hne with hlt | hlt
    · have hcycle := transGen_of_lt hf hlt
      rw [← heq] at hcycle
      exact hall (f i) (hreach i) hcycle
    · have hcycle := transGen_of_lt hf hlt
      rw [← heq] at hcycle
      exact hall (f i) (hreach i) hcycle

end Acyclic
