import Mathlib

/-!
# Longest prefixes of sorted lists

A budget is a property `P` of lists that holds of the prefixes of what it holds of. The longest prefix of a list
that meets it is what is kept when the rest is dropped.

* `IsLongestPrefix.take_iff`: the prefixes that meet the budget are those that are no longer.
* `IsLongestPrefix.mem_take_iff`: in a list that is sorted by a key, an element that shares its key with no
  other is kept exactly when the elements that do not come after it meet the budget.
-/

namespace LongestPrefix

variable {α κ : Type}

/-- What holds of a list holds of its prefixes. -/
def PrefixClosed (P : List α → Prop) : Prop := ∀ l l', P (l ++ l') → P l

/-- `l.take n` is the longest prefix with the property. -/
structure IsLongestPrefix (P : List α → Prop) (l : List α) (n : Nat) : Prop where
  le : n ≤ l.length
  holds : P (l.take n)
  stops : n < l.length → ¬ P (l.take (n + 1))

variable {P : List α → Prop} {l l' : List α} {n : Nat}

theorem PrefixClosed.take (hP : PrefixClosed P) {m : Nat} (hmn : m ≤ n) (h : P (l.take n)) :
    P (l.take m) := by
  have hsplit : l.take n = l.take m ++ (l.drop m).take (n - m) := by
    rw [← List.take_add, Nat.add_sub_cancel' hmn]
  exact hP _ _ (hsplit ▸ h)

/-- The prefixes with the property are those that are no longer. -/
theorem IsLongestPrefix.take_iff (hP : PrefixClosed P) (h : IsLongestPrefix P l n) {m : Nat}
    (hm : m ≤ l.length) : P (l.take m) ↔ m ≤ n := by
  refine ⟨fun hholds => ?_, fun hmn => hP.take hmn h.holds⟩
  by_contra hlt
  exact h.stops (by omega) (hP.take (by omega) hholds)

/-! ## Sorted lists -/

section

variable [LinearOrder κ] {key : α → κ} {e : α}

/-- No other element has the key. -/
def Alone (key : α → κ) (l : List α) (e : α) : Prop :=
  e ∈ l ∧ (l.filter fun x => key x = key e).length = 1

theorem Alone.perm (h : Alone key l e) (hl : l.Perm l') : Alone key l' e :=
  ⟨hl.mem_iff.mp h.1, (hl.filter _).length_eq ▸ h.2⟩

/-- An element that is alone is on one side of a cut. -/
theorem Alone.mem_drop_iff (h : Alone key l e) (n : Nat) : e ∈ l.drop n ↔ e ∉ l.take n := by
  have hmem := h.1
  have hone := h.2
  rw [← List.take_append_drop n l, List.mem_append] at hmem
  rw [← List.take_append_drop n l, List.filter_append, List.length_append] at hone
  refine ⟨fun hdrop htake => ?_, hmem.resolve_left⟩
  have hpos {m : List α} (hm : e ∈ m) : 0 < (m.filter fun x => key x = key e).length :=
    List.length_pos_of_mem (List.mem_filter.mpr ⟨hm, decide_eq_true rfl⟩)
  have := hpos hdrop
  have := hpos htake
  omega

/-- An element that is alone splits a sorted list. -/
theorem Alone.split (hsorted : l.Pairwise fun x y => key y ≤ key x) (h : Alone key l e) :
    ∃ a b, l = a ++ e :: b ∧ (∀ x ∈ a, key e < key x) ∧ ∀ x ∈ b, key x < key e := by
  obtain ⟨a, b, rfl⟩ := List.append_of_mem h.1
  have hone := h.2
  rw [List.filter_append, List.filter_cons_of_pos (by simp), List.length_append, List.length_cons] at hone
  have hlone {m : List α} (hm : (m.filter fun x => key x = key e).length = 0) (x : α) (hx : x ∈ m) :
      key x ≠ key e := fun heq => by
    have hmem : x ∈ m.filter fun x => key x = key e := List.mem_filter.mpr ⟨hx, decide_eq_true heq⟩
    rw [List.length_eq_zero_iff.mp hm] at hmem
    cases hmem
  obtain ⟨-, hb, hab⟩ := List.pairwise_append.mp hsorted
  refine ⟨a, b, rfl, fun x hx => ?_, fun x hx => ?_⟩
  · exact lt_of_le_of_ne (hab x hx e List.mem_cons_self) (hlone (by omega) x hx).symm
  · exact lt_of_le_of_ne ((List.pairwise_cons.mp hb).1 x hx) (hlone (by omega) x hx)

/-- An element that is alone is kept exactly when those that do not come after it meet the budget. -/
theorem IsLongestPrefix.mem_take_iff (hP : PrefixClosed P) (h : IsLongestPrefix P l n)
    (hsorted : l.Pairwise fun x y => key y ≤ key x) (halone : Alone key l e) :
    e ∈ l.take n ↔ P (l.filter fun x => key e ≤ key x) := by
  obtain ⟨a, b, rfl, ha, hb⟩ := halone.split hsorted
  have hfilter : (a ++ e :: b).filter (fun x => key e ≤ key x) = (a ++ e :: b).take (a.length + 1) := by
    rw [List.filter_append, List.filter_eq_self.mpr fun x hx => decide_eq_true (ha x hx).le,
      List.filter_cons_of_pos (by simp), List.filter_eq_nil_iff.mpr fun x hx => by simpa using hb x hx,
      List.take_length_add_append, List.take_succ_cons, List.take_zero]
  rw [hfilter, h.take_iff hP (by simp), List.take_append, List.mem_append]
  have hnot : e ∉ a.take n := fun he => lt_irrefl _ (ha e (List.mem_of_mem_take he))
  rw [or_iff_right hnot]
  constructor
  · intro he
    by_contra hle
    rw [Nat.sub_eq_zero_of_le (by omega)] at he
    cases he
  · intro hle
    obtain ⟨k, hk⟩ : ∃ k, n - a.length = k + 1 := ⟨n - a.length - 1, by omega⟩
    rw [hk, List.take_succ_cons]
    exact List.mem_cons_self

end

end LongestPrefix
