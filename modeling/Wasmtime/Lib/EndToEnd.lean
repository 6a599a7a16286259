import Mathlib

/-!
# Intervals laid end to end

Half-open intervals, each of which starts where the one before it ends. One that ends before it starts holds
no point, but those around it then share some.

Results:
* `holding_add`: a point is held once more often than it is run back over, if it lies between the two ends.
* `within`: intervals none of which runs back lie between the two ends.
* `partitions_iff`: the intervals partition what lies between the two ends exactly when none runs back.
-/

namespace EndToEnd

variable {α : Type} [LinearOrder α]

/-- Intervals from `a` to `b`, each starting where the one before it ends. -/
def Laid (b : α) : α → List (α × α) → Prop
  | a, [] => a = b
  | a, p :: ps => p.1 = a ∧ Laid b p.2 ps

/-- How many intervals hold a point. -/
def holding (ps : List (α × α)) (x : α) : Nat := ps.countP fun p => decide (p.1 ≤ x ∧ x < p.2)

/-- How many intervals run back over a point. -/
def backOver (ps : List (α × α)) (x : α) : Nat := ps.countP fun p => decide (p.2 ≤ x ∧ x < p.1)

/-- Every point from `a` on and before `b` lies in one of the intervals, and no other point in any. -/
def Partitions (a b : α) (ps : List (α × α)) : Prop :=
  ∀ x, holding ps x = if a ≤ x ∧ x < b then 1 else 0

variable {a b : α} {ps : List (α × α)}

/-- Every interval takes the count of its own points from its start to its end. -/
theorem holding_add (h : Laid b a ps) (x : α) :
    holding ps x + (if b ≤ x then 1 else 0) = backOver ps x + if a ≤ x then 1 else 0 := by
  induction ps generalizing a with
  | nil =>
    obtain rfl : a = b := h
    rfl
  | cons p ps ih =>
    obtain ⟨rfl, hps⟩ := h
    have hrest := ih hps
    unfold holding backOver at hrest ⊢
    rw [List.countP_cons, List.countP_cons]
    have hp : (if decide (p.1 ≤ x ∧ x < p.2) = true then 1 else 0) + (if p.2 ≤ x then 1 else 0) =
        (if decide (p.2 ≤ x ∧ x < p.1) = true then 1 else 0) + if p.1 ≤ x then 1 else 0 := by
      by_cases h₁ : p.1 ≤ x <;> by_cases h₂ : p.2 ≤ x <;> simp [h₁, h₂, not_lt.mpr, not_le.mp]
    omega

theorem backOver_eq_zero (h : ∀ p ∈ ps, p.1 ≤ p.2) (x : α) : backOver ps x = 0 := by
  refine List.countP_eq_zero.mpr fun p hp => ?_
  rw [decide_eq_true_iff]
  rintro ⟨hle, hlt⟩
  exact absurd (h p hp) (not_le.mpr (hle.trans_lt hlt))

/-- **Headline.** Intervals laid end to end partition what lies between the two ends iff none runs back. -/
theorem partitions_iff (h : Laid b a ps) (hab : a ≤ b) :
    Partitions a b ps ↔ ∀ p ∈ ps, p.1 ≤ p.2 := by
  have hcount : ∀ x, holding ps x = backOver ps x + if a ≤ x ∧ x < b then 1 else 0 := by
    intro x
    have hadd := holding_add h x
    by_cases hb : b ≤ x
    · have hax := hab.trans hb
      simp only [hb, hax, if_true] at hadd
      simp only [not_lt.mpr hb, and_false, if_false]
      omega
    · simp only [hb, if_false] at hadd
      simpa [not_le.mp hb] using hadd
  constructor
  · intro hpart p hp
    -- the point an interval ends at is run back over
    by_contra hlt
    have hzero : backOver ps p.2 = 0 := by
      have h₁ := hcount p.2
      rw [hpart p.2] at h₁
      omega
    refine List.countP_eq_zero.mp hzero p hp (decide_eq_true_iff.mpr ⟨le_rfl, not_le.mp hlt⟩)
  · intro hall x
    rw [hcount x, backOver_eq_zero hall, Nat.zero_add]

/-- Where none runs back, all lie between the two ends. -/
theorem within (h : Laid b a ps) (hle : ∀ p ∈ ps, p.1 ≤ p.2) :
    a ≤ b ∧ ∀ p ∈ ps, a ≤ p.1 ∧ p.2 ≤ b := by
  induction ps generalizing a with
  | nil =>
    obtain rfl : a = b := h
    exact ⟨le_rfl, by simp⟩
  | cons p ps ih =>
    obtain ⟨rfl, hps⟩ := h
    obtain ⟨hp, hle⟩ := List.forall_mem_cons.mp hle
    obtain ⟨hend, hall⟩ := ih hps hle
    refine ⟨hp.trans hend, List.forall_mem_cons.mpr ⟨⟨le_rfl, hend⟩, fun q hq => ?_⟩⟩
    exact ⟨hp.trans (hall q hq).1, (hall q hq).2⟩

/-- None runs back iff the points at which they meet ascend. -/
theorem forall_le_iff (h : Laid b a ps) :
    (∀ p ∈ ps, p.1 ≤ p.2) ↔ List.IsChain (· ≤ ·) (ps.map Prod.fst ++ [b]) := by
  induction ps generalizing a with
  | nil => simp
  | cons p ps ih =>
    obtain ⟨rfl, hps⟩ := h
    rw [List.forall_mem_cons, ih hps]
    cases ps with
    | nil =>
      obtain rfl : p.2 = b := hps
      simp
    | cons q qs =>
      obtain ⟨hq, -⟩ := hps
      simp only [List.map_cons, List.cons_append, List.isChain_cons_cons, hq]

end EndToEnd
