import Mathlib

/-!
# Residues without bias

Numbers below `n` are reduced modulo `u`. Of those from `n % u` on, whose number is a multiple of `u`, every
residue takes the same part.

Results: `card_residue` (each residue is that of `n / u` numbers) and `lt_two_mul` (more than half of the numbers
are kept).
-/

namespace Residue

/-- The numbers that are kept. -/
def kept (n u : Nat) : Finset Nat := Finset.Ico (n % u) n

/-- In a window of the length of the modulus every residue occurs once. -/
theorem card_window {u r : Nat} (hr : r < u) (a : Nat) :
    ((Finset.Ico a (a + u)).filter fun x => x % u = r).card = 1 := by
  have hperiodic : Function.Periodic (fun x => x % u = r) u := fun x => by simp
  rw [Nat.filter_Ico_card_eq_of_periodic a u _ hperiodic, Nat.count_eq_card_filter_range]
  refine Finset.card_eq_one.mpr ⟨r, Finset.ext fun x => ?_⟩
  rw [Finset.mem_filter, Finset.mem_range, Finset.mem_singleton]
  constructor
  · rintro ⟨hx, hmod⟩
    rwa [Nat.mod_eq_of_lt hx] at hmod
  · rintro rfl
    exact ⟨hr, Nat.mod_eq_of_lt hr⟩

/-- In `k` windows every residue occurs `k` times. -/
theorem card_windows {u r : Nat} (hr : r < u) (a k : Nat) :
    ((Finset.Ico a (a + k * u)).filter fun x => x % u = r).card = k := by
  induction k with
  | zero => simp
  | succ k ih =>
    have hsplit : Finset.Ico a (a + (k + 1) * u) =
        Finset.Ico a (a + k * u) ∪ Finset.Ico (a + k * u) (a + k * u + u) := by
      rw [Finset.Ico_union_Ico_eq_Ico (Nat.le_add_right _ _) (Nat.le_add_right _ _)]
      congr 1
      ring
    have hdisjoint : Disjoint (Finset.Ico a (a + k * u)) (Finset.Ico (a + k * u) (a + k * u + u)) :=
      Finset.Ico_disjoint_Ico_consecutive _ _ _
    rw [hsplit, Finset.filter_union,
      Finset.card_union_of_disjoint (Finset.disjoint_filter_filter hdisjoint), ih, card_window hr]

/-- **Headline.** Every residue is that of `n / u` of the numbers that are kept. -/
theorem card_residue {u r : Nat} (hr : r < u) (n : Nat) :
    ((kept n u).filter fun x => x % u = r).card = n / u := by
  have hn : n = n % u + n / u * u := (Nat.mod_add_div' n u).symm
  unfold kept
  conv_lhs => rw [hn, Nat.add_mul_mod_self_right, Nat.mod_mod]
  exact card_windows hr (n % u) (n / u)

/-- More than half of the numbers are kept. -/
theorem lt_two_mul {n u : Nat} (hpos : 0 < u) (hle : u ≤ n) : n < 2 * (kept n u).card := by
  have hmod := Nat.mod_lt n hpos
  have hdiv := Nat.mod_add_div n u
  have hone := Nat.mul_le_mul_left u (Nat.div_pos hle hpos)
  rw [kept, Nat.card_Ico]
  omega

end Residue
