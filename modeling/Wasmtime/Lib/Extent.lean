import Mathlib

/-!
# Extents

An extent is a start and a length, and covers the points from its start on. Extents are apart when no
point is in both, so an empty extent is apart from every extent.

* `Within`: one extent lies in another.
* `consecutive start lens`: extents of the given lengths, one after the other.

Results: `Apart.mono` (what lies in extents that are apart is apart), `apart_of_stop_le`,
and `consecutive_within` (consecutive extents are in the sum of their lengths).
-/

/-- The points `start`, …, `start + len - 1`. -/
@[ext] structure Extent where
  start : Nat
  len : Nat
  deriving DecidableEq, Repr

namespace Extent

/-- The first point after an extent. -/
def stop (e : Extent) : Nat := e.start + e.len

/-- A point of an extent. -/
def Covers (e : Extent) (x : Nat) : Prop := e.start ≤ x ∧ x < e.stop

/-- No point is in both. -/
def Apart (e f : Extent) : Prop := ∀ x, e.Covers x → ¬ f.Covers x

/-- One extent lies in another, empty ones included. -/
def Within (e f : Extent) : Prop := f.start ≤ e.start ∧ e.stop ≤ f.stop

/-- Extents one after the other. -/
def consecutive (start : Nat) : List Nat → List Extent
  | [] => []
  | n :: ns => ⟨start, n⟩ :: consecutive (start + n) ns

theorem Apart.symm {e f : Extent} (h : e.Apart f) : f.Apart e := fun x hf he => h x he hf

theorem Within.covers {e f : Extent} (h : e.Within f) {x : Nat} (hx : e.Covers x) : f.Covers x :=
  ⟨Nat.le_trans h.1 hx.1, Nat.lt_of_lt_of_le hx.2 h.2⟩

theorem Within.trans {e f g : Extent} (h : e.Within f) (h' : f.Within g) : e.Within g :=
  ⟨Nat.le_trans h'.1 h.1, Nat.le_trans h.2 h'.2⟩

theorem Within.refl (e : Extent) : e.Within e := ⟨Nat.le_refl _, Nat.le_refl _⟩

theorem apart_of_stop_le {e f : Extent} (h : e.stop ≤ f.start) : e.Apart f :=
  fun _ he hf => Nat.lt_irrefl _ (Nat.lt_of_lt_of_le he.2 (Nat.le_trans h hf.1))

/-- What lies in extents that are apart is apart. -/
theorem Apart.mono {e f e' f' : Extent} (h : e.Apart f) (he : e'.Within e) (hf : f'.Within f) :
    e'.Apart f' := fun x hx hx' => h x (he.covers hx) (hf.covers hx')

/-! ## Consecutive extents -/

theorem consecutive_map_len (start : Nat) (ns : List Nat) :
    (consecutive start ns).map len = ns := by
  induction ns generalizing start with
  | nil => rfl
  | cons n ns ih => rw [consecutive, List.map_cons, ih]

/-- Consecutive extents lie between their start and the sum of their lengths. -/
theorem consecutive_within {start : Nat} {ns : List Nat} {e : Extent}
    (he : e ∈ consecutive start ns) : e.Within ⟨start, ns.sum⟩ := by
  induction ns generalizing start with
  | nil => exact absurd he List.not_mem_nil
  | cons n ns ih =>
    rw [Within, stop, stop, List.sum_cons]
    obtain rfl | he := List.mem_cons.mp he
    · exact ⟨Nat.le_refl _, Nat.add_le_add_left (Nat.le_add_right _ _) _⟩
    · obtain ⟨hstart, hstop⟩ := ih he
      exact ⟨Nat.le_trans (Nat.le_add_right _ _) hstart, Nat.le_trans hstop (Nat.le_of_eq (Nat.add_assoc ..))⟩

end Extent
