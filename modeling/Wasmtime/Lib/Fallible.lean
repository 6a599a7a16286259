import Mathlib.Data.List.Basic

/-!
# Lists of fallible steps

`mapM` over a list in `Option` and in `Except`: it succeeds with the results of the steps, in order, when every
step does.

Results: `mapM_eq_some`, `mapM_eq_ok`, and what they say of single elements, `exists_of_mapM` and
`mem_of_mapM`; `mapM_eq_error` finds the step that fails; `bind_eq_ok` takes a sequence of two steps apart.
-/

namespace Fallible

theorem mapM_eq_some {α β : Type} {f : α → Option β} {xs : List α} :
    ∀ {ys : List β}, xs.mapM f = some ys ↔ xs.map f = ys.map some := by
  induction xs with
  | nil =>
    intro ys
    cases ys <;> simp
  | cons x xs ih =>
    intro ys
    cases ys with
    | nil => cases hx : f x <;> simp [hx, Option.bind_eq_some_iff]
    | cons y ys => cases hx : f x <;> simp [hx, ih, Option.bind_eq_some_iff, and_comm]

theorem mapM_eq_ok {ε α β : Type} {f : α → Except ε β} {xs : List α} :
    ∀ {ys : List β}, xs.mapM f = .ok ys ↔ xs.map f = ys.map .ok := by
  induction xs with
  | nil =>
    intro ys
    cases ys <;> simp [pure, Except.pure]
  | cons x xs ih =>
    intro ys
    rw [List.mapM_cons]
    cases hx : f x with
    | error e => cases ys <;> simp [hx, bind, Except.bind]
    | ok y =>
      cases hxs : xs.mapM f with
      | error e =>
        have h : ∀ zs : List β, xs.map f ≠ zs.map .ok := fun zs hz => by
          rw [ih.mpr hz] at hxs
          cases hxs
        cases ys with
        | nil => simp [bind, Except.bind]
        | cons z zs => simp [hx, h zs, bind, Except.bind]
      | ok zs =>
        have h := ih.mp hxs
        cases ys with
        | nil => simp [bind, Except.bind, pure, Except.pure]
        | cons z zs' =>
          simp only [bind, Except.bind, pure, Except.pure, Except.ok.injEq, List.cons.injEq,
            List.map_cons, hx, h]
          rw [List.map_inj_right (fun a b hab => by simpa using hab)]

section

variable {ε α β : Type} {f : α → Except ε β} {xs : List α} {ys : List β}

theorem bind_eq_ok {r : Except ε α} {g : α → Except ε β} {b : β} (h : r.bind g = .ok b) :
    ∃ a, r = .ok a ∧ g a = .ok b := by
  cases r with
  | error e => cases h
  | ok a => exact ⟨a, rfl, h⟩

/-- Every element has its result. -/
theorem exists_of_mapM (h : xs.mapM f = .ok ys) {x : α} (hx : x ∈ xs) : ∃ y ∈ ys, f x = .ok y := by
  have hmem : f x ∈ xs.map f := List.mem_map_of_mem hx
  rw [mapM_eq_ok.mp h] at hmem
  obtain ⟨y, hy, heq⟩ := List.mem_map.mp hmem
  exact ⟨y, hy, heq.symm⟩

/-- Every result has its element. -/
theorem mem_of_mapM (h : xs.mapM f = .ok ys) {y : β} (hy : y ∈ ys) : ∃ x ∈ xs, f x = .ok y := by
  have hmem : Except.ok y ∈ ys.map (Except.ok : β → Except ε β) := List.mem_map_of_mem hy
  rw [← mapM_eq_ok.mp h] at hmem
  exact List.mem_map.mp hmem

/-- It fails at the first step that does. -/
theorem mapM_eq_error {e : ε} : xs.mapM f = .error e ↔
    ∃ pre x, pre ++ [x] <+: xs ∧ (∃ ys, pre.mapM f = .ok ys) ∧ f x = .error e := by
  induction xs with
  | nil =>
    constructor
    · intro h
      cases h
    · rintro ⟨pre, x, hpre, -⟩
      exact absurd (List.prefix_nil.mp hpre) (by simp)
  | cons a xs ih =>
    cases ha : f a with
    | error e' =>
      have hstops (zs : List α) : (a :: zs).mapM f = .error e' := by
        rw [List.mapM_cons, ha]
        rfl
      constructor
      · intro h
        obtain rfl := Except.error.inj ((hstops xs).symm.trans h)
        exact ⟨[], a, ⟨xs, rfl⟩, ⟨[], rfl⟩, ha⟩
      · rintro ⟨pre, x, hpre, ⟨ys, hys⟩, hx⟩
        cases pre with
        | nil =>
          obtain rfl := (List.cons_prefix_cons.mp hpre).1
          obtain rfl := Except.error.inj (ha.symm.trans hx)
          exact hstops xs
        | cons b pre =>
          obtain rfl := (List.cons_prefix_cons.mp hpre).1
          rw [hstops] at hys
          cases hys
    | ok b =>
      have hcons (zs : List α) : (a :: zs).mapM f = (zs.mapM f).bind fun ys => .ok (b :: ys) := by
        rw [List.mapM_cons, ha]
        rfl
      have herror : (a :: xs).mapM f = .error e ↔ xs.mapM f = .error e := by
        rw [hcons]
        cases xs.mapM f with
        | error e' => exact Iff.rfl
        | ok ys => exact iff_of_false (by simp [Except.bind]) (by simp)
      rw [herror, ih]
      constructor
      · rintro ⟨pre, x, hpre, ⟨ys, hys⟩, hx⟩
        refine ⟨a :: pre, x, List.cons_prefix_cons.mpr ⟨rfl, hpre⟩, ⟨b :: ys, ?_⟩, hx⟩
        rw [hcons, hys]
        rfl
      · rintro ⟨pre, x, hpre, ⟨ys, hys⟩, hx⟩
        cases pre with
        | nil =>
          obtain rfl := (List.cons_prefix_cons.mp hpre).1
          rw [ha] at hx
          cases hx
        | cons a' pre =>
          obtain ⟨rfl, htail⟩ := List.cons_prefix_cons.mp hpre
          rw [hcons] at hys
          obtain ⟨zs, hzs, -⟩ := bind_eq_ok hys
          exact ⟨pre, x, htail, ⟨zs, hzs⟩, hx⟩

end

end Fallible
