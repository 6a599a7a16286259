import Wasmtime.Environ.VmOffsets
import Wasmtime.Runtime.Memory

/-!
# Tables

Model of `Table` (`wasmtime-runtime/src/table.rs`). An element is a `VMCallerCheckedAnyfunc`, kept
opaque as `Fn`; the default, a null function, is `none`. Where the vector lies is the allocator's
answer. `vec.len()` fits a `u32` in every state of a run (`run_bound`), so the `try_into().unwrap()`
of `size` and `vmtable` never fail and `size` is a `Nat`.

Result: `run_bound`, the size of a table over whole runs.
-/

namespace Wasmtime.Runtime

open Environ

/-- `VMTableDefinition`: what compiled code sees of a table. -/
structure VMTableDefinition where
  base : Nat
  currentElements : Nat
  deriving DecidableEq, Repr

/-- `Table`. -/
structure Table (Fn : Type) where
  vec : List (Option Fn)
  /-- Where the vector lies. -/
  ptr : Nat
  maximum : Option UInt32

namespace Table

variable {Fn : Type}

/-- `Table::new`. -/
def new (alloc : Nat) (plan : TablePlan) : Outcome (Table Fn) :=
  match plan.table.ty with
  | .val _ => .panic .tableElementType
  | .func =>
    match plan.style with
    | .callerChecksSignature => .ok {
        vec := List.replicate plan.table.minimum.toNat none
        ptr := alloc
        maximum := plan.table.maximum }

/-- `Table::size`. -/
def size (t : Table Fn) : Nat := t.vec.length

/-- `Vec::resize` to a length that is not smaller. -/
def resize (t : Table Fn) (alloc newLen : Nat) : Table Fn :=
  { t with vec := t.vec ++ List.replicate (newLen - t.vec.length) none, ptr := alloc }

/-- `Table::grow`, with the table it leaves. -/
def grow (t : Table Fn) (alloc : Nat) (delta : UInt32) : Option Nat × Table Fn :=
  match checkedAddU32 t.size delta.toNat with
  | none => (none, t)
  | some newLen =>
    match t.maximum with
    | some max => if newLen > max.toNat then (none, t) else (some newLen, t.resize alloc newLen)
    | none => (some newLen, t.resize alloc newLen)

/-- `Table::vmtable`. -/
def vmtable (t : Table Fn) : VMTableDefinition := ⟨t.ptr, t.vec.length⟩

/-- `Table::get_mut` and a store through it. -/
def set (t : Table Fn) (index : Nat) (f : Option Fn) : Table Fn := { t with vec := t.vec.set index f }

/-- The states a table planned as `plan` goes through. -/
inductive Run (plan : TablePlan) : Table Fn → Prop
  | new {alloc : Nat} {t : Table Fn} (h : new alloc plan = .ok t) : Run plan t
  | grow {alloc : Nat} {delta : UInt32} {t : Table Fn} (ht : Run plan t) :
      Run plan (t.grow alloc delta).2
  | set {index : Nat} {f : Option Fn} {t : Table Fn} (ht : Run plan t) : Run plan (t.set index f)

/-- The invariant of a run: between the declared limits, counted in `u32`. -/
structure Bound (plan : TablePlan) (t : Table Fn) : Prop where
  maximum_eq : t.maximum = plan.table.maximum
  minimum_le : plan.table.minimum.toNat ≤ t.size
  le_maximum : ∀ max, plan.table.maximum = some max → t.size ≤ max.toNat
  lt : t.size < 2 ^ 32

variable {plan : TablePlan} {t : Table Fn}

theorem size_resize (t : Table Fn) (alloc : Nat) {newLen : Nat} (h : t.size ≤ newLen) :
    (t.resize alloc newLen).size = newLen := by
  unfold resize size at *
  rw [List.length_append, List.length_replicate]
  omega

/-- What a `grow` can do: fail and leave the table, or grow it within its maximum. -/
theorem grow_cases (t : Table Fn) (alloc : Nat) (delta : UInt32) :
    t.grow alloc delta = (none, t) ∨
    ∃ newLen, newLen = t.size + delta.toNat ∧ newLen < 2 ^ 32 ∧
      (∀ max, t.maximum = some max → newLen ≤ max.toNat) ∧
      t.grow alloc delta = (some newLen, t.resize alloc newLen) := by
  unfold grow
  cases hadd : checkedAddU32 t.size delta.toNat with
  | none => exact Or.inl rfl
  | some newLen =>
    obtain ⟨hlen, hlt⟩ := checkedAddU32_eq_some.mp hadd
    cases hmax : t.maximum with
    | none => exact Or.inr ⟨newLen, hlen, hlt, by simp, rfl⟩
    | some max =>
      by_cases hgt : newLen > max.toNat
      · exact Or.inl (if_pos hgt)
      · refine Or.inr ⟨newLen, hlen, hlt, fun max' h => ?_, if_neg hgt⟩
        obtain rfl := Option.some.inj h
        exact Nat.not_lt.mp hgt

theorem bound_new {alloc : Nat} (hp : plan.table.Limited)
    (h : (new alloc plan : Outcome (Table Fn)) = .ok t) : Bound plan t := by
  unfold new at h
  split at h
  · exact absurd h (by simp)
  · obtain rfl := Ending.ok.inj h
    refine ⟨rfl, ?_, fun max hmax => ?_, ?_⟩
    · simp [size]
    · simpa [size] using UInt32.le_iff_toNat_le.mp (hp max hmax)
    · simpa [size] using plan.table.minimum.toNat_lt

/-- **The size of a table over whole runs.** -/
theorem run_bound (hp : plan.table.Limited) (h : Run plan t) : Bound plan t := by
  induction h with
  | new h => exact bound_new hp h
  | grow ht ih =>
    rename_i alloc delta t
    rcases grow_cases t alloc delta with h | ⟨newLen, hlen, hlt, hmax, h⟩
    · rw [h]
      exact ih
    · have hsize := size_resize t alloc (by omega : t.size ≤ newLen)
      have hmin := ih.minimum_le
      rw [h]
      refine ⟨ih.maximum_eq, ?_, fun max hm => ?_, ?_⟩
      · rw [hsize]
        omega
      · rw [hsize]
        exact hmax max (ih.maximum_eq.trans hm)
      · rw [hsize]
        exact hlt
  | set ht ih =>
    refine ⟨ih.maximum_eq, ?_, fun max hm => ?_, ?_⟩
    · simpa [set, size] using ih.minimum_le
    · simpa [set, size] using ih.le_maximum max hm
    · simpa [set, size] using ih.lt

end Table

end Wasmtime.Runtime
