import Mathlib.Data.Nat.Bitwise
import Mathlib.Tactic.Common

/-!
# Memory and table plans

Model of the plan half of `wasmtime-environ/src/module.rs` (`MemoryStyle::for_memory`,
`MemoryPlan::for_memory`, `TableStyle::for_table`, `TablePlan::for_table`) and of
`wasmtime-environ/src/tunables.rs`. The declared types `Memory` and `Table` are those of
`cranelift_wasm` that these functions read.

* `u32` and `u64` fields are `UInt32` and `UInt64`; sizes in bytes are `Nat`, with the checked
  arithmetic of the source written out where it is made.
* `MemoryStyle::for_memory` asserts `static_memory_bound >= minimum` on its static branch. A
  failed assert is `none`; `MemoryType.forMemory_isSome` shows that a validated type never fails it.
* `MemoryType` is a `Memory` that passed validation: the bounds are fields, so an invalid one
  cannot be built.
-/

namespace Wasmtime.Environ

/-- `WASM_PAGE_SIZE`. -/
def wasmPageSize : Nat := 0x10000

/-- `WASM_MAX_PAGES`. -/
def wasmMaxPages : Nat := 0x10000

/-- `cranelift_wasm::Memory`: a declared linear memory, in wasm pages. -/
structure Memory where
  minimum : UInt32
  maximum : Option UInt32
  shared : Bool
  deriving DecidableEq, Repr

/-- A `Memory` the validator accepts: at most `WASM_MAX_PAGES` pages, minimum up to maximum. -/
structure MemoryType extends Memory where
  minimum_le : minimum.toNat ≤ wasmMaxPages
  maximum_le : ∀ max, maximum = some max → max.toNat ≤ wasmMaxPages
  minimum_le_maximum : ∀ max, maximum = some max → minimum.toNat ≤ max.toNat

/-- `(memory min)`. -/
def MemoryType.atLeast (minimum : UInt32) (h : minimum.toNat ≤ wasmMaxPages) : MemoryType where
  minimum
  maximum := none
  shared := false
  minimum_le := h
  maximum_le := fun _ he => absurd he (by simp)
  minimum_le_maximum := fun _ he => absurd he (by simp)

/-- `(memory 1)`. -/
def MemoryType.onePage : MemoryType := .atLeast 1 (by decide)

/-- `(memory min max)`. -/
def MemoryType.between (minimum maximum : UInt32) (hle : minimum.toNat ≤ maximum.toNat)
    (h : maximum.toNat ≤ wasmMaxPages) : MemoryType where
  minimum
  maximum := some maximum
  shared := false
  minimum_le := Nat.le_trans hle h
  maximum_le := fun _ he => Option.some.inj he ▸ h
  minimum_le_maximum := fun _ he => Option.some.inj he ▸ hle

/-- `cranelift_wasm::TableElementType`; `Val` carries an `ir::Type`, by its code. -/
inductive TableElementType where
  | val (ty : UInt8)
  | func
  deriving DecidableEq, Repr

/-- `cranelift_wasm::Table`: a declared table. -/
structure Table where
  ty : TableElementType
  minimum : UInt32
  maximum : Option UInt32
  deriving DecidableEq, Repr

/-- The limits of a table the validator accepts. -/
def Table.Limited (table : Table) : Prop :=
  ∀ max, table.maximum = some max → table.minimum ≤ max

/-- `Tunables`. -/
structure Tunables where
  /-- For static heaps, the size of the heap protected by bounds checking, in wasm pages. -/
  staticMemoryBound : UInt32
  /-- The size in bytes of the offset guard for static heaps. -/
  staticMemoryOffsetGuardSize : UInt64
  /-- The size in bytes of the offset guard for dynamic heaps. -/
  dynamicMemoryOffsetGuardSize : UInt64
  deriving DecidableEq, Repr

/-- `Tunables::default` on a 64-bit target. -/
def Tunables.default : Tunables where
  staticMemoryBound := 0x10000
  staticMemoryOffsetGuardSize := 0x80000000
  dynamicMemoryOffsetGuardSize := 0x10000

/-- `MemoryStyle`: a dynamic memory can be resized and moved, a static one is reserved up
front. -/
inductive MemoryStyle where
  | dynamic
  | static (bound : UInt32)
  deriving DecidableEq, Repr

/-- `MemoryStyle::for_memory`; `none` is the failed assert of the static branch. -/
def MemoryStyle.forMemory (memory : Memory) (tunables : Tunables) :
    Option (MemoryStyle × UInt64) :=
  match memory.maximum with
  | some maximum =>
    if maximum ≤ tunables.staticMemoryBound then
      -- A heap with a declared maximum can be immovable.
      if tunables.staticMemoryBound ≥ memory.minimum then
        some (.static tunables.staticMemoryBound, tunables.staticMemoryOffsetGuardSize)
      else none
    else some (.dynamic, tunables.dynamicMemoryOffsetGuardSize)
  | none => some (.dynamic, tunables.dynamicMemoryOffsetGuardSize)

/-- `MemoryPlan`. -/
structure MemoryPlan where
  memory : Memory
  style : MemoryStyle
  offsetGuardSize : UInt64
  deriving DecidableEq, Repr

/-- `MemoryPlan::for_memory`. -/
def MemoryPlan.forMemory (memory : Memory) (tunables : Tunables) : Option MemoryPlan :=
  (MemoryStyle.forMemory memory tunables).map fun (style, offsetGuardSize) =>
    { memory, style, offsetGuardSize }

/-- `TableStyle`. -/
inductive TableStyle where
  | callerChecksSignature
  deriving DecidableEq, Repr

/-- `TableStyle::for_table`. -/
def TableStyle.forTable (_table : Table) (_tunables : Tunables) : TableStyle :=
  .callerChecksSignature

/-- `TablePlan`. -/
structure TablePlan where
  table : Table
  style : TableStyle
  deriving DecidableEq, Repr

/-- `TablePlan::for_table`. -/
def TablePlan.forTable (table : Table) (tunables : Tunables) : TablePlan :=
  { table, style := TableStyle.forTable table tunables }

/-! ## What a memory plan says -/

section Plan

variable {memory : Memory} {tunables : Tunables} {plan : MemoryPlan}

/-- The two shapes of a plan. A static plan comes from a declared maximum within the static
bound and carries the static guard; every other plan is dynamic and carries the dynamic
guard. -/
theorem forMemory_cases (h : MemoryPlan.forMemory memory tunables = some plan) :
    (∃ maximum, memory.maximum = some maximum ∧ maximum ≤ tunables.staticMemoryBound ∧
      memory.minimum ≤ tunables.staticMemoryBound ∧
      plan = ⟨memory, .static tunables.staticMemoryBound,
        tunables.staticMemoryOffsetGuardSize⟩) ∨
    ((∀ maximum, memory.maximum = some maximum → tunables.staticMemoryBound < maximum) ∧
      plan = ⟨memory, .dynamic, tunables.dynamicMemoryOffsetGuardSize⟩) := by
  unfold MemoryPlan.forMemory MemoryStyle.forMemory at h
  cases hm : memory.maximum with
  | none =>
    rw [hm] at h
    refine Or.inr ⟨fun _ e => absurd e (by simp), ?_⟩
    simpa using h.symm
  | some maximum =>
    rw [hm] at h
    simp only at h
    split at h
    · rename_i hle
      split at h
      · rename_i hmin
        exact Or.inl ⟨maximum, rfl, hle, hmin, by simpa using h.symm⟩
      · simp at h
    · rename_i hle
      refine Or.inr ⟨fun m e => ?_, by simpa using h.symm⟩
      obtain rfl := Option.some.inj e
      exact UInt32.not_le.mp hle

theorem forMemory_memory (h : MemoryPlan.forMemory memory tunables = some plan) :
    plan.memory = memory := by
  rcases forMemory_cases h with ⟨_, _, _, _, rfl⟩ | ⟨_, rfl⟩ <;> rfl

end Plan

/-- The assert of `MemoryStyle::for_memory` holds for every validated memory type. -/
theorem MemoryType.forMemory_isSome (ty : MemoryType) (tunables : Tunables) :
    (MemoryPlan.forMemory ty.toMemory tunables).isSome = true := by
  unfold MemoryPlan.forMemory MemoryStyle.forMemory
  cases hm : ty.maximum with
  | none => rfl
  | some maximum =>
    simp only
    split
    · rename_i hle
      have hmin : ty.minimum ≤ tunables.staticMemoryBound := by
        have h1 := ty.minimum_le_maximum maximum hm
        exact UInt32.le_trans (UInt32.le_iff_toNat_le.mpr h1) hle
      rw [if_pos hmin]
      rfl
    · rfl

/-- The plan of a validated memory type. -/
def MemoryType.plan (ty : MemoryType) (tunables : Tunables) : MemoryPlan :=
  (MemoryPlan.forMemory ty.toMemory tunables).get (ty.forMemory_isSome tunables)

theorem MemoryType.forMemory_eq (ty : MemoryType) (tunables : Tunables) :
    MemoryPlan.forMemory ty.toMemory tunables = some (ty.plan tunables) := by
  simp [MemoryType.plan]

/-- What `MemoryPlan::for_memory` guarantees of the plan of a validated type: the limits are
validated ones, and a static plan reserves at least the declared maximum. -/
structure MemoryPlan.Ok (plan : MemoryPlan) : Prop where
  minimum_le : plan.memory.minimum.toNat ≤ wasmMaxPages
  maximum_le : ∀ max, plan.memory.maximum = some max → max.toNat ≤ wasmMaxPages
  minimum_le_maximum : ∀ max, plan.memory.maximum = some max → plan.memory.minimum ≤ max
  static : ∀ bound, plan.style = .static bound →
    ∃ max, plan.memory.maximum = some max ∧ max ≤ bound

theorem MemoryType.plan_ok (ty : MemoryType) (tunables : Tunables) : (ty.plan tunables).Ok := by
  have h := ty.forMemory_eq tunables
  have hm := forMemory_memory h
  refine ⟨by rw [hm]; exact ty.minimum_le, fun max e => ?_, fun max e => ?_, fun bound hb => ?_⟩
  · rw [hm] at e
    exact ty.maximum_le max e
  · rw [hm] at e ⊢
    exact UInt32.le_iff_toNat_le.mpr (ty.minimum_le_maximum max e)
  · rcases forMemory_cases h with ⟨max, hmax, hle, -, he⟩ | ⟨-, he⟩
    · rw [he] at hb ⊢
      obtain rfl := MemoryStyle.static.inj hb
      exact ⟨max, hmax, hle⟩
    · rw [he] at hb
      exact absurd hb (by simp)

/-- A static plan of a validated type reserves at least the declared minimum. -/
theorem MemoryPlan.Ok.minimum_le_bound {plan : MemoryPlan} (h : plan.Ok) {bound : UInt32}
    (hb : plan.style = .static bound) : plan.memory.minimum ≤ bound := by
  obtain ⟨max, hmax, hle⟩ := h.static bound hb
  exact UInt32.le_trans (h.minimum_le_maximum max hmax) hle

end Wasmtime.Environ
