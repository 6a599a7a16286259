import Mathlib.Data.List.Forall2
import Wasmtime.Environ.ModuleEnviron
import Wasmtime.Environ.VmOffsets
import Wasmtime.Runtime.Table

/-!
# Instances

Model of `Instance` (`wasmtime-runtime/src/instance.rs`): the tables and memories of an instance,
their copies in the `VMContext` that compiled code reads, `memory_grow` and `table_grow`, and
`lookup_by_declaration`.

* A `VMContext` is its arrays. A pointer to a definition is the instance it lies in and its index
  there; a pointer to a `VMContext` is the number of its instance.
* Element and data initializers, host state, the start function and the global export map are left
  out. What the initializers write is covered by `storeByte` and `storeElement`.

Result: `run_inv`, every memory and table of an instance is in a run of its plan, and its copy in the
`VMContext` is current.
-/

namespace Wasmtime.Runtime

open Environ

/-- A pointer to a table or memory definition: an instance and a defined index. -/
structure DefinitionPtr where
  vmctx : Nat
  index : Nat
  deriving DecidableEq, Repr

/-- `VMFunctionImport`. -/
structure VMFunctionImport where
  body : Nat
  vmctx : Nat
  deriving DecidableEq, Repr

/-- `VMTableImport` and `VMMemoryImport`. -/
structure VMImport where
  source : DefinitionPtr
  vmctx : Nat
  deriving DecidableEq, Repr

/-- `Imports`, less the dependencies. -/
structure Imports where
  functions : List VMFunctionImport
  tables : List VMImport
  memories : List VMImport
  /-- `VMGlobalImport`: the address of the global. -/
  globals : List DefinitionPtr
  deriving DecidableEq, Repr

/-- The arrays of a `VMContext` that this development follows. -/
structure VMContext where
  imports : Imports
  tables : List VMTableDefinition
  memories : List VMMemoryDefinition
  deriving DecidableEq, Repr

/-- `Export` of `wasmtime-runtime/src/export.rs`: the value of an export passed from one instance to
another, with the declaration used for compatibility checking. -/
inductive ExportValue (Sig : Type) where
  | function (address vmctx : Nat) (signature : Sig)
  | table (definition : DefinitionPtr) (vmctx : Nat) (table : TablePlan)
  | memory (definition : DefinitionPtr) (vmctx : Nat) (memory : MemoryPlan)
  | global (definition : DefinitionPtr) (vmctx : Nat) (global : Global)

/-- `Instance`. -/
structure Instance (Sig Fn : Type) where
  module : Module Sig
  offsets : VMOffsets
  memories : List LinearMemory
  tables : List (Table Fn)
  /-- The addresses of the compiled functions. -/
  finishedFunctions : List Nat
  vmctx : VMContext

variable {Sig Fn : Type}

/-- `create_memories`, over the plans past the imports. -/
def createMemories (host : Host) (os : Nat → Os) : Nat → List MemoryPlan →
    Outcome (List LinearMemory)
  | _, [] => .ok []
  | k, plan :: plans =>
    (LinearMemory.new host (os k) plan).bind fun m => (createMemories host os (k + 1) plans).map (m :: ·)

/-- `create_tables`, over the plans past the imports. -/
def createTables (alloc : Nat → Nat) : Nat → List TablePlan → Outcome (List (Table Fn))
  | _, [] => .ok []
  | k, plan :: plans =>
    (Table.new (alloc k) plan).bind fun t => (createTables alloc (k + 1) plans).map (t :: ·)

namespace Instance

/-- `InstanceHandle::new`, up to the initializers. The host answers each memory on its own. -/
def new (host : Host) (os : Nat → Os) (alloc : Nat → Nat) (module : Module Sig)
    (finishedFunctions : List Nat) (imports : Imports) : Outcome (Instance Sig Fn) :=
  (createTables alloc 0 (module.tablePlans.drop module.importedTables.length)).bind fun tables =>
  (createMemories host os 0 (module.memoryPlans.drop module.importedMemories.length)).bind
    fun memories =>
  (Ending.expect .overflow (VMOffsets.new 8 module)).bind fun offsets =>
  (Ending.expect .overflow offsets.sizeOfVmctx).map fun _ =>
    { module, offsets, memories, tables, finishedFunctions
      vmctx := {
        imports
        tables := tables.map Table.vmtable
        memories := memories.map LinearMemory.vmmemory } }

/-- The address and the `VMContext` of a table or memory: those of its definition, or those it was
imported with. -/
def lookupDefinition (vmctx : Nat) (defined : Option Nat) (imported : Option VMImport) :
    Option (DefinitionPtr × Nat) :=
  match defined with
  | some defIndex => some (⟨vmctx, defIndex⟩, vmctx)
  | none => imported.map fun imp => (imp.source, imp.vmctx)

/-- The body and the `VMContext` of a function. -/
def lookupFunction (i : Instance Sig Fn) (vmctx index : Nat) : Option (Nat × Nat) :=
  match i.module.definedFuncIndex index with
  | some defIndex => i.finishedFunctions[defIndex]?.map fun address => (address, vmctx)
  | none => i.vmctx.imports.functions[index]?.map fun imp => (imp.body, imp.vmctx)

/-- The address of a global. -/
def lookupGlobal (i : Instance Sig Fn) (vmctx index : Nat) : Option DefinitionPtr :=
  match i.module.definedGlobalIndex index with
  | some defIndex => some ⟨vmctx, defIndex⟩
  | none => i.vmctx.imports.globals[index]?

/-- `lookup_by_declaration`, of the instance whose `VMContext` is number `vmctx`; `none` is an
index out of bounds. A re-exported entity keeps its definition and the `VMContext` it was defined
in, and is published with the plan of the module that re-exports it. -/
def lookupByDeclaration (i : Instance Sig Fn) (vmctx : Nat) :
    Environ.Export → Option (ExportValue Sig)
  | .function index =>
    (i.module.functions[index.toNat]?.bind fun s => i.module.signatures[s.toNat]?).bind
      fun signature => (i.lookupFunction vmctx index.toNat).map
        fun (address, vmctx) => .function address vmctx signature
  | .table index =>
    i.module.tablePlans[index.toNat]?.bind fun plan =>
      (lookupDefinition vmctx (i.module.definedTableIndex index.toNat)
        i.vmctx.imports.tables[index.toNat]?).map
        fun (definition, vmctx) => .table definition vmctx plan
  | .memory index =>
    i.module.memoryPlans[index.toNat]?.bind fun plan =>
      (lookupDefinition vmctx (i.module.definedMemoryIndex index.toNat)
        i.vmctx.imports.memories[index.toNat]?).map
        fun (definition, vmctx) => .memory definition vmctx plan
  | .global index =>
    i.module.globals[index.toNat]?.bind fun global =>
      (i.lookupGlobal vmctx index.toNat).map fun definition => .global definition vmctx global

/-- What a call into the runtime ends with. -/
inductive Called (Sig Fn : Type) where
  | panic (p : Panic)
  | ret (result : Option Nat) (instance' : Instance Sig Fn)

/-- `Instance::memory_grow`. -/
def memoryGrow (host : Host) (os : Os) (i : Instance Sig Fn) (index : Nat) (delta : UInt32) :
    Called Sig Fn :=
  match i.memories[index]? with
  | none => .panic .index
  | some m =>
    match m.grow host os delta with
    | .panic p => .panic p
    | .ret result m' =>
      -- Keep current the `VMContext` pointers used by compiled wasm code.
      .ret (result.map UInt32.toNat) { i with
        memories := i.memories.set index m'
        vmctx := { i.vmctx with memories := i.vmctx.memories.set index m'.vmmemory } }

/-- `Instance::memory_size`. -/
def memorySize (i : Instance Sig Fn) (index : Nat) : Option UInt32 :=
  i.memories[index]?.map LinearMemory.size

/-- `Instance::table_grow`. -/
def tableGrow (i : Instance Sig Fn) (alloc index : Nat) (delta : UInt32) : Called Sig Fn :=
  match i.tables[index]? with
  | none => .panic .index
  | some t =>
    let (result, t') := t.grow alloc delta
    .ret result { i with
      tables := i.tables.set index t'
      vmctx := { i.vmctx with tables := i.vmctx.tables.set index t'.vmtable } }

/-- A store of a byte to a memory. -/
def storeByte (i : Instance Sig Fn) (index : Nat) (m : LinearMemory) (addr : Nat) (byte : UInt8) :
    Instance Sig Fn :=
  { i with memories := i.memories.set index (m.store addr byte) }

/-- A store of an element to a table. -/
def storeElement (i : Instance Sig Fn) (index : Nat) (t : Table Fn) (at' : Nat) (f : Option Fn) :
    Instance Sig Fn :=
  { i with tables := i.tables.set index (t.set at' f) }

/-- One step of an instance. -/
inductive Step (host : Host) : Instance Sig Fn → Instance Sig Fn → Prop
  | memoryGrow {os : Os} {i i' : Instance Sig Fn} {index : Nat} {delta : UInt32} {r : Option Nat}
      (h : i.memoryGrow host os index delta = .ret r i') : Step host i i'
  | tableGrow {i i' : Instance Sig Fn} {alloc index : Nat} {delta : UInt32} {r : Option Nat}
      (h : i.tableGrow alloc index delta = .ret r i') : Step host i i'
  | storeByte {i : Instance Sig Fn} {index : Nat} {m : LinearMemory} {addr : Nat} {byte : UInt8}
      (hm : i.memories[index]? = some m) (h : addr < m.current.toNat * wasmPageSize) :
      Step host i (i.storeByte index m addr byte)
  | storeElement {i : Instance Sig Fn} {index : Nat} {t : Table Fn} {at' : Nat} {f : Option Fn}
      (ht : i.tables[index]? = some t) : Step host i (i.storeElement index t at' f)

/-- The states an instance of `module` goes through. -/
inductive Run (host : Host) (module : Module Sig) : Instance Sig Fn → Prop
  | new {os : Nat → Os} {alloc : Nat → Nat} {finished : List Nat} {imports : Imports}
      {i : Instance Sig Fn} (h : new host os alloc module finished imports = .ok i) :
      Run host module i
  | step {i i' : Instance Sig Fn} (hi : Run host module i) (h : Step host i i') :
      Run host module i'

/-! ## The invariant of an instance -/

/-- The invariant of an instance over its run. -/
structure Inv (host : Host) (i : Instance Sig Fn) : Prop where
  memories_length : i.memories.length = i.module.memoryPlans.length - i.module.importedMemories.length
  memory : ∀ k m, i.memories[k]? = some m →
    ∃ plan, i.module.memoryPlans[i.module.memoryIndex k]? = some plan ∧ LinearMemory.Run host plan m
  tables_length : i.tables.length = i.module.tablePlans.length - i.module.importedTables.length
  table : ∀ k t, i.tables[k]? = some t →
    ∃ plan, i.module.tablePlans[i.module.tableIndex k]? = some plan ∧ Table.Run plan t
  vmctxMemories : ∀ k : Nat, i.vmctx.memories[k]? = i.memories[k]?.map LinearMemory.vmmemory
  vmctxTables : ∀ k : Nat, i.vmctx.tables[k]? = i.tables[k]?.map Table.vmtable
  offsets_eq : VMOffsets.new 8 i.module = some i.offsets
  size : ∃ n, i.offsets.sizeOfVmctx = some n

variable {host : Host} {module : Module Sig} {i i' : Instance Sig Fn}

theorem createMemories_ok {os : Nat → Os} {plans : List MemoryPlan} {k : Nat}
    {memories : List LinearMemory} (h : createMemories host os k plans = .ok memories) :
    List.Forall₂ (LinearMemory.Run host) plans memories := by
  induction plans generalizing k memories with
  | nil =>
    obtain rfl := Ending.ok.inj h
    exact .nil
  | cons plan plans ih =>
    obtain ⟨m, hm, h⟩ := Ending.bind_eq_ok.mp h
    obtain ⟨ms, hms, rfl⟩ := Ending.map_eq_ok.mp h
    exact .cons (.new hm) (ih hms)

theorem createTables_ok {alloc : Nat → Nat} {plans : List TablePlan} {k : Nat}
    {tables : List (Table Fn)} (h : createTables alloc k plans = .ok tables) :
    List.Forall₂ Table.Run plans tables := by
  induction plans generalizing k tables with
  | nil =>
    obtain rfl := Ending.ok.inj h
    exact .nil
  | cons plan plans ih =>
    obtain ⟨t, ht, h⟩ := Ending.bind_eq_ok.mp h
    obtain ⟨ts, hts, rfl⟩ := Ending.map_eq_ok.mp h
    exact .cons (.new ht) (ih hts)

/-- What lines up with the tail of a list, by index into the list. -/
theorem forall₂_drop_getElem? {α β : Type} {R : α → β → Prop} {l : List α} {n : Nat} {r : List β}
    (h : List.Forall₂ R (l.drop n) r) {k : Nat} {b : β} (hb : r[k]? = some b) :
    ∃ a, l[n + k]? = some a ∧ R a b := by
  obtain ⟨hk, rfl⟩ := List.getElem?_eq_some_iff.mp hb
  have hlen := h.length_eq
  have hk' : k < (l.drop n).length := by omega
  refine ⟨(l.drop n)[k], ?_, List.forall₂_iff_get.mp h |>.2 k hk' hk⟩
  rw [← List.getElem?_drop, List.getElem?_eq_getElem hk']

theorem forall_getElem?_set {α : Type} {l : List α} {k : Nat} {a : α} {P : Nat → α → Prop}
    (h : ∀ j b, l[j]? = some b → P j b) (ha : P k a) : ∀ j b, (l.set k a)[j]? = some b → P j b := by
  intro j b hb
  rw [List.getElem?_set] at hb
  split at hb
  · rename_i hj
    subst hj
    split at hb
    · obtain rfl := Option.some.inj hb
      exact ha
    · exact absurd hb (by simp)
  · exact h j b hb

/-- A copied list stays current when both sides are written at one index. -/
theorem map_getElem?_set {α β : Type} {f : α → β} {l : List α} {copy : List β}
    (h : ∀ j : Nat, copy[j]? = l[j]?.map f) (k : Nat) (a : α) (j : Nat) :
    (copy.set k (f a))[j]? = (l.set k a)[j]?.map f := by
  have hk := h k
  rw [List.getElem?_set, List.getElem?_set]
  by_cases hj : k = j
  · subst hj
    have hlen : k < copy.length ↔ k < l.length := by
      rw [← not_iff_not, Nat.not_lt, Nat.not_lt, ← List.getElem?_eq_none_iff,
        ← List.getElem?_eq_none_iff, hk, Option.map_eq_none_iff]
    simp only [if_true, hlen]
    split <;> rfl
  · rw [if_neg hj, if_neg hj]
    exact h j

/-- Writing an entry that looks the same from outside keeps the copy current. -/
theorem map_getElem?_set_self {α β : Type} {f : α → β} {l : List α} {copy : List β}
    (h : ∀ j : Nat, copy[j]? = l[j]?.map f) {k : Nat} {a b : α} (ha : l[k]? = some a)
    (hab : f b = f a) (j : Nat) : copy[j]? = (l.set k b)[j]?.map f := by
  rw [h j, List.getElem?_set]
  by_cases hj : k = j
  · subst hj
    have hk : k < l.length := (List.getElem?_eq_some_iff.mp ha).1
    rw [if_pos rfl, if_pos hk, ha]
    simp [hab]
  · rw [if_neg hj]

theorem inv_new {os : Nat → Os} {alloc : Nat → Nat} {finished : List Nat} {imports : Imports}
    (h : new host os alloc module finished imports = .ok i) :
    Inv host i ∧ i.module = module ∧ i.vmctx.imports = imports := by
  unfold new at h
  obtain ⟨tables, htables, h⟩ := Ending.bind_eq_ok.mp h
  obtain ⟨memories, hmemories, h⟩ := Ending.bind_eq_ok.mp h
  obtain ⟨offsets, hoffsets, h⟩ := Ending.bind_eq_ok.mp h
  obtain ⟨n, hsize, rfl⟩ := Ending.map_eq_ok.mp h
  have hm := createMemories_ok hmemories
  have ht := createTables_ok htables
  refine ⟨⟨?_, fun k m hk => forall₂_drop_getElem? hm hk, ?_,
    fun k t hk => forall₂_drop_getElem? ht hk, fun k => ?_, fun k => ?_,
    Ending.expect_eq_ok.mp hoffsets, ⟨n, Ending.expect_eq_ok.mp hsize⟩⟩, rfl, rfl⟩
  · rw [← List.length_drop]
    exact hm.length_eq.symm
  · rw [← List.length_drop]
    exact ht.length_eq.symm
  · exact List.getElem?_map
  · exact List.getElem?_map

/-- What a step leaves alone. -/
structure Frame (i i' : Instance Sig Fn) : Prop where
  module : i'.module = i.module
  offsets : i'.offsets = i.offsets
  imports : i'.vmctx.imports = i.vmctx.imports
  finishedFunctions : i'.finishedFunctions = i.finishedFunctions

theorem memoryGrow_ret {os : Os} {index : Nat} {delta : UInt32} {r : Option Nat}
    (h : i.memoryGrow host os index delta = .ret r i') :
    ∃ m m' r', i.memories[index]? = some m ∧ m.grow host os delta = .ret r' m' ∧
      i' = { i with
        memories := i.memories.set index m'
        vmctx := { i.vmctx with memories := i.vmctx.memories.set index m'.vmmemory } } := by
  unfold memoryGrow at h
  cases hm : i.memories[index]? with
  | none =>
    rw [hm] at h
    exact absurd h (by simp)
  | some m =>
    rw [hm] at h
    cases hg : m.grow host os delta with
    | panic p =>
      simp only [hg] at h
      exact absurd h (by simp)
    | ret r' m' =>
      simp only [hg] at h
      exact ⟨m, m', r', rfl, hg, (Called.ret.inj h).2.symm⟩

theorem memoryGrow_eq {os : Os} {index : Nat} {delta : UInt32} {m m' : LinearMemory}
    {r : Option UInt32} (hm : i.memories[index]? = some m) (hg : m.grow host os delta = .ret r m') :
    i.memoryGrow host os index delta = .ret (r.map UInt32.toNat) { i with
      memories := i.memories.set index m'
      vmctx := { i.vmctx with memories := i.vmctx.memories.set index m'.vmmemory } } := by
  unfold memoryGrow
  simp only [hm, hg]

theorem tableGrow_ret {alloc index : Nat} {delta : UInt32} {r : Option Nat}
    (h : i.tableGrow alloc index delta = .ret r i') :
    ∃ t, i.tables[index]? = some t ∧
      i' = { i with
        tables := i.tables.set index (t.grow alloc delta).2
        vmctx := { i.vmctx with
          tables := i.vmctx.tables.set index (t.grow alloc delta).2.vmtable } } := by
  unfold tableGrow at h
  cases ht : i.tables[index]? with
  | none =>
    rw [ht] at h
    exact absurd h (by simp)
  | some t =>
    rw [ht] at h
    exact ⟨t, rfl, (Called.ret.inj h).2.symm⟩

theorem Step.frame (h : Step host i i') : Frame i i' := by
  cases h with
  | memoryGrow h =>
    obtain ⟨m, m', r', -, -, rfl⟩ := memoryGrow_ret h
    exact ⟨rfl, rfl, rfl, rfl⟩
  | tableGrow h =>
    obtain ⟨t, -, rfl⟩ := tableGrow_ret h
    exact ⟨rfl, rfl, rfl, rfl⟩
  | storeByte hm h => exact ⟨rfl, rfl, rfl, rfl⟩
  | storeElement ht => exact ⟨rfl, rfl, rfl, rfl⟩

theorem Step.lengths (h : Step host i i') :
    i'.memories.length = i.memories.length ∧ i'.tables.length = i.tables.length := by
  cases h with
  | memoryGrow h =>
    obtain ⟨m, m', r', -, -, rfl⟩ := memoryGrow_ret h
    exact ⟨List.length_set .., rfl⟩
  | tableGrow h =>
    obtain ⟨t, -, rfl⟩ := tableGrow_ret h
    exact ⟨rfl, List.length_set ..⟩
  | storeByte hm h => exact ⟨List.length_set .., rfl⟩
  | storeElement ht => exact ⟨rfl, List.length_set ..⟩

/-- What a step does to one memory: nothing, a `grow`, or a store. -/
theorem Step.memory (h : Step host i i') {k : Nat} {m m' : LinearMemory}
    (hm : i.memories[k]? = some m) (hm' : i'.memories[k]? = some m') :
    m' = m ∨ (∃ os delta r, m.grow host os delta = .ret r m') ∨
      ∃ addr byte, m' = m.store addr byte := by
  have hset : ∀ {index : Nat} {b : LinearMemory}, (i.memories.set index b)[k]? = some m' →
      m' = m ∨ (index = k ∧ m' = b) := by
    intro index b hb
    rw [List.getElem?_set] at hb
    split at hb
    · rename_i hk
      split at hb
      · exact Or.inr ⟨hk, (Option.some.inj hb).symm⟩
      · exact absurd hb (by simp)
    · exact Or.inl (Option.some.inj (hb.symm.trans hm))
  cases h with
  | memoryGrow h =>
    obtain ⟨b, b', r', hb, hg, rfl⟩ := memoryGrow_ret h
    rcases hset hm' with he | ⟨rfl, rfl⟩
    · exact Or.inl he
    · obtain rfl := Option.some.inj (hb.symm.trans hm)
      exact Or.inr (Or.inl ⟨_, _, _, hg⟩)
  | tableGrow h =>
    obtain ⟨t, -, rfl⟩ := tableGrow_ret h
    exact Or.inl (Option.some.inj (hm'.symm.trans hm))
  | storeByte hb h =>
    rcases hset hm' with he | ⟨rfl, rfl⟩
    · exact Or.inl he
    · obtain rfl := Option.some.inj (hb.symm.trans hm)
      exact Or.inr (Or.inr ⟨_, _, rfl⟩)
  | storeElement ht => exact Or.inl (Option.some.inj (hm'.symm.trans hm))

/-- Each step keeps the invariant. -/
theorem Step.inv (hi : Inv host i) (h : Step host i i') : Inv host i' := by
  cases h with
  | memoryGrow h =>
    obtain ⟨m, m', r', hm, hg, rfl⟩ := memoryGrow_ret h
    obtain ⟨plan, hplan, hrun⟩ := hi.memory _ m hm
    exact { hi with
      memories_length := (List.length_set ..).trans hi.memories_length
      memory := forall_getElem?_set hi.memory ⟨plan, hplan, .grow hrun hg⟩
      vmctxMemories := map_getElem?_set hi.vmctxMemories _ m' }
  | tableGrow h =>
    obtain ⟨t, ht, rfl⟩ := tableGrow_ret h
    obtain ⟨plan, hplan, hrun⟩ := hi.table _ t ht
    exact { hi with
      tables_length := (List.length_set ..).trans hi.tables_length
      table := forall_getElem?_set hi.table ⟨plan, hplan, .grow hrun⟩
      vmctxTables := map_getElem?_set hi.vmctxTables _ _ }
  | storeByte hm h =>
    obtain ⟨plan, hplan, hrun⟩ := hi.memory _ _ hm
    exact { hi with
      memories_length := (List.length_set ..).trans hi.memories_length
      memory := forall_getElem?_set hi.memory ⟨plan, hplan, .store hrun h⟩
      vmctxMemories := map_getElem?_set_self hi.vmctxMemories hm rfl }
  | storeElement ht =>
    obtain ⟨plan, hplan, hrun⟩ := hi.table _ _ ht
    exact { hi with
      tables_length := (List.length_set ..).trans hi.tables_length
      table := forall_getElem?_set hi.table ⟨plan, hplan, .set hrun⟩
      vmctxTables := map_getElem?_set_self hi.vmctxTables ht (by
        unfold Table.vmtable Table.set
        rw [List.length_set]) }

/-- Every state of an instance satisfies the invariant. -/
theorem run_inv (h : Run host module i) : Inv host i ∧ i.module = module := by
  induction h with
  | new h =>
    obtain ⟨hi, hm, -⟩ := inv_new h
    exact ⟨hi, hm⟩
  | step _ h ih =>
    obtain ⟨hi, hm⟩ := ih
    exact ⟨h.inv hi, h.frame.module.trans hm⟩

/-! ## The instance of a module with one memory -/

/-- The module that declares one memory and exports it as `memory`. -/
def oneMemory (plan : MemoryPlan) : Module Sig :=
  { Module.new with memoryPlans := [plan], exports := [("memory", .memory 0)] }

theorem translated_oneMemory (translateSignature : Sig → Sig) (ty : MemoryType)
    (tunables : Tunables) :
    Translated translateSignature tunables ⟨oneMemory (ty.plan tunables), [], tunables⟩ := by
  have hmemory : Translated translateSignature tunables
      ⟨{ Module.new with memoryPlans := [ty.plan tunables] }, [], tunables⟩ := by
    refine @Translated.step _ _ _ _ _ (.memory ty.toMemory) .new
      ⟨⟨ty, rfl⟩, by simp [ModuleTranslation.new, Module.new]⟩ ?_
    unfold ModuleTranslation.declare ModuleTranslation.new
    simp only [ty.forMemory_eq, Option.map_some]
    rfl
  exact @Translated.step _ _ _ _ _ (.exported (.memory 0) "memory") hmemory Nat.zero_lt_one rfl

theorem new_oneMemory {plan : MemoryPlan} {os : Os} {m : LinearMemory}
    (h : LinearMemory.new host os plan = .ok m) :
    ∃ i : Instance Sig Fn,
      new host (fun _ => os) id (oneMemory plan) [] ⟨[], [], [], []⟩ = .ok i ∧
        i.memories[0]? = some m := by
  have htables : (createTables id 0 ((oneMemory plan : Module Sig).tablePlans.drop
      (oneMemory plan : Module Sig).importedTables.length) : Outcome (List (Table Fn))) =
      .ok [] := rfl
  have hmemories : createMemories host (fun _ => os) 0 ((oneMemory plan : Module Sig).memoryPlans.drop
      (oneMemory plan : Module Sig).importedMemories.length) = .ok [m] := by
    simp [oneMemory, Module.new, createMemories, h]
  have hoffsets : VMOffsets.new 8 (oneMemory plan : Module Sig) =
      some ⟨8, 0, 0, 0, 0, 0, 0, 1, 0⟩ := rfl
  have hsize : VMOffsets.sizeOfVmctx ⟨8, 0, 0, 0, 0, 0, 0, 1, 0⟩ = some 48 := by decide
  unfold new
  rw [htables, Ending.ok_bind, hmemories, Ending.ok_bind, hoffsets, Ending.expect_some,
    Ending.ok_bind, hsize, Ending.expect_some, Ending.map_ok]
  exact ⟨_, rfl, rfl⟩

end Instance

end Wasmtime.Runtime
