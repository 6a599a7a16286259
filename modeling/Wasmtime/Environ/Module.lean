import Wasmtime.Environ.Plan

/-!
# Modules

Model of `Module` (`wasmtime-environ/src/module.rs`): the declared entities and the index spaces.
In each index space the imported entities come first, so an index is imported iff it is below the
number of imports.

* `PrimaryMap<K, V>` is `List V`; an index is a `Nat`.
* `ir::Signature` belongs to `cranelift_codegen` and stays a parameter `Sig`.
* `exports` is an `IndexMap`: a list of name and entity in order of insertion.
* A boxed slice has fewer than `2^63` entries (`TableElements`).
-/

namespace Wasmtime.Environ

/-- `Export`: an entity to export. The order is the derived one: by kind, then by index. -/
inductive Export where
  | function (index : UInt32)
  | table (index : UInt32)
  | memory (index : UInt32)
  | global (index : UInt32)
  deriving DecidableEq, Repr

/-- `cranelift_wasm::GlobalInit`; `imported` is `Import`. -/
inductive GlobalInit where
  | i32Const (x : UInt32)
  | i64Const (x : UInt64)
  | f32Const (bits : UInt32)
  | f64Const (bits : UInt64)
  | v128Const (bits : BitVec 128)
  | getGlobal (index : UInt32)
  | imported
  deriving DecidableEq, Repr

/-- `cranelift_wasm::Global`. -/
structure Global where
  /-- The `ir::Type`, by its code. -/
  ty : UInt8
  mutability : Bool
  initializer : GlobalInit
  deriving DecidableEq, Repr

/-- `TableElements`: a table initializer. -/
structure TableElements where
  tableIndex : UInt32
  base : Option UInt32
  offset : UInt64
  elements : List UInt32
  elements_lt : elements.length < 2 ^ 63
  deriving DecidableEq, Repr

/-- `Module`. -/
structure Module (Sig : Type) where
  signatures : List Sig
  importedFuncs : List (String × String)
  importedTables : List (String × String)
  importedMemories : List (String × String)
  importedGlobals : List (String × String)
  /-- Types of functions, imported and local. -/
  functions : List UInt32
  tablePlans : List TablePlan
  memoryPlans : List MemoryPlan
  globals : List Global
  exports : List (String × Export)
  startFunc : Option UInt32
  tableElements : List TableElements
  deriving Repr

namespace Module

variable {Sig : Type} (m : Module Sig)

/-- `Module::new`. -/
def new : Module Sig where
  signatures := []
  importedFuncs := []
  importedTables := []
  importedMemories := []
  importedGlobals := []
  functions := []
  tablePlans := []
  memoryPlans := []
  globals := []
  exports := []
  startFunc := none
  tableElements := []

/-- The shape shared by `defined_func_index` and its siblings: `None` for an imported index. -/
def definedIndex (imported index : Nat) : Option Nat :=
  if index < imported then none else some (index - imported)

/-- `Module::func_index`. -/
def funcIndex (definedFunc : Nat) : Nat := m.importedFuncs.length + definedFunc

/-- `Module::defined_func_index`. -/
def definedFuncIndex (func : Nat) : Option Nat := definedIndex m.importedFuncs.length func

/-- `Module::is_imported_function`. -/
def isImportedFunction (index : Nat) : Bool := decide (index < m.importedFuncs.length)

/-- `Module::table_index`. -/
def tableIndex (definedTable : Nat) : Nat := m.importedTables.length + definedTable

/-- `Module::defined_table_index`. -/
def definedTableIndex (table : Nat) : Option Nat := definedIndex m.importedTables.length table

/-- `Module::is_imported_table`. -/
def isImportedTable (index : Nat) : Bool := decide (index < m.importedTables.length)

/-- `Module::memory_index`. -/
def memoryIndex (definedMemory : Nat) : Nat := m.importedMemories.length + definedMemory

/-- `Module::defined_memory_index`. -/
def definedMemoryIndex (memory : Nat) : Option Nat := definedIndex m.importedMemories.length memory

/-- `Module::is_imported_memory`. -/
def isImportedMemory (index : Nat) : Bool := decide (index < m.importedMemories.length)

/-- `Module::global_index`. -/
def globalIndex (definedGlobal : Nat) : Nat := m.importedGlobals.length + definedGlobal

/-- `Module::defined_global_index`. -/
def definedGlobalIndex (global : Nat) : Option Nat := definedIndex m.importedGlobals.length global

/-- `Module::is_imported_global`. -/
def isImportedGlobal (index : Nat) : Bool := decide (index < m.importedGlobals.length)

/-! ## The index spaces -/

/-- An index is imported, or it is the image of its defined index. -/
theorem definedIndex_eq_some {imported index d : Nat} :
    definedIndex imported index = some d ↔ index = imported + d := by
  unfold definedIndex
  split
  · rename_i h
    exact ⟨fun he => absurd he (by simp), fun he => absurd h (by omega)⟩
  · rename_i h
    rw [Option.some.injEq]
    omega

theorem definedIndex_eq_none {imported index : Nat} :
    definedIndex imported index = none ↔ index < imported := by
  unfold definedIndex
  split
  · rename_i h
    exact ⟨fun _ => h, fun _ => rfl⟩
  · rename_i h
    exact ⟨fun he => absurd he (by simp), fun he => absurd he h⟩

end Module

end Wasmtime.Environ
