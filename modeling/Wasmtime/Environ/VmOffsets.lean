import Wasmtime.Environ.Module

/-!
# Offsets into the `VMContext`

Model of `wasmtime-environ/src/vmoffsets.rs`: the layout compiled code and the runtime share. The
counts are `u32` and every sum and product is checked; `none` is a failed assert or an `unwrap` of
an overflow. `u8` field offsets are small multiples of the pointer size and are `Nat`.

The arrays of a `VMContext` follow one another, each as long as its count times the size of an
entry (`arrayEnd`), and an entry is found by its index (`arrayEntry`).

Result: `arrayEntry_eq_some`, the address arithmetic behind every `vmctx_*` offset of an entry.
-/

namespace Wasmtime.Environ

/-- `u32::checked_add`, on values. -/
def checkedAddU32 (a b : Nat) : Option Nat := if a + b < 2 ^ 32 then some (a + b) else none

/-- `u32::checked_mul`, on values. -/
def checkedMulU32 (a b : Nat) : Option Nat := if a * b < 2 ^ 32 then some (a * b) else none

/-- `cast_to_u32`. -/
def castToU32 (n : Nat) : Option Nat := if n < 2 ^ 32 then some n else none

/-- `align`: an offset rounded up to a width. The sum is the one step that is not checked: it wraps
in a release build. -/
def align (offset width : Nat) : Nat := (offset + (width - 1)) % 2 ^ 32 / width * width

/-- The end of an array: `begin.checked_add(count.checked_mul(size))`. -/
def arrayEnd (start : Option Nat) (count size : Nat) : Option Nat :=
  start.bind fun b => (checkedMulU32 count size).bind (checkedAddU32 b)

/-- The offset of an entry: the index is asserted to be below the count. -/
def arrayEntry (start : Option Nat) (count index size : Nat) : Option Nat :=
  if index < count then arrayEnd start index size else none

/-- The number of builtin functions, `BuiltinFunctionIndex::builtin_functions_total_number`. -/
def builtinFunctionsTotalNumber : Nat := 4

/-- `VMOffsets`. -/
structure VMOffsets where
  pointerSize : Nat
  numSignatureIds : Nat
  numImportedFunctions : Nat
  numImportedTables : Nat
  numImportedMemories : Nat
  numImportedGlobals : Nat
  numDefinedTables : Nat
  numDefinedMemories : Nat
  numDefinedGlobals : Nat
  deriving DecidableEq, Repr

namespace VMOffsets

/-- `VMOffsets::new`. -/
def new {Sig : Type} (pointerSize : Nat) (module : Module Sig) : Option VMOffsets := do
  let numSignatureIds ← castToU32 module.signatures.length
  let numImportedFunctions ← castToU32 module.importedFuncs.length
  let numImportedTables ← castToU32 module.importedTables.length
  let numImportedMemories ← castToU32 module.importedMemories.length
  let numImportedGlobals ← castToU32 module.importedGlobals.length
  let numDefinedTables ← castToU32 module.tablePlans.length
  let numDefinedMemories ← castToU32 module.memoryPlans.length
  let numDefinedGlobals ← castToU32 module.globals.length
  return ⟨pointerSize, numSignatureIds, numImportedFunctions, numImportedTables,
    numImportedMemories, numImportedGlobals, numDefinedTables, numDefinedMemories,
    numDefinedGlobals⟩

variable (o : VMOffsets)

/-! ## Fields -/

/-- `vmfunction_import_body`. -/
def vmfunctionImportBody : Nat := 0 * o.pointerSize

/-- `vmfunction_import_vmctx`. -/
def vmfunctionImportVmctx : Nat := 1 * o.pointerSize

/-- `size_of_vmfunction_import`. -/
def sizeOfVmfunctionImport : Nat := 2 * o.pointerSize

/-- `vmtable_import_from`. -/
def vmtableImportFrom : Nat := 0 * o.pointerSize

/-- `vmtable_import_vmctx`. -/
def vmtableImportVmctx : Nat := 1 * o.pointerSize

/-- `size_of_vmtable_import`. -/
def sizeOfVmtableImport : Nat := 2 * o.pointerSize

/-- `vmtable_definition_base`. -/
def vmtableDefinitionBase : Nat := 0 * o.pointerSize

/-- `vmtable_definition_current_elements`. -/
def vmtableDefinitionCurrentElements : Nat := 1 * o.pointerSize

/-- `size_of_vmtable_definition_current_elements`. -/
def sizeOfVmtableDefinitionCurrentElements : Nat := 4

/-- `size_of_vmtable_definition`. -/
def sizeOfVmtableDefinition : Nat := 2 * o.pointerSize

/-- `vmmemory_import_from`. -/
def vmmemoryImportFrom : Nat := 0 * o.pointerSize

/-- `vmmemory_import_vmctx`. -/
def vmmemoryImportVmctx : Nat := 1 * o.pointerSize

/-- `size_of_vmmemory_import`. -/
def sizeOfVmmemoryImport : Nat := 2 * o.pointerSize

/-- `vmmemory_definition_base`. -/
def vmmemoryDefinitionBase : Nat := 0 * o.pointerSize

/-- `vmmemory_definition_current_length`. -/
def vmmemoryDefinitionCurrentLength : Nat := 1 * o.pointerSize

/-- `size_of_vmmemory_definition_current_length`. -/
def sizeOfVmmemoryDefinitionCurrentLength : Nat := 4

/-- `size_of_vmmemory_definition`. -/
def sizeOfVmmemoryDefinition : Nat := 2 * o.pointerSize

/-- `type_of_vmmemory_definition_current_length`: the width in bits of the integer type. -/
def typeOfVmmemoryDefinitionCurrentLength : Nat := sizeOfVmmemoryDefinitionCurrentLength * 8

/-- `vmglobal_import_from`. -/
def vmglobalImportFrom : Nat := 0 * o.pointerSize

/-- `size_of_vmglobal_import`. -/
def sizeOfVmglobalImport : Nat := 1 * o.pointerSize

/-- `size_of_vmglobal_definition`. -/
def sizeOfVmglobalDefinition : Nat := 16

/-- `size_of_vmshared_signature_index`. -/
def sizeOfVmsharedSignatureIndex : Nat := 4

/-! ## Arrays of the `VMContext` -/

/-- `vmctx_signature_ids_begin`. -/
def vmctxSignatureIdsBegin : Option Nat := some 0

/-- `vmctx_imported_functions_begin`. -/
def vmctxImportedFunctionsBegin : Option Nat :=
  arrayEnd vmctxSignatureIdsBegin o.numSignatureIds sizeOfVmsharedSignatureIndex

/-- `vmctx_imported_tables_begin`. -/
def vmctxImportedTablesBegin : Option Nat :=
  arrayEnd o.vmctxImportedFunctionsBegin o.numImportedFunctions o.sizeOfVmfunctionImport

/-- `vmctx_imported_memories_begin`. -/
def vmctxImportedMemoriesBegin : Option Nat :=
  arrayEnd o.vmctxImportedTablesBegin o.numImportedTables o.sizeOfVmtableImport

/-- `vmctx_imported_globals_begin`. -/
def vmctxImportedGlobalsBegin : Option Nat :=
  arrayEnd o.vmctxImportedMemoriesBegin o.numImportedMemories o.sizeOfVmmemoryImport

/-- `vmctx_tables_begin`. -/
def vmctxTablesBegin : Option Nat :=
  arrayEnd o.vmctxImportedGlobalsBegin o.numImportedGlobals o.sizeOfVmglobalImport

/-- `vmctx_memories_begin`. -/
def vmctxMemoriesBegin : Option Nat :=
  arrayEnd o.vmctxTablesBegin o.numDefinedTables o.sizeOfVmtableDefinition

/-- `vmctx_globals_begin`. -/
def vmctxGlobalsBegin : Option Nat :=
  (arrayEnd o.vmctxMemoriesBegin o.numDefinedMemories o.sizeOfVmmemoryDefinition).map (align · 16)

/-- `vmctx_builtin_functions_begin`. -/
def vmctxBuiltinFunctionsBegin : Option Nat :=
  arrayEnd o.vmctxGlobalsBegin o.numDefinedGlobals sizeOfVmglobalDefinition

/-- `size_of_vmctx`. -/
def sizeOfVmctx : Option Nat :=
  arrayEnd o.vmctxBuiltinFunctionsBegin builtinFunctionsTotalNumber o.pointerSize

/-! ## Entries -/

/-- `vmctx_vmshared_signature_id`. -/
def vmctxVmsharedSignatureId (index : Nat) : Option Nat :=
  arrayEntry vmctxSignatureIdsBegin o.numSignatureIds index sizeOfVmsharedSignatureIndex

/-- `vmctx_vmfunction_import`. -/
def vmctxVmfunctionImport (index : Nat) : Option Nat :=
  arrayEntry o.vmctxImportedFunctionsBegin o.numImportedFunctions index o.sizeOfVmfunctionImport

/-- `vmctx_vmtable_import`. -/
def vmctxVmtableImport (index : Nat) : Option Nat :=
  arrayEntry o.vmctxImportedTablesBegin o.numImportedTables index o.sizeOfVmtableImport

/-- `vmctx_vmmemory_import`. -/
def vmctxVmmemoryImport (index : Nat) : Option Nat :=
  arrayEntry o.vmctxImportedMemoriesBegin o.numImportedMemories index o.sizeOfVmmemoryImport

/-- `vmctx_vmglobal_import`. -/
def vmctxVmglobalImport (index : Nat) : Option Nat :=
  arrayEntry o.vmctxImportedGlobalsBegin o.numImportedGlobals index o.sizeOfVmglobalImport

/-- `vmctx_vmtable_definition`. -/
def vmctxVmtableDefinition (index : Nat) : Option Nat :=
  arrayEntry o.vmctxTablesBegin o.numDefinedTables index o.sizeOfVmtableDefinition

/-- `vmctx_vmmemory_definition`. -/
def vmctxVmmemoryDefinition (index : Nat) : Option Nat :=
  arrayEntry o.vmctxMemoriesBegin o.numDefinedMemories index o.sizeOfVmmemoryDefinition

/-- `vmctx_vmglobal_definition`. -/
def vmctxVmglobalDefinition (index : Nat) : Option Nat :=
  arrayEntry o.vmctxGlobalsBegin o.numDefinedGlobals index sizeOfVmglobalDefinition

/-- `vmctx_vmfunction_import_body`. -/
def vmctxVmfunctionImportBody (index : Nat) : Option Nat :=
  (o.vmctxVmfunctionImport index).bind (checkedAddU32 · o.vmfunctionImportBody)

/-- `vmctx_vmfunction_import_vmctx`. -/
def vmctxVmfunctionImportVmctx (index : Nat) : Option Nat :=
  (o.vmctxVmfunctionImport index).bind (checkedAddU32 · o.vmfunctionImportVmctx)

/-- `vmctx_vmtable_import_from`. -/
def vmctxVmtableImportFrom (index : Nat) : Option Nat :=
  (o.vmctxVmtableImport index).bind (checkedAddU32 · o.vmtableImportFrom)

/-- `vmctx_vmtable_definition_base`. -/
def vmctxVmtableDefinitionBase (index : Nat) : Option Nat :=
  (o.vmctxVmtableDefinition index).bind (checkedAddU32 · o.vmtableDefinitionBase)

/-- `vmctx_vmtable_definition_current_elements`. -/
def vmctxVmtableDefinitionCurrentElements (index : Nat) : Option Nat :=
  (o.vmctxVmtableDefinition index).bind (checkedAddU32 · o.vmtableDefinitionCurrentElements)

/-- `vmctx_vmmemory_import_from`. -/
def vmctxVmmemoryImportFrom (index : Nat) : Option Nat :=
  (o.vmctxVmmemoryImport index).bind (checkedAddU32 · o.vmmemoryImportFrom)

/-- `vmctx_vmmemory_import_vmctx`. -/
def vmctxVmmemoryImportVmctx (index : Nat) : Option Nat :=
  (o.vmctxVmmemoryImport index).bind (checkedAddU32 · o.vmmemoryImportVmctx)

/-- `vmctx_vmmemory_definition_base`. -/
def vmctxVmmemoryDefinitionBase (index : Nat) : Option Nat :=
  (o.vmctxVmmemoryDefinition index).bind (checkedAddU32 · o.vmmemoryDefinitionBase)

/-- `vmctx_vmmemory_definition_current_length`. -/
def vmctxVmmemoryDefinitionCurrentLength (index : Nat) : Option Nat :=
  (o.vmctxVmmemoryDefinition index).bind (checkedAddU32 · o.vmmemoryDefinitionCurrentLength)

/-- `vmctx_vmglobal_import_from`. -/
def vmctxVmglobalImportFrom (index : Nat) : Option Nat :=
  (o.vmctxVmglobalImport index).bind (checkedAddU32 · o.vmglobalImportFrom)

/-- `vmctx_builtin_function`. -/
def vmctxBuiltinFunction (index : Nat) : Option Nat :=
  arrayEnd o.vmctxBuiltinFunctionsBegin index o.pointerSize

end VMOffsets

/-! ## Address arithmetic -/

theorem checkedAddU32_eq_some {a b c : Nat} :
    checkedAddU32 a b = some c ↔ c = a + b ∧ c < 2 ^ 32 := by
  unfold checkedAddU32
  split
  · rename_i h
    rw [Option.some.injEq]
    constructor
    · rintro rfl
      exact ⟨rfl, h⟩
    · rintro ⟨rfl, -⟩
      rfl
  · rename_i h
    refine ⟨fun he => absurd he (by simp), ?_⟩
    rintro ⟨rfl, hlt⟩
    exact absurd hlt h

theorem checkedMulU32_eq_some {a b c : Nat} :
    checkedMulU32 a b = some c ↔ c = a * b ∧ c < 2 ^ 32 := by
  unfold checkedMulU32
  split
  · rename_i h
    rw [Option.some.injEq]
    constructor
    · rintro rfl
      exact ⟨rfl, h⟩
    · rintro ⟨rfl, -⟩
      rfl
  · rename_i h
    refine ⟨fun he => absurd he (by simp), ?_⟩
    rintro ⟨rfl, hlt⟩
    exact absurd hlt h

/-- Where an array ends. The check of the product follows from that of the sum. -/
theorem arrayEnd_eq_some_iff {start : Option Nat} {count size e : Nat} :
    arrayEnd start count size = some e ↔
      ∃ b, start = some b ∧ e = b + count * size ∧ e < 2 ^ 32 := by
  unfold arrayEnd
  constructor
  · intro h
    obtain ⟨b, hb, h⟩ := Option.bind_eq_some_iff.mp h
    obtain ⟨p, hp, h⟩ := Option.bind_eq_some_iff.mp h
    obtain ⟨rfl, -⟩ := checkedMulU32_eq_some.mp hp
    exact ⟨b, hb, checkedAddU32_eq_some.mp h⟩
  · rintro ⟨b, rfl, rfl, hlt⟩
    have hmul : checkedMulU32 count size = some (count * size) :=
      checkedMulU32_eq_some.mpr ⟨rfl, by omega⟩
    rw [Option.bind_some, hmul, Option.bind_some]
    exact checkedAddU32_eq_some.mpr ⟨rfl, hlt⟩

theorem arrayEnd_eq_some {start : Option Nat} {count size e : Nat}
    (h : arrayEnd start count size = some e) : ∃ b, start = some b ∧ e = b + count * size := by
  obtain ⟨b, hb, he, -⟩ := arrayEnd_eq_some_iff.mp h
  exact ⟨b, hb, he⟩

/-- The address of an entry. -/
theorem arrayEntry_eq_some {start : Option Nat} {count index size e : Nat}
    (h : arrayEntry start count index size = some e) :
    index < count ∧ ∃ b, start = some b ∧ e = b + index * size := by
  unfold arrayEntry at h
  split at h
  · rename_i hlt
    exact ⟨hlt, arrayEnd_eq_some h⟩
  · exact absurd h (by simp)

/-- An entry whose array fits is found. -/
theorem arrayEntry_of_arrayEnd {start : Option Nat} {count index size e : Nat}
    (h : arrayEnd start count size = some e) (hlt : index < count) :
    ∃ b, start = some b ∧ arrayEntry start count index size = some (b + index * size) ∧
      b + (index + 1) * size < 2 ^ 32 := by
  obtain ⟨b, hb, rfl, hfit⟩ := arrayEnd_eq_some_iff.mp h
  have hle : (index + 1) * size ≤ count * size := Nat.mul_le_mul_right size hlt
  have hle' : index * size ≤ (index + 1) * size := Nat.mul_le_mul_right size (by omega)
  refine ⟨b, hb, ?_, by omega⟩
  unfold arrayEntry
  rw [if_pos hlt, arrayEnd_eq_some_iff]
  exact ⟨b, hb, rfl, by omega⟩

theorem castToU32_eq_some {n m : Nat} : castToU32 n = some m ↔ n = m ∧ n < 2 ^ 32 := by
  unfold castToU32
  split
  · rename_i h
    rw [Option.some.injEq]
    exact ⟨fun he => ⟨he, h⟩, fun he => he.1⟩
  · rename_i h
    exact ⟨fun he => absurd he (by simp), fun he => absurd he.2 h⟩

/-- What `VMOffsets::new` reads of a module. -/
theorem VMOffsets.new_eq_some {Sig : Type} {pointerSize : Nat} {module : Module Sig}
    {o : VMOffsets} (h : VMOffsets.new pointerSize module = some o) :
    o = ⟨pointerSize, module.signatures.length, module.importedFuncs.length,
      module.importedTables.length, module.importedMemories.length, module.importedGlobals.length,
      module.tablePlans.length, module.memoryPlans.length, module.globals.length⟩ := by
  unfold VMOffsets.new at h
  obtain ⟨n1, h1, h⟩ := Option.bind_eq_some_iff.mp h
  obtain ⟨n2, h2, h⟩ := Option.bind_eq_some_iff.mp h
  obtain ⟨n3, h3, h⟩ := Option.bind_eq_some_iff.mp h
  obtain ⟨n4, h4, h⟩ := Option.bind_eq_some_iff.mp h
  obtain ⟨n5, h5, h⟩ := Option.bind_eq_some_iff.mp h
  obtain ⟨n6, h6, h⟩ := Option.bind_eq_some_iff.mp h
  obtain ⟨n7, h7, h⟩ := Option.bind_eq_some_iff.mp h
  obtain ⟨n8, h8, h⟩ := Option.bind_eq_some_iff.mp h
  rw [castToU32_eq_some] at h1 h2 h3 h4 h5 h6 h7 h8
  rw [h1.1, h2.1, h3.1, h4.1, h5.1, h6.1, h7.1, h8.1]
  exact (Option.some.inj h).symm

namespace VMOffsets

/-- A layout that fits has room for its memory definitions. -/
theorem memories_fit {o : VMOffsets} {n : Nat} (h : o.sizeOfVmctx = some n) :
    ∃ e, arrayEnd o.vmctxMemoriesBegin o.numDefinedMemories o.sizeOfVmmemoryDefinition = some e := by
  unfold sizeOfVmctx at h
  obtain ⟨b, hb, -⟩ := arrayEnd_eq_some h
  unfold vmctxBuiltinFunctionsBegin at hb
  obtain ⟨b, hb, -⟩ := arrayEnd_eq_some hb
  unfold vmctxGlobalsBegin at hb
  obtain ⟨e, he, -⟩ := Option.map_eq_some_iff.mp hb
  exact ⟨e, he⟩

/-- Where the length field of a memory definition lies, in a layout that fits. -/
theorem vmctxVmmemoryDefinitionCurrentLength_eq {o : VMOffsets} {n index : Nat}
    (h : o.sizeOfVmctx = some n) (hlt : index < o.numDefinedMemories) :
    ∃ b, o.vmctxMemoriesBegin = some b ∧
      o.vmctxVmmemoryDefinitionCurrentLength index =
        some (b + index * (2 * o.pointerSize) + 1 * o.pointerSize) := by
  obtain ⟨e, he⟩ := memories_fit h
  obtain ⟨b, hb, hentry, hfit⟩ := arrayEntry_of_arrayEnd he hlt
  refine ⟨b, hb, ?_⟩
  unfold vmctxVmmemoryDefinitionCurrentLength vmctxVmmemoryDefinition
  unfold sizeOfVmmemoryDefinition at hentry hfit ⊢
  rw [hentry, Option.bind_some, checkedAddU32_eq_some]
  unfold vmmemoryDefinitionCurrentLength
  rw [Nat.succ_mul] at hfit
  exact ⟨rfl, by omega⟩

/-- The memory imports fit as well, and lie before the memory definitions. -/
theorem importedMemories_fit {o : VMOffsets} {b : Nat} (h : o.vmctxMemoriesBegin = some b) :
    ∃ e, arrayEnd o.vmctxImportedMemoriesBegin o.numImportedMemories o.sizeOfVmmemoryImport = some e ∧
      e ≤ b := by
  unfold vmctxMemoriesBegin at h
  obtain ⟨tables, htables, rfl⟩ := arrayEnd_eq_some h
  unfold vmctxTablesBegin at htables
  obtain ⟨globals, hglobals, rfl⟩ := arrayEnd_eq_some htables
  exact ⟨globals, hglobals, by omega⟩

/-- Where the `from` field of a memory import lies. -/
theorem vmctxVmmemoryImportFrom_eq {o : VMOffsets} {e index : Nat}
    (h : arrayEnd o.vmctxImportedMemoriesBegin o.numImportedMemories o.sizeOfVmmemoryImport = some e)
    (hlt : index < o.numImportedMemories) :
    ∃ b, o.vmctxImportedMemoriesBegin = some b ∧
      o.vmctxVmmemoryImportFrom index = some (b + index * (2 * o.pointerSize) + 0 * o.pointerSize) ∧
      b + index * (2 * o.pointerSize) + 2 * o.pointerSize ≤ e := by
  obtain ⟨b, hb, hentry, hfit⟩ := arrayEntry_of_arrayEnd h hlt
  obtain ⟨b', hb', rfl⟩ := arrayEnd_eq_some h
  obtain rfl := Option.some.inj (hb.symm.trans hb')
  unfold sizeOfVmmemoryImport at hentry hfit ⊢
  have hle : (index + 1) * (2 * o.pointerSize) ≤ o.numImportedMemories * (2 * o.pointerSize) :=
    Nat.mul_le_mul_right _ hlt
  rw [Nat.succ_mul] at hle hfit
  refine ⟨b, hb, ?_, by omega⟩
  unfold vmctxVmmemoryImportFrom vmctxVmmemoryImport vmmemoryImportFrom sizeOfVmmemoryImport
  rw [hentry, Option.bind_some, checkedAddU32_eq_some]
  exact ⟨rfl, by omega⟩

end VMOffsets

end Wasmtime.Environ
