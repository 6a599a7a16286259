import Mathlib.Data.BitVec
import Mathlib.Tactic.Ring
import Wasmtime.Environ.VmOffsets
import Wasmtime.Runtime.Instance

/-!
# The layout of the `VMContext`

The nine arrays that `vmctx_*_begin` and `size_of_vmctx` (`wasmtime-environ/src/vmoffsets.rs`) lay
out, the offsets of their entries and of the fields in them, and `Instance::table_index` and
`Instance::memory_index` (`wasmtime-runtime/src/instance.rs`), which go from the address of a
definition back to its index.

* `VmctxArray` names the arrays in the order of the layout, `VmctxField` the fields that have an
  accessor of their own.
* An address is a `usize` of the host, a `BitVec` of eight times the pointer size: the pointer
  arithmetic of `table_index` is modular.
* `size_of::<VMTableDefinition>()` and `size_of::<VMMemoryDefinition>()` are those of `repr(C)`.

Results:
* `arrayBegin_eq`: when `size_of_vmctx` returns, every array begins where the sum of the sizes
  before it says.
* `laidOut_of_room`: the arrays are disjoint, inside, and their accessors stay in them, if rounding
  the globals up to sixteen bytes does not wrap.
* `laidOut_iff`: and only then. `align` is the one unchecked addition of the layout.
-/

namespace Wasmtime.Runtime

open Environ

/-- The arrays of a `VMContext`, in the order of the layout. -/
inductive VmctxArray where
  | signatureIds
  | importedFunctions
  | importedTables
  | importedMemories
  | importedGlobals
  | tables
  | memories
  | globals
  | builtinFunctions
  deriving DecidableEq, Repr

/-- The fields of an entry that have an accessor of their own. -/
inductive VmctxField where
  | functionImportBody
  | functionImportVmctx
  | tableImportFrom
  | tableDefinitionBase
  | tableDefinitionCurrentElements
  | memoryImportFrom
  | memoryImportVmctx
  | memoryDefinitionBase
  | memoryDefinitionCurrentLength
  | globalImportFrom
  deriving DecidableEq, Repr

namespace VmctxArray

variable (o : VMOffsets)

/-- The `vmctx_*_begin` of an array. -/
def begin : VmctxArray → Option Nat
  | signatureIds => VMOffsets.vmctxSignatureIdsBegin
  | importedFunctions => o.vmctxImportedFunctionsBegin
  | importedTables => o.vmctxImportedTablesBegin
  | importedMemories => o.vmctxImportedMemoriesBegin
  | importedGlobals => o.vmctxImportedGlobalsBegin
  | tables => o.vmctxTablesBegin
  | memories => o.vmctxMemoriesBegin
  | globals => o.vmctxGlobalsBegin
  | builtinFunctions => o.vmctxBuiltinFunctionsBegin

/-- The number of entries of an array. -/
def count : VmctxArray → Nat
  | signatureIds => o.numSignatureIds
  | importedFunctions => o.numImportedFunctions
  | importedTables => o.numImportedTables
  | importedMemories => o.numImportedMemories
  | importedGlobals => o.numImportedGlobals
  | tables => o.numDefinedTables
  | memories => o.numDefinedMemories
  | globals => o.numDefinedGlobals
  | builtinFunctions => builtinFunctionsTotalNumber

/-- The size of an entry of an array. -/
def entrySize : VmctxArray → Nat
  | signatureIds => VMOffsets.sizeOfVmsharedSignatureIndex
  | importedFunctions => o.sizeOfVmfunctionImport
  | importedTables => o.sizeOfVmtableImport
  | importedMemories => o.sizeOfVmmemoryImport
  | importedGlobals => o.sizeOfVmglobalImport
  | tables => o.sizeOfVmtableDefinition
  | memories => o.sizeOfVmmemoryDefinition
  | globals => VMOffsets.sizeOfVmglobalDefinition
  | builtinFunctions => o.pointerSize

/-- The accessor of an entry of an array. -/
def entry : VmctxArray → Nat → Option Nat
  | signatureIds => o.vmctxVmsharedSignatureId
  | importedFunctions => o.vmctxVmfunctionImport
  | importedTables => o.vmctxVmtableImport
  | importedMemories => o.vmctxVmmemoryImport
  | importedGlobals => o.vmctxVmglobalImport
  | tables => o.vmctxVmtableDefinition
  | memories => o.vmctxVmmemoryDefinition
  | globals => o.vmctxVmglobalDefinition
  | builtinFunctions => o.vmctxBuiltinFunction

end VmctxArray

namespace VmctxField

variable (o : VMOffsets)

/-- The array of a field. -/
def array : VmctxField → VmctxArray
  | functionImportBody => .importedFunctions
  | functionImportVmctx => .importedFunctions
  | tableImportFrom => .importedTables
  | tableDefinitionBase => .tables
  | tableDefinitionCurrentElements => .tables
  | memoryImportFrom => .importedMemories
  | memoryImportVmctx => .importedMemories
  | memoryDefinitionBase => .memories
  | memoryDefinitionCurrentLength => .memories
  | globalImportFrom => .importedGlobals

/-- The offset of a field in its entry. -/
def offset : VmctxField → Nat
  | functionImportBody => o.vmfunctionImportBody
  | functionImportVmctx => o.vmfunctionImportVmctx
  | tableImportFrom => o.vmtableImportFrom
  | tableDefinitionBase => o.vmtableDefinitionBase
  | tableDefinitionCurrentElements => o.vmtableDefinitionCurrentElements
  | memoryImportFrom => o.vmmemoryImportFrom
  | memoryImportVmctx => o.vmmemoryImportVmctx
  | memoryDefinitionBase => o.vmmemoryDefinitionBase
  | memoryDefinitionCurrentLength => o.vmmemoryDefinitionCurrentLength
  | globalImportFrom => o.vmglobalImportFrom

/-- The size of a field. The length of a memory is a `usize`, of which compiled code reads four
bytes. -/
def size : VmctxField → Nat
  | tableDefinitionCurrentElements => VMOffsets.sizeOfVmtableDefinitionCurrentElements
  | _ => o.pointerSize

/-- The accessor of a field. -/
def entry : VmctxField → Nat → Option Nat
  | functionImportBody => o.vmctxVmfunctionImportBody
  | functionImportVmctx => o.vmctxVmfunctionImportVmctx
  | tableImportFrom => o.vmctxVmtableImportFrom
  | tableDefinitionBase => o.vmctxVmtableDefinitionBase
  | tableDefinitionCurrentElements => o.vmctxVmtableDefinitionCurrentElements
  | memoryImportFrom => o.vmctxVmmemoryImportFrom
  | memoryImportVmctx => o.vmctxVmmemoryImportVmctx
  | memoryDefinitionBase => o.vmctxVmmemoryDefinitionBase
  | memoryDefinitionCurrentLength => o.vmctxVmmemoryDefinitionCurrentLength
  | globalImportFrom => o.vmctxVmglobalImportFrom

end VmctxField

/-! ## From an address back to an index -/

/-- The size of a `repr(C)` structure of a pointer and `width` bytes: rounded up to the alignment of
the pointer. -/
def sizeOfPointerAnd (pointerSize width : Nat) : Nat :=
  (pointerSize + width + (pointerSize - 1)) / pointerSize * pointerSize

/-- `mem::size_of::<VMTableDefinition>()`. -/
def sizeOfTableDefinition (pointerSize : Nat) : Nat := sizeOfPointerAnd pointerSize 4

/-- `mem::size_of::<VMMemoryDefinition>()`. -/
def sizeOfMemoryDefinition (pointerSize : Nat) : Nat := sizeOfPointerAnd pointerSize pointerSize

/-- The shape shared by `table_index` and `memory_index`: the distance from the beginning of the
array, in definitions, asserted to be below their number. -/
def indexOfDefinition {w : Nat} (start : Option Nat) (size len : Nat)
    (vmctx definition : BitVec w) : Option Nat :=
  start.bind fun b =>
    let index := (definition - (vmctx + BitVec.ofNat w b)).toNat / size
    if index < len then some index else none

/-- `Instance::table_index`, of an instance with `len` tables whose `VMContext` is at `vmctx`. -/
def tableIndex (o : VMOffsets) (len : Nat) (vmctx table : BitVec (8 * o.pointerSize)) : Option Nat :=
  indexOfDefinition o.vmctxTablesBegin (sizeOfTableDefinition o.pointerSize) len vmctx table

/-- `Instance::memory_index`, of an instance with `len` memories whose `VMContext` is at `vmctx`. -/
def memoryIndex (o : VMOffsets) (len : Nat) (vmctx memory : BitVec (8 * o.pointerSize)) :
    Option Nat :=
  indexOfDefinition o.vmctxMemoriesBegin (sizeOfMemoryDefinition o.pointerSize) len vmctx memory

/-- A byte of an array. -/
def VmctxArray.Covers (o : VMOffsets) (a : VmctxArray) (x : Nat) : Prop :=
  ∃ b, a.begin o = some b ∧ b ≤ x ∧ x < b + a.count o * a.entrySize o

/-- What a layout of `n` bytes, of an instance with `tables` tables and `memories` memories, is for:
nothing overlaps, every accessor stays in its array, and a definition is found by its address. -/
structure LaidOut (o : VMOffsets) (tables memories n : Nat) : Prop where
  /-- Two arrays share no byte. -/
  disjoint : ∀ a a' : VmctxArray, a ≠ a' → ∀ x, a.Covers o x → ¬ a'.Covers o x
  /-- Every array is inside the allocation. -/
  inside : ∀ a : VmctxArray, ∃ b, a.begin o = some b ∧ b + a.count o * a.entrySize o ≤ n
  /-- The accessor of an entry returns for every index its assert accepts, and the entry is in the
  array. -/
  entry : ∀ (a : VmctxArray) (index : Nat), index < a.count o →
    ∃ b e, a.begin o = some b ∧ a.entry o index = some e ∧
      b ≤ e ∧ e + a.entrySize o ≤ b + a.count o * a.entrySize o
  /-- So does the accessor of a field, and the field is in the entry. -/
  field : ∀ (f : VmctxField) (index : Nat), index < f.array.count o →
    ∃ e x, f.array.entry o index = some e ∧ f.entry o index = some x ∧
      e ≤ x ∧ x + f.size o ≤ e + f.array.entrySize o
  /-- `table_index` undoes the offset of a table. -/
  table : ∀ (vmctx : BitVec (8 * o.pointerSize)) (index : Nat), index < tables →
    ∃ e, o.vmctxVmtableDefinition index = some e ∧
      tableIndex o tables vmctx (vmctx + BitVec.ofNat _ e) = some index
  /-- `memory_index` undoes the offset of a memory. -/
  memory : ∀ (vmctx : BitVec (8 * o.pointerSize)) (index : Nat), index < memories →
    ∃ e, o.vmctxVmmemoryDefinition index = some e ∧
      memoryIndex o memories vmctx (vmctx + BitVec.ofNat _ e) = some index

/-! ## Where the arrays begin -/

/-- The bytes of the arrays before the globals, with no bound on the sum. -/
def memoriesEnd (o : VMOffsets) : Nat :=
  o.numSignatureIds * 4 + o.numImportedFunctions * (2 * o.pointerSize) +
    o.numImportedTables * (2 * o.pointerSize) + o.numImportedMemories * (2 * o.pointerSize) +
    o.numImportedGlobals * (1 * o.pointerSize) + o.numDefinedTables * (2 * o.pointerSize) +
    o.numDefinedMemories * (2 * o.pointerSize)

/-- Where the arrays begin, with no bound on the sums. -/
def VmctxArray.start (o : VMOffsets) (a : VmctxArray) : Nat :=
  let s1 := o.numSignatureIds * 4
  let s2 := s1 + o.numImportedFunctions * (2 * o.pointerSize)
  let s3 := s2 + o.numImportedTables * (2 * o.pointerSize)
  let s4 := s3 + o.numImportedMemories * (2 * o.pointerSize)
  let s5 := s4 + o.numImportedGlobals * (1 * o.pointerSize)
  let s6 := s5 + o.numDefinedTables * (2 * o.pointerSize)
  let s7 := align (memoriesEnd o) 16
  match a with
  | .signatureIds => 0
  | .importedFunctions => s1
  | .importedTables => s2
  | .importedMemories => s3
  | .importedGlobals => s4
  | .tables => s5
  | .memories => s6
  | .globals => s7
  | .builtinFunctions => s7 + o.numDefinedGlobals * 16

/-- When `size_of_vmctx` returns, every `vmctx_*_begin` returns the sum of what comes before it. -/
theorem arrayBegin_eq {o : VMOffsets} {n : Nat} (h : o.sizeOfVmctx = some n) :
    (∀ a : VmctxArray, a.begin o = some (a.start o)) ∧ memoriesEnd o < 2 ^ 32 ∧
      n = VmctxArray.start o .builtinFunctions + 4 * o.pointerSize ∧ n < 2 ^ 32 := by
  obtain ⟨f, hf, hn, hnlt⟩ := arrayEnd_eq_some_iff.mp h
  obtain ⟨g, hg, hfe, -⟩ := arrayEnd_eq_some_iff.mp hf
  obtain ⟨e, he, hge⟩ := Option.map_eq_some_iff.mp hg
  obtain ⟨b6, h6, hee, helt⟩ := arrayEnd_eq_some_iff.mp he
  obtain ⟨b5, h5, h6e, -⟩ := arrayEnd_eq_some_iff.mp h6
  obtain ⟨b4, h4, h5e, -⟩ := arrayEnd_eq_some_iff.mp h5
  obtain ⟨b3, h3, h4e, -⟩ := arrayEnd_eq_some_iff.mp h4
  obtain ⟨b2, h2, h3e, -⟩ := arrayEnd_eq_some_iff.mp h3
  obtain ⟨b1, h1, h2e, -⟩ := arrayEnd_eq_some_iff.mp h2
  obtain ⟨b0, h0, h1e, -⟩ := arrayEnd_eq_some_iff.mp h1
  obtain rfl : 0 = b0 := Option.some.inj h0
  rw [Nat.zero_add] at h1e
  subst h1e h2e h3e h4e h5e h6e hee hge hfe
  refine ⟨fun a => ?_, helt, hn, hnlt⟩
  cases a
  · exact h0
  · exact h1
  · exact h2
  · exact h3
  · exact h4
  · exact h5
  · exact h6
  · exact hg
  · exact hf

/-- Where an array ends. -/
def VmctxArray.finish (o : VMOffsets) (a : VmctxArray) : Nat :=
  a.start o + a.count o * a.entrySize o

theorem covers_iff {o : VMOffsets} {n : Nat} (h : o.sizeOfVmctx = some n) {a : VmctxArray}
    {x : Nat} : a.Covers o x ↔ a.start o ≤ x ∧ x < a.finish o := by
  unfold VmctxArray.Covers VmctxArray.finish
  rw [(arrayBegin_eq h).1 a]
  constructor
  · rintro ⟨b, hb, hx⟩
    obtain rfl := Option.some.inj hb
    exact hx
  · intro hx
    exact ⟨_, rfl, hx⟩

/-- Rounding up, when the sum does not wrap. -/
theorem align_eq {x : Nat} (h : x + 15 < 2 ^ 32) : x ≤ align x 16 ∧ align x 16 < x + 16 := by
  unfold align
  rw [Nat.mod_eq_of_lt h]
  omega

/-- Rounding up, when the sum wraps: the globals are laid over the beginning. -/
theorem align_wrap {x : Nat} (hx : x < 2 ^ 32) (h : 2 ^ 32 ≤ x + 15) : align x 16 = 0 := by
  unfold align
  rw [Nat.mod_eq_sub_mod h, Nat.mod_eq_of_lt (by omega)]
  omega

/-- The arrays follow one another. -/
theorem finish_le_start {o : VMOffsets} (hroom : memoriesEnd o + 15 < 2 ^ 32) {a a' : VmctxArray}
    (h : a.ctorIdx < a'.ctorIdx) : a.finish o ≤ a'.start o := by
  have halign := (align_eq hroom).1
  obtain ⟨g, hg⟩ : ∃ g, g = align (memoriesEnd o) 16 := ⟨_, rfl⟩
  rw [← hg] at halign
  unfold VmctxArray.finish VmctxArray.start
  rw [← hg]
  unfold memoriesEnd at halign
  cases a <;> cases a' <;> first
    | exact absurd h (by decide)
    | (simp only [VmctxArray.count, VmctxArray.entrySize, VMOffsets.sizeOfVmsharedSignatureIndex,
        VMOffsets.sizeOfVmfunctionImport, VMOffsets.sizeOfVmtableImport,
        VMOffsets.sizeOfVmmemoryImport, VMOffsets.sizeOfVmglobalImport,
        VMOffsets.sizeOfVmtableDefinition, VMOffsets.sizeOfVmmemoryDefinition,
        VMOffsets.sizeOfVmglobalDefinition]
       omega)

/-- The builtin functions come last. -/
theorem finish_le {o : VMOffsets} {n : Nat} (h : o.sizeOfVmctx = some n)
    (hroom : memoriesEnd o + 15 < 2 ^ 32) (a : VmctxArray) : a.finish o ≤ n := by
  obtain ⟨-, -, hn, -⟩ := arrayBegin_eq h
  have hlast : VmctxArray.finish o .builtinFunctions = n := hn.symm
  by_cases ha : a = .builtinFunctions
  · rw [ha, hlast]
  · have hlt : a.ctorIdx < VmctxArray.ctorIdx .builtinFunctions := by
      cases a <;> first | decide | exact absurd rfl ha
    have hle := finish_le_start hroom hlt
    have : VmctxArray.start o .builtinFunctions ≤ VmctxArray.finish o .builtinFunctions :=
      Nat.le_add_right _ _
    omega

/-! ## Entries and fields -/

/-- The accessors of the entries are one function of the array. -/
theorem entry_eq {o : VMOffsets} {a : VmctxArray} {index : Nat} (h : index < a.count o) :
    a.entry o index = arrayEnd (a.begin o) index (a.entrySize o) := by
  cases a <;> first | exact if_pos h | rfl

/-- The accessors of the fields add the offset of the field. -/
theorem field_eq (o : VMOffsets) (f : VmctxField) (index : Nat) :
    f.entry o index = (f.array.entry o index).bind (checkedAddU32 · (f.offset o)) := by
  cases f <;> rfl

/-- Every field is in its entry. -/
theorem field_le {o : VMOffsets} (hp : 4 ≤ o.pointerSize) (f : VmctxField) :
    f.offset o + f.size o ≤ f.array.entrySize o := by
  cases f <;>
    simp only [VmctxField.offset, VmctxField.size, VmctxField.array, VmctxArray.entrySize,
      VMOffsets.vmfunctionImportBody, VMOffsets.vmfunctionImportVmctx, VMOffsets.vmtableImportFrom,
      VMOffsets.vmtableDefinitionBase, VMOffsets.vmtableDefinitionCurrentElements,
      VMOffsets.vmmemoryImportFrom, VMOffsets.vmmemoryImportVmctx, VMOffsets.vmmemoryDefinitionBase,
      VMOffsets.vmmemoryDefinitionCurrentLength, VMOffsets.vmglobalImportFrom,
      VMOffsets.sizeOfVmfunctionImport, VMOffsets.sizeOfVmtableImport,
      VMOffsets.sizeOfVmmemoryImport, VMOffsets.sizeOfVmglobalImport,
      VMOffsets.sizeOfVmtableDefinition, VMOffsets.sizeOfVmmemoryDefinition,
      VMOffsets.sizeOfVmtableDefinitionCurrentElements] <;>
    omega

/-- An entry of an array that ends below `n`. -/
theorem entry_eq_some {o : VMOffsets} {n index : Nat} (h : o.sizeOfVmctx = some n)
    {a : VmctxArray} (hfinish : a.finish o ≤ n) (hlt : index < a.count o) :
    a.entry o index = some (a.start o + index * a.entrySize o) ∧
      a.start o + index * a.entrySize o + a.entrySize o ≤ a.finish o := by
  obtain ⟨hbegin, -, -, hn⟩ := arrayBegin_eq h
  have hle : (index + 1) * a.entrySize o ≤ a.count o * a.entrySize o :=
    Nat.mul_le_mul_right _ hlt
  rw [Nat.succ_mul] at hle
  unfold VmctxArray.finish at hfinish ⊢
  refine ⟨?_, by omega⟩
  rw [entry_eq hlt, arrayEnd_eq_some_iff]
  exact ⟨_, hbegin a, rfl, by omega⟩

/-- The distance between two addresses of one `VMContext`, in definitions. -/
theorem indexOfDefinition_entry {w b size len k : Nat} (hw : 32 ≤ w) (vmctx : BitVec w)
    (hsize : 0 < size) (hk : k < len) (hlt : b + k * size < 2 ^ 32) :
    indexOfDefinition (some b) size len vmctx (vmctx + BitVec.ofNat w (b + k * size)) =
      some k := by
  have hpow : 2 ^ 32 ≤ 2 ^ w := Nat.pow_le_pow_right (by decide) hw
  have hdist : (vmctx + BitVec.ofNat w (b + k * size) - (vmctx + BitVec.ofNat w b)).toNat =
      k * size := by
    rw [BitVec.ofNat_add, ← add_assoc, add_sub_cancel_left, BitVec.toNat_ofNat]
    exact Nat.mod_eq_of_lt (by omega)
  unfold indexOfDefinition
  rw [Option.bind_some, hdist, Nat.mul_div_cancel _ hsize, if_pos hk]

/-- On the hosts there are, the definitions have the size the layout gives them. -/
theorem sizeOfDefinition_eq {p : Nat} (hp : p = 4 ∨ p = 8) :
    sizeOfTableDefinition p = 2 * p ∧ sizeOfMemoryDefinition p = 2 * p := by
  obtain rfl | rfl := hp <;> decide

/-! ## The layout -/

/-- **A layout with room to round up is right.** -/
theorem laidOut_of_room {o : VMOffsets} {n tables memories : Nat} (h : o.sizeOfVmctx = some n)
    (hp : o.pointerSize = 4 ∨ o.pointerSize = 8) (htables : tables ≤ o.numDefinedTables)
    (hmemories : memories ≤ o.numDefinedMemories) (hroom : memoriesEnd o + 15 < 2 ^ 32) :
    LaidOut o tables memories n := by
  obtain ⟨hbegin, -, -, hn⟩ := arrayBegin_eq h
  have hsize := sizeOfDefinition_eq hp
  have hentry : ∀ (a : VmctxArray) (index : Nat), index < a.count o → _ :=
    fun a index hlt => entry_eq_some h (finish_le h hroom a) hlt
  have hindex : ∀ (a : VmctxArray) (index len : Nat), a.entrySize o = 2 * o.pointerSize →
      index < a.count o → index < len → ∀ vmctx : BitVec (8 * o.pointerSize),
      indexOfDefinition (a.begin o) (2 * o.pointerSize) len vmctx
        (vmctx + BitVec.ofNat _ (a.start o + index * a.entrySize o)) = some index := by
    intro a index len hs hlt hlen vmctx
    have hle := (hentry a index hlt).2
    have hfin := finish_le h hroom a
    rw [hbegin a, hs]
    rw [hs] at hle
    exact indexOfDefinition_entry (by omega) vmctx (by omega) hlen (by omega)
  constructor
  · intro a a' hne x hx hx'
    rw [covers_iff h] at hx hx'
    have hidx : a.ctorIdx ≠ a'.ctorIdx := by
      intro he
      exact hne (by cases a <;> cases a' <;> first | rfl | exact absurd he (by decide))
    rcases Nat.lt_or_gt_of_ne hidx with hlt | hlt
    · have := finish_le_start hroom hlt
      omega
    · have := finish_le_start hroom hlt
      omega
  · intro a
    exact ⟨_, hbegin a, finish_le h hroom a⟩
  · intro a index hlt
    exact ⟨_, _, hbegin a, (hentry a index hlt).1, Nat.le_add_right _ _, (hentry a index hlt).2⟩
  · intro f index hlt
    have hfield := field_le (o := o) (by omega) f
    have hfin := finish_le h hroom f.array
    obtain ⟨he, hle⟩ := hentry f.array index hlt
    refine ⟨_, f.array.start o + index * f.array.entrySize o + f.offset o, he, ?_,
      Nat.le_add_right _ _, by omega⟩
    rw [field_eq, he, Option.bind_some, checkedAddU32_eq_some]
    exact ⟨rfl, by omega⟩
  · intro vmctx index hlt
    refine ⟨_, (hentry .tables index (by exact Nat.lt_of_lt_of_le hlt htables)).1, ?_⟩
    unfold tableIndex
    rw [hsize.1]
    exact hindex .tables index tables rfl (Nat.lt_of_lt_of_le hlt htables) hlt vmctx
  · intro vmctx index hlt
    refine ⟨_, (hentry .memories index (by exact Nat.lt_of_lt_of_le hlt hmemories)).1, ?_⟩
    unfold memoryIndex
    rw [hsize.2]
    exact hindex .memories index memories rfl (Nat.lt_of_lt_of_le hlt hmemories) hlt vmctx

/-- The arrays before the globals leave no gap. -/
theorem covers_of_lt_memoriesEnd {o : VMOffsets} {n : Nat} (h : o.sizeOfVmctx = some n) {x : Nat}
    (hx : x < memoriesEnd o) :
    ∃ a : VmctxArray, a ≠ .globals ∧ a ≠ .builtinFunctions ∧ a.Covers o x := by
  have key : ∀ a : VmctxArray, a.start o ≤ x → x < a.finish o → a.Covers o x :=
    fun a h1 h2 => (covers_iff h).mpr ⟨h1, h2⟩
  by_cases h1 : x < VmctxArray.start o .importedFunctions
  · exact ⟨.signatureIds, by decide, by decide, key _ (Nat.zero_le x) (by
      rw [VmctxArray.finish]; exact Nat.lt_of_lt_of_le h1 (Nat.le_add_left _ _))⟩
  by_cases h2 : x < VmctxArray.start o .importedTables
  · exact ⟨.importedFunctions, by decide, by decide, key _ (Nat.not_lt.mp h1) h2⟩
  by_cases h3 : x < VmctxArray.start o .importedMemories
  · exact ⟨.importedTables, by decide, by decide, key _ (Nat.not_lt.mp h2) h3⟩
  by_cases h4 : x < VmctxArray.start o .importedGlobals
  · exact ⟨.importedMemories, by decide, by decide, key _ (Nat.not_lt.mp h3) h4⟩
  by_cases h5 : x < VmctxArray.start o .tables
  · exact ⟨.importedGlobals, by decide, by decide, key _ (Nat.not_lt.mp h4) h5⟩
  by_cases h6 : x < VmctxArray.start o .memories
  · exact ⟨.tables, by decide, by decide, key _ (Nat.not_lt.mp h5) h6⟩
  · exact ⟨.memories, by decide, by decide, key _ (Nat.not_lt.mp h6) hx⟩

/-- A layout that wraps lays the globals and the builtin functions over the other arrays. -/
theorem room_of_laidOut {o : VMOffsets} {n tables memories : Nat} (h : o.sizeOfVmctx = some n)
    (hlaid : LaidOut o tables memories n) : memoriesEnd o + 15 < 2 ^ 32 := by
  obtain ⟨hbegin, hend, hn, -⟩ := arrayBegin_eq h
  by_contra hwrap
  have hzero := align_wrap hend (by omega)
  -- the last byte before the globals is in the allocation, which the last two arrays fill
  obtain ⟨a, hg, hb, hx⟩ := covers_of_lt_memoriesEnd h (x := memoriesEnd o - 1) (by omega)
  have hlt : memoriesEnd o - 1 < n := by
    obtain ⟨b, hb, hle⟩ := hlaid.inside a
    obtain ⟨b', hb', -, hx'⟩ := hx
    rw [hb] at hb'
    obtain rfl := Option.some.inj hb'
    omega
  have hstart : VmctxArray.start o .globals = 0 := hzero
  have hlast : VmctxArray.finish o .builtinFunctions = n := hn.symm
  by_cases hside : memoriesEnd o - 1 < VmctxArray.start o .builtinFunctions
  · refine hlaid.disjoint a .globals hg _ hx ((covers_iff h).mpr ⟨?_, hside⟩)
    omega
  · exact hlaid.disjoint a .builtinFunctions hb _ hx
      ((covers_iff h).mpr ⟨Nat.not_lt.mp hside, by omega⟩)

/-- **The layout is right exactly when rounding up does not wrap.** For every module and host for
which `size_of_vmctx` returns: the arrays before the globals must leave room for fifteen bytes of
padding below `2^32`. -/
theorem laidOut_iff {Sig : Type} {p n : Nat} {module : Module Sig} {o : VMOffsets}
    (hp : p = 4 ∨ p = 8) (ho : VMOffsets.new p module = some o) (h : o.sizeOfVmctx = some n) :
    LaidOut o (module.tablePlans.length - module.importedTables.length)
        (module.memoryPlans.length - module.importedMemories.length) n ↔
      4 * module.signatures.length +
        p * (2 * module.importedFuncs.length + 2 * module.importedTables.length +
          2 * module.importedMemories.length + module.importedGlobals.length +
          2 * module.tablePlans.length + 2 * module.memoryPlans.length) + 15 < 2 ^ 32 := by
  obtain rfl := VMOffsets.new_eq_some ho
  have hsum : 4 * module.signatures.length +
      p * (2 * module.importedFuncs.length + 2 * module.importedTables.length +
        2 * module.importedMemories.length + module.importedGlobals.length +
        2 * module.tablePlans.length + 2 * module.memoryPlans.length) =
      memoriesEnd ⟨p, module.signatures.length, module.importedFuncs.length,
        module.importedTables.length, module.importedMemories.length,
        module.importedGlobals.length, module.tablePlans.length, module.memoryPlans.length,
        module.globals.length⟩ := by
    unfold memoriesEnd
    ring
  rw [hsum]
  exact ⟨room_of_laidOut h, laidOut_of_room h hp (Nat.sub_le _ _) (Nat.sub_le _ _)⟩

/-- A module with one signature and one memory. -/
def smallModule : Module Unit :=
  { (Module.new : Module Unit) with
    signatures := [()]
    memoryPlans := [⟨⟨1, none, false⟩, .dynamic, 65536⟩] }

theorem laidOut_small :
    VMOffsets.new 8 smallModule = some ⟨8, 1, 0, 0, 0, 0, 0, 1, 0⟩ ∧
      LaidOut ⟨8, 1, 0, 0, 0, 0, 0, 1, 0⟩ 0 1 64 := by
  have hnew : VMOffsets.new 8 smallModule = some ⟨8, 1, 0, 0, 0, 0, 0, 1, 0⟩ := by decide
  have hsize : VMOffsets.sizeOfVmctx ⟨8, 1, 0, 0, 0, 0, 0, 1, 0⟩ = some 64 := by decide
  exact ⟨hnew, (laidOut_iff (.inr rfl) hnew hsize).mpr (by decide)⟩

/-- A module of `2^30 - 1` signatures and nothing else. -/
def manySignatures : Module Unit :=
  { (Module.new : Module Unit) with signatures := List.replicate (2 ^ 30 - 1) () }

/-- The signatures end four bytes below `2^32`; the globals are rounded up to offset zero, and the
allocation is as large as the builtin functions alone. -/
theorem not_laidOut_manySignatures :
    VMOffsets.new 8 manySignatures = some ⟨8, 2 ^ 30 - 1, 0, 0, 0, 0, 0, 0, 0⟩ ∧
      VMOffsets.sizeOfVmctx ⟨8, 2 ^ 30 - 1, 0, 0, 0, 0, 0, 0, 0⟩ = some 32 ∧
      ¬ LaidOut ⟨8, 2 ^ 30 - 1, 0, 0, 0, 0, 0, 0, 0⟩
        (manySignatures.tablePlans.length - manySignatures.importedTables.length)
        (manySignatures.memoryPlans.length - manySignatures.importedMemories.length) 32 := by
  have hlen : manySignatures.signatures.length = 2 ^ 30 - 1 := List.length_replicate
  have hsize : VMOffsets.sizeOfVmctx ⟨8, 2 ^ 30 - 1, 0, 0, 0, 0, 0, 0, 0⟩ = some 32 := by decide
  refine ⟨?_, hsize, fun hlaid => absurd (room_of_laidOut hsize hlaid) (by decide)⟩
  unfold VMOffsets.new
  rw [hlen]
  rfl

end Wasmtime.Runtime
