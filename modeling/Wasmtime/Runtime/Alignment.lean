import Mathlib.Algebra.Group.Even
import Wasmtime.Runtime.Layout

/-!
# Alignment in the `VMContext`

`InstanceHandle::new` and the accessors of `Instance` (`wasmtime-runtime/src/instance.rs`) cast the
address of an array, or of an entry, to a pointer to its Rust type. `vmctx_globals_begin`
(`wasmtime-environ/src/vmoffsets.rs`) rounds the globals up, and `check_vmglobal_begins_aligned`
(`wasmtime-runtime/src/vmcontext.rs`) tests it; the arrays of pointers are not rounded up, and come
after signature ids of four bytes each.

* `VmctxArray.alignment`: `mem::align_of` of the entries of an array.
* `aligned_of_importedFunctions`: if the first array of pointers is aligned, all arrays are.
* `aligned_iff`: which is so on a host of 32 bits, and on one of 64 bits for an even number of
  signatures.
-/

namespace Wasmtime.Runtime

open Environ

/-! ## Typed pointers -/

namespace VmctxArray

variable (o : VMOffsets)

/-- `mem::align_of` of an entry: a `VMSharedSignatureIndex` is a `u32`, a `VMGlobalDefinition` is
declared with `align(16)`, and the other entries hold pointers. -/
def alignment : VmctxArray → Nat
  | signatureIds => 4
  | globals => 16
  | _ => o.pointerSize

/-- `signature_ids_ptr` and its siblings. `add` does not wrap. -/
def ptr (vmctx : Nat) (a : VmctxArray) : Option Nat := (a.begin o).map (vmctx + ·)

/-- The pointer behind `signature_id`, `imported_function` and their siblings. -/
def entryPtr (vmctx : Nat) (a : VmctxArray) (index : Nat) : Option Nat :=
  (a.entry o index).map (vmctx + ·)

end VmctxArray

/-- The arrays begin where their entries may lie, and so every typed pointer is aligned. -/
structure Aligned (o : VMOffsets) : Prop where
  /-- Every array begins at a multiple of the alignment of its entries. -/
  begin : ∀ (a : VmctxArray) (b : Nat), a.begin o = some b → a.alignment o ∣ b
  /-- The pointer to an array is aligned. -/
  ptr : ∀ vmctx, 16 ∣ vmctx → ∀ (a : VmctxArray) (p : Nat), a.ptr o vmctx = some p →
    a.alignment o ∣ p
  /-- The pointer to an entry is aligned. -/
  entryPtr : ∀ vmctx, 16 ∣ vmctx → ∀ (a : VmctxArray) (index p : Nat),
    a.entryPtr o vmctx index = some p → a.alignment o ∣ p

/-! ## What an array does to alignment -/

/-- An array of aligned entries ends aligned if it begins aligned. -/
theorem dvd_arrayEnd {w count size e : Nat} {start : Option Nat} (hsize : w ∣ size)
    (hstart : ∀ b, start = some b → w ∣ b) (h : arrayEnd start count size = some e) : w ∣ e := by
  obtain ⟨b, hb, rfl⟩ := arrayEnd_eq_some h
  exact Nat.dvd_add (hstart b hb) (Dvd.dvd.mul_left hsize count)

theorem dvd_align (offset width : Nat) : width ∣ align offset width := Nat.dvd_mul_left _ _

/-- The size of an entry is a multiple of its alignment. -/
theorem alignment_dvd_entrySize (o : VMOffsets) (a : VmctxArray) :
    a.alignment o ∣ a.entrySize o := by
  cases a with
  | signatureIds => exact dvd_rfl
  | globals => exact dvd_rfl
  | builtinFunctions => exact dvd_rfl
  | importedGlobals => exact Nat.dvd_mul_left _ _
  | importedFunctions => exact Nat.dvd_mul_left _ _
  | importedTables => exact Nat.dvd_mul_left _ _
  | importedMemories => exact Nat.dvd_mul_left _ _
  | tables => exact Nat.dvd_mul_left _ _
  | memories => exact Nat.dvd_mul_left _ _

/-- An aligned `VMContext` has room for every type. -/
theorem alignment_dvd_sixteen {o : VMOffsets} (hp : o.pointerSize = 4 ∨ o.pointerSize = 8)
    (a : VmctxArray) : a.alignment o ∣ 16 := by
  have hpointer : o.pointerSize ∣ 16 := by
    obtain h | h := hp <;> rw [h] <;> decide
  cases a with
  | signatureIds => exact ⟨4, rfl⟩
  | globals => exact dvd_rfl
  | _ => exact hpointer

/-- An entry is found from the beginning of its array. -/
theorem begin_of_entry {o : VMOffsets} {a : VmctxArray} {index e : Nat}
    (h : a.entry o index = some e) : ∃ b, a.begin o = some b ∧ e = b + index * a.entrySize o := by
  cases a <;> first
    | exact (arrayEntry_eq_some h).2
    | exact arrayEnd_eq_some h

/-- Aligned arrays give aligned pointers. -/
theorem aligned_of_begin {o : VMOffsets} (hp : o.pointerSize = 4 ∨ o.pointerSize = 8)
    (hbegin : ∀ (a : VmctxArray) (b : Nat), a.begin o = some b → a.alignment o ∣ b) :
    Aligned o := by
  refine ⟨hbegin, fun vmctx hvmctx a p h => ?_, fun vmctx hvmctx a index p h => ?_⟩
  · obtain ⟨b, hb, rfl⟩ := Option.map_eq_some_iff.mp h
    exact Nat.dvd_add ((alignment_dvd_sixteen hp a).trans hvmctx) (hbegin a b hb)
  · obtain ⟨e, he, rfl⟩ := Option.map_eq_some_iff.mp h
    obtain ⟨b, hb, rfl⟩ := begin_of_entry he
    have hentry := Nat.dvd_add (hbegin a b hb) ((alignment_dvd_entrySize o a).mul_left index)
    exact Nat.dvd_add ((alignment_dvd_sixteen hp a).trans hvmctx) hentry

/-! ## The layout -/

/-- The arrays follow the imported functions: what holds there holds everywhere. -/
theorem aligned_of_importedFunctions {o : VMOffsets}
    (hp : o.pointerSize = 4 ∨ o.pointerSize = 8)
    (h : ∀ b, o.vmctxImportedFunctionsBegin = some b → o.pointerSize ∣ b) : Aligned o := by
  have hpair : o.pointerSize ∣ 2 * o.pointerSize := Nat.dvd_mul_left _ _
  have htables : ∀ b, o.vmctxImportedTablesBegin = some b → o.pointerSize ∣ b :=
    fun _ => dvd_arrayEnd hpair h
  have hmemories : ∀ b, o.vmctxImportedMemoriesBegin = some b → o.pointerSize ∣ b :=
    fun _ => dvd_arrayEnd hpair htables
  have hglobals : ∀ b, o.vmctxImportedGlobalsBegin = some b → o.pointerSize ∣ b :=
    fun _ => dvd_arrayEnd hpair hmemories
  have hdefinedTables : ∀ b, o.vmctxTablesBegin = some b → o.pointerSize ∣ b :=
    fun _ => dvd_arrayEnd (Nat.dvd_mul_left _ _) hglobals
  have hdefinedMemories : ∀ b, o.vmctxMemoriesBegin = some b → o.pointerSize ∣ b :=
    fun _ => dvd_arrayEnd hpair hdefinedTables
  have hdefinedGlobals : ∀ b, o.vmctxGlobalsBegin = some b → 16 ∣ b := by
    intro b hb
    obtain ⟨e, -, rfl⟩ := Option.map_eq_some_iff.mp hb
    exact dvd_align e 16
  have hbuiltin : ∀ b, o.vmctxBuiltinFunctionsBegin = some b → o.pointerSize ∣ b := fun _ hb =>
    (alignment_dvd_sixteen hp .builtinFunctions).trans (dvd_arrayEnd dvd_rfl hdefinedGlobals hb)
  refine aligned_of_begin hp fun a => ?_
  cases a with
  | signatureIds =>
    intro b hb
    obtain rfl : 0 = b := Option.some.inj hb
    exact Nat.dvd_zero _
  | importedFunctions => exact h
  | importedTables => exact htables
  | importedMemories => exact hmemories
  | importedGlobals => exact hglobals
  | tables => exact hdefinedTables
  | memories => exact hdefinedMemories
  | globals => exact hdefinedGlobals
  | builtinFunctions => exact hbuiltin

/-- **The layout is aligned exactly when the signature ids leave it aligned**: on a host of 32 bits
always, on one of 64 bits when their number is even; from `2^30` signatures on nothing is laid
out. -/
theorem aligned_iff {Sig : Type} {p : Nat} {module : Module Sig} {o : VMOffsets}
    (hp : p = 4 ∨ p = 8) (ho : VMOffsets.new p module = some o) :
    Aligned o ↔
      p = 4 ∨ Even module.signatures.length ∨ 2 ^ 30 ≤ module.signatures.length := by
  obtain rfl := VMOffsets.new_eq_some ho
  constructor
  · intro h
    obtain rfl | rfl := hp
    · exact .inl rfl
    by_cases hfit : 2 ^ 30 ≤ module.signatures.length
    · exact .inr (.inr hfit)
    have hlt : 0 + module.signatures.length * 4 < 2 ^ 32 := by omega
    have hdvd : 8 ∣ 0 + module.signatures.length * 4 :=
      h.begin .importedFunctions _ (arrayEnd_eq_some_iff.mpr ⟨0, rfl, rfl, hlt⟩)
    exact .inr (.inl (Nat.even_iff.mpr (by omega)))
  · intro h
    refine aligned_of_importedFunctions hp fun b hb => ?_
    have hids : arrayEnd (some 0) module.signatures.length 4 = some b := hb
    obtain ⟨z, hz, rfl, hlt⟩ := arrayEnd_eq_some_iff.mp hids
    obtain rfl : 0 = z := Option.some.inj hz
    rw [Nat.zero_add] at hlt ⊢
    change p ∣ module.signatures.length * 4
    obtain rfl | heven | hmany := h
    · exact Nat.dvd_mul_left _ _
    · have hmod := Nat.even_iff.mp heven
      obtain rfl | rfl := hp
      · exact Nat.dvd_mul_left _ _
      · omega
    · omega

/-- A module with one signature. -/
def oneSignature : Module Unit := { (Module.new : Module Unit) with signatures := [()] }

theorem aligned_oneSignature :
    VMOffsets.new 4 oneSignature = some ⟨4, 1, 0, 0, 0, 0, 0, 0, 0⟩ ∧
      Aligned ⟨4, 1, 0, 0, 0, 0, 0, 0, 0⟩ := by
  have hnew : VMOffsets.new 4 oneSignature = some ⟨4, 1, 0, 0, 0, 0, 0, 0, 0⟩ := by decide
  exact ⟨hnew, (aligned_iff (.inl rfl) hnew).mpr (.inl rfl)⟩

/-- On a host of 64 bits its arrays of pointers begin at offset four. -/
theorem not_aligned_oneSignature :
    VMOffsets.new 8 oneSignature = some ⟨8, 1, 0, 0, 0, 0, 0, 0, 0⟩ ∧
      VmctxArray.begin ⟨8, 1, 0, 0, 0, 0, 0, 0, 0⟩ .importedFunctions = some 4 ∧
      VmctxArray.begin ⟨8, 1, 0, 0, 0, 0, 0, 0, 0⟩ .memories = some 4 ∧
      ¬ Aligned ⟨8, 1, 0, 0, 0, 0, 0, 0, 0⟩ := by
  have hbegin : VmctxArray.begin ⟨8, 1, 0, 0, 0, 0, 0, 0, 0⟩ .memories = some 4 := by decide
  refine ⟨by decide, by decide, hbegin, fun h => ?_⟩
  exact absurd (h.begin .memories 4 hbegin) (by decide)

end Wasmtime.Runtime
