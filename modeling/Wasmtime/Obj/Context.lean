import Mathlib
import Wasmtime.Jit.SegmentStart
import Wasmtime.Lib.Fallible
import Wasmtime.Lib.LittleEndian
import Wasmtime.Lib.Writes
import Wasmtime.Runtime.Memory
import Wasmtime.Runtime.SigRegistry

/-!
# The `VMContext` of an object file

Model of `layout_vmcontext` (`wasmtime-obj/src/context.rs`), which fills the `VMContext` of a module ahead of time:
the ids of its signatures, the lengths of its tables and the values of its globals, with a relocation for the base
of each table.

* The vector is a function of the offset while it is filled. A `ptr::write` outside of it would be undefined
  behaviour; `writes_inside` excludes it.
* The object is for a little-endian host, which also fills it.
* `none` is a panic: an offset or a number of entries past `u32`, more imported tables than tables, an initializer
  that is no constant of a number type.
* `signature_registry_len` is the number of entries of `signature_registry`.

Results:
* `layoutVmcontext_eq`: when it returns, and which writes fill the vector.
* `layoutVmcontext_image`: every entry of the image reads back as it was written, and the rest is zero.
* `image_agrees`: the image holds what `InstanceHandle::new` writes when the module is instantiated in a process.
-/

namespace Wasmtime.Obj.Context

open Environ Wasmtime.Runtime LittleEndian

/-- `TableRelocation`. -/
structure TableRelocation where
  index : Nat
  offset : Nat
  deriving DecidableEq, Repr

variable {Sig : Type}

/-- `ptr::write` of the low bytes of a number. -/
def write (out : Nat → UInt8) (offset width value : Nat) : Nat → UInt8 :=
  Writes.storeAt out (offset, leBytes width value)

section

variable [DecidableEq Sig]

/-- The id of a signature, and `signature_registry` with it. -/
def targetIndex (registry : List (Sig × UInt32)) (sig : Sig) : Option (UInt32 × List (Sig × UInt32)) :=
  match registry.find? (·.1 = sig) with
  | some entry => some (entry.2, registry)
  | none =>
    if registry.length ≤ 0xFFFFFFFF then
      let id := UInt32.ofNat registry.length
      some (id, registry ++ [(sig, id)])
    else none

/-- The loop over the signatures. -/
def layoutSignatures (ofs : VMOffsets) : Nat → List (Sig × UInt32) → (Nat → UInt8) → List Sig →
    Option (Nat → UInt8)
  | _, _, out, [] => some out
  | index, registry, out, sig :: rest =>
    (ofs.vmctxVmsharedSignatureId index).bind fun offset =>
      (targetIndex registry sig).bind fun p =>
        layoutSignatures ofs (index + 1) p.2 (write out offset 4 p.1.toNat) rest

end

/-- The loop over the tables past the imports. -/
def layoutTables (ofs : VMOffsets) (m : Module Sig) : Nat → (Nat → UInt8) → List TableRelocation →
    List TablePlan → Option ((Nat → UInt8) × List TableRelocation)
  | _, out, tableRelocs, [] => some (out, tableRelocs)
  | index, out, tableRelocs, table :: rest =>
    (m.definedTableIndex index).bind fun defIndex => (ofs.vmctxVmtableDefinition defIndex).bind fun offset =>
      let currentElements := table.table.minimum
      if 4 = VMOffsets.sizeOfVmtableDefinitionCurrentElements then
        layoutTables ofs m (index + 1)
          (write out (offset + ofs.vmtableDefinitionCurrentElements) 4 currentElements.toNat)
          (tableRelocs ++ [⟨defIndex, offset⟩]) rest
      else none

/-- What an initializer writes; `none` is an unsupported type. -/
def globalBytes : GlobalInit → Option (List UInt8)
  | .i32Const x => some (leBytes 4 x.toNat)
  | .i64Const x => some (leBytes 8 x.toNat)
  | .f32Const x => some (leBytes 4 x.toNat)
  | .f64Const x => some (leBytes 8 x.toNat)
  | _ => none

/-- The loop over the globals past the imports. -/
def layoutGlobals (ofs : VMOffsets) (m : Module Sig) : Nat → (Nat → UInt8) → List Global → Option (Nat → UInt8)
  | _, out, [] => some out
  | index, out, global :: rest =>
    (m.definedGlobalIndex index).bind fun defIndex => (ofs.vmctxVmglobalDefinition defIndex).bind fun offset =>
      (globalBytes global.initializer).bind fun bytes =>
        layoutGlobals ofs m (index + 1) (Writes.storeAt out (offset, bytes)) rest

/-- `layout_vmcontext`. -/
def layoutVmcontext [DecidableEq Sig] (pointerBytes : Nat) (m : Module Sig) :
    Option (List UInt8 × List TableRelocation) :=
  (VMOffsets.new pointerBytes m).bind fun ofs => ofs.sizeOfVmctx.bind fun outLen =>
    (layoutSignatures ofs 0 [] (fun _ => 0) m.signatures).bind fun out =>
      let numTablesImports := m.importedTables.length
      let numGlobalsImports := m.importedGlobals.length
      -- The capacity of `table_relocs` is the difference.
      if numTablesImports ≤ m.tablePlans.length then
        (layoutTables ofs m numTablesImports out [] (m.tablePlans.drop numTablesImports)).bind fun p =>
          (layoutGlobals ofs m numGlobalsImports p.1 (m.globals.drop numGlobalsImports)).map fun out =>
            (Writes.loadAt out 0 outLen, p.2)
      else none

/-! ## The loops -/

/-- The offset of the length of a table. -/
def lengthOffset (o : VMOffsets) (d : Nat) : Nat :=
  VmctxArray.start o .tables + d * VmctxArray.entrySize o .tables + o.vmtableDefinitionCurrentElements

/-- The writes of an image, in order. -/
def signatureWrites (o : VMOffsets) (k : Nat) (ids : List UInt32) : List (Nat × List UInt8) :=
  ids.mapIdx fun j id =>
    (VmctxArray.start o .signatureIds + (k + j) * VmctxArray.entrySize o .signatureIds, leBytes 4 id.toNat)

def tableWrites (o : VMOffsets) (k : Nat) (plans : List TablePlan) : List (Nat × List UInt8) :=
  plans.mapIdx fun j plan => (lengthOffset o (k + j), leBytes 4 plan.table.minimum.toNat)

def globalWrites (o : VMOffsets) (k : Nat) (values : List (List UInt8)) : List (Nat × List UInt8) :=
  values.mapIdx fun j bytes =>
    (VmctxArray.start o .globals + (k + j) * VmctxArray.entrySize o .globals, bytes)

def relocations (o : VMOffsets) (k : Nat) (plans : List TablePlan) : List TableRelocation :=
  plans.mapIdx fun j _ => ⟨k + j, VmctxArray.start o .tables + (k + j) * VmctxArray.entrySize o .tables⟩

variable {o : VMOffsets} {m : Module Sig} {n : Nat}

/-- An array of a layout that fits ends below `2^32`, also when rounding up the globals wraps. -/
theorem finish_lt (h : o.sizeOfVmctx = some n) (a : VmctxArray) : a.finish o < 2 ^ 32 := by
  obtain ⟨-, hend, hn, hlt⟩ := arrayBegin_eq h
  unfold VmctxArray.finish
  unfold VmctxArray.start at hn ⊢
  unfold memoriesEnd at hend
  cases a <;>
    simp only [VmctxArray.count, VmctxArray.entrySize, VMOffsets.sizeOfVmsharedSignatureIndex,
      VMOffsets.sizeOfVmfunctionImport, VMOffsets.sizeOfVmtableImport, VMOffsets.sizeOfVmmemoryImport,
      VMOffsets.sizeOfVmglobalImport, VMOffsets.sizeOfVmtableDefinition, VMOffsets.sizeOfVmmemoryDefinition,
      VMOffsets.sizeOfVmglobalDefinition, builtinFunctionsTotalNumber] at hn ⊢ <;>
    omega

/-- So its entries are found. -/
theorem entry_eq_start (h : o.sizeOfVmctx = some n) {a : VmctxArray} {k : Nat} (hlt : k < a.count o) :
    a.entry o k = some (a.start o + k * a.entrySize o) := by
  have hfinish := finish_lt h a
  have hle : k * a.entrySize o ≤ a.count o * a.entrySize o := Nat.mul_le_mul_right _ (Nat.le_of_lt hlt)
  unfold VmctxArray.finish at hfinish
  rw [entry_eq hlt, arrayEnd_eq_some_iff]
  exact ⟨_, (arrayBegin_eq h).1 a, rfl, by omega⟩

section

variable [DecidableEq Sig]

/-- The ids are those the registry of the runtime gives. -/
theorem targetIndex_eq (r : SignatureRegistry Sig) (sig : Sig) : targetIndex r.signatureHash sig =
    (r.register false sig).map fun p => (p.1, p.2.signatureHash) := by
  unfold targetIndex SignatureRegistry.register
  cases hf : r.signatureHash.find? (·.1 = sig) with
  | some entry => rfl
  | none =>
    simp only [Bool.false_and, Bool.false_eq_true, if_false]
    by_cases hlt : r.signatureHash.length < 2 ^ 32
    · rw [if_pos hlt, if_pos (by omega)]
      rfl
    · rw [if_neg hlt, if_neg (by omega)]
      rfl

theorem layoutSignatures_eq (h : o.sizeOfVmctx = some n) {sigs : List Sig} {k : Nat} {r : SignatureRegistry Sig}
    (out : Nat → UInt8) (hk : k + sigs.length ≤ o.numSignatureIds) :
    layoutSignatures o k r.signatureHash out sigs =
      (SignatureRegistry.registerAll false r sigs).map fun p => Writes.storeAll out (signatureWrites o k p.1) := by
  induction sigs generalizing k r out with
  | nil => rfl
  | cons sig sigs ih =>
    rw [List.length_cons] at hk
    have hentry : o.vmctxVmsharedSignatureId k = some _ :=
      entry_eq_start h (a := .signatureIds) (k := k) (by show k < o.numSignatureIds; omega)
    rw [layoutSignatures, hentry, Option.bind_some, targetIndex_eq, SignatureRegistry.registerAll]
    cases r.register false sig with
    | none => rfl
    | some p =>
      simp only [Option.map_some, Option.bind_some]
      rw [ih _ (by omega), Option.map_map]
      refine congrArg (fun f => Option.map f _) (funext fun q => ?_)
      simp only [Function.comp_apply, signatureWrites, List.mapIdx_cons, Nat.add_zero]
      rw [Writes.storeAll, Writes.storeAll, List.foldl_cons]
      simp only [Nat.add_assoc, Nat.add_comm 1, write]

end

theorem layoutTables_eq (h : o.sizeOfVmctx = some n) {plans : List TablePlan} {k : Nat} (out : Nat → UInt8)
    (tableRelocs : List TableRelocation) (hk : k + plans.length ≤ o.numDefinedTables) :
    layoutTables o m (m.importedTables.length + k) out tableRelocs plans =
      some (Writes.storeAll out (tableWrites o k plans), tableRelocs ++ relocations o k plans) := by
  induction plans generalizing k out tableRelocs with
  | nil => rw [layoutTables, relocations, List.mapIdx_nil, List.append_nil]; rfl
  | cons plan plans ih =>
    rw [List.length_cons] at hk
    have hentry : o.vmctxVmtableDefinition k = some _ :=
      entry_eq_start h (a := .tables) (k := k) (by show k < o.numDefinedTables; omega)
    have hindex : m.definedTableIndex (m.importedTables.length + k) = some k := (Module.definedIndex_eq_some).mpr rfl
    rw [layoutTables, hindex, Option.bind_some, hentry, Option.bind_some]
    simp only [VMOffsets.sizeOfVmtableDefinitionCurrentElements, if_true]
    rw [Nat.add_assoc, ih _ _ (by omega)]
    simp only [tableWrites, relocations, List.mapIdx_cons, Nat.add_zero, List.append_assoc, List.singleton_append]
    rw [Writes.storeAll, Writes.storeAll, List.foldl_cons]
    simp only [Nat.add_assoc, Nat.add_comm 1, write, lengthOffset]

theorem layoutGlobals_eq (h : o.sizeOfVmctx = some n) {globals : List Global} {k : Nat} (out : Nat → UInt8)
    (hk : k + globals.length ≤ o.numDefinedGlobals) :
    layoutGlobals o m (m.importedGlobals.length + k) out globals =
      (globals.mapM fun g => globalBytes g.initializer).map fun values =>
        Writes.storeAll out (globalWrites o k values) := by
  induction globals generalizing k out with
  | nil => rfl
  | cons global globals ih =>
    rw [List.length_cons] at hk
    have hentry : o.vmctxVmglobalDefinition k = some _ :=
      entry_eq_start h (a := .globals) (k := k) (by show k < o.numDefinedGlobals; omega)
    have hindex : m.definedGlobalIndex (m.importedGlobals.length + k) = some k := (Module.definedIndex_eq_some).mpr rfl
    rw [layoutGlobals, hindex, Option.bind_some, hentry, Option.bind_some, List.mapM_cons]
    cases globalBytes global.initializer with
    | none => rfl
    | some bytes =>
      simp only [Option.bind_some, Option.bind_eq_bind]
      rw [Nat.add_assoc, ih _ (by omega)]
      cases globals.mapM fun g => globalBytes g.initializer with
      | none => rfl
      | some values =>
        simp only [Option.map_some, Option.bind_some, Option.pure_def, globalWrites, List.mapIdx_cons, Nat.add_zero]
        rw [Writes.storeAll, Writes.storeAll, List.foldl_cons]
        simp only [Nat.add_assoc, Nat.add_comm 1]

/-! ## The image -/

/-- The tables and the globals past the imports. -/
def definedTables (m : Module Sig) : List TablePlan := m.tablePlans.drop m.importedTables.length

def definedGlobals (m : Module Sig) : List Global := m.globals.drop m.importedGlobals.length

/-- What the globals are written with. -/
def globalValues (m : Module Sig) : Option (List (List UInt8)) :=
  (definedGlobals m).mapM fun g => globalBytes g.initializer

/-- The writes of an image. -/
def imageWrites (o : VMOffsets) (m : Module Sig) (ids : List UInt32) (values : List (List UInt8)) :
    List (Nat × List UInt8) :=
  signatureWrites o 0 ids ++ tableWrites o 0 (definedTables m) ++ globalWrites o 0 values

/-- The image that these writes make. -/
def image (o : VMOffsets) (m : Module Sig) (n : Nat) (ids : List UInt32) (values : List (List UInt8)) : List UInt8 :=
  Writes.loadAt (Writes.storeAll (fun _ => 0) (imageWrites o m ids values)) 0 n

/-- **When it returns, and what.** -/
theorem layoutVmcontext_eq [DecidableEq Sig] {p : Nat} (ho : VMOffsets.new p m = some o)
    (hn : o.sizeOfVmctx = some n) (htables : m.importedTables.length ≤ m.tablePlans.length) :
    layoutVmcontext p m = (SignatureRegistry.registerAll false .new m.signatures).bind fun q =>
      (globalValues m).map fun values => (image o m n q.1 values, relocations o 0 (definedTables m)) := by
  have hcounts := VMOffsets.new_eq_some ho
  have hsigs : 0 + m.signatures.length ≤ o.numSignatureIds := by rw [hcounts, Nat.zero_add]
  have hplans : 0 + (definedTables m).length ≤ o.numDefinedTables := by
    rw [hcounts, definedTables, List.length_drop]
    simp only
    omega
  have hglobals : 0 + (definedGlobals m).length ≤ o.numDefinedGlobals := by
    rw [hcounts, definedGlobals, List.length_drop]
    simp only
    omega
  unfold layoutVmcontext
  rw [ho, Option.bind_some, hn, Option.bind_some]
  have hfirst := layoutSignatures_eq hn (r := .new) (fun _ => 0) hsigs
  rw [SignatureRegistry.new] at hfirst
  rw [hfirst, Option.bind_map]
  refine congrArg (Option.bind _) (funext fun q => ?_)
  simp only [Function.comp_apply, if_pos htables]
  have hsecond := layoutTables_eq (m := m) hn (Writes.storeAll (fun _ => 0) (signatureWrites o 0 q.1)) []
    hplans
  rw [Nat.add_zero, definedTables] at hsecond
  rw [hsecond, Option.bind_some]
  have hthird := layoutGlobals_eq (m := m) hn (Writes.storeAll (Writes.storeAll (fun _ => 0)
    (signatureWrites o 0 q.1)) (tableWrites o 0 (definedTables m))) hglobals
  rw [Nat.add_zero, definedGlobals, definedTables] at hthird
  rw [hthird, Option.map_map, globalValues, definedGlobals]
  refine congrArg (fun f => Option.map f _) (funext fun values => ?_)
  simp only [Function.comp_apply, image, imageWrites, Writes.storeAll, List.foldl_append, List.nil_append,
    definedTables]

/-- What a layout that returned has found. -/
theorem layoutVmcontext_eq_some [DecidableEq Sig] {p : Nat} {out : List UInt8} {tableRelocs : List TableRelocation}
    (h : layoutVmcontext p m = some (out, tableRelocs)) :
    ∃ o n ids r values, VMOffsets.new p m = some o ∧ o.sizeOfVmctx = some n ∧
      m.importedTables.length ≤ m.tablePlans.length ∧
      SignatureRegistry.registerAll false .new m.signatures = some (ids, r) ∧ globalValues m = some values ∧
      out = image o m n ids values ∧ tableRelocs = relocations o 0 (definedTables m) := by
  have hsteps := h
  unfold layoutVmcontext at hsteps
  obtain ⟨o, ho, hsteps⟩ := Option.bind_eq_some_iff.mp hsteps
  obtain ⟨n, hn, hsteps⟩ := Option.bind_eq_some_iff.mp hsteps
  obtain ⟨filled, -, hsteps⟩ := Option.bind_eq_some_iff.mp hsteps
  simp only at hsteps
  obtain ⟨htables, -⟩ := Option.ite_none_right_eq_some.mp hsteps
  rw [layoutVmcontext_eq ho hn htables] at h
  obtain ⟨⟨ids, r⟩, hids, h⟩ := Option.bind_eq_some_iff.mp h
  obtain ⟨values, hvalues, h⟩ := Option.map_eq_some_iff.mp h
  obtain ⟨hout, hrelocs⟩ := Prod.mk.inj h
  exact ⟨o, n, ids, r, values, ho, hn, htables, hids, hvalues, hout.symm, hrelocs.symm⟩

/-! ## The writes are apart -/

/-- An entry of an array. -/
def entryExtent (o : VMOffsets) (a : VmctxArray) (k : Nat) : Extent := ⟨a.start o + k * a.entrySize o, a.entrySize o⟩

/-- An entry ends in its array. -/
theorem entryExtent_stop_le {a : VmctxArray} {k : Nat} (hk : k < a.count o) :
    (entryExtent o a k).stop ≤ a.finish o := by
  have hle : (k + 1) * a.entrySize o ≤ a.count o * a.entrySize o := Nat.mul_le_mul_right _ hk
  rw [Nat.succ_mul] at hle
  unfold entryExtent Extent.stop VmctxArray.finish
  simp only
  omega

/-- Entries follow one another, in an array and from one array to a later one. -/
theorem entryExtent_apart (hroom : memoriesEnd o + 15 < 2 ^ 32) {a a' : VmctxArray} {k k' : Nat}
    (hk : k < a.count o) (h : a.ctorIdx < a'.ctorIdx ∨ a = a' ∧ k < k') :
    (entryExtent o a k).Apart (entryExtent o a' k') := by
  refine Extent.apart_of_stop_le ?_
  rcases h with h | ⟨rfl, h⟩
  · have hstop := entryExtent_stop_le hk
    have hnext := finish_le_start hroom h
    unfold entryExtent at hstop ⊢
    simp only
    omega
  · have hle : (k + 1) * a.entrySize o ≤ k' * a.entrySize o := Nat.mul_le_mul_right _ h
    rw [Nat.succ_mul] at hle
    unfold entryExtent Extent.stop
    simp only
    omega

/-- A write in an entry of an array that has `len` entries. -/
def InEntry (o : VMOffsets) (a : VmctxArray) (len : Nat) (w : Nat × List UInt8) : Prop :=
  ∃ k < len, (Writes.extent w).Within (entryExtent o a k)

/-- Writes of one array. -/
theorem mapIdx_apart {α : Type} {a : VmctxArray} {xs : List α} {f : Nat → α → Nat × List UInt8}
    (hroom : memoriesEnd o + 15 < 2 ^ 32) (hlen : xs.length ≤ a.count o)
    (hf : ∀ k (x : α), x ∈ xs → (Writes.extent (f k x)).Within (entryExtent o a k)) :
    (xs.mapIdx f).Pairwise (fun w w' => (Writes.extent w).Apart (Writes.extent w')) ∧
      ∀ w ∈ xs.mapIdx f, InEntry o a xs.length w := by
  constructor
  · refine List.pairwise_iff_getElem.mpr fun i j hi hj hij => ?_
    rw [List.length_mapIdx] at hi hj
    rw [List.getElem_mapIdx, List.getElem_mapIdx]
    exact (entryExtent_apart hroom (Nat.lt_of_lt_of_le hi hlen) (Or.inr ⟨rfl, hij⟩)).mono
      (hf i _ (List.getElem_mem hi)) (hf j _ (List.getElem_mem hj))
  · intro w hw
    obtain ⟨k, hk, rfl⟩ := List.mem_mapIdx.mp hw
    exact ⟨k, hk, hf k _ (List.getElem_mem hk)⟩

/-- Writes of two arrays. -/
theorem inEntry_apart {a a' : VmctxArray} {len len' : Nat} {w w' : Nat × List UInt8}
    (hroom : memoriesEnd o + 15 < 2 ^ 32) (hlen : len ≤ a.count o) (h : a.ctorIdx < a'.ctorIdx)
    (hw : InEntry o a len w) (hw' : InEntry o a' len' w') : (Writes.extent w).Apart (Writes.extent w') := by
  obtain ⟨k, hk, hwithin⟩ := hw
  obtain ⟨k', -, hwithin'⟩ := hw'
  exact (entryExtent_apart hroom (Nat.lt_of_lt_of_le hk hlen) (Or.inl h)).mono hwithin hwithin'

/-- An initializer writes four or eight bytes. -/
theorem length_globalBytes {i : GlobalInit} {bytes : List UInt8} (h : globalBytes i = some bytes) :
    bytes.length = 4 ∨ bytes.length = 8 := by
  cases i with
  | i32Const x => exact Or.inl (by rw [← Option.some.inj h, length_leBytes])
  | i64Const x => exact Or.inr (by rw [← Option.some.inj h, length_leBytes])
  | f32Const x => exact Or.inl (by rw [← Option.some.inj h, length_leBytes])
  | f64Const x => exact Or.inr (by rw [← Option.some.inj h, length_leBytes])
  | v128Const x => cases h
  | getGlobal index => cases h
  | imported => cases h

/-- What a layout is made of: the offsets of the module, and what is written. -/
structure Filled (p : Nat) (m : Module Sig) (o : VMOffsets) (n : Nat) (ids : List UInt32)
    (values : List (List UInt8)) : Prop where
  offsets : VMOffsets.new p m = some o
  size : o.sizeOfVmctx = some n
  pointer : 4 ≤ p
  room : memoriesEnd o + 15 < 2 ^ 32
  ids : ids.length = m.signatures.length
  values : globalValues m = some values

namespace Filled

variable {p : Nat} {ids : List UInt32} {values : List (List UInt8)} {w : Nat × List UInt8}

theorem values_eq (h : Filled p m o n ids values) :
    (definedGlobals m).map (fun g => globalBytes g.initializer) = values.map some :=
  (Fallible.mapM_eq_some).mp h.values

theorem signatures_le (h : Filled p m o n ids values) : ids.length ≤ VmctxArray.count o .signatureIds := by
  rw [h.ids, VMOffsets.new_eq_some h.offsets]
  exact Nat.le_refl _

theorem tables_le (h : Filled p m o n ids values) :
    (definedTables m).length ≤ VmctxArray.count o .tables := by
  rw [VMOffsets.new_eq_some h.offsets, definedTables, List.length_drop]
  exact Nat.sub_le _ _

theorem globals_le (h : Filled p m o n ids values) : values.length ≤ VmctxArray.count o .globals := by
  have hlen := congrArg List.length h.values_eq
  rw [List.length_map, List.length_map] at hlen
  rw [← hlen, VMOffsets.new_eq_some h.offsets, definedGlobals, List.length_drop]
  exact Nat.sub_le _ _

/-- The writes of each array stay in its entries, and apart. -/
theorem signatureWrites_apart (h : Filled p m o n ids values) :
    (signatureWrites o 0 ids).Pairwise (fun w w' => (Writes.extent w).Apart (Writes.extent w')) ∧
      ∀ w ∈ signatureWrites o 0 ids, InEntry o .signatureIds ids.length w := by
  refine mapIdx_apart h.room h.signatures_le fun k id _ => ?_
  simp only [Writes.extent, Extent.Within, Extent.stop, entryExtent, length_leBytes, Nat.zero_add]
  exact ⟨Nat.le_refl _, Nat.le_refl _⟩

theorem tableWrites_apart (h : Filled p m o n ids values) :
    (tableWrites o 0 (definedTables m)).Pairwise (fun w w' => (Writes.extent w).Apart (Writes.extent w')) ∧
      ∀ w ∈ tableWrites o 0 (definedTables m), InEntry o .tables (definedTables m).length w := by
  refine mapIdx_apart h.room h.tables_le fun k plan _ => ?_
  have hp : o.pointerSize = p := by rw [VMOffsets.new_eq_some h.offsets]
  have hpointer := h.pointer
  simp only [Writes.extent, Extent.Within, Extent.stop, entryExtent, length_leBytes, Nat.zero_add, lengthOffset,
    VmctxArray.entrySize, VMOffsets.sizeOfVmtableDefinition, VMOffsets.vmtableDefinitionCurrentElements, hp]
  omega

theorem globalWrites_apart (h : Filled p m o n ids values) :
    (globalWrites o 0 values).Pairwise (fun w w' => (Writes.extent w).Apart (Writes.extent w')) ∧
      ∀ w ∈ globalWrites o 0 values, InEntry o .globals values.length w := by
  refine mapIdx_apart h.room h.globals_le fun k bytes hbytes => ?_
  have hmem : some bytes ∈ values.map some := List.mem_map_of_mem hbytes
  rw [← h.values_eq] at hmem
  obtain ⟨g, -, hg⟩ := List.mem_map.mp hmem
  have hlen := length_globalBytes hg
  simp only [Writes.extent, Extent.Within, Extent.stop, entryExtent, Nat.zero_add, VmctxArray.entrySize,
    VMOffsets.sizeOfVmglobalDefinition]
  omega

/-- **No write touches another one.** -/
theorem writes_apart (h : Filled p m o n ids values) :
    (imageWrites o m ids values).Pairwise fun w w' => (Writes.extent w).Apart (Writes.extent w') := by
  obtain ⟨hsig, hsigIn⟩ := h.signatureWrites_apart
  obtain ⟨htab, htabIn⟩ := h.tableWrites_apart
  obtain ⟨hglob, hglobIn⟩ := h.globalWrites_apart
  refine List.pairwise_append.mpr ⟨List.pairwise_append.mpr ⟨hsig, htab, fun w hw w' hw' => ?_⟩, hglob,
    fun w hw w' hw' => ?_⟩
  · exact inEntry_apart h.room h.signatures_le (by decide) (hsigIn w hw) (htabIn w' hw')
  · rcases List.mem_append.mp hw with hw | hw
    · exact inEntry_apart h.room h.signatures_le (by decide) (hsigIn w hw) (hglobIn w' hw')
    · exact inEntry_apart h.room h.tables_le (by decide) (htabIn w hw) (hglobIn w' hw')

/-- **No write is outside of the vector.** -/
theorem writes_inside (h : Filled p m o n ids values) (hw : w ∈ imageWrites o m ids values) :
    w.1 + w.2.length ≤ n := by
  have key : ∀ (a : VmctxArray) (len : Nat), len ≤ a.count o → InEntry o a len w → w.1 + w.2.length ≤ n := by
    rintro a len hlen ⟨k, hk, -, hstop⟩
    exact Nat.le_trans hstop (Nat.le_trans (entryExtent_stop_le (Nat.lt_of_lt_of_le hk hlen))
      (finish_le h.size h.room a))
  rcases List.mem_append.mp hw with hw | hw
  · rcases List.mem_append.mp hw with hw | hw
    · exact key _ _ h.signatures_le (h.signatureWrites_apart.2 w hw)
    · exact key _ _ h.tables_le (h.tableWrites_apart.2 w hw)
  · exact key _ _ h.globals_le (h.globalWrites_apart.2 w hw)

/-- What was written is read. -/
theorem read (h : Filled p m o n ids values) (hw : w ∈ imageWrites o m ids values) :
    ((image o m n ids values).drop w.1).take w.2.length = w.2 := by
  have hread := Writes.loadAt_storeAll (m := fun _ => (0 : UInt8)) h.writes_apart hw
  have hpart := Writes.loadAt_part (m := Writes.storeAll (fun _ => (0 : UInt8)) (imageWrites o m ids values)) (a := 0)
    (h.writes_inside hw)
  rw [Nat.zero_add, hread] at hpart
  exact hpart.symm

/-- The rest is zero. -/
theorem zero {i : Nat} (hi : i < n) (hfree : ∀ w ∈ imageWrites o m ids values, ¬ (Writes.extent w).Covers i) :
    (image o m n ids values)[i]? = some 0 := by
  rw [image, Writes.loadAt, List.getElem?_map, List.getElem?_range hi, Option.map_some, Nat.zero_add,
    Writes.storeAll_frame hfree]

end Filled

namespace Filled

variable {p : Nat} {ids : List UInt32} {values : List (List UInt8)}

/-- Nothing is written to the entry of a global behind its value. -/
theorem not_covers (h : Filled p m o n ids values) {d i : Nat} {bytes : List UInt8} (hd : values[d]? = some bytes)
    (hi : bytes.length ≤ i) (hlt : i < 16) {w : Nat × List UInt8} (hw : w ∈ imageWrites o m ids values) :
    ¬ (Writes.extent w).Covers (VmctxArray.start o .globals + d * VmctxArray.entrySize o .globals + i) := by
  obtain ⟨hdlt, rfl⟩ := List.getElem?_eq_some_iff.mp hd
  have hcount := Nat.lt_of_lt_of_le hdlt h.globals_le
  have hentry : (entryExtent o .globals d).Covers
      (VmctxArray.start o .globals + d * VmctxArray.entrySize o .globals + i) := by
    simp only [Extent.Covers, Extent.stop, entryExtent, VmctxArray.entrySize, VMOffsets.sizeOfVmglobalDefinition]
    omega
  have hother {a : VmctxArray} {len : Nat} (hlen : len ≤ a.count o) (ha : a.ctorIdx < VmctxArray.ctorIdx .globals)
      (hin : InEntry o a len w) : ¬ (Writes.extent w).Covers
        (VmctxArray.start o .globals + d * VmctxArray.entrySize o .globals + i) := fun hcovers => by
    obtain ⟨k, hk, hwithin⟩ := hin
    have hapart : (entryExtent o a k).Apart (entryExtent o .globals d) :=
      entryExtent_apart h.room (Nat.lt_of_lt_of_le hk hlen) (.inl ha)
    exact hapart.mono hwithin ⟨Nat.le_refl _, Nat.le_refl _⟩ _ hcovers hentry
  rcases List.mem_append.mp hw with hw | hw
  · rcases List.mem_append.mp hw with hw | hw
    · exact hother h.signatures_le (by decide) (h.signatureWrites_apart.2 w hw)
    · exact hother h.tables_le (by decide) (h.tableWrites_apart.2 w hw)
  · obtain ⟨k, hk, rfl⟩ := List.mem_mapIdx.mp hw
    have hlen : values[k].length = 4 ∨ values[k].length = 8 := by
      have hmem : some values[k] ∈ values.map some := List.mem_map_of_mem (List.getElem_mem hk)
      rw [← h.values_eq] at hmem
      obtain ⟨g, -, hg⟩ := List.mem_map.mp hmem
      exact length_globalBytes hg
    rintro ⟨hle, hstop⟩
    simp only [Writes.extent, Extent.stop, Nat.zero_add, VmctxArray.entrySize,
      VMOffsets.sizeOfVmglobalDefinition] at hle hstop
    obtain rfl : k = d := by omega
    omega

/-- **The whole entry of a global holds its value**: the bytes above what is written are zero. -/
theorem loadAt_global (h : Filled p m o n ids values) {d x : Nat} {bytes : List UInt8} (hd : values[d]? = some bytes)
    (hx : x < 256 ^ bytes.length) (hbytes : bytes = leBytes bytes.length x) :
    ((image o m n ids values).drop (VmctxArray.start o .globals + d * VmctxArray.entrySize o .globals)).take 16 =
      leBytes 16 x := by
  obtain ⟨hdlt, hget⟩ := List.getElem?_eq_some_iff.mp hd
  have hcount := Nat.lt_of_lt_of_le hdlt h.globals_le
  have hwrite : (VmctxArray.start o .globals + d * VmctxArray.entrySize o .globals, bytes) ∈
      imageWrites o m ids values := by
    refine List.mem_append_right _ (List.mem_mapIdx.mpr ⟨d, hdlt, ?_⟩)
    rw [hget, Nat.zero_add]
  have hlen : bytes.length ≤ 16 := by
    have hmem : some bytes ∈ values.map some := List.mem_map_of_mem (List.mem_of_getElem? hd)
    rw [← h.values_eq] at hmem
    obtain ⟨g, -, hg⟩ := List.mem_map.mp hmem
    have := length_globalBytes hg
    omega
  have hinside : VmctxArray.start o .globals + d * VmctxArray.entrySize o .globals + 16 ≤ n := by
    refine Nat.le_trans ?_ (Nat.le_trans (entryExtent_stop_le hcount) (finish_le h.size h.room .globals))
    simp only [entryExtent, Extent.stop, VmctxArray.entrySize, VMOffsets.sizeOfVmglobalDefinition]
    exact Nat.le_refl _
  have hzeros : leBytes (16 - bytes.length) 0 = List.replicate (16 - bytes.length) 0 := leBytes_zero _
  have hsplit : bytes.length + (16 - bytes.length) = 16 := by omega
  have hpart := Writes.loadAt_part (m := Writes.storeAll (fun _ => (0 : UInt8)) (imageWrites o m ids values)) (a := 0)
    hinside
  rw [Nat.zero_add] at hpart
  rw [image, ← hpart, ← hsplit, Writes.loadAt_add, leBytes_add, ← hbytes, Nat.div_eq_of_lt hx, hzeros]
  congr 1
  · exact Writes.loadAt_storeAll h.writes_apart hwrite
  · refine Eq.trans (Writes.loadAt_congr fun a ha => ?_) (Writes.loadAt_const (0 : UInt8) _ _)
    obtain ⟨hle, hlt⟩ := ha
    simp only [Extent.stop] at hle hlt
    refine Writes.storeAll_frame fun w hw hcovers => ?_
    obtain ⟨i, rfl⟩ : ∃ i, a = VmctxArray.start o .globals + d * VmctxArray.entrySize o .globals + i :=
      ⟨a - (VmctxArray.start o .globals + d * VmctxArray.entrySize o .globals), by omega⟩
    exact h.not_covers hd (by omega) (by omega) hw hcovers

end Filled

/-- The bytes at an offset, if there is one. -/
def Reads (out : List UInt8) (offset : Option Nat) (bytes : List UInt8) : Prop :=
  ∃ x, offset = some x ∧ (out.drop x).take bytes.length = bytes

/-- The bytes an image gives a value to. -/
def Written (o : VMOffsets) (m : Module Sig) (i : Nat) : Prop :=
  (∃ k < m.signatures.length, ∃ x, o.vmctxVmsharedSignatureId k = some x ∧ x ≤ i ∧ i < x + 4) ∨
  (∃ d < (definedTables m).length, ∃ x, o.vmctxVmtableDefinitionCurrentElements d = some x ∧ x ≤ i ∧ i < x + 4) ∨
  ∃ (d : Nat) (g : Global), (definedGlobals m)[d]? = some g ∧ ∃ x bytes, o.vmctxVmglobalDefinition d = some x ∧
    globalBytes g.initializer = some bytes ∧ x ≤ i ∧ i < x + bytes.length

/-- What an image is for: the initial `VMContext` of the module. -/
structure Image [DecidableEq Sig] (o : VMOffsets) (m : Module Sig) (out : List UInt8)
    (tableRelocs : List TableRelocation) : Prop where
  size : o.sizeOfVmctx = some out.length
  /-- Each signature has the id that a new registry gives it. -/
  ids : ∃ ids r, SignatureRegistry.registerAll false .new m.signatures = some (ids, r) ∧
    ids.length = m.signatures.length ∧
    ∀ (k : Nat) id, ids[k]? = some id → Reads out (o.vmctxVmsharedSignatureId k) (leBytes 4 id.toNat)
  /-- Each table has its minimum length, and a relocation at its base. -/
  tables : tableRelocs.length = (definedTables m).length ∧
    ∀ (d : Nat) plan, (definedTables m)[d]? = some plan →
      Reads out (o.vmctxVmtableDefinitionCurrentElements d) (leBytes 4 plan.table.minimum.toNat) ∧
        ∃ e, o.vmctxVmtableDefinitionBase d = some e ∧ tableRelocs[d]? = some ⟨d, e⟩
  /-- Each global has the value of its initializer. -/
  globals : ∀ (d : Nat) g, (definedGlobals m)[d]? = some g →
    ∃ bytes, globalBytes g.initializer = some bytes ∧ Reads out (o.vmctxVmglobalDefinition d) bytes
  zero : ∀ i < out.length, ¬ Written o m i → out[i]? = some 0

namespace Filled

variable {p : Nat} {ids : List UInt32} {values : List (List UInt8)}

/-- A write at an offset is read there. -/
theorem reads (h : Filled p m o n ids values) {offset : Option Nat} {x : Nat} {bytes : List UInt8}
    (hoffset : offset = some x) (hw : (x, bytes) ∈ imageWrites o m ids values) :
    Reads (image o m n ids values) offset bytes := ⟨x, hoffset, h.read hw⟩

theorem signature_offset (h : Filled p m o n ids values) {k : Nat} (hk : k < ids.length) :
    o.vmctxVmsharedSignatureId k =
      some (VmctxArray.start o .signatureIds + k * VmctxArray.entrySize o .signatureIds) :=
  entry_eq_start h.size (a := .signatureIds) (Nat.lt_of_lt_of_le hk h.signatures_le)

theorem global_offset (h : Filled p m o n ids values) {d : Nat} (hd : d < values.length) :
    o.vmctxVmglobalDefinition d = some (VmctxArray.start o .globals + d * VmctxArray.entrySize o .globals) :=
  entry_eq_start h.size (a := .globals) (Nat.lt_of_lt_of_le hd h.globals_le)

/-- The two fields of a table. -/
theorem table_offset (h : Filled p m o n ids values) {d : Nat} (hd : d < (definedTables m).length) :
    o.vmctxVmtableDefinitionBase d =
        some (VmctxArray.start o .tables + d * VmctxArray.entrySize o .tables) ∧
      o.vmctxVmtableDefinitionCurrentElements d = some (lengthOffset o d) := by
  have hlt := Nat.lt_of_lt_of_le hd h.tables_le
  have hentry : o.vmctxVmtableDefinition d = some _ := entry_eq_start h.size (a := .tables) hlt
  have hstop := entryExtent_stop_le (o := o) hlt
  have hfinish := finish_lt h.size .tables
  have hp : o.pointerSize = p := by rw [VMOffsets.new_eq_some h.offsets]
  have hpointer := h.pointer
  simp only [entryExtent, Extent.stop, VmctxArray.entrySize, VMOffsets.sizeOfVmtableDefinition] at hstop
  unfold VMOffsets.vmctxVmtableDefinitionBase VMOffsets.vmctxVmtableDefinitionCurrentElements
  rw [hentry, Option.bind_some, Option.bind_some, checkedAddU32_eq_some, checkedAddU32_eq_some]
  simp only [lengthOffset, VMOffsets.vmtableDefinitionBase, VMOffsets.vmtableDefinitionCurrentElements, Nat.zero_mul,
    Nat.add_zero, VmctxArray.entrySize, VMOffsets.sizeOfVmtableDefinition, true_and]
  omega

/-- A global past the imports, and what it is written with. -/
theorem value_eq (h : Filled p m o n ids values) {d : Nat} {g : Global} (hg : (definedGlobals m)[d]? = some g) :
    ∃ bytes, values[d]? = some bytes ∧ globalBytes g.initializer = some bytes := by
  have hd := congrArg (·[d]?) h.values_eq
  simp only [List.getElem?_map, hg, Option.map_some] at hd
  obtain ⟨bytes, hbytes, heq⟩ := Option.map_eq_some_iff.mp hd.symm
  exact ⟨bytes, hbytes, heq.symm⟩

/-- **The image is right.** -/
theorem image_ok [DecidableEq Sig] (h : Filled p m o n ids values) {r : SignatureRegistry Sig}
    (hids : SignatureRegistry.registerAll false .new m.signatures = some (ids, r)) :
    Image o m (image o m n ids values) (relocations o 0 (definedTables m)) := by
  have hlen : (image o m n ids values).length = n := Writes.length_loadAt _ _ _
  constructor
  · rw [hlen]
    exact h.size
  · refine ⟨ids, r, hids, h.ids, fun k id hid => ?_⟩
    obtain ⟨hk, rfl⟩ := List.getElem?_eq_some_iff.mp hid
    refine h.reads (h.signature_offset hk) (List.mem_append_left _ (List.mem_append_left _ ?_))
    exact List.mem_mapIdx.mpr ⟨k, hk, by rw [Nat.zero_add]⟩
  · refine ⟨List.length_mapIdx, fun d plan hplan => ?_⟩
    obtain ⟨hd, rfl⟩ := List.getElem?_eq_some_iff.mp hplan
    obtain ⟨hbase, hlength⟩ := h.table_offset hd
    refine ⟨h.reads hlength (List.mem_append_left _ (List.mem_append_right _ ?_)), _, hbase, ?_⟩
    · exact List.mem_mapIdx.mpr ⟨d, hd, by rw [Nat.zero_add]⟩
    · rw [relocations, List.getElem?_mapIdx, hplan, Option.map_some, Nat.zero_add]
  · intro d g hg
    obtain ⟨bytes, hbytes, heq⟩ := h.value_eq hg
    obtain ⟨hd, rfl⟩ := List.getElem?_eq_some_iff.mp hbytes
    refine ⟨_, heq, h.reads (h.global_offset hd) (List.mem_append_right _ ?_)⟩
    exact List.mem_mapIdx.mpr ⟨d, hd, by rw [Nat.zero_add]⟩
  · intro i hi hnot
    rw [hlen] at hi
    refine zero hi fun w hw hcovers => hnot ?_
    obtain ⟨hle, hlt⟩ := hcovers
    rcases List.mem_append.mp hw with hw | hw
    · rcases List.mem_append.mp hw with hw | hw
      · obtain ⟨k, hk, rfl⟩ := List.mem_mapIdx.mp hw
        rw [Nat.zero_add] at hle hlt
        simp only [Writes.extent, Extent.stop, length_leBytes] at hle hlt
        exact Or.inl ⟨k, h.ids ▸ hk, _, h.signature_offset hk, hle, hlt⟩
      · obtain ⟨d, hd, rfl⟩ := List.mem_mapIdx.mp hw
        rw [Nat.zero_add] at hle hlt
        simp only [Writes.extent, Extent.stop, length_leBytes] at hle hlt
        exact Or.inr (Or.inl ⟨d, hd, _, (h.table_offset hd).2, hle, hlt⟩)
    · obtain ⟨d, hd, rfl⟩ := List.mem_mapIdx.mp hw
      rw [Nat.zero_add] at hle hlt
      simp only [Writes.extent, Extent.stop] at hle hlt
      have hget := congrArg (·[d]?) h.values_eq
      simp only [List.getElem?_map, List.getElem?_eq_getElem hd, Option.map_some] at hget
      obtain ⟨g, hg, heq⟩ := Option.map_eq_some_iff.mp hget
      exact Or.inr (Or.inr ⟨d, g, hg, _, _, h.global_offset hd, heq, hle, hlt⟩)

end Filled

/-- There are ids for the signatures of a module: fewer than `2^32` of them. -/
theorem registerAll_isSome [DecidableEq Sig] {sigs : List Sig} (r : SignatureRegistry Sig)
    (h : r.signatureHash.length + sigs.length ≤ 2 ^ 32) :
    ∃ q, SignatureRegistry.registerAll false r sigs = some q := by
  induction sigs generalizing r with
  | nil => exact ⟨_, rfl⟩
  | cons sig sigs ih =>
    rw [List.length_cons] at h
    obtain ⟨⟨id, r'⟩, hp⟩ : ∃ p, r.register false sig = some p := by
      unfold SignatureRegistry.register
      cases r.signatureHash.find? (·.1 = sig) with
      | some entry => exact ⟨_, rfl⟩
      | none =>
        simp only [Bool.false_and, Bool.false_eq_true, if_false]
        rw [if_pos (by omega)]
        exact ⟨_, rfl⟩
    have hlen : r'.signatureHash.length ≤ r.signatureHash.length + 1 := by
      rcases SignatureRegistry.register_cases hp with ⟨-, he⟩ | ⟨-, -, -, he⟩
      · rw [he]
        exact Nat.le_succ _
      · rw [he, List.length_append]
        exact Nat.le_refl _
    obtain ⟨q, hq⟩ := ih r' (by omega)
    exact ⟨(id :: q.1, q.2), by
      simp only [SignatureRegistry.registerAll, hp, Option.bind_some, hq, Option.map_some]⟩

theorem length_registerAll [DecidableEq Sig] {sigs : List Sig} {ids : List UInt32} {r : SignatureRegistry Sig}
    (h : SignatureRegistry.registerAll false .new sigs = some (ids, r)) : ids.length = sigs.length :=
  (SignatureRegistry.registerAll_spec SignatureRegistry.ok_new h).2.1.length_eq.symm

/-- **The image of a `VMContext`.** A module whose offsets fit is laid out exactly when it has no more imported
tables than tables and its own globals start from constants of the number types. Then the image holds the ids of the
signatures, the lengths of the tables and the values of the globals, a relocation for the base of each table, and
zero everywhere else. -/
theorem layoutVmcontext_image [DecidableEq Sig] {p : Nat} (ho : VMOffsets.new p m = some o)
    (hn : o.sizeOfVmctx = some n) (hp : p = 4 ∨ p = 8) (hroom : memoriesEnd o + 15 < 2 ^ 32) :
    ((layoutVmcontext p m).isSome ↔ m.importedTables.length ≤ m.tablePlans.length ∧
      ∀ g ∈ definedGlobals m, (globalBytes g.initializer).isSome) ∧
    ∀ out tableRelocs, layoutVmcontext p m = some (out, tableRelocs) → Image o m out tableRelocs := by
  constructor
  · constructor
    · intro h
      obtain ⟨⟨out, tableRelocs⟩, h⟩ := Option.isSome_iff_exists.mp h
      obtain ⟨o', n', ids, r, values, -, -, htables, -, hvalues, -⟩ := layoutVmcontext_eq_some h
      refine ⟨htables, fun g hg => ?_⟩
      have hmem : globalBytes g.initializer ∈ values.map some := by
        rw [← (Fallible.mapM_eq_some).mp hvalues]
        exact List.mem_map_of_mem hg
      obtain ⟨bytes, -, hbytes⟩ := List.mem_map.mp hmem
      rw [← hbytes]
      rfl
    · rintro ⟨htables, hglobals⟩
      have hcount : m.signatures.length < 2 ^ 32 := by
        have hlt := finish_lt hn .signatureIds
        rw [VMOffsets.new_eq_some ho] at hlt
        simp only [VmctxArray.finish, VmctxArray.start, VmctxArray.count, VmctxArray.entrySize,
          VMOffsets.sizeOfVmsharedSignatureIndex] at hlt
        omega
      obtain ⟨q, hq⟩ : ∃ q, SignatureRegistry.registerAll false .new m.signatures = some q :=
        registerAll_isSome .new (by rw [SignatureRegistry.new, List.length_nil]; omega)
      obtain ⟨values, hvalues⟩ : ∃ values, globalValues m = some values := by
        refine ⟨(definedGlobals m).map fun g => (globalBytes g.initializer).getD [], ?_⟩
        rw [globalValues, Fallible.mapM_eq_some, List.map_map]
        refine List.map_congr_left fun g hg => ?_
        obtain ⟨bytes, hbytes⟩ := Option.isSome_iff_exists.mp (hglobals g hg)
        rw [Function.comp_apply, hbytes]
        rfl
      rw [layoutVmcontext_eq ho hn htables, hq, Option.bind_some, hvalues, Option.map_some]
      rfl
  · intro out tableRelocs h
    obtain ⟨o', n', ids, r, values, ho', hn', -, hids, hvalues, rfl, rfl⟩ := layoutVmcontext_eq_some h
    obtain rfl := Option.some.inj (ho.symm.trans ho')
    obtain rfl := Option.some.inj (hn.symm.trans hn')
    have hfilled : Filled p m o n ids values := ⟨ho, hn, by omega, hroom, length_registerAll hids, hvalues⟩
    exact hfilled.image_ok hids

/-- A module with two equal signatures, a table after an imported one, and a global. -/
def smallModule : Environ.Module Nat := { (Module.new : Environ.Module Nat) with
  signatures := [7, 5, 7]
  importedTables := [("a", "t")]
  tablePlans := [.forTable ⟨.func, 1, none⟩ ⟨0, 0, 0⟩, .forTable ⟨.func, 300, none⟩ ⟨0, 0, 0⟩]
  globals := [⟨0, false, .i64Const 513⟩] }

example : (layoutVmcontext 8 smallModule).map (fun q => (q.1.take 12, (q.1.drop 36).take 4, q.2)) =
    some ([0, 0, 0, 0, 1, 0, 0, 0, 0, 0, 0, 0], [44, 1, 0, 0], [⟨0, 28⟩]) := by decide

theorem layoutVmcontext_image_small : ∃ out tableRelocs,
    layoutVmcontext 8 smallModule = some (out, tableRelocs) ∧
      Image ⟨8, 3, 0, 1, 0, 0, 2, 0, 1⟩ smallModule out tableRelocs := by
  have hoffsets : VMOffsets.new 8 smallModule = some ⟨8, 3, 0, 1, 0, 0, 2, 0, 1⟩ := rfl
  obtain ⟨hsome, himage⟩ := layoutVmcontext_image (n := 112) hoffsets (by decide) (Or.inr rfl) (by decide)
  obtain ⟨⟨out, tableRelocs⟩, hout⟩ := Option.isSome_iff_exists.mp (hsome.mpr (by decide))
  exact ⟨out, tableRelocs, hout, himage out tableRelocs hout⟩

/-! ## The image and the process -/

/-- A constant, as the process writes it over zeros and as the image holds it. -/
theorem globalInit_bytes {h : Heap Sig} {me : Nat} {init : GlobalInit} {value : BitVec 128} {bytes : List UInt8}
    (hw : h.globalInit me 0 init = some value) (hb : globalBytes init = some bytes) :
    value.toNat < 256 ^ bytes.length ∧ bytes = leBytes bytes.length value.toNat := by
  have key : ∀ (width x : Nat), width ≤ 8 → x < 256 ^ width →
      some (Heap.storeLow 0 (8 * width) x) = some value → leBytes width x = bytes →
      value.toNat < 256 ^ bytes.length ∧ bytes = leBytes bytes.length value.toNat := by
    rintro width x hwidth hx hvalue rfl
    have hpow : (256 : Nat) ^ width = 2 ^ (8 * width) := by rw [Nat.pow_mul]
    have hle : (2 : Nat) ^ (8 * width) ≤ 2 ^ 128 := Nat.pow_le_pow_right (by decide) (by omega)
    rw [hpow] at hx
    have htoNat : value.toNat = x := by
      rw [← Option.some.inj hvalue, Jit.storeLow_zero hx, BitVec.toNat_ofNat]
      exact Nat.mod_eq_of_lt (Nat.lt_of_lt_of_le hx hle)
    rw [length_leBytes, htoNat, hpow]
    exact ⟨hx, rfl⟩
  cases init with
  | i32Const x => exact key 4 x.toNat (by decide) x.toNat_lt hw (Option.some.inj hb)
  | i64Const x => exact key 8 x.toNat (by decide) x.toNat_lt hw (Option.some.inj hb)
  | f32Const x => exact key 4 x.toNat (by decide) x.toNat_lt hw (Option.some.inj hb)
  | f64Const x => exact key 8 x.toNat (by decide) x.toNat_lt hw (Option.some.inj hb)
  | v128Const x => cases hb
  | getGlobal index => cases hb
  | imported => cases hb

/-- `initialize_globals` on globals that are still zero. -/
theorem initializeGlobals_bytes {rest : List Global} {h h' : Heap Sig} {me : Nat} {i : Placed Sig}
    (hme : h[me]? = some i) (done : List (BitVec 128))
    (hglobals : i.globals = done ++ List.replicate rest.length 0)
    (hw : Heap.initializeGlobals me h done.length rest = some h') :
    ∃ added, h'[me]? = some { i with globals := done ++ added } ∧ List.Forall₂ (fun (g : Global) (v : BitVec 128) =>
      ∀ bytes, globalBytes g.initializer = some bytes →
        v.toNat < 256 ^ bytes.length ∧ bytes = leBytes bytes.length v.toNat) rest added := by
  induction rest generalizing h i done with
  | nil =>
    obtain rfl := Option.some.inj hw
    rw [List.length_nil, List.replicate_zero] at hglobals
    exact ⟨[], by rw [← hglobals]; exact hme, .nil⟩
  | cons global rest ih =>
    obtain ⟨i', hi', hw⟩ := Option.bind_eq_some_iff.mp hw
    obtain rfl := Option.some.inj (hme.symm.trans hi')
    obtain ⟨old, hold, hw⟩ := Option.bind_eq_some_iff.mp hw
    obtain ⟨value, hvalue, hw⟩ := Option.bind_eq_some_iff.mp hw
    have hzero : old = 0 := by
      rw [hglobals, List.getElem?_append_right (Nat.le_refl _), Nat.sub_self, List.length_cons, List.replicate_succ,
        List.getElem?_cons_zero] at hold
      exact (Option.some.inj hold).symm
    rw [hzero] at hvalue
    have hset : i.globals.set done.length value = (done ++ [value]) ++ List.replicate rest.length 0 := by
      rw [hglobals, List.length_cons, List.replicate_succ, List.set_append_right _ _ (Nat.le_refl _), Nat.sub_self,
        List.set_cons_zero, List.append_assoc, List.singleton_append]
    rw [hset] at hw
    have hlt := (List.getElem?_eq_some_iff.mp hme).1
    have hlen : (done ++ [value]).length = done.length + 1 := List.length_append
    rw [← hlen] at hw
    obtain ⟨added, hadded, hall⟩ := ih (List.getElem?_set_self hlt) _ rfl hw
    refine ⟨value :: added, ?_, .cons (fun bytes hb => globalInit_bytes hvalue hb) hall⟩
    have hassoc : done ++ value :: added = done ++ [value] ++ added := by simp
    rw [hassoc]
    exact hadded

/-- A new table has its minimum length. -/
theorem createTables_length {Fn : Type} {alloc : Nat → Nat} {plans : List TablePlan} {k : Nat}
    {tables : List (Runtime.Table Fn)} (h : createTables alloc k plans = .ok tables) :
    List.Forall₂ (fun plan t => t.vmtable.currentElements = plan.table.minimum.toNat) plans tables := by
  induction plans generalizing k tables with
  | nil =>
    obtain rfl := Ending.ok.inj h
    exact .nil
  | cons plan plans ih =>
    obtain ⟨t, ht, h⟩ := Ending.bind_eq_ok.mp h
    obtain ⟨ts, hts, rfl⟩ := Ending.map_eq_ok.mp h
    refine .cons ?_ (ih hts)
    unfold Runtime.Table.new at ht
    split at ht
    · cases ht
    · split at ht
      obtain rfl := Ending.ok.inj ht
      exact List.length_replicate

/-- What a new instance holds before its initializers run. -/
theorem allocate_eq {g : InstanceHandle.Given Sig} {i : Placed Sig} (h : InstanceHandle.allocate g m = .ok i) :
    i.signatureIds = g.vmsharedSignatures ∧ i.globals = List.replicate (definedGlobals m).length 0 ∧
      List.Forall₂ (fun plan (d : VMTableDefinition) => d.currentElements = plan.table.minimum.toNat)
        (definedTables m) i.vmctx.tables := by
  obtain ⟨j, hj, h⟩ := Ending.bind_eq_ok.mp h
  split at h
  · obtain rfl := Ending.ok.inj h
    refine ⟨rfl, by rw [definedGlobals, List.length_drop], ?_⟩
    unfold Instance.new at hj
    obtain ⟨tables, htables, hj⟩ := Ending.bind_eq_ok.mp hj
    obtain ⟨memories, -, hj⟩ := Ending.bind_eq_ok.mp hj
    obtain ⟨offsets, -, hj⟩ := Ending.bind_eq_ok.mp hj
    obtain ⟨size, -, rfl⟩ := Ending.map_eq_ok.mp hj
    exact List.forall₂_map_right_iff.mpr (createTables_length htables)
  · cases h

/-- The tables and the memories are initialized before the globals: the instance that `initialize_globals` finds has
the tables, the globals and the ids that it was allocated with. -/
theorem applied_globals {g : InstanceHandle.Given Sig} {i : Placed Sig} {s s' : Store Sig}
    (h : InstanceHandle.Applied g m i s s') :
    ∃ h₂ h₃ j, h₂[s.heap.length]? = some j ∧ j.globals = i.globals ∧ j.vmctx = i.vmctx ∧
      j.signatureIds = i.signatureIds ∧
      Heap.initializeGlobals s.heap.length h₂ 0 (m.globals.drop m.importedGlobals.length) = some h₃ ∧
      s'.heap = (g.start s.heap.length h₃).1 := by
  obtain ⟨h₁, h₂, h₃, hinitTables, hinitMemories, hinitGlobals, hs'⟩ := h
  obtain ⟨i₀, -, hinitTables⟩ := Option.bind_eq_some_iff.mp hinitTables
  have hframe := (Jit.initializeTablesLoop_frame hinitTables).trans (Jit.initializeMemories_frame hinitMemories)
  have hblank := hframe.getElem? s.heap.length
  rw [List.getElem?_append_right (Nat.le_refl _), Nat.sub_self, List.getElem?_cons_zero, Option.map_some] at hblank
  obtain ⟨j, hj, heq⟩ := Option.map_eq_some_iff.mp hblank
  have hread {α : Type} (f : Placed Sig → α) (hf : ∀ i, f (Heap.blank i) = f i) : f j = f i := by
    rw [← hf j, heq, hf i]
  exact ⟨h₂, h₃, j, hj, hread (fun i => i.globals) fun _ => rfl, hread (fun i => i.vmctx) fun _ => rfl,
    hread (fun i => i.signatureIds) fun _ => rfl, hinitGlobals, hs'⟩

/-- Two signatures have the same id exactly when they are equal, in every registry. -/
theorem ids_eq_iff [DecidableEq Sig] {debugAssertions : Bool} {r r' : SignatureRegistry Sig} {sigs : List Sig}
    {ids : List UInt32} (hr : r.Ok) (h : SignatureRegistry.registerAll debugAssertions r sigs = some (ids, r'))
    {k l : Nat} (hk : k < sigs.length) (hl : l < sigs.length) : ids[k]? = ids[l]? ↔ sigs[k]? = sigs[l]? := by
  obtain ⟨hok, hall, -⟩ := SignatureRegistry.registerAll_spec hr h
  have hlen := hall.length_eq
  obtain ⟨-, hget⟩ := List.forall₂_iff_get.mp hall
  have heq := hok.eq_iff (hget k hk (by omega)) (hget l hl (by omega))
  rw [List.getElem?_eq_getElem hk, List.getElem?_eq_getElem hl, List.getElem?_eq_getElem (by omega : k < ids.length),
    List.getElem?_eq_getElem (by omega : l < ids.length), Option.some.injEq, Option.some.injEq]
  exact heq

/-- An instance that is as the image has it: the lengths of its tables, its globals with all of their bytes, and
its signature ids up to renaming. -/
structure Agrees (o : VMOffsets) (m : Module Sig) (out : List UInt8) (i : Placed Sig) : Prop where
  tables : i.vmctx.tables.length = (definedTables m).length ∧ ∀ (d : Nat) t, i.vmctx.tables[d]? = some t →
    Reads out (o.vmctxVmtableDefinitionCurrentElements d) (leBytes 4 t.currentElements)
  globals : i.globals.length = (definedGlobals m).length ∧ ∀ (d : Nat) v, i.globals[d]? = some v →
    Reads out (o.vmctxVmglobalDefinition d) (leBytes 16 v.toNat)
  ids : i.signatureIds.length = m.signatures.length ∧ ∃ ids : List UInt32, ids.length = m.signatures.length ∧
    (∀ (k : Nat) id, ids[k]? = some id → Reads out (o.vmctxVmsharedSignatureId k) (leBytes 4 id.toNat)) ∧
    ∀ k < m.signatures.length, ∀ l < m.signatures.length,
      ids[k]? = ids[l]? ↔ i.signatureIds[k]? = i.signatureIds[l]?

/-- **The image agrees with the process.** Where `InstanceHandle::new` returns, it hands its start function an
instance whose tables and globals are as the image of the module has them, and whose signature ids are those of the
image up to renaming, whatever signatures the registry of the process knew before. -/
theorem image_agrees [DecidableEq Sig] {debugAssertions : Bool} {r r' : SignatureRegistry Sig}
    {g : InstanceHandle.Given Sig} {s s' : Store Sig} {me : Nat} {out : List UInt8} {tableRelocs : List TableRelocation}
    (himage : layoutVmcontext 8 m = some (out, tableRelocs))
    (hroom : ∀ o ∈ VMOffsets.new 8 m, memoriesEnd o + 15 < 2 ^ 32) (hr : r.Ok)
    (hids : SignatureRegistry.registerAll debugAssertions r m.signatures = some (g.vmsharedSignatures, r'))
    (hnew : InstanceHandle.new g m s = .ok me s') :
    ∃ o heap i, VMOffsets.new 8 m = some o ∧ s'.heap = (g.start me heap).1 ∧ heap[me]? = some i ∧
      Agrees o m out i := by
  obtain ⟨o, n, ids, registry, values, ho, hn, htables, himageIds, hvalues, rfl, rfl⟩ := layoutVmcontext_eq_some himage
  have hfilled : Filled 8 m o n ids values :=
    ⟨ho, hn, by decide, hroom o ho, length_registerAll himageIds, hvalues⟩
  have hok := hfilled.image_ok himageIds
  obtain ⟨rfl, i, halloc, happ⟩ := InstanceHandle.new_ok hnew
  obtain ⟨hsig, hglobals, htab⟩ := allocate_eq halloc
  obtain ⟨h₂, h₃, j, hj, hjglobals, hjvmctx, hjids, hinitGlobals, hs'⟩ := applied_globals happ
  obtain ⟨added, hadded, hall⟩ := initializeGlobals_bytes hj []
    (by rw [hjglobals, hglobals, List.nil_append, definedGlobals]) hinitGlobals
  refine ⟨o, h₃, _, ho, hs', hadded, ⟨?_, fun d t ht => ?_⟩, ⟨?_, fun d v hv => ?_⟩, ?_, ids, hfilled.ids, ?_, ?_⟩
  · rw [hjvmctx]
    exact htab.length_eq.symm
  · rw [hjvmctx] at ht
    obtain ⟨hd, rfl⟩ := List.getElem?_eq_some_iff.mp ht
    have hd' : d < (definedTables m).length := by rw [htab.length_eq]; exact hd
    have hmin := (List.forall₂_iff_get.mp htab).2 d hd' hd
    rw [List.get_eq_getElem] at hmin
    rw [hmin]
    exact (hok.tables.2 d _ (List.getElem?_eq_getElem hd')).1
  · exact hall.length_eq.symm
  · rw [List.nil_append] at hv
    obtain ⟨hd, rfl⟩ := List.getElem?_eq_some_iff.mp hv
    have hd' : d < (definedGlobals m).length := by
      rw [definedGlobals, hall.length_eq]
      exact hd
    obtain ⟨bytes, hvalue, hbytes⟩ := hfilled.value_eq (List.getElem?_eq_getElem hd')
    obtain ⟨hlt, hle⟩ := (List.forall₂_iff_get.mp hall).2 d hd' hd bytes hbytes
    refine ⟨_, hfilled.global_offset (List.getElem?_eq_some_iff.mp hvalue).1, ?_⟩
    rw [length_leBytes]
    exact hfilled.loadAt_global hvalue hlt hle
  · show j.signatureIds.length = _
    rw [hjids, hsig]
    exact (SignatureRegistry.registerAll_spec hr hids).2.1.length_eq.symm
  · obtain ⟨ids', registry', hids', -, hreads⟩ := hok.ids
    rw [himageIds] at hids'
    obtain ⟨rfl, -⟩ := Prod.mk.inj (Option.some.inj hids')
    exact hreads
  · intro k hk l hl
    rw [ids_eq_iff SignatureRegistry.ok_new himageIds hk hl]
    show _ ↔ j.signatureIds[k]? = j.signatureIds[l]?
    rw [hjids, hsig, ids_eq_iff hr hids hk hl]

/-- A module with no imports, in a process that knew one of its signatures before. -/
def plainModule : Environ.Module Nat := { (Module.new : Environ.Module Nat) with
  signatures := [7, 5, 7]
  tablePlans := [.forTable ⟨.func, 2, none⟩ ⟨0, 0, 0⟩]
  globals := [⟨0, false, .i64Const 513⟩] }

def plainGiven : InstanceHandle.Given Nat where
  host := LinearMemory.host4K
  os := fun _ => ⟨none, true⟩
  alloc := fun k => 4096 * k
  mapped := true
  addr := fun _ => 0
  finishedFunctions := []
  imports := ⟨[], [], [], []⟩
  dataInitializers := []
  vmsharedSignatures := [1, 0, 1]
  start := fun _ h => (h, none)

theorem image_agrees_plain : ∃ out tableRelocs s', layoutVmcontext 8 plainModule = some (out, tableRelocs) ∧
    InstanceHandle.new plainGiven plainModule ⟨[], []⟩ = .ok 0 s' ∧
    ∃ o heap i, VMOffsets.new 8 plainModule = some o ∧ s'.heap = (plainGiven.start 0 heap).1 ∧ heap[0]? = some i ∧
      Agrees o plainModule out i := by
  obtain ⟨s', hnew⟩ : ∃ s', InstanceHandle.new plainGiven plainModule ⟨[], []⟩ = .ok 0 s' := ⟨_, rfl⟩
  obtain ⟨q, himage⟩ : ∃ q, layoutVmcontext 8 plainModule = some q :=
    Option.isSome_iff_exists.mp (by decide)
  have hids : SignatureRegistry.registerAll true ⟨[(5, 0)]⟩ plainModule.signatures =
      some (plainGiven.vmsharedSignatures, ⟨[(5, 0), (7, 1)]⟩) := rfl
  refine ⟨q.1, q.2, s', himage, hnew, image_agrees himage ?_ ⟨by decide, ?_⟩ hids hnew⟩
  · intro o ho
    rw [show VMOffsets.new 8 plainModule = some ⟨8, 3, 0, 0, 0, 0, 1, 0, 1⟩ by decide] at ho
    obtain rfl := Option.some.inj ho
    decide
  · intro j p hp
    obtain ⟨hj, rfl⟩ := List.getElem?_eq_some_iff.mp hp
    have hzero : j = 0 := Nat.lt_one_iff.mp hj
    subst hzero
    rfl

end Wasmtime.Obj.Context
