import Mathlib
import Wasmtime.Jit.Relocate
import Wasmtime.Lib.Fallible

/-!
# Functions of an object file

Model of `declare_functions` and `emit_functions` (`wasmtime-obj/src/function.rs`), next to `relocate`
(`wasmtime-jit/src/link.rs`).

* The library that writes the object file is a parameter: it takes a declaration, a definition or a link, or gives
  an error (`Library`).
* Debug assertions are on or off.
* In a process the definitions of the object are where the functions of the module are, and the other symbols are
  those of `wasmtime-runtime/src/libcalls.rs` (`Artifact.address`).

`ImportedMemory32Grow` is linked to the function that grows a local memory, and relocations of jump tables are
not linked.

Results: `emitFunctions_eq_ok` (what is defined and linked), and the headline `objectAgrees_iff`.
-/

namespace Wasmtime.Obj

open Environ
open Jit (Reloc RelocationTarget Relocation PointerWidth Symbols Linkage targetFuncAddress patch entries entriesFrom)

/-! ## Symbols -/

/-- The symbol of a function of the module. -/
def functionName (index : Nat) : String := "_wasm_function_" ++ toString index

/-- `get_reloc_target_special_import_name`. -/
def relocTargetSpecialImportName : RelocationTarget → Option String
  | .memory32Grow => some "wasmtime_memory32_grow"
  | .importedMemory32Grow => some "wasmtime_memory32_grow"
  | .memory32Size => some "wasmtime_memory32_size"
  | .importedMemory32Size => some "wasmtime_imported_memory32_size"
  | _ => none

/-! ## The object -/

/-- `Decl`, as far as functions go. -/
inductive Decl where
  | functionImport
  | globalFunction
  deriving DecidableEq, Repr

/-- `Link`: `from`, `to` and `at`. -/
structure Link where
  source : String
  target : String
  site : Nat
  deriving DecidableEq, Repr

structure Artifact where
  declared : List (String × Decl)
  defined : List (String × List UInt8)
  links : List Link
  deriving DecidableEq, Repr

/-- What the library accepts. -/
structure Library where
  declares : Artifact → String → Decl → Bool
  defines : Artifact → String → List UInt8 → Bool
  links : Artifact → Link → Bool

/-- An error of the library, or a panic. -/
inductive Failure where
  | error
  | panic
  deriving DecidableEq, Repr

namespace Library

variable (lib : Library) (obj : Artifact)

def declare (name : String) (decl : Decl) : Except Failure Artifact :=
  if lib.declares obj name decl then .ok { obj with declared := obj.declared ++ [(name, decl)] } else .error .error

def define (name : String) (body : List UInt8) : Except Failure Artifact :=
  if lib.defines obj name body then .ok { obj with defined := obj.defined ++ [(name, body)] } else .error .error

def link (l : Link) : Except Failure Artifact :=
  if lib.links obj l then .ok { obj with links := obj.links ++ [l] } else .error .error

end Library

variable {Sig : Type}

/-- `declare_functions`. -/
def declareFunctions (lib : Library) (m : Module Sig) (relocations : List (List Relocation)) (obj : Artifact) :
    Except Failure Artifact := do
  let obj ← (List.range m.importedFuncs.length).foldlM
    (fun obj i => lib.declare obj (functionName i) .functionImport) obj
  let obj ← relocations.flatten.foldlM (fun obj r =>
    (relocTargetSpecialImportName r.relocTarget).elim (.ok obj) fun name => lib.declare obj name .functionImport) obj
  (List.range relocations.length).reverse.foldlM
    (fun obj i => lib.declare obj (functionName (m.funcIndex i)) .globalFunction) obj

/-- What is linked for a relocation of the `i`-th function. -/
def relocLink (debugAssertions : Bool) (m : Module Sig) (i : Nat) (r : Relocation) : Except Failure (Option Link) :=
  if debugAssertions && r.addend != 0 then .error .panic
  else
    match r.relocTarget with
    | .userFunc index => .ok (some ⟨functionName (m.funcIndex i), functionName index, r.offset.toNat⟩)
    | .jumpTable _ _ => .ok none
    | .libCall _ => .error .panic
    | target => (relocTargetSpecialImportName target).elim (.error .panic) fun name =>
      .ok (some ⟨functionName (m.funcIndex i), name, r.offset.toNat⟩)

/-- The body of the inner loop. -/
def emitReloc (lib : Library) (debugAssertions : Bool) (m : Module Sig) (obj : Artifact) (p : Nat × Relocation) :
    Except Failure Artifact := do
  let l ← relocLink debugAssertions m p.1 p.2
  l.elim (.ok obj) fun l => lib.link obj l

/-- The first loop: the code of the functions. -/
def defineFunctions (lib : Library) (m : Module Sig) (compilation : List (List UInt8)) (count : Nat)
    (obj : Artifact) : Except Failure Artifact :=
  (List.range count).foldlM (fun obj i => compilation[i]?.elim (.error .panic) fun body =>
    lib.define obj (functionName (m.funcIndex i)) body) obj

/-- `emit_functions`. -/
def emitFunctions (lib : Library) (debugAssertions : Bool) (m : Module Sig) (compilation : List (List UInt8))
    (relocations : List (List Relocation)) (obj : Artifact) : Except Failure Artifact :=
  -- "imported start functions not supported yet"
  if debugAssertions && m.startFunc.any fun f => decide (f.toNat < m.importedFuncs.length) then .error .panic
  else do
    let obj ← defineFunctions lib m compilation relocations.length obj
    (entries relocations).foldlM (emitReloc lib debugAssertions m) obj

/-! ## What linking is to do -/

/-- The functions of the process that have a name in `libcalls`. -/
def libcallAddress (s : Symbols) : String → Option Nat
  | "wasmtime_memory32_grow" => some s.memory32Grow
  | "wasmtime_memory32_size" => some s.memory32Size
  | "wasmtime_imported_memory32_grow" => some s.importedMemory32Grow
  | "wasmtime_imported_memory32_size" => some s.importedMemory32Size
  | "wasmtime_f32_ceil" => some s.ceilF32
  | "wasmtime_f32_floor" => some s.floorF32
  | "wasmtime_f32_trunc" => some s.truncF32
  | "wasmtime_f32_nearest" => some s.nearestF32
  | "wasmtime_f64_ceil" => some s.ceilF64
  | "wasmtime_f64_floor" => some s.floorF64
  | "wasmtime_f64_trunc" => some s.truncF64
  | "wasmtime_f64_nearest" => some s.nearestF64
  | _ => none

/-- Where a symbol of the object is in a process. -/
def Artifact.address (obj : Artifact) (l : Linkage Sig) (name : String) : Option Nat :=
  if name ∈ obj.defined.map Prod.fst then
    l.allocatedFunctions[(obj.defined.map Prod.fst).idxOf name]?.map Extent.start
  else libcallAddress l.symbols name

/-- A process with the functions of the module. -/
structure Runs (m : Module Sig) (count : Nat) (l : Linkage Sig) : Prop where
  module : l.module = m
  functions : l.allocatedFunctions.length = count

/-- `relocate` writes a relocation, in some process on such a host. -/
def Applied (w : PointerWidth) (m : Module Sig) (count : Nat) (r : Relocation) : Prop :=
  ∃ l : Linkage Sig, Runs m count l ∧ l.width = w ∧ ∃ target site write,
    targetFuncAddress l r.relocTarget = some target ∧ patch l site target r = some (some write)

/-- In every process the symbol is where `relocate` finds the target. -/
def SameFunction (m : Module Sig) (count : Nat) (obj : Artifact) (name : String) (target : RelocationTarget) : Prop :=
  ∀ l : Linkage Sig, Runs m count l → ∀ address, targetFuncAddress l target = some address →
    obj.address l name = some address

/-- What is linked for a relocation is its site and the function that `relocate` takes, and what is not linked
`relocate` does not write. -/
structure Linked (w : PointerWidth) (debugAssertions : Bool) (m : Module Sig) (count : Nat) (obj : Artifact)
    (p : Nat × Relocation) : Prop where
  link : ∀ l, relocLink debugAssertions m p.1 p.2 = .ok (some l) →
    l.source = functionName (m.funcIndex p.1) ∧ l.site = p.2.offset.toNat ∧
      SameFunction m count obj l.target p.2.relocTarget
  kept : relocLink debugAssertions m p.1 p.2 = .ok none → ¬ Applied w m count p.2

/-- The two back ends agree on all relocations. -/
def Agrees (w : PointerWidth) (debugAssertions : Bool) (m : Module Sig) (relocations : List (List Relocation))
    (obj : Artifact) : Prop :=
  ∀ p ∈ entries relocations, Linked w debugAssertions m relocations.length obj p

/-- The kinds that `relocate` writes. -/
def Written : PointerWidth → Reloc → Prop
  | .w64, k => k = .abs8
  | .w32, k => k = .x86PCRel4

/-- A jump table of a function of the module. -/
def JumpsWithin (m : Module Sig) (count : Nat) (target : RelocationTarget) : Prop :=
  ∃ f jt d, target = .jumpTable f jt ∧ m.definedFuncIndex f = some d ∧ d < count

/-! ## What is emitted -/

theorem functionName_injective {i j : Nat} (h : functionName i = functionName j) : i = j :=
  Nat.repr_injective (String.append_right_inj "_wasm_function_" |>.mp h)

/-- The symbols of the functions of a module. -/
def functionNames (m : Module Sig) (count : Nat) : List String :=
  (List.range count).map fun i => functionName (m.funcIndex i)

variable {lib : Library} {debugAssertions : Bool} {m : Module Sig} {compilation : List (List UInt8)}
  {relocations : List (List Relocation)} {obj obj' : Artifact} {w : PointerWidth} {count : Nat}

theorem functionNames_nodup : (functionNames m count).Nodup := by
  refine List.Nodup.map (fun i j h => ?_) List.nodup_range
  have := functionName_injective h
  rw [Module.funcIndex, Module.funcIndex] at this
  omega

theorem define_ok {name : String} {body : List UInt8} (h : lib.define obj name body = .ok obj') :
    obj'.defined.map Prod.fst = obj.defined.map Prod.fst ++ [name] ∧ obj'.links = obj.links := by
  rw [Library.define] at h
  split at h
  · cases h
    exact ⟨List.map_append, rfl⟩
  · cases h

/-- The first loop defines the functions in their order. -/
theorem defineFunctions_ok (h : defineFunctions lib m compilation count obj = .ok obj') :
    obj'.defined.map Prod.fst = obj.defined.map Prod.fst ++ functionNames m count ∧ obj'.links = obj.links := by
  rw [defineFunctions] at h
  rw [functionNames]
  generalize List.range count = indices at h ⊢
  induction indices generalizing obj with
  | nil =>
    cases h
    simp
  | cons i is ih =>
    rw [List.foldlM_cons] at h
    obtain ⟨obj₁, hfirst, hrest⟩ := Fallible.bind_eq_ok h
    cases hbody : compilation[i]? with
    | none =>
      rw [hbody] at hfirst
      cases hfirst
    | some body =>
      rw [hbody] at hfirst
      obtain ⟨hdefined, hlinks⟩ := define_ok hfirst
      obtain ⟨hdefined', hlinks'⟩ := ih hrest
      refine ⟨?_, hlinks'.trans hlinks⟩
      rw [hdefined', hdefined, List.append_assoc, List.map_cons]
      rfl

/-- The loop over relocations links what each of them gives. -/
theorem emitReloc_ok {p : Nat × Relocation} (h : emitReloc lib debugAssertions m obj p = .ok obj') :
    ∃ l, relocLink debugAssertions m p.1 p.2 = .ok l ∧ obj'.links = obj.links ++ l.toList ∧
      obj'.defined = obj.defined := by
  obtain ⟨l, hl, h⟩ := Fallible.bind_eq_ok h
  refine ⟨l, hl, ?_⟩
  cases l with
  | none =>
    cases h
    exact ⟨(List.append_nil _).symm, rfl⟩
  | some l =>
    rw [Option.elim_some, Library.link] at h
    split at h
    · cases h
      exact ⟨rfl, rfl⟩
    · cases h

theorem foldlM_emitReloc_ok {ps : List (Nat × Relocation)}
    (h : ps.foldlM (emitReloc lib debugAssertions m) obj = .ok obj') :
    ∃ ls, ps.mapM (fun p => relocLink debugAssertions m p.1 p.2) = .ok ls ∧
      obj'.links = obj.links ++ ls.flatMap Option.toList ∧ obj'.defined = obj.defined := by
  induction ps generalizing obj with
  | nil =>
    cases h
    exact ⟨[], rfl, (List.append_nil _).symm, rfl⟩
  | cons p ps ih =>
    rw [List.foldlM_cons] at h
    obtain ⟨obj₁, hfirst, hrest⟩ := Fallible.bind_eq_ok h
    obtain ⟨l, hl, hlinks, hdefined⟩ := emitReloc_ok hfirst
    obtain ⟨ls, hls, hlinks', hdefined'⟩ := ih hrest
    refine ⟨l :: ls, ?_, ?_, hdefined'.trans hdefined⟩
    · rw [Fallible.mapM_eq_ok] at hls ⊢
      rw [List.map_cons, List.map_cons, hl, hls]
    · rw [hlinks', hlinks, List.append_assoc]
      rfl

/-- What an object has after `emit_functions`: the functions under their symbols, and a link for every relocation
that gives one, in order. -/
theorem emitFunctions_ok (h : emitFunctions lib debugAssertions m compilation relocations obj = .ok obj') :
    obj'.defined.map Prod.fst = obj.defined.map Prod.fst ++ functionNames m relocations.length ∧
      ∃ ls, (entries relocations).mapM (fun p => relocLink debugAssertions m p.1 p.2) = .ok ls ∧
        obj'.links = obj.links ++ ls.flatMap Option.toList := by
  rw [emitFunctions] at h
  split at h
  · cases h
  · obtain ⟨obj₁, hdefine, hlink⟩ := Fallible.bind_eq_ok h
    obtain ⟨hdefined, hlinks⟩ := defineFunctions_ok hdefine
    obtain ⟨ls, hls, hlinks', hdefined'⟩ := foldlM_emitReloc_ok hlink
    refine ⟨hdefined' ▸ hdefined, ls, hls, ?_⟩
    rw [hlinks', hlinks]

/-! ## Addresses -/

/-- The symbol of a function is at its code. -/
theorem address_functionName {l : Linkage Sig} {d : Nat} (hdefined : obj.defined.map Prod.fst = functionNames m count)
    (hd : d < count) :
    obj.address l (functionName (m.funcIndex d)) = l.allocatedFunctions[d]?.map Extent.start := by
  have hlength : d < (functionNames m count).length := by
    rw [functionNames, List.length_map, List.length_range]
    exact hd
  have hget : (functionNames m count)[d] = functionName (m.funcIndex d) := by
    simp [functionNames]
  have hindex : (functionNames m count).idxOf (functionName (m.funcIndex d)) = d := by
    rw [← hget]
    exact functionNames_nodup.idxOf_getElem d hlength
  have hmem : functionName (m.funcIndex d) ∈ functionNames m count := hget ▸ List.getElem_mem hlength
  rw [Artifact.address, hdefined, if_pos hmem, hindex]

/-- No function of the module has the symbol of a builtin. -/
theorem address_builtin {l : Linkage Sig} {name : String} (hdefined : obj.defined.map Prod.fst = functionNames m count)
    (hname : name.toList.head? ≠ some '_') : obj.address l name = libcallAddress l.symbols name := by
  refine if_neg fun hmem => ?_
  rw [hdefined] at hmem
  obtain ⟨i, -, rfl⟩ := List.mem_map.mp hmem
  have hchars (index : Nat) : (functionName index).toList =
      "_wasm_function_".toList ++ (toString index).toList := String.toList_append
  rw [hchars] at hname
  exact hname rfl

/-! ## One relocation -/

section

variable {p : Nat × Relocation}

/-- The symbol of a function is the same function for `relocate`. -/
theorem sameFunction_userFunc (hdefined : obj.defined.map Prod.fst = functionNames m count) (index : Nat) :
    SameFunction m count obj (functionName index) (.userFunc index) := by
  intro l hruns address haddress
  obtain ⟨d, hd, haddress⟩ := Option.bind_eq_some_iff.mp haddress
  rw [hruns.module] at hd
  have hlt : d < count := by
    rw [← hruns.functions]
    by_contra hge
    rw [List.getElem?_eq_none (Nat.le_of_not_lt hge)] at haddress
    cases haddress
  have hindex : index = m.funcIndex d := by
    rw [Module.definedFuncIndex, Module.definedIndex] at hd
    split at hd
    · cases hd
    · obtain rfl := Option.some.inj hd
      rw [Module.funcIndex]
      omega
  rw [hindex, address_functionName hdefined hlt, haddress]

/-- The builtins but one are the same function. -/
theorem sameFunction_builtin {name : String} {target : RelocationTarget}
    (hdefined : obj.defined.map Prod.fst = functionNames m count) (hname : name.toList.head? ≠ some '_')
    (h : ∀ l : Linkage Sig, targetFuncAddress l target = libcallAddress l.symbols name) :
    SameFunction m count obj name target := by
  intro l _ address haddress
  rw [address_builtin hdefined hname, ← h, haddress]

/-- A process whose functions are at address 0, as are its builtins but one. -/
def processAtZero (w : PointerWidth) (m : Module Sig) (count jumpTables : Nat) : Linkage Sig where
  width := w
  symbols := ⟨0, 0, 1, 0, 0, 0, 0, 0, 0, 0, 0, 0, 0⟩
  allocatedFunctions := List.replicate count ⟨0, 0⟩
  jtOffsets := List.replicate count (List.replicate jumpTables 0)
  module := m

theorem processAtZero_runs {jumpTables : Nat} : Runs m count (processAtZero w m count jumpTables) :=
  ⟨rfl, List.length_replicate⟩

/-- Growing a local memory is not growing an imported one. -/
theorem not_sameFunction_grow (hdefined : obj.defined.map Prod.fst = functionNames m count) :
    ¬ SameFunction m count obj "wasmtime_memory32_grow" .importedMemory32Grow := by
  intro h
  have haddress := h (processAtZero .w64 m count 0) processAtZero_runs 1 rfl
  rw [address_builtin hdefined (by decide)] at haddress
  cases haddress

theorem unsignedAddend_lt (bits : Nat) (r : Relocation) : r.unsignedAddend bits < 2 ^ bits :=
  BitVec.isLt _

/-- A relocation that is not linked is written exactly when it is of a kind that is written, for a jump table of
one of the functions. -/
theorem applied_jumpTable {r : Relocation} {f jt : Nat} (h : r.relocTarget = .jumpTable f jt) :
    Applied w m count r ↔ JumpsWithin m count r.relocTarget ∧ Written w r.reloc := by
  constructor
  · rintro ⟨l, hruns, rfl, target, site, write, htarget, hpatch⟩
    rw [h] at htarget ⊢
    obtain ⟨d, hd, htarget⟩ := Option.bind_eq_some_iff.mp htarget
    obtain ⟨offset, -, htarget⟩ := Option.bind_eq_some_iff.mp htarget
    obtain ⟨body, hbody, -⟩ := Option.bind_eq_some_iff.mp htarget
    have hlt : d < count := hruns.functions ▸ (List.getElem?_eq_some_iff.mp hbody).1
    refine ⟨⟨f, jt, d, rfl, hruns.module ▸ hd, hlt⟩, ?_⟩
    rw [patch] at hpatch
    cases hw : l.width <;> cases hr : r.reloc <;> rw [hw, hr] at hpatch <;> first | rfl | cases hpatch
  · rintro ⟨⟨f', jt', d, htarget, hd, hlt⟩, hwritten⟩
    rw [h] at htarget
    cases htarget
    refine ⟨processAtZero w m count (jt + 1), processAtZero_runs, rfl, 0, 0, ?_⟩
    have haddress : targetFuncAddress (processAtZero w m count (jt + 1)) r.relocTarget = some 0 := by
      rw [h]
      have htable : (List.replicate (jt + 1) (0 : UInt32))[jt]? = some 0 := by
        rw [List.getElem?_replicate, if_pos (Nat.lt_succ_self jt)]
      simp only [targetFuncAddress, processAtZero, hd, Option.bind_some, List.getElem?_replicate, if_pos hlt]
      rw [if_pos (Nat.lt_succ_self jt)]
      exact if_pos (Nat.two_pow_pos _)
    cases w with
    | w64 =>
      have hkind : r.reloc = .abs8 := hwritten
      have hsum : 0 + r.unsignedAddend 64 < 2 ^ 64 := by
        rw [Nat.zero_add]
        exact unsignedAddend_lt 64 r
      refine ⟨(0, LittleEndian.leBytes 8 (0 + r.unsignedAddend 64)), haddress, ?_⟩
      rw [Jit.patch_abs8 rfl hkind, Jit.checkedAdd_eq_some.mpr ⟨hsum, rfl⟩]
      rfl
    | w32 =>
      have hkind : r.reloc = .x86PCRel4 := hwritten
      have hsum : (0 + (2 ^ 32 - 0 % 2 ^ 32)) % 2 ^ 32 + r.unsignedAddend 32 < 2 ^ 32 := by
        have := unsignedAddend_lt 32 r
        omega
      refine ⟨(0, LittleEndian.leBytes 4 ((0 + (2 ^ 32 - 0 % 2 ^ 32)) % 2 ^ 32 + r.unsignedAddend 32)), haddress, ?_⟩
      rw [Jit.patch_pcRel4 rfl hkind, Jit.checkedAdd_eq_some.mpr ⟨hsum, rfl⟩]
      rfl

/-- **One relocation**: the back ends agree on it unless it grows an imported memory, or is for a jump table and of a
kind that `relocate` writes. -/
theorem linked_iff (hdefined : obj.defined.map Prod.fst = functionNames m count) {l : Option Link}
    (hl : relocLink debugAssertions m p.1 p.2 = .ok l) :
    Linked w debugAssertions m count obj p ↔ p.2.relocTarget ≠ .importedMemory32Grow ∧
      ¬ (JumpsWithin m count p.2.relocTarget ∧ Written w p.2.reloc) := by
  have hsame : ∀ {name : String}, l = some ⟨functionName (m.funcIndex p.1), name, p.2.offset.toNat⟩ →
      SameFunction m count obj name p.2.relocTarget → p.2.relocTarget ≠ .importedMemory32Grow →
      (∀ f jt, p.2.relocTarget ≠ .jumpTable f jt) →
      (Linked w debugAssertions m count obj p ↔ p.2.relocTarget ≠ .importedMemory32Grow ∧
        ¬ (JumpsWithin m count p.2.relocTarget ∧ Written w p.2.reloc)) := by
    rintro name rfl hsame hgrow hjump
    refine iff_of_true ⟨fun l' hl' => ?_, fun hnone => ?_⟩ ⟨hgrow, fun ⟨⟨f, jt, _, htarget, _⟩, _⟩ => hjump f jt htarget⟩
    · rw [hl] at hl'
      cases hl'
      exact ⟨rfl, rfl, hsame⟩
    · rw [hl] at hnone
      cases hnone
  have hbody := hl
  rw [relocLink] at hbody
  split at hbody
  · cases hbody
  · cases htarget : p.2.relocTarget with
    | userFunc index =>
      rw [htarget] at hbody hsame
      exact hsame (Except.ok.inj hbody).symm (sameFunction_userFunc hdefined index) (by simp) (by simp)
    | libCall libcall =>
      rw [htarget] at hbody
      cases hbody
    | memory32Grow =>
      rw [htarget] at hbody hsame
      exact hsame (Except.ok.inj hbody).symm (sameFunction_builtin hdefined (by decide) fun _ => rfl) (by simp) (by simp)
    | memory32Size =>
      rw [htarget] at hbody hsame
      exact hsame (Except.ok.inj hbody).symm (sameFunction_builtin hdefined (by decide) fun _ => rfl) (by simp) (by simp)
    | importedMemory32Size =>
      rw [htarget] at hbody hsame
      exact hsame (Except.ok.inj hbody).symm (sameFunction_builtin hdefined (by decide) fun _ => rfl) (by simp) (by simp)
    | importedMemory32Grow =>
      rw [htarget] at hbody
      refine iff_of_false (fun hlinked => ?_) fun h => h.1 rfl
      have hgrow := (hlinked.link _ (hl.trans hbody.symm)).2.2
      rw [htarget] at hgrow
      exact not_sameFunction_grow hdefined hgrow
    | jumpTable f jt =>
      rw [htarget] at hbody
      cases hbody
      rw [← htarget, ← applied_jumpTable htarget]
      refine ⟨fun hlinked => ⟨by simp [htarget], hlinked.kept hl⟩, fun h => ⟨fun l' hl' => ?_, fun _ => h.2⟩⟩
      rw [hl] at hl'
      cases hl'

end

/-- **Object files and code in memory.** For what `emit_functions` accepts, the object has the links of the
relocations, in order; they and what is not linked agree with `relocate` exactly when no relocation grows an imported
memory and none that is for a jump table is of a kind that `relocate` writes. -/
theorem objectAgrees_iff (hnew : obj.defined = [])
    (h : emitFunctions lib debugAssertions m compilation relocations obj = .ok obj') :
    (∃ ls, (entries relocations).mapM (fun p => relocLink debugAssertions m p.1 p.2) = .ok ls ∧
      obj'.links = obj.links ++ ls.flatMap Option.toList) ∧
    (Agrees w debugAssertions m relocations obj' ↔
      ∀ p ∈ entries relocations, p.2.relocTarget ≠ .importedMemory32Grow ∧
        ¬ (JumpsWithin m relocations.length p.2.relocTarget ∧ Written w p.2.reloc)) := by
  obtain ⟨hdefined, ls, hls, hlinks⟩ := emitFunctions_ok h
  rw [hnew, List.map_nil, List.nil_append] at hdefined
  refine ⟨⟨ls, hls, hlinks⟩, forall₂_congr fun p hp => ?_⟩
  obtain ⟨l, -, hl⟩ := Fallible.exists_of_mapM hls hp
  exact linked_iff hdefined hl

/-! ## An imported memory -/

/-- What accepts everything. -/
def acceptAll : Library := ⟨fun _ _ _ => true, fun _ _ _ => true, fun _ _ => true⟩

/-- One function, with one relocation to a builtin. -/
def callsBuiltin (target : RelocationTarget) : List (List Relocation) := [[⟨.abs8, target, 4, 0⟩]]

/-- The object of such a function. -/
def callsBuiltinObject (name : String) : Artifact :=
  ⟨[], [("_wasm_function_0", [])], [⟨"_wasm_function_0", name, 4⟩]⟩

theorem agrees_grow : Agrees .w64 true (Module.new : Module Unit) (callsBuiltin .memory32Grow)
    (callsBuiltinObject "wasmtime_memory32_grow") := by
  refine (@objectAgrees_iff Unit acceptAll true Module.new [[]] (callsBuiltin .memory32Grow) ⟨[], [], []⟩
    (callsBuiltinObject "wasmtime_memory32_grow") .w64 rfl (by decide)).2.mpr fun p hp => ?_
  obtain rfl := List.mem_singleton.mp hp
  exact ⟨by decide, fun ⟨⟨f, jt, d, h, _⟩, _⟩ => by cases h⟩

/-- Growing an imported memory is linked to the function for local memories. -/
theorem not_agrees_importedGrow :
    emitFunctions acceptAll true (Module.new : Module Unit) [[]] (callsBuiltin .importedMemory32Grow) ⟨[], [], []⟩ =
        .ok (callsBuiltinObject "wasmtime_memory32_grow") ∧
      ¬ Agrees .w64 true (Module.new : Module Unit) (callsBuiltin .importedMemory32Grow)
        (callsBuiltinObject "wasmtime_memory32_grow") := by
  refine ⟨by decide, fun h => ?_⟩
  have hlinked := h _ (List.mem_singleton.mpr rfl)
  exact not_sameFunction_grow rfl (hlinked.link _ rfl).2.2

end Wasmtime.Obj
