import Mathlib
import Wasmtime.Debug.Expression
import Wasmtime.Obj.Functions

/-!
# Names in the debug information

Model of `read_name_section` and `read_debuginfo` (`wasmtime-debug/src/read_debuginfo.rs`), of
`generate_simulated_dwarf` (`wasmtime-debug/src/transform/simulate.rs`), and of the symbols that `emit_debugsections`
(`wasmtime-debug/src/lib.rs`) refers to.

* Sections are parsed already; of those with DWARF nothing is kept, but for the symbols that the units made from it
  refer to.
* The value ranges of a function are given with the order of their keys.
* `none` is a panic, or a list of locations that does not come back.

The simulated units and the symbols count functions without those that are imported, and the name section and the
object file count both.

Results: `resolveVarType_eq` (the type of a local), `funcs_getElem` (what is known of a function), and the headline
`namesRight_iff`.
-/

namespace Wasmtime.Debug.Simulate

open Environ (Module)
open Obj (functionName)

/-! ## What is read -/

/-- `wasmparser::Type`. -/
inductive WasmType where
  | i32
  | i64
  | f32
  | f64
  | other (code : Nat)
  deriving DecidableEq, Repr

structure FunctionMetadata where
  params : List WasmType
  locals : List (Nat × WasmType)
  deriving DecidableEq, Repr

structure WasmFileInfo where
  codeSectionOffset : Nat
  funcs : List FunctionMetadata

structure NameSection where
  moduleName : Option String
  funcNames : Std.TreeMap Nat String
  localsNames : Std.TreeMap Nat (Std.TreeMap Nat String)

structure DebugInfoData where
  nameSection : Option NameSection
  wasmFile : WasmFileInfo

/-- `wasmparser::Name`. -/
inductive Name where
  | module (name : String)
  | function (map : List (Nat × String))
  | locals (functions : List (Nat × List (Nat × String)))

/-- The loop that reads a name map. -/
def readMap (map : List (Nat × String)) : Std.TreeMap Nat String :=
  map.foldl (fun names naming => names.insert naming.1 naming.2) ∅

/-- A round of the loop of `read_name_section`. -/
def NameSection.add (s : NameSection) : Name → NameSection
  | .module name => { s with moduleName := some name }
  | .function map =>
    { s with funcNames := map.foldl (fun names naming => names.insert naming.1 naming.2) s.funcNames }
  | .locals functions =>
    { s with localsNames := functions.foldl (fun names f => names.insert f.1 (readMap f.2)) s.localsNames }

/-- `read_name_section`. -/
def readNameSection (names : List Name) : NameSection := names.foldl NameSection.add ⟨none, ∅, ∅⟩

/-- A section of the module; a name section that cannot be read is `none`. -/
inductive WasmSection where
  | name (names : Option (List Name))
  | type (params : List (List WasmType))
  | function (indices : List Nat)
  | code (start : Nat) (locals : List (List (Nat × WasmType)))
  | other

/-- The variables of the loop of `read_debuginfo`. -/
structure Reading where
  nameSection : Option NameSection
  codeSectionOffset : Nat
  signaturesParams : List (List WasmType)
  funcParamsRefs : List Nat
  funcLocals : List (List (Nat × WasmType))

def Reading.add (r : Reading) : WasmSection → Reading
  | .name names => { r with nameSection := (names.map readNameSection).or r.nameSection }
  | .type params => { r with signaturesParams := params }
  | .function indices => { r with funcParamsRefs := indices }
  | .code start locals => { r with codeSectionOffset := start, funcLocals := locals }
  | .other => r

def readSections (sections : List WasmSection) : Reading := sections.foldl Reading.add ⟨none, 0, [], [], []⟩

/-- The metadata of a function, of its type and its body. -/
def Reading.metadata (r : Reading) (f : Nat × List (Nat × WasmType)) : Option FunctionMetadata :=
  r.signaturesParams[f.1]?.map fun params => ⟨params, f.2⟩

/-- `read_debuginfo`. -/
def readDebuginfo (sections : List WasmSection) : Option DebugInfoData :=
  let r := readSections sections
  ((r.funcParamsRefs.zip r.funcLocals).mapM r.metadata).map fun funcs =>
    ⟨r.nameSection, r.codeSectionOffset, funcs⟩

/-! ## The simulated unit -/

/-- The types that have a DIE. -/
def hasDie : WasmType → Bool
  | .i32 | .i64 | .f32 | .f64 => true
  | .other _ => false

/-- The loop over the locals in `resolve_var_type`. -/
def localType : Nat → List (Nat × WasmType) → Option WasmType
  | _, [] => none
  | i, (count, ty) :: locals => if i ≥ count then localType (i - count) locals else some ty

/-- `resolve_var_type`: the type, and whether it is that of a parameter. An index is a `u32`, so that the casts keep
it. -/
def resolveVarType (index : Nat) (funcMeta : FunctionMetadata) : Option (WasmType × Bool) :=
  if index < funcMeta.params.length then
    (funcMeta.params[index]?.filter hasDie).map fun ty => (ty, true)
  else
    ((localType (index - funcMeta.params.length) funcMeta.locals).filter hasDie).map fun ty => (ty, false)

/-- A parameter or a variable. -/
structure Variable where
  isParam : Bool
  name : String
  type : WasmType
  deriving DecidableEq, Repr

/-- A DIE below a subprogram, with its locations; `__vmctx` is no variable of the module. -/
structure Child where
  var : Option Variable
  locations : List LocationEntry
  deriving DecidableEq, Repr

structure Subprogram where
  symbol : Nat
  addend : Nat
  highPc : Nat
  name : String
  declFile : Nat
  children : List Child
  deriving DecidableEq, Repr

/-- A sequence of the line program: a row is an offset and a line. -/
structure LineSequence where
  symbol : Nat
  rows : List (Nat × Nat)
  endAddress : Nat
  deriving DecidableEq, Repr

structure Simulated where
  lines : List LineSequence
  subprograms : List Subprogram
  deriving DecidableEq, Repr

/-- `CompiledExpression::from_label`. -/
def fromLabel (label : ValueLabel) : CompiledExpression := ⟨[.localValue label, .code [0x9f]], false⟩

/-- `a - b`, which panics below zero. -/
def checkedSub (a b : Nat) : Option Nat := if b ≤ a then some (a - b) else none

section

variable (bs : BinarySearch) (sort : UnstableSort) (fuel : Nat) (addrTr : AddressTransform) (di : DebugInfoData)

/-- The value ranges of a function: `frame_info`, and the order of its keys. -/
structure FunctionRanges where
  frameInfo : FunctionFrameInfo
  keys : List ValueLabel

/-- The round of the loop of `generate_vars` for a label. -/
def generateVar (ranges : FunctionRanges) (scope : List (Nat × Nat)) (funcMeta : FunctionMetadata)
    (localsNames : Option (Std.TreeMap Nat String)) (label : ValueLabel) : Option (Option Child) :=
  let locations := (fromLabel label).buildWithLocals bs sort fuel addrTr (some ranges.frameInfo) scope
  if label = vmctxLabel then locations.map fun locs => some ⟨none, locs⟩
  else
    (resolveVarType label funcMeta).elim (some none) fun (ty, isParam) => locations.map fun locs =>
      some ⟨some ⟨isParam, (localsNames.bind fun names => names[label]?).getD ("var" ++ toString label), ty⟩, locs⟩

/-- `generate_vars`. -/
def generateVars (ranges : FunctionRanges) (scope : List (Nat × Nat)) (funcMeta : FunctionMetadata)
    (localsNames : Option (Std.TreeMap Nat String)) : Option (List Child) :=
  (ranges.keys.mapM (generateVar bs sort fuel addrTr ranges scope funcMeta localsNames)).map List.reduceOption

/-- A sequence of `generate_line_info`. -/
def generateSequence (f : FunctionMap × Nat) : Option LineSequence := do
  let rows ← f.1.addresses.mapM fun a =>
    (checkedSub a.generated f.1.offset).map fun offset => (offset, di.wasmFile.codeSectionOffset + a.wasm)
  let endAddress ← checkedSub (f.1.offset + f.1.len) 1
  return ⟨f.2, rows, endAddress⟩

/-- The DIEs below the subprogram of a function, where it has value ranges. -/
def generateChildren (ranges : List FunctionRanges) (f : FunctionMap × Nat) : Option (List Child) :=
  ranges[f.2]?.elim (some []) fun r => di.wasmFile.funcs[f.2]?.bind fun funcMeta =>
    generateVars bs sort fuel addrTr r [(f.1.wasmStart, f.1.wasmEnd)] funcMeta
      (di.nameSection.bind fun names => names.localsNames[f.2]?)

/-- The round of the loop of `generate_simulated_dwarf` for a function. -/
def generateSubprogram (ranges : List FunctionRanges) (f : FunctionMap × Nat) : Option Subprogram := do
  let name := (di.nameSection.bind fun names => names.funcNames[f.2]?).getD
    ("wasm-function[" ++ toString f.2 ++ "]")
  let first ← f.1.addresses.head?
  let children ← generateChildren bs sort fuel addrTr di ranges f
  return ⟨f.2, f.1.offset, f.1.len, name, di.wasmFile.codeSectionOffset + first.wasm, children⟩

/-- The functions that no unit of the module's DWARF has. -/
def untranslated (translated : List Nat) : List (FunctionMap × Nat) :=
  addrTr.map.zipIdx.filter fun f => decide (f.2 ∉ translated)

/-- `generate_simulated_dwarf`. -/
def generateSimulatedDwarf (ranges : List FunctionRanges) (translated : List Nat) : Option Simulated := do
  let lines ← (untranslated addrTr translated).mapM (generateSequence di)
  let subprograms ← (untranslated addrTr translated).mapM (generateSubprogram bs sort fuel addrTr di ranges)
  return ⟨lines, subprograms⟩

end

/-! ## Symbols -/

/-- `resolve_symbol` of `FunctionRelocResolver`. -/
def resolveSymbol (symbol : Nat) : String := "_wasm_function_" ++ toString symbol

/-- The symbols of the addresses of a unit. -/
def Simulated.symbols (s : Simulated) : List Nat :=
  s.lines.map LineSequence.symbol ++
    s.subprograms.flatMap fun sub => sub.symbol :: sub.children.flatMap fun c => c.locations.map LocationEntry.symbol

/-! ## What the names are to be -/

/-- The locals of a body, expanded. -/
def expand (locals : List (Nat × WasmType)) : List WasmType := locals.flatMap fun l => List.replicate l.1 l.2

/-- The `i`-th function that is not imported: the parameters of its type, and the locals of its body. -/
structure IsBody (sections : List WasmSection) (i : Nat) (funcMeta : FunctionMetadata) : Prop where
  params : ∃ types indices ref, .type types ∈ sections ∧ .function indices ∈ sections ∧ indices[i]? = some ref ∧
    types[ref]? = some funcMeta.params
  locals : ∃ start bodies, .code start bodies ∈ sections ∧ bodies[i]? = some funcMeta.locals

variable {Sig : Type}

/-- The name of the `i`-th function that is not imported. -/
def nameOf (m : Module Sig) (di : DebugInfoData) (i : Nat) : String :=
  (di.nameSection.bind fun names => names.funcNames[m.funcIndex i]?).getD ("wasm-function[" ++ toString i ++ "]")

/-- The name of a local. -/
def localNameOf (m : Module Sig) (di : DebugInfoData) (i label : Nat) : String :=
  ((di.nameSection.bind fun names => names.localsNames[m.funcIndex i]?).bind fun names => names[label]?).getD
    ("var" ++ toString label)

/-- The DIE for a label: `__vmctx`, or a local whose type has a DIE. -/
def variableOf (m : Module Sig) (di : DebugInfoData) (funcMeta : FunctionMetadata) (i label : Nat) :
    Option (Option Variable) :=
  if label = vmctxLabel then some none
  else ((funcMeta.params ++ expand funcMeta.locals)[label]?.filter hasDie).map fun ty =>
    some ⟨decide (label < funcMeta.params.length), localNameOf m di i label, ty⟩

/-- A subprogram has the names and types of its function. -/
structure Describes (m : Module Sig) (sections : List WasmSection) (di : DebugInfoData) (ranges : List FunctionRanges)
    (sub : Subprogram) : Prop where
  name : sub.name = nameOf m di sub.symbol
  none : ranges[sub.symbol]? = none → sub.children = []
  children : ∀ r, ranges[sub.symbol]? = some r → ∃ funcMeta, IsBody sections sub.symbol funcMeta ∧
    sub.children.map Child.var = r.keys.filterMap (variableOf m di funcMeta sub.symbol)

/-- The subprograms describe their functions, and the symbols are those of the object file; `cloned` are the symbols
of the other units. -/
structure NamesRight (m : Module Sig) (sections : List WasmSection) (di : DebugInfoData) (ranges : List FunctionRanges)
    (cloned : List Nat) (sim : Simulated) : Prop where
  subprograms : ∀ sub ∈ sim.subprograms, Describes m sections di ranges sub
  symbols : ∀ s ∈ cloned ++ sim.symbols, resolveSymbol s = functionName (m.funcIndex s)

/-! ## Types -/

/-- The loop over the locals finds the type in their expansion. -/
theorem localType_eq (i : Nat) (locals : List (Nat × WasmType)) : localType i locals = (expand locals)[i]? := by
  induction locals generalizing i with
  | nil => rfl
  | cons l locals ih =>
    obtain ⟨count, ty⟩ := l
    have hexpand : expand ((count, ty) :: locals) = List.replicate count ty ++ expand locals := rfl
    rw [localType, hexpand]
    split
    · next hge => rw [List.getElem?_append_right (by rwa [List.length_replicate]), List.length_replicate, ih]
    · next hlt =>
      have hlt : i < count := Nat.lt_of_not_le hlt
      rw [List.getElem?_append_left (by rwa [List.length_replicate]), List.getElem?_replicate, if_pos hlt]

/-- **The type of a local** is that of its place among the parameters and the expanded locals. -/
theorem resolveVarType_eq (index : Nat) (funcMeta : FunctionMetadata) :
    resolveVarType index funcMeta = ((funcMeta.params ++ expand funcMeta.locals)[index]?.filter hasDie).map
      fun ty => (ty, decide (index < funcMeta.params.length)) := by
  rw [resolveVarType]
  split
  · next hlt => rw [List.getElem?_append_left hlt, decide_eq_true hlt]
  · next hge => rw [List.getElem?_append_right (Nat.le_of_not_lt hge), localType_eq, decide_eq_false hge]

/-! ## What is known of a function -/

/-- What has been read is from a section. -/
structure Reading.From (r : Reading) (sections : List WasmSection) : Prop where
  types : r.signaturesParams ≠ [] → .type r.signaturesParams ∈ sections
  functions : r.funcParamsRefs ≠ [] → .function r.funcParamsRefs ∈ sections
  code : r.funcLocals ≠ [] → .code r.codeSectionOffset r.funcLocals ∈ sections

theorem Reading.From.add {r : Reading} {done : List WasmSection} (h : r.From done) (s : WasmSection) :
    (r.add s).From (done ++ [s]) := by
  have hkept : ∀ {x : WasmSection}, x ∈ done → x ∈ done ++ [s] := List.mem_append_left _
  have hlast : s ∈ done ++ [s] := List.mem_append_right _ List.mem_cons_self
  cases s with
  | name names => exact ⟨fun hne => hkept (h.types hne), fun hne => hkept (h.functions hne), fun hne => hkept (h.code hne)⟩
  | type params => exact ⟨fun _ => hlast, fun hne => hkept (h.functions hne), fun hne => hkept (h.code hne)⟩
  | function indices => exact ⟨fun hne => hkept (h.types hne), fun _ => hlast, fun hne => hkept (h.code hne)⟩
  | code start locals => exact ⟨fun hne => hkept (h.types hne), fun hne => hkept (h.functions hne), fun _ => hlast⟩
  | other => exact ⟨fun hne => hkept (h.types hne), fun hne => hkept (h.functions hne), fun hne => hkept (h.code hne)⟩

theorem readSections_from (sections : List WasmSection) : (readSections sections).From sections := by
  have hfold : ∀ (rest done : List WasmSection) (r : Reading), r.From done →
      (rest.foldl Reading.add r).From (done ++ rest) := by
    intro rest
    induction rest with
    | nil =>
      intro done r h
      rwa [List.append_nil]
    | cons s rest ih =>
      intro done r h
      have := ih (done ++ [s]) (r.add s) (h.add s)
      rwa [List.append_assoc] at this
  exact hfold sections [] _ ⟨fun h => absurd rfl h, fun h => absurd rfl h, fun h => absurd rfl h⟩

/-- The metadata of a function is that of its body. -/
theorem funcs_isBody {sections : List WasmSection} {di : DebugInfoData} (h : readDebuginfo sections = some di) {i : Nat}
    {funcMeta : FunctionMetadata} (hi : di.wasmFile.funcs[i]? = some funcMeta) : IsBody sections i funcMeta := by
  obtain ⟨funcs, hfuncs, rfl⟩ := Option.map_eq_some_iff.mp h
  have hfrom := readSections_from sections
  set r := readSections sections
  have hmap := congrArg (fun l => l[i]?) (Fallible.mapM_eq_some.mp hfuncs)
  simp only [List.getElem?_map, hi, Option.map_some] at hmap
  obtain ⟨⟨ref, locals⟩, hzip, hmeta⟩ := Option.map_eq_some_iff.mp hmap
  obtain ⟨href, hlocals⟩ := List.getElem?_zip_eq_some.mp hzip
  obtain ⟨params, hparams, rfl⟩ := Option.map_eq_some_iff.mp hmeta
  have hne : ∀ {α : Type} {l : List α} {j : Nat} {x : α}, l[j]? = some x → l ≠ [] := by
    rintro α l j x hj rfl
    cases hj
  exact ⟨⟨_, _, ref, hfrom.types (hne hparams), hfrom.functions (hne href), href, hparams⟩,
    ⟨_, _, hfrom.code (hne hlocals), hlocals⟩⟩

/-! ## What is generated -/

section

variable {bs : BinarySearch} {sort : UnstableSort} {fuel : Nat} {addrTr : AddressTransform} {di : DebugInfoData}
  {ranges : List FunctionRanges} {translated cloned : List Nat} {sections : List WasmSection} {m : Module Sig}
  {f : FunctionMap × Nat} {sub : Subprogram} {sim : Simulated}

/-- The DIEs for the labels of a function, where no function is imported. -/
theorem generateVars_eq {r : FunctionRanges} {scope : List (Nat × Nat)} {funcMeta : FunctionMetadata} {i : Nat}
    {children : List Child} (hindex : m.funcIndex i = i)
    (h : generateVars bs sort fuel addrTr r scope funcMeta
      (di.nameSection.bind fun names => names.localsNames[i]?) = some children) :
    children.map Child.var = r.keys.filterMap (variableOf m di funcMeta i) := by
  obtain ⟨found, hfound, rfl⟩ := Option.map_eq_some_iff.mp h
  have hvar : ∀ label c, generateVar bs sort fuel addrTr r scope funcMeta
      (di.nameSection.bind fun names => names.localsNames[i]?) label = some c →
        c.map Child.var = variableOf m di funcMeta i label := by
    intro label c hc
    rw [generateVar] at hc
    rw [variableOf]
    split at hc
    · next hlabel =>
      obtain ⟨locs, -, rfl⟩ := Option.map_eq_some_iff.mp hc
      rw [if_pos hlabel]
      rfl
    · next hlabel =>
      rw [if_neg hlabel, localNameOf, hindex]
      rw [resolveVarType_eq] at hc
      cases hty : (funcMeta.params ++ expand funcMeta.locals)[label]?.filter hasDie with
      | none =>
        rw [hty] at hc
        obtain rfl := Option.some.inj hc
        rfl
      | some ty =>
        rw [hty] at hc
        obtain ⟨locs, -, rfl⟩ := Option.map_eq_some_iff.mp hc
        rfl
  have hmap := Fallible.mapM_eq_some.mp hfound
  clear hfound h
  generalize r.keys = keys at hmap ⊢
  induction keys generalizing found with
  | nil =>
    rw [List.map_nil, eq_comm, List.map_eq_nil_iff] at hmap
    rw [hmap]
    rfl
  | cons label keys ih =>
    cases found with
    | nil => cases hmap
    | cons c found =>
      rw [List.map_cons, List.map_cons] at hmap
      obtain ⟨hhead, htail⟩ := List.cons.inj hmap
      have hlabel := hvar label c hhead
      rw [List.filterMap_cons, ← hlabel, ← ih found htail]
      cases c <;> rfl

/-- Where no function is imported, a subprogram describes its function. -/
theorem generateSubprogram_describes (hread : readDebuginfo sections = some di) (himports : m.importedFuncs = [])
    (h : generateSubprogram bs sort fuel addrTr di ranges f = some sub) : Describes m sections di ranges sub := by
  have hindex : ∀ i, m.funcIndex i = i := fun i => by rw [Module.funcIndex, himports, List.length_nil, Nat.zero_add]
  obtain ⟨first, -, h⟩ := Option.bind_eq_some_iff.mp h
  obtain ⟨children, hchildren, h⟩ := Option.bind_eq_some_iff.mp h
  cases h
  refine ⟨?_, fun hnone => ?_, fun r hr => ?_⟩
  · rw [nameOf, hindex]
  · simp only at hnone
    rw [generateChildren, hnone] at hchildren
    exact (Option.some.inj hchildren).symm
  · simp only at hr
    rw [generateChildren, hr] at hchildren
    obtain ⟨funcMeta, hmeta, hvars⟩ := Option.bind_eq_some_iff.mp hchildren
    exact ⟨funcMeta, funcs_isBody hread hmeta, generateVars_eq (hindex f.2) hvars⟩

/-- The two loops of the unit. -/
theorem generateSimulatedDwarf_eq (h : generateSimulatedDwarf bs sort fuel addrTr di ranges translated = some sim) :
    (∀ l ∈ sim.lines, ∃ f ∈ untranslated addrTr translated, generateSequence di f = some l) ∧
    (∀ sub ∈ sim.subprograms, ∃ f ∈ untranslated addrTr translated,
      generateSubprogram bs sort fuel addrTr di ranges f = some sub) ∧
    sim.lines.length = (untranslated addrTr translated).length ∧
    sim.subprograms.length = (untranslated addrTr translated).length := by
  obtain ⟨lines, hlines, h⟩ := Option.bind_eq_some_iff.mp h
  obtain ⟨subprograms, hsubprograms, h⟩ := Option.bind_eq_some_iff.mp h
  cases h
  have hmem : ∀ {α β : Type} {g : α → Option β} {xs : List α} {ys : List β}, xs.mapM g = some ys →
      (∀ y ∈ ys, ∃ x ∈ xs, g x = some y) ∧ ys.length = xs.length := by
    intro α β g xs ys hys
    have hmap := Fallible.mapM_eq_some.mp hys
    refine ⟨fun y hy => ?_, ?_⟩
    · have : some y ∈ xs.map g := hmap ▸ List.mem_map_of_mem hy
      exact List.mem_map.mp this
    · have := congrArg List.length hmap
      rwa [List.length_map, List.length_map, eq_comm] at this
  exact ⟨(hmem hlines).1, (hmem hsubprograms).1, (hmem hlines).2, (hmem hsubprograms).2⟩

/-- A symbol is that of the object file exactly where no function is imported. -/
theorem resolveSymbol_eq_iff {s : Nat} : resolveSymbol s = functionName (m.funcIndex s) ↔ m.importedFuncs = [] := by
  constructor
  · intro h
    have hindex : s = m.funcIndex s := Obj.functionName_injective h
    rw [Module.funcIndex] at hindex
    exact List.eq_nil_of_length_eq_zero (by omega)
  · intro h
    rw [Module.funcIndex, h, List.length_nil, Nat.zero_add]
    rfl

/-- **Names in the debug information.** The subprograms and the symbols are right exactly when no function is imported,
or the debug information is of no function at all. -/
theorem namesRight_iff (hread : readDebuginfo sections = some di)
    (h : generateSimulatedDwarf bs sort fuel addrTr di ranges translated = some sim) :
    NamesRight m sections di ranges cloned sim ↔
      m.importedFuncs = [] ∨ (cloned = [] ∧ ∀ i < addrTr.map.length, i ∈ translated) := by
  obtain ⟨hlines, hsubs, hlinesLength, hsubsLength⟩ := generateSimulatedDwarf_eq h
  constructor
  · intro hright
    by_contra hnot
    rw [not_or, not_and_or] at hnot
    obtain ⟨himports, hrefers⟩ := hnot
    have hnone : ∀ s, s ∉ cloned ++ sim.symbols :=
      fun s hs => himports (resolveSymbol_eq_iff.mp (hright.symbols s hs))
    rcases hrefers with hcloned | htranslated
    · obtain ⟨s, hs⟩ := List.exists_mem_of_ne_nil cloned hcloned
      exact hnone s (List.mem_append_left _ hs)
    · push Not at htranslated
      obtain ⟨i, hi, hmem⟩ := htranslated
      have hentry : (addrTr.map[i], i) ∈ untranslated addrTr translated := by
        refine List.mem_filter.mpr ⟨?_, decide_eq_true hmem⟩
        rw [List.mem_zipIdx_iff_getElem?]
        exact List.getElem?_eq_getElem hi
      have hpos : 0 < sim.lines.length := hlinesLength ▸ List.length_pos_of_mem hentry
      obtain ⟨l, hl⟩ := List.exists_mem_of_length_pos hpos
      exact hnone l.symbol (List.mem_append_right _ (List.mem_append_left _ (List.mem_map_of_mem hl)))
  · rintro (himports | ⟨hcloned, htranslated⟩)
    · refine ⟨fun sub hsub => ?_, fun s _ => resolveSymbol_eq_iff.mpr himports⟩
      obtain ⟨f, -, hf⟩ := hsubs sub hsub
      exact generateSubprogram_describes hread himports hf
    · have hnone : untranslated addrTr translated = [] := by
        refine List.filter_eq_nil_iff.mpr fun f hf => ?_
        rw [List.mem_zipIdx_iff_getElem?] at hf
        have hlt := (List.getElem?_eq_some_iff.mp hf).1
        simpa using htranslated f.2 hlt
      have hlines : sim.lines = [] := List.eq_nil_of_length_eq_zero (by rw [hlinesLength, hnone]; rfl)
      have hsubs : sim.subprograms = [] := List.eq_nil_of_length_eq_zero (by rw [hsubsLength, hnone]; rfl)
      refine ⟨fun sub hsub => ?_, fun s hs => ?_⟩
      · rw [hsubs] at hsub
        cases hsub
      · rw [hcloned, Simulated.symbols, hlines, hsubs] at hs
        cases hs

end

/-! ## An imported function -/

/-- A module whose name section names two functions, of which the first may be imported. -/
def namedSections : List WasmSection :=
  [.type [[.i32]], .function [0], .code 100 [[(1, .i64)]], .name (some [.function [(0, "log"), (1, "run")]])]

/-- What is read of it. -/
def namedInfo : DebugInfoData where
  nameSection := some ⟨none, readMap [(0, "log"), (1, "run")], ∅⟩
  wasmFile := ⟨100, [⟨[.i32], [(1, .i64)]⟩]⟩

/-- One function of eight bytes, from the source position 3 of the code section on. -/
def namedFunction : FunctionAddressMap where
  instructions := [⟨103, 0, 8⟩]
  startSrcloc := 102
  endSrcloc := 106
  bodyOffset := 0
  bodyLen := 8

/-- Its address map. -/
def namedTransform : AddressTransform where
  map := [⟨0, 8, 2, 6, [⟨0, 3⟩]⟩]
  func := [(2, ⟨2, 6, 0, ⟨[(2, [0])], [⟨2, 6, 0, 8, [⟨3, 0, 8⟩]⟩]⟩⟩)]

theorem new_named : AddressTransform.new [namedFunction] 100 = some namedTransform := by rfl

/-- The simulated unit. -/
def namedSimulated : Simulated where
  lines := [⟨0, [(0, 103)], 7⟩]
  subprograms := [⟨0, 0, 8, "log", 103, []⟩]

theorem read_namedSections : readDebuginfo namedSections = some namedInfo := rfl

theorem generate_named :
    generateSimulatedDwarf .last .stable 10 namedTransform namedInfo [] [] = some namedSimulated := by
  rfl

theorem namesRight_named : NamesRight (Module.new : Module Unit) namedSections namedInfo [] [] namedSimulated :=
  (namesRight_iff read_namedSections generate_named).mpr (.inl rfl)

/-- With an import the subprogram has the name of the import, and the symbol is not that of the function. -/
theorem not_namesRight_imported :
    readDebuginfo namedSections = some namedInfo ∧
      generateSimulatedDwarf .last .stable 10 namedTransform namedInfo [] [] = some namedSimulated ∧
      ¬ NamesRight { (Module.new : Module Unit) with importedFuncs := [("env", "log")] } namedSections namedInfo []
        [] namedSimulated := by
  refine ⟨read_namedSections, generate_named, fun h => ?_⟩
  have hname := (h.subprograms _ List.mem_cons_self).name
  exact absurd hname (by decide)

end Wasmtime.Debug.Simulate
