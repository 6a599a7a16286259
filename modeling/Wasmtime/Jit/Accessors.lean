import Wasmtime.Environ.VmOffsets
import Wasmtime.Runtime.Initialize

/-!
# Indexed accessors of `VMOffsets`

Which entry of the `VMContext` each call site asks `VMOffsets` for: model of the sites in
`FuncEnvironment` (`wasmtime-environ/src/func_environ.rs`, and `lightbeam/src/backend.rs` through
its `ModuleContext`), in `Compiler::compile` (`wasmtime-jit/src/compiler.rs`) and in `Instance`
(`wasmtime-runtime/src/instance.rs`).

* An `Access` is the array and the index. The accessors of a field of an entry
  (`vmctx_vmmemory_definition_base` and its like) go through the accessor of the entry, where the
  assert is.
* Each source function is the list of the accesses it makes, in order, with the source's own split
  into imported and defined indices. Sites after an error that ends an instantiation are listed
  too.
* What the validator promises of a module and of a function body (`Validated`, `CompileOp.Valid`)
  is that the indices they name exist.

Results:
* `allInRange_split`: both branches of a site that splits an index are in range.
* `Life.accesses_inRange_iff`: every access of a module's life is in range exactly when debug information is
  off or the module has a memory.
-/

namespace Wasmtime.Jit.Accessors

open Wasmtime.Environ Wasmtime.Runtime

/-- The arrays of a `VMContext` with an indexed accessor. -/
inductive Accessor where
  | vmsharedSignatureId | vmfunctionImport | vmtableImport | vmmemoryImport | vmglobalImport
  | vmtableDefinition | vmmemoryDefinition | vmglobalDefinition | builtinFunction
  deriving DecidableEq, Repr

/-- A call of an accessor with an index. -/
structure Access where
  accessor : Accessor
  index : Nat
  deriving DecidableEq, Repr

/-- The count an accessor's index is asserted against. -/
def count (o : VMOffsets) : Accessor → Nat
  | .vmsharedSignatureId => o.numSignatureIds
  | .vmfunctionImport => o.numImportedFunctions
  | .vmtableImport => o.numImportedTables
  | .vmmemoryImport => o.numImportedMemories
  | .vmglobalImport => o.numImportedGlobals
  | .vmtableDefinition => o.numDefinedTables
  | .vmmemoryDefinition => o.numDefinedMemories
  | .vmglobalDefinition => o.numDefinedGlobals
  | .builtinFunction => builtinFunctionsTotalNumber

/-- The index is below the count, so that the assert does not fire. -/
def Access.InRange (o : VMOffsets) (a : Access) : Prop := a.index < count o a.accessor

section Sites

variable {Sig : Type} (m : Module Sig)

/-! ## `FuncEnvironment` for Cranelift -/

/-- The split every site makes: the accesses for a defined index, or those for an imported one. -/
def split (definedIndex : Option Nat) (defined : Nat → List Access) (imported : List Access) :
    List Access :=
  match definedIndex with
  | some d => defined d
  | none => imported

/-- `make_table`. -/
def makeTable (index : Nat) : List Access :=
  split (m.definedTableIndex index) (fun d => [⟨.vmtableDefinition, d⟩, ⟨.vmtableDefinition, d⟩])
    [⟨.vmtableImport, index⟩]

/-- `make_heap`. -/
def makeHeap (index : Nat) : List Access :=
  split (m.definedMemoryIndex index) (fun d => [⟨.vmmemoryDefinition, d⟩, ⟨.vmmemoryDefinition, d⟩])
    [⟨.vmmemoryImport, index⟩]

/-- `make_global`. -/
def makeGlobal (index : Nat) : List Access :=
  split (m.definedGlobalIndex index) (fun d => [⟨.vmglobalDefinition, d⟩]) [⟨.vmglobalImport, index⟩]

/-- `translate_call_indirect`: the caller's signature id. -/
def translateCallIndirect (sigIndex : Nat) : List Access := [⟨.vmsharedSignatureId, sigIndex⟩]

/-- `translate_call`: nothing for a defined callee, the body and the `vmctx` of an imported one. -/
def translateCall (callee : Nat) : List Access :=
  if m.isImportedFunction callee then [⟨.vmfunctionImport, callee⟩, ⟨.vmfunctionImport, callee⟩] else []

/-- `get_memory_grow_func`: the index to pass and the builtin; `none` is a failed `unwrap`. -/
def getMemoryGrowFunc (index : Nat) : Option (Nat × Nat) :=
  if m.isImportedMemory index then some (index, 1)
  else (m.definedMemoryIndex index).map fun d => (d, 0)

/-- `get_memory_size_func`. -/
def getMemorySizeFunc (index : Nat) : Option (Nat × Nat) :=
  if m.isImportedMemory index then some (index, 3)
  else (m.definedMemoryIndex index).map fun d => (d, 2)

/-- `translate_memory_grow` and `translate_memory_size`: the address of the builtin. -/
def translateMemoryCall (func : Option (Nat × Nat)) : List Access :=
  func.elim [] fun p => [⟨.builtinFunction, p.2⟩]

/-- What a translator asks of the environment while it compiles a function body: Cranelift's
callbacks, then the operators of Lightbeam that name an entity. -/
inductive CompileOp where
  | makeTable (index : Nat)
  | makeHeap (index : Nat)
  | makeGlobal (index : Nat)
  | translateCallIndirect (tableIndex sigIndex : Nat)
  | translateCall (callee : Nat)
  | translateMemoryGrow (index : Nat)
  | translateMemorySize (index : Nat)
  /-- A load or a store: memory 0. -/
  | lightbeamMemory
  /-- `get_global` or `set_global`. -/
  | lightbeamGlobal (index : Nat)
  /-- `call_indirect`: table 0. -/
  | lightbeamCallIndirect (typeId : Nat)
  /-- A direct call, which reaches `call_direct_imported` when the callee is not defined. -/
  | lightbeamCall (index : Nat)

/-- The accesses of an operation of a translator. -/
def CompileOp.accesses : CompileOp → List Access
  | .makeTable index => Accessors.makeTable m index
  | .makeHeap index => Accessors.makeHeap m index
  | .makeGlobal index => Accessors.makeGlobal m index
  | .translateCallIndirect _ sigIndex => Accessors.translateCallIndirect sigIndex
  | .translateCall callee => Accessors.translateCall m callee
  | .translateMemoryGrow index => translateMemoryCall (getMemoryGrowFunc m index)
  | .translateMemorySize index => translateMemoryCall (getMemorySizeFunc m index)
  | .lightbeamMemory =>
    split (m.definedMemoryIndex 0) (fun d => [⟨.vmmemoryDefinition, d⟩]) [⟨.vmmemoryImport, 0⟩]
  | .lightbeamGlobal index =>
    split (m.definedGlobalIndex index) (fun d => [⟨.vmglobalDefinition, d⟩]) [⟨.vmglobalImport, index⟩]
  | .lightbeamCallIndirect typeId =>
    split (m.definedTableIndex 0) (fun d => [⟨.vmtableDefinition, d⟩]) [⟨.vmtableImport, 0⟩] ++
      [⟨.vmsharedSignatureId, typeId⟩]
  | .lightbeamCall index =>
    split (m.definedFuncIndex index) (fun _ => [])
      [⟨.vmfunctionImport, index⟩, ⟨.vmfunctionImport, index⟩]

/-- What the validator promises of an operation: the entities it names exist. -/
def CompileOp.Valid : CompileOp → Prop
  | .makeTable index => index < m.tablePlans.length
  | .makeHeap index => index < m.memoryPlans.length
  | .makeGlobal index => index < m.globals.length
  | .translateCallIndirect tableIndex sigIndex =>
    tableIndex < m.tablePlans.length ∧ sigIndex < m.signatures.length
  | .translateCall callee => callee < m.functions.length
  | .translateMemoryGrow index => index < m.memoryPlans.length
  | .translateMemorySize index => index < m.memoryPlans.length
  | .lightbeamMemory => 0 < m.memoryPlans.length
  | .lightbeamGlobal index => index < m.globals.length
  | .lightbeamCallIndirect typeId => 0 < m.tablePlans.length ∧ typeId < m.signatures.length
  | .lightbeamCall index => index < m.functions.length

/-! ## `Compiler::compile` -/

/-- `ModuleVmctxInfo`: the offset of the first memory's base, when there is debug information. -/
def moduleVmctxInfo (debugData : Bool) : List Access :=
  if debugData then [⟨.vmmemoryDefinition, 0⟩] else []

/-- `Compiler::compile`: the function bodies, then the `ModuleVmctxInfo`. -/
def compile (bodies : List (List CompileOp)) (debugData : Bool) : List Access :=
  bodies.flatMap (·.flatMap (·.accesses m)) ++ moduleVmctxInfo debugData

/-! ## `Instance` -/

/-- `lookup_by_declaration`. -/
def lookupByDeclaration : Export → List Access
  | .function index => split (m.definedFuncIndex index.toNat) (fun _ => []) [⟨.vmfunctionImport, index.toNat⟩]
  | .table index =>
    split (m.definedTableIndex index.toNat) (fun d => [⟨.vmtableDefinition, d⟩])
      [⟨.vmtableImport, index.toNat⟩]
  | .memory index =>
    split (m.definedMemoryIndex index.toNat) (fun d => [⟨.vmmemoryDefinition, d⟩])
      [⟨.vmmemoryImport, index.toNat⟩]
  | .global index =>
    split (m.definedGlobalIndex index.toNat) (fun d => [⟨.vmglobalDefinition, d⟩])
      [⟨.vmglobalImport, index.toNat⟩]

/-- The global read by `get_table_init_start`, `get_memory_init_start` and `initialize_globals`. -/
def readGlobal (index : Nat) : List Access :=
  split (m.definedGlobalIndex index) (fun d => [⟨.vmglobalDefinition, d⟩]) [⟨.vmglobalImport, index⟩]

/-- `get_table_init_start` and `get_memory_init_start`. -/
def initStart (base : Option UInt32) : List Access := base.elim [] fun g => readGlobal m g.toNat

/-- `get_table_slice`: a defined table is not found through the offsets. -/
def getTableSlice (index : Nat) : List Access :=
  split (m.definedTableIndex index) (fun _ => []) [⟨.vmtableImport, index⟩]

/-- `get_memory_slice`, in this instance; the memory of a foreign instance is `Instance::memory`
there (`RuntimeOp.memory`). -/
def getMemorySlice (index : Nat) : List Access :=
  split (m.definedMemoryIndex index) (fun d => [⟨.vmmemoryDefinition, d⟩]) [⟨.vmmemoryImport, index⟩]

/-- One element in `initialize_tables`. -/
def initializeElement (func : Nat) : List Access :=
  split (m.definedFuncIndex func) (fun _ => []) [⟨.vmfunctionImport, func⟩] ++
    (m.functions[func]?).elim [] fun sig => [⟨.vmsharedSignatureId, sig.toNat⟩]

/-- `check_table_init_bounds` and `initialize_tables`, for one segment. -/
def tableSegment (init : TableElements) : List Access :=
  initStart m init.base ++ getTableSlice m init.tableIndex.toNat ++
    init.elements.flatMap fun f => initializeElement m f.toNat

/-- `check_memory_init_bounds` and `initialize_memories`, for one segment. -/
def dataSegment (init : DataInitializer) : List Access :=
  initStart m init.base ++ getMemorySlice m init.memoryIndex.toNat

/-- One global in `initialize_globals`. -/
def initializeGlobal (index : Nat) (global : Global) : List Access :=
  (m.definedGlobalIndex index).elim [] (fun d => [⟨.vmglobalDefinition, d⟩]) ++
    match global.initializer with
    | .getGlobal x => readGlobal m x.toNat
    | _ => []

/-- `initialize_globals`. -/
def initializeGlobals : List Access :=
  (m.globals.zipIdx.drop m.importedGlobals.length).flatMap fun p => initializeGlobal m p.2 p.1

/-- `invoke_function`. -/
def invokeFunction (index : Nat) : List Access :=
  split (m.definedFuncIndex index) (fun _ => []) [⟨.vmfunctionImport, index⟩]

/-- `invoke_start_function`: the start function, or an exported `_start` or `main`. Whether the
signature of an exported one lets it be called is left open. -/
def invokeStartFunction : List Access :=
  match m.startFunc, m.exports.lookup "_start", m.exports.lookup "main" with
  | some index, _, _ => invokeFunction m index.toNat
  | none, some (.function index), _ => invokeFunction m index.toNat
  | none, none, some (.function index) => invokeFunction m index.toNat
  | _, _, _ => []

/-- `InstanceHandle::new`. -/
def newInstance (data : List DataInitializer) : List Access :=
  m.tableElements.flatMap (tableSegment m) ++ data.flatMap (dataSegment m) ++ initializeGlobals m ++
    m.exports.flatMap (fun p => lookupByDeclaration m p.2) ++ invokeStartFunction m

/-- What reaches an instance later. -/
inductive RuntimeOp where
  /-- `lookup` and `lookup_by_declaration`, of an export of the module. -/
  | lookup (e : Export)
  /-- The compiled `memory.grow` of a memory. -/
  | memoryGrow (index : Nat)
  /-- The compiled `memory.size` of a memory. -/
  | memorySize (index : Nat)
  /-- `InstanceHandle::memory_grow`, from the host or for an importing instance. -/
  | hostMemoryGrow (definedIndex : Nat)
  /-- `InstanceHandle::table_grow`. -/
  | hostTableGrow (definedIndex : Nat)
  /-- `Instance::memory` with an index from `Instance::memory_index`, for an importing instance. -/
  | memory (definedIndex : Nat)

/-- `Instance::memory_grow`: the memory is looked up first, and is missing past the last one. -/
def memoryGrow (definedIndex : Nat) : List Access :=
  if definedIndex < m.memoryPlans.length - m.importedMemories.length then
    [⟨.vmmemoryDefinition, definedIndex⟩]
  else []

/-- `Instance::table_grow`. -/
def tableGrow (definedIndex : Nat) : List Access :=
  if definedIndex < m.tablePlans.length - m.importedTables.length then
    [⟨.vmtableDefinition, definedIndex⟩]
  else []

/-- The libcall compiled code makes: `wasmtime_memory32_grow`, `wasmtime_imported_memory32_grow`,
`wasmtime_memory32_size` or `wasmtime_imported_memory32_size`, by the builtin's number. -/
def libcall : Option (Nat × Nat) → List Access
  | some (index, 0) => memoryGrow m index
  | some (index, 1) => [⟨.vmmemoryImport, index⟩]
  | some (index, 3) => [⟨.vmmemoryImport, index⟩]
  | _ => []

/-- The accesses of an operation on an instance. -/
def RuntimeOp.accesses : RuntimeOp → List Access
  | .lookup e => lookupByDeclaration m e
  | .memoryGrow index => libcall m (getMemoryGrowFunc m index)
  | .memorySize index => libcall m (getMemorySizeFunc m index)
  | .hostMemoryGrow definedIndex => Accessors.memoryGrow m definedIndex
  | .hostTableGrow definedIndex => tableGrow m definedIndex
  | .memory definedIndex =>
    -- `memory_index` asserts that the instance has the memory.
    if definedIndex < m.memoryPlans.length - m.importedMemories.length then
      [⟨.vmmemoryDefinition, definedIndex⟩]
    else []

/-- What is promised of an operation on an instance: exports are the module's own. -/
def RuntimeOp.Valid : RuntimeOp → Prop
  | .lookup e => ∃ name, (name, e) ∈ m.exports
  | _ => True

end Sites

/-! ## The life of a module -/

section Life

variable {Sig : Type}

/-- A data segment names a memory and, as its base, a global that exist. -/
structure HasData (m : Module Sig) (init : DataInitializer) : Prop where
  memory : init.memoryIndex.toNat < m.memoryPlans.length
  base : ∀ index, init.base = some index → index.toNat < m.globals.length

/-- What validation promises of a translated module: every index it names exists. -/
structure Validated (m : Module Sig) (tunables : Tunables) : Prop extends m.WellFormed tunables where
  globalInit : ∀ g ∈ m.globals, ∀ x, g.initializer = .getGlobal x → x.toNat < m.globals.length

/-- What happens to a module: it is compiled, with or without debug information, instantiated, and
its instance used. -/
structure Life (m : Module Sig) where
  bodies : List (List CompileOp)
  debugData : Bool
  data : List DataInitializer
  ops : List RuntimeOp
  bodies_valid : ∀ body ∈ bodies, ∀ op ∈ body, op.Valid m
  data_valid : ∀ init ∈ data, HasData m init
  ops_valid : ∀ op ∈ ops, op.Valid m

/-- Every access of a life. -/
def Life.accesses {m : Module Sig} (l : Life m) : List Access :=
  compile m l.bodies l.debugData ++ newInstance m l.data ++ l.ops.flatMap (·.accesses m)

/-- The offsets of a module. -/
def offsets (pointerSize : Nat) (m : Module Sig) : VMOffsets where
  pointerSize := pointerSize
  numSignatureIds := m.signatures.length
  numImportedFunctions := m.importedFuncs.length
  numImportedTables := m.importedTables.length
  numImportedMemories := m.importedMemories.length
  numImportedGlobals := m.importedGlobals.length
  numDefinedTables := m.tablePlans.length
  numDefinedMemories := m.memoryPlans.length
  numDefinedGlobals := m.globals.length

variable {m : Module Sig} {tunables : Tunables} {p : Nat}

/-- A list of accesses is in range. -/
def AllInRange (p : Nat) (m : Module Sig) (as : List Access) : Prop :=
  ∀ a ∈ as, a.InRange (offsets p m)

theorem allInRange_append {as bs : List Access} :
    AllInRange p m (as ++ bs) ↔ AllInRange p m as ∧ AllInRange p m bs :=
  List.forall_mem_append

theorem allInRange_flatMap {α : Type} {xs : List α} {f : α → List Access} :
    AllInRange p m (xs.flatMap f) ↔ ∀ x ∈ xs, AllInRange p m (f x) := by
  constructor
  · intro h x hx a ha
    exact h a (List.mem_flatMap.mpr ⟨x, hx, ha⟩)
  · intro h a ha
    obtain ⟨x, hx, ha⟩ := List.mem_flatMap.mp ha
    exact h x hx a ha

theorem allInRange_nil : AllInRange p m [] := by
  simp [AllInRange]

theorem allInRange_singleton {a : Access} : AllInRange p m [a] ↔ a.InRange (offsets p m) := by
  simp [AllInRange]

theorem allInRange_pair {a : Access} : AllInRange p m [a, a] ↔ a.InRange (offsets p m) := by
  simp [AllInRange]

/-- A site that splits an index that exists: the defined index is below the number of all entities,
the imported one below the number of imports. -/
theorem allInRange_split {imported index n : Nat} {defined : Nat → List Access}
    {ofImport : List Access} (hlt : index < n)
    (hd : ∀ d, d < n → AllInRange p m (defined d))
    (hi : index < imported → AllInRange p m ofImport) :
    AllInRange p m (split (Module.definedIndex imported index) defined ofImport) := by
  cases h : Module.definedIndex imported index with
  | some d =>
    have := Module.definedIndex_eq_some.mp h
    exact hd d (by omega)
  | none => exact hi (Module.definedIndex_eq_none.mp h)

theorem inRange_table {index : Nat} (h : index < m.tablePlans.length) :
    AllInRange p m (makeTable m index) :=
  allInRange_split h (fun _ hd => allInRange_pair.mpr hd)
    fun hi => allInRange_singleton.mpr hi

theorem inRange_heap {index : Nat} (h : index < m.memoryPlans.length) :
    AllInRange p m (makeHeap m index) :=
  allInRange_split h (fun _ hd => allInRange_pair.mpr hd)
    fun hi => allInRange_singleton.mpr hi

theorem inRange_global {index : Nat} (h : index < m.globals.length) :
    AllInRange p m (makeGlobal m index) :=
  allInRange_split h (fun _ hd => allInRange_singleton.mpr hd) fun hi => allInRange_singleton.mpr hi

/-- A function that is not defined is imported, and only imported functions are looked up. -/
theorem inRange_func {index : Nat} {as : List Access}
    (h : index < m.importedFuncs.length → AllInRange p m as) :
    AllInRange p m (split (m.definedFuncIndex index) (fun _ => []) as) := by
  cases hd : m.definedFuncIndex index with
  | some d => exact allInRange_nil
  | none => exact h (Module.definedIndex_eq_none.mp hd)

theorem inRange_memoryCall {func : Option (Nat × Nat)} (h : ∀ q, func = some q → q.2 < 4) :
    AllInRange p m (translateMemoryCall func) := by
  cases func with
  | none => exact allInRange_nil
  | some q => exact allInRange_singleton.mpr (h q rfl)

theorem CompileOp.inRange {op : CompileOp} (h : op.Valid m) : AllInRange p m (op.accesses m) := by
  cases op with
  | makeTable index => exact inRange_table h
  | makeHeap index => exact inRange_heap h
  | makeGlobal index => exact inRange_global h
  | translateCallIndirect tableIndex sigIndex => exact allInRange_singleton.mpr h.2
  | translateCall callee =>
    simp only [accesses, Accessors.translateCall, Module.isImportedFunction, decide_eq_true_eq]
    split
    · next hi => exact allInRange_pair.mpr hi
    · exact allInRange_nil
  | translateMemoryGrow index =>
    refine inRange_memoryCall fun q hq => ?_
    unfold getMemoryGrowFunc at hq
    split at hq
    · cases hq
      simp
    · obtain ⟨d, -, rfl⟩ := Option.map_eq_some_iff.mp hq
      simp
  | translateMemorySize index =>
    refine inRange_memoryCall fun q hq => ?_
    unfold getMemorySizeFunc at hq
    split at hq
    · cases hq
      simp
    · obtain ⟨d, -, rfl⟩ := Option.map_eq_some_iff.mp hq
      simp
  | lightbeamMemory =>
    exact allInRange_split h (fun _ hd => allInRange_singleton.mpr hd)
      fun hi => allInRange_singleton.mpr hi
  | lightbeamGlobal index => exact inRange_global h
  | lightbeamCallIndirect typeId =>
    refine allInRange_append.mpr ⟨?_, allInRange_singleton.mpr h.2⟩
    exact allInRange_split h.1 (fun _ hd => allInRange_singleton.mpr hd)
      fun hi => allInRange_singleton.mpr hi
  | lightbeamCall index => exact inRange_func fun hi => allInRange_pair.mpr hi

theorem inRange_lookup {e : Export} (h : m.HasExport e) :
    AllInRange p m (lookupByDeclaration m e) := by
  cases e with
  | function index => exact inRange_func fun hi => allInRange_singleton.mpr hi
  | table index =>
    exact allInRange_split h (fun _ hd => allInRange_singleton.mpr hd)
      fun hi => allInRange_singleton.mpr hi
  | memory index =>
    exact allInRange_split h (fun _ hd => allInRange_singleton.mpr hd)
      fun hi => allInRange_singleton.mpr hi
  | global index => exact inRange_global h

theorem inRange_initStart {base : Option UInt32}
    (h : ∀ index, base = some index → index.toNat < m.globals.length) :
    AllInRange p m (initStart m base) := by
  cases base with
  | none => exact allInRange_nil
  | some g => exact inRange_global (h g rfl)

theorem inRange_tableSegment (hm : Validated m tunables) {init : TableElements}
    (h : m.HasElements init) : AllInRange p m (tableSegment m init) := by
  refine allInRange_append.mpr ⟨allInRange_append.mpr ⟨inRange_initStart h.base, ?_⟩, ?_⟩
  · exact allInRange_split h.table (fun _ _ => allInRange_nil) fun hi => allInRange_singleton.mpr hi
  · refine allInRange_flatMap.mpr fun f hf => allInRange_append.mpr ⟨?_, ?_⟩
    · exact inRange_func fun hi => allInRange_singleton.mpr hi
    · -- The element's signature is one of the module's.
      have hlt := h.elements f hf
      rw [List.getElem?_eq_getElem hlt]
      exact allInRange_singleton.mpr (hm.signatureIndex _ (List.getElem_mem hlt))

theorem inRange_dataSegment {init : DataInitializer} (h : HasData m init) :
    AllInRange p m (dataSegment m init) := by
  refine allInRange_append.mpr ⟨inRange_initStart h.base, ?_⟩
  exact allInRange_split h.memory (fun _ hd => allInRange_singleton.mpr hd)
    fun hi => allInRange_singleton.mpr hi

theorem inRange_initializeGlobals (hm : Validated m tunables) :
    AllInRange p m (initializeGlobals m) := by
  refine allInRange_flatMap.mpr fun q hq => ?_
  obtain ⟨g, index⟩ := q
  have hget := List.mem_zipIdx_iff_getElem?.mp (List.mem_of_mem_drop hq)
  have hlt : index < m.globals.length := (List.getElem?_eq_some_iff.mp hget).1
  refine allInRange_append.mpr ⟨?_, ?_⟩
  · cases h : m.definedGlobalIndex index with
    | none => exact allInRange_nil
    | some d =>
      have := Module.definedIndex_eq_some.mp h
      exact allInRange_singleton.mpr (show d < m.globals.length by omega)
  · split
    · next x hx => exact inRange_global (hm.globalInit g (List.mem_of_getElem? hget) x hx)
    · exact allInRange_nil

theorem inRange_invokeFunction (index : Nat) : AllInRange p m (invokeFunction m index) :=
  inRange_func fun hi => allInRange_singleton.mpr hi

theorem inRange_invokeStartFunction : AllInRange p m (invokeStartFunction m) := by
  unfold invokeStartFunction
  cases m.startFunc with
  | some index => exact inRange_invokeFunction _
  | none =>
    rcases m.exports.lookup "_start" with _ | first
    · rcases m.exports.lookup "main" with _ | second
      · exact allInRange_nil
      · cases second with
        | function index => exact inRange_invokeFunction _
        | _ => exact allInRange_nil
    · cases first with
      | function index => exact inRange_invokeFunction _
      | _ => exact allInRange_nil

theorem inRange_newInstance (hm : Validated m tunables) {data : List DataInitializer}
    (hdata : ∀ init ∈ data, HasData m init) : AllInRange p m (newInstance m data) := by
  refine allInRange_append.mpr ⟨allInRange_append.mpr ⟨allInRange_append.mpr
    ⟨allInRange_append.mpr ⟨?_, ?_⟩, inRange_initializeGlobals hm⟩, ?_⟩, ?_⟩
  · exact allInRange_flatMap.mpr fun init hi => inRange_tableSegment hm (hm.hasElements init hi)
  · exact allInRange_flatMap.mpr fun init hi => inRange_dataSegment (hdata init hi)
  · exact allInRange_flatMap.mpr fun q hq => inRange_lookup (hm.hasExport q hq)
  · exact inRange_invokeStartFunction

theorem inRange_memoryGrow (d : Nat) : AllInRange p m (memoryGrow m d) := by
  unfold memoryGrow
  split
  · next h => exact allInRange_singleton.mpr (show d < m.memoryPlans.length by omega)
  · exact allInRange_nil

theorem RuntimeOp.inRange (hm : Validated m tunables) {op : RuntimeOp} (h : op.Valid m) :
    AllInRange p m (op.accesses m) := by
  cases op with
  | lookup e =>
    obtain ⟨name, he⟩ := h
    exact inRange_lookup (hm.hasExport _ he)
  | memoryGrow index =>
    simp only [accesses, getMemoryGrowFunc, Module.isImportedMemory, decide_eq_true_eq]
    split
    · next hi => exact allInRange_singleton.mpr hi
    · cases m.definedMemoryIndex index with
      | none => exact allInRange_nil
      | some d => exact inRange_memoryGrow d
  | memorySize index =>
    simp only [accesses, getMemorySizeFunc, Module.isImportedMemory, decide_eq_true_eq]
    split
    · next hi => exact allInRange_singleton.mpr hi
    · cases m.definedMemoryIndex index with
      | none => exact allInRange_nil
      | some d => exact allInRange_nil
  | hostMemoryGrow d => exact inRange_memoryGrow d
  | hostTableGrow d =>
    simp only [accesses, tableGrow]
    split
    · next h => exact allInRange_singleton.mpr (show d < m.tablePlans.length by omega)
    · exact allInRange_nil
  | memory d => exact inRange_memoryGrow d

theorem inRange_moduleVmctxInfo_iff {debugData : Bool} :
    AllInRange p m (moduleVmctxInfo debugData) ↔ debugData = false ∨ m.memoryPlans ≠ [] := by
  unfold moduleVmctxInfo
  cases debugData with
  | false => simp [allInRange_nil]
  | true =>
    rw [if_pos rfl, allInRange_singleton]
    simp [Access.InRange, count, offsets, List.length_pos_iff]

/-- **Accessors are called in range exactly when debug information is off or there is a memory.** -/
theorem Life.accesses_inRange_iff (hm : Validated m tunables) (l : Life m) {o : VMOffsets}
    (ho : VMOffsets.new p m = some o) :
    (∀ a ∈ l.accesses, a.InRange o) ↔ l.debugData = false ∨ m.memoryPlans ≠ [] := by
  obtain rfl : o = offsets p m := VMOffsets.new_eq_some ho
  rw [← inRange_moduleVmctxInfo_iff (p := p)]
  constructor
  · intro h
    exact (allInRange_append.mp (allInRange_append.mp (allInRange_append.mp h).1).1).2
  · intro h
    refine allInRange_append.mpr ⟨allInRange_append.mpr ⟨allInRange_append.mpr ⟨?_, h⟩, ?_⟩, ?_⟩
    · exact allInRange_flatMap.mpr fun body hb => allInRange_flatMap.mpr fun op hop =>
        CompileOp.inRange (l.bodies_valid body hb op hop)
    · exact inRange_newInstance hm l.data_valid
    · exact allInRange_flatMap.mpr fun op hop => RuntimeOp.inRange hm (l.ops_valid op hop)

end Life

/-- A module with an imported and a defined function, table, memory and global. The segment of its
imported table starts at the imported global. -/
def mixed : Module Unit :=
  { (Module.new : Module Unit) with
    signatures := [()]
    importedFuncs := [("env", "f")]
    functions := [0, 0]
    importedTables := [("env", "t")]
    tablePlans := [.forTable ⟨.func, 1, none⟩ .default, .forTable ⟨.func, 2, none⟩ .default]
    importedMemories := [("env", "m")]
    memoryPlans := [MemoryType.onePage.plan .default, MemoryType.onePage.plan .default]
    importedGlobals := [("env", "g")]
    globals := [⟨0x7f, false, .imported⟩, ⟨0x7f, true, .getGlobal 0⟩]
    exports := [("f", .function 0), ("t", .table 1), ("m", .memory 0), ("g", .global 1)]
    startFunc := some 1
    tableElements := [⟨0, some 0, 0, [0], function_lt⟩,
      ⟨1, none, 1, [1], short_lt (Nat.le_add_left 1 2)⟩] }

theorem validated_mixed : Validated mixed .default where
  funcs := by decide
  tables := by decide
  memories := by decide
  globals := ⟨by decide, by decide⟩
  signatureIndex :=
    List.forall_mem_cons.mpr ⟨by decide, List.forall_mem_singleton.mpr (by decide)⟩
  tableLimits := by simp [mixed, TablePlan.forTable, Table.Limited]
  memoryType := fun p hp => ⟨MemoryType.onePage, by simpa [mixed] using hp⟩
  hasExport := by simp [mixed, Module.HasExport]
  hasElements := by
    simp only [mixed, List.forall_mem_cons]
    exact ⟨⟨by decide, by simp, List.forall_mem_singleton.mpr (by decide)⟩,
      ⟨by decide, by simp, List.forall_mem_singleton.mpr (by decide)⟩, by simp⟩
  signatures_lt := by decide
  functions_lt := by decide
  tablePlans_lt := by decide
  memoryPlans_lt := by decide
  globals_lt := by decide
  globalInit := by simp [mixed]

/-- Two functions that use all of it, a data segment for each memory, and operations on the instance. -/
def mixedLife (debugData : Bool) : Life mixed where
  bodies := [[.makeHeap 0, .makeHeap 1, .makeTable 0, .makeTable 1, .makeGlobal 0, .makeGlobal 1,
      .translateCallIndirect 1 0, .translateCall 0, .translateMemoryGrow 0, .translateMemorySize 1],
    [.lightbeamMemory, .lightbeamGlobal 1, .lightbeamCallIndirect 0, .lightbeamCall 0]]
  debugData := debugData
  data := [⟨0, some 0, 0, [7], short_lt (Nat.le_add_left 1 2)⟩,
    ⟨1, none, 8, [9], short_lt (Nat.le_add_left 1 2)⟩]
  ops := [.lookup (.memory 0), .lookup (.global 1), .memoryGrow 0, .memoryGrow 1, .memorySize 0,
    .hostMemoryGrow 0, .hostTableGrow 0, .memory 0]
  bodies_valid := by simp [mixed, CompileOp.Valid]
  data_valid := by
    simp only [List.forall_mem_cons]
    exact ⟨⟨by decide, by simp [mixed]⟩, ⟨by decide, by simp⟩, by simp⟩
  ops_valid := by simp [mixed, RuntimeOp.Valid]

/-- With debug information, all 42 accesses of this life are in range. -/
theorem Life.inRange_mixedLife :
    Validated mixed .default ∧
      VMOffsets.new 8 mixed = some ⟨8, 1, 1, 1, 1, 1, 2, 2, 2⟩ ∧ (mixedLife true).accesses.length = 42 ∧
      ∀ a ∈ (mixedLife true).accesses, a.InRange ⟨8, 1, 1, 1, 1, 1, 2, 2, 2⟩ := by
  have ho : VMOffsets.new 8 mixed = some ⟨8, 1, 1, 1, 1, 1, 2, 2, 2⟩ := rfl
  exact ⟨validated_mixed, ho, by decide,
    (Life.accesses_inRange_iff validated_mixed (mixedLife true) ho).mpr (Or.inr (by simp [mixed]))⟩

/-- The module `(module)` is compiled with debug information, and nothing else happens to it. -/
def emptyLife : Life (Module.new : Module Unit) where
  bodies := []
  debugData := true
  data := []
  ops := []
  bodies_valid := by simp
  data_valid := by simp
  ops_valid := by simp

/-- With debug information `vmctx_vmmemory_definition_base(0)` is called on a module that has no
memory. -/
theorem not_inRange_emptyLife :
    Validated (Module.new : Module Unit) .default ∧
      VMOffsets.new 8 (Module.new : Module Unit) = some ⟨8, 0, 0, 0, 0, 0, 0, 0, 0⟩ ∧
      ¬ ∀ a ∈ emptyLife.accesses, a.InRange ⟨8, 0, 0, 0, 0, 0, 0, 0, 0⟩ := by
  refine ⟨⟨wellFormed_new, by simp [Module.new]⟩, rfl, fun h => ?_⟩
  exact Nat.lt_irrefl 0 (h ⟨.vmmemoryDefinition, 0⟩ (by decide))

end Wasmtime.Jit.Accessors
