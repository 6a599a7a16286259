import Wasmtime.Lib.LastWrite
import Wasmtime.Runtime.Layout

/-!
# `InstanceHandle::new`

Model of instantiation (`wasmtime-runtime/src/instance.rs`): `InstanceHandle::new` from the tables and
memories of the new instance to its start function, with `check_table_init_bounds`,
`check_memory_init_bounds`, `initialize_tables`, `initialize_memories`, `initialize_globals` and the
global export map.

* The heap is the list of the instances made so far; a `VMContext` pointer is a position. The new
  instance is written to the end before anything is checked, and stays there when a check fails.
* `addr` is where each `VMContext` lies. An imported table or memory is found as the source does: by
  `table_index` or `memory_index` of the instance that the import names, on the address of the
  definition.
* A byte slice over a memory is as long as `current_length` in the `VMContext` says.
* `usize` sums wrap, as in a release build. A boxed slice has fewer than `2^63` entries.
* The start function is the host's answer: a heap and, if it trapped, the message.

Results are in `Wasmtime.Jit.Instantiate`.
-/

namespace Wasmtime.Runtime

open Environ

/-- `VMCallerCheckedAnyfunc`. -/
structure VMCallerCheckedAnyfunc where
  funcPtr : Nat
  typeIndex : UInt32
  vmctx : Nat
  deriving DecidableEq, Repr

/-- An instance in memory, with the arrays of its `VMContext` that instantiation reads. -/
structure Placed (Sig : Type) extends Instance Sig VMCallerCheckedAnyfunc where
  signatureIds : List UInt32
  /-- `VMGlobalDefinition`: sixteen bytes. -/
  globals : List (BitVec 128)

/-- The instances made so far. -/
abbrev Heap (Sig : Type) := List (Placed Sig)

/-- `DataInitializer`. -/
structure DataInitializer where
  memoryIndex : UInt32
  base : Option UInt32
  offset : UInt64
  data : List UInt8
  data_lt : data.length < 2 ^ 63

/-- A segment of a few entries is short enough for a slice. -/
theorem short_lt {α : Type} {l : List α} (h : l.length ≤ 3) : l.length < 2 ^ 63 :=
  Nat.lt_of_le_of_lt h (by decide)

/-- So is one of the first function. -/
theorem function_lt : ([0] : List UInt32).length < 2 ^ 63 := short_lt (Nat.le_add_left 1 2)

/-- `InstantiationError`. -/
inductive InstantiationError where
  | resource
  | link (message : String)
  | startTrap (message : String)
  deriving DecidableEq, Repr

variable {Sig : Type}

namespace Heap

/-! ## Where an initializer points -/

/-- `as_u32` of a `VMGlobalDefinition`: its first four bytes. -/
def asU32 (g : BitVec 128) : UInt32 := UInt32.ofNat g.toNat

/-- The value of a global of instance `me`, defined or imported. -/
def globalAt (h : Heap Sig) (me index : Nat) : Option (BitVec 128) :=
  h[me]?.bind fun i => (i.lookupGlobal me index).bind fun p =>
    h[p.vmctx]?.bind fun j => j.globals[p.index]?

/-- `get_table_init_start` and `get_memory_init_start`. -/
def initStart (h : Heap Sig) (me : Nat) (offset : UInt64) (base : Option UInt32) : Option UInt64 :=
  match base with
  | none => some offset
  | some index => (h.globalAt me index.toNat).map fun g => offset + (asU32 g).toUInt64

/-- `slice.get_mut(start..start + len)` is there. -/
def inRange (start : UInt64) (len sliceLen : Nat) : Bool :=
  let stop := start + UInt64.ofNat len
  decide (start ≤ stop) && decide (stop.toNat ≤ sliceLen)

/-- The definition an import names, found again through the instance it names: `table_index` and
`memory_index` on the address of the definition. -/
def foreignIndex (addr : Nat → BitVec 64) (h : Heap Sig) (begin : VMOffsets → Option Nat)
    (entry : VMOffsets → Nat → Option Nat) (size : Nat → Nat) (len : Placed Sig → Nat)
    (imp : VMImport) : Option DefinitionPtr :=
  h[imp.vmctx]?.bind fun foreign =>
    (h[imp.source.vmctx]?.bind fun owner => entry owner.offsets imp.source.index).bind fun e =>
      (indexOfDefinition (begin foreign.offsets) (size foreign.offsets.pointerSize) (len foreign)
        (addr imp.vmctx) (addr imp.source.vmctx + BitVec.ofNat 64 e)).map fun k => ⟨imp.vmctx, k⟩

/-- The table of an import. -/
def foreignTable (addr : Nat → BitVec 64) (h : Heap Sig) (imp : VMImport) : Option DefinitionPtr :=
  h.foreignIndex addr VMOffsets.vmctxTablesBegin VMOffsets.vmctxVmtableDefinition
    sizeOfTableDefinition (fun i => i.tables.length) imp

/-- The memory of an import. -/
def foreignMemory (addr : Nat → BitVec 64) (h : Heap Sig) (imp : VMImport) : Option DefinitionPtr :=
  h.foreignIndex addr VMOffsets.vmctxMemoriesBegin VMOffsets.vmctxVmmemoryDefinition
    sizeOfMemoryDefinition (fun i => i.memories.length) imp

/-- The table of an index of instance `me`. -/
def tablePtr (addr : Nat → BitVec 64) (h : Heap Sig) (me index : Nat) : Option DefinitionPtr :=
  h[me]?.bind fun i =>
    match i.module.definedTableIndex index with
    | some defIndex => some ⟨me, defIndex⟩
    | none => i.vmctx.imports.tables[index]?.bind (h.foreignTable addr)

/-- The memory of an index of instance `me`. -/
def memoryPtr (addr : Nat → BitVec 64) (h : Heap Sig) (me index : Nat) : Option DefinitionPtr :=
  h[me]?.bind fun i =>
    match i.module.definedMemoryIndex index with
    | some defIndex => some ⟨me, defIndex⟩
    | none => i.vmctx.imports.memories[index]?.bind (h.foreignMemory addr)

/-- `get_table_slice`: which table, and how many elements it has. -/
def getTableSlice (addr : Nat → BitVec 64) (h : Heap Sig) (me index : Nat) :
    Option (DefinitionPtr × Nat) :=
  (h.tablePtr addr me index).bind fun p => h[p.vmctx]?.bind fun i =>
    i.tables[p.index]?.map fun t => (p, t.vec.length)

/-- `get_memory_slice`: which memory, and how long `VMContext` says it is. -/
def getMemorySlice (addr : Nat → BitVec 64) (h : Heap Sig) (me index : Nat) :
    Option (DefinitionPtr × Nat) :=
  (h.memoryPtr addr me index).bind fun p => h[p.vmctx]?.bind fun i =>
    i.vmctx.memories[p.index]?.map fun d => (p, d.currentLength)

/-! ## Checking -/

/-- What a check ends with. -/
inductive Checked where
  | ok
  | err (e : InstantiationError)
  | panic
  deriving DecidableEq, Repr

/-- One round of a check: the start and the slice, or a panic on the way to them. -/
def checkRound (start : Option UInt64) (slice : Option (DefinitionPtr × Nat)) (len : Nat)
    (message : String) (rest : Checked) : Checked :=
  match start, slice with
  | some start, some (_, sliceLen) =>
    if inRange start len sliceLen then rest else .err (.link message)
  | _, _ => .panic

/-- The loop of `check_table_init_bounds`. -/
def checkTables (addr : Nat → BitVec 64) (h : Heap Sig) (me : Nat) : List TableElements → Checked
  | [] => .ok
  | init :: rest =>
    checkRound (h.initStart me init.offset init.base)
      (h.getTableSlice addr me init.tableIndex.toNat) init.elements.length
      "elements segment does not fit" (checkTables addr h me rest)

/-- `check_table_init_bounds`. -/
def checkTableInitBounds (addr : Nat → BitVec 64) (h : Heap Sig) (me : Nat) : Checked :=
  h[me]?.elim .panic fun i => h.checkTables addr me i.module.tableElements

/-- `check_memory_init_bounds`. -/
def checkMemoryInitBounds (addr : Nat → BitVec 64) (h : Heap Sig) (me : Nat) :
    List DataInitializer → Checked
  | [] => .ok
  | init :: rest =>
    checkRound (h.initStart me init.offset init.base)
      (h.getMemorySlice addr me init.memoryIndex.toNat) init.data.length
      "data segment does not fit" (checkMemoryInitBounds addr h me rest)

/-! ## Applying -/

/-- A store to a table; `none` is an index out of bounds. -/
def setElement (h : Heap Sig) (p : DefinitionPtr) (at' : Nat) (f : VMCallerCheckedAnyfunc) :
    Option (Heap Sig) :=
  h[p.vmctx]?.bind fun i => i.tables[p.index]?.bind fun t =>
    if at' < t.vec.length then
      some (h.set p.vmctx { i with toInstance := i.storeElement p.index t at' (some f) })
    else none

/-- A store to a memory; `none` is an index out of bounds. -/
def setByte (h : Heap Sig) (p : DefinitionPtr) (at' : Nat) (byte : UInt8) : Option (Heap Sig) :=
  h[p.vmctx]?.bind fun i => i.memories[p.index]?.bind fun m =>
    if at' < m.current.toNat * wasmPageSize then
      some (h.set p.vmctx { i with toInstance := i.storeByte p.index m at' byte })
    else none

/-- `signature_id`. -/
def signatureId (i : Placed Sig) (index : Nat) : Option UInt32 :=
  if index < i.offsets.numSignatureIds then i.signatureIds[index]? else none

/-- The entry for a function of instance `me`, defined or imported: its code, the shared id of its
signature and its `VMContext`. -/
def anyfunc (h : Heap Sig) (me : Nat) (f : UInt32) : Option VMCallerCheckedAnyfunc :=
  h[me]?.bind fun i => i.module.functions[f.toNat]?.bind fun calleeSig =>
    (i.lookupFunction me f.toNat).bind fun (calleePtr, calleeVmctx) =>
      (signatureId i calleeSig.toNat).map fun typeIndex => ⟨calleePtr, typeIndex, calleeVmctx⟩

/-- The inner loop of `initialize_tables`, from an element of the table on. -/
def writeElements (me : Nat) (p : DefinitionPtr) : Heap Sig → Nat → List UInt32 → Option (Heap Sig)
  | h, _, [] => some h
  | h, at', f :: rest =>
    (h.anyfunc me f).bind fun e => (h.setElement p at' e).bind fun h =>
      writeElements me p h (at' + 1) rest

/-- `copy_from_slice`, from a byte of the memory on. -/
def writeBytes (p : DefinitionPtr) : Heap Sig → Nat → List UInt8 → Option (Heap Sig)
  | h, _, [] => some h
  | h, at', byte :: rest => (h.setByte p at' byte).bind fun h => writeBytes p h (at' + 1) rest

/-- One round of `initialize_tables`. -/
def initializeTable (addr : Nat → BitVec 64) (h : Heap Sig) (me : Nat) (init : TableElements) :
    Option (Heap Sig) :=
  (h.initStart me init.offset init.base).bind fun start =>
    (h.getTableSlice addr me init.tableIndex.toNat).bind fun (p, len) =>
      if inRange start init.elements.length len then
        writeElements me p h start.toNat init.elements
      else none

/-- The loop of `initialize_tables`. -/
def initializeTablesLoop (addr : Nat → BitVec 64) (me : Nat) :
    Heap Sig → List TableElements → Option (Heap Sig)
  | h, [] => some h
  | h, init :: rest => (h.initializeTable addr me init).bind fun h =>
    initializeTablesLoop addr me h rest

/-- `initialize_tables`; `none` is an index out of bounds. -/
def initializeTables (addr : Nat → BitVec 64) (h : Heap Sig) (me : Nat) : Option (Heap Sig) :=
  h[me]?.bind fun i => initializeTablesLoop addr me h i.module.tableElements

/-- One round of `initialize_memories`. -/
def initializeMemory (addr : Nat → BitVec 64) (h : Heap Sig) (me : Nat) (init : DataInitializer) :
    Option (Heap Sig) :=
  (h.initStart me init.offset init.base).bind fun start =>
    (h.getMemorySlice addr me init.memoryIndex.toNat).bind fun (p, len) =>
      if inRange start init.data.length len then writeBytes p h start.toNat init.data else none

/-- `initialize_memories`; `none` is an index out of bounds. -/
def initializeMemories (addr : Nat → BitVec 64) (me : Nat) :
    Heap Sig → List DataInitializer → Option (Heap Sig)
  | h, [] => some h
  | h, init :: rest => (h.initializeMemory addr me init).bind fun h =>
    initializeMemories addr me h rest

/-- A store to the first `width` bits of a global. -/
def storeLow (old : BitVec 128) (width value : Nat) : BitVec 128 :=
  BitVec.ofNat 128 (old.toNat / 2 ^ width * 2 ^ width + value % 2 ^ width)

/-- The value an initializer gives to a global that held `old`; `none` is the panic on an import. -/
def globalInit (h : Heap Sig) (me : Nat) (old : BitVec 128) : GlobalInit → Option (BitVec 128)
  | .i32Const x => some (storeLow old 32 x.toNat)
  | .i64Const x => some (storeLow old 64 x.toNat)
  | .f32Const x => some (storeLow old 32 x.toNat)
  | .f64Const x => some (storeLow old 64 x.toNat)
  | .v128Const x => some x
  | .getGlobal index => h.globalAt me index.toNat
  | .imported => none

/-- The loop of `initialize_globals`, over the defined globals. -/
def initializeGlobals (me : Nat) : Heap Sig → Nat → List Global → Option (Heap Sig)
  | h, _, [] => some h
  | h, k, global :: rest =>
    h[me]?.bind fun i => i.globals[k]?.bind fun old =>
      (h.globalInit me old global.initializer).bind fun value =>
        initializeGlobals me (h.set me { i with globals := i.globals.set k value }) (k + 1) rest

end Heap

/-! ## The whole of `InstanceHandle::new` -/

/-- What instantiation changes: the instances, and the global export map. -/
structure Store (Sig : Type) where
  heap : Heap Sig
  /-- `global_exports`: `None` for a name that more than one instance exports. -/
  globalExports : List (String × Option (ExportValue Sig))

/-- What `InstanceHandle::new` ends with. -/
inductive NewResult (Sig : Type) where
  | ok (vmctx : Nat) (store : Store Sig)
  | err (e : InstantiationError) (store : Store Sig)
  | panic

/-- One entry of the global export map. -/
def collectExport (exports : List (String × Option (ExportValue Sig))) (field : String)
    (e : ExportValue Sig) : List (String × Option (ExportValue Sig)) :=
  if exports.any (·.1 == field) then exports.map fun p => if p.1 == field then (field, none) else p
  else exports ++ [(field, some e)]

/-- The loop that collects the exports for the global export map. -/
def collectExports (i : Placed Sig) (me : Nat) : List (String × Environ.Export) →
    List (String × Option (ExportValue Sig)) → Option (List (String × Option (ExportValue Sig)))
  | [], exports => some exports
  | (field, decl) :: rest, exports =>
    (i.lookupByDeclaration me decl).bind fun e =>
      collectExports i me rest (collectExport exports field e)

namespace InstanceHandle

/-- What the host and the caller give to `InstanceHandle::new`, besides the module. -/
structure Given (Sig : Type) where
  host : Host
  os : Nat → Os
  alloc : Nat → Nat
  /-- Whether the mapping of the instance itself succeeds. -/
  mapped : Bool
  /-- Where the `VMContext`s lie. -/
  addr : Nat → BitVec 64
  finishedFunctions : List Nat
  imports : Imports
  dataInitializers : List DataInitializer
  vmsharedSignatures : List UInt32
  /-- What the start function does to the heap, and the message if it traps. -/
  start : Nat → Heap Sig → Heap Sig × Option String

/-- The instance as it is written to memory, before its initializers. -/
def allocate (g : Given Sig) (module : Module Sig) : Outcome (Placed Sig) :=
  (Instance.new g.host g.os g.alloc module g.finishedFunctions g.imports).bind fun i =>
    if g.mapped then
      .ok { toInstance := i
            signatureIds := g.vmsharedSignatures
            globals := List.replicate (module.globals.length - module.importedGlobals.length) 0 }
    else .err ()

/-- The end of `InstanceHandle::new`: the export map and the start function. -/
def finish (g : Given Sig) (module : Module Sig) (me : Nat) (s : Store Sig) : NewResult Sig :=
  match s.heap[me]?.bind fun i => collectExports i me module.exports s.globalExports with
  | none => .panic
  | some globalExports =>
    match g.start me s.heap with
    | (heap, none) => .ok me ⟨heap, globalExports⟩
    | (heap, some message) => .err (.startTrap message) ⟨heap, globalExports⟩

/-- The initializers, once they have been checked. -/
def apply (g : Given Sig) (module : Module Sig) (me : Nat) (s : Store Sig) : NewResult Sig :=
  match (s.heap.initializeTables g.addr me).bind fun heap =>
      (Heap.initializeMemories g.addr me heap g.dataInitializers).bind fun heap =>
        Heap.initializeGlobals me heap 0 (module.globals.drop module.importedGlobals.length) with
  | none => .panic
  | some heap => finish g module me ⟨heap, s.globalExports⟩

/-- `InstanceHandle::new`. -/
def new (g : Given Sig) (module : Module Sig) (s : Store Sig) : NewResult Sig :=
  match allocate g module with
  | .panic _ => .panic
  | .err _ => .err .resource s
  | .ok i =>
    let me := s.heap.length
    let s : Store Sig := { s with heap := s.heap ++ [i] }
    -- Check initializer bounds before initializing anything.
    match s.heap.checkTableInitBounds g.addr me with
    | .panic => .panic
    | .err e => .err e s
    | .ok =>
      match s.heap.checkMemoryInitBounds g.addr me g.dataInitializers with
      | .panic => .panic
      | .err e => .err e s
      | .ok => apply g module me s

/-- The store an instantiation that does not panic leaves. -/
def leaves : NewResult Sig → Option (Store Sig)
  | .ok _ s => some s
  | .err _ s => some s
  | .panic => none

/-- The initializers have run: the heap they leave, with what the start function makes of it. -/
def Applied (g : Given Sig) (module : Module Sig) (i : Placed Sig) (s s' : Store Sig) : Prop :=
  ∃ h₁ h₂ h₃, (s.heap ++ [i]).initializeTables g.addr s.heap.length = some h₁ ∧
    Heap.initializeMemories g.addr s.heap.length h₁ g.dataInitializers = some h₂ ∧
    Heap.initializeGlobals s.heap.length h₂ 0
      (module.globals.drop module.importedGlobals.length) = some h₃ ∧
    s'.heap = (g.start s.heap.length h₃).1

/-- What the end of `InstanceHandle::new` leaves. -/
theorem leaves_finish {g : Given Sig} {module : Module Sig} {me : Nat} {s s' : Store Sig}
    (h : leaves (finish g module me s) = some s') : s'.heap = (g.start me s.heap).1 := by
  unfold finish at h
  split at h
  · exact absurd h (by simp [leaves])
  · split at h
    · rename_i heap heq
      obtain rfl := Option.some.inj h
      rw [heq]
    · rename_i heap message heq
      obtain rfl := Option.some.inj h
      rw [heq]

/-- What `InstanceHandle::new` can leave: the store as it was, an instance whose initializers do not
fit, or an instance whose initializers have run. -/
theorem leaves_new {g : Given Sig} {module : Module Sig} {s s' : Store Sig}
    (h : leaves (new g module s) = some s') :
    s' = s ∨ ∃ i, allocate g module = .ok i ∧
      (s'.heap = s.heap ++ [i] ∨ Applied g module i s s') := by
  unfold new at h
  cases ha : allocate g module with
  | panic p =>
    rw [ha] at h
    exact absurd h (by simp [leaves])
  | err =>
    rw [ha] at h
    exact Or.inl (Option.some.inj h).symm
  | ok i =>
    rw [ha] at h
    simp only at h
    refine Or.inr ⟨i, rfl, ?_⟩
    split at h
    · exact absurd h (by simp [leaves])
    · obtain rfl := Option.some.inj h
      exact Or.inl rfl
    · split at h
      · exact absurd h (by simp [leaves])
      · obtain rfl := Option.some.inj h
        exact Or.inl rfl
      · unfold apply at h
        split at h
        · exact absurd h (by simp [leaves])
        · rename_i heap hinit
          obtain ⟨h₁, htables, hinit⟩ := Option.bind_eq_some_iff.mp hinit
          obtain ⟨h₂, hmemories, hglobals⟩ := Option.bind_eq_some_iff.mp hinit
          exact Or.inr ⟨h₁, h₂, heap, htables, hmemories, hglobals, leaves_finish h⟩

/-- What a successful `InstanceHandle::new` has done. -/
theorem new_ok {g : Given Sig} {module : Module Sig} {s s' : Store Sig} {me : Nat}
    (h : new g module s = .ok me s') :
    me = s.heap.length ∧ ∃ i, allocate g module = .ok i ∧ Applied g module i s s' := by
  unfold new at h
  cases ha : allocate g module with
  | panic p =>
    rw [ha] at h
    exact absurd h (by simp)
  | err =>
    rw [ha] at h
    exact absurd h (by simp)
  | ok i =>
    rw [ha] at h
    simp only at h
    split at h
    · exact absurd h (by simp)
    · exact absurd h (by simp)
    · split at h
      · exact absurd h (by simp)
      · exact absurd h (by simp)
      · unfold apply at h
        split at h
        · exact absurd h (by simp)
        · rename_i heap hinit
          obtain ⟨h₁, htables, hinit⟩ := Option.bind_eq_some_iff.mp hinit
          obtain ⟨h₂, hmemories, hglobals⟩ := Option.bind_eq_some_iff.mp hinit
          have hleft := leaves_finish (congrArg leaves h)
          refine ⟨?_, i, rfl, h₁, h₂, heap, htables, hmemories, hglobals, hleft⟩
          unfold finish at h
          split at h
          · exact absurd h (by simp)
          · split at h
            · exact (NewResult.ok.inj h).1.symm
            · exact absurd h (by simp)

/-- The initializers fit, and the start function does not trap. -/
structure Completes (g : Given Sig) (i : Placed Sig) (s : Store Sig) : Prop where
  tables : (s.heap ++ [i]).checkTableInitBounds g.addr s.heap.length = .ok
  memories : (s.heap ++ [i]).checkMemoryInitBounds g.addr s.heap.length g.dataInitializers = .ok
  start : ∀ h, (g.start s.heap.length h).2 = none

/-- Then nothing fails once the instance is written. -/
theorem new_ne_err {g : Given Sig} {module : Module Sig} {s s' : Store Sig} {i : Placed Sig}
    (ha : allocate g module = .ok i) (hc : Completes g i s) (e : InstantiationError) :
    new g module s ≠ .err e s' := by
  intro h
  unfold new at h
  rw [ha] at h
  simp only [hc.tables, hc.memories] at h
  unfold apply at h
  split at h
  · exact absurd h (by simp)
  · unfold finish at h
    split at h
    · exact absurd h (by simp)
    · split at h
      · exact absurd h (by simp)
      · rename_i heap message hstart
        exact absurd ((congrArg Prod.snd hstart).symm.trans (hc.start _)) (by simp)

/-- Where a link error comes from: no resources are missing, the start function has not run, and the
new instance is left behind. -/
theorem new_link {g : Given Sig} {module : Module Sig} {s s' : Store Sig} {message : String}
    (h : new g module s = .err (.link message) s') :
    ∃ i, allocate g module = .ok i ∧ s' = { s with heap := s.heap ++ [i] } := by
  unfold new at h
  cases ha : allocate g module with
  | panic p =>
    rw [ha] at h
    exact absurd h (by simp)
  | err =>
    rw [ha] at h
    exact absurd (NewResult.err.inj h).1 (by simp)
  | ok i =>
    rw [ha] at h
    simp only at h
    split at h
    · exact absurd h (by simp)
    · exact ⟨i, rfl, (NewResult.err.inj h).2.symm⟩
    · split at h
      · exact absurd h (by simp)
      · exact ⟨i, rfl, (NewResult.err.inj h).2.symm⟩
      · unfold apply at h
        split at h
        · exact absurd h (by simp)
        · unfold finish at h
          split at h
          · exact absurd h (by simp)
          · split at h
            · exact absurd h (by simp)
            · exact absurd (NewResult.err.inj h).1 (by simp)

end InstanceHandle

namespace Heap

/-! ## What the initializers leave alone -/

/-- A table without its contents. -/
def blankTable (t : Table VMCallerCheckedAnyfunc) : Table VMCallerCheckedAnyfunc :=
  { t with vec := t.vec.map fun _ => none }

/-- A memory without its contents. -/
def blankMemory (m : LinearMemory) : LinearMemory :=
  { m with mmap := { m.mmap with bytes := fun _ => 0 } }

/-- An instance without the contents of its tables and memories. -/
def blank (i : Placed Sig) : Placed Sig :=
  { i with toInstance := { i.toInstance with
      tables := i.tables.map blankTable
      memories := i.memories.map blankMemory } }

/-- The heaps differ in the contents of tables and memories only. -/
def Frame (h h' : Heap Sig) : Prop := h'.map blank = h.map blank

theorem Frame.refl (h : Heap Sig) : Frame h h := rfl

theorem Frame.trans {h h' h'' : Heap Sig} (a : Frame h h') (b : Frame h' h'') : Frame h h'' :=
  Eq.trans b a

theorem Frame.length {h h' : Heap Sig} (f : Frame h h') : h'.length = h.length := by
  have := congrArg List.length f
  rwa [List.length_map, List.length_map] at this

theorem Frame.getElem? {h h' : Heap Sig} (f : Frame h h') (k : Nat) :
    h'[k]?.map blank = h[k]?.map blank := by
  rw [← List.getElem?_map, ← List.getElem?_map, f]

/-- What is read off an instance without the contents is the same in both heaps. -/
theorem Frame.bind_eq {h h' : Heap Sig} (f : Frame h h') {α : Type} {g : Placed Sig → Option α}
    (hg : ∀ i, g (blank i) = g i) (k : Nat) : h'[k]?.bind g = h[k]?.bind g := by
  have hfun : g ∘ blank = g := funext hg
  rw [← hfun, ← Option.bind_map, ← Option.bind_map, f.getElem? k]

theorem Frame.globalAt {h h' : Heap Sig} (f : Frame h h') (me index : Nat) :
    h'.globalAt me index = h.globalAt me index := by
  have hread : (fun p : DefinitionPtr => h'[p.vmctx]?.bind fun j => j.globals[p.index]?) =
      fun p => h[p.vmctx]?.bind fun j => j.globals[p.index]? :=
    funext fun p => f.bind_eq (g := fun j => j.globals[p.index]?) (fun _ => rfl) _
  unfold Heap.globalAt
  rw [hread]
  exact f.bind_eq (fun _ => rfl) me

theorem Frame.initStart {h h' : Heap Sig} (f : Frame h h') (me : Nat) (offset : UInt64)
    (base : Option UInt32) : h'.initStart me offset base = h.initStart me offset base := by
  cases base with
  | none => rfl
  | some index =>
    unfold Heap.initStart
    simp only [f.globalAt]

theorem Frame.foreignIndex {h h' : Heap Sig} (f : Frame h h') {addr : Nat → BitVec 64}
    {begin : VMOffsets → Option Nat} {entry : VMOffsets → Nat → Option Nat} {size : Nat → Nat}
    {len : Placed Sig → Nat} (hlen : ∀ i, len (blank i) = len i) (imp : VMImport) :
    h'.foreignIndex addr begin entry size len imp = h.foreignIndex addr begin entry size len imp := by
  have hentry : (h'[imp.source.vmctx]?.bind fun owner => entry owner.offsets imp.source.index) =
      h[imp.source.vmctx]?.bind fun owner => entry owner.offsets imp.source.index :=
    f.bind_eq (g := fun owner => entry owner.offsets imp.source.index) (fun _ => rfl) _
  unfold Heap.foreignIndex
  rw [hentry]
  refine f.bind_eq (fun i => ?_) _
  simp only [hlen]
  rfl

theorem Frame.tablePtr {h h' : Heap Sig} (f : Frame h h') (addr : Nat → BitVec 64)
    (me index : Nat) : h'.tablePtr addr me index = h.tablePtr addr me index := by
  have hforeign : h'.foreignTable addr = h.foreignTable addr :=
    funext fun imp => f.foreignIndex (fun i => List.length_map _) imp
  unfold Heap.tablePtr
  rw [hforeign]
  exact f.bind_eq (fun _ => rfl) me

theorem Frame.memoryPtr {h h' : Heap Sig} (f : Frame h h') (addr : Nat → BitVec 64)
    (me index : Nat) : h'.memoryPtr addr me index = h.memoryPtr addr me index := by
  have hforeign : h'.foreignMemory addr = h.foreignMemory addr :=
    funext fun imp => f.foreignIndex (fun i => List.length_map _) imp
  unfold Heap.memoryPtr
  rw [hforeign]
  exact f.bind_eq (fun _ => rfl) me

theorem Frame.getTableSlice {h h' : Heap Sig} (f : Frame h h') (addr : Nat → BitVec 64)
    (me index : Nat) : h'.getTableSlice addr me index = h.getTableSlice addr me index := by
  unfold Heap.getTableSlice
  rw [f.tablePtr]
  refine congrArg _ (funext fun p => f.bind_eq (fun i => ?_) _)
  show (i.tables.map blankTable)[p.index]?.map _ = i.tables[p.index]?.map _
  rw [List.getElem?_map, Option.map_map]
  refine congrFun (congrArg _ (funext fun t => ?_)) _
  simp [blankTable]

theorem Frame.getMemorySlice {h h' : Heap Sig} (f : Frame h h') (addr : Nat → BitVec 64)
    (me index : Nat) : h'.getMemorySlice addr me index = h.getMemorySlice addr me index := by
  unfold Heap.getMemorySlice
  rw [f.memoryPtr]
  exact congrArg _ (funext fun p => f.bind_eq (fun _ => rfl) _)

theorem Frame.anyfunc {h h' : Heap Sig} (f : Frame h h') (me : Nat) (func : UInt32) :
    h'.anyfunc me func = h.anyfunc me func :=
  f.bind_eq (fun _ => rfl) me

/-! ## What a store does -/

/-- What a slot of a table holds. -/
def elementAt (h : Heap Sig) (s : DefinitionPtr × Nat) : Option (Option VMCallerCheckedAnyfunc) :=
  h[s.1.vmctx]?.bind fun i => i.tables[s.1.index]?.bind fun t => t.vec[s.2]?

/-- What an accessible byte of a memory holds. -/
def byteAt (h : Heap Sig) (s : DefinitionPtr × Nat) : Option UInt8 :=
  h[s.1.vmctx]?.bind fun i => i.memories[s.1.index]?.bind fun m =>
    if s.2 < m.current.toNat * wasmPageSize then some (m.mmap.bytes s.2) else none

/-- The number of elements of a table. -/
def tableLen (h : Heap Sig) (p : DefinitionPtr) : Option Nat :=
  h[p.vmctx]?.bind fun i => i.tables[p.index]?.map fun t => t.vec.length

/-- The number of accessible bytes of a memory. -/
def memoryLen (h : Heap Sig) (p : DefinitionPtr) : Option Nat :=
  h[p.vmctx]?.bind fun i => i.memories[p.index]?.map fun m => m.current.toNat * wasmPageSize

theorem Frame.tableLen {h h' : Heap Sig} (f : Frame h h') (p : DefinitionPtr) :
    h'.tableLen p = h.tableLen p := by
  refine f.bind_eq (fun i => ?_) _
  show (i.tables.map blankTable)[p.index]?.map _ = i.tables[p.index]?.map _
  rw [List.getElem?_map, Option.map_map]
  refine congrFun (congrArg _ (funext fun t => ?_)) _
  simp [blankTable]

theorem Frame.memoryLen {h h' : Heap Sig} (f : Frame h h') (p : DefinitionPtr) :
    h'.memoryLen p = h.memoryLen p := by
  refine f.bind_eq (fun i => ?_) _
  show (i.memories.map blankMemory)[p.index]?.map _ = i.memories[p.index]?.map _
  rw [List.getElem?_map, Option.map_map]
  rfl

/-- Replacing an entry by one that looks the same from outside. -/
theorem map_set_self {α β : Type} {f : α → β} {l : List α} {k : Nat} {a b : α}
    (hk : l[k]? = some a) (hab : f b = f a) : (l.set k b).map f = l.map f := by
  refine List.ext_getElem? fun j => ?_
  rw [List.getElem?_map, List.getElem?_map]
  by_cases hj : k = j
  · subst hj
    obtain ⟨hlt, -⟩ := List.getElem?_eq_some_iff.mp hk
    rw [List.getElem?_set_self hlt, hk, Option.map_some, Option.map_some, hab]
  · rw [List.getElem?_set_ne hj]

/-- Reading through two levels after a store at the second. -/
theorem bind_set_set {α β γ : Type} {l : List α} (get : α → List β) {a a' : α} {k j : Nat} {b b' : β}
    (hk : l[k]? = some a) (hj : (get a)[j]? = some b) (ha : get a' = (get a).set j b')
    (g : β → Option γ) (k' j' : Nat) :
    ((l.set k a')[k']?.bind fun x => (get x)[j']?.bind g) =
      if k' = k ∧ j' = j then g b' else l[k']?.bind fun x => (get x)[j']?.bind g := by
  obtain ⟨hlt, rfl⟩ := List.getElem?_eq_some_iff.mp hk
  obtain ⟨hlt', rfl⟩ := List.getElem?_eq_some_iff.mp hj
  by_cases h1 : k' = k
  · subst h1
    rw [List.getElem?_set_self hlt, Option.bind_some, ha]
    by_cases h2 : j' = j
    · subst h2
      rw [List.getElem?_set_self hlt', Option.bind_some, if_pos ⟨rfl, rfl⟩]
    · rw [List.getElem?_set_ne (Ne.symm h2), if_neg (fun h => h2 h.2), List.getElem?_eq_getElem hlt,
        Option.bind_some]
  · rw [List.getElem?_set_ne (Ne.symm h1), if_neg (fun h => h1 h.1)]

/-- Reading through two levels after a store elsewhere. -/
theorem bind_set_same {α γ : Type} {l : List α} {a a' : α} {k : Nat} (hk : l[k]? = some a)
    {g : α → Option γ} (ha : g a' = g a) (k' : Nat) : (l.set k a')[k']?.bind g = l[k']?.bind g := by
  obtain ⟨hlt, rfl⟩ := List.getElem?_eq_some_iff.mp hk
  by_cases h1 : k' = k
  · subst h1
    rw [List.getElem?_set_self hlt, List.getElem?_eq_getElem hlt, Option.bind_some, Option.bind_some,
      ha]
  · rw [List.getElem?_set_ne (Ne.symm h1)]

/-- A store to a slot that exists. -/
theorem setElement_spec {h : Heap Sig} {p : DefinitionPtr} {at' n : Nat}
    (hn : h.tableLen p = some n) (hlt : at' < n) (f : VMCallerCheckedAnyfunc) :
    ∃ h', h.setElement p at' f = some h' ∧ Frame h h' ∧
      h'.elementAt = Function.update h.elementAt (p, at') (some (some f)) ∧
      h'.byteAt = h.byteAt := by
  obtain ⟨i, hi, hn⟩ := Option.bind_eq_some_iff.mp hn
  obtain ⟨t, ht, rfl⟩ := Option.map_eq_some_iff.mp hn
  have hset : h.setElement p at' f =
      some (h.set p.vmctx { i with toInstance := i.storeElement p.index t at' (some f) }) := by
    unfold setElement
    rw [hi, Option.bind_some, ht, Option.bind_some, if_pos hlt]
  refine ⟨_, hset, map_set_self hi ?_, funext fun s => ?_, funext fun s => ?_⟩
  · have htable : blankTable (t.set at' (some f)) = blankTable t := by
      simp [blankTable, Table.set]
    unfold blank
    simp only [Instance.storeElement]
    rw [map_set_self ht htable]
  · obtain ⟨q, j⟩ := s
    unfold elementAt
    rw [bind_set_set (fun x : Placed Sig => x.tables) hi ht rfl]
    by_cases hq : q = p
    · subst hq
      rw [if_pos ⟨rfl, rfl⟩]
      by_cases hj : j = at'
      · subst hj
        rw [Function.update_self]
        simp [Table.set, hlt]
      · rw [Function.update_of_ne (by simp [hj])]
        simp only [hi, Option.bind_some, ht]
        simp [Table.set, Ne.symm hj]
    · rw [if_neg, Function.update_of_ne (by simp [hq])]
      rintro ⟨h1, h2⟩
      exact hq (by cases q; cases p; simp_all)
  · unfold byteAt
    rw [bind_set_same hi]
    rfl

/-- The byte of a memory at an address, when it is in bounds. -/
def readByte (m : LinearMemory) (at' : Nat) : Option UInt8 :=
  if at' < m.current.toNat * wasmPageSize then some (m.mmap.bytes at') else none

theorem byteAt_eq (h : Heap Sig) (p : DefinitionPtr) (at' : Nat) : h.byteAt (p, at') =
    h[p.vmctx]?.bind fun i => i.memories[p.index]?.bind fun m => readByte m at' := rfl

theorem readByte_store_self {m : LinearMemory} {at' : Nat} (hlt : at' < m.current.toNat * wasmPageSize)
    (byte : UInt8) : readByte (m.store at' byte) at' = some byte := by
  have hcurrent : (m.store at' byte).current = m.current := rfl
  have hread : (m.store at' byte).mmap.bytes at' = byte := if_pos rfl
  unfold readByte
  rw [hcurrent, hread, if_pos hlt]

theorem readByte_store_of_ne {m : LinearMemory} {at' j : Nat} (hj : j ≠ at') (byte : UInt8) :
    readByte (m.store at' byte) j = readByte m j := by
  have hcurrent : (m.store at' byte).current = m.current := rfl
  have hread : (m.store at' byte).mmap.bytes j = m.mmap.bytes j := if_neg hj
  unfold readByte
  rw [hcurrent, hread]

/-- A store to a byte that exists. -/
theorem setByte_spec {h : Heap Sig} {p : DefinitionPtr} {at' n : Nat}
    (hn : h.memoryLen p = some n) (hlt : at' < n) (byte : UInt8) :
    ∃ h', h.setByte p at' byte = some h' ∧ Frame h h' ∧
      h'.byteAt = Function.update h.byteAt (p, at') (some byte) ∧ h'.elementAt = h.elementAt := by
  obtain ⟨i, hi, hn⟩ := Option.bind_eq_some_iff.mp hn
  obtain ⟨m, hm, rfl⟩ := Option.map_eq_some_iff.mp hn
  have hset : h.setByte p at' byte =
      some (h.set p.vmctx { i with toInstance := i.storeByte p.index m at' byte }) := by
    unfold setByte
    rw [hi, Option.bind_some, hm, Option.bind_some, if_pos hlt]
  refine ⟨_, hset, map_set_self hi ?_, funext fun s => ?_, funext fun s => ?_⟩
  · have hmemory : blankMemory (m.store at' byte) = blankMemory m := rfl
    unfold blank
    simp only [Instance.storeByte]
    rw [map_set_self hm hmemory]
  · obtain ⟨q, j⟩ := s
    rw [byteAt_eq, bind_set_set (fun x : Placed Sig => x.memories) hi hm rfl]
    by_cases hq : q = p
    · subst hq
      rw [if_pos ⟨rfl, rfl⟩]
      by_cases hj : j = at'
      · subst hj
        rw [Function.update_self]
        exact readByte_store_self hlt byte
      · rw [Function.update_of_ne (by simp [hj]), byteAt_eq, hi, Option.bind_some, hm, Option.bind_some]
        exact readByte_store_of_ne hj byte
    · rw [if_neg, Function.update_of_ne (by simp [hq]), byteAt_eq]
      rintro ⟨h1, h2⟩
      exact hq (by cases q; cases p; simp_all)
  · unfold elementAt
    rw [bind_set_same hi]
    rfl

/-- What a store to a slot does, when it does not panic. -/
theorem setElement_update {h h' : Heap Sig} {p : DefinitionPtr} {at' : Nat}
    {f : VMCallerCheckedAnyfunc} (hs : h.setElement p at' f = some h') :
    Frame h h' ∧ h'.elementAt = Function.update h.elementAt (p, at') (some (some f)) := by
  obtain ⟨i, hi, hs'⟩ := Option.bind_eq_some_iff.mp hs
  obtain ⟨t, ht, hs'⟩ := Option.bind_eq_some_iff.mp hs'
  obtain ⟨hlt, -⟩ := Option.ite_none_right_eq_some.mp hs'
  have hn : h.tableLen p = some t.vec.length := by
    unfold tableLen
    rw [hi, Option.bind_some, ht, Option.map_some]
  obtain ⟨h'', hs'', hframe, hel, -⟩ := setElement_spec hn hlt f
  obtain rfl := Option.some.inj (hs.symm.trans hs'')
  exact ⟨hframe, hel⟩

/-- A store to a memory leaves the tables alone. -/
theorem setByte_elementAt {h h' : Heap Sig} {p : DefinitionPtr} {at' : Nat} {byte : UInt8}
    (hs : h.setByte p at' byte = some h') : h'.elementAt = h.elementAt := by
  obtain ⟨i, hi, hs'⟩ := Option.bind_eq_some_iff.mp hs
  obtain ⟨m, hm, hs'⟩ := Option.bind_eq_some_iff.mp hs'
  obtain ⟨hlt, -⟩ := Option.ite_none_right_eq_some.mp hs'
  have hn : h.memoryLen p = some (m.current.toNat * wasmPageSize) := by
    unfold memoryLen
    rw [hi, Option.bind_some, hm, Option.map_some]
  obtain ⟨h'', hs'', -, -, hel⟩ := setByte_spec hn hlt byte
  obtain rfl := Option.some.inj (hs.symm.trans hs'')
  exact hel

/-! ## What a round does -/

theorem writeElements_frame {h h' : Heap Sig} {me : Nat} {p : DefinitionPtr} {fs : List UInt32}
    {at' : Nat} (hw : writeElements me p h at' fs = some h') : Frame h h' := by
  induction fs generalizing h at' with
  | nil =>
    obtain rfl := Option.some.inj hw
    exact .refl _
  | cons f fs ih =>
    obtain ⟨e, -, hw⟩ := Option.bind_eq_some_iff.mp hw
    obtain ⟨h₁, hset, hw⟩ := Option.bind_eq_some_iff.mp hw
    exact (setElement_update hset).1.trans (ih hw)

/-- A segment of an initializer: where it goes and what it writes. -/
structure Segment (α : Type) where
  target : DefinitionPtr
  start : Nat
  values : List α

/-- The writes of a list of values, from a cell on. -/
def cells {α : Type} (p : DefinitionPtr) : Nat → List α → List ((DefinitionPtr × Nat) × α)
  | _, [] => []
  | k, a :: rest => ((p, k), a) :: cells p (k + 1) rest

/-- The writes of a segment, in order. -/
def Segment.writes {α : Type} (s : Segment α) : List ((DefinitionPtr × Nat) × α) :=
  cells s.target s.start s.values

/-- A range that is there does not wrap. -/
theorem inRange_iff {start : UInt64} {len sliceLen : Nat} (hlen : len < 2 ^ 63) :
    inRange start len sliceLen = true ↔ start.toNat + len < 2 ^ 64 ∧ start.toNat + len ≤ sliceLen := by
  have hadd : (start + UInt64.ofNat len).toNat = (start.toNat + len) % 2 ^ 64 := by
    rw [UInt64.toNat_add, UInt64.toNat_ofNat_of_lt' (by unfold UInt64.size; omega)]
  have hlt := start.toNat_lt
  unfold inRange
  rw [Bool.and_eq_true, decide_eq_true_iff, decide_eq_true_iff, UInt64.le_iff_toNat_le, hadd]
  omega

section

open LastWrite

/-- The inner loop of `initialize_tables`, over functions that have entries and slots that exist. -/
theorem writeElements_spec {me : Nat} {p : DefinitionPtr} {n : Nat} (fs : List UInt32) :
    ∀ {h : Heap Sig} {es : List VMCallerCheckedAnyfunc} {at' : Nat},
      List.Forall₂ (fun f e => h.anyfunc me f = some e) fs es → h.tableLen p = some n →
      at' + fs.length ≤ n →
      ∃ h', writeElements me p h at' fs = some h' ∧ Frame h h' ∧
        h'.elementAt = replay h.elementAt ((cells p at' es).map fun w => (w.1, some (some w.2))) ∧
        h'.byteAt = h.byteAt := by
  induction fs with
  | nil =>
    intro h es at' hes _ _
    cases hes
    exact ⟨h, rfl, .refl h, rfl, rfl⟩
  | cons f fs ih =>
    intro h es at' hes hn hle
    rw [List.length_cons] at hle
    cases hes with
    | @cons _ e _ es he hes =>
      obtain ⟨h₁, hset, hframe, hel, hby⟩ := setElement_spec hn (by omega : at' < n) e
      have hes' : List.Forall₂ (fun f e => h₁.anyfunc me f = some e) fs es :=
        hes.imp fun f e hf => (hframe.anyfunc me f).trans hf
      obtain ⟨h₂, hrest, hframe', hel', hby'⟩ :=
        ih hes' ((hframe.tableLen p).trans hn) (by omega : at' + 1 + fs.length ≤ n)
      refine ⟨h₂, ?_, hframe.trans hframe', ?_, hby'.trans hby⟩
      · unfold writeElements
        rw [he, Option.bind_some, hset, Option.bind_some, hrest]
      · rw [hel', hel]
        rfl

/-- `copy_from_slice` over bytes that exist. -/
theorem writeBytes_spec {p : DefinitionPtr} {n : Nat} (bytes : List UInt8) :
    ∀ {h : Heap Sig} {at' : Nat}, h.memoryLen p = some n → at' + bytes.length ≤ n →
      ∃ h', writeBytes p h at' bytes = some h' ∧ Frame h h' ∧
        h'.byteAt = replay h.byteAt ((cells p at' bytes).map fun w => (w.1, some w.2)) ∧
        h'.elementAt = h.elementAt := by
  induction bytes with
  | nil =>
    intro h at' _ _
    exact ⟨h, rfl, .refl h, rfl, rfl⟩
  | cons byte bytes ih =>
    intro h at' hn hle
    rw [List.length_cons] at hle
    obtain ⟨h₁, hset, hframe, hby, hel⟩ := setByte_spec hn (by omega : at' < n) byte
    obtain ⟨h₂, hrest, hframe', hby', hel'⟩ :=
      ih ((hframe.memoryLen p).trans hn) (by omega : at' + 1 + bytes.length ≤ n)
    refine ⟨h₂, ?_, hframe.trans hframe', ?_, hel'.trans hel⟩
    · unfold writeBytes
      rw [hset, Option.bind_some, hrest]
    · rw [hby', hby]
      rfl

/-! ## What the loops do -/

/-- What an element segment of instance `me` comes to: the table it goes to, where it starts, and the
entries of the functions it names. It fits. -/
structure ElementSegment (addr : Nat → BitVec 64) (h : Heap Sig) (me : Nat) (init : TableElements)
    (seg : Segment VMCallerCheckedAnyfunc) : Prop where
  target : h.tablePtr addr me init.tableIndex.toNat = some seg.target
  start : ∃ start, h.initStart me init.offset init.base = some start ∧ seg.start = start.toNat
  values : List.Forall₂ (fun f e => h.anyfunc me f = some e) init.elements seg.values
  fits : ∃ n, h.tableLen seg.target = some n ∧ seg.start + init.elements.length < 2 ^ 64 ∧
    seg.start + init.elements.length ≤ n

/-- What a data segment of instance `me` comes to. It fits. -/
structure DataSegment (addr : Nat → BitVec 64) (h : Heap Sig) (me : Nat) (init : DataInitializer)
    (seg : Segment UInt8) : Prop where
  target : h.memoryPtr addr me init.memoryIndex.toNat = some seg.target
  start : ∃ start, h.initStart me init.offset init.base = some start ∧ seg.start = start.toNat
  values : seg.values = init.data
  fits : ∃ n, h.memoryLen seg.target = some n ∧ seg.start + init.data.length < 2 ^ 64 ∧
    seg.start + init.data.length ≤ n

/-- The `VMContext` copy of every memory is current. -/
def Current (h : Heap Sig) : Prop :=
  ∀ (k : Nat) i, h[k]? = some i → ∀ j : Nat,
    i.vmctx.memories[j]? = i.memories[j]?.map LinearMemory.vmmemory

theorem Frame.current {h h' : Heap Sig} (f : Frame h h') (hc : Current h) : Current h' := by
  intro k i' hi' j
  have hmap := f.getElem? k
  rw [hi', Option.map_some] at hmap
  obtain ⟨i, hi, hb⟩ := Option.map_eq_some_iff.mp hmap.symm
  have hvmctx : (blank i').vmctx = (blank i).vmctx := by rw [hb]
  have hmem : (blank i').memories = (blank i).memories := by rw [hb]
  have hdef : ∀ l : List LinearMemory,
      l[j]?.map LinearMemory.vmmemory = (l.map blankMemory)[j]?.map LinearMemory.vmmemory := by
    intro l
    rw [List.getElem?_map, Option.map_map]
    rfl
  calc i'.vmctx.memories[j]?
      = i.vmctx.memories[j]? := congrArg (fun v : VMContext => v.memories[j]?) hvmctx
    _ = i.memories[j]?.map LinearMemory.vmmemory := hc k i hi j
    _ = (i.memories.map blankMemory)[j]?.map LinearMemory.vmmemory := hdef _
    _ = (i'.memories.map blankMemory)[j]?.map LinearMemory.vmmemory :=
      congrArg (fun l : List LinearMemory => l[j]?.map LinearMemory.vmmemory) hmem.symm
    _ = i'.memories[j]?.map LinearMemory.vmmemory := (hdef _).symm

theorem getTableSlice_eq_some {addr : Nat → BitVec 64} {h : Heap Sig} {me index n : Nat}
    {p : DefinitionPtr} :
    h.getTableSlice addr me index = some (p, n) ↔
      h.tablePtr addr me index = some p ∧ h.tableLen p = some n := by
  unfold getTableSlice tableLen
  constructor
  · intro hs
    obtain ⟨q, hq, hs⟩ := Option.bind_eq_some_iff.mp hs
    obtain ⟨i, hi, hs⟩ := Option.bind_eq_some_iff.mp hs
    obtain ⟨t, ht, hs⟩ := Option.map_eq_some_iff.mp hs
    obtain ⟨rfl, rfl⟩ := Prod.mk.inj hs
    refine ⟨hq, ?_⟩
    rw [hi, Option.bind_some, ht, Option.map_some]
  · rintro ⟨hp, hn⟩
    obtain ⟨i, hi, hn⟩ := Option.bind_eq_some_iff.mp hn
    obtain ⟨t, ht, rfl⟩ := Option.map_eq_some_iff.mp hn
    rw [hp, Option.bind_some, hi, Option.bind_some, ht, Option.map_some]

theorem getMemorySlice_eq_some {addr : Nat → BitVec 64} {h : Heap Sig} (hc : Current h)
    {me index n : Nat} {p : DefinitionPtr} :
    h.getMemorySlice addr me index = some (p, n) ↔
      h.memoryPtr addr me index = some p ∧ h.memoryLen p = some n := by
  unfold getMemorySlice memoryLen
  constructor
  · intro hs
    obtain ⟨q, hq, hs⟩ := Option.bind_eq_some_iff.mp hs
    obtain ⟨i, hi, hs⟩ := Option.bind_eq_some_iff.mp hs
    obtain ⟨d, hd, hs⟩ := Option.map_eq_some_iff.mp hs
    obtain ⟨rfl, rfl⟩ := Prod.mk.inj hs
    rw [hc _ i hi] at hd
    obtain ⟨m, hm, rfl⟩ := Option.map_eq_some_iff.mp hd
    refine ⟨hq, ?_⟩
    rw [hi, Option.bind_some, hm, Option.map_some]
    rfl
  · rintro ⟨hp, hn⟩
    obtain ⟨i, hi, hn⟩ := Option.bind_eq_some_iff.mp hn
    obtain ⟨m, hm, rfl⟩ := Option.map_eq_some_iff.mp hn
    rw [hp, Option.bind_some, hi, Option.bind_some, hc _ i hi, hm]
    rfl

/-- A round of a check that goes on. -/
theorem checkRound_ok {start : Option UInt64} {slice : Option (DefinitionPtr × Nat)} {len : Nat}
    {message : String} {rest : Checked} (h : checkRound start slice len message rest = .ok) :
    (∃ s p n, start = some s ∧ slice = some (p, n) ∧ inRange s len n = true) ∧ rest = .ok := by
  unfold checkRound at h
  split at h
  · rename_i s p n
    by_cases hr : inRange s len n = true
    · rw [if_pos hr] at h
      exact ⟨⟨s, p, n, rfl, rfl, hr⟩, h⟩
    · rw [if_neg hr] at h
      exact absurd h (by simp)
  · exact absurd h (by simp)

/-- The first pass finds where every element segment goes. -/
theorem checkTables_ok {addr : Nat → BitVec 64} {h : Heap Sig} {me : Nat} {inits : List TableElements}
    (hcheck : h.checkTables addr me inits = .ok)
    (hfuncs : ∀ init ∈ inits, ∀ f ∈ init.elements, ∃ e, h.anyfunc me f = some e) :
    ∃ segs, List.Forall₂ (ElementSegment addr h me) inits segs := by
  induction inits with
  | nil => exact ⟨[], .nil⟩
  | cons init inits ih =>
    obtain ⟨⟨s, p, n, hs, hp, hr⟩, hrest⟩ := checkRound_ok hcheck
    obtain ⟨segs, hsegs⟩ := ih hrest fun init' hi => hfuncs init' (List.mem_cons_of_mem _ hi)
    obtain ⟨es, hes⟩ : ∃ es, List.Forall₂ (fun f e => h.anyfunc me f = some e) init.elements es := by
      have hf := hfuncs init List.mem_cons_self
      generalize init.elements = fs at hf
      induction fs with
      | nil => exact ⟨[], .nil⟩
      | cons f fs ih =>
        obtain ⟨e, he⟩ := hf f List.mem_cons_self
        obtain ⟨es, hes⟩ := ih fun g hg => hf g (List.mem_cons_of_mem _ hg)
        exact ⟨e :: es, .cons he hes⟩
    obtain ⟨hptr, hn⟩ := getTableSlice_eq_some.mp hp
    exact ⟨⟨p, s.toNat, es⟩ :: segs, .cons
      ⟨hptr, ⟨s, hs, rfl⟩, hes, n, hn, (inRange_iff init.elements_lt).mp hr⟩ hsegs⟩

/-- The first pass finds where every data segment goes. -/
theorem checkMemoryInitBounds_ok {addr : Nat → BitVec 64} {h : Heap Sig} (hc : Current h) {me : Nat}
    {inits : List DataInitializer} (hcheck : h.checkMemoryInitBounds addr me inits = .ok) :
    ∃ segs, List.Forall₂ (DataSegment addr h me) inits segs := by
  induction inits with
  | nil => exact ⟨[], .nil⟩
  | cons init inits ih =>
    obtain ⟨⟨s, p, n, hs, hp, hr⟩, hrest⟩ := checkRound_ok hcheck
    obtain ⟨segs, hsegs⟩ := ih hrest
    obtain ⟨hptr, hn⟩ := (getMemorySlice_eq_some hc).mp hp
    exact ⟨⟨p, s.toNat, init.data⟩ :: segs, .cons
      ⟨hptr, ⟨s, hs, rfl⟩, rfl, n, hn, (inRange_iff init.data_lt).mp hr⟩ hsegs⟩

/-- A segment is found again in a heap that differs in contents only. -/
theorem ElementSegment.frame {addr : Nat → BitVec 64} {h h' : Heap Sig} {me : Nat}
    {init : TableElements} {seg : Segment VMCallerCheckedAnyfunc} (f : Frame h h')
    (hs : ElementSegment addr h me init seg) : ElementSegment addr h' me init seg where
  target := (f.tablePtr addr me _).trans hs.target
  start := by
    rw [f.initStart]
    exact hs.start
  values := hs.values.imp fun func e he => (f.anyfunc me func).trans he
  fits := by
    rw [f.tableLen]
    exact hs.fits

theorem DataSegment.frame {addr : Nat → BitVec 64} {h h' : Heap Sig} {me : Nat}
    {init : DataInitializer} {seg : Segment UInt8} (f : Frame h h')
    (hs : DataSegment addr h me init seg) : DataSegment addr h' me init seg where
  target := (f.memoryPtr addr me _).trans hs.target
  start := by
    rw [f.initStart]
    exact hs.start
  values := hs.values
  fits := by
    rw [f.memoryLen]
    exact hs.fits

/-- The writes of element segments, as contents of slots. -/
def elementWrites (segs : List (Segment VMCallerCheckedAnyfunc)) :
    List ((DefinitionPtr × Nat) × Option (Option VMCallerCheckedAnyfunc)) :=
  segs.flatMap fun s => s.writes.map fun w => (w.1, some (some w.2))

/-- The writes of data segments, as contents of bytes. -/
def dataWrites (segs : List (Segment UInt8)) : List ((DefinitionPtr × Nat) × Option UInt8) :=
  segs.flatMap fun s => s.writes.map fun w => (w.1, some w.2)

/-- **`initialize_tables` replays the element segments**, in order, and touches nothing else. -/
theorem initializeTablesLoop_spec {addr : Nat → BitVec 64} {me : Nat} {inits : List TableElements}
    {segs : List (Segment VMCallerCheckedAnyfunc)} :
    ∀ {h : Heap Sig}, List.Forall₂ (ElementSegment addr h me) inits segs →
      ∃ h', initializeTablesLoop addr me h inits = some h' ∧ Frame h h' ∧
        h'.elementAt = replay h.elementAt (elementWrites segs) ∧ h'.byteAt = h.byteAt := by
  induction inits generalizing segs with
  | nil =>
    intro h hsegs
    cases hsegs
    exact ⟨h, rfl, .refl h, rfl, rfl⟩
  | cons init inits ih =>
    intro h hsegs
    cases hsegs with
    | @cons _ seg _ segs hseg hsegs =>
      obtain ⟨n, hn, hlt, hle⟩ := hseg.fits
      obtain ⟨start, hstart, hse⟩ := hseg.start
      obtain ⟨h₁, hw, hframe, hel, hby⟩ := writeElements_spec init.elements hseg.values hn hle
      have hrange : inRange start init.elements.length n = true := by
        rw [inRange_iff init.elements_lt, ← hse]
        exact ⟨hlt, hle⟩
      have hround : h.initializeTable addr me init = some h₁ := by
        unfold initializeTable
        rw [hstart, Option.bind_some, getTableSlice_eq_some.mpr ⟨hseg.target, hn⟩,
          Option.bind_some]
        simp only [if_pos hrange, ← hse, hw]
      obtain ⟨h₂, hloop, hframe', hel', hby'⟩ := ih (hsegs.imp fun _ _ hs => hs.frame hframe)
      refine ⟨h₂, ?_, hframe.trans hframe', ?_, hby'.trans hby⟩
      · unfold initializeTablesLoop
        rw [hround, Option.bind_some, hloop]
      · rw [hel', hel]
        unfold elementWrites
        rw [List.flatMap_cons, replay_append]
        rfl

/-- **`initialize_memories` replays the data segments**, in order, and touches nothing else. -/
theorem initializeMemories_spec {addr : Nat → BitVec 64} {me : Nat} {inits : List DataInitializer}
    {segs : List (Segment UInt8)} :
    ∀ {h : Heap Sig}, Current h → List.Forall₂ (DataSegment addr h me) inits segs →
      ∃ h', initializeMemories addr me h inits = some h' ∧ Frame h h' ∧
        h'.byteAt = replay h.byteAt (dataWrites segs) ∧ h'.elementAt = h.elementAt := by
  induction inits generalizing segs with
  | nil =>
    intro h _ hsegs
    cases hsegs
    exact ⟨h, rfl, .refl h, rfl, rfl⟩
  | cons init inits ih =>
    intro h hc hsegs
    cases hsegs with
    | @cons _ seg _ segs hseg hsegs =>
      obtain ⟨n, hn, hlt, hle⟩ := hseg.fits
      obtain ⟨start, hstart, hse⟩ := hseg.start
      obtain ⟨h₁, hw, hframe, hby, hel⟩ := writeBytes_spec init.data hn hle
      have hrange : inRange start init.data.length n = true := by
        rw [inRange_iff init.data_lt, ← hse]
        exact ⟨hlt, hle⟩
      have hround : h.initializeMemory addr me init = some h₁ := by
        unfold initializeMemory
        rw [hstart, Option.bind_some, (getMemorySlice_eq_some hc).mpr ⟨hseg.target, hn⟩,
          Option.bind_some]
        simp only [if_pos hrange, ← hse, hw]
      obtain ⟨h₂, hloop, hframe', hby', hel'⟩ :=
        ih (hframe.current hc) (hsegs.imp fun _ _ hs => hs.frame hframe)
      refine ⟨h₂, ?_, hframe.trans hframe', ?_, hel'.trans hel⟩
      · unfold initializeMemories
        rw [hround, Option.bind_some, hloop]
      · rw [hby', hby]
        unfold dataWrites
        rw [List.flatMap_cons, replay_append, ← hseg.values]
        rfl

end

end Heap

end Wasmtime.Runtime
