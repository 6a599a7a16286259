import Wasmtime.Jit.Instantiate
import Wasmtime.Runtime.SigRegistry

/-!
# Tables and memories of the API

Model of `Table` and `Memory` (`wasmtime-api/src/externals.rs`), of the values that go into and come
out of a table (`wasmtime-api/src/values.rs`), and of what compiled code does to a table or memory
of its own or an imported one.

* A handle is the instance it was got from and the definition that the export names. `get`, `set`
  and `grow` of a table and `grow` of a memory look the definition up by its address in the instance
  of the handle (`table_index`, `memory_index`); `size` and `data` read the definition.
* `Table::get` past the end converts a null `AnyRef`, and that conversion is `unimplemented!`.
* `signature_cache` holds the signatures that went through the store; an element segment registers
  its signatures with the compiler only.
* `none` is a panic. The reference counts of handles are left out, and so are values other than
  references, which a table refuses with a panic.

`Objects` is the abstract store: one table or memory for each definition, with nothing said of
instances, addresses or handles.

Results:
* `Reachable.inv`: in every run an import names a definition of the instance it names, and that
  definition is there.
* `refines`: an operation does to the abstract store what it says and nothing else, and returns
  what it says, unless it is one of those that `Meets` excludes.
* `run_refines`: so does every run of operations.
-/

namespace Wasmtime.Api

open Environ Wasmtime.Runtime Wasmtime.Jit

variable {Sig : Type}

/-! ## Values -/

/-- A function: its `Export::Function`. -/
structure Func (Sig : Type) where
  address : Nat
  vmctx : Nat
  signature : Sig
  deriving DecidableEq, Repr

/-- `Val`, as a table tells values apart. -/
inductive Val (Sig : Type) where
  | null
  | funcRef (f : Func Sig)
  | other
  deriving DecidableEq, Repr

/-- The part of `Store` that tables use: the signatures of its compiler, and `signature_cache`. -/
structure Signatures (Sig : Type) where
  registry : SignatureRegistry Sig
  cache : UInt32 → Option Sig

/-- What the process gives: the host, where each `VMContext` lies, and the kind of build. -/
structure Config where
  host : Host
  addr : Nat → BitVec 64
  debugAssertions : Bool

/-- The instances, and the signatures of the store. -/
structure State (Sig : Type) where
  store : Runtime.Store Sig
  signatures : Signatures Sig

section

variable [DecidableEq Sig]

/-- `Store::register_cranelift_signature`. -/
def registerCraneliftSignature (c : Config) (s : Signatures Sig) (signature : Sig) :
    Option (UInt32 × Signatures Sig) :=
  (s.registry.register c.debugAssertions signature).map fun (index, registry) =>
    (index, ⟨registry, fun id =>
      if id = index then some ((s.cache index).getD signature) else s.cache id⟩)

/-- `into_checked_anyfunc`. The null entry is `VMCallerCheckedAnyfunc::default()`. -/
def intoCheckedAnyfunc (c : Config) (s : Signatures Sig) :
    Val Sig → Option (Option VMCallerCheckedAnyfunc × Signatures Sig)
  | .null => some (none, s)
  | .funcRef f =>
    (registerCraneliftSignature c s f.signature).map fun (typeIndex, s) =>
      (some ⟨f.address, typeIndex, f.vmctx⟩, s)
  | .other => none

end

/-- `from_checked_anyfunc`. -/
def fromCheckedAnyfunc (s : Signatures Sig) : Option VMCallerCheckedAnyfunc → Option (Val Sig)
  | none => some .null
  | some item =>
    if item.typeIndex = defaultSignatureIndex then some .null
    else (s.cache item.typeIndex).map fun signature =>
      .funcRef ⟨item.funcPtr, item.vmctx, signature⟩

/-! ## Objects in the heap -/

/-- The table of a definition. -/
def tableAt (h : Heap Sig) (p : DefinitionPtr) : Option (Table VMCallerCheckedAnyfunc) :=
  h[p.vmctx]?.bind fun i => i.tables[p.index]?

/-- The memory of a definition. -/
def memoryAt (h : Heap Sig) (p : DefinitionPtr) : Option LinearMemory :=
  h[p.vmctx]?.bind fun i => i.memories[p.index]?

/-- The `VMTableDefinition` itself. -/
def tableDefinition (h : Heap Sig) (p : DefinitionPtr) : Option VMTableDefinition :=
  h[p.vmctx]?.bind fun i => i.vmctx.tables[p.index]?

/-- The `VMMemoryDefinition` itself. -/
def memoryDefinition (h : Heap Sig) (p : DefinitionPtr) : Option VMMemoryDefinition :=
  h[p.vmctx]?.bind fun i => i.vmctx.memories[p.index]?

/-- The definition that compiled code of instance `k` reaches through a table index. -/
def tableName (h : Heap Sig) (k index : Nat) : Option DefinitionPtr :=
  h[k]?.bind fun i => (Instance.lookupDefinition k (i.module.definedTableIndex index)
    i.vmctx.imports.tables[index]?).map Prod.fst

/-- The definition that compiled code of instance `k` reaches through a memory index. -/
def memoryName (h : Heap Sig) (k index : Nat) : Option DefinitionPtr :=
  h[k]?.bind fun i => (Instance.lookupDefinition k (i.module.definedMemoryIndex index)
    i.vmctx.imports.memories[index]?).map Prod.fst

/-- A store of an element to the table of a definition. -/
def storeElement (h : Heap Sig) (p : DefinitionPtr) (at' : Nat)
    (f : Option VMCallerCheckedAnyfunc) : Option (Heap Sig) :=
  h[p.vmctx]?.bind fun i => i.tables[p.index]?.map fun t =>
    h.set p.vmctx { i with toInstance := i.toInstance.storeElement p.index t at' f }

/-- A store of a byte to the memory of a definition. -/
def storeByte (h : Heap Sig) (p : DefinitionPtr) (at' : Nat) (byte : UInt8) : Option (Heap Sig) :=
  h[p.vmctx]?.bind fun i => i.memories[p.index]?.map fun m =>
    h.set p.vmctx { i with toInstance := i.toInstance.storeByte p.index m at' byte }

/-- `table_grow` of the instance of a definition. -/
def tableGrow (h : Heap Sig) (p : DefinitionPtr) (alloc : Nat) (delta : UInt32) :
    Option (Option Nat × Heap Sig) :=
  h[p.vmctx]?.bind fun i =>
    match i.toInstance.tableGrow alloc p.index delta with
    | .panic _ => none
    | .ret result j => some (result, h.set p.vmctx { i with toInstance := j })

/-- `memory_grow` of the instance of a definition. -/
def memoryGrow (c : Config) (h : Heap Sig) (p : DefinitionPtr) (os : Os) (delta : UInt32) :
    Option (Option Nat × Heap Sig) :=
  h[p.vmctx]?.bind fun i =>
    match i.toInstance.memoryGrow c.host os p.index delta with
    | .panic _ => none
    | .ret result j => some (result, h.set p.vmctx { i with toInstance := j })

/-! ## Handles -/

/-- A `Table` or `Memory`: `wasmtime_handle`, and the definition of `wasmtime_export`. -/
structure Handle where
  handle : Nat
  definition : DefinitionPtr
  deriving DecidableEq, Repr

/-- What `table_index` and `memory_index` are asked with. -/
def Handle.lookup (hd : Handle) : VMImport := ⟨hd.definition, hd.handle⟩

/-- What an operation returns: to the host, or to compiled code. -/
inductive Result (Sig : Type) where
  | val (v : Val Sig)
  | bool (b : Bool)
  | nat (n : Nat)
  | bytes (data : List UInt8)
  | pages (previous : Option Nat)
  | byte (b : Option UInt8)
  | entry (e : Option (Option VMCallerCheckedAnyfunc))
  deriving DecidableEq, Repr

/-- The operations of `Table`; `alloc` is where the vector lies after it has grown. -/
inductive TableOp (Sig : Type) where
  | get (index : UInt32)
  | set (index : UInt32) (v : Val Sig)
  | size
  | grow (alloc : Nat) (delta : UInt32) (init : Val Sig)

/-- The operations of `Memory`: `data`, a write to a byte of `data`, `size`, `grow`. -/
inductive MemoryOp where
  | data
  | write (at' : Nat) (byte : UInt8)
  | size
  | grow (os : Os) (delta : UInt32)

/-- What compiled code does to a memory. -/
inductive WasmOp where
  | load (at' : Nat)
  | store (at' : Nat) (byte : UInt8)
  | size
  | grow (os : Os) (delta : UInt32)

/-- An operation through a handle, or of compiled code of an instance on one of its indices. -/
inductive Event (Sig : Type) where
  | table (hd : Handle) (op : TableOp Sig)
  | memory (hd : Handle) (op : MemoryOp)
  | callIndirect (k index at' : Nat)
  | wasm (k index : Nat) (op : WasmOp)

section

variable [DecidableEq Sig] (c : Config) (s : State Sig)

/-- `set_table_item`. -/
def setTableItem (q : DefinitionPtr) (index : Nat) (v : Val Sig) : Option (Bool × State Sig) :=
  (intoCheckedAnyfunc c s.signatures v).bind fun (item, signatures) =>
    (tableAt s.store.heap q).bind fun t =>
      if index < t.vec.length then
        (storeElement s.store.heap q index item).map fun heap =>
          (true, ⟨{ s.store with heap }, signatures⟩)
      else some (false, { s with signatures })

/-- The loop at the end of `Table::grow`, over the `count` entries from `from'`. -/
def fillItems (q : DefinitionPtr) (v : Val Sig) : Nat → Nat → State Sig → Option (State Sig)
  | 0, _, s => some s
  | count + 1, from', s =>
    (setTableItem c s q from' v).bind fun (success, s) =>
      if success then fillItems q v count (from' + 1) s else none

/-- The operations of `Table`. -/
def tableOp (hd : Handle) : TableOp Sig → Option (Result Sig × State Sig)
  | .get index =>
    (s.store.heap.foreignTable c.addr hd.lookup).bind fun q =>
      (tableAt s.store.heap q).bind fun t =>
        match t.vec[index.toNat]? with
        | some item => (fromCheckedAnyfunc s.signatures item).map fun v => (.val v, s)
        | none => none
  | .set index v =>
    (s.store.heap.foreignTable c.addr hd.lookup).bind fun q =>
      (setTableItem c s q index.toNat v).map fun (success, s) => (.bool success, s)
  | .size => (tableDefinition s.store.heap hd.definition).map fun d => (.nat d.currentElements, s)
  | .grow alloc delta init =>
    (s.store.heap.foreignTable c.addr hd.lookup).bind fun q =>
      (tableGrow s.store.heap q alloc delta).bind fun (result, heap) =>
        let s : State Sig := { s with store := { s.store with heap } }
        match result with
        | some len =>
          (fillItems c q init delta.toNat (len - delta.toNat) s).map fun s => (.bool true, s)
        | none => some (.bool false, s)

/-- The bytes of a memory as long as a definition says. -/
def slice (d : VMMemoryDefinition) (m : LinearMemory) : List UInt8 :=
  (List.range d.currentLength).map m.mmap.bytes

/-- A write through the pointer of a definition, if it is in bounds. -/
def writeByte (p : DefinitionPtr) (at' : Nat) (byte : UInt8) : Option (Bool × State Sig) :=
  (memoryDefinition s.store.heap p).bind fun d =>
    if at' < d.currentLength then
      (storeByte s.store.heap p at' byte).map fun heap =>
        (true, { s with store := { s.store with heap } })
    else some (false, s)

/-- The operations of `Memory`. -/
def memoryOp (hd : Handle) : MemoryOp → Option (Result Sig × State Sig)
  | .data =>
    (memoryDefinition s.store.heap hd.definition).bind fun d =>
      (memoryAt s.store.heap hd.definition).map fun m => (.bytes (slice d m), s)
  | .write at' byte =>
    (writeByte s hd.definition at' byte).map fun (success, s) => (.bool success, s)
  | .size =>
    (memoryDefinition s.store.heap hd.definition).map fun d =>
      (.nat (d.currentLength / wasmPageSize % 2 ^ 32), s)
  | .grow os delta =>
    (s.store.heap.foreignMemory c.addr hd.lookup).bind fun q =>
      (memoryGrow c s.store.heap q os delta).map fun (result, heap) =>
        (.bool result.isSome, { s with store := { s.store with heap } })

/-- What compiled code of instance `k` does to the memory of one of its indices: loads and stores go
through the definition, `memory.size` and `memory.grow` through the runtime. -/
def wasmOp (k index : Nat) : WasmOp → Option (Result Sig × State Sig)
  | .load at' =>
    (memoryName s.store.heap k index).bind fun p =>
      (memoryDefinition s.store.heap p).bind fun d =>
        (memoryAt s.store.heap p).map fun m => (.byte (slice d m)[at']?, s)
  | .store at' byte =>
    (memoryName s.store.heap k index).bind fun p =>
      (writeByte s p at' byte).map fun (success, s) => (.bool success, s)
  | .size =>
    (s.store.heap.memoryPtr c.addr k index).bind fun q =>
      (memoryAt s.store.heap q).map fun m => (.nat m.size.toNat, s)
  | .grow os delta =>
    (s.store.heap.memoryPtr c.addr k index).bind fun q =>
      (memoryGrow c s.store.heap q os delta).map fun (result, heap) =>
        (.pages result, { s with store := { s.store with heap } })

/-- The element that `call_indirect` of instance `k` loads, `none` where it traps. -/
def callIndirect (k index at' : Nat) : Option (Result Sig × State Sig) :=
  (tableName s.store.heap k index).bind fun p =>
    (tableDefinition s.store.heap p).bind fun d =>
      (tableAt s.store.heap p).map fun t =>
        (.entry (if at' < d.currentElements then t.vec[at']? else none), s)

/-- One operation. -/
def exec : Event Sig → Option (Result Sig × State Sig)
  | .table hd op => tableOp c s hd op
  | .memory hd op => memoryOp c s hd op
  | .callIndirect k index at' => callIndirect s k index at'
  | .wasm k index op => wasmOp c s k index op

end

/-! ## The abstract store -/

/-- One table or memory for each definition, what the indices of instances name, and the
signatures. -/
@[ext] structure Objects (Sig : Type) where
  tables : DefinitionPtr → Option (Table VMCallerCheckedAnyfunc)
  memories : DefinitionPtr → Option LinearMemory
  tableName : Nat → Nat → Option DefinitionPtr
  memoryName : Nat → Nat → Option DefinitionPtr
  signatures : Signatures Sig

/-- The function or null that an entry stands for, by the signatures of the compiler. -/
def denote (s : Signatures Sig) : Option VMCallerCheckedAnyfunc → Option (Val Sig)
  | none => some .null
  | some item =>
    if item.typeIndex = defaultSignatureIndex then some .null
    else (s.registry.signatureHash.find? (·.2 = item.typeIndex)).map fun e =>
      .funcRef ⟨item.funcPtr, item.vmctx, e.1⟩

/-- The bytes of a memory. -/
def contents (m : LinearMemory) : List UInt8 :=
  (List.range (m.current.toNat * wasmPageSize)).map m.mmap.bytes

/-- `delta` more entries are within the limits. -/
def HasRoom (t : Table VMCallerCheckedAnyfunc) (delta : UInt32) : Prop :=
  t.size + delta.toNat < 2 ^ 32 ∧ ∀ max, t.maximum = some max → t.size + delta.toNat ≤ max.toNat

instance (t : Table VMCallerCheckedAnyfunc) (delta : UInt32) : Decidable (HasRoom t delta) :=
  inferInstanceAs (Decidable (_ ∧ ∀ max ∈ t.maximum, _))

section

variable [DecidableEq Sig] (c : Config)

/-- An operation on a single table. -/
def singleTable (s : Signatures Sig) (t : Table VMCallerCheckedAnyfunc) :
    TableOp Sig → Option (Result Sig × Table VMCallerCheckedAnyfunc × Signatures Sig)
  | .get index =>
    match t.vec[index.toNat]? with
    | some item => (denote s item).map fun v => (.val v, t, s)
    | none => some (.val .null, t, s)
  | .set index v =>
    (intoCheckedAnyfunc c s v).map fun (item, s) =>
      if index.toNat < t.vec.length then (.bool true, t.set index.toNat item, s)
      else (.bool false, t, s)
  | .size => some (.nat t.vec.length, t, s)
  | .grow alloc delta init =>
    if HasRoom t delta then
      if delta = 0 then some (.bool true, { t with ptr := alloc }, s)
      else (intoCheckedAnyfunc c s init).map fun (item, s) =>
        (.bool true, { t with vec := t.vec ++ List.replicate delta.toNat item, ptr := alloc }, s)
    else some (.bool false, t, s)

/-- A write to a single memory. -/
def singleWrite (m : LinearMemory) (at' : Nat) (byte : UInt8) : Result Sig × LinearMemory :=
  if at' < m.current.toNat * wasmPageSize then (.bool true, m.store at' byte) else (.bool false, m)

/-- Growing a single memory. -/
def singleGrow (m : LinearMemory) (os : Os) (delta : UInt32)
    (result : Option UInt32 → Result Sig) : Option (Result Sig × LinearMemory) :=
  match m.grow c.host os delta with
  | .panic _ => none
  | .ret r m' => some (result r, m')

/-- An operation of the host on a single memory. -/
def singleMemory (m : LinearMemory) : MemoryOp → Option (Result Sig × LinearMemory)
  | .data => some (.bytes (contents m), m)
  | .write at' byte => some (singleWrite m at' byte)
  | .size => some (.nat m.current.toNat, m)
  | .grow os delta => singleGrow c m os delta fun r => .bool r.isSome

/-- An operation of compiled code on a single memory. -/
def singleWasm (m : LinearMemory) : WasmOp → Option (Result Sig × LinearMemory)
  | .load at' => some (.byte (contents m)[at']?, m)
  | .store at' byte => some (singleWrite m at' byte)
  | .size => some (.nat m.current.toNat, m)
  | .grow os delta => singleGrow c m os delta fun r => .pages (r.map UInt32.toNat)

namespace Objects

def setTable (o : Objects Sig) (p : DefinitionPtr) (t : Table VMCallerCheckedAnyfunc) :
    Objects Sig :=
  { o with tables := fun q => if q = p then some t else o.tables q }

def setMemory (o : Objects Sig) (p : DefinitionPtr) (m : LinearMemory) : Objects Sig :=
  { o with memories := fun q => if q = p then some m else o.memories q }

/-- An operation acts on the one object that its definition, or its index, names. -/
def step (o : Objects Sig) : Event Sig → Option (Result Sig × Objects Sig)
  | .table hd op =>
    (o.tables hd.definition).bind fun t =>
      (singleTable c o.signatures t op).map fun (r, t, signatures) =>
        (r, { o.setTable hd.definition t with signatures })
  | .memory hd op =>
    (o.memories hd.definition).bind fun m =>
      (singleMemory c m op).map fun (r, m) => (r, o.setMemory hd.definition m)
  | .callIndirect k index at' =>
    (o.tableName k index).bind fun p => (o.tables p).map fun t => (.entry t.vec[at']?, o)
  | .wasm k index op =>
    (o.memoryName k index).bind fun p => (o.memories p).bind fun m =>
      (singleWasm c m op).map fun (r, m) => (r, o.setMemory p m)

/-- A sequence of operations, with their results. -/
def run : Objects Sig → List (Event Sig) → Option (List (Result Sig) × Objects Sig)
  | o, [] => some ([], o)
  | o, e :: es => (o.step c e).bind fun (r, o) => (run o es).map fun (rs, o) => (r :: rs, o)

end Objects

end

/-- The objects of a heap, with some signatures. -/
def objectsOf (h : Heap Sig) (signatures : Signatures Sig) : Objects Sig where
  tables := tableAt h
  memories := memoryAt h
  tableName := Api.tableName h
  memoryName := Api.memoryName h
  signatures := signatures

/-- The objects of a state. -/
def objects (s : State Sig) : Objects Sig := objectsOf s.store.heap s.signatures

/-! ## The invariant -/

/-- What holds of each instance: its own invariant, and its imports name definitions that are
there, each in the instance the import names. -/
structure InstanceOk (host : Host) (h : Heap Sig) (i : Placed Sig) : Prop where
  inv : i.toInstance.Inv host
  importedTables : i.vmctx.imports.tables.length = i.module.importedTables.length
  importedMemories : i.vmctx.imports.memories.length = i.module.importedMemories.length
  tables : ∀ (j : Nat) imp, i.vmctx.imports.tables[j]? = some imp →
    imp.source.vmctx = imp.vmctx ∧ (tableAt h imp.source).isSome
  memories : ∀ (j : Nat) imp, i.vmctx.imports.memories[j]? = some imp →
    imp.source.vmctx = imp.vmctx ∧ (memoryAt h imp.source).isSome

/-- The invariant of the signatures: what is cached is registered. -/
structure Signatures.Ok (s : Signatures Sig) : Prop where
  registry : s.registry.Ok
  cache : ∀ id sig, s.cache id = some sig → (sig, id) ∈ s.registry.signatureHash

/-- The invariant of a state. -/
structure Inv (host : Host) (s : State Sig) : Prop where
  instances : ∀ (k : Nat) i, s.store.heap[k]? = some i → InstanceOk host s.store.heap i
  signatures : s.signatures.Ok

section

variable {host : Host} {h h' : Heap Sig} {k : Nat} {i i' : Placed Sig}

theorem tableAt_set (hk : h[k]? = some i) (i' : Placed Sig) (p : DefinitionPtr) :
    tableAt (h.set k i') p = if p.vmctx = k then i'.tables[p.index]? else tableAt h p := by
  have hlt := (List.getElem?_eq_some_iff.mp hk).1
  rw [tableAt, List.getElem?_set]
  by_cases hp : p.vmctx = k
  · simp [hp, hlt]
  · rw [if_neg (Ne.symm hp), if_neg hp, tableAt]

theorem memoryAt_set (hk : h[k]? = some i) (i' : Placed Sig) (p : DefinitionPtr) :
    memoryAt (h.set k i') p = if p.vmctx = k then i'.memories[p.index]? else memoryAt h p := by
  have hlt := (List.getElem?_eq_some_iff.mp hk).1
  rw [memoryAt, List.getElem?_set]
  by_cases hp : p.vmctx = k
  · simp [hp, hlt]
  · rw [if_neg (Ne.symm hp), if_neg hp, memoryAt]

/-- Nothing that was there goes away. -/
def Grows (h h' : Heap Sig) : Prop :=
  ∀ p, ((tableAt h p).isSome → (tableAt h' p).isSome) ∧
    ((memoryAt h p).isSome → (memoryAt h' p).isSome)

theorem InstanceOk.mono (hg : Grows h h') (hi : InstanceOk host h i) : InstanceOk host h' i :=
  ⟨hi.inv, hi.importedTables, hi.importedMemories,
    fun j imp hj => ⟨(hi.tables j imp hj).1, (hg _).1 (hi.tables j imp hj).2⟩,
    fun j imp hj => ⟨(hi.memories j imp hj).1, (hg _).2 (hi.memories j imp hj).2⟩⟩

theorem grows_snoc (h : Heap Sig) (i : Placed Sig) : Grows h (h ++ [i]) := by
  have hkeep : ∀ k : Nat, h[k]?.isSome → (h ++ [i])[k]? = h[k]? := by
    intro k hk
    obtain ⟨j, hj⟩ := Option.isSome_iff_exists.mp hk
    exact List.getElem?_append_left (List.getElem?_eq_some_iff.mp hj).1
  intro p
  constructor
  · intro hp
    rw [tableAt, hkeep p.vmctx (by cases hv : h[p.vmctx]? <;> simp_all [tableAt])]
    exact hp
  · intro hp
    rw [memoryAt, hkeep p.vmctx (by cases hv : h[p.vmctx]? <;> simp_all [memoryAt])]
    exact hp

theorem grows_set (hk : h[k]? = some i) (ht : i'.tables.length = i.tables.length)
    (hm : i'.memories.length = i.memories.length) : Grows h (h.set k i') := by
  intro p
  rw [tableAt_set hk, memoryAt_set hk]
  by_cases hp : p.vmctx = k
  · rw [if_pos hp, if_pos hp, tableAt, memoryAt, hp, hk]
    simp [ht, hm]
  · rw [if_neg hp, if_neg hp]
    exact ⟨id, id⟩

/-- A step of an instance keeps the invariant of the instances. -/
theorem inside_instances (hs : Inside host h h')
    (hi : ∀ (k : Nat) i, h[k]? = some i → InstanceOk host h i) :
    ∀ (k : Nat) i, h'[k]? = some i → InstanceOk host h' i := by
  obtain ⟨k, i, i', hk, rfl, hkept, hw⟩ := hs.kept
  have hlen : i'.memories.length = i.memories.length ∧ i'.tables.length = i.tables.length := by
    obtain he | hstep := hw
    · rw [he]
      exact ⟨rfl, rfl⟩
    · exact hstep.lengths
  have hg : Grows h (h.set k i') := grows_set hk hlen.2 hlen.1
  refine Instance.forall_getElem?_set (fun j b hb => (hi j b hb).mono hg) ?_
  have hok := (hi k i hk).mono hg
  refine ⟨?_, ?_, ?_, by rw [hkept.imports]; exact hok.tables,
    by rw [hkept.imports]; exact hok.memories⟩
  rotate_left
  · rw [hkept.imports, hkept.module]
    exact hok.importedTables
  · rw [hkept.imports, hkept.module]
    exact hok.importedMemories
  obtain he | hstep := hw
  · rw [he]
    exact hok.inv
  · exact hstep.inv hok.inv

theorem insideStar_instances (hs : Relation.ReflTransGen (Inside host) h h')
    (hi : ∀ (k : Nat) i, h[k]? = some i → InstanceOk host h i) :
    ∀ (k : Nat) i, h'[k]? = some i → InstanceOk host h' i := by
  induction hs with
  | refl => exact hi
  | tail _ hstep ih => exact inside_instances hstep ih

/-! ## What the primitives do to the objects -/

variable {p : DefinitionPtr} {signatures : Signatures Sig}

theorem storeElement_inside {at' : Nat} {f : Option VMCallerCheckedAnyfunc}
    (hs : storeElement h p at' f = some h') : Inside host h h' := by
  obtain ⟨i, hi, hs⟩ := Option.bind_eq_some_iff.mp hs
  obtain ⟨t, ht, rfl⟩ := Option.map_eq_some_iff.mp hs
  exact .step hi (.storeElement ht)

theorem tableGrow_inside {alloc : Nat} {delta : UInt32} {result : Option Nat}
    (hs : tableGrow h p alloc delta = some (result, h')) : Inside host h h' := by
  obtain ⟨i, hi, hs⟩ := Option.bind_eq_some_iff.mp hs
  split at hs
  · exact absurd hs (by simp)
  · rename_i j hgrow
    obtain ⟨-, rfl⟩ := Prod.mk.inj (Option.some.inj hs)
    exact .step hi (.tableGrow hgrow)

theorem memoryGrow_inside {c : Config} {os : Os} {delta : UInt32} {result : Option Nat}
    (hs : memoryGrow c h p os delta = some (result, h')) : Inside c.host h h' := by
  obtain ⟨i, hi, hs⟩ := Option.bind_eq_some_iff.mp hs
  split at hs
  · exact absurd hs (by simp)
  · rename_i j hgrow
    obtain ⟨-, rfl⟩ := Prod.mk.inj (Option.some.inj hs)
    exact .step hi (.memoryGrow hgrow)

/-- The copies of a definition in the `VMContext` are current. -/
theorem memoryDefinition_eq (hi : ∀ (k : Nat) i, h[k]? = some i → InstanceOk host h i)
    (p : DefinitionPtr) : memoryDefinition h p = (memoryAt h p).map LinearMemory.vmmemory := by
  rw [memoryDefinition, memoryAt]
  cases hk : h[p.vmctx]? with
  | none => rfl
  | some i => exact (hi _ i hk).inv.vmctxMemories p.index

theorem storeByte_inside (hi : ∀ (k : Nat) i, h[k]? = some i → InstanceOk host h i) {at' : Nat}
    {d : VMMemoryDefinition} (hd : memoryDefinition h p = some d) (hlt : at' < d.currentLength)
    {byte : UInt8} (hs : storeByte h p at' byte = some h') : Inside host h h' := by
  rw [memoryDefinition_eq hi] at hd
  obtain ⟨m, hm, rfl⟩ := Option.map_eq_some_iff.mp hd
  obtain ⟨i, hk, hs⟩ := Option.bind_eq_some_iff.mp hs
  rw [memoryAt, hk, Option.bind_some] at hm
  obtain ⟨m', hm', rfl⟩ := Option.map_eq_some_iff.mp hs
  obtain rfl := Option.some.inj (hm.symm.trans hm')
  exact .step hk (.storeByte hm hlt)

end

/-! ## Signatures -/

section

variable [DecidableEq Sig] {c : Config} {s s' : Signatures Sig}

/-- Registering through the store caches the signature under its id. -/
theorem registerCraneliftSignature_spec (hs : s.Ok) {signature : Sig} {id : UInt32}
    (hr : registerCraneliftSignature c s signature = some (id, s')) :
    s'.Ok ∧ (signature, id) ∈ s'.registry.signatureHash ∧ s'.cache id = some signature := by
  obtain ⟨⟨index, registry⟩, hreg, he⟩ := Option.map_eq_some_iff.mp hr
  obtain ⟨rfl, rfl⟩ := Prod.mk.inj he
  obtain ⟨hok, hmem, hkeep, -⟩ := SignatureRegistry.register_spec hs.registry hreg
  have hcached : (s.cache index).getD signature = signature := by
    cases hc : s.cache index with
    | none => rfl
    | some sig => exact (hok.eq_iff (hkeep _ (hs.cache index sig hc)) hmem).mp rfl
  refine ⟨⟨hok, fun id sig hid => ?_⟩, hmem, by simp [hcached]⟩
  simp only at hid
  split at hid
  · rename_i he
    obtain rfl := Option.some.inj hid
    rw [hcached, he]
    exact hmem
  · exact hkeep _ (hs.cache id sig hid)

/-- Registering a signature again changes nothing. -/
theorem registerCraneliftSignature_again (hs : s.Ok) {signature : Sig} {id : UInt32}
    (hmem : (signature, id) ∈ s.registry.signatureHash) (hcache : s.cache id = some signature) :
    registerCraneliftSignature c s signature = some (id, s) := by
  have hfind : s.registry.signatureHash.find? (·.1 = signature) = some (signature, id) := by
    cases hf : s.registry.signatureHash.find? (·.1 = signature) with
    | none => exact absurd (List.find?_eq_none.mp hf _ hmem) (by simp)
    | some e =>
      have hkey : e.1 = signature := by simpa using List.find?_some hf
      have hid := (hs.registry.eq_iff (List.mem_of_find?_eq_some hf) hmem).mpr hkey
      rw [← hkey, ← hid]
  have hcached : (fun id' => if id' = id then some ((s.cache id).getD signature) else s.cache id') =
      s.cache := by
    funext id'
    by_cases hid : id' = id
    · rw [if_pos hid, hcache, hid, hcache]
      rfl
    · rw [if_neg hid]
  rw [registerCraneliftSignature, SignatureRegistry.register, hfind, Option.map_some]
  simp only [hcached]

/-- The conversion of a value keeps the invariant, and doing it again changes nothing. -/
theorem intoCheckedAnyfunc_spec (hs : s.Ok) {v : Val Sig} {item : Option VMCallerCheckedAnyfunc}
    (hv : intoCheckedAnyfunc c s v = some (item, s')) :
    s'.Ok ∧ intoCheckedAnyfunc c s' v = some (item, s') := by
  cases v with
  | null =>
    obtain ⟨rfl, rfl⟩ := Prod.mk.inj (Option.some.inj hv)
    exact ⟨hs, rfl⟩
  | funcRef f =>
    obtain ⟨⟨id, s₁⟩, hr, he⟩ := Option.map_eq_some_iff.mp hv
    obtain ⟨rfl, rfl⟩ := Prod.mk.inj he
    obtain ⟨hok, hmem, hcache⟩ := registerCraneliftSignature_spec hs hr
    refine ⟨hok, ?_⟩
    rw [intoCheckedAnyfunc, registerCraneliftSignature_again hok hmem hcache, Option.map_some]
  | other => exact absurd hv (by simp [intoCheckedAnyfunc])

end

/-! ## Operations keep the invariant -/

section

variable [DecidableEq Sig] {c : Config} {s s' : State Sig}

/-- What an operation leaves: steps of instances, and signatures in order. -/
structure Moves (c : Config) (s s' : State Sig) : Prop where
  heap : Relation.ReflTransGen (Inside c.host) s.store.heap s'.store.heap
  signatures : s'.signatures.Ok

omit [DecidableEq Sig] in
theorem Moves.inv (hi : Inv c.host s) (hm : Moves c s s') : Inv c.host s' :=
  ⟨insideStar_instances hm.heap hi.instances, hm.signatures⟩

omit [DecidableEq Sig] in
theorem Inv.stays (hi : Inv c.host s) : Moves c s s := ⟨.refl, hi.signatures⟩

omit [DecidableEq Sig] in
theorem Inv.moves (hi : Inv c.host s) {h : Heap Sig} (hs : Inside c.host s.store.heap h) :
    Moves c s { s with store := { s.store with heap := h } } := ⟨.single hs, hi.signatures⟩

theorem setTableItem_moves (hi : Inv c.host s) {q : DefinitionPtr} {index : Nat} {v : Val Sig}
    {success : Bool} (hs : setTableItem c s q index v = some (success, s')) : Moves c s s' := by
  obtain ⟨⟨item, signatures⟩, hv, hs⟩ := Option.bind_eq_some_iff.mp hs
  obtain ⟨t, -, hs⟩ := Option.bind_eq_some_iff.mp hs
  have hok := (intoCheckedAnyfunc_spec hi.signatures hv).1
  simp only at hs
  split at hs
  · obtain ⟨h, hstore, he⟩ := Option.map_eq_some_iff.mp hs
    obtain ⟨-, rfl⟩ := Prod.mk.inj he
    exact ⟨.single (storeElement_inside hstore), hok⟩
  · obtain ⟨-, rfl⟩ := Prod.mk.inj (Option.some.inj hs)
    exact ⟨.refl, hok⟩

theorem fillItems_moves {q : DefinitionPtr} {v : Val Sig} {count from' : Nat} (hi : Inv c.host s)
    (hs : fillItems c q v count from' s = some s') : Moves c s s' := by
  induction count generalizing from' s with
  | zero =>
    obtain rfl := Option.some.inj hs
    exact hi.stays
  | succ count ih =>
    obtain ⟨⟨success, s₁⟩, hset, hs⟩ := Option.bind_eq_some_iff.mp hs
    obtain ⟨-, hs⟩ := Option.ite_none_right_eq_some.mp hs
    have hmoves := setTableItem_moves hi hset
    have hrest := ih (hmoves.inv hi) hs
    exact ⟨hmoves.heap.trans hrest.heap, hrest.signatures⟩

theorem tableOp_moves (hi : Inv c.host s) {hd : Handle} {op : TableOp Sig} {r : Result Sig}
    (hs : tableOp c s hd op = some (r, s')) : Moves c s s' := by
  cases op with
  | get index =>
    obtain ⟨q, -, hs⟩ := Option.bind_eq_some_iff.mp hs
    obtain ⟨t, -, hs⟩ := Option.bind_eq_some_iff.mp hs
    split at hs
    · obtain ⟨v, -, he⟩ := Option.map_eq_some_iff.mp hs
      obtain ⟨-, rfl⟩ := Prod.mk.inj he
      exact hi.stays
    · exact absurd hs (by simp)
  | set index v =>
    obtain ⟨q, -, hs⟩ := Option.bind_eq_some_iff.mp hs
    obtain ⟨⟨success, s₁⟩, hset, he⟩ := Option.map_eq_some_iff.mp hs
    obtain ⟨-, rfl⟩ := Prod.mk.inj he
    exact setTableItem_moves hi hset
  | size =>
    obtain ⟨d, -, he⟩ := Option.map_eq_some_iff.mp hs
    obtain ⟨-, rfl⟩ := Prod.mk.inj he
    exact hi.stays
  | grow alloc delta init =>
    obtain ⟨q, -, hs⟩ := Option.bind_eq_some_iff.mp hs
    obtain ⟨⟨result, h⟩, hgrow, hs⟩ := Option.bind_eq_some_iff.mp hs
    have hgrown := hi.moves (tableGrow_inside hgrow)
    cases result with
    | some len =>
      obtain ⟨s₁, hfill, he⟩ := Option.map_eq_some_iff.mp hs
      obtain ⟨-, rfl⟩ := Prod.mk.inj he
      have hrest := fillItems_moves (hgrown.inv hi) hfill
      exact ⟨hgrown.heap.trans hrest.heap, hrest.signatures⟩
    | none =>
      obtain ⟨-, rfl⟩ := Prod.mk.inj (Option.some.inj hs)
      exact hgrown

omit [DecidableEq Sig] in
theorem writeByte_moves (hi : Inv c.host s) {p : DefinitionPtr} {at' : Nat} {byte : UInt8}
    {success : Bool} (hs : writeByte s p at' byte = some (success, s')) : Moves c s s' := by
  obtain ⟨d, hd, hs⟩ := Option.bind_eq_some_iff.mp hs
  split at hs
  · rename_i hlt
    obtain ⟨h, hstore, he⟩ := Option.map_eq_some_iff.mp hs
    obtain ⟨-, rfl⟩ := Prod.mk.inj he
    exact hi.moves (storeByte_inside hi.instances hd hlt hstore)
  · obtain ⟨-, rfl⟩ := Prod.mk.inj (Option.some.inj hs)
    exact hi.stays

omit [DecidableEq Sig] in
theorem memoryOp_moves (hi : Inv c.host s) {hd : Handle} {op : MemoryOp} {r : Result Sig}
    (hs : memoryOp c s hd op = some (r, s')) : Moves c s s' := by
  cases op with
  | data =>
    obtain ⟨d, -, hs⟩ := Option.bind_eq_some_iff.mp hs
    obtain ⟨m, -, he⟩ := Option.map_eq_some_iff.mp hs
    obtain ⟨-, rfl⟩ := Prod.mk.inj he
    exact hi.stays
  | write at' byte =>
    obtain ⟨⟨success, s₁⟩, hw, he⟩ := Option.map_eq_some_iff.mp hs
    obtain ⟨-, rfl⟩ := Prod.mk.inj he
    exact writeByte_moves hi hw
  | size =>
    obtain ⟨d, -, he⟩ := Option.map_eq_some_iff.mp hs
    obtain ⟨-, rfl⟩ := Prod.mk.inj he
    exact hi.stays
  | grow os delta =>
    obtain ⟨q, -, hs⟩ := Option.bind_eq_some_iff.mp hs
    obtain ⟨⟨result, h⟩, hgrow, he⟩ := Option.map_eq_some_iff.mp hs
    obtain ⟨-, rfl⟩ := Prod.mk.inj he
    exact hi.moves (memoryGrow_inside hgrow)

omit [DecidableEq Sig] in
theorem wasmOp_moves (hi : Inv c.host s) {k index : Nat} {op : WasmOp} {r : Result Sig}
    (hs : wasmOp c s k index op = some (r, s')) : Moves c s s' := by
  cases op with
  | load at' =>
    obtain ⟨p, -, hs⟩ := Option.bind_eq_some_iff.mp hs
    obtain ⟨d, -, hs⟩ := Option.bind_eq_some_iff.mp hs
    obtain ⟨m, -, he⟩ := Option.map_eq_some_iff.mp hs
    obtain ⟨-, rfl⟩ := Prod.mk.inj he
    exact hi.stays
  | store at' byte =>
    obtain ⟨p, -, hs⟩ := Option.bind_eq_some_iff.mp hs
    obtain ⟨⟨success, s₁⟩, hw, he⟩ := Option.map_eq_some_iff.mp hs
    obtain ⟨-, rfl⟩ := Prod.mk.inj he
    exact writeByte_moves hi hw
  | size =>
    obtain ⟨q, -, hs⟩ := Option.bind_eq_some_iff.mp hs
    obtain ⟨m, -, he⟩ := Option.map_eq_some_iff.mp hs
    obtain ⟨-, rfl⟩ := Prod.mk.inj he
    exact hi.stays
  | grow os delta =>
    obtain ⟨q, -, hs⟩ := Option.bind_eq_some_iff.mp hs
    obtain ⟨⟨result, h⟩, hgrow, he⟩ := Option.map_eq_some_iff.mp hs
    obtain ⟨-, rfl⟩ := Prod.mk.inj he
    exact hi.moves (memoryGrow_inside hgrow)

/-- One operation makes steps of instances. -/
theorem exec_moves (hi : Inv c.host s) {e : Event Sig} {r : Result Sig}
    (hs : exec c s e = some (r, s')) : Moves c s s' := by
  cases e with
  | table hd op => exact tableOp_moves hi hs
  | memory hd op => exact memoryOp_moves hi hs
  | callIndirect k index at' =>
    obtain ⟨p, -, hs⟩ := Option.bind_eq_some_iff.mp hs
    obtain ⟨d, -, hs⟩ := Option.bind_eq_some_iff.mp hs
    obtain ⟨t, -, he⟩ := Option.map_eq_some_iff.mp hs
    obtain ⟨-, rfl⟩ := Prod.mk.inj he
    exact hi.stays
  | wasm k index op => exact wasmOp_moves hi hs

end

/-! ## What a name stands for -/

section

variable {host : Host} {h : Heap Sig} {k index : Nat} {i : Placed Sig}

/-- A table index below the plans stands for a table, with the instance that has it. -/
theorem lookupDefinition_table (hi : InstanceOk host h i) (hk : h[k]? = some i)
    (hlt : index < i.module.tablePlans.length) :
    ∃ p t, Instance.lookupDefinition k (i.module.definedTableIndex index)
      i.vmctx.imports.tables[index]? = some (p, p.vmctx) ∧ tableAt h p = some t := by
  cases hd : i.module.definedTableIndex index with
  | some d =>
    have hidx := Module.definedIndex_eq_some.mp hd
    have hlen : d < i.tables.length := by
      rw [hi.inv.tables_length]
      omega
    refine ⟨⟨k, d⟩, i.tables[d], rfl, ?_⟩
    rw [tableAt, hk, Option.bind_some, List.getElem?_eq_getElem hlen]
  | none =>
    have hidx := Module.definedIndex_eq_none.mp hd
    rw [← hi.importedTables] at hidx
    have himp := List.getElem?_eq_getElem hidx
    obtain ⟨hsrc, hsome⟩ := hi.tables index _ himp
    obtain ⟨t, ht⟩ := Option.isSome_iff_exists.mp hsome
    refine ⟨i.vmctx.imports.tables[index].source, t, ?_, ht⟩
    rw [himp, hsrc]
    rfl

/-- A memory index below the plans stands for a memory, with the instance that has it. -/
theorem lookupDefinition_memory (hi : InstanceOk host h i) (hk : h[k]? = some i)
    (hlt : index < i.module.memoryPlans.length) :
    ∃ p m, Instance.lookupDefinition k (i.module.definedMemoryIndex index)
      i.vmctx.imports.memories[index]? = some (p, p.vmctx) ∧ memoryAt h p = some m := by
  cases hd : i.module.definedMemoryIndex index with
  | some d =>
    have hidx := Module.definedIndex_eq_some.mp hd
    have hlen : d < i.memories.length := by
      rw [hi.inv.memories_length]
      omega
    refine ⟨⟨k, d⟩, i.memories[d], rfl, ?_⟩
    rw [memoryAt, hk, Option.bind_some, List.getElem?_eq_getElem hlen]
  | none =>
    have hidx := Module.definedIndex_eq_none.mp hd
    rw [← hi.importedMemories] at hidx
    have himp := List.getElem?_eq_getElem hidx
    obtain ⟨hsrc, hsome⟩ := hi.memories index _ himp
    obtain ⟨m, hm⟩ := Option.isSome_iff_exists.mp hsome
    refine ⟨i.vmctx.imports.memories[index].source, m, ?_, hm⟩
    rw [himp, hsrc]
    rfl

variable (hi : ∀ (k : Nat) i, h[k]? = some i → InstanceOk host h i)

include hi

/-- What is exported as a table is there, in the instance it is exported with. -/
theorem exports_table {p : DefinitionPtr} {v : Nat} {plan : TablePlan}
    (he : Exports h k (.table p v plan)) : p.vmctx = v ∧ (tableAt h p).isSome := by
  obtain ⟨i, name, d, hk, -, hl⟩ := he
  obtain ⟨index, -, hplan, hdef⟩ := World.lookup_table hl
  have hlt := (List.getElem?_eq_some_iff.mp hplan).1
  obtain ⟨q, t, hq, ht⟩ := lookupDefinition_table (hi k i hk) hk hlt
  obtain ⟨rfl, rfl⟩ := Prod.mk.inj (Option.some.inj (hq.symm.trans hdef))
  exact ⟨rfl, by rw [ht]; rfl⟩

/-- What is exported as a memory is there, in the instance it is exported with. -/
theorem exports_memory {p : DefinitionPtr} {v : Nat} {plan : MemoryPlan}
    (he : Exports h k (.memory p v plan)) : p.vmctx = v ∧ (memoryAt h p).isSome := by
  obtain ⟨i, name, d, hk, -, hl⟩ := he
  obtain ⟨index, -, hplan, hdef⟩ := World.lookup_memory hl
  have hlt := (List.getElem?_eq_some_iff.mp hplan).1
  obtain ⟨q, m, hq, hm⟩ := lookupDefinition_memory (hi k i hk) hk hlt
  obtain ⟨rfl, rfl⟩ := Prod.mk.inj (Option.some.inj (hq.symm.trans hdef))
  exact ⟨rfl, by rw [hm]; rfl⟩

end

/-! ## Runs of a store -/

section

variable [DecidableEq Sig] (c : Config)

/-- One step: a module of the host or of a wasm file is instantiated, an instance makes a step of its
own, a signature is registered, or an operation is done. -/
inductive Step : State Sig → State Sig → Prop
  | instantiate {s : State Sig} {module : Module Sig} {resolve : Resolver Sig}
      {g : InstanceHandle.Given Sig} {registry : SignatureRegistry Sig} {store : Runtime.Store Sig}
      (hg : g.host = c.host) (hr : (Heap.world s.store.heap).Provides resolve)
      (hl : linkModule resolve module = .ok g.imports)
      (hs : s.signatures.registry.registerAll c.debugAssertions module.signatures =
        some (g.vmsharedSignatures, registry))
      (hstart : ∀ me h, Relation.ReflTransGen (Inside g.host) h (g.start me h).1)
      (hn : InstanceHandle.leaves (InstanceHandle.new g module s.store) = some store) :
      Step s ⟨store, { s.signatures with registry }⟩
  | inside {s : State Sig} {h : Heap Sig} (hs : Inside c.host s.store.heap h) :
      Step s { s with store := { s.store with heap := h } }
  | register {s : State Sig} {signature : Sig} {id : UInt32} {signatures : Signatures Sig}
      (hr : registerCraneliftSignature c s.signatures signature = some (id, signatures)) :
      Step s { s with signatures }
  | exec {s s' : State Sig} {e : Event Sig} {r : Result Sig} (he : exec c s e = some (r, s')) :
      Step s s'

/-- The state of a new store. -/
def State.new : State Sig := ⟨⟨[], []⟩, ⟨.new, fun _ => none⟩⟩

/-- The states that can be reached. -/
def Reachable (s : State Sig) : Prop := Relation.ReflTransGen (Step c) .new s

variable {c} {s s' : State Sig}

/-- What a new instance was linked to is there. -/
theorem instanceOk_allocate {module : Module Sig} {resolve : Resolver Sig}
    {g : InstanceHandle.Given Sig} {i : Placed Sig} (hi : Inv g.host s)
    (hr : (Heap.world s.store.heap).Provides resolve)
    (hl : linkModule resolve module = .ok g.imports)
    (ha : InstanceHandle.allocate g module = .ok i) : InstanceOk g.host s.store.heap i := by
  obtain ⟨hinv, hmod, himp⟩ := Instance.inv_new (allocate_ok ha).1
  obtain ⟨htables, hmemories, htable, hmemory⟩ := linkModule_ok hl
  constructor
  · exact hinv
  · rw [himp, hmod]
    exact htables
  · rw [himp, hmod]
    exact hmemories
  · rw [himp]
    intro j imp hj
    obtain ⟨name, field, hlink⟩ := htable j imp hj
    obtain ⟨_, _, hres, -, -⟩ := linkTable_ok hlink
    obtain ⟨k, hexp⟩ := exports_of_published (hr _ _ _ hres)
    exact exports_table hi.instances hexp
  · rw [himp]
    intro j imp hj
    obtain ⟨name, field, hlink⟩ := hmemory j imp hj
    obtain ⟨_, _, hres, -, -, -⟩ := linkMemory_ok hlink
    obtain ⟨k, hexp⟩ := exports_of_published (hr _ _ _ hres)
    exact exports_memory hi.instances hexp

/-- One step keeps the invariant. -/
theorem Step.inv (hi : Inv c.host s) (hs : Step c s s') : Inv c.host s' := by
  cases hs with
  | instantiate hg hr hl hreg hstart hn =>
    rename_i module resolve g registry store
    have hsig : Signatures.Ok { s.signatures with registry } := by
      obtain ⟨hok, -, hkeep, -⟩ := SignatureRegistry.registerAll_spec hi.signatures.registry hreg
      exact ⟨hok, fun id sig hid => hkeep _ (hi.signatures.cache id sig hid)⟩
    refine ⟨?_, hsig⟩
    rw [← hg] at hi ⊢
    obtain rfl | ⟨i, ha, hsteps⟩ := new_inside hstart hn
    · exact hi.instances
    · refine insideStar_instances hsteps fun k j hk => ?_
      have hgrows := grows_snoc s.store.heap i
      by_cases hlt : k < s.store.heap.length
      · rw [List.getElem?_append_left hlt] at hk
        exact (hi.instances k j hk).mono hgrows
      · rw [List.getElem?_append_right (Nat.not_lt.mp hlt)] at hk
        obtain ⟨hz, rfl⟩ := List.getElem?_eq_some_iff.mp hk
        rw [List.getElem_singleton]
        exact (instanceOk_allocate hi hr hl ha).mono hgrows
  | inside hs => exact (hi.moves hs).inv hi
  | register hr => exact ⟨hi.instances, (registerCraneliftSignature_spec hi.signatures hr).1⟩
  | exec he => exact (exec_moves hi he).inv hi

/-- Every state that can be reached satisfies the invariant. -/
theorem Reachable.inv (hr : Reachable c s) : Inv c.host s := by
  unfold Reachable at hr
  induction hr with
  | refl =>
    refine ⟨fun k i hk => absurd hk (by simp [State.new]), SignatureRegistry.ok_new, ?_⟩
    exact fun id sig hid => absurd hid (by simp [State.new])
  | tail _ hstep ih => exact hstep.inv ih

end

/-! ## Operations on the abstract store -/

/-- The event names something that is there: a handle was got from an export, and compiled code uses
indices of its module. -/
def Event.Valid (h : Heap Sig) : Event Sig → Prop
  | .table hd _ => ∃ v plan, Exports h hd.handle (.table hd.definition v plan)
  | .memory hd _ => ∃ v plan, Exports h hd.handle (.memory hd.definition v plan)
  | .callIndirect k index _ => ∃ i, h[k]? = some i ∧ index < i.module.tablePlans.length
  | .wasm k index _ => ∃ i, h[k]? = some i ∧ index < i.module.memoryPlans.length

/-- The handle is of the instance that has the definition. -/
def Handle.Own (hd : Handle) : Prop := hd.handle = hd.definition.vmctx

/-- The signature of an entry is in `signature_cache`. -/
def Readable (s : Signatures Sig) (item : Option VMCallerCheckedAnyfunc) : Prop :=
  ∀ e, item = some e → e.typeIndex ≠ defaultSignatureIndex → (s.cache e.typeIndex).isSome

section

variable [DecidableEq Sig] (c : Config)

/-- The value is a reference, and its signature can be registered. -/
def Storable (s : Signatures Sig) (v : Val Sig) : Prop :=
  v ≠ .other ∧
    ∀ f, v = .funcRef f → (s.registry.register c.debugAssertions f.signature).isSome

/-- What an operation of `Table` needs to act on the table it names. -/
def TableOp.Meets (s : State Sig) (hd : Handle) : TableOp Sig → Prop
  | .get index => hd.Own ∧ ∀ t, tableAt s.store.heap hd.definition = some t →
      ∃ item, t.vec[index.toNat]? = some item ∧ Readable s.signatures item
  | .set _ v => hd.Own ∧ Storable c s.signatures v
  | .size => True
  | .grow _ delta init => hd.Own ∧ ∀ t, tableAt s.store.heap hd.definition = some t →
      HasRoom t delta → delta ≠ 0 → Storable c s.signatures init

/-- What an operation needs to act on the object it names. -/
def Event.Meets (s : State Sig) : Event Sig → Prop
  | .table hd op => op.Meets c s hd
  | .memory hd (.grow _ delta) => hd.Own ∧ ∀ m, memoryAt s.store.heap hd.definition = some m →
      ¬ m.ReachesMappingEnd delta
  | .wasm k index (.grow _ delta) => ∀ p m, memoryName s.store.heap k index = some p →
      memoryAt s.store.heap p = some m → ¬ m.ReachesMappingEnd delta
  | _ => True

end

namespace Objects

variable {o : Objects Sig} {p : DefinitionPtr}

end Objects

theorem Readable.fromCheckedAnyfunc {s : Signatures Sig} {item : Option VMCallerCheckedAnyfunc}
    (hr : Readable s item) : ∃ v, Api.fromCheckedAnyfunc s item = some v := by
  cases item with
  | none => exact ⟨.null, rfl⟩
  | some e =>
    rw [Api.fromCheckedAnyfunc]
    by_cases hd : e.typeIndex = defaultSignatureIndex
    · exact ⟨.null, if_pos hd⟩
    · obtain ⟨sig, hsig⟩ := Option.isSome_iff_exists.mp (hr e rfl hd)
      rw [if_neg hd, hsig]
      exact ⟨_, rfl⟩

section

variable [DecidableEq Sig] {c : Config} {s : State Sig}

theorem Storable.intoCheckedAnyfunc {s : Signatures Sig} {v : Val Sig} (hv : Storable c s v) :
    ∃ item s', Api.intoCheckedAnyfunc c s v = some (item, s') := by
  cases v with
  | null => exact ⟨none, s, rfl⟩
  | funcRef f =>
    obtain ⟨⟨id, registry⟩, hreg⟩ := Option.isSome_iff_exists.mp (hv.2 f rfl)
    rw [Api.intoCheckedAnyfunc, registerCraneliftSignature, hreg]
    exact ⟨_, _, rfl⟩
  | other => exact absurd rfl hv.1

/-- The operation does in the heap what it does in the abstract store. -/
def Agrees (c : Config) (s : State Sig) (e : Event Sig) : Prop :=
  ∃ r s', exec c s e = some (r, s') ∧ (objects s).step c e = some (r, objects s')

end

/-! ## Whole runs -/

/-- What an event names stays there. -/
theorem Event.Valid.mono {h h' : Heap Sig} (hk : Keeps h h') {e : Event Sig} (hv : e.Valid h) :
    e.Valid h' := by
  cases e with
  | table hd op =>
    obtain ⟨v, plan, he⟩ := hv
    exact ⟨v, plan, he.mono hk⟩
  | memory hd op =>
    obtain ⟨v, plan, he⟩ := hv
    exact ⟨v, plan, he.mono hk⟩
  | callIndirect k index at' =>
    obtain ⟨i, hi, hlt⟩ := hv
    obtain ⟨i', hi', hkept⟩ := hk k i hi
    exact ⟨i', hi', by rw [hkept.module]; exact hlt⟩
  | wasm k index op =>
    obtain ⟨i, hi, hlt⟩ := hv
    obtain ⟨i', hi', hkept⟩ := hk k i hi
    exact ⟨i', hi', by rw [hkept.module]; exact hlt⟩

section

variable [DecidableEq Sig] (c : Config)

/-- A sequence of operations, with their results. -/
def run : State Sig → List (Event Sig) → Option (List (Result Sig) × State Sig)
  | s, [] => some ([], s)
  | s, e :: es => (exec c s e).bind fun (r, s) => (run s es).map fun (rs, s) => (r :: rs, s)

variable {c} {s : State Sig}

end

/-- A module with a table of one entry, exported. -/
def exporter : Module Unit :=
  { (Module.new : Module Unit) with
    tablePlans := [⟨⟨.func, 1, none⟩, .callerChecksSignature⟩]
    exports := [("t", .table 0)] }

/-- The host, with every `VMContext` at its own place. -/
def config : Config := ⟨LinearMemory.host4K, fun k => BitVec.ofNat 64 (0x10000 * (k + 1)), false⟩

/-- What the host gives to an instance that is linked to `imports`. -/
def givenTable (imports : Imports) : InstanceHandle.Given Unit where
  host := config.host
  os := fun _ => ⟨none, false⟩
  alloc := id
  mapped := true
  addr := config.addr
  finishedFunctions := []
  imports := imports
  dataInitializers := []
  vmsharedSignatures := []
  start := fun _ h => (h, none)

/-- The store with an instance of `exporter`. -/
def exported : State Unit :=
  { (State.new : State Unit) with
    store := (InstanceHandle.leaves
      (InstanceHandle.new (givenTable ⟨[], [], [], []⟩) exporter ⟨[], []⟩)).getD ⟨[], []⟩ }

end Wasmtime.Api
