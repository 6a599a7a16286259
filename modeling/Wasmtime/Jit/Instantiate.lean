import Wasmtime.Jit.World
import Wasmtime.Runtime.Initialize

/-!
# Instantiation over whole runs

`instantiate` (`wasmtime-jit/src/instantiate.rs`) translates and links a module and hands it to
`InstanceHandle::new`. A run of a store is any sequence of instantiations, successful or not, and of
steps of the instances in it: growing, stores to memories, tables and globals.

* Without the contents that only instantiation reads, a heap is a world (`Heap.world`), and every step
  of a store is a sequence of steps of the world, so the invariant of a world holds of it.
* `PlacedOk` adds what the initializers rely on: the lengths of the arrays, and that an imported table
  or memory lies in the instance the import names.

Results:
* `Reachable.inv`: every store that can be reached satisfies the invariant.
* `tablePtr_eq`, `memoryPtr_eq`: going from the address of an imported definition back to its index
  finds the definition.
* `instantiation_atomic`: a link error changes nothing, and initializers that fit are replayed in
  module order.
-/

namespace Wasmtime.Jit

open Environ Wasmtime.Runtime

variable {Sig : Type}

/-- The instances of a heap, without what only instantiation reads. -/
def Heap.world (h : Heap Sig) : World Sig VMCallerCheckedAnyfunc := h.map Placed.toInstance

theorem Heap.world_getElem? (h : Heap Sig) (k : Nat) :
    (Heap.world h)[k]? = h[k]?.map Placed.toInstance := List.getElem?_map

/-- A step of an instance of a heap. -/
inductive Inside (host : Host) : Heap Sig → Heap Sig → Prop
  | step {h : Heap Sig} {k : Nat} {i : Placed Sig} {j : Instance Sig VMCallerCheckedAnyfunc}
      (hk : h[k]? = some i) (hs : Instance.Step host i.toInstance j) :
      Inside host h (h.set k { i with toInstance := j })
  | storeGlobal {h : Heap Sig} {k index : Nat} {i : Placed Sig} {value : BitVec 128}
      (hk : h[k]? = some i) : Inside host h (h.set k { i with globals := i.globals.set index value })

/-- What `instantiate` hands to `InstanceHandle::new`: a translated module, linked against exports of
the instances there are, with an address for each of its functions and an id for each of its
signatures. The start function makes steps of instances. -/
structure Prepared [DecidableEq Sig] (translateSignature : Sig → Sig) (tunables : Tunables)
    (s : Store Sig) (t : ModuleTranslation Sig) (resolve : Resolver Sig)
    (g : InstanceHandle.Given Sig) : Prop where
  translated : Translated translateSignature tunables t
  provides : (Heap.world s.heap).Provides resolve
  linked : linkModule resolve t.module = .ok g.imports
  finished : g.finishedFunctions.length = t.module.functions.length - t.module.importedFuncs.length
  signatures : g.vmsharedSignatures.length = t.module.signatures.length
  start : ∀ me h, Relation.ReflTransGen (Inside g.host) h (g.start me h).1

/-- One step of a store. -/
inductive Store.Step [DecidableEq Sig] (translateSignature : Sig → Sig) (host : Host)
    (tunables : Tunables) : Store Sig → Store Sig → Prop
  | instantiate {s s' : Store Sig} {t : ModuleTranslation Sig} {resolve : Resolver Sig}
      {g : InstanceHandle.Given Sig} (hg : g.host = host)
      (hp : Prepared translateSignature tunables s t resolve g)
      (hn : InstanceHandle.leaves (InstanceHandle.new g t.module s) = some s') :
      Step translateSignature host tunables s s'
  | inside {s : Store Sig} {h : Heap Sig} (hi : Inside host s.heap h) :
      Step translateSignature host tunables s { s with heap := h }

/-- The stores that can be reached. -/
def Store.Reachable [DecidableEq Sig] (translateSignature : Sig → Sig) (host : Host)
    (tunables : Tunables) (s : Store Sig) : Prop :=
  Relation.ReflTransGen (Store.Step translateSignature host tunables) ⟨[], []⟩ s

/-! ## The invariant of a heap -/

/-- A function with this address and `VMContext` is defined with this signature. -/
def DefinesFunction (h : Heap Sig) (body vmctx : Nat) (signature : Sig) : Prop :=
  ∃ (o : Placed Sig) (d : Nat) (s : UInt32), h[vmctx]? = some o ∧
    o.finishedFunctions[d]? = some body ∧ o.module.functions[o.module.funcIndex d]? = some s ∧
    o.module.signatures[s.toNat]? = some signature

/-- What the initializers of an instance rely on. -/
structure PlacedOk (h : Heap Sig) (i : Placed Sig) : Prop where
  signatureIds : i.signatureIds.length = i.module.signatures.length
  finished : i.finishedFunctions.length = i.module.functions.length - i.module.importedFuncs.length
  globals : i.globals.length = i.module.globals.length - i.module.importedGlobals.length
  importedFuncs : i.vmctx.imports.functions.length = i.module.importedFuncs.length
  importedTables : i.vmctx.imports.tables.length = i.module.importedTables.length
  importedMemories : i.vmctx.imports.memories.length = i.module.importedMemories.length
  importedGlobals : i.vmctx.imports.globals.length = i.module.importedGlobals.length
  functionImport : ∀ (j : Nat) imp, i.vmctx.imports.functions[j]? = some imp →
    ∃ s signature, i.module.functions[j]? = some s ∧ i.module.signatures[s.toNat]? = some signature ∧
      DefinesFunction h imp.body imp.vmctx signature
  tableImport : ∀ (j : Nat) imp, i.vmctx.imports.tables[j]? = some imp →
    imp.source.vmctx = imp.vmctx
  memoryImport : ∀ (j : Nat) imp, i.vmctx.imports.memories[j]? = some imp →
    imp.source.vmctx = imp.vmctx
  globalImport : ∀ (j : Nat) p, i.vmctx.imports.globals[j]? = some p →
    ∃ o, h[p.vmctx]? = some o ∧ p.index < o.globals.length

/-- The invariant of a heap. -/
structure HeapInv (host : Host) (tunables : Tunables) (h : Heap Sig) : Prop where
  world : (Heap.world h).Inv host tunables
  placed : ∀ (k : Nat) i, h[k]? = some i → PlacedOk h i

/-- What an instance keeps through a run. -/
structure Kept (i i' : Placed Sig) : Prop where
  module : i'.module = i.module
  imports : i'.vmctx.imports = i.vmctx.imports
  finishedFunctions : i'.finishedFunctions = i.finishedFunctions
  signatureIds : i'.signatureIds = i.signatureIds
  globals : i'.globals.length = i.globals.length

/-- Every instance of a heap is still there in the other. -/
def Keeps (h h' : Heap Sig) : Prop := ∀ (k : Nat) i, h[k]? = some i → ∃ i', h'[k]? = some i' ∧ Kept i i'

theorem Kept.refl (i : Placed Sig) : Kept i i := ⟨rfl, rfl, rfl, rfl, rfl⟩

theorem keeps_snoc (h : Heap Sig) (i : Placed Sig) : Keeps h (h ++ [i]) := by
  intro k j hk
  have hlt := (List.getElem?_eq_some_iff.mp hk).1
  exact ⟨j, by rw [List.getElem?_append_left hlt]; exact hk, .refl j⟩

theorem keeps_set {h : Heap Sig} {k : Nat} {i i' : Placed Sig} (hk : h[k]? = some i)
    (hi : Kept i i') : Keeps h (h.set k i') := by
  intro j b hb
  by_cases hj : k = j
  · subst hj
    obtain rfl := Option.some.inj (hk.symm.trans hb)
    have hlt := (List.getElem?_eq_some_iff.mp hk).1
    exact ⟨i', List.getElem?_set_self hlt, hi⟩
  · exact ⟨b, by rw [List.getElem?_set_ne hj]; exact hb, .refl b⟩

theorem DefinesFunction.mono {h h' : Heap Sig} (hk : Keeps h h') {body vmctx : Nat} {signature : Sig}
    (hd : DefinesFunction h body vmctx signature) : DefinesFunction h' body vmctx signature := by
  obtain ⟨o, d, s, ho, hb, hs, hsig⟩ := hd
  obtain ⟨o', ho', hkept⟩ := hk _ o ho
  refine ⟨o', d, s, ho', ?_, ?_, ?_⟩
  · rw [hkept.finishedFunctions]
    exact hb
  · rw [hkept.module]
    exact hs
  · rw [hkept.module]
    exact hsig

theorem PlacedOk.mono {h h' : Heap Sig} {i i' : Placed Sig} (hi : PlacedOk h i) (hk : Keeps h h')
    (hkept : Kept i i') : PlacedOk h' i' := by
  obtain ⟨hm, himp, hf, hs, hg⟩ := hkept
  constructor
  · rw [hs, hm]
    exact hi.signatureIds
  · rw [hf, hm]
    exact hi.finished
  · rw [hg, hm]
    exact hi.globals
  · rw [himp, hm]
    exact hi.importedFuncs
  · rw [himp, hm]
    exact hi.importedTables
  · rw [himp, hm]
    exact hi.importedMemories
  · rw [himp, hm]
    exact hi.importedGlobals
  · rw [himp, hm]
    intro j imp hj
    obtain ⟨s, signature, h1, h2, hd⟩ := hi.functionImport j imp hj
    exact ⟨s, signature, h1, h2, hd.mono hk⟩
  · rw [himp]
    exact hi.tableImport
  · rw [himp]
    exact hi.memoryImport
  · rw [himp]
    intro j p hj
    obtain ⟨o, ho, hlt⟩ := hi.globalImport j p hj
    obtain ⟨o', ho', hkept'⟩ := hk _ o ho
    exact ⟨o', ho', hkept'.globals ▸ hlt⟩

/-! ## What an instance exports -/

/-- An export of an instance. -/
def Exports (h : Heap Sig) (k : Nat) (e : ExportValue Sig) : Prop :=
  ∃ (i : Placed Sig) (name : String) (d : Environ.Export), h[k]? = some i ∧
    (name, d) ∈ i.module.exports ∧ i.lookupByDeclaration k d = some e

theorem exports_of_published {h : Heap Sig} {e : ExportValue Sig} (hp : (Heap.world h).Published e) :
    ∃ k, Exports h k e := by
  obtain ⟨k, i, name, d, hk, hd, hl⟩ := hp
  rw [Heap.world_getElem?] at hk
  obtain ⟨j, hj, rfl⟩ := Option.map_eq_some_iff.mp hk
  exact ⟨k, j, name, d, hj, hd, hl⟩

theorem lookupByDeclaration_kept {i i' : Placed Sig} (hk : Kept i i') (k : Nat)
    (d : Environ.Export) : i'.lookupByDeclaration k d = i.lookupByDeclaration k d := by
  cases d with
  | function index =>
    simp only [Instance.lookupByDeclaration, Instance.lookupFunction, hk.module, hk.imports,
      hk.finishedFunctions]
  | table index => simp only [Instance.lookupByDeclaration, hk.module, hk.imports]
  | memory index => simp only [Instance.lookupByDeclaration, hk.module, hk.imports]
  | global index =>
    simp only [Instance.lookupByDeclaration, Instance.lookupGlobal, hk.module, hk.imports]

theorem Exports.mono {h h' : Heap Sig} (hk : Keeps h h') {k : Nat} {e : ExportValue Sig}
    (he : Exports h k e) : Exports h' k e := by
  obtain ⟨i, name, d, hi, hd, hl⟩ := he
  obtain ⟨i', hi', hkept⟩ := hk k i hi
  refine ⟨i', name, d, hi', ?_, ?_⟩
  · rw [hkept.module]
    exact hd
  · rw [lookupByDeclaration_kept hkept]
    exact hl

/-! ## Steps keep the invariant -/

section

variable {host : Host} {tunables : Tunables} {h h' : Heap Sig}

theorem forall_placed_set {k : Nat} {i i' : Placed Sig} (hk : h[k]? = some i) (hkept : Kept i i')
    (hp : ∀ (j : Nat) b, h[j]? = some b → PlacedOk h b) :
    ∀ (j : Nat) b, (h.set k i')[j]? = some b → PlacedOk (h.set k i') b := by
  have hkeeps := keeps_set hk hkept
  refine Instance.forall_getElem?_set (fun j b hb => ?_) ?_
  · exact (hp j b hb).mono hkeeps (.refl b)
  · exact (hp k i hk).mono hkeeps hkept

/-- A step of an instance is a step of the world, or leaves it alone. -/
theorem Inside.kept (hs : Inside host h h') :
    ∃ (k : Nat) (i i' : Placed Sig), h[k]? = some i ∧ h' = h.set k i' ∧ Kept i i' ∧
      (i'.toInstance = i.toInstance ∨ Instance.Step host i.toInstance i'.toInstance) := by
  cases hs with
  | step hk hs =>
    obtain ⟨hm, -, himp, hf⟩ := hs.frame
    exact ⟨_, _, _, hk, rfl, ⟨hm, himp, hf, rfl, rfl⟩, Or.inr hs⟩
  | storeGlobal hk =>
    exact ⟨_, _, _, hk, rfl, ⟨rfl, rfl, rfl, rfl, List.length_set ..⟩, Or.inl rfl⟩

theorem Heap.world_set (h : Heap Sig) (k : Nat) (i : Placed Sig) :
    Heap.world (h.set k i) = (Heap.world h).set k i.toInstance := List.map_set

theorem Inside.keeps (hs : Inside host h h') : Keeps h h' := by
  obtain ⟨k, i, i', hk, rfl, hkept, -⟩ := hs.kept
  exact keeps_set hk hkept

theorem Inside.inv [DecidableEq Sig] (hs : Inside host h h') (hi : HeapInv host tunables h) :
    HeapInv host tunables h' := by
  obtain ⟨k, i, i', hk, rfl, hkept, hw⟩ := hs.kept
  refine ⟨?_, forall_placed_set hk hkept hi.placed⟩
  have hworld : (Heap.world h)[k]? = some i.toInstance := by
    rw [Heap.world_getElem?, hk, Option.map_some]
  rw [Heap.world_set]
  rcases hw with he | hstep
  · rw [he]
    have hlt := (List.getElem?_eq_some_iff.mp hworld).1
    have hget : i.toInstance = (Heap.world h)[k] := (List.getElem?_eq_some_iff.mp hworld).2.symm
    rw [hget, List.set_getElem_self]
    exact hi.world
  · have hworldStep : World.Step (id : Sig → Sig) host tunables _ _ := .inside hworld hstep
    exact hworldStep.inv hi.world

theorem insideStar_inv [DecidableEq Sig] (hs : Relation.ReflTransGen (Inside host) h h')
    (hi : HeapInv host tunables h) : HeapInv host tunables h' := by
  induction hs with
  | refl => exact hi
  | tail _ hstep ih => exact hstep.inv ih

/-! ## What an instance publishes -/

/-- What an instance publishes as a function is defined with the signature it is published with. -/
theorem published_function (hp : ∀ (k : Nat) i, h[k]? = some i → PlacedOk h i) {body vmctx : Nat}
    {signature : Sig} (hpub : (Heap.world h).Published (.function body vmctx signature)) :
    DefinesFunction h body vmctx signature := by
  obtain ⟨k, i₀, name, d, hk, -, hl⟩ := hpub
  rw [Heap.world_getElem?] at hk
  obtain ⟨i, hi, rfl⟩ := Option.map_eq_some_iff.mp hk
  cases d with
  | function index =>
    obtain ⟨sig, hsig, hl⟩ := Option.bind_eq_some_iff.mp hl
    obtain ⟨s, hs, hsig⟩ := Option.bind_eq_some_iff.mp hsig
    obtain ⟨⟨address, v⟩, hf, hl⟩ := Option.map_eq_some_iff.mp hl
    obtain ⟨rfl, rfl, rfl⟩ := ExportValue.function.inj hl
    unfold Instance.lookupFunction at hf
    cases hd : i.module.definedFuncIndex index.toNat with
    | some d =>
      rw [hd] at hf
      obtain ⟨b, hb, he⟩ := Option.map_eq_some_iff.mp hf
      obtain ⟨rfl, rfl⟩ := Prod.mk.inj he
      have hidx : index.toNat = i.module.funcIndex d := Module.definedIndex_eq_some.mp hd
      exact ⟨i, d, s, hi, hb, hidx ▸ hs, hsig⟩
    | none =>
      rw [hd] at hf
      obtain ⟨imp, himp, he⟩ := Option.map_eq_some_iff.mp hf
      obtain ⟨rfl, rfl⟩ := Prod.mk.inj he
      obtain ⟨s', sig', hs', hsig', hdef⟩ := (hp k i hi).functionImport _ imp himp
      obtain rfl := Option.some.inj (hs.symm.trans hs')
      obtain rfl := Option.some.inj (hsig.symm.trans hsig')
      exact hdef
  | table index =>
    obtain ⟨_, -, hl⟩ := Option.bind_eq_some_iff.mp hl
    obtain ⟨_, -, hl⟩ := Option.map_eq_some_iff.mp hl
    exact absurd hl (by simp)
  | memory index =>
    obtain ⟨_, -, hl⟩ := Option.bind_eq_some_iff.mp hl
    obtain ⟨_, -, hl⟩ := Option.map_eq_some_iff.mp hl
    exact absurd hl (by simp)
  | global index =>
    obtain ⟨_, -, hl⟩ := Option.bind_eq_some_iff.mp hl
    obtain ⟨_, -, hl⟩ := Option.map_eq_some_iff.mp hl
    exact absurd hl (by simp)

/-- A published table lies in the instance it is published with. -/
theorem published_table_vmctx (hp : ∀ (k : Nat) i, h[k]? = some i → PlacedOk h i) {p : DefinitionPtr}
    {vmctx : Nat} {plan : TablePlan} (hpub : (Heap.world h).Published (.table p vmctx plan)) :
    p.vmctx = vmctx := by
  obtain ⟨k, i₀, name, d, hk, -, hl⟩ := hpub
  rw [Heap.world_getElem?] at hk
  obtain ⟨i, hi, rfl⟩ := Option.map_eq_some_iff.mp hk
  obtain ⟨index, -, -, hdef⟩ := World.lookup_table hl
  unfold Instance.lookupDefinition at hdef
  split at hdef
  · obtain ⟨rfl, rfl⟩ := Prod.mk.inj (Option.some.inj hdef)
    rfl
  · obtain ⟨imp, himp, he⟩ := Option.map_eq_some_iff.mp hdef
    obtain ⟨rfl, rfl⟩ := Prod.mk.inj he
    exact (hp k i hi).tableImport _ imp himp

/-- A published memory lies in the instance it is published with. -/
theorem published_memory_vmctx (hp : ∀ (k : Nat) i, h[k]? = some i → PlacedOk h i) {p : DefinitionPtr}
    {vmctx : Nat} {plan : MemoryPlan} (hpub : (Heap.world h).Published (.memory p vmctx plan)) :
    p.vmctx = vmctx := by
  obtain ⟨k, i₀, name, d, hk, -, hl⟩ := hpub
  rw [Heap.world_getElem?] at hk
  obtain ⟨i, hi, rfl⟩ := Option.map_eq_some_iff.mp hk
  obtain ⟨index, -, -, hdef⟩ := World.lookup_memory hl
  unfold Instance.lookupDefinition at hdef
  split at hdef
  · obtain ⟨rfl, rfl⟩ := Prod.mk.inj (Option.some.inj hdef)
    rfl
  · obtain ⟨imp, himp, he⟩ := Option.map_eq_some_iff.mp hdef
    obtain ⟨rfl, rfl⟩ := Prod.mk.inj he
    exact (hp k i hi).memoryImport _ imp himp

/-- A published global is there. -/
theorem published_global (hp : ∀ (k : Nat) i, h[k]? = some i → PlacedOk h i) {p : DefinitionPtr}
    {vmctx : Nat} {global : Global} (hpub : (Heap.world h).Published (.global p vmctx global)) :
    ∃ o, h[p.vmctx]? = some o ∧ p.index < o.globals.length := by
  obtain ⟨k, i₀, name, d, hk, -, hl⟩ := hpub
  rw [Heap.world_getElem?] at hk
  obtain ⟨i, hi, rfl⟩ := Option.map_eq_some_iff.mp hk
  cases d with
  | function index =>
    obtain ⟨_, -, hl⟩ := Option.bind_eq_some_iff.mp hl
    obtain ⟨_, -, hl⟩ := Option.map_eq_some_iff.mp hl
    exact absurd hl (by simp)
  | table index =>
    obtain ⟨_, -, hl⟩ := Option.bind_eq_some_iff.mp hl
    obtain ⟨_, -, hl⟩ := Option.map_eq_some_iff.mp hl
    exact absurd hl (by simp)
  | memory index =>
    obtain ⟨_, -, hl⟩ := Option.bind_eq_some_iff.mp hl
    obtain ⟨_, -, hl⟩ := Option.map_eq_some_iff.mp hl
    exact absurd hl (by simp)
  | global index =>
    obtain ⟨g, hg, hl⟩ := Option.bind_eq_some_iff.mp hl
    obtain ⟨q, hq, hl⟩ := Option.map_eq_some_iff.mp hl
    obtain ⟨rfl, -, -⟩ := ExportValue.global.inj hl
    unfold Instance.lookupGlobal at hq
    split at hq
    · rename_i d hd
      obtain rfl := Option.some.inj hq
      refine ⟨i, hi, ?_⟩
      have hidx := Module.definedIndex_eq_some.mp hd
      have hlt := (List.getElem?_eq_some_iff.mp hg).1
      rw [(hp k i hi).globals]
      simp only
      omega
    · exact (hp k i hi).globalImport _ q hq

/-! ## Initializers are steps of instances -/

theorem setElement_inside {p : DefinitionPtr} {at' : Nat} {f : VMCallerCheckedAnyfunc}
    (hs : h.setElement p at' f = some h') : Inside host h h' := by
  obtain ⟨i, hi, hs⟩ := Option.bind_eq_some_iff.mp hs
  obtain ⟨t, ht, hs⟩ := Option.bind_eq_some_iff.mp hs
  obtain ⟨-, hs⟩ := Option.ite_none_right_eq_some.mp hs
  obtain rfl := Option.some.inj hs
  exact .step hi (.storeElement ht)

theorem setByte_inside {p : DefinitionPtr} {at' : Nat} {byte : UInt8}
    (hs : h.setByte p at' byte = some h') : Inside host h h' := by
  obtain ⟨i, hi, hs⟩ := Option.bind_eq_some_iff.mp hs
  obtain ⟨m, hm, hs⟩ := Option.bind_eq_some_iff.mp hs
  obtain ⟨hlt, hs⟩ := Option.ite_none_right_eq_some.mp hs
  obtain rfl := Option.some.inj hs
  exact .step hi (.storeByte hm hlt)

theorem writeElements_inside {me : Nat} {p : DefinitionPtr} {fs : List UInt32} {at' : Nat}
    (hw : Heap.writeElements me p h at' fs = some h') :
    Relation.ReflTransGen (Inside host) h h' := by
  induction fs generalizing h at' with
  | nil =>
    obtain rfl := Option.some.inj hw
    exact .refl
  | cons f fs ih =>
    obtain ⟨e, -, hw⟩ := Option.bind_eq_some_iff.mp hw
    obtain ⟨h₁, hset, hw⟩ := Option.bind_eq_some_iff.mp hw
    exact .head (setElement_inside hset) (ih hw)

theorem writeBytes_inside {p : DefinitionPtr} {bytes : List UInt8} {at' : Nat}
    (hw : Heap.writeBytes p h at' bytes = some h') : Relation.ReflTransGen (Inside host) h h' := by
  induction bytes generalizing h at' with
  | nil =>
    obtain rfl := Option.some.inj hw
    exact .refl
  | cons byte bytes ih =>
    obtain ⟨h₁, hset, hw⟩ := Option.bind_eq_some_iff.mp hw
    exact .head (setByte_inside hset) (ih hw)

theorem initializeTablesLoop_inside {addr : Nat → BitVec 64} {me : Nat} {inits : List TableElements}
    (hw : Heap.initializeTablesLoop addr me h inits = some h') :
    Relation.ReflTransGen (Inside host) h h' := by
  induction inits generalizing h with
  | nil =>
    obtain rfl := Option.some.inj hw
    exact .refl
  | cons init inits ih =>
    obtain ⟨h₁, hround, hw⟩ := Option.bind_eq_some_iff.mp hw
    obtain ⟨start, -, hround⟩ := Option.bind_eq_some_iff.mp hround
    obtain ⟨⟨p, n⟩, -, hround⟩ := Option.bind_eq_some_iff.mp hround
    obtain ⟨-, hround⟩ := Option.ite_none_right_eq_some.mp hround
    exact (writeElements_inside hround).trans (ih hw)

theorem initializeMemories_inside {addr : Nat → BitVec 64} {me : Nat} {inits : List DataInitializer}
    (hw : Heap.initializeMemories addr me h inits = some h') :
    Relation.ReflTransGen (Inside host) h h' := by
  induction inits generalizing h with
  | nil =>
    obtain rfl := Option.some.inj hw
    exact .refl
  | cons init inits ih =>
    obtain ⟨h₁, hround, hw⟩ := Option.bind_eq_some_iff.mp hw
    obtain ⟨start, -, hround⟩ := Option.bind_eq_some_iff.mp hround
    obtain ⟨⟨p, n⟩, -, hround⟩ := Option.bind_eq_some_iff.mp hround
    obtain ⟨-, hround⟩ := Option.ite_none_right_eq_some.mp hround
    exact (writeBytes_inside hround).trans (ih hw)

theorem initializeGlobals_inside {me k : Nat} {globals : List Global}
    (hw : Heap.initializeGlobals me h k globals = some h') :
    Relation.ReflTransGen (Inside host) h h' := by
  induction globals generalizing h k with
  | nil =>
    obtain rfl := Option.some.inj hw
    exact .refl
  | cons global globals ih =>
    obtain ⟨i, hi, hw⟩ := Option.bind_eq_some_iff.mp hw
    obtain ⟨old, -, hw⟩ := Option.bind_eq_some_iff.mp hw
    obtain ⟨value, -, hw⟩ := Option.bind_eq_some_iff.mp hw
    exact .head (.storeGlobal hi) (ih hw)

/-- What `InstanceHandle::new` leaves when it does not panic: the store as it was, or the new instance
at the end of the heap and steps of instances. -/
theorem new_inside {g : InstanceHandle.Given Sig} {module : Module Sig} {s s' : Store Sig}
    (hstart : ∀ me h, Relation.ReflTransGen (Inside g.host) h (g.start me h).1)
    (hn : InstanceHandle.leaves (InstanceHandle.new g module s) = some s') :
    s' = s ∨ ∃ i, InstanceHandle.allocate g module = .ok i ∧
      Relation.ReflTransGen (Inside g.host) (s.heap ++ [i]) s'.heap := by
  rcases InstanceHandle.leaves_new hn with rfl | ⟨i, ha, he | ⟨h₁, h₂, h₃, ht, hm, hg, he⟩⟩
  · exact Or.inl rfl
  · rw [he]
    exact Or.inr ⟨i, ha, .refl⟩
  · obtain ⟨j, -, ht⟩ := Option.bind_eq_some_iff.mp ht
    rw [he]
    exact Or.inr ⟨i, ha, ((initializeTablesLoop_inside ht).trans (initializeMemories_inside hm)).trans
      ((initializeGlobals_inside hg).trans (hstart _ h₃))⟩

/-! ## A new instance keeps the invariant -/

theorem allocate_ok {g : InstanceHandle.Given Sig} {module : Module Sig} {i : Placed Sig}
    (ha : InstanceHandle.allocate g module = .ok i) :
    Instance.new g.host g.os g.alloc module g.finishedFunctions g.imports = .ok i.toInstance ∧
      i.signatureIds = g.vmsharedSignatures ∧
      i.globals.length = module.globals.length - module.importedGlobals.length := by
  obtain ⟨j, hj, ha⟩ := Ending.bind_eq_ok.mp ha
  split at ha
  · obtain rfl := Ending.ok.inj ha
    exact ⟨hj, rfl, List.length_replicate⟩
  · exact absurd ha (by simp)

theorem new_finishedFunctions {os : Nat → Os} {alloc : Nat → Nat} {module : Module Sig}
    {finished : List Nat} {imports : Imports} {j : Instance Sig VMCallerCheckedAnyfunc}
    (hn : Instance.new host os alloc module finished imports = .ok j) :
    j.finishedFunctions = finished := by
  unfold Instance.new at hn
  obtain ⟨_, -, hn⟩ := Ending.bind_eq_ok.mp hn
  obtain ⟨_, -, hn⟩ := Ending.bind_eq_ok.mp hn
  obtain ⟨_, -, hn⟩ := Ending.bind_eq_ok.mp hn
  obtain ⟨_, -, rfl⟩ := Ending.map_eq_ok.mp hn
  rfl

variable [DecidableEq Sig] {translateSignature : Sig → Sig} {s s' : Store Sig}
  {t : ModuleTranslation Sig} {resolve : Resolver Sig} {g : InstanceHandle.Given Sig}

/-- What was linked is there: the new instance satisfies what its initializers rely on. -/
theorem placedOk_allocate (hp : Prepared translateSignature tunables s t resolve g)
    (hi : HeapInv g.host tunables s.heap) {i : Placed Sig}
    (ha : InstanceHandle.allocate g t.module = .ok i) : PlacedOk s.heap i := by
  obtain ⟨hnew, hids, hglobals⟩ := allocate_ok ha
  obtain ⟨-, hmod, himp⟩ := Instance.inv_new hnew
  have hfin := new_finishedFunctions hnew
  obtain ⟨htables, hmemories, htable, hmemory⟩ := linkModule_ok hp.linked
  obtain ⟨hfunctions, hglobalImports, hfunction, hglobal⟩ := linkModule_ok_functions hp.linked
  constructor
  · rw [hids, hmod]
    exact hp.signatures
  · rw [hfin, hmod]
    exact hp.finished
  · rw [hglobals, hmod]
  · rw [himp, hmod]
    exact hfunctions
  · rw [himp, hmod]
    exact htables
  · rw [himp, hmod]
    exact hmemories
  · rw [himp, hmod]
    exact hglobalImports
  · rw [himp, hmod]
    intro j imp hj
    obtain ⟨module, field, hl⟩ := hfunction j imp hj
    obtain ⟨sIdx, signature, hres, hs, hsig⟩ := linkFunction_ok hl
    exact ⟨sIdx, signature, hs, hsig, published_function hi.placed (hp.provides _ _ _ hres)⟩
  · rw [himp]
    intro j imp hj
    obtain ⟨module, field, hl⟩ := htable j imp hj
    obtain ⟨_, _, hres, -, -⟩ := linkTable_ok hl
    exact published_table_vmctx hi.placed (hp.provides _ _ _ hres)
  · rw [himp]
    intro j imp hj
    obtain ⟨module, field, hl⟩ := hmemory j imp hj
    obtain ⟨_, _, hres, -, -, -⟩ := linkMemory_ok hl
    exact published_memory_vmctx hi.placed (hp.provides _ _ _ hres)
  · rw [himp]
    intro j p hj
    obtain ⟨module, field, hl⟩ := hglobal j p hj
    obtain ⟨_, _, hres⟩ := linkGlobal_ok hl
    exact published_global hi.placed (hp.provides _ _ _ hres)

/-- The heap with the new instance satisfies the invariant. -/
theorem inv_allocate (hp : Prepared translateSignature tunables s t resolve g)
    (hi : HeapInv g.host tunables s.heap) {i : Placed Sig}
    (ha : InstanceHandle.allocate g t.module = .ok i) :
    HeapInv g.host tunables (s.heap ++ [i]) := by
  have hkeeps := keeps_snoc s.heap i
  refine ⟨?_, fun k j hk => ?_⟩
  · have hworld : Heap.world (s.heap ++ [i]) = Heap.world s.heap ++ [i.toInstance] := List.map_append
    have hstep : World.Step translateSignature g.host tunables (Heap.world s.heap)
        (Heap.world s.heap ++ [i.toInstance]) :=
      .instantiate hp.translated hp.provides hp.linked (allocate_ok ha).1
    rw [hworld]
    exact hstep.inv hi.world
  · by_cases hlt : k < s.heap.length
    · rw [List.getElem?_append_left hlt] at hk
      exact (hi.placed k j hk).mono hkeeps (.refl j)
    · rw [List.getElem?_append_right (Nat.not_lt.mp hlt)] at hk
      obtain ⟨hz, rfl⟩ := List.getElem?_eq_some_iff.mp hk
      rw [List.getElem_singleton]
      exact (placedOk_allocate hp hi ha).mono hkeeps (.refl i)

/-- One step of a store keeps the invariant. -/
theorem Store.Step.inv (hi : HeapInv host tunables s.heap)
    (hs : Store.Step translateSignature host tunables s s') : HeapInv host tunables s'.heap := by
  cases hs with
  | instantiate hg hp hn =>
    subst hg
    rcases new_inside hp.start hn with rfl | ⟨i, ha, hsteps⟩
    · exact hi
    · exact insideStar_inv hsteps (inv_allocate hp hi ha)
  | inside hs => exact hs.inv hi

/-- Every store that can be reached satisfies the invariant. -/
theorem Store.Reachable.inv (hr : Store.Reachable translateSignature host tunables s) :
    HeapInv host tunables s.heap := by
  unfold Store.Reachable at hr
  induction hr with
  | refl =>
    refine ⟨fun k i hk => ?_, fun k i hk => ?_⟩
    · exact absurd hk (by simp [Heap.world])
    · exact absurd hk (by simp)
  | tail _ hstep ih => exact hstep.inv ih

end

/-! ## Finding an imported definition again -/

section

variable {host : Host} {tunables : Tunables} {h : Heap Sig} {addr : Nat → BitVec 64}

/-- The address of a definition, looked up in the instance it lies in. -/
theorem foreignIndex_eq {begin : VMOffsets → Option Nat} {entry : VMOffsets → Nat → Option Nat}
    {size : Nat → Nat} {len : Placed Sig → Nat} {imp : VMImport} {o : Placed Sig} {b e : Nat}
    (hsrc : imp.source.vmctx = imp.vmctx) (ho : h[imp.vmctx]? = some o)
    (hbegin : begin o.offsets = some b) (hentry : entry o.offsets imp.source.index = some e)
    (he : e = b + imp.source.index * size o.offsets.pointerSize)
    (hsize : 0 < size o.offsets.pointerSize) (hlt : e < 2 ^ 32)
    (hidx : imp.source.index < len o) :
    h.foreignIndex addr begin entry size len imp = some imp.source := by
  subst he
  unfold Heap.foreignIndex
  rw [ho, Option.bind_some, hsrc, ho, Option.bind_some, hentry, Option.bind_some, hbegin,
    indexOfDefinition_entry (by decide) (addr imp.vmctx) hsize hidx hlt, Option.map_some, ← hsrc]

theorem foreignTable_eq {imp : VMImport} {o : Placed Sig} (hsrc : imp.source.vmctx = imp.vmctx)
    (ho : h[imp.vmctx]? = some o) (hinv : o.toInstance.Inv host)
    (hidx : imp.source.index < o.tables.length) : h.foreignTable addr imp = some imp.source := by
  obtain ⟨n, hn⟩ := hinv.size
  have hoff := VMOffsets.new_eq_some hinv.offsets_eq
  have hp : o.offsets.pointerSize = 8 := by rw [hoff]
  have hcount : imp.source.index < o.offsets.numDefinedTables := by
    have hlen := hinv.tables_length
    rw [hoff]
    simp only
    omega
  have hend : arrayEnd o.offsets.vmctxTablesBegin o.offsets.numDefinedTables
      o.offsets.sizeOfVmtableDefinition = some _ := (arrayBegin_eq hn).1 .memories
  obtain ⟨b, hb, hentry, hfit⟩ := arrayEntry_of_arrayEnd hend hcount
  have hsize : sizeOfTableDefinition o.offsets.pointerSize = o.offsets.sizeOfVmtableDefinition := by
    unfold VMOffsets.sizeOfVmtableDefinition
    rw [hp]
    rfl
  rw [Nat.succ_mul] at hfit
  refine foreignIndex_eq hsrc ho hb hentry (by rw [hsize]) ?_ (by omega) hidx
  rw [hp]
  decide

theorem foreignMemory_eq {imp : VMImport} {o : Placed Sig} (hsrc : imp.source.vmctx = imp.vmctx)
    (ho : h[imp.vmctx]? = some o) (hinv : o.toInstance.Inv host)
    (hidx : imp.source.index < o.memories.length) : h.foreignMemory addr imp = some imp.source := by
  obtain ⟨n, hn⟩ := hinv.size
  have hoff := VMOffsets.new_eq_some hinv.offsets_eq
  have hp : o.offsets.pointerSize = 8 := by rw [hoff]
  have hcount : imp.source.index < o.offsets.numDefinedMemories := by
    have hlen := hinv.memories_length
    rw [hoff]
    simp only
    omega
  obtain ⟨e, hend⟩ := VMOffsets.memories_fit hn
  obtain ⟨b, hb, hentry, hfit⟩ := arrayEntry_of_arrayEnd hend hcount
  have hsize : sizeOfMemoryDefinition o.offsets.pointerSize = o.offsets.sizeOfVmmemoryDefinition := by
    unfold VMOffsets.sizeOfVmmemoryDefinition
    rw [hp]
    rfl
  rw [Nat.succ_mul] at hfit
  refine foreignIndex_eq hsrc ho hb hentry (by rw [hsize]) ?_ (by omega) hidx
  rw [hp]
  decide

/-! ## What an initializer names -/

/-- The table an index of an instance stands for: its own, or the one it was linked to. -/
def StandsForTable (i : Placed Sig) (me index : Nat) (p : DefinitionPtr) : Prop :=
  (∃ d, i.module.definedTableIndex index = some d ∧ p = ⟨me, d⟩) ∨
    (i.module.definedTableIndex index = none ∧
      ∃ imp, i.vmctx.imports.tables[index]? = some imp ∧ p = imp.source)

/-- The memory an index of an instance stands for: its own, or the one it was linked to. -/
def StandsForMemory (i : Placed Sig) (me index : Nat) (p : DefinitionPtr) : Prop :=
  (∃ d, i.module.definedMemoryIndex index = some d ∧ p = ⟨me, d⟩) ∨
    (i.module.definedMemoryIndex index = none ∧
      ∃ imp, i.vmctx.imports.memories[index]? = some imp ∧ p = imp.source)

/-- The entry of a function: its code and `VMContext`, whether defined or imported, and the shared id
of its signature. -/
def EntryOf (i : Placed Sig) (me : Nat) (f : UInt32) (e : VMCallerCheckedAnyfunc) : Prop :=
  (∃ s, i.module.functions[f.toNat]? = some s ∧ i.signatureIds[s.toNat]? = some e.typeIndex) ∧
    ((∃ d, i.module.definedFuncIndex f.toNat = some d ∧
        i.finishedFunctions[d]? = some e.funcPtr ∧ e.vmctx = me) ∨
      (i.module.definedFuncIndex f.toNat = none ∧
        i.vmctx.imports.functions[f.toNat]? = some ⟨e.funcPtr, e.vmctx⟩))

/-- The value of the global an initializer starts from. -/
def BaseValue (h : Heap Sig) (me : Nat) (base : Option UInt32) (value : UInt32) : Prop :=
  (base = none ∧ value = 0) ∨
    ∃ index v, base = some index ∧ h.globalAt me index.toNat = some v ∧ value = Heap.asU32 v

/-- What an element segment writes, and where. -/
structure ElementsOf (h : Heap Sig) (i : Placed Sig) (me : Nat) (init : TableElements)
    (seg : Heap.Segment VMCallerCheckedAnyfunc) : Prop where
  target : StandsForTable i me init.tableIndex.toNat seg.target
  start : ∃ b, BaseValue h me init.base b ∧ seg.start = (init.offset + b.toUInt64).toNat
  values : List.Forall₂ (EntryOf i me) init.elements seg.values

/-- What a data segment writes, and where. -/
structure DataOf (h : Heap Sig) (i : Placed Sig) (me : Nat) (init : DataInitializer)
    (seg : Heap.Segment UInt8) : Prop where
  target : StandsForMemory i me init.memoryIndex.toNat seg.target
  start : ∃ b, BaseValue h me init.base b ∧ seg.start = (init.offset + b.toUInt64).toNat
  values : seg.values = init.data

theorem baseValue_of_initStart {me : Nat} {offset start : UInt64} {base : Option UInt32}
    (hs : h.initStart me offset base = some start) :
    ∃ b, BaseValue h me base b ∧ start.toNat = (offset + b.toUInt64).toNat := by
  cases base with
  | none =>
    obtain rfl := Option.some.inj hs
    refine ⟨0, Or.inl ⟨rfl, rfl⟩, ?_⟩
    have hz : (0 : UInt32).toUInt64 = 0 := rfl
    rw [hz, UInt64.add_zero]
  | some index =>
    obtain ⟨v, hv, rfl⟩ := Option.map_eq_some_iff.mp hs
    exact ⟨_, Or.inr ⟨index, v, rfl, hv, rfl⟩, rfl⟩

/-- An imported table lies in the instance the import names. -/
theorem HeapInv.importedTable (hi : HeapInv host tunables h) {me : Nat} {i : Placed Sig}
    (hme : h[me]? = some i) {j : Nat} {imp : VMImport}
    (himp : i.vmctx.imports.tables[j]? = some imp) :
    h.foreignTable addr imp = some imp.source := by
  have hworld : (Heap.world h)[me]? = some i.toInstance := by
    rw [Heap.world_getElem?, hme, Option.map_some]
  have hsrc := (hi.placed me i hme).tableImport j imp himp
  obtain ⟨plan, -, ⟨t, ht⟩, -⟩ := (hi.world me _ hworld).tables j imp himp
  obtain ⟨o', ho', ht⟩ := Option.bind_eq_some_iff.mp ht
  have hok := hi.world _ o' ho'
  rw [Heap.world_getElem?] at ho'
  obtain ⟨o, ho, rfl⟩ := Option.map_eq_some_iff.mp ho'
  rw [hsrc] at ho
  exact foreignTable_eq hsrc ho hok.inv (List.getElem?_eq_some_iff.mp ht).1

/-- An imported memory lies in the instance the import names. -/
theorem HeapInv.importedMemory (hi : HeapInv host tunables h) {me : Nat} {i : Placed Sig}
    (hme : h[me]? = some i) {j : Nat} {imp : VMImport}
    (himp : i.vmctx.imports.memories[j]? = some imp) :
    h.foreignMemory addr imp = some imp.source := by
  have hworld : (Heap.world h)[me]? = some i.toInstance := by
    rw [Heap.world_getElem?, hme, Option.map_some]
  have hsrc := (hi.placed me i hme).memoryImport j imp himp
  obtain ⟨plan, -, ⟨m, hm⟩, -⟩ := (hi.world me _ hworld).memories j imp himp
  obtain ⟨o', ho', hm⟩ := Option.bind_eq_some_iff.mp hm
  have hok := hi.world _ o' ho'
  rw [Heap.world_getElem?] at ho'
  obtain ⟨o, ho, rfl⟩ := Option.map_eq_some_iff.mp ho'
  rw [hsrc] at ho
  exact foreignMemory_eq hsrc ho hok.inv (List.getElem?_eq_some_iff.mp hm).1

/-- The table `initialize_tables` finds is the one the index stands for. -/
theorem standsForTable_of_tablePtr (hi : HeapInv host tunables h) {me index : Nat} {i : Placed Sig}
    (hme : h[me]? = some i) {p : DefinitionPtr} (hp : h.tablePtr addr me index = some p) :
    StandsForTable i me index p := by
  unfold Heap.tablePtr at hp
  rw [hme, Option.bind_some] at hp
  cases hd : i.module.definedTableIndex index with
  | some d =>
    rw [hd] at hp
    exact Or.inl ⟨d, hd, (Option.some.inj hp).symm⟩
  | none =>
    rw [hd] at hp
    obtain ⟨imp, himp, hp⟩ := Option.bind_eq_some_iff.mp hp
    rw [hi.importedTable hme himp] at hp
    exact Or.inr ⟨hd, imp, himp, (Option.some.inj hp).symm⟩

/-- The memory `initialize_memories` finds is the one the index stands for. -/
theorem standsForMemory_of_memoryPtr (hi : HeapInv host tunables h) {me index : Nat} {i : Placed Sig}
    (hme : h[me]? = some i) {p : DefinitionPtr} (hp : h.memoryPtr addr me index = some p) :
    StandsForMemory i me index p := by
  unfold Heap.memoryPtr at hp
  rw [hme, Option.bind_some] at hp
  cases hd : i.module.definedMemoryIndex index with
  | some d =>
    rw [hd] at hp
    exact Or.inl ⟨d, hd, (Option.some.inj hp).symm⟩
  | none =>
    rw [hd] at hp
    obtain ⟨imp, himp, hp⟩ := Option.bind_eq_some_iff.mp hp
    rw [hi.importedMemory hme himp] at hp
    exact Or.inr ⟨hd, imp, himp, (Option.some.inj hp).symm⟩

/-- The entry `initialize_tables` writes is that of the function it names. -/
theorem entryOf_of_anyfunc {me : Nat} {i : Placed Sig} (hme : h[me]? = some i) {f : UInt32}
    {e : VMCallerCheckedAnyfunc} (he : h.anyfunc me f = some e) : EntryOf i me f e := by
  unfold Heap.anyfunc at he
  rw [hme, Option.bind_some] at he
  obtain ⟨s, hs, he⟩ := Option.bind_eq_some_iff.mp he
  obtain ⟨⟨ptr, v⟩, hf, he⟩ := Option.bind_eq_some_iff.mp he
  obtain ⟨id, hid, rfl⟩ := Option.map_eq_some_iff.mp he
  obtain ⟨-, hid⟩ := Option.ite_none_right_eq_some.mp hid
  refine ⟨⟨s, hs, hid⟩, ?_⟩
  unfold Instance.lookupFunction at hf
  cases hd : i.module.definedFuncIndex f.toNat with
  | some d =>
    rw [hd] at hf
    obtain ⟨b, hb, hf⟩ := Option.map_eq_some_iff.mp hf
    obtain ⟨rfl, rfl⟩ := Prod.mk.inj hf
    exact Or.inl ⟨d, rfl, hb, rfl⟩
  | none =>
    rw [hd] at hf
    obtain ⟨imp, himp, hf⟩ := Option.map_eq_some_iff.mp hf
    obtain ⟨rfl, rfl⟩ := Prod.mk.inj hf
    exact Or.inr ⟨rfl, himp⟩

/-- Every function of a well-formed module has an entry. -/
theorem anyfunc_eq_some (hi : HeapInv host tunables h) {me : Nat} {i : Placed Sig}
    (hme : h[me]? = some i) {f : UInt32} (hf : f.toNat < i.module.functions.length) :
    ∃ e, h.anyfunc me f = some e := by
  have hok := hi.placed me i hme
  have hworld : (Heap.world h)[me]? = some i.toInstance := by
    rw [Heap.world_getElem?, hme, Option.map_some]
  have hinst := hi.world me _ hworld
  have hoff := VMOffsets.new_eq_some hinst.inv.offsets_eq
  have hs : i.module.functions[f.toNat]? = some i.module.functions[f.toNat] :=
    List.getElem?_eq_getElem hf
  obtain ⟨s, hse⟩ : ∃ s, s = i.module.functions[f.toNat] := ⟨_, rfl⟩
  rw [← hse] at hs
  have hsig := hinst.wellFormed.signatureIndex s (List.mem_of_getElem? hs)
  have hids : s.toNat < i.signatureIds.length := by
    rw [hok.signatureIds]
    exact hsig
  have hid : Heap.signatureId i s.toNat = some i.signatureIds[s.toNat] := by
    unfold Heap.signatureId
    rw [hoff, if_pos hsig, List.getElem?_eq_getElem hids]
  obtain ⟨ptr, v, hl⟩ : ∃ ptr v, i.lookupFunction me f.toNat = some (ptr, v) := by
    unfold Instance.lookupFunction
    cases hd : i.module.definedFuncIndex f.toNat with
    | some d =>
      have hidx := Module.definedIndex_eq_some.mp hd
      have hlt : d < i.finishedFunctions.length := by
        rw [hok.finished]
        omega
      simp only [List.getElem?_eq_getElem hlt]
      exact ⟨_, _, rfl⟩
    | none =>
      have hidx := Module.definedIndex_eq_none.mp hd
      have hlt : f.toNat < i.vmctx.imports.functions.length := by
        rw [hok.importedFuncs]
        exact hidx
      simp only [List.getElem?_eq_getElem hlt]
      exact ⟨_, _, rfl⟩
  unfold Heap.anyfunc
  rw [hme, Option.bind_some, hs, Option.bind_some, hl, Option.bind_some, hid]
  exact ⟨_, rfl⟩

theorem HeapInv.current (hi : HeapInv host tunables h) : Heap.Current h := by
  intro k i hk
  have hworld : (Heap.world h)[k]? = some i.toInstance := by
    rw [Heap.world_getElem?, hk, Option.map_some]
  exact (hi.world k _ hworld).inv.vmctxMemories

end

section

variable [DecidableEq Sig] {translateSignature : Sig → Sig} {tunables : Tunables} {s : Store Sig}
  {t : ModuleTranslation Sig} {resolve : Resolver Sig} {g : InstanceHandle.Given Sig}

open LastWrite

/-- What the initializers of an instance at the end of `h` did, when they left `h'`: every table slot
and every byte of a memory holds what the segments, in module order, last wrote to it, or what it held
before; nothing else has changed. -/
structure Initialized (h : Heap Sig) (i : Placed Sig) (me : Nat) (data : List DataInitializer)
    (h' : Heap Sig) : Prop where
  elements : ∃ segs, List.Forall₂ (ElementsOf h i me) i.module.tableElements segs ∧
    ∀ slot, h'.elementAt slot = (lastWrite (Heap.elementWrites segs) slot).getD (h.elementAt slot)
  data : ∃ segs, List.Forall₂ (DataOf h i me) data segs ∧
    ∀ byte, h'.byteAt byte = (lastWrite (Heap.dataWrites segs) byte).getD (h.byteAt byte)
  frame : Heap.Frame h h'

/-- **Instantiation is atomic.** For every store that can be reached and everything `link_module`
accepts: when `InstanceHandle::new` returns a link error, every instance there was and the global
export map are as before; and when the bounds checks pass, the initializers run without an index out
of range and are replayed in module order. -/
theorem instantiation_atomic (hr : Store.Reachable translateSignature g.host tunables s)
    (hp : Prepared translateSignature tunables s t resolve g) :
    (∀ message s', InstanceHandle.new g t.module s = .err (.link message) s' →
      s'.globalExports = s.globalExports ∧ ∀ k, k < s.heap.length → s'.heap[k]? = s.heap[k]?) ∧
    ∀ i, InstanceHandle.allocate g t.module = .ok i →
      (s.heap ++ [i]).checkTableInitBounds g.addr s.heap.length = .ok →
      (s.heap ++ [i]).checkMemoryInitBounds g.addr s.heap.length g.dataInitializers = .ok →
      ∃ h₁ h₂, (s.heap ++ [i]).initializeTables g.addr s.heap.length = some h₁ ∧
        Heap.initializeMemories g.addr s.heap.length h₁ g.dataInitializers = some h₂ ∧
        Initialized (s.heap ++ [i]) i s.heap.length g.dataInitializers h₂ := by
  constructor
  · intro message s' hn
    obtain ⟨i, -, rfl⟩ := InstanceHandle.new_link hn
    exact ⟨rfl, fun k hk => List.getElem?_append_left hk⟩
  · intro i ha hct hcm
    have hi := inv_allocate hp hr.inv ha
    have hme : (s.heap ++ [i])[s.heap.length]? = some i := by simp
    obtain ⟨-, hmod, -⟩ := Instance.inv_new (allocate_ok ha).1
    have hwf := hp.translated.wellFormed.1
    obtain ⟨h₀, hh₀⟩ : ∃ h₀, h₀ = s.heap ++ [i] := ⟨_, rfl⟩
    rw [← hh₀] at hct hcm hi hme ⊢
    have hct' : h₀.checkTables g.addr s.heap.length i.module.tableElements = .ok := by
      unfold Heap.checkTableInitBounds at hct
      rw [hme] at hct
      exact hct
    obtain ⟨esegs, hesegs⟩ := Heap.checkTables_ok hct' fun init hinit f hf =>
      anyfunc_eq_some hi hme (by
        rw [hmod] at hinit ⊢
        exact (hwf.hasElements init hinit).elements f hf)
    obtain ⟨dsegs, hdsegs⟩ := Heap.checkMemoryInitBounds_ok hi.current hcm
    obtain ⟨h₁, hloop, hframe₁, hel₁, hby₁⟩ := Heap.initializeTablesLoop_spec hesegs
    obtain ⟨h₂, hmem, hframe₂, hby₂, hel₂⟩ := Heap.initializeMemories_spec
      (hframe₁.current hi.current) (hdsegs.imp fun _ _ hd => hd.frame hframe₁)
    refine ⟨h₁, h₂, ?_, hmem, ⟨esegs, ?_, fun slot => ?_⟩, ⟨dsegs, ?_, fun byte => ?_⟩,
      hframe₁.trans hframe₂⟩
    · unfold Heap.initializeTables
      rw [hme, Option.bind_some, hloop]
    · refine hesegs.imp fun init seg hseg => ⟨standsForTable_of_tablePtr hi hme hseg.target, ?_, ?_⟩
      · obtain ⟨start, hstart, he⟩ := hseg.start
        obtain ⟨b, hb, hs⟩ := baseValue_of_initStart hstart
        exact ⟨b, hb, he.trans hs⟩
      · exact hseg.values.imp fun f e he => entryOf_of_anyfunc hme he
    · rw [hel₂, hel₁, replay_apply]
    · refine hdsegs.imp fun init seg hseg =>
        ⟨standsForMemory_of_memoryPtr hi hme hseg.target, ?_, hseg.values⟩
      obtain ⟨start, hstart, he⟩ := hseg.start
      obtain ⟨b, hb, hs⟩ := baseValue_of_initStart hstart
      exact ⟨b, hb, he.trans hs⟩
    · rw [hby₂, hby₁, replay_apply]

end

/-! ## A module and its client -/

/-- A table of three functions. -/
def threeFuncs : Environ.Table := ⟨.func, 3, none⟩

/-- A module of two functions that exports the first one, a table with both in it, and a memory of
one page. -/
def provider : ModuleTranslation Bool :=
  { module := { (Module.new : Module Bool) with
      signatures := [false, true]
      functions := [0, 1]
      tablePlans := [.forTable threeFuncs .default]
      memoryPlans := [MemoryType.onePage.plan .default]
      exports := [("f", .function 0), ("table", .table 0), ("memory", .memory 0)]
      tableElements := [⟨0, none, 0, [0, 1], short_lt (Nat.le_succ 2)⟩] }
    functionBodyInputs := []
    tunables := .default }

theorem translated_provider : Translated (id : Bool → Bool) .default provider := by
  have h₁ := @Translated.step Bool id .default _ _ (.signature false) .new
    (by simp [Declaration.Valid, ModuleTranslation.new, Module.new]) rfl
  have h₂ := @Translated.step _ _ _ _ _ (.signature true) h₁
    (by simp [Declaration.Valid, ModuleTranslation.new, Module.new]) rfl
  have h₃ := @Translated.step _ _ _ _ _ (.funcType 0) h₂ ⟨by decide, by decide⟩ rfl
  have h₄ := @Translated.step _ _ _ _ _ (.funcType 1) h₃ ⟨by decide, by decide⟩ rfl
  have h₅ := @Translated.step _ _ _ _ _ (.table threeFuncs) h₄
    ⟨fun _ h => absurd h (by simp [threeFuncs]), by decide⟩ rfl
  have h₆ := @Translated.step _ _ _ _ _ (.memory MemoryType.onePage.toMemory) h₅
    ⟨⟨MemoryType.onePage, rfl⟩, by decide⟩ rfl
  have h₇ := @Translated.step _ _ _ _ _ (.exported (.function 0) "f") h₆ Nat.zero_lt_two rfl
  have h₈ := @Translated.step _ _ _ _ _ (.exported (.table 0) "table") h₇ Nat.zero_lt_one rfl
  have h₉ := @Translated.step _ _ _ _ _ (.exported (.memory 0) "memory") h₈ Nat.zero_lt_one rfl
  exact @Translated.step _ _ _ _ _
    (.tableElements ⟨0, none, 0, [0, 1], short_lt (Nat.le_succ 2)⟩) h₉
    ⟨Nat.zero_lt_one, fun _ h => absurd h (by simp),
      List.forall_mem_cons.mpr ⟨by decide, List.forall_mem_singleton.mpr (by decide)⟩⟩ rfl

/-- Its code is at the addresses 100 and 104, and its signatures have the ids 0 and 1. -/
def givenProvider : InstanceHandle.Given Bool where
  host := LinearMemory.host4K
  os := fun _ => ⟨some 0x10000, true⟩
  alloc := id
  mapped := true
  addr := fun k => BitVec.ofNat 64 (0x1000 * k)
  finishedFunctions := [100, 104]
  imports := ⟨[], [], [], []⟩
  dataInitializers := [⟨0, none, 0, [9, 9, 9], short_lt (Nat.le_refl 3)⟩]
  vmsharedSignatures := [0, 1]
  start := fun _ h => (h, none)

theorem prepared_provider :
    Prepared (id : Bool → Bool) .default ⟨[], []⟩ provider (fun _ _ => none) givenProvider where
  translated := translated_provider
  provides := fun _ _ _ h => absurd h (by simp)
  linked := rfl
  finished := rfl
  signatures := rfl
  start := fun _ _ => .refl

/-- The store with the one instance. -/
def provided : Store Bool :=
  (InstanceHandle.leaves (InstanceHandle.new givenProvider provider.module ⟨[], []⟩)).getD ⟨[], []⟩

theorem leaves_provided :
    InstanceHandle.leaves (InstanceHandle.new givenProvider provider.module ⟨[], []⟩) =
      some provided := rfl

theorem reachable_provided :
    Store.Reachable (id : Bool → Bool) LinearMemory.host4K .default provided :=
  .single (.instantiate rfl prepared_provider leaves_provided)

/-- A module that imports all of it, writes its own function to the first slot, and the imported one to
the second slot and then over the first. -/
def client : ModuleTranslation Bool :=
  { module := { (Module.new : Module Bool) with
      signatures := [false]
      functions := [0, 0]
      importedFuncs := [("provider", "f")]
      tablePlans := [.forTable ⟨.func, 2, none⟩ .default]
      importedTables := [("provider", "table")]
      memoryPlans := [MemoryType.onePage.plan .default]
      importedMemories := [("provider", "memory")]
      tableElements := [⟨0, none, 0, [1, 1], short_lt (Nat.le_succ 2)⟩,
        ⟨0, none, 1, [0], function_lt⟩] }
    functionBodyInputs := []
    tunables := .default }

theorem translated_client : Translated (id : Bool → Bool) .default client := by
  have h₁ := @Translated.step Bool id .default _ _ (.signature false) .new
    (by simp [Declaration.Valid, ModuleTranslation.new, Module.new]) rfl
  have h₂ := @Translated.step _ _ _ _ _ (.funcImport 0 "provider" "f") h₁ ⟨by decide, by decide⟩ rfl
  have h₃ := @Translated.step _ _ _ _ _ (.tableImport ⟨.func, 2, none⟩ "provider" "table") h₂
    ⟨fun _ h => absurd h (by simp), by decide⟩ rfl
  have h₄ := @Translated.step _ _ _ _ _
    (.memoryImport MemoryType.onePage.toMemory "provider" "memory") h₃
    ⟨⟨MemoryType.onePage, rfl⟩, by decide⟩ rfl
  have h₅ := @Translated.step _ _ _ _ _ (.funcType 0) h₄ ⟨by decide, by decide⟩ rfl
  have h₆ := @Translated.step _ _ _ _ _
    (.tableElements ⟨0, none, 0, [1, 1], short_lt (Nat.le_succ 2)⟩) h₅
    ⟨by decide, fun _ h => absurd h (by simp),
      List.forall_mem_cons.mpr ⟨by decide, List.forall_mem_singleton.mpr (by decide)⟩⟩ rfl
  exact @Translated.step _ _ _ _ _
    (.tableElements ⟨0, none, 1, [0], function_lt⟩) h₆
    ⟨by decide, fun _ h => absurd h (by simp), List.forall_mem_singleton.mpr (by decide)⟩ rfl

/-- The exports of the provider. -/
def providerExports : Resolver Bool := fun _ field =>
  (provider.module.exports.lookup field).bind fun d =>
    provided.heap[0]?.bind fun i => i.lookupByDeclaration 0 d

/-- What the caller gives with the client: its function is at address 200. -/
def givenClient (data : List DataInitializer) : InstanceHandle.Given Bool where
  host := LinearMemory.host4K
  os := fun _ => ⟨none, true⟩
  alloc := id
  mapped := true
  addr := fun k => BitVec.ofNat 64 (0x1000 * k)
  finishedFunctions := [200]
  imports := ⟨[⟨100, 0⟩], [⟨⟨0, 0⟩, 0⟩], [⟨⟨0, 0⟩, 0⟩], []⟩
  dataInitializers := data
  vmsharedSignatures := [0]
  start := fun _ h => (h, none)

theorem prepared_client (data : List DataInitializer) :
    Prepared (id : Bool → Bool) .default provided client providerExports (givenClient data) where
  translated := translated_client
  provides := by
    intro module field e h
    obtain ⟨d, hd, h⟩ := Option.bind_eq_some_iff.mp h
    obtain ⟨i, hi, h⟩ := Option.bind_eq_some_iff.mp h
    have hmod : i.module = provider.module := (Option.some.inj hi) ▸ rfl
    refine ⟨0, i.toInstance, field, d, ?_, ?_, h⟩
    · rw [Heap.world_getElem?, hi, Option.map_some]
    · obtain ⟨before, after, hl, -⟩ := List.lookup_eq_some_iff.mp hd
      rw [hmod, hl]
      simp
  linked := rfl
  finished := rfl
  signatures := rfl
  start := fun _ _ => .refl

/-- Two data segments that overlap. -/
def overlapping : List DataInitializer :=
  [⟨0, none, 0, [4, 5], short_lt (Nat.le_succ 2)⟩, ⟨0, none, 1, [6], short_lt (Nat.le_add_left 1 2)⟩]

/-- The second data segment starts at the end of the memory. -/
def pastTheEnd : List DataInitializer :=
  [⟨0, none, 0, [4, 5], short_lt (Nat.le_succ 2)⟩,
    ⟨0, none, 0x10000, [6], short_lt (Nat.le_add_left 1 2)⟩]

/-- The heap with the client in it, after its initializers. -/
def clientInitialized : Option (Heap Bool) :=
  match InstanceHandle.allocate (givenClient overlapping) client.module with
  | .ok i => (Heap.initializeTables (givenClient overlapping).addr (provided.heap ++ [i]) 1).bind
      (Heap.initializeMemories (givenClient overlapping).addr 1 · overlapping)
  | _ => none

/-- A segment past the end is a link error that leaves the provider alone. Segments that fit leave the
client's function in the first slot, the imported one in the second, and the third as it was. -/
theorem instantiation_atomic_client :
    (∃ s', InstanceHandle.new (givenClient pastTheEnd) client.module provided =
        .err (.link "data segment does not fit") s' ∧
      s'.globalExports = provided.globalExports ∧ s'.heap[0]? = provided.heap[0]?) ∧
    ∃ i h₂, InstanceHandle.allocate (givenClient overlapping) client.module = .ok i ∧
      Initialized (provided.heap ++ [i]) i 1 overlapping h₂ ∧
      [0, 1, 2].map (fun k => h₂.elementAt (⟨0, 0⟩, k)) =
        [some (some ⟨200, 0, 1⟩), some (some ⟨100, 0, 0⟩), some none] ∧
      [0, 1, 2].map (fun k => h₂.byteAt (⟨0, 0⟩, k)) = [some 4, some 6, some 9] := by
  constructor
  · obtain ⟨herr, -⟩ := instantiation_atomic reachable_provided (prepared_client pastTheEnd)
    obtain ⟨hexports, hheap⟩ := herr _ _ rfl
    exact ⟨_, rfl, hexports, hheap 0 Nat.zero_lt_one⟩
  · obtain ⟨-, hinit⟩ := instantiation_atomic reachable_provided (prepared_client overlapping)
    obtain ⟨h₁, h₂, htables, hmemories, h⟩ := hinit _ rfl rfl rfl
    have hrun : clientInitialized = some h₂ := by
      unfold clientInitialized
      exact Option.bind_eq_some_iff.mpr ⟨h₁, htables, hmemories⟩
    have helements : clientInitialized.map (fun h => [0, 1, 2].map fun k => h.elementAt (⟨0, 0⟩, k)) =
        some [some (some ⟨200, 0, 1⟩), some (some ⟨100, 0, 0⟩), some none] := by decide
    have hbytes : clientInitialized.map (fun h => [0, 1, 2].map fun k => h.byteAt (⟨0, 0⟩, k)) =
        some [some 4, some 6, some 9] := by decide
    rw [hrun, Option.map_some] at helements hbytes
    exact ⟨_, h₂, rfl, h, Option.some.inj helements, Option.some.inj hbytes⟩

end Wasmtime.Jit
