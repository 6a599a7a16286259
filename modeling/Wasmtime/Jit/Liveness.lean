import Wasmtime.Jit.Instantiate
import Wasmtime.Lib.RefCount

/-!
# Which instances are alive

Model of the reference counts of instances: `InstanceHandle::clone`, `from_vmctx` and `drop`
(`wasmtime-runtime/src/instance.rs`), the `dependencies` that `link_module` records
(`wasmtime-jit/src/link.rs`), and `instantiate` (`wasmtime-jit/src/instantiate.rs`) over them.

* The count, the dependencies and whether the instance has been dropped are a `RefCount.Cell` beside
  each instance of the heap. `none` is a panic or a use of an instance that has been dropped.
* `dependencies` is a `HashSet` of handles: a handle that is there already is dropped again. When
  linking fails, or `InstanceHandle::new` before the instance is written, the set is dropped. Once the
  instance is written it owns the set; an error after that leaves an instance with count one and no
  handle.
* An element segment writes the `VMContext` of a function into the table of another instance and
  records nothing.
* Code that runs (a start function, an export) puts no function into a table: the instruction set has
  no instruction for it.

Results:
* `exec_inv`: a step that `Meets` allows keeps the counts, and every pointer within what the
  dependencies reach.
* `liveness`: in every run of such steps no pointer of an instance that is alive dangles.
-/

namespace Wasmtime.Jit

open Environ Wasmtime.Runtime RefCount

variable {Sig : Type}

namespace Liveness

/-- The instances, their counts, and the handles that are held outside of instances. -/
structure State (Sig : Type) where
  store : Runtime.Store Sig
  cells : List Cell
  handles : Nat → Nat

/-- The state before anything is instantiated. -/
def State.new : State Sig := ⟨⟨[], []⟩, [], fun _ => 0⟩

/-! ## Linking -/

/-- The `VMContext` of an export. -/
def exportVmctx : ExportValue Sig → Nat
  | .function _ vmctx _ => vmctx
  | .table _ vmctx _ => vmctx
  | .memory _ vmctx _ => vmctx
  | .global _ vmctx _ => vmctx

/-- What a loop of `link_module` passes to `from_vmctx`, and whether it comes to its end. -/
def recordLoop {α : Type} (resolve : Resolver Sig) (link : Nat → String → String → Linked α) :
    Nat → List (String × String) → List Nat × Bool
  | _, [] => ([], true)
  | k, (module, field) :: rest =>
    match link k module field with
    | .ok _ =>
      ((resolve module field).toList.map exportVmctx ++ (recordLoop resolve link (k + 1) rest).1,
        (recordLoop resolve link (k + 1) rest).2)
    | _ => ([], false)

/-- A loop after another one. -/
def andThen (first second : List Nat × Bool) : List Nat × Bool :=
  if first.2 then (first.1 ++ second.1, second.2) else first

/-- What `link_module` passes to `from_vmctx`, in order. -/
def recorded [DecidableEq Sig] (resolve : Resolver Sig) (m : Module Sig) : List Nat :=
  (andThen (recordLoop resolve (linkFunction resolve m) 0 m.importedFuncs)
    (andThen (recordLoop resolve (linkTable resolve m) 0 m.importedTables)
      (andThen (recordLoop resolve (linkMemory resolve m) 0 m.importedMemories)
        (recordLoop resolve (linkGlobal resolve m) 0 m.importedGlobals)))).1

/-- `dependencies.insert(InstanceHandle::from_vmctx(vmctx))`. -/
def insertDependency (cells : List Cell) (dependencies : List Nat) (vmctx : Nat) :
    Option (List Cell × List Nat) :=
  (retain cells vmctx).bind fun cells =>
    if vmctx ∈ dependencies then (release cells [vmctx]).map fun cells => (cells, dependencies)
    else some (cells, dependencies ++ [vmctx])

/-- The insertions of `link_module`. -/
def insertDependencies : List Cell → List Nat → List Nat → Option (List Cell × List Nat)
  | cells, dependencies, [] => some (cells, dependencies)
  | cells, dependencies, vmctx :: rest =>
    (insertDependency cells dependencies vmctx).bind fun p => insertDependencies p.1 p.2 rest

/-! ## Steps -/

/-- One step of the program: `instantiate`, an operation of a handle, or code that runs. -/
inductive Event (Sig : Type) where
  | instantiate (module : Module Sig) (resolve : Resolver Sig) (g : InstanceHandle.Given Sig)
  | clone (k : Nat)
  | fromVmctx (k : Nat)
  | drop (k : Nat)
  | code (f : Heap Sig → Heap Sig)

section

variable [DecidableEq Sig] (s : State Sig)

/-- `InstanceHandle::new`, with the set of dependencies it is given. -/
def newInstance (cells : List Cell) (dependencies : List Nat) (g : InstanceHandle.Given Sig)
    (module : Module Sig) : Option (State Sig) :=
  match InstanceHandle.allocate g module with
  | .panic _ => none
  | .err _ => (release cells dependencies).map fun cells => { s with cells }
  | .ok _ =>
    match InstanceHandle.new g module s.store with
    | .panic => none
    | .err _ store => some { s with store, cells := cells ++ [⟨1, dependencies, false⟩] }
    | .ok me store => some {
        store
        cells := cells ++ [⟨1, dependencies, false⟩]
        handles := Function.update s.handles me (s.handles me + 1) }

/-- One step. -/
def exec : Event Sig → Option (State Sig)
  | .instantiate module resolve g =>
    (insertDependencies s.cells [] (recorded resolve module)).bind fun (cells, dependencies) =>
      match linkModule resolve module with
      | .panic _ => none
      | .err _ => (release cells dependencies).map fun cells => { s with cells }
      | .ok imports => newInstance s cells dependencies { g with imports } module
  | .clone k =>
    if 0 < s.handles k then (retain s.cells k).map fun cells =>
      { s with cells, handles := Function.update s.handles k (s.handles k + 1) }
    else none
  | .fromVmctx k => (retain s.cells k).map fun cells =>
      { s with cells, handles := Function.update s.handles k (s.handles k + 1) }
  | .drop k =>
    if 0 < s.handles k then (release s.cells [k]).map fun cells =>
      { s with cells, handles := Function.update s.handles k (s.handles k - 1) }
    else none
  | .code f => some { s with store := { s.store with heap := f s.store.heap } }

end

/-! ## Pointers -/

/-- The `VMContext`s that an instance points to: from its import arrays, and from the entries of its
tables. -/
inductive PointsTo (h : Heap Sig) (k : Nat) : Nat → Prop
  | function {i : Placed Sig} {imp : VMFunctionImport} (hk : h[k]? = some i)
      (hi : imp ∈ i.vmctx.imports.functions) : PointsTo h k imp.vmctx
  | table {i : Placed Sig} {imp : VMImport} (hk : h[k]? = some i)
      (hi : imp ∈ i.vmctx.imports.tables) : PointsTo h k imp.vmctx
  | memory {i : Placed Sig} {imp : VMImport} (hk : h[k]? = some i)
      (hi : imp ∈ i.vmctx.imports.memories) : PointsTo h k imp.vmctx
  | global {i : Placed Sig} {p : DefinitionPtr} (hk : h[k]? = some i)
      (hi : p ∈ i.vmctx.imports.globals) : PointsTo h k p.vmctx
  | entry {i : Placed Sig} {t : Table VMCallerCheckedAnyfunc} {e : VMCallerCheckedAnyfunc}
      (hk : h[k]? = some i) (ht : t ∈ i.tables) (he : some e ∈ t.vec) : PointsTo h k e.vmctx

/-- What has been put into tables is as `W` says; the modules and the import arrays are as before. -/
structure Writes (W : Nat → VMCallerCheckedAnyfunc → Prop) (h h' : Heap Sig) : Prop where
  length : h'.length = h.length
  placed : ∀ (k : Nat) i', h'[k]? = some i' → ∃ i, h[k]? = some i ∧ i'.module = i.module ∧
    i'.vmctx.imports = i.vmctx.imports ∧
    ∀ t' ∈ i'.tables, ∀ e, some e ∈ t'.vec → W k e ∨ ∃ t ∈ i.tables, some e ∈ t.vec

/-- No function has been put into a table. -/
def Quiet (h h' : Heap Sig) : Prop := Writes (fun _ _ => False) h h'

/-- The step can be made: exports come from instances that are alive, a `VMContext` pointer that is
turned into a handle is of an instance that is alive, a handle that is used is held, and code puts no
function into a table. -/
def Event.Valid (s : State Sig) : Event Sig → Prop
  | .instantiate _ resolve g =>
    (∀ module field e, resolve module field = some e →
      ∃ k, Live s.cells k ∧ Exports s.store.heap k e) ∧
    ∀ me h, Quiet h (g.start me h).1
  | .clone k => 0 < s.handles k
  | .fromVmctx k => Live s.cells k
  | .drop k => 0 < s.handles k
  | .code f => ∀ h, Quiet h (f h)

/-- The `VMContext` of a function of the instance `me` that `imports` were linked for. -/
def FunctionVmctx (module : Module Sig) (imports : Imports) (me f vmctx : Nat) : Prop :=
  ((module.definedFuncIndex f).isSome ∧ vmctx = me) ∨
    (module.definedFuncIndex f = none ∧
      ∃ imp, imports.functions[f]? = some imp ∧ imp.vmctx = vmctx)

/-- An element segment into an imported table names only functions of instances that the instance of
the table reaches, and nothing fails once the instance is written. -/
def Event.Meets [DecidableEq Sig] (s : State Sig) : Event Sig → Prop
  | .instantiate module resolve g => ∀ imports, linkModule resolve module = .ok imports →
    (∀ i, InstanceHandle.allocate { g with imports } module = .ok i →
      InstanceHandle.Completes { g with imports } i s.store) ∧
    ∀ init ∈ module.tableElements, module.definedTableIndex init.tableIndex.toNat = none →
      ∀ imp, imports.tables[init.tableIndex.toNat]? = some imp →
        ∀ f ∈ init.elements, ∀ v, FunctionVmctx module imports s.store.heap.length f.toNat v →
          Reaches s.cells imp.vmctx v
  | _ => True

/-- What a state should satisfy: no pointer of an instance that is alive dangles, every count is the
number of handles and of dependencies, exactly the instances with count zero have been dropped, and
a handle that is held can be dropped. -/
structure Sound (s : State Sig) : Prop where
  pointers : ∀ k v, Live s.cells k → PointsTo s.store.heap k v → Live s.cells v
  counts : ∀ (k : Nat) c, s.cells[k]? = some c → c.refcount = s.handles k + RefCount.entries s.cells k
  dropped : ∀ (k : Nat) c, s.cells[k]? = some c → (c.dropped = true ↔ c.refcount = 0)
  release : ∀ k, 0 < s.handles k → (RefCount.release s.cells [k]).isSome

/-! ## What linking records -/

section

variable {resolve : Resolver Sig} {m : Module Sig}

theorem recordLoop_ok {α : Type} {link : Nat → String → String → Linked α} {k : Nat}
    {imports : List (String × String)} {as : List α} (h : linkAll link k imports = .ok as) :
    (recordLoop resolve link k imports).2 = true ∧
      ∀ module field e, (module, field) ∈ imports → resolve module field = some e →
        exportVmctx e ∈ (recordLoop resolve link k imports).1 := by
  induction imports generalizing k as with
  | nil => exact ⟨rfl, fun _ _ _ h => absurd h (by simp)⟩
  | cons import' imports ih =>
    obtain ⟨module, field⟩ := import'
    obtain ⟨a, ha, h⟩ := Ending.bind_eq_ok.mp h
    obtain ⟨as', has, -⟩ := Ending.bind_eq_ok.mp h
    obtain ⟨hdone, hmem⟩ := ih has
    rw [recordLoop, ha]
    refine ⟨hdone, fun module' field' e hin hres => ?_⟩
    rcases List.mem_cons.mp hin with he | hin
    · obtain ⟨rfl, rfl⟩ := Prod.mk.inj he
      refine List.mem_append_left _ ?_
      rw [hres]
      exact List.mem_singleton.mpr rfl
    · exact List.mem_append_right _ (hmem module' field' e hin hres)

theorem recordLoop_from {α : Type} {link : Nat → String → String → Linked α} {k v : Nat}
    {imports : List (String × String)} (hv : v ∈ (recordLoop resolve link k imports).1) :
    ∃ module field e, resolve module field = some e ∧ exportVmctx e = v := by
  induction imports generalizing k with
  | nil => exact absurd hv (by simp [recordLoop])
  | cons import' imports ih =>
    obtain ⟨module, field⟩ := import'
    rw [recordLoop] at hv
    split at hv
    · rcases List.mem_append.mp hv with hv | hv
      · obtain ⟨e, he, rfl⟩ := List.mem_map.mp hv
        exact ⟨module, field, e, Option.mem_toList.mp he, rfl⟩
      · exact ih hv
    · exact absurd hv (by simp)

theorem mem_andThen {first second : List Nat × Bool} {v : Nat} (hv : v ∈ (andThen first second).1) :
    v ∈ first.1 ∨ v ∈ second.1 := by
  unfold andThen at hv
  split at hv
  · exact List.mem_append.mp hv
  · exact Or.inl hv

theorem andThen_of_done {first second : List Nat × Bool} (hd : first.2 = true) :
    andThen first second = (first.1 ++ second.1, second.2) := if_pos hd

variable [DecidableEq Sig]

/-- What is recorded is the `VMContext` of an export. -/
theorem recorded_from {v : Nat} (hv : v ∈ recorded resolve m) :
    ∃ module field e, resolve module field = some e ∧ exportVmctx e = v := by
  rcases mem_andThen hv with hv | hv
  · exact recordLoop_from hv
  rcases mem_andThen hv with hv | hv
  · exact recordLoop_from hv
  rcases mem_andThen hv with hv | hv
  · exact recordLoop_from hv
  · exact recordLoop_from hv

/-- What was linked, with what was recorded for it. -/
structure RecordedFor (resolve : Resolver Sig) (vmctxs : List Nat) (imports : Imports) : Prop where
  functions : ∀ imp ∈ imports.functions, imp.vmctx ∈ vmctxs
  tables : ∀ imp ∈ imports.tables, imp.vmctx ∈ vmctxs
  memories : ∀ imp ∈ imports.memories, imp.vmctx ∈ vmctxs
  globals : ∀ p ∈ imports.globals, ∃ v ∈ vmctxs,
    ∃ module field global, resolve module field = some (.global p v global)

theorem linkModule_recorded {imports : Imports} (h : linkModule resolve m = .ok imports) :
    RecordedFor resolve (recorded resolve m) imports := by
  unfold linkModule at h
  obtain ⟨functions, hfunctions, h⟩ := Ending.bind_eq_ok.mp h
  obtain ⟨tables, htables, h⟩ := Ending.bind_eq_ok.mp h
  obtain ⟨memories, hmemories, h⟩ := Ending.bind_eq_ok.mp h
  obtain ⟨globals, hglobals, h⟩ := Ending.bind_eq_ok.mp h
  obtain rfl := Ending.ok.inj h
  obtain ⟨hfd, hf⟩ := @recordLoop_ok _ resolve _ _ _ _ _ hfunctions
  obtain ⟨htd, ht⟩ := @recordLoop_ok _ resolve _ _ _ _ _ htables
  obtain ⟨hmd, hm⟩ := @recordLoop_ok _ resolve _ _ _ _ _ hmemories
  obtain ⟨-, hg⟩ := @recordLoop_ok _ resolve _ _ _ _ _ hglobals
  rw [recorded, andThen_of_done hfd, andThen_of_done htd, andThen_of_done hmd]
  refine ⟨fun imp himp => ?_, fun imp himp => ?_, fun imp himp => ?_, fun p hp => ?_⟩
  · obtain ⟨j, hj⟩ := List.mem_iff_getElem?.mp himp
    obtain ⟨module, field, hin, hl⟩ := linkAll_ok hfunctions j imp hj
    obtain ⟨_, signature, hres, -, -⟩ := linkFunction_ok hl
    exact List.mem_append_left _ (hf module field _ (List.mem_of_getElem? hin) hres)
  · obtain ⟨j, hj⟩ := List.mem_iff_getElem?.mp himp
    obtain ⟨module, field, hin, hl⟩ := linkAll_ok htables j imp hj
    obtain ⟨_, _, hres, -, -⟩ := linkTable_ok hl
    have hmem := ht module field _ (List.mem_of_getElem? hin) hres
    exact List.mem_append_right _ (List.mem_append_left _ hmem)
  · obtain ⟨j, hj⟩ := List.mem_iff_getElem?.mp himp
    obtain ⟨module, field, hin, hl⟩ := linkAll_ok hmemories j imp hj
    obtain ⟨_, _, hres, -, -, -⟩ := linkMemory_ok hl
    have hmem := hm module field _ (List.mem_of_getElem? hin) hres
    exact List.mem_append_right _ (List.mem_append_right _ (List.mem_append_left _ hmem))
  · obtain ⟨j, hj⟩ := List.mem_iff_getElem?.mp hp
    obtain ⟨module, field, hin, hl⟩ := linkAll_ok hglobals j p hj
    obtain ⟨vmctx, global, hres⟩ := linkGlobal_ok hl
    have hmem := hg module field _ (List.mem_of_getElem? hin) hres
    exact ⟨vmctx, List.mem_append_right _ (List.mem_append_right _ (List.mem_append_right _ hmem)),
      module, field, global, hres⟩

end

/-- Recording keeps the balance, and the set holds what was recorded. -/
theorem insertDependencies_spec {held : Nat → Nat} {cells : List Cell} {deps vmctxs : List Nat}
    (hb : Balanced held cells deps) (hl : ∀ v ∈ vmctxs, Live cells v) :
    ∃ cells' deps', insertDependencies cells deps vmctxs = some (cells', deps') ∧
      Balanced held cells' deps' ∧ Frame cells cells' ∧ ∀ v, v ∈ deps' ↔ v ∈ deps ∨ v ∈ vmctxs := by
  induction vmctxs generalizing cells deps with
  | nil => exact ⟨cells, deps, rfl, hb, .refl cells, fun v => by simp⟩
  | cons vmctx vmctxs ih =>
    have hlive := hl vmctx (List.mem_cons_self ..)
    have hrest : ∀ v ∈ vmctxs, Live cells v := fun v hv => hl v (List.mem_cons_of_mem _ hv)
    by_cases hin : vmctx ∈ deps
    · have hsame : insertDependency cells deps vmctx = some (cells, deps) := by
        have hrel := release_retain hb hlive
        obtain ⟨cells₁, hret, hrel⟩ := Option.bind_eq_some_iff.mp hrel
        rw [insertDependency, hret, Option.bind_some, if_pos hin, hrel, Option.map_some]
      obtain ⟨cells', deps', hins, hb', hf, hmem⟩ := ih hb hrest
      refine ⟨cells', deps', by rw [insertDependencies, hsame, Option.bind_some, hins], hb', hf,
        fun v => ?_⟩
      rw [hmem, List.mem_cons]
      constructor
      · rintro (h | h)
        · exact Or.inl h
        · exact Or.inr (Or.inr h)
      · rintro (h | rfl | h)
        · exact Or.inl h
        · exact Or.inl hin
        · exact Or.inr h
    · obtain ⟨cells₁, hret, hb₁, hf₁, hkeep⟩ := retain_spec hb hlive
      have hnew : insertDependency cells deps vmctx = some (cells₁, deps ++ [vmctx]) := by
        rw [insertDependency, hret, Option.bind_some, if_neg hin]
      have hb₂ : Balanced held cells₁ (deps ++ [vmctx]) := by
        refine hb₁.move (fun k _ => ?_) fun k hk => hb₁.work k ?_
        · rw [List.count_append, List.count_cons, List.count_cons, List.count_nil]
          omega
        · rcases List.mem_append.mp hk with h | h
          · exact List.mem_cons_of_mem _ h
          · exact List.mem_cons.mpr (Or.inl (List.mem_singleton.mp h))
      obtain ⟨cells', deps', hins, hb', hf, hmem⟩ := ih hb₂ fun v hv => hkeep v (hrest v hv)
      refine ⟨cells', deps', by rw [insertDependencies, hnew, Option.bind_some, hins], hb',
        hf₁.trans hf, fun v => ?_⟩
      rw [hmem, List.mem_append, List.mem_singleton, List.mem_cons, or_assoc]

/-! ## Pointers of a heap -/

section

variable {W W' : Nat → VMCallerCheckedAnyfunc → Prop} {h h' : Heap Sig} {k v : Nat}

theorem Writes.refl (h : Heap Sig) : Writes W h h :=
  ⟨rfl, fun _ i hi => ⟨i, hi, rfl, rfl, fun t ht _ he => Or.inr ⟨t, ht, he⟩⟩⟩

theorem Writes.trans {h₁ h₂ h₃ : Heap Sig} (h₁₂ : Writes W h₁ h₂) (h₂₃ : Writes W h₂ h₃) :
    Writes W h₁ h₃ := by
  refine ⟨h₂₃.length.trans h₁₂.length, fun k i₃ hi₃ => ?_⟩
  obtain ⟨i₂, hi₂, hm₃, himp₃, ht₃⟩ := h₂₃.placed k i₃ hi₃
  obtain ⟨i₁, hi₁, hm₂, himp₂, ht₂⟩ := h₁₂.placed k i₂ hi₂
  refine ⟨i₁, hi₁, hm₃.trans hm₂, himp₃.trans himp₂, fun t ht e he => ?_⟩
  rcases ht₃ t ht e he with hw | ⟨t', ht', he'⟩
  · exact Or.inl hw
  · exact ht₂ t' ht' e he'

theorem Writes.mono (hw : Writes W h h') (himp : ∀ k e, W k e → W' k e) : Writes W' h h' := by
  refine ⟨hw.length, fun k i' hi' => ?_⟩
  obtain ⟨i, hi, hm, himports, ht⟩ := hw.placed k i' hi'
  exact ⟨i, hi, hm, himports, fun t' ht' e he => (ht t' ht' e he).imp_left (himp k e)⟩

theorem Quiet.writes (hq : Quiet h h') : Writes W h h' := Writes.mono hq fun _ _ => False.elim

/-- Writing an instance with the same tables. -/
theorem writes_set {i i' : Placed Sig} (hk : h[k]? = some i) (hm : i'.module = i.module)
    (himp : i'.vmctx.imports = i.vmctx.imports)
    (ht : ∀ t' ∈ i'.tables, ∀ e, some e ∈ t'.vec → W k e ∨ ∃ t ∈ i.tables, some e ∈ t.vec) :
    Writes W h (h.set k i') := by
  refine ⟨List.length_set .., Instance.forall_getElem?_set (fun j b hb => ?_) ?_⟩
  · exact ⟨b, hb, rfl, rfl, fun t ht _ he => Or.inr ⟨t, ht, he⟩⟩
  · exact ⟨i, hk, hm, himp, ht⟩

/-- A pointer is one that was there, or one that was written. -/
theorem Writes.pointsTo (hw : Writes W h h') (hp : PointsTo h' k v) :
    PointsTo h k v ∨ ∃ e, W k e ∧ e.vmctx = v := by
  cases hp with
  | function hk hi =>
    obtain ⟨i, hk, -, himp, -⟩ := hw.placed k _ hk
    exact Or.inl (.function hk (himp ▸ hi))
  | table hk hi =>
    obtain ⟨i, hk, -, himp, -⟩ := hw.placed k _ hk
    exact Or.inl (.table hk (himp ▸ hi))
  | memory hk hi =>
    obtain ⟨i, hk, -, himp, -⟩ := hw.placed k _ hk
    exact Or.inl (.memory hk (himp ▸ hi))
  | global hk hi =>
    obtain ⟨i, hk, -, himp, -⟩ := hw.placed k _ hk
    exact Or.inl (.global hk (himp ▸ hi))
  | entry hk ht he =>
    obtain ⟨i, hk, -, -, htables⟩ := hw.placed k _ hk
    rcases htables _ ht _ he with hwrite | ⟨t, ht, he⟩
    · exact Or.inr ⟨_, hwrite, rfl⟩
    · exact Or.inl (.entry hk ht he)

theorem writeBytes_quiet {p : DefinitionPtr} {bytes : List UInt8} {at' : Nat}
    (hw : Heap.writeBytes p h at' bytes = some h') : Quiet h h' := by
  induction bytes generalizing h at' with
  | nil =>
    obtain rfl := Option.some.inj hw
    exact Writes.refl _
  | cons byte bytes ih =>
    obtain ⟨h₁, hset, hw⟩ := Option.bind_eq_some_iff.mp hw
    obtain ⟨i, hi, hset⟩ := Option.bind_eq_some_iff.mp hset
    obtain ⟨m, -, hset⟩ := Option.bind_eq_some_iff.mp hset
    obtain ⟨-, hset⟩ := Option.ite_none_right_eq_some.mp hset
    obtain rfl := Option.some.inj hset
    refine Writes.trans ?_ (ih hw)
    exact writes_set hi rfl rfl fun t ht _ he => Or.inr ⟨t, ht, he⟩

theorem initializeMemories_quiet {addr : Nat → BitVec 64} {me : Nat} {inits : List DataInitializer}
    (hw : Heap.initializeMemories addr me h inits = some h') : Quiet h h' := by
  induction inits generalizing h with
  | nil =>
    obtain rfl := Option.some.inj hw
    exact Writes.refl _
  | cons init inits ih =>
    obtain ⟨h₁, hround, hw⟩ := Option.bind_eq_some_iff.mp hw
    obtain ⟨start, -, hround⟩ := Option.bind_eq_some_iff.mp hround
    obtain ⟨⟨p, n⟩, -, hround⟩ := Option.bind_eq_some_iff.mp hround
    obtain ⟨-, hround⟩ := Option.ite_none_right_eq_some.mp hround
    exact Writes.trans (writeBytes_quiet hround) (ih hw)

theorem initializeGlobals_quiet {me j : Nat} {globals : List Global}
    (hw : Heap.initializeGlobals me h j globals = some h') : Quiet h h' := by
  induction globals generalizing h j with
  | nil =>
    obtain rfl := Option.some.inj hw
    exact Writes.refl _
  | cons global globals ih =>
    obtain ⟨i, hi, hw⟩ := Option.bind_eq_some_iff.mp hw
    obtain ⟨old, -, hw⟩ := Option.bind_eq_some_iff.mp hw
    obtain ⟨value, -, hw⟩ := Option.bind_eq_some_iff.mp hw
    refine Writes.trans ?_ (ih hw)
    exact writes_set hi rfl rfl fun t ht _ he => Or.inr ⟨t, ht, he⟩

/-! ## What `initialize_tables` writes -/

/-- A store to a table. -/
theorem setElement_writes {p : DefinitionPtr} {at' : Nat} {f : VMCallerCheckedAnyfunc}
    (hs : h.setElement p at' f = some h') (hW : W p.vmctx f) : Writes W h h' := by
  obtain ⟨i, hi, hs⟩ := Option.bind_eq_some_iff.mp hs
  obtain ⟨t, ht, hs⟩ := Option.bind_eq_some_iff.mp hs
  obtain ⟨-, hs⟩ := Option.ite_none_right_eq_some.mp hs
  obtain rfl := Option.some.inj hs
  refine writes_set hi rfl rfl fun t' ht' e he => ?_
  rcases List.mem_or_eq_of_mem_set ht' with hmem | rfl
  · exact Or.inr ⟨t', hmem, he⟩
  · rcases List.mem_or_eq_of_mem_set he with hmem | he
    · exact Or.inr ⟨t, List.mem_of_getElem? ht, hmem⟩
    · obtain rfl := Option.some.inj he
      exact Or.inl hW

/-- The instance has this module and these imports. -/
def Has (h : Heap Sig) (me : Nat) (module : Module Sig) (imports : Imports) : Prop :=
  ∃ i, h[me]? = some i ∧ i.module = module ∧ i.vmctx.imports = imports

variable {me : Nat} {module : Module Sig} {imports : Imports}

theorem Writes.has (hw : Writes W h h') (hh : Has h me module imports) :
    Has h' me module imports := by
  obtain ⟨i, hi, rfl, rfl⟩ := hh
  have hlt : me < h'.length := by
    rw [hw.length]
    exact (List.getElem?_eq_some_iff.mp hi).1
  have hget := List.getElem?_eq_getElem hlt
  obtain ⟨i₀, hi₀, hm, himp, -⟩ := hw.placed me _ hget
  obtain rfl := Option.some.inj (hi.symm.trans hi₀)
  exact ⟨_, hget, hm, himp⟩

theorem functionVmctx_of_anyfunc (hh : Has h me module imports) {f : UInt32}
    {e : VMCallerCheckedAnyfunc} (he : h.anyfunc me f = some e) :
    FunctionVmctx module imports me f.toNat e.vmctx := by
  obtain ⟨i, hi, rfl, rfl⟩ := hh
  rcases (entryOf_of_anyfunc hi he).2 with ⟨d, hd, -, hv⟩ | ⟨hd, himp⟩
  · exact Or.inl ⟨by rw [hd]; rfl, hv⟩
  · exact Or.inr ⟨hd, _, himp, rfl⟩

/-- The instance whose table a table index stands for. -/
def TableVmctx (module : Module Sig) (imports : Imports) (me index vmctx : Nat) : Prop :=
  ((module.definedTableIndex index).isSome ∧ vmctx = me) ∨
    (module.definedTableIndex index = none ∧
      ∃ imp, imports.tables[index]? = some imp ∧ imp.vmctx = vmctx)

theorem tableVmctx_of_tablePtr (hh : Has h me module imports) {addr : Nat → BitVec 64} {index : Nat}
    {p : DefinitionPtr} (hp : h.tablePtr addr me index = some p) :
    TableVmctx module imports me index p.vmctx := by
  obtain ⟨i, hi, rfl, rfl⟩ := hh
  unfold Heap.tablePtr at hp
  rw [hi, Option.bind_some] at hp
  cases hd : i.module.definedTableIndex index with
  | some d =>
    rw [hd] at hp
    obtain rfl := Option.some.inj hp
    exact Or.inl ⟨by rw [hd]; rfl, rfl⟩
  | none =>
    rw [hd] at hp
    obtain ⟨imp, himp, hp⟩ := Option.bind_eq_some_iff.mp hp
    obtain ⟨_, -, hp⟩ := Option.bind_eq_some_iff.mp hp
    obtain ⟨_, -, hp⟩ := Option.bind_eq_some_iff.mp hp
    obtain ⟨_, -, rfl⟩ := Option.map_eq_some_iff.mp hp
    exact Or.inr ⟨hd, imp, himp, rfl⟩

/-- What the element segments put where. -/
def ElementWrites (module : Module Sig) (imports : Imports) (me k : Nat)
    (e : VMCallerCheckedAnyfunc) : Prop :=
  ∃ init ∈ module.tableElements, TableVmctx module imports me init.tableIndex.toNat k ∧
    ∃ f ∈ init.elements, FunctionVmctx module imports me f.toNat e.vmctx

theorem writeElements_writes {p : DefinitionPtr} {fs : List UInt32} {at' : Nat}
    (hh : Has h me module imports)
    (hW : ∀ f ∈ fs, ∀ e, FunctionVmctx module imports me f.toNat e.vmctx → W p.vmctx e)
    (hw : Heap.writeElements me p h at' fs = some h') : Writes W h h' := by
  induction fs generalizing h at' with
  | nil =>
    obtain rfl := Option.some.inj hw
    exact .refl _
  | cons f fs ih =>
    obtain ⟨e, he, hw⟩ := Option.bind_eq_some_iff.mp hw
    obtain ⟨h₁, hset, hw⟩ := Option.bind_eq_some_iff.mp hw
    have hwrite := hW f (List.mem_cons_self ..) e (functionVmctx_of_anyfunc hh he)
    have hfirst : Writes W h h₁ := setElement_writes hset hwrite
    exact hfirst.trans (ih (hfirst.has hh) (fun f hf => hW f (List.mem_cons_of_mem _ hf)) hw)

theorem initializeTablesLoop_writes {addr : Nat → BitVec 64} {inits : List TableElements}
    (hh : Has h me module imports) (hin : ∀ init ∈ inits, init ∈ module.tableElements)
    (hw : Heap.initializeTablesLoop addr me h inits = some h') :
    Writes (ElementWrites module imports me) h h' := by
  induction inits generalizing h with
  | nil =>
    obtain rfl := Option.some.inj hw
    exact .refl _
  | cons init inits ih =>
    obtain ⟨h₁, hround, hw⟩ := Option.bind_eq_some_iff.mp hw
    obtain ⟨start, -, hround⟩ := Option.bind_eq_some_iff.mp hround
    obtain ⟨⟨p, n⟩, hslice, hround⟩ := Option.bind_eq_some_iff.mp hround
    obtain ⟨-, hround⟩ := Option.ite_none_right_eq_some.mp hround
    obtain ⟨q, hq, hslice⟩ := Option.bind_eq_some_iff.mp hslice
    obtain ⟨_, -, hslice⟩ := Option.bind_eq_some_iff.mp hslice
    obtain ⟨_, -, he⟩ := Option.map_eq_some_iff.mp hslice
    obtain ⟨rfl, -⟩ := Prod.mk.inj he
    have hfirst : Writes (ElementWrites module imports me) h h₁ :=
      writeElements_writes hh (fun f hf e hfun => ⟨init, hin init (List.mem_cons_self ..),
        tableVmctx_of_tablePtr hh hq, f, hf, hfun⟩) hround
    exact hfirst.trans (ih (hfirst.has hh) (fun init hi => hin init (List.mem_cons_of_mem _ hi)) hw)

end

/-! ## The invariant -/

/-- The invariant: the counts are in balance, and an instance points only to what its dependencies
reach. -/
structure Inv (s : State Sig) : Prop where
  length : s.cells.length = s.store.heap.length
  balanced : Balanced s.handles s.cells []
  fresh : ∀ k, s.cells.length ≤ k → s.handles k = 0
  pointers : ∀ k v, PointsTo s.store.heap k v → Reaches s.cells k v

/-- A handle that is held is of an instance that is there. -/
theorem Inv.lt {s : State Sig} (hi : Inv s) {k : Nat} (hk : 0 < s.handles k) :
    k < s.cells.length := by
  by_contra hge
  rw [hi.fresh k (Nat.not_lt.mp hge)] at hk
  exact absurd hk (by simp)

theorem Inv.sound {s : State Sig} (hi : Inv s) : Sound s := by
  refine ⟨fun k v hl hp => ?_, fun k c hk => hi.balanced.count k c hk, hi.balanced.dropped,
    fun k hk => ?_⟩
  · exact hi.balanced.live_of_reaches hl (hi.pointers k v hp)
  · obtain ⟨cells', hrel, -, -⟩ := release_spec (hi.balanced.unhold (hi.lt hk) hk)
    rw [hrel]
    rfl

theorem inv_new : Inv (State.new : State Sig) := by
  refine ⟨rfl, ⟨?_, ?_, ?_, ?_⟩, fun _ _ => rfl, fun k v hp => ?_⟩
  · exact fun k c hk => absurd hk (by simp [State.new])
  · exact fun k c hk => absurd hk (by simp [State.new])
  · exact fun k c hk => absurd hk (by simp [State.new])
  · exact fun k hk => absurd hk (by simp)
  · cases hp <;> simp_all [State.new]

section

variable {s : State Sig} {k v : Nat}

/-- An export carries the `VMContext` of the instance it comes from, or of one that this reaches. -/
theorem exports_reaches (hi : Inv s) {e : ExportValue Sig} (he : Exports s.store.heap k e) :
    Reaches s.cells k (exportVmctx e) := by
  obtain ⟨i, name, d, hk, -, hl⟩ := he
  cases d with
  | function index =>
    obtain ⟨sig, -, hl⟩ := Option.bind_eq_some_iff.mp hl
    obtain ⟨⟨address, v⟩, hf, rfl⟩ := Option.map_eq_some_iff.mp hl
    unfold Instance.lookupFunction at hf
    split at hf
    · obtain ⟨_, -, he⟩ := Option.map_eq_some_iff.mp hf
      obtain ⟨-, rfl⟩ := Prod.mk.inj he
      exact .refl
    · obtain ⟨imp, himp, he⟩ := Option.map_eq_some_iff.mp hf
      obtain ⟨-, rfl⟩ := Prod.mk.inj he
      exact hi.pointers _ _ (.function hk (List.mem_of_getElem? himp))
  | table index =>
    obtain ⟨plan, -, hl⟩ := Option.bind_eq_some_iff.mp hl
    obtain ⟨⟨p, v⟩, hdef, rfl⟩ := Option.map_eq_some_iff.mp hl
    unfold Instance.lookupDefinition at hdef
    split at hdef
    · obtain ⟨-, rfl⟩ := Prod.mk.inj (Option.some.inj hdef)
      exact .refl
    · obtain ⟨imp, himp, he⟩ := Option.map_eq_some_iff.mp hdef
      obtain ⟨-, rfl⟩ := Prod.mk.inj he
      exact hi.pointers _ _ (.table hk (List.mem_of_getElem? himp))
  | memory index =>
    obtain ⟨plan, -, hl⟩ := Option.bind_eq_some_iff.mp hl
    obtain ⟨⟨p, v⟩, hdef, rfl⟩ := Option.map_eq_some_iff.mp hl
    unfold Instance.lookupDefinition at hdef
    split at hdef
    · obtain ⟨-, rfl⟩ := Prod.mk.inj (Option.some.inj hdef)
      exact .refl
    · obtain ⟨imp, himp, he⟩ := Option.map_eq_some_iff.mp hdef
      obtain ⟨-, rfl⟩ := Prod.mk.inj he
      exact hi.pointers _ _ (.memory hk (List.mem_of_getElem? himp))
  | global index =>
    obtain ⟨global, -, hl⟩ := Option.bind_eq_some_iff.mp hl
    obtain ⟨p, -, rfl⟩ := Option.map_eq_some_iff.mp hl
    exact .refl

/-- The definition of an exported global is in an instance that the `VMContext` of the export
reaches. -/
theorem exports_global_reaches (hi : Inv s) {p : DefinitionPtr} {vmctx : Nat} {global : Global}
    (he : Exports s.store.heap k (.global p vmctx global)) : Reaches s.cells vmctx p.vmctx := by
  obtain ⟨i, name, d, hk, -, hl⟩ := he
  cases d with
  | function index =>
    obtain ⟨_, -, hl⟩ := Option.bind_eq_some_iff.mp hl
    obtain ⟨_, -, hl⟩ := Option.map_eq_some_iff.mp hl
    exact absurd hl (by simp)
  | table index =>
    obtain ⟨_, -, hl⟩ := Option.bind_eq_some_iff.mp hl
    obtain ⟨_, -, hl⟩ := Option.map_eq_some_iff.mp hl
    exact absurd hl (by simp)
  | memory index =>
    obtain ⟨_, -, hl⟩ := Option.bind_eq_some_iff.mp hl
    obtain ⟨_, -, hl⟩ := Option.map_eq_some_iff.mp hl
    exact absurd hl (by simp)
  | global index =>
    obtain ⟨g, -, hl⟩ := Option.bind_eq_some_iff.mp hl
    obtain ⟨q, hq, hl⟩ := Option.map_eq_some_iff.mp hl
    obtain ⟨rfl, rfl, -⟩ := ExportValue.global.inj hl
    unfold Instance.lookupGlobal at hq
    split at hq
    · obtain rfl := Option.some.inj hq
      exact .refl
    · exact hi.pointers _ _ (.global hk (List.mem_of_getElem? hq))

/-- Counts that change and nothing else. -/
theorem Inv.recount (hi : Inv s) {cells : List Cell} {handles : Nat → Nat}
    (hf : Frame s.cells cells) (hb : Balanced handles cells [])
    (hfresh : ∀ k, cells.length ≤ k → handles k = 0) : Inv { s with cells, handles } := by
  refine ⟨hf.length.trans hi.length, hb, hfresh, fun k v hp => ?_⟩
  rw [hf.reaches]
  exact hi.pointers k v hp

/-! ## Operations of handles keep the invariant -/

/-- Another handle. -/
theorem Inv.retain (hi : Inv s) (hl : Live s.cells k) {cells : List Cell}
    (hr : RefCount.retain s.cells k = some cells) :
    Inv { s with cells, handles := Function.update s.handles k (s.handles k + 1) } := by
  obtain ⟨cells', hr', hb, hf, -⟩ := retain_spec hi.balanced hl
  obtain rfl := Option.some.inj (hr.symm.trans hr')
  obtain ⟨c, hk, -⟩ := hl
  have hlt := (List.getElem?_eq_some_iff.mp hk).1
  refine hi.recount hf hb.hold fun j hj => ?_
  rw [hf.length] at hj
  rw [Function.update_of_ne (by omega)]
  exact hi.fresh j hj

/-- A handle less. -/
theorem Inv.release (hi : Inv s) (hh : 0 < s.handles k) {cells : List Cell}
    (hr : RefCount.release s.cells [k] = some cells) :
    Inv { s with cells, handles := Function.update s.handles k (s.handles k - 1) } := by
  have hlt := hi.lt hh
  obtain ⟨cells', hr', hb, hf⟩ := release_spec (hi.balanced.unhold hlt hh)
  obtain rfl := Option.some.inj (hr.symm.trans hr')
  refine hi.recount hf hb fun j hj => ?_
  rw [hf.length] at hj
  rw [Function.update_of_ne (by omega)]
  exact hi.fresh j hj

/-- The set of dependencies is dropped again. -/
theorem Inv.forget (hi : Inv s) {cells cells' : List Cell} {dependencies : List Nat}
    (hf : Frame s.cells cells) (hb : Balanced s.handles cells dependencies)
    (hr : RefCount.release cells dependencies = some cells') : Inv { s with cells := cells' } := by
  obtain ⟨cells₁, hr', hb', hf'⟩ := release_spec hb
  obtain rfl := Option.some.inj (hr.symm.trans hr')
  have hall := hf.trans hf'
  refine hi.recount hall hb' fun j hj => ?_
  rw [hall.length] at hj
  exact hi.fresh j hj

/-! ## A new instance keeps the invariant -/

theorem createTables_empty {alloc : Nat → Nat} {plans : List TablePlan} {j : Nat}
    {tables : List (Table VMCallerCheckedAnyfunc)} (hc : createTables alloc j plans = .ok tables) :
    ∀ t ∈ tables, ∀ e, some e ∉ t.vec := by
  induction plans generalizing j tables with
  | nil =>
    obtain rfl := Ending.ok.inj hc
    exact fun t ht => absurd ht (by simp)
  | cons plan plans ih =>
    obtain ⟨t, ht, hc⟩ := Ending.bind_eq_ok.mp hc
    obtain ⟨ts, hts, rfl⟩ := Ending.map_eq_ok.mp hc
    refine List.forall_mem_cons.mpr ⟨fun e he => ?_, ih hts⟩
    unfold Table.new at ht
    split at ht
    · exact absurd ht (by simp)
    · obtain rfl := Ending.ok.inj ht
      exact absurd (List.eq_of_mem_replicate he) (by simp)

/-- A new instance points to what was linked. -/
theorem pointsTo_allocate {g : InstanceHandle.Given Sig} {module : Module Sig} {i : Placed Sig}
    (ha : InstanceHandle.allocate g module = .ok i) {h : Heap Sig} (hk : h[k]? = some i)
    (hp : PointsTo h k v) :
    (∃ imp ∈ g.imports.functions, imp.vmctx = v) ∨ (∃ imp ∈ g.imports.tables, imp.vmctx = v) ∨
      (∃ imp ∈ g.imports.memories, imp.vmctx = v) ∨ ∃ p ∈ g.imports.globals, p.vmctx = v := by
  have hnew := (allocate_ok ha).1
  have himports := (Instance.inv_new hnew).2.2
  cases hp with
  | function hk' hi =>
    obtain rfl := Option.some.inj (hk.symm.trans hk')
    exact Or.inl ⟨_, himports ▸ hi, rfl⟩
  | table hk' hi =>
    obtain rfl := Option.some.inj (hk.symm.trans hk')
    exact Or.inr (Or.inl ⟨_, himports ▸ hi, rfl⟩)
  | memory hk' hi =>
    obtain rfl := Option.some.inj (hk.symm.trans hk')
    exact Or.inr (Or.inr (Or.inl ⟨_, himports ▸ hi, rfl⟩))
  | global hk' hi =>
    obtain rfl := Option.some.inj (hk.symm.trans hk')
    exact Or.inr (Or.inr (Or.inr ⟨_, himports ▸ hi, rfl⟩))
  | entry hk' ht he =>
    obtain rfl := Option.some.inj (hk.symm.trans hk')
    unfold Instance.new at hnew
    obtain ⟨tables, htables, hnew⟩ := Ending.bind_eq_ok.mp hnew
    obtain ⟨_, -, hnew⟩ := Ending.bind_eq_ok.mp hnew
    obtain ⟨_, -, hnew⟩ := Ending.bind_eq_ok.mp hnew
    obtain ⟨_, -, hnew⟩ := Ending.map_eq_ok.mp hnew
    rw [← hnew] at ht
    exact absurd he (createTables_empty htables _ ht _)

theorem PointsTo.lt {h : Heap Sig} (hp : PointsTo h k v) : k < h.length := by
  cases hp with
  | function hk _ => exact (List.getElem?_eq_some_iff.mp hk).1
  | table hk _ => exact (List.getElem?_eq_some_iff.mp hk).1
  | memory hk _ => exact (List.getElem?_eq_some_iff.mp hk).1
  | global hk _ => exact (List.getElem?_eq_some_iff.mp hk).1
  | entry hk _ _ => exact (List.getElem?_eq_some_iff.mp hk).1

theorem PointsTo.of_snoc {h : Heap Sig} {i : Placed Sig} (hlt : k < h.length)
    (hp : PointsTo (h ++ [i]) k v) : PointsTo h k v := by
  have hget : (h ++ [i])[k]? = h[k]? := List.getElem?_append_left hlt
  cases hp with
  | function hk hi => exact .function (hget ▸ hk) hi
  | table hk hi => exact .table (hget ▸ hk) hi
  | memory hk hi => exact .memory (hget ▸ hk) hi
  | global hk hi => exact .global (hget ▸ hk) hi
  | entry hk ht he => exact .entry (hget ▸ hk) ht he

/-- What a successful `InstanceHandle::new` writes into tables. -/
theorem new_writes {g : InstanceHandle.Given Sig} {module : Module Sig} {i : Placed Sig}
    {store store' : Runtime.Store Sig} (ha : InstanceHandle.allocate g module = .ok i)
    (hstart : ∀ me h, Quiet h (g.start me h).1)
    (happ : InstanceHandle.Applied g module i store store') :
    Writes (ElementWrites module g.imports store.heap.length) (store.heap ++ [i]) store'.heap := by
  obtain ⟨-, hmod, himp⟩ := Instance.inv_new (allocate_ok ha).1
  obtain ⟨h₁, h₂, h₃, ht, hm, hg, he⟩ := happ
  obtain ⟨j, hj, ht⟩ := Option.bind_eq_some_iff.mp ht
  have hlast : (store.heap ++ [i])[store.heap.length]? = some i := List.getElem?_concat_length ..
  obtain rfl := Option.some.inj (hlast.symm.trans hj)
  have hhas : Has (store.heap ++ [i]) store.heap.length module g.imports := ⟨i, hlast, hmod, himp⟩
  have htables := initializeTablesLoop_writes hhas (fun init hinit => hmod ▸ hinit) ht
  rw [he]
  exact ((htables.trans (initializeMemories_quiet hm).writes).trans
    (initializeGlobals_quiet hg).writes).trans (hstart _ _).writes

variable {resolve : Resolver Sig} {g : InstanceHandle.Given Sig} {module : Module Sig}

/-- The instance that `InstanceHandle::new` returns keeps the invariant. -/
theorem Inv.push (hi : Inv s) {cells : List Cell} {deps : List Nat} {me : Nat}
    {store : Runtime.Store Sig} (hf : Frame s.cells cells) (hb : Balanced s.handles cells deps)
    (hrec : RecordedFor resolve deps g.imports)
    (hres : ∀ module field e, resolve module field = some e → ∃ k, Exports s.store.heap k e)
    (hstart : ∀ me h, Quiet h (g.start me h).1)
    (helem : ∀ init ∈ module.tableElements, module.definedTableIndex init.tableIndex.toNat = none →
      ∀ imp, g.imports.tables[init.tableIndex.toNat]? = some imp → ∀ f ∈ init.elements, ∀ v,
        FunctionVmctx module g.imports s.store.heap.length f.toNat v → Reaches s.cells imp.vmctx v)
    (hn : InstanceHandle.new g module s.store = .ok me store) :
    Inv ⟨store, cells ++ [⟨1, deps, false⟩],
      Function.update s.handles me (s.handles me + 1)⟩ := by
  obtain ⟨rfl, i, ha, happ⟩ := InstanceHandle.new_ok hn
  have hlen : cells.length = s.store.heap.length := hf.length.trans hi.length
  have hwrites := new_writes ha hstart happ
  have hlength := hwrites.length
  rw [List.length_append, List.length_singleton] at hlength
  have hkeep : ∀ {k v}, Reaches s.cells k v → Reaches (cells ++ [⟨1, deps, false⟩]) k v :=
    fun hr => Reaches.snoc (hf.reaches ▸ hr) _
  have hdep : ∀ v ∈ deps, Refers (cells ++ [⟨1, deps, false⟩]) s.store.heap.length v :=
    fun v hv => hlen ▸ refers_last cells hv
  refine ⟨?_, ?_, fun k hk => ?_, fun k v hp => ?_⟩
  · rw [List.length_append, List.length_singleton, hlength, hlen]
  · have hpush := push_spec hb (hi.fresh _ (Nat.le_of_eq hf.length.symm))
    rw [hlen] at hpush
    exact hpush.hold
  · rw [List.length_append, List.length_singleton] at hk
    have hne : k ≠ s.store.heap.length := by omega
    have hle : s.cells.length ≤ k := by
      rw [hi.length]
      omega
    exact (Function.update_of_ne hne _ _).trans (hi.fresh k hle)
  · -- a pointer was there, is one of the new import arrays, or was written by a segment
    rcases hwrites.pointsTo hp with hold | ⟨e, ⟨init, hinit, htab, f, hmem, hfun⟩, rfl⟩
    · by_cases hlt : k < s.store.heap.length
      · exact hkeep (hi.pointers k v (hold.of_snoc hlt))
      · have hk := hold.lt
        rw [List.length_append, List.length_singleton] at hk
        obtain rfl : k = s.store.heap.length := by omega
        rcases pointsTo_allocate ha (List.getElem?_concat_length ..) hold with
          ⟨imp, himp, rfl⟩ | ⟨imp, himp, rfl⟩ | ⟨imp, himp, rfl⟩ | ⟨p, hglobal, rfl⟩
        · exact .single (hdep _ (hrec.functions imp himp))
        · exact .single (hdep _ (hrec.tables imp himp))
        · exact .single (hdep _ (hrec.memories imp himp))
        · obtain ⟨v, hv, name, field, global, hr⟩ := hrec.globals p hglobal
          obtain ⟨k, hexp⟩ := hres _ _ _ hr
          exact .head (hdep v hv) (hkeep (exports_global_reaches hi hexp))
    · rcases htab with ⟨-, rfl⟩ | ⟨hnone, imp, himp, rfl⟩
      · rcases hfun with ⟨-, hv⟩ | ⟨-, imp, himp, hv⟩
        · rw [hv]
          exact .refl
        · rw [← hv]
          exact .single (hdep _ (hrec.functions imp (List.mem_of_getElem? himp)))
      · exact hkeep (helem init hinit hnone imp himp f hmem _ hfun)

variable [DecidableEq Sig] {s' : State Sig}

/-- `instantiate` keeps the invariant. -/
theorem instantiate_inv (hi : Inv s) (hv : (Event.instantiate module resolve g).Valid s)
    (hm : (Event.instantiate module resolve g).Meets s)
    (he : exec s (.instantiate module resolve g) = some s') : Inv s' := by
  obtain ⟨hres, hstart⟩ := hv
  have hlive : ∀ v ∈ recorded resolve module, Live s.cells v := by
    intro v hv
    obtain ⟨name, field, e, hr, rfl⟩ := recorded_from hv
    obtain ⟨k, hk, hexp⟩ := hres _ _ _ hr
    exact hi.balanced.live_of_reaches hk (exports_reaches hi hexp)
  obtain ⟨cells, deps, hins, hb, hf, hmem⟩ := insertDependencies_spec hi.balanced hlive
  rw [exec, hins] at he
  simp only [Option.bind_some] at he
  cases hl : linkModule resolve module with
  | panic p =>
    rw [hl] at he
    exact absurd he (by simp)
  | err e =>
    rw [hl] at he
    obtain ⟨cells', hrel, rfl⟩ := Option.map_eq_some_iff.mp he
    exact hi.forget hf hb hrel
  | ok imports =>
    rw [hl] at he
    simp only at he
    obtain ⟨hcompletes, helem⟩ := hm imports hl
    have hrec : RecordedFor resolve deps imports := by
      have hr := linkModule_recorded hl
      have hin : ∀ v ∈ recorded resolve module, v ∈ deps := fun v hv => (hmem v).mpr (Or.inr hv)
      refine ⟨fun imp h => hin _ (hr.functions imp h), fun imp h => hin _ (hr.tables imp h),
        fun imp h => hin _ (hr.memories imp h), fun p h => ?_⟩
      obtain ⟨v, hv, hrest⟩ := hr.globals p h
      exact ⟨v, hin v hv, hrest⟩
    unfold newInstance at he
    cases ha : InstanceHandle.allocate { g with imports } module with
    | panic p =>
      rw [ha] at he
      exact absurd he (by simp)
    | err =>
      rw [ha] at he
      obtain ⟨cells', hrel, rfl⟩ := Option.map_eq_some_iff.mp he
      exact hi.forget hf hb hrel
    | ok i =>
      rw [ha] at he
      simp only at he
      cases hn : InstanceHandle.new { g with imports } module s.store with
      | panic =>
        rw [hn] at he
        exact absurd he (by simp)
      | err e store => exact absurd hn (InstanceHandle.new_ne_err ha (hcompletes i ha) e)
      | ok me store =>
        rw [hn] at he
        obtain rfl := Option.some.inj he
        refine Inv.push (g := { g with imports }) hi hf hb hrec (fun _ _ _ hr => ?_) hstart helem hn
        obtain ⟨k, -, hexp⟩ := hres _ _ _ hr
        exact ⟨k, hexp⟩

/-- **One step keeps the invariant.** -/
theorem exec_inv (hi : Inv s) {e : Event Sig} (hv : e.Valid s) (hm : e.Meets s)
    (he : exec s e = some s') : Inv s' := by
  cases e with
  | instantiate module resolve g => exact instantiate_inv hi hv hm he
  | clone k =>
    obtain ⟨hh, he⟩ := Option.ite_none_right_eq_some.mp he
    obtain ⟨cells, hr, rfl⟩ := Option.map_eq_some_iff.mp he
    exact hi.retain (hi.balanced.live (hi.lt hh) (by omega)) hr
  | fromVmctx k =>
    obtain ⟨cells, hr, rfl⟩ := Option.map_eq_some_iff.mp he
    exact hi.retain hv hr
  | drop k =>
    obtain ⟨hh, he⟩ := Option.ite_none_right_eq_some.mp he
    obtain ⟨cells, hr, rfl⟩ := Option.map_eq_some_iff.mp he
    exact hi.release hh hr
  | code f =>
    obtain rfl := Option.some.inj he
    have hq : Quiet s.store.heap (f s.store.heap) := hv _
    refine ⟨hi.length.trans hq.length.symm, hi.balanced, hi.fresh, fun k v hp => ?_⟩
    rcases Writes.pointsTo hq hp with hold | ⟨_, hw, -⟩
    · exact hi.pointers k v hold
    · exact hw.elim

/-- One step of a run. -/
def Step (s s' : State Sig) : Prop := ∃ e : Event Sig, e.Valid s ∧ exec s e = some s'

/-- One step that meets the condition. -/
def MeetingStep (s s' : State Sig) : Prop :=
  ∃ e : Event Sig, e.Valid s ∧ e.Meets s ∧ exec s e = some s'

/-- **Instances that are pointed to are alive.** In every run whose steps all meet the condition, in
every state reached: no pointer in an import array or a table entry of an instance that is alive goes
to one that has been dropped, every count is the number of handles and of dependencies, and exactly
the instances with count zero have been dropped. -/
theorem liveness (hr : Relation.ReflTransGen MeetingStep (State.new : State Sig) s) : Sound s := by
  have hi : Inv s := by
    induction hr with
    | refl => exact inv_new
    | tail _ hstep ih =>
      obtain ⟨e, hv, hm, he⟩ := hstep
      exact exec_inv ih hv hm he
  exact hi.sound

end

/-- A module with a table of one entry, exported. -/
def tableExporter : Module Unit :=
  { (Module.new : Module Unit) with
    tablePlans := [⟨⟨.func, 1, none⟩, .callerChecksSignature⟩]
    exports := [("t", .table 0)] }

/-- A module that imports the table. -/
def tableImporter : Module Unit :=
  { (Module.new : Module Unit) with
    importedTables := [("m", "t")]
    tablePlans := [⟨⟨.func, 1, none⟩, .callerChecksSignature⟩] }

theorem oneFunction_lt : ([0] : List UInt32).length < 2 ^ 63 := by decide

/-- A module that imports the table and puts a function of its own into it. -/
def tableFiller : Module Unit :=
  { tableImporter with
    signatures := [()]
    functions := [0]
    tableElements := [⟨0, none, 0, [0], oneFunction_lt⟩] }

/-- What the host gives; the code of the only function is at address 100. -/
def given : InstanceHandle.Given Unit where
  host := LinearMemory.host4K
  os := fun _ => ⟨none, false⟩
  alloc := id
  mapped := true
  addr := fun _ => 0
  finishedFunctions := [100]
  imports := ⟨[], [], [], []⟩
  dataInitializers := []
  vmsharedSignatures := [7]
  start := fun _ h => (h, none)

/-- The exports of the first instance. -/
def firstTable : Resolver Unit := fun _ _ =>
  some (.table ⟨0, 0⟩ 0 ⟨⟨.func, 1, none⟩, .callerChecksSignature⟩)

/-- The state after a step. -/
def after (s : State Unit) (e : Event Unit) : State Unit := (exec s e).getD s

/-- An instance of the exporter. -/
def exportEvent : Event Unit := .instantiate tableExporter (fun _ _ => none) given

theorem valid_exportEvent : exportEvent.Valid .new :=
  ⟨fun _ _ _ h => absurd h (by simp), fun _ _ => Writes.refl _⟩

/-- Another instance, linked to the table of the first. -/
def linkEvent (module : Module Unit) : Event Unit := .instantiate module firstTable given

theorem valid_linkEvent (module : Module Unit) :
    (linkEvent module).Valid (after .new exportEvent) := by
  refine ⟨fun _ _ e he => ?_, fun _ _ => Writes.refl _⟩
  obtain rfl := Option.some.inj he
  exact ⟨0, ⟨_, rfl, rfl⟩, _, "t", .table 0, rfl, List.mem_singleton.mpr rfl, rfl⟩

/-- The second instance has put its function into the table of the first, and its handle has been
dropped. -/
def dangling : State Unit := after (after (after .new exportEvent) (linkEvent tableFiller)) (.drop 1)

/-- The entry of the first instance, which is alive, points to the second, which is not. -/
theorem dangling_entry :
    Relation.ReflTransGen Step (State.new : State Unit) dangling ∧ Live dangling.cells 0 ∧
      PointsTo dangling.store.heap 0 1 ∧ ¬ Live dangling.cells 1 := by
  have hexport : Step (State.new : State Unit) (after .new exportEvent) :=
    ⟨exportEvent, valid_exportEvent, rfl⟩
  have hlink : Step (after .new exportEvent)
      (after (after .new exportEvent) (linkEvent tableFiller)) :=
    ⟨linkEvent tableFiller, valid_linkEvent _, rfl⟩
  have hdrop : Step (after (after .new exportEvent) (linkEvent tableFiller)) dangling :=
    ⟨.drop 1, Nat.zero_lt_one, rfl⟩
  refine ⟨((Relation.ReflTransGen.single hexport).tail hlink).tail hdrop, ⟨_, rfl, rfl⟩, ?_, ?_⟩
  · have hentry : some (⟨100, 7, 1⟩ : VMCallerCheckedAnyfunc) ∈
        [some (⟨100, 7, 1⟩ : VMCallerCheckedAnyfunc)] := List.mem_singleton.mpr rfl
    exact @PointsTo.entry _ dangling.store.heap 0 _ _ ⟨100, 7, 1⟩ rfl (List.mem_singleton.mpr rfl)
      hentry
  · rintro ⟨c, hc, hd⟩
    obtain rfl := Option.some.inj hc
    exact absurd hd (by simp)

/-- A module that exports a table of one entry and a function. -/
def functionExporter : Module Unit :=
  { tableExporter with
    signatures := [()]
    functions := [0]
    exports := [("t", .table 0), ("f", .function 0)] }

/-- A module that imports both. It puts the function into the table, and a function of its own into a table of
its own. -/
def tableReturner : Module Unit :=
  { tableImporter with
    signatures := [()]
    importedFuncs := [("m", "f")]
    functions := [0, 0]
    tablePlans := [⟨⟨.func, 1, none⟩, .callerChecksSignature⟩, ⟨⟨.func, 1, none⟩, .callerChecksSignature⟩]
    tableElements := [⟨0, none, 0, [0], oneFunction_lt⟩, ⟨1, none, 0, [1], oneFunction_lt⟩] }

/-- The exports of an instance of `functionExporter`. -/
def firstExports : Resolver Unit := fun _ field =>
  if field = "f" then some (.function 100 0 ())
  else some (.table ⟨0, 0⟩ 0 ⟨⟨.func, 1, none⟩, .callerChecksSignature⟩)

/-- An instance of `functionExporter`. -/
def functionEvent : Event Unit := .instantiate functionExporter (fun _ _ => none) given

/-- An instance of `tableReturner`, linked to it. -/
def returnEvent : Event Unit := .instantiate tableReturner firstExports given

/-- The handle of the exporter has been dropped; the importer keeps it alive. -/
def keptAlive : State Unit := after (after (after .new functionEvent) returnEvent) (.drop 0)

theorem valid_functionEvent : functionEvent.Valid .new :=
  ⟨fun _ _ _ h => absurd h (by simp), fun _ _ => Writes.refl _⟩

theorem meets_functionEvent : functionEvent.Meets .new := by
  intro imports hl
  obtain rfl := Ending.ok.inj hl
  refine ⟨fun i ha => ?_, fun init hinit => absurd hinit (by simp [functionExporter, tableExporter, Module.new])⟩
  obtain rfl := Ending.ok.inj ha
  exact ⟨rfl, rfl, fun _ => rfl⟩

theorem valid_returnEvent : returnEvent.Valid (after .new functionEvent) := by
  refine ⟨fun _ field e he => ?_, fun _ _ => Writes.refl _⟩
  have hlive : Live (after .new functionEvent).cells 0 := ⟨_, rfl, rfl⟩
  unfold firstExports at he
  split at he
  · obtain rfl := Option.some.inj he
    exact ⟨0, hlive, _, "f", .function 0, rfl, by decide, rfl⟩
  · obtain rfl := Option.some.inj he
    exact ⟨0, hlive, _, "t", .table 0, rfl, by decide, rfl⟩

theorem meets_returnEvent : returnEvent.Meets (after .new functionEvent) := by
  intro imports hl
  obtain rfl := Ending.ok.inj hl
  refine ⟨fun i ha => ?_, fun init hinit htable imp himp f hf v hv => ?_⟩
  · obtain rfl := Ending.ok.inj ha
    exact ⟨rfl, rfl, fun _ => rfl⟩
  · rcases List.mem_cons.mp hinit with rfl | hinit
    · obtain rfl := List.mem_singleton.mp hf
      obtain rfl := Option.some.inj himp
      rcases hv with ⟨hdefined, -⟩ | ⟨-, imp, hfunction, rfl⟩
      · exact absurd hdefined (by decide)
      · obtain rfl := Option.some.inj hfunction
        exact .refl
    · obtain rfl := List.mem_singleton.mp hinit
      exact absurd htable (by decide)

/-- The table of the exporter, which has no handle left, holds its function, and the importer's table its own. -/
theorem liveness_keptAlive :
    keptAlive.handles 0 = 0 ∧ Live keptAlive.cells 0 ∧ PointsTo keptAlive.store.heap 0 0 ∧
      PointsTo keptAlive.store.heap 1 1 ∧ Sound keptAlive := by
  have hexport : MeetingStep (State.new : State Unit) (after .new functionEvent) :=
    ⟨functionEvent, valid_functionEvent, meets_functionEvent, rfl⟩
  have hlink : MeetingStep (after .new functionEvent) (after (after .new functionEvent) returnEvent) :=
    ⟨returnEvent, valid_returnEvent, meets_returnEvent, rfl⟩
  have hdrop : MeetingStep (after (after .new functionEvent) returnEvent) keptAlive :=
    ⟨.drop 0, Nat.zero_lt_one, trivial, rfl⟩
  have hlive : Live keptAlive.cells 0 := ⟨_, rfl, rfl⟩
  have hshared : PointsTo keptAlive.store.heap 0 0 :=
    @PointsTo.entry _ _ _ _ _ ⟨100, 7, 0⟩ rfl (List.mem_singleton.mpr rfl) (List.mem_singleton.mpr rfl)
  have hown : PointsTo keptAlive.store.heap 1 1 :=
    @PointsTo.entry _ _ _ _ _ ⟨100, 7, 1⟩ rfl (List.mem_singleton.mpr rfl) (List.mem_singleton.mpr rfl)
  exact ⟨rfl, hlive, hshared, hown,
    liveness (((Relation.ReflTransGen.single hexport).tail hlink).tail hdrop)⟩

end Liveness

end Wasmtime.Jit
