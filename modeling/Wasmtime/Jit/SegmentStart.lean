import Wasmtime.Jit.Instantiate

/-!
# Segment offsets and the order of the passes

`InstanceHandle::new` (`wasmtime-runtime/src/instance.rs`) checks the segments, applies them, and then
runs `initialize_globals`. `get_table_init_start` and `get_memory_init_start` have a case for a base
global that the module defines itself, and read it before the pass that gives it its value.

* `initialValues`: the values that the initializers of a module give to the globals it defines, from the
  values of the imported ones. A global that is copied before its turn is still zero.
* `ReadsElement`, `ReadsData`: the heaps in which the start of a segment is read, by the checks and by the
  two passes.
* `StartsRight`: every start that is read is the constant plus the value the base global holds after
  `initialize_globals`.

Results: `initializeGlobals_eq` (the pass computes `initialValues`) and `startsRight_iff` (the starts are
right exactly when every base is imported or comes to zero).
-/

namespace Wasmtime.Jit

open Environ Wasmtime.Runtime Wasmtime.Runtime.Heap

variable {Sig : Type}

/-! ## The values of the globals -/

/-- The value of an initializer, where `done` are the values of the defined globals before it. -/
def initialValue (m : Module Sig) (imported : Nat → Option (BitVec 128)) (done : List (BitVec 128)) :
    GlobalInit → Option (BitVec 128)
  | .i32Const x => some (BitVec.ofNat 128 x.toNat)
  | .i64Const x => some (BitVec.ofNat 128 x.toNat)
  | .f32Const x => some (BitVec.ofNat 128 x.toNat)
  | .f64Const x => some (BitVec.ofNat 128 x.toNat)
  | .v128Const x => some x
  | .getGlobal index =>
    match m.definedGlobalIndex index.toNat with
    | some defIndex => some (done.getD defIndex 0)
    | none => imported index.toNat
  | .imported => none

/-- The values of the defined globals, in order; `none` for an initializer that does not return. -/
def initialValues (m : Module Sig) (imported : Nat → Option (BitVec 128)) :
    List (BitVec 128) → List Global → Option (List (BitVec 128))
  | done, [] => some done
  | done, global :: rest => (initialValue m imported done global.initializer).bind fun value =>
    initialValues m imported (done ++ [value]) rest

/-- The global is imported, or the initializers of the module leave zero in its low 32 bits. -/
def BaseIsZero (m : Module Sig) (imported : Nat → Option (BitVec 128)) (base : UInt32) : Prop :=
  ∃ values, initialValues m imported [] (m.globals.drop m.importedGlobals.length) = some values ∧
    ∀ defIndex, m.definedGlobalIndex base.toNat = some defIndex →
      asU32 (values.getD defIndex 0) = 0

/-- The value of an imported global. -/
def importedGlobal (imports : Imports) (h : Heap Sig) (index : Nat) : Option (BitVec 128) :=
  imports.globals[index]?.bind fun p => h[p.vmctx]?.bind fun j => j.globals[p.index]?

/-! ## Where the starts are read -/

/-- A heap in which the start of an element segment is read: by the check, or in its round of
`initialize_tables`. -/
def ReadsElement (addr : Nat → BitVec 64) (m : Module Sig) (me : Nat) (h₀ : Heap Sig)
    (init : TableElements) (h : Heap Sig) : Prop :=
  h = h₀ ∨ ∃ before after, m.tableElements = before ++ init :: after ∧
    initializeTablesLoop addr me h₀ before = some h

/-- A heap in which the start of a data segment is read: by the check, or in its round of
`initialize_memories`. -/
def ReadsData (g : InstanceHandle.Given Sig) (me : Nat) (h₀ : Heap Sig) (init : DataInitializer)
    (h : Heap Sig) : Prop :=
  h = h₀ ∨ ∃ h₁ before after, h₀.initializeTables g.addr me = some h₁ ∧
    g.dataInitializers = before ++ init :: after ∧
    initializeMemories g.addr me h₁ before = some h

/-- A constant plus the value of a global. -/
def startFrom (offset : UInt64) (base : Option (BitVec 128)) : Option UInt64 :=
  base.map fun v => offset + (asU32 v).toUInt64

/-- Every start that is read from a base global is the constant plus the value that the global holds in
`final`. -/
structure StartsRight (g : InstanceHandle.Given Sig) (m : Module Sig) (me : Nat)
    (h₀ final : Heap Sig) : Prop where
  elements : ∀ init ∈ m.tableElements, ∀ base, init.base = some base →
    ∀ h, ReadsElement g.addr m me h₀ init h →
      h.initStart me init.offset init.base = startFrom init.offset (final.globalAt me base.toNat)
  data : ∀ init ∈ g.dataInitializers, ∀ base, init.base = some base →
    ∀ h, ReadsData g me h₀ init h →
      h.initStart me init.offset init.base = startFrom init.offset (final.globalAt me base.toNat)

/-- A base global of an element segment or of a data segment. -/
def IsBase (g : InstanceHandle.Given Sig) (m : Module Sig) (base : UInt32) : Prop :=
  (∃ init ∈ m.tableElements, init.base = some base) ∨
    ∃ init ∈ g.dataInitializers, init.base = some base

/-! ## The passes before the globals -/

variable {h h' : Heap Sig} {me : Nat} {addr : Nat → BitVec 64}

theorem writeBytes_frame {p : DefinitionPtr} {bytes : List UInt8} {at' : Nat}
    (hw : writeBytes p h at' bytes = some h') : Frame h h' := by
  induction bytes generalizing h at' with
  | nil =>
    obtain rfl := Option.some.inj hw
    exact .refl _
  | cons byte bytes ih =>
    obtain ⟨h₁, hset, hw⟩ := Option.bind_eq_some_iff.mp hw
    obtain ⟨i, hi, hs⟩ := Option.bind_eq_some_iff.mp hset
    obtain ⟨m, hm, hs⟩ := Option.bind_eq_some_iff.mp hs
    obtain ⟨hlt, -⟩ := Option.ite_none_right_eq_some.mp hs
    have hlen : h.memoryLen p = some (m.current.toNat * wasmPageSize) := by
      rw [memoryLen, hi, Option.bind_some, hm, Option.map_some]
    obtain ⟨h₂, hset', hframe, -⟩ := setByte_spec hlen hlt byte
    obtain rfl := Option.some.inj (hset.symm.trans hset')
    exact hframe.trans (ih hw)

theorem initializeTablesLoop_frame {inits : List TableElements}
    (hw : initializeTablesLoop addr me h inits = some h') : Frame h h' := by
  induction inits generalizing h with
  | nil =>
    obtain rfl := Option.some.inj hw
    exact .refl _
  | cons init inits ih =>
    obtain ⟨h₁, hround, hw⟩ := Option.bind_eq_some_iff.mp hw
    obtain ⟨start, -, hround⟩ := Option.bind_eq_some_iff.mp hround
    obtain ⟨⟨p, n⟩, -, hround⟩ := Option.bind_eq_some_iff.mp hround
    obtain ⟨-, hround⟩ := Option.ite_none_right_eq_some.mp hround
    exact (writeElements_frame hround).trans (ih hw)

theorem initializeMemories_frame {inits : List DataInitializer}
    (hw : initializeMemories addr me h inits = some h') : Frame h h' := by
  induction inits generalizing h with
  | nil =>
    obtain rfl := Option.some.inj hw
    exact .refl _
  | cons init inits ih =>
    obtain ⟨h₁, hround, hw⟩ := Option.bind_eq_some_iff.mp hw
    obtain ⟨start, -, hround⟩ := Option.bind_eq_some_iff.mp hround
    obtain ⟨⟨p, n⟩, -, hround⟩ := Option.bind_eq_some_iff.mp hround
    obtain ⟨-, hround⟩ := Option.ite_none_right_eq_some.mp hround
    exact (writeBytes_frame hround).trans (ih hw)

theorem ReadsElement.frame {m : Module Sig} {init : TableElements}
    (hr : ReadsElement addr m me h init h') : Frame h h' := by
  obtain rfl | ⟨before, after, -, hloop⟩ := hr
  · exact .refl _
  · exact initializeTablesLoop_frame hloop

theorem ReadsData.frame {g : InstanceHandle.Given Sig} {init : DataInitializer}
    (hr : ReadsData g me h init h') : Frame h h' := by
  obtain rfl | ⟨h₁, before, after, htables, -, hloop⟩ := hr
  · exact .refl _
  · obtain ⟨i, -, htables⟩ := Option.bind_eq_some_iff.mp htables
    exact (initializeTablesLoop_frame htables).trans (initializeMemories_frame hloop)

/-! ## The pass over the globals -/

/-- A store to the low bits of zero. -/
theorem storeLow_zero {width value : Nat} (h : value < 2 ^ width) :
    storeLow 0 width value = BitVec.ofNat 128 value := by
  have hzero : (0 : BitVec 128).toNat = 0 := rfl
  rw [storeLow, hzero, Nat.zero_div, Nat.zero_mul, Nat.zero_add, Nat.mod_eq_of_lt h]

/-- An instance whose imported globals are elsewhere. -/
def ImportsElsewhere (i : Placed Sig) (me : Nat) : Prop :=
  ∀ (j : Nat) (p : DefinitionPtr), i.vmctx.imports.globals[j]? = some p → p.vmctx ≠ me

/-- The entry of a list with zeros at its end. -/
theorem getElem?_append_replicate {values : List (BitVec 128)} {n k : Nat} {v : BitVec 128}
    (h : (values ++ List.replicate n 0)[k]? = some v) : values.getD k 0 = v := by
  rw [List.getD_eq_getElem?_getD]
  by_cases hlt : k < values.length
  · rw [List.getElem?_append_left hlt] at h
    rw [h, Option.getD_some]
  · rw [List.getElem?_append_right (Nat.not_lt.mp hlt)] at h
    rw [List.getElem?_eq_none (Nat.not_lt.mp hlt), Option.getD_none]
    exact (List.eq_of_mem_replicate (List.mem_of_getElem? h)).symm

/-- A global of the instance itself, or of the one it is imported from. -/
theorem globalAt_eq {i : Placed Sig} (hme : h[me]? = some i) (index : Nat) :
    h.globalAt me index =
      match i.module.definedGlobalIndex index with
      | some defIndex => i.globals[defIndex]?
      | none => importedGlobal i.vmctx.imports h index := by
  unfold globalAt Instance.lookupGlobal
  rw [hme, Option.bind_some]
  cases i.module.definedGlobalIndex index with
  | some defIndex =>
    simp only [Option.bind_some]
    rw [hme, Option.bind_some]
  | none => rfl

/-- An initializer gives the value that `initialValue` says. -/
theorem globalInit_eq {i : Placed Sig} (hme : h[me]? = some i) {done : List (BitVec 128)} {n : Nat}
    (hglobals : i.globals = done ++ List.replicate n 0) {init : GlobalInit} {value : BitVec 128}
    (hw : h.globalInit me 0 init = some value) :
    initialValue i.module (importedGlobal i.vmctx.imports h) done init = some value := by
  cases init with
  | i32Const x => exact (congrArg some (storeLow_zero x.toNat_lt)).symm.trans hw
  | i64Const x => exact (congrArg some (storeLow_zero x.toNat_lt)).symm.trans hw
  | f32Const x => exact (congrArg some (storeLow_zero x.toNat_lt)).symm.trans hw
  | f64Const x => exact (congrArg some (storeLow_zero x.toNat_lt)).symm.trans hw
  | v128Const x => exact hw
  | imported => cases hw
  | getGlobal index =>
    have hat : h.globalAt me index.toNat = some value := hw
    rw [globalAt_eq hme] at hat
    cases hdef : i.module.definedGlobalIndex index.toNat with
    | some defIndex =>
      simp only [hdef, hglobals] at hat
      simp only [initialValue, hdef, getElem?_append_replicate hat]
    | none =>
      simp only [hdef] at hat
      simp only [initialValue, hdef, hat]

theorem importedGlobal_set {i j : Placed Sig} (himports : ImportsElsewhere i me) :
    importedGlobal i.vmctx.imports (h.set me j) = importedGlobal i.vmctx.imports h := by
  funext index
  unfold importedGlobal
  cases hp : i.vmctx.imports.globals[index]? with
  | none => rfl
  | some p =>
    rw [Option.bind_some, Option.bind_some, List.getElem?_set_ne (himports index p hp).symm]

/-- **`initialize_globals` computes the values of the initializers**, in order, and writes nothing
else. -/
theorem initializeGlobals_eq {rest : List Global} {i : Placed Sig} (hme : h[me]? = some i)
    (himports : ImportsElsewhere i me) {done : List (BitVec 128)}
    (hglobals : i.globals = done ++ List.replicate rest.length 0)
    (hw : initializeGlobals me h done.length rest = some h') :
    ∃ values, initialValues i.module (importedGlobal i.vmctx.imports h) done rest = some values ∧
      values.length = i.globals.length ∧ h' = h.set me { i with globals := values } := by
  induction rest generalizing h i done with
  | nil =>
    obtain rfl := Option.some.inj hw
    rw [List.length_nil, List.replicate_zero, List.append_nil] at hglobals
    refine ⟨done, rfl, congrArg List.length hglobals.symm, ?_⟩
    obtain ⟨hlt, hget⟩ := List.getElem?_eq_some_iff.mp hme
    rw [← hglobals, ← hget, List.set_getElem_self]
  | cons global rest ih =>
    obtain ⟨i', hi', hw⟩ := Option.bind_eq_some_iff.mp hw
    obtain rfl := Option.some.inj (hme.symm.trans hi')
    obtain ⟨old, hold, hw⟩ := Option.bind_eq_some_iff.mp hw
    obtain ⟨value, hvalue, hw⟩ := Option.bind_eq_some_iff.mp hw
    have hzero : old = 0 := by
      rw [hglobals, List.getElem?_append_right (Nat.le_refl _), Nat.sub_self, List.length_cons,
        List.replicate_succ, List.getElem?_cons_zero] at hold
      exact (Option.some.inj hold).symm
    rw [hzero] at hvalue
    have hset : i.globals.set done.length value =
        (done ++ [value]) ++ List.replicate rest.length 0 := by
      rw [hglobals, List.length_cons, List.replicate_succ, List.set_append_right _ _ (Nat.le_refl _),
        Nat.sub_self, List.set_cons_zero, List.append_assoc, List.singleton_append]
    rw [hset] at hw
    obtain ⟨j, hj⟩ : ∃ j : Placed Sig,
        j = { i with globals := done ++ [value] ++ List.replicate rest.length 0 } := ⟨_, rfl⟩
    rw [← hj] at hw
    have hlt := (List.getElem?_eq_some_iff.mp hme).1
    have hget : (h.set me j)[me]? = some j := List.getElem?_set_self hlt
    have hmod : j.module = i.module := by rw [hj]
    have himp : j.vmctx.imports = i.vmctx.imports := by rw [hj]
    have helsewhere : ImportsElsewhere j me := by
      rw [ImportsElsewhere, himp]
      exact himports
    have hlen : (done ++ [value]).length = done.length + 1 := List.length_append
    rw [← hlen] at hw
    obtain ⟨values, hvalues, hlength, hh'⟩ := ih hget helsewhere (by rw [hj]) hw
    rw [hmod, importedGlobal_set helsewhere, himp] at hvalues
    refine ⟨values, ?_, ?_, ?_⟩
    · rw [initialValues, globalInit_eq hme hglobals hvalue, Option.bind_some]
      exact hvalues
    · rw [hlength, hj, hglobals]
      simp only [List.length_append, List.length_replicate, List.length_cons, List.length_nil]
      omega
    · rw [hh', List.set_set, hj]

/-! ## The starts -/

theorem startFrom_inj {offset : UInt64} {a b : Option (BitVec 128)} :
    startFrom offset a = startFrom offset b ↔ a.map asU32 = b.map asU32 := by
  have hinj : Function.Injective fun x : UInt32 => offset + x.toUInt64 := by
    intro x y hxy
    exact UInt32.toUInt64_inj.mp ((UInt64.add_right_inj offset).mp hxy)
  have hstart : ∀ c : Option (BitVec 128),
      startFrom offset c = (c.map asU32).map fun x => offset + x.toUInt64 := fun c => by
    rw [startFrom, Option.map_map]
    rfl
  rw [hstart, hstart]
  exact (Option.map_injective hinj).eq_iff

/-- The start from a base global is right exactly when it is imported, or comes to zero. -/
theorem startFrom_final_iff {i : Placed Sig} (hme : h[me]? = some i)
    (himports : ImportsElsewhere i me) {n : Nat} (hzero : i.globals = List.replicate n 0)
    {values : List (BitVec 128)} (hlen : values.length = i.globals.length) (offset : UInt64)
    (base : Nat) :
    startFrom offset (h.globalAt me base) =
        startFrom offset (Heap.globalAt (h.set me { i with globals := values }) me base) ↔
      ∀ defIndex, i.module.definedGlobalIndex base = some defIndex →
        asU32 (values.getD defIndex 0) = 0 := by
  have hlt := (List.getElem?_eq_some_iff.mp hme).1
  have hset : (h.set me { i with globals := values })[me]? = some { i with globals := values } :=
    List.getElem?_set_self hlt
  rw [startFrom_inj, globalAt_eq hme, globalAt_eq hset]
  cases hdef : i.module.definedGlobalIndex base with
  | none =>
    have himported := congrFun (@importedGlobal_set _ h me i { i with globals := values } himports) base
    exact iff_of_true (congrArg _ himported.symm) fun _ hd => absurd hd (Option.some_ne_none _).symm
  | some defIndex =>
    have hforall : (∀ d, some defIndex = some d → asU32 (values.getD d 0) = 0) ↔
        asU32 (values.getD defIndex 0) = 0 :=
      ⟨fun hd => hd defIndex rfl, fun hd d he => Option.some.inj he ▸ hd⟩
    change i.globals[defIndex]?.map asU32 = values[defIndex]?.map asU32 ↔ _
    rw [hforall, List.getD_eq_getElem?_getD]
    by_cases hin : defIndex < values.length
    · have hbefore : i.globals[defIndex]? = some 0 := by
        rw [hlen, hzero, List.length_replicate] at hin
        rw [hzero, List.getElem?_replicate, if_pos hin]
      rw [hbefore, List.getElem?_eq_getElem hin, Option.getD_some, Option.map_some, Option.map_some,
        Option.some.injEq]
      exact eq_comm
    · have hbefore : i.globals[defIndex]? = none :=
        List.getElem?_eq_none (hlen ▸ Nat.not_lt.mp hin)
      rw [hbefore, List.getElem?_eq_none (Nat.not_lt.mp hin)]
      exact iff_of_true rfl rfl

/-- All starts of a base are read in heaps with the globals of the first one. -/
theorem startsRight_iff_base {g : InstanceHandle.Given Sig} {m : Module Sig} {final : Heap Sig} :
    StartsRight g m me h final ↔ ∀ base, IsBase g m base → ∀ offset,
      startFrom offset (h.globalAt me base.toNat) = startFrom offset (final.globalAt me base.toNat) := by
  have hread : ∀ {h' : Heap Sig} {offset : UInt64} {base : UInt32}, Frame h h' →
      h'.initStart me offset (some base) = startFrom offset (h.globalAt me base.toNat) :=
    fun hframe => hframe.initStart me _ _
  have hoffset : ∀ {offset : UInt64} {a b : Option (BitVec 128)},
      startFrom offset a = startFrom offset b → ∀ offset', startFrom offset' a = startFrom offset' b :=
    fun heq _ => startFrom_inj.mpr (startFrom_inj.mp heq)
  constructor
  · rintro hright base (⟨init, hmem, hbase⟩ | ⟨init, hmem, hbase⟩)
    · have hcheck := hright.elements init hmem base hbase h (.inl rfl)
      rw [hbase, hread (.refl h)] at hcheck
      exact hoffset hcheck
    · have hcheck := hright.data init hmem base hbase h (.inl rfl)
      rw [hbase, hread (.refl h)] at hcheck
      exact hoffset hcheck
  · intro hbases
    refine ⟨fun init hmem base hbase h' hr => ?_, fun init hmem base hbase h' hr => ?_⟩
    · rw [hbase, hread hr.frame]
      exact hbases base (.inl ⟨init, hmem, hbase⟩) _
    · rw [hbase, hread hr.frame]
      exact hbases base (.inr ⟨init, hmem, hbase⟩) _

/-- The globals of a new instance are zero. -/
theorem allocate_globals {g : InstanceHandle.Given Sig} {module : Module Sig} {i : Placed Sig}
    (ha : InstanceHandle.allocate g module = .ok i) :
    i.globals = List.replicate (module.globals.drop module.importedGlobals.length).length 0 := by
  obtain ⟨j, -, ha⟩ := Ending.bind_eq_ok.mp ha
  split at ha
  · obtain rfl := Ending.ok.inj ha
    rw [List.length_drop]
  · cases ha

/-- What the new instance looks like when `initialize_globals` starts. -/
theorem exists_of_frame {h₂ : Heap Sig} {i : Placed Sig} (hframe : Frame (h ++ [i]) h₂) :
    ∃ i₂, h₂[h.length]? = some i₂ ∧ i₂.module = i.module ∧ i₂.vmctx.imports = i.vmctx.imports ∧
      i₂.globals = i.globals := by
  have hget := hframe.getElem? h.length
  rw [List.getElem?_append_right (Nat.le_refl _), Nat.sub_self, List.getElem?_cons_zero,
    Option.map_some] at hget
  obtain ⟨i₂, hi₂, hblank⟩ := Option.map_eq_some_iff.mp hget
  have hmodule := congrArg (fun j : Placed Sig => j.module) hblank
  have himports := congrArg (fun j : Placed Sig => j.vmctx.imports) hblank
  have hglobals := congrArg (fun j : Placed Sig => j.globals) hblank
  exact ⟨i₂, hi₂, hmodule, himports, hglobals⟩

/-- The imported globals are those of the instances made before. -/
theorem importedGlobal_frame {imports : Imports} {h₂ : Heap Sig} {i : Placed Sig}
    (hframe : Frame (h ++ [i]) h₂)
    (himports : ∀ (j : Nat) (p : DefinitionPtr), imports.globals[j]? = some p → p.vmctx < h.length) :
    importedGlobal imports h₂ = importedGlobal imports h := by
  funext index
  unfold importedGlobal
  cases hp : imports.globals[index]? with
  | none => rfl
  | some p =>
    have hread := hframe.bind_eq (g := fun j => j.globals[p.index]?) (fun _ => rfl) p.vmctx
    rw [List.getElem?_append_left (himports index p hp)] at hread
    exact hread

/-- **Segment offsets and the globals.** For every instantiation that linking prepares in a reachable
store: every start that the checks and the two passes read is the constant plus the value the base holds
after `initialize_globals` exactly when each base is imported, or comes to zero. -/
theorem startsRight_iff [DecidableEq Sig] {translateSignature : Sig → Sig} {tunables : Tunables}
    {s : Store Sig} {t : ModuleTranslation Sig} {resolve : Resolver Sig}
    {g : InstanceHandle.Given Sig} {i : Placed Sig} {h₂ h₃ : Heap Sig}
    (hrun : Store.Reachable translateSignature g.host tunables s)
    (hp : Prepared translateSignature tunables s t resolve g)
    (ha : InstanceHandle.allocate g t.module = .ok i) (hframe : Frame (s.heap ++ [i]) h₂)
    (hw : initializeGlobals s.heap.length h₂ 0
      (t.module.globals.drop t.module.importedGlobals.length) = some h₃) :
    StartsRight g t.module s.heap.length (s.heap ++ [i]) h₃ ↔
      ∀ base, IsBase g t.module base →
        BaseIsZero t.module (importedGlobal g.imports s.heap) base := by
  have hplaced := placedOk_allocate hp hrun.inv ha
  obtain ⟨hnew, -, -⟩ := allocate_ok ha
  obtain ⟨-, hmod, himp⟩ := Instance.inv_new hnew
  have hbefore : ∀ (j : Nat) (p : DefinitionPtr), g.imports.globals[j]? = some p →
      p.vmctx < s.heap.length := by
    intro j p hj
    rw [← himp] at hj
    obtain ⟨o, ho, -⟩ := hplaced.globalImport j p hj
    exact (List.getElem?_eq_some_iff.mp ho).1
  obtain ⟨i₂, hme, hmod₂, himp₂, hglobals₂⟩ := exists_of_frame hframe
  rw [hmod] at hmod₂
  rw [himp] at himp₂
  have helsewhere : ImportsElsewhere i₂ s.heap.length := by
    intro j p hj
    rw [himp₂] at hj
    exact Nat.ne_of_lt (hbefore j p hj)
  have hzero := hglobals₂.trans (allocate_globals ha)
  obtain ⟨values, hvalues, hlength, rfl⟩ := @initializeGlobals_eq _ _ _ _ _ _ hme helsewhere [] hzero hw
  rw [hmod₂, himp₂, importedGlobal_frame hframe hbefore] at hvalues
  have hfinal := startFrom_final_iff hme helsewhere hzero hlength
  rw [hmod₂] at hfinal
  rw [startsRight_iff_base]
  refine forall_congr' fun base => imp_congr_right fun _ => ⟨fun hstart => ?_, ?_⟩
  · have hzeroStart := hstart 0
    rw [← hframe.globalAt] at hzeroStart
    exact ⟨values, hvalues, (hfinal 0 _).mp hzeroStart⟩
  · rintro ⟨values', hvalues', hbase⟩ offset
    obtain rfl := Option.some.inj (hvalues.symm.trans hvalues')
    rw [← hframe.globalAt]
    exact (hfinal offset _).mpr hbase

/-- A module with one function, a table of two elements, a constant global, and an element segment that puts
the function at the value of the global. -/
def lateBase (value : UInt32) : ModuleTranslation Unit :=
  { module := { (Module.new : Module Unit) with
      signatures := [()]
      functions := [0]
      tablePlans := [⟨⟨.func, 2, none⟩, .callerChecksSignature⟩]
      globals := [⟨0x7f, false, .i32Const value⟩]
      tableElements := [⟨0, some 0, 0, [0], function_lt⟩] }
    functionBodyInputs := []
    tunables := .default }

theorem translated_lateBase (value : UInt32) :
    Translated (id : Unit → Unit) .default (lateBase value) := by
  have h₁ := @Translated.step Unit id .default _ _ (.signature ()) .new
    (by simp [Declaration.Valid, ModuleTranslation.new, Module.new]) rfl
  have h₂ := @Translated.step _ _ _ _ _ (.funcType 0) h₁ ⟨Nat.zero_lt_one, by decide⟩ rfl
  have h₃ := @Translated.step _ _ _ _ _ (.table ⟨.func, 2, none⟩) h₂
    ⟨fun _ h => absurd h (by simp), by decide⟩ rfl
  have h₄ := @Translated.step _ _ _ _ _ (.global ⟨0x7f, false, .i32Const value⟩) h₃
    ⟨(fun h => by cases h), Nat.one_lt_two_pow (by decide)⟩ rfl
  refine @Translated.step _ _ _ _ _ (.tableElements ⟨0, some 0, 0, [0], by decide⟩) h₄ ?_ rfl
  refine ⟨Nat.zero_lt_one, fun index h => ?_, fun f hf => ?_⟩
  · rw [← Option.some.inj h]
    exact Nat.zero_lt_one
  · rw [List.mem_singleton.mp hf]
    exact Nat.zero_lt_one

/-- Its code is at address 100 and its signature has id 7. -/
def givenLateBase : InstanceHandle.Given Unit where
  host := LinearMemory.host4K
  os := fun _ => ⟨none, false⟩
  alloc := id
  mapped := true
  addr := fun _ => 0
  finishedFunctions := [100]
  imports := ⟨[], [], [], []⟩
  dataInitializers := []
  vmsharedSignatures := [7]
  start := fun _ h => (h, none)

theorem prepared_lateBase (value : UInt32) :
    Prepared (id : Unit → Unit) .default ⟨[], []⟩ (lateBase value) (fun _ _ => none) givenLateBase where
  translated := translated_lateBase value
  provides := fun _ _ _ h => absurd h (by simp)
  linked := rfl
  finished := rfl
  signatures := rfl
  start := fun _ _ => .refl

/-- A global that is zero. -/
theorem startsRight_lateBase :
    ∃ i h₃, InstanceHandle.allocate givenLateBase (lateBase 0).module = .ok i ∧
      initializeGlobals 0 [i] 0 [⟨0x7f, false, .i32Const 0⟩] = some h₃ ∧
      StartsRight givenLateBase (lateBase 0).module 0 [i] h₃ := by
  refine ⟨_, _, rfl, rfl, (startsRight_iff .refl (prepared_lateBase 0) rfl (.refl _) rfl).mpr ?_⟩
  intro base hbase
  refine ⟨_, rfl, fun defIndex hdefined => ?_⟩
  cases defIndex with
  | zero => rfl
  | succ defIndex => rfl

/-- With a global that is one, the segment starts at zero all the same. -/
theorem not_startsRight_lateBase :
    ∃ i h₃, InstanceHandle.allocate givenLateBase (lateBase 1).module = .ok i ∧
      initializeGlobals 0 [i] 0 [⟨0x7f, false, .i32Const 1⟩] = some h₃ ∧
      Heap.initStart [i] 0 0 (some 0) = some 0 ∧ h₃.initStart 0 0 (some 0) = some 1 ∧
      ¬ StartsRight givenLateBase (lateBase 1).module 0 [i] h₃ := by
  refine ⟨_, _, rfl, rfl, by decide, by decide, fun h => ?_⟩
  have hstart := h.elements _ (List.mem_singleton_self _) 0 rfl _ (.inl rfl)
  exact absurd hstart (by decide)

end Wasmtime.Jit
