import Wasmtime.Environ.Module

/-!
# Translating a module

Model of `ModuleEnvironment` (`wasmtime-environ/src/module_environ.rs`): the callbacks by which
`cranelift_wasm::translate_module` fills in a `Module`. `Declaration` is one callback and
`declare` runs it; `none` is a failed `debug_assert_eq!` of an import declared too late, or the
failed assert of `MemoryStyle::for_memory`.

`translate_module` and the validator behind it are not part of the repository. What they promise of
each callback is `Declaration.Valid`: limits are validated ones, an imported global is initialized
as an import and a defined one is not, an exported index exists, so do the start function and what a
table initializer names, every function body belongs to a declared function and is at least an empty
local list and an `end`. `reserve_*` and `finish_imports` change nothing that is modelled; the data
initializers that `declare_data_initialization` collects are passed to `InstanceHandle::new` next to
the module.

Result: `Translated.wellFormed`, what holds of every translated module.
-/

namespace Wasmtime.Environ

/-- `FunctionBodyData`. -/
structure FunctionBodyData where
  data : List UInt8
  moduleOffset : UInt64
  deriving DecidableEq, Repr

/-- `ModuleTranslation`, as far as it is modelled. -/
structure ModuleTranslation (Sig : Type) where
  module : Module Sig
  functionBodyInputs : List FunctionBodyData
  tunables : Tunables

/-- `IndexMap::insert`: a known key keeps its place. -/
def insertExport (exports : List (String × Export)) (name : String) (e : Export) :
    List (String × Export) :=
  if exports.any (·.1 == name) then exports.map fun p => if p.1 == name then (name, e) else p
  else exports ++ [(name, e)]

/-- The callbacks of `cranelift_wasm::ModuleEnvironment` that declare something. -/
inductive Declaration (Sig : Type) where
  | signature (sig : Sig)
  | funcImport (sigIndex : UInt32) (module field : String)
  | tableImport (table : Table) (module field : String)
  | memoryImport (memory : Memory) (module field : String)
  | globalImport (global : Global) (module field : String)
  | funcType (sigIndex : UInt32)
  | table (table : Table)
  | memory (memory : Memory)
  | global (global : Global)
  | exported (e : Export) (name : String)
  | startFunc (index : UInt32)
  | tableElements (init : TableElements)
  | functionBody (body : FunctionBodyData)

namespace ModuleTranslation

variable {Sig : Type}

/-- `ModuleEnvironment::new`. -/
def new (tunables : Tunables) : ModuleTranslation Sig := ⟨Module.new, [], tunables⟩

/-- The `declare_*` and `define_*` callbacks. `translate_signature` prepends the `vmctx`
parameter, an operation on the opaque `Sig`. -/
def declare (translateSignature : Sig → Sig) (t : ModuleTranslation Sig) :
    Declaration Sig → Option (ModuleTranslation Sig)
  | .signature sig =>
    some { t with module := { t.module with
      signatures := t.module.signatures ++ [translateSignature sig] } }
  | .funcImport sigIndex module field =>
    if t.module.functions.length = t.module.importedFuncs.length then
      some { t with module := { t.module with
        functions := t.module.functions ++ [sigIndex]
        importedFuncs := t.module.importedFuncs ++ [(module, field)] } }
    else none
  | .tableImport table module field =>
    if t.module.tablePlans.length = t.module.importedTables.length then
      some { t with module := { t.module with
        tablePlans := t.module.tablePlans ++ [TablePlan.forTable table t.tunables]
        importedTables := t.module.importedTables ++ [(module, field)] } }
    else none
  | .memoryImport memory module field =>
    if t.module.memoryPlans.length = t.module.importedMemories.length then
      (MemoryPlan.forMemory memory t.tunables).map fun plan =>
        { t with module := { t.module with
          memoryPlans := t.module.memoryPlans ++ [plan]
          importedMemories := t.module.importedMemories ++ [(module, field)] } }
    else none
  | .globalImport global module field =>
    if t.module.globals.length = t.module.importedGlobals.length then
      some { t with module := { t.module with
        globals := t.module.globals ++ [global]
        importedGlobals := t.module.importedGlobals ++ [(module, field)] } }
    else none
  | .funcType sigIndex =>
    some { t with module := { t.module with functions := t.module.functions ++ [sigIndex] } }
  | .table table =>
    some { t with module := { t.module with
      tablePlans := t.module.tablePlans ++ [TablePlan.forTable table t.tunables] } }
  | .memory memory =>
    (MemoryPlan.forMemory memory t.tunables).map fun plan =>
      { t with module := { t.module with memoryPlans := t.module.memoryPlans ++ [plan] } }
  | .global global =>
    some { t with module := { t.module with globals := t.module.globals ++ [global] } }
  | .exported e name =>
    some { t with module := { t.module with exports := insertExport t.module.exports name e } }
  | .startFunc index =>
    if t.module.startFunc = none then
      some { t with module := { t.module with startFunc := some index } }
    else none
  | .tableElements init =>
    some { t with module := { t.module with tableElements := t.module.tableElements ++ [init] } }
  | .functionBody body =>
    some { t with functionBodyInputs := t.functionBodyInputs ++ [body] }

end ModuleTranslation

/-- An exported index exists. -/
def Module.HasExport {Sig : Type} (m : Module Sig) : Export → Prop
  | .function index => index.toNat < m.functions.length
  | .table index => index.toNat < m.tablePlans.length
  | .memory index => index.toNat < m.memoryPlans.length
  | .global index => index.toNat < m.globals.length

/-- A table initializer names a table, functions and, as its base, a global that exist. -/
structure Module.HasElements {Sig : Type} (m : Module Sig) (init : TableElements) : Prop where
  table : init.tableIndex.toNat < m.tablePlans.length
  base : ∀ index, init.base = some index → index.toNat < m.globals.length
  elements : ∀ f ∈ init.elements, f.toNat < m.functions.length

/-- What the validator promises of a callback. Every index space is counted in `u32`. -/
def Declaration.Valid {Sig : Type} (t : ModuleTranslation Sig) : Declaration Sig → Prop
  | .signature _ => t.module.signatures.length + 1 < 2 ^ 32
  | .funcImport sigIndex _ _ =>
    sigIndex.toNat < t.module.signatures.length ∧ t.module.functions.length + 1 < 2 ^ 32
  | .tableImport ty _ _ => ty.Limited ∧ t.module.tablePlans.length + 1 < 2 ^ 32
  | .memoryImport declared _ _ =>
    (∃ ty : MemoryType, ty.toMemory = declared) ∧ t.module.memoryPlans.length + 1 < 2 ^ 32
  | .globalImport declared _ _ =>
    declared.initializer = .imported ∧ t.module.globals.length + 1 < 2 ^ 32
  | .funcType sigIndex =>
    sigIndex.toNat < t.module.signatures.length ∧ t.module.functions.length + 1 < 2 ^ 32
  | .table ty => ty.Limited ∧ t.module.tablePlans.length + 1 < 2 ^ 32
  | .memory declared =>
    (∃ ty : MemoryType, ty.toMemory = declared) ∧ t.module.memoryPlans.length + 1 < 2 ^ 32
  | .global declared => declared.initializer ≠ .imported ∧ t.module.globals.length + 1 < 2 ^ 32
  | .exported e _ => t.module.HasExport e
  | .startFunc index => index.toNat < t.module.functions.length
  | .tableElements init => t.module.HasElements init
  | .functionBody body =>
    t.functionBodyInputs.length < t.module.functions.length - t.module.importedFuncs.length ∧
      body.data.length < 2 ^ 32 ∧ body.data ≠ []

variable {Sig : Type} {translateSignature : Sig → Sig} {tunables : Tunables}
  {t t' : ModuleTranslation Sig} {d : Declaration Sig}

/-- A translation in progress under `tunables`. -/
inductive Translated (translateSignature : Sig → Sig) (tunables : Tunables) :
    ModuleTranslation Sig → Prop
  | new : Translated translateSignature tunables (.new tunables)
  | step {t t' : ModuleTranslation Sig} {d : Declaration Sig}
      (ht : Translated translateSignature tunables t) (hv : d.Valid t)
      (h : t.declare translateSignature d = some t') : Translated translateSignature tunables t'

/-! ## What holds of every translated module -/

/-- The imports of an index space come first and are what `imported` says they are. -/
def ImportsFirst {α : Type} (imports : Nat) (entities : List α) (imported : α → Prop) : Prop :=
  imports ≤ entities.length ∧
    ∀ i (h : i < entities.length), i < imports ↔ imported entities[i]

/-- The invariant of a translation. -/
structure Module.WellFormed (m : Module Sig) (tunables : Tunables) : Prop where
  funcs : m.importedFuncs.length ≤ m.functions.length
  tables : m.importedTables.length ≤ m.tablePlans.length
  memories : m.importedMemories.length ≤ m.memoryPlans.length
  globals : ImportsFirst m.importedGlobals.length m.globals (·.initializer = .imported)
  signatureIndex : ∀ i ∈ m.functions, i.toNat < m.signatures.length
  tableLimits : ∀ p ∈ m.tablePlans, p.table.Limited
  memoryType : ∀ p ∈ m.memoryPlans, ∃ ty : MemoryType, p = ty.plan tunables
  hasExport : ∀ p ∈ m.exports, m.HasExport p.2
  hasElements : ∀ init ∈ m.tableElements, m.HasElements init
  signatures_lt : m.signatures.length < 2 ^ 32
  functions_lt : m.functions.length < 2 ^ 32
  tablePlans_lt : m.tablePlans.length < 2 ^ 32
  memoryPlans_lt : m.memoryPlans.length < 2 ^ 32
  globals_lt : m.globals.length < 2 ^ 32

theorem Module.HasExport.mono {m m' : Module Sig} {e : Export} (h : m.HasExport e)
    (hf : m.functions.length ≤ m'.functions.length) (ht : m.tablePlans.length ≤ m'.tablePlans.length)
    (hm : m.memoryPlans.length ≤ m'.memoryPlans.length)
    (hg : m.globals.length ≤ m'.globals.length) : m'.HasExport e := by
  cases e with
  | function index => exact Nat.lt_of_lt_of_le h hf
  | table index => exact Nat.lt_of_lt_of_le h ht
  | memory index => exact Nat.lt_of_lt_of_le h hm
  | global index => exact Nat.lt_of_lt_of_le h hg

theorem Module.HasElements.mono {m m' : Module Sig} {init : TableElements} (h : m.HasElements init)
    (hf : m.functions.length ≤ m'.functions.length) (ht : m.tablePlans.length ≤ m'.tablePlans.length)
    (hg : m.globals.length ≤ m'.globals.length) : m'.HasElements init where
  table := Nat.lt_of_lt_of_le h.table ht
  base := fun index hb => Nat.lt_of_lt_of_le (h.base index hb) hg
  elements := fun f hm => Nat.lt_of_lt_of_le (h.elements f hm) hf

theorem forall_mem_snoc {α : Type} {l : List α} {a : α} {p : α → Prop} (hl : ∀ x ∈ l, p x)
    (ha : p a) : ∀ x ∈ l ++ [a], p x := by
  intro x hx
  rcases List.mem_append.mp hx with h | h
  · exact hl x h
  · rw [List.mem_singleton.mp h]
    exact ha

theorem length_snoc_lt {α : Type} {l : List α} {a : α} {n : Nat} (h : l.length + 1 < n) :
    (l ++ [a]).length < n := by
  rw [List.length_append, List.length_singleton]
  exact h

theorem length_snoc_le {α β : Type} {l : List α} {k : List β} {a : α} {b : β}
    (h : l.length ≤ k.length) : (l ++ [a]).length ≤ (k ++ [b]).length := by
  rw [List.length_append, List.length_append, List.length_singleton, List.length_singleton]
  omega

theorem length_le_snoc {α : Type} (l : List α) (a : α) : l.length ≤ (l ++ [a]).length := by
  rw [List.length_append]
  exact Nat.le_add_right _ _

theorem mem_insertExport {exports : List (String × Export)} {name : String} {e : Export}
    {p : String × Export} (h : p ∈ insertExport exports name e) : p ∈ exports ∨ p = (name, e) := by
  unfold insertExport at h
  split at h
  · obtain ⟨q, hq, rfl⟩ := List.mem_map.mp h
    split
    · exact Or.inr rfl
    · exact Or.inl hq
  · rcases List.mem_append.mp h with h | h
    · exact Or.inl h
    · exact Or.inr (List.mem_singleton.mp h)

/-- A further import, while everything declared so far is imported. -/
theorem ImportsFirst.snoc_import {α : Type} {imports : Nat} {entities : List α}
    {imported : α → Prop} {a : α} (h : ImportsFirst imports entities imported)
    (hall : entities.length = imports) (ha : imported a) :
    ImportsFirst (imports + 1) (entities ++ [a]) imported := by
  refine ⟨by simp [hall], fun i hi => ?_⟩
  rw [List.length_append, List.length_singleton] at hi
  by_cases hlt : i < entities.length
  · rw [List.getElem_append_left hlt, ← h.2 i hlt]
    omega
  · have hie : i = entities.length := by omega
    subst hie
    simp [hall, ha]

/-- A further definition. -/
theorem ImportsFirst.snoc_defined {α : Type} {imports : Nat} {entities : List α}
    {imported : α → Prop} {a : α} (h : ImportsFirst imports entities imported)
    (ha : ¬ imported a) : ImportsFirst imports (entities ++ [a]) imported := by
  refine ⟨le_trans h.1 (by simp), fun i hi => ?_⟩
  rw [List.length_append, List.length_singleton] at hi
  by_cases hlt : i < entities.length
  · rw [List.getElem_append_left hlt]
    exact h.2 i hlt
  · have hie : i = entities.length := by omega
    subst hie
    have := h.1
    simp only [List.getElem_append_right (Nat.le_refl _), Nat.sub_self, List.getElem_singleton, ha,
      iff_false]
    omega

theorem wellFormed_new : (Module.new : Module Sig).WellFormed tunables := by
  refine ⟨le_refl _, le_refl _, le_refl _, ⟨le_refl _, fun i hi => absurd hi (by simp [Module.new])⟩,
    ?_, ?_, ?_, ?_, ?_, ?_, ?_, ?_, ?_, ?_⟩ <;> simp [Module.new]

/-- The plan a valid callback asks for. -/
theorem forMemory_of_valid {memory : Memory} {plan : MemoryPlan} {tunables : Tunables}
    (hv : ∃ ty : MemoryType, ty.toMemory = memory)
    (h : MemoryPlan.forMemory memory tunables = some plan) :
    ∃ ty : MemoryType, plan = ty.plan tunables := by
  obtain ⟨ty, rfl⟩ := hv
  rw [ty.forMemory_eq] at h
  exact ⟨ty, (Option.some.inj h).symm⟩

/-- Each callback keeps the invariant. -/
theorem declare_wellFormed (hm : t.module.WellFormed t.tunables) (hv : d.Valid t)
    (h : t.declare translateSignature d = some t') : t'.module.WellFormed t'.tunables := by
  cases d with
  | signature sig =>
    obtain rfl := Option.some.inj h
    exact { hm with
      signatureIndex := fun i hi =>
        Nat.lt_of_lt_of_le (hm.signatureIndex i hi) (length_le_snoc _ _)
      hasElements := fun e he => (hm.hasElements e he).mono (le_refl _) (le_refl _) (le_refl _)
      signatures_lt := length_snoc_lt hv }
  | funcImport sigIndex module field =>
    obtain ⟨-, h⟩ := Option.ite_none_right_eq_some.mp h
    obtain rfl := Option.some.inj h
    exact { hm with
      funcs := length_snoc_le hm.funcs
      signatureIndex := forall_mem_snoc hm.signatureIndex hv.1
      hasExport := fun p hp =>
        (hm.hasExport p hp).mono (length_le_snoc _ _) (le_refl _) (le_refl _) (le_refl _)
      hasElements := fun e he =>
        (hm.hasElements e he).mono (length_le_snoc _ _) (le_refl _) (le_refl _)
      functions_lt := length_snoc_lt hv.2 }
  | tableImport ty module field =>
    obtain ⟨-, h⟩ := Option.ite_none_right_eq_some.mp h
    obtain rfl := Option.some.inj h
    exact { hm with
      tables := length_snoc_le hm.tables
      tableLimits := forall_mem_snoc hm.tableLimits hv.1
      hasExport := fun p hp =>
        (hm.hasExport p hp).mono (le_refl _) (length_le_snoc _ _) (le_refl _) (le_refl _)
      hasElements := fun e he =>
        (hm.hasElements e he).mono (le_refl _) (length_le_snoc _ _) (le_refl _)
      tablePlans_lt := length_snoc_lt hv.2 }
  | memoryImport memory module field =>
    obtain ⟨-, h⟩ := Option.ite_none_right_eq_some.mp h
    obtain ⟨plan, hplan, rfl⟩ := Option.map_eq_some_iff.mp h
    exact { hm with
      memories := length_snoc_le hm.memories
      memoryType := forall_mem_snoc hm.memoryType (forMemory_of_valid hv.1 hplan)
      hasExport := fun p hp =>
        (hm.hasExport p hp).mono (le_refl _) (le_refl _) (length_le_snoc _ _) (le_refl _)
      hasElements := fun e he => (hm.hasElements e he).mono (le_refl _) (le_refl _) (le_refl _)
      memoryPlans_lt := length_snoc_lt hv.2 }
  | globalImport global module field =>
    obtain ⟨hall, h⟩ := Option.ite_none_right_eq_some.mp h
    obtain rfl := Option.some.inj h
    exact { hm with
      globals := by
        rw [List.length_append, List.length_singleton]
        exact hm.globals.snoc_import hall hv.1
      hasExport := fun p hp =>
        (hm.hasExport p hp).mono (le_refl _) (le_refl _) (le_refl _) (length_le_snoc _ _)
      hasElements := fun e he =>
        (hm.hasElements e he).mono (le_refl _) (le_refl _) (length_le_snoc _ _)
      globals_lt := length_snoc_lt hv.2 }
  | funcType sigIndex =>
    obtain rfl := Option.some.inj h
    exact { hm with
      funcs := le_trans hm.funcs (length_le_snoc _ _)
      signatureIndex := forall_mem_snoc hm.signatureIndex hv.1
      hasExport := fun p hp =>
        (hm.hasExport p hp).mono (length_le_snoc _ _) (le_refl _) (le_refl _) (le_refl _)
      hasElements := fun e he =>
        (hm.hasElements e he).mono (length_le_snoc _ _) (le_refl _) (le_refl _)
      functions_lt := length_snoc_lt hv.2 }
  | table ty =>
    obtain rfl := Option.some.inj h
    exact { hm with
      tables := le_trans hm.tables (length_le_snoc _ _)
      tableLimits := forall_mem_snoc hm.tableLimits hv.1
      hasExport := fun p hp =>
        (hm.hasExport p hp).mono (le_refl _) (length_le_snoc _ _) (le_refl _) (le_refl _)
      hasElements := fun e he =>
        (hm.hasElements e he).mono (le_refl _) (length_le_snoc _ _) (le_refl _)
      tablePlans_lt := length_snoc_lt hv.2 }
  | memory memory =>
    obtain ⟨plan, hplan, rfl⟩ := Option.map_eq_some_iff.mp h
    exact { hm with
      memories := le_trans hm.memories (length_le_snoc _ _)
      memoryType := forall_mem_snoc hm.memoryType (forMemory_of_valid hv.1 hplan)
      hasExport := fun p hp =>
        (hm.hasExport p hp).mono (le_refl _) (le_refl _) (length_le_snoc _ _) (le_refl _)
      hasElements := fun e he => (hm.hasElements e he).mono (le_refl _) (le_refl _) (le_refl _)
      memoryPlans_lt := length_snoc_lt hv.2 }
  | global global =>
    obtain rfl := Option.some.inj h
    exact { hm with
      globals := hm.globals.snoc_defined hv.1
      hasExport := fun p hp =>
        (hm.hasExport p hp).mono (le_refl _) (le_refl _) (le_refl _) (length_le_snoc _ _)
      hasElements := fun e he =>
        (hm.hasElements e he).mono (le_refl _) (le_refl _) (length_le_snoc _ _)
      globals_lt := length_snoc_lt hv.2 }
  | exported e name =>
    obtain rfl := Option.some.inj h
    refine { hm with
      hasExport := fun p hp => ?_
      hasElements := fun e he => (hm.hasElements e he).mono (le_refl _) (le_refl _) (le_refl _) }
    rcases mem_insertExport hp with hp | rfl
    · exact hm.hasExport p hp
    · exact hv
  | startFunc index =>
    obtain ⟨-, h⟩ := Option.ite_none_right_eq_some.mp h
    obtain rfl := Option.some.inj h
    exact { hm with
      hasElements := fun e he => (hm.hasElements e he).mono (le_refl _) (le_refl _) (le_refl _) }
  | tableElements init =>
    obtain rfl := Option.some.inj h
    refine { hm with hasElements := forall_mem_snoc (fun e he => ?_) ?_ }
    · exact (hm.hasElements e he).mono (le_refl _) (le_refl _) (le_refl _)
    · exact Module.HasElements.mono hv (le_refl _) (le_refl _) (le_refl _)
  | functionBody body =>
    obtain rfl := Option.some.inj h
    exact hm

theorem declare_tunables (h : t.declare translateSignature d = some t') :
    t'.tunables = t.tunables := by
  unfold ModuleTranslation.declare at h
  split at h
  all_goals first
    | (obtain rfl := Option.some.inj h; rfl)
    | (obtain ⟨-, h⟩ := Option.ite_none_right_eq_some.mp h; obtain rfl := Option.some.inj h; rfl)
    | (obtain ⟨-, h⟩ := Option.ite_none_right_eq_some.mp h
       obtain ⟨-, -, rfl⟩ := Option.map_eq_some_iff.mp h; rfl)
    | (obtain ⟨-, -, rfl⟩ := Option.map_eq_some_iff.mp h; rfl)

/-- Only `define_function_body` adds a body. -/
theorem declare_bodies (h : t.declare translateSignature d = some t') :
    t'.functionBodyInputs = t.functionBodyInputs ∨
      ∃ body, d = .functionBody body ∧ t'.functionBodyInputs = t.functionBodyInputs ++ [body] := by
  unfold ModuleTranslation.declare at h
  split at h
  all_goals first
    | (obtain rfl := Option.some.inj h; exact Or.inr ⟨_, rfl, rfl⟩)
    | (obtain rfl := Option.some.inj h; exact Or.inl rfl)
    | (obtain ⟨-, h⟩ := Option.ite_none_right_eq_some.mp h; obtain rfl := Option.some.inj h
       exact Or.inl rfl)
    | (obtain ⟨-, h⟩ := Option.ite_none_right_eq_some.mp h
       obtain ⟨-, -, rfl⟩ := Option.map_eq_some_iff.mp h; exact Or.inl rfl)
    | (obtain ⟨-, -, rfl⟩ := Option.map_eq_some_iff.mp h; exact Or.inl rfl)

/-- **Every translated module is well formed.** -/
theorem Translated.wellFormed (h : Translated translateSignature tunables t) :
    t.module.WellFormed tunables ∧ t.tunables = tunables := by
  induction h with
  | new => exact ⟨wellFormed_new, rfl⟩
  | step ht hv h ih =>
    obtain ⟨hm, rfl⟩ := ih
    have he := declare_tunables h
    refine ⟨?_, he⟩
    rw [← he]
    exact declare_wellFormed hm hv h

/-- Every body is counted in `u32`. -/
theorem Translated.bodies_data (h : Translated translateSignature tunables t) :
    ∀ b ∈ t.functionBodyInputs, b.data.length < 2 ^ 32 := by
  induction h with
  | new => intro b hb; exact absurd hb (by simp [ModuleTranslation.new])
  | step ht hv h ih =>
    rename_i d
    rcases declare_bodies h with hb | ⟨body, rfl, hb⟩
    · rw [hb]
      exact ih
    · rw [hb]
      exact forall_mem_snoc ih hv.2.1

end Wasmtime.Environ
