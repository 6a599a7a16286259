import Wasmtime.Runtime.Instance

/-!
# Linking

Model of `link_module` (`wasmtime-jit/src/link.rs`): each import is resolved, its kind and type are
checked, and its address is recorded. `Resolver::resolve` is a parameter. The relocations applied at
the end and the dependency set touch nothing that is modelled.

* `isTableCompatible` and `isMemoryCompatible` compare declarations; `isTableCompatible_iff` and
  `isMemoryCompatible_iff` say what they decide, and both are reflexive and transitive, which is
  what carries them along chains of re-exports.
* `LinkError` names the import and what was wrong with it; its text is built from these.
-/

namespace Wasmtime.Jit

open Environ Wasmtime.Runtime

/-- The kinds of import. -/
inductive Kind where
  | function
  | table
  | memory
  | global
  deriving DecidableEq, Repr

/-- `LinkError`: an import of a kind, by its module and field name, that is not provided, has the
wrong kind, or has an incompatible type. -/
inductive LinkError where
  | unknown (kind : Kind) (module field : String)
  | kind (kind : Kind) (module field : String)
  | type (kind : Kind) (module field : String)
  deriving DecidableEq, Repr

/-- What linking ends with. -/
abbrev Linked := Ending LinkError Panic

/-! ## Compatibility -/

/-- `is_global_compatible`; `none` is the panic on an import with an initializer. -/
def isGlobalCompatible (exported imported : Global) : Option Bool :=
  match imported.initializer with
  | .imported =>
    some (exported.ty == imported.ty && imported.mutability == exported.mutability)
  | _ => none

/-- `is_table_element_type_compatible`. -/
def isTableElementTypeCompatible : TableElementType → TableElementType → Bool
  | .func, .func => true
  | .func, .val _ => false
  | .val exported, .val imported => exported == imported
  | .val _, .func => false

/-- The limits of an import admit those of an export: the shape `is_table_compatible` and
`is_memory_compatible` share. -/
def limitsCompatible (exportedMinimum importedMinimum : UInt32)
    (exportedMaximum importedMaximum : Option UInt32) : Bool :=
  decide (importedMinimum ≤ exportedMinimum) &&
    match importedMaximum, exportedMaximum with
    | none, _ => true
    | some _, none => false
    | some imported, some exported => decide (imported ≥ exported)

/-- `is_table_compatible`. -/
def isTableCompatible (exported imported : TablePlan) : Bool :=
  isTableElementTypeCompatible exported.table.ty imported.table.ty &&
    limitsCompatible exported.table.minimum imported.table.minimum exported.table.maximum
      imported.table.maximum

/-- `is_memory_compatible`. -/
def isMemoryCompatible (exported imported : MemoryPlan) : Bool :=
  limitsCompatible exported.memory.minimum imported.memory.minimum exported.memory.maximum
    imported.memory.maximum && exported.memory.shared == imported.memory.shared

/-- A declared maximum is within the one an import asks for, if it asks for one. -/
def MaximumWithin (exported imported : Option UInt32) : Prop :=
  ∀ max, imported = some max → ∃ max', exported = some max' ∧ max' ≤ max

theorem MaximumWithin.refl (m : Option UInt32) : MaximumWithin m m :=
  fun max h => ⟨max, h, UInt32.le_refl max⟩

theorem MaximumWithin.trans {a b c : Option UInt32} (hab : MaximumWithin a b)
    (hbc : MaximumWithin b c) : MaximumWithin a c := by
  intro max hmax
  obtain ⟨max', hb, hle⟩ := hbc max hmax
  obtain ⟨max'', ha, hle'⟩ := hab max' hb
  exact ⟨max'', ha, UInt32.le_trans hle' hle⟩

theorem limitsCompatible_iff {emin imin : UInt32} {emax imax : Option UInt32} :
    limitsCompatible emin imin emax imax = true ↔ imin ≤ emin ∧ MaximumWithin emax imax := by
  unfold limitsCompatible MaximumWithin
  cases imax with
  | none => simp
  | some imax =>
    cases emax with
    | none => simp
    | some emax => simp

theorem isTableElementTypeCompatible_iff {exported imported : TableElementType} :
    isTableElementTypeCompatible exported imported = true ↔ exported = imported := by
  cases exported <;> cases imported <;> simp [isTableElementTypeCompatible]

/-- What the table check decides, on the declarations. -/
theorem isTableCompatible_iff {exported imported : TablePlan} :
    isTableCompatible exported imported = true ↔
      exported.table.ty = imported.table.ty ∧ imported.table.minimum ≤ exported.table.minimum ∧
        MaximumWithin exported.table.maximum imported.table.maximum := by
  unfold isTableCompatible
  rw [Bool.and_eq_true, isTableElementTypeCompatible_iff, limitsCompatible_iff]

/-- What the memory check decides, on the declarations. -/
theorem isMemoryCompatible_iff {exported imported : MemoryPlan} :
    isMemoryCompatible exported imported = true ↔
      imported.memory.minimum ≤ exported.memory.minimum ∧
        MaximumWithin exported.memory.maximum imported.memory.maximum ∧
        exported.memory.shared = imported.memory.shared := by
  unfold isMemoryCompatible
  rw [Bool.and_eq_true, limitsCompatible_iff, beq_iff_eq, and_assoc]

theorem isTableCompatible_refl (p : TablePlan) : isTableCompatible p p = true :=
  isTableCompatible_iff.mpr ⟨rfl, UInt32.le_refl _, .refl _⟩

theorem isTableCompatible_trans {a b c : TablePlan} (hab : isTableCompatible a b = true)
    (hbc : isTableCompatible b c = true) : isTableCompatible a c = true := by
  obtain ⟨ty, min, max⟩ := isTableCompatible_iff.mp hab
  obtain ⟨ty', min', max'⟩ := isTableCompatible_iff.mp hbc
  exact isTableCompatible_iff.mpr ⟨ty.trans ty', UInt32.le_trans min' min, max.trans max'⟩

theorem isMemoryCompatible_refl (p : MemoryPlan) : isMemoryCompatible p p = true :=
  isMemoryCompatible_iff.mpr ⟨UInt32.le_refl _, .refl _, rfl⟩

theorem isMemoryCompatible_trans {a b c : MemoryPlan} (hab : isMemoryCompatible a b = true)
    (hbc : isMemoryCompatible b c = true) : isMemoryCompatible a c = true := by
  obtain ⟨min, max, shared⟩ := isMemoryCompatible_iff.mp hab
  obtain ⟨min', max', shared'⟩ := isMemoryCompatible_iff.mp hbc
  exact isMemoryCompatible_iff.mpr
    ⟨UInt32.le_trans min' min, max.trans max', shared.trans shared'⟩

/-! ## `link_module` -/

section

variable {Sig : Type}

/-- `Resolver::resolve`. -/
abbrev Resolver (Sig : Type) := String → String → Option (ExportValue Sig)

/-- One round of the function loop. -/
def linkFunction [DecidableEq Sig] (resolve : Resolver Sig) (m : Module Sig) (index : Nat)
    (module field : String) : Linked VMFunctionImport :=
  match resolve module field with
  | some (.function address vmctx signature) =>
    match (m.functions[index]?).bind fun s => m.signatures[s.toNat]? with
    | none => .panic .index
    | some importSignature =>
      if signature ≠ importSignature then .err (.type .function module field)
      else .ok ⟨address, vmctx⟩
  | some _ => .err (.kind .function module field)
  | none => .err (.unknown .function module field)

/-- One round of the table loop. -/
def linkTable (resolve : Resolver Sig) (m : Module Sig) (index : Nat) (module field : String) :
    Linked VMImport :=
  match resolve module field with
  | some (.table definition vmctx table) =>
    match m.tablePlans[index]? with
    | none => .panic .index
    | some importTable =>
      if isTableCompatible table importTable then .ok ⟨definition, vmctx⟩
      else .err (.type .table module field)
  | some _ => .err (.kind .table module field)
  | none => .err (.unknown .table module field)

/-- The sanity check of the memory loop: the imported memory has at least the guard-page protections
the importing module expects it to have. -/
def guardsSuffice (memory importMemory : MemoryPlan) : Bool :=
  (match memory.style, importMemory.style with
    | .static bound, .static importBound => decide (bound ≥ importBound)
    | _, _ => true) &&
    decide (memory.offsetGuardSize ≥ importMemory.offsetGuardSize)

/-- One round of the memory loop. -/
def linkMemory (resolve : Resolver Sig) (m : Module Sig) (index : Nat) (module field : String) :
    Linked VMImport :=
  match resolve module field with
  | some (.memory definition vmctx memory) =>
    match m.memoryPlans[index]? with
    | none => .panic .index
    | some importMemory =>
      if isMemoryCompatible memory importMemory then
        if guardsSuffice memory importMemory then .ok ⟨definition, vmctx⟩
        else .panic .linkMemory
      else .err (.type .memory module field)
  | some _ => .err (.kind .memory module field)
  | none => .err (.unknown .memory module field)

/-- One round of the global loop. -/
def linkGlobal (resolve : Resolver Sig) (m : Module Sig) (index : Nat) (module field : String) :
    Linked DefinitionPtr :=
  match resolve module field with
  | some (.global definition _ global) =>
    match m.globals[index]? with
    | none => .panic .index
    | some importedGlobal =>
      match isGlobalCompatible global importedGlobal with
      | none => .panic .importedGlobal
      | some false => .err (.type .global module field)
      | some true => .ok definition
  | some _ => .err (.kind .global module field)
  | none => .err (.unknown .global module field)

/-- A loop over the imports of one kind. -/
def linkAll {α : Type} (link : Nat → String → String → Linked α) :
    Nat → List (String × String) → Linked (List α)
  | _, [] => .ok []
  | k, (module, field) :: rest =>
    (link k module field).bind fun a => (linkAll link (k + 1) rest).bind fun as => .ok (a :: as)

/-- `link_module`. -/
def linkModule [DecidableEq Sig] (resolve : Resolver Sig) (m : Module Sig) : Linked Imports :=
  (linkAll (linkFunction resolve m) 0 m.importedFuncs).bind fun functions =>
  (linkAll (linkTable resolve m) 0 m.importedTables).bind fun tables =>
  (linkAll (linkMemory resolve m) 0 m.importedMemories).bind fun memories =>
  (linkAll (linkGlobal resolve m) 0 m.importedGlobals).bind fun globals =>
  .ok ⟨functions, tables, memories, globals⟩

/-! ## What a successful or a panicking link says -/

theorem linkAll_ok {α : Type} {link : Nat → String → String → Linked α} {k : Nat}
    {imports : List (String × String)} {as : List α} (h : linkAll link k imports = .ok as) :
    ∀ (j : Nat) a, as[j]? = some a →
      ∃ module field, imports[j]? = some (module, field) ∧ link (k + j) module field = .ok a := by
  induction imports generalizing k as with
  | nil =>
    obtain rfl := Ending.ok.inj h
    intro j a hj
    exact absurd hj (by simp)
  | cons p rest ih =>
    obtain ⟨b, hb, h⟩ := Ending.bind_eq_ok.mp h
    obtain ⟨bs, hbs, h⟩ := Ending.bind_eq_ok.mp h
    obtain rfl := Ending.ok.inj h
    intro j a hj
    cases j with
    | zero =>
      obtain rfl := Option.some.inj hj
      exact ⟨p.1, p.2, rfl, hb⟩
    | succ j =>
      obtain ⟨module, field, hi, hl⟩ := ih hbs j a hj
      exact ⟨module, field, hi, by rw [← hl]; congr 1; omega⟩

theorem linkAll_length {α : Type} {link : Nat → String → String → Linked α} {k : Nat}
    {imports : List (String × String)} {as : List α} (h : linkAll link k imports = .ok as) :
    as.length = imports.length := by
  induction imports generalizing k as with
  | nil =>
    obtain rfl := Ending.ok.inj h
    rfl
  | cons p rest ih =>
    obtain ⟨b, hb, h⟩ := Ending.bind_eq_ok.mp h
    obtain ⟨bs, hbs, h⟩ := Ending.bind_eq_ok.mp h
    obtain rfl := Ending.ok.inj h
    rw [List.length_cons, List.length_cons, ih hbs]

theorem linkAll_panic {α : Type} {link : Nat → String → String → Linked α} {k : Nat}
    {imports : List (String × String)} {p : Panic} (h : linkAll link k imports = .panic p) :
    ∃ index module field, link index module field = .panic p := by
  induction imports generalizing k with
  | nil => exact absurd h (by simp [linkAll])
  | cons q rest ih =>
    rcases Ending.bind_eq_panic.mp h with h | ⟨a, -, h⟩
    · exact ⟨k, q.1, q.2, h⟩
    · rcases Ending.bind_eq_panic.mp h with h | ⟨as, -, h⟩
      · exact ih h
      · exact absurd h (by simp)

variable {resolve : Resolver Sig} {m : Module Sig} {index : Nat} {module field : String}

/-- What a table that was linked passed. -/
theorem linkTable_ok {imp : VMImport} (h : linkTable resolve m index module field = .ok imp) :
    ∃ exported imported, resolve module field = some (.table imp.source imp.vmctx exported) ∧
      m.tablePlans[index]? = some imported ∧ isTableCompatible exported imported = true := by
  unfold linkTable at h
  split at h
  · rename_i definition vmctx exported hr
    cases hp : m.tablePlans[index]? with
    | none =>
      rw [hp] at h
      exact absurd h (by simp)
    | some imported =>
      rw [hp] at h
      by_cases hc : isTableCompatible exported imported = true
      · simp only [if_pos hc] at h
        obtain rfl := Ending.ok.inj h
        exact ⟨exported, imported, hr, rfl, hc⟩
      · simp only [if_neg hc] at h
        exact absurd h (by simp)
  · exact absurd h (by simp)
  · exact absurd h (by simp)

/-- What a memory that was linked passed. -/
theorem linkMemory_ok {imp : VMImport} (h : linkMemory resolve m index module field = .ok imp) :
    ∃ exported imported, resolve module field = some (.memory imp.source imp.vmctx exported) ∧
      m.memoryPlans[index]? = some imported ∧ isMemoryCompatible exported imported = true ∧
      guardsSuffice exported imported = true := by
  unfold linkMemory at h
  split at h
  · rename_i definition vmctx exported hr
    cases hp : m.memoryPlans[index]? with
    | none =>
      rw [hp] at h
      exact absurd h (by simp)
    | some imported =>
      rw [hp] at h
      by_cases hc : isMemoryCompatible exported imported = true
      · by_cases hg : guardsSuffice exported imported = true
        · simp only [if_pos hc, if_pos hg] at h
          obtain rfl := Ending.ok.inj h
          exact ⟨exported, imported, hr, rfl, hc, hg⟩
        · simp only [if_pos hc, if_neg hg] at h
          exact absurd h (by simp)
      · simp only [if_neg hc] at h
        exact absurd h (by simp)
  · exact absurd h (by simp)
  · exact absurd h (by simp)

/-- What a function that was linked passed: the signatures are equal. -/
theorem linkFunction_ok [DecidableEq Sig] {imp : VMFunctionImport}
    (h : linkFunction resolve m index module field = .ok imp) :
    ∃ s signature, resolve module field = some (.function imp.body imp.vmctx signature) ∧
      m.functions[index]? = some s ∧ m.signatures[s.toNat]? = some signature := by
  unfold linkFunction at h
  split at h
  · rename_i address vmctx signature hr
    split at h
    · exact absurd h (by simp)
    · rename_i importSignature hsig
      obtain ⟨s, hs, hsig⟩ := Option.bind_eq_some_iff.mp hsig
      split at h
      · exact absurd h (by simp)
      · rename_i heq
        obtain rfl := Ending.ok.inj h
        exact ⟨s, signature, hr, hs, (not_not.mp heq) ▸ hsig⟩
  · exact absurd h (by simp)
  · exact absurd h (by simp)

/-- What a global that was linked passed. -/
theorem linkGlobal_ok {p : DefinitionPtr} (h : linkGlobal resolve m index module field = .ok p) :
    ∃ vmctx global, resolve module field = some (.global p vmctx global) := by
  unfold linkGlobal at h
  split at h
  · rename_i definition vmctx global hr
    split at h
    · exact absurd h (by simp)
    · split at h
      · exact absurd h (by simp)
      · exact absurd h (by simp)
      · obtain rfl := Ending.ok.inj h
        exact ⟨vmctx, global, hr⟩
  · exact absurd h (by simp)
  · exact absurd h (by simp)

/-- When the sanity check of the memory loop fails. -/
theorem linkMemory_panic (h : linkMemory resolve m index module field = .panic .linkMemory) :
    ∃ definition vmctx exported imported,
      resolve module field = some (.memory definition vmctx exported) ∧
      m.memoryPlans[index]? = some imported ∧ isMemoryCompatible exported imported = true ∧
      guardsSuffice exported imported = false := by
  unfold linkMemory at h
  split at h
  · rename_i definition vmctx exported hr
    cases hp : m.memoryPlans[index]? with
    | none =>
      rw [hp] at h
      exact absurd h (by simp)
    | some imported =>
      rw [hp] at h
      by_cases hc : isMemoryCompatible exported imported = true
      · by_cases hg : guardsSuffice exported imported = true
        · simp only [if_pos hc, if_pos hg] at h
          exact absurd h (by simp)
        · exact ⟨definition, vmctx, exported, imported, hr, rfl, hc, Bool.not_eq_true _ ▸ hg⟩
      · simp only [if_neg hc] at h
        exact absurd h (by simp)
  · exact absurd h (by simp)
  · exact absurd h (by simp)

theorem linkFunction_ne_panic [DecidableEq Sig] :
    linkFunction resolve m index module field ≠ .panic .linkMemory := by
  intro h
  unfold linkFunction at h
  split at h
  · split at h
    · exact absurd h (by simp)
    · split at h
      · exact absurd h (by simp)
      · exact absurd h (by simp)
  · exact absurd h (by simp)
  · exact absurd h (by simp)

theorem linkTable_ne_panic : linkTable resolve m index module field ≠ .panic .linkMemory := by
  intro h
  unfold linkTable at h
  split at h
  · split at h
    · exact absurd h (by simp)
    · split at h
      · exact absurd h (by simp)
      · exact absurd h (by simp)
  · exact absurd h (by simp)
  · exact absurd h (by simp)

theorem linkGlobal_ne_panic : linkGlobal resolve m index module field ≠ .panic .linkMemory := by
  intro h
  unfold linkGlobal at h
  split at h
  · split at h
    · exact absurd h (by simp)
    · split at h
      · exact absurd h (by simp)
      · exact absurd h (by simp)
      · exact absurd h (by simp)
  · exact absurd h (by simp)
  · exact absurd h (by simp)

/-- Only the memory loop fails the sanity check. -/
theorem linkModule_panic [DecidableEq Sig] (h : linkModule resolve m = .panic .linkMemory) :
    ∃ definition vmctx exported imported module field,
      resolve module field = some (.memory definition vmctx exported) ∧
      imported ∈ m.memoryPlans ∧ isMemoryCompatible exported imported = true ∧
      guardsSuffice exported imported = false := by
  unfold linkModule at h
  rcases Ending.bind_eq_panic.mp h with h | ⟨functions, -, h⟩
  · obtain ⟨index, module, field, h⟩ := linkAll_panic h
    exact absurd h linkFunction_ne_panic
  rcases Ending.bind_eq_panic.mp h with h | ⟨tables, -, h⟩
  · obtain ⟨index, module, field, h⟩ := linkAll_panic h
    exact absurd h linkTable_ne_panic
  rcases Ending.bind_eq_panic.mp h with h | ⟨memories, -, h⟩
  · obtain ⟨index, module, field, h⟩ := linkAll_panic h
    obtain ⟨definition, vmctx, exported, imported, hr, hp, hc, hg⟩ := linkMemory_panic h
    exact ⟨definition, vmctx, exported, imported, module, field, hr, List.mem_of_getElem? hp, hc, hg⟩
  rcases Ending.bind_eq_panic.mp h with h | ⟨globals, -, h⟩
  · obtain ⟨index, module, field, h⟩ := linkAll_panic h
    exact absurd h linkGlobal_ne_panic
  · exact absurd h (by simp)

/-- What was linked for each import of a module. -/
theorem linkModule_ok [DecidableEq Sig] {imports : Imports} (h : linkModule resolve m = .ok imports) :
    imports.tables.length = m.importedTables.length ∧
    imports.memories.length = m.importedMemories.length ∧
    (∀ (j : Nat) imp, imports.tables[j]? = some imp → ∃ module field,
      linkTable resolve m j module field = .ok imp) ∧
    (∀ (j : Nat) imp, imports.memories[j]? = some imp → ∃ module field,
      linkMemory resolve m j module field = .ok imp) := by
  unfold linkModule at h
  obtain ⟨functions, -, h⟩ := Ending.bind_eq_ok.mp h
  obtain ⟨tables, htables, h⟩ := Ending.bind_eq_ok.mp h
  obtain ⟨memories, hmemories, h⟩ := Ending.bind_eq_ok.mp h
  obtain ⟨globals, -, h⟩ := Ending.bind_eq_ok.mp h
  obtain rfl := Ending.ok.inj h
  refine ⟨linkAll_length htables, linkAll_length hmemories, fun j imp hj => ?_, fun j imp hj => ?_⟩
  · obtain ⟨module, field, -, hl⟩ := linkAll_ok htables j imp hj
    exact ⟨module, field, by rwa [Nat.zero_add] at hl⟩
  · obtain ⟨module, field, -, hl⟩ := linkAll_ok hmemories j imp hj
    exact ⟨module, field, by rwa [Nat.zero_add] at hl⟩

/-- What was linked for the functions and globals a module imports. -/
theorem linkModule_ok_functions [DecidableEq Sig] {imports : Imports}
    (h : linkModule resolve m = .ok imports) :
    imports.functions.length = m.importedFuncs.length ∧
    imports.globals.length = m.importedGlobals.length ∧
    (∀ (j : Nat) imp, imports.functions[j]? = some imp → ∃ module field,
      linkFunction resolve m j module field = .ok imp) ∧
    (∀ (j : Nat) p, imports.globals[j]? = some p → ∃ module field,
      linkGlobal resolve m j module field = .ok p) := by
  unfold linkModule at h
  obtain ⟨functions, hfunctions, h⟩ := Ending.bind_eq_ok.mp h
  obtain ⟨tables, -, h⟩ := Ending.bind_eq_ok.mp h
  obtain ⟨memories, -, h⟩ := Ending.bind_eq_ok.mp h
  obtain ⟨globals, hglobals, h⟩ := Ending.bind_eq_ok.mp h
  obtain rfl := Ending.ok.inj h
  refine ⟨linkAll_length hfunctions, linkAll_length hglobals, fun j imp hj => ?_, fun j p hj => ?_⟩
  · obtain ⟨module, field, -, hl⟩ := linkAll_ok hfunctions j imp hj
    exact ⟨module, field, by rwa [Nat.zero_add] at hl⟩
  · obtain ⟨module, field, -, hl⟩ := linkAll_ok hglobals j p hj
    exact ⟨module, field, by rwa [Nat.zero_add] at hl⟩

end

end Wasmtime.Jit
