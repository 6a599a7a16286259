import Mathlib.Logic.Relation
import Wasmtime.Jit.Link

/-!
# Instances that import from each other

A world is the list of instances made so far, all compiled under the same tunables. A step makes a
further instance out of a translated module, linked against exports of instances that exist, or is a
step of one instance (`memory_grow`, `table_grow`, stores).

A memory or table can be passed on through any number of instances. `lookup_by_declaration` then
publishes the plan of the last one, while the definition stays where it was made; `Inv` carries along
the chain that the plan of every importer is compatible with the plan of the definition.

Result: `Reachable.inv`, every world that can be reached satisfies the invariant: the definition behind
an import exists and its plan is compatible with the plan of the importer.
-/

namespace Wasmtime.Jit

open Environ Wasmtime.Runtime

variable {Sig Fn : Type}

/-- The instances made so far; a `VMContext` pointer is a position. -/
abbrev World (Sig Fn : Type) := List (Instance Sig Fn)

namespace World

/-- An export of an instance that exists. -/
def Published (w : World Sig Fn) (e : ExportValue Sig) : Prop :=
  ∃ (k : Nat) (i : Instance Sig Fn) (name : String) (d : Environ.Export), w[k]? = some i ∧
    (name, d) ∈ i.module.exports ∧ i.lookupByDeclaration k d = some e

/-- The resolver hands out exports of instances that exist. -/
def Provides (w : World Sig Fn) (resolve : Resolver Sig) : Prop :=
  ∀ module field e, resolve module field = some e → w.Published e

/-- One step of the world. -/
inductive Step [DecidableEq Sig] (translateSignature : Sig → Sig) (host : Host)
    (tunables : Tunables) : World Sig Fn → World Sig Fn → Prop
  | instantiate {w : World Sig Fn} {t : ModuleTranslation Sig} {resolve : Resolver Sig}
      {imports : Imports} {os : Nat → Os} {alloc : Nat → Nat} {finished : List Nat}
      {i : Instance Sig Fn} (ht : Translated translateSignature tunables t)
      (hr : w.Provides resolve) (hl : linkModule resolve t.module = .ok imports)
      (hn : Instance.new host os alloc t.module finished imports = .ok i) :
      Step translateSignature host tunables w (w ++ [i])
  | inside {w : World Sig Fn} {k : Nat} {i i' : Instance Sig Fn} (hk : w[k]? = some i)
      (h : Instance.Step host i i') : Step translateSignature host tunables w (w.set k i')

/-- The worlds that can be reached. -/
def Reachable [DecidableEq Sig] (translateSignature : Sig → Sig) (host : Host)
    (tunables : Tunables) (w : World Sig Fn) : Prop :=
  Relation.ReflTransGen (Step translateSignature host tunables) [] w

/-- The memory a definition pointer stands for. -/
def memoryOf (w : World Sig Fn) (p : DefinitionPtr) : Option LinearMemory :=
  w[p.vmctx]?.bind fun i => i.memories[p.index]?

/-- The plan the memory was made with. -/
def memoryPlanOf (w : World Sig Fn) (p : DefinitionPtr) : Option MemoryPlan :=
  w[p.vmctx]?.bind fun i => i.module.memoryPlans[i.module.memoryIndex p.index]?

/-- The table a definition pointer stands for. -/
def tableOf (w : World Sig Fn) (p : DefinitionPtr) : Option (Table Fn) :=
  w[p.vmctx]?.bind fun i => i.tables[p.index]?

/-- The plan the table was made with. -/
def tablePlanOf (w : World Sig Fn) (p : DefinitionPtr) : Option TablePlan :=
  w[p.vmctx]?.bind fun i => i.module.tablePlans[i.module.tableIndex p.index]?

/-! ## The invariant of a world -/

/-- The pointer stands for a memory whose plan is compatible with `imported`. -/
def MemoryAt (w : World Sig Fn) (p : DefinitionPtr) (imported : MemoryPlan) : Prop :=
  (∃ m, w.memoryOf p = some m) ∧
    ∃ plan, w.memoryPlanOf p = some plan ∧ isMemoryCompatible plan imported = true

/-- The pointer stands for a table whose plan is compatible with `imported`. -/
def TableAt (w : World Sig Fn) (p : DefinitionPtr) (imported : TablePlan) : Prop :=
  (∃ t, w.tableOf p = some t) ∧
    ∃ plan, w.tablePlanOf p = some plan ∧ isTableCompatible plan imported = true

/-- What holds of each instance of a world. -/
structure InstanceOk (host : Host) (tunables : Tunables) (w : World Sig Fn) (i : Instance Sig Fn) :
    Prop where
  inv : i.Inv host
  wellFormed : i.module.WellFormed tunables
  memories : ∀ (j : Nat) imp, i.vmctx.imports.memories[j]? = some imp →
    ∃ plan, i.module.memoryPlans[j]? = some plan ∧ w.MemoryAt imp.source plan
  tables : ∀ (j : Nat) imp, i.vmctx.imports.tables[j]? = some imp →
    ∃ plan, i.module.tablePlans[j]? = some plan ∧ w.TableAt imp.source plan

/-- The invariant of a world. -/
def Inv (host : Host) (tunables : Tunables) (w : World Sig Fn) : Prop :=
  ∀ (k : Nat) i, w[k]? = some i → InstanceOk host tunables w i

/-- What a step of the world leaves alone: every instance keeps its module, its imports and the
number of its memories and tables. -/
def Extends (w w' : World Sig Fn) : Prop :=
  ∀ (k : Nat) i, w[k]? = some i → ∃ i', w'[k]? = some i' ∧ Instance.Frame i i' ∧
    i'.memories.length = i.memories.length ∧ i'.tables.length = i.tables.length

section

variable {host : Host} {tunables : Tunables} {w w' : World Sig Fn}

theorem Extends.memoryAt (h : Extends w w') {p : DefinitionPtr} {imported : MemoryPlan}
    (hp : w.MemoryAt p imported) : w'.MemoryAt p imported := by
  obtain ⟨⟨m, hm⟩, plan, hplan, hc⟩ := hp
  unfold memoryOf at hm
  unfold memoryPlanOf at hplan
  obtain ⟨i, hi, hm⟩ := Option.bind_eq_some_iff.mp hm
  obtain ⟨i', hi', hf, hlen, -⟩ := h _ i hi
  rw [hi, Option.bind_some] at hplan
  have hk : p.index < i'.memories.length := by
    rw [hlen]
    exact (List.getElem?_eq_some_iff.mp hm).1
  refine ⟨⟨i'.memories[p.index], ?_⟩, plan, ?_, hc⟩
  · unfold memoryOf
    rw [hi', Option.bind_some, List.getElem?_eq_getElem hk]
  · unfold memoryPlanOf
    rw [hi', Option.bind_some, hf.module]
    exact hplan

theorem Extends.tableAt (h : Extends w w') {p : DefinitionPtr} {imported : TablePlan}
    (hp : w.TableAt p imported) : w'.TableAt p imported := by
  obtain ⟨⟨t, ht⟩, plan, hplan, hc⟩ := hp
  unfold tableOf at ht
  unfold tablePlanOf at hplan
  obtain ⟨i, hi, ht⟩ := Option.bind_eq_some_iff.mp ht
  obtain ⟨i', hi', hf, -, hlen⟩ := h _ i hi
  rw [hi, Option.bind_some] at hplan
  have hk : p.index < i'.tables.length := by
    rw [hlen]
    exact (List.getElem?_eq_some_iff.mp ht).1
  refine ⟨⟨i'.tables[p.index], ?_⟩, plan, ?_, hc⟩
  · unfold tableOf
    rw [hi', Option.bind_some, List.getElem?_eq_getElem hk]
  · unfold tablePlanOf
    rw [hi', Option.bind_some, hf.module]
    exact hplan

theorem Extends.memory (h : Extends w w') {p : DefinitionPtr} {m : LinearMemory} {plan : MemoryPlan}
    (hm : w.memoryOf p = some m) (hplan : w.memoryPlanOf p = some plan) :
    (∃ m', w'.memoryOf p = some m') ∧ w'.memoryPlanOf p = some plan := by
  have hat : w.MemoryAt p plan := ⟨⟨m, hm⟩, plan, hplan, isMemoryCompatible_refl plan⟩
  refine ⟨(h.memoryAt hat).1, ?_⟩
  unfold memoryPlanOf at hplan ⊢
  obtain ⟨i, hi, hp⟩ := Option.bind_eq_some_iff.mp hplan
  obtain ⟨i', hi', hf, -⟩ := h _ i hi
  rw [hi', Option.bind_some, hf.module]
  exact hp

theorem InstanceOk.mono {i : Instance Sig Fn} (h : InstanceOk host tunables w i)
    (he : Extends w w') : InstanceOk host tunables w' i := by
  refine ⟨h.inv, h.wellFormed, fun j imp hj => ?_, fun j imp hj => ?_⟩
  · obtain ⟨plan, hplan, hat⟩ := h.memories j imp hj
    exact ⟨plan, hplan, he.memoryAt hat⟩
  · obtain ⟨plan, hplan, hat⟩ := h.tables j imp hj
    exact ⟨plan, hplan, he.tableAt hat⟩

theorem lookup_memory {k : Nat} {i : Instance Sig Fn} {d : Environ.Export} {p : DefinitionPtr}
    {vmctx : Nat} {plan : MemoryPlan}
    (h : i.lookupByDeclaration k d = some (.memory p vmctx plan)) :
    ∃ index, d = .memory index ∧ i.module.memoryPlans[index.toNat]? = some plan ∧
      Instance.lookupDefinition k (i.module.definedMemoryIndex index.toNat)
        i.vmctx.imports.memories[index.toNat]? = some (p, vmctx) := by
  cases d with
  | function index =>
    obtain ⟨_, -, h⟩ := Option.bind_eq_some_iff.mp h
    obtain ⟨_, -, h⟩ := Option.map_eq_some_iff.mp h
    exact absurd h (by simp)
  | table index =>
    obtain ⟨_, -, h⟩ := Option.bind_eq_some_iff.mp h
    obtain ⟨_, -, h⟩ := Option.map_eq_some_iff.mp h
    exact absurd h (by simp)
  | memory index =>
    obtain ⟨plan', hplan, h⟩ := Option.bind_eq_some_iff.mp h
    obtain ⟨⟨p', v'⟩, hdef, h⟩ := Option.map_eq_some_iff.mp h
    obtain ⟨rfl, rfl, rfl⟩ := ExportValue.memory.inj h
    exact ⟨index, rfl, hplan, hdef⟩
  | global index =>
    obtain ⟨_, -, h⟩ := Option.bind_eq_some_iff.mp h
    obtain ⟨_, -, h⟩ := Option.map_eq_some_iff.mp h
    exact absurd h (by simp)

theorem lookup_table {k : Nat} {i : Instance Sig Fn} {d : Environ.Export} {p : DefinitionPtr}
    {vmctx : Nat} {plan : TablePlan}
    (h : i.lookupByDeclaration k d = some (.table p vmctx plan)) :
    ∃ index, d = .table index ∧ i.module.tablePlans[index.toNat]? = some plan ∧
      Instance.lookupDefinition k (i.module.definedTableIndex index.toNat)
        i.vmctx.imports.tables[index.toNat]? = some (p, vmctx) := by
  cases d with
  | function index =>
    obtain ⟨_, -, h⟩ := Option.bind_eq_some_iff.mp h
    obtain ⟨_, -, h⟩ := Option.map_eq_some_iff.mp h
    exact absurd h (by simp)
  | table index =>
    obtain ⟨plan', hplan, h⟩ := Option.bind_eq_some_iff.mp h
    obtain ⟨⟨p', v'⟩, hdef, h⟩ := Option.map_eq_some_iff.mp h
    obtain ⟨rfl, rfl, rfl⟩ := ExportValue.table.inj h
    exact ⟨index, rfl, hplan, hdef⟩
  | memory index =>
    obtain ⟨_, -, h⟩ := Option.bind_eq_some_iff.mp h
    obtain ⟨_, -, h⟩ := Option.map_eq_some_iff.mp h
    exact absurd h (by simp)
  | global index =>
    obtain ⟨_, -, h⟩ := Option.bind_eq_some_iff.mp h
    obtain ⟨_, -, h⟩ := Option.map_eq_some_iff.mp h
    exact absurd h (by simp)

/-- The two ends of a looked-up definition: made here, or imported. -/
theorem lookupDefinition_cases {vmctx : Nat} {defined : Option Nat} {imported : Option VMImport}
    {p : DefinitionPtr} {v : Nat}
    (h : Instance.lookupDefinition vmctx defined imported = some (p, v)) :
    (∃ d, defined = some d ∧ p = ⟨vmctx, d⟩) ∨
    (defined = none ∧ ∃ imp, imported = some imp ∧ p = imp.source) := by
  unfold Instance.lookupDefinition at h
  cases defined with
  | some d =>
    obtain ⟨rfl, rfl⟩ := Prod.mk.inj (Option.some.inj h)
    exact Or.inl ⟨d, rfl, rfl⟩
  | none =>
    obtain ⟨imp, himp, h⟩ := Option.map_eq_some_iff.mp h
    obtain ⟨rfl, rfl⟩ := Prod.mk.inj h
    exact Or.inr ⟨rfl, imp, himp, rfl⟩

/-- What an instance publishes as a memory stands for a definition that is compatible with it. -/
theorem Inv.published_memory (hw : Inv host tunables w) {p : DefinitionPtr} {vmctx : Nat}
    {plan : MemoryPlan} (h : w.Published (.memory p vmctx plan)) :
    w.MemoryAt p plan ∧ ∃ (k : Nat) (i : Instance Sig Fn), w[k]? = some i ∧
      plan ∈ i.module.memoryPlans := by
  obtain ⟨k, i, name, d, hi, -, hl⟩ := h
  have hok := hw k i hi
  obtain ⟨index, rfl, hplan, hdef⟩ := lookup_memory hl
  refine ⟨?_, k, i, hi, List.mem_of_getElem? hplan⟩
  rcases lookupDefinition_cases hdef with ⟨d, hd, rfl⟩ | ⟨-, imp, himp, rfl⟩
  · have hidx := Module.definedIndex_eq_some.mp hd
    have hlt : d < i.memories.length := by
      have hlen := (List.getElem?_eq_some_iff.mp hplan).1
      rw [hok.inv.memories_length]
      omega
    refine ⟨⟨i.memories[d], ?_⟩, plan, ?_, isMemoryCompatible_refl plan⟩
    · unfold memoryOf
      rw [hi, Option.bind_some, List.getElem?_eq_getElem hlt]
    · unfold memoryPlanOf Module.memoryIndex
      rw [hi, Option.bind_some, ← hidx]
      exact hplan
  · obtain ⟨plan', hplan', hat⟩ := hok.memories _ imp himp
    obtain rfl := Option.some.inj (hplan.symm.trans hplan')
    exact hat

/-- What an instance publishes as a table stands for a definition that is compatible with it. -/
theorem Inv.published_table (hw : Inv host tunables w) {p : DefinitionPtr} {vmctx : Nat}
    {plan : TablePlan} (h : w.Published (.table p vmctx plan)) : w.TableAt p plan := by
  obtain ⟨k, i, name, d, hi, -, hl⟩ := h
  have hok := hw k i hi
  obtain ⟨index, rfl, hplan, hdef⟩ := lookup_table hl
  rcases lookupDefinition_cases hdef with ⟨d, hd, rfl⟩ | ⟨-, imp, himp, rfl⟩
  · have hidx := Module.definedIndex_eq_some.mp hd
    have hlt : d < i.tables.length := by
      have hlen := (List.getElem?_eq_some_iff.mp hplan).1
      rw [hok.inv.tables_length]
      omega
    refine ⟨⟨i.tables[d], ?_⟩, plan, ?_, isTableCompatible_refl plan⟩
    · unfold tableOf
      rw [hi, Option.bind_some, List.getElem?_eq_getElem hlt]
    · unfold tablePlanOf Module.tableIndex
      rw [hi, Option.bind_some, ← hidx]
      exact hplan
  · obtain ⟨plan', hplan', hat⟩ := hok.tables _ imp himp
    obtain rfl := Option.some.inj (hplan.symm.trans hplan')
    exact hat

theorem MemoryAt.trans {p : DefinitionPtr} {exported imported : MemoryPlan}
    (h : w.MemoryAt p exported) (hc : isMemoryCompatible exported imported = true) :
    w.MemoryAt p imported := by
  obtain ⟨hm, plan, hplan, hce⟩ := h
  exact ⟨hm, plan, hplan, isMemoryCompatible_trans hce hc⟩

theorem TableAt.trans {p : DefinitionPtr} {exported imported : TablePlan}
    (h : w.TableAt p exported) (hc : isTableCompatible exported imported = true) :
    w.TableAt p imported := by
  obtain ⟨ht, plan, hplan, hce⟩ := h
  exact ⟨ht, plan, hplan, isTableCompatible_trans hce hc⟩

/-! ## Steps keep the invariant -/

theorem extends_snoc (w : World Sig Fn) (i : Instance Sig Fn) : Extends w (w ++ [i]) := by
  intro k i' hk
  have hlt := (List.getElem?_eq_some_iff.mp hk).1
  exact ⟨i', by rw [List.getElem?_append_left hlt]; exact hk, ⟨rfl, rfl, rfl, rfl⟩, rfl, rfl⟩

theorem extends_set {k : Nat} {i i' : Instance Sig Fn} (hk : w[k]? = some i)
    (h : Instance.Step host i i') : Extends w (w.set k i') := by
  intro j b hb
  rw [List.getElem?_set]
  by_cases hj : k = j
  · subst hj
    obtain rfl := Option.some.inj (hk.symm.trans hb)
    have hlt := (List.getElem?_eq_some_iff.mp hk).1
    rw [if_pos rfl, if_pos hlt]
    exact ⟨i', rfl, h.frame, h.lengths⟩
  · rw [if_neg hj]
    exact ⟨b, hb, ⟨rfl, rfl, rfl, rfl⟩, rfl, rfl⟩

variable [DecidableEq Sig] {translateSignature : Sig → Sig}

theorem Step.extends (h : Step translateSignature host tunables w w') : Extends w w' := by
  cases h with
  | instantiate ht hr hl hn => exact extends_snoc w _
  | inside hk h => exact extends_set hk h

/-- A module linked against published exports imports definitions compatible with its plans. -/
theorem Inv.instantiate (hw : Inv host tunables w) {t : ModuleTranslation Sig}
    {resolve : Resolver Sig} {imports : Imports} {os : Nat → Os} {alloc : Nat → Nat}
    {finished : List Nat} {i : Instance Sig Fn} (ht : Translated translateSignature tunables t)
    (hr : w.Provides resolve) (hl : linkModule resolve t.module = .ok imports)
    (hn : Instance.new host os alloc t.module finished imports = .ok i) :
    InstanceOk host tunables w i := by
  obtain ⟨hinv, hmod, himp⟩ := Instance.inv_new hn
  obtain ⟨-, -, htables, hmemories⟩ := linkModule_ok hl
  refine ⟨hinv, hmod ▸ ht.wellFormed.1, fun j imp hj => ?_, fun j imp hj => ?_⟩
  · rw [himp] at hj
    obtain ⟨module, field, h⟩ := hmemories j imp hj
    obtain ⟨exported, imported, hres, hplan, hc, -⟩ := linkMemory_ok h
    exact ⟨imported, hmod ▸ hplan, (hw.published_memory (hr _ _ _ hres)).1.trans hc⟩
  · rw [himp] at hj
    obtain ⟨module, field, h⟩ := htables j imp hj
    obtain ⟨exported, imported, hres, hplan, hc⟩ := linkTable_ok h
    exact ⟨imported, hmod ▸ hplan, (hw.published_table (hr _ _ _ hres)).trans hc⟩

theorem Step.inv (hw : Inv host tunables w) (h : Step translateSignature host tunables w w') :
    Inv host tunables w' := by
  have he := h.extends
  cases h with
  | instantiate ht hr hl hn =>
    intro k i hk
    by_cases hlt : k < w.length
    · rw [List.getElem?_append_left hlt] at hk
      exact (hw k i hk).mono he
    · rw [List.getElem?_append_right (Nat.not_lt.mp hlt)] at hk
      obtain ⟨hz, rfl⟩ := List.getElem?_eq_some_iff.mp hk
      rw [List.getElem_singleton]
      exact (hw.instantiate ht hr hl hn).mono he
  | inside hk h =>
    rename_i k i i'
    refine Instance.forall_getElem?_set (fun j b hb => (hw j b hb).mono he) ?_
    have hok := (hw k i hk).mono he
    have hf := h.frame
    refine ⟨h.inv hok.inv, hf.module ▸ hok.wellFormed, fun j imp hj => ?_, fun j imp hj => ?_⟩
    · rw [hf.imports] at hj
      rw [hf.module]
      exact hok.memories j imp hj
    · rw [hf.imports] at hj
      rw [hf.module]
      exact hok.tables j imp hj

/-- Every world that can be reached satisfies the invariant. -/
theorem Reachable.inv (h : Reachable translateSignature host tunables w) :
    Inv host tunables w := by
  unfold Reachable at h
  induction h with
  | refl => intro k i hk; exact absurd hk (by simp)
  | tail _ hstep ih => exact hstep.inv ih

end

end World

end Wasmtime.Jit
