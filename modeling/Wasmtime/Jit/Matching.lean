import Wasmtime.Jit.ImportStyle

/-!
# What an import is matched against

`link_module` compares declarations: the plan an export is published with is the one of the module
that exports it last, and neither the current size of the definition nor the limits it was defined
with are looked at. Both have moved on since: the definition may have grown, and each re-export may
have published weaker limits.

* `reachable_matchesDeclarations`: in every world that can be reached, an import is rejected exactly when the
  published declaration does not meet it, and otherwise linked to the definition that is published, unless
  the sanity check on the guards panics; and whatever is linked is large enough and limited enough at run
  time.
* `not_matchesAtRunTime_grown`: a memory that has grown is not matched by its current size.
-/

namespace Wasmtime.Jit

open Environ Wasmtime.Runtime

/-- Linking reports a `LinkError`. -/
def Linked.Rejects {α : Type} (l : Linked α) : Prop := ∃ e, l = .err e

namespace World

variable {Sig Fn : Type} {host : Host} {tunables : Tunables} {w w' : World Sig Fn}

/-- A memory meets an import: at least as large, at most the maximum, equally shared. -/
def MemoryMeets (size : Nat) (declared imported : Memory) : Prop :=
  imported.minimum.toNat ≤ size ∧ MaximumWithin declared.maximum imported.maximum ∧
    declared.shared = imported.shared

/-- A table meets an import: at least as large, at most the maximum, of the same elements. -/
def TableMeets (size : Nat) (declared imported : Environ.Table) : Prop :=
  imported.minimum.toNat ≤ size ∧ MaximumWithin declared.maximum imported.maximum ∧
    declared.ty = imported.ty

/-- The rule at run time: what counts is the current size and the limits of the definition. -/
def MatchesAtRunTime (w : World Sig Fn) : Prop :=
  ∀ (resolve : Resolver Sig), w.Provides resolve →
  ∀ (m : Module Sig) (index : Nat) (module field : String) p vmctx,
    (∀ exported imported memory defining, resolve module field = some (.memory p vmctx exported) →
      m.memoryPlans[index]? = some imported → w.memoryOf p = some memory →
      w.memoryPlanOf p = some defining →
      (linkMemory resolve m index module field = .ok ⟨p, vmctx⟩ ↔
        MemoryMeets memory.size.toNat defining.memory imported.memory)) ∧
    (∀ exported imported table defining, resolve module field = some (.table p vmctx exported) →
      m.tablePlans[index]? = some imported → w.tableOf p = some table →
      w.tablePlanOf p = some defining →
      (linkTable resolve m index module field = .ok ⟨p, vmctx⟩ ↔
        TableMeets table.size defining.table imported.table))

/-- The rule of `link_module`: an import is rejected exactly when the published declaration, which is one of
the exporting module, does not meet it. Otherwise it is linked to the definition that is published, for a
memory if its guard suffices; and what is linked meets the import at run time. -/
def MatchesDeclarations (w : World Sig Fn) : Prop :=
  ∀ (resolve : Resolver Sig), w.Provides resolve →
  ∀ (m : Module Sig) (index : Nat) (module field : String) p vmctx,
    (∀ exported imported, resolve module field = some (.memory p vmctx exported) →
      m.memoryPlans[index]? = some imported →
      ((linkMemory resolve m index module field).Rejects ↔
        ¬ MemoryMeets exported.memory.minimum.toNat exported.memory imported.memory) ∧
      (linkMemory resolve m index module field = .ok ⟨p, vmctx⟩ ↔
        MemoryMeets exported.memory.minimum.toNat exported.memory imported.memory ∧
          guardsSuffice exported imported = true) ∧
      (linkMemory resolve m index module field = .ok ⟨p, vmctx⟩ →
        ∃ memory defining, w.memoryOf p = some memory ∧ w.memoryPlanOf p = some defining ∧
          MemoryMeets memory.size.toNat defining.memory imported.memory)) ∧
    (∀ exported imported, resolve module field = some (.table p vmctx exported) →
      m.tablePlans[index]? = some imported →
      ((linkTable resolve m index module field).Rejects ↔
        ¬ TableMeets exported.table.minimum.toNat exported.table imported.table) ∧
      (linkTable resolve m index module field = .ok ⟨p, vmctx⟩ ↔
        TableMeets exported.table.minimum.toNat exported.table imported.table) ∧
      (linkTable resolve m index module field = .ok ⟨p, vmctx⟩ →
        ∃ table defining, w.tableOf p = some table ∧ w.tablePlanOf p = some defining ∧
          TableMeets table.size defining.table imported.table))

theorem isMemoryCompatible_iff_meets {exported imported : MemoryPlan} :
    isMemoryCompatible exported imported = true ↔
      MemoryMeets exported.memory.minimum.toNat exported.memory imported.memory := by
  rw [isMemoryCompatible_iff, UInt32.le_iff_toNat_le]
  rfl

theorem isTableCompatible_iff_meets {exported imported : TablePlan} :
    isTableCompatible exported imported = true ↔
      TableMeets exported.table.minimum.toNat exported.table imported.table := by
  rw [isTableCompatible_iff, UInt32.le_iff_toNat_le]
  unfold TableMeets
  constructor
  · rintro ⟨hty, hmin, hmax⟩
    exact ⟨hmin, hmax, hty⟩
  · rintro ⟨hmin, hmax, hty⟩
    exact ⟨hty, hmin, hmax⟩

section

variable {resolve : Resolver Sig} {m : Module Sig} {index : Nat} {module field : String}
  {p : DefinitionPtr} {vmctx : Nat}

/-- The memory loop rejects a memory exactly when the declarations are incompatible. -/
theorem linkMemory_rejects_iff {exported imported : MemoryPlan}
    (hr : resolve module field = some (.memory p vmctx exported))
    (hp : m.memoryPlans[index]? = some imported) :
    (linkMemory resolve m index module field).Rejects ↔
      ¬ isMemoryCompatible exported imported = true := by
  unfold linkMemory Linked.Rejects
  simp only [hr, hp]
  by_cases hc : isMemoryCompatible exported imported = true
  · by_cases hg : guardsSuffice exported imported = true
    · simp [hc, hg]
    · simp [hc, hg]
  · simp [hc]

/-- It links the definition that is exported exactly when they are compatible and the guard suffices. -/
theorem linkMemory_eq_ok_iff {exported imported : MemoryPlan}
    (hr : resolve module field = some (.memory p vmctx exported))
    (hp : m.memoryPlans[index]? = some imported) :
    linkMemory resolve m index module field = .ok ⟨p, vmctx⟩ ↔
      isMemoryCompatible exported imported = true ∧ guardsSuffice exported imported = true := by
  unfold linkMemory
  simp only [hr, hp]
  by_cases hc : isMemoryCompatible exported imported = true
  · by_cases hg : guardsSuffice exported imported = true
    · simp [hc, hg]
    · simp [hc, hg]
  · simp [hc]

/-- The table loop rejects a table exactly when the declarations are incompatible. -/
theorem linkTable_rejects_iff {exported imported : TablePlan}
    (hr : resolve module field = some (.table p vmctx exported))
    (hp : m.tablePlans[index]? = some imported) :
    (linkTable resolve m index module field).Rejects ↔ ¬ isTableCompatible exported imported = true := by
  unfold linkTable Linked.Rejects
  simp only [hr, hp]
  by_cases hc : isTableCompatible exported imported = true
  · simp [hc]
  · simp [hc]

theorem linkTable_eq_ok_iff {exported imported : TablePlan}
    (hr : resolve module field = some (.table p vmctx exported))
    (hp : m.tablePlans[index]? = some imported) :
    linkTable resolve m index module field = .ok ⟨p, vmctx⟩ ↔
      isTableCompatible exported imported = true := by
  unfold linkTable
  simp only [hr, hp]
  by_cases hc : isTableCompatible exported imported = true
  · simp [hc]
  · simp [hc]

end

/-- A memory compatible with an import meets it at its current size. -/
theorem Inv.memory_meets (hw : Inv host tunables w) {p : DefinitionPtr} {imported : MemoryPlan}
    (h : w.MemoryAt p imported) :
    ∃ memory defining, w.memoryOf p = some memory ∧ w.memoryPlanOf p = some defining ∧
      MemoryMeets memory.size.toNat defining.memory imported.memory := by
  obtain ⟨⟨memory, hm⟩, defining, hplan, hc⟩ := h
  obtain ⟨ty, hty, hrun⟩ := hw.memory_run hm
  obtain rfl := Option.some.inj (hplan.symm.trans hty)
  obtain ⟨hmin, hmax, hshared⟩ := isMemoryCompatible_iff.mp hc
  have hsize := (LinearMemory.run_inv (ty.plan_ok tunables) hrun).minimum_le
  exact ⟨memory, _, hm, hplan, UInt32.le_iff_toNat_le.mp (UInt32.le_trans hmin hsize), hmax, hshared⟩

/-- A table compatible with an import meets it at its current size. -/
theorem Inv.table_meets (hw : Inv host tunables w) {p : DefinitionPtr} {imported : TablePlan}
    (h : w.TableAt p imported) :
    ∃ table defining, w.tableOf p = some table ∧ w.tablePlanOf p = some defining ∧
      TableMeets table.size defining.table imported.table := by
  obtain ⟨⟨table, ht⟩, defining, hplan, hc⟩ := h
  obtain ⟨hty, hmin, hmax⟩ := isTableCompatible_iff.mp hc
  have hbound : Table.Bound defining table := by
    unfold tableOf at ht
    unfold tablePlanOf at hplan
    obtain ⟨i, hi, ht'⟩ := Option.bind_eq_some_iff.mp ht
    have hok := hw _ i hi
    rw [hi, Option.bind_some] at hplan
    obtain ⟨plan, hp, hrun⟩ := hok.inv.table _ table ht'
    obtain rfl := Option.some.inj (hp.symm.trans hplan)
    exact Table.run_bound (hok.wellFormed.tableLimits plan (List.mem_of_getElem? hp)) hrun
  exact ⟨table, defining, ht, hplan,
    le_trans (UInt32.le_iff_toNat_le.mp hmin) hbound.minimum_le, hmax, hty⟩

theorem Inv.matchesDeclarations (hw : Inv host tunables w) : w.MatchesDeclarations := by
  intro resolve hres m index module field p vmctx
  refine ⟨fun exported imported hr hp => ⟨?_, ?_, fun hok => ?_⟩,
    fun exported imported hr hp => ⟨?_, ?_, fun hok => ?_⟩⟩
  · rw [linkMemory_rejects_iff hr hp, isMemoryCompatible_iff_meets]
  · rw [linkMemory_eq_ok_iff hr hp, isMemoryCompatible_iff_meets]
  · have hc := (linkMemory_eq_ok_iff hr hp).mp hok
    exact hw.memory_meets ((hw.published_memory (hres _ _ _ hr)).1.trans hc.1)
  · rw [linkTable_rejects_iff hr hp, isTableCompatible_iff_meets]
  · rw [linkTable_eq_ok_iff hr hp, isTableCompatible_iff_meets]
  · have hc := (linkTable_eq_ok_iff hr hp).mp hok
    exact hw.table_meets ((hw.published_table (hres _ _ _ hr)).trans hc)

variable [DecidableEq Sig] {translateSignature : Sig → Sig}

/-- **Imports are matched by declaration**, in every world that can be reached. -/
theorem reachable_matchesDeclarations (h : Reachable translateSignature host tunables w) :
    w.MatchesDeclarations :=
  h.inv.matchesDeclarations

/-! ## A memory that has grown -/

open LinearMemory in
/-- `(memory 1 10)` grows to five pages. -/
theorem grow_oneToTenPages {m : LinearMemory}
    (h : LinearMemory.new host4K ⟨some 0, true⟩ (oneToTenPages.plan .default) = .ok m) :
    ∃ m', m.grow host4K ⟨none, true⟩ 4 = .ret (some m.current) m' ∧ m'.current = 5 := by
  have hp := oneToTenPages.plan_ok .default
  have hi := inv_new hp h
  have hcur : m.current = 1 := (new_ok hp h).2.2.1
  have hs : (oneToTenPages.plan .default).style = .static 0x10000 := by decide
  have hlen := hi.static_len hs
  have hadd : checkedAdd32 m.current 4 = some 5 := by
    rw [hcur]
    decide
  have hn : Admits (oneToTenPages.plan .default) 4 m 5 := by
    refine ⟨by rw [hcur]; decide, ?_, by decide⟩
    intro max hmax
    obtain rfl : max = 10 := (Option.some.inj (hmax.symm.trans (by decide)))
    decide
  refine grow_committed_granted hp hi hs (by decide) hadd hn ?_ none
  rw [hlen]
  decide

/-- A world whose only memory was declared with one page and has five. -/
theorem reachable_grown : ∃ (i : Instance Unit Unit) (m : LinearMemory),
    Reachable id LinearMemory.host4K .default [i] ∧
      i.module = Instance.oneMemory (LinearMemory.oneToTenPages.plan .default) ∧
      i.memories[0]? = some m ∧ m.current = 5 := by
  have hp := LinearMemory.oneToTenPages.plan_ok .default
  obtain ⟨m, hm⟩ := @LinearMemory.new_granted LinearMemory.host4K _ hp (by decide) (by decide) 0
  obtain ⟨i, hreach, hmod, hmem⟩ := @reachable_oneMemory Unit Unit _ _ _ id _ _ _ hm
  obtain ⟨m', hgrow, hcur⟩ := grow_oneToTenPages hm
  have hlt : 0 < i.memories.length := (List.getElem?_eq_some_iff.mp hmem).1
  have hstep := Instance.memoryGrow_eq hmem hgrow
  have hk : ([i] : World Unit Unit)[0]? = some i := rfl
  refine ⟨_, m', Relation.ReflTransGen.tail hreach (Step.inside hk (.memoryGrow hstep)), hmod, ?_,
    hcur⟩
  exact List.getElem?_set_self hlt

/-- `(memory 3)`. -/
def threePages : MemoryType := .atLeast 3 (by decide)

/-- The memory of five pages is rejected for an import of type `(memory 3)`. -/
theorem not_matchesAtRunTime_grown : ∃ w : World Unit Unit,
    Reachable id LinearMemory.host4K .default w ∧ ¬ w.MatchesAtRunTime := by
  obtain ⟨i, m, hreach, hmod, hmem, hcur⟩ := reachable_grown
  refine ⟨[i], hreach, fun h => ?_⟩
  have hof : memoryOf [i] ⟨0, 0⟩ = some m := hmem
  have hplan : memoryPlanOf [i] ⟨0, 0⟩ = some (LinearMemory.oneToTenPages.plan .default) := by
    unfold memoryPlanOf
    rw [List.getElem?_cons_zero, Option.bind_some, hmod]
    rfl
  have hiff := (h _ (provides_firstMemory hmod) (importsMemory (threePages.plan .default)) 0
    "provider" "memory" ⟨0, 0⟩ 0).1 _ _ m _ rfl rfl hof hplan
  rw [linkMemory_eq_ok_iff rfl rfl] at hiff
  have hmeets : MemoryMeets m.size.toNat (LinearMemory.oneToTenPages.plan .default).memory
      (threePages.plan .default).memory := by
    refine ⟨?_, ?_, by decide⟩
    · unfold LinearMemory.size
      rw [hcur]
      decide
    · have hnone : (threePages.plan .default).memory.maximum = none := by decide
      intro max hmax
      exact absurd (hnone.symm.trans hmax) (by simp)
  exact absurd (hiff.mpr hmeets) (by decide)

/-- The declared rule, on the same world. -/
theorem matchesDeclarations_grown : ∃ w : World Unit Unit,
    (∃ m, w.memoryOf ⟨0, 0⟩ = some m ∧ m.size = 5) ∧ w.MatchesDeclarations := by
  obtain ⟨i, m, hreach, -, hmem, hcur⟩ := reachable_grown
  exact ⟨[i], ⟨m, hmem, hcur⟩, reachable_matchesDeclarations hreach⟩

end World

end Wasmtime.Jit
