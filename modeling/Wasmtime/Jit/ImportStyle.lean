import Wasmtime.Jit.World

/-!
# Importers are safe for the memories they are linked to

Compiled code relies on the plan of its own module: on the guard and, for a static plan, on the
reserved bound and on a base that never moves (`make_heap` of
`wasmtime-environ/src/func_environ.rs` marks it read-only). Here this is compared with the memory the
code is linked to, at the end of any chain of re-exports.

Under the same tunables an import is compatible with a static importer only if the definition is
static as well (`static_of_compatible`), so bound and base are always right. The guard is not: a
dynamic importer may be linked to a static memory, and the sanity check of `link_module` then compares
the two guards of the tunables.

Result: `importStyleSound_iff`.
-/

namespace Wasmtime.Jit.World

open Environ Wasmtime.Runtime

variable {Sig Fn : Type} {host : Host} {tunables : Tunables} {w w' : World Sig Fn}

/-- `readonly_base` of `make_heap`: the base of the heap never moves. -/
def readonlyBase (plan : MemoryPlan) : Bool :=
  match plan.style with
  | .dynamic => false
  | .static _ => true

theorem readonlyBase_iff {plan : MemoryPlan} : readonlyBase plan = true ↔ plan.style ≠ .dynamic := by
  unfold readonlyBase
  cases plan.style <;> simp

/-! ## Compatible plans under the same tunables -/

/-- A static importer is compatible with static memories only, and they reserve the same bound and
guard. -/
theorem static_of_compatible {a b : MemoryType} {bound : UInt32}
    (hc : isMemoryCompatible (a.plan tunables) (b.plan tunables) = true)
    (hs : (b.plan tunables).style = .static bound) :
    (a.plan tunables).style = .static bound ∧
      (a.plan tunables).offsetGuardSize = (b.plan tunables).offsetGuardSize := by
  obtain ⟨-, hmax, -⟩ := isMemoryCompatible_iff.mp hc
  rcases forMemory_cases (b.forMemory_eq tunables) with ⟨bmax, hbmax, hble, -, hb⟩ | ⟨-, hb⟩
  · rw [hb] at hs hmax ⊢
    obtain rfl := MemoryStyle.static.inj hs
    obtain ⟨amax, hamax, hle⟩ := hmax bmax hbmax
    rw [forMemory_memory (a.forMemory_eq tunables)] at hamax
    rcases forMemory_cases (a.forMemory_eq tunables) with ⟨_, -, -, -, ha⟩ | ⟨hgt, -⟩
    · rw [ha]
      exact ⟨rfl, rfl⟩
    · exact absurd (UInt32.le_trans hle hble) (UInt32.not_le.mpr (hgt amax hamax))
  · rw [hb] at hs
    exact absurd hs (by simp)

/-- The guard of a plan is one of the two of the tunables. -/
theorem guard_of_style (ty : MemoryType) (tunables : Tunables) :
    ((ty.plan tunables).style = .dynamic ∧
      (ty.plan tunables).offsetGuardSize = tunables.dynamicMemoryOffsetGuardSize) ∨
    ((ty.plan tunables).style = .static tunables.staticMemoryBound ∧
      (ty.plan tunables).offsetGuardSize = tunables.staticMemoryOffsetGuardSize) := by
  rcases forMemory_cases (ty.forMemory_eq tunables) with ⟨_, -, -, -, h⟩ | ⟨-, h⟩
  · rw [h]
    exact Or.inr ⟨rfl, rfl⟩
  · rw [h]
    exact Or.inl ⟨rfl, rfl⟩

/-- The guard of a compatible memory is large enough, unless a dynamic importer meets a static
memory. -/
theorem guard_le_of_compatible {a b : MemoryType}
    (hc : isMemoryCompatible (a.plan tunables) (b.plan tunables) = true)
    (hg : tunables.dynamicMemoryOffsetGuardSize ≤ tunables.staticMemoryOffsetGuardSize ∨
      (a.plan tunables).style = .dynamic) :
    (b.plan tunables).offsetGuardSize ≤ (a.plan tunables).offsetGuardSize := by
  rcases guard_of_style b tunables with ⟨-, hb⟩ | ⟨hs, -⟩
  · rcases guard_of_style a tunables with ⟨-, ha⟩ | ⟨has, ha⟩
    · rw [ha, hb]
      exact UInt64.le_refl _
    · rw [ha, hb]
      rcases hg with hg | hg
      · exact hg
      · rw [has] at hg
        exact absurd hg (by simp)
  · rw [(static_of_compatible hc hs).2]
    exact UInt64.le_refl _

/-- Between compatible plans the sanity check of `link_module` is about the guards alone. -/
theorem guardsSuffice_iff {a b : MemoryType}
    (hc : isMemoryCompatible (a.plan tunables) (b.plan tunables) = true) :
    guardsSuffice (a.plan tunables) (b.plan tunables) = true ↔
      (b.plan tunables).offsetGuardSize ≤ (a.plan tunables).offsetGuardSize := by
  unfold guardsSuffice
  rw [Bool.and_eq_true, decide_eq_true_eq]
  refine and_iff_right ?_
  cases hb : (b.plan tunables).style with
  | dynamic => cases (a.plan tunables).style <;> rfl
  | static bound =>
    rw [(static_of_compatible hc hb).1]
    exact decide_eq_true (UInt32.le_refl bound)

/-- A static memory can be made: its guard is a page multiple and the size of the mapping does not
overflow. -/
def StaticAllocatable (host : Host) (tunables : Tunables) : Prop :=
  Mmap.pageMultiple host tunables.staticMemoryOffsetGuardSize.toNat = true ∧
    tunables.staticMemoryBound.toNat * wasmPageSize + tunables.staticMemoryOffsetGuardSize.toNat <
      2 ^ 64

theorem staticAllocatable_of_run {ty : MemoryType} {m : LinearMemory}
    (hs : (ty.plan tunables).style ≠ .dynamic)
    (h : LinearMemory.Run host (ty.plan tunables) m) : StaticAllocatable host tunables := by
  obtain ⟨os, m₀, hnew⟩ := LinearMemory.run_new h
  have hp := ty.plan_ok tunables
  have hpage := (LinearMemory.inv_new hp hnew).guard_page
  have hsize := LinearMemory.new_ok_size hp hnew
  rcases guard_of_style ty tunables with ⟨hd, -⟩ | ⟨hst, hguard⟩
  · exact absurd hd hs
  · unfold LinearMemory.reservedPages at hsize
    rw [hguard] at hpage hsize
    rw [hst] at hsize
    exact ⟨hpage, hsize⟩

/-! ## Memories of a world -/

/-- Every memory of a world is in a run of its plan, which comes from a validated type. -/
theorem Inv.memory_run (hw : Inv host tunables w) {p : DefinitionPtr} {m : LinearMemory}
    (hm : w.memoryOf p = some m) :
    ∃ ty : MemoryType, w.memoryPlanOf p = some (ty.plan tunables) ∧
      LinearMemory.Run host (ty.plan tunables) m := by
  unfold memoryOf at hm
  obtain ⟨i, hi, hm⟩ := Option.bind_eq_some_iff.mp hm
  have hok := hw _ i hi
  obtain ⟨plan, hplan, hrun⟩ := hok.inv.memory _ m hm
  obtain ⟨ty, rfl⟩ := hok.wellFormed.memoryType plan (List.mem_of_getElem? hplan)
  refine ⟨ty, ?_, hrun⟩
  unfold memoryPlanOf
  rw [hi, Option.bind_some]
  exact hplan

section

variable [DecidableEq Sig] {translateSignature : Sig → Sig}

/-- A step of the world moves no static memory. -/
theorem Step.memory_ptr (hw : Inv host tunables w) (h : Step translateSignature host tunables w w')
    {p : DefinitionPtr} {plan : MemoryPlan} {m m' : LinearMemory}
    (hplan : w.memoryPlanOf p = some plan) (hs : plan.style ≠ .dynamic)
    (hm : w.memoryOf p = some m) (hm' : w'.memoryOf p = some m') : m'.mmap.ptr = m.mmap.ptr := by
  obtain ⟨ty, hty, hrun⟩ := hw.memory_run hm
  obtain rfl := Option.some.inj (hplan.symm.trans hty)
  unfold memoryOf at hm hm'
  obtain ⟨i, hi, hm⟩ := Option.bind_eq_some_iff.mp hm
  obtain ⟨i', hi', hm'⟩ := Option.bind_eq_some_iff.mp hm'
  have hlt := (List.getElem?_eq_some_iff.mp hi).1
  cases h with
  | instantiate ht hr hl hn =>
    rw [List.getElem?_append_left hlt] at hi'
    obtain rfl := Option.some.inj (hi.symm.trans hi')
    obtain rfl := Option.some.inj (hm.symm.trans hm')
    rfl
  | inside hk h =>
    rename_i k b b'
    rw [List.getElem?_set] at hi'
    by_cases hkp : k = p.vmctx
    · rw [if_pos hkp, if_pos (hkp ▸ hlt)] at hi'
      obtain rfl := Option.some.inj hi'
      rw [hkp] at hk
      obtain rfl := Option.some.inj (hi.symm.trans hk)
      rcases h.memory hm hm' with rfl | ⟨os, delta, r, hg⟩ | ⟨addr, byte, rfl⟩
      · rfl
      · exact LinearMemory.grow_ptr (ty.plan_ok tunables) hs hrun hg
      · rfl
    · rw [if_neg hkp] at hi'
      obtain rfl := Option.some.inj (hi.symm.trans hi')
      obtain rfl := Option.some.inj (hm.symm.trans hm')
      rfl

/-- A static memory stays where it is, whatever the world does. -/
theorem steps_memory_ptr (hw : Inv host tunables w)
    (h : Relation.ReflTransGen (Step translateSignature host tunables) w w') {p : DefinitionPtr}
    {plan : MemoryPlan} {m : LinearMemory} (hplan : w.memoryPlanOf p = some plan)
    (hs : plan.style ≠ .dynamic) (hm : w.memoryOf p = some m) :
    Inv host tunables w' ∧ w'.memoryPlanOf p = some plan ∧
      ∃ m', w'.memoryOf p = some m' ∧ m'.mmap.ptr = m.mmap.ptr := by
  induction h with
  | refl => exact ⟨hw, hplan, m, hm, rfl⟩
  | tail _ hstep ih =>
    obtain ⟨hw', hplan', m', hm', hptr⟩ := ih
    obtain ⟨⟨m'', hm''⟩, hplan''⟩ := hstep.extends.memory hm' hplan'
    exact ⟨hstep.inv hw', hplan'', m'', hm'',
      (hstep.memory_ptr hw' hplan' hs hm' hm'').trans hptr⟩

/-- The plan of an importer is safe for the memory at `p`: a static bound is reserved, the guard is
there, and a base that the code takes for immovable never moves. -/
def SafeFor (translateSignature : Sig → Sig) (host : Host) (tunables : Tunables)
    (w : World Sig Fn) (p : DefinitionPtr) (plan : MemoryPlan) : Prop :=
  ∃ m defining, w.memoryOf p = some m ∧ w.memoryPlanOf p = some defining ∧
    (∀ bound, plan.style = .static bound →
      ∃ bound', defining.style = .static bound' ∧ bound ≤ bound') ∧
    plan.offsetGuardSize.toNat ≤ m.offsetGuardSize ∧
    (readonlyBase plan = true → ∀ w',
      Relation.ReflTransGen (Step translateSignature host tunables) w w' →
      ∀ m', w'.memoryOf p = some m' → m'.mmap.ptr = m.mmap.ptr)

/-- In every world that can be reached, no module fails the sanity checks of `link_module`, and every
instance is safe for the memories it imports. -/
def ImportStyleSound (Fn : Type) (translateSignature : Sig → Sig) (host : Host)
    (tunables : Tunables) : Prop :=
  ∀ w : World Sig Fn, Reachable translateSignature host tunables w →
    (∀ t resolve, Translated translateSignature tunables t → w.Provides resolve →
      linkModule resolve t.module ≠ .panic .linkMemory) ∧
    (∀ (k : Nat) i (j : Nat) imp plan, w[k]? = some i → i.vmctx.imports.memories[j]? = some imp →
      i.module.memoryPlans[j]? = some plan →
      SafeFor translateSignature host tunables w imp.source plan)

/-- The condition: the dynamic guard is not larger than the static one, or there are no static
memories. -/
def GuardsOrdered (host : Host) (tunables : Tunables) : Prop :=
  tunables.dynamicMemoryOffsetGuardSize ≤ tunables.staticMemoryOffsetGuardSize ∨
    ¬ StaticAllocatable host tunables

/-- Where the guards are in order, the guard of a memory in a run covers every compatible plan. -/
theorem GuardsOrdered.guard_le (h : GuardsOrdered host tunables) {a b : MemoryType}
    {m : LinearMemory} (hrun : LinearMemory.Run host (a.plan tunables) m)
    (hc : isMemoryCompatible (a.plan tunables) (b.plan tunables) = true) :
    (b.plan tunables).offsetGuardSize ≤ (a.plan tunables).offsetGuardSize := by
  refine guard_le_of_compatible hc ?_
  rcases h with h | h
  · exact Or.inl h
  · refine Or.inr ?_
    by_contra hs
    exact h (staticAllocatable_of_run hs hrun)

/-- An importer is safe for what it is linked to. -/
theorem Inv.safeFor (hw : Inv host tunables w) (hg : GuardsOrdered host tunables)
    {p : DefinitionPtr} {b : MemoryType} (hat : w.MemoryAt p (b.plan tunables)) :
    SafeFor translateSignature host tunables w p (b.plan tunables) := by
  obtain ⟨⟨m, hm⟩, plan, hplan, hc⟩ := hat
  obtain ⟨a, ha, hrun⟩ := hw.memory_run hm
  obtain rfl := Option.some.inj (hplan.symm.trans ha)
  have hguard := UInt64.le_iff_toNat_le.mp (hg.guard_le hrun hc)
  refine ⟨m, _, hm, ha, fun bound hs => ?_, ?_, fun hro w' hsteps m' hm' => ?_⟩
  · exact ⟨bound, (static_of_compatible hc hs).1, UInt32.le_refl _⟩
  · rw [(LinearMemory.run_inv (a.plan_ok tunables) hrun).guard_eq]
    exact hguard
  · have hs : (a.plan tunables).style ≠ .dynamic := by
      intro hd
      cases hb : (b.plan tunables).style with
      | dynamic => exact readonlyBase_iff.mp hro hb
      | static bound =>
        rw [(static_of_compatible hc hb).1] at hd
        exact absurd hd (by simp)
    obtain ⟨-, -, m'', hm'', hptr⟩ := steps_memory_ptr hw hsteps ha hs hm
    obtain rfl := Option.some.inj (hm'.symm.trans hm'')
    exact hptr

/-- The sanity checks hold for every module. -/
theorem Inv.link_checks (hw : Inv host tunables w) (hg : GuardsOrdered host tunables)
    {t : ModuleTranslation Sig} {resolve : Resolver Sig}
    (ht : Translated translateSignature tunables t) (hr : w.Provides resolve) :
    linkModule resolve t.module ≠ .panic .linkMemory := by
  intro h
  obtain ⟨p, vmctx, exported, imported, module, field, hres, himp, hc, hfail⟩ := linkModule_panic h
  obtain ⟨b, rfl⟩ := ht.wellFormed.1.memoryType imported himp
  obtain ⟨hat, k, i, hi, hmem⟩ := hw.published_memory (hr _ _ _ hres)
  obtain ⟨e, rfl⟩ := (hw k i hi).wellFormed.memoryType exported hmem
  obtain ⟨⟨m, hm⟩, plan, hplan, hce⟩ := hat
  obtain ⟨a, ha, hrun⟩ := hw.memory_run hm
  obtain rfl := Option.some.inj (hplan.symm.trans ha)
  have hle : (b.plan tunables).offsetGuardSize ≤ (e.plan tunables).offsetGuardSize := by
    refine guard_le_of_compatible hc ?_
    rcases hg with hg | hg
    · exact Or.inl hg
    · rcases guard_of_style e tunables with ⟨hd, -⟩ | ⟨hs, -⟩
      · exact Or.inr hd
      · refine absurd (staticAllocatable_of_run ?_ hrun) hg
        rw [(static_of_compatible hce hs).1]
        simp
  rw [(guardsSuffice_iff hc).mpr hle] at hfail
  exact absurd hfail (by simp)

end

/-! ## Where the guards are out of order -/

/-- `(memory 0 0)`, static under all tunables. -/
def noPages : MemoryType := .between 0 0 (by decide) (by decide)

/-- `(memory 0)`, dynamic under all tunables. -/
def anyPages : MemoryType := .atLeast 0 (by decide)

theorem noPages_plan (tunables : Tunables) :
    noPages.plan tunables = ⟨noPages.toMemory, .static tunables.staticMemoryBound,
      tunables.staticMemoryOffsetGuardSize⟩ := by
  rcases forMemory_cases (noPages.forMemory_eq tunables) with ⟨_, -, -, -, h⟩ | ⟨hgt, -⟩
  · exact h
  · exact absurd (hgt 0 rfl) (UInt32.not_lt.mpr (UInt32.le_iff_toNat_le.mpr (Nat.zero_le _)))

theorem anyPages_plan (tunables : Tunables) :
    anyPages.plan tunables = ⟨anyPages.toMemory, .dynamic, tunables.dynamicMemoryOffsetGuardSize⟩ := by
  rcases forMemory_cases (anyPages.forMemory_eq tunables) with ⟨_, h, -⟩ | ⟨-, h⟩
  · exact absurd h (by simp [anyPages, MemoryType.atLeast])
  · exact h

/-- The module that imports one memory and nothing else. -/
def importsMemory (plan : MemoryPlan) : Module Sig :=
  { Module.new with memoryPlans := [plan], importedMemories := [("provider", "memory")] }

theorem translated_importsMemory (translateSignature : Sig → Sig) (ty : MemoryType)
    (tunables : Tunables) :
    Translated translateSignature tunables ⟨importsMemory (ty.plan tunables), [], tunables⟩ := by
  refine @Translated.step _ _ _ _ _ (.memoryImport ty.toMemory "provider" "memory") .new
    ⟨⟨ty, rfl⟩, by simp [ModuleTranslation.new, Module.new]⟩ ?_
  unfold ModuleTranslation.declare ModuleTranslation.new
  simp only [ty.forMemory_eq, Option.map_some]
  rfl

/-- The first instance publishes its memory under the plan of its module. -/
theorem lookup_oneMemory {i : Instance Sig Fn} {plan : MemoryPlan}
    (h : i.module = Instance.oneMemory plan) :
    i.lookupByDeclaration 0 (.memory 0) = some (.memory ⟨0, 0⟩ 0 plan) := by
  unfold Instance.lookupByDeclaration
  rw [h]
  rfl

/-- A resolver that only knows the memory of the first instance. -/
def firstMemory (plan : MemoryPlan) : Resolver Sig := fun _ _ => some (.memory ⟨0, 0⟩ 0 plan)

theorem provides_firstMemory {i : Instance Sig Fn} {plan : MemoryPlan} {rest : World Sig Fn}
    (h : i.module = Instance.oneMemory plan) :
    World.Provides (i :: rest) (firstMemory plan) := by
  intro module field e he
  obtain rfl := Option.some.inj he
  refine ⟨0, i, "memory", .memory 0, rfl, ?_, lookup_oneMemory h⟩
  rw [h]
  exact List.mem_singleton.mpr rfl

variable [DecidableEq Sig] {translateSignature : Sig → Sig}

/-- A memory that can be made is made and exported by the first instance of a world. -/
theorem reachable_oneMemory {ty : MemoryType} {os : Os} {m : LinearMemory}
    (h : LinearMemory.new host os (ty.plan tunables) = .ok m) :
    ∃ i : Instance Sig Fn, Reachable translateSignature host tunables [i] ∧
      i.module = Instance.oneMemory (ty.plan tunables) ∧ i.memories[0]? = some m := by
  obtain ⟨i, hnew, hm⟩ := @Instance.new_oneMemory Sig Fn _ _ _ _ h
  refine ⟨i, ?_, (Instance.inv_new hnew).2.1, hm⟩
  have hnone : World.Provides ([] : World Sig Fn) (fun _ _ => none) :=
    fun module field e he => absurd he (by simp)
  exact Relation.ReflTransGen.single (Step.instantiate
    (Instance.translated_oneMemory translateSignature ty tunables) hnone rfl hnew)

/-- Linking the one import of a module. -/
theorem linkModule_importsMemory {resolve : Resolver Sig} {plan : MemoryPlan} :
    linkModule resolve (importsMemory plan) =
      (linkMemory resolve (importsMemory plan) 0 "provider" "memory").bind fun imp =>
        .ok ⟨[], [], [imp], []⟩ := by
  unfold linkModule importsMemory Module.new
  simp only [linkAll, Ending.ok_bind]
  cases linkMemory resolve _ 0 "provider" "memory" <;> rfl

/-- A dynamic importer fails the sanity check against a static memory with a smaller guard. -/
theorem link_fails (halloc : StaticAllocatable host tunables)
    (hlt : tunables.staticMemoryOffsetGuardSize < tunables.dynamicMemoryOffsetGuardSize) :
    ∃ (w : World Sig Fn) (resolve : Resolver Sig) (t : ModuleTranslation Sig),
      Reachable translateSignature host tunables w ∧ w.Provides resolve ∧
      Translated translateSignature tunables t ∧
      linkModule resolve t.module = .panic .linkMemory := by
  have hp := noPages.plan_ok tunables
  have hplan := noPages_plan tunables
  obtain ⟨m, hm⟩ : ∃ m, LinearMemory.new host ⟨some 0, true⟩ (noPages.plan tunables) = .ok m := by
    refine LinearMemory.new_granted hp ?_ ?_ 0
    · rw [hplan]
      exact halloc.1
    · unfold LinearMemory.reservedPages
      rw [hplan]
      exact halloc.2
  obtain ⟨i, hreach, hmod, -⟩ := @reachable_oneMemory Sig Fn _ _ _ translateSignature _ _ _ hm
  refine ⟨[i], firstMemory (noPages.plan tunables), _, hreach, provides_firstMemory hmod,
    translated_importsMemory translateSignature anyPages tunables, ?_⟩
  have hc : isMemoryCompatible (noPages.plan tunables) (anyPages.plan tunables) = true := by
    rw [hplan, anyPages_plan]
    rfl
  have hg : guardsSuffice (noPages.plan tunables) (anyPages.plan tunables) = false := by
    rw [← Bool.not_eq_true, guardsSuffice_iff hc, hplan, anyPages_plan]
    exact UInt64.not_le.mpr hlt
  rw [linkModule_importsMemory]
  have hlink : linkMemory (firstMemory (noPages.plan tunables))
      (importsMemory (anyPages.plan tunables) : Module Sig) 0 "provider" "memory" =
      .panic .linkMemory := by
    unfold linkMemory firstMemory importsMemory
    simp only [List.getElem?_cons_zero, hc, hg, if_true]
    rfl
  rw [hlink]
  rfl

/-- **Import styles.** Importers are safe for the memories they are linked to, and no sanity check of
`link_module` fails, exactly when the guards are in order. -/
theorem importStyleSound_iff (Fn : Type) (translateSignature : Sig → Sig) (host : Host)
    (tunables : Tunables) :
    ImportStyleSound Fn translateSignature host tunables ↔ GuardsOrdered host tunables := by
  constructor
  · intro hsound
    by_contra hg
    unfold GuardsOrdered at hg
    rw [not_or, not_not, UInt64.not_le] at hg
    obtain ⟨w, resolve, t, hreach, hr, ht, hpanic⟩ :=
      @link_fails Sig Fn host tunables _ translateSignature hg.2 hg.1
    exact (hsound w hreach).1 t resolve ht hr hpanic
  · intro hg w hreach
    have hw := hreach.inv
    refine ⟨fun t resolve ht hr => hw.link_checks hg ht hr, fun k i j imp plan hi himp hplan => ?_⟩
    have hok := hw k i hi
    obtain ⟨plan', hplan', hat⟩ := hok.memories j imp himp
    obtain rfl := Option.some.inj (hplan.symm.trans hplan')
    obtain ⟨ty, rfl⟩ := hok.wellFormed.memoryType plan (List.mem_of_getElem? hplan)
    exact hw.safeFor hg hat

/-- Tunables with a dynamic guard of 64 KiB and no static guard. -/
def guardOnlyDynamic : Tunables := ⟨0x10000, 0, 0x10000⟩

/-- Under them, an import of type `(memory 0)` that is given a `(memory 0 0)` panics. -/
theorem not_importStyleSound_guardOnlyDynamic :
    ¬ ImportStyleSound Unit (id : Unit → Unit) LinearMemory.host4K guardOnlyDynamic := by
  intro hsound
  obtain ⟨w, resolve, t, hreach, hr, ht, hpanic⟩ :=
    @link_fails Unit Unit LinearMemory.host4K guardOnlyDynamic _ id ⟨by decide, by decide⟩ (by decide)
  exact (hsound w hreach).1 t resolve ht hr hpanic

end Wasmtime.Jit.World
