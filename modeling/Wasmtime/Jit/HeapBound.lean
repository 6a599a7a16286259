import Wasmtime.Lib.LittleEndian
import Wasmtime.Jit.Matching

/-!
# The heap bound that compiled code loads

Model of `FuncEnvironment::make_heap` (`wasmtime-environ/src/func_environ.rs`): the global values it
creates for a memory, defined or imported, and what they hold when the compiled function runs in an
instance of a world.

* A `VMContext` is read where `make_heap` reads it: a pointer-sized load in the array of memory imports
  (`VMMemoryImport`), and a load of any width in the array of memory definitions.
* `VMMemoryDefinition` is `repr(C)`: on a 64-bit host sixteen bytes, the base and the length. A pointer
  to one is an instance and an index there, as in `Wasmtime.Runtime.Instance`.
* `none` of `makeHeap` is an offset that an `i32` does not hold, where the code panics.

Result: `heapBound_agrees_iff`. Compiled code loads four bytes of the eight-byte length. In every world
that can be reached the bound it sees is right exactly when the module that defines the memory declares
fewer than 65536 pages, whatever the importing module declares.
-/

namespace Wasmtime.Jit.HeapBound

open Environ Wasmtime.Runtime World

variable {Sig Fn : Type}

/-! ## The code `make_heap` emits -/

/-- The `ir::GlobalValueData` that `make_heap` creates. A load has its offset from `base`, the bytes of
its type, and `readonly`. -/
inductive GlobalValue where
  | vmContext
  | load (base : GlobalValue) (offset width : Nat) (readonly : Bool)
  deriving DecidableEq, Repr

/-- `ir::HeapStyle`. -/
inductive HeapStyle where
  | dynamic (boundGv : GlobalValue)
  | static (bound : Nat)
  deriving DecidableEq, Repr

/-- `ir::HeapData`, less the index type, which is always `I32`. -/
structure HeapData where
  base : GlobalValue
  minSize : Nat
  offsetGuardSize : UInt64
  style : HeapStyle
  deriving DecidableEq, Repr

/-- `i32::try_from`. -/
def i32TryFrom (offset : Nat) : Option Nat := if offset < 2 ^ 31 then some offset else none

/-- The pointer to the definition or to the `VMContext` it lies in, with the offsets of the base and
of the length from there. -/
def heapFields (o : VMOffsets) (m : Module Sig) (index : Nat) : Option (GlobalValue × Nat × Nat) :=
  match m.definedMemoryIndex index with
  | some defIndex =>
    ((o.vmctxVmmemoryDefinitionBase defIndex).bind i32TryFrom).bind fun baseOffset =>
    ((o.vmctxVmmemoryDefinitionCurrentLength defIndex).bind i32TryFrom).map
      fun currentLengthOffset => (.vmContext, baseOffset, currentLengthOffset)
  | none =>
    ((o.vmctxVmmemoryImportFrom index).bind i32TryFrom).map fun fromOffset =>
      (.load .vmContext fromOffset o.pointerSize true, o.vmmemoryDefinitionBase,
        o.vmmemoryDefinitionCurrentLength)

/-- The style of a heap: a dynamic one loads its bound, of the type
`type_of_vmmemory_definition_current_length`. -/
def heapStyle (ptr : GlobalValue) (currentLengthOffset : Nat) : MemoryStyle → HeapStyle
  | .dynamic => .dynamic
      (.load ptr currentLengthOffset (VMOffsets.typeOfVmmemoryDefinitionCurrentLength / 8) false)
  | .static bound => .static (bound.toNat * wasmPageSize)

/-- `make_heap`. -/
def makeHeap (o : VMOffsets) (m : Module Sig) (index : Nat) : Option HeapData :=
  (heapFields o m index).bind fun (ptr, baseOffset, currentLengthOffset) =>
  m.memoryPlans[index]?.map fun plan =>
    { base := .load ptr baseOffset o.pointerSize (readonlyBase plan)
      minSize := 0
      offsetGuardSize := plan.offsetGuardSize
      style := heapStyle ptr currentLengthOffset plan.style }

/-! ## What it loads -/

/-- What a global value holds. -/
inductive Value where
  | vmctx (k : Nat)
  | definition (p : DefinitionPtr)
  | int (n : Nat)
  deriving DecidableEq, Repr

/-- The bytes of a `VMMemoryDefinition`. -/
def definitionBytes (d : VMMemoryDefinition) : List UInt8 :=
  LittleEndian.leBytes 8 d.base ++ LittleEndian.leBytes 8 d.currentLength

/-- A little-endian load of bytes. -/
def loadBytes (bytes : List UInt8) (offset width : Nat) : Option Value :=
  if offset + width ≤ bytes.length then
    some (.int (LittleEndian.ofLeBytes ((bytes.drop offset).take width)))
  else none

/-- A load of a field of a `VMMemoryImport`, at an offset into their array. -/
def loadImport (i : Instance Sig Fn) (offset width : Nat) : Option Value :=
  if width = i.offsets.pointerSize then
    i.vmctx.imports.memories[offset / i.offsets.sizeOfVmmemoryImport]?.bind fun imp =>
      if offset % i.offsets.sizeOfVmmemoryImport = i.offsets.vmmemoryImportFrom then
        some (.definition imp.source)
      else if offset % i.offsets.sizeOfVmmemoryImport = i.offsets.vmmemoryImportVmctx then
        some (.vmctx imp.vmctx)
      else none
  else none

/-- A load at an offset of a `VMContext`, from the memory imports or the memory definitions. -/
def loadVmctx (i : Instance Sig Fn) (offset width : Nat) : Option Value :=
  i.offsets.vmctxMemoriesBegin.bind fun memories =>
    if memories ≤ offset then
      loadBytes (i.vmctx.memories.flatMap definitionBytes) (offset - memories) width
    else i.offsets.vmctxImportedMemoriesBegin.bind fun imports =>
      if imports ≤ offset then loadImport i (offset - imports) width else none

/-- A load through a pointer. -/
def loadValue (w : World Sig Fn) (offset width : Nat) : Value → Option Value
  | .vmctx k => w[k]?.bind fun i => loadVmctx i offset width
  | .definition p => (w[p.vmctx]?.bind fun i => i.vmctx.memories[p.index]?).bind fun d =>
      loadBytes (definitionBytes d) offset width
  | .int _ => none

/-- What a global value holds in a function of instance `k`. -/
def GlobalValue.eval (w : World Sig Fn) (k : Nat) : GlobalValue → Option Value
  | .vmContext => some (.vmctx k)
  | .load base offset width _ => (base.eval w k).bind (loadValue w offset width)

/-- The definition that a memory index of instance `k` stands for. -/
def definitionOf (w : World Sig Fn) (k index : Nat) : Option DefinitionPtr :=
  w[k]?.bind fun i => (Instance.lookupDefinition k (i.module.definedMemoryIndex index)
    i.vmctx.imports.memories[index]?).map Prod.fst

/-- The bound that a function of instance `k` sees is the length of the memory. -/
def Agrees (w : World Sig Fn) (k index : Nat) (bound : GlobalValue) : Prop :=
  ∃ p m, definitionOf w k index = some p ∧ w.memoryOf p = some m ∧
    bound.eval w k = some (.int m.vmmemory.currentLength)

/-- The module that defines the memory declares fewer pages than wasm can address. -/
def DeclaredBelowLimit (w : World Sig Fn) (k index : Nat) : Prop :=
  ∃ p plan, definitionOf w k index = some p ∧ w.memoryPlanOf p = some plan ∧
    plan.memory.minimum.toNat < wasmMaxPages

/-- In every world that can be reached, every instance sees the length of each of its dynamic memories
as the heap bound. -/
def HeapBoundsAgree [DecidableEq Sig] (Fn : Type) (translateSignature : Sig → Sig) (host : Host)
    (tunables : Tunables) : Prop :=
  ∀ w : World Sig Fn, Reachable translateSignature host tunables w →
  ∀ (k index : Nat) i heap bound, w[k]? = some i → makeHeap i.offsets i.module index = some heap →
    heap.style = .dynamic bound → Agrees w k index bound

/-! ## The loads, one by one -/

theorem length_definitionBytes (d : VMMemoryDefinition) : (definitionBytes d).length = 16 := by
  simp [definitionBytes]

/-- Four bytes at the length field are the length modulo `2^32`. -/
theorem loadBytes_definitionBytes (d : VMMemoryDefinition) :
    loadBytes (definitionBytes d) 8 4 = some (.int (d.currentLength % 2 ^ 32)) := by
  have h8 : (LittleEndian.leBytes 8 d.base).length = 8 := LittleEndian.length_leBytes 8 _
  have hmod : (256 : Nat) ^ 4 = 2 ^ 32 := by decide
  unfold loadBytes
  rw [length_definitionBytes, if_pos (by decide)]
  unfold definitionBytes
  rw [List.drop_left' h8, LittleEndian.take_leBytes (by decide), LittleEndian.ofLeBytes_leBytes, hmod]

/-- A load from the array of definitions that stays inside one of them. -/
theorem loadBytes_flatMap {ds : List VMMemoryDefinition} {k offset width : Nat}
    {d : VMMemoryDefinition} (hd : ds[k]? = some d) (hfit : offset + width ≤ 16) :
    loadBytes (ds.flatMap definitionBytes) (k * 16 + offset) width =
      loadBytes (definitionBytes d) offset width := by
  induction ds generalizing k with
  | nil => exact absurd hd (by simp)
  | cons d' ds ih =>
    have hlen := length_definitionBytes d'
    cases k with
    | zero =>
      obtain rfl := Option.some.inj hd
      unfold loadBytes
      rw [List.flatMap_cons, List.length_append, hlen, Nat.zero_mul, Nat.zero_add,
        if_pos (by omega), if_pos hfit, List.drop_append_of_le_length (by omega),
        List.take_append_of_le_length (by rw [List.length_drop]; omega)]
    | succ k =>
      have hk : (k + 1) * 16 + offset = 16 + (k * 16 + offset) := by omega
      rw [← ih hd]
      unfold loadBytes
      rw [List.flatMap_cons, List.length_append, hlen, hk, ← List.drop_drop, List.drop_left' hlen]
      exact if_congr (by omega) rfl rfl

section

variable {host : Host} {tunables : Tunables} {w : World Sig Fn}

/-- The copy of a memory in the `VMContext` that a definition pointer leads to. -/
theorem definition_current (hw : Inv host tunables w) {p : DefinitionPtr} {m : LinearMemory}
    (hm : w.memoryOf p = some m) :
    (w[p.vmctx]?.bind fun i => i.vmctx.memories[p.index]?) = some m.vmmemory := by
  unfold memoryOf at hm
  obtain ⟨i, hi, hm⟩ := Option.bind_eq_some_iff.mp hm
  rw [hi, Option.bind_some, (hw _ i hi).inv.vmctxMemories, hm, Option.map_some]

/-- The load of a length in the `VMContext` it lies in. -/
theorem loadVmctx_currentLength {i : Instance Sig Fn} (hi : i.Inv host) {d offset : Nat}
    {m : LinearMemory} (hm : i.memories[d]? = some m)
    (ho : i.offsets.vmctxVmmemoryDefinitionCurrentLength d = some offset) :
    loadVmctx i offset 4 = some (.int (m.vmmemory.currentLength % 2 ^ 32)) := by
  obtain ⟨n, hsize⟩ := hi.size
  have hnew := VMOffsets.new_eq_some hi.offsets_eq
  have hd : d < i.memories.length := (List.getElem?_eq_some_iff.mp hm).1
  have hlt : d < i.offsets.numDefinedMemories := by
    have hlen := hi.memories_length
    rw [hnew]
    simp only
    omega
  have hp : i.offsets.pointerSize = 8 := by rw [hnew]
  obtain ⟨b, hb, hoff⟩ := VMOffsets.vmctxVmmemoryDefinitionCurrentLength_eq hsize hlt
  rw [hp] at hoff
  obtain rfl := Option.some.inj (hoff.symm.trans ho)
  have hat : b + d * (2 * 8) + 1 * 8 - b = d * 16 + 8 := by omega
  have hcopy : i.vmctx.memories[d]? = some m.vmmemory := by
    rw [hi.vmctxMemories, hm, Option.map_some]
  unfold loadVmctx
  rw [hb, Option.bind_some, if_pos (by omega), hat, loadBytes_flatMap hcopy (by decide),
    loadBytes_definitionBytes]

/-- The load of the `from` field of a memory import. -/
theorem loadVmctx_from {i : Instance Sig Fn} (hi : i.Inv host) {index offset : Nat} {imp : VMImport}
    (himp : i.vmctx.imports.memories[index]? = some imp)
    (hlt : index < i.module.importedMemories.length)
    (ho : i.offsets.vmctxVmmemoryImportFrom index = some offset) :
    loadVmctx i offset i.offsets.pointerSize = some (.definition imp.source) := by
  obtain ⟨n, hsize⟩ := hi.size
  have hnew := VMOffsets.new_eq_some hi.offsets_eq
  have hp : i.offsets.pointerSize = 8 := by rw [hnew]
  have hlt' : index < i.offsets.numImportedMemories := by rw [hnew]; exact hlt
  obtain ⟨_, he⟩ := VMOffsets.memories_fit hsize
  obtain ⟨memories, hmemories, -⟩ := arrayEnd_eq_some he
  obtain ⟨e, he, hle⟩ := VMOffsets.importedMemories_fit hmemories
  obtain ⟨b, hb, hoff, hbefore⟩ := VMOffsets.vmctxVmmemoryImportFrom_eq he hlt'
  rw [hp] at hoff hbefore
  obtain rfl := Option.some.inj (hoff.symm.trans ho)
  have hat : b + index * (2 * 8) + 0 * 8 - b = index * 16 := by omega
  have hentry : i.offsets.sizeOfVmmemoryImport = 16 := by
    unfold VMOffsets.sizeOfVmmemoryImport
    rw [hp]
  have hfield : i.offsets.vmmemoryImportFrom = 0 := Nat.zero_mul _
  unfold loadVmctx
  rw [hmemories, Option.bind_some, if_neg (by omega), hb, Option.bind_some, if_pos (by omega), hat]
  unfold loadImport
  rw [if_pos rfl, hentry, Nat.mul_div_cancel _ (by decide), himp, Option.bind_some,
    Nat.mul_mod_left, hfield, if_pos rfl]

/-- What `make_heap` emits for a dynamic heap. -/
theorem makeHeap_dynamic {o : VMOffsets} {module : Module Sig} {index : Nat} {heap : HeapData}
    {bound : GlobalValue} (h : makeHeap o module index = some heap) (hb : heap.style = .dynamic bound) :
    ∃ ptr baseOffset lengthOffset, heapFields o module index = some (ptr, baseOffset, lengthOffset) ∧
      bound = .load ptr lengthOffset 4 false := by
  unfold makeHeap at h
  obtain ⟨⟨ptr, baseOffset, lengthOffset⟩, hfields, h⟩ := Option.bind_eq_some_iff.mp h
  obtain ⟨plan, -, rfl⟩ := Option.map_eq_some_iff.mp h
  refine ⟨ptr, baseOffset, lengthOffset, hfields, ?_⟩
  simp only at hb
  cases hs : plan.style with
  | dynamic =>
    rw [hs] at hb
    exact (HeapStyle.dynamic.inj hb).symm
  | static b =>
    rw [hs] at hb
    exact absurd hb (by simp [heapStyle])

theorem i32TryFrom_eq_some {offset n : Nat} (h : i32TryFrom offset = some n) : n = offset := by
  unfold i32TryFrom at h
  split at h
  · exact (Option.some.inj h).symm
  · exact absurd h (by simp)

section

variable {k index : Nat} {i : Instance Sig Fn} {ptr : GlobalValue} {baseOffset lengthOffset : Nat}
  {m : LinearMemory}

/-- A memory of the instance's own: the length lies in its `VMContext`. -/
theorem eval_bound_defined (hw : Inv host tunables w) {d : Nat} (hi : w[k]? = some i)
    (hd : i.module.definedMemoryIndex index = some d)
    (hfields : heapFields i.offsets i.module index = some (ptr, baseOffset, lengthOffset))
    (hm : w.memoryOf ⟨k, d⟩ = some m) :
    (GlobalValue.load ptr lengthOffset 4 false).eval w k =
      some (.int (m.vmmemory.currentLength % 2 ^ 32)) := by
  unfold heapFields at hfields
  rw [hd] at hfields
  obtain ⟨_, -, hfields⟩ := Option.bind_eq_some_iff.mp hfields
  obtain ⟨offset, hoffset, he⟩ := Option.map_eq_some_iff.mp hfields
  obtain ⟨rfl, -, rfl⟩ : GlobalValue.vmContext = ptr ∧ _ = baseOffset ∧ offset = lengthOffset := by
    simpa using he
  obtain ⟨o, ho, hcast⟩ := Option.bind_eq_some_iff.mp hoffset
  obtain rfl := i32TryFrom_eq_some hcast
  have hm' : i.memories[d]? = some m := by
    unfold memoryOf at hm
    rwa [hi, Option.bind_some] at hm
  unfold GlobalValue.eval GlobalValue.eval loadValue
  rw [Option.bind_some]
  simp only
  rw [hi, Option.bind_some]
  exact loadVmctx_currentLength (hw k i hi).inv hm' ho

/-- An imported memory: the length lies where the `from` pointer leads. -/
theorem eval_bound_imported (hw : Inv host tunables w) {imp : VMImport} (hi : w[k]? = some i)
    (hd : i.module.definedMemoryIndex index = none)
    (himp : i.vmctx.imports.memories[index]? = some imp)
    (hfields : heapFields i.offsets i.module index = some (ptr, baseOffset, lengthOffset))
    (hm : w.memoryOf imp.source = some m) :
    (GlobalValue.load ptr lengthOffset 4 false).eval w k =
      some (.int (m.vmmemory.currentLength % 2 ^ 32)) := by
  have hinv := (hw k i hi).inv
  unfold heapFields at hfields
  rw [hd] at hfields
  obtain ⟨offset, hoffset, he⟩ := Option.map_eq_some_iff.mp hfields
  obtain ⟨rfl, -, rfl⟩ : GlobalValue.load .vmContext offset i.offsets.pointerSize true = ptr ∧
      _ = baseOffset ∧ i.offsets.vmmemoryDefinitionCurrentLength = lengthOffset := by
    simpa using he
  obtain ⟨o, ho, hcast⟩ := Option.bind_eq_some_iff.mp hoffset
  obtain rfl := i32TryFrom_eq_some hcast
  have hptr : i.offsets.pointerSize = 8 := by rw [VMOffsets.new_eq_some hinv.offsets_eq]
  have hfield : i.offsets.vmmemoryDefinitionCurrentLength = 8 := by
    unfold VMOffsets.vmmemoryDefinitionCurrentLength
    rw [hptr]
  have hload : (GlobalValue.load .vmContext offset i.offsets.pointerSize true).eval w k =
      some (.definition imp.source) := by
    unfold GlobalValue.eval GlobalValue.eval loadValue
    rw [Option.bind_some]
    simp only
    rw [hi, Option.bind_some]
    exact loadVmctx_from hinv himp (Module.definedIndex_eq_none.mp hd) ho
  unfold GlobalValue.eval
  rw [hload, Option.bind_some, hfield]
  unfold loadValue
  simp only
  rw [definition_current hw hm, Option.bind_some]
  exact loadBytes_definitionBytes m.vmmemory

/-- **What the load sees**: the length of the memory modulo `2^32`, defined here or imported. -/
theorem eval_bound (hw : Inv host tunables w) {heap : HeapData} {bound : GlobalValue}
    {p : DefinitionPtr} (hi : w[k]? = some i)
    (h : makeHeap i.offsets i.module index = some heap) (hb : heap.style = .dynamic bound)
    (hp : definitionOf w k index = some p) (hm : w.memoryOf p = some m) :
    bound.eval w k = some (.int (m.vmmemory.currentLength % 2 ^ 32)) := by
  obtain ⟨ptr, baseOffset, lengthOffset, hfields, rfl⟩ := makeHeap_dynamic h hb
  unfold definitionOf at hp
  rw [hi, Option.bind_some] at hp
  obtain ⟨⟨_, v⟩, hdef, rfl⟩ := Option.map_eq_some_iff.mp hp
  rcases lookupDefinition_cases hdef with ⟨d, hd, rfl⟩ | ⟨hd, imp, himp, rfl⟩
  · exact eval_bound_defined hw hi hd hfields hm
  · exact eval_bound_imported hw hi hd himp hfields hm

end

end

/-! ## Every memory index has a definition -/

section

variable [DecidableEq Sig] {translateSignature : Sig → Sig} {host : Host} {tunables : Tunables}
  {w w' : World Sig Fn}

/-- Every instance was given a memory for each of its memory imports. -/
def ImportsComplete (w : World Sig Fn) : Prop :=
  ∀ (k : Nat) i, w[k]? = some i →
    i.vmctx.imports.memories.length = i.module.importedMemories.length

theorem ImportsComplete.step (hw : ImportsComplete w)
    (h : Step translateSignature host tunables w w') : ImportsComplete w' := by
  cases h with
  | instantiate ht hr hl hn =>
    obtain ⟨-, hmod, himp⟩ := Instance.inv_new hn
    intro k i hk
    by_cases hlt : k < w.length
    · rw [List.getElem?_append_left hlt] at hk
      exact hw k i hk
    · rw [List.getElem?_append_right (Nat.not_lt.mp hlt)] at hk
      obtain ⟨hz, rfl⟩ := List.getElem?_eq_some_iff.mp hk
      rw [List.getElem_singleton, hmod, himp]
      exact (linkModule_ok hl).2.1
  | inside hk h =>
    have hf := h.frame
    refine Instance.forall_getElem?_set hw ?_
    rw [hf.imports, hf.module]
    exact hw _ _ hk

theorem importsComplete_of_reachable (h : Reachable translateSignature host tunables w) :
    ImportsComplete w := by
  unfold Reachable at h
  induction h with
  | refl => intro k i hk; exact absurd hk (by simp)
  | tail _ hstep ih => exact ih.step hstep

/-- A memory index of a reachable world stands for a memory in a run of the plan it was made with. -/
theorem definitionOf_run (h : Reachable translateSignature host tunables w) {k index : Nat}
    {i : Instance Sig Fn} (hi : w[k]? = some i) (hlt : index < i.module.memoryPlans.length) :
    ∃ p m, ∃ ty : MemoryType, definitionOf w k index = some p ∧ w.memoryOf p = some m ∧
      w.memoryPlanOf p = some (ty.plan tunables) ∧ LinearMemory.Run host (ty.plan tunables) m := by
  have hw := h.inv
  have hok := hw k i hi
  have hp : ∃ p m, definitionOf w k index = some p ∧ w.memoryOf p = some m := by
    unfold definitionOf
    rw [hi, Option.bind_some]
    cases hd : i.module.definedMemoryIndex index with
    | some d =>
      have hidx := Module.definedIndex_eq_some.mp hd
      have hdlt : d < i.memories.length := by
        rw [hok.inv.memories_length]
        omega
      refine ⟨⟨k, d⟩, i.memories[d], rfl, ?_⟩
      unfold memoryOf
      rw [hi, Option.bind_some, List.getElem?_eq_getElem hdlt]
    | none =>
      have hidx := Module.definedIndex_eq_none.mp hd
      rw [← importsComplete_of_reachable h k i hi] at hidx
      have himp := List.getElem?_eq_getElem hidx
      obtain ⟨plan, -, ⟨m, hm⟩, -⟩ := hok.memories _ _ himp
      rw [himp]
      exact ⟨_, m, rfl, hm⟩
  obtain ⟨p, m, hp, hm⟩ := hp
  obtain ⟨ty, hplan, hrun⟩ := hw.memory_run hm
  exact ⟨p, m, ty, hp, hm, hplan, hrun⟩

/-- A run is below the limit of wasm exactly when it started there. -/
theorem run_lt_iff {ty : MemoryType} {m : LinearMemory}
    (h : LinearMemory.Run host (ty.plan tunables) m) :
    m.current.toNat < wasmMaxPages ↔ (ty.plan tunables).memory.minimum.toNat < wasmMaxPages := by
  have hp := ty.plan_ok tunables
  refine ⟨fun hlt => ?_, fun hmin => LinearMemory.run_lt_maxPages hp hmin h⟩
  have hle := UInt32.le_iff_toNat_le.mp (LinearMemory.run_inv hp h).minimum_le
  omega

/-- The length fits the load exactly below the limit of wasm. -/
theorem currentLength_mod (m : LinearMemory) :
    m.vmmemory.currentLength % 2 ^ 32 = m.vmmemory.currentLength ↔
      m.current.toNat < wasmMaxPages := by
  have hmod := Nat.mod_lt m.vmmemory.currentLength (Nat.two_pow_pos 32)
  have hlen : m.vmmemory.currentLength = m.current.toNat * wasmPageSize := rfl
  unfold wasmPageSize at hlen
  unfold wasmMaxPages
  constructor
  · intro he
    omega
  · intro hlt
    exact Nat.mod_eq_of_lt (by omega)

/-- **The heap bound of a dynamic memory.** In every world that can be reached, the bound that
compiled code sees for a memory is its length exactly when the module that defines the memory declares
fewer pages than wasm can address. -/
theorem heapBound_agrees_iff (h : Reachable translateSignature host tunables w) {k index : Nat}
    {i : Instance Sig Fn} {heap : HeapData} {bound : GlobalValue} (hi : w[k]? = some i)
    (hheap : makeHeap i.offsets i.module index = some heap) (hb : heap.style = .dynamic bound) :
    Agrees w k index bound ↔ DeclaredBelowLimit w k index := by
  have hlt : index < i.module.memoryPlans.length := by
    unfold makeHeap at hheap
    obtain ⟨_, -, hheap⟩ := Option.bind_eq_some_iff.mp hheap
    obtain ⟨plan, hplan, -⟩ := Option.map_eq_some_iff.mp hheap
    exact (List.getElem?_eq_some_iff.mp hplan).1
  obtain ⟨p, m, ty, hp, hm, hplan, hrun⟩ := definitionOf_run h hi hlt
  have hload := eval_bound h.inv hi hheap hb hp hm
  have hbelow := (currentLength_mod m).trans (run_lt_iff hrun)
  constructor
  · rintro ⟨p', m', hp', hm', heval⟩
    obtain rfl := Option.some.inj (hp.symm.trans hp')
    obtain rfl := Option.some.inj (hm.symm.trans hm')
    exact ⟨p, _, hp, hplan, hbelow.mp (Value.int.inj (Option.some.inj (hload.symm.trans heval)))⟩
  · rintro ⟨p', plan', hp', hplan', hmin⟩
    obtain rfl := Option.some.inj (hp.symm.trans hp')
    obtain rfl := Option.some.inj (hplan.symm.trans hplan')
    exact ⟨p, m, hp, hm, hload.trans (congrArg (some <| Value.int ·) (hbelow.mpr hmin))⟩

end

/-! ## A memory that is imported -/

section

variable [DecidableEq Sig] {translateSignature : Sig → Sig} {host : Host} {tunables : Tunables}

/-- A second instance can be made that imports the memory of the first. -/
theorem reachable_importer {i : Instance Sig Fn} {a b : MemoryType}
    (h : Reachable translateSignature host tunables [i])
    (hi : i.module = Instance.oneMemory (a.plan tunables))
    (hc : isMemoryCompatible (a.plan tunables) (b.plan tunables) = true)
    (hg : guardsSuffice (a.plan tunables) (b.plan tunables) = true) :
    ∃ j : Instance Sig Fn, Reachable translateSignature host tunables [i, j] ∧
      j.module = importsMemory (b.plan tunables) ∧ j.offsets = ⟨8, 0, 0, 0, 1, 0, 0, 1, 0⟩ ∧
      j.vmctx.imports.memories = [⟨⟨0, 0⟩, 0⟩] := by
  have hlink : linkModule (firstMemory (a.plan tunables))
      (importsMemory (b.plan tunables) : Module Sig) = .ok ⟨[], [], [⟨⟨0, 0⟩, 0⟩], []⟩ := by
    rw [linkModule_importsMemory, (linkMemory_eq_ok_iff rfl rfl).mpr ⟨hc, hg⟩]
    rfl
  have hsize : VMOffsets.sizeOfVmctx ⟨8, 0, 0, 0, 1, 0, 0, 1, 0⟩ = some 64 := by decide
  obtain ⟨j, hnew, hoffsets⟩ : ∃ j : Instance Sig Fn,
      Instance.new host (fun _ => ⟨none, true⟩) id (importsMemory (b.plan tunables)) []
        ⟨[], [], [⟨⟨0, 0⟩, 0⟩], []⟩ = .ok j ∧ j.offsets = ⟨8, 0, 0, 0, 1, 0, 0, 1, 0⟩ := by
    have hoff : VMOffsets.new 8 (importsMemory (b.plan tunables) : Module Sig) =
        some ⟨8, 0, 0, 0, 1, 0, 0, 1, 0⟩ := rfl
    have htables : (createTables id 0 ((importsMemory (b.plan tunables) : Module Sig).tablePlans.drop
        (importsMemory (b.plan tunables) : Module Sig).importedTables.length) :
        Runtime.Outcome (List (Table Fn))) = .ok [] := rfl
    have hmemories : createMemories host (fun _ => ⟨none, true⟩) 0
        ((importsMemory (b.plan tunables) : Module Sig).memoryPlans.drop
          (importsMemory (b.plan tunables) : Module Sig).importedMemories.length) = .ok [] := rfl
    unfold Instance.new
    rw [htables, Ending.ok_bind, hmemories, Ending.ok_bind, hoff, Ending.expect_some,
      Ending.ok_bind, hsize, Ending.expect_some, Ending.map_ok]
    exact ⟨_, rfl, rfl⟩
  obtain ⟨-, hmod, himp⟩ := Instance.inv_new hnew
  exact ⟨j, Relation.ReflTransGen.tail h (Step.instantiate
    (translated_importsMemory translateSignature b tunables) (provides_firstMemory hi) hlink hnew),
    hmod, hoffsets, by rw [himp]⟩

end

/-- The bound of the memory a module imports: the pointer first, then four bytes of the length. -/
theorem makeHeap_importsMemory {j : Instance Sig Fn} {plan : MemoryPlan}
    (hmod : j.module = importsMemory plan) (ho : j.offsets = ⟨8, 0, 0, 0, 1, 0, 0, 1, 0⟩)
    (hdyn : plan.style = .dynamic) :
    ∃ heap, makeHeap j.offsets j.module 0 = some heap ∧
      heap.style = .dynamic (.load (.load .vmContext 0 8 true) 8 4 false) := by
  obtain ⟨memory, style, guard⟩ := plan
  obtain rfl : style = .dynamic := hdyn
  rw [hmod, ho]
  exact ⟨_, rfl, rfl⟩

/-- The bound of the memory a module defines: four bytes of the length. -/
theorem makeHeap_oneMemory {i : Instance Sig Fn} {plan : MemoryPlan}
    (hmod : i.module = Instance.oneMemory plan) (ho : i.offsets = ⟨8, 0, 0, 0, 0, 0, 0, 1, 0⟩)
    (hdyn : plan.style = .dynamic) :
    ∃ heap, makeHeap i.offsets i.module 0 = some heap ∧
      heap.style = .dynamic (.load .vmContext 8 4 false) := by
  obtain ⟨memory, style, guard⟩ := plan
  obtain rfl : style = .dynamic := hdyn
  rw [hmod, ho]
  exact ⟨_, rfl, rfl⟩

/-- An importer of type `(memory 0)` sees the five pages of the memory it is linked to, and the module
that defines `(memory 1)` its one page. -/
theorem heapBound_agrees_grown :
    (∃ (w : World Unit Unit) (m : LinearMemory), Reachable id LinearMemory.host4K .default w ∧
      w.memoryOf ⟨0, 0⟩ = some m ∧ m.current = 5 ∧
      Agrees w 1 0 (.load (.load .vmContext 0 8 true) 8 4 false)) ∧
    ∃ (w : World Unit Unit) (m : LinearMemory), Reachable id LinearMemory.host4K .default w ∧
      w.memoryOf ⟨0, 0⟩ = some m ∧ m.current = 1 ∧ Agrees w 0 0 (.load .vmContext 8 4 false) := by
  constructor
  · obtain ⟨i, m, hreach, hmod, hmem, hcur⟩ := reachable_grown
    obtain ⟨j, hreach, hmodj, hoffsets, himports⟩ := @reachable_importer Unit Unit _ _ _ _ _
      LinearMemory.oneToTenPages anyPages hreach hmod (by decide) (by decide)
    obtain ⟨heap, hheap, hb⟩ := makeHeap_importsMemory hmodj hoffsets (by decide)
    refine ⟨[i, j], m, hreach, hmem, hcur, (heapBound_agrees_iff hreach rfl hheap hb).mpr
      ⟨⟨0, 0⟩, LinearMemory.oneToTenPages.plan .default, ?_, ?_, by decide⟩⟩
    · unfold definitionOf
      rw [List.getElem?_cons_succ, List.getElem?_cons_zero, Option.bind_some, himports, hmodj]
      rfl
    · unfold memoryPlanOf
      rw [List.getElem?_cons_zero, Option.bind_some, hmod]
      rfl
  · obtain ⟨m, hm⟩ := @LinearMemory.new_granted LinearMemory.host4K _
      (MemoryType.onePage.plan_ok .default) (by decide) (by decide) 0
    obtain ⟨i, hreach, hmod, hmem⟩ := @reachable_oneMemory Unit Unit _ _ _ id _ _ _ hm
    have hoffsets := VMOffsets.new_eq_some ((hreach.inv 0 i rfl).inv.offsets_eq)
    rw [hmod] at hoffsets
    obtain ⟨heap, hheap, hb⟩ := makeHeap_oneMemory hmod hoffsets (by decide)
    refine ⟨[i], m, hreach, hmem, (LinearMemory.new_ok (MemoryType.onePage.plan_ok .default) hm).2.2.1,
      (heapBound_agrees_iff hreach rfl hheap hb).mpr
        ⟨⟨0, 0⟩, MemoryType.onePage.plan .default, ?_, ?_, by decide⟩⟩
    · unfold definitionOf
      rw [List.getElem?_cons_zero, Option.bind_some, hmod]
      rfl
    · unfold memoryPlanOf
      rw [List.getElem?_cons_zero, Option.bind_some, hmod]
      rfl

/-! ## A memory of `2^32` bytes -/

/-- `(memory 65536)`. -/
def fourGiB : MemoryType := .atLeast 0x10000 (Nat.le_refl wasmMaxPages)

/-- `(memory 65536 65536)`, static under the default tunables. -/
def fourGiBExactly : MemoryType :=
  .between 0x10000 0x10000 (Nat.le_refl wasmMaxPages) (UInt32.le_refl _)

/-- A memory of `2^32` bytes that is declared so by the first instance of a world. -/
theorem reachable_limit {ty : MemoryType} (hmin : ty.minimum.toNat = wasmMaxPages)
    (hguard : Mmap.pageMultiple LinearMemory.host4K (ty.plan .default).offsetGuardSize.toNat = true)
    (hsize : (LinearMemory.reservedPages (ty.plan .default)).toNat * wasmPageSize +
      (ty.plan .default).offsetGuardSize.toNat < 2 ^ 64) :
    ∃ (i : Instance Unit Unit) (m : LinearMemory), Reachable id LinearMemory.host4K .default [i] ∧
      i.module = Instance.oneMemory (ty.plan .default) ∧ memoryOf [i] ⟨0, 0⟩ = some m ∧
      m.vmmemory.currentLength = 2 ^ 32 := by
  have hp := ty.plan_ok .default
  obtain ⟨m, hm⟩ := @LinearMemory.new_granted LinearMemory.host4K _ hp hguard hsize 0
  obtain ⟨i, hreach, hmod, hmem⟩ := @reachable_oneMemory Unit Unit _ _ _ id _ _ _ hm
  refine ⟨i, m, hreach, hmod, hmem, ?_⟩
  unfold LinearMemory.vmmemory
  rw [(LinearMemory.new_ok hp hm).2.2.1, forMemory_memory (ty.forMemory_eq .default)]
  exact congrArg (· * wasmPageSize) hmin

/-- A bound that a length of `2^32` bytes was loaded for is zero. -/
theorem not_agrees_limit {w : World Unit Unit} {host : Host} {tunables : Tunables}
    (hw : World.Inv host tunables w) {k : Nat} {i : Instance Unit Unit} {heap : HeapData}
    {bound : GlobalValue} {p : DefinitionPtr} {m : LinearMemory} (hi : w[k]? = some i)
    (h : makeHeap i.offsets i.module 0 = some heap) (hb : heap.style = .dynamic bound)
    (hp : definitionOf w k 0 = some p) (hm : w.memoryOf p = some m)
    (hlen : m.vmmemory.currentLength = 2 ^ 32) :
    bound.eval w k = some (.int 0) ∧ ¬ Agrees w k 0 bound := by
  have heval := eval_bound hw hi h hb hp hm
  rw [hlen, Nat.mod_self] at heval
  refine ⟨heval, ?_⟩
  rintro ⟨p', m', hp', hm', heval'⟩
  obtain rfl := Option.some.inj (hp.symm.trans hp')
  obtain rfl := Option.some.inj (hm.symm.trans hm')
  rw [heval, hlen] at heval'
  exact absurd (Value.int.inj (Option.some.inj heval')) (by decide)

/-- `(memory 65536)` under the default tunables: the module that defines it sees the bound zero, and so
does an importer of type `(memory 0)` that is linked to a `(memory 65536 65536)`. -/
theorem not_heapBoundsAgree_fourGiB :
    ¬ HeapBoundsAgree Unit (id : Unit → Unit) LinearMemory.host4K .default ∧
    (∃ (w : World Unit Unit) (m : LinearMemory), Reachable id LinearMemory.host4K .default w ∧
      w.memoryOf ⟨0, 0⟩ = some m ∧ m.vmmemory.currentLength = 2 ^ 32 ∧
      (GlobalValue.load .vmContext 8 4 false).eval w 0 = some (.int 0) ∧
      ¬ Agrees w 0 0 (.load .vmContext 8 4 false)) ∧
    ∃ (w : World Unit Unit) (m : LinearMemory), Reachable id LinearMemory.host4K .default w ∧
      w.memoryOf ⟨0, 0⟩ = some m ∧ m.vmmemory.currentLength = 2 ^ 32 ∧
      (GlobalValue.load (.load .vmContext 0 8 true) 8 4 false).eval w 1 = some (.int 0) ∧
      ¬ Agrees w 1 0 (.load (.load .vmContext 0 8 true) 8 4 false) := by
  obtain ⟨i, m, hreach, hmod, hm, hlen⟩ := @reachable_limit fourGiB rfl (by decide) (by decide)
  have hoffsets := VMOffsets.new_eq_some ((hreach.inv 0 i rfl).inv.offsets_eq)
  rw [hmod] at hoffsets
  obtain ⟨heap, hheap, hb⟩ := makeHeap_oneMemory hmod hoffsets (by decide)
  have hdef : definitionOf [i] 0 0 = some ⟨0, 0⟩ := by
    unfold definitionOf
    rw [List.getElem?_cons_zero, Option.bind_some, hmod]
    rfl
  obtain ⟨heval, hnot⟩ := not_agrees_limit hreach.inv rfl hheap hb hdef hm hlen
  refine ⟨fun h => hnot (h _ hreach 0 0 i heap _ rfl hheap hb),
    ⟨[i], m, hreach, hm, hlen, heval, hnot⟩, ?_⟩
  obtain ⟨i, m, hreach, hmod, hm, hlen⟩ := @reachable_limit fourGiBExactly rfl (by decide) (by decide)
  obtain ⟨j, hreach, hmodj, hoffsets, himports⟩ := @reachable_importer Unit Unit _ _ _ _ _
    fourGiBExactly anyPages hreach hmod (by decide) (by decide)
  obtain ⟨heap, hheap, hb⟩ := makeHeap_importsMemory hmodj hoffsets (by decide)
  have hdef : definitionOf [i, j] 1 0 = some ⟨0, 0⟩ := by
    unfold definitionOf
    rw [List.getElem?_cons_succ, List.getElem?_cons_zero, Option.bind_some, himports, hmodj]
    rfl
  obtain ⟨heval, hnot⟩ := not_agrees_limit hreach.inv rfl hheap hb hdef hm hlen
  exact ⟨[i, j], m, hreach, hm, hlen, heval, hnot⟩

end Wasmtime.Jit.HeapBound
