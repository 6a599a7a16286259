import Wasmtime.Environ.ModuleEnviron
import Wasmtime.Environ.VmOffsets
import Wasmtime.Lib.PrefixFree

/-!
# The cache key

Model of `Module::hash_for_cache` (`wasmtime-environ/src/module.rs`) as the bytes it writes into the
hasher, and of what `FuncEnvironment` (`wasmtime-environ/src/func_environ.rs`) reads of a module
while a function is compiled (`Facts`). `ModuleCacheEntryInner::new` (`cache.rs`) finds compiled code by
the digest of these bytes, so two modules that write the same bytes share their code.

* Derived `Hash` writes a `u64` discriminant for an enumeration of several variants, the fields in
  order, and the length of a vector or slice before its elements. Integers are little-endian.
* `ir::Signature` belongs to `cranelift_codegen`; its `Hash` is a parameter, prefix free as the
  documentation of `Hash` asks for.
* The exports are written without their number, right before the function bodies. Nothing is lost by
  that (`exports_bodies_inj`): they are sorted, and no count or length reaches `2^32`.

Results:
* `hashForCache_inj`: what the bytes determine.
* `facts_eq_iff`: of two modules that write the same bytes, the number of imported functions and
  globals agree, and everything read by `FuncEnvironment` agrees exactly when they import equally many
  tables and equally many memories.
-/

namespace Wasmtime.Environ

open LittleEndian PrefixFree

/-! ## What is written -/

/-- `u32::hash`. -/
def hashU32 (x : UInt32) : List UInt8 := leBytes 4 x.toNat

/-- `u64::hash`. -/
def hashU64 (x : UInt64) : List UInt8 := leBytes 8 x.toNat

/-- `usize::hash`. -/
def hashUsize (n : Nat) : List UInt8 := leBytes 8 n

/-- `bool::hash`. -/
def hashBool (b : Bool) : List UInt8 := [if b then 1 else 0]

/-- The discriminant of an enumeration. -/
def hashDiscriminant (d : Fin 8) : List UInt8 := leBytes 8 d.val

/-- `Vec::hash`, `PrimaryMap::hash` and `<[T]>::hash`. -/
def hashVec {α : Type} (hash : α → List UInt8) (l : List α) : List UInt8 :=
  hashUsize l.length ++ l.flatMap hash

/-- `Option::<u32>::hash`: the discriminant and the fields. -/
def hashOptionU32 (o : Option UInt32) : List UInt8 :=
  hashDiscriminant (match o with | none => 0 | some _ => 1) ++
    match o with | none => [] | some x => hashU32 x

/-- `TableElementType::hash`. -/
def hashTableElementType (ty : TableElementType) : List UInt8 :=
  hashDiscriminant (match ty with | .val _ => 0 | .func => 1) ++
    match ty with | .val ty => [ty] | .func => []

/-- `Table::hash`. -/
def hashTable (t : Table) : List UInt8 :=
  hashTableElementType t.ty ++ (hashU32 t.minimum ++ hashOptionU32 t.maximum)

/-- `TablePlan::hash`; the style has one variant and writes nothing. -/
def hashTablePlan (p : TablePlan) : List UInt8 := hashTable p.table

/-- `Memory::hash`. -/
def hashMemory (m : Memory) : List UInt8 :=
  hashU32 m.minimum ++ (hashOptionU32 m.maximum ++ hashBool m.shared)

/-- `MemoryStyle::hash`. -/
def hashMemoryStyle (style : MemoryStyle) : List UInt8 :=
  hashDiscriminant (match style with | .dynamic => 0 | .static _ => 1) ++
    match style with | .dynamic => [] | .static bound => hashU32 bound

/-- `MemoryPlan::hash`. -/
def hashMemoryPlan (p : MemoryPlan) : List UInt8 :=
  hashMemory p.memory ++ (hashMemoryStyle p.style ++ hashU64 p.offsetGuardSize)

/-- The discriminant of a `GlobalInit`. -/
def GlobalInit.discriminant : GlobalInit → Fin 8
  | .i32Const _ => 0
  | .i64Const _ => 1
  | .f32Const _ => 2
  | .f64Const _ => 3
  | .v128Const _ => 4
  | .getGlobal _ => 5
  | .imported => 6

/-- The fields of a `GlobalInit`; a `V128Imm` is an array of sixteen bytes. -/
def GlobalInit.hashFields : GlobalInit → List UInt8
  | .i32Const x => hashU32 x
  | .i64Const x => hashU64 x
  | .f32Const bits => hashU32 bits
  | .f64Const bits => hashU64 bits
  | .v128Const bits => hashUsize 16 ++ leBytes 16 bits.toNat
  | .getGlobal index => hashU32 index
  | .imported => []

/-- `GlobalInit::hash`. -/
def hashGlobalInit (i : GlobalInit) : List UInt8 :=
  hashDiscriminant i.discriminant ++ i.hashFields

/-- `Global::hash`. -/
def hashGlobal (g : Global) : List UInt8 :=
  [g.ty] ++ (hashBool g.mutability ++ hashGlobalInit g.initializer)

/-- The discriminant of an `Export`. -/
def Export.discriminant : Export → Fin 8
  | .function _ => 0
  | .table _ => 1
  | .memory _ => 2
  | .global _ => 3

/-- The index of an `Export`. -/
def Export.index : Export → UInt32
  | .function index => index
  | .table index => index
  | .memory index => index
  | .global index => index

/-- The derived order: by variant, then by index. -/
def Export.le (a b : Export) : Bool :=
  decide (a.discriminant.val < b.discriminant.val) ||
    (decide (a.discriminant.val = b.discriminant.val) && decide (a.index ≤ b.index))

/-- `Export::hash`. -/
def hashExport (e : Export) : List UInt8 := hashDiscriminant e.discriminant ++ hashU32 e.index

/-- `FunctionBodyData::hash`. -/
def hashFunctionBody (b : FunctionBodyData) : List UInt8 :=
  hashVec (fun byte => [byte]) b.data ++ hashU64 b.moduleOffset

/-- `exports.sort()`. -/
def Module.sortedExports {Sig : Type} (m : Module Sig) : List Export :=
  (m.exports.map Prod.snd).mergeSort Export.le

/-- `Module::hash_for_cache`: the bytes written. -/
def hashForCache {Sig : Type} (hashSignature : Sig → List UInt8) (m : Module Sig)
    (functionBodyInputs : List FunctionBodyData) : List UInt8 :=
  hashVec hashSignature m.signatures ++ (hashVec hashU32 m.functions ++
    (hashVec hashTablePlan m.tablePlans ++ (hashVec hashMemoryPlan m.memoryPlans ++
      (hashVec hashGlobal m.globals ++ (m.sortedExports.flatMap hashExport ++
        hashVec hashFunctionBody functionBodyInputs)))))

/-! ## Every part is prefix free -/

/-- An encoding that is prefix free on all values. -/
abbrev Unambiguous {α : Type} (hash : α → List UInt8) : Prop := PrefixFreeOn (fun _ => True) hash

theorem hashU32_unambiguous : Unambiguous hashU32 :=
  PrefixFree.comp (PrefixFree.littleEndian 4) (fun _ _ h => UInt32.toNat_inj.mp h)
    fun x _ => x.toNat_lt

theorem hashU64_unambiguous : Unambiguous hashU64 :=
  PrefixFree.comp (PrefixFree.littleEndian 8) (fun _ _ h => UInt64.toNat_inj.mp h)
    fun x _ => x.toNat_lt

theorem hashDiscriminant_unambiguous : Unambiguous hashDiscriminant :=
  PrefixFree.comp (PrefixFree.littleEndian 8) (fun _ _ h => Fin.ext h)
    fun d _ => lt_trans d.isLt (by decide)

theorem hashByte_unambiguous : Unambiguous (fun byte : UInt8 => [byte]) :=
  PrefixFree.of_length (fun _ => rfl) fun _ _ _ _ h => List.singleton_inj.mp h

theorem hashBool_unambiguous : Unambiguous hashBool := by
  refine PrefixFree.of_length (fun _ => rfl) fun a b _ _ h => ?_
  cases a <;> cases b <;> first | rfl | exact absurd h (by decide)

theorem hashOptionU32_unambiguous : Unambiguous hashOptionU32 := by
  refine PrefixFree.tagged hashDiscriminant_unambiguous fun a b _ _ htag s t h => ?_
  cases a with
  | none =>
    cases b with
    | none => exact ⟨rfl, h⟩
    | some y => exact absurd htag (by simp)
  | some x =>
    cases b with
    | none => exact absurd htag (by simp)
    | some y =>
      obtain ⟨hxy, hst⟩ := hashU32_unambiguous x y trivial trivial _ _ h
      exact ⟨by rw [hxy], hst⟩

theorem hashTableElementType_unambiguous : Unambiguous hashTableElementType := by
  refine PrefixFree.tagged hashDiscriminant_unambiguous fun a b _ _ htag s t h => ?_
  cases a with
  | val x =>
    cases b with
    | val y =>
      obtain ⟨hxy, hst⟩ := hashByte_unambiguous x y trivial trivial _ _ h
      exact ⟨by rw [hxy], hst⟩
    | func => exact absurd htag (by simp)
  | func =>
    cases b with
    | val y => exact absurd htag (by simp)
    | func => exact ⟨rfl, h⟩

theorem hashMemoryStyle_unambiguous : Unambiguous hashMemoryStyle := by
  refine PrefixFree.tagged hashDiscriminant_unambiguous fun a b _ _ htag s t h => ?_
  cases a with
  | dynamic =>
    cases b with
    | dynamic => exact ⟨rfl, h⟩
    | static y => exact absurd htag (by simp)
  | static x =>
    cases b with
    | dynamic => exact absurd htag (by simp)
    | static y =>
      obtain ⟨hxy, hst⟩ := hashU32_unambiguous x y trivial trivial _ _ h
      exact ⟨by rw [hxy], hst⟩

/-- The fields are read knowing the variant. -/
theorem hashFields_unambiguous (a b : GlobalInit) (htag : a.discriminant = b.discriminant)
    (s t : List UInt8) (h : a.hashFields ++ s = b.hashFields ++ t) : a = b ∧ s = t := by
  cases a <;> cases b <;> simp only [GlobalInit.discriminant, Fin.reduceEq] at htag
  case i32Const.i32Const x y =>
    obtain ⟨hxy, hst⟩ := hashU32_unambiguous x y trivial trivial _ _ h
    exact ⟨by rw [hxy], hst⟩
  case i64Const.i64Const x y =>
    obtain ⟨hxy, hst⟩ := hashU64_unambiguous x y trivial trivial _ _ h
    exact ⟨by rw [hxy], hst⟩
  case f32Const.f32Const x y =>
    obtain ⟨hxy, hst⟩ := hashU32_unambiguous x y trivial trivial _ _ h
    exact ⟨by rw [hxy], hst⟩
  case f64Const.f64Const x y =>
    obtain ⟨hxy, hst⟩ := hashU64_unambiguous x y trivial trivial _ _ h
    exact ⟨by rw [hxy], hst⟩
  case v128Const.v128Const x y =>
    simp only [GlobalInit.hashFields, List.append_assoc] at h
    have hx : x.toNat < 256 ^ 16 := x.isLt
    have hy : y.toNat < 256 ^ 16 := y.isLt
    obtain ⟨hxy, hst⟩ := PrefixFree.littleEndian 16 _ _ hx hy _ _ (List.append_cancel_left h)
    exact ⟨by rw [BitVec.eq_of_toNat_eq hxy], hst⟩
  case getGlobal.getGlobal x y =>
    obtain ⟨hxy, hst⟩ := hashU32_unambiguous x y trivial trivial _ _ h
    exact ⟨by rw [hxy], hst⟩
  case imported.imported => exact ⟨rfl, h⟩

theorem hashGlobalInit_unambiguous : Unambiguous hashGlobalInit :=
  PrefixFree.tagged hashDiscriminant_unambiguous fun a b _ _ => hashFields_unambiguous a b

theorem hashTablePlan_unambiguous : Unambiguous hashTablePlan := by
  refine PrefixFree.comp (PrefixFree.pair hashTableElementType_unambiguous
    (PrefixFree.pair hashU32_unambiguous hashOptionU32_unambiguous))
    (f := fun p : TablePlan => (p.table.ty, p.table.minimum, p.table.maximum)) ?_
    fun _ _ => ⟨trivial, trivial, trivial⟩
  rintro ⟨⟨ty, min, max⟩, ⟨⟩⟩ ⟨⟨ty', min', max'⟩, ⟨⟩⟩ h
  obtain ⟨rfl, h⟩ := Prod.mk.inj h
  obtain ⟨rfl, rfl⟩ := Prod.mk.inj h
  rfl

theorem hashMemoryPlan_unambiguous : Unambiguous hashMemoryPlan := by
  refine PrefixFree.comp (PrefixFree.pair (PrefixFree.pair hashU32_unambiguous
    (PrefixFree.pair hashOptionU32_unambiguous hashBool_unambiguous))
    (PrefixFree.pair hashMemoryStyle_unambiguous hashU64_unambiguous))
    (f := fun p : MemoryPlan => ((p.memory.minimum, p.memory.maximum, p.memory.shared), p.style,
      p.offsetGuardSize)) ?_ fun _ _ => ⟨⟨trivial, trivial, trivial⟩, trivial, trivial⟩
  rintro ⟨⟨min, max, shared⟩, style, guard⟩ ⟨⟨min', max', shared'⟩, style', guard'⟩ h
  obtain ⟨hm, h⟩ := Prod.mk.inj h
  obtain ⟨rfl, rfl⟩ := Prod.mk.inj h
  obtain ⟨rfl, hm⟩ := Prod.mk.inj hm
  obtain ⟨rfl, rfl⟩ := Prod.mk.inj hm
  rfl

theorem hashGlobal_unambiguous : Unambiguous hashGlobal := by
  refine PrefixFree.comp (PrefixFree.pair hashByte_unambiguous
    (PrefixFree.pair hashBool_unambiguous hashGlobalInit_unambiguous))
    (f := fun g : Global => (g.ty, g.mutability, g.initializer)) ?_
    fun _ _ => ⟨trivial, trivial, trivial⟩
  rintro ⟨ty, mutability, init⟩ ⟨ty', mutability', init'⟩ h
  obtain ⟨rfl, h⟩ := Prod.mk.inj h
  obtain ⟨rfl, rfl⟩ := Prod.mk.inj h
  rfl

theorem hashExport_unambiguous : Unambiguous hashExport := by
  refine PrefixFree.comp (PrefixFree.pair hashDiscriminant_unambiguous hashU32_unambiguous)
    (f := fun e : Export => (e.discriminant, e.index)) ?_ fun _ _ => ⟨trivial, trivial⟩
  intro a b h
  obtain ⟨hd, hi⟩ := Prod.mk.inj h
  cases a <;> cases b <;> simp only [Export.discriminant, Fin.reduceEq] at hd <;>
    exact congrArg _ hi

/-- Lengths below `2^64` are read back. -/
theorem hashVec_unambiguous {α : Type} {P : α → Prop} {hash : α → List UInt8}
    (h : PrefixFreeOn P hash) :
    PrefixFreeOn (fun l : List α => l.length < 2 ^ 32 ∧ ∀ a ∈ l, P a) (hashVec hash) := by
  have hlen : PrefixFreeOn (fun n => n < 2 ^ 32) hashUsize :=
    fun a b ha hb => PrefixFree.littleEndian 8 a b (lt_trans ha (by decide))
      (lt_trans hb (by decide))
  exact PrefixFree.list hlen h

theorem hashFunctionBody_unambiguous :
    PrefixFreeOn (fun b : FunctionBodyData => b.data.length < 2 ^ 32) hashFunctionBody := by
  refine PrefixFree.comp (PrefixFree.pair (hashVec_unambiguous hashByte_unambiguous)
    hashU64_unambiguous) (f := fun b : FunctionBodyData => (b.data, b.moduleOffset)) ?_
    fun b hb => ⟨⟨hb, fun _ _ => trivial⟩, trivial⟩
  rintro ⟨data, offset⟩ ⟨data', offset'⟩ h
  obtain ⟨rfl, rfl⟩ := Prod.mk.inj h
  rfl

/-! ## Where the exports end -/

/-- The variants of `Export` are written in order. -/
theorem sortedExports_pairwise {Sig : Type} (m : Module Sig) :
    m.sortedExports.Pairwise fun a b => a.discriminant.val ≤ b.discriminant.val := by
  have htrans : ∀ a b c : Export, a.le b = true → b.le c = true → a.le c = true := by
    intro a b c hab hbc
    simp only [Export.le, Bool.or_eq_true, Bool.and_eq_true, decide_eq_true_eq] at *
    rcases hab with hab | ⟨hab, hi⟩
    · left
      omega
    · rcases hbc with hbc | ⟨hbc, hi'⟩
      · left
        omega
      · exact Or.inr ⟨hab.trans hbc, UInt32.le_trans hi hi'⟩
  have htotal : ∀ a b : Export, (a.le b || b.le a) = true := by
    intro a b
    simp only [Export.le, Bool.or_eq_true, Bool.and_eq_true, decide_eq_true_eq]
    rcases Nat.lt_trichotomy a.discriminant.val b.discriminant.val with h | h | h
    · exact Or.inl (Or.inl h)
    · rcases UInt32.le_total a.index b.index with hi | hi
      · exact Or.inl (Or.inr ⟨h, hi⟩)
      · exact Or.inr (Or.inr ⟨h.symm, hi⟩)
    · exact Or.inr (Or.inl h)
  refine (List.pairwise_mergeSort htrans htotal _).imp ?_
  intro a b h
  simp only [Export.le, Bool.or_eq_true, Bool.and_eq_true, decide_eq_true_eq] at h
  omega

/-- A `usize` below `2^32` is its `u32` and four zero bytes. -/
theorem hashUsize_of_lt {n : Nat} (h : n < 2 ^ 32) : hashUsize n = leBytes 4 n ++ leBytes 4 0 := by
  have hdiv : n / 256 ^ 4 = 0 := Nat.div_eq_of_lt h
  rw [hashUsize, show (8 : Nat) = 4 + 4 from rfl, leBytes_add, hdiv]

/-- A `usize` below `2^32` that starts like four zero bytes is zero. -/
theorem eq_zero_of_hashUsize {n : Nat} (hn : n < 2 ^ 32) {s t : List UInt8}
    (h : hashUsize n ++ s = leBytes 4 0 ++ t) : n = 0 ∧ leBytes 4 0 ++ s = t := by
  rw [hashUsize_of_lt hn, List.append_assoc] at h
  exact PrefixFree.littleEndian 4 n 0 hn (by decide) _ _ h

section

variable {bodies bodies' : List FunctionBodyData} {e : Export} {es : List Export}

/-- The bytes of the bodies never start with an export and what may follow it. Their number would be
the discriminant, the length of the first body the index, and its upper half the lower half of the
next discriminant or of the other number of bodies, which is then zero: too small a discriminant
to follow, or too few bytes. -/
theorem bodies_not_export (hb : ∀ b ∈ bodies, b.data.length < 2 ^ 32)
    (hlen : bodies.length < 2 ^ 32) (hlen' : bodies'.length < 2 ^ 32)
    (hsorted : ∀ x ∈ es, e.discriminant.val ≤ x.discriminant.val) :
    hashVec hashFunctionBody bodies ≠
      hashExport e ++ (es.flatMap hashExport ++ hashVec hashFunctionBody bodies') := by
  intro h
  have hdisc : e.discriminant.val < 256 ^ 8 := lt_trans e.discriminant.isLt (by decide)
  rw [hashVec, hashExport, List.append_assoc] at h
  obtain ⟨hcount, h⟩ := PrefixFree.littleEndian 8 _ _ (lt_trans hlen (by decide)) hdisc _ _ h
  cases bodies with
  | nil =>
    have hbytes := congrArg List.length h
    simp only [List.flatMap_nil, List.length_nil, List.length_append, hashU32, length_leBytes]
      at hbytes
    omega
  | cons b bodies =>
    have hblen := hb b List.mem_cons_self
    rw [List.flatMap_cons, hashFunctionBody, hashVec, hashUsize_of_lt hblen] at h
    simp only [List.append_assoc] at h
    obtain ⟨-, h⟩ := PrefixFree.littleEndian 4 _ _ hblen e.index.toNat_lt _ _ h
    cases es with
    | nil =>
      rw [List.flatMap_nil, List.nil_append, hashVec] at h
      obtain ⟨hz, h⟩ := eq_zero_of_hashUsize hlen' h.symm
      obtain rfl := List.length_eq_zero_iff.mp hz
      have hbytes := congrArg List.length h
      simp only [List.flatMap_nil, List.length_nil, List.length_append, hashU64, length_leBytes]
        at hbytes
      omega
    | cons x es =>
      rw [List.flatMap_cons, hashExport, hashDiscriminant] at h
      simp only [List.append_assoc] at h
      have hx : x.discriminant.val < 2 ^ 32 := lt_trans x.discriminant.isLt (by decide)
      obtain ⟨hz, -⟩ := eq_zero_of_hashUsize hx h.symm
      have hle := hsorted x List.mem_cons_self
      rw [List.length_cons] at hcount
      omega

/-- **Nothing is lost between the exports and the bodies.** -/
theorem exports_bodies_inj {es' : List Export} (hb : ∀ b ∈ bodies, b.data.length < 2 ^ 32)
    (hb' : ∀ b ∈ bodies', b.data.length < 2 ^ 32) (hlen : bodies.length < 2 ^ 32)
    (hlen' : bodies'.length < 2 ^ 32)
    (hs : es.Pairwise fun a b => a.discriminant.val ≤ b.discriminant.val)
    (hs' : es'.Pairwise fun a b => a.discriminant.val ≤ b.discriminant.val)
    (h : es.flatMap hashExport ++ hashVec hashFunctionBody bodies =
      es'.flatMap hashExport ++ hashVec hashFunctionBody bodies') : es = es' ∧ bodies = bodies' := by
  induction es generalizing es' with
  | nil =>
    cases es' with
    | nil =>
      have hrest : hashVec hashFunctionBody bodies ++ [] = hashVec hashFunctionBody bodies' ++ [] := by
        simpa using h
      exact ⟨rfl, (hashVec_unambiguous hashFunctionBody_unambiguous _ _ ⟨hlen, hb⟩ ⟨hlen', hb'⟩ _ _
        hrest).1⟩
    | cons e' es' =>
      rw [List.flatMap_nil, List.nil_append, List.flatMap_cons, List.append_assoc] at h
      exact absurd h (bodies_not_export hb hlen hlen' (List.pairwise_cons.mp hs').1)
  | cons e es ih =>
    cases es' with
    | nil =>
      rw [List.flatMap_nil, List.nil_append, List.flatMap_cons, List.append_assoc] at h
      exact absurd h.symm (bodies_not_export hb' hlen' hlen (List.pairwise_cons.mp hs).1)
    | cons e' es' =>
      rw [List.flatMap_cons, List.flatMap_cons, List.append_assoc, List.append_assoc] at h
      obtain ⟨he, hrest⟩ := hashExport_unambiguous e e' trivial trivial _ _ h
      obtain ⟨hes, hbodies⟩ := ih (List.pairwise_cons.mp hs).2 (List.pairwise_cons.mp hs').2 hrest
      exact ⟨by rw [he, hes], hbodies⟩

end

/-! ## What the bytes determine -/

variable {Sig : Type} {hashSignature : Sig → List UInt8} {translateSignature : Sig → Sig}

/-- A finished translation: every declared function has its body. -/
structure Finished (translateSignature : Sig → Sig) (tunables : Tunables)
    (t : ModuleTranslation Sig) : Prop where
  translated : Translated translateSignature tunables t
  bodies : t.functionBodyInputs.length = t.module.functions.length - t.module.importedFuncs.length

variable {tunables tunables' : Tunables} {t t' : ModuleTranslation Sig}

theorem Finished.bodies_lt (h : Finished translateSignature tunables t) :
    t.functionBodyInputs.length < 2 ^ 32 := by
  rw [h.bodies]
  exact Nat.lt_of_le_of_lt (Nat.sub_le _ _) h.translated.wellFormed.1.functions_lt

/-- **What the bytes determine**: the signatures, functions, plans and globals, the exported entities
and the bodies. -/
theorem hashForCache_inj (hsig : Unambiguous hashSignature)
    (ht : Finished translateSignature tunables t) (ht' : Finished translateSignature tunables' t')
    (h : hashForCache hashSignature t.module t.functionBodyInputs =
      hashForCache hashSignature t'.module t'.functionBodyInputs) :
    t.module.signatures = t'.module.signatures ∧ t.module.functions = t'.module.functions ∧
    t.module.tablePlans = t'.module.tablePlans ∧ t.module.memoryPlans = t'.module.memoryPlans ∧
    t.module.globals = t'.module.globals ∧ t.module.sortedExports = t'.module.sortedExports ∧
    t.functionBodyInputs = t'.functionBodyInputs := by
  have hw := ht.translated.wellFormed.1
  have hw' := ht'.translated.wellFormed.1
  unfold hashForCache at h
  obtain ⟨hs, h⟩ := hashVec_unambiguous hsig _ _ ⟨hw.signatures_lt, fun _ _ => trivial⟩
    ⟨hw'.signatures_lt, fun _ _ => trivial⟩ _ _ h
  obtain ⟨hf, h⟩ := hashVec_unambiguous hashU32_unambiguous _ _
    ⟨hw.functions_lt, fun _ _ => trivial⟩ ⟨hw'.functions_lt, fun _ _ => trivial⟩ _ _ h
  obtain ⟨hta, h⟩ := hashVec_unambiguous hashTablePlan_unambiguous _ _
    ⟨hw.tablePlans_lt, fun _ _ => trivial⟩ ⟨hw'.tablePlans_lt, fun _ _ => trivial⟩ _ _ h
  obtain ⟨hm, h⟩ := hashVec_unambiguous hashMemoryPlan_unambiguous _ _
    ⟨hw.memoryPlans_lt, fun _ _ => trivial⟩ ⟨hw'.memoryPlans_lt, fun _ _ => trivial⟩ _ _ h
  obtain ⟨hg, h⟩ := hashVec_unambiguous hashGlobal_unambiguous _ _
    ⟨hw.globals_lt, fun _ _ => trivial⟩ ⟨hw'.globals_lt, fun _ _ => trivial⟩ _ _ h
  obtain ⟨he, hb⟩ := exports_bodies_inj ht.translated.bodies_data ht'.translated.bodies_data
    ht.bodies_lt ht'.bodies_lt (sortedExports_pairwise _) (sortedExports_pairwise _) h
  exact ⟨hs, hf, hta, hm, hg, he, hb⟩

/-- Globals that agree are imported alike. -/
theorem ImportsFirst.unique {α : Type} {l : List α} {imported : α → Prop} {a b : Nat}
    (ha : ImportsFirst a l imported) (hb : ImportsFirst b l imported) : a = b := by
  have hle : ∀ {x y : Nat}, ImportsFirst x l imported → ImportsFirst y l imported → x ≤ y := by
    intro x y hx hy
    by_contra hlt
    have hyl : y < l.length := Nat.lt_of_lt_of_le (Nat.not_le.mp hlt) hx.1
    exact absurd ((hy.2 y hyl).mpr ((hx.2 y hyl).mp (Nat.not_le.mp hlt))) (Nat.lt_irrefl y)
  exact le_antisymm (hle ha hb) (hle hb ha)

/-! ## What a compilation reads -/

/-- What `FuncEnvironment` reads of a module while it compiles a function: which indices are imported,
the offsets it uses, and the declarations and the body. An offset is `none` where it panics. -/
structure Facts (Sig : Type) where
  isImportedFunction : Nat → Bool
  isImportedTable : Nat → Bool
  isImportedMemory : Nat → Bool
  isImportedGlobal : Nat → Bool
  definedTableIndex : Nat → Option Nat
  definedMemoryIndex : Nat → Option Nat
  definedGlobalIndex : Nat → Option Nat
  vmctxVmtableDefinitionBase : Nat → Option Nat
  vmctxVmtableDefinitionCurrentElements : Nat → Option Nat
  vmctxVmtableImportFrom : Nat → Option Nat
  vmctxVmmemoryDefinitionBase : Nat → Option Nat
  vmctxVmmemoryDefinitionCurrentLength : Nat → Option Nat
  vmctxVmmemoryImportFrom : Nat → Option Nat
  vmctxVmglobalDefinition : Nat → Option Nat
  vmctxVmglobalImportFrom : Nat → Option Nat
  vmctxVmfunctionImportBody : Nat → Option Nat
  vmctxVmfunctionImportVmctx : Nat → Option Nat
  vmctxVmsharedSignatureId : Nat → Option Nat
  vmctxBuiltinFunction : Nat → Option Nat
  signatures : List Sig
  functions : List UInt32
  tablePlans : List TablePlan
  memoryPlans : List MemoryPlan
  globals : List Global
  functionBodyInputs : List FunctionBodyData

/-- The facts of a translation, on a target with pointers of `pointerSize` bytes. -/
def ModuleTranslation.facts (pointerSize : Nat) (t : ModuleTranslation Sig) : Facts Sig :=
  let offset (f : VMOffsets → Nat → Option Nat) (index : Nat) : Option Nat :=
    (VMOffsets.new pointerSize t.module).bind fun o => f o index
  { isImportedFunction := t.module.isImportedFunction
    isImportedTable := t.module.isImportedTable
    isImportedMemory := t.module.isImportedMemory
    isImportedGlobal := t.module.isImportedGlobal
    definedTableIndex := t.module.definedTableIndex
    definedMemoryIndex := t.module.definedMemoryIndex
    definedGlobalIndex := t.module.definedGlobalIndex
    vmctxVmtableDefinitionBase := offset VMOffsets.vmctxVmtableDefinitionBase
    vmctxVmtableDefinitionCurrentElements :=
      offset VMOffsets.vmctxVmtableDefinitionCurrentElements
    vmctxVmtableImportFrom := offset VMOffsets.vmctxVmtableImportFrom
    vmctxVmmemoryDefinitionBase := offset VMOffsets.vmctxVmmemoryDefinitionBase
    vmctxVmmemoryDefinitionCurrentLength := offset VMOffsets.vmctxVmmemoryDefinitionCurrentLength
    vmctxVmmemoryImportFrom := offset VMOffsets.vmctxVmmemoryImportFrom
    vmctxVmglobalDefinition := offset VMOffsets.vmctxVmglobalDefinition
    vmctxVmglobalImportFrom := offset VMOffsets.vmctxVmglobalImportFrom
    vmctxVmfunctionImportBody := offset VMOffsets.vmctxVmfunctionImportBody
    vmctxVmfunctionImportVmctx := offset VMOffsets.vmctxVmfunctionImportVmctx
    vmctxVmsharedSignatureId := offset VMOffsets.vmctxVmsharedSignatureId
    vmctxBuiltinFunction := offset VMOffsets.vmctxBuiltinFunction
    signatures := t.module.signatures
    functions := t.module.functions
    tablePlans := t.module.tablePlans
    memoryPlans := t.module.memoryPlans
    globals := t.module.globals
    functionBodyInputs := t.functionBodyInputs }

/-- The facts read of a module its declarations and the number of its imports of each kind, and
nothing else. -/
theorem facts_congr {pointerSize : Nat}
    (hs : t.module.signatures = t'.module.signatures) (hf : t.module.functions = t'.module.functions)
    (hta : t.module.tablePlans = t'.module.tablePlans)
    (hm : t.module.memoryPlans = t'.module.memoryPlans)
    (hg : t.module.globals = t'.module.globals)
    (hb : t.functionBodyInputs = t'.functionBodyInputs)
    (hif : t.module.importedFuncs.length = t'.module.importedFuncs.length)
    (hit : t.module.importedTables.length = t'.module.importedTables.length)
    (him : t.module.importedMemories.length = t'.module.importedMemories.length)
    (hig : t.module.importedGlobals.length = t'.module.importedGlobals.length) :
    t.facts pointerSize = t'.facts pointerSize := by
  have ho : VMOffsets.new pointerSize t.module = VMOffsets.new pointerSize t'.module := by
    unfold VMOffsets.new
    rw [hs, hta, hm, hg, hif, hit, him, hig]
  have h₁ : t.module.isImportedFunction = t'.module.isImportedFunction := by
    funext i
    unfold Module.isImportedFunction
    rw [hif]
  have h₂ : t.module.isImportedTable = t'.module.isImportedTable := by
    funext i
    unfold Module.isImportedTable
    rw [hit]
  have h₃ : t.module.isImportedMemory = t'.module.isImportedMemory := by
    funext i
    unfold Module.isImportedMemory
    rw [him]
  have h₄ : t.module.isImportedGlobal = t'.module.isImportedGlobal := by
    funext i
    unfold Module.isImportedGlobal
    rw [hig]
  have h₅ : t.module.definedTableIndex = t'.module.definedTableIndex := by
    funext i
    unfold Module.definedTableIndex
    rw [hit]
  have h₆ : t.module.definedMemoryIndex = t'.module.definedMemoryIndex := by
    funext i
    unfold Module.definedMemoryIndex
    rw [him]
  have h₇ : t.module.definedGlobalIndex = t'.module.definedGlobalIndex := by
    funext i
    unfold Module.definedGlobalIndex
    rw [hig]
  unfold ModuleTranslation.facts
  rw [ho, hs, hf, hta, hm, hg, hb, h₁, h₂, h₃, h₄, h₅, h₆, h₇]

theorem eq_of_decide_lt {a b : Nat} (h : ∀ i : Nat, decide (i < a) = decide (i < b)) : a = b := by
  have ha := h a
  have hb := h b
  simp only [decide_eq_decide] at ha hb
  omega

/-- **The cache key.** Of two modules that write the same bytes, everything a compilation reads is the
same exactly when they import equally many tables and equally many memories. -/
theorem facts_eq_iff (pointerSize : Nat) (hashSignature : Sig → List UInt8)
    (translateSignature : Sig → Sig) (tunables tunables' : Tunables) (t t' : ModuleTranslation Sig)
    (hsig : Unambiguous hashSignature) (ht : Finished translateSignature tunables t)
    (ht' : Finished translateSignature tunables' t')
    (h : hashForCache hashSignature t.module t.functionBodyInputs =
      hashForCache hashSignature t'.module t'.functionBodyInputs) :
    t.facts pointerSize = t'.facts pointerSize ↔
      t.module.importedTables.length = t'.module.importedTables.length ∧
        t.module.importedMemories.length = t'.module.importedMemories.length := by
  obtain ⟨hs, hf, hta, hm, hg, -, hb⟩ := hashForCache_inj hsig ht ht' h
  have hw := ht.translated.wellFormed.1
  have hw' := ht'.translated.wellFormed.1
  constructor
  · intro hfacts
    have htable : ∀ i, t.module.isImportedTable i = t'.module.isImportedTable i :=
      congrFun (congrArg Facts.isImportedTable hfacts)
    have hmemory : ∀ i, t.module.isImportedMemory i = t'.module.isImportedMemory i :=
      congrFun (congrArg Facts.isImportedMemory hfacts)
    exact ⟨eq_of_decide_lt htable, eq_of_decide_lt hmemory⟩
  · rintro ⟨hit, him⟩
    have hif : t.module.importedFuncs.length = t'.module.importedFuncs.length := by
      have hb₁ := ht.bodies
      have hb₂ := ht'.bodies
      have hle := hw.funcs
      have hle' := hw'.funcs
      rw [hb, hf] at hb₁
      rw [hf] at hle
      omega
    have hig : t.module.importedGlobals.length = t'.module.importedGlobals.length := by
      have hglobals := hw.globals
      rw [hg] at hglobals
      exact hglobals.unique hw'.globals
    exact facts_congr hs hf hta hm hg hb hif hit him hig

/-! ## Two modules with one key -/

/-- The plan of `(memory 1)` under the default tunables. -/
def onePagePlan : MemoryPlan := MemoryType.onePage.plan .default

/-- `i32.const 0  i32.load  drop  end`, without locals, at offset 64 of its file. -/
def loadBody : FunctionBodyData := ⟨[0x00, 0x41, 0x00, 0x28, 0x02, 0x00, 0x1a, 0x0b], 64⟩

/-- A module with one memory and one function that reads it, exported as `name`. -/
def readsMemory (importedMemories : List (String × String)) (name : String) :
    ModuleTranslation Unit :=
  { module :=
      { signatures := [()]
        importedFuncs := []
        importedTables := []
        importedMemories
        importedGlobals := []
        functions := [0]
        tablePlans := []
        memoryPlans := [onePagePlan]
        globals := []
        exports := [(name, .function 0)]
        startFunc := none
        tableElements := [] }
    functionBodyInputs := [loadBody]
    tunables := .default }

theorem forMemory_onePage :
    MemoryPlan.forMemory MemoryType.onePage.toMemory .default = some onePagePlan :=
  MemoryType.forMemory_eq _ _

/-- The callbacks after the memory. -/
theorem finished_of_memory {importedMemories : List (String × String)} {name : String}
    (h : Translated id .default
      ⟨⟨[()], [], [], importedMemories, [], [], [], [onePagePlan], [], [], none, []⟩, [], .default⟩) :
    Finished (id : Unit → Unit) .default (readsMemory importedMemories name) := by
  have h₁ := @Translated.step _ _ _ _ _ (.funcType 0) h ⟨Nat.zero_lt_one, by simp⟩ rfl
  have h₂ := @Translated.step _ _ _ _ _ (.exported (.function 0) name) h₁ Nat.zero_lt_one rfl
  have h₃ := @Translated.step _ _ _ _ _ (.functionBody loadBody) h₂
    ⟨Nat.zero_lt_one, by decide, by decide⟩ rfl
  exact ⟨h₃, rfl⟩

/-- The module defines its memory. -/
theorem finished_defines (name : String) :
    Finished (id : Unit → Unit) .default (readsMemory [] name) := by
  have h₁ := @Translated.step Unit id .default _ _ (.signature ()) .new
    (by simp [Declaration.Valid, ModuleTranslation.new, Module.new]) rfl
  refine finished_of_memory (@Translated.step _ _ _ _ _
    (.memory MemoryType.onePage.toMemory) h₁ ⟨⟨_, rfl⟩, by decide⟩ ?_)
  simp only [ModuleTranslation.declare, ModuleTranslation.new, forMemory_onePage, Option.map_some]
  rfl

/-- The module imports its memory. -/
theorem finished_imports (name : String) :
    Finished (id : Unit → Unit) .default (readsMemory [("env", "memory")] name) := by
  have h₁ := @Translated.step Unit id .default _ _ (.signature ()) .new
    (by simp [Declaration.Valid, ModuleTranslation.new, Module.new]) rfl
  refine finished_of_memory (@Translated.step _ _ _ _ _
    (.memoryImport MemoryType.onePage.toMemory "env" "memory") h₁
    ⟨⟨_, rfl⟩, by decide⟩ ?_)
  simp only [ModuleTranslation.declare, ModuleTranslation.new, forMemory_onePage, Option.map_some]
  rfl

/-- The bytes of the one signature, `() -> ()`. -/
def hashUnit (_ : Unit) : List UInt8 := hashUsize 0 ++ (hashUsize 0 ++ hashDiscriminant 0)

theorem hashUnit_unambiguous : Unambiguous hashUnit :=
  PrefixFree.of_length (fun _ => rfl) fun _ _ _ _ _ => rfl

/-- Modules that differ in the name of an export share key and facts. -/
theorem facts_eq_readsMemory :
    (readsMemory [] "run").facts 8 = (readsMemory [] "main").facts 8 :=
  (facts_eq_iff 8 hashUnit id .default .default (readsMemory [] "run") (readsMemory [] "main")
    hashUnit_unambiguous (finished_defines "run") (finished_defines "main") rfl).mpr ⟨rfl, rfl⟩

/-- A module that defines its memory and one that imports it share their key, while a compilation
reads different facts of them. -/
theorem facts_ne_readsMemory :
    Finished (id : Unit → Unit) .default (readsMemory [] "run") ∧
    Finished (id : Unit → Unit) .default (readsMemory [("env", "memory")] "run") ∧
    Unambiguous hashUnit ∧
    hashForCache hashUnit (readsMemory [] "run").module (readsMemory [] "run").functionBodyInputs =
      hashForCache hashUnit (readsMemory [("env", "memory")] "run").module
        (readsMemory [("env", "memory")] "run").functionBodyInputs ∧
    (readsMemory [] "run").facts 8 ≠ (readsMemory [("env", "memory")] "run").facts 8 := by
  refine ⟨finished_defines _, finished_imports _, hashUnit_unambiguous, rfl, fun h => ?_⟩
  have himported := congrFun (congrArg Facts.isImportedMemory h) 0
  exact absurd himported (by decide)

end Wasmtime.Environ
