import Mathlib.Data.List.Dedup
import Wasmtime.Jit.Instantiate
import Wasmtime.Runtime.SigRegistry

/-!
# Indirect calls

`translate_call_indirect` (`wasmtime-environ/src/func_environ.rs`) compiles an indirect call to a
comparison of two shared signature ids: the one in the table slot, written by `initialize_tables`, and
the one of the call site, which the caller's `VMContext` holds. Both come from the one
`SignatureRegistry` of the compiler.

A run registers signatures, instantiates modules with the ids their signatures are registered under,
and makes steps of instances that write no function to a table.

Results:
* `SigInv`: along a run, the ids in every `VMContext` and in every table slot are those of the
  registry.
* `typeSafe_iff`: the comparison decides equality of signatures in every state of every run; the id
  that is reserved for slots that were never written is no id of a signature exactly while fewer than
  `2^32` signatures have been registered.
-/

namespace Wasmtime.Jit

open Environ Wasmtime.Runtime

variable {Sig : Type}

/-- `VMCallerCheckedAnyfunc::default()`: what a slot that was never written holds. -/
def defaultAnyfunc : VMCallerCheckedAnyfunc := ⟨0, defaultSignatureIndex, 0⟩

/-- `ir::TrapCode`, as far as an indirect call raises it. -/
inductive TrapCode where
  | tableOutOfBounds
  | indirectCallToNull
  | badSignature
  deriving DecidableEq, Repr

/-- What an indirect call does. -/
inductive IndirectCall where
  | trap (code : TrapCode)
  | call (funcPtr vmctx : Nat)
  deriving DecidableEq, Repr

/-- The code of `translate_call_indirect` for signature `sigIndex` of instance `me`, on the element
`callee` of a table; `none` is the failed assert of `vmctx_vmshared_signature_id`. -/
def callIndirect (h : Heap Sig) (me : Nat) (table : DefinitionPtr) (sigIndex callee : Nat) :
    Option IndirectCall :=
  (h[me]?.bind fun i => Heap.signatureId i sigIndex).map fun callerSigId =>
    match h.elementAt (table, callee) with
    | none => .trap .tableOutOfBounds
    | some slot =>
      let entry := slot.getD defaultAnyfunc
      if entry.funcPtr = 0 then .trap .indirectCallToNull
      else if entry.typeIndex = callerSigId then .call entry.funcPtr entry.vmctx
      else .trap .badSignature

/-! ## Runs -/

/-- A step of an instance that writes no function to a table. -/
structure Quiet (host : Host) (h h' : Heap Sig) : Prop where
  inside : Inside host h h'
  elements : ∀ slot e, h'.elementAt slot = some (some e) → h.elementAt slot = some (some e)

/-- The states of a run: the signatures passed to `register` so far, the registry and the store. -/
inductive SigRun [DecidableEq Sig] (debugAssertions : Bool) (translateSignature : Sig → Sig)
    (host : Host) (tunables : Tunables) :
    List Sig → SignatureRegistry Sig → Store Sig → Prop
  | new : SigRun debugAssertions translateSignature host tunables [] .new ⟨[], []⟩
  | register {sigs : List Sig} {r r' : SignatureRegistry Sig} {s : Store Sig} {sig : Sig}
      {id : UInt32} (h : SigRun debugAssertions translateSignature host tunables sigs r s)
      (hr : r.register debugAssertions sig = some (id, r')) :
      SigRun debugAssertions translateSignature host tunables (sigs ++ [sig]) r' s
  | instantiate {sigs : List Sig} {r r' : SignatureRegistry Sig} {s s' : Store Sig}
      {t : ModuleTranslation Sig} {resolve : Resolver Sig} {g : InstanceHandle.Given Sig}
      (h : SigRun debugAssertions translateSignature host tunables sigs r s) (hg : g.host = host)
      (hp : Prepared translateSignature tunables s t resolve g)
      (hr : r.registerAll debugAssertions t.module.signatures = some (g.vmsharedSignatures, r'))
      -- every compiled function has an address of its own
      (hd : g.finishedFunctions.Nodup)
      (hq : ∀ me h, Relation.ReflTransGen (Quiet host) h (g.start me h).1)
      (hn : InstanceHandle.leaves (InstanceHandle.new g t.module s) = some s') :
      SigRun debugAssertions translateSignature host tunables (sigs ++ t.module.signatures) r' s'
  | quiet {sigs : List Sig} {r : SignatureRegistry Sig} {s : Store Sig} {heap : Heap Sig}
      (h : SigRun debugAssertions translateSignature host tunables sigs r s)
      (hq : Quiet host s.heap heap) :
      SigRun debugAssertions translateSignature host tunables sigs r { s with heap }

/-- The comparison of an indirect call is right, and the id of a slot that was never written is
reserved. -/
structure TypeSafe (r : SignatureRegistry Sig) (h : Heap Sig) : Prop where
  /-- Every written slot holds a function of one signature, and its id is the one a call site compares
  it with iff the signatures are equal. -/
  check : ∀ slot e, h.elementAt slot = some (some e) →
    ∃ callee, (∀ sig, DefinesFunction h e.funcPtr e.vmctx sig ↔ sig = callee) ∧
      ∀ (k : Nat) c (x : Nat) caller, h[k]? = some c → c.module.signatures[x]? = some caller →
        ∃ id, Heap.signatureId c x = some id ∧ (e.typeIndex = id ↔ callee = caller)
  /-- The id of a slot that was never written is no id that `register` returned. -/
  reserved : ∀ entry ∈ r.signatureHash, defaultAnyfunc.typeIndex ≠ entry.2
  /-- An indirect call of a slot that was never written traps. -/
  traps : ∀ (slot : DefinitionPtr × Nat) (me sigIndex : Nat) c,
    h.elementAt slot = some none → callIndirect h me slot.1 sigIndex slot.2 = some c →
    ∃ code, c = .trap code

/-! ## The invariant of a run -/

/-- The ids in the `VMContext`s and in the table slots are those of the registry. -/
structure SigInv (sigs : List Sig) (r : SignatureRegistry Sig) (h : Heap Sig) : Prop where
  ok : r.Ok
  keys : ∀ x, x ∈ r.signatureHash.map Prod.fst ↔ x ∈ sigs
  ids : ∀ (k : Nat) c (x : Nat) sig, h[k]? = some c → c.module.signatures[x]? = some sig →
    ∃ id, c.signatureIds[x]? = some id ∧ (sig, id) ∈ r.signatureHash
  distinct : ∀ (k : Nat) c, h[k]? = some c → c.finishedFunctions.Nodup
  slots : ∀ slot e, h.elementAt slot = some (some e) →
    ∃ sig, DefinesFunction h e.funcPtr e.vmctx sig ∧ (sig, e.typeIndex) ∈ r.signatureHash

section

variable {host : Host} {tunables : Tunables} {h h' : Heap Sig} {sigs : List Sig}
  {r r' : SignatureRegistry Sig}

/-- Every instance of the later heap was there. -/
theorem Inside.back (hs : Inside host h h') {k : Nat} {c' : Placed Sig} (hc : h'[k]? = some c') :
    ∃ c, h[k]? = some c ∧ Kept c c' := by
  obtain ⟨j, i, i', hj, rfl, hkept, -⟩ := hs.kept
  by_cases hk : j = k
  · subst hk
    rw [List.getElem?_set_self (List.getElem?_eq_some_iff.mp hj).1] at hc
    obtain rfl := Option.some.inj hc
    exact ⟨i, hj, hkept⟩
  · rw [List.getElem?_set_ne hk] at hc
    exact ⟨c', hc, .refl c'⟩

theorem Kept.trans {i i' i'' : Placed Sig} (a : Kept i i') (b : Kept i' i'') : Kept i i'' :=
  ⟨b.module.trans a.module, b.imports.trans a.imports,
    b.finishedFunctions.trans a.finishedFunctions, b.signatureIds.trans a.signatureIds,
    b.globals.trans a.globals⟩

theorem insideStar_back (hs : Relation.ReflTransGen (Inside host) h h') {k : Nat} {c' : Placed Sig}
    (hc : h'[k]? = some c') : ∃ c, h[k]? = some c ∧ Kept c c' := by
  induction hs generalizing c' with
  | refl => exact ⟨c', hc, .refl c'⟩
  | tail _ hstep ih =>
    obtain ⟨c₁, hc₁, hkept⟩ := hstep.back hc
    obtain ⟨c, hc, hkept'⟩ := ih hc₁
    exact ⟨c, hc, hkept'.trans hkept⟩

theorem insideStar_keeps (hs : Relation.ReflTransGen (Inside host) h h') : Keeps h h' := by
  induction hs with
  | refl => exact fun k i hk => ⟨i, hk, .refl i⟩
  | tail _ hstep ih =>
    intro k i hk
    obtain ⟨i₁, hk₁, hkept⟩ := ih k i hk
    obtain ⟨i₂, hk₂, hkept'⟩ := hstep.keeps k i₁ hk₁
    exact ⟨i₂, hk₂, hkept.trans hkept'⟩

/-- Steps of instances keep the invariant if what they leave in the slots is of the registry. -/
theorem SigInv.steps (hi : SigInv sigs r h) (hs : Relation.ReflTransGen (Inside host) h h')
    (hel : ∀ slot e, h'.elementAt slot = some (some e) →
      ∃ sig, DefinesFunction h e.funcPtr e.vmctx sig ∧ (sig, e.typeIndex) ∈ r.signatureHash) :
    SigInv sigs r h' := by
  refine ⟨hi.ok, hi.keys, fun k c' x sig hc hsig => ?_, fun k c' hc => ?_, fun slot e he => ?_⟩
  · obtain ⟨c, hc, hkept⟩ := insideStar_back hs hc
    rw [hkept.module] at hsig
    rw [hkept.signatureIds]
    exact hi.ids k c x sig hc hsig
  · obtain ⟨c, hc, hkept⟩ := insideStar_back hs hc
    rw [hkept.finishedFunctions]
    exact hi.distinct k c hc
  · obtain ⟨sig, hd, hm⟩ := hel slot e he
    exact ⟨sig, hd.mono (insideStar_keeps hs), hm⟩

theorem quietStar_inside (hs : Relation.ReflTransGen (Quiet host) h h') :
    Relation.ReflTransGen (Inside host) h h' := by
  induction hs with
  | refl => exact .refl
  | tail _ hstep ih => exact ih.tail hstep.inside

theorem quietStar_elements (hs : Relation.ReflTransGen (Quiet host) h h')
    {slot : DefinitionPtr × Nat} {e : VMCallerCheckedAnyfunc}
    (he : h'.elementAt slot = some (some e)) : h.elementAt slot = some (some e) := by
  induction hs with
  | refl => exact he
  | tail _ hstep ih => exact ih (hstep.elements slot e he)

/-! ## What the initializers write -/

/-- The slots after `initialize_tables`: as before, or an entry of a function of the instance. -/
theorem writeElements_elements {me : Nat} {p : DefinitionPtr} {fs : List UInt32} {at' : Nat}
    (hw : Heap.writeElements me p h at' fs = some h') {slot : DefinitionPtr × Nat}
    {e : VMCallerCheckedAnyfunc} (he : h'.elementAt slot = some (some e)) :
    h.elementAt slot = some (some e) ∨ ∃ f, h.anyfunc me f = some e := by
  induction fs generalizing h at' with
  | nil =>
    obtain rfl := Option.some.inj hw
    exact Or.inl he
  | cons f fs ih =>
    obtain ⟨e', he', hw⟩ := Option.bind_eq_some_iff.mp hw
    obtain ⟨h₁, hset, hw⟩ := Option.bind_eq_some_iff.mp hw
    obtain ⟨hframe, hel⟩ := Heap.setElement_update hset
    rcases ih hw with hsame | ⟨f', hf'⟩
    · rw [hel] at hsame
      by_cases hslot : slot = (p, at')
      · subst hslot
        rw [Function.update_self] at hsame
        obtain rfl := Option.some.inj (Option.some.inj hsame)
        exact Or.inr ⟨f, he'⟩
      · rw [Function.update_of_ne hslot] at hsame
        exact Or.inl hsame
    · exact Or.inr ⟨f', (hframe.anyfunc me f').symm.trans hf'⟩

theorem initializeTablesLoop_elements {addr : Nat → BitVec 64} {me : Nat}
    {inits : List TableElements} (hw : Heap.initializeTablesLoop addr me h inits = some h')
    {slot : DefinitionPtr × Nat} {e : VMCallerCheckedAnyfunc}
    (he : h'.elementAt slot = some (some e)) :
    h.elementAt slot = some (some e) ∨ ∃ f, h.anyfunc me f = some e := by
  induction inits generalizing h with
  | nil =>
    obtain rfl := Option.some.inj hw
    exact Or.inl he
  | cons init inits ih =>
    obtain ⟨h₁, hround, hw⟩ := Option.bind_eq_some_iff.mp hw
    obtain ⟨start, -, hround⟩ := Option.bind_eq_some_iff.mp hround
    obtain ⟨⟨p, n⟩, -, hround⟩ := Option.bind_eq_some_iff.mp hround
    obtain ⟨-, hround⟩ := Option.ite_none_right_eq_some.mp hround
    rcases ih hw with hsame | ⟨f, hf⟩
    · exact writeElements_elements hround hsame
    · exact Or.inr ⟨f, ((Heap.writeElements_frame hround).anyfunc me f).symm.trans hf⟩

theorem initializeMemories_elementAt {addr : Nat → BitVec 64} {me : Nat}
    {inits : List DataInitializer} (hw : Heap.initializeMemories addr me h inits = some h') :
    h'.elementAt = h.elementAt := by
  have hbytes : ∀ {p : DefinitionPtr} {bytes : List UInt8} {h h' : Heap Sig} {at' : Nat},
      Heap.writeBytes p h at' bytes = some h' → h'.elementAt = h.elementAt := by
    intro p bytes
    induction bytes with
    | nil =>
      intro h h' at' hw
      obtain rfl := Option.some.inj hw
      rfl
    | cons byte bytes ih =>
      intro h h' at' hw
      obtain ⟨h₁, hset, hw⟩ := Option.bind_eq_some_iff.mp hw
      exact (ih hw).trans (Heap.setByte_elementAt hset)
  induction inits generalizing h with
  | nil =>
    obtain rfl := Option.some.inj hw
    rfl
  | cons init inits ih =>
    obtain ⟨h₁, hround, hw⟩ := Option.bind_eq_some_iff.mp hw
    obtain ⟨start, -, hround⟩ := Option.bind_eq_some_iff.mp hround
    obtain ⟨⟨p, n⟩, -, hround⟩ := Option.bind_eq_some_iff.mp hround
    obtain ⟨-, hround⟩ := Option.ite_none_right_eq_some.mp hround
    exact (ih hw).trans (hbytes hround)

theorem initializeGlobals_elementAt {me k : Nat} {globals : List Global}
    (hw : Heap.initializeGlobals me h k globals = some h') : h'.elementAt = h.elementAt := by
  induction globals generalizing h k with
  | nil =>
    obtain rfl := Option.some.inj hw
    rfl
  | cons global globals ih =>
    obtain ⟨i, hi, hw⟩ := Option.bind_eq_some_iff.mp hw
    obtain ⟨old, -, hw⟩ := Option.bind_eq_some_iff.mp hw
    obtain ⟨value, -, hw⟩ := Option.bind_eq_some_iff.mp hw
    refine (ih hw).trans (funext fun slot => ?_)
    unfold Heap.elementAt
    rw [Heap.bind_set_same hi]
    rfl

/-- The tables of a new instance hold no function. -/
theorem createTables_empty {alloc : Nat → Nat} {plans : List TablePlan} {k : Nat}
    {tables : List (Runtime.Table VMCallerCheckedAnyfunc)}
    (hc : createTables alloc k plans = .ok tables) :
    ∀ t ∈ tables, ∀ f ∈ t.vec, f = none := by
  induction plans generalizing k tables with
  | nil =>
    obtain rfl := Ending.ok.inj hc
    exact fun t ht => absurd ht (by simp)
  | cons plan plans ih =>
    obtain ⟨t, ht, hc⟩ := Ending.bind_eq_ok.mp hc
    obtain ⟨ts, hts, rfl⟩ := Ending.map_eq_ok.mp hc
    intro t' ht' f hf
    rcases List.mem_cons.mp ht' with rfl | ht'
    · unfold Runtime.Table.new at ht
      split at ht
      · exact absurd ht (by simp)
      · obtain rfl := Ending.ok.inj ht
        exact List.eq_of_mem_replicate hf
    · exact ih hts t' ht' f hf

/-- A new instance adds no written slot. -/
theorem elementAt_allocate {g : InstanceHandle.Given Sig} {module : Module Sig} {i : Placed Sig}
    (ha : InstanceHandle.allocate g module = .ok i) {slot : DefinitionPtr × Nat}
    {e : VMCallerCheckedAnyfunc} (he : Heap.elementAt (h ++ [i]) slot = some (some e)) :
    h.elementAt slot = some (some e) := by
  have hnew := (allocate_ok ha).1
  unfold Instance.new at hnew
  obtain ⟨tables, htables, hnew⟩ := Ending.bind_eq_ok.mp hnew
  obtain ⟨memories, -, hnew⟩ := Ending.bind_eq_ok.mp hnew
  obtain ⟨offsets, -, hnew⟩ := Ending.bind_eq_ok.mp hnew
  obtain ⟨-, -, hnew⟩ := Ending.map_eq_ok.mp hnew
  have htab : i.tables = tables := by rw [← hnew]
  unfold Heap.elementAt at he ⊢
  by_cases hlt : slot.1.vmctx < h.length
  · rwa [List.getElem?_append_left hlt] at he
  · rw [List.getElem?_append_right (Nat.not_lt.mp hlt)] at he
    obtain ⟨j, hj, he⟩ := Option.bind_eq_some_iff.mp he
    obtain ⟨hz, rfl⟩ := List.getElem?_eq_some_iff.mp hj
    rw [List.getElem_singleton] at he
    obtain ⟨t, ht, he⟩ := Option.bind_eq_some_iff.mp he
    rw [htab] at ht
    exact absurd (createTables_empty htables t (List.mem_of_getElem? ht) _ (List.mem_of_getElem? he))
      (by simp)

/-! ## Steps keep the invariant -/

theorem SigInv.register [DecidableEq Sig] {debugAssertions : Bool} {sig : Sig} {id : UInt32}
    (hi : SigInv sigs r h) (hr : r.register debugAssertions sig = some (id, r')) :
    SigInv (sigs ++ [sig]) r' h := by
  obtain ⟨hok, -, hkeep, hkeys⟩ := SignatureRegistry.register_spec hi.ok hr
  refine ⟨hok, fun x => ?_, fun k c x σ hc hσ => ?_, hi.distinct, fun slot e he => ?_⟩
  · rw [hkeys, hi.keys, List.mem_append, List.mem_singleton]
  · obtain ⟨id, hid, hm⟩ := hi.ids k c x σ hc hσ
    exact ⟨id, hid, hkeep _ hm⟩
  · obtain ⟨σ, hd, hm⟩ := hi.slots slot e he
    exact ⟨σ, hd, hkeep _ hm⟩

/-- The entry of a function of an instance, if the ids of the instance are of the registry. -/
theorem entry_of_registry (hi : HeapInv host tunables h) {me : Nat} {i : Placed Sig}
    (hme : h[me]? = some i)
    (hids : ∀ (x : Nat) sig, i.module.signatures[x]? = some sig →
      ∃ id, i.signatureIds[x]? = some id ∧ (sig, id) ∈ r.signatureHash)
    {f : UInt32} {e : VMCallerCheckedAnyfunc} (he : h.anyfunc me f = some e) :
    ∃ sig, DefinesFunction h e.funcPtr e.vmctx sig ∧ (sig, e.typeIndex) ∈ r.signatureHash := by
  have hworld : (Heap.world h)[me]? = some i.toInstance := by
    rw [Heap.world_getElem?, hme, Option.map_some]
  obtain ⟨⟨s, hs, hid⟩, hcode⟩ := entryOf_of_anyfunc hme he
  have hlt := (hi.world me _ hworld).wellFormed.signatureIndex s (List.mem_of_getElem? hs)
  have hsig : i.module.signatures[s.toNat]? = some i.module.signatures[s.toNat] :=
    List.getElem?_eq_getElem hlt
  obtain ⟨id, hid', hm⟩ := hids s.toNat _ hsig
  obtain rfl := Option.some.inj (hid.symm.trans hid')
  rcases hcode with ⟨d, hd, hfin, hv⟩ | ⟨-, himp⟩
  · have hidx : f.toNat = i.module.funcIndex d := Module.definedIndex_eq_some.mp hd
    exact ⟨_, ⟨i, d, s, hv ▸ hme, hfin, hidx ▸ hs, hsig⟩, hm⟩
  · obtain ⟨s', sig', hs', hsig', hdef⟩ := (hi.placed me i hme).functionImport _ _ himp
    obtain rfl := Option.some.inj (hs.symm.trans hs')
    obtain rfl := Option.some.inj (hsig.symm.trans hsig')
    exact ⟨_, hdef, hm⟩

/-! ## The check of an indirect call -/

/-- An address and a `VMContext` name one function, so one signature. -/
theorem DefinesFunction.unique (hi : SigInv sigs r h) {body vmctx : Nat} {sig sig' : Sig}
    (hd : DefinesFunction h body vmctx sig) (hd' : DefinesFunction h body vmctx sig') :
    sig = sig' := by
  obtain ⟨o, d, x, ho, hb, hx, hsig⟩ := hd
  obtain ⟨o', d', x', ho', hb', hx', hsig'⟩ := hd'
  obtain rfl := Option.some.inj (ho.symm.trans ho')
  have hlt := (List.getElem?_eq_some_iff.mp hb).1
  obtain rfl := (List.getElem?_inj hlt (hi.distinct _ o ho)).mp (hb.trans hb'.symm)
  obtain rfl := Option.some.inj (hx.symm.trans hx')
  exact Option.some.inj (hsig.symm.trans hsig')

/-- The comparison is right in every state of a run, whatever the build and however many signatures
there are. -/
theorem typeSafe_check (hh : HeapInv host tunables h) (hi : SigInv sigs r h)
    {slot : DefinitionPtr × Nat} {e : VMCallerCheckedAnyfunc}
    (he : h.elementAt slot = some (some e)) :
    ∃ callee, (∀ sig, DefinesFunction h e.funcPtr e.vmctx sig ↔ sig = callee) ∧
      ∀ (k : Nat) c (x : Nat) caller, h[k]? = some c → c.module.signatures[x]? = some caller →
        ∃ id, Heap.signatureId c x = some id ∧ (e.typeIndex = id ↔ callee = caller) := by
  obtain ⟨callee, hd, hm⟩ := hi.slots slot e he
  refine ⟨callee, fun sig => ⟨fun h' => h'.unique hi hd, fun h' => h' ▸ hd⟩, ?_⟩
  intro k c x caller hc hcaller
  obtain ⟨id, hid, hm'⟩ := hi.ids k c x caller hc hcaller
  have hworld : (Heap.world h)[k]? = some c.toInstance := by
    rw [Heap.world_getElem?, hc, Option.map_some]
  have hoff := VMOffsets.new_eq_some (hh.world k _ hworld).inv.offsets_eq
  refine ⟨id, ?_, hi.ok.eq_iff hm hm'⟩
  unfold Heap.signatureId
  rw [hoff, if_pos (List.getElem?_eq_some_iff.mp hcaller).1, hid]

/-- A slot that was never written has no code, so the call traps before it compares anything. -/
theorem callIndirect_default {slot : DefinitionPtr × Nat} {me sigIndex : Nat} {c : IndirectCall}
    (he : h.elementAt slot = some none)
    (hc : callIndirect h me slot.1 sigIndex slot.2 = some c) : ∃ code, c = .trap code := by
  obtain ⟨id, -, hc⟩ := Option.map_eq_some_iff.mp hc
  have he' : h.elementAt (slot.1, slot.2) = some none := he
  rw [he'] at hc
  simp only [Option.getD_none, defaultAnyfunc] at hc
  exact ⟨_, hc.symm⟩

/-! ## Instantiation keeps the invariant -/

variable [DecidableEq Sig] {translateSignature : Sig → Sig} {s s' : Store Sig}
  {t : ModuleTranslation Sig} {resolve : Resolver Sig} {g : InstanceHandle.Given Sig}
  {debugAssertions : Bool}

theorem SigInv.registerAll {sigs' : List Sig} {ids : List UInt32} (hi : SigInv sigs r h)
    (hr : r.registerAll debugAssertions sigs' = some (ids, r')) : SigInv (sigs ++ sigs') r' h := by
  obtain ⟨hok, -, hkeep, hkeys⟩ := SignatureRegistry.registerAll_spec hi.ok hr
  refine ⟨hok, fun x => ?_, fun k c x σ hc hσ => ?_, hi.distinct, fun slot e he => ?_⟩
  · rw [hkeys, hi.keys, List.mem_append]
  · obtain ⟨id, hid, hm⟩ := hi.ids k c x σ hc hσ
    exact ⟨id, hid, hkeep _ hm⟩
  · obtain ⟨σ, hd, hm⟩ := hi.slots slot e he
    exact ⟨σ, hd, hkeep _ hm⟩

/-- A new instance with the ids of its signatures. -/
theorem SigInv.allocate (hi : SigInv sigs r s.heap)
    (hr : r.registerAll debugAssertions t.module.signatures = some (g.vmsharedSignatures, r'))
    (hd : g.finishedFunctions.Nodup) {i : Placed Sig}
    (ha : InstanceHandle.allocate g t.module = .ok i) :
    SigInv (sigs ++ t.module.signatures) r' (s.heap ++ [i]) := by
  have hall := (SignatureRegistry.registerAll_spec hi.ok hr).2.1
  have hi' := hi.registerAll hr
  obtain ⟨hnew, hidsEq, -⟩ := allocate_ok ha
  obtain ⟨-, hmod, -⟩ := Instance.inv_new hnew
  have hsnoc : ∀ {k : Nat} {c : Placed Sig}, (s.heap ++ [i])[k]? = some c →
      s.heap[k]? = some c ∨ c = i := by
    intro k c hc
    by_cases hlt : k < s.heap.length
    · rw [List.getElem?_append_left hlt] at hc
      exact Or.inl hc
    · rw [List.getElem?_append_right (Nat.not_lt.mp hlt)] at hc
      obtain ⟨hz, rfl⟩ := List.getElem?_eq_some_iff.mp hc
      exact Or.inr (List.getElem_singleton _)
  refine ⟨hi'.ok, hi'.keys, fun k c x σ hc hσ => ?_, fun k c hc => ?_, fun slot e he => ?_⟩
  · rcases hsnoc hc with hc | rfl
    · exact hi'.ids k c x σ hc hσ
    · rw [hmod] at hσ
      rw [hidsEq]
      obtain ⟨hx, hxe⟩ := List.getElem?_eq_some_iff.mp hσ
      have hlen := hall.length_eq
      have hx' : x < g.vmsharedSignatures.length := by omega
      have hm := (List.forall₂_iff_get.mp hall).2 x hx hx'
      simp only [List.get_eq_getElem, hxe] at hm
      exact ⟨_, List.getElem?_eq_getElem hx', hm⟩
  · rcases hsnoc hc with hc | rfl
    · exact hi.distinct k c hc
    · rw [new_finishedFunctions hnew]
      exact hd
  · obtain ⟨σ, hdef, hm⟩ := hi'.slots slot e (elementAt_allocate ha he)
    exact ⟨σ, hdef.mono (keeps_snoc _ i), hm⟩

/-- An instantiation, successful or not, keeps the invariant. -/
theorem SigInv.instantiate (hp : Prepared translateSignature tunables s t resolve g)
    (hh : HeapInv g.host tunables s.heap) (hi : SigInv sigs r s.heap)
    (hr : r.registerAll debugAssertions t.module.signatures = some (g.vmsharedSignatures, r'))
    (hd : g.finishedFunctions.Nodup)
    (hq : ∀ me h, Relation.ReflTransGen (Quiet g.host) h (g.start me h).1)
    (hn : InstanceHandle.leaves (InstanceHandle.new g t.module s) = some s') :
    SigInv (sigs ++ t.module.signatures) r' s'.heap := by
  rcases InstanceHandle.leaves_new hn with rfl | ⟨i, ha, he | ⟨h₁, h₂, h₃, ht, hm, hg, he⟩⟩
  · exact hi.registerAll hr
  · rw [he]
    exact hi.allocate hr hd ha
  · have hi₀ := hi.allocate hr hd ha
    have hh₀ := inv_allocate hp hh ha
    have hme : (s.heap ++ [i])[s.heap.length]? = some i := by simp
    obtain ⟨h₀, hh₀e⟩ : ∃ h₀, h₀ = s.heap ++ [i] := ⟨_, rfl⟩
    rw [← hh₀e] at hi₀ hh₀ hme ht
    obtain ⟨j, -, ht⟩ := Option.bind_eq_some_iff.mp ht
    have hstart := hq s.heap.length h₃
    have hsteps : Relation.ReflTransGen (Inside g.host) h₀ s'.heap := by
      rw [he]
      exact ((initializeTablesLoop_inside ht).trans (initializeMemories_inside hm)).trans
        ((initializeGlobals_inside hg).trans (quietStar_inside hstart))
    refine hi₀.steps hsteps fun slot e hel => ?_
    rw [he] at hel
    have hel₃ := quietStar_elements hstart hel
    rw [initializeGlobals_elementAt hg, initializeMemories_elementAt hm] at hel₃
    rcases initializeTablesLoop_elements ht hel₃ with hold | ⟨f, hf⟩
    · exact hi₀.slots slot e hold
    · exact entry_of_registry hh₀ hme (fun x σ hσ => hi₀.ids _ i x σ hme hσ) hf

/-- Every state of a run satisfies the invariant. -/
theorem SigRun.inv (hrun : SigRun debugAssertions translateSignature host tunables sigs r s) :
    HeapInv host tunables s.heap ∧ SigInv sigs r s.heap := by
  induction hrun with
  | new =>
    refine ⟨⟨fun k i hk => absurd hk (by simp [Heap.world]), fun k i hk => absurd hk (by simp)⟩,
      SignatureRegistry.ok_new, fun x => by simp [SignatureRegistry.new], ?_, ?_, ?_⟩
    · exact fun k c x sig hc => absurd hc (by simp)
    · exact fun k c hc => absurd hc (by simp)
    · exact fun slot e he => absurd he (by simp [Heap.elementAt])
  | register _ hr ih => exact ⟨ih.1, ih.2.register hr⟩
  | instantiate _ hg hp hr hd hq hn ih =>
    subst hg
    have hstep : Store.Step translateSignature _ tunables _ _ := .instantiate rfl hp hn
    exact ⟨hstep.inv ih.1, ih.2.instantiate hp ih.1 hr hd hq hn⟩
  | quiet _ hq ih =>
    refine ⟨hq.inside.inv ih.1, ih.2.steps (.single hq.inside) fun slot e he => ?_⟩
    exact ih.2.slots slot e (hq.elements slot e he)

/-- **Indirect calls are type safe** in every state of every run; the reserved id is no id of a
signature exactly while fewer than `2^32` different signatures have been registered. -/
theorem typeSafe_iff (hrun : SigRun debugAssertions translateSignature host tunables sigs r s) :
    TypeSafe r s.heap ↔ sigs.dedup.length < 2 ^ 32 := by
  obtain ⟨hh, hi⟩ := hrun.inv
  have hperm : (r.signatureHash.map Prod.fst).Perm sigs.dedup := by
    refine (List.perm_ext_iff_of_nodup hi.ok.keys (List.nodup_dedup sigs)).mpr fun x => ?_
    rw [hi.keys, List.mem_dedup]
  have hlen : r.signatureHash.length = sigs.dedup.length := by
    rw [← hperm.length_eq, List.length_map]
  rw [← hlen, ← hi.ok.default_iff]
  constructor
  · intro hsafe p hp he
    exact hsafe.reserved p hp he.symm
  · intro hres
    exact ⟨fun slot e he => typeSafe_check hh hi he, fun p hp he => hres p hp he.symm,
      fun slot me x c he hc => callIndirect_default he hc⟩

end

/-- A module with two signatures, whose table has a function of each and a slot that was never
written. -/
theorem typeSafe_provider :
    ∃ r s, SigRun true (id : Bool → Bool) LinearMemory.host4K .default [false, true] r s ∧
      [0, 1, 2].map (fun k => s.heap.elementAt (⟨0, 0⟩, k)) =
        [some (some ⟨100, 0, 0⟩), some (some ⟨104, 1, 0⟩), some none] ∧ TypeSafe r s.heap := by
  have hnew : SigRun true (id : Bool → Bool) LinearMemory.host4K .default [] .new ⟨[], []⟩ := .new
  have hrun := SigRun.instantiate hnew rfl prepared_provider rfl (by decide) (fun _ _ => .refl)
    leaves_provided
  exact ⟨_, _, hrun, rfl, (typeSafe_iff hrun).mpr (by decide)⟩

/-- In a build without debug assertions, any number of signatures up to `2^32` can be registered. -/
theorem sigRun_range {n : Nat} (hn : n ≤ 2 ^ 32) :
    SigRun false (id : Nat → Nat) LinearMemory.host4K .default (List.range n)
      ⟨(List.range n).map fun k => (k, UInt32.ofNat k)⟩ ⟨[], []⟩ := by
  induction n with
  | zero => exact .new
  | succ n ih =>
    have hnone : ((List.range n).map fun k => (k, UInt32.ofNat k)).find? (·.1 = n) = none := by
      simp only [List.find?_eq_none, List.mem_map, List.mem_range, decide_eq_true_eq]
      rintro x ⟨k, hk, rfl⟩
      exact Nat.ne_of_lt hk
    have hreg : SignatureRegistry.register false
        ⟨(List.range n).map fun k => (k, UInt32.ofNat k)⟩ n =
        some (UInt32.ofNat n,
          ⟨(List.range n).map (fun k => (k, UInt32.ofNat k)) ++ [(n, UInt32.ofNat n)]⟩) := by
      unfold SignatureRegistry.register
      simp only [hnone, Bool.false_and, Bool.false_eq_true, if_false, List.length_map,
        List.length_range]
      rw [if_pos (by omega)]
    rw [List.range_succ, List.map_append]
    exact .register (ih (by omega)) hreg

theorem not_typeSafe_of_mem {r : SignatureRegistry Sig} {h : Heap Sig} {sig : Sig}
    (hm : (sig, defaultSignatureIndex) ∈ r.signatureHash) : ¬ TypeSafe r h :=
  fun hsafe => hsafe.reserved _ hm rfl

/-- With `2^32` signatures, the last one has the id of a slot that was never written. -/
theorem not_typeSafe_range :
    SigRun false (id : Nat → Nat) LinearMemory.host4K .default (List.range (2 ^ 32))
        ⟨(List.range (2 ^ 32)).map fun k => (k, UInt32.ofNat k)⟩ ⟨[], []⟩ ∧
      ¬ TypeSafe (⟨(List.range (2 ^ 32)).map fun k => (k, UInt32.ofNat k)⟩ :
        SignatureRegistry Nat) [] := by
  refine ⟨sigRun_range (Nat.le_refl _), ?_⟩
  obtain ⟨n, hn⟩ : ∃ n, n = 2 ^ 32 := ⟨_, rfl⟩
  have hlast : UInt32.ofNat (n - 1) = defaultSignatureIndex := by
    rw [hn]
    decide
  have hmem : (n - 1, UInt32.ofNat (n - 1)) ∈ (List.range n).map fun k => (k, UInt32.ofNat k) :=
    List.mem_map_of_mem (List.mem_range.mpr (by omega))
  rw [hlast] at hmem
  rw [← hn]
  exact not_typeSafe_of_mem hmem

end Wasmtime.Jit
