import Mathlib
import Wasmtime.Jit.CodeMemory
import Wasmtime.Lib.Runs
import Wasmtime.Runtime.TrapHandlers

/-!
# Trap guards

Model of how the compilers of a process share its trap registry: `compile`, `get_trampoline`,
`publish_compiled_code` and the drop of a `Compiler` (`wasmtime-jit/src/compiler.rs`), with the guards of
`wasmtime-runtime/src/trap_registry.rs`.

* `J` names compilers. Each belongs to a thread, so the steps of one come between those of the others. The registry is
  locked by `register_traps` as a whole, and by the drop of each guard.
* `compile` is two steps: `allocate_functions`, then `register_traps`. What Cranelift makes is given, the bodies and
  their traps. The rest of `compile` touches neither the code memory nor the registry.
* A panic of the code memory unwinds its compiler, which is dropped then. A guard is its address.
* `none` is a failed assertion of the registry.
* The code memory is dropped after the last guard. If it were dropped first, the host could give its addresses to
  another compiler while their traps are still registered.

Results:
* `Ok.step`: the invariant of the process. The registry has what the guards are for, and the mappings of compilers are
  apart.
* `registry_exact`: no assertion fails in any order of steps, and the registry says of every address what the live
  compiler says whose code is there.
-/

namespace Wasmtime.Jit.TrapGuards

open Wasmtime.Runtime Wasmtime.Runtime.Traps

/-! ## Compilers and the registry -/

/-- `TrapInformation`. -/
structure TrapInformation where
  codeOffset : UInt32
  sourceLoc : UInt32
  trapCode : Traps.TrapCode
  deriving DecidableEq, Repr

/-- An allocated function with its traps. -/
structure Allocated where
  body : Extent
  traps : List TrapInformation

/-- The address and the description of a trap. -/
def Allocated.entry (f : Allocated) (t : TrapInformation) : Nat × TrapDescription :=
  (f.body.start + t.codeOffset.toNat, ⟨t.sourceLoc, t.trapCode⟩)

/-- Those of all traps. -/
def Allocated.entries (f : Allocated) : List (Nat × TrapDescription) := f.traps.map f.entry

/-- Where a compiler is. -/
inductive Phase where
  | ready
  /-- In `compile`, between its two steps. -/
  | registering (functions : List Allocated)
  | dropping

/-- `Compiler`. -/
structure Compiler where
  codeMemory : Code.CodeMemory
  trapRegistrationGuards : List Nat
  /-- The functions whose traps have been registered. -/
  compiled : List Allocated
  phase : Phase

/-- `Compiler::new`. -/
def Compiler.new : Compiler := ⟨.new, [], [], .ready⟩

/-- The inner loop of `register_traps`. -/
def registerFuncTraps (f : Allocated) (registry : TrapRegistry) (guards : List Nat) :
    List TrapInformation → Option (TrapRegistry × List Nat)
  | [] => some (registry, guards)
  | t :: traps =>
    let trapAddr := f.body.start + t.codeOffset.toNat
    (registry.registerTrap trapAddr ⟨t.sourceLoc, t.trapCode⟩).bind fun registry =>
      registerFuncTraps f registry (guards ++ [trapAddr]) traps

/-- `register_traps`. -/
def registerTraps (registry : TrapRegistry) (guards : List Nat) :
    List Allocated → Option (TrapRegistry × List Nat)
  | [] => some (registry, guards)
  | f :: functions =>
    (registerFuncTraps f registry guards f.traps).bind fun p => registerTraps p.1 p.2 functions

/-- What a call on the code memory leaves. -/
def Compiler.after {α : Type} (c : Compiler) (r : Code.Called α) (f : α → Phase) : Compiler :=
  match r with
  | .ret (some a) m => { c with codeMemory := m, phase := f a }
  | .ret none m => { c with codeMemory := m }
  | .panic => { c with phase := .dropping }

/-- `allocate_functions`. -/
def Compiler.allocateFunctions (host : Host) (os : Os) (c : Compiler)
    (functions : List (List UInt8 × List TrapInformation)) : Compiler :=
  c.after (c.codeMemory.allocateCopyOfByteSlices host os (functions.map Prod.fst)) fun result =>
    .registering (List.zipWith Allocated.mk result (functions.map Prod.snd))

/-- `make_trampoline`, once the code has been emitted. -/
def Compiler.makeTrampoline (host : Host) (os : Os) (c : Compiler) (code : List UInt8) : Compiler :=
  c.after (c.codeMemory.allocateCopyOfByteSlice host os code) fun _ => .ready

/-- `publish_compiled_code`. -/
def Compiler.publishCompiledCode (os : Os) (c : Compiler) : Compiler :=
  c.after (c.codeMemory.publish os) fun _ => .ready

/-! ## The process -/

/-- The registry and the compilers that are alive. -/
structure State (J : Type) where
  registry : TrapRegistry
  compilers : J → Option Compiler

/-- A process before the first compiler. -/
def State.start (J : Type) : State J := ⟨⟨[]⟩, fun _ => none⟩

/-- What can happen. What a compiler cannot do in its phase does nothing. -/
inductive Event (J : Type) where
  | new (j : J)
  | makeTrampoline (j : J) (os : Os) (code : List UInt8)
  | publishCompiledCode (j : J) (os : Os)
  | allocateFunctions (j : J) (os : Os) (functions : List (List UInt8 × List TrapInformation))
  | registerTraps (j : J)
  | drop (j : J)
  /-- The next guard is dropped, and after the last one the code memory. -/
  | continueDrop (j : J)

variable {J : Type}

section

variable [DecidableEq J]

/-- A compiler becomes another one, or is gone. -/
def State.set (s : State J) (j : J) (c : Option Compiler) : State J :=
  { s with compilers := Function.update s.compilers j c }

/-- A compiler that is not in the middle of something. -/
def State.onReady (s : State J) (j : J) (f : Compiler → Compiler) : State J :=
  match s.compilers j with
  | some c =>
    match c.phase with
    | .ready => s.set j (some (f c))
    | _ => s
  | none => s

/-- The second step of `compile`. -/
def State.registerTraps (s : State J) (j : J) : Option (State J) :=
  match s.compilers j with
  | some c =>
    match c.phase with
    | .registering functions =>
      (TrapGuards.registerTraps s.registry c.trapRegistrationGuards functions).map fun p =>
        State.set ⟨p.1, s.compilers⟩ j
          (some ⟨c.codeMemory, p.2, c.compiled ++ functions, .ready⟩)
    | _ => some s
  | none => some s

/-- `trap_registration_guards.clear()` guard by guard, and then the fields. -/
def State.continueDrop (s : State J) (j : J) : Option (State J) :=
  match s.compilers j with
  | some c =>
    match c.phase with
    | .dropping =>
      match c.trapRegistrationGuards with
      | [] => some (s.set j none)
      | address :: guards =>
        (s.registry.deregisterTrap address).map fun registry =>
          State.set ⟨registry, s.compilers⟩ j (some { c with trapRegistrationGuards := guards })
    | _ => some s
  | none => some s

/-- One event. -/
def State.step (host : Host) (s : State J) : Event J → Option (State J)
  | .new j => some (if s.compilers j = none then s.set j (some .new) else s)
  | .makeTrampoline j os code => some (s.onReady j fun c => c.makeTrampoline host os code)
  | .publishCompiledCode j os => some (s.onReady j fun c => c.publishCompiledCode os)
  | .allocateFunctions j os functions =>
    some (s.onReady j fun c => c.allocateFunctions host os functions)
  | .registerTraps j => s.registerTraps j
  | .drop j => some (s.onReady j fun c => { c with phase := .dropping })
  | .continueDrop j => s.continueDrop j

/-- A run ends at a failed assertion. -/
def step (host : Host) (s : Option (State J)) (e : Event J) : Option (State J) :=
  s.bind fun s => s.step host e

end

/-- The addresses of the mappings of a code memory. -/
def extents (m : Code.CodeMemory) : List Extent := m.live.map Code.CodeMmap.extent

/-- The host maps apart from what any compiler has mapped. -/
def FreshMapping (host : Host) (os : Os) (size : Nat) (s : State J) : Prop :=
  ∀ ptr, os.mmap = some ptr → ∀ j c, s.compilers j = some c → ∀ e ∈ extents c.codeMemory,
    Extent.Apart ⟨ptr, Mmap.roundUpToPageSize (max 0x10000 size) host.pageSize⟩ e

/-- The traps of a function with a body of `len` bytes are at instructions of it, one at each. -/
structure TrapsOf (len : Nat) (traps : List TrapInformation) : Prop where
  nodup : (traps.map TrapInformation.codeOffset).Nodup
  inside : ∀ t ∈ traps, t.codeOffset.toNat < len

/-- What the host and Cranelift promise. -/
def Promised (host : Host) (s : Option (State J)) : Event J → Prop
  | .makeTrampoline _ os code => ∀ s', s = some s' → FreshMapping host os code.length s'
  | .allocateFunctions _ os functions =>
    (∀ s', s = some s' → FreshMapping host os (Code.CodeMemory.totalLen (functions.map Prod.fst)) s') ∧
      ∀ p ∈ functions, TrapsOf p.1.length p.2
  | _ => True

/-! ## The registry -/

theorem getTrap_registerTrap {registry registry' : TrapRegistry} {address : Nat} {desc : TrapDescription}
    (h : registry.registerTrap address desc = some registry') (a : Nat) :
    registry'.getTrap a = if a = address then some desc else registry.getTrap a := by
  unfold TrapRegistry.registerTrap at h
  split at h
  · obtain rfl := Option.some.inj h
    rw [TrapRegistry.getTrap, List.lookup_cons]
    by_cases ha : a = address
    · rw [if_pos ha, ha, beq_self_eq_true]
    · rw [if_neg ha, beq_false_of_ne ha]
      rfl
  · cases h

theorem registerTrap_isSome {registry : TrapRegistry} {address : Nat} (desc : TrapDescription)
    (h : registry.getTrap address = none) : ∃ registry', registry.registerTrap address desc = some registry' :=
  ⟨_, if_pos h⟩

theorem lookup_filter_ne (traps : List (Nat × TrapDescription)) (address a : Nat) :
    (traps.filter (·.1 ≠ address)).lookup a = if a = address then none else traps.lookup a := by
  induction traps with
  | nil => rw [List.filter_nil, List.lookup_nil, ite_self]
  | cons p traps ih =>
    rw [List.filter_cons]
    by_cases hp : p.1 = address
    · rw [if_neg (by simpa using hp), ih, List.lookup_cons]
      by_cases ha : a = address
      · rw [if_pos ha, if_pos ha]
      · rw [if_neg ha, if_neg ha, beq_false_of_ne (hp ▸ ha)]
    · rw [if_pos (by simpa using hp), List.lookup_cons, List.lookup_cons, ih]
      by_cases ha : a = address
      · rw [if_pos ha, if_pos ha, beq_false_of_ne (ha ▸ Ne.symm hp)]
      · rw [if_neg ha, if_neg ha]

theorem getTrap_deregisterTrap {registry : TrapRegistry} {address : Nat} {desc : TrapDescription}
    (h : registry.getTrap address = some desc) :
    ∃ registry', registry.deregisterTrap address = some registry' ∧
      ∀ a, registry'.getTrap a = if a = address then none else registry.getTrap a := by
  refine ⟨⟨registry.traps.filter (·.1 ≠ address)⟩, ?_, fun a => lookup_filter_ne registry.traps address a⟩
  rw [TrapRegistry.deregisterTrap, if_neg]
  rw [h]
  exact Option.some_ne_none _

/-- What registering entries leaves. -/
structure Registers (registry : TrapRegistry) (guards : List Nat) (entries : List (Nat × TrapDescription))
    (registry' : TrapRegistry) (guards' : List Nat) : Prop where
  guards : guards' = guards ++ entries.map Prod.fst
  getTrap : ∀ a d, registry'.getTrap a = some d ↔ registry.getTrap a = some d ∨ (a, d) ∈ entries

theorem Registers.nil (registry : TrapRegistry) (guards : List Nat) :
    Registers registry guards [] registry guards :=
  ⟨by simp, by simp⟩

theorem Registers.append {r r' r'' : TrapRegistry} {g g' g'' : List Nat} {l l' : List (Nat × TrapDescription)}
    (h : Registers r g l r' g') (h' : Registers r' g' l' r'' g'') : Registers r g (l ++ l') r'' g'' := by
  refine ⟨?_, fun a d => ?_⟩
  · rw [h'.guards, h.guards, List.append_assoc, List.map_append]
  · rw [h'.getTrap, h.getTrap, List.mem_append, or_assoc]

/-- An entry can be registered, and the others still can. -/
theorem registers_one {registry : TrapRegistry} (guards : List Nat) {e : Nat × TrapDescription}
    (h : registry.getTrap e.1 = none) :
    ∃ registry', registry.registerTrap e.1 e.2 = some registry' ∧
      Registers registry guards [e] registry' (guards ++ [e.1]) ∧
      ∀ a, a ≠ e.1 → registry'.getTrap a = registry.getTrap a := by
  obtain ⟨registry', hregister⟩ := registerTrap_isSome e.2 h
  have hget := getTrap_registerTrap hregister
  refine ⟨registry', hregister, ⟨rfl, fun a d => ?_⟩, fun a ha => ?_⟩
  · rw [hget, List.mem_singleton]
    by_cases ha : a = e.1
    · rw [if_pos ha, ha, h, Prod.ext_iff]
      simp [eq_comm]
    · rw [if_neg ha, Prod.ext_iff]
      simp [ha]
  · rw [hget, if_neg ha]

theorem registerFuncTraps_spec (f : Allocated) {registry : TrapRegistry} (guards : List Nat)
    {traps : List TrapInformation} (hnew : ∀ t ∈ traps, registry.getTrap (f.entry t).1 = none)
    (hnodup : ((traps.map f.entry).map Prod.fst).Nodup) :
    ∃ registry' guards', registerFuncTraps f registry guards traps = some (registry', guards') ∧
      Registers registry guards (traps.map f.entry) registry' guards' := by
  induction traps generalizing registry guards with
  | nil => exact ⟨_, _, rfl, .nil registry guards⟩
  | cons t traps ih =>
    rw [List.map_cons, List.map_cons, List.nodup_cons] at hnodup
    obtain ⟨registry₁, hregister, hone, hother⟩ := registers_one guards (hnew t List.mem_cons_self)
    have hrest : ∀ t' ∈ traps, registry₁.getTrap (f.entry t').1 = none := by
      intro t' ht'
      rw [hother]
      · exact hnew t' (List.mem_cons_of_mem _ ht')
      · intro heq
        exact hnodup.1 (heq ▸ List.mem_map_of_mem (List.mem_map_of_mem ht'))
    obtain ⟨registry', guards', hret, hregisters⟩ := ih (guards ++ [(f.entry t).1]) hrest hnodup.2
    refine ⟨registry', guards', ?_, hone.append hregisters⟩
    rw [registerFuncTraps]
    exact (congrArg (Option.bind · _) hregister).trans hret

/-- `register_traps` of traps whose addresses are not registered, and differ. -/
theorem registerTraps_spec {registry : TrapRegistry} (guards : List Nat) {functions : List Allocated}
    (hnew : ∀ e ∈ functions.flatMap Allocated.entries, registry.getTrap e.1 = none)
    (hnodup : ((functions.flatMap Allocated.entries).map Prod.fst).Nodup) :
    ∃ registry' guards', registerTraps registry guards functions = some (registry', guards') ∧
      Registers registry guards (functions.flatMap Allocated.entries) registry' guards' := by
  induction functions generalizing registry guards with
  | nil => exact ⟨_, _, rfl, .nil registry guards⟩
  | cons f functions ih =>
    rw [List.flatMap_cons] at hnew hnodup ⊢
    rw [List.map_append, List.nodup_append'] at hnodup
    obtain ⟨hf, hfunctions, hdisjoint⟩ := hnodup
    obtain ⟨registry₁, guards₁, hret₁, hregisters₁⟩ := registerFuncTraps_spec f guards
      (fun t ht => hnew _ (List.mem_append_left _ (List.mem_map_of_mem ht))) hf
    have hrest : ∀ e ∈ functions.flatMap Allocated.entries, registry₁.getTrap e.1 = none := by
      intro e he
      refine Option.eq_none_iff_forall_ne_some.mpr fun d hd => ?_
      obtain hd | hd := (hregisters₁.getTrap e.1 d).mp hd
      · rw [hnew e (List.mem_append_right _ he)] at hd
        cases hd
      · have hhere : e.1 ∈ f.entries.map Prod.fst := List.mem_map.mpr ⟨_, hd, rfl⟩
        have hthere : e.1 ∈ (functions.flatMap Allocated.entries).map Prod.fst := List.mem_map_of_mem he
        exact hdisjoint hhere hthere
    obtain ⟨registry', guards', hret, hregisters⟩ := ih guards₁ hrest hfunctions
    refine ⟨registry', guards', ?_, hregisters₁.append hregisters⟩
    rw [registerTraps, hret₁]
    exact hret

/-! ## The mappings of a code memory -/

section

variable {host : Host} {os : Os} {m m' : Code.CodeMemory}

/-- A mapping that one call may add. -/
def Added (host : Host) (os : Os) (size : Nat) (e : Extent) : Prop :=
  e.len = 0 ∨ ∃ ptr, os.mmap = some ptr ∧
    e = ⟨ptr, Mmap.roundUpToPageSize (max 0x10000 size) host.pageSize⟩

theorem extents_eq (m : Code.CodeMemory) :
    extents m = m.mmaps.map Code.CodeMmap.extent ++ [m.current.extent] := by
  rw [extents, Code.CodeMemory.live, List.map_append, List.map_singleton]

theorem extents_copyFromSlice (block : Extent) (slice : List UInt8) :
    extents (m.copyFromSlice block slice) = extents m := by
  rw [extents_eq, extents_eq]
  rfl

theorem extents_take {size : Nat} {new : Extent} (h : m.take size = .ret (some new) m') :
    extents m' = extents m := by
  rw [Code.take_eq] at h
  split at h
  · cases h
    rfl
  · cases h

theorem extents_allocate {size : Nat} {new : Extent} (h : m.allocate host os size = .ret (some new) m') :
    ∀ e ∈ extents m', e ∈ extents m ∨ Added host os size e := by
  unfold Code.CodeMemory.allocate at h
  split at h
  · split at h
    · rename_i m₁ hm₁
      intro e he
      rw [extents_take h, extents_eq] at he
      obtain he | he := List.mem_append.mp he
      · exact .inl he
      · obtain rfl := List.mem_singleton.mp he
        refine .inr ((Mmap.withAtLeast_ptr hm₁).imp_right fun hptr => ⟨m₁.ptr, hptr, ?_⟩)
        exact Extent.ext rfl (Mmap.withAtLeast_len hm₁)
    · cases h
    · cases h
  · rw [extents_take h]
    exact fun e he => .inl he

theorem extents_copyBlocks {tail : Extent} {slices : List (List UInt8)} {result : List Extent}
    (h : m.copyBlocks tail slices = .ret (some result) m') : extents m' = extents m := by
  induction slices generalizing m tail result with
  | nil =>
    cases h
    rfl
  | cons slice slices ih =>
    unfold Code.CodeMemory.copyBlocks at h
    split at h
    · obtain ⟨rest, d, hrest, hd⟩ := Code.Called.andThen_eq_some h
      cases hd
      rw [ih hrest, extents_copyFromSlice]
    · cases h

/-- What a call leaves: what was handed out, and what it maps. -/
structure Leaves (host : Host) (os : Os) (size : Nat) (m m' : Code.CodeMemory) (handed : List Code.Handed) :
    Prop where
  inv : Code.Inv m' m'.position handed
  extents : ∀ e ∈ extents m', e ∈ extents m ∨ Added host os size e

theorem Leaves.rfl {size : Nat} {handed : List Code.Handed} (h : Code.Inv m m.position handed) :
    Leaves host os size m m handed :=
  ⟨h, fun _ he => .inl he⟩

theorem leaves_slices {handed : List Code.Handed} (h : Code.Inv m m.position handed) {slices : List (List UInt8)}
    (hos : Code.MapsApart host os m (Code.CodeMemory.totalLen slices)) {r : Option (List Extent)}
    (hret : m.allocateCopyOfByteSlices host os slices = .ret r m') :
    Leaves host os (Code.CodeMemory.totalLen slices) m m'
        (handed ++ List.zipWith Code.Handed.mk (r.getD []) slices) ∧
      ∀ result, r = some result → ∃ start, result = Extent.consecutive start (slices.map List.length) := by
  cases r with
  | none =>
    obtain rfl := Code.allocate_none (Code.Called.andThen_eq_none (fun _ _ => Code.copyBlocks_ne_none) hret)
    rw [Option.getD_none, List.zipWith_nil_left, List.append_nil]
    exact ⟨.rfl h, fun result hr => by cases hr⟩
  | some result =>
    obtain ⟨hinv, -, start, hresult⟩ := h.allocateCopyOfByteSlices hos hret
    obtain ⟨new, d, hnew, hblocks⟩ := Code.Called.andThen_eq_some hret
    refine ⟨⟨hinv, ?_⟩, fun result' hr => ⟨start, ?_⟩⟩
    · rw [extents_copyBlocks hblocks]
      exact extents_allocate hnew
    · rw [← Option.some.inj hr]
      exact hresult

theorem leaves_slice {handed : List Code.Handed} (h : Code.Inv m m.position handed) {bytes : List UInt8}
    (hos : Code.MapsApart host os m bytes.length) {r : Option Extent}
    (hret : m.allocateCopyOfByteSlice host os bytes = .ret r m') :
    ∃ more, Leaves host os bytes.length m m' (handed ++ more) := by
  cases r with
  | none =>
    obtain rfl := Code.allocate_none (Code.Called.andThen_eq_none (fun _ _ hd => by cases hd) hret)
    exact ⟨[], by rw [List.append_nil]; exact .rfl h⟩
  | some slice =>
    obtain ⟨hinv, -⟩ := h.allocateCopyOfByteSlice hos hret
    obtain ⟨new, d, hnew, hd⟩ := Code.Called.andThen_eq_some hret
    refine ⟨_, hinv, ?_⟩
    cases hd
    rw [extents_copyFromSlice]
    exact extents_allocate hnew

theorem leaves_publish {os' : Os} {handed : List Code.Handed} (h : Code.Inv m m.position handed)
    {r : Option Unit}
    (hret : m.publish os = .ret r m') : Leaves host os' 0 m m' handed := by
  cases r with
  | none =>
    rw [Code.publish_eq] at hret
    split at hret <;> cases hret
  | some u =>
    obtain ⟨hinv, hposition, -⟩ := h.publish hret
    rw [← hposition] at hinv
    refine ⟨hinv, fun e he => ?_⟩
    rw [Code.publish_eq] at hret
    split at hret
    · cases hret
      rw [extents_eq] at he
      obtain he | he := List.mem_append.mp he
      · rw [Code.publishedMmaps_extent] at he
        exact .inl he
      · obtain rfl := List.mem_singleton.mp he
        exact .inr (.inl rfl)
    · cases hret

end

/-! ## A compiler -/

/-- The functions that are allocated and not registered yet. -/
def Phase.pending : Phase → List Allocated
  | .registering functions => functions
  | _ => []

/-- All functions that a compiler has allocated. -/
def Compiler.functions (c : Compiler) : List Allocated := c.compiled ++ c.phase.pending

theorem functions_of_pending {c : Compiler} (h : c.phase.pending = []) : c.functions = c.compiled := by
  rw [Compiler.functions, h, List.append_nil]

/-- A guard of the compiler stands for this entry. -/
def Compiler.Registered (c : Compiler) (a : Nat) (d : TrapDescription) : Prop :=
  (a, d) ∈ c.compiled.flatMap Allocated.entries ∧ a ∈ c.trapRegistrationGuards

/-- The code of the functions is where the code memory has put it, and the guards are those of their traps. -/
structure Compiler.Ok (c : Compiler) : Prop where
  code : ∃ handed, Code.Inv c.codeMemory c.codeMemory.position handed ∧
    (c.functions.map Allocated.body).Sublist (handed.map Code.Handed.slice)
  traps : ∀ f ∈ c.functions, TrapsOf f.body.len f.traps
  guards : c.trapRegistrationGuards <:+ (c.compiled.flatMap Allocated.entries).map Prod.fst
  all : c.phase ≠ .dropping →
    c.trapRegistrationGuards = (c.compiled.flatMap Allocated.entries).map Prod.fst

theorem Compiler.ok_new : Compiler.new.Ok where
  code := ⟨[], .new, List.Sublist.refl _⟩
  traps := fun _ hf => absurd hf List.not_mem_nil
  guards := List.suffix_rfl
  all := fun _ => rfl

theorem TrapsOf.nodup_entries {f : Allocated} (h : TrapsOf f.body.len f.traps) :
    (f.entries.map Prod.fst).Nodup := by
  rw [Allocated.entries, List.map_map]
  refine List.Nodup.map_on (fun t ht t' ht' heq => ?_) (List.Nodup.of_map _ h.nodup)
  have hoffset : t.codeOffset = t'.codeOffset := UInt32.toNat_inj.mp (Nat.add_left_cancel heq)
  exact List.inj_on_of_nodup_map h.nodup ht ht' hoffset

theorem TrapsOf.covers {f : Allocated} (h : TrapsOf f.body.len f.traps) {a : Nat} (ha : a ∈ f.entries.map Prod.fst) :
    f.body.Covers a := by
  rw [Allocated.entries, List.map_map] at ha
  obtain ⟨t, ht, rfl⟩ := List.mem_map.mp ha
  exact ⟨Nat.le_add_right _ _, Nat.add_lt_add_left (h.inside t ht) _⟩

namespace Compiler.Ok

variable {c : Compiler}

/-- No two traps of a compiler have one address. -/
theorem nodup (h : c.Ok) : ((c.functions.flatMap Allocated.entries).map Prod.fst).Nodup := by
  obtain ⟨handed, hinv, hsub⟩ := h.code
  have hapart : (c.functions.map Allocated.body).Pairwise Extent.Apart :=
    (List.pairwise_map.mpr hinv.apart).sublist hsub
  rw [List.map_flatMap, List.nodup_flatMap]
  refine ⟨fun f hf => (h.traps f hf).nodup_entries, ?_⟩
  refine (List.pairwise_map.mp hapart).imp_of_mem fun {f f'} hf hf' hff => ?_
  exact fun a ha ha' => hff a ((h.traps f hf).covers ha) ((h.traps f' hf').covers ha')

/-- A trap is in a mapping of its compiler. -/
theorem mapped (h : c.Ok) {a : Nat} {d : TrapDescription} (hd : (a, d) ∈ c.functions.flatMap Allocated.entries) :
    ∃ e ∈ extents c.codeMemory, e.Covers a := by
  obtain ⟨handed, hinv, hsub⟩ := h.code
  obtain ⟨f, hf, hd⟩ := List.mem_flatMap.mp hd
  have hcovers := (h.traps f hf).covers (List.mem_map.mpr ⟨_, hd, rfl⟩)
  obtain ⟨x, hx, hslice⟩ := List.mem_map.mp (hsub.subset (List.mem_map_of_mem hf))
  obtain ⟨m, hm, hholds⟩ := hinv.sound.kept x hx
  exact ⟨m.extent, List.mem_map_of_mem hm, hholds.within.covers (hslice ▸ hcovers)⟩

theorem mapped_compiled (h : c.Ok) {a : Nat} {d : TrapDescription}
    (hd : (a, d) ∈ c.compiled.flatMap Allocated.entries) : ∃ e ∈ extents c.codeMemory, e.Covers a := by
  obtain ⟨f, hf, hd⟩ := List.mem_flatMap.mp hd
  exact h.mapped (List.mem_flatMap.mpr ⟨f, List.mem_append_left _ hf, hd⟩)

theorem nodup_compiled (h : c.Ok) : ((c.compiled.flatMap Allocated.entries).map Prod.fst).Nodup := by
  have hnodup := h.nodup
  rw [Compiler.functions, List.flatMap_append, List.map_append] at hnodup
  exact (List.nodup_append'.mp hnodup).1

end Compiler.Ok

/-! ## The invariant -/

section

variable {host : Host} {s : State J} {j : J} {c : Compiler}

/-- A compiler with another name. -/
def State.Other (s : State J) (j : J) (o : Compiler) : Prop := ∃ i, i ≠ j ∧ s.compilers i = some o

/-- No mapping of the one is in the way of one of the other. -/
def MappedApart (c o : Compiler) : Prop :=
  ∀ e ∈ extents c.codeMemory, ∀ e' ∈ extents o.codeMemory, e.Apart e'

/-- What holds between two steps: the registry has what the guards of the compilers are for. -/
structure Ok (s : State J) : Prop where
  compilers : ∀ j c, s.compilers j = some c → c.Ok
  apart : ∀ j c, s.compilers j = some c → ∀ o, s.Other j o → MappedApart c o
  registered : ∀ a d, s.registry.getTrap a = some d ↔ ∃ j c, s.compilers j = some c ∧ c.Registered a d

theorem ok_start : Ok (State.start J) where
  compilers := fun _ _ h => by cases h
  apart := fun _ _ h => by cases h
  registered := fun a d => by
    constructor
    · intro h
      cases h
    · rintro ⟨_, _, h, _⟩
      cases h

/-- What is registered is so by one compiler, or by the others. -/
theorem Ok.registered_iff (h : Ok s) (j : J) {a : Nat} {d : TrapDescription} :
    s.registry.getTrap a = some d ↔ (∃ c, s.compilers j = some c ∧ c.Registered a d) ∨
      ∃ o, s.Other j o ∧ o.Registered a d := by
  rw [h.registered]
  constructor
  · rintro ⟨i, c, hi, hc⟩
    by_cases hij : i = j
    · exact .inl ⟨c, hij ▸ hi, hc⟩
    · exact .inr ⟨c, ⟨i, hij, hi⟩, hc⟩
  · rintro (⟨c, hj, hc⟩ | ⟨o, ⟨i, -, hi⟩, ho⟩)
    · exact ⟨j, c, hj, hc⟩
    · exact ⟨i, o, hi, ho⟩

/-- No other compiler has a trap where this one has code. -/
theorem Ok.not_other (h : Ok s) (hj : s.compilers j = some c) {a : Nat}
    (hmapped : ∃ e ∈ extents c.codeMemory, e.Covers a) {o : Compiler} (ho : s.Other j o) {d : TrapDescription} :
    ¬ o.Registered a d := by
  intro hd
  obtain ⟨e, he, hcovers⟩ := hmapped
  obtain ⟨i, hij, hi⟩ := ho
  obtain ⟨e', he', hcovers'⟩ := (h.compilers i o hi).mapped_compiled hd.1
  exact h.apart j c hj o ⟨i, hij, hi⟩ e he e' he' a hcovers hcovers'

theorem mappedApart_added (h : Ok s) (hj : s.compilers j = some c) {os : Os} {size : Nat}
    (hfresh : FreshMapping host os size s) {c' : Compiler}
    (hadded : ∀ e ∈ extents c'.codeMemory, e ∈ extents c.codeMemory ∨ Added host os size e) {o : Compiler}
    (ho : s.Other j o) : MappedApart c' o := by
  intro e he e' he'
  obtain hold | hempty | ⟨ptr, hptr, rfl⟩ := hadded e he
  · exact h.apart j c hj o ho e hold e' he'
  · intro x hx
    rw [Extent.Covers, Extent.stop, hempty] at hx
    omega
  · obtain ⟨i, -, hi⟩ := ho
    exact hfresh ptr hptr i o hi e' he'

theorem FreshMapping.mapsApart {os : Os} {size : Nat} (h : FreshMapping host os size s)
    (hj : s.compilers j = some c) : Code.MapsApart host os c.codeMemory size :=
  fun ptr hptr _ hm => h ptr hptr j c hj _ (List.mem_map_of_mem hm)

variable [DecidableEq J]

/-- One compiler changes, and the registry with it. -/
theorem Ok.update (h : Ok s) {c' : Option Compiler} {registry : TrapRegistry} (hok : ∀ c, c' = some c → c.Ok)
    (hapart : ∀ c, c' = some c → ∀ o, s.Other j o → MappedApart c o)
    (hregistered : ∀ a d, registry.getTrap a = some d ↔ (∃ c, c' = some c ∧ c.Registered a d) ∨
      ∃ o, s.Other j o ∧ o.Registered a d) : Ok (State.set ⟨registry, s.compilers⟩ j c') := by
  have hself : (State.set ⟨registry, s.compilers⟩ j c').compilers j = c' := Function.update_self ..
  have hother : ∀ i, i ≠ j → (State.set ⟨registry, s.compilers⟩ j c').compilers i = s.compilers i :=
    fun i hi => Function.update_of_ne hi ..
  constructor
  · intro i c hi
    by_cases hij : i = j
    · rw [hij, hself] at hi
      exact hok c hi
    · rw [hother i hij] at hi
      exact h.compilers i c hi
  · rintro i c hi o ⟨i', hne, ho⟩
    by_cases hij : i = j
    · rw [hij, hself] at hi
      rw [hij] at hne
      rw [hother i' hne] at ho
      exact hapart c hi o ⟨i', hne, ho⟩
    · rw [hother i hij] at hi
      by_cases hij' : i' = j
      · rw [hij', hself] at ho
        exact fun e he e' he' => (hapart o ho c ⟨i, hij, hi⟩ e' he' e he).symm
      · rw [hother i' hij'] at ho
        exact h.apart i c hi o ⟨i', hne, ho⟩
  · intro a d
    refine (hregistered a d).trans ⟨?_, ?_⟩
    · rintro (⟨c, hc, hd⟩ | ⟨o, ⟨i, hij, ho⟩, hd⟩)
      · exact ⟨j, c, hself.trans hc, hd⟩
      · exact ⟨i, o, (hother i hij).trans ho, hd⟩
    · rintro ⟨i, c, hi, hd⟩
      by_cases hij : i = j
      · rw [hij, hself] at hi
        exact .inl ⟨c, hi, hd⟩
      · rw [hother i hij] at hi
        exact .inr ⟨c, ⟨i, hij, hi⟩, hd⟩

theorem after_compiled {α : Type} (r : Code.Called α) (f : α → Phase) : (c.after r f).compiled = c.compiled := by
  unfold Compiler.after
  split <;> rfl

theorem after_guards {α : Type} (r : Code.Called α) (f : α → Phase) :
    (c.after r f).trapRegistrationGuards = c.trapRegistrationGuards := by
  unfold Compiler.after
  split <;> rfl

/-- What a call on the code memory has to do. -/
def CallOk {α : Type} (host : Host) (os : Os) (size : Nat) (f : α → Phase) (m : Code.CodeMemory)
    (r : Code.Called α) : Prop :=
  ∀ handed, Code.Inv m m.position handed → ∀ a m', r = .ret a m' →
    ∃ more, Leaves host os size m m' (handed ++ more) ∧ ∀ b, a = some b → f b ≠ .dropping ∧
      ((f b).pending.map Allocated.body).Sublist (more.map Code.Handed.slice) ∧
      ∀ g ∈ (f b).pending, TrapsOf g.body.len g.traps

/-- A ready compiler after a call. -/
theorem Compiler.Ok.after (h : c.Ok) (hready : c.phase = .ready) {α : Type} {os : Os} {size : Nat} {r : Code.Called α}
    {f : α → Phase} (hcall : CallOk host os size f c.codeMemory r) :
    (c.after r f).Ok ∧ ∀ e ∈ extents (c.after r f).codeMemory, e ∈ extents c.codeMemory ∨ Added host os size e := by
  obtain ⟨handed, hinv, hsub⟩ := h.code
  have hall := h.all (by rw [hready]; exact Phase.noConfusion)
  have htraps := h.traps
  rw [functions_of_pending (congrArg Phase.pending hready)] at hsub htraps
  cases r with
  | panic =>
    refine ⟨⟨⟨handed, hinv, ?_⟩, ?_, h.guards, fun _ => hall⟩, fun e he => .inl he⟩
    · rw [functions_of_pending]
      · exact hsub
      · rfl
    · rw [functions_of_pending]
      · exact htraps
      · rfl
  | ret a m' =>
    obtain ⟨more, hleaves, hsome⟩ := hcall handed hinv a m' rfl
    cases a with
    | none =>
      refine ⟨⟨⟨_, hleaves.inv, ?_⟩, ?_, h.guards, fun _ => hall⟩, hleaves.extents⟩
      · rw [functions_of_pending, List.map_append]
        · exact hsub.trans (List.sublist_append_left _ _)
        · exact congrArg Phase.pending hready
      · rw [functions_of_pending]
        · exact htraps
        · exact congrArg Phase.pending hready
    | some b =>
      obtain ⟨-, hpending, hpendingTraps⟩ := hsome b rfl
      refine ⟨⟨⟨_, hleaves.inv, ?_⟩, ?_, h.guards, fun _ => hall⟩, hleaves.extents⟩
      · rw [Compiler.after, Compiler.functions, List.map_append, List.map_append]
        exact hsub.append hpending
      · rw [Compiler.after, Compiler.functions]
        intro g hg
        obtain hg | hg := List.mem_append.mp hg
        · exact htraps g hg
        · exact hpendingTraps g hg

/-- A call on the code memory of a compiler that is ready. -/
theorem Ok.call (h : Ok s) {α : Type} {os : Os} {size : Nat} (hfresh : FreshMapping host os size s)
    (r : Compiler → Code.Called α) (f : α → Phase)
    (hcall : ∀ c, s.compilers j = some c → CallOk host os size f c.codeMemory (r c)) :
    Ok (s.onReady j fun c => c.after (r c) f) := by
  unfold State.onReady
  split
  · rename_i c hc
    split
    · rename_i hready
      obtain ⟨hok, hadded⟩ := (h.compilers j c hc).after hready (hcall c hc)
      refine h.update (fun c' hc' => ?_) (fun c' hc' o ho => ?_) fun a d => ?_
      · rw [← Option.some.inj hc']
        exact hok
      · rw [← Option.some.inj hc']
        exact mappedApart_added h hc hfresh hadded ho
      · have hsame : (c.after (r c) f).Registered a d ↔ c.Registered a d := by
          rw [Compiler.Registered, Compiler.Registered, after_compiled, after_guards]
        rw [h.registered_iff j, hc]
        simp only [Option.some.injEq, exists_eq_left', hsame]
    · exact h
  · exact h

end

/-! ## The steps -/

/-- The functions of `compile` are at the slices that were handed out. -/
theorem map_body_zipWith (start : Nat) (functions : List (List UInt8 × List TrapInformation)) :
    (List.zipWith Allocated.mk (Extent.consecutive start ((functions.map Prod.fst).map List.length))
        (functions.map Prod.snd)).map Allocated.body =
      (List.zipWith Code.Handed.mk (Extent.consecutive start ((functions.map Prod.fst).map List.length))
        (functions.map Prod.fst)).map Code.Handed.slice := by
  induction functions generalizing start with
  | nil => rfl
  | cons p functions ih =>
    simp only [List.map_cons, Extent.consecutive, List.zipWith_cons_cons]
    rw [ih]

theorem trapsOf_zipWith {start : Nat} {functions : List (List UInt8 × List TrapInformation)}
    (h : ∀ p ∈ functions, TrapsOf p.1.length p.2) :
    ∀ g ∈ List.zipWith Allocated.mk (Extent.consecutive start ((functions.map Prod.fst).map List.length))
      (functions.map Prod.snd), TrapsOf g.body.len g.traps := by
  induction functions generalizing start with
  | nil => exact fun _ hg => absurd hg List.not_mem_nil
  | cons p functions ih =>
    intro g hg
    simp only [List.map_cons, Extent.consecutive, List.zipWith_cons_cons] at hg
    obtain rfl | hg := List.mem_cons.mp hg
    · exact h p List.mem_cons_self
    · exact ih (fun q hq => h q (List.mem_cons_of_mem _ hq)) g hg

section

variable [DecidableEq J] {host : Host} {s : State J} {j : J} {c : Compiler}

theorem Ok.makeTrampoline (h : Ok s) {os : Os} {code : List UInt8} (hfresh : FreshMapping host os code.length s) :
    Ok (s.onReady j fun c => c.makeTrampoline host os code) := by
  refine h.call hfresh (fun c => c.codeMemory.allocateCopyOfByteSlice host os code) (fun _ => .ready) ?_
  intro c hc handed hinv r m' hret
  obtain ⟨more, hleaves⟩ := leaves_slice hinv (hfresh.mapsApart hc) hret
  refine ⟨more, hleaves, fun b _ => ⟨Phase.noConfusion, List.nil_sublist _, fun g hg => ?_⟩⟩
  exact absurd hg List.not_mem_nil

theorem Ok.publishCompiledCode (h : Ok s) (os : Os) : Ok (s.onReady j fun c => c.publishCompiledCode os) := by
  have hfresh : FreshMapping ⟨0, Nat.zero_le 16⟩ ⟨none, true⟩ 0 s := fun ptr hptr => by cases hptr
  refine h.call hfresh (fun c => c.codeMemory.publish os) (fun _ => .ready) ?_
  intro c hc handed hinv r m' hret
  refine ⟨[], ?_, fun b _ => ⟨Phase.noConfusion, List.nil_sublist _, fun g hg => ?_⟩⟩
  · rw [List.append_nil]
    exact leaves_publish hinv hret
  · exact absurd hg List.not_mem_nil

theorem Ok.allocateFunctions (h : Ok s) {os : Os} {functions : List (List UInt8 × List TrapInformation)}
    (hfresh : FreshMapping host os (Code.CodeMemory.totalLen (functions.map Prod.fst)) s)
    (htraps : ∀ p ∈ functions, TrapsOf p.1.length p.2) :
    Ok (s.onReady j fun c => c.allocateFunctions host os functions) := by
  refine h.call hfresh (fun c => c.codeMemory.allocateCopyOfByteSlices host os (functions.map Prod.fst))
    (fun result => .registering (List.zipWith Allocated.mk result (functions.map Prod.snd))) ?_
  intro c hc handed hinv r m' hret
  obtain ⟨hleaves, hconsecutive⟩ := leaves_slices hinv (hfresh.mapsApart hc) hret
  refine ⟨_, hleaves, fun result hr => ⟨Phase.noConfusion, ?_, ?_⟩⟩
  · obtain ⟨start, rfl⟩ := hconsecutive result hr
    rw [hr, Option.getD_some, Phase.pending, map_body_zipWith]
  · obtain ⟨start, rfl⟩ := hconsecutive result hr
    exact trapsOf_zipWith htraps

theorem Ok.new (h : Ok s) (hj : s.compilers j = none) : Ok (s.set j (some .new)) := by
  refine h.update (fun c hc => ?_) (fun c hc o _ => ?_) fun a d => ?_
  · rw [← Option.some.inj hc]
    exact Compiler.ok_new
  · intro e he e' _ x hx
    rw [← Option.some.inj hc] at he
    obtain rfl := List.mem_singleton.mp he
    exact absurd hx.2 (Nat.not_lt.mpr hx.1)
  · have hnew : ¬ Compiler.new.Registered a d := fun hd => absurd hd.1 List.not_mem_nil
    rw [h.registered_iff j, hj]
    simp [hnew]

/-- A compiler that begins to be dropped keeps its guards for now. -/
theorem Ok.drop (h : Ok s) : Ok (s.onReady j fun c => { c with phase := .dropping }) := by
  have hfresh : FreshMapping ⟨0, Nat.zero_le 16⟩ ⟨none, true⟩ 0 s := fun ptr hptr => by cases hptr
  refine h.call hfresh (fun _ => (.panic : Code.Called Unit)) (fun _ => .ready) ?_
  intro c _ handed _ r m' hret
  cases hret

/-- **The assertion of `register_trap` holds.** Nothing is registered where this compiler has just put code. -/
theorem Ok.registerTraps (h : Ok s) : ∃ s', s.registerTraps j = some s' ∧ Ok s' := by
  unfold State.registerTraps
  split
  · rename_i c hc
    split
    · rename_i functions hphase
      have hok := h.compilers j c hc
      have hfunctions : c.functions = c.compiled ++ functions := by rw [Compiler.functions, hphase, Phase.pending]
      have hall := hok.all (by rw [hphase]; exact Phase.noConfusion)
      have hnodup := hok.nodup
      rw [hfunctions, List.flatMap_append, List.map_append, List.nodup_append'] at hnodup
      have hnew : ∀ e ∈ functions.flatMap Allocated.entries, s.registry.getTrap e.1 = none := by
        intro e he
        refine Option.eq_none_iff_forall_ne_some.mpr fun d hd => ?_
        obtain ⟨c', hc', hd⟩ | ⟨o, ho, hd⟩ := (h.registered_iff j).mp hd
        · obtain rfl := Option.some.inj (hc.symm.trans hc')
          exact hnodup.2.2 (List.mem_map.mpr ⟨_, hd.1, rfl⟩) (List.mem_map.mpr ⟨_, he, rfl⟩)
        · refine h.not_other hc (hok.mapped (d := e.2) ?_) ho hd
          rw [hfunctions, List.flatMap_append]
          exact List.mem_append_right _ he
      obtain ⟨registry', guards', hret, hregisters⟩ := registerTraps_spec c.trapRegistrationGuards hnew
        hnodup.2.1
      have hguards : guards' = ((c.compiled ++ functions).flatMap Allocated.entries).map Prod.fst := by
        rw [hregisters.guards, hall, List.flatMap_append, List.map_append]
      rw [hret]
      refine ⟨_, rfl, h.update (fun c' hc' => ?_) (fun c' hc' o ho => ?_) fun a d => ?_⟩
      · obtain rfl := Option.some.inj hc'
        have hcode := hok.code
        have htraps := hok.traps
        rw [hfunctions] at hcode htraps
        rw [← List.append_nil (c.compiled ++ functions)] at hcode htraps
        exact ⟨hcode, htraps, hguards ▸ List.suffix_rfl, fun _ => hguards⟩
      · obtain rfl := Option.some.inj hc'
        exact h.apart j c hc o ho
      · have hregistered : ∀ c', some (⟨c.codeMemory, guards', c.compiled ++ functions, .ready⟩ : Compiler) = some c' →
            (c'.Registered a d ↔ c.Registered a d ∨ (a, d) ∈ functions.flatMap Allocated.entries) := by
          rintro c' ⟨⟩
          rw [Compiler.Registered, Compiler.Registered, hguards, hall, List.flatMap_append, List.mem_append]
          constructor
          · rintro ⟨hd | hd, -⟩
            · exact .inl ⟨hd, List.mem_map.mpr ⟨_, hd, rfl⟩⟩
            · exact .inr hd
          · rintro (⟨hd, -⟩ | hd)
            · exact ⟨.inl hd, List.mem_map.mpr ⟨_, List.mem_append_left _ hd, rfl⟩⟩
            · exact ⟨.inr hd, List.mem_map.mpr ⟨_, List.mem_append_right _ hd, rfl⟩⟩
        rw [hregisters.getTrap, h.registered_iff j, hc]
        simp only [Option.some.injEq, exists_eq_left', hregistered _ rfl]
        exact or_right_comm
    · exact ⟨s, rfl, h⟩
  · exact ⟨s, rfl, h⟩

/-- **The assertion of `deregister_trap` holds.** A guard that is left stands for a trap that is registered. -/
theorem Ok.continueDrop (h : Ok s) : ∃ s', s.continueDrop j = some s' ∧ Ok s' := by
  unfold State.continueDrop
  split
  · rename_i c hc
    have hok := h.compilers j c hc
    split
    · rename_i hdropping
      split
      · rename_i hguards
        refine ⟨_, rfl, h.update (fun c' hc' => by cases hc') (fun c' hc' => by cases hc') fun a d => ?_⟩
        have hnone : ¬ c.Registered a d := fun hd => absurd (hguards ▸ hd.2) List.not_mem_nil
        rw [h.registered_iff j, hc]
        simp [hnone]
      · rename_i address guards hguards
        have hsuffix := hok.guards
        rw [hguards] at hsuffix
        obtain ⟨⟨address', desc⟩, hentry, haddress⟩ := List.mem_map.mp (hsuffix.subset List.mem_cons_self)
        obtain rfl : address = address' := haddress.symm
        have hregistered : c.Registered address desc := ⟨hentry, hguards ▸ List.mem_cons_self⟩
        obtain ⟨registry', hret, hget⟩ :=
          getTrap_deregisterTrap ((h.registered_iff j).mpr (.inl ⟨c, hc, hregistered⟩))
        have hnotMem : address ∉ guards :=
          (List.nodup_cons.mp (hok.nodup_compiled.sublist hsuffix.sublist)).1
        rw [hret]
        refine ⟨_, rfl, h.update (fun c' hc' => ?_) (fun c' hc' o ho => ?_) fun a d => ?_⟩
        · obtain rfl := Option.some.inj hc'
          refine ⟨hok.code, hok.traps, (List.suffix_cons _ _).trans hsuffix, fun hphase => ?_⟩
          exact absurd hdropping hphase
        · obtain rfl := Option.some.inj hc'
          exact h.apart j c hc o ho
        · rw [hget]
          by_cases ha : a = address
          · rw [if_pos ha, ha]
            refine ⟨fun hd => (by cases hd), ?_⟩
            rintro (⟨c', hc', hd⟩ | ⟨o, ho, hd⟩)
            · obtain rfl := Option.some.inj hc'
              exact absurd hd.2 hnotMem
            · exact absurd hd (h.not_other hc (hok.mapped_compiled hentry) ho)
          · have hsame : ∀ c', some { c with trapRegistrationGuards := guards } = some c' →
                (c'.Registered a d ↔ c.Registered a d) := by
              rintro c' ⟨⟩
              rw [Compiler.Registered, Compiler.Registered, hguards, List.mem_cons, or_iff_right ha]
            rw [if_neg ha, h.registered_iff j, hc]
            simp only [Option.some.injEq, exists_eq_left', hsame _ rfl]
    · exact ⟨s, rfl, h⟩
  · exact ⟨s, rfl, h⟩

/-- **Every step keeps the invariant**, and no assertion fails. -/
theorem Ok.step (h : Ok s) {e : Event J} (he : Promised host (some s) e) : ∃ s', s.step host e = some s' ∧ Ok s' := by
  cases e with
  | new j =>
    refine ⟨_, rfl, ?_⟩
    split
    · rename_i hnone
      exact h.new hnone
    · exact h
  | makeTrampoline j os code => exact ⟨_, rfl, h.makeTrampoline (he s rfl)⟩
  | publishCompiledCode j os => exact ⟨_, rfl, h.publishCompiledCode os⟩
  | allocateFunctions j os functions => exact ⟨_, rfl, h.allocateFunctions (he.1 s rfl) he.2⟩
  | registerTraps j => exact h.registerTraps
  | drop j => exact ⟨_, rfl, h.drop⟩
  | continueDrop j => exact h.continueDrop

end

/-! ## Runs -/

/-- A run in which no assertion has failed, and the invariant holds. -/
def Safe (s : Option (State J)) : Prop := ∃ s', s = some s' ∧ Ok s'

/-- What the registry has to say of the compilers. -/
structure Exact (s : State J) : Prop where
  /-- It has what a guard is for, and nothing else. -/
  registered : ∀ a d, s.registry.getTrap a = some d ↔ ∃ j c, s.compilers j = some c ∧ c.Registered a d
  /-- A trap of a function that has been compiled is found, until its compiler is dropped. -/
  found : ∀ j c, s.compilers j = some c → c.phase ≠ .dropping → ∀ f ∈ c.compiled, ∀ t ∈ f.traps,
    s.registry.getTrap (f.body.start + t.codeOffset.toNat) = some ⟨t.sourceLoc, t.trapCode⟩
  /-- What is found in the code of a compiler is a trap of that compiler. -/
  own : ∀ j c, s.compilers j = some c → ∀ m ∈ c.codeMemory.live, ∀ a, m.extent.Covers a → ∀ d,
    s.registry.getTrap a = some d → (a, d) ∈ c.compiled.flatMap Allocated.entries

theorem Ok.exact {s : State J} (h : Ok s) : Exact s := by
  refine ⟨h.registered, fun j c hc hphase f hf t ht => ?_, fun j c hc m hm a hcovers d hd => ?_⟩
  · have hentry : f.entry t ∈ c.compiled.flatMap Allocated.entries :=
      List.mem_flatMap.mpr ⟨f, hf, List.mem_map_of_mem ht⟩
    refine (h.registered _ _).mpr ⟨j, c, hc, hentry, ?_⟩
    rw [(h.compilers j c hc).all hphase]
    exact List.mem_map.mpr ⟨_, hentry, rfl⟩
  · obtain ⟨c', hc', hd⟩ | ⟨o, ho, hd⟩ := (h.registered_iff j).mp hd
    · obtain rfl := Option.some.inj (hc.symm.trans hc')
      exact hd.1
    · exact absurd hd (h.not_other hc ⟨m.extent, List.mem_map_of_mem hm, hcovers⟩ ho)

/-- **Headline.** Compilers that are made, compile and are dropped in any order, with a step of one between the steps of
the others, never fail an assertion of the registry. At any time it has the traps of the compilers that are alive: those
of a compiler that is not being dropped are all found, and no address in its code is taken for a trap of another one. -/
theorem registry_exact [DecidableEq J] {host : Host} {events : List (Event J)}
    (h : Runs.Along (step host) (Promised host) (some (.start J)) events) :
    ∃ s, Runs.run (step host) (some (.start J)) events = some s ∧ Exact s := by
  have hsafe : Safe (Runs.run (step host) (some (.start J)) events) := by
    refine h.inv ⟨_, rfl, ok_start⟩ fun s e hs he => ?_
    obtain ⟨s, rfl, hok⟩ := hs
    exact hok.step he
  obtain ⟨s, hs, hok⟩ := hsafe
  exact ⟨s, hs, hok.exact⟩

/-- A compiler with a function is dropped, and another one gets its address. -/
def oneAfterTheOther : List (Event (Fin 2)) :=
  [.new 0, .allocateFunctions 0 ⟨some 0x10000, true⟩ [([0x0f, 0x0b], [⟨0, 7, .unreachableCodeReached⟩])],
    .registerTraps 0, .drop 0, .continueDrop 0, .continueDrop 0, .new 1,
    .allocateFunctions 1 ⟨some 0x10000, true⟩ [([0x0f, 0x0b], [⟨0, 9, .unreachableCodeReached⟩])], .registerTraps 1]

theorem freshMapping_of_new {host : Host} {os : Os} {size : Nat} {s : State J}
    (h : ∀ j c, s.compilers j = some c → c = .new) : FreshMapping host os size s := by
  intro ptr _ j c hc e he x _ hx
  obtain rfl := h j c hc
  obtain rfl := List.mem_singleton.mp he
  exact absurd hx.2 (Nat.not_lt.mpr hx.1)

theorem registry_exact_oneAfterTheOther :
    ∃ s, Runs.run (step ⟨12, by decide⟩) (some (.start (Fin 2))) oneAfterTheOther = some s ∧ Exact s := by
  have htraps : ∀ loc, TrapsOf 2 [⟨0, loc, .unreachableCodeReached⟩] := by
    refine fun loc => ⟨List.nodup_singleton _, fun t ht => ?_⟩
    obtain rfl := List.mem_singleton.mp ht
    exact Nat.zero_lt_two
  refine registry_exact ⟨trivial, ⟨?_, ?_⟩, trivial, trivial, trivial, trivial, trivial, ⟨?_, ?_⟩, trivial, trivial⟩
  · intro s hs
    obtain rfl := Option.some.inj hs
    refine freshMapping_of_new fun j c hc => ?_
    obtain rfl | rfl : j = 0 ∨ j = 1 := by omega
    · exact (Option.some.inj hc).symm
    · cases hc
  · intro p hp
    obtain rfl := List.mem_singleton.mp hp
    exact htraps 7
  · intro s hs
    obtain rfl := Option.some.inj hs
    refine freshMapping_of_new fun j c hc => ?_
    obtain rfl | rfl : j = 0 ∨ j = 1 := by omega
    · cases hc
    · exact (Option.some.inj hc).symm
  · intro p hp
    obtain rfl := List.mem_singleton.mp hp
    exact htraps 9

end Wasmtime.Jit.TrapGuards
