import Wasmtime.Lightbeam.Flow

/-!
# Wasm and its microwasm mean the same

`translate_wasm` in `lightbeam/src/function_body.rs` compiles the stream that `MicrowasmConv`
yields (`lightbeam/src/microwasm.rs`), so a function does what its microwasm does.

* `SameRun`: a call returns the same values with the same trace, traps with the same trace, or
  goes on, and where it goes on the microwasm has every trace that the wasm has. The microwasm
  machine is never stuck.
* `MeaningPreserved`: the generator yields a stream, every call of it is such a run whatever the
  operators without control flow do, and every branch leaves exactly the parameters of its target.

Results:
* **`Func.sameRun`**: the calls of a validated and clean function are the same.
* **`meaningPreserved_iff`**: the meaning of a validated function is preserved when the function is
  clean, and only then.
* **`not_meaningPreserved_spin`**: `to_drop!` keeps as many elements as a loop has results, so
  a branch back to a loop with a result hands an operand over as the last local.
-/

namespace Wasmtime.Lightbeam

open Microwasm

/-! ## Runs that end -/

section Runs

variable {m : ModuleContext} {V W : Type} {I : Interp m V W} {prog : List OperatorFromWasm}
  {returns : BlockType}

/-- A run that has ended stays where it is. -/
theorem run_stop {s : State V W} {r : Status V W} {k n : Nat}
    (h : run I prog returns k s = r) (hr : ∀ s', r ≠ .running s') (hle : k ≤ n) :
    run I prog returns n s = r := by
  induction k generalizing n s with
  | zero => exact absurd h.symm (hr s)
  | succ k ih =>
    obtain ⟨n, rfl⟩ := Nat.exists_eq_add_of_le' hle
    rw [run] at h
    rw [← Nat.add_assoc, run]
    cases hs : step I prog returns s with
    | running s' =>
      rw [hs] at h
      exact ih h (Nat.le_add_left _ _)
    | returned vals eff =>
      rw [hs] at h
      exact h
    | trapped eff =>
      rw [hs] at h
      exact h
    | stuck =>
      rw [hs] at h
      exact h

/-- Two runs that have ended have ended alike. -/
theorem run_unique {s : State V W} {r r' : Status V W} {k n : Nat}
    (h : run I prog returns k s = r) (hr : ∀ s', r ≠ .running s')
    (h' : run I prog returns n s = r') (hr' : ∀ s', r' ≠ .running s') : r = r' := by
  rcases Nat.le_total k n with hle | hle
  · exact (run_stop h hr hle).symm.trans h'
  · exact h.symm.trans (run_stop h' hr' hle)

end Runs

/-! ## The same calls -/

/-- The microwasm call `micro` does what the wasm call `wasm` does: it ends alike, and where the
wasm goes on it goes on as far with the same trace. -/
structure SameRun {V W : Type} (wasm : Nat → Result V W) (micro : Nat → Status V W) : Prop where
  returned : ∀ vals eff,
    (∃ fuel, wasm fuel = .returned vals eff) ↔ ∃ n, micro n = .returned vals eff
  trapped : ∀ eff, (∃ fuel, wasm fuel = .trapped eff) ↔ ∃ n, micro n = .trapped eff
  running : ∀ fuel eff, wasm fuel = .running eff →
    ∃ n s, fuel ≤ n ∧ micro n = .running s ∧ s.eff = eff
  sound : ∀ fuel, wasm fuel ≠ .stuck
  safe : ∀ n, micro n ≠ .stuck

section SameRun

variable {m : ModuleContext} {V W : Type} {I : Interp m V W} {prog : List OperatorFromWasm}
  {returns : BlockType}

/-- How a run from `start` answers a call of the wasm function. -/
def Answers (I : Interp m V W) (prog : List OperatorFromWasm) (returns : BlockType)
    (start : State V W) (fuel : Nat) : Result V W → Prop
  | .returned vals eff => Reach I prog returns 0 start (.returned vals eff)
  | .trapped eff => Reach I prog returns 0 start (.trapped eff)
  | .running eff => ∃ s : State V W, s.eff = eff ∧ Reach I prog returns fuel start (.running s)
  | .stuck => False

/-- What a run does that has ended is what the wasm does: with more fuel than the run has steps
the wasm has ended too. -/
theorem answered {wasm : Nat → Result V W} {start : State V W}
    (h : ∀ fuel, Answers I prog returns start fuel (wasm fuel)) {n : Nat} {r : Status V W}
    (hn : run I prog returns n start = r) (hr : ∀ s, r ≠ .running s) :
    (∃ vals eff, wasm (n + 1) = .returned vals eff ∧ r = .returned vals eff) ∨
      ∃ eff, wasm (n + 1) = .trapped eff ∧ r = .trapped eff := by
  have ha := h (n + 1)
  cases hw : wasm (n + 1) with
  | returned vals eff =>
    rw [hw] at ha
    obtain ⟨k, -, hk⟩ := ha
    exact .inl ⟨vals, eff, rfl, run_unique hn hr hk (by simp)⟩
  | trapped eff =>
    rw [hw] at ha
    obtain ⟨k, -, hk⟩ := ha
    exact .inr ⟨eff, rfl, run_unique hn hr hk (by simp)⟩
  | running eff =>
    rw [hw] at ha
    obtain ⟨s, -, k, hle, hk⟩ := ha
    exact absurd ((run_stop hn hr (Nat.le_of_succ_le hle)).symm.trans hk) (hr s)
  | stuck =>
    rw [hw] at ha
    exact ha.elim

theorem SameRun.of_answers {wasm : Nat → Result V W} {start : State V W}
    (h : ∀ fuel, Answers I prog returns start fuel (wasm fuel)) :
    SameRun wasm fun n => run I prog returns n start where
  returned := by
    intro vals eff
    constructor
    · rintro ⟨fuel, hw⟩
      have ha := h fuel
      rw [hw] at ha
      obtain ⟨k, -, hk⟩ := ha
      exact ⟨k, hk⟩
    · rintro ⟨n, hn⟩
      rcases answered h hn (by simp) with ⟨vals', eff', hw, heq⟩ | ⟨eff', -, heq⟩
      · cases heq
        exact ⟨n + 1, hw⟩
      · cases heq
  trapped := by
    intro eff
    constructor
    · rintro ⟨fuel, hw⟩
      have ha := h fuel
      rw [hw] at ha
      obtain ⟨k, -, hk⟩ := ha
      exact ⟨k, hk⟩
    · rintro ⟨n, hn⟩
      rcases answered h hn (by simp) with ⟨vals', eff', -, heq⟩ | ⟨eff', hw, heq⟩
      · cases heq
      · cases heq
        exact ⟨n + 1, hw⟩
  running := by
    intro fuel eff hw
    have ha := h fuel
    rw [hw] at ha
    obtain ⟨s, hs, k, hle, hk⟩ := ha
    exact ⟨k, s, hle, hk, hs⟩
  sound := by
    intro fuel hw
    have ha := h fuel
    rw [hw] at ha
    exact ha
  safe := by
    intro n hn
    rcases answered h hn (by simp) with ⟨vals, eff, -, heq⟩ | ⟨eff, -, heq⟩ <;> cases heq

/-- The declared locals are pushed in order. -/
theorem reach_consts (tys : List SignlessType) (ops : List OperatorFromWasm) (stack : List V)
    (eff : Effects V W) :
    Reach I prog returns 0
      ⟨(tys.map fun ty => .plain (.const (.defaultForType ty))) ++ ops, stack, eff⟩
      (.running ⟨ops, (tys.map fun ty => I.const (.defaultForType ty)).reverse ++ stack, eff⟩) := by
  induction tys generalizing stack with
  | nil => exact reach_refl _
  | cons ty tys ih =>
    have hstep : step I prog returns ⟨.plain (.const (.defaultForType ty)) ::
        ((tys.map fun ty => .plain (.const (.defaultForType ty))) ++ ops), stack, eff⟩ =
        .running ⟨(tys.map fun ty => .plain (.const (.defaultForType ty))) ++ ops,
          I.const (.defaultForType ty) :: stack, eff⟩ := rfl
    have := ih (I.const (.defaultForType ty) :: stack)
    rw [List.map_cons, List.map_cons, List.reverse_cons, List.append_assoc]
    exact Reach.step_then hstep this

/-- A return takes the results off the stack. -/
theorem jump_ret {stack : List V} (base : List V) (eff : Effects V W)
    (h : stack.length = returns.toList.length) :
    jump prog returns .ret (stack ++ base) eff = .returned stack eff := by
  simp [jump, ← h]

end SameRun

section Function

variable {m : ModuleContext} {V W : Type} {f : Func}

/-- The call of a clean function and of its microwasm. -/
theorem Func.answers (I : Interp m V W) (h : f.Validated m) (hclean : f.clean m = true)
    {args : List V} (hargs : args.length = f.type.params.length) (world : W) (fuel : Nat) :
    Answers I (f.microwasm m) f.type.returns ⟨f.microwasm m, args.reverse, ⟨world, []⟩⟩ fuel
      (f.eval I args world fuel) := by
  obtain ⟨o, ho, hc⟩ := h
  have hl : (args ++ f.declared.map fun ty => I.const (.defaultForType ty)).length =
      f.localTypes.length := by simp [Func.localTypes, hargs]
  obtain ⟨locals, hlocals⟩ : ∃ locals,
      locals = args ++ f.declared.map fun ty => I.const (.defaultForType ty) := ⟨_, rfl⟩
  obtain ⟨tail, htail⟩ : ∃ tail : List OperatorFromWasm,
      tail = if (f.emit m).unreachable then [] else [.br .ret] := ⟨_, rfl⟩
  have hprog : f.microwasm m = f.consts ++ ((f.emit m).ops ++ tail) := by
    rw [htail]
    rfl
  have hstart : Reach I (f.microwasm m) f.type.returns 0
      ⟨f.consts ++ ((f.emit m).ops ++ tail), args.reverse, ⟨world, []⟩⟩
      (.running ⟨(f.emit m).ops ++ tail, [] ++ locals.reverse, ⟨world, []⟩⟩) := by
    rw [hlocals, List.reverse_append]
    exact reach_consts ..
  rw [← hprog] at hstart
  have hbody : Ends I (f.microwasm m) f.type.returns fuel (f.context m) [f.frame]
      (f.emit m).frames (f.emit m).unreachable o
      ⟨(f.emit m).ops ++ tail, [] ++ locals.reverse, ⟨world, []⟩⟩ tail []
      (f.body.eval I fuel (f.context m) ⟨locals, [], ⟨world, []⟩⟩) :=
    f.body.simulates.inner [] ⟨world, []⟩ (f.setting m) rfl rfl (List.cons_ne_nil _ _) ho hclean
      hprog (rfl : ([] : List SignlessType).length = 0) (hlocals ▸ hl) rfl
  have hend := hbody.of_reach hstart
  rw [Func.eval, ← hlocals]
  cases hout : f.body.eval I fuel (f.context m) ⟨locals, [], ⟨world, []⟩⟩ with
  | normal s =>
    rw [hout] at hend
    obtain ⟨hu, ⟨seg, hseg, hlen⟩, -, hr⟩ := hend
    have hlen := hlen.trans (live_length hc seg hseg)
    rw [htail, hu] at hr
    exact (hr.trans (.of_step ((step_br ..).trans (jump_ret _ _ hlen)))).mono (Nat.zero_le _)
  | br d s =>
    rw [hout] at hend
    obtain ⟨⟨ty, hd, hlen⟩, -, -, hr⟩ := hend
    cases d with
    | zero =>
      cases hd
      rw [nthBlock_zero, show f.frame.brTarget = .ret from rfl, jump_ret _ _ hlen] at hr
      exact hr.mono (Nat.zero_le _)
    | succ d => cases hd
  | ret vals eff =>
    rw [hout] at hend
    exact hend
  | trap eff =>
    rw [hout] at hend
    exact hend
  | timeout eff =>
    rw [hout] at hend
    exact hend
  | stuck =>
    rw [hout] at hend
    exact hend

/-- **The calls of a validated and clean function are those of its microwasm.** -/
theorem Func.sameRun (I : Interp m V W) (h : f.Validated m) (hclean : f.clean m = true)
    {args : List V} (hargs : args.length = f.type.params.length) (world : W) :
    SameRun (f.eval I args world) (call I (f.microwasm m) f.type.returns args world) :=
  SameRun.of_answers fun fuel => f.answers I h hclean hargs world fuel

end Function

/-! ## The meaning of a function -/

/-- What `MicrowasmConv` promises of a function. -/
def MeaningPreserved (m : ModuleContext) (f : Func) : Prop :=
  ∃ prog, f.conv.stream m = some prog ∧
    (∀ (V W : Type) (I : Interp m V W) (args : List V) (world : W),
      args.length = f.type.params.length →
      SameRun (f.eval I args world) (call I prog f.type.returns args world)) ∧
    EdgesExact m prog f.type.returns f.type.params

/-- **The meaning of a validated function is preserved when no reachable branch goes to a loop with
a result while there are operands on top of the loop's**, and only then. -/
theorem meaningPreserved_iff {m : ModuleContext} {f : Func} (h : f.Validated m) :
    MeaningPreserved m f ↔ f.clean m = true := by
  constructor
  · rintro ⟨prog, hprog, -, hedges⟩
    cases (stream_conv h).symm.trans hprog
    exact (edgesExact_iff h).mp hedges
  · intro hclean
    exact ⟨f.microwasm m, stream_conv h,
      fun V W I args world hargs => f.sameRun I h hclean hargs world,
      (edgesExact_iff h).mpr hclean⟩

/-- `(func (param i32) (result i32) (loop (result i32) (i32.const 0) (br_if 0 (local.get 0))))`. -/
def spin : Func where
  type := ⟨[I32], some I32⟩
  locals := []
  body := .loop (some I32) (.simple (.plain (.const (.i32 0))) (.simple (.getLocal 0)
    (.brIf 0 .nil))) .nil

theorem spin_validated : spin.Validated emptyModule :=
  ⟨.live [I32], by decide, by decide⟩

/-- Numbers, with every operator a constant zero. -/
def zeros : Interp emptyModule Nat Unit where
  const v := if v = .i32 1 then 1 else 0
  act p w _ := some ((p.sig emptyModule).2.map fun _ => 0, w)
  truthy v := v != 0
  index v := v
  result := by
    intro p w args r w' h
    cases h
    simp

/-- Called with 1 the function never ends. -/
theorem spin_running (fuel : Nat) : spin.eval zeros [1] () fuel = .running ⟨(), []⟩ := by
  have hloop : ∀ n, Outcome.iterate (Code.eval zeros fuel ((spin.context emptyModule).enter none)
      (.simple (.plain (.const (.i32 0))) (.simple (.getLocal 0) (.brIf 0 .nil)))) n
        ⟨[1], [], ⟨(), []⟩⟩ = .timeout ⟨(), []⟩ := by
    intro n
    induction n with
    | zero => rfl
    | succ n ih => exact ih
  change Outcome.toResult (Outcome.leaveLoop _ _ (Outcome.iterate _ fuel ⟨[1], [], ⟨(), []⟩⟩)) = _
  rw [hloop]
  rfl

/-- Its microwasm takes the constant for the local and returns. -/
theorem spin_returned :
    call zeros (spin.microwasm emptyModule) (some I32) [1] () 12 = .returned [0] ⟨(), []⟩ := rfl

theorem not_meaningPreserved_spin :
    spin.Validated emptyModule ∧ ¬ MeaningPreserved emptyModule spin := by
  refine ⟨spin_validated, ?_⟩
  rintro ⟨prog, hprog, hsame, -⟩
  cases (stream_conv spin_validated).symm.trans hprog
  obtain ⟨fuel, hw⟩ := ((hsame Nat Unit zeros [1] () rfl).returned [0] ⟨(), []⟩).mpr
    ⟨12, spin_returned⟩
  rw [spin_running] at hw
  cases hw

theorem meaningPreserved_leaveLoop :
    leaveLoop.Validated emptyModule ∧ leaveLoop.clean emptyModule = true ∧
      MeaningPreserved emptyModule leaveLoop :=
  ⟨leaveLoop_validated, rfl, (meaningPreserved_iff leaveLoop_validated).mpr rfl⟩

end Wasmtime.Lightbeam
