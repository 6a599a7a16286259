import Wasmtime.Lightbeam.Emit

/-!
# What wasm and microwasm mean

Two semantics for the same operators, so that a function can be compared with its microwasm.

* `Interp` leaves the operators without control flow uninterpreted: any action on any world, any
  way to trap, any reading of a condition and of a table index. Constants are values, and every
  other operator leaves its operands in the trace, so that a trace has every call, load and store.
* `Code.eval` is the semantics of structured wasm code. A loop runs at most `fuel` iterations,
  and `Outcome.timeout` keeps the trace up to there; nothing else can fail to end.
* `Microwasm.step` is the machine that the comments on `Operator` in
  `lightbeam/src/microwasm.rs` describe: a branch drops its range, takes the parameters of its
  target off the stack, discards what is left and goes on after the target's `Label`. Running
  into a `Label` is an error (`stuck`).
* `Microwasm.flow` types a stream: the stack before each operator, from the parameters declared
  for each label. It fails where a branch does not leave exactly the parameters of its target.
-/

namespace Wasmtime.Lightbeam

/-! ## Uninterpreted operators -/

/-- The world and the operators applied to it so far, the last first. -/
structure Effects (V W : Type) where
  world : W
  trace : List (PlainOperator × List V)

/-- An interpretation of the operators without control flow. Operands are listed from the top of
the stack; `none` is a trap. -/
structure Interp (m : ModuleContext) (V W : Type) where
  const : Value → V
  act : PlainOperator → W → List V → Option (Option V × W)
  truthy : V → Bool
  index : V → Nat
  /-- An operator leaves a result exactly where its type has one. -/
  result : ∀ {p w args r w'}, act p w args = some (r, w') → r.isSome = (p.sig m).2.isSome

namespace Interp

variable {m : ModuleContext} {V W : Type}

/-- Apply an operator; an error is a trap. -/
def exec (I : Interp m V W) (p : PlainOperator) (args : List V) (eff : Effects V W) :
    Except (Effects V W) (Option V × Effects V W) :=
  match p with
  | .const v => .ok (some (I.const v), eff)
  | p =>
      match I.act p eff.world args with
      | some (r, w) => .ok (r, ⟨w, (p, args) :: eff.trace⟩)
      | none => .error ⟨eff.world, (p, args) :: eff.trace⟩

end Interp

/-! ## Wasm -/

/-- The locals, the operands of the current block, the world. -/
structure Frame (V W : Type) where
  locals : List V
  stack : List V
  eff : Effects V W

/-- How a sequence ends. A branch has the operands its label takes on the stack. -/
inductive Outcome (V W : Type)
  | normal (s : Frame V W)
  | br (d : Nat) (s : Frame V W)
  | ret (vals : List V) (eff : Effects V W)
  | trap (eff : Effects V W)
  | timeout (eff : Effects V W)
  | stuck

namespace Outcome

variable {V W : Type}

/-- Leave a block whose label is at its end: its results go on top of the operands outside. -/
def leave (base : List V) (k : Frame V W → Outcome V W) : Outcome V W → Outcome V W
  | normal s => k { s with stack := s.stack ++ base }
  | br 0 s => k { s with stack := s.stack ++ base }
  | br (d + 1) s => br d s
  | o => o

/-- Run the body of a loop until it does not branch back, at most `n` times. -/
def iterate (body : Frame V W → Outcome V W) : Nat → Frame V W → Outcome V W
  | 0, s => timeout s.eff
  | n + 1, s =>
      match body { s with stack := [] } with
      | br 0 s' => iterate body n s'
      | br (d + 1) s' => br d s'
      | o => o

/-- Go on after a loop has ended. -/
def leaveLoop (base : List V) (k : Frame V W → Outcome V W) : Outcome V W → Outcome V W
  | normal s => k { s with stack := s.stack ++ base }
  | o => o

end Outcome

section Eval

variable {m : ModuleContext} {V W : Type} (I : Interp m V W)

def Simple.eval (i : Simple) (s : Frame V W) : Outcome V W :=
  match i, s.stack with
  | .nop, _ => .normal s
  | .drop, _ :: st => .normal { s with stack := st }
  | .select, c :: a :: b :: st => .normal { s with stack := (if I.truthy c then b else a) :: st }
  | .getLocal i, st =>
      match s.locals[i]? with
      | some v => .normal { s with stack := v :: st }
      | none => .stuck
  | .setLocal i, v :: st =>
      if i < s.locals.length then .normal { s with locals := s.locals.set i v, stack := st }
      else .stuck
  | .teeLocal i, v :: st =>
      if i < s.locals.length then .normal { s with locals := s.locals.set i v, stack := v :: st }
      else .stuck
  | .plain p, st =>
      let n := (p.sig m).1.length
      if n ≤ st.length then
        match I.exec p (st.take n) s.eff with
        | .ok (r, eff) => .normal ⟨s.locals, r.toList ++ st.drop n, eff⟩
        | .error eff => .trap eff
      else .stuck
  | _, _ => .stuck

/-- Branch to the `d`-th label with its operands. -/
def branchOut (Γ : Context) (d : Nat) (s : Frame V W) : Outcome V W :=
  match Γ.labels[d]? with
  | some ty =>
      if ty.toList.length ≤ s.stack.length then
        .br d { s with stack := s.stack.take ty.toList.length }
      else .stuck
  | none => .stuck

def Jump.eval (Γ : Context) (j : Jump) (s : Frame V W) : Outcome V W :=
  match j, s.stack with
  | .unreachable, _ => .trap s.eff
  | .br d, _ => branchOut Γ d s
  | .brTable ts d, v :: st => branchOut Γ (ts.getD (I.index v) d) { s with stack := st }
  | .return_, st =>
      let n := Γ.returns.toList.length
      if n ≤ st.length then .ret (st.take n) s.eff else .stuck
  | _, _ => .stuck

/-- The meaning of a sequence, with at most `fuel` iterations of each loop it enters. -/
def Code.eval (fuel : Nat) : Context → Code → Frame V W → Outcome V W
  | _, .nil, s => .normal s
  | Γ, .simple i rest, s =>
      match i.eval I s with
      | .normal s' => rest.eval fuel Γ s'
      | o => o
  | Γ, .jump j _, s => j.eval I Γ s
  | Γ, .brIf d rest, s =>
      match s.stack with
      | v :: st =>
          if I.truthy v then branchOut Γ d { s with stack := st }
          else rest.eval fuel Γ { s with stack := st }
      | [] => .stuck
  | Γ, .block ty body rest, s =>
      (body.eval fuel (Γ.enter ty) { s with stack := [] }).leave s.stack (rest.eval fuel Γ)
  | Γ, .loop _ body rest, s =>
      (Outcome.iterate (body.eval fuel (Γ.enter none)) fuel s).leaveLoop s.stack
        (rest.eval fuel Γ)
  | Γ, .ifThen ty then_ rest, s =>
      match s.stack with
      | v :: st =>
          if I.truthy v then
            (then_.eval fuel (Γ.enter ty) { s with stack := [] }).leave st (rest.eval fuel Γ)
          else rest.eval fuel Γ { s with stack := st }
      | [] => .stuck
  | Γ, .ifElse ty then_ else_ rest, s =>
      match s.stack with
      | v :: st =>
          if I.truthy v then
            (then_.eval fuel (Γ.enter ty) { s with stack := [] }).leave st (rest.eval fuel Γ)
          else
            (else_.eval fuel (Γ.enter ty) { s with stack := [] }).leave st (rest.eval fuel Γ)
      | [] => .stuck

end Eval

/-- How a function call stands: it has returned, it has trapped, or it goes on. -/
inductive Result (V W : Type)
  | returned (vals : List V) (eff : Effects V W)
  | trapped (eff : Effects V W)
  | running (eff : Effects V W)
  | stuck

/-- The end of the body returns its operands; so does a branch to the function's label. -/
def Outcome.toResult {V W : Type} : Outcome V W → Result V W
  | .normal s => .returned s.stack s.eff
  | .br _ s => .returned s.stack s.eff
  | .ret vals eff => .returned vals eff
  | .trap eff => .trapped eff
  | .timeout eff => .running eff
  | .stuck => .stuck

/-- Call a function: declared locals start at zero. -/
def Func.eval {m : ModuleContext} {V W : Type} (I : Interp m V W) (f : Func) (args : List V)
    (world : W) (fuel : Nat) : Result V W :=
  (f.body.eval I fuel (f.context m)
    ⟨args ++ f.declared.map fun ty => I.const (.defaultForType ty), [], ⟨world, []⟩⟩).toResult

/-! ## Microwasm -/

namespace Microwasm

/-- What comes after the `Label` of `l`. -/
def after (l : WasmLabel) : List OperatorFromWasm → Option (List OperatorFromWasm)
  | [] => none
  | .label l' :: ops => if l' = l then some ops else after l ops
  | _ :: ops => after l ops

/-- The parameters that the `Block` of `l` declares. -/
def params (l : WasmLabel) : List OperatorFromWasm → Option (List SignlessType)
  | [] => none
  | .block l' ps _ _ :: ops => if l' = l then some ps else params l ops
  | _ :: ops => params l ops

/-- `Drop`: remove the elements at the depths of the range. -/
def dropRange {α : Type} (r : DropRange) (stack : List α) : List α :=
  stack.take r.first ++ stack.drop (r.last + 1)

def dropOpt {α : Type} (r : Option DropRange) (stack : List α) : List α :=
  r.elim stack fun r => dropRange r stack

/-- `Swap`: exchange the top with the element at a depth. -/
def swap {α : Type} (depth : Nat) (stack : List α) : Option (List α) :=
  match stack, stack[depth]? with
  | top :: _, some v => some ((stack.set depth top).set 0 v)
  | _, _ => none

/-- The rest of the stream, the stack, the world. -/
structure State (V W : Type) where
  code : List OperatorFromWasm
  stack : List V
  eff : Effects V W

inductive Status (V W : Type)
  | running (s : State V W)
  | returned (vals : List V) (eff : Effects V W)
  | trapped (eff : Effects V W)
  | stuck

section Machine

variable {m : ModuleContext} {V W : Type} (I : Interp m V W) (prog : List OperatorFromWasm)
  (returns : BlockType)

/-- Take the parameters of the target off the stack and go there. -/
def jump (target : BrTarget WasmLabel) (stack : List V) (eff : Effects V W) : Status V W :=
  match target with
  | .ret =>
      if returns.toList.length ≤ stack.length then
        .returned (stack.take returns.toList.length) eff
      else .stuck
  | .label l =>
      match params l prog, after l prog with
      | some ps, some code =>
          if ps.length ≤ stack.length then .running ⟨code, stack.take ps.length, eff⟩ else .stuck
      | _, _ => .stuck

/-- A branch of `br_if` or `br_table`. -/
def jumpDrop (t : BrTargetDrop WasmLabel) (stack : List V) (eff : Effects V W) : Status V W :=
  jump prog returns t.target (dropOpt t.toDrop stack) eff

def step (s : State V W) : Status V W :=
  match s.code with
  | [] => .stuck
  | op :: code =>
    match op, s.stack with
    | .unreachable, _ => .trapped s.eff
    | .block _ _ _ _, _ => .running { s with code := code }
    | .label _, _ => .stuck
    | .br target, st => jump prog returns target st s.eff
    | .brIf then_ else_, v :: st =>
        jumpDrop prog returns (if I.truthy v then then_ else else_) st s.eff
    | .brTable targets default, v :: st =>
        jumpDrop prog returns (targets.getD (I.index v) default) st s.eff
    | .drop r, st =>
        if r.last < st.length then .running ⟨code, dropRange r st, s.eff⟩ else .stuck
    | .select, c :: a :: b :: st =>
        .running ⟨code, (if I.truthy c then b else a) :: st, s.eff⟩
    | .pick depth, st =>
        match st[depth]? with
        | some v => .running ⟨code, v :: st, s.eff⟩
        | none => .stuck
    | .swap depth, st =>
        match swap depth st with
        | some st' => .running ⟨code, st', s.eff⟩
        | none => .stuck
    | .plain p, st =>
        let n := (p.meaning.sig m).1.length
        if n ≤ st.length then
          match I.exec p.meaning (st.take n) s.eff with
          | .ok (r, eff) => .running ⟨code, r.toList ++ st.drop n, eff⟩
          | .error eff => .trapped eff
        else .stuck
    | _, _ => .stuck

/-- At most `n` steps. -/
def run : Nat → State V W → Status V W
  | 0, s => .running s
  | n + 1, s =>
      match step I prog returns s with
      | .running s' => run n s'
      | r => r

/-- Call the function whose microwasm is `prog`: the arguments are on the stack. -/
def call (args : List V) (world : W) (n : Nat) : Status V W :=
  run I prog returns n ⟨prog, args.reverse, ⟨world, []⟩⟩

end Machine

/-! ## The stack at every operator -/

section Flow

variable (m : ModuleContext) (prog : List OperatorFromWasm) (returns : BlockType)

/-- A branch leaves exactly the parameters of its target; a return has its results on top. -/
def exact (target : BrTarget WasmLabel) (stack : List SignlessType) : Bool :=
  match target with
  | .ret => returns.toList.isPrefixOf stack
  | .label l => params l prog == some stack

def exactDrop (t : BrTargetDrop WasmLabel) (stack : List SignlessType) : Bool :=
  exact prog returns t.target (dropOpt t.toDrop stack)

/-- The stack after an operator, from the stack before it; `none` inside is unreachable. -/
def flowOp (op : OperatorFromWasm) (stack : Option (List SignlessType)) :
    Option (Option (List SignlessType)) :=
  match op, stack with
  | .label l, none => (params l prog).map some
  | .unreachable, some _ => some none
  | .block _ _ _ _, some st => some (some st)
  | .br target, some st => if exact prog returns target st then some none else none
  | .brIf then_ else_, some (_ :: st) =>
      if exactDrop prog returns then_ st && exactDrop prog returns else_ st then some none
      else none
  | .brTable targets default, some (_ :: st) =>
      if (targets.all fun t => exactDrop prog returns t st) && exactDrop prog returns default st
      then some none else none
  | .drop r, some st => if r.last < st.length then some (some (dropRange r st)) else none
  | .select, some (_ :: _ :: st) => some (some st)
  | .pick depth, some st => st[depth]?.map fun t => some (t :: st)
  | .swap depth, some st => (swap depth st).map some
  | .plain p, some st =>
      if (p.meaning.sig m).1.length ≤ st.length then
        some (some ((p.meaning.sig m).2.toList ++ st.drop (p.meaning.sig m).1.length))
      else none
  | _, _ => none

/-- The stack after a list of operators. -/
def flow : List OperatorFromWasm → Option (List SignlessType) →
    Option (Option (List SignlessType))
  | [], stack => some stack
  | op :: ops, stack => (flowOp m prog returns op stack).bind (flow ops)

/-- At every branch of the stream the stack left is the parameter list of the target. -/
def EdgesExact (inputs : List SignlessType) : Prop :=
  (flow m prog returns prog (some inputs.reverse)).isSome = true

variable {m prog returns}

/-- A label is reached with the parameters it was declared with. -/
theorem flow_label {l : WasmLabel} {ps : List SignlessType} (hp : params l prog = some ps)
    (ops : List OperatorFromWasm) :
    flow m prog returns (.label l :: ops) none = flow m prog returns ops (some ps) := by
  simp [flow, flowOp, hp]

theorem flow_block (l : WasmLabel) (ps stack : List SignlessType) (back : Bool)
    (n : Option Nat) (ops : List OperatorFromWasm) :
    flow m prog returns (.block l ps back n :: ops) (some stack) =
      flow m prog returns ops (some stack) := rfl

/-- A jump to a label with the whole stack. -/
theorem flow_br {l : WasmLabel} {ps : List SignlessType} (hp : params l prog = some ps)
    (ops : List OperatorFromWasm) :
    flow m prog returns (.br (.label l) :: ops) (some ps) = flow m prog returns ops none := by
  simp [flow, flowOp, exact, hp]

theorem flow_pick {depth : Nat} {stack : List SignlessType} {t : SignlessType}
    (h : stack[depth]? = some t) (ops : List OperatorFromWasm) :
    flow m prog returns (.pick depth :: ops) (some stack) =
      flow m prog returns ops (some (t :: stack)) := by
  simp [flow, flowOp, h]

theorem flow_swap {depth : Nat} {stack stack' : List SignlessType}
    (h : swap depth stack = some stack') (ops : List OperatorFromWasm) :
    flow m prog returns (.swap depth :: ops) (some stack) =
      flow m prog returns ops (some stack') := by
  simp [flow, flowOp, h]

theorem flow_drop (t : SignlessType) (stack : List SignlessType) (ops : List OperatorFromWasm) :
    flow m prog returns (.drop ⟨0, 0⟩ :: ops) (some (t :: stack)) =
      flow m prog returns ops (some stack) := rfl

/-- A conditional branch that drops nothing. -/
theorem exactDrop_keep {l : WasmLabel} {ps : List SignlessType} (hp : params l prog = some ps) :
    exactDrop prog returns (BrTarget.label l).keep ps = true := by
  simp [exactDrop, BrTarget.keep, dropOpt, exact, hp]

end Flow

end Microwasm

end Wasmtime.Lightbeam
