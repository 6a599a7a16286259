import Wasmtime.Lightbeam.Wasm

/-!
# Microwasm and its generator

The operators of `lightbeam/src/microwasm.rs` and the iterator `MicrowasmConv`, which reads a
wasm operator stream and yields microwasm, a batch of operators for each call of `next`.

* `MicroPlain.meaning` is the wasm operator that a microwasm operator without control flow
  stands for, by its name and its types; `PlainOperator.toMicro` is the generator's table.
* `Conv` is the state of `MicrowasmConv`, `Conv.next` its `Iterator::next` and `Conv.stream`
  everything it yields. A panic and a read error are both `Yield.fail`: the only caller unwraps
  either.
* In unreachable code `next` reads on to the `else` or `end` of the current frame and counts the
  blocks opened on the way (`Conv.skip`).

`debug_assert_eq!` in `apply_op` is kept as a check. Identifiers and stack heights are natural
numbers: the body of a function has fewer than `2 ^ 32` bytes, and an identifier takes at least
two of them.

Results:
* `meaning_toMicro`: the generator's table keeps the meaning of every operator.
* `Conv.stream_eq`: the stream is the batch of `next` followed by the stream of its state.
-/

namespace Wasmtime.Lightbeam

/-! ## Operators -/

/-- The microwasm operators that take operands and leave results. -/
inductive MicroPlain
  | call (functionIndex : Nat)
  | callIndirect (typeIndex tableIndex : Nat)
  | getGlobal (index : Nat)
  | setGlobal (index : Nat)
  | load (ty : SignlessType) (memarg : MemoryImmediate)
  | load8 (ty : SignfulInt) (memarg : MemoryImmediate)
  | load16 (ty : SignfulInt) (memarg : MemoryImmediate)
  | load32 (sign : Signedness) (memarg : MemoryImmediate)
  | store (ty : SignlessType) (memarg : MemoryImmediate)
  | store8 (ty : Size) (memarg : MemoryImmediate)
  | store16 (ty : Size) (memarg : MemoryImmediate)
  | store32 (memarg : MemoryImmediate)
  | memorySize (reserved : Nat)
  | memoryGrow (reserved : Nat)
  | const (v : Value)
  | eq (ty : SignlessType)
  | ne (ty : SignlessType)
  | eqz (ty : Size)
  | lt (ty : SignfulType)
  | gt (ty : SignfulType)
  | le (ty : SignfulType)
  | ge (ty : SignfulType)
  | add (ty : SignlessType)
  | sub (ty : SignlessType)
  | mul (ty : SignlessType)
  | clz (ty : Size)
  | ctz (ty : Size)
  | popcnt (ty : Size)
  | div (ty : SignfulType)
  | rem (ty : SignfulInt)
  | and (ty : Size)
  | or (ty : Size)
  | xor (ty : Size)
  | shl (ty : Size)
  | shr (ty : SignfulInt)
  | rotl (ty : Size)
  | rotr (ty : Size)
  | abs (ty : Size)
  | neg (ty : Size)
  | ceil (ty : Size)
  | floor (ty : Size)
  | trunc (ty : Size)
  | nearest (ty : Size)
  | sqrt (ty : Size)
  | min (ty : Size)
  | max (ty : Size)
  | copysign (ty : Size)
  | i32WrapFromI64
  | iTruncFromF (inputTy : Size) (outputTy : SignfulInt)
  | fConvertFromI (inputTy : SignfulInt) (outputTy : Size)
  | f32DemoteFromF64
  | f64PromoteFromF32
  | i32ReinterpretFromF32
  | i64ReinterpretFromF64
  | f32ReinterpretFromI32
  | f64ReinterpretFromI64
  | extend (sign : Signedness)
  deriving DecidableEq, Repr

/-- The wasm operator a microwasm operator stands for. -/
def MicroPlain.meaning : MicroPlain → PlainOperator
  | .call f => .call f
  | .callIndirect i t => .callIndirect i t
  | .getGlobal g => .getGlobal g
  | .setGlobal g => .setGlobal g
  | .load ty a => .load ty a
  | .load8 ⟨s, size⟩ a => .load8 size s a
  | .load16 ⟨s, size⟩ a => .load16 size s a
  | .load32 s a => .i64Load32 s a
  | .store ty a => .store ty a
  | .store8 size a => .store8 size a
  | .store16 size a => .store16 size a
  | .store32 a => .i64Store32 a
  | .memorySize r => .memorySize r
  | .memoryGrow r => .memoryGrow r
  | .const v => .const v
  | .eq (.int n) => .irel n .eq
  | .eq (.float n) => .frel n .eq
  | .ne (.int n) => .irel n .ne
  | .ne (.float n) => .frel n .ne
  | .eqz n => .eqz n
  | .lt (.int ⟨s, n⟩) => .irel n (.lt s)
  | .lt (.float n) => .frel n .lt
  | .gt (.int ⟨s, n⟩) => .irel n (.gt s)
  | .gt (.float n) => .frel n .gt
  | .le (.int ⟨s, n⟩) => .irel n (.le s)
  | .le (.float n) => .frel n .le
  | .ge (.int ⟨s, n⟩) => .irel n (.ge s)
  | .ge (.float n) => .frel n .ge
  | .add (.int n) => .ibin n .add
  | .add (.float n) => .fbin n .add
  | .sub (.int n) => .ibin n .sub
  | .sub (.float n) => .fbin n .sub
  | .mul (.int n) => .ibin n .mul
  | .mul (.float n) => .fbin n .mul
  | .clz n => .iun n .clz
  | .ctz n => .iun n .ctz
  | .popcnt n => .iun n .popcnt
  | .div (.int ⟨s, n⟩) => .ibin n (.div s)
  | .div (.float n) => .fbin n .div
  | .rem ⟨s, n⟩ => .ibin n (.rem s)
  | .and n => .ibin n .and
  | .or n => .ibin n .or
  | .xor n => .ibin n .xor
  | .shl n => .ibin n .shl
  | .shr ⟨s, n⟩ => .ibin n (.shr s)
  | .rotl n => .ibin n .rotl
  | .rotr n => .ibin n .rotr
  | .abs n => .funary n .abs
  | .neg n => .funary n .neg
  | .ceil n => .funary n .ceil
  | .floor n => .funary n .floor
  | .trunc n => .funary n .trunc
  | .nearest n => .funary n .nearest
  | .sqrt n => .funary n .sqrt
  | .min n => .fbin n .min
  | .max n => .fbin n .max
  | .copysign n => .fbin n .copysign
  | .i32WrapFromI64 => .cvt .i32WrapI64
  | .iTruncFromF inp ⟨s, out⟩ => .cvt (.iTrunc out s inp)
  | .fConvertFromI ⟨s, inp⟩ out => .cvt (.fConvert out s inp)
  | .f32DemoteFromF64 => .cvt .f32DemoteF64
  | .f64PromoteFromF32 => .cvt .f64PromoteF32
  | .i32ReinterpretFromF32 => .cvt .i32ReinterpretF32
  | .i64ReinterpretFromF64 => .cvt .i64ReinterpretF64
  | .f32ReinterpretFromI32 => .cvt .f32ReinterpretI32
  | .f64ReinterpretFromI64 => .cvt .f64ReinterpretI64
  | .extend s => .cvt (.i64ExtendI32 s)

inductive NameTag
  | header
  | else_
  | end_
  deriving DecidableEq, Repr

/-- `WasmLabel`: the identifier of a block and which of its labels is meant. -/
abbrev WasmLabel := Nat × NameTag

inductive BrTarget (L : Type)
  | ret
  | label (l : L)
  deriving DecidableEq, Repr

/-- A `RangeInclusive` of stack depths. -/
structure DropRange where
  first : Nat
  last : Nat
  deriving DecidableEq, Repr

structure BrTargetDrop (L : Type) where
  target : BrTarget L
  toDrop : Option DropRange
  deriving DecidableEq, Repr

/-- `From<BrTarget<L>> for BrTargetDrop<L>`. -/
def BrTarget.keep {L : Type} (target : BrTarget L) : BrTargetDrop L :=
  ⟨target, none⟩

/-- `Operator<L>`. -/
inductive Operator (L : Type)
  | unreachable
  | block (label : L) (params : List SignlessType) (hasBackwardsCallers : Bool)
      (numCallers : Option Nat)
  | label (l : L)
  | br (target : BrTarget L)
  | brIf (then_ else_ : BrTargetDrop L)
  | brTable (targets : List (BrTargetDrop L)) (default : BrTargetDrop L)
  | drop (range : DropRange)
  | select
  | pick (depth : Nat)
  | swap (depth : Nat)
  | plain (p : MicroPlain)
  deriving DecidableEq, Repr

namespace Operator

variable {L : Type}

/-- `Operator::end`. -/
def endBlock (params : List SignlessType) (label : L) : Operator L :=
  .block label params false none

/-- `Operator::block`. -/
def callOnce (params : List SignlessType) (label : L) : Operator L :=
  .block label params false (some 1)

/-- `Operator::loop_`. -/
def loopHeader (params : List SignlessType) (label : L) : Operator L :=
  .block label params true none

end Operator

abbrev OperatorFromWasm := Operator WasmLabel

/-! ## The table of plain operators -/

/-- The plain arms of the `match` in `MicrowasmConv::next`. -/
def PlainOperator.toMicro : PlainOperator → MicroPlain
  | .call f => .call f
  | .callIndirect i t => .callIndirect i t
  | .getGlobal g => .getGlobal g
  | .setGlobal g => .setGlobal g
  | .load ty a => .load ty a
  | .load8 size s a => .load8 ⟨s, size⟩ a
  | .load16 size s a => .load16 ⟨s, size⟩ a
  | .i64Load32 s a => .load32 s a
  | .store ty a => .store ty a
  | .store8 size a => .store8 size a
  | .store16 size a => .store16 size a
  | .i64Store32 a => .store32 a
  | .memorySize r => .memorySize r
  | .memoryGrow r => .memoryGrow r
  | .const v => .const v
  | .eqz n => .eqz n
  | .irel n .eq => .eq (.int n)
  | .irel n .ne => .ne (.int n)
  | .irel n (.lt s) => .lt (.int ⟨s, n⟩)
  | .irel n (.gt s) => .gt (.int ⟨s, n⟩)
  | .irel n (.le s) => .le (.int ⟨s, n⟩)
  | .irel n (.ge s) => .ge (.int ⟨s, n⟩)
  | .frel n .eq => .eq (.float n)
  | .frel n .ne => .ne (.float n)
  | .frel n .lt => .lt (.float n)
  | .frel n .gt => .gt (.float n)
  | .frel n .le => .le (.float n)
  | .frel n .ge => .ge (.float n)
  | .iun n .clz => .clz n
  | .iun n .ctz => .ctz n
  | .iun n .popcnt => .popcnt n
  | .ibin n .add => .add (.int n)
  | .ibin n .sub => .sub (.int n)
  | .ibin n .mul => .mul (.int n)
  | .ibin n (.div s) => .div (.int ⟨s, n⟩)
  | .ibin n (.rem s) => .rem ⟨s, n⟩
  | .ibin n .and => .and n
  | .ibin n .or => .or n
  | .ibin n .xor => .xor n
  | .ibin n .shl => .shl n
  | .ibin n (.shr s) => .shr ⟨s, n⟩
  | .ibin n .rotl => .rotl n
  | .ibin n .rotr => .rotr n
  | .funary n .abs => .abs n
  | .funary n .neg => .neg n
  | .funary n .ceil => .ceil n
  | .funary n .floor => .floor n
  | .funary n .trunc => .trunc n
  | .funary n .nearest => .nearest n
  | .funary n .sqrt => .sqrt n
  | .fbin n .add => .add (.float n)
  | .fbin n .sub => .sub (.float n)
  | .fbin n .mul => .mul (.float n)
  | .fbin n .div => .div (.float n)
  | .fbin n .min => .min n
  | .fbin n .max => .max n
  | .fbin n .copysign => .copysign n
  | .cvt .i32WrapI64 => .i32WrapFromI64
  | .cvt (.iTrunc out s inp) => .iTruncFromF inp ⟨s, out⟩
  | .cvt (.i64ExtendI32 s) => .extend s
  | .cvt (.fConvert out s inp) => .fConvertFromI ⟨s, inp⟩ out
  | .cvt .f32DemoteF64 => .f32DemoteFromF64
  | .cvt .f64PromoteF32 => .f64PromoteFromF32
  | .cvt .i32ReinterpretF32 => .i32ReinterpretFromF32
  | .cvt .i64ReinterpretF64 => .i64ReinterpretFromF64
  | .cvt .f32ReinterpretI32 => .f32ReinterpretFromI32
  | .cvt .f64ReinterpretI64 => .f64ReinterpretFromI64

/-- **The table keeps the meaning of every operator.** -/
@[simp]
theorem meaning_toMicro (p : PlainOperator) : p.toMicro.meaning = p := by
  cases p with
  | irel n op => cases op <;> rfl
  | frel n op => cases op <;> rfl
  | iun n op => cases op <;> rfl
  | ibin n op => cases op <;> rfl
  | funary n op => cases op <;> rfl
  | fbin n op => cases op <;> rfl
  | cvt op => cases op <;> rfl
  | _ => rfl

/-! ## Signatures -/

/-- `SigT`: a type variable, or a type. -/
inductive SigT
  | T
  | concrete (ty : SignlessType)
  deriving DecidableEq, Repr

/-- `OpSig`; the last input is on top of the stack. -/
structure OpSig where
  input : List SigT
  output : List SigT
  deriving DecidableEq, Repr

namespace OpSig

def none : OpSig := ⟨[], []⟩

/-- A signature without a type variable. -/
def concrete (input output : List SignlessType) : OpSig :=
  ⟨input.map .concrete, output.map .concrete⟩

end OpSig

/-- The plain arms of `MicrowasmConv::op_sig`. -/
def PlainOperator.opSig (m : ModuleContext) : PlainOperator → OpSig
  | .call f => .concrete (m.funcType f).params (m.funcType f).returns.toList
  | .callIndirect i _ =>
      let sig := OpSig.concrete (m.signature i).params (m.signature i).returns.toList
      { sig with input := sig.input ++ [.concrete I32] }
  | .getGlobal g => .concrete [] [m.globalType g]
  | .setGlobal g => .concrete [m.globalType g] []
  | .load ty _ => .concrete [I32] [ty]
  | .load8 size _ _ => .concrete [I32] [.int size]
  | .load16 size _ _ => .concrete [I32] [.int size]
  | .i64Load32 _ _ => .concrete [I32] [I64]
  | .store ty _ => .concrete [I32, ty] []
  | .store8 size _ => .concrete [I32, .int size] []
  | .store16 size _ => .concrete [I32, .int size] []
  | .i64Store32 _ => .concrete [I32, I64] []
  | .memorySize _ => .concrete [] [I32]
  | .memoryGrow _ => .concrete [I32] [I32]
  | .const v => .concrete [] [v.type]
  | .eqz size => .concrete [.int size] [I32]
  | .irel size _ => .concrete [.int size, .int size] [I32]
  | .frel size _ => .concrete [.float size, .float size] [I32]
  | .iun size _ => .concrete [.int size] [.int size]
  | .ibin size _ => .concrete [.int size, .int size] [.int size]
  | .funary size _ => .concrete [.float size] [.float size]
  | .fbin size _ => .concrete [.float size, .float size] [.float size]
  | .cvt .i32WrapI64 => .concrete [I64] [I32]
  | .cvt (.iTrunc out _ inp) => .concrete [.float inp] [.int out]
  | .cvt (.i64ExtendI32 _) => .concrete [I32] [I64]
  | .cvt (.fConvert out _ inp) => .concrete [.int inp] [.float out]
  | .cvt .f32DemoteF64 => .concrete [F64] [F32]
  | .cvt .f64PromoteF32 => .concrete [F32] [F64]
  | .cvt .i32ReinterpretF32 => .concrete [F32] [I32]
  | .cvt .i64ReinterpretF64 => .concrete [F64] [I64]
  | .cvt .f32ReinterpretI32 => .concrete [I32] [F32]
  | .cvt .f64ReinterpretI64 => .concrete [I64] [F64]

/-- The generator types an operator as validation does. -/
theorem PlainOperator.opSig_eq (m : ModuleContext) (p : PlainOperator) :
    p.opSig m = .concrete (p.sig m).1 (p.sig m).2.toList := by
  cases p with
  | callIndirect i t => simp [PlainOperator.opSig, PlainOperator.sig, OpSig.concrete]
  | cvt op => cases op <;> rfl
  | _ => rfl

/-! ## The state of `MicrowasmConv` -/

inductive ControlFrameKind
  | block (needsEndLabel : Bool)
  | function
  | loop
  | if_ (hasElse : Bool)
  deriving DecidableEq, Repr

structure ControlFrame where
  id : Nat
  arguments : Nat
  returns : List SignlessType
  kind : ControlFrameKind
  deriving DecidableEq, Repr

namespace ControlFrame

def needsEndLabel (f : ControlFrame) : Bool :=
  match f.kind with
  | .block needsEndLabel => needsEndLabel
  | .if_ _ => true
  | .loop | .function => false

def markBranchedTo (f : ControlFrame) : ControlFrame :=
  match f.kind with
  | .block _ => { f with kind := .block true }
  | _ => f

/-- `if let ControlFrameKind::If { has_else, .. } = &mut block.kind { *has_else = true }`. -/
def setHasElse (f : ControlFrame) : ControlFrame :=
  match f.kind with
  | .if_ _ => { f with kind := .if_ true }
  | _ => f

def brTarget (f : ControlFrame) : BrTarget WasmLabel :=
  match f.kind with
  | .loop => .label (f.id, .header)
  | .function => .ret
  | .block _ | .if_ _ => .label (f.id, .end_)

end ControlFrame

/-- `MicrowasmConv`. The innermost control frame is at the head. -/
structure Conv where
  isDone : Bool
  constsToEmit : Option (List Value)
  stack : List SignlessType
  internal : List WasmOperator
  currentId : Nat
  controlFrames : List ControlFrame
  unreachable : Bool
  deriving DecidableEq, Repr

/-- What a call of `next` returns, with the state it leaves. -/
inductive Yield
  | done
  | fail
  | ops (ops : List OperatorFromWasm) (s : Conv)
  deriving DecidableEq, Repr

/-- `Vec::truncate`: keep the bottom `n` elements of a stack. -/
def truncate {α : Type} (n : Nat) (stack : List α) : List α :=
  stack.drop (stack.length - n)

def checkedSub (a b : Nat) : Option Nat :=
  if b ≤ a then some (a - b) else none

/-- `to_drop!`: the depths between a block's results and its arguments. -/
def toDrop (stack : List SignlessType) (block : ControlFrame) : Option DropRange := do
  let firstNonLocalDepth := block.returns.length
  let last ← checkedSub stack.length 1
  let lastNonLocalDepth ← checkedSub last block.arguments
  if firstNonLocalDepth ≤ lastNonLocalDepth then
    some ⟨firstNonLocalDepth, lastNonLocalDepth⟩
  else
    none

/-- `to_drop.into_iter().map(Operator::Drop)`. -/
def dropOps (r : Option DropRange) : List OperatorFromWasm :=
  r.toList.map .drop

/-- The inputs of `apply_op`, the last first: pop a type for each, bind the type variable. -/
def popInputs : List SigT → Option SignlessType → List SignlessType →
    Option (Option SignlessType × List SignlessType)
  | [], tyParam, stack => some (tyParam, stack)
  | _ :: _, _, [] => none
  | .T :: ps, none, stackTy :: stack => popInputs ps (some stackTy) stack
  | .T :: ps, some ty, stackTy :: stack =>
      if ty = stackTy then popInputs ps (some ty) stack else none
  | .concrete ty :: ps, tyParam, stackTy :: stack =>
      if ty = stackTy then popInputs ps tyParam stack else none

/-- The outputs of `apply_op`, pushed in the order of the list. -/
def pushOutputs : List SigT → Option SignlessType → List SignlessType →
    Option (List SignlessType)
  | [], _, stack => some stack
  | .T :: ps, tyParam, stack => tyParam.bind fun ty => pushOutputs ps tyParam (ty :: stack)
  | .concrete ty :: ps, tyParam, stack => pushOutputs ps tyParam (ty :: stack)

/-- `MicrowasmConv::apply_op`. -/
def applyOp (sig : OpSig) (stack : List SignlessType) : Option (List SignlessType) :=
  (popInputs sig.input.reverse none stack).bind fun r => pushOutputs sig.output.reverse r.1 r.2

/-- `self.stack[local_index]`: counted from the bottom. -/
def localType (stack : List SignlessType) (i : Nat) : Option SignlessType :=
  stack.reverse[i]?

namespace Conv

variable (m : ModuleContext)

/-- `MicrowasmConv::new`: the locals are on the stack, the function's frame is open. -/
def new (params : List SignlessType) (returns : List SignlessType)
    (locals : List (Nat × SignlessType)) (reader : List WasmOperator) : Conv :=
  let declared := locals.flatMap fun l => List.replicate l.1 l.2
  { isDone := false
    constsToEmit := some (declared.map Value.defaultForType)
    stack := (params ++ declared).reverse
    internal := reader
    currentId := 1
    controlFrames := [⟨0, (params ++ declared).length, returns, .function⟩]
    unreachable := false }

/-- `MicrowasmConv::op_sig`; `none` is an index out of bounds. -/
def opSig (s : Conv) : WasmOperator → Option OpSig
  | .unreachable => some .none
  | .nop => some .none
  | .block _ => some .none
  | .loop _ => some .none
  | .if_ _ => some (.concrete [I32] [])
  | .else_ => some .none
  | .end_ => some .none
  | .br _ => some .none
  | .brIf _ => some (.concrete [I32] [])
  | .brTable _ _ => some (.concrete [I32] [])
  | .return_ => some .none
  | .drop => some ⟨[.T], []⟩
  | .select => some ⟨[.T, .T, .concrete I32], [.T]⟩
  | .getLocal i => (localType s.stack i).map fun ty => .concrete [] [ty]
  | .setLocal i => (localType s.stack i).map fun ty => .concrete [ty] []
  | .teeLocal i => (localType s.stack i).map fun ty => .concrete [ty] [ty]
  | .plain p => some (p.opSig m)

/-- `local_depth`, an `i32`. -/
def localDepth (s : Conv) (i : Nat) : Int :=
  (s.stack.length : Int) - 1 - i

/-- `block_params_with_wasm_type`. -/
def blockParamsWithWasmType (s : Conv) (ty : BlockType) : List SignlessType :=
  ty.toList ++ s.stack

/-- `nth_block_mut(n)` followed by `mark_branched_to`. -/
def markNth (frames : List ControlFrame) (n : Nat) : List ControlFrame :=
  frames.modify n ControlFrame.markBranchedTo

/-- The loop of `next` in unreachable code, from nesting depth `depth` on. -/
def skip (s : Conv) : Nat → List WasmOperator → Yield
  | _, [] => .fail
  | depth, .block _ :: rest => skip s (depth + 1) rest
  | depth, .loop _ :: rest => skip s (depth + 1) rest
  | depth, .if_ _ :: rest => skip s (depth + 1) rest
  | depth + 1, .else_ :: rest => skip s (depth + 1) rest
  | 0, .else_ :: rest =>
      match s.controlFrames with
      | [] => .fail
      | block :: frames =>
          .ops [.label (block.id, .else_)]
            { s with
              stack := truncate block.arguments s.stack
              controlFrames := block.setHasElse :: frames
              internal := rest
              unreachable := false }
  | depth + 1, .end_ :: rest => skip s depth rest
  | 0, .end_ :: rest =>
      match s.controlFrames with
      | [] => .fail
      | _ :: [] => .done
      | block :: frames =>
          let s := { s with
            stack := block.returns.reverse ++ truncate block.arguments s.stack
            controlFrames := frames
            internal := rest
            unreachable := false }
          if block.kind = .if_ false then
            .ops [.label (block.id, .else_), .br (.label (block.id, .end_)),
              .label (block.id, .end_)] s
          else
            .ops [.label (block.id, .end_)] s
  | depth, _ :: rest => skip s depth rest

/-- `WasmOperator::Else` in reachable code. -/
def elseOp (s : Conv) : Yield :=
  match s.controlFrames with
  | [] => .fail
  | block :: frames =>
      .ops (dropOps (toDrop s.stack block) ++
          [.br (.label (block.id, .end_)), .label (block.id, .else_)])
        { s with
          stack := truncate block.arguments s.stack
          controlFrames := block.setHasElse :: frames }

/-- `WasmOperator::End` in reachable code. -/
def endOp (s : Conv) : Yield :=
  match s.controlFrames with
  | [] => .fail
  | block :: frames =>
      let drops := dropOps (toDrop s.stack block)
      let s := { s with
        stack := block.returns.reverse ++ truncate block.arguments s.stack
        controlFrames := frames }
      if block.kind = .if_ false then
        .ops (drops ++ [.br (.label (block.id, .end_)), .label (block.id, .else_),
          .br (.label (block.id, .end_)), .label (block.id, .end_)]) s
      else if frames.isEmpty then
        .ops [.br .ret] { s with isDone := true }
      else if block.needsEndLabel then
        .ops (drops ++ [.br (.label (block.id, .end_)), .label (block.id, .end_)]) s
      else
        .ops drops s

/-- The entry of `br_if` or `br_table` for the `d`-th enclosing block. -/
def branch (s : Conv) (d : Nat) : Option (BrTargetDrop WasmLabel) :=
  s.controlFrames[d]?.map fun block => ⟨block.brTarget, toDrop s.stack block⟩

/-- `br` to a block that has been looked up: the surplus is dropped first. -/
def jumpOps (s : Conv) (block : ControlFrame) : List OperatorFromWasm :=
  dropOps (toDrop s.stack block) ++ [.br block.brTarget]

/-- The arms of the `match` in `next`, after `apply_op`. -/
def operator (s : Conv) : WasmOperator → Yield
  | .unreachable => .ops [.unreachable] { s with unreachable := true }
  | .nop => .ops [] s
  | .block ty =>
      .ops [.endBlock (s.blockParamsWithWasmType ty) (s.currentId, .end_)]
        { s with
          currentId := s.currentId + 1
          controlFrames := ⟨s.currentId, s.stack.length, ty.toList, .block false⟩
            :: s.controlFrames }
  | .loop ty =>
      .ops [.loopHeader s.stack (s.currentId, .header),
          .endBlock (s.blockParamsWithWasmType ty) (s.currentId, .end_),
          .br (.label (s.currentId, .header)), .label (s.currentId, .header)]
        { s with
          currentId := s.currentId + 1
          controlFrames := ⟨s.currentId, s.stack.length, ty.toList, .loop⟩ :: s.controlFrames }
  | .if_ ty =>
      .ops [.callOnce s.stack (s.currentId, .header), .callOnce s.stack (s.currentId, .else_),
          .endBlock (s.blockParamsWithWasmType ty) (s.currentId, .end_),
          .brIf (BrTarget.label (s.currentId, .header)).keep
            (BrTarget.label (s.currentId, .else_)).keep,
          .label (s.currentId, .header)]
        { s with
          currentId := s.currentId + 1
          controlFrames := ⟨s.currentId, s.stack.length, ty.toList, .if_ false⟩
            :: s.controlFrames }
  | .else_ => s.elseOp
  | .end_ => s.endOp
  | .br d =>
      match s.controlFrames[d]? with
      | none => .fail
      | some block =>
          .ops (s.jumpOps block)
            { s with unreachable := true, controlFrames := markNth s.controlFrames d }
  | .brIf d =>
      match s.branch d with
      | none => .fail
      | some then_ =>
          .ops [.callOnce s.stack (s.currentId, .header),
              .brIf then_ (BrTarget.label (s.currentId, .header)).keep,
              .label (s.currentId, .header)]
            { s with
              currentId := s.currentId + 1
              controlFrames := markNth s.controlFrames d }
  | .brTable ts d =>
      match ts.mapM s.branch, s.branch d with
      | some targets, some default =>
          .ops [.brTable targets default]
            { s with
              unreachable := true
              controlFrames := (ts ++ [d]).foldl markNth s.controlFrames }
      | _, _ => .fail
  | .return_ =>
      match s.controlFrames.getLast? with
      | none => .fail
      | some block => .ops (s.jumpOps block) { s with unreachable := true }
  | .drop => .ops [.drop ⟨0, 0⟩] s
  | .select => .ops [.select] s
  | .getLocal i =>
      -- The signature has been applied, so the new element is already counted.
      match s.localDepth i - 1 with
      | .ofNat depth => .ops [.pick depth] s
      | .negSucc _ => .fail
  | .setLocal i =>
      match s.localDepth i + 1 with
      | .ofNat depth => .ops [.swap depth, .drop ⟨0, 0⟩] s
      | .negSucc _ => .fail
  | .teeLocal i =>
      match s.localDepth i + 1 with
      | .ofNat depth => .ops [.pick 0, .swap depth, .drop ⟨0, 0⟩] s
      | .negSucc _ => .fail
  | .plain p => .ops [.plain p.toMicro] s

/-- One operator of reachable code: its signature is applied to the stack first. -/
def readOp (s : Conv) (op : WasmOperator) (rest : List WasmOperator) : Yield :=
  match (s.opSig m op).bind fun sig => applyOp sig s.stack with
  | none => .fail
  | some stack => { s with stack := stack, internal := rest }.operator op

/-- `Iterator::next`. -/
def next (s : Conv) : Yield :=
  if s.isDone then
    .done
  else
    match s.constsToEmit with
    | some consts => .ops (consts.map fun v => .plain (.const v)) { s with constsToEmit := none }
    | none =>
        if s.unreachable then
          s.skip 0 s.internal
        else
          match s.internal with
          | [] => .fail
          | op :: rest => s.readOp m op rest

/-- The operators yielded by at most `fuel` calls of `next`. -/
def collect : Nat → Conv → Option (List OperatorFromWasm)
  | 0, _ => none
  | fuel + 1, s =>
      match s.next m with
      | .done => some []
      | .fail => none
      | .ops ops s' => (collect fuel s').map (ops ++ ·)

/-- An upper bound on the calls of `next` still to come. -/
def calls (s : Conv) : Nat :=
  s.internal.length + (if s.constsToEmit.isSome then 1 else 0) + 2

/-- Everything the iterator yields, flattened; `none` if it panics. -/
def stream (s : Conv) : Option (List OperatorFromWasm) :=
  collect m s.calls s

/-! ## Every call makes progress -/

theorem skip_internal {s s' : Conv} {ops : List OperatorFromWasm} {depth : Nat}
    {l : List WasmOperator} (h : s.skip depth l = .ops ops s') :
    s'.internal.length < l.length ∧ s'.constsToEmit = s.constsToEmit := by
  fun_induction skip s depth l with
  | case1 => cases h
  | case6 rest hf => cases h
  | case7 rest block frames hf =>
    cases h
    exact ⟨Nat.lt_succ_self _, rfl⟩
  | case9 depth rest => cases h
  | case10 rest block hf => cases h
  | case11 rest block frames hne hf t hif =>
    injection h with _ hs
    rw [← hs]
    exact ⟨Nat.lt_succ_self _, rfl⟩
  | case12 rest block frames hne hf t hif =>
    injection h with _ hs
    rw [← hs]
    exact ⟨Nat.lt_succ_self _, rfl⟩
  | _ =>
    rename_i ih
    exact ⟨Nat.lt_succ_of_lt (ih h).1, (ih h).2⟩

/-- An operator of reachable code reads nothing further. -/
theorem operator_internal {s s' : Conv} {ops : List OperatorFromWasm} {op : WasmOperator}
    (h : s.operator op = .ops ops s') :
    s'.internal = s.internal ∧ s'.constsToEmit = s.constsToEmit := by
  unfold operator at h
  split at h
  case h_6 =>
    unfold elseOp at h
    split at h <;> cases h
    exact ⟨rfl, rfl⟩
  case h_7 =>
    unfold endOp at h
    split at h
    · cases h
    · simp only at h
      split at h
      · cases h
        exact ⟨rfl, rfl⟩
      · split at h
        · cases h
          exact ⟨rfl, rfl⟩
        · split at h <;> cases h <;> exact ⟨rfl, rfl⟩
  all_goals
    first
    | (cases h; exact ⟨rfl, rfl⟩)
    | (split at h <;> cases h; exact ⟨rfl, rfl⟩)

theorem readOp_internal {s s' : Conv} {ops : List OperatorFromWasm} {op : WasmOperator}
    {rest : List WasmOperator} (h : s.readOp m op rest = .ops ops s') :
    s'.internal = rest ∧ s'.constsToEmit = s.constsToEmit := by
  unfold readOp at h
  split at h
  · cases h
  · exact operator_internal h

/-- Fewer calls are left after a call that yields operators. -/
theorem next_calls {s s' : Conv} {ops : List OperatorFromWasm} (h : s.next m = .ops ops s') :
    s'.calls < s.calls := by
  unfold next at h
  split at h
  · cases h
  · split at h
    · next hc =>
      cases h
      simp [calls, hc]
    · next hc =>
      split at h
      · obtain ⟨hl, hc'⟩ := skip_internal h
        simpa [calls, hc', hc] using hl
      · split at h
        · cases h
        · next hi =>
          obtain ⟨hl, hc'⟩ := readOp_internal m h
          simp [calls, hc', hc, hl, hi]

/-- More fuel than calls changes nothing. -/
theorem collect_eq (n : Nat) (s : Conv) (h : s.calls ≤ n) : collect m n s = s.stream m := by
  induction n using Nat.strongRecOn generalizing s with
  | _ n ih =>
    obtain ⟨c, hc⟩ : ∃ c, s.calls = c + 1 := ⟨_, rfl⟩
    obtain ⟨k, rfl⟩ : ∃ k, n = k + 1 := ⟨n - 1, by omega⟩
    rw [stream, hc, collect, collect]
    cases hn : s.next m with
    | done => rfl
    | fail => rfl
    | ops ops s' =>
      have hlt := next_calls m hn
      have hk := ih k (by omega) s' (by omega)
      have hs : collect m c s' = s'.stream m := by
        rcases Nat.lt_or_ge c (k + 1) with hck | hck
        · exact ih c hck s' (by omega)
        · obtain rfl : c = k := by omega
          exact hk
      simp only [hk, hs]

/-- **The stream unfolds one call at a time.** -/
theorem stream_eq (s : Conv) :
    s.stream m =
      match s.next m with
      | .done => some []
      | .fail => none
      | .ops ops s' => (s'.stream m).map (ops ++ ·) := by
  rw [← collect_eq m (s.calls + 1) s (Nat.le_succ _), collect]
  cases hn : s.next m with
  | done => rfl
  | fail => rfl
  | ops ops s' => simp only [collect_eq m s.calls s' (Nat.le_of_lt (next_calls m hn))]

theorem stream_ops {s s' : Conv} {ops : List OperatorFromWasm} (h : s.next m = .ops ops s') :
    s.stream m = (s'.stream m).map (ops ++ ·) := by
  rw [stream_eq, h]

end Conv

end Wasmtime.Lightbeam
