import Mathlib.Data.List.Basic

/-!
# The wasm functions lightbeam compiles

`microwasm.rs` reads a function body as a flat stream of `wasmparser` operators. This file has
the types those operators carry (`lightbeam/src/microwasm.rs`: `Size`, `Type`, `Value`,
`MemoryImmediate`), the operators of the WebAssembly MVP, and the validation that every body has
passed before lightbeam sees it.

* Operators that only take operands and leave results (`call`, loads and stores, globals,
  constants, the numeric ones) are gathered in `PlainOperator`, grouped as the WebAssembly
  specification groups them; `PlainOperator.sig` is their typing.
* `Code` is a structured instruction sequence and `Code.flatten` the operators of its binary
  form: an `end` closes every block, an `else` separates the arms of an `if`. Every validated
  body is such a flattening followed by the `end` of the function.
* `check` is the validation algorithm of the specification, with its polymorphic operand stack
  after an unconditional branch.

A stack is a list with its top at the head.
-/

namespace Wasmtime.Lightbeam

/-! ## Types and values -/

/-- Whether to interpret an integer as signed or unsigned. -/
inductive Signedness
  | signed
  | unsigned
  deriving DecidableEq, Repr

inductive Size
  | s32
  | s64
  deriving DecidableEq, Repr

structure SignfulInt where
  sign : Signedness
  size : Size
  deriving DecidableEq, Repr

/-- `Type<I>`: an integer type described by `I`, or a float. -/
inductive Ty (I : Type)
  | int (i : I)
  | float (s : Size)
  deriving DecidableEq, Repr

abbrev SignlessType := Ty Size
abbrev SignfulType := Ty SignfulInt

def I32 : SignlessType := .int .s32
def I64 : SignlessType := .int .s64
def F32 : SignlessType := .float .s32
def F64 : SignlessType := .float .s64

/-- A constant value embedded in the instructions; a float is its bits (`Ieee32`, `Ieee64`). -/
inductive Value
  | i32 (v : BitVec 32)
  | i64 (v : BitVec 64)
  | f32 (bits : BitVec 32)
  | f64 (bits : BitVec 64)
  deriving DecidableEq, Repr

/-- `Value::type_`. -/
def Value.type : Value → SignlessType
  | .i32 _ => I32
  | .i64 _ => I64
  | .f32 _ => F32
  | .f64 _ => F64

/-- `Value::default_for_type`. -/
def Value.defaultForType : SignlessType → Value
  | .int .s32 => .i32 0
  | .int .s64 => .i64 0
  | .float .s32 => .f32 0
  | .float .s64 => .f64 0

structure MemoryImmediate where
  flags : UInt32
  offset : UInt32
  deriving DecidableEq, Repr

/-- A function type of the MVP: at most one result. -/
structure FuncType where
  params : List SignlessType
  returns : Option SignlessType
  deriving DecidableEq, Repr

/-- The part of `ModuleContext` the conversion reads. Validated indices are in range, so the
lookups are total. -/
structure ModuleContext where
  funcType : Nat → FuncType
  signature : Nat → FuncType
  globalType : Nat → SignlessType

/-! ## Operators without control flow -/

/-- Integer comparisons, `eqz` apart. -/
inductive IRel
  | eq
  | ne
  | lt (s : Signedness)
  | gt (s : Signedness)
  | le (s : Signedness)
  | ge (s : Signedness)
  deriving DecidableEq, Repr

inductive FRel
  | eq
  | ne
  | lt
  | gt
  | le
  | ge
  deriving DecidableEq, Repr

inductive IUn
  | clz
  | ctz
  | popcnt
  deriving DecidableEq, Repr

inductive IBin
  | add
  | sub
  | mul
  | div (s : Signedness)
  | rem (s : Signedness)
  | and
  | or
  | xor
  | shl
  | shr (s : Signedness)
  | rotl
  | rotr
  deriving DecidableEq, Repr

inductive FUn
  | abs
  | neg
  | ceil
  | floor
  | trunc
  | nearest
  | sqrt
  deriving DecidableEq, Repr

inductive FBin
  | add
  | sub
  | mul
  | div
  | min
  | max
  | copysign
  deriving DecidableEq, Repr

/-- Conversions. `iTrunc out s inp` is `I<out>Trunc<s>F<inp>`, `fConvert out s inp` is
`F<out>Convert<s>I<inp>`. -/
inductive Cvt
  | i32WrapI64
  | iTrunc (out : Size) (s : Signedness) (inp : Size)
  | i64ExtendI32 (s : Signedness)
  | fConvert (out : Size) (s : Signedness) (inp : Size)
  | f32DemoteF64
  | f64PromoteF32
  | i32ReinterpretF32
  | i64ReinterpretF64
  | f32ReinterpretI32
  | f64ReinterpretI64
  deriving DecidableEq, Repr

/-- The MVP's operators that take operands and leave results, and do nothing else to the
stack, the locals or the control flow. -/
inductive PlainOperator
  | call (functionIndex : Nat)
  | callIndirect (index tableIndex : Nat)
  | getGlobal (globalIndex : Nat)
  | setGlobal (globalIndex : Nat)
  | load (ty : SignlessType) (memarg : MemoryImmediate)
  | load8 (size : Size) (s : Signedness) (memarg : MemoryImmediate)
  | load16 (size : Size) (s : Signedness) (memarg : MemoryImmediate)
  | i64Load32 (s : Signedness) (memarg : MemoryImmediate)
  | store (ty : SignlessType) (memarg : MemoryImmediate)
  | store8 (size : Size) (memarg : MemoryImmediate)
  | store16 (size : Size) (memarg : MemoryImmediate)
  | i64Store32 (memarg : MemoryImmediate)
  | memorySize (reserved : Nat)
  | memoryGrow (reserved : Nat)
  | const (v : Value)
  | eqz (size : Size)
  | irel (size : Size) (op : IRel)
  | frel (size : Size) (op : FRel)
  | iun (size : Size) (op : IUn)
  | ibin (size : Size) (op : IBin)
  | funary (size : Size) (op : FUn)
  | fbin (size : Size) (op : FBin)
  | cvt (op : Cvt)
  deriving DecidableEq, Repr

/-- Operand types (the last one is on top) and result type. -/
abbrev PlainSig := List SignlessType × Option SignlessType

def Cvt.sig : Cvt → PlainSig
  | .i32WrapI64 => ([I64], some I32)
  | .iTrunc out _ inp => ([.float inp], some (.int out))
  | .i64ExtendI32 _ => ([I32], some I64)
  | .fConvert out _ inp => ([.int inp], some (.float out))
  | .f32DemoteF64 => ([F64], some F32)
  | .f64PromoteF32 => ([F32], some F64)
  | .i32ReinterpretF32 => ([F32], some I32)
  | .i64ReinterpretF64 => ([F64], some I64)
  | .f32ReinterpretI32 => ([I32], some F32)
  | .f64ReinterpretI64 => ([I64], some F64)

/-- The type the specification gives an operator. -/
def PlainOperator.sig (m : ModuleContext) : PlainOperator → PlainSig
  | .call f => ((m.funcType f).params, (m.funcType f).returns)
  | .callIndirect i _ => ((m.signature i).params ++ [I32], (m.signature i).returns)
  | .getGlobal g => ([], some (m.globalType g))
  | .setGlobal g => ([m.globalType g], none)
  | .load ty _ => ([I32], some ty)
  | .load8 size _ _ => ([I32], some (.int size))
  | .load16 size _ _ => ([I32], some (.int size))
  | .i64Load32 _ _ => ([I32], some I64)
  | .store ty _ => ([I32, ty], none)
  | .store8 size _ => ([I32, .int size], none)
  | .store16 size _ => ([I32, .int size], none)
  | .i64Store32 _ => ([I32, I64], none)
  | .memorySize _ => ([], some I32)
  | .memoryGrow _ => ([I32], some I32)
  | .const v => ([], some v.type)
  | .eqz size => ([.int size], some I32)
  | .irel size _ => ([.int size, .int size], some I32)
  | .frel size _ => ([.float size, .float size], some I32)
  | .iun size _ => ([.int size], some (.int size))
  | .ibin size _ => ([.int size, .int size], some (.int size))
  | .funary size _ => ([.float size], some (.float size))
  | .fbin size _ => ([.float size, .float size], some (.float size))
  | .cvt op => op.sig

/-! ## The operator stream -/

/-- A block type of the MVP: no parameters and at most one result. -/
abbrev BlockType := Option SignlessType

/-- `wasmparser::Operator`, less the operators outside the MVP. -/
inductive WasmOperator
  | unreachable
  | nop
  | block (ty : BlockType)
  | loop (ty : BlockType)
  | if_ (ty : BlockType)
  | else_
  | end_
  | br (relativeDepth : Nat)
  | brIf (relativeDepth : Nat)
  | brTable (targets : List Nat) (default : Nat)
  | return_
  | drop
  | select
  | getLocal (localIndex : Nat)
  | setLocal (localIndex : Nat)
  | teeLocal (localIndex : Nat)
  | plain (p : PlainOperator)
  deriving DecidableEq, Repr

/-- Instructions that fall through to the next one. -/
inductive Simple
  | nop
  | drop
  | select
  | getLocal (localIndex : Nat)
  | setLocal (localIndex : Nat)
  | teeLocal (localIndex : Nat)
  | plain (p : PlainOperator)
  deriving DecidableEq, Repr

def Simple.op : Simple → WasmOperator
  | .nop => .nop
  | .drop => .drop
  | .select => .select
  | .getLocal i => .getLocal i
  | .setLocal i => .setLocal i
  | .teeLocal i => .teeLocal i
  | .plain p => .plain p

/-- Instructions that never fall through. -/
inductive Jump
  | unreachable
  | br (relativeDepth : Nat)
  | brTable (targets : List Nat) (default : Nat)
  | return_
  deriving DecidableEq, Repr

def Jump.op : Jump → WasmOperator
  | .unreachable => .unreachable
  | .br d => .br d
  | .brTable ts d => .brTable ts d
  | .return_ => .return_

/-- A structured instruction sequence: an instruction and what follows it. -/
inductive Code
  | nil
  | simple (i : Simple) (rest : Code)
  | jump (j : Jump) (rest : Code)
  | brIf (relativeDepth : Nat) (rest : Code)
  | block (ty : BlockType) (body rest : Code)
  | loop (ty : BlockType) (body rest : Code)
  | ifThen (ty : BlockType) (then_ rest : Code)
  | ifElse (ty : BlockType) (then_ else_ rest : Code)
  deriving DecidableEq, Repr

/-- The operators of the binary form. -/
def Code.flatten : Code → List WasmOperator
  | .nil => []
  | .simple i rest => i.op :: rest.flatten
  | .jump j rest => j.op :: rest.flatten
  | .brIf d rest => .brIf d :: rest.flatten
  | .block ty body rest => .block ty :: (body.flatten ++ .end_ :: rest.flatten)
  | .loop ty body rest => .loop ty :: (body.flatten ++ .end_ :: rest.flatten)
  | .ifThen ty then_ rest => .if_ ty :: (then_.flatten ++ .end_ :: rest.flatten)
  | .ifElse ty then_ else_ rest =>
      .if_ ty :: (then_.flatten ++ .else_ :: (else_.flatten ++ .end_ :: rest.flatten))

/-! ## Validation -/

/-- The operand stack of the current block: `live` while its end can be reached, `dead` after an
unconditional branch, where an operand may be of any type and there are as many as needed. -/
inductive Opds
  | live (vals : List SignlessType)
  | dead (vals : List (Option SignlessType))
  deriving DecidableEq, Repr

namespace Opds

def push (t : SignlessType) : Opds → Opds
  | live vs => live (t :: vs)
  | dead vs => dead (some t :: vs)

/-- Pop an operand of type `t`. -/
def pop (t : SignlessType) : Opds → Option Opds
  | live [] => none
  | live (t' :: vs) => if t' = t then some (live vs) else none
  | dead [] => some (dead [])
  | dead (none :: vs) => some (dead vs)
  | dead (some t' :: vs) => if t' = t then some (dead vs) else none

/-- Pop any operand; its type is `none` where it is not known. -/
def popAny : Opds → Option (Option SignlessType × Opds)
  | live [] => none
  | live (t :: vs) => some (some t, live vs)
  | dead [] => some (none, dead [])
  | dead (t :: vs) => some (t, dead vs)

/-- Pop operands, the first of the list first. -/
def popAll : List SignlessType → Opds → Option Opds
  | [], o => some o
  | t :: ts, o => (o.pop t).bind (popAll ts)

def pushOpt (t : Option SignlessType) (o : Opds) : Opds :=
  t.elim o fun t => o.push t

def popOpt (t : Option SignlessType) (o : Opds) : Option Opds :=
  popAll t.toList o

/-- `select` joins the types of its two operands. -/
def join : Option SignlessType → Option SignlessType → Option (Option SignlessType)
  | none, t => some t
  | t, none => some t
  | some t, some t' => if t = t' then some (some t) else none

def pushAny (t : Option SignlessType) : Opds → Opds
  | live vs => live (t.toList ++ vs)
  | dead vs => dead (t :: vs)

/-- At the end of a block exactly its results are left. -/
def closes (ty : BlockType) (o : Opds) : Bool :=
  match o.popOpt ty with
  | some (live vs) => vs.isEmpty
  | some (dead vs) => vs.isEmpty
  | none => false

end Opds

/-- What validation knows about the place of an instruction: the locals, the types of the
enclosing labels (the innermost first) and the result of the function. -/
structure Context where
  module : ModuleContext
  locals : List SignlessType
  labels : List BlockType
  returns : BlockType

/-- The context inside a block whose label has type `ty`. -/
def Context.enter (Γ : Context) (ty : BlockType) : Context :=
  { Γ with labels := ty :: Γ.labels }

def Simple.check (Γ : Context) : Simple → Opds → Option Opds
  | .nop, o => some o
  | .drop, o => o.popAny.map Prod.snd
  | .select, o => do
      let o ← o.pop I32
      let (t₁, o) ← o.popAny
      let (t₂, o) ← o.popAny
      let t ← Opds.join t₁ t₂
      return o.pushAny t
  | .getLocal i, o => do
      let t ← Γ.locals[i]?
      return o.push t
  | .setLocal i, o => do
      let t ← Γ.locals[i]?
      o.pop t
  | .teeLocal i, o => do
      let t ← Γ.locals[i]?
      let o ← o.pop t
      return o.push t
  | .plain p, o => do
      let o ← o.popAll (p.sig Γ.module).1.reverse
      return o.pushOpt (p.sig Γ.module).2

/-- The operands an unconditional branch needs; what is left of the stack is forgotten. -/
def Jump.check (Γ : Context) : Jump → Opds → Bool
  | .unreachable, _ => true
  | .br d, o => Γ.labels[d]?.any fun ty => (o.popOpt ty).isSome
  | .brTable ts d, o =>
      match o.pop I32, Γ.labels[d]? with
      | some o, some ty => (o.popOpt ty).isSome && ts.all fun t => Γ.labels[t]? == some ty
      | _, _ => false
  | .return_, o => (o.popOpt Γ.returns).isSome

/-- The operands after a sequence, or `none` where it is not valid. -/
def Code.check (Γ : Context) : Code → Opds → Option Opds
  | .nil, o => some o
  | .simple i rest, o => (i.check Γ o).bind (rest.check Γ)
  | .jump j rest, o => if j.check Γ o then rest.check Γ (.dead []) else none
  | .brIf d rest, o => do
      let o ← o.pop I32
      let ty ← Γ.labels[d]?
      let o ← o.popOpt ty
      rest.check Γ (o.pushOpt ty)
  | .block ty body rest, o => do
      let b ← body.check (Γ.enter ty) (.live [])
      if b.closes ty then rest.check Γ (o.pushOpt ty) else none
  | .loop ty body rest, o => do
      let b ← body.check (Γ.enter none) (.live [])
      if b.closes ty then rest.check Γ (o.pushOpt ty) else none
  | .ifThen ty then_ rest, o => do
      let o ← o.pop I32
      let b ← then_.check (Γ.enter ty) (.live [])
      -- The missing arm is empty, so the block has no result.
      if ty = none ∧ b.closes ty then rest.check Γ (o.pushOpt ty) else none
  | .ifElse ty then_ else_ rest, o => do
      let o ← o.pop I32
      let b ← then_.check (Γ.enter ty) (.live [])
      let b' ← else_.check (Γ.enter ty) (.live [])
      if b.closes ty ∧ b'.closes ty then rest.check Γ (o.pushOpt ty) else none

/-- A function of the module: its type, its declared locals in groups, its body. -/
structure Func where
  type : FuncType
  locals : List (Nat × SignlessType)
  body : Code
  deriving DecidableEq, Repr

namespace Func

/-- The types of the declared locals. -/
def declared (f : Func) : List SignlessType :=
  f.locals.flatMap fun l => List.replicate l.1 l.2

/-- The types of all locals: the parameters come first. -/
def localTypes (f : Func) : List SignlessType :=
  f.type.params ++ f.declared

/-- The context of the body: its one label is the function's. -/
def context (m : ModuleContext) (f : Func) : Context where
  module := m
  locals := f.localTypes
  labels := [f.type.returns]
  returns := f.type.returns

/-- The function passes validation. -/
def Validated (m : ModuleContext) (f : Func) : Prop :=
  ∃ o, f.body.check (f.context m) (.live []) = some o ∧ o.closes f.type.returns = true

/-- The operators lightbeam reads. -/
def operators (f : Func) : List WasmOperator :=
  f.body.flatten ++ [.end_]

end Func

end Wasmtime.Lightbeam
