import Mathlib
import Wasmtime.Lightbeam.X86

/-!
# The code generator

The part of `Context` in `lightbeam/src/backend.rs` that keeps track of where values are and moves
them: the reference-counted registers, the virtual stack of value locations, the depth of the
real stack, and the code emitted so far.

* `Gen` is a state monad with failure; failure is a panic (`unwrap`, `expect`, a double free).
* The virtual stack is listed from its top; the source keeps it in a `Vec` with the top last.
* Reference counts are `u8`. Where one would pass 255, a build with overflow checks panics, and one without
  goes on with 0.
* A `ValueLocation.cond` carries the number of the instruction whose flags it reads. The source
  has no such number, and no function here looks at it.
* `take_reg`, `free_reg`, `push_physical`, `to_reg` and `copy_value` call each other. Those that
  `take_reg` needs take it as a parameter (`copyValueWith` and so on), and `takeRegFuel` closes
  the recursion; every turn of it moves a register of the virtual stack to the real one.
-/

namespace Wasmtime.Lightbeam.Backend

/-! ## Locations -/

/-- `CCLoc`: a location of a calling convention. -/
inductive CCLoc
  | reg (r : GPR)
  | stack (offset : Int)
  deriving DecidableEq, Repr

/-- `ValueLocation`. A stack offset counts words from `rsp` as it was at the entry of the
function. -/
inductive ValueLocation
  | reg (r : GPR)
  | stack (offset : Int)
  | immediate (v : Value)
  | cond (c : CondCode) (id : Nat)
  deriving DecidableEq, Repr

/-- `impl From<CCLoc> for ValueLocation`. -/
def ValueLocation.ofCC : CCLoc → ValueLocation
  | .reg r => .reg r
  | .stack o => .stack o

/-- `ValueLocation::reg`. -/
def ValueLocation.reg? : ValueLocation → Option GPR
  | .reg r => some r
  | _ => none

/-- The value is in a register of the type. -/
def isReg (ty : GPRType) (v : ValueLocation) : Bool := v.reg?.any fun r => decide (r.type = ty)

/-- `WORD_SIZE`. -/
def wordSize : Int := 8

def scratchRegs : List GPR :=
  [rsi, rdx, rcx, r8, r9, rax, r10, r11, .rx 0, .rx 1, .rx 2, .rx 3, .rx 4, .rx 5, .rx 6, .rx 7,
    .rx 8, .rx 9, .rx 10, .rx 11, .rx 12, .rx 13, .rx 14, .rx 15]

/-- `VMCTX`. -/
def vmctx : RegId := 7

/-! ## Registers -/

/-- `Registers`: which registers are free, and how many values each holds, a `u8`. -/
structure Registers where
  free : GPR → Bool
  count : GPR → Nat

namespace Registers

/-- `Registers::new`: the scratch registers have been released, the others are never free. -/
def new : Registers where
  free r := decide (r ∈ scratchRegs)
  count r := if r ∈ scratchRegs then 0 else 1

/-- `Registers::mark_used`; `none` is an overflow of the count. -/
def markUsed (overflowChecks : Bool) (regs : Registers) (r : GPR) : Option Registers :=
  if overflowChecks ∧ regs.count r = 255 then none
  else some
    { free := fun r' => if r' = r then false else regs.free r'
      count := fun r' => if r' = r then (regs.count r + 1) % 256 else regs.count r' }

/-- `Registers::release`; `none` is a double free. -/
def release (regs : Registers) (r : GPR) : Option Registers :=
  if regs.count r = 0 then none
  else some
    { free := fun r' => if r' = r then regs.count r == 1 || regs.free r else regs.free r'
      count := fun r' => if r' = r then regs.count r - 1 else regs.count r' }

/-- `GPRs::take`: the free register with the lowest number. -/
def lowestFree (regs : Registers) (ty : GPRType) : Option GPR :=
  ((List.finRange 16).find? fun r => regs.free (ty.gpr r)).map ty.gpr

/-- `Registers::take`. -/
def take (overflowChecks : Bool) (regs : Registers) (ty : GPRType) : Option (Option GPR × Registers) :=
  match regs.lowestFree ty with
  | some r => (regs.markUsed overflowChecks r).map fun regs => (some r, regs)
  | none => some (none, regs)

end Registers

/-! ## The state of the generator -/

/-- What `Context` keeps of the current block, and the moves emitted so far. -/
structure Context where
  /-- How Lightbeam itself was built. -/
  overflowChecks : Bool
  stack : List ValueLocation
  depth : Nat
  regs : Registers
  asm : List Instr

abbrev Gen := StateT Context Option

/-- A panic. -/
def panic {α : Type} : Gen α := fun _ => none

/-- `unwrap` or `expect`. -/
def unwrap {α : Type} : Option α → Gen α
  | some a => pure a
  | none => panic

def emit (i : Instr) : Gen Unit := modify fun s => { s with asm := s.asm ++ [i] }

def markUsed (r : GPR) : Gen Unit := fun s =>
  (s.regs.markUsed s.overflowChecks r).map fun regs => ((), { s with regs := regs })

def release (r : GPR) : Gen Unit := fun s =>
  (s.regs.release r).map fun regs => ((), { s with regs := regs })

def takeFree (ty : GPRType) : Gen (Option GPR) := fun s =>
  (s.regs.take s.overflowChecks ty).map fun (gpr, regs) => (gpr, { s with regs := regs })

/-- `StackDepth::reserve`. -/
def reserve (slots : Nat) : Gen Unit := modify fun s => { s with depth := s.depth + slots }

/-- `Context::adjusted_offset`. -/
def adjustedOffset (offset : Int) : Gen Int := do
  return ((← get).depth + offset) * wordSize

/-- `Context::free_value`. -/
def freeValue : ValueLocation → Gen Unit
  | .reg r => release r
  | _ => pure ()

/-- `Context::pop`. -/
def pop : Gen ValueLocation := fun s =>
  match s.stack with
  | v :: stack => some (v, { s with stack := stack })
  | [] => none

/-- `Value::as_bytes`. -/
def asBytes : Value → BitVec 64
  | .i32 v => v.signExtend 64
  | .i64 v => v
  | .f32 bits => bits.setWidth 64
  | .f64 bits => bits

/-- `LabelValue::from(Value)`. -/
def LabelValue.ofValue : Value → LabelValue
  | .i32 v => .i32 v
  | .i64 v => .i64 v
  | .f32 bits => .i32 bits
  | .f64 bits => .i64 bits

/-- `Context::immediate_to_reg`. -/
def immediateToReg (reg : GPR) (val : Value) : Gen Unit :=
  match reg with
  | .rq r =>
      if (asBytes val).toNat < 2 ^ 32 then emit (.movImm32 r ((asBytes val).setWidth 32))
      else emit (.movImm64 r (asBytes val))
  | .rx r => emit (.loadPool r (.ofValue val))

/-! ## Moving values -/

/-- `copy_value` from a condition code to a general purpose register. -/
def copyCond (c : CondCode) (r : RegId) : Gen Unit := do
  emit (.movImm32 r 0)
  emit (.set c r)

/-- `copy_value` between registers. -/
def copyReg (inReg outReg : GPR) : Gen Unit :=
  if inReg ≠ outReg then emit (.mov outReg inReg) else pure ()

section OpenRecursion

variable (takeReg : GPRType → Gen (Option GPR))

/-- `Context::copy_value`. -/
def copyValueWith (src : ValueLocation) (dst : CCLoc) : Gen Unit :=
  match src, dst with
  | .cond c _, .stack o => do
      let offset ← adjustedOffset o
      emit (.storeZero offset)
      emit (.setStack c offset)
  | .cond c _, .reg (.rq r) => copyCond c r
  | .cond c _, .reg (.rx r) => do
      let temp ← unwrap (← takeReg .rq)
      match temp with
      | .rq t => copyCond c t
      | .rx _ => panic
      copyReg temp (.rx r)
      freeValue (.reg temp)
  | .stack inOffset, .stack outOffset => do
      let inOffset ← adjustedOffset inOffset
      let outOffset ← adjustedOffset outOffset
      if inOffset ≠ outOffset then
        match ← takeReg .rq with
        | some gpr =>
            emit (.load gpr inOffset)
            emit (.store outOffset gpr)
            release gpr
        | none =>
            emit (.push 0)
            emit (.load rax (inOffset + wordSize))
            emit (.store (outOffset + wordSize) rax)
            emit (.pop 0)
  | .reg inReg, .stack outOffset => do
      let outOffset ← adjustedOffset outOffset
      emit (.store outOffset inReg)
  | .immediate i, .stack outOffset => do
      let outOffset ← adjustedOffset outOffset
      if (asBytes i).toNat < 2 ^ 32 then
        emit (.storeImm32 outOffset ((asBytes i).setWidth 32))
      else
        match ← takeReg .rq with
        | some scratch =>
            immediateToReg64 scratch i
            emit (.store outOffset scratch)
            release scratch
        | none =>
            emit (.push 0)
            emit (.movImm64 0 (asBytes i))
            emit (.store (outOffset + wordSize) rax)
            emit (.pop 0)
  | .stack inOffset, .reg outReg => do
      let inOffset ← adjustedOffset inOffset
      emit (.load outReg inOffset)
  | .reg inReg, .reg outReg => copyReg inReg outReg
  | .immediate i, .reg outReg => immediateToReg outReg i
where
  /-- `mov Rq(scratch), QWORD i`. -/
  immediateToReg64 (scratch : GPR) (i : Value) : Gen Unit :=
    match scratch with
    | .rq r => emit (.movImm64 r (asBytes i))
    | .rx _ => panic

/-- `Context::to_reg`. -/
def toRegWith (ty : Option GPRType) (val : ValueLocation) : Gen (Option GPR) := do
  match val.reg? with
  | some r =>
      if ty.all (· = r.type) then
        markUsed r
        return some r
  | none => pure ()
  match ← takeReg (ty.getD .rq) with
  | some scratch =>
      copyValueWith takeReg val (.reg scratch)
      return some scratch
  | none => return none

/-- `Context::into_reg`; the value is then in the register. -/
def intoRegWith (ty : Option GPRType) (val : ValueLocation) : Gen (Option GPR) := do
  match ← toRegWith takeReg ty val with
  | some out =>
      freeValue val
      return some out
  | none => return none

/-- `Context::push_physical`. -/
def pushPhysicalWith (value : ValueLocation) : Gen ValueLocation := do
  let outOffset : Int := -((← get).depth + 1)
  match value with
  | .stack o =>
      let offset ← adjustedOffset o
      emit (.pushStack offset)
  | value =>
      match ← intoRegWith takeReg (some .rq) value with
      | some (.rq gpr) =>
          emit (.push gpr)
          freeValue (.reg (.rq gpr))
      | some (.rx _) => panic
      | none =>
          emit (.push 0)
          copyValueWith takeReg value (.stack outOffset)
          freeValue value
  reserve 1
  return .stack outOffset

/-- The elements above the one that `free_reg` has moved. -/
def replaceAbove (old new : ValueLocation) : List ValueLocation → Gen (List ValueLocation)
  | [] => pure []
  | v :: above => do
      if v = old then
        freeValue old
        return new :: (← replaceAbove old new above)
      else
        return v :: (← replaceAbove old new above)

/-- `Context::free_reg`: move the lowest register of a type to the real stack. -/
def freeRegWith (ty : GPRType) : Gen Bool := do
  -- From the bottom, as in the source.
  match (← get).stack.reverse.findIdx? (isReg ty) with
  | none => return false
  | some pos =>
      let oldLoc ← unwrap (← get).stack.reverse[pos]?
      let newLoc ← pushPhysicalWith takeReg oldLoc
      let stack := (← get).stack.reverse
      let above ← replaceAbove oldLoc newLoc (stack.drop (pos + 1))
      modify fun s => { s with stack := (stack.take pos ++ newLoc :: above).reverse }
      return true

end OpenRecursion

/-- The loop of `take_reg`. -/
def takeRegFuel : Nat → GPRType → Gen (Option GPR)
  | 0, _ => panic
  | n + 1, ty => do
      match ← takeFree ty with
      | some gpr => return some gpr
      | none =>
          if ← freeRegWith (takeRegFuel n) ty then takeRegFuel n ty else return none

/-- `Context::take_reg`. -/
def takeReg (ty : GPRType) : Gen (Option GPR) := do
  takeRegFuel ((← get).stack.length + 2) ty

def copyValue : ValueLocation → CCLoc → Gen Unit := copyValueWith takeReg
def toReg : Option GPRType → ValueLocation → Gen (Option GPR) := toRegWith takeReg
def intoReg : Option GPRType → ValueLocation → Gen (Option GPR) := intoRegWith takeReg
def pushPhysical : ValueLocation → Gen ValueLocation := pushPhysicalWith takeReg

end Wasmtime.Lightbeam.Backend
