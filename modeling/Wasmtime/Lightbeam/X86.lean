import Mathlib
import Wasmtime.Lightbeam.Wasm

/-!
# The target machine

What of x86-64 the backend in `lightbeam/src/backend.rs` relies on: sixteen general purpose and
sixteen vector registers (the low 64 bits of each), the flags, and the stack, whose slots are
eight bytes wide and addressed from `rsp`.

* `Instr` has the instructions that move values, each with its meaning (`Instr.exec`). None of
  them writes the flags. A `mov` to a 32-bit register clears the upper half; a `mov` of a DWORD to
  memory does not.
* `CondCode` is named as in the source, where `ZF0` stands for "equal". `CondCode.holds` follows
  the `set` instruction that `copy_value` emits for each.

Results:
* `Instr.execAll_flags`: the moves leave the flags alone.
-/

namespace Wasmtime.Lightbeam.Backend

/-! ## Registers -/

/-- `GPRType`. -/
inductive GPRType
  | rq
  | rx
  deriving DecidableEq, Repr

abbrev RegId := Fin 16

instance instNeZeroRegs : NeZero 16 := ⟨Nat.succ_ne_zero 15⟩

/-- `GPR`: a general purpose or a vector register. -/
inductive GPR
  | rq (r : RegId)
  | rx (r : RegId)
  deriving DecidableEq, Repr

/-- `GPR::type_`. -/
def GPR.type : GPR → GPRType
  | .rq _ => .rq
  | .rx _ => .rx

/-- The register of a type with a number. -/
def GPRType.gpr : GPRType → RegId → GPR
  | .rq => .rq
  | .rx => .rx

def rax : GPR := .rq 0
def rcx : GPR := .rq 1
def rdx : GPR := .rq 2
def rsi : GPR := .rq 6
def r8 : GPR := .rq 8
def r9 : GPR := .rq 9
def r10 : GPR := .rq 10
def r11 : GPR := .rq 11

/-! ## Flags -/

/-- The flags that the condition codes read. -/
structure Flags where
  cf : Bool
  zf : Bool
  sf : Bool
  of : Bool
  deriving DecidableEq, Repr

/-- `CondCode`. -/
inductive CondCode
  | cf0
  | cf1
  | zf0
  | zf1
  | cf0AndZf0
  | cf1OrZf1
  | zf0AndSfEqOf
  | zf1OrSfNeOf
  | sfEqOf
  | sfNeOf
  deriving DecidableEq, Repr

namespace CondCode

/-- What `sete`, `setne` and so on store: `cc::EQUAL` is `ZF0`. -/
def holds (f : Flags) : CondCode → Bool
  | cf0 => !f.cf
  | cf1 => f.cf
  | zf0 => f.zf
  | zf1 => !f.zf
  | cf0AndZf0 => !f.cf && !f.zf
  | cf1OrZf1 => f.cf || f.zf
  | zf0AndSfEqOf => !f.zf && f.sf == f.of
  | zf1OrSfNeOf => f.zf || f.sf != f.of
  | sfEqOf => f.sf == f.of
  | sfNeOf => f.sf != f.of

end CondCode

/-! ## Instructions -/

/-- `LabelValue`: a constant in the constant pool. -/
inductive LabelValue
  | i32 (v : BitVec 32)
  | i64 (v : BitVec 64)
  deriving DecidableEq, Repr

/-- Displacements are in bytes and relative to `rsp`. -/
inductive Instr
  /-- `mov`, `movq` or `movapd` between two registers. -/
  | mov (dst src : GPR)
  /-- `mov` or `movq` from `[rsp + disp]`. -/
  | load (dst : GPR) (disp : Int)
  /-- `mov` or `movq` to `[rsp + disp]`. -/
  | store (disp : Int) (src : GPR)
  /-- `mov Rd, imm`. -/
  | movImm32 (dst : RegId) (v : BitVec 32)
  /-- `mov Rq, QWORD imm`. -/
  | movImm64 (dst : RegId) (v : BitVec 64)
  /-- `mov DWORD [rsp + disp], imm`. -/
  | storeImm32 (disp : Int) (v : BitVec 32)
  /-- `mov QWORD [rsp + disp], DWORD 0`. -/
  | storeZero (disp : Int)
  /-- `movq Rx, [label]`. -/
  | loadPool (dst : RegId) (v : LabelValue)
  /-- `set? Rb`. -/
  | set (c : CondCode) (dst : RegId)
  /-- `set? [rsp + disp]`. -/
  | setStack (c : CondCode) (disp : Int)
  | push (src : RegId)
  /-- `push QWORD [rsp + disp]`. -/
  | pushStack (disp : Int)
  | pop (dst : RegId)
  /-- `lea rsp, [rsp + disp]`. -/
  | leaRsp (disp : Int)
  deriving DecidableEq, Repr

/-- The registers, the stack by the address of a slot, and what follows a four-byte constant in
the constant pool. -/
structure Machine where
  regs : GPR → BitVec 64
  mem : Int → BitVec 64
  rsp : Int
  flags : Flags
  pool : BitVec 32 → BitVec 32

namespace Machine

def setReg (μ : Machine) (r : GPR) (v : BitVec 64) : Machine :=
  { μ with regs := fun r' => if r' = r then v else μ.regs r' }

def setMem (μ : Machine) (a : Int) (v : BitVec 64) : Machine :=
  { μ with mem := fun a' => if a' = a then v else μ.mem a' }

end Machine

/-- A byte as `set?` writes it. -/
def condByte (b : Bool) : BitVec 8 := if b then 1 else 0

/-- Replace the low byte. -/
def lowByte (b : BitVec 8) (v : BitVec 64) : BitVec 64 :=
  v.extractLsb' 8 56 ++ b

namespace Instr

def exec (μ : Machine) : Instr → Machine
  | mov dst src => μ.setReg dst (μ.regs src)
  | load dst disp => μ.setReg dst (μ.mem (μ.rsp + disp))
  | store disp src => μ.setMem (μ.rsp + disp) (μ.regs src)
  | movImm32 dst v => μ.setReg (.rq dst) (v.setWidth 64)
  | movImm64 dst v => μ.setReg (.rq dst) v
  | storeImm32 disp v =>
      μ.setMem (μ.rsp + disp) ((μ.mem (μ.rsp + disp)).extractLsb' 32 32 ++ v)
  | storeZero disp => μ.setMem (μ.rsp + disp) 0
  | loadPool dst (.i32 v) => μ.setReg (.rx dst) (μ.pool v ++ v)
  | loadPool dst (.i64 v) => μ.setReg (.rx dst) v
  | set c dst => μ.setReg (.rq dst) (lowByte (condByte (c.holds μ.flags)) (μ.regs (.rq dst)))
  | setStack c disp =>
      μ.setMem (μ.rsp + disp) (lowByte (condByte (c.holds μ.flags)) (μ.mem (μ.rsp + disp)))
  | push src => { μ.setMem (μ.rsp - 8) (μ.regs (.rq src)) with rsp := μ.rsp - 8 }
  | pushStack disp => { μ.setMem (μ.rsp - 8) (μ.mem (μ.rsp + disp)) with rsp := μ.rsp - 8 }
  | pop dst => { μ.setReg (.rq dst) (μ.mem μ.rsp) with rsp := μ.rsp + 8 }
  | leaRsp disp => { μ with rsp := μ.rsp + disp }

theorem exec_store (μ : Machine) (disp : Int) (src : GPR) :
    (store disp src).exec μ = μ.setMem (μ.rsp + disp) (μ.regs src) := rfl

theorem exec_push (μ : Machine) (src : RegId) :
    (push src).exec μ = { μ.setMem (μ.rsp - 8) (μ.regs (.rq src)) with rsp := μ.rsp - 8 } := rfl

theorem exec_pop (μ : Machine) (dst : RegId) :
    (pop dst).exec μ = { μ.setReg (.rq dst) (μ.mem μ.rsp) with rsp := μ.rsp + 8 } := rfl

theorem exec_flags (μ : Machine) (i : Instr) : (i.exec μ).flags = μ.flags := by
  rcases i with _ | _ | _ | _ | _ | _ | _ | ⟨_, _ | _⟩ | _ | _ | _ | _ | _ | _ <;> rfl

end Instr

/-- Moves in the order they are emitted. -/
def Instr.execAll (code : List Instr) (μ : Machine) : Machine :=
  code.foldl Instr.exec μ

@[simp]
theorem Instr.execAll_nil (μ : Machine) : Instr.execAll [] μ = μ := rfl

@[simp]
theorem Instr.execAll_cons (i : Instr) (code : List Instr) (μ : Machine) :
    Instr.execAll (i :: code) μ = Instr.execAll code (i.exec μ) := rfl

@[simp]
theorem Instr.execAll_append (a b : List Instr) (μ : Machine) :
    Instr.execAll (a ++ b) μ = Instr.execAll b (Instr.execAll a μ) :=
  List.foldl_append

theorem Instr.execAll_flags (code : List Instr) (μ : Machine) :
    (Instr.execAll code μ).flags = μ.flags := by
  induction code generalizing μ with
  | nil => rfl
  | cons i code ih => exact (ih _).trans (Instr.exec_flags μ i)

end Wasmtime.Lightbeam.Backend
