import Mathlib
import Wasmtime.Jit.Trampoline
import Wasmtime.Lib.Ending

/-!
# Interface types

Model of `wasmtime-interface-types/src/lib.rs`: the bindings of an export, and the translation of values into
the arguments of a core function and out of its results.

* The binding expressions are those of `wasm_webidl_bindings::ast`, with the kinds that no arm names as
  `other`. `ModuleData` is what the parser of the custom section has found.
* A guest is its exports and what a call of one does to its memory and to the rest of its state. `invoke`
  looks the export up and asserts the types of the arguments, as `wasmtime-jit/src/action.rs` does.
* A computation ends with a value, with an error, or with a panic. `Error` has one constructor for each
  `bail!` and `format_err!`, with what its text is built from.
* `i as f64` of an `f32` is a parameter.

Results: `translateIncoming_default`, `translateOutgoing_default` and `roundTrips_iff`.
-/

namespace Wasmtime.InterfaceTypes

open Jit

/-! ## Values and bindings -/

/-- `Value` (`value.rs`); floats are their bits. -/
inductive Value where
  | string (s : String)
  | i32 (x : BitVec 32)
  | u32 (x : BitVec 32)
  | i64 (x : BitVec 64)
  | u64 (x : BitVec 64)
  | f32 (x : BitVec 32)
  | f64 (x : BitVec 64)
  deriving DecidableEq

/-- `walrus::ValType`. -/
inductive ValType where
  | i32 | i64 | f32 | f64 | v128 | anyref
  deriving DecidableEq, Repr

/-- `ast::WebidlScalarType`. -/
inductive WebidlScalarType where
  | long | unsignedLong | longLong | unsignedLongLong
  | float | unrestrictedFloat | double | unrestrictedDouble
  | domString
  | other (name : String)
  deriving DecidableEq, Repr

/-- `ast::WebidlTypeRef`. -/
inductive WebidlTypeRef where
  | id (id : Nat)
  | scalar (ty : WebidlScalarType)
  deriving DecidableEq, Repr

/-- `ast::IncomingBindingExpression`. -/
inductive IncomingBindingExpression where
  | get (idx : UInt32)
  | as (ty : ValType) (expr : IncomingBindingExpression)
  | allocUtf8Str (allocFuncName : String) (expr : IncomingBindingExpression)
  | other (name : String)

/-- `ast::OutgoingBindingExpression`. -/
inductive OutgoingBindingExpression where
  | as (ty : WebidlTypeRef) (idx : UInt32)
  | utf8Str (ty : WebidlTypeRef) (offset length : UInt32)
  | other (name : String)

/-! ## Outcomes -/

/-- The errors. -/
inductive Error where
  | noExport (name : String)
  | notFunction (name : String)
  | unsupportedType (ty : ValueType)
  | argumentIndex (idx : UInt32)
  | incomingExpr (expr : IncomingBindingExpression)
  | lengthOverflow
  | fieldError (name : String)
  | kindError (name : String)
  | setup (message : String)
  | trapped (message : String)
  | numberOfResults
  | badReturnType
  | noMemory
  | notMemory
  | expectedString
  | cannotConvert (val : Value) (ty : ValType)
  | unsupportedAs (ty : ValType)
  | cantConvert (arg : RuntimeValue) (ty : WebidlScalarType)
  | outgoingExpr (expr : OutgoingBindingExpression)
  | intoDomString
  | offsetType
  | lengthType

/-- How a computation ends. -/
abbrev Ends := Ending Error Unit

/-! ## The guest -/

/-- An export, as far as it is told apart. -/
inductive ExportKind where
  | function (signature : Signature)
  | memory
  | other

/-- How the call of a function ends. -/
inductive Called where
  | setup (message : String)
  | trapped (message : String)
  | returned (values : List RuntimeValue)

/-- The bytes of the memory exported as `memory`, at most 65536 pages, and what else a call may change. -/
structure State (τ : Type) where
  memory : List UInt8
  rest : τ
  memory_le : memory.length ≤ 2 ^ 32

/-- An instance and the context it is called in. -/
structure Guest (τ : Type) where
  exports : String → Option ExportKind
  call : State τ → String → List RuntimeValue → Called × State τ

section

variable {τ : Type}

/-- `Context::invoke`, with the trap reported by its caller. -/
def invoke (g : Guest τ) (s : State τ) (field : String) (args : List RuntimeValue) :
    Ends (List RuntimeValue × State τ) :=
  match g.exports field with
  | some (.function signature) =>
    if Jit.invoke.accepts signature args then
      match g.call s field args with
      | (.setup message, _) => .err (.setup message)
      -- `bail!("trapped: {}", message)`
      | (.trapped message, _) => .err (.trapped message)
      | (.returned values, s) => .ok (values, s)
    else .panic ()
  | some _ => .err (.kindError field)
  | none => .err (.fieldError field)

/-- `handle.lookup("memory")`. -/
def rawMemory (g : Guest τ) (s : State τ) : Ends (List UInt8) :=
  match g.exports "memory" with
  | none => .err .noMemory
  | some .memory => .ok s.memory
  | some _ => .err .notMemory

/-- `as usize` of an `i32`. -/
def asUsize (x : BitVec 32) : Nat := (x.signExtend 64).toNat

/-- `raw[ptr as usize..][..len]`; `none` is a panic. -/
def slice (raw : List UInt8) (start len : Nat) : Option (List UInt8) :=
  if start ≤ raw.length ∧ len ≤ raw.length - start then some ((raw.drop start).take len) else none

/-- A memory with bytes at a place. -/
def overwrite (raw : List UInt8) (start : Nat) (bytes : List UInt8) : List UInt8 :=
  raw.take start ++ bytes ++ raw.drop (start + bytes.length)

theorem length_overwrite {raw bytes : List UInt8} {start : Nat}
    (h : start ≤ raw.length ∧ bytes.length ≤ raw.length - start) :
    (overwrite raw start bytes).length = raw.length := by
  simp only [overwrite, List.length_append, List.length_take, List.length_drop]
  omega

/-- `copy_from_slice` to `raw[ptr as usize..][..bytes.len()]`; `none` is a panic. -/
def State.copyFromSlice (s : State τ) (start : Nat) (bytes : List UInt8) : Option (State τ) :=
  if h : start ≤ s.memory.length ∧ bytes.length ≤ s.memory.length - start then
    some { s with
      memory := overwrite s.memory start bytes
      memory_le := by
        rw [length_overwrite h]
        exact s.memory_le }
  else none

/-- The bytes of a string. -/
def asBytes (s : String) : List UInt8 := s.toByteArray.data.toList

/-- `str::from_utf8`. -/
def fromUtf8 (bytes : List UInt8) : Option String := String.fromUTF8? ⟨bytes.toArray⟩

/-! ## Incoming values -/

/-- The closure `get` of `translate_incoming`. -/
def getArg (args : List Value) : IncomingBindingExpression → Ends Value
  | .get idx => Ending.okOrElse (.argumentIndex idx) args[idx.toNat]?
  | expr => .err (.incomingExpr expr)

/-- The closure `copy`, once the allocator has returned. -/
def copyTo (g : Guest τ) (s : State τ) (bytes : List UInt8) :
    List RuntimeValue → Ends ((BitVec 32 × BitVec 32) × State τ)
  | [.i32 ptr] =>
    (rawMemory g s).bind fun _ =>
      match s.copyFromSlice (asUsize ptr) bytes with
      | some s => .ok ((ptr, BitVec.ofNat 32 bytes.length), s)
      | none => .panic ()
  | [_] => .err .badReturnType
  | _ => .err .numberOfResults

/-- The closure `copy`, with the state after it. -/
def copy (g : Guest τ) (s : State τ) (allocFuncName : String) (bytes : List UInt8) :
    Ends ((BitVec 32 × BitVec 32) × State τ) :=
  if bytes.length < 2 ^ 31 then
    (invoke g s allocFuncName [.i32 (BitVec.ofNat 32 bytes.length)]).bind fun p =>
      copyTo g p.2 bytes p.1
  else .err .lengthOverflow

/-- The arm `AllocUtf8Str` of `translate_incoming`. -/
def incomingString (g : Guest τ) (s : State τ) (allocFuncName : String) :
    Value → Ends (List RuntimeValue × State τ)
  | .string val =>
    (copy g s allocFuncName (asBytes val)).bind fun p => .ok ([.i32 p.1.1, .i32 p.1.2], p.2)
  | _ => .err .expectedString

variable (promote : BitVec 32 → BitVec 64)

/-- The arm `As` of `translate_incoming`. -/
def incomingAs (ty : ValType) (val : Value) : Ends RuntimeValue :=
  match ty, val with
  | .i32, .i32 i => .ok (.i32 i)
  | .i32, .u32 i => .ok (.i32 i)
  | .i64, .i32 i => .ok (.i64 (i.signExtend 64))
  | .i64, .u32 i => .ok (.i64 (i.setWidth 64))
  | .i64, .i64 i => .ok (.i64 i)
  | .i64, .u64 i => .ok (.i64 i)
  | .f32, .f32 i => .ok (.f32 i)
  | .f64, .f32 i => .ok (.f64 (promote i))
  | .f64, .f64 i => .ok (.f64 i)
  | .v128, _ => .err (.unsupportedAs .v128)
  | .anyref, _ => .err (.unsupportedAs .anyref)
  | ty, val => .err (.cannotConvert val ty)

/-- One round of the loop of `translate_incoming`: what is pushed, and the state after it. -/
def translateIncomingOne (g : Guest τ) (args : List Value) (s : State τ) :
    IncomingBindingExpression → Ends (List RuntimeValue × State τ)
  | .allocUtf8Str allocFuncName expr =>
    (getArg args expr).bind (incomingString g s allocFuncName)
  | .as ty expr =>
    (getArg args expr).bind fun val => (incomingAs promote ty val).bind fun v => .ok ([v], s)
  | expr => .err (.incomingExpr expr)

/-- `translate_incoming`. -/
def translateIncoming (g : Guest τ) (args : List Value) :
    State τ → List IncomingBindingExpression → Ends (List RuntimeValue × State τ)
  | s, [] => .ok ([], s)
  | s, expr :: bindings =>
    (translateIncomingOne promote g args s expr).bind fun (pushed, s) =>
      (translateIncoming g args s bindings).bind fun (wasm, s) => .ok (pushed ++ wasm, s)

/-! ## Outgoing values -/

/-- The closure `get` of `translate_outgoing`. -/
def getResult (args : List RuntimeValue) (idx : UInt32) : Ends RuntimeValue :=
  Ending.okOrElse (.argumentIndex idx) args[idx.toNat]?

/-- The arm `As` of `translate_outgoing`. -/
def outgoingAs (expr : OutgoingBindingExpression) (ty : WebidlTypeRef) (arg : RuntimeValue) :
    Ends Value :=
  match ty, arg with
  | .scalar .unsignedLong, .i32 a => .ok (.u32 a)
  | .scalar .long, .i32 a => .ok (.i32 a)
  | .scalar .longLong, .i32 a => .ok (.i64 (a.signExtend 64))
  | .scalar .longLong, .i64 a => .ok (.i64 a)
  | .scalar .unsignedLongLong, .i32 a => .ok (.u64 (a.signExtend 64))
  | .scalar .unsignedLongLong, .i64 a => .ok (.u64 a)
  | .scalar .float, .f32 a => .ok (.f32 a)
  | .scalar .double, .f32 a => .ok (.f64 (promote a))
  | .scalar .double, .f64 a => .ok (.f64 a)
  | .scalar .unsignedLong, arg => .err (.cantConvert arg .unsignedLong)
  | .scalar .long, arg => .err (.cantConvert arg .long)
  | .scalar .longLong, arg => .err (.cantConvert arg .longLong)
  | .scalar .unsignedLongLong, arg => .err (.cantConvert arg .unsignedLongLong)
  | .scalar .float, arg => .err (.cantConvert arg .float)
  | .scalar .double, arg => .err (.cantConvert arg .double)
  | _, _ => .err (.outgoingExpr expr)

/-- A result that must be an `i32`. -/
def getI32 (args : List RuntimeValue) (idx : UInt32) (e : Error) : Ends (BitVec 32) :=
  (getResult args idx).bind fun
    | .i32 a => .ok a
    | _ => .err e

/-- The string of an offset and a length. -/
def readString (g : Guest τ) (s : State τ) (offset length : BitVec 32) : Ends Value :=
  (rawMemory g s).bind fun raw =>
    match slice raw (asUsize offset) (asUsize length) with
    | none => .panic ()
    | some bytes =>
      -- `str::from_utf8(bytes).unwrap()`
      match fromUtf8 bytes with
      | some string => .ok (.string string)
      | none => .panic ()

/-- One round of the loop of `translate_outgoing`. -/
def translateOutgoingOne (g : Guest τ) (s : State τ) (args : List RuntimeValue)
    (expr : OutgoingBindingExpression) : Ends Value :=
  match expr with
  | .as ty idx => (getResult args idx).bind fun arg => outgoingAs promote expr ty arg
  | .utf8Str ty offset length =>
    if ty ≠ .scalar .domString then .err .intoDomString
    else
      (getI32 args offset .offsetType).bind fun offset =>
        (getI32 args length .lengthType).bind fun length => readString g s offset length
  | expr => .err (.outgoingExpr expr)

/-- `translate_outgoing`. -/
def translateOutgoing (g : Guest τ) (s : State τ) (args : List RuntimeValue) :
    List OutgoingBindingExpression → Ends (List Value)
  | [] => .ok []
  | expr :: bindings =>
    (translateOutgoingOne promote g s args expr).bind fun value =>
      (translateOutgoing g s args bindings).bind fun values => .ok (value :: values)

end

/-! ## Default bindings -/

/-- `default_incoming`. -/
def defaultIncoming (idx : Nat) (param : AbiParam) : Ends IncomingBindingExpression :=
  let get := IncomingBindingExpression.get (UInt32.ofNat idx)
  match param.valueType with
  | .i32 => .ok (.as .i32 get)
  | .i64 => .ok (.as .i64 get)
  | .f32 => .ok (.as .f32 get)
  | .f64 => .ok (.as .f64 get)
  | ty => .err (.unsupportedType ty)

/-- `abi2ast`. -/
def abi2ast (param : AbiParam) : Ends WebidlScalarType :=
  match param.valueType with
  | .i32 => .ok .long
  | .i64 => .ok .longLong
  | .f32 => .ok .unrestrictedFloat
  | .f64 => .ok .unrestrictedDouble
  | ty => .err (.unsupportedType ty)

/-- `default_outgoing`. -/
def defaultOutgoing (idx : Nat) (param : AbiParam) : Ends OutgoingBindingExpression :=
  (abi2ast param).bind fun ty => .ok (.as (.scalar ty) (UInt32.ofNat idx))

/-- `collect` of results, with the positions from the `i`-th on. -/
def collectFrom {α : Type} (f : Nat → AbiParam → Ends α) (i : Nat) : List AbiParam → Ends (List α)
  | [] => .ok []
  | param :: params =>
    (f i param).bind fun a => (collectFrom f (i + 1) params).bind fun as => .ok (a :: as)

/-- `ExportBinding`. -/
inductive ExportBinding where
  | rich (params : List IncomingBindingExpression) (result : List OutgoingBindingExpression)
  | raw (signature : Signature)

/-- `ExportBinding::param_bindings`. -/
def ExportBinding.paramBindings : ExportBinding → Ends (List IncomingBindingExpression)
  | .rich params _ => .ok params
  -- skip the VMContext argument
  | .raw signature => collectFrom defaultIncoming 0 (signature.params.drop 1)

/-- `ExportBinding::result_bindings`. -/
def ExportBinding.resultBindings : ExportBinding → Ends (List OutgoingBindingExpression)
  | .rich _ result => .ok result
  | .raw signature => collectFrom defaultOutgoing 0 signature.returns

/-! ## Modules -/

/-- `walrus::ExportItem`. -/
inductive ExportItem where
  | function (id : Nat)
  | other

/-- `ast::FunctionBinding`. -/
inductive FunctionBinding where
  | export (params : List IncomingBindingExpression) (result : List OutgoingBindingExpression)
  | import

/-- `ast::WebidlBindings`: `binds` pairs a function with the index of its binding. -/
structure WebidlBindings where
  binds : List (Nat × Nat)
  bindings : Nat → Option FunctionBinding

/-- `walrus::Module`. -/
structure WalrusModule where
  customs : Option WebidlBindings
  exports : List (String × ExportItem)

/-- `ModuleData`. -/
structure ModuleData where
  inner : Option WalrusModule

namespace ModuleData

/-- `interface_binding_for_export`. -/
def interfaceBindingForExport (d : ModuleData) (name : String) : Ends (Option ExportBinding) :=
  match d.inner with
  | none => .ok none
  | some module =>
    match module.customs with
    | none => .ok none
    | some bindings =>
      match module.exports.find? fun e => e.1 = name with
      | none => .ok none
      | some (_, .other) => .panic ()
      | some (_, .function id) =>
        match bindings.binds.find? fun b => b.1 = id with
        | none => .ok none
        | some bind =>
          match bindings.bindings bind.2 with
          | some (.export params result) => .ok (some (.rich params result))
          | _ => .ok none

variable {τ : Type}

/-- `binding_for_export`. -/
def bindingForExport (d : ModuleData) (g : Guest τ) (name : String) : Ends ExportBinding :=
  (d.interfaceBindingForExport name).bind fun
    | some binding => .ok binding
    | none =>
      match g.exports name with
      | some (.function signature) => .ok (.raw signature)
      | some _ => .err (.notFunction name)
      | none => .err (.noExport name)

/-- `ModuleData::invoke`. -/
def invoke (promote : BitVec 32 → BitVec 64) (d : ModuleData) (g : Guest τ) (s : State τ)
    (export' : String) (args : List Value) : Ends (List Value × State τ) :=
  (d.bindingForExport g export').bind fun binding =>
    binding.paramBindings.bind fun incoming =>
      binding.resultBindings.bind fun outgoing =>
        (translateIncoming promote g args s incoming).bind fun (wasmArgs, s) =>
          (InterfaceTypes.invoke g s export' wasmArgs).bind fun (wasmResults, s) =>
            (translateOutgoing promote g s wasmResults outgoing).bind fun values => .ok (values, s)

end ModuleData

/-! ## Core values -/

/-- The types of a core signature. -/
inductive CoreType where
  | i32 | i64 | f32 | f64
  deriving DecidableEq, Repr

/-- The `ir::Type` of a core type. -/
def CoreType.valueType : CoreType → ValueType
  | i32 => .i32
  | i64 => .i64
  | f32 => .f32
  | f64 => .f64

/-- A value of a core type. -/
inductive CoreValue where
  | i32 (x : BitVec 32)
  | i64 (x : BitVec 64)
  | f32 (x : BitVec 32)
  | f64 (x : BitVec 64)

namespace CoreValue

def type : CoreValue → CoreType
  | i32 _ => .i32
  | i64 _ => .i64
  | f32 _ => .f32
  | f64 _ => .f64

/-- As an interface value. -/
def toValue : CoreValue → Value
  | i32 x => .i32 x
  | i64 x => .i64 x
  | f32 x => .f32 x
  | f64 x => .f64 x

/-- As a value of a core function. -/
def toRuntime : CoreValue → RuntimeValue
  | i32 x => .i32 x
  | i64 x => .i64 x
  | f32 x => .f32 x
  | f64 x => .f64 x

theorem valueType_toRuntime (v : CoreValue) : v.toRuntime.valueType = v.type.valueType := by
  cases v <;> rfl

end CoreValue

/-- The zero of a type. -/
def CoreType.zero : CoreType → CoreValue
  | i32 => .i32 0
  | i64 => .i64 0
  | f32 => .f32 0
  | f64 => .f64 0

theorem CoreType.type_zero (t : CoreType) : t.zero.type = t := by cases t <;> rfl

/-- A core signature: its vectors have a `u32` length in the binary format. -/
structure CoreSignature where
  params : List CoreType
  results : List CoreType
  params_lt : params.length < 2 ^ 32
  results_lt : results.length < 2 ^ 32

/-- Its `ir::Signature`. -/
def CoreSignature.signature (sig : CoreSignature) : Signature :=
  .ofTypes (sig.params.map CoreType.valueType) (sig.results.map CoreType.valueType)

/-! ## The default bindings of a core signature -/

/-- What `default_incoming` makes of the parameter at a position. -/
def CoreType.incoming (t : CoreType) (idx : Nat) : IncomingBindingExpression :=
  .as (match t with | i32 => .i32 | i64 => .i64 | f32 => .f32 | f64 => .f64) (.get (UInt32.ofNat idx))

/-- What `default_outgoing` makes of the result at a position. -/
def CoreType.outgoing (t : CoreType) (idx : Nat) : OutgoingBindingExpression :=
  .as (.scalar (match t with
    | i32 => .long | i64 => .longLong | f32 => .unrestrictedFloat | f64 => .unrestrictedDouble))
    (UInt32.ofNat idx)

theorem defaultIncoming_eq (t : CoreType) (idx : Nat) :
    defaultIncoming idx (.new t.valueType) = .ok (t.incoming idx) := by
  cases t <;> rfl

theorem defaultOutgoing_eq (t : CoreType) (idx : Nat) :
    defaultOutgoing idx (.new t.valueType) = .ok (t.outgoing idx) := by
  cases t <;> rfl

/-- The bindings of types from a position on. -/
def bindingsFrom {α : Type} (f : CoreType → Nat → α) (i : Nat) : List CoreType → List α
  | [] => []
  | t :: tys => f t i :: bindingsFrom f (i + 1) tys

theorem collectFrom_eq {α : Type} {f : Nat → AbiParam → Ends α} {f' : CoreType → Nat → α}
    (h : ∀ t idx, f idx (.new t.valueType) = .ok (f' t idx)) (i : Nat) (tys : List CoreType) :
    collectFrom f i ((tys.map CoreType.valueType).map .new) = .ok (bindingsFrom f' i tys) := by
  induction tys generalizing i with
  | nil => rfl
  | cons t tys ih =>
    rw [List.map_cons, List.map_cons, collectFrom, h, Ending.ok_bind, ih, Ending.ok_bind, bindingsFrom]

theorem paramBindings_eq (sig : CoreSignature) : (ExportBinding.raw sig.signature).paramBindings =
    .ok (bindingsFrom CoreType.incoming 0 sig.params) :=
  collectFrom_eq defaultIncoming_eq 0 sig.params

theorem resultBindings_eq (sig : CoreSignature) : (ExportBinding.raw sig.signature).resultBindings =
    .ok (bindingsFrom CoreType.outgoing 0 sig.results) :=
  collectFrom_eq defaultOutgoing_eq 0 sig.results

theorem drop_eq_cons {α : Type} {l : List α} {i : Nat} {a : α} {rest : List α}
    (h : l.drop i = a :: rest) : l[i]? = some a ∧ l.drop (i + 1) = rest := by
  refine ⟨by rw [← List.head?_drop, h, List.head?_cons], ?_⟩
  rw [← List.drop_drop, h, List.drop_succ_cons, List.drop_zero]

section

variable {τ : Type} {promote : BitVec 32 → BitVec 64} {g : Guest τ} {s : State τ}

theorem translateIncomingOne_incoming {args : List Value} {v : CoreValue} {i : Nat} (hi : i < 2 ^ 32)
    (h : args[i]? = some v.toValue) :
    translateIncomingOne promote g args s (v.type.incoming i) = .ok ([v.toRuntime], s) := by
  have hidx : (UInt32.ofNat i).toNat = i := UInt32.toNat_ofNat_of_lt' hi
  cases v <;>
    simp only [CoreValue.type, CoreType.incoming, translateIncomingOne, getArg, hidx, h,
      Ending.okOrElse, Ending.ok_bind, incomingAs, CoreValue.toRuntime, CoreValue.toValue]

/-- The default bindings take the arguments as they are. -/
theorem translateIncoming_default {args : List Value} (vals : List CoreValue) {i : Nat}
    (hi : i + vals.length ≤ 2 ^ 32)
    (h : args.drop i = vals.map CoreValue.toValue) :
    translateIncoming promote g args s (bindingsFrom CoreType.incoming i (vals.map CoreValue.type)) =
      .ok (vals.map CoreValue.toRuntime, s) := by
  induction vals generalizing i with
  | nil => rfl
  | cons v vals ih =>
    rw [List.length_cons] at hi
    obtain ⟨hhead, htail⟩ := drop_eq_cons h
    rw [List.map_cons, bindingsFrom, translateIncoming,
      translateIncomingOne_incoming (by omega) hhead, Ending.ok_bind]
    simp only [ih (by omega : i + 1 + vals.length ≤ 2 ^ 32) htail, Ending.ok_bind]
    rfl

theorem translateOutgoingOne_outgoing {args : List RuntimeValue} {v : CoreValue} {i : Nat}
    (hi : i < 2 ^ 32) (h : args[i]? = some v.toRuntime) (hv : v.type = .i32 ∨ v.type = .i64) :
    translateOutgoingOne promote g s args (v.type.outgoing i) = .ok v.toValue := by
  have hidx : (UInt32.ofNat i).toNat = i := UInt32.toNat_ofNat_of_lt' hi
  cases v with
  | i32 x =>
    simp only [CoreValue.type, CoreType.outgoing, translateOutgoingOne, getResult, hidx, h,
      Ending.okOrElse, Ending.ok_bind, outgoingAs, CoreValue.toRuntime, CoreValue.toValue]
  | i64 x =>
    simp only [CoreValue.type, CoreType.outgoing, translateOutgoingOne, getResult, hidx, h,
      Ending.okOrElse, Ending.ok_bind, outgoingAs, CoreValue.toRuntime, CoreValue.toValue]
  | f32 x => rcases hv with h | h <;> cases h
  | f64 x => rcases hv with h | h <;> cases h

/-- The default bindings return integers as they are. -/
theorem translateOutgoing_default {args : List RuntimeValue} (vals : List CoreValue) {i : Nat}
    (hi : i + vals.length ≤ 2 ^ 32)
    (h : args.drop i = vals.map CoreValue.toRuntime)
    (hint : ∀ v ∈ vals, v.type = .i32 ∨ v.type = .i64) :
    translateOutgoing promote g s args (bindingsFrom CoreType.outgoing i (vals.map CoreValue.type)) =
      .ok (vals.map CoreValue.toValue) := by
  induction vals generalizing i with
  | nil => rfl
  | cons v vals ih =>
    rw [List.length_cons] at hi
    obtain ⟨hhead, htail⟩ := drop_eq_cons h
    rw [List.map_cons, bindingsFrom, translateOutgoing,
      translateOutgoingOne_outgoing (by omega) hhead (hint v List.mem_cons_self), Ending.ok_bind,
      ih (by omega) htail fun w hw => hint w (List.mem_cons_of_mem _ hw)]
    rfl

/-- `translate_outgoing` has no arm for the types that `abi2ast` gives floats. -/
theorem ints_of_translateOutgoing {args : List RuntimeValue} {tys : List CoreType} {i : Nat}
    {values : List Value}
    (h : translateOutgoing promote g s args (bindingsFrom CoreType.outgoing i tys) = .ok values) :
    ∀ t ∈ tys, t = .i32 ∨ t = .i64 := by
  induction tys generalizing i values with
  | nil => exact fun t ht => absurd ht List.not_mem_nil
  | cons t tys ih =>
    obtain ⟨value, hone, hrest⟩ := Ending.bind_eq_ok.mp h
    obtain ⟨values', hrest, -⟩ := Ending.bind_eq_ok.mp hrest
    have ht : t = .i32 ∨ t = .i64 := by
      obtain ⟨arg, -, harg⟩ := Ending.bind_eq_ok.mp hone
      cases t with
      | i32 => exact .inl rfl
      | i64 => exact .inr rfl
      | f32 => cases arg <;> cases harg
      | f64 => cases arg <;> cases harg
    intro t' ht'
    rcases List.mem_cons.mp ht' with rfl | ht'
    · exact ht
    · exact ih hrest t' ht'

end

/-! ## Round trips -/

/-- The default bindings of a signature take its arguments and return its results as they are, and calling an
identity function through them returns the arguments. -/
structure RoundTrips (sig : CoreSignature) : Prop where
  incoming : ∃ bindings, (ExportBinding.raw sig.signature).paramBindings = .ok bindings ∧
    ∀ (τ : Type) (promote : BitVec 32 → BitVec 64) (g : Guest τ) (s : State τ) (args : List CoreValue),
      args.map CoreValue.type = sig.params →
        translateIncoming promote g (args.map CoreValue.toValue) s bindings =
          .ok (args.map CoreValue.toRuntime, s)
  outgoing : ∃ bindings, (ExportBinding.raw sig.signature).resultBindings = .ok bindings ∧
    ∀ (τ : Type) (promote : BitVec 32 → BitVec 64) (g : Guest τ) (s : State τ) (results : List CoreValue),
      results.map CoreValue.type = sig.results →
        translateOutgoing promote g s (results.map CoreValue.toRuntime) bindings =
          .ok (results.map CoreValue.toValue)
  identity : sig.params = sig.results →
    ∀ (τ : Type) (promote : BitVec 32 → BitVec 64) (g : Guest τ) (d : ModuleData) (name : String),
      d.interfaceBindingForExport name = .ok none →
      g.exports name = some (.function sig.signature) →
      (∀ (s : State τ) (args : List CoreValue), args.map CoreValue.type = sig.params →
        g.call s name (args.map CoreValue.toRuntime) = (.returned (args.map CoreValue.toRuntime), s)) →
      ∀ (s : State τ) (args : List CoreValue), args.map CoreValue.type = sig.params →
        d.invoke promote g s name (args.map CoreValue.toValue) = .ok (args.map CoreValue.toValue, s)

/-- The assertions of `invoke` hold for arguments of the parameters' types. -/
theorem accepts_core {sig : CoreSignature} {args : List CoreValue}
    (h : args.map CoreValue.type = sig.params) :
    Jit.invoke.accepts sig.signature (args.map CoreValue.toRuntime) = true := by
  change (args.map CoreValue.toRuntime).zipIdx.all _ = true
  rw [List.all_eq_true]
  rintro ⟨v, i⟩ hv
  obtain ⟨w, hw, rfl⟩ : ∃ w, args[i]? = some w ∧ w.toRuntime = v := by
    have := List.mem_zipIdx_iff_getElem?.mp hv
    rwa [List.getElem?_map, Option.map_eq_some_iff] at this
  have hparam : sig.params[i]? = some w.type := by rw [← h, List.getElem?_map, hw, Option.map_some]
  simp only [CoreSignature.signature, Signature.ofTypes, List.getElem?_cons_succ, List.getElem?_map,
    hparam, Option.map_some, CoreValue.valueType_toRuntime, AbiParam.new, decide_true]

theorem RoundTrips.ints {sig : CoreSignature} (h : RoundTrips sig) :
    ∀ t ∈ sig.results, t = .i32 ∨ t = .i64 := by
  obtain ⟨bindings, hbindings, hout⟩ := h.outgoing
  obtain rfl := Ending.ok.inj ((resultBindings_eq sig).symm.trans hbindings)
  have hzero : (sig.results.map CoreType.zero).map CoreValue.type = sig.results := by
    rw [List.map_map]
    exact (List.map_congr_left fun t _ => CoreType.type_zero t).trans (List.map_id _)
  exact ints_of_translateOutgoing
    (hout Unit (fun x => x.setWidth 64) ⟨fun _ => none, fun s _ _ => (.returned [], s)⟩ ⟨[], (), Nat.zero_le _⟩
      _ hzero)

/-- **Raw bindings round-trip.** They do exactly for the signatures without a floating-point result. -/
theorem roundTrips_iff (sig : CoreSignature) :
    RoundTrips sig ↔ ∀ t ∈ sig.results, t = .i32 ∨ t = .i64 := by
  constructor
  · exact RoundTrips.ints
  · intro hints
    have hin {τ : Type} (promote : BitVec 32 → BitVec 64) (g : Guest τ) (s : State τ)
        (args : List CoreValue) (h : args.map CoreValue.type = sig.params) :
        translateIncoming promote g (args.map CoreValue.toValue) s
            (bindingsFrom CoreType.incoming 0 sig.params) = .ok (args.map CoreValue.toRuntime, s) := by
      have hlt := sig.params_lt
      rw [← h, List.length_map] at hlt
      rw [← h]
      exact translateIncoming_default args (by omega) rfl
    have hout {τ : Type} (promote : BitVec 32 → BitVec 64) (g : Guest τ) (s : State τ)
        (results : List CoreValue) (h : results.map CoreValue.type = sig.results) :
        translateOutgoing promote g s (results.map CoreValue.toRuntime)
            (bindingsFrom CoreType.outgoing 0 sig.results) = .ok (results.map CoreValue.toValue) := by
      have hlt := sig.results_lt
      rw [← h, List.length_map] at hlt
      rw [← h]
      refine translateOutgoing_default results (by omega) rfl fun v hv => hints _ ?_
      rw [← h]
      exact List.mem_map_of_mem hv
    refine ⟨⟨_, paramBindings_eq sig, fun τ promote g s => hin promote g s⟩,
      ⟨_, resultBindings_eq sig, fun τ promote g s => hout promote g s⟩, ?_⟩
    intro hsame τ promote g d name hdefault hexport hcall s args hargs
    have hinvoke : InterfaceTypes.invoke g s name (args.map CoreValue.toRuntime) =
        .ok (args.map CoreValue.toRuntime, s) := by
      rw [InterfaceTypes.invoke, hexport]
      simp only [accepts_core hargs, hcall s args hargs, if_true]
    have hbinding : d.bindingForExport g name = .ok (.raw sig.signature) := by
      rw [ModuleData.bindingForExport, hdefault, Ending.ok_bind, hexport]
    rw [ModuleData.invoke, hbinding, Ending.ok_bind, paramBindings_eq, Ending.ok_bind, resultBindings_eq,
      Ending.ok_bind, hin promote g s args hargs, Ending.ok_bind]
    simp only [hinvoke, Ending.ok_bind, hout promote g s args (hargs.trans hsame)]

/-- A result of type `f32` is refused. -/
theorem not_roundTrips_f32 : ¬ RoundTrips ⟨[], [.f32], by decide, by decide⟩ := fun h => by
  rcases h.ints .f32 List.mem_cons_self with h | h <;> cases h

end Wasmtime.InterfaceTypes
