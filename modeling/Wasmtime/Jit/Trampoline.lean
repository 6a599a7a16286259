import Mathlib.Data.Int.Init
import Mathlib.Data.List.Induction
import Wasmtime.Lib.Buffer
import Wasmtime.Lib.Fallible
import Wasmtime.Lib.LittleEndian

/-!
# Trampolines and the two entry points that call through them

Model of `get_trampoline` and `make_trampoline` (`wasmtime-jit/src/compiler.rs`), of `invoke`
(`wasmtime-jit/src/action.rs`) and of `WasmtimeFn::call` as `Func::call` calls it
(`wasmtime-api/src/callable.rs`, `wasmtime-api/src/externals.rs`).

* A trampoline is the code `make_trampoline` emits: where each argument comes from, which address
  is called, and where each result goes. `values_vec` is a buffer of bytes; an access outside it is
  undefined behaviour, here the outcome `outOfBounds`.
* `trampoline_park` is keyed by the callee's address alone.
* The entry points differ in their slots, in the values they can write and read, and in what they
  check; `EntryPoint` lists these, and `EntryPoint.run` is the body both share.
* Calls nest (a host function may call back), but `get_trampoline` is asked before the callee
  runs and nothing is asked of the park afterwards, so a run is the list of the calls in the order
  in which they start.

Results:
* `Compiler.after_park`: the park holds the trampoline of the first call of each callee.
* `delivers_of_fits`: a trampoline with the request's own layout delivers the arguments and the
  results.
* `sound_iff_meets`, `runSound_iff`: a call is delivered exactly when the call that made its
  trampoline had its signature and its slot size, or nothing lies past the first slot.
-/

namespace Wasmtime.Jit

open Buffer Fallible LittleEndian

/-! ## Types and values -/

/-- The `ir::types` an entry point can name. -/
inductive ValueType where
  | i32 | i64 | f32 | f64 | i8x16
  deriving DecidableEq, Repr

/-- `ir::Type::bytes`. -/
def ValueType.bytes : ValueType → Nat
  | .i32 => 4
  | .i64 => 8
  | .f32 => 4
  | .f64 => 8
  | .i8x16 => 16

/-- `ir::ArgumentPurpose`; `other` is any purpose `make_trampoline` does not support. -/
inductive ArgumentPurpose where
  | normal | vmContext | other
  deriving DecidableEq, Repr

/-- `ir::AbiParam`. -/
structure AbiParam where
  valueType : ValueType
  purpose : ArgumentPurpose
  deriving DecidableEq, Repr

/-- `AbiParam::new`. -/
def AbiParam.new (ty : ValueType) : AbiParam := ⟨ty, .normal⟩

/-- `ir::Signature`, less the calling convention, which is the host's everywhere. -/
structure Signature where
  params : List AbiParam
  returns : List AbiParam
  deriving DecidableEq, Repr

/-- `FuncType::new` and `translate_signature`: the `vmctx` parameter, then the wasm parameters. -/
def Signature.ofTypes (params results : List ValueType) : Signature :=
  ⟨⟨.i64, .vmContext⟩ :: params.map .new, results.map .new⟩

/-- `RuntimeValue` (`wasmtime-jit/src/action.rs`), and any value a machine call passes. -/
inductive RuntimeValue where
  | i32 (x : BitVec 32)
  | i64 (x : BitVec 64)
  | f32 (x : BitVec 32)
  | f64 (x : BitVec 64)
  | v128 (x : BitVec 128)
  deriving DecidableEq, Repr

/-- `RuntimeValue::value_type`. -/
def RuntimeValue.valueType : RuntimeValue → ValueType
  | .i32 _ => .i32
  | .i64 _ => .i64
  | .f32 _ => .f32
  | .f64 _ => .f64
  | .v128 _ => .i8x16

/-- The bytes a store of the value writes. -/
def RuntimeValue.toBytes : RuntimeValue → List UInt8
  | .i32 x => leBytes 4 x.toNat
  | .i64 x => leBytes 8 x.toNat
  | .f32 x => leBytes 4 x.toNat
  | .f64 x => leBytes 8 x.toNat
  | .v128 x => leBytes 16 x.toNat

/-- The value a load of the type finds in the bytes. -/
def RuntimeValue.ofBytes (ty : ValueType) (bytes : List UInt8) : RuntimeValue :=
  match ty with
  | .i32 => .i32 (BitVec.ofNat 32 (ofLeBytes bytes))
  | .i64 => .i64 (BitVec.ofNat 64 (ofLeBytes bytes))
  | .f32 => .f32 (BitVec.ofNat 32 (ofLeBytes bytes))
  | .f64 => .f64 (BitVec.ofNat 64 (ofLeBytes bytes))
  | .i8x16 => .v128 (BitVec.ofNat 128 (ofLeBytes bytes))

/-- `Val` (`wasmtime-api/src/values.rs`). -/
inductive Val where
  | i32 (x : BitVec 32)
  | i64 (x : BitVec 64)
  | f32 (x : BitVec 32)
  | f64 (x : BitVec 64)
  | anyRef
  | funcRef
  deriving DecidableEq, Repr

/-- The value `WasmtimeFn::call` writes for a `Val`; `none` is its `unimplemented!`. -/
def Val.toMachine : Val → Option RuntimeValue
  | .i32 x => some (.i32 x)
  | .i64 x => some (.i64 x)
  | .f32 x => some (.f32 x)
  | .f64 x => some (.f64 x)
  | .anyRef => none
  | .funcRef => none

/-- The `Val` `WasmtimeFn::call` reads for a result type; `none` is its `panic!`. -/
def Val.read : ValueType → Option (List UInt8 → Val)
  | .i32 => some fun bytes => .i32 (BitVec.ofNat 32 (ofLeBytes bytes))
  | .i64 => some fun bytes => .i64 (BitVec.ofNat 64 (ofLeBytes bytes))
  | .f32 => some fun bytes => .f32 (BitVec.ofNat 32 (ofLeBytes bytes))
  | .f64 => some fun bytes => .f64 (BitVec.ofNat 64 (ofLeBytes bytes))
  | .i8x16 => none

@[simp] theorem RuntimeValue.length_toBytes (v : RuntimeValue) :
    v.toBytes.length = v.valueType.bytes := by
  cases v <;> simp [toBytes, valueType, ValueType.bytes]

@[simp] theorem RuntimeValue.valueType_ofBytes (ty : ValueType) (bytes : List UInt8) :
    (ofBytes ty bytes).valueType = ty := by
  cases ty <;> rfl

/-- A value is read back from the bytes it was stored as. -/
theorem RuntimeValue.ofBytes_toBytes (v : RuntimeValue) : ofBytes v.valueType v.toBytes = v := by
  have hread : ∀ (w n : Nat) (x : BitVec w), w = 8 * n →
      BitVec.ofNat w (ofLeBytes (leBytes n x.toNat)) = x := by
    intro w n x hw
    have hlt : x.toNat < 256 ^ n := by
      have := x.isLt
      rwa [show (256 : Nat) = 2 ^ 8 by rfl, ← Nat.pow_mul, ← hw]
    rw [ofLeBytes_leBytes, Nat.mod_eq_of_lt hlt, BitVec.ofNat_toNat, BitVec.setWidth_eq]
  cases v with
  | i32 x => exact congrArg _ (hread 32 4 x rfl)
  | i64 x => exact congrArg _ (hread 64 8 x rfl)
  | f32 x => exact congrArg _ (hread 32 4 x rfl)
  | f64 x => exact congrArg _ (hread 64 8 x rfl)
  | v128 x => exact congrArg _ (hread 128 16 x rfl)

/-! ## Trampolines -/

/-- A Rust `as i32`. -/
def asI32 (n : Nat) : Int := Int.bmod n (2 ^ 32)

/-- Where an argument of the callee comes from. -/
inductive TrampolineArg where
  /-- The trampoline's own `vmctx` parameter. -/
  | vmctx
  /-- A load of the type from `values_vec` at the offset. -/
  | load (ty : ValueType) (offset : Int)
  deriving DecidableEq, Repr

/-- The code of a trampoline. -/
structure Trampoline where
  /-- The address of the `call_indirect`. -/
  callee : Nat
  args : List TrampolineArg
  /-- The type of each result and the offset it is stored at. -/
  stores : List (ValueType × Int)
  deriving DecidableEq, Repr

/-- `SetupError`, as `make_trampoline` can return it. -/
inductive SetupError where
  | compile (error : String)
  | instantiate (message : String)
  deriving DecidableEq, Repr

/-- Why there is no trampoline. -/
inductive Failure where
  | panicked
  | setup (error : SetupError)
  deriving DecidableEq, Repr

/-- The argument `make_trampoline` passes for the `i`-th parameter; `none` is its `panic!`, or the
underflow of `i - 1` when the first parameter is not the `vmctx`. -/
def trampolineArg (valueSize : Nat) (r : AbiParam) (i : Nat) : Option TrampolineArg :=
  match r.purpose with
  | .normal => if i = 0 then none else some (.load r.valueType (asI32 ((i - 1) * valueSize)))
  | .vmContext => some .vmctx
  | .other => none

/-- `make_trampoline`. `emitted` is what `compile_and_emit` and `allocate_copy_of_byte_slice`
answer. -/
def makeTrampoline (calleeAddress : Nat) (signature : Signature) (valueSize : Nat)
    (emitted : Except SetupError Unit) : Except Failure Trampoline :=
  match signature.params.zipIdx.mapM fun p => trampolineArg valueSize p.1 p.2 with
  | none => .error .panicked
  | some args =>
    match emitted with
    | .error e => .error (.setup e)
    | .ok _ => .ok
      { callee := calleeAddress
        args := args
        stores := signature.returns.zipIdx.map fun p => (p.1.valueType, asI32 (p.2 * valueSize)) }

/-- The part of `Compiler` the trampolines live in. -/
structure Compiler where
  trampolinePark : List (Nat × Trampoline)

/-- `Compiler::new`. -/
def Compiler.new : Compiler := ⟨[]⟩

/-- `Compiler::get_trampoline`. -/
def Compiler.getTrampoline (k : Compiler) (calleeAddress : Nat) (signature : Signature)
    (valueSize : Nat) (emitted : Except SetupError Unit) : Compiler × Except Failure Trampoline :=
  match k.trampolinePark.lookup calleeAddress with
  | some body => (k, .ok body)
  | none =>
    match makeTrampoline calleeAddress signature valueSize emitted with
    | .error e => (k, .error e)
    | .ok body => (⟨(calleeAddress, body) :: k.trampolinePark⟩, .ok body)

/-- What a function does with the values a machine call passes it. -/
abbrev Body := List RuntimeValue → Except String (List RuntimeValue)

/-- How a run of a trampoline ends. -/
inductive Ran where
  | outOfBounds
  | trapped (received : List RuntimeValue) (message : String)
  | returned (received : List RuntimeValue) (valuesVec : List UInt8)

/-- The value a trampoline passes for an argument. -/
def TrampolineArg.eval (vmctx : BitVec 64) (valuesVec : List UInt8) :
    TrampolineArg → Option RuntimeValue
  | .vmctx => some (.i64 vmctx)
  | .load ty offset => (Buffer.load valuesVec offset ty.bytes).map (.ofBytes ty)

/-- `wasmtime_call_trampoline`: the trampoline run with `values_vec` on a callee. -/
def Trampoline.run (t : Trampoline) (vmctx : BitVec 64) (valuesVec : List UInt8) (body : Body) :
    Ran :=
  match t.args.mapM (·.eval vmctx valuesVec) with
  | none => .outOfBounds
  | some received =>
    match body received with
    | .error message => .trapped received message
    | .ok results =>
      match storeAll valuesVec ((t.stores.zip results).map fun p => (p.1.2, p.2.toBytes)) with
      | none => .outOfBounds
      | some valuesVec => .returned received valuesVec

/-! ## Entry points -/

/-- What an entry point does its own way, over the values `V` its caller passes. -/
structure EntryPoint (V : Type) where
  /-- `value_size`, the size of an element of `values_vec`. -/
  valueSize : Nat
  /-- The assertions on the arguments. -/
  accepts : Signature → List V → Bool
  /-- The number of elements of `values_vec`. -/
  valuesLen : Signature → List V → Nat
  /-- What is written for an argument; `none` is a panic. -/
  toMachine : V → Option RuntimeValue
  /-- How a result of a type is read; `none` is a panic. -/
  read : ValueType → Option (List UInt8 → V)

/-- One call: the `Export::Function` it is made on, its arguments, and the callee. -/
structure Request (V : Type) where
  address : Nat
  vmctx : BitVec 64
  params : List ValueType
  results : List ValueType
  args : List V
  body : Body
  /-- A function returns what its signature says. -/
  body_typed : ∀ received values, body received = .ok values → values.map (·.valueType) = results
  /-- What emitting a trampoline would answer during this call. -/
  emitted : Except SetupError Unit

/-- The signature of the export. -/
def Request.signature {V : Type} (r : Request V) : Signature := .ofTypes r.params r.results

/-- Why a result cannot be read. -/
inductive ReadError where
  /-- `panic!("unsupported value type")`. -/
  | unsupported
  | outOfBounds

/-- How a call ends. -/
inductive Outcome (V : Type) where
  /-- A panic before a trampoline is asked for. -/
  | refused
  | failed (failure : Failure)
  | outOfBounds
  | trapped (received : List RuntimeValue) (message : String)
  | returned (received : List RuntimeValue) (values : List V)
  /-- A panic after the callee has returned. -/
  | lost (received : List RuntimeValue)

namespace EntryPoint

variable {V : Type} (e : EntryPoint V)

/-- The result of a type read from slot `i`. -/
def readSlot (valuesVec : List UInt8) (ty : ValueType) (i : Nat) : Except ReadError V :=
  match e.read ty with
  | none => .error .unsupported
  | some f =>
    match Buffer.load valuesVec ((i * e.valueSize : Nat) : Int) ty.bytes with
    | none => .error .outOfBounds
    | some bytes => .ok (f bytes)

/-- The return values loaded out of `values_vec`, after the trampoline has run. -/
def finish (results : List ValueType) : Ran → Outcome V
  | .outOfBounds => .outOfBounds
  | .trapped received message => .trapped received message
  | .returned received valuesVec =>
    match results.zipIdx.mapM fun p => e.readSlot valuesVec p.1 p.2 with
    | .error .unsupported => .lost received
    | .error .outOfBounds => .outOfBounds
    | .ok values => .returned received values

/-- The call of the trampoline, once it has been asked for. -/
def conclude (r : Request V) (valuesVec : List UInt8) : Except Failure Trampoline → Outcome V
  | .error failure => .failed failure
  | .ok t => e.finish r.results (t.run r.vmctx valuesVec r.body)

/-- The body `invoke` and `WasmtimeFn::call` share. -/
def run (k : Compiler) (r : Request V) : Compiler × Outcome V :=
  if e.accepts r.signature r.args then
    match r.args.mapM e.toMachine with
    | none => (k, .refused)
    | some machine =>
      match storeAll (List.replicate (e.valuesLen r.signature r.args * e.valueSize) 0)
          (slots e.valueSize 0 (machine.map (·.toBytes))) with
      | none => (k, .outOfBounds)
      | some valuesVec =>
        let (k, t) := k.getTrampoline r.address r.signature e.valueSize r.emitted
        (k, e.conclude r valuesVec t)
  else (k, .refused)

end EntryPoint

/-- `wasmtime_jit::invoke`: 16-byte slots (`VMInvokeArgument`), the type of every argument
asserted, room for all parameters. -/
def invoke : EntryPoint RuntimeValue where
  valueSize := 16
  accepts signature args := args.zipIdx.all fun p =>
    (signature.params[p.2 + 1]?).map (·.valueType) = some p.1.valueType
  valuesLen signature _ := max (signature.params.length - 1) signature.returns.length
  toMachine := some
  read ty := some (.ofBytes ty)

/-- `WasmtimeFn::call`: 8-byte slots (`u64`), nothing asserted, room for the arguments passed. The
`results` slice `Func::call` passes has the signature's length. -/
def wasmtimeFnCall : EntryPoint Val where
  valueSize := 8
  accepts _ _ := true
  valuesLen signature args := max args.length signature.returns.length
  toMachine := Val.toMachine
  read := Val.read

/-! ## Layouts -/

/-- The trampoline loads the `i`-th argument from `i * valueSize` and stores the `j`-th result at
`j * valueSize`, and calls the address. -/
def Trampoline.HasLayout (t : Trampoline) (address : Nat) (params results : List ValueType)
    (valueSize : Nat) : Prop :=
  t.callee = address ∧
  t.args = .vmctx :: params.zipIdx.map (fun p => .load p.1 ((p.2 * valueSize : Nat) : Int)) ∧
  t.stores = results.zipIdx.map fun p => (p.1, ((p.2 * valueSize : Nat) : Int))

/-- The trampoline `make_trampoline` emits for a signature with a leading `vmctx`. -/
def Trampoline.made (address : Nat) (params results : List ValueType) (valueSize : Nat) :
    Trampoline where
  callee := address
  args := .vmctx :: params.zipIdx.map fun p => .load p.1 (asI32 (p.2 * valueSize))
  stores := results.zipIdx.map fun p => (p.1, asI32 (p.2 * valueSize))

theorem makeTrampoline_ofTypes (address : Nat) (params results : List ValueType) (valueSize : Nat)
    (emitted : Except SetupError Unit) :
    makeTrampoline address (.ofTypes params results) valueSize emitted =
      (emitted.mapError Failure.setup).map fun _ => .made address params results valueSize := by
  have hargs : ((Signature.ofTypes params results).params.zipIdx.mapM fun p =>
      trampolineArg valueSize p.1 p.2) =
      some (Trampoline.made address params results valueSize).args := by
    rw [mapM_eq_some]
    apply List.ext_getElem?
    rintro (_ | i)
    · simp [Signature.ofTypes, Trampoline.made, trampolineArg]
    · cases h : params[i]? <;>
        simp [Signature.ofTypes, Trampoline.made, trampolineArg, List.getElem?_zipIdx, h,
          AbiParam.new]
  have hstores : ((Signature.ofTypes params results).returns.zipIdx.map fun p =>
      (p.1.valueType, asI32 (p.2 * valueSize))) =
      (Trampoline.made address params results valueSize).stores := by
    apply List.ext_getElem?
    intro i
    cases h : results[i]? <;>
      simp [Signature.ofTypes, Trampoline.made, List.getElem?_zipIdx, h, AbiParam.new]
  unfold makeTrampoline
  simp only [hargs, hstores]
  cases emitted <;> rfl

theorem asI32_le (n : Nat) : asI32 n < 2 ^ 31 := by
  unfold asI32
  have := Int.bmod_lt (x := (n : Int)) (m := 2 ^ 32) (by decide)
  omega

theorem asI32_of_lt {n : Nat} (h : n < 2 ^ 31) : asI32 n = n := by
  unfold asI32
  apply Int.bmod_eq_of_le <;> omega

/-- The offsets computed for one slot size are those of another when no slot past the first is
used, or the sizes are the same and the last offset fits an `i32`. -/
theorem asI32_slots_iff {n size size' : Nat} (hsize : size' < 2 ^ 31) :
    (∀ i < n, asI32 (i * size') = ((i * size : Nat) : Int)) ↔
      (size' = size ∨ n ≤ 1) ∧ (n - 1) * size < 2 ^ 31 := by
  constructor
  · intro h
    by_cases hn : n ≤ 1
    · exact ⟨.inr hn, by rw [show n - 1 = 0 by omega]; omega⟩
    · have h1 := h 1 (by omega)
      rw [Nat.one_mul, Nat.one_mul, asI32_of_lt hsize] at h1
      have hlast := h (n - 1) (by omega)
      have hlt := asI32_le ((n - 1) * size')
      exact ⟨.inl (by omega), by omega⟩
  · rintro ⟨hsame, hlt⟩ i hi
    obtain rfl | hn := hsame
    · have hle : i * size' ≤ (n - 1) * size' := Nat.mul_le_mul_right _ (by omega)
      exact asI32_of_lt (by omega)
    · obtain rfl : i = 0 := by omega
      rw [Nat.zero_mul, Nat.zero_mul]
      exact asI32_of_lt (by decide)

theorem zipIdx_map_eq_iff {α β : Type} {xs ys : List α} {f g : α → Nat → β}
    (hinj : ∀ x y i, f x i = g y i → x = y) :
    (xs.zipIdx.map (fun p => f p.1 p.2) = ys.zipIdx.map fun p => g p.1 p.2) ↔
      xs = ys ∧ ∀ i x, xs[i]? = some x → f x i = g x i := by
  constructor
  · intro h
    have hpoint : ∀ i, (xs[i]?).map (f · i) = (ys[i]?).map (g · i) := by
      intro i
      have := congrArg (·[i]?) h
      simpa [List.getElem?_zipIdx, Function.comp_def] using this
    have hxy : xs = ys := by
      apply List.ext_getElem?
      intro i
      have := hpoint i
      cases hx : xs[i]? <;> cases hy : ys[i]? <;> simp_all
      exact hinj _ _ _ this
    subst hxy
    refine ⟨rfl, fun i x hx => ?_⟩
    have := hpoint i
    simpa [hx] using this
  · rintro ⟨rfl, h⟩
    apply List.ext_getElem?
    intro i
    cases hx : xs[i]? with
    | none => simp [List.getElem?_zipIdx, hx]
    | some x => simp [List.getElem?_zipIdx, hx, h i x hx]

/-- Two requests share a layout when they ask for the same function and the same types, and their
slot sizes agree or nothing lies past the first slot. -/
theorem hasLayout_made_iff {address address' size size' : Nat}
    {params params' results results' : List ValueType} (hsize : size' < 2 ^ 31) :
    (Trampoline.made address' params' results' size').HasLayout address params results size ↔
      address' = address ∧ params' = params ∧ results' = results ∧
      (size' = size ∨ max params.length results.length ≤ 1) ∧
      (max params.length results.length - 1) * size < 2 ^ 31 := by
  unfold Trampoline.HasLayout Trampoline.made
  rw [List.cons_inj_right,
    zipIdx_map_eq_iff (f := fun ty i => TrampolineArg.load ty (asI32 (i * size')))
      (g := fun ty i => .load ty ((i * size : Nat) : Int)) (fun x y i h => (TrampolineArg.load.inj h).1),
    zipIdx_map_eq_iff (f := fun ty i => (ty, asI32 (i * size')))
      (g := fun ty i => (ty, ((i * size : Nat) : Int)))
      (fun x y i h => congrArg Prod.fst h), ← asI32_slots_iff hsize]
  constructor
  · rintro ⟨haddress, ⟨rfl, hp⟩, rfl, hr⟩
    refine ⟨haddress, rfl, rfl, fun i hi => ?_⟩
    obtain hi | hi : i < params'.length ∨ i < results'.length := by omega
    · simpa using hp i _ (List.getElem?_eq_getElem hi)
    · simpa using hr i _ (List.getElem?_eq_getElem hi)
  · rintro ⟨haddress, rfl, rfl, h⟩
    refine ⟨haddress, ⟨rfl, fun i ty hi => ?_⟩, rfl, fun i ty hi => ?_⟩
    · have hlt := (List.getElem?_eq_some_iff.mp hi).1
      rw [h i (by omega)]
    · have hlt := (List.getElem?_eq_some_iff.mp hi).1
      rw [h i (by omega)]

/-! ## Delivery -/

namespace EntryPoint

variable {V : Type} (e : EntryPoint V)

/-- A call that gets as far as asking for a trampoline. -/
def asks (r : Request V) : Bool :=
  e.accepts r.signature r.args && (r.args.mapM e.toMachine).isSome

/-- The callee received the `vmctx` and exactly the caller's arguments. -/
def Received (r : Request V) (received : List RuntimeValue) : Prop :=
  ∃ machine, r.args.mapM e.toMachine = some machine ∧ received = .i64 r.vmctx :: machine

/-- A call that is made delivers exactly the caller's arguments and the callee's results, or its
trap. -/
def Delivers (r : Request V) : Outcome V → Prop
  | .refused => True
  | .failed _ => True
  | .outOfBounds => False
  | .trapped received message => e.Received r received ∧ r.body received = .error message
  | .returned received values => e.Received r received ∧
      ∃ results, r.body received = .ok results ∧ values.map e.toMachine = results.map some
  | .lost _ => False

/-- The arguments have the parameters' types, and the callee traps on them or the entry point can
read its results. -/
def Fits (r : Request V) : Prop :=
  ∃ machine, r.args.mapM e.toMachine = some machine ∧ machine.map (·.valueType) = r.params ∧
    ((∃ message, r.body (.i64 r.vmctx :: machine) = .error message) ∨
      ∀ ty ∈ r.results, (e.read ty).isSome)

/-- What an entry point owes its own slots. -/
structure Lawful : Prop where
  valueSize_lt : e.valueSize < 2 ^ 31
  args_le : ∀ params results args, e.accepts (.ofTypes params results) args →
    args.length ≤ e.valuesLen (.ofTypes params results) args
  results_le : ∀ params results args, results.length ≤ e.valuesLen (.ofTypes params results) args
  toMachine_le : ∀ v machine, e.toMachine v = some machine → machine.valueType.bytes ≤ e.valueSize
  read_le : ∀ ty f, e.read ty = some f → ty.bytes ≤ e.valueSize
  toMachine_read : ∀ ty f bytes, e.read ty = some f → e.toMachine (f bytes) = some (.ofBytes ty bytes)

end EntryPoint

theorem invoke_lawful : invoke.Lawful where
  valueSize_lt := by decide
  args_le params results args h := by
    simp only [invoke, Signature.ofTypes, List.length_cons, List.length_map]
    by_contra hlt
    -- The first argument too many has no parameter to be compared with.
    have hi : params.length < args.length := by omega
    have hmem : (args[params.length], params.length) ∈ args.zipIdx :=
      List.mem_zipIdx_iff_getElem?.mpr (List.getElem?_eq_getElem hi)
    have := List.all_eq_true.mp h _ hmem
    simp [Signature.ofTypes] at this
  results_le params results args := by
    simp [invoke, Signature.ofTypes]
  toMachine_le v machine h := by
    cases machine <;> simp [RuntimeValue.valueType, ValueType.bytes, invoke]
  read_le ty f h := by
    cases ty <;> simp [ValueType.bytes, invoke]
  toMachine_read ty f bytes h := by
    cases h
    rfl

theorem wasmtimeFnCall_lawful : wasmtimeFnCall.Lawful where
  valueSize_lt := by decide
  args_le params results args h := by
    simp [wasmtimeFnCall]
  results_le params results args := by
    simp [wasmtimeFnCall, Signature.ofTypes]
  toMachine_le v machine h := by
    cases v <;> cases h <;> simp [RuntimeValue.valueType, ValueType.bytes, wasmtimeFnCall]
  read_le ty f h := by
    cases ty <;> cases h <;> simp [ValueType.bytes, wasmtimeFnCall]
  toMachine_read ty f bytes h := by
    cases ty <;> cases h <;> rfl

/-- The value of a type in the `i`-th slot. -/
def slotValue (valuesVec : List UInt8) (size : Nat) (ty : ValueType) (i : Nat) :
    Option RuntimeValue :=
  (Buffer.load valuesVec ((i * size : Nat) : Int) ty.bytes).map (.ofBytes ty)

/-- The values lie in the slots, one after the other. -/
def InSlots (valuesVec : List UInt8) (size : Nat) (values : List RuntimeValue) : Prop :=
  ∀ i v, values[i]? = some v →
    Buffer.load valuesVec ((i * size : Nat) : Int) v.valueType.bytes = some v.toBytes

theorem inSlots_storeAll {size : Nat} {values : List RuntimeValue} (valuesVec : List UInt8)
    (hsize : ∀ v ∈ values, v.valueType.bytes ≤ size) (hfit : values.length * size ≤ valuesVec.length) :
    ∃ valuesVec', storeAll valuesVec (slots size 0 (values.map (·.toBytes))) = some valuesVec' ∧
      valuesVec'.length = valuesVec.length ∧ InSlots valuesVec' size values := by
  obtain ⟨vec, hall, hlen, hread⟩ :=
    loadAll_slots size (values.map (·.toBytes)) valuesVec (by simpa using hsize)
      (by simpa using hfit)
  refine ⟨vec, hall, hlen, fun i v hv => ?_⟩
  have := hread i v.toBytes (by simp [hv])
  rwa [RuntimeValue.length_toBytes] at this

/-- Slots read at the types of the values stored in them give the values. -/
theorem InSlots.slotValue_eq {valuesVec : List UInt8} {size i : Nat} {values : List RuntimeValue}
    {v : RuntimeValue} (h : InSlots valuesVec size values) (hv : values[i]? = some v) :
    slotValue valuesVec size v.valueType i = some v := by
  rw [slotValue, h i v hv, Option.map_some, RuntimeValue.ofBytes_toBytes]

theorem valueType_slotValue {valuesVec : List UInt8} {size i : Nat} {ty : ValueType}
    {v : RuntimeValue} (h : slotValue valuesVec size ty i = some v) : v.valueType = ty := by
  obtain ⟨bytes, -, rfl⟩ := Option.map_eq_some_iff.mp h
  exact RuntimeValue.valueType_ofBytes ty bytes

section Delivery

variable {t : Trampoline} {address size : Nat} {params results : List ValueType}
  {valuesVec : List UInt8} {vmctx : BitVec 64}

/-- What a trampoline with a layout passes: the `vmctx`, then what lies in the slots. -/
theorem Trampoline.HasLayout.received_iff (ht : t.HasLayout address params results size)
    {received : List RuntimeValue} :
    t.args.mapM (·.eval vmctx valuesVec) = some received ↔
      ∃ machine, received = .i64 vmctx :: machine ∧
        params.zipIdx.map (fun p => slotValue valuesVec size p.1 p.2) = machine.map some := by
  rw [mapM_eq_some, ht.2.1, List.map_cons, List.map_map]
  cases received with
  | nil => simp
  | cons x machine =>
    simp only [TrampolineArg.eval, List.map_cons, List.cons.injEq, Option.some.injEq]
    constructor
    · rintro ⟨rfl, h⟩
      exact ⟨machine, ⟨rfl, rfl⟩, h⟩
    · rintro ⟨_, ⟨rfl, rfl⟩, h⟩
      exact ⟨rfl, h⟩

theorem slots_eq_map_some (machine : List RuntimeValue) (h : InSlots valuesVec size machine)
    (hty : machine.map (·.valueType) = params) :
    params.zipIdx.map (fun p => slotValue valuesVec size p.1 p.2) = machine.map some := by
  subst hty
  apply List.ext_getElem?
  intro i
  cases hi : machine[i]? with
  | none => simp [List.getElem?_zipIdx, hi]
  | some v => simp [List.getElem?_zipIdx, hi, h.slotValue_eq hi]

theorem map_valueType_of_slots {machine : List RuntimeValue}
    (h : params.zipIdx.map (fun p => slotValue valuesVec size p.1 p.2) = machine.map some) :
    machine.map (·.valueType) = params := by
  apply List.ext_getElem?
  intro i
  have hi := congrArg (·[i]?) h
  simp only [List.getElem?_map, List.getElem?_zipIdx, Option.map_map] at hi
  cases hp : params[i]? with
  | none => simp_all
  | some ty =>
    cases hm : machine[i]? with
    | none => simp [hp, hm] at hi
    | some v =>
      simp only [hp, hm, Option.map_some, Function.comp, Option.some.injEq, Nat.zero_add] at hi
      simp [hm, valueType_slotValue hi]

/-- The stores of a trampoline with a layout fill the slots. -/
theorem Trampoline.HasLayout.stores_eq (ht : t.HasLayout address params results size)
    {values : List RuntimeValue} (hty : values.map (·.valueType) = results) :
    (t.stores.zip values).map (fun p => (p.1.2, p.2.toBytes)) =
      slots size 0 (values.map (·.toBytes)) := by
  subst hty
  apply List.ext_getElem?
  intro i
  rw [ht.2.2]
  cases hi : values[i]? with
  | none =>
    have hle := List.getElem?_eq_none_iff.mp hi
    simp [slots, hle]
  | some v => simp [slots, List.getElem?_zipIdx, List.getElem?_zip_eq_some, hi]

end Delivery

namespace EntryPoint

variable {V : Type} {e : EntryPoint V}

/-- A call that asks for a trampoline has stored its arguments in the slots. -/
theorem run_of_asks (he : e.Lawful) {r : Request V} (ha : e.asks r) :
    ∃ machine valuesVec, r.args.mapM e.toMachine = some machine ∧
      valuesVec.length = e.valuesLen r.signature r.args * e.valueSize ∧
      InSlots valuesVec e.valueSize machine ∧
      ∀ k, e.run k r =
        ((k.getTrampoline r.address r.signature e.valueSize r.emitted).1,
          e.conclude r valuesVec
            (k.getTrampoline r.address r.signature e.valueSize r.emitted).2) := by
  obtain ⟨hacc, hsome⟩ := Bool.and_eq_true_iff.mp ha
  obtain ⟨machine, hm⟩ := Option.isSome_iff_exists.mp hsome
  have hmap := mapM_eq_some.mp hm
  have hlen : machine.length = r.args.length := by
    simpa using (congrArg List.length hmap).symm
  have hsize : ∀ m ∈ machine, m.valueType.bytes ≤ e.valueSize := by
    intro m hmem
    have : some m ∈ r.args.map e.toMachine := by
      rw [hmap]
      exact List.mem_map_of_mem hmem
    obtain ⟨v, -, hv⟩ := List.mem_map.mp this
    exact he.toMachine_le v m hv
  have hle := he.args_le r.params r.results r.args hacc
  obtain ⟨vec, hall, hveclen, hin⟩ := inSlots_storeAll
    (List.replicate (e.valuesLen r.signature r.args * e.valueSize) 0) hsize
    (by rw [List.length_replicate, hlen]; exact Nat.mul_le_mul_right _ hle)
  refine ⟨machine, vec, hm, by simpa using hveclen, hin, fun k => ?_⟩
  simp only [run, hacc, hm, hall, if_true]

theorem run_of_not_asks (k : Compiler) {r : Request V} (ha : ¬ e.asks r) :
    e.run k r = (k, .refused) := by
  unfold run
  split
  · next hacc =>
    cases hm : r.args.mapM e.toMachine with
    | none => rfl
    | some machine => simp [asks, hacc, hm] at ha
  · rfl

theorem readSlot_eq_ok_iff {valuesVec : List UInt8} {ty : ValueType} {i : Nat} {v : V} :
    e.readSlot valuesVec ty i = .ok v ↔
      ∃ f bytes, e.read ty = some f ∧
        Buffer.load valuesVec ((i * e.valueSize : Nat) : Int) ty.bytes = some bytes ∧
        v = f bytes := by
  unfold readSlot
  cases hf : e.read ty with
  | none => simp
  | some f =>
    cases hl : Buffer.load valuesVec ((i * e.valueSize : Nat) : Int) ty.bytes with
    | none => simp
    | some bytes => simp [eq_comm]

theorem exists_list_of_getElem? {α β : Type} {xs : List α} :
    ∀ {P : Nat → α → β → Prop}, (∀ i x, xs[i]? = some x → ∃ y, P i x y) →
      ∃ ys : List β, ys.length = xs.length ∧
        ∀ i x y, xs[i]? = some x → ys[i]? = some y → P i x y := by
  induction xs with
  | nil => exact fun _ => ⟨[], rfl, by simp⟩
  | cons x xs ih =>
    intro P h
    obtain ⟨y, hy⟩ := h 0 x rfl
    obtain ⟨ys, hlen, hys⟩ := ih (P := fun i => P (i + 1)) fun i x hx => h (i + 1) x (by simpa using hx)
    refine ⟨y :: ys, by simp [hlen], ?_⟩
    rintro (_ | i) x' y' hx' hy'
    · cases hx'
      cases hy'
      exact hy
    · exact hys i x' y' (by simpa using hx') (by simpa using hy')

/-- Results that lie in the slots are read back. -/
theorem exists_read (he : e.Lawful) {valuesVec : List UInt8} {values : List RuntimeValue}
    (hin : InSlots valuesVec e.valueSize values)
    (hread : ∀ v ∈ values, (e.read v.valueType).isSome) :
    ∃ out, ((values.map (·.valueType)).zipIdx.mapM fun p => e.readSlot valuesVec p.1 p.2) = .ok out ∧
      out.map e.toMachine = values.map some := by
  -- Each slot on its own, then the list of them.
  have hslot : ∀ i v, values[i]? = some v →
      ∃ x, e.readSlot valuesVec v.valueType i = .ok x ∧ e.toMachine x = some v := by
    intro i v hi
    obtain ⟨f, hf⟩ := Option.isSome_iff_exists.mp (hread v (List.mem_of_getElem? hi))
    refine ⟨f v.toBytes, readSlot_eq_ok_iff.mpr ⟨f, _, hf, hin i v hi, rfl⟩, ?_⟩
    rw [he.toMachine_read _ _ _ hf, RuntimeValue.ofBytes_toBytes]
  obtain ⟨out, hlen, hout⟩ := exists_list_of_getElem? hslot
  have hpair : ∀ i v, values[i]? = some v → ∃ x, out[i]? = some x ∧
      e.readSlot valuesVec v.valueType i = .ok x ∧ e.toMachine x = some v := by
    intro i v hi
    have hlt : i < out.length := by
      rw [hlen]
      exact (List.getElem?_eq_some_iff.mp hi).1
    exact ⟨_, List.getElem?_eq_getElem hlt, hout i v _ hi (List.getElem?_eq_getElem hlt)⟩
  refine ⟨out, mapM_eq_ok.mpr (List.ext_getElem? fun i => ?_), List.ext_getElem? fun i => ?_⟩
  all_goals
    cases hi : values[i]? with
    | none =>
      have hle : out.length ≤ i := by
        rw [hlen]
        exact List.getElem?_eq_none_iff.mp hi
      simp [List.getElem?_zipIdx, hi, hle]
    | some v =>
      obtain ⟨x, hx, hread, hval⟩ := hpair i v hi
      simp [List.getElem?_zipIdx, hi, hx, hread, hval]

/-- What a trampoline with the request's layout delivers fits the request's signature: the callee
receives values of the parameters' types, and a result that cannot be read is not delivered. -/
theorem fits_of_delivers {r : Request V} {valuesVec : List UInt8} {t : Trampoline}
    (ht : t.HasLayout r.address r.params r.results e.valueSize)
    (h : e.Delivers r (e.conclude r valuesVec (.ok t))) : e.Fits r := by
  unfold conclude Trampoline.run at h
  cases hrec : t.args.mapM (·.eval r.vmctx valuesVec) with
  | none => simp [hrec, finish, Delivers] at h
  | some received =>
    obtain ⟨slots', rfl, hslots⟩ := ht.received_iff.mp hrec
    have hty := map_valueType_of_slots hslots
    simp only [hrec] at h
    cases hbody : r.body (.i64 r.vmctx :: slots') with
    | error message =>
      simp only [hbody, finish, Delivers] at h
      obtain ⟨machine', hm', heq⟩ := h.1
      obtain ⟨-, rfl⟩ := List.cons.inj heq
      exact ⟨slots', hm', hty, .inl ⟨message, hbody⟩⟩
    | ok values =>
      simp only [hbody] at h
      cases hst : storeAll valuesVec
          ((t.stores.zip values).map fun p => (p.1.2, p.2.toBytes)) with
      | none => simp [hst, finish, Delivers] at h
      | some valuesVec' =>
        simp only [hst, finish] at h
        cases hread : r.results.zipIdx.mapM fun p => e.readSlot valuesVec' p.1 p.2 with
        | error err => cases err <;> simp [hread, Delivers] at h
        | ok out =>
          simp only [hread, Delivers] at h
          obtain ⟨⟨machine', hm', heq⟩, -⟩ := h
          obtain ⟨-, rfl⟩ := List.cons.inj heq
          refine ⟨slots', hm', hty, .inr fun ty hmem => ?_⟩
          obtain ⟨i, hi⟩ := List.getElem?_of_mem hmem
          have hslot := congrArg (·[i]?) (mapM_eq_ok.mp hread)
          simp only [List.getElem?_map, List.getElem?_zipIdx, hi, Option.map_some] at hslot
          obtain ⟨x, -, hx⟩ := Option.map_eq_some_iff.mp hslot.symm
          obtain ⟨f, -, hf, -⟩ := readSlot_eq_ok_iff.mp hx.symm
          exact Option.isSome_iff_exists.mpr ⟨f, hf⟩

/-- A trampoline with the request's layout passes the arguments through the slots, and brings the
results back through them. -/
theorem delivers_of_fits (he : e.Lawful) {r : Request V} {machine : List RuntimeValue}
    {valuesVec : List UInt8} {t : Trampoline} (hm : r.args.mapM e.toMachine = some machine)
    (hlen : valuesVec.length = e.valuesLen r.signature r.args * e.valueSize)
    (hin : InSlots valuesVec e.valueSize machine)
    (ht : t.HasLayout r.address r.params r.results e.valueSize) (hfits : e.Fits r) :
    e.Delivers r (e.conclude r valuesVec (.ok t)) := by
  obtain ⟨machine', hm', hty, hresults⟩ := hfits
  obtain rfl : machine = machine' := by simpa [hm] using hm'
  have hrec : t.args.mapM (·.eval r.vmctx valuesVec) = some (.i64 r.vmctx :: machine) :=
    ht.received_iff.mpr ⟨machine, rfl, slots_eq_map_some machine hin hty⟩
  unfold conclude Trampoline.run
  simp only [hrec]
  cases hbody : r.body (.i64 r.vmctx :: machine) with
  | error message => exact ⟨⟨machine, hm, rfl⟩, hbody⟩
  | ok values =>
    have hvty := r.body_typed _ _ hbody
    have hread : ∀ v ∈ values, (e.read v.valueType).isSome := by
      obtain ⟨message, herr⟩ | hread := hresults
      · rw [hbody] at herr
        cases herr
      · intro v hv
        exact hread _ (hvty ▸ List.mem_map_of_mem hv)
    have hsize : ∀ v ∈ values, v.valueType.bytes ≤ e.valueSize := by
      intro v hv
      obtain ⟨f, hf⟩ := Option.isSome_iff_exists.mp (hread v hv)
      exact he.read_le _ _ hf
    have hlen' : values.length = r.results.length := by
      rw [← hvty, List.length_map]
    obtain ⟨valuesVec', hst, -, hin'⟩ := inSlots_storeAll valuesVec hsize (by
      rw [hlen, hlen']
      exact Nat.mul_le_mul_right _ (he.results_le r.params r.results r.args))
    obtain ⟨out, hout, hmach⟩ := exists_read he hin' hread
    rw [hvty] at hout
    simp only [ht.stores_eq hvty, hst, finish, hout]
    exact ⟨⟨machine, hm, rfl⟩, values, hbody, hmach⟩

/-- One call: its trampoline has its layout and delivers exactly when, should it get one, the
trampoline has its layout and the request fits. -/
theorem delivers_run_iff (he : e.Lawful) (k : Compiler) (r : Request V) :
    ((∀ t, e.asks r →
        (k.getTrampoline r.address r.signature e.valueSize r.emitted).2 = .ok t →
        t.HasLayout r.address r.params r.results e.valueSize) ∧ e.Delivers r (e.run k r).2) ↔
      ∀ t, e.asks r →
        (k.getTrampoline r.address r.signature e.valueSize r.emitted).2 = .ok t →
        t.HasLayout r.address r.params r.results e.valueSize ∧ e.Fits r := by
  by_cases ha : e.asks r
  · obtain ⟨machine, valuesVec, hm, hlen, hin, hrun⟩ := run_of_asks he ha
    rw [hrun k]
    cases hg : (k.getTrampoline r.address r.signature e.valueSize r.emitted).2 with
    | error failure =>
      exact ⟨fun _ t _ ht => by simp at ht, fun _ => ⟨fun t _ ht => by simp at ht, trivial⟩⟩
    | ok t =>
      constructor
      · rintro ⟨hlayout, hdel⟩ t' _ ht'
        cases ht'
        have ht := hlayout t ha rfl
        exact ⟨ht, fits_of_delivers ht hdel⟩
      · intro h
        obtain ⟨ht, hfits⟩ := h t ha rfl
        refine ⟨fun t' _ ht' => ?_, delivers_of_fits he hm hlen hin ht hfits⟩
        cases ht'
        exact ht
  · rw [run_of_not_asks k ha]
    exact ⟨fun _ t h => absurd h ha, fun _ => ⟨fun t h => absurd h ha, trivial⟩⟩

end EntryPoint

/-! ## Runs -/

/-- A call through one of the two entry points. -/
inductive Call where
  | invoke (r : Request RuntimeValue)
  | wasmtimeFn (r : Request Val)

namespace Call

/-- The address of the callee, the key of `trampoline_park`. -/
def address : Call → Nat
  | invoke r => r.address
  | wasmtimeFn r => r.address

def params : Call → List ValueType
  | invoke r => r.params
  | wasmtimeFn r => r.params

def results : Call → List ValueType
  | invoke r => r.results
  | wasmtimeFn r => r.results

/-- The `value_size` the call asks a trampoline for. -/
def valueSize : Call → Nat
  | invoke _ => Jit.invoke.valueSize
  | wasmtimeFn _ => wasmtimeFnCall.valueSize

def emitted : Call → Except SetupError Unit
  | invoke r => r.emitted
  | wasmtimeFn r => r.emitted

/-- No assertion on the arguments fails, so that a trampoline is asked for. -/
def asks : Call → Bool
  | invoke r => Jit.invoke.asks r
  | wasmtimeFn r => wasmtimeFnCall.asks r

/-- The compiler after the call. -/
def next (k : Compiler) : Call → Compiler
  | invoke r => (Jit.invoke.run k r).1
  | wasmtimeFn r => (wasmtimeFnCall.run k r).1

/-- What `get_trampoline` answers the call. -/
def trampoline (k : Compiler) (c : Call) : Except Failure Trampoline :=
  (k.getTrampoline c.address (.ofTypes c.params c.results) c.valueSize c.emitted).2

/-- The call delivers the caller's arguments and results. -/
def Delivers (k : Compiler) : Call → Prop
  | invoke r => Jit.invoke.Delivers r (Jit.invoke.run k r).2
  | wasmtimeFn r => wasmtimeFnCall.Delivers r (wasmtimeFnCall.run k r).2

/-- The arguments and the result types are those the entry point can pass. -/
def Fits : Call → Prop
  | invoke r => Jit.invoke.Fits r
  | wasmtimeFn r => wasmtimeFnCall.Fits r

/-- The number of slots the signature uses. -/
def slots (c : Call) : Nat := max c.params.length c.results.length

/-- The trampoline returned has the layout of this request, and the call delivers. -/
structure Sound (k : Compiler) (c : Call) : Prop where
  layout : ∀ t, c.asks → c.trampoline k = .ok t →
    t.HasLayout c.address c.params c.results c.valueSize
  delivers : c.Delivers k

/-- The first call whose trampoline was parked for an address. -/
def founder (cs : List Call) (address : Nat) : Option Call :=
  cs.find? fun c => c.address == address && c.asks && c.emitted.isOk

/-- A call that gets a trampoline fits its own signature, its offsets fit an `i32`, and the call
that made the trampoline had the same signature and, past the first slot, the same slot size. -/
def Meets (before : List Call) (c : Call) : Prop :=
  c.asks → ∀ f, founder (before ++ [c]) c.address = some f →
    c.Fits ∧ f.params = c.params ∧ f.results = c.results ∧
    (f.valueSize = c.valueSize ∨ c.slots ≤ 1) ∧ (c.slots - 1) * c.valueSize < 2 ^ 31

theorem valueSize_lt (c : Call) : c.valueSize < 2 ^ 31 := by
  cases c
  · exact invoke_lawful.valueSize_lt
  · exact wasmtimeFnCall_lawful.valueSize_lt

theorem next_of_asks {c : Call} (k : Compiler) (ha : c.asks) :
    c.next k =
      (k.getTrampoline c.address (.ofTypes c.params c.results) c.valueSize c.emitted).1 := by
  cases c with
  | invoke r =>
    obtain ⟨_, _, _, _, _, hrun⟩ := EntryPoint.run_of_asks invoke_lawful ha
    exact congrArg Prod.fst (hrun k)
  | wasmtimeFn r =>
    obtain ⟨_, _, _, _, _, hrun⟩ := EntryPoint.run_of_asks wasmtimeFnCall_lawful ha
    exact congrArg Prod.fst (hrun k)

theorem next_of_not_asks {c : Call} (k : Compiler) (ha : ¬ c.asks) : c.next k = k := by
  cases c with
  | invoke r => exact congrArg Prod.fst (EntryPoint.run_of_not_asks k ha)
  | wasmtimeFn r => exact congrArg Prod.fst (EntryPoint.run_of_not_asks k ha)

theorem sound_iff (k : Compiler) (c : Call) :
    c.Sound k ↔ ∀ t, c.asks → c.trampoline k = .ok t →
      t.HasLayout c.address c.params c.results c.valueSize ∧ c.Fits := by
  cases c with
  | invoke r =>
    refine Iff.trans ?_ (EntryPoint.delivers_run_iff invoke_lawful k r)
    exact ⟨fun h => ⟨h.layout, h.delivers⟩, fun h => ⟨h.1, h.2⟩⟩
  | wasmtimeFn r =>
    refine Iff.trans ?_ (EntryPoint.delivers_run_iff wasmtimeFnCall_lawful k r)
    exact ⟨fun h => ⟨h.layout, h.delivers⟩, fun h => ⟨h.1, h.2⟩⟩

end Call

/-- The compiler after a run of calls. -/
def Compiler.after (cs : List Call) : Compiler := cs.foldl (fun k c => c.next k) .new

/-- The trampoline a call would have made. -/
def Call.made (c : Call) : Trampoline := .made c.address c.params c.results c.valueSize

/-- A call founds an address when no earlier one did and its trampoline is made. -/
theorem Call.founder_append_singleton (cs : List Call) (c : Call) (address : Nat) :
    founder (cs ++ [c]) address = (founder cs address).or
      (if c.address = address ∧ c.asks ∧ c.emitted.isOk then some c else none) := by
  rw [founder, List.find?_append, List.find?_singleton]
  simp [founder, and_assoc]

theorem Call.address_of_founder {cs : List Call} {address : Nat} {f : Call}
    (h : founder cs address = some f) : f.address = address := by
  have := List.find?_some h
  simp only [Bool.and_eq_true, beq_iff_eq] at this
  exact this.1.1

/-- **The park holds, for each address, the trampoline of the first call that got one made.** -/
theorem Compiler.after_park (cs : List Call) (address : Nat) :
    (Compiler.after cs).trampolinePark.lookup address = (Call.founder cs address).map Call.made := by
  induction cs using List.reverseRecOn generalizing address with
  | nil => rfl
  | append_singleton cs c ih =>
    rw [Call.founder_append_singleton, Compiler.after, List.foldl_append, List.foldl_cons,
      List.foldl_nil]
    change (c.next (Compiler.after cs)).trampolinePark.lookup address = _
    by_cases ha : c.asks
    · rw [Call.next_of_asks _ ha, Compiler.getTrampoline, ih c.address]
      cases hf : Call.founder cs c.address with
      | some f =>
        -- An address that has its trampoline keeps it.
        by_cases haddr : c.address = address
        · subst haddr
          simp [ih, hf]
        · simp [ih, haddr]
      | none =>
        simp only [Option.map_none, makeTrampoline_ofTypes]
        cases hem : c.emitted with
        | error err => simp [ih, Except.mapError, Except.map, Except.isOk, Except.toBool]
        | ok _ =>
          by_cases haddr : c.address = address
          · subst haddr
            simp [hf, ha, Except.mapError, Except.map, Except.isOk, Except.toBool, Call.made]
          · have hne : (address == c.address) = false := by simpa using fun h => haddr h.symm
            simp [ih, haddr, Except.mapError, Except.map, List.lookup_cons, hne]
    · rw [Call.next_of_not_asks _ ha, ih]
      simp [ha]

/-- The trampoline a call gets is the one its address was founded with. -/
theorem Call.trampoline_after_eq_ok_iff {before : List Call} {c : Call} {t : Trampoline}
    (ha : c.asks) : c.trampoline (Compiler.after before) = .ok t ↔
      ∃ f, founder (before ++ [c]) c.address = some f ∧ f.made = t := by
  rw [founder_append_singleton, Call.trampoline, Compiler.getTrampoline, Compiler.after_park]
  cases hf : founder before c.address with
  | some f => simp
  | none =>
    simp only [Option.map_none, makeTrampoline_ofTypes]
    cases hem : c.emitted with
    | error err => simp [Except.mapError, Except.map, Except.isOk, Except.toBool]
    | ok _ => simp [ha, Except.mapError, Except.map, Except.isOk, Except.toBool, Call.made]

/-- **A call is sound exactly when the call that made its trampoline had its layout.** -/
theorem Call.sound_iff_meets (before : List Call) (c : Call) :
    c.Sound (Compiler.after before) ↔ c.Meets before := by
  rw [Call.sound_iff]
  constructor
  · intro h ha f hf
    obtain ⟨hlayout, hfits⟩ := h f.made ha ((trampoline_after_eq_ok_iff ha).mpr ⟨f, hf, rfl⟩)
    obtain ⟨-, hparams, hresults, hsize, hlt⟩ :=
      (hasLayout_made_iff f.valueSize_lt).mp hlayout
    exact ⟨hfits, hparams, hresults, hsize, hlt⟩
  · intro h t ha ht
    obtain ⟨f, hf, rfl⟩ := (trampoline_after_eq_ok_iff ha).mp ht
    obtain ⟨hfits, hparams, hresults, hsize, hlt⟩ := h ha f hf
    exact ⟨(hasLayout_made_iff f.valueSize_lt).mpr
      ⟨address_of_founder hf, hparams, hresults, hsize, hlt⟩, hfits⟩

/-- Every call of a run gets a trampoline with its own layout and delivers. -/
def RunSound (cs : List Call) : Prop :=
  ∀ before c after, cs = before ++ c :: after → c.Sound (Compiler.after before)

/-- **Trampoline cache soundness, exactly**: all calls of a run deliver when and only when each of
them shares the layout of the call its address was founded with. -/
theorem runSound_iff (cs : List Call) :
    RunSound cs ↔ ∀ before c after, cs = before ++ c :: after → c.Meets before :=
  forall_congr' fun before => forall_congr' fun c => forall_congr' fun _ =>
    imp_congr_right fun _ => c.sound_iff_meets before

/-- `(func (param i32 i32) (result i32) local.get 0 local.get 1 i32.sub)`. -/
def subBody : Body
  | [_, .i32 a, .i32 b] => .ok [.i32 (a - b)]
  | _ => .error "signature mismatch"

/-- A call of `subBody` at address 4096 with 7 and 5. -/
def subRequest {V : Type} (args : List V) : Request V where
  address := 4096
  vmctx := 64
  params := [.i32, .i32]
  results := [.i32]
  args := args
  body := subBody
  body_typed received values h := by
    unfold subBody at h
    split at h <;> cases h
    rfl
  emitted := .ok ()

/-- Called through `invoke` first, the function keeps its 16-byte trampoline, and a later
`WasmtimeFn::call` has its second argument read past the end of `values_vec`. -/
theorem not_runSound_sub :
    ¬ RunSound [.invoke (subRequest [.i32 7, .i32 5]), .wasmtimeFn (subRequest [.i32 7, .i32 5])] := by
  intro h
  exact (h [.invoke (subRequest [.i32 7, .i32 5])] _ [] rfl).delivers

end Wasmtime.Jit
