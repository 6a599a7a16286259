import Mathlib
import Wasmtime.Jit.Trampoline
import Wasmtime.Lib.Ending

/-!
# The spec-test runner

Model of `WastContext` (`wasmtime-wast/src/wast.rs`) over the `Context` it drives
(`wasmtime-jit/src/context.rs`).

* The `wast` crate parses a script and encodes its modules, and the engine compiles, instantiates
  and runs them. Both are parameters: `WastCrate` and `Engine` hold one function for each thing
  the runner asks of them, and nothing is assumed of these.
* A call ends in a value, an error or a panic, and leaves a context in each case: a module whose
  start function traps has changed the engine too.
* `runDirectives` also tells which directives were executed. What is printed is left out.

Results:
* `held_or_slips`, `Slips.accepted`: an accepted directive held or is one of the slips, and each
  slip is accepted although it did not hold.
* `checkCanonicalNans_eq_ok`, `checkArithmeticNans_eq_ok`: the canonical test is exact, the
  arithmetic one takes every float with the top bit of the fraction.
* `runBuffer_sound_iff`: the runner is sound on a script and on all its beginnings exactly when
  no directive that it reaches is one of the slips.
-/

namespace Wasmtime.Wast

open Wasmtime.Jit (RuntimeValue)

/-! ## Scripts -/

/-- `wast::Span`: an offset in the text. -/
abbrev Span := Nat

/-- `wast::Instruction`; `other` is any that `runtime_value` does not convert. -/
inductive Instruction where
  | i32Const (x : BitVec 32)
  | i64Const (x : BitVec 64)
  | f32Const (bits : BitVec 32)
  | f64Const (bits : BitVec 64)
  | v128Const (x : BitVec 128)
  | other (debug : String)
  deriving DecidableEq, Repr

/-- `wast::Expression`. -/
structure Expression where
  instrs : List Instruction
  deriving DecidableEq, Repr

/-- `wast::Module`; `K` is its content. -/
structure Module (K : Type) where
  span : Span
  name : Option String
  kind : K

/-- `wast::QuoteModule`. -/
inductive QuoteModule (K : Type) where
  | module (m : Module K)
  | quote (text : List String)

/-- `wast::WastInvoke`. -/
structure WastInvoke where
  span : Span
  module : Option String
  name : String
  args : List Expression

/-- `wast::WastExecute`. -/
inductive WastExecute (K : Type) where
  | invoke (i : WastInvoke)
  | module (m : Module K)
  | get (module : Option String) (global : String)

/-- `wast::WastDirective`. -/
inductive WastDirective (K : Type) where
  | module (m : Module K)
  | register (span : Span) (name : String) (module : Option String)
  | invoke (i : WastInvoke)
  | assertReturn (span : Span) (exec : WastExecute K) (results : List Expression)
  | assertTrap (span : Span) (exec : WastExecute K) (message : String)
  | assertExhaustion (span : Span) (call : WastInvoke) (message : String)
  | assertReturnCanonicalNan (span : Span) (invoke : WastInvoke)
  | assertReturnArithmeticNan (span : Span) (invoke : WastInvoke)
  | assertInvalid (span : Span) (module : Module K) (message : String)
  | assertMalformed (span : Span) (module : QuoteModule K) (message : String)
  | assertUnlinkable (span : Span) (module : Module K) (message : String)
  | assertReturnFunc (span : Span)

/-- A malformed module given as text. -/
def WastDirective.isQuoted {K : Type} : WastDirective K → Bool
  | .assertMalformed _ (.quote _) _ => true
  | _ => false

/-! ## Errors and outcomes -/

/-- `InstantiationError`, with its texts. -/
inductive InstantiationError where
  | resource (message : String)
  | link (message : String)
  | startTrap (message : String)
  deriving DecidableEq, Repr

/-- `SetupError`; the errors of the compiler and of the debug reader are their texts. -/
inductive SetupError where
  | validate (message : String)
  | compile (message : String)
  | instantiate (e : InstantiationError)
  | debugInfo (message : String)
  deriving DecidableEq, Repr

/-- `ActionError`. -/
inductive ActionError where
  | setup (e : SetupError)
  | field (message : String)
  | kind (message : String)
  | type (message : String)
  deriving DecidableEq, Repr

/-- `ActionOutcome`. -/
inductive ActionOutcome where
  | returned (values : List RuntimeValue)
  | trapped (message : String)
  deriving DecidableEq, Repr

/-- `failure::Error`: an error's text, or a text that was put around an error. -/
inductive Error where
  | fail (display : String)
  | context (display : String) (cause : Error)
  deriving DecidableEq, Repr

/-- `to_string`: the outermost text. -/
def Error.toString : Error → String
  | .fail display => display
  | .context display _ => display

def InstantiationError.display : InstantiationError → String
  | .resource message => "Insufficient resources: " ++ message
  | .link message => "Link error: " ++ message
  | .startTrap message => "Trap occurred while invoking start function: " ++ message

def SetupError.display : SetupError → String
  | .validate message => "Validation error: " ++ message
  | .compile message => "WebAssembly compilation error: " ++ message
  | .instantiate e => "Instantiation error: " ++ e.display
  | .debugInfo message => "Debug information error: " ++ message

def ActionError.display : ActionError → String
  | .setup e => e.display
  | .field message => "Unknown field: " ++ message
  | .kind message => "Kind error: " ++ message
  | .type message => "Type error: " ++ message

/-- What a call ends with; a panic has a message. -/
abbrev Ends (ε : Type) := Ending ε String

/-- `with_context`. -/
def withContext {α : Type} (r : Ends Error α) (text : String) : Ends Error α := r.mapErr (.context text)

@[simp] theorem withContext_eq_ok {α : Type} {r : Ends Error α} {text : String} {a : α} :
    withContext r text = .ok a ↔ r = .ok a := Ending.mapErr_eq_ok

/-! ## Values and their texts -/

/-- The decimal texts of a vector's bytes, as `{:?}` prints a list. -/
def debugBytes (x : BitVec 128) : String :=
  "[" ++ ", ".intercalate ((LittleEndian.leBytes 16 x.toNat).map fun b => toString b.toNat) ++ "]"

/-- `Display` of a `RuntimeValue`. -/
def display : RuntimeValue → String
  | .i32 x => toString x.toInt ++ ": i32"
  | .i64 x => toString x.toInt ++ ": i64"
  | .f32 x => toString x.toNat ++ ": f32"
  | .f64 x => toString x.toNat ++ ": f64"
  | .v128 x => debugBytes x ++ ": v128"

/-- `Debug` of a `RuntimeValue`. -/
def debug : RuntimeValue → String
  | .i32 x => "I32(" ++ toString x.toInt ++ ")"
  | .i64 x => "I64(" ++ toString x.toInt ++ ")"
  | .f32 x => "F32(" ++ toString x.toNat ++ ")"
  | .f64 x => "F64(" ++ toString x.toNat ++ ")"
  | .v128 x => "V128(" ++ debugBytes x ++ ")"

def debugValues (values : List RuntimeValue) : String :=
  "[" ++ ", ".intercalate (values.map debug) ++ "]"

/-- `runtime_value`. The text of its first panic ends in the expression, which is left out. -/
def runtimeValue (v : Expression) : Ends Error RuntimeValue :=
  match v.instrs with
  | [.i32Const x] => .ok (.i32 x)
  | [.i64Const x] => .ok (.i64 x)
  | [.f32Const bits] => .ok (.f32 bits)
  | [.f64Const bits] => .ok (.f64 bits)
  | [.v128Const x] => .ok (.v128 x)
  | [.other debug] => .panic ("couldn't convert " ++ debug ++ " to a runtime value")
  | _ => .panic "too many instructions"

/-- `args.iter().map(runtime_value).collect()`. -/
def runtimeValues : List Expression → Ends Error (List RuntimeValue)
  | [] => .ok []
  | e :: es => (runtimeValue e).bind fun v => (runtimeValues es).bind fun vs => .ok (v :: vs)

/-- `str::contains`. -/
def contains (text message : String) : Bool :=
  decide (message.toList <:+: text.toList)

/-! ## What the runner is built on -/

/-- What is asked of the `wast` crate once the script is parsed: to encode a module, and the line
and column of a span in the text. Its errors are their texts. -/
structure WastCrate (K : Type) where
  encode : Module K → Except String (List UInt8)
  linecolIn : Span → String → Nat × Nat

/-- What is asked of the engine: `validate` (of `wasmparser`), `instantiate`
(`wasmtime-jit/src/instantiate.rs`), which resolves imports in the namespace, and `invoke` and
`get` (`wasmtime-jit/src/action.rs`). `σ` is the compiler with every instance, `H` an
`InstanceHandle`. -/
structure Engine (σ H : Type) where
  validate : σ → List UInt8 → Except String Unit
  instantiate : σ → (String → Option H) → List UInt8 → Ends SetupError H × σ
  invoke : σ → H → String → List RuntimeValue → Ends ActionError ActionOutcome × σ
  get : σ → H → String → Except ActionError RuntimeValue

/-- `Context`: the names of its namespace, and the engine's state. -/
structure Context (σ H : Type) where
  names : String → Option H
  engine : σ

/-- `WastContext`. -/
structure WastContext (σ H : Type) where
  current : Option H
  context : Context σ H

variable {K σ H : Type}

/-- A call's result and the context it leaves. -/
abbrev Called (σ H ε α : Type) := Ends ε α × WastContext σ H

namespace Context

/-- `Context::instantiate`. -/
def instantiate (engine : Engine σ H) (c : Context σ H) (data : List UInt8) :
    Ends SetupError H × Context σ H :=
  match engine.validate c.engine data with
  | .error e => (.err (.validate ("module did not validate: " ++ e)), c)
  | .ok () =>
    let (result, s) := engine.instantiate c.engine c.names data
    (result, { c with engine := s })

/-- `Context::name_instance`. -/
def nameInstance (c : Context σ H) (name : String) (instance' : H) : Context σ H :=
  { c with names := fun n => if n = name then some instance' else c.names n }

/-- `Context::optionally_name_instance`. -/
def optionallyNameInstance (c : Context σ H) (name : Option String) (instance' : H) :
    Context σ H :=
  match name with
  | some name => c.nameInstance name instance'
  | none => c

/-- `Context::instantiate_module`. -/
def instantiateModule (engine : Engine σ H) (c : Context σ H) (name : Option String)
    (data : List UInt8) : Ends ActionError H × Context σ H :=
  match c.instantiate engine data with
  | (.ok instance', c) => (.ok instance', c.optionallyNameInstance name instance')
  | (.err e, c) => (.err (.setup e), c)
  | (.panic message, c) => (.panic message, c)

/-- `Context::get_instance`, with the text of `UnknownInstance`. -/
def getInstance (c : Context σ H) (name : String) : Ends Error H :=
  match c.names name with
  | some instance' => .ok instance'
  | none => .err (.fail ("no instance " ++ name ++ " present"))

end Context

namespace WastContext

/-- `WastContext::get_instance`. -/
def getInstance (ctx : WastContext σ H) (name : Option String) : Ends Error H :=
  match name with
  | some name => withContext (ctx.context.getInstance name) "failed to fetch instance"
  | none =>
    match ctx.current with
    | some instance' => .ok instance'
    | none => .err (.fail "no current instance")

/-- `WastContext::invoke`. -/
def invoke (engine : Engine σ H) (ctx : WastContext σ H) (name : Option String) (field : String)
    (args : List Expression) : Called σ H Error ActionOutcome :=
  let called := (runtimeValues args).bind fun values =>
    (ctx.getInstance name).bind fun instance' => .ok (values, instance')
  match called with
  | .ok (values, instance') =>
    let (result, s) := engine.invoke ctx.context.engine instance' field values
    (withContext (result.mapErr fun e => .fail e.display) ("failed to invoke `" ++ field ++ "`"),
      { ctx with context.engine := s })
  | .err e => (.err e, ctx)
  | .panic message => (.panic message, ctx)

/-- `WastContext::perform_invoke`. -/
def performInvoke (engine : Engine σ H) (ctx : WastContext σ H) (exec : WastInvoke) :
    Called σ H Error ActionOutcome :=
  ctx.invoke engine exec.module exec.name exec.args

/-- `WastContext::get`. -/
def get (engine : Engine σ H) (ctx : WastContext σ H) (name : Option String) (field : String) :
    Ends Error ActionOutcome :=
  (ctx.getInstance name).bind fun instance' =>
    match engine.get ctx.context.engine instance' field with
    | .ok value => .ok (.returned [value])
    | .error e => .err (.context ("failed to get field `" ++ field ++ "`") (.fail e.display))

/-- `WastContext::module`. -/
def module (engine : Engine σ H) (ctx : WastContext σ H) (name : Option String)
    (data : List UInt8) : Called σ H Error Unit :=
  match ctx.context.instantiateModule engine name data with
  | (.ok index, c) => (.ok (), ⟨some index, c⟩)
  | (.err e, c) => (.err (.fail e.display), { ctx with context := c })
  | (.panic message, c) => (.panic message, { ctx with context := c })

/-- `WastContext::register`. -/
def register (ctx : WastContext σ H) (name : Option String) (asName : String) :
    Called σ H Error Unit :=
  match ctx.getInstance name with
  | .ok instance' => (.ok (), { ctx with context := ctx.context.nameInstance asName instance' })
  | .err e => (.err e, ctx)
  | .panic message => (.panic message, ctx)

/-- `WastContext::perform_execute`. -/
def performExecute (crate : WastCrate K) (engine : Engine σ H) (ctx : WastContext σ H) :
    WastExecute K → Called σ H Error ActionOutcome
  | .invoke i => ctx.performInvoke engine i
  | .module m =>
    match crate.encode m with
    | .error e => (.err (.fail e), ctx)
    | .ok binary =>
      match ctx.context.instantiateModule engine none binary with
      | (.ok _, c) => (.ok (.returned []), { ctx with context := c })
      | (.err (.setup (.instantiate (.startTrap message))), c) =>
        (.ok (.trapped message), { ctx with context := c })
      | (.err e, c) => (.err (.fail e.display), { ctx with context := c })
      | (.panic message, c) => (.panic message, { ctx with context := c })
  | .get module global => (ctx.get engine module global, ctx)

end WastContext

/-! ## The checks of a directive

Each is what `run_buffer` does with the outcome of the directive's action. `at'` is the text that
names the directive's place. -/

/-- The loop of `AssertReturn`: `zip` asks for an expected value only where there is a value. -/
def checkValues (at' : String) : List RuntimeValue → List Expression → Ends Error Unit
  | [], _ => .ok ()
  | _ :: _, [] => .ok ()
  | v :: vs, e :: es =>
    (runtimeValue e).bind fun expected =>
      if v = expected then checkValues at' vs es
      else .err (.fail (at' ++ "\nexpected " ++ display expected ++ ", got " ++ display v))

/-- An outcome that has to be a return. -/
def checkReturned (at' : String) (check : List RuntimeValue → Ends Error Unit) :
    ActionOutcome → Ends Error Unit
  | .returned values => check values
  | .trapped message => .err (.fail (at' ++ "\nunexpected trap: " ++ message))

/-- An outcome that has to be a trap. -/
def checkTrapped (at' : String) (check : String → Ends Error Unit) :
    ActionOutcome → Ends Error Unit
  | .returned values => .err (.fail (at' ++ "\nexpected trap, got " ++ debugValues values))
  | .trapped message => check message

/-- `AssertTrap`. A build with `lightbeam` prints a wrong message and goes on. -/
def checkTrap (lightbeam : Bool) (at' message trapMessage : String) : Ends Error Unit :=
  if contains trapMessage message then .ok ()
  else if lightbeam then .ok ()
  else .err (.fail (at' ++ "\nexpected " ++ message ++ ", got " ++ trapMessage))

/-- `AssertExhaustion`. -/
def checkExhaustion (at' message trapMessage : String) : Ends Error Unit :=
  if contains trapMessage message then .ok ()
  else .err (.fail (at' ++ "\nexpected exhaustion with " ++ message ++ ", got " ++ trapMessage))

/-- The loop of both NaN assertions, with their test on the bits and the name of their class. -/
def checkNans (at' kind : String) (test32 : BitVec 32 → Bool) (test64 : BitVec 64 → Bool) :
    List RuntimeValue → Ends Error Unit
  | [] => .ok ()
  | v :: vs =>
    match v with
    | .i32 _ | .i64 _ => .err (.fail (at' ++ "\nunexpected integer in NaN test"))
    | .v128 _ => .err (.fail (at' ++ "\nunexpected vector in NaN test"))
    | .f32 x =>
      if test32 x then checkNans at' kind test32 test64 vs
      else .err (.fail (at' ++ "\nexpected " ++ kind ++ " NaN"))
    | .f64 x =>
      if test64 x then checkNans at' kind test32 test64 vs
      else .err (.fail (at' ++ "\nexpected " ++ kind ++ " NaN"))

/-- The test of `AssertReturnCanonicalNan`. -/
def checkCanonicalNans (at' : String) : List RuntimeValue → Ends Error Unit :=
  checkNans at' "canonical" (fun x => x &&& 0x7fffffff#32 == 0x7fc00000#32)
    fun x => x &&& 0x7fffffffffffffff#64 == 0x7ff8000000000000#64

/-- The test of `AssertReturnArithmeticNan`: the top bit of the fraction, and no other. -/
def checkArithmeticNans (at' : String) : List RuntimeValue → Ends Error Unit :=
  checkNans at' "arithmetic" (fun x => x &&& 0x00400000#32 == 0x00400000#32)
    fun x => x &&& 0x0008000000000000#64 == 0x0008000000000000#64

/-- A module that has to fail. `bail` is the text of a wrong message where that is an error: for
`assert_invalid` and `assert_malformed` it is only printed. -/
def checkFails (at' expected message : String) (bail : Option String) :
    Ends Error Unit → Ends Error Unit
  | .ok () => .err (.fail (at' ++ "\nexpected module to fail to " ++ expected))
  | .panic text => .panic text
  | .err e =>
    match bail with
    | none => .ok ()
    | some name =>
      if contains e.toString message then .ok ()
      else .err (.fail (at' ++ "\n" ++ name ++ ": expected " ++ message ++ ", got " ++ e.toString))

/-! ## Running a script -/

/-- What the runner is built with: the two crates, the `lightbeam` feature, and the name and the
text of the file. -/
structure Setup (K σ H : Type) where
  crate : WastCrate K
  engine : Engine σ H
  lightbeam : Bool
  filename : String
  text : String

/-- How the body of the loop ends: with the next directive, or with `return Ok(())`. -/
inductive Flow where
  | next
  | done
  deriving DecidableEq, Repr

namespace Setup

/-- The closure `context`. -/
def context (S : Setup K σ H) (sp : Span) : String :=
  let (line, col) := S.crate.linecolIn sp S.text
  "for directive on " ++ S.filename ++ ":" ++ toString line ++ ":" ++ toString col

/-- A call, and a check on what it returned. -/
def checked {α : Type} (at' : String) (called : Called σ H Error α) (check : α → Ends Error Unit) :
    Called σ H Error Flow :=
  (((withContext called.1 at').bind check).bind fun _ => .ok .next, called.2)

/-- `module.encode()`, then a call on the bytes. -/
def encoded (S : Setup K σ H) (ctx : WastContext σ H) (m : Module K)
    (body : List UInt8 → Called σ H Error Flow) : Called σ H Error Flow :=
  match S.crate.encode m with
  | .error e => (.err (.fail e), ctx)
  | .ok bytes => body bytes

/-- A module that has to fail. -/
def expectFailure (S : Setup K σ H) (ctx : WastContext σ H) (sp : Span) (m : Module K)
    (expected message : String) (bail : Option String) : Called σ H Error Flow :=
  S.encoded ctx m fun bytes =>
    let called := ctx.module S.engine none bytes
    ((checkFails (S.context sp) expected message bail called.1).bind fun _ => .ok .next, called.2)

/-- The body of the loop of `run_buffer`. -/
def directive (S : Setup K σ H) (ctx : WastContext σ H) :
    WastDirective K → Called σ H Error Flow
  | .module m =>
    S.encoded ctx m fun binary =>
      checked (S.context m.span) (ctx.module S.engine m.name binary) .ok
  | .register sp name module => checked (S.context sp) (ctx.register module name) .ok
  | .invoke i =>
    checked (S.context i.span) (ctx.performInvoke S.engine i) fun _ => .ok ()
  | .assertReturn sp exec results =>
    checked (S.context sp) (ctx.performExecute S.crate S.engine exec)
      (checkReturned (S.context sp) fun values => checkValues (S.context sp) values results)
  | .assertTrap sp exec message =>
    checked (S.context sp) (ctx.performExecute S.crate S.engine exec)
      (checkTrapped (S.context sp) (checkTrap S.lightbeam (S.context sp) message))
  | .assertExhaustion sp call message =>
    checked (S.context sp) (ctx.performInvoke S.engine call)
      (checkTrapped (S.context sp) (checkExhaustion (S.context sp) message))
  | .assertReturnCanonicalNan sp invoke =>
    checked (S.context sp) (ctx.performInvoke S.engine invoke)
      (checkReturned (S.context sp) (checkCanonicalNans (S.context sp)))
  | .assertReturnArithmeticNan sp invoke =>
    checked (S.context sp) (ctx.performInvoke S.engine invoke)
      (checkReturned (S.context sp) (checkArithmeticNans (S.context sp)))
  | .assertInvalid sp m message => S.expectFailure ctx sp m "build" message none
  | .assertMalformed sp (.module m) message =>
    S.expectFailure ctx sp m "instantiate" message none
  | .assertMalformed _ (.quote _) _ => (.ok .done, ctx)
  | .assertUnlinkable sp m message =>
    S.expectFailure ctx sp m "link" message (some "assert_unlinkable")
  | .assertReturnFunc _ => (.panic "need to implement assert_return_func", ctx)

/-- The loop of `run_buffer`, with the directives whose action was performed. -/
def runDirectives (S : Setup K σ H) (ctx : WastContext σ H) :
    List (WastDirective K) → Called σ H Error Unit × List (WastDirective K)
  | [] => ((.ok (), ctx), [])
  | d :: ds =>
    match S.directive ctx d with
    | (.ok .next, ctx) =>
      let (called, executed) := S.runDirectives ctx ds
      (called, d :: executed)
    | (.ok .done, ctx) => ((.ok (), ctx), [])
    | (.err e, ctx) => ((.err e, ctx), [d])
    | (.panic message, ctx) => ((.panic message, ctx), [d])

/-- `WastContext::run_buffer`; `wast` is what `wast::parser::parse` gave for the text. -/
def runBuffer (S : Setup K σ H) (ctx : WastContext σ H)
    (wast : Except String (List (WastDirective K))) :
    Called σ H Error Unit × List (WastDirective K) :=
  match wast with
  | .error e => ((.err (.fail e), ctx), [])
  | .ok directives => S.runDirectives ctx directives

end Setup

/-! ## NaNs -/

/-- The exponent and the fraction of an `f32`. -/
def fields32 (x : BitVec 32) : Nat × Nat := (x.toNat / 2 ^ 23 % 2 ^ 8, x.toNat % 2 ^ 23)

/-- The exponent and the fraction of an `f64`. -/
def fields64 (x : BitVec 64) : Nat × Nat := (x.toNat / 2 ^ 52 % 2 ^ 11, x.toNat % 2 ^ 52)

/-- A NaN whose fraction is its top bit. -/
def IsCanonicalNan : RuntimeValue → Prop
  | .f32 x => fields32 x = (2 ^ 8 - 1, 2 ^ 22)
  | .f64 x => fields64 x = (2 ^ 11 - 1, 2 ^ 51)
  | _ => False

/-- A float whose fraction has its top bit. -/
def IsQuiet : RuntimeValue → Prop
  | .f32 x => 2 ^ 22 ≤ (fields32 x).2
  | .f64 x => 2 ^ 51 ≤ (fields64 x).2
  | _ => False

/-- A float whose exponent has every bit. -/
def HasTopExponent : RuntimeValue → Prop
  | .f32 x => (fields32 x).1 = 2 ^ 8 - 1
  | .f64 x => (fields64 x).1 = 2 ^ 11 - 1
  | _ => False

/-- A NaN whose fraction has its top bit. -/
def IsArithmeticNan (v : RuntimeValue) : Prop := HasTopExponent v ∧ IsQuiet v

theorem canonical32_iff (x : BitVec 32) :
    (x &&& 0x7fffffff#32 == 0x7fc00000#32) = true ↔ fields32 x = (2 ^ 8 - 1, 2 ^ 22) := by
  have hmask : x.toNat &&& 0x7fffffff = x.toNat % 2 ^ 31 := Nat.and_two_pow_sub_one_eq_mod _ 31
  have hx := x.isLt
  simp only [beq_iff_eq, ← BitVec.toNat_inj, BitVec.toNat_and, BitVec.toNat_ofNat, fields32,
    Prod.mk.injEq]
  norm_num only [hmask]
  omega

theorem canonical64_iff (x : BitVec 64) :
    (x &&& 0x7fffffffffffffff#64 == 0x7ff8000000000000#64) = true ↔
      fields64 x = (2 ^ 11 - 1, 2 ^ 51) := by
  have hmask : x.toNat &&& 0x7fffffffffffffff = x.toNat % 2 ^ 63 :=
    Nat.and_two_pow_sub_one_eq_mod _ 63
  have hx := x.isLt
  simp only [beq_iff_eq, ← BitVec.toNat_inj, BitVec.toNat_and, BitVec.toNat_ofNat, fields64,
    Prod.mk.injEq]
  norm_num only [hmask]
  omega

theorem and_two_pow_eq_iff (n i : Nat) : n &&& 2 ^ i = 2 ^ i ↔ n / 2 ^ i % 2 = 1 := by
  rw [Nat.and_two_pow, Nat.testBit_eq_decide_div_mod_eq]
  have hpos : 0 < 2 ^ i := Nat.two_pow_pos i
  by_cases hbit : n / 2 ^ i % 2 = 1 <;> simp [hbit, hpos.ne]

theorem quiet32_iff (x : BitVec 32) :
    (x &&& 0x00400000#32 == 0x00400000#32) = true ↔ 2 ^ 22 ≤ (fields32 x).2 := by
  have hbit := and_two_pow_eq_iff x.toNat 22
  simp only [beq_iff_eq, ← BitVec.toNat_inj, BitVec.toNat_and, fields32]
  exact hbit.trans (by omega)

theorem quiet64_iff (x : BitVec 64) :
    (x &&& 0x0008000000000000#64 == 0x0008000000000000#64) = true ↔
      2 ^ 51 ≤ (fields64 x).2 := by
  have hbit := and_two_pow_eq_iff x.toNat 51
  simp only [beq_iff_eq, ← BitVec.toNat_inj, BitVec.toNat_and, fields64]
  exact hbit.trans (by omega)

/-- The loop accepts a list of floats that all pass the test. -/
theorem checkNans_eq_ok {at' kind : String} {test32 : BitVec 32 → Bool} {test64 : BitVec 64 → Bool}
    {Class : RuntimeValue → Prop} (h32 : ∀ x, test32 x = true ↔ Class (.f32 x))
    (h64 : ∀ x, test64 x = true ↔ Class (.f64 x))
    (hother : ∀ v, Class v → (∃ x, v = .f32 x) ∨ ∃ x, v = .f64 x) (values : List RuntimeValue) :
    checkNans at' kind test32 test64 values = .ok () ↔ ∀ v ∈ values, Class v := by
  induction values with
  | nil => simp [checkNans]
  | cons v vs ih =>
    have hnot : ∀ w, w.valueType ≠ .f32 → w.valueType ≠ .f64 → ¬Class w := by
      intro w h1 h2 hw
      obtain ⟨x, rfl⟩ | ⟨x, rfl⟩ := hother w hw
      · exact h1 rfl
      · exact h2 rfl
    rw [List.forall_mem_cons, ← ih]
    cases v with
    | i32 x => simp [checkNans, hnot (.i32 x) (by simp [RuntimeValue.valueType])
        (by simp [RuntimeValue.valueType])]
    | i64 x => simp [checkNans, hnot (.i64 x) (by simp [RuntimeValue.valueType])
        (by simp [RuntimeValue.valueType])]
    | v128 x => simp [checkNans, hnot (.v128 x) (by simp [RuntimeValue.valueType])
        (by simp [RuntimeValue.valueType])]
    | f32 x => by_cases h : test32 x = true <;> simp [checkNans, h, ← h32]
    | f64 x => by_cases h : test64 x = true <;> simp [checkNans, h, ← h64]

/-- The canonical test is exact. -/
theorem checkCanonicalNans_eq_ok {at' : String} {values : List RuntimeValue} :
    checkCanonicalNans at' values = .ok () ↔ ∀ v ∈ values, IsCanonicalNan v := by
  refine checkNans_eq_ok canonical32_iff canonical64_iff (fun v hv => ?_) values
  cases v <;> simp_all [IsCanonicalNan]

/-- The arithmetic test is for the top bit of the fraction only. -/
theorem checkArithmeticNans_eq_ok {at' : String} {values : List RuntimeValue} :
    checkArithmeticNans at' values = .ok () ↔ ∀ v ∈ values, IsQuiet v := by
  refine checkNans_eq_ok quiet32_iff quiet64_iff (fun v hv => ?_) values
  cases v <;> simp_all [IsQuiet]

/-! ## What a directive asserts -/

namespace Setup

/-- The module was encoded, and instantiating it failed. -/
def Fails (S : Setup K σ H) (ctx : WastContext σ H) (m : Module K) : Prop :=
  ∃ bytes e, S.crate.encode m = .ok bytes ∧ (ctx.module S.engine none bytes).1 = .err e

/-- The directive was executed and held. -/
def Held (S : Setup K σ H) (ctx : WastContext σ H) : WastDirective K → Prop
  | .module m => ∃ bytes, S.crate.encode m = .ok bytes ∧
      (ctx.module S.engine m.name bytes).1 = .ok ()
  | .register _ name module => (ctx.register module name).1 = .ok ()
  | .invoke i => ∃ values, (ctx.performInvoke S.engine i).1 = .ok (.returned values)
  | .assertReturn _ exec results => ∃ values,
      (ctx.performExecute S.crate S.engine exec).1 = .ok (.returned values) ∧
        List.Forall₂ (fun v e => runtimeValue e = .ok v) values results
  | .assertTrap _ exec _ => ∃ message,
      (ctx.performExecute S.crate S.engine exec).1 = .ok (.trapped message)
  | .assertExhaustion _ call _ => ∃ message,
      (ctx.performInvoke S.engine call).1 = .ok (.trapped message)
  | .assertReturnCanonicalNan _ invoke => ∃ values,
      (ctx.performInvoke S.engine invoke).1 = .ok (.returned values) ∧
        values ≠ [] ∧ ∀ v ∈ values, IsCanonicalNan v
  | .assertReturnArithmeticNan _ invoke => ∃ values,
      (ctx.performInvoke S.engine invoke).1 = .ok (.returned values) ∧
        values ≠ [] ∧ ∀ v ∈ values, IsArithmeticNan v
  | .assertInvalid _ m _ => S.Fails ctx m
  | .assertMalformed _ (.module m) _ => S.Fails ctx m
  | .assertMalformed _ (.quote _) _ => True
  | .assertUnlinkable _ m _ => S.Fails ctx m
  | .assertReturnFunc _ => False

/-- Every directive held where it stands; a quoted module leaves the context as it is. -/
def AllHeld (S : Setup K σ H) (ctx : WastContext σ H) : List (WastDirective K) → Prop
  | [] => True
  | d :: ds => S.Held ctx d ∧ S.AllHeld (S.directive ctx d).2 ds

/-- **The runner is sound on a script**: if it returns `Ok(())`, every directive but the quoted
modules was executed, in order, and each held. -/
def Sound (S : Setup K σ H) (ctx : WastContext σ H) (script : List (WastDirective K)) : Prop :=
  (S.runBuffer ctx (.ok script)).1.1 = .ok () →
    (S.runBuffer ctx (.ok script)).2 = script.filter (fun d => !d.isQuoted) ∧
      S.AllHeld ctx script

/-- The slips of the runner, by what the directive finds in its context and what follows it:
* a bare `invoke` that traps;
* an `assert_return` that gets more or fewer values than it expects, the same as far as both go;
* a NaN assertion that gets no value;
* an arithmetic NaN assertion that gets floats with the top bit of the fraction, not all NaNs;
* a quoted module with anything but quoted modules after it. -/
def Slips (S : Setup K σ H) (ctx : WastContext σ H) (rest : List (WastDirective K)) :
    WastDirective K → Prop
  | .invoke i => ∃ message, (ctx.performInvoke S.engine i).1 = .ok (.trapped message)
  | .assertReturn sp exec results => ∃ values,
      (ctx.performExecute S.crate S.engine exec).1 = .ok (.returned values) ∧
        values.length ≠ results.length ∧ checkValues (S.context sp) values results = .ok ()
  | .assertReturnCanonicalNan _ invoke =>
      (ctx.performInvoke S.engine invoke).1 = .ok (.returned [])
  | .assertReturnArithmeticNan _ invoke => ∃ values,
      (ctx.performInvoke S.engine invoke).1 = .ok (.returned values) ∧
        (∀ v ∈ values, IsQuiet v) ∧ (values = [] ∨ ∃ v ∈ values, ¬HasTopExponent v)
  | .assertMalformed _ (.quote _) _ => ∃ d ∈ rest, d.isQuoted = false
  | _ => False

/-- No directive that the runner reaches is one of the slips. -/
def Careful (S : Setup K σ H) (ctx : WastContext σ H) : List (WastDirective K) → Prop
  | [] => True
  | d :: ds => ¬S.Slips ctx ds d ∧
      ((S.directive ctx d).1 = .ok .next → S.Careful (S.directive ctx d).2 ds)

/-! ## One directive -/

theorem checkValues_eq_ok {at' : String} {values : List RuntimeValue} {results : List Expression}
    (hlen : values.length = results.length) :
    checkValues at' values results = .ok () ↔
      List.Forall₂ (fun v e => runtimeValue e = .ok v) values results := by
  induction values generalizing results with
  | nil =>
    obtain rfl : results = [] := List.length_eq_zero_iff.mp hlen.symm
    simp [checkValues]
  | cons v vs ih =>
    cases results with
    | nil => simp at hlen
    | cons e es =>
      have hlen' : vs.length = es.length := by simpa using hlen
      simp only [checkValues, List.forall₂_cons, ← ih hlen']
      cases he : runtimeValue e with
      | ok expected =>
        by_cases hv : v = expected
        · simp [Ending.bind, hv]
        · simp [Ending.bind, hv, Ne.symm hv]
      | err e' => simp [Ending.bind]
      | panic message => simp [Ending.bind]

/-- A checked call is accepted when it returned a value that passes. -/
theorem checked_eq_next {α : Type} {at' : String} {called : Called σ H Error α}
    {check : α → Ends Error Unit} :
    (checked at' called check).1 = .ok .next ↔ ∃ a, called.1 = .ok a ∧ check a = .ok () := by
  simp only [checked, Ending.bind_eq_ok, withContext_eq_ok, and_true]
  exact ⟨fun ⟨_, h⟩ => h, fun h => ⟨(), h⟩⟩

/-- A failing module is accepted when it was encoded and instantiating it failed. -/
theorem Fails.of_expectFailure {S : Setup K σ H} {ctx : WastContext σ H} {sp : Span}
    {m : Module K} {expected message : String} {bail : Option String}
    (h : (S.expectFailure ctx sp m expected message bail).1 = .ok .next) : S.Fails ctx m := by
  simp only [expectFailure, encoded] at h
  cases hm : S.crate.encode m with
  | error e => simp [hm] at h
  | ok bytes =>
    simp only [hm, Ending.bind_eq_ok] at h
    obtain ⟨_, hcheck, -⟩ := h
    cases hr : (ctx.module S.engine none bytes).1 with
    | ok u => simp [hr, checkFails] at hcheck
    | err e => exact ⟨bytes, e, hm, hr⟩
    | panic text => simp [hr, checkFails] at hcheck

/-- An accepted directive held or is one of the slips. -/
theorem held_or_slips {S : Setup K σ H} {ctx : WastContext σ H} {d : WastDirective K}
    (rest : List (WastDirective K)) (h : (S.directive ctx d).1 = .ok .next) :
    S.Held ctx d ∨ S.Slips ctx rest d := by
  cases d with
  | module m =>
    simp only [directive, encoded] at h
    cases hm : S.crate.encode m with
    | error e => simp [hm] at h
    | ok bytes =>
      obtain ⟨u, hu, -⟩ := checked_eq_next.mp (by simpa only [hm] using h)
      exact .inl ⟨bytes, hm, hu⟩
  | register sp name module =>
    obtain ⟨u, hu, -⟩ := checked_eq_next.mp h
    exact .inl hu
  | invoke i =>
    obtain ⟨outcome, ho, -⟩ := checked_eq_next.mp h
    cases outcome with
    | returned values => exact .inl ⟨values, ho⟩
    | trapped message => exact .inr ⟨message, ho⟩
  | assertReturn sp exec results =>
    obtain ⟨outcome, ho, hcheck⟩ := checked_eq_next.mp h
    cases outcome with
    | trapped message => simp [checkReturned] at hcheck
    | returned values =>
      by_cases hlen : values.length = results.length
      · exact .inl ⟨values, ho, (checkValues_eq_ok hlen).mp hcheck⟩
      · exact .inr ⟨values, ho, hlen, hcheck⟩
  | assertTrap sp exec message =>
    obtain ⟨outcome, ho, hcheck⟩ := checked_eq_next.mp h
    cases outcome with
    | returned values => simp [checkTrapped] at hcheck
    | trapped message => exact .inl ⟨message, ho⟩
  | assertExhaustion sp call message =>
    obtain ⟨outcome, ho, hcheck⟩ := checked_eq_next.mp h
    cases outcome with
    | returned values => simp [checkTrapped] at hcheck
    | trapped message => exact .inl ⟨message, ho⟩
  | assertReturnCanonicalNan sp invoke =>
    obtain ⟨outcome, ho, hcheck⟩ := checked_eq_next.mp h
    cases outcome with
    | trapped message => simp [checkReturned] at hcheck
    | returned values =>
      by_cases hnil : values = []
      · subst hnil
        exact .inr ho
      · exact .inl ⟨values, ho, hnil, checkCanonicalNans_eq_ok.mp hcheck⟩
  | assertReturnArithmeticNan sp invoke =>
    obtain ⟨outcome, ho, hcheck⟩ := checked_eq_next.mp h
    cases outcome with
    | trapped message => simp [checkReturned] at hcheck
    | returned values =>
      have hquiet : ∀ v ∈ values, IsQuiet v := checkArithmeticNans_eq_ok.mp hcheck
      by_cases hnan : values ≠ [] ∧ ∀ v ∈ values, HasTopExponent v
      · exact .inl ⟨values, ho, hnan.1, fun v hv => ⟨hnan.2 v hv, hquiet v hv⟩⟩
      · refine .inr ⟨values, ho, hquiet, ?_⟩
        by_contra hslip
        push Not at hslip
        exact hnan hslip
  | assertInvalid sp m message => exact .inl (Fails.of_expectFailure h)
  | assertMalformed sp module message =>
    cases module with
    | module m => exact .inl (Fails.of_expectFailure (S := S) h)
    | quote text => simp [directive] at h
  | assertUnlinkable sp m message => exact .inl (Fails.of_expectFailure h)
  | assertReturnFunc sp => simp [directive] at h

/-- A slip other than a quoted module is accepted, and did not hold. -/
theorem Slips.accepted {S : Setup K σ H} {ctx : WastContext σ H} {d : WastDirective K}
    {rest : List (WastDirective K)} (h : S.Slips ctx rest d) (hd : d.isQuoted = false) :
    (S.directive ctx d).1 = .ok .next ∧ ¬S.Held ctx d := by
  cases d with
  | invoke i =>
    obtain ⟨message, hm⟩ := h
    refine ⟨checked_eq_next.mpr ⟨_, hm, rfl⟩, ?_⟩
    rintro ⟨values, hv⟩
    simp [hm] at hv
  | assertReturn sp exec results =>
    obtain ⟨values, hv, hlen, hcheck⟩ := h
    refine ⟨checked_eq_next.mpr ⟨_, hv, hcheck⟩, ?_⟩
    rintro ⟨values', hv', hall⟩
    obtain rfl : values = values' := by simpa [hv] using hv'
    exact hlen hall.length_eq
  | assertReturnCanonicalNan sp invoke =>
    refine ⟨checked_eq_next.mpr ⟨_, h, rfl⟩, ?_⟩
    rintro ⟨values, hv, hnil, -⟩
    obtain rfl : [] = values := by simpa [show _ = _ from h] using hv
    exact hnil rfl
  | assertReturnArithmeticNan sp invoke =>
    obtain ⟨values, hv, hquiet, hslip⟩ := h
    refine ⟨checked_eq_next.mpr ⟨_, hv, checkArithmeticNans_eq_ok.mpr hquiet⟩, ?_⟩
    rintro ⟨values', hv', hnil, hnan⟩
    obtain rfl : values = values' := by simpa [hv] using hv'
    obtain rfl | ⟨v, hmem, htop⟩ := hslip
    · exact hnil rfl
    · exact htop (hnan v hmem).1
  | assertMalformed sp module message =>
    cases module with
    | module m => exact h.elim
    | quote text => simp [WastDirective.isQuoted] at hd
  | module m => exact h.elim
  | register sp name module => exact h.elim
  | assertTrap sp exec message => exact h.elim
  | assertExhaustion sp call message => exact h.elim
  | assertInvalid sp m message => exact h.elim
  | assertUnlinkable sp m message => exact h.elim
  | assertReturnFunc sp => exact h.elim

/-- Only a quoted module stops the loop. -/
theorem directive_eq_done {S : Setup K σ H} {ctx : WastContext σ H} {d : WastDirective K}
    (h : (S.directive ctx d).1 = .ok .done) : d.isQuoted = true := by
  have hchecked {α : Type} {at' : String} {called : Called σ H Error α}
      {check : α → Ends Error Unit} : (checked at' called check).1 ≠ .ok .done := by
    simp [checked, Ending.bind_eq_ok]
  have hfails {sp : Span} {m : Module K} {expected message : String} {bail : Option String} :
      (S.expectFailure ctx sp m expected message bail).1 ≠ .ok .done := by
    cases hm : S.crate.encode m <;> simp [expectFailure, encoded, hm, Ending.bind_eq_ok]
  cases d with
  | assertMalformed sp module message =>
    cases module with
    | module m => exact absurd h hfails
    | quote text => rfl
  | module m =>
    cases hm : S.crate.encode m with
    | error e => simp [directive, encoded, hm] at h
    | ok bytes => exact absurd (by simpa [directive, encoded, hm] using h) hchecked
  | assertInvalid sp m message => exact absurd h hfails
  | assertUnlinkable sp m message => exact absurd h hfails
  | assertReturnFunc sp => simp [directive] at h
  | register sp name module => exact absurd h hchecked
  | invoke i => exact absurd h hchecked
  | assertReturn sp exec results => exact absurd h hchecked
  | assertTrap sp exec message => exact absurd h hchecked
  | assertExhaustion sp call message => exact absurd h hchecked
  | assertReturnCanonicalNan sp invoke => exact absurd h hchecked
  | assertReturnArithmeticNan sp invoke => exact absurd h hchecked

/-- A quoted module does: it has no effect, and holds. -/
theorem directive_of_isQuoted {S : Setup K σ H} {ctx : WastContext σ H} {d : WastDirective K}
    (h : d.isQuoted = true) : S.directive ctx d = (.ok .done, ctx) ∧ S.Held ctx d := by
  cases d with
  | assertMalformed sp module message =>
    cases module with
    | module m => simp [WastDirective.isQuoted] at h
    | quote text => exact ⟨rfl, trivial⟩
  | _ => simp [WastDirective.isQuoted] at h

/-! ## Whole scripts -/

theorem runDirectives_next {S : Setup K σ H} {ctx : WastContext σ H} {d : WastDirective K}
    (h : (S.directive ctx d).1 = .ok .next) (ds : List (WastDirective K)) :
    S.runDirectives ctx (d :: ds) = ((S.runDirectives (S.directive ctx d).2 ds).1,
      d :: (S.runDirectives (S.directive ctx d).2 ds).2) := by
  rw [runDirectives, ← Prod.mk.eta (p := S.directive ctx d), h]

/-- The three ways an iteration of the loop ends. -/
theorem runDirectives_cons (S : Setup K σ H) (ctx : WastContext σ H) (d : WastDirective K)
    (ds : List (WastDirective K)) :
    ((S.directive ctx d).1 = .ok .next ∧ S.runDirectives ctx (d :: ds) =
        ((S.runDirectives (S.directive ctx d).2 ds).1,
          d :: (S.runDirectives (S.directive ctx d).2 ds).2)) ∨
      (d.isQuoted = true ∧ S.runDirectives ctx (d :: ds) = ((.ok (), ctx), [])) ∨
      (S.runDirectives ctx (d :: ds)).1.1 ≠ .ok () := by
  cases hr : (S.directive ctx d).1 with
  | ok flow =>
    cases flow with
    | next => exact .inl ⟨rfl, runDirectives_next hr ds⟩
    | done =>
      have hq := directive_eq_done hr
      exact .inr (.inl ⟨hq, by rw [runDirectives, (directive_of_isQuoted hq).1]⟩)
  | err e =>
    refine .inr (.inr ?_)
    rw [runDirectives, ← Prod.mk.eta (p := S.directive ctx d), hr]
    simp
  | panic message =>
    refine .inr (.inr ?_)
    rw [runDirectives, ← Prod.mk.eta (p := S.directive ctx d), hr]
    simp

theorem allHeld_of_isQuoted {S : Setup K σ H} {ctx : WastContext σ H}
    {ds : List (WastDirective K)} (h : ∀ d ∈ ds, d.isQuoted = true) : S.AllHeld ctx ds := by
  induction ds with
  | nil => trivial
  | cons d ds ih =>
    obtain ⟨hstep, hheld⟩ : S.directive ctx d = (.ok .done, ctx) ∧ S.Held ctx d :=
      directive_of_isQuoted (h d (by simp))
    refine ⟨hheld, ?_⟩
    rw [hstep]
    exact ih fun d' hd' => h d' (by simp [hd'])

theorem Slips.mono {S : Setup K σ H} {ctx : WastContext σ H} {d : WastDirective K}
    {rest rest' : List (WastDirective K)} (hsub : rest ⊆ rest') (h : S.Slips ctx rest d) :
    S.Slips ctx rest' d := by
  cases d with
  | assertMalformed sp module message =>
    cases module with
    | module m => exact h
    | quote text =>
      obtain ⟨d, hd, hq⟩ := h
      exact ⟨d, hsub hd, hq⟩
  | _ => exact h

theorem Careful.of_append {S : Setup K σ H} {ctx : WastContext σ H}
    {ds rest : List (WastDirective K)} (h : S.Careful ctx (ds ++ rest)) : S.Careful ctx ds := by
  induction ds generalizing ctx with
  | nil => trivial
  | cons d ds ih =>
    exact ⟨fun hs => h.1 (hs.mono (by simp)), fun hnext => ih (h.2 hnext)⟩

/-- A script on which the runner reaches no slip is run soundly. -/
theorem Careful.sound {S : Setup K σ H} {ctx : WastContext σ H} {script : List (WastDirective K)}
    (h : S.Careful ctx script) : S.Sound ctx script := by
  intro hok
  simp only [runBuffer] at hok ⊢
  induction script generalizing ctx with
  | nil => exact ⟨rfl, trivial⟩
  | cons d ds ih =>
    obtain ⟨hnext, hrun⟩ | ⟨hq, hrun⟩ | herr := S.runDirectives_cons ctx d ds
    · rw [hrun] at hok ⊢
      obtain ⟨hexec, hheld⟩ := ih (h.2 hnext) hok
      have hnq : d.isQuoted = false := by
        by_contra hq
        rw [(directive_of_isQuoted (by simpa using hq)).1] at hnext
        cases hnext
      refine ⟨by simp [hexec, hnq], ?_, hheld⟩
      exact (held_or_slips ds hnext).resolve_right h.1
    · have hall : ∀ d' ∈ d :: ds, d'.isQuoted = true := by
        intro d' hd'
        by_contra hnq
        cases d with
        | assertMalformed sp module message =>
          cases module with
          | module m => simp [WastDirective.isQuoted] at hq
          | quote text =>
            obtain rfl | hmem := List.mem_cons.mp hd'
            · exact hnq rfl
            · exact h.1 ⟨d', hmem, by simpa using hnq⟩
        | _ => simp [WastDirective.isQuoted] at hq
      refine ⟨?_, allHeld_of_isQuoted hall⟩
      rw [hrun, eq_comm, List.filter_eq_nil_iff]
      simpa using hall
    · exact absurd hok herr

/-- A script all of whose beginnings are run soundly has no slip that is reached. -/
theorem careful_of_sound {S : Setup K σ H} {ctx : WastContext σ H}
    {script : List (WastDirective K)} (h : ∀ p, p <+: script → S.Sound ctx p) :
    S.Careful ctx script := by
  induction script generalizing ctx with
  | nil => trivial
  | cons d ds ih =>
    refine ⟨fun hslip => ?_, fun hnext => ih fun p hp hok => ?_⟩
    · by_cases hq : d.isQuoted = true
      · -- The whole script is accepted, and a directive after the quoted module was not executed.
        have hrun : S.runDirectives ctx (d :: ds) = ((.ok (), ctx), []) := by
          rw [runDirectives, (directive_of_isQuoted hq).1]
        have hexec := (h _ (List.prefix_refl _) (by rw [runBuffer, hrun])).1
        rw [runBuffer, hrun, eq_comm, List.filter_eq_nil_iff] at hexec
        cases d with
        | assertMalformed sp module message =>
          cases module with
          | module m => exact hslip
          | quote text =>
            obtain ⟨d', hmem, hnq⟩ := hslip
            exact hexec d' (by simp [hmem]) (by simp [hnq])
        | _ => simp [WastDirective.isQuoted] at hq
      · obtain ⟨hnext, hheld⟩ := hslip.accepted (by simpa using hq)
        have hpre : [d] <+: d :: ds := ⟨ds, rfl⟩
        exact hheld (h _ hpre (by rw [runBuffer, runDirectives_next hnext, runDirectives])).2.1
    · have hsound := h (d :: p) (List.cons_prefix_cons.mpr ⟨rfl, hp⟩)
      have hnq : d.isQuoted = false := by
        by_contra hq
        rw [(directive_of_isQuoted (by simpa using hq)).1] at hnext
        cases hnext
      simp only [Sound, runBuffer, runDirectives_next hnext] at hsound hok ⊢
      obtain ⟨hexec, -, hheld⟩ := hsound hok
      refine ⟨?_, hheld⟩
      simpa [hnq] using hexec

/-- **When the runner is sound.** It is, on a script and on every beginning of it, exactly when no
directive that it reaches is one of the slips. -/
theorem runBuffer_sound_iff (S : Setup K σ H) (ctx : WastContext σ H)
    (script : List (WastDirective K)) :
    (∀ p, p <+: script → S.Sound ctx p) ↔ S.Careful ctx script := by
  constructor
  · exact careful_of_sound
  · rintro h p ⟨rest, rfl⟩
    exact h.of_append.sound

/-- An engine in which no module validates. -/
def deaf : Setup Unit Unit Unit where
  crate := ⟨fun _ => .ok [], fun sp _ => (1, sp + 1)⟩
  engine :=
    { validate := fun _ _ => .error "unexpected end"
      instantiate := fun s _ _ => (.err (.compile "unexpected end"), s)
      invoke := fun s _ field _ => (.err (.field ("no export named \"" ++ field ++ "\"")), s)
      get := fun _ _ field => .error (.field ("no export named \"" ++ field ++ "\"")) }
  lightbeam := false
  filename := "quoted.wast"
  text := ""

/-- A quoted module, then a trap asserted of a module that was never given. -/
def quotedThenTrap : List (WastDirective Unit) :=
  [.assertMalformed 0 (.quote ["(memory"]) "unexpected token",
    .assertTrap 50 (.invoke ⟨51, none, "run", []⟩) "unreachable"]

/-- The runner accepts it, having executed nothing. -/
theorem not_sound_quotedThenTrap :
    ¬Sound deaf ⟨none, ⟨fun _ => none, ()⟩⟩ quotedThenTrap := by
  intro h
  have hheld := (h rfl).2.2.1
  obtain ⟨message, hm⟩ := hheld
  exact absurd hm (by simp [directive, WastContext.performExecute, WastContext.performInvoke,
    WastContext.invoke, WastContext.getInstance, runtimeValues, Ending.bind])

end Setup

end Wasmtime.Wast
