import Mathlib
import Wasmtime.Debug.ValueLabelRanges

/-!
# Locations of variables

Model of `compile_expression` and `CompiledExpression::build_with_locals`
(`wasmtime-debug/src/transform/expression.rs`), and of what `clone_die_attributes`
(`wasmtime-debug/src/transform/attr.rs`) makes of an attribute with an expression.

* An expression is the list of its operations, each with its bytes, as `Operation::parse` takes them apart. An
  expression that cannot be parsed, and a type of a local other than 0, is `none`.
* `none` otherwise is a panic, or a translation that does not come back.
* LEB128 is written out; an integer of 64 bits takes at most ten bytes.

Where the entries of all pieces have the same expression, one `exprloc` takes their place, which holds
everywhere in the scope, also where no entry is.

Results: `found_eq_some` (when the entries count as one), and the headline `locates_iff`.
-/

namespace Wasmtime.Debug

/-! ## Expressions -/

inductive CompiledExpressionPart where
  | code (bytes : List UInt8)
  /-- `Local`. -/
  | localValue (label : ValueLabel)
  | deref
  deriving DecidableEq, Repr

structure CompiledExpression where
  parts : List CompiledExpressionPart
  needDeref : Bool
  deriving DecidableEq, Repr

/-- The operations `compile_expression` tells apart. -/
inductive OperationKind where
  /-- `0xED`, the WebAssembly extension. -/
  | wasmLocal (ty : Nat) (index : Int)
  | literal
  | plusConstant
  | stackValue
  | deref
  | other

structure Operation where
  kind : OperationKind
  chunk : List UInt8

/-- `get_vmctx_value_label`. -/
def vmctxLabel : ValueLabel := 0xfffffffe

/-- The variables of the loop of `compile_expression`. -/
structure Compiling where
  parts : List CompiledExpressionPart
  codeChunk : List UInt8
  needDeref : Bool

/-- Pushes the chunk of code that has been collected. -/
def Compiling.flush (s : Compiling) : Compiling :=
  if s.codeChunk.length > 0 then { s with parts := s.parts ++ [.code s.codeChunk], codeChunk := [] } else s

/-- The loop of `compile_expression`; `some none` for an operation that is not supported. -/
def compileOperations : List Operation → Compiling → Option (Option Compiling)
  | [], s => some (some s)
  | op :: ops, s =>
    let s := { s with needDeref := true }
    match op.kind with
    | .wasmLocal ty index =>
      if ty = 0 then
        compileOperations ops { s.flush with parts := s.flush.parts ++ [.localValue (index % 2 ^ 32).toNat] }
      else none
    | .literal => compileOperations ops { s with codeChunk := s.codeChunk ++ op.chunk }
    | .plusConstant => compileOperations ops { s with codeChunk := s.codeChunk ++ op.chunk }
    | .stackValue => compileOperations ops { s with needDeref := false, codeChunk := s.codeChunk ++ op.chunk }
    | .deref => compileOperations ops { s.flush with parts := s.flush.parts ++ [.deref], codeChunk := op.chunk }
    | .other => some none

/-- `compile_expression`. The slice in which it looks for two chunks of code to glue has one part, so that it
never does. -/
def compileExpression (ops : List Operation) (frameBase : Option CompiledExpression) :
    Option (Option CompiledExpression) :=
  (compileOperations ops ⟨frameBase.elim [] CompiledExpression.parts, [],
    frameBase.elim false CompiledExpression.needDeref⟩).map fun compiled => compiled.map fun s =>
      ⟨s.flush.parts, s.needDeref⟩

/-- `is_simple`. -/
def CompiledExpression.isSimple (e : CompiledExpression) : Bool :=
  match e.parts with
  | [.code _] => true
  | parts => parts.isEmpty

/-- `build`. -/
def CompiledExpression.build (e : CompiledExpression) : Option (List UInt8) :=
  match e.parts with
  | [.code code] => some code
  | _ => none

/-! ## Bytes of a location -/

/-- `map_reg`. -/
def mapReg (reg : Nat) : Option UInt8 :=
  ([0, 2, 1, 3, 7, 6, 4, 5, 8, 9, 10, 11, 12, 13, 14, 15, 17, 18, 19, 20, 21, 22, 23, 24] : List UInt8)[reg]?

def uleb128 : Nat → Nat → List UInt8
  | 0, _ => []
  | fuel + 1, n => if n < 128 then [n.toUInt8] else (n % 128 + 128).toUInt8 :: uleb128 fuel (n / 128)

def sleb128 : Nat → Int → List UInt8
  | 0, _ => []
  | fuel + 1, n =>
    let byte := (n % 128).toNat
    if (n / 128 = 0 ∧ byte < 64) ∨ (n / 128 = -1 ∧ 64 ≤ byte) then [byte.toUInt8]
    else (byte + 128).toUInt8 :: sleb128 fuel (n / 128)

/-- `DW_OP_breg6`, the offset, and `DW_OP_deref`: what is in a stack slot. -/
def stackSlotCode (offset : Int) : List UInt8 := 0x76 :: (sleb128 10 (offset + 16) ++ [0x06])

/-- `translate_loc`. -/
def translateLoc (loc : ValueLoc) (frameInfo : Option FunctionFrameInfo) : Option (Option (List UInt8)) :=
  match loc with
  | .reg reg => (mapReg reg).map fun machineReg => some [0x50 + machineReg]
  | .stack slot =>
    frameInfo.elim (some none) fun info => info.stackSlots[slot]?.map fun offset => offset.map stackSlotCode
  | .unassigned => some none

/-- `append_memory_deref`. -/
def memoryDeref (info : FunctionFrameInfo) (vmctxLoc : ValueLoc) : Option (Option (List UInt8)) :=
  let deref : List UInt8 := [0x06, 0x16, 0x9f, 0x10] ++ uleb128 10 0xffffffff ++ [0x1a, 0x22]
  match vmctxLoc with
  | .reg reg => (mapReg reg).map fun machineReg =>
    some ((0x70 + machineReg) :: (sleb128 10 info.memoryOffset ++ deref))
  | .stack slot => info.stackSlots[slot]?.map fun offset => offset.map fun offset =>
    stackSlotCode offset ++ 0x11 :: (sleb128 10 info.memoryOffset ++ 0x22 :: deref)
  | .unassigned => some none

/-! ## `build_with_locals` -/

/-- An entry of a location list. -/
structure LocationEntry where
  symbol : Nat
  addend : Nat
  length : Nat
  expr : List UInt8
  deriving DecidableEq, Repr

/-- The code of a part in a piece; `some none` where the piece is given up. -/
def partCode (frameInfo : Option FunctionFrameInfo) (r : CachedValueLabelRange) :
    CompiledExpressionPart → Option (Option (List UInt8))
  | .code code => some (some code)
  | .localValue label => (r.location label).bind fun loc => translateLoc loc frameInfo
  | .deref =>
    match r.location vmctxLabel, frameInfo with
    | some vmctxLoc, some info => memoryDeref info vmctxLoc
    | _, _ => some none

def rangeCode (frameInfo : Option FunctionFrameInfo) (r : CachedValueLabelRange) :
    List CompiledExpressionPart → Option (Option (List UInt8))
  | [] => some (some [])
  | part :: parts => (partCode frameInfo r part).bind fun code =>
    code.elim (some none) fun code => (rangeCode frameInfo r parts).map fun rest => rest.map (code ++ ·)

section

variable (bs : BinarySearch) (sort : UnstableSort) (fuel : Nat) (addrTr : AddressTransform)
  (frameInfo : Option FunctionFrameInfo)

/-- The parts, and the last `Deref` that `need_deref` stands for. -/
def CompiledExpression.allParts (e : CompiledExpression) : List CompiledExpressionPart :=
  e.parts ++ if e.needDeref then [.deref] else []

/-- The label that a part makes `build_with_locals` process. -/
def CompiledExpressionPart.label : CompiledExpressionPart → Option ValueLabel
  | code _ => none
  | localValue label => some label
  | deref => some vmctxLabel

/-- What is built from the pieces of the scope. -/
def CompiledExpression.buildRanges (e : CompiledExpression) (ranges : List CachedValueLabelRange) :
    Option (List LocationEntry) :=
  (ranges.mapM fun r => (rangeCode frameInfo r e.allParts).map fun code => code.map fun code =>
    LocationEntry.mk r.funcIndex r.start (r.stop - r.start) code).map fun entries => entries.reduceOption

/-- `build_with_locals`. -/
def CompiledExpression.buildWithLocals (e : CompiledExpression) (scope : List (Nat × Nat)) :
    Option (List LocationEntry) :=
  if scope.isEmpty then some []
  else
    match e.build with
    | some code =>
      (scope.mapM fun s => addrTr.translateRanges bs fuel s.1 s.2).map fun found =>
        found.flatten.map fun range => ⟨range.1, range.2.1, range.2.2, code⟩
    | none =>
      (ValueLabelRangesBuilder.new bs sort fuel addrTr scope).bind fun b =>
        (b.processLabels bs fuel addrTr frameInfo (e.allParts.filterMap CompiledExpressionPart.label)).bind
          fun b => e.buildRanges frameInfo b.removeIncompleteRanges.ranges

/-! ## The attribute -/

/-- `write::AttributeValue`, of an expression. -/
inductive LocationValue where
  | exprloc (expr : List UInt8)
  | locationList (locs : List LocationEntry)
  deriving DecidableEq, Repr

/-- `DW_AT_frame_base`, which `clone_die_attributes` leaves out. -/
def frameBaseAttr : Nat := 0x40

/-- `is_exprloc_to_loclist_allowed`. -/
def isExprlocToLoclistAllowed (attrName : Nat) : Bool :=
  [0x02, 0x19, 0x2a, 0x38, 0x40, 0x46, 0x48, 0x4a, 0x4d].contains attrName

/-- `found_single_expr`: the loop stops at the first expression that differs. -/
def foundSingleExpr : List LocationEntry → Option (List UInt8) → Option (List UInt8)
  | [], found => found
  | entry :: entries, none => foundSingleExpr entries (some entry.expr)
  | entry :: entries, some prev => if entry.expr = prev then foundSingleExpr entries (some prev) else none

/-- The value for the entries that `build_with_locals` returns. -/
def locationValue (attrName : Nat) (exprs : List LocationEntry) : Option LocationValue :=
  if exprs.isEmpty then none
  else
    match foundSingleExpr exprs none with
    | some expr => some (.exprloc expr)
    | none =>
      if isExprlocToLoclistAllowed attrName then
        some (.locationList (exprs.filter fun entry => entry.length != 0))
      else none

/-- The case `AttributeValue::Exprloc` of `clone_die_attributes`; `some none` where there is no attribute. -/
def cloneExprloc (attrName : Nat) (ops : List Operation) (frameBase : Option CompiledExpression)
    (scopeRanges : Option (List (Nat × Nat))) : Option (Option LocationValue) :=
  if attrName = frameBaseAttr then some none
  else (compileExpression ops frameBase).bind fun compiled =>
    compiled.elim (some none) fun e =>
      if e.isSimple then some (e.build.map .exprloc)
      else scopeRanges.elim (some none) fun scope =>
        (e.buildWithLocals bs sort fuel addrTr frameInfo scope).map (locationValue attrName)

end

/-! ## What an attribute says of an address -/

/-- The entry holds at an address of a function. -/
def LocationEntry.Covers (entry : LocationEntry) (symbol address : Nat) : Prop :=
  entry.symbol = symbol ∧ entry.addend ≤ address ∧ address < entry.addend + entry.length

/-- The expressions that an attribute gives at an address; an `exprloc` holds everywhere. -/
def LocationValue.Gives (symbol address : Nat) (expr : List UInt8) : LocationValue → Prop
  | exprloc expr' => expr' = expr
  | locationList locs => ∃ entry ∈ locs, entry.Covers symbol address ∧ entry.expr = expr

/-- The generated addresses of a scope. -/
def InScope (bs : BinarySearch) (fuel : Nat) (addrTr : AddressTransform) (scope : List (Nat × Nat))
    (symbol address : Nat) : Prop :=
  ∃ s ∈ scope, ∃ ranges, addrTr.translateRangesRaw bs fuel s.1 s.2 = some (some (symbol, ranges)) ∧
    ∃ range ∈ ranges, range.1 ≤ address ∧ address < range.2

/-- The attribute gives a location exactly where there is an entry, and then that of the entry. -/
def Locates (inScope : Nat → Nat → Prop) (entries : List LocationEntry) (value : Option LocationValue) : Prop :=
  ∀ symbol address, inScope symbol address → ∀ expr, (∃ v, value = some v ∧ v.Gives symbol address expr) ↔
    ∃ entry ∈ entries, entry.Covers symbol address ∧ entry.expr = expr

/-- All entries have the expression. -/
def Single (entries : List LocationEntry) (expr : List UInt8) : Prop :=
  entries ≠ [] ∧ ∀ entry ∈ entries, entry.expr = expr

/-- Entries that count as one cover the scope, and when an attribute can be neither one expression nor a list,
no entry covers any of it. -/
structure Shortens (inScope : Nat → Nat → Prop) (attrName : Nat) (entries : List LocationEntry) : Prop where
  single : attrName ≠ frameBaseAttr → (∃ expr, Single entries expr) →
    ∀ symbol address, inScope symbol address → ∃ entry ∈ entries, entry.Covers symbol address
  unlisted : (attrName = frameBaseAttr ∨ isExprlocToLoclistAllowed attrName = false ∧
      ∀ expr, ¬ Single entries expr) →
    ∀ symbol address, inScope symbol address → ∀ entry ∈ entries, ¬ entry.Covers symbol address

/-! ## One expression for all entries -/

section

variable {entries : List LocationEntry} {expr prev : List UInt8} {attrName : Nat}
  {inScope : Nat → Nat → Prop}

theorem found_eq_some : foundSingleExpr entries (some prev) = some expr ↔
    prev = expr ∧ ∀ entry ∈ entries, entry.expr = expr := by
  induction entries with
  | nil => simp [foundSingleExpr]
  | cons entry entries ih =>
    rw [foundSingleExpr, List.forall_mem_cons]
    split
    · next heq =>
      rw [ih, heq]
      exact ⟨fun h => ⟨h.1, h.1, h.2⟩, fun h => ⟨h.1, h.2.2⟩⟩
    · next hne =>
      refine iff_of_false (fun h => by cases h) fun h => hne (h.2.1.trans h.1.symm)

theorem foundSingleExpr_eq_some : foundSingleExpr entries none = some expr ↔ Single entries expr := by
  cases entries with
  | nil => exact iff_of_false (fun h => by cases h) fun h => h.1 rfl
  | cons entry entries =>
    rw [foundSingleExpr, found_eq_some, Single, List.forall_mem_cons]
    exact (and_iff_right (List.cons_ne_nil _ _)).symm

/-- Dropping the empty entries changes nothing. -/
theorem gives_filter {symbol address : Nat} :
    (LocationValue.locationList (entries.filter fun entry => entry.length != 0)).Gives symbol address expr ↔
      ∃ entry ∈ entries, entry.Covers symbol address ∧ entry.expr = expr := by
  constructor
  · rintro ⟨entry, hentry, h⟩
    exact ⟨entry, (List.mem_filter.mp hentry).1, h⟩
  · rintro ⟨entry, hentry, hcovers, h⟩
    refine ⟨entry, List.mem_filter.mpr ⟨hentry, bne_iff_ne.mpr fun hzero => ?_⟩, hcovers, h⟩
    obtain ⟨-, hlow, hhigh⟩ := hcovers
    omega

/-- An attribute that is left out says the right thing where no entry is. -/
theorem locates_none : Locates inScope entries none ↔
    ∀ symbol address, inScope symbol address → ∀ entry ∈ entries, ¬ entry.Covers symbol address := by
  constructor
  · intro h symbol address hin entry hentry hcovers
    obtain ⟨v, hv, -⟩ := (h symbol address hin entry.expr).mpr ⟨entry, hentry, hcovers, rfl⟩
    cases hv
  · intro h symbol address hin expr
    refine iff_of_false ?_ ?_
    · rintro ⟨v, hv, -⟩
      cases hv
    · rintro ⟨entry, hentry, hcovers, -⟩
      exact h symbol address hin entry hentry hcovers

/-- One expression says the right thing where an entry is everywhere. -/
theorem locates_exprloc (h : Single entries expr) : Locates inScope entries (some (.exprloc expr)) ↔
    ∀ symbol address, inScope symbol address → ∃ entry ∈ entries, entry.Covers symbol address := by
  constructor
  · intro hlocates symbol address hin
    obtain ⟨entry, hentry, hcovers, -⟩ := (hlocates symbol address hin expr).mp ⟨_, rfl, rfl⟩
    exact ⟨entry, hentry, hcovers⟩
  · intro hcovered symbol address hin expr'
    constructor
    · rintro ⟨v, hv, hgives⟩
      obtain rfl := Option.some.inj hv
      obtain rfl : expr = expr' := hgives
      obtain ⟨entry, hentry, hcovers⟩ := hcovered symbol address hin
      exact ⟨entry, hentry, hcovers, h.2 entry hentry⟩
    · rintro ⟨entry, hentry, -, rfl⟩
      exact ⟨_, rfl, (h.2 entry hentry).symm⟩

theorem locates_locationList : Locates inScope entries
    (some (.locationList (entries.filter fun entry => entry.length != 0))) := by
  intro symbol address _ expr
  rw [← gives_filter]
  constructor
  · rintro ⟨v, hv, hgives⟩
    exact Option.some.inj hv ▸ hgives
  · intro h
    exact ⟨_, rfl, h⟩

/-- **The shortcut for given entries.** -/
theorem locates_locationValue (hattr : attrName ≠ frameBaseAttr) :
    Locates inScope entries (locationValue attrName entries) ↔ Shortens inScope attrName entries := by
  have hsplit : Shortens inScope attrName entries ↔
      ((∃ expr, Single entries expr) → ∀ symbol address, inScope symbol address →
        ∃ entry ∈ entries, entry.Covers symbol address) ∧
      (isExprlocToLoclistAllowed attrName = false ∧ (∀ expr, ¬ Single entries expr) →
        ∀ symbol address, inScope symbol address → ∀ entry ∈ entries, ¬ entry.Covers symbol address) :=
    ⟨fun h => ⟨h.single hattr, fun hlist => h.unlisted (.inr hlist)⟩,
      fun h => ⟨fun _ => h.1, fun hlist => h.2 (hlist.resolve_left hattr)⟩⟩
  rw [hsplit, locationValue]
  by_cases hempty : entries = []
  · have hnone : ∀ expr, ¬ Single entries expr := fun expr h => h.1 hempty
    rw [if_pos (List.isEmpty_iff.mpr hempty), locates_none]
    refine iff_of_true (fun symbol address _ entry hentry => ?_) ⟨fun ⟨expr, h⟩ => absurd h (hnone expr),
      fun _ symbol address _ entry hentry => ?_⟩
    · rw [hempty] at hentry
      cases hentry
    · rw [hempty] at hentry
      cases hentry
  · rw [if_neg (mt List.isEmpty_iff.mp hempty)]
    cases hfound : foundSingleExpr entries none with
    | some expr =>
      have hsingle := (foundSingleExpr_eq_some).mp hfound
      simp only
      rw [locates_exprloc hsingle]
      exact ⟨fun h => ⟨fun _ => h, fun hlist => absurd hsingle (hlist.2 expr)⟩, fun h => h.1 ⟨expr, hsingle⟩⟩
    | none =>
      have hnone : ∀ expr, ¬ Single entries expr := fun expr h => by
        rw [(foundSingleExpr_eq_some).mpr h] at hfound
        cases hfound
      simp only
      cases hallowed : isExprlocToLoclistAllowed attrName with
      | true =>
        rw [if_pos rfl]
        refine iff_of_true locates_locationList ⟨fun ⟨expr, h⟩ => absurd h (hnone expr), fun hlist => ?_⟩
        cases hlist.1
      | false =>
        rw [if_neg (by simp), locates_none]
        exact ⟨fun h => ⟨fun ⟨expr, hs⟩ => absurd hs (hnone expr), fun _ => h⟩, fun h => h.2 ⟨rfl, hnone⟩⟩

end

/-! ## The headline -/

section

variable {bs : BinarySearch} {sort : UnstableSort} {fuel : Nat} {addrTr : AddressTransform}
  {frameInfo : Option FunctionFrameInfo}

/-- **The attribute of an expression with labels agrees with the entries of `build_with_locals`, everywhere in
the scope, exactly when entries that are replaced by one expression cover the scope.** -/
theorem locates_iff {attrName : Nat} {ops : List Operation} {frameBase : Option CompiledExpression}
    {e : CompiledExpression} {scope : List (Nat × Nat)} {entries : List LocationEntry}
    (hcompile : compileExpression ops frameBase = some (some e)) (hsimple : e.isSimple = false)
    (hbuild : e.buildWithLocals bs sort fuel addrTr frameInfo scope = some entries) :
    ∃ value, cloneExprloc bs sort fuel addrTr frameInfo attrName ops frameBase (some scope) = some value ∧
      (Locates (InScope bs fuel addrTr scope) entries value ↔
        Shortens (InScope bs fuel addrTr scope) attrName entries) := by
  rw [cloneExprloc]
  by_cases hattr : attrName = frameBaseAttr
  · refine ⟨none, if_pos hattr, ?_⟩
    rw [locates_none]
    exact ⟨fun h => ⟨fun hne => absurd hattr hne, fun _ => h⟩, fun h => h.unlisted (.inl hattr)⟩
  · refine ⟨locationValue attrName entries, ?_, locates_locationValue hattr⟩
    rw [if_neg hattr, hcompile, Option.bind_some, Option.elim_some, hsimple, if_neg (by simp),
      Option.elim_some, hbuild, Option.map_some]

end

/-- The value of label 0. -/
def valueOperations : List Operation := [⟨.wasmLocal 0 0, []⟩, ⟨.stackValue, [0x9f]⟩]

def valueExpression : CompiledExpression := ⟨[.localValue 0, .code [0x9f]], false⟩

theorem compile_valueOperations : compileExpression valueOperations none = some (some valueExpression) := by
  rfl

/-- Both runs have the label, and the scope is theirs. -/
theorem locates_descending :
    valueExpression.buildWithLocals .last .stable 10 descendingTransform (some descendingInfo) [(11, 13)] =
        some [⟨0, 0, 4, [0x50, 0x9f]⟩, ⟨0, 4, 4, [0x50, 0x9f]⟩] ∧
      ∃ value, cloneExprloc .last .stable 10 descendingTransform (some descendingInfo) 0x02 valueOperations none
          (some [(11, 13)]) = some value ∧
        Locates (InScope .last 10 descendingTransform [(11, 13)])
            [⟨0, 0, 4, [0x50, 0x9f]⟩, ⟨0, 4, 4, [0x50, 0x9f]⟩] value := by
  have hbuild : valueExpression.buildWithLocals .last .stable 10 descendingTransform (some descendingInfo)
      [(11, 13)] = some [⟨0, 0, 4, [0x50, 0x9f]⟩, ⟨0, 4, 4, [0x50, 0x9f]⟩] := by rfl
  obtain ⟨value, hvalue, hiff⟩ := @locates_iff .last .stable 10 descendingTransform (some descendingInfo) 0x02 _ _ _ _
    _ compile_valueOperations (by decide) hbuild
  refine ⟨hbuild, value, hvalue, hiff.mpr ⟨fun _ _ symbol address hin => ?_, fun h => ?_⟩⟩
  · obtain ⟨s, hs, ranges, hranges, range, hrange, hle, hlt⟩ := hin
    obtain rfl := List.mem_singleton.mp hs
    have htranslated : descendingTransform.translateRangesRaw .last 10 11 13 =
        some (some (0, [(0, 4), (4, 8)])) := rfl
    obtain ⟨rfl, rfl⟩ := Prod.mk.inj (Option.some.inj (Option.some.inj (htranslated.symm.trans hranges)))
    rcases List.mem_cons.mp hrange with rfl | hrange
    · exact ⟨⟨0, 0, 4, [0x50, 0x9f]⟩, List.mem_cons_self, rfl, hle, hlt⟩
    · obtain rfl := List.mem_singleton.mp hrange
      exact ⟨⟨0, 4, 4, [0x50, 0x9f]⟩, List.mem_cons_of_mem _ List.mem_cons_self, rfl, hle, hlt⟩
  · rcases h with h | ⟨hlist, -⟩
    · exact absurd h (by decide)
    · exact absurd hlist (by decide)

/-- Label 0 is in a register from 13 to 14, in the first run. -/
def firstInfo : FunctionFrameInfo where
  valueRanges label := if label = 0 then some [⟨.reg 0, 13, 14⟩] else none
  memoryOffset := 0
  stackSlots := []

/-- The expression of the first run is given in the second one too. -/
theorem not_locates_descending :
    valueExpression.buildWithLocals .last .stable 10 descendingTransform (some firstInfo) [(11, 13)] =
        some [⟨0, 0, 4, [0x50, 0x9f]⟩] ∧
      cloneExprloc .last .stable 10 descendingTransform (some firstInfo) 0x02 valueOperations none
        (some [(11, 13)]) = some (some (.exprloc [0x50, 0x9f])) ∧
      ¬ Locates (InScope .last 10 descendingTransform [(11, 13)]) [⟨0, 0, 4, [0x50, 0x9f]⟩]
        (some (.exprloc [0x50, 0x9f])) := by
  refine ⟨by rfl, by rfl, fun h => ?_⟩
  have hin : InScope .last 10 descendingTransform [(11, 13)] 0 4 :=
    ⟨(11, 13), List.mem_singleton_self _, [(0, 4), (4, 8)], by rfl, (4, 8), by decide, by decide,
      by decide⟩
  obtain ⟨entry, hentry, hcovers, -⟩ := (h 0 4 hin [0x50, 0x9f]).mp ⟨_, rfl, rfl⟩
  rw [List.mem_singleton.mp hentry] at hcovers
  exact absurd hcovers.2.2 (by decide)

end Wasmtime.Debug
