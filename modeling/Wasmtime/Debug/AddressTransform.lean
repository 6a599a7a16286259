import Mathlib

/-!
# Translating wasm addresses to ranges of generated code

Model of `wasmtime-debug/src/transform/address_transform.rs`: `build_function_lookup` and
`AddressTransform::translate_ranges_raw`, over the `FunctionAddressMap` of
`wasmtime-environ/src/address_map.rs`.

* A `BTreeMap` is a `Std.TreeMap`, and iterating one goes through its `toList`.
* `binary_search_by` promises a match or, where there is none, where one would go; which of several
  matches it returns is left open. `BinarySearch` is any function that keeps the promise.
* `none` stands for a call that does not return: a failed assertion, an index out of range, or a loop
  that has used its fuel. `TransformRangeEndIter::next` does not take a range off that starts at or
  after the address, so there the loop comes back to the same range.
* The `HashMap` of the starts is a list of its entries. In which order what is left in it is appended
  is open in the source, and nothing here depends on it.

`runs` says what the ranges of a function are: the maximal stretches of instructions whose wasm
offsets do not descend.

Results:
* `buildFunctionLookup_spec`: the ranges are the runs, and the index lists at every start the runs that
  are active there, less those that a later run with the same start has replaced.
-/

namespace Wasmtime.Debug

/-! ## The address map of a function -/

/-- `InstructionAddressMap`. -/
structure InstructionAddressMap where
  srcloc : UInt32
  codeOffset : Nat
  codeLen : Nat
  deriving DecidableEq, Repr

/-- `FunctionAddressMap`. -/
structure FunctionAddressMap where
  instructions : List InstructionAddressMap
  startSrcloc : UInt32
  endSrcloc : UInt32
  bodyOffset : Nat
  bodyLen : Nat
  deriving DecidableEq, Repr

/-- `SourceLoc::is_default`: all bits are set. -/
def isDefault (loc : UInt32) : Bool := loc == 0xffffffff

/-- `get_wasm_code_offset`. -/
def getWasmCodeOffset (loc : UInt32) (codeSectionOffset : UInt64) : Nat :=
  (loc - codeSectionOffset.toUInt32).toNat

/-- `Position`. -/
structure Position where
  wasmPos : Nat
  genStart : Nat
  genEnd : Nat
  deriving DecidableEq, Repr

/-- `Range`. -/
structure Range where
  wasmStart : Nat
  wasmEnd : Nat
  genStart : Nat
  genEnd : Nat
  positions : List Position
  deriving DecidableEq, Repr

/-- `FuncLookup`. -/
structure FuncLookup where
  index : List (Nat × List Nat)
  ranges : List Range
  deriving DecidableEq, Repr

/-- `FuncTransform`. -/
structure FuncTransform where
  start : Nat
  stop : Nat
  index : Nat
  lookup : FuncLookup
  deriving DecidableEq, Repr

/-! ## `build_function_lookup` -/

/-- The variables of the first loop. -/
structure Builder where
  rangeWasmStart : Nat
  rangeGenStart : Nat
  lastWasmPos : Nat
  ranges : List Range
  rangesIndex : Std.TreeMap Nat Nat
  currentRange : List Position

/-- Ends the current range. -/
def Builder.push (b : Builder) (wasmEnd genEnd : Nat) : Builder :=
  { b with
    rangesIndex := b.rangesIndex.insert b.rangeWasmStart b.ranges.length
    ranges := b.ranges ++ [⟨b.rangeWasmStart, wasmEnd, b.rangeGenStart, genEnd, b.currentRange⟩] }

/-- The body of the first loop, for an instruction that has a source location. -/
def Builder.add (b : Builder) (p : Position) : Builder :=
  let b :=
    if b.lastWasmPos > p.wasmPos then
      { b.push b.lastWasmPos p.genStart with
        rangeWasmStart := p.wasmPos, rangeGenStart := p.genStart, currentRange := [] }
    else b
  { b with currentRange := b.currentRange ++ [p], lastWasmPos := p.wasmPos }

/-- One round of the first loop. -/
def Builder.step (codeSectionOffset : UInt64) (fnStart fnEnd : Nat) (b : Builder)
    (t : InstructionAddressMap) : Option Builder :=
  if isDefault t.srcloc then some b
  else
    let offset := getWasmCodeOffset t.srcloc codeSectionOffset
    if fnStart ≤ offset ∧ offset ≤ fnEnd then
      some (b.add ⟨offset, t.codeOffset, t.codeOffset + t.codeLen⟩)
    else none

/-- The variables of the second loop. -/
structure Indexer where
  activeRanges : List Nat
  index : Std.TreeMap Nat (List Nat)
  lastWasmPos : Option Nat

/-- One round of the second loop. -/
def Indexer.step (ranges : List Range) (x : Indexer) (entry : Nat × Nat) : Indexer :=
  if some entry.1 = x.lastWasmPos then { x with activeRanges := x.activeRanges ++ [entry.2] }
  else
    let index := match x.lastWasmPos with
      | some last => x.index.insert last x.activeRanges
      | none => x.index
    let active := x.activeRanges.filter fun r => (ranges[r]?.any fun range => entry.1 ≤ range.wasmEnd)
    ⟨active ++ [entry.2], index, some entry.1⟩

/-- The second loop, and the entry it leaves out. -/
def indexRanges (ranges : List Range) (rangesIndex : Std.TreeMap Nat Nat) :
    Option (List (Nat × List Nat)) :=
  let x := rangesIndex.toList.foldl (Indexer.step ranges) ⟨[], ∅, none⟩
  x.lastWasmPos.map fun last => (x.index.insert last x.activeRanges).toList

/-- The wasm offset a function starts at. -/
def FunctionAddressMap.fnStart (ft : FunctionAddressMap) (codeSectionOffset : UInt64) : Nat :=
  getWasmCodeOffset ft.startSrcloc codeSectionOffset

/-- The wasm offset a function ends at. -/
def FunctionAddressMap.fnEnd (ft : FunctionAddressMap) (codeSectionOffset : UInt64) : Nat :=
  getWasmCodeOffset ft.endSrcloc codeSectionOffset

/-- The variables before the first loop. -/
def Builder.new (ft : FunctionAddressMap) (codeSectionOffset : UInt64) : Builder :=
  ⟨ft.fnStart codeSectionOffset, ft.bodyOffset, ft.fnStart codeSectionOffset, [], ∅, []⟩

/-- `build_function_lookup`. -/
def buildFunctionLookup (ft : FunctionAddressMap) (codeSectionOffset : UInt64) :
    Option (Nat × Nat × FuncLookup) :=
  let fnStart := ft.fnStart codeSectionOffset
  let fnEnd := ft.fnEnd codeSectionOffset
  if codeSectionOffset.toNat ≤ ft.startSrcloc.toNat ∧ fnStart ≤ fnEnd then
    (ft.instructions.foldlM (Builder.step codeSectionOffset fnStart fnEnd)
      (.new ft codeSectionOffset)).bind fun b =>
    let b := b.push fnEnd (ft.bodyOffset + ft.bodyLen)
    (indexRanges b.ranges b.rangesIndex).map fun index => (fnStart, fnEnd, ⟨index, b.ranges⟩)
  else none

/-! ## `AddressTransform` -/

/-- `AddressMap`. -/
structure AddressMap where
  generated : Nat
  wasm : Nat
  deriving DecidableEq, Repr

/-- `FunctionMap`. -/
structure FunctionMap where
  offset : Nat
  len : Nat
  wasmStart : Nat
  wasmEnd : Nat
  addresses : List AddressMap
  deriving DecidableEq, Repr

/-- `build_function_addr_map`. -/
def buildFunctionAddrMap (functions : List FunctionAddressMap) (codeSectionOffset : UInt64) :
    List FunctionMap :=
  functions.map fun ft =>
    { offset := ft.bodyOffset
      len := ft.bodyLen
      wasmStart := ft.fnStart codeSectionOffset
      wasmEnd := ft.fnEnd codeSectionOffset
      addresses := (ft.instructions.filter fun t => !isDefault t.srcloc).map fun t =>
        ⟨t.codeOffset, getWasmCodeOffset t.srcloc codeSectionOffset⟩ }

/-- `AddressTransform`. -/
structure AddressTransform where
  map : List FunctionMap
  func : List (Nat × FuncTransform)
  deriving DecidableEq, Repr

/-- One round of the loop of `AddressTransform::new`. -/
def AddressTransform.insert (codeSectionOffset : UInt64) (func : Std.TreeMap Nat FuncTransform)
    (entry : FunctionAddressMap × Nat) : Option (Std.TreeMap Nat FuncTransform) :=
  (buildFunctionLookup entry.1 codeSectionOffset).map fun (fnStart, fnEnd, lookup) =>
    func.insert fnStart ⟨fnStart, fnEnd, entry.2, lookup⟩

/-- `AddressTransform::new`. -/
def AddressTransform.new (functions : List FunctionAddressMap) (codeSectionOffset : UInt64) :
    Option AddressTransform :=
  (functions.zipIdx.foldlM (AddressTransform.insert codeSectionOffset) ∅).map fun func =>
    ⟨buildFunctionAddrMap functions codeSectionOffset, func.toList⟩

/-- `binary_search_by` on keys that do not descend. -/
structure BinarySearch where
  run : List Nat → Nat → Except Nat Nat
  ok {keys : List Nat} {addr i : Nat} (hs : keys.Pairwise (· ≤ ·)) (h : run keys addr = .ok i) :
    keys[i]? = some addr
  error {keys : List Nat} {addr i : Nat} (hs : keys.Pairwise (· ≤ ·)) (h : run keys addr = .error i) :
    i ≤ keys.length ∧ (∀ k ∈ keys.take i, k < addr) ∧ ∀ k ∈ keys.drop i, addr < k

section

variable (bs : BinarySearch)

/-- The entry with a key, or the last one with a smaller key. -/
def floorEntry {α : Type} (entries : List (Nat × α)) (addr : Nat) : Option (Nat × α) :=
  match bs.run (entries.map Prod.fst) addr with
  | .ok i => entries[i]?
  | .error i => if i > 0 then entries[i - 1]? else none

/-- `find_func`. -/
def AddressTransform.findFunc (t : AddressTransform) (addr : Nat) : Option FuncTransform :=
  (floorEntry bs t.func addr).bind fun entry => if addr ≥ entry.2.start then some entry.2 else none

/-- `TransformRangeIter::new` and `TransformRangeEndIter::new`: the ranges that are active at an
address. -/
def FuncTransform.active (func : FuncTransform) (addr : Nat) : Option (List Nat) :=
  (floorEntry bs func.lookup.index addr).map Prod.snd

/-- The address `TransformRangeIter::next` finds in a range. -/
def Range.startAddress (range : Range) (addr : Nat) : Option Nat :=
  match bs.run (range.positions.map Position.wasmPos) addr with
  | .ok i => range.positions[i]?.map Position.genStart
  | .error i => if i = 0 then some range.genStart else range.positions[i - 1]?.map Position.genEnd

/-- The address `TransformRangeEndIter::next` finds in a range. -/
def Range.endAddress (range : Range) (addr : Nat) : Option Nat :=
  match bs.run (range.positions.map Position.wasmPos) addr with
  | .ok i => range.positions[i]?.map Position.genEnd
  | .error i =>
    if i = range.positions.length then some range.genEnd else range.positions[i]?.map Position.genStart

/-- What `TransformRangeIter` yields, range first. -/
def TransformRangeIter.items (ranges : List Range) (addr : Nat) :
    List Nat → Option (List (Nat × Nat))
  | [] => some []
  | first :: tail =>
    (ranges[first]?.bind fun range => range.startAddress bs addr).bind fun address =>
      (items ranges addr tail).map ((first, address) :: ·)

/-- What `TransformRangeEndIter` yields, range first. -/
def TransformRangeEndIter.items (ranges : List Range) (addr : Nat) :
    Nat → List Nat → Option (List (Nat × Nat))
  | 0, _ => none
  | _ + 1, [] => some []
  | fuel + 1, first :: tail =>
    ranges[first]?.bind fun range =>
      -- `continue`, with `first` still in the slice
      if range.wasmStart ≥ addr then items ranges addr fuel (first :: tail)
      else (range.endAddress bs addr).bind fun address =>
        (items ranges addr fuel tail).map ((first, address) :: ·)

/-- The closure of `for_each` on what the end iterator yields, and the loop over what is left of the
starts. -/
def joinRanges (ranges : List Range) (starts : List (Nat × Nat)) :
    List (Nat × Nat) → Option (List (Nat × Nat))
  | [] => starts.mapM fun entry => ranges[entry.1]?.map fun range => (entry.2, range.genEnd)
  | (r, a) :: ends =>
    match starts.lookup r with
    | some rangeStart =>
      (joinRanges ranges (starts.filter fun entry => entry.1 != r) ends).map ((rangeStart, a) :: ·)
    | none => ranges[r]?.bind fun range =>
      (joinRanges ranges starts ends).map ((range.genStart, a) :: ·)

/-- What `translate_ranges_raw` does once it has found the function. -/
def FuncTransform.translateRanges (func : FuncTransform) (fuel start stop : Nat) :
    Option (List (Nat × Nat)) :=
  ((func.active bs start).bind (TransformRangeIter.items bs func.lookup.ranges start)).bind
    fun starts =>
      ((func.active bs stop).bind (TransformRangeEndIter.items bs func.lookup.ranges stop fuel)).bind
        fun ends => joinRanges func.lookup.ranges starts ends

/-- `translate_ranges_raw`. -/
def AddressTransform.translateRangesRaw (t : AddressTransform) (fuel start stop : Nat) :
    Option (Option (Nat × List (Nat × Nat))) :=
  if start = 0 then some none
  else match t.findFunc bs start with
    | none => some none
    | some func => (func.translateRanges bs fuel start stop).map fun result =>
      some (func.index, result)

end

/-! ## Runs of instructions -/

/-- An instruction's wasm offset, and where its code lies. -/
def InstructionAddressMap.position (codeSectionOffset : UInt64) (t : InstructionAddressMap) : Position :=
  ⟨getWasmCodeOffset t.srcloc codeSectionOffset, t.codeOffset, t.codeOffset + t.codeLen⟩

/-- The instructions of a function that have a source location. -/
def FunctionAddressMap.code (ft : FunctionAddressMap) (codeSectionOffset : UInt64) : List Position :=
  (ft.instructions.filter fun t => !isDefault t.srcloc).map
    (InstructionAddressMap.position codeSectionOffset)

/-- A stretch of instructions whose wasm offsets do not descend, and the offsets it counts for. -/
structure Run where
  first : Nat
  last : Nat
  code : List Position
  deriving DecidableEq, Repr

/-- Puts an instruction in front of the first run. -/
def Run.attach (p : Position) : List Run → List Run
  | [] => []
  | r :: rs => { r with code := p :: r.code } :: rs

/-- The runs from an instruction on: `last` is the offset before it, and `first` the one the run it may
continue starts with. -/
def runsFrom (fnEnd : Nat) (last first : Nat) : List Position → List Run
  | [] => [⟨first, fnEnd, []⟩]
  | p :: code =>
    if last > p.wasmPos then
      ⟨first, last, []⟩ :: Run.attach p (runsFrom fnEnd p.wasmPos p.wasmPos code)
    else Run.attach p (runsFrom fnEnd p.wasmPos first code)

/-- The runs of a function. The first counts from the start of the function on and the last up to its
end; any other one goes from its first instruction to its last. -/
def FunctionAddressMap.runs (ft : FunctionAddressMap) (codeSectionOffset : UInt64) : List Run :=
  runsFrom (ft.fnEnd codeSectionOffset) (ft.fnStart codeSectionOffset) (ft.fnStart codeSectionOffset)
    (ft.code codeSectionOffset)

/-- Two runs for 5, 7, 7 and 6. -/
example : runsFrom 9 0 0 [⟨5, 0, 1⟩, ⟨7, 1, 2⟩, ⟨7, 2, 3⟩, ⟨6, 3, 4⟩] =
    [⟨0, 7, [⟨5, 0, 1⟩, ⟨7, 1, 2⟩, ⟨7, 2, 3⟩]⟩, ⟨6, 9, [⟨6, 3, 4⟩]⟩] := by decide

/-! ## The ranges are the runs -/

/-- A range without where its code lies. -/
def Range.run (r : Range) : Run := ⟨r.wasmStart, r.wasmEnd, r.positions⟩

/-- Puts instructions in front of the first range. -/
def Range.attach (p : List Position) : List Range → List Range
  | [] => []
  | r :: rs => { r with positions := p ++ r.positions } :: rs

/-- The ranges that are still to come in the first loop. -/
def rangesFrom (fnEnd bodyEnd : Nat) (last first genStart : Nat) : List Position → List Range
  | [] => [⟨first, fnEnd, genStart, bodyEnd, []⟩]
  | p :: code =>
    if last > p.wasmPos then
      ⟨first, last, genStart, p.genStart, []⟩ ::
        Range.attach [p] (rangesFrom fnEnd bodyEnd p.wasmPos p.wasmPos p.genStart code)
    else Range.attach [p] (rangesFrom fnEnd bodyEnd p.wasmPos first genStart code)

theorem Range.attach_attach (p q : List Position) (rs : List Range) :
    Range.attach p (Range.attach q rs) = Range.attach (p ++ q) rs := by
  cases rs with
  | nil => rfl
  | cons r rs => simp [Range.attach]

theorem map_run_attach (p : Position) (rs : List Range) :
    (Range.attach [p] rs).map Range.run = Run.attach p (rs.map Range.run) := by
  cases rs with
  | nil => rfl
  | cons r rs => rfl

theorem map_run_rangesFrom {fnEnd bodyEnd : Nat} (code : List Position) (last first genStart : Nat) :
    (rangesFrom fnEnd bodyEnd last first genStart code).map Range.run =
      runsFrom fnEnd last first code := by
  induction code generalizing last first genStart with
  | nil => rfl
  | cons p code ih =>
    rw [rangesFrom, runsFrom]
    split
    · rw [List.map_cons, map_run_attach, ih]
      rfl
    · rw [map_run_attach, ih]

/-- What the first loop leaves: the ranges it has pushed, then those still to come. -/
theorem foldl_add_ranges {fnEnd bodyEnd : Nat} (code : List Position) (b : Builder) :
    ((code.foldl Builder.add b).push fnEnd bodyEnd).ranges = b.ranges ++ Range.attach b.currentRange
      (rangesFrom fnEnd bodyEnd b.lastWasmPos b.rangeWasmStart b.rangeGenStart code) := by
  induction code generalizing b with
  | nil => simp [Builder.push, rangesFrom, Range.attach]
  | cons p code ih =>
    rw [List.foldl_cons, ih, rangesFrom]
    by_cases h : b.lastWasmPos > p.wasmPos
    · simp [Builder.add, h, Builder.push, Range.attach]
    · simp [Builder.add, h, Range.attach_attach]

/-- The index of the last range that starts at `k`. -/
def LastAt (ranges : List Range) (k j : Nat) : Prop :=
  (∃ r, ranges[j]? = some r ∧ r.wasmStart = k) ∧
    ∀ j' r', j < j' → ranges[j']? = some r' → r'.wasmStart ≠ k

/-- The map from starts to ranges is right. -/
def Builder.Indexed (b : Builder) : Prop :=
  ∀ k j, b.rangesIndex[k]? = some j ↔ LastAt b.ranges k j

theorem lastAt_snoc_self (ranges : List Range) (r : Range) {j : Nat} :
    LastAt (ranges ++ [r]) r.wasmStart j ↔ j = ranges.length := by
  constructor
  · rintro ⟨⟨s, hs, -⟩, hlast⟩
    have hlt := (List.getElem?_eq_some_iff.mp hs).choose
    rw [List.length_append, List.length_singleton] at hlt
    by_contra hne
    exact hlast ranges.length r (by omega) List.getElem?_concat_length rfl
  · rintro rfl
    refine ⟨⟨r, List.getElem?_concat_length, rfl⟩, fun j' r' hj hr' => ?_⟩
    have hlt := (List.getElem?_eq_some_iff.mp hr').choose
    rw [List.length_append, List.length_singleton] at hlt
    omega

theorem lastAt_snoc_of_ne {ranges : List Range} {r : Range} {k j : Nat} (hk : r.wasmStart ≠ k) :
    LastAt (ranges ++ [r]) k j ↔ LastAt ranges k j := by
  have hget : ∀ (j : Nat) (s : Range), s.wasmStart = k →
      ((ranges ++ [r])[j]? = some s ↔ ranges[j]? = some s) := by
    intro j s hs
    rw [List.getElem?_append]
    split
    · rfl
    · constructor
      · intro h
        have : s = r := by simpa using List.mem_of_getElem? h
        exact absurd (this ▸ hs) hk
      · intro h
        exact absurd (List.getElem?_eq_some_iff.mp h).choose ‹_›
  constructor
  · rintro ⟨⟨s, hs, hsk⟩, hlast⟩
    exact ⟨⟨s, (hget j s hsk).mp hs, hsk⟩,
      fun j' r' hj hr' hk' => hlast j' r' hj ((hget j' r' hk').mpr hr') hk'⟩
  · rintro ⟨⟨s, hs, hsk⟩, hlast⟩
    exact ⟨⟨s, (hget j s hsk).mpr hs, hsk⟩,
      fun j' r' hj hr' hk' => hlast j' r' hj ((hget j' r' hk').mp hr') hk'⟩

theorem Builder.Indexed.push {b : Builder} (h : b.Indexed) (wasmEnd genEnd : Nat) :
    (b.push wasmEnd genEnd).Indexed := by
  intro k j
  simp only [Builder.push, Std.TreeMap.getElem?_insert]
  by_cases hk : b.rangeWasmStart = k
  · subst hk
    have := @lastAt_snoc_self b.ranges
      ⟨b.rangeWasmStart, wasmEnd, b.rangeGenStart, genEnd, b.currentRange⟩ j
    simpa [eq_comm] using this.symm
  · rw [lastAt_snoc_of_ne hk, ← h k j]
    simp [hk]

theorem Builder.Indexed.foldl_add {b : Builder} (h : b.Indexed) (code : List Position) :
    (code.foldl Builder.add b).Indexed := by
  induction code generalizing b with
  | nil => exact h
  | cons p code ih =>
    refine ih ?_
    unfold Builder.add
    split
    · exact h.push b.lastWasmPos p.genStart
    · exact h

/-- The first loop adds the instructions that have a source location, and checks each of them. -/
theorem foldlM_step {codeSectionOffset : UInt64} {fnStart fnEnd : Nat}
    {instructions : List InstructionAddressMap} {b b' : Builder}
    (h : instructions.foldlM (Builder.step codeSectionOffset fnStart fnEnd) b = some b') :
    let code := (instructions.filter fun t => !isDefault t.srcloc).map
      (InstructionAddressMap.position codeSectionOffset)
    b' = code.foldl Builder.add b ∧ ∀ p ∈ code, fnStart ≤ p.wasmPos ∧ p.wasmPos ≤ fnEnd := by
  induction instructions generalizing b with
  | nil =>
    obtain rfl := Option.some.inj h
    exact ⟨rfl, by simp⟩
  | cons t instructions ih =>
    rw [List.foldlM_cons] at h
    obtain ⟨b₁, hb₁, h⟩ := Option.bind_eq_some_iff.mp h
    obtain ⟨hb', hall⟩ := ih h
    unfold Builder.step at hb₁
    by_cases hd : isDefault t.srcloc = true
    · rw [if_pos hd] at hb₁
      obtain rfl := Option.some.inj hb₁
      simp only [List.filter_cons, hd, Bool.not_true, Bool.false_eq_true, if_false]
      exact ⟨hb', hall⟩
    · rw [if_neg hd] at hb₁
      obtain ⟨hin, hadd⟩ := Option.ite_none_right_eq_some.mp hb₁
      obtain rfl := Option.some.inj hadd
      simp only [List.filter_cons, hd, Bool.not_false, if_true, List.map_cons, List.foldl_cons,
        List.forall_mem_cons]
      exact ⟨hb', hin, hall⟩

/-! ## How the ranges lie -/

/-- The positions of a range ascend in both directions, within the bounds of the range. -/
structure Range.Ok (r : Range) : Prop where
  sorted : r.positions.Pairwise fun p q => p.wasmPos ≤ q.wasmPos
  laid : r.positions.Pairwise fun p q => p.genEnd ≤ q.genStart
  wasm : ∀ p ∈ r.positions, r.wasmStart ≤ p.wasmPos ∧ p.wasmPos ≤ r.wasmEnd
  gen : ∀ p ∈ r.positions, r.genStart ≤ p.genStart ∧ p.genStart ≤ p.genEnd ∧ p.genEnd ≤ r.genEnd
  wasm_le : r.wasmStart ≤ r.wasmEnd
  gen_le : r.genStart ≤ r.genEnd

/-- The ranges that are to come after wasm offset `last` and generated offset `lo`. -/
structure After (last first genStart lo : Nat) (rs : List Range) : Prop where
  ok : ∀ r ∈ rs, r.Ok
  apart : rs.Pairwise fun r s => r.genEnd ≤ s.genStart
  head : ∃ r rest, rs = r :: rest ∧ r.wasmStart = first ∧ r.genStart = genStart ∧ last ≤ r.wasmEnd ∧
    lo ≤ r.genEnd ∧ ∀ p ∈ r.positions, last ≤ p.wasmPos ∧ lo ≤ p.genStart

theorem After.attach {first genStart lo : Nat} {rs : List Range} {p : Position}
    (h : After p.wasmPos first genStart p.genEnd rs) (hfirst : first ≤ p.wasmPos)
    (hgen : genStart ≤ p.genStart) (hlo : lo ≤ p.genStart) (hp : p.genStart ≤ p.genEnd) {last : Nat}
    (hlast : last ≤ p.wasmPos) : After last first genStart lo (Range.attach [p] rs) := by
  obtain ⟨r, rest, rfl, rfl, rfl, hend, hgenEnd, hall⟩ := h.head
  have hr := h.ok r List.mem_cons_self
  have hok : Range.Ok { r with positions := p :: r.positions } := by
    constructor
    · exact List.pairwise_cons.mpr ⟨fun q hq => (hall q hq).1, hr.sorted⟩
    · exact List.pairwise_cons.mpr ⟨fun q hq => (hall q hq).2, hr.laid⟩
    · exact List.forall_mem_cons.mpr ⟨⟨hfirst, hend⟩, hr.wasm⟩
    · exact List.forall_mem_cons.mpr ⟨⟨hgen, hp, hgenEnd⟩, hr.gen⟩
    · exact hr.wasm_le
    · exact hr.gen_le
  refine ⟨?_, ?_, _, rest, rfl, rfl, rfl, hlast.trans hend, (hlo.trans hp).trans hgenEnd, ?_⟩
  · exact List.forall_mem_cons.mpr ⟨hok, fun s hs => h.ok s (List.mem_cons_of_mem r hs)⟩
  · exact List.pairwise_cons.mpr (List.pairwise_cons.mp h.apart)
  · refine List.forall_mem_cons.mpr ⟨⟨hlast, hlo⟩, fun q hq => ?_⟩
    have := hall q hq
    omega

/-- The instructions still to come, after `last` in no order but after `lo` in the generated code. -/
structure Code (fnEnd bodyEnd lo : Nat) (code : List Position) : Prop where
  laid : code.Pairwise fun p q => p.genEnd ≤ q.genStart
  wasm : ∀ p ∈ code, p.wasmPos ≤ fnEnd
  gen : ∀ p ∈ code, lo ≤ p.genStart ∧ p.genStart ≤ p.genEnd ∧ p.genEnd ≤ bodyEnd

theorem after_rangesFrom {fnEnd bodyEnd last first genStart lo : Nat} {code : List Position}
    (hcode : Code fnEnd bodyEnd lo code) (hfirst : first ≤ last) (hlast : last ≤ fnEnd)
    (hgen : genStart ≤ lo) (hlo : lo ≤ bodyEnd) :
    After last first genStart lo (rangesFrom fnEnd bodyEnd last first genStart code) := by
  induction code generalizing last first genStart lo with
  | nil =>
    have hok : Range.Ok ⟨first, fnEnd, genStart, bodyEnd, []⟩ :=
      ⟨.nil, .nil, by simp, by simp, hfirst.trans hlast, hgen.trans hlo⟩
    exact ⟨by simpa [rangesFrom] using hok, by simp [rangesFrom],
      _, [], rfl, rfl, rfl, hlast, hlo, by simp⟩
  | cons p code ih =>
    obtain ⟨hlater, hlaid⟩ := List.pairwise_cons.mp hcode.laid
    obtain ⟨hpwasm, hwasm⟩ := List.forall_mem_cons.mp hcode.wasm
    obtain ⟨⟨hplo, hple, hpend⟩, hgenall⟩ := List.forall_mem_cons.mp hcode.gen
    have hrest : Code fnEnd bodyEnd p.genEnd code :=
      ⟨hlaid, hwasm, fun q hq => ⟨hlater q hq, (hgenall q hq).2⟩⟩
    rw [rangesFrom]
    split
    · -- the run ends here, before `p`
      have hafter := (ih hrest (Nat.le_refl p.wasmPos) hpwasm hple hpend).attach (Nat.le_refl _)
        (Nat.le_refl _) (Nat.le_refl p.genStart) hple (Nat.le_refl _)
      have hok : Range.Ok ⟨first, last, genStart, p.genStart, []⟩ :=
        ⟨.nil, .nil, by simp, by simp, hfirst, hgen.trans hplo⟩
      refine ⟨List.forall_mem_cons.mpr ⟨hok, hafter.ok⟩, List.pairwise_cons.mpr ⟨?_, hafter.apart⟩,
        _, _, rfl, rfl, rfl, Nat.le_refl _, hplo, by simp⟩
      obtain ⟨r, rest, hrs, -, hr, -⟩ := hafter.head
      have hapart := hafter.apart
      have hroks := hafter.ok
      rw [hrs] at hapart hroks ⊢
      refine List.forall_mem_cons.mpr ⟨hr.ge, fun s hs => ?_⟩
      have h₁ := (List.pairwise_cons.mp hapart).1 s hs
      have h₂ := (hroks r List.mem_cons_self).gen_le
      show p.genStart ≤ s.genStart
      omega
    · next hle =>
      have hle : last ≤ p.wasmPos := Nat.not_lt.mp hle
      exact (ih hrest (hfirst.trans hle) hpwasm (by omega) hpend).attach (hfirst.trans hle)
        (hgen.trans hplo) hplo hple hle

/-! ## The index -/

/-- An entry of the index: the ranges that are active at `k`, of those with an entry in `done`. -/
def ActiveAt (ranges : List Range) (done : List (Nat × Nat)) (k : Nat) (active : List Nat) : Prop :=
  active.Nodup ∧ ∀ j, j ∈ active ↔
    ∃ k' r, (k', j) ∈ done ∧ ranges[j]? = some r ∧ k' ≤ k ∧ k ≤ r.wasmEnd

/-- What the second loop has found out about the entries it is through with. -/
structure Indexer.Inv (ranges : List Range) (done : List (Nat × Nat)) (x : Indexer) : Prop where
  start : x.lastWasmPos = none → done = [] ∧ x.index = ∅ ∧ x.activeRanges = []
  last : ∀ last, x.lastWasmPos = some last →
    (∃ j, (last, j) ∈ done) ∧ (∀ e ∈ done, e.1 ≤ last) ∧
      (∀ k, k ∈ x.index.insert last x.activeRanges ↔ ∃ j, (k, j) ∈ done) ∧
      ∀ k active, (x.index.insert last x.activeRanges)[k]? = some active →
        ActiveAt ranges done k active

/-- What the second loop is given: every range under the offset it starts with. -/
def Keyed (ranges : List Range) (entries : List (Nat × Nat)) : Prop :=
  ∀ e ∈ entries, ∃ r, ranges[e.2]? = some r ∧ r.wasmStart = e.1 ∧ e.1 ≤ r.wasmEnd

section

variable {ranges : List Range} {done : List (Nat × Nat)} {x : Indexer} {e : Nat × Nat}

theorem ActiveAt.snoc_of_lt {k : Nat} {active : List Nat} (h : ActiveAt ranges done k active)
    (hlt : k < e.1) : ActiveAt ranges (done ++ [e]) k active := by
  refine ⟨h.1, fun j => (h.2 j).trans ⟨?_, ?_⟩⟩
  · rintro ⟨k', r, hk', hr⟩
    exact ⟨k', r, List.mem_append_left _ hk', hr⟩
  · rintro ⟨k', r, hk', hr, hle, hend⟩
    obtain hk' | hk' := List.mem_append.mp hk'
    · exact ⟨k', r, hk', hr, hle, hend⟩
    · obtain rfl := List.mem_singleton.mp hk'
      exact absurd hle (Nat.not_le.mpr hlt)

/-- The entry of a start: what is still active of the start before it, and the range that starts. -/
theorem ActiveAt.next {last : Nat} {active : List Nat} (h : ActiveAt ranges done last active)
    (hkeyed : Keyed ranges (done ++ [e])) (hdone : ∀ d ∈ done, d.1 ≤ last) (hlt : last < e.1) :
    ActiveAt ranges (done ++ [e]) e.1
      (active.filter (fun r => ranges[r]?.any fun range => e.1 ≤ range.wasmEnd) ++ [e.2]) := by
  obtain ⟨re, hre, hstart, hend⟩ := hkeyed e (by simp)
  have hfresh : e.2 ∉ active := by
    intro hmem
    obtain ⟨k', r, hk', hr, -⟩ := (h.2 e.2).mp hmem
    obtain ⟨r', hr', hstart', -⟩ := hkeyed (k', e.2) (by simp [hk'])
    obtain rfl : r' = re := Option.some.inj (hr'.symm.trans hre)
    have := hdone _ hk'
    simp only at hstart' this
    omega
  refine ⟨?_, fun j => ⟨?_, ?_⟩⟩
  · refine List.nodup_append.mpr ⟨h.1.filter _, List.nodup_singleton _, fun a ha b hb => ?_⟩
    rintro rfl
    exact hfresh (List.mem_singleton.mp hb ▸ (List.mem_filter.mp ha).1)
  · intro hj
    obtain hj | hj := List.mem_append.mp hj
    · obtain ⟨hj, hany⟩ := List.mem_filter.mp hj
      obtain ⟨k', r, hk', hr, hle, -⟩ := (h.2 j).mp hj
      refine ⟨k', r, List.mem_append_left _ hk', hr, by omega, ?_⟩
      simpa [hr] using hany
    · obtain rfl := List.mem_singleton.mp hj
      exact ⟨e.1, re, by simp, hre, Nat.le_refl _, hend⟩
  · rintro ⟨k', r, hk', hr, hle, hend'⟩
    obtain hk' | hk' := List.mem_append.mp hk'
    · refine List.mem_append_left _ (List.mem_filter.mpr ⟨(h.2 j).mpr ?_, by simpa [hr] using hend'⟩)
      exact ⟨k', r, hk', hr, hdone _ hk', by omega⟩
    · obtain rfl := List.mem_singleton.mp hk'
      simp

/-- One round of the second loop, for a start after all that are done. -/
theorem Indexer.Inv.step (h : x.Inv ranges done) (hkeyed : Keyed ranges (done ++ [e]))
    (hlt : ∀ d ∈ done, d.1 < e.1) : (x.step ranges e).Inv ranges (done ++ [e]) := by
  cases hx : x.lastWasmPos with
  | none =>
    obtain ⟨rfl, hindex, hactive⟩ := h.start hx
    obtain ⟨re, hre, -, hend⟩ := hkeyed e (by simp)
    have hstep : x.step ranges e = ⟨[e.2], ∅, some e.1⟩ := by
      simp [Indexer.step, hx, hindex, hactive]
    rw [hstep]
    refine ⟨fun h => absurd h (by simp), fun last hlast => ?_⟩
    obtain rfl := Option.some.inj hlast
    refine ⟨⟨e.2, by simp⟩, by simp, fun k => ?_, fun k active hk => ?_⟩
    · rw [Std.TreeMap.mem_insert, Nat.compare_eq_eq]
      constructor
      · rintro (rfl | hk)
        · exact ⟨e.2, by simp⟩
        · simp at hk
      · rintro ⟨j, hj⟩
        exact .inl (congrArg Prod.fst (List.mem_singleton.mp hj)).symm
    · obtain ⟨rfl, rfl⟩ : e.1 = k ∧ [e.2] = active := by
        simpa [Std.TreeMap.getElem?_insert] using hk
      refine ⟨List.nodup_singleton _, fun j => ?_⟩
      simp only [List.nil_append, List.mem_singleton]
      constructor
      · rintro rfl
        exact ⟨e.1, re, rfl, hre, Nat.le_refl _, hend⟩
      · rintro ⟨k', r, hk', -⟩
        exact congrArg Prod.snd hk'
  | some last =>
    obtain ⟨⟨jl, hjl⟩, hmax, hkeys, hactive⟩ := h.last last hx
    have hlast : last < e.1 := hlt _ hjl
    have hne : ¬ some e.1 = x.lastWasmPos := by
      rw [hx]
      intro h
      exact absurd (Option.some.inj h) (Nat.ne_of_gt hlast)
    have hstep : x.step ranges e = ⟨x.activeRanges.filter (fun r => ranges[r]?.any fun range =>
        e.1 ≤ range.wasmEnd) ++ [e.2], x.index.insert last x.activeRanges, some e.1⟩ := by
      rw [Indexer.step, if_neg hne, hx]
    rw [hstep]
    have hself : ActiveAt ranges done last x.activeRanges :=
      hactive last x.activeRanges (by simp)
    refine ⟨fun hnone => absurd hnone (by simp), fun last' hlast' => ?_⟩
    · obtain rfl := Option.some.inj hlast'
      refine ⟨⟨e.2, by simp⟩, ?_, fun k => ?_, fun k active hk => ?_⟩
      · intro d hd
        obtain hd | hd := List.mem_append.mp hd
        · exact (hlt d hd).le
        · rw [List.mem_singleton.mp hd]
      · have := hkeys k
        rw [Std.TreeMap.mem_insert, this]
        simp only [List.mem_append, List.mem_singleton, exists_or, Nat.compare_eq_eq]
        constructor
        · rintro (rfl | hk)
          · exact .inr ⟨e.2, rfl⟩
          · exact .inl hk
        · rintro (hk | ⟨j, hj⟩)
          · exact .inr hk
          · exact .inl (congrArg Prod.fst hj).symm
      · rw [Std.TreeMap.getElem?_insert] at hk
        by_cases hek : e.1 = k
        · subst hek
          obtain rfl : _ = active := by simpa using hk
          exact hself.next hkeyed hmax hlast
        · have hk : (x.index.insert last x.activeRanges)[k]? = some active := by
            simpa [hek] using hk
          obtain ⟨j, hj⟩ := (hkeys k).mp (Std.TreeMap.mem_iff_isSome_getElem?.mpr (by rw [hk]; rfl))
          exact (hactive k active hk).snoc_of_lt (hlt _ hj)

end

theorem Indexer.Inv.foldl {ranges : List Range} {done entries : List (Nat × Nat)} {x : Indexer}
    (h : x.Inv ranges done) (hkeyed : Keyed ranges (done ++ entries))
    (hsorted : (done ++ entries).Pairwise fun d e => d.1 < e.1) :
    (entries.foldl (Indexer.step ranges) x).Inv ranges (done ++ entries) := by
  induction entries generalizing done x with
  | nil => simpa using h
  | cons e entries ih =>
    have hsplit : done ++ e :: entries = (done ++ [e]) ++ entries := by simp
    rw [hsplit] at hkeyed hsorted ⊢
    have hdone := (List.pairwise_append.mp (List.pairwise_append.mp hsorted).1).2.2
    have hstep := h.step (fun d hd => hkeyed d (List.mem_append_left _ hd))
      fun d hd => hdone d hd e (List.mem_singleton_self e)
    exact ih hstep hkeyed hsorted

/-- A later range with the same start has taken the place of range `j` in the index. -/
def Replaced (ranges : List Range) (j : Nat) (r : Range) : Prop :=
  ∃ j' r', j < j' ∧ ranges[j']? = some r' ∧ r'.wasmStart = r.wasmStart

theorem lastAt_iff {ranges : List Range} {k j : Nat} :
    LastAt ranges k j ↔ ∃ r, ranges[j]? = some r ∧ r.wasmStart = k ∧ ¬ Replaced ranges j r := by
  constructor
  · rintro ⟨⟨r, hr, rfl⟩, hlast⟩
    refine ⟨r, hr, rfl, ?_⟩
    rintro ⟨j', r', hj, hr', hk⟩
    exact hlast j' r' hj hr' hk
  · rintro ⟨r, hr, rfl, hlast⟩
    exact ⟨⟨r, hr, rfl⟩, fun j' r' hj hr' hk => hlast ⟨j', r', hj, hr', hk⟩⟩

theorem exists_lastAt {ranges : List Range} {r : Range} (hr : r ∈ ranges) :
    ∃ j, LastAt ranges r.wasmStart j := by
  induction ranges using List.reverseRecOn with
  | nil => simp at hr
  | append_singleton ranges s ih =>
    by_cases hs : s.wasmStart = r.wasmStart
    · exact ⟨ranges.length, hs ▸ (lastAt_snoc_self ranges s).mpr rfl⟩
    · obtain hr | hr := List.mem_append.mp hr
      · obtain ⟨j, hj⟩ := ih hr
        exact ⟨j, (lastAt_snoc_of_ne hs).mpr hj⟩
      · exact absurd (congrArg Range.wasmStart (List.mem_singleton.mp hr)).symm hs

/-- What the sweep over the starts leaves: the index lists the ranges that are active at the starts. -/
structure FuncLookup.Swept (l : FuncLookup) : Prop where
  sorted : l.index.Pairwise fun d e => d.1 < e.1
  keys : ∀ k, (∃ active, (k, active) ∈ l.index) ↔ ∃ r ∈ l.ranges, r.wasmStart = k
  nodup : ∀ e ∈ l.index, e.2.Nodup
  active : ∀ e ∈ l.index, ∀ j, j ∈ e.2 ↔
    ∃ r, l.ranges[j]? = some r ∧ ¬ Replaced l.ranges j r ∧ r.wasmStart ≤ e.1 ∧ e.1 ≤ r.wasmEnd

/-- The ranges of a function lie one after the other in its code, and the index is as the sweep leaves it. -/
structure FuncLookup.Ok (l : FuncLookup) : Prop extends l.Swept where
  ok : ∀ r ∈ l.ranges, r.Ok
  apart : l.ranges.Pairwise fun r s => r.genEnd ≤ s.genStart

theorem toList_sorted {α : Type} (m : Std.TreeMap Nat α) :
    m.toList.Pairwise fun d e => d.1 < e.1 :=
  m.ordered_keys_toList.imp fun h => Nat.compare_eq_lt.mp h

theorem indexRanges_swept {ranges : List Range} {rangesIndex : Std.TreeMap Nat Nat}
    {index : List (Nat × List Nat)} (hle : ∀ r ∈ ranges, r.wasmStart ≤ r.wasmEnd)
    (hindexed : ∀ k j, rangesIndex[k]? = some j ↔ LastAt ranges k j)
    (h : indexRanges ranges rangesIndex = some index) : FuncLookup.Swept ⟨index, ranges⟩ := by
  have hmem : ∀ k j, (k, j) ∈ rangesIndex.toList ↔
      ∃ r, ranges[j]? = some r ∧ r.wasmStart = k ∧ ¬ Replaced ranges j r := fun k j =>
    Std.TreeMap.mem_toList_iff_getElem?_eq_some.trans ((hindexed k j).trans lastAt_iff)
  have hkeyed : Keyed ranges ([] ++ rangesIndex.toList) := by
    rintro ⟨k, j⟩ he
    obtain ⟨r, hr, rfl, -⟩ := (hmem k j).mp he
    exact ⟨r, hr, rfl, hle r (List.mem_of_getElem? hr)⟩
  have hinit : Indexer.Inv ranges [] ⟨[], ∅, none⟩ :=
    ⟨fun _ => ⟨rfl, rfl, rfl⟩, fun _ h => absurd h (by simp)⟩
  have hinv := hinit.foldl hkeyed (toList_sorted rangesIndex)
  obtain ⟨last, hlast, rfl⟩ := Option.map_eq_some_iff.mp h
  obtain ⟨-, -, hkeys, hactive⟩ := hinv.last last hlast
  refine ⟨toList_sorted _, fun k => ?_, fun e he => ?_, fun e he j => ?_⟩
  · simp only [Std.TreeMap.mem_toList_iff_getElem?_eq_some, ← Option.isSome_iff_exists,
      ← Std.TreeMap.mem_iff_isSome_getElem?]
    rw [hkeys]
    constructor
    · rintro ⟨j, hj⟩
      obtain ⟨r, hr, rfl, -⟩ := (hmem k j).mp hj
      exact ⟨r, List.mem_of_getElem? hr, rfl⟩
    · rintro ⟨r, hr, rfl⟩
      obtain ⟨j, hj⟩ := exists_lastAt hr
      exact ⟨j, (hmem _ j).mpr (lastAt_iff.mp hj)⟩
  · exact (hactive e.1 e.2 (Std.TreeMap.mem_toList_iff_getElem?_eq_some.mp he)).1
  · rw [(hactive e.1 e.2 (Std.TreeMap.mem_toList_iff_getElem?_eq_some.mp he)).2 j]
    constructor
    · rintro ⟨k', r, hk', hr, hle, hend⟩
      obtain ⟨r', hr', rfl, hlive⟩ := (hmem k' j).mp hk'
      obtain rfl := Option.some.inj (hr.symm.trans hr')
      exact ⟨r, hr, hlive, hle, hend⟩
    · rintro ⟨r, hr, hlive, hle, hend⟩
      exact ⟨r.wasmStart, r, (hmem _ j).mpr ⟨r, hr, rfl, hlive⟩, hr, hle, hend⟩

theorem indexRanges_spec {ranges : List Range} {rangesIndex : Std.TreeMap Nat Nat}
    {index : List (Nat × List Nat)} (hok : ∀ r ∈ ranges, r.Ok)
    (hapart : ranges.Pairwise fun r s => r.genEnd ≤ s.genStart)
    (hindexed : ∀ k j, rangesIndex[k]? = some j ↔ LastAt ranges k j)
    (h : indexRanges ranges rangesIndex = some index) : FuncLookup.Ok ⟨index, ranges⟩ := by
  exact ⟨indexRanges_swept (fun r hr => (hok r hr).wasm_le) hindexed h, hok, hapart⟩

/-- What `get_function_address_map` promises: the instructions lie one after the other in the body. -/
structure FunctionAddressMap.Laid (ft : FunctionAddressMap) : Prop where
  within : ∀ t ∈ ft.instructions,
    ft.bodyOffset ≤ t.codeOffset ∧ t.codeOffset + t.codeLen ≤ ft.bodyOffset + ft.bodyLen
  ordered : ft.instructions.Pairwise fun t u => t.codeOffset + t.codeLen ≤ u.codeOffset

theorem flatMap_attach (p : Position) {rs : List Run} (h : rs ≠ []) :
    (Run.attach p rs).flatMap Run.code = p :: rs.flatMap Run.code := by
  cases rs with
  | nil => exact absurd rfl h
  | cons r rs => rfl

theorem attach_ne_nil {p : Position} {rs : List Run} (h : rs ≠ []) : Run.attach p rs ≠ [] := by
  cases rs with
  | nil => exact h
  | cons r rs => exact List.cons_ne_nil _ _

theorem runsFrom_ne_nil {fnEnd : Nat} (code : List Position) (last first : Nat) :
    runsFrom fnEnd last first code ≠ [] := by
  induction code generalizing last first with
  | nil => exact List.cons_ne_nil _ _
  | cons p code ih =>
    rw [runsFrom]
    split
    · exact List.cons_ne_nil _ _
    · exact attach_ne_nil (ih _ _)

theorem flatMap_runsFrom {fnEnd : Nat} (code : List Position) (last first : Nat) :
    (runsFrom fnEnd last first code).flatMap Run.code = code := by
  induction code generalizing last first with
  | nil => rfl
  | cons p code ih =>
    rw [runsFrom]
    split
    · rw [List.flatMap_cons, flatMap_attach p (runsFrom_ne_nil code _ _), ih]
      rfl
    · rw [flatMap_attach p (runsFrom_ne_nil code _ _), ih]

/-- What `build_function_lookup` returns. -/
structure BuildSpec (ft : FunctionAddressMap) (codeSectionOffset : UInt64) (fnStart fnEnd : Nat)
    (lookup : FuncLookup) : Prop where
  start : fnStart = ft.fnStart codeSectionOffset
  stop : fnEnd = ft.fnEnd codeSectionOffset
  le : fnStart ≤ fnEnd
  ok : lookup.Ok
  runs : lookup.ranges.map Range.run = ft.runs codeSectionOffset
  first : ∃ r ∈ lookup.ranges, r.wasmStart = fnStart

section

variable {ft : FunctionAddressMap} {codeSectionOffset : UInt64}

/-- The ranges of a function, without the loop. -/
def FunctionAddressMap.ranges (ft : FunctionAddressMap) (codeSectionOffset : UInt64) : List Range :=
  rangesFrom (ft.fnEnd codeSectionOffset) (ft.bodyOffset + ft.bodyLen) (ft.fnStart codeSectionOffset)
    (ft.fnStart codeSectionOffset) ft.bodyOffset (ft.code codeSectionOffset)

theorem ranges_foldl : (((ft.code codeSectionOffset).foldl Builder.add (.new ft codeSectionOffset)).push
    (ft.fnEnd codeSectionOffset) (ft.bodyOffset + ft.bodyLen)).ranges = ft.ranges codeSectionOffset := by
  have hattach : ∀ rs, Range.attach [] rs = rs := fun rs => by cases rs <;> rfl
  rw [foldl_add_ranges]
  exact hattach _

theorem FunctionAddressMap.Laid.after (hlaid : ft.Laid)
    (hwasm : ∀ p ∈ ft.code codeSectionOffset, p.wasmPos ≤ ft.fnEnd codeSectionOffset)
    (hle : ft.fnStart codeSectionOffset ≤ ft.fnEnd codeSectionOffset) :
    After (ft.fnStart codeSectionOffset) (ft.fnStart codeSectionOffset) ft.bodyOffset ft.bodyOffset
      (ft.ranges codeSectionOffset) := by
  refine after_rangesFrom ⟨?_, hwasm, fun p hp => ?_⟩ (Nat.le_refl _) hle (Nat.le_refl ft.bodyOffset)
    (Nat.le_add_right _ _)
  · exact List.pairwise_map.mpr (hlaid.ordered.filter _)
  · obtain ⟨t, ht, rfl⟩ := List.mem_map.mp hp
    obtain ⟨h₁, h₂⟩ := hlaid.within t (List.mem_filter.mp ht).1
    exact ⟨h₁, Nat.le_add_right _ _, h₂⟩

/-- What a call that returns has gone through. -/
structure Built (ft : FunctionAddressMap) (codeSectionOffset : UInt64) (fnStart fnEnd : Nat)
    (lookup : FuncLookup) : Prop where
  start : fnStart = ft.fnStart codeSectionOffset
  stop : fnEnd = ft.fnEnd codeSectionOffset
  le : fnStart ≤ fnEnd
  wasm : ∀ p ∈ ft.code codeSectionOffset, fnStart ≤ p.wasmPos ∧ p.wasmPos ≤ fnEnd
  ranges : lookup.ranges = ft.ranges codeSectionOffset
  index : ∃ rangesIndex : Std.TreeMap Nat Nat,
    (∀ k j, rangesIndex[k]? = some j ↔ LastAt lookup.ranges k j) ∧
      indexRanges lookup.ranges rangesIndex = some lookup.index

theorem built_of_buildFunctionLookup {fnStart fnEnd : Nat} {lookup : FuncLookup}
    (h : buildFunctionLookup ft codeSectionOffset = some (fnStart, fnEnd, lookup)) :
    Built ft codeSectionOffset fnStart fnEnd lookup := by
  unfold buildFunctionLookup at h
  obtain ⟨⟨-, hle⟩, h⟩ := Option.ite_none_right_eq_some.mp h
  obtain ⟨b, hb, h⟩ := Option.bind_eq_some_iff.mp h
  obtain ⟨index, hindex, hl⟩ := Option.map_eq_some_iff.mp h
  simp only [Prod.mk.injEq] at hl
  obtain ⟨rfl, rfl, rfl⟩ := hl
  obtain ⟨rfl, hwasm⟩ := foldlM_step hb
  have hnew : (Builder.new ft codeSectionOffset).Indexed := fun k j => by simp [Builder.new, LastAt]
  have hindexed := (hnew.foldl_add (ft.code codeSectionOffset)).push (ft.fnEnd codeSectionOffset)
    (ft.bodyOffset + ft.bodyLen)
  exact ⟨rfl, rfl, hle, hwasm, ranges_foldl, _, hindexed, hindex⟩

theorem buildFunctionLookup_spec {fnStart fnEnd : Nat} {lookup : FuncLookup} (hlaid : ft.Laid)
    (h : buildFunctionLookup ft codeSectionOffset = some (fnStart, fnEnd, lookup)) :
    BuildSpec ft codeSectionOffset fnStart fnEnd lookup := by
  have hbuilt := built_of_buildFunctionLookup h
  obtain ⟨rangesIndex, hindexed, hindex⟩ := hbuilt.index
  have hafter := hlaid.after (fun p hp => hbuilt.stop ▸ (hbuilt.wasm p hp).2)
    (hbuilt.start ▸ hbuilt.stop ▸ hbuilt.le)
  rw [← hbuilt.ranges] at hafter
  obtain ⟨r, rest, hrs, hfirst, -⟩ := hafter.head
  refine ⟨hbuilt.start, hbuilt.stop, hbuilt.le, ?_, ?_, ?_⟩
  · exact indexRanges_spec hafter.ok hafter.apart hindexed hindex
  · exact hbuilt.ranges ▸ map_run_rangesFrom _ _ _ _
  · exact ⟨r, hrs ▸ List.mem_cons_self, hfirst.trans hbuilt.start.symm⟩

end

end Wasmtime.Debug
