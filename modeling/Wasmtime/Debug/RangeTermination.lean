import Mathlib
import Wasmtime.Debug.TranslateRanges

/-!
# When the translation of ranges comes to an end

`TransformRangeIter`, `TransformRangeEndIter`, `translate_ranges_raw` and `translate_ranges`
(`wasmtime-debug/src/transform/address_transform.rs`) on wasm addresses `start ≤ stop` of a function.

`TransformRangeEndIter::next` goes on with the range that it has not taken off its list, so it never comes
back from an address at which a run of instructions starts.

Results: `Range.Ok.startAddress_le_endAddress` (what is found in a range is a range), `pairs_le`, and the headline
`settles_iff`: the calls come to an end, with pairs in order, exactly when no run starts at `stop`.
-/

namespace Wasmtime.Debug

/-! ## `translate_ranges` -/

/-- An address and a length; `none` when the subtraction underflows. -/
def lengthOf (range : Nat × Nat) : Option (Nat × Nat) :=
  if range.1 ≤ range.2 then some (range.1, range.2 - range.1) else none

/-- `translate_ranges`: the symbol, and the addresses with their lengths. -/
def AddressTransform.translateRanges (t : AddressTransform) (bs : BinarySearch) (fuel start stop : Nat) :
    Option (List (Nat × Nat × Nat)) :=
  (t.translateRangesRaw bs fuel start stop).bind fun result =>
    result.elim (some []) fun found =>
      (found.2.mapM lengthOf).map fun ranges => ranges.map fun range => (found.1, range)

/-! ## The addresses of one range -/

section

variable {bs : BinarySearch} {start stop : Nat}

/-- The start that is found in a range is not after the end that is found there. -/
theorem Range.Ok.startAddress_le_endAddress {r : Range} (h : r.Ok) (hle : start ≤ stop) {x y : Nat}
    (hx : r.startAddress bs start = some x) (hy : r.endAddress bs stop = some y) : x ≤ y := by
  unfold Range.startAddress at hx
  unfold Range.endAddress at hy
  obtain ⟨i, q, hrun, hq, hqpos⟩ | ⟨i, hrun, hlen, hsplit⟩ := h.search bs start
  · rw [hrun] at hx
    dsimp only at hx
    obtain ⟨q₁, hq₁, rfl⟩ := Option.map_eq_some_iff.mp hx
    obtain rfl := Option.some.inj (hq.symm.trans hq₁)
    have hgen := h.gen q (List.mem_of_getElem? hq)
    obtain ⟨i', q', hrun', hq', hqpos'⟩ | ⟨i', hrun', hlen', hsplit'⟩ := h.search bs stop
    · rw [hrun'] at hy
      dsimp only at hy
      obtain ⟨q₂, hq₂, rfl⟩ := Option.map_eq_some_iff.mp hy
      obtain rfl := Option.some.inj (hq'.symm.trans hq₂)
      have hgen' := h.gen q' (List.mem_of_getElem? hq')
      obtain hlt | rfl | hlt := Nat.lt_trichotomy i i'
      · have := h.genEnd_le hq hq' hlt
        omega
      · obtain rfl := Option.some.inj (hq.symm.trans hq')
        exact hgen.2.1
      · -- the same search would have found two matches
        have hpos := h.wasmPos_le hq' hq hlt.le
        obtain rfl : start = stop := by omega
        rw [hrun] at hrun'
        obtain rfl := Except.ok.inj hrun'
        exact absurd hlt (Nat.lt_irrefl _)
    · rw [hrun'] at hy
      dsimp only at hy
      obtain rfl | hne := Decidable.em (i' = r.positions.length)
      · rw [if_pos rfl] at hy
        obtain rfl := Option.some.inj hy
        omega
      · rw [if_neg hne] at hy
        obtain ⟨q', hq', rfl⟩ := Option.map_eq_some_iff.mp hy
        have hlt : i < i' := Nat.lt_of_not_le fun hle' => by
          have := (hsplit' i q hq).2 hle'
          omega
        have := h.genEnd_le hq hq' hlt
        omega
  · rw [hrun] at hx
    dsimp only at hx
    -- what ends before `start` is before what is found at `stop`
    have hbefore : ∀ (m : Nat) (p : Position), r.positions[m]? = some p → i ≤ m → x ≤ p.genStart := by
      intro m p hp hm
      obtain rfl | hne := Decidable.em (i = 0)
      · rw [if_pos rfl] at hx
        obtain rfl := Option.some.inj hx
        exact (h.gen p (List.mem_of_getElem? hp)).1
      · rw [if_neg hne] at hx
        obtain ⟨q, hq, rfl⟩ := Option.map_eq_some_iff.mp hx
        exact h.genEnd_le hq hp (by omega)
    obtain ⟨i', q', hrun', hq', hqpos'⟩ | ⟨i', hrun', hlen', hsplit'⟩ := h.search bs stop
    · rw [hrun'] at hy
      dsimp only at hy
      obtain ⟨q₂, hq₂, rfl⟩ := Option.map_eq_some_iff.mp hy
      obtain rfl := Option.some.inj (hq'.symm.trans hq₂)
      have hm : i ≤ i' := Nat.le_of_not_lt fun hlt => by
        have := (hsplit i' q' hq').1 hlt
        omega
      have := hbefore i' q' hq' hm
      have := (h.gen q' (List.mem_of_getElem? hq')).2.1
      omega
    · rw [hrun'] at hy
      dsimp only at hy
      obtain rfl | hne := Decidable.em (i' = r.positions.length)
      · rw [if_pos rfl] at hy
        obtain rfl := Option.some.inj hy
        obtain rfl | hne := Decidable.em (i = 0)
        · rw [if_pos rfl] at hx
          obtain rfl := Option.some.inj hx
          exact h.gen_le
        · rw [if_neg hne] at hx
          obtain ⟨q, hq, rfl⟩ := Option.map_eq_some_iff.mp hx
          exact (h.gen q (List.mem_of_getElem? hq)).2.2
      · rw [if_neg hne] at hy
        obtain ⟨q', hq', rfl⟩ := Option.map_eq_some_iff.mp hy
        refine hbefore i' q' hq' (Nat.le_of_not_lt fun hlt => ?_)
        have h₁ := (hsplit i' q' hq').1 hlt
        have h₂ := (hsplit' i' q' hq').2 (Nat.le_refl _)
        omega

theorem Piece.le {active₁ active₂ : List Nat} {j x y : Nat} {r : Range} (hr : r.Ok) (hle : start ≤ stop)
    (h : Piece bs start stop active₁ active₂ j r x y) : x ≤ y := by
  obtain ⟨hlow, hhigh⟩ := h.bounds hr
  obtain ⟨-, hy, ⟨-, hx⟩ | ⟨-, rfl⟩⟩ | ⟨-, hx, -, rfl⟩ := h
  · exact hr.startAddress_le_endAddress hle hx hy
  · obtain ⟨a, ha, hgen, -⟩ := hr.startAddress bs start
    exact hgen.trans (hr.startAddress_le_endAddress hle ha hy)
  · obtain ⟨b, hb, hgen, -⟩ := hr.endAddress bs stop
    exact (hr.startAddress_le_endAddress hle hx hb).trans hgen

end

/-! ## The calls -/

section

variable {bs : BinarySearch} {func : FuncTransform} {start stop : Nat}

/-- Every pair that is returned is in order. -/
theorem pairs_le {fuel : Nat} {result : List (Nat × Nat)} (hl : func.lookup.Ok)
    (hfirst : ∃ r ∈ func.lookup.ranges, r.wasmStart ≤ start) (hle : start ≤ stop)
    (h : func.translateRanges bs fuel start stop = some result) : ∀ p ∈ result, p.1 ≤ p.2 := by
  obtain ⟨t⟩ := translateRanges_spec hl hfirst hle h
  rintro ⟨x, y⟩ hp
  obtain ⟨j, r, hr, hpiece⟩ := (t.mem x y).mp hp
  exact hpiece.le (hl.ok r (List.mem_of_getElem? hr)) hle

theorem mapM_lengthOf {result : List (Nat × Nat)} (h : ∀ p ∈ result, p.1 ≤ p.2) :
    result.mapM lengthOf = some (result.map fun p => (p.1, p.2 - p.1)) := by
  induction result with
  | nil => rfl
  | cons p result ih =>
    rw [List.forall_mem_cons] at h
    rw [List.mapM_cons, lengthOf, if_pos h.1, ih h.2]
    rfl

/-- What `TransformRangeIter` yields from an address. -/
def FuncTransform.startItems (func : FuncTransform) (bs : BinarySearch) (addr : Nat) :
    Option (List (Nat × Nat)) :=
  (func.active bs addr).bind (TransformRangeIter.items bs func.lookup.ranges addr)

/-- What `TransformRangeEndIter` yields from an address. -/
def FuncTransform.endItems (func : FuncTransform) (bs : BinarySearch) (fuel addr : Nat) :
    Option (List (Nat × Nat)) :=
  (func.active bs addr).bind (TransformRangeEndIter.items bs func.lookup.ranges addr fuel)

/-- The iterators, `translate_ranges_raw` and `translate_ranges` come to an end, and the pairs that are
returned are in order. -/
structure Settles (bs : BinarySearch) (func : FuncTransform) (start stop : Nat) : Prop where
  iter : ∀ addr, start ≤ addr → ∃ items, func.startItems bs addr = some items
  endIter : ∃ fuel items, func.endItems bs fuel stop = some items
  raw : ∀ t : AddressTransform, t.findFunc bs start = some func →
    ∃ fuel r, t.translateRangesRaw bs fuel start stop = some r ∧ ∀ p ∈ r.elim [] Prod.snd, p.1 ≤ p.2
  ranges : ∀ t : AddressTransform, t.findFunc bs start = some func →
    ∃ fuel r, t.translateRanges bs fuel start stop = some r

theorem exists_startItems (bs : BinarySearch) (hl : func.lookup.Ok)
    (hfirst : ∃ r ∈ func.lookup.ranges, r.wasmStart ≤ start) {addr : Nat} (haddr : start ≤ addr) :
    ∃ items, func.startItems bs addr = some items := by
  obtain ⟨r, hr, hle⟩ := hfirst
  obtain ⟨k, active, hactive, hspec⟩ := active_spec bs addr hl ⟨r, hr, hle.trans haddr⟩
  obtain ⟨items, hitems, -⟩ := startItems bs addr hl.ok hspec.defined
  exact ⟨items, by rw [FuncTransform.startItems, hactive, Option.bind_some, hitems]⟩

/-- The end iterator comes to an end when the translation does. -/
theorem endItems_iff (bs : BinarySearch) (hl : func.lookup.Ok)
    (hfirst : ∃ r ∈ func.lookup.ranges, r.wasmStart ≤ start) (hle : start ≤ stop) :
    (∃ fuel items, func.endItems bs fuel stop = some items) ↔
      ∀ r ∈ func.lookup.ranges, r.wasmStart ≠ stop := by
  rw [← translateRanges_returns bs hl hfirst hle]
  constructor
  · rintro ⟨fuel, items, hitems⟩
    rw [translateRanges_returns bs hl hfirst hle]
    rintro r hr rfl
    obtain ⟨k, active, hactive, hspec⟩ := active_spec bs r.wasmStart hl ⟨r, hr, Nat.le_refl _⟩
    rw [FuncTransform.endItems, hactive, Option.bind_some] at hitems
    obtain ⟨j, hj⟩ := exists_lastAt hr
    obtain ⟨s, hs, hstart, hlive⟩ := lastAt_iff.mp hj
    have hk := hspec.greatest r hr (Nat.le_refl _)
    have hwasm := (hl.ok s (List.mem_of_getElem? hs)).wasm_le
    have hmem := (hspec.iff j s hs).mpr ⟨hlive, by omega, by have := hspec.le; omega⟩
    obtain ⟨s', hs', hlt⟩ := (endItems_eq_some hitems).2 j hmem
    obtain rfl := Option.some.inj (hs.symm.trans hs')
    omega
  · rintro ⟨fuel, result, h⟩
    obtain ⟨starts, -, h⟩ := Option.bind_eq_some_iff.mp h
    obtain ⟨ends, hends, -⟩ := Option.bind_eq_some_iff.mp h
    exact ⟨fuel, ends, hends⟩

end

/-! ## The headline -/

section

variable {ft : FunctionAddressMap} {codeSectionOffset : UInt64} {func : FuncTransform} {start stop : Nat}

/-- **The translation of the addresses `start ≤ stop` of a function settles, whichever match
`binary_search_by` returns, exactly when no run of the function starts at `stop`.** -/
theorem settles_iff (hlaid : ft.Laid)
    (hbuild : buildFunctionLookup ft codeSectionOffset = some (func.start, func.stop, func.lookup))
    (hstart : func.start ≤ start) (hle : start ≤ stop) :
    (∀ bs, Settles bs func start stop) ↔ ∀ r ∈ ft.runs codeSectionOffset, r.first ≠ stop := by
  have hspec := buildFunctionLookup_spec hlaid hbuild
  have hl := hspec.ok
  have hfirst := hspec.reaches hstart
  have hruns : (∀ r ∈ ft.runs codeSectionOffset, r.first ≠ stop) ↔
      ∀ r ∈ func.lookup.ranges, r.wasmStart ≠ stop := by
    rw [← hspec.runs, List.forall_mem_map]
    rfl
  rw [hruns]
  constructor
  · intro h
    exact (endItems_iff .last hl hfirst hle).mp (h .last).endIter
  · intro hne bs
    obtain ⟨fuel, result, hresult⟩ := (translateRanges_returns bs hl hfirst hle).mpr hne
    have hpairs := pairs_le hl hfirst hle hresult
    have hraw : ∀ t : AddressTransform, t.findFunc bs start = some func →
        ∃ r, t.translateRangesRaw bs fuel start stop = some r ∧
          ∀ p ∈ r.elim [] Prod.snd, p.1 ≤ p.2 := by
      intro t hfound
      by_cases h0 : start = 0
      · exact ⟨none, if_pos h0, by simp⟩
      · refine ⟨some (func.index, result), ?_, hpairs⟩
        rw [translateRangesRaw_of_found h0 hfound, hresult, Option.map_some]
    refine ⟨fun addr haddr => exists_startItems bs hl hfirst haddr,
      (endItems_iff bs hl hfirst hle).mpr hne, fun t hfound => ⟨fuel, hraw t hfound⟩, fun t hfound => ?_⟩
    obtain ⟨r, hr, hrpairs⟩ := hraw t hfound
    refine ⟨fuel, ?_⟩
    rw [AddressTransform.translateRanges, hr, Option.bind_some]
    cases r with
    | none => exact ⟨[], rfl⟩
    | some found => exact ⟨_, congrArg (Option.map _) (mapM_lengthOf hrpairs)⟩

end

/-- The function `repeated`, whose runs start at 10, 12 and 12. -/
def repeatedFunc : FuncTransform where
  start := 10
  stop := 20
  index := 0
  lookup := ⟨[(10, [0]), (12, [0, 2])], [⟨10, 14, 0, 4, [⟨14, 0, 4⟩]⟩,
    ⟨12, 13, 4, 12, [⟨12, 4, 8⟩, ⟨13, 8, 12⟩]⟩, ⟨12, 20, 12, 16, [⟨12, 12, 16⟩]⟩]⟩

theorem build_repeated : buildFunctionLookup repeated 1 =
    some (repeatedFunc.start, repeatedFunc.stop, repeatedFunc.lookup) := by rfl

/-- From 11 to 13, over all three runs. -/
theorem settles_repeated :
    (∀ r ∈ repeated.runs 1, r.first ≠ 13) ∧ ∀ bs, Settles bs repeatedFunc 11 13 :=
  ⟨by decide, (settles_iff laid_repeated build_repeated (by decide) (by decide)).mpr (by decide)⟩

/-- From 11 to 12, where two runs start, the code never comes back. -/
theorem not_settles_repeated : ¬ Settles .last repeatedFunc 11 12 := by
  intro h
  have hspec := buildFunctionLookup_spec laid_repeated build_repeated
  have hfirst : ∃ r ∈ repeatedFunc.lookup.ranges, r.wasmStart ≤ 11 := hspec.reaches (by decide)
  have hne := (endItems_iff .last hspec.ok hfirst (by decide)).mp h.endIter
  exact hne ⟨12, 20, 12, 16, [⟨12, 12, 16⟩]⟩ (by decide) rfl

end Wasmtime.Debug
