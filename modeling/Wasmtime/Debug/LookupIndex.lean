import Mathlib
import Wasmtime.Debug.TranslateRanges
import Wasmtime.Lib.EndToEnd

/-!
# What the lookup index of a function lists

`build_function_lookup` (`wasmtime-debug/src/transform/address_transform.rs`) on every address map of a
function that it accepts, and the entry of the index that `binary_search_by` selects for an address.

The ranges are collected in a map from the address they start at, so one that starts where an earlier one
started takes its place.

Results:
* `laid_ranges`: the generated code of the ranges lies end to end, from the start of the body to its end.
* `complete_iff`: every entry lists the ranges that have started and not ended, and their code partitions the
  body, exactly when no two runs of instructions start at the same wasm address and the runs lie in the body
  in their order.
-/

namespace Wasmtime.Debug

/-! ## The generated code of the ranges -/

/-- Where the generated code of a range lies. -/
def Range.generated (r : Range) : Nat × Nat := (r.genStart, r.genEnd)

/-- The code offsets at which runs end and new ones start: `last` is the wasm offset before them. -/
def cutsFrom (last : Nat) : List Position → List Nat
  | [] => []
  | p :: code =>
    if last > p.wasmPos then p.genStart :: cutsFrom p.wasmPos code else cutsFrom p.wasmPos code

/-- The code offsets at which the runs of a function start, the first run apart. -/
def FunctionAddressMap.cuts (ft : FunctionAddressMap) (codeSectionOffset : UInt64) : List Nat :=
  cutsFrom (ft.fnStart codeSectionOffset) (ft.code codeSectionOffset)

theorem map_generated_attach (p : List Position) (rs : List Range) :
    (Range.attach p rs).map Range.generated = rs.map Range.generated := by
  cases rs with
  | nil => rfl
  | cons r rs => rfl

section

variable {fnEnd bodyEnd : Nat}

theorem laid_rangesFrom (code : List Position) (last first genStart : Nat) :
    EndToEnd.Laid bodyEnd genStart
      ((rangesFrom fnEnd bodyEnd last first genStart code).map Range.generated) := by
  induction code generalizing last first genStart with
  | nil => exact ⟨rfl, rfl⟩
  | cons p code ih =>
    rw [rangesFrom]
    split
    · rw [List.map_cons, map_generated_attach]
      exact ⟨rfl, ih _ _ _⟩
    · rw [map_generated_attach]
      exact ih _ _ _

theorem genStarts_rangesFrom (code : List Position) (last first genStart : Nat) :
    ((rangesFrom fnEnd bodyEnd last first genStart code).map Range.generated).map Prod.fst =
      genStart :: cutsFrom last code := by
  induction code generalizing last first genStart with
  | nil => rfl
  | cons p code ih =>
    rw [rangesFrom, cutsFrom]
    split
    · rw [List.map_cons, map_generated_attach, List.map_cons, ih]
      rfl
    · rw [map_generated_attach, ih]

/-- The first range starts where it is to start. -/
theorem head_rangesFrom (code : List Position) (last first genStart : Nat) :
    ∃ r rest, rangesFrom fnEnd bodyEnd last first genStart code = r :: rest ∧ r.wasmStart = first := by
  induction code generalizing last first genStart with
  | nil => exact ⟨_, [], rfl, rfl⟩
  | cons p code ih =>
    rw [rangesFrom]
    split
    · exact ⟨_, _, rfl, rfl⟩
    · obtain ⟨r, rest, hrs, hr⟩ := ih p.wasmPos first genStart
      exact ⟨{ r with positions := [p] ++ r.positions }, rest, by rw [hrs]; rfl, hr⟩

/-- What holds of a run without its instructions holds of it with one more. -/
theorem forall_mem_attach {P : Nat → Nat → Prop} {rs : List Run} (p : Position)
    (h : ∀ r ∈ rs, P r.first r.last) : ∀ r ∈ Run.attach p rs, P r.first r.last := by
  cases rs with
  | nil => exact h
  | cons r rs => exact List.forall_mem_cons.mpr (List.forall_mem_cons.mp h)

/-- A run does not end before it starts, and lies within the function. -/
theorem run_bounds {fnStart : Nat} {code : List Position} {last first : Nat} (hstart : fnStart ≤ first)
    (hfirst : first ≤ last) (hlast : last ≤ fnEnd)
    (hwasm : ∀ p ∈ code, fnStart ≤ p.wasmPos ∧ p.wasmPos ≤ fnEnd) :
    ∀ r ∈ runsFrom fnEnd last first code, fnStart ≤ r.first ∧ r.first ≤ r.last ∧ r.first ≤ fnEnd := by
  induction code generalizing last first with
  | nil =>
    have hle := hfirst.trans hlast
    exact List.forall_mem_singleton.mpr ⟨hstart, hle, hle⟩
  | cons p code ih =>
    obtain ⟨hp, hwasm⟩ := List.forall_mem_cons.mp hwasm
    rw [runsFrom]
    split
    · refine List.forall_mem_cons.mpr ⟨⟨hstart, hfirst, hfirst.trans hlast⟩, ?_⟩
      exact forall_mem_attach (P := fun first last => _ ≤ first ∧ first ≤ last ∧ first ≤ _) p
        (ih hp.1 (Nat.le_refl _) hp.2 hwasm)
    · next hle =>
      exact forall_mem_attach (P := fun first last => _ ≤ first ∧ first ≤ last ∧ first ≤ _) p
        (ih hstart (hfirst.trans (Nat.not_lt.mp hle)) hp.2 hwasm)

end

section

variable {ft : FunctionAddressMap} {codeSectionOffset : UInt64} {fnStart fnEnd : Nat}
  {lookup : FuncLookup}

/-- The generated code of the ranges lies end to end in the body. -/
theorem laid_ranges : EndToEnd.Laid (ft.bodyOffset + ft.bodyLen) ft.bodyOffset
    ((ft.ranges codeSectionOffset).map Range.generated) := laid_rangesFrom _ _ _ _

theorem Built.runs (h : Built ft codeSectionOffset fnStart fnEnd lookup) :
    lookup.ranges.map Range.run = ft.runs codeSectionOffset :=
  h.ranges ▸ map_run_rangesFrom _ _ _ _

theorem Built.bounds (h : Built ft codeSectionOffset fnStart fnEnd lookup) {r : Range}
    (hr : r ∈ lookup.ranges) :
    fnStart ≤ r.wasmStart ∧ r.wasmStart ≤ r.wasmEnd ∧ r.wasmStart ≤ fnEnd := by
  have hruns := run_bounds h.start.le (Nat.le_refl _) (h.start ▸ h.le) h.wasm
  refine hruns r.run ?_
  have hmem : r.run ∈ lookup.ranges.map Range.run := List.mem_map_of_mem hr
  rw [h.runs, FunctionAddressMap.runs, ← h.stop] at hmem
  exact hmem

/-- The sweep has the index right, whatever order the instructions come in. -/
theorem Built.swept (h : Built ft codeSectionOffset fnStart fnEnd lookup) : lookup.Swept := by
  obtain ⟨rangesIndex, hindexed, hindex⟩ := h.index
  exact indexRanges_swept (fun r hr => (h.bounds hr).2.1) hindexed hindex

/-- A range starts where the function does. -/
theorem Built.first (h : Built ft codeSectionOffset fnStart fnEnd lookup) :
    ∃ r ∈ lookup.ranges, r.wasmStart = fnStart := by
  obtain ⟨r, rest, hrs, hr⟩ := @head_rangesFrom (ft.fnEnd codeSectionOffset)
    (ft.bodyOffset + ft.bodyLen) (ft.code codeSectionOffset) (ft.fnStart codeSectionOffset)
    (ft.fnStart codeSectionOffset) ft.bodyOffset
  exact ⟨r, h.ranges.trans hrs ▸ List.mem_cons_self, hr.trans h.start.symm⟩

/-! ## What an entry lists -/

/-- The entry lists every range once that has started at the address and had not ended at its key. -/
def FuncLookup.Lists (l : FuncLookup) (addr : Nat) (e : Nat × List Nat) : Prop :=
  e.2.Nodup ∧ ∀ j, j ∈ e.2 ↔
    ∃ r, l.ranges[j]? = some r ∧ r.wasmStart ≤ addr ∧ ¬ r.wasmEnd < e.1

/-- The entry selected for an address of the function lists the ranges that it is to list, and the
generated code of the ranges partitions the body. -/
structure FuncLookup.Complete (bs : BinarySearch) (ft : FunctionAddressMap)
    (codeSectionOffset : UInt64) (l : FuncLookup) : Prop where
  index : ∀ addr, ft.fnStart codeSectionOffset ≤ addr → addr ≤ ft.fnEnd codeSectionOffset →
    ∃ e, floorEntry bs l.index addr = some e ∧ l.Lists addr e
  generated : EndToEnd.Partitions ft.bodyOffset (ft.bodyOffset + ft.bodyLen)
    (l.ranges.map Range.generated)

/-- No two runs start at the same wasm address. -/
def DistinctStarts (runs : List Run) : Prop := runs.Pairwise fun r s => r.first ≠ s.first

/-- The runs start in the body, in their order. -/
def FunctionAddressMap.InOrder (ft : FunctionAddressMap) (codeSectionOffset : UInt64) : Prop :=
  List.IsChain (· ≤ ·) (ft.bodyOffset :: ft.cuts codeSectionOffset ++ [ft.bodyOffset + ft.bodyLen])

/-- The entry selected for an address, and what it lists. -/
theorem Built.floorEntry (h : Built ft codeSectionOffset fnStart fnEnd lookup) (bs : BinarySearch)
    {addr : Nat} (hle : fnStart ≤ addr) :
    ∃ e ∈ lookup.index, Debug.floorEntry bs lookup.index addr = some e ∧ e.1 ≤ addr ∧
      ∀ r ∈ lookup.ranges, r.wasmStart ≤ addr → r.wasmStart ≤ e.1 := by
  have hswept := h.swept
  obtain ⟨r, hr, hstart⟩ := h.first
  obtain ⟨active, hmem⟩ := (hswept.keys fnStart).mpr ⟨r, hr, hstart⟩
  obtain ⟨e, he, hfloor, hkey, hmax⟩ := floorEntry_spec bs hswept.sorted hmem hle
  refine ⟨e, he, hfloor, hkey, fun s hs hsle => ?_⟩
  obtain ⟨active, hs⟩ := (hswept.keys s.wasmStart).mpr ⟨s, hs, rfl⟩
  exact hmax _ hs hsle

/-- Where the starts are distinct no range is replaced in the index. -/
theorem not_replaced {ranges : List Range} (h : DistinctStarts (ranges.map Range.run)) {j : Nat}
    {r : Range} (hr : ranges[j]? = some r) : ¬ Replaced ranges j r := by
  rintro ⟨j', r', hlt, hr', heq⟩
  obtain ⟨hj, rfl⟩ := List.getElem?_eq_some_iff.mp hr
  obtain ⟨hj', rfl⟩ := List.getElem?_eq_some_iff.mp hr'
  exact List.pairwise_iff_getElem.mp (List.pairwise_map.mp h) j j' hj hj' hlt heq.symm

/-- The index half of the equivalence. -/
theorem Built.lists_iff (h : Built ft codeSectionOffset fnStart fnEnd lookup) (bs : BinarySearch) :
    (∀ addr, fnStart ≤ addr → addr ≤ fnEnd →
      ∃ e, Debug.floorEntry bs lookup.index addr = some e ∧ lookup.Lists addr e) ↔
      DistinctStarts (ft.runs codeSectionOffset) := by
  rw [← h.runs]
  have hswept := h.swept
  constructor
  · intro hall
    refine List.pairwise_map.mpr (List.pairwise_iff_getElem.mpr fun j j' hj hj' hlt heq => ?_)
    -- the entry of the common start leaves the earlier range out
    have hmem := List.getElem_mem hj
    obtain ⟨hstart, hle, hend⟩ := h.bounds hmem
    obtain ⟨e, he, hlists⟩ := hall _ hstart hend
    obtain ⟨e', he', hfloor, hkey, hmax⟩ := h.floorEntry bs hstart
    obtain rfl := Option.some.inj (he.symm.trans hfloor)
    have hlisted := (hlists.2 j).mpr ⟨_, List.getElem?_eq_getElem hj, Nat.le_refl _, by omega⟩
    obtain ⟨r, hr, hlive, -⟩ := (hswept.active e he' j).mp hlisted
    obtain rfl := Option.some.inj ((List.getElem?_eq_getElem hj).symm.trans hr)
    exact hlive ⟨j', _, hlt, List.getElem?_eq_getElem hj', heq.symm⟩
  · intro hdistinct addr hle _
    obtain ⟨e, he, hfloor, hkey, hmax⟩ := h.floorEntry bs hle
    refine ⟨e, hfloor, hswept.nodup e he, fun j => (hswept.active e he j).trans ?_⟩
    constructor
    · rintro ⟨r, hr, -, hstart, hend⟩
      exact ⟨r, hr, hstart.trans hkey, Nat.not_lt.mpr hend⟩
    · rintro ⟨r, hr, hstart, hend⟩
      exact ⟨r, hr, not_replaced hdistinct hr, hmax r (List.mem_of_getElem? hr) hstart,
        Nat.not_lt.mp hend⟩

/-- The half about the generated code. -/
theorem Built.partitions_iff (h : Built ft codeSectionOffset fnStart fnEnd lookup) :
    EndToEnd.Partitions ft.bodyOffset (ft.bodyOffset + ft.bodyLen) (lookup.ranges.map Range.generated) ↔
      ft.InOrder codeSectionOffset := by
  rw [h.ranges, EndToEnd.partitions_iff laid_ranges (Nat.le_add_right _ _),
    EndToEnd.forall_le_iff laid_ranges]
  unfold FunctionAddressMap.ranges FunctionAddressMap.InOrder
  rw [genStarts_rangesFrom]
  rfl

/-- **Headline.** The index lists, for every address of the function, the ranges that have started and had
not ended, and their generated code partitions the body, iff no two runs start at the same wasm address and
the runs start in the body in their order. -/
theorem complete_iff (h : buildFunctionLookup ft codeSectionOffset = some (fnStart, fnEnd, lookup))
    (bs : BinarySearch) :
    lookup.Complete bs ft codeSectionOffset ↔
      DistinctStarts (ft.runs codeSectionOffset) ∧ ft.InOrder codeSectionOffset := by
  have hbuilt := built_of_buildFunctionLookup h
  rw [← hbuilt.lists_iff bs, ← hbuilt.partitions_iff, hbuilt.start, hbuilt.stop]
  constructor
  · rintro ⟨hindex, hgenerated⟩
    exact ⟨hindex, hgenerated⟩
  · rintro ⟨hindex, hgenerated⟩
    exact ⟨hindex, hgenerated⟩

end

/-- A function with code at 14, then at 12 and 13. -/
def stepsBack : FunctionAddressMap where
  instructions := [⟨15, 0, 4⟩, ⟨13, 4, 4⟩, ⟨14, 8, 4⟩]
  startSrcloc := 11
  endSrcloc := 21
  bodyOffset := 0
  bodyLen := 12

/-- The lookup of that function. -/
def stepsBackLookup : FuncLookup where
  index := [(10, [0]), (12, [0, 1])]
  ranges := [⟨10, 14, 0, 4, [⟨14, 0, 4⟩]⟩, ⟨12, 20, 4, 12, [⟨12, 4, 8⟩, ⟨13, 8, 12⟩]⟩]

theorem build_stepsBack : buildFunctionLookup stepsBack 1 = some (10, 20, stepsBackLookup) := by rfl

/-- Its entries are complete. -/
theorem complete_stepsBack :
    (DistinctStarts (stepsBack.runs 1) ∧ stepsBack.InOrder 1) ∧
      stepsBackLookup.Complete .last stepsBack 1 := by
  have hdistinct : DistinctStarts (stepsBack.runs 1) := by
    unfold DistinctStarts
    decide
  have horder : stepsBack.InOrder 1 := by
    unfold FunctionAddressMap.InOrder
    decide
  exact ⟨⟨hdistinct, horder⟩, (complete_iff build_stepsBack .last).mpr ⟨hdistinct, horder⟩⟩

/-- With a second run from 12 on the first one is lost: no entry lists it at 12. -/
theorem not_complete_repeated : ∃ lookup, buildFunctionLookup repeated 1 = some (10, 20, lookup) ∧
    ∀ bs, ¬ lookup.Complete bs repeated 1 := by
  refine ⟨_, rfl, fun bs h => ?_⟩
  have hbuilt := @built_of_buildFunctionLookup repeated 1 10 20 _ rfl
  have hdistinct := (hbuilt.lists_iff bs).mp h.index
  rw [runs_repeated] at hdistinct
  unfold DistinctStarts at hdistinct
  exact absurd hdistinct (by decide)

end Wasmtime.Debug
