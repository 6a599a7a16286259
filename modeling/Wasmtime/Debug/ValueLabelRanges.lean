import Mathlib
import Wasmtime.Debug.RangeTermination
import Wasmtime.Lib.Fallible

/-!
# Ranges with the locations of labels

Model of `ValueLabelRangesBuilder` (`wasmtime-debug/src/transform/expression.rs`): the generated ranges of a
scope are cut at the ends of the live ranges of labels, and each piece is told where the labels are.

* `sort_unstable_by` leaves the order of ranges with one start open; `UnstableSort` is any function that sorts.
  What `binary_search_by` may return is `BinarySearch`.
* A `HashMap` of locations is the list of its entries, with one for each label. A `HashSet` is a list.
* `none` is a failed assertion, an index out of range, or a translation that does not come back.
* A live range is translated to ranges of generated code; `convert_to_code_range` drops their function.

The search for the first range of the scope takes whichever starts where the live range does. When an empty
range has been sorted behind one with the same start, the search may find the empty one, and the label is
nowhere in the other.

Results: `intersect_eq` (what a live range does to the ranges), `Traced.intersect` and `Traced.run` (one live
range, and any number), and the headline `processLabels_correct`.
-/

namespace Wasmtime.Debug

open Fallible (mapM_eq_some)

/-! ## Labels and locations -/

abbrev ValueLabel := Nat

/-- `ir::ValueLoc`. -/
inductive ValueLoc where
  | unassigned
  | reg (unit : Nat)
  | stack (slot : Nat)
  deriving DecidableEq, Repr

/-- `cranelift_codegen::ValueLocRange`. -/
structure ValueLocRange where
  loc : ValueLoc
  start : Nat
  stop : Nat
  deriving DecidableEq, Repr

/-- `FunctionFrameInfo`; a stack slot may have no offset. -/
structure FunctionFrameInfo where
  valueRanges : ValueLabel → Option (List ValueLocRange)
  memoryOffset : Int
  stackSlots : List (Option Int)

/-- `CachedValueLabelRange`. -/
structure CachedValueLabelRange where
  funcIndex : Nat
  start : Nat
  stop : Nat
  labelLocation : List (ValueLabel × ValueLoc)
  deriving DecidableEq, Repr

/-- `label_location.get`. -/
def CachedValueLabelRange.location (r : CachedValueLabelRange) (label : ValueLabel) : Option ValueLoc :=
  r.labelLocation.lookup label

/-- `label_location.insert`. -/
def CachedValueLabelRange.locate (r : CachedValueLabelRange) (label : ValueLabel) (loc : ValueLoc) :
    CachedValueLabelRange :=
  { r with labelLocation := (label, loc) :: r.labelLocation.filter fun e => e.1 != label }

/-- `sort_unstable_by` the starts. -/
structure UnstableSort where
  run : List CachedValueLabelRange → List CachedValueLabelRange
  perm (ranges : List CachedValueLabelRange) : (run ranges).Perm ranges
  sorted (ranges : List CachedValueLabelRange) : (run ranges).Pairwise fun r s => r.start ≤ s.start

/-- `ValueLabelRangesBuilder`, but for what it borrows. -/
structure ValueLabelRangesBuilder where
  ranges : List CachedValueLabelRange
  processedLabels : List ValueLabel
  deriving DecidableEq, Repr

/-! ## A live range -/

section

variable (label : ValueLabel) (loc : ValueLoc) (rangeStart rangeEnd : Nat)

/-- One round of the loop over `i..j`. -/
def intersectAt (ranges : List CachedValueLabelRange) (i : Nat) : Option (List CachedValueLabelRange) :=
  ranges[i]?.bind fun r =>
    if rangeEnd ≤ r.start ∨ r.stop ≤ rangeStart then some ranges
    else
      -- cutting some of the range from the end
      let cut := if rangeEnd < r.stop then { r with stop := rangeEnd } else r
      let ranges :=
        if rangeEnd < r.stop then (ranges.set i cut).insertIdx (i + 1) { r with start := rangeEnd } else ranges
      if ¬ cut.stop ≤ rangeEnd then none
      else if rangeStart ≤ cut.start then some (ranges.set i (cut.locate label loc))
      -- cutting some of the range from the start
      else some ((ranges.set i { cut with stop := rangeStart }).insertIdx (i + 1)
        ({ cut with start := rangeStart }.locate label loc))

variable (bs : BinarySearch)

/-- The first range to intersect with. -/
def firstIndex (ranges : List CachedValueLabelRange) : Option Nat :=
  match bs.run (ranges.map CachedValueLabelRange.start) rangeStart with
  | .ok i => some i
  | .error i =>
    if i > 0 then ranges[i - 1]?.map fun r => if rangeStart < r.stop then i - 1 else i else some i

/-- The range that is not to be intersected with any more. -/
def lastIndex (ranges : List CachedValueLabelRange) : Nat :=
  match bs.run (ranges.map CachedValueLabelRange.start) rangeEnd with
  | .ok i => i
  | .error i => i

/-- The body of the loop over the ranges that a live range is translated to. -/
def intersect (ranges : List CachedValueLabelRange) : Option (List CachedValueLabelRange) :=
  if rangeStart = rangeEnd then some ranges
  else if ¬ rangeStart < rangeEnd then none
  else
    (firstIndex rangeStart bs ranges).bind fun i =>
      (List.range' i (lastIndex rangeEnd bs ranges - i)).reverse.foldlM
        (intersectAt label loc rangeStart rangeEnd) ranges

end

/-! ## The builder -/

section

variable (bs : BinarySearch) (sort : UnstableSort) (fuel : Nat) (addrTr : AddressTransform)
  (frameInfo : Option FunctionFrameInfo)

/-- The ranges of one entry of a scope. -/
def scopeRanges (s : Nat × Nat) : Option (List CachedValueLabelRange) :=
  (addrTr.translateRangesRaw bs fuel s.1 s.2).map fun found => found.elim [] fun tr =>
    tr.2.map fun range => ⟨tr.1, range.1, range.2, []⟩

namespace ValueLabelRangesBuilder

/-- `ValueLabelRangesBuilder::new`. -/
def new (scope : List (Nat × Nat)) : Option ValueLabelRangesBuilder :=
  (scope.mapM (scopeRanges bs fuel addrTr)).map fun ranges => ⟨sort.run ranges.flatten, []⟩

/-- The loop body for one live range of a label. -/
def processRange (label : ValueLabel) (ranges : List CachedValueLabelRange) (localRange : ValueLocRange) :
    Option (List CachedValueLabelRange) :=
  (addrTr.translateRanges bs fuel localRange.start localRange.stop).bind fun codes =>
    codes.foldlM (fun ranges code =>
      intersect label localRange.loc code.2.1 (code.2.1 + code.2.2) bs ranges) ranges

/-- `process_label`. -/
def processLabel (b : ValueLabelRangesBuilder) (label : ValueLabel) : Option ValueLabelRangesBuilder :=
  if label ∈ b.processedLabels then some b
  else
    match frameInfo.bind fun info => info.valueRanges label with
    | none => some { b with processedLabels := label :: b.processedLabels }
    | some localRanges =>
      (localRanges.foldlM (processRange bs fuel addrTr label) b.ranges).map fun ranges =>
        ⟨ranges, label :: b.processedLabels⟩

/-- `remove_incomplete_ranges`. -/
def removeIncompleteRanges (b : ValueLabelRangesBuilder) : ValueLabelRangesBuilder :=
  { b with ranges := b.ranges.filter fun r => r.labelLocation.length == b.processedLabels.length }

/-- Calls of `process_label`. -/
def processLabels (b : ValueLabelRangesBuilder) (labels : List ValueLabel) : Option ValueLabelRangesBuilder :=
  labels.foldlM (processLabel bs fuel addrTr frameInfo) b

end ValueLabelRangesBuilder

end

/-! ## Cutting -/

/-- A live range in generated code. -/
structure Live where
  label : ValueLabel
  loc : ValueLoc
  funcIndex : Nat
  start : Nat
  stop : Nat
  deriving DecidableEq

/-- The live range and the range do not meet. -/
def Live.Misses (l : Live) (r : CachedValueLabelRange) : Prop := l.stop ≤ r.start ∨ r.stop ≤ l.start

/-- The range lies inside the live range; an empty one not at its edges. -/
def Live.Inside (l : Live) (r : CachedValueLabelRange) : Prop :=
  r.funcIndex = l.funcIndex ∧ l.start ≤ r.start ∧ r.stop ≤ l.stop ∧ l.start < r.stop ∧ r.start < l.stop

instance (l : Live) (r : CachedValueLabelRange) : Decidable (l.Misses r) :=
  inferInstanceAs (Decidable (_ ∨ _))

instance (l : Live) (r : CachedValueLabelRange) : Decidable (l.Inside r) :=
  inferInstanceAs (Decidable (_ ∧ _))

/-- The ranges follow one another. -/
structure Separate (ranges : List CachedValueLabelRange) : Prop where
  le : ∀ r ∈ ranges, r.start ≤ r.stop
  pairwise : ranges.Pairwise fun r s => r.stop ≤ s.start

/-- The pieces of a range that meets a live range. -/
def Live.cut (l : Live) (r : CachedValueLabelRange) : List CachedValueLabelRange :=
  if l.Misses r then [r]
  else (if r.start < l.start then [{ r with stop := l.start }] else []) ++
    { r with start := max r.start l.start, stop := min r.stop l.stop }.locate l.label l.loc ::
      if l.stop < r.stop then [{ r with start := l.stop }] else []

section

variable {l : Live} {r q : CachedValueLabelRange} {ranges : List CachedValueLabelRange}

theorem insertIdx_append {α : Type} (xs ys : List α) (x y : α) :
    (xs ++ x :: ys).insertIdx (xs.length + 1) y = xs ++ x :: y :: ys := by
  induction xs with
  | nil => rfl
  | cons z xs ih => simp [ih]

theorem set_append {α : Type} (xs ys : List α) (x y : α) :
    (xs ++ x :: ys).set xs.length y = xs ++ y :: ys := by
  rw [List.set_append_right xs.length y (Nat.le_refl _), Nat.sub_self, List.set_cons_zero]

/-- A round replaces a range by its pieces. -/
theorem intersectAt_append (l : Live) (xs ys : List CachedValueLabelRange) (r : CachedValueLabelRange) :
    intersectAt l.label l.loc l.start l.stop (xs ++ r :: ys) xs.length = some (xs ++ (l.cut r ++ ys)) := by
  rw [intersectAt, List.getElem?_append_right (Nat.le_refl _), Nat.sub_self, List.getElem?_cons_zero,
    Option.bind_some, Live.cut]
  by_cases hmiss : l.Misses r
  · have hmiss' : l.stop ≤ r.start ∨ r.stop ≤ l.start := hmiss
    rw [if_pos hmiss', if_pos hmiss]
    rfl
  · have hmeet : ¬ (l.stop ≤ r.start ∨ r.stop ≤ l.start) := hmiss
    rw [if_neg hmeet, if_neg hmiss]
    rw [not_or] at hmeet
    by_cases htail : l.stop < r.stop
    · simp only [if_pos htail, Nat.le_refl, not_true_eq_false, if_false]
      rw [set_append, insertIdx_append]
      by_cases hhead : l.start ≤ r.start
      · rw [if_pos hhead, set_append, if_neg (Nat.not_lt.mpr hhead), Nat.max_eq_left hhead,
          Nat.min_eq_right (Nat.le_of_lt htail)]
        rfl
      · rw [if_neg hhead, set_append, insertIdx_append, if_pos (Nat.lt_of_not_le hhead),
          Nat.max_eq_right (by omega), Nat.min_eq_right (Nat.le_of_lt htail)]
        rfl
    · simp only [if_neg htail]
      rw [if_neg (not_not_intro (Nat.le_of_not_lt htail))]
      by_cases hhead : l.start ≤ r.start
      · rw [if_pos hhead, set_append, if_neg (Nat.not_lt.mpr hhead), Nat.max_eq_left hhead,
          Nat.min_eq_left (Nat.le_of_not_lt htail)]
        rfl
      · rw [if_neg hhead, set_append, insertIdx_append, if_pos (Nat.lt_of_not_le hhead),
          Nat.max_eq_right (by omega), Nat.min_eq_left (Nat.le_of_not_lt htail)]
        rfl

/-- The loop cuts the ranges it goes through, from the last to the first. -/
theorem foldlM_intersectAt (l : Live) (xs ys zs : List CachedValueLabelRange) :
    (List.range' xs.length ys.length).reverse.foldlM (intersectAt l.label l.loc l.start l.stop)
      (xs ++ (ys ++ zs)) = some (xs ++ (ys.flatMap l.cut ++ zs)) := by
  induction ys using List.reverseRecOn generalizing zs with
  | nil => rfl
  | append_singleton ys r ih =>
    rw [List.length_append, List.length_singleton, List.range'_concat, List.reverse_append,
      List.reverse_singleton, List.singleton_append, List.foldlM_cons, Nat.one_mul, ← List.length_append,
      List.append_assoc, ← List.append_assoc, List.singleton_append, intersectAt_append l (xs ++ ys) zs r]
    show (List.range' xs.length ys.length).reverse.foldlM _ (xs ++ ys ++ (l.cut r ++ zs)) = _
    rw [List.append_assoc, ih, List.flatMap_append, List.flatMap_singleton, List.append_assoc]

theorem cut_of_misses (h : l.Misses r) : l.cut r = [r] := if_pos h

theorem flatMap_cut_of_misses (h : ∀ r ∈ ranges, l.Misses r) : ranges.flatMap l.cut = ranges := by
  rw [List.flatMap_congr fun r hr => cut_of_misses (h r hr)]
  exact List.flatMap_pure_eq_map id ranges |>.trans (List.map_id ranges)

/-- The ranges before the first index do not meet the live range. -/
theorem firstIndex_spec (bs : BinarySearch) (h : Separate ranges) :
    ∃ i, firstIndex l.start bs ranges = some i ∧ i ≤ ranges.length ∧ ∀ r ∈ ranges.take i, r.stop ≤ l.start := by
  have hkeys : (ranges.map CachedValueLabelRange.start).Pairwise (· ≤ ·) :=
    List.pairwise_map.mpr (h.pairwise.imp_of_mem fun hr _ hrs => (h.le _ hr).trans hrs)
  have hbefore {i : Nat} (hi : i < ranges.length) (r : CachedValueLabelRange) (hr : r ∈ ranges.take i) :
      r.stop ≤ ranges[i].start := by
    obtain ⟨m, hm, rfl⟩ := List.mem_take_iff_getElem.mp hr
    exact List.pairwise_iff_getElem.mp h.pairwise m i (by omega) hi (by omega)
  unfold firstIndex
  cases hrun : bs.run (ranges.map CachedValueLabelRange.start) l.start with
  | ok i =>
    have hget := bs.ok hkeys hrun
    rw [List.getElem?_map] at hget
    obtain ⟨r, hr, hstart⟩ := Option.map_eq_some_iff.mp hget
    obtain ⟨hi, rfl⟩ := List.getElem?_eq_some_iff.mp hr
    exact ⟨i, rfl, Nat.le_of_lt hi, fun q hq => hstart ▸ hbefore hi q hq⟩
  | error i =>
    obtain ⟨hlen, hbelow, -⟩ := bs.error hkeys hrun
    rw [List.length_map] at hlen
    by_cases hi : i > 0
    · have hlast : i - 1 < ranges.length := by omega
      have hlow : ranges[i - 1].start < l.start := by
        refine hbelow _ (List.mem_take_iff_getElem.mpr ⟨i - 1, ?_, by simp⟩)
        rw [List.length_map]
        omega
      have hprefix (q : CachedValueLabelRange) (hq : q ∈ ranges.take (i - 1)) : q.stop ≤ l.start :=
        (hbefore hlast q hq).trans (Nat.le_of_lt hlow)
      simp only [if_pos hi, List.getElem?_eq_getElem hlast, Option.map_some]
      by_cases hmeet : l.start < ranges[i - 1].stop
      · exact ⟨i - 1, by rw [if_pos hmeet], Nat.le_of_lt hlast, hprefix⟩
      · refine ⟨i, by rw [if_neg hmeet], hlen, fun q hq => ?_⟩
        obtain ⟨m, hm, rfl⟩ := List.mem_take_iff_getElem.mp hq
        obtain rfl | hlt : m = i - 1 ∨ m < i - 1 := by omega
        · exact Nat.le_of_not_lt hmeet
        · exact hprefix _ (List.mem_take_iff_getElem.mpr ⟨m, by omega, rfl⟩)
    · obtain rfl : i = 0 := by omega
      exact ⟨0, rfl, Nat.zero_le _, fun q hq => by cases hq⟩

/-- Nor do those from the last index on. -/
theorem lastIndex_spec (bs : BinarySearch) (h : Separate ranges) :
    lastIndex l.stop bs ranges ≤ ranges.length ∧
      ∀ r ∈ ranges.drop (lastIndex l.stop bs ranges), l.stop ≤ r.start := by
  have hkeys : (ranges.map CachedValueLabelRange.start).Pairwise (· ≤ ·) :=
    List.pairwise_map.mpr (h.pairwise.imp_of_mem fun hr _ hrs => (h.le _ hr).trans hrs)
  unfold lastIndex
  cases hrun : bs.run (ranges.map CachedValueLabelRange.start) l.stop with
  | ok i =>
    have hget := bs.ok hkeys hrun
    rw [List.getElem?_map] at hget
    obtain ⟨r, hr, hstart⟩ := Option.map_eq_some_iff.mp hget
    obtain ⟨hi, rfl⟩ := List.getElem?_eq_some_iff.mp hr
    refine ⟨Nat.le_of_lt hi, fun q hq => ?_⟩
    rw [List.drop_eq_getElem_cons hi] at hq
    rw [← hstart]
    rcases List.mem_cons.mp hq with rfl | hq
    · exact Nat.le_refl _
    · have hpair := h.pairwise.drop (i := i)
      rw [List.drop_eq_getElem_cons hi] at hpair
      exact (h.le _ (List.getElem_mem hi)).trans ((List.pairwise_cons.mp hpair).1 q hq)
  | error i =>
    obtain ⟨hlen, -, habove⟩ := bs.error hkeys hrun
    rw [List.length_map] at hlen
    refine ⟨hlen, fun q hq => Nat.le_of_lt (habove q.start ?_)⟩
    rw [← List.map_drop]
    exact List.mem_map_of_mem hq

/-- **A live range cuts every range that it meets.** -/
theorem intersect_eq (l : Live) (bs : BinarySearch) (h : Separate ranges) (hlt : l.start < l.stop) :
    intersect l.label l.loc l.start l.stop bs ranges = some (ranges.flatMap l.cut) := by
  obtain ⟨i, hi, hlen, hbefore⟩ := firstIndex_spec (l := l) bs h
  obtain ⟨hlast, hafter⟩ := lastIndex_spec (l := l) bs h
  rw [intersect, if_neg (Nat.ne_of_lt hlt), if_neg (not_not_intro hlt), hi, Option.bind_some]
  obtain ⟨n, hn⟩ : ∃ n, lastIndex l.stop bs ranges - i = n := ⟨_, rfl⟩
  have hxs : (ranges.take i).length = i := by rw [List.length_take, Nat.min_eq_left hlen]
  have hys : ((ranges.drop i).take n).length = n := by
    rw [List.length_take, List.length_drop]
    omega
  have hsplit : ranges = ranges.take i ++ ((ranges.drop i).take n ++ (ranges.drop i).drop n) := by
    rw [List.take_append_drop, List.take_append_drop]
  have hleft : (ranges.take i).flatMap l.cut = ranges.take i :=
    flatMap_cut_of_misses fun r hr => .inr (hbefore r hr)
  have hright : ((ranges.drop i).drop n).flatMap l.cut = (ranges.drop i).drop n := by
    refine flatMap_cut_of_misses fun r hr => .inl (hafter r ?_)
    rw [List.drop_drop] at hr
    exact (List.drop_sublist_drop_left _ (by omega)).subset hr
  have hloop := foldlM_intersectAt l (ranges.take i) ((ranges.drop i).take n) ((ranges.drop i).drop n)
  rw [hxs, hys, ← hsplit] at hloop
  rw [hn, hloop]
  congr 1
  conv_rhs => rw [hsplit, List.flatMap_append, List.flatMap_append, hleft, hright]

/-! ## The pieces of a range -/

theorem Live.Inside.not_misses (h : l.Inside r) : ¬ l.Misses r := by
  rintro (hle | hle)
  · exact absurd h.2.2.2.2 (Nat.not_lt.mpr hle)
  · exact absurd h.2.2.2.1 (Nat.not_lt.mpr hle)

/-- The piece that a live range locates its label in. -/
def Live.middle (l : Live) (r : CachedValueLabelRange) : CachedValueLabelRange :=
  { r with start := max r.start l.start, stop := min r.stop l.stop }.locate l.label l.loc

/-- A piece is the middle one, or has the locations of the range and does not meet the live range. -/
theorem mem_cut (hq : q ∈ l.cut r) :
    q.labelLocation = r.labelLocation ∧ l.Misses q ∨ q = l.middle r ∧ ¬ l.Misses r := by
  rw [Live.cut] at hq
  split at hq
  · next hmiss =>
    rw [List.mem_singleton.mp hq]
    exact .inl ⟨rfl, hmiss⟩
  · next hmeet =>
    rcases List.mem_append.mp hq with hq | hq
    · obtain ⟨-, hq⟩ := List.mem_ite_nil_right.mp hq
      rw [List.mem_singleton.mp hq]
      exact .inl ⟨rfl, .inr (Nat.le_refl _)⟩
    · rcases List.mem_cons.mp hq with rfl | hq
      · exact .inr ⟨rfl, hmeet⟩
      · obtain ⟨-, hq⟩ := List.mem_ite_nil_right.mp hq
        rw [List.mem_singleton.mp hq]
        exact .inl ⟨rfl, .inl (Nat.le_refl _)⟩

/-- A piece lies in its range, and is empty only when it is all of it. -/
theorem within_of_mem_cut (hle : r.start ≤ r.stop) (hlt : l.start < l.stop) (hq : q ∈ l.cut r) :
    q.funcIndex = r.funcIndex ∧ r.start ≤ q.start ∧ q.start ≤ q.stop ∧ q.stop ≤ r.stop ∧
      (q.start < q.stop ∨ q.start = r.start ∧ q.stop = r.stop) := by
  rw [Live.cut] at hq
  split at hq
  · rw [List.mem_singleton.mp hq]
    exact ⟨rfl, Nat.le_refl _, hle, Nat.le_refl _, .inr ⟨rfl, rfl⟩⟩
  · next hmeet =>
    rw [Live.Misses, not_or] at hmeet
    rcases List.mem_append.mp hq with hq | hq
    · obtain ⟨hhead, hq⟩ := List.mem_ite_nil_right.mp hq
      rw [List.mem_singleton.mp hq]
      exact ⟨rfl, Nat.le_refl _, Nat.le_of_lt hhead, by simp only; omega, .inl hhead⟩
    · rcases List.mem_cons.mp hq with rfl | hq
      · refine ⟨rfl, ?_⟩
        simp only [CachedValueLabelRange.locate]
        omega
      · obtain ⟨htail, hq⟩ := List.mem_ite_nil_right.mp hq
        rw [List.mem_singleton.mp hq]
        exact ⟨rfl, by simp only; omega, Nat.le_of_lt htail, Nat.le_refl _, .inl htail⟩

/-- The pieces of a range follow one another. -/
theorem pairwise_cut (hlt : l.start < l.stop) :
    (l.cut r).Pairwise fun p q => p.stop ≤ q.start := by
  rw [Live.cut]
  split
  · exact List.pairwise_singleton _ _
  · next hmeet =>
    rw [Live.Misses, not_or] at hmeet
    refine List.pairwise_append.mpr ⟨?_, List.pairwise_cons.mpr ⟨fun q hq => ?_, ?_⟩, fun p hp q hq => ?_⟩
    · split
      · exact List.pairwise_singleton _ _
      · exact List.Pairwise.nil
    · obtain ⟨htail, hq⟩ := List.mem_ite_nil_right.mp hq
      rw [List.mem_singleton.mp hq]
      exact Nat.min_le_right _ _
    · split
      · exact List.pairwise_singleton _ _
      · exact List.Pairwise.nil
    · obtain ⟨hhead, hp⟩ := List.mem_ite_nil_right.mp hp
      rw [List.mem_singleton.mp hp]
      rcases List.mem_cons.mp hq with rfl | hq
      · exact Nat.le_max_right _ _
      · obtain ⟨htail, hq⟩ := List.mem_ite_nil_right.mp hq
        rw [List.mem_singleton.mp hq]
        exact Nat.le_of_lt hlt

theorem Separate.cut (h : Separate ranges) (hlt : l.start < l.stop) : Separate (ranges.flatMap l.cut) where
  le q hq := by
    obtain ⟨r, hr, hq⟩ := List.mem_flatMap.mp hq
    exact (within_of_mem_cut (h.le r hr) hlt hq).2.2.1
  pairwise := by
    refine List.pairwise_flatMap.mpr ⟨fun r _ => pairwise_cut hlt, ?_⟩
    refine h.pairwise.imp_of_mem fun {r s} hr hs hrs p hp q hq => ?_
    have hp' := within_of_mem_cut (h.le r hr) hlt hp
    have hq' := within_of_mem_cut (h.le s hs) hlt hq
    omega

/-- The ranges cover an address of a function. -/
def Covers (ranges : List CachedValueLabelRange) (funcIndex address : Nat) : Prop :=
  ∃ r ∈ ranges, r.funcIndex = funcIndex ∧ r.start ≤ address ∧ address < r.stop

/-- The pieces cover what the range covers. -/
theorem covers_cut (funcIndex address : Nat) :
    Covers (l.cut r) funcIndex address ↔ Covers [r] funcIndex address := by
  rw [Live.cut]
  split
  · exact Iff.rfl
  · next hmeet =>
    rw [Live.Misses, not_or] at hmeet
    constructor
    · rintro ⟨q, hq, hfunc, hlow, hhigh⟩
      refine ⟨r, List.mem_singleton_self r, ?_⟩
      rcases List.mem_append.mp hq with hq | hq
      · obtain ⟨hhead, hq⟩ := List.mem_ite_nil_right.mp hq
        rw [List.mem_singleton.mp hq] at hfunc hlow hhigh
        exact ⟨hfunc, hlow, by simp only at hhigh; omega⟩
      · rcases List.mem_cons.mp hq with rfl | hq
        · simp only [CachedValueLabelRange.locate] at hfunc hlow hhigh
          exact ⟨hfunc, by omega, by omega⟩
        · obtain ⟨htail, hq⟩ := List.mem_ite_nil_right.mp hq
          rw [List.mem_singleton.mp hq] at hfunc hlow hhigh
          exact ⟨hfunc, by simp only at hlow; omega, hhigh⟩
    · rintro ⟨_, hmem, hfunc, hlow, hhigh⟩
      obtain rfl := List.mem_singleton.mp hmem
      by_cases hhead : address < l.start
      · refine ⟨_, List.mem_append_left _ (List.mem_ite_nil_right.mpr
          ⟨by omega, List.mem_singleton_self _⟩), hfunc, hlow, hhead⟩
      · by_cases htail : l.stop ≤ address
        · refine ⟨_, List.mem_append_right _ (List.mem_cons_of_mem _ (List.mem_ite_nil_right.mpr
            ⟨by omega, List.mem_singleton_self _⟩)), hfunc, htail, hhigh⟩
        · refine ⟨_, List.mem_append_right _ List.mem_cons_self, hfunc, ?_, ?_⟩
          · simp only [CachedValueLabelRange.locate]
            omega
          · simp only [CachedValueLabelRange.locate]
            omega

theorem covers_flatMap_cut (funcIndex address : Nat) :
    Covers (ranges.flatMap l.cut) funcIndex address ↔ Covers ranges funcIndex address := by
  constructor
  · rintro ⟨q, hq, h⟩
    obtain ⟨r, hr, hq⟩ := List.mem_flatMap.mp hq
    obtain ⟨r', hr', h'⟩ := (covers_cut funcIndex address).mp ⟨q, hq, h⟩
    exact ⟨r, hr, List.mem_singleton.mp hr' ▸ h'⟩
  · rintro ⟨r, hr, h⟩
    obtain ⟨q, hq, h'⟩ := (covers_cut funcIndex address).mpr ⟨r, List.mem_singleton_self r, h⟩
    exact ⟨q, List.mem_flatMap.mpr ⟨r, hr, hq⟩, h'⟩

/-! ## Where the labels are -/

theorem location_locate (label label' : ValueLabel) (loc : ValueLoc) :
    (r.locate label loc).location label' = if label' = label then some loc else r.location label' := by
  rw [CachedValueLabelRange.location, CachedValueLabelRange.locate, List.lookup_cons]
  by_cases heq : label' = label
  · rw [if_pos heq, beq_iff_eq.mpr heq]
  · rw [if_neg heq, beq_eq_false_iff_ne.mpr heq, CachedValueLabelRange.location]
    simp only
    induction r.labelLocation with
    | nil => rfl
    | cons e es ih =>
      obtain ⟨label'', loc''⟩ := e
      by_cases hdrop : label'' = label
      · subst hdrop
        rw [List.filter_cons_of_neg (by simp), List.lookup_cons, beq_eq_false_iff_ne.mpr heq]
        exact ih
      · rw [List.filter_cons_of_pos (by simpa using hdrop), List.lookup_cons, List.lookup_cons, ih]

/-- What holds once the live ranges of `done`, the last one first, have cut the initial ranges. -/
structure Traced (initial : List CachedValueLabelRange) (done : List Live)
    (ranges : List CachedValueLabelRange) : Prop where
  separate : Separate ranges
  within : ∀ r ∈ ranges, ∃ q ∈ initial, r.funcIndex = q.funcIndex ∧ q.start ≤ r.start ∧ r.stop ≤ q.stop
  covers : ∀ funcIndex address, Covers ranges funcIndex address ↔ Covers initial funcIndex address
  split : ∀ r ∈ ranges, ∀ l ∈ done, l.Misses r ∨ l.Inside r
  located : ∀ r ∈ ranges, ∀ label, r.location label =
    (done.find? fun l => decide (l.label = label ∧ l.Inside r)).map Live.loc
  keys : ∀ r ∈ ranges, (r.labelLocation.map Prod.fst).Nodup

theorem Live.Inside.mono {l' : Live} (hle : r.start ≤ r.stop) (hlt : l.start < l.stop) (hq : q ∈ l.cut r)
    (hsplit : l'.Misses r ∨ l'.Inside r) : l'.Inside q ↔ l'.Inside r := by
  obtain ⟨hfunc, hlow, hmid, hhigh, hempty⟩ := within_of_mem_cut hle hlt hq
  rcases hsplit with hmiss | hinside
  · refine iff_of_false (fun h => h.not_misses ?_) fun h => h.not_misses hmiss
    exact hmiss.imp hlow.trans' hhigh.trans
  · refine iff_of_true ?_ hinside
    obtain ⟨h₁, h₂, h₃, h₄, h₅⟩ := hinside
    exact ⟨hfunc.trans h₁, by omega, by omega, by omega, by omega⟩

/-- The middle piece lies inside, when the range is of the same function. -/
theorem inside_middle (hfunc : r.funcIndex = l.funcIndex) (hlt : l.start < l.stop)
    (hmeet : ¬ l.Misses r) : l.Inside (l.middle r) := by
  rw [Live.Misses, not_or] at hmeet
  refine ⟨hfunc, ?_⟩
  simp only [Live.middle, CachedValueLabelRange.locate]
  omega

/-- **One live range.** -/
theorem Traced.cut {initial : List CachedValueLabelRange} {done : List Live} (h : Traced initial done ranges)
    (hlt : l.start < l.stop) (hfunc : ∀ r ∈ initial, r.funcIndex ≠ l.funcIndex → l.Misses r) :
    Traced initial (l :: done) (ranges.flatMap l.cut) := by
  have hsame : ∀ r ∈ ranges, ¬ l.Misses r → r.funcIndex = l.funcIndex := fun r hr hmeet => by
    by_contra hne
    obtain ⟨q, hq, hfuncq, hlow, hhigh⟩ := h.within r hr
    exact hmeet ((hfunc q hq (hfuncq ▸ hne)).imp hlow.trans' hhigh.trans)
  have hpiece : ∀ q ∈ ranges.flatMap l.cut, ∃ r ∈ ranges, q ∈ l.cut r := fun q hq => List.mem_flatMap.mp hq
  refine ⟨h.separate.cut hlt, fun q hq => ?_, fun f x => ?_, fun q hq l' hl' => ?_, fun q hq label => ?_,
    fun q hq => ?_⟩
  · obtain ⟨r, hr, hq⟩ := hpiece q hq
    obtain ⟨q', hq', hfuncq, hlow, hhigh⟩ := h.within r hr
    have hin := within_of_mem_cut (h.separate.le r hr) hlt hq
    exact ⟨q', hq', hin.1.trans hfuncq, by omega, by omega⟩
  · rw [covers_flatMap_cut, h.covers]
  · obtain ⟨r, hr, hq⟩ := hpiece q hq
    have hle := h.separate.le r hr
    rcases List.mem_cons.mp hl' with rfl | hl'
    · rcases mem_cut hq with ⟨-, hmiss⟩ | ⟨rfl, hmeet⟩
      · exact .inl hmiss
      · exact .inr (inside_middle (hsame r hr hmeet) hlt hmeet)
    · have hin := within_of_mem_cut hle hlt hq
      refine (h.split r hr l' hl').imp (fun hmiss => ?_) fun hinside => ?_
      · exact hmiss.imp hin.2.1.trans' hin.2.2.2.1.trans
      · exact (Live.Inside.mono hle hlt hq (.inr hinside)).mpr hinside
  · obtain ⟨r, hr, hq⟩ := hpiece q hq
    have hle := h.separate.le r hr
    have hold : (done.find? fun l' => decide (l'.label = label ∧ l'.Inside q)) =
        done.find? fun l' => decide (l'.label = label ∧ l'.Inside r) := by
      refine List.find?_congr fun l' hl' => decide_eq_decide.mpr (and_congr_right fun _ => ?_)
      exact Live.Inside.mono hle hlt hq (h.split r hr l' hl')
    rw [List.find?_cons, hold]
    rcases mem_cut hq with ⟨hloc, hmiss⟩ | ⟨rfl, hmeet⟩
    · have hnot : decide (l.label = label ∧ l.Inside q) = false :=
        decide_eq_false fun hin => hin.2.not_misses hmiss
      rw [hnot, CachedValueLabelRange.location, hloc]
      exact h.located r hr label
    · have hin := inside_middle (hsame r hr hmeet) hlt hmeet
      rw [Live.middle, location_locate]
      by_cases heq : label = l.label
      · rw [if_pos heq, decide_eq_true ⟨heq.symm, hin⟩]
        rfl
      · rw [if_neg heq, decide_eq_false fun hin => heq hin.1.symm]
        exact h.located r hr label
  · obtain ⟨r, hr, hq⟩ := hpiece q hq
    rcases mem_cut hq with ⟨hloc, -⟩ | ⟨rfl, -⟩
    · rw [hloc]
      exact h.keys r hr
    · have hfilter := (h.keys r hr).sublist
        ((List.filter_sublist (p := fun e => e.1 != l.label) (l := r.labelLocation)).map Prod.fst)
      refine List.nodup_cons.mpr ⟨fun hmem => ?_, hfilter⟩
      obtain ⟨e, he, heq⟩ := List.mem_map.mp hmem
      have hne := (List.mem_filter.mp he).2
      rw [heq] at hne
      simp at hne

end

/-! ## Labels -/

/-- A range of generated code of a live range. -/
def liveOf (label : ValueLabel) (loc : ValueLoc) (code : Nat × Nat × Nat) : Live :=
  ⟨label, loc, code.1, code.2.1, code.2.1 + code.2.2⟩

section

variable (bs : BinarySearch) (fuel : Nat) (addrTr : AddressTransform) (frameInfo : Option FunctionFrameInfo)

/-- The live ranges of the labels, in generated code. -/
def IsLive (l : Live) : Prop :=
  ∃ localRanges, (frameInfo.bind fun info => info.valueRanges l.label) = some localRanges ∧
    ∃ localRange ∈ localRanges, ∃ codes,
      addrTr.translateRanges bs fuel localRange.start localRange.stop = some codes ∧
        ∃ code ∈ codes, l = liveOf l.label localRange.loc code

/-- What the ranges are to be, of the initial ones, once labels are processed. -/
structure Correct (initial : List CachedValueLabelRange) (b : ValueLabelRangesBuilder) : Prop where
  sorted : b.ranges.Pairwise fun r s => r.start ≤ s.start
  disjoint : b.ranges.Pairwise fun r s => r.stop ≤ s.start
  union : ∀ funcIndex address, Covers b.ranges funcIndex address ↔ Covers initial funcIndex address
  located : ∀ r ∈ b.ranges, ∀ label loc, r.location label = some loc →
    label ∈ b.processedLabels ∧ ∃ l, IsLive bs fuel addrTr frameInfo l ∧ l.label = label ∧ l.loc = loc ∧ l.Inside r
  inside : ∀ r ∈ b.ranges, ∀ l, IsLive bs fuel addrTr frameInfo l → l.label ∈ b.processedLabels →
    l.Inside r → (r.location l.label).isSome
  complete : ∀ r, r ∈ b.removeIncompleteRanges.ranges ↔
    r ∈ b.ranges ∧ ∀ label ∈ b.processedLabels, (r.location label).isSome

/-- The ranges of the scope follow one another, and no live range meets one of another function. -/
structure Orderly (initial : List CachedValueLabelRange) (labels : List ValueLabel) : Prop where
  separate : Separate initial
  function : ∀ l, IsLive bs fuel addrTr frameInfo l → l.label ∈ labels →
    ∀ r ∈ initial, r.funcIndex ≠ l.funcIndex → l.Misses r

end

section

variable {bs : BinarySearch} {fuel : Nat} {addrTr : AddressTransform} {frameInfo : Option FunctionFrameInfo}
  {initial ranges ranges' : List CachedValueLabelRange} {label : ValueLabel}

/-- The live ranges that have cut the initial ranges, and the pieces there are. -/
def Known (initial : List CachedValueLabelRange) (lives : Live → Prop)
    (ranges : List CachedValueLabelRange) : Prop :=
  ∃ done, Traced initial done ranges ∧ ∀ l, l ∈ done ↔ lives l ∧ l.start < l.stop

theorem Known.congr {lives lives' : Live → Prop} (h : Known initial lives ranges) (heq : ∀ l, lives l ↔ lives' l) :
    Known initial lives' ranges := by
  obtain ⟨done, htraced, hdone⟩ := h
  exact ⟨done, htraced, fun l => (hdone l).trans (and_congr_left fun _ => heq l)⟩

theorem Known.codes {lives : Live → Prop} (loc : ValueLoc) (codes : List (Nat × Nat × Nat))
    (h : Known initial lives ranges)
    (hfunc : ∀ code ∈ codes, ∀ r ∈ initial, r.funcIndex ≠ code.1 → (liveOf label loc code).Misses r)
    (hrun : codes.foldlM (fun ranges code =>
      intersect label loc code.2.1 (code.2.1 + code.2.2) bs ranges) ranges = some ranges') :
    Known initial (fun l => lives l ∨ ∃ code ∈ codes, l = liveOf label loc code) ranges' := by
  induction codes generalizing ranges lives with
  | nil =>
    obtain rfl := Option.some.inj hrun
    exact h.congr fun l => by simp only [List.not_mem_nil, false_and, exists_false, or_false]
  | cons code codes ih =>
    rw [List.foldlM_cons] at hrun
    obtain ⟨ranges₁, hstep, hrun⟩ := Option.bind_eq_some_iff.mp hrun
    obtain ⟨done, htraced, hdone⟩ := h
    have hnext : Known initial (fun l => lives l ∨ l = liveOf label loc code) ranges₁ := by
      by_cases hlt : code.2.1 < code.2.1 + code.2.2
      · have hcut := intersect_eq (liveOf label loc code) bs htraced.separate hlt
        obtain rfl := Option.some.inj (hcut.symm.trans hstep)
        refine ⟨_, htraced.cut hlt (hfunc code List.mem_cons_self), fun l => ?_⟩
        rw [List.mem_cons, hdone]
        constructor
        · rintro (rfl | ⟨hl, hle⟩)
          · exact ⟨.inr rfl, hlt⟩
          · exact ⟨.inl hl, hle⟩
        · rintro ⟨hl | rfl, hle⟩
          · exact .inr ⟨hl, hle⟩
          · exact .inl rfl
      · -- an empty range is ignored
        rw [intersect, if_pos (by omega)] at hstep
        obtain rfl := Option.some.inj hstep
        refine ⟨done, htraced, fun l => (hdone l).trans (and_congr_left fun hl => ?_)⟩
        refine ⟨.inl, fun h => h.resolve_right ?_⟩
        rintro rfl
        exact hlt hl
    have hrest := ih hnext (fun code' hcode' => hfunc code' (List.mem_cons_of_mem code hcode')) hrun
    exact hrest.congr fun l => by simp only [List.exists_mem_cons_iff, or_assoc]

theorem Known.localRanges {lives : Live → Prop} (localRanges : List ValueLocRange)
    (h : Known initial lives ranges)
    (hfunc : ∀ localRange ∈ localRanges, ∀ codes,
      addrTr.translateRanges bs fuel localRange.start localRange.stop = some codes →
        ∀ code ∈ codes, ∀ r ∈ initial, r.funcIndex ≠ code.1 → (liveOf label localRange.loc code).Misses r)
    (hrun : localRanges.foldlM (ValueLabelRangesBuilder.processRange bs fuel addrTr label) ranges =
      some ranges') :
    Known initial (fun l => lives l ∨ ∃ localRange ∈ localRanges, ∃ codes,
      addrTr.translateRanges bs fuel localRange.start localRange.stop = some codes ∧
        ∃ code ∈ codes, l = liveOf label localRange.loc code) ranges' := by
  induction localRanges generalizing ranges lives with
  | nil =>
    obtain rfl := Option.some.inj hrun
    exact h.congr fun l => by simp only [List.not_mem_nil, false_and, exists_false, or_false]
  | cons localRange localRanges ih =>
    rw [List.foldlM_cons] at hrun
    obtain ⟨ranges₁, hstep, hrun⟩ := Option.bind_eq_some_iff.mp hrun
    obtain ⟨codes, hcodes, hstep⟩ := Option.bind_eq_some_iff.mp hstep
    have hnext := h.codes localRange.loc codes (hfunc localRange List.mem_cons_self codes hcodes) hstep
    have hrest := ih hnext (fun q hq => hfunc q (List.mem_cons_of_mem localRange hq)) hrun
    exact hrest.congr fun l => by
      simp only [List.exists_mem_cons_iff, or_assoc, hcodes, Option.some.injEq, exists_eq_left']

/-- What holds of the builder between calls. -/
structure Processed (bs : BinarySearch) (fuel : Nat) (addrTr : AddressTransform)
    (frameInfo : Option FunctionFrameInfo) (initial : List CachedValueLabelRange)
    (b : ValueLabelRangesBuilder) : Prop where
  known : Known initial (fun l => IsLive bs fuel addrTr frameInfo l ∧ l.label ∈ b.processedLabels) b.ranges
  nodup : b.processedLabels.Nodup

theorem isLive_iff (l : Live) (label : ValueLabel) :
    IsLive bs fuel addrTr frameInfo l ∧ l.label = label ↔
      ∃ localRanges, (frameInfo.bind fun info => info.valueRanges label) = some localRanges ∧
        ∃ localRange ∈ localRanges, ∃ codes,
          addrTr.translateRanges bs fuel localRange.start localRange.stop = some codes ∧
            ∃ code ∈ codes, l = liveOf label localRange.loc code := by
  constructor
  · rintro ⟨hl, rfl⟩
    exact hl
  · rintro ⟨localRanges, hranges, localRange, hmem, codes, hcodes, code, hcode, rfl⟩
    exact ⟨⟨localRanges, hranges, localRange, hmem, codes, hcodes, code, hcode, rfl⟩, rfl⟩

/-- **One label.** -/
theorem Processed.processLabel {b b' : ValueLabelRangesBuilder}
    (h : Processed bs fuel addrTr frameInfo initial b)
    (hfunc : ∀ l, IsLive bs fuel addrTr frameInfo l → l.label = label →
      ∀ r ∈ initial, r.funcIndex ≠ l.funcIndex → l.Misses r)
    (hrun : b.processLabel bs fuel addrTr frameInfo label = some b') :
    Processed bs fuel addrTr frameInfo initial b' ∧
      ∀ label', label' ∈ b'.processedLabels ↔ label' ∈ b.processedLabels ∨ label' = label := by
  rw [ValueLabelRangesBuilder.processLabel] at hrun
  split at hrun
  · next hmem =>
    obtain rfl := Option.some.inj hrun
    refine ⟨h, fun label' => (or_iff_left_of_imp ?_).symm⟩
    rintro rfl
    exact hmem
  · next hnew =>
    have hlabels (label' : ValueLabel) :
        label' ∈ label :: b.processedLabels ↔ label' ∈ b.processedLabels ∨ label' = label := by
      rw [List.mem_cons, or_comm]
    cases hranges : frameInfo.bind fun info => info.valueRanges label with
    | none =>
      rw [hranges] at hrun
      obtain rfl := Option.some.inj hrun
      refine ⟨⟨h.known.congr fun l => ?_, List.nodup_cons.mpr ⟨hnew, h.nodup⟩⟩, hlabels⟩
      rw [hlabels, and_or_left]
      refine (or_iff_left fun hlive => ?_).symm
      obtain ⟨localRanges, hsome, -⟩ := (isLive_iff l label).mp hlive
      rw [hranges] at hsome
      cases hsome
    | some localRanges =>
      rw [hranges] at hrun
      obtain ⟨ranges, hfold, rfl⟩ := Option.map_eq_some_iff.mp hrun
      have hlive (l : Live) : IsLive bs fuel addrTr frameInfo l ∧ l.label = label ↔
          ∃ localRange ∈ localRanges, ∃ codes,
            addrTr.translateRanges bs fuel localRange.start localRange.stop = some codes ∧
              ∃ code ∈ codes, l = liveOf label localRange.loc code := by
        rw [isLive_iff, hranges]
        simp only [Option.some.injEq, exists_eq_left']
      have hknown := h.known.localRanges localRanges (fun q hq codes hcodes code hcode =>
        (hfunc _ ((hlive _).mpr ⟨q, hq, codes, hcodes, code, hcode, rfl⟩).1 rfl)) hfold
      refine ⟨⟨hknown.congr fun l => ?_, List.nodup_cons.mpr ⟨hnew, h.nodup⟩⟩, hlabels⟩
      rw [hlabels, and_or_left, hlive]

/-- **Any number of labels.** -/
theorem Processed.processLabels {b b' : ValueLabelRangesBuilder} (labels : List ValueLabel)
    (h : Processed bs fuel addrTr frameInfo initial b)
    (hfunc : ∀ l, IsLive bs fuel addrTr frameInfo l → l.label ∈ labels →
      ∀ r ∈ initial, r.funcIndex ≠ l.funcIndex → l.Misses r)
    (hrun : b.processLabels bs fuel addrTr frameInfo labels = some b') :
    Processed bs fuel addrTr frameInfo initial b' ∧
      ∀ label, label ∈ b'.processedLabels ↔ label ∈ b.processedLabels ∨ label ∈ labels := by
  induction labels generalizing b with
  | nil =>
    obtain rfl := Option.some.inj hrun
    exact ⟨h, by simp⟩
  | cons label labels ih =>
    rw [ValueLabelRangesBuilder.processLabels, List.foldlM_cons] at hrun
    obtain ⟨b₁, hstep, hrun⟩ := Option.bind_eq_some_iff.mp hrun
    obtain ⟨h₁, hlabels₁⟩ := h.processLabel
      (fun l hl heq => hfunc l hl (heq ▸ List.mem_cons_self)) hstep
    obtain ⟨h', hlabels'⟩ := ih h₁ (fun l hl hmem => hfunc l hl (List.mem_cons_of_mem label hmem)) hrun
    refine ⟨h', fun label' => ?_⟩
    rw [hlabels', hlabels₁, List.mem_cons, or_assoc]

/-- A piece has a location for every label exactly when it has as many as there are labels. -/
theorem length_labelLocation {r : CachedValueLabelRange} {labels : List ValueLabel} (hlabels : labels.Nodup)
    (hkeys : (r.labelLocation.map Prod.fst).Nodup)
    (hsub : ∀ label loc, r.location label = some loc → label ∈ labels) :
    r.labelLocation.length = labels.length ↔ ∀ label ∈ labels, (r.location label).isSome := by
  have hmem (label : ValueLabel) :
      (r.location label).isSome ↔ label ∈ r.labelLocation.map Prod.fst := by
    rw [CachedValueLabelRange.location, List.lookup_isSome_iff, List.mem_map]
    exact exists_congr fun e => and_congr_right fun _ => beq_iff_eq.trans eq_comm
  have hsubset : r.labelLocation.map Prod.fst ⊆ labels := fun label hlabel => by
    obtain ⟨loc, hloc⟩ := Option.isSome_iff_exists.mp ((hmem label).mpr hlabel)
    exact hsub label loc hloc
  have hsubperm := List.subperm_of_subset hkeys hsubset
  have hlength : (r.labelLocation.map Prod.fst).length = r.labelLocation.length := List.length_map _
  rw [← hlength]
  constructor
  · intro hlen label hlabel
    exact (hmem label).mpr ((hsubperm.perm_of_length_le (Nat.le_of_eq hlen.symm)).mem_iff.mpr hlabel)
  · intro hall
    refine Nat.le_antisymm hsubperm.length_le ?_
    exact (List.subperm_of_subset hlabels fun label hlabel => (hmem label).mp (hall label hlabel)).length_le

theorem Processed.correct {b : ValueLabelRangesBuilder} (h : Processed bs fuel addrTr frameInfo initial b) :
    Correct bs fuel addrTr frameInfo initial b := by
  obtain ⟨⟨done, htraced, hdone⟩, hnodup⟩ := h
  have hlocated : ∀ r ∈ b.ranges, ∀ label loc, r.location label = some loc →
      label ∈ b.processedLabels ∧
        ∃ l, IsLive bs fuel addrTr frameInfo l ∧ l.label = label ∧ l.loc = loc ∧ l.Inside r := by
    intro r hr label loc hloc
    rw [htraced.located r hr label] at hloc
    obtain ⟨l, hfind, rfl⟩ := Option.map_eq_some_iff.mp hloc
    have hl := List.find?_some hfind
    obtain ⟨rfl, hinside⟩ := of_decide_eq_true hl
    obtain ⟨⟨hlive, hmem⟩, -⟩ := (hdone l).mp (List.mem_of_find?_eq_some hfind)
    exact ⟨hmem, l, hlive, rfl, rfl, hinside⟩
  refine ⟨?_, htraced.separate.pairwise, htraced.covers, hlocated, fun r hr l hlive hmem hinside => ?_,
    fun r => ?_⟩
  · exact htraced.separate.pairwise.imp_of_mem fun hr _ hrs => (htraced.separate.le _ hr).trans hrs
  · rw [htraced.located r hr l.label, Option.isSome_map, List.find?_isSome]
    have hlt : l.start < l.stop := by
      have := htraced.separate.le r hr
      obtain ⟨-, h₁, h₂, h₃, h₄⟩ := hinside
      omega
    exact ⟨l, (hdone l).mpr ⟨⟨hlive, hmem⟩, hlt⟩, decide_eq_true ⟨rfl, hinside⟩⟩
  · rw [ValueLabelRangesBuilder.removeIncompleteRanges, List.mem_filter, beq_iff_eq]
    exact and_congr_right fun hr => length_labelLocation hnodup (htraced.keys r hr)
      fun label loc hloc => (hlocated r hr label loc hloc).1

/-- The ranges of a scope have no locations yet. -/
theorem labelLocation_new {sort : UnstableSort} {scope : List (Nat × Nat)} {b : ValueLabelRangesBuilder}
    (h : ValueLabelRangesBuilder.new bs sort fuel addrTr scope = some b) :
    b.processedLabels = [] ∧ ∀ r ∈ b.ranges, r.labelLocation = [] := by
  obtain ⟨ranges, hranges, rfl⟩ := Option.map_eq_some_iff.mp h
  refine ⟨rfl, fun r hr => ?_⟩
  obtain ⟨rs, hrs, hr⟩ := List.mem_flatten.mp ((sort.perm _).mem_iff.mp hr)
  have hmem : some rs ∈ ranges.map some := List.mem_map_of_mem hrs
  rw [← mapM_eq_some.mp hranges] at hmem
  obtain ⟨s, -, hs⟩ := List.mem_map.mp hmem
  obtain ⟨found, -, rfl⟩ := Option.map_eq_some_iff.mp hs
  cases found with
  | none => cases hr
  | some tr =>
    obtain ⟨range, -, rfl⟩ := List.mem_map.mp hr
    rfl

/-- **Ranges that follow one another stay so, cover what they covered, and carry the locations of the live
ranges they lie in.** -/
theorem processLabels_correct {sort : UnstableSort} {scope : List (Nat × Nat)} {labels : List ValueLabel}
    {b₀ b : ValueLabelRangesBuilder} (hnew : ValueLabelRangesBuilder.new bs sort fuel addrTr scope = some b₀)
    (horderly : Orderly bs fuel addrTr frameInfo b₀.ranges labels)
    (hrun : b₀.processLabels bs fuel addrTr frameInfo labels = some b) :
    Correct bs fuel addrTr frameInfo b₀.ranges b ∧ ∀ label, label ∈ b.processedLabels ↔ label ∈ labels := by
  obtain ⟨hnone, hempty⟩ := labelLocation_new hnew
  have hinit : Processed bs fuel addrTr frameInfo b₀.ranges b₀ := by
    refine ⟨⟨[], ⟨horderly.separate, fun r hr => ⟨r, hr, rfl, Nat.le_refl _, Nat.le_refl _⟩,
      fun _ _ => Iff.rfl, fun _ _ l hl => (by cases hl), fun r hr label => ?_, fun r hr => ?_⟩, fun l => ?_⟩, ?_⟩
    · rw [CachedValueLabelRange.location, hempty r hr]
      rfl
    · rw [hempty r hr]
      exact List.nodup_nil
    · simp [hnone]
    · rw [hnone]
      exact List.nodup_nil
  obtain ⟨hprocessed, hlabels⟩ := hinit.processLabels labels horderly.function hrun
  refine ⟨hprocessed.correct, fun label => ?_⟩
  rw [hlabels, hnone]
  simp

end

/-- A sort that keeps the order of ranges with one start. -/
def UnstableSort.stable : UnstableSort where
  run := List.insertionSort fun r s => r.start ≤ s.start
  perm ranges := List.perm_insertionSort _ ranges
  sorted ranges := List.pairwise_insertionSort (fun r s : CachedValueLabelRange => r.start ≤ s.start) ranges

/-- A function with code at 13, then at 12. -/
def descending : FunctionAddressMap where
  instructions := [⟨14, 0, 4⟩, ⟨13, 4, 4⟩]
  startSrcloc := 11
  endSrcloc := 21
  bodyOffset := 0
  bodyLen := 8

def descendingTransform : AddressTransform where
  map := buildFunctionAddrMap [descending] 1
  func := [(10, ⟨10, 20, 0, ⟨[(10, [0]), (12, [0, 1])],
    [⟨10, 13, 0, 4, [⟨13, 0, 4⟩]⟩, ⟨12, 20, 4, 8, [⟨12, 4, 8⟩]⟩]⟩⟩)]

theorem new_descending : AddressTransform.new [descending] 1 = some descendingTransform := by rfl

/-- Label 0 is in a register from 12 to 13. -/
def descendingInfo : FunctionFrameInfo where
  valueRanges label := if label = 0 then some [⟨.reg 0, 12, 13⟩] else none
  memoryOffset := 0
  stackSlots := []

theorem translateRanges_descending :
    descendingTransform.translateRanges .last 10 12 13 = some [(0, 0, 4), (0, 4, 4)] := by rfl

theorem orderly_descending : Orderly .last 10 descendingTransform (some descendingInfo)
    [⟨0, 0, 4, []⟩, ⟨0, 4, 8, []⟩] [0] where
  separate := ⟨by decide, by decide⟩
  function l hlive hlabel r hr hne := by
    exfalso
    obtain ⟨localRanges, hranges, localRange, hmem, codes, hcodes, code, hcode, hl⟩ := hlive
    rw [List.mem_singleton.mp hlabel] at hranges
    obtain rfl := Option.some.inj hranges
    obtain rfl := List.mem_singleton.mp hmem
    obtain rfl := Option.some.inj (translateRanges_descending.symm.trans hcodes)
    have hr₀ : r.funcIndex = 0 := by
      rcases List.mem_cons.mp hr with rfl | hr
      · rfl
      · rw [List.mem_singleton.mp hr]
    have hl₀ : l.funcIndex = 0 := by
      rw [hl]
      rcases List.mem_cons.mp hcode with rfl | hcode
      · rfl
      · rw [List.mem_singleton.mp hcode]
        rfl
    exact hne (hr₀.trans hl₀.symm)

/-- In the scope from 11 to 13 both runs have the label. -/
theorem processLabels_descending :
    ValueLabelRangesBuilder.new .last .stable 10 descendingTransform [(11, 13)] =
        some ⟨[⟨0, 0, 4, []⟩, ⟨0, 4, 8, []⟩], []⟩ ∧
      Correct .last 10 descendingTransform (some descendingInfo) [⟨0, 0, 4, []⟩, ⟨0, 4, 8, []⟩]
        ⟨[⟨0, 0, 4, [(0, .reg 0)]⟩, ⟨0, 4, 8, [(0, .reg 0)]⟩], [0]⟩ := by
  have hnew : ValueLabelRangesBuilder.new .last .stable 10 descendingTransform [(11, 13)] =
      some ⟨[⟨0, 0, 4, []⟩, ⟨0, 4, 8, []⟩], []⟩ := by rfl
  exact ⟨hnew, (processLabels_correct hnew orderly_descending (by rfl)).1⟩

/-- With the addresses from 15 to 16 in the scope, where no code is, the second run does not have it. -/
theorem not_correct_descending :
    ValueLabelRangesBuilder.new .last .stable 10 descendingTransform [(11, 13), (15, 16)] =
        some ⟨[⟨0, 0, 4, []⟩, ⟨0, 4, 8, []⟩, ⟨0, 4, 4, []⟩, ⟨0, 8, 8, []⟩], []⟩ ∧
      ∃ b, ValueLabelRangesBuilder.processLabels .last 10 descendingTransform (some descendingInfo)
          ⟨[⟨0, 0, 4, []⟩, ⟨0, 4, 8, []⟩, ⟨0, 4, 4, []⟩, ⟨0, 8, 8, []⟩], []⟩ [0] = some b ∧
        ¬ Correct .last 10 descendingTransform (some descendingInfo)
          [⟨0, 0, 4, []⟩, ⟨0, 4, 8, []⟩, ⟨0, 4, 4, []⟩, ⟨0, 8, 8, []⟩] b := by
  refine ⟨by rfl, ⟨[⟨0, 0, 4, [(0, .reg 0)]⟩, ⟨0, 4, 8, []⟩, ⟨0, 4, 4, []⟩, ⟨0, 8, 8, []⟩], [0]⟩,
    by rfl, fun h => ?_⟩
  have hlive : IsLive .last 10 descendingTransform (some descendingInfo) ⟨0, .reg 0, 0, 4, 8⟩ :=
    ⟨_, rfl, _, List.mem_singleton_self _, _, translateRanges_descending, (0, 4, 4), by simp, rfl⟩
  have hsome := h.inside ⟨0, 4, 8, []⟩ (by decide) _ hlive (by decide) (by decide)
  cases hsome

end Wasmtime.Debug
