import Mathlib
import Wasmtime.Debug.LookupIndex

/-!
# Which function an address is attributed to

`find_func`, `find_func_index` and `translate_raw` (`wasmtime-debug/src/transform/address_transform.rs`), for any
address map of a module and any wasm address.

The search takes the function that starts last at or before the address. Of functions with one start the last
one in the module takes the place of the others. Where a function ends is not looked at, except that its last
address is clamped to the length of its body.

`none` stands for a call that does not return, as in `translateRangesRaw`.

Results:
* `findFunc_sound`, `findFunc_complete`: the function found is the one that starts last.
* `attributed_iff`: what is returned for an address is right exactly when the function that starts last before
  it reaches up to it, and, where that function ends there, the length of its body lies in its body.
-/

namespace Wasmtime.Debug

/-! ## `find_func_index` and `translate_raw` -/

section

variable (bs : BinarySearch)

/-- `find_func_index`. -/
def AddressTransform.findFuncIndex (t : AddressTransform) (addr : Nat) : Option Nat :=
  (t.findFunc bs addr).map FuncTransform.index

/-- What the first `next` of the iterator yields, the address only. -/
def FuncTransform.firstAddress (func : FuncTransform) (addr : Nat) : Option (Option Nat) :=
  (func.active bs addr).bind fun indices =>
    (TransformRangeIter.items bs func.lookup.ranges addr (indices.take 1)).map fun items =>
      items.head?.map Prod.snd

/-- `translate_raw`. -/
def AddressTransform.translateRaw (t : AddressTransform) (addr : Nat) : Option (Option (Nat × Nat)) :=
  if addr = 0 then some none
  else match t.findFunc bs addr with
    | none => some none
    | some func =>
      -- the last address, clamped
      if addr = func.stop then t.map[func.index]?.map fun map => some (func.index, map.len)
      else (func.firstAddress bs addr).map fun first => first.map fun address => (func.index, address)

end

/-! ## The function that starts last -/

/-- Function `i` starts at or before the address, and after every other one that does, or at the same
address but later in the module. -/
structure StartsLast (functions : List FunctionAddressMap) (codeSectionOffset : UInt64)
    (addr i : Nat) (ft : FunctionAddressMap) : Prop where
  get : functions[i]? = some ft
  start : ft.fnStart codeSectionOffset ≤ addr
  last : ∀ (j : Nat) (g : FunctionAddressMap), functions[j]? = some g →
    g.fnStart codeSectionOffset ≤ addr →
      g.fnStart codeSectionOffset < ft.fnStart codeSectionOffset ∨
        g.fnStart codeSectionOffset = ft.fnStart codeSectionOffset ∧ j ≤ i

/-- The functions that have been inserted: under every start, the last of those that start there. -/
structure Latest (codeSectionOffset : UInt64) (done : List (FunctionAddressMap × Nat))
    (func : Std.TreeMap Nat FuncTransform) : Prop where
  sound : ∀ (k : Nat) (f : FuncTransform), func[k]? = some f →
    ∃ e ∈ done, Entry codeSectionOffset e f ∧ f.start = k ∧
      ∀ d ∈ done, d.1.fnStart codeSectionOffset = k → d.2 ≤ e.2
  complete : ∀ e ∈ done, ∃ f, func[e.1.fnStart codeSectionOffset]? = some f

section

variable {codeSectionOffset : UInt64}

theorem Latest.insert {func func' : Std.TreeMap Nat FuncTransform}
    {done : List (FunctionAddressMap × Nat)} {e : FunctionAddressMap × Nat}
    (h : Latest codeSectionOffset done func) (hlater : ∀ d ∈ done, d.2 ≤ e.2)
    (hinsert : AddressTransform.insert codeSectionOffset func e = some func') :
    Latest codeSectionOffset (done ++ [e]) func' := by
  obtain ⟨f, hf, rfl⟩ := insert_entry hinsert
  refine ⟨fun k g hg => ?_, fun d hd => ?_⟩
  · rw [Std.TreeMap.getElem?_insert] at hg
    by_cases hk : f.start = k
    · -- the new function takes the place of what started there
      obtain rfl : f = g := by simpa [hk] using hg
      refine ⟨e, by simp, hf, hk, fun d hd _ => ?_⟩
      rcases List.mem_append.mp hd with hd | hd
      · exact hlater d hd
      · rw [List.mem_singleton.mp hd]
    · obtain ⟨d, hd, hentry, hstart, hmax⟩ := h.sound k g (by simpa [hk] using hg)
      refine ⟨d, List.mem_append_left _ hd, hentry, hstart, fun d' hd' hk' => ?_⟩
      rcases List.mem_append.mp hd' with hd' | hd'
      · exact hmax d' hd' hk'
      · obtain rfl := List.mem_singleton.mp hd'
        exact absurd (hf.start.trans hk') hk
  · rw [Std.TreeMap.getElem?_insert]
    by_cases hk : f.start = d.1.fnStart codeSectionOffset
    · exact ⟨f, by simp [hk]⟩
    · rcases List.mem_append.mp hd with hd | hd
      · obtain ⟨g, hg⟩ := h.complete d hd
        exact ⟨g, by simpa [hk] using hg⟩
      · obtain rfl := List.mem_singleton.mp hd
        exact absurd hf.start hk

theorem Latest.foldlM {entries done : List (FunctionAddressMap × Nat)}
    {func func' : Std.TreeMap Nat FuncTransform} (h : Latest codeSectionOffset done func)
    (hsorted : (done ++ entries).Pairwise fun a b => a.2 < b.2)
    (hfold : entries.foldlM (AddressTransform.insert codeSectionOffset) func = some func') :
    Latest codeSectionOffset (done ++ entries) func' := by
  induction entries generalizing done func with
  | nil =>
    obtain rfl := Option.some.inj hfold
    simpa using h
  | cons e entries ih =>
    rw [List.foldlM_cons] at hfold
    obtain ⟨func₁, hinsert, hfold⟩ := Option.bind_eq_some_iff.mp hfold
    have hsplit : done ++ e :: entries = (done ++ [e]) ++ entries := by simp
    rw [hsplit] at hsorted ⊢
    have hdone := (List.pairwise_append.mp (List.pairwise_append.mp hsorted).1).2.2
    refine ih (h.insert (fun d hd => ?_) hinsert) hsorted hfold
    exact Nat.le_of_lt (hdone d hd e (List.mem_singleton_self e))

variable {functions : List FunctionAddressMap} {t : AddressTransform} {addr i j : Nat}
  {ft ft' : FunctionAddressMap}

theorem StartsLast.unique (h : StartsLast functions codeSectionOffset addr i ft)
    (h' : StartsLast functions codeSectionOffset addr j ft') : i = j ∧ ft = ft' := by
  have h₁ := h.last j ft' h'.get h'.start
  have h₂ := h'.last i ft h.get h.start
  obtain rfl : i = j := by omega
  exact ⟨rfl, Option.some.inj (h.get.symm.trans h'.get)⟩

/-- The functions of a module, after all have been inserted. -/
theorem latest_of_new (hnew : AddressTransform.new functions codeSectionOffset = some t) :
    ∃ func, Latest codeSectionOffset functions.zipIdx func ∧
      t = ⟨buildFunctionAddrMap functions codeSectionOffset, func.toList⟩ := by
  obtain ⟨func, hfold, rfl⟩ := Option.map_eq_some_iff.mp hnew
  have hsorted : functions.zipIdx.Pairwise fun a b => a.2 < b.2 := by
    refine List.pairwise_map.mp ?_
    rw [List.zipIdx_map_snd]
    exact List.pairwise_lt_range'
  have hempty : Latest codeSectionOffset [] ∅ := ⟨by simp, by simp⟩
  exact ⟨func, hempty.foldlM hsorted hfold, rfl⟩

theorem floorEntry_mem {bs : BinarySearch} {α : Type} {entries : List (Nat × α)} {e : Nat × α}
    (h : floorEntry bs entries addr = some e) : e ∈ entries := by
  unfold floorEntry at h
  split at h
  · exact List.mem_of_getElem? h
  · exact List.mem_of_getElem? (Option.ite_none_right_eq_some.mp h).2

/-- The function found is the one that starts last. -/
theorem findFunc_sound {bs : BinarySearch} {func : FuncTransform}
    (hnew : AddressTransform.new functions codeSectionOffset = some t)
    (h : t.findFunc bs addr = some func) :
    ∃ ft, StartsLast functions codeSectionOffset addr func.index ft ∧
      Entry codeSectionOffset (ft, func.index) func := by
  obtain ⟨m, hlatest, rfl⟩ := latest_of_new hnew
  obtain ⟨⟨k, f⟩, hfloor, hf⟩ := Option.bind_eq_some_iff.mp h
  obtain ⟨hle, hf⟩ := Option.ite_none_right_eq_some.mp hf
  obtain rfl : f = func := Option.some.inj hf
  have hmem := floorEntry_mem hfloor
  obtain ⟨⟨ft, i⟩, he, hentry, rfl, hmax⟩ :=
    hlatest.sound k f (Std.TreeMap.mem_toList_iff_getElem?_eq_some.mp hmem)
  have hindex : f.index = i := hentry.index
  have hstart : f.start = ft.fnStart codeSectionOffset := hentry.start
  refine ⟨ft, ⟨?_, hstart ▸ hle, fun j g hg hgle => ?_⟩, hindex ▸ hentry⟩
  · rw [hindex]
    exact List.mem_zipIdx_iff_getElem?.mp he
  · have hgmem : (g, j) ∈ functions.zipIdx := List.mem_zipIdx_iff_getElem?.mpr hg
    obtain ⟨f', hf'⟩ := hlatest.complete (g, j) hgmem
    obtain ⟨e, -, hfloor', -, hgreatest⟩ := floorEntry_spec bs (toList_sorted m) hmem hle
    obtain rfl := Option.some.inj (hfloor'.symm.trans hfloor)
    have hkey : g.fnStart codeSectionOffset ≤ f.start :=
      hgreatest (g.fnStart codeSectionOffset, f') (Std.TreeMap.mem_toList_iff_getElem?_eq_some.mpr hf')
        hgle
    rcases Nat.lt_or_eq_of_le hkey with hlt | heq
    · exact .inl (hstart ▸ hlt)
    · exact .inr ⟨heq.trans hstart, hindex ▸ hmax (g, j) hgmem heq⟩

/-- A function that starts last is found. -/
theorem findFunc_complete (bs : BinarySearch)
    (hnew : AddressTransform.new functions codeSectionOffset = some t)
    (h : StartsLast functions codeSectionOffset addr i ft) :
    ∃ func, t.findFunc bs addr = some func ∧ Entry codeSectionOffset (ft, i) func := by
  have hfound : ∃ func, t.findFunc bs addr = some func := by
    obtain ⟨m, hlatest, rfl⟩ := latest_of_new hnew
    obtain ⟨f, hf⟩ := hlatest.complete (ft, i) (List.mem_zipIdx_iff_getElem?.mpr h.get)
    obtain ⟨⟨k, g⟩, hg, hfloor, hle, -⟩ := floorEntry_spec bs (toList_sorted m)
      (Std.TreeMap.mem_toList_iff_getElem?_eq_some.mpr hf) h.start
    obtain ⟨e, -, -, rfl, -⟩ := hlatest.sound k g (Std.TreeMap.mem_toList_iff_getElem?_eq_some.mp hg)
    exact ⟨g, Option.bind_eq_some_iff.mpr ⟨_, hfloor, if_pos hle⟩⟩
  obtain ⟨func, hfunc⟩ := hfound
  obtain ⟨ft', hlast, hentry⟩ := findFunc_sound hnew hfunc
  obtain ⟨rfl, rfl⟩ := h.unique hlast
  exact ⟨func, hfunc, hentry⟩

/-! ## Where the generated address lies -/

/-- An address found in a range lies in its code. -/
theorem Range.Ok.startAddress_bounds {r : Range} (h : r.Ok) {bs : BinarySearch} {a : Nat}
    (ha : r.startAddress bs addr = some a) : r.genStart ≤ a ∧ a ≤ r.genEnd := by
  have hgen : ∀ (m : Nat) (p : Position), r.positions[m]? = some p →
      r.genStart ≤ p.genStart ∧ p.genStart ≤ p.genEnd ∧ p.genEnd ≤ r.genEnd :=
    fun m p hp => h.gen p (List.mem_of_getElem? hp)
  unfold Range.startAddress at ha
  split at ha
  · obtain ⟨p, hp, rfl⟩ := Option.map_eq_some_iff.mp ha
    have := hgen _ p hp
    omega
  · split at ha
    · obtain rfl := Option.some.inj ha
      exact ⟨Nat.le_refl _, h.gen_le⟩
    · obtain ⟨p, hp, rfl⟩ := Option.map_eq_some_iff.mp ha
      have := hgen _ p hp
      omega

/-- The ranges of a function that is laid out as promised lie in its body. -/
theorem range_within (hlaid : ft.Laid) {fnStart fnEnd : Nat} {lookup : FuncLookup}
    (hbuild : buildFunctionLookup ft codeSectionOffset = some (fnStart, fnEnd, lookup)) {r : Range}
    (hr : r ∈ lookup.ranges) : ft.bodyOffset ≤ r.genStart ∧ r.genEnd ≤ ft.bodyOffset + ft.bodyLen := by
  have hbuilt := built_of_buildFunctionLookup hbuild
  have hok := (buildFunctionLookup_spec hlaid hbuild).ok.ok
  have hforward : ∀ p ∈ lookup.ranges.map Range.generated, p.1 ≤ p.2 :=
    List.forall_mem_map.mpr fun r hr => (hok r hr).gen_le
  have hlaidRanges := @laid_ranges ft codeSectionOffset
  rw [← hbuilt.ranges] at hlaidRanges
  exact (EndToEnd.within hlaidRanges hforward).2 r.generated (List.mem_map_of_mem hr)

theorem firstAddress_within {bs : BinarySearch} {func : FuncTransform} (hlaid : ft.Laid)
    (hentry : Entry codeSectionOffset (ft, i) func) {a : Nat}
    (h : func.firstAddress bs addr = some (some a)) :
    ft.bodyOffset ≤ a ∧ a ≤ ft.bodyOffset + ft.bodyLen := by
  obtain ⟨indices, -, h⟩ := Option.bind_eq_some_iff.mp h
  obtain ⟨items, hitems, h⟩ := Option.map_eq_some_iff.mp h
  cases indices with
  | nil =>
    obtain rfl := Option.some.inj hitems
    cases h
  | cons first tail =>
    -- the first active range, and what is found in it
    obtain ⟨address, haddress, hitems⟩ := Option.bind_eq_some_iff.mp hitems
    obtain ⟨rest, -, rfl⟩ := Option.map_eq_some_iff.mp hitems
    obtain rfl : address = a := Option.some.inj h
    obtain ⟨r, hr, haddress⟩ := Option.bind_eq_some_iff.mp haddress
    have hmem := List.mem_of_getElem? hr
    have hok := (buildFunctionLookup_spec hlaid hentry.build).ok.ok r hmem
    have h₁ := hok.startAddress_bounds haddress
    have h₂ := range_within hlaid hentry.build hmem
    omega

/-! ## Attribution -/

/-- The address lies in a function. -/
def FunctionAddressMap.Spans (ft : FunctionAddressMap) (codeSectionOffset : UInt64) (addr : Nat) :
    Prop :=
  ft.fnStart codeSectionOffset ≤ addr ∧ addr ≤ ft.fnEnd codeSectionOffset

/-- An address is attributed only to a function it lies in, and translated only into its body. -/
structure Attributed (bs : BinarySearch) (t : AddressTransform) (functions : List FunctionAddressMap)
    (codeSectionOffset : UInt64) (addr : Nat) : Prop where
  index : ∀ i, t.findFuncIndex bs addr = some i →
    ∃ ft, functions[i]? = some ft ∧ ft.Spans codeSectionOffset addr
  raw : ∀ i a, t.translateRaw bs addr = some (some (i, a)) →
    ∃ ft, functions[i]? = some ft ∧ ft.Spans codeSectionOffset addr ∧
      ft.bodyOffset ≤ a ∧ a ≤ ft.bodyOffset + ft.bodyLen

/-- The last address of a function is translated to the length of its body. -/
theorem translateRaw_stop {bs : BinarySearch} {func : FuncTransform}
    (hnew : AddressTransform.new functions codeSectionOffset = some t)
    (hfound : t.findFunc bs addr = some func) (hentry : Entry codeSectionOffset (ft, i) func)
    (hi : functions[i]? = some ft) (h0 : addr ≠ 0) (hstop : addr = ft.fnEnd codeSectionOffset) :
    t.translateRaw bs addr = some (some (i, ft.bodyLen)) := by
  have hindex : func.index = i := hentry.index
  have hend : func.stop = ft.fnEnd codeSectionOffset := hentry.stop
  obtain ⟨m, -, rfl⟩ := latest_of_new hnew
  rw [AddressTransform.translateRaw, if_neg h0, hfound]
  show (if addr = func.stop then _ else _) = _
  rw [if_pos (hstop.trans hend.symm), hindex, buildFunctionAddrMap, List.getElem?_map, hi]
  rfl

/-- **Headline.** An address is attributed only to a function it lies in, and translated only into the body
of that function, iff the function that starts last at or before it, if there is one, reaches up to it; where
that function ends there, the length of its body is also to be an offset in its body. -/
theorem attributed_iff (hnew : AddressTransform.new functions codeSectionOffset = some t)
    (hlaid : ∀ ft ∈ functions, ft.Laid) (bs : BinarySearch) :
    Attributed bs t functions codeSectionOffset addr ↔
      ∀ i ft, StartsLast functions codeSectionOffset addr i ft →
        addr ≤ ft.fnEnd codeSectionOffset ∧
          (addr = ft.fnEnd codeSectionOffset → addr ≠ 0 → ft.bodyOffset ≤ ft.bodyLen) := by
  constructor
  · intro h i ft hlast
    obtain ⟨func, hfound, hentry⟩ := findFunc_complete bs hnew hlast
    have hindex : func.index = i := hentry.index
    refine ⟨?_, fun hstop h0 => ?_⟩
    · obtain ⟨ft', hft', hspans⟩ := h.index i (Option.map_eq_some_iff.mpr ⟨func, hfound, hindex⟩)
      obtain rfl := Option.some.inj (hlast.get.symm.trans hft')
      exact hspans.2
    · obtain ⟨ft', hft', -, hbody, -⟩ :=
        h.raw i ft.bodyLen (translateRaw_stop hnew hfound hentry hlast.get h0 hstop)
      obtain rfl := Option.some.inj (hlast.get.symm.trans hft')
      exact hbody
  · intro h
    refine ⟨fun i hi => ?_, fun i a hraw => ?_⟩
    · obtain ⟨func, hfound, rfl⟩ := Option.map_eq_some_iff.mp hi
      obtain ⟨ft, hlast, -⟩ := findFunc_sound hnew hfound
      exact ⟨ft, hlast.get, hlast.start, (h _ ft hlast).1⟩
    · have h0 : addr ≠ 0 := by
        rintro rfl
        exact absurd hraw (by simp [AddressTransform.translateRaw])
      cases hfound : t.findFunc bs addr with
      | none =>
        rw [AddressTransform.translateRaw, if_neg h0, hfound] at hraw
        cases hraw
      | some func =>
        obtain ⟨ft, hlast, hentry⟩ := findFunc_sound hnew hfound
        have hreach := h _ ft hlast
        by_cases hstop : addr = ft.fnEnd codeSectionOffset
        · rw [translateRaw_stop hnew hfound hentry hlast.get h0 hstop] at hraw
          obtain ⟨rfl, rfl⟩ := Prod.mk.inj (Option.some.inj (Option.some.inj hraw))
          exact ⟨ft, hlast.get, ⟨hlast.start, hreach.1⟩, hreach.2 hstop h0, Nat.le_add_left _ _⟩
        · have hend : func.stop = ft.fnEnd codeSectionOffset := hentry.stop
          rw [AddressTransform.translateRaw, if_neg h0, hfound] at hraw
          replace hraw : (if addr = func.stop then _ else _) = _ := hraw
          rw [if_neg fun heq => hstop (heq.trans hend)] at hraw
          obtain ⟨first, hfirst, hraw⟩ := Option.map_eq_some_iff.mp hraw
          obtain ⟨address, rfl, heq⟩ := Option.map_eq_some_iff.mp hraw
          obtain ⟨rfl, rfl⟩ := Prod.mk.inj heq
          exact ⟨ft, hlast.get, ⟨hlast.start, hreach.1⟩,
            firstAddress_within (hlaid ft (List.mem_of_getElem? hlast.get)) hentry hfirst⟩

end

/-- Two functions, with a gap between 20 and 30. -/
def gapped : List FunctionAddressMap :=
  [⟨[⟨13, 0, 4⟩], 11, 21, 0, 8⟩, ⟨[⟨33, 0, 4⟩], 31, 41, 0, 8⟩]

theorem laid_gapped : ∀ ft ∈ gapped, ft.Laid := by
  refine List.forall_mem_cons.mpr ⟨⟨by decide, by decide⟩, List.forall_mem_singleton.mpr ?_⟩
  exact ⟨by decide, by decide⟩

/-- Before 30 the first function is the one that starts last. -/
theorem startsLast_gapped {addr : Nat} (h₁ : 10 ≤ addr) (h₂ : addr < 30) :
    StartsLast gapped 1 addr 0 ⟨[⟨13, 0, 4⟩], 11, 21, 0, 8⟩ := by
  refine ⟨rfl, h₁, fun j g hg hle => ?_⟩
  obtain _ | _ | j := j
  · obtain rfl := Option.some.inj hg
    exact .inr ⟨rfl, Nat.le_refl 0⟩
  · obtain rfl := Option.some.inj hg
    exact absurd hle (Nat.not_le.mpr h₂)
  · cases hg

/-- An address within the first function is attributed to it. -/
theorem attributed_gapped :
    ∃ t, AddressTransform.new gapped 1 = some t ∧ Attributed .last t gapped 1 15 := by
  refine ⟨_, rfl, (attributed_iff (t := ⟨_, _⟩) rfl laid_gapped .last).mpr fun i ft h => ?_⟩
  obtain ⟨rfl, rfl⟩ := h.unique (startsLast_gapped (by decide) (by decide))
  decide

/-- One in the gap is attributed to that function, too. -/
theorem not_attributed_gapped : ∃ t, AddressTransform.new gapped 1 = some t ∧ Apart 1 gapped ∧
    ∀ bs, ¬ Attributed bs t gapped 1 25 := by
  refine ⟨_, rfl, ?_, fun bs h => ?_⟩
  · unfold Apart
    decide
  · have hlast : StartsLast gapped 1 25 0 _ := startsLast_gapped (by decide) (by decide)
    obtain ⟨func, hfound, hentry⟩ := findFunc_complete (t := ⟨_, _⟩) bs rfl hlast
    obtain ⟨ft, hft, hspans⟩ := h.index 0 (Option.map_eq_some_iff.mpr ⟨func, hfound, hentry.index⟩)
    obtain rfl := Option.some.inj hft
    exact absurd hspans.2 (by decide)

end Wasmtime.Debug
