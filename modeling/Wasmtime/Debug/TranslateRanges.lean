import Wasmtime.Debug.AddressTransform

/-!
# Debug ranges lose no code, and when they do

What `AddressTransform::translate_ranges_raw` (`wasmtime-debug/src/transform/address_transform.rs`)
returns for the wasm addresses `[start, stop)` of a function. The ranges are looked up at the two ends
only, so a run of instructions in between is found only if it is active at one of them.

* `Faithful` is what is asked of the ranges: the code of the instructions in `[start, stop)`, and none
  of those outside `[start, stop]`.
* `Kept` says of the runs of a function that none is lost on the way.

Results:
* `Translation.excludes`: nothing of an instruction outside is ever returned.
* `translateRanges_returns`: the call returns iff no run starts at `stop`.
* `translateRanges_iff`: the translation of `[start, stop)` is faithful iff no run starts at `stop`, no
  run with code in it is replaced or passed over, and no run has an instruction with code at `start`
  before another one at `start`.
-/

namespace Wasmtime.Debug

/-! ## The addresses found in a range -/

section

variable {bs : BinarySearch} {addr : Nat}

theorem floorEntry_spec (bs : BinarySearch) {α : Type} {entries : List (Nat × α)}
    (hs : entries.Pairwise fun d e => d.1 < e.1) {e : Nat × α} (he : e ∈ entries) (hle : e.1 ≤ addr) :
    ∃ f ∈ entries, floorEntry bs entries addr = some f ∧ f.1 ≤ addr ∧
      ∀ d ∈ entries, d.1 ≤ addr → d.1 ≤ f.1 := by
  have hkeys : (entries.map Prod.fst).Pairwise (· ≤ ·) :=
    List.pairwise_map.mpr (hs.imp fun h => Nat.le_of_lt h)
  have hpair := List.pairwise_iff_getElem.mp hs
  unfold floorEntry
  cases hrun : bs.run (entries.map Prod.fst) addr with
  | ok i =>
    have hi := bs.ok hkeys hrun
    rw [List.getElem?_map] at hi
    obtain ⟨f, hf, rfl⟩ := Option.map_eq_some_iff.mp hi
    exact ⟨f, List.mem_of_getElem? hf, hf, Nat.le_refl _, fun d _ hd => hd⟩
  | error i =>
    obtain ⟨hlen, hbelow, habove⟩ := bs.error hkeys hrun
    rw [List.length_map] at hlen
    have hlow : ∀ m (hm : m < entries.length), m < i → entries[m].1 < addr := fun m hm hmi =>
      hbelow _ (List.mem_take_iff_getElem.mpr ⟨m, by simpa using ⟨hmi, hm⟩, by simp⟩)
    have hhigh : ∀ m (hm : m < entries.length), i ≤ m → addr < entries[m].1 := fun m hm hmi =>
      habove _ (List.mem_drop_iff_getElem.mpr ⟨m - i, by simp; omega, by simp [hmi]⟩)
    obtain ⟨m, hm, rfl⟩ := List.getElem_of_mem he
    have hmi : m < i := by
      by_contra hge
      have := hhigh m hm (by omega)
      omega
    refine ⟨entries[i - 1], List.getElem_mem _, ?_, ?_, fun d hd hdle => ?_⟩
    · show (if i > 0 then entries[i - 1]? else none) = some entries[i - 1]
      rw [if_pos (by omega)]
      exact List.getElem?_eq_getElem (by omega)
    · exact Nat.le_of_lt (hlow (i - 1) (by omega) (by omega))
    · obtain ⟨n, hn, rfl⟩ := List.getElem_of_mem hd
      have hni : n < i := by
        by_contra hge
        have := hhigh n hn (by omega)
        omega
      obtain rfl | hlt : n = i - 1 ∨ n < i - 1 := by omega
      · exact Nat.le_refl _
      · exact Nat.le_of_lt (hpair n (i - 1) hn (by omega) hlt)

/-- What a search among the positions of a range finds. -/
theorem Range.Ok.search {r : Range} (h : r.Ok) (bs : BinarySearch) (addr : Nat) :
    (∃ i q, bs.run (r.positions.map Position.wasmPos) addr = .ok i ∧ r.positions[i]? = some q ∧
        q.wasmPos = addr) ∨
      ∃ i, bs.run (r.positions.map Position.wasmPos) addr = .error i ∧ i ≤ r.positions.length ∧
        (∀ m q, r.positions[m]? = some q → (m < i → q.wasmPos < addr) ∧ (i ≤ m → addr < q.wasmPos)) := by
  have hkeys : (r.positions.map Position.wasmPos).Pairwise (· ≤ ·) := List.pairwise_map.mpr h.sorted
  cases hrun : bs.run (r.positions.map Position.wasmPos) addr with
  | ok i =>
    have hi := bs.ok hkeys hrun
    rw [List.getElem?_map] at hi
    obtain ⟨q, hq, hpos⟩ := Option.map_eq_some_iff.mp hi
    exact .inl ⟨i, q, rfl, hq, hpos⟩
  | error i =>
    obtain ⟨hlen, hbelow, habove⟩ := bs.error hkeys hrun
    rw [List.length_map] at hlen
    refine .inr ⟨i, rfl, hlen, fun m q hq => ?_⟩
    obtain ⟨hm, rfl⟩ := List.getElem?_eq_some_iff.mp hq
    refine ⟨fun hmi => ?_, fun hmi => ?_⟩
    · exact hbelow _ (List.mem_take_iff_getElem.mpr ⟨m, by simpa using ⟨hmi, hm⟩, by simp⟩)
    · exact habove _ (List.mem_drop_iff_getElem.mpr ⟨m - i, by simp; omega, by simp [hmi]⟩)

/-- Two positions of a range: where one ends the next has not started. -/
theorem Range.Ok.genEnd_le {r : Range} (h : r.Ok) {m n : Nat} {p q : Position}
    (hp : r.positions[m]? = some p) (hq : r.positions[n]? = some q) (hlt : m < n) :
    p.genEnd ≤ q.genStart := by
  obtain ⟨hm, rfl⟩ := List.getElem?_eq_some_iff.mp hp
  obtain ⟨hn, rfl⟩ := List.getElem?_eq_some_iff.mp hq
  exact List.pairwise_iff_getElem.mp h.laid m n hm hn hlt

theorem Range.Ok.wasmPos_le {r : Range} (h : r.Ok) {m n : Nat} {p q : Position}
    (hp : r.positions[m]? = some p) (hq : r.positions[n]? = some q) (hle : m ≤ n) :
    p.wasmPos ≤ q.wasmPos := by
  obtain ⟨hm, rfl⟩ := List.getElem?_eq_some_iff.mp hp
  obtain ⟨hn, rfl⟩ := List.getElem?_eq_some_iff.mp hq
  obtain rfl | hlt := Nat.eq_or_lt_of_le hle
  · exact Nat.le_refl _
  · exact List.pairwise_iff_getElem.mp h.sorted m n hm hn hlt

/-- Where the code from `addr` on starts: after everything before `addr`, and, where several
instructions are at `addr`, at one of them. -/
theorem Range.Ok.startAddress {r : Range} (h : r.Ok) (bs : BinarySearch) (addr : Nat) :
    ∃ a, r.startAddress bs addr = some a ∧ r.genStart ≤ a ∧
      (∀ p ∈ r.positions, p.wasmPos < addr → p.genEnd ≤ a) ∧
      (∀ p ∈ r.positions, addr < p.wasmPos → a ≤ p.genStart) ∧
      ∀ (m : Nat) (p : Position), r.positions[m]? = some p → p.wasmPos = addr → a ≤ p.genStart ∨
        ∃ n q, m < n ∧ r.positions[n]? = some q ∧ q.wasmPos = addr := by
  unfold Range.startAddress
  obtain ⟨i, q, hrun, hq, rfl⟩ | ⟨i, hrun, hlen, hsplit⟩ := h.search bs addr
  · rw [hrun]
    refine ⟨q.genStart, by simp [hq], (h.gen q (List.mem_of_getElem? hq)).1, ?_, ?_, ?_⟩
    · intro p hp hlt
      obtain ⟨m, hm⟩ := List.getElem?_of_mem hp
      refine h.genEnd_le hm hq (Nat.lt_of_not_le fun hle => ?_)
      have := h.wasmPos_le hq hm hle
      omega
    · intro p hp hlt
      obtain ⟨m, hm⟩ := List.getElem?_of_mem hp
      have := h.genEnd_le hq hm (Nat.lt_of_not_le fun hle => by have := h.wasmPos_le hm hq hle; omega)
      have := (h.gen q (List.mem_of_getElem? hq)).2.1
      omega
    · intro m p hp hpos
      by_cases hmi : m < i
      · exact .inr ⟨i, q, hmi, hq, rfl⟩
      · obtain rfl | hlt := Nat.eq_or_lt_of_le (Nat.not_lt.mp hmi)
        · obtain rfl := Option.some.inj (hp.symm.trans hq)
          exact .inl (Nat.le_refl _)
        · have := h.genEnd_le hq hp hlt
          have := (h.gen q (List.mem_of_getElem? hq)).2.1
          exact .inl (by omega)
  · rw [hrun]
    have hno : ∀ (m : Nat) (p : Position), r.positions[m]? = some p → p.wasmPos ≠ addr := by
      intro m p hp heq
      obtain ⟨h₁, h₂⟩ := hsplit m p hp
      by_cases hmi : m < i
      · exact absurd heq (Nat.ne_of_lt (h₁ hmi))
      · exact absurd heq (Nat.ne_of_gt (h₂ (Nat.not_lt.mp hmi)))
    by_cases hi : i = 0
    · subst hi
      refine ⟨r.genStart, rfl, Nat.le_refl _, ?_, ?_, fun m p hp hpos => absurd hpos (hno m p hp)⟩
      · intro p hp hlt
        obtain ⟨m, hm⟩ := List.getElem?_of_mem hp
        have := (hsplit m p hm).2 (Nat.zero_le _)
        omega
      · intro p hp _
        exact (h.gen p hp).1
    · have hget : i - 1 < r.positions.length := by omega
      have hq : r.positions[i - 1]? = some r.positions[i - 1] := List.getElem?_eq_getElem hget
      refine ⟨r.positions[i - 1].genEnd, by simp [hi, hq], ?_, ?_, ?_,
        fun m p hp hpos => absurd hpos (hno m p hp)⟩
      · have := h.gen _ (List.mem_of_getElem? hq)
        omega
      · intro p hp hlt
        obtain ⟨m, hm⟩ := List.getElem?_of_mem hp
        have hmi : m < i := Nat.lt_of_not_le fun hle => by have := (hsplit m p hm).2 hle; omega
        obtain rfl | hlt : m = i - 1 ∨ m < i - 1 := by omega
        · obtain rfl := Option.some.inj (hm.symm.trans hq)
          exact Nat.le_refl _
        · have := h.genEnd_le hm hq hlt
          have := (h.gen _ (List.mem_of_getElem? hq)).2.1
          omega
      · intro p hp hlt
        obtain ⟨m, hm⟩ := List.getElem?_of_mem hp
        refine h.genEnd_le hq hm (Nat.lt_of_not_le fun hle => ?_)
        have := (hsplit m p hm).1 (by omega)
        omega

/-- Where the code up to `addr` ends: after everything before `addr`, and before everything after it. -/
theorem Range.Ok.endAddress {r : Range} (h : r.Ok) (bs : BinarySearch) (addr : Nat) :
    ∃ a, r.endAddress bs addr = some a ∧ a ≤ r.genEnd ∧
      (∀ p ∈ r.positions, p.wasmPos < addr → p.genEnd ≤ a) ∧
      ∀ p ∈ r.positions, addr < p.wasmPos → a ≤ p.genStart := by
  unfold Range.endAddress
  obtain ⟨i, q, hrun, hq, rfl⟩ | ⟨i, hrun, hlen, hsplit⟩ := h.search bs addr
  · rw [hrun]
    have hgen := h.gen q (List.mem_of_getElem? hq)
    refine ⟨q.genEnd, by simp [hq], hgen.2.2, ?_, ?_⟩
    · intro p hp hlt
      obtain ⟨m, hm⟩ := List.getElem?_of_mem hp
      have := h.genEnd_le hm hq (Nat.lt_of_not_le fun hle => by have := h.wasmPos_le hq hm hle; omega)
      omega
    · intro p hp hlt
      obtain ⟨m, hm⟩ := List.getElem?_of_mem hp
      exact h.genEnd_le hq hm (Nat.lt_of_not_le fun hle => by have := h.wasmPos_le hm hq hle; omega)
  · rw [hrun]
    by_cases hi : i = r.positions.length
    · subst hi
      refine ⟨r.genEnd, by simp, Nat.le_refl _, fun p hp _ => (h.gen p hp).2.2, fun p hp hlt => ?_⟩
      obtain ⟨m, hm⟩ := List.getElem?_of_mem hp
      have := (hsplit m p hm).1 (List.getElem?_eq_some_iff.mp hm).choose
      omega
    · have hget : i < r.positions.length := by omega
      have hq : r.positions[i]? = some r.positions[i] := List.getElem?_eq_getElem hget
      have hgen := h.gen _ (List.mem_of_getElem? hq)
      refine ⟨r.positions[i].genStart, by simp [hi, hq], by omega, ?_, ?_⟩
      · intro p hp hlt
        obtain ⟨m, hm⟩ := List.getElem?_of_mem hp
        exact h.genEnd_le hm hq (Nat.lt_of_not_le fun hle => by have := (hsplit m p hm).2 hle; omega)
      · intro p hp hlt
        obtain ⟨m, hm⟩ := List.getElem?_of_mem hp
        have hmi : i ≤ m := Nat.le_of_not_lt fun hmi => by have := (hsplit m p hm).1 hmi; omega
        obtain rfl | hlt := Nat.eq_or_lt_of_le hmi
        · obtain rfl := Option.some.inj (hm.symm.trans hq)
          exact Nat.le_refl _
        · have := h.genEnd_le hq hm hlt
          omega

end

/-! ## The two iterators -/

section

variable {bs : BinarySearch} {addr : Nat} {ranges : List Range}

/-- The items of an iterator: for every range it was given, the address that `find` finds in it. -/
def Finds (ranges : List Range) (find : Range → Option Nat) (active : List Nat)
    (items : List (Nat × Nat)) : Prop :=
  items.map Prod.fst = active ∧ ∀ e ∈ items, ∃ r, ranges[e.1]? = some r ∧ find r = some e.2

theorem Finds.cons {find : Range → Option Nat} {active : List Nat} {items : List (Nat × Nat)}
    (h : Finds ranges find active items) {j a : Nat} {r : Range} (hj : ranges[j]? = some r)
    (ha : find r = some a) : Finds ranges find (j :: active) ((j, a) :: items) :=
  ⟨by rw [List.map_cons, h.1], List.forall_mem_cons.mpr ⟨⟨r, hj, ha⟩, h.2⟩⟩

theorem Finds.mem_iff {find : Range → Option Nat} {active : List Nat} {items : List (Nat × Nat)}
    (h : Finds ranges find active items) {j a : Nat} {r : Range} (hj : ranges[j]? = some r) :
    (j, a) ∈ items ↔ j ∈ active ∧ find r = some a := by
  constructor
  · intro hmem
    obtain ⟨r', hr', ha⟩ := h.2 _ hmem
    obtain rfl := Option.some.inj (hj.symm.trans hr')
    exact ⟨h.1 ▸ List.mem_map_of_mem hmem, ha⟩
  · rintro ⟨hact, ha⟩
    rw [← h.1] at hact
    obtain ⟨⟨j', a'⟩, hmem, rfl⟩ := List.mem_map.mp hact
    obtain ⟨r', hr', ha'⟩ := h.2 _ hmem
    obtain rfl := Option.some.inj (hj.symm.trans hr')
    obtain rfl := Option.some.inj (ha.symm.trans ha')
    exact hmem

theorem startItems (bs : BinarySearch) (addr : Nat) {active : List Nat} (hok : ∀ r ∈ ranges, r.Ok)
    (hact : ∀ j ∈ active, ∃ r, ranges[j]? = some r) :
    ∃ items, TransformRangeIter.items bs ranges addr active = some items ∧
      Finds ranges (Range.startAddress bs · addr) active items := by
  induction active with
  | nil => exact ⟨[], rfl, rfl, by simp⟩
  | cons j active ih =>
    obtain ⟨⟨r, hr⟩, hact⟩ := List.forall_mem_cons.mp hact
    obtain ⟨items, hitems, hfinds⟩ := ih hact
    obtain ⟨a, ha, -⟩ := (hok r (List.mem_of_getElem? hr)).startAddress bs addr
    exact ⟨(j, a) :: items, by simp [TransformRangeIter.items, hr, ha, hitems], hfinds.cons hr ha⟩

theorem endItems (bs : BinarySearch) {active : List Nat} (hok : ∀ r ∈ ranges, r.Ok)
    (hact : ∀ j ∈ active, ∃ r, ranges[j]? = some r ∧ r.wasmStart < addr) :
    ∃ items, TransformRangeEndIter.items bs ranges addr (active.length + 1) active = some items ∧
      Finds ranges (Range.endAddress bs · addr) active items := by
  induction active with
  | nil => exact ⟨[], rfl, rfl, by simp⟩
  | cons j active ih =>
    obtain ⟨⟨r, hr, hlt⟩, hact⟩ := List.forall_mem_cons.mp hact
    obtain ⟨items, hitems, hfinds⟩ := ih hact
    obtain ⟨a, ha, -⟩ := (hok r (List.mem_of_getElem? hr)).endAddress bs addr
    refine ⟨(j, a) :: items, ?_, hfinds.cons hr ha⟩
    rw [List.length_cons, TransformRangeEndIter.items, hr, Option.bind_some,
      if_neg (Nat.not_le.mpr hlt), ha, Option.bind_some, hitems, Option.map_some]

/-- The end iterator only ever returns when no range it is given starts at or after the address. -/
theorem endItems_eq_some {fuel : Nat} {active : List Nat} {items : List (Nat × Nat)}
    (h : TransformRangeEndIter.items bs ranges addr fuel active = some items) :
    Finds ranges (Range.endAddress bs · addr) active items ∧
      ∀ j ∈ active, ∃ r, ranges[j]? = some r ∧ r.wasmStart < addr := by
  induction fuel generalizing active items with
  | zero => exact absurd h (by simp [TransformRangeEndIter.items])
  | succ fuel ih =>
    cases active with
    | nil =>
      obtain rfl := Option.some.inj h
      exact ⟨⟨rfl, by simp⟩, by simp⟩
    | cons j active =>
      rw [TransformRangeEndIter.items] at h
      obtain ⟨r, hr, h⟩ := Option.bind_eq_some_iff.mp h
      split at h
      · exact ih h
      · next hge =>
        obtain ⟨a, ha, h⟩ := Option.bind_eq_some_iff.mp h
        obtain ⟨items', hitems, rfl⟩ := Option.map_eq_some_iff.mp h
        obtain ⟨hfinds, hall⟩ := ih hitems
        exact ⟨hfinds.cons hr ha, List.forall_mem_cons.mpr ⟨⟨r, hr, Nat.not_le.mp hge⟩, hall⟩⟩

/-- A pair of the result: of a range with an end, from its start or its beginning; of a range with a
start only, to its end. -/
def Joined (starts ends : List (Nat × Nat)) (j : Nat) (r : Range) (x y : Nat) : Prop :=
  ((j, y) ∈ ends ∧ ((j, x) ∈ starts ∨ (j ∉ starts.map Prod.fst ∧ x = r.genStart))) ∨
    ((j, x) ∈ starts ∧ j ∉ ends.map Prod.fst ∧ y = r.genEnd)

theorem joinRanges_nil {starts : List (Nat × Nat)}
    (hstarts : ∀ e ∈ starts, ∃ r, ranges[e.1]? = some r) :
    ∃ result, joinRanges ranges starts [] = some result ∧
      ∀ x y, (x, y) ∈ result ↔ ∃ j r, ranges[j]? = some r ∧ Joined starts [] j r x y := by
  induction starts with
  | nil => exact ⟨[], rfl, by simp [Joined]⟩
  | cons e starts ih =>
    obtain ⟨⟨r, hr⟩, hstarts⟩ := List.forall_mem_cons.mp hstarts
    obtain ⟨result, hresult, hmem⟩ := ih hstarts
    refine ⟨(e.2, r.genEnd) :: result, ?_, fun x y => ?_⟩
    · unfold joinRanges at hresult ⊢
      rw [List.mapM_cons, hr, hresult]
      rfl
    · rw [List.mem_cons, hmem]
      constructor
      · rintro (h | ⟨j, s, hs, hj⟩)
        · obtain ⟨rfl, rfl⟩ := Prod.mk.inj h
          exact ⟨e.1, r, hr, .inr ⟨List.mem_cons_self, by simp, rfl⟩⟩
        · obtain ⟨hend, -⟩ | ⟨hx, hnot, hy⟩ := hj
          · simp at hend
          · exact ⟨j, s, hs, .inr ⟨List.mem_cons_of_mem _ hx, hnot, hy⟩⟩
      · rintro ⟨j, s, hs, ⟨hend, -⟩ | ⟨hx, hnot, rfl⟩⟩
        · simp at hend
        · obtain rfl | hx := List.mem_cons.mp hx
          · obtain rfl := Option.some.inj (hr.symm.trans hs)
            exact .inl rfl
          · exact .inr ⟨j, s, hs, .inr ⟨hx, hnot, rfl⟩⟩

theorem lookup_eq_some_of_nodup {starts : List (Nat × Nat)} (hnodup : (starts.map Prod.fst).Nodup)
    {j s x : Nat} (h : starts.lookup j = some s) (hx : (j, x) ∈ starts) : x = s := by
  obtain ⟨l₁, l₂, rfl, -⟩ := List.lookup_eq_some_iff.mp h
  have hin : (j, s) ∈ l₁ ++ (j, s) :: l₂ := by simp
  exact (Prod.mk.inj (List.inj_on_of_nodup_map hnodup hx hin rfl)).2

theorem joinRanges_spec {starts ends : List (Nat × Nat)} (hnodup : (starts.map Prod.fst).Nodup)
    (hends : (ends.map Prod.fst).Nodup) (hstarts : ∀ e ∈ starts, ∃ r, ranges[e.1]? = some r)
    (hin : ∀ e ∈ ends, ∃ r, ranges[e.1]? = some r) :
    ∃ result, joinRanges ranges starts ends = some result ∧
      ∀ x y, (x, y) ∈ result ↔ ∃ j r, ranges[j]? = some r ∧ Joined starts ends j r x y := by
  induction ends generalizing starts with
  | nil => exact joinRanges_nil hstarts
  | cons e ends ih =>
    obtain ⟨⟨r, hr⟩, hin⟩ := List.forall_mem_cons.mp hin
    obtain ⟨hfresh, hends⟩ := List.nodup_cons.mp hends
    cases hlookup : starts.lookup e.1 with
    | some s =>
      have hmem : (e.1, s) ∈ starts := by
        obtain ⟨l₁, l₂, rfl, -⟩ := List.lookup_eq_some_iff.mp hlookup
        simp
      have hsub : (starts.filter fun d => d.1 != e.1).Sublist starts := List.filter_sublist
      obtain ⟨result, hresult, hiff⟩ := ih (hnodup.sublist (hsub.map Prod.fst)) hends
        (fun d hd => hstarts d (hsub.subset hd)) hin
      have hrest : ∀ j x, (j, x) ∈ starts.filter (fun d => d.1 != e.1) ↔ (j, x) ∈ starts ∧ j ≠ e.1 :=
        fun j x => by simp
      have hkeys : ∀ j, j ≠ e.1 → (j ∉ (starts.filter fun d => d.1 != e.1).map Prod.fst ↔
          j ∉ starts.map Prod.fst) := fun j hj => by simp [hj]
      refine ⟨(s, e.2) :: result, by simp [joinRanges, hlookup, hresult], fun x y => ?_⟩
      rw [List.mem_cons, hiff]
      constructor
      · rintro (h | ⟨j, q, hq, ⟨hy, hx⟩ | ⟨hx, hnot, hy⟩⟩)
        · obtain ⟨rfl, rfl⟩ := Prod.mk.inj h
          exact ⟨e.1, r, hr, .inl ⟨List.mem_cons_self, .inl hmem⟩⟩
        · have hne : j ≠ e.1 := by
            rintro rfl
            exact hfresh (List.mem_map.mpr ⟨_, hy, rfl⟩)
          refine ⟨j, q, hq, .inl ⟨List.mem_cons_of_mem _ hy, ?_⟩⟩
          exact hx.imp (fun h => ((hrest j x).mp h).1) fun h => ⟨(hkeys j hne).mp h.1, h.2⟩
        · obtain ⟨hx, hne⟩ := (hrest j x).mp hx
          exact ⟨j, q, hq, .inr ⟨hx, by simpa [hne] using hnot, hy⟩⟩
      · rintro ⟨j, q, hq, ⟨hy, hx⟩ | ⟨hx, hnot, hy⟩⟩
        · obtain rfl | hy := List.mem_cons.mp hy
          · obtain hx | ⟨hx, -⟩ := hx
            · exact .inl (by rw [lookup_eq_some_of_nodup hnodup hlookup hx])
            · exact absurd (List.mem_map.mpr ⟨_, hmem, rfl⟩) hx
          · have hne : j ≠ e.1 := by
              rintro rfl
              exact hfresh (List.mem_map.mpr ⟨_, hy, rfl⟩)
            refine .inr ⟨j, q, hq, .inl ⟨hy, ?_⟩⟩
            exact hx.imp (fun h => (hrest j x).mpr ⟨h, hne⟩) fun h => ⟨(hkeys j hne).mpr h.1, h.2⟩
        · simp only [List.map_cons, List.mem_cons, not_or] at hnot
          exact .inr ⟨j, q, hq, .inr ⟨(hrest j x).mpr ⟨hx, hnot.1⟩, hnot.2, hy⟩⟩
    | none =>
      have hno : e.1 ∉ starts.map Prod.fst := by
        intro hmem
        obtain ⟨d, hd, hde⟩ := List.mem_map.mp hmem
        have := List.lookup_eq_none_iff.mp hlookup d hd
        simp [hde] at this
      obtain ⟨result, hresult, hiff⟩ := ih hnodup hends hstarts hin
      refine ⟨(r.genStart, e.2) :: result, by simp [joinRanges, hlookup, hr, hresult], fun x y => ?_⟩
      rw [List.mem_cons, hiff]
      constructor
      · rintro (h | ⟨j, q, hq, ⟨hy, hx⟩ | ⟨hx, hnot, hy⟩⟩)
        · obtain ⟨rfl, rfl⟩ := Prod.mk.inj h
          exact ⟨e.1, r, hr, .inl ⟨List.mem_cons_self, .inr ⟨hno, rfl⟩⟩⟩
        · exact ⟨j, q, hq, .inl ⟨List.mem_cons_of_mem _ hy, hx⟩⟩
        · have hne : j ≠ e.1 := by
            rintro rfl
            exact hno (List.mem_map.mpr ⟨_, hx, rfl⟩)
          exact ⟨j, q, hq, .inr ⟨hx, by simpa [hne] using hnot, hy⟩⟩
      · rintro ⟨j, q, hq, ⟨hy, hx⟩ | ⟨hx, hnot, hy⟩⟩
        · obtain rfl | hy := List.mem_cons.mp hy
          · obtain hx | ⟨-, rfl⟩ := hx
            · exact absurd (List.mem_map.mpr ⟨_, hx, rfl⟩) hno
            · obtain rfl := Option.some.inj (hr.symm.trans hq)
              exact .inl rfl
          · exact .inr ⟨j, q, hq, .inl ⟨hy, hx⟩⟩
        · simp only [List.map_cons, List.mem_cons, not_or] at hnot
          exact .inr ⟨j, q, hq, .inr ⟨hx, hnot.2, hy⟩⟩

end

/-! ## The translation within a function -/

/-- The ranges that are active at an address: those, not replaced, that reach over the last start up to
the address. -/
structure ActiveSpec (ranges : List Range) (addr k : Nat) (active : List Nat) : Prop where
  nodup : active.Nodup
  le : k ≤ addr
  greatest : ∀ r ∈ ranges, r.wasmStart ≤ addr → r.wasmStart ≤ k
  start : ∃ r ∈ ranges, r.wasmStart = k
  defined : ∀ j ∈ active, ∃ r, ranges[j]? = some r
  iff : ∀ (j : Nat) (r : Range), ranges[j]? = some r →
    (j ∈ active ↔ ¬ Replaced ranges j r ∧ r.wasmStart ≤ k ∧ k ≤ r.wasmEnd)

section

variable {bs : BinarySearch} {func : FuncTransform} {start stop : Nat}

theorem active_spec (bs : BinarySearch) (addr : Nat) (hl : func.lookup.Ok)
    (hfirst : ∃ r ∈ func.lookup.ranges, r.wasmStart ≤ addr) :
    ∃ k active, func.active bs addr = some active ∧ ActiveSpec func.lookup.ranges addr k active := by
  obtain ⟨r, hr, hle⟩ := hfirst
  obtain ⟨active₀, he⟩ := (hl.keys r.wasmStart).mpr ⟨r, hr, rfl⟩
  obtain ⟨f, hf, hfloor, hfle, hmax⟩ := floorEntry_spec bs hl.sorted he hle
  refine ⟨f.1, f.2, by rw [FuncTransform.active, hfloor]; rfl, hl.nodup f hf, hfle, ?_, ?_, ?_, ?_⟩
  · intro s hs hsle
    obtain ⟨active, hs⟩ := (hl.keys s.wasmStart).mpr ⟨s, hs, rfl⟩
    exact hmax _ hs hsle
  · exact (hl.keys f.1).mp ⟨f.2, hf⟩
  · intro j hj
    obtain ⟨s, hs, -⟩ := (hl.active f hf j).mp hj
    exact ⟨s, hs⟩
  · intro j s hs
    refine (hl.active f hf j).trans ⟨?_, fun h => ⟨s, hs, h⟩⟩
    rintro ⟨s', hs', h⟩
    obtain rfl := Option.some.inj (hs.symm.trans hs')
    exact h

/-- What range `j` contributes, given the ranges that are active at the two ends. -/
def Piece (bs : BinarySearch) (start stop : Nat) (active₁ active₂ : List Nat) (j : Nat) (r : Range)
    (x y : Nat) : Prop :=
  (j ∈ active₂ ∧ r.endAddress bs stop = some y ∧
      ((j ∈ active₁ ∧ r.startAddress bs start = some x) ∨ (j ∉ active₁ ∧ x = r.genStart))) ∨
    (j ∈ active₁ ∧ r.startAddress bs start = some x ∧ j ∉ active₂ ∧ y = r.genEnd)

/-- What the translation returns, for a function whose ranges are `ranges`. -/
structure Translation (bs : BinarySearch) (ranges : List Range) (start stop : Nat)
    (result : List (Nat × Nat)) where
  {k₁ k₂ : Nat}
  {active₁ active₂ : List Nat}
  atStart : ActiveSpec ranges start k₁ active₁
  atStop : ActiveSpec ranges stop k₂ active₂
  mem : ∀ x y, (x, y) ∈ result ↔
    ∃ j r, ranges[j]? = some r ∧ Piece bs start stop active₁ active₂ j r x y

/-- The translation returns iff no range starts at the end. -/
theorem translateRanges_returns (bs : BinarySearch) (hl : func.lookup.Ok)
    (hfirst : ∃ r ∈ func.lookup.ranges, r.wasmStart ≤ start) (hle : start ≤ stop) :
    (∃ fuel result, func.translateRanges bs fuel start stop = some result) ↔
      ∀ r ∈ func.lookup.ranges, r.wasmStart ≠ stop := by
  obtain ⟨r₀, hr₀, hle₀⟩ := hfirst
  obtain ⟨k₁, active₁, hact₁, hs₁⟩ := active_spec bs start hl ⟨r₀, hr₀, hle₀⟩
  obtain ⟨k₂, active₂, hact₂, hs₂⟩ :=
    active_spec bs stop hl ⟨r₀, hr₀, hle₀.trans hle⟩
  constructor
  · rintro ⟨fuel, result, h⟩ r hr rfl
    obtain ⟨starts, -, h⟩ := Option.bind_eq_some_iff.mp h
    obtain ⟨ends, hends, -⟩ := Option.bind_eq_some_iff.mp h
    rw [hact₂, Option.bind_some] at hends
    obtain ⟨j, hj⟩ := exists_lastAt hr
    obtain ⟨s, hs, hstart, hlive⟩ := lastAt_iff.mp hj
    have hk := hs₂.greatest r hr (Nat.le_refl _)
    have hwasm := (hl.ok s (List.mem_of_getElem? hs)).wasm_le
    have hmem := (hs₂.iff j s hs).mpr ⟨hlive, by omega, by have := hs₂.le; omega⟩
    obtain ⟨s', hs', hlt'⟩ := (endItems_eq_some hends).2 j hmem
    obtain rfl := Option.some.inj (hs.symm.trans hs')
    omega
  · intro hne
    have hin₂ : ∀ j ∈ active₂, ∃ r, func.lookup.ranges[j]? = some r ∧ r.wasmStart < stop := by
      intro j hj
      obtain ⟨r, hr⟩ := hs₂.defined j hj
      have h₁ := ((hs₂.iff j r hr).mp hj).2.1
      have h₂ := hs₂.le
      have h₃ := hne r (List.mem_of_getElem? hr)
      exact ⟨r, hr, by omega⟩
    obtain ⟨starts, hstarts, hf₁⟩ := startItems bs start hl.ok hs₁.defined
    obtain ⟨ends, hends, hf₂⟩ := endItems bs hl.ok hin₂
    obtain ⟨result, hresult, -⟩ := joinRanges_spec (hf₁.1 ▸ hs₁.nodup) (hf₂.1 ▸ hs₂.nodup)
      (fun e he => (hf₁.2 e he).imp fun _ h => h.1) fun e he => (hf₂.2 e he).imp fun _ h => h.1
    refine ⟨active₂.length + 1, result, ?_⟩
    simp only [FuncTransform.translateRanges, hact₁, hact₂, Option.bind_some, hstarts, hends, hresult]

theorem translateRanges_spec {fuel : Nat} {result : List (Nat × Nat)} (hl : func.lookup.Ok)
    (hfirst : ∃ r ∈ func.lookup.ranges, r.wasmStart ≤ start) (hle : start ≤ stop)
    (h : func.translateRanges bs fuel start stop = some result) :
    Nonempty (Translation bs func.lookup.ranges start stop result) := by
  obtain ⟨r₀, hr₀, hle₀⟩ := hfirst
  obtain ⟨k₁, active₁, hact₁, hs₁⟩ := active_spec bs start hl ⟨r₀, hr₀, hle₀⟩
  obtain ⟨k₂, active₂, hact₂, hs₂⟩ :=
    active_spec bs stop hl ⟨r₀, hr₀, hle₀.trans hle⟩
  obtain ⟨starts', hstarts', hf₁⟩ := startItems bs start hl.ok hs₁.defined
  obtain ⟨starts, hstarts, h⟩ := Option.bind_eq_some_iff.mp h
  obtain ⟨ends, hends, h⟩ := Option.bind_eq_some_iff.mp h
  rw [hact₁, Option.bind_some] at hstarts
  rw [hact₂, Option.bind_some] at hends
  obtain rfl := Option.some.inj (hstarts.symm.trans hstarts')
  obtain ⟨hf₂, -⟩ := endItems_eq_some hends
  obtain ⟨result', hresult', hmem⟩ := joinRanges_spec (hf₁.1 ▸ hs₁.nodup) (hf₂.1 ▸ hs₂.nodup)
    (fun e he => (hf₁.2 e he).imp fun _ h => h.1) fun e he => (hf₂.2 e he).imp fun _ h => h.1
  obtain rfl := Option.some.inj (h.symm.trans hresult')
  refine ⟨⟨hs₁, hs₂, fun x y => (hmem x y).trans ?_⟩⟩
  refine exists_congr fun j => exists_congr fun r => and_congr_right fun hr => ?_
  unfold Joined Piece
  rw [hf₁.mem_iff hr, hf₂.mem_iff hr, hf₁.1, hf₂.1]
  constructor
  · rintro (⟨⟨h₁, h₂⟩, h₃⟩ | ⟨⟨h₁, h₂⟩, h₃⟩)
    · exact .inl ⟨h₁, h₂, h₃⟩
    · exact .inr ⟨h₁, h₂, h₃⟩
  · rintro (⟨h₁, h₂, h₃⟩ | ⟨h₁, h₂, h₃⟩)
    · exact .inl ⟨⟨h₁, h₂⟩, h₃⟩
    · exact .inr ⟨⟨h₁, h₂⟩, h₃⟩

end

/-! ## When no code is lost -/

/-- A byte lies in one of the ranges. -/
def Covered (result : List (Nat × Nat)) (byte : Nat) : Prop :=
  ∃ e ∈ result, e.1 ≤ byte ∧ byte < e.2

/-- A byte of the generated code of an instruction. -/
def Position.Has (p : Position) (byte : Nat) : Prop := p.genStart ≤ byte ∧ byte < p.genEnd

/-- The ranges hold the code of the instructions in `[start, stop)`, and none of those outside
`[start, stop]`. -/
structure Faithful (code : List Position) (start stop : Nat) (result : List (Nat × Nat)) : Prop where
  covers : ∀ p ∈ code, start ≤ p.wasmPos → p.wasmPos < stop → ∀ byte, p.Has byte → Covered result byte
  excludes : ∀ p ∈ code, p.wasmPos < start ∨ stop < p.wasmPos → ∀ byte, p.Has byte →
    ¬ Covered result byte

/-- A run has code in `[start, stop)`. -/
def Run.HasCode (r : Run) (start stop : Nat) : Prop :=
  ∃ p ∈ r.code, start ≤ p.wasmPos ∧ p.wasmPos < stop ∧ p.genStart < p.genEnd

instance (r : Run) (start stop : Nat) : Decidable (r.HasCode start stop) :=
  inferInstanceAs (Decidable (∃ p ∈ r.code, _))

/-- No run starts at `stop`. A run with code in `[start, stop)` is not followed by one with the same
start, and no run starts after it has ended and before `stop`, unless it goes on from `start` or before.
In no run an instruction with code at `start` is followed by another one at `start`. -/
structure Kept (runs : List Run) (start stop : Nat) : Prop where
  stops : ∀ r ∈ runs, r.first ≠ stop
  unreplaced : runs.Pairwise fun r s => r.HasCode start stop → s.first ≠ r.first
  unpassed : ∀ r ∈ runs, r.HasCode start stop → start < r.first →
    ∀ s ∈ runs, r.last < s.first → stop < s.first
  once : ∀ r ∈ runs, r.code.Pairwise fun p q =>
    p.wasmPos = start → q.wasmPos = start → p.genEnd ≤ p.genStart

section

variable {bs : BinarySearch} {ranges : List Range} {start stop : Nat} {result : List (Nat × Nat)}
  {j : Nat} {r : Range}

/-- Ranges of one function share no byte. -/
theorem index_unique (hapart : ranges.Pairwise fun r s => r.genEnd ≤ s.genStart) {j' : Nat} {s : Range}
    (hr : ranges[j]? = some r) (hs : ranges[j']? = some s) {byte : Nat} (hr₁ : r.genStart ≤ byte)
    (hr₂ : byte < r.genEnd) (hs₁ : s.genStart ≤ byte) (hs₂ : byte < s.genEnd) : j = j' := by
  obtain ⟨hj, rfl⟩ := List.getElem?_eq_some_iff.mp hr
  obtain ⟨hj', rfl⟩ := List.getElem?_eq_some_iff.mp hs
  have hpair := List.pairwise_iff_getElem.mp hapart
  obtain hlt | rfl | hlt := Nat.lt_trichotomy j j'
  · have := hpair j j' hj hj' hlt
    omega
  · rfl
  · have := hpair j' j hj' hj hlt
    omega

theorem Piece.bounds {active₁ active₂ : List Nat} {x y : Nat} (hr : r.Ok)
    (h : Piece bs start stop active₁ active₂ j r x y) : r.genStart ≤ x ∧ y ≤ r.genEnd := by
  obtain ⟨a, ha, hlow, -⟩ := hr.startAddress bs start
  obtain ⟨b, hb, hhigh, -⟩ := hr.endAddress bs stop
  obtain ⟨-, hy, ⟨-, hx⟩ | ⟨-, rfl⟩⟩ | ⟨-, hx, -, rfl⟩ := h
  · obtain rfl := Option.some.inj (ha.symm.trans hx)
    obtain rfl := Option.some.inj (hb.symm.trans hy)
    exact ⟨hlow, hhigh⟩
  · obtain rfl := Option.some.inj (hb.symm.trans hy)
    exact ⟨Nat.le_refl _, hhigh⟩
  · obtain rfl := Option.some.inj (ha.symm.trans hx)
    exact ⟨hlow, Nat.le_refl _⟩

/-- Only the range an instruction is in can hold its code. -/
theorem Translation.covered_iff (t : Translation bs ranges start stop result)
    (hok : ∀ r ∈ ranges, r.Ok) (hapart : ranges.Pairwise fun r s => r.genEnd ≤ s.genStart)
    (hr : ranges[j]? = some r) {p : Position} (hp : p ∈ r.positions) {byte : Nat} (hb : p.Has byte) :
    Covered result byte ↔
      ∃ x y, Piece bs start stop t.active₁ t.active₂ j r x y ∧ x ≤ byte ∧ byte < y := by
  have hgen := (hok r (List.mem_of_getElem? hr)).gen p hp
  constructor
  · rintro ⟨⟨x, y⟩, hmem, hx, hy⟩
    obtain ⟨j', s, hs, hpiece⟩ := (t.mem x y).mp hmem
    obtain ⟨h₁, h₂⟩ := hpiece.bounds (hok s (List.mem_of_getElem? hs))
    obtain rfl := index_unique hapart hr hs (hgen.1.trans hb.1) (Nat.lt_of_lt_of_le hb.2 hgen.2.2)
      (h₁.trans hx) (Nat.lt_of_lt_of_le hy h₂)
    obtain rfl := Option.some.inj (hr.symm.trans hs)
    exact ⟨x, y, hpiece, hx, hy⟩
  · rintro ⟨x, y, hpiece, hx, hy⟩
    exact ⟨(x, y), (t.mem x y).mpr ⟨j, r, hr, hpiece⟩, hx, hy⟩

/-- The last start before `stop` is not before the last one before `start`. -/
theorem Translation.le (t : Translation bs ranges start stop result) (hlt : start < stop) :
    t.k₁ ≤ t.k₂ := by
  obtain ⟨r, hr, hk⟩ := t.atStart.start
  have h₁ := t.atStart.le
  have h₂ := t.atStop.greatest r hr (by omega)
  omega

/-- Nothing of an instruction outside `[start, stop]` is ever returned. -/
theorem Translation.excludes (t : Translation bs ranges start stop result)
    (hok : ∀ r ∈ ranges, r.Ok) (hapart : ranges.Pairwise fun r s => r.genEnd ≤ s.genStart)
    (hlt : start < stop) (hr : ranges[j]? = some r) {p : Position} (hp : p ∈ r.positions)
    (hout : p.wasmPos < start ∨ stop < p.wasmPos) {byte : Nat} (hb : p.Has byte) :
    ¬ Covered result byte := by
  have hrok := hok r (List.mem_of_getElem? hr)
  have hmem : r ∈ ranges := List.mem_of_getElem? hr
  have hwasm := hrok.wasm p hp
  obtain ⟨a, ha, -, habefore, -⟩ := hrok.startAddress bs start
  obtain ⟨b, hbe, -, -, hbafter⟩ := hrok.endAddress bs stop
  have hk := t.le hlt
  have hk₂ := t.atStop.le
  rw [t.covered_iff hok hapart hr hp hb]
  rintro ⟨x, y, ⟨hin₂, hy, ⟨hin₁, hx⟩ | ⟨hin₁, rfl⟩⟩ | ⟨hin₁, hx, hin₂, rfl⟩, hxb, hby⟩
  · obtain rfl := Option.some.inj (ha.symm.trans hx)
    obtain rfl := Option.some.inj (hbe.symm.trans hy)
    obtain hout | hout := hout
    · exact absurd (habefore p hp hout) (by have := hb.2; omega)
    · exact absurd (hbafter p hp hout) (by have := hb.1; omega)
  · obtain rfl := Option.some.inj (hbe.symm.trans hy)
    obtain hout | hout := hout
    · -- the range starts before `start`, so it would have been active there
      obtain ⟨hlive, -, hend⟩ := (t.atStop.iff j r hr).mp hin₂
      have hle := t.atStart.greatest r hmem (by omega)
      exact hin₁ ((t.atStart.iff j r hr).mpr ⟨hlive, hle, by omega⟩)
    · exact absurd (hbafter p hp hout) (by have := hb.1; omega)
  · obtain rfl := Option.some.inj (ha.symm.trans hx)
    obtain hout | hout := hout
    · exact absurd (habefore p hp hout) (by have := hb.2; omega)
    · -- the range goes on after `stop`, so it would have been active there
      obtain ⟨hlive, hstart, -⟩ := (t.atStart.iff j r hr).mp hin₁
      exact hin₂ ((t.atStop.iff j r hr).mpr ⟨hlive, by omega, by omega⟩)

/-- Runs that are kept are returned. -/
theorem Translation.covers (t : Translation bs ranges start stop result)
    (hok : ∀ r ∈ ranges, r.Ok) (hapart : ranges.Pairwise fun r s => r.genEnd ≤ s.genStart)
    (hkept : Kept (ranges.map Range.run) start stop) (hr : ranges[j]? = some r) {p : Position}
    (hp : p ∈ r.positions) (hstart : start ≤ p.wasmPos) (hstop : p.wasmPos < stop) {byte : Nat}
    (hb : p.Has byte) : Covered result byte := by
  have hmem : r ∈ ranges := List.mem_of_getElem? hr
  have hrok := hok r hmem
  have hwasm := hrok.wasm p hp
  have hcode : r.run.HasCode start stop :=
    ⟨p, hp, hstart, hstop, Nat.lt_of_le_of_lt hb.1 hb.2⟩
  have hlive : ¬ Replaced ranges j r := by
    rintro ⟨j', s, hlt, hs, hfirst⟩
    obtain ⟨hj, rfl⟩ := List.getElem?_eq_some_iff.mp hr
    obtain ⟨hj', rfl⟩ := List.getElem?_eq_some_iff.mp hs
    have hpair := List.pairwise_map.mp hkept.unreplaced
    exact List.pairwise_iff_getElem.mp hpair j j' hj hj' hlt hcode hfirst
  obtain ⟨a, ha, -, -, haafter, haat⟩ := hrok.startAddress bs start
  obtain ⟨b, hbe, -, hbbefore, -⟩ := hrok.endAddress bs stop
  have hstarts : a ≤ p.genStart := by
    obtain heq | hlt := Nat.eq_or_lt_of_le hstart
    · obtain ⟨m, hm⟩ := List.getElem?_of_mem hp
      obtain hle | ⟨n, q, hmn, hq, hqpos⟩ := haat m p hm heq.symm
      · exact hle
      · have honce : r.positions.Pairwise fun p q => p.wasmPos = start → q.wasmPos = start →
            p.genEnd ≤ p.genStart := hkept.once r.run (List.mem_map_of_mem hmem)
        obtain ⟨hm', rfl⟩ := List.getElem?_eq_some_iff.mp hm
        obtain ⟨hn', rfl⟩ := List.getElem?_eq_some_iff.mp hq
        have := List.pairwise_iff_getElem.mp honce m n hm' hn' hmn heq.symm hqpos
        have := hb.1
        have := hb.2
        omega
    · exact haafter p hp hlt
  rw [t.covered_iff hok hapart hr hp hb]
  by_cases hfirst : r.wasmStart ≤ start
  · have hin₁ : j ∈ t.active₁ := (t.atStart.iff j r hr).mpr
      ⟨hlive, t.atStart.greatest r hmem hfirst, by have := t.atStart.le; omega⟩
    by_cases hin₂ : j ∈ t.active₂
    · exact ⟨a, b, .inl ⟨hin₂, hbe, .inl ⟨hin₁, ha⟩⟩, hstarts.trans hb.1,
        Nat.lt_of_lt_of_le hb.2 (hbbefore p hp hstop)⟩
    · exact ⟨a, r.genEnd, .inr ⟨hin₁, ha, hin₂, rfl⟩, hstarts.trans hb.1,
        Nat.lt_of_lt_of_le hb.2 (hrok.gen p hp).2.2⟩
  · have hin₁ : j ∉ t.active₁ := by
      intro hin
      have h₁ := ((t.atStart.iff j r hr).mp hin).2.1
      have h₂ := t.atStart.le
      omega
    have hend : t.k₂ ≤ r.wasmEnd := by
      by_contra hgt
      obtain ⟨s, hs, hk⟩ := t.atStop.start
      have h₁ := hkept.unpassed r.run (List.mem_map_of_mem hmem) hcode (Nat.not_le.mp hfirst) s.run
        (List.mem_map_of_mem hs) (show r.wasmEnd < s.wasmStart by omega)
      have h₂ := t.atStop.le
      have h₃ : stop < s.wasmStart := h₁
      omega
    have hin₂ : j ∈ t.active₂ := (t.atStop.iff j r hr).mpr
      ⟨hlive, t.atStop.greatest r hmem (by omega), hend⟩
    exact ⟨r.genStart, b, .inl ⟨hin₂, hbe, .inr ⟨hin₁, rfl⟩⟩, (hrok.gen p hp).1.trans hb.1,
      Nat.lt_of_lt_of_le hb.2 (hbbefore p hp hstop)⟩

/-- A run with code in `[start, stop)` that is returned is active at one of the ends. -/
theorem Translation.live (t : Translation bs ranges start stop result)
    (hok : ∀ r ∈ ranges, r.Ok) (hapart : ranges.Pairwise fun r s => r.genEnd ≤ s.genStart)
    (hcovers : ∀ r ∈ ranges, ∀ p ∈ r.positions, start ≤ p.wasmPos → p.wasmPos < stop →
      ∀ byte, p.Has byte → Covered result byte)
    (hr : ranges[j]? = some r) (hcode : r.run.HasCode start stop) :
    ¬ Replaced ranges j r ∧ (start < r.wasmStart → t.k₂ ≤ r.wasmEnd) := by
  obtain ⟨p, hp, h₁, h₂, hpos⟩ := hcode
  have hb : p.Has p.genStart := ⟨Nat.le_refl _, hpos⟩
  have hcovered := hcovers r (List.mem_of_getElem? hr) p hp h₁ h₂ _ hb
  obtain ⟨x, y, hpiece, -⟩ := (t.covered_iff hok hapart hr hp hb).mp hcovered
  have hk := t.atStart.le
  obtain ⟨hin₂, -⟩ | ⟨hin₁, -⟩ := hpiece
  · obtain ⟨hlive, -, hend⟩ := (t.atStop.iff j r hr).mp hin₂
    exact ⟨hlive, fun _ => hend⟩
  · obtain ⟨hlive, hstart, -⟩ := (t.atStart.iff j r hr).mp hin₁
    exact ⟨hlive, fun hlt => by omega⟩

end

/-! ## A search that finds the last match -/

/-- How many keys do not exceed `addr`, if the keys ascend. -/
def atMost (addr : Nat) : List Nat → Nat
  | [] => 0
  | k :: keys => if k ≤ addr then atMost addr keys + 1 else 0

theorem atMost_le (addr : Nat) (keys : List Nat) : atMost addr keys ≤ keys.length := by
  induction keys with
  | nil => exact Nat.le_refl _
  | cons k keys ih =>
    rw [atMost, List.length_cons]
    split
    · omega
    · omega

theorem le_iff_lt_atMost (addr : Nat) {keys : List Nat} {m k : Nat} (hs : keys.Pairwise (· ≤ ·))
    (hm : keys[m]? = some k) : k ≤ addr ↔ m < atMost addr keys := by
  induction keys generalizing m with
  | nil => simp at hm
  | cons a keys ih =>
    obtain ⟨ha, hs⟩ := List.pairwise_cons.mp hs
    rw [atMost]
    cases m with
    | zero =>
      obtain rfl : a = k := by simpa using hm
      split
      · omega
      · omega
    | succ m =>
      have hm : keys[m]? = some k := by simpa using hm
      have hle := ha k (List.mem_of_getElem? hm)
      have := ih hs hm
      split
      · omega
      · omega

/-- The index of the last match, or how many keys are smaller. -/
def lastMatch (keys : List Nat) (addr : Nat) : Except Nat Nat :=
  if keys[atMost addr keys - 1]? = some addr then .ok (atMost addr keys - 1)
  else .error (atMost addr keys)

/-- A search that returns the last of several matches. -/
def BinarySearch.last : BinarySearch where
  run := lastMatch
  ok {keys addr i} _ h := by
    unfold lastMatch at h
    split at h
    · next hn =>
      obtain rfl := Except.ok.inj h
      exact hn
    · cases h
  error {keys addr i} hs h := by
    unfold lastMatch at h
    split at h
    · cases h
    · next hn =>
      obtain rfl := Except.error.inj h
      have hlen := atMost_le addr keys
      refine ⟨hlen, fun k hk => ?_, fun k hk => ?_⟩
      · obtain ⟨m, hm, rfl⟩ := List.mem_take_iff_getElem.mp hk
        have hlt : m < atMost addr keys := by omega
        refine Nat.lt_of_le_of_ne ((le_iff_lt_atMost addr hs (by simp)).mpr hlt) fun heq => hn ?_
        -- all keys from this match up to the last one that does not exceed `addr` are matches
        have hget : keys[atMost addr keys - 1]? = some keys[atMost addr keys - 1] :=
          List.getElem?_eq_getElem (by omega)
        have hle := (le_iff_lt_atMost addr hs hget).mpr (by omega)
        obtain hm' | hm' : m = atMost addr keys - 1 ∨ m < atMost addr keys - 1 := by omega
        · rw [← hm', ← heq]
          exact List.getElem?_eq_getElem (by omega)
        · have := List.pairwise_iff_getElem.mp hs m (atMost addr keys - 1) (by omega) (by omega) hm'
          rw [hget]
          exact congrArg some (by omega)
      · obtain ⟨m, hm, rfl⟩ := List.mem_drop_iff_getElem.mp hk
        have hget : keys[atMost addr keys + m]? = some keys[atMost addr keys + m] :=
          List.getElem?_eq_getElem (by omega)
        have := le_iff_lt_atMost addr hs hget
        omega

/-- It finds the last match, and starts the code there. -/
theorem Range.Ok.startAddress_last {r : Range} (h : r.Ok) {addr a m n : Nat} {p q : Position}
    (ha : r.startAddress .last addr = some a) (hp : r.positions[m]? = some p)
    (hq : r.positions[n]? = some q) (hlt : m < n) (hqpos : q.wasmPos = addr) : p.genEnd ≤ a := by
  have hs : (r.positions.map Position.wasmPos).Pairwise (· ≤ ·) := List.pairwise_map.mpr h.sorted
  have hqn : (r.positions.map Position.wasmPos)[n]? = some addr := by
    rw [List.getElem?_map, hq, Option.map_some, hqpos]
  have hn := (le_iff_lt_atMost addr hs hqn).mp (Nat.le_refl _)
  have hlen := atMost_le addr (r.positions.map Position.wasmPos)
  rw [List.length_map] at hlen
  unfold Range.startAddress at ha
  cases hrun : BinarySearch.last.run (r.positions.map Position.wasmPos) addr with
  | ok i =>
    rw [hrun] at ha
    obtain ⟨q', hq', rfl⟩ := Option.map_eq_some_iff.mp ha
    have hi : i = atMost addr (r.positions.map Position.wasmPos) - 1 := by
      simp only [BinarySearch.last, lastMatch] at hrun
      split at hrun
      · exact (Except.ok.inj hrun).symm
      · cases hrun
    exact h.genEnd_le hp hq' (by omega)
  | error i =>
    obtain ⟨-, hbelow, habove⟩ := BinarySearch.last.error hs hrun
    have hmem := List.mem_of_getElem? hqn
    rw [← List.take_append_drop i (r.positions.map Position.wasmPos)] at hmem
    obtain hmem | hmem := List.mem_append.mp hmem
    · exact absurd (hbelow addr hmem) (Nat.lt_irrefl _)
    · exact absurd (habove addr hmem) (Nat.lt_irrefl _)

/-! ## The translation of a module -/

section

variable {ft : FunctionAddressMap} {codeSectionOffset : UInt64} {func : FuncTransform}
  {start stop : Nat}

theorem mem_code_iff {ranges : List Range} (hruns : ranges.map Range.run = ft.runs codeSectionOffset)
    {p : Position} : p ∈ ft.code codeSectionOffset ↔ ∃ r ∈ ranges, p ∈ r.positions := by
  have hcode : (ft.runs codeSectionOffset).flatMap Run.code = ft.code codeSectionOffset :=
    flatMap_runsFrom _ _ _
  rw [← hcode, ← hruns, List.flatMap_map, List.mem_flatMap]
  rfl

theorem BuildSpec.reaches (hspec : BuildSpec ft codeSectionOffset func.start func.stop func.lookup)
    (hstart : func.start ≤ start) : ∃ r ∈ func.lookup.ranges, r.wasmStart ≤ start :=
  hspec.first.imp fun _ h => ⟨h.1, h.2.le.trans hstart⟩

/-- Where the search that finds the last match loses no code, the runs are kept. -/
theorem kept_of_faithful {fuel : Nat} {result : List (Nat × Nat)}
    (hspec : BuildSpec ft codeSectionOffset func.start func.stop func.lookup)
    (hstart : func.start ≤ start) (hlt : start < stop)
    (hresult : func.translateRanges .last fuel start stop = some result)
    (hfaithful : Faithful (ft.code codeSectionOffset) start stop result) :
    Kept (ft.runs codeSectionOffset) start stop := by
  have hl := hspec.ok
  have hfirst := hspec.reaches hstart
  rw [← hspec.runs]
  obtain ⟨t⟩ := translateRanges_spec hl hfirst hlt.le hresult
  have hcovers : ∀ r ∈ func.lookup.ranges, ∀ p ∈ r.positions, start ≤ p.wasmPos →
      p.wasmPos < stop → ∀ byte, p.Has byte → Covered result byte := fun r hr p hp =>
    hfaithful.covers p ((mem_code_iff hspec.runs).mpr ⟨r, hr, hp⟩)
  constructor
  · intro s hs
    obtain ⟨r, hr, rfl⟩ := List.mem_map.mp hs
    exact (translateRanges_returns .last hl hfirst hlt.le).mp ⟨fuel, result, hresult⟩ r hr
  · refine List.pairwise_map.mpr (List.pairwise_iff_getElem.mpr fun j j' hj hj' hlt' hcode heq => ?_)
    have hlive := (t.live hl.ok hl.apart hcovers (List.getElem?_eq_getElem hj) hcode).1
    exact hlive ⟨j', _, hlt', List.getElem?_eq_getElem hj', heq⟩
  · intro s hs hcode hafter s' hs' hlast
    obtain ⟨r, hr, rfl⟩ := List.mem_map.mp hs
    obtain ⟨r', hr', rfl⟩ := List.mem_map.mp hs'
    obtain ⟨j, hj⟩ := List.getElem?_of_mem hr
    have h₁ := (t.live hl.ok hl.apart hcovers hj hcode).2 hafter
    have h₂ : r.wasmEnd < r'.wasmStart := hlast
    refine Nat.lt_of_not_le fun hle => ?_
    have := t.atStop.greatest r' hr' hle
    omega
  · intro s hs
    obtain ⟨r, hr, rfl⟩ := List.mem_map.mp hs
    refine List.pairwise_iff_getElem.mpr fun m n hm hn hmn hp hq => ?_
    have hpm : r.positions[m]? = some r.run.code[m] := List.getElem?_eq_getElem hm
    have hqn : r.positions[n]? = some r.run.code[n] := List.getElem?_eq_getElem hn
    generalize r.run.code[m] = p at *
    generalize r.run.code[n] = q at *
    -- were there code at the earlier of the two, it would be lost
    by_contra hcode
    have hmem : p ∈ r.positions := List.mem_of_getElem? hpm
    have hb : p.Has p.genStart := ⟨Nat.le_refl _, by omega⟩
    have hcovered := hcovers r hr p hmem (by omega) (by omega) _ hb
    obtain ⟨j, hj⟩ := List.getElem?_of_mem hr
    obtain ⟨x, y, hpiece, hx, -⟩ := (t.covered_iff hl.ok hl.apart hj hmem hb).mp hcovered
    have hrok := hl.ok r hr
    have hwasm := hrok.wasm p hmem
    have hin₁ : j ∈ t.active₁ → r.startAddress .last start = some x → False := by
      intro _ hx'
      have := hrok.startAddress_last hx' hpm hqn hmn hq
      omega
    obtain ⟨hin₂, -, ⟨h₁, h₂⟩ | ⟨h₁, -⟩⟩ | ⟨h₁, h₂, -⟩ := hpiece
    · exact hin₁ h₁ h₂
    · have hlive := ((t.atStop.iff j r hj).mp hin₂).1
      have hle := t.atStart.greatest r hr (by omega)
      have hk := t.atStart.le
      exact h₁ ((t.atStart.iff j r hj).mpr ⟨hlive, hle, by omega⟩)
    · exact hin₁ h₁ h₂

/-- Where the runs are kept, no search loses code. -/
theorem faithful_of_kept (hspec : BuildSpec ft codeSectionOffset func.start func.stop func.lookup)
    (hstart : func.start ≤ start) (hlt : start < stop)
    (hkept : Kept (ft.runs codeSectionOffset) start stop) (bs : BinarySearch) :
    ∃ fuel result, func.translateRanges bs fuel start stop = some result ∧
      Faithful (ft.code codeSectionOffset) start stop result := by
  have hl := hspec.ok
  have hfirst := hspec.reaches hstart
  rw [← hspec.runs] at hkept
  have hne : ∀ r ∈ func.lookup.ranges, r.wasmStart ≠ stop := fun r hr =>
    hkept.stops r.run (List.mem_map_of_mem hr)
  obtain ⟨fuel, result, hresult⟩ := (translateRanges_returns bs hl hfirst hlt.le).mpr hne
  obtain ⟨t⟩ := translateRanges_spec hl hfirst hlt.le hresult
  refine ⟨fuel, result, hresult, ?_, ?_⟩
  · intro p hp h₁ h₂ byte hb
    obtain ⟨r, hr, hp⟩ := (mem_code_iff hspec.runs).mp hp
    obtain ⟨j, hj⟩ := List.getElem?_of_mem hr
    exact t.covers hl.ok hl.apart hkept hj hp h₁ h₂ hb
  · intro p hp hout byte hb
    obtain ⟨r, hr, hp⟩ := (mem_code_iff hspec.runs).mp hp
    obtain ⟨j, hj⟩ := List.getElem?_of_mem hr
    exact t.excludes hl.ok hl.apart hlt hj hp hout hb


end

/-- An entry of the functions of a module: the function, and what was built from it. -/
structure Entry (codeSectionOffset : UInt64) (e : FunctionAddressMap × Nat) (f : FuncTransform) :
    Prop where
  build : buildFunctionLookup e.1 codeSectionOffset = some (f.start, f.stop, f.lookup)
  index : f.index = e.2
  start : f.start = e.1.fnStart codeSectionOffset
  stop : f.stop = e.1.fnEnd codeSectionOffset
  le : f.start ≤ f.stop

/-- The functions that have been inserted. -/
structure Inserted (codeSectionOffset : UInt64) (done : List (FunctionAddressMap × Nat))
    (func : Std.TreeMap Nat FuncTransform) : Prop where
  sound : ∀ (k : Nat) (f : FuncTransform), func[k]? = some f →
    ∃ e ∈ done, Entry codeSectionOffset e f ∧ f.start = k
  complete : ∀ e ∈ done, ∃ f, func[e.1.fnStart codeSectionOffset]? = some f ∧
    Entry codeSectionOffset e f

/-- The functions of a module lie one after the other in its code section. -/
def Apart (codeSectionOffset : UInt64) (functions : List FunctionAddressMap) : Prop :=
  functions.Pairwise fun a b => a.fnEnd codeSectionOffset < b.fnStart codeSectionOffset

section

variable {codeSectionOffset : UInt64}

theorem insert_entry {func func' : Std.TreeMap Nat FuncTransform} {e : FunctionAddressMap × Nat}
    (h : AddressTransform.insert codeSectionOffset func e = some func') :
    ∃ f, Entry codeSectionOffset e f ∧ func' = func.insert f.start f := by
  obtain ⟨⟨fnStart, fnEnd, lookup⟩, hbuild, rfl⟩ := Option.map_eq_some_iff.mp h
  have hbuilt := built_of_buildFunctionLookup hbuild
  exact ⟨⟨fnStart, fnEnd, e.2, lookup⟩, ⟨hbuild, rfl, hbuilt.start, hbuilt.stop, hbuilt.le⟩, rfl⟩

theorem Inserted.insert {func func' : Std.TreeMap Nat FuncTransform}
    {done : List (FunctionAddressMap × Nat)} {e : FunctionAddressMap × Nat}
    (h : Inserted codeSectionOffset done func)
    (hafter : ∀ d ∈ done, d.1.fnEnd codeSectionOffset < e.1.fnStart codeSectionOffset)
    (hinsert : AddressTransform.insert codeSectionOffset func e = some func') :
    Inserted codeSectionOffset (done ++ [e]) func' := by
  obtain ⟨f, hf, rfl⟩ := insert_entry hinsert
  refine ⟨fun k g hg => ?_, fun d hd => ?_⟩
  · rw [Std.TreeMap.getElem?_insert] at hg
    by_cases hk : f.start = k
    · obtain rfl : f = g := by simpa [hk] using hg
      exact ⟨e, by simp, hf, hk⟩
    · obtain ⟨d, hd, h⟩ := h.sound k g (by simpa [hk] using hg)
      exact ⟨d, List.mem_append_left _ hd, h⟩
  · obtain hd | hd := List.mem_append.mp hd
    · obtain ⟨g, hg, hentry⟩ := h.complete d hd
      have hlt := hafter d hd
      have hne : f.start ≠ d.1.fnStart codeSectionOffset := by
        have h₁ := hf.start
        have h₂ := hentry.start
        have h₃ := hentry.stop
        have h₄ := hentry.le
        omega
      exact ⟨g, by simpa [Std.TreeMap.getElem?_insert, hne] using hg, hentry⟩
    · obtain rfl := List.mem_singleton.mp hd
      exact ⟨f, by simp [hf.start], hf⟩

theorem Inserted.foldlM {entries done : List (FunctionAddressMap × Nat)}
    {func func' : Std.TreeMap Nat FuncTransform} (h : Inserted codeSectionOffset done func)
    (hapart : (done ++ entries).Pairwise fun a b =>
      a.1.fnEnd codeSectionOffset < b.1.fnStart codeSectionOffset)
    (hfold : entries.foldlM (AddressTransform.insert codeSectionOffset) func = some func') :
    Inserted codeSectionOffset (done ++ entries) func' := by
  induction entries generalizing done func with
  | nil =>
    obtain rfl := Option.some.inj hfold
    simpa using h
  | cons e entries ih =>
    rw [List.foldlM_cons] at hfold
    obtain ⟨func₁, hinsert, hfold⟩ := Option.bind_eq_some_iff.mp hfold
    have hsplit : done ++ e :: entries = (done ++ [e]) ++ entries := by simp
    rw [hsplit] at hapart ⊢
    have hdone := (List.pairwise_append.mp (List.pairwise_append.mp hapart).1).2.2
    exact ih (h.insert (fun d hd => hdone d hd e (List.mem_singleton_self e)) hinsert) hapart hfold

/-- The function an address lies in is found. -/
theorem findFunc_spec (bs : BinarySearch) {functions : List FunctionAddressMap} {t : AddressTransform}
    {i addr : Nat} {ft : FunctionAddressMap} (hnew : AddressTransform.new functions codeSectionOffset = some t)
    (hapart : Apart codeSectionOffset functions) (hi : functions[i]? = some ft)
    (hstart : ft.fnStart codeSectionOffset ≤ addr) (hend : addr ≤ ft.fnEnd codeSectionOffset) :
    ∃ func, t.findFunc bs addr = some func ∧ Entry codeSectionOffset (ft, i) func := by
  obtain ⟨func, hfold, rfl⟩ := Option.map_eq_some_iff.mp hnew
  have hzip : functions.zipIdx.Pairwise fun (a b : FunctionAddressMap × Nat) =>
      a.1.fnEnd codeSectionOffset < b.1.fnStart codeSectionOffset := by
    have hfst : functions.zipIdx.map Prod.fst = functions := List.zipIdx_map_fst 0 functions
    unfold Apart at hapart
    rw [← hfst] at hapart
    exact List.pairwise_map.mp hapart
  have hempty : Inserted codeSectionOffset [] ∅ := ⟨by simp, by simp⟩
  have hins : Inserted codeSectionOffset ([] ++ functions.zipIdx) func := hempty.foldlM hzip hfold
  rw [List.nil_append] at hins
  have hmem : (ft, i) ∈ functions.zipIdx := List.mem_zipIdx_iff_getElem?.mpr hi
  obtain ⟨f, hf, hentry⟩ := hins.complete _ hmem
  have hkey : (ft.fnStart codeSectionOffset, f) ∈ func.toList :=
    Std.TreeMap.mem_toList_iff_getElem?_eq_some.mpr hf
  obtain ⟨g, hg, hfloor, hle, hmax⟩ := floorEntry_spec bs (toList_sorted func) hkey hstart
  obtain ⟨d, hd, hgentry, hgk⟩ := hins.sound g.1 g.2 (Std.TreeMap.mem_toList_iff_getElem?_eq_some.mp hg)
  have hgmax := hmax _ hkey hstart
  simp only at hgmax
  have hstart' := hgentry.start
  have hstop' := hgentry.stop
  have hle' := hgentry.le
  -- no other function starts between the start of this one and the address
  have hsame : d = (ft, i) := by
    obtain ⟨m, hm, rfl⟩ := List.getElem_of_mem hd
    obtain ⟨n, hn, hnft⟩ := List.getElem_of_mem hmem
    have hpair := List.pairwise_iff_getElem.mp hzip
    obtain hlt | rfl | hlt := Nat.lt_trichotomy m n
    · have := hpair m n hm hn hlt
      rw [hnft] at this
      simp only at this
      omega
    · exact hnft
    · have := hpair n m hn hm hlt
      rw [hnft] at this
      simp only at this
      omega
  subst hsame
  refine ⟨g.2, ?_, hgentry⟩
  rw [AddressTransform.findFunc, hfloor, Option.bind_some, if_pos (by omega)]

/-- The translation of `[start, stop)` in function `i` returns, and holds the code of the instructions
in it and none of those outside. To `start = 0`, debug information without code, it returns nothing. -/
def LosesNoCode (bs : BinarySearch) (t : AddressTransform) (i : Nat) (code : List Position)
    (start stop : Nat) : Prop :=
  ∃ fuel r, t.translateRangesRaw bs fuel start stop = some r ∧
    (start ≠ 0 → ∃ result, r = some (i, result) ∧ Faithful code start stop result)

theorem translateRangesRaw_of_found {bs : BinarySearch} {t : AddressTransform} {func : FuncTransform}
    {fuel start stop : Nat} (hstart : start ≠ 0) (h : t.findFunc bs start = some func) :
    t.translateRangesRaw bs fuel start stop =
      (func.translateRanges bs fuel start stop).map fun result => some (func.index, result) := by
  rw [AddressTransform.translateRangesRaw, if_neg hstart, h]

variable {functions : List FunctionAddressMap} {t : AddressTransform} {i start stop : Nat}
  {ft : FunctionAddressMap}

theorem LosesNoCode.kept (hnew : AddressTransform.new functions codeSectionOffset = some t)
    (hapart : Apart codeSectionOffset functions) (hi : functions[i]? = some ft) (hlaid : ft.Laid)
    (hstart : ft.fnStart codeSectionOffset ≤ start) (hlt : start < stop)
    (hstop : stop ≤ ft.fnEnd codeSectionOffset) (h0 : start ≠ 0)
    (h : LosesNoCode .last t i (ft.code codeSectionOffset) start stop) :
    Kept (ft.runs codeSectionOffset) start stop := by
  obtain ⟨func, hfound, hentry⟩ := findFunc_spec .last hnew hapart hi hstart (by omega)
  have hspec := buildFunctionLookup_spec hlaid hentry.build
  have hle : func.start ≤ start := by have := hspec.start; omega
  obtain ⟨fuel, r, hr, hresult⟩ := h
  obtain ⟨result, rfl, hfaithful⟩ := hresult h0
  rw [translateRangesRaw_of_found h0 hfound] at hr
  obtain ⟨result', hresult', heq⟩ := Option.map_eq_some_iff.mp hr
  obtain ⟨-, rfl⟩ := Prod.mk.inj (Option.some.inj heq)
  exact kept_of_faithful hspec hle hlt hresult' hfaithful

theorem Kept.losesNoCode (hnew : AddressTransform.new functions codeSectionOffset = some t)
    (hapart : Apart codeSectionOffset functions) (hi : functions[i]? = some ft) (hlaid : ft.Laid)
    (hstart : ft.fnStart codeSectionOffset ≤ start) (hlt : start < stop)
    (hstop : stop ≤ ft.fnEnd codeSectionOffset) (h0 : start ≠ 0)
    (hkept : Kept (ft.runs codeSectionOffset) start stop) (bs : BinarySearch) :
    LosesNoCode bs t i (ft.code codeSectionOffset) start stop := by
  obtain ⟨func, hfound, hentry⟩ := findFunc_spec bs hnew hapart hi hstart (by omega)
  have hspec := buildFunctionLookup_spec hlaid hentry.build
  have hle : func.start ≤ start := by have := hspec.start; omega
  obtain ⟨fuel, result, hresult, hfaithful⟩ := faithful_of_kept hspec hle hlt hkept bs
  refine ⟨fuel, some (i, result), ?_, fun _ => ⟨result, rfl, hfaithful⟩⟩
  rw [translateRangesRaw_of_found h0 hfound, hresult, Option.map_some, hentry.index]

/-- **Headline.** The ranges of `[start, stop)` hold all the code of the instructions in it and none of
those outside, whichever match `binary_search_by` returns, iff the runs of the function are kept. -/
theorem translateRanges_iff (hnew : AddressTransform.new functions codeSectionOffset = some t)
    (hapart : Apart codeSectionOffset functions) (hi : functions[i]? = some ft) (hlaid : ft.Laid)
    (hstart : ft.fnStart codeSectionOffset ≤ start) (hlt : start < stop)
    (hstop : stop ≤ ft.fnEnd codeSectionOffset) :
    (∀ bs, LosesNoCode bs t i (ft.code codeSectionOffset) start stop) ↔
      start = 0 ∨ Kept (ft.runs codeSectionOffset) start stop := by
  by_cases h0 : start = 0
  · refine ⟨fun _ => .inl h0, fun _ bs => ⟨0, none, ?_, fun h => absurd h0 h⟩⟩
    rw [AddressTransform.translateRangesRaw, if_pos h0]
  · constructor
    · intro h
      exact .inr ((h .last).kept hnew hapart hi hlaid hstart hlt hstop h0)
    · rintro (h | h)
      · exact absurd h h0
      · exact h.losesNoCode hnew hapart hi hlaid hstart hlt hstop h0

end

/-- A function with code at 14, then at 12 and 13, then again at 12. -/
def repeated : FunctionAddressMap where
  instructions := [⟨15, 0, 4⟩, ⟨13, 4, 4⟩, ⟨14, 8, 4⟩, ⟨13, 12, 4⟩]
  startSrcloc := 11
  endSrcloc := 21
  bodyOffset := 0
  bodyLen := 16

theorem laid_repeated : repeated.Laid := ⟨by decide, by decide⟩

/-- The lookup of that function. -/
def repeatedTransform : AddressTransform where
  map := buildFunctionAddrMap [repeated] 1
  func := [(10, ⟨10, 20, 0, ⟨[(10, [0]), (12, [0, 2])], [⟨10, 14, 0, 4, [⟨14, 0, 4⟩]⟩,
    ⟨12, 13, 4, 12, [⟨12, 4, 8⟩, ⟨13, 8, 12⟩]⟩, ⟨12, 20, 12, 16, [⟨12, 12, 16⟩]⟩]⟩⟩)]

theorem new_repeated : AddressTransform.new [repeated] 1 = some repeatedTransform := by rfl

theorem runs_repeated : repeated.runs 1 = [⟨10, 14, [⟨14, 0, 4⟩]⟩,
    ⟨12, 13, [⟨12, 4, 8⟩, ⟨13, 8, 12⟩]⟩, ⟨12, 20, [⟨12, 12, 16⟩]⟩] := by decide

/-- From 14 on the function is translated faithfully. -/
theorem translateRanges_repeated :
    Kept (repeated.runs 1) 14 16 ∧ ∀ bs, LosesNoCode bs repeatedTransform 0 (repeated.code 1) 14 16 := by
  have hkept : Kept (repeated.runs 1) 14 16 := by
    rw [runs_repeated]
    exact ⟨by decide, by decide, by decide, by decide⟩
  refine ⟨hkept, (translateRanges_iff new_repeated (List.pairwise_singleton _ _) rfl laid_repeated
    (by decide) (by decide) (by decide)).mpr (.inr hkept)⟩

/-- The first run of 12 and 13 is replaced in the index, and its bytes 4 to 11 are lost. -/
theorem not_losesNoCode_repeated :
    repeatedTransform.translateRangesRaw .last 3 11 16 = some (some (0, [(0, 4), (12, 16)])) ∧
      ¬ LosesNoCode .last repeatedTransform 0 (repeated.code 1) 11 16 := by
  refine ⟨by rfl, fun h => ?_⟩
  have hkept := h.kept new_repeated (List.pairwise_singleton _ _) rfl laid_repeated (by decide)
    (by decide) (by decide) (by decide)
  have hpair := hkept.unreplaced
  rw [runs_repeated] at hpair
  exact absurd hpair (by decide)

end Wasmtime.Debug
