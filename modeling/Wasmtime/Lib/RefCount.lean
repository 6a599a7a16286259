import Mathlib

/-!
# Reference counts

Cells that refer to each other and count the references to them. `retain` adds a reference; `release`
takes references away, and a cell that loses its last one is dropped and its own references are taken
away in turn. `none` is a use of a cell that is not there any more.

* `Balanced held cells work`: each count is the number of references held outside (`held`), by cells
  that are not dropped (`entries`) and still to be taken away (`work`), and exactly the cells with
  count zero are dropped.
* `release_cons`: the loop without its fuel, which is always enough.

Results:
* `retain_spec`, `release_spec`, `push_spec`: the operations keep the balance, and never touch a
  dropped cell.
* `Balanced.live_of_reaches`: what a cell that is not dropped refers to, through any number of cells,
  is not dropped.
-/

namespace RefCount

/-- A cell: its count, the cells it refers to, and whether it has been dropped. -/
structure Cell where
  refcount : Nat
  references : List Nat
  dropped : Bool
  deriving DecidableEq, Repr

/-- Another reference to cell `k`. -/
def retain (cells : List Cell) (k : Nat) : Option (List Cell) :=
  cells[k]?.bind fun c =>
    if c.dropped then none else some (cells.set k { c with refcount := c.refcount + 1 })

/-- The references of the cells that are not dropped: how often `release` can go on. -/
def pending (cells : List Cell) : Nat :=
  (cells.map fun c => if c.dropped then 0 else c.references.length).sum

/-- The loop of `release`, over the references still to be taken away. -/
def releaseLoop : Nat → List Cell → List Nat → Option (List Cell)
  | _, cells, [] => some cells
  | 0, _, _ :: _ => none
  | fuel + 1, cells, k :: work =>
    cells[k]?.bind fun c =>
      if c.dropped ∨ c.refcount = 0 then none
      else if c.refcount = 1 then
        releaseLoop fuel (cells.set k { c with refcount := 0, dropped := true })
          (c.references ++ work)
      else releaseLoop fuel (cells.set k { c with refcount := c.refcount - 1 }) work

/-- Takes references away, one after the other. -/
def release (cells : List Cell) (work : List Nat) : Option (List Cell) :=
  releaseLoop (pending cells + work.length) cells work

/-! ## Sums over cells -/

section

variable {cells : List Cell} {k : Nat} {c : Cell}

theorem sum_map_set (f : Cell → Nat) (hk : cells[k]? = some c) (c' : Cell) :
    ((cells.set k c').map f).sum + f c = (cells.map f).sum + f c' := by
  induction cells generalizing k with
  | nil => exact absurd hk (by simp)
  | cons a cells ih =>
    cases k with
    | zero =>
      obtain rfl := Option.some.inj hk
      simp only [List.set_cons_zero, List.map_cons, List.sum_cons]
      omega
    | succ k =>
      have := ih hk
      simp only [List.set_cons_succ, List.map_cons, List.sum_cons]
      omega

/-- The references to `k` from the cells that are not dropped. -/
def entries (cells : List Cell) (k : Nat) : Nat :=
  (cells.map fun c => if c.dropped then 0 else c.references.count k).sum

theorem pending_set (hk : cells[k]? = some c) (refcount : Nat) :
    pending (cells.set k { c with refcount }) = pending cells := by
  have h := sum_map_set (fun c => if c.dropped then 0 else c.references.length) hk { c with refcount }
  simp only at h
  unfold pending
  omega

theorem pending_drop (hk : cells[k]? = some c) (hd : c.dropped = false) :
    pending (cells.set k { c with refcount := 0, dropped := true }) + c.references.length =
      pending cells := by
  have h := sum_map_set (fun c => if c.dropped then 0 else c.references.length) hk
    { c with refcount := 0, dropped := true }
  simp only [hd, Bool.false_eq_true, if_false, if_true] at h
  unfold pending
  omega

theorem entries_set (hk : cells[k]? = some c) (refcount j : Nat) :
    entries (cells.set k { c with refcount }) j = entries cells j := by
  have h := sum_map_set (fun c => if c.dropped then 0 else c.references.count j) hk
    { c with refcount }
  simp only at h
  unfold entries
  omega

theorem entries_drop (hk : cells[k]? = some c) (hd : c.dropped = false) (j : Nat) :
    entries (cells.set k { c with refcount := 0, dropped := true }) j + c.references.count j =
      entries cells j := by
  have h := sum_map_set (fun c => if c.dropped then 0 else c.references.count j) hk
    { c with refcount := 0, dropped := true }
  simp only [hd, Bool.false_eq_true, if_false, if_true] at h
  unfold entries
  omega

theorem entries_snoc (cells : List Cell) (c : Cell) (hd : c.dropped = false) (j : Nat) :
    entries (cells ++ [c]) j = entries cells j + c.references.count j := by
  simp [entries, hd]

end

/-! ## The loop without its fuel -/

theorem releaseLoop_fuel {fuel : Nat} {cells : List Cell} {work : List Nat}
    (h : pending cells + work.length ≤ fuel) :
    releaseLoop (fuel + 1) cells work = releaseLoop fuel cells work := by
  induction fuel generalizing cells work with
  | zero =>
    have hwork : work = [] := List.eq_nil_of_length_eq_zero (by omega)
    rw [hwork, releaseLoop, releaseLoop]
  | succ fuel ih =>
    cases work with
    | nil => rw [releaseLoop, releaseLoop]
    | cons k work =>
      rw [List.length_cons] at h
      rw [releaseLoop, releaseLoop]
      cases hk : cells[k]? with
      | none => rfl
      | some c =>
        rw [Option.bind_some, Option.bind_some]
        by_cases hgone : c.dropped ∨ c.refcount = 0
        · rw [if_pos hgone, if_pos hgone]
        have hd : c.dropped = false := by
          simpa using fun hd => hgone (Or.inl hd)
        rw [if_neg hgone, if_neg hgone]
        by_cases hone : c.refcount = 1
        · rw [if_pos hone, if_pos hone]
          refine ih ?_
          have := pending_drop hk hd
          rw [List.length_append]
          omega
        · rw [if_neg hone, if_neg hone]
          refine ih ?_
          rw [pending_set hk]
          omega

theorem releaseLoop_eq {fuel : Nat} {cells : List Cell} {work : List Nat}
    (h : pending cells + work.length ≤ fuel) : releaseLoop fuel cells work = release cells work := by
  obtain ⟨n, rfl⟩ := Nat.exists_eq_add_of_le h
  induction n with
  | zero => rfl
  | succ n ih =>
    have hle := Nat.le_add_right (pending cells + work.length) n
    exact (releaseLoop_fuel hle).trans (ih hle)

theorem release_nil (cells : List Cell) : release cells [] = some cells := by
  rw [release, releaseLoop]

/-- One round of the loop. -/
theorem release_cons {cells : List Cell} {k : Nat} {work : List Nat} {c : Cell}
    (hk : cells[k]? = some c) (hd : c.dropped = false) (hpos : c.refcount ≠ 0) :
    release cells (k :: work) = if c.refcount = 1 then
        release (cells.set k { c with refcount := 0, dropped := true }) (c.references ++ work)
      else release (cells.set k { c with refcount := c.refcount - 1 }) work := by
  have hlive : ¬ (c.dropped ∨ c.refcount = 0) := by
    rw [hd]
    simpa using hpos
  rw [release, List.length_cons, ← Nat.add_assoc, releaseLoop, hk, Option.bind_some, if_neg hlive]
  by_cases hone : c.refcount = 1
  · rw [if_pos hone, if_pos hone]
    refine releaseLoop_eq ?_
    have := pending_drop hk hd
    rw [List.length_append]
    omega
  · rw [if_neg hone, if_neg hone]
    refine releaseLoop_eq ?_
    have := pending_set hk (c.refcount - 1)
    omega

/-! ## The balance -/

/-- The cell is there and has not been dropped. -/
def Live (cells : List Cell) (k : Nat) : Prop := ∃ c, cells[k]? = some c ∧ c.dropped = false

/-- One cell refers to another. -/
def Refers (cells : List Cell) (k d : Nat) : Prop := ∃ c, cells[k]? = some c ∧ d ∈ c.references

/-- One cell refers to another through any number of cells. -/
def Reaches (cells : List Cell) : Nat → Nat → Prop := Relation.ReflTransGen (Refers cells)

/-- Every count is accounted for: by references held outside, by cells that are not dropped, and by
those still to be taken away. -/
structure Balanced (held : Nat → Nat) (cells : List Cell) (work : List Nat) : Prop where
  count : ∀ (k : Nat) c, cells[k]? = some c →
    c.refcount = held k + entries cells k + work.count k
  dropped : ∀ (k : Nat) c, cells[k]? = some c → (c.dropped = true ↔ c.refcount = 0)
  references : ∀ (k : Nat) c, cells[k]? = some c → ∀ d ∈ c.references, d < cells.length
  work : ∀ k ∈ work, k < cells.length

/-- What `retain` and `release` leave alone: the references, and what has been dropped. -/
structure Frame (cells cells' : List Cell) : Prop where
  length : cells'.length = cells.length
  cell : ∀ (k : Nat) c', cells'[k]? = some c' → ∃ c, cells[k]? = some c ∧
    c'.references = c.references ∧ (c.dropped = true → c'.dropped = true)

theorem Frame.refl (cells : List Cell) : Frame cells cells := ⟨rfl, fun _ c h => ⟨c, h, rfl, id⟩⟩

theorem Frame.trans {a b c : List Cell} (hab : Frame a b) (hbc : Frame b c) : Frame a c := by
  refine ⟨hbc.length.trans hab.length, fun k z hz => ?_⟩
  obtain ⟨y, hy, hzy, hdy⟩ := hbc.cell k z hz
  obtain ⟨x, hx, hyx, hdx⟩ := hab.cell k y hy
  exact ⟨x, hx, hzy.trans hyx, fun h => hdy (hdx h)⟩

theorem frame_set {cells : List Cell} {k : Nat} {c : Cell} (hk : cells[k]? = some c) (c' : Cell)
    (hr : c'.references = c.references) (hd : c.dropped = true → c'.dropped = true) :
    Frame cells (cells.set k c') := by
  refine ⟨List.length_set .., fun j z hz => ?_⟩
  rw [List.getElem?_set] at hz
  by_cases hj : k = j
  · subst hj
    rw [if_pos rfl, if_pos (List.getElem?_eq_some_iff.mp hk).1] at hz
    obtain rfl := Option.some.inj hz
    exact ⟨c, hk, hr, hd⟩
  · rw [if_neg hj] at hz
    exact ⟨z, hz, rfl, id⟩

theorem Frame.refers {cells cells' : List Cell} (hf : Frame cells cells') {k d : Nat} :
    Refers cells' k d ↔ Refers cells k d := by
  constructor
  · rintro ⟨c', hk, hd⟩
    obtain ⟨c, hc, hr, -⟩ := hf.cell k c' hk
    exact ⟨c, hc, hr ▸ hd⟩
  · rintro ⟨c, hk, hd⟩
    have hlt : k < cells'.length := by
      rw [hf.length]
      exact (List.getElem?_eq_some_iff.mp hk).1
    obtain ⟨c₀, hc₀, hr, -⟩ := hf.cell k _ (List.getElem?_eq_getElem hlt)
    obtain rfl := Option.some.inj (hk.symm.trans hc₀)
    exact ⟨_, List.getElem?_eq_getElem hlt, hr ▸ hd⟩

theorem Frame.reaches {cells cells' : List Cell} (hf : Frame cells cells') :
    Reaches cells' = Reaches cells := by
  have hrefers : Refers cells' = Refers cells := by
    funext k d
    exact propext hf.refers
  rw [Reaches, Reaches, hrefers]

theorem Frame.live {cells cells' : List Cell} (hf : Frame cells cells') {k : Nat}
    (hl : Live cells' k) : Live cells k := by
  obtain ⟨c', hk, hd⟩ := hl
  obtain ⟨c, hc, -, hdrop⟩ := hf.cell k c' hk
  refine ⟨c, hc, ?_⟩
  by_contra h
  rw [hdrop (by simpa using h)] at hd
  exact absurd hd (by simp)

section

variable {held held' : Nat → Nat} {cells : List Cell} {work work' : List Nat} {k d : Nat}

/-- References can be held or be work. -/
theorem Balanced.move (hb : Balanced held cells work)
    (heq : ∀ k, k < cells.length → held' k + work'.count k = held k + work.count k)
    (hw : ∀ k ∈ work', k < cells.length) : Balanced held' cells work' := by
  refine ⟨fun k c hk => ?_, hb.dropped, hb.references, hw⟩
  have hcount := hb.count k c hk
  have hmove := heq k (List.getElem?_eq_some_iff.mp hk).1
  omega

/-- A reference to be taken away is held instead. -/
theorem Balanced.hold (hb : Balanced held cells (k :: work)) :
    Balanced (Function.update held k (held k + 1)) cells work := by
  refine hb.move (fun j _ => ?_) fun j hj => hb.work j (List.mem_cons_of_mem _ hj)
  by_cases hj : j = k
  · subst hj
    rw [Function.update_self, List.count_cons_self]
    omega
  · rw [Function.update_of_ne hj, List.count_cons_of_ne (Ne.symm hj)]

/-- A reference that is held is to be taken away. -/
theorem Balanced.unhold (hb : Balanced held cells work) (hk : k < cells.length)
    (hpos : 0 < held k) : Balanced (Function.update held k (held k - 1)) cells (k :: work) := by
  refine hb.move (fun j _ => ?_) (List.forall_mem_cons.mpr ⟨hk, hb.work⟩)
  by_cases hj : j = k
  · subst hj
    rw [Function.update_self, List.count_cons_self]
    omega
  · rw [Function.update_of_ne hj, List.count_cons_of_ne (Ne.symm hj)]

/-- A cell that something refers to is not dropped. -/
theorem Balanced.live (hb : Balanced held cells work) (hk : k < cells.length)
    (hpos : 0 < held k + entries cells k + work.count k) : Live cells k := by
  have hget := List.getElem?_eq_getElem hk
  refine ⟨cells[k], hget, ?_⟩
  have hcount := hb.count k _ hget
  have hdrop := hb.dropped k _ hget
  by_contra hd
  have := hdrop.mp (by simpa using hd)
  omega

theorem entries_pos (hl : Live cells k) (hr : Refers cells k d) : 0 < entries cells d := by
  obtain ⟨c, hk, hlive⟩ := hl
  obtain ⟨c', hk', hd⟩ := hr
  obtain rfl := Option.some.inj (hk.symm.trans hk')
  have hpos : 0 < c.references.count d := List.count_pos_iff.mpr hd
  have hsum := entries_drop hk hlive d
  omega

/-- What a live cell refers to is live. -/
theorem Balanced.live_of_refers (hb : Balanced held cells work) (hl : Live cells k)
    (hr : Refers cells k d) : Live cells d := by
  have hpos := entries_pos hl hr
  obtain ⟨c, hk, hd⟩ := hr
  exact hb.live (hb.references k c hk d hd) (by omega)

/-- **What a live cell reaches is live.** -/
theorem Balanced.live_of_reaches (hb : Balanced held cells work) (hl : Live cells k)
    (hr : Reaches cells k d) : Live cells d := by
  unfold Reaches at hr
  induction hr with
  | refl => exact hl
  | tail _ hstep ih => exact hb.live_of_refers ih hstep

/-! ## The operations keep the balance -/

theorem forall_set {α : Type} {l : List α} {k : Nat} {a : α} {P : Nat → α → Prop}
    (h : ∀ j b, j ≠ k → l[j]? = some b → P j b) (ha : P k a) :
    ∀ j b, (l.set k a)[j]? = some b → P j b := by
  intro j b hb
  rw [List.getElem?_set] at hb
  by_cases hj : k = j
  · subst hj
    rw [if_pos rfl, Option.ite_none_right_eq_some] at hb
    obtain rfl := Option.some.inj hb.2
    exact ha
  · rw [if_neg hj] at hb
    exact h j b (Ne.symm hj) hb

/-- A reference that is taken away at once has changed nothing. -/
theorem release_retain (hb : Balanced held cells work) (hl : Live cells k) :
    (retain cells k).bind (release · [k]) = some cells := by
  obtain ⟨c, hk, hd⟩ := hl
  have hlt := (List.getElem?_eq_some_iff.mp hk).1
  have hpos : c.refcount ≠ 0 := fun h => by
    rw [(hb.dropped k c hk).mpr h] at hd
    exact absurd hd (by simp)
  have hk' : (cells.set k { c with refcount := c.refcount + 1 })[k]? =
      some { c with refcount := c.refcount + 1 } := List.getElem?_set_self hlt
  have hsame : cells.set k c = cells := by
    obtain ⟨_, rfl⟩ := List.getElem?_eq_some_iff.mp hk
    exact List.set_getElem_self hlt
  rw [retain, hk, Option.bind_some, if_neg (by simp [hd]), Option.bind_some,
    release_cons hk' hd (by simp), if_neg (by simpa using hpos), release_nil, List.set_set]
  simp only [Nat.add_sub_cancel, hsame]

theorem retain_spec (hb : Balanced held cells work) (hl : Live cells k) :
    ∃ cells', retain cells k = some cells' ∧ Balanced held cells' (k :: work) ∧
      Frame cells cells' ∧ ∀ j, Live cells j → Live cells' j := by
  obtain ⟨c, hk, hd⟩ := hl
  have hlt := (List.getElem?_eq_some_iff.mp hk).1
  refine ⟨cells.set k { c with refcount := c.refcount + 1 }, ?_, ⟨?_, ?_, ?_, ?_⟩,
    frame_set hk _ rfl id, ?_⟩
  · rw [retain, hk, Option.bind_some, hd]
    rfl
  · refine forall_set (fun j z hj hz => ?_) ?_
    · rw [entries_set hk, List.count_cons_of_ne (Ne.symm hj)]
      exact hb.count j z hz
    · have hcount := hb.count k c hk
      rw [entries_set hk, List.count_cons_self]
      simp only
      omega
  · refine forall_set (fun j z _ hz => hb.dropped j z hz) ?_
    simp [hd]
  · rw [List.length_set]
    exact forall_set (fun j z _ hz => hb.references j z hz) (hb.references k c hk)
  · rw [List.length_set]
    exact List.forall_mem_cons.mpr ⟨hlt, hb.work⟩
  · rintro j ⟨z, hz, hzd⟩
    by_cases hj : k = j
    · subst hj
      exact ⟨_, List.getElem?_set_self hlt, hd⟩
    · exact ⟨z, by rw [List.getElem?_set_ne hj]; exact hz, hzd⟩

/-- One round of `release` on a cell that keeps a reference. -/
theorem Balanced.decrement (hb : Balanced held cells (k :: work)) {c : Cell}
    (hk : cells[k]? = some c) (hd : c.dropped = false) (hone : c.refcount ≠ 1) :
    Balanced held (cells.set k { c with refcount := c.refcount - 1 }) work := by
  have hcount := hb.count k c hk
  rw [List.count_cons_self] at hcount
  refine ⟨?_, ?_, ?_, ?_⟩
  · refine forall_set (fun j z hj hz => ?_) ?_
    · have := hb.count j z hz
      rw [List.count_cons_of_ne (Ne.symm hj)] at this
      rw [entries_set hk]
      exact this
    · rw [entries_set hk]
      simp only
      omega
  · refine forall_set (fun j z _ hz => hb.dropped j z hz) ?_
    simp only [hd, Bool.false_eq_true, false_iff]
    omega
  · rw [List.length_set]
    exact forall_set (fun j z _ hz => hb.references j z hz) (hb.references k c hk)
  · rw [List.length_set]
    exact fun j hj => hb.work j (List.mem_cons_of_mem _ hj)

/-- One round of `release` on a cell that loses its last reference: its own are to be taken away. -/
theorem Balanced.drop (hb : Balanced held cells (k :: work)) {c : Cell} (hk : cells[k]? = some c)
    (hd : c.dropped = false) (hone : c.refcount = 1) :
    Balanced held (cells.set k { c with refcount := 0, dropped := true }) (c.references ++ work) := by
  have hcount := hb.count k c hk
  rw [List.count_cons_self] at hcount
  refine ⟨?_, ?_, ?_, ?_⟩
  · refine forall_set (fun j z hj hz => ?_) ?_
    · have hz := hb.count j z hz
      have hsum := entries_drop hk hd j
      rw [List.count_cons_of_ne (Ne.symm hj)] at hz
      rw [List.count_append]
      omega
    · have hsum := entries_drop hk hd k
      rw [List.count_append]
      simp only
      omega
  · refine forall_set (fun j z _ hz => hb.dropped j z hz) ?_
    simp
  · rw [List.length_set]
    exact forall_set (fun j z _ hz => hb.references j z hz) (hb.references k c hk)
  · rw [List.length_set]
    exact fun j hj => (List.mem_append.mp hj).elim (hb.references k c hk j)
      fun hj => hb.work j (List.mem_cons_of_mem _ hj)

/-- **Releasing never touches a dropped cell, and keeps the balance.** -/
theorem release_spec (hb : Balanced held cells work) :
    ∃ cells', release cells work = some cells' ∧ Balanced held cells' [] ∧ Frame cells cells' := by
  -- each round takes one reference away, and the references of a cell join the work only once
  induction hn : pending cells + work.length using Nat.strongRecOn generalizing cells work with
  | _ n ih =>
    cases work with
    | nil => exact ⟨cells, release_nil cells, hb, .refl cells⟩
    | cons k work =>
      have hlt := hb.work k (List.mem_cons_self ..)
      have hpos : 0 < held k + entries cells k + (k :: work).count k := by
        rw [List.count_cons_self]
        omega
      obtain ⟨c, hk, hd⟩ := hb.live hlt hpos
      have hcount := hb.count k c hk
      rw [List.length_cons] at hn
      rw [release_cons hk hd (by omega)]
      by_cases hone : c.refcount = 1
      · have hpend := pending_drop hk hd
        obtain ⟨cells', hrel, hb', hf⟩ := ih _ (by rw [List.length_append]; omega)
          (hb.drop hk hd hone) rfl
        have hset := frame_set hk { c with refcount := 0, dropped := true } rfl fun _ => rfl
        exact ⟨cells', by rw [if_pos hone, hrel], hb', hset.trans hf⟩
      · have hpend := pending_set hk (c.refcount - 1)
        obtain ⟨cells', hrel, hb', hf⟩ := ih _ (by omega) (hb.decrement hk hd hone) rfl
        have hset := frame_set hk { c with refcount := c.refcount - 1 } rfl id
        exact ⟨cells', by rw [if_neg hone, hrel], hb', hset.trans hf⟩

theorem entries_eq_zero (hb : Balanced held cells work) : entries cells cells.length = 0 := by
  refine List.sum_eq_zero fun n hn => ?_
  obtain ⟨c, hc, rfl⟩ := List.mem_map.mp hn
  obtain ⟨j, hj⟩ := List.mem_iff_getElem?.mp hc
  have hnone : c.references.count cells.length = 0 :=
    List.count_eq_zero.mpr fun hmem => Nat.lt_irrefl _ (hb.references j c hj _ hmem)
  rw [hnone, ite_self]

theorem forall_snoc {α : Type} {l : List α} {a : α} {P : Nat → α → Prop}
    (h : ∀ j b, l[j]? = some b → P j b) (ha : P l.length a) :
    ∀ j b, (l ++ [a])[j]? = some b → P j b := by
  intro j b hb
  by_cases hj : j < l.length
  · rw [List.getElem?_append_left hj] at hb
    exact h j b hb
  · rw [List.getElem?_append_right (Nat.not_lt.mp hj)] at hb
    obtain ⟨hz, rfl⟩ := List.getElem?_eq_some_iff.mp hb
    rw [List.length_singleton] at hz
    obtain rfl : j = l.length := by omega
    rw [List.getElem_singleton]
    exact ha

/-- A new cell takes over the references that were to be taken away, and its own is still to be. -/
theorem push_spec (hb : Balanced held cells work) (hfresh : held cells.length = 0) :
    Balanced held (cells ++ [⟨1, work, false⟩]) [cells.length] := by
  have hnone : work.count cells.length = 0 :=
    List.count_eq_zero.mpr fun hmem => Nat.lt_irrefl _ (hb.work _ hmem)
  have hlen : (cells ++ [(⟨1, work, false⟩ : Cell)]).length = cells.length + 1 := by simp
  refine ⟨?_, ?_, ?_, ?_⟩
  · refine forall_snoc (fun j c hj => ?_) ?_
    · have hlt := (List.getElem?_eq_some_iff.mp hj).1
      have hcount := hb.count j c hj
      have hne : [cells.length].count j = 0 :=
        List.count_eq_zero.mpr fun hmem => by
          have := List.mem_singleton.mp hmem
          omega
      rw [entries_snoc cells _ rfl, hne]
      simp only
      omega
    · rw [entries_snoc cells _ rfl, entries_eq_zero hb, hfresh]
      simp [hnone]
  · exact forall_snoc hb.dropped (by simp)
  · rw [hlen]
    refine forall_snoc (fun j c hj d hd => ?_) (fun d hd => ?_)
    · have := hb.references j c hj d hd
      omega
    · have := hb.work d hd
      omega
  · rw [hlen]
    intro j hj
    have := List.mem_singleton.mp hj
    omega

theorem refers_last (cells : List Cell) {c : Cell} (hd : d ∈ c.references) :
    Refers (cells ++ [c]) cells.length d :=
  ⟨c, List.getElem?_concat_length .., hd⟩

theorem Reaches.snoc (hr : Reaches cells k d) (c : Cell) : Reaches (cells ++ [c]) k d := by
  refine Relation.ReflTransGen.mono (fun a b hab => ?_) _ _ hr
  obtain ⟨c', ha, hb⟩ := hab
  refine ⟨c', ?_, hb⟩
  rw [List.getElem?_append_left (List.getElem?_eq_some_iff.mp ha).1]
  exact ha

end

end RefCount
