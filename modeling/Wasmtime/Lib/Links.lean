import Mathlib

/-!
# Doubly linked lists

Cells in a heap, each with a link to the next cell and a link to the cell before it.

* `Links`: how a cell holds its links, next to a value that a change of the links leaves alone.
* `Segment heap before first ps last after`: from `first` on the links run through the cells `ps` to `after`;
  `before` is in front of them and `last` is the last of them.
* `Linked`: a whole list.
* `pushFront`, `unlink`: a cell linked in at the front, a cell taken out anywhere. `none` is an access to a cell
  that is not there.
* `walk`: the cells from a link on.

Results: `linked_pushFront`, `linked_unlink`, and `Linked.walk_eq` (a walk goes through the cells of the list).
-/

/-- How a cell holds its links. -/
structure Links (P ν α : Type) where
  next : ν → Option P
  prev : ν → Option P
  val : ν → α
  setNext : Option P → ν → ν
  setPrev : Option P → ν → ν
  next_setNext : ∀ q n, next (setNext q n) = q
  prev_setNext : ∀ q n, prev (setNext q n) = prev n
  val_setNext : ∀ q n, val (setNext q n) = val n
  next_setPrev : ∀ q n, next (setPrev q n) = next n
  prev_setPrev : ∀ q n, prev (setPrev q n) = q
  val_setPrev : ∀ q n, val (setPrev q n) = val n

namespace Links

section

variable {P ν α : Type} (L : Links P ν α)

/-- The values of the cells. -/
def vals (heap : P → Option ν) : P → Option α := fun p => (heap p).map L.val

/-- Cells linked in both directions. -/
def Segment (heap : P → Option ν) : Option P → Option P → List P → Option P → Option P → Prop
  | before, first, [], last, after => last = before ∧ first = after
  | before, first, p :: ps, last, after => first = some p ∧
      ∃ n, heap p = some n ∧ L.prev n = before ∧ Segment heap (some p) (L.next n) ps last after

/-- A list, from the link to its first cell. -/
structure Linked (heap : P → Option ν) (first : Option P) (ps : List P) : Prop where
  nodup : ps.Nodup
  segment : ∃ last, L.Segment heap none first ps last none

/-- The cells from a link on. -/
def walk (heap : P → Option ν) : Nat → Option P → Option (List P)
  | _, none => some []
  | 0, some _ => none
  | fuel + 1, some p => (heap p).bind fun n => (walk heap fuel (L.next n)).map (p :: ·)

variable {L} {heap heap' : P → Option ν} {before first last after : Option P} {ps qs : List P}

/-- Two segments meet in a link and in the cell before it. -/
theorem segment_append : L.Segment heap before first (ps ++ qs) last after ↔
    ∃ m q, L.Segment heap before first ps m q ∧ L.Segment heap m q qs last after := by
  induction ps generalizing before first with
  | nil =>
    constructor
    · intro h
      exact ⟨before, first, ⟨rfl, rfl⟩, h⟩
    · rintro ⟨m, q, ⟨rfl, rfl⟩, h⟩
      exact h
  | cons p ps ih =>
    constructor
    · rintro ⟨hfirst, n, hn, hprev, h⟩
      obtain ⟨m, q, hps, hqs⟩ := ih.mp h
      exact ⟨m, q, ⟨hfirst, n, hn, hprev, hps⟩, hqs⟩
    · rintro ⟨m, q, ⟨hfirst, n, hn, hprev, hps⟩, hqs⟩
      exact ⟨hfirst, n, hn, hprev, ih.mpr ⟨m, q, hps, hqs⟩⟩

/-- A segment depends on its own cells only. -/
theorem Segment.congr (h : L.Segment heap before first ps last after) (hheap : ∀ p ∈ ps, heap' p = heap p) :
    L.Segment heap' before first ps last after := by
  induction ps generalizing before first with
  | nil => exact h
  | cons p ps ih =>
    obtain ⟨hfirst, n, hn, hprev, h⟩ := h
    obtain ⟨hp, hps⟩ := List.forall_mem_cons.mp hheap
    exact ⟨hfirst, n, hp.trans hn, hprev, ih h hps⟩

/-- The cells of a segment are there. -/
theorem Segment.isSome (h : L.Segment heap before first ps last after) : ∀ p ∈ ps, (heap p).isSome := by
  induction ps generalizing before first with
  | nil => exact fun p hp => absurd hp List.not_mem_nil
  | cons p ps ih =>
    obtain ⟨-, n, hn, -, h⟩ := h
    refine List.forall_mem_cons.mpr ⟨?_, ih h⟩
    rw [hn]
    rfl

/-- A walk goes through the cells. -/
theorem Segment.walk_eq (h : L.Segment heap before first ps last none) {fuel : Nat} (hfuel : ps.length ≤ fuel) :
    L.walk heap fuel first = some ps := by
  induction ps generalizing before first fuel with
  | nil =>
    obtain ⟨-, rfl⟩ := h
    cases fuel <;> rfl
  | cons p ps ih =>
    obtain ⟨rfl, n, hn, -, h⟩ := h
    obtain ⟨fuel, rfl⟩ : ∃ f, fuel = f + 1 := ⟨fuel - 1, by rw [List.length_cons] at hfuel; omega⟩
    rw [walk, hn, Option.bind_some, ih h (by rw [List.length_cons] at hfuel; omega)]
    rfl

theorem Linked.isSome (h : L.Linked heap first ps) : ∀ p ∈ ps, (heap p).isSome :=
  h.segment.elim fun _ hseg => hseg.isSome

theorem Linked.walk_eq (h : L.Linked heap first ps) {fuel : Nat} (hfuel : ps.length ≤ fuel) :
    L.walk heap fuel first = some ps :=
  h.segment.elim fun _ hseg => hseg.walk_eq hfuel

/-- A list depends on its own cells only. -/
theorem Linked.congr (h : L.Linked heap first ps) (hheap : ∀ p ∈ ps, heap' p = heap p) : L.Linked heap' first ps :=
  ⟨h.nodup, h.segment.elim fun last hseg => ⟨last, hseg.congr hheap⟩⟩

theorem linked_nil (heap : P → Option ν) : L.Linked heap none [] := ⟨List.nodup_nil, none, rfl, rfl⟩

end

section

variable {P ν α : Type} [DecidableEq P] (L : Links P ν α)

/-- Change a cell. -/
def modify (heap : P → Option ν) (p : P) (f : ν → ν) : Option (P → Option ν) :=
  (heap p).map fun n => Function.update heap p (some (f n))

/-- Change the cell that a link points to, if it points to one. -/
def modifyAt (heap : P → Option ν) (link : Option P) (f : ν → ν) : Option (P → Option ν) :=
  match link with
  | none => some heap
  | some p => modify heap p f

/-- A new cell at `p` becomes the first. -/
def pushFront (heap : P → Option ν) (first : Option P) (p : P) (n : ν) : Option (P → Option ν) :=
  modifyAt (Function.update heap p (some n)) first (L.setPrev (some p))

/-- The cell at `p` is taken out, and stays where it is. -/
def unlink (heap : P → Option ν) (first : Option P) (p : P) : Option ((P → Option ν) × Option P) :=
  (heap p).bind fun n => (modifyAt heap (L.prev n) (L.setNext (L.next n))).bind fun heap₁ =>
    (heap₁ p).bind fun n₁ => (modifyAt heap₁ (L.next n₁) (L.setPrev (L.prev n₁))).map fun heap₂ =>
      (heap₂, if (L.prev n).isNone then L.next n else first)

variable {L} {heap : P → Option ν} {before first last after : Option P} {ps xs ys : List P} {p : P} {n : ν}

theorem vals_update {f : ν → ν} (hn : heap p = some n) (hf : L.val (f n) = L.val n) :
    L.vals (Function.update heap p (some (f n))) = L.vals heap := by
  funext q
  by_cases hq : q = p
  · rw [hq, vals, vals, Function.update_self, Option.map_some, hf, hn, Option.map_some]
  · rw [vals, vals, Function.update_of_ne hq]

theorem update_of_notMem {c : Option ν} (hp : p ∉ ps) : ∀ q ∈ ps, Function.update heap p c q = heap q := by
  intro q hq
  refine Function.update_of_ne ?_ ..
  rintro rfl
  exact hp hq

/-- The link behind a segment is changed in its last cell, or it is the link to the first. -/
theorem Segment.setNext (h : L.Segment heap none first ps last after) (hnodup : ps.Nodup) (q : Option P) :
    ∃ heap', modifyAt heap last (L.setNext q) = some heap' ∧
      L.Segment heap' none (if last.isNone then q else first) ps last q ∧
      (∀ r, r ∉ ps → heap' r = heap r) ∧ L.vals heap' = L.vals heap := by
  rcases List.eq_nil_or_concat' ps with rfl | ⟨ps, r, rfl⟩
  · obtain ⟨rfl, -⟩ := h
    exact ⟨heap, rfl, ⟨rfl, rfl⟩, fun _ _ => rfl, rfl⟩
  · obtain ⟨m, _, hps, rfl, n, hn, hprev, rfl, -⟩ := (segment_append).mp h
    have hr : r ∉ ps := fun hr => (List.nodup_append.mp hnodup).2.2 r hr r List.mem_cons_self rfl
    refine ⟨Function.update heap r (some (L.setNext q n)), by rw [modifyAt, modify, hn]; rfl, ?_, ?_,
      vals_update hn (L.val_setNext q n)⟩
    · refine (segment_append).mpr ⟨m, some r, hps.congr (update_of_notMem hr), rfl, L.setNext q n,
        Function.update_self .., ?_, rfl, ?_⟩
      · rw [L.prev_setNext, hprev]
      · rw [L.next_setNext]
    · intro s hs
      exact Function.update_of_ne (fun he => hs (by rw [he]; simp)) ..

/-- The link in front of a segment is changed in its first cell. -/
theorem Segment.setPrev (h : L.Segment heap before first ps last none) (hnodup : ps.Nodup) (q : Option P) :
    ∃ heap' last', modifyAt heap first (L.setPrev q) = some heap' ∧
      L.Segment heap' q first ps last' none ∧ (∀ r, r ∉ ps → heap' r = heap r) ∧
      L.vals heap' = L.vals heap := by
  cases ps with
  | nil =>
    obtain ⟨-, rfl⟩ := h
    exact ⟨heap, q, rfl, ⟨rfl, rfl⟩, fun _ _ => rfl, rfl⟩
  | cons r ps =>
    obtain ⟨rfl, n, hn, -, h⟩ := h
    have hr := (List.nodup_cons.mp hnodup).1
    refine ⟨Function.update heap r (some (L.setPrev q n)), last, by rw [modifyAt, modify, hn]; rfl,
      ⟨rfl, L.setPrev q n, Function.update_self .., L.prev_setPrev q n, ?_⟩, ?_,
      vals_update hn (L.val_setPrev q n)⟩
    · rw [L.next_setPrev]
      exact h.congr (update_of_notMem hr)
    · intro s hs
      exact Function.update_of_ne (fun he => hs (by rw [he]; exact List.mem_cons_self)) ..

/-- **A new cell is linked in at the front.** -/
theorem linked_pushFront (h : L.Linked heap first ps) (hp : heap p = none) (hnext : L.next n = first)
    (hprev : L.prev n = none) : ∃ heap', L.pushFront heap first p n = some heap' ∧
      L.Linked heap' (some p) (p :: ps) ∧ L.vals heap' = Function.update (L.vals heap) p (some (L.val n)) := by
  obtain ⟨last, hseg⟩ := h.segment
  have hnew : p ∉ ps := by
    intro hmem
    have hsome := h.isSome p hmem
    rw [hp] at hsome
    exact Bool.false_ne_true hsome
  have hseg' : L.Segment (Function.update heap p (some n)) none first ps last none :=
    hseg.congr (update_of_notMem hnew)
  obtain ⟨heap', last', hheap, hlinked, hframe, hvals⟩ := hseg'.setPrev h.nodup (some p)
  refine ⟨heap', hheap, ⟨List.nodup_cons.mpr ⟨hnew, h.nodup⟩, last', rfl, n, ?_, hprev, ?_⟩, ?_⟩
  · rw [hframe p hnew, Function.update_self]
  · rw [hnext]
    exact hlinked
  · rw [hvals]
    funext q
    by_cases hq : q = p
    · rw [hq, vals, Function.update_self, Function.update_self]
      rfl
    · rw [vals, Function.update_of_ne hq, Function.update_of_ne hq]
      rfl

/-- **A cell is taken out.** -/
theorem linked_unlink (h : L.Linked heap first (xs ++ p :: ys)) : ∃ heap' first',
    L.unlink heap first p = some (heap', first') ∧ L.Linked heap' first' (xs ++ ys) ∧
      L.vals heap' = L.vals heap := by
  obtain ⟨last, hseg⟩ := h.segment
  obtain ⟨m, _, hxs, rfl, n, hn, hprev, hys⟩ := (segment_append).mp hseg
  obtain ⟨hnxs, hnpys, hapart⟩ := List.nodup_append.mp h.nodup
  obtain ⟨hpys, hnys⟩ := List.nodup_cons.mp hnpys
  have hpxs : p ∉ xs := fun hp => hapart p hp p List.mem_cons_self rfl
  have hxy : ∀ q ∈ ys, q ∉ xs := fun q hq hx => hapart q hx q (List.mem_cons_of_mem _ hq) rfl
  -- the front part now ends in the link of the cell
  obtain ⟨heap₁, hmod₁, hxs₁, hframe₁, hvals₁⟩ := hxs.setNext hnxs (L.next n)
  have hys₁ := hys.congr (fun q hq => hframe₁ q (hxy q hq))
  -- and the back part begins behind the front part
  obtain ⟨heap₂, last₂, hmod₂, hys₂, hframe₂, hvals₂⟩ := hys₁.setPrev hnys m
  have hxs₂ := hxs₁.congr fun q hq => hframe₂ q fun hq' => hxy q hq' hq
  refine ⟨heap₂, if m.isNone then L.next n else first, ?_, ⟨?_, last₂, (segment_append).mpr
    ⟨m, L.next n, hxs₂, hys₂⟩⟩, hvals₂.trans hvals₁⟩
  · rw [unlink, hn, Option.bind_some, hprev, hmod₁, Option.bind_some, hframe₁ p hpxs, hn, Option.bind_some, hprev,
      hmod₂, Option.map_some]
  · exact List.nodup_append.mpr ⟨hnxs, hnys, fun a ha b hb he => hxy b hb (he ▸ ha)⟩

end

end Links
