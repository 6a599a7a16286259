import Mathlib

/-!
# Reachability by a worklist

What is reached from some roots along a successor function: every root's successors are marked and queued,
then those of what is taken from the queue, until the queue is empty.

* `expand` marks and queues the successors that are not marked yet; `run` empties the queue, with fuel.
* `reach` starts from the roots, which are marked but not queued.

Results: `mem_reach` (what is marked in the end is what is reachable), `Reaches.mem_of_closed` (it is in every
closed set with the roots), and `exists_reach` (with finitely many successors some fuel is enough).
-/

namespace Worklist

variable {α : Type}

/-! ## Reachability -/

/-- Reachability along the successor function. -/
def Reaches (succ : α → List α) (roots : List α) (x : α) : Prop :=
  ∃ r ∈ roots, Relation.ReflTransGen (fun a b => b ∈ succ a) r x

/-- A closed set that holds the roots holds what is reachable. -/
theorem Reaches.mem_of_closed {succ : α → List α} {roots : List α} {x : α} {p : α → Prop}
    (hroots : ∀ r ∈ roots, p r) (hclosed : ∀ z, p z → ∀ y ∈ succ z, p y) (h : Reaches succ roots x) : p x := by
  obtain ⟨r, hr, hreach⟩ := h
  induction hreach with
  | refl => exact hroots r hr
  | tail _ hstep ih => exact hclosed _ ih _ hstep

theorem Reaches.of_mem {succ : α → List α} {roots : List α} {r : α} (h : r ∈ roots) : Reaches succ roots r :=
  ⟨r, h, .refl⟩

theorem Reaches.step {succ : α → List α} {roots : List α} {x y : α} (h : Reaches succ roots x)
    (hy : y ∈ succ x) : Reaches succ roots y := by
  obtain ⟨r, hr, hreach⟩ := h
  exact ⟨r, hr, hreach.tail hy⟩

/-! ## The worklist -/

variable [DecidableEq α]

/-- What has been marked, and what of it is still to be expanded. -/
structure State (α : Type) where
  seen : List α
  queue : List α

/-- Marks and queues one element, unless it is marked. -/
def State.add (s : State α) (y : α) : State α := if y ∈ s.seen then s else ⟨y :: s.seen, y :: s.queue⟩

/-- Marks and queues successors. -/
def State.expand (s : State α) (ys : List α) : State α := ys.foldl State.add s

/-- Empties the queue. -/
def run (succ : α → List α) : Nat → State α → Option (List α)
  | 0, _ => none
  | fuel + 1, s =>
    match s.queue with
    | [] => some s.seen
    | x :: queue => run succ fuel (State.expand ⟨s.seen, queue⟩ (succ x))

/-- What is reached from the roots. -/
def reach (succ : α → List α) (fuel : Nat) (roots : List α) : Option (List α) :=
  run succ fuel (roots.foldl (fun s r => s.expand (succ r)) ⟨roots, []⟩)

/-- All that is marked is reachable, all that is queued is marked, and what is marked but neither queued nor
`pending` has its successors marked. -/
structure Inv (succ : α → List α) (roots pending : List α) (s : State α) : Prop where
  start : ∀ r ∈ roots, r ∈ s.seen
  sound : ∀ x ∈ s.seen, Reaches succ roots x
  queue : ∀ x ∈ s.queue, x ∈ s.seen
  closed : ∀ x ∈ s.seen, x ∈ s.queue ∨ x ∈ pending ∨ ∀ y ∈ succ x, y ∈ s.seen

section

variable {succ : α → List α} {roots pending : List α} {s : State α} {x y : α}

theorem mem_add : x ∈ (s.add y).seen ↔ x = y ∨ x ∈ s.seen := by
  rw [State.add]
  split
  · next hmem => exact ⟨.inr, fun h => h.elim (fun heq => heq ▸ hmem) id⟩
  · exact List.mem_cons

theorem mem_expand {ys : List α} : x ∈ (s.expand ys).seen ↔ x ∈ ys ∨ x ∈ s.seen := by
  induction ys generalizing s with
  | nil => simp [State.expand]
  | cons y ys ih =>
    have hstep : (s.expand (y :: ys)).seen = ((s.add y).expand ys).seen := rfl
    rw [hstep, ih, mem_add, List.mem_cons, or_left_comm, or_assoc]

/-- What a step marks it queues. -/
theorem add_queue : (∀ z ∈ s.queue, z ∈ (s.add y).queue) ∧
    ∀ z ∈ (s.add y).seen, z ∈ s.seen ∨ z ∈ (s.add y).queue := by
  rw [State.add]
  split
  · exact ⟨fun _ h => h, fun _ h => .inl h⟩
  · refine ⟨fun z hz => List.mem_cons_of_mem y hz, fun z hz => ?_⟩
    rcases List.mem_cons.mp hz with rfl | hz
    · exact .inr List.mem_cons_self
    · exact .inl hz

theorem expand_queue {ys : List α} : (∀ z ∈ s.queue, z ∈ (s.expand ys).queue) ∧
    ∀ z ∈ (s.expand ys).seen, z ∈ s.seen ∨ z ∈ (s.expand ys).queue := by
  induction ys generalizing s with
  | nil => exact ⟨fun _ h => h, fun _ h => .inl h⟩
  | cons y ys ih =>
    have hstep : s.expand (y :: ys) = (s.add y).expand ys := rfl
    rw [hstep]
    obtain ⟨hkept, hnew⟩ := @ih (s.add y)
    obtain ⟨hkept₁, hnew₁⟩ := @add_queue _ _ s y
    refine ⟨fun z hz => hkept z (hkept₁ z hz), fun z hz => ?_⟩
    rcases hnew z hz with hz | hz
    · exact (hnew₁ z hz).imp_right (hkept z)
    · exact .inr hz

theorem queue_expand {ys : List α} (h : ∀ z ∈ s.queue, z ∈ s.seen) :
    ∀ z ∈ (s.expand ys).queue, z ∈ (s.expand ys).seen := by
  induction ys generalizing s with
  | nil => exact h
  | cons y ys ih =>
    refine @ih (s.add y) fun z hz => ?_
    rw [State.add] at hz ⊢
    split
    · next hmem =>
      rw [if_pos hmem] at hz
      exact h z hz
    · next hmem =>
      rw [if_neg hmem] at hz
      rcases List.mem_cons.mp hz with rfl | hz
      · exact List.mem_cons_self
      · exact List.mem_cons_of_mem y (h z hz)

/-- **Expanding an element that is pending.** -/
theorem Inv.expand (h : Inv succ roots (x :: pending) s) (hx : x ∈ s.seen) :
    Inv succ roots pending (s.expand (succ x)) where
  start r hr := mem_expand.mpr (.inr (h.start r hr))
  sound z hz := by
    rcases mem_expand.mp hz with hz | hz
    · exact (h.sound x hx).step hz
    · exact h.sound z hz
  queue := queue_expand h.queue
  closed z hz := by
    obtain ⟨hkept, hnew⟩ := @expand_queue _ _ s (succ x)
    rcases hnew z hz with hz | hz
    · rcases h.closed z hz with hz | hz | hz
      · exact .inl (hkept z hz)
      · rcases List.mem_cons.mp hz with rfl | hz
        · exact .inr (.inr fun y hy => mem_expand.mpr (.inl hy))
        · exact .inr (.inl hz)
      · exact .inr (.inr fun y hy => mem_expand.mpr (.inr (hz y hy)))
    · exact .inl hz

/-- The first loop. -/
theorem Inv.roots_foldl (hpending : ∀ r ∈ pending, r ∈ s.seen) (h : Inv succ roots pending s) :
    Inv succ roots [] (pending.foldl (fun s r => s.expand (succ r)) s) := by
  induction pending generalizing s with
  | nil => exact h
  | cons r pending ih =>
    refine ih (fun r' hr' => ?_) (h.expand (hpending r List.mem_cons_self))
    exact mem_expand.mpr (.inr (hpending r' (List.mem_cons_of_mem r hr')))

/-- The second loop. -/
theorem Inv.run {fuel : Nat} {seen : List α} (h : Inv succ roots [] s)
    (hrun : Worklist.run succ fuel s = some seen) : Inv succ roots [] ⟨seen, []⟩ := by
  induction fuel generalizing s with
  | zero => cases hrun
  | succ fuel ih =>
    obtain ⟨marked, queue⟩ := s
    cases queue with
    | nil =>
      obtain rfl := Option.some.inj hrun
      exact h
    | cons x queue =>
      have hpopped : Inv succ roots [x] ⟨marked, queue⟩ := by
        refine ⟨h.start, h.sound, fun z hz => h.queue z (List.mem_cons_of_mem x hz), fun z hz => ?_⟩
        rcases h.closed z hz with hz | hz | hz
        · rcases List.mem_cons.mp hz with rfl | hz
          · exact .inr (.inl List.mem_cons_self)
          · exact .inl hz
        · cases hz
        · exact .inr (.inr hz)
      exact ih (hpopped.expand (h.queue x List.mem_cons_self)) hrun

theorem inv_reach {fuel : Nat} {seen : List α} (h : reach succ fuel roots = some seen) :
    Inv succ roots [] ⟨seen, []⟩ := by
  refine Inv.run (Inv.roots_foldl (fun r hr => hr) ⟨fun r hr => hr, fun r hr => ?_, fun z hz => ?_,
    fun r hr => .inr (.inl hr)⟩) h
  · exact .of_mem hr
  · cases hz

/-- **What is marked in the end is what is reachable.** -/
theorem mem_reach {fuel : Nat} {seen : List α} (h : reach succ fuel roots = some seen) :
    x ∈ seen ↔ Reaches succ roots x := by
  have hinv := inv_reach h
  refine ⟨hinv.sound x, fun hx => hx.mem_of_closed hinv.start fun z hz => ?_⟩
  rcases hinv.closed z hz with hq | hp | hclosed
  · cases hq
  · cases hp
  · exact hclosed

/-! ## Fuel -/

/-- How much is left to do: the elements not marked yet count twice. -/
def measure (all : List α) (s : State α) : Nat :=
  2 * (all.filter fun u => decide (u ∉ s.seen)).length + s.queue.length

theorem measure_add {all : List α} (hy : y ∈ all) : measure all (s.add y) ≤ measure all s := by
  rw [State.add]
  split
  · exact Nat.le_refl _
  · next hnew =>
    have hfilter : (all.filter fun u => decide (u ∉ y :: s.seen)) =
        (all.filter fun u => decide (u ∉ s.seen)).filter fun u => decide (u ≠ y) := by
      rw [List.filter_filter]
      refine List.filter_congr fun u _ => ?_
      simp [not_or]
    have hlt : (all.filter fun u => decide (u ∉ y :: s.seen)).length <
        (all.filter fun u => decide (u ∉ s.seen)).length := by
      rw [hfilter, List.length_filter_lt_length_iff_exists]
      exact ⟨y, List.mem_filter.mpr ⟨hy, decide_eq_true hnew⟩, by simp⟩
    simp only [measure, List.length_cons]
    omega

theorem measure_expand {all ys : List α} (hys : ∀ y ∈ ys, y ∈ all) :
    measure all (s.expand ys) ≤ measure all s := by
  induction ys generalizing s with
  | nil => exact Nat.le_refl _
  | cons y ys ih =>
    exact (@ih (s.add y) fun z hz => hys z (List.mem_cons_of_mem y hz)).trans
      (measure_add (hys y List.mem_cons_self))

theorem exists_run {all : List α} (hall : ∀ x, ∀ y ∈ succ x, y ∈ all) {fuel : Nat}
    (hfuel : measure all s < fuel) : ∃ seen, run succ fuel s = some seen := by
  induction fuel generalizing s with
  | zero => cases hfuel
  | succ fuel ih =>
    obtain ⟨marked, queue⟩ := s
    cases queue with
    | nil => exact ⟨marked, rfl⟩
    | cons x queue =>
      refine @ih (State.expand ⟨marked, queue⟩ (succ x)) ?_
      have hexpand : measure all (State.expand ⟨marked, queue⟩ (succ x)) ≤ measure all ⟨marked, queue⟩ :=
        measure_expand (hall x)
      simp only [measure, List.length_cons] at hfuel hexpand ⊢
      omega

/-- **With finitely many successors some fuel is enough.** -/
theorem exists_reach {all : List α} (hall : ∀ x, ∀ y ∈ succ x, y ∈ all) (roots : List α) :
    ∃ fuel seen, reach succ fuel roots = some seen := by
  obtain ⟨seen, hseen⟩ := exists_run hall (Nat.lt_succ_self (measure all
    (roots.foldl (fun s r => s.expand (succ r)) ⟨roots, []⟩)))
  exact ⟨_, seen, hseen⟩

end

end Worklist
