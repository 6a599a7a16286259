import Mathlib.Data.List.Basic
import Mathlib.Tactic.Ring

/-!
# Loads and stores in a buffer

A buffer is a list of cells. A load or a store whose range is not inside the buffer is `none`.

* `load`, `store`: a range of cells at a signed offset.
* `storeAll`: stores one after the other.
* `slots size bss`: the stores that put the `i`-th chunk at offset `i * size`.

Results: `storeAll_slots` (slots that fit are all stored, and each one can be read back),
`loadAll_slots` (reading the slots in order gives the chunks).
-/

namespace Buffer

variable {α : Type}

/-- The `n` cells from `off` on. -/
def load (buf : List α) (off : Int) (n : Nat) : Option (List α) :=
  if 0 ≤ off ∧ off.toNat + n ≤ buf.length then some ((buf.drop off.toNat).take n) else none

/-- The buffer with the cells from `off` on overwritten by `cells`. -/
def store (buf : List α) (off : Int) (cells : List α) : Option (List α) :=
  if 0 ≤ off ∧ off.toNat + cells.length ≤ buf.length then
    some (buf.take off.toNat ++ cells ++ buf.drop (off.toNat + cells.length))
  else none

/-- Stores one after the other; `none` as soon as one is outside the buffer. -/
def storeAll (buf : List α) : List (Int × List α) → Option (List α)
  | [] => some buf
  | w :: ws => (store buf w.1 w.2).bind (storeAll · ws)

/-- The stores that put the `i`-th chunk, counted from `k`, at `i * size`. -/
def slots (size : Nat) (k : Nat) (bss : List (List α)) : List (Int × List α) :=
  (bss.zipIdx k).map fun p => (((p.2 * size : Nat) : Int), p.1)

theorem load_eq_some {buf : List α} {i n : Nat} (h : i + n ≤ buf.length) :
    load buf i n = some ((buf.drop i).take n) := by
  simp [load, h]

/-- A store inside the buffer: what it leaves, what it wrote, and that it touched nothing else. -/
theorem store_spec (buf cells : List α) (i : Nat) (h : i + cells.length ≤ buf.length) :
    ∃ buf', store buf i cells = some buf' ∧ buf'.length = buf.length ∧
      load buf' i cells.length = some cells ∧
      ∀ j n, j + n ≤ i → load buf' j n = load buf j n := by
  refine ⟨buf.take i ++ cells ++ buf.drop (i + cells.length), by simp [store, h], ?_, ?_, ?_⟩
  · simp only [List.length_append, List.length_take, List.length_drop]
    omega
  · have hlen : (buf.take i).length = i := by rw [List.length_take]; omega
    rw [load_eq_some (by simp only [List.length_append, List.length_drop]; omega),
      List.append_assoc, List.drop_left' hlen, List.take_left]
  · intro j n hj
    have hlen : (buf.take i).length = i := by rw [List.length_take]; omega
    rw [load_eq_some (by simp only [List.length_append, List.length_drop]; omega),
      load_eq_some (by omega), List.append_assoc, List.drop_append_of_le_length (by omega),
      List.take_append_of_le_length (by rw [List.length_drop]; omega), List.drop_take,
      List.take_take]
    congr 2
    omega

/-- Slots that fit are all stored, each can be read back, and what lies before them is kept. -/
theorem storeAll_slots {size : Nat} (bss : List (List α)) :
    ∀ (k : Nat) (buf : List α), (∀ bs ∈ bss, bs.length ≤ size) →
      (k + bss.length) * size ≤ buf.length →
      ∃ buf', storeAll buf (slots size k bss) = some buf' ∧ buf'.length = buf.length ∧
        (∀ j n : Nat, j + n ≤ k * size → load buf' j n = load buf j n) ∧
        ∀ i bs, bss[i]? = some bs → load buf' (((k + i) * size : Nat) : Int) bs.length = some bs := by
  induction bss with
  | nil =>
    intro k buf _ _
    exact ⟨buf, rfl, rfl, fun _ _ _ => rfl, by simp⟩
  | cons b bss ih =>
    intro k buf hsize hfit
    have hb : b.length ≤ size := hsize b (by simp)
    have hk : (k + (b :: bss).length) * size = k * size + size + bss.length * size := by
      rw [List.length_cons]
      ring_nf
    rw [hk] at hfit
    obtain ⟨buf₁, hstore, hlen₁, hread₁, hkeep₁⟩ :=
      store_spec buf b (k * size) (by omega)
    have hk' : (k + 1 + bss.length) * size = k * size + size + bss.length * size := by ring_nf
    obtain ⟨buf₂, hall, hlen₂, hkeep₂, hread₂⟩ :=
      ih (k + 1) buf₁ (fun bs h => hsize bs (by simp [h])) (by omega)
    refine ⟨buf₂, ?_, by omega, ?_, ?_⟩
    · simpa only [slots, List.zipIdx_cons, List.map_cons, storeAll, hstore, Option.bind_some]
        using hall
    · intro j n hj
      rw [hkeep₂ j n (by rw [Nat.succ_mul]; omega), hkeep₁ j n hj]
    · intro i bs hi
      cases i with
      | zero =>
        cases hi
        rw [Nat.add_zero, hkeep₂ _ _ (by rw [Nat.succ_mul]; omega), hread₁]
      | succ i =>
        have h := hread₂ i bs (by simpa using hi)
        rwa [show k + 1 + i = k + (i + 1) by omega] at h

/-- The chunks read off their slots one after the other. -/
theorem loadAll_slots (size : Nat) (bss : List (List α)) (buf : List α)
    (hsize : ∀ bs ∈ bss, bs.length ≤ size) (hfit : bss.length * size ≤ buf.length) :
    ∃ buf', storeAll buf (slots size 0 bss) = some buf' ∧ buf'.length = buf.length ∧
      ∀ i bs, bss[i]? = some bs → load buf' ((i * size : Nat) : Int) bs.length = some bs := by
  obtain ⟨buf', hall, hlen, -, hread⟩ := storeAll_slots bss 0 buf hsize (by simpa using hfit)
  exact ⟨buf', hall, hlen, by simpa using hread⟩

end Buffer
