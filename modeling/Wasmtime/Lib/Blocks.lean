import Mathlib

/-!
# Heaps of blocks

A heap is a list of blocks, each a list of cells of a fixed size; a block that has been freed stays in
the list as `none`, so that its number is never given out again and a second free is seen.

* `block`: the cells of a block that is live.
* `alloc`, `free`, `put`: the operations. `free` refuses a block that is not live.
* `Owns h₀ owned h`: since `h₀`, exactly the blocks in `owned` have been allocated and not freed.

Results: one rule for each operation on `Owns`, and `Owns.block_of_nil` (who owns nothing has left the heap as
it was).
-/

namespace Blocks

variable {α : Type}

/-- Blocks by number. -/
abbrev Heap (α : Type) := List (Option (List α))

/-- The cells of a live block. -/
def block (h : Heap α) (b : Nat) : Option (List α) := (h[b]?).join

/-- A new block. -/
def alloc (h : Heap α) (cells : List α) : Heap α := h ++ [some cells]

/-- The block is live no more. -/
def free (h : Heap α) (b : Nat) : Option (Heap α) := (block h b).map fun _ => h.set b none

/-- Other cells for a block. -/
def put (h : Heap α) (b : Nat) (cells : List α) : Heap α := h.set b (some cells)

section

variable {h h' : Heap α} {b b' : Nat} {cells : List α}

theorem block_eq_some : block h b = some cells ↔ h[b]? = some (some cells) := Option.join_eq_some_iff

theorem lt_of_block (hb : block h b = some cells) : b < h.length :=
  (List.getElem?_eq_some_iff.mp (block_eq_some.mp hb)).choose

theorem block_alloc (h : Heap α) (cells : List α) : block (alloc h cells) h.length = some cells := by
  rw [block_eq_some, alloc, List.getElem?_append_right (Nat.le_refl _), Nat.sub_self]
  rfl

theorem block_alloc_of_lt (hb : b < h.length) : block (alloc h cells) b = block h b := by
  rw [block, block, alloc, List.getElem?_append_left hb]

theorem block_set_of_ne (hne : b' ≠ b) {v : Option (List α)} : block (h.set b v) b' = block h b' := by
  rw [block, block, List.getElem?_set_ne (Ne.symm hne)]

theorem block_put (hb : b < h.length) : block (put h b cells) b = some cells := by
  rw [block_eq_some, put, List.getElem?_set_self hb]

end

/-! ## Ownership -/

/-- Since `h₀`, exactly the blocks in `owned` have been allocated and not freed. -/
structure Owns (h₀ : Heap α) (owned : List Nat) (h : Heap α) : Prop where
  le : h₀.length ≤ h.length
  old : ∀ b, b < h₀.length → h[b]? = h₀[b]?
  live : ∀ b, h₀.length ≤ b → (block h b ≠ none ↔ b ∈ owned)
  new : ∀ b ∈ owned, h₀.length ≤ b
  nodup : owned.Nodup

namespace Owns

variable {h₀ h : Heap α} {owned owned' : List Nat} {b : Nat} {cells : List α}

theorem refl (h : Heap α) : Owns h [] h where
  le := Nat.le_refl _
  old _ _ := rfl
  live b hb := by
    rw [block, List.getElem?_eq_none hb]
    simp
  new _ hb := absurd hb List.not_mem_nil
  nodup := List.nodup_nil

theorem perm (ho : Owns h₀ owned h) (hperm : owned.Perm owned') : Owns h₀ owned' h where
  le := ho.le
  old := ho.old
  live b hb := (ho.live b hb).trans hperm.mem_iff
  new b hb := ho.new b (hperm.mem_iff.mpr hb)
  nodup := hperm.nodup_iff.mp ho.nodup

/-- What is owned is live. -/
theorem exists_block (ho : Owns h₀ owned h) (hb : b ∈ owned) : ∃ cells, block h b = some cells :=
  Option.ne_none_iff_exists'.mp ((ho.live b (ho.new b hb)).mpr hb)

theorem alloc (ho : Owns h₀ owned h) (cells : List α) :
    Owns h₀ (h.length :: owned) (Blocks.alloc h cells) where
  le := by
    rw [Blocks.alloc, List.length_append]
    exact ho.le.trans (Nat.le_add_right _ _)
  old b hb := by
    rw [Blocks.alloc, List.getElem?_append_left (lt_of_lt_of_le hb ho.le), ho.old b hb]
  live b hb := by
    rw [List.mem_cons]
    rcases Nat.lt_trichotomy b h.length with hlt | rfl | hgt
    · rw [block_alloc_of_lt hlt, ho.live b hb]
      exact ⟨Or.inr, fun hor => hor.resolve_left hlt.ne⟩
    · rw [block_alloc]
      exact ⟨fun _ => Or.inl rfl, fun _ => Option.some_ne_none cells⟩
    · have hnone : block (Blocks.alloc h cells) b = none := by
        rw [block, Blocks.alloc, List.getElem?_eq_none (by simpa using hgt)]
        rfl
      have hout : b ∉ owned := fun hmem => by
        obtain ⟨cells', hcells⟩ := ho.exists_block hmem
        exact absurd (lt_of_block hcells) hgt.not_gt
      simp [hnone, hout, hgt.ne']
  new b hb := by
    rcases List.mem_cons.mp hb with rfl | hb
    · exact ho.le
    · exact ho.new b hb
  nodup := by
    refine List.nodup_cons.mpr ⟨fun hmem => ?_, ho.nodup⟩
    obtain ⟨cells', hcells⟩ := ho.exists_block hmem
    exact absurd (lt_of_block hcells) (Nat.lt_irrefl _)

/-- What is owned can be freed. -/
theorem free (ho : Owns h₀ owned h) (hb : b ∈ owned) :
    ∃ h', Blocks.free h b = some h' ∧ Owns h₀ (owned.erase b) h' ∧
      ∀ b', b' ≠ b → block h' b' = block h b' := by
  obtain ⟨cells, hcells⟩ := ho.exists_block hb
  have hlt := lt_of_block hcells
  refine ⟨h.set b none, by rw [Blocks.free, hcells, Option.map_some], ⟨?_, ?_, ?_, ?_, ?_⟩,
    fun b' hne => block_set_of_ne hne⟩
  · rw [List.length_set]
    exact ho.le
  · intro b' hb'
    rw [List.getElem?_set_ne (fun heq => absurd (ho.new b hb) (by omega)), ho.old b' hb']
  · intro b' hb'
    by_cases heq : b' = b
    · subst heq
      have hnone : block (h.set b' none) b' = none := by
        rw [block, List.getElem?_set_self hlt]
        rfl
      simp [hnone, ho.nodup.mem_erase_iff]
    · rw [block_set_of_ne heq, ho.live b' hb', List.mem_erase_of_ne heq]
  · exact fun b' hb' => ho.new b' (List.mem_of_mem_erase hb')
  · exact ho.nodup.erase b

/-- What is owned can be written. -/
theorem put (ho : Owns h₀ owned h) (hb : b ∈ owned) (cells : List α) :
    Owns h₀ owned (Blocks.put h b cells) where
  le := by
    rw [Blocks.put, List.length_set]
    exact ho.le
  old b' hb' := by
    rw [Blocks.put, List.getElem?_set_ne (fun heq => absurd (ho.new b hb) (by omega)), ho.old b' hb']
  live b' hb' := by
    by_cases heq : b' = b
    · subst heq
      obtain ⟨cells', hcells⟩ := ho.exists_block hb
      rw [block_put (lt_of_block hcells)]
      exact ⟨fun _ => hb, fun _ => Option.some_ne_none cells⟩
    · rw [Blocks.put, block_set_of_ne heq, ho.live b' hb']
  new := ho.new
  nodup := ho.nodup

/-- Who owns nothing has left the heap as it was: old blocks are the same, and new ones are freed. -/
theorem block_of_nil (ho : Owns h₀ [] h) (b : Nat) : block h b = block h₀ b := by
  rcases Nat.lt_or_ge b h₀.length with hlt | hge
  · rw [block, block, ho.old b hlt]
  · have hnone : block h b = none := by
      by_contra hne
      exact absurd ((ho.live b hge).mp hne) List.not_mem_nil
    rw [hnone, block, List.getElem?_eq_none hge]
    rfl

end Owns

end Blocks
