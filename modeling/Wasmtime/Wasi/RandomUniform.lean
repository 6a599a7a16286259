import Mathlib
import Wasmtime.Lib.Residue
import Wasmtime.Wasi.FdTable

/-!
# The choice of an unused slot

`random_uniform` (`wasmtime-wasi-c/sandboxed-system-primitives/src/random.c`) and the search of
`fd_table_unused` (`posix.c` there), over the words that `random_buf` yields.

* A stream of words is the part of it that has been read: `none` where it does not suffice.
* The table is indexed by `size_t`, and a slot number is the 32 bits of a `__wasi_fd_t`.

Results:
* `card_drawn`: the words that are accepted and reduced to a residue, as a number.
* `unused_sound`, `unused_complete`: the slots that the search can return.
* `unbiased_slot_choice`: the headline.
* `exists_random`: what the search returns is what the search of the descriptor table may return.
-/

namespace Wasmtime.Wasi.Uniform

open Posix

/-! ## `random_uniform` -/

/-- `lower`, the first word that is accepted. -/
def lower (upper : BitVec 64) : BitVec 64 := -upper % upper

/-- `random_uniform`: the number, and the words that are left. -/
def randomUniform (upper : BitVec 64) : List (BitVec 64) → Option (BitVec 64 × List (BitVec 64))
  | [] => none
  | value :: words =>
    if lower upper ≤ value then some (value % upper, words) else randomUniform upper words

/-! ## `fd_table_unused` -/

/-- The loop of `fd_table_unused`. -/
def unusedLoop (entries : List Posix.FdEntry) :
    Nat → List (BitVec 64) → Option (Except Stop (BitVec 32 × List (BitVec 64)))
  | 0, _ => none
  | fuel + 1, words =>
    (randomUniform (BitVec.ofNat 64 entries.length) words).bind fun drawn =>
      let fd := drawn.1.setWidth 32
      match entries[fd.toNat]? with
      | none => some (.error .dangling)
      | some fe => if fe.object = none then some (.ok (fd, drawn.2)) else unusedLoop entries fuel drawn.2

/-- `fd_table_unused`. Every round takes a word. -/
def unused (ft : FdTable) (words : List (BitVec 64)) :
    Option (Except Stop (BitVec 32 × List (BitVec 64))) :=
  if ¬ ft.used.toNat < ft.entries.length then some (.error .assertion)
  else unusedLoop ft.entries (words.length + 1) words

/-! ## The words that are accepted -/

section

variable {upper : BitVec 64}

theorem pos_of_lt {r : BitVec 64} (hr : r < upper) : 0 < upper :=
  Nat.lt_of_le_of_lt (Nat.zero_le _) (show r.toNat < upper.toNat from hr)

theorem toNat_lower (hpos : 0 < upper) : (lower upper).toNat = 2 ^ 64 % upper.toNat := by
  have hlt := upper.isLt
  have hnat : 0 < upper.toNat := hpos
  have hneg : (2 ^ 64 - upper.toNat) % 2 ^ 64 = 2 ^ 64 - upper.toNat := Nat.mod_eq_of_lt (by omega)
  rw [lower, BitVec.toNat_umod, BitVec.toNat_neg, hneg]
  exact (Nat.mod_eq_sub_mod hlt.le).symm

/-- The words that the loop accepts. -/
def accepted (upper : BitVec 64) : Set (BitVec 64) := {word | ∃ r, randomUniform upper [word] = some (r, [])}

/-- The words for which the loop returns `r` at once. -/
def drawn (upper r : BitVec 64) : Set (BitVec 64) := {word | randomUniform upper [word] = some (r, [])}

theorem mem_drawn_iff {r word : BitVec 64} :
    word ∈ drawn upper r ↔ lower upper ≤ word ∧ word % upper = r := by
  show randomUniform upper [word] = some (r, []) ↔ _
  rw [randomUniform]
  split
  · next h => simp [h]
  · next h => simp [h, randomUniform]

theorem mem_accepted_iff {word : BitVec 64} : word ∈ accepted upper ↔ lower upper ≤ word := by
  constructor
  · rintro ⟨r, hr⟩
    exact (mem_drawn_iff.mp hr).1
  · intro h
    exact ⟨word % upper, (mem_drawn_iff).mpr ⟨h, rfl⟩⟩

/-- What is returned was reduced from the first word that is accepted. -/
theorem randomUniform_eq_some_iff {words rest : List (BitVec 64)} {value : BitVec 64} :
    randomUniform upper words = some (value, rest) ↔
      ∃ rejected word, words = rejected ++ word :: rest ∧ (∀ w ∈ rejected, w ∉ accepted upper) ∧
        word ∈ drawn upper value := by
  induction words with
  | nil =>
    constructor
    · intro h
      cases h
    · rintro ⟨rejected, word, h, -⟩
      simp at h
  | cons word words ih =>
    rw [randomUniform]
    split
    · next haccept =>
      constructor
      · intro h
        obtain ⟨rfl, rfl⟩ := Prod.mk.inj (Option.some.inj h)
        exact ⟨[], word, rfl, by simp, (mem_drawn_iff).mpr ⟨haccept, rfl⟩⟩
      · rintro ⟨_ | ⟨w, rejected⟩, word', h, hall, hdrawn⟩
        · obtain ⟨rfl, rfl⟩ := List.cons.inj h
          rw [(mem_drawn_iff.mp hdrawn).2]
        · obtain ⟨rfl, rfl⟩ := List.cons.inj h
          exact absurd (mem_accepted_iff.mpr haccept) (hall word List.mem_cons_self)
    · next hreject =>
      rw [ih]
      constructor
      · rintro ⟨rejected, w, rfl, hall, hdrawn⟩
        refine ⟨word :: rejected, w, rfl, List.forall_mem_cons.mpr ⟨fun h => ?_, hall⟩, hdrawn⟩
        exact hreject (mem_accepted_iff.mp h)
      · rintro ⟨_ | ⟨w, rejected⟩, word', h, hall, hdrawn⟩
        · obtain ⟨rfl, rfl⟩ := List.cons.inj h
          exact absurd (mem_drawn_iff.mp hdrawn).1 hreject
        · obtain ⟨rfl, rfl⟩ := List.cons.inj h
          exact ⟨rejected, word', rfl, (List.forall_mem_cons.mp hall).2, hdrawn⟩

/-- The result is below the bound. -/
theorem randomUniform_lt (hpos : 0 < upper) {words rest : List (BitVec 64)} {value : BitVec 64}
    (h : randomUniform upper words = some (value, rest)) : value < upper := by
  obtain ⟨-, w, -, -, hdrawn⟩ := (randomUniform_eq_some_iff).mp h
  obtain ⟨-, rfl⟩ := (mem_drawn_iff).mp hdrawn
  exact BitVec.umod_lt w hpos

/-- The numbers of a set of words. -/
theorem ncard_words {words : Set (BitVec 64)} {numbers : Finset Nat} (hlt : ∀ n ∈ numbers, n < 2 ^ 64)
    (hmem : ∀ word : BitVec 64, word ∈ words ↔ word.toNat ∈ numbers) : words.ncard = numbers.card := by
  have hinj : Function.Injective (BitVec.toNat : BitVec 64 → Nat) := fun a b => BitVec.eq_of_toNat_eq
  have himage : BitVec.toNat '' words = ↑numbers := by
    ext n
    constructor
    · rintro ⟨word, hword, rfl⟩
      exact (hmem word).mp hword
    · intro hn
      have hword : (BitVec.ofNat 64 n).toNat = n := by
        rw [BitVec.toNat_ofNat, Nat.mod_eq_of_lt (hlt n hn)]
      exact ⟨BitVec.ofNat 64 n, (hmem _).mpr (hword.symm ▸ hn), hword⟩
  rw [← Set.ncard_image_of_injective words hinj, himage, Set.ncard_coe_finset]

theorem mem_kept_iff (hpos : 0 < upper) {word : BitVec 64} :
    word.toNat ∈ Residue.kept (2 ^ 64) upper.toNat ↔ lower upper ≤ word := by
  rw [Residue.kept, Finset.mem_Ico, ← toNat_lower hpos, BitVec.le_def]
  exact ⟨fun h => h.1, fun h => ⟨h, word.isLt⟩⟩

theorem ncard_accepted (hpos : 0 < upper) :
    (accepted upper).ncard = (Residue.kept (2 ^ 64) upper.toNat).card :=
  ncard_words (fun _ hn => (Finset.mem_Ico.mp hn).2) fun _ =>
    (mem_accepted_iff).trans (mem_kept_iff hpos).symm

/-- Every residue is returned for the same number of words. -/
theorem ncard_drawn {r : BitVec 64} (hr : r < upper) : (drawn upper r).ncard = 2 ^ 64 / upper.toNat := by
  have hpos := pos_of_lt hr
  rw [← Residue.card_residue (show r.toNat < upper.toNat from hr) (2 ^ 64)]
  refine ncard_words (fun _ hn => (Finset.mem_Ico.mp (Finset.mem_filter.mp hn).1).2) fun word => ?_
  rw [Finset.mem_filter, mem_kept_iff hpos, mem_drawn_iff]
  have hmod : word % upper = r ↔ word.toNat % upper.toNat = r.toNat := by
    rw [← BitVec.toNat_inj, BitVec.toNat_umod]
  rw [hmod]

theorem one_le_div (hpos : 0 < upper) : 1 ≤ 2 ^ 64 / upper.toNat := Nat.div_pos upper.isLt.le hpos

/-- Some word is reduced to every residue. -/
theorem exists_drawn {r : BitVec 64} (hr : r < upper) : ∃ word, word ∈ drawn upper r := by
  have hpos := pos_of_lt hr
  refine Set.nonempty_of_ncard_ne_zero (Nat.ne_of_gt ?_)
  rw [ncard_drawn hr]
  exact one_le_div hpos

end

/-! ## The slots that are returned -/

section

variable {entries : List Posix.FdEntry} {ft : FdTable} {fd : BitVec 32} {words rest : List (BitVec 64)}

theorem length_lt_of_randomUniform {upper : BitVec 64} {result : BitVec 64 × List (BitVec 64)}
    (h : randomUniform upper words = some result) : result.2.length < words.length := by
  obtain ⟨rejected, w, rfl, -⟩ := (randomUniform_eq_some_iff).mp h
  rw [List.length_append, List.length_cons]
  omega

/-- More rounds than there are words make no difference. -/
theorem unusedLoop_fuel {fuel : Nat} (h : words.length < fuel) :
    unusedLoop entries (fuel + 1) words = unusedLoop entries fuel words := by
  induction fuel generalizing words with
  | zero => omega
  | succ fuel ih =>
    rw [unusedLoop, unusedLoop]
    cases hr : randomUniform (BitVec.ofNat 64 entries.length) words with
    | none => rfl
    | some result =>
      have hlen := length_lt_of_randomUniform hr
      have hrest : unusedLoop entries (fuel + 1) result.2 = unusedLoop entries fuel result.2 :=
        ih (by omega)
      simp only [Option.bind_some, hrest]

/-- A word that the loop accepts gives a slot of the table. -/
theorem slot_lt (hsize : entries.length < 2 ^ 64) (hpos : 0 < entries.length)
    {result : BitVec 64 × List (BitVec 64)}
    (h : randomUniform (BitVec.ofNat 64 entries.length) words = some result) :
    (result.1.setWidth 32).toNat < entries.length := by
  have hlength : (BitVec.ofNat 64 entries.length).toNat = entries.length := by
    rw [BitVec.toNat_ofNat, Nat.mod_eq_of_lt hsize]
  have hlt : result.1.toNat < (BitVec.ofNat 64 entries.length).toNat :=
    randomUniform_lt (show 0 < (BitVec.ofNat 64 entries.length).toNat by omega) h
  rw [BitVec.toNat_setWidth]
  exact Nat.lt_of_le_of_lt (Nat.mod_le _ _) (hlength ▸ hlt)

theorem unusedLoop_sound (hsize : entries.length < 2 ^ 64) (hpos : 0 < entries.length) {fuel : Nat}
    {result : Except Stop (BitVec 32 × List (BitVec 64))}
    (h : unusedLoop entries fuel words = some result) :
    ∃ fd rest fe, result = .ok (fd, rest) ∧ entries[fd.toNat]? = some fe ∧ fe.object = none := by
  induction fuel generalizing words with
  | zero => cases h
  | succ fuel ih =>
    obtain ⟨⟨value, rest⟩, hvalue, h⟩ := Option.bind_eq_some_iff.mp h
    have hlt : (value.setWidth 32).toNat < entries.length := slot_lt hsize hpos hvalue
    simp only [List.getElem?_eq_getElem hlt] at h
    split at h
    · next hfree =>
      obtain rfl := Option.some.inj h
      exact ⟨_, _, _, rfl, List.getElem?_eq_getElem hlt, hfree⟩
    · exact ih h

/-- The search ends at an unused slot of the table. -/
theorem unused_sound (hsize : ft.entries.length < 2 ^ 64) (hused : ft.used.toNat < ft.entries.length)
    {result : Except Stop (BitVec 32 × List (BitVec 64))} (h : unused ft words = some result) :
    ∃ fd rest fe, result = .ok (fd, rest) ∧ ft.entries[fd.toNat]? = some fe ∧ fe.object = none := by
  rw [unused, if_neg (not_not.mpr hused)] at h
  exact unusedLoop_sound hsize (by omega) h

/-- Every unused slot is found, by some word. -/
theorem unused_complete (hsize : ft.entries.length < 2 ^ 64) (hused : ft.used.toNat < ft.entries.length)
    {fe : Posix.FdEntry} (hfe : ft.entries[fd.toNat]? = some fe) (hfree : fe.object = none) :
    ∃ words, unused ft words = some (.ok (fd, [])) := by
  have hlt := (List.getElem?_eq_some_iff.mp hfe).choose
  have hfd := fd.isLt
  have hwide : (fd.setWidth 64).toNat = fd.toNat := by
    rw [BitVec.toNat_setWidth]
    exact Nat.mod_eq_of_lt (by omega)
  have hlength : (BitVec.ofNat 64 ft.entries.length).toNat = ft.entries.length := by
    rw [BitVec.toNat_ofNat, Nat.mod_eq_of_lt hsize]
  have hbelow : fd.setWidth 64 < BitVec.ofNat 64 ft.entries.length := by
    show (fd.setWidth 64).toNat < (BitVec.ofNat 64 ft.entries.length).toNat
    omega
  obtain ⟨word, hword⟩ := exists_drawn hbelow
  have hback : (fd.setWidth 64).setWidth 32 = fd := by
    refine BitVec.eq_of_toNat_eq ?_
    rw [BitVec.toNat_setWidth, hwide]
    exact Nat.mod_eq_of_lt hfd
  refine ⟨[word], ?_⟩
  have hdrawn : randomUniform (BitVec.ofNat 64 ft.entries.length) [word] =
      some (fd.setWidth 64, []) := hword
  rw [unused, if_neg (not_not.mpr hused)]
  show unusedLoop ft.entries 2 [word] = _
  rw [unusedLoop, hdrawn]
  simp only [Option.bind_some, hback, hfe, hfree, if_true]

/-- The first free slot. -/
def firstFree (entries : List Posix.FdEntry) : Nat := entries.findIdx fun fe => fe.object.isNone

theorem firstFree_free (h : ∃ fe ∈ entries, fe.object = none) :
    ∃ fe, entries[firstFree entries]? = some fe ∧ fe.object = none := by
  obtain ⟨g, hg, hgfree⟩ := h
  have hlt : firstFree entries < entries.length :=
    List.findIdx_lt_length_of_exists ⟨g, hg, by simp [hgfree]⟩
  have hnone : entries[firstFree entries].object.isNone = true := List.findIdx_getElem (w := hlt)
  exact ⟨_, List.getElem?_eq_getElem hlt, Option.isNone_iff_eq_none.mp hnone⟩

/-- What the search returns, a search that ends at some free slot may return. -/
theorem exists_random (hsize : ft.entries.length < 2 ^ 64) (hused : ft.used.toNat < ft.entries.length)
    (h : unused ft words = some (.ok (fd, rest))) :
    ∃ random : Posix.Random, random.pick ft.entries = fd.toNat := by
  obtain ⟨fd', rest', fe, heq, hfe, hfree⟩ := unused_sound hsize hused h
  obtain ⟨rfl, -⟩ := Prod.mk.inj (Except.ok.inj heq)
  refine ⟨⟨fun entries => if entries = ft.entries then fd.toNat else firstFree entries, ?_⟩, if_pos rfl⟩
  intro entries hexists
  by_cases hentries : entries = ft.entries
  · subst hentries
    exact ⟨fe, by simpa using hfe, hfree⟩
  · obtain ⟨g, hg, hgfree⟩ := firstFree_free hexists
    exact ⟨g, by rw [if_neg hentries, hg], hgfree⟩

end

/-! ## The headline -/

/-- `random_uniform` is without bias: its result is below the bound, every residue is returned for the same number
of words, and more than half of the words are accepted. -/
structure Unbiased (upper : BitVec 64) : Prop where
  below : ∀ words value rest, randomUniform upper words = some (value, rest) → value < upper
  same : ∀ r, r < upper → (drawn upper r).ncard = 2 ^ 64 / upper.toNat
  one_le : 1 ≤ 2 ^ 64 / upper.toNat
  half : 2 ^ 64 < 2 * (accepted upper).ncard

/-- The search ends at unused slots of the table only, and at every one of them for some words. -/
structure FindsUnused (ft : FdTable) : Prop where
  inside : ∀ words result, unused ft words = some result →
    ∃ fd rest fe, result = .ok (fd, rest) ∧ ft.entries[fd.toNat]? = some fe ∧ fe.object = none
  every : ∀ (fd : BitVec 32) (fe : Posix.FdEntry), ft.entries[fd.toNat]? = some fe → fe.object = none →
    ∃ words, unused ft words = some (.ok (fd, []))

theorem unbiased_of_pos {upper : BitVec 64} (hpos : 0 < upper) : Unbiased upper := by
  refine ⟨fun words value rest h => randomUniform_lt hpos h, fun r hr => ncard_drawn hr,
    one_le_div hpos, ?_⟩
  rw [ncard_accepted hpos]
  exact Residue.lt_two_mul hpos upper.isLt.le

/-- **Headline.** `random_uniform` is without bias for every bound but 0, and the search for an unused slot of a
table that is not full ends at unused slots only, and may end at any of them. -/
theorem unbiased_slot_choice {upper : BitVec 64} (hpos : 0 < upper) {ft : FdTable}
    (hsize : ft.entries.length < 2 ^ 64) (hused : ft.used.toNat < ft.entries.length) :
    Unbiased upper ∧ FindsUnused ft :=
  ⟨unbiased_of_pos hpos, fun _ _ h => unused_sound hsize hused h,
    fun _ _ hfe hfree => unused_complete hsize hused hfe hfree⟩

/-- A table of two slots, one of which is used. -/
theorem unbiased_two_slots :
    Unbiased 3 ∧ FindsUnused ⟨[⟨some 0, 0, 0⟩, ⟨none, 0, 0⟩], 1⟩ :=
  unbiased_slot_choice (by decide) (by decide) (by decide)

end Wasmtime.Wasi.Uniform
