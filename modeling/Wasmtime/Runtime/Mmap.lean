import Wasmtime.Environ.Plan
import Wasmtime.Lib.Ending

/-!
# Mappings

Model of `Mmap` (`wasmtime-runtime/src/mmap.rs`, the variant for targets other than Windows) on a
64-bit host.

* A mapping is its base address, its length, which of its bytes are accessible and what they
  hold. Protection is tracked per byte: the asserts of `accessible_reserved` and
  `make_accessible` make every size and start they pass to the host a multiple of the page size,
  so a page is accessible iff each of its bytes is.
* The host answers one `mmap` and one `region::protect` per operation (`Os`). Any answer may be a
  failure, and a failing call changes nothing; a successful anonymous `mmap` is zero filled.
* `region::page::size` is a power of two that divides the wasm page (`Host`).
* An operation returns, reports `Err`, or panics. Which assert failed is kept in `Panic`; the text
  of an `Err` is the host's and is not modelled.

Results: `accessibleReserved_spec` and `makeAccessible_spec` say what each operation does under
the sizes its asserts demand, `makeAccessible_panic_iff` says exactly when the asserts of
`make_accessible` fail.
-/

namespace Wasmtime.Runtime

/-- The native page size: a power of two, at most the wasm page. -/
structure Host where
  pageBits : Nat
  pageBits_le : pageBits ≤ 16

/-- `region::page::size()`. -/
def Host.pageSize (host : Host) : Nat := 2 ^ host.pageBits

/-- The host's answers during one operation: the address `mmap` returns, if it succeeds, and
whether `region::protect` succeeds. -/
structure Os where
  mmap : Option Nat
  protect : Bool

/-- The panics of this development's runtime operations, by where they are raised. -/
inductive Panic where
  /-- One of the asserts of `Mmap::accessible_reserved`. -/
  | accessibleReserved
  /-- One of the asserts of `Mmap::make_accessible`. -/
  | makeAccessible
  /-- One of the asserts of `LinearMemory::new`. -/
  | linearMemoryNew
  /-- An `unwrap` of a checked operation that overflowed. -/
  | overflow
  /-- `unimplemented!` in `Table::new`. -/
  | tableElementType
  /-- An index out of bounds. -/
  | index
  /-- One of the sanity checks of `link_module` on an imported memory. -/
  | linkMemory
  /-- The panic of `is_global_compatible`. -/
  | importedGlobal
  deriving DecidableEq, Repr

/-- What a fallible operation ends with. -/
abbrev Outcome := Ending Unit Panic

/-- `Mmap`, with the state of the memory behind it. -/
structure Mmap where
  ptr : Nat
  len : Nat
  accessible : Nat → Bool
  bytes : Nat → UInt8

namespace Mmap

variable (host : Host) (os : Os)

/-- `Mmap::new`: empty, at the dangling address `Vec::new` gives. -/
def new : Mmap where
  ptr := 1
  len := 0
  accessible := fun _ => false
  bytes := fun _ => 0

/-- `x & (page_size - 1) == 0`, the page-multiple test of the asserts. -/
def pageMultiple (x : Nat) : Bool := x &&& (host.pageSize - 1) == 0

/-- `Mmap::make_accessible`. -/
def makeAccessible (m : Mmap) (start len : Nat) : Outcome Mmap :=
  if pageMultiple host start && pageMultiple host len && decide (len < m.len) &&
      decide (start < m.len - len) then
    if os.protect then
      .ok { m with accessible := fun i => m.accessible i || decide (start ≤ i ∧ i < start + len) }
    else .err ()
  else .panic .makeAccessible

/-- `Mmap::accessible_reserved`. -/
def accessibleReserved (accessibleSize mappingSize : Nat) : Outcome Mmap :=
  if decide (accessibleSize ≤ mappingSize) && pageMultiple host mappingSize &&
      pageMultiple host accessibleSize then
    if mappingSize = 0 then
      -- `mmap` may return `EINVAL` for an empty mapping.
      .ok new
    else if accessibleSize = mappingSize then
      match os.mmap with
      | none => .err ()
      | some ptr => .ok ⟨ptr, mappingSize, fun i => decide (i < mappingSize), fun _ => 0⟩
    else
      match os.mmap with
      | none => .err ()
      | some ptr =>
        let result : Mmap := ⟨ptr, mappingSize, fun _ => false, fun _ => 0⟩
        if accessibleSize ≠ 0 then makeAccessible host os result 0 accessibleSize else .ok result
  else .panic .accessibleReserved

/-- `round_up_to_page_size`. The sum wraps in a release build; the mask clears the bits below the page
size. -/
def roundUpToPageSize (size pageSize : Nat) : Nat :=
  let sum := (size + (pageSize - 1)) % 2 ^ 64
  sum - (sum &&& (pageSize - 1))

/-- `Mmap::with_at_least`. -/
def withAtLeast (size : Nat) : Outcome Mmap :=
  let roundedSize := roundUpToPageSize size host.pageSize
  accessibleReserved host os roundedSize roundedSize

/-! ## The page-multiple test -/

theorem pageMultiple_iff (x : Nat) : pageMultiple host x = true ↔ host.pageSize ∣ x := by
  unfold pageMultiple Host.pageSize
  rw [beq_iff_eq, Nat.and_two_pow_sub_one_eq_mod, Nat.dvd_iff_mod_eq_zero]

theorem pageSize_dvd_wasmPage : host.pageSize ∣ Environ.wasmPageSize := by
  have h : Environ.wasmPageSize = 2 ^ 16 := by decide
  rw [h]
  exact pow_dvd_pow 2 host.pageBits_le

theorem pageMultiple_wasmPages (n : Nat) :
    pageMultiple host (n * Environ.wasmPageSize) = true :=
  (pageMultiple_iff host _).mpr ((pageSize_dvd_wasmPage host).mul_left n)

theorem pageMultiple_add {x y : Nat} (hx : pageMultiple host x = true)
    (hy : pageMultiple host y = true) : pageMultiple host (x + y) = true := by
  rw [pageMultiple_iff] at hx hy ⊢
  exact Nat.dvd_add hx hy

theorem pageMultiple_of_add {x y : Nat} (hx : pageMultiple host x = true)
    (h : pageMultiple host (x + y) = true) : pageMultiple host y = true := by
  rw [pageMultiple_iff] at hx h ⊢
  exact (Nat.dvd_add_right hx).mp h

variable {host os}

/-! ## `make_accessible` -/

/-- On page multiples the asserts of `make_accessible` fail exactly when the range does not end
strictly inside the mapping. -/
theorem makeAccessible_panic_iff {m : Mmap} {start len : Nat}
    (hs : pageMultiple host start = true) (hl : pageMultiple host len = true) :
    makeAccessible host os m start len = .panic .makeAccessible ↔ m.len ≤ start + len := by
  unfold makeAccessible
  rw [hs, hl]
  by_cases h : m.len ≤ start + len
  · have hneg : ¬ (len < m.len ∧ start < m.len - len) := by omega
    simp only [Bool.and_self, Bool.true_and, Bool.and_eq_true, decide_eq_true_eq, if_neg hneg, h]
  · have hpos : len < m.len ∧ start < m.len - len := by omega
    simp only [Bool.and_self, Bool.true_and, Bool.and_eq_true, decide_eq_true_eq, if_pos hpos, h,
      iff_false]
    cases os.protect <;> simp

/-- A range strictly inside the mapping is committed, or the host refuses. -/
theorem makeAccessible_spec {m : Mmap} {start len : Nat} (hs : pageMultiple host start = true)
    (hl : pageMultiple host len = true) (hlt : start + len < m.len) :
    makeAccessible host os m start len =
      if os.protect then
        .ok { m with accessible := fun i => m.accessible i || decide (start ≤ i ∧ i < start + len) }
      else .err () := by
  unfold makeAccessible
  have hpos : len < m.len ∧ start < m.len - len := by omega
  simp only [hs, hl, Bool.and_self, Bool.true_and, Bool.and_eq_true, decide_eq_true_eq,
    if_pos hpos]

/-! ## `accessible_reserved` -/

/-- What a fresh mapping looks like: zero filled, with exactly its first bytes accessible. -/
structure Fresh (m : Mmap) (accessibleSize mappingSize : Nat) : Prop where
  len : m.len = mappingSize
  accessible : ∀ i, m.accessible i = true ↔ i < accessibleSize
  zero : ∀ i, m.bytes i = 0

/-- **`accessible_reserved` never fails an assert** on ordered page multiples: it returns a fresh
mapping or reports the host's failure. -/
theorem accessibleReserved_spec {a s : Nat} (hle : a ≤ s) (ha : pageMultiple host a = true)
    (hs : pageMultiple host s = true) :
    accessibleReserved host os a s = .err () ∨
      ∃ m, accessibleReserved host os a s = .ok m ∧ Fresh m a s := by
  unfold accessibleReserved
  simp only [ha, hs, hle, decide_true, Bool.and_self, if_true]
  by_cases h0 : s = 0
  · have ha0 : a = 0 := by omega
    rw [if_pos h0]
    exact Or.inr ⟨new, rfl, ⟨h0.symm, fun i => by simp [new, ha0], fun _ => rfl⟩⟩
  · rw [if_neg h0]
    by_cases heq : a = s
    · rw [if_pos heq]
      cases os.mmap with
      | none => exact Or.inl rfl
      | some ptr => exact Or.inr ⟨_, rfl, ⟨rfl, fun i => by simp [heq], fun _ => rfl⟩⟩
    · rw [if_neg heq]
      cases os.mmap with
      | none => exact Or.inl rfl
      | some ptr =>
        simp only
        by_cases ha0 : a = 0
        · rw [if_neg (by simpa using ha0)]
          exact Or.inr ⟨_, rfl, ⟨rfl, fun i => by simp [ha0], fun _ => rfl⟩⟩
        · have hz : pageMultiple host 0 = true := by simp [pageMultiple]
          have hlt : 0 + a < s := by omega
          rw [if_pos ha0, makeAccessible_spec hz ha hlt]
          cases os.protect with
          | false => exact Or.inl rfl
          | true => exact Or.inr ⟨_, rfl, ⟨rfl, fun i => by simp, fun _ => rfl⟩⟩

/-- A mapping that was made is fresh, and its sizes passed the asserts. -/
theorem accessibleReserved_ok {a s : Nat} {m : Mmap} (h : accessibleReserved host os a s = .ok m) :
    Fresh m a s ∧ pageMultiple host s = true := by
  have hc : (decide (a ≤ s) && pageMultiple host s && pageMultiple host a) = true := by
    by_contra hn
    unfold accessibleReserved at h
    rw [if_neg hn] at h
    exact absurd h (by simp)
  simp only [Bool.and_eq_true, decide_eq_true_eq] at hc
  obtain ⟨⟨hle, hs⟩, ha⟩ := hc
  refine ⟨?_, hs⟩
  rcases @accessibleReserved_spec host os a s hle ha hs with h' | ⟨m', h', hf⟩
  · rw [h] at h'
    exact absurd h' (by simp)
  · rw [h] at h'
    obtain rfl := Ending.ok.inj h'
    exact hf

/-- When the host grants every call, the mapping is made. -/
theorem accessibleReserved_granted {a s : Nat} {ptr : Nat} (hle : a ≤ s)
    (ha : pageMultiple host a = true) (hs : pageMultiple host s = true) :
    ∃ m, accessibleReserved host ⟨some ptr, true⟩ a s = .ok m := by
  rcases @accessibleReserved_spec host ⟨some ptr, true⟩ a s hle ha hs with h | ⟨m, h, -⟩
  · unfold accessibleReserved at h
    simp only [ha, hs, hle, decide_true, Bool.and_self, if_true] at h
    split at h
    · exact absurd h (by simp)
    · split at h
      · exact absurd h (by simp)
      · split at h
        · have hz : pageMultiple host 0 = true := by simp [pageMultiple]
          rw [makeAccessible_spec hz ha (by simp only; omega)] at h
          exact absurd h (by simp)
        · exact absurd h (by simp)
  · exact ⟨m, h⟩

/-- A mapping made accessible as a whole is empty, or lies where the host put it. -/
theorem accessibleReserved_ptr {s : Nat} {m : Mmap} (h : accessibleReserved host os s s = .ok m) :
    m.len = 0 ∨ os.mmap = some m.ptr := by
  have hlen := (accessibleReserved_ok h).1.len
  by_cases hzero : s = 0
  · exact .inl (hlen.trans hzero)
  · unfold accessibleReserved at h
    rw [if_neg hzero, if_pos rfl] at h
    by_cases hc : (decide (s ≤ s) && pageMultiple host s && pageMultiple host s) = true
    · rw [if_pos hc] at h
      cases hmmap : os.mmap with
      | none => simp [hmmap] at h
      | some ptr =>
        simp only [hmmap, Ending.ok.injEq] at h
        rw [← h]
        exact .inr rfl
    · rw [if_neg hc] at h
      exact absurd h (by simp)

theorem withAtLeast_len {size : Nat} {m : Mmap} (h : withAtLeast host os size = .ok m) :
    m.len = roundUpToPageSize size host.pageSize := (accessibleReserved_ok h).1.len

theorem withAtLeast_ptr {size : Nat} {m : Mmap} (h : withAtLeast host os size = .ok m) :
    m.len = 0 ∨ os.mmap = some m.ptr := accessibleReserved_ptr h

end Mmap

end Wasmtime.Runtime
