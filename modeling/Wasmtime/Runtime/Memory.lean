import Wasmtime.Runtime.Mmap

/-!
# Linear memories over whole runs

Model of `LinearMemory` (`wasmtime-runtime/src/memory.rs`): `new`, `size`, `grow`, `vmmemory`.
`usize` has 64 bits. A run (`Run`) is a `new` followed by any number of `grow` calls, with any
delta and any answers of the host, and of stores to accessible bytes.

* `Inv` is the invariant of a run: the size is within the declared limits, exactly the first
  `current` pages are accessible, every byte past them is still zero, and the mapping is the
  current size plus the guard (dynamic plan) or the reserved bound plus the guard (static plan).
* `grow_cases` says once what a `grow` can do; everything else is read off it.

Results:
* `run_inv`: every state of a run satisfies `Inv`, whatever the tunables.
* `safe_iff_not_growsToUnguardedEnd`: the asserts of `accessible_reserved` and `make_accessible`
  hold along every run, and with them all the rest of `Safe`, exactly when the plan is not one
  whose reservation can be used up to its last byte. `make_accessible` demands that the committed
  range ends *strictly* before the end of the mapping, so a static memory without guard whose
  maximum is the static bound panics when it grows to that maximum.
-/

namespace Wasmtime.Runtime

open Environ

/-- `u32::checked_add`. -/
def checkedAdd32 (a b : UInt32) : Option UInt32 :=
  if a.toNat + b.toNat < 2 ^ 32 then some (a + b) else none

/-- `usize::checked_add` on a 64-bit host. -/
def checkedAddUsize (a b : Nat) : Option Nat := if a + b < 2 ^ 64 then some (a + b) else none

/-- `usize::checked_mul` on a 64-bit host. -/
def checkedMulUsize (a b : Nat) : Option Nat := if a * b < 2 ^ 64 then some (a * b) else none

theorem checkedAdd32_eq_some {a b c : UInt32} (h : checkedAdd32 a b = some c) :
    c.toNat = a.toNat + b.toNat := by
  unfold checkedAdd32 at h
  split at h
  · rename_i hlt
    obtain rfl := Option.some.inj h
    rw [UInt32.toNat_add, Nat.mod_eq_of_lt hlt]
  · exact absurd h (by simp)

theorem checkedAdd32_of_toNat {a b c : UInt32} (h : a.toNat + b.toNat = c.toNat) :
    checkedAdd32 a b = some c := by
  have hlt : a.toNat + b.toNat < 2 ^ 32 := by
    rw [h]
    exact c.toNat_lt
  have hc : a + b = c := by
    refine UInt32.toNat_inj.mp ?_
    rw [UInt32.toNat_add, Nat.mod_eq_of_lt hlt, h]
  unfold checkedAdd32
  rw [if_pos hlt, hc]

theorem checkedAddUsize_eq_some {a b c : Nat} (h : checkedAddUsize a b = some c) : c = a + b := by
  unfold checkedAddUsize at h
  split at h
  · exact (Option.some.inj h).symm
  · exact absurd h (by simp)

/-- `VMMemoryDefinition`: what compiled code sees of a memory. -/
structure VMMemoryDefinition where
  base : Nat
  currentLength : Nat
  deriving DecidableEq, Repr

/-- `LinearMemory`. -/
structure LinearMemory where
  mmap : Mmap
  /-- The current logical size in wasm pages. -/
  current : UInt32
  /-- The optional maximum size in wasm pages. -/
  maximum : Option UInt32
  offsetGuardSize : Nat
  needsSignalHandlers : Bool

/-- What `grow` ends with: a panic, or its result and the memory it leaves. -/
inductive Grown where
  | panic (p : Panic)
  | ret (result : Option UInt32) (memory : LinearMemory)

namespace LinearMemory

/-- The pages `new` reserves; `none` is the failed assert `bound >= minimum` of the static
branch. -/
def minimumPages (plan : MemoryPlan) : Option Nat :=
  match plan.style with
  | .dynamic => some plan.memory.minimum.toNat
  | .static bound => if bound ≥ plan.memory.minimum then some bound.toNat else none

/-- `needs_signal_handlers`: there is an offset guard, or the memory is static. -/
def needsHandlers (plan : MemoryPlan) : Bool :=
  decide (plan.offsetGuardSize.toNat > 0) ||
    match plan.style with
    | .dynamic => false
    | .static _ => true

/-- `request_bytes`: the reserved pages and the guard; `none` when the size overflows. -/
def requestBytes (plan : MemoryPlan) (minimumPages : Nat) : Option Nat :=
  (checkedMulUsize minimumPages wasmPageSize).bind (checkedAddUsize · plan.offsetGuardSize.toNat)

/-- The last step of `new`: the mapping and the memory over it. -/
def newMapped (host : Host) (os : Os) (plan : MemoryPlan) (requestBytes : Nat) :
    Outcome LinearMemory :=
  (Mmap.accessibleReserved host os (plan.memory.minimum.toNat * wasmPageSize) requestBytes).map
    fun mmap => {
      mmap
      current := plan.memory.minimum
      maximum := plan.memory.maximum
      offsetGuardSize := plan.offsetGuardSize.toNat
      needsSignalHandlers := needsHandlers plan }

/-- `LinearMemory::new`. -/
def new (host : Host) (os : Os) (plan : MemoryPlan) : Outcome LinearMemory :=
  if decide (plan.memory.minimum.toNat ≤ wasmMaxPages) &&
      plan.memory.maximum.all fun max => decide (max.toNat ≤ wasmMaxPages) then
    (minimumPages plan).elim (.panic .linearMemoryNew) fun minimumPages =>
      (requestBytes plan minimumPages).elim (.panic .overflow) (newMapped host os plan)
  else .panic .linearMemoryNew

/-- `LinearMemory::size`. -/
def size (m : LinearMemory) : UInt32 := m.current

/-- The new size exceeds the declared maximum. -/
def exceedsMaximum (m : LinearMemory) (newPages : UInt32) : Bool :=
  match m.maximum with
  | some maximum => decide (newPages > maximum)
  | none => false

/-- `new_mmap[..copy_len].copy_from_slice(&mmap[..copy_len])`. -/
def copyInto (new old : Mmap) (copyLen : Nat) : Mmap :=
  { new with bytes := fun i => if i < copyLen then old.bytes i else new.bytes i }

@[simp] theorem copyInto_len (new old : Mmap) (copyLen : Nat) :
    (copyInto new old copyLen).len = new.len := rfl

@[simp] theorem copyInto_accessible (new old : Mmap) (copyLen : Nat) :
    (copyInto new old copyLen).accessible = new.accessible := rfl

theorem copyInto_of_lt {new old : Mmap} {copyLen i : Nat} (h : i < copyLen) :
    (copyInto new old copyLen).bytes i = old.bytes i := if_pos h

theorem copyInto_of_le {new old : Mmap} {copyLen i : Nat} (h : copyLen ≤ i) :
    (copyInto new old copyLen).bytes i = new.bytes i := if_neg (Nat.not_lt.mpr h)

/-- `grow` returns `None` when the host refuses (`.ok()?`), and the previous size otherwise. -/
def ofOutcome (m : LinearMemory) : Outcome LinearMemory → Grown
  | .ok m' => .ret (some m.current) m'
  | .err _ => .ret none m
  | .panic p => .panic p

/-- The relocating branch of `grow`: a new mapping with the old contents copied in. -/
def growMoved (host : Host) (os : Os) (m : LinearMemory) (newPages : UInt32) : Grown :=
  (checkedAddUsize (newPages.toNat * wasmPageSize) m.offsetGuardSize).elim (.ret none m)
    fun requestBytes => m.ofOutcome <|
      (Mmap.accessibleReserved host os (newPages.toNat * wasmPageSize) requestBytes).map
        fun newMmap =>
          { m with
            mmap := copyInto newMmap m.mmap (m.mmap.len - m.offsetGuardSize)
            current := newPages }

/-- The committing branch of `grow`: the heap is already reserved, make it accessible. -/
def growCommitted (host : Host) (os : Os) (m : LinearMemory) (delta newPages : UInt32) : Grown :=
  m.ofOutcome <|
    (Mmap.makeAccessible host os m.mmap (m.current.toNat * wasmPageSize)
      (delta.toNat * wasmPageSize)).map fun mmap => { m with mmap, current := newPages }

/-- `LinearMemory::grow`. -/
def grow (host : Host) (os : Os) (m : LinearMemory) (delta : UInt32) : Grown :=
  if delta = 0 then .ret (some m.current) m
  else
    (checkedAdd32 m.current delta).elim (.ret none m) fun newPages =>
      if m.exceedsMaximum newPages then .ret none m
      else if newPages.toNat ≥ wasmMaxPages then .ret none m
      else if newPages.toNat * wasmPageSize > m.mmap.len - m.offsetGuardSize then
        m.growMoved host os newPages
      else if delta.toNat * wasmPageSize > 0 then m.growCommitted host os delta newPages
      else .ret (some m.current) { m with current := newPages }

/-- `LinearMemory::vmmemory`. -/
def vmmemory (m : LinearMemory) : VMMemoryDefinition where
  base := m.mmap.ptr
  currentLength := m.current.toNat * wasmPageSize

/-- A store of one byte by compiled code or by the host. -/
def store (m : LinearMemory) (addr : Nat) (byte : UInt8) : LinearMemory :=
  { m with mmap := { m.mmap with bytes := fun i => if i = addr then byte else m.mmap.bytes i } }

/-- The states a memory planned as `plan` goes through. -/
inductive Run (host : Host) (plan : MemoryPlan) : LinearMemory → Prop
  | new {os : Os} {m : LinearMemory} (h : new host os plan = .ok m) : Run host plan m
  | grow {os : Os} {delta : UInt32} {r : Option UInt32} {m m' : LinearMemory}
      (hm : Run host plan m) (h : m.grow host os delta = .ret r m') : Run host plan m'
  | store {addr : Nat} {byte : UInt8} {m : LinearMemory} (hm : Run host plan m)
      (h : addr < m.current.toNat * wasmPageSize) : Run host plan (m.store addr byte)

/-! ## The invariant of a run -/

/-- How long the mapping is, by style. -/
def Mapped (plan : MemoryPlan) (m : LinearMemory) : Prop :=
  match plan.style with
  | .dynamic => m.mmap.len = m.current.toNat * wasmPageSize + plan.offsetGuardSize.toNat
  | .static bound =>
    m.mmap.len = bound.toNat * wasmPageSize + plan.offsetGuardSize.toNat ∧ m.current ≤ bound

/-- The invariant of a run of a memory planned as `plan`. -/
structure Inv (host : Host) (plan : MemoryPlan) (m : LinearMemory) : Prop where
  maximum_eq : m.maximum = plan.memory.maximum
  guard_eq : m.offsetGuardSize = plan.offsetGuardSize.toNat
  minimum_le : plan.memory.minimum ≤ m.current
  le_maximum : ∀ max, plan.memory.maximum = some max → m.current ≤ max
  le_maxPages : m.current.toNat ≤ wasmMaxPages
  accessible_iff : ∀ i, m.mmap.accessible i = true ↔ i < m.current.toNat * wasmPageSize
  zero_above : ∀ i, m.current.toNat * wasmPageSize ≤ i → m.mmap.bytes i = 0
  mapped : Mapped plan m
  guard_page : Mmap.pageMultiple host plan.offsetGuardSize.toNat = true

variable {host : Host} {os : Os} {plan : MemoryPlan} {m m' : LinearMemory} {delta : UInt32}

/-- The guard lies inside the mapping, past every accessible byte. -/
theorem Inv.guard_le (h : Inv host plan m) :
    m.current.toNat * wasmPageSize + plan.offsetGuardSize.toNat ≤ m.mmap.len := by
  have hm := h.mapped
  unfold Mapped at hm
  cases hs : plan.style with
  | dynamic => rw [hs] at hm; exact hm.ge
  | static bound =>
    rw [hs] at hm
    obtain ⟨hlen, hle⟩ := hm
    have := Nat.mul_le_mul_right wasmPageSize (UInt32.le_iff_toNat_le.mp hle)
    omega

theorem Inv.dynamic_len (h : Inv host plan m) (hs : plan.style = .dynamic) :
    m.mmap.len - m.offsetGuardSize = m.current.toNat * wasmPageSize := by
  have hm := h.mapped
  unfold Mapped at hm
  rw [hs] at hm
  rw [hm, h.guard_eq, Nat.add_sub_cancel]

theorem Inv.static_len (h : Inv host plan m) {bound : UInt32} (hs : plan.style = .static bound) :
    m.mmap.len = bound.toNat * wasmPageSize + plan.offsetGuardSize.toNat := by
  have hm := h.mapped
  unfold Mapped at hm
  rw [hs] at hm
  exact hm.1

theorem Inv.store (h : Inv host plan m) {addr : Nat}
    (ha : addr < m.current.toNat * wasmPageSize) (byte : UInt8) :
    Inv host plan (m.store addr byte) := by
  refine ⟨h.maximum_eq, h.guard_eq, h.minimum_le, h.le_maximum, h.le_maxPages, h.accessible_iff,
    fun i hi => ?_, h.mapped, h.guard_page⟩
  have hne : i ≠ addr := by
    rintro rfl
    exact absurd hi (Nat.not_le.mpr ha)
  simp only [LinearMemory.store, if_neg hne]
  exact h.zero_above i hi

/-! ## What `new` does -/

theorem pages_lt_usize (x : UInt32) : x.toNat * wasmPageSize < 2 ^ 64 := by
  have := x.toNat_lt
  unfold wasmPageSize
  omega

theorem checkedMulUsize_pages (x : UInt32) :
    checkedMulUsize x.toNat wasmPageSize = some (x.toNat * wasmPageSize) := by
  unfold checkedMulUsize
  rw [if_pos (pages_lt_usize x)]

theorem requestBytes_eq (plan : MemoryPlan) (x : UInt32) :
    requestBytes plan x.toNat =
      checkedAddUsize (x.toNat * wasmPageSize) plan.offsetGuardSize.toNat := by
  unfold requestBytes
  rw [checkedMulUsize_pages, Option.bind_some]

theorem requestBytes_eq_some {plan : MemoryPlan} {x : UInt32} {request : Nat}
    (h : requestBytes plan x.toNat = some request) :
    request = x.toNat * wasmPageSize + plan.offsetGuardSize.toNat := by
  rw [requestBytes_eq] at h
  exact checkedAddUsize_eq_some h

/-- The pages reserved for a plan whose asserts hold. -/
def reservedPages (plan : MemoryPlan) : UInt32 :=
  match plan.style with
  | .dynamic => plan.memory.minimum
  | .static bound => bound

theorem minimumPages_eq (hp : plan.Ok) : minimumPages plan = some (reservedPages plan).toNat := by
  unfold minimumPages reservedPages
  cases hs : plan.style with
  | dynamic => rfl
  | static bound =>
    have hb : bound ≥ plan.memory.minimum := hp.minimum_le_bound hs
    simp only [if_pos hb]

theorem minimum_le_reservedPages (hp : plan.Ok) : plan.memory.minimum ≤ reservedPages plan := by
  unfold reservedPages
  cases hs : plan.style with
  | dynamic => exact UInt32.le_refl _
  | static bound => exact hp.minimum_le_bound hs

/-- The sizes `new` passes to `accessible_reserved` are ordered page multiples. -/
theorem requestBytes_page (hp : plan.Ok)
    (hguard : Mmap.pageMultiple host plan.offsetGuardSize.toNat = true) {request : Nat}
    (hreq : requestBytes plan (reservedPages plan).toNat = some request) :
    plan.memory.minimum.toNat * wasmPageSize ≤ request ∧
      Mmap.pageMultiple host request = true := by
  have hmin := UInt32.le_iff_toNat_le.mp (minimum_le_reservedPages hp)
  rw [requestBytes_eq_some hreq]
  constructor
  · exact le_trans (Nat.mul_le_mul_right _ hmin) (Nat.le_add_right _ _)
  · exact Mmap.pageMultiple_add host (Mmap.pageMultiple_wasmPages host _) hguard

/-- On the plan of a validated type the asserts of `new` hold: what is left is the size
computation and the mapping. -/
theorem new_eq (hp : plan.Ok) :
    new host os plan = (requestBytes plan (reservedPages plan).toNat).elim (.panic .overflow)
      (newMapped host os plan) := by
  have hmax : (plan.memory.maximum.all fun max => decide (max.toNat ≤ wasmMaxPages)) = true := by
    cases hm : plan.memory.maximum with
    | none => rfl
    | some max => exact decide_eq_true (hp.maximum_le max hm)
  have hlim : (decide (plan.memory.minimum.toNat ≤ wasmMaxPages) &&
      plan.memory.maximum.all fun max => decide (max.toNat ≤ wasmMaxPages)) = true := by
    rw [Bool.and_eq_true]
    exact ⟨decide_eq_true hp.minimum_le, hmax⟩
  unfold new
  rw [if_pos hlim, minimumPages_eq hp, Option.elim_some]

/-- A memory that was made sits on a fresh mapping of the requested size. -/
theorem new_ok (hp : plan.Ok) (h : new host os plan = .ok m) :
    m.mmap.Fresh (plan.memory.minimum.toNat * wasmPageSize)
      ((reservedPages plan).toNat * wasmPageSize + plan.offsetGuardSize.toNat) ∧
    Mmap.pageMultiple host plan.offsetGuardSize.toNat = true ∧
    m.current = plan.memory.minimum ∧ m.maximum = plan.memory.maximum ∧
    m.offsetGuardSize = plan.offsetGuardSize.toNat := by
  cases hreq : requestBytes plan (reservedPages plan).toNat with
  | none =>
    rw [new_eq hp, hreq, Option.elim_none] at h
    exact absurd h (by simp)
  | some request =>
    rw [new_eq hp, hreq, Option.elim_some] at h
    obtain ⟨mmap, hmap, rfl⟩ := Ending.map_eq_ok.mp h
    obtain ⟨hf, hpage⟩ := Mmap.accessibleReserved_ok hmap
    rw [requestBytes_eq_some hreq] at hf hpage
    exact ⟨hf, Mmap.pageMultiple_of_add host (Mmap.pageMultiple_wasmPages host _) hpage,
      rfl, rfl, rfl⟩

/-- The size of a memory that was made did not overflow. -/
theorem new_ok_size (hp : plan.Ok) (h : new host os plan = .ok m) :
    (reservedPages plan).toNat * wasmPageSize + plan.offsetGuardSize.toNat < 2 ^ 64 := by
  by_contra hlt
  have hreq : requestBytes plan (reservedPages plan).toNat = none := by
    rw [requestBytes_eq]
    unfold checkedAddUsize
    rw [if_neg hlt]
  rw [new_eq hp, hreq, Option.elim_none] at h
  exact absurd h (by simp)

/-- `new` establishes the invariant. -/
theorem inv_new (hp : plan.Ok) (h : new host os plan = .ok m) : Inv host plan m := by
  obtain ⟨hf, hpage, hcur, hmax, hguard⟩ := new_ok hp h
  refine ⟨hmax, hguard, by rw [hcur]; exact UInt32.le_refl _, by rw [hcur]; exact hp.minimum_le_maximum,
    by rw [hcur]; exact hp.minimum_le, by rw [hcur]; exact hf.accessible, fun i _ => hf.zero i, ?_,
    hpage⟩
  have hlen := hf.len
  unfold Mapped
  unfold reservedPages at hlen
  cases hs : plan.style with
  | dynamic =>
    rw [hs] at hlen
    rw [hcur]
    exact hlen
  | static bound =>
    rw [hs] at hlen
    rw [hcur]
    exact ⟨hlen, hp.minimum_le_bound hs⟩

/-! ## What `grow` does -/

/-- A successful `grow` from `m` to `m'`: the size moves up by `delta`, what was there stays and
what is new is zero, the invariant is kept, and a static memory stays where it is. -/
structure Grew (host : Host) (plan : MemoryPlan) (delta : UInt32) (m m' : LinearMemory) :
    Prop where
  current_eq : m'.current.toNat = m.current.toNat + delta.toNat
  kept : ∀ i, i < m.current.toNat * wasmPageSize → m'.mmap.bytes i = m.mmap.bytes i
  zero : ∀ i, m.current.toNat * wasmPageSize ≤ i → m'.mmap.bytes i = 0
  base : plan.style ≠ .dynamic → m'.mmap.ptr = m.mmap.ptr
  lt_maxPages : m'.current.toNat < wasmMaxPages
  inv : Inv host plan m'

theorem not_exceedsMaximum_iff (hi : Inv host plan m) {newPages : UInt32} :
    ¬ m.exceedsMaximum newPages = true ↔
      ∀ max, plan.memory.maximum = some max → newPages ≤ max := by
  unfold exceedsMaximum
  rw [hi.maximum_eq]
  cases plan.memory.maximum with
  | none => simp
  | some maximum => simp

/-- What `grow` has checked before it touches the mapping. -/
structure Admits (plan : MemoryPlan) (delta : UInt32) (m : LinearMemory) (newPages : UInt32) :
    Prop where
  eq : newPages.toNat = m.current.toNat + delta.toNat
  le_maximum : ∀ max, plan.memory.maximum = some max → newPages ≤ max
  lt_maxPages : newPages.toNat < wasmMaxPages

theorem Admits.current_le {newPages : UInt32} (h : Admits plan delta m newPages) :
    m.current ≤ newPages := by
  rw [UInt32.le_iff_toNat_le, h.eq]
  exact Nat.le_add_right _ _

theorem Admits.bytes_eq {newPages : UInt32} (h : Admits plan delta m newPages) :
    newPages.toNat * wasmPageSize =
      m.current.toNat * wasmPageSize + delta.toNat * wasmPageSize := by
  rw [h.eq, Nat.add_mul]

/-- The relocating branch: any mapping of the right length that keeps the old contents and is
zero past them. -/
theorem grew_moved (hi : Inv host plan m) (hs : plan.style = .dynamic) {newPages : UInt32}
    (hn : Admits plan delta m newPages) {new : Mmap}
    (hlen : new.len = newPages.toNat * wasmPageSize + plan.offsetGuardSize.toNat)
    (hacc : ∀ i, new.accessible i = true ↔ i < newPages.toNat * wasmPageSize)
    (hkept : ∀ i, i < m.current.toNat * wasmPageSize → new.bytes i = m.mmap.bytes i)
    (hzero : ∀ i, m.current.toNat * wasmPageSize ≤ i → new.bytes i = 0) :
    Grew host plan delta m { m with mmap := new, current := newPages } := by
  refine ⟨hn.eq, hkept, hzero, fun h => absurd hs h, hn.lt_maxPages, ?_⟩
  refine ⟨hi.maximum_eq, hi.guard_eq, UInt32.le_trans hi.minimum_le hn.current_le,
    hn.le_maximum, hn.lt_maxPages.le, hacc, fun i h => hzero i ?_, ?_, hi.guard_page⟩
  · exact le_trans (by rw [hn.bytes_eq]; exact Nat.le_add_right _ _) h
  · unfold Mapped
    rw [hs]
    exact hlen

/-- The committing branch: more of the reservation becomes accessible. -/
theorem grew_committed (hi : Inv host plan m) {bound : UInt32} (hs : plan.style = .static bound)
    {newPages : UInt32} (hn : Admits plan delta m newPages) (hb : newPages ≤ bound) :
    Grew host plan delta m
      { m with
        mmap := { m.mmap with
          accessible := fun i => m.mmap.accessible i || decide (m.current.toNat * wasmPageSize ≤ i ∧
            i < m.current.toNat * wasmPageSize + delta.toNat * wasmPageSize) }
        current := newPages } := by
  have hbytes := hn.bytes_eq
  refine ⟨hn.eq, fun i _ => rfl, hi.zero_above, fun _ => rfl, hn.lt_maxPages, ?_⟩
  refine ⟨hi.maximum_eq, hi.guard_eq, UInt32.le_trans hi.minimum_le hn.current_le, hn.le_maximum,
    hn.lt_maxPages.le, fun i => ?_, fun i h => hi.zero_above i ?_, ?_, hi.guard_page⟩
  · simp only [Bool.or_eq_true, hi.accessible_iff, decide_eq_true_eq]
    rw [hbytes]
    omega
  · exact le_trans (by rw [hbytes]; exact Nat.le_add_right _ _) h
  · have hm := hi.mapped
    unfold Mapped at hm ⊢
    rw [hs] at hm ⊢
    exact ⟨hm.1, hb⟩

/-- A static memory without guard is asked for the last page of its reservation. -/
structure ReachesEnd (plan : MemoryPlan) (m : LinearMemory) (delta : UInt32) : Prop where
  style : ∃ bound, plan.style = .static bound ∧ Admits plan delta m bound
  guard : plan.offsetGuardSize.toNat = 0
  pos : 0 < delta.toNat

/-- The four ways a `grow` ends. -/
inductive GrowEnds (host : Host) (plan : MemoryPlan) (delta : UInt32) (m : LinearMemory) :
    Grown → Prop
  | same (h : delta = 0) : GrowEnds host plan delta m (.ret (some m.current) m)
  | failed : GrowEnds host plan delta m (.ret none m)
  | grew {m' : LinearMemory} (h : Grew host plan delta m m') :
      GrowEnds host plan delta m (.ret (some m.current) m')
  | panic (h : ReachesEnd plan m delta) : GrowEnds host plan delta m (.panic .makeAccessible)

theorem growMoved_ends (hi : Inv host plan m) (hs : plan.style = .dynamic) {newPages : UInt32}
    (hn : Admits plan delta m newPages) :
    GrowEnds host plan delta m (m.growMoved host os newPages) := by
  unfold growMoved
  cases hreq : checkedAddUsize (newPages.toNat * wasmPageSize) m.offsetGuardSize with
  | none => exact .failed
  | some request =>
    rw [Option.elim_some]
    have hrq := checkedAddUsize_eq_some hreq
    rw [hi.guard_eq] at hrq
    have hle : newPages.toNat * wasmPageSize ≤ request := by
      rw [hrq]
      exact Nat.le_add_right _ _
    have hpage : Mmap.pageMultiple host request = true := by
      rw [hrq]
      exact Mmap.pageMultiple_add host (Mmap.pageMultiple_wasmPages host _) hi.guard_page
    rcases @Mmap.accessibleReserved_spec host os _ _ hle (Mmap.pageMultiple_wasmPages host _) hpage
      with h | ⟨newMmap, h, hf⟩
    · rw [h]
      exact .failed
    · rw [h, hi.dynamic_len hs]
      rw [hrq] at hf
      refine .grew (grew_moved hi hs hn ?_ ?_ (fun i h => copyInto_of_lt h) fun i h => ?_)
      · rw [copyInto_len]
        exact hf.len
      · rw [copyInto_accessible]
        exact hf.accessible
      · rw [copyInto_of_le h]
        exact hf.zero i

theorem growCommitted_ends (hi : Inv host plan m) {bound : UInt32}
    (hs : plan.style = .static bound) {newPages : UInt32} (hn : Admits plan delta m newPages)
    (hb : newPages ≤ bound) (hpos : 0 < delta.toNat) :
    GrowEnds host plan delta m (m.growCommitted host os delta newPages) := by
  have hstart := Mmap.pageMultiple_wasmPages host m.current.toNat
  have hcount := Mmap.pageMultiple_wasmPages host delta.toNat
  have hlen := hi.static_len hs
  have hbn := UInt32.le_iff_toNat_le.mp hb
  have hle := Nat.mul_le_mul_right wasmPageSize hbn
  unfold growCommitted
  by_cases hend : m.mmap.len ≤ m.current.toNat * wasmPageSize + delta.toNat * wasmPageSize
  · rw [(Mmap.makeAccessible_panic_iff hstart hcount).mpr hend]
    rw [hlen, ← hn.bytes_eq] at hend
    have hlast : bound = newPages := by
      refine UInt32.toNat_inj.mp (le_antisymm ?_ hbn)
      exact Nat.le_of_mul_le_mul_right (c := wasmPageSize) (by omega) (by decide)
    exact .panic ⟨⟨bound, hs, hlast ▸ hn⟩, by omega, hpos⟩
  · rw [Mmap.makeAccessible_spec hstart hcount (Nat.not_le.mp hend)]
    cases os.protect with
    | false => exact .failed
    | true => exact .grew (grew_committed hi hs hn hb)

/-- A dynamic memory has no room on hand: it moves. -/
theorem grow_eq_moved (hi : Inv host plan m) (hs : plan.style = .dynamic) (hd : 0 < delta.toNat)
    {newPages : UInt32} (hadd : checkedAdd32 m.current delta = some newPages)
    (hn : Admits plan delta m newPages) : m.grow host os delta = m.growMoved host os newPages := by
  have hd0 : delta ≠ 0 := fun h => absurd hd (by simp [h])
  have hdb : 0 < delta.toNat * wasmPageSize := Nat.mul_pos hd (by decide)
  have hmove : newPages.toNat * wasmPageSize > m.mmap.len - m.offsetGuardSize := by
    rw [hi.dynamic_len hs, hn.bytes_eq]
    exact Nat.lt_add_of_pos_right hdb
  unfold grow
  rw [if_neg hd0, hadd, Option.elim_some, if_neg ((not_exceedsMaximum_iff hi).mpr hn.le_maximum),
    if_neg (Nat.not_le.mpr hn.lt_maxPages), if_pos hmove]

/-- A static memory has its maximum reserved: it stays. -/
theorem grow_eq_committed (hp : plan.Ok) (hi : Inv host plan m) {bound : UInt32}
    (hs : plan.style = .static bound) (hd : 0 < delta.toNat) {newPages : UInt32}
    (hadd : checkedAdd32 m.current delta = some newPages) (hn : Admits plan delta m newPages) :
    newPages ≤ bound ∧ m.grow host os delta = m.growCommitted host os delta newPages := by
  obtain ⟨max, hmaxs, hmb⟩ := hp.static bound hs
  have hb : newPages ≤ bound := UInt32.le_trans (hn.le_maximum max hmaxs) hmb
  have hle := Nat.mul_le_mul_right wasmPageSize (UInt32.le_iff_toNat_le.mp hb)
  have hd0 : delta ≠ 0 := fun h => absurd hd (by simp [h])
  have hstay : ¬ newPages.toNat * wasmPageSize > m.mmap.len - m.offsetGuardSize := by
    rw [hi.static_len hs, hi.guard_eq, Nat.add_sub_cancel]
    exact Nat.not_lt.mpr hle
  refine ⟨hb, ?_⟩
  unfold grow
  rw [if_neg hd0, hadd, Option.elim_some, if_neg ((not_exceedsMaximum_iff hi).mpr hn.le_maximum),
    if_neg (Nat.not_le.mpr hn.lt_maxPages), if_neg hstay, if_pos (Nat.mul_pos hd (by decide))]

/-- A static memory grows when the host grants the call and the pages end inside the mapping. -/
theorem grow_committed_granted (hp : plan.Ok) (hi : Inv host plan m) {bound : UInt32}
    (hs : plan.style = .static bound) (hd : 0 < delta.toNat) {newPages : UInt32}
    (hadd : checkedAdd32 m.current delta = some newPages) (hn : Admits plan delta m newPages)
    (hfit : newPages.toNat * wasmPageSize < m.mmap.len) (mmap : Option Nat) :
    ∃ m', m.grow host ⟨mmap, true⟩ delta = .ret (some m.current) m' ∧ m'.current = newPages := by
  rw [(grow_eq_committed hp hi hs hd hadd hn).2]
  unfold growCommitted
  rw [hn.bytes_eq] at hfit
  rw [Mmap.makeAccessible_spec (Mmap.pageMultiple_wasmPages host _)
    (Mmap.pageMultiple_wasmPages host _) hfit]
  exact ⟨_, rfl, rfl⟩

/-- **What a `grow` can do**: nothing (`delta = 0`), fail and leave the memory as it is, grow it,
or panic on the last page of an unguarded reservation. -/
theorem grow_ends (hp : plan.Ok) (hi : Inv host plan m) :
    GrowEnds host plan delta m (m.grow host os delta) := by
  by_cases hd : delta = 0
  · unfold grow
    rw [if_pos hd]
    exact .same hd
  have hpos : 0 < delta.toNat := Nat.pos_of_ne_zero fun h => hd (UInt32.toNat_inj.mp h)
  cases hadd : checkedAdd32 m.current delta with
  | none =>
    unfold grow
    rw [if_neg hd, hadd]
    exact .failed
  | some newPages =>
    by_cases hn : Admits plan delta m newPages
    · cases hs : plan.style with
      | dynamic =>
        rw [grow_eq_moved hi hs hpos hadd hn]
        exact growMoved_ends hi hs hn
      | static bound =>
        obtain ⟨hb, h⟩ := @grow_eq_committed host os plan m delta hp hi bound hs hpos _ hadd hn
        rw [h]
        exact growCommitted_ends hi hs hn hb hpos
    · unfold grow
      rw [if_neg hd, hadd, Option.elim_some]
      by_cases hmax : m.exceedsMaximum newPages = true
      · rw [if_pos hmax]
        exact .failed
      · rw [if_neg hmax]
        have hlim : newPages.toNat ≥ wasmMaxPages := by
          by_contra hlt
          exact hn ⟨checkedAdd32_eq_some hadd, (not_exceedsMaximum_iff hi).mp hmax,
            Nat.not_le.mp hlt⟩
        rw [if_pos hlim]
        exact .failed

/-! ## Whole runs -/

/-- Every state of a run satisfies the invariant. -/
theorem run_inv (hp : plan.Ok) (h : Run host plan m) : Inv host plan m := by
  induction h with
  | new h => exact inv_new hp h
  | grow hm h ih =>
    rename_i os delta r m m'
    have hends := @grow_ends host os plan m delta hp ih
    rw [h] at hends
    cases hends with
    | same _ => exact ih
    | failed => exact ih
    | grew hg => exact hg.inv
  | store hm h ih => exact ih.store h _

/-- Every run starts with a `new`. -/
theorem run_new (h : Run host plan m) : ∃ os m₀, new host os plan = .ok m₀ := by
  induction h with
  | new h => exact ⟨_, _, h⟩
  | grow _ _ ih => exact ih
  | store _ _ ih => exact ih

/-- A memory that starts below the limit of wasm stays below it: `grow` never reaches it. -/
theorem run_lt_maxPages (hp : plan.Ok) (hmin : plan.memory.minimum.toNat < wasmMaxPages)
    (h : Run host plan m) : m.current.toNat < wasmMaxPages := by
  induction h with
  | new h =>
    rw [(new_ok hp h).2.2.1]
    exact hmin
  | grow hm h ih =>
    rename_i os delta r m m'
    have hends := @grow_ends host os plan m delta hp (run_inv hp hm)
    rw [h] at hends
    cases hends with
    | same _ => exact ih
    | failed => exact ih
    | grew hg => exact hg.lt_maxPages
  | store hm h ih => exact ih

/-- A static memory never moves. -/
theorem grow_ptr (hp : plan.Ok) (hs : plan.style ≠ .dynamic) (hm : Run host plan m)
    {r : Option UInt32} (h : m.grow host os delta = .ret r m') : m'.mmap.ptr = m.mmap.ptr := by
  have hends := @grow_ends host os plan m delta hp (run_inv hp hm)
  rw [h] at hends
  cases hends with
  | same _ => rfl
  | failed => rfl
  | grew hg => exact hg.base hs

/-! ## When `grow` panics, whatever the plan -/

/-- `grow` asks for the last page of a mapping that has no guard. -/
def ReachesMappingEnd (m : LinearMemory) (delta : UInt32) : Prop :=
  delta ≠ 0 ∧ m.offsetGuardSize = 0 ∧ ∃ newPages, checkedAdd32 m.current delta = some newPages ∧
    ¬ m.exceedsMaximum newPages ∧ newPages.toNat < wasmMaxPages ∧
    newPages.toNat * wasmPageSize = m.mmap.len

/-- The outcome is a panic exactly when `P` holds, and a return keeps the guard. -/
def EndsUnless (m : LinearMemory) (P : Prop) (g : Grown) : Prop :=
  (g = .panic .makeAccessible ∧ P) ∨
    ∃ r m', g = .ret r m' ∧ m'.offsetGuardSize = m.offsetGuardSize ∧ ¬ P

theorem growMoved_endsUnless {P : Prop} (hguard : Mmap.pageMultiple host m.offsetGuardSize = true)
    (newPages : UInt32) (hP : ¬ P) : m.EndsUnless P (m.growMoved host os newPages) := by
  right
  unfold growMoved
  cases hreq : checkedAddUsize (newPages.toNat * wasmPageSize) m.offsetGuardSize with
  | none => exact ⟨none, m, rfl, rfl, hP⟩
  | some request =>
    rw [Option.elim_some]
    have hrq := checkedAddUsize_eq_some hreq
    have hpage : Mmap.pageMultiple host request = true := by
      rw [hrq]
      exact Mmap.pageMultiple_add host (Mmap.pageMultiple_wasmPages host _) hguard
    rcases @Mmap.accessibleReserved_spec host os _ _ (by omega)
      (Mmap.pageMultiple_wasmPages host newPages.toNat) hpage with h | ⟨newMmap, h, -⟩
    · rw [h]
      exact ⟨none, m, rfl, rfl, hP⟩
    · rw [h]
      exact ⟨_, _, rfl, rfl, hP⟩

theorem growCommitted_endsUnless (newPages : UInt32) {P : Prop}
    (hP : P ↔ m.mmap.len ≤ m.current.toNat * wasmPageSize + delta.toNat * wasmPageSize) :
    m.EndsUnless P (m.growCommitted host os delta newPages) := by
  have hstart := Mmap.pageMultiple_wasmPages host m.current.toNat
  have hcount := Mmap.pageMultiple_wasmPages host delta.toNat
  unfold growCommitted
  by_cases hend : m.mmap.len ≤ m.current.toNat * wasmPageSize + delta.toNat * wasmPageSize
  · left
    rw [(Mmap.makeAccessible_panic_iff hstart hcount).mpr hend]
    exact ⟨rfl, hP.mpr hend⟩
  · right
    rw [Mmap.makeAccessible_spec hstart hcount (Nat.not_le.mp hend)]
    cases os.protect with
    | false => exact ⟨none, m, rfl, rfl, fun h => hend (hP.mp h)⟩
    | true => exact ⟨_, _, rfl, rfl, fun h => hend (hP.mp h)⟩

/-- `grow` panics exactly on the last page of a mapping without guard. -/
theorem grow_endsUnless (hguard : Mmap.pageMultiple host m.offsetGuardSize = true) :
    m.EndsUnless (m.ReachesMappingEnd delta) (m.grow host os delta) := by
  unfold grow
  by_cases hd : delta = 0
  · rw [if_pos hd]
    exact Or.inr ⟨_, m, rfl, rfl, fun h => h.1 hd⟩
  have hpos : 0 < delta.toNat := Nat.pos_of_ne_zero fun h => hd (UInt32.toNat_inj.mp h)
  rw [if_neg hd]
  cases hadd : checkedAdd32 m.current delta with
  | none =>
    refine Or.inr ⟨none, m, rfl, rfl, ?_⟩
    rintro ⟨-, -, newPages, h, -⟩
    exact absurd (hadd.symm.trans h) (by simp)
  | some newPages =>
    have hsum := checkedAdd32_eq_some hadd
    have hbytes : newPages.toNat * wasmPageSize =
        m.current.toNat * wasmPageSize + delta.toNat * wasmPageSize := by
      rw [hsum, Nat.add_mul]
    have hdelta : 0 < delta.toNat * wasmPageSize := Nat.mul_pos hpos (by decide)
    rw [Option.elim_some]
    by_cases hmax : m.exceedsMaximum newPages = true
    · rw [if_pos hmax]
      refine Or.inr ⟨none, m, rfl, rfl, ?_⟩
      rintro ⟨-, -, n, h, hn, -⟩
      obtain rfl := Option.some.inj (hadd.symm.trans h)
      exact hn hmax
    rw [if_neg hmax]
    by_cases hlim : newPages.toNat ≥ wasmMaxPages
    · rw [if_pos hlim]
      refine Or.inr ⟨none, m, rfl, rfl, ?_⟩
      rintro ⟨-, -, n, h, -, hn, -⟩
      obtain rfl := Option.some.inj (hadd.symm.trans h)
      exact absurd hlim (Nat.not_le.mpr hn)
    rw [if_neg hlim]
    by_cases hmove : newPages.toNat * wasmPageSize > m.mmap.len - m.offsetGuardSize
    · rw [if_pos hmove]
      refine growMoved_endsUnless hguard newPages ?_
      rintro ⟨-, hg, n, h, -, -, hn⟩
      obtain rfl := Option.some.inj (hadd.symm.trans h)
      omega
    rw [if_neg hmove, if_pos hdelta]
    refine growCommitted_endsUnless newPages ⟨?_, fun hend => ?_⟩
    · rintro ⟨-, -, n, h, -, -, hn⟩
      obtain rfl := Option.some.inj (hadd.symm.trans h)
      omega
    · exact ⟨hd, by omega, newPages, hadd, hmax, Nat.not_le.mp hlim, by omega⟩

/-- The guard of a memory is whole pages. -/
theorem run_guard (h : Run host plan m) : Mmap.pageMultiple host m.offsetGuardSize = true := by
  induction h with
  | new h =>
    unfold new at h
    split at h
    · cases hmin : minimumPages plan with
      | none =>
        rw [hmin] at h
        exact absurd h (by simp)
      | some pages =>
        rw [hmin, Option.elim_some] at h
        cases hreq : requestBytes plan pages with
        | none =>
          rw [hreq] at h
          exact absurd h (by simp)
        | some request =>
          rw [hreq, Option.elim_some] at h
          obtain ⟨mmap, hmap, rfl⟩ := Ending.map_eq_ok.mp h
          obtain ⟨bytes, hbytes, hreq⟩ := Option.bind_eq_some_iff.mp hreq
          obtain ⟨-, hbytes⟩ := Option.ite_none_right_eq_some.mp hbytes
          obtain rfl := Option.some.inj hbytes
          have hpage := (Mmap.accessibleReserved_ok hmap).2
          rw [checkedAddUsize_eq_some hreq] at hpage
          exact Mmap.pageMultiple_of_add host (Mmap.pageMultiple_wasmPages host _) hpage
    · exact absurd h (by simp)
  | grow hm h ih =>
    rename_i os delta r m m'
    rcases @grow_endsUnless host os m delta ih with ⟨hp, -⟩ | ⟨r', m₁, hret, hkeep, -⟩
    · exact absurd (h.symm.trans hp) (by simp)
    · obtain ⟨-, rfl⟩ := Grown.ret.inj (h.symm.trans hret)
      rw [hkeep]
      exact ih
  | store hm h ih => exact ih

/-- `new` never fails an assert of `accessible_reserved` or `make_accessible` when the guard of
the plan is a page multiple. -/
theorem new_asserts (hp : plan.Ok)
    (hguard : Mmap.pageMultiple host plan.offsetGuardSize.toNat = true) :
    new host os plan ≠ .panic .accessibleReserved ∧ new host os plan ≠ .panic .makeAccessible := by
  rw [new_eq hp]
  cases hreq : requestBytes plan (reservedPages plan).toNat with
  | none => exact ⟨by simp, by simp⟩
  | some request =>
    rw [Option.elim_some]
    unfold newMapped
    obtain ⟨hle, hpage⟩ := requestBytes_page hp hguard hreq
    rcases @Mmap.accessibleReserved_spec host os _ _ hle (Mmap.pageMultiple_wasmPages host _) hpage
      with h | ⟨mmap, h, -⟩
    · rw [h]
      exact ⟨by simp [Ending.map], by simp [Ending.map]⟩
    · rw [h]
      exact ⟨by simp [Ending.map], by simp [Ending.map]⟩

/-- When the host grants the calls and the size does not overflow, the memory is made. -/
theorem new_granted (hp : plan.Ok)
    (hguard : Mmap.pageMultiple host plan.offsetGuardSize.toNat = true)
    (hsize : (reservedPages plan).toNat * wasmPageSize + plan.offsetGuardSize.toNat < 2 ^ 64)
    (ptr : Nat) : ∃ m, new host ⟨some ptr, true⟩ plan = .ok m := by
  have hreq : requestBytes plan (reservedPages plan).toNat =
      some ((reservedPages plan).toNat * wasmPageSize + plan.offsetGuardSize.toNat) := by
    rw [requestBytes_eq]
    unfold checkedAddUsize
    rw [if_pos hsize]
  obtain ⟨hle, hpage⟩ := requestBytes_page hp hguard hreq
  obtain ⟨mmap, h⟩ := @Mmap.accessibleReserved_granted host _ _ ptr hle
    (Mmap.pageMultiple_wasmPages host _) hpage
  rw [new_eq hp, hreq, Option.elim_some, newMapped, h]
  exact ⟨_, rfl⟩

/-- What the state of a memory promises: its size within the declared limits, exactly its bytes
accessible, its guard mapped past them. -/
structure StateOk (plan : MemoryPlan) (m : LinearMemory) : Prop where
  le_maximum : ∀ max, plan.memory.maximum = some max → m.size ≤ max
  le_maxPages : m.size.toNat ≤ wasmMaxPages
  accessible_iff : ∀ i, m.mmap.accessible i = true ↔ i < m.size.toNat * wasmPageSize
  guarded : m.size.toNat * wasmPageSize + plan.offsetGuardSize.toNat ≤ m.mmap.len

/-- What the end of a `grow` promises: no assert fails; `None` leaves size, base, accessibility
and contents as they were; otherwise the old bytes stay, the new ones are zero, and only a
dynamic memory moves. -/
def GrowOk (plan : MemoryPlan) (m : LinearMemory) : Grown → Prop
  | .panic p => p ≠ .accessibleReserved ∧ p ≠ .makeAccessible
  | .ret none m' => m' = m
  | .ret (some _) m' =>
    (∀ i, i < m.size.toNat * wasmPageSize → m'.mmap.bytes i = m.mmap.bytes i) ∧
    (∀ i, m.size.toNat * wasmPageSize ≤ i → i < m'.size.toNat * wasmPageSize →
      m'.mmap.bytes i = 0) ∧
    (m'.mmap.ptr ≠ m.mmap.ptr → plan.style = .dynamic)

/-- A linear memory is safe over whole runs. -/
structure Safe (host : Host) (plan : MemoryPlan) : Prop where
  new : ∀ os, new host os plan ≠ .panic .accessibleReserved ∧
    new host os plan ≠ .panic .makeAccessible
  state : ∀ m, Run host plan m → StateOk plan m
  grow : ∀ m, Run host plan m → ∀ os delta, GrowOk plan m (m.grow host os delta)

theorem Inv.stateOk (h : Inv host plan m) : StateOk plan m :=
  ⟨h.le_maximum, h.le_maxPages, h.accessible_iff, h.guard_le⟩

theorem growOk_of_ends (hi : Inv host plan m) {g : Grown} (h : GrowEnds host plan delta m g)
    (hend : ¬ ReachesEnd plan m delta) : GrowOk plan m g := by
  cases h with
  | same _ =>
    exact ⟨fun _ _ => rfl, fun i h _ => hi.zero_above i h, fun h => absurd rfl h⟩
  | failed => exact rfl
  | grew hg =>
    refine ⟨hg.kept, fun i h _ => hg.zero i h, fun h => ?_⟩
    by_contra hs
    exact h (hg.base hs)
  | panic h => exact absurd h hend

/-- The plans that go wrong: a static memory without guard, declared with the whole reservation
as its maximum, which is below the limit of wasm and above the minimum. -/
def GrowsToUnguardedEnd (ty : MemoryType) (tunables : Tunables) : Prop :=
  tunables.staticMemoryOffsetGuardSize = 0 ∧ ty.maximum = some tunables.staticMemoryBound ∧
    ty.minimum < tunables.staticMemoryBound ∧ tunables.staticMemoryBound.toNat < wasmMaxPages

instance (ty : MemoryType) (tunables : Tunables) : Decidable (GrowsToUnguardedEnd ty tunables) :=
  inferInstanceAs (Decidable (_ ∧ _ ∧ _ ∧ _))

section

variable {ty : MemoryType} {tunables : Tunables}

/-- Only a plan of the bad kind has a state whose growth reaches the end of the mapping. -/
theorem growsToUnguardedEnd_of_reachesEnd (hi : Inv host (ty.plan tunables) m)
    (h : ReachesEnd (ty.plan tunables) m delta) : GrowsToUnguardedEnd ty tunables := by
  obtain ⟨⟨bound, hs, hn⟩, hguard, hpos⟩ := h
  have hmin := UInt32.le_iff_toNat_le.mp hi.minimum_le
  have hle := hn.le_maximum
  rcases forMemory_cases (ty.forMemory_eq tunables) with ⟨max, hmax, hmb, -, he⟩ | ⟨-, he⟩
  · rw [he] at hs hguard hmin hle
    obtain rfl := MemoryStyle.static.inj hs
    obtain rfl := UInt32.le_antisymm hmb (hle max hmax)
    refine ⟨UInt64.toNat_inj.mp hguard, hmax, UInt32.lt_iff_toNat_lt.mpr ?_, hn.lt_maxPages⟩
    have heq := hn.eq
    simp only at hmin
    omega
  · rw [he] at hs
    exact absurd hs (by simp)

theorem plan_of_growsToUnguardedEnd (h : GrowsToUnguardedEnd ty tunables) :
    ty.plan tunables = ⟨ty.toMemory, .static tunables.staticMemoryBound, 0⟩ := by
  obtain ⟨hguard, hmax, -, -⟩ := h
  rcases forMemory_cases (ty.forMemory_eq tunables) with ⟨_, -, -, -, he⟩ | ⟨hgt, -⟩
  · rw [he, hguard]
  · exact absurd (hgt _ hmax) (UInt32.lt_irrefl _)

/-- A plan of the bad kind is made, grown to its maximum, and panics. -/
theorem grow_panics (h : GrowsToUnguardedEnd ty tunables) :
    ∃ m delta, Run host (ty.plan tunables) m ∧
      m.grow host os delta = .panic .makeAccessible := by
  have hp := ty.plan_ok tunables
  have he := plan_of_growsToUnguardedEnd h
  obtain ⟨-, hmax, hlt, hb⟩ := h
  rw [he] at hp ⊢
  generalize tunables.staticMemoryBound = bound at *
  have hlt' := UInt32.lt_iff_toNat_lt.mp hlt
  have hguard : Mmap.pageMultiple host (UInt64.toNat 0) = true := by simp [Mmap.pageMultiple]
  have hsize : bound.toNat * wasmPageSize + UInt64.toNat 0 < 2 ^ 64 := by
    rw [UInt64.toNat_zero, Nat.add_zero]
    exact pages_lt_usize bound
  obtain ⟨m, hm⟩ := @new_granted host _ hp hguard hsize 0
  have hi := inv_new hp hm
  have hcur : m.current = ty.minimum := (new_ok hp hm).2.2.1
  have hdelta : (bound - ty.minimum).toNat = bound.toNat - ty.minimum.toNat :=
    UInt32.toNat_sub_of_le _ _ (UInt32.le_of_lt hlt)
  have hsum : m.current.toNat + (bound - ty.minimum).toNat = bound.toNat := by
    rw [hcur, hdelta]
    omega
  have hadd := checkedAdd32_of_toNat hsum
  have hn : Admits ⟨ty.toMemory, .static bound, 0⟩ (bound - ty.minimum) m bound := by
    refine ⟨hsum.symm, fun max h => ?_, hb⟩
    obtain rfl := Option.some.inj (hmax.symm.trans h)
    exact UInt32.le_refl _
  refine ⟨m, bound - ty.minimum, .new hm, ?_⟩
  rw [(grow_eq_committed hp hi rfl (by omega) hadd hn).2]
  unfold growCommitted
  rw [(Mmap.makeAccessible_panic_iff (Mmap.pageMultiple_wasmPages host _)
    (Mmap.pageMultiple_wasmPages host _)).mpr]
  · rfl
  · rw [hi.static_len rfl, ← hn.bytes_eq, UInt64.toNat_zero, Nat.add_zero]

/-- The panic breaks the promise of `grow`. -/
theorem not_safe_of_growsToUnguardedEnd (h : GrowsToUnguardedEnd ty tunables) :
    ¬ Safe host (ty.plan tunables) := by
  intro hsafe
  obtain ⟨m, delta, hrun, hgrow⟩ := @grow_panics host ⟨none, false⟩ ty tunables h
  have hok := hsafe.grow m hrun ⟨none, false⟩ delta
  rw [hgrow] at hok
  exact hok.2 rfl

end

/-- **Linear memories over whole runs.** For every validated type and all tunables whose guards
are page multiples, every run is safe exactly when the plan is not one of the bad kind. -/
theorem safe_iff_not_growsToUnguardedEnd (host : Host) (ty : MemoryType) (tunables : Tunables)
    (hstatic : Mmap.pageMultiple host tunables.staticMemoryOffsetGuardSize.toNat = true)
    (hdynamic : Mmap.pageMultiple host tunables.dynamicMemoryOffsetGuardSize.toNat = true) :
    Safe host (ty.plan tunables) ↔ ¬ GrowsToUnguardedEnd ty tunables := by
  refine ⟨fun hsafe h => not_safe_of_growsToUnguardedEnd h hsafe, fun h => ?_⟩
  have hp := ty.plan_ok tunables
  have hguard : Mmap.pageMultiple host (ty.plan tunables).offsetGuardSize.toNat = true := by
    rcases forMemory_cases (ty.forMemory_eq tunables) with ⟨_, -, -, -, he⟩ | ⟨-, he⟩
    · rw [he]
      exact hstatic
    · rw [he]
      exact hdynamic
  refine ⟨fun os => new_asserts hp hguard, fun m hm => (run_inv hp hm).stateOk,
    fun m hm os delta => ?_⟩
  have hi := run_inv hp hm
  exact growOk_of_ends hi (grow_ends hp hi) fun hend => h (growsToUnguardedEnd_of_reachesEnd hi hend)

/-- A host with 4 KiB pages. -/
def host4K : Host := ⟨12, by decide⟩

/-- `(memory 1 10)`. -/
def oneToTenPages : MemoryType := .between 1 10 (by decide) (by decide)

/-- Under the default tunables `(memory 1 10)` is safe. -/
theorem safe_oneToTenPages_default : Safe host4K (oneToTenPages.plan .default) :=
  (safe_iff_not_growsToUnguardedEnd host4K oneToTenPages .default (by decide) (by decide)).mpr
    (by decide)

/-- Tunables with a static bound of ten pages and no static guard. -/
def unguardedTen : Tunables := ⟨10, 0, 0x10000⟩

/-- With ten reserved pages and no guard, `(memory 1 10)` is not: growing it by nine pages
panics. -/
theorem not_safe_oneToTenPages_unguarded :
    Mmap.pageMultiple host4K unguardedTen.staticMemoryOffsetGuardSize.toNat = true ∧
    Mmap.pageMultiple host4K unguardedTen.dynamicMemoryOffsetGuardSize.toNat = true ∧
    unguardedTen.staticMemoryBound.toNat ≤ wasmMaxPages ∧
    ¬ Safe host4K (oneToTenPages.plan unguardedTen) :=
  ⟨by decide, by decide, by decide, not_safe_of_growsToUnguardedEnd (by decide)⟩

end LinearMemory

end Wasmtime.Runtime
