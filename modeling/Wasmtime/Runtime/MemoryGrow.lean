import Mathlib
import Wasmtime.Runtime.Memory

/-!
# When `memory.grow` succeeds

`LinearMemory::grow` (`wasmtime-runtime/src/memory.rs`) decides with an inclusive comparison against
the declared maximum and an exclusive one against `WASM_MAX_PAGES`. Here the host grants every call, so
that what is left is the decision of the code.

* `MayGrow`: the new size, as an unbounded integer, is within the declared maximum and 65536 pages.
* `Misses`: where the code does something else. The new size is exactly 65536 pages; or it ends at the
  last byte of a mapping without guard, where `make_accessible` panics; or the memory has to move and
  the request does not fit a `usize`.
* `grow_exact_iff`: `grow` does what it may exactly outside of these.
-/

namespace Wasmtime.Runtime.LinearMemory

open Environ

/-- The host grants every call, and maps at `ptr`. -/
def granting (ptr : Nat) : Os := ⟨some ptr, true⟩

/-- The new size is within the declared maximum and within 65536 pages. -/
def MayGrow (ty : MemoryType) (m : LinearMemory) (delta : UInt32) : Prop :=
  (∀ max, ty.maximum = some max → m.current.toNat + delta.toNat ≤ max.toNat) ∧
    m.current.toNat + delta.toNat ≤ wasmMaxPages

/-- `grow` returns the previous size and moves the size up by `delta`. -/
def Grows (host : Host) (os : Os) (m : LinearMemory) (delta : UInt32) : Prop :=
  ∃ m', m.grow host os delta = .ret (some m.current) m' ∧
    m'.current.toNat = m.current.toNat + delta.toNat

/-- The bytes of the new size. -/
def newBytes (m : LinearMemory) (delta : UInt32) : Nat :=
  (m.current.toNat + delta.toNat) * wasmPageSize

/-- A growth that may happen and does not. -/
def Misses (ty : MemoryType) (m : LinearMemory) (delta : UInt32) : Prop :=
  delta ≠ 0 ∧ MayGrow ty m delta ∧
    (m.current.toNat + delta.toNat = wasmMaxPages ∨
      m.offsetGuardSize = 0 ∧ m.newBytes delta = m.mmap.len ∨
      m.mmap.len - m.offsetGuardSize < m.newBytes delta ∧
        2 ^ 64 ≤ m.newBytes delta + m.offsetGuardSize)

variable {host : Host} {ty : MemoryType} {tunables : Tunables} {m : LinearMemory} {delta : UInt32}
  {ptr : Nat}

/-- A run stays within what the type declares. -/
theorem mayGrow_zero (h : Run host (ty.plan tunables) m) : MayGrow ty m 0 := by
  have hi := run_inv (ty.plan_ok tunables) h
  have hmem : (ty.plan tunables).memory = ty.toMemory := forMemory_memory (ty.forMemory_eq tunables)
  refine ⟨fun max hmax => ?_, hi.le_maxPages⟩
  exact UInt32.le_iff_toNat_le.mp (hi.le_maximum max (by rw [hmem]; exact hmax))

/-- The comparison with the declared maximum is the one the specification makes. -/
theorem not_exceedsMaximum_iff_le (h : Run host (ty.plan tunables) m) {newPages : UInt32}
    (hsum : newPages.toNat = m.current.toNat + delta.toNat) :
    ¬ m.exceedsMaximum newPages = true ↔
      ∀ max, ty.maximum = some max → m.current.toNat + delta.toNat ≤ max.toNat := by
  have hmem : (ty.plan tunables).memory = ty.toMemory := forMemory_memory (ty.forMemory_eq tunables)
  rw [not_exceedsMaximum_iff (run_inv (ty.plan_ok tunables) h), hmem, ← hsum]
  exact forall_congr' fun max => imp_congr_right fun _ => UInt32.le_iff_toNat_le

/-- A moved memory grows unless the request overflows. -/
theorem growMoved_grows (h : Run host (ty.plan tunables) m) {newPages : UInt32}
    (hsum : newPages.toNat = m.current.toNat + delta.toNat) :
    (∃ m', m.growMoved host (granting ptr) newPages = .ret (some m.current) m' ∧
      m'.current.toNat = m.current.toNat + delta.toNat) ↔
      m.newBytes delta + m.offsetGuardSize < 2 ^ 64 := by
  have hbytes : newPages.toNat * wasmPageSize = m.newBytes delta := by rw [newBytes, hsum]
  unfold growMoved checkedAddUsize
  rw [hbytes]
  by_cases hfit : m.newBytes delta + m.offsetGuardSize < 2 ^ 64
  · rw [if_pos hfit, Option.elim_some]
    have hpages : Mmap.pageMultiple host (m.newBytes delta) = true := Mmap.pageMultiple_wasmPages host _
    obtain ⟨mmap, hmap⟩ := @Mmap.accessibleReserved_granted host (m.newBytes delta)
      (m.newBytes delta + m.offsetGuardSize) ptr (Nat.le_add_right _ _) hpages
      (Mmap.pageMultiple_add host hpages (run_guard h))
    rw [granting, hmap]
    exact iff_of_true ⟨_, rfl, hsum⟩ hfit
  · rw [if_neg hfit, Option.elim_none]
    refine iff_of_false ?_ hfit
    rintro ⟨m', hret, -⟩
    exact Option.some_ne_none _ (Grown.ret.inj hret).1.symm

/-- A memory that stays grows unless it reaches the end of its mapping. -/
theorem growCommitted_grows {newPages : UInt32}
    (hsum : newPages.toNat = m.current.toNat + delta.toNat) :
    (∃ m', m.growCommitted host (granting ptr) delta newPages = .ret (some m.current) m' ∧
      m'.current.toNat = m.current.toNat + delta.toNat) ↔ m.newBytes delta < m.mmap.len := by
  have hstart := Mmap.pageMultiple_wasmPages host m.current.toNat
  have hcount := Mmap.pageMultiple_wasmPages host delta.toNat
  have hbytes : m.newBytes delta =
      m.current.toNat * wasmPageSize + delta.toNat * wasmPageSize := Nat.add_mul ..
  unfold growCommitted
  rw [hbytes]
  by_cases hfit : m.current.toNat * wasmPageSize + delta.toNat * wasmPageSize < m.mmap.len
  · rw [Mmap.makeAccessible_spec hstart hcount hfit]
    exact iff_of_true ⟨_, rfl, hsum⟩ hfit
  · rw [(Mmap.makeAccessible_panic_iff hstart hcount).mpr (Nat.not_lt.mp hfit)]
    refine iff_of_false ?_ hfit
    rintro ⟨m', hret, -⟩
    cases hret

/-- **`memory.grow` and its limits.** In every state of every run, with a host that grants the call,
`grow` succeeds exactly when it may, unless the growth is one of those that it misses. -/
theorem grow_exact_iff (h : Run host (ty.plan tunables) m) :
    (Grows host (granting ptr) m delta ↔ MayGrow ty m delta) ↔ ¬ Misses ty m delta := by
  by_cases hd : delta = 0
  · subst hd
    have hgrow : Grows host (granting ptr) m 0 := ⟨m, by rw [grow, if_pos rfl], rfl⟩
    exact iff_of_true (iff_of_true hgrow (mayGrow_zero h)) fun hmiss => hmiss.1 rfl
  have hpos : 0 < delta.toNat := Nat.pos_of_ne_zero fun hz => hd (UInt32.toNat_inj.mp hz)
  by_cases hmay : MayGrow ty m delta
  · have hlt : m.current.toNat + delta.toNat < 2 ^ 32 := lt_of_le_of_lt hmay.2 (by decide)
    have hsum : (m.current + delta).toNat = m.current.toNat + delta.toNat := by
      rw [UInt32.toNat_add, Nat.mod_eq_of_lt hlt]
    have hmax := (not_exceedsMaximum_iff_le h hsum).mpr hmay.1
    rw [iff_true_right hmay, Misses, Grows]
    unfold grow
    rw [if_neg hd, checkedAdd32_of_toNat hsum.symm, Option.elim_some, if_neg hmax, hsum]
    by_cases hlast : m.current.toNat + delta.toNat = wasmMaxPages
    · rw [if_pos hlast.ge]
      refine iff_of_false ?_ (not_not.mpr ⟨hd, hmay, .inl hlast⟩)
      rintro ⟨m', hret, -⟩
      exact Option.some_ne_none _ (Grown.ret.inj hret).1.symm
    · have hbelow := lt_of_le_of_ne hmay.2 hlast
      rw [if_neg (Nat.not_le.mpr hbelow)]
      by_cases hmove : m.mmap.len - m.offsetGuardSize < m.newBytes delta
      · rw [newBytes] at hmove
        rw [if_pos hmove, growMoved_grows h hsum]
        rw [← newBytes] at hmove
        constructor
        · rintro hfit ⟨-, -, heq | ⟨hguard, hend⟩ | ⟨-, hover⟩⟩
          · exact hlast heq
          · omega
          · omega
        · intro hmiss
          by_contra hover
          exact hmiss ⟨hd, hmay, .inr (.inr ⟨hmove, Nat.not_lt.mp hover⟩)⟩
      · have hdelta : delta.toNat * wasmPageSize > 0 := Nat.mul_pos hpos (by decide)
        rw [newBytes] at hmove
        rw [if_neg hmove, if_pos hdelta, growCommitted_grows hsum]
        rw [← newBytes] at hmove
        constructor
        · rintro hfit ⟨-, -, heq | ⟨-, hend⟩ | ⟨hmove', -⟩⟩
          · exact hlast heq
          · omega
          · exact hmove hmove'
        · intro hmiss
          by_contra hend
          have hbytes : 0 < m.newBytes delta := Nat.mul_pos (Nat.add_pos_right _ hpos) (by decide)
          refine hmiss ⟨hd, hmay, .inr (.inl ?_)⟩
          omega
  · rw [iff_false_right hmay]
    refine iff_of_true ?_ fun hmiss => hmay hmiss.2.1
    rintro ⟨m', hret, -⟩
    unfold grow at hret
    rw [if_neg hd] at hret
    cases hadd : checkedAdd32 m.current delta with
    | none =>
      rw [hadd, Option.elim_none] at hret
      exact Option.some_ne_none _ (Grown.ret.inj hret).1.symm
    | some newPages =>
      have hsum := checkedAdd32_eq_some hadd
      rw [hadd, Option.elim_some] at hret
      by_cases hmax : m.exceedsMaximum newPages = true
      · rw [if_pos hmax] at hret
        exact Option.some_ne_none _ (Grown.ret.inj hret).1.symm
      · have hlim : newPages.toNat ≥ wasmMaxPages := by
          by_contra hbelow
          have hwithin := (not_exceedsMaximum_iff_le h hsum).mp hmax
          exact hmay ⟨hwithin, by omega⟩
        rw [if_neg hmax, if_pos hlim] at hret
        exact Option.some_ne_none _ (Grown.ret.inj hret).1.symm

/-- `(memory 0 65536)`. -/
def toTheLimit : MemoryType := .between 0 65536 (by decide) (by decide)

/-- What `new` makes of it on pages of 4 KiB, with the default tunables. -/
theorem exists_run_toTheLimit :
    ∃ m, Run host4K (toTheLimit.plan .default) m ∧ m.current = 0 ∧
      m.offsetGuardSize = 0x80000000 ∧ m.mmap.len = 0x180000000 := by
  have hp := toTheLimit.plan_ok .default
  obtain ⟨m, hm⟩ := @new_granted host4K _ hp (by decide) (by decide) 0
  obtain ⟨-, -, hcurrent, -, hguard⟩ := new_ok hp hm
  exact ⟨m, .new hm, hcurrent, hguard, (inv_new hp hm).mapped.1⟩

/-- It grows by 65535 pages. -/
theorem grow_exact_toTheLimit :
    ∃ m, Run host4K (toTheLimit.plan .default) m ∧ MayGrow toTheLimit m 65535 ∧
      Grows host4K (granting 0) m 65535 := by
  obtain ⟨m, hrun, hcurrent, hguard, hlen⟩ := exists_run_toTheLimit
  have hmay : MayGrow toTheLimit m 65535 := by
    rw [MayGrow, hcurrent]
    refine ⟨fun max hmax => ?_, by decide⟩
    obtain rfl : 65536 = max := Option.some.inj hmax
    decide
  refine ⟨m, hrun, hmay, ((grow_exact_iff hrun).mpr ?_).mpr hmay⟩
  rintro ⟨-, -, hlimit | ⟨hzero, -⟩ | ⟨hbeyond, -⟩⟩
  · rw [hcurrent] at hlimit
    exact absurd hlimit (by decide)
  · rw [hguard] at hzero
    cases hzero
  · rw [hlen, hguard, newBytes, hcurrent] at hbeyond
    exact absurd hbeyond (by decide)

/-- A memory declared with 65536 pages never gets them. -/
theorem not_grows_toTheLimit :
    ¬ ∀ m, Run host4K (toTheLimit.plan .default) m → ∀ delta,
      (Grows host4K (granting 0) m delta ↔ MayGrow toTheLimit m delta) := by
  intro hall
  obtain ⟨m, hrun, hcur, -⟩ := exists_run_toTheLimit
  have hmay : MayGrow toTheLimit m 65536 := by
    rw [MayGrow, hcur]
    refine ⟨fun max hmax => ?_, le_rfl⟩
    obtain rfl : 65536 = max := Option.some.inj hmax
    exact le_rfl
  refine (grow_exact_iff hrun).mp (hall m hrun 65536) ⟨by decide, hmay, .inl ?_⟩
  rw [hcur]
  rfl

end Wasmtime.Runtime.LinearMemory
