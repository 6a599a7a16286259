import Wasmtime.Cache.Listing
import Wasmtime.Lib.LongestPrefix

/-!
# Cleaning up the cache

Model of the cleanup in `WorkerThread::handle_on_cache_update` (`wasmtime-environ/src/cache/worker.rs`), from the
listing of the cache directory to the entries that it removes.

* `sort_unstable_by` gives any order in which no entry is greater than a later one.
* `none` is a panic: an overflow of `checked_mul(..).unwrap()`, of the sum of the sizes or of the time.
* `removed` is what is passed to `remove_file` and `remove_dir_all`.

`Policy` is the policy: everything unrecognized goes; modules go only when a soft limit is exceeded, and then those
stay that are the longest prefix within the percentages, in the order of their last use, where files from the far
future come last.

Results: `removed_policy`, `mem_removed_iff`, `cleanup_policy`.
-/

namespace Wasmtime.Cache

open LongestPrefix

/-! ## The code -/

/-- The closure of `sort_unstable_by`. -/
def cmp (futureTolerance : Int) : CacheEntry → CacheEntry → Ordering
  | .recognized _ lhs _, .recognized _ rhs _ =>
    match decide (lhs > futureTolerance), decide (rhs > futureTolerance) with
    -- later == younger
    | false, false => compare rhs lhs
    -- files from far future are treated as oldest recognized files
    | true, false => .gt
    | false, true => .lt
    | true, true => .eq
  -- unrecognized is kind of infinity
  | .recognized _ _ _, .unrecognized _ _ => .lt
  | .unrecognized _ _, .recognized _ _ _ => .gt
  | .unrecognized _ _, .unrecognized _ _ => .eq

/-- What `sort_unstable_by` may leave. -/
structure Sorted (futureTolerance : Int) (cacheIndex order : List CacheEntry) : Prop where
  perm : order.Perm cacheIndex
  sorted : order.Pairwise fun lhs rhs => cmp futureTolerance lhs rhs ≠ .gt

/-- `SystemTime::now().checked_add(..)`. -/
def futureTolerance (c : CacheConfig) (now : Int) : Option Int :=
  if now + c.allowedClockDriftForFilesFromFuture < 2 ^ 63 * 10 ^ 9 then
    some (now + c.allowedClockDriftForFilesFromFuture)
  else none

/-- `limit.checked_mul(percent as u64).unwrap() / 100`. -/
def ifDeleting (limit : UInt64) (percent : UInt8) : Option Nat :=
  if limit.toNat * percent.toNat < 2 ^ 64 then some (limit.toNat * percent.toNat / 100) else none

/-- The limits of the loop. -/
structure Limits where
  totalSizeLimit : Nat
  fileCountLimit : Nat
  tslIfDeleting : Nat
  fclIfDeleting : Nat

/-- The limits of a configuration. -/
def limits (c : CacheConfig) : Option Limits :=
  (ifDeleting c.filesTotalSizeSoftLimit c.filesTotalSizeLimitPercentIfDeleting).bind fun tslIfDeleting =>
    (ifDeleting c.fileCountSoftLimit c.fileCountLimitPercentIfDeleting).map fun fclIfDeleting =>
      ⟨c.filesTotalSizeSoftLimit.toNat, c.fileCountSoftLimit.toNat, tslIfDeleting, fclIfDeleting⟩

/-- The loop that looks for `start_delete_idx`. -/
def scan (lim : Limits) : Nat → Nat → Option Nat → List CacheEntry → Option (Option Nat)
  | _, _, _, [] => some none
  | idx, _, _, .unrecognized _ _ :: _ => some (some idx)
  | idx, totalSize, ifDeletingRecognized, .recognized _ _ size :: rest =>
    if 2 ^ 64 ≤ totalSize + size.toNat then none
    else
      let totalSize := totalSize + size.toNat
      let ifDeletingRecognized :=
        if ifDeletingRecognized.isNone ∧ (totalSize > lim.tslIfDeleting ∨ idx + 1 > lim.fclIfDeleting) then
          some idx
        else ifDeletingRecognized
      if totalSize > lim.totalSizeLimit ∨ idx + 1 > lim.fileCountLimit then some ifDeletingRecognized
      else scan lim (idx + 1) totalSize ifDeletingRecognized rest

/-- `&cache_index[idx..]`, if there is an index. -/
def deleteFrom (order : List CacheEntry) : Option Nat → List CacheEntry
  | some idx => order.drop idx
  | none => []

/-- What is removed, in the order of the sorted index. -/
def removed (c : CacheConfig) (order : List CacheEntry) : Option (List CacheEntry) :=
  (limits c).bind fun lim => (scan lim 0 0 none order).map (deleteFrom order)

/-- A cleanup of a directory at a time removes `gone`. -/
def Cleaned (c : CacheConfig) (clock : Path → Int) (now : Int) (directory : Node)
    (gone : List CacheEntry) : Prop :=
  ∃ tolerance order, futureTolerance c now = some tolerance ∧
    Sorted tolerance (listCacheContents c clock directory) order ∧ removed c order = some gone

/-! ## The policy -/

namespace CacheEntry

/-- A module. -/
def isRecognized : CacheEntry → Bool
  | recognized _ _ _ => true
  | unrecognized _ _ => false

/-- The size of a module. -/
def size : CacheEntry → Nat
  | recognized _ _ size => size.toNat
  | unrecognized _ _ => 0

/-- When a file was modified. -/
def mtime : CacheEntry → WithBot Int
  | recognized _ mtime _ => mtime
  | unrecognized _ _ => ⊥

/-- When a module was last used: never, if it comes from the far future. -/
def lastUse (tolerance : Int) : CacheEntry → WithBot Int
  | recognized _ mtime _ => if tolerance < mtime then ⊥ else mtime
  | unrecognized _ _ => ⊥

end CacheEntry

/-- The modules among entries. -/
def modules (l : List CacheEntry) : List CacheEntry := l.filter CacheEntry.isRecognized

/-- The size of modules. -/
def totalSize (l : List CacheEntry) : Nat := (l.map CacheEntry.size).sum

/-- At most so many modules, of at most so many bytes. -/
def Within (count size : Nat) (l : List CacheEntry) : Prop := l.length ≤ count ∧ totalSize l ≤ size

/-- Within the soft limits. -/
def WithinLimits (c : CacheConfig) : List CacheEntry → Prop :=
  Within c.fileCountSoftLimit.toNat c.filesTotalSizeSoftLimit.toNat

/-- Within the percentages of the soft limits. -/
def WithinPercent (c : CacheConfig) (l : List CacheEntry) : Prop :=
  100 * l.length ≤ c.fileCountSoftLimit.toNat * c.fileCountLimitPercentIfDeleting.toNat ∧
    100 * totalSize l ≤ c.filesTotalSizeSoftLimit.toNat * c.filesTotalSizeLimitPercentIfDeleting.toNat

/-- What a cleanup of `listing` is to remove. -/
structure Policy (c : CacheConfig) (tolerance : Int) (listing gone : List CacheEntry) : Prop where
  only : ∀ e ∈ gone, e ∈ listing
  unrecognized : ∀ e ∈ listing, e.isRecognized = false → e ∈ gone
  within : WithinLimits c (modules listing) → modules gone = []
  beyond : ¬ WithinLimits c (modules listing) → ∃ order n, order.Perm (modules listing) ∧
    (order.Pairwise fun x y => y.lastUse tolerance ≤ x.lastUse tolerance) ∧
      IsLongestPrefix (WithinPercent c) order n ∧ modules gone = order.drop n

/-- However directories are listed, a module that shares its key with no other one is removed or not. -/
def OrderFree (key : CacheEntry → WithBot Int) (c : CacheConfig) (clock : Path → Int) (now : Int)
    (directory : Node) : Prop :=
  ∀ directory', directory.Relisted directory' → ∀ gone gone', Cleaned c clock now directory gone →
    Cleaned c clock now directory' gone' →
      ∀ e, Alone key (modules (listCacheContents c clock directory)) e → (e ∈ gone ↔ e ∈ gone')

/-- The modules of a listing, the last used first. -/
structure ByLastUse (tolerance : Int) (listing order : List CacheEntry) : Prop where
  perm : order.Perm (modules listing)
  sorted : order.Pairwise fun x y => y.lastUse tolerance ≤ x.lastUse tolerance

/-- Nothing overflows: the products of the limits with the percentages, the time, and the sum of the sizes up to
the module that exceeds a limit. -/
structure NoOverflow (c : CacheConfig) (now : Int) (listing : List CacheEntry) : Prop where
  size : c.filesTotalSizeSoftLimit.toNat * c.filesTotalSizeLimitPercentIfDeleting.toNat < 2 ^ 64
  count : c.fileCountSoftLimit.toNat * c.fileCountLimitPercentIfDeleting.toNat < 2 ^ 64
  time : now + c.allowedClockDriftForFilesFromFuture < 2 ^ 63 * 10 ^ 9
  sum : ∀ order, ByLastUse (now + c.allowedClockDriftForFilesFromFuture) listing order →
    ∀ n, WithinLimits c (order.take n) → totalSize (order.take (n + 1)) < 2 ^ 64

/-! ## Sizes and budgets -/

section

variable {l l' : List CacheEntry} {count size count' size' : Nat}

theorem totalSize_append (l l' : List CacheEntry) : totalSize (l ++ l') = totalSize l + totalSize l' := by
  rw [totalSize, List.map_append, List.sum_append, totalSize, totalSize]

theorem within_prefixClosed (count size : Nat) : PrefixClosed (Within count size) := by
  rintro l l' ⟨hcount, hsize⟩
  rw [List.length_append] at hcount
  rw [totalSize_append] at hsize
  exact ⟨by omega, by omega⟩

theorem Within.mono (h : Within count size l) (hcount : count ≤ count') (hsize : size ≤ size') :
    Within count' size' l := ⟨h.1.trans hcount, h.2.trans hsize⟩

theorem within_perm (count size : Nat) (h : l.Perm l') : Within count size l ↔ Within count size l' := by
  rw [Within, Within, h.length_eq, totalSize, totalSize, (h.map _).sum_eq]

end

/-! ## The sorted index -/

section

variable {tolerance : Int} {cacheIndex order : List CacheEntry}

/-- Where an entry comes in the order: the last use of a module, and below all modules what is none. -/
def rank (tolerance : Int) : CacheEntry → WithBot (WithBot Int)
  | .recognized path mtime size => (CacheEntry.recognized path mtime size).lastUse tolerance
  | .unrecognized _ _ => ⊥

theorem cmp_iff {lhs rhs : CacheEntry} :
    cmp tolerance lhs rhs ≠ .gt ↔ rank tolerance rhs ≤ rank tolerance lhs := by
  cases lhs with
  | unrecognized _ _ =>
    cases rhs with
    | unrecognized _ _ => simp [cmp, rank]
    | recognized _ _ _ => simp [cmp, rank]
  | recognized _ lhs _ =>
    cases rhs with
    | unrecognized _ _ => simp [cmp, rank]
    | recognized _ rhs _ =>
      rw [rank, rank, WithBot.coe_le_coe, CacheEntry.lastUse, CacheEntry.lastUse]
      by_cases hl : tolerance < lhs
      · by_cases hr : tolerance < rhs <;> simp [cmp, hl, hr]
      · by_cases hr : tolerance < rhs
        · simp [cmp, hl, hr]
        · simp only [cmp, hl, hr, decide_false, if_false, WithBot.coe_le_coe]
          exact compare_le_iff_le

theorem exists_sorted (tolerance : Int) (cacheIndex : List CacheEntry) :
    ∃ order, Sorted tolerance cacheIndex order := by
  refine ⟨cacheIndex.mergeSort fun lhs rhs => rank tolerance rhs ≤ rank tolerance lhs,
    List.mergeSort_perm _ _, ?_⟩
  refine (List.pairwise_mergeSort ?_ ?_ _).imp fun h => cmp_iff.mpr (of_decide_eq_true h)
  · exact fun a b c hab hbc => decide_eq_true (le_trans (of_decide_eq_true hbc) (of_decide_eq_true hab))
  · intro a b
    rcases le_total (rank tolerance b) (rank tolerance a) with h | h
    · rw [decide_eq_true h, Bool.true_or]
    · rw [decide_eq_true h, Bool.or_true]

/-- Modules come first. -/
theorem Sorted.order_eq (h : Sorted tolerance cacheIndex order) :
    order = modules order ++ order.filter (! ·.isRecognized) := by
  have hsorted := h.sorted
  clear h
  induction order with
  | nil => rfl
  | cons e order ih =>
    obtain ⟨he, htail⟩ := List.pairwise_cons.mp hsorted
    cases e with
    | recognized path mtime size =>
      rw [modules, List.filter_cons_of_pos rfl, List.filter_cons_of_neg (by simp [CacheEntry.isRecognized]),
        List.cons_append, ← modules, ← ih htail]
    | unrecognized path isDir =>
      have hnone : modules order = [] := by
        refine List.filter_eq_nil_iff.mpr fun x hx hrec => he x hx ?_
        cases x with
        | recognized _ _ _ => rfl
        | unrecognized _ _ => cases hrec
      rw [modules, List.filter_cons_of_neg (by simp [CacheEntry.isRecognized]),
        List.filter_cons_of_pos (by simp [CacheEntry.isRecognized]), ← modules, hnone, List.nil_append]
      conv_lhs => rw [ih htail, hnone, List.nil_append]

theorem Sorted.modules_perm (h : Sorted tolerance cacheIndex order) :
    (modules order).Perm (modules cacheIndex) := h.perm.filter _

theorem Sorted.modules_sorted (h : Sorted tolerance cacheIndex order) :
    (modules order).Pairwise fun x y => y.lastUse tolerance ≤ x.lastUse tolerance := by
  refine (h.sorted.filter _).imp_of_mem fun {x y} hx hy hxy => ?_
  cases x with
  | unrecognized _ _ => cases (List.mem_filter.mp hx).2
  | recognized _ _ _ =>
    cases y with
    | unrecognized _ _ => cases (List.mem_filter.mp hy).2
    | recognized _ _ _ => exact WithBot.coe_le_coe.mp (cmp_iff.mp hxy)

end

/-! ## The loop -/

section

variable {lim : Limits} {done rest us : List CacheEntry} {d : Option Nat}

/-- What the loop knows of the place from which it would delete modules, after the modules `done`. -/
def Knows (lim : Limits) (done : List CacheEntry) : Option Nat → Prop
  | none => Within lim.fclIfDeleting lim.tslIfDeleting done
  | some i => i < done.length ∧ Within lim.fclIfDeleting lim.tslIfDeleting (done.take i) ∧
      ¬ Within lim.fclIfDeleting lim.tslIfDeleting (done.take (i + 1))

theorem Knows.isLongestPrefix {i : Nat} (h : Knows lim done (some i)) (rest : List CacheEntry) :
    IsLongestPrefix (Within lim.fclIfDeleting lim.tslIfDeleting) (done ++ rest) i := by
  obtain ⟨hlt, hholds, hstops⟩ := h
  refine ⟨?_, ?_, fun _ => ?_⟩
  · rw [List.length_append]
    omega
  · rwa [List.take_append_of_le_length (Nat.le_of_lt hlt)]
  · rwa [List.take_append_of_le_length hlt]

/-- What it knows after one more module. -/
theorem Knows.step (h : Knows lim done d) (e : CacheEntry) :
    Knows lim (done ++ [e]) (if d.isNone ∧ (totalSize done + e.size > lim.tslIfDeleting ∨
      done.length + 1 > lim.fclIfDeleting) then some done.length else d) := by
  have hwithin : Within lim.fclIfDeleting lim.tslIfDeleting (done ++ [e]) ↔
      ¬ (totalSize done + e.size > lim.tslIfDeleting ∨ done.length + 1 > lim.fclIfDeleting) := by
    have hsize : totalSize (done ++ [e]) = totalSize done + e.size := totalSize_append done [e]
    rw [Within, hsize, List.length_append, List.length_singleton]
    omega
  cases d with
  | none =>
    by_cases hover : totalSize done + e.size > lim.tslIfDeleting ∨ done.length + 1 > lim.fclIfDeleting
    · rw [if_pos ⟨rfl, hover⟩]
      refine ⟨by simp, by rwa [List.take_left], ?_⟩
      rw [List.take_of_length_le (by simp)]
      exact fun hin => hwithin.mp hin hover
    · rw [if_neg fun hif => hover hif.2]
      exact hwithin.mpr hover
  | some i =>
    rw [if_neg fun hif => by cases hif.1]
    obtain ⟨hlt, hholds, hstops⟩ := h
    refine ⟨?_, ?_, ?_⟩
    · rw [List.length_append]
      omega
    · rwa [List.take_append_of_le_length (Nat.le_of_lt hlt)]
    · rwa [List.take_append_of_le_length hlt]

/-- The loop, after the modules `done`, on the modules `rest` and then what is not recognized. -/
theorem scan_spec (hcount : lim.fclIfDeleting ≤ lim.fileCountLimit)
    (hsize : lim.tslIfDeleting ≤ lim.totalSizeLimit) (hrest : ∀ e ∈ rest, e.isRecognized = true)
    (hus : ∀ e ∈ us, e.isRecognized = false)
    (hsum : ∀ n, Within lim.fileCountLimit lim.totalSizeLimit (done ++ rest.take n) →
      totalSize (done ++ rest.take (n + 1)) < 2 ^ 64)
    (hdone : Within lim.fileCountLimit lim.totalSizeLimit done) (hknows : Knows lim done d) :
    ∃ r, scan lim done.length (totalSize done) d (rest ++ us) = some r ∧
      (Within lim.fileCountLimit lim.totalSizeLimit (done ++ rest) →
        r = if us = [] then none else some (done ++ rest).length) ∧
      (¬ Within lim.fileCountLimit lim.totalSizeLimit (done ++ rest) → ∃ n, r = some n ∧
        IsLongestPrefix (Within lim.fclIfDeleting lim.tslIfDeleting) (done ++ rest) n) := by
  induction rest generalizing done d with
  | nil =>
    rw [List.nil_append, List.append_nil]
    cases us with
    | nil => exact ⟨none, by rw [scan], fun _ => rfl, fun hnot => absurd hdone hnot⟩
    | cons u us =>
      cases u with
      | recognized _ _ _ => exact absurd (hus _ List.mem_cons_self) (by simp [CacheEntry.isRecognized])
      | unrecognized _ _ =>
        exact ⟨some done.length, by rw [scan], fun _ => rfl, fun hnot => absurd hdone hnot⟩
  | cons e rest ih =>
    cases e with
    | unrecognized _ _ => exact absurd (hrest _ List.mem_cons_self) (by simp [CacheEntry.isRecognized])
    | recognized path mtime size =>
      have hstep : Knows lim (done ++ [CacheEntry.recognized path mtime size])
          (if d.isNone ∧ (totalSize done + size.toNat > lim.tslIfDeleting ∨
            done.length + 1 > lim.fclIfDeleting) then some done.length else d) :=
        hknows.step (.recognized path mtime size)
      have htotal : totalSize (done ++ [CacheEntry.recognized path mtime size]) =
          totalSize done + size.toNat := totalSize_append done [_]
      have hassoc : done ++ CacheEntry.recognized path mtime size :: rest =
          (done ++ [CacheEntry.recognized path mtime size]) ++ rest := by
        rw [List.append_assoc, List.singleton_append]
      rw [hassoc]
      have hfits : ¬ 2 ^ 64 ≤ totalSize done + size.toNat := by
        have hfirst := hsum 0 (by rwa [List.take_zero, List.append_nil])
        rw [List.take_succ_cons, List.take_zero, htotal] at hfirst
        omega
      have hnext (n : Nat) : done ++ (CacheEntry.recognized path mtime size :: rest).take (n + 1) =
          (done ++ [CacheEntry.recognized path mtime size]) ++ rest.take n := by
        rw [List.take_succ_cons, List.append_assoc, List.singleton_append]
      have hexceeds : Within lim.fileCountLimit lim.totalSizeLimit
          (done ++ [CacheEntry.recognized path mtime size]) ↔
          ¬ (totalSize done + size.toNat > lim.totalSizeLimit ∨ done.length + 1 > lim.fileCountLimit) := by
        rw [Within, htotal, List.length_append, List.length_singleton]
        omega
      rw [List.cons_append, scan, if_neg hfits]
      by_cases hover : totalSize done + size.toNat > lim.totalSizeLimit ∨
          done.length + 1 > lim.fileCountLimit
      · simp only [if_pos hover]
        have hnot : ¬ Within lim.fileCountLimit lim.totalSizeLimit
            (done ++ [CacheEntry.recognized path mtime size]) := fun h => hexceeds.mp h hover
        refine ⟨_, rfl, fun h => absurd (within_prefixClosed _ _ _ _ h) hnot, fun _ => ?_⟩
        generalize (if d.isNone ∧ (totalSize done + size.toNat > lim.tslIfDeleting ∨
            done.length + 1 > lim.fclIfDeleting) then some done.length else d) = d' at hstep
        cases d' with
        | none => exact absurd (Within.mono hstep hcount hsize) hnot
        | some i => exact ⟨i, rfl, hstep.isLongestPrefix rest⟩
      · simp only [if_neg hover]
        have := ih (fun e he => hrest e (List.mem_cons_of_mem _ he)) (fun n hin => by
          rw [← hnext] at hin ⊢
          exact hsum (n + 1) hin) (hexceeds.mpr hover) hstep
        rwa [htotal, List.length_append, List.length_singleton] at this

end

/-! ## The cleanup -/

section

variable {c : CacheConfig} {clock : Path → Int} {now tolerance : Int} {directory : Node}
  {listing order gone : List CacheEntry} {e : CacheEntry}

theorem withinPercent_iff {l : List CacheEntry} : WithinPercent c l ↔
    Within (c.fileCountSoftLimit.toNat * c.fileCountLimitPercentIfDeleting.toNat / 100)
      (c.filesTotalSizeSoftLimit.toNat * c.filesTotalSizeLimitPercentIfDeleting.toNat / 100) l := by
  rw [WithinPercent, Within, Nat.le_div_iff_mul_le (by decide), Nat.le_div_iff_mul_le (by decide),
    Nat.mul_comm 100, Nat.mul_comm 100]

theorem withinPercent_prefixClosed (c : CacheConfig) : PrefixClosed (WithinPercent c) := fun l l' h =>
  withinPercent_iff.mpr (within_prefixClosed _ _ l l' (withinPercent_iff.mp h))

/-- The limits when nothing overflows. -/
def limitsOf (c : CacheConfig) : Limits where
  totalSizeLimit := c.filesTotalSizeSoftLimit.toNat
  fileCountLimit := c.fileCountSoftLimit.toNat
  tslIfDeleting := c.filesTotalSizeSoftLimit.toNat * c.filesTotalSizeLimitPercentIfDeleting.toNat / 100
  fclIfDeleting := c.fileCountSoftLimit.toNat * c.fileCountLimitPercentIfDeleting.toNat / 100

theorem limits_eq
    (hsize : c.filesTotalSizeSoftLimit.toNat * c.filesTotalSizeLimitPercentIfDeleting.toNat < 2 ^ 64)
    (hcount : c.fileCountSoftLimit.toNat * c.fileCountLimitPercentIfDeleting.toNat < 2 ^ 64) :
    limits c = some (limitsOf c) := by
  rw [limits, ifDeleting, if_pos hsize, Option.bind_some, ifDeleting, if_pos hcount, Option.map_some,
    limitsOf]

theorem Sorted.byLastUse (h : Sorted tolerance listing order) : ByLastUse tolerance listing (modules order) :=
  ⟨h.modules_perm, h.modules_sorted⟩

/-- The sum stays small when it does for all modules. -/
theorem sum_of_total (h : totalSize (modules listing) < 2 ^ 64) (horder : ByLastUse tolerance listing order)
    (n : Nat) : totalSize (order.take n) < 2 ^ 64 := by
  have htotal : totalSize order = totalSize (modules listing) := (horder.perm.map _).sum_eq
  have hsplit := totalSize_append (order.take n) (order.drop n)
  rw [List.take_append_drop] at hsplit
  omega

theorem percent_le {limit percent : Nat} (h : percent ≤ 100) : limit * percent / 100 ≤ limit :=
  Nat.div_le_of_le_mul (by rw [Nat.mul_comm 100]; exact Nat.mul_le_mul_left _ h)

/-- What is removed of a sorted index. -/
theorem removed_spec (h : NoOverflow c now listing)
    (hsorted : Sorted (now + c.allowedClockDriftForFilesFromFuture) listing order) :
    ∃ gone, removed c order = some gone ∧
      (WithinLimits c (modules order) → gone = order.filter (! ·.isRecognized)) ∧
      (¬ WithinLimits c (modules order) → ∃ n, IsLongestPrefix (WithinPercent c) (modules order) n ∧
        gone = (modules order).drop n ++ order.filter (! ·.isRecognized)) := by
  obtain ⟨r, hr, hwithin, hbeyond⟩ := @scan_spec (limitsOf c) [] (modules order)
    (order.filter (! ·.isRecognized)) none (percent_le c.fileCountLimitPercentIfDeleting_le)
    (percent_le c.filesTotalSizeLimitPercentIfDeleting_le) (fun e he => (List.mem_filter.mp he).2)
    (fun e he => by simpa using (List.mem_filter.mp he).2) (h.sum _ hsorted.byLastUse)
    ⟨Nat.zero_le _, Nat.zero_le _⟩
    ⟨Nat.zero_le _, Nat.zero_le _⟩
  rw [← hsorted.order_eq] at hr
  have hremoved : removed c order = some (deleteFrom order r) := by
    rw [removed, limits_eq h.size h.count, Option.bind_some]
    exact congrArg (Option.map (deleteFrom order)) hr
  refine ⟨_, hremoved, fun hin => ?_, fun hnot => ?_⟩
  · rw [hwithin hin, List.nil_append]
    split
    · next hnil =>
      rw [hnil]
      rfl
    · exact (congrArg (List.drop _) hsorted.order_eq).trans List.drop_left
  · obtain ⟨n, rfl, hlongest⟩ := hbeyond hnot
    have hlongest' : IsLongestPrefix (WithinPercent c) (modules order) n := by
      rw [funext fun l => propext (@withinPercent_iff c l)]
      exact hlongest
    refine ⟨n, hlongest', ?_⟩
    exact (congrArg (List.drop n) hsorted.order_eq).trans (List.drop_append_of_le_length hlongest'.le)

theorem modules_append (l l' : List CacheEntry) : modules (l ++ l') = modules l ++ modules l' :=
  List.filter_append ..

theorem modules_not_recognized (l : List CacheEntry) :
    modules (l.filter (! ·.isRecognized)) = [] := by
  rw [modules, List.filter_filter, List.filter_eq_nil_iff]
  simp

/-- What is removed follows the policy. -/
theorem removed_policy (h : NoOverflow c now listing)
    (hsorted : Sorted (now + c.allowedClockDriftForFilesFromFuture) listing order) :
    ∃ gone, removed c order = some gone ∧
      Policy c (now + c.allowedClockDriftForFilesFromFuture) listing gone := by
  obtain ⟨gone, hgone, hwithin, hbeyond⟩ := removed_spec h hsorted
  have hlimits : WithinLimits c (modules order) ↔ WithinLimits c (modules listing) :=
    within_perm _ _ hsorted.modules_perm
  have hmodules (n : Nat) : modules ((modules order).drop n) = (modules order).drop n :=
    List.filter_eq_self.mpr fun e he => (List.mem_filter.mp (List.mem_of_mem_drop he)).2
  refine ⟨gone, hgone, ?_, ?_, ?_, ?_⟩
  · intro e he
    refine hsorted.perm.mem_iff.mp ?_
    by_cases hin : WithinLimits c (modules order)
    · rw [hwithin hin] at he
      exact (List.mem_filter.mp he).1
    · obtain ⟨n, -, rfl⟩ := hbeyond hin
      rcases List.mem_append.mp he with he | he
      · exact (List.mem_filter.mp (List.mem_of_mem_drop he)).1
      · exact (List.mem_filter.mp he).1
  · intro e he hrec
    have hmem : e ∈ order.filter (! ·.isRecognized) :=
      List.mem_filter.mpr ⟨hsorted.perm.mem_iff.mpr he, by rw [hrec]; rfl⟩
    by_cases hin : WithinLimits c (modules order)
    · rwa [hwithin hin]
    · obtain ⟨n, -, rfl⟩ := hbeyond hin
      exact List.mem_append_right _ hmem
  · intro hin
    rw [hwithin (hlimits.mpr hin), modules_not_recognized]
  · intro hnot
    obtain ⟨n, hlongest, rfl⟩ := hbeyond fun hin => hnot (hlimits.mp hin)
    refine ⟨modules order, n, hsorted.modules_perm, hsorted.modules_sorted, hlongest, ?_⟩
    rw [modules_append, hmodules, modules_not_recognized, List.append_nil]

/-- Whether a module goes that shares its last use with no other, without the order. -/
theorem mem_removed_iff (h : NoOverflow c now listing)
    (htolerance : tolerance = now + c.allowedClockDriftForFilesFromFuture)
    (hsorted : Sorted tolerance listing order)
    (hgone : removed c order = some gone) (halone : Alone (CacheEntry.lastUse tolerance) (modules listing) e) :
    e ∈ gone ↔ ¬ WithinLimits c (modules listing) ∧ ¬ WithinPercent c
      ((modules listing).filter fun x => e.lastUse tolerance ≤ x.lastUse tolerance) := by
  obtain ⟨gone', hgone', hwithin, hbeyond⟩ := removed_spec h (htolerance ▸ hsorted)
  obtain rfl := Option.some.inj (hgone.symm.trans hgone')
  have hlimits : WithinLimits c (modules order) ↔ WithinLimits c (modules listing) :=
    within_perm _ _ hsorted.modules_perm
  have hnot : e ∉ order.filter (! ·.isRecognized) := fun he => by
    have hrec := (List.mem_filter.mp halone.1).2
    have := (List.mem_filter.mp he).2
    rw [hrec] at this
    cases this
  rw [← hlimits]
  by_cases hin : WithinLimits c (modules order)
  · rw [hwithin hin]
    exact iff_of_false hnot fun hgoes => hgoes.1 hin
  · obtain ⟨n, hlongest, rfl⟩ := hbeyond hin
    have halone' := halone.perm hsorted.modules_perm.symm
    rw [and_iff_right hin, List.mem_append, or_iff_left hnot, halone'.mem_drop_iff,
      hlongest.mem_take_iff (withinPercent_prefixClosed c) hsorted.modules_sorted halone', withinPercent_iff,
      withinPercent_iff, within_perm _ _ (hsorted.modules_perm.filter _)]

theorem orderFree_lastUse (h : NoOverflow c now (listCacheContents c clock directory))
    (htolerance : futureTolerance c now = some tolerance) :
    OrderFree (CacheEntry.lastUse tolerance) c clock now directory := by
  have hdrift : tolerance = now + c.allowedClockDriftForFilesFromFuture := by
    rw [futureTolerance, if_pos h.time] at htolerance
    exact (Option.some.inj htolerance).symm
  rintro directory' hrelisted gone gone' ⟨t, order, ht, hsorted, hgone⟩ ⟨t', order', ht', hsorted', hgone'⟩ e
    halone
  obtain rfl := Option.some.inj (ht.symm.trans htolerance)
  obtain rfl := Option.some.inj (ht'.symm.trans htolerance)
  have hsame : Sorted t' (listCacheContents c clock directory) order' :=
    ⟨hsorted'.perm.trans (list_perm hrelisted).symm, hsorted'.sorted⟩
  rw [mem_removed_iff h hdrift hsorted hgone halone, mem_removed_iff h hdrift hsame hgone' halone]

/-- **The cache cleanup policy.** A cleanup of any directory comes to its end, unless something overflows, and
whatever sort and listing are, it removes everything unrecognized; no module, when they are within the soft
limits; else all but the longest prefix within the percentages, from the last used to those of the far future;
and whether a module that shares its last use with no other goes does not depend on the listing. -/
theorem cleanup_policy (h : NoOverflow c now (listCacheContents c clock directory)) :
    ∃ tolerance, futureTolerance c now = some tolerance ∧
      (∃ order, Sorted tolerance (listCacheContents c clock directory) order) ∧
      (∀ order, Sorted tolerance (listCacheContents c clock directory) order →
        ∃ gone, removed c order = some gone ∧
          Policy c tolerance (listCacheContents c clock directory) gone) ∧
      OrderFree (CacheEntry.lastUse tolerance) c clock now directory := by
  have htolerance : futureTolerance c now = some (now + c.allowedClockDriftForFilesFromFuture) :=
    if_pos h.time
  exact ⟨_, htolerance, exists_sorted _ _, fun order hsorted => removed_policy h hsorted,
    orderFree_lastUse h htolerance⟩

end

/-! ## Files from the far future -/

theorem percent_hundred : (100 : UInt8).toNat ≤ 100 := Nat.le_refl _

/-- At most one file of any size, and no clock drift. -/
def oneFile : CacheConfig where
  cleanupInterval := 0
  optimizingCompressionTaskTimeout := 0
  allowedClockDriftForFilesFromFuture := 0
  fileCountSoftLimit := 1
  filesTotalSizeSoftLimit := 1000
  fileCountLimitPercentIfDeleting := 100
  filesTotalSizeLimitPercentIfDeleting := 100
  fileCountLimitPercentIfDeleting_le := percent_hundred
  filesTotalSizeLimitPercentIfDeleting_le := percent_hundred

theorem nodup_twoFiles : [([97] : Name), [98]].Nodup := by decide

/-- Two modules, of one and two nanoseconds from now. -/
def twoFiles : Node :=
  .dir [[120]] (List.nodup_singleton _) fun _ => .dir [[121]] (List.nodup_singleton _) fun _ =>
    .dir [[97], [98]] nodup_twoFiles fun name => .file (some ⟨some (if name = [97] then 1 else 2), 1⟩)

theorem list_twoFiles (clock : Path → Int) : listCacheContents oneFile clock twoFiles =
    [.recognized [[120], [121], [97]] 1 1, .recognized [[120], [121], [98]] 2 1] := rfl

theorem noOverflow_twoFiles :
    NoOverflow oneFile 0 (listCacheContents oneFile (fun _ => 0) twoFiles) :=
  ⟨by decide, by decide, by decide, fun _ horder n _ => sum_of_total (by decide) horder (n + 1)⟩

theorem cleanup_twoFiles : ∃ tolerance, futureTolerance oneFile 0 = some tolerance ∧
    (∃ order, Sorted tolerance (listCacheContents oneFile (fun _ => 0) twoFiles) order) ∧
    (∀ order, Sorted tolerance (listCacheContents oneFile (fun _ => 0) twoFiles) order →
      ∃ gone, removed oneFile order = some gone ∧
        Policy oneFile tolerance (listCacheContents oneFile (fun _ => 0) twoFiles) gone) ∧
    OrderFree (CacheEntry.lastUse tolerance) oneFile (fun _ => 0) 0 twoFiles :=
  cleanup_policy noOverflow_twoFiles

theorem nodup_twoFilesSwapped : [([98] : Name), [97]].Nodup := by decide

/-- `twoFiles`, the other way round. -/
def twoFilesSwapped : Node :=
  .dir [[120]] (List.nodup_singleton _) fun _ => .dir [[121]] (List.nodup_singleton _) fun _ =>
    .dir [[98], [97]] nodup_twoFilesSwapped fun name =>
      .file (some ⟨some (if name = [97] then 1 else 2), 1⟩)

theorem list_twoFilesSwapped (clock : Path → Int) : listCacheContents oneFile clock twoFilesSwapped =
    [.recognized [[120], [121], [98]] 2 1, .recognized [[120], [121], [97]] 1 1] := rfl

/-- Among files from the far future the listing decides, though their times differ. -/
theorem not_orderFree_mtime : ¬ OrderFree CacheEntry.mtime oneFile (fun _ => 0) 0 twoFiles := by
  intro h
  have hrelisted : twoFiles.Relisted twoFilesSwapped :=
    .dir (.refl _) fun _ => .dir (.refl _) fun _ => .dir (.swap _ _ _) fun _ => .file _
  have hsorted : Sorted 0 (listCacheContents oneFile (fun _ => 0) twoFiles)
      [.recognized [[120], [121], [97]] 1 1, .recognized [[120], [121], [98]] 2 1] :=
    ⟨.of_eq (list_twoFiles _).symm, by simp [cmp]⟩
  have hsorted' : Sorted 0 (listCacheContents oneFile (fun _ => 0) twoFilesSwapped)
      [.recognized [[120], [121], [98]] 2 1, .recognized [[120], [121], [97]] 1 1] :=
    ⟨.of_eq (list_twoFilesSwapped _).symm, by simp [cmp]⟩
  have halone : Alone CacheEntry.mtime (modules (listCacheContents oneFile (fun _ => 0) twoFiles))
      (.recognized [[120], [121], [97]] 1 1) := by
    rw [list_twoFiles]
    exact ⟨List.mem_cons_self, rfl⟩
  have htolerance : futureTolerance oneFile 0 = some 0 := by decide
  have hgone : removed oneFile [.recognized [[120], [121], [97]] 1 1, .recognized [[120], [121], [98]] 2 1] =
      some [.recognized [[120], [121], [98]] 2 1] := by decide
  have hgone' : removed oneFile [.recognized [[120], [121], [98]] 2 1, .recognized [[120], [121], [97]] 1 1] =
      some [.recognized [[120], [121], [97]] 1 1] := by decide
  have := h _ hrelisted _ _ ⟨0, _, htolerance, hsorted, hgone⟩ ⟨0, _, htolerance, hsorted', hgone'⟩ _ halone
  exact absurd (this.mpr List.mem_cons_self) (by decide)

end Wasmtime.Cache
