import Mathlib
import Wasmtime.Cache.Config
import Wasmtime.Lib.Fallible

/-!
# The cache worker

Model of `WorkerThread::run` with the cleanup of `handle_on_cache_update` (`wasmtime-environ/src/cache/worker.rs`),
for a configuration that `CacheConfig::from_file` accepts.

* What the file system and the clock answer to an event is any, and comes with the event.
* `overflowChecks` is whether `+=` panics on an overflow, as in a debug build, or wraps. `checked_mul(..).unwrap()`
  and `checked_add(..).expect(..)` panic in every build.
* The counters `idx + 1` are of a `Vec`, so they never overflow.

The checks of the configuration bound the percentages, but neither the limits nor the drift, so the products with
the percentages and the deadline may overflow.

Results: `scan_eq_none_iff` (when the sum of the sizes overflows), `cleanUp_overflow_iff`, `handle_overflow_iff`,
and the headline `worker_fits_iff`.
-/

namespace Wasmtime.Cache

open FromFile (Section Host ConfigFile Config fromFile newCacheEnabledTemplate)

/-! ## The cleanup -/

/-- `sort_unstable_by`. -/
structure SortUnstable where
  run : Int → List CacheEntry → List CacheEntry
  sorted : ∀ futureTolerance cacheIndex, Sorted futureTolerance cacheIndex (run futureTolerance cacheIndex)

/-- `total_size += size`. -/
def addSize (overflowChecks : Bool) (totalSize : Nat) (size : UInt64) : Option Nat :=
  if totalSize + size.toNat < 2 ^ 64 then some (totalSize + size.toNat)
  else if overflowChecks then none
  else some ((totalSize + size.toNat) % 2 ^ 64)

/-- The loop that looks for `start_delete_idx`, in any build. -/
def scanIn (overflowChecks : Bool) (lim : Limits) :
    Nat → Nat → Option Nat → List CacheEntry → Option (Option Nat)
  | _, _, _, [] => some none
  | idx, _, _, .unrecognized _ _ :: _ => some (some idx)
  | idx, totalSize, ifDeletingRecognized, .recognized _ _ size :: rest =>
    (addSize overflowChecks totalSize size).bind fun totalSize =>
      let ifDeletingRecognized :=
        if ifDeletingRecognized.isNone ∧ (totalSize > lim.tslIfDeleting ∨ idx + 1 > lim.fclIfDeleting) then
          some idx
        else ifDeletingRecognized
      if totalSize > lim.totalSizeLimit ∨ idx + 1 > lim.fileCountLimit then some ifDeletingRecognized
      else scanIn overflowChecks lim (idx + 1) totalSize ifDeletingRecognized rest

section

variable (overflowChecks : Bool) (c : CacheConfig) (sort : SortUnstable) (clock : Path → Int)
  (directory : Node) (now : Int)

/-- The cleanup, once the task has its lock: what it removes; `none` is a panic. -/
def cleanUp : Option (List CacheEntry) :=
  (futureTolerance c now).bind fun futureTolerance =>
    let cacheIndex := sort.run futureTolerance (listCacheContents c clock directory)
    (limits c).bind fun lim => (scanIn overflowChecks lim 0 0 none cacheIndex).map (deleteFrom cacheIndex)

/-- The modules of the cache as the cleanup sorts them, the last used first. -/
def byLastUse : List CacheEntry :=
  modules (sort.run (now + c.allowedClockDriftForFilesFromFuture) (listCacheContents c clock directory))

/-- No number of a cleanup is too large; `sum` is of the sizes of the modules up to the one that exceeds a limit. -/
structure CleanupFits : Prop where
  time : now + c.allowedClockDriftForFilesFromFuture < 2 ^ 63 * 10 ^ 9
  size : c.filesTotalSizeSoftLimit.toNat * c.filesTotalSizeLimitPercentIfDeleting.toNat < 2 ^ 64
  count : c.fileCountSoftLimit.toNat * c.fileCountLimitPercentIfDeleting.toNat < 2 ^ 64
  sum : overflowChecks = true → ∀ n, WithinLimits c ((byLastUse c sort clock directory now).take n) →
    totalSize ((byLastUse c sort clock directory now).take (n + 1)) < 2 ^ 64

end

/-! ## The events -/

/-- `CacheEvent`, with what the file system and the clock answer. -/
inductive CacheEvent where
  | onCacheGet (path : Path) (answers : GetAnswers)
  | onCacheUpdate (path : Path) (answers : LockAnswers) (clock : Path → Int) (directory : Node) (now : Int)

section

variable (overflowChecks : Bool) (c : WorkerConfig) (sort : SortUnstable)

/-- What an event does to the file system, and what its cleanup removes. -/
def handle : CacheEvent → Except Panic (List FileOp × List CacheEntry)
  | .onCacheGet path answers => (handleOnCacheGet overflowChecks c path answers).map fun ops => (ops, [])
  | .onCacheUpdate path answers clock directory now =>
    (handleOnCacheUpdate overflowChecks c path answers).bind fun r =>
      if r.2 then
        match cleanUp overflowChecks c.cleanup sort clock directory now with
        | some gone => .ok ([r.1], gone)
        | none => .error .overflow
      else .ok ([r.1], [])

/-- `WorkerThread::run`, of the events that are received; a panic ends the thread. -/
def runWorker (events : List CacheEvent) : Except Panic (List (List FileOp × List CacheEntry)) :=
  events.mapM (handle overflowChecks c sort)

/-- An update goes on to a cleanup: the path has a name that is text, and the task gets its lock. -/
def CleansUp (path : Path) (answers : LockAnswers) : Prop :=
  ((fileName path).bind toStr).isSome ∧ (lockPath (join c.directory ".cleanup") c.cleanup.cleanupInterval
    c.cleanup.allowedClockDriftForFilesFromFuture answers).isSome

/-- The cleanup of an event fits, if there is one. -/
def CacheEvent.Fits : CacheEvent → Prop
  | onCacheGet _ _ => True
  | onCacheUpdate path answers clock directory now =>
    CleansUp c path answers → CleanupFits overflowChecks c.cleanup sort clock directory now

end

/-! ## The sum of the sizes -/

section

variable {lim : Limits} {done rest us : List CacheEntry} {d : Option Nat}

theorem addSize_true (totalSize : Nat) (size : UInt64) : addSize true totalSize size =
    if 2 ^ 64 ≤ totalSize + size.toNat then none else some (totalSize + size.toNat) := by
  unfold addSize
  by_cases hfits : totalSize + size.toNat < 2 ^ 64
  · rw [if_pos hfits, if_neg (Nat.not_le.mpr hfits)]
  · rw [if_neg hfits, if_pos rfl, if_pos (Nat.not_lt.mp hfits)]

/-- With overflow checks it is the loop of the policy. -/
theorem scanIn_true (lim : Limits) (idx total : Nat) (d : Option Nat) (l : List CacheEntry) :
    scanIn true lim idx total d l = scan lim idx total d l := by
  induction l generalizing idx total d with
  | nil => rfl
  | cons e l ih =>
    cases e with
    | unrecognized _ _ => rfl
    | recognized _ _ size =>
      rw [scanIn, scan, addSize_true]
      split
      · rfl
      · simp only [Option.bind_some, ih]

/-- Without them it never panics. -/
theorem scanIn_false (lim : Limits) (idx total : Nat) (d : Option Nat) (l : List CacheEntry) :
    scanIn false lim idx total d l ≠ none := by
  induction l generalizing idx total d with
  | nil => simp [scanIn]
  | cons e l ih =>
    cases e with
    | unrecognized _ _ => simp [scanIn]
    | recognized _ _ size =>
      obtain ⟨total', htotal⟩ : ∃ total', addSize false total size = some total' := by
        unfold addSize
        split
        · exact ⟨_, rfl⟩
        · exact ⟨_, rfl⟩
      rw [scanIn, htotal, Option.bind_some]
      by_cases hover : total' > lim.totalSizeLimit ∨ idx + 1 > lim.fileCountLimit
      · simp only [if_pos hover]
        exact Option.some_ne_none _
      · simp only [if_neg hover]
        exact ih _ _ _

/-- The loop, after the modules `done`, on the modules `rest` and then what is not recognized: the sum overflows
at a module that comes after others within the limits. -/
theorem scan_eq_none_iff (hlim : lim.totalSizeLimit < 2 ^ 64) (hrest : ∀ e ∈ rest, e.isRecognized = true)
    (hus : ∀ e ∈ us, e.isRecognized = false) (hdone : Within lim.fileCountLimit lim.totalSizeLimit done) :
    scan lim done.length (totalSize done) d (rest ++ us) = none ↔
      ∃ n, Within lim.fileCountLimit lim.totalSizeLimit (done ++ rest.take n) ∧
        2 ^ 64 ≤ totalSize (done ++ rest.take (n + 1)) := by
  induction rest generalizing done d with
  | nil =>
    have hsome : scan lim done.length (totalSize done) d ([] ++ us) ≠ none := by
      cases us with
      | nil => simp [scan]
      | cons u us =>
        cases u with
        | recognized _ _ _ => exact absurd (hus _ List.mem_cons_self) (by simp [CacheEntry.isRecognized])
        | unrecognized _ _ => simp [scan]
    refine iff_of_false hsome ?_
    rintro ⟨n, -, hsum⟩
    rw [List.take_nil, List.append_nil] at hsum
    exact absurd (hdone.2.trans_lt hlim) (Nat.not_lt.mpr hsum)
  | cons e rest ih =>
    cases e with
    | unrecognized _ _ => exact absurd (hrest _ List.mem_cons_self) (by simp [CacheEntry.isRecognized])
    | recognized path mtime size =>
      obtain ⟨e, he⟩ : ∃ e, e = CacheEntry.recognized path mtime size := ⟨_, rfl⟩
      have htotal : totalSize (done ++ [e]) = totalSize done + size.toNat := by
        rw [he]
        exact totalSize_append done [_]
      have htake (n : Nat) : done ++ (e :: rest).take (n + 1) = (done ++ [e]) ++ rest.take n := by
        rw [List.take_succ_cons, List.append_assoc, List.singleton_append]
      rw [← he, List.cons_append, he, scan, ← he]
      by_cases hfits : 2 ^ 64 ≤ totalSize done + size.toNat
      · rw [if_pos hfits]
        refine iff_of_true rfl ⟨0, ?_, ?_⟩
        · rwa [List.take_zero, List.append_nil]
        · rwa [htake, List.take_zero, List.append_nil, htotal]
      rw [if_neg hfits]
      have hexceeds : Within lim.fileCountLimit lim.totalSizeLimit (done ++ [e]) ↔
          ¬ (totalSize done + size.toNat > lim.totalSizeLimit ∨ done.length + 1 > lim.fileCountLimit) := by
        rw [Within, htotal, List.length_append, List.length_singleton]
        omega
      have hfirst : ¬ 2 ^ 64 ≤ totalSize (done ++ (e :: rest).take (0 + 1)) := by
        rwa [htake, List.take_zero, List.append_nil, htotal]
      by_cases hover : totalSize done + size.toNat > lim.totalSizeLimit ∨
          done.length + 1 > lim.fileCountLimit
      · simp only [if_pos hover]
        refine iff_of_false (by simp) ?_
        rintro ⟨n, hwithin, hsum⟩
        cases n with
        | zero => exact hfirst hsum
        | succ n =>
          rw [htake] at hwithin
          exact hexceeds.mp (within_prefixClosed _ _ _ _ hwithin) hover
      · simp only [if_neg hover]
        have hih := @ih (done ++ [e]) (if d.isNone ∧ (totalSize done + size.toNat > lim.tslIfDeleting ∨
          done.length + 1 > lim.fclIfDeleting) then some done.length else d)
          (fun x hx => hrest x (List.mem_cons_of_mem _ hx)) (hexceeds.mpr hover)
        rw [htotal, List.length_append, List.length_singleton] at hih
        rw [hih]
        constructor
        · rintro ⟨n, hwithin, hsum⟩
          exact ⟨n + 1, by rwa [htake], by rwa [htake]⟩
        · rintro ⟨n, hwithin, hsum⟩
          cases n with
          | zero => exact absurd hsum hfirst
          | succ n =>
            rw [htake] at hwithin hsum
            exact ⟨n, hwithin, hsum⟩

end

/-! ## What overflows -/

section

variable {overflowChecks : Bool} {sort : SortUnstable}

theorem ifDeleting_eq_none {limit : UInt64} {percent : UInt8} (h : ¬ limit.toNat * percent.toNat < 2 ^ 64) :
    ifDeleting limit percent = none := by
  rw [ifDeleting, if_neg h]

/-- A cleanup panics when a number is too large. -/
theorem cleanUp_overflow_iff (c : CacheConfig) (clock : Path → Int) (directory : Node) (now : Int) :
    cleanUp overflowChecks c sort clock directory now = none ↔
      ¬ CleanupFits overflowChecks c sort clock directory now := by
  by_cases htime : now + c.allowedClockDriftForFilesFromFuture < 2 ^ 63 * 10 ^ 9
  swap
  · refine iff_of_true ?_ fun hfits => htime hfits.time
    rw [cleanUp, futureTolerance, if_neg htime, Option.bind_none]
  rw [cleanUp, futureTolerance, if_pos htime, Option.bind_some]
  by_cases hsize : c.filesTotalSizeSoftLimit.toNat * c.filesTotalSizeLimitPercentIfDeleting.toNat < 2 ^ 64
  swap
  · refine iff_of_true ?_ fun hfits => hsize hfits.size
    rw [limits, ifDeleting_eq_none hsize, Option.bind_none, Option.bind_none]
  by_cases hcount : c.fileCountSoftLimit.toNat * c.fileCountLimitPercentIfDeleting.toNat < 2 ^ 64
  swap
  · refine iff_of_true ?_ fun hfits => hcount hfits.count
    rw [limits, ifDeleting, if_pos hsize, Option.bind_some, ifDeleting_eq_none hcount, Option.map_none,
      Option.bind_none]
  obtain ⟨cacheIndex, hindex⟩ : ∃ cacheIndex, cacheIndex =
    sort.run (now + c.allowedClockDriftForFilesFromFuture) (listCacheContents c clock directory) := ⟨_, rfl⟩
  have hlimits : limits c = some (limitsOf c) := limits_eq hsize hcount
  have horder : byLastUse c sort clock directory now = modules cacheIndex := by rw [byLastUse, hindex]
  have hfits : CleanupFits overflowChecks c sort clock directory now ↔ (overflowChecks = true →
      ∀ n, WithinLimits c ((modules cacheIndex).take n) →
        totalSize ((modules cacheIndex).take (n + 1)) < 2 ^ 64) := by
    rw [← horder]
    exact ⟨fun hfits => hfits.sum, fun hsum => ⟨htime, hsize, hcount, hsum⟩⟩
  rw [← hindex, hlimits, Option.bind_some, Option.map_eq_none_iff, hfits]
  cases overflowChecks with
  | false => exact iff_of_false (scanIn_false _ _ _ _ _) (not_not_intro fun hchecks => by cases hchecks)
  | true =>
    have hsorted : Sorted (now + c.allowedClockDriftForFilesFromFuture) (listCacheContents c clock directory)
        cacheIndex := by
      rw [hindex]
      exact sort.sorted _ _
    have hscan := @scan_eq_none_iff (limitsOf c) [] (modules cacheIndex)
      (cacheIndex.filter (! ·.isRecognized)) none c.filesTotalSizeSoftLimit.toNat_lt
      (fun e he => (List.mem_filter.mp he).2) (fun e he => by simpa using (List.mem_filter.mp he).2)
      ⟨Nat.zero_le _, Nat.zero_le _⟩
    rw [← hsorted.order_eq] at hscan
    rw [scanIn_true, forall_prop_of_true rfl, not_forall]
    refine hscan.trans (exists_congr fun n => ?_)
    rw [Classical.not_imp, Nat.not_lt]
    exact Iff.rfl

theorem statsPath_error {path : Path} {e : Panic} (h : statsPath path = .error e) : e = .name := by
  unfold statsPath at h
  split at h
  · cases h
  · exact (Except.error.inj h).symm

theorem acquireTaskFsLock_error {path : Path} {timeout drift : Nat} {answers : LockAnswers} {e : Panic}
    (h : acquireTaskFsLock path timeout drift answers = .error e) : e = .assertion := by
  unfold acquireTaskFsLock at h
  split at h
  · exact (Except.error.inj h).symm
  · cases h

/-- A get never overflows. -/
theorem handleOnCacheGet_fits (c : WorkerConfig) (path : Path) (answers : GetAnswers) :
    handleOnCacheGet overflowChecks c path answers ≠ .error .overflow := by
  obtain ⟨stats, hstats⟩ := use_answers overflowChecks c answers
  unfold handleOnCacheGet
  rw [hstats]
  cases hpath : statsPath path with
  | error e =>
    rw [statsPath_error hpath]
    exact fun h => by cases h
  | ok p =>
    simp only [bind, Except.bind, pure, Except.pure]
    split
    · exact fun h => by cases h
    · cases hlock : acquireTaskFsLock path c.cleanup.optimizingCompressionTaskTimeout
        c.cleanup.allowedClockDriftForFilesFromFuture answers.lock with
      | error e =>
        rw [acquireTaskFsLock_error hlock]
        exact fun h => by cases h
      | ok lock => exact fun h => by cases h

/-- An update does not overflow before its cleanup. -/
theorem handleOnCacheUpdate_eq (overflowChecks : Bool) (c : WorkerConfig) (path : Path)
    (answers : LockAnswers) : (handleOnCacheUpdate overflowChecks c path answers = .error .name ∧
      ¬ CleansUp c path answers) ∨ ∃ op cleansUp, (cleansUp = true ↔ CleansUp c path answers) ∧
        handleOnCacheUpdate overflowChecks c path answers = .ok (op, cleansUp) := by
  unfold handleOnCacheUpdate CleansUp
  rw [use_default, acquire_cleanup]
  cases hname : (fileName path).bind toStr with
  | none =>
    refine .inl ⟨?_, fun hcleans => by cases hcleans.1⟩
    rw [statsPath, hname]
    rfl
  | some name =>
    refine .inr ⟨.writeStats (withFileName path (name ++ ".stats")) { Statistics.default c with usages := 1 },
      _, (and_iff_right rfl).symm, ?_⟩
    rw [statsPath, hname]
    rfl

/-- An event overflows when the numbers of its cleanup are too large. -/
theorem handle_overflow_iff (c : WorkerConfig) (e : CacheEvent) :
    handle overflowChecks c sort e = .error .overflow ↔ ¬ e.Fits overflowChecks c sort := by
  cases e with
  | onCacheGet path answers =>
    refine iff_of_false ?_ (not_not_intro trivial)
    intro h
    cases hget : handleOnCacheGet overflowChecks c path answers with
    | ok ops =>
      rw [handle, hget] at h
      cases h
    | error e =>
      rw [handle, hget] at h
      exact handleOnCacheGet_fits c path answers (hget.trans (congrArg _ (Except.error.inj h)))
  | onCacheUpdate path answers clock directory now =>
    rw [handle, CacheEvent.Fits, Classical.not_imp, ← cleanUp_overflow_iff]
    rcases handleOnCacheUpdate_eq overflowChecks c path answers with ⟨hname, hnot⟩ | ⟨op, cleansUp, hiff, hok⟩
    · rw [hname]
      exact iff_of_false (fun h => by cases h) fun h => hnot h.1
    · rw [hok, ← hiff]
      cases cleansUp with
      | false => exact iff_of_false (fun h => by cases h) fun h => by cases h.1
      | true =>
        rw [and_iff_right rfl]
        cases hclean : cleanUp overflowChecks c.cleanup sort clock directory now with
        | none => exact iff_of_true (by simp [Except.bind]) rfl
        | some gone => exact iff_of_false (by simp [Except.bind]) fun h => by cases h

end

/-! ## The worker -/

/-- **When the worker's arithmetic panics, under a configuration that is accepted.** The configuration has all
that the worker reads, and no event overflows if and only if the numbers of the cleanup fit, of every update
that the worker comes to and that goes on to a cleanup. -/
theorem worker_fits_iff {Text : Type} {overflowChecks : Bool} {classes : Settings.CharClasses}
    {toml : Text → Except String Section} {h : Host} {enabled : Bool}
    {file : ConfigFile Text} {config : Config}
    (hfile : fromFile overflowChecks classes toml h enabled file = some config)
    (herrors : config.errors = []) (henabled : config.enabled = true) :
    ∃ c, config.workerConfig = some c ∧ ∀ sort events,
      (runWorker overflowChecks c sort events ≠ .error .overflow ↔
        ∀ pre e, pre ++ [e] <+: events → (∃ done, runWorker overflowChecks c sort pre = .ok done) →
          e.Fits overflowChecks c sort) := by
  obtain ⟨c, hc⟩ := FromFile.workerConfig_of_accepted hfile herrors henabled
  refine ⟨c, hc, fun sort events => ?_⟩
  rw [ne_eq, runWorker, Fallible.mapM_eq_error]
  constructor
  · intro hnone pre e hpre hdone
    by_contra hnot
    exact hnone ⟨pre, e, hpre, hdone, (handle_overflow_iff c e).mpr hnot⟩
  · rintro hfits ⟨pre, e, hpre, hdone, hover⟩
    exact (handle_overflow_iff c e).mp hover (hfits pre e hpre hdone)

/-- A host on which every directory can be created. -/
def plainHost : Host where
  defaultCompressionLevel := 3
  cacheDir := some "/c"
  createDirAll _ := .ok ()
  canonicalize path := .ok path

/-- The defaults, but for the limit on the number of files. -/
def defaultsWith (fileCountSoftLimit : UInt64) : Config :=
  { newCacheEnabledTemplate with
    directory := some "/c"
    workerEventQueueSize := some 16
    baselineCompressionLevel := some 3
    optimizedCompressionLevel := some 20
    optimizedCompressionUsageCounterThreshold := some 256
    cleanupInterval := some 3600
    optimizingCompressionTaskTimeout := some 1800
    allowedClockDriftForFilesFromFuture := some 86400
    fileCountSoftLimit := some fileCountSoftLimit
    filesTotalSizeSoftLimit := some 536870912
    fileCountLimitPercentIfDeleting := some 70
    filesTotalSizeLimitPercentIfDeleting := some 70 }

theorem fromFile_absent (toml : List Char → Except String Section) :
    fromFile true Settings.asciiClasses toml plainHost true .absent = some (defaultsWith 65536) := rfl

/-- The first update of an empty cache. -/
def firstUpdate : CacheEvent :=
  .onCacheUpdate [bytesOf "c", bytesOf "m"] ⟨0, some [], "7", true⟩ (fun _ => 0)
    (.dir [] .nil fun _ => .unreadable) 0

/-- The module is stored again, beside two modules. -/
def laterUpdate : CacheEvent :=
  .onCacheUpdate [bytesOf "c", bytesOf "m"] ⟨0, some [], "7", true⟩ (fun _ => 0) twoFiles 0

/-- The module is read, without statistics. -/
def firstUse : CacheEvent :=
  .onCacheGet [bytesOf "c", bytesOf "m"]
    ⟨none, (fun _ h => by cases h), true, ⟨0, some [], "7", true⟩, true, true, true, none⟩

/-- A cleanup of few bytes fits. -/
theorem fits_of_total {c : WorkerConfig} (hc : (defaultsWith 65536).workerConfig = some c) {sort : SortUnstable}
    {clock : Path → Int} {directory : Node}
    (htotal : totalSize (modules (listCacheContents c.cleanup clock directory)) < 2 ^ 64) :
    CleanupFits true c.cleanup sort clock directory 0 := by
  have hsorted := sort.sorted (0 + c.cleanup.allowedClockDriftForFilesFromFuture)
    (listCacheContents c.cleanup clock directory)
  refine ⟨?_, ?_, ?_, fun _ n _ => sum_of_total htotal hsorted.byLastUse (n + 1)⟩
  all_goals
    obtain rfl : _ = c := Option.some.inj hc
    decide

/-- With the defaults three events, of which two go on to a cleanup, come to their end. -/
theorem worker_fits_updates : ∃ c, (defaultsWith 65536).workerConfig = some c ∧
    CleansUp c [bytesOf "c", bytesOf "m"] ⟨0, some [], "7", true⟩ ∧
      ∀ sort, runWorker true c sort [firstUpdate, firstUse, laterUpdate] ≠ .error .overflow := by
  obtain ⟨c, hc, hfits⟩ := worker_fits_iff (fromFile_absent fun _ => .error "") rfl rfl
  have hcleans : CleansUp c [bytesOf "c", bytesOf "m"] ⟨0, some [], "7", true⟩ := by
    obtain rfl : _ = c := Option.some.inj hc
    exact ⟨by decide, rfl⟩
  have hsmall : ∀ directory ∈ [.dir [] .nil fun _ => .unreadable, twoFiles],
      totalSize (modules (listCacheContents c.cleanup (fun _ => 0) directory)) < 2 ^ 64 := by
    obtain rfl : _ = c := Option.some.inj hc
    rw [List.forall_mem_cons, List.forall_mem_singleton]
    exact ⟨by decide, by decide⟩
  refine ⟨c, hc, hcleans, fun sort => (hfits sort _).mpr fun pre e hpre _ => ?_⟩
  have he : e ∈ [firstUpdate, firstUse, laterUpdate] :=
    hpre.subset (List.mem_append_right _ (List.mem_singleton_self e))
  rcases List.mem_cons.mp he with rfl | he
  · exact fun _ => fits_of_total hc (hsmall _ (by simp))
  rcases List.mem_cons.mp he with rfl | he
  · trivial
  · obtain rfl := List.mem_singleton.mp he
    exact fun _ => fits_of_total hc (hsmall _ (by simp))
/-- A file whose only setting is the limit on the number of files. -/
def fileCountSection (limit : List Char) : Section where
  enabled := true
  directory := none
  workerEventQueueSize := none
  baselineCompressionLevel := none
  optimizedCompressionLevel := none
  optimizedCompressionUsageCounterThreshold := none
  cleanupInterval := none
  optimizingCompressionTaskTimeout := none
  allowedClockDriftForFilesFromFuture := none
  fileCountSoftLimit := some limit
  filesTotalSizeSoftLimit := none
  fileCountLimitPercentIfDeleting := none
  filesTotalSizeLimitPercentIfDeleting := none

/-- 2^64 - 1. -/
def manyFiles : List Char := "18446744073709551615".toList

theorem fromFile_manyFiles : fromFile false Settings.asciiClasses (fun text => .ok (fileCountSection text))
    plainHost true (.text "/f" manyFiles) = some (defaultsWith 18446744073709551615) := rfl

/-- Without a limit on the number of files, the first update ends the worker in any build. -/
theorem not_worker_fits : ¬ ∀ (Text : Type) overflowChecks classes (toml : Text → Except String Section) h
    enabled file config, fromFile overflowChecks classes toml h enabled file = some config →
      config.errors = [] → config.enabled = true → ∀ c, config.workerConfig = some c →
        ∀ sort events, runWorker overflowChecks c sort events ≠ .error .overflow := by
  intro hall
  obtain ⟨c, hc, hlimit, hpercent, hdirectory⟩ : ∃ c,
      (defaultsWith 18446744073709551615).workerConfig = some c ∧
        c.cleanup.fileCountSoftLimit = 18446744073709551615 ∧
          c.cleanup.fileCountLimitPercentIfDeleting = 70 ∧ c.directory = [bytesOf "c"] :=
    ⟨_, rfl, rfl, rfl, by decide⟩
  let sort : SortUnstable :=
    ⟨fun t l => (exists_sorted t l).choose, fun t l => (exists_sorted t l).choose_spec⟩
  refine hall _ _ _ _ _ _ _ _ fromFile_manyFiles rfl rfl c hc sort [firstUpdate] ?_
  have hcleans : CleansUp c [bytesOf "c", bytesOf "m"] ⟨0, some [], "7", true⟩ := by
    refine ⟨by decide, ?_⟩
    rw [hdirectory]
    rfl
  have hover : handle false c sort firstUpdate = .error .overflow := by
    refine (handle_overflow_iff c firstUpdate).mpr fun hfits => ?_
    have hcount := (hfits hcleans).count
    rw [hlimit, hpercent] at hcount
    exact absurd hcount (by decide)
  exact Fallible.mapM_eq_error.mpr ⟨[], firstUpdate, List.prefix_rfl, ⟨[], rfl⟩, hover⟩

end Wasmtime.Cache
