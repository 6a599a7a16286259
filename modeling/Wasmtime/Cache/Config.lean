import Mathlib
import Wasmtime.Cache.Paths
import Wasmtime.Cache.Settings

/-!
# The cache configuration

Model of `CacheConfig::from_file` and what it calls (`wasmtime-environ/src/cache/config.rs`): the settings are read
from the file, checked and given their defaults, and the cache is disabled where there is an error.

* TOML is a parameter: a text gives the settings with the values that serde is given for them, or an error.
* The default directories and the file system are in `Host`. What a path is displayed as is its text.
* Durations are in seconds, as `Duration::from_secs` has them; `none` is a panic of `deserialize_duration`.

Results: `fromFile_accepted` (a configuration without errors, if it is enabled, has every setting, and percentages up
to 100) and `workerConfig_of_accepted`.
-/

namespace Wasmtime.Cache.FromFile

open Settings (CharClasses deserializeDuration deserializeSiPrefix deserializeDiskSpace deserializePercent)

/-! ## Settings -/

/-- The settings of a file, before the deserializers of their own formats. -/
structure Section where
  enabled : Bool
  directory : Option String
  workerEventQueueSize : Option (List Char)
  baselineCompressionLevel : Option Int
  optimizedCompressionLevel : Option Int
  optimizedCompressionUsageCounterThreshold : Option (List Char)
  cleanupInterval : Option (List Char)
  optimizingCompressionTaskTimeout : Option (List Char)
  allowedClockDriftForFilesFromFuture : Option (List Char)
  fileCountSoftLimit : Option (List Char)
  filesTotalSizeSoftLimit : Option (List Char)
  fileCountLimitPercentIfDeleting : Option (List Char)
  filesTotalSizeLimitPercentIfDeleting : Option (List Char)

/-- `CacheConfig`. -/
structure Config where
  errors : List String
  enabled : Bool
  directory : Option String
  workerEventQueueSize : Option Nat
  baselineCompressionLevel : Option Int
  optimizedCompressionLevel : Option Int
  optimizedCompressionUsageCounterThreshold : Option Nat
  cleanupInterval : Option Nat
  optimizingCompressionTaskTimeout : Option Nat
  allowedClockDriftForFilesFromFuture : Option Nat
  fileCountSoftLimit : Option UInt64
  filesTotalSizeSoftLimit : Option UInt64
  fileCountLimitPercentIfDeleting : Option UInt8
  filesTotalSizeLimitPercentIfDeleting : Option UInt8

/-- `new_cache_disabled`. -/
def newCacheDisabled : Config :=
  ⟨[], false, none, none, none, none, none, none, none, none, none, none, none, none⟩

/-- `new_cache_enabled_template`. -/
def newCacheEnabledTemplate : Config := { newCacheDisabled with enabled := true }

/-- `new_cache_with_errors`. -/
def newCacheWithErrors (errors : List String) : Config := { newCacheDisabled with errors }

/-- The derived `Deserialize`, given the settings. -/
def deserialize (overflowChecks : Bool) (classes : CharClasses) (s : Section) :
    Except Settings.Failure Config := do
  let workerEventQueueSize ← deserializeSiPrefix classes s.workerEventQueueSize
  let threshold ← deserializeSiPrefix classes s.optimizedCompressionUsageCounterThreshold
  let cleanupInterval ← deserializeDuration overflowChecks classes s.cleanupInterval
  let timeout ← deserializeDuration overflowChecks classes s.optimizingCompressionTaskTimeout
  let drift ← deserializeDuration overflowChecks classes s.allowedClockDriftForFilesFromFuture
  let fileCountSoftLimit ← deserializeSiPrefix classes s.fileCountSoftLimit
  let filesTotalSizeSoftLimit ← deserializeDiskSpace classes s.filesTotalSizeSoftLimit
  let fileCountPercent ← deserializePercent classes s.fileCountLimitPercentIfDeleting
  let filesTotalSizePercent ← deserializePercent classes s.filesTotalSizeLimitPercentIfDeleting
  return { newCacheDisabled with
    enabled := s.enabled
    directory := s.directory
    workerEventQueueSize
    baselineCompressionLevel := s.baselineCompressionLevel
    optimizedCompressionLevel := s.optimizedCompressionLevel
    optimizedCompressionUsageCounterThreshold := threshold
    cleanupInterval
    optimizingCompressionTaskTimeout := timeout
    allowedClockDriftForFilesFromFuture := drift
    -- none of these exceeds its type
    fileCountSoftLimit := fileCountSoftLimit.map UInt64.ofNat
    filesTotalSizeSoftLimit := filesTotalSizeSoftLimit.map UInt64.ofNat
    fileCountLimitPercentIfDeleting := fileCountPercent.map UInt8.ofNat
    filesTotalSizeLimitPercentIfDeleting := filesTotalSizePercent.map UInt8.ofNat }

/-! ## The checks and the defaults -/

/-- The directories of the project, the file system, and `zstd::DEFAULT_COMPRESSION_LEVEL`. -/
structure Host where
  defaultCompressionLevel : Int
  /-- `proj_dirs.cache_dir()`. -/
  cacheDir : Option String
  createDirAll : String → Except String Unit
  canonicalize : String → Except String String

namespace Config

/-- `errors.push`. -/
def push (c : Config) (error : String) : Config := { c with errors := c.errors ++ [error] }

/-- `validate_directory_or_default`, once there is a directory. -/
def validateDirectory (c : Config) (h : Host) (cacheDir : String) : Config :=
  if !Pathname.isAbsolute (bytesOf cacheDir) then
    c.push ("Cache directory path has to be absolute, path: " ++ cacheDir)
  else match h.createDirAll cacheDir with
    | .error err =>
      c.push ("Failed to create the cache directory, path: " ++ cacheDir ++ ", error: " ++ err)
    | .ok () => match h.canonicalize cacheDir with
      | .ok p => { c with directory := some p }
      | .error err =>
        c.push ("Failed to canonicalize the cache directory, path: " ++ cacheDir ++ ", error: " ++ err)

/-- `validate_directory_or_default`. -/
def validateDirectoryOrDefault (c : Config) (h : Host) : Config :=
  match c.directory.or h.cacheDir with
  | none => c.push "Cache directory not specified and failed to get the default"
  | some cacheDir => { c with directory := some cacheDir }.validateDirectory h cacheDir

/-- `validate_worker_event_queue_size_or_default`. -/
def validateWorkerEventQueueSizeOrDefault (c : Config) : Config :=
  { c with workerEventQueueSize := c.workerEventQueueSize.or (some 0x10) }

/-- `ZSTD_COMPRESSION_LEVELS.contains`. -/
def isZstdLevel (level : Int) : Bool := decide (0 ≤ level ∧ level ≤ 21)

/-- `validate_baseline_compression_level_or_default`. -/
def validateBaselineCompressionLevelOrDefault (c : Config) (h : Host) : Config :=
  let level := c.baselineCompressionLevel.getD h.defaultCompressionLevel
  let c := { c with baselineCompressionLevel := some level }
  if isZstdLevel level then c
  else c.push ("Invalid baseline compression level: " ++ toString level ++ " not in 0..=21")

/-- `validate_optimized_compression_level_or_default`. -/
def validateOptimizedCompressionLevelOrDefault (c : Config) : Config :=
  let optLvl := c.optimizedCompressionLevel.getD 20
  -- assumption: baseline compression level has been verified
  let baseLvl := c.baselineCompressionLevel.getD 0
  let c := { c with optimizedCompressionLevel := some optLvl }
  let c := if isZstdLevel optLvl then c
    else c.push ("Invalid optimized compression level: " ++ toString optLvl ++ " not in 0..=21")
  if optLvl < baseLvl then
    c.push ("Invalid optimized compression level is lower than baseline: " ++ toString optLvl ++ " < " ++
      toString baseLvl)
  else c

/-- `validate_optimized_compression_usage_counter_threshold_or_default`. -/
def validateOptimizedCompressionUsageCounterThresholdOrDefault (c : Config) : Config :=
  { c with
    optimizedCompressionUsageCounterThreshold :=
      c.optimizedCompressionUsageCounterThreshold.or (some 0x100) }

/-- `validate_cleanup_interval_or_default`. -/
def validateCleanupIntervalOrDefault (c : Config) : Config :=
  { c with cleanupInterval := c.cleanupInterval.or (some (60 * 60)) }

/-- `validate_optimizing_compression_task_timeout_or_default`. -/
def validateOptimizingCompressionTaskTimeoutOrDefault (c : Config) : Config :=
  { c with optimizingCompressionTaskTimeout := c.optimizingCompressionTaskTimeout.or (some (30 * 60)) }

/-- `validate_allowed_clock_drift_for_files_from_future_or_default`. -/
def validateAllowedClockDriftForFilesFromFutureOrDefault (c : Config) : Config :=
  { c with
    allowedClockDriftForFilesFromFuture :=
      c.allowedClockDriftForFilesFromFuture.or (some (60 * 60 * 24)) }

/-- `validate_file_count_soft_limit_or_default`. -/
def validateFileCountSoftLimitOrDefault (c : Config) : Config :=
  { c with fileCountSoftLimit := c.fileCountSoftLimit.or (some 0x10000) }

/-- `validate_files_total_size_soft_limit_or_default`. -/
def validateFilesTotalSizeSoftLimitOrDefault (c : Config) : Config :=
  { c with filesTotalSizeSoftLimit := c.filesTotalSizeSoftLimit.or (some (1024 * 1024 * 512)) }

/-- The check of a percentage. -/
def checkPercent (c : Config) (what : String) (percent : UInt8) : Config :=
  if percent.toNat > 100 then
    c.push ("Invalid " ++ what ++ " limit percent if deleting: " ++ toString percent.toNat ++
      " not in range 0-100%")
  else c

/-- `validate_file_count_limit_percent_if_deleting_or_default`. -/
def validateFileCountLimitPercentIfDeletingOrDefault (c : Config) : Config :=
  let percent := c.fileCountLimitPercentIfDeleting.getD 70
  { c with fileCountLimitPercentIfDeleting := some percent }.checkPercent "files count" percent

/-- `validate_files_total_size_limit_percent_if_deleting_or_default`. -/
def validateFilesTotalSizeLimitPercentIfDeletingOrDefault (c : Config) : Config :=
  let percent := c.filesTotalSizeLimitPercentIfDeleting.getD 70
  { c with filesTotalSizeLimitPercentIfDeleting := some percent }.checkPercent "files total size" percent

/-- `disable_if_any_error`. -/
def disableIfAnyError (c : Config) : Config :=
  if c.errors ≠ [] then { newCacheDisabled with errors := c.errors } else c

/-- All checks, in their order. -/
def validate (c : Config) (h : Host) : Config :=
  let c := c.validateDirectoryOrDefault h
  let c := c.validateWorkerEventQueueSizeOrDefault
  let c := c.validateBaselineCompressionLevelOrDefault h
  let c := c.validateOptimizedCompressionLevelOrDefault
  let c := c.validateOptimizedCompressionUsageCounterThresholdOrDefault
  let c := c.validateCleanupIntervalOrDefault
  let c := c.validateOptimizingCompressionTaskTimeoutOrDefault
  let c := c.validateAllowedClockDriftForFilesFromFutureOrDefault
  let c := c.validateFileCountSoftLimitOrDefault
  let c := c.validateFilesTotalSizeSoftLimitOrDefault
  let c := c.validateFileCountLimitPercentIfDeletingOrDefault
  c.validateFilesTotalSizeLimitPercentIfDeletingOrDefault

/-- The getters that the worker calls; `none` where one panics. -/
def workerConfig (c : Config) : Option WorkerConfig := do
  let directory ← c.directory
  let baselineCompressionLevel ← c.baselineCompressionLevel
  let optimizedCompressionLevel ← c.optimizedCompressionLevel
  let threshold ← c.optimizedCompressionUsageCounterThreshold
  let cleanupInterval ← c.cleanupInterval
  let timeout ← c.optimizingCompressionTaskTimeout
  let drift ← c.allowedClockDriftForFilesFromFuture
  let fileCountSoftLimit ← c.fileCountSoftLimit
  let filesTotalSizeSoftLimit ← c.filesTotalSizeSoftLimit
  let fileCountPercent ← c.fileCountLimitPercentIfDeleting
  let filesTotalSizePercent ← c.filesTotalSizeLimitPercentIfDeleting
  if h : fileCountPercent.toNat ≤ 100 ∧ filesTotalSizePercent.toNat ≤ 100 then
    some {
      directory := pathComponents directory
      -- times are in nanoseconds
      cleanup := ⟨cleanupInterval * 10 ^ 9, timeout * 10 ^ 9, drift * 10 ^ 9, fileCountSoftLimit,
        filesTotalSizeSoftLimit, fileCountPercent, filesTotalSizePercent, h.1, h.2⟩
      baselineCompressionLevel
      optimizedCompressionLevel
      optimizedCompressionUsageCounterThreshold := threshold }
  else none

end Config

/-! ## `from_file` -/

/-- What there is of a configuration file. -/
inductive ConfigFile (Text : Type) where
  /-- No path was given, and there is no default. -/
  | noDefault (err : String)
  /-- No path was given, and no file is at the default one. -/
  | absent
  | unreadable (path err : String)
  | text (path : String) (text : Text)

section

variable {Text : Type} (overflowChecks : Bool) (classes : CharClasses) (toml : Text → Except String Section)
  (h : Host)

/-- The error of a file that is not parsed. -/
def parseError (path err : String) : String :=
  "Failed to parse config file, path: " ++ path ++ ", error: " ++ err

/-- `load_and_parse_file`. -/
def loadAndParseFile : ConfigFile Text → Option (Except String Config)
  | .noDefault err => some (.error err)
  | .absent => some (.ok newCacheEnabledTemplate)
  | .unreadable path err =>
    some (.error ("Failed to read config file, path: " ++ path ++ ", error: " ++ err))
  | .text path text =>
    match (toml text).map (deserialize overflowChecks classes) with
    | .error err => some (.error (parseError path err))
    | .ok (.ok config) => some (.ok config)
    | .ok (.error .invalid) =>
      some (.error (parseError path "Invalid value, please refer to the documentation"))
    | .ok (.error .panic) => none

/-- `from_file`. -/
def fromFile (enabled : Bool) (file : ConfigFile Text) : Option Config :=
  if !enabled then some newCacheDisabled
  else (loadAndParseFile overflowChecks classes toml file).map fun
    | .error err => newCacheWithErrors [err]
    | .ok config => (config.validate h).disableIfAnyError

end

/-! ## What is accepted -/

namespace Config

variable {c : Config} {h : Host}

theorem push_push (c : Config) (error error' : String) :
    (c.push error).push error' = { c with errors := c.errors ++ [error, error'] } := by
  unfold push
  rw [List.append_assoc, List.singleton_append]

theorem validateDirectory_eq (cacheDir : String) (hdir : c.directory = some cacheDir) :
    ∃ directory errors, c.validateDirectory h cacheDir =
      { c with directory := some directory, errors := c.errors ++ errors } := by
  unfold validateDirectory
  split
  · exact ⟨cacheDir, [_], by rw [push, hdir]⟩
  · split
    · exact ⟨cacheDir, [_], by rw [push, hdir]⟩
    · split
      · next p _ => exact ⟨p, [], by rw [List.append_nil]⟩
      · exact ⟨cacheDir, [_], by rw [push, hdir]⟩

theorem validateDirectoryOrDefault_eq : ∃ directory errors, c.validateDirectoryOrDefault h =
    { c with directory := directory, errors := c.errors ++ errors } ∧ (errors = [] → directory.isSome) := by
  unfold validateDirectoryOrDefault
  split
  · exact ⟨c.directory, [_], rfl, fun hnil => by cases hnil⟩
  · next cacheDir _ =>
    obtain ⟨directory, errors, heq⟩ :=
      @validateDirectory_eq { c with directory := some cacheDir } h cacheDir rfl
    exact ⟨some directory, errors, heq, fun _ => rfl⟩

theorem validateBaselineCompressionLevelOrDefault_eq : ∃ level errors,
    c.validateBaselineCompressionLevelOrDefault h =
      { c with baselineCompressionLevel := some level, errors := c.errors ++ errors } := by
  unfold validateBaselineCompressionLevelOrDefault
  dsimp only
  split
  · exact ⟨_, [], by rw [List.append_nil]⟩
  · exact ⟨_, [_], rfl⟩

theorem validateOptimizedCompressionLevelOrDefault_eq : ∃ level errors,
    c.validateOptimizedCompressionLevelOrDefault =
      { c with optimizedCompressionLevel := some level, errors := c.errors ++ errors } := by
  unfold validateOptimizedCompressionLevelOrDefault
  dsimp only
  split
  · split
    · exact ⟨_, [_], rfl⟩
    · exact ⟨_, [_, _], push_push _ _ _⟩
  · split
    · exact ⟨_, [], by rw [List.append_nil]⟩
    · exact ⟨_, [_], rfl⟩

theorem checkPercent_eq (what : String) (percent : UInt8) : ∃ errors,
    c.checkPercent what percent = { c with errors := c.errors ++ errors } ∧
      (errors = [] → percent.toNat ≤ 100) := by
  unfold checkPercent
  split
  · exact ⟨[_], rfl, fun hnil => by cases hnil⟩
  · next hle => exact ⟨[], by rw [List.append_nil], fun _ => Nat.not_lt.mp hle⟩

theorem validateFileCountLimitPercentIfDeletingOrDefault_eq : ∃ percent errors,
    c.validateFileCountLimitPercentIfDeletingOrDefault =
      { c with fileCountLimitPercentIfDeleting := some percent, errors := c.errors ++ errors } ∧
      (errors = [] → percent.toNat ≤ 100) := by
  obtain ⟨errors, heq, hle⟩ := @checkPercent_eq { c with
    fileCountLimitPercentIfDeleting := some (c.fileCountLimitPercentIfDeleting.getD 70) } "files count"
    (c.fileCountLimitPercentIfDeleting.getD 70)
  exact ⟨_, errors, heq, hle⟩

theorem validateFilesTotalSizeLimitPercentIfDeletingOrDefault_eq : ∃ percent errors,
    c.validateFilesTotalSizeLimitPercentIfDeletingOrDefault =
      { c with filesTotalSizeLimitPercentIfDeleting := some percent, errors := c.errors ++ errors } ∧
      (errors = [] → percent.toNat ≤ 100) := by
  obtain ⟨errors, heq, hle⟩ := @checkPercent_eq { c with
    filesTotalSizeLimitPercentIfDeleting := some (c.filesTotalSizeLimitPercentIfDeleting.getD 70) }
    "files total size" (c.filesTotalSizeLimitPercentIfDeleting.getD 70)
  exact ⟨_, errors, heq, hle⟩

/-- A configuration that has every setting, with percentages that are percentages, can be used. -/
theorem workerConfig_isSome (hdirectory : c.directory.isSome)
    (hbaseline : c.baselineCompressionLevel.isSome) (hoptimized : c.optimizedCompressionLevel.isSome)
    (hthreshold : c.optimizedCompressionUsageCounterThreshold.isSome)
    (hinterval : c.cleanupInterval.isSome) (htimeout : c.optimizingCompressionTaskTimeout.isSome)
    (hdrift : c.allowedClockDriftForFilesFromFuture.isSome) (hcount : c.fileCountSoftLimit.isSome)
    (hsize : c.filesTotalSizeSoftLimit.isSome)
    (hcountPercent : ∃ p ∈ c.fileCountLimitPercentIfDeleting, p.toNat ≤ 100)
    (hsizePercent : ∃ p ∈ c.filesTotalSizeLimitPercentIfDeleting, p.toNat ≤ 100) :
    ∃ w, c.workerConfig = some w := by
  obtain ⟨_, hdirectory⟩ := Option.isSome_iff_exists.mp hdirectory
  obtain ⟨_, hbaseline⟩ := Option.isSome_iff_exists.mp hbaseline
  obtain ⟨_, hoptimized⟩ := Option.isSome_iff_exists.mp hoptimized
  obtain ⟨_, hthreshold⟩ := Option.isSome_iff_exists.mp hthreshold
  obtain ⟨_, hinterval⟩ := Option.isSome_iff_exists.mp hinterval
  obtain ⟨_, htimeout⟩ := Option.isSome_iff_exists.mp htimeout
  obtain ⟨_, hdrift⟩ := Option.isSome_iff_exists.mp hdrift
  obtain ⟨_, hcount⟩ := Option.isSome_iff_exists.mp hcount
  obtain ⟨_, hsize⟩ := Option.isSome_iff_exists.mp hsize
  obtain ⟨_, hcountPercent, hcountLe⟩ := hcountPercent
  obtain ⟨_, hsizePercent, hsizeLe⟩ := hsizePercent
  unfold workerConfig
  rw [hdirectory, hbaseline, hoptimized, hthreshold, hinterval, htimeout, hdrift, hcount, hsize,
    Option.mem_def.mp hcountPercent, Option.mem_def.mp hsizePercent]
  exact ⟨_, dif_pos ⟨hcountLe, hsizeLe⟩⟩

/-- The checks leave a configuration that can be used, or an error. -/
theorem workerConfig_validate (herrors : (c.validate h).errors = []) :
    ∃ w, (c.validate h).workerConfig = some w := by
  obtain ⟨directory, e₁, h₁, hdirectory⟩ := @validateDirectoryOrDefault_eq c h
  obtain ⟨c₂, hc₂⟩ : ∃ c₂, c₂ =
    (c.validateDirectoryOrDefault h).validateWorkerEventQueueSizeOrDefault := ⟨_, rfl⟩
  obtain ⟨baseline, e₃, h₃⟩ := @validateBaselineCompressionLevelOrDefault_eq c₂ h
  obtain ⟨optimized, e₄, h₄⟩ :=
    @validateOptimizedCompressionLevelOrDefault_eq (c₂.validateBaselineCompressionLevelOrDefault h)
  -- the settings that are not checked
  obtain ⟨c₅, hc₅⟩ : ∃ c₅, c₅ =
    ((c₂.validateBaselineCompressionLevelOrDefault h).validateOptimizedCompressionLevelOrDefault
      |>.validateOptimizedCompressionUsageCounterThresholdOrDefault
      |>.validateCleanupIntervalOrDefault
      |>.validateOptimizingCompressionTaskTimeoutOrDefault
      |>.validateAllowedClockDriftForFilesFromFutureOrDefault
      |>.validateFileCountSoftLimitOrDefault
      |>.validateFilesTotalSizeSoftLimitOrDefault) := ⟨_, rfl⟩
  obtain ⟨countPercent, e₆, h₆, hcount⟩ := @validateFileCountLimitPercentIfDeletingOrDefault_eq c₅
  obtain ⟨sizePercent, e₇, h₇, hsize⟩ := @validateFilesTotalSizeLimitPercentIfDeletingOrDefault_eq
    c₅.validateFileCountLimitPercentIfDeletingOrDefault
  have hvalidate : c.validate h = (c₅.validateFileCountLimitPercentIfDeletingOrDefault
      |>.validateFilesTotalSizeLimitPercentIfDeletingOrDefault) := by
    rw [hc₅, hc₂]
    rfl
  rw [h₄, h₃, hc₂, h₁] at hc₅
  rw [hvalidate, h₇, h₆, hc₅] at herrors ⊢
  have hnil : c.errors ++ e₁ ++ e₃ ++ e₄ ++ e₆ ++ e₇ = [] := herrors
  simp only [List.append_eq_nil_iff] at hnil
  obtain ⟨⟨⟨⟨⟨-, hnil₁⟩, -⟩, -⟩, hnil₆⟩, hnil₇⟩ := hnil
  refine workerConfig_isSome (hdirectory hnil₁) rfl rfl ?_ ?_ ?_ ?_ ?_ ?_ ⟨countPercent, rfl, hcount hnil₆⟩
    ⟨sizePercent, rfl, hsize hnil₇⟩
  all_goals exact Option.isSome_or.trans (Bool.or_true _)

end Config

/-- **A configuration that is accepted and enabled has every setting that the worker asks for.** -/
theorem workerConfig_of_accepted {Text : Type} {overflowChecks : Bool} {classes : CharClasses}
    {toml : Text → Except String Section} {h : Host} {enabled : Bool} {file : ConfigFile Text} {c : Config}
    (hfile : fromFile overflowChecks classes toml h enabled file = some c) (herrors : c.errors = [])
    (henabled : c.enabled = true) : ∃ w, c.workerConfig = some w := by
  unfold fromFile at hfile
  split at hfile
  · obtain rfl := Option.some.inj hfile
    cases henabled
  · obtain ⟨loaded, -, rfl⟩ := Option.map_eq_some_iff.mp hfile
    cases loaded with
    | error err => cases herrors
    | ok config =>
      dsimp only at herrors ⊢
      unfold Config.disableIfAnyError at herrors ⊢
      split at herrors
      · next hne => exact absurd herrors hne
      · next hnil =>
        rw [if_neg hnil]
        exact Config.workerConfig_validate herrors

end Wasmtime.Cache.FromFile
