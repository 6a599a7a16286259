import Mathlib
import Wasmtime.Cache.Cleanup
import Wasmtime.Lib.Pathname

/-!
# Paths of the cache

Model of the path that `ModuleCacheEntryInner::new` builds for a module (`wasmtime-environ/src/cache.rs`), and
of what the worker does with it in `handle_on_cache_get`, `handle_on_cache_update` and `acquire_task_fs_lock`
(`wasmtime-environ/src/cache/worker.rs`).

* A path is the list of its components, as `Path::components` gives them, from the root. Nothing is a
  symbolic link, so `resolve` takes `..` away with the component before it.
* The texts of the path are any: the triple, the name of the compiler, the git revision and the time. The
  hash is what `base64` gives for it, of the alphabet for URLs.
* What the file system answers to a handler is any, but that the integers of TOML have 64 bits and a sign.
* A directory holds a module with its statistics (`HoldsPair`) when both files are in it and their metadata
  can be read.

The worker takes the last dot of a name for that of an extension, so it does not know the modules with debug
information: their lock panics, and the cleanup deletes them.

Results: `listed_pair` (a module on the level of modules is listed with its statistics, once), `paired` (and
no cleanup within the limits takes it away), `resolve_modCacheDir` (names without slashes lead to that level),
and the headline `agrees_iff`.
-/

namespace Wasmtime.Cache

open Pathname (components dot dotdot slash isAbsolute)

/-! ## Texts and paths -/

/-- The bytes of a text. -/
def bytesOf (s : String) : Name := s.toByteArray.data.toList

/-- `OsStr::to_str`. -/
def toStr (name : Name) : Option String := String.fromUTF8? ⟨name.toArray⟩

/-- `Path::components`, without `RootDir`. -/
def pathComponents (text : String) : Path := (components (bytesOf text)).filter (· ≠ dot)

/-- `Path::join`. -/
def join (path : Path) (text : String) : Path :=
  if isAbsolute (bytesOf text) then pathComponents text else path ++ pathComponents text

/-- `Path::file_name`. -/
def fileName (path : Path) : Option Name := path.getLast?.filter (· ≠ dotdot)

/-- `Path::file_stem`. -/
def pathFileStem (path : Path) : Option Name := (fileName path).map fileStem

/-- `Path::extension`. -/
def pathExtension (path : Path) : Option Name := (fileName path).bind extension

/-- `Path::parent`. -/
def parent (path : Path) : Option Path := if path = [] then none else some path.dropLast

/-- `Path::with_file_name`. -/
def withFileName (path : Path) (name : String) : Path :=
  join (if (fileName path).isSome then path.dropLast else path) name

/-- `Path::with_extension`. -/
def pathWithExtension (path : Path) (ext : String) : Path :=
  match fileName path with
  | some name => path.dropLast ++ [withExtension name (bytesOf ext)]
  | none => path

/-- The directories below the root that a path goes to. -/
def resolve (path : Path) : Path :=
  path.foldl (fun at' c => if c = dotdot then at'.dropLast else at' ++ [c]) []

/-! ## The worker's configuration -/

/-- `CacheConfig`, as far as the producer and the handlers read it. -/
structure WorkerConfig where
  directory : Path
  cleanup : CacheConfig
  baselineCompressionLevel : Int
  optimizedCompressionLevel : Int
  optimizedCompressionUsageCounterThreshold : Nat

/-! ## The producer -/

/-- `compiler_dir`. -/
def compilerDir (debugAssertions : Bool) (compName compVer compMtime : String) : String :=
  if debugAssertions then compName ++ "-" ++ compVer ++ "-" ++ compMtime else compName ++ "-" ++ compVer

/-- `mod_filename`. -/
def modFilename (modHash : String) (generateDebugInfo : Bool) : String :=
  "mod-" ++ modHash ++ if generateDebugInfo then ".d" else ""

/-- What `ModuleCacheEntryInner::new` reads for the path, other than the configuration. -/
structure EntryArgs where
  triple : String
  debugAssertions : Bool
  compName : String
  compVer : String
  compMtime : String
  modHash : String
  generateDebugInfo : Bool

section

variable (c : WorkerConfig) (a : EntryArgs)

/-- The directory of the path. -/
def modCacheDir : Path :=
  join (join c.directory a.triple) (compilerDir a.debugAssertions a.compName a.compVer a.compMtime)

/-- `mod_cache_path`. -/
def modCachePath : Path := join (modCacheDir c a) (modFilename a.modHash a.generateDebugInfo)

end

/-- A text of the alphabet of `base64::URL_SAFE_NO_PAD`. -/
def UrlSafe (text : String) : Prop :=
  ∀ b ∈ bytesOf text, (48 ≤ b ∧ b ≤ 57) ∨ (65 ≤ b ∧ b ≤ 90) ∨ (97 ≤ b ∧ b ≤ 122) ∨ b = 45 ∨ b = 95

/-! ## The worker -/

/-- Why the worker panics: a path has no name, or none that is text; an assertion fails; a number overflows. -/
inductive Panic where
  | name
  | assertion
  | overflow
  deriving DecidableEq, Repr

/-- What the file system answers when a lock is acquired: the entries of the directory, an error in the
place of any of them, and whether the file of the lock is created. -/
structure LockAnswers where
  now : Int
  entries : Option (List (Option (Name × Node)))
  pid : String
  created : Bool

/-- Whether an entry is neither an error nor an active lock of the task. -/
def passes (stem : Option Name) (now : Int) (timeout allowedFutureDrift : Nat) :
    Option (Name × Node) → Bool
  | none => false
  | some (name, node) =>
    node.isDir || some (fileStem name) != stem || !(extension name).any isWip ||
      isFsLockExpired now node.metadata timeout allowedFutureDrift

/-- What `acquire_task_fs_lock` does after its asserts. -/
def lockPath (taskPath : Path) (timeout allowedFutureDrift : Nat) (answers : LockAnswers) : Option Path :=
  (parent taskPath).bind fun _ =>
    answers.entries.bind fun entries =>
      if entries.all (passes (pathFileStem taskPath) answers.now timeout allowedFutureDrift) ∧
          answers.created then
        some (pathWithExtension taskPath ("wip-" ++ answers.pid))
      else none

/-- `acquire_task_fs_lock`. -/
def acquireTaskFsLock (taskPath : Path) (timeout allowedFutureDrift : Nat) (answers : LockAnswers) :
    Except Panic (Option Path) :=
  if (pathExtension taskPath).isSome ∨ (pathFileStem taskPath).isNone then .error .assertion
  else .ok (lockPath taskPath timeout allowedFutureDrift answers)

/-- `ModuleCacheStatistics`. -/
structure Statistics where
  usages : Nat
  compressionLevel : Int
  deriving DecidableEq

/-- `ModuleCacheStatistics::default`. -/
def Statistics.default (c : WorkerConfig) : Statistics := ⟨0, c.baselineCompressionLevel⟩

/-- `stats.usages += 1`. -/
def Statistics.use (overflowChecks : Bool) (stats : Statistics) : Except Panic Statistics :=
  if stats.usages + 1 < 2 ^ 64 then .ok { stats with usages := stats.usages + 1 }
  else if overflowChecks then .error .overflow
  else .ok { stats with usages := 0 }

/-- What a handler does to the file system. -/
inductive FileOp where
  | writeStats (path : Path) (stats : Statistics)
  | write (path : Path)
  | rename (source target : Path)
  | removeFile (path : Path)
  deriving DecidableEq

/-- `stats_path`. -/
def statsPath (path : Path) : Except Panic Path :=
  match (fileName path).bind toStr with
  | some filename => .ok (withFileName path (filename ++ ".stats"))
  | none => .error .name

/-- What the file system answers to `handle_on_cache_get`. -/
structure GetAnswers where
  stats : Option Statistics
  stats_lt : ∀ s ∈ stats, s.usages < 2 ^ 63
  written : Bool
  lock : LockAnswers
  /-- `fs::read`, `decode_all` and `encode_all` succeed. -/
  recompressed : Bool
  lockWritten : Bool
  renamed : Bool
  newStats : Option Statistics

/-- The recompression, with the lock. -/
def recompress (c : WorkerConfig) (path statsPath lockPath : Path) (answers : GetAnswers) : List FileOp :=
  if !answers.recompressed then []
  else if !answers.lockWritten then [.write lockPath]
  else if !answers.renamed then [.write lockPath, .rename lockPath path, .removeFile lockPath]
  else
    match answers.newStats with
    | none => [.write lockPath, .rename lockPath path]
    | some newStats =>
      if newStats.compressionLevel ≥ c.optimizedCompressionLevel then [.write lockPath, .rename lockPath path]
      else
        [.write lockPath, .rename lockPath path,
          .writeStats statsPath { newStats with compressionLevel := c.optimizedCompressionLevel }]

/-- `handle_on_cache_get`. -/
def handleOnCacheGet (overflowChecks : Bool) (c : WorkerConfig) (path : Path) (answers : GetAnswers) :
    Except Panic (List FileOp) := do
  let statsPath ← statsPath path
  let stats ← (answers.stats.getD (.default c)).use overflowChecks
  -- step 2 comes only after the statistics are written, if there's a need
  if !answers.written ∨ stats.compressionLevel ≥ c.optimizedCompressionLevel ∨
      stats.usages < c.optimizedCompressionUsageCounterThreshold then
    pure [.writeStats statsPath stats]
  else do
    let lock ← acquireTaskFsLock path c.cleanup.optimizingCompressionTaskTimeout
      c.cleanup.allowedClockDriftForFilesFromFuture answers.lock
    pure (.writeStats statsPath stats :: lock.toList.flatMap fun lockPath =>
      recompress c path statsPath lockPath answers)

/-- `handle_on_cache_update`, up to the cleanup: what it writes, and whether it goes on to clean up. -/
def handleOnCacheUpdate (overflowChecks : Bool) (c : WorkerConfig) (path : Path) (answers : LockAnswers) :
    Except Panic (FileOp × Bool) := do
  let statsPath ← statsPath path
  let stats ← (Statistics.default c).use overflowChecks
  let lock ← acquireTaskFsLock (join c.directory ".cleanup") c.cleanup.cleanupInterval
    c.cleanup.allowedClockDriftForFilesFromFuture answers
  pure (.writeStats statsPath stats, lock.isSome)

/-! ## What the two are to agree on -/

/-- The path of an entry. -/
def CacheEntry.path : CacheEntry → Path
  | recognized path _ _ => path
  | unrecognized path _ => path

/-- Removing the entry removes the path. -/
def CacheEntry.Touches (e : CacheEntry) (path : Path) : Prop := e.path <+: path

instance (e : CacheEntry) (path : Path) : Decidable (e.Touches path) :=
  inferInstanceAs (Decidable (e.path <+: path))

/-- What is at a path below a directory. -/
def Node.at : Node → Path → Option Node
  | t, [] => some t
  | .dir names _ child, name :: path => if name ∈ names then (child name).at path else none
  | .file _, _ :: _ => none
  | .unreadable, _ :: _ => none

/-- A module with its statistics is in a directory. -/
def Node.HoldsPair (t : Node) (parent : Path) (mod stats : Name) (m s : Metadata) : Prop :=
  ∃ names distinct child, t.at parent = some (.dir names distinct child) ∧ mod ∈ names ∧ stats ∈ names ∧
    child mod = .file (some m) ∧ child stats = .file (some s)

/-- Wherever the two files are, the listing takes them for one module, and no cleanup within the limits
removes the module. -/
structure Paired (c : CacheConfig) (parent : Path) (mod stats : Name) : Prop where
  listed : ∀ clock t m s mtime, t.HoldsPair parent mod stats m s → s.modified = some mtime →
    (listCacheContents c clock t).filter (fun e =>
      decide (e.Touches (parent ++ [mod]) ∨ e.Touches (parent ++ [stats]))) =
        [.recognized (parent ++ [mod]) mtime m.len]
  kept : ∀ clock t m s mtime now gone, t.HoldsPair parent mod stats m s → s.modified = some mtime →
    WithinLimits c (modules (listCacheContents c clock t)) → Cleaned c clock now t gone →
      ∀ e ∈ gone, ¬ e.Touches (parent ++ [mod])

/-- The worker processes the path of a producer without a panic, and takes what the producer and it
write for a module with its statistics. -/
structure Agrees (c : WorkerConfig) (a : EntryArgs) : Prop where
  get : ∀ overflowChecks answers, ∃ ops, handleOnCacheGet overflowChecks c (modCachePath c a) answers = .ok ops
  update : ∀ overflowChecks answers,
    ∃ r, handleOnCacheUpdate overflowChecks c (modCachePath c a) answers = .ok r
  lock : ∀ timeout drift answers, ∃ r, acquireTaskFsLock (modCachePath c a) timeout drift answers = .ok r
  paired : ∃ parent mod stats path, resolve (modCachePath c a) = resolve c.directory ++ (parent ++ [mod]) ∧
    statsPath (modCachePath c a) = .ok path ∧
      resolve path = resolve c.directory ++ (parent ++ [stats]) ∧ Paired c.cleanup parent mod stats

/-! ## Names -/

section

variable {name ext : Name}

theorem range_reverse_find (p : Nat → Bool) (n m : Nat) (hn : p n = true)
    (hm : ∀ i, n < i → i < n + 1 + m → p i = false) :
    (List.range (n + 1 + m)).reverse.find? p = some n := by
  refine List.find?_eq_some_iff_append.mpr ⟨hn, ((List.range m).map (n + 1 + ·)).reverse,
    (List.range n).reverse, ?_, ?_⟩
  · rw [List.range_add, List.reverse_append, List.range_succ, List.reverse_append]
    rfl
  · intro i hi
    obtain ⟨j, hj, rfl⟩ := List.mem_map.mp (List.mem_reverse.mp hi)
    rw [List.mem_range] at hj
    rw [hm (n + 1 + j) (by omega) (by omega)]
    rfl

/-- The last dot of a name with an extension. -/
theorem lastDot_append (hname : name ≠ []) (hext : 0x2e ∉ ext) :
    lastDot (name ++ 0x2e :: ext) = some name.length := by
  have hlen : (name ++ 0x2e :: ext).length = name.length + 1 + ext.length := by
    rw [List.length_append, List.length_cons]
    omega
  rw [lastDot, hlen]
  refine range_reverse_find _ _ _ ?_ fun i hlt hi => ?_
  · simp [List.length_pos_iff.mpr hname]
  · have hget : (name ++ 0x2e :: ext)[i]? = ext[i - name.length - 1]? := by
      rw [List.getElem?_append_right (by omega)]
      obtain ⟨j, hj⟩ : ∃ j, i - name.length = j + 1 := ⟨i - name.length - 1, by omega⟩
      rw [hj, List.getElem?_cons_succ, Nat.add_sub_cancel]
    rw [hget]
    simp only [Bool.and_eq_false_iff, beq_eq_false_iff_ne, ne_eq]
    exact .inr fun hdot => hext (List.mem_of_getElem? hdot)

theorem extension_append (hname : name ≠ []) (hext : 0x2e ∉ ext) :
    extension (name ++ 0x2e :: ext) = some ext := by
  rw [extension, lastDot_append hname hext]
  simp

theorem fileStem_append (hname : name ≠ []) (hext : 0x2e ∉ ext) :
    fileStem (name ++ 0x2e :: ext) = name := by
  rw [fileStem, lastDot_append hname hext]
  simp

theorem lastDot_eq_none (h : 0x2e ∉ name) : lastDot name = none := by
  refine List.find?_eq_none.mpr fun i _ hdot => h ?_
  simp only [Bool.and_eq_true, beq_iff_eq] at hdot
  exact List.mem_of_getElem? hdot.2

theorem extension_eq_none (h : 0x2e ∉ name) : extension name = none := by
  rw [extension, lastDot_eq_none h]
  rfl

theorem fileStem_eq_self (h : extension name = none) : fileStem name = name := by
  rw [extension, Option.map_eq_none_iff] at h
  rw [fileStem, h]

end

/-! ## Texts -/

theorem bytesOf_append (s t : String) : bytesOf (s ++ t) = bytesOf s ++ bytesOf t := by
  simp [bytesOf, String.toByteArray_append]

theorem toStr_bytesOf (s : String) : toStr (bytesOf s) = some s := by
  have hbytes : (⟨(bytesOf s).toArray⟩ : ByteArray) = s.toByteArray := by
    rw [bytesOf, Array.toArray_toList]
  rw [toStr, hbytes, String.fromUTF8?, dif_pos s.isValidUTF8]
  rfl

/-- A text without slashes is a single component. -/
theorem pathComponents_eq {text : String} (hslash : slash ∉ bytesOf text) (hne : bytesOf text ≠ [])
    (hdot : bytesOf text ≠ dot) : pathComponents text = [bytesOf text] := by
  have hcomponents : components (bytesOf text) = [bytesOf text] := by
    rw [components, List.splitOn_eq_singleton hslash]
    simp [hne]
  rw [pathComponents, hcomponents]
  simp [hdot]

theorem not_isAbsolute {text : String} (hslash : slash ∉ bytesOf text) :
    isAbsolute (bytesOf text) = false := by
  rw [isAbsolute, beq_eq_false_iff_ne]
  exact fun hhead => hslash (List.mem_of_mem_head? hhead)

theorem join_eq {path : Path} {text : String} (hslash : slash ∉ bytesOf text) (hne : bytesOf text ≠ [])
    (hdot : bytesOf text ≠ dot) : join path text = path ++ [bytesOf text] := by
  rw [join, not_isAbsolute hslash, if_neg (by simp), pathComponents_eq hslash hne hdot]

theorem fileName_append {path : Path} {name : Name} (h : name ≠ dotdot) :
    fileName (path ++ [name]) = some name := by
  rw [fileName, List.getLast?_concat, Option.filter_some, if_pos (decide_eq_true h)]

theorem resolve_append {path : Path} {name : Name} (h : name ≠ dotdot) :
    resolve (path ++ [name]) = resolve path ++ [name] := by
  rw [resolve, List.foldl_append]
  simp [h, resolve]

/-! ## The path of a module -/

theorem bytesOf_mod : bytesOf "mod-" = [109, 111, 100, 45] := by decide

theorem bytesOf_d : bytesOf ".d" = [0x2e, 100] := by decide

theorem bytesOf_dotStats : bytesOf ".stats" = 0x2e :: stats := by decide

theorem dot_notMem_stats : 0x2e ∉ stats := by decide

theorem UrlSafe.notMem {text : String} (h : UrlSafe text) : 0x2e ∉ bytesOf text ∧ slash ∉ bytesOf text := by
  refine ⟨fun hdot => ?_, fun hslash => ?_⟩
  · exact absurd (h _ hdot) (by decide)
  · exact absurd (h _ hslash) (by decide)

section

variable {c : WorkerConfig} {a : EntryArgs}

/-- The name without the mark of debug information. -/
def modName (modHash : String) : Name := bytesOf "mod-" ++ bytesOf modHash

theorem modName_ne_nil (modHash : String) : modName modHash ≠ [] := by
  rw [modName, bytesOf_mod]
  simp

theorem dot_notMem_modName {modHash : String} (h : UrlSafe modHash) : 0x2e ∉ modName modHash := by
  rw [modName, bytesOf_mod, List.mem_append]
  exact fun hmem => hmem.elim (by decide) h.notMem.1

theorem slash_notMem_modName {modHash : String} (h : UrlSafe modHash) : slash ∉ modName modHash := by
  rw [modName, bytesOf_mod, List.mem_append]
  exact fun hmem => hmem.elim (by decide) h.notMem.2

theorem bytesOf_modFilename (modHash : String) (generateDebugInfo : Bool) :
    bytesOf (modFilename modHash generateDebugInfo) =
      if generateDebugInfo then modName modHash ++ 0x2e :: [100] else modName modHash := by
  cases generateDebugInfo with
  | true =>
    rw [modFilename, if_pos rfl, bytesOf_append, bytesOf_append, bytesOf_d, if_pos rfl]
    rfl
  | false =>
    rw [modFilename, if_neg (by simp), bytesOf_append, bytesOf_append, if_neg (by simp), modName]
    simp [bytesOf]

/-- The name of a module starts with `mod-`. -/
theorem modFilename_ne (modHash : String) (generateDebugInfo : Bool) {name : Name}
    (h : name.head? ≠ some 109) : bytesOf (modFilename modHash generateDebugInfo) ≠ name := by
  rintro rfl
  refine h ?_
  rw [bytesOf_modFilename, modName, bytesOf_mod]
  split <;> rfl

theorem slash_notMem_modFilename {modHash : String} (h : UrlSafe modHash) (generateDebugInfo : Bool) :
    slash ∉ bytesOf (modFilename modHash generateDebugInfo) := by
  rw [bytesOf_modFilename]
  split
  · rw [List.mem_append]
    exact fun hmem => hmem.elim (slash_notMem_modName h) (by decide)
  · exact slash_notMem_modName h

theorem modCachePath_eq (h : UrlSafe a.modHash) : modCachePath c a =
    modCacheDir c a ++ [bytesOf (modFilename a.modHash a.generateDebugInfo)] :=
  join_eq (slash_notMem_modFilename h _) (modFilename_ne _ _ (by simp)) (modFilename_ne _ _ (by decide))

theorem fileName_modCachePath (h : UrlSafe a.modHash) : fileName (modCachePath c a) =
    some (bytesOf (modFilename a.modHash a.generateDebugInfo)) := by
  rw [modCachePath_eq h, fileName_append (modFilename_ne _ _ (by decide))]

theorem statsPath_modCachePath (h : UrlSafe a.modHash) : statsPath (modCachePath c a) =
    .ok (modCacheDir c a ++ [bytesOf (modFilename a.modHash a.generateDebugInfo) ++ 0x2e :: stats]) := by
  have hbytes : bytesOf (modFilename a.modHash a.generateDebugInfo ++ ".stats") =
      bytesOf (modFilename a.modHash a.generateDebugInfo) ++ 0x2e :: stats := by
    rw [bytesOf_append, bytesOf_dotStats]
  have hslash : slash ∉ bytesOf (modFilename a.modHash a.generateDebugInfo ++ ".stats") := by
    rw [hbytes, List.mem_append]
    exact fun hmem => hmem.elim (slash_notMem_modFilename h _) (by decide)
  have hne : bytesOf (modFilename a.modHash a.generateDebugInfo ++ ".stats") ≠ [] := by
    rw [hbytes]
    simp
  have hdot : bytesOf (modFilename a.modHash a.generateDebugInfo ++ ".stats") ≠ dot := by
    rw [hbytes]
    intro heq
    have hlen := congrArg List.length heq
    have hstats : stats.length = 5 := by decide
    have hone : dot.length = 1 := rfl
    rw [List.length_append, List.length_cons] at hlen
    omega
  rw [statsPath, fileName_modCachePath h, Option.bind_some, toStr_bytesOf]
  simp only [withFileName, fileName_modCachePath h, Option.isSome_some, if_true]
  rw [modCachePath_eq h, List.dropLast_concat, join_eq hslash hne hdot, hbytes]

/-- The names of modules without debug information have no extension, the others one. -/
theorem extension_modFilename (h : UrlSafe a.modHash) :
    extension (bytesOf (modFilename a.modHash a.generateDebugInfo)) =
      if a.generateDebugInfo then some [100] else none := by
  rw [bytesOf_modFilename]
  split
  · exact extension_append (modName_ne_nil _) (by decide)
  · exact extension_eq_none (dot_notMem_modName h)

/-- The lock asserts exactly for the modules with debug information. -/
theorem acquire_modCachePath (h : UrlSafe a.modHash) (timeout drift : Nat) (answers : LockAnswers) :
    acquireTaskFsLock (modCachePath c a) timeout drift answers =
      if a.generateDebugInfo then .error .assertion
      else .ok (lockPath (modCachePath c a) timeout drift answers) := by
  have hext : pathExtension (modCachePath c a) = if a.generateDebugInfo then some [100] else none := by
    rw [pathExtension, fileName_modCachePath h, Option.bind_some, extension_modFilename h]
  have hstem : (pathFileStem (modCachePath c a)).isNone = false := by
    rw [pathFileStem, fileName_modCachePath h]
    rfl
  rw [acquireTaskFsLock, hext, hstem]
  cases a.generateDebugInfo <;> rfl

/-- The counter of usages never overflows. -/
theorem use_eq_ok (overflowChecks : Bool) {s : Statistics} (h : s.usages < 2 ^ 63) :
    s.use overflowChecks = .ok { s with usages := s.usages + 1 } := by
  rw [Statistics.use, if_pos (by omega)]

theorem use_default (overflowChecks : Bool) (c : WorkerConfig) :
    (Statistics.default c).use overflowChecks = .ok { Statistics.default c with usages := 1 } :=
  use_eq_ok overflowChecks (by simp [Statistics.default])

theorem use_answers (overflowChecks : Bool) (c : WorkerConfig) (answers : GetAnswers) :
    ∃ s, (answers.stats.getD (.default c)).use overflowChecks = .ok s := by
  refine ⟨_, use_eq_ok overflowChecks ?_⟩
  cases hstats : answers.stats with
  | none => simp [Statistics.default]
  | some s => exact answers.stats_lt s hstats

/-- The lock of the cleanup is never refused by an assertion. -/
theorem acquire_cleanup (path : Path) (timeout drift : Nat) (answers : LockAnswers) :
    acquireTaskFsLock (join path ".cleanup") timeout drift answers =
      .ok (lockPath (join path ".cleanup") timeout drift answers) := by
  have hjoin : join path ".cleanup" = path ++ [bytesOf ".cleanup"] :=
    join_eq (by decide) (by decide) (by decide)
  have hname : fileName (join path ".cleanup") = some (bytesOf ".cleanup") := by
    rw [hjoin, fileName_append (by decide)]
  have hext : pathExtension (join path ".cleanup") = none := by
    rw [pathExtension, hname]
    decide
  have hstem : (pathFileStem (join path ".cleanup")).isNone = false := by
    rw [pathFileStem, hname]
    rfl
  rw [acquireTaskFsLock, hext, hstem]
  rfl

end

/-! ## The listing -/

section

variable {c : CacheConfig} {clock : Path → Int} {n : Nat} {path : Path} {t : Node} {e : CacheEntry}

theorem moduleWithStats_path {child : Name → Node} {mod stats : Name}
    (h : e ∈ moduleWithStats path child mod stats) : e.path = path ++ [mod] ∨ e.path = path ++ [stats] := by
  rw [moduleWithStats] at h
  split at h
  · simp only [List.mem_cons, List.not_mem_nil, or_false] at h
    rcases h with rfl | rfl
    · exact .inr rfl
    · exact .inl rfl
  · split at h
    · rw [List.mem_singleton] at h
      exact .inl (h ▸ rfl)
    · split at h
      · simp only [List.mem_cons, List.not_mem_nil, or_false] at h
        rcases h with rfl | rfl
        · exact .inr rfl
        · exact .inl rfl
      · simp only [List.mem_cons, List.not_mem_nil, or_false] at h
        rcases h with rfl | rfl | rfl
        · exact .inr rfl
        · exact .inr rfl
        · exact .inl rfl

theorem moduleAlone_path {child : Name → Node} {mod : Name} (h : e ∈ moduleAlone path child mod) :
    e.path = path ++ [mod] := by
  rw [moduleAlone] at h
  split at h
  · rw [List.mem_singleton] at h
    exact h ▸ rfl
  · split at h
    all_goals
      rw [List.mem_singleton] at h
      exact h ▸ rfl

/-- What one round over the modules and statistics adds is about the name, or about the statistics of the
module of that name. -/
theorem cacheFile_path {child : Name → Node} {files : List Name} {name : Name}
    (h : e ∈ cacheFile path child files name) :
    e.path = path ++ [name] ∨ (extension name = none ∧ e.path = path ++ [withExtension name stats]) := by
  rw [cacheFile] at h
  split at h
  · split at h
    · cases h
    · rw [List.mem_singleton] at h
      exact .inl (h ▸ rfl)
  · next hext =>
    split at h
    · exact (moduleWithStats_path h).imp_right fun hpath => ⟨hext, hpath⟩
    · exact .inl (moduleAlone_path h)

theorem otherEntry_path {child : Name → Node} {name : Name} (h : e ∈ otherEntry c clock path child name) :
    e.path = path ++ [name] := by
  rw [otherEntry] at h
  split at h
  · rw [List.mem_singleton] at h
    exact h ▸ rfl
  · split at h
    · cases h
    · split at h
      · cases h
      · rw [List.mem_singleton] at h
        exact h ▸ rfl

theorem outerFile_eq {top : Bool} {name : Name} {metadata : Option Metadata}
    (h : e ∈ outerFile c clock path top name metadata) : e = .unrecognized (path ++ [name]) false := by
  rw [outerFile] at h
  split at h
  · cases h
  · exact List.mem_singleton.mp h

theorem enterDir_file (n : Nat) (path : Path) (m : Option Metadata) :
    enterDir c clock n path (.file m) = [.unrecognized path true] := by
  cases n <;> rfl

theorem enterDir_unreadable (n : Nat) (path : Path) :
    enterDir c clock n path .unreadable = [.unrecognized path true] := by
  cases n <;> rfl

/-- Entries are below the directory that is listed. -/
theorem prefix_of_mem (h : e ∈ enterDir c clock n path t) : path <+: e.path := by
  induction n generalizing path t with
  | zero =>
    cases t with
    | file _ =>
      rw [enterDir_file, List.mem_singleton] at h
      exact h ▸ List.prefix_refl _
    | unreadable =>
      rw [enterDir_unreadable, List.mem_singleton] at h
      exact h ▸ List.prefix_refl _
    | dir names distinct child =>
      rw [enterDir, List.mem_append, List.mem_flatMap, List.mem_flatMap] at h
      rcases h with ⟨name, -, h⟩ | ⟨name, -, h⟩
      · rw [otherEntry_path h]
        exact List.prefix_append ..
      · rcases cacheFile_path h with hpath | ⟨-, hpath⟩
        all_goals
          rw [hpath]
          exact List.prefix_append ..
  | succ n ih =>
    cases t with
    | file _ =>
      rw [enterDir_file, List.mem_singleton] at h
      exact h ▸ List.prefix_refl _
    | unreadable =>
      rw [enterDir_unreadable, List.mem_singleton] at h
      exact h ▸ List.prefix_refl _
    | dir names distinct child =>
      rw [enterDir, List.mem_flatMap] at h
      obtain ⟨name, -, h⟩ := h
      split at h
      · exact (List.prefix_append ..).trans (ih h)
      · rw [outerFile_eq h]
        exact List.prefix_append ..

/-- Modules are three levels below the directory of the cache. -/
theorem length_of_recognized {p : Path} {mtime : Int} {size : UInt64}
    (h : .recognized p mtime size ∈ enterDir c clock n path t) : p.length = path.length + n + 1 := by
  induction n generalizing path t with
  | zero =>
    cases t with
    | file _ =>
      rw [enterDir_file, List.mem_singleton] at h
      cases h
    | unreadable =>
      rw [enterDir_unreadable, List.mem_singleton] at h
      cases h
    | dir names distinct child =>
      rw [enterDir, List.mem_append, List.mem_flatMap, List.mem_flatMap] at h
      have hlen : ∀ name : Name, (path ++ [name]).length = path.length + 0 + 1 := fun name => by simp
      rcases h with ⟨name, -, h⟩ | ⟨name, -, h⟩
      · have hp : p = path ++ [name] := otherEntry_path h
        rw [hp, hlen]
      · rcases cacheFile_path h with hp | ⟨-, hp⟩
        all_goals
          have hp : p = path ++ [_] := hp
          rw [hp, hlen]
  | succ n ih =>
    cases t with
    | file _ =>
      rw [enterDir_file, List.mem_singleton] at h
      cases h
    | unreadable =>
      rw [enterDir_unreadable, List.mem_singleton] at h
      cases h
    | dir names distinct child =>
      rw [enterDir, List.mem_flatMap] at h
      obtain ⟨name, -, h⟩ := h
      split at h
      · rw [ih h, List.length_append, List.length_singleton]
        omega
      · cases outerFile_eq h

theorem flatMap_eq_of_unique {α : Type} {names : List Name} (hdistinct : names.Nodup) {name : Name}
    (hmem : name ∈ names) {f : Name → List α} (hnil : ∀ name' ∈ names, name' ≠ name → f name' = []) :
    names.flatMap f = f name := by
  induction names with
  | nil => cases hmem
  | cons x names ih =>
    obtain ⟨hx, hdistinct⟩ := List.nodup_cons.mp hdistinct
    rw [List.flatMap_cons]
    rcases List.mem_cons.mp hmem with rfl | hmem
    · have hrest : names.flatMap f = [] := by
        refine List.flatMap_eq_nil_iff.mpr fun y hy => hnil y (List.mem_cons_of_mem _ hy) ?_
        rintro rfl
        exact hx hy
      rw [hrest, List.append_nil]
    · have hxname : x ≠ name := by
        rintro rfl
        exact hx hmem
      rw [hnil x List.mem_cons_self hxname, List.nil_append,
        ih hdistinct hmem fun y hy => hnil y (List.mem_cons_of_mem _ hy)]

/-- What removes one of two paths. -/
def touchesEither (p q : Path) (e : CacheEntry) : Bool := decide (e.Touches p ∨ e.Touches q)

theorem eq_of_touches {rest : Path} {name name' : Name} (hpath : path ++ [name'] <+: e.path)
    (htouches : e.Touches (path ++ name :: rest)) : name' = name := by
  have hprefix := hpath.trans htouches
  rw [List.prefix_append_right_inj] at hprefix
  exact (List.cons_prefix_cons.mp hprefix).1

theorem eq_of_touches_of_eq {name name' : Name} (hpath : e.path = path ++ [name'])
    (htouches : e.Touches (path ++ [name])) : name' = name :=
  eq_of_touches (hpath ▸ List.prefix_refl e.path) htouches

/-- Only one directory on the way to two files matters. -/
theorem filter_enterDir_succ {names : List Name} {distinct : names.Nodup} {child : Name → Node}
    {name : Name} {rest rest' : Path} (hname : name ∈ names) (hdir : (child name).isDir = true) :
    (enterDir c clock (n + 1) path (.dir names distinct child)).filter
        (touchesEither (path ++ name :: rest) (path ++ name :: rest')) =
      (enterDir c clock n (path ++ [name]) (child name)).filter
        (touchesEither (path ++ name :: rest) (path ++ name :: rest')) := by
  rw [enterDir, List.filter_flatMap]
  refine (flatMap_eq_of_unique distinct hname fun name' _ hne => ?_).trans ?_
  · refine List.filter_eq_nil_iff.mpr fun e he htouches => hne ?_
    have hpath : path ++ [name'] <+: e.path := by
      split at he
      · exact prefix_of_mem he
      · rw [outerFile_eq he]
        exact List.prefix_refl _
    rcases of_decide_eq_true htouches with htouches | htouches
    · exact eq_of_touches hpath htouches
    · exact eq_of_touches hpath htouches
  · rw [if_pos hdir]

/-- The files of a module are listed as one module. -/
theorem filter_enterDir_zero {names : List Name} {distinct : names.Nodup} {child : Name → Node}
    {mod : Name} {m s : Metadata} {mtime : Int} (hne : mod ≠ []) (hdot : 0x2e ∉ mod)
    (hmod : mod ∈ names) (hstats : mod ++ 0x2e :: stats ∈ names) (hm : child mod = .file (some m))
    (hs : child (mod ++ 0x2e :: stats) = .file (some s)) (hmtime : s.modified = some mtime) :
    (enterDir c clock 0 path (.dir names distinct child)).filter
        (touchesEither (path ++ [mod]) (path ++ [mod ++ 0x2e :: stats])) =
      [.recognized (path ++ [mod]) mtime m.len] := by
  have hext := extension_eq_none hdot
  have hextStats := extension_append hne dot_notMem_stats
  have hwith {name : Name} (h : extension name = none) : withExtension name stats = name ++ 0x2e :: stats := by
    rw [withExtension, if_neg (by decide), fileStem_eq_self h]
  have hcacheMod : isCacheFile child mod = true := by
    simp [isCacheFile, hm, Node.isDir, hext]
  have hcacheStats : isCacheFile child (mod ++ 0x2e :: stats) = true := by
    simp [isCacheFile, hs, Node.isDir, hextStats]
  have hmodFiles : mod ∈ names.filter (isCacheFile child) := List.mem_filter.mpr ⟨hmod, hcacheMod⟩
  have hstatsFiles : mod ++ 0x2e :: stats ∈ names.filter (isCacheFile child) :=
    List.mem_filter.mpr ⟨hstats, hcacheStats⟩
  rw [enterDir, List.filter_append, List.filter_flatMap, List.filter_flatMap]
  have hother : names.flatMap (fun name => (otherEntry c clock path child name).filter
      (touchesEither (path ++ [mod]) (path ++ [mod ++ 0x2e :: stats]))) = [] := by
    refine List.flatMap_eq_nil_iff.mpr fun name _ => List.filter_eq_nil_iff.mpr fun e he htouches => ?_
    have hpath : path ++ [name] <+: e.path := by
      rw [otherEntry_path he]
    have hcache : isCacheFile child name = true := by
      rcases of_decide_eq_true htouches with htouches | htouches
      · rw [eq_of_touches hpath htouches]
        exact hcacheMod
      · rw [eq_of_touches hpath htouches]
        exact hcacheStats
    have hfile : (child name).isDir = false := by
      rw [isCacheFile, Bool.and_eq_true, Bool.not_eq_true'] at hcache
      exact hcache.1
    rw [otherEntry, hfile, if_neg (by simp), if_pos hcache] at he
    cases he
  rw [hother, List.nil_append, flatMap_eq_of_unique (distinct.filter _) hmodFiles]
  · have hentry : cacheFile path child (names.filter (isCacheFile child)) mod =
        [.recognized (path ++ [mod]) mtime m.len] := by
      rw [cacheFile, hext]
      simp only
      rw [hwith hext, if_pos hstatsFiles, moduleWithStats, hm, hs]
      simp [Node.metadata, hmtime]
    rw [hentry, List.filter_cons_of_pos, List.filter_nil]
    exact decide_eq_true (.inl (List.prefix_refl _))
  · intro name _ hnename
    refine List.filter_eq_nil_iff.mpr fun e he htouches => ?_
    rcases cacheFile_path he with hpath | ⟨hnone, hpath⟩
    · rcases of_decide_eq_true htouches with htouches | htouches
      · exact hnename (eq_of_touches_of_eq hpath htouches)
      · -- the statistics are handled with their module
        obtain rfl := eq_of_touches_of_eq hpath htouches
        rw [cacheFile, hextStats] at he
        simp only at he
        rw [withExtension, if_pos rfl, fileStem_append hne dot_notMem_stats, if_pos hmodFiles] at he
        cases he
    · rw [hwith hnone] at hpath
      rcases of_decide_eq_true htouches with htouches | htouches
      · have heq := eq_of_touches_of_eq hpath htouches
        exact hdot (heq ▸ List.mem_append_right _ List.mem_cons_self)
      · have heq := eq_of_touches_of_eq hpath htouches
        exact hnename (List.append_cancel_right heq)

theorem at_cons {t u : Node} {name : Name} {p : Path} (h : t.at (name :: p) = some u) :
    ∃ names distinct child, t = .dir names distinct child ∧ name ∈ names ∧ (child name).at p = some u := by
  cases t with
  | file _ => cases h
  | unreadable => cases h
  | dir names distinct child =>
    rw [Node.at] at h
    obtain ⟨hmem, h⟩ := Option.ite_none_right_eq_some.mp h
    exact ⟨names, distinct, child, rfl, hmem, h⟩

theorem isDir_of_at {t : Node} {p : Path} {names : List Name} {distinct : names.Nodup}
    {child : Name → Node} (h : t.at p = some (.dir names distinct child)) : t.isDir = true := by
  cases p with
  | nil =>
    rw [Node.at] at h
    obtain rfl := Option.some.inj h
    rfl
  | cons name p =>
    obtain ⟨names', distinct', child', rfl, -, -⟩ := at_cons h
    rfl

/-- **A module on the level of modules is listed with its statistics, once.** -/
theorem listed_pair {x y mod : Name} {m s : Metadata} {mtime : Int} (hne : mod ≠ []) (hdot : 0x2e ∉ mod)
    (h : t.HoldsPair [x, y] mod (mod ++ 0x2e :: stats) m s) (hmtime : s.modified = some mtime) :
    (listCacheContents c clock t).filter
        (touchesEither ([x, y] ++ [mod]) ([x, y] ++ [mod ++ 0x2e :: stats])) =
      [.recognized ([x, y] ++ [mod]) mtime m.len] := by
  obtain ⟨names, distinct, child, hat, hmod, hstats, hm, hs⟩ := h
  obtain ⟨names₀, distinct₀, child₀, rfl, hx, hat₀⟩ := at_cons hat
  obtain ⟨names₁, distinct₁, child₁, hchild, hy, hat₁⟩ := at_cons hat₀
  have hlow : (enterDir c clock 2 [] (.dir names₀ distinct₀ child₀)).filter
      (touchesEither ([] ++ x :: [y, mod]) ([] ++ x :: [y, mod ++ 0x2e :: stats])) =
        (enterDir c clock 1 ([] ++ [x]) (child₀ x)).filter
          (touchesEither ([] ++ x :: [y, mod]) ([] ++ x :: [y, mod ++ 0x2e :: stats])) :=
    filter_enterDir_succ hx (isDir_of_at hat₀)
  have hhigh : (enterDir c clock 1 [x] (.dir names₁ distinct₁ child₁)).filter
      (touchesEither ([x] ++ y :: [mod]) ([x] ++ y :: [mod ++ 0x2e :: stats])) =
        (enterDir c clock 0 ([x] ++ [y]) (child₁ y)).filter
          (touchesEither ([x] ++ y :: [mod]) ([x] ++ y :: [mod ++ 0x2e :: stats])) :=
    filter_enterDir_succ hy (isDir_of_at hat₁)
  rw [Node.at] at hat₁
  rw [Option.some.inj hat₁] at hhigh
  rw [hchild] at hlow
  have hzero : (enterDir c clock 0 [x, y] (.dir names distinct child)).filter
      (touchesEither ([x, y] ++ [mod]) ([x, y] ++ [mod ++ 0x2e :: stats])) =
        [.recognized ([x, y] ++ [mod]) mtime m.len] :=
    filter_enterDir_zero hne hdot hmod hstats hm hs hmtime
  exact hlow.trans (hhigh.trans hzero)

end

/-! ## The cleanup -/

section

variable {c : CacheConfig} {clock : Path → Int} {now : Int} {t : Node} {gone : List CacheEntry}

theorem ifDeleting_isSome {limit : UInt64} {percent : UInt8} {n : Nat} (h : ifDeleting limit percent = some n) :
    limit.toNat * percent.toNat < 2 ^ 64 := by
  rw [ifDeleting] at h
  exact (Option.ite_none_right_eq_some.mp h).1

/-- Where a cleanup comes to its end within the limits, nothing has overflowed. -/
theorem noOverflow_of_cleaned (h : Cleaned c clock now t gone)
    (hwithin : WithinLimits c (modules (listCacheContents c clock t))) :
    NoOverflow c now (listCacheContents c clock t) := by
  obtain ⟨tolerance, order, htolerance, -, hgone⟩ := h
  obtain ⟨lim, hlim, -⟩ := Option.bind_eq_some_iff.mp hgone
  obtain ⟨tsl, htsl, hlim⟩ := Option.bind_eq_some_iff.mp hlim
  obtain ⟨fcl, hfcl, -⟩ := Option.map_eq_some_iff.mp hlim
  refine ⟨ifDeleting_isSome htsl, ifDeleting_isSome hfcl, ?_, fun order horder n _ => ?_⟩
  · rw [futureTolerance] at htolerance
    exact (Option.ite_none_right_eq_some.mp htolerance).1
  · exact sum_of_total (Nat.lt_of_le_of_lt hwithin.2 c.filesTotalSizeSoftLimit.toNat_lt) horder (n + 1)

/-- Within the limits only what is not recognized goes. -/
theorem unrecognized_of_cleaned (h : Cleaned c clock now t gone)
    (hwithin : WithinLimits c (modules (listCacheContents c clock t))) {e : CacheEntry} (he : e ∈ gone) :
    e ∈ listCacheContents c clock t ∧ e.isRecognized = false := by
  have hno := noOverflow_of_cleaned h hwithin
  obtain ⟨tolerance, order, htolerance, hsorted, hgone⟩ := h
  rw [futureTolerance, if_pos hno.time] at htolerance
  obtain rfl := Option.some.inj htolerance
  obtain ⟨gone', hgone', hall, -⟩ := removed_spec hno hsorted
  obtain rfl := Option.some.inj (hgone.symm.trans hgone')
  rw [hall ((within_perm _ _ hsorted.modules_perm).mpr hwithin)] at he
  obtain ⟨hmem, hrec⟩ := List.mem_filter.mp he
  exact ⟨hsorted.perm.mem_iff.mp hmem, by simpa using hrec⟩

/-- **Two levels down, a module without an extension is paired with its statistics.** -/
theorem paired (c : CacheConfig) {x y mod : Name} (hne : mod ≠ []) (hdot : 0x2e ∉ mod) :
    Paired c [x, y] mod (mod ++ 0x2e :: stats) where
  listed _ _ _ _ _ h hmtime := listed_pair hne hdot h hmtime
  kept clock t m s mtime now gone h hmtime hwithin hcleaned e he htouches := by
    obtain ⟨hmem, hrec⟩ := unrecognized_of_cleaned hcleaned hwithin he
    have hmem' : e ∈ [CacheEntry.recognized ([x, y] ++ [mod]) mtime m.len] := by
      rw [← listed_pair hne hdot h hmtime]
      exact List.mem_filter.mpr ⟨hmem, decide_eq_true (.inl htouches)⟩
    rw [List.mem_singleton.mp hmem'] at hrec
    cases hrec

end

/-! ## Other levels -/

/-- A directory with nothing on the way to another one. -/
def nest : Path → Node → Node
  | [], t => t
  | name :: path, t => .dir [name] (List.nodup_singleton name) fun _ => nest path t

theorem at_nest (path : Path) (t : Node) : (nest path t).at path = some t := by
  induction path with
  | nil => rw [nest, Node.at]
  | cons name path ih => rw [nest, Node.at, if_pos (List.mem_singleton_self name), ih]

theorem length_of_paired {c : CacheConfig} {path : Path} {mod stats : Name} (hne : mod ≠ stats)
    (h : Paired c path mod stats) : path.length = 2 := by
  have hdistinct : [mod, stats].Nodup := List.nodup_cons.mpr ⟨by simpa using hne, List.nodup_singleton _⟩
  have hholds : (nest path (.dir [mod, stats] hdistinct fun _ => .file (some ⟨some 0, 0⟩))).HoldsPair path
      mod stats ⟨some 0, 0⟩ ⟨some 0, 0⟩ :=
    ⟨[mod, stats], hdistinct, _, at_nest _ _, by simp, by simp, rfl, rfl⟩
  have hlisted := h.listed (fun _ => 0) _ _ _ 0 hholds rfl
  have hmem : CacheEntry.recognized (path ++ [mod]) 0 0 ∈ (listCacheContents c (fun _ => 0)
      (nest path (.dir [mod, stats] hdistinct fun _ => .file (some ⟨some 0, 0⟩)))).filter (fun e =>
        decide (e.Touches (path ++ [mod]) ∨ e.Touches (path ++ [stats]))) := by
    rw [hlisted]
    exact List.mem_singleton_self _
  have hlen := length_of_recognized (List.mem_filter.mp hmem).1
  rw [List.length_append, List.length_singleton, List.length_nil] at hlen
  omega

/-! ## Producer and worker -/

section

variable {c : WorkerConfig} {a : EntryArgs}

theorem dash_mem_compilerDir (debugAssertions : Bool) (compName compVer compMtime : String) :
    0x2d ∈ bytesOf (compilerDir debugAssertions compName compVer compMtime) := by
  have hdash : bytesOf "-" = [0x2d] := by decide
  rw [compilerDir]
  split <;> simp [bytesOf_append, hdash]

/-- Without slashes the names of the triple and of the compiler are two directories. -/
theorem resolve_modCacheDir (htriple : slash ∉ bytesOf a.triple) (hne : bytesOf a.triple ≠ [])
    (hdot : bytesOf a.triple ≠ dot) (hdotdot : bytesOf a.triple ≠ dotdot)
    (hcompiler : slash ∉ bytesOf (compilerDir a.debugAssertions a.compName a.compVer a.compMtime)) :
    resolve (modCacheDir c a) = resolve c.directory ++
      [bytesOf a.triple, bytesOf (compilerDir a.debugAssertions a.compName a.compVer a.compMtime)] := by
  have hdash := dash_mem_compilerDir a.debugAssertions a.compName a.compVer a.compMtime
  have hcompilerNe {name : Name} (h : 0x2d ∉ name) :
      bytesOf (compilerDir a.debugAssertions a.compName a.compVer a.compMtime) ≠ name :=
    fun heq => h (heq ▸ hdash)
  rw [modCacheDir, join_eq htriple hne hdot,
    join_eq hcompiler (hcompilerNe (by decide)) (hcompilerNe (by decide)),
    resolve_append (hcompilerNe (by decide)), resolve_append hdotdot, List.append_assoc]
  rfl

/-- **The worker and the producer agree on the path of a module exactly when the module has no debug
information and lies two directories below that of the cache.** -/
theorem agrees_iff (hsafe : UrlSafe a.modHash) : Agrees c a ↔
    a.generateDebugInfo = false ∧ ∃ x y, resolve (modCacheDir c a) = resolve c.directory ++ [x, y] := by
  have hname : bytesOf (modFilename a.modHash a.generateDebugInfo) ≠ dotdot := modFilename_ne _ _ (by decide)
  have hresolve : resolve (modCachePath c a) = resolve (modCacheDir c a) ++
      [bytesOf (modFilename a.modHash a.generateDebugInfo)] := by
    rw [modCachePath_eq hsafe, resolve_append hname]
  have hstatsName : bytesOf (modFilename a.modHash a.generateDebugInfo) ++ 0x2e :: stats ≠ dotdot := by
    intro heq
    have hlen := congrArg List.length heq
    have hfive : stats.length = 5 := by decide
    have htwo : dotdot.length = 2 := rfl
    rw [List.length_append, List.length_cons] at hlen
    omega
  constructor
  · rintro ⟨-, -, hlock, path, mod, stats', sp, hmod, hsp, hstats, hpaired⟩
    have hdebug : a.generateDebugInfo = false := by
      obtain ⟨r, hr⟩ := hlock 0 0 ⟨0, none, "", false⟩
      rw [acquire_modCachePath hsafe] at hr
      cases hd : a.generateDebugInfo with
      | true =>
        rw [hd, if_pos rfl] at hr
        cases hr
      | false => rfl
    refine ⟨hdebug, ?_⟩
    rw [hresolve, ← List.append_assoc] at hmod
    obtain ⟨hdir, hmod⟩ := List.append_inj' hmod rfl
    rw [statsPath_modCachePath hsafe] at hsp
    obtain rfl := Except.ok.inj hsp
    rw [resolve_append hstatsName, hdir, List.append_assoc] at hstats
    have hstats' := List.append_cancel_left (List.append_cancel_left hstats)
    have hne : mod ≠ stats' := by
      rw [List.singleton_inj] at hmod hstats'
      rw [← hmod, ← hstats']
      intro heq
      have hlen := congrArg List.length heq
      rw [List.length_append, List.length_cons] at hlen
      omega
    obtain ⟨x, y, rfl⟩ := List.length_eq_two.mp (length_of_paired hne hpaired)
    exact ⟨x, y, hdir⟩
  · rintro ⟨hdebug, x, y, hdir⟩
    refine ⟨fun overflowChecks answers => ?_, fun overflowChecks answers => ?_, fun timeout drift answers => ?_,
      [x, y], bytesOf (modFilename a.modHash a.generateDebugInfo),
      bytesOf (modFilename a.modHash a.generateDebugInfo) ++ 0x2e :: stats, _, ?_, statsPath_modCachePath hsafe,
      ?_, ?_⟩
    · obtain ⟨s, hs⟩ := use_answers overflowChecks c answers
      rw [handleOnCacheGet, statsPath_modCachePath hsafe, hs]
      simp only [acquire_modCachePath hsafe, hdebug]
      simp only [bind, Except.bind, pure, Except.pure, Bool.false_eq_true, if_false]
      split
      · exact ⟨_, rfl⟩
      · exact ⟨_, rfl⟩
    · rw [handleOnCacheUpdate, statsPath_modCachePath hsafe, use_default, acquire_cleanup]
      exact ⟨_, rfl⟩
    · rw [acquire_modCachePath hsafe, hdebug, if_neg (by simp)]
      exact ⟨_, rfl⟩
    · rw [hresolve, hdir, List.append_assoc]
    · rw [resolve_append hstatsName, hdir, List.append_assoc]
    · rw [bytesOf_modFilename, hdebug, if_neg (by simp)]
      exact paired c.cleanup (modName_ne_nil _) (dot_notMem_modName hsafe)

/-- A cache directory, a compiler and a module. -/
def plainEntry (generateDebugInfo : Bool) : EntryArgs where
  triple := "x86_64-unknown-linux-gnu"
  debugAssertions := false
  compName := "cranelift"
  compVer := "0.12.0"
  compMtime := ""
  modHash := "n4bQgYhMfWWaL-qgxVrQFaO_TxsrC4Is0V1sFbDwCgg"
  generateDebugInfo := generateDebugInfo

theorem urlSafe_plainEntry (generateDebugInfo : Bool) : UrlSafe (plainEntry generateDebugInfo).modHash :=
  fun b hb => of_decide_eq_true (List.all_eq_true.mp (by decide : (bytesOf
    "n4bQgYhMfWWaL-qgxVrQFaO_TxsrC4Is0V1sFbDwCgg").all (fun b => decide ((48 ≤ b ∧ b ≤ 57) ∨
      (65 ≤ b ∧ b ≤ 90) ∨ (97 ≤ b ∧ b ≤ 122) ∨ b = 45 ∨ b = 95)) = true) b hb)

theorem seventy_le : (70 : UInt8).toNat ≤ 100 := by decide

/-- The default configuration, of a cache in the directory `/c`. -/
def plainConfig : WorkerConfig where
  directory := [bytesOf "c"]
  cleanup := {
    cleanupInterval := 3600
    optimizingCompressionTaskTimeout := 1800
    allowedClockDriftForFilesFromFuture := 86400
    fileCountSoftLimit := 65536
    filesTotalSizeSoftLimit := 536870912
    fileCountLimitPercentIfDeleting := 70
    filesTotalSizeLimitPercentIfDeleting := 70
    fileCountLimitPercentIfDeleting_le := seventy_le
    filesTotalSizeLimitPercentIfDeleting_le := seventy_le }
  baselineCompressionLevel := 3
  optimizedCompressionLevel := 20
  optimizedCompressionUsageCounterThreshold := 256

theorem agrees_plainEntry : UrlSafe (plainEntry false).modHash ∧ Agrees plainConfig (plainEntry false) :=
  ⟨urlSafe_plainEntry false, (agrees_iff (urlSafe_plainEntry false)).mpr ⟨rfl, _, _,
    resolve_modCacheDir (by decide) (by decide) (by decide) (by decide) (by decide)⟩⟩

/-- The worker panics when it acquires the lock for a module with debug information. -/
theorem not_agrees_debug : ¬ ∀ c a, UrlSafe a.modHash → Agrees c a := by
  intro hall
  obtain ⟨r, hr⟩ := (hall plainConfig (plainEntry true) (urlSafe_plainEntry true)).lock 0 0 ⟨0, none, "", false⟩
  rw [acquire_modCachePath (urlSafe_plainEntry true)] at hr
  cases hr

end

end Wasmtime.Cache
