import Mathlib

/-!
# What the cache directory holds

Model of `WorkerThread::list_cache_contents` (`wasmtime-environ/src/cache/worker.rs`): the walk through the
three levels of the cache directory that tells module files from what is to be deleted.

* A name is the bytes of an `OsStr`; `fileStem`, `extension` and `withExtension` are those of a `Path` that ends
  in the name. A path is the names below the cache directory.
* The names of a directory are distinct; entries that cannot be read have no name and are ignored.
* Times are nanoseconds. `clock` is when a lock is looked at, by its path.
* The `HashMap` of module and statistics files is iterated in the order of the directory, which is any order.

Result: `list_perm`, the entries do not depend on the order in which directories are listed.
-/

namespace Wasmtime.Cache

/-! ## Names -/

/-- The bytes of an `OsStr`. -/
abbrev Name := List UInt8

instance instLawfulBEqName : LawfulBEq Name := inferInstance

/-- The names below the cache directory. -/
abbrev Path := List Name

/-- The position of the last dot that is not the first byte. -/
def lastDot (name : Name) : Option Nat :=
  (List.range name.length).reverse.find? fun i => decide (0 < i) && name[i]? == some 0x2e

/-- `Path::file_stem`; names of entries are never `..`. -/
def fileStem (name : Name) : Name :=
  match lastDot name with
  | some i => name.take i
  | none => name

/-- `Path::extension`. -/
def extension (name : Name) : Option Name := (lastDot name).map fun i => name.drop (i + 1)

/-- `Path::with_extension`. -/
def withExtension (name ext : Name) : Name :=
  if ext = [] then fileStem name else fileStem name ++ 0x2e :: ext

/-- `".cleanup"`. -/
def cleanup : Name := ".cleanup".toByteArray.data.toList

/-- `"stats"`. -/
def stats : Name := "stats".toByteArray.data.toList

/-- `ext_str.starts_with("wip-")` of an extension that is UTF-8. -/
def isWip (ext : Name) : Bool :=
  (String.fromUTF8? ⟨ext.toArray⟩).isSome && "wip-".toByteArray.data.toList.isPrefixOf ext

/-! ## The directory -/

/-- What `metadata` gives; `modified` may fail. -/
structure Metadata where
  modified : Option Int
  len : UInt64
  deriving DecidableEq

/-- A directory with all there is below it. -/
inductive Node where
  | file (metadata : Option Metadata)
  /-- `read_dir` fails. -/
  | unreadable
  | dir (names : List Name) (distinct : names.Nodup) (child : Name → Node)

namespace Node

/-- `Path::is_dir`. -/
def isDir : Node → Bool
  | file _ => false
  | _ => true

/-- `DirEntry::metadata`, of a file. -/
def metadata : Node → Option Metadata
  | file metadata => metadata
  | _ => none

/-- The same contents, listed in another order. -/
inductive Relisted : Node → Node → Prop
  | file (metadata : Option Metadata) : Relisted (file metadata) (file metadata)
  | unreadable : Relisted unreadable unreadable
  | dir {names names' : List Name} {distinct : names.Nodup} {distinct' : names'.Nodup}
      {child child' : Name → Node} (hnames : names.Perm names')
      (hchild : ∀ name, Relisted (child name) (child' name)) :
      Relisted (dir names distinct child) (dir names' distinct' child')

end Node

/-- `CacheConfig`, as far as the cleanup reads it, validated: percentages are at most 100. -/
structure CacheConfig where
  cleanupInterval : Nat
  optimizingCompressionTaskTimeout : Nat
  allowedClockDriftForFilesFromFuture : Nat
  fileCountSoftLimit : UInt64
  filesTotalSizeSoftLimit : UInt64
  fileCountLimitPercentIfDeleting : UInt8
  filesTotalSizeLimitPercentIfDeleting : UInt8
  fileCountLimitPercentIfDeleting_le : fileCountLimitPercentIfDeleting.toNat ≤ 100
  filesTotalSizeLimitPercentIfDeleting_le : filesTotalSizeLimitPercentIfDeleting.toNat ≤ 100

/-- `CacheEntry`. -/
inductive CacheEntry where
  | recognized (path : Path) (mtime : Int) (size : UInt64)
  | unrecognized (path : Path) (isDir : Bool)
  deriving DecidableEq

/-- `is_fs_lock_expired`. -/
def isFsLockExpired (now : Int) (metadata : Option Metadata) (threshold allowedFutureDrift : Nat) :
    Bool :=
  match metadata.bind Metadata.modified with
  -- treat as expired, so this task will not be starved
  | none => true
  | some mtime =>
    if mtime ≤ now then decide (now - mtime ≥ threshold)
    -- the lock is expired if the time is too far in the future
    else decide (mtime - now > allowedFutureDrift)

/-! ## The walk -/

section

variable (c : CacheConfig) (clock : Path → Int) (path : Path)

/-- A file above the level of the modules; `top` is level 0. -/
def outerFile (top : Bool) (name : Name) (metadata : Option Metadata) : List CacheEntry :=
  -- skip active lock
  if top ∧ fileStem name = cleanup ∧ (extension name).isSome ∧
      ¬ isFsLockExpired (clock (path ++ [name])) metadata c.cleanupInterval
        c.allowedClockDriftForFilesFromFuture then []
  else [.unrecognized (path ++ [name]) false]

/-- A name of a module or statistics file. -/
def isCacheFile (child : Name → Node) (name : Name) : Bool :=
  !(child name).isDir && (extension name == none || extension name == some stats)

/-- What is neither a module nor a statistics file. -/
def otherEntry (child : Name → Node) (name : Name) : List CacheEntry :=
  if (child name).isDir then [.unrecognized (path ++ [name]) true]
  else if isCacheFile child name then []
  else if (extension name).any isWip ∧
      ¬ isFsLockExpired (clock (path ++ [name])) (child name).metadata c.optimizingCompressionTaskTimeout
        c.allowedClockDriftForFilesFromFuture then []
  else [.unrecognized (path ++ [name]) false]

/-- A module with its statistics. -/
def moduleWithStats (child : Name → Node) (mod stats : Name) : List CacheEntry :=
  match (child mod).metadata with
  | none => [.unrecognized (path ++ [stats]) false, .unrecognized (path ++ [mod]) false]
  | some modMetadata =>
    match (child stats).metadata.bind Metadata.modified with
    | some mtime => [.recognized (path ++ [mod]) mtime modMetadata.len]
    | none =>
      match modMetadata.modified with
      | some mtime =>
        [.unrecognized (path ++ [stats]) false, .recognized (path ++ [mod]) mtime modMetadata.len]
      | none => [.unrecognized (path ++ [stats]) false, .unrecognized (path ++ [stats]) false,
          .unrecognized (path ++ [mod]) false]

/-- A module without statistics. -/
def moduleAlone (child : Name → Node) (mod : Name) : List CacheEntry :=
  match (child mod).metadata with
  | none => [.unrecognized (path ++ [mod]) false]
  | some modMetadata =>
    match modMetadata.modified with
    | none => [.unrecognized (path ++ [mod]) false]
    | some mtime => [.recognized (path ++ [mod]) mtime modMetadata.len]

/-- One round of the loop that associates modules with their statistics. -/
def cacheFile (child : Name → Node) (cacheFiles : List Name) (name : Name) : List CacheEntry :=
  match extension name with
  | some _ =>
    -- was or will be handled with its module, unless it is an orphan
    if withExtension name [] ∈ cacheFiles then [] else [.unrecognized (path ++ [name]) false]
  | none =>
    if withExtension name stats ∈ cacheFiles then moduleWithStats path child name (withExtension name stats)
    else moduleAlone path child name

/-- `enter_dir`; the level is 2 less the argument. -/
def enterDir : Nat → Path → Node → List CacheEntry
  | 0, path, .dir names _ child =>
    names.flatMap (otherEntry c clock path child) ++
      (names.filter (isCacheFile child)).flatMap
        (cacheFile path child (names.filter (isCacheFile child)))
  | n + 1, path, .dir names _ child =>
    names.flatMap fun name =>
      if (child name).isDir then enterDir n (path ++ [name]) (child name)
      else outerFile c clock path (n == 1) name (child name).metadata
  -- failed to list the directory
  | _, path, _ => [.unrecognized path true]

/-- `WorkerThread::list_cache_contents`. -/
def listCacheContents (directory : Node) : List CacheEntry := enterDir c clock 2 [] directory

end

/-! ## Orders of listing -/

section

variable {c : CacheConfig} {clock : Path → Int} {path : Path} {t t' : Node}

theorem Node.Relisted.isDir (h : t.Relisted t') : t.isDir = t'.isDir := by
  cases h <;> rfl

theorem Node.Relisted.metadata (h : t.Relisted t') : t.metadata = t'.metadata := by
  cases h <;> rfl

theorem flatMap_perm {α β : Type} {l l' : List α} {f g : α → List β} (h : l.Perm l')
    (hfg : ∀ a, (f a).Perm (g a)) : (l.flatMap f).Perm (l'.flatMap g) :=
  (List.Perm.flatMap_left l fun a _ => hfg a).trans (h.flatMap_right g)

section

variable {child child' : Name → Node} (hchild : ∀ name, (child name).Relisted (child' name))
include hchild

theorem isCacheFile_relisted : isCacheFile child = isCacheFile child' := by
  funext name
  rw [isCacheFile, isCacheFile, (hchild name).isDir]

theorem otherEntry_relisted (name : Name) :
    otherEntry c clock path child name = otherEntry c clock path child' name := by
  rw [otherEntry, otherEntry, (hchild name).isDir, (hchild name).metadata, isCacheFile_relisted hchild]

theorem cacheFile_relisted {files files' : List Name} (h : files.Perm files') (name : Name) :
    cacheFile path child files name = cacheFile path child' files' name := by
  have hwith (mod stats : Name) :
      moduleWithStats path child mod stats = moduleWithStats path child' mod stats := by
    rw [moduleWithStats, moduleWithStats, (hchild mod).metadata, (hchild stats).metadata]
  have halone (mod : Name) : moduleAlone path child mod = moduleAlone path child' mod := by
    rw [moduleAlone, moduleAlone, (hchild mod).metadata]
  simp only [cacheFile, h.mem_iff, hwith, halone]

end

theorem enterDir_perm {n : Nat} (h : t.Relisted t') :
    (enterDir c clock n path t).Perm (enterDir c clock n path t') := by
  induction n generalizing path t t' with
  | zero =>
    cases h with
    | file _ => exact .refl _
    | unreadable => exact .refl _
    | @dir names names' _ _ child child' hnames hchild =>
      have hfiles : (names.filter (isCacheFile child)).Perm (names'.filter (isCacheFile child')) := by
        rw [isCacheFile_relisted hchild]
        exact hnames.filter _
      rw [enterDir, enterDir]
      refine List.Perm.append ?_ ?_
      · exact flatMap_perm hnames fun name => .of_eq (otherEntry_relisted hchild name)
      · exact flatMap_perm hfiles fun name => .of_eq (cacheFile_relisted hchild hfiles name)
  | succ n ih =>
    cases h with
    | file _ => exact .refl _
    | unreadable => exact .refl _
    | dir hnames hchild =>
      rw [enterDir, enterDir]
      refine flatMap_perm hnames fun name => ?_
      rw [(hchild name).isDir, (hchild name).metadata]
      split
      · exact ih (hchild name)
      · exact .refl _

/-- The order in which directories are listed only orders the entries. -/
theorem list_perm (h : t.Relisted t') :
    (listCacheContents c clock t).Perm (listCacheContents c clock t') := enterDir_perm h

end

end Wasmtime.Cache
