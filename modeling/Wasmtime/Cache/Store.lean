import Mathlib
import Wasmtime.Cache.Locks
import Wasmtime.Lib.Runs

/-!
# The files of a cache directory

What the processes that share a cache do to the files of one directory of modules: `get_data`, `update_data`
and `fs_write_atomic` (`wasmtime-environ/src/cache.rs`), and `acquire_task_fs_lock`, `write_stats_file`, the
recompression of `handle_on_cache_get` and the removals of `handle_on_cache_update`
(`wasmtime-environ/src/cache/worker.rs`).

* A job is one such call. It goes on by one system call at a time (`advance`), with steps of the others in
  between, and can end after any of them, with an error or with its process (`Event.fail`).
* Files are apart from names: a job keeps the file that it opened when the name is given to another one.
  `fs::rename`, `fs::write` and the cleanup go by the name.
* `made`, the file of the job's own lock, and the files in `doomed` are only for the statements: no step
  goes by them.
* A cleanup looks at one name at a time, and removes names that it has looked at, at any time later. Which
  modules it removes is open here. The directory itself can be read.
* `acquire_task_fs_lock` may give up because of another lock, which is a failure of the job here.

A job whose lock expires while it goes on can rename the unfinished file of another job to the name of the
module (`unfinished_is_read`).

Results: `not_skips_of_mem` (the listing of the cleanup takes no lock that `list` skips), `step_inv` (what a
careful step keeps), `published_stays` (a file that was given its name is never written to again), `locks_held`
(a lock is of one job, and stays), and the headline `getData_stored`.
-/

namespace Wasmtime.Cache.Store

open Locks (Pid)

/-! ## Jobs -/

/-- A name that the cleanup takes for a lock. -/
def isLock (name : Name) : Bool := (extension name).any isWip

/-- `bincode` and `zstd`. -/
structure Codec (Data : Type) where
  serialize : Data → Option (List UInt8)
  deserialize : List UInt8 → Option Data
  encodeAll : List UInt8 → Int → Option (List UInt8)
  decodeAll : List UInt8 → Option (List UInt8)
  deserialize_serialize : ∀ {data bytes}, serialize data = some bytes → deserialize bytes = some data
  decodeAll_encodeAll : ∀ {bytes level compressed},
    encodeAll bytes level = some compressed → decodeAll compressed = some bytes

/-- What a job does with the file of its name. -/
inductive Work (Data : Type) where
  | updateData (data : Data) (baselineCompressionLevel : Int)
  | writeStats (serialized : List UInt8)
  /-- The recompression, from `acquire_task_fs_lock` to the renaming. -/
  | recompress (pid : Pid) (optimizedCompressionLevel : Int)
  /-- `fs::read`. -/
  | read

namespace Work

variable {Data : Type}

/-- The extension of the lock; a reader has none. -/
def lockExtension : Work Data → String
  | updateData _ _ => "wip-atomic-write-mod"
  | writeStats _ => "wip-atomic-write-stats"
  | recompress pid _ => "wip-" ++ pid.text
  | read => ""

def isRead : Work Data → Bool
  | read => true
  | _ => false

/-- The names that the callers give for it. -/
def Names (name : Name) : Work Data → Prop
  | updateData _ _ => extension name = none ∨ extension name = some (bytesOf "d")
  | writeStats _ => extension name = some stats
  | recompress _ _ => extension name = none
  | read => isLock name = false

end Work

/-- A job: its file and what it does with it. -/
structure Task (Data : Type) where
  name : Name
  work : Work Data
  name_ne : name ≠ []
  names : work.Names name

/-- `lock_path`. -/
def Task.lockPath {Data : Type} (t : Task Data) : Name := withExtension t.name (bytesOf t.work.lockExtension)

/-- How far a job is. -/
inductive Phase where
  | idle
  /-- The recompression has created its lock. -/
  | locked
  /-- The file is open to be read. -/
  | reading (file : Nat)
  /-- What is to be written for the module. -/
  | ready (recompressed : List UInt8)
  /-- The file is open to be written, with what is left of the contents. -/
  | writing (file : Nat) (left : List UInt8)
  /-- The file has its name. -/
  | done
  | failed
  /-- What was read. -/
  | got (bytes : List UInt8)
  deriving DecidableEq

/-- The job has a lock, or a file open. -/
def Phase.isActive : Phase → Bool
  | locked | reading _ | ready _ | writing _ _ => true
  | _ => false

/-! ## Steps -/

structure File where
  data : List UInt8
  mtime : Int
  deriving DecidableEq

/-- The directory, the files and the jobs. -/
structure State (J : Type) where
  now : Int
  dir : Name → Option Nat
  files : Nat → File
  next : Nat
  phase : J → Phase
  made : J → Nat
  doomed : List (Name × Nat)

inductive Event (J : Type) where
  /-- The job's next system call; how much of its bytes a `write` takes. -/
  | next (job : J) (amount : Nat)
  | fail (job : J)
  | renameFails (job : J)
  /-- A cleanup looks at a name. -/
  | list (name : Name) (clock : Int)
  /-- A cleanup removes a name, having listed a file there. -/
  | unlink (name : Name) (file : Nat)
  | tick (nanos : Nat)

/-- An empty directory before any job. -/
def start (J : Type) (now : Int) : State J where
  now := now
  dir := fun _ => none
  files := fun _ => ⟨[], now⟩
  next := 0
  phase := fun _ => .idle
  made := fun _ => 0
  doomed := []

namespace State

variable {J : Type} [DecidableEq J] (s : State J) (j : J)

def become (p : Phase) : State J := { s with phase := Function.update s.phase j p }

/-- A new, empty file. -/
def create (name : Name) (p : Phase) : State J where
  now := s.now
  dir := Function.update s.dir name (some s.next)
  files := Function.update s.files s.next ⟨[], s.now⟩
  next := s.next + 1
  phase := Function.update s.phase j p
  made := Function.update s.made j s.next
  doomed := s.doomed

/-- The file's contents are now `data`, and `left` is still to be written. -/
def overwrite (file : Nat) (data left : List UInt8) : State J :=
  { s with
    files := Function.update s.files file ⟨data, s.now⟩
    phase := Function.update s.phase j (.writing file left) }

def remove (name : Name) : State J := { s with dir := Function.update s.dir name none }

def publish (name : Name) (file : Nat) : State J := { s with dir := Function.update s.dir name (some file) }

def doom (name : Name) (file : Nat) : State J := { s with doomed := (name, file) :: s.doomed }

end State

section

variable {J : Type} [DecidableEq J] {Data : Type} (codec : Codec Data) (task : J → Task Data) (c : CacheConfig)

/-- What `fs_write_atomic` is given to write. -/
def contents : Work Data → Option (List UInt8)
  | .updateData data level => (codec.serialize data).bind fun bytes => codec.encodeAll bytes level
  | .writeStats serialized => some serialized
  | _ => none

/-- What the recompression makes of the bytes. -/
def recompressed (bytes : List UInt8) : Work Data → Option (List UInt8)
  | .recompress _ level => (codec.decodeAll bytes).bind fun bytes => codec.encodeAll bytes level
  | _ => none

/-- `OpenOptions::create_new` of the lock. -/
def createNew (s : State J) (j : J) (p : Phase) : State J :=
  if (s.dir (task j).lockPath).isNone then s.create j (task j).lockPath p else s.become j .failed

/-- `fs::read` opens the file. -/
def openFile (s : State J) (j : J) : State J :=
  match s.dir (task j).name with
  | some file => s.become j (.reading file)
  | none => s.become j .failed

/-- A job begins. -/
def begin (s : State J) (j : J) : State J :=
  match (task j).work with
  | .read => openFile task s j
  | .recompress _ _ => createNew task s j .locked
  | work =>
    match contents codec work with
    | some contents => createNew task s j (.writing s.next contents)
    | none => s.become j .failed

/-- The file is read to its end. -/
def finishRead (s : State J) (j : J) (file : Nat) : State J :=
  if (task j).work.isRead then s.become j (.got (s.files file).data)
  else
    match recompressed codec (s.files file).data (task j).work with
    | some bytes => s.become j (.ready bytes)
    | none => s.become j .failed

/-- `fs::write` opens the lock: it empties the file, or makes one. -/
def reopen (s : State J) (j : J) (bytes : List UInt8) : State J :=
  match s.dir (task j).lockPath with
  | some file => s.overwrite j file [] bytes
  | none => s.create j (task j).lockPath (.writing s.next bytes)

/-- `fs::rename` of the lock to the name. -/
def rename (s : State J) (j : J) : State J :=
  match s.dir (task j).lockPath with
  | some file => ((s.become j .done).remove (task j).lockPath).publish (task j).name file
  | none => s.become j .failed

/-- The job's next system call. -/
def advance (s : State J) (j : J) (amount : Nat) : State J :=
  match s.phase j with
  | .idle => begin codec task s j
  | .locked => openFile task s j
  | .reading file => finishRead codec task s j file
  | .ready bytes => reopen task s j bytes
  | .writing _ [] => rename task s j
  | .writing file (b :: left) =>
    s.overwrite j file ((s.files file).data ++ (b :: left).take amount) ((b :: left).drop amount)
  | _ => s

/-- `fs::rename` fails; the recompression then removes its lock. -/
def renameFails (s : State J) (j : J) : State J :=
  match s.phase j, (task j).work with
  | .writing _ [], .recompress _ _ => (s.become j .failed).remove (task j).lockPath
  | .writing _ [], _ => s.become j .failed
  | _, _ => s

/-- `DirEntry::metadata` of a file. -/
def File.metadata (f : File) : Metadata := ⟨some f.mtime, UInt64.ofNat f.data.length⟩

/-- Active locks are skipped. -/
def skips (name : Name) (f : File) (clock : Int) : Bool :=
  isLock name && !isFsLockExpired clock (some f.metadata) c.optimizingCompressionTaskTimeout
    c.allowedClockDriftForFilesFromFuture

/-- A cleanup looks at a name. -/
def list (s : State J) (name : Name) (clock : Int) : State J :=
  match s.dir name with
  | some file => if skips c name (s.files file) clock then s else s.doom name file
  | none => s

def step (s : State J) : Event J → State J
  | .next j amount => advance codec task s j amount
  | .fail j => if (s.phase j).isActive then s.become j .failed else s
  | .renameFails j => renameFails task s j
  | .list name clock => list c s name clock
  | .unlink name file => if (name, file) ∈ s.doomed then s.remove name else s
  | .tick nanos => { s with now := s.now + nanos }

end

/-! ## What careful steps keep -/

section

variable {J : Type} {Data : Type} (codec : Codec Data) (task : J → Task Data)

/-- The job has a lock. -/
def Holding (s : State J) (j : J) : Prop := (task j).work.isRead = false ∧ (s.phase j).isActive = true

/-- No job has the file as its lock, and none ever will. -/
def Settled (s : State J) (file : Nat) : Prop := file < s.next ∧ ∀ j, Holding task s j → s.made j ≠ file

/-- The bytes were written for the name, in whole, or are recompressed from such. -/
inductive Stored (s : State J) (name : Name) : List UInt8 → Prop
  | written {j : J} {bytes : List UInt8} (hname : (task j).name = name)
      (hcontents : contents codec (task j).work = some bytes) (hdone : s.phase j = .done) : Stored s name bytes
  | recompressed {j : J} {bytes bytes' : List UInt8} (hstored : Stored s name bytes)
      (hname : (task j).name = name) (hbytes : recompressed codec bytes (task j).work = some bytes') :
      Stored s name bytes'

/-- What the job writes when it writes these bytes in all. -/
def Target (s : State J) (j : J) (bytes : List UInt8) : Prop :=
  match contents codec (task j).work with
  | some contents => bytes = contents
  | none => Stored codec task s (task j).name bytes

/-- What holds in a phase. -/
def Fine (s : State J) (j : J) : Phase → Prop
  | .locked => (task j).work.isRead = false
  | .reading file => Settled task s file ∧ Stored codec task s (task j).name (s.files file).data
  | .ready bytes => (task j).work.isRead = false ∧ Target codec task s j bytes
  | .writing file left => (task j).work.isRead = false ∧ file = s.made j ∧
      Target codec task s j ((s.files file).data ++ left)
  | .got bytes => Stored codec task s (task j).name bytes
  | _ => True

instance (s : State J) (j : J) : Decidable (Holding task s j) := inferInstanceAs (Decidable (_ ∧ _))

/-- A job that has its lock finds its own file there, and no other name has an unfinished file. -/
structure Inv (s : State J) : Prop where
  dir_lt : ∀ name file, s.dir name = some file → file < s.next
  dir_inj : ∀ name name' file, s.dir name = some file → s.dir name' = some file → name = name'
  holds : ∀ j, Holding task s j → s.dir (task j).lockPath = some (s.made j)
  apart : ∀ j j', Holding task s j → Holding task s j' → s.made j = s.made j' → j = j'
  mtime_le : ∀ file < s.next, (s.files file).mtime ≤ s.now
  doomed : ∀ p ∈ s.doomed, Settled task s p.2
  published : ∀ name file, s.dir name = some file → isLock name = false →
    Stored codec task s name (s.files file).data
  fine : ∀ j, Fine codec task s j (s.phase j)

/-- What a step leaves as it is. -/
structure Keeps (s s' : State J) : Prop where
  done : ∀ j, s.phase j = .done → s'.phase j = .done
  settled : ∀ file, Settled task s file → Settled task s' file ∧ s'.files file = s.files file

/-- The clock of a cleanup is at most `ahead` before the file system's and at most the allowed drift behind it,
no job leaves its lock for the timeout without a change, and the file that a cleanup removes is the one that it
listed. The code checks none of it. -/
def Careful (c : CacheConfig) (ahead : Nat) (s : State J) : Event J → Prop
  | .list _ clock => clock ≤ s.now + ahead ∧ s.now ≤ clock + c.allowedClockDriftForFilesFromFuture ∧
      ∀ j, Holding task s j →
        s.now - (s.files (s.made j)).mtime + ahead < c.optimizingCompressionTaskTimeout
  | .unlink name file => ∀ file', s.dir name = some file' → file' = file
  | _ => True

end

/-! ## Names of locks -/

section

variable {Data : Type}

theorem fileStem_ne_nil {name : Name} (h : name ≠ []) : fileStem name ≠ [] := by
  rw [fileStem]
  cases hdot : lastDot name with
  | none => exact h
  | some i =>
    have hi := List.find?_some hdot
    simp only [Bool.and_eq_true, decide_eq_true_eq] at hi
    simp [h, Nat.ne_of_gt hi.1]

theorem isLock_withExtension {name : Name} (hname : name ≠ []) (text : String)
    (hdot : 0x2e ∉ bytesOf ("wip-" ++ text)) : isLock (withExtension name (bytesOf ("wip-" ++ text))) = true := by
  have hwip : "wip-".toByteArray.data.toList = [119, 105, 112, 45] := by decide
  have hbytes := Locks.bytesOf_wip text
  have hutf8 : (String.fromUTF8? ⟨(bytesOf ("wip-" ++ text)).toArray⟩).isSome = true :=
    Option.isSome_iff_exists.mpr ⟨_, toStr_bytesOf _⟩
  have hne : bytesOf ("wip-" ++ text) ≠ [] := by
    rw [hbytes]
    simp
  rw [isLock, withExtension, if_neg hne, extension_append (fileStem_ne_nil hname) hdot, Option.any_some, isWip,
    hutf8, hwip, hbytes]
  rfl

theorem Task.isLock_lockPath (t : Task Data) (h : t.work.isRead = false) : isLock t.lockPath = true := by
  rw [Task.lockPath]
  cases hw : t.work with
  | updateData data level =>
    exact isLock_withExtension t.name_ne "atomic-write-mod" (by decide)
  | writeStats serialized =>
    exact isLock_withExtension t.name_ne "atomic-write-stats" (by decide)
  | recompress pid level => exact isLock_withExtension t.name_ne pid.text pid.dot_notMem
  | read =>
    rw [hw] at h
    cases h

theorem Task.isLock_name (t : Task Data) : isLock t.name = false := by
  have hnames := t.names
  cases hw : t.work with
  | updateData data level =>
    rw [hw] at hnames
    obtain hext | hext := hnames <;> rw [isLock, hext]
    · rfl
    · decide
  | writeStats serialized =>
    rw [hw] at hnames
    rw [isLock, show extension t.name = some stats from hnames]
    decide
  | recompress pid level =>
    rw [hw] at hnames
    rw [isLock, show extension t.name = none from hnames]
    rfl
  | read =>
    rw [hw] at hnames
    exact hnames

end

/-! ## What a cleanup lists -/

section

variable {c : CacheConfig} {clock : Path → Int} {path : Path} {name : Name} {f : File}

theorem skips_of_not_isLock (h : isLock name = false) (t : Int) : skips c name f t = false := by
  rw [skips, h, Bool.false_and]

theorem isLock_of_isCacheFile {child : Name → Node} (h : isCacheFile child name = true) : isLock name = false := by
  rw [isCacheFile, Bool.and_eq_true, Bool.or_eq_true, beq_iff_eq, beq_iff_eq] at h
  obtain hext | hext := h.2 <;> rw [isLock, hext]
  · rfl
  · decide

theorem isLock_stats (h : name ≠ []) : isLock (withExtension name stats) = false := by
  rw [isLock, withExtension, if_neg (by decide), extension_append (fileStem_ne_nil h) dot_notMem_stats]
  decide

/-- `list_cache_contents` lists the names of a directory of modules that `list` does not skip. -/
theorem not_skips_of_mem {names : List Name} {distinct : names.Nodup} {child : Name → Node} {file : Name → File}
    {e : CacheEntry} (hfile : ∀ name ∈ names, child name = .file (some (file name).metadata) ∧ name ≠ [])
    (he : e ∈ enterDir c clock 0 path (.dir names distinct child)) :
    ∃ name, e.path = path ++ [name] ∧ skips c name (file name) (clock e.path) = false := by
  rw [enterDir, List.mem_append, List.mem_flatMap, List.mem_flatMap] at he
  obtain ⟨name, hname, he⟩ | ⟨name, hname, he⟩ := he
  · refine ⟨name, otherEntry_path he, ?_⟩
    rw [otherEntry_path he]
    have hdir : ¬ (child name).isDir = true := by
      rw [(hfile name hname).1]
      exact Bool.false_ne_true
    rw [otherEntry, if_neg hdir, List.mem_ite_nil_left, List.mem_ite_nil_left] at he
    obtain ⟨-, hskips, -⟩ := he
    rw [(hfile name hname).1] at hskips
    rw [skips, isLock]
    simpa [Node.metadata] using hskips
  · obtain ⟨hname, hcache⟩ := List.mem_filter.mp hname
    obtain hpath | ⟨-, hpath⟩ := cacheFile_path he
    · exact ⟨name, hpath, skips_of_not_isLock (isLock_of_isCacheFile hcache) _⟩
    · exact ⟨_, hpath, skips_of_not_isLock (isLock_stats (hfile name hname).2) _⟩

end

/-! ## Changes of the state -/

namespace State

variable {J : Type} {s : State J} {j j' : J} {name name' : Name} {file file' : Nat} {p : Phase}
  {data left : List UInt8}

theorem remove_dir_eq_some (h : (s.remove name).dir name' = some file) :
    name' ≠ name ∧ s.dir name' = some file := by
  by_cases heq : name' = name
  · subst heq
    cases (Function.update_self ..).symm.trans h
  · exact ⟨heq, (Function.update_of_ne heq ..).symm.trans h⟩

theorem remove_dir_of_ne (h : name' ≠ name) : (s.remove name).dir name' = s.dir name' :=
  Function.update_of_ne h ..

theorem publish_dir_eq_some (h : (s.publish name file).dir name' = some file') :
    (name' = name ∧ file' = file) ∨ (name' ≠ name ∧ s.dir name' = some file') := by
  by_cases heq : name' = name
  · subst heq
    exact .inl ⟨rfl, Option.some.inj (h.symm.trans (Function.update_self ..))⟩
  · exact .inr ⟨heq, (Function.update_of_ne heq ..).symm.trans h⟩

variable [DecidableEq J]

@[simp] theorem become_phase_self : (s.become j p).phase j = p := Function.update_self ..

theorem become_phase_of_ne (h : j' ≠ j) : (s.become j p).phase j' = s.phase j' := Function.update_of_ne h ..

@[simp] theorem create_phase_self : (s.create j name p).phase j = p := Function.update_self ..

theorem create_phase_of_ne (h : j' ≠ j) : (s.create j name p).phase j' = s.phase j' :=
  Function.update_of_ne h ..

@[simp] theorem create_made_self : (s.create j name p).made j = s.next := Function.update_self ..

theorem create_made_of_ne (h : j' ≠ j) : (s.create j name p).made j' = s.made j' := Function.update_of_ne h ..

@[simp] theorem create_dir_self : (s.create j name p).dir name = some s.next := Function.update_self ..

theorem create_dir_of_ne (h : name' ≠ name) : (s.create j name p).dir name' = s.dir name' :=
  Function.update_of_ne h ..

@[simp] theorem create_files_self : (s.create j name p).files s.next = ⟨[], s.now⟩ := Function.update_self ..

theorem create_files_of_lt (h : file < s.next) : (s.create j name p).files file = s.files file :=
  Function.update_of_ne (Nat.ne_of_lt h) ..

@[simp] theorem overwrite_phase_self : (s.overwrite j file data left).phase j = .writing file left :=
  Function.update_self ..

theorem overwrite_phase_of_ne (h : j' ≠ j) : (s.overwrite j file data left).phase j' = s.phase j' :=
  Function.update_of_ne h ..

@[simp] theorem overwrite_files_self : (s.overwrite j file data left).files file = ⟨data, s.now⟩ :=
  Function.update_self ..

theorem overwrite_files_of_ne (h : file' ≠ file) :
    (s.overwrite j file data left).files file' = s.files file' := Function.update_of_ne h ..

end State

section

variable {J : Type} {Data : Type} {codec : Codec Data} {task : J → Task Data} {s s' : State J} {j : J}
  {name : Name} {file : Nat} {p : Phase}

theorem Stored.mono (hdone : ∀ j, s.phase j = .done → s'.phase j = .done) {bytes : List UInt8}
    (h : Stored codec task s name bytes) : Stored codec task s' name bytes := by
  induction h with
  | written hname hcontents hd => exact .written hname hcontents (hdone _ hd)
  | recompressed _ hname hbytes ih => exact .recompressed ih hname hbytes

theorem Target.mono (hdone : ∀ j, s.phase j = .done → s'.phase j = .done) {bytes : List UInt8}
    (h : Target codec task s j bytes) : Target codec task s' j bytes := by
  unfold Target at h ⊢
  split at h
  · exact h
  · exact h.mono hdone

/-- What holds of a job goes on holding, where its own lock is as it was. -/
theorem Fine.mono (hkeeps : Keeps task s s') (hmade : s'.made j = s.made j)
    (hfile : p.isActive = true → (task j).work.isRead = false → s'.files (s.made j) = s.files (s.made j))
    (h : Fine codec task s j p) : Fine codec task s' j p := by
  cases p with
  | reading file =>
    obtain ⟨hsettled, hsame⟩ := hkeeps.settled _ h.1
    refine ⟨hsettled, ?_⟩
    rw [hsame]
    exact h.2.mono hkeeps.done
  | ready bytes => exact ⟨h.1, h.2.mono hkeeps.done⟩
  | writing file left =>
    obtain ⟨hread, rfl, htarget⟩ := h
    refine ⟨hread, hmade.symm, ?_⟩
    rw [hfile rfl hread]
    exact htarget.mono hkeeps.done
  | got bytes => exact Stored.mono hkeeps.done h
  | idle => trivial
  | locked => exact h
  | done => trivial
  | failed => trivial

/-- A file with a name that is no lock is settled. -/
theorem Inv.settled (h : Inv codec task s) (hdir : s.dir name = some file) (hname : isLock name = false) :
    Settled task s file := by
  refine ⟨h.dir_lt _ _ hdir, fun j hj hmade => ?_⟩
  have hlock := h.dir_inj _ _ _ (hmade ▸ h.holds j hj) hdir
  rw [← hlock, (task j).isLock_lockPath hj.1] at hname
  cases hname

/-- No two jobs have one lock. -/
theorem Inv.exclusive (h : Inv codec task s) {j j' : J} (hj : Holding task s j) (hj' : Holding task s j')
    (hlock : (task j).lockPath = (task j').lockPath) : j = j' := by
  refine h.apart j j' hj hj' (Option.some.inj ?_)
  rw [← h.holds j hj, ← h.holds j' hj', hlock]

variable [DecidableEq J]

/-- A job goes on with what it has, or ends. -/
theorem Inv.become (h : Inv codec task s) (hdone : s.phase j ≠ .done)
    (hactive : p.isActive = true → (task j).work.isRead = false → (s.phase j).isActive = true)
    (hfine : Fine codec task s j p) : Inv codec task (s.become j p) ∧ Keeps task s (s.become j p) := by
  have hholding : ∀ j', Holding task (s.become j p) j' → Holding task s j' := by
    rintro j' ⟨hread, hj'⟩
    refine ⟨hread, ?_⟩
    by_cases heq : j' = j
    · subst heq
      rw [State.become_phase_self] at hj'
      exact hactive hj' hread
    · rwa [State.become_phase_of_ne heq] at hj'
  have hsettled : ∀ file, Settled task s file → Settled task (s.become j p) file :=
    fun file hs => ⟨hs.1, fun j' hj' => hs.2 j' (hholding j' hj')⟩
  have hkeeps : Keeps task s (s.become j p) := by
    refine ⟨fun j' hj' => ?_, fun file hs => ⟨hsettled file hs, rfl⟩⟩
    have hne : j' ≠ j := by
      rintro rfl
      exact hdone hj'
    rw [State.become_phase_of_ne hne, hj']
  refine ⟨⟨h.dir_lt, h.dir_inj, fun j' hj' => h.holds j' (hholding j' hj'),
    fun j₁ j₂ h₁ h₂ => h.apart j₁ j₂ (hholding j₁ h₁) (hholding j₂ h₂), h.mtime_le,
    fun q hq => hsettled _ (h.doomed q hq), fun n f hn hl => (h.published n f hn hl).mono hkeeps.done,
    fun j' => ?_⟩, hkeeps⟩
  by_cases heq : j' = j
  · subst heq
    rw [State.become_phase_self]
    exact hfine.mono hkeeps rfl fun _ _ => rfl
  · rw [State.become_phase_of_ne heq]
    exact (h.fine j').mono hkeeps rfl fun _ _ => rfl

/-- A job makes its lock. -/
theorem Inv.create (h : Inv codec task s) (hread : (task j).work.isRead = false) (hdone : s.phase j ≠ .done)
    (hnew : s.dir (task j).lockPath = none)
    (hp : p = .locked ∨ ∃ bytes, p = .writing s.next bytes ∧ Target codec task s j bytes) :
    Inv codec task (s.create j (task j).lockPath p) ∧ Keeps task s (s.create j (task j).lockPath p) := by
  have hothers : ∀ j', j' ≠ j → Holding task (s.create j (task j).lockPath p) j' → Holding task s j' := by
    rintro j' hne ⟨hread', hj'⟩
    rw [State.create_phase_of_ne hne] at hj'
    exact ⟨hread', hj'⟩
  have hmade_lt : ∀ j', Holding task s j' → s.made j' < s.next :=
    fun j' hj' => h.dir_lt _ _ (h.holds j' hj')
  have hkeeps : Keeps task s (s.create j (task j).lockPath p) := by
    refine ⟨fun j' hj' => ?_, fun file hs => ⟨⟨Nat.lt_succ_of_lt hs.1, fun j' hj' => ?_⟩,
      State.create_files_of_lt hs.1⟩⟩
    · have hne : j' ≠ j := by
        rintro rfl
        exact hdone hj'
      rw [State.create_phase_of_ne hne, hj']
    · by_cases heq : j' = j
      · subst heq
        rw [State.create_made_self]
        exact Nat.ne_of_gt hs.1
      · rw [State.create_made_of_ne heq]
        exact hs.2 j' (hothers j' heq hj')
  have hdir : ∀ n f, (s.create j (task j).lockPath p).dir n = some f →
      (n = (task j).lockPath ∧ f = s.next) ∨ (n ≠ (task j).lockPath ∧ s.dir n = some f) := by
    intro n f hn
    by_cases heq : n = (task j).lockPath
    · subst heq
      rw [State.create_dir_self] at hn
      exact .inl ⟨rfl, (Option.some.inj hn).symm⟩
    · rw [State.create_dir_of_ne heq] at hn
      exact .inr ⟨heq, hn⟩
  refine ⟨⟨?_, ?_, ?_, ?_, ?_, ?_, ?_, ?_⟩, hkeeps⟩
  · intro n f hn
    obtain ⟨-, rfl⟩ | ⟨-, hn⟩ := hdir n f hn
    · exact Nat.lt_succ_self _
    · exact Nat.lt_succ_of_lt (h.dir_lt n f hn)
  · intro n n' f hn hn'
    obtain ⟨rfl, rfl⟩ | ⟨hne, hn⟩ := hdir n f hn
    · obtain ⟨rfl, -⟩ | ⟨-, hn'⟩ := hdir n' _ hn'
      · rfl
      · exact absurd (h.dir_lt _ _ hn') (Nat.lt_irrefl _)
    · obtain ⟨-, rfl⟩ | ⟨-, hn'⟩ := hdir n' f hn'
      · exact absurd (h.dir_lt _ _ hn) (Nat.lt_irrefl _)
      · exact h.dir_inj n n' f hn hn'
  · intro j' hj'
    by_cases heq : j' = j
    · subst heq
      rw [State.create_made_self, State.create_dir_self]
    · have hold := h.holds j' (hothers j' heq hj')
      have hne : (task j').lockPath ≠ (task j).lockPath := by
        intro hlock
        rw [hlock, hnew] at hold
        cases hold
      rw [State.create_made_of_ne heq, State.create_dir_of_ne hne]
      exact hold
  · intro j₁ j₂ h₁ h₂ heq
    by_cases he₁ : j₁ = j <;> by_cases he₂ : j₂ = j
    · rw [he₁, he₂]
    · rw [he₁, State.create_made_self, State.create_made_of_ne he₂] at heq
      exact absurd heq.symm (Nat.ne_of_lt (hmade_lt j₂ (hothers j₂ he₂ h₂)))
    · rw [he₂, State.create_made_self, State.create_made_of_ne he₁] at heq
      exact absurd heq (Nat.ne_of_lt (hmade_lt j₁ (hothers j₁ he₁ h₁)))
    · rw [State.create_made_of_ne he₁, State.create_made_of_ne he₂] at heq
      exact h.apart j₁ j₂ (hothers j₁ he₁ h₁) (hothers j₂ he₂ h₂) heq
  · intro f hf
    by_cases heq : f = s.next
    · subst heq
      rw [State.create_files_self]
      exact le_rfl
    · have hlt : f < s.next := Nat.lt_of_le_of_ne (Nat.lt_succ_iff.mp hf) heq
      rw [State.create_files_of_lt hlt]
      exact h.mtime_le f hlt
  · exact fun q hq => (hkeeps.settled _ (h.doomed q hq)).1
  · intro n f hn hl
    obtain ⟨rfl, -⟩ | ⟨-, hn⟩ := hdir n f hn
    · rw [(task j).isLock_lockPath hread] at hl
      cases hl
    · rw [State.create_files_of_lt (h.dir_lt n f hn)]
      exact (h.published n f hn hl).mono hkeeps.done
  · intro j'
    by_cases heq : j' = j
    · subst heq
      rw [State.create_phase_self]
      obtain rfl | ⟨bytes, rfl, htarget⟩ := hp
      · exact hread
      · refine ⟨hread, State.create_made_self.symm, ?_⟩
        rw [State.create_files_self, List.nil_append]
        exact htarget.mono hkeeps.done
    · rw [State.create_phase_of_ne heq]
      exact (h.fine j').mono hkeeps (State.create_made_of_ne heq) fun ha hr =>
        State.create_files_of_lt (hmade_lt j' ⟨hr, ha⟩)

/-- A job writes to its own file. -/
theorem Inv.overwrite (h : Inv codec task s) (hj : Holding task s j) {data left : List UInt8}
    (htarget : Target codec task s j (data ++ left)) :
    Inv codec task (s.overwrite j (s.made j) data left) ∧ Keeps task s (s.overwrite j (s.made j) data left) := by
  have hholding : ∀ j', Holding task (s.overwrite j (s.made j) data left) j' → Holding task s j' := by
    rintro j' ⟨hread, hj'⟩
    by_cases heq : j' = j
    · exact heq ▸ hj
    · rw [State.overwrite_phase_of_ne heq] at hj'
      exact ⟨hread, hj'⟩
  have hsettled : ∀ file, Settled task s file → Settled task (s.overwrite j (s.made j) data left) file :=
    fun file hs => ⟨hs.1, fun j' hj' => hs.2 j' (hholding j' hj')⟩
  have hfiles : ∀ file, Settled task s file →
      (s.overwrite j (s.made j) data left).files file = s.files file :=
    fun file hs => State.overwrite_files_of_ne (hs.2 j hj).symm
  have hkeeps : Keeps task s (s.overwrite j (s.made j) data left) := by
    refine ⟨fun j' hj' => ?_, fun file hs => ⟨hsettled file hs, hfiles file hs⟩⟩
    have hne : j' ≠ j := by
      rintro rfl
      have hactive := hj.2
      rw [hj'] at hactive
      cases hactive
    rw [State.overwrite_phase_of_ne hne, hj']
  refine ⟨⟨h.dir_lt, h.dir_inj, fun j' hj' => h.holds j' (hholding j' hj'),
    fun j₁ j₂ h₁ h₂ => h.apart j₁ j₂ (hholding j₁ h₁) (hholding j₂ h₂), fun f hf => ?_,
    fun q hq => hsettled _ (h.doomed q hq), fun n f hn hl => ?_, fun j' => ?_⟩, hkeeps⟩
  · by_cases heq : f = s.made j
    · subst heq
      rw [State.overwrite_files_self]
      exact le_rfl
    · rw [State.overwrite_files_of_ne heq]
      exact h.mtime_le f hf
  · rw [hfiles f (h.settled hn hl)]
    exact (h.published n f hn hl).mono hkeeps.done
  · by_cases heq : j' = j
    · subst heq
      rw [State.overwrite_phase_self]
      refine ⟨hj.1, rfl, ?_⟩
      rw [State.overwrite_files_self]
      exact htarget.mono hkeeps.done
    · rw [State.overwrite_phase_of_ne heq]
      refine (h.fine j').mono hkeeps rfl fun ha hr => State.overwrite_files_of_ne fun hmade => heq ?_
      exact h.apart j' j ⟨hr, ha⟩ hj hmade

omit [DecidableEq J]

/-- A name is removed that is not the lock of a job. -/
theorem Inv.remove (h : Inv codec task s) (hname : ∀ j, Holding task s j → (task j).lockPath ≠ name) :
    Inv codec task (s.remove name) ∧ Keeps task s (s.remove name) := by
  have hkeeps : Keeps task s (s.remove name) := ⟨fun _ hd => hd, fun _ hs => ⟨hs, rfl⟩⟩
  refine ⟨⟨?_, ?_, ?_, h.apart, h.mtime_le, h.doomed, ?_,
    fun j => (h.fine j).mono hkeeps rfl fun _ _ => rfl⟩, hkeeps⟩
  · exact fun n f hn => h.dir_lt n f (State.remove_dir_eq_some hn).2
  · exact fun n n' f hn hn' =>
      h.dir_inj n n' f (State.remove_dir_eq_some hn).2 (State.remove_dir_eq_some hn').2
  · intro j hj
    rw [State.remove_dir_of_ne (hname j hj)]
    exact h.holds j hj
  · exact fun n f hn hl => (h.published n f (State.remove_dir_eq_some hn).2 hl).mono hkeeps.done

/-- A finished file that has no name is given one. -/
theorem Inv.publish (h : Inv codec task s) (hlock : isLock name = false) (hsettled : Settled task s file)
    (hunnamed : ∀ n, s.dir n ≠ some file) (hstored : Stored codec task s name (s.files file).data) :
    Inv codec task (s.publish name file) ∧ Keeps task s (s.publish name file) := by
  have hkeeps : Keeps task s (s.publish name file) := ⟨fun _ hd => hd, fun _ hs => ⟨hs, rfl⟩⟩
  refine ⟨⟨?_, ?_, ?_, h.apart, h.mtime_le, h.doomed, ?_,
    fun j => (h.fine j).mono hkeeps rfl fun _ _ => rfl⟩, hkeeps⟩
  · intro n f hn
    obtain ⟨-, rfl⟩ | ⟨-, hn⟩ := State.publish_dir_eq_some hn
    · exact hsettled.1
    · exact h.dir_lt n f hn
  · intro n n' f hn hn'
    obtain ⟨rfl, rfl⟩ | ⟨-, hn⟩ := State.publish_dir_eq_some hn
    · obtain ⟨rfl, -⟩ | ⟨-, hn'⟩ := State.publish_dir_eq_some hn'
      · rfl
      · exact absurd hn' (hunnamed n')
    · obtain ⟨-, rfl⟩ | ⟨-, hn'⟩ := State.publish_dir_eq_some hn'
      · exact absurd ‹s.dir n = some _› (hunnamed n)
      · exact h.dir_inj n n' f hn hn'
  · intro j hj
    have hne : (task j).lockPath ≠ name := by
      intro heq
      rw [← heq, (task j).isLock_lockPath hj.1] at hlock
      cases hlock
    exact (Function.update_of_ne hne _ _).trans (h.holds j hj)
  · intro n f hn hl
    obtain ⟨rfl, rfl⟩ | ⟨-, hn⟩ := State.publish_dir_eq_some hn
    · exact hstored.mono hkeeps.done
    · exact (h.published n f hn hl).mono hkeeps.done

/-- A cleanup is going to remove a file that is no job's lock. -/
theorem Inv.doom (h : Inv codec task s) (hsettled : Settled task s file) :
    Inv codec task (s.doom name file) ∧ Keeps task s (s.doom name file) := by
  have hkeeps : Keeps task s (s.doom name file) := ⟨fun _ hd => hd, fun _ hs => ⟨hs, rfl⟩⟩
  refine ⟨⟨h.dir_lt, h.dir_inj, h.holds, h.apart, h.mtime_le, fun q hq => ?_,
    fun n f hn hl => (h.published n f hn hl).mono hkeeps.done,
    fun j => (h.fine j).mono hkeeps rfl fun _ _ => rfl⟩, hkeeps⟩
  obtain rfl | hq := List.mem_cons.mp hq
  · exact hsettled
  · exact h.doomed q hq

theorem Inv.tick (h : Inv codec task s) (nanos : Nat) :
    Inv codec task { s with now := s.now + nanos } ∧ Keeps task s { s with now := s.now + nanos } := by
  have hkeeps : Keeps task s { s with now := s.now + nanos } := ⟨fun _ hd => hd, fun _ hs => ⟨hs, rfl⟩⟩
  refine ⟨⟨h.dir_lt, h.dir_inj, h.holds, h.apart, fun f hf => ?_, h.doomed,
    fun n f hn hl => (h.published n f hn hl).mono hkeeps.done,
    fun j => (h.fine j).mono hkeeps rfl fun _ _ => rfl⟩, hkeeps⟩
  have hle := h.mtime_le f hf
  show (s.files f).mtime ≤ s.now + nanos
  omega

theorem Keeps.rfl : Keeps task s s := ⟨fun _ hd => hd, fun _ hs => ⟨hs, Eq.refl _⟩⟩

theorem Keeps.trans {s'' : State J} (h : Keeps task s s') (h' : Keeps task s' s'') : Keeps task s s'' := by
  refine ⟨fun j hj => h'.done j (h.done j hj), fun file hs => ?_⟩
  obtain ⟨hs', heq⟩ := h.settled file hs
  obtain ⟨hs'', heq'⟩ := h'.settled file hs'
  exact ⟨hs'', heq'.trans heq⟩

/-! ## The invariant along a run -/

section Step

variable {c : CacheConfig} {ahead : Nat}

/-- What a cleanup finds expired, or no lock, is no lock of a job that goes on in time. -/
theorem settled_of_not_skips (h : Inv codec task s) (hdir : s.dir name = some file) {clock : Int}
    (hcareful : Careful task c ahead s (.list name clock)) (hskips : skips c name (s.files file) clock = false) :
    Settled task s file := by
  obtain ⟨hahead, hdrift, hprompt⟩ := hcareful
  cases hlock : isLock name with
  | false => exact h.settled hdir hlock
  | true =>
    refine ⟨h.dir_lt _ _ hdir, fun j hj hmade => ?_⟩
    have hsoon := hprompt j hj
    have hmtime := h.mtime_le _ (h.dir_lt _ _ hdir)
    rw [hmade] at hsoon
    rw [skips, hlock, Bool.true_and, Bool.not_eq_false', isFsLockExpired] at hskips
    simp only [File.metadata, Option.bind_some] at hskips
    split at hskips
    · have := of_decide_eq_true hskips
      omega
    · have := of_decide_eq_true hskips
      omega

theorem start_inv (now : Int) : Inv codec task (start J now) where
  dir_lt _ _ h := by cases h
  dir_inj _ _ _ h := by cases h
  holds _ h := by cases h.2
  apart _ _ h := by cases h.2
  mtime_le _ h := absurd h (Nat.not_lt_zero _)
  doomed _ h := by cases h
  published _ _ h := by cases h
  fine _ := trivial

variable [DecidableEq J]

theorem Inv.failed (h : Inv codec task s) (hdone : s.phase j ≠ .done) :
    Inv codec task (s.become j .failed) ∧ Keeps task s (s.become j .failed) :=
  h.become hdone (fun ha => by cases ha) trivial

theorem createNew_inv (h : Inv codec task s) (hread : (task j).work.isRead = false) (hdone : s.phase j ≠ .done)
    (hp : p = .locked ∨ ∃ bytes, p = .writing s.next bytes ∧ Target codec task s j bytes) :
    Inv codec task (createNew task s j p) ∧ Keeps task s (createNew task s j p) := by
  unfold createNew
  split
  · next hnew => exact h.create hread hdone (Option.isNone_iff_eq_none.mp hnew) hp
  · exact h.failed hdone

theorem openFile_inv (h : Inv codec task s) (hdone : s.phase j ≠ .done)
    (hactive : (task j).work.isRead = false → (s.phase j).isActive = true) :
    Inv codec task (openFile task s j) ∧ Keeps task s (openFile task s j) := by
  unfold openFile
  split
  · next file hdir =>
    refine h.become hdone (fun _ => hactive) ⟨h.settled hdir (task j).isLock_name, ?_⟩
    exact h.published _ _ hdir (task j).isLock_name
  · exact h.failed hdone

theorem begin_inv (h : Inv codec task s) (hp : s.phase j = .idle) :
    Inv codec task (begin codec task s j) ∧ Keeps task s (begin codec task s j) := by
  have hdone : s.phase j ≠ .done := by simp [hp]
  unfold begin
  split
  · next hwork => exact openFile_inv h hdone fun hread => by simp [hwork, Work.isRead] at hread
  · next hwork => exact createNew_inv h (by simp [hwork, Work.isRead]) hdone (.inl rfl)
  · next hread _ =>
    have hread : (task j).work.isRead = false := by
      cases hw : (task j).work with
      | read => exact absurd hw hread
      | updateData _ _ => rfl
      | writeStats _ => rfl
      | recompress _ _ => rfl
    split
    · next bytes hcontents =>
      refine createNew_inv h hread hdone (.inr ⟨bytes, rfl, ?_⟩)
      rw [Target, hcontents]
    · exact h.failed hdone

theorem finishRead_inv (h : Inv codec task s) (hp : s.phase j = .reading file) :
    Inv codec task (finishRead codec task s j file) ∧ Keeps task s (finishRead codec task s j file) := by
  have hdone : s.phase j ≠ .done := by simp [hp]
  have hfine := h.fine j
  rw [hp] at hfine
  unfold finishRead
  split
  · exact h.become hdone (fun ha => by cases ha) hfine.2
  · next hread =>
    split
    · next bytes hbytes =>
      have hcontents : contents codec (task j).work = none := by
        cases hw : (task j).work <;> simp [hw, contents, recompressed] at hbytes ⊢
      refine h.become hdone (fun _ _ => by rw [hp]; rfl) ⟨Bool.eq_false_iff.mpr hread, ?_⟩
      rw [Target, hcontents]
      exact .recompressed hfine.2 rfl hbytes
    · exact h.failed hdone

theorem reopen_inv (h : Inv codec task s) {bytes : List UInt8} (hp : s.phase j = .ready bytes) :
    Inv codec task (reopen task s j bytes) ∧ Keeps task s (reopen task s j bytes) := by
  have hfine := h.fine j
  rw [hp] at hfine
  have hj : Holding task s j := ⟨hfine.1, by rw [hp]; rfl⟩
  rw [reopen, h.holds j hj]
  exact h.overwrite hj hfine.2

/-- A job that ends leaves its lock to be removed: no other job has it. -/
theorem Inv.release (h : Inv codec task s) (hj : Holding task s j) (hp : p.isActive = false)
    (hfine : Fine codec task s j p) :
    Inv codec task ((s.become j p).remove (task j).lockPath) ∧
      Keeps task s ((s.become j p).remove (task j).lockPath) := by
  have hdone : s.phase j ≠ .done := by
    intro heq
    have hactive := hj.2
    rw [heq] at hactive
    cases hactive
  obtain ⟨hinv, hkeeps⟩ := h.become hdone (fun ha => by rw [hp] at ha; cases ha) hfine
  obtain ⟨hinv', hkeeps'⟩ := hinv.remove fun j' hj' hlock => by
    by_cases heq : j' = j
    · have hactive := hj'.2
      rw [heq, State.become_phase_self, hp] at hactive
      cases hactive
    · refine heq (h.exclusive ⟨hj'.1, ?_⟩ hj hlock)
      rw [← State.become_phase_of_ne heq]
      exact hj'.2
  exact ⟨hinv', hkeeps.trans hkeeps'⟩

theorem rename_inv (h : Inv codec task s) (hp : s.phase j = .writing file []) :
    Inv codec task (rename task s j) ∧ Keeps task s (rename task s j) := by
  have hfine := h.fine j
  rw [hp] at hfine
  obtain ⟨hread, rfl, htarget⟩ := hfine
  have hj : Holding task s j := ⟨hread, by rw [hp]; rfl⟩
  have hlock := h.holds j hj
  obtain ⟨hinv, hkeeps⟩ := h.release hj (p := .done) rfl trivial
  -- The file of the lock is finished, and has no name while it goes from one to the other.
  have hsettled : Settled task ((s.become j .done).remove (task j).lockPath) (s.made j) := by
    refine ⟨h.dir_lt _ _ hlock, fun j' hj' hmade => ?_⟩
    have hactive : ((s.become j .done).phase j').isActive = true := hj'.2
    by_cases heq : j' = j
    · rw [heq, State.become_phase_self] at hactive
      cases hactive
    · rw [State.become_phase_of_ne heq] at hactive
      exact heq (h.apart j' j ⟨hj'.1, hactive⟩ hj hmade)
  have hunnamed : ∀ n, ((s.become j .done).remove (task j).lockPath).dir n ≠ some (s.made j) := by
    intro n hn
    obtain ⟨hne, hn⟩ := State.remove_dir_eq_some hn
    exact hne (h.dir_inj n _ _ hn hlock)
  have hstored : Stored codec task ((s.become j .done).remove (task j).lockPath) (task j).name
      (s.files (s.made j)).data := by
    rw [List.append_nil, Target] at htarget
    cases hcontents : contents codec (task j).work with
    | some bytes =>
      rw [hcontents] at htarget
      exact .written rfl (hcontents.trans (congrArg some htarget.symm)) State.become_phase_self
    | none =>
      rw [hcontents] at htarget
      exact htarget.mono hkeeps.done
  obtain ⟨hinv', hkeeps'⟩ := hinv.publish (task j).isLock_name hsettled hunnamed hstored
  rw [rename, hlock]
  exact ⟨hinv', hkeeps.trans hkeeps'⟩

theorem advance_inv (h : Inv codec task s) (amount : Nat) :
    Inv codec task (advance codec task s j amount) ∧ Keeps task s (advance codec task s j amount) := by
  unfold advance
  split
  · next hp => exact begin_inv h hp
  · next hp => exact openFile_inv h (by simp [hp]) fun _ => by rw [hp]; rfl
  · next hp => exact finishRead_inv h hp
  · next hp => exact reopen_inv h hp
  · next hp => exact rename_inv h hp
  · next file b left hp =>
    have hfine := h.fine j
    rw [hp] at hfine
    obtain ⟨hread, rfl, htarget⟩ := hfine
    refine h.overwrite ⟨hread, by rw [hp]; rfl⟩ ?_
    rw [List.append_assoc, List.take_append_drop]
    exact htarget
  · exact ⟨h, .rfl⟩

theorem renameFails_inv (h : Inv codec task s) :
    Inv codec task (renameFails task s j) ∧ Keeps task s (renameFails task s j) := by
  unfold renameFails
  split
  · next hp hwork => exact h.release ⟨by rw [hwork]; rfl, by rw [hp]; rfl⟩ rfl trivial
  · next hp _ => exact h.failed (by simp [hp])
  · exact ⟨h, .rfl⟩

/-- What a careful step keeps. -/
theorem step_inv (h : Inv codec task s) {e : Event J} (hcareful : Careful task c ahead s e) :
    Inv codec task (step codec task c s e) ∧ Keeps task s (step codec task c s e) := by
  cases e with
  | next j amount => exact advance_inv h amount
  | fail j =>
    simp only [step]
    split
    · next hactive => exact h.failed fun hdone => by rw [hdone] at hactive; cases hactive
    · exact ⟨h, .rfl⟩
  | renameFails j => exact renameFails_inv h
  | list name clock =>
    show Inv codec task (list c s name clock) ∧ Keeps task s (list c s name clock)
    unfold list
    split
    · next file hdir =>
      split
      · exact ⟨h, .rfl⟩
      · next hskips => exact h.doom (settled_of_not_skips h hdir hcareful (Bool.eq_false_iff.mpr hskips))
    · exact ⟨h, .rfl⟩
  | unlink name file =>
    simp only [step]
    split
    · next hdoomed =>
      refine h.remove fun j hj hlock => (h.doomed _ hdoomed).2 j hj ?_
      exact hcareful _ (hlock ▸ h.holds j hj)
    · exact ⟨h, .rfl⟩
  | tick nanos => exact h.tick nanos

theorem run_inv {now : Int} {events : List (Event J)}
    (h : Runs.Along (step codec task c) (Careful task c ahead) (start J now) events) :
    Inv codec task (Runs.run (step codec task c) (start J now) events) :=
  h.inv (start_inv now) fun _ _ hs he => (step_inv hs he).1

end Step

/-! ## What is read -/

/-- What `get_data` makes of the bytes that it reads. -/
def getData (codec : Codec Data) (bytes : List UInt8) : Option Data :=
  (codec.decodeAll bytes).bind codec.deserialize

/-- `get_data` returns data that a finished `update_data` was called with for the same file. -/
def Returns (codec : Codec Data) (task : J → Task Data) (s : State J) (name : Name) (bytes : List UInt8) : Prop :=
  ∃ writer data level, (task writer).name = name ∧ (task writer).work = .updateData data level ∧
    s.phase writer = .done ∧ getData codec bytes = some data

theorem getData_contents {data : Data} {level : Int} {bytes : List UInt8}
    (h : contents codec (.updateData data level) = some bytes) : getData codec bytes = some data := by
  obtain ⟨serialized, hserialized, hbytes⟩ := Option.bind_eq_some_iff.mp h
  rw [getData, codec.decodeAll_encodeAll hbytes, Option.bind_some, codec.deserialize_serialize hserialized]

theorem getData_recompressed {w : Work Data} {bytes bytes' : List UInt8}
    (h : recompressed codec bytes w = some bytes') : getData codec bytes' = getData codec bytes := by
  cases w with
  | recompress pid level =>
    obtain ⟨serialized, hserialized, hbytes⟩ := Option.bind_eq_some_iff.mp h
    rw [getData, getData, codec.decodeAll_encodeAll hbytes, hserialized]
  | updateData _ _ => cases h
  | writeStats _ => cases h
  | read => cases h

theorem Stored.returns {bytes : List UInt8} (h : Stored codec task s name bytes)
    (hname : extension name ≠ some stats) : Returns codec task s name bytes := by
  induction h with
  | @written writer bytes hwriter hcontents hdone =>
    cases hw : (task writer).work with
    | updateData data level =>
      rw [hw] at hcontents
      exact ⟨writer, data, level, hwriter, hw, hdone, getData_contents hcontents⟩
    | writeStats serialized =>
      have hnames := (task writer).names
      rw [hw, hwriter] at hnames
      exact absurd hnames hname
    | recompress _ _ =>
      rw [hw] at hcontents
      cases hcontents
    | read =>
      rw [hw] at hcontents
      cases hcontents
  | recompressed _ _ hbytes ih =>
    obtain ⟨writer, data, level, hwriter, hw, hdone, hdata⟩ := ih
    exact ⟨writer, data, level, hwriter, hw, hdone, (getData_recompressed hbytes).trans hdata⟩

end

/-! ## Two updates and a reader -/

/-- A codec: the bytes with a mark at their end. -/
def markCodec : Codec (List UInt8) where
  serialize := some
  deserialize := some
  encodeAll bytes _ := some (bytes ++ [0])
  decodeAll bytes := if bytes.getLast? = some 0 then some bytes.dropLast else none
  deserialize_serialize h := h.symm
  decodeAll_encodeAll h := by
    obtain rfl := Option.some.inj h
    simp

/-- Two updates of one module, and a reader. -/
def twoUpdates : Fin 3 → Task (List UInt8)
  | 0 => ⟨bytesOf "mod-a", .updateData [1, 2] 3, by decide, .inl (by decide)⟩
  | 1 => ⟨bytesOf "mod-a", .updateData [3] 3, by decide, .inl (by decide)⟩
  | 2 => ⟨bytesOf "mod-a", .read, by decide, show isLock (bytesOf "mod-a") = false by decide⟩

/-- The first update in three pieces, the reader, and a cleanup of the module. -/
def oneUpdate : List (Event (Fin 3)) :=
  [.next 0 0, .next 0 2, .tick 5, .next 0 9, .next 0 0, .next 2 0, .list (bytesOf "mod-a") 8,
    .unlink (bytesOf "mod-a") 0, .next 2 0]

/-- It is a careful run. -/
theorem careful_oneUpdate : Runs.Along (step markCodec twoUpdates plainConfig.cleanup)
    (Careful twoUpdates plainConfig.cleanup 10) (start (Fin 3) 0) oneUpdate := by
  have hfile : (Runs.run (step markCodec twoUpdates plainConfig.cleanup) (start (Fin 3) 0)
      (oneUpdate.take 7)).dir (bytesOf "mod-a") = some 0 := by decide
  refine ⟨trivial, trivial, trivial, trivial, trivial, trivial, ⟨by decide, by decide, by decide⟩, ?_, trivial,
    trivial⟩
  exact fun file' h => Option.some.inj (h.symm.trans hfile)

/-- The same, where the lock of the first update expires before its renaming. -/
def lateUpdate : List (Event (Fin 3)) :=
  [.next 0 0, .next 0 2, .next 0 9, .tick 1800, .list (bytesOf "mod-a.wip-atomic-write-mod") 1800,
    .unlink (bytesOf "mod-a.wip-atomic-write-mod") 0, .next 1 0, .next 0 0, .next 2 0, .next 2 0]

/-- The reader gets a file that the second update has not written to yet. -/
theorem unfinished_is_read :
    (Runs.run (step markCodec twoUpdates plainConfig.cleanup) (start (Fin 3) 0) lateUpdate).phase 2 = .got [] ∧
      getData markCodec [] = none := ⟨by decide, rfl⟩

/-! ## Headlines -/

/-- **Headline.** In every careful run from an empty directory, whatever a reader of a module got, and
whatever is at the name of a module, `get_data` decodes to data that `update_data` was called with for the same
module. -/
theorem getData_stored {J Data : Type} [DecidableEq J] (codec : Codec Data) (task : J → Task Data) (c : CacheConfig) (ahead : Nat) (now : Int)
    (events : List (Event J))
    (h : Runs.Along (step codec task c) (Careful task c ahead) (start J now) events) :
    (∀ reader bytes, (Runs.run (step codec task c) (start J now) events).phase reader = .got bytes →
      extension (task reader).name ≠ some stats →
      Returns codec task (Runs.run (step codec task c) (start J now) events) (task reader).name bytes) ∧
    ∀ name file, (Runs.run (step codec task c) (start J now) events).dir name = some file →
      isLock name = false → extension name ≠ some stats →
      Returns codec task (Runs.run (step codec task c) (start J now) events) name
        ((Runs.run (step codec task c) (start J now) events).files file).data := by
  have hinv := run_inv h
  refine ⟨fun reader bytes hgot hname => ?_, fun name file hdir hlock hname =>
    (hinv.published name file hdir hlock).returns hname⟩
  have hfine := hinv.fine reader
  rw [hgot] at hfine
  exact Stored.returns hfine hname

/-- The reader gets what the first update wrote, though the module is removed before it reads. -/
theorem getData_stored_oneUpdate : Returns markCodec twoUpdates
    (Runs.run (step markCodec twoUpdates plainConfig.cleanup) (start (Fin 3) 0) oneUpdate) (bytesOf "mod-a")
    [1, 2, 0] :=
  (getData_stored markCodec twoUpdates plainConfig.cleanup 10 0 oneUpdate careful_oneUpdate).1 2 [1, 2, 0]
    (by decide) (by decide)

/-- A file that has been given a name other than a lock's is never written to again. -/
theorem published_stays {J Data : Type} [DecidableEq J] (codec : Codec Data) (task : J → Task Data) (c : CacheConfig) (ahead : Nat) (now : Int)
    (events later : List (Event J))
    (h : Runs.Along (step codec task c) (Careful task c ahead) (start J now) (events ++ later)) (name : Name)
    (file : Nat) (hdir : (Runs.run (step codec task c) (start J now) events).dir name = some file)
    (hname : isLock name = false) :
    (Runs.run (step codec task c) (start J now) (events ++ later)).files file =
      (Runs.run (step codec task c) (start J now) events).files file := by
  obtain ⟨hbefore, hafter⟩ := Runs.along_append.mp h
  have hinv := run_inv hbefore
  have hkeeps := hafter.rel hinv (fun _ _ hs he => step_inv hs he) (fun _ => Keeps.rfl)
    fun _ _ _ => Keeps.trans
  rw [Runs.run_append]
  exact (hkeeps.settled file (hinv.settled hdir hname)).2

theorem published_stays_oneUpdate :
    (Runs.run (step markCodec twoUpdates plainConfig.cleanup) (start (Fin 3) 0)
      (oneUpdate.take 5 ++ oneUpdate.drop 5)).files 0 =
      (Runs.run (step markCodec twoUpdates plainConfig.cleanup) (start (Fin 3) 0) (oneUpdate.take 5)).files 0 :=
  published_stays markCodec twoUpdates plainConfig.cleanup 10 0 (oneUpdate.take 5) (oneUpdate.drop 5)
    careful_oneUpdate (bytesOf "mod-a") 0 (by decide) (by decide)

/-- A job that has its lock has it alone, and goes on finding it. -/
theorem locks_held {J Data : Type} [DecidableEq J] (codec : Codec Data) (task : J → Task Data) (c : CacheConfig)
    (ahead : Nat) (now : Int) (events : List (Event J))
    (h : Runs.Along (step codec task c) (Careful task c ahead) (start J now) events) (j : J)
    (hj : Holding task (Runs.run (step codec task c) (start J now) events) j) :
    (Runs.run (step codec task c) (start J now) events).dir (task j).lockPath =
        some ((Runs.run (step codec task c) (start J now) events).made j) ∧
      ∀ j', Holding task (Runs.run (step codec task c) (start J now) events) j' →
        (task j').lockPath = (task j).lockPath → j' = j := by
  have hinv := run_inv h
  exact ⟨hinv.holds j hj, fun j' hj' hlock => hinv.exclusive hj' hj hlock⟩

theorem locks_held_oneUpdate :
    (Runs.run (step markCodec twoUpdates plainConfig.cleanup) (start (Fin 3) 0) (oneUpdate.take 3)).dir
        (bytesOf "mod-a.wip-atomic-write-mod") = some 0 :=
  (locks_held markCodec twoUpdates plainConfig.cleanup 10 0 (oneUpdate.take 3)
    (careful_oneUpdate.take 3) 0 (by decide)).1

end Wasmtime.Cache.Store
