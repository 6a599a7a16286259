import Mathlib
import Wasmtime.Cache.Paths

/-!
# Locks of the tasks

Runs of `acquire_task_fs_lock` (`wasmtime-environ/src/cache/worker.rs`) over the directory that holds the
locks of a task.

* A process reads the directory in one step (`Event.list`) and creates its lock in another (`Event.create`);
  between the two, the other processes take steps. `create_new` is atomic.
* Whatever else is done to the directory is `Event.other`: the cleanup, the stores of modules, the renaming
  of a lock that the recompression wrote.
* Nothing fails to be read, but the metadata of an entry, which the code allows.

An expired lock is passed over and stays. When it is the process's own, `create_new` finds its name taken, so
that the process never gets the lock again, however old the file becomes.

Results: `notBlocked_iff` for one step, `refused_for_ever` (no lock for a process whose lock stays), and the
headline `neverBlocked_iff` over runs.
-/

namespace Wasmtime.Cache.Locks

open Pathname (dotdot)

/-! ## Tasks and processes -/

/-- What `acquire_task_fs_lock` is called with; no component of a path is empty. -/
structure Task where
  path : Path
  path_ne : ∀ name ∈ path, name ≠ []
  timeout : Nat
  allowedFutureDrift : Nat

/-- `std::process::id()`, as `format!` writes it. -/
structure Pid where
  text : String
  digits : ∀ b ∈ bytesOf text, 48 ≤ b ∧ b ≤ 57
  deriving DecidableEq

/-- The name is that of a lock of the task. -/
def Task.LockName (t : Task) (name : Name) : Prop :=
  some (fileStem name) = pathFileStem t.path ∧ ∃ ext, extension name = some ext ∧ isWip ext = true

/-- The file is not older than the timeout, and not from the far future. -/
def Task.Unexpired (t : Task) (now : Int) (node : Node) : Prop :=
  node.isDir = false ∧ ∃ mtime, node.metadata.bind Metadata.modified = some mtime ∧
    (mtime ≤ now → now - mtime < t.timeout) ∧ (now < mtime → mtime - now ≤ t.allowedFutureDrift)

/-- The asserts of `acquire_task_fs_lock`. -/
def Task.Plain (t : Task) : Prop := ∃ name, fileName t.path = some name ∧ extension name = none

/-- The name of the process's lock. -/
def Task.ownName (t : Task) (pid : Pid) : Option Name :=
  fileName (pathWithExtension t.path ("wip-" ++ pid.text))

/-! ## The directory -/

/-- The directory of the locks. -/
structure Directory where
  names : List Name
  distinct : names.Nodup
  child : Name → Node

namespace Directory

/-- `read_dir`. -/
def entries (d : Directory) : List (Option (Name × Node)) := d.names.map fun name => some (name, d.child name)

/-- A new, empty file. -/
def create (d : Directory) (name : Name) (now : Int) (hnew : name ∉ d.names) : Directory where
  names := d.names ++ [name]
  distinct := List.nodup_append_comm.mp (List.nodup_cons.mpr ⟨hnew, d.distinct⟩)
  child := Function.update d.child name (.file (some ⟨some now, 0⟩))

/-- There is no unexpired lock of the task. -/
def Clear (d : Directory) (t : Task) (now : Int) : Prop :=
  ∀ name ∈ d.names, t.LockName name → ¬ t.Unexpired now (d.child name)

/-- The second directory has one file more. -/
structure Adds (d d' : Directory) (name : Name) : Prop where
  new : name ∉ d.names
  names : d'.names = d.names ++ [name]
  file : (d'.child name).isDir = false
  kept : ∀ other ∈ d.names, d'.child other = d.child other

end Directory

/-! ## Runs -/

/-- What a process read. -/
structure Listed where
  now : Int
  dir : Directory

/-- The directory, and the processes between the two halves of `acquire_task_fs_lock`. -/
structure LockState where
  dir : Directory
  listed : Pid → Option Listed

inductive Event where
  | list (pid : Pid) (now : Int)
  | create (pid : Pid) (now : Int)
  | other (d : Directory)

section

variable (t : Task)

/-- What `acquire_task_fs_lock` returns to a process that has read the directory. -/
def attempt (s : LockState) (pid : Pid) (l : Listed) : Except Panic (Option Path) :=
  acquireTaskFsLock t.path t.timeout t.allowedFutureDrift
    ⟨l.now, some l.dir.entries, pid.text, decide (∀ name ∈ t.ownName pid, name ∉ s.dir.names)⟩

/-- The directory after the attempt. -/
def attempted (s : LockState) (pid : Pid) (now : Int) (l : Listed) : Directory :=
  match attempt t s pid l with
  | .ok (some path) =>
    match fileName path with
    | some name => if hnew : name ∉ s.dir.names then s.dir.create name now hnew else s.dir
    | none => s.dir
  | _ => s.dir

def step (s : LockState) : Event → LockState
  | .list pid now => { s with listed := Function.update s.listed pid (some ⟨now, s.dir⟩) }
  | .create pid now =>
    match s.listed pid with
    | some l => ⟨attempted t s pid now l, Function.update s.listed pid none⟩
    | none => s
  | .other d => { s with dir := d }

def run (s : LockState) (events : List Event) : LockState := events.foldl (step t) s

/-- A process that found no unexpired lock gets one, as the only new file. -/
def NotBlocked (s : LockState) : Event → Prop
  | .list _ _ => True
  | .create pid now => ∀ l, s.listed pid = some l → l.dir.Clear t l.now →
    ∃ path name, attempt t s pid l = .ok (some path) ∧ fileName path = some name ∧ t.LockName name ∧
      s.dir.Adds (step t s (.create pid now)).dir name
  | .other _ => True

/-- The process that found no unexpired lock has none of its own either. -/
def OwnAbsent (s : LockState) : Event → Prop
  | .list _ _ => True
  | .create pid _ => ∀ l, s.listed pid = some l → l.dir.Clear t l.now →
    t.Plain ∧ ∀ name ∈ t.ownName pid, name ∉ s.dir.names
  | .other _ => True

/-- A property of every step of a run. -/
def Along (P : LockState → Event → Prop) : LockState → List Event → Prop
  | _, [] => True
  | s, e :: events => P s e ∧ Along P (step t s e) events

end

/-! ## The name of a lock -/

section

variable {t : Task} {name : Name} {pid : Pid}

theorem bytesOf_wip (text : String) : bytesOf ("wip-" ++ text) = [119, 105, 112, 45] ++ bytesOf text := by
  have hwip : bytesOf "wip-" = [119, 105, 112, 45] := by decide
  rw [bytesOf_append, hwip]

theorem Pid.dot_notMem (pid : Pid) : 0x2e ∉ bytesOf ("wip-" ++ pid.text) := by
  rw [bytesOf_wip, List.mem_append]
  rintro (hmem | hmem)
  · exact absurd hmem (by decide)
  · exact absurd (pid.digits _ hmem) (by decide)

theorem isWip_pid (pid : Pid) : isWip (bytesOf ("wip-" ++ pid.text)) = true := by
  have hwip : "wip-".toByteArray.data.toList = [119, 105, 112, 45] := by decide
  have hutf8 : (String.fromUTF8? ⟨(bytesOf ("wip-" ++ pid.text)).toArray⟩).isSome = true :=
    Option.isSome_iff_exists.mpr ⟨_, toStr_bytesOf _⟩
  rw [isWip, hutf8, hwip, bytesOf_wip]
  rfl

theorem mem_of_fileName {path : Path} (h : fileName path = some name) : name ∈ path :=
  List.mem_of_getLast? (Option.filter_eq_some_iff.mp h).1

/-- The name of the process's lock of a task that has no extension. -/
theorem ownName_eq (pid : Pid) (hname : fileName t.path = some name) (hext : extension name = none) :
    t.ownName pid = some (name ++ 0x2e :: bytesOf ("wip-" ++ pid.text)) ∧
      pathWithExtension t.path ("wip-" ++ pid.text) =
        t.path.dropLast ++ [name ++ 0x2e :: bytesOf ("wip-" ++ pid.text)] := by
  have hne : bytesOf ("wip-" ++ pid.text) ≠ [] := by
    rw [bytesOf_wip]
    simp
  have hwith : pathWithExtension t.path ("wip-" ++ pid.text) =
      t.path.dropLast ++ [name ++ 0x2e :: bytesOf ("wip-" ++ pid.text)] := by
    rw [pathWithExtension, hname]
    simp only
    rw [withExtension, if_neg hne, fileStem_eq_self hext]
  have hdotdot : name ++ 0x2e :: bytesOf ("wip-" ++ pid.text) ≠ dotdot := by
    intro heq
    have hlen := congrArg List.length heq
    have htwo : dotdot.length = 2 := rfl
    rw [bytesOf_wip, List.length_append, List.length_cons, List.length_append, htwo] at hlen
    simp at hlen
    omega
  exact ⟨by rw [Task.ownName, hwith, fileName_append hdotdot], hwith⟩

/-- It is the name of a lock of the task. -/
theorem lockName_own (hname : fileName t.path = some name) (hext : extension name = none) :
    t.LockName (name ++ 0x2e :: bytesOf ("wip-" ++ pid.text)) := by
  have hne : name ≠ [] := t.path_ne name (mem_of_fileName hname)
  refine ⟨?_, bytesOf ("wip-" ++ pid.text), extension_append hne pid.dot_notMem, isWip_pid pid⟩
  rw [fileStem_append hne pid.dot_notMem, pathFileStem, hname, Option.map_some, fileStem_eq_self hext]

end

/-! ## What lets a process pass -/

theorem passes_iff (t : Task) (now : Int) (name : Name) (node : Node) :
    passes (pathFileStem t.path) now t.timeout t.allowedFutureDrift (some (name, node)) = true ↔
      (t.LockName name → ¬ t.Unexpired now node) := by
  have hlock : t.LockName name ↔
      some (fileStem name) = pathFileStem t.path ∧ (extension name).any isWip = true := by
    rw [Task.LockName, Option.any_eq_true]
  have hexpired : isFsLockExpired now node.metadata t.timeout t.allowedFutureDrift = false ↔
      ∃ mtime, node.metadata.bind Metadata.modified = some mtime ∧
        (mtime ≤ now → now - mtime < t.timeout) ∧ (now < mtime → mtime - now ≤ t.allowedFutureDrift) := by
    rw [isFsLockExpired]
    cases hmtime : node.metadata.bind Metadata.modified with
    | none => simp
    | some mtime =>
      by_cases hle : mtime ≤ now
      · simp [hle]
      · simp [hle]
        omega
  rw [hlock, Task.Unexpired, ← hexpired, passes]
  cases node.isDir <;> cases (extension name).any isWip <;> simp [or_iff_not_imp_left]

theorem all_passes_iff (t : Task) (now : Int) (d : Directory) :
    d.entries.all (passes (pathFileStem t.path) now t.timeout t.allowedFutureDrift) = true ↔
      d.Clear t now := by
  rw [Directory.entries, List.all_map, List.all_eq_true]
  exact forall₂_congr fun name _ => passes_iff t now name (d.child name)

/-! ## One step -/

section

variable {t : Task} {s : LockState} {pid : Pid} {l : Listed} {name : Name}

/-- The asserts are the task's name and its lack of an extension. -/
theorem plain_of_attempt {r : Option Path} (h : attempt t s pid l = .ok r) : t.Plain := by
  rw [attempt, acquireTaskFsLock] at h
  split at h
  · cases h
  · rename_i hassert
    rw [not_or] at hassert
    cases hname : fileName t.path with
    | none =>
      rw [pathFileStem, hname] at hassert
      exact absurd rfl hassert.2
    | some name =>
      refine ⟨name, hname, ?_⟩
      rw [pathExtension, hname] at hassert
      exact Option.not_isSome_iff_eq_none.mp hassert.1

/-- What the attempt comes to. -/
theorem attempt_eq (hname : fileName t.path = some name) (hext : extension name = none)
    (hclear : l.dir.Clear t l.now) : attempt t s pid l =
      .ok (if name ++ 0x2e :: bytesOf ("wip-" ++ pid.text) ∉ s.dir.names then
        some (t.path.dropLast ++ [name ++ 0x2e :: bytesOf ("wip-" ++ pid.text)]) else none) := by
  obtain ⟨hown, hpath⟩ := ownName_eq pid hname hext
  have hassert : ¬ ((pathExtension t.path).isSome ∨ (pathFileStem t.path).isNone) := by
    rw [pathExtension, pathFileStem, hname, Option.bind_some, hext]
    simp
  have hparent : parent t.path = some t.path.dropLast := by
    rw [parent, if_neg (List.ne_nil_of_mem (mem_of_fileName hname))]
  have hall := (all_passes_iff t l.now l.dir).mpr hclear
  rw [attempt, acquireTaskFsLock, if_neg hassert, lockPath, hparent, Option.bind_some, Option.bind_some,
    hall, hown, hpath]
  simp

theorem attempted_eq (now : Int) (hname : fileName t.path = some name) (hext : extension name = none)
    (hclear : l.dir.Clear t l.now)
    (hnew : name ++ 0x2e :: bytesOf ("wip-" ++ pid.text) ∉ s.dir.names) :
    attempted t s pid now l = s.dir.create (name ++ 0x2e :: bytesOf ("wip-" ++ pid.text)) now hnew := by
  obtain ⟨hown, hpath⟩ := ownName_eq pid hname hext
  rw [Task.ownName, hpath] at hown
  rw [attempted, attempt_eq hname hext hclear, if_pos hnew]
  simp only [hown, dif_pos hnew]

theorem Directory.create_adds (d : Directory) (now : Int) (hnew : name ∉ d.names) :
    d.Adds (d.create name now hnew) name where
  new := hnew
  names := rfl
  file := by
    have hfile : (d.create name now hnew).child name = .file (some ⟨some now, 0⟩) :=
      Function.update_self _ _ _
    rw [hfile]
    rfl
  kept other hother := Function.update_of_ne (ne_of_mem_of_not_mem hother hnew) _ _

/-- **A process that finds no unexpired lock is not blocked exactly when it has none of its own there.** -/
theorem notBlocked_iff (t : Task) (s : LockState) (e : Event) : NotBlocked t s e ↔ OwnAbsent t s e := by
  cases e with
  | list pid now => exact Iff.rfl
  | other d => exact Iff.rfl
  | create pid now =>
    refine forall₃_congr fun l hl hclear => ⟨?_, ?_⟩
    · rintro ⟨path, name, hattempt, -, -, -⟩
      have hplain := plain_of_attempt hattempt
      refine ⟨hplain, fun own hown => ?_⟩
      obtain ⟨name, hname, hext⟩ := hplain
      rw [(ownName_eq pid hname hext).1] at hown
      obtain rfl := Option.some.inj hown
      rw [attempt_eq hname hext hclear] at hattempt
      exact (Option.ite_none_right_eq_some.mp (Except.ok.inj hattempt)).1
    · rintro ⟨⟨name, hname, hext⟩, habsent⟩
      obtain ⟨hown, hpath⟩ := ownName_eq pid hname hext
      have hnew := habsent _ hown
      rw [Task.ownName, hpath] at hown
      refine ⟨_, _, (attempt_eq hname hext hclear).trans (by rw [if_pos hnew]), hown,
        lockName_own hname hext, ?_⟩
      simp only [step, hl]
      rw [attempted_eq now hname hext hclear hnew]
      exact s.dir.create_adds now hnew

end

/-! ## For ever -/

section

variable {t : Task} {pid : Pid} {name own : Name}

/-- A file with the name of the process's lock stays, unless something else removes it. -/
theorem mem_names_step {s : LockState} {e : Event} (hmem : own ∈ s.dir.names)
    (hkeep : ∀ d, e = .other d → own ∈ d.names) : own ∈ (step t s e).dir.names := by
  cases e with
  | list _ _ => exact hmem
  | other d => exact hkeep d rfl
  | create pid' now =>
    rw [step]
    split
    · simp only [attempted]
      split
      · split
        · split
          · exact List.mem_append_left _ hmem
          · exact hmem
        · exact hmem
      · exact hmem
    · exact hmem

/-- **A process whose lock stays never gets the lock again**, whatever the time. -/
theorem refused_for_ever (hname : fileName t.path = some name) (hext : extension name = none)
    (s : LockState) (events : List Event) (hmem : name ++ 0x2e :: bytesOf ("wip-" ++ pid.text) ∈ s.dir.names)
    (hkeep : ∀ d, Event.other d ∈ events → name ++ 0x2e :: bytesOf ("wip-" ++ pid.text) ∈ d.names) :
    Along t (fun s e => ∀ now l, e = .create pid now → s.listed pid = some l → l.dir.Clear t l.now →
      attempt t s pid l = .ok none) s events := by
  induction events generalizing s with
  | nil => exact trivial
  | cons e events ih =>
    refine ⟨fun now l _ _ hclear => ?_, ih _ (mem_names_step hmem fun d hd => ?_) fun d hd => ?_⟩
    · rw [attempt_eq hname hext hclear, if_neg (not_not_intro hmem)]
    · exact hkeep d (hd ▸ List.mem_cons_self)
    · exact hkeep d (List.mem_cons_of_mem e hd)

end

/-! ## Runs of steps -/

theorem along_congr {t : Task} {P Q : LockState → Event → Prop} (h : ∀ s e, P s e ↔ Q s e) (s : LockState)
    (events : List Event) : Along t P s events ↔ Along t Q s events := by
  induction events generalizing s with
  | nil => exact Iff.rfl
  | cons e events ih => exact and_congr (h s e) (ih (step t s e))

/-- **Locks do not block for ever exactly in the runs in which a process that finds no unexpired lock has left
none of its own.** -/
theorem neverBlocked_iff (t : Task) (s : LockState) (events : List Event) :
    Along t (NotBlocked t) s events ↔ Along t (OwnAbsent t) s events :=
  along_congr (notBlocked_iff t) s events

theorem cleanup_ne (name : Name) (hname : name ∈ [bytesOf ".cleanup"]) : name ≠ [] := by
  obtain rfl := List.mem_singleton.mp hname
  decide

theorem seven_digits (b : UInt8) (hb : b ∈ bytesOf "7") : 48 ≤ b ∧ b ≤ 57 := by
  obtain rfl := List.mem_singleton.mp (hb : b ∈ [55])
  decide

/-- `.cleanup` of the default configuration. -/
def cleanupTask : Task where
  path := [bytesOf ".cleanup"]
  path_ne := cleanup_ne
  timeout := 3600000000000
  allowedFutureDrift := 86400000000000

def seven : Pid where
  text := "7"
  digits := seven_digits

/-- A directory with nothing in it. -/
def emptyDirectory : Directory where
  names := []
  distinct := List.nodup_nil
  child := fun _ => .unreadable

/-- A process cleans up, and finds the lock of that cleanup expired two hours later. -/
def twoCleanups : List Event :=
  [.list seven 0, .create seven 0, .list seven 7200000000000, .create seven 7200000000000]

/-- The process that left an expired lock does not get another. -/
theorem not_neverBlocked : ¬ ∀ t s events, Along t (NotBlocked t) s events := by
  intro hall
  have h := (hall cleanupTask ⟨emptyDirectory, fun _ => none⟩ twoCleanups).2.2.2.1
  obtain ⟨-, habsent⟩ := (notBlocked_iff _ _ _).mp h _ rfl ((all_passes_iff _ _ _).mp (by decide))
  exact habsent (bytesOf ".cleanup.wip-7") (by decide) (by decide)

end Wasmtime.Cache.Locks
