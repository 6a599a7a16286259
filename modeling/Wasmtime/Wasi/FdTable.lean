import Mathlib
import Wasmtime.Lib.Triple

/-!
# The descriptor table

Model of the tables of `wasmtime-wasi-c/sandboxed-system-primitives/src/posix.c` with `refcount.h`,
`locking.h` and `rights.h`: `fd_table`, `fd_prestats` and the objects their entries point to.

* An `fd_object` is its index in `objects`; a freed one stays there, marked, so that a use after the
  release is seen. `number` is the host descriptor, and `hostOpen` the host descriptors that are open.
* `ft->size` is the length of the list of entries and `ft->used` a `size_t` that can wrap.
* A program is an `EStateM`: it stops where an assertion fails, a pointer that is `NULL` or dangling is
  followed, memory is read that was never written, or a loop never ends.
* Every operation on a lock and every change of the table is appended to `trace`. `Locks.run` replays a
  trace, and gives up where a lock is taken twice, one is released that is not held, or the table is
  changed without the exclusive lock.
* What the host answers (`fstat`, `realloc`, ..) is an argument. `Random` is the search of
  `fd_table_unused`, which ends at some free slot.
-/

namespace Wasmtime.Wasi.Posix

/-! ## Data -/

/-- The errors the code names itself; any other comes from the host through `convert_errno`. -/
inductive Errno where
  | ebadf | einval | eloop | enomem | enosys | enotcapable | enotsup | enxio
  | host (n : UInt16)
  deriving DecidableEq, Repr

/-- `__wasi_rights_t`. -/
abbrev Rights := BitVec 64

/-- `__wasi_filetype_t`, as far as descriptors have them. -/
inductive Filetype where
  | blockDevice | characterDevice | directory | regularFile | socketDgram | socketStream
  deriving DecidableEq, Repr

/-- `struct fd_object`. `handle` says whether `directory.handle` is set; only a directory has one. -/
structure FdObject where
  refcount : Nat
  type : Filetype
  number : Nat
  handle : Bool
  freed : Bool
  deriving DecidableEq, Repr

/-- `struct fd_entry`. -/
structure FdEntry where
  object : Option Nat
  rightsBase : Rights
  rightsInheriting : Rights
  deriving DecidableEq, Repr

/-- `struct fd_table`. -/
structure FdTable where
  entries : List FdEntry
  used : BitVec 64
  deriving DecidableEq, Repr

/-- The two read-write locks. -/
inductive Lock where
  | table | prestats
  deriving DecidableEq, Repr

/-- What a trace records. -/
inductive Event where
  | rdlock (l : Lock)
  | wrlock (l : Lock)
  | unlock (l : Lock)
  | mutexLock (object : Nat)
  | mutexUnlock (object : Nat)
  | write
  deriving DecidableEq, Repr

/-- Why a program stops. -/
inductive Stop where
  | assertion | null | dangling | uninitialized | endless
  deriving DecidableEq, Repr

/-- The tables, the objects and the host. A preopened resource is the length of its name. -/
structure World where
  table : FdTable
  prestats : List (Option Nat)
  objects : List FdObject
  hostOpen : List Nat
  trace : List Event
  deriving DecidableEq, Repr

abbrev M := EStateM Stop World

/-! ## Locks -/

/-- How a read-write lock is held. -/
inductive Mode where
  | free | shared | exclusive
  deriving DecidableEq, Repr

/-- The locks a thread holds. -/
structure Locks where
  table : Mode
  prestats : Mode
  mutexes : List Nat
  deriving DecidableEq, Repr

/-- Nothing is held. -/
def Locks.none : Locks := ⟨.free, .free, []⟩

def Locks.mode (h : Locks) : Lock → Mode
  | .table => h.table
  | .prestats => h.prestats

def Locks.setMode (h : Locks) (m : Mode) : Lock → Locks
  | .table => { h with table := m }
  | .prestats => { h with prestats := m }

/-- One event, if it is allowed with these locks. -/
def Locks.step (h : Locks) : Event → Option Locks
  | .rdlock l => if h.mode l = .free then some (h.setMode .shared l) else Option.none
  | .wrlock l => if h.mode l = .free then some (h.setMode .exclusive l) else Option.none
  | .unlock l => if h.mode l = .free then Option.none else some (h.setMode .free l)
  | .mutexLock o => if o ∈ h.mutexes then Option.none else some { h with mutexes := o :: h.mutexes }
  | .mutexUnlock o =>
    if o ∈ h.mutexes then some { h with mutexes := h.mutexes.erase o } else Option.none
  | .write => if h.table = .exclusive then some h else Option.none

/-- A whole trace. -/
def Locks.run (h : Locks) : List Event → Option Locks
  | [] => some h
  | e :: es => (h.step e).bind fun h' => h'.run es

theorem Locks.run_append (es es' : List Event) (h : Locks) :
    h.run (es ++ es') = (h.run es).bind fun h' => h'.run es' := by
  induction es generalizing h with
  | nil => rfl
  | cons e es ih =>
    rw [List.cons_append, Locks.run, Locks.run, Option.bind_assoc]
    exact congrArg _ (funext fun h' => ih h')

/-- The locks held in a world, if its trace is disciplined so far. -/
def World.held (w : World) : Option Locks := Locks.none.run w.trace

/-- `rwlock_*`, `mutex_*`, and a change of the table. -/
def log (e : Event) : M Unit := fun w => .ok () { w with trace := w.trace ++ [e] }

/-! ## Rights -/

def rightFdDatasync : Rights := 0x1
def rightFdRead : Rights := 0x2
def rightFdSeek : Rights := 0x4
def rightFdFdstatSetFlags : Rights := 0x8
def rightFdSync : Rights := 0x10
def rightFdTell : Rights := 0x20
def rightFdWrite : Rights := 0x40
def rightFdAdvise : Rights := 0x80
def rightFdAllocate : Rights := 0x100
def rightPathCreateDirectory : Rights := 0x200
def rightPathCreateFile : Rights := 0x400
def rightPathLinkSource : Rights := 0x800
def rightPathLinkTarget : Rights := 0x1000
def rightPathOpen : Rights := 0x2000
def rightFdReaddir : Rights := 0x4000
def rightPathReadlink : Rights := 0x8000
def rightPathRenameSource : Rights := 0x10000
def rightPathRenameTarget : Rights := 0x20000
def rightPathFilestatGet : Rights := 0x40000
def rightPathFilestatSetSize : Rights := 0x80000
def rightPathFilestatSetTimes : Rights := 0x100000
def rightFdFilestatGet : Rights := 0x200000
def rightFdFilestatSetSize : Rights := 0x400000
def rightFdFilestatSetTimes : Rights := 0x800000
def rightPathSymlink : Rights := 0x1000000
def rightPathRemoveDirectory : Rights := 0x2000000
def rightPathUnlinkFile : Rights := 0x4000000
def rightPollFdReadwrite : Rights := 0x8000000
def rightSockShutdown : Rights := 0x10000000

/-- `RIGHTS_ALL`: every right there is. -/
def rightsAll : Rights := 0x1fffffff

/-- `RIGHTS_REGULAR_FILE_BASE`. -/
def rightsRegularFileBase : Rights :=
  rightFdDatasync ||| rightFdRead ||| rightFdSeek ||| rightFdFdstatSetFlags ||| rightFdSync |||
    rightFdTell ||| rightFdWrite ||| rightFdAdvise ||| rightFdAllocate ||| rightFdFilestatGet |||
    rightFdFilestatSetSize ||| rightFdFilestatSetTimes ||| rightPollFdReadwrite

/-- `RIGHTS_DIRECTORY_BASE`. -/
def rightsDirectoryBase : Rights :=
  rightFdFdstatSetFlags ||| rightFdSync ||| rightFdAdvise ||| rightPathCreateDirectory |||
    rightPathCreateFile ||| rightPathLinkSource ||| rightPathLinkTarget ||| rightPathOpen |||
    rightFdReaddir ||| rightPathReadlink ||| rightPathRenameSource ||| rightPathRenameTarget |||
    rightPathFilestatGet ||| rightPathFilestatSetSize ||| rightPathFilestatSetTimes |||
    rightFdFilestatGet ||| rightFdFilestatSetTimes ||| rightPathSymlink ||| rightPathUnlinkFile |||
    rightPathRemoveDirectory ||| rightPollFdReadwrite

/-- `RIGHTS_SOCKET_BASE`. -/
def rightsSocketBase : Rights :=
  rightFdRead ||| rightFdFdstatSetFlags ||| rightFdWrite ||| rightFdFilestatGet |||
    rightPollFdReadwrite ||| rightSockShutdown

/-- `RIGHTS_TTY_BASE`. -/
def rightsTtyBase : Rights :=
  rightFdRead ||| rightFdFdstatSetFlags ||| rightFdWrite ||| rightFdFilestatGet |||
    rightPollFdReadwrite

/-- What `getsockopt` says of a socket. -/
inductive Socktype where
  | dgram | stream | other
  deriving DecidableEq, Repr

/-- What `fstat`, `isatty` and `getsockopt` say of a host descriptor. -/
inductive Mode.Stat where
  | blk
  | chr (tty : Bool)
  | dir
  | reg
  | sock (type : Except Errno Socktype)
  | fifo
  | other

/-- The access mode of a host descriptor, from `fcntl`. -/
inductive Access where
  | rdonly | wronly | rdwr
  deriving DecidableEq, Repr

/-- What the host says of a descriptor. -/
structure Described where
  stat : Except Errno Mode.Stat
  access : Access

/-- The type and rights by `fstat` only. -/
def typeRights : Mode.Stat → Except Errno (Filetype × Rights × Rights)
  | .blk => .ok (.blockDevice, rightsAll, rightsAll)
  | .chr true => .ok (.characterDevice, rightsTtyBase, 0)
  | .chr false => .ok (.characterDevice, rightsAll, rightsAll)
  | .dir => .ok (.directory, rightsDirectoryBase, rightsDirectoryBase ||| rightsRegularFileBase)
  | .reg => .ok (.regularFile, rightsRegularFileBase, 0)
  | .sock (.error e) => .error e
  | .sock (.ok .dgram) => .ok (.socketDgram, rightsSocketBase, rightsAll)
  | .sock (.ok .stream) => .ok (.socketStream, rightsSocketBase, rightsAll)
  | .sock (.ok .other) => .error .einval
  | .fifo => .ok (.socketStream, rightsSocketBase, rightsAll)
  | .other => .error .einval

/-- `fd_determine_type_rights`. -/
def fdDetermineTypeRights (d : Described) : Except Errno (Filetype × Rights × Rights) :=
  match d.stat with
  | .error e => .error e
  | .ok stat =>
    match typeRights stat, d.access with
    | .ok (type, base, inheriting), .rdonly => .ok (type, base &&& ~~~rightFdWrite, inheriting)
    | .ok (type, base, inheriting), .wronly => .ok (type, base &&& ~~~rightFdRead, inheriting)
    | r, _ => r

/-! ## Objects -/

/-- `malloc` and what `fd_object_new` and its callers put into the object. -/
def fdObjectNew (type : Filetype) (number : Nat) : M Nat := fun w =>
  .ok w.objects.length { w with objects := w.objects ++ [⟨1, type, number, false, false⟩] }

/-- An object that a pointer leads to. -/
def fdObject (fo : Nat) : M FdObject := fun w =>
  match w.objects[fo]? with
  | some o => if o.freed then .error .dangling w else .ok o w
  | none => .error .dangling w

def setObject (fo : Nat) (o : FdObject) : M Unit := fun w =>
  .ok () { w with objects := w.objects.set fo o }

/-- `refcount_acquire`. -/
def refcountAcquire (fo : Nat) : M Unit := do
  let o ← fdObject fo
  setObject fo { o with refcount := o.refcount + 1 }

/-- `close`. -/
def closeHost (number : Nat) : M Unit := fun w =>
  .ok () { w with hostOpen := w.hostOpen.filter fun n => n != number }

/-- A host descriptor the host opens. -/
def openHost (number : Nat) : M Unit := fun w => .ok () { w with hostOpen := number :: w.hostOpen }

/-- `fd_object_release`. `closedir` closes the descriptor as `close` does. -/
def fdObjectRelease (fo : Nat) : M Unit := do
  let o ← fdObject fo
  if o.refcount = 0 then throw .assertion
  setObject fo { o with refcount := o.refcount - 1 }
  if o.refcount = 1 then
    closeHost o.number
    setObject fo { o with refcount := 0, freed := true }

/-! ## The table -/

/-- `fd_table_get_entry`: the entry and its object. -/
def fdTableGetEntry (ft : FdTable) (fd : Nat) (rightsBase rightsInheriting : Rights) :
    Except Errno (FdEntry × Nat) :=
  match ft.entries[fd]? with
  | none => .error .ebadf
  | some fe =>
    match fe.object with
    | none => .error .ebadf
    | some fo =>
      if ~~~fe.rightsBase &&& rightsBase ≠ 0 ∨ ~~~fe.rightsInheriting &&& rightsInheriting ≠ 0 then
        .error .enotcapable
      else .ok (fe, fo)

/-- `while (size <= min || size < need) size *= 2`. After 65 rounds the size is 0 and stays so. -/
def growSize (min need : Nat) : Nat → Nat → Option Nat
  | 0, _ => none
  | fuel + 1, size =>
    if size ≤ min ∨ size < need then growSize min need fuel (size * 2 % 2 ^ 64) else some size

/-- Changes the table. -/
def writeTable (ft : FdTable) : M Unit := do
  log .write
  modify fun w => { w with table := ft }

/-- `fd_table_grow`. An entry has 24 bytes. -/
def fdTableGrow (realloc : Nat → Bool) (min incr : Nat) : M Bool := do
  let ft := (← get).table
  let need := ((ft.used + BitVec.ofNat 64 incr) * 2).toNat
  let size := ft.entries.length
  if size ≤ min ∨ size < need then
    match growSize min need 66 (if size = 0 then 1 else size) with
    | none => throw .endless
    | some size' =>
      if realloc (24 * size' % 2 ^ 64) then
        writeTable { ft with
          entries := ft.entries.take size' ++ List.replicate (size' - size) ⟨none, 0, 0⟩ }
        return true
      else return false
  else return true

/-- `fd_table_attach`. -/
def fdTableAttach (fd fo : Nat) (rightsBase rightsInheriting : Rights) : M Unit := do
  let ft := (← get).table
  match ft.entries[fd]? with
  | none => throw .assertion
  | some fe =>
    if fe.object.isSome then throw .assertion
    let used := ft.used + 1
    writeTable ⟨ft.entries.set fd ⟨some fo, rightsBase, rightsInheriting⟩, used⟩
    if ¬ (used * 2).toNat ≤ ft.entries.length then throw .assertion

/-- `fd_table_detach`. -/
def fdTableDetach (fd : Nat) : M Nat := do
  let ft := (← get).table
  match ft.entries[fd]? with
  | none => throw .assertion
  | some fe =>
    match fe.object with
    | none => throw .assertion
    | some fo =>
      if ft.used = 0 then throw .assertion
      writeTable ⟨ft.entries.set fd { fe with object := none }, ft.used - 1⟩
      return fo

/-- The search of `fd_table_unused`: it ends at a free slot if there is one. -/
structure Random where
  pick : List FdEntry → Nat
  pick_free : ∀ entries, (∃ fe ∈ entries, fe.object = none) →
    ∃ fe, entries[pick entries]? = some fe ∧ fe.object = none

/-- `fd_table_unused`. -/
def fdTableUnused (random : Random) : M Nat := do
  let ft := (← get).table
  if ¬ ft.used.toNat < ft.entries.length then throw .assertion
  match ft.entries[random.pick ft.entries]? with
  | some ⟨none, _, _⟩ => return random.pick ft.entries
  | _ => throw .endless

/-- `fd_object_get_locked`. -/
def fdObjectGetLocked (fd : Nat) (rightsBase rightsInheriting : Rights) : M (Except Errno Nat) := do
  match fdTableGetEntry (← get).table fd rightsBase rightsInheriting with
  | .error e => return .error e
  | .ok (_, fo) =>
    refcountAcquire fo
    return .ok fo

/-- `fd_object_get`. -/
def fdObjectGet (fd : Nat) (rightsBase rightsInheriting : Rights) : M (Except Errno Nat) := do
  log (.rdlock .table)
  let r ← fdObjectGetLocked fd rightsBase rightsInheriting
  log (.unlock .table)
  return r

/-- What the allocator and the random generator answer. `malloc` is asked for an object. -/
structure Allocator where
  malloc : Bool
  realloc : Nat → Bool
  random : Random

/-- `fd_table_insert_existing`. -/
def fdTableInsertExisting (alloc : Allocator) (fd out : Nat) (described : Described) : M Bool := do
  match fdDetermineTypeRights described with
  | .error _ => return false
  | .ok (type, rightsBase, rightsInheriting) =>
    if !alloc.malloc then return false
    let fo ← fdObjectNew type out
    log (.wrlock .table)
    if !(← fdTableGrow alloc.realloc fd 1) then
      log (.unlock .table)
      fdObjectRelease fo
      return false
    fdTableAttach fd fo rightsBase rightsInheriting
    log (.unlock .table)
    return true

/-- `fd_table_insert`. -/
def fdTableInsert (alloc : Allocator) (e : Errno) (fo : Nat) (rightsBase rightsInheriting : Rights) :
    M (Except Errno Nat) := do
  log (.wrlock .table)
  if !(← fdTableGrow alloc.realloc 0 1) then
    log (.unlock .table)
    fdObjectRelease fo
    return .error e
  let out ← fdTableUnused alloc.random
  fdTableAttach out fo rightsBase rightsInheriting
  log (.unlock .table)
  return .ok out

/-- `fd_table_insert_fd`. -/
def fdTableInsertFd (alloc : Allocator) (e : Errno) (number : Nat) (type : Filetype)
    (rightsBase rightsInheriting : Rights) : M (Except Errno Nat) := do
  if !alloc.malloc then
    closeHost number
    return .error .enomem
  let fo ← fdObjectNew type number
  fdTableInsert alloc e fo rightsBase rightsInheriting

/-! ## The preopened resources -/

/-- `fd_prestats_get_entry`. -/
def fdPrestatsGetEntry (prestats : List (Option Nat)) (fd : Nat) : Except Errno Nat :=
  match prestats[fd]? with
  | some (some len) => .ok len
  | _ => .error .ebadf

/-- `fd_prestats_insert`. The table of preopened resources counts no used entries, so it grows only for
the number; the name is `NULL` when `strdup` fails. An entry has 8 bytes. -/
def fdPrestatsInsert (realloc : Nat → Bool) (fd : Nat) (dir : Option Nat) : M Bool := do
  log (.wrlock .prestats)
  let pt := (← get).prestats
  if pt.length ≤ fd ∨ pt.length < 2 then
    match growSize fd 2 66 (if pt.length = 0 then 1 else pt.length) with
    | none => throw .endless
    | some size =>
      if realloc (8 * size % 2 ^ 64) then
        modify fun w => { w with
          prestats := (pt.take size ++ List.replicate (size - pt.length) none).set fd dir }
        log (.unlock .prestats)
        return true
      else
        log (.unlock .prestats)
        return false
  else
    modify fun w => { w with prestats := pt.set fd dir }
    log (.unlock .prestats)
    return true

end Wasmtime.Wasi.Posix
