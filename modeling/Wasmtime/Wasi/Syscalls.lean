import Wasmtime.Wasi.FdTable

/-!
# The system calls

Model of the `wasmtime_ssp_*` functions of `wasmtime-wasi-c/sandboxed-system-primitives/src/posix.c`, as
they are built for Linux: what each of them does to the tables, the objects and the locks, and with
which error it returns. What a host call does to files, buffers and clocks is left out; whether it
succeeds, and with which error not, is an argument.

* Most calls look up a descriptor with a right, make one host call and let go of the object again:
  `onObject`. Calls on paths do so through `path_get` and `path_put`: `onPath` and `onPaths`. `path_get`
  resolves the path as `Wasi.PathGet` says; here it returns a host descriptor, the object's own or one
  it has opened.
* `Syscall` has a constructor for each call, and two for the calls of the embedder that set the tables
  up.
-/

namespace Wasmtime.Wasi.Posix

/-- What a host call returns: an error, or nothing that matters here. -/
abbrev Host := Except Errno Unit

/-! ## Calls on a descriptor -/

/-- One host call on a descriptor that must have the given rights. -/
def onObject (fd : Nat) (rights : Rights) (host : Host) : M Host := do
  match ← fdObjectGet fd rights 0 with
  | .error e => return .error e
  | .ok fo =>
    let _ ← fdObject fo
    fdObjectRelease fo
    return host

/-- `fd_datasync`. -/
def fdDatasync (fd : Nat) (host : Host) : M Host := onObject fd rightFdDatasync host

/-- `fd_pread`. -/
def fdPread (fd iovcnt : Nat) (host : Host) : M Host :=
  if iovcnt = 0 then return .error .einval else onObject fd (rightFdRead ||| rightFdSeek) host

/-- `fd_pwrite`. -/
def fdPwrite (fd iovcnt : Nat) (host : Host) : M Host :=
  if iovcnt = 0 then return .error .einval else onObject fd (rightFdWrite ||| rightFdSeek) host

/-- `fd_read`. -/
def fdRead (fd : Nat) (host : Host) : M Host := onObject fd rightFdRead host

/-- `fd_seek`. -/
def fdSeek (fd : Nat) (offset : Int) (whence : Nat) (host : Host) : M Host :=
  if whence ≤ 2 then
    onObject fd (if offset = 0 ∧ whence = 0 then rightFdTell else rightFdSeek ||| rightFdTell) host
  else return .error .einval

/-- `fd_tell`. -/
def fdTell (fd : Nat) (host : Host) : M Host := onObject fd rightFdTell host

/-- `fd_fdstat_set_flags`. -/
def fdFdstatSetFlags (fd : Nat) (host : Host) : M Host := onObject fd rightFdFdstatSetFlags host

/-- `fd_sync`. -/
def fdSync (fd : Nat) (host : Host) : M Host := onObject fd rightFdSync host

/-- `fd_write`. -/
def fdWrite (fd : Nat) (host : Host) : M Host := onObject fd rightFdWrite host

/-- `fd_advise`. -/
def fdAdvise (fd advice : Nat) (host : Host) : M Host :=
  if advice ≤ 5 then onObject fd rightFdAdvise host else return .error .einval

/-- `fd_allocate`. -/
def fdAllocate (fd : Nat) (host : Host) : M Host := onObject fd rightFdAllocate host

/-- `fd_filestat_get`. -/
def fdFilestatGet (fd : Nat) (host : Host) : M Host := onObject fd rightFdFilestatGet host

/-- `fd_filestat_set_size`. -/
def fdFilestatSetSize (fd : Nat) (host : Host) : M Host := onObject fd rightFdFilestatSetSize host

/-- The flags `fd_filestat_set_times` and `path_filestat_set_times` know. -/
def fstflagsOk (fstflags : BitVec 16) : Bool := fstflags &&& ~~~0xf = 0

/-- `fd_filestat_set_times`. -/
def fdFilestatSetTimes (fd : Nat) (fstflags : BitVec 16) (host : Host) : M Host :=
  if fstflagsOk fstflags then onObject fd rightFdFilestatSetTimes host else return .error .einval

/-- `sock_recv`. -/
def sockRecv (sock : Nat) (host : Host) : M Host := onObject sock rightFdRead host

/-- `sock_send`. -/
def sockSend (sock : Nat) (host : Host) : M Host := onObject sock rightFdWrite host

/-- `sock_shutdown`. -/
def sockShutdown (sock how : Nat) (host : Host) : M Host :=
  if how = 1 ∨ how = 2 ∨ how = 3 then onObject sock rightSockShutdown host else return .error .einval

/-- `fd_fdstat_get`: the object is read with the table locked, and its count stays as it is. -/
def fdFdstatGet (fd : Nat) (host : Host) : M Host := do
  log (.rdlock .table)
  match fdTableGetEntry (← get).table fd 0 0 with
  | .error e =>
    log (.unlock .table)
    return .error e
  | .ok (_, fo) =>
    let _ ← fdObject fo
    log (.unlock .table)
    return host

/-- `fd_fdstat_set_rights`. -/
def fdFdstatSetRights (fd : Nat) (rightsBase rightsInheriting : Rights) : M Host := do
  log (.wrlock .table)
  let ft := (← get).table
  match fdTableGetEntry ft fd rightsBase rightsInheriting with
  | .error e =>
    log (.unlock .table)
    return .error e
  | .ok (_, fo) =>
    writeTable { ft with entries := ft.entries.set fd ⟨some fo, rightsBase, rightsInheriting⟩ }
    log (.unlock .table)
    return .ok ()

/-! ## Preopened resources, closing and renumbering -/

/-- `fd_prestat_get`. -/
def fdPrestatGet (fd : Nat) : M Host := do
  log (.rdlock .prestats)
  match fdPrestatsGetEntry (← get).prestats fd with
  | .error e =>
    log (.unlock .prestats)
    return .error e
  | .ok _ =>
    log (.unlock .prestats)
    return .ok ()

/-- `fd_prestat_dir_name`. -/
def fdPrestatDirName (fd pathLen : Nat) : M Host := do
  log (.rdlock .prestats)
  match fdPrestatsGetEntry (← get).prestats fd with
  | .error e =>
    log (.unlock .prestats)
    return .error e
  | .ok len =>
    if pathLen ≠ len then
      log (.unlock .prestats)
      return .error .einval
    log (.unlock .prestats)
    return .ok ()

/-- `fd_close`. -/
def fdClose (fd : Nat) : M Host := do
  log (.rdlock .prestats)
  let preopened := fdPrestatsGetEntry (← get).prestats fd
  log (.unlock .prestats)
  match preopened with
  | .ok _ => return .error .enotsup
  | .error _ =>
    log (.wrlock .table)
    match fdTableGetEntry (← get).table fd 0 0 with
    | .error e =>
      log (.unlock .table)
      return .error e
    | .ok _ =>
      let fo ← fdTableDetach fd
      log (.unlock .table)
      fdObjectRelease fo
      return .ok ()

/-- The object an entry points to when the pointer is followed. -/
def followEntry (fd : Nat) : M (FdEntry × Nat) := do
  match (← get).table.entries[fd]? with
  | none => throw .dangling
  | some fe =>
    match fe.object with
    | none => throw .null
    | some fo => return (fe, fo)

/-- `fd_renumber`. -/
def fdRenumber (source target : Nat) : M Host := do
  log (.rdlock .prestats)
  let prestats := (← get).prestats
  let preopened := match fdPrestatsGetEntry prestats target with
    | .error _ => fdPrestatsGetEntry prestats source
    | ok => ok
  log (.unlock .prestats)
  match preopened with
  | .ok _ => return .error .enotsup
  | .error _ =>
    log (.wrlock .table)
    match fdTableGetEntry (← get).table source 0 0 with
    | .error e =>
      log (.unlock .table)
      return .error e
    | .ok _ =>
      match fdTableGetEntry (← get).table target 0 0 with
      | .error e =>
        log (.unlock .table)
        return .error e
      | .ok _ =>
        let fo ← fdTableDetach target
        -- `fe_from` is followed only now, when `target` has been detached
        let (feFrom, moved) ← followEntry source
        refcountAcquire moved
        fdTableAttach target moved feFrom.rightsBase feFrom.rightsInheriting
        log (.unlock .table)
        fdObjectRelease fo
        let fo ← fdTableDetach source
        fdObjectRelease fo
        let ft := (← get).table
        writeTable { ft with used := ft.used - 1 }
        log (.unlock .table)
        return .ok ()

/-! ## Calls on paths -/

/-- `struct path_access`. -/
structure PathAccess where
  object : Nat
  fd : Nat
  follow : Bool
  deriving DecidableEq, Repr

/-- What the host answers to `path_get`: whether the path can be copied, and what resolving it gives: a
host descriptor it has opened, or none when the path stays in the directory itself. -/
structure PathHost where
  terminated : Host
  resolved : Except Errno (Option Nat × Bool)

/-- `path_get`. -/
def pathGet (fd : Nat) (rightsBase rightsInheriting : Rights) (h : PathHost) :
    M (Except Errno PathAccess) := do
  match h.terminated with
  | .error e => return .error e
  | .ok () =>
    match ← fdObjectGet fd rightsBase rightsInheriting with
    | .error e => return .error e
    | .ok fo =>
      match h.resolved with
      | .error e =>
        fdObjectRelease fo
        return .error e
      | .ok (some opened, follow) =>
        openHost opened
        return .ok ⟨fo, opened, follow⟩
      | .ok (none, follow) => return .ok ⟨fo, (← fdObject fo).number, follow⟩

/-- `path_put`. -/
def pathPut (pa : PathAccess) : M Unit := do
  let o ← fdObject pa.object
  if o.number ≠ pa.fd then closeHost pa.fd
  fdObjectRelease pa.object

/-- One host call on a path. -/
def onPath (fd : Nat) (rights : Rights) (h : PathHost) (host : Host) : M Host := do
  match ← pathGet fd rights 0 h with
  | .error e => return .error e
  | .ok pa =>
    pathPut pa
    return host

/-- One host call on two paths. -/
def onPaths (oldFd : Nat) (oldRights : Rights) (old : PathHost) (newFd : Nat) (newRights : Rights)
    (new : PathHost) (host : Host) : M Host := do
  match ← pathGet oldFd oldRights 0 old with
  | .error e => return .error e
  | .ok oldPa =>
    match ← pathGet newFd newRights 0 new with
    | .error e =>
      pathPut oldPa
      return .error e
    | .ok newPa =>
      pathPut oldPa
      pathPut newPa
      return host

/-- `path_create_directory`. -/
def pathCreateDirectory (fd : Nat) (h : PathHost) (host : Host) : M Host :=
  onPath fd rightPathCreateDirectory h host

/-- `path_link`. -/
def pathLink (oldFd : Nat) (old : PathHost) (newFd : Nat) (new : PathHost) (host : Host) : M Host :=
  onPaths oldFd rightPathLinkSource old newFd rightPathLinkTarget new host

/-- `path_readlink`. -/
def pathReadlink (fd : Nat) (h : PathHost) (host : Host) : M Host := onPath fd rightPathReadlink h host

/-- `path_rename`. -/
def pathRename (oldFd : Nat) (old : PathHost) (newFd : Nat) (new : PathHost) (host : Host) : M Host :=
  onPaths oldFd rightPathRenameSource old newFd rightPathRenameTarget new host

/-- `path_filestat_get`. -/
def pathFilestatGet (fd : Nat) (h : PathHost) (host : Host) : M Host :=
  onPath fd rightPathFilestatGet h host

/-- `path_filestat_set_times`. -/
def pathFilestatSetTimes (fd : Nat) (fstflags : BitVec 16) (h : PathHost) (host : Host) : M Host :=
  if fstflagsOk fstflags then onPath fd rightPathFilestatSetTimes h host else return .error .einval

/-- `path_symlink`, which copies the target first. -/
def pathSymlink (copied : Host) (fd : Nat) (h : PathHost) (host : Host) : M Host :=
  match copied with
  | .error e => return .error e
  | .ok () => onPath fd rightPathSymlink h host

/-- `path_unlink_file`. -/
def pathUnlinkFile (fd : Nat) (h : PathHost) (host : Host) : M Host := onPath fd rightPathUnlinkFile h host

/-- `path_remove_directory`. -/
def pathRemoveDirectory (fd : Nat) (h : PathHost) (host : Host) : M Host :=
  onPath fd rightPathRemoveDirectory h host

/-- With what `openat` fails, and what `fstatat` then says of the path. -/
inductive OpenError where
  | enxio (socket : Bool)
  | enotdir (link : Bool)
  | emlink
  | other (e : Errno)
  deriving DecidableEq, Repr

/-- What the host answers to `path_open`. -/
structure OpenHost where
  path : PathHost
  openat : Except OpenError Nat
  described : Described
  alloc : Allocator
  errno : Errno

/-- The arguments of `path_open`. -/
structure OpenRequest where
  dirfd : Nat
  oflags : BitVec 16
  rightsBase : Rights
  rightsInheriting : Rights
  fsFlags : BitVec 16
  deriving DecidableEq, Repr

/-- Some bit of a mask is set. -/
def has {n : Nat} (flags mask : BitVec n) : Bool := flags &&& mask ≠ 0

/-- Whether the new descriptor has to be written to. -/
def OpenRequest.write (r : OpenRequest) : Bool :=
  has r.rightsBase (rightFdDatasync ||| rightFdWrite ||| rightFdAllocate ||| rightFdFilestatSetSize)

/-- `needed_base`. -/
def OpenRequest.neededBase (r : OpenRequest) : Rights :=
  rightPathOpen ||| (if has r.oflags 0x1 then rightPathCreateFile else 0) |||
    (if has r.oflags 0x8 then rightPathFilestatSetSize else 0)

/-- `needed_inheriting`. -/
def OpenRequest.neededInheriting (r : OpenRequest) : Rights :=
  r.rightsBase ||| r.rightsInheriting ||| (if has r.fsFlags 0x2 then rightFdDatasync else 0) |||
    (if has r.fsFlags 0x8 ∨ has r.fsFlags 0x10 then rightFdSync else 0) |||
    (if r.write ∧ ¬ has r.fsFlags 0x1 ∧ ¬ has r.oflags 0x8 then rightFdSeek else 0)

/-- The error of `path_open` when `openat` has failed. -/
def openErrno (r : OpenRequest) (follow : Bool) : OpenError → Errno
  | .enxio socket => if socket then .enotsup else .enxio
  | .enotdir link => if (!follow || has r.oflags 0x2) && link then .eloop else .host 54
  | .emlink => if !follow then .eloop else .host 34
  | .other e => e

/-- `path_open`. -/
def pathOpen (r : OpenRequest) (h : OpenHost) : M (Except Errno Nat) := do
  match ← pathGet r.dirfd r.neededBase r.neededInheriting h.path with
  | .error e => return .error e
  | .ok pa =>
    match h.openat with
    | .error e =>
      pathPut pa
      return .error (openErrno r pa.follow e)
    | .ok nfd =>
      openHost nfd
      pathPut pa
      match fdDetermineTypeRights h.described with
      | .error e =>
        closeHost nfd
        return .error e
      | .ok (type, maxBase, maxInheriting) =>
        fdTableInsertFd h.alloc h.errno nfd type (r.rightsBase &&& maxBase)
          (r.rightsInheriting &&& maxInheriting)

/-! ## Directories and polling -/

/-- The loop of `fd_readdir` over what `readdir` returns, the length of a name or the end with `errno`:
how much of the buffer it fills and whether it fails. A header has 24 bytes. -/
def readdirLoop (nbyte : Nat) : Nat → List (Except (Option Errno) Nat) → Host
  | bufused, answers =>
    if bufused < nbyte then
      match answers with
      | [] => .ok ()
      | .error none :: _ => .ok ()
      | .error (some e) :: _ => if bufused > 0 then .ok () else .error e
      | .ok namlen :: rest => readdirLoop nbyte (min nbyte (min nbyte (bufused + 24) + namlen)) rest
    else .ok ()

/-- `fd_readdir`. A descriptor that is no directory has neither a mutex nor a handle there. -/
def fdReaddir (fd nbyte : Nat) (fdopendir : Host) (answers : List (Except (Option Errno) Nat)) :
    M Host := do
  match ← fdObjectGet fd rightFdReaddir 0 with
  | .error e => return .error e
  | .ok fo =>
    let o ← fdObject fo
    if o.type ≠ .directory then throw .uninitialized
    log (.mutexLock fo)
    if !o.handle then
      match fdopendir with
      | .error e =>
        log (.mutexUnlock fo)
        fdObjectRelease fo
        return .error e
      | .ok () => setObject fo { o with handle := true }
    log (.mutexUnlock fo)
    fdObjectRelease fo
    return readdirLoop nbyte 0 answers

/-- `__wasi_subscription_t`: what is waited for. -/
inductive Subscription where
  | clock (abstime : Bool)
  | fdRead (fd : Nat)
  | fdWrite (fd : Nat)
  | other
  deriving DecidableEq, Repr

/-- An event: which subscription it is for, and its error. -/
structure PollEvent where
  subscription : Nat
  error : Option Errno
  deriving DecidableEq, Repr

/-- What `poll` says of a descriptor. -/
inductive Revents where
  | none | nval | err | hup | ready
  deriving DecidableEq, Repr

/-- What the host answers to `poll_oneoff`. -/
structure PollHost where
  mallocs : Bool
  poll : Except Errno (List Revents)

/-- The variables of the first loop: `fos`, `clock_subscription`, and the events so far. -/
structure PollState where
  fos : List (Option Nat)
  clock : Option Nat
  events : List PollEvent

/-- One round of the first loop. -/
def pollSubscribe (s : PollState) (i : Nat) : Subscription → M PollState
  | .fdRead fd => subscribeFd fd
  | .fdWrite fd => subscribeFd fd
  | .clock abstime =>
    if s.clock.isNone && !abstime then
      return { s with fos := s.fos ++ [none], clock := some i }
    else return { s with fos := s.fos ++ [none], events := s.events ++ [⟨i, some .enosys⟩] }
  | .other => return { s with fos := s.fos ++ [none], events := s.events ++ [⟨i, some .enosys⟩] }
where
  subscribeFd (fd : Nat) : M PollState := do
    match ← fdObjectGetLocked fd rightPollFdReadwrite 0 with
    | .ok fo =>
      let _ ← fdObject fo
      return { s with fos := s.fos ++ [some fo] }
    | .error e => return { s with fos := s.fos ++ [none], events := s.events ++ [⟨i, some e⟩] }

/-- The first loop. -/
def pollSubscribeAll : PollState → Nat → List Subscription → M PollState
  | s, _, [] => return s
  | s, i, sub :: subs => do
    let s ← pollSubscribe s i sub
    pollSubscribeAll s (i + 1) subs

/-- The event of a descriptor that has been polled. -/
def pollEvent (i : Nat) : Revents → Option PollEvent
  | .none => Option.none
  | .nval => some ⟨i, some .ebadf⟩
  | .err => some ⟨i, some (.host 29)⟩
  | .hup => some ⟨i, Option.none⟩
  | .ready => some ⟨i, Option.none⟩

/-- The events once `poll` has returned. -/
def pollEvents (s : PollState) (revents : List Revents) : List PollEvent :=
  match s.clock with
  | some i =>
    if revents.all (· = .none) ∧ s.events = [] then [⟨i, none⟩] else ready
  | none => ready
where
  ready : List PollEvent :=
    s.events ++ (s.fos.zip revents).zipIdx.filterMap fun ((fo, r), i) =>
      if fo.isSome then pollEvent i r else none

/-- The last loop. -/
def releaseAll : List (Option Nat) → M Unit
  | [] => return ()
  | none :: fos => releaseAll fos
  | some fo :: fos => do
    fdObjectRelease fo
    releaseAll fos

/-- `poll_oneoff`. -/
def pollOneoff (subs : List Subscription) (h : PollHost) : M (Except Errno (List PollEvent)) := do
  match subs with
  | [.clock _] => return .ok [⟨0, none⟩]
  | _ =>
    if !h.mallocs then return .error .enomem
    log (.rdlock .table)
    let s ← pollSubscribeAll ⟨[], none, []⟩ 0 subs
    log (.unlock .table)
    releaseAll s.fos
    match h.poll with
    | .error e => return .error e
    | .ok revents => return .ok (pollEvents s revents)

/-! ## All calls -/

/-- A system call with its arguments, or a call that sets the tables up, and what the host answers. -/
inductive Syscall where
  | insertExisting (alloc : Allocator) (fd out : Nat) (described : Described)
  | prestatsInsert (realloc : Nat → Bool) (fd : Nat) (dir : Option Nat)
  | hostOnly (host : Host)
  | fdDatasync (fd : Nat) (host : Host)
  | fdPread (fd iovcnt : Nat) (host : Host)
  | fdPwrite (fd iovcnt : Nat) (host : Host)
  | fdRead (fd : Nat) (host : Host)
  | fdSeek (fd : Nat) (offset : Int) (whence : Nat) (host : Host)
  | fdTell (fd : Nat) (host : Host)
  | fdFdstatGet (fd : Nat) (host : Host)
  | fdFdstatSetFlags (fd : Nat) (host : Host)
  | fdFdstatSetRights (fd : Nat) (rightsBase rightsInheriting : Rights)
  | fdSync (fd : Nat) (host : Host)
  | fdWrite (fd : Nat) (host : Host)
  | fdAdvise (fd advice : Nat) (host : Host)
  | fdAllocate (fd : Nat) (host : Host)
  | fdFilestatGet (fd : Nat) (host : Host)
  | fdFilestatSetSize (fd : Nat) (host : Host)
  | fdFilestatSetTimes (fd : Nat) (fstflags : BitVec 16) (host : Host)
  | sockRecv (sock : Nat) (host : Host)
  | sockSend (sock : Nat) (host : Host)
  | sockShutdown (sock how : Nat) (host : Host)
  | fdPrestatGet (fd : Nat)
  | fdPrestatDirName (fd pathLen : Nat)
  | fdClose (fd : Nat)
  | fdRenumber (source target : Nat)
  | pathCreateDirectory (fd : Nat) (h : PathHost) (host : Host)
  | pathLink (oldFd : Nat) (old : PathHost) (newFd : Nat) (new : PathHost) (host : Host)
  | pathReadlink (fd : Nat) (h : PathHost) (host : Host)
  | pathRename (oldFd : Nat) (old : PathHost) (newFd : Nat) (new : PathHost) (host : Host)
  | pathFilestatGet (fd : Nat) (h : PathHost) (host : Host)
  | pathFilestatSetTimes (fd : Nat) (fstflags : BitVec 16) (h : PathHost) (host : Host)
  | pathSymlink (copied : Host) (fd : Nat) (h : PathHost) (host : Host)
  | pathUnlinkFile (fd : Nat) (h : PathHost) (host : Host)
  | pathRemoveDirectory (fd : Nat) (h : PathHost) (host : Host)
  | pathOpen (r : OpenRequest) (h : OpenHost)
  | fdReaddir (fd nbyte : Nat) (fdopendir : Host) (answers : List (Except (Option Errno) Nat))
  | pollOneoff (subs : List Subscription) (h : PollHost)

/-- The calls that touch neither table: `clock_*`, `proc_raise`, `random_get`, `sched_yield`, `args_*`
and `environ_*`. -/
def hostOnly (host : Host) : M Host := return host

/-- Forgets what a call returns beside its error. -/
def status {α : Type} (m : M (Except Errno α)) : M Host := do
  match ← m with
  | .error e => return .error e
  | .ok _ => return .ok ()

/-- A call that only says whether it has failed. -/
def ofBool (m : M Bool) : M Host := do
  if ← m then return .ok () else return .error .enomem

/-- Makes a call. -/
def Syscall.run : Syscall → M Host
  | .insertExisting alloc fd out described => ofBool (fdTableInsertExisting alloc fd out described)
  | .prestatsInsert realloc fd dir => ofBool (fdPrestatsInsert realloc fd dir)
  | .hostOnly host => Posix.hostOnly host
  | .fdDatasync fd host => Posix.fdDatasync fd host
  | .fdPread fd iovcnt host => Posix.fdPread fd iovcnt host
  | .fdPwrite fd iovcnt host => Posix.fdPwrite fd iovcnt host
  | .fdRead fd host => Posix.fdRead fd host
  | .fdSeek fd offset whence host => Posix.fdSeek fd offset whence host
  | .fdTell fd host => Posix.fdTell fd host
  | .fdFdstatGet fd host => Posix.fdFdstatGet fd host
  | .fdFdstatSetFlags fd host => Posix.fdFdstatSetFlags fd host
  | .fdFdstatSetRights fd base inheriting => Posix.fdFdstatSetRights fd base inheriting
  | .fdSync fd host => Posix.fdSync fd host
  | .fdWrite fd host => Posix.fdWrite fd host
  | .fdAdvise fd advice host => Posix.fdAdvise fd advice host
  | .fdAllocate fd host => Posix.fdAllocate fd host
  | .fdFilestatGet fd host => Posix.fdFilestatGet fd host
  | .fdFilestatSetSize fd host => Posix.fdFilestatSetSize fd host
  | .fdFilestatSetTimes fd fstflags host => Posix.fdFilestatSetTimes fd fstflags host
  | .sockRecv sock host => Posix.sockRecv sock host
  | .sockSend sock host => Posix.sockSend sock host
  | .sockShutdown sock how host => Posix.sockShutdown sock how host
  | .fdPrestatGet fd => Posix.fdPrestatGet fd
  | .fdPrestatDirName fd pathLen => Posix.fdPrestatDirName fd pathLen
  | .fdClose fd => Posix.fdClose fd
  | .fdRenumber source target => Posix.fdRenumber source target
  | .pathCreateDirectory fd h host => Posix.pathCreateDirectory fd h host
  | .pathLink oldFd old newFd new host => Posix.pathLink oldFd old newFd new host
  | .pathReadlink fd h host => Posix.pathReadlink fd h host
  | .pathRename oldFd old newFd new host => Posix.pathRename oldFd old newFd new host
  | .pathFilestatGet fd h host => Posix.pathFilestatGet fd h host
  | .pathFilestatSetTimes fd fstflags h host => Posix.pathFilestatSetTimes fd fstflags h host
  | .pathSymlink copied fd h host => Posix.pathSymlink copied fd h host
  | .pathUnlinkFile fd h host => Posix.pathUnlinkFile fd h host
  | .pathRemoveDirectory fd h host => Posix.pathRemoveDirectory fd h host
  | .pathOpen r h => status (Posix.pathOpen r h)
  | .fdReaddir fd nbyte fdopendir answers => Posix.fdReaddir fd nbyte fdopendir answers
  | .pollOneoff subs h => status (Posix.pollOneoff subs h)

end Wasmtime.Wasi.Posix
