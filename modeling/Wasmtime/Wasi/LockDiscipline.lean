import Mathlib
import Wasmtime.Wasi.TableRuns

/-!
# The locks

The lock operations of `posix.c` on every path through every call.

* `Keeps P l l' m`: with the locks `l`, `m` ends with the locks `l'` or stops, having done nothing with a
  lock that is not allowed, and it keeps a property `P` of the tables. One lemma for each function.
* `onReturn_*`: what a function that has returned says of the world it has started in.
* `disciplined_iff`: from every world, a call keeps to the locks exactly if it is not an `fd_renumber` that
  gets past its first unlock. That one detaches the source and counts it down without the lock, and
  releases the lock twice.
-/

namespace Wasmtime.Wasi.Posix

open Triple

/-! ## Functions that keep the discipline -/

/-- From every world with the locks `l` and tables that satisfy `P`, a program that returns does so with
the locks `l'` and such tables, and one that stops has kept the discipline so far. -/
def Keeps {α : Type} (P : FdTable → List (Option Nat) → Prop) (l l' : Locks) (m : M α) : Prop :=
  ∀ w : World, w.held = some l ∧ P w.table w.prestats →
    Always m w (fun _ w' => w'.held = some l' ∧ P w'.table w'.prestats) fun w' => w'.held ≠ none

/-- A condition on the preopened resources alone. -/
def Prestats (Q : List (Option Nat) → Prop) (_ : FdTable) (prestats : List (Option Nat)) : Prop :=
  Q prestats

/-- No condition on the tables. -/
def Any (_ : FdTable) (_ : List (Option Nat)) : Prop := True

section

variable {α β : Type} {P : FdTable → List (Option Nat) → Prop} {Q : List (Option Nat) → Prop} {l l' l'' : Locks} {m : M α} {f : α → M β}

theorem Keeps.pure (a : α) : Keeps P l l (Pure.pure a : M α) := fun _ h => Always.pure h

theorem Keeps.throw (e : Stop) : Keeps P l l' (throw e : M α) := fun w h =>
  Always.throw (by simp [h.1])

theorem Keeps.bind (hm : Keeps P l l' m) (hf : ∀ a, Keeps P l' l'' (f a)) : Keeps P l l'' (m >>= f) :=
  fun w h => (hm w h).bind fun a w' h' => hf a w' h'

theorem Keeps.get_bind {f : World → M β} (hf : ∀ w, Keeps P l l' (f w)) : Keeps P l l' (get >>= f) :=
  fun w h => Always.get_bind (hf w w h)

theorem Keeps.get_bind_of {f : World → M β}
    (hf : ∀ w, P w.table w.prestats → Keeps P l l' (f w)) : Keeps P l l' (get >>= f) :=
  fun w h => Always.get_bind (hf w h.2 w h)

theorem Keeps.ite {p : Prop} [Decidable p] {m m' : M α} (hm : p → Keeps P l l' m)
    (hm' : ¬ p → Keeps P l l' m') : Keeps P l l' (if p then m else m') := by
  split
  · next h => exact hm h
  · next h => exact hm' h

theorem keeps_log {e : Event} (h : l.step e = some l') : Keeps P l l' (log e) := by
  rintro w ⟨hw, hP⟩
  refine ⟨fun a w' ha => ?_, fun e w' he => nomatch he⟩
  obtain ⟨-, rfl⟩ := EStateM.Result.ok.inj ha
  refine ⟨?_, hP⟩
  rw [World.held] at hw
  rw [World.held, Locks.run_append, hw, Option.bind_some, Locks.run, h]
  rfl

theorem keeps_fdObject (fo : Nat) : Keeps P l l (fdObject fo) := by
  rintro w ⟨hw, hP⟩
  unfold fdObject
  cases hfo : w.objects[fo]? with
  | none => exact ⟨by simp [hfo], by simp [hfo, hw]⟩
  | some o =>
    by_cases hfreed : o.freed = true
    · exact ⟨by simp [hfo, hfreed], by simp [hfo, hfreed, hw]⟩
    · exact ⟨by simp [hfo, hfreed, hw, hP], by simp [hfo, hfreed]⟩

/-- A program that leaves the trace alone, and the tables in such a state. -/
theorem keeps_of_ok (h : ∀ w, P w.table w.prestats →
    ∃ a w', m w = .ok a w' ∧ w'.trace = w.trace ∧ P w'.table w'.prestats) : Keeps P l l m := by
  rintro w ⟨hw, hP⟩
  obtain ⟨a, w', hok, htrace, hP'⟩ := h w hP
  refine ⟨fun b w₁ hb => ?_, fun e w₁ he => nomatch hok.symm.trans he⟩
  obtain ⟨-, rfl⟩ := EStateM.Result.ok.inj (hok.symm.trans hb)
  refine ⟨?_, hP'⟩
  unfold World.held at hw ⊢
  rw [htrace, hw]

theorem keeps_refcountAcquire (fo : Nat) : Keeps P l l (refcountAcquire fo) :=
  (keeps_fdObject fo).bind fun _ => keeps_of_ok fun _ h => ⟨_, _, rfl, rfl, h⟩

theorem keeps_fdObjectRelease (fo : Nat) : Keeps P l l (fdObjectRelease fo) := by
  unfold fdObjectRelease
  refine (keeps_fdObject fo).bind fun o => ?_
  have hset : ∀ o', Keeps P l l (setObject fo o') := fun _ => keeps_of_ok fun _ h => ⟨_, _, rfl, rfl, h⟩
  have hclose : Keeps P l l (closeHost o.number) := keeps_of_ok fun _ h => ⟨_, _, rfl, rfl, h⟩
  refine Keeps.ite (fun _ => Keeps.throw _) fun _ => ?_
  refine (hset _).bind fun _ => ?_
  exact Keeps.ite (fun _ => hclose.bind fun _ => hset _) fun _ => Keeps.pure _

theorem keeps_fdObjectNew (type : Filetype) (number : Nat) : Keeps P l l (fdObjectNew type number) :=
  keeps_of_ok fun _ h => ⟨_, _, rfl, rfl, h⟩

/-! ## The table -/

theorem keeps_writeTable (h : l.table = .exclusive) (ft : FdTable) : Keeps (Prestats Q) l l (writeTable ft) := by
  have hlog : Keeps (Prestats Q) l l (log .write) := keeps_log (by rw [Locks.step, if_pos h])
  exact hlog.bind fun _ => keeps_of_ok fun _ h => ⟨_, _, rfl, rfl, h⟩

theorem keeps_fdTableGrow (h : l.table = .exclusive) (realloc : Nat → Bool) (min incr : Nat) :
    Keeps (Prestats Q) l l (fdTableGrow realloc min incr) := by
  unfold fdTableGrow
  refine Keeps.get_bind fun w => Keeps.ite (fun _ => ?_) fun _ => Keeps.pure _
  split
  · exact Keeps.throw _
  · refine Keeps.ite (fun _ => ?_) fun _ => Keeps.pure _
    exact (keeps_writeTable h _).bind fun _ => Keeps.pure _

theorem keeps_fdTableAttach (h : l.table = .exclusive) (fd fo : Nat) (base inheriting : Rights) :
    Keeps (Prestats Q) l l (fdTableAttach fd fo base inheriting) := by
  unfold fdTableAttach
  refine Keeps.get_bind fun w => ?_
  dsimp only
  split
  · exact Keeps.throw _
  · refine Keeps.ite (fun _ => Keeps.throw _) fun _ => ?_
    refine (keeps_writeTable h _).bind fun _ => ?_
    exact Keeps.ite (fun _ => Keeps.throw _) fun _ => Keeps.pure _

theorem keeps_fdTableDetach (h : l.table = .exclusive) (fd : Nat) : Keeps (Prestats Q) l l (fdTableDetach fd) := by
  unfold fdTableDetach
  refine Keeps.get_bind fun w => ?_
  dsimp only
  split
  · exact Keeps.throw _
  · split
    · exact Keeps.throw _
    · refine Keeps.ite (fun _ => Keeps.throw _) fun _ => ?_
      exact (keeps_writeTable h _).bind fun _ => Keeps.pure _

theorem keeps_fdTableUnused (random : Random) : Keeps P l l (fdTableUnused random) := by
  unfold fdTableUnused
  refine Keeps.get_bind fun w => ?_
  refine Keeps.ite (fun _ => Keeps.throw _) fun _ => ?_
  split
  · exact Keeps.pure _
  · exact Keeps.throw _

theorem keeps_fdObjectGetLocked (fd : Nat) (base inheriting : Rights) :
    Keeps P l l (fdObjectGetLocked fd base inheriting) := by
  unfold fdObjectGetLocked
  refine Keeps.get_bind fun w => ?_
  split
  · exact Keeps.pure _
  · exact (keeps_refcountAcquire _).bind fun _ => Keeps.pure _

/-- The table is locked exclusively, and nothing else is. -/
def Locks.writing : Locks := ⟨.exclusive, .free, []⟩

/-- The table is locked for reading. -/
def Locks.reading : Locks := ⟨.shared, .free, []⟩

/-- The preopened resources are locked for reading. -/
def Locks.readingPrestats : Locks := ⟨.free, .shared, []⟩

theorem keeps_rdlock : Keeps P .none .reading (log (.rdlock .table)) := keeps_log rfl

theorem keeps_unlock_read : Keeps P .reading .none (log (.unlock .table)) := keeps_log rfl

theorem keeps_wrlock : Keeps P .none .writing (log (.wrlock .table)) := keeps_log rfl

theorem keeps_unlock_write : Keeps P .writing .none (log (.unlock .table)) := keeps_log rfl

theorem keeps_fdObjectGet (fd : Nat) (base inheriting : Rights) :
    Keeps P .none .none (fdObjectGet fd base inheriting) :=
  keeps_rdlock.bind fun _ => (keeps_fdObjectGetLocked fd base inheriting).bind fun _ =>
    keeps_unlock_read.bind fun _ => Keeps.pure _

theorem keeps_fdTableInsertExisting (alloc : Allocator) (fd out : Nat) (described : Described) :
    Keeps (Prestats Q) .none .none (fdTableInsertExisting alloc fd out described) := by
  unfold fdTableInsertExisting
  split
  · exact Keeps.pure _
  · refine Keeps.ite (fun _ => Keeps.pure _) fun _ => ?_
    refine (keeps_fdObjectNew _ _).bind fun fo => keeps_wrlock.bind fun _ => ?_
    refine (keeps_fdTableGrow rfl _ _ _).bind fun b => Keeps.ite (fun _ => ?_) fun _ => ?_
    · exact keeps_unlock_write.bind fun _ => (keeps_fdObjectRelease fo).bind fun _ => Keeps.pure _
    · exact (keeps_fdTableAttach rfl _ _ _ _).bind fun _ => keeps_unlock_write.bind fun _ => Keeps.pure _

theorem keeps_fdTableInsertFd (alloc : Allocator) (e : Errno) (number : Nat) (type : Filetype)
    (base inheriting : Rights) :
    Keeps (Prestats Q) .none .none (fdTableInsertFd alloc e number type base inheriting) := by
  unfold fdTableInsertFd
  refine Keeps.ite (fun _ => ?_) fun _ => ?_
  · have hclose : Keeps (Prestats Q) .none .none (closeHost number) := keeps_of_ok fun _ h => ⟨_, _, rfl, rfl, h⟩
    exact hclose.bind fun _ => Keeps.pure _
  · refine (keeps_fdObjectNew _ _).bind fun fo => keeps_wrlock.bind fun _ => ?_
    refine (keeps_fdTableGrow rfl _ _ _).bind fun b => Keeps.ite (fun _ => ?_) fun _ => ?_
    · exact keeps_unlock_write.bind fun _ => (keeps_fdObjectRelease fo).bind fun _ => Keeps.pure _
    · refine (keeps_fdTableUnused _).bind fun fd => ?_
      exact (keeps_fdTableAttach rfl _ _ _ _).bind fun _ => keeps_unlock_write.bind fun _ => Keeps.pure _

/-! ## The calls -/

/-- A call that begins and ends without locks. -/
abbrev Balanced {α : Type} (P : FdTable → List (Option Nat) → Prop) (m : M α) : Prop :=
  Keeps P .none .none m

theorem balanced_onObject (fd : Nat) (rights : Rights) (host : Host) : Balanced P (onObject fd rights host) := by
  unfold onObject
  refine (keeps_fdObjectGet fd rights 0).bind fun r => ?_
  cases r with
  | error e => exact Keeps.pure _
  | ok fo =>
    exact (keeps_fdObject fo).bind fun _ => (keeps_fdObjectRelease fo).bind fun _ => Keeps.pure _

theorem balanced_fdFdstatGet (fd : Nat) (host : Host) : Balanced P (fdFdstatGet fd host) := by
  unfold fdFdstatGet
  refine keeps_rdlock.bind fun _ => Keeps.get_bind fun w => ?_
  split
  · exact keeps_unlock_read.bind fun _ => Keeps.pure _
  · exact (keeps_fdObject _).bind fun _ => keeps_unlock_read.bind fun _ => Keeps.pure _

theorem balanced_fdFdstatSetRights (fd : Nat) (base inheriting : Rights) :
    Balanced (Prestats Q) (fdFdstatSetRights fd base inheriting) := by
  unfold fdFdstatSetRights
  refine keeps_wrlock.bind fun _ => Keeps.get_bind fun w => ?_
  dsimp only
  split
  · exact keeps_unlock_write.bind fun _ => Keeps.pure _
  · exact (keeps_writeTable rfl _).bind fun _ => keeps_unlock_write.bind fun _ => Keeps.pure _

theorem keeps_rdlock_prestats : Keeps P .none .readingPrestats (log (.rdlock .prestats)) := keeps_log rfl

theorem keeps_unlock_prestats : Keeps P .readingPrestats .none (log (.unlock .prestats)) := keeps_log rfl

theorem balanced_fdPrestatGet (fd : Nat) : Balanced P (fdPrestatGet fd) := by
  unfold fdPrestatGet
  refine keeps_rdlock_prestats.bind fun _ => Keeps.get_bind fun w => ?_
  split
  · exact keeps_unlock_prestats.bind fun _ => Keeps.pure _
  · exact keeps_unlock_prestats.bind fun _ => Keeps.pure _

theorem balanced_fdPrestatDirName (fd pathLen : Nat) : Balanced P (fdPrestatDirName fd pathLen) := by
  unfold fdPrestatDirName
  refine keeps_rdlock_prestats.bind fun _ => Keeps.get_bind fun w => ?_
  split
  · exact keeps_unlock_prestats.bind fun _ => Keeps.pure _
  · refine Keeps.ite (fun _ => ?_) fun _ => ?_
    · exact keeps_unlock_prestats.bind fun _ => Keeps.pure _
    · exact keeps_unlock_prestats.bind fun _ => Keeps.pure _

theorem balanced_fdPrestatsInsert (realloc : Nat → Bool) (fd : Nat) (dir : Option Nat) :
    Balanced Any (fdPrestatsInsert realloc fd dir) := by
  have hlock : Keeps Any .none ⟨.free, .exclusive, []⟩ (log (.wrlock .prestats)) := keeps_log rfl
  have hunlock : Keeps Any ⟨.free, .exclusive, []⟩ .none (log (.unlock .prestats)) := keeps_log rfl
  have hset : ∀ f : World → List (Option Nat), Keeps Any ⟨.free, .exclusive, []⟩ ⟨.free, .exclusive, []⟩
      (modify fun w => { w with prestats := f w } : M Unit) :=
    fun f => keeps_of_ok fun _ _ => ⟨_, _, rfl, rfl, trivial⟩
  unfold fdPrestatsInsert
  refine hlock.bind fun _ => Keeps.get_bind fun w => ?_
  refine Keeps.ite (fun _ => ?_) fun _ => ?_
  · split
    · exact Keeps.throw _
    · refine Keeps.ite (fun _ => ?_) fun _ => ?_
      · exact (hset _).bind fun _ => hunlock.bind fun _ => Keeps.pure _
      · exact hunlock.bind fun _ => Keeps.pure _
  · exact (hset _).bind fun _ => hunlock.bind fun _ => Keeps.pure _

theorem balanced_fdClose (fd : Nat) : Balanced (Prestats Q) (fdClose fd) := by
  unfold fdClose
  refine keeps_rdlock_prestats.bind fun _ => Keeps.get_bind fun w => ?_
  refine keeps_unlock_prestats.bind fun _ => ?_
  split
  · exact Keeps.pure _
  · refine keeps_wrlock.bind fun _ => Keeps.get_bind fun w => ?_
    split
    · exact keeps_unlock_write.bind fun _ => Keeps.pure _
    · refine (keeps_fdTableDetach rfl _).bind fun fo => keeps_unlock_write.bind fun _ => ?_
      exact (keeps_fdObjectRelease fo).bind fun _ => Keeps.pure _

theorem balanced_pathGet (fd : Nat) (base inheriting : Rights) (p : PathHost) :
    Balanced P (pathGet fd base inheriting p) := by
  unfold pathGet
  split
  · exact Keeps.pure _
  · refine (keeps_fdObjectGet fd base inheriting).bind fun r => ?_
    cases r with
    | error e => exact Keeps.pure _
    | ok fo =>
      dsimp only
      split
      · exact (keeps_fdObjectRelease fo).bind fun _ => Keeps.pure _
      · next opened _ _ =>
        have hopen : Balanced P (openHost opened) := keeps_of_ok fun _ h => ⟨_, _, rfl, rfl, h⟩
        exact hopen.bind fun _ => Keeps.pure _
      · exact (keeps_fdObject fo).bind fun _ => Keeps.pure _

theorem balanced_closeHost (number : Nat) : Balanced P (closeHost number) :=
  keeps_of_ok fun _ h => ⟨_, _, rfl, rfl, h⟩

theorem balanced_pathPut (pa : PathAccess) : Balanced P (pathPut pa) := by
  unfold pathPut
  refine (keeps_fdObject _).bind fun o => Keeps.ite (fun _ => ?_) fun _ => keeps_fdObjectRelease _
  exact (balanced_closeHost _).bind fun _ => keeps_fdObjectRelease _

theorem balanced_onPath (fd : Nat) (rights : Rights) (p : PathHost) (host : Host) :
    Balanced P (onPath fd rights p host) := by
  unfold onPath
  refine (balanced_pathGet fd rights 0 p).bind fun r => ?_
  cases r with
  | error e => exact Keeps.pure _
  | ok pa => exact (balanced_pathPut pa).bind fun _ => Keeps.pure _

theorem balanced_onPaths (oldFd : Nat) (oldRights : Rights) (old : PathHost) (newFd : Nat)
    (newRights : Rights) (new : PathHost) (host : Host) :
    Balanced P (onPaths oldFd oldRights old newFd newRights new host) := by
  unfold onPaths
  refine (balanced_pathGet oldFd oldRights 0 old).bind fun r => ?_
  cases r with
  | error e => exact Keeps.pure _
  | ok oldPa =>
    refine (balanced_pathGet newFd newRights 0 new).bind fun r => ?_
    cases r with
    | error e => exact (balanced_pathPut oldPa).bind fun _ => Keeps.pure _
    | ok newPa =>
      exact (balanced_pathPut oldPa).bind fun _ => (balanced_pathPut newPa).bind fun _ => Keeps.pure _

theorem balanced_pathOpen (req : OpenRequest) (host : OpenHost) : Balanced (Prestats Q) (pathOpen req host) := by
  unfold pathOpen
  refine (balanced_pathGet _ _ _ _).bind fun r => ?_
  cases r with
  | error e => exact Keeps.pure _
  | ok pa =>
    dsimp only
    split
    · exact (balanced_pathPut pa).bind fun _ => Keeps.pure _
    · next nfd _ =>
      have hopen : Balanced (Prestats Q) (openHost nfd) := keeps_of_ok fun _ h => ⟨_, _, rfl, rfl, h⟩
      refine hopen.bind fun _ => (balanced_pathPut pa).bind fun _ => ?_
      split
      · exact (balanced_closeHost nfd).bind fun _ => Keeps.pure _
      · exact keeps_fdTableInsertFd _ _ _ _ _ _

theorem balanced_fdReaddir (fd nbyte : Nat) (fdopendir : Host)
    (answers : List (Except (Option Errno) Nat)) : Balanced P (fdReaddir fd nbyte fdopendir answers) := by
  unfold fdReaddir
  refine (keeps_fdObjectGet fd rightFdReaddir 0).bind fun r => ?_
  cases r with
  | error e => exact Keeps.pure _
  | ok fo =>
    have hlock : Keeps P .none ⟨.free, .free, [fo]⟩ (log (.mutexLock fo)) := keeps_log rfl
    have hunlock : Keeps P ⟨.free, .free, [fo]⟩ .none (log (.mutexUnlock fo)) :=
      keeps_log (by simp [Locks.step, Locks.none])
    have hrelease : ∀ r : Host, Keeps P ⟨.free, .free, [fo]⟩ .none
        (do log (.mutexUnlock fo); fdObjectRelease fo; return r) := fun r =>
      hunlock.bind fun _ => (keeps_fdObjectRelease fo).bind fun _ => Keeps.pure _
    refine (keeps_fdObject fo).bind fun o => Keeps.ite (fun _ => Keeps.throw _) fun _ => ?_
    refine hlock.bind fun _ => Keeps.ite (fun _ => ?_) fun _ => hrelease _
    cases fdopendir with
    | error e => exact hrelease _
    | ok _ =>
      have hset : ∀ o', Keeps P ⟨.free, .free, [fo]⟩ ⟨.free, .free, [fo]⟩ (setObject fo o') := fun _ =>
        keeps_of_ok fun _ h => ⟨_, _, rfl, rfl, h⟩
      exact (hset _).bind fun _ => hrelease _

theorem keeps_pollSubscribeAll (subs : List Subscription) (s : PollState) (i : Nat) :
    Keeps P l l (pollSubscribeAll s i subs) := by
  induction subs generalizing s i with
  | nil => exact Keeps.pure _
  | cons sub subs ih =>
    have hfd : ∀ fd, Keeps P l l (pollSubscribe.subscribeFd s i fd) := by
      intro fd
      unfold pollSubscribe.subscribeFd
      refine (keeps_fdObjectGetLocked fd _ 0).bind fun r => ?_
      cases r with
      | error e => exact Keeps.pure _
      | ok fo => exact (keeps_fdObject fo).bind fun _ => Keeps.pure _
    have hone : Keeps P l l (pollSubscribe s i sub) := by
      cases sub with
      | fdRead fd => exact hfd fd
      | fdWrite fd => exact hfd fd
      | clock abstime => exact Keeps.ite (fun _ => Keeps.pure _) fun _ => Keeps.pure _
      | other => exact Keeps.pure _
    exact hone.bind fun s' => ih s' (i + 1)

theorem balanced_releaseAll (fos : List (Option Nat)) : Balanced P (releaseAll fos) := by
  induction fos with
  | nil => exact Keeps.pure _
  | cons fo fos ih =>
    cases fo with
    | none => exact ih
    | some fo => exact (keeps_fdObjectRelease fo).bind fun _ => ih

theorem balanced_pollOneoff (subs : List Subscription) (host : PollHost) :
    Balanced P (pollOneoff subs host) := by
  unfold pollOneoff
  split
  · exact Keeps.pure _
  · refine Keeps.ite (fun _ => Keeps.pure _) fun _ => keeps_rdlock.bind fun _ => ?_
    refine (keeps_pollSubscribeAll subs _ _).bind fun s => keeps_unlock_read.bind fun _ => ?_
    refine (balanced_releaseAll s.fos).bind fun _ => ?_
    split
    · exact Keeps.pure _
    · exact Keeps.pure _

theorem Keeps.status {m : M (Except Errno α)} (hm : Balanced P m) : Balanced P (Posix.status m) :=
  hm.bind fun r => by
    cases r with
    | error e => exact Keeps.pure _
    | ok a => exact Keeps.pure _

theorem Keeps.ofBool {m : M Bool} (hm : Balanced P m) : Balanced P (Posix.ofBool m) :=
  hm.bind fun _ => Keeps.ite (fun _ => Keeps.pure _) fun _ => Keeps.pure _

/-- The calls that change a table. -/
def Syscall.changes : Syscall → Bool
  | .insertExisting .. => true
  | .prestatsInsert .. => true
  | .fdFdstatSetRights .. => true
  | .fdClose .. => true
  | .fdRenumber .. => true
  | .pathOpen .. => true
  | _ => false

/-- The other calls, on every path through them. -/
theorem Syscall.balanced_of_not_changes {c : Syscall} (hc : c.changes = false) : Balanced P c.run := by
  cases c with
  | hostOnly host => exact Keeps.pure _
  | fdDatasync fd host => exact balanced_onObject _ _ _
  | fdPread fd iovcnt host => exact Keeps.ite (fun _ => Keeps.pure _) fun _ => balanced_onObject _ _ _
  | fdPwrite fd iovcnt host => exact Keeps.ite (fun _ => Keeps.pure _) fun _ => balanced_onObject _ _ _
  | fdRead fd host => exact balanced_onObject _ _ _
  | fdSeek fd offset whence host =>
    exact Keeps.ite (fun _ => balanced_onObject _ _ _) fun _ => Keeps.pure _
  | fdTell fd host => exact balanced_onObject _ _ _
  | fdFdstatGet fd host => exact balanced_fdFdstatGet _ _
  | fdFdstatSetFlags fd host => exact balanced_onObject _ _ _
  | fdSync fd host => exact balanced_onObject _ _ _
  | fdWrite fd host => exact balanced_onObject _ _ _
  | fdAdvise fd advice host => exact Keeps.ite (fun _ => balanced_onObject _ _ _) fun _ => Keeps.pure _
  | fdAllocate fd host => exact balanced_onObject _ _ _
  | fdFilestatGet fd host => exact balanced_onObject _ _ _
  | fdFilestatSetSize fd host => exact balanced_onObject _ _ _
  | fdFilestatSetTimes fd fstflags host =>
    exact Keeps.ite (fun _ => balanced_onObject _ _ _) fun _ => Keeps.pure _
  | sockRecv sock host => exact balanced_onObject _ _ _
  | sockSend sock host => exact balanced_onObject _ _ _
  | sockShutdown sock how host => exact Keeps.ite (fun _ => balanced_onObject _ _ _) fun _ => Keeps.pure _
  | fdPrestatGet fd => exact balanced_fdPrestatGet _
  | fdPrestatDirName fd pathLen => exact balanced_fdPrestatDirName _ _
  | pathCreateDirectory fd p host => exact balanced_onPath _ _ _ _
  | pathLink oldFd old newFd new host => exact balanced_onPaths _ _ _ _ _ _ _
  | pathReadlink fd p host => exact balanced_onPath _ _ _ _
  | pathRename oldFd old newFd new host => exact balanced_onPaths _ _ _ _ _ _ _
  | pathFilestatGet fd p host => exact balanced_onPath _ _ _ _
  | pathFilestatSetTimes fd fstflags p host =>
    exact Keeps.ite (fun _ => balanced_onPath _ _ _ _) fun _ => Keeps.pure _
  | pathSymlink copied fd p host =>
    cases copied with
    | error e => exact Keeps.pure _
    | ok _ => exact balanced_onPath _ _ _ _
  | pathUnlinkFile fd p host => exact balanced_onPath _ _ _ _
  | pathRemoveDirectory fd p host => exact balanced_onPath _ _ _ _
  | fdReaddir fd nbyte fdopendir answers => exact balanced_fdReaddir _ _ _ _
  | pollOneoff subs host => exact (balanced_pollOneoff _ _).status
  | insertExisting alloc fd out described => cases hc
  | prestatsInsert realloc fd dir => cases hc
  | fdFdstatSetRights fd base inheriting => cases hc
  | fdClose fd => cases hc
  | fdRenumber source target => cases hc
  | pathOpen req host => cases hc

/-- The calls that change the table of descriptors leave the preopened resources alone. -/
theorem Syscall.balanced_of_prestats {c : Syscall} (hc : ∀ source target, c ≠ .fdRenumber source target)
    (hprestats : ∀ realloc fd dir, c ≠ .prestatsInsert realloc fd dir) : Balanced (Prestats Q) c.run := by
  by_cases hchanges : c.changes = false
  · exact Syscall.balanced_of_not_changes hchanges
  cases c with
  | insertExisting alloc fd out described => exact (keeps_fdTableInsertExisting _ _ _ _).ofBool
  | prestatsInsert realloc fd dir => exact absurd rfl (hprestats realloc fd dir)
  | fdFdstatSetRights fd base inheriting => exact balanced_fdFdstatSetRights _ _ _
  | fdClose fd => exact balanced_fdClose _
  | fdRenumber source target => exact absurd rfl (hc source target)
  | pathOpen req host => exact (balanced_pathOpen _ _).status
  | _ => exact absurd rfl hchanges

/-- Every call but `fd_renumber`, on every path through it. -/
theorem Syscall.balanced {c : Syscall} (hc : ∀ source target, c ≠ .fdRenumber source target) :
    Balanced Any c.run := by
  by_cases hprestats : ∃ realloc fd dir, c = .prestatsInsert realloc fd dir
  · obtain ⟨realloc, fd, dir, rfl⟩ := hprestats
    exact (balanced_fdPrestatsInsert _ _ _).ofBool
  · exact @Syscall.balanced_of_prestats (fun _ => True) c hc fun realloc fd dir heq =>
      hprestats ⟨realloc, fd, dir, heq⟩

end

/-! ## What a return says -/

section

variable {w : World} {fd fo : Nat}

/-- Nothing is said of a program that stops. -/
abbrev OnReturn {α : Type} (m : M α) (w : World) (Q : α → World → Prop) : Prop :=
  Always m w Q fun _ => True

theorem onReturn_log (e : Event) :
    OnReturn (log e) w fun _ w' => w'.table = w.table ∧ w'.prestats = w.prestats ∧ w'.objects = w.objects := by
  refine ⟨fun a w' ha => ?_, fun _ _ _ => trivial⟩
  obtain ⟨-, rfl⟩ := EStateM.Result.ok.inj ha
  exact ⟨rfl, rfl, rfl⟩

theorem onReturn_fdObject :
    OnReturn (fdObject fo) w fun o w' => w = w' ∧ w.objects[fo]? = some o ∧ o.freed = false := by
  refine ⟨fun o w' ho => ?_, fun _ _ _ => trivial⟩
  unfold fdObject at ho
  split at ho
  · next o' hget =>
    split at ho
    · cases ho
    · next hfreed =>
      obtain ⟨rfl, rfl⟩ := EStateM.Result.ok.inj ho
      exact ⟨rfl, hget, by simpa using hfreed⟩
  · cases ho

theorem onReturn_setObject (o : FdObject) :
    OnReturn (setObject fo o) w fun _ w' => w'.table = w.table ∧ w'.prestats = w.prestats ∧
      w'.objects = w.objects.set fo o := by
  refine ⟨fun a w' ha => ?_, fun _ _ _ => trivial⟩
  obtain ⟨-, rfl⟩ := EStateM.Result.ok.inj ha
  exact ⟨rfl, rfl, rfl⟩

theorem onReturn_writeTable (ft : FdTable) :
    OnReturn (writeTable ft) w fun _ w' => w'.table = ft ∧ w'.prestats = w.prestats ∧
      w'.objects = w.objects := by
  refine ⟨fun a w' ha => ?_, fun _ _ _ => trivial⟩
  obtain ⟨-, rfl⟩ := EStateM.Result.ok.inj ha
  exact ⟨rfl, rfl, rfl⟩

theorem onReturn_refcountAcquire :
    OnReturn (refcountAcquire fo) w fun _ w' => w'.table = w.table ∧ w'.prestats = w.prestats ∧
      ∃ o, w.objects[fo]? = some o ∧ o.freed = false ∧
        w'.objects = w.objects.set fo { o with refcount := o.refcount + 1 } := by
  refine onReturn_fdObject.bind ?_
  rintro o _ ⟨rfl, hget, hfreed⟩
  refine (onReturn_setObject _).mono ?_
  rintro _ w' ⟨htable, hprestats, hobjects⟩
  exact ⟨htable, hprestats, o, hget, hfreed, hobjects⟩

theorem onReturn_fdObjectRelease :
    OnReturn (fdObjectRelease fo) w fun _ w' => w'.table = w.table ∧ w'.prestats = w.prestats ∧
      ∃ o, w.objects[fo]? = some o ∧ o.freed = false ∧ o.refcount ≠ 0 := by
  unfold fdObjectRelease
  refine onReturn_fdObject.bind ?_
  rintro o _ ⟨rfl, hget, hfreed⟩
  by_cases hzero : o.refcount = 0
  · rw [if_pos hzero]
    exact Always.throw trivial
  rw [if_neg hzero]
  refine (onReturn_setObject _).bind ?_
  rintro _ w₁ ⟨htable, hprestats, -⟩
  by_cases hlast : o.refcount = 1
  · rw [if_pos hlast]
    refine Always.bind (Q := fun _ w₂ => w₂.table = w₁.table ∧ w₂.prestats = w₁.prestats) ?_ ?_
    · refine ⟨fun a w' ha => ?_, fun _ _ _ => trivial⟩
      obtain ⟨-, rfl⟩ := EStateM.Result.ok.inj ha
      exact ⟨rfl, rfl⟩
    · rintro _ w₂ ⟨htable₂, hprestats₂⟩
      refine (onReturn_setObject _).mono ?_
      rintro _ w₃ ⟨htable₃, hprestats₃, -⟩
      exact ⟨htable₃.trans (htable₂.trans htable), hprestats₃.trans (hprestats₂.trans hprestats), o, hget,
        hfreed, hzero⟩
  · rw [if_neg hlast]
    exact Always.pure ⟨htable, hprestats, o, hget, hfreed, hzero⟩

theorem onReturn_fdTableAttach {base inheriting : Rights} :
    OnReturn (fdTableAttach fd fo base inheriting) w fun _ w' =>
      w'.table = ⟨w.table.entries.set fd ⟨some fo, base, inheriting⟩, w.table.used + 1⟩ ∧
        w'.prestats = w.prestats ∧ w'.objects = w.objects ∧
        (∃ fe, w.table.entries[fd]? = some fe ∧ fe.object = none) ∧
        ((w.table.used + 1) * 2).toNat ≤ w.table.entries.length := by
  unfold fdTableAttach
  refine Always.get_bind ?_
  dsimp only
  split
  · exact Always.throw trivial
  · next fe hget =>
    by_cases hsome : fe.object.isSome = true
    · rw [if_pos hsome]
      exact Always.throw trivial
    rw [if_neg hsome]
    refine (onReturn_writeTable _).bind ?_
    rintro _ w₁ ⟨htable, hprestats, hobjects⟩
    split
    · exact Always.throw trivial
    · next hload =>
      exact Always.pure ⟨htable, hprestats, hobjects, ⟨fe, hget, by simpa using hsome⟩, not_not.mp hload⟩

theorem onReturn_fdTableDetach :
    OnReturn (fdTableDetach fd) w fun fo w' => ∃ fe, w.table.entries[fd]? = some fe ∧
      fe.object = some fo ∧ w.table.used ≠ 0 ∧
      w'.table = ⟨w.table.entries.set fd { fe with object := none }, w.table.used - 1⟩ ∧
      w'.prestats = w.prestats ∧ w'.objects = w.objects := by
  unfold fdTableDetach
  refine Always.get_bind ?_
  dsimp only
  split
  · exact Always.throw trivial
  · next fe hget =>
    split
    · exact Always.throw trivial
    · next fo hfo =>
      by_cases hzero : w.table.used = 0
      · rw [if_pos hzero]
        exact Always.throw trivial
      · rw [if_neg hzero]
        refine (onReturn_writeTable _).bind ?_
        rintro _ w₁ ⟨htable, hprestats, hobjects⟩
        exact Always.pure ⟨fe, hget, hfo, hzero, htable, hprestats, hobjects⟩

theorem onReturn_followEntry :
    OnReturn (followEntry fd) w fun p w' => w = w' ∧ w.table.entries[fd]? = some p.1 ∧
      p.1.object = some p.2 := by
  unfold followEntry
  refine Always.get_bind ?_
  split
  · exact Always.throw trivial
  · next fe hget =>
    split
    · exact Always.throw trivial
    · next fo hfo => exact Always.pure ⟨rfl, hget, hfo⟩

end

/-! ## `fd_renumber` -/

/-- `fd_renumber` once its checks have passed, as long as the table is locked, and the release of the
object that the target had. -/
def renumberLocked (source target : Nat) : M Unit := do
  let fo ← fdTableDetach target
  let (feFrom, moved) ← followEntry source
  refcountAcquire moved
  fdTableAttach target moved feFrom.rightsBase feFrom.rightsInheriting
  log (.unlock .table)
  fdObjectRelease fo

/-- The rest of `fd_renumber`. -/
def renumberUnlocked (source : Nat) : M Host := do
  let fo ← fdTableDetach source
  fdObjectRelease fo
  let ft := (← get).table
  writeTable { ft with used := ft.used - 1 }
  log (.unlock .table)
  return .ok ()

/-- Where `fd_renumber` gets past its first unlock and changes the table after it: its checks pass, the
two numbers differ, and no assertion and no pointer stops it before. -/
structure World.Relocks (w : World) (source target : Nat) : Prop where
  renumbers : w.Renumbers source target
  distinct : source ≠ target
  used : w.table.used ≠ 0
  load : (w.table.used * 2).toNat ≤ w.table.entries.length
  there : ∃ fe fe' fo fo' o o', w.table.entries[source]? = some fe ∧ fe.object = some fo ∧
    w.objects[fo]? = some o ∧ o.freed = false ∧ w.table.entries[target]? = some fe' ∧
    fe'.object = some fo' ∧ w.objects[fo']? = some o' ∧ o'.freed = false ∧ (fo = fo' ∨ o'.refcount ≠ 0)

section

variable {w : World} {source target : Nat}

theorem log_bind {β : Type} (e : Event) (f : Unit → M β) :
    (log e >>= f) w = f () { w with trace := w.trace ++ [e] } := rfl

theorem get_bind_apply {β : Type} (f : World → M β) : (get >>= f) w = f w w := rfl

theorem fdRenumber_checked (h : w.Renumbers source target) (hw : w.held = some .none) :
    ∃ w₁, w₁.table = w.table ∧ w₁.prestats = w.prestats ∧ w₁.objects = w.objects ∧
      w₁.held = some .writing ∧
      fdRenumber source target w =
        (renumberLocked source target >>= fun _ => renumberUnlocked source) w₁ := by
  obtain ⟨⟨e, htarget⟩, ⟨e', hsource⟩, ⟨p, hfrom⟩, ⟨p', hto⟩⟩ := h
  refine ⟨{ w with trace := w.trace ++ [.rdlock .prestats] ++ [.unlock .prestats] ++ [.wrlock .table] },
    rfl, rfl, rfl, ?_, ?_⟩
  · rw [World.held] at hw ⊢
    rw [Locks.run_append, Locks.run_append, Locks.run_append, hw]
    rfl
  · unfold fdRenumber renumberLocked
    simp only [log_bind, get_bind_apply, htarget, hsource, hfrom, hto, bind_assoc]
    rfl

/-- Without its last steps the function keeps the discipline. -/
theorem keeps_renumberLocked (source target : Nat) :
    Keeps Any .writing .none (renumberLocked source target) := by
  unfold renumberLocked
  refine (keeps_fdTableDetach rfl target).bind fun fo => ?_
  have hfollow : Keeps Any .writing .writing (followEntry source) := by
    unfold followEntry
    refine Keeps.get_bind fun w => ?_
    split
    · exact Keeps.throw _
    · split
      · exact Keeps.throw _
      · exact Keeps.pure _
  refine hfollow.bind fun p => (keeps_refcountAcquire p.2).bind fun _ => ?_
  refine (keeps_fdTableAttach rfl _ _ _ _).bind fun _ => ?_
  exact keeps_unlock_write.bind fun _ => keeps_fdObjectRelease fo

/-- Where the locked part returns, the source is still there, and the counter is not 0. -/
theorem onReturn_renumberLocked :
    OnReturn (renumberLocked source target) w fun _ w' =>
      (w.Renumbers source target → w.Relocks source target) ∧ w'.table.used ≠ 0 ∧
        ∃ fe fo, w'.table.entries[source]? = some fe ∧ fe.object = some fo := by
  unfold renumberLocked
  refine onReturn_fdTableDetach.bind ?_
  rintro fo' w₁ ⟨fe', htarget, hfo', hused, htable₁, -, hobjects₁⟩
  refine onReturn_followEntry.bind ?_
  rintro ⟨fe, fo⟩ _ ⟨rfl, hfrom, hfo⟩
  have hlt : target < w.table.entries.length := (List.getElem?_eq_some_iff.mp htarget).choose
  have hdistinct : source ≠ target := by
    rintro rfl
    rw [htable₁, List.getElem?_set_self hlt] at hfrom
    obtain rfl := Option.some.inj hfrom
    exact nomatch hfo
  rw [htable₁, List.getElem?_set_ne (Ne.symm hdistinct)] at hfrom
  refine onReturn_refcountAcquire.bind ?_
  rintro _ w₂ ⟨htable₂, -, o, ho, hlive, hobjects₂⟩
  rw [hobjects₁] at ho hobjects₂
  refine onReturn_fdTableAttach.bind ?_
  rintro _ w₃ ⟨htable₃, -, hobjects₃, -, hload⟩
  have hused₃ : w₂.table.used + 1 = w.table.used := by
    rw [htable₂, htable₁]
    exact BitVec.sub_add_cancel _ _
  refine (onReturn_log _).bind ?_
  rintro _ w₄ ⟨htable₄, -, hobjects₄⟩
  refine onReturn_fdObjectRelease.mono ?_
  rintro _ w₅ ⟨htable₅, -, o', ho', hlive', hpos⟩
  rw [hobjects₄, hobjects₃, hobjects₂] at ho'
  have htable : w₅.table = w₃.table := htable₅.trans htable₄
  have hthere : ∃ o', w.objects[fo']? = some o' ∧ o'.freed = false ∧ (fo = fo' ∨ o'.refcount ≠ 0) := by
    by_cases heq : fo = fo'
    · exact ⟨o, heq ▸ ho, hlive, .inl heq⟩
    · rw [List.getElem?_set_ne heq] at ho'
      exact ⟨o', ho', hlive', .inr hpos⟩
  obtain ⟨o₁, ho₁, hlive₁, hkeep⟩ := hthere
  refine ⟨fun hrenumbers => ⟨hrenumbers, hdistinct, hused, ?_, ?_⟩, ?_, fe, fo, ?_, hfo⟩
  · rw [hused₃, htable₂, htable₁, List.length_set] at hload
    exact hload
  · exact ⟨fe, fe', fo, fo', o, o₁, hfrom, hfo, ho, hlive, htarget, hfo', ho₁, hlive₁, hkeep⟩
  · rw [htable, htable₃, hused₃]
    exact hused
  · rw [htable, htable₃, htable₂, htable₁]
    dsimp only
    rw [List.set_set, List.getElem?_set_ne (Ne.symm hdistinct), hfrom]

theorem refcountAcquire_spec {fo : Nat} {o : FdObject} (ho : w.objects[fo]? = some o)
    (hlive : o.freed = false) :
    Returns (refcountAcquire fo) w fun _ w' => w'.table = w.table ∧
      w'.objects = w.objects.set fo { o with refcount := o.refcount + 1 } := by
  have hfollow : fdObject fo w = .ok o w := by
    rw [fdObject, ho]
    simp [hlive]
  refine Returns.bind (Q := fun a s => o = a ∧ w = s) ⟨o, w, hfollow, rfl, rfl⟩ ?_
  rintro _ _ ⟨rfl, rfl⟩
  exact ⟨(), _, rfl, rfl, rfl⟩

theorem World.Relocks.returns (h : w.Relocks source target) :
    Returns (renumberLocked source target) w fun _ _ => True := by
  obtain ⟨fe, fe', fo, fo', o, o', hfrom, hfo, ho, hlive, htarget, hfo', ho', hlive', hkeep⟩ := h.there
  have hlt : target < w.table.entries.length := (List.getElem?_eq_some_iff.mp htarget).choose
  unfold renumberLocked
  refine (fdTableDetach_spec htarget hfo' h.used).bind ?_
  rintro _ w₁ ⟨rfl, honly₁, htable₁⟩
  have hfrom₁ : w₁.table.entries[source]? = some fe := by
    rw [htable₁, List.getElem?_set_ne (Ne.symm h.distinct), hfrom]
  refine Returns.bind (Q := fun p w' => (fe, fo) = p ∧ w₁ = w') ?_ ?_
  · unfold followEntry
    refine Returns.get_bind ?_
    simp only [hfrom₁, hfo]
    exact Returns.pure ⟨rfl, rfl⟩
  rintro _ _ ⟨rfl, rfl⟩
  refine (refcountAcquire_spec (honly₁.objects ▸ ho) hlive).bind ?_
  rintro _ w₂ ⟨htable₂, hobjects₂⟩
  have htable : w₂.table = ⟨w.table.entries.set target { fe' with object := none }, w.table.used - 1⟩ :=
    htable₂.trans htable₁
  have hslot : w₂.table.entries[target]? = some { fe' with object := none } := by
    rw [htable, List.getElem?_set_self hlt]
  have hroom : ((w₂.table.used + 1) * 2).toNat ≤ w₂.table.entries.length := by
    rw [htable, BitVec.sub_add_cancel, List.length_set]
    exact h.load
  refine (fdTableAttach_spec hslot rfl hroom).bind ?_
  rintro _ w₃ ⟨honly₃, -⟩
  refine Returns.bind (Q := fun _ w₄ => w₄.objects = w₃.objects) ⟨(), _, rfl, rfl⟩ ?_
  intro _ w₄ hobjects₄
  have hobjects : w₄.objects = w.objects.set fo { o with refcount := o.refcount + 1 } := by
    rw [hobjects₄, honly₃.objects, hobjects₂, honly₁.objects]
  by_cases heq : fo = fo'
  · subst heq
    have hget : w₄.objects[fo]? = some { o with refcount := o.refcount + 1 } := by
      rw [hobjects, List.getElem?_set_self (List.getElem?_eq_some_iff.mp ho).choose]
    exact (fdObjectRelease_spec hget hlive (Nat.succ_pos _)).mono fun _ _ _ => trivial
  · have hget : w₄.objects[fo']? = some o' := by
      rw [hobjects, List.getElem?_set_ne heq, ho']
    have hpos : 0 < o'.refcount := Nat.pos_of_ne_zero (hkeep.resolve_left heq)
    exact (fdObjectRelease_spec hget hlive' hpos).mono fun _ _ _ => trivial

/-! ### Once the discipline is broken -/

/-- A trace that cannot be replayed stays so. -/
def StaysBroken {α : Type} (m : M α) : Prop :=
  ∀ w, w.held = none → Always m w (fun _ w' => w'.held = none) fun w' => w'.held = none

theorem StaysBroken.bind {α β : Type} {m : M α} {f : α → M β} (hm : StaysBroken m)
    (hf : ∀ a, StaysBroken (f a)) : StaysBroken (m >>= f) :=
  fun w h => (hm w h).bind fun a w' h' => hf a w' h'

theorem StaysBroken.ite {α : Type} {p : Prop} [Decidable p] {m m' : M α} (hm : StaysBroken m)
    (hm' : StaysBroken m') : StaysBroken (if p then m else m') := by
  split
  · exact hm
  · exact hm'

theorem StaysBroken.pure {α : Type} (a : α) : StaysBroken (Pure.pure a : M α) := fun _ h => Always.pure h

theorem staysBroken_log (e : Event) : StaysBroken (log e) := by
  intro w hw
  refine ⟨fun a w' ha => ?_, fun e w' he => nomatch he⟩
  obtain ⟨-, rfl⟩ := EStateM.Result.ok.inj ha
  rw [World.held] at hw
  rw [World.held, Locks.run_append, hw]
  rfl

theorem staysBroken_of_ok {α : Type} {m : M α} (h : ∀ w, ∃ a w', m w = .ok a w' ∧ w'.trace = w.trace) :
    StaysBroken m := by
  intro w hw
  obtain ⟨a, w', hok, htrace⟩ := h w
  refine ⟨fun b w₁ hb => ?_, fun e w₁ he => nomatch hok.symm.trans he⟩
  obtain ⟨-, rfl⟩ := EStateM.Result.ok.inj (hok.symm.trans hb)
  unfold World.held at hw ⊢
  rw [htrace, hw]

theorem staysBroken_fdObjectRelease (fo : Nat) : StaysBroken (fdObjectRelease fo) := by
  have hset : ∀ o', StaysBroken (setObject fo o') := fun _ => staysBroken_of_ok fun _ => ⟨_, _, rfl, rfl⟩
  have hfollow : StaysBroken (fdObject fo) := by
    intro w hw
    unfold fdObject
    cases hfo : w.objects[fo]? with
    | none => exact ⟨by simp [hfo], by simp [hfo, hw]⟩
    | some o =>
      by_cases hfreed : o.freed = true
      · exact ⟨by simp [hfo, hfreed], by simp [hfo, hfreed, hw]⟩
      · exact ⟨by simp [hfo, hfreed, hw], by simp [hfo, hfreed]⟩
  unfold fdObjectRelease
  refine hfollow.bind fun o => StaysBroken.ite (fun w hw => Always.throw hw) ?_
  have hclose : StaysBroken (closeHost o.number) := staysBroken_of_ok fun _ => ⟨_, _, rfl, rfl⟩
  refine (hset _).bind fun _ => ?_
  exact StaysBroken.ite (hclose.bind fun _ => hset _) (StaysBroken.pure _)

theorem staysBroken_writeTable (ft : FdTable) : StaysBroken (writeTable ft) :=
  (staysBroken_log .write).bind fun _ => staysBroken_of_ok fun _ => ⟨_, _, rfl, rfl⟩

/-- The rest of `fd_renumber` detaches the source with no lock held. -/
theorem renumberUnlocked_breaks {fe : FdEntry} {fo : Nat} (hw : w.held = some .none)
    (hget : w.table.entries[source]? = some fe) (hfo : fe.object = some fo) (hused : w.table.used ≠ 0) :
    Always (renumberUnlocked source) w (fun _ w' => w'.held = none) fun w' => w'.held = none := by
  unfold renumberUnlocked
  refine Always.bind (Q := fun _ w' => w'.held = none) ?_ ?_
  · unfold fdTableDetach
    refine Always.get_bind ?_
    simp only [hget, hfo, if_neg hused]
    refine Always.bind (Q := fun _ w' => w'.held = none) ?_ fun _ _ h => Always.pure h
    refine ⟨fun a w' ha => ?_, fun e w' he => nomatch he⟩
    obtain ⟨-, rfl⟩ := EStateM.Result.ok.inj ha
    rw [World.held] at hw
    rw [World.held, Locks.run_append, hw]
    rfl
  · intro fo w₁ h₁
    have hrest : StaysBroken (do
        fdObjectRelease fo
        let ft := (← get).table
        writeTable { ft with used := ft.used - 1 }
        log (.unlock .table)
        return (.ok () : Host)) := by
      refine (staysBroken_fdObjectRelease fo).bind fun _ => ?_
      intro w hw
      refine Always.get_bind ?_
      refine StaysBroken.bind (staysBroken_writeTable _) (fun _ => ?_) w hw
      exact (staysBroken_log _).bind fun _ => StaysBroken.pure _
    exact hrest w₁ h₁

end

/-! ## Every call -/

/-- A call keeps to the locks: it takes none twice, releases none it does not hold, changes the table
only with the table locked exclusively, and when it returns it holds none. -/
def Syscall.Disciplined (c : Syscall) (w : World) : Prop :=
  Always c.run w.enter (fun _ w' => w'.held = some .none) fun w' => w'.held ≠ none

/-- The calls that do not. -/
def Syscall.Relocks (w : World) : Syscall → Prop
  | .fdRenumber source target => w.Relocks source target
  | _ => False

section

variable {w : World} {source target : Nat}

/-- Where the checks of `fd_renumber` do not pass. -/
theorem balanced_fdRenumber (h : ¬ w.Renumbers source target) :
    Balanced (fun ft prestats => ft = w.table ∧ prestats = w.prestats) (fdRenumber source target) := by
  unfold fdRenumber
  refine keeps_rdlock_prestats.bind fun _ => Keeps.get_bind_of ?_
  rintro w₁ ⟨-, hprestats⟩
  dsimp only
  rw [hprestats]
  refine keeps_unlock_prestats.bind fun _ => ?_
  cases htarget : fdPrestatsGetEntry w.prestats target with
  | ok len => exact Keeps.pure _
  | error e =>
    cases hsource : fdPrestatsGetEntry w.prestats source with
    | ok len => exact Keeps.pure _
    | error e' =>
      refine keeps_wrlock.bind fun _ => Keeps.get_bind_of ?_
      rintro w₂ ⟨htable₂, -⟩
      rw [htable₂]
      cases hfrom : fdTableGetEntry w.table source 0 0 with
      | error e => exact keeps_unlock_write.bind fun _ => Keeps.pure _
      | ok p =>
        refine Keeps.get_bind_of ?_
        rintro w₃ ⟨htable₃, -⟩
        rw [htable₃]
        cases hto : fdTableGetEntry w.table target 0 0 with
        | error e => exact keeps_unlock_write.bind fun _ => Keeps.pure _
        | ok p' => exact absurd ⟨⟨e, htarget⟩, ⟨e', hsource⟩, ⟨p, hfrom⟩, ⟨p', hto⟩⟩ h

/-- Where they pass, the call is disciplined exactly if it stops before its first unlock is behind it. -/
theorem fdRenumber_disciplined (h : w.Renumbers source target) (hw : w.held = some .none) :
    Always (fdRenumber source target) w (fun _ w' => w'.held = some .none) (fun w' => w'.held ≠ none) ↔
      ¬ w.Relocks source target := by
  obtain ⟨w₁, htable, hprestats, hobjects, hheld, heq⟩ := fdRenumber_checked h hw
  have hrelocks : w₁.Relocks source target ↔ w.Relocks source target := by
    constructor
    · rintro ⟨-, h₂, h₃, h₄, h₅⟩
      rw [htable] at h₃ h₄ h₅
      exact ⟨h, h₂, h₃, h₄, hobjects ▸ h₅⟩
    · rintro ⟨-, h₂, h₃, h₄, h₅⟩
      rw [← htable] at h₃ h₄ h₅
      refine ⟨?_, h₂, h₃, h₄, hobjects.symm ▸ h₅⟩
      rwa [World.Renumbers, htable, hprestats]
  have hrenumbers : w₁.Renumbers source target := by rwa [World.Renumbers, htable, hprestats]
  rw [Always, heq, ← hrelocks]
  have hlocked := keeps_renumberLocked source target w₁ ⟨hheld, trivial⟩
  cases hrun : renumberLocked source target w₁ with
  | error e w₂ =>
    rw [bind_of_error hrun]
    refine iff_of_true ⟨(fun _ _ ha => by cases ha), fun e' w' he => ?_⟩ fun hre => ?_
    · obtain ⟨-, rfl⟩ := EStateM.Result.error.inj he
      exact hlocked.2 _ _ hrun
    · obtain ⟨a, w', hok, -⟩ := hre.returns
      rw [hrun] at hok
      cases hok
  | ok a w₂ =>
    rw [bind_of_ok hrun]
    obtain ⟨hre, hused, fe, fo, hget, hfo⟩ := onReturn_renumberLocked.1 _ _ hrun
    have hbreaks := renumberUnlocked_breaks (hlocked.1 _ _ hrun).1 hget hfo hused
    refine iff_of_false ?_ (not_not.mpr (hre hrenumbers))
    rintro ⟨hok, herror⟩
    cases hend : renumberUnlocked source w₂ with
    | ok r w₃ => exact Option.some_ne_none _ ((hok r w₃ hend).symm.trans (hbreaks.1 r w₃ hend))
    | error e w₃ => exact herror e w₃ hend (hbreaks.2 e w₃ hend)

end

/-- **The locks of every call.** From every state, and with every answer of the host, a call keeps to the
locks exactly if it is not an `fd_renumber` that gets past its checks. -/
theorem disciplined_iff (c : Syscall) (w : World) : c.Disciplined w ↔ ¬ c.Relocks w := by
  have henter : w.enter.held = some .none := rfl
  by_cases hc : ∃ source target, c = .fdRenumber source target
  · obtain ⟨source, target, rfl⟩ := hc
    have hrelocks : w.enter.Relocks source target ↔ w.Relocks source target :=
      ⟨fun ⟨h₁, h₂, h₃, h₄, h₅⟩ => ⟨h₁, h₂, h₃, h₄, h₅⟩, fun ⟨h₁, h₂, h₃, h₄, h₅⟩ => ⟨h₁, h₂, h₃, h₄, h₅⟩⟩
    by_cases h : w.enter.Renumbers source target
    · exact (fdRenumber_disciplined h henter).trans (not_congr hrelocks)
    · have hkeeps := balanced_fdRenumber h w.enter ⟨henter, rfl, rfl⟩
      exact iff_of_true (hkeeps.mono fun _ _ hw => hw.1) fun hre => h hre.renumbers
  · have hkeeps := Syscall.balanced (fun source target heq => hc ⟨source, target, heq⟩) w.enter
      ⟨henter, trivial⟩
    refine iff_of_true (hkeeps.mono fun _ _ hw => hw.1) ?_
    cases c with
    | fdRenumber source target => exact absurd ⟨source, target, rfl⟩ hc
    | _ => exact not_false

/-- A descriptor is given the number of another one. -/
theorem not_disciplined_twoFiles : ¬ ∀ (c : Syscall) (w : World), c.Disciplined w := by
  intro hall
  have hdisciplined := (hall (.fdRenumber 0 1) .twoFiles).1 (.ok ()) _ rfl
  revert hdisciplined
  decide

end Wasmtime.Wasi.Posix
