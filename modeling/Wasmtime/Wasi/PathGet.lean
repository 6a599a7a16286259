import Mathlib
import Wasmtime.Lib.Pathname

/-!
# The path sandbox

Model of `path_get` without Capsicum, with `readlinkat_dup`, `str_nullterminate` and
`fd_table_get_entry` (`wasmtime-wasi-c/sandboxed-system-primitives/src/posix.c`, `str.c`).

* A host descriptor is the node it was opened on. `fds[curfd]` is `cur` and the ones under it are
  `up`, the nearest first; `paths[curpath]` is `path` and the ones under it are `below`. The
  bounds of the three arrays are fields of the state.
* The tree does not change during the call, but a system call or an allocation may be refused at
  any time; the kernel says when. An open or a read of a link that is not refused does what POSIX
  says.
* The loop ends because an iteration uses up a component or a symlink expansion.

Results:
* `readlinkatDup_eq_ok`, `readlinkatDup_not_symlink`: what a read of a link tells.
* `step_simulates`: an iteration is one step of the resolution of the path.
* `pathGet_sandboxed`: a lease is to a directory at or under the base and one component that is
  not `..`, and denotes what the path denotes; a path that leaves the base is refused.
-/

namespace Wasmtime.Wasi

open Pathname

/-! ## The system -/

/-- The errors; `convert_errno` keeps their names. -/
inductive Errno where
  | eacces | ebadf | eilseq | einval | eintr | eio | eloop | emfile | emlink | enametoolong
  | enfile | enoent | enomem | enotcapable | enotdir
  deriving DecidableEq, Repr

/-- The errors with which a system call is refused whatever the tree holds. -/
inductive Refusal where
  | eacces | eintr | eio | emfile | enametoolong | enfile | enomem
  deriving DecidableEq, Repr

def Refusal.errno : Refusal → Errno
  | .eacces => .eacces
  | .eintr => .eintr
  | .eio => .eio
  | .emfile => .emfile
  | .enametoolong => .enametoolong
  | .enfile => .enfile
  | .enomem => .enomem

/-- What `openat` with `O_NOFOLLOW` says of a symbolic link; systems differ. -/
inductive LinkErrno where
  | eloop | emlink | enotdir
  deriving DecidableEq, Repr

def LinkErrno.errno : LinkErrno → Errno
  | .eloop => .eloop
  | .emlink => .emlink
  | .enotdir => .enotdir

/-- The directory tree, and what the system refuses at a time. -/
structure Kernel (N : Type) where
  tree : Pathname.Tree N
  linkErrno : LinkErrno
  refuseOpen : Nat → Option Refusal
  refuseLink : Nat → Nat → Option Refusal
  outOfMemory : Nat → Nat → Bool

variable {N : Type}

namespace Kernel

/-- The entry of a directory for one component. -/
def lookup (k : Kernel N) (fd : N) (file : Text) : Except Errno N :=
  match k.tree.inode fd with
  | .dir entries =>
    match entries file with
    | some n => .ok n
    | none => .error .enoent
  | _ => .error .enotdir

/-- `openat` with `O_DIRECTORY | O_NOFOLLOW` of one component. -/
def openat (k : Kernel N) (time : Nat) (fd : N) (file : Text) : Except Errno N :=
  match k.refuseOpen time with
  | some e => .error e.errno
  | none =>
    match k.lookup fd file with
    | .error e => .error e
    | .ok n =>
      match k.tree.inode n with
      | .dir _ => .ok n
      | .symlink _ => .error k.linkErrno.errno
      | .other => .error .enotdir

/-- `readlinkat` of one component into a buffer of `len` bytes: what it puts there. -/
def readlinkat (k : Kernel N) (time : Nat) (fd : N) (file : Text) (len : Nat) :
    Except Errno Text :=
  match k.refuseLink time len with
  | some e => .error e.errno
  | none =>
    match k.lookup fd file with
    | .error e => .error e
    | .ok n =>
      match k.tree.inode n with
      | .symlink target => .ok (target.take len)
      | _ => .error .einval

/-- The link that an entry is, if it is one. -/
def link (k : Kernel N) (fd : N) (file : Text) : Text :=
  match k.lookup fd file with
  | .error _ => []
  | .ok n =>
    match k.tree.inode n with
    | .symlink target => target
    | _ => []

theorem readlinkat_eq_ok {k : Kernel N} {time : Nat} {fd : N} {file buf : Text} {len : Nat}
    (h : k.readlinkat time fd file len = .ok buf) :
    ∃ n, k.lookup fd file = .ok n ∧ k.tree.inode n = .symlink (k.link fd file) ∧
      buf = (k.link fd file).take len := by
  rw [readlinkat] at h
  cases hr : k.refuseLink time len with
  | some e => simp [hr] at h
  | none =>
    cases hn : k.lookup fd file with
    | error e => simp [hr, hn] at h
    | ok n =>
      cases hi : k.tree.inode n with
      | symlink target =>
        simp only [hr, hn, hi, Except.ok.injEq] at h
        exact ⟨n, rfl, by simp [link, hn, hi], by simp [link, hn, hi, h]⟩
      | dir entries => simp [hr, hn, hi] at h
      | other => simp [hr, hn, hi] at h

/-- The loop of `readlinkat_dup`, with the size of the buffer. -/
def readlinkatDup.loop (k : Kernel N) (time : Nat) (fd : N) (path : Text) (len : Nat)
    (pos : 0 < len) : Except Errno Text :=
  if k.outOfMemory time len then .error .enomem
  else
    match h : k.readlinkat time fd path len with
    | .error e => .error e
    | .ok buf =>
      if buf.length + 1 < len then .ok buf
      else readlinkatDup.loop k time fd path (2 * len) (by omega)
termination_by (k.link fd path).length + 2 - len
decreasing_by
  obtain ⟨_, -, -, hbuf⟩ := readlinkat_eq_ok h
  have hlen : buf.length ≤ (k.link fd path).length := by
    rw [hbuf]
    exact List.length_take_le' ..
  omega

/-- `readlinkat_dup`. -/
def readlinkatDup (k : Kernel N) (time : Nat) (fd : N) (path : Text) : Except Errno Text :=
  readlinkatDup.loop k time fd path 32 (by decide)

theorem lookup_eq_ok {k : Kernel N} {fd n : N} {file : Text} (h : k.lookup fd file = .ok n) :
    ∃ entries, k.tree.inode fd = .dir entries ∧ entries file = some n := by
  rw [lookup] at h
  cases hd : k.tree.inode fd with
  | dir entries =>
    cases hn : entries file with
    | none => simp [hd, hn] at h
    | some m =>
      obtain rfl : m = n := by simpa [hd, hn] using h
      exact ⟨entries, rfl, hn⟩
  | symlink target => simp [hd] at h
  | other => simp [hd] at h

/-- `openat` opens the directory that the entry is. -/
theorem openat_eq_ok {k : Kernel N} {time : Nat} {fd n : N} {file : Text}
    (h : k.openat time fd file = .ok n) :
    ∃ entries sub, k.tree.inode fd = .dir entries ∧ entries file = some n ∧
      k.tree.inode n = .dir sub := by
  rw [openat] at h
  cases hr : k.refuseOpen time with
  | some e => simp [hr] at h
  | none =>
    cases hn : k.lookup fd file with
    | error e => simp [hr, hn] at h
    | ok m =>
      cases hi : k.tree.inode m with
      | dir sub =>
        obtain rfl : m = n := by simpa [hr, hn, hi] using h
        obtain ⟨entries, hd, he⟩ := lookup_eq_ok hn
        exact ⟨entries, sub, hd, he, hi⟩
      | symlink target => simp [hr, hn, hi] at h
      | other => simp [hr, hn, hi] at h

/-- The loop ends with a buffer that holds the whole link. -/
theorem readlinkatDup.loop_eq_ok {k : Kernel N} {time : Nat} {fd : N} {file target : Text}
    {len : Nat} {pos : 0 < len} (h : loop k time fd file len pos = .ok target) :
    ∃ n, k.lookup fd file = .ok n ∧ k.tree.inode n = .symlink target := by
  fun_induction loop k time fd file len pos with
  | case1 => cases h
  | case2 => cases h
  | case3 len pos _ buf hread hlt =>
    obtain ⟨n, hn, hi, hbuf⟩ := readlinkat_eq_ok hread
    have hwhole : buf = k.link fd file := by
      rw [hbuf] at hlt ⊢
      rw [List.length_take] at hlt
      exact List.take_of_length_le (by omega)
    cases h
    exact ⟨n, hn, hwhole ▸ hi⟩
  | case4 _ _ _ _ _ _ ih => exact ih h

/-- `readlinkat_dup` reads the whole link. -/
theorem readlinkatDup_eq_ok {k : Kernel N} {time : Nat} {fd : N} {file target : Text}
    (h : k.readlinkatDup time fd file = .ok target) :
    ∃ entries n, k.tree.inode fd = .dir entries ∧ entries file = some n ∧
      k.tree.inode n = .symlink target := by
  obtain ⟨n, hn, hi⟩ := readlinkatDup.loop_eq_ok h
  obtain ⟨entries, hd, he⟩ := lookup_eq_ok hn
  exact ⟨entries, n, hd, he, hi⟩

theorem readlinkat_not_symlink {k : Kernel N} {time : Nat} {fd : N} {file : Text} {len : Nat}
    {e : Errno} (h : k.readlinkat time fd file len = .error e) (he : e = .einval ∨ e = .enoent) :
    ∃ entries, k.tree.inode fd = .dir entries ∧
      ∀ n, entries file = some n → ∀ target, k.tree.inode n ≠ .symlink target := by
  rw [readlinkat] at h
  cases hr : k.refuseLink time len with
  | some r =>
    obtain rfl : r.errno = e := by simpa [hr] using h
    cases r <;> simp [Refusal.errno] at he
  | none =>
    cases hd : k.tree.inode fd with
    | dir entries =>
      refine ⟨entries, rfl, fun n hn target hi => ?_⟩
      simp [hr, lookup, hd, hn, hi] at h
    | symlink target =>
      obtain rfl : Errno.enotdir = e := by simpa [hr, lookup, hd] using h
      simp at he
    | other =>
      obtain rfl : Errno.enotdir = e := by simpa [hr, lookup, hd] using h
      simp at he

theorem readlinkatDup.loop_not_symlink {k : Kernel N} {time : Nat} {fd : N} {file : Text} {len : Nat}
    {pos : 0 < len} {e : Errno} (h : loop k time fd file len pos = .error e)
    (he : e = .einval ∨ e = .enoent) :
    ∃ entries, k.tree.inode fd = .dir entries ∧
      ∀ n, entries file = some n → ∀ target, k.tree.inode n ≠ .symlink target := by
  fun_induction loop k time fd file len pos with
  | case1 =>
    cases h
    simp at he
  | case2 _ _ _ _ hread =>
    cases h
    exact readlinkat_not_symlink hread he
  | case3 => cases h
  | case4 _ _ _ _ _ _ ih => exact ih h

/-- `EINVAL` and `ENOENT` say that the entry is no symbolic link. -/
theorem readlinkatDup_not_symlink {k : Kernel N} {time : Nat} {fd : N} {file : Text} {e : Errno}
    (h : k.readlinkatDup time fd file = .error e) (he : e = .einval ∨ e = .enoent) :
    ∃ entries, k.tree.inode fd = .dir entries ∧
      ∀ n, entries file = some n → ∀ target, k.tree.inode n ≠ .symlink target :=
  readlinkatDup.loop_not_symlink h he

end Kernel

/-! ## The loop -/

/-- `__WASI_LOOKUP_SYMLINK_FOLLOW` of the flags, and `needs_final_component`. -/
structure Lookup where
  follow : Bool
  needsFinalComponent : Bool
  deriving DecidableEq, Repr

/-- The variables of the loop. -/
structure State (N : Type) where
  cur : N
  up : List N
  path : Text
  below : List Text
  expansions : Nat
  time : Nat
  up_lt : up.length < 128
  below_lt : below.length < 32
  expansions_lt : expansions < 128

/-- `struct path_access`, less `follow`, which is false, and what `path_put` releases. -/
structure PathAccess (N : Type) where
  fd : N
  path : Text
  deriving DecidableEq, Repr

/-- How an iteration ends. -/
inductive Step (N : Type) where
  | next (s : State N)
  | done (r : Except Errno (PathAccess N))

namespace State

/-- The end of an iteration: the string is used up, and the one under it goes on. -/
def advance (s : State N) (cur : N) (up : List N) (up_lt : up.length < 128) : Step N :=
  if rest s.path = [] then
    match h : s.below with
    | [] => .done (.ok ⟨cur, dot⟩)
    | path :: below =>
      .next { s with
        cur, up, up_lt, path, below
        time := s.time + 1
        below_lt := by have := s.below_lt; simp [h] at this; omega }
  else .next { s with cur, up, up_lt, path := rest s.path, time := s.time + 1 }

/-- `push_symlink`. -/
def pushSymlink (s : State N) (symlink : Text) : Step N :=
  if hx : s.expansions + 1 = 128 then .done (.error .eloop)
  else
    -- The trailing slash of the component is handed on to the link.
    let path := if tail s.path ≠ [] then symlink ++ [slash] else symlink
    if rest s.path = [] then
      .next { s with
        path
        expansions := s.expansions + 1
        time := s.time + 1
        expansions_lt := by have := s.expansions_lt; omega }
    else if hb : s.below.length + 1 = 32 then .done (.error .eloop)
    else
      .next { s with
        path
        below := rest s.path :: s.below
        expansions := s.expansions + 1
        time := s.time + 1
        below_lt := by have := s.below_lt; simp; omega
        expansions_lt := by have := s.expansions_lt; omega }

/-- A component that has to be a directory. -/
def enterDirectory (k : Kernel N) (s : State N) : Step N :=
  match k.openat s.time s.cur (first s.path) with
  | .ok newdir =>
    if h : s.up.length + 1 = 128 then .done (.error .enametoolong)
    else s.advance newdir (s.cur :: s.up) (by have := s.up_lt; simp; omega)
  | .error e =>
    if e ≠ .eloop ∧ e ≠ .emlink ∧ e ≠ .enotdir then .done (.error e)
    else
      match k.readlinkatDup s.time s.cur (first s.path) with
      | .ok symlink => s.pushSymlink symlink
      | .error e => .done (.error (if e = .einval then .enotdir else e))

/-- The final component. The lease keeps its trailing slashes: it is the whole string. -/
def finalComponent (k : Kernel N) (l : Lookup) (s : State N) : Step N :=
  let found : Step N := .done (.ok ⟨s.cur, s.path⟩)
  if tail s.path ≠ [] ∨ l.follow = true then
    match k.readlinkatDup s.time s.cur (first s.path) with
    | .ok symlink => s.pushSymlink symlink
    | .error e => if e ≠ .einval ∧ e ≠ .enoent then .done (.error e) else found
  else found

/-- One iteration of the loop of `path_get`. -/
def step (k : Kernel N) (l : Lookup) (s : State N) : Step N :=
  if first s.path = [] then
    .done (.error (if tail s.path ≠ [] then .enotcapable else .enoent))
  else if first s.path = dot then s.advance s.cur s.up s.up_lt
  else if first s.path = dotdot then
    match h : s.up with
    | [] => .done (.error .enotcapable)
    | d :: up => s.advance d up (by have := s.up_lt; simp [h] at this; omega)
  else if s.below ≠ [] ∨ rest s.path ≠ [] ∨
      (tail s.path ≠ [] ∧ l.needsFinalComponent = false) then s.enterDirectory k
  else s.finalComponent k l

/-! ## What an iteration does -/

/-- The string after an iteration that moved to `cur` and `up`. -/
def Advanced (s s' : State N) : Prop :=
  (rest s.path ≠ [] ∧ s'.path = rest s.path ∧ s'.below = s.below) ∨
    (rest s.path = [] ∧ s.below = s'.path :: s'.below)

theorem advance_eq_next {s s' : State N} {cur : N} {up : List N} {up_lt : up.length < 128}
    (h : s.advance cur up up_lt = .next s') :
    s'.cur = cur ∧ s'.up = up ∧ s'.expansions = s.expansions ∧ s.Advanced s' := by
  rw [advance] at h
  by_cases hr : rest s.path = []
  · rw [if_pos hr] at h
    split at h
    · cases h
    · rename_i path below hb
      cases h
      exact ⟨rfl, rfl, rfl, .inr ⟨hr, hb⟩⟩
  · rw [if_neg hr] at h
    cases h
    exact ⟨rfl, rfl, rfl, .inl ⟨hr, rfl, rfl⟩⟩

theorem advance_eq_done {s : State N} {cur : N} {up : List N} {up_lt : up.length < 128}
    {r : Except Errno (PathAccess N)} (h : s.advance cur up up_lt = .done r) :
    rest s.path = [] ∧ s.below = [] ∧ r = .ok ⟨cur, dot⟩ := by
  rw [advance] at h
  by_cases hr : rest s.path = []
  · rw [if_pos hr] at h
    split at h
    · rename_i hb
      cases h
      exact ⟨hr, hb, rfl⟩
    · cases h
  · rw [if_neg hr] at h
    cases h

/-- The strings after a symbolic link was pushed. -/
structure Pushed (s s' : State N) (symlink : Text) : Prop where
  cur : s'.cur = s.cur
  up : s'.up = s.up
  expansions : s'.expansions = s.expansions + 1
  path : s'.path = if tail s.path ≠ [] then symlink ++ [slash] else symlink
  below : s'.below = if rest s.path = [] then s.below else rest s.path :: s.below

theorem pushSymlink_cases (s : State N) (symlink : Text) :
    (∃ s', s.pushSymlink symlink = .next s' ∧ s.Pushed s' symlink) ∨
      s.pushSymlink symlink = .done (.error .eloop) := by
  rw [pushSymlink]
  by_cases hx : s.expansions + 1 = 128
  · exact .inr (by rw [dif_pos hx])
  · rw [dif_neg hx]
    by_cases hr : rest s.path = []
    · rw [if_pos hr]
      exact .inl ⟨_, rfl, rfl, rfl, rfl, rfl, by rw [if_pos hr]⟩
    · rw [if_neg hr]
      by_cases hb : s.below.length + 1 = 32
      · exact .inr (by rw [dif_pos hb])
      · rw [dif_neg hb]
        exact .inl ⟨_, rfl, rfl, rfl, rfl, rfl, by rw [if_neg hr]⟩

/-- The directory after a component that is not a symbolic link. -/
inductive Moves (k : Kernel N) (s : State N) : N → List N → Prop
  | dot (h : first s.path = dot) : Moves k s s.cur s.up
  | dotdot {d : N} {up : List N} (h : first s.path = dotdot) (hup : s.up = d :: up) : Moves k s d up
  | directory {n : N} {entries sub : Text → Option N} (hdot : first s.path ≠ Pathname.dot)
      (hdotdot : first s.path ≠ Pathname.dotdot) (hd : k.tree.inode s.cur = .dir entries)
      (hn : entries (first s.path) = some n) (hsub : k.tree.inode n = .dir sub) :
      Moves k s n (s.cur :: s.up)

/-- The component is a symbolic link, and not a final one that is not to be followed. -/
structure Expands (k : Kernel N) (l : Lookup) (s : State N) (symlink : Text) : Prop where
  dot : first s.path ≠ Pathname.dot
  dotdot : first s.path ≠ Pathname.dotdot
  link : ∃ entries n, k.tree.inode s.cur = .dir entries ∧ entries (first s.path) = some n ∧
    k.tree.inode n = .symlink symlink
  follow : s.below ≠ [] ∨ rest s.path ≠ [] ∨ tail s.path ≠ [] ∨ l.follow = true

/-- The component is the final one, and what it is needs no expansion. -/
structure Final (k : Kernel N) (l : Lookup) (s : State N) : Prop where
  dot : first s.path ≠ Pathname.dot
  dotdot : first s.path ≠ Pathname.dotdot
  rest : rest s.path = []
  below : s.below = []
  notLink : tail s.path ≠ [] ∨ l.follow = true → ∃ entries, k.tree.inode s.cur = .dir entries ∧
    ∀ n, entries (first s.path) = some n → ∀ target, k.tree.inode n ≠ .symlink target

/-- How an iteration ends. -/
inductive Steps (k : Kernel N) (l : Lookup) (s : State N) : Step N → Prop
  | fails (e : Errno) : Steps k l s (.done (.error e))
  | moves {s' : State N} (hf : first s.path ≠ []) (h : Moves k s s'.cur s'.up)
      (hadv : s.Advanced s') (hexp : s'.expansions = s.expansions) : Steps k l s (.next s')
  | arrives {cur : N} {up : List N} (hf : first s.path ≠ []) (h : Moves k s cur up)
      (hrest : rest s.path = []) (hbelow : s.below = []) :
      Steps k l s (.done (.ok ⟨cur, Pathname.dot⟩))
  | expands {s' : State N} {symlink : Text} (hf : first s.path ≠ []) (h : Expands k l s symlink)
      (hpush : s.Pushed s' symlink) : Steps k l s (.next s')
  | final (hf : first s.path ≠ []) (h : Final k l s) : Steps k l s (.done (.ok ⟨s.cur, s.path⟩))

theorem Moves.steps {k : Kernel N} {l : Lookup} {s : State N} {cur : N} {up : List N}
    {up_lt : up.length < 128} (hf : first s.path ≠ []) (h : Moves k s cur up) :
    Steps k l s (s.advance cur up up_lt) := by
  cases ha : s.advance cur up up_lt with
  | next s' =>
    obtain ⟨rfl, rfl, hexp, hadv⟩ := advance_eq_next ha
    exact .moves hf h hadv hexp
  | done r =>
    obtain ⟨hr, hb, rfl⟩ := advance_eq_done ha
    exact .arrives hf h hr hb

theorem Expands.steps {k : Kernel N} {l : Lookup} {s : State N} {symlink : Text}
    (hf : first s.path ≠ []) (h : Expands k l s symlink) :
    Steps k l s (s.pushSymlink symlink) := by
  obtain ⟨s', hp, hpush⟩ | hp := s.pushSymlink_cases symlink
  · rw [hp]
    exact .expands hf h hpush
  · rw [hp]
    exact .fails _

/-- **What one iteration does.** -/
theorem step_steps (k : Kernel N) (l : Lookup) (s : State N) : Steps k l s (s.step k l) := by
  rw [step]
  by_cases hf : first s.path = []
  · rw [if_pos hf]
    exact .fails _
  by_cases hdot : first s.path = dot
  · rw [if_neg hf, if_pos hdot]
    exact Moves.steps hf (.dot hdot)
  by_cases hdotdot : first s.path = dotdot
  · rw [if_neg hf, if_neg hdot, if_pos hdotdot]
    split
    · exact .fails _
    · rename_i d up hup
      exact Moves.steps hf (.dotdot hdotdot hup)
  rw [if_neg hf, if_neg hdot, if_neg hdotdot]
  by_cases hmid : s.below ≠ [] ∨ rest s.path ≠ [] ∨
      (tail s.path ≠ [] ∧ l.needsFinalComponent = false)
  · rw [if_pos hmid, enterDirectory]
    have hfollow : s.below ≠ [] ∨ rest s.path ≠ [] ∨ tail s.path ≠ [] ∨ l.follow = true := by tauto
    cases ho : k.openat s.time s.cur (first s.path) with
    | ok newdir =>
      obtain ⟨entries, sub, hd, hn, hsub⟩ := Kernel.openat_eq_ok ho
      by_cases hup : s.up.length + 1 = 128
      · simp only [dif_pos hup]
        exact .fails _
      · simp only [dif_neg hup]
        exact Moves.steps hf (.directory hdot hdotdot hd hn hsub)
    | error e =>
      by_cases he : e ≠ .eloop ∧ e ≠ .emlink ∧ e ≠ .enotdir
      · simp only [if_pos he]
        exact .fails _
      · simp only [if_neg he]
        cases hl : k.readlinkatDup s.time s.cur (first s.path) with
        | ok symlink =>
          exact Expands.steps hf ⟨hdot, hdotdot, Kernel.readlinkatDup_eq_ok hl, hfollow⟩
        | error e => exact .fails _
  · rw [if_neg hmid, finalComponent]
    push Not at hmid
    obtain ⟨hbelow, hrest, -⟩ := hmid
    by_cases hexp : tail s.path ≠ [] ∨ l.follow = true
    · simp only [if_pos hexp]
      cases hl : k.readlinkatDup s.time s.cur (first s.path) with
      | ok symlink =>
        exact Expands.steps hf ⟨hdot, hdotdot, Kernel.readlinkatDup_eq_ok hl, .inr (.inr hexp)⟩
      | error e =>
        by_cases he : e ≠ .einval ∧ e ≠ .enoent
        · simp only [if_pos he]
          exact .fails _
        · simp only [if_neg he]
          refine .final hf ⟨hdot, hdotdot, hrest, hbelow, fun _ => ?_⟩
          exact Kernel.readlinkatDup_not_symlink hl (by tauto)
    · simp only [if_neg hexp]
      exact .final hf ⟨hdot, hdotdot, hrest, hbelow, fun h => absurd h hexp⟩

/-! ## The end of the loop -/

/-- The characters left in all strings. -/
def size (s : State N) : Nat := s.path.length + (s.below.map List.length).sum

/-- An iteration uses up a symlink expansion or a component. -/
theorem step_decreases {k : Kernel N} {l : Lookup} {s s' : State N} (h : s.step k l = .next s') :
    Prod.Lex (· < ·) (· < ·) (128 - s'.expansions, s'.size) (128 - s.expansions, s.size) := by
  have hs := s.step_steps k l
  rw [h] at hs
  cases hs with
  | moves hf _ hadv hexp =>
    rw [hexp]
    refine .right _ ?_
    have hlen := length_rest_lt hf
    obtain ⟨-, hp, hb⟩ | ⟨-, hb⟩ := hadv
    · rw [size, size, hp, hb]
      omega
    · rw [size, size, hb]
      simp only [List.map_cons, List.sum_cons]
      omega
  | expands _ _ hpush =>
    have hlt := s.expansions_lt
    exact .left _ _ (by rw [hpush.expansions]; omega)

/-- The loop of `path_get`. -/
def loop (k : Kernel N) (l : Lookup) (s : State N) : Except Errno (PathAccess N) :=
  match _h : s.step k l with
  | .next s' => loop k l s'
  | .done r => r
termination_by (128 - s.expansions, s.size)
decreasing_by exact step_decreases _h

theorem loop_next {k : Kernel N} {l : Lookup} {s s' : State N} (h : s.step k l = .next s') :
    s.loop k l = s'.loop k l := by
  rw [loop]
  split
  · simp_all
  · simp_all

theorem loop_done {k : Kernel N} {l : Lookup} {s : State N} {r : Except Errno (PathAccess N)}
    (h : s.step k l = .done r) : s.loop k l = r := by
  rw [loop]
  split
  · simp_all
  · simp_all

end State

/-! ## The call -/

/-- `str_nullterminate`: a copy, refused if there is no memory or if it holds a null byte. -/
def strNullterminate (k : Kernel N) (s : Text) : Except Errno Text :=
  if k.outOfMemory 0 (s.length + 1) then .error .enomem
  else if (0 : UInt8) ∈ s then .error .eilseq
  else .ok s

/-- `struct fd_entry` with an object. -/
structure FdEntry (N : Type) where
  object : N
  rightsBase : BitVec 64
  rightsInheriting : BitVec 64

/-- `fd_table_get_entry`; a free entry is `none`. -/
def fdTableGetEntry (ft : List (Option (FdEntry N))) (fd : Nat)
    (rightsBase rightsInheriting : BitVec 64) : Except Errno (FdEntry N) :=
  match ft[fd]? with
  | none | some none => .error .ebadf
  | some (some fe) =>
    if ~~~fe.rightsBase &&& rightsBase ≠ 0 ∨ ~~~fe.rightsInheriting &&& rightsInheriting ≠ 0 then
      .error .enotcapable
    else .ok fe

/-- The arguments of `path_get`. -/
structure Request where
  fd : Nat
  lookup : Lookup
  upath : Text
  rightsBase : BitVec 64
  rightsInheriting : BitVec 64

/-- The variables at the start of the loop. -/
def State.init (base : N) (path : Text) : State N where
  cur := base
  up := []
  path := path
  below := []
  expansions := 0
  time := 1
  up_lt := by simp
  below_lt := by simp
  expansions_lt := by simp

/-- `path_get`. -/
def pathGet (k : Kernel N) (curfds : List (Option (FdEntry N))) (r : Request) :
    Except Errno (PathAccess N) :=
  match strNullterminate k r.upath with
  | .error e => .error e
  | .ok path =>
    match fdTableGetEntry curfds r.fd r.rightsBase r.rightsInheriting with
    | .error e => .error e
    | .ok fe => (State.init fe.object path).loop k r.lookup


/-! ## The resolution that the loop performs -/

namespace State

/-- Where the resolution of the path stands. -/
def walk (s : State N) : Walk N where
  cur := s.cur
  todo := components s.path ++ s.below.flatMap components
  slash := endsInSlash (s.below.getLastD s.path)

/-- The directories are a stack over the base, and the strings that wait have a component each. -/
structure Inv (k : Kernel N) (base : N) (s : State N) : Prop where
  stack : k.tree.Stack base s.cur s.up
  below : ∀ p ∈ s.below, first p ≠ []

/-- The components after the first. -/
def later (s : State N) : List Text := components (rest s.path) ++ s.below.flatMap components

theorem walk_todo {s : State N} (hf : first s.path ≠ []) : s.walk.todo = first s.path :: s.later := by
  simp [walk, later, components_cons hf]

theorem later_eq_nil {k : Kernel N} {base : N} {s : State N} (hinv : s.Inv k base) :
    s.later = [] ↔ rest s.path = [] ∧ s.below = [] := by
  constructor
  · intro h
    obtain ⟨hr, hb⟩ := List.append_eq_nil_iff.mp h
    refine ⟨?_, ?_⟩
    · by_contra hne
      exact components_ne_nil (first_rest hne) hr
    · cases hbelow : s.below with
      | nil => rfl
      | cons p ps =>
        rw [hbelow, List.flatMap_cons, List.append_eq_nil_iff] at hb
        exact absurd hb.1 (components_ne_nil (hinv.below p (by simp [hbelow])))
  · rintro ⟨hr, hb⟩
    simp [later, hr, hb, components_nil]

theorem Advanced.later {s s' : State N} (h : s.Advanced s') : s'.walk.todo = s.later := by
  obtain ⟨-, hp, hb⟩ | ⟨hr, hb⟩ := h
  · simp [walk, State.later, hp, hb]
  · simp [walk, State.later, hr, hb, components_nil]

theorem endsInSlash_getLastD_rest {path : Text} (below : List Text) (h : rest path ≠ []) :
    endsInSlash (below.getLastD (rest path)) = endsInSlash (below.getLastD path) := by
  cases below with
  | nil => exact endsInSlash_rest h
  | cons p ps => rfl

theorem Advanced.slash {s s' : State N} (h : s.Advanced s') : s'.walk.slash = s.walk.slash := by
  obtain ⟨hr, hp, hb⟩ | ⟨-, hb⟩ := h
  · simp only [walk, hp, hb]
    exact endsInSlash_getLastD_rest s.below hr
  · simp only [walk, hb, List.getLastD_cons]

theorem Moves.stack {k : Kernel N} {base : N} {s : State N} {cur : N} {up : List N}
    (h : Moves k s cur up) (hs : k.tree.Stack base s.cur s.up) : k.tree.Stack base cur up := by
  cases h with
  | dot => exact hs
  | dotdot _ hup =>
    rw [hup] at hs
    exact hs.pop.2.1
  | directory _ _ hd hn hsub => exact .push hs hd hn hsub

/-- A step of the loop that moves is a step of the resolution. From a base that is no directory
neither goes anywhere. -/
theorem Moves.walk {k : Kernel N} {base : N} {s : State N} {cur : N} {up : List N}
    (h : Moves k s cur up) (follow : Bool) (hf : first s.path ≠ [])
    (hs : k.tree.Stack base s.cur s.up) :
    k.tree.walk follow s.walk = .go ⟨cur, s.later, s.walk.slash⟩ ∨
      (cur = s.cur ∧ (∀ entries, k.tree.inode cur ≠ .dir entries) ∧
        k.tree.walk follow s.walk = .fails .notDirectory) := by
  rw [Pathname.Tree.walk, walk_todo hf]
  have hcur : s.walk.cur = s.cur := rfl
  simp only [hcur]
  cases h with
  | dot h =>
    cases hi : k.tree.inode s.cur with
    | dir entries => exact .inl (by simp [h])
    | symlink target => exact .inr ⟨rfl, by simp, rfl⟩
    | other => exact .inr ⟨rfl, by simp, rfl⟩
  | dotdot h hup =>
    rw [hup] at hs
    obtain ⟨hparent, -, ⟨sub, hsub⟩, -⟩ := hs.pop
    have hne : Pathname.dotdot ≠ Pathname.dot := by decide
    exact .inl (by simp [h, hsub, hne, hparent])
  | directory hdot hdotdot hd hn hsub => exact .inl (by simp [hd, hdot, hdotdot, hn, hsub])

/-- A symbolic link that is expanded is entered by the resolution. -/
theorem Expands.walk {k : Kernel N} {l : Lookup} {base : N} {s s' : State N} {symlink : Text}
    (hf : first s.path ≠ []) (h : Expands k l s symlink) (hpush : s.Pushed s' symlink)
    (hinv : s.Inv k base) (hf' : first s'.path ≠ []) :
    k.tree.walk l.follow s.walk = .go s'.walk := by
  obtain ⟨entries, n, hd, hn, hlink⟩ := h.link
  -- The link is relative and not empty: with a slash after it, it would be absolute.
  have hsym : first symlink ≠ [] := by
    intro hnil
    refine hf' (first_eq_nil.mpr ?_)
    rw [hpush.path]
    obtain rfl | habs := first_eq_nil.mp hnil
    · by_cases ht : tail s.path ≠ []
      · exact .inr (by rw [if_pos ht]; rfl)
      · exact .inl (by rw [if_neg ht])
    · refine .inr ?_
      obtain ⟨c, t, rfl⟩ := List.exists_cons_of_ne_nil (l := symlink)
        (by rintro rfl; simp [isAbsolute] at habs)
      by_cases ht : tail s.path ≠ [] <;> simpa [ht, isAbsolute] using habs
  have hslash : s.below = [] → rest s.path = [] → (s.walk.slash = true ↔ tail s.path ≠ []) := by
    intro hb hr
    simp only [State.walk, hb]
    exact endsInSlash_of_rest_nil hr
  have hfollow : ¬(s.later = [] ∧ (l.follow || s.walk.slash) = false) := by
    rintro ⟨hl, hno⟩
    obtain ⟨hr, hb⟩ := (later_eq_nil hinv).mp hl
    simp only [Bool.or_eq_false_iff] at hno
    obtain h' | h' | h' | h' := h.follow
    · exact h' hb
    · exact h' hr
    · simp [(hslash hb hr).mpr h'] at hno
    · simp [h'] at hno
  have hwalk : k.tree.walk l.follow s.walk = k.tree.enter s.cur symlink s.later s.walk.slash := by
    rw [Pathname.Tree.walk, walk_todo hf]
    have hcur : s.walk.cur = s.cur := rfl
    simp only [hcur, hd, if_neg h.dot, if_neg h.dotdot, hn, hlink, if_neg hfollow]
  rw [hwalk, Pathname.Tree.enter_of_first hsym]
  have hcomp : components s'.path = components symlink := by
    rw [hpush.path]
    by_cases ht : tail s.path ≠ []
    · rw [if_pos ht, components_append_slash]
    · rw [if_neg ht]
  congr 1
  by_cases hr : rest s.path = []
  · have hbelow : s'.below = s.below := by rw [hpush.below, if_pos hr]
    by_cases hb : s.below = []
    · have hl : s.later = [] := (later_eq_nil hinv).mpr ⟨hr, hb⟩
      have hs : endsInSlash s.path = true ↔ tail s.path ≠ [] := endsInSlash_of_rest_nil hr
      simp only [State.walk, hpush.cur, hcomp, hbelow, hb, hl, if_true]
      congr 1
      simp only [List.getLastD_nil, hpush.path]
      by_cases ht : tail s.path ≠ []
      · rw [if_pos ht, hs.mpr ht, endsInSlash_append_slash, Bool.true_or]
      · rw [if_neg ht, Bool.eq_false_iff.mpr (fun h' => ht (hs.mp h')), Bool.false_or]
    · have hl : s.later ≠ [] := fun h' => hb ((later_eq_nil hinv).mp h').2
      obtain ⟨p, ps, hps⟩ := List.exists_cons_of_ne_nil hb
      simp only [State.walk, State.later, hpush.cur, hcomp, hbelow, hps, hr, components_nil] at hl ⊢
      rw [if_neg hl]
      rfl
  · have hbelow : s'.below = rest s.path :: s.below := by rw [hpush.below, if_neg hr]
    have hl : s.later ≠ [] := fun h' => hr ((later_eq_nil hinv).mp h').1
    rw [if_neg hl]
    simp only [State.walk, State.later, hpush.cur, hcomp, hbelow, List.flatMap_cons,
      List.getLastD_cons, endsInSlash_getLastD_rest s.below hr]

/-- What a lease has to be for a resolution: it ends with what the lease denotes without following
links, and it stays under the base. -/
structure Leased (k : Kernel N) (follow : Bool) (base : N) (next : Next N) (pa : PathAccess N) :
    Prop where
  resolves : ∀ r, k.tree.Resolves follow next r ↔
    k.tree.Resolves false (k.tree.start pa.fd pa.path) r
  ends : ∃ r, k.tree.Resolves false (k.tree.start pa.fd pa.path) r
  visits : ∀ n, k.tree.Visits follow next n → k.tree.Under base n

/-- The step before: the resolution moves on to where the lease is for, or has already failed as
it fails there. -/
theorem Leased.of_walk {k : Kernel N} {follow : Bool} {base : N} {w w' : Walk N}
    {pa : PathAccess N} (h : Leased k follow base (.go w') pa) (hcur : k.tree.Under base w.cur)
    (hwalk : k.tree.walk follow w = .go w' ∨
      k.tree.walk follow w = .fails .notDirectory ∧ k.tree.walk follow w' = .fails .notDirectory) :
    Leased k follow base (.go w) pa := by
  refine ⟨fun r => ?_, h.ends, ?_⟩
  · rw [← h.resolves r, Pathname.Tree.resolves_go, Pathname.Tree.resolves_go]
    obtain hgo | ⟨hfail, hfail'⟩ := hwalk
    · rw [hgo, Pathname.Tree.resolves_go]
    · rw [hfail, hfail']
  · intro n hn
    obtain rfl | hn := Pathname.Tree.visits_go.mp hn
    · exact hcur
    · obtain hgo | ⟨hfail, -⟩ := hwalk
      · exact h.visits n (hgo ▸ hn)
      · rw [hfail] at hn
        cases hn

/-- At the end of the path the lease is to the directory itself. -/
theorem Leased.of_arrives {k : Kernel N} {follow : Bool} {base : N} {s : State N} {cur : N}
    {up : List N} (hf : first s.path ≠ []) (h : Moves k s cur up) (hinv : s.Inv k base)
    (hl : s.later = []) : Leased k follow base (.go s.walk) ⟨cur, dot⟩ := by
  have hstart : k.tree.start cur dot = .go ⟨cur, [dot], false⟩ := rfl
  have hstack := h.stack hinv.stack
  have hdir : k.tree.walk follow s.walk = .go ⟨cur, [], s.walk.slash⟩ →
      ∃ entries, k.tree.inode cur = .dir entries := by
    intro hwalk
    cases h with
    | dot h =>
      rw [Pathname.Tree.walk, walk_todo hf] at hwalk
      have hcur : s.walk.cur = s.cur := rfl
      cases hi : k.tree.inode s.cur with
      | dir entries => exact ⟨entries, rfl⟩
      | symlink target => simp [hcur, hi] at hwalk
      | other => simp [hcur, hi] at hwalk
    | dotdot h hup => exact (hup ▸ hinv.stack).pop.2.2.2
    | directory _ _ _ _ hsub => exact ⟨_, hsub⟩
  obtain hgo | ⟨rfl, hnot, hfail⟩ := h.walk follow hf hinv.stack
  · rw [hl] at hgo
    obtain ⟨entries, hentries⟩ := hdir hgo
    refine ⟨fun r => ?_, ⟨.ok (.node cur), ?_⟩, ?_⟩
    · rw [hstart, Pathname.Tree.resolves_go, Pathname.Tree.resolves_go, hgo,
        Pathname.Tree.resolves_go]
      simp [Pathname.Tree.walk, hentries]
    · rw [hstart, Pathname.Tree.resolves_go]
      simp [Pathname.Tree.walk, hentries]
    · intro n hn
      obtain rfl | hn := Pathname.Tree.visits_go.mp hn
      · exact hinv.stack.under
      · rw [hgo] at hn
        obtain rfl | hn := Pathname.Tree.visits_go.mp hn
        · exact hstack.under
        · cases hn
  · have hpair : k.tree.walk false ⟨s.cur, [dot], false⟩ = .fails .notDirectory := by
      rw [Pathname.Tree.walk]
      cases hi : k.tree.inode s.cur with
      | dir entries => exact absurd hi (hnot entries)
      | symlink target => simp
      | other => simp
    refine ⟨fun r => ?_, ⟨.error .notDirectory, ?_⟩, ?_⟩
    · rw [hstart, Pathname.Tree.resolves_go, Pathname.Tree.resolves_go, hfail, hpair,
        Pathname.Tree.resolves_fails, Pathname.Tree.resolves_fails]
    · rw [hstart, Pathname.Tree.resolves_go, hpair, Pathname.Tree.resolves_fails]
    · intro n hn
      obtain rfl | hn := Pathname.Tree.visits_go.mp hn
      · exact hinv.stack.under
      · rw [hfail] at hn
        cases hn

/-- The step from a final component: no link is entered, whether links are followed or not. -/
theorem Final.walk {k : Kernel N} {l : Lookup} {s : State N} (hf : first s.path ≠ [])
    (h : Final k l s) :
    k.tree.walk l.follow s.walk = k.tree.walk false s.walk ∧
      ((∃ o, k.tree.walk false s.walk = .found o) ∨ (∃ e, k.tree.walk false s.walk = .fails e) ∨
        ∃ n entries sub, k.tree.inode s.cur = .dir entries ∧ entries (first s.path) = some n ∧
          k.tree.inode n = .dir sub ∧ k.tree.walk false s.walk = .go ⟨n, [], s.walk.slash⟩) := by
  have hl : s.later = [] := by simp [later, h.rest, h.below, components_nil]
  have hslash : s.walk.slash = true ↔ tail s.path ≠ [] := by
    simp only [State.walk, h.below]
    exact endsInSlash_of_rest_nil h.rest
  have hcur : s.walk.cur = s.cur := rfl
  simp only [Pathname.Tree.walk, walk_todo hf, hl, hcur]
  cases hi : k.tree.inode s.cur with
  | symlink target => simp
  | other => simp
  | dir entries =>
    simp only [if_neg h.dot, if_neg h.dotdot]
    cases hn : entries (first s.path) with
    | none => simp
    | some n =>
      cases hin : k.tree.inode n with
      | dir sub =>
        exact ⟨by simp [hin], .inr (.inr ⟨n, entries, sub, rfl, hn, hin, by simp [hin]⟩)⟩
      | other => by_cases hs : s.walk.slash = false <;> simp [hin, hs]
      | symlink target =>
        -- Neither a slash nor the flag: otherwise the link was read, and it is none.
        have hno : ¬(tail s.path ≠ [] ∨ l.follow = true) := by
          intro hread
          obtain ⟨entries', hd, hnot⟩ := h.notLink hread
          obtain rfl : entries = entries' := by simpa [hi] using hd
          exact hnot n hn target hin
        push Not at hno
        have hs : s.walk.slash = false := by simpa [hno.1] using hslash
        simp [hin, hs, hno.2]

theorem Leased.of_final {k : Kernel N} {l : Lookup} {base : N} {s : State N}
    (hf : first s.path ≠ []) (h : Final k l s) (hinv : s.Inv k base) :
    Leased k l.follow base (.go s.walk) ⟨s.cur, s.path⟩ := by
  have hstart : k.tree.start s.cur s.path = .go s.walk := by
    rw [Pathname.Tree.start, Pathname.Tree.enter_of_first hf]
    simp [State.walk, h.below]
  obtain ⟨hsame, hcases⟩ := h.walk hf
  refine ⟨fun r => ?_, ?_, ?_⟩
  · rw [hstart, Pathname.Tree.resolves_go, Pathname.Tree.resolves_go, hsame]
    obtain ⟨o, ho⟩ | ⟨e, he⟩ | ⟨n, entries, sub, -, -, -, hgo⟩ := hcases
    · rw [ho, Pathname.Tree.resolves_found, Pathname.Tree.resolves_found]
    · rw [he, Pathname.Tree.resolves_fails, Pathname.Tree.resolves_fails]
    · rw [hgo, Pathname.Tree.resolves_go, Pathname.Tree.resolves_go]
      simp [Pathname.Tree.walk]
  · simp only [hstart, Pathname.Tree.resolves_go]
    obtain ⟨o, ho⟩ | ⟨e, he⟩ | ⟨n, entries, sub, -, -, -, hgo⟩ := hcases
    · exact ⟨.ok o, by rw [ho, Pathname.Tree.resolves_found]⟩
    · exact ⟨.error e, by rw [he, Pathname.Tree.resolves_fails]⟩
    · exact ⟨.ok (.node n), by rw [hgo]; simp [Pathname.Tree.walk]⟩
  · intro n hn
    obtain rfl | hn := Pathname.Tree.visits_go.mp hn
    · exact hinv.stack.under
    · rw [hsame] at hn
      obtain ⟨o, ho⟩ | ⟨e, he⟩ | ⟨c, entries, sub, hd, hc, hsub, hgo⟩ := hcases
      · rw [ho] at hn
        cases hn
      · rw [he] at hn
        cases hn
      · rw [hgo] at hn
        obtain rfl | hn := Pathname.Tree.visits_go.mp hn
        · exact .entry hinv.stack.under hd hc hsub
        · cases hn

/-- An iteration that goes on keeps the invariant. -/
theorem Inv.next {k : Kernel N} {l : Lookup} {base : N} {s s' : State N} (hinv : s.Inv k base)
    (h : Steps k l s (.next s')) : s'.Inv k base := by
  cases h with
  | moves _ h hadv _ =>
    refine ⟨h.stack hinv.stack, fun p hp => hinv.below p ?_⟩
    obtain ⟨-, -, hb⟩ | ⟨-, hb⟩ := hadv
    · exact hb ▸ hp
    · simp [hb, hp]
  | expands _ _ hpush =>
    refine ⟨by rw [hpush.cur, hpush.up]; exact hinv.stack, fun p hp => ?_⟩
    rw [hpush.below] at hp
    by_cases hr : rest s.path = []
    · rw [if_pos hr] at hp
      exact hinv.below p hp
    · rw [if_neg hr] at hp
      obtain rfl | hp := List.mem_cons.mp hp
      · exact first_rest hr
      · exact hinv.below p hp

/-- An iteration that goes on leaves the resolution what it was, as far as a lease can tell. -/
theorem step_simulates {k : Kernel N} {l : Lookup} {base : N} {s s' : State N} {pa : PathAccess N}
    (hinv : s.Inv k base) (h : Steps k l s (.next s')) (hf' : first s'.path ≠ [])
    (hleased : Leased k l.follow base (.go s'.walk) pa) :
    Leased k l.follow base (.go s.walk) pa := by
  refine hleased.of_walk hinv.stack.under ?_
  cases h with
  | moves hf h hadv _ =>
    have hwalk' : s'.walk = ⟨s'.cur, s.later, s.walk.slash⟩ := by
      rw [← hadv.later, ← hadv.slash]
      rfl
    obtain hgo | ⟨hcur, hnot, hfail⟩ := h.walk l.follow hf hinv.stack
    · exact .inl (hwalk' ▸ hgo)
    · refine .inr ⟨hfail, ?_⟩
      have hc : s'.walk.cur = s'.cur := rfl
      rw [Pathname.Tree.walk, walk_todo hf', hc]
      cases hi : k.tree.inode s'.cur with
      | dir entries => exact absurd hi (hnot entries)
      | symlink target => rfl
      | other => rfl
  | expands hf h hpush => exact .inl (h.walk hf hpush hinv hf')

/-- One component other than `..`, with slashes after it only if it is no symbolic link. -/
def IsLeaf (k : Kernel N) (pa : PathAccess N) : Prop :=
  ∃ name slashes, pa.path = name ++ slashes ∧ name ≠ [] ∧ slash ∉ name ∧ name ≠ dotdot ∧
    (∀ c ∈ slashes, c = slash) ∧
    (slashes ≠ [] → ∀ entries n target, k.tree.inode pa.fd = .dir entries →
      entries name = some n → k.tree.inode n ≠ .symlink target)

theorem isLeaf_dot (k : Kernel N) (fd : N) : IsLeaf k ⟨fd, dot⟩ :=
  ⟨dot, [], rfl, by decide, by decide, by decide, by simp, by simp⟩

theorem Final.isLeaf {k : Kernel N} {l : Lookup} {s : State N} (hf : first s.path ≠ [])
    (h : Final k l s) : IsLeaf k ⟨s.cur, s.path⟩ := by
  refine ⟨first s.path, tail s.path, (first_append_tail _).symm, hf, slash_notMem_first _,
    h.dotdot, ?_, ?_⟩
  · simpa using List.dropWhile_eq_nil_iff.mp h.rest
  · intro ht entries n target hd hn
    obtain ⟨entries', hd', hnot⟩ := h.notLink (.inl ht)
    obtain rfl : entries = entries' := by simpa [hd] using hd'
    exact hnot n hn target

/-- **The loop, from any state with the invariant**: where it succeeds, the path starts with a
component, and the lease is what it has to be. -/
theorem loop_leased {k : Kernel N} {l : Lookup} {base : N} {s : State N} {pa : PathAccess N}
    (hinv : s.Inv k base) (h : s.loop k l = .ok pa) :
    first s.path ≠ [] ∧ Leased k l.follow base (.go s.walk) pa ∧ k.tree.Under base pa.fd ∧
      IsLeaf k pa := by
  fun_induction loop k l s with
  | case1 s s' hstep ih =>
    have hsteps := s.step_steps k l
    rw [hstep] at hsteps
    obtain ⟨hf', hleased, hunder, hleaf⟩ := ih (hinv.next hsteps) h
    have hf : first s.path ≠ [] := by cases hsteps <;> assumption
    exact ⟨hf, step_simulates hinv hsteps hf' hleased, hunder, hleaf⟩
  | case2 s r hstep =>
    have hsteps := s.step_steps k l
    rw [hstep] at hsteps
    subst h
    cases hsteps with
    | arrives hf hmoves hrest hbelow =>
      have hl : s.later = [] := by simp [later, hrest, hbelow, components_nil]
      exact ⟨hf, .of_arrives hf hmoves hinv hl, (hmoves.stack hinv.stack).under, isLeaf_dot k _⟩
    | final hf hfinal =>
      exact ⟨hf, .of_final hf hfinal hinv, hinv.stack.under, hfinal.isLeaf hf⟩

end State

/-! ## The sandbox -/

/-- A lease is to a descriptor at or under the base and to one component, and denotes what the
path denotes from the base. -/
structure Sandboxed (k : Kernel N) (base : N) (path : Text) (follow : Bool) (pa : PathAccess N) :
    Prop where
  under : k.tree.Under base pa.fd
  leaf : State.IsLeaf k pa
  denotes : ∃ r, k.tree.Resolves follow (k.tree.start base path) r ∧
    k.tree.Resolves false (k.tree.start pa.fd pa.path) r
  stays : ∀ n, k.tree.Visits follow (k.tree.start base path) n → k.tree.Under base n

/-- **The sandbox.** A call that succeeds gives a sandboxed lease for the node of the descriptor,
and a call whose path would leave that node's subtree fails. -/
theorem pathGet_sandboxed (k : Kernel N) (curfds : List (Option (FdEntry N))) (r : Request) :
    (∀ pa, pathGet k curfds r = .ok pa →
      ∃ fe, fdTableGetEntry curfds r.fd r.rightsBase r.rightsInheriting = .ok fe ∧
        Sandboxed k fe.object r.upath r.lookup.follow pa) ∧
      ∀ fe n, fdTableGetEntry curfds r.fd r.rightsBase r.rightsInheriting = .ok fe →
        k.tree.Visits r.lookup.follow (k.tree.start fe.object r.upath) n →
        ¬k.tree.Under fe.object n → ∃ e, pathGet k curfds r = .error e := by
  have hok : ∀ pa, pathGet k curfds r = .ok pa →
      ∃ fe, fdTableGetEntry curfds r.fd r.rightsBase r.rightsInheriting = .ok fe ∧
        Sandboxed k fe.object r.upath r.lookup.follow pa := by
    intro pa h
    rw [pathGet] at h
    cases hp : strNullterminate k r.upath with
    | error e => simp [hp] at h
    | ok path =>
      obtain rfl : path = r.upath := by
        rw [strNullterminate] at hp
        split_ifs at hp
        exact (Except.ok.inj hp).symm
      cases hfe : fdTableGetEntry curfds r.fd r.rightsBase r.rightsInheriting with
      | error e => simp [hp, hfe] at h
      | ok fe =>
        simp only [hp, hfe] at h
        have hinv : (State.init fe.object r.upath).Inv k fe.object := ⟨.base, by simp [State.init]⟩
        obtain ⟨hf, hleased, hunder, hleaf⟩ := State.loop_leased hinv h
        have hstart : k.tree.start fe.object r.upath = .go (State.init fe.object r.upath).walk := by
          rw [Pathname.Tree.start, Pathname.Tree.enter_of_first (show first r.upath ≠ [] from hf)]
          simp [State.walk, State.init]
        rw [← hstart] at hleased
        obtain ⟨res, hres⟩ := hleased.ends
        exact ⟨fe, rfl, hunder, hleaf, ⟨res, (hleased.resolves res).mpr hres, hres⟩,
          hleased.visits⟩
  refine ⟨hok, fun fe n hfe hn hout => ?_⟩
  cases h : pathGet k curfds r with
  | error e => exact ⟨e, rfl⟩
  | ok pa =>
    obtain ⟨fe', hfe', hsand⟩ := hok pa h
    obtain rfl : fe = fe' := by simpa [hfe] using hfe'
    exact absurd (hsand.stays n hn) hout

/-- A tree: the root `0` has a directory `1` named `d`, which has a link `2` named `l` to `..` and
a link `3` named `m` to `/`. -/
def exampleTree : Pathname.Tree Nat where
  inode
    | 0 => .dir fun name => if name = [100] then some 1 else none
    | 1 => .dir fun name => if name = [108] then some 2 else if name = [109] then some 3 else none
    | 2 => .symlink dotdot
    | 3 => .symlink [slash]
    | _ => .other
  root := 0
  parent := fun _ => 0
  parent_entry := by
    intro d entries name c sub hd hn hsub
    match d with
    | 0 => rfl
    | 1 =>
      obtain rfl : _ = entries := Inode.dir.inj hd
      simp only at hn
      split_ifs at hn
      · obtain rfl : 2 = c := Option.some.inj hn
        cases hsub
      · obtain rfl : 3 = c := Option.some.inj hn
        cases hsub
    | 2 => cases hd
    | 3 => cases hd
    | n + 4 => cases hd

/-- A system that refuses nothing. -/
def exampleKernel : Kernel Nat where
  tree := exampleTree
  linkErrno := .eloop
  refuseOpen := fun _ => none
  refuseLink := fun _ _ => none
  outOfMemory := fun _ _ => false

/-- A call on descriptor `0`. -/
def exampleRequest (follow : Bool) (upath : Text) : Request :=
  ⟨0, ⟨follow, false⟩, upath, 0, 0⟩

/-- The loop on `d/l` from the root: the directory is opened, and the link is the final
component. -/
theorem exampleLoop : (State.init 0 [100, slash, 108]).loop exampleKernel ⟨false, false⟩ =
    .ok ⟨1, [108]⟩ := by
  have hopen : (State.init 0 [100, slash, 108]).step exampleKernel ⟨false, false⟩ =
      .next { State.init 1 [108] with up := [0], time := 2, up_lt := by simp } := rfl
  have hfinal : State.step exampleKernel ⟨false, false⟩
      { State.init 1 [108] with up := [0], time := 2, up_lt := by simp } =
        .done (.ok ⟨1, [108]⟩) := rfl
  rw [State.loop_next hopen, State.loop_done hfinal]

/-- The root is not under the directory: a node under it that is a directory is itself. -/
theorem example_not_under : ¬exampleTree.Under 1 0 := by
  have hunder : ∀ n, exampleTree.Under 1 n → n = 1 := by
    intro n h
    induction h with
    | base => rfl
    | @entry d c entries sub name _ hd hc hsub ih =>
      subst ih
      obtain rfl : _ = entries := Inode.dir.inj hd
      simp only at hc
      split_ifs at hc
      · obtain rfl : 2 = c := Option.some.inj hc
        cases hsub
      · obtain rfl : 3 = c := Option.some.inj hc
        cases hsub
  exact fun h => absurd (hunder 0 h) (by decide)

/-- From the root, `d/l` is leased as `l` in the directory. From the directory, following the link
leaves it. -/
theorem pathGet_example :
    Sandboxed exampleKernel 0 [100, slash, 108] false ⟨1, [108]⟩ ∧
      ∃ e, pathGet exampleKernel [some ⟨1, 0, 0⟩] (exampleRequest true [108]) = .error e := by
  constructor
  · obtain ⟨fe, hfe, h⟩ := (pathGet_sandboxed exampleKernel [some ⟨0, 0, 0⟩]
      (exampleRequest false [100, slash, 108])).1 ⟨1, [108]⟩ exampleLoop
    obtain rfl : ⟨0, 0, 0⟩ = fe := Except.ok.inj hfe
    exact h
  · refine (pathGet_sandboxed exampleKernel [some ⟨1, 0, 0⟩] (exampleRequest true [108])).2
      ⟨1, 0, 0⟩ 0 rfl ?_ example_not_under
    -- The link `l` is entered, and `..` leads to the root.
    exact .later (.later (.here ⟨0, [], false⟩))

end Wasmtime.Wasi
