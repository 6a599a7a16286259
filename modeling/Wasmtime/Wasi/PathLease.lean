import Mathlib
import Wasmtime.Lib.Blocks
import Wasmtime.Lib.Pathname
import Wasmtime.Wasi.Holding

/-!
# What `path_get` takes and gives back

Model of `path_get` without Capsicum, with `path_put`, `readlinkat_dup` and `str_nullterminate`
(`src/wasmtime-wasi-c/sandboxed-system-primitives/src/posix.c`, `str.c`), down to the descriptors it
opens and the bytes of the strings it allocates.

* The host answers each call as it likes, and may answer the same call otherwise the next time, so a
  link may be any text, cycles included, and any call may fail. A descriptor that is opened was not
  open, a link fills its buffer at most, and no block has `PTRDIFF_MAX` bytes.
* Strings are bytes in heap blocks. A write outside a block, a second `free` or `close`, and an index
  outside `fds` or `paths` stop the program with a fault.
* `dirs` are `fds[curfd]` down to `fds[1]`; `path` is entry `curpath` of `paths` and `paths_start`, and
  `below` are the ones under it.
* The loop has a bound on its rounds, and faults where it runs out; the results are about every bound
  from some number on.

Results: `readlinkatDup_spec` (a link is read whole, and its block has room for a slash), `step_spec` (an
iteration keeps `LoopInv` and uses up an expansion or a byte), `loop_spec` (the loop ends), and:

* `pathGet_settled`: a call that fails has given everything back, and a call that succeeds has a lease
  that `path_put` gives back. No step on the way faults.
-/

namespace Wasmtime.Wasi.PathLease

open Posix hiding PathAccess pathGet pathPut M closeHost
open Triple Blocks Pathname

/-! ## The host -/

/-- The values of `errno` that `path_get` tells apart. -/
inductive HostErrno where
  | eloop | emlink | enotdir | einval | enoent
  | other (n : UInt16)
  deriving DecidableEq, Repr

/-- `convert_errno`. -/
def convertErrno : HostErrno → Posix.Errno
  | .eloop => .eloop
  | .emlink => .host 34
  | .enotdir => .host 54
  | .einval => .einval
  | .enoent => .host 44
  | .other n => .host n

/-- What the host answers, by the number of the answer. `junk` is what a new block holds. -/
structure Host where
  strndup : Nat → Bool
  openat : Nat → List Nat → Nat → Text → Except HostErrno Nat
  openat_new : ∀ t opened dir file n, openat t opened dir file = .ok n → n ∉ opened
  readlinkat : Nat → Nat → Text → Nat → Except HostErrno Text
  readlinkat_le : ∀ t dir file len text, readlinkat t dir file len = .ok text → text.length ≤ len
  realloc : Nat → Nat → Bool
  realloc_lt : ∀ t len, realloc t len = true → len < 2 ^ 63
  junk : Nat → Nat → UInt8

/-! ## The machine -/

/-- Why a program stops. -/
inductive Fault where
  | posix (s : Stop)
  | outOfRange | overrun | badFree | badClose | endless
  deriving DecidableEq, Repr

/-- The tables and the host's descriptors, the heap, and how often the host has answered. -/
structure Process where
  world : World
  heap : Heap UInt8
  answers : Nat

abbrev M := EStateM Fault Process

/-- A program on the tables. -/
def onWorld {α : Type} (m : Posix.M α) : M α := fun p =>
  match m p.world with
  | .ok a w => .ok a { p with world := w }
  | .error s w => .error (.posix s) { p with world := w }

/-- The next answer of the host. -/
def answer {α : Type} (f : Nat → α) : M α := fun p =>
  .ok (f p.answers) { p with answers := p.answers + 1 }

/-- A new block with these bytes. -/
def malloc (cells : Text) : M Nat := fun p =>
  .ok p.heap.length { p with heap := alloc p.heap cells }

/-- `free`. -/
def free (b : Nat) : M Unit := fun p =>
  match Blocks.free p.heap b with
  | some heap => .ok () { p with heap }
  | none => .error .badFree p

/-- `free` of a pointer that may be `NULL`. -/
def freeOpt : Option Nat → M Unit
  | none => return ()
  | some b => free b

/-- Bytes written into a block. -/
def write (b i : Nat) (text : Text) : M Unit := fun p =>
  match block p.heap b with
  | none => .error .badFree p
  | some cells =>
    if i + text.length ≤ cells.length then
      .ok () { p with heap := put p.heap b (cells.take i ++ text ++ cells.drop (i + text.length)) }
    else .error .overrun p

/-- A place in a block. -/
structure Str where
  start : Nat
  offset : Nat
  deriving DecidableEq, Repr

/-- The string at a place, if its block has a null byte from there on. -/
def textAt (heap : Heap UInt8) (q : Str) : Option Text :=
  match block heap q.start with
  | none => none
  | some cells =>
    if 0 ∈ cells.drop q.offset then some ((cells.drop q.offset).takeWhile (· != 0)) else none

/-- The string at a place is read. -/
def loadText (q : Str) : M Text := fun p =>
  match textAt p.heap q with
  | some text => .ok text p
  | none => .error .overrun p

/-- `close` of a descriptor that `path_get` has opened. -/
def close (n : Nat) : M Unit := fun p =>
  if n ∈ p.world.hostOpen then
    .ok () { p with world.hostOpen := p.world.hostOpen.filter (· != n) }
  else .error .badClose p

/-- `openat`. -/
def openat (h : Host) (dir : Nat) (file : Text) : M (Except HostErrno Nat) := fun p =>
  match h.openat p.answers p.world.hostOpen dir file with
  | .ok n =>
    .ok (.ok n) { p with answers := p.answers + 1, world.hostOpen := n :: p.world.hostOpen }
  | .error e => .ok (.error e) { p with answers := p.answers + 1 }

/-- `realloc` to a larger size. The old block is freed when there is a new one. -/
def realloc (h : Host) (buf : Option Nat) (len : Nat) : M (Option Nat) := do
  let t := (← get).answers
  if ← answer fun t => h.realloc t len then
    match buf with
    | none => return some (← malloc ((List.range len).map (h.junk t)))
    | some b =>
      let old := (block (← get).heap b).getD []
      let new ← malloc (old ++ (List.range (len - old.length)).map (h.junk t))
      free b
      return some new
  else return none

/-! ## Strings -/

/-- `str_nullterminate`. -/
def strNullterminate (h : Host) (s : Text) : M (Except Posix.Errno Nat) := do
  if ← answer h.strndup then
    let ret ← malloc (s.takeWhile (· != 0) ++ [0])
    let text ← loadText ⟨ret, 0⟩
    if text.length ≠ s.length then
      free ret
      return .error (.host 25)
    else return .ok ret
  else return .error .enomem

/-- The loop of `readlinkat_dup`. A size below `2 ^ 63` can be doubled 58 times from 32. -/
def readlinkatDup.loop (h : Host) (dir : Nat) (file : Text) : Nat → Option Nat → Nat →
    M (Except HostErrno Nat)
  | 0, _, _ => throw .endless
  | rounds + 1, buf, len => do
    match ← realloc h buf len with
    | none =>
      freeOpt buf
      return .error (.other 48)
    | some buf =>
      match ← answer fun t => h.readlinkat t dir file len with
      | .error e =>
        free buf
        return .error e
      | .ok text =>
        write buf 0 text
        if text.length + 1 < len then
          write buf text.length [0]
          return .ok buf
        else loop h dir file rounds (some buf) (2 * len)

/-- `readlinkat_dup`. -/
def readlinkatDup (h : Host) (dir : Nat) (file : Text) : M (Except HostErrno Nat) :=
  readlinkatDup.loop h dir file 64 none 32

/-- `strcat(symlink, "/")`. -/
def strcatSlash (b : Nat) : M Unit := do
  let text ← loadText ⟨b, 0⟩
  write b text.length [slash, 0]

/-- A trailing slash for a link. -/
def appendSlash (endsWithSlashes : Bool) (symlink : Nat) : M Unit :=
  if endsWithSlashes then strcatSlash symlink else return ()

/-! ## The loop -/

/-- The arguments of `path_get`. -/
structure Args where
  fd : Nat
  follow : Bool
  upath : Text
  rightsBase : Rights
  rightsInheriting : Rights
  needsFinalComponent : Bool

/-- The variables of the loop. -/
structure State where
  dirs : List Nat
  path : Str
  below : List Str
  expansions : Nat

/-- How the loop is left: the path of the lease, none being the literal `"."`, or an error. -/
inductive Exit where
  | success (path : Option Str)
  | fail (e : Posix.Errno)

/-- How an iteration ends. -/
inductive Step where
  | next (s : State)
  | exit (s : State) (x : Exit)

/-- `fds[curfd]`, over the descriptor of the directory object. -/
def State.top (base : Nat) (s : State) : Nat := s.dirs.headD base

/-- `paths_start[0]`. -/
def State.bottom (s : State) : Nat := (s.below.getLastD s.path).start

/-- A component, and where it ends. -/
structure Component where
  file : Text
  fileEnd : Nat
  endsWithSlashes : Bool

/-- The next component of `paths[curpath]` is cut off in place. -/
def nextComponent (s : State) : M (Component × State) := do
  let text ← loadText s.path
  let fileEnd := s.path.offset + (first text).length
  write s.path.start fileEnd [0]
  let rest := fileEnd + ((tail text).takeWhile (· == slash)).length
  return (⟨first text, fileEnd, (tail text).head? = some slash⟩,
    { s with path := ⟨s.path.start, rest⟩ })

/-- What follows a component that is done with: `*paths[curpath] == '\0'`. -/
def advance (s : State) : M Step := do
  if (← loadText s.path) = [] then
    match s.below with
    | [] =>
      free s.bottom
      return .exit s (.success none)
    | path :: below =>
      free s.path.start
      return .next { s with path, below }
  else return .next s

/-- `push_symlink`. -/
def pushSymlink (s : State) (c : Component) (symlink : Nat) : M Step := do
  let s := { s with expansions := s.expansions + 1 }
  if s.expansions = 128 then
    free symlink
    return .exit s (.fail .eloop)
  else if (← loadText s.path) = [] then
    free s.path.start
    appendSlash c.endsWithSlashes symlink
    return .next { s with path := ⟨symlink, 0⟩ }
  else if s.below.length + 1 = 32 then
    free symlink
    return .exit s (.fail .eloop)
  else if 32 ≤ s.below.length + 1 then throw .outOfRange
  else
    appendSlash c.endsWithSlashes symlink
    return .next { s with path := ⟨symlink, 0⟩, below := s.path :: s.below }

/-- A component that has to be a directory. -/
def enterDirectory (h : Host) (base : Nat) (s : State) (c : Component) : M Step := do
  match ← openat h (s.top base) c.file with
  | .ok newdir =>
    if s.dirs.length + 1 = 128 then
      close newdir
      return .exit s (.fail (.host 37))
    else if 128 ≤ s.dirs.length + 1 then throw .outOfRange
    else advance { s with dirs := newdir :: s.dirs }
  | .error e =>
    if e ≠ .eloop ∧ e ≠ .emlink ∧ e ≠ .enotdir then return .exit s (.fail (convertErrno e))
    else
      match ← readlinkatDup h (s.top base) c.file with
      | .ok symlink => pushSymlink s c symlink
      | .error e =>
        return .exit s (.fail (convertErrno (if e = .einval then .enotdir else e)))

/-- The lease on the final component, which keeps a trailing slash. -/
def leaseFinal (s : State) (c : Component) (file : Nat) : M Step :=
  if c.endsWithSlashes then do
    write s.path.start c.fileEnd [slash]
    return .exit s (.success (some ⟨s.path.start, file⟩))
  else return .exit s (.success (some ⟨s.path.start, file⟩))

/-- The final component, which starts at `file`. -/
def finalComponent (h : Host) (follow : Bool) (base : Nat) (s : State) (c : Component) (file : Nat) :
    M Step := do
  if c.endsWithSlashes ∨ follow then
    match ← readlinkatDup h (s.top base) c.file with
    | .ok symlink => pushSymlink s c symlink
    | .error e =>
      if e ≠ .einval ∧ e ≠ .enoent then return .exit s (.fail (convertErrno e))
      else leaseFinal s c file
  else leaseFinal s c file

/-- One iteration. -/
def step (h : Host) (a : Args) (base : Nat) (s : State) : M Step := do
  let file := s.path.offset
  let (c, s) ← nextComponent s
  if c.file = [] then
    return .exit s (.fail (if c.endsWithSlashes then .enotcapable else .host 44))
  else if c.file = dot then advance s
  else if c.file = dotdot then
    match s.dirs with
    | [] => return .exit s (.fail .enotcapable)
    | dir :: dirs =>
      close dir
      advance { s with dirs }
  else
    let more := (← loadText s.path) ≠ []
    if s.below ≠ [] ∨ more ∨ (c.endsWithSlashes ∧ ¬ a.needsFinalComponent) then
      enterDirectory h base s c
    else finalComponent h a.follow base s c file

/-- The loop. -/
def loop (h : Host) (a : Args) (base : Nat) : Nat → State → M (State × Exit)
  | 0, _ => throw .endless
  | rounds + 1, s => do
    match ← step h a base s with
    | .next s => loop h a base rounds s
    | .exit s x => return (s, x)

/-! ## The call -/

/-- `struct path_access`, less `follow`, which is false. -/
structure PathAccess where
  fd : Nat
  path : Option Str
  pathStart : Option Nat
  object : Nat
  deriving DecidableEq, Repr

def closeAll : List Nat → M Unit
  | [] => return ()
  | n :: ns => do
    close n
    closeAll ns

def freeAll : List Nat → M Unit
  | [] => return ()
  | b :: bs => do
    free b
    freeAll bs

/-- `success:` and `fail:`. -/
def finish (fo base : Nat) (s : State) : Exit → M (Except Posix.Errno PathAccess)
  | .success path => do
    closeAll s.dirs.tail.reverse
    return .ok ⟨s.top base, path, path.map fun _ => s.bottom, fo⟩
  | .fail e => do
    closeAll s.dirs.reverse
    freeAll ((s.path :: s.below).map Str.start).reverse
    onWorld (fdObjectRelease fo)
    return .error e

/-- `path_get`, with a bound on the rounds of its loop. -/
def pathGet (rounds : Nat) (h : Host) (a : Args) : M (Except Posix.Errno PathAccess) := do
  match ← strNullterminate h a.upath with
  | .error e => return .error e
  | .ok path =>
    match ← onWorld (fdObjectGet a.fd a.rightsBase a.rightsInheriting) with
    | .error e =>
      free path
      return .error e
    | .ok fo =>
      let o ← onWorld (fdObject fo)
      let (s, x) ← loop h a o.number rounds ⟨[], ⟨path, 0⟩, [], 0⟩
      finish fo o.number s x

/-- `path_put`. -/
def pathPut (pa : PathAccess) : M Unit := do
  freeOpt pa.pathStart
  let o ← onWorld (fdObject pa.object)
  if o.number ≠ pa.fd then close pa.fd
  onWorld (fdObjectRelease pa.object)

/-! ## Resources -/

/-- Since the tables `w` and the heap `h₀`: the objects in `pending` are held once more for each time
they are in it, the descriptors in `dirs` have been opened and the blocks in `owned` allocated. -/
structure Resources (w : World) (h₀ : Heap UInt8) (pending dirs owned : List Nat) (p : Process) :
    Prop where
  holding : Holding w pending dirs p.world
  owns : Owns h₀ owned p.heap
  nodup : dirs.Nodup
  new : ∀ n ∈ dirs, n ∉ w.hostOpen

/-- The blocks in a list are as they were. -/
def Kept (owned : List Nat) (p p' : Process) : Prop := ∀ b ∈ owned, block p'.heap b = block p.heap b

theorem Kept.refl (owned : List Nat) (p : Process) : Kept owned p p := fun _ _ => rfl

theorem Kept.trans {owned : List Nat} {p p' p'' : Process} (h : Kept owned p p')
    (h' : Kept owned p' p'') : Kept owned p p'' := fun b hb => (h' b hb).trans (h b hb)

theorem Kept.mono {owned owned' : List Nat} {p p' : Process} (h : Kept owned p p')
    (hsub : ∀ b ∈ owned', b ∈ owned) : Kept owned' p p' := fun b hb => h b (hsub b hb)

section

variable {w : World} {h₀ : Heap UInt8} {pending dirs owned : List Nat} {p : Process} {b : Nat}
  {cells : Text} {h : Host}

theorem Resources.answer {α : Type} (hr : Resources w h₀ pending dirs owned p) (f : Nat → α) :
    Returns (PathLease.answer f) p fun a p' => a = f p.answers ∧ p'.heap = p.heap ∧
      Resources w h₀ pending dirs owned p' :=
  ⟨_, _, rfl, rfl, rfl, hr.holding, hr.owns, hr.nodup, hr.new⟩

theorem Resources.notMem_new (hr : Resources w h₀ pending dirs owned p) : p.heap.length ∉ owned := by
  intro hmem
  obtain ⟨cells, hcells⟩ := hr.owns.exists_block hmem
  exact absurd (lt_of_block hcells) (Nat.lt_irrefl _)

theorem Resources.malloc (hr : Resources w h₀ pending dirs owned p) (cells : Text) :
    Returns (PathLease.malloc cells) p fun b p' => b ∉ owned ∧ block p'.heap b = some cells ∧
      Kept owned p p' ∧ Resources w h₀ pending dirs (b :: owned) p' := by
  refine ⟨_, _, rfl, hr.notMem_new, block_alloc p.heap cells, fun b hb => ?_,
    hr.holding, hr.owns.alloc cells, hr.nodup, hr.new⟩
  obtain ⟨cells', hcells⟩ := hr.owns.exists_block hb
  exact block_alloc_of_lt (lt_of_block hcells)

theorem Resources.free (hr : Resources w h₀ pending dirs owned p) (hb : b ∈ owned) :
    Returns (PathLease.free b) p fun _ p' => Kept (owned.erase b) p p' ∧
      Resources w h₀ pending dirs (owned.erase b) p' := by
  obtain ⟨heap, hfree, howns, hkept⟩ := hr.owns.free hb
  refine ⟨(), { p with heap }, ?_, fun b' hb' => hkept b' fun heq => ?_,
    hr.holding, howns, hr.nodup, hr.new⟩
  · rw [PathLease.free, hfree]
  · exact hr.owns.nodup.not_mem_erase (heq ▸ hb')

/-- The first block is freed. -/
theorem Resources.free_head (hr : Resources w h₀ pending dirs (b :: owned) p) :
    Returns (PathLease.free b) p fun _ p' => Kept owned p p' ∧
      Resources w h₀ pending dirs owned p' := by
  have h := hr.free List.mem_cons_self
  rwa [erase_head] at h

theorem Resources.write (hr : Resources w h₀ pending dirs owned p) {i : Nat} {text : Text}
    (hb : b ∈ owned) (hcells : block p.heap b = some cells) (hle : i + text.length ≤ cells.length) :
    Returns (PathLease.write b i text) p fun _ p' =>
      block p'.heap b = some (cells.take i ++ text ++ cells.drop (i + text.length)) ∧
      (∀ b', b' ≠ b → block p'.heap b' = block p.heap b') ∧
      Resources w h₀ pending dirs owned p' := by
  refine ⟨(), { p with heap := put p.heap b (cells.take i ++ text ++ cells.drop (i + text.length)) },
    ?_, block_put (lt_of_block hcells), fun b' hne => block_set_of_ne hne, hr.holding,
    hr.owns.put hb _, hr.nodup, hr.new⟩
  rw [PathLease.write, hcells]
  simp only [if_pos hle]

theorem returns_loadText {q : Str} {text : Text} (h : textAt p.heap q = some text) :
    Returns (loadText q) p fun t p' => t = text ∧ p' = p :=
  ⟨text, p, by rw [loadText, h], rfl, rfl⟩

theorem Resources.close (hr : Resources w h₀ pending dirs owned p) {n : Nat} (hn : n ∈ dirs) :
    Returns (PathLease.close n) p fun _ p' => p'.heap = p.heap ∧
      Resources w h₀ pending (dirs.erase n) owned p' := by
  have hopen : n ∈ p.world.hostOpen := (hr.holding.host n).mpr (Or.inr hn)
  obtain ⟨htable, hprestats, hlength, hobjects, hhost⟩ := hr.holding
  refine ⟨(), { p with world.hostOpen := p.world.hostOpen.filter (· != n) }, ?_, rfl,
    ⟨htable, hprestats, hlength, hobjects, fun k => ?_⟩, hr.owns, hr.nodup.erase n,
    fun k hk => hr.new k (List.mem_of_mem_erase hk)⟩
  · rw [PathLease.close, if_pos hopen]
  · rw [List.mem_filter, hhost k, bne_iff_ne, hr.nodup.mem_erase_iff]
    constructor
    · rintro ⟨hk | hk, hne⟩
      · exact Or.inl hk
      · exact Or.inr ⟨hne, hk⟩
    · rintro (hk | ⟨hne, hk⟩)
      · exact ⟨Or.inl hk, fun heq => hr.new n hn (heq ▸ hk)⟩
      · exact ⟨Or.inr hk, hne⟩

theorem Resources.openat (hr : Resources w h₀ pending dirs owned p) (dir : Nat) (file : Text) :
    Returns (PathLease.openat h dir file) p fun r p' => p'.heap = p.heap ∧
      ((∃ e, r = .error e ∧ Resources w h₀ pending dirs owned p') ∨
        ∃ n, r = .ok n ∧ Resources w h₀ pending (n :: dirs) owned p') := by
  cases hanswer : h.openat p.answers p.world.hostOpen dir file with
  | error e =>
    refine ⟨.error e, { p with answers := p.answers + 1 }, by rw [PathLease.openat, hanswer], rfl,
      Or.inl ⟨e, rfl, ?_⟩⟩
    exact ⟨hr.holding, hr.owns, hr.nodup, hr.new⟩
  | ok n =>
    have hnew := h.openat_new _ _ _ _ _ hanswer
    rw [hr.holding.host, not_or] at hnew
    obtain ⟨htable, hprestats, hlength, hobjects, hhost⟩ := hr.holding
    refine ⟨.ok n, { p with answers := p.answers + 1, world.hostOpen := n :: p.world.hostOpen },
      by rw [PathLease.openat, hanswer], rfl, Or.inr ⟨n, rfl, ?_⟩⟩
    refine ⟨⟨htable, hprestats, hlength, hobjects, fun k => ?_⟩, hr.owns,
      List.nodup_cons.mpr ⟨hnew.2, hr.nodup⟩, ?_⟩
    · simp only [List.mem_cons, hhost k]
      tauto
    · intro k hk
      rcases List.mem_cons.mp hk with rfl | hk
      · exact hnew.1
      · exact hr.new k hk

theorem returns_onWorld {α : Type} {m : Posix.M α} {Q : α → World → Prop} (hm : Returns m p.world Q) :
    Returns (PathLease.onWorld m) p fun a p' => Q a p'.world ∧ p'.heap = p.heap := by
  obtain ⟨a, w', hrun, hq⟩ := hm
  exact ⟨a, { p with world := w' }, by rw [PathLease.onWorld, hrun], hq, rfl⟩

/-! ## Links -/

/-- `realloc` to a size no smaller than before: the new block is the buffer, or the old one still is. -/
theorem Resources.realloc {buf : Option Nat} {len : Nat}
    (hr : Resources w h₀ pending dirs (buf.toList ++ owned) p)
    (hlen : ∀ b cells, buf = some b → block p.heap b = some cells → cells.length ≤ len) :
    Returns (PathLease.realloc h buf len) p fun r p' => Kept owned p p' ∧
      ((r = none ∧ Resources w h₀ pending dirs (buf.toList ++ owned) p') ∨
        ∃ b cells, r = some b ∧ len < 2 ^ 63 ∧ Resources w h₀ pending dirs (b :: owned) p' ∧
          block p'.heap b = some cells ∧ cells.length = len) := by
  unfold PathLease.realloc
  refine Returns.get_bind ((hr.answer _).bind ?_)
  rintro ok p₁ ⟨hok, hheap₁, hr₁⟩
  have hkept₁ : ∀ bs, Kept bs p p₁ := fun bs b _ => by rw [hheap₁]
  cases ok with
  | false => exact Returns.pure ⟨hkept₁ _, Or.inl ⟨rfl, hr₁⟩⟩
  | true =>
    have hlt : len < 2 ^ 63 := h.realloc_lt _ _ hok.symm
    cases buf with
    | none =>
      refine (hr₁.malloc _).bind ?_
      rintro b p₂ ⟨-, hb, hkept, hr₂⟩
      refine Returns.pure ⟨(hkept₁ _).trans hkept, Or.inr ⟨b, _, rfl, hlt, hr₂, hb, ?_⟩⟩
      rw [List.length_map, List.length_range]
    | some old =>
      refine Returns.get_bind ((hr₁.malloc _).bind ?_)
      rintro b p₂ ⟨hnew, hb, hkept, hr₂⟩
      have hne : b ≠ old := fun heq => hnew (heq ▸ List.mem_cons_self)
      have herase : (b :: (old :: owned)).erase old = b :: owned := by
        rw [List.erase_cons_tail (by simpa using hne), erase_head]
      refine (hr₂.free (List.mem_cons_of_mem _ List.mem_cons_self)).bind ?_
      rintro - p₃ ⟨hkept₃, hr₃⟩
      rw [Option.toList_some, List.singleton_append, herase] at hkept₃ hr₃
      have hb₃ := (hkept₃ b List.mem_cons_self).trans hb
      refine Returns.pure ⟨?_, Or.inr ⟨b, _, rfl, hlt, hr₃, hb₃, ?_⟩⟩
      · refine (hkept₁ _).trans ((hkept.mono ?_).trans (hkept₃.mono ?_))
        · exact fun k hk => List.mem_cons_of_mem _ hk
        · exact fun k hk => List.mem_cons_of_mem _ hk
      · obtain ⟨cells, hcells⟩ := hr.owns.exists_block List.mem_cons_self
        have hle := hlen old cells rfl hcells
        rw [hheap₁, hcells, Option.getD_some, List.length_append, List.length_map, List.length_range]
        omega

/-- A block that holds a string and room for one more byte. -/
def Roomy (heap : Heap UInt8) (b : Nat) : Prop :=
  ∃ text more, block heap b = some (text ++ 0 :: more) ∧ 0 ∉ text ∧ more ≠ []

/-- What reading a link leaves behind. -/
def Read (w : World) (h₀ : Heap UInt8) (pending dirs owned : List Nat) (p : Process)
    (r : Except HostErrno Nat) (p' : Process) : Prop :=
  Kept owned p p' ∧
    ((∃ e, r = .error e ∧ Resources w h₀ pending dirs owned p') ∨
      ∃ b, r = .ok b ∧ Resources w h₀ pending dirs (b :: owned) p' ∧ Roomy p'.heap b)

/-- A string that is cut off by a null byte ends there or before. -/
theorem roomy_of_block {heap : Heap UInt8} {text rest : Text}
    (hb : block heap b = some (text ++ 0 :: rest)) (hrest : rest ≠ []) : Roomy heap b := by
  by_cases hmem : 0 ∈ text
  · obtain ⟨front, back, rfl, hfront⟩ := List.eq_append_cons_of_mem hmem
    refine ⟨front, back ++ 0 :: rest, ?_, hfront, by simp⟩
    rw [hb, List.append_assoc, List.cons_append]
  · exact ⟨text, rest, hb, hmem, hrest⟩

/-- The loop of `readlinkat_dup` ends: its size is doubled until the link fits or `realloc` refuses. -/
theorem readlinkatDup_loop_spec (rounds : Nat) {buf : Option Nat} {len : Nat} (dir : Nat) (file : Text)
    (hr : Resources w h₀ pending dirs (buf.toList ++ owned) p)
    (hlen : ∀ b cells, buf = some b → block p.heap b = some cells → cells.length ≤ len)
    (hlt : len < 2 ^ 64) (hrounds : 2 ^ 64 ≤ len * 2 ^ rounds) :
    Returns (readlinkatDup.loop h dir file rounds buf len) p (Read w h₀ pending dirs owned p) := by
  induction rounds generalizing buf len p with
  | zero =>
    rw [Nat.pow_zero, Nat.mul_one] at hrounds
    exact absurd hlt hrounds.not_gt
  | succ rounds ih =>
    rw [readlinkatDup.loop]
    refine (hr.realloc hlen).bind ?_
    rintro r p₁ ⟨hkept₁, ⟨rfl, hr₁⟩ | ⟨b, cells, rfl, hsize, hr₁, hb, hcells⟩⟩
    · cases buf with
      | none => exact Returns.pure ⟨hkept₁, Or.inl ⟨_, rfl, hr₁⟩⟩
      | some b =>
        refine hr₁.free_head.bind ?_
        rintro - p₂ ⟨hkept₂, hr₂⟩
        exact Returns.pure ⟨hkept₁.trans hkept₂, Or.inl ⟨_, rfl, hr₂⟩⟩
    · refine (hr₁.answer _).bind ?_
      rintro text p₂ ⟨htext, hheap₂, hr₂⟩
      have hkept₂ : Kept (b :: owned) p₁ p₂ := fun k _ => by rw [hheap₂]
      cases text with
      | error e =>
        refine hr₂.free_head.bind ?_
        rintro - p₃ ⟨hkept₃, hr₃⟩
        refine Returns.pure ⟨hkept₁.trans (.trans ?_ hkept₃), Or.inl ⟨e, rfl, hr₃⟩⟩
        exact hkept₂.mono fun k hk => List.mem_cons_of_mem _ hk
      | ok text =>
        have hle := h.readlinkat_le _ _ _ _ _ htext.symm
        have hb₂ : block p₂.heap b = some cells := (hkept₂ b List.mem_cons_self).trans hb
        refine (hr₂.write List.mem_cons_self hb₂ (by omega)).bind ?_
        rintro - p₃ ⟨hb₃, hothers₃, hr₃⟩
        have hnot : ∀ k ∈ owned, k ≠ b := fun k hk heq =>
          (List.nodup_cons.mp hr₃.owns.nodup).1 (heq ▸ hk)
        have hkept₃ : Kept owned p p₃ := fun k hk => by
          rw [hothers₃ k (hnot k hk), hkept₂ k (List.mem_cons_of_mem _ hk), hkept₁ k hk]
        rw [List.take_zero, List.nil_append, Nat.zero_add] at hb₃
        have hrest : (cells.drop text.length).length = len - text.length := by
          rw [List.length_drop, hcells]
        by_cases hfits : text.length + 1 < len
        · simp only [if_pos hfits]
          refine (hr₃.write List.mem_cons_self hb₃ ?_).bind ?_
          · rw [List.length_append, hrest, List.length_singleton]
            omega
          · rintro - p₄ ⟨hb₄, hothers₄, hr₄⟩
            refine Returns.pure ⟨fun k hk => (hothers₄ k (hnot k hk)).trans (hkept₃ k hk),
              Or.inr ⟨b, rfl, hr₄, ?_⟩⟩
            rw [List.take_left, List.append_assoc, List.singleton_append] at hb₄
            refine roomy_of_block hb₄ fun hnil => ?_
            have hlength := congrArg List.length hnil
            rw [List.length_drop, List.length_append, hrest, List.length_nil,
              List.length_singleton] at hlength
            omega
        · simp only [if_neg hfits]
          have hr₃' : Resources w h₀ pending dirs ((some b).toList ++ owned) p₃ := hr₃
          refine (ih hr₃' ?_ (by omega) ?_).mono ?_
          · rintro b' cells' hbb hcells'
            obtain rfl := Option.some.inj hbb
            obtain rfl := Option.some.inj (hb₃.symm.trans hcells')
            rw [List.length_append, hrest]
            omega
          · rw [Nat.mul_comm 2 len, Nat.mul_assoc, ← Nat.pow_succ']
            exact hrounds
          · rintro r p₄ ⟨hkept₄, hr₄⟩
            exact ⟨hkept₃.trans hkept₄, hr₄⟩

theorem readlinkatDup_spec (hr : Resources w h₀ pending dirs owned p) (dir : Nat) (file : Text) :
    Returns (readlinkatDup h dir file) p (Read w h₀ pending dirs owned p) := by
  refine readlinkatDup_loop_spec 64 dir file hr ?_ (by decide) (by decide)
  intro b cells hb
  cases hb

/-! ## Strings in blocks -/

section

variable {heap heap' : Heap UInt8} {q : Str} {text more : Text}

theorem takeWhile_text (htext : 0 ∉ text) : (text ++ 0 :: more).takeWhile (· != 0) = text := by
  rw [List.takeWhile_append_of_pos fun c hc => by simpa using fun heq : c = 0 => htext (heq ▸ hc),
    List.takeWhile_cons_of_neg (by simp), List.append_nil]

theorem textAt_of_drop {cells : Text} (hb : block heap q.start = some cells)
    (hdrop : cells.drop q.offset = text ++ 0 :: more) (htext : 0 ∉ text) :
    textAt heap q = some text := by
  rw [textAt, hb]
  simp only [hdrop]
  rw [if_pos (by simp), takeWhile_text htext]

theorem textAt_eq_some (ht : textAt heap q = some text) :
    ∃ cells more, block heap q.start = some cells ∧ cells.drop q.offset = text ++ 0 :: more ∧
      0 ∉ text := by
  rw [textAt] at ht
  cases hb : block heap q.start with
  | none =>
    rw [hb] at ht
    cases ht
  | some cells =>
    simp only [hb] at ht
    split at ht
    · next hmem =>
      obtain ⟨front, back, hdrop, hfront⟩ := List.eq_append_cons_of_mem hmem
      rw [hdrop, takeWhile_text hfront] at ht
      obtain rfl := Option.some.inj ht
      exact ⟨cells, back, rfl, hdrop, hfront⟩
    · cases ht

theorem textAt_congr (hb : block heap' q.start = block heap q.start) :
    textAt heap' q = textAt heap q := by
  rw [textAt, textAt, hb]

theorem Roomy.textAt {b : Nat} (hb : Roomy heap b) : ∃ t, textAt heap ⟨b, 0⟩ = some t := by
  obtain ⟨text, more, hcells, htext, -⟩ := hb
  exact ⟨text, textAt_of_drop (q := ⟨b, 0⟩) hcells rfl htext⟩

/-- A string cut off at the end of its first component: what is left is the rest of it. -/
theorem drop_cut {cells : Text} {off : Nat} (hdrop : cells.drop off = text ++ 0 :: more) :
    off + (first text).length < cells.length ∧
      (cells.take (off + (first text).length) ++ [0] ++
          cells.drop (off + (first text).length + 1)).drop
        (off + (first text).length + ((tail text).takeWhile (· == slash)).length) =
        rest text ++ 0 :: more := by
  have hlength := congrArg List.length hdrop
  have hfirst := congrArg List.length (first_append_tail text)
  simp only [List.length_drop, List.length_append, List.length_cons] at hlength hfirst
  have hlt : off + (first text).length < cells.length := by omega
  have hafter : cells.drop (off + (first text).length) = tail text ++ 0 :: more := by
    have hparts : text ++ 0 :: more = first text ++ (tail text ++ 0 :: more) := by
      rw [← List.append_assoc, first_append_tail]
    rw [← List.drop_drop, hdrop, hparts, List.drop_left]
  refine ⟨hlt, ?_⟩
  rw [List.append_assoc, List.drop_append, List.length_take_of_le hlt.le,
    List.drop_eq_nil_of_le (by rw [List.length_take]; omega), List.nil_append, Nat.add_sub_cancel_left]
  rcases tail_eq text with htail | ⟨u, htail⟩
  · -- the component ends the string, whose null byte is overwritten with itself
    have hnext : cells.drop (off + (first text).length + 1) = more := by
      rw [← List.drop_drop, hafter, htail]
      rfl
    rw [hnext, rest, htail]
    rfl
  · have hsplit : (tail text).takeWhile (· == slash) ++ rest text = tail text :=
      List.takeWhile_append_dropWhile
    have hpos : (tail text).takeWhile (· == slash) = slash :: u.takeWhile (· == slash) := by
      rw [htail, List.takeWhile_cons_of_pos (by simp)]
    rw [hpos, List.length_cons, List.singleton_append, List.drop_succ_cons, List.drop_drop,
      Nat.add_assoc, Nat.add_comm 1, ← List.drop_drop, hafter, ← hsplit, hpos, List.append_assoc,
      ← List.length_cons (a := slash), List.drop_left]

end

/-! ## The loop -/

/-- `paths_start`. -/
def State.starts (s : State) : List Nat := (s.path :: s.below).map Str.start

/-- The bytes that the strings still have, and the strings. -/
def size (heap : Heap UInt8) (s : State) : Nat :=
  ((s.path :: s.below).map fun q => ((textAt heap q).getD []).length + 1).sum

/-- The variables of the loop stand for what it holds, and are inside their arrays. -/
structure LoopInv (w : World) (h₀ : Heap UInt8) (pending : List Nat) (s : State) (p : Process) :
    Prop where
  resources : Resources w h₀ pending s.dirs s.starts p
  texts : ∀ q ∈ s.path :: s.below, ∃ t, textAt p.heap q = some t
  dirs_lt : s.dirs.length < 128
  below_lt : s.below.length < 32
  expansions_lt : s.expansions < 128

/-- What is held where the loop is left. -/
def ExitInv (w : World) (h₀ : Heap UInt8) (pending : List Nat) (s : State) (p : Process) : Exit → Prop
  | .success none => Resources w h₀ pending s.dirs [] p
  | .success (some _) => Resources w h₀ pending s.dirs [s.bottom] p
  | .fail _ => Resources w h₀ pending s.dirs s.starts p

/-- An iteration from `expansions` and `bytes` leaves the loop or makes progress. -/
inductive Stepped (w : World) (h₀ : Heap UInt8) (pending : List Nat) (expansions bytes : Nat) :
    Step → Process → Prop
  | next {s : State} {p : Process} (hinv : LoopInv w h₀ pending s p)
      (hprogress : expansions < s.expansions ∨ s.expansions = expansions ∧ size p.heap s < bytes) :
      Stepped w h₀ pending expansions bytes (.next s) p
  | exit {s : State} {p : Process} {x : Exit} (hexit : ExitInv w h₀ pending s p x) :
      Stepped w h₀ pending expansions bytes (.exit s x) p

section

variable {s : State} {expansions bytes : Nat} {q : Str} {p' : Process}

theorem LoopInv.congr (hs : LoopInv w h₀ pending s p) {dirs' : List Nat} (hheap : p'.heap = p.heap)
    (hr : Resources w h₀ pending dirs' s.starts p') (hdirs : dirs'.length < 128) :
    LoopInv w h₀ pending { s with dirs := dirs' } p' where
  resources := hr
  texts := by
    rw [hheap]
    exact hs.texts
  dirs_lt := hdirs
  below_lt := hs.below_lt
  expansions_lt := hs.expansions_lt

theorem LoopInv.starts_nodup (hs : LoopInv w h₀ pending s p) :
    s.path.start ∉ s.below.map Str.start ∧ (s.below.map Str.start).Nodup :=
  List.nodup_cons.mp hs.resources.owns.nodup

/-- The strings under the first one do not change with its block. -/
theorem LoopInv.textAt_below (hs : LoopInv w h₀ pending s p)
    (hkept : ∀ b, b ≠ s.path.start → block p'.heap b = block p.heap b) :
    ∀ q ∈ s.below, textAt p'.heap q = textAt p.heap q := by
  intro q hq
  refine textAt_congr (hkept _ fun heq => hs.starts_nodup.1 ?_)
  exact heq ▸ List.mem_map_of_mem hq

/-- What `nextComponent` leaves behind. -/
structure Cut (w : World) (h₀ : Heap UInt8) (pending : List Nat) (s : State) (p : Process)
    (c : Component) (s' : State) (p' : Process) : Prop where
  inv : LoopInv w h₀ pending s' p'
  start : s'.path.start = s.path.start
  dirs : s'.dirs = s.dirs
  below : s'.below = s.below
  expansions : s'.expansions = s.expansions
  fileEnd : ∃ cells, block p'.heap s'.path.start = some cells ∧ c.fileEnd < cells.length
  size_lt : c.file ≠ [] → size p'.heap s' < size p.heap s

theorem nextComponent_spec (hs : LoopInv w h₀ pending s p) :
    Returns (nextComponent s) p fun r p' => Cut w h₀ pending s p r.1 r.2 p' := by
  obtain ⟨text, htext⟩ := hs.texts s.path List.mem_cons_self
  obtain ⟨cells, more, hcells, hdrop, hnull⟩ := textAt_eq_some htext
  obtain ⟨hlt, hcut⟩ := drop_cut hdrop
  unfold nextComponent
  refine (returns_loadText htext).bind ?_
  rintro _ _ ⟨rfl, rfl⟩
  refine (hs.resources.write List.mem_cons_self hcells (by simpa using hlt)).bind ?_
  rintro - p' ⟨hb, hothers, hr⟩
  rename_i text p
  have hrestnull : 0 ∉ rest text := by
    intro hmem
    have htail : 0 ∈ tail text := (List.dropWhile_sublist _).subset hmem
    exact hnull ((List.dropWhile_sublist _).subset htail)
  have hnew := textAt_of_drop
    (q := ⟨s.path.start, s.path.offset + (first text).length +
      ((tail text).takeWhile (· == slash)).length⟩) hb hcut hrestnull
  have hbelow := hs.textAt_below hothers
  refine Returns.pure ⟨⟨hr, ?_, hs.dirs_lt, hs.below_lt, hs.expansions_lt⟩, rfl, rfl, rfl, rfl,
    ⟨_, hb, ?_⟩, fun hfile => ?_⟩
  · intro q hq
    rcases List.mem_cons.mp hq with rfl | hq
    · exact ⟨_, hnew⟩
    · rw [hbelow q hq]
      exact hs.texts q (List.mem_cons_of_mem _ hq)
  · simp only [List.length_append, List.length_take, List.length_drop, List.length_singleton]
    omega
  · have hsame : (s.below.map fun q => ((textAt p'.heap q).getD []).length + 1) =
        s.below.map fun q => ((textAt p.heap q).getD []).length + 1 :=
      List.map_congr_left fun q hq => by rw [hbelow q hq]
    have hfirst := congrArg List.length (first_append_tail text)
    have hpos : 0 < (first text).length := List.length_pos_iff.mpr hfile
    have hrest : (rest text).length ≤ (tail text).length := (List.dropWhile_sublist _).length_le
    rw [List.length_append] at hfirst
    simp only [size, List.map_cons, List.sum_cons, hsame, hnew, htext, Option.getD_some]
    omega

theorem advance_spec (hs : LoopInv w h₀ pending s p) (hexpansions : s.expansions = expansions)
    (hsize : size p.heap s < bytes) :
    Returns (advance s) p (Stepped w h₀ pending expansions bytes) := by
  obtain ⟨text, htext⟩ := hs.texts s.path List.mem_cons_self
  unfold advance
  refine (returns_loadText htext).bind ?_
  rintro _ _ ⟨rfl, rfl⟩
  split
  · split
    · next hbelow =>
      have hr := hs.resources
      rw [State.starts, hbelow] at hr
      rw [show s.bottom = s.path.start by rw [State.bottom, hbelow]; rfl]
      refine hr.free_head.bind ?_
      rintro - p' ⟨-, hr'⟩
      exact Returns.pure (.exit hr')
    · next path below hbelow =>
      have hr := hs.resources
      rw [State.starts, hbelow] at hr
      refine hr.free_head.bind ?_
      rintro - p' ⟨hkept, hr'⟩
      have htexts : ∀ q ∈ path :: below, textAt p'.heap q = textAt _ q := fun q hq =>
        textAt_congr (hkept _ (List.mem_map_of_mem hq))
      refine Returns.pure (.next ⟨hr', ?_, hs.dirs_lt, ?_, hs.expansions_lt⟩
        (Or.inr ⟨hexpansions, lt_of_le_of_lt ?_ hsize⟩))
      · intro q hq
        rw [htexts q hq]
        exact hs.texts q (List.mem_cons_of_mem _ (hbelow ▸ hq))
      · have hlt := hs.below_lt
        rw [hbelow, List.length_cons] at hlt
        exact Nat.lt_of_succ_lt hlt
      · rw [size, size, hbelow, List.map_cons (l := path :: below), List.sum_cons]
        refine le_trans (le_of_eq ?_) (Nat.le_add_left _ _)
        exact congrArg List.sum (List.map_congr_left fun q hq => by rw [htexts q hq])
  · exact Returns.pure (.next hs (Or.inr ⟨hexpansions, hsize⟩))

/-- `strcat(symlink, "/")` stays in the block of the link. -/
theorem strcatSlash_spec (hr : Resources w h₀ pending dirs owned p) (hb : b ∈ owned)
    (hroomy : Roomy p.heap b) :
    Returns (strcatSlash b) p fun _ p' => (∃ t, textAt p'.heap ⟨b, 0⟩ = some t) ∧
      (∀ b', b' ≠ b → block p'.heap b' = block p.heap b') ∧ Resources w h₀ pending dirs owned p' := by
  obtain ⟨text, more, hcells, htext, hmore⟩ := hroomy
  obtain ⟨c, more, rfl⟩ := List.exists_cons_of_ne_nil hmore
  unfold strcatSlash
  refine (returns_loadText (textAt_of_drop (q := ⟨b, 0⟩) hcells rfl htext)).bind ?_
  rintro t p₁ ⟨rfl, rfl⟩
  refine (hr.write hb hcells (by simp)).mono ?_
  rintro - p' ⟨hb', hothers, hr'⟩
  have hnull : 0 ∉ t ++ [slash] := by
    rw [List.mem_append, List.mem_singleton]
    exact fun hmem => hmem.elim htext (by decide)
  have hafter : (t.length + [slash, 0].length) = t.length + 2 := rfl
  have hdrop : (t ++ 0 :: c :: more).drop (t.length + 2) = more := by
    rw [← List.drop_drop, List.drop_left]
    rfl
  rw [hafter, List.take_left, hdrop, List.append_assoc] at hb'
  have hsplit : (t ++ ([slash, 0] ++ more)).drop 0 = (t ++ [slash]) ++ 0 :: more := by
    rw [List.drop_zero, List.append_assoc]
    rfl
  exact ⟨⟨t ++ [slash], textAt_of_drop (q := ⟨b, 0⟩) hb' hsplit hnull⟩, hothers, hr'⟩

/-- A string of the loop, and the link that is to come. -/
theorem Resources.append (hr : Resources w h₀ pending dirs (b :: owned) p) (ends : Bool)
    (hroomy : Roomy p.heap b) :
    Returns (appendSlash ends b) p fun _ p' => (∃ t, textAt p'.heap ⟨b, 0⟩ = some t) ∧
      Kept owned p p' ∧ Resources w h₀ pending dirs (b :: owned) p' := by
  have hnot : ∀ k ∈ owned, k ≠ b := fun k hk heq =>
    (List.nodup_cons.mp hr.owns.nodup).1 (heq ▸ hk)
  cases ends with
  | false => exact Returns.pure ⟨hroomy.textAt, Kept.refl _ _, hr⟩
  | true =>
    refine (strcatSlash_spec hr List.mem_cons_self hroomy).mono ?_
    rintro - p' ⟨htext, hothers, hr'⟩
    exact ⟨htext, fun k hk => hothers k (hnot k hk), hr'⟩

theorem pushSymlink_spec {p₀ : Process} (hs : LoopInv w h₀ pending s p₀) (c : Component)
    (hexpansions : s.expansions = expansions) (hkept : Kept s.starts p₀ p)
    (hr : Resources w h₀ pending s.dirs (b :: s.starts) p) (hroomy : Roomy p.heap b) :
    Returns (pushSymlink s c b) p (Stepped w h₀ pending expansions bytes) := by
  have htexts : ∀ q ∈ s.path :: s.below, ∃ t, textAt p.heap q = some t := by
    intro q hq
    rw [textAt_congr (hkept _ (List.mem_map_of_mem hq))]
    exact hs.texts q hq
  obtain ⟨text, htext⟩ := htexts s.path List.mem_cons_self
  unfold pushSymlink
  simp only
  by_cases hfull : s.expansions + 1 = 128
  · rw [if_pos hfull]
    refine hr.free_head.bind ?_
    rintro - p' ⟨-, hr'⟩
    exact Returns.pure (.exit hr')
  rw [if_neg hfull]
  have hlt : s.expansions + 1 < 128 := by
    have := hs.expansions_lt
    omega
  refine (returns_loadText htext).bind ?_
  rintro t p' ⟨rfl, rfl⟩
  by_cases hdone : t = []
  · -- the string has come to its end, and the link takes its place
    rw [if_pos hdone]
    have hswap : (b :: s.starts).Perm (s.path.start :: b :: s.below.map Str.start) :=
      List.Perm.swap _ _ _
    have hr₁ : Resources w h₀ pending s.dirs (s.path.start :: b :: s.below.map Str.start) p' :=
      ⟨hr.holding, hr.owns.perm hswap, hr.nodup, hr.new⟩
    refine hr₁.free_head.bind ?_
    rintro - p₂ ⟨hkept₂, hr₂⟩
    have hroomy₂ : Roomy p₂.heap b := by
      obtain ⟨t, more, hcells, ht, hmore⟩ := hroomy
      exact ⟨t, more, (hkept₂ b List.mem_cons_self).trans hcells, ht, hmore⟩
    refine (hr₂.append c.endsWithSlashes hroomy₂).bind ?_
    rintro - p₃ ⟨htext₃, hkept₃, hr₃⟩
    refine Returns.pure (.next ⟨hr₃, ?_, hs.dirs_lt, hs.below_lt, hlt⟩ (Or.inl ?_))
    · intro q hq
      rcases List.mem_cons.mp hq with rfl | hq
      · exact htext₃
      · have hmem := List.mem_map_of_mem (f := Str.start) hq
        rw [textAt_congr ((hkept₃ _ hmem).trans (hkept₂ _ (List.mem_cons_of_mem _ hmem)))]
        exact htexts q (List.mem_cons_of_mem _ hq)
    · rw [← hexpansions]
      exact Nat.lt_succ_self _
  · rw [if_neg hdone]
    by_cases hnested : s.below.length + 1 = 32
    · rw [if_pos hnested]
      refine hr.free_head.bind ?_
      rintro - p' ⟨-, hr'⟩
      exact Returns.pure (.exit hr')
    · have hbelow : s.below.length + 1 < 32 := by
        have := hs.below_lt
        omega
      rw [if_neg hnested, if_neg hbelow.not_ge]
      refine (hr.append c.endsWithSlashes hroomy).bind ?_
      rintro - p₂ ⟨htext₂, hkept₂, hr₂⟩
      refine Returns.pure (.next ⟨hr₂, ?_, hs.dirs_lt, hbelow, hlt⟩ (Or.inl ?_))
      · intro q hq
        rcases List.mem_cons.mp hq with rfl | hq
        · exact htext₂
        · rw [textAt_congr (hkept₂ _ (List.mem_map_of_mem hq))]
          exact htexts q hq
      · rw [← hexpansions]
        exact Nat.lt_succ_self _

/-- A link that has been read is pushed, or its error is dealt with. -/
theorem readLink_spec (hs : LoopInv w h₀ pending s p) (hexpansions : s.expansions = expansions)
    (c : Component) (dir : Nat) (failed : HostErrno → M Step)
    (hfailed : ∀ e p', LoopInv w h₀ pending s p' → Kept s.starts p p' →
      Returns (failed e) p' (Stepped w h₀ pending expansions bytes)) :
    Returns (do
      match ← readlinkatDup h dir c.file with
      | .ok symlink => pushSymlink s c symlink
      | .error e => failed e) p (Stepped w h₀ pending expansions bytes) := by
  refine (readlinkatDup_spec hs.resources dir c.file).bind ?_
  rintro r p₁ ⟨hkept, hread⟩
  have htexts : ∀ q ∈ s.path :: s.below, ∃ t, textAt p₁.heap q = some t := by
    intro q hq
    rw [textAt_congr (hkept _ (List.mem_map_of_mem hq))]
    exact hs.texts q hq
  rcases hread with ⟨e, rfl, hr⟩ | ⟨b, rfl, hr, hroomy⟩
  · exact hfailed e p₁ ⟨hr, htexts, hs.dirs_lt, hs.below_lt, hs.expansions_lt⟩ hkept
  · exact pushSymlink_spec hs c hexpansions hkept hr hroomy

theorem LoopInv.fail (hs : LoopInv w h₀ pending s p) (e : Posix.Errno) :
    Returns (return .exit s (.fail e) : M Step) p (Stepped w h₀ pending expansions bytes) :=
  Returns.pure (.exit hs.resources)

theorem enterDirectory_spec (hs : LoopInv w h₀ pending s p) (base : Nat) (c : Component)
    (hexpansions : s.expansions = expansions) (hsize : size p.heap s < bytes) :
    Returns (enterDirectory h base s c) p (Stepped w h₀ pending expansions bytes) := by
  unfold enterDirectory
  refine (hs.resources.openat _ _).bind ?_
  rintro r p₁ ⟨hheap, ⟨e, rfl, hr⟩ | ⟨n, rfl, hr⟩⟩
  · have hs₁ : LoopInv w h₀ pending s p₁ := hs.congr hheap hr hs.dirs_lt
    simp only
    split
    · exact hs₁.fail _
    · exact readLink_spec hs₁ hexpansions c _ _ fun e p' hs' _ => hs'.fail _
  · simp only
    by_cases hfull : s.dirs.length + 1 = 128
    · rw [if_pos hfull]
      refine (hr.close List.mem_cons_self).bind ?_
      rintro - p₂ ⟨-, hr₂⟩
      rw [erase_head] at hr₂
      exact Returns.pure (.exit hr₂)
    · have hlt : s.dirs.length + 1 < 128 := by
        have := hs.dirs_lt
        omega
      rw [if_neg hfull, if_neg hlt.not_ge]
      have hs₁ : LoopInv w h₀ pending { s with dirs := n :: s.dirs } p₁ := hs.congr hheap hr hlt
      refine advance_spec hs₁ hexpansions ?_
      rw [hheap]
      exact hsize

theorem leaseFinal_spec {p₀ : Process} (c : Component) (file : Nat) (hbelow : s.below = []) (hs' : LoopInv w h₀ pending s p)
    (hend : ∃ cells, block p₀.heap s.path.start = some cells ∧ c.fileEnd < cells.length)
    (hkept : Kept s.starts p₀ p) :
    Returns (leaseFinal s c file) p (Stepped w h₀ pending expansions bytes) := by
  have hbottom : s.starts = [s.bottom] := by
    rw [State.starts, State.bottom, hbelow]
    rfl
  unfold leaseFinal
  split
  · obtain ⟨cells, hcells, hlt⟩ := hend
    have hcells' := (hkept s.path.start List.mem_cons_self).trans hcells
    refine (hs'.resources.write List.mem_cons_self hcells' (by simpa using hlt)).bind ?_
    rintro - p' ⟨-, -, hr⟩
    rw [hbottom] at hr
    exact Returns.pure (.exit hr)
  · have hr := hs'.resources
    rw [hbottom] at hr
    exact Returns.pure (.exit hr)

theorem finalComponent_spec (hs : LoopInv w h₀ pending s p) (follow : Bool) (base : Nat)
    (c : Component) (file : Nat) (hbelow : s.below = []) (hexpansions : s.expansions = expansions)
    (hend : ∃ cells, block p.heap s.path.start = some cells ∧ c.fileEnd < cells.length) :
    Returns (finalComponent h follow base s c file) p (Stepped w h₀ pending expansions bytes) := by
  unfold finalComponent
  split
  · refine readLink_spec hs hexpansions c _ _ fun e p' hs' hkept => ?_
    split
    · exact hs'.fail _
    · exact leaseFinal_spec c file hbelow hs' hend hkept
  · exact leaseFinal_spec c file hbelow hs hend (Kept.refl _ _)

/-- **An iteration** keeps the invariant and makes progress, or leaves the loop. -/
theorem step_spec (hs : LoopInv w h₀ pending s p) (a : Args) (base : Nat) :
    Returns (step h a base s) p (Stepped w h₀ pending s.expansions (size p.heap s)) := by
  unfold step
  refine (nextComponent_spec hs).bind ?_
  rintro ⟨c, s'⟩ p₁ ⟨hs', -, -, -, hexpansions, hend, hsize⟩
  simp only
  by_cases hempty : c.file = []
  · rw [if_pos hempty]
    exact hs'.fail _
  · rw [if_neg hempty]
    by_cases hdot : c.file = dot
    · rw [if_pos hdot]
      exact advance_spec hs' hexpansions (hsize hempty)
    · rw [if_neg hdot]
      by_cases hdotdot : c.file = dotdot
      · rw [if_pos hdotdot]
        split
        · exact hs'.fail _
        · next dir dirs hdirs =>
          refine (hs'.resources.close (hdirs ▸ List.mem_cons_self)).bind ?_
          rintro - p₂ ⟨hheap, hr⟩
          rw [hdirs, erase_head] at hr
          have hlt : dirs.length < 128 := by
            have hlt := hs'.dirs_lt
            rw [hdirs, List.length_cons] at hlt
            exact Nat.lt_of_succ_lt hlt
          have hs₂ : LoopInv w h₀ pending { s' with dirs } p₂ := hs'.congr hheap hr hlt
          refine advance_spec hs₂ hexpansions ?_
          rw [hheap]
          exact hsize hempty
      · rw [if_neg hdotdot]
        obtain ⟨text, htext⟩ := hs'.texts s'.path List.mem_cons_self
        refine (returns_loadText htext).bind ?_
        rintro t p₂ ⟨rfl, rfl⟩
        split
        · exact enterDirectory_spec hs' base c hexpansions (hsize hempty)
        · next hfinal =>
          have hbelow : s'.below = [] := by
            by_contra hne
            exact hfinal (Or.inl hne)
          exact finalComponent_spec hs' a.follow base c _ hbelow hexpansions hend

/-- **The loop ends**, whatever the links are: an iteration uses up an expansion or a byte. -/
theorem loop_spec (h : Host) (a : Args) (base : Nat) (hs : LoopInv w h₀ pending s p) :
    ∃ n, ∀ rounds, n ≤ rounds → Returns (loop h a base rounds s) p fun r p' =>
      ExitInv w h₀ pending r.1 p' r.2 := by
  induction hm : toLex (128 - s.expansions, size p.heap s) using WellFoundedLT.induction
    generalizing s p with
  | ind m ih =>
    obtain ⟨r, p', hrun, hstepped⟩ := step_spec (h := h) hs a base
    cases hstepped with
    | @exit s' p' x hexit =>
      refine ⟨1, fun rounds hle => ?_⟩
      obtain ⟨rounds, rfl⟩ : ∃ k, rounds = k + 1 := ⟨rounds - 1, by omega⟩
      refine Returns.bind (Q := fun r p₁ => r = .exit s' x ∧ p₁ = p') ⟨_, _, hrun, rfl, rfl⟩ ?_
      rintro _ _ ⟨rfl, rfl⟩
      exact Returns.pure hexit
    | @next s' p' hinv hprogress =>
      have hlt : toLex (128 - s'.expansions, size p'.heap s') < m := by
        rw [← hm, Prod.Lex.toLex_lt_toLex]
        rcases hprogress with hmore | ⟨hsame, hless⟩
        · have := hinv.expansions_lt
          exact Or.inl (by simp only; omega)
        · exact Or.inr ⟨by simp only [hsame], hless⟩
      obtain ⟨n, hn⟩ := ih _ hlt hinv rfl
      refine ⟨n + 1, fun rounds hle => ?_⟩
      obtain ⟨rounds, rfl⟩ : ∃ k, rounds = k + 1 := ⟨rounds - 1, by omega⟩
      refine Returns.bind (Q := fun r p₁ => r = .next s' ∧ p₁ = p') ⟨_, _, hrun, rfl, rfl⟩ ?_
      rintro _ _ ⟨rfl, rfl⟩
      exact hn rounds (by omega)

end

/-! ## The exits -/

theorem Resources.perm {dirs' owned' : List Nat} (hr : Resources w h₀ pending dirs owned p)
    (hdirs : dirs.Perm dirs') (howned : owned.Perm owned') :
    Resources w h₀ pending dirs' owned' p := by
  obtain ⟨htable, hprestats, hlength, hobjects, hhost⟩ := hr.holding
  refine ⟨⟨htable, hprestats, hlength, hobjects, fun n => ?_⟩, hr.owns.perm howned,
    hdirs.nodup_iff.mp hr.nodup, fun n hn => hr.new n (hdirs.mem_iff.mpr hn)⟩
  rw [hhost n, hdirs.mem_iff]

theorem closeAll_spec (ns : List Nat) (hr : Resources w h₀ pending (ns ++ dirs) owned p) :
    Returns (closeAll ns) p fun _ p' => p'.heap = p.heap ∧ Resources w h₀ pending dirs owned p' := by
  induction ns generalizing p with
  | nil => exact Returns.pure ⟨rfl, hr⟩
  | cons n ns ih =>
    refine (hr.close List.mem_cons_self).bind ?_
    rintro - p₁ ⟨hheap, hr₁⟩
    rw [List.cons_append, erase_head] at hr₁
    refine (ih hr₁).mono ?_
    rintro - p₂ ⟨hheap₂, hr₂⟩
    exact ⟨hheap₂.trans hheap, hr₂⟩

theorem freeAll_spec (bs : List Nat) (hr : Resources w h₀ pending dirs (bs ++ owned) p) :
    Returns (freeAll bs) p fun _ p' => Resources w h₀ pending dirs owned p' := by
  induction bs generalizing p with
  | nil => exact Returns.pure hr
  | cons b bs ih =>
    have hr' : Resources w h₀ pending dirs (b :: (bs ++ owned)) p := hr
    refine hr'.free_head.bind ?_
    rintro - p₁ ⟨-, hr₁⟩
    exact ih hr₁

/-- Everything that has been taken since `p` is given back. -/
structure Restored (p p' : Process) : Prop where
  holding : Holding p.world [] [] p'.world
  heap : ∀ b, block p'.heap b = block p.heap b

theorem Resources.restored {p₀ : Process} (hr : Resources p₀.world p₀.heap [] [] [] p) :
    Restored p₀ p := ⟨hr.holding, hr.owns.block_of_nil⟩

theorem Resources.release {fo : Nat} (hr : Resources w h₀ [fo] dirs owned p) (hfo : w.LiveObject fo) :
    Returns (onWorld (fdObjectRelease fo)) p fun _ p' => Resources w h₀ [] dirs owned p' := by
  refine (returns_onWorld (hr.holding.release hfo List.mem_cons_self)).mono ?_
  rintro - p' ⟨hw, hheap⟩
  rw [erase_head] at hw
  exact ⟨hw, hheap ▸ hr.owns, hr.nodup, hr.new⟩

/-- What a lease holds: the object, its path, and the descriptor unless it is the object's own. -/
structure Leased (w : World) (h₀ : Heap UInt8) (fo : Nat) (o : FdObject) (pa : PathAccess)
    (p : Process) : Prop where
  object : pa.object = fo
  resources : ∃ dirs, (dirs = [] ∧ pa.fd = o.number ∨ dirs = [pa.fd]) ∧
    Resources w h₀ [fo] dirs pa.pathStart.toList p

theorem finish_spec {fo : Nat} {o : FdObject} {s : State} {x : Exit}
    (hr : ExitInv w h₀ [fo] s p x) (hfo : w.LiveObject fo) :
    Returns (finish fo o.number s x) p fun r p' =>
      (∃ e, r = .error e ∧ Resources w h₀ [] [] [] p') ∨
        ∃ pa, r = .ok pa ∧ Leased w h₀ fo o pa p' := by
  cases x with
  | fail e =>
    have hr₀ : Resources w h₀ [fo] (s.dirs.reverse ++ []) (s.starts.reverse ++ []) p :=
      hr.perm (by simp) (by simp)
    refine (closeAll_spec _ hr₀).bind ?_
    rintro - p₁ ⟨-, hr₁⟩
    refine (freeAll_spec _ hr₁).bind fun _ p₂ hr₂ => ?_
    refine (hr₂.release hfo).bind fun _ p₃ hr₃ => ?_
    exact Returns.pure (Or.inl ⟨e, rfl, hr₃⟩)
  | success path =>
    have hr' : Resources w h₀ [fo] s.dirs (path.map fun _ => s.bottom).toList p := by
      cases path with
      | none => exact hr
      | some q => exact hr
    have hdirs : ∃ dirs, (dirs = [] ∧ s.top o.number = o.number ∨ dirs = [s.top o.number]) ∧
        s.dirs.Perm (s.dirs.tail.reverse ++ dirs) := by
      cases hs : s.dirs with
      | nil => exact ⟨[], Or.inl ⟨rfl, by rw [State.top, hs]; rfl⟩, List.Perm.refl _⟩
      | cons d ds =>
        refine ⟨[d], Or.inr (by rw [State.top, hs]; rfl), ?_⟩
        exact (List.reverse_perm ds).symm.cons d |>.trans (List.perm_append_singleton d _).symm
    obtain ⟨dirs, htop, hperm⟩ := hdirs
    refine (closeAll_spec _ (hr'.perm hperm (List.Perm.refl _))).bind ?_
    rintro - p₁ ⟨-, hr₁⟩
    exact Returns.pure (Or.inr ⟨_, rfl, rfl, dirs, htop, hr₁⟩)

/-- A lease can be given back. -/
theorem pathPut_spec {fo : Nat} {o : FdObject} {pa : PathAccess} (hpa : Leased w h₀ fo o pa p)
    (hfo : w.LiveObject fo) (ho : w.objects[fo]? = some o) :
    Returns (pathPut pa) p fun _ p' => Resources w h₀ [] [] [] p' := by
  obtain ⟨rfl, dirs, hdirs, hr⟩ := hpa
  obtain ⟨o', ho', hfreed, -, hopen⟩ := id hfo
  obtain rfl := Option.some.inj (ho.symm.trans ho')
  unfold pathPut
  refine Returns.bind (Q := fun _ p' => Resources w h₀ [pa.object] dirs [] p') ?_ fun _ p₁ hr₁ => ?_
  · cases hstart : pa.pathStart with
    | none =>
      rw [hstart] at hr
      exact Returns.pure hr
    | some b =>
      rw [hstart] at hr
      have hr' : Resources w h₀ [pa.object] dirs (b :: []) p := hr
      exact hr'.free_head.mono fun _ _ h => h.2
  · refine (returns_onWorld (hr₁.holding.fdObject ho hfreed)).bind ?_
    rintro o' p₂ ⟨⟨hworld, -, hnumber, -⟩, hheap⟩
    have hr₂ : Resources w h₀ [pa.object] dirs [] p₂ :=
      ⟨hworld ▸ hr₁.holding, hheap ▸ hr₁.owns, hr₁.nodup, hr₁.new⟩
    rcases hdirs with ⟨rfl, hfd⟩ | rfl
    · rw [hnumber, if_neg fun hne => hne hfd.symm]
      exact hr₂.release hfo
    · have hne : o.number ≠ pa.fd := fun heq => hr.new pa.fd List.mem_cons_self (heq ▸ hopen)
      rw [hnumber, if_pos hne]
      refine (hr₂.close List.mem_cons_self).bind ?_
      rintro - p₃ ⟨-, hr₃⟩
      rw [erase_head] at hr₃
      exact hr₃.release hfo

/-! ## The call -/

theorem strNullterminate_spec (hr : Resources w h₀ pending dirs [] p) (upath : Text) :
    Returns (strNullterminate h upath) p fun r p' =>
      (∃ e, r = .error e ∧ Resources w h₀ pending dirs [] p') ∨
        ∃ b t, r = .ok b ∧ Resources w h₀ pending dirs [b] p' ∧ textAt p'.heap ⟨b, 0⟩ = some t := by
  unfold strNullterminate
  refine (hr.answer _).bind ?_
  rintro ok p₁ ⟨-, -, hr₁⟩
  cases ok with
  | false => exact Returns.pure (Or.inl ⟨_, rfl, hr₁⟩)
  | true =>
    refine (hr₁.malloc _).bind ?_
    rintro b p₂ ⟨-, hb, -, hr₂⟩
    have hnull : 0 ∉ upath.takeWhile (· != 0) := fun hmem => by
      simpa using List.mem_takeWhile_imp hmem
    have htext := textAt_of_drop (q := ⟨b, 0⟩) hb rfl hnull
    refine (returns_loadText htext).bind ?_
    rintro _ _ ⟨rfl, rfl⟩
    split
    · refine hr₂.free_head.bind ?_
      rintro - p₃ ⟨-, hr₃⟩
      exact Returns.pure (Or.inl ⟨_, rfl, hr₃⟩)
    · exact Returns.pure (Or.inr ⟨b, _, rfl, hr₂, htext⟩)

/-- How a call ends: it has failed and given everything back, or it has a lease on a descriptor that is
open, and `path_put` gives everything back. -/
def Settled (p : Process) (r : Except Posix.Errno PathAccess) (p' : Process) : Prop :=
  (∀ e, r = .error e → Restored p p') ∧
    ∀ pa, r = .ok pa → pa.fd ∈ p'.world.hostOpen ∧
      Returns (pathPut pa) p' fun _ p'' => Restored p p''

theorem Resources.settled_error {p₀ : Process} (hr : Resources p₀.world p₀.heap [] [] [] p) (e : Posix.Errno) :
    Settled p₀ (.error e) p :=
  ⟨fun _ _ => hr.restored, fun _ heq => by cases heq⟩

theorem Leased.settled {p₀ : Process} {fo : Nat} {o : FdObject} {pa : PathAccess}
    (hpa : Leased p₀.world p₀.heap fo o pa p) (hfo : p₀.world.LiveObject fo)
    (ho : p₀.world.objects[fo]? = some o) : Settled p₀ (.ok pa) p := by
  refine ⟨(fun e heq => by cases heq), fun pa' heq => ?_⟩
  obtain rfl := Except.ok.inj heq
  refine ⟨?_, (pathPut_spec hpa hfo ho).mono fun _ _ hr => hr.restored⟩
  obtain ⟨-, dirs, hdirs, hr⟩ := hpa
  rw [hr.holding.host]
  rcases hdirs with ⟨-, hfd⟩ | rfl
  · obtain ⟨o', ho', -, -, hopen⟩ := hfo
    obtain rfl := Option.some.inj (ho.symm.trans ho')
    exact Or.inl (hfd ▸ hopen)
  · exact Or.inr List.mem_cons_self

/-- **`path_get` ends without a fault and gives back what it takes**, for every path, whatever the links
are and whichever calls fail. -/
theorem pathGet_settled (hlive : p.world.Live) (h : Host) (a : Args) :
    ∃ n, ∀ rounds, n ≤ rounds → Returns (pathGet rounds h a) p (Settled p) := by
  have hr : Resources p.world p.heap [] [] [] p :=
    ⟨Holding.refl p.world, Owns.refl p.heap, List.nodup_nil, fun _ hn => absurd hn List.not_mem_nil⟩
  obtain ⟨r₁, p₁, hrun₁, ⟨e, rfl, hr₁⟩ | ⟨b, t, rfl, hr₁, htext⟩⟩ :=
    strNullterminate_spec (h := h) hr a.upath
  · refine ⟨0, fun rounds _ => ?_⟩
    refine Returns.bind (Q := fun r p₂ => r = .error e ∧ p₂ = p₁) ⟨_, _, hrun₁, rfl, rfl⟩ ?_
    rintro _ _ ⟨rfl, rfl⟩
    exact Returns.pure (hr₁.settled_error e)
  obtain ⟨r₂, p₂, hrun₂, hgot, hheap₂⟩ :=
    returns_onWorld (hr₁.holding.get hlive a.fd a.rightsBase a.rightsInheriting)
  obtain ⟨e, rfl, -, hw₂⟩ | ⟨fe, fo, rfl, -, hfo, hw₂⟩ := hgot
  · have hr₂ : Resources p.world p.heap [] [] [b] p₂ := ⟨hw₂, hheap₂ ▸ hr₁.owns, hr₁.nodup, hr₁.new⟩
    refine ⟨0, fun rounds _ => ?_⟩
    refine Returns.bind (Q := fun r p' => r = .ok b ∧ p' = p₁) ⟨_, _, hrun₁, rfl, rfl⟩ ?_
    rintro _ _ ⟨rfl, rfl⟩
    refine Returns.bind (Q := fun r p' => r = .error e ∧ p' = p₂) ⟨_, _, hrun₂, rfl, rfl⟩ ?_
    rintro _ _ ⟨rfl, rfl⟩
    refine hr₂.free_head.bind ?_
    rintro - p₃ ⟨-, hr₃⟩
    exact Returns.pure (hr₃.settled_error e)
  · obtain ⟨o, ho, hfreed, -⟩ := id hfo
    have hr₂ : Resources p.world p.heap [fo] [] [b] p₂ := ⟨hw₂, hheap₂ ▸ hr₁.owns, hr₁.nodup, hr₁.new⟩
    obtain ⟨o', p₃, hrun₃, ⟨hworld₃, -, hnumber, -⟩, hheap₃⟩ :=
      returns_onWorld (hw₂.fdObject ho hfreed)
    have hr₃ : Resources p.world p.heap [fo] [] [b] p₃ :=
      ⟨hworld₃ ▸ hr₂.holding, hheap₃ ▸ hr₂.owns, hr₂.nodup, hr₂.new⟩
    have hs : LoopInv p.world p.heap [fo] ⟨[], ⟨b, 0⟩, [], 0⟩ p₃ := by
      refine ⟨hr₃, fun q hq => ?_, Nat.zero_lt_succ _, Nat.zero_lt_succ _, Nat.zero_lt_succ _⟩
      obtain rfl := List.mem_singleton.mp hq
      exact ⟨t, by rw [hheap₃, hheap₂, htext]⟩
    obtain ⟨n, hn⟩ := loop_spec h a o'.number hs
    refine ⟨n, fun rounds hle => ?_⟩
    refine Returns.bind (Q := fun r p' => r = .ok b ∧ p' = p₁) ⟨_, _, hrun₁, rfl, rfl⟩ ?_
    rintro _ _ ⟨rfl, rfl⟩
    refine Returns.bind (Q := fun r p' => r = .ok fo ∧ p' = p₂) ⟨_, _, hrun₂, rfl, rfl⟩ ?_
    rintro _ _ ⟨rfl, rfl⟩
    refine Returns.bind (Q := fun r p' => r = o' ∧ p' = p₃) ⟨_, _, hrun₃, rfl, rfl⟩ ?_
    rintro _ _ ⟨rfl, rfl⟩
    refine (hn rounds hle).bind ?_
    rintro ⟨s, x⟩ p₄ hexit
    rw [hnumber]
    refine (finish_spec hexit hfo).mono ?_
    rintro r p₅ (⟨e, rfl, hr₅⟩ | ⟨pa, rfl, hpa⟩)
    · exact hr₅.settled_error e
    · exact hpa.settled hfo ho

end

/-- A process with one directory. -/
def oneDirectory : Process where
  world := ⟨⟨[⟨some 0, rightsDirectoryBase, 0⟩], 1⟩, [], [⟨1, .directory, 3, false, false⟩], [3], []⟩
  heap := []
  answers := 0

theorem oneDirectory_live : oneDirectory.world.Live := by
  intro fe hfe fo hfo
  obtain rfl := List.mem_singleton.mp hfe
  obtain rfl := Option.some.inj hfo
  exact ⟨⟨1, .directory, 3, false, false⟩, rfl, rfl, Nat.one_pos, List.mem_cons_self⟩

/-- A host on which every component is a symbolic link to `a`. -/
def cyclic : Host where
  strndup _ := true
  openat _ _ _ _ := .error .eloop
  openat_new _ _ _ _ _ h := by cases h
  readlinkat _ _ _ len := .ok (List.replicate (min 1 len) 97)
  readlinkat_le _ _ _ _ text h := by
    obtain rfl : _ = text := Except.ok.inj h
    rw [List.length_replicate]
    exact Nat.min_le_right _ _
  realloc _ len := len < 2 ^ 63
  realloc_lt _ _ h := of_decide_eq_true h
  junk _ _ := 0

theorem pathGet_settled_cyclic : oneDirectory.world.Live ∧ ∃ n, ∀ rounds, n ≤ rounds →
    Returns (pathGet rounds cyclic ⟨0, true, [97], rightPathOpen, 0, false⟩) oneDirectory
      (Settled oneDirectory) :=
  ⟨oneDirectory_live, pathGet_settled oneDirectory_live cyclic _⟩

end Wasmtime.Wasi.PathLease
