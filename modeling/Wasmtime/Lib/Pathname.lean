import Mathlib.Data.List.TakeWhile
import Mathlib.Tactic.Conv

/-!
# Pathname resolution

A directory tree with symbolic links, and the resolution of pathnames in it as POSIX describes it:
one component at a time from a starting directory, `..` being the physical parent, and the content
of a symbolic link taking the place of its component in what remains of the path.

* A name is a list of bytes. `components` drops the empty ones, so runs of slashes are one.
* The resolution is a step function, `Tree.walk`, with no bound on the number of links: `Resolves`
  and `Visits` are what it ends with and where it passes through.
* The result is an object of the tree, or the place in a directory where there is none.

Results: `components_cons` and `components_append_slash` (reading a pathname from the left),
`Tree.Resolves.unique`, `Tree.Stack.under`, `Tree.Stack.pop`.
-/

namespace Pathname

/-- A pathname, or one component of it. -/
abbrev Text := List UInt8

def slash : UInt8 := 47

def dot : Text := [46]

def dotdot : Text := [46, 46]

/-! ## Pathnames -/

/-- The components of a pathname. -/
def components (path : Text) : List Text := (path.splitOn slash).filter fun c => !c.isEmpty

/-- Whether a pathname ends in a slash. -/
def endsInSlash (path : Text) : Bool := path.getLast? == some slash

/-- Whether a pathname is absolute. -/
def isAbsolute (path : Text) : Bool := path.head? == some slash

/-- The first component of a relative pathname. -/
def first (path : Text) : Text := path.takeWhile (· != slash)

/-- What follows the first component, slashes included. -/
def tail (path : Text) : Text := path.dropWhile (· != slash)

/-- What follows the first component and its slashes. -/
def rest (path : Text) : Text := (tail path).dropWhile (· == slash)

theorem first_append_tail (path : Text) : first path ++ tail path = path :=
  List.takeWhile_append_dropWhile

theorem slash_notMem_first (path : Text) : slash ∉ first path := by
  intro h
  have := List.mem_takeWhile_imp h
  simp at this

theorem components_nil : components [] = [] := rfl

@[simp] theorem components_slash (path : Text) : components (slash :: path) = components path := by
  rw [components, ← List.nil_append (slash :: path), List.splitOn_append_cons_self]
  simp [components]

theorem components_dropSlashes (path : Text) :
    components (path.dropWhile (· == slash)) = components path := by
  induction path with
  | nil => rfl
  | cons c path ih =>
    by_cases hc : c = slash
    · subst hc
      simpa using ih
    · rw [List.dropWhile_cons_of_neg (by simpa using hc)]

theorem tail_eq (path : Text) : tail path = [] ∨ ∃ t, tail path = slash :: t := by
  cases h : tail path with
  | nil => exact .inl rfl
  | cons c t =>
    have hc := List.head?_dropWhile_not (· != slash) path
    rw [show path.dropWhile (· != slash) = c :: t from h] at hc
    simp only [List.head?_cons, bne_eq_false_iff_eq] at hc
    exact .inr ⟨t, by rw [hc]⟩

/-- A pathname that does not start with a slash is its first component and the rest. -/
theorem components_cons {path : Text} (h : first path ≠ []) :
    components path = first path :: components (rest path) := by
  have hne : (first path).isEmpty = false := by simpa using h
  rw [rest, components_dropSlashes]
  obtain ht | ⟨t, ht⟩ := tail_eq path
  · conv_lhs => rw [← first_append_tail path, ht, List.append_nil]
    rw [components, List.splitOn_eq_singleton (slash_notMem_first path), ht]
    simp [hne, components_nil]
  · conv_lhs => rw [← first_append_tail path, ht]
    rw [components, List.splitOn_append_cons_self_of_not_mem (slash_notMem_first path), ht,
      components_slash]
    simp [hne, components]

theorem components_append_slash (path : Text) : components (path ++ [slash]) = components path := by
  rw [components, List.splitOn_append_cons_self]
  simp [components]

@[simp] theorem endsInSlash_append_slash (path : Text) : endsInSlash (path ++ [slash]) = true := by
  simp [endsInSlash]

theorem first_eq_nil {path : Text} : first path = [] ↔ path = [] ∨ isAbsolute path = true := by
  cases path with
  | nil => simp [first]
  | cons c t =>
    by_cases hc : c = slash
    · simp [first, isAbsolute, hc]
    · simp [first, isAbsolute, hc]

/-- What follows the slashes is empty or starts with a component. -/
theorem first_rest {path : Text} (h : rest path ≠ []) : first (rest path) ≠ [] := by
  cases hr : rest path with
  | nil => exact absurd hr h
  | cons c t =>
    have hc := List.head?_dropWhile_not (· == slash) (tail path)
    rw [show (tail path).dropWhile (· == slash) = c :: t from hr] at hc
    simp only [List.head?_cons, beq_eq_false_iff_ne, ne_eq] at hc
    simp [first, hc]

theorem components_ne_nil {path : Text} (h : first path ≠ []) : components path ≠ [] := by
  rw [components_cons h]
  exact List.cons_ne_nil _ _

/-- The rest ends in a slash when the whole does. -/
theorem endsInSlash_rest {path : Text} (h : rest path ≠ []) :
    endsInSlash (rest path) = endsInSlash path := by
  have hsuffix : rest path <:+ path :=
    (List.dropWhile_suffix _).trans (List.dropWhile_suffix _)
  obtain ⟨front, hfront⟩ := hsuffix
  have hlast : (front ++ rest path).getLast? = (rest path).getLast? := by
    rw [List.getLast?_append, List.getLast?_eq_some_getLast h, Option.some_or]
  rw [hfront] at hlast
  rw [endsInSlash, endsInSlash, hlast]

/-- A single component is followed by slashes exactly when the pathname ends in one. -/
theorem endsInSlash_of_rest_nil {path : Text} (h : rest path = []) :
    endsInSlash path = true ↔ tail path ≠ [] := by
  constructor
  · intro hs ht
    have hpath : path = first path := by
      conv_lhs => rw [← first_append_tail path, ht, List.append_nil]
    rw [endsInSlash, hpath] at hs
    have hmem : slash ∈ first path := List.mem_of_getLast? (by simpa using hs)
    exact slash_notMem_first path hmem
  · intro ht
    have hall : ∀ c ∈ tail path, c = slash := by
      have := List.dropWhile_eq_nil_iff.mp h
      simpa using this
    rw [endsInSlash, ← first_append_tail path, List.getLast?_append,
      List.getLast?_eq_some_getLast ht, hall _ (List.getLast_mem ht)]
    simp

theorem length_rest_lt {path : Text} (h : first path ≠ []) : (rest path).length < path.length := by
  have hlen : path.length = (first path).length + (tail path).length := by
    rw [← List.length_append, first_append_tail]
  have hfirst : 0 < (first path).length := List.length_pos_iff.mpr h
  have hrest : (rest path).length ≤ (tail path).length := List.length_dropWhile_le _ _
  omega

/-! ## Directory trees -/

/-- What a node of the tree is. -/
inductive Inode (N : Type) where
  | dir (entries : Text → Option N)
  | symlink (target : Text)
  | other

/-- A tree of directories: one that is an entry of a directory has it as its parent. -/
structure Tree (N : Type) where
  inode : N → Inode N
  root : N
  parent : N → N
  parent_entry : ∀ d entries name c sub, inode d = .dir entries → entries name = some c →
    inode c = .dir sub → parent c = d

/-- The errors of a resolution. -/
inductive Failure where
  | noEntry
  | notDirectory
  deriving DecidableEq, Repr

/-- What a pathname denotes: a node, or an entry that a directory does not have. -/
inductive Object (N : Type) where
  | node (n : N)
  | absent (dir : N) (name : Text)
  deriving DecidableEq, Repr

/-- Where a resolution stands: a node, the components to come, and whether a slash follows. -/
structure Walk (N : Type) where
  cur : N
  todo : List Text
  slash : Bool
  deriving DecidableEq, Repr

/-- What one step gives. -/
inductive Next (N : Type) where
  | go (w : Walk N)
  | found (o : Object N)
  | fails (e : Failure)
  deriving DecidableEq, Repr

namespace Tree

variable {N : Type} (t : Tree N)

/-- Put a pathname before the components that remain. -/
def enter (cur : N) (path : Text) (todo : List Text) (slash : Bool) : Next N :=
  if path = [] then .fails .noEntry
  else .go
    { cur := if isAbsolute path then t.root else cur
      todo := components path ++ todo
      slash := if todo = [] then slash || endsInSlash path else slash }

/-- One component. A symbolic link is followed unless it comes last, with no slash after it and
without `follow`. -/
def walk (follow : Bool) (w : Walk N) : Next N :=
  match w.todo with
  | [] => .found (.node w.cur)
  | name :: todo =>
    match t.inode w.cur with
    | .dir entries =>
      if name = dot then .go { w with todo }
      else if name = dotdot then .go { w with cur := t.parent w.cur, todo }
      else
        match entries name with
        | none => if todo = [] then .found (.absent w.cur name) else .fails .noEntry
        | some n =>
          match t.inode n with
          | .dir _ => .go { w with cur := n, todo }
          | .symlink target =>
            if todo = [] ∧ (follow || w.slash) = false then .found (.node n)
            else t.enter w.cur target todo w.slash
          | .other =>
            if todo = [] ∧ w.slash = false then .found (.node n) else .fails .notDirectory
    | _ => .fails .notDirectory

/-- The resolution of a pathname from a node. -/
def start (base : N) (path : Text) : Next N := t.enter base path [] false

/-- What the resolution ends with. -/
inductive Resolves (follow : Bool) : Next N → Except Failure (Object N) → Prop
  | found (o : Object N) : Resolves follow (.found o) (.ok o)
  | fails (e : Failure) : Resolves follow (.fails e) (.error e)
  | go {w : Walk N} {r : Except Failure (Object N)} (h : Resolves follow (t.walk follow w) r) :
      Resolves follow (.go w) r

/-- The nodes the resolution passes through. -/
inductive Visits (follow : Bool) : Next N → N → Prop
  | here (w : Walk N) : Visits follow (.go w) w.cur
  | later {w : Walk N} {n : N} (h : Visits follow (t.walk follow w) n) : Visits follow (.go w) n

/-- A directory is at or below another. -/
inductive Under (base : N) : N → Prop
  | base : Under base base
  | entry {d c : N} {entries sub : Text → Option N} {name : Text} (h : Under base d)
      (hd : t.inode d = .dir entries) (hc : entries name = some c)
      (hsub : t.inode c = .dir sub) : Under base c

/-- A directory with the directories above it, up to the base. -/
inductive Stack (base : N) : N → List N → Prop
  | base : Stack base base []
  | push {d c : N} {up : List N} {entries sub : Text → Option N} {name : Text}
      (h : Stack base d up) (hd : t.inode d = .dir entries) (hc : entries name = some c)
      (hsub : t.inode c = .dir sub) : Stack base c (d :: up)

variable {t}

theorem Resolves.unique {follow : Bool} {next : Next N} {r r' : Except Failure (Object N)}
    (h : t.Resolves follow next r) (h' : t.Resolves follow next r') : r = r' := by
  induction h with
  | found o => cases h'; rfl
  | fails e => cases h'; rfl
  | go _ ih =>
    cases h' with
    | go h'' => exact ih h''

@[simp] theorem resolves_go {follow : Bool} {w : Walk N} {r : Except Failure (Object N)} :
    t.Resolves follow (.go w) r ↔ t.Resolves follow (t.walk follow w) r := by
  constructor
  · intro h
    cases h with
    | go h => exact h
  · exact .go

@[simp] theorem resolves_found {follow : Bool} {o : Object N} {r : Except Failure (Object N)} :
    t.Resolves follow (.found o) r ↔ r = .ok o := by
  constructor
  · intro h
    cases h
    rfl
  · rintro rfl
    exact .found o

@[simp] theorem resolves_fails {follow : Bool} {e : Failure} {r : Except Failure (Object N)} :
    t.Resolves follow (.fails e) r ↔ r = .error e := by
  constructor
  · intro h
    cases h
    rfl
  · rintro rfl
    exact .fails e

theorem visits_go {follow : Bool} {w : Walk N} {n : N} :
    t.Visits follow (.go w) n ↔ n = w.cur ∨ t.Visits follow (t.walk follow w) n := by
  constructor
  · intro h
    cases h with
    | here => exact .inl rfl
    | later h => exact .inr h
  · rintro (rfl | h)
    · exact .here w
    · exact .later h

theorem Stack.under {base d : N} {up : List N} (h : t.Stack base d up) : t.Under base d := by
  induction h with
  | base => exact .base
  | push _ hd hc hsub ih => exact .entry ih hd hc hsub

/-- The directory below the top of the stack is its parent, with a stack of its own. -/
theorem Stack.pop {base c d : N} {up : List N} (h : t.Stack base c (d :: up)) :
    t.parent c = d ∧ t.Stack base d up ∧ (∃ sub, t.inode c = .dir sub) ∧
      ∃ entries, t.inode d = .dir entries := by
  cases h with
  | push h hd hc hsub => exact ⟨t.parent_entry _ _ _ _ _ hd hc hsub, h, ⟨_, hsub⟩, _, hd⟩

/-- A relative pathname is entered where it stands. -/
theorem enter_of_first {cur : N} {path : Text} {todo : List Text} {slash : Bool}
    (h : first path ≠ []) : t.enter cur path todo slash = .go
      { cur := cur, todo := components path ++ todo
        slash := if todo = [] then slash || endsInSlash path else slash } := by
  have hnot : ¬(path = [] ∨ isAbsolute path = true) := fun hp => h (first_eq_nil.mpr hp)
  rw [not_or] at hnot
  rw [enter, if_neg hnot.1]
  simp [hnot.2]

end Tree

end Pathname
