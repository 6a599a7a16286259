import Mathlib
import Wasmtime.Lib.Worklist

/-!
# The DIEs that are kept

Model of `build_dependencies` and `Dependencies::get_reachable` (`wasmtime-debug/src/gc.rs`).

* The children of a DIE are a chain of siblings that a null entry ends, as DWARF has them (`Dies`).
* What can be parsed is parsed already: a reference is a section offset, and an index into a table of addresses
  its address.
* The edges are a list where the code has a map of sets; `getReachable` follows them with fuel.

Results: `mem_edges` (which edges are recorded), `exists_getReachable` (some fuel is enough) and the headline
`getReachable_least`.
-/

namespace Wasmtime.Debug.Units

/-! ## DIEs -/

/-- The tags that the pass tells apart. -/
inductive Tag where
  | compileUnit
  | subprogram
  | pointerType
  | structureType
  | baseType
  | variable
  | constant
  | inlinedSubroutine
  | lexicalBlock
  | label
  | withStmt
  | tryBlock
  | catchBlock
  | templateTypeParameter
  | member
  | formalParameter
  | other (code : Nat)
  deriving DecidableEq, Repr

/-- `RawRngListEntry`. -/
inductive RawRange where
  | addressOrOffsetPair (first : Nat)
  /-- `StartEnd`, `StartLength`, `StartxEndx` and `StartxLength`. -/
  | start (first : Nat)
  /-- `BaseAddress` and `BaseAddressx`. -/
  | baseAddress (addr : Nat)
  | offsetPair
  deriving DecidableEq, Repr

structure Entry where
  offset : Nat
  tag : Tag
  /-- The attributes that are references to a DIE. -/
  refs : List Nat
  /-- `DW_AT_low_pc`, where it is an address. -/
  lowPc : Option Nat
  /-- Whether there is a `DW_AT_high_pc`. -/
  highPc : Bool
  /-- `DW_AT_ranges`; `some none` where it is not a range list. -/
  ranges : Option (Option (List RawRange))
  deriving DecidableEq, Repr

/-- A chain of siblings with their children. -/
inductive Dies where
  | null
  | entry (die : Entry) (children siblings : Dies)
  deriving DecidableEq, Repr

/-- The DIEs of a unit. -/
structure DieUnit where
  root : Entry
  children : Dies
  deriving DecidableEq, Repr

/-- The DIEs in their order. -/
def Dies.entries : Dies → List Entry
  | .null => []
  | .entry die children siblings => die :: (children.entries ++ siblings.entries)

/-- Among children of `parent` and below, `p` is the parent of `x`. -/
def Dies.Parent (parent : Entry) : Dies → Entry → Entry → Prop
  | .null, _, _ => False
  | .entry die children siblings, x, p =>
    (x = die ∧ p = parent) ∨ children.Parent die x p ∨ siblings.Parent parent x p

def DieUnit.Parent (u : DieUnit) (x p : Entry) : Prop := u.children.Parent u.root x p

/-! ## `build_dependencies` -/

structure Dependencies where
  edges : List (Nat × Nat)
  roots : List Nat

def Dependencies.addEdge (deps : Dependencies) (a b : Nat) : Dependencies :=
  { deps with edges := deps.edges ++ [(a, b)] }

def Dependencies.addRoot (deps : Dependencies) (root : Nat) : Dependencies :=
  { deps with roots := deps.roots ++ [root] }

def Entry.hasDieBackEdge (e : Entry) : Bool :=
  match e.tag with
  | .variable | .constant | .inlinedSubroutine | .lexicalBlock | .label | .withStmt | .tryBlock | .catchBlock
  | .templateTypeParameter | .member | .formalParameter => true
  | _ => false

/-- The loop over a range list, with `has_valid_base`. -/
def anyTranslates (canTranslate : Nat → Bool) : List RawRange → Option Bool → Bool
  | [], _ => false
  | .addressOrOffsetPair _ :: ranges, some base => base || anyTranslates canTranslate ranges (some base)
  | .addressOrOffsetPair first :: ranges, none => canTranslate first || anyTranslates canTranslate ranges none
  | .start first :: ranges, base => canTranslate first || anyTranslates canTranslate ranges base
  | .baseAddress addr :: ranges, _ => anyTranslates canTranslate ranges (some (canTranslate addr))
  | .offsetPair :: ranges, base => anyTranslates canTranslate ranges base

def Entry.hasValidCodeRange (canTranslate : Nat → Bool) (e : Entry) : Bool :=
  if e.tag = .subprogram then
    match e.ranges with
    | some ranges => ranges.elim false fun list => anyTranslates canTranslate list (e.lowPc.map canTranslate)
    | none => e.lowPc.elim false canTranslate
  else false

/-- `build_attr_dependencies`, for every attribute. -/
def buildAttrDependencies (e : Entry) (deps : Dependencies) : Dependencies :=
  e.refs.foldl (fun deps ref => deps.addEdge e.offset ref) deps

/-- The loop over the children in `build_die_dependencies`. -/
def Dies.buildDependencies (canTranslate : Nat → Bool) (parent : Entry) : Dies → Dependencies → Dependencies
  | .null, deps => deps
  | .entry child children siblings, deps =>
    let deps := deps.addEdge child.offset parent.offset
    let deps := if child.hasDieBackEdge then deps.addEdge parent.offset child.offset else deps
    let deps := if child.hasValidCodeRange canTranslate then deps.addRoot child.offset else deps
    let deps := children.buildDependencies canTranslate child (buildAttrDependencies child deps)
    siblings.buildDependencies canTranslate parent deps

/-- `build_unit_dependencies`. -/
def DieUnit.buildDependencies (canTranslate : Nat → Bool) (deps : Dependencies) (u : DieUnit) : Dependencies :=
  u.children.buildDependencies canTranslate u.root (buildAttrDependencies u.root deps)

def buildDependencies (canTranslate : Nat → Bool) (units : List DieUnit) : Dependencies :=
  units.foldl (DieUnit.buildDependencies canTranslate) ⟨[], []⟩

/-- What the edges of an entry lead to. -/
def Dependencies.targets (deps : Dependencies) (a : Nat) : List Nat :=
  (deps.edges.filter fun e => decide (e.1 = a)).map Prod.snd

def Dependencies.getReachable (deps : Dependencies) (fuel : Nat) : Option (List Nat) :=
  Worklist.reach deps.targets fuel deps.roots

/-! ## The recorded edges -/

/-- The edges between parent and child, and those of references. -/
inductive Edge (parents : Entry → Entry → Prop) (entries : List Entry) : Nat × Nat → Prop
  | parent {x p : Entry} : parents x p → Edge parents entries (x.offset, p.offset)
  | child {x p : Entry} : parents x p → x.hasDieBackEdge = true → Edge parents entries (p.offset, x.offset)
  | ref {x : Entry} {r : Nat} : x ∈ entries → r ∈ x.refs → Edge parents entries (x.offset, r)

def DieUnit.entries (u : DieUnit) : List Entry := u.root :: u.children.entries

def DieUnit.Edge (u : DieUnit) (e : Nat × Nat) : Prop := Units.Edge u.Parent u.entries e

section

variable {canTranslate : Nat → Bool} {deps : Dependencies} {parent die : Entry} {children siblings : Dies}
  {e : Nat × Nat}

/-- Edges are kept where there are more parents and entries. -/
theorem Edge.imp {parents parents' : Entry → Entry → Prop} {entries entries' : List Entry}
    (hparents : ∀ x p, parents x p → parents' x p) (hentries : ∀ x ∈ entries, x ∈ entries')
    (h : Edge parents entries e) : Edge parents' entries' e := by
  cases h with
  | parent hp => exact .parent (hparents _ _ hp)
  | child hp hback => exact .child (hparents _ _ hp) hback
  | ref hx hr => exact .ref (hentries _ hx) hr

/-- The edges of a chain are those of its first entry, of its children and of its siblings. -/
theorem edge_entry :
    Edge ((Dies.entry die children siblings).Parent parent) (Dies.entry die children siblings).entries e ↔
      (e = (die.offset, parent.offset) ∨ die.hasDieBackEdge = true ∧ e = (parent.offset, die.offset)) ∨
        (∃ r ∈ die.refs, e = (die.offset, r)) ∨ Edge (children.Parent die) children.entries e ∨
          Edge (siblings.Parent parent) siblings.entries e := by
  constructor
  · intro h
    cases h with
    | parent hp =>
      rcases hp with ⟨rfl, rfl⟩ | hp | hp
      · exact .inl (.inl rfl)
      · exact .inr (.inr (.inl (.parent hp)))
      · exact .inr (.inr (.inr (.parent hp)))
    | child hp hback =>
      rcases hp with ⟨rfl, rfl⟩ | hp | hp
      · exact .inl (.inr ⟨hback, rfl⟩)
      · exact .inr (.inr (.inl (.child hp hback)))
      · exact .inr (.inr (.inr (.child hp hback)))
    | ref hx hr =>
      rcases List.mem_cons.mp hx with rfl | hx
      · exact .inr (.inl ⟨_, hr, rfl⟩)
      · rcases List.mem_append.mp hx with hx | hx
        · exact .inr (.inr (.inl (.ref hx hr)))
        · exact .inr (.inr (.inr (.ref hx hr)))
  · rintro ((rfl | ⟨hback, rfl⟩) | ⟨r, hr, rfl⟩ | h | h)
    · exact .parent (.inl ⟨rfl, rfl⟩)
    · exact .child (.inl ⟨rfl, rfl⟩) hback
    · exact .ref List.mem_cons_self hr
    · exact h.imp (fun x p hp => .inr (.inl hp))
        fun x hx => List.mem_cons_of_mem die (List.mem_append_left _ hx)
    · exact h.imp (fun x p hp => .inr (.inr hp))
        fun x hx => List.mem_cons_of_mem die (List.mem_append_right _ hx)

theorem mem_addEdge {a b : Nat} : e ∈ (deps.addEdge a b).edges ↔ e ∈ deps.edges ∨ e = (a, b) := by
  simp [Dependencies.addEdge]

theorem mem_buildAttrDependencies :
    e ∈ (buildAttrDependencies die deps).edges ↔ e ∈ deps.edges ∨ ∃ r ∈ die.refs, e = (die.offset, r) := by
  rw [buildAttrDependencies]
  induction die.refs generalizing deps with
  | nil => simp
  | cons r refs ih => rw [List.foldl_cons, ih, mem_addEdge, List.exists_mem_cons_iff, or_assoc]

theorem Dies.mem_edges (d : Dies) :
    e ∈ (d.buildDependencies canTranslate parent deps).edges ↔
      e ∈ deps.edges ∨ Units.Edge (d.Parent parent) d.entries e := by
  induction d generalizing parent deps with
  | null =>
    refine ⟨.inl, fun h => h.resolve_right fun h => ?_⟩
    cases h with
    | parent hp => exact hp
    | child hp _ => exact hp
    | ref hx _ => cases hx
  | entry child children siblings ihc ihs =>
    have hroot : ∀ deps : Dependencies,
        (if child.hasValidCodeRange canTranslate = true then deps.addRoot child.offset else deps).edges =
          deps.edges := by
      intro deps
      split <;> rfl
    have hback : ∀ deps : Dependencies,
        e ∈ (if child.hasDieBackEdge = true then deps.addEdge parent.offset child.offset else deps).edges ↔
          e ∈ deps.edges ∨ child.hasDieBackEdge = true ∧ e = (parent.offset, child.offset) := by
      intro deps
      split
      · next h => rw [mem_addEdge]; simp [h]
      · next h => simp [h]
    rw [Dies.buildDependencies, ihs, ihc, mem_buildAttrDependencies, hroot, hback, mem_addEdge, edge_entry]
    simp only [or_assoc]

/-- **The edges that are recorded.** -/
theorem mem_edges {units : List DieUnit} :
    e ∈ (buildDependencies canTranslate units).edges ↔ ∃ u ∈ units, u.Edge e := by
  have hunit : ∀ (u : DieUnit) (deps : Dependencies),
      e ∈ (u.buildDependencies canTranslate deps).edges ↔ e ∈ deps.edges ∨ u.Edge e := by
    intro u deps
    rw [DieUnit.buildDependencies, Dies.mem_edges, mem_buildAttrDependencies, or_assoc]
    refine or_congr_right ⟨?_, fun h => ?_⟩
    · rintro (⟨r, hr, rfl⟩ | h)
      · exact .ref List.mem_cons_self hr
      · exact h.imp (fun _ _ hp => hp) fun x hx => List.mem_cons_of_mem u.root hx
    · cases h with
      | parent hp => exact .inr (.parent hp)
      | child hp hback => exact .inr (.child hp hback)
      | ref hx hr =>
        rcases List.mem_cons.mp hx with rfl | hx
        · exact .inl ⟨_, hr, rfl⟩
        · exact .inr (.ref hx hr)
  have hfold : ∀ (units : List DieUnit) (deps : Dependencies),
      e ∈ (units.foldl (DieUnit.buildDependencies canTranslate) deps).edges ↔
        e ∈ deps.edges ∨ ∃ u ∈ units, u.Edge e := by
    intro units
    induction units with
    | nil => simp
    | cons u units ih =>
      intro deps
      rw [List.foldl_cons, ih, hunit, List.exists_mem_cons_iff, or_assoc]
  rw [buildDependencies, hfold]
  exact or_iff_right List.not_mem_nil

end

/-! ## What is kept -/

/-- A set of offsets closed under the edges and under taking parents. -/
structure Closed (units : List DieUnit) (edges : List (Nat × Nat)) (kept : Nat → Prop) : Prop where
  edges : ∀ e ∈ edges, kept e.1 → kept e.2
  parents : ∀ u ∈ units, ∀ x p, u.Parent x p → kept x.offset → kept p.offset

section

variable {deps : Dependencies} {a b : Nat}

theorem mem_targets : b ∈ deps.targets a ↔ (a, b) ∈ deps.edges := by
  rw [Dependencies.targets, List.mem_map]
  constructor
  · rintro ⟨⟨a', b'⟩, he, rfl⟩
    obtain ⟨he, ha⟩ := List.mem_filter.mp he
    rw [← of_decide_eq_true ha]
    exact he
  · intro h
    exact ⟨(a, b), List.mem_filter.mpr ⟨h, decide_eq_true rfl⟩, rfl⟩

theorem exists_getReachable (deps : Dependencies) : ∃ fuel reachable, deps.getReachable fuel = some reachable :=
  @Worklist.exists_reach _ _ deps.targets (deps.edges.map Prod.snd)
    (fun _ _ hy => List.mem_map.mpr ⟨_, mem_targets.mp hy, rfl⟩) deps.roots

/-- **The least closed set.** What is reachable from any roots has the roots, is closed under the recorded edges
and under taking parents, and is in every such set. -/
theorem getReachable_least {canTranslate : Nat → Bool} {units : List DieUnit} {roots : List Nat} {fuel : Nat}
    {reachable : List Nat}
    (h : ({ buildDependencies canTranslate units with roots := roots }).getReachable fuel = some reachable) :
    (∀ r ∈ roots, r ∈ reachable) ∧
      Closed units (buildDependencies canTranslate units).edges (fun x => x ∈ reachable) ∧
      ∀ kept : Nat → Prop, (∀ r ∈ roots, kept r) →
        Closed units (buildDependencies canTranslate units).edges kept → ∀ x ∈ reachable, kept x := by
  have hmem := fun x => @Worklist.mem_reach _ _ _ _ x _ _ h
  refine ⟨fun r hr => (hmem r).mpr (.of_mem hr), ⟨fun e he ha => ?_, fun u hu x p hp hx => ?_⟩,
    fun kept hroots hclosed x hx => ?_⟩
  · exact (hmem e.2).mpr (((hmem e.1).mp ha).step (mem_targets.mpr he))
  · have hedge : (x.offset, p.offset) ∈ (buildDependencies canTranslate units).edges :=
      mem_edges.mpr ⟨u, hu, .parent hp⟩
    exact (hmem p.offset).mpr (((hmem x.offset).mp hx).step (mem_targets.mpr hedge))
  · exact ((hmem x).mp hx).mem_of_closed hroots fun z hz y hy => hclosed.edges (z, y) (mem_targets.mp hy) hz

end

end Wasmtime.Debug.Units
