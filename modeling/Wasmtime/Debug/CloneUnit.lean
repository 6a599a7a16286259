import Mathlib
import Wasmtime.Debug.Dependencies
import Wasmtime.Debug.Expression
import Wasmtime.Lib.Fallible

/-!
# The copy of a unit

Model of `clone_unit` (`wasmtime-debug/src/transform/unit.rs`), `add_internal_types` and `append_vmctx_info`
(`wasmtime-debug/src/transform/utils.rs`).

* `next_dfs` gives a DIE with the difference between its depth and that of the DIE before it (`next`).
* The output is the list of its DIEs, each with its parent; an identifier is a position in the list.
* A stack has its top first. What the rest of the transformation finds for a DIE is in `Pass`; references
  between DIEs, set at the end, are left out.

A unit's root is copied whether or not it is kept.

Results: `cloneUnit_eq` (the loop is the recursion over the tree `Dies.emit`), `Dies.emit_holds`, and the headline
`cloneUnit_kept`.
-/

namespace Wasmtime.Debug.Units

/-! ## The output -/

inductive AttrName where
  | name
  | byteSize
  | encoding
  | type
  | dataMemberLocation
  | location
  deriving DecidableEq, Repr

inductive Value where
  | string (s : String)
  | data (n : Nat)
  | entryRef (id : Nat)
  /-- The expression `vmctx` built over scope ranges. -/
  | vmctx (frameInfo : Option FunctionFrameInfo) (scope : List (Nat × Nat))

/-- The attributes of a DIE of the output. -/
inductive Content (A : Type) where
  /-- What `clone_die_attributes` makes. -/
  | cloned (attributes : A)
  /-- A wrapper in place of a pointer type. -/
  | wrapper (attributes : List (AttrName × Value))
  /-- A DIE that is no copy. -/
  | added (attributes : List (AttrName × Value))

/-- A DIE of the output. -/
structure Copy (A : Type) where
  parent : Option Nat
  tag : Tag
  content : Content A

/-- `comp_unit`, `die_ref_map` and `translated`. -/
structure Out (A : Type) where
  unit : List (Copy A)
  dieRefMap : List (Nat × Nat)
  translated : List Nat

/-- An error of a call, an unexpected unit header, or a panic. -/
inductive Failure (Err : Type) where
  | error (e : Err)
  | unexpectedUnitHeader
  | panic

/-- What the pass gets for a DIE from the rest of the transformation. -/
structure Pass (Err A : Type) where
  reachable : List Nat
  memoryOffset : Int
  /-- `clone_line_program`. -/
  lineProgram : Entry → Except Err Unit
  /-- `RangeInfoBuilder::from_subprogram_die`, where it is a function. -/
  subprogram : Entry → Except Err (Option Nat)
  funcSourceRange : Nat → Nat × Nat
  /-- `get_function_frame_info`. -/
  frameInfo : Nat → Option FunctionFrameInfo
  /-- `get_ranges` of `RangeInfoBuilder::from`. -/
  scopeRanges : Entry → Except Err (List (Nat × Nat))
  /-- `DW_AT_frame_base`, compiled. -/
  frameBase : Entry → Except Err (Option CompiledExpression)
  /-- `get_base_type_name`. -/
  baseTypeName : Entry → Except Err String
  rootAttributes : Entry → Except Err A
  /-- `clone_die_attributes`. -/
  attributes : Entry → Option FunctionFrameInfo → Option (List (Nat × Nat)) → Option CompiledExpression →
    Except Err A

variable {Err A : Type}

/-! ## DIEs that are added -/

/-- `wp_die_id` and `vmctx_die_id`, after the root. -/
def wpDieId : Nat := 1
def vmctxDieId : Nat := 6

/-- `add_internal_types`, under the root. -/
def internalTypes (memoryOffset : Int) : List (Copy A) :=
  [⟨some 0, .baseType, .added [(.name, .string "WebAssemblyPtr"), (.byteSize, .data 4), (.encoding, .data 7)]⟩,
    ⟨some 0, .baseType, .added [(.name, .string "u8"), (.encoding, .data 7), (.byteSize, .data 1)]⟩,
    ⟨some 0, .pointerType, .added [(.name, .string "u8*"), (.type, .entryRef 2)]⟩,
    ⟨some 0, .structureType, .added [(.name, .string "WasmtimeVMContext"),
      (.byteSize, .data ((memoryOffset % 2 ^ 32).toNat + 8))]⟩,
    ⟨some 4, .member, .added [(.name, .string "memory"), (.type, .entryRef 3),
      (.dataMemberLocation, .data (memoryOffset % 2 ^ 64).toNat)]⟩,
    ⟨some 0, .pointerType, .added [(.name, .string "WasmtimeVMContext*"), (.type, .entryRef 4)]⟩]

/-- `replace_pointer_type`. -/
def Pass.replacePointerType (t : Pass Err A) (parent : Nat) (entry : Entry) (unit : List (Copy A)) :
    Except Err (List (Copy A)) := do
  let name ← t.baseTypeName entry
  return unit ++
    [⟨some parent, .structureType, .wrapper [(.name, .string ("WebAssemblyPtrWrapper<" ++ name ++ ">")),
        (.byteSize, .data 4)]⟩,
      ⟨some unit.length, .templateTypeParameter, .added [(.name, .string "T"), (.type, .entryRef wpDieId)]⟩,
      ⟨some unit.length, .member, .added [(.name, .string "__ptr"), (.type, .entryRef wpDieId),
        (.dataMemberLocation, .data 0)]⟩]

/-- `append_vmctx_info`. -/
def appendVmctxInfo (parent : Nat) (frameInfo : Option FunctionFrameInfo) (scope : List (Nat × Nat))
    (unit : List (Copy A)) : List (Copy A) :=
  unit ++ [⟨some parent, .variable, .added [(.name, .string "__vmctx"), (.type, .entryRef vmctxDieId),
    (.location, .vmctx frameInfo scope)]⟩]

/-! ## The stacks -/

/-- `InheritedAttr`: the values of the enclosing DIEs, each with the length of the stack there. -/
abbrev InheritedAttr (T : Type) : Type := List (Nat × T)

namespace InheritedAttr

variable {T : Type}

def update (s : InheritedAttr T) (depth : Nat) : InheritedAttr T := s.dropWhile fun entry => decide (depth ≤ entry.1)

/-- Pushes a value, where there is one. -/
def push (s : InheritedAttr T) (depth : Nat) (value : Option T) : InheritedAttr T :=
  value.elim s fun v => (depth, v) :: s

def top (s : InheritedAttr T) : Option T := s.head?.map Prod.snd

end InheritedAttr

/-- The variables of the loop. -/
structure Loop (A : Type) where
  skipAtDepth : Option (Int × Int)
  stack : List Nat
  frameBase : InheritedAttr CompiledExpression
  valueRange : InheritedAttr FunctionFrameInfo
  scopeRanges : InheritedAttr (List (Nat × Nat))
  out : Out A

/-- `assert!`. -/
def assert (p : Prop) [Decidable p] : Except (Failure Err) Unit := if p then .ok () else .error .panic

/-- A call with `?`. -/
def call {T : Type} (r : Except Err T) : Except (Failure Err) T := r.mapError Failure.error

/-- What a DIE has of its own. -/
structure Own where
  function : Option Nat
  frameInfo : Option FunctionFrameInfo
  scope : Option (List (Nat × Nat))

/-- `range_builder`, and what it is pushed for. -/
def Pass.own (t : Pass Err A) (entry : Entry) : Except Err Own :=
  if entry.tag = .subprogram then do
    let function ← t.subprogram entry
    return ⟨function, function.bind t.frameInfo, function.map fun f => [t.funcSourceRange f]⟩
  else if entry.highPc || entry.ranges.isSome then do
    let scope ← t.scopeRanges entry
    return ⟨none, none, some scope⟩
  else return ⟨none, none, none⟩

/-- `stack.len().wrapping_add(depth_delta as usize)`, of the length of a vector. -/
def newStackLen (len : Nat) (depthDelta : Int) : Nat :=
  (if (len : Int) + depthDelta < 0 then len + depthDelta + 2 ^ 64 else len + depthDelta).toNat

/-- The copy of a DIE under `parent`, with what it has inherited. -/
def Pass.copy (t : Pass Err A) (parent : Nat) (entry : Entry) (frameInfo : Option FunctionFrameInfo)
    (scope : Option (List (Nat × Nat))) (frameBase : Option CompiledExpression) (out : Out A) :
    Except Err (Out A) :=
  if entry.tag = .pointerType then do
    let unit ← t.replacePointerType parent entry out.unit
    return { out with unit := unit, dieRefMap := out.dieRefMap ++ [(entry.offset, out.unit.length)] }
  else do
    let attributes ← t.attributes entry frameInfo scope frameBase
    let unit := out.unit ++ [⟨some parent, entry.tag, .cloned attributes⟩]
    let unit :=
      if entry.tag = .subprogram then scope.elim unit fun s => appendVmctxInfo out.unit.length frameInfo s unit
      else unit
    return { out with unit := unit, dieRefMap := out.dieRefMap ++ [(entry.offset, out.unit.length)] }

/-- The stack when the DIEs that have ended are popped. -/
def popEnded (stack : List Nat) (depthDelta : Int) : Except (Failure Err) (List Nat) :=
  if depthDelta ≤ 0 then .ok (stack.drop (1 - depthDelta).toNat)
  else (assert (depthDelta = 1)).map fun _ => stack

/-- A copy and the assertion about the stack's length: a pointer type is replaced before it, the attributes of
another DIE are cloned after it. -/
def checkedCopy (entry : Entry) (synchronized : Except (Failure Err) Unit) (copied : Except Err (Out A)) :
    Except (Failure Err) (Out A) :=
  if entry.tag = .pointerType then (call copied).bind fun out => synchronized.map fun _ => out
  else synchronized.bind fun _ => call copied

/-- What the loop does for a DIE that is kept. -/
def Pass.keep (t : Pass Err A) (s : Loop A) (depthDelta : Int) (entry : Entry) :
    Except (Failure Err) (Loop A) := do
  let len := newStackLen s.stack.length depthDelta
  let own ← call (t.own entry)
  let valueRange := (s.valueRange.update len).push len own.frameInfo
  let scopeRanges := (s.scopeRanges.update len).push len own.scope
  let stack ← popEnded s.stack depthDelta
  let base ← call (t.frameBase entry)
  let frameBase := (s.frameBase.update len).push len base
  let parent ← stack.head?.elim (.error .panic) .ok
  let out ← checkedCopy entry (assert (stack.length + 1 = len))
    (t.copy parent entry valueRange.top scopeRanges.top frameBase.top
      { s.out with translated := s.out.translated ++ own.function.toList })
  return ⟨none, s.out.unit.length :: stack, frameBase, valueRange, scopeRanges, out⟩

/-! ## The loop -/

/-- What is still skipped, or the difference to the depth of the last DIE that was kept. -/
def depthChange : Option (Int × Int) → Int → (Int × Int) ⊕ Int
  | none, depthDelta => .inr depthDelta
  | some (depth, cached), depthDelta =>
    if depth + depthDelta > 0 then .inl (depth + depthDelta, cached) else .inr (depth + depthDelta + cached)

def Pass.step (t : Pass Err A) (s : Loop A) (depthDelta : Int) (entry : Entry) :
    Except (Failure Err) (Loop A) :=
  match depthChange s.skipAtDepth depthDelta with
  | .inl skipped => .ok { s with skipAtDepth := some skipped }
  | .inr depthDelta =>
    if entry.offset ∈ t.reachable then t.keep s depthDelta entry
    else .ok { s with skipAtDepth := some (0, depthDelta) }

/-- The DIEs in their order, with their depths. -/
def Dies.preorder : Dies → Nat → List (Nat × Entry)
  | .null, _ => []
  | .entry die children siblings, depth =>
    (depth, die) :: (children.preorder (depth + 1) ++ siblings.preorder depth)

/-- `next_dfs` and the body of the loop, after a DIE of the given depth. -/
def Pass.next (t : Pass Err A) (s : Nat × Loop A) (e : Nat × Entry) : Except (Failure Err) (Nat × Loop A) :=
  (t.step s.2 (e.1 - s.1) e.2).map fun loop => (e.1, loop)

/-- The unit with its root and the internal types. -/
def Pass.cloneRoot (t : Pass Err A) (root : Entry) : Except (Failure Err) (Out A) := do
  call (t.lineProgram root)
  if root.tag = .compileUnit then
    let attributes ← call (t.rootAttributes root)
    return ⟨⟨none, .compileUnit, .cloned attributes⟩ :: internalTypes t.memoryOffset, [(root.offset, 0)], []⟩
  else .error .unexpectedUnitHeader

def Pass.cloneUnit (t : Pass Err A) (u : DieUnit) : Except (Failure Err) (Out A) := do
  let out ← t.cloneRoot u.root
  let (_, s) ← (u.children.preorder 1).foldlM t.next (0, ⟨none, [0], [], [], [], out⟩)
  return s.out

/-! ## The recursion over the tree -/

/-- What a DIE inherits. -/
structure Enclosing where
  frameInfo : Option FunctionFrameInfo
  scope : Option (List (Nat × Nat))
  frameBase : Option CompiledExpression

/-- What is inherited below a DIE. -/
def Enclosing.within (enc : Enclosing) (own : Own) (base : Option CompiledExpression) : Enclosing :=
  ⟨own.frameInfo.or enc.frameInfo, own.scope.or enc.scope, base.or enc.frameBase⟩

/-- The copy of one DIE, with what it has of its own. -/
def Pass.emitDie (t : Pass Err A) (parent : Nat) (enc : Enclosing) (die : Entry) (out : Out A) :
    Except Err (Own × Option CompiledExpression × Out A) := do
  let own ← t.own die
  let base ← t.frameBase die
  let inner := enc.within own base
  let copied ← t.copy parent die inner.frameInfo inner.scope inner.frameBase
    { out with translated := out.translated ++ own.function.toList }
  return (own, base, copied)

/-- The copies of the DIEs of a chain, each with those below it. -/
def Dies.emit (t : Pass Err A) : Dies → Nat → Enclosing → Out A → Except Err (Out A)
  | .null, _, _, out => .ok out
  | .entry die children siblings, parent, enc, out =>
    if die.offset ∈ t.reachable then do
      let (own, base, copied) ← t.emitDie parent enc die out
      let below ← children.emit t out.unit.length (enc.within own base) copied
      siblings.emit t parent enc below
    else siblings.emit t parent enc out

/-! ## The stacks follow the path -/

namespace InheritedAttr

variable {T : Type} {s s' : InheritedAttr T} {m n : Nat} {v : T}

theorem update_cons_of_le (h : m ≤ n) : update ((n, v) :: s) m = s.update m :=
  List.dropWhile_cons_of_pos (decide_eq_true h)

theorem update_cons_of_lt (h : n < m) : update ((n, v) :: s) m = (n, v) :: s :=
  List.dropWhile_cons_of_neg (by simpa using h)

/-- What is below a level is below every higher one. -/
theorem update_eq_self (hmn : m ≤ n) (h : s.update m = s) : s.update n = s := by
  cases s with
  | nil => rfl
  | cons entry s =>
    rcases Nat.lt_or_ge entry.1 m with hlt | hle
    · exact update_cons_of_lt (hlt.trans_le hmn)
    · have hlength := congrArg List.length h
      have hsub : (update s m).length ≤ s.length := (List.dropWhile_sublist _).length_le
      rw [update_cons_of_le hle, List.length_cons] at hlength
      omega

theorem update_update (hmn : m ≤ n) : (s.update n).update m = s.update m := by
  induction s with
  | nil => rfl
  | cons entry s ih =>
    rcases Nat.lt_or_ge entry.1 n with hlt | hle
    · rw [update_cons_of_lt hlt]
    · rw [update_cons_of_le hle, update_cons_of_le (hmn.trans hle), ih]

/-- A value pushed at a level is below the next one. -/
theorem update_push (value : Option T) (h : s.update n = s) : (s.push n value).update (n + 1) = s.push n value := by
  cases value with
  | none => exact update_eq_self (Nat.le_succ n) h
  | some v => exact update_cons_of_lt (Nat.lt_succ_self n)

/-- Going back to the level of a value drops it. -/
theorem update_of_push {value : Option T} (hs : s.update n = s) (h : s'.update (n + 1) = s.push n value) :
    s'.update n = s := by
  rw [← update_update (Nat.le_succ n), h]
  cases value with
  | none => exact hs
  | some v => exact (update_cons_of_le (Nat.le_refl n)).trans hs

theorem top_push (value : Option T) : (s.push n value).top = value.or s.top := by
  cases value <;> rfl

end InheritedAttr

/-- The copies of the DIEs above a place in the tree, and the stacks there. -/
structure Path where
  parent : Nat
  above : List Nat
  frameBase : InheritedAttr CompiledExpression
  valueRange : InheritedAttr FunctionFrameInfo
  scopeRanges : InheritedAttr (List (Nat × Nat))

namespace Path

def depth (p : Path) : Nat := p.above.length + 1

def enclosing (p : Path) : Enclosing := ⟨p.valueRange.top, p.scopeRanges.top, p.frameBase.top⟩

/-- The path below a DIE that is kept. -/
def within (p : Path) (id : Nat) (own : Own) (base : Option CompiledExpression) : Path where
  parent := id
  above := p.parent :: p.above
  frameBase := p.frameBase.push (p.depth + 1) base
  valueRange := p.valueRange.push (p.depth + 1) own.frameInfo
  scopeRanges := p.scopeRanges.push (p.depth + 1) own.scope

/-- No value on the stacks is from deeper than the path. -/
structure Ok (p : Path) : Prop where
  frameBase : p.frameBase.update (p.depth + 1) = p.frameBase
  valueRange : p.valueRange.update (p.depth + 1) = p.valueRange
  scopeRanges : p.scopeRanges.update (p.depth + 1) = p.scopeRanges

/-- The loop, after a DIE of depth `last`, can go on with a child of the path's last DIE: above the path there is
only what will be popped, and what is skipped is no higher than these children. -/
structure Ready (p : Path) (last : Nat) (s : Loop A) : Prop where
  stack : p.parent :: p.above <:+ s.stack
  frameBase : s.frameBase.update (p.depth + 1) = p.frameBase
  valueRange : s.valueRange.update (p.depth + 1) = p.valueRange
  scopeRanges : s.scopeRanges.update (p.depth + 1) = p.scopeRanges
  skipped : (s.skipAtDepth = none ∧ s.stack.length = last + 1) ∨
    ∃ k : Nat, p.depth ≤ k ∧ s.skipAtDepth = some ((last : Int) - k, (k : Int) + 1 - s.stack.length)

variable {p : Path} {last id : Nat} {own : Own} {base : Option CompiledExpression} {s : Loop A}

theorem Ok.within (h : p.Ok) : (p.within id own base).Ok where
  frameBase := InheritedAttr.update_push base h.frameBase
  valueRange := InheritedAttr.update_push own.frameInfo h.valueRange
  scopeRanges := InheritedAttr.update_push own.scope h.scopeRanges

theorem enclosing_within : (p.within id own base).enclosing = p.enclosing.within own base := by
  simp only [enclosing, Path.within, Enclosing.within, InheritedAttr.top_push]

/-- Below a DIE the loop is ready for its siblings. -/
theorem Ready.leave (hp : p.Ok) (h : (p.within id own base).Ready last s) : p.Ready last s where
  stack := (List.suffix_cons id _).trans h.stack
  frameBase := InheritedAttr.update_of_push hp.frameBase h.frameBase
  valueRange := InheritedAttr.update_of_push hp.valueRange h.valueRange
  scopeRanges := InheritedAttr.update_of_push hp.scopeRanges h.scopeRanges
  skipped := h.skipped.imp_right fun ⟨k, hk, hskip⟩ => ⟨k, (Nat.le_succ _).trans hk, hskip⟩

/-- The depth change that the loop gets for a child, and the length of the stack it computes. -/
theorem Ready.depthChange (h : p.Ready last s) :
    Units.depthChange s.skipAtDepth ((p.depth : Int) - last) = .inr ((p.depth : Int) + 1 - s.stack.length) := by
  rcases h.skipped with ⟨hskip, hlength⟩ | ⟨k, hk, hskip⟩
  · rw [hskip, Units.depthChange, hlength]
    congr 1
    push_cast
    omega
  · rw [hskip, Units.depthChange, if_neg (by omega)]
    congr 1
    omega

theorem newStackLen_depth (len : Nat) : newStackLen len ((p.depth : Int) + 1 - len) = p.depth + 1 := by
  rw [newStackLen, if_neg (by omega)]
  omega

/-- The stack after popping is the path. -/
theorem Ready.pop (h : p.Ready last s) :
    popEnded s.stack ((p.depth : Int) + 1 - s.stack.length) =
      (.ok (p.parent :: p.above) : Except (Failure Err) (List Nat)) := by
  obtain ⟨extra, hstack⟩ := h.stack
  have hlength : s.stack.length = extra.length + p.depth := by
    rw [← hstack, List.length_append, List.length_cons, depth]
  by_cases hextra : extra = []
  · subst hextra
    rw [List.length_nil] at hlength
    rw [popEnded, if_neg (by omega), assert, if_pos (by omega), ← hstack]
    rfl
  · have hpos : 0 < extra.length := List.length_pos_iff.mpr hextra
    have hdrop : (1 - ((p.depth : Int) + 1 - s.stack.length)).toNat = extra.length := by omega
    rw [popEnded, if_pos (by omega), hdrop, ← hstack, List.drop_left]

/-- The loop after a DIE that is kept. -/
def kept (p : Path) (id : Nat) (r : Own × Option CompiledExpression × Out A) : Loop A :=
  let inner := p.within id r.1 r.2.1
  ⟨none, inner.parent :: inner.above, inner.frameBase, inner.valueRange, inner.scopeRanges, r.2.2⟩

theorem kept_ready (hp : p.Ok) (r : Own × Option CompiledExpression × Out A) :
    (p.within id r.1 r.2.1).Ready p.depth (p.kept id r) where
  stack := List.suffix_refl _
  frameBase := hp.within.frameBase
  valueRange := hp.within.valueRange
  scopeRanges := hp.within.scopeRanges
  skipped := .inl ⟨rfl, rfl⟩

theorem checkedCopy_true {entry : Entry} {q : Prop} [Decidable q] (hq : q) (copied : Except Err (Out A)) :
    checkedCopy entry (assert q) copied = call copied := by
  rw [checkedCopy, assert, if_pos hq]
  split
  · cases copied <;> rfl
  · rfl

/-- **A DIE that is kept.** Its copy goes under the path's last DIE, with what the path has inherited. -/
theorem Ready.keep (t : Pass Err A) (h : p.Ready last s) (die : Entry) :
    t.keep s ((p.depth : Int) + 1 - s.stack.length) die =
      (call (t.emitDie p.parent p.enclosing die s.out)).map (p.kept s.out.unit.length) := by
  rw [Pass.keep, Pass.emitDie]
  simp only [newStackLen_depth, h.frameBase, h.valueRange, h.scopeRanges, h.pop]
  cases hown : t.own die with
  | error e => rfl
  | ok own =>
    cases hbase : t.frameBase die with
    | error e => rfl
    | ok base =>
      have hlength : (p.parent :: p.above).length + 1 = p.depth + 1 := rfl
      change (checkedCopy die _ _).bind _ = (call ((t.copy p.parent die (p.enclosing.within own base).frameInfo
        (p.enclosing.within own base).scope (p.enclosing.within own base).frameBase _).bind _)).map _
      rw [checkedCopy_true hlength, ← @enclosing_within p s.out.unit.length own base]
      simp only [enclosing, Path.within]
      cases t.copy p.parent die (p.valueRange.push (p.depth + 1) own.frameInfo).top
        (p.scopeRanges.push (p.depth + 1) own.scope).top (p.frameBase.push (p.depth + 1) base).top
        { s.out with translated := s.out.translated ++ own.function.toList } with
      | error e => rfl
      | ok out => rfl

/-- The loop and the recursion end alike, the loop ready to go on with the path. -/
inductive Follows (p : Path) : Except (Failure Err) (Nat × Loop A) → Except Err (Out A) → Prop
  | ok {last : Nat} {s : Loop A} : p.Ready last s → Follows p (.ok (last, s)) (.ok s.out)
  | error {e : Err} : Follows p (.error (.error e)) (.error e)

theorem Follows.bind {q : Path} {r : Except (Failure Err) (Nat × Loop A)} {x : Except Err (Out A)}
    {k : Nat × Loop A → Except (Failure Err) (Nat × Loop A)} {k' : Out A → Except Err (Out A)}
    (h : p.Follows r x) (hk : ∀ last s, p.Ready last s → q.Follows (k (last, s)) (k' s.out)) :
    q.Follows (r.bind k) (x.bind k') := by
  cases h with
  | ok hready => exact hk _ _ hready
  | error => exact .error

/-- What is deeper than the DIE that is skipped is skipped with it. -/
theorem foldlM_skipped (t : Pass Err A) {k : Nat} {cached : Int} (d : Dies) {depth : Nat} (hdepth : k < depth)
    (hskip : s.skipAtDepth = some ((last : Int) - k, cached)) :
    ∃ last' : Nat, (d.preorder depth).foldlM t.next (last, s) =
      .ok (last', { s with skipAtDepth := some ((last' : Int) - k, cached) }) := by
  induction d generalizing depth last s with
  | null =>
    refine ⟨last, ?_⟩
    rw [← hskip]
    rfl
  | entry die children siblings ihc ihs =>
    have hnext : t.next (last, s) (depth, die) =
        .ok (depth, { s with skipAtDepth := some ((depth : Int) - k, cached) }) := by
      rw [Pass.next, Pass.step, hskip, Units.depthChange, if_pos (by simp only; omega)]
      have hsum : (last : Int) - k + (depth - last) = depth - k := by omega
      simp only [hsum]
      rfl
    obtain ⟨last₁, hchildren⟩ := @ihc depth { s with skipAtDepth := some ((depth : Int) - k, cached) } (depth + 1)
      (Nat.lt_succ_of_lt hdepth) rfl
    obtain ⟨last₂, hsiblings⟩ := @ihs last₁ { s with skipAtDepth := some ((last₁ : Int) - k, cached) } depth
      hdepth rfl
    refine ⟨last₂, ?_⟩
    rw [Dies.preorder, List.foldlM_cons, hnext]
    change List.foldlM _ _ _ = _
    rw [List.foldlM_append, hchildren]
    exact hsiblings

/-- **The loop is the recursion.** -/
theorem foldlM_follows (t : Pass Err A) (d : Dies) (hp : p.Ok) (h : p.Ready last s) :
    p.Follows ((d.preorder p.depth).foldlM t.next (last, s)) (d.emit t p.parent p.enclosing s.out) := by
  induction d generalizing p last s with
  | null => exact .ok h
  | entry die children siblings ihc ihs =>
    rw [Dies.preorder, Dies.emit, List.foldlM_cons]
    by_cases hmem : die.offset ∈ t.reachable
    · have hnext : t.next (last, s) (p.depth, die) =
          (call (t.emitDie p.parent p.enclosing die s.out)).map fun r => (p.depth, p.kept s.out.unit.length r) := by
        rw [Pass.next, Pass.step, h.depthChange]
        simp only [if_pos hmem, h.keep]
        cases t.emitDie p.parent p.enclosing die s.out <;> rfl
      rw [if_pos hmem, hnext]
      cases t.emitDie p.parent p.enclosing die s.out with
      | error e => exact .error
      | ok r =>
        obtain ⟨own, base, out⟩ := r
        change p.Follows (List.foldlM _ _ _) (Except.bind _ _)
        rw [List.foldlM_append]
        have hchildren := @ihc (p.within s.out.unit.length own base) p.depth (p.kept s.out.unit.length (own, base, out))
          hp.within (kept_ready hp (own, base, out))
        rw [enclosing_within] at hchildren
        exact hchildren.bind fun last' s' h' => ihs hp (h'.leave hp)
    · have hnext : t.next (last, s) (p.depth, die) =
          .ok (p.depth, { s with skipAtDepth := some (0, (p.depth : Int) + 1 - s.stack.length) }) := by
        rw [Pass.next, Pass.step, h.depthChange]
        simp only [if_neg hmem]
        rfl
      obtain ⟨last', hchildren⟩ := @foldlM_skipped _ _ p.depth
        { s with skipAtDepth := some (0, (p.depth : Int) + 1 - s.stack.length) } t p.depth _ children (p.depth + 1)
        (Nat.lt_succ_self _) (by rw [Int.sub_self])
      rw [if_neg hmem, hnext]
      change p.Follows (List.foldlM _ _ _) _
      rw [List.foldlM_append, hchildren]
      exact @ihs _ _ { s with skipAtDepth := some ((last' : Int) - p.depth, (p.depth : Int) + 1 - s.stack.length) } hp
        ⟨h.stack, h.frameBase, h.valueRange, h.scopeRanges, .inr ⟨p.depth, Nat.le_refl _, rfl⟩⟩

end Path

/-- The copies below the root of a unit. -/
def Pass.emitUnit (t : Pass Err A) (u : DieUnit) : Except (Failure Err) (Out A) := do
  let out ← t.cloneRoot u.root
  call (u.children.emit t 0 ⟨none, none, none⟩ out)

/-- **The copy of a unit is its recursion**: the stacks and the skipping follow the tree, and no assertion
fails. -/
theorem cloneUnit_eq (t : Pass Err A) (u : DieUnit) : t.cloneUnit u = t.emitUnit u := by
  rw [Pass.cloneUnit, Pass.emitUnit]
  refine congrArg (Except.bind (t.cloneRoot u.root)) (funext fun out => ?_)
  have hfollows := @Path.foldlM_follows _ _ ⟨0, [], [], [], []⟩ 0 ⟨none, [0], [], [], [], out⟩ t u.children
    ⟨rfl, rfl, rfl⟩ ⟨List.suffix_refl _, rfl, rfl, rfl, .inl ⟨rfl, rfl⟩⟩
  change (Except.bind (List.foldlM t.next _ (u.children.preorder 1)) _) = _
  revert hfollows
  change Path.Follows _ (List.foldlM t.next _ (u.children.preorder 1)) (u.children.emit t 0 ⟨none, none, none⟩ out) → _
  generalize List.foldlM t.next _ (u.children.preorder 1) = r
  generalize u.children.emit t 0 ⟨none, none, none⟩ out = x
  intro hfollows
  cases hfollows with
  | ok _ => rfl
  | error => rfl

/-! ## What is emitted -/

/-- The copy of a DIE: a wrapper in place of a pointer type, or one with its tag and its attributes. -/
def Copy.Of (t : Pass Err A) (die : Entry) (copy : Copy A) : Prop :=
  if die.tag = .pointerType then
    copy.tag = .structureType ∧ ∃ name, t.baseTypeName die = .ok name ∧ copy.content =
      .wrapper [(.name, .string ("WebAssemblyPtrWrapper<" ++ name ++ ">")), (.byteSize, .data 4)]
  else copy.tag = die.tag ∧ ∃ frameInfo scope frameBase attributes,
    t.attributes die frameInfo scope frameBase = .ok attributes ∧ copy.content = .cloned attributes

/-- At a position of the output is the copy of a DIE, under that of its parent. -/
def Out.CopyAt (t : Pass Err A) (parents : Entry → Entry → Prop) (out : Out A) (die : Entry) (id : Nat) : Prop :=
  ∃ copy p pid, out.unit[id]? = some copy ∧ copy.Of t die ∧ parents die p ∧ copy.parent = some pid ∧
    (p.offset, pid) ∈ out.dieRefMap

/-- The DIEs that have been copied, in their order, under the copies of their parents. -/
structure Out.Holds (t : Pass Err A) (root : Entry) (parents : Entry → Entry → Prop) (done : List Entry)
    (out : Out A) : Prop where
  copied : out.dieRefMap.map Prod.fst = (root :: done).map Entry.offset
  order : (out.dieRefMap.map Prod.snd).Pairwise (· < ·)
  /-- The root is the first DIE. -/
  first : out.dieRefMap.head? = some (root.offset, 0)
  root : ∃ attributes, t.rootAttributes root = .ok attributes ∧
    out.unit[0]? = some ⟨none, .compileUnit, .cloned attributes⟩
  /-- At the position of each other one is its copy. -/
  copies : List.Forall₂ (out.CopyAt t parents) done (out.dieRefMap.tail.map Prod.snd)
  /-- A DIE of the output at no such position is added. -/
  others : ∀ id copy, out.unit[id]? = some copy → id ∉ out.dieRefMap.map Prod.snd →
    ∃ attributes, copy.content = .added attributes

variable {t : Pass Err A} {root parent die : Entry} {parents : Entry → Entry → Prop} {done : List Entry}
  {out out' : Out A} {parentId : Nat} {enc : Enclosing}

/-- A copy is one DIE of the output, with those that are added behind it. -/
theorem Pass.copy_ok {frameInfo : Option FunctionFrameInfo} {scope : Option (List (Nat × Nat))}
    {frameBase : Option CompiledExpression} (h : t.copy parentId die frameInfo scope frameBase out = .ok out') :
    ∃ (copy : Copy A) (more : List (Copy A)), copy.Of t die ∧ copy.parent = some parentId ∧
      (∀ c ∈ more, ∃ attributes, c.content = .added attributes) ∧ out'.unit = out.unit ++ copy :: more ∧
      out'.dieRefMap = out.dieRefMap ++ [(die.offset, out.unit.length)] := by
  rw [Pass.copy] at h
  split at h
  · next htag =>
    rw [Pass.replacePointerType] at h
    cases hname : t.baseTypeName die with
    | error e =>
      rw [hname] at h
      cases h
    | ok name =>
      rw [hname] at h
      cases h
      refine ⟨_, _, ?_, rfl, fun c hc => ?_, rfl, rfl⟩
      · rw [Copy.Of, if_pos htag]
        exact ⟨rfl, name, hname, rfl⟩
      · rcases List.mem_cons.mp hc with rfl | hc
        · exact ⟨_, rfl⟩
        · rcases List.mem_singleton.mp hc with rfl
          exact ⟨_, rfl⟩
  · next htag =>
    cases hattributes : t.attributes die frameInfo scope frameBase with
    | error e =>
      rw [hattributes] at h
      cases h
    | ok attributes =>
      rw [hattributes] at h
      cases h
      have hof : Copy.Of t die ⟨some parentId, die.tag, .cloned attributes⟩ := by
        rw [Copy.Of, if_neg htag]
        exact ⟨rfl, _, _, _, _, hattributes, rfl⟩
      split
      · cases scope with
        | none => exact ⟨_, [], hof, rfl, (fun c hc => by cases hc), rfl, rfl⟩
        | some s =>
          refine ⟨_, _, hof, rfl, fun c hc => ?_, List.append_assoc out.unit [_] _, rfl⟩
          rcases List.mem_singleton.mp hc with rfl
          exact ⟨_, rfl⟩
      · exact ⟨_, [], hof, rfl, (fun c hc => by cases hc), rfl, rfl⟩

theorem Pass.emitDie_ok {r : Own × Option CompiledExpression × Out A} (h : t.emitDie parentId enc die out = .ok r) :
    ∃ (copy : Copy A) (more : List (Copy A)), copy.Of t die ∧ copy.parent = some parentId ∧
      (∀ c ∈ more, ∃ attributes, c.content = .added attributes) ∧ r.2.2.unit = out.unit ++ copy :: more ∧
      r.2.2.dieRefMap = out.dieRefMap ++ [(die.offset, out.unit.length)] := by
  obtain ⟨own, -, h⟩ := Fallible.bind_eq_ok h
  obtain ⟨base, -, h⟩ := Fallible.bind_eq_ok h
  obtain ⟨copied, hcopied, h⟩ := Fallible.bind_eq_ok h
  cases h
  exact @Pass.copy_ok _ _ t die { out with translated := out.translated ++ own.function.toList } _ _ _ _ _ hcopied

namespace Out.Holds

theorem dieRefMap_eq (h : out.Holds t root parents done) :
    out.dieRefMap = (root.offset, 0) :: out.dieRefMap.tail := by
  obtain ⟨rest, hrest⟩ := List.head?_eq_some_iff.mp h.first
  rw [hrest, List.tail_cons]

theorem first_mem (h : out.Holds t root parents done) : (root.offset, 0) ∈ out.dieRefMap := by
  rw [h.dieRefMap_eq]
  exact List.mem_cons_self

/-- The positions of the map are in the output. -/
theorem bound (h : out.Holds t root parents done) {id : Nat} (hid : id ∈ out.dieRefMap.map Prod.snd) :
    id < out.unit.length := by
  rw [h.dieRefMap_eq, List.map_cons] at hid
  rcases List.mem_cons.mp hid with rfl | hid
  · obtain ⟨attributes, -, hroot⟩ := h.root
    exact (List.getElem?_eq_some_iff.mp hroot).choose
  · obtain ⟨i, hi⟩ := List.mem_iff_getElem?.mp hid
    have hlength := h.copies.length_eq
    have hlt := (List.getElem?_eq_some_iff.mp hi).choose
    obtain ⟨copy, p, pid, hcopy, -⟩ := h.copies.get (hlength ▸ hlt) hlt
    rw [List.get_eq_getElem, (List.getElem?_eq_some_iff.mp hi).choose_spec] at hcopy
    exact (List.getElem?_eq_some_iff.mp hcopy).choose

/-- What is added to the end of the output and of the map leaves the copies as they are. -/
theorem copies_append (h : out.Holds t root parents done) {unit : List (Copy A)} {entries : List (Nat × Nat)}
    (hunit : out'.unit = out.unit ++ unit) (hmap : out'.dieRefMap = out.dieRefMap ++ entries) :
    List.Forall₂ (out'.CopyAt t parents) done (out.dieRefMap.tail.map Prod.snd) := by
  refine h.copies.imp fun d id ⟨copy, p, pid, hcopy, hof, hp, hpid, hmem⟩ => ⟨copy, p, pid, ?_, hof, hp, hpid, ?_⟩
  · rw [hunit, List.getElem?_append_left (List.getElem?_eq_some_iff.mp hcopy).choose, hcopy]
  · rw [hmap]
    exact List.mem_append_left _ hmem

/-- **One DIE more.** -/
theorem emitDie {r : Own × Option CompiledExpression × Out A} (h : out.Holds t root parents done)
    (hparent : parents die parent) (hid : (parent.offset, parentId) ∈ out.dieRefMap)
    (hr : t.emitDie parentId enc die out = .ok r) : r.2.2.Holds t root parents (done ++ [die]) := by
  obtain ⟨copy, more, hof, hcopy, hmore, hunit, hmap⟩ := Pass.emitDie_ok hr
  have hids : r.2.2.dieRefMap.map Prod.snd = out.dieRefMap.map Prod.snd ++ [out.unit.length] := by
    rw [hmap, List.map_append, List.map_singleton]
  refine ⟨?_, ?_, ?_, ?_, ?_, fun id c hc hnot => ?_⟩
  · rw [hmap, List.map_append, h.copied, ← List.cons_append, List.map_append, List.map_singleton, List.map_singleton]
  · rw [hids, List.pairwise_append]
    refine ⟨h.order, List.pairwise_singleton _ _, fun a ha b hb => ?_⟩
    rcases List.mem_singleton.mp hb with rfl
    exact h.bound ha
  · rw [hmap, h.dieRefMap_eq]
    rfl
  · obtain ⟨attributes, hattributes, hroot⟩ := h.root
    refine ⟨attributes, hattributes, ?_⟩
    rw [hunit, List.getElem?_append_left (List.getElem?_eq_some_iff.mp hroot).choose, hroot]
  · have htail : r.2.2.dieRefMap.tail = out.dieRefMap.tail ++ [(die.offset, out.unit.length)] := by
      rw [hmap, h.dieRefMap_eq]
      rfl
    rw [htail, List.map_append]
    refine List.rel_append (h.copies_append hunit hmap) (.cons ⟨copy, parent, parentId, ?_, hof, hparent, hcopy, ?_⟩ .nil)
    · rw [hunit, List.getElem?_append_right (Nat.le_refl _), Nat.sub_self, List.getElem?_cons_zero]
    · rw [hmap]
      exact List.mem_append_left _ hid
  · rw [hunit] at hc
    rw [hids, List.mem_append, not_or, List.mem_singleton] at hnot
    rcases Nat.lt_or_ge id out.unit.length with hlt | hge
    · rw [List.getElem?_append_left hlt] at hc
      exact h.others id c hc hnot.1
    · rw [List.getElem?_append_right hge] at hc
      obtain ⟨i, hi⟩ : ∃ i, id - out.unit.length = i + 1 := ⟨id - out.unit.length - 1, by have := hnot.2; omega⟩
      rw [hi, List.getElem?_cons_succ] at hc
      exact hmore c (List.mem_of_getElem? hc)

end Out.Holds

/-- The DIEs of a chain that are kept. -/
def Dies.kept (reachable : List Nat) (d : Dies) : List Entry := d.entries.filter fun x => decide (x.offset ∈ reachable)

/-- Below a DIE that is not kept nothing is. -/
theorem Dies.kept_eq_nil {reachable : List Nat} (d : Dies) (hparent : parent.offset ∉ reachable)
    (hclosed : ∀ x p, d.Parent parent x p → x.offset ∈ reachable → p.offset ∈ reachable) :
    d.kept reachable = [] := by
  induction d generalizing parent with
  | null => rfl
  | entry die children siblings ihc ihs =>
    have hdie : die.offset ∉ reachable := fun h => hparent (hclosed die parent (.inl ⟨rfl, rfl⟩) h)
    have hchildren := ihc hdie fun x p hp => hclosed x p (.inr (.inl hp))
    have hsiblings := ihs hparent fun x p hp => hclosed x p (.inr (.inr hp))
    rw [Dies.kept] at hchildren hsiblings ⊢
    rw [Dies.entries, List.filter_cons_of_neg (by simpa using hdie), List.filter_append, hchildren, hsiblings]
    rfl

/-- **The DIEs of a chain**, of which those that are kept are copied. -/
theorem Dies.emit_holds (d : Dies) (hparents : ∀ x p, d.Parent parent x p → parents x p)
    (hclosed : ∀ x p, parents x p → x.offset ∈ t.reachable → p.offset ∈ t.reachable)
    (h : out.Holds t root parents done) (hid : (parent.offset, parentId) ∈ out.dieRefMap)
    (hr : d.emit t parentId enc out = .ok out') :
    out'.Holds t root parents (done ++ d.kept t.reachable) ∧ ∀ y ∈ out.dieRefMap, y ∈ out'.dieRefMap := by
  induction d generalizing parent parentId enc done out out' with
  | null =>
    cases hr
    rw [Dies.kept, Dies.entries, List.filter_nil, List.append_nil]
    exact ⟨h, fun y hy => hy⟩
  | entry die children siblings ihc ihs =>
    have hsiblings := fun x p hp => hparents x p (.inr (.inr hp))
    have hchildren := fun x p hp => hparents x p (.inr (.inl hp))
    rw [Dies.emit] at hr
    split at hr
    · next hmem =>
      obtain ⟨r, hdie, hr⟩ := Fallible.bind_eq_ok hr
      obtain ⟨below, hbelow, hr⟩ := Fallible.bind_eq_ok hr
      obtain ⟨-, -, -, -, -, -, hmap⟩ := Pass.emitDie_ok hdie
      have hcopied := h.emitDie (hparents die parent (.inl ⟨rfl, rfl⟩)) hid hdie
      have hkept : ∀ y ∈ out.dieRefMap, y ∈ r.2.2.dieRefMap := by
        rw [hmap]
        exact fun y hy => List.mem_append_left _ hy
      have hdieId : (die.offset, out.unit.length) ∈ r.2.2.dieRefMap := by
        rw [hmap]
        exact List.mem_append_right _ List.mem_cons_self
      obtain ⟨hbelow, hkept₁⟩ := ihc hchildren hcopied hdieId hbelow
      obtain ⟨hafter, hkept₂⟩ := ihs hsiblings hbelow (hkept₁ _ (hkept _ hid)) hr
      have hentries : (Dies.entry die children siblings).kept t.reachable =
          die :: (children.kept t.reachable ++ siblings.kept t.reachable) := by
        rw [Dies.kept, Dies.entries, List.filter_cons_of_pos (by simpa using hmem), List.filter_append]
        rfl
      rw [hentries]
      rw [List.append_assoc, List.append_assoc] at hafter
      exact ⟨hafter, fun y hy => hkept₂ y (hkept₁ y (hkept y hy))⟩
    · next hmem =>
      have hnone := children.kept_eq_nil hmem fun x p hp hx => hclosed x p (hchildren x p hp) hx
      have hentries : (Dies.entry die children siblings).kept t.reachable = siblings.kept t.reachable := by
        rw [Dies.kept] at hnone ⊢
        rw [Dies.entries, List.filter_cons_of_neg (by simpa using hmem), List.filter_append, hnone]
        rfl
      rw [hentries]
      exact ihs hsiblings h hid hr

/-- The unit with its root. -/
theorem cloneRoot_holds {u : DieUnit} (h : t.cloneRoot u.root = .ok out) : out.Holds t u.root u.Parent [] := by
  obtain ⟨-, -, h⟩ := Fallible.bind_eq_ok h
  split at h
  · obtain ⟨attributes, hattributes, h⟩ := Fallible.bind_eq_ok h
    cases h
    have hok : t.rootAttributes u.root = .ok attributes := by
      revert hattributes
      cases t.rootAttributes u.root with
      | error e => exact fun h => by cases h
      | ok a => exact fun h => by cases h; rfl
    refine ⟨rfl, List.pairwise_singleton _ _, rfl, ⟨attributes, hok, rfl⟩, .nil, fun id c hc hnot => ?_⟩
    cases id with
    | zero => exact absurd List.mem_cons_self hnot
    | succ id =>
      rw [List.getElem?_cons_succ] at hc
      have hmem := List.mem_of_getElem? hc
      simp only [internalTypes, List.mem_cons, List.not_mem_nil, or_false] at hmem
      rcases hmem with rfl | rfl | rfl | rfl | rfl | rfl <;> exact ⟨_, rfl⟩
  · cases h

theorem cloneUnit_ne_panic {u : DieUnit} : t.cloneUnit u ≠ .error .panic := by
  have hcall : ∀ {T : Type} (r : Except Err T), call r ≠ .error .panic := by
    intro T r h
    cases r <;> cases h
  intro h
  rw [cloneUnit_eq, Pass.emitUnit] at h
  cases hroot : t.cloneRoot u.root with
  | ok out =>
    rw [hroot] at h
    exact hcall _ h
  | error e =>
    rw [hroot] at h
    cases h
    rw [Pass.cloneRoot] at hroot
    cases hline : t.lineProgram u.root with
    | error e =>
      rw [hline] at hroot
      cases hroot
    | ok _ =>
      rw [hline] at hroot
      change (if u.root.tag = .compileUnit then _ else _) = _ at hroot
      split at hroot
      · cases hattributes : t.rootAttributes u.root with
        | error e =>
          rw [hattributes] at hroot
          cases hroot
        | ok _ =>
          rw [hattributes] at hroot
          cases hroot
      · cases hroot

theorem cloneUnit_holds {u : DieUnit}
    (hclosed : ∀ x p, u.Parent x p → x.offset ∈ t.reachable → p.offset ∈ t.reachable)
    (h : t.cloneUnit u = .ok out) : out.Holds t u.root u.Parent (u.children.kept t.reachable) := by
  rw [cloneUnit_eq] at h
  obtain ⟨rootOut, hroot, h⟩ := Fallible.bind_eq_ok h
  have hemit : u.children.emit t 0 ⟨none, none, none⟩ rootOut = .ok out := by
    cases hr : u.children.emit t 0 ⟨none, none, none⟩ rootOut with
    | error e =>
      rw [hr] at h
      cases h
    | ok out' =>
      rw [hr] at h
      cases h
      rfl
  have hholds := cloneRoot_holds hroot
  exact (u.children.emit_holds (fun _ _ hp => hp) hclosed hholds hholds.first_mem hemit).1

/-- **The restriction of the DIE trees.** What is reachable is the least set with the roots that is closed under
the recorded edges and under taking parents. The copy of a unit never fails an assertion; it has the unit's root
and of the other DIEs those that are reachable, in their order, each under the copy of its parent. The root is not
reachable only where no DIE of its unit is. -/
theorem cloneUnit_kept {Err A : Type} (canTranslate : Nat → Bool) (units : List DieUnit) (roots : List Nat) :
    (∃ fuel reachable,
      ({ buildDependencies canTranslate units with roots := roots }).getReachable fuel = some reachable) ∧
    ∀ fuel reachable,
      ({ buildDependencies canTranslate units with roots := roots }).getReachable fuel = some reachable →
      ((∀ r ∈ roots, r ∈ reachable) ∧
        Closed units (buildDependencies canTranslate units).edges (fun x => x ∈ reachable) ∧
        ∀ kept : Nat → Prop, (∀ r ∈ roots, kept r) →
          Closed units (buildDependencies canTranslate units).edges kept → ∀ x ∈ reachable, kept x) ∧
      ∀ (t : Pass Err A), t.reachable = reachable → ∀ u ∈ units,
        t.cloneUnit u ≠ .error .panic ∧
        (u.root.offset ∈ reachable ∨ u.children.kept reachable = []) ∧
        ∀ out, t.cloneUnit u = .ok out → out.Holds t u.root u.Parent (u.children.kept reachable) := by
  refine ⟨exists_getReachable _, fun fuel reachable h => ⟨getReachable_least h, fun t ht u hu => ?_⟩⟩
  have hclosed := (getReachable_least h).2.1.parents u hu
  subst ht
  refine ⟨cloneUnit_ne_panic, ?_, fun out => cloneUnit_holds hclosed⟩
  by_cases hroot : u.root.offset ∈ t.reachable
  · exact .inl hroot
  · exact .inr (u.children.kept_eq_nil hroot hclosed)

/-! ## A unit with a function -/

/-- A function with a parameter, which is a pointer to the first of two base types. -/
def codeUnit : DieUnit where
  root := ⟨11, .compileUnit, [], none, false, none⟩
  children := .entry ⟨20, .subprogram, [], some 7, true, none⟩
    (.entry ⟨25, .formalParameter, [40], none, false, none⟩ .null .null)
    (.entry ⟨40, .pointerType, [50], none, false, none⟩ .null
      (.entry ⟨50, .baseType, [], none, false, none⟩ .null
        (.entry ⟨60, .baseType, [], none, false, none⟩ .null .null)))

/-- What is reachable from the function. -/
def codeReachable : List Nat := [50, 40, 25, 11, 20]

/-- A pass in which the attributes of a DIE are its offset, and nothing fails. -/
def codePass : Pass Unit Nat where
  reachable := codeReachable
  memoryOffset := 0
  lineProgram _ := .ok ()
  subprogram _ := .ok (some 0)
  funcSourceRange _ := (7, 9)
  frameInfo _ := none
  scopeRanges _ := .ok []
  frameBase _ := .ok none
  baseTypeName _ := .ok "int"
  rootAttributes e := .ok e.offset
  attributes e _ _ _ := .ok e.offset

/-- The copy of the unit. -/
def codeOut : Out Nat where
  unit := [⟨none, .compileUnit, .cloned 11⟩] ++ internalTypes 0 ++
    [⟨some 0, .subprogram, .cloned 20⟩,
      ⟨some 7, .variable, .added [(.name, .string "__vmctx"), (.type, .entryRef 6),
        (.location, .vmctx none [(7, 9)])]⟩,
      ⟨some 7, .formalParameter, .cloned 25⟩,
      ⟨some 0, .structureType, .wrapper [(.name, .string "WebAssemblyPtrWrapper<int>"), (.byteSize, .data 4)]⟩,
      ⟨some 10, .templateTypeParameter, .added [(.name, .string "T"), (.type, .entryRef 1)]⟩,
      ⟨some 10, .member, .added [(.name, .string "__ptr"), (.type, .entryRef 1), (.dataMemberLocation, .data 0)]⟩,
      ⟨some 0, .baseType, .cloned 50⟩]
  dieRefMap := [(11, 0), (20, 7), (25, 9), (40, 10), (50, 13)]
  translated := [0]

/-- The function, its parameter and the type of the parameter are copied, the other base type is not. -/
theorem cloneUnit_kept_code :
    ({ buildDependencies (fun _ => true) [codeUnit] with roots := [20] }).getReachable 6 = some codeReachable ∧
      (codeUnit.children.kept codeReachable).map Entry.offset = [20, 25, 40, 50] ∧
      codeOut.Holds codePass codeUnit.root codeUnit.Parent (codeUnit.children.kept codeReachable) :=
  ⟨rfl, rfl, (((@cloneUnit_kept Unit Nat (fun _ => true) [codeUnit] [20]).2 6 codeReachable rfl).2 codePass rfl
    codeUnit List.mem_cons_self).2.2 codeOut rfl⟩

/-! ## A unit without code -/

/-- A unit with one DIE, for a base type. -/
def typesUnit : DieUnit where
  root := ⟨11, .compileUnit, [], none, false, none⟩
  children := .entry ⟨30, .baseType, [], none, false, none⟩ .null .null

/-- A pass in which nothing is kept, and nothing fails. -/
def typesPass : Pass Unit Unit where
  reachable := []
  memoryOffset := 0
  lineProgram _ := .ok ()
  subprogram _ := .ok none
  funcSourceRange _ := (0, 0)
  frameInfo _ := none
  scopeRanges _ := .ok []
  frameBase _ := .ok none
  baseTypeName _ := .ok "??"
  rootAttributes _ := .ok ()
  attributes _ _ _ _ := .ok ()

/-- The copy of the unit. -/
def typesOut : Out Unit := ⟨⟨none, .compileUnit, .cloned ()⟩ :: internalTypes 0, [(11, 0)], []⟩

/-- The root of a unit in which nothing is reachable is emitted. -/
theorem not_kept_types :
    (buildDependencies (fun _ => true) [typesUnit]).getReachable 1 = some typesPass.reachable ∧
      typesPass.cloneUnit typesUnit = .ok typesOut ∧
      typesOut.dieRefMap.map Prod.fst ≠
        (typesUnit.entries.filter fun x => decide (x.offset ∈ typesPass.reachable)).map Entry.offset :=
  ⟨rfl, rfl, by decide⟩

end Wasmtime.Debug.Units
