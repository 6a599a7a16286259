import Mathlib.Data.List.Forall2
import Wasmtime.Lightbeam.Microwasm

/-!
# The microwasm of a structured body

`MicrowasmConv` works on a flat operator stream with a stack of control frames. On a validated
body the stream it yields has a description by recursion over the structure of the body, which
the proofs about labels and about meaning use.

* `Code.emit` translates an instruction sequence: the operators, the control frames with the
  blocks that were branched to marked, the next identifier, and whether the end is unreachable.
* In validated code nothing is left to drop at a reachable `else` or `end` (`toDrop_results`),
  so `elseOps` and `closeOps` have no `Drop`.

Results:
* `skip_flatten`: in unreachable code the generator passes over a whole instruction sequence.
* `stream_code`: reading a valid sequence yields its translation.
* **`stream_conv`**: for every validated function the generator does not fail and yields
  `Func.microwasm`.
-/

namespace Wasmtime.Lightbeam

/-! ## The translation -/

/-- What the translation of a sequence leaves. -/
structure Emitted where
  ops : List OperatorFromWasm
  frames : List ControlFrame
  id : Nat
  unreachable : Bool
  deriving DecidableEq, Repr

def Emitted.prepend (ops : List OperatorFromWasm) (e : Emitted) : Emitted :=
  { e with ops := ops ++ e.ops }

/-- The frame of the function: what `nthBlock` returns beyond the last frame. -/
instance : Inhabited ControlFrame := ⟨⟨0, 0, [], .function⟩⟩

def nthBlock (frames : List ControlFrame) (d : Nat) : ControlFrame :=
  frames.getD d default

/-- The entry of a conditional branch or of a table. -/
def branchTo (frames : List ControlFrame) (stack : List SignlessType) (d : Nat) :
    BrTargetDrop WasmLabel :=
  ⟨(nthBlock frames d).brTarget, toDrop stack (nthBlock frames d)⟩

/-- The operators of an instruction that falls through; `height` is the stack's before it. -/
def Simple.emit (height : Nat) : Simple → List OperatorFromWasm
  | .nop => []
  | .drop => [.drop ⟨0, 0⟩]
  | .select => [.select]
  | .getLocal i => [.pick (height - 1 - i)]
  | .setLocal i => [.swap (height - 1 - i), .drop ⟨0, 0⟩]
  | .teeLocal i => [.pick 0, .swap (height - i), .drop ⟨0, 0⟩]
  | .plain p => [.plain p.toMicro]

def Simple.stackAfter (m : ModuleContext) (stack : List SignlessType) :
    Simple → List SignlessType
  | .nop => stack
  | .drop => stack.tail
  | .select => stack.tail.tail
  | .getLocal i => (localType stack i).toList ++ stack
  | .setLocal _ => stack.tail
  | .teeLocal _ => stack
  | .plain p => (p.sig m).2.toList ++ stack.drop (p.sig m).1.length

/-- `br` and `return`: the surplus is dropped first. -/
def jumpTo (stack : List SignlessType) (block : ControlFrame) : List OperatorFromWasm :=
  dropOps (toDrop stack block) ++ [.br block.brTarget]

def Jump.emit (frames : List ControlFrame) (stack : List SignlessType) :
    Jump → List OperatorFromWasm
  | .unreachable => [.unreachable]
  | .br d => jumpTo stack (nthBlock frames d)
  | .brTable ts d => [.brTable (ts.map (branchTo frames stack.tail)) (branchTo frames stack.tail d)]
  | .return_ => jumpTo stack (frames.getLastD default)

/-- The blocks an unconditional branch marks. -/
def Jump.marks : Jump → List Nat
  | .unreachable => []
  | .br d => [d]
  | .brTable ts d => ts ++ [d]
  | .return_ => []

/-- The operators of an `else`. -/
def elseOps (id : Nat) (unreachable : Bool) : List OperatorFromWasm :=
  (if unreachable then [] else [.br (.label (id, .end_))]) ++ [.label (id, .else_)]

/-- The operators of the `end` of a block, a loop or an `if`. -/
def closeOps (block : ControlFrame) (unreachable : Bool) : List OperatorFromWasm :=
  if block.kind = .if_ false then
    elseOps block.id unreachable ++ [.br (.label (block.id, .end_)), .label (block.id, .end_)]
  else if unreachable then
    [.label (block.id, .end_)]
  else if block.needsEndLabel then
    [.br (.label (block.id, .end_)), .label (block.id, .end_)]
  else
    []

/-- The `end` that closes what a body has emitted. -/
def Emitted.close (e : Emitted) : List OperatorFromWasm :=
  closeOps (nthBlock e.frames 0) e.unreachable

/-- The frames after the `else` of the innermost one. -/
def Emitted.framesElse (e : Emitted) : List ControlFrame :=
  (nthBlock e.frames 0).setHasElse :: e.frames.tail

/-- The microwasm of a sequence, from the control frames, the next identifier and the stack
before it. -/
def Code.emit (m : ModuleContext) :
    Code → List ControlFrame → Nat → List SignlessType → Emitted
  | .nil, frames, id, _ => ⟨[], frames, id, false⟩
  | .simple i rest, frames, id, stack =>
      (rest.emit m frames id (i.stackAfter m stack)).prepend (i.emit stack.length)
  | .jump j _, frames, id, stack =>
      ⟨j.emit frames stack, j.marks.foldl Conv.markNth frames, id, true⟩
  | .brIf d rest, frames, id, stack =>
      (rest.emit m (Conv.markNth frames d) (id + 1) stack.tail).prepend
        [.callOnce stack.tail (id, .header),
          .brIf (branchTo frames stack.tail d) (BrTarget.label (id, .header)).keep,
          .label (id, .header)]
  | .block ty body rest, frames, id, stack =>
      let b := body.emit m (⟨id, stack.length, ty.toList, .block false⟩ :: frames) (id + 1) stack
      (rest.emit m b.frames.tail b.id (ty.toList ++ stack)).prepend
        (.endBlock (ty.toList ++ stack) (id, .end_) :: (b.ops ++ b.close))
  | .loop ty body rest, frames, id, stack =>
      let b := body.emit m (⟨id, stack.length, ty.toList, .loop⟩ :: frames) (id + 1) stack
      (rest.emit m b.frames.tail b.id (ty.toList ++ stack)).prepend
        ([.loopHeader stack (id, .header), .endBlock (ty.toList ++ stack) (id, .end_),
          .br (.label (id, .header)), .label (id, .header)] ++ (b.ops ++ b.close))
  | .ifThen ty then_ rest, frames, id, stack =>
      let b := then_.emit m (⟨id, stack.tail.length, ty.toList, .if_ false⟩ :: frames) (id + 1)
        stack.tail
      (rest.emit m b.frames.tail b.id (ty.toList ++ stack.tail)).prepend
        ([.callOnce stack.tail (id, .header), .callOnce stack.tail (id, .else_),
          .endBlock (ty.toList ++ stack.tail) (id, .end_),
          .brIf (BrTarget.label (id, .header)).keep (BrTarget.label (id, .else_)).keep,
          .label (id, .header)] ++ (b.ops ++ b.close))
  | .ifElse ty then_ else_ rest, frames, id, stack =>
      let b := then_.emit m (⟨id, stack.tail.length, ty.toList, .if_ false⟩ :: frames) (id + 1)
        stack.tail
      let c := else_.emit m b.framesElse b.id stack.tail
      (rest.emit m c.frames.tail c.id (ty.toList ++ stack.tail)).prepend
        ([.callOnce stack.tail (id, .header), .callOnce stack.tail (id, .else_),
          .endBlock (ty.toList ++ stack.tail) (id, .end_),
          .brIf (BrTarget.label (id, .header)).keep (BrTarget.label (id, .else_)).keep,
          .label (id, .header)] ++ (b.ops ++ elseOps id b.unreachable ++ (c.ops ++ c.close)))

/-- The frame of a function. -/
def Func.frame (f : Func) : ControlFrame :=
  ⟨0, f.localTypes.length, f.type.returns.toList, .function⟩

/-- The translation of the body. -/
def Func.emit (m : ModuleContext) (f : Func) : Emitted :=
  f.body.emit m [f.frame] 1 f.localTypes.reverse

/-- The constants that initialise the declared locals. -/
def Func.consts (f : Func) : List OperatorFromWasm :=
  f.declared.map fun ty => .plain (.const (.defaultForType ty))

/-- The microwasm of a function. -/
def Func.microwasm (m : ModuleContext) (f : Func) : List OperatorFromWasm :=
  f.consts ++ ((f.emit m).ops ++ if (f.emit m).unreachable then [] else [.br .ret])

/-! ## Operand stacks in reachable code -/

namespace Opds

theorem pop_live {t : SignlessType} {vs : List SignlessType} {o : Opds}
    (h : (live vs).pop t = some o) : ∃ ws, vs = t :: ws ∧ o = live ws := by
  cases vs with
  | nil => cases h
  | cons t' ws =>
    simp only [pop] at h
    split at h
    · next ht =>
      cases h
      exact ⟨ws, by rw [ht], rfl⟩
    · cases h

theorem popAny_live {t : Option SignlessType} {vs : List SignlessType} {o : Opds}
    (h : (live vs).popAny = some (t, o)) : ∃ t' ws, t = some t' ∧ vs = t' :: ws ∧ o = live ws := by
  cases vs with
  | nil => cases h
  | cons t' ws =>
    cases h
    exact ⟨t', ws, rfl, rfl, rfl⟩

theorem popAll_live {ts vs : List SignlessType} {o : Opds}
    (h : (live vs).popAll ts = some o) : ∃ ws, vs = ts ++ ws ∧ o = live ws := by
  induction ts generalizing vs with
  | nil =>
    cases h
    exact ⟨vs, rfl, rfl⟩
  | cons t ts ih =>
    obtain ⟨o', ho', h⟩ := Option.bind_eq_some_iff.mp h
    obtain ⟨ws, rfl, rfl⟩ := pop_live ho'
    obtain ⟨ws', rfl, rfl⟩ := ih h
    exact ⟨ws', rfl, rfl⟩

theorem popOpt_live {t : Option SignlessType} {vs : List SignlessType} {o : Opds}
    (h : (live vs).popOpt t = some o) : ∃ ws, vs = t.toList ++ ws ∧ o = live ws :=
  popAll_live h

@[simp]
theorem pushOpt_live (t : Option SignlessType) (vs : List SignlessType) :
    (live vs).pushOpt t = live (t.toList ++ vs) := by
  cases t <;> rfl

theorem closes_live {ty : BlockType} {vs : List SignlessType} (h : (live vs).closes ty = true) :
    vs = ty.toList := by
  unfold closes at h
  cases hp : (live vs).popOpt ty with
  | none => simp [hp] at h
  | some o =>
    obtain ⟨ws, rfl, rfl⟩ := popOpt_live hp
    simp [hp] at h
    simp [h]

theorem join_some {t t' : SignlessType} {r : Option SignlessType}
    (h : join (some t) (some t') = some r) : t = t' ∧ r = some t := by
  simp only [join] at h
  split at h
  · next ht =>
    cases h
    exact ⟨ht, rfl⟩
  · cases h

end Opds

theorem popInputs_concrete (ts stack : List SignlessType) :
    popInputs (ts.map .concrete) none (ts ++ stack) = some (none, stack) := by
  induction ts with
  | nil => simp [popInputs]
  | cons t ts ih => simpa [popInputs] using ih

/-- Applying a signature without a type variable. -/
theorem applyOp_concrete (ts stack : List SignlessType) (t : Option SignlessType) :
    applyOp (.concrete ts t.toList) (ts.reverse ++ stack) = some (t.toList ++ stack) := by
  have h := popInputs_concrete ts.reverse stack
  rw [List.map_reverse] at h
  simp only [applyOp, OpSig.concrete, h, Option.bind_some]
  cases t <;> rfl

/-- The condition of a branch or the index of a table. -/
theorem applyOp_i32 (stack : List SignlessType) :
    applyOp (.concrete [I32] []) (I32 :: stack) = some stack :=
  applyOp_concrete [I32] stack none

/-- A local lies below the operands. -/
theorem localType_append (seg up : List SignlessType) {locals : List SignlessType} {i : Nat}
    {t : SignlessType} (h : locals[i]? = some t) :
    localType (seg ++ (up ++ locals.reverse)) i = some t := by
  obtain ⟨hi, ht⟩ := List.getElem?_eq_some_iff.mp h
  simp [localType, List.getElem?_append_left, hi, ht]

/-! ## The generator inside a body -/

/-- The generator while it reads a body. -/
def inBody (internal : List WasmOperator) (frames : List ControlFrame) (id : Nat)
    (stack : List SignlessType) (unreachable : Bool) : Conv where
  isDone := false
  constsToEmit := none
  stack := stack
  internal := internal
  currentId := id
  controlFrames := frames
  unreachable := unreachable

/-- An operator whose signature applies is translated on the stack after it. -/
theorem next_inBody {m : ModuleContext} {op : WasmOperator} {l : List WasmOperator}
    {frames : List ControlFrame} {id : Nat} {stack : List SignlessType} (sig : OpSig)
    (stack' : List SignlessType)
    (hs : (inBody (op :: l) frames id stack false).opSig m op = some sig)
    (ha : applyOp sig stack = some stack') :
    (inBody (op :: l) frames id stack false).next m =
      (inBody l frames id stack' false).operator op := by
  have happly : (((inBody (op :: l) frames id stack false).opSig m op).bind fun sig =>
      applyOp sig (inBody (op :: l) frames id stack false).stack) = some stack' := by
    rw [hs]
    exact ha
  change (inBody (op :: l) frames id stack false).readOp m op l = _
  unfold Conv.readOp
  rw [happly]
  rfl

/-- The stack height in the form the depths are computed in. -/
theorem inBody_localDepth (l : List WasmOperator) (frames : List ControlFrame) (id : Nat)
    (stack : List SignlessType) (u : Bool) (i : Nat) :
    (inBody l frames id stack u).localDepth i = (stack.length : Int) - 1 - i := rfl

/-- **An instruction that falls through** yields its translation and leaves the operands that
validation computes. -/
theorem Simple.next_eq {Γ : Context} {i : Simple} {seg : List SignlessType} {o : Opds}
    (up : List SignlessType) (h : i.check Γ (.live seg) = some o) :
    ∃ seg', o = .live seg' ∧
      i.stackAfter Γ.module (seg ++ (up ++ Γ.locals.reverse)) =
        seg' ++ (up ++ Γ.locals.reverse) ∧
      ∀ (l : List WasmOperator) (frames : List ControlFrame) (id : Nat),
        (inBody (i.op :: l) frames id (seg ++ (up ++ Γ.locals.reverse)) false).next Γ.module =
          .ops (i.emit (seg ++ (up ++ Γ.locals.reverse)).length)
            (inBody l frames id (seg' ++ (up ++ Γ.locals.reverse)) false) := by
  cases i with
  | nop =>
    cases h
    exact ⟨seg, rfl, rfl, fun l frames id => rfl⟩
  | drop =>
    obtain ⟨⟨t, o'⟩, ho, rfl⟩ := Option.map_eq_some_iff.mp h
    obtain ⟨t', ws, rfl, rfl, rfl⟩ := Opds.popAny_live ho
    exact ⟨ws, rfl, rfl, fun l frames id => next_inBody _ _ rfl rfl⟩
  | select =>
    obtain ⟨o₁, h₁, h⟩ := Option.bind_eq_some_iff.mp h
    obtain ⟨ws, rfl, rfl⟩ := Opds.pop_live h₁
    obtain ⟨⟨t₂, o₂⟩, h₂, h⟩ := Option.bind_eq_some_iff.mp h
    obtain ⟨a, ws', rfl, rfl, rfl⟩ := Opds.popAny_live h₂
    obtain ⟨⟨t₃, o₃⟩, h₃, h⟩ := Option.bind_eq_some_iff.mp h
    obtain ⟨b, ws'', rfl, rfl, rfl⟩ := Opds.popAny_live h₃
    obtain ⟨t, ht, h⟩ := Option.bind_eq_some_iff.mp h
    obtain ⟨rfl, rfl⟩ := Opds.join_some ht
    cases h
    refine ⟨a :: ws'', rfl, rfl, fun l frames id => next_inBody _ _ rfl ?_⟩
    simp [applyOp, popInputs, pushOutputs]
  | getLocal i =>
    obtain ⟨t, ht, h⟩ := Option.bind_eq_some_iff.mp h
    cases h
    have hl := localType_append seg up ht
    obtain ⟨hi, -⟩ := List.getElem?_eq_some_iff.mp ht
    refine ⟨t :: seg, rfl, by simp [Simple.stackAfter, hl], fun l frames id => ?_⟩
    rw [Simple.op, next_inBody (.concrete [] [t])
      (t :: (seg ++ (up ++ Γ.locals.reverse)))]
    · have hd : (inBody l frames id (t :: (seg ++ (up ++ Γ.locals.reverse))) false).localDepth i - 1
          = Int.ofNat ((seg ++ (up ++ Γ.locals.reverse)).length - 1 - i) := by
        rw [inBody_localDepth]
        simp only [List.length_cons, List.length_append, List.length_reverse, Int.ofNat_eq_natCast]
        omega
      simp only [Conv.operator, hd]
      rfl
    · simp [Conv.opSig, inBody, hl]
    · exact applyOp_concrete [] _ (some t)
  | setLocal i =>
    obtain ⟨t, ht, h⟩ := Option.bind_eq_some_iff.mp h
    obtain ⟨ws, rfl, rfl⟩ := Opds.pop_live h
    have hl := localType_append (t :: ws) up ht
    obtain ⟨hi, -⟩ := List.getElem?_eq_some_iff.mp ht
    refine ⟨ws, rfl, rfl, fun l frames id => ?_⟩
    rw [Simple.op, next_inBody (.concrete [t] [])
      (ws ++ (up ++ Γ.locals.reverse))]
    · have hd : (inBody l frames id (ws ++ (up ++ Γ.locals.reverse)) false).localDepth i + 1
          = Int.ofNat ((t :: ws ++ (up ++ Γ.locals.reverse)).length - 1 - i) := by
        rw [inBody_localDepth]
        simp only [List.length_cons, List.length_append, List.length_reverse, Int.ofNat_eq_natCast]
        omega
      simp only [Conv.operator, hd]
      rfl
    · simp only [Conv.opSig, inBody, hl, Option.map_some]
    · exact applyOp_concrete [t] _ none
  | teeLocal i =>
    obtain ⟨t, ht, h⟩ := Option.bind_eq_some_iff.mp h
    obtain ⟨o', h', h⟩ := Option.bind_eq_some_iff.mp h
    obtain ⟨ws, rfl, rfl⟩ := Opds.pop_live h'
    cases h
    have hl := localType_append (t :: ws) up ht
    obtain ⟨hi, -⟩ := List.getElem?_eq_some_iff.mp ht
    refine ⟨t :: ws, rfl, rfl, fun l frames id => ?_⟩
    rw [Simple.op, next_inBody (.concrete [t] [t])
      (t :: ws ++ (up ++ Γ.locals.reverse))]
    · have hd : (inBody l frames id (t :: ws ++ (up ++ Γ.locals.reverse)) false).localDepth i + 1
          = Int.ofNat ((t :: ws ++ (up ++ Γ.locals.reverse)).length - i) := by
        rw [inBody_localDepth]
        simp only [List.length_cons, List.length_append, List.length_reverse, Int.ofNat_eq_natCast]
        omega
      simp only [Conv.operator, hd]
      rfl
    · simp only [Conv.opSig, inBody, hl, Option.map_some]
    · exact applyOp_concrete [t] _ (some t)
  | plain p =>
    obtain ⟨o', h', h⟩ := Option.bind_eq_some_iff.mp h
    obtain ⟨ws, rfl, rfl⟩ := Opds.popAll_live h'
    cases h
    refine ⟨(p.sig Γ.module).2.toList ++ ws, by simp, ?_, fun l frames id => ?_⟩
    · simp [Simple.stackAfter]
    · rw [Simple.op, next_inBody (p.opSig Γ.module)
      ((p.sig Γ.module).2.toList ++ ws ++ (up ++ Γ.locals.reverse)) rfl]
      · rfl
      · rw [p.opSig_eq, List.append_assoc, applyOp_concrete, List.append_assoc]

/-! ## Marked frames -/

namespace ControlFrame

/-- `g` is `f`, perhaps marked as branched to. -/
def Marks (f g : ControlFrame) : Prop :=
  g = f ∨ g = f.markBranchedTo

theorem Marks.refl (f : ControlFrame) : f.Marks f := .inl rfl

@[simp]
theorem markBranchedTo_idem (f : ControlFrame) :
    f.markBranchedTo.markBranchedTo = f.markBranchedTo := by
  rcases f with ⟨id, a, r, _ | _ | _ | _⟩ <;> rfl

theorem Marks.trans {f g h : ControlFrame} (hfg : f.Marks g) (hgh : g.Marks h) : f.Marks h := by
  rcases hfg with rfl | rfl
  · exact hgh
  · rcases hgh with rfl | rfl
    · exact .inr rfl
    · exact .inr (markBranchedTo_idem f)

theorem Marks.eq_of_not_block {f g : ControlFrame} (h : f.Marks g)
    (hf : ∀ b, f.kind ≠ .block b) : g = f := by
  rcases h with rfl | rfl
  · rfl
  · rcases f with ⟨id, a, r, b | _ | _ | _⟩
    · exact absurd rfl (hf b)
    · rfl
    · rfl
    · rfl

@[simp]
theorem markBranchedTo_id (f : ControlFrame) : f.markBranchedTo.id = f.id := by
  rcases f with ⟨id, a, r, _ | _ | _ | _⟩ <;> rfl

@[simp]
theorem markBranchedTo_arguments (f : ControlFrame) :
    f.markBranchedTo.arguments = f.arguments := by
  rcases f with ⟨id, a, r, _ | _ | _ | _⟩ <;> rfl

@[simp]
theorem markBranchedTo_returns (f : ControlFrame) : f.markBranchedTo.returns = f.returns := by
  rcases f with ⟨id, a, r, _ | _ | _ | _⟩ <;> rfl

@[simp]
theorem markBranchedTo_brTarget (f : ControlFrame) :
    f.markBranchedTo.brTarget = f.brTarget := by
  rcases f with ⟨id, a, r, _ | _ | _ | _⟩ <;> rfl

@[simp]
theorem setHasElse_id (f : ControlFrame) : f.setHasElse.id = f.id := by
  rcases f with ⟨id, a, r, _ | _ | _ | _⟩ <;> rfl

@[simp]
theorem setHasElse_arguments (f : ControlFrame) : f.setHasElse.arguments = f.arguments := by
  rcases f with ⟨id, a, r, _ | _ | _ | _⟩ <;> rfl

@[simp]
theorem setHasElse_returns (f : ControlFrame) : f.setHasElse.returns = f.returns := by
  rcases f with ⟨id, a, r, _ | _ | _ | _⟩ <;> rfl

theorem Marks.id {f g : ControlFrame} (h : f.Marks g) : g.id = f.id := by
  rcases h with rfl | rfl <;> simp

theorem Marks.arguments {f g : ControlFrame} (h : f.Marks g) : g.arguments = f.arguments := by
  rcases h with rfl | rfl <;> simp

theorem Marks.returns {f g : ControlFrame} (h : f.Marks g) : g.returns = f.returns := by
  rcases h with rfl | rfl <;> simp

theorem Marks.brTarget {f g : ControlFrame} (h : f.Marks g) : g.brTarget = f.brTarget := by
  rcases h with rfl | rfl <;> simp

end ControlFrame

open ControlFrame (Marks)

/-- Frame lists that differ in marks only. -/
abbrev FramesMark := List.Forall₂ Marks

theorem framesMark_refl (fs : List ControlFrame) : FramesMark fs fs :=
  List.forall₂_same.mpr fun f _ => Marks.refl f

theorem FramesMark.trans {fs gs hs : List ControlFrame} (h₁ : FramesMark fs gs)
    (h₂ : FramesMark gs hs) : FramesMark fs hs := by
  induction h₁ generalizing hs with
  | nil => exact h₂
  | cons h _ ih =>
    cases h₂ with
    | cons h' t' => exact .cons (h.trans h') (ih t')

theorem framesMark_markNth (fs : List ControlFrame) (d : Nat) :
    FramesMark fs (Conv.markNth fs d) := by
  induction fs generalizing d with
  | nil => simp [Conv.markNth]
  | cons f fs ih =>
    cases d with
    | zero => exact .cons (.inr rfl) (framesMark_refl fs)
    | succ d => exact .cons (Marks.refl f) (ih d)

theorem framesMark_foldl (ds : List Nat) (fs : List ControlFrame) :
    FramesMark fs (ds.foldl Conv.markNth fs) := by
  induction ds generalizing fs with
  | nil => exact framesMark_refl fs
  | cons d ds ih => exact (framesMark_markNth fs d).trans (ih _)

theorem FramesMark.of_cons {f : ControlFrame} {fs gs : List ControlFrame}
    (h : FramesMark (f :: fs) gs) :
    gs = nthBlock gs 0 :: gs.tail ∧ Marks f (nthBlock gs 0) ∧ FramesMark fs gs.tail := by
  cases h with
  | cons h t => exact ⟨rfl, h, t⟩

/-- **The frames below a sequence** come out of it with more marks and nothing else changed. -/
theorem Code.emit_frames (m : ModuleContext) (c : Code) (fs : List ControlFrame) (id : Nat)
    (stack : List SignlessType) : FramesMark fs (c.emit m fs id stack).frames := by
  induction c generalizing fs id stack with
  | nil => exact framesMark_refl fs
  | simple i rest ih => exact ih _ _ _
  | jump j rest _ => exact framesMark_foldl _ _
  | brIf d rest ih => exact (framesMark_markNth fs d).trans (ih _ _ _)
  | block ty body rest ihb ihr => exact (ihb _ _ _).of_cons.2.2.trans (ihr _ _ _)
  | loop ty body rest ihb ihr => exact (ihb _ _ _).of_cons.2.2.trans (ihr _ _ _)
  | ifThen ty then_ rest ihb ihr => exact (ihb _ _ _).of_cons.2.2.trans (ihr _ _ _)
  | ifElse ty then_ else_ rest ihb ihc ihr =>
    exact ((ihb _ _ _).of_cons.2.2.trans (ihc _ _ _).of_cons.2.2).trans (ihr _ _ _)

/-! ## Unconditional branches -/

theorem getElem?_nthBlock {fs : List ControlFrame} {d : Nat} (h : d < fs.length) :
    fs[d]? = some (nthBlock fs d) := by
  simp [nthBlock, h]

theorem branch_inBody {l : List WasmOperator} {fs : List ControlFrame} {id d : Nat}
    {stack : List SignlessType} {u : Bool} (h : d < fs.length) :
    (inBody l fs id stack u).branch d = some (branchTo fs stack d) := by
  unfold Conv.branch
  rw [show (inBody l fs id stack u).controlFrames = fs from rfl, getElem?_nthBlock h]
  rfl

theorem mapM_some {α β : Type} {f : α → Option β} {g : α → β} {l : List α}
    (h : ∀ a ∈ l, f a = some (g a)) : l.mapM f = some (l.map g) := by
  induction l with
  | nil => rfl
  | cons a l ih =>
    rw [List.mapM_cons, h a (by simp), ih fun b hb => h b (by simp [hb])]
    rfl

/-- **An unconditional branch** yields its translation, marks its targets and makes what follows
unreachable. -/
theorem Jump.next_eq {Γ : Context} {j : Jump} {seg : List SignlessType}
    {fs : List ControlFrame} (base : List SignlessType) (h : j.check Γ (.live seg) = true)
    (hl : Γ.labels.length = fs.length) (hfs : fs ≠ []) :
    ∃ seg', ∀ (l : List WasmOperator) (id : Nat),
      (inBody (j.op :: l) fs id (seg ++ base) false).next Γ.module =
        .ops (j.emit fs (seg ++ base))
          (inBody l (j.marks.foldl Conv.markNth fs) id (seg' ++ base) true) := by
  cases j with
  | unreachable => exact ⟨seg, fun l id => rfl⟩
  | br d =>
    obtain ⟨ty, hd, -⟩ := (Option.any_eq_true _ _).mp h
    obtain ⟨hd, -⟩ := List.getElem?_eq_some_iff.mp hd
    refine ⟨seg, fun l id => ?_⟩
    rw [Jump.op, next_inBody .none (seg ++ base) rfl rfl]
    simp only [Conv.operator]
    rw [show (inBody l fs id (seg ++ base) false).controlFrames = fs from rfl,
      getElem?_nthBlock (hl ▸ hd)]
    rfl
  | brTable ts d =>
    simp only [Jump.check] at h
    split at h
    · next o ty ho hd =>
      obtain ⟨ws, rfl, rfl⟩ := Opds.pop_live ho
      obtain ⟨hd, -⟩ := List.getElem?_eq_some_iff.mp hd
      obtain ⟨-, hts⟩ := Bool.and_eq_true_iff.mp h
      have hlt : ∀ t ∈ ts, t < fs.length := by
        intro t ht
        have ht := eq_of_beq (List.all_eq_true.mp hts t ht)
        exact hl ▸ (List.getElem?_eq_some_iff.mp ht).1
      refine ⟨ws, fun l id => ?_⟩
      rw [Jump.op, List.cons_append,
        next_inBody (.concrete [I32] []) (ws ++ base) rfl (applyOp_i32 _)]
      simp only [Conv.operator]
      rw [branch_inBody (hl ▸ hd), mapM_some fun t ht => branch_inBody (hlt t ht)]
      rfl
    · cases h
  | return_ =>
    refine ⟨seg, fun l id => ?_⟩
    rw [Jump.op, next_inBody .none (seg ++ base) rfl rfl]
    simp only [Conv.operator]
    rw [show (inBody l fs id (seg ++ base) false).controlFrames = fs from rfl,
      List.getLast?_eq_some_getLast hfs]
    simp only [Jump.emit, Jump.marks, List.foldl_nil, List.getLastD_eq_getLast?,
      List.getLast?_eq_some_getLast hfs, Option.getD_some]
    rfl

/-! ## Unreachable code -/

theorem skip_congr (s : Conv) (x : List WasmOperator) (depth : Nat) (l : List WasmOperator) :
    ({ s with internal := x } : Conv).skip depth l = s.skip depth l := by
  fun_induction Conv.skip s depth l <;> simp_all [Conv.skip] <;> rfl

/-- **A whole sequence is passed over**, whatever it contains. -/
theorem skip_flatten (s : Conv) (c : Code) (depth : Nat) (tail : List WasmOperator) :
    s.skip depth (c.flatten ++ tail) = s.skip depth tail := by
  induction c generalizing depth tail with
  | nil => rfl
  | simple i rest ih =>
    rw [← ih depth tail]
    cases i <;> simp [Code.flatten, Simple.op, Conv.skip]
  | jump j rest ih =>
    rw [← ih depth tail]
    cases j <;> simp [Code.flatten, Jump.op, Conv.skip]
  | brIf d rest ih =>
    rw [← ih depth tail]
    simp [Code.flatten, Conv.skip]
  | block ty body rest ihb ihr => simp [Code.flatten, Conv.skip, ihb, ihr]
  | loop ty body rest ihb ihr => simp [Code.flatten, Conv.skip, ihb, ihr]
  | ifThen ty then_ rest ihb ihr => simp [Code.flatten, Conv.skip, ihb, ihr]
  | ifElse ty then_ else_ rest ihb ihc ihr => simp [Code.flatten, Conv.skip, ihb, ihc, ihr]

theorem stream_unreachable (m : ModuleContext) (c : Code) (tail : List WasmOperator)
    (fs : List ControlFrame) (id : Nat) (stack : List SignlessType) :
    (inBody (c.flatten ++ tail) fs id stack true).stream m =
      (inBody tail fs id stack true).stream m := by
  have h : (inBody (c.flatten ++ tail) fs id stack true).next m =
      (inBody tail fs id stack true).next m := by
    change (inBody (c.flatten ++ tail) fs id stack true).skip 0 (c.flatten ++ tail) =
      (inBody tail fs id stack true).skip 0 tail
    rw [skip_flatten]
    exact skip_congr (inBody tail fs id stack true) (c.flatten ++ tail) 0 tail
  rw [Conv.stream_eq, Conv.stream_eq, h]

/-! ## The ends of blocks -/

theorem truncate_append {α : Type} (seg base : List α) :
    truncate base.length (seg ++ base) = base := by
  simp [truncate]

/-- Where there is no more than a block's results there is nothing to drop. -/
theorem toDrop_results {block : ControlFrame} {stack : List SignlessType}
    (h : stack.length ≤ block.returns.length + block.arguments) : toDrop stack block = none := by
  unfold toDrop checkedSub
  by_cases h₁ : 1 ≤ stack.length
  · by_cases h₂ : block.arguments ≤ stack.length - 1
    · have h₃ : ¬ block.returns.length ≤ stack.length - 1 - block.arguments := by omega
      simp [h₁, h₂, h₃]
    · simp [h₁, h₂]
  · simp [h₁]

variable {m : ModuleContext} {block : ControlFrame} {frames : List ControlFrame} {id : Nat}
  {ty : BlockType} {seg base : List SignlessType} {u : Bool} {l : List WasmOperator}

/-- The `end` of a block inside the function. -/
theorem next_end (hne : frames ≠ []) (ha : block.arguments = base.length)
    (hr : block.returns = ty.toList) (hk : u = false → seg = ty.toList) :
    (inBody (.end_ :: l) (block :: frames) id (seg ++ base) u).next m =
      .ops (closeOps block u) (inBody l frames id (ty.toList ++ base) false) := by
  have hrev : ty.toList.reverse = ty.toList := by cases ty <;> rfl
  have ht : truncate block.arguments (seg ++ base) = base := ha ▸ truncate_append seg base
  obtain ⟨f, fs, rfl⟩ := List.exists_cons_of_ne_nil hne
  cases u with
  | true =>
    change (inBody (.end_ :: l) (block :: f :: fs) id (seg ++ base) true).skip 0 (.end_ :: l) = _
    simp only [Conv.skip, inBody, ht, hr, hrev, closeOps, elseOps]
    split <;> rfl
  | false =>
    obtain rfl := hk rfl
    have hd : toDrop (ty.toList ++ base) block = none :=
      toDrop_results (by simp [hr, ha])
    rw [next_inBody .none (ty.toList ++ base) rfl rfl]
    simp only [Conv.operator, Conv.endOp, inBody, ht, hr, hrev, hd, closeOps, elseOps]
    split
    · rfl
    · simp only [List.isEmpty_cons, Bool.false_eq_true, if_false]
      split <;> rfl

/-- The `else` of an `if`. -/
theorem next_else (ha : block.arguments = base.length)
    (hr : block.returns = ty.toList) (hk : u = false → seg = ty.toList) :
    (inBody (.else_ :: l) (block :: frames) id (seg ++ base) u).next m =
      .ops (elseOps block.id u) (inBody l (block.setHasElse :: frames) id base false) := by
  have ht : truncate block.arguments (seg ++ base) = base := ha ▸ truncate_append seg base
  cases u with
  | true =>
    change (inBody (.else_ :: l) (block :: frames) id (seg ++ base) true).skip 0 (.else_ :: l) = _
    simp only [Conv.skip, inBody, ht]
    rfl
  | false =>
    obtain rfl := hk rfl
    have hd : toDrop (ty.toList ++ base) block = none :=
      toDrop_results (by simp [hr, ha])
    rw [next_inBody .none (ty.toList ++ base) rfl rfl]
    simp only [Conv.operator, Conv.elseOp, inBody, ht, hd]
    rfl

/-! ## The stream of a body -/

/-- From `s` the generator yields `ops` and goes on as from `s'`. -/
def Conv.Yields (m : ModuleContext) (s : Conv) (ops : List OperatorFromWasm) (s' : Conv) : Prop :=
  s.stream m = (s'.stream m).map (ops ++ ·)

theorem Conv.Yields.of_next {s s' : Conv} {ops : List OperatorFromWasm}
    (h : s.next m = .ops ops s') : s.Yields m ops s' :=
  Conv.stream_ops m h

theorem Conv.Yields.trans {s s' s'' : Conv} {a b : List OperatorFromWasm}
    (h₁ : s.Yields m a s') (h₂ : s'.Yields m b s'') : s.Yields m (a ++ b) s'' := by
  unfold Conv.Yields at *
  rw [h₁, h₂, Option.map_map]
  congr 1
  funext x
  simp

theorem yields_block (ty : BlockType) (l : List WasmOperator) (fs : List ControlFrame) (id : Nat)
    (stack : List SignlessType) :
    (inBody (.block ty :: l) fs id stack false).Yields m
      [.endBlock (ty.toList ++ stack) (id, .end_)]
      (inBody l (⟨id, stack.length, ty.toList, .block false⟩ :: fs) (id + 1) stack false) :=
  .of_next (next_inBody .none _ rfl rfl)

theorem yields_loop (ty : BlockType) (l : List WasmOperator) (fs : List ControlFrame) (id : Nat)
    (stack : List SignlessType) :
    (inBody (.loop ty :: l) fs id stack false).Yields m
      [.loopHeader stack (id, .header), .endBlock (ty.toList ++ stack) (id, .end_),
        .br (.label (id, .header)), .label (id, .header)]
      (inBody l (⟨id, stack.length, ty.toList, .loop⟩ :: fs) (id + 1) stack false) :=
  .of_next (next_inBody .none _ rfl rfl)

theorem yields_if (ty : BlockType) (l : List WasmOperator) (fs : List ControlFrame) (id : Nat)
    (stack : List SignlessType) :
    (inBody (.if_ ty :: l) fs id (I32 :: stack) false).Yields m
      [.callOnce stack (id, .header), .callOnce stack (id, .else_),
        .endBlock (ty.toList ++ stack) (id, .end_),
        .brIf (BrTarget.label (id, .header)).keep (BrTarget.label (id, .else_)).keep,
        .label (id, .header)]
      (inBody l (⟨id, stack.length, ty.toList, .if_ false⟩ :: fs) (id + 1) stack false) :=
  .of_next (next_inBody (.concrete [I32] []) _ rfl (applyOp_i32 _))

/-- The translation of a sequence is what the generator yields for it; the operands left are
those of validation where the end is reachable. -/
def Code.Read (c : Code) : Prop :=
  ∀ (Γ : Context) (seg up : List SignlessType) (o : Opds) (fs : List ControlFrame) (id : Nat)
    (tail : List WasmOperator),
    c.check Γ (.live seg) = some o → Γ.labels.length = fs.length → fs ≠ [] →
    ∃ seg', ((c.emit Γ.module fs id (seg ++ (up ++ Γ.locals.reverse))).unreachable = false →
        o = .live seg') ∧
      (inBody (c.flatten ++ tail) fs id (seg ++ (up ++ Γ.locals.reverse)) false).Yields Γ.module
        (c.emit Γ.module fs id (seg ++ (up ++ Γ.locals.reverse))).ops
        (inBody tail (c.emit Γ.module fs id (seg ++ (up ++ Γ.locals.reverse))).frames
          (c.emit Γ.module fs id (seg ++ (up ++ Γ.locals.reverse))).id
          (seg' ++ (up ++ Γ.locals.reverse))
          (c.emit Γ.module fs id (seg ++ (up ++ Γ.locals.reverse))).unreachable)

/-- The operands at the end of a valid body are its results. -/
theorem closes_of_live {o : Opds} (hc : o.closes ty = true)
    (h : u = false → o = .live seg) : u = false → seg = ty.toList := by
  intro hu
  rw [h hu] at hc
  exact Opds.closes_live hc

section Bodies

variable {Γ : Context} {label : BlockType} {body : Code} {o : Opds} {fs : List ControlFrame}

/-- A body and its `end`. -/
theorem Code.Read.closed (hb : body.Read) (f : ControlFrame) (up : List SignlessType)
    (h : body.check (Γ.enter label) (.live []) = some o) (hc : o.closes ty = true)
    (hl : Γ.labels.length = fs.length) (hfs : fs ≠ [])
    (hfa : f.arguments = (up ++ Γ.locals.reverse).length) (hfr : f.returns = ty.toList)
    (id : Nat) (l : List WasmOperator) :
    (inBody (body.flatten ++ .end_ :: l) (f :: fs) id (up ++ Γ.locals.reverse) false).Yields
      Γ.module
      ((body.emit Γ.module (f :: fs) id (up ++ Γ.locals.reverse)).ops ++
        (body.emit Γ.module (f :: fs) id (up ++ Γ.locals.reverse)).close)
      (inBody l (body.emit Γ.module (f :: fs) id (up ++ Γ.locals.reverse)).frames.tail
        (body.emit Γ.module (f :: fs) id (up ++ Γ.locals.reverse)).id
        (ty.toList ++ (up ++ Γ.locals.reverse)) false) := by
  obtain ⟨seg', hlive, hy⟩ := hb (Γ.enter label) [] up o (f :: fs) id (.end_ :: l) h
    (congrArg Nat.succ hl) (List.cons_ne_nil _ _)
  obtain ⟨hcons, hmark, htail⟩ :=
    (body.emit_frames Γ.module (f :: fs) id (up ++ Γ.locals.reverse)).of_cons
  refine Conv.Yields.trans hy (.of_next ?_)
  rw [show (Γ.enter label).locals = Γ.locals from rfl,
    show (Γ.enter label).module = Γ.module from rfl, List.nil_append] at *
  rw [hcons]
  refine next_end ?_ (hmark.arguments.trans hfa) (hmark.returns.trans hfr)
    (closes_of_live hc hlive)
  intro hnil
  rw [hnil] at htail
  cases htail
  exact hfs rfl

/-- The first arm of an `if` and its `else`. -/
theorem Code.Read.elsed (hb : body.Read) (f : ControlFrame) (up : List SignlessType)
    (h : body.check (Γ.enter label) (.live []) = some o) (hc : o.closes ty = true)
    (hl : Γ.labels.length = fs.length)
    (hfa : f.arguments = (up ++ Γ.locals.reverse).length) (hfr : f.returns = ty.toList)
    (id : Nat) (l : List WasmOperator) :
    (inBody (body.flatten ++ .else_ :: l) (f :: fs) id (up ++ Γ.locals.reverse) false).Yields
      Γ.module
      ((body.emit Γ.module (f :: fs) id (up ++ Γ.locals.reverse)).ops ++
        elseOps f.id (body.emit Γ.module (f :: fs) id (up ++ Γ.locals.reverse)).unreachable)
      (inBody l (body.emit Γ.module (f :: fs) id (up ++ Γ.locals.reverse)).framesElse
        (body.emit Γ.module (f :: fs) id (up ++ Γ.locals.reverse)).id
        (up ++ Γ.locals.reverse) false) := by
  obtain ⟨seg', hlive, hy⟩ := hb (Γ.enter label) [] up o (f :: fs) id (.else_ :: l) h
    (congrArg Nat.succ hl) (List.cons_ne_nil _ _)
  obtain ⟨hcons, hmark, htail⟩ :=
    (body.emit_frames Γ.module (f :: fs) id (up ++ Γ.locals.reverse)).of_cons
  refine Conv.Yields.trans hy (.of_next ?_)
  rw [show (Γ.enter label).locals = Γ.locals from rfl,
    show (Γ.enter label).module = Γ.module from rfl, List.nil_append] at *
  rw [hcons, ← hmark.id]
  exact next_else (hmark.arguments.trans hfa) (hmark.returns.trans hfr)
    (closes_of_live hc hlive)

/-- What follows a block, given what has been yielded before. -/
theorem Code.Read.after {rest : Code} (hr : rest.Read) {up : List SignlessType}
    {gs : List ControlFrame} {s : Conv} {ops : List OperatorFromWasm} {tail : List WasmOperator}
    (h : rest.check Γ (.live (ty.toList ++ seg)) = some o) (hl : Γ.labels.length = fs.length)
    (hfs : fs ≠ []) (hgs : FramesMark fs gs)
    (hy : s.Yields Γ.module ops (inBody (rest.flatten ++ tail) gs id
      (ty.toList ++ (seg ++ up ++ Γ.locals.reverse)) false)) :
    ∃ seg', ((rest.emit Γ.module gs id
          (ty.toList ++ (seg ++ up ++ Γ.locals.reverse))).unreachable = false → o = .live seg') ∧
      s.Yields Γ.module
        (ops ++ (rest.emit Γ.module gs id (ty.toList ++ (seg ++ up ++ Γ.locals.reverse))).ops)
        (inBody tail
          (rest.emit Γ.module gs id (ty.toList ++ (seg ++ up ++ Γ.locals.reverse))).frames
          (rest.emit Γ.module gs id (ty.toList ++ (seg ++ up ++ Γ.locals.reverse))).id
          (seg' ++ (up ++ Γ.locals.reverse))
          (rest.emit Γ.module gs id
            (ty.toList ++ (seg ++ up ++ Γ.locals.reverse))).unreachable) := by
  have hassoc : ty.toList ++ seg ++ (up ++ Γ.locals.reverse) =
      ty.toList ++ (seg ++ up ++ Γ.locals.reverse) := by simp
  obtain ⟨seg', hlive, hr⟩ := hr Γ (ty.toList ++ seg) up o gs id tail h
    (hl.trans hgs.length_eq) (fun hnil => hfs (by
      rw [hnil] at hgs
      exact List.forall₂_nil_right_iff.mp hgs))
  rw [hassoc] at hlive hr
  exact ⟨seg', hlive, hy.trans hr⟩

end Bodies

/-- **Reading a valid sequence yields its translation.** -/
theorem Code.read (c : Code) : c.Read := by
  induction c with
  | nil =>
    intro Γ seg up o fs id tail h hl hfs
    cases h
    refine ⟨seg, fun _ => rfl, ?_⟩
    simp [Conv.Yields, Code.emit, Code.flatten]
  | simple i rest ih =>
    intro Γ seg up o fs id tail h hl hfs
    obtain ⟨o', hi, h⟩ := Option.bind_eq_some_iff.mp h
    obtain ⟨seg', rfl, hst, hnext⟩ := Simple.next_eq up hi
    obtain ⟨seg'', hlive, hy⟩ := ih Γ seg' up o fs id tail h hl hfs
    simp only [Code.emit, hst]
    exact ⟨seg'', hlive, .trans (.of_next (hnext _ fs id)) hy⟩
  | jump j rest _ =>
    intro Γ seg up o fs id tail h hl hfs
    simp only [Code.check] at h
    split at h
    · next hj =>
      obtain ⟨seg', hnext⟩ := Jump.next_eq (up ++ Γ.locals.reverse) hj hl hfs
      refine ⟨seg', fun hu => (nomatch hu), ?_⟩
      unfold Conv.Yields
      rw [Code.flatten, List.cons_append, Conv.stream_ops _ (hnext _ id), stream_unreachable]
      rfl
    · cases h
  | brIf d rest ih =>
    intro Γ seg up o fs id tail h hl hfs
    obtain ⟨o₁, h₁, h⟩ := Option.bind_eq_some_iff.mp h
    obtain ⟨ws, rfl, rfl⟩ := Opds.pop_live h₁
    obtain ⟨ty, hd, h⟩ := Option.bind_eq_some_iff.mp h
    obtain ⟨o₂, h₂, h⟩ := Option.bind_eq_some_iff.mp h
    obtain ⟨ws', rfl, rfl⟩ := Opds.popOpt_live h₂
    rw [Opds.pushOpt_live] at h
    obtain ⟨hd, -⟩ := List.getElem?_eq_some_iff.mp hd
    obtain ⟨seg'', hlive, hy⟩ := ih Γ _ up o (Conv.markNth fs d) (id + 1) tail h
      (by rw [hl]; exact (framesMark_markNth fs d).length_eq)
      (by simpa [Conv.markNth] using hfs)
    refine ⟨seg'', hlive, .trans (.of_next ?_) hy⟩
    rw [Code.flatten, List.cons_append, List.cons_append,
      next_inBody (.concrete [I32] []) _ rfl (applyOp_i32 _)]
    simp only [Conv.operator]
    rw [branch_inBody (hl ▸ hd)]
    rfl
  | block ty body rest ihb ihr =>
    intro Γ seg up o fs id tail h hl hfs
    obtain ⟨b, hb, h⟩ := Option.bind_eq_some_iff.mp h
    split at h
    · next hc =>
      rw [Opds.pushOpt_live] at h
      have hf : (Code.block ty body rest).flatten ++ tail =
          .block ty :: (body.flatten ++ .end_ :: (rest.flatten ++ tail)) := by simp [Code.flatten]
      rw [hf, ← List.append_assoc seg up]
      have ho := yields_block (m := Γ.module) ty (body.flatten ++ .end_ :: (rest.flatten ++ tail))
        fs id (seg ++ up ++ Γ.locals.reverse)
      have hy := ihb.closed ⟨id, _, ty.toList, .block false⟩ (seg ++ up) hb hc hl hfs rfl rfl (id + 1) (rest.flatten ++ tail)
      exact ihr.after h hl hfs (body.emit_frames _ (_ :: fs) _ _).of_cons.2.2 (ho.trans hy)
    · cases h
  | loop ty body rest ihb ihr =>
    intro Γ seg up o fs id tail h hl hfs
    obtain ⟨b, hb, h⟩ := Option.bind_eq_some_iff.mp h
    split at h
    · next hc =>
      rw [Opds.pushOpt_live] at h
      have hf : (Code.loop ty body rest).flatten ++ tail =
          .loop ty :: (body.flatten ++ .end_ :: (rest.flatten ++ tail)) := by simp [Code.flatten]
      rw [hf, ← List.append_assoc seg up]
      have ho := yields_loop (m := Γ.module) ty (body.flatten ++ .end_ :: (rest.flatten ++ tail))
        fs id (seg ++ up ++ Γ.locals.reverse)
      have hy := ihb.closed ⟨id, _, ty.toList, .loop⟩ (seg ++ up) hb hc hl hfs rfl rfl (id + 1) (rest.flatten ++ tail)
      exact ihr.after h hl hfs (body.emit_frames _ (_ :: fs) _ _).of_cons.2.2 (ho.trans hy)
    · cases h
  | ifThen ty then_ rest ihb ihr =>
    intro Γ seg up o fs id tail h hl hfs
    obtain ⟨o₁, h₁, h⟩ := Option.bind_eq_some_iff.mp h
    obtain ⟨ws, rfl, rfl⟩ := Opds.pop_live h₁
    obtain ⟨b, hb, h⟩ := Option.bind_eq_some_iff.mp h
    split at h
    · next hc =>
      rw [Opds.pushOpt_live] at h
      have hf : (Code.ifThen ty then_ rest).flatten ++ tail =
          .if_ ty :: (then_.flatten ++ .end_ :: (rest.flatten ++ tail)) := by simp [Code.flatten]
      rw [hf, List.cons_append, ← List.append_assoc ws up]
      have ho := yields_if (m := Γ.module) ty (then_.flatten ++ .end_ :: (rest.flatten ++ tail))
        fs id (ws ++ up ++ Γ.locals.reverse)
      have hy := ihb.closed ⟨id, _, ty.toList, .if_ false⟩ (ws ++ up) hb hc.2 hl hfs rfl rfl (id + 1) (rest.flatten ++ tail)
      exact ihr.after h hl hfs (then_.emit_frames _ (_ :: fs) _ _).of_cons.2.2 (ho.trans hy)
    · cases h
  | ifElse ty then_ else_ rest ihb ihc ihr =>
    intro Γ seg up o fs id tail h hl hfs
    obtain ⟨o₁, h₁, h⟩ := Option.bind_eq_some_iff.mp h
    obtain ⟨ws, rfl, rfl⟩ := Opds.pop_live h₁
    obtain ⟨b, hb, h⟩ := Option.bind_eq_some_iff.mp h
    obtain ⟨b', hb', h⟩ := Option.bind_eq_some_iff.mp h
    split at h
    · next hc =>
      rw [Opds.pushOpt_live] at h
      have hf : (Code.ifElse ty then_ else_ rest).flatten ++ tail = .if_ ty :: (then_.flatten ++
          .else_ :: (else_.flatten ++ .end_ :: (rest.flatten ++ tail))) := by simp [Code.flatten]
      rw [hf, List.cons_append, ← List.append_assoc ws up]
      have ho := yields_if (m := Γ.module) ty
        (then_.flatten ++ .else_ :: (else_.flatten ++ .end_ :: (rest.flatten ++ tail)))
        fs id (ws ++ up ++ Γ.locals.reverse)
      have hy := ihb.elsed ⟨id, _, ty.toList, .if_ false⟩ (ws ++ up) hb hc.1 hl rfl rfl (id + 1)
        (else_.flatten ++ .end_ :: (rest.flatten ++ tail))
      obtain ⟨b₁, hb₁⟩ : ∃ b₁, b₁ = then_.emit Γ.module
          (⟨id, (ws ++ up ++ Γ.locals.reverse).length, ty.toList, .if_ false⟩ :: fs) (id + 1)
          (ws ++ up ++ Γ.locals.reverse) := ⟨_, rfl⟩
      obtain ⟨-, hmark, htail⟩ := (then_.emit_frames Γ.module
        (⟨id, (ws ++ up ++ Γ.locals.reverse).length, ty.toList, .if_ false⟩ :: fs) (id + 1)
        (ws ++ up ++ Γ.locals.reverse)).of_cons
      rw [← hb₁] at hy hmark htail
      have hne : b₁.frames.tail ≠ [] := by
        intro hnil
        rw [hnil] at htail
        exact hfs (List.forall₂_nil_right_iff.mp htail)
      have hz := ihc.closed (nthBlock b₁.frames 0).setHasElse (ws ++ up) hb' hc.2
        (hl.trans htail.length_eq) hne (by simpa using hmark.arguments)
        (by simpa using hmark.returns) b₁.id (rest.flatten ++ tail)
      simp only [Code.emit]
      rw [List.tail_cons, ← hb₁]
      exact ihr.after h hl hfs (htail.trans (else_.emit_frames _ (_ :: _) _ _).of_cons.2.2)
        (ho.trans (hy.trans hz))
    · cases h

/-- The generator started on a function, as `translate_wasm` starts it. -/
def Func.conv (f : Func) : Conv :=
  Conv.new f.type.params f.type.returns.toList f.locals f.operators

/-- **The microwasm of a validated function**: the generator reads the body to its end without
failing and yields `Func.microwasm`. -/
theorem stream_conv {f : Func} (h : f.Validated m) : f.conv.stream m = some (f.microwasm m) := by
  obtain ⟨o, ho, hc⟩ := h
  obtain ⟨seg, hlive, hy⟩ := f.body.read (f.context m) [] [] o [f.frame] 1 [.end_] ho rfl
    (List.cons_ne_nil _ _)
  have hstart : f.conv.Yields m f.consts
      (inBody (f.body.flatten ++ [.end_]) [f.frame] 1 f.localTypes.reverse false) := by
    refine .of_next ?_
    simp only [Func.conv, Conv.new, Conv.next, Func.consts, List.map_map]
    rfl
  change (inBody (f.body.flatten ++ [.end_]) [f.frame] 1 f.localTypes.reverse false).Yields m
    (f.emit m).ops (inBody [.end_] (f.emit m).frames (f.emit m).id (seg ++ f.localTypes.reverse)
      (f.emit m).unreachable) at hy
  have hframes : (f.emit m).frames = [f.frame] := by
    obtain ⟨hcons, hmark, htail⟩ := (f.body.emit_frames m [f.frame] 1 f.localTypes.reverse).of_cons
    have hmark := hmark.eq_of_not_block (fun b => by simp [Func.frame])
    rw [Func.emit, hcons, List.forall₂_nil_left_iff.mp htail, hmark]
  have hend : (inBody [.end_] [f.frame] (f.emit m).id (seg ++ f.localTypes.reverse)
      (f.emit m).unreachable).stream m =
        some (if (f.emit m).unreachable then [] else [.br .ret]) := by
    cases (f.emit m).unreachable with
    | true => rfl
    | false =>
      rw [Conv.stream_ops m (next_inBody .none _ rfl rfl)]
      rfl
  have := hstart.trans hy
  rw [Conv.Yields, hframes, hend, Option.map_some, List.append_assoc] at this
  exact this

end Wasmtime.Lightbeam
