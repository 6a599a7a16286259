import Mathlib.Data.List.GetD
import Wasmtime.Lightbeam.Labels
import Wasmtime.Lightbeam.Semantics

/-!
# A body and its microwasm, step by step

The simulation behind the comparison of a function with its microwasm. The microwasm stack is
the operands of the current block, on the operands of the blocks around it, on the locals.

* `Reach n s r`: from `s` the machine comes to `r` in `n` steps or more. The count is kept
  because a run that is cut off after `fuel` iterations must be matched by one of at least as many
  steps; without it nothing would keep the microwasm from ending where the wasm goes on.
* `after_eq` and `params_eq` use the label discipline: a label is found where it was emitted.
* `LabelInfo` and `Code.clean` say which branches are translated well. `to_drop!` keeps as many
  elements as the target has *results*, but a loop is entered again with none, so a branch to a
  loop with a result type needs an operand stack with nothing on top of the loop's operands.
* `dropOpt_toDrop`: a clean branch leaves the operands of its label and the arguments of its
  target.

Results:
* **`Code.simulates`**: the translation of a valid and clean sequence does what the sequence
  does, however it ends.
-/

namespace Wasmtime.Lightbeam

open Microwasm
open ControlFrame (Marks)

/-! ## Runs of the machine -/

section Runs

variable {m : ModuleContext} {V W : Type} (I : Interp m V W) (prog : List OperatorFromWasm)
  (returns : BlockType)

/-- From `s` the machine comes to `r`, in `n` steps or more. -/
def Reach (n : Nat) (s : State V W) (r : Status V W) : Prop :=
  ∃ k, n ≤ k ∧ run I prog returns k s = r

variable {I prog returns} {s s' : State V W} {r : Status V W} {n n' : Nat}

theorem reach_refl (s : State V W) : Reach I prog returns 0 s (.running s) :=
  ⟨0, Nat.le_refl 0, rfl⟩

theorem run_add {k : Nat} (h : run I prog returns k s = .running s') (j : Nat) :
    run I prog returns (k + j) s = run I prog returns j s' := by
  induction k generalizing s with
  | zero =>
    cases h
    rw [Nat.zero_add]
  | succ k ih =>
    rw [Nat.succ_add, run]
    rw [run] at h
    cases hs : step I prog returns s with
    | running s₁ =>
      rw [hs] at h
      exact ih h
    | returned vals eff =>
      rw [hs] at h
      cases h
    | trapped eff =>
      rw [hs] at h
      cases h
    | stuck =>
      rw [hs] at h
      cases h

theorem Reach.trans (h : Reach I prog returns n s (.running s'))
    (h' : Reach I prog returns n' s' r) : Reach I prog returns (n + n') s r := by
  obtain ⟨k, hk, hr⟩ := h
  obtain ⟨k', hk', hr'⟩ := h'
  exact ⟨k + k', Nat.add_le_add hk hk', (run_add hr k').trans hr'⟩

theorem Reach.mono (h : Reach I prog returns n s r) (hle : n' ≤ n) :
    Reach I prog returns n' s r := by
  obtain ⟨k, hk, hr⟩ := h
  exact ⟨k, Nat.le_trans hle hk, hr⟩

/-- One step. -/
theorem Reach.of_step (h : step I prog returns s = r) : Reach I prog returns 1 s r := by
  refine ⟨1, Nat.le_refl 1, ?_⟩
  rw [run, h]
  cases r <;> rfl

/-- A step first. -/
theorem Reach.step_then (h : step I prog returns s = .running s')
    (h' : Reach I prog returns n s' r) : Reach I prog returns n s r :=
  ((Reach.of_step h).trans h').mono (Nat.le_add_left n 1)

end Runs

/-! ## Where labels are found -/

theorem Disciplined.define_le {events : List LabelEvent} (h : Disciplined events) :
    events.count .define ≤ 1 := by
  rcases h with rfl | ⟨back, callers, uses, rfl, -, hd, -⟩
  · simp
  · simpa using hd

theorem define_mem_of_label {ops : List OperatorFromWasm} {l : WasmLabel}
    (h : .label l ∈ ops) : .define ∈ labelEvents l ops :=
  List.mem_flatMap.mpr ⟨_, h, by simp [Operator.events]⟩

theorem after_of_notMem {l : WasmLabel} {a : List OperatorFromWasm} (h : .label l ∉ a)
    (b : List OperatorFromWasm) : after l (a ++ .label l :: b) = some b := by
  induction a with
  | nil => simp [after]
  | cons op a ih =>
    have ha := ih fun hm => h (List.mem_cons_of_mem _ hm)
    cases op with
    | label l' =>
      have hl : l' ≠ l := fun heq => h (by simp [heq])
      simpa [after, hl] using ha
    | _ => exact ha

/-- A label is found where it was emitted. -/
theorem after_eq {prog a b : List OperatorFromWasm} {l : WasmLabel}
    (hd : Disciplined (labelEvents l prog)) (hp : prog = a ++ .label l :: b) :
    after l prog = some b := by
  rw [hp]
  refine after_of_notMem ?_ b
  intro hm
  have hcount := hd.define_le
  have hpos := List.count_pos_iff.mpr (define_mem_of_label hm)
  have hself : (Operator.label l).events l = [.define] := by simp [Operator.events]
  rw [hp, labelEvents_append, labelEvents_cons, hself, List.count_append, List.count_append] at hcount
  simp at hcount
  omega

def LabelEvent.isDeclare : LabelEvent → Bool
  | .declare _ _ => true
  | _ => false

theorem Disciplined.declare_le {events : List LabelEvent} (h : Disciplined events) :
    events.countP LabelEvent.isDeclare ≤ 1 := by
  rcases h with rfl | ⟨back, callers, uses, rfl, hu, -⟩
  · simp
  · have hz : uses.countP LabelEvent.isDeclare = 0 := by
      rw [List.countP_eq_zero]
      intro e he
      cases e with
      | declare b n => exact absurd he (hu b n)
      | branch => simp [LabelEvent.isDeclare]
      | define => simp [LabelEvent.isDeclare]
    rw [List.countP_cons, hz]
    simp [LabelEvent.isDeclare]

theorem params_of_notMem {l : WasmLabel} {a : List OperatorFromWasm}
    (h : ∀ ps back n, .block l ps back n ∉ a) (ps : List SignlessType) (back : Bool)
    (n : Option Nat) (b : List OperatorFromWasm) :
    params l (a ++ .block l ps back n :: b) = some ps := by
  induction a with
  | nil => simp [params]
  | cons op a ih =>
    have ha := ih fun ps back n hm => h ps back n (List.mem_cons_of_mem _ hm)
    cases op with
    | block l' ps' back' n' =>
      have hl : l' ≠ l := fun heq => h ps' back' n' (by simp [heq])
      simpa [params, hl] using ha
    | _ => exact ha

/-- The parameters of a label are those it was declared with. -/
theorem params_eq {prog a b : List OperatorFromWasm} {l : WasmLabel} {ps : List SignlessType}
    {back : Bool} {n : Option Nat} (hd : Disciplined (labelEvents l prog))
    (hp : prog = a ++ .block l ps back n :: b) : params l prog = some ps := by
  rw [hp]
  refine params_of_notMem ?_ ps back n b
  intro ps' back' n' hm
  have hcount := hd.declare_le
  have hmem : LabelEvent.declare back' n' ∈ labelEvents l a :=
    List.mem_flatMap.mpr ⟨_, hm, by simp [Operator.events]⟩
  have hpos : 0 < (labelEvents l a).countP LabelEvent.isDeclare :=
    List.countP_pos_iff.mpr ⟨_, hmem, rfl⟩
  have hself : (Operator.block l ps back n).events l = [.declare back n] := by
    simp [Operator.events]
  rw [hp, labelEvents_append, labelEvents_cons, hself, List.countP_append, List.countP_append] at hcount
  simp [LabelEvent.isDeclare] at hcount
  omega

/-- A jump to a label whose parameters are the whole stack. -/
theorem jump_label {V W : Type} {prog code : List OperatorFromWasm} {returns : BlockType}
    {l : WasmLabel} {ps : List SignlessType} {stack : List V} {eff : Effects V W}
    (hp : params l prog = some ps) (ha : after l prog = some code)
    (hl : ps.length = stack.length) :
    jump prog returns (.label l) stack eff = .running ⟨code, stack, eff⟩ := by
  simp [jump, hp, ha, hl]

/-! ## Which branches are translated well -/

/-- What a branch needs to know of an enclosing label: whether it is a loop with a result type,
and how many operands there are below the block. -/
structure LabelInfo where
  loopResult : Bool
  height : Nat
  deriving DecidableEq, Repr

/-- A branch to the `d`-th label with `h` operands on the stack. -/
def edgeClean (ls : List LabelInfo) (h d : Nat) : Bool :=
  ls[d]?.all fun l => !l.loopResult || h == l.height

/-- The number of operands after an instruction that falls through. -/
def Simple.height (m : ModuleContext) (h : Nat) : Simple → Nat
  | .nop => h
  | .drop => h - 1
  | .select => h - 2
  | .getLocal _ => h + 1
  | .setLocal _ => h - 1
  | .teeLocal _ => h
  | .plain p => h - (p.sig m).1.length + (p.sig m).2.toList.length

def Jump.clean (ls : List LabelInfo) (h : Nat) : Jump → Bool
  | .br d => edgeClean ls h d
  | .brTable ts d => (ts.all fun t => edgeClean ls (h - 1) t) && edgeClean ls (h - 1) d
  | .unreachable | .return_ => true

/-- No reachable branch goes to a loop with a result type while there are operands on top of
those that the loop started with. -/
def Code.clean (m : ModuleContext) : Code → List LabelInfo → Nat → Bool
  | .nil, _, _ => true
  | .simple i rest, ls, h => rest.clean m ls (i.height m h)
  | .jump j _, ls, h => j.clean ls h
  | .brIf d rest, ls, h => edgeClean ls (h - 1) d && rest.clean m ls (h - 1)
  | .block ty body rest, ls, h =>
      body.clean m (⟨false, h⟩ :: ls) h && rest.clean m ls (ty.toList.length + h)
  | .loop ty body rest, ls, h =>
      body.clean m (⟨ty.isSome, h⟩ :: ls) h && rest.clean m ls (ty.toList.length + h)
  | .ifThen ty then_ rest, ls, h =>
      then_.clean m (⟨false, h - 1⟩ :: ls) (h - 1) &&
        rest.clean m ls (ty.toList.length + (h - 1))
  | .ifElse ty then_ else_ rest, ls, h =>
      (then_.clean m (⟨false, h - 1⟩ :: ls) (h - 1) &&
        else_.clean m (⟨false, h - 1⟩ :: ls) (h - 1)) &&
        rest.clean m ls (ty.toList.length + (h - 1))

/-- The condition on a function. -/
def Func.clean (m : ModuleContext) (f : Func) : Bool :=
  f.body.clean m [⟨false, 0⟩] 0

/-- The types a branch to the frame carries: none to the header of a loop. -/
def ControlFrame.labelTypes (f : ControlFrame) : List SignlessType :=
  if f.kind = .loop then [] else f.returns

/-- How a frame, a label of validation and a label of `clean` belong together. -/
structure Fits (locals : Nat) (ty : BlockType) (f : ControlFrame) (l : LabelInfo) : Prop where
  types : f.labelTypes = ty.toList
  arguments : f.arguments = l.height + locals
  loopResult : l.loopResult = false → f.returns = f.labelTypes

theorem checkedSub_eq_none {a b : Nat} (h : a < b) : checkedSub a b = none :=
  if_neg (Nat.not_le.mpr h)

theorem checkedSub_eq_some {a b : Nat} (h : b ≤ a) : checkedSub a b = some (a - b) :=
  if_pos h

/-- `to_drop!` where there is more than the block's results. -/
theorem toDrop_surplus {stack : List SignlessType} {f : ControlFrame}
    (h : f.returns.length + f.arguments < stack.length) :
    toDrop stack f = some ⟨f.returns.length, stack.length - 1 - f.arguments⟩ := by
  unfold toDrop
  rw [checkedSub_eq_some (by omega), Option.bind_eq_bind, Option.bind_some,
    checkedSub_eq_some (by omega), Option.bind_some, if_pos (by omega)]

/-- **What a clean branch leaves**: the operands of the label on the arguments of the target. -/
theorem dropOpt_toDrop {α : Type} {locals : Nat} {ty : BlockType} {f : ControlFrame}
    {l : LabelInfo} (hf : Fits locals ty f l) {stack : List SignlessType} {vals : List α}
    (hlen : stack.length = vals.length)
    (hle : ty.toList.length + f.arguments ≤ vals.length)
    (hclean : l.loopResult = true → vals.length = f.arguments) :
    dropOpt (toDrop stack f) vals =
      vals.take ty.toList.length ++ truncate f.arguments vals := by
  cases hloop : l.loopResult with
  | true =>
    have hargs := hclean hloop
    have hty : ty.toList.length = 0 := by omega
    rw [toDrop_results (by omega), hty]
    simp [dropOpt, truncate, hargs]
  | false =>
    have hret : f.returns.length = ty.toList.length := by rw [hf.loopResult hloop, hf.types]
    by_cases hs : f.returns.length + f.arguments < stack.length
    · rw [toDrop_surplus hs]
      have hlast : stack.length - 1 - f.arguments + 1 = vals.length - f.arguments := by omega
      simp only [dropOpt, Option.elim_some, dropRange, hlast, hret, truncate]
    · rw [toDrop_results (by omega)]
      have hcut : vals.length - f.arguments = ty.toList.length := by omega
      simp only [dropOpt, Option.elim_none, truncate, hcut, List.take_append_drop]

/-! ## Locals on the stack -/

section Locals

variable {α : Type}

theorem getElem?_local {locals : List α} {i : Nat} (hi : i < locals.length) (A : List α) :
    (A ++ locals.reverse)[(A ++ locals.reverse).length - 1 - i]? = locals[i]? := by
  have hlen : (A ++ locals.reverse).length - 1 - i = A.length + (locals.length - 1 - i) := by
    simp only [List.length_append, List.length_reverse]
    omega
  rw [hlen, List.getElem?_append_right (Nat.le_add_right _ _), Nat.add_sub_cancel_left]
  exact List.getElem?_reverse' (by omega)

theorem reverse_set {locals : List α} {i : Nat} (hi : i < locals.length) (v : α) :
    locals.reverse.set (locals.length - 1 - i) v = (locals.set i v).reverse := by
  refine List.ext_getElem? fun j => ?_
  by_cases hj : j < locals.length
  · rw [List.getElem?_set, List.getElem?_reverse (by simpa using hj),
      List.getElem?_reverse (by simpa using hj), List.getElem?_set]
    simp only [List.length_reverse, List.length_set]
    by_cases h : locals.length - 1 - i = j
    · have h' : i = locals.length - 1 - j := by omega
      rw [if_pos h, if_pos h', if_pos (by omega), if_pos hi]
    · have h' : ¬ i = locals.length - 1 - j := by omega
      rw [if_neg h, if_neg h']
  · rw [List.getElem?_eq_none (by simpa using hj), List.getElem?_eq_none (by simpa using hj)]

/-- `Swap` with a local's slot. -/
theorem swap_local {locals : List α} {i : Nat} {x : α} (hx : locals[i]? = some x) (v : α)
    (A : List α) :
    swap ((v :: (A ++ locals.reverse)).length - 1 - i) (v :: (A ++ locals.reverse)) =
      some (x :: (A ++ (locals.set i v).reverse)) := by
  obtain ⟨hi, -⟩ := List.getElem?_eq_some_iff.mp hx
  have hlen : (v :: (A ++ locals.reverse)).length - 1 - i =
      (A ++ locals.reverse).length - 1 - i + 1 := by
    simp only [List.length_cons, List.length_append, List.length_reverse]
    omega
  have hslot : (A ++ locals.reverse).length - 1 - i = A.length + (locals.length - 1 - i) := by
    simp only [List.length_append, List.length_reverse]
    omega
  rw [hlen]
  simp only [swap, List.getElem?_cons_succ, getElem?_local hi, hx, List.set_cons_succ,
    List.set_cons_zero]
  rw [hslot, List.set_append_right _ _ (Nat.le_add_right _ _), Nat.add_sub_cancel_left,
    reverse_set hi]

theorem truncate_all {n : Nat} {l : List α} (h : l.length = n) : truncate n l = l := by
  simp [truncate, h]

theorem truncate_append_of_le {n : Nat} {a b : List α} (h : n ≤ b.length) :
    truncate n (a ++ b) = truncate n b := by
  have hlen : (a ++ b).length - n = a.length + (b.length - n) := by
    simp only [List.length_append]
    omega
  rw [truncate, hlen, List.drop_append, List.drop_of_length_le (Nat.le_add_right _ _),
    Nat.add_sub_cancel_left, List.nil_append]
  rfl

end Locals

/-! ## Instructions that fall through -/

section Simple

variable {m : ModuleContext} {V W : Type} {I : Interp m V W}

/-- How an instruction that falls through must end. -/
def SimpleEnds (I : Interp m V W) (prog : List OperatorFromWasm) (returns : BlockType)
    (start : State V W) (post : List OperatorFromWasm) (outer : List V) (locals height : Nat) :
    Outcome V W → Prop
  | .normal s' => s'.stack.length = height ∧ s'.locals.length = locals ∧
      Reach I prog returns 0 start
        (.running ⟨post, s'.stack ++ (outer ++ s'.locals.reverse), s'.eff⟩)
  | .trap eff => Reach I prog returns 0 start (.trapped eff)
  | _ => False

theorem exec_result {p : PlainOperator} {args : List V} {eff eff' : Effects V W} {r : Option V}
    (h : I.exec p args eff = .ok (r, eff')) : r.toList.length = (p.sig m).2.toList.length := by
  have hsome : r.isSome = (p.sig m).2.isSome := by
    unfold Interp.exec at h
    split at h
    · cases h
      rfl
    · split at h
      · next hact =>
        cases h
        exact I.result hact
      · cases h
  cases r <;> cases hs : (p.sig m).2 <;> simp_all

/-- **An instruction that falls through and its translation.** -/
theorem Simple.simulates (I : Interp m V W) (prog : List OperatorFromWasm) (returns : BlockType)
    {Γ : Context} (hm : Γ.module = m) {i : Simple}
    {seg seg' : List SignlessType} (h : i.check Γ (.live seg) = some (.live seg'))
    (post : List OperatorFromWasm) {locals vs : List V} (outer : List V) (eff : Effects V W)
    (hl : locals.length = Γ.locals.length) (hv : vs.length = seg.length) :
    SimpleEnds I prog returns
      ⟨i.emit (vs ++ (outer ++ locals.reverse)).length ++ post, vs ++ (outer ++ locals.reverse), eff⟩
      post outer Γ.locals.length seg'.length (i.eval I ⟨locals, vs, eff⟩) := by
  subst hm
  cases i with
  | nop =>
    cases h
    exact ⟨hv, hl, reach_refl _⟩
  | drop =>
    obtain ⟨⟨t, o'⟩, ho, hs⟩ := Option.map_eq_some_iff.mp h
    obtain ⟨t', ws, rfl, rfl, rfl⟩ := Opds.popAny_live ho
    cases hs
    obtain ⟨v, vs, rfl⟩ := List.exists_cons_of_length_eq_add_one hv
    exact ⟨Nat.succ.inj hv, hl, (Reach.of_step rfl).mono (Nat.zero_le _)⟩
  | select =>
    obtain ⟨o₁, h₁, h⟩ := Option.bind_eq_some_iff.mp h
    obtain ⟨ws, rfl, rfl⟩ := Opds.pop_live h₁
    obtain ⟨⟨t₂, o₂⟩, h₂, h⟩ := Option.bind_eq_some_iff.mp h
    obtain ⟨a, ws', rfl, rfl, rfl⟩ := Opds.popAny_live h₂
    obtain ⟨⟨t₃, o₃⟩, h₃, h⟩ := Option.bind_eq_some_iff.mp h
    obtain ⟨b, ws'', rfl, rfl, rfl⟩ := Opds.popAny_live h₃
    obtain ⟨t, ht, h⟩ := Option.bind_eq_some_iff.mp h
    obtain ⟨rfl, rfl⟩ := Opds.join_some ht
    cases h
    obtain ⟨c₁, vs, rfl⟩ := List.exists_cons_of_length_eq_add_one hv
    obtain ⟨c₂, vs, rfl⟩ := List.exists_cons_of_length_eq_add_one (Nat.succ.inj hv)
    obtain ⟨c₃, vs, rfl⟩ := List.exists_cons_of_length_eq_add_one (Nat.succ.inj (Nat.succ.inj hv))
    exact ⟨Nat.succ.inj (Nat.succ.inj hv), hl, (Reach.of_step rfl).mono (Nat.zero_le _)⟩
  | getLocal i =>
    obtain ⟨t, ht, h⟩ := Option.bind_eq_some_iff.mp h
    cases h
    obtain ⟨hi, -⟩ := List.getElem?_eq_some_iff.mp ht
    have hx : locals[i]? = some locals[i] := List.getElem?_eq_getElem (hl ▸ hi)
    have hpick := getElem?_local (hl ▸ hi : i < locals.length) (vs ++ outer)
    simp only [Simple.eval, hx, SimpleEnds]
    refine ⟨congrArg Nat.succ hv, hl, (Reach.of_step ?_).mono (Nat.zero_le _)⟩
    rw [← List.append_assoc vs outer]
    simp only [Simple.emit, step, List.cons_append, List.nil_append, hpick, hx]
    simp
  | setLocal i =>
    obtain ⟨t, ht, h⟩ := Option.bind_eq_some_iff.mp h
    obtain ⟨ws, rfl, ho⟩ := Opds.pop_live h
    cases ho
    obtain ⟨hi, -⟩ := List.getElem?_eq_some_iff.mp ht
    obtain ⟨v, vs, rfl⟩ := List.exists_cons_of_length_eq_add_one hv
    have hx : locals[i]? = some locals[i] := List.getElem?_eq_getElem (hl ▸ hi)
    have hswap := swap_local hx v (vs ++ outer)
    have hlt : i < locals.length := hl ▸ hi
    simp only [Simple.eval, hlt, if_true, SimpleEnds]
    refine ⟨Nat.succ.inj hv, by simpa using hl, ?_⟩
    rw [List.cons_append, ← List.append_assoc vs outer]
    have h₁ : step I prog returns
        ⟨Simple.emit (v :: (vs ++ outer ++ locals.reverse)).length (.setLocal i) ++ post,
          v :: (vs ++ outer ++ locals.reverse), eff⟩ =
        .running ⟨.drop ⟨0, 0⟩ :: post, locals[i] :: (vs ++ outer ++ (locals.set i v).reverse),
          eff⟩ := by
      simp only [Simple.emit, step, List.cons_append, List.nil_append, hswap]
    have h₂ : step I prog returns ⟨.drop ⟨0, 0⟩ :: post,
        locals[i] :: (vs ++ outer ++ (locals.set i v).reverse), eff⟩ =
        .running ⟨post, vs ++ (outer ++ (locals.set i v).reverse), eff⟩ := by
      simp [step, dropRange]
    exact (Reach.step_then h₁ (.of_step h₂)).mono (Nat.zero_le _)
  | teeLocal i =>
    obtain ⟨t, ht, h⟩ := Option.bind_eq_some_iff.mp h
    obtain ⟨o', h', h⟩ := Option.bind_eq_some_iff.mp h
    obtain ⟨ws, rfl, rfl⟩ := Opds.pop_live h'
    cases h
    obtain ⟨hi, -⟩ := List.getElem?_eq_some_iff.mp ht
    obtain ⟨v, vs, rfl⟩ := List.exists_cons_of_length_eq_add_one hv
    have hx : locals[i]? = some locals[i] := List.getElem?_eq_getElem (hl ▸ hi)
    have hswap := swap_local hx v (v :: vs ++ outer)
    have hlt : i < locals.length := hl ▸ hi
    simp only [Simple.eval, hlt, if_true, SimpleEnds]
    refine ⟨hv, by simpa using hl, ?_⟩
    rw [← List.append_assoc (v :: vs) outer]
    have h₁ : step I prog returns
        ⟨Simple.emit (v :: vs ++ outer ++ locals.reverse).length (.teeLocal i) ++ post,
          v :: vs ++ outer ++ locals.reverse, eff⟩ =
        .running ⟨.swap ((v :: (v :: vs ++ outer ++ locals.reverse)).length - 1 - i) ::
          .drop ⟨0, 0⟩ :: post, v :: (v :: vs ++ outer ++ locals.reverse), eff⟩ := rfl
    have h₂ : step I prog returns ⟨.swap ((v :: (v :: vs ++ outer ++ locals.reverse)).length - 1 - i) ::
        .drop ⟨0, 0⟩ :: post, v :: (v :: vs ++ outer ++ locals.reverse), eff⟩ =
        .running ⟨.drop ⟨0, 0⟩ :: post,
          locals[i] :: (v :: vs ++ outer ++ (locals.set i v).reverse), eff⟩ := by
      simp only [step, hswap]
    have h₃ : step I prog returns ⟨.drop ⟨0, 0⟩ :: post,
        locals[i] :: (v :: vs ++ outer ++ (locals.set i v).reverse), eff⟩ =
        .running ⟨post, v :: vs ++ (outer ++ (locals.set i v).reverse), eff⟩ := by
      simp [step, dropRange]
    exact (Reach.step_then h₁ (.step_then h₂ (.of_step h₃))).mono (Nat.zero_le _)
  | plain p =>
    obtain ⟨o', h', h⟩ := Option.bind_eq_some_iff.mp h
    obtain ⟨ws, rfl, rfl⟩ := Opds.popAll_live h'
    rw [Opds.pushOpt_live] at h
    cases h
    have hn : (p.sig Γ.module).1.length ≤ vs.length := by simp [hv]
    have hn' : (p.sig Γ.module).1.length ≤ (vs ++ (outer ++ locals.reverse)).length :=
      Nat.le_trans hn (by simp)
    simp only [Simple.eval, hn, if_true]
    cases hexec : I.exec p (vs.take (p.sig Γ.module).1.length) eff with
    | ok r =>
      obtain ⟨r, eff'⟩ := r
      have hlen : (r.toList ++ vs.drop (p.sig Γ.module).1.length).length =
          ((p.sig Γ.module).2.toList ++ ws).length := by
        simp [exec_result hexec, hv]
      refine ⟨hlen, hl, (Reach.of_step ?_).mono (Nat.zero_le _)⟩
      simp only [Simple.emit, step, List.cons_append, List.nil_append, meaning_toMicro, hn',
        if_true, List.take_append_of_le_length hn, List.drop_append_of_le_length hn, hexec,
        List.append_assoc]
    | error eff' =>
      refine (Reach.of_step ?_).mono (Nat.zero_le _)
      simp only [Simple.emit, step, List.cons_append, List.nil_append, meaning_toMicro, hn',
        if_true, List.take_append_of_le_length hn, hexec]

end Simple

/-! ## Branches -/

/-- What holds of the frames around a sequence: `h` is the number of operands below the current
block. -/
structure Setting (prog : List OperatorFromWasm) (returns : BlockType) (Γ : Context)
    (fs : List ControlFrame) (ls : List LabelInfo) (h : Nat) : Prop where
  disciplined : ∀ l, Disciplined (labelEvents l prog)
  returns : Γ.returns = returns
  fits : ∀ d ty, Γ.labels[d]? = some ty → ∃ l, ls[d]? = some l ∧ l.height ≤ h ∧
    Fits Γ.locals.length ty (nthBlock fs d) l
  declared : ∀ d l, (nthBlock fs d).brTarget = .label l → ∃ ps, params l prog = some ps ∧
    ps.length = (nthBlock fs d).labelTypes.length + (nthBlock fs d).arguments
  root : fs.getLastD default = ⟨0, Γ.locals.length, Γ.returns.toList, .function⟩

theorem ControlFrame.Marks.labelTypes {f g : ControlFrame} (h : f.Marks g) :
    g.labelTypes = f.labelTypes := by
  rcases h with rfl | rfl
  · rfl
  · rcases f with ⟨id, a, r, _ | _ | _ | _⟩ <;> rfl

theorem FramesMark.nthBlock {fs gs : List ControlFrame} (h : FramesMark fs gs) (d : Nat) :
    Marks (nthBlock fs d) (nthBlock gs d) := by
  induction h generalizing d with
  | nil => exact .refl _
  | cons hfg _ ih =>
    cases d with
    | zero => exact hfg
    | succ d => exact ih d

theorem FramesMark.getLastD {fs gs : List ControlFrame} (h : FramesMark fs gs)
    {f g : ControlFrame} (hfg : f.Marks g) : Marks (fs.getLastD f) (gs.getLastD g) := by
  induction h generalizing f g with
  | nil => exact hfg
  | cons h' _ ih =>
    rw [List.getLastD_cons, List.getLastD_cons]
    exact ih h'

section Setting

variable {prog : List OperatorFromWasm} {returns : BlockType} {Γ : Context}
  {fs gs : List ControlFrame} {ls : List LabelInfo} {h : Nat}

/-- Marks make no difference. -/
theorem Setting.of_marks (hs : Setting prog returns Γ fs ls h) (hm : FramesMark fs gs) :
    Setting prog returns Γ gs ls h where
  disciplined := hs.disciplined
  returns := hs.returns
  fits := by
    intro d ty hd
    obtain ⟨l, hl, hle, hf⟩ := hs.fits d ty hd
    have hg := hm.nthBlock d
    refine ⟨l, hl, hle, ?_, ?_, ?_⟩
    · rw [hg.labelTypes, hf.types]
    · rw [hg.arguments, hf.arguments]
    · intro hloop
      rw [hg.returns, hg.labelTypes, hf.loopResult hloop]
  declared := by
    intro d l hd
    have hg := hm.nthBlock d
    rw [hg.labelTypes, hg.arguments]
    exact hs.declared d l (hg.brTarget ▸ hd)
  root := by
    have := hm.getLastD (.refl default)
    rw [hs.root] at this
    exact this.eq_of_not_block fun b => by simp

/-- Inside a block. -/
theorem Setting.enter (hs : Setting prog returns Γ fs ls h) {ty : BlockType} {f : ControlFrame}
    {l : LabelInfo} {h' : Nat} (hfs : fs ≠ []) (hle : h ≤ h') (hl : l.height ≤ h')
    (hf : Fits Γ.locals.length ty f l)
    (hd : ∀ l', f.brTarget = .label l' → ∃ ps, params l' prog = some ps ∧
      ps.length = f.labelTypes.length + f.arguments) :
    Setting prog returns (Γ.enter ty) (f :: fs) (l :: ls) h' where
  disciplined := hs.disciplined
  returns := hs.returns
  fits := by
    intro d ty' hd
    cases d with
    | zero =>
      cases hd
      exact ⟨l, rfl, hl, hf⟩
    | succ d =>
      obtain ⟨l', hl', hle', hf'⟩ := hs.fits d ty' hd
      exact ⟨l', hl', Nat.le_trans hle' hle, hf'⟩
  declared := by
    intro d l' hd'
    cases d with
    | zero => exact hd l' hd'
    | succ d => exact hs.declared d l' hd'
  root := by
    obtain ⟨g, gs, rfl⟩ := List.exists_cons_of_ne_nil hfs
    have hroot := hs.root
    rw [List.getLastD_cons] at hroot
    rw [List.getLastD_cons, List.getLastD_cons]
    exact hroot

end Setting

theorem toDrop_last_lt {stack : List SignlessType} {f : ControlFrame} {r : DropRange}
    (h : toDrop stack f = some r) : r.last < stack.length := by
  unfold toDrop at h
  by_cases h₁ : 1 ≤ stack.length
  · by_cases h₂ : f.arguments ≤ stack.length - 1
    · rw [checkedSub_eq_some h₁, Option.bind_eq_bind, Option.bind_some, checkedSub_eq_some h₂,
        Option.bind_some] at h
      split at h
      · cases h
        exact Nat.lt_of_le_of_lt (Nat.sub_le _ _) (by omega)
      · cases h
    · rw [checkedSub_eq_some h₁, Option.bind_eq_bind, Option.bind_some,
        checkedSub_eq_none (by omega)] at h
      cases h
  · rw [checkedSub_eq_none (by omega)] at h
    cases h

section Branches

variable {m : ModuleContext} {V W : Type} {I : Interp m V W} {prog : List OperatorFromWasm}
  {returns : BlockType}

/-- `br` and `return`: the surplus is dropped, then the jump is made. -/
theorem reach_jumpTo (stack : List SignlessType) (f : ControlFrame)
    (post : List OperatorFromWasm) {vals : List V} (eff : Effects V W)
    (hlen : stack.length = vals.length) :
    Reach I prog returns 1 ⟨jumpTo stack f ++ post, vals, eff⟩
      (jump prog returns f.brTarget (dropOpt (toDrop stack f) vals) eff) := by
  cases hr : toDrop stack f with
  | none =>
    refine Reach.of_step ?_
    simp [jumpTo, hr, dropOps, step, dropOpt]
  | some r =>
    have hlt : r.last < vals.length := hlen ▸ toDrop_last_lt hr
    have h₁ : step I prog returns ⟨jumpTo stack f ++ post, vals, eff⟩ =
        .running ⟨.br f.brTarget :: post, dropRange r vals, eff⟩ := by
      simp [jumpTo, hr, dropOps, step, hlt]
    exact Reach.step_then h₁ (Reach.of_step rfl)

variable {Γ : Context} {fs : List ControlFrame} {ls : List LabelInfo} {h d : Nat}
  {ty : BlockType} {locals vs outer : List V}

/-- **The stack at a clean branch**: the operands of the label, the arguments of the target. -/
theorem Setting.dropOpt (hs : Setting prog returns Γ fs ls h) (hd : Γ.labels[d]? = some ty)
    {stack : List SignlessType} (hlen : stack.length = (vs ++ (outer ++ locals.reverse)).length)
    (hl : locals.length = Γ.locals.length) (ho : outer.length = h)
    (hty : ty.toList.length ≤ vs.length) (hclean : edgeClean ls (vs.length + h) d = true) :
    Microwasm.dropOpt (toDrop stack (nthBlock fs d)) (vs ++ (outer ++ locals.reverse)) =
      vs.take ty.toList.length ++ truncate (nthBlock fs d).arguments (outer ++ locals.reverse) := by
  obtain ⟨l, hl', hle, hf⟩ := hs.fits d ty hd
  have hargs := hf.arguments
  have hlocals : (outer ++ locals.reverse).length = h + Γ.locals.length := by simp [hl, ho]
  rw [dropOpt_toDrop hf hlen, List.take_append_of_le_length hty,
    truncate_append_of_le (by omega)]
  · rw [List.length_append]
    omega
  · intro hloop
    rw [edgeClean, hl'] at hclean
    have : vs.length + h = l.height := by simpa [hloop] using hclean
    rw [List.length_append]
    omega

end Branches

/-! ## How a sequence ends -/

section Ends

variable {m : ModuleContext} {V W : Type}

/-- How the translation of a sequence must end for each way the sequence can end: at what follows
it, at the target of a branch to an enclosing block, or with the function. -/
def Ends (I : Interp m V W) (prog : List OperatorFromWasm) (returns : BlockType) (fuel : Nat)
    (Γ : Context) (fs gs : List ControlFrame) (u : Bool) (o : Opds) (start : State V W)
    (post : List OperatorFromWasm) (outer : List V) : Outcome V W → Prop
  | .normal s => u = false ∧ (∃ seg, o = .live seg ∧ s.stack.length = seg.length) ∧
      s.locals.length = Γ.locals.length ∧
      Reach I prog returns 0 start (.running ⟨post, s.stack ++ (outer ++ s.locals.reverse), s.eff⟩)
  | .br d s => (∃ ty, Γ.labels[d]? = some ty ∧ s.stack.length = ty.toList.length) ∧
      s.locals.length = Γ.locals.length ∧ (nthBlock gs d).kind ≠ .block false ∧
      Reach I prog returns 1 start (jump prog returns (nthBlock fs d).brTarget
        (s.stack ++ truncate (nthBlock fs d).arguments (outer ++ s.locals.reverse)) s.eff)
  | .ret vals eff => Reach I prog returns 0 start (.returned vals eff)
  | .trap eff => Reach I prog returns 0 start (.trapped eff)
  | .timeout eff => ∃ s : State V W, s.eff = eff ∧ Reach I prog returns fuel start (.running s)
  | .stuck => False

variable {I : Interp m V W} {prog : List OperatorFromWasm} {returns : BlockType} {fuel : Nat}
  {Γ : Context} {fs gs bs : List ControlFrame} {ls : List LabelInfo} {h : Nat} {u ub : Bool}
  {o ob : Opds} {start start' : State V W} {post postb code : List OperatorFromWasm}
  {outer vs : List V} {out : Outcome V W} {f : ControlFrame} {ty : BlockType}

/-- Steps taken before. -/
theorem Ends.of_reach_add {n : Nat} (hr : Reach I prog returns n start (.running start'))
    (hend : Ends I prog returns fuel Γ fs gs u o start' post outer out) :
    Ends I prog returns (n + fuel) Γ fs gs u o start post outer out := by
  cases out with
  | normal s =>
    obtain ⟨hu, hseg, hl, hend⟩ := hend
    exact ⟨hu, hseg, hl, (hr.trans hend).mono (Nat.zero_le _)⟩
  | br d s =>
    obtain ⟨hty, hl, hk, hend⟩ := hend
    exact ⟨hty, hl, hk, (hr.trans hend).mono (Nat.le_add_left _ _)⟩
  | ret vals eff => exact (hr.trans hend).mono (Nat.zero_le _)
  | trap eff => exact (hr.trans hend).mono (Nat.zero_le _)
  | timeout eff =>
    obtain ⟨s, hs, hend⟩ := hend
    exact ⟨s, hs, hr.trans hend⟩
  | stuck => exact hend

theorem Ends.mono {n : Nat} (hn : n ≤ fuel)
    (hend : Ends I prog returns fuel Γ fs gs u o start post outer out) :
    Ends I prog returns n Γ fs gs u o start post outer out := by
  cases out with
  | timeout eff =>
    obtain ⟨s, hs, hr⟩ := hend
    exact ⟨s, hs, hr.mono hn⟩
  | normal s => exact hend
  | br d s => exact hend
  | ret vals eff => exact hend
  | trap eff => exact hend
  | stuck => exact hend

theorem Ends.of_reach {n : Nat} (hr : Reach I prog returns n start (.running start'))
    (hend : Ends I prog returns fuel Γ fs gs u o start' post outer out) :
    Ends I prog returns fuel Γ fs gs u o start post outer out :=
  (hend.of_reach_add hr).mono (Nat.le_add_left _ _)

theorem Ends.of_step (hr : step I prog returns start = .running start')
    (hend : Ends I prog returns fuel Γ fs gs u o start' post outer out) :
    Ends I prog returns fuel Γ fs gs u o start post outer out :=
  hend.of_reach (Reach.of_step hr)

/-- Marks on the frames make no difference. -/
theorem Ends.of_marks {fs' : List ControlFrame} (hm : FramesMark fs fs')
    (hend : Ends I prog returns fuel Γ fs' gs u o start post outer out) :
    Ends I prog returns fuel Γ fs gs u o start post outer out := by
  cases out with
  | br d s =>
    obtain ⟨hty, hl, hk, hr⟩ := hend
    have hg := hm.nthBlock d
    rw [hg.brTarget, hg.arguments] at hr
    exact ⟨hty, hl, hk, hr⟩
  | normal s => exact hend
  | ret vals eff => exact hend
  | trap eff => exact hend
  | timeout eff => exact hend
  | stuck => exact hend

/-- A branch out of a block, seen from outside. -/
theorem Setting.truncate_outer (hs : Setting prog returns Γ fs ls h) (vs : List V) {d : Nat}
    (hd : Γ.labels[d]? = some ty) (ho : outer.length = h) {locals : List V}
    (hl : locals.length = Γ.locals.length) :
    truncate (nthBlock fs d).arguments (vs ++ outer ++ locals.reverse) =
      truncate (nthBlock fs d).arguments (outer ++ locals.reverse) := by
  obtain ⟨l, -, hle, hf⟩ := hs.fits d ty hd
  have hargs := hf.arguments
  rw [List.append_assoc, truncate_append_of_le]
  simp only [List.length_append, List.length_reverse]
  omega

/-- **Leaving a block**: its end and its label both lead to `code`, where `k` goes on. -/
theorem Ends.leave {k : Frame V W → Outcome V W} (hs : Setting prog returns Γ fs ls h)
    (ho : outer.length = h)
    (hb : Ends I prog returns fuel (Γ.enter ty) (f :: fs) bs ub ob start postb (vs ++ outer) out)
    (hob : ∀ seg, ob = .live seg → seg.length = ty.toList.length)
    (hsub : ∀ d, (nthBlock bs (d + 1)).kind ≠ .block false → (nthBlock gs d).kind ≠ .block false)
    (hend : ∀ s : Frame V W, ub = false → s.stack.length = ty.toList.length →
      s.locals.length = Γ.locals.length →
      Reach I prog returns 0 ⟨postb, s.stack ++ (vs ++ outer ++ s.locals.reverse), s.eff⟩
        (.running ⟨code, s.stack ++ (vs ++ outer ++ s.locals.reverse), s.eff⟩))
    (hlabel : (nthBlock bs 0).kind ≠ .block false → ∀ s : Frame V W,
      s.stack.length = ty.toList.length → s.locals.length = Γ.locals.length →
      jump prog returns f.brTarget
          (s.stack ++ truncate f.arguments (vs ++ outer ++ s.locals.reverse)) s.eff =
        .running ⟨code, s.stack ++ (vs ++ outer ++ s.locals.reverse), s.eff⟩)
    (hk : ∀ s : Frame V W, s.stack.length = ty.toList.length →
      s.locals.length = Γ.locals.length →
      Ends I prog returns fuel Γ fs gs u o
        ⟨code, s.stack ++ (vs ++ outer ++ s.locals.reverse), s.eff⟩ post outer
        (k { s with stack := s.stack ++ vs })) :
    Ends I prog returns fuel Γ fs gs u o start post outer (out.leave vs k) := by
  cases out with
  | normal s =>
    obtain ⟨hu, ⟨seg, hseg, hlen⟩, hl, hr⟩ := hb
    have hlen := hlen.trans (hob seg hseg)
    exact (hk s hlen hl).of_reach (hr.trans (hend s hu hlen hl))
  | br d s =>
    obtain ⟨⟨ty', hd, hlen⟩, hl, hkind, hr⟩ := hb
    cases d with
    | zero =>
      cases hd
      rw [nthBlock_zero, hlabel hkind s hlen hl] at hr
      exact (hk s hlen hl).of_reach hr
    | succ d =>
      refine ⟨⟨ty', hd, hlen⟩, hl, hsub d hkind, ?_⟩
      have ht := hs.truncate_outer vs hd ho hl
      rw [show nthBlock (f :: fs) (d + 1) = nthBlock fs d from rfl, ht] at hr
      exact hr
  | ret vals eff => exact hb
  | trap eff => exact hb
  | timeout eff => exact hb
  | stuck => exact hb

theorem nthBlock_succ (fs : List ControlFrame) (d : Nat) :
    nthBlock fs (d + 1) = nthBlock fs.tail d := by
  cases fs <;> rfl

/-- Leaving a loop: only its end leads to `code`. -/
theorem Ends.leaveLoop {k : Frame V W → Outcome V W} (hs : Setting prog returns Γ fs ls h)
    (ho : outer.length = h)
    (hb : Ends I prog returns fuel Γ fs bs ub ob start postb (vs ++ outer) out)
    (hob : ∀ seg, ob = .live seg → seg.length = ty.toList.length)
    (hsub : ∀ d, (nthBlock bs d).kind ≠ .block false → (nthBlock gs d).kind ≠ .block false)
    (hend : ub = false → postb = code)
    (hk : ∀ s : Frame V W, s.stack.length = ty.toList.length →
      s.locals.length = Γ.locals.length →
      Ends I prog returns fuel Γ fs gs u o
        ⟨code, s.stack ++ (vs ++ outer ++ s.locals.reverse), s.eff⟩ post outer
        (k { s with stack := s.stack ++ vs })) :
    Ends I prog returns fuel Γ fs gs u o start post outer (out.leaveLoop vs k) := by
  cases out with
  | normal s =>
    obtain ⟨hu, ⟨seg, hseg, hlen⟩, hl, hr⟩ := hb
    rw [hend hu] at hr
    exact (hk s (hlen.trans (hob seg hseg)) hl).of_reach hr
  | br d s =>
    obtain ⟨⟨ty', hd, hlen⟩, hl, hkind, hr⟩ := hb
    rw [hs.truncate_outer vs hd ho hl] at hr
    exact ⟨⟨ty', hd, hlen⟩, hl, hsub d hkind, hr⟩
  | ret vals eff => exact hb
  | trap eff => exact hb
  | timeout eff => exact hb
  | stuck => exact hb

/-- **The iterations of a loop**: a body that ends as its translation does, started again at
`head` by a branch to the loop's label. -/
theorem Ends.iterate (f : ControlFrame) {body : Frame V W → Outcome V W}
    (head : Frame V W → State V W) {n : Nat}
    (hn : n ≤ fuel) (heff : ∀ s, (head s).eff = s.eff)
    (hbody : ∀ s : Frame V W, s.locals.length = Γ.locals.length →
      Ends I prog returns fuel (Γ.enter none) (f :: fs) bs ub ob (head s) postb outer
        (body { s with stack := [] }))
    (hlabel : ∀ s : Frame V W, s.stack = [] → s.locals.length = Γ.locals.length →
      jump prog returns f.brTarget
        (s.stack ++ truncate f.arguments (outer ++ s.locals.reverse)) s.eff = .running (head s))
    (s : Frame V W) (hl : s.locals.length = Γ.locals.length) :
    Ends I prog returns n Γ fs bs.tail ub ob (head s) postb outer (Outcome.iterate body n s) := by
  induction n generalizing s with
  | zero => exact ⟨head s, heff s, reach_refl _⟩
  | succ n ih =>
    have hb := hbody s hl
    rw [Outcome.iterate]
    cases hout : body { s with stack := [] } with
    | normal s' =>
      rw [hout] at hb
      exact hb
    | br d s' =>
      rw [hout] at hb
      obtain ⟨⟨ty', hd, hlen⟩, hl', hkind, hr⟩ := hb
      cases d with
      | zero =>
        cases hd
        rw [nthBlock_zero, hlabel s' (List.eq_nil_of_length_eq_zero hlen) hl'] at hr
        have := (ih (Nat.le_of_succ_le hn) s' hl').of_reach_add hr
        rw [Nat.add_comm] at this
        exact this
      | succ d =>
        rw [nthBlock_succ] at hkind
        exact ⟨⟨ty', hd, hlen⟩, hl', hkind, hr⟩
    | ret vals eff =>
      rw [hout] at hb
      exact hb
    | trap eff =>
      rw [hout] at hb
      exact hb
    | timeout eff =>
      rw [hout] at hb
      obtain ⟨s', hs', hr⟩ := hb
      exact ⟨s', hs', hr.mono hn⟩
    | stuck =>
      rw [hout] at hb
      exact hb

theorem nthBlock_markNth (fs : List ControlFrame) (d : Nat) :
    (nthBlock (Conv.markNth fs d) d).kind ≠ .block false := by
  induction fs generalizing d with
  | nil => simp [Conv.markNth, nthBlock, default]
  | cons f fs ih =>
    cases d with
    | zero =>
      change f.markBranchedTo.kind ≠ .block false
      rcases f with ⟨id, a, r, _ | _ | _ | _⟩ <;> simp [ControlFrame.markBranchedTo]
    | succ d => exact ih d

theorem nthBlock_kind_of_marks {fs gs : List ControlFrame} (hm : FramesMark fs gs) {d : Nat}
    (hk : (nthBlock fs d).kind ≠ .block false) : (nthBlock gs d).kind ≠ .block false :=
  Marks.not_unmarked (hm.nthBlock d) hk

theorem nthBlock_foldl {ds : List Nat} {d : Nat} (hd : d ∈ ds) (fs : List ControlFrame) :
    (nthBlock (ds.foldl Conv.markNth fs) d).kind ≠ .block false := by
  induction ds generalizing fs with
  | nil => cases hd
  | cons d' ds ih =>
    rcases List.mem_cons.mp hd with rfl | hd
    · exact nthBlock_kind_of_marks (framesMark_foldl ds _) (nthBlock_markNth fs d)
    · exact ih hd _

/-- A branch that is taken. -/
theorem Setting.branch (hs : Setting prog returns Γ fs ls h) {d : Nat}
    (hd : Γ.labels[d]? = some ty) {stack : List SignlessType} {locals : List V}
    {eff : Effects V W} (hlen : stack.length = (vs ++ (outer ++ locals.reverse)).length)
    (hl : locals.length = Γ.locals.length) (ho : outer.length = h)
    (hty : ty.toList.length ≤ vs.length) (hclean : edgeClean ls (vs.length + h) d = true)
    (hmark : (nthBlock gs d).kind ≠ .block false)
    (hr : Reach I prog returns 1 start (jump prog returns (nthBlock fs d).brTarget
      (Microwasm.dropOpt (toDrop stack (nthBlock fs d)) (vs ++ (outer ++ locals.reverse))) eff)) :
    Ends I prog returns fuel Γ fs gs u o start post outer (branchOut Γ d ⟨locals, vs, eff⟩) := by
  rw [hs.dropOpt hd hlen hl ho hty hclean] at hr
  simp only [branchOut, hd, hty, if_true]
  exact ⟨⟨ty, hd, by simp [hty]⟩, hl, hmark, hr⟩

/-- **An unconditional branch and its translation.** -/
theorem Jump.simulates {j : Jump} {seg up : List SignlessType} {locals : List V}
    (hs : Setting prog returns Γ fs ls h) (hc : j.check Γ (.live seg) = true)
    (hclean : j.clean ls (seg.length + h) = true) (eff : Effects V W)
    (hl : locals.length = Γ.locals.length) (hv : vs.length = seg.length)
    (hup : up.length = h) (ho : outer.length = h) :
    Ends I prog returns fuel Γ fs (j.marks.foldl Conv.markNth fs) true o
      ⟨j.emit fs (seg ++ (up ++ Γ.locals.reverse)) ++ post, vs ++ (outer ++ locals.reverse), eff⟩
      post outer (j.eval I Γ ⟨locals, vs, eff⟩) := by
  have hlen : (seg ++ (up ++ Γ.locals.reverse)).length =
      (vs ++ (outer ++ locals.reverse)).length := by simp [hl, hv, hup, ho]
  cases j with
  | unreachable => exact (Reach.of_step rfl).mono (Nat.zero_le _)
  | br d =>
    obtain ⟨ty, hd, hpop⟩ := (Option.any_eq_true _ _).mp hc
    obtain ⟨o', hpop⟩ := Option.isSome_iff_exists.mp hpop
    obtain ⟨ws, rfl, -⟩ := Opds.popOpt_live hpop
    refine hs.branch hd hlen hl ho (by simp [hv]) (by rw [hv]; exact hclean)
      (nthBlock_foldl (by simp [Jump.marks]) fs) ?_
    exact reach_jumpTo _ _ post eff hlen
  | brTable ts d =>
    simp only [Jump.check] at hc
    split at hc
    · next o' ty ho' hd =>
      obtain ⟨ws, rfl, rfl⟩ := Opds.pop_live ho'
      obtain ⟨hpop, hts⟩ := Bool.and_eq_true_iff.mp hc
      obtain ⟨o', hpop⟩ := Option.isSome_iff_exists.mp hpop
      obtain ⟨ws', rfl, -⟩ := Opds.popOpt_live hpop
      obtain ⟨v, vs, rfl⟩ := List.exists_cons_of_length_eq_add_one hv
      have hv := Nat.succ.inj hv
      have hlen := Nat.succ.inj hlen
      obtain ⟨hcts, hcd⟩ := Bool.and_eq_true_iff.mp hclean
      -- The entry taken is one of the table's or the default.
      have hmem : ts.getD (I.index v) d ∈ ts ++ [d] := by
        rw [List.getD_eq_getElem?_getD]
        cases hi : ts[I.index v]? with
        | none => simp
        | some t => simp [List.mem_of_getElem? hi]
      have hlabel : Γ.labels[ts.getD (I.index v) d]? = some ty := by
        rcases List.mem_append.mp hmem with hm | hm
        · exact eq_of_beq (List.all_eq_true.mp hts _ hm)
        · rw [List.mem_singleton.mp hm]
          exact hd
      have hedge : edgeClean ls (vs.length + h) (ts.getD (I.index v) d) = true := by
        have hh : vs.length + h = (I32 :: (ty.toList ++ ws')).length + h - 1 := by
          simp only [hv, List.length_cons]
          omega
        rw [hh]
        rcases List.mem_append.mp hmem with hm | hm
        · exact List.all_eq_true.mp hcts _ hm
        · rw [List.mem_singleton.mp hm]
          exact hcd
      refine hs.branch hlabel hlen hl ho (by simp [hv]) hedge (nthBlock_foldl hmem fs)
        (Reach.of_step ?_)
      simp only [Jump.emit, step, List.cons_append, List.nil_append, jumpDrop]
      rw [List.getD_map]
      rfl
    · cases hc
  | return_ =>
    obtain ⟨o', hpop⟩ := Option.isSome_iff_exists.mp hc
    obtain ⟨ws, rfl, -⟩ := Opds.popOpt_live hpop
    have hle : Γ.returns.toList.length ≤ vs.length := by simp [hv]
    have hfits : Fits Γ.locals.length Γ.returns
        ⟨0, Γ.locals.length, Γ.returns.toList, .function⟩ ⟨false, 0⟩ :=
      ⟨rfl, (Nat.zero_add _).symm, fun _ => rfl⟩
    have hdrop := dropOpt_toDrop hfits hlen (by simp; omega) (by simp)
    have hjump : jump prog returns (fs.getLastD default).brTarget
        (Microwasm.dropOpt (toDrop (Γ.returns.toList ++ ws ++ (up ++ Γ.locals.reverse))
          (fs.getLastD default)) (vs ++ (outer ++ locals.reverse))) eff =
        .returned (vs.take Γ.returns.toList.length) eff := by
      rw [hs.root, hdrop, List.take_append_of_le_length hle]
      simp [ControlFrame.brTarget, jump, ← hs.returns, hle]
    simp only [Jump.eval, hle, if_true]
    refine Reach.mono ?_ (Nat.zero_le 1)
    rw [← hjump]
    exact reach_jumpTo _ _ post eff hlen

end Ends

/-- The heights of `clean` are those of validation. -/
theorem Simple.height_eq {Γ : Context} {i : Simple} {seg seg' : List SignlessType}
    (h : i.check Γ (.live seg) = some (.live seg')) (n : Nat) :
    i.height Γ.module (seg.length + n) = seg'.length + n := by
  cases i with
  | nop =>
    cases h
    rfl
  | drop =>
    obtain ⟨⟨t, o'⟩, ho, hs⟩ := Option.map_eq_some_iff.mp h
    obtain ⟨t', ws, rfl, rfl, rfl⟩ := Opds.popAny_live ho
    cases hs
    simp only [Simple.height, List.length_cons]
    omega
  | select =>
    obtain ⟨o₁, h₁, h⟩ := Option.bind_eq_some_iff.mp h
    obtain ⟨ws, rfl, rfl⟩ := Opds.pop_live h₁
    obtain ⟨⟨t₂, o₂⟩, h₂, h⟩ := Option.bind_eq_some_iff.mp h
    obtain ⟨a, ws', rfl, rfl, rfl⟩ := Opds.popAny_live h₂
    obtain ⟨⟨t₃, o₃⟩, h₃, h⟩ := Option.bind_eq_some_iff.mp h
    obtain ⟨b, ws'', rfl, rfl, rfl⟩ := Opds.popAny_live h₃
    obtain ⟨t, ht, h⟩ := Option.bind_eq_some_iff.mp h
    obtain ⟨rfl, rfl⟩ := Opds.join_some ht
    cases h
    simp only [Simple.height, List.length_cons, Option.toList, List.cons_append, List.nil_append]
    omega
  | getLocal i =>
    obtain ⟨t, ht, h⟩ := Option.bind_eq_some_iff.mp h
    cases h
    simp only [Simple.height, List.length_cons]
    omega
  | setLocal i =>
    obtain ⟨t, ht, h⟩ := Option.bind_eq_some_iff.mp h
    obtain ⟨ws, rfl, ho⟩ := Opds.pop_live h
    cases ho
    simp only [Simple.height, List.length_cons]
    omega
  | teeLocal i =>
    obtain ⟨t, ht, h⟩ := Option.bind_eq_some_iff.mp h
    obtain ⟨o', h', h⟩ := Option.bind_eq_some_iff.mp h
    obtain ⟨ws, rfl, rfl⟩ := Opds.pop_live h'
    cases h
    rfl
  | plain p =>
    obtain ⟨o', h', h⟩ := Option.bind_eq_some_iff.mp h
    obtain ⟨ws, rfl, rfl⟩ := Opds.popAll_live h'
    rw [Opds.pushOpt_live] at h
    cases h
    simp only [Simple.height, List.length_append, List.length_reverse]
    omega

/-! ## The simulation -/

section Equations

variable {m : ModuleContext} {V W : Type} (I : Interp m V W) (prog : List OperatorFromWasm)
  (returns : BlockType) (fuel : Nat) (Γ : Context) (locals vs : List V) (v : V)
  (eff : Effects V W) (code : List OperatorFromWasm)

theorem step_block (l : WasmLabel) (ps : List SignlessType) (back : Bool) (n : Option Nat) :
    step I prog returns ⟨.block l ps back n :: code, vs, eff⟩ = .running ⟨code, vs, eff⟩ := rfl

theorem step_br (target : BrTarget WasmLabel) :
    step I prog returns ⟨.br target :: code, vs, eff⟩ = jump prog returns target vs eff := rfl

theorem step_brIf (then_ else_ : BrTargetDrop WasmLabel) :
    step I prog returns ⟨.brIf then_ else_ :: code, v :: vs, eff⟩ =
      jumpDrop prog returns (if I.truthy v then then_ else else_) vs eff := rfl

theorem jumpDrop_keep (target : BrTarget WasmLabel) :
    jumpDrop prog returns target.keep vs eff = jump prog returns target vs eff := rfl

theorem eval_brIf (d : Nat) (rest : Code) :
    (Code.brIf d rest).eval I fuel Γ ⟨locals, v :: vs, eff⟩ =
      if I.truthy v then branchOut Γ d ⟨locals, vs, eff⟩
      else rest.eval I fuel Γ ⟨locals, vs, eff⟩ := rfl

theorem eval_ifThen (ty : BlockType) (then_ rest : Code) :
    (Code.ifThen ty then_ rest).eval I fuel Γ ⟨locals, v :: vs, eff⟩ =
      if I.truthy v then
        (then_.eval I fuel (Γ.enter ty) ⟨locals, [], eff⟩).leave vs (rest.eval I fuel Γ)
      else rest.eval I fuel Γ ⟨locals, vs, eff⟩ := rfl

theorem eval_ifElse (ty : BlockType) (then_ else_ rest : Code) :
    (Code.ifElse ty then_ else_ rest).eval I fuel Γ ⟨locals, v :: vs, eff⟩ =
      if I.truthy v then
        (then_.eval I fuel (Γ.enter ty) ⟨locals, [], eff⟩).leave vs (rest.eval I fuel Γ)
      else (else_.eval I fuel (Γ.enter ty) ⟨locals, [], eff⟩).leave vs (rest.eval I fuel Γ) := rfl

end Equations

section Simulation

variable {m : ModuleContext} {V W : Type}

/-- A sequence and its translation end alike, wherever the translation stands in the program. -/
def Code.Simulated (I : Interp m V W) (prog : List OperatorFromWasm) (returns : BlockType)
    (fuel : Nat) (c : Code) : Prop :=
  ∀ (Γ : Context) (fs : List ControlFrame) (ls : List LabelInfo) (h id : Nat)
    (seg up : List SignlessType) (o : Opds) (pre post : List OperatorFromWasm)
    (locals vs outer : List V) (eff : Effects V W),
    Γ.module = m → Setting prog returns Γ fs ls h → fs ≠ [] →
    c.check Γ (.live seg) = some o → c.clean m ls (seg.length + h) = true →
    prog = pre ++ ((c.emit m fs id (seg ++ (up ++ Γ.locals.reverse))).ops ++ post) →
    up.length = h → locals.length = Γ.locals.length → vs.length = seg.length →
    outer.length = h →
    Ends I prog returns fuel Γ fs (c.emit m fs id (seg ++ (up ++ Γ.locals.reverse))).frames
      (c.emit m fs id (seg ++ (up ++ Γ.locals.reverse))).unreachable o
      ⟨(c.emit m fs id (seg ++ (up ++ Γ.locals.reverse))).ops ++ post,
        vs ++ (outer ++ locals.reverse), eff⟩
      post outer (c.eval I fuel Γ ⟨locals, vs, eff⟩)

variable {I : Interp m V W} {prog : List OperatorFromWasm} {returns : BlockType} {fuel : Nat}

theorem simulated_nil : Code.Simulated I prog returns fuel .nil := by
  intro Γ fs ls h id seg up o pre post locals vs outer eff hm hs hfs hc hclean hp hup hl hv ho
  cases hc
  exact ⟨rfl, ⟨seg, rfl, hv⟩, hl, reach_refl _⟩

theorem simulated_simple {i : Simple} {rest : Code}
    (ih : rest.Simulated I prog returns fuel) :
    Code.Simulated I prog returns fuel (.simple i rest) := by
  intro Γ fs ls h id seg up o pre post locals vs outer eff hm hs hfs hc hclean hp hup hl hv ho
  obtain ⟨o', hi, hc⟩ := Option.bind_eq_some_iff.mp hc
  obtain ⟨seg', rfl, hst, -⟩ := Simple.next_eq up hi
  have hh := Simple.height_eq hi h
  rw [hm] at hst hh
  have hlen : (seg ++ (up ++ Γ.locals.reverse)).length =
      (vs ++ (outer ++ locals.reverse)).length := by simp [hl, hv, hup, ho]
  have hsim := Simple.simulates I prog returns hm hi
    ((rest.emit m fs id (seg' ++ (up ++ Γ.locals.reverse))).ops ++ post) outer eff hl hv
  simp only [Code.emit, Emitted.prepend, hst, hlen, List.append_assoc] at hp ⊢
  simp only [Code.clean, hh] at hclean
  rw [Code.eval]
  cases hout : i.eval I ⟨locals, vs, eff⟩ with
  | normal s =>
    rw [hout] at hsim
    obtain ⟨hv', hl', hr⟩ := hsim
    have := ih Γ fs ls h id seg' up o (pre ++ i.emit (vs ++ (outer ++ locals.reverse)).length) post
      s.locals s.stack outer s.eff hm hs hfs hc hclean (by rw [hp]; simp) hup hl' hv' ho
    exact this.of_reach hr
  | trap eff' =>
    rw [hout] at hsim
    exact hsim
  | br d s => rw [hout] at hsim; exact hsim.elim
  | ret vals eff' => rw [hout] at hsim; exact hsim.elim
  | timeout eff' => rw [hout] at hsim; exact hsim.elim
  | stuck => rw [hout] at hsim; exact hsim.elim

/-- A jump to a label that the translation itself declares and defines. -/
theorem Setting.jump_own {Γ : Context} {fs : List ControlFrame} {ls : List LabelInfo} {h : Nat}
    (hs : Setting prog returns Γ fs ls h) {l : WasmLabel} {ps : List SignlessType} {back : Bool}
    {n : Option Nat} {a b code : List OperatorFromWasm}
    (hblock : prog = a ++ .block l ps back n :: b) (a' : List OperatorFromWasm)
    (hlabel : prog = a' ++ .label l :: code)
    {stack : List V} (eff : Effects V W) (hlen : ps.length = stack.length) :
    jump prog returns (.label l) stack eff = .running ⟨code, stack, eff⟩ :=
  jump_label (params_eq (hs.disciplined l) hblock) (after_eq (hs.disciplined l) hlabel) hlen

theorem simulated_brIf {d : Nat} {rest : Code} (ih : rest.Simulated I prog returns fuel) :
    Code.Simulated I prog returns fuel (.brIf d rest) := by
  intro Γ fs ls h id seg up o pre post locals vs outer eff hm hs hfs hc hclean hp hup hl hv ho
  obtain ⟨o₁, h₁, hc⟩ := Option.bind_eq_some_iff.mp hc
  obtain ⟨ws, rfl, rfl⟩ := Opds.pop_live h₁
  obtain ⟨ty, hd, hc⟩ := Option.bind_eq_some_iff.mp hc
  obtain ⟨o₂, h₂, hc⟩ := Option.bind_eq_some_iff.mp hc
  obtain ⟨ws', hws, rfl⟩ := Opds.popOpt_live h₂
  rw [Opds.pushOpt_live, ← hws] at hc
  obtain ⟨v, vs, rfl⟩ := List.exists_cons_of_length_eq_add_one hv
  have hv : vs.length = ws.length := Nat.succ.inj hv
  have hty : ty.toList.length ≤ vs.length := by simp [hv, hws]
  have hlen : (ws ++ (up ++ Γ.locals.reverse)).length =
      (vs ++ (outer ++ locals.reverse)).length := by simp [hl, hv, hup, ho]
  have hh : (I32 :: ws).length + h - 1 = ws.length + h := by
    simp only [List.length_cons]
    omega
  simp only [Code.clean, hh, Bool.and_eq_true] at hclean
  simp only [Code.emit, Emitted.prepend, List.cons_append, List.tail_cons, List.nil_append] at hp ⊢
  have hmark := framesMark_markNth fs d
  have hm' := rest.emit_frames m (Conv.markNth fs d) (id + 1) (ws ++ (up ++ Γ.locals.reverse))
  refine Ends.of_step (step_block ..) ?_
  rw [eval_brIf]
  by_cases ht : I.truthy v = true
  · rw [if_pos ht]
    refine hs.branch hd hlen hl ho hty (by rw [hv]; exact hclean.1)
      (nthBlock_kind_of_marks hm' (nthBlock_markNth fs d)) (Reach.of_step ?_)
    rw [step_brIf, if_pos ht]
    rfl
  · rw [if_neg ht]
    have hafter : prog = (pre ++ [.callOnce (ws ++ (up ++ Γ.locals.reverse)) (id, .header),
        .brIf (branchTo fs (ws ++ (up ++ Γ.locals.reverse)) d)
          (BrTarget.label (id, .header)).keep]) ++
        .label (id, .header) :: ((rest.emit m (Conv.markNth fs d) (id + 1)
          (ws ++ (up ++ Γ.locals.reverse))).ops ++ post) := by
      rw [hp]
      simp
    have hjump := hs.jump_own hp _ hafter eff hlen
    have hrest := ih Γ (Conv.markNth fs d) ls h (id + 1) ws up o _ post locals vs outer
      eff hm (hs.of_marks hmark) (by simpa [Conv.markNth] using hfs) hc hclean.2
      (hafter.trans (List.append_cons _ _ _)) hup hl hv ho
    refine Ends.of_step ?_ (hrest.of_marks hmark)
    rw [step_brIf, if_neg ht, jumpDrop_keep]
    exact hjump

/-- What follows a block, as `Ends.leave` needs it. -/
theorem Code.Simulated.after {rest : Code} (ih : rest.Simulated I prog returns fuel) {Γ : Context}
    {fs gs : List ControlFrame} {ls : List LabelInfo} {h id : Nat}
    {seg up : List SignlessType} {ty : BlockType} {o : Opds} {pre post : List OperatorFromWasm}
    {vs outer : List V} {e : Emitted} (hm : Γ.module = m) (hs : Setting prog returns Γ fs ls h)
    (hfs : fs ≠ []) (hgs : FramesMark fs gs)
    (hc : rest.check Γ (.live (ty.toList ++ seg)) = some o)
    (hclean : rest.clean m ls (ty.toList.length + (seg.length + h)) = true)
    (he : e = rest.emit m gs id (ty.toList ++ (seg ++ up ++ Γ.locals.reverse)))
    (hp : prog = pre ++ (e.ops ++ post)) (hup : up.length = h) (hv : vs.length = seg.length)
    (ho : outer.length = h) (s : Frame V W) (hty : s.stack.length = ty.toList.length)
    (hl : s.locals.length = Γ.locals.length) :
    Ends I prog returns fuel Γ fs e.frames e.unreachable o
      ⟨e.ops ++ post, s.stack ++ (vs ++ outer ++ s.locals.reverse), s.eff⟩ post outer
      (rest.eval I fuel Γ { s with stack := s.stack ++ vs }) := by
  have hassoc : ty.toList ++ (seg ++ up ++ Γ.locals.reverse) =
      ty.toList ++ seg ++ (up ++ Γ.locals.reverse) := by simp
  have hne : gs ≠ [] := by
    intro hnil
    rw [hnil] at hgs
    exact hfs (List.forall₂_nil_right_iff.mp hgs)
  rw [hassoc] at he
  subst he
  have := ih Γ gs ls h id (ty.toList ++ seg) up o pre post s.locals (s.stack ++ vs) outer s.eff hm
    (hs.of_marks hgs) hne hc (by rw [List.length_append, Nat.add_assoc]; exact hclean) hp hup hl
    (by simp [hty, hv]) ho
  rw [show s.stack ++ (vs ++ outer ++ s.locals.reverse) =
    s.stack ++ vs ++ (outer ++ s.locals.reverse) by simp]
  exact this.of_marks hgs

/-- The body of a block starts with no operands of its own. -/
theorem Code.Simulated.inner {body : Code} (ih : body.Simulated I prog returns fuel) {Γ : Context}
    {fs : List ControlFrame} {ls : List LabelInfo} {h id : Nat} {up stack : List SignlessType}
    {o : Opds} {pre post : List OperatorFromWasm} {locals : List V} (outer : List V)
    (eff : Effects V W) (hs : Setting prog returns Γ fs ls h) (hm : Γ.module = m)
    (hstack : stack = up ++ Γ.locals.reverse) (hfs : fs ≠ [])
    (hc : body.check Γ (.live []) = some o) (hclean : body.clean m ls h = true)
    (hp : prog = pre ++ ((body.emit m fs id stack).ops ++ post)) (hup : up.length = h)
    (hl : locals.length = Γ.locals.length) (ho : outer.length = h) :
    Ends I prog returns fuel Γ fs (body.emit m fs id stack).frames
      (body.emit m fs id stack).unreachable o
      ⟨(body.emit m fs id stack).ops ++ post, outer ++ locals.reverse, eff⟩ post outer
      (body.eval I fuel Γ ⟨locals, [], eff⟩) := by
  subst hstack
  exact ih Γ fs ls h id [] up o pre post locals [] outer eff hm hs hfs hc
    (by simpa using hclean) hp hup hl rfl ho

theorem live_length {ty : BlockType} {ob : Opds} (hcl : ob.closes ty = true)
    (seg : List SignlessType) (h : ob = .live seg) : seg.length = ty.toList.length := by
  subst h
  rw [Opds.closes_live hcl]

/-- Where a reachable block ends, and where a label defines its end. -/
theorem closeOps_block {g : ControlFrame} {u : Bool} (hk : ∃ b, g.kind = .block b) :
    (u = false → g.kind = .block false → closeOps g u = []) ∧
      (g.kind ≠ .block false →
        ∃ c, closeOps g u = c ++ [.label (g.id, .end_)] ∧
          (u = false → c = [.br (.label (g.id, .end_))])) := by
  obtain ⟨b, hk⟩ := hk
  constructor
  · intro hu hb
    simp [closeOps, hb, hu, ControlFrame.needsEndLabel]
  · intro hne
    have hb : b = true := by
      cases b with
      | true => rfl
      | false => exact absurd hk hne
    subst hb
    cases u with
    | true => exact ⟨[], by simp [closeOps, hk], by simp⟩
    | false =>
      exact ⟨[.br (.label (g.id, .end_))],
        by simp [closeOps, hk, ControlFrame.needsEndLabel], fun _ => rfl⟩

theorem simulated_block {ty : BlockType} {body rest : Code}
    (ihb : body.Simulated I prog returns fuel) (ihr : rest.Simulated I prog returns fuel) :
    Code.Simulated I prog returns fuel (.block ty body rest) := by
  intro Γ fs ls h id seg up o pre post locals vs outer eff hm hs hfs hc hclean hp hup hl hv ho
  obtain ⟨ob, hb, hc⟩ := Option.bind_eq_some_iff.mp hc
  split at hc
  case isFalse => cases hc
  case isTrue hcl =>
  rw [Opds.pushOpt_live] at hc
  rw [Code.clean, Bool.and_eq_true] at hclean
  rw [← List.append_assoc seg up] at hp ⊢
  obtain ⟨stack, hstack⟩ : ∃ stack, stack = seg ++ up ++ Γ.locals.reverse := ⟨_, rfl⟩
  have hlen : stack.length = seg.length + h + Γ.locals.length := by
    simp only [hstack, List.length_append, List.length_reverse, hup]
  rw [← hstack] at hp ⊢
  obtain ⟨f, hf⟩ : ∃ f : ControlFrame, f = ⟨id, stack.length, ty.toList, .block false⟩ := ⟨_, rfl⟩
  obtain ⟨b, hbe⟩ : ∃ b, b = body.emit m (f :: fs) (id + 1) stack := ⟨_, rfl⟩
  obtain ⟨r, hre⟩ : ∃ r, r = rest.emit m b.frames.tail b.id (ty.toList ++ stack) := ⟨_, rfl⟩
  have he : (Code.block ty body rest).emit m fs id stack =
      r.prepend (.endBlock (ty.toList ++ stack) (id, .end_) :: (b.ops ++ b.close)) := by
    rw [hre, hbe, hf]
    rfl
  rw [he] at hp ⊢
  simp only [Emitted.prepend, List.cons_append, List.append_assoc] at hp ⊢
  obtain ⟨hcons, hmark, htail⟩ := hbe ▸ (body.emit_frames m (f :: fs) (id + 1) stack).of_cons
  have hset : Setting prog returns (Γ.enter ty) (f :: fs) (⟨false, seg.length + h⟩ :: ls)
      (seg.length + h) := by
    refine hs.enter hfs (Nat.le_add_left _ _) (Nat.le_refl _) ?_ ?_
    · exact ⟨by rw [hf]; rfl, by rw [hf]; exact hlen, fun _ => by rw [hf]; rfl⟩
    · intro l hl'
      rw [hf] at hl' ⊢
      cases hl'
      refine ⟨_, params_eq (hs.disciplined _) hp, ?_⟩
      simp [ControlFrame.labelTypes]
  have hkind : ∃ bb, (nthBlock b.frames 0).kind = .block bb := by
    rcases hmark with hg | hg <;> rw [hg, hf] <;> exact ⟨_, rfl⟩
  have hid : (nthBlock b.frames 0).id = id := by rw [hmark.id, hf]
  obtain ⟨hopen, hclosed⟩ := @closeOps_block _ b.unreachable hkind
  have hbp : prog = (pre ++ [.endBlock (ty.toList ++ stack) (id, .end_)]) ++
      (b.ops ++ (b.close ++ (r.ops ++ post))) := by rw [hp]; simp
  have hrp : prog = (pre ++ .endBlock (ty.toList ++ stack) (id, .end_) :: (b.ops ++ b.close)) ++
      (r.ops ++ post) := by rw [hp]; simp
  have hbody := ihb.inner (vs ++ outer) eff hset hm hstack (List.cons_ne_nil _ _) hb hclean.1
    (hbe ▸ hbp) (by simp [hup]) hl (by simp [hv, ho])
  rw [← hbe, List.append_assoc vs outer] at hbody
  -- The label at the end is reached with the whole stack as its parameters.
  have hjump : (nthBlock b.frames 0).kind ≠ .block false → ∀ s : Frame V W,
      s.stack.length = ty.toList.length → s.locals.length = Γ.locals.length →
      jump prog returns (.label (id, .end_)) (s.stack ++ (vs ++ outer ++ s.locals.reverse)) s.eff =
        .running ⟨r.ops ++ post, s.stack ++ (vs ++ outer ++ s.locals.reverse), s.eff⟩ := by
    intro hne s hty hl'
    obtain ⟨c, hc', -⟩ := hclosed hne
    rw [hid] at hc'
    refine hs.jump_own hp (pre ++ .endBlock (ty.toList ++ stack) (id, .end_) :: (b.ops ++ c)) ?_
      s.eff ?_
    · rw [hp, Emitted.close, hc']
      simp
    · simp only [List.length_append, List.length_reverse, hty, hl', hv, ho, hlen]
  refine Ends.of_step (step_block ..) (Ends.leave hs ho hbody (live_length hcl) ?_ ?_ ?_
    (ihr.after hm hs hfs htail hc hclean.2 (hstack ▸ hre) hrp hup hv ho))
  · intro d hk
    rw [nthBlock_succ] at hk
    exact nthBlock_kind_of_marks (hre ▸ rest.emit_frames m _ _ _) hk
  · intro s hu hty hl'
    by_cases hk : (nthBlock b.frames 0).kind = .block false
    · rw [Emitted.close, hopen hu hk]
      exact reach_refl _
    · obtain ⟨c, hc', hbr⟩ := hclosed hk
      rw [Emitted.close, hc', hbr hu, hid]
      exact (Reach.of_step ((step_br ..).trans (hjump hk s hty hl'))).mono (Nat.zero_le 1)
  · intro hk s hty hl'
    rw [hf, truncate_all (by simp only [List.length_append, List.length_reverse, hv, ho, hl', hlen])]
    exact hjump hk s hty hl'

theorem simulated_loop {ty : BlockType} {body rest : Code}
    (ihb : body.Simulated I prog returns fuel) (ihr : rest.Simulated I prog returns fuel) :
    Code.Simulated I prog returns fuel (.loop ty body rest) := by
  intro Γ fs ls h id seg up o pre post locals vs outer eff hm hs hfs hc hclean hp hup hl hv ho
  obtain ⟨ob, hb, hc⟩ := Option.bind_eq_some_iff.mp hc
  split at hc
  case isFalse => cases hc
  case isTrue hcl =>
  rw [Opds.pushOpt_live] at hc
  rw [Code.clean, Bool.and_eq_true] at hclean
  rw [← List.append_assoc seg up] at hp ⊢
  obtain ⟨stack, hstack⟩ : ∃ stack, stack = seg ++ up ++ Γ.locals.reverse := ⟨_, rfl⟩
  have hlen : stack.length = seg.length + h + Γ.locals.length := by
    simp only [hstack, List.length_append, List.length_reverse, hup]
  rw [← hstack] at hp ⊢
  obtain ⟨f, hf⟩ : ∃ f : ControlFrame, f = ⟨id, stack.length, ty.toList, .loop⟩ := ⟨_, rfl⟩
  obtain ⟨b, hbe⟩ : ∃ b, b = body.emit m (f :: fs) (id + 1) stack := ⟨_, rfl⟩
  obtain ⟨r, hre⟩ : ∃ r, r = rest.emit m b.frames.tail b.id (ty.toList ++ stack) := ⟨_, rfl⟩
  have he : (Code.loop ty body rest).emit m fs id stack =
      r.prepend ([.loopHeader stack (id, .header), .endBlock (ty.toList ++ stack) (id, .end_),
        .br (.label (id, .header)), .label (id, .header)] ++ (b.ops ++ b.close)) := by
    rw [hre, hbe, hf]
    rfl
  rw [he] at hp ⊢
  simp only [Emitted.prepend, List.cons_append, List.nil_append, List.append_assoc] at hp ⊢
  obtain ⟨hcons, hmark, htail⟩ := hbe ▸ (body.emit_frames m (f :: fs) (id + 1) stack).of_cons
  have hset : Setting prog returns (Γ.enter none) (f :: fs) (⟨ty.isSome, seg.length + h⟩ :: ls)
      (seg.length + h) := by
    refine hs.enter hfs (Nat.le_add_left _ _) (Nat.le_refl _) ?_ ?_
    · refine ⟨by rw [hf]; rfl, by rw [hf]; exact hlen, fun hloop => ?_⟩
      have hty : ty = none := by simpa using hloop
      rw [hf, hty]
      rfl
    · intro l hl'
      rw [hf] at hl' ⊢
      cases hl'
      exact ⟨_, params_eq (hs.disciplined _) hp, (Nat.zero_add _).symm⟩
  have hg : nthBlock b.frames 0 = f := hmark.eq_of_not_block fun _ => by simp [hf]
  have hclose : b.unreachable = false → b.close = [] := by
    intro hu
    simp [Emitted.close, hg, closeOps, hu, hf, ControlFrame.needsEndLabel]
  have hafter : prog = (pre ++ [.loopHeader stack (id, .header),
      .endBlock (ty.toList ++ stack) (id, .end_), .br (.label (id, .header))]) ++
      .label (id, .header) :: (b.ops ++ (b.close ++ (r.ops ++ post))) := by rw [hp]; simp
  have hrp : prog = (pre ++ [.loopHeader stack (id, .header),
      .endBlock (ty.toList ++ stack) (id, .end_), .br (.label (id, .header)),
      .label (id, .header)] ++ (b.ops ++ b.close)) ++ (r.ops ++ post) := by rw [hp]; simp
  -- The header is reached with the operands around the loop and the locals.
  have hhead : ∀ (locals : List V) (eff : Effects V W), locals.length = Γ.locals.length →
      jump prog returns (.label (id, .header)) (vs ++ outer ++ locals.reverse) eff =
        .running ⟨b.ops ++ (b.close ++ (r.ops ++ post)), vs ++ outer ++ locals.reverse, eff⟩ := by
    intro locals eff hl'
    refine hs.jump_own hp _ hafter eff ?_
    simp only [List.length_append, List.length_reverse, hl', hv, ho, hlen]
  have hloop : Ends I prog returns fuel Γ fs b.frames.tail b.unreachable ob
      ⟨b.ops ++ (b.close ++ (r.ops ++ post)), vs ++ outer ++ locals.reverse, eff⟩
      (b.close ++ (r.ops ++ post)) (vs ++ outer)
      (Outcome.iterate (body.eval I fuel (Γ.enter none)) fuel ⟨locals, vs, eff⟩) := by
    refine Ends.iterate f (fun s => ⟨b.ops ++ (b.close ++ (r.ops ++ post)),
      vs ++ outer ++ s.locals.reverse, s.eff⟩) (Nat.le_refl _) (fun _ => rfl) ?_ ?_ _ hl
    · intro s hl'
      have hbody := ihb.inner (vs ++ outer) s.eff hset hm hstack (List.cons_ne_nil _ _) hb
        hclean.1 (hbe ▸ hafter.trans (List.append_cons _ _ _)) (by simp [hup]) hl'
        (by simp [hv, ho])
      rw [← hbe] at hbody
      exact hbody
    · intro s hnil hl'
      rw [hnil, List.nil_append, hf,
        truncate_all (by simp only [List.length_append, List.length_reverse, hv, ho, hl', hlen])]
      exact hhead s.locals s.eff hl'
  refine Ends.of_step (step_block ..) (Ends.of_step (step_block ..)
    (Ends.of_step ?_ (Ends.leaveLoop hs ho hloop (live_length hcl) ?_ ?_
      (ihr.after hm hs hfs htail hc hclean.2 (hstack ▸ hre) hrp hup hv ho))))
  · rw [step_br, ← List.append_assoc vs outer]
    exact hhead locals eff hl
  · intro d hk
    exact nthBlock_kind_of_marks (hre ▸ rest.emit_frames m _ _ _) hk
  · intro hu
    rw [hclose hu, List.nil_append]

/-- One arm of an `if`: its end and its label both lead past the `if`. -/
theorem Code.Simulated.arm {arm : Code} (ih : arm.Simulated I prog returns fuel) {Γ : Context}
    {fs gs rs : List ControlFrame} {ls : List LabelInfo} {h id id' : Nat} {x u : Bool}
    {seg up stack : List SignlessType} {ty : BlockType} {o oa : Opds} {a : Emitted}
    {a₀ b₀ a₁ code pre post posta : List OperatorFromWasm} {locals vs outer : List V}
    {eff : Effects V W} {k : Frame V W → Outcome V W}
    (hs : Setting prog returns Γ fs ls h) (hm : Γ.module = m) (hfs : fs ≠ [])
    (hgs : FramesMark fs gs) (hstack : stack = seg ++ up ++ Γ.locals.reverse)
    (hc : arm.check (Γ.enter ty) (.live []) = some oa) (hcl : oa.closes ty = true)
    (hclean : arm.clean m (⟨false, seg.length + h⟩ :: ls) (seg.length + h) = true)
    (ha : a = arm.emit m (⟨id, stack.length, ty.toList, .if_ x⟩ :: gs) id' stack)
    (hblock : prog = a₀ ++ .endBlock (ty.toList ++ stack) (id, .end_) :: b₀)
    (hlabel : prog = a₁ ++ .label (id, .end_) :: code) (hp : prog = pre ++ (a.ops ++ posta))
    (hposta : a.unreachable = false → ∃ tail, posta = .br (.label (id, .end_)) :: tail)
    (hsub : ∀ d, (nthBlock a.frames (d + 1)).kind ≠ .block false →
      (nthBlock rs d).kind ≠ .block false)
    (hup : up.length = h) (hl : locals.length = Γ.locals.length) (hv : vs.length = seg.length)
    (ho : outer.length = h)
    (hk : ∀ s : Frame V W, s.stack.length = ty.toList.length →
      s.locals.length = Γ.locals.length →
      Ends I prog returns fuel Γ fs rs u o
        ⟨code, s.stack ++ (vs ++ outer ++ s.locals.reverse), s.eff⟩ post outer
        (k { s with stack := s.stack ++ vs })) :
    Ends I prog returns fuel Γ fs rs u o
      ⟨a.ops ++ posta, vs ++ outer ++ locals.reverse, eff⟩ post outer
      ((arm.eval I fuel (Γ.enter ty) ⟨locals, [], eff⟩).leave vs k) := by
  have hlen : stack.length = seg.length + h + Γ.locals.length := by
    simp only [hstack, List.length_append, List.length_reverse, hup]
  have hne : gs ≠ [] := by
    intro hnil
    rw [hnil] at hgs
    exact hfs (List.forall₂_nil_right_iff.mp hgs)
  obtain ⟨f, hf⟩ : ∃ f : ControlFrame, f = ⟨id, stack.length, ty.toList, .if_ x⟩ := ⟨_, rfl⟩
  rw [← hf] at ha
  have hset : Setting prog returns (Γ.enter ty) (f :: gs) (⟨false, seg.length + h⟩ :: ls)
      (seg.length + h) := by
    refine (hs.of_marks hgs).enter hne (Nat.le_add_left _ _) (Nat.le_refl _) ?_ ?_
    · exact ⟨by rw [hf]; rfl, by rw [hf]; exact hlen, fun _ => by rw [hf]; rfl⟩
    · intro l hl'
      rw [hf] at hl' ⊢
      cases hl'
      refine ⟨_, params_eq (hs.disciplined _) hblock, ?_⟩
      simp [ControlFrame.labelTypes]
  have hbody := ih.inner (vs ++ outer) eff hset hm hstack (List.cons_ne_nil _ _) hc hclean
    (ha ▸ hp) (by simp [hup]) hl (by simp [hv, ho])
  rw [← ha] at hbody
  have hjump : ∀ s : Frame V W, s.stack.length = ty.toList.length →
      s.locals.length = Γ.locals.length →
      Microwasm.jump prog returns (.label (id, .end_))
          (s.stack ++ (vs ++ outer ++ s.locals.reverse)) s.eff =
        Status.running ⟨code, s.stack ++ (vs ++ outer ++ s.locals.reverse), s.eff⟩ := by
    intro s hty hl'
    refine hs.jump_own hblock _ hlabel s.eff ?_
    simp only [List.length_append, List.length_reverse, hty, hl', hv, ho, hlen]
  refine Ends.leave hs ho (hbody.of_marks (.cons (.refl f) hgs)) (live_length hcl) hsub ?_ ?_ hk
  · intro s hu hty hl'
    obtain ⟨tail, ht⟩ := hposta hu
    rw [ht]
    exact (Reach.of_step ((step_br ..).trans (hjump s hty hl'))).mono (Nat.zero_le 1)
  · intro _ s hty hl'
    rw [hf, truncate_all (by simp only [List.length_append, List.length_reverse, hv, ho, hl', hlen])]
    exact hjump s hty hl'

/-- The operators of an `if` before its first arm. -/
def ifOps (ty : BlockType) (stack : List SignlessType) (id : Nat) : List OperatorFromWasm :=
  [.callOnce stack (id, .header), .callOnce stack (id, .else_),
    .endBlock (ty.toList ++ stack) (id, .end_),
    .brIf (BrTarget.label (id, .header)).keep (BrTarget.label (id, .else_)).keep,
    .label (id, .header)]

/-- Up to the first operator of the arm that the condition chooses. -/
theorem Setting.reach_arm {Γ : Context} {fs : List ControlFrame} {ls : List LabelInfo} {h : Nat}
    (hs : Setting prog returns Γ fs ls h) {ty : BlockType} {stack : List SignlessType} {id : Nat}
    {pre thens mid elses : List OperatorFromWasm}
    (hp : prog = pre ++ (ifOps ty stack id ++ thens))
    (hthens : thens = mid ++ .label (id, .else_) :: elses) (v : V) {vals : List V}
    (eff : Effects V W) (hlen : stack.length = vals.length) :
    Reach I prog returns 0 ⟨ifOps ty stack id ++ thens, v :: vals, eff⟩
      (.running ⟨if I.truthy v then thens else elses, vals, eff⟩) := by
  have hhead : prog = pre ++ .callOnce stack (id, .header) :: (.callOnce stack (id, .else_) ::
      .endBlock (ty.toList ++ stack) (id, .end_) ::
      .brIf (BrTarget.label (id, .header)).keep (BrTarget.label (id, .else_)).keep ::
      .label (id, .header) :: thens) := hp
  have helse : prog = (pre ++ [.callOnce stack (id, .header)]) ++
      .callOnce stack (id, .else_) :: (.endBlock (ty.toList ++ stack) (id, .end_) ::
      .brIf (BrTarget.label (id, .header)).keep (BrTarget.label (id, .else_)).keep ::
      .label (id, .header) :: thens) := by rw [hhead]; simp
  have hlabel : prog = (pre ++ [.callOnce stack (id, .header), .callOnce stack (id, .else_),
      .endBlock (ty.toList ++ stack) (id, .end_),
      .brIf (BrTarget.label (id, .header)).keep (BrTarget.label (id, .else_)).keep]) ++
      .label (id, .header) :: thens := by rw [hhead]; simp
  have helse' : prog = (pre ++ (ifOps ty stack id ++ mid)) ++ .label (id, .else_) :: elses := by
    rw [hp, hthens]
    simp
  refine Reach.mono (.step_then (step_block ..) (.step_then (step_block ..)
    (.step_then (step_block ..) (.of_step ((step_brIf ..).trans ?_))))) (Nat.zero_le 1)
  by_cases ht : I.truthy v = true
  · rw [if_pos ht, if_pos ht, jumpDrop_keep]
    exact hs.jump_own hhead _ hlabel eff hlen
  · rw [if_neg ht, if_neg ht, jumpDrop_keep]
    exact hs.jump_own helse _ helse' eff hlen

theorem simulated_ifThen {ty : BlockType} {then_ rest : Code}
    (ihb : then_.Simulated I prog returns fuel) (ihr : rest.Simulated I prog returns fuel) :
    Code.Simulated I prog returns fuel (.ifThen ty then_ rest) := by
  intro Γ fs ls h id seg up o pre post locals vs outer eff hm hs hfs hc hclean hp hup hl hv ho
  obtain ⟨o₁, h₁, hc⟩ := Option.bind_eq_some_iff.mp hc
  obtain ⟨ws, rfl, rfl⟩ := Opds.pop_live h₁
  obtain ⟨ob, hb, hc⟩ := Option.bind_eq_some_iff.mp hc
  split at hc
  case isFalse => cases hc
  case isTrue hcl =>
  obtain ⟨hty, hcl⟩ := hcl
  rw [Opds.pushOpt_live] at hc
  obtain ⟨v, vs, rfl⟩ := List.exists_cons_of_length_eq_add_one hv
  have hv : vs.length = ws.length := Nat.succ.inj hv
  have hh : (I32 :: ws).length + h - 1 = ws.length + h := by
    simp only [List.length_cons]
    omega
  simp only [Code.clean, hh, Bool.and_eq_true] at hclean
  rw [List.cons_append, ← List.append_assoc ws up] at hp ⊢
  obtain ⟨stack, hstack⟩ : ∃ stack, stack = ws ++ up ++ Γ.locals.reverse := ⟨_, rfl⟩
  have hlen : stack.length = ws.length + h + Γ.locals.length := by
    simp only [hstack, List.length_append, List.length_reverse, hup]
  rw [← hstack] at hp ⊢
  obtain ⟨b, hbe⟩ : ∃ b, b = then_.emit m (⟨id, stack.length, ty.toList, .if_ false⟩ :: fs)
      (id + 1) stack := ⟨_, rfl⟩
  obtain ⟨r, hre⟩ : ∃ r, r = rest.emit m b.frames.tail b.id (ty.toList ++ stack) := ⟨_, rfl⟩
  have he : (Code.ifThen ty then_ rest).emit m fs id (I32 :: stack) =
      r.prepend (ifOps ty stack id ++ (b.ops ++ b.close)) := by
    rw [hre, hbe]
    rfl
  rw [he] at hp ⊢
  obtain ⟨hcons, hmark, htail⟩ := hbe ▸ (then_.emit_frames m
    (⟨id, stack.length, ty.toList, .if_ false⟩ :: fs) (id + 1) stack).of_cons
  have hg := hmark.eq_of_not_block fun _ => by simp
  have hclose : b.close = elseOps id b.unreachable ++
      [.br (.label (id, .end_)), .label (id, .end_)] := by
    rw [Emitted.close, hg]
    exact closeOps_then rfl
  simp only [Emitted.prepend, List.append_assoc] at hp ⊢
  have hend : prog = (pre ++ (ifOps ty stack id ++ (b.ops ++ (elseOps id b.unreachable ++
      [.br (.label (id, .end_))])))) ++ .label (id, .end_) :: (r.ops ++ post) := by
    rw [hp, hclose]
    simp
  have hblock : prog = (pre ++ [.callOnce stack (id, .header), .callOnce stack (id, .else_)]) ++
      .endBlock (ty.toList ++ stack) (id, .end_) ::
      (.brIf (BrTarget.label (id, .header)).keep (BrTarget.label (id, .else_)).keep ::
      .label (id, .header) :: (b.ops ++ (b.close ++ (r.ops ++ post)))) := by
    rw [hp]
    simp [ifOps]
  have hbp : prog = (pre ++ ifOps ty stack id) ++ (b.ops ++ (b.close ++ (r.ops ++ post))) := by
    rw [hp]
    simp
  have hrest := fun s : Frame V W => ihr.after hm hs hfs htail hc hclean.2 (hstack ▸ hre)
    (hend.trans (List.append_cons _ _ _)) hup hv ho s
  have hthens : b.ops ++ (b.close ++ (r.ops ++ post)) =
      (b.ops ++ if b.unreachable then [] else [.br (.label (id, .end_))]) ++
        .label (id, .else_) :: (.br (.label (id, .end_)) :: .label (id, .end_) ::
          (r.ops ++ post)) := by
    rw [hclose, elseOps]
    simp
  have hvals : stack.length = (vs ++ (outer ++ locals.reverse)).length := by
    simp [hlen, hl, hv, ho, Nat.add_assoc]
  rw [eval_ifThen, @List.cons_append _ v vs]
  refine Ends.of_reach (hs.reach_arm hp hthens v eff hvals) ?_
  by_cases ht : I.truthy v = true
  · rw [if_pos ht, if_pos ht, ← List.append_assoc vs outer]
    refine ihb.arm hs hm hfs (framesMark_refl fs) hstack hb hcl hclean.1 hbe hblock hend hbp ?_ ?_
      hup hl hv ho hrest
    · intro hu
      refine ⟨.label (id, .else_) :: (.br (.label (id, .end_)) :: .label (id, .end_) ::
        (r.ops ++ post)), ?_⟩
      rw [hclose, hu]
      rfl
    · intro d hk
      rw [nthBlock_succ] at hk
      exact nthBlock_kind_of_marks (hre ▸ rest.emit_frames m _ _ _) hk
  · rw [if_neg ht, if_neg ht, ← List.append_assoc vs outer]
    have hjump : jump prog returns (.label (id, .end_)) (vs ++ outer ++ locals.reverse) eff =
        .running ⟨r.ops ++ post, vs ++ outer ++ locals.reverse, eff⟩ := by
      refine hs.jump_own hblock _ hend eff ?_
      rw [hty]
      simp [hlen, hl, hv, ho, Nat.add_assoc]
    refine Ends.of_step ((step_br ..).trans hjump) ?_
    exact hrest ⟨locals, [], eff⟩ (by rw [hty]; rfl) hl

theorem simulated_ifElse {ty : BlockType} {then_ else_ rest : Code}
    (ihb : then_.Simulated I prog returns fuel) (ihc : else_.Simulated I prog returns fuel)
    (ihr : rest.Simulated I prog returns fuel) :
    Code.Simulated I prog returns fuel (.ifElse ty then_ else_ rest) := by
  intro Γ fs ls h id seg up o pre post locals vs outer eff hm hs hfs hc hclean hp hup hl hv ho
  obtain ⟨o₁, h₁, hc⟩ := Option.bind_eq_some_iff.mp hc
  obtain ⟨ws, rfl, rfl⟩ := Opds.pop_live h₁
  obtain ⟨ob, hb, hc⟩ := Option.bind_eq_some_iff.mp hc
  obtain ⟨oc, hb', hc⟩ := Option.bind_eq_some_iff.mp hc
  split at hc
  case isFalse => cases hc
  case isTrue hcl =>
  rw [Opds.pushOpt_live] at hc
  obtain ⟨v, vs, rfl⟩ := List.exists_cons_of_length_eq_add_one hv
  have hv : vs.length = ws.length := Nat.succ.inj hv
  have hh : (I32 :: ws).length + h - 1 = ws.length + h := by
    simp only [List.length_cons]
    omega
  simp only [Code.clean, hh, Bool.and_eq_true] at hclean
  rw [List.cons_append, ← List.append_assoc ws up] at hp ⊢
  obtain ⟨stack, hstack⟩ : ∃ stack, stack = ws ++ up ++ Γ.locals.reverse := ⟨_, rfl⟩
  have hlen : stack.length = ws.length + h + Γ.locals.length := by
    simp only [hstack, List.length_append, List.length_reverse, hup]
  rw [← hstack] at hp ⊢
  obtain ⟨b, hbe⟩ : ∃ b, b = then_.emit m (⟨id, stack.length, ty.toList, .if_ false⟩ :: fs)
      (id + 1) stack := ⟨_, rfl⟩
  obtain ⟨e, hee⟩ : ∃ e, e = else_.emit m b.framesElse b.id stack := ⟨_, rfl⟩
  obtain ⟨r, hre⟩ : ∃ r, r = rest.emit m e.frames.tail e.id (ty.toList ++ stack) := ⟨_, rfl⟩
  have he : (Code.ifElse ty then_ else_ rest).emit m fs id (I32 :: stack) = r.prepend
      (ifOps ty stack id ++ (b.ops ++ elseOps id b.unreachable ++ (e.ops ++ e.close))) := by
    rw [hre, hee, hbe]
    rfl
  rw [he] at hp ⊢
  obtain ⟨hcons, hmark, htail⟩ := hbe ▸ (then_.emit_frames m
    (⟨id, stack.length, ty.toList, .if_ false⟩ :: fs) (id + 1) stack).of_cons
  have hframes : b.framesElse = ⟨id, stack.length, ty.toList, .if_ true⟩ :: b.frames.tail := by
    rw [Emitted.framesElse, hmark.eq_of_not_block fun _ => by simp]
    rfl
  rw [hframes] at hee
  obtain ⟨hcons', hmark', htail'⟩ := hee ▸ (else_.emit_frames m
    (⟨id, stack.length, ty.toList, .if_ true⟩ :: b.frames.tail) b.id stack).of_cons
  have hclose : ∃ c, e.close = c ++ [.label (id, .end_)] ∧
      (e.unreachable = false → c = [.br (.label (id, .end_))]) := by
    rw [Emitted.close, hmark'.eq_of_not_block fun _ => by simp]
    cases e.unreachable with
    | true => exact ⟨[], rfl, by simp⟩
    | false => exact ⟨[.br (.label (id, .end_))], rfl, fun _ => rfl⟩
  obtain ⟨c, hclose, hbr⟩ := hclose
  simp only [Emitted.prepend, List.append_assoc] at hp ⊢
  have hend : prog = (pre ++ (ifOps ty stack id ++ (b.ops ++ (elseOps id b.unreachable ++
      (e.ops ++ c))))) ++ .label (id, .end_) :: (r.ops ++ post) := by
    rw [hp, hclose]
    simp
  have hblock : prog = (pre ++ [.callOnce stack (id, .header), .callOnce stack (id, .else_)]) ++
      .endBlock (ty.toList ++ stack) (id, .end_) ::
      (.brIf (BrTarget.label (id, .header)).keep (BrTarget.label (id, .else_)).keep ::
      .label (id, .header) :: (b.ops ++ (elseOps id b.unreachable ++
        (e.ops ++ (e.close ++ (r.ops ++ post)))))) := by
    rw [hp]
    simp [ifOps]
  have hbp : prog = (pre ++ ifOps ty stack id) ++ (b.ops ++ (elseOps id b.unreachable ++
      (e.ops ++ (e.close ++ (r.ops ++ post))))) := by
    rw [hp]
    simp
  have hep : prog = (pre ++ (ifOps ty stack id ++ (b.ops ++ elseOps id b.unreachable))) ++
      (e.ops ++ (e.close ++ (r.ops ++ post))) := by
    rw [hp]
    simp
  have hrest := fun s : Frame V W => ihr.after hm hs hfs (htail.trans htail') hc hclean.2
    (hstack ▸ hre) (hend.trans (List.append_cons _ _ _)) hup hv ho s
  have hthens : b.ops ++ (elseOps id b.unreachable ++ (e.ops ++ (e.close ++ (r.ops ++ post)))) =
      (b.ops ++ if b.unreachable then [] else [.br (.label (id, .end_))]) ++
        .label (id, .else_) :: (e.ops ++ (e.close ++ (r.ops ++ post))) := by
    rw [elseOps]
    simp
  have hvals : stack.length = (vs ++ (outer ++ locals.reverse)).length := by
    simp [hlen, hl, hv, ho, Nat.add_assoc]
  have hkind : ∀ d, (nthBlock e.frames (d + 1)).kind ≠ .block false →
      (nthBlock r.frames d).kind ≠ .block false := by
    intro d hk
    rw [nthBlock_succ] at hk
    exact nthBlock_kind_of_marks (hre ▸ rest.emit_frames m _ _ _) hk
  rw [eval_ifElse, @List.cons_append _ v vs]
  refine Ends.of_reach (hs.reach_arm hp hthens v eff hvals) ?_
  by_cases ht : I.truthy v = true
  · rw [if_pos ht, if_pos ht, ← List.append_assoc vs outer]
    refine ihb.arm hs hm hfs (framesMark_refl fs) hstack hb hcl.1 hclean.1.1 hbe hblock hend hbp ?_
      ?_ hup hl hv ho hrest
    · intro hu
      refine ⟨.label (id, .else_) :: (e.ops ++ (e.close ++ (r.ops ++ post))), ?_⟩
      rw [hu]
      rfl
    · intro d hk
      rw [nthBlock_succ] at hk
      refine hkind d ?_
      rw [nthBlock_succ]
      exact nthBlock_kind_of_marks htail' hk
  · rw [if_neg ht, if_neg ht, ← List.append_assoc vs outer]
    refine ihc.arm hs hm hfs htail hstack hb' hcl.2 hclean.1.2 hee hblock hend hep ?_ hkind
      hup hl hv ho hrest
    intro hu
    refine ⟨.label (id, .end_) :: (r.ops ++ post), ?_⟩
    rw [hclose, hbr hu]
    rfl

theorem simulated_jump {j : Jump} {rest : Code} :
    Code.Simulated I prog returns fuel (.jump j rest) := by
  intro Γ fs ls h id seg up o pre post locals vs outer eff hm hs hfs hc hclean hp hup hl hv ho
  rw [Code.check] at hc
  split at hc
  case isFalse => cases hc
  case isTrue hj =>
  exact Jump.simulates hs hj hclean eff hl hv hup ho

/-- **The translation of a sequence does what the sequence does.** -/
theorem Code.simulates (c : Code) : c.Simulated I prog returns fuel := by
  induction c with
  | nil => exact simulated_nil
  | simple i rest ih => exact simulated_simple ih
  | jump j rest _ => exact simulated_jump
  | brIf d rest ih => exact simulated_brIf ih
  | block ty body rest ihb ihr => exact simulated_block ihb ihr
  | loop ty body rest ihb ihr => exact simulated_loop ihb ihr
  | ifThen ty then_ rest ihb ihr => exact simulated_ifThen ihb ihr
  | ifElse ty then_ else_ rest ihb ihc ihr => exact simulated_ifElse ihb ihc ihr

end Simulation

end Wasmtime.Lightbeam
