import Wasmtime.Lightbeam.Simulation

/-!
# The stack at every branch

When the branches of a stream leave exactly the parameters of their targets. `Microwasm.flow`
types a stream forwards; for the microwasm of a valid sequence it can fail only at a branch that
`Code.clean` rejects, and it does fail there.

* `Typed` adds to `Setting` the types: the parameters of each target are the operands of its label
  on the stack below its block.
* `Setting.exactDrop_branchTo`: a branch is exact where it is clean, and only there. A branch that
  is not clean goes to a loop with a result type and keeps an element too many.

Results:
* **`Code.flows`**: the typing of a sequence goes through when the sequence is clean.
* **`edgesExact_iff`**: the edges of a validated function are exact when the function is clean.
-/

namespace Wasmtime.Lightbeam

open Microwasm
open ControlFrame (Marks)

/-! ## Targets with their types -/

/-- What the types of a target are; `base` is the stack below the current block. -/
structure TypedLabel (prog : List OperatorFromWasm) (returns : BlockType)
    (base : List SignlessType) (f : ControlFrame) (l : LabelInfo) : Prop where
  returns : f.brTarget = .ret → f.labelTypes = returns.toList
  params : ∀ {l'}, f.brTarget = .label l' →
    params l' prog = some (f.labelTypes ++ truncate f.arguments base)
  loop : l.loopResult = true → f.kind = .loop ∧ f.returns ≠ []

/-- The types of all enclosing labels. -/
def Typed (prog : List OperatorFromWasm) (returns : BlockType) (Γ : Context)
    (fs : List ControlFrame) (ls : List LabelInfo) (up : List SignlessType) : Prop :=
  ∀ d ty l, Γ.labels[d]? = some ty → ls[d]? = some l →
    TypedLabel prog returns (up ++ Γ.locals.reverse) (nthBlock fs d) l

section Typed

variable {prog : List OperatorFromWasm} {returns : BlockType} {Γ : Context}
  {fs gs : List ControlFrame} {ls : List LabelInfo} {up : List SignlessType}

theorem Typed.of_marks (ht : Typed prog returns Γ fs ls up) (hm : FramesMark fs gs) :
    Typed prog returns Γ gs ls up := by
  intro d ty l hd hl
  have hg := hm.nthBlock d
  obtain ⟨hret, hps, hloop⟩ := ht d ty l hd hl
  refine ⟨?_, ?_, ?_⟩
  · rw [hg.brTarget, hg.labelTypes]
    exact hret
  · rw [hg.brTarget, hg.labelTypes, hg.arguments]
    exact hps
  · intro hl'
    obtain ⟨hk, hne⟩ := hloop hl'
    rw [hg.returns, hg.eq_of_not_block fun b => by simp [hk]]
    exact ⟨hk, hne⟩

/-- Inside a block with the operands `seg` below it. -/
theorem Typed.enter (ht : Typed prog returns Γ fs ls up)
    (hs : Setting prog returns Γ fs ls up.length) {ty : BlockType} {f : ControlFrame}
    {l : LabelInfo} (seg : List SignlessType)
    (hf : TypedLabel prog returns (seg ++ up ++ Γ.locals.reverse) f l) :
    Typed prog returns (Γ.enter ty) (f :: fs) (l :: ls) (seg ++ up) := by
  intro d ty' l' hd hl
  cases d with
  | zero =>
    cases hl
    exact hf
  | succ d =>
    obtain ⟨hret, hps, hloop⟩ := ht d ty' l' hd hl
    refine ⟨hret, ?_, hloop⟩
    have := hs.truncate_outer seg hd rfl rfl
    intro l'' hl''
    rw [hps hl'', ← this]
    rfl

variable {d : Nat} {ty : BlockType}

/-- A branch that is not clean keeps a result of the loop, or drops nothing. -/
theorem length_dropOpt_toDrop_loop {f : ControlFrame} {stack : List SignlessType}
    (hret : f.returns ≠ []) (hlt : f.arguments < stack.length) :
    f.arguments < (dropOpt (toDrop stack f) stack).length := by
  by_cases hs : f.returns.length + f.arguments < stack.length
  · have hpos := List.length_pos_iff.mpr hret
    rw [toDrop_surplus hs]
    simp only [dropOpt, Option.elim_some, dropRange, List.length_append, List.length_take,
      List.length_drop]
    omega
  · rw [toDrop_results (by omega)]
    exact hlt

/-- **A branch is exact where it is clean**, and only there. -/
theorem Setting.exactDrop_branchTo (hs : Setting prog returns Γ fs ls up.length)
    (ht : Typed prog returns Γ fs ls up) (hd : Γ.labels[d]? = some ty) (ws : List SignlessType) :
    exact prog returns (nthBlock fs d).brTarget
        (Microwasm.dropOpt (toDrop (ty.toList ++ ws ++ (up ++ Γ.locals.reverse)) (nthBlock fs d))
          (ty.toList ++ ws ++ (up ++ Γ.locals.reverse))) =
      edgeClean ls ((ty.toList ++ ws).length + up.length) d := by
  obtain ⟨l, hl, hle, hf⟩ := hs.fits d ty hd
  obtain ⟨hret, hps, hloop⟩ := ht d ty l hd hl
  cases hclean : edgeClean ls ((ty.toList ++ ws).length + up.length) d with
  | true =>
    rw [hs.dropOpt hd rfl rfl rfl (by simp) hclean, List.take_left]
    cases htarget : (nthBlock fs d).brTarget with
    | ret =>
      rw [← hf.types, hret htarget]
      simp [exact]
    | label l' =>
      rw [← hf.types]
      simp [exact, hps htarget]
  | false =>
    have hbad : l.loopResult = true ∧ (ty.toList ++ ws).length + up.length ≠ l.height := by
      rw [edgeClean, hl] at hclean
      simpa using hclean
    obtain ⟨hk, hne⟩ := hloop hbad.1
    have htarget : (nthBlock fs d).brTarget = .label ((nthBlock fs d).id, .header) := by
      simp [ControlFrame.brTarget, hk]
    have hargs := hf.arguments
    have hlt : (nthBlock fs d).arguments <
        (ty.toList ++ ws ++ (up ++ Γ.locals.reverse)).length := by
      rw [hargs]
      simp only [List.length_append, List.length_reverse] at hbad ⊢
      omega
    have hlong := length_dropOpt_toDrop_loop hne hlt
    have hps := hps htarget
    have htypes : (nthBlock fs d).labelTypes = [] := if_pos hk
    rw [htypes, List.nil_append] at hps
    rw [htarget, exact, hps, Bool.eq_false_iff]
    intro heq
    have hlen := congrArg List.length (Option.some.inj (eq_of_beq heq))
    have hshort : (truncate (nthBlock fs d).arguments (up ++ Γ.locals.reverse)).length ≤
        (nthBlock fs d).arguments := by
      rw [truncate, List.length_drop]
      omega
    omega

end Typed

/-! ## Typing what the translation emits -/

section Flow

variable {m : ModuleContext} {prog : List OperatorFromWasm} {returns : BlockType}

/-- The stack at the end of a sequence; none where the end is unreachable. -/
def exitStack (unreachable : Bool) (stack : List SignlessType) : Option (List SignlessType) :=
  if unreachable then none else some stack

/-- `br` and `return` with their `Drop`. -/
theorem flow_jumpTo (stack : List SignlessType) (f : ControlFrame) (ops : List OperatorFromWasm) :
    flow m prog returns (jumpTo stack f ++ ops) (some stack) =
      if exact prog returns f.brTarget (dropOpt (toDrop stack f) stack) then
        flow m prog returns ops none
      else none := by
  cases hr : toDrop stack f with
  | none =>
    simp only [jumpTo, hr, dropOps, Option.toList_none, List.map_nil, List.nil_append,
      List.cons_append, flow, flowOp, dropOpt, Option.elim_none]
    by_cases h : exact prog returns f.brTarget stack = true <;> simp [h]
  | some r =>
    simp only [jumpTo, hr, dropOps, Option.toList_some, List.map_cons, List.map_nil,
      List.cons_append, List.nil_append, flow, flowOp, toDrop_last_lt hr, if_true, dropOpt,
      Option.elim_some, Option.bind_some]
    by_cases h : exact prog returns f.brTarget (dropRange r stack) = true <;> simp [h]

/-- The `else` of an `if`. -/
theorem flow_elseOps {id : Nat} {ps qs : List SignlessType} (u : Bool)
    (hend : params (id, .end_) prog = some ps) (helse : params (id, .else_) prog = some qs)
    (ops : List OperatorFromWasm) :
    flow m prog returns (elseOps id u ++ ops) (exitStack u ps) =
      flow m prog returns ops (some qs) := by
  cases u with
  | true => exact flow_label helse ops
  | false => exact (flow_br hend _).trans (flow_label helse ops)

/-- The `end` of a block, a loop or an `if` with both arms. -/
theorem flow_closeOps {g : ControlFrame} {ps : List SignlessType} (u : Bool)
    (hk : g.kind ≠ .if_ false) (hend : params (g.id, .end_) prog = some ps)
    (ops : List OperatorFromWasm) :
    flow m prog returns (closeOps g u ++ ops) (exitStack u ps) =
      flow m prog returns ops (some ps) := by
  rw [closeOps, if_neg hk]
  cases u with
  | true => exact flow_label hend ops
  | false =>
    rw [if_neg Bool.false_ne_true]
    cases g.needsEndLabel with
    | true => exact (flow_br hend _).trans (flow_label hend ops)
    | false => rfl

/-- **An instruction that falls through** is typed as validation types it. -/
theorem Simple.flows {Γ : Context} (hm : Γ.module = m) {i : Simple}
    {seg seg' : List SignlessType} (h : i.check Γ (.live seg) = some (.live seg'))
    (up : List SignlessType) (post : List OperatorFromWasm) :
    flow m prog returns (i.emit (seg ++ (up ++ Γ.locals.reverse)).length ++ post)
        (some (seg ++ (up ++ Γ.locals.reverse))) =
      flow m prog returns post (some (seg' ++ (up ++ Γ.locals.reverse))) := by
  subst hm
  cases i with
  | nop =>
    cases h
    rfl
  | drop =>
    obtain ⟨⟨t, o'⟩, ho, hs⟩ := Option.map_eq_some_iff.mp h
    obtain ⟨t', ws, rfl, rfl, rfl⟩ := Opds.popAny_live ho
    cases hs
    rfl
  | select =>
    obtain ⟨o₁, h₁, h⟩ := Option.bind_eq_some_iff.mp h
    obtain ⟨ws, rfl, rfl⟩ := Opds.pop_live h₁
    obtain ⟨⟨t₂, o₂⟩, h₂, h⟩ := Option.bind_eq_some_iff.mp h
    obtain ⟨a, ws', rfl, rfl, rfl⟩ := Opds.popAny_live h₂
    obtain ⟨⟨t₃, o₃⟩, h₃, h⟩ := Option.bind_eq_some_iff.mp h
    obtain ⟨b, ws'', rfl, rfl, rfl⟩ := Opds.popAny_live h₃
    obtain ⟨t, ht, h⟩ := Option.bind_eq_some_iff.mp h
    obtain ⟨rfl, rfl⟩ := Opds.join_some ht
    cases h
    rfl
  | getLocal i =>
    obtain ⟨t, ht, h⟩ := Option.bind_eq_some_iff.mp h
    cases h
    obtain ⟨hi, -⟩ := List.getElem?_eq_some_iff.mp ht
    have hpick := (getElem?_local hi (seg ++ up)).trans ht
    rw [List.append_assoc] at hpick
    exact flow_pick hpick post
  | setLocal i =>
    obtain ⟨t, ht, h⟩ := Option.bind_eq_some_iff.mp h
    obtain ⟨ws, rfl, ho⟩ := Opds.pop_live h
    cases ho
    have hswap := swap_local ht t (seg' ++ up)
    obtain ⟨hi, rfl⟩ := List.getElem?_eq_some_iff.mp ht
    rw [List.set_getElem_self hi, List.append_assoc] at hswap
    exact (flow_swap hswap _).trans (flow_drop ..)
  | teeLocal i =>
    obtain ⟨t, ht, h⟩ := Option.bind_eq_some_iff.mp h
    obtain ⟨o', h', h⟩ := Option.bind_eq_some_iff.mp h
    obtain ⟨ws, rfl, rfl⟩ := Opds.pop_live h'
    cases h
    have hswap := swap_local ht t (t :: ws ++ up)
    obtain ⟨hi, rfl⟩ := List.getElem?_eq_some_iff.mp ht
    rw [List.set_getElem_self hi, List.append_assoc] at hswap
    have hpick : (Γ.locals[i] :: ws ++ (up ++ Γ.locals.reverse))[0]? = some Γ.locals[i] := rfl
    exact (flow_pick hpick _).trans ((flow_swap hswap _).trans (flow_drop ..))
  | plain p =>
    obtain ⟨o', h', h⟩ := Option.bind_eq_some_iff.mp h
    obtain ⟨ws, rfl, rfl⟩ := Opds.popAll_live h'
    rw [Opds.pushOpt_live] at h
    cases h
    simp only [Simple.emit, List.cons_append, List.nil_append, flow, flowOp, meaning_toMicro]
    rw [if_pos (by simp), Option.bind_some, List.drop_append_of_le_length (by simp),
      List.drop_left' (by simp), List.append_assoc]

/-- The typing of a sequence goes through when the sequence is clean, wherever its translation
stands in the program. -/
def Code.Flows (m : ModuleContext) (prog : List OperatorFromWasm) (returns : BlockType)
    (c : Code) : Prop :=
  ∀ (Γ : Context) (fs : List ControlFrame) (ls : List LabelInfo) (id : Nat)
    (seg up : List SignlessType) (o : Opds) (pre post : List OperatorFromWasm) (e : Emitted),
    Γ.module = m → Setting prog returns Γ fs ls up.length → Typed prog returns Γ fs ls up →
    fs ≠ [] → c.check Γ (.live seg) = some o →
    e = c.emit m fs id (seg ++ (up ++ Γ.locals.reverse)) → prog = pre ++ (e.ops ++ post) →
    ∃ seg', (e.unreachable = false → o = .live seg') ∧
      flow m prog returns (e.ops ++ post) (some (seg ++ (up ++ Γ.locals.reverse))) =
        if c.clean m ls (seg.length + up.length) then
          flow m prog returns post (exitStack e.unreachable (seg' ++ (up ++ Γ.locals.reverse)))
        else none

theorem flows_nil : Code.Flows m prog returns .nil := by
  intro Γ fs ls id seg up o pre post e hm hs ht hfs hc he hp
  cases hc
  subst he
  exact ⟨seg, fun _ => rfl, rfl⟩

theorem flows_simple {i : Simple} {rest : Code} (ih : rest.Flows m prog returns) :
    Code.Flows m prog returns (.simple i rest) := by
  intro Γ fs ls id seg up o pre post e hm hs ht hfs hc he hp
  obtain ⟨o', hi, hc⟩ := Option.bind_eq_some_iff.mp hc
  obtain ⟨seg', rfl, hst, -⟩ := Simple.next_eq up hi
  have hh := Simple.height_eq hi up.length
  rw [hm] at hst hh
  obtain ⟨r, hre⟩ : ∃ r, r = rest.emit m fs id (seg' ++ (up ++ Γ.locals.reverse)) := ⟨_, rfl⟩
  simp only [Code.emit, hst, ← hre] at he
  subst he
  rw [Emitted.prepend, List.append_assoc] at hp
  obtain ⟨seg'', hlive, hflow⟩ := ih Γ fs ls id seg' up o _ post r hm hs ht hfs hc hre
    (hp.trans (List.append_assoc ..).symm)
  refine ⟨seg'', hlive, ?_⟩
  rw [Emitted.prepend, List.append_assoc, i.flows hm hi, hflow, Code.clean, hh]

/-- An unconditional branch. -/
theorem Jump.flows {Γ : Context} {fs : List ControlFrame} {ls : List LabelInfo} {j : Jump}
    {seg up : List SignlessType} (hs : Setting prog returns Γ fs ls up.length)
    (ht : Typed prog returns Γ fs ls up) (hc : j.check Γ (.live seg) = true)
    (post : List OperatorFromWasm) :
    flow m prog returns (j.emit fs (seg ++ (up ++ Γ.locals.reverse)) ++ post)
        (some (seg ++ (up ++ Γ.locals.reverse))) =
      if j.clean ls (seg.length + up.length) then flow m prog returns post none else none := by
  cases j with
  | unreachable => rfl
  | br d =>
    obtain ⟨ty, hd, hpop⟩ := (Option.any_eq_true _ _).mp hc
    obtain ⟨o', hpop⟩ := Option.isSome_iff_exists.mp hpop
    obtain ⟨ws, rfl, -⟩ := Opds.popOpt_live hpop
    rw [Jump.emit, flow_jumpTo, hs.exactDrop_branchTo ht hd ws]
    rfl
  | brTable ts d =>
    simp only [Jump.check] at hc
    split at hc
    · next o' ty ho' hd =>
      obtain ⟨ws, rfl, rfl⟩ := Opds.pop_live ho'
      obtain ⟨hpop, hts⟩ := Bool.and_eq_true_iff.mp hc
      obtain ⟨o', hpop⟩ := Option.isSome_iff_exists.mp hpop
      obtain ⟨ws', rfl, -⟩ := Opds.popOpt_live hpop
      have hedge : ∀ t ∈ ts ++ [d], exactDrop prog returns
          (branchTo fs (ty.toList ++ ws' ++ (up ++ Γ.locals.reverse)) t)
          (ty.toList ++ ws' ++ (up ++ Γ.locals.reverse)) =
            edgeClean ls ((ty.toList ++ ws').length + up.length) t := by
        intro t hmem
        refine hs.exactDrop_branchTo ht ?_ ws'
        rcases List.mem_append.mp hmem with hm | hm
        · exact eq_of_beq (List.all_eq_true.mp hts _ hm)
        · rw [List.mem_singleton.mp hm]
          exact hd
      have hall : (ts.all fun t => exactDrop prog returns
          (branchTo fs (ty.toList ++ ws' ++ (up ++ Γ.locals.reverse)) t)
          (ty.toList ++ ws' ++ (up ++ Γ.locals.reverse))) =
          ts.all fun t => edgeClean ls ((ty.toList ++ ws').length + up.length) t := by
        rw [Bool.eq_iff_iff, List.all_eq_true, List.all_eq_true]
        refine forall₂_congr fun t hm => ?_
        rw [hedge t (List.mem_append_left _ hm)]
      have hh : (I32 :: (ty.toList ++ ws')).length + up.length - 1 =
          (ty.toList ++ ws').length + up.length := by
        simp only [List.length_cons]
        omega
      simp only [Jump.emit, List.cons_append, List.nil_append, List.tail_cons, flow, flowOp,
        List.all_map, Function.comp_def, Jump.clean, hh]
      rw [hall, hedge d (by simp)]
      split <;> rfl
    · cases hc
  | return_ =>
    obtain ⟨o', hpop⟩ := Option.isSome_iff_exists.mp hc
    obtain ⟨ws, rfl, -⟩ := Opds.popOpt_live hpop
    have hfits : Fits Γ.locals.length Γ.returns
        ⟨0, Γ.locals.length, Γ.returns.toList, .function⟩ ⟨false, 0⟩ :=
      ⟨rfl, (Nat.zero_add _).symm, fun _ => rfl⟩
    rw [Jump.emit, flow_jumpTo, hs.root, dropOpt_toDrop hfits rfl (by simp; omega) (by simp),
      ← hs.returns, List.append_assoc, List.take_left]
    simp [exact, ControlFrame.brTarget, Jump.clean]

theorem flows_jump {j : Jump} {rest : Code} : Code.Flows m prog returns (.jump j rest) := by
  intro Γ fs ls id seg up o pre post e hm hs ht hfs hc he hp
  rw [Code.check] at hc
  split at hc
  case isFalse => cases hc
  case isTrue hj =>
  subst he
  exact ⟨[], by simp [Code.emit], j.flows hs ht hj post⟩

/-- Conditions met one after the other. -/
theorem ite_ite_none {α : Type} (a b : Bool) (x : Option α) :
    (if a then if b then x else none else none) = if a && b then x else none := by
  cases a <;> rfl

theorem flows_brIf {d : Nat} {rest : Code} (ih : rest.Flows m prog returns) :
    Code.Flows m prog returns (.brIf d rest) := by
  intro Γ fs ls id seg up o pre post e hm hs ht hfs hc he hp
  obtain ⟨o₁, h₁, hc⟩ := Option.bind_eq_some_iff.mp hc
  obtain ⟨ws, rfl, rfl⟩ := Opds.pop_live h₁
  obtain ⟨ty, hd, hc⟩ := Option.bind_eq_some_iff.mp hc
  obtain ⟨o₂, h₂, hc⟩ := Option.bind_eq_some_iff.mp hc
  obtain ⟨ws', rfl, rfl⟩ := Opds.popOpt_live h₂
  rw [Opds.pushOpt_live] at hc
  obtain ⟨stack, hstack⟩ : ∃ stack, stack = ty.toList ++ ws' ++ (up ++ Γ.locals.reverse) :=
    ⟨_, rfl⟩
  obtain ⟨r, hre⟩ : ∃ r, r = rest.emit m (Conv.markNth fs d) (id + 1) stack := ⟨_, rfl⟩
  simp only [Code.emit, List.cons_append, List.tail_cons] at he
  rw [← hstack, ← hre] at he
  subst he
  simp only [Emitted.prepend, List.cons_append, List.nil_append] at hp ⊢
  have hmark := framesMark_markNth fs d
  have hheader : params (id, .header) prog = some stack := params_eq (hs.disciplined _) hp
  have hedge := hs.exactDrop_branchTo ht hd ws'
  rw [← hstack] at hedge ⊢
  obtain ⟨seg', hlive, hflow⟩ := ih Γ (Conv.markNth fs d) ls (id + 1) (ty.toList ++ ws') up o
    (pre ++ [.callOnce stack (id, .header),
      .brIf (branchTo fs stack d) (BrTarget.label (id, .header)).keep, .label (id, .header)])
    post r hm (hs.of_marks hmark) (ht.of_marks hmark) (by simpa [Conv.markNth] using hfs) hc
    (hstack ▸ hre) (by rw [hp]; simp)
  refine ⟨seg', hlive, ?_⟩
  have hh : (I32 :: (ty.toList ++ ws')).length + up.length - 1 =
      (ty.toList ++ ws').length + up.length := by
    simp only [List.length_cons]
    omega
  rw [Code.clean, hh, ← ite_ite_none, ← hflow, ← hstack]
  refine (flow_block ..).trans ?_
  simp only [flow, flowOp, exactDrop_keep hheader, Bool.and_true]
  rw [show exactDrop prog returns (branchTo fs stack d) stack = _ from hedge]
  cases edgeClean ls ((ty.toList ++ ws').length + up.length) d with
  | true => exact flow_label hheader _
  | false => rfl

/-- The body of a block, a loop or an arm: at its end there are its results. -/
theorem Code.Flows.body {body : Code} (ih : body.Flows m prog returns) {Γ : Context}
    {fs : List ControlFrame} {ls : List LabelInfo} {id : Nat} {up stack : List SignlessType}
    {o : Opds} {ty : BlockType} {pre post : List OperatorFromWasm} {e : Emitted}
    (hs : Setting prog returns Γ fs ls up.length) (ht : Typed prog returns Γ fs ls up)
    (hm : Γ.module = m) (hfs : fs ≠ []) (hc : body.check Γ (.live []) = some o)
    (hcl : o.closes ty = true) (hstack : stack = up ++ Γ.locals.reverse)
    (he : e = body.emit m fs id stack) (hp : prog = pre ++ (e.ops ++ post)) :
    flow m prog returns (e.ops ++ post) (some stack) =
      if body.clean m ls up.length then
        flow m prog returns post (exitStack e.unreachable (ty.toList ++ stack))
      else none := by
  subst hstack
  obtain ⟨seg', hlive, hflow⟩ := ih Γ fs ls id [] up o pre post e hm hs ht hfs hc he hp
  rw [List.nil_append, List.length_nil, Nat.zero_add] at hflow
  rw [hflow]
  cases hu : e.unreachable with
  | true => rfl
  | false => rw [closes_of_live hcl hlive hu]

/-- What follows a block. -/
theorem Code.Flows.after {rest : Code} (ih : rest.Flows m prog returns) {Γ : Context}
    {fs gs : List ControlFrame} {ls : List LabelInfo} {id : Nat} {seg up : List SignlessType}
    {ty : BlockType} {o : Opds} {pre post : List OperatorFromWasm} {e : Emitted}
    (hs : Setting prog returns Γ fs ls up.length) (ht : Typed prog returns Γ fs ls up)
    (hm : Γ.module = m) (hfs : fs ≠ []) (hgs : FramesMark fs gs)
    (hc : rest.check Γ (.live (ty.toList ++ seg)) = some o)
    (he : e = rest.emit m gs id (ty.toList ++ (seg ++ up ++ Γ.locals.reverse)))
    (hp : prog = pre ++ (e.ops ++ post)) :
    ∃ seg', (e.unreachable = false → o = .live seg') ∧
      flow m prog returns (e.ops ++ post)
          (some (ty.toList ++ (seg ++ up ++ Γ.locals.reverse))) =
        if rest.clean m ls (ty.toList.length + (seg.length + up.length)) then
          flow m prog returns post (exitStack e.unreachable (seg' ++ (up ++ Γ.locals.reverse)))
        else none := by
  have hassoc : ty.toList ++ (seg ++ up ++ Γ.locals.reverse) =
      ty.toList ++ seg ++ (up ++ Γ.locals.reverse) := by simp
  have hne : gs ≠ [] := by
    intro hnil
    rw [hnil] at hgs
    exact hfs (List.forall₂_nil_right_iff.mp hgs)
  rw [hassoc] at he ⊢
  have := ih Γ gs ls id (ty.toList ++ seg) up o pre post e hm (hs.of_marks hgs)
    (ht.of_marks hgs) hne hc he hp
  rw [List.length_append, Nat.add_assoc] at this
  exact this

/-- Inside a block, a loop or an arm whose label is declared with the right parameters. -/
theorem Setting.inside {Γ : Context} {fs : List ControlFrame} {ls : List LabelInfo}
    {seg up : List SignlessType} (hs : Setting prog returns Γ fs ls up.length)
    (ht : Typed prog returns Γ fs ls up) (hfs : fs ≠ []) {label : BlockType} {f : ControlFrame}
    {b : Bool} {l : WasmLabel} (harguments : f.arguments = (seg ++ up ++ Γ.locals.reverse).length)
    (htypes : f.labelTypes = label.toList) (hreturns : b = false → f.returns = f.labelTypes)
    (hloop : b = true → f.kind = .loop ∧ f.returns ≠ []) (htarget : f.brTarget = .label l)
    (hparams : params l prog = some (label.toList ++ (seg ++ up ++ Γ.locals.reverse))) :
    Setting prog returns (Γ.enter label) (f :: fs) (⟨b, seg.length + up.length⟩ :: ls)
        (seg ++ up).length ∧
      Typed prog returns (Γ.enter label) (f :: fs) (⟨b, seg.length + up.length⟩ :: ls)
        (seg ++ up) := by
  constructor
  · rw [List.length_append]
    refine hs.enter hfs (Nat.le_add_left _ _) (Nat.le_refl _) ⟨htypes, ?_, hreturns⟩ ?_
    · rw [harguments]
      simp only [List.length_append, List.length_reverse]
    · intro l' hl'
      cases htarget.symm.trans hl'
      exact ⟨_, hparams, by rw [htypes, harguments, List.length_append]⟩
  · refine ht.enter hs seg ⟨fun h => ?_, fun h => ?_, hloop⟩
    · cases htarget.symm.trans h
    · cases htarget.symm.trans h
      rw [htypes, truncate_all harguments.symm]
      exact hparams

theorem flows_block {ty : BlockType} {body rest : Code} (ihb : body.Flows m prog returns)
    (ihr : rest.Flows m prog returns) : Code.Flows m prog returns (.block ty body rest) := by
  intro Γ fs ls id seg up o pre post e hm hs ht hfs hc he hp
  obtain ⟨ob, hb, hc⟩ := Option.bind_eq_some_iff.mp hc
  split at hc
  case isFalse => cases hc
  case isTrue hcl =>
  rw [Opds.pushOpt_live] at hc
  rw [← List.append_assoc seg up] at he ⊢
  obtain ⟨stack, hstack⟩ : ∃ stack, stack = seg ++ up ++ Γ.locals.reverse := ⟨_, rfl⟩
  rw [← hstack] at he ⊢
  obtain ⟨f, hf⟩ : ∃ f : ControlFrame, f = ⟨id, stack.length, ty.toList, .block false⟩ := ⟨_, rfl⟩
  obtain ⟨b, hbe⟩ : ∃ b, b = body.emit m (f :: fs) (id + 1) stack := ⟨_, rfl⟩
  obtain ⟨r, hre⟩ : ∃ r, r = rest.emit m b.frames.tail b.id (ty.toList ++ stack) := ⟨_, rfl⟩
  have he' : e = r.prepend (.endBlock (ty.toList ++ stack) (id, .end_) :: (b.ops ++ b.close)) := by
    rw [he, hre, hbe, hf]
    rfl
  subst he'
  simp only [Emitted.prepend, List.cons_append, List.append_assoc] at hp ⊢
  obtain ⟨hcons, hmark, htail⟩ := hbe ▸ (body.emit_frames m (f :: fs) (id + 1) stack).of_cons
  have hparams : params (id, .end_) prog = some (ty.toList ++ stack) :=
    params_eq (hs.disciplined _) hp
  obtain ⟨hset, htyped⟩ := hs.inside ht hfs (hf ▸ hstack ▸ rfl)
    (by rw [hf]; rfl : f.labelTypes = ty.toList) (fun _ => by rw [hf]; rfl)
    (by simp : false = true → _) (by rw [hf]; rfl) (hstack ▸ hparams)
  have hbody := ihb.body hset htyped hm (List.cons_ne_nil _ _) hb hcl hstack hbe
    (hp.trans (List.append_cons _ _ _))
  rw [List.length_append] at hbody
  have hrp : prog = (pre ++ .endBlock (ty.toList ++ stack) (id, .end_) :: (b.ops ++ b.close)) ++
      (r.ops ++ post) := by rw [hp]; simp
  obtain ⟨seg', hlive, hrest⟩ := ihr.after hs ht hm hfs htail hc (hstack ▸ hre) hrp
  refine ⟨seg', hlive, ?_⟩
  have hid : (nthBlock b.frames 0).id = id := by rw [hmark.id, hf]
  have hkind : (nthBlock b.frames 0).kind ≠ .if_ false := by
    rcases hmark with hg | hg <;> rw [hg, hf] <;> simp [ControlFrame.markBranchedTo]
  rw [Code.clean, ← ite_ite_none, ← hrest]
  refine (flow_block ..).trans (hbody.trans ?_)
  rw [Emitted.close, flow_closeOps b.unreachable hkind (hid ▸ hparams), ← hstack]

theorem flows_loop {ty : BlockType} {body rest : Code} (ihb : body.Flows m prog returns)
    (ihr : rest.Flows m prog returns) : Code.Flows m prog returns (.loop ty body rest) := by
  intro Γ fs ls id seg up o pre post e hm hs ht hfs hc he hp
  obtain ⟨ob, hb, hc⟩ := Option.bind_eq_some_iff.mp hc
  split at hc
  case isFalse => cases hc
  case isTrue hcl =>
  rw [Opds.pushOpt_live] at hc
  rw [← List.append_assoc seg up] at he ⊢
  obtain ⟨stack, hstack⟩ : ∃ stack, stack = seg ++ up ++ Γ.locals.reverse := ⟨_, rfl⟩
  rw [← hstack] at he ⊢
  obtain ⟨f, hf⟩ : ∃ f : ControlFrame, f = ⟨id, stack.length, ty.toList, .loop⟩ := ⟨_, rfl⟩
  obtain ⟨b, hbe⟩ : ∃ b, b = body.emit m (f :: fs) (id + 1) stack := ⟨_, rfl⟩
  obtain ⟨r, hre⟩ : ∃ r, r = rest.emit m b.frames.tail b.id (ty.toList ++ stack) := ⟨_, rfl⟩
  have he' : e = r.prepend ([.loopHeader stack (id, .header),
      .endBlock (ty.toList ++ stack) (id, .end_), .br (.label (id, .header)),
      .label (id, .header)] ++ (b.ops ++ b.close)) := by
    rw [he, hre, hbe, hf]
    rfl
  subst he'
  simp only [Emitted.prepend, List.cons_append, List.nil_append, List.append_assoc] at hp ⊢
  obtain ⟨hcons, hmark, htail⟩ := hbe ▸ (body.emit_frames m (f :: fs) (id + 1) stack).of_cons
  have hg : nthBlock b.frames 0 = f := hmark.eq_of_not_block fun _ => by simp [hf]
  have hheader : params (id, .header) prog = some stack := params_eq (hs.disciplined _) hp
  have hend : params (id, .end_) prog = some (ty.toList ++ stack) :=
    params_eq (hs.disciplined _) (hp.trans (List.append_cons _ _ _))
  obtain ⟨hset, htyped⟩ := hs.inside ht hfs (hf ▸ hstack ▸ rfl)
    (by rw [hf]; rfl : f.labelTypes = Option.toList none) (b := ty.isSome)
    (fun h => by
      have hty : ty = none := by simpa using h
      rw [hf, hty]
      rfl)
    (fun h => by
      obtain ⟨t, hty⟩ := Option.isSome_iff_exists.mp h
      rw [hf, hty]
      exact ⟨rfl, by simp⟩)
    (by rw [hf]; rfl) (hstack ▸ hheader)
  have hbp : prog = (pre ++ [.loopHeader stack (id, .header),
      .endBlock (ty.toList ++ stack) (id, .end_), .br (.label (id, .header)),
      .label (id, .header)]) ++ (b.ops ++ (b.close ++ (r.ops ++ post))) := by rw [hp]; simp
  have hbody := ihb.body hset htyped hm (List.cons_ne_nil _ _) hb hcl hstack hbe hbp
  rw [List.length_append] at hbody
  have hrp : prog = (pre ++ [.loopHeader stack (id, .header),
      .endBlock (ty.toList ++ stack) (id, .end_), .br (.label (id, .header)),
      .label (id, .header)] ++ (b.ops ++ b.close)) ++ (r.ops ++ post) := by rw [hp]; simp
  obtain ⟨seg', hlive, hrest⟩ := ihr.after hs ht hm hfs htail hc (hstack ▸ hre) hrp
  refine ⟨seg', hlive, ?_⟩
  rw [Code.clean, ← ite_ite_none, ← hrest]
  refine (flow_block ..).trans ((flow_block ..).trans ((flow_br hheader _).trans
    ((flow_label hheader _).trans (hbody.trans ?_))))
  rw [Emitted.close, hg, flow_closeOps b.unreachable (by simp [hf]) (by rw [hf]; exact hend),
    ← hstack]

/-- What an `if` declares, and its condition. -/
theorem Setting.flow_ifOps {Γ : Context} {fs : List ControlFrame} {ls : List LabelInfo} {h : Nat}
    (hs : Setting prog returns Γ fs ls h) {ty : BlockType} {stack : List SignlessType} {id : Nat}
    {pre thens : List OperatorFromWasm} (hp : prog = pre ++ (ifOps ty stack id ++ thens))
    (t : SignlessType) :
    params (id, .else_) prog = some stack ∧ params (id, .end_) prog = some (ty.toList ++ stack) ∧
      flow m prog returns (ifOps ty stack id ++ thens) (some (t :: stack)) =
        flow m prog returns thens (some stack) := by
  have hheader : params (id, .header) prog = some stack := params_eq (hs.disciplined _) hp
  have helse : params (id, .else_) prog = some stack :=
    params_eq (hs.disciplined _) (hp.trans (List.append_cons _ _ _))
  have hend : params (id, .end_) prog = some (ty.toList ++ stack) :=
    params_eq (hs.disciplined _)
      ((hp.trans (List.append_cons _ _ _)).trans (List.append_cons _ _ _))
  refine ⟨helse, hend, (flow_block ..).trans ((flow_block ..).trans ((flow_block ..).trans ?_))⟩
  refine Eq.trans ?_ (flow_label hheader thens)
  simp only [List.append_eq, List.cons_append, List.nil_append, flow, flowOp,
    exactDrop_keep hheader, exactDrop_keep helse, Bool.and_self, if_true, Option.bind_some]

theorem flows_ifThen {ty : BlockType} {then_ rest : Code} (ihb : then_.Flows m prog returns)
    (ihr : rest.Flows m prog returns) : Code.Flows m prog returns (.ifThen ty then_ rest) := by
  intro Γ fs ls id seg up o pre post e hm hs ht hfs hc he hp
  obtain ⟨o₁, h₁, hc⟩ := Option.bind_eq_some_iff.mp hc
  obtain ⟨ws, rfl, rfl⟩ := Opds.pop_live h₁
  obtain ⟨ob, hb, hc⟩ := Option.bind_eq_some_iff.mp hc
  split at hc
  case isFalse => cases hc
  case isTrue hcl =>
  obtain ⟨hty, hcl⟩ := hcl
  rw [Opds.pushOpt_live] at hc
  have hh : (I32 :: ws).length + up.length - 1 = ws.length + up.length := by
    simp only [List.length_cons]
    omega
  rw [List.cons_append, ← List.append_assoc ws up] at he ⊢
  obtain ⟨stack, hstack⟩ : ∃ stack, stack = ws ++ up ++ Γ.locals.reverse := ⟨_, rfl⟩
  rw [← hstack] at he ⊢
  obtain ⟨f, hf⟩ : ∃ f : ControlFrame, f = ⟨id, stack.length, ty.toList, .if_ false⟩ := ⟨_, rfl⟩
  obtain ⟨b, hbe⟩ : ∃ b, b = then_.emit m (f :: fs) (id + 1) stack := ⟨_, rfl⟩
  obtain ⟨r, hre⟩ : ∃ r, r = rest.emit m b.frames.tail b.id (ty.toList ++ stack) := ⟨_, rfl⟩
  have he' : e = r.prepend (ifOps ty stack id ++ (b.ops ++ b.close)) := by
    rw [he, hre, hbe, hf]
    rfl
  subst he'
  simp only [Emitted.prepend, List.append_assoc] at hp ⊢
  obtain ⟨hcons, hmark, htail⟩ := hbe ▸ (then_.emit_frames m (f :: fs) (id + 1) stack).of_cons
  have hg : nthBlock b.frames 0 = f := hmark.eq_of_not_block fun _ => by simp [hf]
  obtain ⟨helse, hend, hif⟩ := hs.flow_ifOps hp I32
  obtain ⟨hset, htyped⟩ := hs.inside ht hfs (hf ▸ hstack ▸ rfl)
    (by rw [hf]; rfl : f.labelTypes = ty.toList) (fun _ => by rw [hf]; rfl)
    (by simp : false = true → _) (by rw [hf]; rfl) (hstack ▸ hend)
  have hbody := ihb.body hset htyped hm (List.cons_ne_nil _ _) hb hcl hstack hbe
    (hp.trans (List.append_assoc ..).symm)
  rw [List.length_append] at hbody
  have hrp : prog = (pre ++ (ifOps ty stack id ++ (b.ops ++ b.close))) ++ (r.ops ++ post) := by
    rw [hp]
    simp
  obtain ⟨seg', hlive, hrest⟩ := ihr.after hs ht hm hfs htail hc (hstack ▸ hre) hrp
  refine ⟨seg', hlive, ?_⟩
  have hclose : b.close = elseOps id b.unreachable ++
      [.br (.label (id, .end_)), .label (id, .end_)] := by
    rw [Emitted.close, hg, hf]
    exact closeOps_then rfl
  rw [Code.clean, hh, ← ite_ite_none, ← hrest, ← hstack, hif, hbody, hclose, List.append_assoc,
    flow_elseOps b.unreachable hend helse]
  -- The missing arm leaves the stack as it is.
  rw [hty] at hend ⊢
  rw [show flow m prog returns ([.br (.label (id, .end_)), .label (id, .end_)] ++ (r.ops ++ post))
    (some stack) = _ from (flow_br hend _).trans (flow_label hend _)]
  rfl

theorem flows_ifElse {ty : BlockType} {then_ else_ rest : Code}
    (ihb : then_.Flows m prog returns) (ihc : else_.Flows m prog returns)
    (ihr : rest.Flows m prog returns) :
    Code.Flows m prog returns (.ifElse ty then_ else_ rest) := by
  intro Γ fs ls id seg up o pre post e hm hs ht hfs hc he hp
  obtain ⟨o₁, h₁, hc⟩ := Option.bind_eq_some_iff.mp hc
  obtain ⟨ws, rfl, rfl⟩ := Opds.pop_live h₁
  obtain ⟨ob, hb, hc⟩ := Option.bind_eq_some_iff.mp hc
  obtain ⟨oc, hb', hc⟩ := Option.bind_eq_some_iff.mp hc
  split at hc
  case isFalse => cases hc
  case isTrue hcl =>
  rw [Opds.pushOpt_live] at hc
  have hh : (I32 :: ws).length + up.length - 1 = ws.length + up.length := by
    simp only [List.length_cons]
    omega
  rw [List.cons_append, ← List.append_assoc ws up] at he ⊢
  obtain ⟨stack, hstack⟩ : ∃ stack, stack = ws ++ up ++ Γ.locals.reverse := ⟨_, rfl⟩
  rw [← hstack] at he ⊢
  obtain ⟨f, hf⟩ : ∃ f : ControlFrame, f = ⟨id, stack.length, ty.toList, .if_ false⟩ := ⟨_, rfl⟩
  obtain ⟨f', hf'⟩ : ∃ f : ControlFrame, f = ⟨id, stack.length, ty.toList, .if_ true⟩ := ⟨_, rfl⟩
  obtain ⟨b, hbe⟩ : ∃ b, b = then_.emit m (f :: fs) (id + 1) stack := ⟨_, rfl⟩
  obtain ⟨x, hxe⟩ : ∃ x, x = else_.emit m b.framesElse b.id stack := ⟨_, rfl⟩
  obtain ⟨r, hre⟩ : ∃ r, r = rest.emit m x.frames.tail x.id (ty.toList ++ stack) := ⟨_, rfl⟩
  have he' : e = r.prepend
      (ifOps ty stack id ++ (b.ops ++ elseOps id b.unreachable ++ (x.ops ++ x.close))) := by
    rw [he, hre, hxe, hbe, hf]
    rfl
  subst he'
  simp only [Emitted.prepend, List.append_assoc] at hp ⊢
  obtain ⟨hcons, hmark, htail⟩ := hbe ▸ (then_.emit_frames m (f :: fs) (id + 1) stack).of_cons
  have hframes : b.framesElse = f' :: b.frames.tail := by
    rw [Emitted.framesElse, hmark.eq_of_not_block fun _ => by simp [hf], hf, hf']
    rfl
  rw [hframes] at hxe
  obtain ⟨hcons', hmark', htail'⟩ :=
    hxe ▸ (else_.emit_frames m (f' :: b.frames.tail) b.id stack).of_cons
  have hg : nthBlock x.frames 0 = f' := hmark'.eq_of_not_block fun _ => by simp [hf']
  have hne : b.frames.tail ≠ [] := by
    intro hnil
    rw [hnil] at htail
    exact hfs (List.forall₂_nil_right_iff.mp htail)
  obtain ⟨helse, hend, hif⟩ := hs.flow_ifOps hp I32
  obtain ⟨hset, htyped⟩ := hs.inside ht hfs (hf ▸ hstack ▸ rfl)
    (by rw [hf]; rfl : f.labelTypes = ty.toList) (fun _ => by rw [hf]; rfl)
    (by simp : false = true → _) (by rw [hf]; rfl) (hstack ▸ hend)
  obtain ⟨hset', htyped'⟩ := (hs.of_marks htail).inside (ht.of_marks htail) hne (hf' ▸ hstack ▸ rfl)
    (by rw [hf']; rfl : f'.labelTypes = ty.toList) (fun _ => by rw [hf']; rfl)
    (by simp : false = true → _) (by rw [hf']; rfl) (hstack ▸ hend)
  have hbody := ihb.body hset htyped hm (List.cons_ne_nil _ _) hb hcl.1 hstack hbe
    (hp.trans (List.append_assoc ..).symm)
  have hxp : prog = (pre ++ (ifOps ty stack id ++ (b.ops ++ elseOps id b.unreachable))) ++
      (x.ops ++ (x.close ++ (r.ops ++ post))) := by
    rw [hp]
    simp
  have hbody' := ihc.body hset' htyped' hm (List.cons_ne_nil _ _) hb' hcl.2 hstack hxe hxp
  rw [List.length_append] at hbody hbody'
  have hrp : prog = (pre ++ (ifOps ty stack id ++ (b.ops ++ elseOps id b.unreachable) ++
      (x.ops ++ x.close))) ++ (r.ops ++ post) := by
    rw [hp]
    simp
  obtain ⟨seg', hlive, hrest⟩ := ihr.after hs ht hm hfs (htail.trans htail') hc (hstack ▸ hre) hrp
  refine ⟨seg', hlive, ?_⟩
  rw [Code.clean, hh, ← ite_ite_none, ← ite_ite_none, ← hrest, ← hstack, hif, hbody,
    flow_elseOps b.unreachable hend helse, hbody', Emitted.close, hg,
    flow_closeOps x.unreachable (by simp [hf']) (by rw [hf']; exact hend)]

/-- **The typing of a sequence goes through when the sequence is clean.** -/
theorem Code.flows (c : Code) : c.Flows m prog returns := by
  induction c with
  | nil => exact flows_nil
  | simple i rest ih => exact flows_simple ih
  | jump j rest _ => exact flows_jump
  | brIf d rest ih => exact flows_brIf ih
  | block ty body rest ihb ihr => exact flows_block ihb ihr
  | loop ty body rest ihb ihr => exact flows_loop ihb ihr
  | ifThen ty then_ rest ihb ihr => exact flows_ifThen ihb ihr
  | ifElse ty then_ else_ rest ihb ihc ihr => exact flows_ifElse ihb ihc ihr

end Flow

/-! ## A whole function -/

section Function

variable {m : ModuleContext} {f : Func}

/-- What holds at the start of the body. -/
theorem Func.setting (m : ModuleContext) (f : Func) :
    Setting (f.microwasm m) f.type.returns (f.context m) [f.frame] [⟨false, 0⟩] 0 where
  disciplined := microwasm_disciplined m f
  returns := rfl
  fits := by
    intro d ty hty
    cases d with
    | zero =>
      cases hty
      exact ⟨_, rfl, Nat.le_refl 0, rfl, (Nat.zero_add _).symm, fun _ => rfl⟩
    | succ d => cases hty
  declared := by
    intro d l hl
    cases d with
    | zero => cases hl
    | succ d => cases hl
  root := rfl

theorem Func.typed (m : ModuleContext) (f : Func) :
    Typed (f.microwasm m) f.type.returns (f.context m) [f.frame] [⟨false, 0⟩] [] := by
  intro d ty l hd hl
  cases d with
  | zero =>
    cases hl
    refine ⟨fun _ => rfl, fun h => ?_, by simp⟩
    cases h
  | succ d => cases hd

/-- The declared locals are pushed in order. -/
theorem flow_consts {prog : List OperatorFromWasm} {returns : BlockType} (tys : List SignlessType)
    (stack : List SignlessType) (ops : List OperatorFromWasm) :
    flow m prog returns ((tys.map fun ty => .plain (.const (.defaultForType ty))) ++ ops)
        (some stack) =
      flow m prog returns ops (some (tys.reverse ++ stack)) := by
  induction tys generalizing stack with
  | nil => rfl
  | cons ty tys ih =>
    have hstep : ∀ ops, flow m prog returns
        (.plain (.const (.defaultForType ty)) :: ops) (some stack) =
          flow m prog returns ops (some (ty :: stack)) := by
      intro ops
      rcases ty with ⟨_ | _⟩ | ⟨_ | _⟩ <;> rfl
    rw [List.map_cons, List.cons_append, hstep, ih]
    simp

/-- **The edges of a validated function are exact when the function is clean**, and only then. -/
theorem edgesExact_iff (h : f.Validated m) :
    EdgesExact m (f.microwasm m) f.type.returns f.type.params ↔ f.clean m = true := by
  obtain ⟨o, ho, hc⟩ := h
  have hstart : flow m (f.microwasm m) f.type.returns (f.microwasm m) (some f.type.params.reverse) =
      flow m (f.microwasm m) f.type.returns
        ((f.emit m).ops ++ if (f.emit m).unreachable then [] else [.br .ret])
        (some f.localTypes.reverse) := by
    rw [Func.localTypes, List.reverse_append]
    exact flow_consts f.declared _ _
  have hbody : flow m (f.microwasm m) f.type.returns
      ((f.emit m).ops ++ if (f.emit m).unreachable then [] else [.br .ret])
      (some f.localTypes.reverse) =
        if f.clean m then
          flow m (f.microwasm m) f.type.returns
            (if (f.emit m).unreachable then [] else [.br .ret])
            (exitStack (f.emit m).unreachable (f.type.returns.toList ++ f.localTypes.reverse))
        else none :=
    f.body.flows.body (f.setting m) (f.typed m) rfl (List.cons_ne_nil _ _) ho hc rfl
      (rfl : f.emit m = _) (rfl : f.microwasm m = f.consts ++ _)
  have hend : (flow m (f.microwasm m) f.type.returns
      (if (f.emit m).unreachable then [] else [.br .ret])
      (exitStack (f.emit m).unreachable
        (f.type.returns.toList ++ f.localTypes.reverse))).isSome = true := by
    cases (f.emit m).unreachable with
    | true => rfl
    | false => simp [exitStack, flow, flowOp, exact]
  rw [EdgesExact, hstart, hbody]
  cases f.clean m with
  | true => simpa using hend
  | false => simp

end Function

end Wasmtime.Lightbeam
