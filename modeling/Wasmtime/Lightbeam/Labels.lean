import Wasmtime.Lightbeam.Emit

/-!
# The labels of the generated microwasm

`translate` (`lightbeam/src/function_body.rs`) keeps a table of blocks by label: a `Block`
operator inserts one, a branch looks it up and counts a caller, a `Label` defines it and, unless
the block has backwards callers, removes it. It relies on what the generator does with labels.

* `labelEvents l ops` is what happens to one label along a stream, in order: it is declared by a
  `Block`, branched to, defined by a `Label`.
* `Disciplined` is what `translate` needs of that sequence, `LabelsClosed` what it needs of the
  operator before a `Label`.
* The events of a translated sequence are read off in three ranges of identifiers (`Local`):
  labels of enclosing frames are only branched to, labels of the sequence itself are disciplined,
  later ones do not occur. A block joins its own labels to those of its body (`Local.wrap`).

Results:
* `Code.emit_local`, `Code.emit_closed`: the two halves, by recursion over the body.
* **`labels_disciplined`**: the stream of every validated function keeps the discipline.
-/

namespace Wasmtime.Lightbeam

/-! ## What happens to a label -/

inductive LabelEvent
  | declare (hasBackwardsCallers : Bool) (numCallers : Option Nat)
  | branch
  | define
  deriving DecidableEq, Repr

def BrTarget.events (l : WasmLabel) (t : BrTarget WasmLabel) : List LabelEvent :=
  if t = .label l then [.branch] else []

def Operator.events (l : WasmLabel) : OperatorFromWasm → List LabelEvent
  | .block l' _ back n => if l' = l then [.declare back n] else []
  | .label l' => if l' = l then [.define] else []
  | .br target => target.events l
  | .brIf then_ else_ => then_.target.events l ++ else_.target.events l
  | .brTable targets default =>
      (targets.flatMap fun t => t.target.events l) ++ default.target.events l
  | _ => []

/-- What happens to `l` along a stream. -/
def labelEvents (l : WasmLabel) (ops : List OperatorFromWasm) : List LabelEvent :=
  ops.flatMap fun op => op.events l

@[simp]
theorem labelEvents_nil (l : WasmLabel) : labelEvents l [] = [] := rfl

@[simp]
theorem labelEvents_cons (l : WasmLabel) (op : OperatorFromWasm) (ops : List OperatorFromWasm) :
    labelEvents l (op :: ops) = op.events l ++ labelEvents l ops := rfl

@[simp]
theorem labelEvents_append (l : WasmLabel) (a b : List OperatorFromWasm) :
    labelEvents l (a ++ b) = labelEvents l a ++ labelEvents l b :=
  List.flatMap_append

/-- A label that occurs is declared first and once, by one `Block`; it is defined at most once,
and if it is branched to it is defined; a `num_callers` of one is exact; without backwards
callers no branch follows the definition. -/
def Disciplined (events : List LabelEvent) : Prop :=
  events = [] ∨ ∃ back callers uses, events = .declare back callers :: uses ∧
    (∀ b n, .declare b n ∉ uses) ∧
    uses.count .define ≤ 1 ∧
    (.branch ∈ uses → .define ∈ uses) ∧
    (callers = some 1 → uses.count .branch = 1) ∧
    (back = false → ∀ before after, uses = before ++ .define :: after → .branch ∉ after)

/-- Control does not go on to the next operator. -/
def Operator.stops {L : Type} : Operator L → Bool
  | .unreachable | .br _ | .brIf _ _ | .brTable _ _ => true
  | _ => false

/-- Every `Label` comes right after an operator that does not fall through. -/
def LabelsClosed (ops : List OperatorFromWasm) : Prop :=
  ∀ before l after, ops = before ++ .label l :: after →
    ∃ before' op, before = before' ++ [op] ∧ op.stops = true

/-! ## Disciplined sequences -/

/-- Nothing but branches. -/
def OnlyBranches (events : List LabelEvent) : Prop :=
  ∀ e ∈ events, e = .branch

theorem OnlyBranches.append {as bs : List LabelEvent} (ha : OnlyBranches as)
    (hb : OnlyBranches bs) : OnlyBranches (as ++ bs) := by
  intro e he
  rcases List.mem_append.mp he with h | h
  · exact ha e h
  · exact hb e h

theorem OnlyBranches.define_notMem {bs : List LabelEvent} (h : OnlyBranches bs) :
    LabelEvent.define ∉ bs := by
  intro hm
  cases h _ hm

theorem OnlyBranches.declare_notMem {bs : List LabelEvent} (h : OnlyBranches bs) (b : Bool)
    (n : Option Nat) : LabelEvent.declare b n ∉ bs := by
  intro hm
  cases h _ hm

/-- A label that is declared and never used. -/
theorem disciplined_unused : Disciplined [.declare false none] :=
  .inr ⟨false, none, [], rfl, by simp, by simp, by simp, by simp, by simp⟩

/-- The end of a block: branches, then the definition. -/
theorem disciplined_end {bs : List LabelEvent} (h : OnlyBranches bs) :
    Disciplined (.declare false none :: (bs ++ [.define])) := by
  refine .inr ⟨false, none, bs ++ [.define], rfl, ?_, ?_, by simp, by simp, ?_⟩
  · intro b n hmem
    rcases List.mem_append.mp hmem with hm | hm
    · exact h.declare_notMem b n hm
    · simp at hm
  · simp [List.count_eq_zero.mpr h.define_notMem]
  · rintro - before after heq
    -- The definition is the last event, so nothing is left after it.
    rcases List.eq_nil_or_concat after with rfl | ⟨xs, x, rfl⟩
    · simp
    · rw [List.concat_eq_append, ← List.cons_append, ← List.append_assoc] at heq
      obtain ⟨hbs, -⟩ := List.append_inj' heq rfl
      exact absurd (by simp [hbs]) h.define_notMem

/-- A label with one caller. -/
theorem disciplined_once : Disciplined [.declare false (some 1), .branch, .define] := by
  refine .inr ⟨false, some 1, _, rfl, by simp, by decide, by simp, fun _ => by decide, ?_⟩
  rintro - before after heq
  rcases before with _ | ⟨b, _ | ⟨c, before⟩⟩
  · simp at heq
  · simp only [List.cons_append, List.nil_append, List.cons.injEq] at heq
    simp [← heq.2.2]
  · simp at heq

/-- The header of a loop: the entry, the definition, then branches back. -/
theorem disciplined_header {bs : List LabelEvent} (h : OnlyBranches bs) :
    Disciplined (.declare true none :: .branch :: .define :: bs) := by
  refine .inr ⟨true, none, _, rfl, ?_, ?_, by simp, by simp, by simp⟩
  · intro b n hmem
    simp only [List.mem_cons, reduceCtorEq, false_or] at hmem
    exact h.declare_notMem b n hmem
  · simp [List.count_eq_zero.mpr h.define_notMem]

/-! ## Events by range of identifiers -/

/-- Some frame is branched to through `l`; a block among them is marked. -/
def Marked (fs : List ControlFrame) (l : WasmLabel) : Prop :=
  ∃ f ∈ fs, f.brTarget = .label l ∧ f.kind ≠ .block false

/-- All frames are older than `id`. -/
def FramesBelow (fs : List ControlFrame) (id : Nat) : Prop :=
  ∀ f ∈ fs, f.id < id

theorem brTarget_id {f : ControlFrame} {l : WasmLabel} (h : f.brTarget = .label l) :
    l.1 = f.id := by
  rcases f with ⟨id, a, r, _ | _ | _ | _⟩ <;> simp [ControlFrame.brTarget] at h <;> simp [← h]

theorem Marked.id_lt {fs : List ControlFrame} {l : WasmLabel} {id : Nat} (h : Marked fs l)
    (hb : FramesBelow fs id) : l.1 < id := by
  obtain ⟨f, hf, ht, -⟩ := h
  rw [brTarget_id ht]
  exact hb f hf

theorem FramesBelow.mono {fs : List ControlFrame} {id id' : Nat} (h : FramesBelow fs id)
    (hle : id ≤ id') : FramesBelow fs id' :=
  fun f hf => Nat.lt_of_lt_of_le (h f hf) hle

theorem FramesBelow.cons {f : ControlFrame} {fs : List ControlFrame} {id : Nat}
    (hf : f.id < id) (h : FramesBelow fs id) : FramesBelow (f :: fs) id := by
  intro g hg
  rcases List.mem_cons.mp hg with rfl | hg
  · exact hf
  · exact h g hg

theorem mem_of_framesMark {fs gs : List ControlFrame} (h : FramesMark fs gs) {g : ControlFrame}
    (hg : g ∈ gs) : ∃ f ∈ fs, f.Marks g := by
  induction h with
  | nil => cases hg
  | cons hfg _ ih =>
    rcases List.mem_cons.mp hg with rfl | hg
    · exact ⟨_, List.mem_cons_self, hfg⟩
    · obtain ⟨f, hf, hm⟩ := ih hg
      exact ⟨f, List.mem_cons_of_mem _ hf, hm⟩

theorem exists_of_framesMark {fs gs : List ControlFrame} (h : FramesMark fs gs)
    {f : ControlFrame} (hf : f ∈ fs) : ∃ g ∈ gs, f.Marks g := by
  induction h with
  | nil => cases hf
  | cons hfg _ ih =>
    rcases List.mem_cons.mp hf with rfl | hf
    · exact ⟨_, List.mem_cons_self, hfg⟩
    · obtain ⟨g, hg, hm⟩ := ih hf
      exact ⟨g, List.mem_cons_of_mem _ hg, hm⟩

theorem FramesBelow.of_marks {fs gs : List ControlFrame} {id : Nat} (h : FramesBelow fs id)
    (hm : FramesMark fs gs) : FramesBelow gs id := by
  intro g hg
  obtain ⟨f, hf, hfg⟩ := mem_of_framesMark hm hg
  rw [hfg.id]
  exact h f hf

theorem Marks.not_unmarked {f g : ControlFrame} (h : f.Marks g) (hf : f.kind ≠ .block false) :
    g.kind ≠ .block false := by
  rcases h with rfl | rfl
  · exact hf
  · rcases f with ⟨id, a, r, _ | _ | _ | _⟩ <;> simp [ControlFrame.markBranchedTo]

/-- Marks are never taken back. -/
theorem Marked.mono {fs gs : List ControlFrame} {l : WasmLabel} (h : Marked fs l)
    (hm : FramesMark fs gs) : Marked gs l := by
  obtain ⟨f, hf, ht, hk⟩ := h
  obtain ⟨g, hg, hfg⟩ := exists_of_framesMark hm hf
  exact ⟨g, hg, hfg.brTarget.trans ht, Marks.not_unmarked hfg hk⟩

/-- The events of operators emitted with identifiers from `lo` to `hi`, inside frames that are
`fs` afterwards. -/
structure Local (ops : List OperatorFromWasm) (fs : List ControlFrame) (lo hi : Nat) : Prop where
  le : lo ≤ hi
  above : ∀ l : WasmLabel, hi ≤ l.1 → labelEvents l ops = []
  inside : ∀ l : WasmLabel, lo ≤ l.1 → l.1 < hi → Disciplined (labelEvents l ops)
  below : ∀ l : WasmLabel, l.1 < lo → OnlyBranches (labelEvents l ops)
  marked : ∀ l : WasmLabel, l.1 < lo → labelEvents l ops ≠ [] → Marked fs l

/-- Operators that do nothing to labels, and branches to marked frames only. -/
theorem Local.of_branches {ops : List OperatorFromWasm} {fs : List ControlFrame} {id : Nat}
    (hfs : FramesBelow fs id) (ho : ∀ l, OnlyBranches (labelEvents l ops))
    (hm : ∀ l, labelEvents l ops ≠ [] → Marked fs l) : Local ops fs id id where
  le := Nat.le_refl id
  above := by
    intro l hl
    by_contra hne
    exact absurd ((hm l hne).id_lt hfs) (Nat.not_lt.mpr hl)
  inside := by
    intro l h₁ h₂
    exact absurd h₁ (Nat.not_le.mpr h₂)
  below := fun l _ => ho l
  marked := fun l _ => hm l

/-- One sequence after another. -/
theorem Local.append {a b : List OperatorFromWasm} {fs gs : List ControlFrame}
    {lo mid hi : Nat} (ha : Local a fs lo mid) (hb : Local b gs mid hi)
    (hgs : FramesBelow gs lo) (hmono : ∀ l, Marked fs l → Marked gs l) :
    Local (a ++ b) gs lo hi where
  le := Nat.le_trans ha.le hb.le
  above := by
    intro l hl
    rw [labelEvents_append, ha.above l (Nat.le_trans hb.le hl), hb.above l hl, List.append_nil]
  inside := by
    intro l h₁ h₂
    rw [labelEvents_append]
    by_cases hmid : l.1 < mid
    · -- The labels of `a` are closed, so `b` does not name them.
      have hnil : labelEvents l b = [] := by
        by_contra hne
        exact absurd ((hb.marked l hmid hne).id_lt hgs) (Nat.not_lt.mpr h₁)
      rw [hnil, List.append_nil]
      exact ha.inside l h₁ hmid
    · rw [ha.above l (Nat.not_lt.mp hmid), List.nil_append]
      exact hb.inside l (Nat.not_lt.mp hmid) h₂
  below := by
    intro l hl
    rw [labelEvents_append]
    exact (ha.below l hl).append (hb.below l (Nat.lt_of_lt_of_le hl ha.le))
  marked := by
    intro l hl hne
    rw [labelEvents_append] at hne
    by_cases hnil : labelEvents l a = []
    · rw [hnil, List.nil_append] at hne
      exact hb.marked l (Nat.lt_of_lt_of_le hl ha.le) hne
    · exact hmono l (ha.marked l hl hnil)

/-- **A block around a body**: `ops` differs from the body in the events of the block's own
labels, and those are disciplined. -/
theorem Local.wrap {body ops : List OperatorFromWasm} {g : ControlFrame}
    {gs : List ControlFrame} {id hi : Nat} (hb : Local body (g :: gs) (id + 1) hi)
    (hg : g.id = id) (hothers : ∀ l : WasmLabel, l.1 ≠ id → labelEvents l ops = labelEvents l body)
    (hown : ∀ tag, Disciplined (labelEvents (id, tag) ops)) : Local ops gs id hi where
  le := Nat.le_trans (Nat.le_succ id) hb.le
  above := by
    intro l hl
    have hid := hb.le
    rw [hothers l (by omega), hb.above l hl]
  inside := by
    intro l h₁ h₂
    by_cases hl : l.1 = id
    · obtain ⟨i, tag⟩ := l
      obtain rfl : i = id := hl
      exact hown tag
    · rw [hothers l hl]
      exact hb.inside l (by omega) h₂
  below := by
    intro l hl
    rw [hothers l (by omega)]
    exact hb.below l (by omega)
  marked := by
    intro l hl hne
    rw [hothers l (by omega)] at hne
    obtain ⟨f, hf, ht, hk⟩ := hb.marked l (by omega) hne
    rcases List.mem_cons.mp hf with rfl | hf
    · have := brTarget_id ht
      omega
    · exact ⟨f, hf, ht, hk⟩

/-- The body of a block branches only to the label its frame gives. -/
theorem Local.own {body : List OperatorFromWasm} {g : ControlFrame} {gs : List ControlFrame}
    {id hi : Nat} (hb : Local body (g :: gs) (id + 1) hi) (hgs : FramesBelow gs id) {tag : NameTag}
    (hne : labelEvents (id, tag) body ≠ []) :
    g.brTarget = .label (id, tag) ∧ g.kind ≠ .block false := by
  obtain ⟨f, hf, ht, hk⟩ := hb.marked (id, tag) (Nat.lt_succ_self id) hne
  rcases List.mem_cons.mp hf with rfl | hf
  · exact ⟨ht, hk⟩
  · have hid := brTarget_id ht
    have := hgs f hf
    simp only at hid
    omega

/-! ## The events of single instructions -/

theorem Local.congr {a b : List OperatorFromWasm} {fs : List ControlFrame} {lo hi : Nat}
    (hb : Local b fs lo hi) (h : ∀ l, labelEvents l a = labelEvents l b) : Local a fs lo hi where
  le := hb.le
  above := fun l hl => by rw [h, hb.above l hl]
  inside := fun l h₁ h₂ => by
    rw [h]
    exact hb.inside l h₁ h₂
  below := fun l hl => by
    rw [h]
    exact hb.below l hl
  marked := fun l hl hne => hb.marked l hl (h l ▸ hne)

theorem Simple.events_emit (i : Simple) (height : Nat) (l : WasmLabel) :
    labelEvents l (i.emit height) = [] := by
  cases i <;> rfl

theorem dropOps_events (r : Option DropRange) (l : WasmLabel) : labelEvents l (dropOps r) = [] := by
  cases r <;> rfl

theorem onlyBranches_target (t : BrTarget WasmLabel) (l : WasmLabel) :
    OnlyBranches (t.events l) := by
  unfold BrTarget.events OnlyBranches
  split <;> simp

theorem events_target_ne_nil {t : BrTarget WasmLabel} {l : WasmLabel} (h : t.events l ≠ []) :
    t = .label l := by
  unfold BrTarget.events at h
  by_contra hne
  exact h (if_neg hne)

@[simp]
theorem events_label (l l' : WasmLabel) :
    (BrTarget.label l').events l = if l' = l then [.branch] else [] := by
  simp [BrTarget.events]

@[simp]
theorem events_ret (l : WasmLabel) : (BrTarget.ret : BrTarget WasmLabel).events l = [] := rfl

/-- The outermost frame is the function's. -/
def Rooted (fs : List ControlFrame) : Prop :=
  (fs.map ControlFrame.brTarget).getLast? = some .ret

theorem FramesMark.map_brTarget {fs gs : List ControlFrame} (h : FramesMark fs gs) :
    gs.map ControlFrame.brTarget = fs.map ControlFrame.brTarget := by
  induction h with
  | nil => rfl
  | cons hfg _ ih => rw [List.map_cons, List.map_cons, hfg.brTarget, ih]

theorem Rooted.of_marks {fs gs : List ControlFrame} (h : Rooted fs) (hm : FramesMark fs gs) :
    Rooted gs := by
  unfold Rooted at *
  rw [hm.map_brTarget, h]

theorem Rooted.cons {fs : List ControlFrame} (h : Rooted fs) (f : ControlFrame) :
    Rooted (f :: fs) := by
  unfold Rooted at *
  rw [List.map_cons, List.getLast?_cons, h]
  rfl

theorem Rooted.getLastD {fs : List ControlFrame} (h : Rooted fs) :
    (fs.getLastD default).brTarget = .ret := by
  unfold Rooted at h
  rw [List.getLast?_map] at h
  obtain ⟨f, hf, ht⟩ := Option.map_eq_some_iff.mp h
  rw [List.getLastD_eq_getLast?, hf, Option.getD_some, ht]

/-- A branch to a frame marks it. -/
theorem marked_markNth {fs : List ControlFrame} {d : Nat} {l : WasmLabel}
    (h : (nthBlock fs d).brTarget = .label l) : Marked (Conv.markNth fs d) l := by
  induction fs generalizing d with
  | nil => cases h
  | cons f fs ih =>
    cases d with
    | zero =>
      refine ⟨f.markBranchedTo, List.mem_cons_self, (f.markBranchedTo_brTarget).trans h, ?_⟩
      rcases f with ⟨id, a, r, _ | _ | _ | _⟩ <;> simp [ControlFrame.markBranchedTo]
    | succ d =>
      obtain ⟨g, hg, ht, hk⟩ := ih (d := d) h
      exact ⟨g, List.mem_cons_of_mem _ hg, ht, hk⟩

theorem nthBlock_brTarget_of_marks {fs gs : List ControlFrame} (h : FramesMark fs gs) (d : Nat) :
    (nthBlock gs d).brTarget = (nthBlock fs d).brTarget := by
  induction h generalizing d with
  | nil => rfl
  | cons hfg _ ih =>
    cases d with
    | zero => exact hfg.brTarget
    | succ d => exact ih d

theorem marked_foldl {fs : List ControlFrame} {ds : List Nat} {d : Nat} {l : WasmLabel}
    (hd : d ∈ ds) (h : (nthBlock fs d).brTarget = .label l) :
    Marked (ds.foldl Conv.markNth fs) l := by
  induction ds generalizing fs with
  | nil => cases hd
  | cons d' ds ih =>
    rcases List.mem_cons.mp hd with rfl | hd
    · exact (marked_markNth h).mono (framesMark_foldl ds _)
    · exact ih hd ((nthBlock_brTarget_of_marks (framesMark_markNth fs d') d).trans h)

/-- An unconditional branch only branches, and marks where it goes. -/
theorem Jump.local_emit (j : Jump) {fs : List ControlFrame} {id : Nat}
    (stack : List SignlessType) (hfs : FramesBelow fs id) (hroot : Rooted fs) :
    Local (j.emit fs stack) (j.marks.foldl Conv.markNth fs) id id := by
  refine .of_branches (hfs.of_marks (framesMark_foldl _ _)) ?_ ?_
  · intro l
    cases j with
    | unreachable => simp [Jump.emit, Operator.events, OnlyBranches]
    | br d =>
      simpa [Jump.emit, jumpTo, dropOps_events, Operator.events] using onlyBranches_target _ l
    | brTable ts d =>
      simp only [Jump.emit, labelEvents_cons, labelEvents_nil, List.append_nil, Operator.events]
      refine OnlyBranches.append ?_ (onlyBranches_target _ l)
      intro e he
      obtain ⟨t, -, he⟩ := List.mem_flatMap.mp he
      exact onlyBranches_target _ l e he
    | return_ =>
      simpa [Jump.emit, jumpTo, dropOps_events, Operator.events] using onlyBranches_target _ l
  · intro l hne
    cases j with
    | unreachable => simp [Jump.emit, Operator.events] at hne
    | br d =>
      simp only [Jump.emit, jumpTo, labelEvents_append, dropOps_events, labelEvents_cons,
        labelEvents_nil, List.append_nil, List.nil_append, Operator.events] at hne
      exact marked_foldl (by simp [Jump.marks]) (events_target_ne_nil hne)
    | brTable ts d =>
      simp only [Jump.emit, labelEvents_cons, labelEvents_nil, List.append_nil,
        Operator.events] at hne
      by_cases hd : (branchTo fs stack.tail d).target.events l = []
      · rw [hd, List.append_nil] at hne
        obtain ⟨e, he⟩ := List.exists_mem_of_ne_nil _ hne
        obtain ⟨t, ht, he⟩ := List.mem_flatMap.mp he
        obtain ⟨d', hd', rfl⟩ := List.mem_map.mp ht
        exact marked_foldl (d := d') (by simp [Jump.marks, hd'])
          (events_target_ne_nil (List.ne_nil_of_mem he))
      · exact marked_foldl (d := d) (by simp [Jump.marks]) (events_target_ne_nil hd)
    | return_ =>
      simp only [Jump.emit, jumpTo, labelEvents_append, dropOps_events, labelEvents_cons,
        labelEvents_nil, Operator.events, hroot.getLastD, events_ret] at hne
      exact absurd rfl hne

/-! ## The events of blocks -/

theorem elseOps_events {id : Nat} {u : Bool} {l : WasmLabel} (h : l.1 ≠ id) :
    labelEvents l (elseOps id u) = [] := by
  have h₁ : ∀ tag, (id, tag) ≠ l := fun tag heq => h (by rw [← heq])
  cases u <;> simp [elseOps, Operator.events, h₁]

/-- The `end` of a block names only the block's own labels. -/
theorem closeOps_events {g : ControlFrame} {u : Bool} {l : WasmLabel} (h : l.1 ≠ g.id) :
    labelEvents l (closeOps g u) = [] := by
  have h₁ : ∀ tag, (g.id, tag) ≠ l := fun tag heq => h (by rw [← heq])
  unfold closeOps
  split
  · simp [elseOps_events h, Operator.events, h₁]
  · split
    · simp [Operator.events, h₁]
    · split <;> simp [Operator.events, h₁]

/-- A `br_if`: the label of the fall-through path is entered once. -/
theorem local_brIf {fs : List ControlFrame} {id d : Nat} (params : List SignlessType)
    (toDrop : Option DropRange) (hfs : FramesBelow fs id) :
    Local [.callOnce params (id, .header),
      .brIf ⟨(nthBlock fs d).brTarget, toDrop⟩ (BrTarget.label (id, .header)).keep,
      .label (id, .header)] (Conv.markNth fs d) id (id + 1) := by
  have hmark := hfs.of_marks (framesMark_markNth fs d)
  have htarget : ∀ tag, (nthBlock fs d).brTarget.events (id, tag) = [] := by
    intro tag
    by_contra hne
    have := (marked_markNth (events_target_ne_nil hne)).id_lt hmark
    simp at this
  -- The branch as it stands inside a frame with the new identifier.
  have hbody : Local [.br (nthBlock fs d).brTarget]
      (⟨id, 0, [], .function⟩ :: Conv.markNth fs d) (id + 1) (id + 1) := by
    refine .of_branches (.cons (Nat.lt_succ_self id) (hmark.mono (Nat.le_succ id))) ?_ ?_
    · intro l
      simpa [Operator.events] using onlyBranches_target _ l
    · intro l hne
      simp only [labelEvents_cons, labelEvents_nil, List.append_nil, Operator.events] at hne
      obtain ⟨g, hg, ht, hk⟩ := marked_markNth (events_target_ne_nil hne)
      exact ⟨g, List.mem_cons_of_mem _ hg, ht, hk⟩
  refine hbody.wrap rfl ?_ ?_
  · intro l hl
    have h₁ : (id, NameTag.header) ≠ l := fun heq => hl (by rw [← heq])
    simp [Operator.callOnce, Operator.events, BrTarget.keep, h₁]
  · intro tag
    cases tag with
    | header =>
      simp only [Operator.callOnce, Operator.events, BrTarget.keep, labelEvents_cons,
        labelEvents_nil, htarget, events_label, if_true, List.nil_append, List.append_nil,
        List.cons_append]
      exact disciplined_once
    | else_ => simp [Operator.callOnce, Operator.events, BrTarget.keep, htarget, Disciplined]
    | end_ => simp [Operator.callOnce, Operator.events, BrTarget.keep, htarget, Disciplined]

section Wrap

variable {body : List OperatorFromWasm} {g : ControlFrame} {gs : List ControlFrame}
  {id hi : Nat} {params params' : List SignlessType} {u : Bool}

/-- A block and its `end`. -/
theorem Local.block (hb : Local body (g :: gs) (id + 1) hi) (hg : g.id = id)
    (hgs : FramesBelow gs id) (hk : ∃ b, g.kind = .block b) :
    Local (.endBlock params (id, .end_) :: (body ++ closeOps g u)) gs id hi := by
  obtain ⟨b, hk⟩ := hk
  have hown : ∀ tag, tag ≠ .end_ → labelEvents (id, tag) body = [] := by
    intro tag htag
    by_contra hne
    have ht := (hb.own hgs hne).1
    simp only [ControlFrame.brTarget, hk, BrTarget.label.injEq, Prod.mk.injEq] at ht
    exact htag ht.2.symm
  refine hb.wrap hg ?_ ?_
  · intro l hl
    have h₁ : (id, NameTag.end_) ≠ l := fun heq => hl (by rw [← heq])
    simp [Operator.endBlock, Operator.events, h₁, closeOps_events (hg ▸ hl)]
  · intro tag
    have hbs := hb.below (id, .end_) (Nat.lt_succ_self id)
    cases tag with
    | end_ =>
      simp only [Operator.endBlock, Operator.events, labelEvents_cons, labelEvents_append,
        if_true, List.cons_append, List.nil_append]
      cases u with
      | true =>
        simp only [closeOps, hk, reduceCtorEq, if_false, if_true, hg, labelEvents_cons,
          labelEvents_nil, Operator.events, List.append_nil]
        exact disciplined_end hbs
      | false =>
        cases b with
        | true =>
          have hbs' : OnlyBranches (labelEvents (id, .end_) body ++ [.branch]) :=
            hbs.append (by simp [OnlyBranches])
          simpa [closeOps, hk, hg, Operator.events, ControlFrame.needsEndLabel] using
            disciplined_end hbs'
        | false =>
          have hnil : labelEvents (id, .end_) body = [] := by
            by_contra hne
            exact (hb.own hgs hne).2 hk
          simpa [closeOps, hk, hnil, ControlFrame.needsEndLabel] using disciplined_unused
    | header =>
      refine .inl ?_
      cases u <;> cases b <;>
        simp [Operator.endBlock, Operator.events, hown, closeOps, hk, ControlFrame.needsEndLabel]
    | else_ =>
      refine .inl ?_
      cases u <;> cases b <;>
        simp [Operator.endBlock, Operator.events, hown, closeOps, hk, ControlFrame.needsEndLabel]

/-- A loop and its `end`. -/
theorem Local.loop (hb : Local body (g :: gs) (id + 1) hi) (hg : g.id = id)
    (hgs : FramesBelow gs id) (hk : g.kind = .loop) :
    Local ([.loopHeader params (id, .header), .endBlock params' (id, .end_),
      .br (.label (id, .header)), .label (id, .header)] ++ (body ++ closeOps g u)) gs id hi := by
  have hown : ∀ tag, tag ≠ .header → labelEvents (id, tag) body = [] := by
    intro tag htag
    by_contra hne
    have ht := (hb.own hgs hne).1
    simp only [ControlFrame.brTarget, hk, BrTarget.label.injEq, Prod.mk.injEq] at ht
    exact htag ht.2.symm
  refine hb.wrap hg ?_ ?_
  · intro l hl
    have h₁ : ∀ tag, (id, tag) ≠ l := fun tag heq => hl (by rw [← heq])
    simp [Operator.endBlock, Operator.loopHeader, Operator.events, h₁, closeOps_events (hg ▸ hl)]
  · intro tag
    cases tag with
    | header =>
      have hbs := hb.below (id, .header) (Nat.lt_succ_self id)
      have := disciplined_header hbs
      cases u <;>
        simpa [Operator.endBlock, Operator.loopHeader, Operator.events, closeOps, hk,
          ControlFrame.needsEndLabel] using this
    | else_ =>
      refine .inl ?_
      cases u <;>
        simp [Operator.endBlock, Operator.loopHeader, Operator.events, hown, closeOps, hk,
          ControlFrame.needsEndLabel]
    | end_ =>
      have hend := @disciplined_end [] (by simp [OnlyBranches])
      cases u with
      | true =>
        simpa [Operator.endBlock, Operator.loopHeader, Operator.events, hown, closeOps, hk, hg]
          using hend
      | false =>
        simpa [Operator.endBlock, Operator.loopHeader, Operator.events, hown, closeOps, hk,
          ControlFrame.needsEndLabel] using disciplined_unused

/-- An `if` with its arms `b` and `c`; a missing arm is empty. -/
theorem Local.if_ {b c post : List OperatorFromWasm} (hb : Local (b ++ c) (g :: gs) (id + 1) hi)
    (hg : g.id = id) (hgs : FramesBelow gs id) (hk : ∃ e, g.kind = .if_ e)
    (hpost : post = [.label (id, .end_)] ∨
      post = [.br (.label (id, .end_)), .label (id, .end_)]) :
    Local ([.callOnce params (id, .header), .callOnce params (id, .else_),
      .endBlock params' (id, .end_),
      .brIf (BrTarget.label (id, .header)).keep (BrTarget.label (id, .else_)).keep,
      .label (id, .header)] ++ (b ++ elseOps id u ++ (c ++ post))) gs id hi := by
  obtain ⟨e, hk⟩ := hk
  have hown : ∀ tag, tag ≠ .end_ → labelEvents (id, tag) b = [] ∧ labelEvents (id, tag) c = [] := by
    intro tag htag
    rw [← List.append_eq_nil_iff, ← labelEvents_append]
    by_contra hne
    have ht := (hb.own hgs hne).1
    simp only [ControlFrame.brTarget, hk, BrTarget.label.injEq, Prod.mk.injEq] at ht
    exact htag ht.2.symm
  refine hb.wrap hg ?_ ?_
  · intro l hl
    have h₁ : ∀ tag, (id, tag) ≠ l := fun tag heq => hl (by rw [← heq])
    rcases hpost with rfl | rfl <;>
      simp [Operator.endBlock, Operator.callOnce, Operator.events, BrTarget.keep, h₁,
        elseOps_events hl]
  · intro tag
    cases tag with
    | header =>
      obtain ⟨hb', hc'⟩ := hown .header (by simp)
      rcases hpost with rfl | rfl <;> cases u <;>
        simpa [Operator.endBlock, Operator.callOnce, Operator.events, BrTarget.keep, elseOps,
          hb', hc'] using disciplined_once
    | else_ =>
      obtain ⟨hb', hc'⟩ := hown .else_ (by simp)
      rcases hpost with rfl | rfl <;> cases u <;>
        simpa [Operator.endBlock, Operator.callOnce, Operator.events, BrTarget.keep, elseOps,
          hb', hc'] using disciplined_once
    | end_ =>
      have hbs := hb.below (id, .end_) (Nat.lt_succ_self id)
      rw [labelEvents_append] at hbs
      have hone : OnlyBranches [.branch] := by simp [OnlyBranches]
      have hbb : OnlyBranches (labelEvents (id, .end_) b) :=
        fun ev hev => hbs ev (List.mem_append_left _ hev)
      have hbc : OnlyBranches (labelEvents (id, .end_) c) :=
        fun ev hev => hbs ev (List.mem_append_right _ hev)
      rcases hpost with rfl | rfl
      · cases u
        · simpa [Operator.endBlock, Operator.callOnce, Operator.events, BrTarget.keep, elseOps]
            using disciplined_end (hbb.append (hone.append hbc))
        · simpa [Operator.endBlock, Operator.callOnce, Operator.events, BrTarget.keep, elseOps]
            using disciplined_end (hbb.append hbc)
      · cases u
        · simpa [Operator.endBlock, Operator.callOnce, Operator.events, BrTarget.keep, elseOps]
            using disciplined_end (hbb.append (hone.append (hbc.append hone)))
        · simpa [Operator.endBlock, Operator.callOnce, Operator.events, BrTarget.keep, elseOps]
            using disciplined_end (hbb.append (hbc.append hone))

end Wrap

/-! ## The events of a sequence -/

@[simp]
theorem nthBlock_zero (g : ControlFrame) (gs : List ControlFrame) : nthBlock (g :: gs) 0 = g := rfl

theorem closeOps_then {g : ControlFrame} {u : Bool} (hk : g.kind = .if_ false) :
    closeOps g u =
      elseOps g.id u ++ [.br (.label (g.id, .end_)), .label (g.id, .end_)] := by
  simp [closeOps, hk]

theorem closeOps_else {g : ControlFrame} {u : Bool} (hk : g.kind = .if_ true) :
    closeOps g u = [.label (g.id, .end_)] ∨
      closeOps g u = [.br (.label (g.id, .end_)), .label (g.id, .end_)] := by
  cases u <;> simp [closeOps, hk, ControlFrame.needsEndLabel]

/-- Marks survive the `else` of an `if`. -/
theorem Marked.setHasElse {g : ControlFrame} {gs : List ControlFrame} {l : WasmLabel}
    (h : Marked (g :: gs) l) : Marked (g.setHasElse :: gs) l := by
  obtain ⟨f, hf, ht, hk⟩ := h
  rcases List.mem_cons.mp hf with rfl | hf
  · refine ⟨f.setHasElse, List.mem_cons_self, ?_, ?_⟩
    · rw [← ht]
      rcases f with ⟨id, a, r, _ | _ | _ | _⟩ <;> rfl
    · rcases f with ⟨id, a, r, _ | _ | _ | _⟩ <;> simp_all [ControlFrame.setHasElse]
  · exact ⟨f, List.mem_cons_of_mem _ hf, ht, hk⟩

/-- The events of a translated sequence. -/
def Code.Labelled (c : Code) : Prop :=
  ∀ (m : ModuleContext) (fs : List ControlFrame) (id : Nat) (stack : List SignlessType),
    FramesBelow fs id → Rooted fs →
    Local (c.emit m fs id stack).ops (c.emit m fs id stack).frames id (c.emit m fs id stack).id

section Sequence

variable {m : ModuleContext} {fs gs : List ControlFrame} {id mid : Nat}
  {stack : List SignlessType}

/-- The body of a block, seen from its frame. -/
theorem Code.Labelled.inner {body : Code} (hb : body.Labelled) (m : ModuleContext)
    (f : ControlFrame) (stack : List SignlessType) (hf : f.id < mid) (hfs : FramesBelow fs mid)
    (hroot : Rooted fs) :
    ∃ g gs, (body.emit m (f :: fs) mid stack).frames = g :: gs ∧ f.Marks g ∧ FramesMark fs gs ∧
      Local (body.emit m (f :: fs) mid stack).ops (g :: gs) mid
        (body.emit m (f :: fs) mid stack).id := by
  obtain ⟨hcons, hmark, htail⟩ := (body.emit_frames m (f :: fs) mid stack).of_cons
  refine ⟨_, _, hcons, hmark, htail, ?_⟩
  rw [← hcons]
  exact hb m (f :: fs) mid stack (.cons hf hfs) (hroot.cons f)

/-- What follows a block. -/
theorem Code.Labelled.after {rest : Code} (hr : rest.Labelled) {pre : List OperatorFromWasm}
    (hpre : Local pre gs id mid) (hgs : FramesBelow gs id) (hroot : Rooted gs) :
    Local (pre ++ (rest.emit m gs mid stack).ops) (rest.emit m gs mid stack).frames id
      (rest.emit m gs mid stack).id := by
  have hm := rest.emit_frames m gs mid stack
  exact hpre.append (hr m gs mid stack (hgs.mono hpre.le) hroot) (hgs.of_marks hm)
    fun l hl => hl.mono hm

end Sequence

/-- **The events of a translated sequence**, by the structure of the sequence. -/
theorem Code.emit_local (c : Code) : c.Labelled := by
  induction c with
  | nil =>
    intro m fs id stack hfs hroot
    exact .of_branches hfs (by simp [Code.emit, OnlyBranches]) (by simp [Code.emit])
  | simple i rest ih =>
    intro m fs id stack hfs hroot
    refine (ih m fs id _ hfs hroot).congr ?_
    intro l
    simp [Code.emit, Emitted.prepend, i.events_emit]
  | jump j rest _ =>
    intro m fs id stack hfs hroot
    exact j.local_emit stack hfs hroot
  | brIf d rest ih =>
    intro m fs id stack hfs hroot
    have hmark := framesMark_markNth fs d
    exact ih.after (local_brIf stack.tail _ hfs) (hfs.of_marks hmark) (hroot.of_marks hmark)
  | block ty body rest ihb ihr =>
    intro m fs id stack hfs hroot
    obtain ⟨g, gs, hg, hmark, htail, hb⟩ := ihb.inner m
      ⟨id, stack.length, ty.toList, .block false⟩ stack (Nat.lt_succ_self id)
      (hfs.mono (Nat.le_succ id)) hroot
    have hk : ∃ b, g.kind = .block b := by
      rcases hmark with rfl | rfl <;> exact ⟨_, rfl⟩
    simp only [Code.emit, Emitted.prepend, Emitted.close, hg, nthBlock_zero, List.tail_cons]
    exact ihr.after (hb.block hmark.id (hfs.of_marks htail) hk) (hfs.of_marks htail)
      (hroot.of_marks htail)
  | loop ty body rest ihb ihr =>
    intro m fs id stack hfs hroot
    obtain ⟨g, gs, hg, hmark, htail, hb⟩ := ihb.inner m ⟨id, stack.length, ty.toList, .loop⟩ stack
      (Nat.lt_succ_self id) (hfs.mono (Nat.le_succ id)) hroot
    have hk := congrArg ControlFrame.kind (hmark.eq_of_not_block fun b => by simp)
    simp only [Code.emit, Emitted.prepend, Emitted.close, hg, nthBlock_zero, List.tail_cons]
    exact ihr.after (hb.loop hmark.id (hfs.of_marks htail) hk) (hfs.of_marks htail)
      (hroot.of_marks htail)
  | ifThen ty then_ rest ihb ihr =>
    intro m fs id stack hfs hroot
    obtain ⟨g, gs, hg, hmark, htail, hb⟩ := ihb.inner m
      ⟨id, stack.tail.length, ty.toList, .if_ false⟩ stack.tail (Nat.lt_succ_self id)
      (hfs.mono (Nat.le_succ id)) hroot
    obtain rfl := hmark.eq_of_not_block fun b => by simp
    simp only [Code.emit, Emitted.prepend, Emitted.close, hg, nthBlock_zero, List.tail_cons]
    rw [closeOps_then rfl, ← List.append_assoc (Code.emit m then_ _ _ _).ops]
    rw [← List.append_nil (Code.emit m then_ _ _ _).ops] at hb
    exact ihr.after (hb.if_ rfl (hfs.of_marks htail) ⟨_, rfl⟩ (.inr rfl)) (hfs.of_marks htail)
      (hroot.of_marks htail)
  | ifElse ty then_ else_ rest ihb ihc ihr =>
    intro m fs id stack hfs hroot
    obtain ⟨g, gs, hg, hmark, htail, hb⟩ := ihb.inner m
      ⟨id, stack.tail.length, ty.toList, .if_ false⟩ stack.tail (Nat.lt_succ_self id)
      (hfs.mono (Nat.le_succ id)) hroot
    obtain rfl := hmark.eq_of_not_block fun b => by simp
    have hgs := hfs.of_marks htail
    obtain ⟨g', gs', hg', hmark', htail', hc⟩ := ihc.inner m
      (ControlFrame.setHasElse ⟨id, stack.tail.length, ty.toList, .if_ false⟩) stack.tail
      (Nat.lt_of_lt_of_le (Nat.lt_succ_self id) hb.le) (hgs.mono (Nat.le_of_succ_le hb.le))
      (hroot.of_marks htail)
    obtain rfl := hmark'.eq_of_not_block fun b => by simp [ControlFrame.setHasElse]
    have hbc := hb.append hc (.cons (Nat.lt_succ_self id)
        ((hgs.of_marks htail').mono (Nat.le_succ id)))
      fun l hl => hl.setHasElse.mono (.cons (.refl _) htail')
    simp only [Code.emit, Emitted.prepend, Emitted.close, Emitted.framesElse, hg, nthBlock_zero,
      List.tail_cons, hg']
    exact ihr.after (hbc.if_ rfl (hgs.of_marks htail') ⟨_, rfl⟩ (closeOps_else rfl))
      (hgs.of_marks htail') ((hroot.of_marks htail).of_marks htail')

/-! ## The operator before a label -/

/-- Every `Label` comes after an operator that stops; `prev` says whether the operator before the
list does. -/
def closedFrom (prev : Bool) : List OperatorFromWasm → Bool
  | [] => true
  | .label _ :: ops => prev && closedFrom false ops
  | op :: ops => closedFrom op.stops ops

/-- Whether the last operator stops. -/
def stopsAfter (prev : Bool) (ops : List OperatorFromWasm) : Bool :=
  ops.foldl (fun _ op => op.stops) prev

@[simp]
theorem stopsAfter_append (prev : Bool) (a b : List OperatorFromWasm) :
    stopsAfter prev (a ++ b) = stopsAfter (stopsAfter prev a) b :=
  List.foldl_append

theorem closedFrom_cons (prev : Bool) (op : OperatorFromWasm) (ops : List OperatorFromWasm) :
    closedFrom prev (op :: ops) = (closedFrom prev [op] && closedFrom op.stops ops) := by
  cases op <;> simp [closedFrom, Operator.stops]

@[simp]
theorem closedFrom_append (prev : Bool) (a b : List OperatorFromWasm) :
    closedFrom prev (a ++ b) = (closedFrom prev a && closedFrom (stopsAfter prev a) b) := by
  induction a generalizing prev with
  | nil => simp [closedFrom, stopsAfter]
  | cons op a ih =>
    rw [List.cons_append, closedFrom_cons, closedFrom_cons prev op a, ih, Bool.and_assoc]
    rfl

theorem labelsClosed_of_closedFrom {ops : List OperatorFromWasm}
    (h : closedFrom false ops = true) : LabelsClosed ops := by
  rintro before l after rfl
  rw [closedFrom_append, Bool.and_eq_true] at h
  have hstop : stopsAfter false before = true := by
    have := h.2
    simp only [closedFrom, Bool.and_eq_true] at this
    exact this.1
  rcases List.eq_nil_or_concat before with rfl | ⟨before', op, rfl⟩
  · cases hstop
  · rw [List.concat_eq_append] at hstop ⊢
    exact ⟨before', op, rfl, by simpa [stopsAfter] using hstop⟩

/-- An operator list closes its labels wherever it stands. -/
def Closed (ops : List OperatorFromWasm) : Prop :=
  ∀ prev, closedFrom prev ops = true

theorem Closed.append {a b : List OperatorFromWasm} (ha : Closed a) (hb : Closed b) :
    Closed (a ++ b) := by
  intro prev
  rw [closedFrom_append, ha, hb]
  rfl

/-- `a` stops where `u` says so, and `b` closes its labels after an operator that does. -/
theorem Closed.append_of_stops {a b : List OperatorFromWasm} {u : Bool} (ha : Closed a)
    (hstop : u = true → ∀ prev, stopsAfter prev a = true)
    (hb : ∀ prev, (u = true → prev = true) → closedFrom prev b = true) : Closed (a ++ b) := by
  intro prev
  rw [closedFrom_append, ha, hb _ fun hu => hstop hu prev]
  rfl

theorem elseOps_closed {id : Nat} {u prev : Bool} (h : u = true → prev = true) :
    closedFrom prev (elseOps id u) = true := by
  cases u with
  | true => simp [elseOps, closedFrom, h rfl]
  | false => simp [elseOps, closedFrom, Operator.stops]

theorem closeOps_closed {g : ControlFrame} {u prev : Bool} (h : u = true → prev = true) :
    closedFrom prev (closeOps g u) = true := by
  unfold closeOps
  split
  · rw [closedFrom_append, elseOps_closed h]
    simp [closedFrom, Operator.stops]
  · split
    · next hu => simp [closedFrom, h hu]
    · split <;> simp [closedFrom, Operator.stops]

theorem dropOps_closed (r : Option DropRange) : Closed (dropOps r) := by
  intro prev
  cases r <;> simp [dropOps, closedFrom]

theorem Simple.closed_emit (i : Simple) (height : Nat) : Closed (i.emit height) := by
  intro prev
  cases i <;> simp [Simple.emit, closedFrom]

theorem Jump.closed_emit (j : Jump) (fs : List ControlFrame) (stack : List SignlessType) :
    Closed (j.emit fs stack) ∧ ∀ prev, stopsAfter prev (j.emit fs stack) = true := by
  have hbr : ∀ block, Closed (jumpTo stack block) ∧ ∀ prev, stopsAfter prev (jumpTo stack block) =
      true := fun block =>
    ⟨(dropOps_closed _).append fun prev => by simp [closedFrom],
      fun prev => by simp [jumpTo, stopsAfter, Operator.stops]⟩
  cases j with
  | unreachable => exact ⟨fun prev => by simp [Jump.emit, closedFrom], fun prev => rfl⟩
  | br d => exact hbr _
  | brTable ts d => exact ⟨fun prev => by simp [Jump.emit, closedFrom], fun prev => rfl⟩
  | return_ => exact hbr _

/-- **Labels in a translated sequence are closed**, and a sequence whose end is unreachable
stops. -/
theorem Code.emit_closed (m : ModuleContext) (c : Code) (fs : List ControlFrame) (id : Nat)
    (stack : List SignlessType) :
    Closed (c.emit m fs id stack).ops ∧
      ((c.emit m fs id stack).unreachable = true →
        ∀ prev, stopsAfter prev (c.emit m fs id stack).ops = true) := by
  induction c generalizing fs id stack with
  | nil => exact ⟨fun _ => rfl, fun h => nomatch h⟩
  | simple i rest ih =>
    obtain ⟨hc, hs⟩ := ih fs id (i.stackAfter m stack)
    refine ⟨(i.closed_emit _).append hc, fun hu prev => ?_⟩
    rw [Code.emit, Emitted.prepend, stopsAfter_append]
    exact hs hu _
  | jump j rest _ =>
    obtain ⟨hc, hs⟩ := j.closed_emit fs stack
    exact ⟨hc, fun _ => hs⟩
  | brIf d rest ih =>
    obtain ⟨hc, hs⟩ := ih (Conv.markNth fs d) (id + 1) stack.tail
    refine ⟨.append (fun prev => ?_) hc, fun hu prev => ?_⟩
    · simp [closedFrom, Operator.callOnce, Operator.stops]
    · rw [Code.emit, Emitted.prepend, stopsAfter_append]
      exact hs hu _
  | block ty body rest ihb ihr =>
    obtain ⟨hbc, hbs⟩ := ihb (⟨id, stack.length, ty.toList, .block false⟩ :: fs) (id + 1) stack
    obtain ⟨hrc, hrs⟩ := ihr _ _ (ty.toList ++ stack)
    refine ⟨.append (fun prev => ?_) hrc, fun hu prev => ?_⟩
    · exact hbc.append_of_stops hbs (fun prev h => closeOps_closed h) _
    · rw [Code.emit, Emitted.prepend, stopsAfter_append]
      exact hrs hu _
  | loop ty body rest ihb ihr =>
    obtain ⟨hbc, hbs⟩ := ihb (⟨id, stack.length, ty.toList, .loop⟩ :: fs) (id + 1) stack
    obtain ⟨hrc, hrs⟩ := ihr _ _ (ty.toList ++ stack)
    refine ⟨.append (.append (fun prev => ?_) ?_) hrc, fun hu prev => ?_⟩
    · simp [closedFrom, Operator.loopHeader, Operator.endBlock, Operator.stops]
    · exact hbc.append_of_stops hbs fun prev h => closeOps_closed h
    · rw [Code.emit, Emitted.prepend, stopsAfter_append]
      exact hrs hu _
  | ifThen ty then_ rest ihb ihr =>
    obtain ⟨hbc, hbs⟩ := ihb (⟨id, stack.tail.length, ty.toList, .if_ false⟩ :: fs) (id + 1)
      stack.tail
    obtain ⟨hrc, hrs⟩ := ihr _ _ (ty.toList ++ stack.tail)
    refine ⟨.append (.append (fun prev => ?_) ?_) hrc, fun hu prev => ?_⟩
    · simp [closedFrom, Operator.callOnce, Operator.endBlock, Operator.stops]
    · exact hbc.append_of_stops hbs fun prev h => closeOps_closed h
    · rw [Code.emit, Emitted.prepend, stopsAfter_append]
      exact hrs hu _
  | ifElse ty then_ else_ rest ihb ihc ihr =>
    obtain ⟨hbc, hbs⟩ := ihb (⟨id, stack.tail.length, ty.toList, .if_ false⟩ :: fs) (id + 1)
      stack.tail
    obtain ⟨hcc, hcs⟩ := ihc _ _ stack.tail
    obtain ⟨hrc, hrs⟩ := ihr _ _ (ty.toList ++ stack.tail)
    refine ⟨.append (.append (fun prev => ?_) (.append ?_ ?_)) hrc, fun hu prev => ?_⟩
    · simp [closedFrom, Operator.callOnce, Operator.endBlock, Operator.stops]
    · exact hbc.append_of_stops hbs fun prev h => elseOps_closed h
    · exact hcc.append_of_stops hcs fun prev h => closeOps_closed h
    · rw [Code.emit, Emitted.prepend, stopsAfter_append]
      exact hrs hu _

/-! ## Whole functions -/

theorem Func.rooted (f : Func) : Rooted [f.frame] := rfl

theorem Func.consts_events (f : Func) (l : WasmLabel) : labelEvents l f.consts = [] := by
  unfold Func.consts labelEvents
  rw [List.flatMap_map]
  exact List.flatMap_eq_nil_iff.mpr fun _ _ => rfl

theorem Func.consts_closed (f : Func) : Closed f.consts := by
  intro prev
  unfold Func.consts
  induction f.declared generalizing prev with
  | nil => rfl
  | cons ty tys ih => exact ih _

theorem microwasm_disciplined (m : ModuleContext) (f : Func) (l : WasmLabel) :
    Disciplined (labelEvents l (f.microwasm m)) := by
  have h := f.body.emit_local m [f.frame] 1 f.localTypes.reverse
    (fun g hg => by rw [List.mem_singleton.mp hg]; exact Nat.one_pos) f.rooted
  have hend : labelEvents l (if (f.emit m).unreachable then [] else [.br .ret]) = [] := by
    split <;> rfl
  rw [Func.microwasm, labelEvents_append, labelEvents_append, f.consts_events, hend,
    List.append_nil, List.nil_append]
  by_cases h₁ : 1 ≤ l.1
  · by_cases h₂ : l.1 < (f.emit m).id
    · exact h.inside l h₁ h₂
    · exact .inl (h.above l (Nat.not_lt.mp h₂))
  · -- The function's frame has no label.
    refine .inl ?_
    by_contra hne
    obtain ⟨g, hg, ht, -⟩ := h.marked l (Nat.not_le.mp h₁) hne
    obtain ⟨f', hf', hm⟩ := mem_of_framesMark (f.body.emit_frames m [f.frame] 1 _) hg
    rw [hm.brTarget, List.mem_singleton.mp hf'] at ht
    cases ht

theorem microwasm_closed (m : ModuleContext) (f : Func) : LabelsClosed (f.microwasm m) := by
  refine labelsClosed_of_closedFrom (Closed.append f.consts_closed (.append ?_ ?_) false)
  · exact (f.body.emit_closed m [f.frame] 1 f.localTypes.reverse).1
  · intro prev
    split <;> simp [closedFrom]

/-- **Label discipline**: the generator yields a stream for every validated function, and along it
every label is declared once and first, defined at most once and whenever it is branched to,
called exactly once where the `Block` says one caller, never branched to after its `Label` where
the `Block` says no backwards callers; every `Label` follows an operator that does not fall
through. -/
theorem labels_disciplined (m : ModuleContext) (f : Func) (h : f.Validated m) :
    ∃ ops, f.conv.stream m = some ops ∧ (∀ l, Disciplined (labelEvents l ops)) ∧
      LabelsClosed ops :=
  ⟨f.microwasm m, stream_conv h, microwasm_disciplined m f, microwasm_closed m f⟩

/-- A module whose functions take and return nothing. -/
def emptyModule : ModuleContext where
  funcType _ := ⟨[], none⟩
  signature _ := ⟨[], none⟩
  globalType _ := I32

/-- `(func (param i32) (block (loop (br_if 1 (local.get 0)) (if (local.get 0) (then (br 1))))))`. -/
def leaveLoop : Func where
  type := ⟨[I32], none⟩
  locals := []
  body := .block none (.loop none (.simple (.getLocal 0) (.brIf 1 (.simple (.getLocal 0)
    (.ifThen none (.jump (.br 1) .nil) .nil)))) .nil) .nil

theorem leaveLoop_validated : leaveLoop.Validated emptyModule :=
  ⟨.live [], by decide, by decide⟩

theorem labels_disciplined_leaveLoop :
    leaveLoop.Validated emptyModule ∧
      ∃ ops, leaveLoop.conv.stream emptyModule = some ops ∧
        (∀ l, Disciplined (labelEvents l ops)) ∧ LabelsClosed ops :=
  ⟨leaveLoop_validated, labels_disciplined emptyModule leaveLoop leaveLoop_validated⟩

end Wasmtime.Lightbeam
