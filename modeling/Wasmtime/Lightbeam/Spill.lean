import Mathlib
import Wasmtime.Lightbeam.Backend

/-!
# Taking a register

What `take_reg` in `lightbeam/src/backend.rs` does. When no register of the type is free, `free_reg` pushes
the lowest register of the virtual stack onto the real one, and the entries that were in it are in the new
slot from then on; `take_reg` goes on until a register is free or there is nothing left to push. A register
that has 255 references cannot be pushed: `to_reg` makes one more, and its count overflows.

* `Coherent`: the free bits agree with the reference counts, a register has at least the references that the
  virtual stack and the value in hand make, and stack slots are in the frame.
* `NoSpill`, `CanTake`: taking a register pushes none; a register can be taken, after pushes if need be.
* `Context.spill`: the state after `free_reg` has pushed a register.
* `Kept`: every value of the virtual stack, every register and every slot of the frame is as it was.

* `Takes`: the outcome of `take_reg`, with the registers that are pushed.

Results: `freeReg_rq`, `freeReg_full`, `takeReg_rq` and `kept_spills`.
-/

namespace Wasmtime.Lightbeam.Backend

open Function (update)

/-! ## Reference counts -/

namespace Registers

/-- The registers with these reference counts: those without a reference are free. -/
def ofCount (count : GPR → Nat) : Registers where
  free r := count r == 0
  count := count

@[simp] theorem ofCount_count (c : GPR → Nat) : (ofCount c).count = c := rfl

theorem new_eq : Registers.new = ofCount Registers.new.count := by
  rw [ofCount, Registers.new]
  congr 1
  funext r
  by_cases h : r ∈ scratchRegs <;> simp [h]

theorem new_count_le (r : GPR) : Registers.new.count r ≤ 1 := by
  change (if r ∈ scratchRegs then 0 else 1) ≤ 1
  split <;> decide

theorem markUsed_ofCount {checks : Bool} {c : GPR → Nat} {r : GPR} (h : c r < 255) :
    (ofCount c).markUsed checks r = some (ofCount (update c r (c r + 1))) := by
  rw [markUsed, if_neg (fun hfull => Nat.ne_of_lt h hfull.2), ofCount, ofCount]
  congr 2 <;> funext r' <;> by_cases hr : r' = r
  · subst hr
    simp
  · simp [hr]
  · subst hr
    simp only [if_true, Function.update_self]
    omega
  · simp [hr]

/-- One reference too many: the count overflows, or is 0 where overflows are not checked. -/
theorem markUsed_full {checks : Bool} {c : GPR → Nat} {r : GPR} (h : c r = 255) :
    (ofCount c).markUsed checks r = none ∨
      ∃ regs, (ofCount c).markUsed checks r = some regs ∧ regs.release r = none := by
  unfold markUsed
  cases checks with
  | true => exact .inl (if_pos ⟨rfl, h⟩)
  | false =>
    refine .inr ⟨_, if_neg (by simp), ?_⟩
    rw [release, if_pos]
    simp [h]

theorem release_ofCount {c : GPR → Nat} {r : GPR} (h : c r ≠ 0) :
    (ofCount c).release r = some (ofCount (update c r (c r - 1))) := by
  rw [release, ofCount_count, if_neg h, ofCount, ofCount]
  congr 2 <;> funext r' <;> by_cases hr : r' = r
  · subst hr
    have hfree : (c r' == 0) = false := beq_eq_false_iff_ne.mpr h
    rw [if_pos rfl, Function.update_self, Bool.eq_iff_iff]
    simp only [hfree, Bool.or_false, beq_iff_eq]
    omega
  · simp [hr]
  · subst hr
    simp
  · simp [hr]

/-- A register that is taken had no reference. -/
theorem lowestFree_ofCount {c : GPR → Nat} {ty : GPRType} {g : GPR}
    (h : (ofCount c).lowestFree ty = some g) : g.type = ty ∧ c g = 0 := by
  obtain ⟨r, hr, rfl⟩ := Option.map_eq_some_iff.mp h
  have hfree : (ofCount c).free (ty.gpr r) := List.find?_some (p := fun r => (ofCount c).free _) hr
  exact ⟨by cases ty <;> rfl, beq_iff_eq.mp hfree⟩

theorem lowestFree_eq_none {c : GPR → Nat} {ty : GPRType} :
    (ofCount c).lowestFree ty = none ↔ ∀ r, c (ty.gpr r) ≠ 0 := by
  rw [lowestFree, Option.map_eq_none_iff, List.find?_eq_none]
  exact ⟨fun h r hr => h r (List.mem_finRange r) (beq_iff_eq.mpr hr),
    fun h r _ hr => h r (beq_iff_eq.mp hr)⟩

end Registers

/-! ## Steps of the generator -/

theorem Gen.bind_of_some {α β : Type} {x : Gen α} {f : α → Gen β} {s s' : Context} {a : α}
    (h : x s = some (a, s')) : (x >>= f) s = f a s' := by
  change (x s).bind (fun p => f p.1 p.2) = _
  rw [h]
  rfl

theorem Gen.bind_of_none {α β : Type} {x : Gen α} {f : α → Gen β} {s : Context}
    (h : x s = none) : (x >>= f) s = none := by
  change (x s).bind (fun p => f p.1 p.2) = _
  rw [h]
  rfl

theorem release_run {s : Context} {r : GPR} (hs : s.regs = .ofCount s.regs.count)
    (h : s.regs.count r ≠ 0) :
    release r s = some ((), { s with regs := .ofCount (update s.regs.count r (s.regs.count r - 1)) }) := by
  rw [release, hs, Registers.release_ofCount h]
  rfl

/-- A free register is taken. -/
theorem takeFree_rq_some {s : Context} (hs : s.regs = .ofCount s.regs.count)
    (h : ∃ r, s.regs.count (.rq r) = 0) :
    ∃ t, s.regs.count (.rq t) = 0 ∧ takeFree .rq s = some (some (.rq t),
      { s with regs := .ofCount (update s.regs.count (.rq t) 1) }) := by
  obtain ⟨g, hg⟩ : ∃ g, s.regs.lowestFree .rq = some g := by
    refine Option.ne_none_iff_exists'.mp fun hnone => ?_
    obtain ⟨r, hr⟩ := h
    rw [hs] at hnone
    exact Registers.lowestFree_eq_none.mp hnone r hr
  obtain ⟨htype, hzero⟩ := Registers.lowestFree_ofCount (hs ▸ hg)
  cases g with
  | rx t => cases htype
  | rq t =>
    refine ⟨t, hzero, ?_⟩
    have hmark : s.regs.markUsed s.overflowChecks (.rq t) =
        some (.ofCount (update s.regs.count (.rq t) 1)) := by
      rw [hs, Registers.markUsed_ofCount (by rw [hzero]; decide), Registers.ofCount_count, hzero]
    rw [takeFree, Registers.take, hg]
    simp only [hmark]
    rfl

/-- There is none to take. -/
theorem takeFree_rq_none {s : Context} (hs : s.regs = .ofCount s.regs.count)
    (h : ∀ r, s.regs.count (.rq r) ≠ 0) : takeFree .rq s = some (none, s) := by
  have hnone : s.regs.lowestFree .rq = none := by
    rw [hs]
    exact Registers.lowestFree_eq_none.mpr h
  rw [takeFree, Registers.take, hnone]
  rfl

theorem emit_run (s : Context) (i : Instr) : emit i s = some ((), { s with asm := s.asm ++ [i] }) := rfl

theorem freeValue_reg (r : GPR) : freeValue (.reg r) = release r := rfl

theorem isReg_rq_iff {v : ValueLocation} : isReg .rq v ↔ ∃ r, v = .reg (.rq r) := by
  rcases v with ⟨r | r⟩ | o | i | ⟨c, n⟩ <;> simp [isReg, ValueLocation.reg?, GPR.type]

/-- The state after the register has been pushed. -/
def Context.spill (s : Context) (r : RegId) : Context :=
  { s with
    stack := s.stack.map fun v => if v = .reg (.rq r) then .stack (-((s.depth : Int) + 1)) else v
    depth := s.depth + 1
    regs := .ofCount (update s.regs.count (.rq r)
      (s.regs.count (.rq r) - s.stack.count (.reg (.rq r))))
    asm := s.asm ++ [.push r] }

/-- The register is in use. -/
def Context.taken (s : Context) (t : RegId) : Context :=
  { s with regs := .ofCount (update s.regs.count (.rq t) 1) }

/-- The free bits agree with the reference counts, which are bytes and count at least the references of the
virtual stack, and one of a value in hand; slots are in the frame. The value in hand may be an entry of the virtual
stack that has not been popped. -/
structure Coherent (s : Context) (inHand : ValueLocation) : Prop where
  regs : s.regs = .ofCount s.regs.count
  fits : ∀ r, s.regs.count r < 256
  held : ∀ r, s.stack.count (.reg r) ≤ s.regs.count r
  used : ∀ r, inHand = .reg r → s.regs.count r ≠ 0
  frame : ∀ o, .stack o ∈ inHand :: s.stack → -(s.depth : Int) ≤ o

theorem Coherent.frame_stack {s : Context} {v : ValueLocation} (h : Coherent s v) {o : Int}
    (ho : .stack o ∈ s.stack) : -(s.depth : Int) ≤ o := h.frame o (List.mem_cons_of_mem _ ho)

/-- Taking a general purpose register pushes none. -/
def NoSpill (s : Context) : Prop :=
  (∃ r, s.regs.count (.rq r) = 0) ∨ ∀ r, .reg (.rq r) ∉ s.stack

/-- A general purpose register is free, or only the virtual stack refers to it, and neither it nor one
below it on the virtual stack has as many references as a byte can count. -/
def CanTake (s : Context) : Prop :=
  (∃ r, s.regs.count (.rq r) = 0) ∨
    ∃ below r above, s.stack.reverse = below ++ .reg (.rq r) :: above ∧
      s.regs.count (.rq r) = s.stack.count (.reg (.rq r)) ∧
      ∀ g, .reg (.rq g) ∈ below ++ [.reg (.rq r)] → s.regs.count (.rq g) < 255

/-- The entries above the one that was pushed. -/
theorem replaceAbove_run {g : GPR} {new : ValueLocation} {above : List ValueLocation} {s : Context}
    (hs : s.regs = .ofCount s.regs.count) (hcount : above.count (.reg g) ≤ s.regs.count g) :
    replaceAbove (.reg g) new above s =
      some (above.map (fun v => if v = .reg g then new else v),
        { s with
          regs := .ofCount (update s.regs.count g (s.regs.count g - above.count (.reg g))) }) := by
  induction above generalizing s with
  | nil =>
    rw [replaceAbove, List.count_nil, Nat.sub_zero, Function.update_eq_self, ← hs]
    rfl
  | cons v above ih =>
    rw [replaceAbove]
    by_cases hv : v = .reg g
    · subst hv
      rw [List.count_cons_self] at hcount
      have hne : s.regs.count g ≠ 0 := by omega
      rw [if_pos rfl, freeValue_reg, Gen.bind_of_some (release_run hs hne),
        Gen.bind_of_some (ih rfl (by simp only [Registers.ofCount_count, Function.update_self]; omega)),
        List.map_cons, if_pos rfl, List.count_cons_self]
      simp only [Registers.ofCount_count, Function.update_self, Function.update_idem]
      rw [Nat.sub_sub, Nat.add_comm 1]
      rfl
    · rw [List.count_cons_of_ne hv] at hcount ⊢
      rw [if_neg hv, Gen.bind_of_some (ih hs hcount), List.map_cons, if_neg hv]
      rfl

section

variable {tk : GPRType → Gen (Option GPR)} {s s₁ s₂ s₃ : Context} {v : ValueLocation}

/-- `to_reg` for a value that is in no general purpose register. -/
theorem toReg_some {t : GPR} (hreg : ∀ r, v ≠ .reg (.rq r)) (htake : tk .rq s = some (some t, s₁))
    (hcopy : copyValueWith tk v (.reg t) s₁ = some ((), s₂)) :
    toRegWith tk (some .rq) v s = some (some t, s₂) := by
  rcases v with ⟨r | r⟩ | o | i | ⟨c, n⟩
  · exact absurd rfl (hreg r)
  all_goals exact (Gen.bind_of_some htake).trans (Gen.bind_of_some hcopy)

theorem toReg_none (hreg : ∀ r, v ≠ .reg (.rq r)) (htake : tk .rq s = some (none, s₁)) :
    toRegWith tk (some .rq) v s = some (none, s₁) := by
  rcases v with ⟨r | r⟩ | o | i | ⟨c, n⟩
  · exact absurd rfl (hreg r)
  all_goals exact Gen.bind_of_some htake

/-- `push_physical` for a value that is not in a slot. -/
theorem pushPhysical_some {t : RegId} (hstack : ∀ o, v ≠ .stack o)
    (hinto : intoRegWith tk (some .rq) v s = some (some (.rq t), s₁))
    (hfree : release (.rq t) { s₁ with asm := s₁.asm ++ [.push t] } = some ((), s₂)) :
    pushPhysicalWith tk v s =
      some (.stack (-((s.depth : Int) + 1)), { s₂ with depth := s₂.depth + 1 }) := by
  rcases v with g | o | i | ⟨c, n⟩
  case stack => exact absurd rfl (hstack o)
  all_goals
    rw [pushPhysicalWith, Gen.bind_of_some (rfl : (get : Gen Context) s = some (s, s))]
    refine (Gen.bind_of_some hinto).trans ?_
    refine (Gen.bind_of_some (emit_run s₁ (.push t))).trans ?_
    exact Gen.bind_of_some hfree

theorem pushPhysical_none (hstack : ∀ o, v ≠ .stack o)
    (hinto : intoRegWith tk (some .rq) v s = some (none, s₁))
    (hcopy : copyValueWith tk v (.stack (-((s.depth : Int) + 1)))
      { s₁ with asm := s₁.asm ++ [.push 0] } = some ((), s₂))
    (hfree : freeValue v s₂ = some ((), s₃)) :
    pushPhysicalWith tk v s =
      some (.stack (-((s.depth : Int) + 1)), { s₃ with depth := s₃.depth + 1 }) := by
  rcases v with g | o | i | ⟨c, n⟩
  case stack => exact absurd rfl (hstack o)
  all_goals
    rw [pushPhysicalWith, Gen.bind_of_some (rfl : (get : Gen Context) s = some (s, s))]
    refine (Gen.bind_of_some hinto).trans ?_
    refine (Gen.bind_of_some (emit_run s₁ (.push 0))).trans ?_
    exact (Gen.bind_of_some hcopy).trans (Gen.bind_of_some hfree)

end

section

variable {tk : GPRType → Gen (Option GPR)} {s : Context} {r : RegId}

/-- A general purpose register that a value in hand holds is pushed. -/
theorem pushPhysical_rq (hs : s.regs = .ofCount s.regs.count) (h : s.regs.count (.rq r) ≠ 0)
    (hfit : s.regs.count (.rq r) < 255) :
    pushPhysicalWith tk (.reg (.rq r)) s = some (.stack (-((s.depth : Int) + 1)),
      { s with
        depth := s.depth + 1
        regs := .ofCount (update s.regs.count (.rq r) (s.regs.count (.rq r) - 1))
        asm := s.asm ++ [.push r] }) := by
  -- `to_reg` marks it, `into_reg` and `free_value` release it.
  obtain ⟨marked, hmarked⟩ : ∃ marked : Registers,
      marked = .ofCount (update s.regs.count (.rq r) (s.regs.count (.rq r) + 1)) := ⟨_, rfl⟩
  have hmark : markUsed (.rq r) s = some ((), { s with regs := marked }) := by
    rw [markUsed, hs, Registers.markUsed_ofCount hfit, hmarked]
    rfl
  have hinto : intoRegWith tk (some .rq) (.reg (.rq r)) s = some (some (.rq r), s) := by
    have hto : toRegWith tk (some .rq) (.reg (.rq r)) s =
        some (some (.rq r), { s with regs := marked }) := Gen.bind_of_some hmark
    rw [intoRegWith, Gen.bind_of_some hto, freeValue_reg]
    simp only
    rw [hmarked, Gen.bind_of_some (release_run rfl (by simp))]
    simp only [Registers.ofCount_count, Function.update_self, Function.update_idem,
      Nat.add_sub_cancel, Function.update_eq_self, ← hs]
    rfl
  exact pushPhysical_some (fun o h => by cases h) hinto
    (@release_run { s with asm := s.asm ++ [.push r] } (.rq r) hs h)

/-- A register with 255 references is not pushed: marking it overflows, or the release after it fails. -/
theorem pushPhysical_full (hs : s.regs = .ofCount s.regs.count) (h : s.regs.count (.rq r) = 255) :
    pushPhysicalWith tk (.reg (.rq r)) s = none := by
  have hto : toRegWith tk (some .rq) (.reg (.rq r)) s =
      (markUsed (.rq r) >>= fun _ => pure (some (GPR.rq r)) : Gen (Option GPR)) s := rfl
  have hinto : intoRegWith tk (some .rq) (.reg (.rq r)) s = none := by
    rw [intoRegWith]
    rcases @Registers.markUsed_full s.overflowChecks _ _ h with hmark | ⟨regs, hmark, hrel⟩
    · have hnone : markUsed (.rq r) s = none := by
        rw [markUsed, hs, hmark]
        rfl
      exact Gen.bind_of_none (hto.trans (Gen.bind_of_none hnone))
    · have hsome : markUsed (.rq r) s = some ((), { s with regs := regs }) := by
        rw [markUsed, hs, hmark]
        rfl
      rw [Gen.bind_of_some (hto.trans (Gen.bind_of_some hsome))]
      refine Gen.bind_of_none ?_
      rw [freeValue_reg, release, hrel]
      rfl
  rw [pushPhysicalWith, Gen.bind_of_some (rfl : (get : Gen Context) s = some (s, s))]
  exact Gen.bind_of_none hinto

theorem freeReg_eq (s : Context) : freeRegWith tk .rq s =
    (match s.stack.reverse.findIdx? (isReg .rq) with
    | none => pure false
    | some pos => do
        let oldLoc ← unwrap (← get).stack.reverse[pos]?
        let newLoc ← pushPhysicalWith tk oldLoc
        let stack := (← get).stack.reverse
        let above ← replaceAbove oldLoc newLoc (stack.drop (pos + 1))
        modify fun s => { s with stack := (stack.take pos ++ newLoc :: above).reverse }
        return true : Gen Bool) s := rfl

/-- There is no register to push. -/
theorem freeReg_rq_none (h : ∀ v ∈ s.stack, ¬ isReg .rq v) : freeRegWith tk .rq s = some (false, s) := by
  have hfind : s.stack.reverse.findIdx? (isReg .rq) = none :=
    List.findIdx?_eq_none_iff.mpr fun v hv => Bool.eq_false_iff.mpr (h v (List.mem_reverse.mp hv))
  rw [freeReg_eq, hfind]
  rfl

variable {below above : List ValueLocation}

/-- The position of the lowest register. -/
theorem findIdx?_lowest (hsplit : s.stack.reverse = below ++ .reg (.rq r) :: above)
    (hbelow : ∀ v ∈ below, ¬ isReg .rq v) :
    s.stack.reverse.findIdx? (isReg .rq) = some below.length := by
  have hnone : below.findIdx? (isReg .rq) = none :=
    List.findIdx?_eq_none_iff.mpr fun v hv => Bool.eq_false_iff.mpr (hbelow v hv)
  have hhere : isReg .rq (.reg (.rq r)) = true := rfl
  rw [hsplit, List.findIdx?_append, hnone, List.findIdx?_cons, if_pos hhere]
  simp

/-- Otherwise the lowest one of the virtual stack is pushed. -/
theorem freeReg_rq (hs : s.regs = .ofCount s.regs.count)
    (hheld : ∀ r, s.stack.count (.reg r) ≤ s.regs.count r)
    (hsplit : s.stack.reverse = below ++ .reg (.rq r) :: above)
    (hbelow : ∀ v ∈ below, ¬ isReg .rq v) (hfit : s.regs.count (.rq r) < 255) :
    freeRegWith tk .rq s = some (true, s.spill r) := by
  have hnot : ∀ w ∈ below, w ≠ .reg (.rq r) := by
    rintro w hw rfl
    exact hbelow _ hw rfl
  have hcount : s.stack.count (.reg (.rq r)) = above.count (.reg (.rq r)) + 1 := by
    rw [← List.count_reverse, hsplit, List.count_append, List.count_cons_self,
      List.count_eq_zero.mpr fun h => hnot _ h rfl, Nat.zero_add]
  have hle := hheld (.rq r)
  have hpush := @pushPhysical_rq tk s r hs (by omega) hfit
  have habove := @replaceAbove_run (.rq r) (.stack (-((s.depth : Int) + 1))) above
    { s with
      depth := s.depth + 1
      regs := .ofCount (update s.regs.count (.rq r) (s.regs.count (.rq r) - 1))
      asm := s.asm ++ [.push r] } rfl (by
        simp only [Registers.ofCount_count, Function.update_self]
        omega)
  have hstack : (below ++ .stack (-((s.depth : Int) + 1)) :: above.map fun v =>
        if v = .reg (.rq r) then .stack (-((s.depth : Int) + 1)) else v).reverse =
      s.stack.map fun v =>
        if v = .reg (.rq r) then .stack (-((s.depth : Int) + 1)) else v := by
    rw [List.reverse_eq_iff, ← List.map_reverse, hsplit, List.map_append, List.map_cons, if_pos rfl]
    congr 1
    exact ((List.map_congr_left fun w hw => if_neg (hnot w hw)).trans (List.map_id _)).symm
  have hregs : s.regs.count (.rq r) - 1 - above.count (.reg (.rq r)) =
      s.regs.count (.rq r) - s.stack.count (.reg (.rq r)) := by
    omega
  have hunwrap : unwrap s.stack.reverse[below.length]? s = some (.reg (.rq r), s) := by
    rw [hsplit, List.getElem?_append_right (Nat.le_refl _), Nat.sub_self]
    rfl
  have hdrop : s.stack.reverse.drop (below.length + 1) = above := by
    rw [hsplit, ← List.drop_drop, List.drop_left]
    rfl
  have htake : s.stack.reverse.take below.length = below := by
    rw [hsplit, List.take_left]
  rw [freeReg_eq, findIdx?_lowest hsplit hbelow]
  simp only
  rw [Gen.bind_of_some (rfl : (get : Gen Context) s = some (s, s)), Gen.bind_of_some hunwrap,
    Gen.bind_of_some hpush, Gen.bind_of_some rfl]
  simp only
  rw [hdrop, htake, Gen.bind_of_some habove]
  rw [Registers.ofCount_count, Function.update_self, Function.update_idem, hregs]
  change some (true, (_ : Context)) = some (true, s.spill r)
  rw [Context.spill, ← hstack]

/-- Unless it has too many references. -/
theorem freeReg_full (hs : s.regs = .ofCount s.regs.count)
    (hsplit : s.stack.reverse = below ++ .reg (.rq r) :: above)
    (hbelow : ∀ v ∈ below, ¬ isReg .rq v) (hfull : s.regs.count (.rq r) = 255) :
    freeRegWith tk .rq s = none := by
  have hunwrap : unwrap s.stack.reverse[below.length]? s = some (.reg (.rq r), s) := by
    rw [hsplit, List.getElem?_append_right (Nat.le_refl _), Nat.sub_self]
    rfl
  rw [freeReg_eq, findIdx?_lowest hsplit hbelow]
  simp only
  rw [Gen.bind_of_some (rfl : (get : Gen Context) s = some (s, s)), Gen.bind_of_some hunwrap]
  exact Gen.bind_of_none (pushPhysical_full hs hfull)

end

/-! ## The loop of `take_reg` -/

/-- The state after the registers have been pushed. -/
def Context.spills (s : Context) (rs : List RegId) : Context := rs.foldl Context.spill s

theorem spill_count {s : Context} (g : RegId) (r : GPR) :
    (s.spill g).stack.count (.reg r) = if r = .rq g then 0 else s.stack.count (.reg r) := by
  rw [Context.spill]
  simp only
  by_cases hr : r = .rq g
  · subst hr
    rw [if_pos rfl, List.count_eq_zero]
    intro hmem
    obtain ⟨v, -, hv⟩ := List.mem_map.mp hmem
    by_cases hvr : v = .reg (.rq g)
    · rw [if_pos hvr] at hv
      cases hv
    · rw [if_neg hvr] at hv
      exact hvr hv
  · rw [if_neg hr]
    induction s.stack with
    | nil => rfl
    | cons v stack ih =>
      rw [List.map_cons, List.count_cons, List.count_cons, ih]
      by_cases hv : v = .reg (.rq g)
      · subst hv
        rw [if_pos rfl]
        have hne : (ValueLocation.reg (.rq g) == .reg r) = false :=
          beq_eq_false_iff_ne.mpr fun h => hr (ValueLocation.reg.inj h).symm
        simp [hne]
      · rw [if_neg hv]

theorem spill_regs_count {s : Context} (g : RegId) (r : GPR) :
    (s.spill g).regs.count r =
      if r = .rq g then s.regs.count r - s.stack.count (.reg r) else s.regs.count r := by
  by_cases hr : r = .rq g
  · subst hr
    rw [if_pos rfl, Context.spill, Registers.ofCount_count, Function.update_self]
  · rw [if_neg hr, Context.spill, Registers.ofCount_count, Function.update_of_ne hr]

theorem spill_held {s : Context} (hheld : ∀ r, s.stack.count (.reg r) ≤ s.regs.count r)
    (g : RegId) (r : GPR) : (s.spill g).stack.count (.reg r) ≤ (s.spill g).regs.count r := by
  have hle := hheld r
  rw [spill_count, spill_regs_count]
  split <;> omega

theorem spills_held (rs : List RegId) {s : Context}
    (hheld : ∀ r, s.stack.count (.reg r) ≤ s.regs.count r) (r : GPR) :
    (s.spills rs).stack.count (.reg r) ≤ (s.spills rs).regs.count r := by
  induction rs generalizing s with
  | nil => exact hheld r
  | cons g rs ih => exact ih fun r => spill_held hheld g r

/-- Vector registers are not pushed. -/
theorem spills_count_rx (rs : List RegId) {s : Context} (r : RegId) :
    (s.spills rs).regs.count (.rx r) = s.regs.count (.rx r) := by
  induction rs generalizing s with
  | nil => rfl
  | cons g rs ih =>
    exact (@ih (s.spill g)).trans ((spill_regs_count g (.rx r)).trans (if_neg (by simp)))

theorem spills_regs (rs : List RegId) {s : Context} (hs : s.regs = .ofCount s.regs.count) :
    (s.spills rs).regs = .ofCount (s.spills rs).regs.count := by
  induction rs generalizing s with
  | nil => exact hs
  | cons g rs ih => exact @ih (s.spill g) rfl

theorem spills_depth (rs : List RegId) (s : Context) :
    (s.spills rs).depth = s.depth + rs.length := by
  induction rs generalizing s with
  | nil => rfl
  | cons g rs ih =>
    refine (ih (s.spill g)).trans ?_
    change s.depth + 1 + rs.length = _
    rw [List.length_cons]
    omega

/-- An entry of the virtual stack is where it was, or in a slot. -/
theorem spills_getElem? (rs : List RegId) {s : Context} {i : Nat} {v v' : ValueLocation}
    (hv : s.stack[i]? = some v) (hv' : (s.spills rs).stack[i]? = some v') :
    v' = v ∨ ∃ o, v' = .stack o := by
  induction rs generalizing s v with
  | nil => exact .inl (Option.some.inj (hv'.symm.trans hv))
  | cons g rs ih =>
    have hstep : (s.spill g).stack[i]? =
        some (if v = .reg (.rq g) then .stack (-((s.depth : Int) + 1)) else v) := by
      rw [Context.spill, List.getElem?_map, hv, Option.map_some]
    rcases ih hstep hv' with h | h
    · by_cases hvg : v = .reg (.rq g)
      · rw [if_pos hvg] at h
        exact .inr ⟨_, h⟩
      · rw [if_neg hvg] at h
        exact .inl h
    · exact .inr h

/-- The registers that are left on the virtual stack. -/
theorem spill_countP {s : Context} {r : RegId} (h : .reg (.rq r) ∈ s.stack) :
    (s.spill r).stack.countP (isReg .rq) < s.stack.countP (isReg .rq) := by
  obtain ⟨before, after, hsplit⟩ := List.append_of_mem h
  have hle (l : List ValueLocation) : (l.map fun v =>
      if v = .reg (.rq r) then ValueLocation.stack (-((s.depth : Int) + 1)) else v).countP (isReg .rq) ≤
        l.countP (isReg .rq) := by
    rw [List.countP_map]
    refine List.countP_mono_left fun v _ hv => ?_
    simp only [Function.comp] at hv
    by_cases hvr : v = .reg (.rq r)
    · subst hvr
      rfl
    · rwa [if_neg hvr] at hv
  rw [Context.spill, hsplit]
  simp only
  rw [List.map_append, List.map_cons, if_pos rfl, List.countP_append, List.countP_append,
    List.countP_cons_of_neg (by simp [isReg, ValueLocation.reg?]), List.countP_cons_of_pos (by rfl)]
  have h₁ := hle before
  have h₂ := hle after
  omega

/-- The lowest register of the virtual stack, if it has one. -/
theorem exists_lowest {s : Context} :
    (∀ v ∈ s.stack, ¬ isReg .rq v) ∨ ∃ below r above,
      s.stack.reverse = below ++ .reg (.rq r) :: above ∧ ∀ v ∈ below, ¬ isReg .rq v := by
  cases hfind : s.stack.reverse.find? (isReg .rq) with
  | none =>
    exact .inl fun v hv => by simpa using List.find?_eq_none.mp hfind v (List.mem_reverse.mpr hv)
  | some v =>
    obtain ⟨hv, below, above, hsplit, hbelow⟩ := List.find?_eq_some_iff_append.mp hfind
    obtain ⟨r, rfl⟩ := isReg_rq_iff.mp hv
    exact .inr ⟨below, r, above, hsplit, fun w hw => by simpa using hbelow w hw⟩

/-- It comes before every other register. -/
theorem lowest_mem {below above below' above' : List ValueLocation} {v : ValueLocation} {r : RegId}
    (hsplit : below ++ v :: above = below' ++ .reg (.rq r) :: above')
    (hbelow : ∀ v ∈ below, ¬ isReg .rq v) : v ∈ below' ++ [.reg (.rq r)] := by
  rcases List.append_eq_append_iff.mp hsplit with ⟨mid, rfl, hmid⟩ | ⟨mid, rfl, hmid⟩
  · cases mid with
    | nil => simp [(List.cons.inj hmid).1]
    | cons w mid => simp [(List.cons.inj hmid).1]
  · cases mid with
    | nil => simp [(List.cons.inj hmid).1]
    | cons w mid =>
      obtain rfl := (List.cons.inj hmid).1
      exact absurd rfl (hbelow _ (List.mem_append_right _ List.mem_cons_self))

/-- What pushing a register into a slot makes of a location. -/
def pushedTo (slot : Int) (r : RegId) (v : ValueLocation) : ValueLocation :=
  if v = .reg (.rq r) then .stack slot else v

theorem pushedTo_eq_reg {slot : Int} {r g : RegId} {v : ValueLocation} :
    pushedTo slot r v = .reg (.rq g) ↔ v = .reg (.rq g) ∧ g ≠ r := by
  unfold pushedTo
  by_cases hv : v = .reg (.rq r)
  · subst hv
    simp [eq_comm]
  · rw [if_neg hv]
    refine ⟨fun h => ⟨h, ?_⟩, And.left⟩
    rintro rfl
    exact hv h

theorem mem_map_pushedTo {slot : Int} {r g : RegId} {l : List ValueLocation} :
    .reg (.rq g) ∈ l.map (pushedTo slot r) ↔ .reg (.rq g) ∈ l ∧ g ≠ r := by
  rw [List.mem_map]
  constructor
  · rintro ⟨v, hv, he⟩
    obtain ⟨rfl, hne⟩ := pushedTo_eq_reg.mp he
    exact ⟨hv, hne⟩
  · exact fun h => ⟨_, h.1, pushedTo_eq_reg.mpr ⟨rfl, h.2⟩⟩

/-- The locations below a register and the register itself, with another one pushed. -/
theorem mem_append_pushedTo {slot : Int} {r g g' : RegId} {l : List ValueLocation} (hg : g ≠ r) :
    ValueLocation.reg (.rq g') ∈ l.map (pushedTo slot r) ++ [.reg (.rq g)] ↔
      ValueLocation.reg (.rq g') ∈ l ++ [.reg (.rq g)] ∧ g' ≠ r := by
  rw [List.mem_append, List.mem_append, mem_map_pushedTo, or_and_right]
  refine or_congr_right ⟨fun h => ⟨h, ?_⟩, And.left⟩
  obtain rfl : g' = g := by simpa using h
  exact hg

theorem spill_reverse (s : Context) (r : RegId) : (s.spill r).stack.reverse =
    s.stack.reverse.map (pushedTo (-((s.depth : Int) + 1)) r) := by
  rw [List.map_reverse]
  rfl

/-- The counts of another register. -/
theorem spill_count_of_ne {s : Context} {g r : RegId} (h : g ≠ r) :
    (s.spill r).regs.count (.rq g) = s.regs.count (.rq g) ∧
      (s.spill r).stack.count (.reg (.rq g)) = s.stack.count (.reg (.rq g)) := by
  have hne : GPR.rq g ≠ .rq r := fun he => h (GPR.rq.inj he)
  exact ⟨(spill_regs_count r _).trans (if_neg hne), (spill_count r _).trans (if_neg hne)⟩

section

variable {s : Context} {below above : List ValueLocation} {r : RegId}

theorem CanTake.spill (hused : ∀ r, s.regs.count (.rq r) ≠ 0) (h : CanTake s) :
    CanTake (s.spill r) := by
  obtain ⟨g, hg⟩ | ⟨low, g, high, hsplit, heq, hfits⟩ := h
  · exact absurd hg (hused g)
  · by_cases hgr : g = r
    · subst hgr
      refine .inl ⟨g, ?_⟩
      rw [spill_regs_count, if_pos rfl, heq, Nat.sub_self]
    · obtain ⟨hcount, hstack⟩ := @spill_count_of_ne s _ _ hgr
      let slot : Int := -((s.depth : Int) + 1)
      refine .inr ⟨low.map (pushedTo slot r), g, high.map (pushedTo slot r), ?_, ?_, fun g' hg' => ?_⟩
      · rw [spill_reverse, hsplit, List.map_append, List.map_cons, pushedTo_eq_reg.mpr ⟨rfl, hgr⟩]
      · rw [hcount, hstack, heq]
      · obtain ⟨hmem, hr⟩ := (mem_append_pushedTo hgr).mp hg'
        rw [(spill_count_of_ne hr).1]
        exact hfits g' hmem

theorem CanTake.of_spill (hheld : ∀ r, s.stack.count (.reg r) ≤ s.regs.count r)
    (hused : ∀ r, s.regs.count (.rq r) ≠ 0)
    (hsplit : s.stack.reverse = below ++ .reg (.rq r) :: above)
    (hbelow : ∀ v ∈ below, ¬ isReg .rq v) (hfit : s.regs.count (.rq r) < 255)
    (h : CanTake (s.spill r)) : CanTake s := by
  obtain ⟨g, hg⟩ | ⟨below', g, above', hsplit', heq, hfits⟩ := h
  · by_cases hgr : g = r
    · subst hgr
      rw [spill_regs_count, if_pos rfl] at hg
      have hle := hheld (.rq g)
      refine .inr ⟨below, g, above, hsplit, by omega, fun g' hg' => ?_⟩
      rcases List.mem_append.mp hg' with h | h
      · exact absurd rfl (hbelow _ h)
      · obtain rfl : g' = g := by simpa using h
        exact hfit
    · exact absurd ((spill_count_of_ne hgr).1.symm.trans hg) (hused g)
  · rw [spill_reverse] at hsplit'
    obtain ⟨low, rest, hrev, rfl, hrest⟩ := List.map_eq_append_iff.mp hsplit'
    obtain ⟨v, high, rfl, hv, rfl⟩ := List.map_eq_cons_iff.mp hrest
    obtain ⟨rfl, hgr⟩ := pushedTo_eq_reg.mp hv
    obtain ⟨hcount, hstack⟩ := @spill_count_of_ne s _ _ hgr
    rw [hcount, hstack] at heq
    refine .inr ⟨low, g, high, hrev, heq, fun g' hg' => ?_⟩
    by_cases hr : g' = r
    · exact hr ▸ hfit
    · rw [← (@spill_count_of_ne s _ _ hr).1]
      exact hfits g' ((mem_append_pushedTo hgr).mpr ⟨hg', hr⟩)

/-- Pushing the lowest register does not change whether one can be taken. -/
theorem canTake_spill (hheld : ∀ r, s.stack.count (.reg r) ≤ s.regs.count r)
    (hused : ∀ r, s.regs.count (.rq r) ≠ 0)
    (hsplit : s.stack.reverse = below ++ .reg (.rq r) :: above)
    (hbelow : ∀ v ∈ below, ¬ isReg .rq v) (hfit : s.regs.count (.rq r) < 255) :
    CanTake (s.spill r) ↔ CanTake s :=
  ⟨.of_spill hheld hused hsplit hbelow hfit, .spill hused⟩

end

/-- What `take_reg` does for a general purpose register. It panics at one that has too many references;
otherwise registers are pushed as long as none is free and the virtual stack has one. -/
def Takes (s : Context) (result : Option (Option GPR × Context)) : Prop :=
  (result = none ∧ ¬ NoSpill s ∧ ¬ CanTake s) ∨
    ∃ rs : List RegId, (rs = [] ↔ NoSpill s) ∧
      ((∃ t, (s.spills rs).regs.count (.rq t) = 0 ∧
          result = some (some (.rq t), (s.spills rs).taken t) ∧ CanTake s) ∨
        (result = some (none, s.spills rs) ∧ (∀ t, (s.spills rs).regs.count (.rq t) ≠ 0) ∧
          (∀ r, .reg (.rq r) ∉ (s.spills rs).stack) ∧ ¬ CanTake s))

theorem takeRegFuel_rq (n : Nat) {s : Context} (hs : s.regs = .ofCount s.regs.count)
    (hfits : ∀ r, s.regs.count r < 256)
    (hheld : ∀ r, s.stack.count (.reg r) ≤ s.regs.count r)
    (hn : s.stack.countP (isReg .rq) < n) : Takes s (takeRegFuel n .rq s) := by
  induction n generalizing s with
  | zero => exact absurd hn (Nat.not_lt_zero _)
  | succ n ih =>
    rw [takeRegFuel]
    by_cases hfree : ∃ r, s.regs.count (.rq r) = 0
    · obtain ⟨t, hzero, htake⟩ := takeFree_rq_some hs hfree
      refine .inr ⟨[], iff_of_true rfl (.inl hfree), .inl ⟨t, hzero, ?_, .inl hfree⟩⟩
      rw [Gen.bind_of_some htake]
      rfl
    · have hused : ∀ r, s.regs.count (.rq r) ≠ 0 := not_exists.mp hfree
      rw [Gen.bind_of_some (takeFree_rq_none hs hused)]
      simp only
      rcases @exists_lowest s with hnoReg | ⟨below, r, above, hsplit, hbelow⟩
      · have hnone : ∀ r, .reg (.rq r) ∉ s.stack := fun r hr => hnoReg _ hr rfl
        refine .inr ⟨[], iff_of_true rfl (.inr hnone), .inr ⟨?_, hused, hnone, ?_⟩⟩
        · rw [Gen.bind_of_some (freeReg_rq_none hnoReg)]
          rfl
        · rintro (h | ⟨below, r, above, hsplit, -⟩)
          · exact hfree h
          · exact hnone r (List.mem_reverse.mp (by simp [hsplit]))
      · have hmem : .reg (.rq r) ∈ s.stack := List.mem_reverse.mp (by simp [hsplit])
        have hspill : ¬ NoSpill s := not_or.mpr ⟨hfree, fun h => h r hmem⟩
        by_cases hfit : s.regs.count (.rq r) < 255
        · rw [Gen.bind_of_some (freeReg_rq hs hheld hsplit hbelow hfit)]
          have hcan := canTake_spill hheld hused hsplit hbelow hfit
          have hcountP := spill_countP hmem
          have hrest := ih (s := s.spill r) rfl (fun g => by
            have := hfits g
            rw [spill_regs_count]
            split <;> omega) (fun g => spill_held hheld r g) (by omega)
          rcases hrest with ⟨hnone, -, hnot⟩ | ⟨rs, -, hcase⟩
          · exact .inl ⟨hnone, hspill, fun h => hnot (hcan.mpr h)⟩
          · refine .inr ⟨r :: rs, iff_of_false (List.cons_ne_nil _ _) hspill, ?_⟩
            rw [hcan] at hcase
            exact hcase
        · have hfull : s.regs.count (.rq r) = 255 := by
            have := hfits (.rq r)
            omega
          refine .inl ⟨Gen.bind_of_none (freeReg_full hs hsplit hbelow hfull), hspill, ?_⟩
          rintro (h | ⟨below', r', above', hsplit', -, hall⟩)
          · exact hfree h
          · exact hfit (hall r (lowest_mem (hsplit.symm.trans hsplit') hbelow))

theorem takeReg_rq {s : Context} {v : ValueLocation} (hc : Coherent s v) : Takes s (takeReg .rq s) :=
  takeRegFuel_rq (s.stack.length + 2) hc.regs hc.fits hc.held
    (Nat.lt_of_le_of_lt List.countP_le_length (by omega))

/-! ## What the machine does -/

/-- The value that a location has, by the address of the slot with offset 0. -/
def Machine.read (μ : Machine) (base : Int) : ValueLocation → BitVec 64
  | .reg r => μ.regs r
  | .stack o => μ.mem (base + o * wordSize)
  | .immediate v => asBytes v
  | .cond c _ => if c.holds μ.flags then 1 else 0

/-- The address of the slot with offset 0. -/
def Context.base (s : Context) (μ : Machine) : Int := μ.rsp + s.depth * wordSize

/-- The registers, the slots of the frame and the values of the virtual stack are as they were. -/
structure Kept (s s' : Context) (μ μ' : Machine) : Prop where
  base : s'.base μ' = s.base μ
  depth : s.depth ≤ s'.depth
  regs : μ'.regs = μ.regs
  flags : μ'.flags = μ.flags
  slots : ∀ o, -(s.depth : Int) ≤ o →
    μ'.mem (s.base μ + o * wordSize) = μ.mem (s.base μ + o * wordSize)
  stack : s'.stack.map (μ'.read (s.base μ)) = s.stack.map (μ.read (s.base μ))

theorem Kept.refl (s : Context) (μ : Machine) : Kept s s μ μ :=
  ⟨rfl, Nat.le_refl _, rfl, rfl, fun _ _ => rfl, rfl⟩

theorem Kept.trans {s₁ s₂ s₃ : Context} {μ₁ μ₂ μ₃ : Machine} (h : Kept s₁ s₂ μ₁ μ₂)
    (h' : Kept s₂ s₃ μ₂ μ₃) : Kept s₁ s₃ μ₁ μ₃ where
  base := h'.base.trans h.base
  depth := Nat.le_trans h.depth h'.depth
  regs := h'.regs.trans h.regs
  flags := h'.flags.trans h.flags
  slots o ho := by
    have hdepth := h.depth
    rw [← h.slots o ho, ← h.base]
    exact h'.slots o (by omega)
  stack := by
    have hstack := h'.stack
    rw [h.base] at hstack
    exact hstack.trans h.stack

/-- Pushing a register keeps all values. -/
theorem kept_spill {s : Context} (hframe : ∀ o, .stack o ∈ s.stack → -(s.depth : Int) ≤ o)
    (r : RegId) (μ : Machine) : Kept s (s.spill r) μ ((Instr.push r).exec μ) where
  base := by
    simp only [Context.base, Context.spill, Instr.exec, wordSize]
    omega
  depth := Nat.le_succ _
  regs := rfl
  flags := rfl
  slots o ho := by
    simp only [Instr.exec, Machine.setMem, Context.base, wordSize]
    rw [if_neg (by omega)]
  stack := by
    rw [Context.spill, List.map_map]
    refine List.map_congr_left fun v hv => ?_
    simp only [Function.comp]
    by_cases hvr : v = .reg (.rq r)
    · subst hvr
      rw [if_pos rfl]
      simp only [Machine.read, Instr.exec, Machine.setMem, Context.base, wordSize]
      rw [if_pos (by omega)]
    · rw [if_neg hvr]
      cases v with
      | stack o =>
        have ho := hframe o hv
        simp only [Machine.read, Instr.exec, Machine.setMem, Context.base, wordSize]
        rw [if_neg (by omega)]
      | reg _ => rfl
      | immediate _ => rfl
      | cond _ _ => rfl

theorem spills_asm (rs : List RegId) (s : Context) : (s.spills rs).asm = s.asm ++ rs.map .push := by
  induction rs generalizing s with
  | nil => exact (List.append_nil _).symm
  | cons r rs ih => exact (ih (s.spill r)).trans (List.append_assoc _ _ _)

/-- The entries of the virtual stack are in the frame after a push too. -/
theorem spill_frame {s : Context} (hframe : ∀ o, .stack o ∈ s.stack → -(s.depth : Int) ≤ o) (r : RegId)
    (o : Int) (ho : .stack o ∈ (s.spill r).stack) : -((s.spill r).depth : Int) ≤ o := by
  obtain ⟨v, hv, he⟩ := List.mem_map.mp ho
  change -((s.depth + 1 : Nat) : Int) ≤ o
  by_cases hvr : v = .reg (.rq r)
  · rw [if_pos hvr] at he
    obtain rfl := ValueLocation.stack.inj he
    omega
  · rw [if_neg hvr] at he
    subst he
    have := hframe o hv
    omega

/-- Pushing registers one after the other keeps all values. -/
theorem kept_spills (rs : List RegId) {s : Context}
    (hframe : ∀ o, .stack o ∈ s.stack → -(s.depth : Int) ≤ o) (μ : Machine) :
    Kept s (s.spills rs) μ (Instr.execAll (rs.map .push) μ) := by
  induction rs generalizing s μ with
  | nil => exact Kept.refl s μ
  | cons r rs ih =>
    exact (kept_spill hframe r μ).trans (ih (spill_frame hframe r) ((Instr.push r).exec μ))

/-- The first register that is pushed is in the slot below the frame. -/
theorem spills_slot {r : RegId} {rs : List RegId} {s : Context}
    (hframe : ∀ o, .stack o ∈ s.stack → -(s.depth : Int) ≤ o) (μ : Machine) :
    (Instr.execAll ((r :: rs).map .push) μ).mem (s.base μ + -((s.depth : Int) + 1) * wordSize) =
      μ.regs (.rq r) := by
  have hrest := kept_spills rs (spill_frame hframe r) ((Instr.push r).exec μ)
  have hslot := hrest.slots (-((s.depth : Int) + 1)) (Int.le_of_eq (by simp [Context.spill]))
  rw [(kept_spill hframe r μ).base] at hslot
  refine hslot.trans ?_
  simp only [Instr.exec, Machine.setMem, Context.base, wordSize]
  rw [if_pos (by omega)]

end Wasmtime.Lightbeam.Backend
