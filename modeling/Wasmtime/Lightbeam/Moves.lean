import Mathlib
import Wasmtime.Lightbeam.Spill

/-!
# Moves between locations

When `copy_value` and `push_physical` (`lightbeam/src/backend.rs`) put the whole value where it is to be.

* `Moved`: the destination has the value, and the registers in use, the other slots of the frame and the
  values of the virtual stack are as they were.
* `Copies`, `Pushes`: the code emitted for a copy or a push does this, whatever the machine holds.

A constant below `2 ^ 32` is stored with a DWORD `mov`, also when it has 64 bits. Offsets from `rsp` are
computed before a scratch register is taken, and taking one may push registers; so may `into_reg` in
`push_physical`, after the slot that is returned has been computed. A register that is pushed has one more
reference for a moment.

Results: `copies_meets`, `pushes_meets` and `movesRight_iff`.
-/

namespace Wasmtime.Lightbeam.Backend

open Function (update)

/-! ## What a move is to do -/

/-- The width of a value, as far as its location says it. -/
def ValueLocation.bits : ValueLocation → Nat
  | .immediate (.i32 _) => 32
  | .immediate (.f32 _) => 32
  | _ => 64

/-- The destination has the value, and everything else that is in use is as it was. -/
structure Moved (s s' : Context) (src : ValueLocation) (dst : CCLoc) (μ μ' : Machine) : Prop where
  base : s'.base μ' = s.base μ
  value : (μ'.read (s.base μ) (.ofCC dst)).setWidth src.bits =
    (μ.read (s.base μ) src).setWidth src.bits
  regs : ∀ r, s'.regs.count r ≠ 0 → dst ≠ .reg r → μ'.regs r = μ.regs r
  slots : ∀ o, -(s.depth : Int) ≤ o → dst ≠ .stack o →
    μ'.mem (s.base μ + o * wordSize) = μ.mem (s.base μ + o * wordSize)
  length : s'.stack.length = s.stack.length
  stack : ∀ (i : Nat) (v v' : ValueLocation), s.stack[i]? = some v → s'.stack[i]? = some v' →
    v ≠ .ofCC dst → μ'.read (s.base μ) v' = μ.read (s.base μ) v

/-- `copy_value` does not panic, and its code moves the value. -/
def Copies (s : Context) (src : ValueLocation) (dst : CCLoc) : Prop :=
  ∃ s' code, copyValue src dst s = some ((), s') ∧ s'.asm = s.asm ++ code ∧
    ∀ μ, Moved s s' src dst μ (Instr.execAll code μ)

/-- `push_physical` does not panic, and its code moves the value to the slot that is returned. -/
def Pushes (s : Context) (value : ValueLocation) : Prop :=
  ∃ o s' code, pushPhysical value s = some (.stack o, s') ∧ s'.asm = s.asm ++ code ∧
    ∀ μ, Moved s s' value (.stack o) μ (Instr.execAll code μ)

/-- A destination is not `rsp`, and in the frame. -/
def CCLoc.Valid (s : Context) : CCLoc → Prop
  | .reg r => r ≠ .rq 4
  | .stack o => -(s.depth : Int) ≤ o

/-- What a copy needs. -/
def CopyMeets (s : Context) : ValueLocation → CCLoc → Prop
  | .immediate v, .stack _ =>
      if (asBytes v).toNat < 2 ^ 32 then (ValueLocation.immediate v).bits = 32 else NoSpill s
  | .stack i, .stack o => i = o ∨ NoSpill s
  | .cond _ _, .reg (.rx _) => CanTake s
  | _, _ => True

/-- What a push needs. -/
def PushMeets (s : Context) : ValueLocation → Prop
  | .stack _ => True
  | .reg (.rq r) => s.regs.count (.rq r) < 255
  | _ => ∃ r, s.regs.count (.rq r) = 0

/-! ## Taking a register -/

/-- The scratch register is given back. -/
theorem release_taken {s : Context} (hs : s.regs = .ofCount s.regs.count) {t : RegId}
    (ht : s.regs.count (.rq t) = 0) (a : List Instr) :
    release (.rq t) { s.taken t with asm := a } = some ((), { s with asm := a }) := by
  have hrel := @release_run { s.taken t with asm := a } (.rq t) rfl (by simp [Context.taken])
  rw [hrel]
  simp only [Context.taken, Registers.ofCount_count, Function.update_self, Function.update_idem]
  rw [Nat.sub_self, ← ht, Function.update_eq_self, ← hs]

/-! ## The code of the moves that may take a register -/

section

variable {s s₁ : Context} {t : RegId} {i o : Int}

theorem adjustedOffset_run (s : Context) (o : Int) :
    adjustedOffset o s = some ((s.depth + o) * wordSize, s) := rfl

theorem copy_slot_some (hne : i ≠ o) (hs : s₁.regs = .ofCount s₁.regs.count)
    (hzero : s₁.regs.count (.rq t) = 0)
    (htake : takeReg .rq s = some (some (.rq t), s₁.taken t)) :
    copyValue (.stack i) (.stack o) s = some ((), { s₁ with
      asm := s₁.asm ++
        [.load (.rq t) ((s.depth + i) * wordSize), .store ((s.depth + o) * wordSize) (.rq t)] }) := by
  have hoff : (s.depth + i) * wordSize ≠ (s.depth + o) * wordSize := by
    simp only [wordSize]
    omega
  rw [copyValue, copyValueWith, Gen.bind_of_some (adjustedOffset_run s i),
    Gen.bind_of_some (adjustedOffset_run s o), if_pos hoff, Gen.bind_of_some htake]
  simp only
  rw [Gen.bind_of_some (emit_run _ _), Gen.bind_of_some (emit_run _ _)]
  refine (release_taken hs hzero _).trans ?_
  rw [← List.append_cons]
  rfl

theorem copy_slot_none (hne : i ≠ o) (htake : takeReg .rq s = some (none, s₁)) :
    copyValue (.stack i) (.stack o) s = some ((), { s₁ with
      asm := s₁.asm ++ [.push 0, .load rax ((s.depth + i) * wordSize + wordSize),
        .store ((s.depth + o) * wordSize + wordSize) rax, .pop 0] }) := by
  have hoff : (s.depth + i) * wordSize ≠ (s.depth + o) * wordSize := by
    simp only [wordSize]
    omega
  rw [copyValue, copyValueWith, Gen.bind_of_some (adjustedOffset_run s i),
    Gen.bind_of_some (adjustedOffset_run s o), if_pos hoff, Gen.bind_of_some htake]
  simp only
  rw [Gen.bind_of_some (emit_run _ _), Gen.bind_of_some (emit_run _ _),
    Gen.bind_of_some (emit_run _ _), emit_run]
  simp only [List.append_assoc, List.cons_append, List.nil_append]

theorem copy_slot_panic (hne : i ≠ o) (htake : takeReg .rq s = none) :
    copyValue (.stack i) (.stack o) s = none := by
  have hoff : (s.depth + i) * wordSize ≠ (s.depth + o) * wordSize := by
    simp only [wordSize]
    omega
  rw [copyValue, copyValueWith, Gen.bind_of_some (adjustedOffset_run s i),
    Gen.bind_of_some (adjustedOffset_run s o), if_pos hoff, Gen.bind_of_none htake]

variable {v : Value}

theorem copy_const_small (h : (asBytes v).toNat < 2 ^ 32) :
    copyValue (.immediate v) (.stack o) s = some ((), { s with
      asm := s.asm ++ [.storeImm32 ((s.depth + o) * wordSize) ((asBytes v).setWidth 32)] }) := by
  rw [copyValue, copyValueWith, Gen.bind_of_some (adjustedOffset_run s o), if_pos h, emit_run]

theorem copy_const_some (h : ¬ (asBytes v).toNat < 2 ^ 32) (hs : s₁.regs = .ofCount s₁.regs.count)
    (hzero : s₁.regs.count (.rq t) = 0)
    (htake : takeReg .rq s = some (some (.rq t), s₁.taken t)) :
    copyValue (.immediate v) (.stack o) s = some ((), { s₁ with
      asm := s₁.asm ++
        [.movImm64 t (asBytes v), .store ((s.depth + o) * wordSize) (.rq t)] }) := by
  rw [copyValue, copyValueWith, Gen.bind_of_some (adjustedOffset_run s o), if_neg h,
    Gen.bind_of_some htake]
  simp only [copyValueWith.immediateToReg64]
  rw [Gen.bind_of_some (emit_run _ _), Gen.bind_of_some (emit_run _ _)]
  refine (release_taken hs hzero _).trans ?_
  rw [← List.append_cons]
  rfl

theorem copy_const_none (h : ¬ (asBytes v).toNat < 2 ^ 32)
    (htake : takeReg .rq s = some (none, s₁)) :
    copyValue (.immediate v) (.stack o) s = some ((), { s₁ with
      asm := s₁.asm ++ [.push 0, .movImm64 0 (asBytes v),
        .store ((s.depth + o) * wordSize + wordSize) rax, .pop 0] }) := by
  rw [copyValue, copyValueWith, Gen.bind_of_some (adjustedOffset_run s o), if_neg h,
    Gen.bind_of_some htake]
  simp only
  rw [Gen.bind_of_some (emit_run _ _), Gen.bind_of_some (emit_run _ _),
    Gen.bind_of_some (emit_run _ _), emit_run]
  simp only [List.append_assoc, List.cons_append, List.nil_append]

theorem copy_const_panic (h : ¬ (asBytes v).toNat < 2 ^ 32) (htake : takeReg .rq s = none) :
    copyValue (.immediate v) (.stack o) s = none := by
  rw [copyValue, copyValueWith, Gen.bind_of_some (adjustedOffset_run s o), if_neg h,
    Gen.bind_of_none htake]

variable {c : CondCode} {n : Nat} {r : RegId}

theorem copy_cond_some (hs : s₁.regs = .ofCount s₁.regs.count) (hzero : s₁.regs.count (.rq t) = 0)
    (htake : takeReg .rq s = some (some (.rq t), s₁.taken t)) :
    copyValue (.cond c n) (.reg (.rx r)) s = some ((), { s₁ with
      asm := s₁.asm ++ [.movImm32 t 0, .set c t, .mov (.rx r) (.rq t)] }) := by
  have hcopy (a : List Instr) : copyReg (.rq t) (.rx r) { s₁.taken t with asm := a } =
      some ((), { s₁.taken t with asm := a ++ [.mov (.rx r) (.rq t)] }) := rfl
  have hcond (a : List Instr) : copyCond c t { s₁.taken t with asm := a } =
      some ((), { s₁.taken t with asm := a ++ [.movImm32 t 0] ++ [.set c t] }) := rfl
  rw [copyValue, copyValueWith, Gen.bind_of_some htake,
    Gen.bind_of_some (rfl : unwrap (some (GPR.rq t)) _ = some (_, s₁.taken t))]
  simp only
  rw [Gen.bind_of_some (hcond _), Gen.bind_of_some (hcopy _), freeValue_reg]
  refine (release_taken hs hzero _).trans ?_
  simp only [List.append_assoc, List.cons_append, List.nil_append]
  rfl

theorem copy_cond_none (htake : takeReg .rq s = some (none, s₁)) :
    copyValue (.cond c n) (.reg (.rx r)) s = none := by
  rw [copyValue, copyValueWith, Gen.bind_of_some htake]
  rfl

end

/-! ## Moves that are right -/

/-- A move that leaves the virtual stack as it is. -/
theorem Moved.of_frame {s s' : Context} {src w : ValueLocation} {dst : CCLoc} {μ μ' : Machine}
    (hc : Coherent s w) (hstack : s'.stack = s.stack) (hbase : s'.base μ' = s.base μ)
    (hflags : μ'.flags = μ.flags)
    (hheld : ∀ r, .reg r ∈ s.stack → dst ≠ .reg r → μ'.regs r = μ.regs r)
    (hvalue : (μ'.read (s.base μ) (.ofCC dst)).setWidth src.bits =
      (μ.read (s.base μ) src).setWidth src.bits)
    (hregs : ∀ r, s'.regs.count r ≠ 0 → dst ≠ .reg r → μ'.regs r = μ.regs r)
    (hslots : ∀ o, -(s.depth : Int) ≤ o → dst ≠ .stack o →
      μ'.mem (s.base μ + o * wordSize) = μ.mem (s.base μ + o * wordSize)) :
    Moved s s' src dst μ μ' := by
  refine ⟨hbase, hvalue, hregs, hslots, by rw [hstack], fun i v v' hv hv' hne => ?_⟩
  rw [hstack, hv] at hv'
  obtain rfl := Option.some.inj hv'
  have hmem := List.mem_of_getElem? hv
  cases v with
  | reg r =>
    exact hheld r hmem fun h => hne (by rw [h]; rfl)
  | stack o => exact hslots o (hc.frame_stack hmem) fun h => hne (by rw [h]; rfl)
  | immediate _ => rfl
  | cond _ _ =>
    rw [Machine.read, Machine.read, hflags]

section

variable {s : Context} {src : ValueLocation} {dst : CCLoc}

/-- A copy whose code is known and leaves the generator's state as it is. -/
theorem Copies.of_code (hc : Coherent s src) {code : List Instr}
    (hrun : copyValue src dst s = some ((), { s with asm := s.asm ++ code }))
    (hbase : ∀ μ, (Instr.execAll code μ).rsp = μ.rsp)
    (hvalue : ∀ μ, ((Instr.execAll code μ).read (s.base μ) (.ofCC dst)).setWidth src.bits =
      (μ.read (s.base μ) src).setWidth src.bits)
    (hregs : ∀ μ r, s.regs.count r ≠ 0 → dst ≠ .reg r → (Instr.execAll code μ).regs r = μ.regs r)
    (hslots : ∀ μ o, -(s.depth : Int) ≤ o → dst ≠ .stack o →
      (Instr.execAll code μ).mem (s.base μ + o * wordSize) = μ.mem (s.base μ + o * wordSize)) :
    Copies s src dst :=
  ⟨_, code, hrun, rfl, fun μ => Moved.of_frame hc rfl
    (by simp only [Context.base, hbase μ]) (Instr.execAll_flags _ _) (fun r hmem => by
      have hpos := List.count_pos_iff.mpr hmem
      have hle := hc.held r
      exact hregs μ r (by omega)) (hvalue μ)
    (hregs μ) (hslots μ)⟩

/-- A word written to a slot by a scratch register that is free. -/
theorem copies_slot_some {t : RegId} {o : Int} {first : Instr} (hc : Coherent s src)
    (hzero : s.regs.count (.rq t) = 0)
    (hrun : copyValue src (.stack o) s = some ((), { s with
      asm := s.asm ++ [first, .store ((s.depth + o) * wordSize) (.rq t)] }))
    (hfirst : ∀ μ, first.exec μ = μ.setReg (.rq t) (μ.read (s.base μ) src)) :
    Copies s src (.stack o) := by
  refine Copies.of_code hc hrun (fun μ => ?_) (fun μ => ?_) (fun μ r hr _ => ?_)
    fun μ o' ho' hne => ?_
  · simp only [Instr.execAll_cons, Instr.execAll_nil, hfirst]
    rfl
  · simp only [Instr.execAll_cons, Instr.execAll_nil, hfirst, Instr.exec_store, Machine.setReg,
      Machine.setMem, Machine.read, ValueLocation.ofCC, Context.base, wordSize, if_true]
    rw [if_pos (by omega)]
  · have hne : r ≠ .rq t := fun h => hr (h ▸ hzero)
    simp only [Instr.execAll_cons, Instr.execAll_nil, hfirst, Instr.exec_store, Machine.setReg,
      Machine.setMem, if_neg hne]
  · have hoo : o' ≠ o := fun h => hne (h ▸ rfl)
    simp only [Instr.execAll_cons, Instr.execAll_nil, hfirst, Instr.exec_store, Machine.setReg,
      Machine.setMem, Context.base, wordSize]
    rw [if_neg (by omega)]

/-- A word written to a slot through `rax`, which is saved below the frame. -/
theorem copies_slot_none {o : Int} {first : Instr} (hc : Coherent s src)
    (ho : -(s.depth : Int) ≤ o)
    (hrun : copyValue src (.stack o) s = some ((), { s with
      asm := s.asm ++ [.push 0, first, .store ((s.depth + o) * wordSize + wordSize) rax, .pop 0] }))
    (hfirst : ∀ μ, first.exec ((Instr.push 0).exec μ) =
      ((Instr.push 0).exec μ).setReg rax (μ.read (s.base μ) src)) :
    Copies s src (.stack o) := by
  refine Copies.of_code hc hrun (fun μ => ?_) (fun μ => ?_) (fun μ r _ _ => ?_)
    fun μ o' ho' hne => ?_
  · simp only [Instr.execAll_cons, Instr.execAll_nil, hfirst]
    simp only [Instr.exec_store, Instr.exec_push, Instr.exec_pop, Machine.setReg,
      Machine.setMem]
    omega
  · simp only [Instr.execAll_cons, Instr.execAll_nil, hfirst]
    simp only [Instr.exec_store, Instr.exec_push, Instr.exec_pop, Machine.setReg,
      Machine.setMem, Machine.read, ValueLocation.ofCC, Context.base, wordSize, if_true]
    rw [if_pos (by omega)]
  · simp only [Instr.execAll_cons, Instr.execAll_nil, hfirst]
    simp only [Instr.exec_store, Instr.exec_push, Instr.exec_pop, Machine.setReg,
      Machine.setMem, wordSize, rax]
    by_cases h : r = .rq 0
    · subst h
      simp only [if_true]
      rw [if_neg (by omega)]
    · exact (if_neg h).trans (if_neg h)
  · have hoo : o' ≠ o := fun h => hne (h ▸ rfl)
    simp only [Instr.execAll_cons, Instr.execAll_nil, hfirst]
    simp only [Instr.exec_store, Instr.exec_push, Instr.exec_pop, Machine.setReg,
      Machine.setMem, Context.base, wordSize]
    rw [if_neg (by omega), if_neg (by omega)]

/-- The low half of a slot, written with a DWORD. -/
theorem setWidth_storeImm32 (x : BitVec 32) (y : BitVec 64) :
    (x ++ y.setWidth 32).setWidth 32 = y.setWidth 32 := by
  rw [BitVec.setWidth_append, dif_pos (Nat.le_refl 32), BitVec.setWidth_setWidth_of_le _ (Nat.le_refl 32)]

theorem setWidth_signExtend_32 (x : BitVec 32) : (x.signExtend 64).setWidth 32 = x := by
  ext i hi
  simp only [BitVec.getElem_setWidth, BitVec.getLsbD_signExtend]
  simp [hi, Nat.lt_trans hi (by decide : 32 < 64)]

theorem condByte_zero (b : Bool) : lowByte (condByte b) 0 = if b then 1 else 0 := by
  cases b <;> rfl

/-- A constant in a general purpose register has all of its bits. -/
theorem immediateToReg_rq (v : Value) (r : RegId) (s : Context) :
    ∃ i : Instr, immediateToReg (.rq r) v s = some ((), { s with asm := s.asm ++ [i] }) ∧
      ∀ μ, i.exec μ = μ.setReg (.rq r) (asBytes v) := by
  rw [immediateToReg]
  split
  · next h =>
    refine ⟨_, rfl, fun μ => ?_⟩
    have heq : ((asBytes v).setWidth 32).setWidth 64 = asBytes v := by
      refine BitVec.eq_of_toNat_eq ?_
      rw [BitVec.toNat_setWidth, BitVec.toNat_setWidth, Nat.mod_eq_of_lt h]
      exact Nat.mod_eq_of_lt (Nat.lt_trans h (by decide))
    rw [Instr.exec, heq]
  · exact ⟨_, rfl, fun μ => rfl⟩

/-- A constant in a vector register has its bits; above those of a constant of four bytes is what follows
it in the pool. -/
theorem value_loadPool (v : Value) (r : RegId) (μ : Machine) (base : Int) :
    (((Instr.loadPool r (.ofValue v)).exec μ).read base (.reg (.rx r))).setWidth
        (ValueLocation.immediate v).bits =
      (asBytes v).setWidth (ValueLocation.immediate v).bits := by
  have hpool (x y : BitVec 32) (z : BitVec 64) (hz : z.setWidth 32 = y) :
      (x ++ y).setWidth 32 = z.setWidth 32 := by
    rw [BitVec.setWidth_append, dif_pos (Nat.le_refl 32), hz, BitVec.setWidth_eq]
  cases v with
  | i32 x =>
    simp only [LabelValue.ofValue, Instr.exec, Machine.read, Machine.setReg, if_true]
    refine hpool _ _ _ ?_
    rw [asBytes, setWidth_signExtend_32]
  | i64 x =>
    simp only [LabelValue.ofValue, Instr.exec, Machine.read, Machine.setReg, if_true, asBytes]
  | f32 x =>
    simp only [LabelValue.ofValue, Instr.exec, Machine.read, Machine.setReg, if_true]
    refine hpool _ _ _ ?_
    rw [asBytes, BitVec.setWidth_setWidth_of_le _ (by decide), BitVec.setWidth_eq]
  | f64 x =>
    simp only [LabelValue.ofValue, Instr.exec, Machine.read, Machine.setReg, if_true, asBytes]

end

section

variable {s : Context} {src : ValueLocation} {dst : CCLoc}

/-- A register written by one instruction. -/
theorem copies_reg {g : GPR} {i : Instr} (hc : Coherent s src)
    (hrun : copyValue src (.reg g) s = some ((), { s with asm := s.asm ++ [i] }))
    (hexec : ∀ μ, ∃ x, i.exec μ = μ.setReg g x ∧
      x.setWidth src.bits = (μ.read (s.base μ) src).setWidth src.bits) :
    Copies s src (.reg g) := by
  refine Copies.of_code hc hrun (fun μ => ?_) (fun μ => ?_) (fun μ r _ hne => ?_)
    fun μ o _ _ => ?_
  all_goals
    obtain ⟨x, hx, hvalue⟩ := hexec μ
    simp only [Instr.execAll_cons, Instr.execAll_nil, hx, Machine.setReg]
  · simp only [Machine.read, ValueLocation.ofCC, if_true]
    exact hvalue
  · have hg : r ≠ g := fun h => hne (h ▸ rfl)
    exact if_neg hg

/-- A copy to where the value is. -/
theorem copies_nil (hc : Coherent s src) (hrun : copyValue src dst s = some ((), s))
    (heq : ∀ μ : Machine, μ.read (s.base μ) (.ofCC dst) = μ.read (s.base μ) src) : Copies s src dst :=
  ⟨s, [], hrun, (List.append_nil _).symm, fun μ => Moved.of_frame hc rfl rfl rfl (fun _ _ _ => rfl)
    (by rw [Instr.execAll_nil, heq]) (fun _ _ _ => rfl) fun _ _ _ => rfl⟩

/-- A condition code written to a general purpose register. -/
theorem copies_cond_rq {c : CondCode} {n : Nat} {r : RegId} (hc : Coherent s (.cond c n)) :
    Copies s (.cond c n) (.reg (.rq r)) := by
  have hrun : copyValue (.cond c n) (.reg (.rq r)) s =
      some ((), { s with asm := s.asm ++ [.movImm32 r 0, .set c r] }) := by
    rw [copyValue, copyValueWith, copyCond, Gen.bind_of_some (emit_run _ _), emit_run,
      ← List.append_cons]
  refine Copies.of_code hc hrun (fun _ => rfl) (fun μ => ?_) (fun μ g _ hne => ?_) fun _ _ _ _ => rfl
  · simp only [Instr.execAll_cons, Instr.execAll_nil, Instr.exec, Machine.setReg, Machine.read,
      ValueLocation.ofCC, if_true]
    exact congrArg _ (condByte_zero _)
  · have hg : g ≠ .rq r := fun h => hne (h ▸ rfl)
    simp only [Instr.execAll_cons, Instr.execAll_nil, Instr.exec, Machine.setReg, if_neg hg]

/-- A condition code written to a slot. -/
theorem copies_cond_stack {c : CondCode} {n : Nat} {o : Int} (hc : Coherent s (.cond c n)) :
    Copies s (.cond c n) (.stack o) := by
  have hrun : copyValue (.cond c n) (.stack o) s = some ((), { s with
      asm := s.asm ++ [.storeZero ((s.depth + o) * wordSize),
        .setStack c ((s.depth + o) * wordSize)] }) := by
    rw [copyValue, copyValueWith, Gen.bind_of_some (adjustedOffset_run s o),
      Gen.bind_of_some (emit_run _ _), emit_run, ← List.append_cons]
  refine Copies.of_code hc hrun (fun _ => rfl) (fun μ => ?_) (fun _ _ _ _ => rfl) fun μ o' _ hne => ?_
  · simp only [Instr.execAll_cons, Instr.execAll_nil, Instr.exec, Machine.setMem, Machine.read,
      ValueLocation.ofCC, Context.base, wordSize, if_true]
    rw [if_pos (by omega)]
    exact congrArg _ (condByte_zero _)
  · have hoo : o' ≠ o := fun h => hne (h ▸ rfl)
    simp only [Instr.execAll_cons, Instr.execAll_nil, Instr.exec, Machine.setMem, Context.base,
      wordSize]
    rw [if_neg (by omega), if_neg (by omega)]

/-- A constant of four bytes written to a slot. -/
theorem copies_const_small {v : Value} {o : Int} (hc : Coherent s (.immediate v))
    (hsmall : (asBytes v).toNat < 2 ^ 32) (hbits : (ValueLocation.immediate v).bits = 32) :
    Copies s (.immediate v) (.stack o) := by
  refine Copies.of_code hc (copy_const_small hsmall) (fun _ => rfl) (fun μ => ?_)
    (fun _ _ _ _ => rfl) fun μ o' _ hne => ?_
  · rw [hbits]
    simp only [Instr.execAll_cons, Instr.execAll_nil, Instr.exec, Machine.setMem, Machine.read,
      ValueLocation.ofCC, Context.base, wordSize]
    rw [if_pos (by omega)]
    exact setWidth_storeImm32 _ _
  · have hoo : o' ≠ o := fun h => hne (h ▸ rfl)
    simp only [Instr.execAll_cons, Instr.execAll_nil, Instr.exec, Machine.setMem, Context.base,
      wordSize]
    rw [if_neg (by omega)]

/-- A register written to a slot. -/
theorem copies_reg_stack {g : GPR} {o : Int} (hc : Coherent s (.reg g)) :
    Copies s (.reg g) (.stack o) := by
  have hrun : copyValue (.reg g) (.stack o) s =
      some ((), { s with asm := s.asm ++ [.store ((s.depth + o) * wordSize) g] }) := rfl
  refine Copies.of_code hc hrun (fun _ => rfl) (fun μ => ?_) (fun _ _ _ _ => rfl) fun μ o' _ hne => ?_
  · simp only [Instr.execAll_cons, Instr.execAll_nil, Instr.exec, Machine.setMem, Machine.read,
      ValueLocation.ofCC, Context.base, wordSize]
    rw [if_pos (by omega)]
  · have hoo : o' ≠ o := fun h => hne (h ▸ rfl)
    simp only [Instr.execAll_cons, Instr.execAll_nil, Instr.exec, Machine.setMem, Context.base,
      wordSize]
    rw [if_neg (by omega)]

/-- The value of an entry of the virtual stack, where it is after registers have been pushed. -/
theorem Kept.read {s' : Context} {μ μ' : Machine} (h : Kept s s' μ μ') {i : Nat}
    {v v' : ValueLocation} (hv : s.stack[i]? = some v) (hv' : s'.stack[i]? = some v') :
    μ'.read (s.base μ) v' = μ.read (s.base μ) v := by
  have hi := congrArg (·[i]?) h.stack
  simp only [List.getElem?_map, hv, hv', Option.map_some] at hi
  exact Option.some.inj hi

/-- A condition code written to a vector register, through a register that may have to be pushed first. -/
theorem copies_cond_rx {c : CondCode} {n : Nat} {r : RegId} (hc : Coherent s (.cond c n)) :
    Copies s (.cond c n) (.reg (.rx r)) ↔ CanTake s := by
  obtain ⟨htake, -, hcan⟩ | ⟨rs, -, ⟨t, hzero, htake, hcan⟩ | ⟨htake, -, -, hcan⟩⟩ := takeReg_rq hc
  · -- taking the register panics
    refine iff_of_false (fun ⟨s', code, hrun, _⟩ => ?_) hcan
    rw [copyValue, copyValueWith, Gen.bind_of_none htake] at hrun
    cases hrun
  · refine iff_of_true ?_ hcan
    have hrun := @copy_cond_some s (s.spills rs) t c n r (spills_regs rs hc.regs) hzero htake
    refine ⟨_, rs.map .push ++ [.movImm32 t 0, .set c t, .mov (.rx r) (.rq t)], hrun, ?_,
      fun μ => ?_⟩
    · rw [spills_asm, List.append_assoc]
    · have hkept := kept_spills rs (fun o => hc.frame_stack) μ
      rw [Instr.execAll_append]
      generalize Instr.execAll (rs.map .push) μ = μ₁ at hkept
      have hregs (g : GPR) (hg : g ≠ .rq t) (hgr : g ≠ .rx r) :
          (Instr.execAll [.movImm32 t 0, .set c t, .mov (.rx r) (.rq t)] μ₁).regs g = μ.regs g := by
        simp only [Instr.execAll_cons, Instr.execAll_nil, Instr.exec, Machine.setReg, if_neg hg,
          if_neg hgr, hkept.regs]
      refine ⟨hkept.base, ?_, fun g hg hne => ?_, fun o ho _ => hkept.slots o ho, ?_, fun i v v' hv hv' hne => ?_⟩
      · simp only [Instr.execAll_cons, Instr.execAll_nil, Instr.exec, Machine.setReg, Machine.read,
          ValueLocation.ofCC, if_true, hkept.flags]
        exact congrArg _ (condByte_zero _)
      · exact hregs g (fun h => hg (h ▸ hzero)) fun h => hne (h ▸ rfl)
      · have hlen := congrArg List.length hkept.stack
        rwa [List.length_map, List.length_map] at hlen
      · rw [← hkept.read hv hv']
        cases v' with
        | reg g =>
          have hpos := List.count_pos_iff.mpr (List.mem_of_getElem? hv')
          have hheld := spills_held rs hc.held g
          have hgt : g ≠ .rq t := by
            rintro rfl
            change _ < (s.spills rs).stack.count _ at hpos
            omega
          have hgr : g ≠ .rx r := by
            rintro rfl
            rcases spills_getElem? rs hv hv' with h | ⟨o, h⟩
            · exact hne (h ▸ rfl)
            · cases h
          rw [Machine.read, hregs g hgt hgr, Machine.read, hkept.regs]
        | stack _ => rfl
        | immediate _ => rfl
        | cond _ _ => rfl
  · refine iff_of_false (fun ⟨s', code, hrun, _⟩ => ?_) hcan
    rw [copy_cond_none htake] at hrun
    cases hrun

/-! ## Copies through a scratch register -/

/-- The result of the copy is known, and so is its code. -/
theorem copies_known {s' : Context} {code : List Instr}
    (hrun : copyValue src dst s = some ((), s')) (hasm : s'.asm = s.asm ++ code) :
    Copies s src dst ↔ ∀ μ, Moved s s' src dst μ (Instr.execAll code μ) := by
  refine ⟨fun ⟨s'', code', hrun', hasm', hmoved⟩ => ?_, fun h => ⟨s', code, hrun, hasm, h⟩⟩
  rw [hrun] at hrun'
  obtain ⟨-, rfl⟩ := Prod.mk.inj (Option.some.inj hrun')
  obtain rfl : code = code' := List.append_cancel_left (hasm.symm.trans hasm')
  exact hmoved

/-- A store whose offset was computed before the pushes misses its slot. -/
theorem slot_stale {rs : List RegId} {tail : List Instr} {o : Int} (hc : Coherent s src)
    (ho : -(s.depth : Int) ≤ o) (hrs : rs ≠ [])
    (htail : ∀ μ a, μ.rsp ≤ a → a ≠ μ.rsp + (s.depth + o) * wordSize →
      (Instr.execAll tail μ).mem a = μ.mem a) (μ : Machine) :
    (Instr.execAll (rs.map .push ++ tail) μ).mem (s.base μ + o * wordSize) =
      μ.mem (s.base μ + o * wordSize) := by
  have hkept := kept_spills rs (fun o => hc.frame_stack) μ
  have hbase := hkept.base
  have hpos := List.length_pos_iff.mpr hrs
  rw [Instr.execAll_append, ← hkept.slots o ho]
  simp only [Context.base, spills_depth, wordSize] at hbase ⊢
  refine htail _ _ (by omega) fun h => ?_
  simp only [wordSize] at h
  omega

/-- A word copied to a slot through a scratch register: the store is right when taking the register has
pushed none. -/
theorem copies_word {o : Int} (first : RegId → Instr) (firstRax : Instr) (hc : Coherent s src)
    (ho : -(s.depth : Int) ≤ o)
    (hsome : ∀ (s₁ : Context) (t : RegId), s₁.regs = .ofCount s₁.regs.count → s₁.regs.count (.rq t) = 0 →
      takeReg .rq s = some (some (.rq t), s₁.taken t) →
      copyValue src (.stack o) s = some ((), { s₁ with
        asm := s₁.asm ++ [first t, .store ((s.depth + o) * wordSize) (.rq t)] }))
    (hnone : ∀ s₁ : Context, takeReg .rq s = some (none, s₁) →
      copyValue src (.stack o) s = some ((), { s₁ with
        asm := s₁.asm ++
          [.push 0, firstRax, .store ((s.depth + o) * wordSize + wordSize) rax, .pop 0] }))
    (hfirst : ∀ t μ, (first t).exec μ = μ.setReg (.rq t) (μ.read (s.base μ) src))
    (hfirstRax : ∀ μ, firstRax.exec ((Instr.push 0).exec μ) =
      ((Instr.push 0).exec μ).setReg rax (μ.read (s.base μ) src))
    (hpanic : takeReg .rq s = none → copyValue src (.stack o) s = none)
    (hdiff : ∃ μ : Machine, (μ.mem (s.base μ + o * wordSize)).setWidth src.bits ≠
      (μ.read (s.base μ) src).setWidth src.bits) :
    Copies s src (.stack o) ↔ NoSpill s := by
  obtain ⟨htake, hspill, -⟩ | ⟨rs, hrs, hcase⟩ := takeReg_rq hc
  · refine iff_of_false (fun ⟨s', code, hrun, _⟩ => ?_) hspill
    rw [hpanic htake] at hrun
    cases hrun
  rw [← hrs]
  by_cases hnil : rs = []
  · subst hnil
    refine ⟨fun _ => rfl, fun _ => ?_⟩
    rcases hcase with ⟨t, hzero, htake, -⟩ | ⟨htake, -⟩
    · exact copies_slot_some hc hzero (hsome s t hc.regs hzero htake) (hfirst t)
    · exact copies_slot_none hc ho (hnone s htake) hfirstRax
  · refine iff_of_false (fun hcopies => ?_) hnil
    obtain ⟨μ, hμ⟩ := hdiff
    refine hμ ?_
    rcases hcase with ⟨t, hzero, htake, -⟩ | ⟨htake, -⟩
    · have hmoved := (copies_known (hsome _ t (spills_regs rs hc.regs) hzero htake) (by
        rw [spills_asm, List.append_assoc])).mp hcopies μ
      rw [← hmoved.value]
      refine congrArg _ (slot_stale hc ho hnil (fun μ₁ a _ ha => ?_) μ).symm
      simp only [Instr.execAll_cons, Instr.execAll_nil, hfirst, Instr.exec_store, Machine.setReg,
        Machine.setMem, if_neg ha]
    · have hmoved := (copies_known (hnone _ htake) (by
        rw [spills_asm, List.append_assoc])).mp hcopies μ
      rw [← hmoved.value]
      refine congrArg _ (slot_stale hc ho hnil (fun μ₁ a hle ha => ?_) μ).symm
      simp only [Instr.execAll_cons, Instr.execAll_nil, hfirstRax]
      simp only [Instr.exec_store, Instr.exec_push, Instr.exec_pop, Machine.setReg, Machine.setMem,
        wordSize] at ha ⊢
      rw [if_neg (by omega), if_neg (by omega)]

/-- The address of a slot, as `adjusted_offset` computes it. -/
theorem slot_address (s : Context) (μ : Machine) (o : Int) :
    μ.rsp + (s.depth + o) * wordSize = s.base μ + o * wordSize := by
  simp only [Context.base, wordSize]
  omega

/-- A machine whose slots hold this. -/
def Machine.ofMem (mem : Int → BitVec 64) : Machine where
  regs _ := 0
  mem := mem
  rsp := 0
  flags := ⟨false, false, false, false⟩
  pool _ := 0

theorem copies_stack_stack {i o : Int} (hc : Coherent s (.stack i)) (ho : -(s.depth : Int) ≤ o) :
    Copies s (.stack i) (.stack o) ↔ i = o ∨ NoSpill s := by
  by_cases hne : i = o
  · subst hne
    refine iff_of_true (copies_nil hc ?_ fun _ => rfl) (.inl rfl)
    rw [copyValue, copyValueWith, Gen.bind_of_some (adjustedOffset_run s i),
      Gen.bind_of_some (adjustedOffset_run s i), if_neg (not_not_intro rfl)]
    rfl
  · have hi := hc.frame i List.mem_cons_self
    rw [or_iff_right hne]
    refine copies_word (fun t => .load (.rq t) ((s.depth + i) * wordSize))
      (.load rax ((s.depth + i) * wordSize + wordSize)) hc ho
      (fun s₁ t hs hzero htake => copy_slot_some hne hs hzero htake)
      (fun s₁ htake => copy_slot_none hne htake) (fun t μ => ?_) (fun μ => ?_) (copy_slot_panic hne) ?_
    · rw [Instr.exec, slot_address, Machine.read]
    · rw [Machine.read, ← slot_address]
      simp only [Instr.exec, Machine.setMem, wordSize]
      rw [if_neg (by omega)]
      congr 2
      omega
    · let μ : Machine := .ofMem fun a => if a = s.depth * wordSize + i * wordSize then 1 else 0
      have hin : μ.read (s.base μ) (.stack i) = 1 :=
        if_pos (by simp only [Context.base, μ, Machine.ofMem, wordSize]; omega)
      have hout : μ.mem (s.base μ + o * wordSize) = 0 :=
        if_neg (by simp only [Context.base, μ, Machine.ofMem, wordSize]; omega)
      refine ⟨μ, ?_⟩
      rw [hin, hout]
      change (0 : BitVec 64).setWidth 64 ≠ (1 : BitVec 64).setWidth 64
      decide

/-- No word is its own complement, also in its lower half. -/
theorem setWidth_not_ne {w : Nat} (hw : w ≠ 0) (x : BitVec 64) :
    (~~~x).setWidth w ≠ x.setWidth w := by
  intro h
  have hbit := congrArg (BitVec.getLsbD · 0) h
  simp only [BitVec.getLsbD_setWidth, BitVec.getLsbD_not] at hbit
  have hpos : 0 < w := Nat.pos_of_ne_zero hw
  simp [hpos] at hbit

theorem bits_pos (v : ValueLocation) : v.bits ≠ 0 := by
  rcases v with _ | _ | ⟨_ | _ | _ | _⟩ | _ <;> exact Nat.succ_ne_zero _

/-- A constant that needs more than a DWORD. -/
theorem copies_const_large {v : Value} {o : Int} (hc : Coherent s (.immediate v))
    (ho : -(s.depth : Int) ≤ o) (h : ¬ (asBytes v).toNat < 2 ^ 32) :
    Copies s (.immediate v) (.stack o) ↔ NoSpill s := by
  refine copies_word (fun t => .movImm64 t (asBytes v)) (.movImm64 0 (asBytes v)) hc ho
    (fun s₁ t hs hzero htake => copy_const_some h hs hzero htake)
    (fun s₁ htake => copy_const_none h htake) (fun t μ => rfl) (fun μ => rfl) (copy_const_panic h) ?_
  exact ⟨.ofMem fun _ => ~~~asBytes v, setWidth_not_ne (bits_pos _) (asBytes v)⟩

/-- A constant of eight bytes that is stored with a DWORD keeps the upper half of the slot. -/
theorem not_copies_half {v : Value} {o : Int} (hsmall : (asBytes v).toNat < 2 ^ 32)
    (hbits : (ValueLocation.immediate v).bits ≠ 32) : ¬ Copies s (.immediate v) (.stack o) := by
  intro hcopies
  have hmoved := (copies_known (copy_const_small hsmall) rfl).mp hcopies (.ofMem fun _ => -1)
  have hwide : (ValueLocation.immediate v).bits = 64 := by
    cases v <;> first | rfl | exact absurd rfl hbits
  have hvalue := hmoved.value
  rw [hwide, BitVec.setWidth_eq, BitVec.setWidth_eq] at hvalue
  have hslot : (Instr.execAll
      [.storeImm32 ((s.depth + o) * wordSize) ((asBytes v).setWidth 32)] (.ofMem fun _ => -1)).mem
        (s.base (.ofMem fun _ => -1) + o * wordSize) =
      (-1 : BitVec 64).extractLsb' 32 32 ++ (asBytes v).setWidth 32 := by
    rw [← slot_address]
    exact if_pos rfl
  have hnat := congrArg BitVec.toNat (hslot.symm.trans hvalue)
  rw [BitVec.toNat_append] at hnat
  have hge : 2 ^ 32 ≤ ((-1 : BitVec 64).extractLsb' 32 32).toNat <<< 32 |||
      ((asBytes v).setWidth 32).toNat := by
    refine Nat.le_trans (by decide) Nat.left_le_or
  rw [hnat] at hge
  exact absurd hge (Nat.not_le.mpr hsmall)

/-- A copy to a slot or a register is right exactly when what it needs holds. -/
theorem copies_meets {src : ValueLocation} {dst : CCLoc} (hc : Coherent s src) (hv : dst.Valid s) :
    Copies s src dst ↔ CopyMeets s src dst := by
  rcases src with g | i | v | ⟨c, n⟩ <;> rcases dst with g' | o
  · -- register to register
    refine iff_of_true ?_ trivial
    by_cases hg : g = g'
    · subst hg
      refine copies_nil hc ?_ fun _ => rfl
      rw [copyValue, copyValueWith, copyReg, if_neg (not_not_intro rfl)]
      rfl
    · refine @copies_reg _ _ _ (.mov g' g) hc ?_ fun μ => ⟨_, rfl, rfl⟩
      rw [copyValue, copyValueWith, copyReg, if_pos hg, emit_run]
  · exact iff_of_true (copies_reg_stack hc) trivial
  · -- slot to register
    refine iff_of_true ?_ trivial
    refine @copies_reg _ _ _ (.load g' ((s.depth + i) * wordSize)) hc rfl fun μ => ⟨_, rfl, ?_⟩
    rw [slot_address, Machine.read]
  · exact copies_stack_stack hc hv
  · -- constant to register
    refine iff_of_true ?_ trivial
    rcases g' with r | r
    · obtain ⟨i, hrun, hexec⟩ := immediateToReg_rq v r s
      exact copies_reg hc hrun fun μ => ⟨_, hexec μ, rfl⟩
    · refine @copies_reg _ _ _ (.loadPool r (.ofValue v)) hc rfl fun μ => ?_
      have hvalue := value_loadPool v r μ (s.base μ)
      cases v <;> exact ⟨_, rfl, by simpa [Machine.read, LabelValue.ofValue, Instr.exec,
        Machine.setReg] using hvalue⟩
  · -- constant to slot
    rw [CopyMeets]
    split
    · next hsmall =>
      refine ⟨fun h => ?_, copies_const_small hc hsmall⟩
      by_contra hbits
      exact not_copies_half hsmall hbits h
    · next hlarge => exact copies_const_large hc hv hlarge
  · -- condition code to register
    rcases g' with r | r
    · exact iff_of_true (copies_cond_rq hc) trivial
    · exact copies_cond_rx hc
  · exact iff_of_true (copies_cond_stack hc) trivial

/-! ## Pushes -/

/-- `free_value` drops the reference of the value. -/
theorem freeValue_run {v : ValueLocation} (hs : s.regs = .ofCount s.regs.count)
    (hheld : ∀ r, [v].count (.reg r) ≤ s.regs.count r) :
    freeValue v s =
      some ((), { s with regs := .ofCount fun r => s.regs.count r - [v].count (.reg r) }) := by
  have hnone (h : ∀ r, [v].count (.reg r) = 0) :
      (Registers.ofCount fun r => s.regs.count r - [v].count (.reg r)) = s.regs := by
    rw [hs]
    exact congrArg _ (funext fun r => by rw [Registers.ofCount_count, h r, Nat.sub_zero])
  rcases v with g | o | i | ⟨c, n⟩
  · have hone := hheld g
    rw [List.count_singleton_self] at hone
    rw [freeValue_reg, release_run hs (by omega)]
    congr 4
    funext r
    by_cases hr : r = g
    · subst hr
      rw [Function.update_self, List.count_singleton_self]
    · rw [Function.update_of_ne hr, List.count_singleton, if_neg (by simp [Ne.symm hr]), Nat.sub_zero]
  all_goals
    rw [hnone fun r => by simp]
    rfl

/-- A value that is in no general purpose register and in no slot, brought to a scratch register. -/
theorem copy_scratch {v : ValueLocation} (hreg : ∀ r, v ≠ .reg (.rq r)) (hstack : ∀ o, v ≠ .stack o)
    (t : RegId) (s : Context) :
    ∃ code, copyValue v (.reg (.rq t)) s = some ((), { s with asm := s.asm ++ code }) ∧
      ∀ μ base, Instr.execAll code μ = μ.setReg (.rq t) (μ.read base v) := by
  rcases v with ⟨r | r⟩ | o | i | ⟨c, n⟩
  · exact absurd rfl (hreg r)
  · exact ⟨[.mov (.rq t) (.rx r)], rfl, fun μ base => rfl⟩
  · exact absurd rfl (hstack o)
  · obtain ⟨i, hrun, hexec⟩ := immediateToReg_rq i t s
    exact ⟨[i], hrun, fun μ base => hexec μ⟩
  · refine ⟨[.movImm32 t 0, .set c t], ?_, fun μ base => ?_⟩
    · rw [copyValue, copyValueWith, copyCond, Gen.bind_of_some (emit_run _ _), emit_run,
        ← List.append_cons]
    · simp only [Instr.execAll_cons, Instr.execAll_nil, Instr.exec, Machine.setReg, if_true,
        Machine.read]
      congr 1
      funext g
      by_cases hg : g = .rq t
      · rw [if_pos hg, if_pos hg]
        exact condByte_zero _
      · rw [if_neg hg, if_neg hg, if_neg hg]

/-- Such a value written to a slot when no register can be taken. -/
theorem copy_below {v : ValueLocation} {o : Int} (hreg : ∀ r, v ≠ .reg (.rq r))
    (hstack : ∀ o, v ≠ .stack o) (htake : takeReg .rq s = some (none, s)) :
    ∃ code, copyValue v (.stack o) s = some ((), { s with asm := s.asm ++ code }) ∧
      ∀ μ a, a ≠ μ.rsp + (s.depth + o) * wordSize → a ≠ μ.rsp - wordSize →
        (Instr.execAll code μ).mem a = μ.mem a := by
  rcases v with g | o' | v | ⟨c, n⟩
  · exact ⟨[.store ((s.depth + o) * wordSize) g], rfl, fun μ a h _ => if_neg h⟩
  · exact absurd rfl (hstack o')
  · by_cases h : (asBytes v).toNat < 2 ^ 32
    · exact ⟨_, copy_const_small h, fun μ a h _ => if_neg h⟩
    · refine ⟨_, copy_const_none h htake, fun μ a h h' => ?_⟩
      simp only [Instr.execAll_cons, Instr.execAll_nil, Instr.exec_store, Instr.exec_push,
        Instr.exec_pop, Machine.setReg, Machine.setMem, wordSize] at h h' ⊢
      rw [if_neg (by simp only [Instr.exec, Machine.setReg]; omega)]
      exact if_neg h'
  · refine ⟨[.storeZero ((s.depth + o) * wordSize), .setStack c ((s.depth + o) * wordSize)], ?_,
      fun μ a h _ => ?_⟩
    · rw [copyValue, copyValueWith, Gen.bind_of_some (adjustedOffset_run s o),
        Gen.bind_of_some (emit_run _ _), emit_run, ← List.append_cons]
    · simp only [Instr.execAll_cons, Instr.execAll_nil, Instr.exec, Machine.setMem, if_neg h]

/-- The push goes through the register that was taken. -/
theorem push_some {s₁ : Context} {v : ValueLocation} {t : RegId} (hreg : ∀ r, v ≠ .reg (.rq r))
    (hstack : ∀ o, v ≠ .stack o)
    (hheld : ∀ r, [v].count (.reg r) ≤ s₁.regs.count r) (hzero : s₁.regs.count (.rq t) = 0)
    (htake : takeReg .rq s = some (some (.rq t), s₁.taken t)) :
    ∃ s' code, pushPhysical v s = some (.stack (-((s.depth : Int) + 1)), s') ∧
      s'.asm = s₁.asm ++ (code ++ [.push t]) ∧
      (∀ μ base, Instr.execAll code μ = μ.setReg (.rq t) (μ.read base v)) ∧
      s'.stack = s₁.stack ∧ s'.depth = s₁.depth + 1 ∧
      ∀ g, s'.regs.count g = s₁.regs.count g - [v].count (.reg g) := by
  obtain ⟨code, hcopy, hexec⟩ := copy_scratch hreg hstack t (s₁.taken t)
  have hzero' : [v].count (.reg (.rq t)) = 0 := by
    rw [List.count_singleton, if_neg (by simp [hreg t])]
  let s₂ : Context := { s₁.taken t with asm := (s₁.taken t).asm ++ code }
  have hfree := @freeValue_run s₂ v rfl fun r => by
    by_cases hr : r = .rq t
    · subst hr
      rw [hzero']
      exact Nat.zero_le _
    · exact Nat.le_trans (hheld r) (Nat.le_of_eq (Function.update_of_ne hr _ _).symm)
  have hinto : intoRegWith takeReg (some .rq) v s = some (some (.rq t),
      { s₂ with regs := .ofCount fun r => s₂.regs.count r - [v].count (.reg r) }) := by
    rw [intoRegWith, Gen.bind_of_some (toReg_some hreg htake hcopy)]
    exact Gen.bind_of_some hfree
  let s₃ : Context :=
    { s₂ with
      regs := .ofCount fun r => s₂.regs.count r - [v].count (.reg r)
      asm := s₂.asm ++ [.push t] }
  have hone : s₃.regs.count (.rq t) = 1 := by
    change update s₁.regs.count (.rq t) 1 (.rq t) - [v].count (.reg (.rq t)) = 1
    rw [hzero', Function.update_self]
  have hrel := @release_run s₃ (.rq t) rfl (by omega)
  refine ⟨{ s₃ with
      regs := .ofCount (update s₃.regs.count (.rq t) (s₃.regs.count (.rq t) - 1))
      depth := s₃.depth + 1 }, code, ?_, List.append_assoc _ _ _, hexec, rfl, rfl, fun g => ?_⟩
  · exact pushPhysical_some hstack hinto hrel
  · rw [hone]
    by_cases hg : g = .rq t
    · subst hg
      rw [hzero, Nat.zero_sub]
      exact Function.update_self _ _ _
    · refine (Function.update_of_ne hg _ _).trans ?_
      exact congrArg (· - _) (Function.update_of_ne hg _ _)

/-- `take_reg` has nothing to take. -/
theorem takeReg_none (hs : s.regs = .ofCount s.regs.count) (hused : ∀ t, s.regs.count (.rq t) ≠ 0)
    (hnone : ∀ r, .reg (.rq r) ∉ s.stack) : takeReg .rq s = some (none, s) := by
  have hnoReg : ∀ v ∈ s.stack, ¬ isReg .rq v := fun v hv hreg => by
    obtain ⟨r, rfl⟩ := isReg_rq_iff.mp hreg
    exact hnone r hv
  change takeRegFuel (s.stack.length + 1 + 1) .rq s = _
  rw [takeRegFuel, Gen.bind_of_some (takeFree_rq_none hs hused)]
  simp only
  rw [Gen.bind_of_some (freeReg_rq_none hnoReg)]
  rfl

/-- `take_reg` panics. -/
theorem push_panic {v : ValueLocation} (hreg : ∀ r, v ≠ .reg (.rq r)) (hstack : ∀ o, v ≠ .stack o)
    (htake : takeReg .rq s = none) : pushPhysical v s = none := by
  have hinto : intoRegWith takeReg (some .rq) v s = none := by
    rcases v with ⟨r | r⟩ | o | i | ⟨c, n⟩
    · exact absurd rfl (hreg r)
    all_goals exact Gen.bind_of_none (Gen.bind_of_none htake)
  rcases v with g | o | i | ⟨c, n⟩
  case stack => exact absurd rfl (hstack o)
  all_goals
    rw [pushPhysical, pushPhysicalWith, Gen.bind_of_some (rfl : (get : Gen Context) s = some (s, s))]
    exact Gen.bind_of_none hinto

/-- No register can be taken: `rax` is pushed and the value is written somewhere else. -/
theorem push_none {s₁ : Context} {v : ValueLocation} (hreg : ∀ r, v ≠ .reg (.rq r))
    (hstack : ∀ o, v ≠ .stack o) (hs : s₁.regs = .ofCount s₁.regs.count)
    (hheld : ∀ r, [v].count (.reg r) ≤ s₁.regs.count r) (hused : ∀ t, s₁.regs.count (.rq t) ≠ 0)
    (hnone : ∀ r, .reg (.rq r) ∉ s₁.stack) (htake : takeReg .rq s = some (none, s₁)) :
    ∃ s' code, pushPhysical v s = some (.stack (-((s.depth : Int) + 1)), s') ∧
      s'.asm = s₁.asm ++ .push 0 :: code ∧
      ∀ μ a, a ≠ μ.rsp + ((s₁.depth : Int) - (s.depth + 1)) * wordSize → a ≠ μ.rsp - wordSize →
        (Instr.execAll code μ).mem a = μ.mem a := by
  let s₂ : Context := { s₁ with asm := s₁.asm ++ [.push 0] }
  obtain ⟨code, hcopy, hexec⟩ := @copy_below s₂ v (-((s.depth : Int) + 1)) hreg hstack
    (takeReg_none hs hused hnone)
  let s₃ : Context := { s₂ with asm := s₂.asm ++ code }
  have hfree := @freeValue_run s₃ v hs hheld
  have hinto : intoRegWith takeReg (some .rq) v s = some (none, s₁) := by
    rw [intoRegWith, Gen.bind_of_some (toReg_none hreg htake)]
    rfl
  refine ⟨{ s₃ with
      regs := .ofCount fun r => s₃.regs.count r - [v].count (.reg r)
      depth := s₃.depth + 1 }, code, ?_, (List.append_cons _ _ _).symm, fun μ a h h' => ?_⟩
  · exact pushPhysical_none hstack hinto hcopy hfree
  · refine hexec μ a ?_ h'
    rwa [← Int.sub_eq_add_neg]

/-- The result of the push is known, and so is its code. -/
theorem pushes_known {v : ValueLocation} {o : Int} {s' : Context} {code : List Instr}
    (hrun : pushPhysical v s = some (.stack o, s')) (hasm : s'.asm = s.asm ++ code) :
    Pushes s v ↔ ∀ μ, Moved s s' v (.stack o) μ (Instr.execAll code μ) := by
  refine ⟨fun ⟨o', s'', code', hrun', hasm', hmoved⟩ => ?_, fun h => ⟨o, s', code, hrun, hasm, h⟩⟩
  rw [hrun] at hrun'
  obtain ⟨ho, rfl⟩ := Prod.mk.inj (Option.some.inj hrun')
  obtain rfl := ValueLocation.stack.inj ho
  obtain rfl : code = code' := List.append_cancel_left (hasm.symm.trans hasm')
  exact hmoved

/-- The slot that is returned holds a register instead of the value. -/
theorem not_pushes {v : ValueLocation} {o : Int} {s' : Context} {code : List Instr} {r : RegId}
    (hreg : ∀ r, v ≠ .reg (.rq r)) (hstack : ∀ o, v ≠ .stack o)
    (hrun : pushPhysical v s = some (.stack o, s')) (hasm : s'.asm = s.asm ++ code)
    (hslot : ∀ μ, (Instr.execAll code μ).mem (s.base μ + o * wordSize) = μ.regs (.rq r)) :
    ¬ Pushes s v := by
  intro hpushes
  let μ₀ : Machine := .ofMem fun _ => 0
  let x := μ₀.read (s.base μ₀) v
  let μ : Machine := { μ₀ with regs := update μ₀.regs (.rq r) (~~~x) }
  have hread : μ.read (s.base μ) v = x := by
    rcases v with g | o | i | ⟨c, n⟩
    · have hg : g ≠ .rq r := fun h => hreg r (congrArg _ h)
      exact Function.update_of_ne hg _ _
    · exact absurd rfl (hstack o)
    all_goals rfl
  have hvalue := ((pushes_known hrun hasm).mp hpushes μ).value
  have hlost : (Instr.execAll code μ).read (s.base μ) (.ofCC (.stack o)) = ~~~x :=
    (hslot μ).trans (Function.update_self _ _ _)
  rw [hlost, hread] at hvalue
  exact setWidth_not_ne (bits_pos v) x hvalue

/-- A value of a slot that is pushed. -/
theorem pushes_stack {o : Int} (hc : Coherent s (.stack o)) : Pushes s (.stack o) := by
  have hrun : pushPhysical (.stack o) s = some (.stack (-((s.depth : Int) + 1)),
      { s with
        depth := s.depth + 1
        asm := s.asm ++ [.pushStack ((s.depth + o) * wordSize)] }) := rfl
  refine (pushes_known hrun rfl).mpr fun μ => Moved.of_frame hc rfl ?_ rfl (fun _ _ _ => rfl) ?_
    (fun _ _ _ => rfl) fun o' ho' _ => ?_
  · simp only [Instr.execAll_cons, Instr.execAll_nil, Instr.exec, Context.base, wordSize]
    omega
  · refine congrArg _ ?_
    simp only [Instr.execAll_cons, Instr.execAll_nil, Instr.exec, slot_address, Machine.setMem,
      Machine.read, ValueLocation.ofCC]
    rw [if_pos (by simp only [Context.base, wordSize]; omega)]
  · simp only [Instr.execAll_cons, Instr.execAll_nil, Instr.exec, Machine.setMem, Context.base,
      wordSize]
    rw [if_neg (by omega)]

/-- A general purpose register is pushed when it can have one more reference. -/
theorem pushes_rq {r : RegId} (hc : Coherent s (.reg (.rq r))) :
    Pushes s (.reg (.rq r)) ↔ s.regs.count (.rq r) < 255 := by
  by_cases hfit : s.regs.count (.rq r) < 255
  · refine iff_of_true ?_ hfit
    have hrun : pushPhysical (.reg (.rq r)) s = _ := pushPhysical_rq hc.regs (hc.used _ rfl) hfit
    refine (pushes_known hrun rfl).mpr fun μ => Moved.of_frame hc rfl ?_ rfl (fun _ _ _ => rfl) ?_
      (fun _ _ _ => rfl) fun o' ho' _ => ?_
    · simp only [Instr.execAll_cons, Instr.execAll_nil, Instr.exec, Context.base, wordSize]
      omega
    · refine congrArg _ ?_
      simp only [Instr.execAll_cons, Instr.execAll_nil, Instr.exec, Machine.setMem, Machine.read,
        ValueLocation.ofCC]
      rw [if_pos (by simp only [Context.base, wordSize]; omega)]
    · simp only [Instr.execAll_cons, Instr.execAll_nil, Instr.exec, Machine.setMem, Context.base,
        wordSize]
      rw [if_neg (by omega)]
  · have hfull : s.regs.count (.rq r) = 255 := by
      have := hc.fits (.rq r)
      omega
    refine iff_of_false ?_ hfit
    rintro ⟨o, s', code, hrun, -⟩
    rw [pushPhysical, pushPhysical_full hc.regs hfull] at hrun
    cases hrun

section

variable {v : ValueLocation}

/-- The references that are left after some pushes cover the value. -/
theorem held_spills (hreg : ∀ r, v ≠ .reg (.rq r)) (hc : Coherent s v) (rs : List RegId) (r : GPR) :
    [v].count (.reg r) ≤ (s.spills rs).regs.count r := by
  by_cases hv : v = .reg r
  · subst hv
    rw [List.count_singleton_self]
    cases r with
    | rq r => exact absurd rfl (hreg r)
    | rx r =>
      rw [spills_count_rx]
      exact Nat.pos_of_ne_zero (hc.used _ rfl)
  · rw [List.count_singleton, if_neg (by simp [hv])]
    exact Nat.zero_le _

theorem rsp_spills (hc : Coherent s v) (rs : List RegId) (μ : Machine) :
    (Instr.execAll (rs.map .push) μ).rsp = s.base μ - (s.depth + rs.length) * wordSize := by
  have hbase := (kept_spills rs (fun o => hc.frame_stack) μ).base
  simp only [Context.base, spills_depth, wordSize] at hbase ⊢
  omega

/-- The slot that `push_physical` returns holds the first register that is pushed. -/
theorem spills_first {rs : List RegId} (hc : Coherent s v) (hne : rs ≠ []) :
    ∃ r, ∀ μ, (Instr.execAll (rs.map .push) μ).mem (s.base μ + -((s.depth : Int) + 1) * wordSize) =
      μ.regs (.rq r) := by
  cases rs with
  | nil => exact absurd rfl hne
  | cons r rs => exact ⟨r, spills_slot fun o => hc.frame_stack⟩

/-- A free register is taken for the value, and pushed. -/
theorem pushes_taken {t : RegId} (hreg : ∀ r, v ≠ .reg (.rq r)) (hstack : ∀ o, v ≠ .stack o)
    (hc : Coherent s v) (hzero : s.regs.count (.rq t) = 0)
    (htake : takeReg .rq s = some (some (.rq t), s.taken t)) : Pushes s v := by
  obtain ⟨s', code, hrun, hasm, hexec, hs', hdepth, hcount⟩ :=
    @push_some s s v t hreg hstack (held_spills hreg hc []) hzero htake
  refine (pushes_known hrun hasm).mpr fun μ => ?_
  have hpush : Instr.execAll (code ++ [.push t]) μ =
      (Instr.push t).exec (μ.setReg (.rq t) (μ.read (s.base μ) v)) := by
    rw [Instr.execAll_append, hexec μ (s.base μ)]
    rfl
  rw [hpush]
  have hother (g : GPR) (hg : s'.regs.count g ≠ 0 ∨ .reg g ∈ s.stack) :
      ((Instr.push t).exec (μ.setReg (.rq t) (μ.read (s.base μ) v))).regs g = μ.regs g := by
    have hgt : g ≠ .rq t := by
      rintro rfl
      rw [hcount, hzero, Nat.zero_sub] at hg
      have hle := hc.held (.rq t)
      have hpos := List.count_pos_iff.mpr (hg.resolve_left (not_not_intro rfl))
      omega
    exact if_neg hgt
  refine Moved.of_frame hc hs' ?_ rfl (fun g hg _ => hother g (.inr hg)) ?_
    (fun g hg _ => hother g (.inl hg)) fun o' ho' _ => ?_
  · simp only [Context.base, hdepth, Instr.exec, Machine.setReg, wordSize]
    omega
  · have hslot : ((Instr.push t).exec (μ.setReg (.rq t) (μ.read (s.base μ) v))).mem
        (s.base μ + -((s.depth : Int) + 1) * wordSize) =
          (μ.setReg (.rq t) (μ.read (s.base μ) v)).regs (.rq t) :=
      if_pos (by
        simp only [Context.base, Machine.setReg, wordSize]
        omega)
    exact congrArg _ (hslot.trans (if_pos rfl))
  · refine if_neg ?_
    simp only [Context.base, Machine.setReg, wordSize]
    omega

/-- After other registers were pushed, the value lies below the slot that is returned. -/
theorem not_pushes_taken {t : RegId} {rs : List RegId} (hreg : ∀ r, v ≠ .reg (.rq r))
    (hstack : ∀ o, v ≠ .stack o) (hc : Coherent s v) (hne : rs ≠ [])
    (hzero : (s.spills rs).regs.count (.rq t) = 0)
    (htake : takeReg .rq s = some (some (.rq t), (s.spills rs).taken t)) : ¬ Pushes s v := by
  obtain ⟨s', code, hrun, hasm, hexec, -⟩ := push_some hreg hstack (held_spills hreg hc rs) hzero htake
  rw [spills_asm, List.append_assoc] at hasm
  obtain ⟨r, hr⟩ := spills_first hc hne
  have hpos := List.length_pos_iff.mpr hne
  refine @not_pushes _ v _ s' _ r hreg hstack hrun hasm fun μ => ?_
  rw [Instr.execAll_append, Instr.execAll_append, hexec _ (s.base μ), ← hr μ]
  refine if_neg ?_
  have hrsp := rsp_spills hc rs μ
  simp only [Machine.setReg, wordSize] at hrsp ⊢
  omega

/-- When no register can be taken, the slot holds the first one that was pushed, or `rax`. -/
theorem not_pushes_none {rs : List RegId} (hreg : ∀ r, v ≠ .reg (.rq r)) (hstack : ∀ o, v ≠ .stack o)
    (hc : Coherent s v) (hused : ∀ t, (s.spills rs).regs.count (.rq t) ≠ 0)
    (hnone : ∀ r, .reg (.rq r) ∉ (s.spills rs).stack)
    (htake : takeReg .rq s = some (none, s.spills rs)) : ¬ Pushes s v := by
  obtain ⟨s', code, hrun, hasm, hexec⟩ := push_none hreg hstack (spills_regs rs hc.regs)
    (held_spills hreg hc rs) hused hnone htake
  rw [spills_asm, List.append_assoc, spills_depth] at *
  have hlost (μ : Machine) : (Instr.execAll (rs.map .push ++ .push 0 :: code) μ).mem
      (s.base μ + -((s.depth : Int) + 1) * wordSize) =
        ((Instr.push 0).exec (Instr.execAll (rs.map .push) μ)).mem
          (s.base μ + -((s.depth : Int) + 1) * wordSize) := by
    have hrsp := rsp_spills hc rs μ
    rw [Instr.execAll_append, Instr.execAll_cons]
    refine hexec _ _ ?_ ?_ <;>
      simp only [Instr.exec_push, wordSize] at hrsp ⊢ <;> omega
  by_cases hnil : rs = []
  · subst hnil
    refine @not_pushes _ v _ s' _ 0 hreg hstack hrun hasm fun μ => ?_
    refine (hlost μ).trans (if_pos ?_)
    simp only [Context.base, List.map_nil, Instr.execAll_nil, wordSize]
    omega
  · obtain ⟨r, hr⟩ := spills_first hc hnil
    have hpos := List.length_pos_iff.mpr hnil
    refine @not_pushes _ v _ s' _ r hreg hstack hrun hasm fun μ => ?_
    refine (hlost μ).trans ((if_neg ?_).trans (hr μ))
    have hrsp := rsp_spills hc rs μ
    simp only [wordSize] at hrsp ⊢
    omega

/-- Any other value is pushed through a register, which has to be free. -/
theorem pushes_scratch (hreg : ∀ r, v ≠ .reg (.rq r)) (hstack : ∀ o, v ≠ .stack o)
    (hc : Coherent s v) : Pushes s v ↔ ∃ r, s.regs.count (.rq r) = 0 := by
  obtain ⟨htake, hspill, -⟩ | ⟨rs, hrs, hcase⟩ := takeReg_rq hc
  · refine iff_of_false ?_ fun h => hspill (.inl h)
    rintro ⟨o, s', code, hrun, -⟩
    rw [push_panic hreg hstack htake] at hrun
    cases hrun
  · rcases hcase with ⟨t, hzero, htake, -⟩ | ⟨htake, hused, hnone, -⟩
    · by_cases hnil : rs = []
      · subst hnil
        exact iff_of_true (pushes_taken hreg hstack hc hzero htake) ⟨t, hzero⟩
      · exact iff_of_false (not_pushes_taken hreg hstack hc hnil hzero htake)
          fun h => hnil (hrs.mpr (.inl h))
    · refine iff_of_false (not_pushes_none hreg hstack hc hused hnone htake) ?_
      rintro ⟨r, hr⟩
      obtain rfl := hrs.mpr (.inl ⟨r, hr⟩)
      exact hused r hr

end

/-- A push is right exactly when what it needs holds. -/
theorem pushes_meets {v : ValueLocation} (hc : Coherent s v) : Pushes s v ↔ PushMeets s v := by
  rcases v with ⟨r | r⟩ | o | i | ⟨c, n⟩
  · exact pushes_rq hc
  · exact pushes_scratch (fun r h => by cases h) (fun o h => by cases h) hc
  · exact iff_of_true (pushes_stack hc) trivial
  · exact pushes_scratch (fun r h => by cases h) (fun o h => by cases h) hc
  · exact pushes_scratch (fun r h => by cases h) (fun o h => by cases h) hc

end

/-- **Moves are complete.** A copy puts the whole value into its destination and leaves the rest alone, and
a push returns a slot that has it, exactly when the copy is none of a constant of eight bytes stored with a
DWORD, a word taken through a register that had to be pushed, and a condition code for which no register can be
taken; and when the push finds its register free, or pushes a register that can have one more reference. -/
theorem movesRight_iff {s : Context} {src value : ValueLocation} {dst : CCLoc} (hsrc : Coherent s src)
    (hdst : dst.Valid s) (hvalue : Coherent s value) :
    (Copies s src dst ∧ Pushes s value) ↔ (CopyMeets s src dst ∧ PushMeets s value) :=
  and_congr (copies_meets hsrc hdst) (pushes_meets hvalue)

/-- In the middle of a function, with a value in each scratch register, and two in `rax`. -/
def Context.midway : Context where
  overflowChecks := true
  stack := [.reg rax, .stack (-1), .reg rax, .reg rsi, .reg rdx, .reg rcx, .reg r8, .reg r9, .reg r10, .reg r11]
  depth := 2
  regs := .ofCount fun r => Registers.new.count r +
    [rax, rax, rsi, rdx, rcx, r8, r9, r10, r11].count r
  asm := [.push 3, .push 5]

theorem coherent_midway {v : ValueLocation} (hused : ∀ r, v = .reg r → r = rax) (hstack : ∀ o, v ≠ .stack o) :
    Coherent .midway v where
  regs := rfl
  fits r := by
    have hnew := Registers.new_count_le r
    have hcount := @List.count_le_length _ _ r [rax, rax, rsi, rdx, rcx, r8, r9, r10, r11]
    simp only [List.length_cons, List.length_nil] at hcount
    rw [Context.midway, Registers.ofCount_count]
    omega
  held r := by
    have hcount : Context.midway.stack.count (.reg r) =
        [rax, rax, rsi, rdx, rcx, r8, r9, r10, r11].count r := by
      simp [Context.midway, List.count_cons]
    rw [hcount]
    exact Nat.le_add_left _ _
  used r h := by
    rw [hused r h]
    decide
  frame o h := by
    rcases List.mem_cons.mp h with h | h
    · exact absurd h.symm (hstack o)
    · obtain rfl : o = -1 := by simpa [Context.midway] using h
      decide

/-- A condition code goes to a vector register after `r11` has been pushed for it; `rax` is pushed. -/
theorem movesRight_midway :
    Copies .midway (.cond .zf1 0) (.reg (.rx 0)) ∧ Pushes .midway (.reg rax) :=
  have hvector : CCLoc.Valid .midway (.reg (.rx 0)) := by
    rw [CCLoc.Valid]
    decide
  have hfits (g : RegId) (hg : .reg (.rq g) ∈ [] ++ [ValueLocation.reg (.rq 11)]) :
      Context.midway.regs.count (.rq g) < 255 := by
    obtain rfl : g = 11 := by simpa using hg
    decide
  (movesRight_iff (coherent_midway (fun r h => by cases h) fun o h => by cases h) hvector
    (coherent_midway (fun r h => (ValueLocation.reg.inj h).symm) fun o h => by cases h)).mpr
      ⟨.inr ⟨[], 11, _, rfl, by decide, hfits⟩, (by decide : Context.midway.regs.count rax < 255)⟩

/-- The state at the entry of a function without parameters. -/
def Context.atEntry : Context where
  overflowChecks := true
  stack := []
  depth := 0
  regs := .new
  asm := []

theorem coherent_atEntry (v : Value) : Coherent .atEntry (.immediate v) where
  regs := Registers.new_eq
  fits r := Nat.lt_of_le_of_lt (Registers.new_count_le r) (by decide)
  held _ := Nat.zero_le _
  used r h := by cases h
  frame o h := by simp [Context.atEntry] at h

/-- The upper half of a slot is not written when a small constant of eight bytes is copied to it. -/
theorem not_movesRight_slot : Coherent .atEntry (.immediate (.i64 5)) ∧
    CCLoc.Valid .atEntry (.stack 0) ∧
    ¬ (Copies .atEntry (.immediate (.i64 5)) (.stack 0) ∧ Pushes .atEntry (.immediate (.i64 5))) :=
  ⟨coherent_atEntry _, Int.le_refl _, fun h => not_copies_half (by decide) (by decide) h.1⟩

end Wasmtime.Lightbeam.Backend
