import Wasmtime.InterfaceTypes.Bindings

/-!
# Strings of interface types

What `translate_incoming` and `translate_outgoing` (`wasmtime-interface-types/src/lib.rs`) do with the
addresses and lengths that a guest gives them.

* `Passes`: after `translate_incoming`, the bytes of each string are where the pointer and the length next to
  it say, both read unsigned.
* `Gives`: each string of `translate_outgoing` is the bytes that the offset and the length say.
* `AllocsMeet`, `RangesKept`, `OutgoingMeets`: what the guest has to answer for this.

The guest's numbers are `i32` and extended with their sign, so an address from `2 ^ 31` on is past the end of
every memory, and slices past the end and bytes that are not UTF-8 are not errors but panics.

Results: `translateIncoming_ne_panic`, `translateIncoming_passes`, `outgoing_iff` and `callsSafe_of_meets`.
-/

namespace Wasmtime.InterfaceTypes

open Jit

section

variable {τ : Type} (promote : BitVec 32 → BitVec 64) (g : Guest τ)

/-! ## What a translation is to do -/

/-- The strings among the arguments are in the memory. -/
def Passes (args : List Value) (raw : List UInt8) :
    List IncomingBindingExpression → List RuntimeValue → Prop
  | [], wasm => wasm = []
  | .allocUtf8Str _ expr :: bindings, .i32 ptr :: .i32 len :: wasm =>
    (∃ val, getArg args expr = .ok (.string val) ∧
      slice raw ptr.toNat len.toNat = some (asBytes val)) ∧ Passes args raw bindings wasm
  | .as _ _ :: bindings, _ :: wasm => Passes args raw bindings wasm
  | _, _ => False

/-- `translate_incoming` does not panic, and passes strings. -/
def IncomingSafe (args : List Value) (s : State τ) (bindings : List IncomingBindingExpression) : Prop :=
  translateIncoming promote g args s bindings ≠ .panic () ∧
    ∀ wasm s', translateIncoming promote g args s bindings = .ok (wasm, s') →
      Passes args s'.memory bindings wasm

/-- The strings among the results are those of the memory. -/
def Gives (results : List RuntimeValue) (raw : List UInt8) :
    List OutgoingBindingExpression → List Value → Prop
  | [], values => values = []
  | .utf8Str _ offset length :: bindings, .string val :: values =>
    (∃ off len, getResult results offset = .ok (.i32 off) ∧ getResult results length = .ok (.i32 len) ∧
      slice raw off.toNat len.toNat = some (asBytes val)) ∧ Gives results raw bindings values
  | .as _ _ :: bindings, _ :: values => Gives results raw bindings values
  | _, _ => False

/-- `translate_outgoing` does not panic, and gives strings. -/
def OutgoingSafe (s : State τ) (results : List RuntimeValue) (bindings : List OutgoingBindingExpression) :
    Prop :=
  translateOutgoing promote g s results bindings ≠ .panic () ∧
    ∀ values, translateOutgoing promote g s results bindings = .ok values →
      Gives results s.memory bindings values

/-! ## What the guest is to give -/

/-- The address and the length are below `2 ^ 31`, and in the memory. -/
def InMemory (raw : List UInt8) (start len : BitVec 32) : Prop :=
  start.toNat < 2 ^ 31 ∧ len.toNat < 2 ^ 31 ∧ start.toNat + len.toNat ≤ raw.length

instance instDecidableInMemory (raw : List UInt8) (start len : BitVec 32) :
    Decidable (InMemory raw start len) := inferInstanceAs (Decidable (_ ∧ _ ∧ _))

/-- The allocator takes the length of a string, and what it returns is in the memory. -/
def AllocMeets (args : List Value) (s : State τ) : IncomingBindingExpression → Prop
  | .allocUtf8Str name expr => ∀ val, getArg args expr = .ok (.string val) →
      (asBytes val).length < 2 ^ 31 →
        let len := BitVec.ofNat 32 (asBytes val).length
        (∀ signature, g.exports name = some (.function signature) →
          Jit.invoke.accepts signature [.i32 len]) ∧
        ∀ ptr s', invoke g s name [.i32 len] = .ok ([.i32 ptr], s') →
          g.exports "memory" = some .memory → InMemory s'.memory ptr len
  | _ => True

/-- So it is in each round. -/
def AllocsMeet (args : List Value) : State τ → List IncomingBindingExpression → Prop
  | _, [] => True
  | s, expr :: bindings => AllocMeets g args s expr ∧
      ∀ pushed s', translateIncomingOne promote g args s expr = .ok (pushed, s') →
        AllocsMeet args s' bindings

/-- Two ranges of addresses have none in common. -/
def Apart (r r' : BitVec 32 × BitVec 32) : Prop :=
  r.1.toNat + r.2.toNat ≤ r'.1.toNat ∨ r'.1.toNat + r'.2.toNat ≤ r.1.toNat

instance instDecidableApart (r r' : BitVec 32 × BitVec 32) : Decidable (Apart r r') :=
  inferInstanceAs (Decidable (_ ∨ _))

/-- The bytes of a range are the same in two memories. -/
def SameAt (raw raw' : List UInt8) (r : BitVec 32 × BitVec 32) : Prop :=
  slice raw' r.1.toNat r.2.toNat = slice raw r.1.toNat r.2.toNat

/-- The allocator does not write to the ranges it has returned before, and returns one apart from them. -/
def AllocKeeps (args : List Value) (held : List (BitVec 32 × BitVec 32)) (s : State τ) :
    IncomingBindingExpression → Prop
  | .allocUtf8Str name expr => ∀ val, getArg args expr = .ok (.string val) →
      (asBytes val).length < 2 ^ 31 →
        let len := BitVec.ofNat 32 (asBytes val).length
        ∀ ptr s', invoke g s name [.i32 len] = .ok ([.i32 ptr], s') →
          ∀ r ∈ held, SameAt s.memory s'.memory r ∧ Apart r (ptr, len)
  | _ => True

/-- The range of a string that has been pushed. -/
def rangesOf : List RuntimeValue → List (BitVec 32 × BitVec 32)
  | [.i32 ptr, .i32 len] => [(ptr, len)]
  | _ => []

/-- So it does in each round. -/
def RangesKept (args : List Value) :
    List (BitVec 32 × BitVec 32) → State τ → List IncomingBindingExpression → Prop
  | _, _, [] => True
  | held, s, expr :: bindings => AllocKeeps g args held s expr ∧
      ∀ pushed s', translateIncomingOne promote g args s expr = .ok (pushed, s') →
        RangesKept args (rangesOf pushed ++ held) s' bindings

/-- The string is in the memory, and UTF-8. -/
def StringMeets (s : State τ) (results : List RuntimeValue) : OutgoingBindingExpression → Prop
  | .utf8Str ty offset length => ty = .scalar .domString → g.exports "memory" = some .memory →
      ∀ off len, getResult results offset = .ok (.i32 off) → getResult results length = .ok (.i32 len) →
        InMemory s.memory off len ∧
          ∀ bytes, slice s.memory off.toNat len.toNat = some bytes → (fromUtf8 bytes).isSome
  | _ => True

/-- So it is in each round. -/
def OutgoingMeets (s : State τ) (results : List RuntimeValue) :
    List OutgoingBindingExpression → Prop
  | [] => True
  | expr :: bindings => StringMeets g s results expr ∧
      ((∃ value, translateOutgoingOne promote g s results expr = .ok value) →
        OutgoingMeets s results bindings)

end

/-! ## Addresses -/

section

variable {raw bytes : List UInt8} {start len : Nat}

theorem asUsize_of_lt {x : BitVec 32} (h : x.toNat < 2 ^ 31) : asUsize x = x.toNat := by
  have hmsb : x.msb = false := by
    rw [BitVec.msb_eq_decide]
    exact decide_eq_false (by omega)
  rw [asUsize, BitVec.signExtend_eq_setWidth_of_msb_false hmsb, BitVec.toNat_setWidth]
  omega

/-- A number with its sign set is past the end of every memory. -/
theorem asUsize_of_ge {x : BitVec 32} (h : 2 ^ 31 ≤ x.toNat) : 2 ^ 32 < asUsize x := by
  have hmsb : x.msb = true := by
    rw [BitVec.msb_eq_decide]
    exact decide_eq_true (by omega)
  rw [asUsize, BitVec.toNat_signExtend, hmsb, if_pos rfl]
  omega

theorem slice_eq_some (h : start + len ≤ raw.length) :
    slice raw start len = some ((raw.drop start).take len) := if_pos (by omega)

theorem slice_eq_none (h : ¬ start + len ≤ raw.length) : slice raw start len = none :=
  if_neg (by omega)

/-- What was copied is read. -/
theorem slice_overwrite (h : start + bytes.length ≤ raw.length) :
    slice (overwrite raw start bytes) start bytes.length = some bytes := by
  have hlen : (raw.take start).length = start := by
    rw [List.length_take]
    omega
  rw [slice_eq_some (by rw [length_overwrite (by omega)]; exact h), overwrite, List.append_assoc,
    List.drop_append_of_le_length (Nat.le_of_eq hlen.symm), List.drop_eq_nil_of_le (Nat.le_of_eq hlen),
    List.nil_append, List.take_append_of_le_length (Nat.le_refl _), List.take_length]

/-- What is apart from it is as it was. -/
theorem slice_overwrite_apart {start' len' : Nat} (h : start + bytes.length ≤ raw.length)
    (hapart : start' + len' ≤ start ∨ start + bytes.length ≤ start') :
    slice (overwrite raw start bytes) start' len' = slice raw start' len' := by
  have hlength : (overwrite raw start bytes).length = raw.length := length_overwrite (by omega)
  by_cases hle : start' + len' ≤ raw.length
  · rw [slice_eq_some hle, slice_eq_some (hlength ▸ hle)]
    refine congrArg some (List.ext_getElem? fun i => ?_)
    rw [List.getElem?_take, List.getElem?_take, List.getElem?_drop, List.getElem?_drop]
    split
    · next hi =>
      have htake : (raw.take start).length = start := by
        rw [List.length_take]
        omega
      rw [overwrite]
      rcases hapart with hbefore | hafter
      · rw [List.append_assoc, List.getElem?_append_left (by omega), List.getElem?_take_of_lt (by omega)]
      · have hlong : (raw.take start ++ bytes).length = start + bytes.length := by
          rw [List.length_append, htake]
        rw [List.getElem?_append_right (by omega), hlong, List.getElem?_drop]
        congr 1
        omega
    · rfl
  · rw [slice_eq_none hle, slice_eq_none (hlength ▸ hle)]

/-- The two checks of a slice, for numbers with their sign. -/
theorem inMemory_iff {start len : BitVec 32} (hraw : raw.length ≤ 2 ^ 32) :
    InMemory raw start len ↔ asUsize start + asUsize len ≤ raw.length := by
  rw [InMemory]
  by_cases hstart : start.toNat < 2 ^ 31
  · by_cases hlen : len.toNat < 2 ^ 31
    · rw [asUsize_of_lt hstart, asUsize_of_lt hlen]
      omega
    · have := asUsize_of_ge (Nat.not_lt.mp hlen)
      omega
  · have := asUsize_of_ge (Nat.not_lt.mp hstart)
    omega

theorem slice_asUsize {start len : BitVec 32} (hraw : raw.length ≤ 2 ^ 32) :
    slice raw (asUsize start) (asUsize len) =
      if InMemory raw start len then slice raw start.toNat len.toNat else none := by
  split
  · next h => rw [asUsize_of_lt h.1, asUsize_of_lt h.2.1]
  · next h => exact slice_eq_none fun hle => h ((inMemory_iff hraw).mpr hle)

end

/-! ## Incoming strings -/

section

variable {τ : Type} {promote : BitVec 32 → BitVec 64} {g : Guest τ} {s : State τ}

theorem toNat_length {bytes : List UInt8} (h : bytes.length < 2 ^ 31) :
    (BitVec.ofNat 32 bytes.length).toNat = bytes.length := by
  rw [BitVec.toNat_ofNat]
  exact Nat.mod_eq_of_lt (Nat.lt_trans h (by decide))

theorem invoke_ne_panic {field : String} {args : List RuntimeValue} :
    invoke g s field args ≠ .panic () ↔
      ∀ signature, g.exports field = some (.function signature) → Jit.invoke.accepts signature args := by
  rw [invoke]
  cases g.exports field with
  | none => exact iff_of_true (fun h => by cases h) fun _ h => by cases h
  | some e =>
    cases e with
    | memory => exact iff_of_true (fun h => by cases h) fun _ h => by cases h
    | other => exact iff_of_true (fun h => by cases h) fun _ h => by cases h
    | function signature =>
      by_cases haccepts : Jit.invoke.accepts signature args
      · refine iff_of_true ?_ fun signature' h => ?_
        · simp only [haccepts, if_true]
          split <;> exact fun h => by cases h
        · obtain rfl := ExportKind.function.inj (Option.some.inj h)
          exact haccepts
      · refine iff_of_false ?_ fun h => haccepts (h signature rfl)
        simp only [haccepts]
        exact fun h => h rfl

theorem rawMemory_ne_panic : rawMemory g s ≠ .panic () := by
  rw [rawMemory]
  split <;> exact fun h => by cases h

theorem rawMemory_eq_ok {raw : List UInt8} :
    rawMemory g s = .ok raw ↔ g.exports "memory" = some .memory ∧ raw = s.memory := by
  rw [rawMemory]
  split
  · next h => exact ⟨(fun he => by cases he), fun he => by rw [h] at he; cases he.1⟩
  · next h => exact ⟨fun he => ⟨h, (Ending.ok.inj he).symm⟩, fun he => by rw [he.2]⟩
  · next hne h =>
    exact ⟨(fun he => by cases he), fun he => absurd (Option.some.inj (h.symm.trans he.1)) hne⟩

theorem copyFromSlice_eq (start : Nat) (bytes : List UInt8) :
    (s.copyFromSlice start bytes).map State.memory =
      if start + bytes.length ≤ s.memory.length then some (overwrite s.memory start bytes) else none := by
  rw [State.copyFromSlice]
  split
  · next h =>
    rw [if_pos (by omega)]
    rfl
  · next h =>
    rw [if_neg (by omega)]
    rfl

theorem copyTo_many {bytes : List UInt8} (v w : RuntimeValue) (results : List RuntimeValue) :
    copyTo g s bytes (v :: w :: results) = .err .numberOfResults := by
  cases v <;> rfl

/-- A pointer is in the memory, or the copy panics. -/
theorem copyTo_ptr {bytes : List UInt8} (hlen : bytes.length < 2 ^ 31) {ptr : BitVec 32}
    (hmem : g.exports "memory" = some .memory) :
    if InMemory s.memory ptr (BitVec.ofNat 32 bytes.length) then
      ∃ s', copyTo g s bytes [.i32 ptr] = .ok ((ptr, BitVec.ofNat 32 bytes.length), s') ∧
        s'.memory = overwrite s.memory ptr.toNat bytes
    else copyTo g s bytes [.i32 ptr] = .panic () := by
  have heq := @copyFromSlice_eq _ s (asUsize ptr) bytes
  have hin := @inMemory_iff s.memory ptr (BitVec.ofNat 32 bytes.length) s.memory_le
  have hlen' := toNat_length hlen
  rw [asUsize_of_lt (x := BitVec.ofNat 32 bytes.length) (by omega), hlen'] at hin
  rw [copyTo, rawMemory_eq_ok.mpr ⟨hmem, rfl⟩, Ending.ok_bind]
  split
  · next h =>
    rw [if_pos (hin.mp h), Option.map_eq_some_iff] at heq
    obtain ⟨s', hs', hmemory⟩ := heq
    rw [asUsize_of_lt h.1] at hmemory hs'
    refine ⟨s', ?_, hmemory⟩
    rw [asUsize_of_lt h.1, hs']
  · next h =>
    rw [if_neg fun hle => h (hin.mpr hle), Option.map_eq_none_iff] at heq
    rw [heq]

/-- The copy panics when the arguments are refused or what the allocator returns is not in the memory. -/
theorem copy_ne_panic {name : String} {bytes : List UInt8} (hlen : bytes.length < 2 ^ 31) :
    copy g s name bytes ≠ .panic () ↔
      (∀ signature, g.exports name = some (.function signature) →
        Jit.invoke.accepts signature [.i32 (BitVec.ofNat 32 bytes.length)]) ∧
      ∀ ptr s', invoke g s name [.i32 (BitVec.ofNat 32 bytes.length)] = .ok ([.i32 ptr], s') →
        g.exports "memory" = some .memory →
          InMemory s'.memory ptr (BitVec.ofNat 32 bytes.length) := by
  rw [copy, if_pos hlen, ← invoke_ne_panic (g := g) (s := s)]
  cases hinvoke : invoke g s name [.i32 (BitVec.ofNat 32 bytes.length)] with
  | panic => exact iff_of_false (fun h => h rfl) fun h => h.1 rfl
  | err e =>
    exact iff_of_true (fun h => by cases h) ⟨(fun h => by cases h), fun _ _ h => by cases h⟩
  | ok p =>
    obtain ⟨results, s'⟩ := p
    rw [Ending.ok_bind]
    constructor
    · intro h
      refine ⟨(fun h => by cases h), fun ptr s'' he hmem => ?_⟩
      obtain ⟨rfl, rfl⟩ := Prod.mk.inj (Ending.ok.inj he)
      by_contra hnot
      have hcopy := @copyTo_ptr _ g s' bytes hlen ptr hmem
      rw [if_neg hnot] at hcopy
      exact h hcopy
    · rintro ⟨-, h⟩
      rcases results with _ | ⟨v, _ | ⟨w, results⟩⟩
      · exact fun h => by cases h
      · cases v with
        | i32 ptr =>
          cases hraw : rawMemory g s' with
          | panic => exact absurd hraw rawMemory_ne_panic
          | err e =>
            rw [copyTo, hraw]
            exact fun h => by cases h
          | ok raw =>
            obtain ⟨hmem, -⟩ := rawMemory_eq_ok.mp hraw
            have hcopy := @copyTo_ptr _ g s' bytes hlen ptr hmem
            rw [if_pos (h ptr s' rfl hmem)] at hcopy
            obtain ⟨s'', hcopy, -⟩ := hcopy
            rw [hcopy]
            exact fun h => by cases h
        | i64 _ => exact fun h => by cases h
        | f32 _ => exact fun h => by cases h
        | f64 _ => exact fun h => by cases h
        | v128 _ => exact fun h => by cases h
      · rw [copyTo_many]
        exact fun h => by cases h

/-- A copy goes to the range that the allocator has returned. -/
theorem of_copy {name : String} {bytes : List UInt8} {ptr len : BitVec 32} {s' : State τ}
    (h : copy g s name bytes = .ok ((ptr, len), s')) :
    bytes.length < 2 ^ 31 ∧ len = BitVec.ofNat 32 bytes.length ∧
      ∃ s₁, invoke g s name [.i32 len] = .ok ([.i32 ptr], s₁) ∧ InMemory s₁.memory ptr len ∧
        s'.memory = overwrite s₁.memory ptr.toNat bytes := by
  rw [copy] at h
  split at h
  · next hlen =>
    obtain ⟨⟨results, s₁⟩, hinvoke, hcopy⟩ := Ending.bind_eq_ok.mp h
    rcases results with _ | ⟨v, _ | ⟨w, results⟩⟩
    · cases hcopy
    · cases v with
      | i32 ptr' =>
        obtain ⟨raw, hraw, -⟩ := Ending.bind_eq_ok.mp hcopy
        obtain ⟨hmem, -⟩ := rawMemory_eq_ok.mp hraw
        have hptr := @copyTo_ptr _ g s₁ bytes hlen ptr' hmem
        by_cases hin : InMemory s₁.memory ptr' (BitVec.ofNat 32 bytes.length)
        · rw [if_pos hin] at hptr
          obtain ⟨s₂, hok, hmemory⟩ := hptr
          obtain ⟨hp, rfl⟩ := Prod.mk.inj (Ending.ok.inj (hok.symm.trans hcopy))
          obtain ⟨rfl, rfl⟩ := Prod.mk.inj hp
          exact ⟨hlen, rfl, s₁, hinvoke, hin, hmemory⟩
        · rw [if_neg hin] at hptr
          exact absurd (hptr.symm.trans hcopy) fun h => by cases h
      | i64 _ => cases hcopy
      | f32 _ => cases hcopy
      | f64 _ => cases hcopy
      | v128 _ => cases hcopy
    · rw [copyTo_many] at hcopy
      cases hcopy
  · cases h

/-- After a copy the bytes are where the pointer and the length say. -/
theorem slice_of_copy {name : String} {bytes : List UInt8} {ptr len : BitVec 32} {s' : State τ}
    (h : copy g s name bytes = .ok ((ptr, len), s')) :
    slice s'.memory ptr.toNat len.toNat = some bytes := by
  obtain ⟨hlen, rfl, s₁, -, hin, hmemory⟩ := of_copy h
  have hle := hin.2.2
  rw [toNat_length hlen] at hle ⊢
  rw [hmemory]
  exact slice_overwrite hle

theorem getArg_ne_panic {args : List Value} {expr : IncomingBindingExpression} :
    getArg args expr ≠ .panic () := by
  cases expr with
  | get idx =>
    rw [getArg]
    cases args[idx.toNat]? <;> exact fun h => by cases h
  | as _ _ => exact fun h => by cases h
  | allocUtf8Str _ _ => exact fun h => by cases h
  | other _ => exact fun h => by cases h

theorem incomingAs_ne_panic {ty : ValType} {val : Value} : incomingAs promote ty val ≠ .panic () := by
  cases ty <;> cases val <;> exact fun h => by cases h

/-- A round panics exactly when its string is not met. -/
theorem translateIncomingOne_ne_panic {args : List Value} {expr : IncomingBindingExpression} :
    translateIncomingOne promote g args s expr ≠ .panic () ↔ AllocMeets g args s expr := by
  cases expr with
  | get _ => exact iff_of_true (fun h => by cases h) trivial
  | other _ => exact iff_of_true (fun h => by cases h) trivial
  | as ty expr =>
    refine iff_of_true ?_ trivial
    rw [translateIncomingOne, Ne, Ending.bind_eq_panic]
    rintro (h | ⟨val, -, h⟩)
    · exact getArg_ne_panic h
    · rcases Ending.bind_eq_panic.mp h with h | ⟨v, -, h⟩
      · exact incomingAs_ne_panic h
      · cases h
  | allocUtf8Str name expr =>
    rw [translateIncomingOne, AllocMeets]
    cases harg : getArg args expr with
    | panic => exact absurd harg getArg_ne_panic
    | err e => exact iff_of_true (fun h => by cases h) fun _ h => by cases h
    | ok val =>
      rw [Ending.ok_bind]
      cases val with
      | string val =>
        have hcopy : incomingString g s name (.string val) ≠ .panic () ↔
            copy g s name (asBytes val) ≠ .panic () := by
          rw [incomingString]
          exact Ending.bind_ne_panic fun _ h => by cases h
        rw [hcopy]
        constructor
        · rintro h val' he hlen
          obtain rfl := Value.string.inj (Ending.ok.inj he)
          exact (copy_ne_panic hlen).mp h
        · intro h
          by_cases hlen : (asBytes val).length < 2 ^ 31
          · exact (copy_ne_panic hlen).mpr (h val rfl hlen)
          · rw [copy, if_neg hlen]
            exact fun h => by cases h
      | i32 _ => exact iff_of_true (fun h => by cases h) fun _ h => by cases h
      | u32 _ => exact iff_of_true (fun h => by cases h) fun _ h => by cases h
      | i64 _ => exact iff_of_true (fun h => by cases h) fun _ h => by cases h
      | u64 _ => exact iff_of_true (fun h => by cases h) fun _ h => by cases h
      | f32 _ => exact iff_of_true (fun h => by cases h) fun _ h => by cases h
      | f64 _ => exact iff_of_true (fun h => by cases h) fun _ h => by cases h

/-- What a round pushes: for a string the pointer and the length, which say where its bytes are. -/
theorem passes_cons {args : List Value} {expr : IncomingBindingExpression}
    {bindings : List IncomingBindingExpression} {pushed wasm : List RuntimeValue} {s' : State τ}
    (h : translateIncomingOne promote g args s expr = .ok (pushed, s')) (raw : List UInt8) :
    Passes args raw (expr :: bindings) (pushed ++ wasm) ↔
      (∀ ptr len, pushed = [.i32 ptr, .i32 len] →
        slice raw ptr.toNat len.toNat = slice s'.memory ptr.toNat len.toNat) ∧
      Passes args raw bindings wasm := by
  cases expr with
  | get _ => cases h
  | other _ => cases h
  | as ty expr =>
    obtain ⟨val, -, h⟩ := Ending.bind_eq_ok.mp h
    obtain ⟨v, -, h⟩ := Ending.bind_eq_ok.mp h
    obtain ⟨rfl, rfl⟩ := Prod.mk.inj (Ending.ok.inj h)
    rw [List.singleton_append, Passes]
    exact ⟨fun hp => ⟨fun ptr len he => by simp at he, hp⟩, And.right⟩
  | allocUtf8Str name expr =>
    obtain ⟨val, harg, h⟩ := Ending.bind_eq_ok.mp h
    cases val with
    | string val =>
      obtain ⟨⟨⟨ptr, len⟩, s₁⟩, hcopy, h⟩ := Ending.bind_eq_ok.mp h
      obtain ⟨rfl, rfl⟩ := Prod.mk.inj (Ending.ok.inj h)
      have hslice := slice_of_copy hcopy
      rw [List.cons_append, List.singleton_append, Passes]
      refine and_congr_left fun _ => ⟨?_, fun hkept => ⟨val, harg, (hkept ptr len rfl).trans hslice⟩⟩
      rintro ⟨val', harg', hval'⟩ ptr' len' he
      obtain rfl := Value.string.inj (Ending.ok.inj (harg.symm.trans harg'))
      obtain ⟨rfl, rfl⟩ : ptr = ptr' ∧ len = len' := by simpa using he
      exact hval'.trans hslice.symm
    | i32 _ => cases h
    | u32 _ => cases h
    | i64 _ => cases h
    | u64 _ => cases h
    | f32 _ => cases h
    | f64 _ => cases h

/-- A round leaves the ranges before it as they are, if the allocator does. -/
theorem sameAt_one {args : List Value} {expr : IncomingBindingExpression}
    {held : List (BitVec 32 × BitVec 32)} {pushed : List RuntimeValue} {s' : State τ}
    (hkeeps : AllocKeeps g args held s expr)
    (h : translateIncomingOne promote g args s expr = .ok (pushed, s')) :
    ∀ r ∈ held, SameAt s.memory s'.memory r := by
  cases expr with
  | get _ => cases h
  | other _ => cases h
  | as ty expr =>
    obtain ⟨val, -, h⟩ := Ending.bind_eq_ok.mp h
    obtain ⟨v, -, h⟩ := Ending.bind_eq_ok.mp h
    obtain ⟨-, rfl⟩ := Prod.mk.inj (Ending.ok.inj h)
    exact fun _ _ => rfl
  | allocUtf8Str name expr =>
    obtain ⟨val, harg, h⟩ := Ending.bind_eq_ok.mp h
    cases val with
    | string val =>
      obtain ⟨⟨⟨ptr, len⟩, s₂⟩, hcopy, h⟩ := Ending.bind_eq_ok.mp h
      obtain ⟨-, rfl⟩ := Prod.mk.inj (Ending.ok.inj h)
      obtain ⟨hlen, rfl, s₁, hinvoke, hin, hmemory⟩ := of_copy hcopy
      intro r hr
      obtain ⟨hsame, hapart⟩ := hkeeps val harg hlen ptr s₁ hinvoke r hr
      have hle := hin.2.2
      simp only [Apart] at hapart
      rw [toNat_length hlen] at hle hapart
      rw [SameAt, hmemory, slice_overwrite_apart hle hapart]
      exact hsame
    | i32 _ => cases h
    | u32 _ => cases h
    | i64 _ => cases h
    | u64 _ => cases h
    | f32 _ => cases h
    | f64 _ => cases h

/-- `translate_incoming` panics exactly when some allocator's answer is not met. -/
theorem translateIncoming_ne_panic {args : List Value} {bindings : List IncomingBindingExpression} :
    translateIncoming promote g args s bindings ≠ .panic () ↔ AllocsMeet promote g args s bindings := by
  induction bindings generalizing s with
  | nil => exact iff_of_true (fun h => by cases h) trivial
  | cons expr bindings ih =>
    rw [AllocsMeet, ← @translateIncomingOne_ne_panic _ promote, translateIncoming]
    cases hone : translateIncomingOne promote g args s expr with
    | panic => exact iff_of_false (fun h => h rfl) fun h => h.1 rfl
    | err e =>
      exact iff_of_true (fun h => by cases h) ⟨(fun h => by cases h), fun _ _ h => by cases h⟩
    | ok p =>
      obtain ⟨pushed, s'⟩ := p
      rw [Ending.ok_bind, and_iff_right (fun h => by cases h)]
      refine (Ending.bind_ne_panic fun _ h => by cases h).trans
        (ih.trans ⟨fun h pushed' s₂ he => ?_, fun h => h pushed s' rfl⟩)
      obtain ⟨-, rfl⟩ := Prod.mk.inj (Ending.ok.inj he)
      exact h

/-- Strings stay where they were copied to. -/
theorem translateIncoming_passes {args : List Value} {bindings : List IncomingBindingExpression}
    {held : List (BitVec 32 × BitVec 32)} {wasm : List RuntimeValue} {s' : State τ}
    (hkept : RangesKept promote g args held s bindings)
    (h : translateIncoming promote g args s bindings = .ok (wasm, s')) :
    (∀ r ∈ held, SameAt s.memory s'.memory r) ∧ Passes args s'.memory bindings wasm := by
  induction bindings generalizing held s wasm with
  | nil =>
    obtain ⟨rfl, rfl⟩ := Prod.mk.inj (Ending.ok.inj h)
    exact ⟨fun _ _ => rfl, rfl⟩
  | cons expr bindings ih =>
    obtain ⟨⟨pushed, s₁⟩, hone, h⟩ := Ending.bind_eq_ok.mp h
    obtain ⟨⟨wasm', s₂⟩, hrest, h⟩ := Ending.bind_eq_ok.mp h
    obtain ⟨rfl, rfl⟩ := Prod.mk.inj (Ending.ok.inj h)
    obtain ⟨hsame, hpasses⟩ := ih (hkept.2 pushed s₁ hone) hrest
    refine ⟨fun r hr => ?_, (passes_cons hone _).mpr ⟨?_, hpasses⟩⟩
    · exact (hsame r (List.mem_append_right _ hr)).trans (sameAt_one hkept.1 hone r hr)
    · rintro ptr len rfl
      exact hsame (ptr, len) List.mem_cons_self

/-! ## Outgoing strings -/

theorem getResult_ne_panic {results : List RuntimeValue} {idx : UInt32} :
    getResult results idx ≠ .panic () := by
  rw [getResult]
  cases results[idx.toNat]? <;> exact fun h => by cases h

theorem outgoingAs_ne_panic {expr : OutgoingBindingExpression} {ty : WebidlTypeRef}
    {arg : RuntimeValue} : outgoingAs promote expr ty arg ≠ .panic () := by
  cases ty with
  | id _ => exact fun h => by cases h
  | scalar ty => cases ty <;> cases arg <;> exact fun h => by cases h

theorem asBytes_of_fromUtf8 {bytes : List UInt8} {val : String} (h : fromUtf8 bytes = some val) :
    asBytes val = bytes := by
  rw [fromUtf8, String.fromUTF8?] at h
  split at h
  · obtain rfl := Option.some.inj h
    exact List.toList_toArray
  · cases h

theorem getI32_ne_panic {results : List RuntimeValue} {idx : UInt32} {e : Error} :
    getI32 results idx e ≠ .panic () := by
  rw [getI32, Ne, Ending.bind_eq_panic]
  rintro (h | ⟨v, -, h⟩)
  · exact getResult_ne_panic h
  · cases v <;> cases h

theorem getI32_eq_ok {results : List RuntimeValue} {idx : UInt32} {e : Error} {a : BitVec 32} :
    getI32 results idx e = .ok a ↔ getResult results idx = .ok (.i32 a) := by
  rw [getI32, Ending.bind_eq_ok]
  constructor
  · rintro ⟨v, hv, h⟩
    cases v with
    | i32 x =>
      obtain rfl := Ending.ok.inj h
      exact hv
    | _ => cases h
  · exact fun h => ⟨_, h, rfl⟩

/-- A string is read when it is in the memory and UTF-8. -/
theorem readString_ne_panic {off len : BitVec 32} :
    readString g s off len ≠ .panic () ↔ (g.exports "memory" = some .memory →
      InMemory s.memory off len ∧
        ∀ bytes, slice s.memory off.toNat len.toNat = some bytes → (fromUtf8 bytes).isSome) := by
  rw [readString]
  cases hraw : rawMemory g s with
  | panic => exact absurd hraw rawMemory_ne_panic
  | err e =>
    refine iff_of_true (fun h => by cases h) fun hmem => ?_
    rw [rawMemory_eq_ok.mpr ⟨hmem, rfl⟩] at hraw
    cases hraw
  | ok raw =>
    obtain ⟨hmem, rfl⟩ := rawMemory_eq_ok.mp hraw
    rw [Ending.ok_bind, slice_asUsize s.memory_le, imp_iff_right hmem]
    by_cases hin : InMemory s.memory off len
    · rw [if_pos hin, slice_eq_some hin.2.2, and_iff_right hin]
      simp only [Option.some.injEq, forall_eq']
      cases fromUtf8 _ with
      | none => exact iff_of_false (fun h => h rfl) fun h => by cases h
      | some val => exact iff_of_true (fun h => by cases h) rfl
    · rw [if_neg hin]
      exact iff_of_false (fun h => h rfl) fun h => hin h.1

theorem of_readString {off len : BitVec 32} {value : Value} (h : readString g s off len = .ok value) :
    ∃ val, value = .string val ∧ slice s.memory off.toNat len.toNat = some (asBytes val) := by
  obtain ⟨raw, hraw, h⟩ := Ending.bind_eq_ok.mp h
  obtain ⟨-, rfl⟩ := rawMemory_eq_ok.mp hraw
  rw [slice_asUsize s.memory_le] at h
  split at h
  · cases h
  · next bytes hslice =>
    split at h
    · next val hval =>
      obtain rfl := Ending.ok.inj h
      refine ⟨val, rfl, ?_⟩
      rw [asBytes_of_fromUtf8 hval, ← hslice]
      split at hslice
      · next hin => rw [if_pos hin]
      · cases hslice
    · cases h

/-- A round panics exactly when its string is not met. -/
theorem translateOutgoingOne_ne_panic {results : List RuntimeValue} {expr : OutgoingBindingExpression} :
    translateOutgoingOne promote g s results expr ≠ .panic () ↔ StringMeets g s results expr := by
  cases expr with
  | other _ => exact iff_of_true (fun h => by cases h) trivial
  | as ty idx =>
    refine iff_of_true ?_ trivial
    rw [translateOutgoingOne, Ne, Ending.bind_eq_panic]
    rintro (h | ⟨v, -, h⟩)
    · exact getResult_ne_panic h
    · exact outgoingAs_ne_panic h
  | utf8Str ty offset length =>
    rw [translateOutgoingOne, StringMeets]
    by_cases hty : ty = .scalar .domString
    · rw [if_neg (not_not_intro hty), imp_iff_right hty, Ne, Ending.bind_eq_panic, not_or,
        and_iff_right getI32_ne_panic]
      simp only [Ending.bind_eq_panic, not_exists, not_and, not_or, getI32_ne_panic, not_false_eq_true,
        true_and, getI32_eq_ok]
      constructor
      · exact fun h hmem off len hoff hlen => readString_ne_panic.mp (h off hoff len hlen) hmem
      · exact fun h off hoff len hlen => readString_ne_panic.mpr fun hmem => h hmem off len hoff hlen
    · rw [if_pos hty]
      exact iff_of_true (fun h => by cases h) fun h => absurd h hty

/-- What a round gives: a string is the bytes that the offset and the length say. -/
theorem gives_cons {results : List RuntimeValue} {expr : OutgoingBindingExpression}
    {bindings : List OutgoingBindingExpression} {value : Value} {values : List Value}
    (h : translateOutgoingOne promote g s results expr = .ok value) :
    Gives results s.memory (expr :: bindings) (value :: values) ↔
      Gives results s.memory bindings values := by
  cases expr with
  | other _ => cases h
  | as ty idx => rw [Gives]
  | utf8Str ty offset length =>
    rw [translateOutgoingOne] at h
    split at h
    · cases h
    · obtain ⟨off, hoff, h⟩ := Ending.bind_eq_ok.mp h
      obtain ⟨len, hlen, h⟩ := Ending.bind_eq_ok.mp h
      obtain ⟨val, rfl, hslice⟩ := of_readString h
      rw [Gives, and_iff_right ⟨off, len, getI32_eq_ok.mp hoff, getI32_eq_ok.mp hlen, hslice⟩]

/-- Outgoing strings are safe exactly when the guest gives what it is to give. -/
theorem outgoing_iff {results : List RuntimeValue} {bindings : List OutgoingBindingExpression} :
    OutgoingSafe promote g s results bindings ↔ OutgoingMeets promote g s results bindings := by
  induction bindings with
  | nil =>
    refine iff_of_true ⟨(fun h => by cases h), fun values h => ?_⟩ trivial
    exact (Ending.ok.inj h).symm
  | cons expr bindings ih =>
    rw [OutgoingMeets, ← @translateOutgoingOne_ne_panic _ promote, OutgoingSafe,
      translateOutgoing]
    cases hone : translateOutgoingOne promote g s results expr with
    | panic => exact iff_of_false (fun h => h.1 rfl) fun h => h.1 rfl
    | err e =>
      exact iff_of_true ⟨(fun h => by cases h), fun _ h => by cases h⟩
        ⟨(fun h => by cases h), fun h => h.elim fun _ h => by cases h⟩
    | ok value =>
      have hok {α : Type} (a : α) : (.ok a : Ends α) ≠ .panic () := fun h => by cases h
      rw [Ending.ok_bind, and_iff_right (hok value), imp_iff_right ⟨value, rfl⟩, ← ih, OutgoingSafe]
      cases hrest : translateOutgoing promote g s results bindings with
      | panic => exact iff_of_false (fun h => h.1 rfl) fun h => h.1 rfl
      | err e =>
        exact iff_of_true ⟨(fun h => by cases h), fun _ h => by cases h⟩
          ⟨(fun h => by cases h), fun _ h => by cases h⟩
      | ok values =>
        have hgives := @gives_cons _ _ _ _ _ _ bindings _ values hone
        rw [Ending.ok_bind]
        refine and_congr (iff_of_true (hok _) (hok _)) ⟨fun h values' he => ?_, fun h values' he => ?_⟩
        · obtain rfl := Ending.ok.inj he
          exact hgives.mp (h _ rfl)
        · obtain rfl := Ending.ok.inj he
          exact hgives.mpr (h _ rfl)

/-- A round whose outcome is known. -/
theorem meets_cons {args : List Value} {s t : State τ} {expr : IncomingBindingExpression}
    {bindings : List IncomingBindingExpression} {held : List (BitVec 32 × BitVec 32)}
    {pushed : List RuntimeValue} (h : translateIncomingOne promote g args s expr = .ok (pushed, t))
    (hone : AllocMeets g args s expr ∧ AllocKeeps g args held s expr)
    (hrest : AllocsMeet promote g args t bindings ∧
      RangesKept promote g args (rangesOf pushed ++ held) t bindings) :
    AllocsMeet promote g args s (expr :: bindings) ∧
      RangesKept promote g args held s (expr :: bindings) := by
  refine ⟨⟨hone.1, fun pushed' s₂ he => ?_⟩, hone.2, fun pushed' s₂ he => ?_⟩
  all_goals
    obtain ⟨rfl, rfl⟩ := Prod.mk.inj (Ending.ok.inj (h.symm.trans he))
  · exact hrest.1
  · exact hrest.2

/-- **Interface-type calls never crash the host.** They do not, and strings are where their numbers say, when
each allocator takes a length and returns a pointer below `2 ^ 31` to as many bytes of the memory, apart from
the strings before it and leaving them as they are, and each string that is returned is in the memory below
`2 ^ 31` and UTF-8. All of this but that strings are kept apart is needed. -/
theorem callsSafe_of_meets {args : List Value} {incoming : List IncomingBindingExpression} {s' : State τ}
    {results : List RuntimeValue} {outgoing : List OutgoingBindingExpression} :
    (AllocsMeet promote g args s incoming ∧ RangesKept promote g args [] s incoming ∧
        OutgoingMeets promote g s' results outgoing →
      IncomingSafe promote g args s incoming ∧ OutgoingSafe promote g s' results outgoing) ∧
    (IncomingSafe promote g args s incoming ∧ OutgoingSafe promote g s' results outgoing →
      AllocsMeet promote g args s incoming ∧ OutgoingMeets promote g s' results outgoing) := by
  rw [← translateIncoming_ne_panic, outgoing_iff]
  constructor
  · rintro ⟨hpanic, hkept, hout⟩
    exact ⟨⟨hpanic, fun wasm s'' h => (translateIncoming_passes hkept h).2⟩, hout⟩
  · exact fun h => ⟨h.1.1, h.2⟩

end

/-! ### A guest with an allocator -/

/-- The exports of a guest with an allocator. -/
def allocExports (name : String) : Option ExportKind :=
  if name = "memory" then some .memory else if name = "alloc" then
    some (.function ⟨[⟨.i64, .vmContext⟩, ⟨.i32, .normal⟩], [⟨.i32, .normal⟩]⟩) else none

/-- Its allocator returns the bytes after those that it has returned before. -/
def bump : Guest (BitVec 32) where
  exports := allocExports
  call s _ args :=
    match args with
    | [.i32 len] => (.returned [.i32 s.rest], { s with rest := s.rest + len })
    | _ => (.trapped "unreachable", s)

/-- Eight bytes of memory. -/
def eight : State (BitVec 32) := ⟨[0, 0, 0, 0, 0, 0, 0, 0], 0, Nat.le_of_ble_eq_true rfl⟩

/-- Two strings, and a number between them. -/
def twoStrings : List IncomingBindingExpression :=
  [.allocUtf8Str "alloc" (.get 0), .as .i64 (.get 1), .allocUtf8Str "alloc" (.get 2)]

/-- What the allocator returns, for each string. -/
theorem bump_meets {args : List Value} {s : State (BitVec 32)} {expr : IncomingBindingExpression} {val : String}
    {held : List (BitVec 32 × BitVec 32)} (harg : getArg args expr = .ok (.string val))
    (hin : InMemory s.memory s.rest (BitVec.ofNat 32 (asBytes val).length))
    (hapart : ∀ r ∈ held, Apart r (s.rest, BitVec.ofNat 32 (asBytes val).length)) :
    AllocMeets bump args s (.allocUtf8Str "alloc" expr) ∧
      AllocKeeps bump args held s (.allocUtf8Str "alloc" expr) := by
  constructor
  · intro val' harg' _
    obtain rfl := Value.string.inj (Ending.ok.inj (harg.symm.trans harg'))
    refine ⟨fun signature h => ?_, fun ptr s' h _ => ?_⟩
    · obtain rfl := ExportKind.function.inj (Option.some.inj h)
      rfl
    · obtain ⟨hptr, rfl⟩ := Prod.mk.inj (Ending.ok.inj h)
      obtain rfl : s.rest = ptr := by simpa using hptr
      exact hin
  · intro val' harg' _ _ ptr s' h r hr
    obtain rfl := Value.string.inj (Ending.ok.inj (harg.symm.trans harg'))
    obtain ⟨hptr, rfl⟩ := Prod.mk.inj (Ending.ok.inj h)
    obtain rfl : s.rest = ptr := by simpa using hptr
    exact ⟨rfl, hapart r hr⟩

/-- Its memory after the first string. -/
def eightAfter : State (BitVec 32) := ⟨[97, 98, 0, 0, 0, 0, 0, 0], 2, Nat.le_of_ble_eq_true rfl⟩

/-- And after the second. -/
def eightLast : State (BitVec 32) := ⟨[97, 98, 99, 0, 0, 0, 0, 0], 3, Nat.le_of_ble_eq_true rfl⟩

/-- The conversion of an `f32`, which no binding here needs. -/
def promoteZero (_ : BitVec 32) : BitVec 64 := 0

/-- The strings are `ab` and `c`. -/
def twoArgs : List Value := [.string "ab", .u32 7, .string "c"]

theorem bump_rounds : AllocsMeet promoteZero bump twoArgs eight twoStrings ∧
    RangesKept promoteZero bump twoArgs [] eight twoStrings :=
  have hapart : ∀ r ∈ [((0 : BitVec 32), (2 : BitVec 32))], Apart r (2, 1) := fun r hr => by
    obtain rfl := List.mem_singleton.mp hr
    exact .inl (Nat.le_refl 2)
  meets_cons (t := eightAfter) rfl (bump_meets rfl (by decide) (fun _ h => by cases h))
    (meets_cons (t := eightAfter) rfl ⟨trivial, trivial⟩
      (meets_cons (t := eightLast) rfl (bump_meets rfl (by decide) hapart) ⟨trivial, trivial⟩))

/-- Two strings go to the guest, the second after the first, and a string comes back. -/
theorem callsSafe_bump :
    translateIncoming promoteZero bump twoArgs eight twoStrings =
        .ok ([.i32 0, .i32 2, .i64 7, .i32 2, .i32 1], eightLast) ∧
      IncomingSafe promoteZero bump twoArgs eight twoStrings ∧
      OutgoingSafe promoteZero bump eightLast [.i32 1, .i32 2]
        [.utf8Str (.scalar .domString) 0 1, .as (.scalar .long) 0] := by
  refine ⟨rfl, callsSafe_of_meets.1 ⟨bump_rounds.1, bump_rounds.2, fun _ _ off len hoff hlen => ?_,
    fun _ => ⟨trivial, fun _ => trivial⟩⟩⟩
  obtain rfl : 1 = off := by simpa using Ending.ok.inj hoff
  obtain rfl : 2 = len := by simpa using Ending.ok.inj hlen
  refine ⟨by decide, fun bytes h => ?_⟩
  obtain rfl := Option.some.inj h
  decide

/-- A guest with an empty memory whose allocator returns -1. -/
def negative : Guest Unit where
  exports := allocExports
  call s _ _ := (.returned [.i32 (-1)], s)

/-- A negative pointer slices past the end. -/
theorem not_callsSafe_negative :
    ¬ (IncomingSafe (fun x => x.setWidth 64) negative [.string ""] ⟨[], (), Nat.zero_le _⟩
        [.allocUtf8Str "alloc" (.get 0)] ∧
      OutgoingSafe (fun x => x.setWidth 64) negative ⟨[], (), Nat.zero_le _⟩ [] []) :=
  fun h => h.1.1 rfl

end Wasmtime.InterfaceTypes
