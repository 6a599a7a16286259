import Mathlib
import Wasmtime.Lib.LittleEndian
import Wasmtime.Lib.Writes
import Wasmtime.Wasi.FdTable

/-!
# Guest memory and the values of `poll_oneoff`

Model of the part of `src/wasmtime-wasi-c/src/translate.rs` that `poll_oneoff` uses: `decode_ptr`,
`decode_slice_of`, `decode_pointee`, `decode_subscription_slice`, `encode_event` and
`encode_event_slice`.

* Memory is a function from addresses to bytes, counted from the base of the guest's memory. It also
  covers what lies behind the end of that memory, because the encoders write through raw pointers.
* A value of a union is read by the type of the subscription, as the match of `decode_subscription` does.
* The padding of an event is written as zeros.

Results: `readEvent_storeAt` (a written event is read back whole), and `readEvent_eventWrites`, which
says for each slot what it holds after `encode_event_slice`: the pointer arithmetic counts in
events, not in bytes, so that event `j` lands in slot `32 * j`.
-/

namespace Wasmtime.Wasi.Translate

open Posix Writes LittleEndian

/-! ## Values -/

/-- `__WASI_EVENTTYPE_CLOCK`. -/
def eventtypeClock : BitVec 8 := 0

/-- `__WASI_EVENTTYPE_FD_READ`. -/
def eventtypeFdRead : BitVec 8 := 1

/-- `__WASI_EVENTTYPE_FD_WRITE`. -/
def eventtypeFdWrite : BitVec 8 := 2

/-- The numbers of the errors. -/
def errnoCode : Posix.Errno → BitVec 16
  | .ebadf => 8
  | .einval => 28
  | .eloop => 32
  | .enomem => 48
  | .enosys => 52
  | .enotcapable => 76
  | .enotsup => 58
  | .enxio => 60
  | .host n => n.toBitVec

/-- `__WASI_EFAULT`. -/
def efault : Posix.Errno := .host 21

/-- The union of `__wasi_subscription_t`, with the type that selects its member. -/
inductive Condition where
  | clock (identifier : BitVec 64) (clockId : BitVec 32) (timeout precision : BitVec 64)
      (flags : BitVec 16)
  | fdRead (fd : BitVec 32)
  | fdWrite (fd : BitVec 32)
  | other (type : BitVec 8)
  deriving DecidableEq, Repr

/-- `__wasi_subscription_t`. -/
structure Subscription where
  userdata : BitVec 64
  condition : Condition
  deriving DecidableEq, Repr

/-- The field `type_`. -/
def Subscription.type (s : Subscription) : BitVec 8 :=
  match s.condition with
  | .clock .. => eventtypeClock
  | .fdRead _ => eventtypeFdRead
  | .fdWrite _ => eventtypeFdWrite
  | .other type => type

/-- `__wasi_event_t`. -/
structure Event where
  userdata : BitVec 64
  error : BitVec 16
  type : BitVec 8
  nbytes : BitVec 64
  flags : BitVec 16
  deriving DecidableEq, Repr

/-! ## Decoding -/

/-- The memory export of an instance: its bytes, and `current_length` if there is such an export. -/
structure Guest where
  memory : Nat → UInt8
  currentLength : Option Nat

/-- `decode_ptr`. On a 64-bit host the sum of a pointer and a length does not overflow. -/
def decodePtr (g : Guest) (ptr len align : Nat) : Except Posix.Errno Nat :=
  match g.currentLength with
  | none => .error .einval
  | some currentLength =>
    if 0 < len ∧ currentLength ≤ ptr + (len - 1) then .error efault
    else if ptr % align ≠ 0 then .error .einval
    else .ok ptr

/-- A pointer is decoded as it is where it is aligned and the access ends inside of the memory. -/
theorem decodePtr_eq_ok {g : Guest} {ptr len align r : Nat} : decodePtr g ptr len align = .ok r ↔
    ∃ n, g.currentLength = some n ∧ (len = 0 ∨ ptr + len ≤ n) ∧ ptr % align = 0 ∧ r = ptr := by
  rw [decodePtr]
  cases hn : g.currentLength with
  | none => simp
  | some n =>
    simp only [Option.some.injEq, exists_eq_left']
    by_cases hlen : 0 < len ∧ n ≤ ptr + (len - 1)
    · rw [if_pos hlen]
      exact iff_of_false (by simp) (by omega)
    · rw [if_neg hlen]
      by_cases halign : ptr % align = 0
      · rw [if_neg (not_not_intro halign), Except.ok.injEq]
        constructor
        · rintro rfl
          exact ⟨by omega, halign, rfl⟩
        · exact fun h => h.2.2.symm
      · rw [if_pos halign]
        exact iff_of_false (by simp) (fun h => halign h.2.1)

/-- `decode_slice_of` for elements of a size and an alignment. -/
def decodeSliceOf (g : Guest) (size align ptr len : Nat) : Except Posix.Errno Nat :=
  decodePtr g ptr (size * len) align

/-- A number in memory. -/
def readNat (m : Nat → UInt8) (a n : Nat) : Nat := ofLeBytes (loadAt m a n)

/-- A `__wasi_subscription_t` in memory. -/
def readSubscription (m : Nat → UInt8) (a : Nat) : Subscription where
  userdata := BitVec.ofNat 64 (readNat m a 8)
  condition :=
    if readNat m (a + 8) 1 = 0 then
      .clock (BitVec.ofNat 64 (readNat m (a + 16) 8)) (BitVec.ofNat 32 (readNat m (a + 24) 4))
        (BitVec.ofNat 64 (readNat m (a + 32) 8)) (BitVec.ofNat 64 (readNat m (a + 40) 8))
        (BitVec.ofNat 16 (readNat m (a + 48) 2))
    else if readNat m (a + 8) 1 = 1 then .fdRead (BitVec.ofNat 32 (readNat m (a + 16) 4))
    else if readNat m (a + 8) 1 = 2 then .fdWrite (BitVec.ofNat 32 (readNat m (a + 16) 4))
    else .other (BitVec.ofNat 8 (readNat m (a + 8) 1))

/-- `decode_subscription`. -/
def decodeSubscription (s : Subscription) : Except Posix.Errno Subscription :=
  match s.condition with
  | .other _ => .error .einval
  | _ => .ok s

/-- `sizeof(__wasi_subscription_t)`. -/
def subscriptionSize : Nat := 56

/-- `decode_subscription_slice`. -/
def decodeSubscriptionSlice (g : Guest) (ptr len : Nat) : Except Posix.Errno (List Subscription) := do
  let ptr ← decodeSliceOf g subscriptionSize 8 ptr len
  ((List.range len).map fun i => readSubscription g.memory (ptr + subscriptionSize * i)).mapM
    decodeSubscription

/-! ## Encoding -/

/-- `sizeof(__wasi_event_t)`. -/
def eventSize : Nat := 32

/-- The bytes of an event. -/
def eventBytes (e : Event) : List UInt8 :=
  leBytes 8 e.userdata.toNat ++ leBytes 2 e.error.toNat ++ leBytes 1 e.type.toNat ++ leBytes 5 0 ++
    leBytes 8 e.nbytes.toNat ++ leBytes 2 e.flags.toNat ++ leBytes 6 0

/-- `encode_event`; `none` is its panic. Only a descriptor's event has something in its union. -/
def encodeEvent (e : Event) : Option Event :=
  if e.type = eventtypeClock then some { e with nbytes := 0, flags := 0 }
  else if e.type = eventtypeFdRead ∨ e.type = eventtypeFdWrite then some e
  else none

/-- `encode_event_slice` from event `i` on. `ptr.add` on a pointer to events counts in events, so the
product with the size of an event makes the step `eventSize * eventSize` bytes. -/
def encodeEventSlice (ptr : Nat) : Nat → List Event → (Nat → UInt8) → Option (Nat → UInt8)
  | _, [], m => some m
  | i, e :: es, m =>
    match encodeEvent e with
    | none => none
    | some guest =>
      encodeEventSlice ptr (i + 1) es
        (storeAt m (ptr + eventSize * (i * eventSize), eventBytes guest))

/-- A `__wasi_event_t` in memory. -/
def readEvent (m : Nat → UInt8) (a : Nat) : Event where
  userdata := BitVec.ofNat 64 (readNat m a 8)
  error := BitVec.ofNat 16 (readNat m (a + 8) 2)
  type := BitVec.ofNat 8 (readNat m (a + 10) 1)
  nbytes := BitVec.ofNat 64 (readNat m (a + 16) 8)
  flags := BitVec.ofNat 16 (readNat m (a + 24) 2)

/-! ## What is read back -/

section

variable {m m' : Nat → UInt8} {a : Nat}

theorem length_eventBytes (e : Event) : (eventBytes e).length = eventSize := by
  simp only [eventBytes, List.length_append, length_leBytes, eventSize]

/-- A field of an event that has been written. -/
theorem readNat_of_part {b : List UInt8} {k n x : Nat} (hb : loadAt m a eventSize = b)
    (h : k + n ≤ eventSize) (hpart : (b.drop k).take n = leBytes n x) :
    readNat m (a + k) n = x % 256 ^ n := by
  rw [readNat, loadAt_part h, hb, hpart, ofLeBytes_leBytes]

theorem ofNat_field {w n : Nat} (x : BitVec w) (h : 2 ^ w = 256 ^ n) :
    BitVec.ofNat w (x.toNat % 256 ^ n) = x := by
  rw [← h, Nat.mod_eq_of_lt x.isLt, BitVec.ofNat_toNat, BitVec.setWidth_eq]

/-- The bytes of an event are read as the event. -/
theorem readEvent_of_loadAt {e : Event} (h : loadAt m a eventSize = eventBytes e) :
    readEvent m a = e := by
  have huserdata : readNat m a 8 = e.userdata.toNat % 256 ^ 8 :=
    readNat_of_part (k := 0) h (by decide) rfl
  have herror : readNat m (a + 8) 2 = e.error.toNat % 256 ^ 2 := readNat_of_part h (by decide) rfl
  have htype : readNat m (a + 10) 1 = e.type.toNat % 256 ^ 1 := readNat_of_part h (by decide) rfl
  have hnbytes : readNat m (a + 16) 8 = e.nbytes.toNat % 256 ^ 8 :=
    readNat_of_part h (by decide) rfl
  have hflags : readNat m (a + 24) 2 = e.flags.toNat % 256 ^ 2 := readNat_of_part h (by decide) rfl
  rw [readEvent, huserdata, herror, htype, hnbytes, hflags, ofNat_field e.userdata (by decide),
    ofNat_field e.error (by decide), ofNat_field e.type (by decide), ofNat_field e.nbytes (by decide),
    ofNat_field e.flags (by decide)]

/-- A written event is read back whole. -/
theorem readEvent_storeAt (m : Nat → UInt8) (a : Nat) (e : Event) :
    readEvent (storeAt m (a, eventBytes e)) a = e := by
  refine readEvent_of_loadAt ?_
  have h := loadAt_storeAt m (a, eventBytes e)
  rwa [length_eventBytes] at h

/-- What is read of an event only depends on its bytes. -/
theorem readEvent_congr (h : loadAt m a eventSize = loadAt m' a eventSize) :
    readEvent m a = readEvent m' a := by
  have hpart : ∀ {k n : Nat}, k + n ≤ eventSize → readNat m (a + k) n = readNat m' (a + k) n := by
    intro k n hk
    rw [readNat, readNat, loadAt_part hk, loadAt_part hk, h]
  rw [readEvent, readEvent, show readNat m a 8 = readNat m' a 8 from hpart (k := 0) (by decide),
    hpart (by decide), hpart (by decide), hpart (by decide), hpart (by decide)]

end

/-! ## Slots -/

/-- The writes of `encode_event_slice` from event `i` on. -/
def eventWrites (ptr i : Nat) (es : List Event) : List (Nat × List UInt8) :=
  (es.zipIdx i).map fun p => (ptr + eventSize * (p.2 * eventSize), eventBytes p.1)

section

variable {m : Nat → UInt8} {ptr : Nat} {es : List Event}

/-- `encode_event_slice` for events that are encoded as they are. -/
theorem encodeEventSlice_eq (i : Nat) (h : ∀ e ∈ es, encodeEvent e = some e) :
    encodeEventSlice ptr i es m = some (storeAll m (eventWrites ptr i es)) := by
  induction es generalizing i m with
  | nil => rfl
  | cons e es ih =>
    rw [encodeEventSlice, h e List.mem_cons_self]
    exact ih (i + 1) fun e' he' => h e' (List.mem_cons_of_mem _ he')

theorem mem_eventWrites {i : Nat} {w : Nat × List UInt8} (h : w ∈ eventWrites ptr i es) :
    ∃ j e, i ≤ j ∧ w = (ptr + eventSize * (j * eventSize), eventBytes e) := by
  obtain ⟨p, hp, rfl⟩ := List.mem_map.mp h
  exact ⟨p.2, p.1, List.le_snd_of_mem_zipIdx hp, rfl⟩

/-- Two writes do not meet. -/
theorem eventWrites_apart (i : Nat) (es : List Event) :
    (eventWrites ptr i es).Pairwise fun w w' => (extent w).Apart (extent w') := by
  induction es generalizing i with
  | nil => exact List.Pairwise.nil
  | cons e es ih =>
    rw [eventWrites, List.zipIdx_cons, List.map_cons]
    refine List.pairwise_cons.mpr ⟨fun w hw => ?_, ih (i + 1)⟩
    obtain ⟨j, e', hj, rfl⟩ := mem_eventWrites hw
    rintro k ⟨-, hk⟩ ⟨hk', -⟩
    simp only [extent, Extent.stop, length_eventBytes, eventSize] at hk hk'
    omega

/-- **What a slot holds** after `encode_event_slice`: a slot whose number is a multiple of the size of
an event holds the event of the quotient, and any other slot what it has held before. -/
theorem readEvent_eventWrites {i : Nat} (hi : i < es.length) :
    some (readEvent (storeAll m (eventWrites ptr 0 es)) (ptr + eventSize * i)) =
      if eventSize ∣ i then es[i / eventSize]? else some (readEvent m (ptr + eventSize * i)) := by
  split
  · next hdvd =>
    obtain ⟨j, rfl⟩ := hdvd
    have hj : j < es.length := lt_of_le_of_lt (Nat.le_mul_of_pos_left j (by decide)) hi
    rw [Nat.mul_div_cancel_left j (by decide), List.getElem?_eq_getElem hj]
    have hmem : (ptr + eventSize * (j * eventSize), eventBytes es[j]) ∈ eventWrites ptr 0 es :=
      List.mem_map.mpr ⟨(es[j], j), by simp [List.mem_zipIdx_iff_getElem?, hj], rfl⟩
    have hload := loadAt_storeAll (m := m) (eventWrites_apart 0 es) hmem
    simp only [length_eventBytes] at hload
    rw [Nat.mul_comm eventSize j, readEvent_of_loadAt hload]
  · next hdvd =>
    refine congrArg some (readEvent_congr (loadAt_congr fun a ha => storeAll_frame fun w hw => ?_))
    obtain ⟨j, e, -, rfl⟩ := mem_eventWrites hw
    -- the slot and the write are both aligned, so that meeting would make them the same slot
    rintro ⟨hle, hlt⟩
    obtain ⟨hle', hlt'⟩ := ha
    simp only [extent, Extent.stop, length_eventBytes, eventSize] at hle hlt hle' hlt'
    exact hdvd ⟨j, by simp only [eventSize]; omega⟩

end

end Wasmtime.Wasi.Translate
