import Mathlib.Data.Nat.Bitwise
import Mathlib.Tactic.Common

/-!
# Little-endian bytes

Fixed-width little-endian encodings of natural numbers and what a narrower load sees of them.

* `leBytes n x`: the `n` low bytes of `x`.
* `ofLeBytes`: the number a list of bytes stands for.

Results: `ofLeBytes_leBytes` (the value modulo the width), `take_leBytes` (a narrower load reads
the narrower encoding), `leBytes_inj` (below the width nothing is lost).
-/

namespace LittleEndian

/-- The `n` low bytes of `x`, lowest first. -/
def leBytes : Nat → Nat → List UInt8
  | 0, _ => []
  | n + 1, x => UInt8.ofNat x :: leBytes n (x / 256)

/-- The number little-endian bytes stand for. -/
def ofLeBytes : List UInt8 → Nat
  | [] => 0
  | b :: bs => b.toNat + 256 * ofLeBytes bs

@[simp] theorem length_leBytes (n x : Nat) : (leBytes n x).length = n := by
  induction n generalizing x with
  | zero => rfl
  | succ n ih => simp [leBytes, ih]

/-- Decoding an encoding gives the value modulo its width. -/
theorem ofLeBytes_leBytes (n x : Nat) : ofLeBytes (leBytes n x) = x % 256 ^ n := by
  induction n generalizing x with
  | zero => simp [leBytes, ofLeBytes, Nat.mod_one]
  | succ n ih =>
    have hbyte : (UInt8.ofNat x).toNat = x % 256 := UInt8.toNat_ofNat'
    rw [leBytes, ofLeBytes, ih, hbyte, Nat.pow_succ', Nat.mod_mul]

/-- The low bytes of a wide encoding are the narrow encoding. -/
theorem take_leBytes {k n : Nat} (h : k ≤ n) (x : Nat) : (leBytes n x).take k = leBytes k x := by
  induction k generalizing n x with
  | zero => simp [leBytes]
  | succ k ih =>
    obtain ⟨n, rfl⟩ : ∃ n', n = n' + 1 := ⟨n - 1, by omega⟩
    rw [leBytes, leBytes, List.take_succ_cons, ih (by omega)]

/-- A wide encoding is its low bytes and then its high bytes. -/
theorem leBytes_add (m n x : Nat) :
    leBytes (m + n) x = leBytes m x ++ leBytes n (x / 256 ^ m) := by
  induction m generalizing x with
  | zero => simp [leBytes]
  | succ m ih =>
    have hdiv : x / 256 ^ (m + 1) = x / 256 / 256 ^ m := by
      rw [Nat.pow_succ', Nat.div_div_eq_div_mul]
    rw [Nat.succ_add, leBytes, leBytes, ih, hdiv, List.cons_append]

theorem leBytes_zero (n : Nat) : leBytes n 0 = List.replicate n 0 := by
  induction n with
  | zero => rfl
  | succ n ih =>
    rw [leBytes, Nat.zero_div, ih, List.replicate_succ]
    rfl

theorem leBytes_inj {n x y : Nat} (hx : x < 256 ^ n) (hy : y < 256 ^ n)
    (h : leBytes n x = leBytes n y) : x = y := by
  have hv := congrArg ofLeBytes h
  rwa [ofLeBytes_leBytes, ofLeBytes_leBytes, Nat.mod_eq_of_lt hx, Nat.mod_eq_of_lt hy] at hv

end LittleEndian
