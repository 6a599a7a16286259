import Mathlib
import Wasmtime.Wasi.Translate

/-!
# Arguments and environment

The way of the program's arguments and of its environment into the guest: `allocate_argv_environ`
(`wasmtime-wasi-c/src/instantiate.rs`), `argv_environ_init`, `wasmtime_ssp_args_get` and the three functions like
it (`wasmtime-wasi-c/sandboxed-system-primitives/src/posix.c`), `args_get`, `args_sizes_get`, `environ_get`,
`environ_sizes_get` (`wasmtime-wasi-c/src/syscalls.rs`), and `decode_char_slice`, `decode_charstar_slice`,
`encode_charstar_slice`, `decode_usize_byref`, `encode_usize_byref` (`wasmtime-wasi-c/src/translate.rs`).

* A pointer of `argv_environ_values` is its offset in the buffer; `malloc` succeeds.
* The host's addresses of the guest's memory count from the base of the memory.
* The result `none` is a panic; `overflowChecks` says whether the sum `argc + 1` of 32 bits is checked.

Result: the headline `strings_exchange`, for a guest that asks for the sizes and then for the strings.
-/

namespace Wasmtime.Wasi.Args

open Translate Writes LittleEndian

/-! ## The host's side -/

/-- Half of `argv_environ_values`: the offsets of the strings, and the strings. -/
structure Strings where
  offsets : List Nat
  buf : List UInt8
  deriving DecidableEq

/-- One round of a loop of `allocate_argv_environ`. -/
def Strings.push (t : Strings) (bytes : List UInt8) : Strings :=
  ⟨t.offsets ++ [t.buf.length], t.buf ++ (bytes ++ [0])⟩

def Strings.ofList (strings : List (List UInt8)) : Strings := strings.foldl Strings.push ⟨[], []⟩

/-- `argv_environ_values`. -/
structure ArgvEnviron where
  argv : Strings
  environ : Strings

/-- `String::bytes`. -/
def bytes (s : String) : List UInt8 := s.toByteArray.data.toList

/-- A variable of the environment with its value. -/
def binding (kv : String × String) : List UInt8 := bytes kv.1 ++ 0x3d :: bytes kv.2

/-- `allocate_argv_environ`. -/
def allocateArgvEnviron (argv : List String) (environ : List (String × String)) : ArgvEnviron :=
  ⟨.ofList (argv.map bytes), .ofList (environ.map binding)⟩

/-- `wasmtime_ssp_args_get`, `wasmtime_ssp_environ_get`: the pointers, and the memory with the strings. -/
def sspStringsGet (t : Strings) (m : Nat → UInt8) (buf : Nat) : List (Option Nat) × (Nat → UInt8) :=
  (t.offsets.map (fun offset => some (buf + offset)) ++ [none], storeAt m (buf, t.buf))

/-! ## The guest's side -/

/-- The guest's pointer for a host's, of 32 bits. -/
def guestPointer (guestBase hostBase : Nat) : Option Nat → Nat
  | none => 0
  | some host => (guestBase + (host - hostBase) % 2 ^ 32) % 2 ^ 32

/-- `encode_charstar_slice` from pointer `i` on. -/
def encodeCharstarSlice (ptr guestBase hostBase : Nat) : Nat → List (Option Nat) → (Nat → UInt8) → Nat → UInt8
  | _, [], m => m
  | i, host :: hostVec, m =>
    encodeCharstarSlice ptr guestBase hostBase (i + 1) hostVec
      (storeAt m (ptr + 4 * i, leBytes 4 (guestPointer guestBase hostBase host)))

/-- `decode_char_slice`. -/
def decodeCharSlice (g : Guest) (ptr len : Nat) : Except Posix.Errno Nat := decodeSliceOf g 1 1 ptr len

/-- `decode_charstar_slice`. -/
def decodeCharstarSlice (g : Guest) (ptr count : Nat) : Except Posix.Errno Nat := decodeSliceOf g 4 4 ptr count

/-- `decode_usize_byref`. -/
def decodeUsizeByref (g : Guest) (ptr : Nat) : Except Posix.Errno Nat := decodePtr g ptr 4 4

/-- What `args_get` and `environ_get` do with their half of the values. -/
def stringsGet (overflowChecks : Bool) (g : Guest) (t : Strings) (ptrs buf : Nat) :
    Option (Except Posix.Errno (Nat → UInt8)) :=
  if 2 ^ 32 ≤ t.offsets.length ∨ 2 ^ 32 ≤ t.buf.length then some (.error .enomem)
  else
    match decodeCharSlice g buf t.buf.length with
    | .error e => some (.error e)
    | .ok hostBuf =>
      -- one more for the pointer at the end
      if overflowChecks ∧ 2 ^ 32 ≤ t.offsets.length + 1 then none
      else
        match decodeCharstarSlice g ptrs ((t.offsets.length + 1) % 2 ^ 32) with
        | .error e => some (.error e)
        | .ok hostPtrs =>
          some (.ok (encodeCharstarSlice hostPtrs buf hostBuf 0 (sspStringsGet t g.memory hostBuf).1
            (sspStringsGet t g.memory hostBuf).2))

/-- What `args_sizes_get` and `environ_sizes_get` do with their half of the values. -/
def sizesGet (g : Guest) (t : Strings) (count size : Nat) : Option (Except Posix.Errno (Nat → UInt8)) :=
  match decodeUsizeByref g count with
  | .error e => some (.error e)
  | .ok count =>
    match decodeUsizeByref g size with
    | .error e => some (.error e)
    | .ok size =>
      if 2 ^ 32 ≤ t.offsets.length ∨ 2 ^ 32 ≤ t.buf.length then none
      else some (.ok (storeAt (storeAt g.memory (count, leBytes 4 t.offsets.length))
        (size, leBytes 4 t.buf.length)))

section

variable (overflowChecks : Bool) (g : Guest) (v : ArgvEnviron)

/-- `args_get`. -/
def argsGet (argv argvBuf : Nat) : Option (Except Posix.Errno (Nat → UInt8)) :=
  stringsGet overflowChecks g v.argv argv argvBuf

/-- `args_sizes_get`. -/
def argsSizesGet (argc argvBufSize : Nat) : Option (Except Posix.Errno (Nat → UInt8)) :=
  sizesGet g v.argv argc argvBufSize

/-- `environ_get`. -/
def environGet (environ environBuf : Nat) : Option (Except Posix.Errno (Nat → UInt8)) :=
  stringsGet overflowChecks g v.environ environ environBuf

/-- `environ_sizes_get`. -/
def environSizesGet (environCount environBufSize : Nat) : Option (Except Posix.Errno (Nat → UInt8)) :=
  sizesGet g v.environ environCount environBufSize

end

/-! ## The exchange -/

/-- The guest finds the strings where the pointers say, each with its zero, and a null pointer at the end;
the memory outside of the two areas is as it was. -/
structure ReadsBack (strings : List (List UInt8)) (ptrs buf size : Nat) (before after : Nat → UInt8) : Prop where
  string : ∀ i s, strings[i]? = some s →
    loadAt after (readNat after (ptrs + 4 * i) 4) (s.length + 1) = s ++ [0]
  inside : ∀ i s, strings[i]? = some s →
    (Extent.mk (readNat after (ptrs + 4 * i) 4) (s.length + 1)).Within ⟨buf, size⟩
  null : readNat after (ptrs + 4 * strings.length) 4 = 0
  frame : ∀ a, ¬ (Extent.mk ptrs (4 * (strings.length + 1))).Covers a → ¬ (Extent.mk buf size).Covers a →
    after a = before a

/-- A guest that asks for the sizes, and then for the strings in areas of these sizes, reads the strings. -/
def Exchange (sizes get : Guest → Nat → Nat → Option (Except Posix.Errno (Nat → UInt8)))
    (strings : List (List UInt8)) : Prop :=
  ∀ g len count size ptrs buf asked, g.currentLength = some len → len ≤ 2 ^ 32 → count ≠ size →
    sizes g count size = some (.ok asked) → ptrs % 4 = 0 →
    ptrs + 4 * (readNat asked count 4 + 1) ≤ len → buf + readNat asked size 4 ≤ len →
    (Extent.mk ptrs (4 * (readNat asked count 4 + 1))).Apart ⟨buf, readNat asked size 4⟩ →
    ∃ got, get ⟨asked, some len⟩ ptrs buf = some (.ok got) ∧ readNat asked count 4 = strings.length ∧
      ReadsBack strings ptrs buf (readNat asked size 4) asked got

/-! ## Laying out the strings -/

section

variable {m : Nat → UInt8} {strings : List (List UInt8)}

/-- The strings lie one after the other, each with its zero. -/
theorem ofList_eq (strings : List (List UInt8)) : Strings.ofList strings =
    ⟨starts 0 (strings.map (· ++ [0])), (strings.map (· ++ [0])).flatten⟩ := by
  induction strings using List.reverseRecOn with
  | nil => rfl
  | append_singleton strings s ih =>
    rw [Strings.ofList, List.foldl_append] at *
    rw [ih, List.map_append, starts_append, List.flatten_append]
    simp [Strings.push, starts]

/-- The pointers are written as one block. -/
theorem encodeCharstarSlice_eq (ptr guestBase hostBase i : Nat) (hostVec : List (Option Nat)) :
    encodeCharstarSlice ptr guestBase hostBase i hostVec m =
      storeAt m (ptr + 4 * i, (hostVec.map fun h => leBytes 4 (guestPointer guestBase hostBase h)).flatten) := by
  induction hostVec generalizing i m with
  | nil =>
    funext a
    simp [encodeCharstarSlice, storeAt]
  | cons host hostVec ih =>
    have hnext := storeAt_append m (ptr + 4 * i) (leBytes 4 (guestPointer guestBase hostBase host))
      (hostVec.map fun h => leBytes 4 (guestPointer guestBase hostBase h)).flatten
    rw [length_leBytes, Nat.add_assoc, ← Nat.mul_succ] at hnext
    rw [encodeCharstarSlice, ih, hnext, List.map_cons, List.flatten_cons]

theorem length_words (words : List Nat) : (words.map (leBytes 4)).flatten.length = 4 * words.length := by
  simp [List.length_flatten, Function.comp_def, Nat.mul_comm]

/-- A word of a block of words. -/
theorem readNat_words {a i x : Nat} {words : List Nat}
    (h : loadAt m a (4 * words.length) = (words.map (leBytes 4)).flatten) (hx : words[i]? = some x) :
    readNat m (a + 4 * i) 4 = x % 2 ^ 32 := by
  have hstart : (starts a (words.map (leBytes 4)))[i]? = some (a + 4 * i) := by
    clear h
    induction words generalizing a i with
    | nil => simp at hx
    | cons y words ih =>
      rw [List.map_cons, starts, length_leBytes]
      cases i with
      | zero => rfl
      | succ i =>
        rw [List.getElem?_cons_succ, ih (by simpa using hx)]
        exact congrArg some (by omega)
  obtain ⟨s, hs, hload, -⟩ := exists_start (p := leBytes 4 x) (by rw [length_words, h]) (by rw [List.getElem?_map, hx]; rfl)
  obtain rfl := Option.some.inj (hs.symm.trans hstart)
  rw [length_leBytes] at hload
  have hpow : 256 ^ 4 = 2 ^ 32 := by decide
  rw [readNat, hload, ofLeBytes_leBytes, hpow]

end

/-! ## What the guest reads -/

section

variable {g : Guest} {t : Strings} {strings : List (List UInt8)} {len ptrs buf : Nat}

/-- What `args_get` writes when both areas are inside of the memory. -/
theorem stringsGet_eq {overflowChecks : Bool} (hlen : g.currentLength = some len) (h32 : len ≤ 2 ^ 32)
    (halign : ptrs % 4 = 0) (hptrs : ptrs + 4 * (t.offsets.length + 1) ≤ len) (hbuf : buf + t.buf.length ≤ len)
    (hsize : t.buf.length < 2 ^ 32) (hoffsets : ∀ offset ∈ t.offsets, offset < t.buf.length) :
    stringsGet overflowChecks g t ptrs buf = some (.ok (storeAt (storeAt g.memory (buf, t.buf))
      (ptrs, ((t.offsets.map (buf + ·) ++ [0]).map (leBytes 4)).flatten))) := by
  have hcount : t.offsets.length + 1 < 2 ^ 32 := by omega
  have hpointers : ((sspStringsGet t g.memory buf).1.map fun h => leBytes 4 (guestPointer buf buf h)) =
      (t.offsets.map (buf + ·) ++ [0]).map (leBytes 4) := by
    rw [sspStringsGet, List.map_append, List.map_append, List.map_map, List.map_map]
    refine congrArg₂ _ (List.map_congr_left fun offset hoffset => congrArg (leBytes 4) ?_) rfl
    have hlt := hoffsets offset hoffset
    rw [guestPointer, Nat.add_sub_cancel_left, Nat.mod_eq_of_lt (by omega : offset < 2 ^ 32),
      Nat.mod_eq_of_lt (by omega)]
  rw [stringsGet, if_neg (by omega), decodeCharSlice, decodeSliceOf,
    (decodePtr_eq_ok).mpr ⟨len, hlen, .inr (by omega), Nat.mod_one _, rfl⟩]
  simp only
  rw [if_neg (by omega), decodeCharstarSlice, decodeSliceOf, Nat.mod_eq_of_lt hcount,
    (decodePtr_eq_ok).mpr ⟨len, hlen, .inr hptrs, halign, rfl⟩]
  simp only
  rw [encodeCharstarSlice_eq, hpointers]
  rfl

/-- The offsets of strings in their buffer. -/
theorem offsets_lt (strings : List (List UInt8)) :
    ∀ offset ∈ (Strings.ofList strings).offsets, offset < (Strings.ofList strings).buf.length := by
  intro offset hoffset
  rw [ofList_eq] at hoffset ⊢
  obtain ⟨i, hi, rfl⟩ := List.mem_iff_getElem.mp hoffset
  rw [length_starts] at hi
  obtain ⟨s, hs, -, -, hle⟩ := exists_start
    (loadAt_storeAt (fun _ => 0) (0, (strings.map (· ++ [0])).flatten)) (List.getElem?_eq_getElem hi)
  obtain ⟨hlt, heq⟩ := List.getElem?_eq_some_iff.mp hs
  simp only [List.getElem_map, List.length_append, List.length_singleton] at hle
  simp only [heq]
  omega

/-- What the guest finds after `args_get`. -/
theorem readsBack (m : Nat → UInt8) (h32 : buf + (Strings.ofList strings).buf.length ≤ 2 ^ 32)
    (hapart : (Extent.mk ptrs (4 * (strings.length + 1))).Apart ⟨buf, (Strings.ofList strings).buf.length⟩) :
    ReadsBack strings ptrs buf (Strings.ofList strings).buf.length m
      (storeAt (storeAt m (buf, (Strings.ofList strings).buf))
        (ptrs, (((Strings.ofList strings).offsets.map (buf + ·) ++ [0]).map (leBytes 4)).flatten)) := by
  rw [ofList_eq] at h32 hapart ⊢
  simp only at h32 hapart ⊢
  have hcount : ((starts 0 (strings.map (· ++ [0]))).map (buf + ·) ++ [0]).length = strings.length + 1 := by
    simp
  have hbytes : ((((starts 0 (strings.map (· ++ [0]))).map (buf + ·) ++ [0]).map (leBytes 4)).flatten).length =
      4 * (strings.length + 1) := by
    rw [length_words, hcount]
  generalize hwords : (starts 0 (strings.map (· ++ [0]))).map (buf + ·) ++ [0] = words at hcount hbytes ⊢
  generalize hafter : storeAt (storeAt m (buf, (strings.map (· ++ [0])).flatten))
    (ptrs, (words.map (leBytes 4)).flatten) = after
  -- The pointers, which were written last.
  have hload : loadAt after ptrs (4 * words.length) = (words.map (leBytes 4)).flatten := by
    have hstore := loadAt_storeAt (storeAt m (buf, (strings.map (· ++ [0])).flatten))
      (ptrs, (words.map (leBytes 4)).flatten)
    rw [hafter, hbytes, ← hcount] at hstore
    exact hstore
  -- The strings, which the pointers have not covered.
  have hstrings : loadAt after buf (strings.map (· ++ [0])).flatten.length = (strings.map (· ++ [0])).flatten := by
    refine Eq.trans (loadAt_congr fun a ha => ?_) (loadAt_storeAt m (buf, (strings.map (· ++ [0])).flatten))
    rw [← hafter]
    refine storeAt_frame fun hcovers => hapart a ?_ ha
    rwa [extent, hbytes] at hcovers
  have hpointer : ∀ i s, strings[i]? = some s → ∃ start, readNat after (ptrs + 4 * i) 4 = start ∧
      loadAt after start (s.length + 1) = s ++ [0] ∧ buf ≤ start ∧
        start + (s.length + 1) ≤ buf + (strings.map (· ++ [0])).flatten.length := by
    intro i s hs
    obtain ⟨start, hstart, hpiece, hle, hstop⟩ := exists_start hstrings
      (show (strings.map (· ++ [0]))[i]? = some (s ++ [0]) by rw [List.getElem?_map, hs]; rfl)
    rw [List.length_append, List.length_singleton] at hpiece hstop
    refine ⟨start, ?_, hpiece, hle, hstop⟩
    have hword : words[i]? = some start := by
      have hi : i < strings.length := (List.getElem?_eq_some_iff.mp hs).1
      rw [← hwords, List.getElem?_append_left (by simpa using hi), ← starts_add]
      exact hstart
    rw [readNat_words hload hword, Nat.mod_eq_of_lt (by omega)]
  refine ⟨fun i s hs => ?_, fun i s hs => ?_, ?_, fun a hptrs hbuf => ?_⟩
  · obtain ⟨start, hstart, hpiece, -, -⟩ := hpointer i s hs
    rw [hstart, hpiece]
  · obtain ⟨start, hstart, -, hle, hstop⟩ := hpointer i s hs
    rw [hstart]
    exact ⟨hle, hstop⟩
  · have hword : words[strings.length]? = some 0 := by
      rw [← hwords, List.getElem?_append_right (by simp)]
      simp
    rw [readNat_words hload hword, Nat.zero_mod]
  · rw [← hafter, storeAt_frame, storeAt_frame]
    · exact hbuf
    · rwa [extent, hbytes]

/-- What `args_sizes_get` writes. -/
theorem sizesGet_ok {count size : Nat} {asked : Nat → UInt8} (h : sizesGet g t count size = some (.ok asked)) :
    count % 4 = 0 ∧ size % 4 = 0 ∧ t.offsets.length < 2 ^ 32 ∧ t.buf.length < 2 ^ 32 ∧
      asked = storeAt (storeAt g.memory (count, leBytes 4 t.offsets.length)) (size, leBytes 4 t.buf.length) := by
  unfold sizesGet at h
  split at h
  · cases h
  · next c hc =>
    split at h
    · cases h
    · next s hs =>
      obtain ⟨-, -, -, hcount, rfl⟩ := (decodePtr_eq_ok).mp hc
      obtain ⟨-, -, -, hsize, rfl⟩ := (decodePtr_eq_ok).mp hs
      split at h
      · cases h
      · next hfits => exact ⟨hcount, hsize, by omega, by omega, (Except.ok.inj (Option.some.inj h)).symm⟩

/-- The guest reads the sizes that were written for it. -/
theorem readNat_sizes {m : Nat → UInt8} {count size a b : Nat} (hcount : count % 4 = 0) (hsize : size % 4 = 0)
    (hne : count ≠ size) (ha : a < 2 ^ 32) (hb : b < 2 ^ 32) :
    readNat (storeAt (storeAt m (count, leBytes 4 a)) (size, leBytes 4 b)) count 4 = a ∧
      readNat (storeAt (storeAt m (count, leBytes 4 a)) (size, leBytes 4 b)) size 4 = b := by
  have hpow : 256 ^ 4 = 2 ^ 32 := by decide
  have hfirst : loadAt (storeAt m (count, leBytes 4 a)) count 4 = leBytes 4 a := by
    simpa using loadAt_storeAt m (count, leBytes 4 a)
  have hsecond : loadAt (storeAt (storeAt m (count, leBytes 4 a)) (size, leBytes 4 b)) size 4 = leBytes 4 b := by
    simpa using loadAt_storeAt (storeAt m (count, leBytes 4 a)) (size, leBytes 4 b)
  have hkept : loadAt (storeAt (storeAt m (count, leBytes 4 a)) (size, leBytes 4 b)) count 4 = leBytes 4 a := by
    refine Eq.trans (loadAt_congr fun i hi => storeAt_frame fun hi' => ?_) hfirst
    obtain ⟨hle, hlt⟩ := hi
    obtain ⟨hle', hlt'⟩ := hi'
    simp only [extent, Extent.stop, length_leBytes] at hle hlt hle' hlt'
    omega
  rw [readNat, readNat, hkept, hsecond, ofLeBytes_leBytes, ofLeBytes_leBytes, hpow, Nat.mod_eq_of_lt ha,
    Nat.mod_eq_of_lt hb]
  exact ⟨rfl, rfl⟩

end

theorem exchange (overflowChecks : Bool) (strings : List (List UInt8)) :
    Exchange (fun g => sizesGet g (.ofList strings)) (fun g => stringsGet overflowChecks g (.ofList strings))
      strings := by
  intro g len count size ptrs buf asked hlen h32 hne hsizes halign hptrs hbuf hapart
  obtain ⟨hcount, hsize, hoffsets, hlt, rfl⟩ := sizesGet_ok hsizes
  obtain ⟨hreadCount, hreadSize⟩ := readNat_sizes (m := g.memory) hcount hsize hne hoffsets hlt
  have hlength : (Strings.ofList strings).offsets.length = strings.length := by
    rw [ofList_eq]
    simp
  rw [hreadCount] at hptrs hapart ⊢
  rw [hreadSize] at hbuf hapart ⊢
  rw [hlength] at hapart
  exact ⟨_, stringsGet_eq rfl h32 halign hptrs hbuf hlt (offsets_lt strings), hlength,
    readsBack _ (by omega) hapart⟩

/-! ## Headline -/

/-- **Headline.** A guest that asks for the sizes of its arguments or of its environment, and gives areas of these
sizes, reads back the arguments, or each variable with its value. -/
theorem strings_exchange (overflowChecks : Bool) (argv : List String) (environ : List (String × String)) :
    Exchange (fun g => argsSizesGet g (allocateArgvEnviron argv environ))
        (fun g => argsGet overflowChecks g (allocateArgvEnviron argv environ)) (argv.map bytes) ∧
      Exchange (fun g => environSizesGet g (allocateArgvEnviron argv environ))
        (fun g => environGet overflowChecks g (allocateArgvEnviron argv environ)) (environ.map binding) :=
  ⟨exchange overflowChecks _, exchange overflowChecks _⟩

/-- Sixty-four bytes of memory. -/
def small : Guest := ⟨fun _ => 7, some 64⟩

/-- Two arguments and a variable. -/
def twoAndOne := allocateArgvEnviron ["a", "bc"] [("K", "v")]

/-- The sizes are asked for at 40 and 44, and the strings are put at 16, with their pointers at 0. -/
theorem strings_exchange_two :
    (∃ asked got, argsSizesGet small twoAndOne 40 44 = some (.ok asked) ∧
      argsGet true ⟨asked, some 64⟩ twoAndOne 0 16 = some (.ok got) ∧
        ReadsBack [[97], [98, 99]] 0 16 5 asked got) ∧
    ∃ asked got, environSizesGet small twoAndOne 40 44 = some (.ok asked) ∧
      environGet true ⟨asked, some 64⟩ twoAndOne 0 16 = some (.ok got) ∧
        ReadsBack [[75, 61, 118]] 0 16 4 asked got := by
  obtain ⟨hargs, henviron⟩ := strings_exchange true ["a", "bc"] [("K", "v")]
  constructor
  · obtain ⟨got, hgot, -, hreads⟩ := hargs small 64 40 44 0 16 _ rfl (by decide) (by decide) rfl rfl
      (by decide) (by decide) (Extent.apart_of_stop_le (by decide))
    exact ⟨_, got, rfl, hgot, hreads⟩
  · obtain ⟨got, hgot, -, hreads⟩ := henviron small 64 40 44 0 16 _ rfl (by decide) (by decide) rfl rfl
      (by decide) (by decide) (Extent.apart_of_stop_le (by decide))
    exact ⟨_, got, rfl, hgot, hreads⟩

/-- Two arguments at 16, with their pointers at 0. -/
example : ((argsGet true ⟨fun _ => 7, some 64⟩ (allocateArgvEnviron ["a", "bc"] []) 0 16).bind Except.toOption).map
    (fun m => (loadAt m 0 12, loadAt m 16 6)) =
      some ([16, 0, 0, 0, 18, 0, 0, 0, 0, 0, 0, 0], [97, 0, 98, 99, 0, 7]) := by decide

end Wasmtime.Wasi.Args
