import Mathlib

/-!
# Numbers with units in the cache configuration

Model of `deserialize_duration`, `deserialize_si_prefix`, `deserialize_disk_space` and
`deserialize_percent` (`wasmtime-environ/src/cache/config.rs`).

* A `&str` is the list of its characters. `isWhitespace` is the `White_Space` of Unicode; of
  `char::is_numeric` no more is used than `CharClasses` says.
* `overflowChecks` is whether an arithmetic overflow panics, as in a debug build, or wraps.
* A duration is a number of seconds.

`Setting` says what a text means: a number and a unit, with whitespace around them.

Only `deserialize_duration` multiplies without a check, so a duration too long for an `u64` wraps round to a
short one, or panics.

Results: `split_setting` and `setting_of_parse` (the splitter reads exactly the texts with a meaning), `accepts`
(what means a value that fits is accepted), and the headline `settings_iff`.
-/

namespace Wasmtime.Cache.Settings

/-! ## Characters -/

/-- `char::is_whitespace`. -/
def isWhitespace (c : Char) : Bool :=
  (9 ≤ c.toNat && c.toNat ≤ 13) || c.toNat == 0x20 || c.toNat == 0x85 || c.toNat == 0xa0 ||
    c.toNat == 0x1680 || (0x2000 ≤ c.toNat && c.toNat ≤ 0x200a) || c.toNat == 0x2028 ||
    c.toNat == 0x2029 || c.toNat == 0x202f || c.toNat == 0x205f || c.toNat == 0x3000

/-- `char::is_numeric`: no more of it matters. -/
structure CharClasses where
  isNumeric : Char → Bool
  digit : ∀ c : Char, c.isDigit = true → isNumeric c = true
  ascii : ∀ c : Char, c.toNat < 128 → c.isDigit = false → isNumeric c = false
  whitespace : ∀ c : Char, isWhitespace c = true → isNumeric c = false

/-- `str::trim`. -/
def trim (text : List Char) : List Char := (text.dropWhile isWhitespace).rdropWhile isWhitespace

/-- The number that digits write. -/
def decimal (digits : List Char) : Nat := digits.foldl (fun n c => n * 10 + (c.toNat - 48)) 0

/-- `str::parse`, to a number of so many bits. -/
def parse (bits : Nat) (num : List Char) : Option Nat :=
  let digits := if num.head? = some '+' then num.tail else num
  if digits ≠ [] ∧ digits.all Char.isDigit ∧ decimal digits < 2 ^ bits then some (decimal digits) else none

/-! ## The deserializers -/

/-- No value is returned: the setting is invalid, or the code panics. -/
inductive Failure where
  | invalid
  | panic
  deriving DecidableEq, Repr

/-- `generate_deserializer!`. -/
def generateDeserializer (classes : CharClasses) (bits : Nat)
    (body : Nat → List Char → Except Failure Nat) (text : Option (List Char)) :
    Except Failure (Option Nat) :=
  match text with
  | none => .ok none
  | some text =>
    let text := trim text
    let num := text.takeWhile classes.isNumeric
    let unit := text.dropWhile classes.isNumeric
    match parse bits num with
    | none => .error .invalid
    | some num => (body num (trim unit)).map some

/-- `num * factor` on `u64`. -/
def mul (overflowChecks : Bool) (num factor : Nat) : Except Failure Nat :=
  if num * factor < 2 ^ 64 then .ok (num * factor)
  else if overflowChecks then .error .panic
  else .ok (num * factor % 2 ^ 64)

/-- `num.checked_mul(factor)`; none is an invalid setting. -/
def checkedMul (num factor : Nat) : Except Failure Nat :=
  if num * factor < 2 ^ 64 then .ok (num * factor) else .error .invalid

section

variable (overflowChecks : Bool) (classes : CharClasses)

/-- The `match` of `deserialize_duration`. -/
def durationBody (num : Nat) : List Char → Except Failure Nat
  | ['s'] => .ok num
  | ['m'] => mul overflowChecks num 60
  | ['h'] => (mul overflowChecks num 60).bind fun num => mul overflowChecks num 60
  | ['d'] => ((mul overflowChecks num 60).bind fun num => mul overflowChecks num 60).bind fun num =>
      mul overflowChecks num 24
  | _ => .error .invalid

/-- `deserialize_duration`. -/
def deserializeDuration : Option (List Char) → Except Failure (Option Nat) :=
  generateDeserializer classes 64 (durationBody overflowChecks)

/-- The `match` of `deserialize_si_prefix`. -/
def siPrefixBody (num : Nat) : List Char → Except Failure Nat
  | [] => .ok num
  | ['K'] => checkedMul num 1000
  | ['M'] => checkedMul num 1000000
  | ['G'] => checkedMul num 1000000000
  | ['T'] => checkedMul num 1000000000000
  | ['P'] => checkedMul num 1000000000000000
  | _ => .error .invalid

/-- `deserialize_si_prefix`. -/
def deserializeSiPrefix : Option (List Char) → Except Failure (Option Nat) :=
  generateDeserializer classes 64 siPrefixBody

/-- The `match` of `deserialize_disk_space`. -/
def diskSpaceBody (num : Nat) : List Char → Except Failure Nat
  | [] => .ok num
  | ['K'] => checkedMul num 1000
  | ['K', 'i'] => checkedMul num (1 <<< 10)
  | ['M'] => checkedMul num 1000000
  | ['M', 'i'] => checkedMul num (1 <<< 20)
  | ['G'] => checkedMul num 1000000000
  | ['G', 'i'] => checkedMul num (1 <<< 30)
  | ['T'] => checkedMul num 1000000000000
  | ['T', 'i'] => checkedMul num (1 <<< 40)
  | ['P'] => checkedMul num 1000000000000000
  | ['P', 'i'] => checkedMul num (1 <<< 50)
  | _ => .error .invalid

/-- `deserialize_disk_space`. -/
def deserializeDiskSpace : Option (List Char) → Except Failure (Option Nat) :=
  generateDeserializer classes 64 diskSpaceBody

/-- The `match` of `deserialize_percent`. -/
def percentBody (num : Nat) : List Char → Except Failure Nat
  | ['%'] => .ok num
  | _ => .error .invalid

/-- `deserialize_percent`. -/
def deserializePercent : Option (List Char) → Except Failure (Option Nat) :=
  generateDeserializer classes 8 percentBody

end

/-! ## What a setting means -/

/-- A text of whitespace. -/
def Spaces (text : List Char) : Prop := ∀ c ∈ text, isWhitespace c = true

/-- A text is a number and a unit. -/
def Setting (text : List Char) (n : Nat) (unit : List Char) : Prop :=
  ∃ before digits between after : List Char,
    text = before ++ (digits ++ (between ++ (unit ++ after))) ∧ Spaces before ∧ Spaces between ∧
      Spaces after ∧ digits ≠ [] ∧ (∀ c ∈ digits, c.isDigit = true) ∧ decimal digits = n

/-- The seconds of a unit of time. -/
def durationUnit : List Char → Option Nat
  | ['s'] => some 1
  | ['m'] => some 60
  | ['h'] => some (60 * 60)
  | ['d'] => some (24 * (60 * 60))
  | _ => none

/-- The multiplier of a decimal prefix. -/
def siUnit : List Char → Option Nat
  | [] => some 1
  | ['K'] => some (10 ^ 3)
  | ['M'] => some (10 ^ 6)
  | ['G'] => some (10 ^ 9)
  | ['T'] => some (10 ^ 12)
  | ['P'] => some (10 ^ 15)
  | _ => none

/-- The multiplier of a decimal or a binary prefix. -/
def diskUnit : List Char → Option Nat
  | ['K', 'i'] => some (2 ^ 10)
  | ['M', 'i'] => some (2 ^ 20)
  | ['G', 'i'] => some (2 ^ 30)
  | ['T', 'i'] => some (2 ^ 40)
  | ['P', 'i'] => some (2 ^ 50)
  | unit => siUnit unit

/-- The multiplier of a percent sign. -/
def percentUnit : List Char → Option Nat
  | ['%'] => some 1
  | _ => none

/-- A setting is rejected, or its value is the number times the multiplier of the unit; it is rejected when
the product does not fit in 64 bits. -/
structure Means (units : List Char → Option Nat) (text : List Char) (result : Except Failure (Option Nat)) :
    Prop where
  exact : result = .error .invalid ∨ ∃ n unit multiplier, Setting text n unit ∧
    units unit = some multiplier ∧ result = .ok (some (n * multiplier))
  fits : ∀ n unit multiplier, Setting text n unit → units unit = some multiplier →
    2 ^ 64 ≤ n * multiplier → result = .error .invalid

/-- A duration whose number fits in 64 bits, but whose seconds do not. -/
def TooLong (text : List Char) : Prop :=
  ∃ n unit multiplier, Setting text n unit ∧ durationUnit unit = some multiplier ∧ n < 2 ^ 64 ∧
    2 ^ 64 ≤ n * multiplier

/-! ## The splitter -/

section

variable {text before between after l : List Char}

theorem dropWhile_spaces (h : Spaces before) :
    (before ++ l).dropWhile isWhitespace = l.dropWhile isWhitespace :=
  List.dropWhile_append_of_pos h

theorem rdropWhile_spaces (h : Spaces after) :
    (l ++ after).rdropWhile isWhitespace = l.rdropWhile isWhitespace := by
  have hrev : ∀ c ∈ after.reverse, isWhitespace c = true := fun c hc => h c (List.mem_reverse.mp hc)
  rw [List.rdropWhile, List.reverse_append, List.dropWhile_append_of_pos hrev, List.rdropWhile]

theorem Spaces.append (h : Spaces before) (h' : Spaces after) : Spaces (before ++ after) := by
  intro c hc
  rcases List.mem_append.mp hc with hc | hc
  · exact h c hc
  · exact h' c hc

/-- Nothing is taken off the end of a text that ends with something else. -/
theorem rdropWhile_of_last (h : ∀ c ∈ l, isWhitespace c = false) (hne : l ≠ []) (l' : List Char) :
    (l' ++ l).rdropWhile isWhitespace = l' ++ l := by
  refine List.rdropWhile_eq_self_iff.mpr fun hl => ?_
  have hlast := h (l.getLast hne) (List.getLast_mem hne)
  rw [List.getLast_append_of_ne_nil hl hne, hlast]
  simp

/-- Nothing is taken off the start of a text that starts with something else. -/
theorem dropWhile_of_first (h : ∀ c ∈ l, isWhitespace c = false) (hne : l ≠ []) (l' : List Char) :
    (l ++ l').dropWhile isWhitespace = l ++ l' := by
  cases l with
  | nil => exact absurd rfl hne
  | cons c l => exact List.dropWhile_cons_of_neg (by simp [h c List.mem_cons_self])

/-- A text is what is left of it between its whitespace. -/
theorem exists_trim (text : List Char) :
    ∃ before after, text = before ++ (trim text ++ after) ∧ Spaces before ∧ Spaces after := by
  refine ⟨text.takeWhile isWhitespace, (text.dropWhile isWhitespace).rtakeWhile isWhitespace, ?_, ?_, ?_⟩
  · rw [trim, List.rdropWhile_append_rtakeWhile, List.takeWhile_append_dropWhile]
  · exact fun c hc => List.mem_takeWhile_imp hc
  · exact fun c hc => List.mem_rtakeWhile_imp hc

end

/-- The number and the unit that `generate_deserializer!` splits a text into. -/
def splitSetting (classes : CharClasses) (text : List Char) : List Char × List Char :=
  ((trim text).takeWhile classes.isNumeric, trim ((trim text).dropWhile classes.isNumeric))

/-- A unit of characters of ASCII that are neither digits nor whitespace. -/
def PlainUnit (unit : List Char) : Prop :=
  ∀ c ∈ unit, c.toNat < 128 ∧ c.isDigit = false ∧ isWhitespace c = false

section

variable {classes : CharClasses} {text unit : List Char} {n bits : Nat}

theorem not_isWhitespace_of_isDigit {c : Char} (h : c.isDigit = true) : isWhitespace c = false := by
  simp only [Char.isDigit, Bool.and_eq_true, decide_eq_true_eq, ge_iff_le, UInt32.le_iff_toNat_le] at h
  have hlow : 48 ≤ c.toNat := h.1
  have hhigh : c.toNat ≤ 57 := h.2
  simp only [isWhitespace, Bool.or_eq_false_iff, Bool.and_eq_false_iff, decide_eq_false_iff_not,
    beq_eq_false_iff_ne]
  omega

/-- What is read as a number stands in the text. -/
theorem setting_of_parse (h : parse bits (splitSetting classes text).1 = some n) :
    Setting text n (splitSetting classes text).2 ∧ n < 2 ^ bits := by
  have hplus : ((splitSetting classes text).1).head? ≠ some '+' := by
    intro hhead
    have hmem : '+' ∈ (splitSetting classes text).1 := List.mem_of_mem_head? hhead
    have hnumeric := List.mem_takeWhile_imp hmem
    rw [classes.ascii '+' (by decide) (by decide)] at hnumeric
    cases hnumeric
  simp only [parse, if_neg hplus] at h
  obtain ⟨⟨hne, hdigits, hlt⟩, hn⟩ := Option.ite_none_right_eq_some.mp h
  obtain rfl := Option.some.inj hn
  refine ⟨?_, hlt⟩
  obtain ⟨before, after, htext, hbefore, hafter⟩ := exists_trim text
  obtain ⟨between, rest, hrest, hbetween, hrest'⟩ := exists_trim ((trim text).dropWhile classes.isNumeric)
  have htrim := List.takeWhile_append_dropWhile (p := classes.isNumeric) (l := trim text)
  rw [hrest] at htrim
  refine ⟨before, (splitSetting classes text).1, between, rest ++ after, ?_, hbefore, hbetween,
    hrest'.append hafter, hne, List.all_eq_true.mp hdigits, rfl⟩
  calc text = before ++ (trim text ++ after) := htext
    _ = before ++ ((splitSetting classes text).1 ++
        (between ++ ((splitSetting classes text).2 ++ (rest ++ after)))) := by
      conv_lhs => rw [← htrim]
      simp only [splitSetting, List.append_assoc]

/-- **A text with a meaning is split into its digits and its unit.** -/
theorem split_setting (classes : CharClasses) (bits : Nat) (h : Setting text n unit)
    (hunit : PlainUnit unit) :
    (splitSetting classes text).2 = unit ∧
      parse bits (splitSetting classes text).1 = if n < 2 ^ bits then some n else none := by
  obtain ⟨before, digits, between, after, rfl, hbefore, hbetween, hafter, hne, hdigits, rfl⟩ := h
  have hwhite : ∀ c ∈ digits, isWhitespace c = false := fun c hc =>
    not_isWhitespace_of_isDigit (hdigits c hc)
  have hunitWhite : ∀ c ∈ unit, isWhitespace c = false := fun c hc => (hunit c hc).2.2
  -- what is left of the text, and how it starts after the digits
  obtain ⟨tail, htrim, hhead, htail⟩ : ∃ tail,
      trim (before ++ (digits ++ (between ++ (unit ++ after)))) = digits ++ tail ∧
        (∀ c ∈ tail.head?, classes.isNumeric c = false) ∧ trim tail = unit := by
    rw [trim, dropWhile_spaces hbefore, dropWhile_of_first hwhite hne]
    rcases eq_or_ne unit [] with rfl | hunitNe
    · refine ⟨[], ?_, by simp, rfl⟩
      rw [List.nil_append, rdropWhile_spaces (hbetween.append hafter)]
      simpa using rdropWhile_of_last hwhite hne []
    · refine ⟨between ++ unit, ?_, ?_, ?_⟩
      · rw [← List.append_assoc between, ← List.append_assoc digits, rdropWhile_spaces hafter,
          ← List.append_assoc digits, rdropWhile_of_last hunitWhite hunitNe]
      · intro c hc
        cases between with
        | nil =>
          have hmem : c ∈ unit := List.mem_of_mem_head? hc
          exact classes.ascii c (hunit c hmem).1 (hunit c hmem).2.1
        | cons b between =>
          obtain rfl : b = c := by simpa using hc
          exact classes.whitespace b (hbetween b List.mem_cons_self)
      · rw [trim, dropWhile_spaces hbetween, ← List.append_nil unit, dropWhile_of_first hunitWhite hunitNe,
          List.append_nil]
        exact rdropWhile_of_last hunitWhite hunitNe []
  have htake : (digits ++ tail).takeWhile classes.isNumeric = digits := by
    rw [List.takeWhile_append_of_pos fun c hc => classes.digit c (hdigits c hc)]
    cases tail with
    | nil => simp
    | cons c tail =>
      rw [List.takeWhile_cons_of_neg (by simp [hhead c rfl]), List.append_nil]
  have hdrop : (digits ++ tail).dropWhile classes.isNumeric = tail := by
    rw [List.dropWhile_append_of_pos fun c hc => classes.digit c (hdigits c hc)]
    cases tail with
    | nil => rfl
    | cons c tail => exact List.dropWhile_cons_of_neg (by simp [hhead c rfl])
  rw [splitSetting, htrim, htake, hdrop]
  refine ⟨htail, ?_⟩
  have hplus : digits.head? ≠ some '+' := by
    intro hhead
    have hdigit := hdigits '+' (List.mem_of_mem_head? hhead)
    exact absurd hdigit (by decide)
  simp only [parse, if_neg hplus, List.all_eq_true.mpr hdigits, hne, ne_eq, not_false_eq_true, true_and]

end

/-! ## The values -/

theorem mul_of_fits {overflowChecks : Bool} {num factor : Nat} (h : num * factor < 2 ^ 64) :
    mul overflowChecks num factor = .ok (num * factor) := if_pos h

/-- What a body does with a unit of a table: the product, or a failure when it does not fit. -/
structure Multiplies (units : List Char → Option Nat) (body : Except Failure Nat) (n : Nat)
    (unit : List Char) : Prop where
  unknown : units unit = none → body = .error .invalid
  fits : ∀ m, units unit = some m → n * m < 2 ^ 64 → body = .ok (n * m)
  overflows : ∀ m, units unit = some m → 2 ^ 64 ≤ n * m → body = .error .invalid

section

variable {units : List Char → Option Nat} {classes : CharClasses} {bits : Nat}
  {body : Nat → List Char → Except Failure Nat} {text : List Char}

theorem generateDeserializer_eq (classes : CharClasses) (bits : Nat)
    (body : Nat → List Char → Except Failure Nat) (text : List Char) :
    generateDeserializer classes bits body (some text) =
      (parse bits (splitSetting classes text).1).elim (.error .invalid) fun num =>
        (body num (splitSetting classes text).2).map some := by
  rw [generateDeserializer]
  simp only [splitSetting]
  cases parse bits ((trim text).takeWhile classes.isNumeric) <;> rfl

/-- A deserializer whose body multiplies the settings that it reads returns what they mean. -/
theorem means_of (hplain : ∀ unit m, units unit = some m → PlainUnit unit)
    (hbody : ∀ n unit, Setting text n unit → n < 2 ^ bits → Multiplies units (body n unit) n unit) :
    Means units text (generateDeserializer classes bits body (some text)) := by
  rw [generateDeserializer_eq]
  constructor
  · cases hparse : parse bits (splitSetting classes text).1 with
    | none => exact .inl rfl
    | some n =>
      obtain ⟨hsetting, hlt⟩ := setting_of_parse hparse
      have hmul := hbody n _ hsetting hlt
      cases hunit : units (splitSetting classes text).2 with
      | none =>
        refine .inl ?_
        rw [Option.elim_some, hmul.unknown hunit]
        rfl
      | some m =>
        by_cases hfits : n * m < 2 ^ 64
        · refine .inr ⟨n, _, m, hsetting, hunit, ?_⟩
          rw [Option.elim_some, hmul.fits m hunit hfits]
          rfl
        · refine .inl ?_
          rw [Option.elim_some, hmul.overflows m hunit (Nat.not_lt.mp hfits)]
          rfl
  · intro n unit m hsetting hunit hover
    obtain ⟨hsplit, hparse⟩ := split_setting classes bits hsetting (hplain unit m hunit)
    rw [hparse, hsplit]
    by_cases hlt : n < 2 ^ bits
    · rw [if_pos hlt, Option.elim_some, (hbody n unit hsetting hlt).overflows m hunit hover]
      rfl
    · rw [if_neg hlt]
      rfl

/-- A setting that fits is accepted. -/
theorem accepts {n m : Nat} {unit : List Char} (hsetting : Setting text n unit) (hplain : PlainUnit unit)
    (hunit : units unit = some m) (hmul : Multiplies units (body n unit) n unit) (hlt : n < 2 ^ bits)
    (hfits : n * m < 2 ^ 64) :
    generateDeserializer classes bits body (some text) = .ok (some (n * m)) := by
  obtain ⟨hsplit, hparse⟩ := split_setting classes bits hsetting hplain
  rw [generateDeserializer_eq, hparse, if_pos hlt, Option.elim_some, hsplit, hmul.fits m hunit hfits]
  rfl

end

section

variable {n m : Nat} {unit : List Char}

theorem checkedMul_one (h : n < 2 ^ 64) : checkedMul n 1 = .ok n := by
  rw [checkedMul, Nat.mul_one, if_pos h]

theorem siPrefixBody_eq (h : n < 2 ^ 64) (unit : List Char) :
    siPrefixBody n unit = (siUnit unit).elim (.error .invalid) (checkedMul n) := by
  unfold siPrefixBody siUnit
  split
  case h_1 => rw [Option.elim_some, checkedMul_one h]
  case h_7 => rw [Option.elim_none]
  all_goals
    rw [Option.elim_some]
    norm_num

theorem diskUnit_of_siUnit {c : Char} (h : siUnit [c] = some m) : diskUnit [c] = some m := by
  rw [diskUnit, h]
  all_goals simp

theorem diskSpaceBody_eq (h : n < 2 ^ 64) (unit : List Char) :
    diskSpaceBody n unit = (diskUnit unit).elim (.error .invalid) (checkedMul n) := by
  unfold diskSpaceBody
  split
  case h_1 =>
    have hunit : diskUnit [] = some 1 := by simp [diskUnit, siUnit]
    rw [hunit, Option.elim_some, checkedMul_one h]
  case h_2 => rw [diskUnit_of_siUnit siUnit.eq_2, Option.elim_some]; norm_num
  case h_4 => rw [diskUnit_of_siUnit siUnit.eq_3, Option.elim_some]; norm_num
  case h_6 => rw [diskUnit_of_siUnit siUnit.eq_4, Option.elim_some]; norm_num
  case h_8 => rw [diskUnit_of_siUnit siUnit.eq_5, Option.elim_some]; norm_num
  case h_10 => rw [diskUnit_of_siUnit siUnit.eq_6, Option.elim_some]; norm_num
  case h_12 =>
    unfold diskUnit
    split
    case h_6 =>
      unfold siUnit
      split
      case h_7 => rw [Option.elim_none]
      all_goals contradiction
    all_goals contradiction
  all_goals rw [diskUnit, Option.elim_some, Nat.one_shiftLeft]

/-- A product that is checked is a product, or invalid. -/
theorem multiplies_checkedMul {units : List Char → Option Nat} {body : Except Failure Nat}
    (h : body = (units unit).elim (.error .invalid) (checkedMul n)) : Multiplies units body n unit := by
  subst h
  refine ⟨fun hunit => by rw [hunit]; rfl, fun m hunit hfits => ?_, fun m hunit hover => ?_⟩
  · rw [hunit, Option.elim_some, checkedMul, if_pos hfits]
  · rw [hunit, Option.elim_some, checkedMul, if_neg (Nat.not_lt.mpr hover)]

theorem multiplies_percent (h : n < 2 ^ 8) : Multiplies percentUnit (percentBody n unit) n unit := by
  unfold percentUnit percentBody
  constructor
  · intro hunit
    split at hunit
    · cases hunit
    · rfl
  · intro m hunit hfits
    split at hunit
    · cases hunit
      rw [Nat.mul_one]
    · cases hunit
  · intro m hunit hover
    split at hunit
    · cases hunit
      omega
    · cases hunit

/-! ## Durations -/

theorem durationBody_of_none (overflowChecks : Bool) (h : durationUnit unit = none) :
    durationBody overflowChecks n unit = .error .invalid := by
  unfold durationUnit at h
  unfold durationBody
  split at h
  case h_5 => rfl
  all_goals cases h

theorem durationBody_of_fits (overflowChecks : Bool) (h : durationUnit unit = some m)
    (hfits : n * m < 2 ^ 64) : durationBody overflowChecks n unit = .ok (n * m) := by
  unfold durationUnit at h
  split at h
  case h_1 => cases h; rw [Nat.mul_one]; rfl
  case h_2 => cases h; exact mul_of_fits hfits
  case h_3 =>
    cases h
    rw [durationBody, mul_of_fits (by omega), Except.bind, mul_of_fits (by omega), Nat.mul_assoc]
  case h_4 =>
    cases h
    rw [durationBody, mul_of_fits (by omega), Except.bind, mul_of_fits (by omega), Except.bind,
      mul_of_fits (by omega)]
    exact congrArg Except.ok (by omega)
  case h_5 => cases h

/-- A product that does not fit panics, or is taken modulo 2^64. -/
theorem durationBody_of_overflows (overflowChecks : Bool) (h : durationUnit unit = some m)
    (hlt : n < 2 ^ 64) (hover : 2 ^ 64 ≤ n * m) : durationBody overflowChecks n unit ≠ .error .invalid := by
  have hmul (a b : Nat) : mul overflowChecks a b ≠ .error .invalid := by
    rw [mul]
    split
    · intro h; cases h
    · split <;> intro h <;> cases h
  have hbind {r : Except Failure Nat} (hr : r ≠ .error .invalid) (b : Nat) :
      (r.bind fun a => mul overflowChecks a b) ≠ .error .invalid := by
    cases r with
    | error e => exact hr
    | ok a => exact hmul a b
  unfold durationUnit at h
  split at h
  case h_1 => cases h; omega
  case h_2 => exact hmul n 60
  case h_3 => exact hbind (hmul n 60) 60
  case h_4 => exact hbind (hbind (hmul n 60) 60) 24
  case h_5 => cases h

end

theorem plain_durationUnit {unit : List Char} {m : Nat} (h : durationUnit unit = some m) :
    PlainUnit unit := by
  unfold durationUnit at h
  split at h
  case h_5 => cases h
  all_goals simp [PlainUnit, isWhitespace]

theorem plain_siUnit {unit : List Char} {m : Nat} (h : siUnit unit = some m) : PlainUnit unit := by
  unfold siUnit at h
  split at h
  case h_7 => cases h
  all_goals simp [PlainUnit, isWhitespace]

theorem plain_diskUnit {unit : List Char} {m : Nat} (h : diskUnit unit = some m) : PlainUnit unit := by
  unfold diskUnit at h
  split at h
  case h_6 => exact plain_siUnit h
  all_goals simp [PlainUnit, isWhitespace]

theorem plain_percentUnit {unit : List Char} {m : Nat} (h : percentUnit unit = some m) :
    PlainUnit unit := by
  unfold percentUnit at h
  split at h
  case h_2 => cases h
  all_goals simp [PlainUnit, isWhitespace]

/-! ## The four deserializers -/

section

variable (overflowChecks : Bool) (classes : CharClasses) (text : List Char)

theorem siPrefix_means : Means siUnit text (deserializeSiPrefix classes (some text)) :=
  means_of (fun _ _ => plain_siUnit) fun _ unit _ hlt => multiplies_checkedMul (siPrefixBody_eq hlt unit)

theorem diskSpace_means : Means diskUnit text (deserializeDiskSpace classes (some text)) :=
  means_of (fun _ _ => plain_diskUnit) fun _ unit _ hlt =>
    multiplies_checkedMul (diskSpaceBody_eq hlt unit)

theorem percent_means : Means percentUnit text (deserializePercent classes (some text)) :=
  means_of (fun _ _ => plain_percentUnit) fun _ _ _ hlt => multiplies_percent hlt

/-- A duration means what it says exactly when it is not too long. -/
theorem duration_means_iff :
    Means durationUnit text (deserializeDuration overflowChecks classes (some text)) ↔ ¬ TooLong text := by
  constructor
  · rintro h ⟨n, unit, m, hsetting, hunit, hlt, hover⟩
    obtain ⟨hsplit, hparse⟩ := split_setting classes 64 hsetting (plain_durationUnit hunit)
    have hinvalid := h.fits n unit m hsetting hunit hover
    rw [deserializeDuration, generateDeserializer_eq, hparse, if_pos hlt, Option.elim_some, hsplit] at hinvalid
    have hbody := durationBody_of_overflows overflowChecks hunit hlt hover
    cases hres : durationBody overflowChecks n unit with
    | ok v =>
      rw [hres] at hinvalid
      cases hinvalid
    | error e =>
      rw [hres] at hinvalid hbody
      exact hbody (congrArg Except.error (Except.error.inj hinvalid))
  · intro h
    refine means_of (fun _ _ => plain_durationUnit) fun n unit hsetting hlt => ⟨?_, ?_, ?_⟩
    · exact fun hunit => durationBody_of_none overflowChecks hunit
    · exact fun m hunit hfits => durationBody_of_fits overflowChecks hunit hfits
    · exact fun m hunit hover => absurd ⟨n, unit, m, hsetting, hunit, hlt, hover⟩ h

/-- **The four deserializers reject a setting or return what it means, exactly when it is not a duration
whose seconds do not fit in 64 bits.** -/
theorem settings_iff :
    (Means durationUnit text (deserializeDuration overflowChecks classes (some text)) ∧
      Means siUnit text (deserializeSiPrefix classes (some text)) ∧
      Means diskUnit text (deserializeDiskSpace classes (some text)) ∧
      Means percentUnit text (deserializePercent classes (some text))) ↔ ¬ TooLong text := by
  rw [duration_means_iff]
  exact and_iff_left ⟨siPrefix_means classes text, diskSpace_means classes text, percent_means classes text⟩

end

/-- The digits of ASCII. -/
def asciiClasses : CharClasses where
  isNumeric := Char.isDigit
  digit _ h := h
  ascii _ _ h := h
  whitespace c h := by
    cases hc : c.isDigit
    · rfl
    · rw [not_isWhitespace_of_isDigit hc] at h
      cases h

/-- 2^63 days. -/
def manyDays : List Char :=
  ['9', '2', '2', '3', '3', '7', '2', '0', '3', '6', '8', '5', '4', '7', '7', '5', '8', '0', '8', 'd']

/-- 2^63 days are taken for no time at all. -/
theorem not_means_manyDays :
    deserializeDuration false asciiClasses (some manyDays) = .ok (some 0) ∧
      ¬ Means durationUnit manyDays (deserializeDuration false asciiClasses (some manyDays)) := by
  have hvalue : deserializeDuration false asciiClasses (some manyDays) = .ok (some 0) := by rfl
  refine ⟨hvalue, fun h => ?_⟩
  have hsetting : Setting manyDays (2 ^ 63) ['d'] :=
    ⟨[], manyDays.take 19, [], [], by decide, by simp [Spaces], by simp [Spaces], by simp [Spaces],
      by decide, List.all_eq_true.mp (by decide), by rfl⟩
  have hinvalid := h.fits _ _ _ hsetting rfl (by norm_num)
  rw [hvalue] at hinvalid
  cases hinvalid

end Wasmtime.Cache.Settings
