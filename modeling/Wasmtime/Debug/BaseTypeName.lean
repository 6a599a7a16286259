import Mathlib
import Wasmtime.Debug.CloneUnit
import Wasmtime.Lib.Acyclic

/-!
# When the name of a type is found

`get_base_type_name` and `replace_pointer_type` (`wasmtime-debug/src/transform/unit.rs`).

* A unit gives the DIE at an offset, no DIE where a null entry is, or an error, as it does for every offset past
  its end.
* The strings are a parameter: for an offset in `.debug_str`, the text or an error.
* The recursion has fuel; `none` stands for a call that has used it.
* `replace_pointer_type` is that of the copy of a unit, given the name.

The code follows `DW_AT_type` through unnamed const, pointer, reference and array types and keeps no account
of where it has been.

Results: `getBaseTypeName_returns_iff` and the headline `terminates_iff`: the calls come to an end exactly when
that path does not come by a DIE twice.
-/

namespace Wasmtime.Debug.TypeName

/-! ## A unit -/

/-- The tags that are told apart. -/
inductive Tag
  | constType
  | pointerType
  | referenceType
  | arrayType
  | other (code : Nat)
  deriving DecidableEq, Repr

/-- `AttributeValue`, in the forms that are looked for. -/
inductive AttributeValue
  | unitRef (offset : Nat)
  | debugStrRef (offset : Nat)
  | other
  deriving DecidableEq, Repr

variable {ε : Type}

/-- What is read of a DIE. -/
structure Die (ε : Type) where
  tag : Tag
  /-- `DW_AT_type`. -/
  type : Except ε (Option AttributeValue)
  /-- `DW_AT_name`. -/
  name : Except ε (Option AttributeValue)

/-- A unit: the DIE at an offset, as `entries_at_offset` and `next_entry` read it. -/
structure DieUnit (ε : Type) where
  size : Nat
  entry : Nat → Except ε (Option (Die ε))
  bounded : ∀ offset, size ≤ offset → ∃ e, entry offset = .error e

/-! ## `get_base_type_name` -/

/-- What the name of a type that has no name adds to that of the type under it. -/
def Tag.decorate : Tag → Option (String → String)
  | .constType => some fun name => "const " ++ name
  | .pointerType => some fun name => name ++ "*"
  | .referenceType => some fun name => name ++ "&"
  | .arrayType => some fun name => name ++ "[]"
  | .other _ => none

/-- How a call goes on: with a result, or with a call for another DIE. -/
inductive Next (ε : Type)
  | done (result : Except ε String)
  | call (decorate : String → String) (die : Die ε)

section

variable (unit : DieUnit ε) (getStr : Nat → Except ε String)

/-- A call of `get_base_type_name` once it has the DIE of the type. -/
def nameOf (die : Die ε) : Next ε :=
  match die.name with
  | .error e => .done (.error e)
  | .ok (some (.debugStrRef offset)) => .done (getStr offset)
  | .ok _ => die.tag.decorate.elim (.done (.ok "??")) fun decorate => .call decorate die

/-- A call of `get_base_type_name`, up to the next one. -/
def baseType (typeEntry : Die ε) : Next ε :=
  match typeEntry.type with
  | .error e => .done (.error e)
  | .ok (some (.unitRef offset)) =>
    match unit.entry offset with
    | .error e => .done (.error e)
    | .ok (some die) => nameOf getStr die
    | .ok none => .done (.ok "??")
  | .ok _ => .done (.ok "??")

/-- `get_base_type_name`. -/
def getBaseTypeName : Nat → Die ε → Option (Except ε String)
  | 0, _ => none
  | fuel + 1, typeEntry =>
    match baseType unit getStr typeEntry with
    | .done result => some result
    | .call decorate die => (getBaseTypeName fuel die).map fun name => name.map decorate

/-- `replace_pointer_type`. -/
def replacePointerType {A : Type} (fuel : Nat) (typeEntry : Die ε) (t : Units.Pass ε A) (parent : Nat)
    (entry : Units.Entry) (out : List (Units.Copy A)) : Option (Except ε (List (Units.Copy A))) :=
  (getBaseTypeName unit getStr fuel typeEntry).map fun name =>
    { t with baseTypeName := fun _ => name }.replacePointerType parent entry out

end

/-! ## Where the path leads -/

/-- The DIE has a name in `.debug_str`. -/
def Die.Named (die : Die ε) : Prop := ∃ offset, die.name = .ok (some (.debugStrRef offset))

/-- `DW_AT_type` of the one DIE is the other, which is a const, pointer, reference or array type without a
name. -/
structure Leads (unit : DieUnit ε) (die die' : Die ε) : Prop where
  type : ∃ offset, die.type = .ok (some (.unitRef offset)) ∧ unit.entry offset = .ok (some die')
  name : ∃ name, die'.name = .ok name
  unnamed : ¬ die'.Named
  tag : ∀ code, die'.tag ≠ .other code

section

variable {unit : DieUnit ε} (getStr : Nat → Except ε String) {die die' : Die ε}

theorem Tag.decorate_eq_none {tag : Tag} : tag.decorate = none ↔ ∃ code, tag = .other code := by
  cases tag <;> simp [Tag.decorate]

theorem nameOf_of_unnamed {name : Option AttributeValue} (h : die.name = .ok name) (hun : ¬ die.Named) :
    nameOf getStr die =
      die.tag.decorate.elim (.done (.ok "??")) fun decorate => .call decorate die := by
  unfold nameOf
  rw [h]
  obtain _ | _ | offset | _ := name
  · rfl
  · rfl
  · exact absurd ⟨offset, h⟩ hun
  · rfl

theorem nameOf_of_named {name : Except ε (Option AttributeValue)} (h : die.name = name)
    (hname : (∃ e, name = .error e) ∨ ∃ offset, name = .ok (some (.debugStrRef offset))) :
    ∃ result, nameOf getStr die = .done result := by
  unfold nameOf
  rw [h]
  rcases hname with ⟨e, rfl⟩ | ⟨offset, rfl⟩
  · exact ⟨_, rfl⟩
  · exact ⟨_, rfl⟩

/-- The next call is for the DIE of the type, if it is one that is followed and has no name. -/
theorem nameOf_eq_call_iff :
    (∃ decorate, nameOf getStr die = .call decorate die') ↔
      die = die' ∧ (∃ name, die.name = .ok name) ∧ ¬ die.Named ∧ ∀ code, die.tag ≠ .other code := by
  constructor
  · rintro ⟨decorate, h⟩
    have hdone : ∀ result : Except ε String, nameOf getStr die ≠ .done result := by
      intro result heq
      rw [heq] at h
      cases h
    have hun : ¬ die.Named := by
      rintro ⟨offset, hname⟩
      obtain ⟨result, hresult⟩ := nameOf_of_named getStr hname (.inr ⟨offset, rfl⟩)
      exact hdone result hresult
    cases hname : die.name with
    | error e =>
      obtain ⟨result, hresult⟩ := nameOf_of_named getStr hname (.inl ⟨e, rfl⟩)
      exact absurd hresult (hdone result)
    | ok name =>
      rw [nameOf_of_unnamed getStr hname hun] at h
      cases htag : die.tag.decorate with
      | none =>
        rw [htag] at h
        cases h
      | some f =>
        rw [htag] at h
        obtain ⟨-, rfl⟩ := Next.call.inj h
        refine ⟨rfl, ⟨name, rfl⟩, hun, fun code hcode => ?_⟩
        rw [Tag.decorate_eq_none.mpr ⟨code, hcode⟩] at htag
        cases htag
  · rintro ⟨rfl, ⟨name, hname⟩, hun, htag⟩
    obtain ⟨f, hf⟩ := Option.ne_none_iff_exists'.mp fun hnone =>
      (Tag.decorate_eq_none.mp hnone).elim htag
    exact ⟨f, by rw [nameOf_of_unnamed getStr hname hun, hf]; rfl⟩

/-- A call makes another one for the DIE that the path leads to. -/
theorem baseType_eq_call_iff :
    (∃ decorate, baseType unit getStr die = .call decorate die') ↔ Leads unit die die' := by
  constructor
  · rintro ⟨decorate, h⟩
    unfold baseType at h
    split at h
    · cases h
    · next offset htype =>
      split at h
      · cases h
      · next d hentry =>
        obtain ⟨rfl, hname, hun, htag⟩ := (nameOf_eq_call_iff getStr).mp ⟨decorate, h⟩
        exact ⟨⟨offset, htype, hentry⟩, hname, hun, htag⟩
      · cases h
    · cases h
  · rintro ⟨⟨offset, htype, hentry⟩, hname, hun, htag⟩
    obtain ⟨decorate, h⟩ := (nameOf_eq_call_iff getStr).mpr ⟨rfl, hname, hun, htag⟩
    refine ⟨decorate, ?_⟩
    unfold baseType
    simp only [htype, hentry, h]

/-! ## The recursion -/

/-- A call comes to an end iff the path from its DIE does. -/
theorem getBaseTypeName_returns_iff :
    (∃ fuel result, getBaseTypeName unit getStr fuel die = some result) ↔
      Acc (Function.swap (Leads unit)) die := by
  constructor
  · rintro ⟨fuel, result, h⟩
    induction fuel generalizing die result with
    | zero => cases h
    | succ fuel ih =>
      refine ⟨die, fun die' hleads => ?_⟩
      obtain ⟨decorate, hcall⟩ := (baseType_eq_call_iff getStr).mpr hleads
      rw [getBaseTypeName, hcall] at h
      obtain ⟨name, hname, -⟩ := Option.map_eq_some_iff.mp h
      exact ih name hname
  · intro h
    induction h with
    | intro die _ ih =>
      cases hnext : baseType unit getStr die with
      | done result => exact ⟨1, result, by rw [getBaseTypeName, hnext]⟩
      | call decorate die' =>
        obtain ⟨fuel, name, hname⟩ := ih die' ((baseType_eq_call_iff getStr).mp ⟨decorate, hnext⟩)
        exact ⟨fuel + 1, name.map decorate, by rw [getBaseTypeName, hnext]; simp [hname]⟩

/-- The DIEs that can be reached are those of the unit, and the one the path starts from. -/
theorem finite_reached (unit : DieUnit ε) (die : Die ε) :
    {die' | Relation.ReflTransGen (Leads unit) die die'}.Finite := by
  have hentries : {d : Die ε | ∃ offset, unit.entry offset = .ok (some d)}.Finite := by
    have himage := (Set.finite_lt_nat unit.size).image unit.entry
    refine (himage.preimage (f := fun d => Except.ok (some d)) fun a _ b _ hab => ?_).subset ?_
    · exact Option.some.inj (Except.ok.inj hab)
    · rintro d ⟨offset, hd⟩
      refine ⟨offset, Nat.lt_of_not_le fun hle => ?_, hd⟩
      obtain ⟨e, he⟩ := unit.bounded offset hle
      rw [he] at hd
      cases hd
  refine (hentries.insert die).subset fun d hd => ?_
  rcases Relation.ReflTransGen.cases_tail hd with rfl | ⟨c, -, hleads⟩
  · exact .inl rfl
  · obtain ⟨offset, -, hentry⟩ := hleads.type
    exact .inr ⟨offset, hentry⟩

/-- The calls come to an end, with a result or an error. -/
structure Terminates {A : Type} (unit : DieUnit ε) (getStr : Nat → Except ε String) (die : Die ε)
    (t : Units.Pass ε A) (parent : Nat) (entry : Units.Entry) (out : List (Units.Copy A)) : Prop where
  name : ∃ fuel result, getBaseTypeName unit getStr fuel die = some result
  replaced : ∃ fuel result, replacePointerType unit getStr fuel die t parent entry out = some result

/-- **Headline.** The name of a type is found, or an error, and a pointer type is replaced, iff the path of unnamed
types from it does not come by a DIE twice. -/
theorem terminates_iff {A : Type} (t : Units.Pass ε A) (parent : Nat) (entry : Units.Entry)
    (out : List (Units.Copy A)) :
    Terminates unit getStr die t parent entry out ↔
      ∀ d, Relation.ReflTransGen (Leads unit) die d → ¬ Relation.TransGen (Leads unit) d d := by
  rw [← Acyclic.acc_iff (finite_reached unit die), ← getBaseTypeName_returns_iff getStr]
  refine ⟨Terminates.name, fun h => ⟨h, ?_⟩⟩
  obtain ⟨fuel, name, hname⟩ := h
  exact ⟨fuel, _, Option.map_eq_some_iff.mpr ⟨name, hname, rfl⟩⟩

end

/-- A const type of itself: its type is the DIE at offset 11, behind the header, and so is it. -/
def selfConst : DieUnit String where
  size := 16
  entry offset := if offset = 11 then .ok (some ⟨.constType, .ok (some (.unitRef 11)), .ok none⟩)
    else .error "out of bounds"
  bounded _ h := ⟨"out of bounds", if_neg (Nat.ne_of_gt (Nat.lt_of_lt_of_le (by decide) h))⟩

/-- A pointer to it. -/
def pointerToSelfConst : Die String := ⟨.pointerType, .ok (some (.unitRef 11)), .ok none⟩

/-- The name is never found, nor is an error, and the pointer type is not replaced. -/
theorem not_terminates_selfConst :
    (¬ ∃ fuel result, getBaseTypeName selfConst (fun _ => .ok "") fuel pointerToSelfConst = some result) ∧
      ∀ (t : Units.Pass String Empty) (parent : Nat) (entry : Units.Entry) (out : List (Units.Copy Empty)),
        ¬ Terminates selfConst (fun _ => .ok "") pointerToSelfConst t parent entry out := by
  have hleads : ∀ tag : Tag, Leads selfConst ⟨tag, .ok (some (.unitRef 11)), .ok none⟩
      ⟨.constType, .ok (some (.unitRef 11)), .ok none⟩ := by
    intro tag
    refine ⟨⟨11, rfl, rfl⟩, ⟨none, rfl⟩, ?_, fun code hcode => by cases hcode⟩
    rintro ⟨offset, hname⟩
    cases hname
  have hnever : ¬ ∃ fuel result,
      getBaseTypeName selfConst (fun _ => .ok "") fuel pointerToSelfConst = some result := by
    intro h
    have hacc := (getBaseTypeName_returns_iff _).mp h
    exact Acyclic.not_self_of_acc (hacc.inv (hleads .pointerType)) (hleads .constType)
  exact ⟨hnever, fun t parent entry out h => hnever h.name⟩

end Wasmtime.Debug.TypeName
