import Mathlib.Data.List.Nodup
import Wasmtime.Environ.Module

/-!
# The signature registry

Model of `SignatureRegistry` (`wasmtime-runtime/src/sig_registry.rs`) and of the default of
`VMSharedSignatureIndex` (`wasmtime-runtime/src/vmcontext.rs`).

* `HashMap<ir::Signature, VMSharedSignatureIndex>` is its list of entries, in order of insertion.
* `debug_assert!` is there in a build with debug assertions only; `u32::try_from(len).unwrap()` is
  there in every build. `none` is a panic of either.

Results:
* `Ok.eq_iff`: two ids are equal iff their signatures are.
* `Ok.default_iff`: `VMSharedSignatureIndex::default()` is no id exactly while there are fewer than
  `2^32` signatures.
-/

namespace Wasmtime.Runtime

/-- `VMSharedSignatureIndex::default()`. -/
def defaultSignatureIndex : UInt32 := 0xFFFFFFFF

/-- `SignatureRegistry`. -/
structure SignatureRegistry (Sig : Type) where
  signatureHash : List (Sig × UInt32)

namespace SignatureRegistry

variable {Sig : Type}

/-- `SignatureRegistry::new`. -/
def new : SignatureRegistry Sig := ⟨[]⟩

section

variable [DecidableEq Sig]

/-- `SignatureRegistry::register`. -/
def register (debugAssertions : Bool) (r : SignatureRegistry Sig) (sig : Sig) :
    Option (UInt32 × SignatureRegistry Sig) :=
  let len := r.signatureHash.length
  match r.signatureHash.find? (·.1 = sig) with
  | some entry => some (entry.2, r)
  | none =>
    if debugAssertions && !decide (len < 0xFFFFFFFF) then none
    else if len < 2 ^ 32 then
      let sigId := UInt32.ofNat len
      some (sigId, ⟨r.signatureHash ++ [(sig, sigId)]⟩)
    else none

/-- The ids of the signatures of a module, registered one after the other. -/
def registerAll (debugAssertions : Bool) : SignatureRegistry Sig → List Sig →
    Option (List UInt32 × SignatureRegistry Sig)
  | r, [] => some ([], r)
  | r, sig :: rest =>
    (r.register debugAssertions sig).bind fun (id, r) =>
      (registerAll debugAssertions r rest).map fun (ids, r) => (id :: ids, r)

end

/-- The invariant: one entry for each signature, and the ids are the positions. -/
structure Ok (r : SignatureRegistry Sig) : Prop where
  keys : (r.signatureHash.map Prod.fst).Nodup
  ids : ∀ (j : Nat) p, r.signatureHash[j]? = some p → p.2.toNat = j

variable {r r' : SignatureRegistry Sig} {sig : Sig} {id : UInt32}

theorem ok_new : Ok (new : SignatureRegistry Sig) :=
  ⟨List.nodup_nil, fun j p h => absurd h (by simp [new])⟩

/-- An id is the position of a 32-bit number, so there are at most `2^32`. -/
theorem Ok.length_le (h : Ok r) : r.signatureHash.length ≤ 2 ^ 32 := by
  by_contra hgt
  have hlt : 2 ^ 32 < r.signatureHash.length := Nat.not_le.mp hgt
  have hid := h.ids (2 ^ 32) _ (List.getElem?_eq_getElem hlt)
  have := (r.signatureHash[2 ^ 32]).2.toNat_lt
  omega

/-- **Two ids are equal iff their signatures are.** -/
theorem Ok.eq_iff (h : Ok r) {sig' : Sig} {id' : UInt32} (hm : (sig, id) ∈ r.signatureHash)
    (hm' : (sig', id') ∈ r.signatureHash) : id = id' ↔ sig = sig' := by
  obtain ⟨j, hj⟩ := List.mem_iff_getElem?.mp hm
  obtain ⟨j', hj'⟩ := List.mem_iff_getElem?.mp hm'
  have hid : id.toNat = j := h.ids j _ hj
  have hid' : id'.toNat = j' := h.ids j' _ hj'
  constructor
  · rintro rfl
    obtain rfl : j = j' := hid.symm.trans hid'
    exact congrArg Prod.fst (Option.some.inj (hj.symm.trans hj'))
  · rintro rfl
    have hlt : j < (r.signatureHash.map Prod.fst).length := by
      rw [List.length_map]
      exact (List.getElem?_eq_some_iff.mp hj).1
    have hkey : (r.signatureHash.map Prod.fst)[j]? = (r.signatureHash.map Prod.fst)[j']? := by
      rw [List.getElem?_map, List.getElem?_map, hj, hj']
      rfl
    obtain rfl := (List.getElem?_inj hlt h.keys).mp hkey
    exact congrArg Prod.snd (Option.some.inj (hj.symm.trans hj'))

/-- **The default is no id** exactly while there are fewer than `2^32` signatures. -/
theorem Ok.default_iff (h : Ok r) :
    (∀ p ∈ r.signatureHash, p.2 ≠ defaultSignatureIndex) ↔ r.signatureHash.length < 2 ^ 32 := by
  have hdefault : defaultSignatureIndex.toNat = 2 ^ 32 - 1 := by decide
  constructor
  · intro hne
    by_contra hge
    have hlt : 2 ^ 32 - 1 < r.signatureHash.length := by omega
    have hid := h.ids _ _ (List.getElem?_eq_getElem hlt)
    exact hne _ (List.getElem_mem hlt) (UInt32.toNat_inj.mp (hid.trans hdefault.symm))
  · intro hlt p hp he
    obtain ⟨j, hj⟩ := List.mem_iff_getElem?.mp hp
    have hid := h.ids j p hj
    have hlen := (List.getElem?_eq_some_iff.mp hj).1
    rw [he, hdefault] at hid
    omega

variable [DecidableEq Sig] {debugAssertions : Bool}

/-- What `register` can do: find the signature, or add it at the end. -/
theorem register_cases (h : r.register debugAssertions sig = some (id, r')) :
    ((sig, id) ∈ r.signatureHash ∧ r' = r) ∨
    ((∀ p ∈ r.signatureHash, p.1 ≠ sig) ∧ r.signatureHash.length < 2 ^ 32 ∧
      id = UInt32.ofNat r.signatureHash.length ∧ r' = ⟨r.signatureHash ++ [(sig, id)]⟩) := by
  unfold register at h
  simp only at h
  cases hf : r.signatureHash.find? (·.1 = sig) with
  | some entry =>
    rw [hf] at h
    obtain ⟨rfl, rfl⟩ := Prod.mk.inj (Option.some.inj h)
    have hkey : entry.1 = sig := by simpa using List.find?_some hf
    have hmem := List.mem_of_find?_eq_some hf
    rw [← hkey]
    exact Or.inl ⟨hmem, rfl⟩
  | none =>
    rw [hf] at h
    obtain ⟨-, h⟩ := Option.ite_none_left_eq_some.mp h
    obtain ⟨hlt, h⟩ := Option.ite_none_right_eq_some.mp h
    obtain ⟨rfl, rfl⟩ := Prod.mk.inj (Option.some.inj h)
    exact Or.inr ⟨by simpa using List.find?_eq_none.mp hf, hlt, rfl, rfl⟩

/-- Each registration keeps the invariant and every entry there was. -/
theorem register_spec (hr : Ok r) (h : r.register debugAssertions sig = some (id, r')) :
    Ok r' ∧ (sig, id) ∈ r'.signatureHash ∧ (∀ p ∈ r.signatureHash, p ∈ r'.signatureHash) ∧
      ∀ x, x ∈ r'.signatureHash.map Prod.fst ↔ x ∈ r.signatureHash.map Prod.fst ∨ x = sig := by
  rcases register_cases h with ⟨hm, rfl⟩ | ⟨hnew, hlt, hid, rfl⟩
  · refine ⟨hr, hm, fun p hp => hp, fun x => ⟨Or.inl, ?_⟩⟩
    rintro (hx | rfl)
    · exact hx
    · exact List.mem_map_of_mem (f := Prod.fst) hm
  · refine ⟨⟨?_, fun j p hj => ?_⟩, ?_, fun p hp => List.mem_append_left _ hp, fun x => ?_⟩
    · simp only [List.map_append, List.map_cons, List.map_nil]
      refine List.Nodup.append hr.keys (List.nodup_singleton _) ?_
      intro x hx hx'
      obtain ⟨p, hp, rfl⟩ := List.mem_map.mp hx
      exact hnew p hp (List.mem_singleton.mp hx')
    · simp only at hj
      by_cases hlen : j < r.signatureHash.length
      · rw [List.getElem?_append_left hlen] at hj
        exact hr.ids j p hj
      · rw [List.getElem?_append_right (Nat.not_lt.mp hlen)] at hj
        obtain ⟨hz, rfl⟩ := List.getElem?_eq_some_iff.mp hj
        rw [List.length_singleton] at hz
        rw [List.getElem_singleton, hid, UInt32.toNat_ofNat_of_lt' (by unfold UInt32.size; omega)]
        omega
    · exact List.mem_append_right _ (List.mem_singleton.mpr rfl)
    · simp

/-- Registering the signatures of a module. -/
theorem registerAll_spec {sigs : List Sig} {ids : List UInt32} (hr : Ok r)
    (h : registerAll debugAssertions r sigs = some (ids, r')) :
    Ok r' ∧ List.Forall₂ (fun sig id => (sig, id) ∈ r'.signatureHash) sigs ids ∧
      (∀ p ∈ r.signatureHash, p ∈ r'.signatureHash) ∧
      ∀ x, x ∈ r'.signatureHash.map Prod.fst ↔ x ∈ r.signatureHash.map Prod.fst ∨ x ∈ sigs := by
  induction sigs generalizing r ids with
  | nil =>
    obtain ⟨rfl, rfl⟩ := Prod.mk.inj (Option.some.inj h)
    exact ⟨hr, .nil, fun p hp => hp, fun x => by simp⟩
  | cons sig sigs ih =>
    obtain ⟨⟨id, r₁⟩, h₁, h⟩ := Option.bind_eq_some_iff.mp h
    obtain ⟨⟨ids', r₂⟩, h₂, h⟩ := Option.map_eq_some_iff.mp h
    obtain ⟨rfl, rfl⟩ := Prod.mk.inj h
    obtain ⟨hok, hm, hkeep, hkeys⟩ := register_spec hr h₁
    obtain ⟨hok', hall, hkeep', hkeys'⟩ := ih hok h₂
    refine ⟨hok', .cons (hkeep' _ hm) hall, fun p hp => hkeep' p (hkeep p hp), fun x => ?_⟩
    rw [hkeys', hkeys, List.mem_cons, or_assoc]

end SignatureRegistry

end Wasmtime.Runtime
