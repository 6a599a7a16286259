import Mathlib.Logic.Function.Basic
import Wasmtime.Lib.LittleEndian

/-!
# Prefix-free encodings

An encoding is prefix free on a set of values when no code word starts another: whatever follows it, a
code word is read off the front of a stream in one way (`PrefixFreeOn`). This is what makes a
concatenation of encodings injective.

The combinators follow the shape of the data: values of fixed width (`of_length`), pairs (`pair`),
tagged alternatives (`tagged`), lists behind their length (`list`), and encodings through an injection
(`comp`).
-/

namespace PrefixFree

variable {α γ β : Type}

/-- On the values of `P`, a code word is read off the front of a stream in one way. -/
def PrefixFreeOn (P : α → Prop) (enc : α → List β) : Prop :=
  ∀ a b, P a → P b → ∀ s t, enc a ++ s = enc b ++ t → a = b ∧ s = t

/-- Code words of one length, all different. -/
theorem of_length {P : α → Prop} {enc : α → List β} {n : Nat} (hlen : ∀ a, (enc a).length = n)
    (hinj : ∀ a b, P a → P b → enc a = enc b → a = b) : PrefixFreeOn P enc := by
  intro a b ha hb s t h
  obtain ⟨henc, hrest⟩ := List.append_inj h ((hlen a).trans (hlen b).symm)
  exact ⟨hinj a b ha hb henc, hrest⟩

/-- One encoding after another. -/
theorem pair {P : α → Prop} {Q : γ → Prop} {enc : α → List β} {enc' : γ → List β}
    (h : PrefixFreeOn P enc) (h' : PrefixFreeOn Q enc') :
    PrefixFreeOn (fun p : α × γ => P p.1 ∧ Q p.2) (fun p => enc p.1 ++ enc' p.2) := by
  rintro ⟨a, c⟩ ⟨a', c'⟩ ⟨hP, hQ⟩ ⟨hP', hQ'⟩ s t heq
  rw [List.append_assoc, List.append_assoc] at heq
  obtain ⟨hfst, hsnd⟩ := h a a' hP hP' _ _ heq
  obtain ⟨hc, hrest⟩ := h' c c' hQ hQ' _ _ hsnd
  exact ⟨Prod.ext hfst hc, hrest⟩

/-- An encoding of parts that determine the whole. -/
theorem comp {P : α → Prop} {Q : γ → Prop} {enc : γ → List β} (h : PrefixFreeOn Q enc)
    {f : α → γ} (hf : Function.Injective f) (hPQ : ∀ a, P a → Q (f a)) :
    PrefixFreeOn P (fun a => enc (f a)) := by
  intro a b ha hb s t heq
  obtain ⟨he, hrest⟩ := h (f a) (f b) (hPQ a ha) (hPQ b hb) s t heq
  exact ⟨hf he, hrest⟩

/-- A tag, and then a payload that is read knowing the tag. -/
theorem tagged {P : α → Prop} {tag : α → γ} {enc : γ → List β} {payload : α → List β}
    (h : PrefixFreeOn (fun _ => True) enc)
    (hp : ∀ a b, P a → P b → tag a = tag b → ∀ s t, payload a ++ s = payload b ++ t →
      a = b ∧ s = t) :
    PrefixFreeOn P (fun a => enc (tag a) ++ payload a) := by
  intro a b ha hb s t heq
  rw [List.append_assoc, List.append_assoc] at heq
  obtain ⟨htag, heq⟩ := h (tag a) (tag b) trivial trivial _ _ heq
  exact hp a b ha hb htag s t heq

/-- Equally many values, one after another. -/
theorem flatMap {P : α → Prop} {enc : α → List β} (h : PrefixFreeOn P enc) :
    ∀ (l k : List α), (∀ a ∈ l, P a) → (∀ a ∈ k, P a) → l.length = k.length → ∀ s t,
      l.flatMap enc ++ s = k.flatMap enc ++ t → l = k ∧ s = t := by
  intro l
  induction l with
  | nil =>
    intro k _ _ hlen s t heq
    obtain rfl := List.length_eq_zero_iff.mp hlen.symm
    exact ⟨rfl, heq⟩
  | cons a l ih =>
    intro k hl hk hlen s t heq
    cases k with
    | nil => exact absurd hlen (by simp)
    | cons b k =>
      rw [List.flatMap_cons, List.flatMap_cons, List.append_assoc, List.append_assoc] at heq
      obtain ⟨hhead, htail⟩ := h a b (hl a List.mem_cons_self) (hk b List.mem_cons_self) _ _ heq
      obtain ⟨hlk, hrest⟩ := ih k (fun x hx => hl x (List.mem_cons_of_mem _ hx))
        (fun x hx => hk x (List.mem_cons_of_mem _ hx)) (by simpa using hlen) _ _ htail
      exact ⟨by rw [hhead, hlk], hrest⟩

/-- A list behind its length. -/
theorem list {P : α → Prop} {Q : Nat → Prop} {enc : α → List β} {encLen : Nat → List β}
    (hlen : PrefixFreeOn Q encLen) (h : PrefixFreeOn P enc) :
    PrefixFreeOn (fun l : List α => Q l.length ∧ ∀ a ∈ l, P a)
      (fun l => encLen l.length ++ l.flatMap enc) := by
  rintro l k ⟨hl, hPl⟩ ⟨hk, hPk⟩ s t heq
  rw [List.append_assoc, List.append_assoc] at heq
  obtain ⟨hle, heq⟩ := hlen _ _ hl hk _ _ heq
  exact flatMap h l k hPl hPk hle _ _ heq

/-- Little-endian numbers of a fixed width. -/
theorem littleEndian (n : Nat) :
    PrefixFreeOn (fun x => x < 256 ^ n) (LittleEndian.leBytes n) :=
  of_length (LittleEndian.length_leBytes n) fun _ _ ha hb h => LittleEndian.leBytes_inj ha hb h

end PrefixFree
