import Mathlib.Logic.Basic

/-!
# Rules for programs with a state that may stop

A program is an `EStateM`: it returns a value and a state, or stops with a reason in a state. The two
judgements are about one start state, so that a proof follows the program from its start on.

* `Returns m s Q`: from `s` the program returns, and `Q` holds then.
* `Always m s Q E`: whenever the program returns from `s`, `Q` holds then, and whenever it stops, `E`
  does.

Results: the rules for `pure`, `bind`, `get` and `throw`, and the consequence rules.
-/

namespace Triple

variable {ε σ α β : Type}

/-- From `s` the program returns, and `Q` holds then. -/
def Returns (m : EStateM ε σ α) (s : σ) (Q : α → σ → Prop) : Prop := ∃ a s', m s = .ok a s' ∧ Q a s'

/-- Whenever the program returns from `s`, `Q` holds then; whenever it stops, `E` does. -/
def Always (m : EStateM ε σ α) (s : σ) (Q : α → σ → Prop) (E : σ → Prop) : Prop :=
  (∀ a s', m s = .ok a s' → Q a s') ∧ ∀ e s', m s = .error e s' → E s'

variable {m : EStateM ε σ α} {f : α → EStateM ε σ β} {s : σ} {Q : α → σ → Prop} {R : β → σ → Prop}
  {E : σ → Prop}

theorem bind_of_ok {a : α} {s' : σ} (h : m s = .ok a s') : (m >>= f) s = f a s' := by
  show EStateM.bind m f s = f a s'
  rw [EStateM.bind, h]

theorem bind_of_error {e : ε} {s' : σ} (h : m s = .error e s') : (m >>= f) s = .error e s' := by
  show EStateM.bind m f s = .error e s'
  rw [EStateM.bind, h]

/-! ## Programs that return -/

namespace Returns

theorem pure {a : α} (h : Q a s) : Returns (Pure.pure a : EStateM ε σ α) s Q := ⟨a, s, rfl, h⟩

theorem bind (hm : Returns m s Q) (hf : ∀ a s', Q a s' → Returns (f a) s' R) :
    Returns (m >>= f) s R := by
  obtain ⟨a, s₁, hs₁, hq⟩ := hm
  obtain ⟨b, s₂, hs₂, hr⟩ := hf a s₁ hq
  exact ⟨b, s₂, (bind_of_ok hs₁).trans hs₂, hr⟩

theorem mono {Q' : α → σ → Prop} (hm : Returns m s Q) (h : ∀ a s', Q a s' → Q' a s') :
    Returns m s Q' := by
  obtain ⟨a, s₁, hs₁, hq⟩ := hm
  exact ⟨a, s₁, hs₁, h a s₁ hq⟩

theorem get_bind {f : σ → EStateM ε σ β} (h : Returns (f s) s R) : Returns (MonadState.get >>= f) s R := h

end Returns

/-! ## Programs that may stop -/

namespace Always

theorem pure {a : α} (h : Q a s) : Always (Pure.pure a : EStateM ε σ α) s Q E := by
  refine ⟨fun b s' hb => ?_, fun e s' he => nomatch he⟩
  obtain ⟨rfl, rfl⟩ : a = b ∧ s = s' := EStateM.Result.ok.inj hb
  exact h

theorem throw {e : ε} (h : E s) : Always (MonadExcept.throw e : EStateM ε σ α) s Q E := by
  refine ⟨(fun b s' hb => nomatch hb), fun e' s' he => ?_⟩
  obtain ⟨-, rfl⟩ : e = e' ∧ s = s' := EStateM.Result.error.inj he
  exact h

theorem bind (hm : Always m s Q E) (hf : ∀ a s', Q a s' → Always (f a) s' R E) :
    Always (m >>= f) s R E := by
  cases hs : m s with
  | ok a s₁ =>
    have h := hf a s₁ (hm.1 a s₁ hs)
    rwa [Always, bind_of_ok hs]
  | error e s₁ =>
    rw [Always, bind_of_error hs]
    refine ⟨(fun b s' hb => nomatch hb), fun e' s' he => ?_⟩
    obtain ⟨-, rfl⟩ := EStateM.Result.error.inj he
    exact hm.2 e s₁ hs

theorem of_returns (h : Returns m s Q) : Always m s Q E := by
  obtain ⟨a, s₁, hs₁, hq⟩ := h
  refine ⟨fun b s' hb => ?_, fun e s' he => nomatch hs₁.symm.trans he⟩
  obtain ⟨rfl, rfl⟩ : a = b ∧ s₁ = s' := EStateM.Result.ok.inj (hs₁.symm.trans hb)
  exact hq

theorem mono {Q' : α → σ → Prop} (hm : Always m s Q E) (h : ∀ a s', Q a s' → Q' a s') :
    Always m s Q' E := ⟨fun a s' ha => h a s' (hm.1 a s' ha), hm.2⟩

theorem and {Q' : α → σ → Prop} {E' : σ → Prop} (h : Always m s Q E) (h' : Always m s Q' E') :
    Always m s (fun a s' => Q a s' ∧ Q' a s') fun s' => E s' ∧ E' s' :=
  ⟨fun a s' ha => ⟨h.1 a s' ha, h'.1 a s' ha⟩, fun e s' he => ⟨h.2 e s' he, h'.2 e s' he⟩⟩

theorem weaken {E' : σ → Prop} (hm : Always m s Q E) (h : ∀ s', E s' → E' s') : Always m s Q E' :=
  ⟨hm.1, fun e s' he => h s' (hm.2 e s' he)⟩

theorem get_bind {f : σ → EStateM ε σ β} (h : Always (f s) s R E) :
    Always (MonadState.get >>= f) s R E := h

end Always

end Triple
