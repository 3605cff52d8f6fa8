import Mathlib.Tactic

/-!
# Specifications of stateful programs

A program over a state that may fail is specified by what holds of its result
and of the state it leaves; `E` says with which errors it may end instead.
-/

namespace AirHuim.Library

variable {σ ε α β : Type}

/-- From `s` the program ends as `Q` says, or with an error that `E` allows. -/
structure Runs (E : ε → Prop) (m : StateT σ (Except ε) α) (s : σ) (Q : α → σ → Prop) : Prop where
  ok : ∀ a s', m s = .ok (a, s') → Q a s'
  error : ∀ e, m s = .error e → E e

namespace Runs

variable {E : ε → Prop} {m : StateT σ (Except ε) α} {s s' : σ} {Q Q' : α → σ → Prop}

theorem of_eq {a : α} (h : m s = .ok (a, s')) (hQ : Q a s') : Runs E m s Q where
  ok b t hb := by
    rw [h] at hb
    cases hb
    exact hQ
  error e he := by
    rw [h] at he
    cases he

theorem of_error {e : ε} (h : m s = .error e) (hE : E e) : Runs E m s Q where
  ok b t hb := by
    rw [h] at hb
    cases hb
  error e' he := by
    rw [h] at he
    cases he
    exact hE

theorem pure {a : α} (h : Q a s) : Runs E (Pure.pure a : StateT σ (Except ε) α) s Q :=
  of_eq rfl h

/-- A computation that does not look at the state. -/
theorem lift {x : Except ε α} {a : α} (hx : x = .ok a) (hQ : Q a s) :
    Runs E (liftM x : StateT σ (Except ε) α) s Q := by
  rw [hx]
  exact of_eq rfl hQ

/-- One of which it is not known whether it fails. -/
theorem lift_any {x : Except ε α} (hE : ∀ e, x = .error e → E e) :
    Runs E (liftM x : StateT σ (Except ε) α) s fun a s' => x = .ok a ∧ s' = s := by
  cases x with
  | ok a => exact of_eq rfl ⟨rfl, rfl⟩
  | error e => exact of_error rfl (hE e rfl)

theorem mono (h : Runs E m s Q) (hQ : ∀ a s', Q a s' → Q' a s') : Runs E m s Q' :=
  ⟨fun a s' hs' => hQ a s' (h.ok a s' hs'), h.error⟩

/-- A program that may not fail has a result. -/
theorem exists_ok (h : Runs (fun _ => False) m s Q) : ∃ a s', m s = .ok (a, s') ∧ Q a s' := by
  rcases hm : m s with e | ⟨a, s'⟩
  · exact (h.error e hm).elim
  · exact ⟨a, s', rfl, h.ok a s' hm⟩

/-- Sequencing. -/
theorem bind {f : α → StateT σ (Except ε) β} {R : β → σ → Prop} (h : Runs E m s Q)
    (hf : ∀ a s', Q a s' → Runs E (f a) s' R) : Runs E (m >>= f) s R := by
  have hrun : (m >>= f) s = (m s >>= fun p => f p.1 p.2) := rfl
  cases hm : m s with
  | error e =>
    refine of_error (e := e) ?_ (h.error e hm)
    rw [hrun, hm]
    rfl
  | ok p =>
    obtain ⟨a, s'⟩ := p
    have hnext : (m >>= f) s = f a s' := by
      rw [hrun, hm]
      rfl
    have hfa := hf a s' (h.ok a s' hm)
    exact ⟨fun b t hb => hfa.ok b t (hnext ▸ hb), fun e he => hfa.error e (hnext ▸ he)⟩

theorem map {f : α → β} {R : β → σ → Prop} (h : Runs E m s fun a s' => R (f a) s') :
    Runs E (f <$> m) s R := by
  rw [map_eq_pure_bind]
  exact h.bind fun _ _ hR => pure hR

/-- Going on with the state. -/
theorem get_bind {f : σ → StateT σ (Except ε) β} {R : β → σ → Prop} (h : Runs E (f s) s R) :
    Runs E (MonadState.get >>= f) s R :=
  ⟨h.ok, h.error⟩

/-- A failure that is allowed. -/
theorem throw {e : ε} (hE : E e) : Runs E (MonadExcept.throw e : StateT σ (Except ε) α) s Q :=
  of_error rfl hE

theorem modify {f : σ → σ} {Q : PUnit → σ → Prop} (h : Q ⟨⟩ (f s)) :
    Runs E (modify f : StateT σ (Except ε) PUnit) s Q :=
  of_eq rfl h

end Runs

end AirHuim.Library
