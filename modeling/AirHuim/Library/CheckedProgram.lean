import AirHuim.Library.StateSpec

/-!
# Programs with checks

A program over a state that may fail, and the same program with checks, which end
it with errors of another kind. A sequence is without alarm if its parts are. What
is needed for that may be known of an idealised state only, as long as the program
has the same results from there.
-/

namespace AirHuim.Library

variable {σ ε ε' α β : Type}

/-- The errors of a program, told apart from the alarms of checks. -/
def wrapErrors (wrap : ε → ε') (m : StateT σ (Except ε) α) : StateT σ (Except ε') α :=
  fun s => (m s).mapError wrap

/-- From `s` the program with checks ends as the one without them. -/
def Silent (wrap : ε → ε') (m' : StateT σ (Except ε') α) (m : StateT σ (Except ε) α) (s : σ) :
    Prop :=
  m' s = wrapErrors wrap m s

/-- A result of the program is also its result from the idealised state. -/
def Steady (ideal : σ → σ) (m : StateT σ (Except ε) α) : Prop :=
  ∀ s a s', m s = .ok (a, s') → m (ideal s) = .ok (a, ideal s')

namespace Steady

variable {ideal : σ → σ} {m : StateT σ (Except ε) α}

theorem pure (a : α) : Steady ideal (Pure.pure a : StateT σ (Except ε) α) := by
  intro s b s' h
  cases h
  rfl

theorem throw (e : ε) : Steady ideal (MonadExcept.throw e : StateT σ (Except ε) α) := by
  intro s b s' h
  cases h

/-- A computation that does not look at the state. -/
theorem lift (x : Except ε α) : Steady ideal (liftM x : StateT σ (Except ε) α) := by
  cases x with
  | ok a => exact Steady.pure a
  | error e => exact Steady.throw e

theorem bind {f : α → StateT σ (Except ε) β} (hm : Steady ideal m)
    (hf : ∀ a, Steady ideal (f a)) : Steady ideal (m >>= f) := by
  intro s b s' h
  have hrun : ∀ s, (m >>= f) s = (m s >>= fun p => f p.1 p.2) := fun _ => rfl
  rw [hrun] at h ⊢
  cases hs : m s with
  | error e =>
    rw [hs] at h
    cases h
  | ok p =>
    obtain ⟨a, s₁⟩ := p
    rw [hs] at h
    rw [hm s a s₁ hs]
    exact hf a s₁ b s' h

/-- Going on with what both states have in common. -/
theorem get_bind {f : σ → StateT σ (Except ε) β} (hf : ∀ s, Steady ideal (f s))
    (hideal : ∀ s, f (ideal s) = f s) : Steady ideal (MonadState.get >>= f) := by
  intro s b s' h
  have hrun : ∀ s, (MonadState.get >>= f) s = f s s := fun _ => rfl
  rw [hrun] at h ⊢
  rw [hideal]
  exact hf s s b s' h

theorem modify {f : σ → σ} (h : ∀ s, f (ideal s) = ideal (f s)) :
    Steady ideal (modify f : StateT σ (Except ε) PUnit) := by
  intro s b s' hs
  cases hs
  exact congrArg (fun s' => Except.ok (PUnit.unit, s')) (h s)

/-- A specification from the idealised state. -/
theorem runs (hm : Steady ideal m) {E : ε → Prop} {Q : α → σ → Prop} {s s' : σ} {a : α}
    (h : Runs E m (ideal s) Q) (hs : m s = .ok (a, s')) : Q a (ideal s') :=
  h.ok a _ (hm s a s' hs)

end Steady

namespace Silent

variable {wrap : ε → ε'} {m : StateT σ (Except ε) α} {m' : StateT σ (Except ε') α} {s : σ}
  {f : α → StateT σ (Except ε) β} {f' : α → StateT σ (Except ε') β}

theorem pure (a : α) (s : σ) : Silent wrap (Pure.pure a) (Pure.pure a) s := rfl

theorem throw (e : ε) (s : σ) :
    Silent wrap (MonadExcept.throw (wrap e) : StateT σ (Except ε') α) (MonadExcept.throw e) s := rfl

/-- Sequencing. -/
theorem bind (h : Silent wrap m' m s)
    (hf : ∀ a s₁, m s = .ok (a, s₁) → Silent wrap (f' a) (f a) s₁) :
    Silent wrap (m' >>= f') (m >>= f) s := by
  have hrun : (m >>= f) s = (m s >>= fun p => f p.1 p.2) := rfl
  have hrun' : (m' >>= f') s = (m' s >>= fun p => f' p.1 p.2) := rfl
  unfold Silent wrapErrors at h ⊢
  rw [hrun, hrun', h]
  cases hs : m s with
  | error e => rfl
  | ok p => exact hf p.1 p.2 hs

/-- Sequencing, after a program that is specified from the idealised state. -/
theorem bind_of_runs {ideal : σ → σ} {E : ε → Prop} {Q : α → σ → Prop} (h : Silent wrap m' m s)
    (hm : Steady ideal m) (hruns : Runs E m (ideal s) Q)
    (hf : ∀ a s₁, Q a (ideal s₁) → Silent wrap (f' a) (f a) s₁) :
    Silent wrap (m' >>= f') (m >>= f) s :=
  h.bind fun a s₁ hs => hf a s₁ (hm.runs hruns hs)

/-- A check that does not fire leaves the state as it is. -/
theorem check_bind {a : α} {m : StateT σ (Except ε) β} (hcheck : m' s = .ok (a, s))
    (h : Silent wrap (f' a) m s) : Silent wrap (m' >>= f') m s := by
  have hrun : (m' >>= f') s = (m' s >>= fun p => f' p.1 p.2) := rfl
  unfold Silent at h ⊢
  rw [hrun, hcheck]
  exact h

theorem get_bind {f : σ → StateT σ (Except ε) β} {f' : σ → StateT σ (Except ε') β}
    (h : Silent wrap (f' s) (f s) s) :
    Silent wrap (MonadState.get >>= f') (MonadState.get >>= f) s :=
  h

end Silent

/-- From `s` the program with checks ends as the one without them, or it raises `alarm`. -/
def Watchful (wrap : ε → ε') (alarm : ε') (m' : StateT σ (Except ε') α) (m : StateT σ (Except ε) α)
    (s : σ) : Prop :=
  Silent wrap m' m s ∨ m' s = .error alarm

namespace Watchful

variable {wrap : ε → ε'} {alarm : ε'} {m : StateT σ (Except ε) α} {m' : StateT σ (Except ε') α}
  {s : σ} {f : α → StateT σ (Except ε) β} {f' : α → StateT σ (Except ε') β}

theorem bind (h : Watchful wrap alarm m' m s)
    (hf : ∀ a s₁, m s = .ok (a, s₁) → Watchful wrap alarm (f' a) (f a) s₁) :
    Watchful wrap alarm (m' >>= f') (m >>= f) s := by
  have hrun : (m >>= f) s = (m s >>= fun p => f p.1 p.2) := rfl
  have hrun' : (m' >>= f') s = (m' s >>= fun p => f' p.1 p.2) := rfl
  unfold Watchful Silent wrapErrors at h hf ⊢
  rw [hrun, hrun']
  rcases h with h | h
  · rw [h]
    cases hs : m s with
    | error e => exact Or.inl rfl
    | ok p => exact hf p.1 p.2 hs
  · rw [h]
    exact Or.inr rfl

/-- A check that may fire leaves the state as it is if it does not. -/
theorem check_bind {a : α} {m : StateT σ (Except ε) β}
    (hcheck : m' s = .ok (a, s) ∨ m' s = .error alarm) (h : Watchful wrap alarm (f' a) m s) :
    Watchful wrap alarm (m' >>= f') m s := by
  have hrun : (m' >>= f') s = (m' s >>= fun p => f' p.1 p.2) := rfl
  unfold Watchful Silent at h ⊢
  rw [hrun]
  rcases hcheck with hcheck | hcheck
  · rw [hcheck]
    exact h
  · rw [hcheck]
    exact Or.inr rfl

theorem get_bind {f : σ → StateT σ (Except ε) β} {f' : σ → StateT σ (Except ε') β}
    (h : Watchful wrap alarm (f' s) (f s) s) :
    Watchful wrap alarm (MonadState.get >>= f') (MonadState.get >>= f) s :=
  h

/-- A specification of the program is one of the program with checks. -/
theorem runs {E : ε → Prop} {Q : α → σ → Prop} {S : Prop} (h : Watchful wrap alarm m' m s)
    (hwrap : ∀ e, wrap e ≠ alarm) (hsilent : S → Silent wrap m' m s) (hruns : Runs E m s Q) :
    Runs (fun e' => (∃ e, E e ∧ e' = wrap e) ∨ e' = alarm ∧ ¬ S) m' s Q := by
  rcases h with h | h
  · unfold Silent wrapErrors at h
    cases hs : m s with
    | error e =>
      rw [hs] at h
      exact Runs.of_error h (Or.inl ⟨e, hruns.error e hs, rfl⟩)
    | ok p =>
      rw [hs] at h
      exact Runs.of_eq h (hruns.ok p.1 p.2 hs)
  · refine Runs.of_error h (Or.inr ⟨rfl, fun hS => ?_⟩)
    have hquiet := hsilent hS
    unfold Silent wrapErrors at hquiet
    rw [h] at hquiet
    cases hs : m s with
    | error e =>
      rw [hs] at hquiet
      exact hwrap e (Except.error.inj hquiet).symm
    | ok p =>
      rw [hs] at hquiet
      cases hquiet

end Watchful

end AirHuim.Library
