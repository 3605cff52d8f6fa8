import Mathlib.Tactic

/-!
# Runs of a state machine

A run is a list of events applied in turn. A property of states holds along a
run if it holds before the first event and after each; a condition on steps
holds along a run if every event meets it in the state it finds. An invariant
carries the one from the other, and where the condition is exactly what keeps
the property, the two are equivalent.
-/

namespace AirHuim.Library

variable {σ ε : Type*} (step : σ → ε → σ)

def run (s : σ) (events : List ε) : σ := events.foldl step s

/-- `P` holds in every state of the run. -/
def AllStates (P : σ → Prop) : σ → List ε → Prop
  | s, [] => P s
  | s, e :: es => P s ∧ AllStates P (step s e) es

/-- Every event of the run meets `C` in the state in which it occurs. -/
def AllSteps (C : σ → ε → Prop) : σ → List ε → Prop
  | _, [] => True
  | s, e :: es => C s e ∧ AllSteps C (step s e) es

/-- What is required of an optional value is decided by looking at it. -/
instance decidableForallSome {α : Type*} (o : Option α) (P : α → Prop) [DecidablePred P] :
    Decidable (∀ a, o = some a → P a) :=
  match o with
  | none => isTrue fun _ h => (Option.some_ne_none _ h.symm).elim
  | some a => decidable_of_iff (P a) ⟨fun h _ ha => Option.some.inj ha ▸ h, fun h => h a rfl⟩

instance decidableExistsSome {α : Type*} (o : Option α) (P : α → Prop) [DecidablePred P] :
    Decidable (∃ a, o = some a ∧ P a) :=
  match o with
  | none => isFalse fun ⟨_, h, _⟩ => Option.some_ne_none _ h.symm
  | some a =>
    decidable_of_iff (P a) ⟨fun h => ⟨a, rfl, h⟩, fun ⟨_, ha, h⟩ => Option.some.inj ha ▸ h⟩

instance decidableAllSteps (C : σ → ε → Prop) [∀ s e, Decidable (C s e)] :
    ∀ s events, Decidable (AllSteps step C s events)
  | _, [] => isTrue trivial
  | s, e :: es => @instDecidableAnd _ _ _ (decidableAllSteps C (step s e) es)

variable {step} {P I : σ → Prop} {C D : σ → ε → Prop} {s : σ} {events : List ε}

theorem allSteps_append {later : List ε} :
    AllSteps step C s (events ++ later) ↔
      AllSteps step C s events ∧ AllSteps step C (run step s events) later := by
  induction events generalizing s with
  | nil => exact (true_and _).symm ▸ Iff.rfl
  | cons e es ih => exact (and_congr_right fun _ => ih).trans and_assoc.symm

theorem AllSteps.mono (hCD : ∀ s e, C s e → D s e) (h : AllSteps step C s events) :
    AllSteps step D s events := by
  induction events generalizing s with
  | nil => trivial
  | cons e es ih => exact ⟨hCD s e h.1, ih h.2⟩

theorem AllStates.mono (hPI : ∀ s, I s → P s) (h : AllStates step I s events) :
    AllStates step P s events := by
  induction events generalizing s with
  | nil => exact hPI s h
  | cons e es ih => exact ⟨hPI s h.1, ih h.2⟩

theorem AllStates.last (h : AllStates step P s events) : P (run step s events) := by
  induction events generalizing s with
  | nil => exact h
  | cons e es ih => exact ih h.2

/-- An invariant that every good step keeps holds along a run of good steps. -/
theorem AllStates.of_steps (hI : ∀ s e, I s → C s e → I (step s e)) (h : I s)
    (hsteps : AllSteps step C s events) : AllStates step I s events := by
  induction events generalizing s with
  | nil => exact h
  | cons e es ih => exact ⟨h, ih (hI s e h hsteps.1) hsteps.2⟩

/-- An invariant that every step keeps. -/
theorem AllStates.of_forall (hI : ∀ s e, I s → I (step s e)) (h : I s) (events : List ε) :
    AllStates step I s events := by
  induction events generalizing s with
  | nil => exact h
  | cons e es ih => exact ⟨h, ih (hI s e h)⟩

/-- If from good states a step that is not good breaks the property, then the
property holds along a run exactly if all its steps are good. -/
theorem allStates_iff (hI : ∀ s e, I s → C s e → I (step s e)) (hP : ∀ s, I s → P s)
    (hC : ∀ s e, I s → P (step s e) → C s e) (h : I s) :
    AllStates step P s events ↔ AllSteps step C s events := by
  constructor
  · intro hstates
    induction events generalizing s with
    | nil => trivial
    | cons e es ih =>
      have hnext : P (step s e) := by
        cases es with
        | nil => exact hstates.2
        | cons e' es' => exact hstates.2.1
      have hgood := hC s e h hnext
      exact ⟨hgood, ih (hI s e h hgood) hstates.2⟩
  · intro hsteps
    exact (AllStates.of_steps hI h hsteps).mono hP

/-! ## Parties of which one moves -/

/-- What a sum over the parties loses and gains when party `t` moves. -/
theorem sum_map_set {α : Type*} {parties : List α} {t : ℕ} {a : α} (h : parties[t]? = some a)
    (b : α) (f : α → ℕ) :
    ((parties.set t b).map f).sum + f a = (parties.map f).sum + f b := by
  induction parties generalizing t with
  | nil => simp at h
  | cons c parties ih =>
    cases t with
    | zero =>
      obtain rfl : c = a := by simpa using h
      simp only [List.set_cons_zero, List.map_cons, List.sum_cons]
      omega
    | succ t =>
      have hrest := ih (t := t) (by simpa using h)
      simp only [List.set_cons_succ, List.map_cons, List.sum_cons]
      omega

/-- What all parties have, they still have if the one that moved has it. -/
theorem all_set {α : Type*} {parties : List α} {P : α → Prop} (h : ∀ a ∈ parties, P a) {b : α}
    (hb : P b) (t : ℕ) (a : α) (ha : a ∈ parties.set t b) : P a :=
  (List.mem_or_eq_of_mem_set ha).elim (h a) fun heq => heq ▸ hb

end AirHuim.Library
