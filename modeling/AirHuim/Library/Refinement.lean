import AirHuim.Library.SharedProgram

/-!
# An object and the object that implements it

Programs over an abstract object are run on a concrete one. What the abstract
object leaves open, such as which of its operations fail, is a sequence of
choices that it consults as it goes; a concrete run settles them one after the
other, and is then the abstract run for a sequence that makes these choices.
-/

namespace AirHuim.Library

namespace Prog

variable {I : Interface} {α β : Type} {ν : Type*}

/-- From choice number `n` on, `f` makes the choices `cs`. -/
def Follows (f : ℕ → ν) (n : ℕ) (cs : List ν) : Prop := ∀ i c, cs[i]? = some c → f (n + i) = c

theorem follows_append {f : ℕ → ν} {n : ℕ} {cs ds : List ν} (h : Follows f n (cs ++ ds)) :
    Follows f n cs ∧ Follows f (n + cs.length) ds := by
  refine ⟨fun i c hi => h i c ?_, fun i d hi => ?_⟩
  · rwa [List.getElem?_append_left (List.getElem?_eq_some_iff.mp hi).1]
  · rw [Nat.add_assoc]
    exact h (cs.length + i) d (by rwa [List.getElem?_append_right (Nat.le_add_right _ _),
      Nat.add_sub_cancel_left])

/-- A sequence that makes the choices `cs` from the start. -/
theorem follows_getD (cs : List ν) (d : ν) : Follows (fun i => cs.getD i d) 0 cs := by
  intro i c hi
  simp [hi]

/-! ## Programs whose calls are safe -/

section Safe

variable {O : SharedObject I} {C : I.Op → O.State → Prop}

variable (O C) in
/-- Every call of the program is made in a state in which it meets `C`, and the
program ends with `Q`. -/
def Safe : Prog I α → O.State → (α → O.State → Prop) → Prop
  | .pure a, s, Q => Q a s
  | .call op k, s, Q => C op s ∧ Safe (k (O.exec op s).1) (O.exec op s).2 Q

theorem Safe.mono {p : Prog I α} {s : O.State} {Q Q' : α → O.State → Prop} (h : Safe O C p s Q)
    (hQ : ∀ a t, Q a t → Q' a t) : Safe O C p s Q' := by
  induction p generalizing s with
  | pure a => exact hQ a s h
  | call op k ih => exact ⟨h.1, ih _ h.2⟩

theorem Safe.bind {p : Prog I α} {f : α → Prog I β} {s : O.State} {Q : β → O.State → Prop}
    (h : Safe O C p s fun a t => Safe O C (f a) t Q) : Safe O C (p.bind f) s Q := by
  induction p generalizing s with
  | pure a => exact h
  | call op k ih => exact ⟨h.1, ih _ h.2⟩

theorem Safe.sound {p : Prog I α} {s : O.State} {Q : α → O.State → Prop} (h : Safe O C p s Q) :
    p.Calls O C s ∧ Q (p.run O s).1 (p.run O s).2 := by
  induction p generalizing s with
  | pure a => exact ⟨trivial, h⟩
  | call op k ih =>
    obtain ⟨hcalls, hQ⟩ := ih _ h.2
    exact ⟨⟨h.1, hcalls⟩, hQ⟩

/-- Programs that are safe wherever `Inv` holds and that keep it. -/
theorem callsAll_of_safe (Inv : O.State → Prop) {ps : List (Prog I α)} {s : O.State}
    (h : ∀ p ∈ ps, ∀ t, Inv t → Safe O C p t fun _ t' => Inv t') (hs : Inv s) :
    CallsAll O C ps s := by
  induction ps generalizing s with
  | nil => exact trivial
  | cons p ps ih =>
    obtain ⟨hcalls, hnext⟩ := (h p List.mem_cons_self s hs).sound
    exact ⟨hcalls, ih (fun p' hp' => h p' (List.mem_cons_of_mem p hp')) hnext⟩

end Safe

/-! ## Runs on the concrete object -/

section Implements

variable {K A : SharedObject I}

/-- `K` implements `A` for calls that meet `C`, as long as it stays `Within` a set
that it cannot come back to: it answers as `A` does for the choices `f`, of which
`A` has used `n`. -/
structure Implements (K A : SharedObject I) (Within : K.State → Prop) (C : I.Op → A.State → Prop)
    (R : (ℕ → ν) → ℕ → K.State → A.State → Prop) : Prop where
  back : ∀ op s, Within (K.exec op s).2 → Within s
  step : ∀ op n s, Within (K.exec op s).2 → ∃ cs, ∀ f t, Follows f n cs → R f n s t → C op t →
    (K.exec op s).1 = (A.exec op t).1 ∧ R f (n + cs.length) (K.exec op s).2 (A.exec op t).2

variable {Within : K.State → Prop} {C : I.Op → A.State → Prop}
  {R : (ℕ → ν) → ℕ → K.State → A.State → Prop}

theorem Implements.run (h : Implements K A Within C R) {p : Prog I α} (n : ℕ) {s : K.State}
    (hwithin : Within (p.run K s).2) :
    ∃ cs, ∀ f t, Follows f n cs → R f n s t → p.Calls A C t →
      (p.run K s).1 = (p.run A t).1 ∧ R f (n + cs.length) (p.run K s).2 (p.run A t).2 := by
  induction p generalizing n s with
  | pure a => exact ⟨[], fun f t _ hR _ => ⟨rfl, hR⟩⟩
  | call op k ih =>
    obtain ⟨cs, hstep⟩ := h.step op n s (within_of_run h.back hwithin)
    obtain ⟨ds, hrest⟩ := ih (K.exec op s).1 (n + cs.length) hwithin
    refine ⟨cs ++ ds, fun f t hf hR hcalls => ?_⟩
    obtain ⟨hcs, hds⟩ := follows_append hf
    obtain ⟨hanswer, hnext⟩ := hstep f t hcs hR hcalls.1
    have hcalls' := hcalls.2
    rw [← hanswer] at hcalls'
    rw [List.length_append, ← Nat.add_assoc, Prog.run, Prog.run, ← hanswer]
    exact hrest f _ hds hnext hcalls'

theorem Implements.runAll (h : Implements K A Within C R) {ps : List (Prog I α)} (n : ℕ)
    {s : K.State} (hwithin : Within (runAll K ps s).2) :
    ∃ cs, ∀ f t, Follows f n cs → R f n s t → CallsAll A C ps t →
      (Prog.runAll K ps s).1 = (Prog.runAll A ps t).1 ∧
        R f (n + cs.length) (Prog.runAll K ps s).2 (Prog.runAll A ps t).2 := by
  induction ps generalizing n s with
  | nil => exact ⟨[], fun f t _ hR _ => ⟨rfl, hR⟩⟩
  | cons p ps ih =>
    obtain ⟨cs, hfirst⟩ := h.run n (within_of_runAll h.back hwithin)
    obtain ⟨ds, hrest⟩ := ih (n + cs.length) hwithin
    refine ⟨cs ++ ds, fun f t hf hR hcalls => ?_⟩
    obtain ⟨hcs, hds⟩ := follows_append hf
    obtain ⟨hresult, hnext⟩ := hfirst f t hcs hR hcalls.1
    obtain ⟨hresults, hend⟩ := hrest f _ hds hnext hcalls.2
    rw [List.length_append, ← Nat.add_assoc]
    exact ⟨by simp only [Prog.runAll, hresult, hresults], hend⟩

end Implements

end Prog

end AirHuim.Library
