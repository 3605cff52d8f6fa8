import AirHuim.Library.Refinement

/-!
# Programs that may give up

A program that makes the calls of another one, until it ends, perhaps early, with a
result of a certain kind. Under every schedule, a run in which no such result comes
up is the run of the other programs.
-/

namespace AirHuim.Library

namespace Prog

variable {I : Interface} {α β : Type}

/-- `p` makes the calls of `q`, but may give up with a result in `S` at any point. -/
inductive Upto (S : α → Prop) : Prog I α → Prog I α → Prop
  | stop {a : α} (h : S a) (q : Prog I α) : Upto S (.pure a) q
  | pure (a : α) : Upto S (.pure a) (.pure a)
  | call (op : I.Op) {k k' : I.Res op → Prog I α} (h : ∀ r, Upto S (k r) (k' r)) :
      Upto S (.call op k) (.call op k')

variable {S : α → Prop} {p q : Prog I α} {ps qs : List (Prog I α)}

theorem Upto.refl (p : Prog I α) : Upto S p p := by
  induction p with
  | pure a => exact .pure a
  | call op k ih => exact .call op ih

theorem Upto.bind {S' : β → Prop} {f g : α → Prog I β} (h : Upto S p q)
    (hstop : ∀ a, S a → ∃ b, S' b ∧ f a = .pure b) (hfg : ∀ a, Upto S' (f a) (g a)) :
    Upto S' (p.bind f) (q.bind g) := by
  induction h with
  | @stop a ha q =>
    obtain ⟨b, hb, hfa⟩ := hstop a ha
    rw [Prog.bind, hfa]
    exact .stop hb _
  | pure a => exact hfg a
  | call op _ ih => exact .call op ih

variable {O : SharedObject I}

theorem Upto.run_eq (h : Upto S p q) (s : O.State) (hS : ¬ S (p.run O s).1) :
    p.run O s = q.run O s := by
  induction h generalizing s with
  | stop ha q => exact (hS ha).elim
  | pure a => rfl
  | call op _ ih => exact ih _ _ hS

/-- What holds of all calls and results of `q` holds of `p` until it gives up. -/
theorem Upto.wp [Preorder O.State] {Q : List I.Op → O.State → α → Prop} (h : Upto S p q)
    {s : O.State}
    (hq : Wp O q s Q) : Wp O p s fun calls t a => Q calls t a ∨ S a := by
  induction h generalizing s Q with
  | stop ha q => exact fun _ _ => Or.inr ha
  | pure a => exact fun t ht => Or.inl (hq t ht)
  | call op _ ih => exact fun t ht => ih _ (hq t ht)

/-- A program that gives up early has kept what its calls keep. -/
theorem Upto.safe {C : I.Op → O.State → Prop} (Inv : O.State → Prop)
    (hexec : ∀ op t, Inv t → C op t → Inv (O.exec op t).2) (h : Upto S p q) {s : O.State}
    {Q : α → O.State → Prop} (hs : Inv s) (hq : Safe O C q s Q) :
    Safe O C p s fun _ t => Inv t := by
  induction h generalizing s with
  | stop ha q => exact hs
  | pure a => exact hs
  | call op _ ih => exact ⟨hq.1, ih _ (hexec op s hs hq.1) hq.2⟩

theorem runAll_upto (h : List.Forall₂ (Upto S) ps qs) (s : O.State)
    (hS : ∀ a ∈ (runAll O ps s).1, ¬ S a) : runAll O ps s = runAll O qs s := by
  induction h generalizing s with
  | nil => rfl
  | cons hp _ ih =>
    have hfirst := hp.run_eq s (hS _ List.mem_cons_self)
    have hrest := ih _ fun a ha => hS a (List.mem_cons_of_mem _ ha)
    rw [runAll, runAll, hrest, hfirst]

/-- A finished program stays as it is. -/
theorem pure_mem_stepAt {a : α} (ha : .pure a ∈ ps) (i : ℕ) (s : O.State) :
    .pure a ∈ (stepAt O i ps s).1 := by
  induction ps generalizing i with
  | nil => exact (List.not_mem_nil ha).elim
  | cons p ps ih =>
    cases i with
    | succ i =>
      rw [stepAt]
      rcases List.mem_cons.mp ha with rfl | ha
      · exact List.mem_cons_self
      · exact List.mem_cons_of_mem p (ih ha i)
    | zero =>
      cases p with
      | pure b => exact ha
      | call op k =>
        rcases List.mem_cons.mp ha with h | ha
        · cases h
        · exact List.mem_cons_of_mem _ ha

theorem mem_runAll {a : α} (ha : .pure a ∈ ps) (s : O.State) : a ∈ (runAll O ps s).1 := by
  induction ps generalizing s with
  | nil => exact (List.not_mem_nil ha).elim
  | cons p ps ih =>
    rcases List.mem_cons.mp ha with rfl | ha
    · exact List.mem_cons_self
    · exact List.mem_cons_of_mem _ (ih ha _)

theorem mem_interleave {a : α} (ha : .pure a ∈ ps) (sched : List ℕ) (s : O.State) :
    a ∈ (interleave O sched ps s).1 := by
  induction sched generalizing ps s with
  | nil => exact mem_runAll ha s
  | cons i sched ih => exact ih (pure_mem_stepAt ha i s) _

/-- Unless a program has given up, both lists of programs make the same call. -/
theorem stepAt_upto (h : List.Forall₂ (Upto S) ps qs) (i : ℕ) (s : O.State) :
    (∃ a, S a ∧ .pure a ∈ ps) ∨ (stepAt O i ps s).2 = (stepAt O i qs s).2 ∧
      List.Forall₂ (Upto S) (stepAt O i ps s).1 (stepAt O i qs s).1 := by
  induction h generalizing i with
  | nil => exact Or.inr ⟨by cases i <;> rfl, by cases i <;> exact .nil⟩
  | @cons p q ps qs hp hps ih =>
    cases i with
    | succ i =>
      rw [stepAt, stepAt]
      rcases ih i with ⟨a, ha, hmem⟩ | ⟨hstate, hprogs⟩
      · exact Or.inl ⟨a, ha, List.mem_cons_of_mem p hmem⟩
      · exact Or.inr ⟨hstate, .cons hp hprogs⟩
    | zero =>
      cases hp with
      | stop ha q => exact Or.inl ⟨_, ha, List.mem_cons_self⟩
      | pure a => exact Or.inr ⟨rfl, .cons (.pure a) hps⟩
      | call op hk => exact Or.inr ⟨rfl, .cons (hk _) hps⟩

theorem interleave_upto (h : List.Forall₂ (Upto S) ps qs) (sched : List ℕ) (s : O.State)
    (hS : ∀ a ∈ (interleave O sched ps s).1, ¬ S a) :
    interleave O sched ps s = interleave O sched qs s := by
  induction sched generalizing ps qs s with
  | nil => exact runAll_upto h s hS
  | cons i sched ih =>
    rcases stepAt_upto h i s with ⟨a, ha, hmem⟩ | ⟨hstate, hprogs⟩
    · exact (hS a (mem_interleave hmem (i :: sched) s) ha).elim
    · have hrest := ih hprogs _ hS
      rw [interleave, interleave, hrest, hstate]

end Prog

end AirHuim.Library
