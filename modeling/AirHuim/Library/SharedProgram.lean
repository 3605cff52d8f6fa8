import Mathlib.Data.List.Forall2
import Mathlib.Data.List.Perm.Basic
import Mathlib.Order.Basic
import Mathlib.Tactic

/-!
# Programs that share one object

A program is a tree of calls to the operations of a shared object, each of which
is atomic. Several programs run under a schedule, a list saying who moves next;
what is left when it is used up is run to completion in order, so that every
interleaving is the one of some schedule.

A program is verified on its own, against an environment that may move the
object upwards in a preorder between any two of its calls. If every operation
moves the object upwards, this is what the other programs do, and the verified
programs meet their specifications under every schedule.
-/

namespace AirHuim.Library

/-- The partner of an element. -/
theorem exists_of_forall₂ {α β : Type*} {R : α → β → Prop} {as : List α} {bs : List β}
    (h : List.Forall₂ R as bs) {a : α} (ha : a ∈ as) : ∃ b ∈ bs, R a b := by
  induction h with
  | nil => exact (List.not_mem_nil ha).elim
  | cons hab _ ih =>
    rcases List.mem_cons.mp ha with rfl | ha
    · exact ⟨_, List.mem_cons_self, hab⟩
    · obtain ⟨b, hb, hR⟩ := ih ha
      exact ⟨b, List.mem_cons_of_mem _ hb, hR⟩

/-- The operations of an object and the type of each one's result. -/
structure Interface where
  Op : Type
  Res : Op → Type

inductive Prog (I : Interface) (α : Type) : Type
  | pure (a : α) : Prog I α
  | call (op : I.Op) (k : I.Res op → Prog I α) : Prog I α

/-- An object: its states, and what each operation answers and does to them. -/
structure SharedObject (I : Interface) where
  State : Type
  exec : (op : I.Op) → State → I.Res op × State

namespace Prog

variable {I : Interface} {α β : Type}

def bind : Prog I α → (α → Prog I β) → Prog I β
  | .pure a, f => f a
  | .call op k, f => .call op fun r => (k r).bind f

instance : Monad (Prog I) where
  pure := Prog.pure
  bind := Prog.bind

def perform (op : I.Op) : Prog I (I.Res op) := .call op .pure

variable (O : SharedObject I)

/-- The program alone. -/
def run : Prog I α → O.State → α × O.State
  | .pure a, s => (a, s)
  | .call op k, s => (k (O.exec op s).1).run (O.exec op s).2

/-- The next call of the `i`-th program; a finished one does not move. -/
def stepAt : ℕ → List (Prog I α) → O.State → List (Prog I α) × O.State
  | _, [], s => ([], s)
  | 0, .pure a :: ps, s => (.pure a :: ps, s)
  | 0, .call op k :: ps, s => (k (O.exec op s).1 :: ps, (O.exec op s).2)
  | i + 1, p :: ps, s => (p :: (stepAt i ps s).1, (stepAt i ps s).2)

/-- The programs one after the other. -/
def runAll : List (Prog I α) → O.State → List α × O.State
  | [], s => ([], s)
  | p :: ps, s => ((p.run O s).1 :: (runAll ps (p.run O s).2).1, (runAll ps (p.run O s).2).2)

/-- The programs under a schedule. -/
def interleave : List ℕ → List (Prog I α) → O.State → List α × O.State
  | [], ps, s => runAll O ps s
  | i :: sched, ps, s => interleave sched (stepAt O i ps s).1 (stepAt O i ps s).2

/-- The state after a log of operations. -/
def replay (log : List I.Op) (s : O.State) : O.State :=
  log.foldl (fun s op => (O.exec op s).2) s

section Logic

variable [Preorder O.State]

/-- Whatever the environment does, the program's calls and result satisfy `Q`,
which also speaks of any state the object is in from then on. -/
def Wp : Prog I α → O.State → (List I.Op → O.State → α → Prop) → Prop
  | .pure a, s, Q => ∀ s', s ≤ s' → Q [] s' a
  | .call op k, s, Q => ∀ s', s ≤ s' →
      Wp (k (O.exec op s').1) (O.exec op s').2 fun calls => Q (op :: calls)

variable {O}

theorem Wp.mono {p : Prog I α} {s s' : O.State} {Q Q' : List I.Op → O.State → α → Prop}
    (h : Wp O p s Q) (hs : s ≤ s') (hQ : ∀ calls t a, Q calls t a → Q' calls t a) :
    Wp O p s' Q' := by
  induction p generalizing s s' Q Q' with
  | pure a => exact fun t ht => hQ [] t a (h t (hs.trans ht))
  | call op k ih =>
    intro t ht
    exact ih _ (h t (hs.trans ht)) le_rfl fun calls => hQ (op :: calls)

/-- What holds at the end holds from then on. -/
theorem Wp.later {p : Prog I α} {s : O.State} {Q : List I.Op → O.State → α → Prop}
    (h : Wp O p s Q) : Wp O p s fun calls t a => ∀ t', t ≤ t' → Q calls t' a := by
  induction p generalizing s Q with
  | pure a => exact fun t ht t' ht' => h t' (ht.trans ht')
  | call op k ih => exact fun t ht => ih _ (h t ht)

theorem Wp.bind {p : Prog I α} {f : α → Prog I β} {s : O.State}
    {Q : List I.Op → O.State → β → Prop}
    (h : Wp O p s fun calls t a => Wp O (f a) t fun calls' => Q (calls ++ calls')) :
    Wp O (p.bind f) s Q := by
  induction p generalizing s Q with
  | pure a => exact h s le_rfl
  | call op k ih => exact fun t ht => ih _ (h t ht)

/-- A program verified against every environment meets its specification alone. -/
theorem Wp.run {p : Prog I α} {s : O.State} {Q : List I.Op → O.State → α → Prop}
    (h : Wp O p s Q) :
    ∃ calls, Q calls (p.run O s).2 (p.run O s).1 ∧ (p.run O s).2 = replay O calls s ∧
      ∀ t, (p.run O s).2 ≤ t → Q calls t (p.run O s).1 := by
  induction p generalizing s Q with
  | pure a => exact ⟨[], h s le_rfl, rfl, h⟩
  | call op k ih =>
    obtain ⟨calls, hQ, hs, hup⟩ := ih _ (h s le_rfl)
    exact ⟨op :: calls, hQ, hs, hup⟩

omit [Preorder O.State] in
theorem replay_append (xs ys : List I.Op) (s : O.State) :
    replay O (xs ++ ys) s = replay O ys (replay O xs s) :=
  List.foldl_append

theorem le_replay (hup : ∀ op (s : O.State), s ≤ (O.exec op s).2) (log : List I.Op)
    (s : O.State) : s ≤ replay O log s := by
  induction log generalizing s with
  | nil => exact le_rfl
  | cons op log ih => exact (hup op s).trans (ih _)

/-- The calls each program made, with its result, meet its specification. -/
def Meets (Qs : List (List I.Op → O.State → α → Prop)) (s : O.State)
    (ends : List (List I.Op × α)) : Prop :=
  List.Forall₂ (fun (e : List I.Op × α) Q => Q e.1 s e.2) ends Qs

theorem runAll_meets (hup : ∀ op (s : O.State), s ≤ (O.exec op s).2) {ps : List (Prog I α)}
    {Qs : List (List I.Op → O.State → α → Prop)} {s : O.State}
    (h : List.Forall₂ (fun p Q => Wp O p s Q) ps Qs) :
    ∃ log ends, log.Perm (ends.map Prod.fst).flatten ∧ (runAll O ps s).1 = ends.map Prod.snd ∧
      (runAll O ps s).2 = replay O log s ∧ Meets Qs (runAll O ps s).2 ends := by
  induction ps generalizing Qs s with
  | nil =>
    cases h
    exact ⟨[], [], List.Perm.refl _, rfl, rfl, List.Forall₂.nil⟩
  | cons p ps ih =>
    cases h with
    | cons hp hps =>
      obtain ⟨calls, -, hs, hlater⟩ := hp.run
      have hle : s ≤ (p.run O s).2 := hs ▸ le_replay hup calls s
      obtain ⟨log, ends, hperm, hres, hstate, hmeets⟩ :=
        ih (hps.imp fun _ _ hw => hw.mono hle fun _ _ _ h => h)
      have hend : (p.run O s).2 ≤ (runAll O ps (p.run O s).2).2 := hstate ▸ le_replay hup log _
      refine ⟨calls ++ log, (calls, (p.run O s).1) :: ends, ?_, ?_, ?_, ?_⟩
      · simpa using hperm.append_left calls
      · simp [runAll, hres]
      · rw [replay_append, ← hs]
        exact hstate
      · exact List.Forall₂.cons (hlater _ hend) hmeets

/-- One move of one program: afterwards every program is still verified, for a
specification that the call just made has been taken out of. -/
theorem stepAt_meets (hup : ∀ op (s : O.State), s ≤ (O.exec op s).2) (i : ℕ)
    {ps : List (Prog I α)} {Qs : List (List I.Op → O.State → α → Prop)} {s : O.State}
    (h : List.Forall₂ (fun p Q => Wp O p s Q) ps Qs) :
    ∃ (log : List I.Op) (Qs' : List (List I.Op → O.State → α → Prop)),
      (stepAt O i ps s).2 = replay O log s ∧
      List.Forall₂ (fun p Q => Wp O p (stepAt O i ps s).2 Q) (stepAt O i ps s).1 Qs' ∧
      ∀ t ends', Meets Qs' t ends' → ∃ ends, Meets Qs t ends ∧
        ends.map Prod.snd = ends'.map Prod.snd ∧
        (ends.map Prod.fst).flatten.Perm (log ++ (ends'.map Prod.fst).flatten) := by
  induction ps generalizing i Qs with
  | nil =>
    cases h
    refine ⟨[], [], ?_, ?_, fun t ends' h' => ⟨ends', h', rfl, List.Perm.refl _⟩⟩
    · cases i <;> rfl
    · cases i <;> exact List.Forall₂.nil
  | cons p ps ih =>
    cases h with
    | @cons _ Q _ Qs hp hps =>
      cases i with
      | zero =>
        cases p with
        | pure a =>
          exact ⟨[], Q :: Qs, rfl, List.Forall₂.cons hp hps,
            fun t ends' h' => ⟨ends', h', rfl, List.Perm.refl _⟩⟩
        | call op k =>
          refine ⟨[op], (fun calls => Q (op :: calls)) :: Qs, rfl, List.Forall₂.cons ?_ ?_, ?_⟩
          · exact hp s le_rfl
          · exact hps.imp fun _ _ hw => hw.mono (hup op s) fun _ _ _ h => h
          · intro t ends' h'
            cases h' with
            | @cons e _ ends' _ he hends =>
              exact ⟨(op :: e.1, e.2) :: ends', List.Forall₂.cons he hends, rfl, by simp⟩
      | succ i =>
        obtain ⟨log, Qs', hs, hps', hback⟩ := ih i hps
        have hle : s ≤ (stepAt O i ps s).2 := hs ▸ le_replay hup log s
        have hstep : stepAt O (i + 1) (p :: ps) s =
            (p :: (stepAt O i ps s).1, (stepAt O i ps s).2) := by rw [stepAt]
        rw [hstep]
        refine ⟨log, Q :: Qs', hs, List.Forall₂.cons ?_ hps', ?_⟩
        · exact hp.mono hle fun _ _ _ h => h
        · intro t ends' h'
          cases h' with
          | @cons e _ ends' _ he hends =>
            obtain ⟨ends, hmeets, hres, hperm⟩ := hback t ends' hends
            refine ⟨e :: ends, List.Forall₂.cons he hmeets, by simp [hres], ?_⟩
            simp only [List.map_cons, List.flatten_cons]
            calc
              (e.1 ++ (ends.map Prod.fst).flatten).Perm
                  (e.1 ++ (log ++ (ends'.map Prod.fst).flatten)) := hperm.append_left _
              _ = (e.1 ++ log) ++ (ends'.map Prod.fst).flatten := by rw [List.append_assoc]
              List.Perm _ ((log ++ e.1) ++ (ends'.map Prod.fst).flatten) :=
                List.perm_append_comm.append_right _
              _ = log ++ (e.1 ++ (ends'.map Prod.fst).flatten) := by rw [List.append_assoc]

/-- Under every schedule, every verified program meets its specification, and
the object is where some log takes it that consists of the programs' calls. -/
theorem interleave_meets (hup : ∀ op (s : O.State), s ≤ (O.exec op s).2) (sched : List ℕ)
    {ps : List (Prog I α)} {Qs : List (List I.Op → O.State → α → Prop)} {s : O.State}
    (h : List.Forall₂ (fun p Q => Wp O p s Q) ps Qs) :
    ∃ log ends, log.Perm (ends.map Prod.fst).flatten ∧
      (interleave O sched ps s).1 = ends.map Prod.snd ∧
      (interleave O sched ps s).2 = replay O log s ∧
      Meets Qs (interleave O sched ps s).2 ends := by
  induction sched generalizing ps Qs s with
  | nil => exact runAll_meets hup h
  | cons i sched ih =>
    obtain ⟨log, Qs', hs, hps', hback⟩ := stepAt_meets hup i h
    obtain ⟨log', ends', hperm', hres', hstate', hmeets'⟩ := ih hps'
    obtain ⟨ends, hmeets, hres, hperm⟩ := hback _ ends' hmeets'
    refine ⟨log ++ log', ends, ?_, ?_, ?_, hmeets⟩
    · exact (hperm'.append_left log).trans hperm.symm
    · rw [interleave, hres', hres]
    · rw [replay_append, ← hs]
      exact hstate'

end Logic

/-! ## Runs from related states

Two runs of the same programs take the same course if the operations answer alike
in related states. The relation may hold for as long only as the first run stays
in a set that it cannot come back to. -/

section Related

variable {O} {R : O.State → O.State → Prop} {Within : O.State → Prop}
  (hback : ∀ op s, Within (O.exec op s).2 → Within s)

include hback

theorem within_of_run {p : Prog I α} {s : O.State} (h : Within (p.run O s).2) : Within s := by
  induction p generalizing s with
  | pure a => exact h
  | call op k ih => exact hback op s (ih _ h)

theorem within_of_runAll {ps : List (Prog I α)} {s : O.State} (h : Within (runAll O ps s).2) :
    Within s := by
  induction ps generalizing s with
  | nil => exact h
  | cons p ps ih => exact within_of_run hback (ih h)

theorem within_of_stepAt {i : ℕ} {ps : List (Prog I α)} {s : O.State}
    (h : Within (stepAt O i ps s).2) : Within s := by
  induction ps generalizing i with
  | nil => cases i <;> exact h
  | cons p ps ih =>
    cases i with
    | zero =>
      cases p with
      | pure a => exact h
      | call op k => exact hback op s h
    | succ i =>
      rw [stepAt] at h
      exact ih h

theorem within_of_interleave {sched : List ℕ} {ps : List (Prog I α)} {s : O.State}
    (h : Within (interleave O sched ps s).2) : Within s := by
  induction sched generalizing ps s with
  | nil => exact within_of_runAll hback h
  | cons i sched ih => exact within_of_stepAt hback (ih h)

variable (hsim : ∀ op s t, R s t → Within (O.exec op s).2 →
  (O.exec op s).1 = (O.exec op t).1 ∧ R (O.exec op s).2 (O.exec op t).2)

include hsim

theorem run_related {p : Prog I α} {s t : O.State} (hR : R s t) (h : Within (p.run O s).2) :
    (p.run O s).1 = (p.run O t).1 ∧ R (p.run O s).2 (p.run O t).2 := by
  induction p generalizing s t with
  | pure a => exact ⟨rfl, hR⟩
  | call op k ih =>
    obtain ⟨hanswer, hnext⟩ := hsim op s t hR (within_of_run hback h)
    have hrest := ih (O.exec op s).1 hnext h
    rw [run, run, ← hanswer]
    exact hrest

theorem runAll_related {ps : List (Prog I α)} {s t : O.State} (hR : R s t)
    (h : Within (runAll O ps s).2) :
    (runAll O ps s).1 = (runAll O ps t).1 ∧ R (runAll O ps s).2 (runAll O ps t).2 := by
  induction ps generalizing s t with
  | nil => exact ⟨rfl, hR⟩
  | cons p ps ih =>
    obtain ⟨hresult, hnext⟩ := run_related hback hsim hR (within_of_runAll hback h)
    obtain ⟨hresults, hend⟩ := ih hnext h
    exact ⟨by simp only [runAll, hresult, hresults], hend⟩

omit hback in
theorem stepAt_related {i : ℕ} {ps : List (Prog I α)} {s t : O.State} (hR : R s t)
    (h : Within (stepAt O i ps s).2) :
    (stepAt O i ps s).1 = (stepAt O i ps t).1 ∧ R (stepAt O i ps s).2 (stepAt O i ps t).2 := by
  induction ps generalizing i with
  | nil => cases i <;> exact ⟨rfl, hR⟩
  | cons p ps ih =>
    cases i with
    | zero =>
      cases p with
      | pure a => exact ⟨rfl, hR⟩
      | call op k =>
        obtain ⟨hanswer, hnext⟩ := hsim op s t hR h
        exact ⟨by simp only [stepAt, hanswer], hnext⟩
    | succ i =>
      rw [stepAt] at h
      obtain ⟨hprogs, hnext⟩ := ih h
      rw [stepAt, stepAt]
      exact ⟨congrArg (p :: ·) hprogs, hnext⟩

theorem interleave_related {sched : List ℕ} {ps : List (Prog I α)} {s t : O.State} (hR : R s t)
    (h : Within (interleave O sched ps s).2) :
    (interleave O sched ps s).1 = (interleave O sched ps t).1 ∧
      R (interleave O sched ps s).2 (interleave O sched ps t).2 := by
  induction sched generalizing ps s t with
  | nil => exact runAll_related hback hsim hR h
  | cons i sched ih =>
    obtain ⟨hprogs, hnext⟩ := stepAt_related hsim hR (within_of_interleave hback h)
    have hrest := ih hnext h
    rw [interleave, interleave, ← hprogs]
    exact hrest

end Related

/-! ## Runs under an invariant

Where every operation keeps an invariant of the object, a program may be verified
against all states that satisfy it. -/

section Invariant

variable {O} (Inv : O.State → Prop)

/-- Whatever states with the invariant its calls meet, the program's calls and
result satisfy `Q`. -/
def Under : Prog I α → (List I.Op → α → Prop) → Prop
  | .pure a, Q => Q [] a
  | .call op k, Q => ∀ s, Inv s → Under (k (O.exec op s).1) fun calls => Q (op :: calls)

variable {Inv}

theorem Under.mono {p : Prog I α} {Q Q' : List I.Op → α → Prop} (h : Under Inv p Q)
    (hQ : ∀ calls a, Q calls a → Q' calls a) : Under Inv p Q' := by
  induction p generalizing Q Q' with
  | pure a => exact hQ [] a h
  | call op k ih => exact fun s hs => ih _ (h s hs) fun calls => hQ (op :: calls)

theorem Under.bind {p : Prog I α} {f : α → Prog I β} {Q : List I.Op → β → Prop}
    (h : Under Inv p fun calls a => Under Inv (f a) fun calls' => Q (calls ++ calls')) :
    Under Inv (p.bind f) Q := by
  induction p generalizing Q with
  | pure a => exact h
  | call op k ih => exact fun s hs => ih _ (h s hs)

/-- The order in which a state is below those that have the invariant if it has. -/
abbrev keeping (Inv : O.State → Prop) : Preorder O.State where
  le s t := Inv s → Inv t
  le_refl _ := id
  le_trans _ _ _ hst htu := htu ∘ hst

theorem Under.wp (hinv : ∀ op (s : O.State), Inv s → Inv (O.exec op s).2) {p : Prog I α}
    {Q : List I.Op → α → Prop} (h : Under Inv p Q) {s : O.State} (hs : Inv s) :
    @Wp I α O (keeping Inv) p s fun calls _ a => Q calls a := by
  induction p generalizing s Q with
  | pure a => exact fun _ _ => h
  | call op k ih => exact fun t ht => ih _ (h t (ht hs)) (hinv op t (ht hs))

/-- Under every schedule, every program verified under the invariant meets its
specification. -/
theorem interleave_under (hinv : ∀ op (s : O.State), Inv s → Inv (O.exec op s).2) (sched : List ℕ)
    {ps : List (Prog I α)} {Qs : List (List I.Op → α → Prop)} {s : O.State} (hs : Inv s)
    (h : List.Forall₂ (fun p Q => Under Inv p Q) ps Qs) :
    ∃ log ends, log.Perm (ends.map Prod.fst).flatten ∧
      (interleave O sched ps s).1 = ends.map Prod.snd ∧
      (interleave O sched ps s).2 = replay O log s ∧
      List.Forall₂ (fun (e : List I.Op × α) Q => Q e.1 e.2) ends Qs := by
  have hwp : List.Forall₂ (fun p Q => @Wp I α O (keeping Inv) p s Q) ps
      (Qs.map fun Q calls _ a => Q calls a) := by
    rw [List.forall₂_map_right_iff]
    exact h.imp fun p Q hp => hp.wp hinv hs
  obtain ⟨log, ends, hperm, hres, hstate, hmeets⟩ :=
    @interleave_meets I α O (keeping Inv) (fun op s => hinv op s) sched ps _ s hwp
  exact ⟨log, ends, hperm, hres, hstate, List.forall₂_map_right_iff.mp hmeets⟩

end Invariant

/-! ## Programs alone, state by state

An observer sees every call with its answer and keeps notes beside the object,
from which the programs cannot read. -/

section Alone

/-- The object with the notes of an observer. -/
abbrev watched {μ : Type} (O : SharedObject I) (note : (op : I.Op) → I.Res op → μ → μ) :
    SharedObject I where
  State := O.State × μ
  exec op s := ((O.exec op s.1).1, ((O.exec op s.1).2, note op (O.exec op s.1).1 s.2))

/-- The states that the program alone goes through, with the last. -/
def states : Prog I α → O.State → List O.State
  | .pure _, s => [s]
  | .call op k, s => s :: (k (O.exec op s).1).states (O.exec op s).2

/-- Those of the programs one after the other. -/
def statesAll : List (Prog I α) → O.State → List O.State
  | [], s => [s]
  | p :: ps, s => p.states O s ++ statesAll ps (p.run O s).2

/-- Every call is made in a state in which it meets `C`. -/
def Calls (C : I.Op → O.State → Prop) : Prog I α → O.State → Prop
  | .pure _, _ => True
  | .call op k, s => C op s ∧ Calls C (k (O.exec op s).1) (O.exec op s).2

def CallsAll (C : I.Op → O.State → Prop) : List (Prog I α) → O.State → Prop
  | [], _ => True
  | p :: ps, s => p.Calls O C s ∧ CallsAll C ps (p.run O s).2

instance decidableCalls (C : I.Op → O.State → Prop) [∀ op s, Decidable (C op s)] :
    ∀ (p : Prog I α) s, Decidable (p.Calls O C s)
  | .pure _, _ => isTrue trivial
  | .call op k, s =>
    @instDecidableAnd _ _ _ (decidableCalls C (k (O.exec op s).1) (O.exec op s).2)

instance decidableCallsAll (C : I.Op → O.State → Prop) [∀ op s, Decidable (C op s)] :
    ∀ (ps : List (Prog I α)) s, Decidable (CallsAll O C ps s)
  | [], _ => isTrue trivial
  | p :: ps, s => @instDecidableAnd _ _ _ (decidableCallsAll C ps (p.run O s).2)

/-- As long as its calls meet `C`, the program goes through states in `P` only
and ends with `Q`. -/
def Along (C : I.Op → O.State → Prop) (P : O.State → Prop) :
    Prog I α → O.State → (α → O.State → Prop) → Prop
  | .pure a, s, Q => P s ∧ Q a s
  | .call op k, s, Q => P s ∧ (C op s → Along C P (k (O.exec op s).1) (O.exec op s).2 Q)

variable {O} {C : I.Op → O.State → Prop} {P : O.State → Prop}

theorem Along.mono {p : Prog I α} {s : O.State} {Q Q' : α → O.State → Prop}
    (h : Along O C P p s Q) (hQ : ∀ a t, P t → Q a t → Q' a t) : Along O C P p s Q' := by
  induction p generalizing s with
  | pure a => exact ⟨h.1, hQ a s h.1 h.2⟩
  | call op k ih => exact ⟨h.1, fun hC => ih _ (h.2 hC)⟩

theorem Along.bind {p : Prog I α} {f : α → Prog I β} {s : O.State} {Q : β → O.State → Prop}
    (h : Along O C P p s fun a t => Along O C P (f a) t Q) : Along O C P (p.bind f) s Q := by
  induction p generalizing s with
  | pure a => exact h.2
  | call op k ih => exact ⟨h.1, fun hC => ih _ (h.2 hC)⟩

theorem Along.sound {p : Prog I α} {s : O.State} {Q : α → O.State → Prop}
    (h : Along O C P p s Q) (hcalls : p.Calls O C s) :
    (∀ t ∈ p.states O s, P t) ∧ Q (p.run O s).1 (p.run O s).2 := by
  induction p generalizing s with
  | pure a => exact ⟨fun t ht => List.mem_singleton.mp ht ▸ h.1, h.2⟩
  | call op k ih =>
    obtain ⟨hstates, hQ⟩ := ih _ (h.2 hcalls.1) hcalls.2
    refine ⟨fun t ht => ?_, hQ⟩
    rcases List.mem_cons.mp ht with rfl | ht
    · exact h.1
    · exact hstates t ht

theorem run_mem_states (p : Prog I α) (s : O.State) : (p.run O s).2 ∈ p.states O s := by
  induction p generalizing s with
  | pure a => exact List.mem_singleton_self s
  | call op k ih => exact List.mem_cons_of_mem s (ih _ _)

theorem runAll_mem_statesAll (ps : List (Prog I α)) (s : O.State) :
    (runAll O ps s).2 ∈ statesAll O ps s := by
  induction ps generalizing s with
  | nil => exact List.mem_singleton_self s
  | cons p ps ih => exact List.mem_append_right _ (ih _)

/-- Programs that each stay in `P`, and that keep what `f` reads of the state if
their result is good. -/
theorem runAll_of_along {ps : List (Prog I α)} {s : O.State} {κ : Type} (f : O.State → κ)
    (Good : α → Prop)
    (h : ∀ p ∈ ps, ∀ t, P t → Along O C P p t fun a t' => Good a → f t' = f t) (hs : P s)
    (hcalls : CallsAll O C ps s) :
    (∀ t ∈ statesAll O ps s, P t) ∧
      ((∀ a ∈ (runAll O ps s).1, Good a) → f (runAll O ps s).2 = f s) := by
  induction ps generalizing s with
  | nil => exact ⟨fun t ht => List.mem_singleton.mp ht ▸ hs, fun _ => rfl⟩
  | cons p ps ih =>
    obtain ⟨hstates, hend⟩ := (h p List.mem_cons_self s hs).sound hcalls.1
    obtain ⟨hrest, hlast⟩ := ih (fun p' hp' => h p' (List.mem_cons_of_mem p hp'))
      (hstates _ (run_mem_states p s)) hcalls.2
    refine ⟨fun t ht => ?_, fun hgood => ?_⟩
    · rcases List.mem_append.mp ht with ht | ht
      · exact hstates t ht
      · exact hrest t ht
    · rw [runAll] at hgood ⊢
      exact (hlast fun a ha => hgood a (List.mem_cons_of_mem _ ha)).trans
        (hend (hgood _ List.mem_cons_self))

section Watched

variable {μ : Type} (note : (op : I.Op) → I.Res op → μ → μ)

/-- Being watched changes nothing. -/
theorem run_watched (p : Prog I α) (s : O.State) (m : μ) :
    (p.run (watched O note) (s, m)).1 = (p.run O s).1 ∧
      (p.run (watched O note) (s, m)).2.1 = (p.run O s).2 := by
  induction p generalizing s m with
  | pure a => exact ⟨rfl, rfl⟩
  | call op k ih => exact ih _ _ _

theorem runAll_watched (ps : List (Prog I α)) (s : O.State) (m : μ) :
    (runAll (watched O note) ps (s, m)).1 = (runAll O ps s).1 ∧
      (runAll (watched O note) ps (s, m)).2.1 = (runAll O ps s).2 := by
  induction ps generalizing s m with
  | nil => exact ⟨rfl, rfl⟩
  | cons p ps ih =>
    obtain ⟨hresult, hstate⟩ := run_watched note p s m
    obtain ⟨hresults, hend⟩ := ih (p.run O s).2 (p.run (watched O note) (s, m)).2.2
    have hnext : (p.run (watched O note) (s, m)).2 =
        ((p.run O s).2, (p.run (watched O note) (s, m)).2.2) := Prod.ext hstate rfl
    rw [runAll, runAll, hnext, hresult, hresults]
    exact ⟨rfl, hend⟩

end Watched

end Alone

end Prog

end AirHuim.Library
