import AirHuim.Library.SharedProgram
import AirHuim.Library.Trace
import Mathlib.Logic.Hydra

/-!
# Workers at an object that may make them wait

A list of jobs is worked off by a fixed number of workers. A worker takes a job,
performs its calls one at a time, and waits where the object has no answer yet.
Beside the workers the object moves by itself. If it simulates a shared object
that never waits, then whatever the workers do is what some schedule does; and if
it only makes them wait while it can move, then they always get to the end.
-/

namespace AirHuim.Library

namespace Prog

variable {I : Interface} {α : Type} (O : SharedObject I)

/-- The programs after the moves of a schedule, where it leaves them. -/
def moves (sched : List ℕ) (ps : List (Prog I α)) (s : O.State) : List (Prog I α) × O.State :=
  sched.foldl (fun c i => stepAt O i c.1 c.2) (ps, s)

theorem moves_nil (ps : List (Prog I α)) (s : O.State) : moves O [] ps s = (ps, s) := rfl

theorem moves_cons (i : ℕ) (sched : List ℕ) (ps : List (Prog I α)) (s : O.State) :
    moves O (i :: sched) ps s = moves O sched (stepAt O i ps s).1 (stepAt O i ps s).2 := rfl

theorem moves_append (sched later : List ℕ) (ps : List (Prog I α)) (s : O.State) :
    moves O (sched ++ later) ps s = moves O later (moves O sched ps s).1 (moves O sched ps s).2 :=
  List.foldl_append

theorem interleave_eq_moves (sched : List ℕ) (ps : List (Prog I α)) (s : O.State) :
    interleave O sched ps s = runAll O (moves O sched ps s).1 (moves O sched ps s).2 := by
  induction sched generalizing ps s with
  | nil => rfl
  | cons i sched ih => exact ih _ _

theorem runAll_map_pure (as : List α) (s : O.State) : runAll O (as.map .pure) s = (as, s) := by
  induction as with
  | nil => rfl
  | cons a as ih => rw [List.map_cons, runAll, run, ih]

theorem stepAt_of_call {i : ℕ} {ps : List (Prog I α)} {s : O.State} {op : I.Op}
    {k : I.Res op → Prog I α} (h : ps[i]? = some (.call op k)) :
    stepAt O i ps s = (ps.set i (k (O.exec op s).1), (O.exec op s).2) := by
  induction ps generalizing i with
  | nil => simp at h
  | cons p ps ih =>
    cases i with
    | zero =>
      obtain rfl : p = .call op k := by simpa using h
      rfl
    | succ i => rw [stepAt, ih (by simpa using h), List.set_cons_succ]

end Prog

/-- An object with operations that may have to wait (`none`), and a move of its own. -/
structure WaitingObject (I : Interface) where
  State : Type
  exec : (op : I.Op) → State → Option (I.Res op × State)
  move : State → Option State

inductive Job (I : Interface) (α : Type)
  | queued (p : Prog I α)
  | running (p : Prog I α)
  | done (a : α)

namespace Job

variable {I : Interface} {α : Type}

/-- What is still to be done. -/
def prog : Job I α → Prog I α
  | queued p => p
  | running p => p
  | done a => .pure a

def isRunning : Job I α → Bool
  | running _ => true
  | _ => false

def result? : Job I α → Option α
  | done a => some a
  | _ => none

/-- A job after one step, and before it. -/
inductive Next : Job I α → Job I α → Prop
  | take (p : Prog I α) : Next (running p) (queued p)
  | call (op : I.Op) (k : I.Res op → Prog I α) (r : I.Res op) :
      Next (running (k r)) (running (.call op k))
  | finish (a : α) : Next (done a) (running (.pure a))

theorem next_wellFounded : WellFounded (Next (I := I) (α := α)) := by
  have hdone : ∀ a : α, Acc Next (done a : Job I α) := fun a => ⟨_, fun _ h => by cases h⟩
  have hrunning : ∀ p : Prog I α, Acc Next (running p) := by
    intro p
    induction p with
    | pure a => exact ⟨_, fun _ h => by cases h; exact hdone a⟩
    | call op k ih => exact ⟨_, fun _ h => by cases h; exact ih _⟩
  refine ⟨fun j => ?_⟩
  cases j with
  | queued p => exact ⟨_, fun _ h => by cases h; exact hrunning p⟩
  | running p => exact hrunning p
  | done a => exact hdone a

end Job

/-- The jobs, and the state of the object they share. -/
structure Workers {I : Interface} (B : WaitingObject I) (α : Type) where
  jobs : List (Job I α)
  shared : B.State

inductive WorkerEvent
  /-- A worker takes job `i`. -/
  | take (i : ℕ)
  /-- The worker of job `i` performs its next call, or is done with it. -/
  | advance (i : ℕ)
  /-- The object moves. -/
  | move
  deriving DecidableEq, Repr

namespace Workers

variable {I : Interface} {B : WaitingObject I} {α : Type}

def new (ps : List (Prog I α)) (s : B.State) : Workers B α := ⟨ps.map .queued, s⟩

def busy (w : Workers B α) : ℕ := (w.jobs.map fun j => j.isRunning.toNat).sum

/-- `none` if the event cannot happen now. -/
def step? (threads : ℕ) (w : Workers B α) : WorkerEvent → Option (Workers B α)
  | .take i =>
    match w.jobs[i]? with
    | some (.queued p) =>
      if w.busy < threads then some { w with jobs := w.jobs.set i (.running p) } else none
    | _ => none
  | .advance i =>
    match w.jobs[i]? with
    | some (.running (.pure a)) => some { w with jobs := w.jobs.set i (.done a) }
    | some (.running (.call op k)) =>
      match B.exec op w.shared with
      | some (r, s) => some ⟨w.jobs.set i (.running (k r)), s⟩
      | none => none
    | _ => none
  | .move =>
    match B.move w.shared with
    | some s => some { w with shared := s }
    | none => none

/-- The results, once all jobs are done. -/
def results? (w : Workers B α) : Option (List α) := w.jobs.mapM Job.result?

variable {threads : ℕ} {w w' : Workers B α} {e : WorkerEvent}

theorem results?_eq_some {results : List α} :
    w.results? = some results ↔ w.jobs = results.map .done := by
  rw [results?]
  generalize w.jobs = jobs
  induction jobs generalizing results with
  | nil => cases results <;> simp
  | cons j jobs ih =>
    cases j with
    | done a =>
      cases results <;> simp [List.mapM_cons, Job.result?, Option.bind_eq_some_iff, ih, and_comm]
    | queued p => cases results <;> simp [List.mapM_cons, Job.result?]
    | running p => cases results <;> simp [List.mapM_cons, Job.result?]

/-- Everything that can happen in one step. -/
theorem step?_cases (h : w.step? threads e = some w') :
    (∃ i p, w.jobs[i]? = some (.queued p) ∧ w.busy < threads ∧
      w' = { w with jobs := w.jobs.set i (.running p) }) ∨
    (∃ i a, w.jobs[i]? = some (.running (.pure a)) ∧
      w' = { w with jobs := w.jobs.set i (.done a) }) ∨
    (∃ i op k r s, w.jobs[i]? = some (.running (.call op k)) ∧ B.exec op w.shared = some (r, s) ∧
      w' = ⟨w.jobs.set i (.running (k r)), s⟩) ∨
    ∃ s, B.move w.shared = some s ∧ w' = { w with shared := s } := by
  cases e with
  | take i =>
    simp only [step?] at h
    split at h
    · rename_i p hjob
      split_ifs at h with hbusy
      exact Or.inl ⟨i, p, hjob, hbusy, (Option.some.inj h).symm⟩
    · cases h
  | advance i =>
    simp only [step?] at h
    split at h
    · rename_i a hjob
      exact Or.inr (Or.inl ⟨i, a, hjob, (Option.some.inj h).symm⟩)
    · rename_i op k hjob
      split at h
      · rename_i r s hexec
        exact Or.inr (Or.inr (Or.inl ⟨i, op, k, r, s, hjob, hexec, (Option.some.inj h).symm⟩))
      · cases h
    · cases h
  | move =>
    simp only [step?] at h
    split at h
    · rename_i s hmove
      exact Or.inr (Or.inr (Or.inr ⟨s, hmove, (Option.some.inj h).symm⟩))
    · cases h

/-- When all jobs are done, only the object moves. -/
theorem step?_of_done {results : List α} (hdone : w.jobs = results.map .done)
    (h : w.step? threads e = some w') :
    ∃ s, B.move w.shared = some s ∧ w' = { w with shared := s } := by
  have hjobs : ∀ (i : ℕ) (j : Job I α), w.jobs[i]? = some j → ∃ a, j = .done a := by
    intro i j hj
    rw [hdone, List.getElem?_map] at hj
    obtain ⟨a, -, rfl⟩ := Option.map_eq_some_iff.mp hj
    exact ⟨a, rfl⟩
  obtain ⟨i, p, hjob, -⟩ | ⟨i, a, hjob, -⟩ | ⟨i, op, k, r, s, hjob, -⟩ | hmove := step?_cases h
  · obtain ⟨a, ha⟩ := hjobs i _ hjob
    cases ha
  · obtain ⟨a, ha⟩ := hjobs i _ hjob
    cases ha
  · obtain ⟨a, ha⟩ := hjobs i _ hjob
    cases ha
  · exact hmove

/-! ## What the workers do is what some schedule does -/

/-- The object answers as `O` does, and its own moves are not seen. -/
structure Simulates (B : WaitingObject I) (O : SharedObject I) (R : B.State → O.State → Prop) :
    Prop where
  exec : ∀ op s t r s', R s t → B.exec op s = some (r, s') →
    r = (O.exec op t).1 ∧ R s' (O.exec op t).2
  move : ∀ s t s', R s t → B.move s = some s' → R s' t

variable {O : SharedObject I} {R : B.State → O.State → Prop} {c : List (Prog I α) × O.State}

/-- The programs as they stand, over the object that never waits. -/
def Matches (R : B.State → O.State → Prop) (w : Workers B α) (c : List (Prog I α) × O.State) :
    Prop :=
  w.jobs.map Job.prog = c.1 ∧ R w.shared c.2

theorem Matches.new {ps : List (Prog I α)} {s : B.State} {t : O.State} (h : R s t) :
    (new ps s : Workers B α).Matches R (ps, t) := by
  refine ⟨?_, h⟩
  simp [Workers.new, Function.comp_def, Job.prog]

theorem Matches.step (hsim : Simulates B O R) (h : w.Matches R c)
    (hstep : w.step? threads e = some w') :
    ∃ sched, w'.Matches R (Prog.moves O sched c.1 c.2) := by
  obtain ⟨hprogs, hR⟩ := h
  -- taking a job and leaving it change no program
  have hkeeps : ∀ i j j', w.jobs[i]? = some j → j'.prog = j.prog →
      (w.jobs.set i j').map Job.prog = c.1 := by
    intro i j j' hjob hprog
    obtain ⟨hi, rfl⟩ := List.getElem?_eq_some_iff.mp hjob
    rw [← hprogs, List.map_set, hprog, ← List.getElem_map Job.prog (h := by simpa using hi)]
    exact List.set_getElem_self _
  obtain ⟨i, p, hjob, -, rfl⟩ | ⟨i, a, hjob, rfl⟩ | ⟨i, op, k, r, s, hjob, hexec, rfl⟩ |
    ⟨s, hmove, rfl⟩ := step?_cases hstep
  · exact ⟨[], hkeeps i _ _ hjob rfl, hR⟩
  · exact ⟨[], hkeeps i _ _ hjob rfl, hR⟩
  · obtain ⟨rfl, hR'⟩ := hsim.exec op w.shared c.2 r s hR hexec
    have hprog : c.1[i]? = some (.call op k) := by
      rw [← hprogs, List.getElem?_map, hjob]
      rfl
    refine ⟨[i], ?_, ?_⟩
    · rw [Prog.moves_cons, Prog.moves_nil, Prog.stepAt_of_call O hprog, List.map_set, hprogs]
      rfl
    · rw [Prog.moves_cons, Prog.moves_nil, Prog.stepAt_of_call O hprog]
      exact hR'
  · exact ⟨[], hprogs, hsim.move _ _ _ hR hmove⟩

/-- When all jobs are done, the schedule so far is that of a whole run. -/
theorem Matches.interleave {sched : List ℕ} {ps : List (Prog I α)} {t : O.State} {results : List α}
    (h : w.Matches R (Prog.moves O sched ps t)) (hdone : w.jobs = results.map .done) :
    Prog.interleave O sched ps t = (results, (Prog.moves O sched ps t).2) := by
  have hprogs := h.1
  rw [hdone, List.map_map] at hprogs
  rw [Prog.interleave_eq_moves, ← hprogs]
  exact Prog.runAll_map_pure O results _

/-! ## The workers always get to the end -/

theorem busy_le_step (h : w.busy ≤ threads) (hstep : w.step? threads e = some w') :
    w'.busy ≤ threads := by
  have hset : ∀ i j j', w.jobs[i]? = some j →
      ((w.jobs.set i j').map fun j => j.isRunning.toNat).sum + j.isRunning.toNat =
        w.busy + j'.isRunning.toNat := fun i j j' hjob => sum_map_set hjob j' _
  obtain ⟨i, p, hjob, hbusy, rfl⟩ | ⟨i, a, hjob, rfl⟩ | ⟨i, op, k, r, s, hjob, -, rfl⟩ |
    ⟨s, -, rfl⟩ := step?_cases hstep
  · have htaken : busy { w with jobs := w.jobs.set i (.running p) } + 0 = w.busy + 1 :=
      hset i _ _ hjob
    omega
  · have hleft : busy { w with jobs := w.jobs.set i (.done a) } + 1 = w.busy + 0 := hset i _ _ hjob
    omega
  · have hcalled : busy (⟨w.jobs.set i (.running (k r)), s⟩ : Workers B α) + 1 = w.busy + 1 :=
      hset i _ _ hjob
    omega
  · exact h

/-- As long as a job is left, something can happen. -/
theorem exists_step (hthreads : 0 < threads)
    (hwait : ∀ op s, B.exec op s = none → ∃ s', B.move s = some s') (w : Workers B α) :
    (∃ e w', w.step? threads e = some w') ∨ ∃ results : List α, w.jobs = results.map .done := by
  by_cases hrunning : ∃ (i : ℕ) (p : Prog I α), w.jobs[i]? = some (.running p)
  · obtain ⟨i, p, hjob⟩ := hrunning
    left
    cases p with
    | pure a => exact ⟨.advance i, _, by simp only [step?, hjob]; rfl⟩
    | call op k =>
      rcases hexec : B.exec op w.shared with _ | ⟨r, s⟩
      · obtain ⟨s, hmove⟩ := hwait op w.shared hexec
        exact ⟨.move, _, by simp only [step?, hmove]; rfl⟩
      · exact ⟨.advance i, _, by simp only [step?, hjob, hexec]; rfl⟩
  by_cases hqueued : ∃ (i : ℕ) (p : Prog I α), w.jobs[i]? = some (.queued p)
  · obtain ⟨i, p, hjob⟩ := hqueued
    have hidle : w.busy = 0 := by
      refine List.sum_eq_zero fun n hn => ?_
      obtain ⟨j, hj, rfl⟩ := List.mem_map.mp hn
      obtain ⟨i, hi⟩ := List.getElem?_of_mem hj
      cases j with
      | running p => exact (hrunning ⟨i, p, hi⟩).elim
      | queued p => rfl
      | done a => rfl
    exact Or.inl ⟨.take i, _, by simp only [step?, hjob, if_pos (hidle ▸ hthreads)]; rfl⟩
  · right
    have hdone : ∀ j ∈ w.jobs, ∃ a, Job.done a = j := by
      intro j hj
      obtain ⟨i, hi⟩ := List.getElem?_of_mem hj
      cases j with
      | running p => exact (hrunning ⟨i, p, hi⟩).elim
      | queued p => exact (hqueued ⟨i, p, hi⟩).elim
      | done a => exact ⟨a, rfl⟩
    have hrange : w.jobs ∈ Set.range (List.map Job.done) := by
      rw [Set.range_list_map]
      exact hdone
    obtain ⟨results, hresults⟩ := hrange
    exact ⟨results, hresults.symm⟩

/-- One job is replaced by what it is after a step. -/
theorem cutExpand_set {js : List (Job I α)} {i : ℕ} {j j' : Job I α} (hjob : js[i]? = some j)
    (h : Job.Next j' j) :
    Relation.CutExpand Job.Next (js.set i j' : Multiset (Job I α)) (js : Multiset (Job I α)) := by
  refine ⟨{j'}, j, fun a ha => Multiset.mem_singleton.mp ha ▸ h, ?_⟩
  obtain ⟨hi, rfl⟩ := List.getElem?_eq_some_iff.mp hjob
  have hset : (js.set i j' : Multiset (Job I α)) = {j'} + (js.eraseIdx i : Multiset (Job I α)) :=
    Multiset.coe_eq_coe.mpr (List.set_perm_cons_eraseIdx hi j')
  have hself : (js : Multiset (Job I α)) = {js[i]} + (js.eraseIdx i : Multiset (Job I α)) :=
    Multiset.coe_eq_coe.mpr (List.getElem_cons_eraseIdx_perm hi).symm
  rw [hset, hself]
  abel

/-- If the object cannot move for ever, nor can the workers. -/
theorem step_wellFounded (hmove : WellFounded fun s' s => B.move s = some s') :
    WellFounded fun w' w : Workers B α => ∃ e, w.step? threads e = some w' := by
  have hjobs := (Job.next_wellFounded (I := I) (α := α)).cutExpand
  refine Subrelation.wf ?_ (InvImage.wf
    (fun w : Workers B α => ((w.jobs : Multiset (Job I α)), w.shared)) (hjobs.prod_lex hmove))
  rintro w' w ⟨e, hstep⟩
  obtain ⟨i, p, hjob, -, rfl⟩ | ⟨i, a, hjob, rfl⟩ | ⟨i, op, k, r, s, hjob, -, rfl⟩ |
    ⟨s, hmoved, rfl⟩ := step?_cases hstep
  · exact Prod.Lex.left _ _ (cutExpand_set hjob (.take p))
  · exact Prod.Lex.left _ _ (cutExpand_set hjob (.finish a))
  · exact Prod.Lex.left _ _ (cutExpand_set hjob (.call op k r))
  · exact Prod.Lex.right _ hmoved

end Workers

end AirHuim.Library
