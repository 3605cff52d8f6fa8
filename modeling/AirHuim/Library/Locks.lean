import AirHuim.Library.Trace

/-!
# Locks that are taken in ascending order

Threads take locks, for reading or for writing, and give them back. A thread whose
script takes no lock below or at one that it holds cannot be part of a deadlock: in
every state that such threads reach, one that has not ended can go on, even if a lock
is given to nobody while another thread has it.
-/

namespace AirHuim.Library

/-- What a script does: a lock is taken, for writing or only for reading, or given back. -/
inductive LockOp (L : Type*)
  | acquire (lock : L) (write : Bool)
  | release (lock : L)
  deriving DecidableEq, Repr

/-- The locks that a thread has, those for writing marked, and the rest of its script. -/
structure LockThread (L : Type*) where
  held : List (L × Bool)
  todo : List (LockOp L)
  deriving DecidableEq, Repr

namespace LockThread

variable {L : Type*} [LinearOrder L]

/-- The script takes its locks in ascending order, and ends with all of them back. -/
def Ordered : List (L × Bool) → List (LockOp L) → Prop
  | held, [] => held = []
  | held, .acquire lock write :: todo =>
    (∀ h ∈ held, h.1 < lock) ∧ Ordered ((lock, write) :: held) todo
  | held, .release lock :: todo =>
    (∃ h ∈ held, h.1 = lock) ∧ Ordered (held.filter fun h => h.1 ≠ lock) todo

instance decidableOrdered :
    (held : List (L × Bool)) → (todo : List (LockOp L)) → Decidable (Ordered held todo)
  | held, [] => inferInstanceAs (Decidable (held = []))
  | held, .acquire lock write :: todo =>
    @instDecidableAnd _ _ inferInstance (decidableOrdered ((lock, write) :: held) todo)
  | held, .release lock :: todo =>
    @instDecidableAnd _ _ inferInstance (decidableOrdered (held.filter fun h => h.1 ≠ lock) todo)

/-- A script that starts and ends without locks can be followed by another. -/
theorem Ordered.append {held : List (L × Bool)} {todo later : List (LockOp L)}
    (h : Ordered held todo) (hlater : Ordered [] later) : Ordered held (todo ++ later) := by
  induction todo generalizing held with
  | nil =>
    obtain rfl : held = [] := h
    exact hlater
  | cons op todo ih =>
    cases op with
    | acquire lock write => exact ⟨h.1, ih h.2⟩
    | release lock => exact ⟨h.1, ih h.2⟩

theorem ordered_flatMap {ι : Type*} {scripts : ι → List (LockOp L)} {is : List ι}
    (h : ∀ i ∈ is, Ordered [] (scripts i)) : Ordered [] (is.flatMap scripts) := by
  induction is with
  | nil => rfl
  | cons i is ih =>
    rw [List.flatMap_cons]
    exact (h i List.mem_cons_self).append (ih fun j hj => h j (List.mem_cons_of_mem i hj))

end LockThread

namespace Locks

variable {L : Type*} [LinearOrder L]

/-- A lock is given for reading if nobody has it for writing, and for writing if nobody
has it. -/
def Grants (threads : List (LockThread L)) (lock : L) (write : Bool) : Prop :=
  ∀ t ∈ threads, ∀ h ∈ t.held, h.1 = lock → h.2 = false ∧ write = false

instance (threads : List (LockThread L)) (lock : L) (write : Bool) :
    Decidable (Grants threads lock write) :=
  inferInstanceAs
    (Decidable (∀ t ∈ threads, ∀ h ∈ t.held, h.1 = lock → h.2 = false ∧ write = false))

/-- The thread `i` moves, unless it has ended or has to wait. -/
def step (threads : List (LockThread L)) (i : ℕ) : List (LockThread L) :=
  match threads[i]? with
  | some ⟨held, .acquire lock write :: todo⟩ =>
    if Grants threads lock write then threads.set i ⟨(lock, write) :: held, todo⟩ else threads
  | some ⟨held, .release lock :: todo⟩ =>
    threads.set i ⟨held.filter fun h => h.1 ≠ lock, todo⟩
  | _ => threads

/-- The thread can go on, and would also if locks were given to one thread at a time. -/
def Unblocked (threads : List (LockThread L)) (t : LockThread L) : Prop :=
  match t.todo with
  | .acquire lock _ :: _ => ∀ t' ∈ threads, ∀ h ∈ t'.held, h.1 ≠ lock
  | .release _ :: _ => True
  | [] => False

/-- What is left of all scripts. -/
def left (threads : List (LockThread L)) : ℕ := (threads.map fun t => t.todo.length).sum

variable {threads : List (LockThread L)} {i : ℕ}

/-- Every script that is left takes its locks in ascending order. -/
def AllOrdered (threads : List (LockThread L)) : Prop :=
  ∀ t ∈ threads, LockThread.Ordered t.held t.todo

/-- A move leaves the threads ordered. -/
theorem AllOrdered.step (h : AllOrdered threads) (i : ℕ) : AllOrdered (step threads i) := by
  unfold Locks.step
  cases hi : threads[i]? with
  | none => exact h
  | some t =>
    have ht := h t (List.mem_of_getElem? hi)
    obtain ⟨held, _ | ⟨⟨lock, write⟩ | lock, todo⟩⟩ := t
    · exact h
    · dsimp only
      split
      · exact all_set h ht.2 i
      · exact h
    · exact all_set h ht.2 i

/-- A thread that can go on does, and less is left then. -/
theorem left_step {t : LockThread L} (hi : threads[i]? = some t) (h : Unblocked threads t) :
    left (step threads i) < left threads := by
  unfold step
  rw [hi]
  obtain ⟨held, _ | ⟨⟨lock, write⟩ | lock, todo⟩⟩ := t
  · exact h.elim
  · have hgrants : Grants threads lock write := fun t' ht' h' hh' heq => (h t' ht' h' hh' heq).elim
    have hsum := sum_map_set hi ⟨(lock, write) :: held, todo⟩ fun t => t.todo.length
    simp only [if_pos hgrants, left, List.length_cons] at hsum ⊢
    omega
  · have hsum := sum_map_set hi ⟨held.filter fun h => h.1 ≠ lock, todo⟩ fun t => t.todo.length
    simp only [left, List.length_cons] at hsum ⊢
    omega

/-- The lock that a thread waits for or is about to take. -/
def wanted (t : LockThread L) : Option L :=
  match t.todo with
  | .acquire lock _ :: _ => some lock
  | _ => none

/-- Of the threads that want a lock one wants the greatest. -/
theorem exists_greatest_wanted (h : ∃ t ∈ threads, (wanted t).isSome) :
    ∃ t ∈ threads, ∃ lock, wanted t = some lock ∧
      ∀ t' ∈ threads, ∀ lock', wanted t' = some lock' → lock' ≤ lock := by
  obtain ⟨t₀, ht₀, hsome⟩ := h
  obtain ⟨lock₀, hlock₀⟩ := Option.isSome_iff_exists.mp hsome
  have hne : (threads.filterMap wanted).toFinset.Nonempty :=
    ⟨lock₀, List.mem_toFinset.mpr (List.mem_filterMap.mpr ⟨t₀, ht₀, hlock₀⟩)⟩
  obtain ⟨lock, hlock, hmax⟩ := Finset.exists_max_image _ id hne
  obtain ⟨t, ht, hwanted⟩ := List.mem_filterMap.mp (List.mem_toFinset.mp hlock)
  refine ⟨t, ht, lock, hwanted, fun t' ht' lock' hlock' => hmax lock' ?_⟩
  exact List.mem_toFinset.mpr (List.mem_filterMap.mpr ⟨t', ht', hlock'⟩)

/-- A thread with a lock has not ended, and wants, if any, a greater one. -/
theorem lt_wanted {t : LockThread L} (h : LockThread.Ordered t.held t.todo) {l : L × Bool}
    (hl : l ∈ t.held) (hblocked : ¬ ∃ lock todo, t.todo = .release lock :: todo) :
    ∃ lock, wanted t = some lock ∧ l.1 < lock := by
  obtain ⟨held, _ | ⟨⟨lock, write⟩ | lock, todo⟩⟩ := t
  · rw [show held = [] from h] at hl
    exact (List.not_mem_nil hl).elim
  · exact ⟨lock, rfl, h.1 l hl⟩
  · exact (hblocked ⟨lock, todo, rfl⟩).elim

/-- As long as something is left, an ordered thread can go on: one that gives a lock
back, or else the one that wants the greatest lock, which no other thread can have. -/
theorem exists_unblocked (h : AllOrdered threads) (hleft : left threads ≠ 0) :
    ∃ (i : ℕ) (t : LockThread L), threads[i]? = some t ∧ Unblocked threads t := by
  by_cases hrelease : ∃ t ∈ threads, ∃ lock todo, t.todo = .release lock :: todo
  · obtain ⟨t, ht, lock, todo, htodo⟩ := hrelease
    obtain ⟨i, hi⟩ := List.mem_iff_getElem?.mp ht
    exact ⟨i, t, hi, by rw [Unblocked, htodo]; trivial⟩
  · have hwanted : ∃ t ∈ threads, (wanted t).isSome := by
      by_contra hnone
      apply hleft
      refine List.sum_eq_zero fun n hn => ?_
      obtain ⟨t, ht, rfl⟩ := List.mem_map.mp hn
      obtain ⟨held, _ | ⟨⟨lock, write⟩ | lock, todo⟩⟩ := t
      · rfl
      · exact (hnone ⟨_, ht, rfl⟩).elim
      · exact (hrelease ⟨_, ht, lock, todo, rfl⟩).elim
    obtain ⟨t, ht, lock, hlock, hmax⟩ := exists_greatest_wanted hwanted
    obtain ⟨i, hi⟩ := List.mem_iff_getElem?.mp ht
    refine ⟨i, t, hi, ?_⟩
    obtain ⟨held, _ | ⟨⟨lock, write⟩ | lock, todo⟩⟩ := t
    · cases hlock
    · cases hlock
      intro t' ht' l hl heq
      obtain ⟨lock', hlock', hlt⟩ := lt_wanted (h t' ht') hl fun hr => hrelease ⟨t', ht', hr⟩
      exact absurd (hmax t' ht' lock' hlock') (not_le.mpr (heq ▸ hlt))
    · cases hlock

/-- Ordered threads never come to a halt before they have ended. -/
theorem never_blocked (h : AllOrdered threads) (moves : List ℕ) :
    AllStates step (fun threads => left threads = 0 ∨
      ∃ (i : ℕ) (t : LockThread L), threads[i]? = some t ∧ Unblocked threads t ∧
        left (step threads i) < left threads) threads moves := by
  have hordered : AllStates step AllOrdered threads moves :=
    AllStates.of_forall (fun threads i h => h.step i) h moves
  refine hordered.mono fun threads h => ?_
  by_cases hleft : left threads = 0
  · exact Or.inl hleft
  · obtain ⟨i, t, hi, hunblocked⟩ := exists_unblocked h hleft
    exact Or.inr ⟨i, t, hi, hunblocked, left_step hi hunblocked⟩

end Locks

end AirHuim.Library
