import AirHuim.BufferPool.Pool
import AirHuim.Library.Locks
import Mathlib.Data.Prod.Lex

/-!
# The locks of the pool

The frame map has a lock for each of its shards, and the policy is behind a mutex. A
hit asks the policy while it has the lock of its page's shard; every other access
takes one lock at a time, and the iteration over the map, which `evict_one` ends
before it asks the policy, takes the shards in ascending order. So threads that use
one pool never wait for each other in a circle.
-/

namespace AirHuim

open Library

/-- The locks that the threads of a run share: those of the pool, and three mutexes that
are only ever taken alone. -/
inductive SharedLock
  | shard (i : ℕ)
  | eviction
  | stage
  | activePrefix
  | heap
  deriving Repr

namespace SharedLock

def rank : SharedLock → ℕ ×ₗ ℕ
  | shard i => toLex (0, i)
  | eviction => toLex (1, 0)
  | stage => toLex (2, 0)
  | activePrefix => toLex (3, 0)
  | heap => toLex (4, 0)

theorem rank_injective : Function.Injective rank := by
  intro l l' h
  cases l <;> cases l' <;> cases h <;> rfl

instance : LinearOrder SharedLock := LinearOrder.lift' rank rank_injective

theorem shard_lt_eviction (i : ℕ) : shard i < eviction :=
  Prod.Lex.toLex_lt_toLex.mpr (Or.inl Nat.zero_lt_one)

end SharedLock

/-- How the `flush` of a page goes. -/
inductive FlushCourse
  | clean
  /-- The page is dirty, and the store fails to write it. -/
  | failed
  | written
  deriving DecidableEq, Repr

/-- How an operation goes; an eviction has a victim or none. -/
inductive PoolCourse
  | hit (id : PageId)
  /-- A pin of an absent page, with the evictions until there is room. If the page cannot
  be read, or there is no room, nothing is installed. -/
  | miss (id : PageId) (evictions : List (Option (PageId × FlushCourse))) (installed : Bool)
  | insertPage (id : PageId) (evictions : List (Option (PageId × FlushCourse))) (installed : Bool)
  | unpin (id : PageId)
  | markDirty (id : PageId)
  | setPredictedProb (id : PageId)
  | flush (id : PageId) (course : FlushCourse)
  | evictOne (victim : Option (PageId × FlushCourse))
  | setStage
  | setActivePrefix
  | updateHeap
  deriving DecidableEq, Repr

namespace PoolCourse

variable (shardOf : PageId → ℕ) (iterate : List (LockOp SharedLock))

def get (id : PageId) : List (LockOp SharedLock) :=
  [.acquire (.shard (shardOf id)) false, .release (.shard (shardOf id))]

/-- Also of `insert` and `remove`. -/
def getMut (id : PageId) : List (LockOp SharedLock) :=
  [.acquire (.shard (shardOf id)) true, .release (.shard (shardOf id))]

def mutex (lock : SharedLock) : List (LockOp SharedLock) := [.acquire lock true, .release lock]

def flushScript (id : PageId) : FlushCourse → List (LockOp SharedLock)
  | .clean => get shardOf id
  | .failed => get shardOf id ++ get shardOf id
  | .written => get shardOf id ++ get shardOf id ++ getMut shardOf id

/-- `iterate` is the iteration over the frame map. -/
def evictScript : Option (PageId × FlushCourse) → List (LockOp SharedLock)
  | none => iterate ++ mutex .eviction
  | some (victim, .failed) => iterate ++ mutex .eviction ++ flushScript shardOf victim .failed
  | some (victim, course) =>
    iterate ++ mutex .eviction ++ flushScript shardOf victim course ++ getMut shardOf victim ++
      mutex .eviction

def installScript (id : PageId) (installed : Bool) : List (LockOp SharedLock) :=
  if installed then getMut shardOf id ++ mutex .eviction else []

/-- What an operation does to the locks. -/
def script : PoolCourse → List (LockOp SharedLock)
  | hit id =>
    .acquire (.shard (shardOf id)) true :: mutex .eviction ++ [.release (.shard (shardOf id))]
  | miss id evictions installed =>
    getMut shardOf id ++ evictions.flatMap (evictScript shardOf iterate) ++
      installScript shardOf id installed
  | insertPage id evictions installed =>
    evictions.flatMap (evictScript shardOf iterate) ++ installScript shardOf id installed
  | unpin id => getMut shardOf id
  | markDirty id => getMut shardOf id
  | setPredictedProb id => getMut shardOf id
  | flush id course => flushScript shardOf id course
  | evictOne victim => evictScript shardOf iterate victim
  | setStage => mutex .stage
  | setActivePrefix => mutex .activePrefix
  | updateHeap => mutex .heap

variable {shardOf iterate}

theorem ordered_single (lock : SharedLock) (write : Bool) :
    LockThread.Ordered [] [.acquire lock write, .release lock] := by
  simp [LockThread.Ordered]

theorem ordered_flushScript (id : PageId) (course : FlushCourse) :
    LockThread.Ordered [] (flushScript shardOf id course) := by
  have hget : LockThread.Ordered [] (get shardOf id) := ordered_single _ _
  cases course with
  | clean => exact hget
  | failed => exact hget.append hget
  | written => exact (hget.append hget).append (ordered_single _ _)

theorem ordered_evictScript (h : LockThread.Ordered [] iterate)
    (victim : Option (PageId × FlushCourse)) :
    LockThread.Ordered [] (evictScript shardOf iterate victim) := by
  have hasked : LockThread.Ordered [] (iterate ++ mutex .eviction) := h.append (ordered_single _ _)
  have hremoved : ∀ id course, LockThread.Ordered [] (iterate ++ mutex .eviction ++
      flushScript shardOf id course ++ getMut shardOf id ++ mutex .eviction) := fun id course =>
    ((hasked.append (ordered_flushScript id course)).append (ordered_single _ _)).append
      (ordered_single _ _)
  rcases victim with _ | ⟨id, _ | _ | _⟩
  · exact hasked
  · exact hremoved id .clean
  · exact hasked.append (ordered_flushScript id .failed)
  · exact hremoved id .written

theorem ordered_installScript (id : PageId) (installed : Bool) :
    LockThread.Ordered [] (installScript shardOf id installed) := by
  cases installed with
  | false => rfl
  | true => exact (ordered_single _ _).append (ordered_single _ _)

/-- Every operation takes its locks in ascending order and gives them back. -/
theorem ordered_script (h : LockThread.Ordered [] iterate) (course : PoolCourse) :
    LockThread.Ordered [] (course.script shardOf iterate) := by
  have hevictions : ∀ evictions : List (Option (PageId × FlushCourse)),
      LockThread.Ordered [] (evictions.flatMap (evictScript shardOf iterate)) := fun evictions =>
    LockThread.ordered_flatMap fun victim _ => ordered_evictScript h victim
  cases course with
  | hit id =>
    have hlt := SharedLock.shard_lt_eviction (shardOf id)
    refine ⟨nofun, fun l hl => ?_, ⟨(.eviction, true), List.mem_cons_self, rfl⟩,
      ⟨(.shard (shardOf id), true), ?_, rfl⟩, ?_⟩
    · obtain rfl := List.mem_singleton.mp hl
      exact hlt
    · simp [hlt.ne]
    · simp [LockThread.Ordered]
  | miss id evictions installed =>
    exact ((ordered_single _ _).append (hevictions evictions)).append
      (ordered_installScript id installed)
  | insertPage id evictions installed =>
    exact (hevictions evictions).append (ordered_installScript id installed)
  | flush id course => exact ordered_flushScript id course
  | evictOne victim => exact ordered_evictScript h victim
  | _ => exact ordered_single _ _

/-- Threads that use a pool, each with a sequence of operations. -/
def threads (shardOf : PageId → ℕ) (iterate : List (LockOp SharedLock))
    (courses : List (List PoolCourse)) : List (LockThread SharedLock) :=
  courses.map fun ops => ⟨[], ops.flatMap (script shardOf iterate)⟩

/-- No deadlock: in every state of every interleaving all threads have ended, or one can
take its next lock or give one back, after which less is left to do. -/
theorem never_deadlocks (h : LockThread.Ordered [] iterate) (shardOf : PageId → ℕ)
    (courses : List (List PoolCourse)) (moves : List ℕ) :
    AllStates Locks.step
      (fun s => Locks.left s = 0 ∨ ∃ (i : ℕ) (t : LockThread SharedLock), s[i]? = some t ∧
        Locks.Unblocked s t ∧ Locks.left (Locks.step s i) < Locks.left s)
      (threads shardOf iterate courses) moves := by
  refine Locks.never_blocked (fun t ht => ?_) moves
  obtain ⟨ops, -, rfl⟩ := List.mem_map.mp ht
  exact LockThread.ordered_flatMap fun course _ => ordered_script h course

/-- Two shards, the second of which is locked before the first is unlocked, and two
threads of which one evicts while the other has a hit. -/
theorem never_deadlocks_two :
    AllStates Locks.step
      (fun s => Locks.left s = 0 ∨ ∃ (i : ℕ) (t : LockThread SharedLock), s[i]? = some t ∧
        Locks.Unblocked s t ∧ Locks.left (Locks.step s i) < Locks.left s)
      (threads (· % 2)
        [.acquire (.shard 0) false, .acquire (.shard 1) false, .release (.shard 0),
          .release (.shard 1)]
        [[.miss 3 [some (1, .written)] true, .unpin 3], [.hit 1, .unpin 1]])
      [1, 0, 0, 1, 0, 1, 1] :=
  never_deadlocks (by decide) _ _ _

end PoolCourse

end AirHuim
