import AirHuim.Library.Table
import AirHuim.Types

/-!
# Eviction policies

A policy keeps its own state, is told of every access, insertion and eviction,
and picks a victim from a snapshot of the frames' metadata. What the pool needs
of it is only that the victim is one of the frames shown and is not pinned.
-/

namespace AirHuim

open Library

/-- The metadata of a frame. `pinCount` is a `u16`, `sizeBytes`, `accessCount`
and `reloadCostNs` are `u32`, `lastAccessTick` is a `u64`. -/
structure PageMeta where
  pageId : PageId
  sizeBytes : ℕ
  dirty : Bool
  pinCount : ℕ
  lastAccessTick : ℕ
  accessCount : ℕ
  reloadCostNs : ℕ
  deriving DecidableEq, Repr

namespace PageMeta

def new (pageId : PageId) (sizeBytes : ℕ) : PageMeta where
  pageId
  sizeBytes
  dirty := false
  pinCount := 0
  lastAccessTick := 0
  accessCount := 0
  reloadCostNs := 0

def isPinned (m : PageMeta) : Bool := decide (0 < m.pinCount)

end PageMeta

/-- The trait, over the states `π` of the policy. -/
structure EvictionPolicy (π : Type) where
  onAccess : PageId → π → π
  onInsert : PageId → π → π
  onEvict : PageId → π → π
  pickVictim : π → List (PageId × PageMeta) → Option PageId

/-- A victim is one of the frames of the list, and not a pinned one. -/
def EvictionPolicy.Lawful {π : Type} (E : EvictionPolicy π) : Prop :=
  ∀ s frames id, E.pickVictim s frames = some id →
    ∃ info, (id, info) ∈ frames ∧ info.isPinned = false

/-- The largest `u64`. -/
def u64Max : ℕ := 2 ^ 64 - 1

structure LruPolicy where
  clock : ℕ
  lastAccess : Table PageId ℕ

namespace LruPolicy

def new : LruPolicy := ⟨0, ∅⟩

/-- `on_access` and `on_insert`: the clock ticks and the page gets its time. -/
def touch (id : PageId) (s : LruPolicy) : LruPolicy :=
  let clock := (s.clock + 1) % 2 ^ 64
  ⟨clock, s.lastAccess.insert id clock⟩

def onEvict (id : PageId) (s : LruPolicy) : LruPolicy :=
  { s with lastAccess := s.lastAccess.erase id }

/-- One round of the scan: the smallest time seen and its page. -/
def scanFrame (s : LruPolicy) (best : ℕ × Option PageId) (frame : PageId × PageMeta) :
    ℕ × Option PageId :=
  if frame.2.isPinned then best
  else match s.lastAccess.lookup frame.1 with
    | some time => if time < best.1 then (time, some frame.1) else best
    | none => best

def pickVictim (s : LruPolicy) (frames : List (PageId × PageMeta)) : Option PageId :=
  (frames.foldl s.scanFrame (u64Max, none)).2

def policy : EvictionPolicy LruPolicy where
  onAccess := touch
  onInsert := touch
  onEvict := onEvict
  pickVictim := pickVictim

theorem scanFrame_cases (s : LruPolicy) (best : ℕ × Option PageId) (frame : PageId × PageMeta) :
    s.scanFrame best frame = best ∨
      (s.scanFrame best frame).2 = some frame.1 ∧ frame.2.isPinned = false := by
  unfold scanFrame
  cases hpin : frame.2.isPinned with
  | true => exact Or.inl rfl
  | false =>
    cases hlookup : s.lastAccess.lookup frame.1 with
    | none => exact Or.inl rfl
    | some time =>
      by_cases htime : time < best.1
      · exact Or.inr ⟨by simp [htime], rfl⟩
      · exact Or.inl (by simp [htime])

theorem mem_of_foldl_scanFrame (s : LruPolicy) (frames : List (PageId × PageMeta))
    (best : ℕ × Option PageId) {id : PageId} (h : (frames.foldl s.scanFrame best).2 = some id) :
    best.2 = some id ∨ ∃ info, (id, info) ∈ frames ∧ info.isPinned = false := by
  induction frames generalizing best with
  | nil => exact Or.inl h
  | cons frame frames ih =>
    rcases ih (s.scanFrame best frame) h with hbest | ⟨info, hmem, hpin⟩
    · rcases s.scanFrame_cases best frame with hsame | ⟨hnew, hpin⟩
      · rw [hsame] at hbest
        exact Or.inl hbest
      · rw [hnew] at hbest
        cases hbest
        exact Or.inr ⟨frame.2, List.mem_cons_self, hpin⟩
    · exact Or.inr ⟨info, List.mem_cons_of_mem frame hmem, hpin⟩

theorem lawful : policy.Lawful := by
  intro s frames id h
  rcases mem_of_foldl_scanFrame s frames (u64Max, none) h with hnone | hmem
  · exact (Option.some_ne_none id hnone.symm).elim
  · exact hmem

end LruPolicy

end AirHuim
