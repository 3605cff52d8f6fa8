import AirHuim.BufferPool.PromptPolicy

/-!
# The mining-aware policy

The policy of the command line scores every page that is not pinned by the time
since its last use, how often it was used and what it costs to load it, and evicts
the one with the largest score. The scores are `f32`; what is used of that type
are its operations and that its comparison is a strict order, which also holds
with infinities and NaN.
-/

namespace AirHuim

open Library

/-- The operations on `f32` that the score needs. `ofNat` is the cast of an integer. -/
structure FloatOps (F : Type) where
  ofNat : ℕ → F
  mul : F → F → F
  sub : F → F → F
  gt : F → F → Bool
  negInfinity : F

/-- What is used of the comparison. -/
structure FloatOps.Ordered {F : Type} (A : FloatOps F) : Prop where
  irrefl : ∀ a, A.gt a a = false
  trans : ∀ a b c, A.gt a b = true → A.gt b c = true → A.gt a c = true

structure EvictionWeights (F : Type) where
  wRecency : F
  wFreq : F
  wFuture : F
  wReload : F

/-- All weights 1. -/
def EvictionWeights.default {F : Type} (A : FloatOps F) : EvictionWeights F :=
  ⟨A.ofNat 1, A.ofNat 1, A.ofNat 1, A.ofNat 1⟩

/-- The policy's state; its weights never change and are kept apart. -/
structure MiningAwarePolicy where
  clock : ℕ

namespace MiningAwarePolicy

variable {F : Type} (A : FloatOps F) (weights : EvictionWeights F)

def new : MiningAwarePolicy := ⟨0⟩

/-- `on_access` and `on_insert`. -/
def touch (_ : PageId) (s : MiningAwarePolicy) : MiningAwarePolicy := ⟨(s.clock + 1) % 2 ^ 64⟩

/-- The score of a page; the predicted probability of every page is 0, since nothing
sets it. -/
def scoreOf (recency freq reloadCostNs : ℕ) : F :=
  A.sub
    (A.sub
      (A.sub (A.mul weights.wRecency (A.ofNat recency)) (A.mul weights.wFreq (A.ofNat freq)))
      (A.mul weights.wFuture (A.ofNat 0)))
    (A.mul weights.wReload (A.ofNat reloadCostNs))

def score (s : MiningAwarePolicy) (info : PageMeta) : F :=
  scoreOf A weights (s.clock - info.lastAccessTick) info.accessCount info.reloadCostNs

/-- One round of the scan: the largest score seen and its page. -/
def scanFrame (s : MiningAwarePolicy) (best : F × Option PageId) (frame : PageId × PageMeta) :
    F × Option PageId :=
  if frame.2.isPinned then best
  else if A.gt (s.score A weights frame.2) best.1 then (s.score A weights frame.2, some frame.1)
  else best

def pickVictim (s : MiningAwarePolicy) (frames : List (PageId × PageMeta)) : Option PageId :=
  (frames.foldl (s.scanFrame A weights) (A.negInfinity, none)).2

def policy : EvictionPolicy MiningAwarePolicy where
  onAccess := touch
  onInsert := touch
  onEvict _ s := s
  pickVictim := pickVictim A weights

variable {A weights}

/-- What the scan has found among the frames seen so far. -/
structure Scanned (A : FloatOps F) (weights : EvictionWeights F) (s : MiningAwarePolicy)
    (frames : List (PageId × PageMeta)) (best : F × Option PageId) : Prop where
  largest : ∀ e ∈ frames, e.2.isPinned = false → A.gt (s.score A weights e.2) best.1 = false
  found : ∀ id, best.2 = some id → ∃ info, (id, info) ∈ frames ∧ info.isPinned = false ∧
    best.1 = s.score A weights info
  none : best.2 = none → best.1 = A.negInfinity

theorem Scanned.scanFrame {s : MiningAwarePolicy} {frames : List (PageId × PageMeta)}
    {best : F × Option PageId} (hA : A.Ordered) (h : Scanned A weights s frames best)
    (frame : PageId × PageMeta) :
    Scanned A weights s (frames ++ [frame]) (s.scanFrame A weights best frame) := by
  have hkeep : (frame.2.isPinned = false → A.gt (s.score A weights frame.2) best.1 = false) →
      Scanned A weights s (frames ++ [frame]) best := by
    intro hframe
    refine ⟨fun e he hpin => ?_, fun id hid => ?_, h.none⟩
    · rcases List.mem_append.mp he with he | he
      · exact h.largest e he hpin
      · obtain rfl := List.mem_singleton.mp he
        exact hframe hpin
    · obtain ⟨info, hmem, hrest⟩ := h.found id hid
      exact ⟨info, List.mem_append_left _ hmem, hrest⟩
  unfold MiningAwarePolicy.scanFrame
  cases hpin : frame.2.isPinned with
  | true =>
    rw [if_pos rfl]
    exact hkeep fun hfalse => (Bool.false_ne_true (hfalse.symm.trans hpin)).elim
  | false =>
    rw [if_neg Bool.false_ne_true]
    cases hgt : A.gt (s.score A weights frame.2) best.1 with
    | false =>
      rw [if_neg Bool.false_ne_true]
      exact hkeep fun _ => hgt
    | true =>
      rw [if_pos rfl]
      refine ⟨fun e he hfree => ?_, fun id hid => ?_, fun hnone => by cases hnone⟩
      · rcases List.mem_append.mp he with he | he
        · by_contra hlarger
          rw [Bool.not_eq_false] at hlarger
          have hbest := hA.trans _ _ _ hlarger hgt
          rw [h.largest e he hfree] at hbest
          exact Bool.false_ne_true hbest
        · obtain rfl := List.mem_singleton.mp he
          exact hA.irrefl _
      · cases hid
        exact ⟨frame.2, List.mem_append_right _ (List.mem_singleton_self frame), hpin, rfl⟩

theorem scanned_foldl (hA : A.Ordered) (weights : EvictionWeights F) (s : MiningAwarePolicy)
    (frames : List (PageId × PageMeta)) :
    Scanned A weights s frames (frames.foldl (s.scanFrame A weights) (A.negInfinity, none)) := by
  induction frames using List.reverseRecOn with
  | nil => exact ⟨nofun, nofun, fun _ => rfl⟩
  | append_singleton frames frame ih =>
    rw [List.foldl_append]
    exact ih.scanFrame hA frame

/-- A victim has a score that no other page that is not pinned exceeds. -/
theorem largest_victim (hA : A.Ordered) {s : MiningAwarePolicy}
    {frames : List (PageId × PageMeta)} {id : PageId}
    (h : s.pickVictim A weights frames = some id) :
    ∃ info, (id, info) ∈ frames ∧ info.isPinned = false ∧
      ∀ e ∈ frames, e.2.isPinned = false →
        A.gt (s.score A weights e.2) (s.score A weights info) = false := by
  have hscan := scanned_foldl hA weights s frames
  obtain ⟨info, hmem, hpin, hbest⟩ := hscan.found id h
  refine ⟨info, hmem, hpin, fun e he hfree => ?_⟩
  rw [← hbest]
  exact hscan.largest e he hfree

theorem lawful (hA : A.Ordered) : (policy A weights).Lawful := by
  intro s frames id h
  obtain ⟨info, hmem, hpin, -⟩ := largest_victim hA h
  exact ⟨info, hmem, hpin⟩

/-- As long as no score is as low as minus infinity, there is a victim. -/
theorem prompt (hA : A.Ordered)
    (hfinite : ∀ recency freq reloadCostNs,
      A.gt (scoreOf A weights recency freq reloadCostNs) A.negInfinity = true) :
    (policy A weights).Prompt := by
  intro s frames e he hfree hnone
  have hscan := scanned_foldl hA weights s frames
  have hlargest := hscan.largest e he hfree
  rw [hscan.none hnone, score, hfinite] at hlargest
  cases hlargest

end MiningAwarePolicy

/-! ## Exact scores -/

/-- The operations without rounding; `none` is minus infinity. -/
def exactOps : FloatOps (Option ℤ) where
  ofNat n := some n
  mul a b := do return (← a) * (← b)
  sub a b := do return (← a) - (← b)
  gt
    | some a, some b => decide (b < a)
    | some _, none => true
    | none, _ => false
  negInfinity := none

theorem exactOps_ordered : exactOps.Ordered where
  irrefl a := by cases a <;> simp [exactOps]
  trans a b c := by
    cases a <;> cases b <;> cases c <;> simp [exactOps]
    omega

theorem exactOps_finite (recency freq reloadCostNs : ℕ) :
    exactOps.gt (MiningAwarePolicy.scoreOf exactOps (.default exactOps) recency freq reloadCostNs)
      exactOps.negInfinity = true := rfl

namespace Session

/-- Page 1 is under a guard and leaves one byte of room. -/
theorem refuses_only_full_guarded :
    AllStates (next (MiningAwarePolicy.policy exactOps (.default exactOps)) asListed)
      (RefusesOnlyFull (MiningAwarePolicy.policy exactOps (.default exactOps)) asListed)
      (Session.new (BufferPool.new 4 emptyStore MiningAwarePolicy.new))
      [.insertPage 1 [7, 8, 9], .pin false 1 0] :=
  refuses_only_full (MiningAwarePolicy.lawful exactOps_ordered)
    (MiningAwarePolicy.prompt exactOps_ordered exactOps_finite) asListed 4 emptyStore
    (fun _ => rfl) MiningAwarePolicy.new [.insertPage 1 [7, 8, 9], .pin false 1 0]
    ⟨⟨List.not_mem_nil, pinsFit_of_length (by decide +kernel)⟩,
      ⟨trivial, pinsFit_of_length (by decide +kernel)⟩, trivial⟩

end Session

end AirHuim
