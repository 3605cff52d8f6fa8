import AirHuim.Library.CheckedProgram
import AirHuim.Mining.PrefixTree

/-!
# Runs over a store that may fail

What holds of an arena is known where the store does not fail. A program that
returns, whatever the store, would have returned the same if no access had failed:
so far as it goes, a run over a failing store is a run over a reliable one.
-/

namespace AirHuim

open Library

namespace NodeArena

/-- The arena, in a store of which no access fails. -/
def reliable (a : NodeArena) : NodeArena :=
  { a with pool := { a.pool with fails := fun _ => false } }

theorem steady_access : Steady reliable access := by
  intro a u a' h
  unfold access at h ⊢
  split_ifs at h
  cases h
  rfl

theorem steady_addPages (n : ℕ) : Steady reliable (addPages n) := by
  induction n with
  | zero => exact Steady.pure ()
  | succ n ih =>
    unfold addPages
    refine steady_access.bind fun _ => ?_
    refine Steady.bind (Steady.modify ?_) fun _ => ih
    exact fun _ => rfl

theorem steady_getNode (ptr : ℕ) : Steady reliable (getNode ptr) := by
  unfold getNode
  refine Steady.get_bind (fun a => ?_) fun _ => rfl
  cases a.pages[pageIndex ptr]? with
  | none => exact Steady.throw _
  | some page => exact steady_access.bind fun _ => Steady.pure _

theorem steady_setNode (ptr : ℕ) (node : TreeNode) : Steady reliable (setNode ptr node) := by
  unfold setNode
  refine Steady.get_bind (fun a => ?_) fun _ => rfl
  cases a.pages[pageIndex ptr]? with
  | none => exact Steady.throw _
  | some page => exact steady_access.bind fun _ => Steady.modify fun _ => rfl

theorem steady_allocateNode (item : ItemId) (weight : Utility) (parent : ℕ) :
    Steady reliable (allocateNode item weight parent) := by
  unfold allocateNode
  refine Steady.get_bind (fun a => ?_) fun _ => rfl
  refine (steady_addPages _).bind fun _ => ?_
  refine (steady_setNode _ _).bind fun _ => ?_
  split_ifs
  · exact Steady.throw _
  · refine Steady.bind (Steady.modify ?_) fun _ => Steady.pure _
    exact fun _ => rfl

theorem steady_release (savedPtr : ℕ) : Steady reliable (release savedPtr) :=
  Steady.modify fun _ => rfl

end NodeArena

open NodeArena

theorem steady_bumpChild (item : ItemId) (weight : Utility) (fuel childPtr : ℕ) :
    Steady reliable (bumpChild item weight fuel childPtr) := by
  induction fuel generalizing childPtr with
  | zero => exact Steady.throw _
  | succ fuel ih =>
    unfold bumpChild
    split_ifs
    · exact Steady.pure _
    · refine (steady_getNode _).bind fun childNode => ?_
      split_ifs
      · exact (steady_setNode _ _).bind fun _ => Steady.pure _
      · exact ih _

section Insertion

variable {H : Type} {attach : H → ℕ → ItemId → Utility → ArenaM (ℕ × H)}
  (hattach : ∀ header current item weight,
    Steady reliable (attach header current item weight))
include hattach

theorem steady_insertPath (header : H) (current : ℕ) (path : List (ItemId × Utility)) :
    Steady reliable (insertPath attach header current path) := by
  induction path generalizing header current with
  | nil => exact Steady.pure _
  | cons e path ih =>
    unfold insertPath
    refine (steady_getNode _).bind fun currNode => ?_
    refine Steady.get_bind (fun a => ?_) fun _ => rfl
    refine (steady_bumpChild _ _ _ _).bind fun found => ?_
    cases found with
    | some child => exact ih _ _
    | none => exact (hattach _ _ _ _).bind fun r => ih _ _

theorem steady_insertAll (root : ℕ) (header : H) (paths : List (List (ItemId × Utility))) :
    Steady reliable (insertAll attach root header paths) := by
  induction paths generalizing header with
  | nil => exact Steady.pure _
  | cons path paths ih => exact (steady_insertPath hattach _ _ _).bind fun header => ih header

end Insertion

theorem steady_pathAbove (root fuel p : ℕ) : Steady reliable (pathAbove root fuel p) := by
  induction fuel generalizing p with
  | zero => exact Steady.throw _
  | succ fuel ih =>
    unfold pathAbove
    split_ifs
    · exact Steady.pure _
    · refine (steady_getNode _).bind fun node => ?_
      exact (ih _).bind fun rest => Steady.pure _

theorem steady_readChain (root fuel curr : ℕ) : Steady reliable (readChain root fuel curr) := by
  induction fuel generalizing curr with
  | zero => exact Steady.throw _
  | succ fuel ih =>
    unfold readChain
    split_ifs
    · exact Steady.pure _
    · refine (steady_getNode _).bind fun node => ?_
      refine Steady.get_bind (fun a => ?_) fun _ => rfl
      refine (steady_pathAbove _ _ _).bind fun path => ?_
      exact (ih _).bind fun rest => Steady.pure _

end AirHuim
