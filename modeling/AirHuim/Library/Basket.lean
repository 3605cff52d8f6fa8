import Mathlib.Algebra.BigOperators.Group.Finset.Basic
import Mathlib.Algebra.Order.BigOperators.Group.Finset
import Mathlib.Algebra.Order.BigOperators.Group.List
import Mathlib.Tactic

/-!
# Utility of itemsets over baskets

A basket is a finite set of items with a utility for each. The utility of an
itemset is what its items are worth in the baskets that contain all of it. The
one bound below is behind every pruning rule used later: any sum over baskets
that include the containing ones, of amounts at least as large as the itemset's
worth there, is at least the itemset's utility.
-/

namespace AirHuim.Library

open Finset

structure Basket (α : Type*) where
  items : Finset α
  util : α → ℤ

namespace Basket

variable {α : Type*}

/-- What the items of `X` are worth in the basket. -/
def gain (b : Basket α) (X : Finset α) : ℤ := ∑ x ∈ X, b.util x

def Nonneg (b : Basket α) : Prop := ∀ x ∈ b.items, 0 ≤ b.util x

def Occurs (B : List (Basket α)) (X : Finset α) : Prop := ∃ b ∈ B, X ⊆ b.items

theorem Occurs.mono {B : List (Basket α)} {X Y : Finset α} (h : Occurs B X) (hYX : Y ⊆ X) :
    Occurs B Y := by
  obtain ⟨b, hb, hX⟩ := h
  exact ⟨b, hb, hYX.trans hX⟩

theorem gain_nonneg {b : Basket α} (hb : b.Nonneg) {X : Finset α} (hX : X ⊆ b.items) :
    0 ≤ b.gain X :=
  sum_nonneg fun x hx => hb x (hX hx)

theorem gain_le_gain {b : Basket α} (hb : b.Nonneg) {X Y : Finset α} (hXY : X ⊆ Y)
    (hY : Y ⊆ b.items) : b.gain X ≤ b.gain Y :=
  sum_le_sum_of_subset_of_nonneg hXY fun x hx _ => hb x (hY hx)

@[simp] theorem gain_empty (b : Basket α) : b.gain ∅ = 0 := sum_empty

@[simp] theorem gain_singleton (b : Basket α) (x : α) : b.gain {x} = b.util x := sum_singleton _ _

variable [DecidableEq α]

instance (B : List (Basket α)) (X : Finset α) : Decidable (Occurs B X) :=
  inferInstanceAs (Decidable (∃ b ∈ B, X ⊆ b.items))

theorem gain_insert (b : Basket α) {x : α} {X : Finset α} (hx : x ∉ X) :
    b.gain (insert x X) = b.util x + b.gain X :=
  sum_insert hx

theorem gain_union (b : Basket α) {X Y : Finset α} (h : Disjoint X Y) :
    b.gain (X ∪ Y) = b.gain X + b.gain Y :=
  sum_union h

def utility (B : List (Basket α)) (X : Finset α) : ℤ :=
  ((B.filter fun b => X ⊆ b.items).map fun b => b.gain X).sum

/-- The itemsets a miner has to report. -/
structure HighUtility (B : List (Basket α)) (minUtility : ℤ) (X : Finset α) : Prop where
  nonempty : X.Nonempty
  occurs : Occurs B X
  le : minUtility ≤ utility B X

theorem highUtility_iff {B : List (Basket α)} {m : ℤ} {X : Finset α} :
    HighUtility B m X ↔ X.Nonempty ∧ Occurs B X ∧ m ≤ utility B X :=
  ⟨fun h => ⟨h.nonempty, h.occurs, h.le⟩, fun h => ⟨h.1, h.2.1, h.2.2⟩⟩

instance (B : List (Basket α)) (m : ℤ) (X : Finset α) : Decidable (HighUtility B m X) :=
  decidable_of_iff _ highUtility_iff.symm

/-- All of them. -/
def highUtilitySets (B : List (Basket α)) (m : ℤ) : Finset (Finset α) :=
  (B.foldr (fun (b : Basket α) X => b.items ∪ X) ∅).powerset.filter (HighUtility B m)

@[simp] theorem mem_highUtilitySets {B : List (Basket α)} {m : ℤ} {X : Finset α} :
    X ∈ highUtilitySets B m ↔ HighUtility B m X := by
  rw [highUtilitySets, Finset.mem_filter, Finset.mem_powerset, and_iff_right_of_imp]
  rintro ⟨-, ⟨b, hb, hX⟩, -⟩
  apply hX.trans
  induction B with
  | nil => simp at hb
  | cons c B ih =>
    rw [List.foldr_cons]
    rcases List.mem_cons.mp hb with rfl | hb
    · exact Finset.subset_union_left
    · exact (ih hb).trans Finset.subset_union_right

section Rows

variable {ρ : Type*} (bk : ρ → Basket α) {rows : List ρ}

omit [DecidableEq α] in
theorem occurs_map (rows : List ρ) (X : Finset α) :
    Occurs (rows.map bk) X ↔ ∃ r ∈ rows, X ⊆ (bk r).items := by
  simp [Occurs]

theorem utility_map (rows : List ρ) (X : Finset α) :
    utility (rows.map bk) X =
      ((rows.filter fun r => X ⊆ (bk r).items).map fun r => (bk r).gain X).sum := by
  simp [utility, List.filter_map, Function.comp_def]

/-- The bound behind every pruning rule. -/
theorem utility_le_sum {X : Finset α} (p : ρ → Bool) (f : ρ → ℤ)
    (hp : ∀ r ∈ rows, X ⊆ (bk r).items → p r = true)
    (hle : ∀ r ∈ rows, X ⊆ (bk r).items → (bk r).gain X ≤ f r)
    (hnn : ∀ r ∈ rows, p r = true → 0 ≤ f r) :
    utility (rows.map bk) X ≤ ((rows.filter p).map f).sum := by
  rw [utility_map]
  induction rows with
  | nil => simp
  | cons r rows ih =>
    have ih := ih (fun r' hr' => hp r' (List.mem_cons_of_mem r hr'))
      (fun r' hr' => hle r' (List.mem_cons_of_mem r hr'))
      (fun r' hr' => hnn r' (List.mem_cons_of_mem r hr'))
    by_cases hX : X ⊆ (bk r).items
    · have hpr := hp r List.mem_cons_self hX
      have hr := hle r List.mem_cons_self hX
      simp only [List.filter_cons, hX, hpr, decide_true, if_true, List.map_cons, List.sum_cons]
      exact add_le_add hr ih
    · cases hpr : p r
      · simpa [List.filter_cons, hX, hpr] using ih
      · have h0 := hnn r List.mem_cons_self hpr
        simp only [List.filter_cons, hX, hpr, decide_false, if_true, List.map_cons, List.sum_cons,
          Bool.false_eq_true, if_false]
        exact le_add_of_nonneg_of_le h0 ih

/-- Rewriting the rows in a way that `X` does not notice changes neither where
`X` occurs nor what it is worth. -/
theorem utility_filterMap {ρ' : Type*} (bk' : ρ' → Basket α) (apply : ρ → Option ρ')
    {X : Finset α}
    (hsome : ∀ r ∈ rows, ∀ r', apply r = some r' →
      (X ⊆ (bk' r').items ↔ X ⊆ (bk r).items) ∧
        (X ⊆ (bk r).items → (bk' r').gain X = (bk r).gain X))
    (hnone : ∀ r ∈ rows, apply r = none → ¬ X ⊆ (bk r).items) :
    utility ((rows.filterMap apply).map bk') X = utility (rows.map bk) X ∧
      (Occurs ((rows.filterMap apply).map bk') X ↔ Occurs (rows.map bk) X) := by
  simp only [utility_map, occurs_map]
  induction rows with
  | nil => simp
  | cons r rows ih =>
    have ih := ih (fun r' hr' => hsome r' (List.mem_cons_of_mem r hr'))
      (fun r' hr' => hnone r' (List.mem_cons_of_mem r hr'))
    cases ha : apply r with
    | none =>
      have hX := hnone r List.mem_cons_self ha
      simpa [ha, hX] using ih
    | some r' =>
      obtain ⟨hitems, hgain⟩ := hsome r List.mem_cons_self r' ha
      by_cases hX : X ⊆ (bk r).items
      · simpa [ha, hX, hitems, hgain hX] using ih.1
      · simpa [ha, hX, hitems] using ih

end Rows

/-! ## Closed itemsets -/

/-- No larger itemset is in all the baskets that this one is in. -/
def Closed (B : List (Basket α)) (X : Finset α) : Prop :=
  ∀ Y, X ⊂ Y → ∃ b ∈ B, X ⊆ b.items ∧ ¬ Y ⊆ b.items

variable {B : List (Basket α)} {X : Finset α}

/-- It is enough to look at one more item. -/
theorem closed_iff : Closed B X ↔ ∀ y ∉ X, ∃ b ∈ B, X ⊆ b.items ∧ y ∉ b.items := by
  constructor
  · intro h y hy
    obtain ⟨b, hb, hX, hY⟩ := h (insert y X) (Finset.ssubset_insert hy)
    exact ⟨b, hb, hX, fun hmem => hY (Finset.insert_subset hmem hX)⟩
  · intro h Y hXY
    obtain ⟨y, hyY, hyX⟩ := Finset.exists_of_ssubset hXY
    obtain ⟨b, hb, hX, hy⟩ := h y hyX
    exact ⟨b, hb, hX, fun hY => hy (hY hyY)⟩

/-- An item that is in all the baskets of a high-utility itemset can be added to it. -/
theorem HighUtility.insert_of_forall {m : ℤ} (h : HighUtility B m X)
    (hnonneg : ∀ b ∈ B, b.Nonneg) {y : α} (hy : ∀ b ∈ B, X ⊆ b.items → y ∈ b.items) :
    HighUtility B m (insert y X) := by
  have hinsert : ∀ b ∈ B, X ⊆ b.items → insert y X ⊆ b.items :=
    fun b hb hX => Finset.insert_subset (hy b hb hX) hX
  obtain ⟨b, hb, hX⟩ := h.occurs
  refine ⟨Finset.insert_nonempty y X, ⟨b, hb, hinsert b hb hX⟩, h.le.trans ?_⟩
  have hle := utility_le_sum (X := X) id (fun b : Basket α => decide (insert y X ⊆ b.items))
    (fun b => b.gain (insert y X)) (fun b hb hX => decide_eq_true (hinsert b hb hX))
    (fun b hb hX => gain_le_gain (hnonneg b hb) (Finset.subset_insert y X) (hinsert b hb hX))
    fun b hb hX => gain_nonneg (hnonneg b hb) (of_decide_eq_true hX)
  rwa [List.map_id] at hle

end Basket

end AirHuim.Library
