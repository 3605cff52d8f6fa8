import AirHuim.Library.Basket
import AirHuim.Library.Bytes
import AirHuim.Library.Enumeration

/-!
# The data types of the miners

Items and page ids are natural numbers and utilities are integers. The places
where the code's fixed widths are visible are explicit: an `i64` field of a row
carries the proof that it fits, the `u32` and `u16` fields of records are
truncated where they are written, and a `u32` counter that overflows is a fault,
as in a build with overflow checks.
-/

namespace AirHuim

open Library

abbrev ItemId := ℕ

abbrev Utility := ℤ

abbrev PageId := ℕ

/-- Why a run ends without a result. -/
inductive Fault
  /-- A pool or store operation failed. -/
  | io
  /-- A line of the dataset is not in the grammar. -/
  | parse
  /-- A `u32` counter went past its maximum, or a checked sum left the range of `i64`. -/
  | overflow
  /-- An assertion or an `unwrap` of the code failed. -/
  | panic
  /-- A loop or recursion bound of the model was too small. -/
  | stuck
  deriving DecidableEq, Repr

structure ItemEntry where
  item : ItemId
  utility : Utility
  deriving DecidableEq, Repr

structure RawTransaction where
  tid : ℕ
  transactionUtility : Utility
  items : List ItemEntry
  deriving DecidableEq, Repr

/-- A dataset line in the grammar, before it is given its `tid`. -/
structure SpmfRow where
  items : List ItemEntry
  transactionUtility : Utility
  fits : FitsI64 transactionUtility := by decide

/-- What a list of entries is to the abstract utilities. -/
def basketOf (items : List ItemEntry) : Basket ItemId where
  items := (items.map ItemEntry.item).toFinset
  util x := ((items.filter fun e => e.item = x).map ItemEntry.utility).sum

def SpmfRow.basket (row : SpmfRow) : Basket ItemId := basketOf row.items

/-- Pairwise distinct items, utilities that are not negative, and a stated
transaction utility that is their sum. -/
structure SpmfRow.WellFormed (row : SpmfRow) : Prop where
  distinct : (row.items.map ItemEntry.item).Nodup
  nonneg : ∀ e ∈ row.items, 0 ≤ e.utility
  total : row.transactionUtility = (row.items.map ItemEntry.utility).sum

instance (row : SpmfRow) : Decidable row.WellFormed :=
  decidable_of_iff ((row.items.map ItemEntry.item).Nodup ∧ (∀ e ∈ row.items, 0 ≤ e.utility) ∧
      row.transactionUtility = (row.items.map ItemEntry.utility).sum)
    ⟨fun h => ⟨h.1, h.2.1, h.2.2⟩, fun h => ⟨h.distinct, h.nonneg, h.total⟩⟩

/-- The baskets of a database. -/
def baskets (db : List SpmfRow) : List (Basket ItemId) := db.map SpmfRow.basket

/-- A line of the output file: the itemset and its utility. -/
abbrev Line := List ItemId × Utility

/-- The output is exact: every line is a high-utility itemset with its utility,
no item twice, no itemset twice, and none is missing. -/
abbrev ExactOutput (db : List SpmfRow) (minUtility : Utility) (lines : List Line) : Prop :=
  Lists (fun l : Line => l.1.toFinset) lines (Basket.HighUtility (baskets db) minUtility)
    fun l => l.1.Nodup ∧ Basket.HighUtility (baskets db) minUtility l.1.toFinset ∧
      l.2 = Basket.utility (baskets db) l.1.toFinset

/-- The itemsets of an output file, with their utilities. -/
def emitted (lines : List Line) : Finset (Finset ItemId × Utility) :=
  (lines.map fun l => (l.1.toFinset, l.2)).toFinset

theorem emitted_perm {lines lines' : List Line} (h : lines.Perm lines') :
    emitted lines = emitted lines' :=
  List.toFinset_eq_of_perm _ _ (h.map _)

/-- The pairs of an output that lists a region with the utilities `f`. -/
theorem mem_emitted_of_lists {lines : List Line} {R : Finset ItemId → Prop}
    {f : Finset ItemId → Utility} (h : Lists (fun l : Line => l.1.toFinset) lines R fun l =>
      l.1.Nodup ∧ l.2 = f l.1.toFinset ∧ R l.1.toFinset) (X : Finset ItemId) (u : Utility) :
    (X, u) ∈ emitted lines ↔ R X ∧ u = f X := by
  simp only [emitted, List.mem_toFinset, List.mem_map, Prod.mk.injEq]
  constructor
  · rintro ⟨l, hl, rfl, rfl⟩
    exact ⟨(h.sound l hl).2.2, (h.sound l hl).2.1⟩
  · rintro ⟨hX, rfl⟩
    obtain ⟨l, hl, rfl⟩ := List.mem_map.mp (h.complete X hX)
    exact ⟨l, hl, rfl, (h.sound l hl).2.1⟩

theorem ExactOutput.mem_emitted {db : List SpmfRow} {minUtility : Utility} {lines : List Line}
    (h : ExactOutput db minUtility lines) (X : Finset ItemId) (u : Utility) :
    (X, u) ∈ emitted lines ↔
      Basket.HighUtility (baskets db) minUtility X ∧ u = Basket.utility (baskets db) X :=
  mem_emitted_of_lists (h.mono (fun _ hX => hX) fun _ _ hl => ⟨hl.1, hl.2.2, hl.2.1⟩) X u

/-- Two exact outputs are one set of pairs. -/
theorem ExactOutput.emitted_eq {db : List SpmfRow} {minUtility : Utility} {lines lines' : List Line}
    (h : ExactOutput db minUtility lines) (h' : ExactOutput db minUtility lines') :
    emitted lines = emitted lines' := by
  ext ⟨X, u⟩
  rw [h.mem_emitted, h'.mem_emitted]

/-- An itemset grows by an item that it does not have. -/
theorem append_item {itemset : List ItemId} {P : Finset ItemId} {y : ItemId}
    (hnodup : itemset.Nodup) (hitemset : itemset.toFinset = P) (hy : y ∉ P) :
    (itemset ++ [y]).Nodup ∧ (itemset ++ [y]).toFinset = insert y P := by
  constructor
  · rw [List.nodup_append]
    refine ⟨hnodup, List.nodup_singleton y, ?_⟩
    rintro a ha b hb rfl
    rw [List.mem_singleton.mp hb, ← List.mem_toFinset, hitemset] at ha
    exact hy ha
  · rw [List.toFinset_append, hitemset, Finset.union_comm]
    rfl

theorem mem_basketOf {items : List ItemEntry} {x : ItemId} :
    x ∈ (basketOf items).items ↔ ∃ e ∈ items, e.item = x := by
  simp [basketOf]

/-- With distinct items an entry's utility is what its item is worth. -/
theorem util_basketOf {items : List ItemEntry} (h : (items.map ItemEntry.item).Nodup)
    {e : ItemEntry} (he : e ∈ items) : (basketOf items).util e.item = e.utility := by
  have hfilter : (items.filter fun e' => e'.item = e.item) = [e] := by
    induction items with
    | nil => exact (List.not_mem_nil he).elim
    | cons a items ih =>
      obtain ⟨ha, hitems⟩ := List.nodup_cons.mp h
      rcases List.mem_cons.mp he with rfl | he
      · have hnil : (items.filter fun e' => e'.item = e.item) = [] := by
          rw [List.filter_eq_nil_iff]
          intro b hb hbe
          exact ha (of_decide_eq_true hbe ▸ List.mem_map_of_mem hb)
        simp [hnil]
      · have hne : a.item ≠ e.item := fun hae => ha (hae ▸ List.mem_map_of_mem he)
        simp [hne, ih hitems he]
  simp [basketOf, hfilter]

/-- The worth of some of the entries is their sum. -/
theorem gain_basketOf_sublist {items part : List ItemEntry} (h : (items.map ItemEntry.item).Nodup)
    (hpart : part.Sublist items) :
    (basketOf items).gain (part.map ItemEntry.item).toFinset =
      (part.map ItemEntry.utility).sum := by
  have hsum : (basketOf items).gain (part.map ItemEntry.item).toFinset =
      ((part.map ItemEntry.item).map (basketOf items).util).sum :=
    List.sum_toFinset _ (h.sublist (hpart.map _))
  rw [hsum, List.map_map]
  congr 1
  exact List.map_congr_left fun e he => util_basketOf h (hpart.subset he)

/-- The worth of the whole basket is the sum of the entries. -/
theorem gain_basketOf {items : List ItemEntry} (h : (items.map ItemEntry.item).Nodup) :
    (basketOf items).gain (basketOf items).items = (items.map ItemEntry.utility).sum :=
  gain_basketOf_sublist h (List.Sublist.refl items)

theorem nonneg_basketOf {items : List ItemEntry} (h : ∀ e ∈ items, 0 ≤ e.utility) :
    (basketOf items).Nonneg := by
  intro x _
  apply List.sum_nonneg
  intro z hz
  obtain ⟨e, he, rfl⟩ := List.mem_map.mp hz
  exact h e (List.mem_of_mem_filter he)

end AirHuim
