import AirHuim.Experiment.Runner

/-!
# Generated datasets

The generator writes transactions of random items and utilities in the grammar. It
skips an item that it has drawn before, and sorts the items but not the utilities.
Whatever is drawn, the miners accept every line of the file, and the rows that they
read have the drawn items, once each, with utilities that add up to the stated ones.
-/

namespace AirHuim

open Library

/-- An item and its utility, from the ranges of the generator. -/
structure ItemDraw where
  itemId : ItemId
  util : Utility
  itemId_lt : itemId < 40000
  util_pos : 10 ≤ util
  util_lt : util < 1000

/-- The draws for a transaction; `tx_len` is their number. -/
structure TransactionDraws where
  items : List ItemDraw
  length_pos : 0 < items.length
  length_lt : items.length < 50

/-- The variables of the loop over a transaction. -/
structure GeneratedTx where
  items : List ItemId
  utils : List Utility
  tu : Utility
  deriving DecidableEq, Repr

namespace GeneratedTx

def new : GeneratedTx := ⟨[], [], 0⟩

def push (t : GeneratedTx) (draw : ItemDraw) : GeneratedTx :=
  if draw.itemId ∈ t.items then t
  else ⟨t.items ++ [draw.itemId], t.utils ++ [draw.util], t.tu + draw.util⟩

/-- The line, or nothing if there is no item. -/
def line (t : GeneratedTx) : Option Text :=
  if t.items = [] then none
  else
    let items := sortByKey id t.items
    some (joinBlank (items.map formatNat) ++ ':' ::
      (formatInt t.tu ++ ':' :: joinBlank (t.utils.map formatInt)))

end GeneratedTx

def TransactionDraws.generated (draws : TransactionDraws) : GeneratedTx :=
  draws.items.foldl GeneratedTx.push .new

def numTransactions : ℕ := 5000000

def generateDataset (txs : List TransactionDraws) : Text :=
  unlines (txs.filterMap fun draws => draws.generated.line)

/-! ## One transaction -/

namespace GeneratedTx

/-- What holds of the variables after some draws. -/
structure Drawn (draws : List ItemDraw) (t : GeneratedTx) : Prop where
  items : t.items.toFinset = (draws.map ItemDraw.itemId).toFinset
  nodup : t.items.Nodup
  items_lt : ∀ i ∈ t.items, i < 40000
  length : t.items.length = t.utils.length
  utils : ∀ u ∈ t.utils, 10 ≤ u ∧ u ≤ 999
  tu : t.tu = t.utils.sum
  length_le : t.items.length ≤ draws.length

theorem drawn_new : Drawn [] new where
  items := rfl
  nodup := List.nodup_nil
  items_lt := nofun
  length := rfl
  utils := nofun
  tu := rfl
  length_le := le_rfl

theorem Drawn.push {draws : List ItemDraw} {t : GeneratedTx} (h : Drawn draws t)
    (draw : ItemDraw) : Drawn (draws ++ [draw]) (t.push draw) := by
  have hlength := h.length_le
  unfold GeneratedTx.push
  split
  · rename_i hmem
    refine ⟨?_, h.nodup, h.items_lt, h.length, h.utils, h.tu, ?_⟩
    · have hdrawn : draw.itemId ∈ (draws.map ItemDraw.itemId).toFinset :=
        h.items ▸ List.mem_toFinset.mpr hmem
      rw [h.items, List.map_append, List.toFinset_append, List.map_singleton]
      exact (Finset.union_eq_left.mpr (by simpa using hdrawn)).symm
    · rw [List.length_append]
      exact hlength.trans (Nat.le_add_right _ _)
  · rename_i hnew
    refine ⟨?_, ?_, fun i hi => ?_, ?_, fun u hu => ?_, ?_, ?_⟩
    · rw [List.toFinset_append, List.map_append, List.toFinset_append, h.items, List.map_singleton]
    · exact (append_item h.nodup rfl fun hmem => hnew (List.mem_toFinset.mp hmem)).1
    · rcases List.mem_append.mp hi with hi | hi
      · exact h.items_lt i hi
      · rw [List.mem_singleton.mp hi]
        exact draw.itemId_lt
    · simp [h.length]
    · rcases List.mem_append.mp hu with hu | hu
      · exact h.utils u hu
      · rw [List.mem_singleton.mp hu]
        exact ⟨draw.util_pos, Int.le_of_lt_add_one draw.util_lt⟩
    · simp [h.tu]
    · simpa using hlength

theorem drawn_foldl (draws : List ItemDraw) : Drawn draws (draws.foldl push new) := by
  induction draws using List.reverseRecOn with
  | nil => exact drawn_new
  | append_singleton draws draw ih =>
    rw [List.foldl_append]
    exact ih.push draw

/-- The total stays far within the `i32` that it is added up in. -/
theorem Drawn.tu_le {draws : List ItemDraw} {t : GeneratedTx} (h : Drawn draws t) :
    0 ≤ t.tu ∧ t.tu ≤ 999 * draws.length := by
  have hsum : t.utils.sum ≤ t.utils.length • (999 : ℤ) :=
    List.sum_le_card_nsmul _ _ fun u hu => (h.utils u hu).2
  have hlength := h.length_le
  rw [h.length] at hlength
  rw [h.tu]
  refine ⟨List.sum_nonneg fun u hu => le_trans (by decide) (h.utils u hu).1, ?_⟩
  rw [nsmul_eq_mul] at hsum
  have hcast : (t.utils.length : ℤ) ≤ draws.length := by exact_mod_cast hlength
  linarith

end GeneratedTx

namespace TransactionDraws

variable (draws : TransactionDraws)

theorem drawn : GeneratedTx.Drawn draws.items draws.generated := GeneratedTx.drawn_foldl _

theorem generated_tu_le : 0 ≤ draws.generated.tu ∧ draws.generated.tu < 50000 := by
  obtain ⟨hpos, hle⟩ := draws.drawn.tu_le
  have hlength : (draws.items.length : ℤ) < 50 := by exact_mod_cast draws.length_lt
  exact ⟨hpos, by linarith⟩

/-- The row that is on the line: the smallest item with the utility drawn first. -/
def row : SpmfRow where
  items := ((sortByKey id draws.generated.items).zip draws.generated.utils).map fun e => ⟨e.1, e.2⟩
  transactionUtility := draws.generated.tu
  fits := by
    obtain ⟨hpos, hlt⟩ := draws.generated_tu_le
    exact ⟨by linarith, by linarith⟩

theorem length_sorted :
    (sortByKey id draws.generated.items).length = draws.generated.utils.length :=
  (sortByKey_perm id _).length_eq.trans draws.drawn.length

theorem row_items : draws.row.items.map ItemEntry.item = sortByKey id draws.generated.items := by
  rw [row, List.map_map]
  exact List.map_fst_zip draws.length_sorted.le

theorem row_utilities : draws.row.items.map ItemEntry.utility = draws.generated.utils := by
  rw [row, List.map_map]
  exact List.map_snd_zip draws.length_sorted.ge

/-- The items of the row are the drawn ones in ascending order. -/
theorem row_items_sort :
    draws.row.items.map ItemEntry.item =
      (draws.items.map ItemDraw.itemId).toFinset.sort (· ≤ ·) := by
  have hline := sortedLine_of_nodup (l := (draws.generated.items, 0)) draws.drawn.nodup
  rw [row_items, ← draws.drawn.items]
  exact congrArg Prod.fst hline

theorem row_wellFormed : draws.row.WellFormed where
  distinct := by
    rw [row_items, (sortByKey_perm id _).nodup_iff]
    exact draws.drawn.nodup
  nonneg e he := by
    have hmem := List.mem_map_of_mem (f := ItemEntry.utility) he
    rw [row_utilities] at hmem
    exact le_trans (by decide) (draws.drawn.utils _ hmem).1
  total := by
    rw [row_utilities]
    exact draws.drawn.tu

theorem row_fits : ∀ e ∈ draws.row.items, e.Fits := by
  intro e he
  constructor
  · have hmem := List.mem_map_of_mem (f := ItemEntry.item) he
    rw [row_items, mem_sortByKey] at hmem
    exact (draws.drawn.items_lt _ hmem).trans (by decide)
  · have hmem := List.mem_map_of_mem (f := ItemEntry.utility) he
    rw [row_utilities] at hmem
    obtain ⟨hpos, hle⟩ := draws.drawn.utils _ hmem
    exact ⟨by linarith, by linarith⟩

/-- An item is drawn, so there is a line, and it is the rendered row. -/
theorem line_generated :
    draws.generated.line =
      some (renderTransaction draws.row.items draws.row.transactionUtility) := by
  have hne : draws.generated.items ≠ [] := by
    intro hnil
    have hitems := draws.drawn.items
    rw [hnil, List.toFinset_nil] at hitems
    have hlength := draws.length_pos
    rw [List.length_pos_iff] at hlength
    exact hlength (List.map_eq_nil_iff.mp (List.toFinset_eq_empty_iff _ |>.mp hitems.symm))
  have hitems : draws.row.items.map (fun e => formatNat e.item) =
      (sortByKey id draws.generated.items).map formatNat := by
    rw [← row_items, List.map_map]
    rfl
  have hutils : draws.row.items.map (fun e => formatInt e.utility) =
      draws.generated.utils.map formatInt := by
    rw [← row_utilities, List.map_map]
    rfl
  rw [GeneratedTx.line, if_neg hne, renderTransaction, hitems, hutils]
  rfl

end TransactionDraws

/-! ## The file -/

/-- What the miners read of a generated file. -/
structure Generates (txs : List TransactionDraws) (text : Text) : Prop where
  rows : sourceOf text = txs.map fun draws => .ok draws.row
  items : ∀ draws ∈ txs, draws.row.items.map ItemEntry.item =
    (draws.items.map ItemDraw.itemId).toFinset.sort (· ≤ ·)
  utilities : ∀ draws ∈ txs, ∀ e ∈ draws.row.items, 10 ≤ e.utility ∧ e.utility ≤ 999
  mineable : Mineable text

theorem sourceOf_generateDataset (txs : List TransactionDraws) :
    sourceOf (generateDataset txs) = txs.map fun draws => .ok draws.row := by
  have hlines : (txs.map fun draws => SourceLine.transaction draws.row draws.row_fits).map
      SourceLine.text = txs.filterMap fun draws => draws.generated.line := by
    rw [List.map_map, ← List.filterMap_eq_map]
    exact List.filterMap_congr fun draws _ => draws.line_generated.symm
  have hread := sourceOf_fileText
    (txs.map fun draws => SourceLine.transaction draws.row draws.row_fits) none
  rw [fileText, hlines, Option.elim_none, List.append_nil, Option.toList_none, List.append_nil,
    List.filterMap_map] at hread
  rw [generateDataset, hread, ← List.filterMap_eq_map]
  rfl

/-- Whatever is drawn, the miners accept the file, and read the drawn items from it. -/
theorem generateDataset_generates {txs : List TransactionDraws}
    (h : txs.length ≤ numTransactions) : Generates txs (generateDataset txs) := by
  have hrows : acceptedRows (sourceOf (generateDataset txs)) = txs.map TransactionDraws.row := by
    rw [sourceOf_generateDataset]
    exact (congrArg acceptedRows List.map_map.symm).trans (acceptedRows_map_ok _)
  refine ⟨sourceOf_generateDataset txs, fun draws _ => draws.row_items_sort, fun draws _ e he => ?_,
    ?_, ?_, ?_, ?_⟩
  · have hmem := List.mem_map_of_mem (f := ItemEntry.utility) he
    rw [TransactionDraws.row_utilities] at hmem
    exact draws.drawn.utils _ hmem
  · intro line hline
    rw [sourceOf_generateDataset] at hline
    obtain ⟨draws, -, rfl⟩ := List.mem_map.mp hline
    rfl
  · intro row hrow
    rw [hrows] at hrow
    obtain ⟨draws, -, rfl⟩ := List.mem_map.mp hrow
    exact draws.row_wellFormed
  · rw [hrows, List.length_map]
    rw [numTransactions] at h
    omega
  · have hsum : (txs.map fun draws => draws.row.transactionUtility).sum ≤
        (txs.map fun draws => draws.row.transactionUtility).length • (50000 : ℤ) := by
      refine List.sum_le_card_nsmul _ _ fun u hu => ?_
      obtain ⟨draws, -, rfl⟩ := List.mem_map.mp hu
      exact draws.generated_tu_le.2.le
    have hcast : (txs.length : ℤ) ≤ 5000000 := by exact_mod_cast h
    rw [List.length_map, nsmul_eq_mul] at hsum
    rw [hrows, List.map_map]
    refine lt_of_le_of_lt hsum ?_
    linarith

/-- The item 7 is drawn twice. -/
def repeatedDraws : TransactionDraws where
  items := [⟨7, 10, by decide, by decide, by decide⟩, ⟨7, 500, by decide, by decide, by decide⟩,
    ⟨3, 20, by decide, by decide, by decide⟩]
  length_pos := by decide
  length_lt := by decide

theorem generateDataset_generates_repeated :
    Generates [repeatedDraws] (generateDataset [repeatedDraws]) :=
  generateDataset_generates (by decide)

example : generateDataset [repeatedDraws] = "3 7:30:10 20\n".toList := by decide

end AirHuim
