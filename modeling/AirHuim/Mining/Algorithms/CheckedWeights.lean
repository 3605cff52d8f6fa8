import AirHuim.Mining.Algorithms.EfimExact
import AirHuim.Mining.Algorithms.TwoPhaseExact
import AirHuim.Mining.CheckedPasses

/-!
# Runs whose weights are checked

EFIM and Two-Phase in a build that faults where a sum leaves the range of `i64`. The
weights of the first pass are their greatest sums: whatever they add up later they take
from the transactions of one item, from each no more than what is stated for it. So a
run overflows in its first pass or in no pass at all.
-/

namespace AirHuim

open Library Basket

theorem fits_prefix_sum {values all : List ℤ} (hpre : values <+: all) (hnonneg : ∀ v ∈ all, 0 ≤ v)
    (hsum : all.sum < 2 ^ 63) : FitsI64 values.sum := by
  have hlo : 0 ≤ values.sum := List.sum_nonneg fun v hv => hnonneg v (hpre.subset hv)
  have hhi : values.sum ≤ all.sum := hpre.sublist.sum_le_sum hnonneg
  exact ⟨le_trans (by decide) hlo, hhi.trans_lt hsum⟩

namespace Efim

/-- A run after its first pass. -/
def mineFiltered (task : Env → ℕ → ItemId → Task Unit) (order : HashOrder) (ctx : MiningContext)
    (txs : List RawTransaction) (r : TwuFilterResult) : Except Fault (ℕ × World) := do
  let db := (filteredDb r txs).map (loadTx r)
  let dbSizeBytes := (db.map fun tx => tx.items.length * (4 + 8 + 8)).sum
  let tasks := primaryItems order r
  let w ← executeTasks ctx { ctx.world with guard := ctx.world.guard.forceAlloc dbSizeBytes }
    (tasks.map (task ⟨db, ctx.minUtility, order⟩ (tasks.length + 1)))
  return (w.huisFound, { w with guard := w.guard.free dbSizeBytes })

/-- `run`, whose weights are checked. -/
def runChecked (order : HashOrder) (source : DataSource) (ctx : MiningContext) :
    Except Fault (ℕ × World) := do
  let txs := okOnly (← readDb source)
  mineFiltered itemTask order ctx txs (← TwuFilter.computeChecked ctx.minUtility txs)

/-- `runWith`, whose weights are checked. -/
def runWithChecked (write : Env → Writer) (order : HashOrder) (source : DataSource)
    (ctx : MiningContext) : Except Fault (ℕ × World) := do
  let txs := okOnly (← readDb source)
  mineFiltered (fun env => itemTaskWith (write env) env) order ctx txs
    (← TwuFilter.computeChecked ctx.minUtility txs)

section Run

variable (order : HashOrder) (ctx : MiningContext) (db : List SpmfRow)

/-- Where the weights fit, a checked run is the run. -/
theorem runWithChecked_map_ok (write : Env → Writer) :
    runWithChecked write order (db.map .ok) ctx =
      if TwuFilter.SumsFit (numbered 0 db) then runWith write order (db.map .ok) ctx
      else .error .overflow := by
  unfold runWithChecked runWith
  rw [readDb_map_ok]
  by_cases hlen : db.length < 2 ^ 32
  · rw [if_pos hlen]
    simp only [bind, Except.bind, okOnly_map_ok, TwuFilter.computeChecked_eq]
    split_ifs <;> rfl
  · rw [if_neg hlen]
    exact (ite_self _).symm

theorem runChecked_map_ok :
    runChecked order (db.map .ok) ctx =
      if TwuFilter.SumsFit (numbered 0 db) then run order (db.map .ok) ctx
      else .error .overflow := by
  unfold runChecked run
  rw [readDb_map_ok]
  by_cases hlen : db.length < 2 ^ 32
  · rw [if_pos hlen]
    simp only [bind, Except.bind, okOnly_map_ok, TwuFilter.computeChecked_eq]
    split_ifs <;> rfl
  · rw [if_neg hlen]
    exact (ite_self _).symm

theorem sumsFit_of_runChecked {result : ℕ × World}
    (h : runChecked order (db.map .ok) ctx = .ok result) :
    TwuFilter.SumsFit (numbered 0 db) ∧ run order (db.map .ok) ctx = .ok result := by
  rw [runChecked_map_ok] at h
  split_ifs at h with hfit
  exact ⟨hfit, h⟩

end Run

/-! ## The other sums of EFIM -/

section Sums

variable {rank : ItemId → Utility ×ₗ ItemId} {rows : List FilteredTransaction}
  {P : Finset ItemId} {y : ItemId}

/-- The rows of an item are worth no more than an `i64` together. -/
def RowsFit (rows : List FilteredTransaction) : Prop :=
  ∀ x, ((rows.filter fun r => {x} ⊆ r.basket.items).map
    FilteredTransaction.transactionUtility).sum < 2 ^ 63

theorem rowsFit_filteredDb {txs : List RawTransaction} (hwf : ∀ tx ∈ txs, tx.WellFormed)
    (h : TwuFilter.SumsFit txs) (r : TwuFilterResult) : RowsFit (filteredDb r txs) := by
  intro x
  have hle : (((filteredDb r txs).filter fun r => {x} ⊆ r.basket.items).map
      FilteredTransaction.transactionUtility).sum ≤ twuOf txs {x} := by
    clear h
    induction txs with
    | nil => exact le_rfl
    | cons tx txs ih =>
      have hrest := ih fun tx' htx' => hwf tx' (List.mem_cons_of_mem tx htx')
      have htx := hwf tx List.mem_cons_self
      have htail : twuOf txs {x} ≤ twuOf (tx :: txs) {x} := by
        rw [twuOf, twuOf, List.filter_cons]
        split_ifs
        · rw [List.map_cons, List.sum_cons]
          exact le_add_of_nonneg_left htx.transactionUtility_nonneg
        · exact le_rfl
      rw [filteredDb, List.filterMap_cons]
      cases ha : r.apply tx with
      | none => exact hrest.trans htail
      | some ftx =>
        dsimp only
        by_cases hx : {x} ⊆ ftx.basket.items
        · have hx' : {x} ⊆ tx.basket.items := by
            rw [Finset.singleton_subset_iff] at hx ⊢
            exact (((apply_some_basket htx ha).1 x).mp hx).1
          rw [List.filter_cons_of_pos (by simpa using hx), twuOf,
            List.filter_cons_of_pos (by simpa using hx'), List.map_cons, List.map_cons,
            List.sum_cons, List.sum_cons, (apply_some htx ha).1]
          exact add_le_add_right hrest _
        · rw [List.filter_cons_of_neg (by simpa using hx)]
          exact hrest.trans htail
  exact hle.trans_lt (twuOf_lt_of_sumsFit hwf h (Finset.mem_singleton_self x))

/-- A sum that takes from every row of an item at most what is stated for it. -/
theorem RowsFit.sum_lt (h : FilteredRows rank rows) (hfit : RowsFit rows) (hy : y ∈ P)
    {f : FilteredTransaction → Utility} (hf : ∀ r ∈ rows, P ⊆ r.basket.items →
      f r ≤ r.transactionUtility) :
    ((rows.filter fun r => P ⊆ r.basket.items).map f).sum < 2 ^ 63 := by
  refine (List.sum_le_sum (g := FilteredTransaction.transactionUtility) fun r hr => ?_).trans_lt ?_
  · obtain ⟨hr, hP⟩ := List.mem_filter.mp hr
    exact hf r hr (of_decide_eq_true hP)
  · have hsub : (rows.filter fun r => P ⊆ r.basket.items).Sublist
        (rows.filter fun r => {y} ⊆ r.basket.items) := by
      refine List.monotone_filter_right rows fun r hP => decide_eq_true ?_
      exact (Finset.singleton_subset_iff.mpr hy).trans (of_decide_eq_true hP)
    refine ((hsub.map _).sum_le_sum fun u hu => ?_).trans_lt (hfit y)
    obtain ⟨r, hr, rfl⟩ := List.mem_map.mp hu
    exact h.transactionUtility_nonneg (List.mem_of_mem_filter hr)

/-- What the search adds up at the projection of `P`, and of `P` with `y`: the fields of
an entry, the utility of the new itemset, the two bounds. -/
structure ProjSumsFit (rank : ItemId → Utility ×ₗ ItemId) (rows : List FilteredTransaction)
    (P : Finset ItemId) (y : ItemId) : Prop where
  entries : ∀ p ∈ projOf rank rows (insert y P),
    FitsI64 p.prefixUtility ∧ FitsI64 p.pathUtility
  util : ∀ ps, ps <+: projOf rank rows (insert y P) →
    FitsI64 (ps.map ProjTx.prefixUtility).sum
  lu : AllFit (Table.written 0 (· + ·) ∅
    ((projOf rank rows P).flatMap (luEvents (rows.map original))))
  su : AllFit (Table.written 0 (· + ·) ∅
    ((projOf rank rows P).flatMap (suEvents (rows.map original))))

theorem pathGain_le (h : FilteredRows rank rows) {r : FilteredTransaction} (hr : r ∈ rows)
    (hP : P ⊆ r.basket.items) : pathGain rank P r ≤ r.transactionUtility := by
  rw [pathGain, gain_add_tailGain]
  exact h.gain_le_transactionUtility hr (Finset.union_subset hP (Finset.filter_subset _ _))

/-- A bound whose values are worth at most their rows. -/
theorem allFit_bound (h : FilteredRows rank rows) (hfit : RowsFit rows)
    {events : List (ItemId × Utility)} {c : ItemId → FilteredTransaction → Utility}
    (hargs : ∀ z, Table.argsAt events z =
      if After rank P z then (rows.filter fun r => insert z P ⊆ r.basket.items).map (c z) else [])
    (hc : ∀ z, ∀ r ∈ rows, insert z P ⊆ r.basket.items →
      0 ≤ c z r ∧ c z r ≤ r.transactionUtility) :
    AllFit (Table.written 0 (· + ·) ∅ events) := by
  refine TwuFilter.allFit_written (fun e he => ?_) fun z => ?_
  · have hmem : e.2 ∈ Table.argsAt events e.1 :=
      List.mem_map.mpr ⟨e, List.mem_filter.mpr ⟨he, decide_eq_true rfl⟩, rfl⟩
    rw [hargs] at hmem
    split_ifs at hmem
    · obtain ⟨r, hr, hvalue⟩ := List.mem_map.mp hmem
      obtain ⟨hr, hsub⟩ := List.mem_filter.mp hr
      exact hvalue ▸ (hc e.1 r hr (of_decide_eq_true hsub)).1
    · exact (List.not_mem_nil hmem).elim
  · rw [hargs]
    split_ifs
    · exact hfit.sum_lt h (Finset.mem_insert_self z P) fun r hr hsub => (hc z r hr hsub).2
    · decide

/-- None of these sums leaves the range if the weights have not. -/
theorem projSumsFit (h : FilteredRows rank rows) (hfit : RowsFit rows) (P : Finset ItemId)
    (y : ItemId) : ProjSumsFit rank rows P y where
  entries p hp := by
    obtain ⟨q, hq, rfl⟩ := List.mem_map.mp hp
    obtain ⟨hq, hsub⟩ := List.mem_filter.mp hq
    have hr := List.fst_mem_of_mem_zipIdx hq
    have hsub := of_decide_eq_true hsub
    exact ⟨h.fits_gain hr hsub,
      (h.fits _ hr).of_le (pathGain_nonneg h hr hsub) (pathGain_le h hr hsub)⟩
  util ps hps := by
    refine fits_prefix_sum (hps.map ProjTx.prefixUtility) ?_ ?_
    · intro v hv
      obtain ⟨p, hp, rfl⟩ := List.mem_map.mp hv
      obtain ⟨q, hq, rfl⟩ := List.mem_map.mp hp
      obtain ⟨hq, hsub⟩ := List.mem_filter.mp hq
      exact gain_nonneg (h.basket_nonneg (List.fst_mem_of_mem_zipIdx hq)) (of_decide_eq_true hsub)
    · rw [sum_prefixUtility, utility_map]
      exact hfit.sum_lt h (Finset.mem_insert_self y P) fun r hr hsub =>
        h.gain_le_transactionUtility hr hsub
  lu := by
    refine allFit_bound h hfit (P := P) (c := fun _ => pathGain rank P) (fun z => ?_) ?_
    · split_ifs with hz
      · exact argsAt_luEvents h hz
      · exact argsAt_luEvents_of_not_after h hz
    · intro z r hr hsub
      have hP := (Finset.subset_insert z P).trans hsub
      exact ⟨pathGain_nonneg h hr hP, pathGain_le h hr hP⟩
  su := by
    refine allFit_bound h hfit (P := P) (c := fun z => pathGain rank (insert z P)) (fun z => ?_) ?_
    · split_ifs with hz
      · exact argsAt_suEvents h hz
      · exact argsAt_suEvents_of_not_after h hz
    · exact fun z r hr hsub => ⟨pathGain_nonneg h hr hsub, pathGain_le h hr hsub⟩

end Sums

end Efim

namespace TwoPhase

/-- `validItems`, whose weights are checked. -/
def validItemsChecked (minUtility : Utility) (txs : List RawTransaction) :
    Except Fault (List ItemId) := do
  let twu1 ← txs.foldlM (fun twu tx => tx.items.foldlM (fun twu entry =>
    TwuFilter.addChecked twu entry.item tx.transactionUtility) twu) ∅
  return sortByKey id (Table.retain twu1 fun _ v => decide (minUtility ≤ v)).keys

/-- A run after its first pass. -/
def mineValid (ctx : MiningContext) (txs : List RawTransaction) (valid : List ItemId) :
    Except Fault (ℕ × World) := do
  let txTwus := txs.map RawTransaction.transactionUtility
  let (pages, w) ← insertPages (vertDb valid 0 txs (valid.map fun _ => [])) ctx.world
  let txTwusBytes := txTwus.length * 8
  let (admitted, guard) := w.guard.tryAlloc txTwusBytes
  let w := { w with guard }
  if admitted then
    let ix : Index := ⟨pages, txTwus, ctx.minUtility, valid⟩
    let w ← executeTasks ctx w ((List.range valid.length).map (itemTask ix))
    return (w.huisFound, { w with guard := w.guard.free txTwusBytes })
  else return (0, w)

/-- `run`, whose weights are checked. -/
def runChecked (source : DataSource) (ctx : MiningContext) : Except Fault (ℕ × World) := do
  let txs ← (← readDb source).mapM id
  mineValid ctx txs (← validItemsChecked ctx.minUtility txs)

theorem validItemsChecked_eq (minUtility : Utility) (txs : List RawTransaction) :
    validItemsChecked minUtility txs =
      if TwuFilter.SumsFit txs then .ok (validItems minUtility txs) else .error .overflow := by
  unfold validItemsChecked
  rw [TwuFilter.foldlM_items]
  split_ifs <;> rfl

/-- Where the weights fit, a checked run is the run. -/
theorem runChecked_map_ok (ctx : MiningContext) (db : List SpmfRow) :
    runChecked (db.map .ok) ctx =
      if TwuFilter.SumsFit (numbered 0 db) then run (db.map .ok) ctx else .error .overflow := by
  unfold runChecked run
  rw [readDb_map_ok]
  by_cases hlen : db.length < 2 ^ 32
  · rw [if_pos hlen]
    simp only [bind, Except.bind, mapM_id_map_ok, validItemsChecked_eq]
    split_ifs <;> rfl
  · rw [if_neg hlen]
    exact (ite_self _).symm

theorem sumsFit_of_runChecked {ctx : MiningContext} {db : List SpmfRow} {result : ℕ × World}
    (h : runChecked (db.map .ok) ctx = .ok result) :
    TwuFilter.SumsFit (numbered 0 db) ∧ run (db.map .ok) ctx = .ok result := by
  rw [runChecked_map_ok] at h
  split_ifs at h with hfit
  exact ⟨hfit, h⟩

/-- The other sums of Two-Phase: what an intersection weighs and what it is worth. -/
theorem nodeSumsFit {txs : List RawTransaction} {txTwus : List Utility} (h : Rows txs txTwus)
    (hfit : TwuFilter.SumsFit txs) {P : Finset ItemId} {y : ItemId} {nodes : List DfsNode}
    (hnodes : nodes <+: nodesOf txs (insert y P)) :
    FitsI64 (nodes.map fun n => txTwus.getD n.txIdx 0).sum ∧
      FitsI64 (nodes.map DfsNode.utilPrefix).sum := by
  have hmem : ∀ n ∈ nodesOf txs (insert y P), ∃ tx ∈ txs, insert y P ⊆ tx.basket.items ∧
      n = ⟨tx.tid, tx.basket.gain (insert y P)⟩ := by
    intro n hn
    obtain ⟨tx, htx, rfl⟩ := List.mem_map.mp hn
    obtain ⟨htx, hsub⟩ := List.mem_filter.mp htx
    exact ⟨tx, htx, of_decide_eq_true hsub, rfl⟩
  have hweight : ((nodesOf txs (insert y P)).map fun n => txTwus.getD n.txIdx 0).sum =
      twuOf txs (insert y P) := by
    rw [nodesOf, List.map_map, twuOf]
    refine congrArg List.sum (List.map_congr_left fun tx htx => ?_)
    exact h.twus tx (List.mem_of_mem_filter htx)
  have hlt : twuOf txs (insert y P) < 2 ^ 63 :=
    twuOf_lt_of_sumsFit h.wellFormed hfit (Finset.mem_insert_self y P)
  constructor
  · refine fits_prefix_sum (hnodes.map _) (fun v hv => ?_) (hweight.trans_lt hlt)
    obtain ⟨n, hn, rfl⟩ := List.mem_map.mp hv
    obtain ⟨tx, htx, -, rfl⟩ := hmem n hn
    rw [h.twus tx htx]
    exact (h.wellFormed tx htx).transactionUtility_nonneg
  · refine fits_prefix_sum (hnodes.map _) (fun v hv => ?_) ?_
    · obtain ⟨n, hn, rfl⟩ := List.mem_map.mp hv
      obtain ⟨tx, htx, hsub, rfl⟩ := hmem n hn
      exact gain_nonneg (nonneg_basketOf (h.wellFormed tx htx).nonneg) hsub
    · rw [sum_nodesOf]
      exact (utility_le_twuOf h.wellFormed subset_rfl).trans_lt hlt

end TwoPhase

end AirHuim
