import AirHuim.Mining.CheckedRuns

/-!
# The passes with overflow checks

The two passes over a database, in a build that faults where a sum leaves the range of
`i64`. What they return is what the passes without the checks return, whatever the
data are. On light databases they return: those whose rows are worth less than `2 ^ 62`
each and less than `2 ^ 63` together.
-/

namespace AirHuim

open Library Basket

/-! ## What the checked passes return -/

theorem TwuFilter.yields_computeChecked (minUtility : Utility) (txs : List RawTransaction) :
    Yields (computeChecked minUtility txs) (compute minUtility txs) := by
  rw [computeChecked_eq]
  split
  · exact Yields.ok _
  · exact yields_overflow _

namespace Eucs

theorem yields_addPairsChecked (tu : Utility) (keys : List (ItemId × ItemId)) (e : Eucs)
    (guard : MemoryGuard) :
    Yields (addPairsChecked tu keys e guard) (addPairs tu keys e guard) := by
  induction keys generalizing e guard with
  | nil => exact Yields.ok _
  | cons key keys ih =>
    unfold addPairsChecked addPairs
    split_ifs
    · exact (yields_checkI64 _).bind (ih _ _)
    · exact (yields_checkI64 _).bind (ih _ _)
    · exact Yields.ok _

theorem yields_addTransactionChecked (e : Eucs) (items : List ItemId) (tu : Utility)
    (guard : MemoryGuard) :
    Yields (e.addTransactionChecked items tu guard) (e.addTransaction items tu guard) :=
  yields_addPairsChecked tu (pairKeys items) e guard

end Eucs

namespace Pass2

theorem yields_rowEntriesChecked (tid : ℕ) (running : Utility) (items : List ItemEntry) :
    Yields (rowEntriesChecked tid running items) (rowEntries tid running items) := by
  induction items generalizing running with
  | nil => exact Yields.ok []
  | cons entry items ih => exact (yields_checkI64 _).bind ((ih _).bind (Yields.ok _))

theorem yields_addRowChecked (s : Pass2) (r : FilteredTransaction) :
    Yields (addRowChecked s r) (addRow s r) := by
  have hsum := yields_sumChecked 0 (r.items.map ItemEntry.utility)
  rw [zero_add] at hsum
  exact (Eucs.yields_addTransactionChecked _ _ _ _).bind
    (hsum.bind ((yields_rowEntriesChecked _ _ _).bind (Yields.ok _)))

theorem yields_runChecked (guard : MemoryGuard) (rows : List FilteredTransaction) :
    Yields (runChecked guard rows) (run guard rows) :=
  Yields.foldlM yields_addRowChecked (new guard) rows

theorem yields_headerChecked (item : ItemId) (entries : List ULEntry) :
    Yields (headerChecked item entries) (header item entries) := by
  have hiutils := yields_sumChecked 0 (entries.map ULEntry.iutils)
  have hrutils := yields_sumChecked 0 (entries.map ULEntry.rutils)
  rw [zero_add] at hiutils hrutils
  exact hiutils.bind (hrutils.bind (Yields.ok _))

theorem yields_itemListsChecked (s : Pass2) : Yields s.itemListsChecked s.itemLists :=
  Yields.mapM (fun _ => yields_headerChecked _ _) _

end Pass2

/-! ## Light databases -/

section Passes

variable {txs : List RawTransaction}

/-- What is stated for the transactions, all together. -/
def statedTotal (txs : List RawTransaction) : Utility :=
  (txs.map RawTransaction.transactionUtility).sum

theorem statedTotal_numbered (tid : ℕ) (db : List SpmfRow) :
    statedTotal (numbered tid db) = (db.map SpmfRow.transactionUtility).sum := by
  induction db generalizing tid with
  | nil => rfl
  | cons row db ih =>
    have hcons : statedTotal (numbered tid (row :: db)) =
        row.transactionUtility + statedTotal (numbered (tid + 1) db) := List.sum_cons
    rw [hcons, ih, List.map_cons, List.sum_cons]

theorem twuOf_le (hwf : ∀ tx ∈ txs, tx.WellFormed) (X : Finset ItemId) :
    0 ≤ twuOf txs X ∧ twuOf txs X ≤ statedTotal txs := by
  have hnonneg : ∀ u ∈ txs.map RawTransaction.transactionUtility, 0 ≤ u := by
    intro u hu
    obtain ⟨tx, htx, rfl⟩ := List.mem_map.mp hu
    exact (hwf tx htx).transactionUtility_nonneg
  have hsub : ((txs.filter fun tx => X ⊆ tx.basket.items).map
      RawTransaction.transactionUtility).Sublist (txs.map RawTransaction.transactionUtility) :=
    List.filter_sublist.map _
  exact ⟨List.sum_nonneg fun u hu => hnonneg u (hsub.subset hu), hsub.sum_le_sum hnonneg⟩

theorem twuOf_mono (hwf : ∀ tx ∈ txs, tx.WellFormed) {X Y : Finset ItemId} (hXY : X ⊆ Y) :
    twuOf txs Y ≤ twuOf txs X := by
  have hsub : ((txs.filter fun tx => Y ⊆ tx.basket.items).map
      RawTransaction.transactionUtility).Sublist ((txs.filter fun tx => X ⊆ tx.basket.items).map
      RawTransaction.transactionUtility) := by
    refine (List.monotone_filter_right txs fun tx hY => ?_).map _
    exact decide_eq_true (hXY.trans (of_decide_eq_true hY))
  refine hsub.sum_le_sum fun u hu => ?_
  obtain ⟨tx, htx, rfl⟩ := List.mem_map.mp hu
  exact (hwf tx (List.mem_of_mem_filter htx)).transactionUtility_nonneg

/-- The weights of the first pass, at every moment. -/
theorem sumsFit_of_total (hwf : ∀ tx ∈ txs, tx.WellFormed) (htotal : statedTotal txs < 2 ^ 63) :
    TwuFilter.SumsFit txs := by
  refine TwuFilter.allFit_written (fun e he => ?_) fun x => ?_
  · obtain ⟨tx, htx, he⟩ := List.mem_flatMap.mp he
    obtain ⟨entry, -, rfl⟩ := List.mem_map.mp he
    exact (hwf tx htx).transactionUtility_nonneg
  · have hargs : (Table.argsAt (twuEvents txs) x).sum = twuOf txs {x} := by
      rw [argsAt_twuEvents hwf]
      rfl
    rw [hargs]
    exact (twuOf_le hwf {x}).2.trans_lt htotal

/-- Where the sums of the first pass fit, no itemset weighs more than an `i64`. -/
theorem twuOf_lt_of_sumsFit (hwf : ∀ tx ∈ txs, tx.WellFormed) (h : TwuFilter.SumsFit txs)
    {X : Finset ItemId} {x : ItemId} (hx : x ∈ X) : twuOf txs X < 2 ^ 63 := by
  have hargs : (Table.argsAt (twuEvents txs) x).sum = twuOf txs {x} := by
    rw [argsAt_twuEvents hwf]
    rfl
  refine (twuOf_mono hwf (Finset.singleton_subset_iff.mpr hx)).trans_lt ?_
  have hlookup := Table.lookup_modifyAll_empty 0 (· + ·) (twuEvents txs) x
  rw [foldl_add_eq_sum, zero_add, hargs] at hlookup
  split_ifs at hlookup with hnone
  · rw [← hargs, hnone]
    decide
  · rcases Table.lookup_modifyAll_written 0 (· + ·) ∅ (twuEvents txs) x with hsame | ⟨v, hv, hlast⟩
    · rw [hlookup] at hsame
      cases hsame
    · rw [hlookup] at hlast
      rw [Option.some.inj hlast]
      exact (h v hv).2

/-- The filter only leaves out. -/
theorem totalOf_filteredDb_le (hwf : ∀ tx ∈ txs, tx.WellFormed) (r : TwuFilterResult) :
    totalOf (filteredDb r txs) ≤ statedTotal txs := by
  induction txs with
  | nil => exact le_rfl
  | cons tx txs ih =>
    have hrest := ih fun tx' htx' => hwf tx' (List.mem_cons_of_mem tx htx')
    have htx := hwf tx List.mem_cons_self
    have htu := htx.transactionUtility_nonneg
    have hcons : statedTotal (tx :: txs) = tx.transactionUtility + statedTotal txs := List.sum_cons
    rw [hcons, filteredDb, List.filterMap_cons]
    cases ha : r.apply tx with
    | none => exact hrest.trans (le_add_of_nonneg_left htu)
    | some ftx =>
      rw [totalOf_cons, (apply_some htx ha).1]
      exact add_le_add_right hrest _

end Passes

/-- There is room for the prefix twice in every join. -/
def JoinsFit (rows : List FilteredTransaction) : Prop := ∀ P y z, JoinFits rows P y z

/-- No sum that a miner of utility lists makes of such a database leaves its range. -/
structure LightDb (db : List SpmfRow) : Prop where
  length_lt : db.length < 2 ^ 32
  row_lt : ∀ row ∈ db, row.transactionUtility < 2 ^ 62
  total_lt : statedTotal (numbered 0 db) < 2 ^ 63

namespace LightDb

variable {db : List SpmfRow}

theorem sumsFit (h : LightDb db) (hwf : ∀ row ∈ db, row.WellFormed) :
    TwuFilter.SumsFit (numbered 0 db) :=
  sumsFit_of_total (numbered_wellFormed hwf 0) h.total_lt

theorem totalOf_lt (h : LightDb db) (hwf : ∀ row ∈ db, row.WellFormed) (r : TwuFilterResult) :
    totalOf (filteredDb r (numbered 0 db)) < 2 ^ 63 :=
  (totalOf_filteredDb_le (numbered_wellFormed hwf 0) r).trans_lt h.total_lt

theorem joinsFit (h : LightDb db) (hwf : ∀ row ∈ db, row.WellFormed) (r : TwuFilterResult)
    (P : Finset ItemId) (y z : ItemId) : JoinFits (filteredDb r (numbered 0 db)) P y z := by
  intro ftx hftx hX
  have hrows := filteredRows_filteredDb hwf h.length_lt r
  have hy := hrows.gain_within hftx ((Finset.subset_insert z _).trans hX)
  have hz := hrows.gain_within hftx (insert_insert_subset.mp hX).2
  have hlt : ftx.transactionUtility < 2 ^ 62 := by
    obtain ⟨tx, htx, ha⟩ := List.mem_filterMap.mp hftx
    rw [(apply_some (numbered_wellFormed hwf 0 tx htx) ha).1]
    obtain ⟨-, -, row, hrow, -, htu⟩ := mem_numbered htx
    rw [htu]
    exact h.row_lt row hrow
  linarith [hy.2, hz.2]

theorem agrees_computeChecked (hwf : ∀ row ∈ db, row.WellFormed) (minUtility : Utility) :
    Agrees (LightDb db) (TwuFilter.computeChecked minUtility (numbered 0 db))
      (.ok (TwuFilter.compute minUtility (numbered 0 db))) := by
  refine (TwuFilter.yields_computeChecked _ _).under fun h => ?_
  rw [TwuFilter.computeChecked_eq, if_pos (h.sumsFit hwf)]

theorem agrees_runChecked (hwf : ∀ row ∈ db, row.WellFormed) (r : TwuFilterResult)
    (guard : MemoryGuard) :
    Agrees (LightDb db) (Pass2.runChecked guard (filteredDb r (numbered 0 db)))
      (.ok (Pass2.run guard (filteredDb r (numbered 0 db)))) :=
  (Pass2.yields_runChecked _ _).under fun h =>
    Pass2.runChecked_eq (filteredRows_filteredDb hwf h.length_lt r) (h.totalOf_lt hwf r) guard

theorem agrees_itemListsChecked (hwf : ∀ row ∈ db, row.WellFormed) (r : TwuFilterResult)
    (guard : MemoryGuard) :
    Agrees (LightDb db) (Pass2.run guard (filteredDb r (numbered 0 db))).itemListsChecked
      (.ok (Pass2.run guard (filteredDb r (numbered 0 db))).itemLists) :=
  (Pass2.yields_itemListsChecked _).under fun h =>
    Pass2.itemListsChecked_eq (filteredRows_filteredDb hwf h.length_lt r) (h.totalOf_lt hwf r) guard

end LightDb

theorem lightDb_tinyDb : LightDb tinyDb := ⟨by decide, by decide, by decide⟩

/-- Two rows that are worth more than an `i64` together: the weight of their common item
does not fit. -/
def heavyDb : List SpmfRow := [
  { items := [⟨1, 1⟩, ⟨2, 2 ^ 62⟩], transactionUtility := 2 ^ 62 + 1 },
  { items := [⟨1, 1⟩, ⟨3, 2 ^ 62⟩], transactionUtility := 2 ^ 62 + 1 }]

theorem heavyDb_wellFormed : ∀ row ∈ heavyDb, row.WellFormed := by decide

/-- The first pass overflows on them at every threshold. -/
theorem computeChecked_heavyDb (minUtility : Utility) :
    TwuFilter.computeChecked minUtility (numbered 0 heavyDb) = .error .overflow := by
  have hfits : ¬ TwuFilter.SumsFit (numbered 0 heavyDb) := by decide
  rw [TwuFilter.computeChecked_eq, if_neg hfits]

end AirHuim
