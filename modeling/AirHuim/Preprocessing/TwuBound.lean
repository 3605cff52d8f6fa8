import AirHuim.Preprocessing.DbReader

/-!
# When the filter keeps every useful item

The filter drops the items whose weight is below the threshold. That the weight
bounds what an itemset is worth holds on well-formed transactions; nothing
checks it on others. Here the pass is modelled with the overflow checks of its
`i64` sums, on transactions of any kind, and the databases and thresholds are
characterised for which no item of a useful itemset is dropped.
-/

namespace AirHuim

open Library Basket

/-- The result of an addition or subtraction, in a build with overflow checks. -/
def checkI64 (z : ℤ) : Except Fault ℤ := if FitsI64 z then .ok z else .error .overflow

theorem checkI64_eq_ok_iff {z v : ℤ} : checkI64 z = .ok v ↔ v = z ∧ FitsI64 z := by
  unfold checkI64
  split_ifs with hfits
  · simp [hfits, eq_comm]
  · simp [hfits]

def AllFit (values : List ℤ) : Prop := ∀ v ∈ values, FitsI64 v

instance (values : List ℤ) : Decidable (AllFit values) := List.decidableBAll _ _

theorem allFit_cons {v : ℤ} {values : List ℤ} : AllFit (v :: values) ↔ FitsI64 v ∧ AllFit values :=
  List.forall_mem_cons

namespace TwuFilter

/-- `*twu.entry(item).or_insert(0) += transaction_utility`. -/
def addChecked (twu : Table ItemId Utility) (item : ItemId) (transactionUtility : Utility) :
    Except Fault (Table ItemId Utility) :=
  (checkI64 ((twu.lookup item).getD 0 + transactionUtility)).map fun v => twu.insert item v

/-- `compute`, which faults where a sum leaves the range of `i64`. -/
def computeChecked (minUtility : Utility) (transactions : List RawTransaction) :
    Except Fault TwuFilterResult := do
  let twu ← transactions.foldlM (fun twu tx =>
    tx.items.foldlM (fun twu entry => addChecked twu entry.item tx.transactionUtility) twu) ∅
  let twu := Table.retain twu fun _ v => decide (minUtility ≤ v)
  return { twu
           orderedItems := sortByKey (fun p : ItemId × Utility => toLex (p.2, p.1))
             (twu.entries.map fun e => (e.1, e.2))
           minUtility }

/-- No sum of the pass leaves the range. -/
def SumsFit (txs : List RawTransaction) : Prop :=
  AllFit (Table.written 0 (· + ·) ∅ (twuEvents txs))

instance (txs : List RawTransaction) : Decidable (SumsFit txs) :=
  inferInstanceAs (Decidable (AllFit _))

theorem foldlM_addChecked (events : List (ItemId × Utility)) (m : Table ItemId Utility) :
    events.foldlM (fun m e => addChecked m e.1 e.2) m =
      if AllFit (Table.written 0 (· + ·) m events) then .ok (Table.modifyAll m 0 (· + ·) events)
      else .error .overflow := by
  induction events generalizing m with
  | nil => rfl
  | cons e events ih =>
    rw [List.foldlM_cons, Table.written]
    by_cases hfits : FitsI64 ((m.lookup e.1).getD 0 + e.2)
    · have hadd : addChecked m e.1 e.2 = .ok (Table.modify m e.1 0 (· + e.2)) := by
        rw [addChecked, checkI64, if_pos hfits]
        rfl
      rw [hadd, if_congr (allFit_cons.trans (and_iff_right hfits)) rfl rfl]
      exact ih _
    · have hadd : addChecked m e.1 e.2 = .error .overflow := by
        rw [addChecked, checkI64, if_neg hfits]
        rfl
      rw [hadd, if_neg fun hall => hfits (allFit_cons.mp hall).1]
      rfl

/-- Sums of what is not negative are in range at every moment if they are at the end. -/
theorem allFit_written {events : List (ItemId × Utility)} (hnonneg : ∀ e ∈ events, 0 ≤ e.2)
    (hsum : ∀ x, (Table.argsAt events x).sum < 2 ^ 63) :
    AllFit (Table.written 0 (· + ·) ∅ events) := by
  intro v hv
  obtain ⟨before, e, after, hevents, rfl⟩ := Table.mem_written_iff.mp hv
  have hsplit : Table.argsAt events e.1 =
      Table.argsAt (before ++ [e]) e.1 ++ Table.argsAt after e.1 := by
    rw [← Table.argsAt_append, List.append_assoc, List.singleton_append, hevents]
  have hargs : ∀ u ∈ Table.argsAt events e.1, 0 ≤ u := by
    intro u hu
    obtain ⟨e', he', rfl⟩ := List.mem_map.mp hu
    exact hnonneg e' (List.mem_of_mem_filter he')
  have hsub : (Table.argsAt (before ++ [e]) e.1).Sublist (Table.argsAt events e.1) := by
    rw [hsplit]
    exact List.sublist_append_left _ _
  have hlo : 0 ≤ (Table.argsAt (before ++ [e]) e.1).sum :=
    List.sum_nonneg fun u hu => hargs u (hsub.subset hu)
  have hhi := (hsub.sum_le_sum hargs).trans_lt (hsum e.1)
  have hvalue : ((∅ : Table ItemId Utility).lookup e.1).getD 0 = 0 := by simp
  rw [hvalue, foldl_add_eq_sum, zero_add]
  exact ⟨le_trans (by decide) hlo, hhi⟩

theorem foldlM_twuEvents (txs : List RawTransaction) (m : Table ItemId Utility) :
    txs.foldlM (fun twu tx =>
        tx.items.foldlM (fun twu entry => addChecked twu entry.item tx.transactionUtility) twu) m =
      (twuEvents txs).foldlM (fun m e => addChecked m e.1 e.2) m := by
  rw [twuEvents, foldlM_flatMap]
  simp only [List.foldlM_map]

/-- The checked sums are the sums, or they fault. -/
theorem foldlM_items (txs : List RawTransaction) :
    txs.foldlM (fun twu tx =>
        tx.items.foldlM (fun twu entry => addChecked twu entry.item tx.transactionUtility) twu) ∅ =
      if SumsFit txs then .ok (txs.foldl (fun twu tx => tx.items.foldl (fun twu entry =>
        Table.modify twu entry.item 0 (· + tx.transactionUtility)) twu) ∅)
      else .error .overflow := by
  have htwu : Table.modifyAll ∅ 0 (· + ·) (twuEvents txs) = txs.foldl (fun twu tx =>
      tx.items.foldl (fun twu entry =>
        Table.modify twu entry.item 0 (· + tx.transactionUtility)) twu) ∅ := by
    rw [twuEvents, Table.modifyAll_flatMap]
    simp only [Table.modifyAll, List.foldl_map]
  rw [foldlM_twuEvents, foldlM_addChecked, htwu]
  exact if_congr Iff.rfl rfl rfl

/-- The checked pass is the pass, or it faults. -/
theorem computeChecked_eq (minUtility : Utility) (txs : List RawTransaction) :
    computeChecked minUtility txs =
      if SumsFit txs then .ok (compute minUtility txs) else .error .overflow := by
  unfold computeChecked
  rw [foldlM_items]
  split_ifs <;> rfl

/-- The stated utilities of the transactions with `x`, once for each entry of it. -/
def statedWeight (txs : List RawTransaction) (x : ItemId) : Utility :=
  (txs.map fun tx =>
    ((tx.items.countP fun e => e.item = x : ℕ) : ℤ) * tx.transactionUtility).sum

theorem sum_argsAt_items (items : List ItemEntry) (tu : Utility) (x : ItemId) :
    (Table.argsAt (items.map fun e => (e.item, tu)) x).sum =
      ((items.countP fun e => e.item = x : ℕ) : ℤ) * tu := by
  induction items with
  | nil => simp
  | cons e items ih =>
    rw [List.map_cons, Table.argsAt_cons]
    by_cases hx : e.item = x
    · rw [if_pos hx, List.sum_cons, ih, List.countP_cons_of_pos (by simpa using hx)]
      push_cast
      ring
    · rw [if_neg hx, ih, List.countP_cons_of_neg (by simpa using hx)]

theorem sum_argsAt_twuEvents (txs : List RawTransaction) (x : ItemId) :
    (Table.argsAt (twuEvents txs) x).sum = statedWeight txs x := by
  induction txs with
  | nil => rfl
  | cons tx txs ih =>
    have hevents : twuEvents (tx :: txs) =
        (tx.items.map fun e => (e.item, tx.transactionUtility)) ++ twuEvents txs := rfl
    rw [hevents, Table.argsAt_append, List.sum_append, sum_argsAt_items, ih]
    rfl

theorem argsAt_twuEvents_ne_nil {txs : List RawTransaction} {x : ItemId}
    (hx : Occurs (txs.map RawTransaction.basket) {x}) : Table.argsAt (twuEvents txs) x ≠ [] := by
  obtain ⟨tx, htx, hsub⟩ := (occurs_map _ _ _).mp hx
  obtain ⟨e, he, rfl⟩ := mem_basketOf.mp (hsub (Finset.mem_singleton_self x))
  apply List.ne_nil_of_mem
  apply List.mem_map.mpr
  refine ⟨(e.item, tx.transactionUtility), List.mem_filter.mpr ⟨?_, by simp⟩, rfl⟩
  exact List.mem_flatMap.mpr ⟨tx, htx, List.mem_map.mpr ⟨e, he, rfl⟩⟩

/-- Whatever the transactions are, an item that occurs passes if what is stated
for it reaches the threshold. -/
theorem passes_iff {txs : List RawTransaction} (minUtility : Utility) {x : ItemId}
    (hx : Occurs (txs.map RawTransaction.basket) {x}) :
    (compute minUtility txs).passes x = true ↔ minUtility ≤ statedWeight txs x := by
  rw [TwuFilterResult.passes, decide_eq_true_iff, ← AList.lookup_isSome, compute_twu,
    Table.lookup_retain, Table.lookup_modifyAll_empty, if_neg (argsAt_twuEvents_ne_nil hx),
    foldl_add_eq_sum, zero_add, sum_argsAt_twuEvents]
  by_cases hmin : minUtility ≤ statedWeight txs x <;> simp [hmin, Option.filter]

/-- No item of a useful itemset is dropped. -/
def KeepsUseful (minUtility : Utility) (txs : List RawTransaction) : Prop :=
  ∀ X, Occurs (txs.map RawTransaction.basket) X →
    minUtility ≤ utility (txs.map RawTransaction.basket) X →
    ∀ x ∈ X, ∃ result, computeChecked minUtility txs = .ok result ∧ result.passes x = true

/-- An item that occurs passes the checked filter. -/
theorem passes_computeChecked_iff {txs : List RawTransaction} (minUtility : Utility) {x : ItemId}
    (hx : Occurs (txs.map RawTransaction.basket) {x}) :
    (∃ result, computeChecked minUtility txs = .ok result ∧ result.passes x = true) ↔
      SumsFit txs ∧ minUtility ≤ statedWeight txs x := by
  have hpasses := passes_iff minUtility hx
  rw [computeChecked_eq]
  by_cases hfits : SumsFit txs
  · rw [if_pos hfits, and_iff_right hfits, ← hpasses]
    exact ⟨fun ⟨_, hr, hpass⟩ => Except.ok.inj hr ▸ hpass, fun hpass => ⟨_, rfl, hpass⟩⟩
  · rw [if_neg hfits]
    exact ⟨fun ⟨_, hr, _⟩ => (by cases hr), fun h => (hfits h.1).elim⟩

/-- The filter keeps every useful item exactly if the threshold is, for no item of
an itemset, above what is stated for the item and not above what the itemset is
worth, and no sum leaves the range where there is a useful item at all. -/
theorem keepsUseful_iff (minUtility : Utility) (txs : List RawTransaction) :
    KeepsUseful minUtility txs ↔ ∀ X, Occurs (txs.map RawTransaction.basket) X → ∀ x ∈ X,
      utility (txs.map RawTransaction.basket) X < minUtility ∨
        SumsFit txs ∧ minUtility ≤ statedWeight txs x := by
  have hitem : ∀ X, Occurs (txs.map RawTransaction.basket) X → ∀ x ∈ X,
      ((∃ result, computeChecked minUtility txs = .ok result ∧ result.passes x = true) ↔
        SumsFit txs ∧ minUtility ≤ statedWeight txs x) := fun X hX x hx =>
    passes_computeChecked_iff minUtility (hX.mono (Finset.singleton_subset_iff.mpr hx))
  constructor
  · intro h X hX x hx
    rcases lt_or_ge (utility (txs.map RawTransaction.basket) X) minUtility with hlow | huseful
    · exact Or.inl hlow
    · exact Or.inr ((hitem X hX x hx).mp (h X hX huseful x hx))
  · intro h X hX huseful x hx
    exact (hitem X hX x hx).mpr ((h X hX x hx).resolve_left (not_lt.mpr huseful))

/-- What is stated for an item, once for each transaction, is at most its weight. -/
theorem sum_stated_le_statedWeight {txs : List RawTransaction}
    (htu : ∀ tx ∈ txs, 0 ≤ tx.transactionUtility) (x : ItemId) :
    ((txs.filter fun tx => x ∈ tx.basket.items).map RawTransaction.transactionUtility).sum ≤
      statedWeight txs x := by
  induction txs with
  | nil => exact le_rfl
  | cons tx txs ih =>
    obtain ⟨htx, htu⟩ := List.forall_mem_cons.mp htu
    have hrest := ih htu
    have hweight : statedWeight (tx :: txs) x =
        ((tx.items.countP fun e => e.item = x : ℕ) : ℤ) * tx.transactionUtility +
          statedWeight txs x := List.sum_cons
    rw [hweight, List.filter_cons]
    split_ifs with hx
    · obtain ⟨e, he, rfl⟩ := mem_basketOf.mp (of_decide_eq_true hx)
      have hcount : 0 < tx.items.countP fun e' => e'.item = e.item :=
        List.countP_pos_iff.mpr ⟨e, he, decide_eq_true rfl⟩
      have hone : (1 : ℤ) ≤ (tx.items.countP fun e' => e'.item = e.item : ℕ) := by
        exact_mod_cast hcount
      have hle := le_mul_of_one_le_left htx hone
      rw [List.map_cons, List.sum_cons]
      exact add_le_add hle hrest
    · have hnonneg : 0 ≤ ((tx.items.countP fun e => e.item = x : ℕ) : ℤ) *
          tx.transactionUtility := mul_nonneg (Int.natCast_nonneg _) htx
      linarith

/-- Where utilities are not negative and every transaction is stated to be worth at least
what its items are, no useful item is dropped, as long as the sums fit. -/
theorem keepsUseful_of_stated {txs : List RawTransaction}
    (hnonneg : ∀ tx ∈ txs, tx.basket.Nonneg)
    (hstated : ∀ tx ∈ txs, tx.basket.gain tx.basket.items ≤ tx.transactionUtility)
    (hfits : SumsFit txs) (minUtility : Utility) : KeepsUseful minUtility txs := by
  have htu : ∀ tx ∈ txs, 0 ≤ tx.transactionUtility := fun tx htx =>
    (gain_nonneg (hnonneg tx htx) subset_rfl).trans (hstated tx htx)
  intro X hX huseful x hx
  refine (passes_computeChecked_iff minUtility
    (hX.mono (Finset.singleton_subset_iff.mpr hx))).mpr ⟨hfits, huseful.trans ?_⟩
  refine (utility_le_sum RawTransaction.basket (fun tx => x ∈ tx.basket.items)
    RawTransaction.transactionUtility (fun tx _ hsub => decide_eq_true (hsub hx))
    (fun tx htx hsub => ?_)
    fun tx htx _ => htu tx htx).trans (sum_stated_le_statedWeight htu x)
  exact (gain_le_gain (hnonneg tx htx) hsub subset_rfl).trans (hstated tx htx)

/-- An item that is worth 10 beside one that is worth -5. -/
def signedTransactions : List RawTransaction :=
  okOnly (dbReader 0 (sourceOf "1 2:5:10 -5\n".toList))

theorem not_keepsUseful_signed : ¬ KeepsUseful 8 signedTransactions := by
  intro h
  obtain ⟨result, hresult, hpass⟩ := h {1} (by decide) (by decide) 1 (by decide)
  have hdropped : (computeChecked 8 signedTransactions).map (·.passes 1) = .ok false := by decide
  rw [hresult] at hdropped
  have hfalse : result.passes 1 = false := Except.ok.inj hdropped
  rw [hpass] at hfalse
  cases hfalse

end TwuFilter

end AirHuim
