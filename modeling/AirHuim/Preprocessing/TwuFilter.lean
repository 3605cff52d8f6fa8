import AirHuim.Library.SortByKey
import AirHuim.Library.Table
import AirHuim.Types

/-!
# Reading a dataset and filtering it by transaction-weighted utility

The reader numbers the accepted lines. The filter sums, for every item, the
stated utilities of the transactions that contain it, drops the items below the
threshold, and orders what is left by ascending weight, ties by item. The main
results are the shape of the filtered database and that filtering loses no
high-utility itemset.
-/

namespace AirHuim

open Library Basket

/-- The lines of a dataset file that are neither blank nor comments. -/
abbrev DataSource := List (Except Fault SpmfRow)

/-- `DbReader`: a rejected line takes no `tid`. -/
def dbReader : ℕ → DataSource → List (Except Fault RawTransaction)
  | _, [] => []
  | tid, .ok row :: lines =>
    .ok ⟨tid, row.transactionUtility, row.items⟩ :: dbReader (tid + 1) lines
  | tid, .error e :: lines => .error e :: dbReader tid lines

/-- `current_tid` is a `u32`; the reader steps it after each accepted line. -/
def readDb (source : DataSource) : Except Fault (List (Except Fault RawTransaction)) :=
  if (dbReader 0 source).countP Except.isOk < 2 ^ 32 then .ok (dbReader 0 source)
  else .error .overflow

/-- `filter_map(Result::ok)`. -/
def okOnly (txs : List (Except Fault RawTransaction)) : List RawTransaction :=
  txs.filterMap Except.toOption

structure FilteredTransaction where
  tid : ℕ
  transactionUtility : Utility
  items : List ItemEntry
  deriving DecidableEq, Repr

structure TwuFilterResult where
  twu : Table ItemId Utility
  orderedItems : List (ItemId × Utility)
  minUtility : Utility

namespace TwuFilterResult

def passes (r : TwuFilterResult) (item : ItemId) : Bool := item ∈ r.twu

/-- The sort key of the global item order. -/
def rank (r : TwuFilterResult) (item : ItemId) : Utility ×ₗ ItemId :=
  toLex ((r.twu.lookup item).getD 0, item)

/-- `None` if no item passes the filter. -/
def apply (r : TwuFilterResult) (tx : RawTransaction) : Option FilteredTransaction :=
  let kept := tx.items.filter fun e => r.passes e.item
  if kept = [] then none
  else some ⟨tx.tid, tx.transactionUtility, sortByKey (fun e => r.rank e.item) kept⟩

end TwuFilterResult

def TwuFilter.compute (minUtility : Utility) (transactions : List RawTransaction) :
    TwuFilterResult :=
  let twu : Table ItemId Utility := transactions.foldl (fun twu tx =>
    tx.items.foldl (fun twu entry =>
      Table.modify twu entry.item 0 (· + tx.transactionUtility)) twu) ∅
  let twu := Table.retain twu fun _ v => decide (minUtility ≤ v)
  { twu
    orderedItems := sortByKey (fun p : ItemId × Utility => toLex (p.2, p.1))
      (twu.entries.map fun e => (e.1, e.2))
    minUtility }

def RawTransaction.basket (tx : RawTransaction) : Basket ItemId := basketOf tx.items

def FilteredTransaction.basket (tx : FilteredTransaction) : Basket ItemId := basketOf tx.items

/-! ## The reader on a database without rejected lines -/

/-- The transactions of a database, numbered from `tid`. -/
def numbered : ℕ → List SpmfRow → List RawTransaction
  | _, [] => []
  | tid, row :: db => ⟨tid, row.transactionUtility, row.items⟩ :: numbered (tid + 1) db

theorem dbReader_map_ok (tid : ℕ) (db : List SpmfRow) :
    dbReader tid (db.map .ok) = (numbered tid db).map .ok := by
  induction db generalizing tid with
  | nil => rfl
  | cons row db ih => simp [dbReader, numbered, ih]

@[simp] theorem length_numbered (tid : ℕ) (db : List SpmfRow) :
    (numbered tid db).length = db.length := by
  induction db generalizing tid with
  | nil => rfl
  | cons row db ih => simp [numbered, ih]

theorem okOnly_map_ok (txs : List RawTransaction) : okOnly (txs.map .ok) = txs := by
  rw [okOnly, List.filterMap_map]
  exact List.filterMap_some

theorem mapM_id_map_ok (txs : List RawTransaction) :
    (txs.map (Except.ok (ε := Fault))).mapM id = .ok txs := by
  induction txs with
  | nil => rfl
  | cons tx txs ih =>
    rw [List.map_cons, List.mapM_cons, ih]
    rfl

theorem readDb_map_ok (db : List SpmfRow) :
    readDb (db.map .ok) =
      if db.length < 2 ^ 32 then .ok ((numbered 0 db).map .ok) else .error .overflow := by
  have hcount : ((numbered 0 db).map (Except.ok (ε := Fault))).countP Except.isOk = db.length := by
    rw [List.countP_map, ← length_numbered 0 db, List.countP_eq_length]
    intro tx _
    rfl
  rw [readDb, dbReader_map_ok, hcount]

/-- What reads the whole file and returns has fewer rows than there are tids. -/
theorem length_lt_of_readDb {α : Type} {db : List SpmfRow} {result : α}
    {f : List (Except Fault RawTransaction) → Except Fault α}
    (h : readDb (db.map .ok) >>= f = .ok result) : db.length < 2 ^ 32 := by
  by_contra hlen
  rw [readDb_map_ok, if_neg hlen] at h
  cases h

/-- Where a numbered transaction comes from. -/
theorem mem_numbered {tid : ℕ} {db : List SpmfRow} {tx : RawTransaction}
    (h : tx ∈ numbered tid db) :
    tid ≤ tx.tid ∧ tx.tid < tid + db.length ∧
      ∃ row ∈ db, tx.items = row.items ∧ tx.transactionUtility = row.transactionUtility := by
  induction db generalizing tid with
  | nil => exact (List.not_mem_nil h).elim
  | cons row db ih =>
    rcases List.mem_cons.mp h with rfl | h
    · exact ⟨le_rfl, by simp, row, List.mem_cons_self, rfl, rfl⟩
    · obtain ⟨hlo, hhi, row', hrow', heq⟩ := ih h
      refine ⟨by omega, by simp only [List.length_cons]; omega, row', ?_, heq⟩
      exact List.mem_cons_of_mem row hrow'

theorem pairwise_numbered (tid : ℕ) (db : List SpmfRow) :
    (numbered tid db).Pairwise fun tx tx' => tx.tid < tx'.tid := by
  induction db generalizing tid with
  | nil => exact List.Pairwise.nil
  | cons row db ih =>
    refine List.pairwise_cons.mpr ⟨fun tx htx => ?_, ih _⟩
    exact Nat.lt_of_succ_le (mem_numbered htx).1

theorem numbered_getElem? (tid : ℕ) (db : List SpmfRow) (i : ℕ) :
    (numbered tid db)[i]? =
      db[i]?.map fun row => ⟨tid + i, row.transactionUtility, row.items⟩ := by
  induction db generalizing tid i with
  | nil => rfl
  | cons row db ih =>
    cases i with
    | zero => rfl
    | succ i =>
      rw [numbered, List.getElem?_cons_succ, List.getElem?_cons_succ, ih, Nat.add_right_comm,
        Nat.add_assoc]

theorem map_basket_numbered (tid : ℕ) (db : List SpmfRow) :
    (numbered tid db).map RawTransaction.basket = baskets db := by
  induction db generalizing tid with
  | nil => rfl
  | cons row db ih =>
    rw [numbered, List.map_cons, ih]
    rfl

/-! ## Transaction-weighted utility -/

/-- A transaction as the miners expect it. -/
structure RawTransaction.WellFormed (tx : RawTransaction) : Prop where
  distinct : (tx.items.map ItemEntry.item).Nodup
  nonneg : ∀ e ∈ tx.items, 0 ≤ e.utility
  total : tx.transactionUtility = (tx.items.map ItemEntry.utility).sum
  fits : FitsI64 tx.transactionUtility

theorem numbered_wellFormed {db : List SpmfRow} (hwf : ∀ row ∈ db, row.WellFormed) (tid : ℕ) :
    ∀ tx ∈ numbered tid db, tx.WellFormed := by
  intro tx htx
  obtain ⟨-, -, row, hrow, hitems, htu⟩ := mem_numbered htx
  obtain ⟨hd, hn, ht⟩ := hwf row hrow
  exact ⟨hitems ▸ hd, hitems ▸ hn, by rw [htu, hitems, ht], htu ▸ row.fits⟩

theorem RawTransaction.WellFormed.gain_items {tx : RawTransaction} (h : tx.WellFormed) :
    tx.basket.gain tx.basket.items = tx.transactionUtility := by
  rw [h.total]
  exact gain_basketOf h.distinct

theorem RawTransaction.WellFormed.gain_le {tx : RawTransaction} (h : tx.WellFormed)
    {X : Finset ItemId} (hX : X ⊆ tx.basket.items) : tx.basket.gain X ≤ tx.transactionUtility := by
  rw [← h.gain_items]
  exact gain_le_gain (nonneg_basketOf h.nonneg) hX subset_rfl

theorem RawTransaction.WellFormed.transactionUtility_nonneg {tx : RawTransaction}
    (h : tx.WellFormed) : 0 ≤ tx.transactionUtility := by
  rw [← h.gain_items]
  exact gain_nonneg (nonneg_basketOf h.nonneg) subset_rfl

/-- The weight of an itemset: what the transactions containing it are worth. -/
def twuOf (txs : List RawTransaction) (X : Finset ItemId) : Utility :=
  ((txs.filter fun tx => X ⊆ tx.basket.items).map RawTransaction.transactionUtility).sum

/-- The updates the filter's pass makes. -/
def twuEvents (txs : List RawTransaction) : List (ItemId × Utility) :=
  txs.flatMap fun tx => tx.items.map fun e => (e.item, tx.transactionUtility)

theorem argsAt_items {items : List ItemEntry} (h : (items.map ItemEntry.item).Nodup) (v : Utility)
    (x : ItemId) :
    Table.argsAt (items.map fun e => (e.item, v)) x =
      if x ∈ (basketOf items).items then [v] else [] := by
  have hmap : (items.map fun e => (e.item, v)) =
      (items.map ItemEntry.item).map fun x => (x, v) := by
    rw [List.map_map]
    rfl
  rw [hmap, Table.argsAt_map_const h]
  simp only [mem_basketOf, List.mem_map]

theorem argsAt_twuEvents {txs : List RawTransaction} (h : ∀ tx ∈ txs, tx.WellFormed)
    (x : ItemId) :
    Table.argsAt (twuEvents txs) x =
      (txs.filter fun tx => {x} ⊆ tx.basket.items).map RawTransaction.transactionUtility := by
  rw [twuEvents, Table.argsAt_flatMap]
  apply flatMap_eq_map_filter
  intro tx htx
  rw [argsAt_items (h tx htx).distinct]
  simp only [Finset.singleton_subset_iff]
  rfl

theorem compute_twu (minUtility : Utility) (txs : List RawTransaction) :
    (TwuFilter.compute minUtility txs).twu =
      Table.retain (Table.modifyAll ∅ 0 (· + ·) (twuEvents txs))
        fun _ v => decide (minUtility ≤ v) := by
  rw [twuEvents, Table.modifyAll_flatMap]
  simp only [TwuFilter.compute, Table.modifyAll, List.foldl_map]

/-- What the filter knows of an item: its weight, if it occurs and weighs enough. -/
theorem lookup_compute {txs : List RawTransaction} (h : ∀ tx ∈ txs, tx.WellFormed)
    (minUtility : Utility) (x : ItemId) :
    (TwuFilter.compute minUtility txs).twu.lookup x =
      if Occurs (txs.map RawTransaction.basket) {x} ∧ minUtility ≤ twuOf txs {x} then
        some (twuOf txs {x})
      else none := by
  rw [compute_twu, Table.lookup_retain, Table.lookup_modifyAll_empty, argsAt_twuEvents h,
    foldl_add_eq_sum, zero_add]
  have hocc : ((txs.filter fun tx => {x} ⊆ tx.basket.items).map
      RawTransaction.transactionUtility = []) ↔ ¬ Occurs (txs.map RawTransaction.basket) {x} := by
    rw [occurs_map, List.map_eq_nil_iff, List.filter_eq_nil_iff]
    simp
  have hsum : ((txs.filter fun tx => {x} ⊆ tx.basket.items).map
      RawTransaction.transactionUtility).sum = twuOf txs {x} := rfl
  rw [hsum]
  by_cases hx : Occurs (txs.map RawTransaction.basket) {x}
  · rw [if_neg (fun hnil => hocc.mp hnil hx)]
    by_cases hmin : minUtility ≤ twuOf txs {x} <;> simp [hx, hmin, Option.filter]
  · rw [if_pos (hocc.mpr hx)]
    simp [hx]

theorem passes_compute {txs : List RawTransaction} (h : ∀ tx ∈ txs, tx.WellFormed)
    (minUtility : Utility) (x : ItemId) :
    (TwuFilter.compute minUtility txs).passes x = true ↔
      Occurs (txs.map RawTransaction.basket) {x} ∧ minUtility ≤ twuOf txs {x} := by
  rw [TwuFilterResult.passes, decide_eq_true_iff, ← AList.lookup_isSome, lookup_compute h]
  split_ifs with hx <;> simp [hx]

/-- An itemset is worth at most what any part of it weighs. -/
theorem utility_le_twuOf {txs : List RawTransaction} (h : ∀ tx ∈ txs, tx.WellFormed)
    {X Y : Finset ItemId} (hYX : Y ⊆ X) :
    utility (txs.map RawTransaction.basket) X ≤ twuOf txs Y := by
  apply utility_le_sum
  · intro tx _ hX
    exact decide_eq_true (hYX.trans hX)
  · intro tx htx hX
    exact (h tx htx).gain_le hX
  · intro tx htx _
    exact (h tx htx).transactionUtility_nonneg

/-- No item of a high-utility itemset is filtered out. -/
theorem HighUtility.passes {txs : List RawTransaction} (h : ∀ tx ∈ txs, tx.WellFormed)
    {minUtility : Utility} {X : Finset ItemId}
    (hX : HighUtility (txs.map RawTransaction.basket) minUtility X) {x : ItemId} (hx : x ∈ X) :
    (TwuFilter.compute minUtility txs).passes x = true := by
  have hsub : {x} ⊆ X := Finset.singleton_subset_iff.mpr hx
  rw [passes_compute h]
  exact ⟨hX.occurs.mono hsub, hX.le.trans (utility_le_twuOf h hsub)⟩

/-! ## The filtered database -/

theorem TwuFilterResult.rank_injective (r : TwuFilterResult) : Function.Injective r.rank := by
  intro x y h
  exact congrArg (fun p : Utility ×ₗ ItemId => (ofLex p).2) h

/-- The shape of a filtered database: less than `2 ^ 32` rows, ascending tids, items in strictly
ascending rank, utilities that are not negative and stay within the stated
transaction utility, which is an `i64`. -/
structure FilteredRows (rank : ItemId → Utility ×ₗ ItemId) (rows : List FilteredTransaction) :
    Prop where
  length_lt : rows.length < 2 ^ 32
  tids : rows.Pairwise fun r r' => r.tid < r'.tid
  tid_lt : ∀ r ∈ rows, r.tid < 2 ^ 32
  sorted : ∀ r ∈ rows, r.items.Pairwise fun a b => rank a.item < rank b.item
  nonneg : ∀ r ∈ rows, ∀ e ∈ r.items, 0 ≤ e.utility
  gain_le : ∀ r ∈ rows, r.basket.gain r.basket.items ≤ r.transactionUtility
  fits : ∀ r ∈ rows, FitsI64 r.transactionUtility

namespace FilteredRows

variable {rank : ItemId → Utility ×ₗ ItemId} {rows : List FilteredTransaction}

theorem distinct (h : FilteredRows rank rows) {r : FilteredTransaction} (hr : r ∈ rows) :
    (r.items.map ItemEntry.item).Nodup := by
  refine List.pairwise_map.mpr ((h.sorted r hr).imp ?_)
  intro a b hab heq
  exact hab.ne (congrArg rank heq)

theorem basket_nonneg (h : FilteredRows rank rows) {r : FilteredTransaction} (hr : r ∈ rows) :
    r.basket.Nonneg :=
  nonneg_basketOf (h.nonneg r hr)

theorem gain_le_transactionUtility (h : FilteredRows rank rows) {r : FilteredTransaction}
    (hr : r ∈ rows) {X : Finset ItemId} (hX : X ⊆ r.basket.items) :
    r.basket.gain X ≤ r.transactionUtility :=
  (gain_le_gain (h.basket_nonneg hr) hX subset_rfl).trans (h.gain_le r hr)

theorem transactionUtility_nonneg (h : FilteredRows rank rows) {r : FilteredTransaction}
    (hr : r ∈ rows) : 0 ≤ r.transactionUtility :=
  (gain_nonneg (h.basket_nonneg hr) (Finset.empty_subset _)).trans
    (h.gain_le_transactionUtility hr (Finset.empty_subset _))

theorem fits_gain (h : FilteredRows rank rows) {r : FilteredTransaction} (hr : r ∈ rows)
    {X : Finset ItemId} (hX : X ⊆ r.basket.items) : FitsI64 (r.basket.gain X) :=
  (h.fits r hr).of_le (gain_nonneg (h.basket_nonneg hr) hX) (h.gain_le_transactionUtility hr hX)

end FilteredRows

theorem apply_tid {r : TwuFilterResult} {tx : RawTransaction} {ftx : FilteredTransaction}
    (ha : r.apply tx = some ftx) : ftx.tid = tx.tid := by
  simp only [TwuFilterResult.apply] at ha
  split_ifs at ha
  cases ha
  rfl

/-- `apply`, read through the entries: the passing items, with their utilities. -/
theorem apply_some {r : TwuFilterResult} {tx : RawTransaction} (h : tx.WellFormed)
    {ftx : FilteredTransaction} (ha : r.apply tx = some ftx) :
    ftx.transactionUtility = tx.transactionUtility ∧
      ftx.items.Perm (tx.items.filter fun e => r.passes e.item) ∧
      ftx.items.Pairwise (fun a b => r.rank a.item < r.rank b.item) := by
  have hnodup : ((tx.items.filter fun e => r.passes e.item).map fun e => r.rank e.item).Nodup := by
    rw [← Function.comp_def r.rank, ← List.map_map]
    exact (h.distinct.sublist (List.filter_sublist.map _)).map r.rank_injective
  simp only [TwuFilterResult.apply] at ha
  split_ifs at ha with hk
  cases ha
  exact ⟨rfl, sortByKey_perm _ _, pairwise_sortByKey_lt _ hnodup⟩

theorem apply_some_basket {r : TwuFilterResult} {tx : RawTransaction} (h : tx.WellFormed)
    {ftx : FilteredTransaction} (ha : r.apply tx = some ftx) :
    (∀ x, x ∈ ftx.basket.items ↔ x ∈ tx.basket.items ∧ r.passes x = true) ∧
      ∀ x ∈ ftx.basket.items, ftx.basket.util x = tx.basket.util x := by
  obtain ⟨-, hperm, -⟩ := apply_some h ha
  constructor
  · intro x
    simp only [FilteredTransaction.basket, RawTransaction.basket, mem_basketOf, hperm.mem_iff,
      List.mem_filter]
    constructor
    · rintro ⟨e, ⟨he, hp⟩, rfl⟩
      exact ⟨⟨e, he, rfl⟩, hp⟩
    · rintro ⟨⟨e, he, rfl⟩, hp⟩
      exact ⟨e, ⟨he, hp⟩, rfl⟩
  · intro x hx
    obtain ⟨e, he, rfl⟩ := mem_basketOf.mp hx
    have hetx := List.mem_of_mem_filter (hperm.subset he)
    have hdist : (ftx.items.map ItemEntry.item).Nodup :=
      (hperm.map _).nodup_iff.mpr (h.distinct.sublist (List.filter_sublist.map _))
    exact (util_basketOf hdist he).trans (util_basketOf h.distinct hetx).symm

theorem apply_none_basket {r : TwuFilterResult} {tx : RawTransaction} (ha : r.apply tx = none) :
    ∀ x ∈ tx.basket.items, r.passes x = false := by
  simp only [TwuFilterResult.apply] at ha
  split_ifs at ha with hk
  intro x hx
  obtain ⟨e, he, rfl⟩ := mem_basketOf.mp hx
  simpa using List.filter_eq_nil_iff.mp hk e he

/-- The filtered transaction has some of the entries of the transaction. -/
theorem apply_items {r : TwuFilterResult} {tx : RawTransaction} {ftx : FilteredTransaction}
    (ha : r.apply tx = some ftx) :
    ftx.transactionUtility = tx.transactionUtility ∧ (∀ e ∈ ftx.items, e ∈ tx.items) ∧
      ftx.items.length ≤ tx.items.length := by
  simp only [TwuFilterResult.apply] at ha
  split_ifs at ha
  cases ha
  refine ⟨rfl, fun e he => ?_, ?_⟩
  · exact List.mem_of_mem_filter ((sortByKey_perm _ _).subset he)
  · rw [(sortByKey_perm _ _).length_eq]
    exact List.length_filter_le _ _

/-- The second pass of the miners that filter: every transaction through `apply`. -/
def filteredDb (r : TwuFilterResult) (txs : List RawTransaction) : List FilteredTransaction :=
  txs.filterMap r.apply

theorem filteredRows_filteredDb {db : List SpmfRow} (hwf : ∀ row ∈ db, row.WellFormed)
    (hlen : db.length < 2 ^ 32) (r : TwuFilterResult) :
    FilteredRows r.rank (filteredDb r (numbered 0 db)) := by
  have hwf := numbered_wellFormed hwf 0
  have hfrom : ∀ ftx ∈ filteredDb r (numbered 0 db), ∃ tx ∈ numbered 0 db, r.apply tx = some ftx :=
    fun ftx h => List.mem_filterMap.mp h
  refine ⟨?_, ?_, ?_, ?_, ?_, ?_, ?_⟩
  · have := List.length_filterMap_le r.apply (numbered 0 db)
    rw [length_numbered] at this
    exact this.trans_lt hlen
  · refine (pairwise_numbered 0 db).filterMap r.apply ?_
    intro tx tx' hlt ftx ha ftx' ha'
    rw [apply_tid ha, apply_tid ha']
    exact hlt
  · intro ftx hf
    obtain ⟨tx, htx, ha⟩ := hfrom ftx hf
    rw [apply_tid ha]
    have := (mem_numbered htx).2.1
    omega
  · intro ftx hf
    obtain ⟨tx, htx, ha⟩ := hfrom ftx hf
    exact (apply_some (hwf tx htx) ha).2.2
  · intro ftx hf e he
    obtain ⟨tx, htx, ha⟩ := hfrom ftx hf
    exact (hwf tx htx).nonneg e
      (List.mem_of_mem_filter ((apply_some (hwf tx htx) ha).2.1.subset he))
  · intro ftx hf
    obtain ⟨tx, htx, ha⟩ := hfrom ftx hf
    obtain ⟨hitems, hutil⟩ := apply_some_basket (hwf tx htx) ha
    have hsub : ftx.basket.items ⊆ tx.basket.items := fun x hx => ((hitems x).mp hx).1
    have hgain : ftx.basket.gain ftx.basket.items = tx.basket.gain ftx.basket.items :=
      Finset.sum_congr rfl hutil
    rw [hgain, (apply_some (hwf tx htx) ha).1]
    exact (hwf tx htx).gain_le hsub
  · intro ftx hf
    obtain ⟨tx, htx, ha⟩ := hfrom ftx hf
    rw [(apply_some (hwf tx htx) ha).1]
    exact (hwf tx htx).fits

section Lossless

variable {txs : List RawTransaction} {minUtility : Utility}

/-- On itemsets of passing items the filtered database is the original one. -/
theorem utility_filteredDb (hwf : ∀ tx ∈ txs, tx.WellFormed) (r : TwuFilterResult)
    {X : Finset ItemId} (hne : X.Nonempty) (hpass : ∀ x ∈ X, r.passes x = true) :
    utility ((filteredDb r txs).map FilteredTransaction.basket) X =
        utility (txs.map RawTransaction.basket) X ∧
      (Occurs ((filteredDb r txs).map FilteredTransaction.basket) X ↔
        Occurs (txs.map RawTransaction.basket) X) := by
  apply utility_filterMap
  · intro tx htx ftx ha
    obtain ⟨hitems, hutil⟩ := apply_some_basket (hwf tx htx) ha
    have hiff : X ⊆ ftx.basket.items ↔ X ⊆ tx.basket.items :=
      ⟨fun h x hx => ((hitems x).mp (h hx)).1, fun h x hx => (hitems x).mpr ⟨h hx, hpass x hx⟩⟩
    exact ⟨hiff, fun h => Finset.sum_congr rfl fun x hx => hutil x (hiff.mpr h hx)⟩
  · intro tx _ ha hX
    obtain ⟨x, hx⟩ := hne
    have hfalse := apply_none_basket ha x (hX hx)
    rw [hpass x hx] at hfalse
    cases hfalse

theorem passes_of_occurs_filteredDb (hwf : ∀ tx ∈ txs, tx.WellFormed) {r : TwuFilterResult}
    {X : Finset ItemId} (h : Occurs ((filteredDb r txs).map FilteredTransaction.basket) X) :
    ∀ x ∈ X, r.passes x = true := by
  obtain ⟨ftx, hf, hX⟩ := (occurs_map _ _ _).mp h
  obtain ⟨tx, htx, ha⟩ := List.mem_filterMap.mp hf
  intro x hx
  exact (((apply_some_basket (hwf tx htx) ha).1 x).mp (hX hx)).2

/-- Filtering neither loses nor invents a high-utility itemset. -/
theorem highUtility_filteredDb (hwf : ∀ tx ∈ txs, tx.WellFormed) (X : Finset ItemId) :
    HighUtility ((filteredDb (TwuFilter.compute minUtility txs) txs).map
        FilteredTransaction.basket) minUtility X ↔
      HighUtility (txs.map RawTransaction.basket) minUtility X := by
  constructor
  · intro h
    have hpass := passes_of_occurs_filteredDb hwf h.occurs
    obtain ⟨hu, ho⟩ := utility_filteredDb hwf _ h.nonempty hpass
    exact ⟨h.nonempty, ho.mp h.occurs, hu ▸ h.le⟩
  · intro h
    have hpass := fun x hx => HighUtility.passes hwf h (x := x) hx
    obtain ⟨hu, ho⟩ := utility_filteredDb hwf _ h.nonempty hpass
    exact ⟨h.nonempty, ho.mpr h.occurs, hu ▸ h.le⟩

/-- An item that would make a high-utility itemset larger passes the filter. -/
theorem closed_filteredDb (hwf : ∀ tx ∈ txs, tx.WellFormed) {X : Finset ItemId}
    (hX : HighUtility (txs.map RawTransaction.basket) minUtility X) :
    Closed ((filteredDb (TwuFilter.compute minUtility txs) txs).map FilteredTransaction.basket) X ↔
      Closed (txs.map RawTransaction.basket) X := by
  have hpass := fun x hx => HighUtility.passes hwf hX (x := x) hx
  rw [closed_iff, closed_iff]
  constructor
  · intro hclosed y hy
    by_contra hall
    push Not at hall
    have hnonneg : ∀ b ∈ txs.map RawTransaction.basket, b.Nonneg := by
      intro b hb
      obtain ⟨tx, htx, rfl⟩ := List.mem_map.mp hb
      exact nonneg_basketOf (hwf tx htx).nonneg
    have hy' := HighUtility.passes hwf (hX.insert_of_forall hnonneg hall)
      (Finset.mem_insert_self y X)
    obtain ⟨b, hb, hXb, hyb⟩ := hclosed y hy
    obtain ⟨ftx, hf, rfl⟩ := List.mem_map.mp hb
    obtain ⟨tx, htx, ha⟩ := List.mem_filterMap.mp hf
    obtain ⟨hitems, -⟩ := apply_some_basket (hwf tx htx) ha
    have hXtx : X ⊆ tx.basket.items := fun x hx => ((hitems x).mp (hXb hx)).1
    exact hyb ((hitems y).mpr ⟨hall _ (List.mem_map_of_mem htx) hXtx, hy'⟩)
  · intro hclosed y hy
    obtain ⟨b, hb, hXb, hyb⟩ := hclosed y hy
    obtain ⟨tx, htx, rfl⟩ := List.mem_map.mp hb
    cases ha : (TwuFilter.compute minUtility txs).apply tx with
    | none =>
      obtain ⟨x, hx⟩ := hX.nonempty
      have hfalse := apply_none_basket ha x (hXb hx)
      rw [hpass x hx] at hfalse
      cases hfalse
    | some ftx =>
      obtain ⟨hitems, -⟩ := apply_some_basket (hwf tx htx) ha
      have hf : ftx ∈ filteredDb (TwuFilter.compute minUtility txs) txs :=
        List.mem_filterMap.mpr ⟨tx, htx, ha⟩
      exact ⟨ftx.basket, List.mem_map_of_mem hf, fun x hx => (hitems x).mpr ⟨hXb hx, hpass x hx⟩,
        fun hmem => hyb ((hitems y).mp hmem).1⟩

end Lossless

/-- An exact answer over the filtered database is one over the database itself. -/
theorem exactOutput_filteredDb {db : List SpmfRow} (hwf : ∀ row ∈ db, row.WellFormed)
    {minUtility : Utility} {rows : List FilteredTransaction}
    (hrows : rows = filteredDb (TwuFilter.compute minUtility (numbered 0 db)) (numbered 0 db))
    {lines : List Line}
    (h : Lists (fun l : Line => l.1.toFinset) lines
      (HighUtility (rows.map FilteredTransaction.basket) minUtility) fun l =>
        l.1.Nodup ∧ l.2 = utility (rows.map FilteredTransaction.basket) l.1.toFinset ∧
          HighUtility (rows.map FilteredTransaction.basket) minUtility l.1.toFinset) :
    ExactOutput db minUtility lines := by
  subst hrows
  have hwf := numbered_wellFormed hwf 0
  rw [ExactOutput, ← map_basket_numbered 0 db]
  refine h.mono (fun X hX => (highUtility_filteredDb hwf X).mpr hX) ?_
  rintro l - ⟨hnodup, hu, hX⟩
  have hpass := passes_of_occurs_filteredDb hwf hX.occurs
  have hutil := (utility_filteredDb hwf _ hX.nonempty hpass).1
  exact ⟨hnodup, (highUtility_filteredDb hwf _).mp hX, hu.trans hutil⟩

end AirHuim
