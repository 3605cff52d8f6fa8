import AirHuim.Mining.Algorithms.FhmChecked
import AirHuim.Mining.Algorithms.RejectedLines
import AirHuim.Mining.EucsRefusals
import AirHuim.Mining.UtilityLists

/-!
# FHM with overflow checks

FHM on a database whose transactions are worth less than `2 ^ 63` together, in a
build with overflow checks. The passes, the headers and the bounds never overflow.
The joins of longer itemsets do: the entries of `P x` and `P y` are added up before
the one of `P` is taken off, so that `P` is in the sum twice. Which joins the search
makes at all is said here in terms of the database, and with it when a run can
overflow. What a run with the checks returns is what FHM returns.
-/

namespace AirHuim

open Library Basket

namespace Fhm

/-- No run at this threshold overflows an `i64`, whatever its budget, its schedule and
the failures of its storage: not in the first pass, and not in the rest if the reader
gets to the end of the file. -/
def NeverOverflows (source : DataSource) (minUtility : Utility) : Prop :=
  TwuFilter.computeChecked minUtility (okOnly (dbReader 0 source)) ≠ .error .overflow ∧
    ∀ results, readDb source = .ok results → ∀ ctx : MiningContext, ctx.minUtility = minUtility →
      mineChecked ctx (okOnly results) ≠ .error .overflow

/-! ## Which joins are made -/

section Condition

variable (txs : List RawTransaction) (minUtility : Utility)

/-- The order of the items: by weight, ties by item. -/
def weightKey (x : ItemId) : Utility ×ₗ ItemId := toLex (twuOf txs {x}, x)

/-- What `X` and the items after its last one, `y`, are worth in the transactions of
`X`, without the items that weigh less than the threshold. -/
def upperBound (X : Finset ItemId) (y : ItemId) : Utility :=
  ((txs.filter fun tx => X ⊆ tx.basket.items).map fun tx =>
    tx.basket.gain X + tx.basket.gain (tx.basket.items.filter fun i =>
      minUtility ≤ twuOf txs {i} ∧ weightKey txs y < weightKey txs i)).sum

/-- The search gets to the join of `P x` and `P y`: the items are in order, every pair
of them weighs the threshold, and every initial part of `P x` is bounded by no less. -/
structure Joins (P : List ItemId) (x y : ItemId) : Prop where
  sorted : (P ++ [x, y]).Pairwise fun a b => weightKey txs a < weightKey txs b
  pairs : (P ++ [x, y]).Pairwise fun a b => minUtility ≤ twuOf txs {a, b}
  bounds : ∀ Q z, Q ++ [z] <+: P ++ [x] →
    minUtility ≤ upperBound txs minUtility (Q ++ [z]).toFinset z

/-- In no join behind a prefix, and in no transaction of it, is the prefix taken twice
with the two items too much for an `i64`. -/
def PrefixesFitTwice : Prop :=
  ∀ P x y, P ≠ [] → Joins txs minUtility P x y → ∀ tx ∈ txs,
    (P ++ [x, y]).toFinset ⊆ tx.basket.items →
    tx.basket.gain (P ++ [x]).toFinset + tx.basket.gain (P ++ [y]).toFinset < 2 ^ 63

end Condition

/-! ## The filtered rows and the transactions -/

section Passes

variable {txs : List RawTransaction}

/-- A sum over the rows with `X` is one over the transactions with `X`. -/
theorem sum_filteredDb (hwf : ∀ tx ∈ txs, tx.WellFormed) (r : TwuFilterResult) {X : Finset ItemId}
    (hne : X.Nonempty) (hpass : ∀ x ∈ X, r.passes x = true) {F : FilteredTransaction → Utility}
    {G : RawTransaction → Utility}
    (hFG : ∀ tx ∈ txs, ∀ ftx, r.apply tx = some ftx → X ⊆ ftx.basket.items → F ftx = G tx) :
    (((filteredDb r txs).filter fun ftx => X ⊆ ftx.basket.items).map F).sum =
      ((txs.filter fun tx => X ⊆ tx.basket.items).map G).sum := by
  induction txs with
  | nil => rfl
  | cons tx txs ih =>
    have hrest := ih (fun tx' htx' => hwf tx' (List.mem_cons_of_mem tx htx'))
      fun tx' htx' => hFG tx' (List.mem_cons_of_mem tx htx')
    rw [filteredDb, List.filterMap_cons]
    cases ha : r.apply tx with
    | none =>
      have hno : ¬ X ⊆ tx.basket.items := by
        intro hX
        obtain ⟨x, hx⟩ := hne
        have hfalse := apply_none_basket ha x (hX hx)
        rw [hpass x hx] at hfalse
        cases hfalse
      rw [List.filter_cons_of_neg (by simpa using hno)]
      exact hrest
    | some ftx =>
      obtain ⟨hitems, -⟩ := apply_some_basket (hwf tx List.mem_cons_self) ha
      have hiff : X ⊆ ftx.basket.items ↔ X ⊆ tx.basket.items :=
        ⟨fun hX x hx => ((hitems x).mp (hX hx)).1, fun hX x hx =>
          (hitems x).mpr ⟨hX hx, hpass x hx⟩⟩
      by_cases hX : X ⊆ ftx.basket.items
      · have hvalue := hFG tx List.mem_cons_self ftx ha hX
        rw [filter_cons_of_subset hX, List.filter_cons_of_pos (by simpa using hiff.mp hX),
          List.map_cons, List.map_cons, List.sum_cons, List.sum_cons, hvalue]
        exact congrArg _ hrest
      · rw [filter_cons_of_not_subset hX,
          List.filter_cons_of_neg (by simpa using fun hin => hX (hiff.mpr hin))]
        exact hrest

variable {t : Utility}

theorem rank_eq (hwf : ∀ tx ∈ txs, tx.WellFormed) {x : ItemId}
    (hx : (TwuFilter.compute t txs).passes x = true) :
    (TwuFilter.compute t txs).rank x = weightKey txs x := by
  rw [TwuFilterResult.rank, lookup_compute hwf, if_pos ((passes_compute hwf t x).mp hx)]
  rfl

theorem pairWeight_eq (hwf : ∀ tx ∈ txs, tx.WellFormed) {r : TwuFilterResult} {X : Finset ItemId}
    (hne : X.Nonempty) (hpass : ∀ x ∈ X, r.passes x = true) :
    (((filteredDb r txs).filter fun ftx => X ⊆ ftx.basket.items).map
      FilteredTransaction.transactionUtility).sum = twuOf txs X := by
  apply sum_filteredDb hwf r hne hpass
  intro tx htx ftx ha _
  exact (apply_some (hwf tx htx) ha).1

/-- The bound of a list is the one that the transactions give. -/
theorem extensionBound_eq (hwf : ∀ tx ∈ txs, tx.WellFormed) {X : Finset ItemId} {y : ItemId}
    (hy : y ∈ X) (hpass : ∀ x ∈ X, (TwuFilter.compute t txs).passes x = true) :
    extensionBound (TwuFilter.compute t txs).rank (filteredDb (TwuFilter.compute t txs) txs) X y =
      upperBound txs t X y := by
  apply sum_filteredDb hwf _ ⟨y, hy⟩ hpass
  intro tx htx ftx ha hX
  obtain ⟨hitems, hutil⟩ := apply_some_basket (hwf tx htx) ha
  have hown : ftx.basket.gain X = tx.basket.gain X :=
    Finset.sum_congr rfl fun x hx => hutil x (hX hx)
  have hafter : (ftx.basket.items.filter fun i =>
      (TwuFilter.compute t txs).rank y < (TwuFilter.compute t txs).rank i) =
      tx.basket.items.filter fun i => t ≤ twuOf txs {i} ∧ weightKey txs y < weightKey txs i := by
    ext i
    simp only [Finset.mem_filter, hitems]
    constructor
    · rintro ⟨⟨hi, hp⟩, hlt⟩
      rw [rank_eq hwf (hpass y hy), rank_eq hwf hp] at hlt
      exact ⟨hi, ((passes_compute hwf t i).mp hp).2, hlt⟩
    · rintro ⟨hi, hle, hlt⟩
      have hocc : Occurs (txs.map RawTransaction.basket) {i} :=
        (occurs_map _ _ _).mpr ⟨tx, htx, Finset.singleton_subset_iff.mpr hi⟩
      have hp := (passes_compute hwf t i).mpr ⟨hocc, hle⟩
      rw [rank_eq hwf (hpass y hy), rank_eq hwf hp]
      exact ⟨⟨hi, hp⟩, hlt⟩
  have hrest : remaining (TwuFilter.compute t txs).rank ftx y = tx.basket.gain
      (tx.basket.items.filter fun i => t ≤ twuOf txs {i} ∧ weightKey txs y < weightKey txs i) := by
    rw [remaining, hafter]
    refine Finset.sum_congr rfl fun i hi => hutil i ?_
    rw [← hafter] at hi
    exact Finset.mem_of_mem_filter i hi
  rw [hown, hrest]

theorem pairwise_iff {α : Type} {R S : α → α → Prop} {l : List α}
    (h : ∀ a ∈ l, ∀ b ∈ l, (R a b ↔ S a b)) : l.Pairwise R ↔ l.Pairwise S :=
  ⟨fun hR => hR.imp_of_mem fun {a b} ha hb => (h a ha b hb).mp,
    fun hS => hS.imp_of_mem fun {a b} ha hb => (h a ha b hb).mpr⟩

/-- For items that pass the filter, what the filtered rows say is what the
transactions say. -/
theorem joins_iff (hwf : ∀ tx ∈ txs, tx.WellFormed) {P : List ItemId} {x y : ItemId}
    (hpass : ∀ a ∈ P ++ [x, y], (TwuFilter.compute t txs).passes a = true) :
    Joins txs t P x y ↔
      ((P ++ [x, y]).Pairwise fun a b =>
        (TwuFilter.compute t txs).rank a < (TwuFilter.compute t txs).rank b) ∧
      ((P ++ [x, y]).Pairwise fun a b => t ≤ (((filteredDb (TwuFilter.compute t txs) txs).filter
        fun r => {a, b} ⊆ r.basket.items).map FilteredTransaction.transactionUtility).sum) ∧
      ∀ Q z, Q ++ [z] <+: P ++ [x] → t ≤ extensionBound (TwuFilter.compute t txs).rank
        (filteredDb (TwuFilter.compute t txs) txs) (Q ++ [z]).toFinset z := by
  have hsorted : ((P ++ [x, y]).Pairwise fun a b =>
      (TwuFilter.compute t txs).rank a < (TwuFilter.compute t txs).rank b) ↔
      (P ++ [x, y]).Pairwise fun a b => weightKey txs a < weightKey txs b := by
    apply pairwise_iff
    intro a ha b hb
    rw [rank_eq hwf (hpass a ha), rank_eq hwf (hpass b hb)]
  have hpairs : ((P ++ [x, y]).Pairwise fun a b => t ≤ (((filteredDb (TwuFilter.compute t txs)
      txs).filter fun r => {a, b} ⊆ r.basket.items).map
        FilteredTransaction.transactionUtility).sum) ↔
      (P ++ [x, y]).Pairwise fun a b => t ≤ twuOf txs {a, b} := by
    apply pairwise_iff
    intro a ha b hb
    have hpair : ∀ c ∈ ({a, b} : Finset ItemId),
        (TwuFilter.compute t txs).passes c = true := by
      intro c hc
      rcases Finset.mem_insert.mp hc with rfl | hc
      · exact hpass c ha
      · rw [Finset.mem_singleton.mp hc]
        exact hpass b hb
    rw [pairWeight_eq hwf ⟨a, Finset.mem_insert_self a {b}⟩ hpair]
  have hbounds : ∀ Q z, Q ++ [z] <+: P ++ [x] →
      extensionBound (TwuFilter.compute t txs).rank (filteredDb (TwuFilter.compute t txs) txs)
        (Q ++ [z]).toFinset z = upperBound txs t (Q ++ [z]).toFinset z := by
    intro Q z hQ
    apply extensionBound_eq hwf (by simp)
    intro a ha
    apply hpass
    rcases List.mem_append.mp (hQ.subset (List.mem_toFinset.mp ha)) with haP | hax
    · exact List.mem_append_left _ haP
    · rw [List.mem_singleton.mp hax]
      exact List.mem_append_right P List.mem_cons_self
  rw [hsorted, hpairs]
  constructor
  · intro h
    exact ⟨h.sorted, h.pairs, fun Q z hQ => (h.bounds Q z hQ).trans_eq (hbounds Q z hQ).symm⟩
  · rintro ⟨h, h', h''⟩
    exact ⟨h, h', fun Q z hQ => (h'' Q z hQ).trans_eq (hbounds Q z hQ)⟩

end Passes

end Fhm

/-! ## The pair test under any guard -/

namespace Eucs

variable {rank : ItemId → Utility ×ₗ ItemId} {rows : List FilteredTransaction}

theorem addAll_eq_addEach (rows : List FilteredTransaction) (e : Eucs) (guard : MemoryGuard) :
    (addAll rows e guard).2 =
      addEach (rows.map fun r => ⟨itemsOf r, r.transactionUtility⟩) e guard := by
  induction rows generalizing e guard with
  | nil => rfl
  | cons r rows ih => exact ih _ _

/-- A pair that is kept, whatever was refused, weighs the threshold. -/
theorem le_of_canPrune_eq_false (hrows : FilteredRows rank rows) (guard : MemoryGuard)
    {x y : ItemId} (hxy : x ≠ y) {t : Utility}
    (hkept : (addAll rows .new guard).2.1.canPrune x y t = false) :
    t ≤ ((rows.filter fun r => {x, y} ⊆ r.basket.items).map
      FilteredTransaction.transactionUtility).sum := by
  set calls : List Added := rows.map fun r => ⟨itemsOf r, r.transactionUtility⟩ with hcalls
  have hnodup : ∀ c ∈ calls, c.items.Nodup := by
    intro c hc
    obtain ⟨r, hr, rfl⟩ := List.mem_map.mp hc
    exact hrows.distinct hr
  have htu : ∀ c ∈ calls, 0 ≤ c.tu := by
    intro c hc
    obtain ⟨r, hr, rfl⟩ := List.mem_map.mp hc
    exact hrows.transactionUtility_nonneg hr
  rw [addAll_eq_addEach] at hkept
  have hcounted := ((canPrune_addEach hnodup x y t).mp hkept).2
  have hskipped : 0 ≤ ((skipped (reachAll calls [] guard) x y).map fun r => r.call.tu).sum := by
    refine List.sum_nonneg fun u hu => ?_
    obtain ⟨r, hr, rfl⟩ := List.mem_map.mp hu
    exact nonneg_reachAll htu (List.mem_of_mem_filter hr)
  have hall := sum_eq_counted_add calls guard hxy
  have hsame : (rows.filter fun r => {x, y} ⊆ r.basket.items) =
      rows.filter fun r => x ∈ itemsOf r ∧ y ∈ itemsOf r := by
    apply List.filter_congr
    intro r _
    rw [decide_eq_decide, ← pairKey_mem_itemsOf hxy, mem_pairKeys hxy]
  have hsum : ((calls.filter fun c => x ∈ c.items ∧ y ∈ c.items).map Added.tu).sum =
      ((rows.filter fun r => {x, y} ⊆ r.basket.items).map
        FilteredTransaction.transactionUtility).sum := by
    rw [hcalls, List.filter_map, List.map_map, hsame]
    rfl
  linarith

/-- With room for every pair, all of them are counted. -/
theorem trackedKeys_of_room {budget : ℕ}
    (hroom : 32 * (rows.flatMap fun r => pairKeys (itemsOf r)).length ≤ budget)
    {r : FilteredTransaction} (hr : r ∈ rows) :
    trackedKeys budget rows r = pairKeys (itemsOf r) := by
  have hlength : (distinct (rows.flatMap fun r => pairKeys (itemsOf r))).length ≤ budget / 32 := by
    have hdedup :=
      (List.dedup_sublist (rows.flatMap fun r => pairKeys (itemsOf r)).reverse).length_le
    rw [List.length_reverse] at hdedup
    rw [distinct, List.length_reverse]
    omega
  rw [trackedKeys, List.takeWhile_eq_self_iff]
  intro key hkey
  rw [decide_eq_true_iff, admitted, List.take_of_length_le hlength, mem_distinct]
  exact List.mem_flatMap.mpr ⟨r, hr, hkey⟩

theorem canPrune_of_room (hrows : FilteredRows rank rows) {budget : ℕ}
    (hroom : 32 * (rows.flatMap fun r => pairKeys (itemsOf r)).length ≤ budget) {x y : ItemId}
    (hxy : x ≠ y) {t : Utility} (hocc : ∃ r ∈ rows, {x, y} ⊆ r.basket.items)
    (hle : t ≤ ((rows.filter fun r => {x, y} ⊆ r.basket.items).map
      FilteredTransaction.transactionUtility).sum) :
    (addAll rows .new (.new budget)).2.1.canPrune x y t = false := by
  have htracked : ∀ r ∈ rows,
      (pairKey x y ∈ trackedKeys budget rows r ↔ {x, y} ⊆ r.basket.items) := by
    intro r hr
    rw [trackedKeys_of_room hroom hr, pairKey_mem_itemsOf hxy]
  have hfilter : (rows.filter fun r => pairKey x y ∈ trackedKeys budget rows r) =
      rows.filter fun r => {x, y} ⊆ r.basket.items :=
    List.filter_congr fun r hr => decide_eq_decide.mpr (htracked r hr)
  obtain ⟨r, hr, hsub⟩ := hocc
  rw [canPrune_budget hrows, PairTracked, hfilter]
  exact ⟨⟨r, hr, (htracked r hr).mpr hsub⟩, hle⟩

end Eucs

namespace Fhm

section Run

variable {db : List SpmfRow} (ctx : MiningContext)

/-- Where a row of the second pass comes from. -/
theorem exists_of_mem_rowsOf (hwf : ∀ row ∈ db, row.WellFormed) {r : FilteredTransaction}
    (hr : r ∈ rowsOf ctx (numbered 0 db)) :
    ∃ tx ∈ numbered 0 db, (∀ x ∈ r.basket.items, x ∈ tx.basket.items ∧
      (pass1 ctx (numbered 0 db)).passes x = true) ∧
      ∀ X ⊆ r.basket.items, r.basket.gain X = tx.basket.gain X := by
  obtain ⟨tx, htx, ha⟩ := List.mem_filterMap.mp hr
  obtain ⟨hitems, hutil⟩ := apply_some_basket (numbered_wellFormed hwf 0 tx htx) ha
  exact ⟨tx, htx, fun x => (hitems x).mp,
    fun X hX => Finset.sum_congr rfl fun x hx => hutil x (hX hx)⟩

theorem subset_of_append_pair {P : List ItemId} {x y : ItemId} {S : Finset ItemId}
    (h : (P ++ [x, y]).toFinset ⊆ S) :
    (P ++ [x]).toFinset ⊆ S ∧ (P ++ [y]).toFinset ⊆ S := by
  constructor
  · refine Finset.Subset.trans (fun a ha => ?_) h
    simp only [List.mem_toFinset, List.mem_append, List.mem_cons] at ha ⊢
    tauto
  · refine Finset.Subset.trans (fun a ha => ?_) h
    simp only [List.mem_toFinset, List.mem_append, List.mem_cons] at ha ⊢
    tauto

/-- The joins of a run, whatever was refused to its pair structure, are among those
that the database says the search gets to. -/
theorem runFits_of_prefixesFitTwice (hwf : ∀ row ∈ db, row.WellFormed) (hlen : db.length < 2 ^ 32)
    (h : PrefixesFitTwice (numbered 0 db) ctx.minUtility) : RunFits ctx (numbered 0 db) := by
  have htxs := numbered_wellFormed hwf 0
  have hrows := filteredRows_filteredDb hwf hlen (pass1 ctx (numbered 0 db))
  intro L x y hsub hpairs hbounds
  simp only [Finset.empty_union] at hbounds ⊢
  by_cases hL : L = []
  · exact Or.inl (by rw [hL]; rfl)
  · refine Or.inr fun r hr hX => ?_
    rw [← toFinset_append_pair] at hX
    obtain ⟨tx, htx, hitems, hgain⟩ := exists_of_mem_rowsOf ctx hwf hr
    have hpass : ∀ a ∈ L ++ [x, y], (pass1 ctx (numbered 0 db)).passes a = true := fun a ha =>
      (hitems a (hX (List.mem_toFinset.mpr ha))).2
    have hsorted := (filtered_sorted ctx (numbered 0 db)).sublist hsub
    have hkept : (L ++ [x, y]).Pairwise fun a b => ctx.minUtility ≤
        (((rowsOf ctx (numbered 0 db)).filter fun r => {a, b} ⊆ r.basket.items).map
          FilteredTransaction.transactionUtility).sum := by
      refine (hsorted.and hpairs).imp fun {a b} hab => ?_
      have hne : a ≠ b := fun heq => hab.1.ne (congrArg _ heq)
      have hkept : (pass2 ctx (numbered 0 db)).eucs.canPrune a b ctx.minUtility = false := hab.2
      rw [pass2, Pass2.run_eucs] at hkept
      exact Eucs.le_of_canPrune_eq_false hrows ctx.world.guard hne hkept
    have hjoin : Joins (numbered 0 db) ctx.minUtility L x y :=
      (joins_iff htxs hpass).mpr ⟨hsorted, hkept, hbounds⟩
    have hlow := h L x y hL hjoin tx htx fun a ha => (hitems a (hX ha)).1
    obtain ⟨hx, hy⟩ := subset_of_append_pair hX
    rw [← hgain _ hx, ← hgain _ hy, toFinset_append_singleton, toFinset_append_singleton] at hlow
    exact hlow

/-- Each item of a join is in a pair that weighs the threshold. -/
theorem Joins.passes {txs : List RawTransaction} {t : Utility} {P : List ItemId} {x y : ItemId}
    (h : Joins txs t P x y) (hwf : ∀ tx ∈ txs, tx.WellFormed) {tx : RawTransaction}
    (htx : tx ∈ txs) (hX : (P ++ [x, y]).toFinset ⊆ tx.basket.items) :
    ∀ a ∈ P ++ [x, y], (TwuFilter.compute t txs).passes a = true := by
  obtain ⟨-, hxy, hlater⟩ := List.pairwise_append.mp h.pairs
  have hlast : t ≤ twuOf txs {x, y} := (List.pairwise_cons.mp hxy).1 y List.mem_cons_self
  intro a ha
  have hpair : ∃ X : Finset ItemId, {a} ⊆ X ∧ t ≤ twuOf txs X := by
    rcases List.mem_append.mp ha with haP | haxy
    · exact ⟨{a, x}, by simp, hlater a haP x List.mem_cons_self⟩
    · refine ⟨{x, y}, ?_, hlast⟩
      simpa using haxy
  obtain ⟨X, haX, hle⟩ := hpair
  have hocc : Occurs (txs.map RawTransaction.basket) {a} :=
    (occurs_map _ _ _).mpr ⟨tx, htx,
      Finset.singleton_subset_iff.mpr (hX (List.mem_toFinset.mpr ha))⟩
  exact (passes_compute hwf t a).mpr ⟨hocc, hle.trans (twuOf_mono hwf haX)⟩

/-- The row of a transaction with items that pass the filter. -/
theorem exists_mem_rowsOf (hwf : ∀ row ∈ db, row.WellFormed) {tx : RawTransaction}
    (htx : tx ∈ numbered 0 db) {X : Finset ItemId} (hne : X.Nonempty) (hX : X ⊆ tx.basket.items)
    (hpass : ∀ x ∈ X, (pass1 ctx (numbered 0 db)).passes x = true) :
    ∃ r ∈ rowsOf ctx (numbered 0 db), X ⊆ r.basket.items ∧
      ∀ S ⊆ r.basket.items, r.basket.gain S = tx.basket.gain S := by
  cases ha : (pass1 ctx (numbered 0 db)).apply tx with
  | none =>
    obtain ⟨x, hx⟩ := hne
    have hfalse := apply_none_basket ha x (hX hx)
    rw [hpass x hx] at hfalse
    cases hfalse
  | some r =>
    obtain ⟨hitems, hutil⟩ := apply_some_basket (numbered_wellFormed hwf 0 tx htx) ha
    exact ⟨r, List.mem_filterMap.mpr ⟨tx, htx, ha⟩,
      fun x hx => (hitems x).mpr ⟨hX hx, hpass x hx⟩,
      fun S hS => Finset.sum_congr rfl fun x hx => hutil x (hS hx)⟩

/-- Items in order that are in the rows are searched in this order. -/
theorem sublist_filtered (hwf : ∀ row ∈ db, row.WellFormed) (hlen : db.length < 2 ^ 32)
    {L : List ItemId} {r : FilteredTransaction} (hr : r ∈ rowsOf ctx (numbered 0 db))
    (hL : L.toFinset ⊆ r.basket.items)
    (hsorted : L.Pairwise fun a b =>
      (pass1 ctx (numbered 0 db)).rank a < (pass1 ctx (numbered 0 db)).rank b) :
    L.Sublist ((filtered ctx (numbered 0 db)).map Prod.fst) := by
  have hantisymm : Std.Antisymm fun a b =>
      (pass1 ctx (numbered 0 db)).rank a < (pass1 ctx (numbered 0 db)).rank b :=
    ⟨fun a b hab hba => (lt_asymm hab hba).elim⟩
  have hnodup : L.Nodup := hsorted.imp fun {a b} hab heq => hab.ne (congrArg _ heq)
  refine List.sublist_of_subperm_of_pairwise (List.subperm_of_subset hnodup fun a ha => ?_)
    hsorted (filtered_sorted ctx _)
  have hin : {a} ⊆ r.basket.items :=
    Finset.singleton_subset_iff.mpr (hL (List.mem_toFinset.mpr ha))
  exact mem_filtered ctx hwf hlen ((occurs_map _ _ _).mpr ⟨r, hr, hin⟩)

/-- With room for all pairs, the run does make all of these joins. -/
theorem prefixesFitTwice_of_runFits (hwf : ∀ row ∈ db, row.WellFormed) (hlen : db.length < 2 ^ 32)
    {budget : ℕ} (hguard : ctx.world.guard = .new budget)
    (hroom : 32 * ((rowsOf ctx (numbered 0 db)).flatMap fun r =>
      Eucs.pairKeys (Eucs.itemsOf r)).length ≤ budget)
    (h : RunFits ctx (numbered 0 db)) : PrefixesFitTwice (numbered 0 db) ctx.minUtility := by
  have htxs := numbered_wellFormed hwf 0
  have hrows := filteredRows_filteredDb hwf hlen (pass1 ctx (numbered 0 db))
  intro P x y hP hjoin tx htx hX
  have hpass : ∀ a ∈ P ++ [x, y], (pass1 ctx (numbered 0 db)).passes a = true :=
    hjoin.passes htxs htx hX
  obtain ⟨hsorted, hpairs, hbounds⟩ := (joins_iff htxs hpass).mp hjoin
  have hmem : ∀ a ∈ P ++ [x, y], a ∈ (P ++ [x, y]).toFinset := fun a ha =>
    List.mem_toFinset.mpr ha
  have hnonempty : (P ++ [x, y]).toFinset.Nonempty :=
    ⟨x, hmem x (List.mem_append_right P List.mem_cons_self)⟩
  obtain ⟨r, hr, hXr, hgain⟩ := exists_mem_rowsOf ctx hwf htx hnonempty hX fun a ha =>
    hpass a (List.mem_toFinset.mp ha)
  have hsub := sublist_filtered ctx hwf hlen hr hXr hsorted
  have hkept : (P ++ [x, y]).Pairwise fun a b =>
      (miner (pass2 ctx (numbered 0 db)).eucs ctx.minUtility).prunePair a b ctx.minUtility =
        false := by
    refine (hsorted.and hpairs).imp_of_mem fun {a b} ha hb hab => ?_
    have hab' : a ≠ b := fun heq => hab.1.ne (congrArg _ heq)
    have hocc : ∃ r ∈ rowsOf ctx (numbered 0 db), {a, b} ⊆ r.basket.items :=
      ⟨r, hr, Finset.insert_subset (hXr (hmem a ha))
        (Finset.singleton_subset_iff.mpr (hXr (hmem b hb)))⟩
    have hkept := Eucs.canPrune_of_room hrows hroom hab' hocc hab.2
    rw [← hguard, ← Pass2.run_eucs] at hkept
    exact hkept
  have hempty : ∀ Q : Finset ItemId, ∅ ∪ Q = Q := Finset.empty_union
  have hfits := h P x y hsub hkept fun Q z hQ => by
    rw [hempty]
    exact hbounds Q z hQ
  have hne : ¬ ∅ ∪ P.toFinset = ∅ := by simpa using hP
  have hlow := hfits.resolve_left hne r hr
  rw [hempty, ← toFinset_append_pair, ← toFinset_append_singleton,
    ← toFinset_append_singleton] at hlow
  obtain ⟨hx, hy⟩ := subset_of_append_pair hXr
  rw [← hgain _ hx, ← hgain _ hy]
  exact hlow hXr

end Run

/-! ## Which databases are safe -/

/-- Transactions worth less than `2 ^ 62` are safe at every threshold. -/
theorem prefixesFitTwice_of_lt {txs : List RawTransaction} (hwf : ∀ tx ∈ txs, tx.WellFormed)
    (hlt : ∀ tx ∈ txs, tx.transactionUtility < 2 ^ 62) (minUtility : Utility) :
    PrefixesFitTwice txs minUtility := by
  intro P x y _ _ tx htx hX
  obtain ⟨hx, hy⟩ := subset_of_append_pair hX
  have hgx := (hwf tx htx).gain_le hx
  have hgy := (hwf tx htx).gain_le hy
  have htu := hlt tx htx
  linarith

/-- On a database worth less than `2 ^ 63` no run overflows exactly if every prefix fits
twice in its joins. A longer database than the reader can number is never searched. -/
theorem neverOverflows_iff {source : DataSource} (minUtility : Utility)
    (hwf : ∀ row ∈ acceptedRows source, row.WellFormed)
    (htotal : statedTotal (numbered 0 (acceptedRows source)) < 2 ^ 63) :
    NeverOverflows source minUtility ↔ ((acceptedRows source).length < 2 ^ 32 →
      PrefixesFitTwice (numbered 0 (acceptedRows source)) minUtility) := by
  have htxs := numbered_wellFormed hwf 0
  have hread : ∀ results, readDb source = .ok results →
      (acceptedRows source).length < 2 ^ 32 ∧
        okOnly results = numbered 0 (acceptedRows source) := by
    intro results hresults
    rw [readDb_eq] at hresults
    split at hresults
    · rename_i hlen
      cases hresults
      exact ⟨hlen, okOnly_dbReader 0 source⟩
    · cases hresults
  constructor
  · rintro ⟨-, hall⟩ hlen
    let r := TwuFilter.compute minUtility (numbered 0 (acceptedRows source))
    let pairs := (filteredDb r (numbered 0 (acceptedRows source))).flatMap fun row =>
      Eucs.pairKeys (Eucs.itemsOf row)
    -- a context in which no storage fails and no pair is refused
    let ctx := createCtx minUtility none (32 * pairs.length)
    have hpool : Task.Allows (fun _ => False) ctx.world := fun n hn => Bool.false_ne_true hn
    have hok : readDb source = .ok (dbReader 0 source) := by
      rw [readDb_eq, if_pos hlen]
    have hne := hall _ hok ctx rfl
    rw [okOnly_dbReader] at hne
    rcases mineChecked_spec ctx hwf hlen htotal hpool with ⟨e, he, hrun⟩ | ⟨result, -, hfits⟩
    · obtain ⟨rfl, -⟩ := he.resolve_left id
      exact (hne hrun).elim
    · exact prefixesFitTwice_of_runFits ctx hwf hlen rfl le_rfl hfits
  · intro hsafe
    constructor
    · rw [okOnly_dbReader, TwuFilter.computeChecked_eq, if_pos (sumsFit_of_total htxs htotal)]
      exact fun h => nomatch h
    · intro results hresults ctx hctx
      obtain ⟨hlen, hokOnly⟩ := hread results hresults
      have hruns := runFits_of_prefixesFitTwice ctx hwf hlen (by rw [hctx]; exact hsafe hlen)
      have hpool : Task.Allows (fun e => e = .io) ctx.world := fun n _ => rfl
      rw [hokOnly]
      rcases mineChecked_spec ctx hwf hlen htotal hpool with ⟨e, he, hrun⟩ | ⟨result, hrun, -⟩
      · rcases he with rfl | ⟨-, hno⟩
        · rw [hrun]
          exact fun h => nomatch h
        · exact (hno hruns).elim
      · rw [hrun]
        exact fun h => nomatch h

theorem neverOverflows_tinyDb : NeverOverflows (tinyDb.map .ok) 45 := by
  have hwf : ∀ row ∈ acceptedRows (tinyDb.map .ok), row.WellFormed := by decide
  refine (neverOverflows_iff 45 hwf (by decide)).mpr fun _ => ?_
  exact prefixesFitTwice_of_lt (numbered_wellFormed hwf 0) (by decide) 45

/-- One transaction with all its utility on the first of three items. -/
theorem overflows_on_heavy_prefix :
    ¬ ∀ (source : DataSource) (minUtility : Utility),
      (∀ row ∈ acceptedRows source, row.WellFormed) →
      statedTotal (numbered 0 (acceptedRows source)) < 2 ^ 63 →
      NeverOverflows source minUtility := by
  intro hall
  let row : SpmfRow :=
    { items := [⟨1, 2 ^ 62⟩, ⟨2, 0⟩, ⟨3, 0⟩], transactionUtility := 2 ^ 62 }
  have hrow : ∀ row' ∈ acceptedRows [.ok row], row'.WellFormed := by decide
  obtain ⟨-, hsafe⟩ := hall [.ok row] 1 hrow (by decide)
  have hrun : (mineChecked (createCtx 1 none 1024) (numbered 0 [row])).map Prod.fst =
      .error .overflow := by decide +kernel
  apply hsafe [.ok ⟨0, row.transactionUtility, row.items⟩] rfl (createCtx 1 none 1024) rfl
  cases h : mineChecked (createCtx 1 none 1024) (numbered 0 [row]) with
  | error e =>
    rw [h] at hrun
    cases hrun
    exact h
  | ok result =>
    rw [h] at hrun
    cases hrun

end Fhm

end AirHuim
