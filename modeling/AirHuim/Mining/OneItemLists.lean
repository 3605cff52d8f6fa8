import AirHuim.Mining.Eucs
import AirHuim.Mining.UlSearch

/-!
# The second pass: pair structure and lists of single items

The pass over the filtered transactions that the utility-list miners share: it
feeds the pair structure, and it appends one entry to the list of every item of
a transaction, with what is left of the transaction after that item.
-/

namespace AirHuim

open Library Basket

/-- The variables of the pass. `oom` is set once an answer of the pair structure
was false. -/
structure Pass2 where
  eucs : Eucs
  perItem : Table ItemId (List ULEntry)
  guard : MemoryGuard
  oom : Bool

namespace Pass2

def new (guard : MemoryGuard) : Pass2 := ⟨.new, ∅, guard, false⟩

/-- The entries of one transaction; `running` is what it is worth from here on. -/
def rowEntries (tid : ℕ) : Utility → List ItemEntry → List (ItemId × ULEntry)
  | _, [] => []
  | running, entry :: items =>
      (entry.item, ⟨tid, entry.utility, running - entry.utility⟩) ::
        rowEntries tid (running - entry.utility) items

def addRow (s : Pass2) (r : FilteredTransaction) : Pass2 :=
  let (complete, eucs, guard) :=
    s.eucs.addTransaction (Eucs.itemsOf r) r.transactionUtility s.guard
  let totalUtility := (r.items.map ItemEntry.utility).sum
  let perItem := (rowEntries r.tid totalUtility r.items).foldl
    (fun perItem e => Table.modify perItem e.1 [] (· ++ [e.2])) s.perItem
  ⟨eucs, perItem, guard, s.oom || !complete⟩

def run (guard : MemoryGuard) (rows : List FilteredTransaction) : Pass2 :=
  rows.foldl addRow (new guard)

/-- The header of a list of entries. -/
def header (item : ItemId) (entries : List ULEntry) : ItemList :=
  (item, ⟨[item], (entries.map ULEntry.iutils).sum, (entries.map ULEntry.rutils).sum,
    entries.length % 2 ^ 32, 0, true, .recomputable⟩, entries)

/-- The lists of all items, by ascending item; every key is in the map. -/
def itemLists (s : Pass2) : List ItemList :=
  (sortByKey id s.perItem.keys).map fun item => header item ((s.perItem.lookup item).getD [])

/-! ## What the pass leaves -/

/-- The pair structure sees exactly the calls of the pass. -/
theorem foldl_addRow (rows : List FilteredTransaction) (s : Pass2) :
    (rows.foldl addRow s).eucs = (Eucs.addAll rows s.eucs s.guard).2.1 ∧
      (rows.foldl addRow s).guard = (Eucs.addAll rows s.eucs s.guard).2.2 ∧
      (rows.foldl addRow s).oom = (s.oom || !(Eucs.addAll rows s.eucs s.guard).1) := by
  induction rows generalizing s with
  | nil => simp [Eucs.addAll]
  | cons r rows ih =>
    obtain ⟨heucs, hguard, hoom⟩ := ih (addRow s r)
    rw [List.foldl_cons, heucs, hguard, hoom]
    simp [addRow, Eucs.addAll, Bool.or_assoc]

theorem run_eucs (guard : MemoryGuard) (rows : List FilteredTransaction) :
    (run guard rows).eucs = (Eucs.addAll rows .new guard).2.1 :=
  (foldl_addRow rows (new guard)).1

theorem run_guard (guard : MemoryGuard) (rows : List FilteredTransaction) :
    (run guard rows).guard = (Eucs.addAll rows .new guard).2.2 :=
  (foldl_addRow rows (new guard)).2.1

theorem run_oom (guard : MemoryGuard) (rows : List FilteredTransaction) :
    (run guard rows).oom = !(Eucs.addAll rows .new guard).1 :=
  (foldl_addRow rows (new guard)).2.2

theorem complete_of_oom {guard : MemoryGuard} {rows : List FilteredTransaction}
    (h : (run guard rows).oom = false) : (Eucs.addAll rows .new guard).1 = true := by
  rw [run_oom] at h
  simpa using h

def rowEvents (rows : List FilteredTransaction) : List (ItemId × ULEntry) :=
  rows.flatMap fun r => rowEntries r.tid (r.items.map ItemEntry.utility).sum r.items

theorem run_perItem (guard : MemoryGuard) (rows : List FilteredTransaction) :
    (run guard rows).perItem = Table.modifyAll ∅ [] (fun l e => l ++ [e]) (rowEvents rows) := by
  have hfold : ∀ s : Pass2, (rows.foldl addRow s).perItem =
      Table.modifyAll s.perItem [] (fun l e => l ++ [e]) (rowEvents rows) := by
    induction rows with
    | nil => exact fun s => rfl
    | cons r rows ih =>
      intro s
      have hevents : rowEvents (r :: rows) =
          rowEntries r.tid (r.items.map ItemEntry.utility).sum r.items ++ rowEvents rows :=
        List.flatMap_cons
      rw [List.foldl_cons, ih, hevents, Table.modifyAll_append]
      rfl
  exact hfold (new guard)

variable {rank : ItemId → Utility ×ₗ ItemId} {rows : List FilteredTransaction}

/-- An item's entry in one transaction: its own worth, and that of the items
after it. -/
theorem argsAt_rowEntries (tid : ℕ) {items : List ItemEntry}
    (hsorted : items.Pairwise fun a b => rank a.item < rank b.item) (x : ItemId) :
    Table.argsAt (rowEntries tid (items.map ItemEntry.utility).sum items) x =
      if x ∈ (basketOf items).items then
        [⟨tid, (basketOf items).gain {x},
          (basketOf items).gain ((basketOf items).items.filter fun z => rank x < rank z)⟩]
      else [] := by
  induction items with
  | nil => simp [rowEntries, basketOf]
  | cons e items ih =>
    obtain ⟨he, hitems⟩ := List.pairwise_cons.mp hsorted
    have hnodup : ((e :: items).map ItemEntry.item).Nodup :=
      List.pairwise_map.mpr (hsorted.imp fun hab heq => hab.ne (congrArg rank heq))
    have hlt : ∀ z ∈ (basketOf items).items, rank e.item < rank z := by
      intro z hz
      obtain ⟨b, hb, rfl⟩ := mem_basketOf.mp hz
      exact he b hb
    have hcons : (basketOf (e :: items)).items = insert e.item (basketOf items).items := by
      simp [basketOf]
    have hutil : ∀ z ∈ (basketOf items).items,
        (basketOf (e :: items)).util z = (basketOf items).util z := by
      intro z hz
      obtain ⟨b, hb, rfl⟩ := mem_basketOf.mp hz
      rw [util_basketOf hnodup (List.mem_cons_of_mem e hb),
        util_basketOf (List.nodup_cons.mp hnodup).2 hb]
    have hrunning : ((e :: items).map ItemEntry.utility).sum - e.utility =
        (items.map ItemEntry.utility).sum := by simp
    rw [rowEntries, hrunning, Table.argsAt_cons, ih hitems]
    by_cases hx : e.item = x
    · subst hx
      have hnot : e.item ∉ (basketOf items).items := fun hmem => (hlt _ hmem).false
      have hafter : (basketOf (e :: items)).items.filter (fun z => rank e.item < rank z) =
          (basketOf items).items := by
        rw [hcons, Finset.filter_insert, if_neg (lt_irrefl _), Finset.filter_eq_self]
        exact hlt
      have hgain : (basketOf (e :: items)).gain (basketOf items).items =
          (items.map ItemEntry.utility).sum := by
        rw [← gain_basketOf (List.nodup_cons.mp hnodup).2]
        exact Finset.sum_congr rfl hutil
      have hown : (basketOf (e :: items)).util e.item = e.utility :=
        util_basketOf hnodup List.mem_cons_self
      have hmem : e.item ∈ (basketOf (e :: items)).items := mem_basketOf.mpr ⟨e, by simp, rfl⟩
      rw [if_pos rfl, if_neg hnot, if_pos hmem, hafter, hgain, gain_singleton, hown]
    · by_cases hmem : x ∈ (basketOf items).items
      · have hafter : (basketOf (e :: items)).items.filter (fun z => rank x < rank z) =
            (basketOf items).items.filter fun z => rank x < rank z := by
          rw [hcons, Finset.filter_insert, if_neg (lt_asymm (hlt x hmem))]
        have hgain : (basketOf (e :: items)).gain
              ((basketOf items).items.filter fun z => rank x < rank z) =
            (basketOf items).gain ((basketOf items).items.filter fun z => rank x < rank z) :=
          Finset.sum_congr rfl fun z hz => hutil z (Finset.mem_of_mem_filter z hz)
        have hmem' : x ∈ (basketOf (e :: items)).items := hcons ▸ Finset.mem_insert_of_mem hmem
        rw [if_neg hx, if_pos hmem, if_pos hmem', hafter, hgain, gain_singleton, gain_singleton,
          hutil x hmem]
      · simp [hx, hmem, hcons, Ne.symm hx]

theorem argsAt_rowEvents (h : FilteredRows rank rows) (x : ItemId) :
    Table.argsAt (rowEvents rows) x = entriesOf rank rows {x} x := by
  have hrow : ∀ r ∈ rows, Table.argsAt
      (rowEntries r.tid (r.items.map ItemEntry.utility).sum r.items) x =
        if {x} ⊆ r.basket.items then [entryOf rank {x} x r] else [] := by
    intro r hr
    simp only [argsAt_rowEntries r.tid (h.sorted r hr), Finset.singleton_subset_iff]
    rfl
  rw [rowEvents, Table.argsAt_flatMap, entriesOf]
  clear h
  induction rows with
  | nil => rfl
  | cons r rows ih =>
    rw [List.flatMap_cons, hrow r List.mem_cons_self,
      ih fun r' hr' => hrow r' (List.mem_cons_of_mem r hr')]
    by_cases hx : {x} ⊆ r.basket.items
    · rw [if_pos hx, List.filter_cons_of_pos (by simpa using hx)]
      rfl
    · rw [if_neg hx, List.filter_cons_of_neg (by simpa using hx)]
      rfl

/-- The map of the pass: the utility list of every item that occurs. -/
theorem lookup_perItem (h : FilteredRows rank rows) (guard : MemoryGuard) (x : ItemId) :
    (run guard rows).perItem.lookup x =
      if Occurs (rows.map FilteredTransaction.basket) {x} then some (entriesOf rank rows {x} x)
      else none := by
  have hocc := entriesOf_ne_nil_iff rank rows {x} x
  rw [run_perItem, Table.lookup_modifyAll_empty, argsAt_rowEvents h, foldl_push_eq_append,
    List.nil_append]
  by_cases hx : Occurs (rows.map FilteredTransaction.basket) {x}
  · rw [if_neg (hocc.mpr hx), if_pos hx]
  · rw [if_pos (not_not.mp fun hne => hx (hocc.mp hne)), if_neg hx]

theorem itemLists_sorted (guard : MemoryGuard) (rows : List FilteredTransaction) :
    (run guard rows).itemLists.Pairwise fun e e' => e.1 < e'.1 := by
  have hnodup : ((run guard rows).perItem.keys.map id).Nodup := by
    rw [List.map_id]
    exact (run guard rows).perItem.keys_nodup
  rw [itemLists, List.pairwise_map]
  exact pairwise_sortByKey_lt id hnodup

/-- Lists that are in the order of their items, sorted stably by weight: ties are
left in the order of the items. -/
theorem pairwise_rank_sortByKey (r : TwuFilterResult) {lists : List ItemList}
    (h : lists.Pairwise fun e e' => e.1 < e'.1) :
    ((sortByKey (fun e : ItemList => (r.twu.lookup e.1).getD 0) lists).map Prod.fst).Pairwise
      fun y z => r.rank y < r.rank z := by
  rw [List.pairwise_map]
  apply (pairwise_sortByKey_stable _ h).imp
  intro e e' hlt
  rw [TwuFilterResult.rank, TwuFilterResult.rank, Prod.Lex.toLex_lt_toLex]
  exact hlt

theorem mem_map_fst_itemLists (h : FilteredRows rank rows) (guard : MemoryGuard) (x : ItemId) :
    x ∈ (run guard rows).itemLists.map Prod.fst ↔
      Occurs (rows.map FilteredTransaction.basket) {x} := by
  have hfst : (run guard rows).itemLists.map Prod.fst =
      sortByKey id (run guard rows).perItem.keys := by
    rw [itemLists, List.map_map]
    exact List.map_id _
  rw [hfst, mem_sortByKey, Table.mem_keys_iff, lookup_perItem h]
  split_ifs with hx <;> simp [hx]

/-- Sorting the lists loses none of them. -/
theorem mem_map_fst_sorted {κ : Type*} [LinearOrder κ] (h : FilteredRows rank rows)
    (guard : MemoryGuard) (key : ItemList → κ) {x : ItemId}
    (hx : Occurs (rows.map FilteredTransaction.basket) {x}) :
    x ∈ (sortByKey key (run guard rows).itemLists).map Prod.fst :=
  ((sortByKey_perm key _).map Prod.fst).symm.subset ((mem_map_fst_itemLists h guard x).mpr hx)

theorem isItemList_of_mem (h : FilteredRows rank rows) {guard : MemoryGuard} {e : ItemList}
    (he : e ∈ (run guard rows).itemLists) : UlMiner.IsItemList rank rows e.1 e := by
  have hfst := (mem_map_fst_itemLists h guard e.1).mp (List.mem_map_of_mem he)
  obtain ⟨x, -, rfl⟩ := List.mem_map.mp he
  have hocc : Occurs (rows.map FilteredTransaction.basket) {x} := hfst
  have hbody : ((run guard rows).perItem.lookup x).getD [] = entriesOf rank rows {x} x := by
    rw [lookup_perItem h, if_pos hocc]
    rfl
  refine ⟨rfl, rfl, hbody, rfl, rfl, ?_⟩
  simp only [header, hbody]
  exact Nat.mod_eq_of_lt (length_entriesOf_lt h {x} x)

/-- Any choice of the lists is in order for the search once it is sorted. -/
theorem forall₂_isItemList (h : FilteredRows rank rows) (guard : MemoryGuard)
    {items : List ItemList} (hsub : ∀ e ∈ items, e ∈ (run guard rows).itemLists) :
    List.Forall₂ (UlMiner.IsItemList rank rows) (items.map Prod.fst) items := by
  rw [List.forall₂_map_left_iff, List.forall₂_same]
  exact fun e he => isItemList_of_mem h (hsub e he)

end Pass2

end AirHuim
