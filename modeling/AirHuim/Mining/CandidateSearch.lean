import AirHuim.Library.SortByKey
import AirHuim.Mining.PatternGrowth
import AirHuim.Mining.TaskLogic

/-!
# Searching for candidates and checking them

What IHUP and UP-Growth share beyond their trees: the weights of the items above
one item, the loop over the items of a tree, and the last pass, which computes the
exact utilities of the candidates and writes those that reach the threshold.
-/

namespace AirHuim

open Library Basket NodeArena

/-- The candidates so far, and the ledger. -/
structure Found where
  candidates : List (List ItemId)
  guard : MemoryGuard

/-- `twu_1` and `twu_map`. -/
def itemTwus (txs : List RawTransaction) : Table ItemId Utility :=
  txs.foldl (fun twu tx => tx.items.foldl (fun twu entry =>
    Table.modify twu entry.item 0 (· + tx.transactionUtility)) twu) ∅

/-- The paths that are pushed onto `cpb`. -/
def condPaths (entries : List (List ItemId × Utility)) : List (List ItemId × Utility) :=
  entries.filter fun e => e.1 ≠ []

def localTwu (cpb : List (List ItemId × Utility)) : Table ItemId Utility :=
  cpb.foldl (fun twu e => e.1.foldl (fun twu i => Table.modify twu i 0 (· + e.2)) twu) ∅

/-- The keys that reach the threshold. -/
def promising (minUtility : Utility) (twu : Table ItemId Utility) : List ItemId :=
  (Table.retain twu fun _ v => decide (minUtility ≤ v)).keys

/-- Descending by weight, ties by item. -/
def byTwu (twu : Table ItemId Utility) (item : ItemId) : Utilityᵒᵈ ×ₗ ItemId :=
  toLex (OrderDual.toDual ((twu.lookup item).getD 0), item)

/-- The loop over the items of a tree. -/
def mineAll (mineItem : ItemId → Found → ArenaM Found) : List ItemId → Found → ArenaM Found
  | [], found => return found
  | item :: items, found => do
      let found ← mineItem item found
      mineAll mineItem items found

/-! ## The exact utilities -/

def txItemUtils (tx : RawTransaction) : Table ItemId Utility :=
  tx.items.foldl (fun utils e => utils.insert e.item e.utility) ∅

/-- `util` if the candidate is present. -/
def presentUtil (utils : Table ItemId Utility) : Utility → List ItemId → Option Utility
  | util, [] => some util
  | util, item :: cand => match utils.lookup item with
    | some u => presentUtil utils (util + u) cand
    | none => none

/-- One transaction of the last pass. -/
def addExact (cands : List (List ItemId)) (exactUtilities : List Utility) (tx : RawTransaction) :
    List Utility :=
  List.zipWith (fun cand exact => exact + (presentUtil (txItemUtils tx) 0 cand).getD 0) cands
    exactUtilities

def exactUtilities (txs : List RawTransaction) (cands : List (List ItemId)) : List Utility :=
  txs.foldl (addExact cands) (cands.map fun _ => 0)

/-- The candidates whose utility reaches the threshold. -/
def resultTasks (minUtility : Utility) (txs : List RawTransaction) (cands : List (List ItemId)) :
    List Line :=
  (cands.zip (exactUtilities txs cands)).filter fun l => minUtility ≤ l.2

/-! ## The weights of the items above one item -/

section Weights

variable {entries : List (List ItemId × Utility)} {m : Utility} {os : List ItemId}

/-- Empty paths weigh nothing. -/
theorem localTwu_condPaths (entries : List (List ItemId × Utility)) :
    localTwu (condPaths entries) =
      Table.modifyAll ∅ 0 (· + ·) (entries.flatMap fun e => e.1.map fun y => (y, e.2)) := by
  rw [Table.modifyAll_flatMap]
  unfold localTwu condPaths
  generalize (∅ : Table ItemId Utility) = twu
  induction entries generalizing twu with
  | nil => rfl
  | cons e entries ih =>
    obtain ⟨path, w⟩ := e
    cases path with
    | nil =>
      rw [List.filter_cons_of_neg (by simp), List.foldl_cons]
      exact ih twu
    | cons y path =>
      rw [List.filter_cons_of_pos (by simp), List.foldl_cons, List.foldl_cons, ih]
      simp only [Table.modifyAll, List.foldl_map, List.foldl_cons]

theorem lookup_localTwu (hnodup : ∀ e ∈ entries, e.1.Nodup) (y : ItemId) :
    (localTwu (condPaths entries)).lookup y =
      if ∃ e ∈ entries, y ∈ e.1 then some (mass (fun path => y ∈ path) entries) else none := by
  have hargs : Table.argsAt (entries.flatMap fun e => e.1.map fun y => (y, e.2)) y =
      (entries.filter fun e => y ∈ e.1).map Prod.snd := by
    rw [Table.argsAt_flatMap]
    exact flatMap_eq_map_filter fun e he => Table.argsAt_map_const (hnodup e he) e.2 y
  rw [localTwu_condPaths, Table.lookup_modifyAll_empty, hargs, foldl_add_eq_sum, zero_add]
  by_cases hy : ∃ e ∈ entries, y ∈ e.1
  · rw [if_pos hy, if_neg]
    · rfl
    · obtain ⟨e, he, hye⟩ := hy
      have hmem : e ∈ entries.filter fun e => y ∈ e.1 :=
        List.mem_filter.mpr ⟨he, decide_eq_true hye⟩
      exact List.ne_nil_of_mem (List.mem_map_of_mem hmem)
  · rw [if_neg hy, if_pos]
    rw [List.map_eq_nil_iff, List.filter_eq_nil_iff]
    intro e he hye
    exact hy ⟨e, he, of_decide_eq_true hye⟩

theorem mem_promising (m : Utility) (twu : Table ItemId Utility) (y : ItemId) :
    y ∈ promising m twu ↔ ∃ v, twu.lookup y = some v ∧ m ≤ v := by
  rw [promising, Table.mem_keys_iff, Table.lookup_retain]
  cases twu.lookup y <;> simp [Option.filter]

theorem nodup_promising (m : Utility) (twu : Table ItemId Utility) : (promising m twu).Nodup :=
  AList.keys_nodup _

/-- The items that a miner keeps. -/
theorem localItems_of_perm (hnodup : ∀ e ∈ entries, e.1.Nodup)
    (h : os.Perm (promising m (localTwu (condPaths entries)))) : LocalItems m entries os := by
  constructor
  · exact h.nodup_iff.mpr (nodup_promising _ _)
  · intro y
    rw [h.mem_iff, mem_promising, lookup_localTwu hnodup]
    split_ifs with hy <;> simp [hy]

/-- The items of the whole database that reach the threshold. -/
theorem mem_promising_itemTwus {txs : List RawTransaction} (hwf : ∀ tx ∈ txs, tx.WellFormed)
    (m : Utility) (y : ItemId) :
    y ∈ promising m (itemTwus txs) ↔
      Occurs (txs.map RawTransaction.basket) {y} ∧ m ≤ twuOf txs {y} := by
  rw [← passes_compute hwf, TwuFilterResult.passes, decide_eq_true_iff]
  exact AList.mem_keys.symm

end Weights

theorem byTwu_injective (twu : Table ItemId Utility) : Function.Injective (byTwu twu) := by
  intro x y h
  exact congrArg (fun p : Utilityᵒᵈ ×ₗ ItemId => (ofLex p).2) h

/-- Distinct items, sorted, are strictly sorted. -/
theorem pairwise_sortByKey_byTwu (twu : Table ItemId Utility) {items : List ItemId}
    (h : items.Nodup) :
    (sortByKey (byTwu twu) items).Pairwise fun y z => byTwu twu y < byTwu twu z :=
  pairwise_sortByKey_lt _ (h.map (byTwu_injective twu))

/-! ## The tree of the whole database -/

section Database

variable {txs : List RawTransaction} {m : Utility} {os : List ItemId}
  {path : RawTransaction → List (ItemId × Utility)} {db : List SpmfRow}

/-- A tree that has, for every transaction, the path of its promising items, each
with at least what the items down to it are worth. -/
theorem condTree_of_transactions (hnodup : os.Nodup)
    (hocc : ∀ x ∈ os, Occurs (txs.map RawTransaction.basket) {x})
    (horder : ∀ tx ∈ txs, InOrder os ((path tx).map Prod.fst))
    (hitems : ∀ tx ∈ txs, ∀ y,
      y ∈ (path tx).map Prod.fst ↔ y ∈ tx.basket.items ∧ y ∈ os)
    (hnonneg : ∀ tx ∈ txs, ∀ e ∈ path tx, 0 ≤ e.2)
    (hworth : ∀ tx ∈ txs, ∀ e ∈ path tx, ∀ Z, Before os e.1 Z →
      insert e.1 Z ⊆ tx.basket.items → tx.basket.gain (insert e.1 Z) ≤ e.2) :
    CondTree (txs.map RawTransaction.basket) ∅ os
      (tally [] (txs.flatMap fun tx => pathAdds [] (path tx))) := by
  have hsub : ∀ tx ∈ txs, ∀ x ∈ os, ∀ Z, Before os x Z →
      (insert x Z ⊆ ((path tx).map Prod.fst).toFinset ↔ insert x Z ⊆ tx.basket.items) := by
    intro tx htx x hx Z hZ
    have hmem : ∀ z ∈ insert x Z, (z ∈ ((path tx).map Prod.fst).toFinset ↔
        z ∈ tx.basket.items) := by
      intro z hz
      have hzos : z ∈ os := by
        rcases Finset.mem_insert.mp hz with rfl | hz
        · exact hx
        · exact (hZ z hz).1
      rw [List.mem_toFinset, hitems tx htx]
      exact and_iff_left hzos
    exact forall₂_congr hmem
  apply condTree_of_paths hnodup
  · exact fun x _ => Finset.notMem_empty x
  · exact hocc
  · exact horder
  · exact hnonneg
  · intro x hx Z hZ
    rw [Finset.empty_union, occurs_map]
    exact exists_congr fun tx => and_congr_right fun htx => (hsub tx htx x hx Z hZ).symm
  · intro x hx Z hZ
    rw [Finset.empty_union]
    have hbound : utility (txs.map RawTransaction.basket) (insert x Z) ≤
        ((txs.filter fun _ => true).map fun tx =>
          mass (Reaches x Z) (pathAdds [] (path tx))).sum :=
      utility_le_sum RawTransaction.basket (fun _ => true) _ (fun _ _ _ => rfl)
      (fun tx htx hX => by
        have hpath := (hsub tx htx x hx Z hZ).mpr hX
        obtain ⟨e, he, rfl⟩ := List.mem_map.mp
          (List.mem_toFinset.mp (hpath (Finset.mem_insert_self x Z)))
        rw [mass_pathAdds (w := e.2) (horder tx htx) hZ he, if_pos hpath]
        exact hworth tx htx e he Z hZ hX)
      (fun tx htx _ => by
        apply List.sum_nonneg
        intro w hw
        obtain ⟨e, he, rfl⟩ := List.mem_map.mp hw
        obtain ⟨e', he', heq⟩ := weight_of_mem_pathAdds (List.mem_of_mem_filter he)
        exact heq ▸ hnonneg tx htx e' he')
    rwa [List.filter_true] at hbound

/-- Every high-utility itemset is made of promising items. -/
theorem below_of_highUtility (hwf : ∀ row ∈ db, row.WellFormed)
    (hos : ∀ y, y ∈ os ↔ y ∈ promising m (itemTwus (numbered 0 db))) {X : Finset ItemId}
    (hX : HighUtility (baskets db) m X) : Below ∅ os X := by
  have hwf := numbered_wellFormed hwf 0
  rw [← map_basket_numbered 0 db] at hX
  refine below_of_subset (Finset.empty_subset X) (fun z hz _ => ?_) hX.nonempty.ne_empty
  have hsub : {z} ⊆ X := Finset.singleton_subset_iff.mpr hz
  rw [hos, mem_promising_itemTwus hwf]
  exact ⟨hX.occurs.mono hsub, hX.le.trans (utility_le_twuOf hwf hsub)⟩

end Database

/-! ## The loop over the items -/

section Loop

variable {B : List (Basket ItemId)} {m : Utility} {Q : Finset ItemId} {os xs : List ItemId}
  {ns : List TreeNode} {a : NodeArena} {R R' : Finset ItemId → Prop} {E : Fault → Prop}

/-- What a search of a region leaves: the arena as it was, and more candidates. -/
def Finds (ns : List TreeNode) (B : List (Basket ItemId)) (m : Utility) (R : Finset ItemId → Prop)
    (found : Found) (found' : Found) (a' : NodeArena) : Prop :=
  a'.Holds ns ∧ ∃ cands, found'.candidates = found.candidates ++ cands ∧ Candidates B m R cands

theorem Finds.congr {found found' : Found} (h : Finds ns B m R found found' a)
    (hR : ∀ X, R' X ↔ R X) : Finds ns B m R' found found' a := by
  obtain ⟨ha, cands, heq, hcands⟩ := h
  exact ⟨ha, cands, heq, hcands.congr hR⟩

theorem mineAll_spec {mineItem : ItemId → Found → ArenaM Found} (ha : a.Holds ns)
    (hnodup : xs.Nodup) (hfresh : ∀ x ∈ xs, x ∉ Q)
    (h : ∀ x ∈ xs, ∀ a found, NodeArena.Holds a ns →
      Runs E (mineItem x found) a (Finds ns B m (AtItem Q os x) found))
    (found : Found) :
    Runs E (mineAll mineItem xs found) a
      (Finds ns B m (fun X => ∃ x ∈ xs, AtItem Q os x X) found) := by
  induction xs generalizing a found with
  | nil => exact Runs.pure ⟨ha, [], (List.append_nil _).symm, Lists.nil (by simp)⟩
  | cons x xs ih =>
    obtain ⟨hx, hnodup⟩ := List.nodup_cons.mp hnodup
    obtain ⟨hxQ, hfresh⟩ := List.forall_mem_cons.mp hfresh
    unfold mineAll
    refine Runs.bind (h x List.mem_cons_self a found ha) ?_
    intro found₁ a₁ ⟨ha₁, cands, heq, hcands⟩
    refine (ih ha₁ hnodup hfresh (fun y hy => h y (List.mem_cons_of_mem x hy)) found₁).mono ?_
    intro found₂ a₂ ⟨ha₂, cands', heq', hcands'⟩
    refine ⟨ha₂, cands ++ cands', by rw [heq', heq, List.append_assoc], ?_⟩
    have hdisj : ∀ X, AtItem Q os x X → ¬ ∃ y ∈ xs, AtItem Q os y X := by
      rintro X hat ⟨y, hy, hat'⟩
      exact hx (hat.unique hat' hxQ (hfresh y hy) ▸ hy)
    exact (hcands.append hcands' hdisj).congr fun X => by simp

/-- Visiting all items of a tree, in any order, searches everything below. -/
theorem mineAll_below {mineItem : ItemId → Found → ArenaM Found} {full : Prop} {T : Trie}
    (hT : PatternTree full B Q os T) (ha : a.Holds ns) (hperm : xs.Perm os)
    (h : ∀ x ∈ os, ∀ a found, NodeArena.Holds a ns →
      Runs E (mineItem x found) a (Finds ns B m (AtItem Q os x) found))
    (found : Found) :
    Runs E (mineAll mineItem xs found) a (Finds ns B m (Below Q os) found) := by
  have hnodup : xs.Nodup := hperm.nodup_iff.mpr hT.nodup
  have hall := mineAll_spec ha hnodup (fun x hx => hT.fresh x (hperm.mem_iff.mp hx))
    (fun x hx => h x (hperm.mem_iff.mp hx)) found
  refine hall.mono fun found' a' hfinds => hfinds.congr fun X => ?_
  simp only [Below, hperm.mem_iff]

end Loop

/-! ## Reading the transactions -/

/-- All transactions of a file, or the first fault. -/
def allTransactions (source : DataSource) : Except Fault (List RawTransaction) := do
  (← readDb source).mapM id

theorem allTransactions_map_ok (db : List SpmfRow) :
    allTransactions (db.map .ok) =
      if db.length < 2 ^ 32 then .ok (numbered 0 db) else .error .overflow := by
  unfold allTransactions
  rw [readDb_map_ok]
  split_ifs
  · exact mapM_id_map_ok _
  · rfl

/-- A run that searches the transactions of a file and goes on with what it has found
ends with a fault of the search, an overflow of the ids, or as the rest of it does. -/
theorem ends_of_search {α β : Type} {db : List SpmfRow} {E : Fault → Prop}
    (hrows : 2 ^ 32 ≤ db.length → E .overflow) {search : List RawTransaction → Except Fault β}
    {rest : List RawTransaction → β → Except Fault α} {Q : α → Prop}
    (hsearch : ∀ e, search (numbered 0 db) = .error e → E e)
    (hrest : ∀ found, search (numbered 0 db) = .ok found →
      ∃ result, rest (numbered 0 db) found = .ok result ∧ Q result) :
    (∀ e, (allTransactions (db.map .ok) >>= fun txs => search txs >>= rest txs) = .error e →
        E e) ∧
      ∀ result, (allTransactions (db.map .ok) >>= fun txs => search txs >>= rest txs) =
        .ok result → Q result := by
  rw [allTransactions_map_ok]
  split_ifs with hlen
  · have hread : ((.ok (numbered 0 db) : Except Fault (List RawTransaction)) >>= fun txs =>
        search txs >>= rest txs) = search (numbered 0 db) >>= rest (numbered 0 db) := rfl
    rw [hread]
    cases hfound : search (numbered 0 db) with
    | error e =>
      constructor
      · rintro _ ⟨⟩
        exact hsearch e hfound
      · rintro _ ⟨⟩
    | ok found =>
      obtain ⟨result, hresult, hQ⟩ := hrest found hfound
      have hrun : (.ok found >>= rest (numbered 0 db)) = Except.ok result := hresult
      rw [hrun]
      constructor
      · rintro _ ⟨⟩
      · rintro _ ⟨⟩
        exact hQ
  · constructor
    · rintro _ ⟨⟩
      exact hrows (not_lt.mp hlen)
    · rintro _ ⟨⟩

/-! ## The last pass is exact -/

section Exact

variable {txs : List RawTransaction} {m : Utility} {cands : List (List ItemId)}

theorem lookup_txItemUtils {tx : RawTransaction} (h : tx.WellFormed) (x : ItemId) :
    (txItemUtils tx).lookup x =
      if x ∈ tx.basket.items then some (tx.basket.util x) else none := by
  have hfold : ∀ (items : List ItemEntry) (utils : Table ItemId Utility),
      (items.map ItemEntry.item).Nodup →
      (items.foldl (fun utils e => utils.insert e.item e.utility) utils).lookup x =
        if x ∈ (basketOf items).items then some ((basketOf items).util x)
        else utils.lookup x := by
    intro items
    induction items with
    | nil => simp [basketOf]
    | cons e items ih =>
      intro utils hnodup
      have hutil := util_basketOf hnodup (e := e) List.mem_cons_self
      obtain ⟨he, hitems⟩ := List.nodup_cons.mp hnodup
      rw [List.foldl_cons, ih _ hitems]
      by_cases hx : x = e.item
      · subst hx
        have hnot : e.item ∉ (basketOf items).items := by simpa [mem_basketOf] using he
        rw [if_neg hnot, AList.lookup_insert, if_pos, hutil]
        exact mem_basketOf.mpr ⟨e, List.mem_cons_self, rfl⟩
      · have hmem : x ∈ (basketOf (e :: items)).items ↔ x ∈ (basketOf items).items := by
          simp [mem_basketOf, Ne.symm hx]
        have hsame : (basketOf (e :: items)).util x = (basketOf items).util x := by
          simp [basketOf, Ne.symm hx]
        rw [AList.lookup_insert_ne hx, hsame]
        exact if_congr hmem.symm rfl rfl
  exact (hfold tx.items ∅ h.distinct).trans (if_congr Iff.rfl rfl rfl)

theorem presentUtil_eq {tx : RawTransaction} (h : tx.WellFormed) {cand : List ItemId}
    (hcand : cand.Nodup) (util : Utility) :
    presentUtil (txItemUtils tx) util cand =
      if cand.toFinset ⊆ tx.basket.items then some (util + tx.basket.gain cand.toFinset)
      else none := by
  induction cand generalizing util with
  | nil => simp [presentUtil]
  | cons x cand ih =>
    obtain ⟨hx, hcand⟩ := List.nodup_cons.mp hcand
    have hxc : x ∉ cand.toFinset := fun hmem => hx (List.mem_toFinset.mp hmem)
    rw [presentUtil, lookup_txItemUtils h, List.toFinset_cons, gain_insert _ hxc]
    by_cases hmem : x ∈ tx.basket.items
    · rw [if_pos hmem]
      simp only [ih hcand, add_assoc, Finset.insert_subset_iff, hmem, true_and]
    · rw [if_neg hmem, if_neg fun hsub => hmem (hsub (Finset.mem_insert_self x _))]

theorem addExact_map (cands : List (List ItemId)) (g : List ItemId → Utility)
    (tx : RawTransaction) :
    addExact cands (cands.map g) tx =
      cands.map fun c => g c + (presentUtil (txItemUtils tx) 0 c).getD 0 := by
  rw [addExact, List.zipWith_map_right, List.zipWith_self]

/-- The exact utilities are the utilities. -/
theorem exactUtilities_eq (hwf : ∀ tx ∈ txs, tx.WellFormed) (hcands : ∀ c ∈ cands, c.Nodup) :
    exactUtilities txs cands =
      cands.map fun c => utility (txs.map RawTransaction.basket) c.toFinset := by
  have hfold : ∀ (txs : List RawTransaction) (g : List ItemId → Utility),
      (∀ tx ∈ txs, tx.WellFormed) → txs.foldl (addExact cands) (cands.map g) =
        cands.map fun c => g c + utility (txs.map RawTransaction.basket) c.toFinset := by
    intro txs
    induction txs with
    | nil => simp [utility]
    | cons tx txs ih =>
      intro g hwf
      obtain ⟨htx, hwf⟩ := List.forall_mem_cons.mp hwf
      rw [List.foldl_cons, addExact_map, ih _ hwf]
      apply List.map_congr_left
      intro c hc
      rw [presentUtil_eq htx (hcands c hc), List.map_cons]
      by_cases hsub : c.toFinset ⊆ tx.basket.items <;> simp [utility, hsub, add_assoc]
  exact (hfold txs (fun _ => 0) hwf).trans (List.map_congr_left fun c _ => zero_add _)

/-- Candidates for everything give an exact result. -/
theorem resultTasks_exact (hwf : ∀ tx ∈ txs, tx.WellFormed) {R : Finset ItemId → Prop}
    (hR : ∀ X, HighUtility (txs.map RawTransaction.basket) m X → R X)
    (hne : ∀ X, R X → X.Nonempty)
    (h : Candidates (txs.map RawTransaction.basket) m R cands) :
    Lists (fun l : Line => l.1.toFinset) (resultTasks m txs cands)
      (HighUtility (txs.map RawTransaction.basket) m) fun l =>
        l.1.Nodup ∧ HighUtility (txs.map RawTransaction.basket) m l.1.toFinset ∧
          l.2 = utility (txs.map RawTransaction.basket) l.1.toFinset := by
  have hzip : cands.zip (exactUtilities txs cands) =
      cands.map fun c => (c, utility (txs.map RawTransaction.basket) c.toFinset) := by
    have hmap := List.zip_map' (f := id) (l := cands)
      (g := fun c => utility (txs.map RawTransaction.basket) c.toFinset)
    rw [List.map_id] at hmap
    rw [exactUtilities_eq hwf fun c hc => (h.sound c hc).1, hmap]
    rfl
  have hkeys : (cands.map fun c => (c, utility (txs.map RawTransaction.basket) c.toFinset)).map
      (fun l : Line => l.1.toFinset) = cands.map List.toFinset := by
    rw [List.map_map]
    rfl
  have hlines : Lists (fun l : Line => l.1.toFinset)
      (cands.map fun c => (c, utility (txs.map RawTransaction.basket) c.toFinset))
      (fun X => HighUtility (txs.map RawTransaction.basket) m X ∧ R X)
      (fun l => l.1.Nodup ∧ Occurs (txs.map RawTransaction.basket) l.1.toFinset ∧
        R l.1.toFinset ∧ l.2 = utility (txs.map RawTransaction.basket) l.1.toFinset) := by
    refine ⟨hkeys ▸ h.nodup, fun X hX => hkeys ▸ h.complete X hX, fun l hl => ?_⟩
    obtain ⟨c, hc, rfl⟩ := List.mem_map.mp hl
    obtain ⟨hnodup, hocc, hRc⟩ := h.sound c hc
    exact ⟨hnodup, hocc, hRc, rfl⟩
  have hfilter := hlines.filter (fun l => decide (m ≤ l.2))
    (P := fun X => m ≤ utility (txs.map RawTransaction.basket) X) fun l hl => by
      rw [decide_eq_true_iff, (hlines.sound l hl).2.2.2]
  rw [resultTasks, hzip]
  refine hfilter.mono (fun X hX => ⟨⟨hX, hR X hX⟩, hX.le⟩) ?_
  rintro l - ⟨⟨hnodup, hocc, hRl, hu⟩, hle⟩
  exact ⟨hnodup, ⟨hne _ hRl, hocc, hle⟩, hu⟩

end Exact

/-- Tasks that each write one line write these lines, under every schedule. -/
theorem executeTasks_lines (ctx : MiningContext) (w : World) {write : Line → Task Unit}
    {ops : Line → List MinerOp}
    (hwrite : ∀ l w, Task.Spec (fun _ => False) (write l) w fun out _ _ => out = ops l)
    (hops : ∀ l, (ops l).filterMap MinerOp.line? = [l]) (lines : List Line) :
    ∃ w', executeTasks ctx w (lines.map write) = .ok w' ∧ w'.lines.Perm lines := by
  have htasks : List.Forall₂ (fun t Q => Task.Spec (fun _ => False) t { w with lines := [] } Q)
      (lines.map write) (lines.map fun l out _ _ => out = ops l) := by
    rw [List.forall₂_map_left_iff, List.forall₂_map_right_iff]
    exact List.forall₂_same.mpr fun l _ => hwrite l _
  rcases executeTasks_spec ctx w htasks with ⟨e, he, -⟩ | ⟨log, outs, hrun, hperm, houts⟩
  · exact he.elim
  · refine ⟨_, hrun, ?_⟩
    have houts : outs = lines.map ops := by
      have houts := List.forall₂_map_right_iff.mp houts
      rwa [← List.forall₂_map_right_iff, List.forall₂_eq_eq_eq] at houts
    have hflat : outs.flatten.filterMap MinerOp.line? = lines := by
      have hsingle : List.filterMap MinerOp.line? ∘ ops = fun l => [l] := funext hops
      rw [houts, List.filterMap_flatten, List.map_map, hsingle]
      exact List.flatMap_singleton' lines
    rw [lines_replay, List.nil_append]
    exact (hperm.filterMap _).trans (by rw [hflat])

/-- The last pass over candidates for everything: the output is exact. -/
theorem lastPass_spec (ctx : MiningContext) (w : World) {db : List SpmfRow}
    (hwf : ∀ row ∈ db, row.WellFormed) (write : Line → Task Unit) (ops : Line → List MinerOp)
    (hwrite : ∀ l w, Task.Spec (fun _ => False) (write l) w fun out _ _ => out = ops l)
    (hops : ∀ l, (ops l).filterMap MinerOp.line? = [l]) {R : Finset ItemId → Prop}
    (hR : ∀ X, HighUtility (baskets db) ctx.minUtility X → R X) (hne : ∀ X, R X → X.Nonempty)
    {cands : List (List ItemId)} (h : Candidates (baskets db) ctx.minUtility R cands) :
    ∃ w', executeTasks ctx w ((resultTasks ctx.minUtility (numbered 0 db) cands).map write) =
        .ok w' ∧ ExactOutput db ctx.minUtility w'.lines ∧
      w'.lines.length = (resultTasks ctx.minUtility (numbered 0 db) cands).length := by
  rw [← map_basket_numbered 0 db] at h hR
  obtain ⟨w', hrun, hperm⟩ := executeTasks_lines ctx w hwrite hops
    (resultTasks ctx.minUtility (numbered 0 db) cands)
  have hexact := resultTasks_exact (numbered_wellFormed hwf 0) hR hne h
  refine ⟨w', hrun, ?_, hperm.length_eq⟩
  rw [ExactOutput, ← map_basket_numbered 0 db]
  exact hexact.perm hperm.symm

end AirHuim
