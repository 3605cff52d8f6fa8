import AirHuim.Mining.Algorithms.Efim

/-!
# The projections of EFIM

Along the recursion a projection is the one of its itemset, also when it has been
spilled. Both bounds are at least the utility of whatever extends the itemset by
their item first.
-/

namespace AirHuim

open Library Basket

namespace Efim

/-! ## Transactions -/

section Transactions

variable {rank : ItemId → Utility ×ₗ ItemId} {rows : List FilteredTransaction}
  {r : FilteredTransaction} {P X : Finset ItemId} {x y : ItemId}

/-- A filtered transaction, as three vectors. -/
def original (r : FilteredTransaction) : OriginalTx :=
  ⟨r.items.map ItemEntry.item, r.items.map ItemEntry.utility,
    suffixSums (r.items.map ItemEntry.utility)⟩

/-- The item comes after all of `P`. -/
def After (rank : ItemId → Utility ×ₗ ItemId) (P : Finset ItemId) (x : ItemId) : Prop :=
  ∀ p ∈ P, rank p < rank x

instance : Decidable (After rank P x) := inferInstanceAs (Decidable (∀ p ∈ P, rank p < rank x))

theorem After.notMem (h : After rank P x) : x ∉ P := fun hx => (h x hx).false

theorem after_insert (hy : After rank P y) : After rank (insert y P) x ↔ rank y < rank x := by
  constructor
  · exact fun h => h y (Finset.mem_insert_self y P)
  · intro hlt p hp
    rcases Finset.mem_insert.mp hp with rfl | hp
    · exact hlt
    · exact (hy p hp).trans hlt

theorem After.of_insert (hy : After rank P y) (h : After rank (insert y P) x) : After rank P x :=
  fun p hp => (hy p hp).trans ((after_insert hy).mp h)

/-- The entries after `P`. -/
def tailOf (rank : ItemId → Utility ×ₗ ItemId) (P : Finset ItemId) (r : FilteredTransaction) :
    List ItemEntry :=
  r.items.filter fun e => After rank P e.item

/-- Where they start. -/
def offsetOf (rank : ItemId → Utility ×ₗ ItemId) (P : Finset ItemId) (r : FilteredTransaction) :
    ℕ :=
  (r.items.filter fun e => !decide (After rank P e.item)).length

/-- What they are worth. -/
def tailGain (rank : ItemId → Utility ×ₗ ItemId) (P : Finset ItemId) (r : FilteredTransaction) :
    Utility :=
  r.basket.gain (r.basket.items.filter (After rank P))

theorem drop_offsetOf (h : FilteredRows rank rows) (hr : r ∈ rows) (P : Finset ItemId) :
    r.items.drop (offsetOf rank P r) = tailOf rank P r := by
  refine drop_length_filter_not (fun a b hab ha => ?_) (h.sorted r hr)
  exact decide_eq_true fun p hp => (of_decide_eq_true ha p hp).trans hab

theorem tailGain_eq (h : FilteredRows rank rows) (hr : r ∈ rows) (P : Finset ItemId) :
    tailGain rank P r = ((tailOf rank P r).map ItemEntry.utility).sum := by
  have hitems : r.basket.items.filter (After rank P) =
      ((tailOf rank P r).map ItemEntry.item).toFinset := by
    ext x
    simp only [Finset.mem_filter, FilteredTransaction.basket, mem_basketOf, List.mem_toFinset,
      List.mem_map, tailOf, List.mem_filter, decide_eq_true_eq]
    constructor
    · rintro ⟨⟨e, he, rfl⟩, hafter⟩
      exact ⟨e, ⟨he, hafter⟩, rfl⟩
    · rintro ⟨e, ⟨he, hafter⟩, rfl⟩
      exact ⟨⟨e, he, rfl⟩, hafter⟩
  rw [tailGain, hitems]
  exact gain_basketOf_sublist (h.distinct hr) List.filter_sublist

theorem getD_suffixSums (us : List Utility) (i : ℕ) :
    (suffixSums us).getD i 0 = (us.drop (i + 1)).sum := by
  induction us generalizing i with
  | nil => simp [suffixSums]
  | cons u us ih =>
    cases i with
    | zero => rfl
    | succ i => exact ih i

theorem mem_tail (h : FilteredRows rank rows) (hr : r ∈ rows) :
    y ∈ (original r).items.drop (offsetOf rank P r) ↔ y ∈ r.basket.items ∧ After rank P y := by
  have hdrop : (original r).items.drop (offsetOf rank P r) =
      (tailOf rank P r).map ItemEntry.item := by
    rw [← drop_offsetOf h hr, List.map_drop]
    rfl
  rw [hdrop]
  simp only [FilteredTransaction.basket, mem_basketOf, List.mem_map, tailOf, List.mem_filter,
    decide_eq_true_eq]
  constructor
  · rintro ⟨e, ⟨he, hafter⟩, rfl⟩
    exact ⟨⟨e, he, rfl⟩, hafter⟩
  · rintro ⟨⟨e, he, rfl⟩, hafter⟩
    exact ⟨e, ⟨he, hafter⟩, rfl⟩

/-- What stands at the position at which an item is found. -/
theorem at_position (h : FilteredRows rank rows) (hr : r ∈ rows) (hy : After rank P y) {i : ℕ}
    (hi : (original r).items[i]? = some y) :
    (original r).utilities.getD i 0 = r.basket.gain {y} ∧
      (original r).remainingUtilities.getD i 0 = tailGain rank (insert y P) r ∧
      i + 1 = offsetOf rank (insert y P) r := by
  obtain ⟨e, he, rfl⟩ : ∃ e, r.items[i]? = some e ∧ e.item = y := by
    simpa [original] using hi
  obtain ⟨hlt, hget⟩ := List.getElem?_eq_some_iff.mp he
  have hsplit : r.items = r.items.take i ++ e :: r.items.drop (i + 1) := by
    rw [← hget, List.cons_getElem_drop_succ, List.take_append_drop]
  have hsorted := h.sorted r hr
  rw [hsplit, List.pairwise_append] at hsorted
  obtain ⟨-, hlater, hearlier⟩ := hsorted
  have hbefore : ∀ a ∈ r.items.take i, ¬ After rank (insert e.item P) a.item := by
    intro a ha hafter
    exact lt_asymm ((after_insert hy).mp hafter) (hearlier a ha e List.mem_cons_self)
  have hself : ¬ After rank (insert e.item P) e.item := fun hafter =>
    ((after_insert hy).mp hafter).false
  have hafter : ∀ b ∈ r.items.drop (i + 1), After rank (insert e.item P) b.item := fun b hb =>
    (after_insert hy).mpr ((List.pairwise_cons.mp hlater).1 b hb)
  have htail : tailOf rank (insert e.item P) r = r.items.drop (i + 1) := by
    rw [tailOf]
    conv_lhs => rw [hsplit]
    rw [List.filter_append, List.filter_eq_nil_iff.mpr (by simpa using hbefore),
      List.filter_cons_of_neg (by simpa using hself),
      List.filter_eq_self.mpr (by simpa using hafter), List.nil_append]
  refine ⟨?_, ?_, ?_⟩
  · have hutil := util_basketOf (h.distinct hr) (List.getElem_mem hlt)
    rw [hget] at hutil
    rw [gain_singleton]
    refine Eq.trans ?_ hutil.symm
    simp [original, List.getD_eq_getElem?_getD, he]
  · rw [tailGain_eq h hr, htail, List.map_drop]
    exact getD_suffixSums _ i
  · rw [offsetOf]
    conv_rhs => rw [hsplit]
    rw [List.filter_append, List.filter_eq_self.mpr (by simpa using hbefore),
      List.filter_cons_of_pos (by simpa using hself),
      List.filter_eq_nil_iff.mpr (by simpa using hafter), List.length_append, List.length_take,
      min_eq_left hlt.le, List.length_singleton]

end Transactions

/-! ## Projections -/

section Projections

variable {rank : ItemId → Utility ×ₗ ItemId} {rows : List FilteredTransaction}
  {r : FilteredTransaction} {P X : Finset ItemId} {y : ItemId}

/-- The entry of the itemset `P` for transaction number `p.2`. -/
def projEntry (rank : ItemId → Utility ×ₗ ItemId) (P : Finset ItemId)
    (p : FilteredTransaction × ℕ) : ProjTx :=
  ⟨p.2, offsetOf rank P p.1, p.1.basket.gain P, p.1.basket.gain P + tailGain rank P p.1⟩

/-- The projection of the itemset `P`. -/
def projOf (rank : ItemId → Utility ×ₗ ItemId) (rows : List FilteredTransaction)
    (P : Finset ItemId) : List ProjTx :=
  (rows.zipIdx.filter fun p => P ⊆ p.1.basket.items).map (projEntry rank P)

theorem foldl_pushProj {α : Type*} (g : α → Option ProjTx) (as : List α)
    (acc : List ProjTx × Utility) :
    as.foldl (fun acc a => pushProj acc (g a)) acc =
      (acc.1 ++ as.filterMap g,
        acc.2 + ((as.filterMap g).map ProjTx.prefixUtility).sum) := by
  induction as generalizing acc with
  | nil => simp
  | cons a as ih =>
    rw [List.foldl_cons, ih]
    cases hg : g a with
    | none => simp [pushProj, hg]
    | some p => simp [pushProj, hg, add_assoc]

theorem sum_prefixUtility (rank : ItemId → Utility ×ₗ ItemId) (rows : List FilteredTransaction)
    (P : Finset ItemId) :
    ((projOf rank rows P).map ProjTx.prefixUtility).sum =
      utility (rows.map FilteredTransaction.basket) P := by
  have hfst : rows.zipIdx.map Prod.fst = rows := by simp
  rw [utility_map, projOf, List.map_map]
  conv_rhs => rw [← hfst, List.filter_map, List.map_map]
  rfl

theorem projOf_ne_nil_iff (rank : ItemId → Utility ×ₗ ItemId) (rows : List FilteredTransaction)
    (P : Finset ItemId) :
    projOf rank rows P ≠ [] ↔ Occurs (rows.map FilteredTransaction.basket) P := by
  rw [occurs_map, projOf, Ne, List.map_eq_nil_iff, List.filter_eq_nil_iff]
  constructor
  · intro hne
    push Not at hne
    obtain ⟨⟨r, i⟩, hmem, hP⟩ := hne
    exact ⟨r, List.fst_mem_of_mem_zipIdx hmem, by simpa using hP⟩
  · rintro ⟨r, hr, hP⟩ hnone
    obtain ⟨i, hi, rfl⟩ := List.getElem_of_mem hr
    exact hnone (rows[i], i) (List.mk_mem_zipIdx_iff_getElem?.mpr (by simp)) (by simpa using hP)

/-- The rows are shorter than an offset can tell. -/
abbrev Short (rows : List FilteredTransaction) : Prop := ∀ r ∈ rows, r.items.length < 2 ^ 16

theorem projectTx_spec (h : FilteredRows rank rows) (hshort : Short rows) (hr : r ∈ rows) (i : ℕ)
    (hy : After rank P y) :
    projectTx (original r) (projEntry rank P (r, i)) y =
      if y ∈ r.basket.items then some (projEntry rank (insert y P) (r, i)) else none := by
  have hoffset : (projEntry rank P (r, i)).offset = offsetOf rank P r := rfl
  rw [projectTx, hoffset]
  cases hpos : ((original r).items.drop (offsetOf rank P r)).idxOf? y with
  | none =>
    have hnot := List.idxOf?_eq_none_iff.mp hpos
    rw [mem_tail h hr] at hnot
    rw [if_neg fun hmem => hnot ⟨hmem, hy⟩]
  | some pos =>
    obtain ⟨hlt, hget, -⟩ := List.idxOf?_eq_some_iff.mp hpos
    have hmem : y ∈ (original r).items.drop (offsetOf rank P r) := hget ▸ List.getElem_mem hlt
    rw [if_pos ((mem_tail h hr).mp hmem).1]
    have hi : (original r).items[offsetOf rank P r + pos]? = some y := by
      rw [← List.getElem?_drop, List.getElem?_eq_getElem hlt, hget]
    obtain ⟨hutil, hremaining, hnext⟩ := at_position h hr hy hi
    have hbound : offsetOf rank (insert y P) r < 2 ^ 16 :=
      (List.length_filter_le _ _).trans_lt (hshort r hr)
    have hgain : r.basket.gain P + r.basket.gain {y} = r.basket.gain (insert y P) := by
      rw [gain_insert _ hy.notMem, gain_singleton, add_comm]
    simp only [hutil, hremaining, hnext, Nat.mod_eq_of_lt hbound, projEntry, hgain]

theorem getD_original {p : FilteredTransaction × ℕ} (hp : p ∈ rows.zipIdx) :
    (rows.map original).getD p.2 default = original p.1 := by
  have := List.mk_mem_zipIdx_iff_getElem?.mp hp
  simp [List.getD_eq_getElem?_getD, this]

/-- Projecting on the next item. -/
theorem project_spec (h : FilteredRows rank rows) (hshort : Short rows) (hy : After rank P y) :
    project (rows.map original) (projOf rank rows P) y =
      (projOf rank rows (insert y P),
        utility (rows.map FilteredTransaction.basket) (insert y P)) := by
  have hstep : (projOf rank rows P).filterMap (fun tx =>
      projectTx ((rows.map original).getD tx.txIdx default) tx y) =
        projOf rank rows (insert y P) := by
    rw [projOf, List.filterMap_map, filterMap_eq_map_filter
      (q := fun p => y ∈ p.1.basket.items) (k := projEntry rank (insert y P)), List.filter_filter,
      projOf]
    · congr 1
      apply List.filter_congr
      intro p _
      rw [← Bool.decide_and]
      exact decide_eq_decide.mpr Finset.insert_subset_iff.symm
    · intro p hp
      have hmem := List.mem_of_mem_filter hp
      have htx : (projEntry rank P p).txIdx = p.2 := rfl
      rw [Function.comp_apply, htx, getD_original hmem]
      exact projectTx_spec h hshort (List.fst_mem_of_mem_zipIdx hmem) p.2 hy
  rw [project, foldl_pushProj, hstep, sum_prefixUtility]
  simp

theorem after_empty (x : ItemId) : After rank ∅ x := fun _ hp => (Finset.notMem_empty _ hp).elim

theorem initialTx_eq (r : FilteredTransaction) {i : ℕ} (hi : i < 2 ^ 32) :
    initialTx (original r) i y = projectTx (original r) (projEntry rank ∅ (r, i)) y := by
  have hoffset : (projEntry rank ∅ (r, i)).offset = 0 := by
    have hnone : r.items.filter (fun e => !decide (After rank ∅ e.item)) = [] := by
      rw [List.filter_eq_nil_iff]
      intro e _
      simp [after_empty]
    rw [projEntry, offsetOf, hnone]
    rfl
  rw [initialTx, projectTx, hoffset, List.drop_zero, Nat.mod_eq_of_lt hi]
  cases (original r).items.idxOf? y <;> simp [projEntry]

/-- The projection of a single item. -/
theorem initialProj_spec (h : FilteredRows rank rows) (hshort : Short rows) (y : ItemId) :
    initialProj (rows.map original) y =
      (projOf rank rows {y}, utility (rows.map FilteredTransaction.basket) {y}) := by
  have hstep : (rows.map original).zipIdx.filterMap (fun p => initialTx p.1 p.2 y) =
      projOf rank rows {y} := by
    rw [List.zipIdx_map, List.filterMap_map, filterMap_eq_map_filter
      (q := fun p => y ∈ p.1.basket.items) (k := projEntry rank {y}), projOf]
    · congr 1
      apply List.filter_congr
      intro p _
      exact decide_eq_decide.mpr Finset.singleton_subset_iff.symm
    · rintro ⟨r, i⟩ hp
      have hi : i < rows.length :=
        (List.getElem?_eq_some_iff.mp (List.mk_mem_zipIdx_iff_getElem?.mp hp)).1
      have hspec := projectTx_spec h hshort (List.fst_mem_of_mem_zipIdx hp) i
        (after_empty y : After rank ∅ y)
      rw [insert_empty_eq, ← initialTx_eq r (hi.trans h.length_lt)] at hspec
      exact hspec
  rw [initialProj, foldl_pushProj, hstep, sum_prefixUtility]
  simp

/-! ## Spilled projections -/

/-- The positions survive a page, whatever the utilities are. -/
theorem ofBytes_toBytes_position {p : ProjTx} (htx : p.txIdx < 2 ^ 32)
    (hoffset : p.offset < 2 ^ 16) :
    (ProjTx.ofBytes p.toBytes).txIdx = p.txIdx ∧ (ProjTx.ofBytes p.toBytes).offset = p.offset := by
  have h₁ := take_field (length_leBytes 4 p.txIdx) (leBytes 2 p.offset ++
    (leBytes 2 0 ++ (i64ToLe p.prefixUtility ++ i64ToLe p.pathUtility)))
  have h₂ := take_field (length_leBytes 2 p.offset)
    (leBytes 2 0 ++ (i64ToLe p.prefixUtility ++ i64ToLe p.pathUtility))
  have htx' : p.txIdx < 256 ^ 4 := htx.trans_le (by norm_num)
  have hoffset' : p.offset < 256 ^ 2 := hoffset.trans_le (by norm_num)
  simp only [ProjTx.ofBytes, ProjTx.toBytes, h₁.1, h₁.2, h₂.1, ofLeBytes_leBytes_of_lt htx',
    ofLeBytes_leBytes_of_lt hoffset', and_self]

/-- So do utilities in the range of their fields. -/
theorem ofBytes_toBytes_utility {p : ProjTx} (hpre : FitsI64 p.prefixUtility)
    (hpath : FitsI64 p.pathUtility) :
    (ProjTx.ofBytes p.toBytes).prefixUtility = p.prefixUtility ∧
      (ProjTx.ofBytes p.toBytes).pathUtility = p.pathUtility := by
  have h₁ := take_field (length_leBytes 4 p.txIdx) (leBytes 2 p.offset ++
    (leBytes 2 0 ++ (i64ToLe p.prefixUtility ++ i64ToLe p.pathUtility)))
  have h₂ := take_field (length_leBytes 2 p.offset)
    (leBytes 2 0 ++ (i64ToLe p.prefixUtility ++ i64ToLe p.pathUtility))
  have h₃ := take_field (length_leBytes 2 0) (i64ToLe p.prefixUtility ++ i64ToLe p.pathUtility)
  have h₄ := take_field (length_i64ToLe p.prefixUtility) (i64ToLe p.pathUtility)
  have h₅ : (i64ToLe p.pathUtility).take 8 = i64ToLe p.pathUtility :=
    List.take_of_length_le (length_i64ToLe p.pathUtility).le
  have hdrop : p.toBytes.drop 8 = i64ToLe p.prefixUtility ++ i64ToLe p.pathUtility := by
    rw [ProjTx.toBytes, show 8 = 4 + (2 + 2) from rfl, ← List.drop_drop, ← List.drop_drop, h₁.2,
      h₂.2, h₃.2]
  have hdrop' : p.toBytes.drop 16 = i64ToLe p.pathUtility := by
    rw [show 16 = 8 + 8 from rfl, ← List.drop_drop, hdrop, h₄.2]
  rw [ProjTx.ofBytes, hdrop, hdrop', h₄.1, h₅, i64OfLe_i64ToLe hpre, i64OfLe_i64ToLe hpath]
  exact ⟨rfl, rfl⟩

theorem ofBytes_toBytes {p : ProjTx} (htx : p.txIdx < 2 ^ 32) (hoffset : p.offset < 2 ^ 16)
    (hpre : FitsI64 p.prefixUtility) (hpath : FitsI64 p.pathUtility) :
    ProjTx.ofBytes p.toBytes = p := by
  obtain ⟨htx', hoffset'⟩ := ofBytes_toBytes_position htx hoffset
  obtain ⟨hpre', hpath'⟩ := ofBytes_toBytes_utility hpre hpath
  cases hback : ProjTx.ofBytes p.toBytes
  rw [hback] at htx' hoffset' hpre' hpath'
  subst htx' hoffset' hpre' hpath'
  rfl

theorem length_toBytes (p : ProjTx) : p.toBytes.length = 24 := by
  simp [ProjTx.toBytes]

theorem gain_add_tailGain (r : FilteredTransaction) (P : Finset ItemId) :
    r.basket.gain P + tailGain rank P r =
      r.basket.gain (P ∪ r.basket.items.filter (After rank P)) := by
  rw [gain_union, tailGain]
  rw [Finset.disjoint_left]
  exact fun x hx hx' => (Finset.mem_filter.mp hx').2.notMem hx

/-- What is read back of a spilled projection. -/
theorem load_bytes_eq (proj : List ProjTx) :
    ((chunksExact 24 (proj.flatMap ProjTx.toBytes)).take proj.length).map ProjTx.ofBytes =
      proj.map fun p => ProjTx.ofBytes p.toBytes := by
  have hlen : (proj.map ProjTx.toBytes).length ≤ proj.length := (List.length_map _).le
  rw [chunksExact_flatMap (by norm_num) ProjTx.toBytes length_toBytes,
    List.take_of_length_le hlen, List.map_map]
  rfl

theorem ofBytes_toBytes_projOf (h : FilteredRows rank rows) (hshort : Short rows)
    (P : Finset ItemId) : ∀ p ∈ projOf rank rows P, ProjTx.ofBytes p.toBytes = p := by
  intro p hp
  obtain ⟨⟨r, i⟩, hmem, rfl⟩ := List.mem_map.mp hp
  obtain ⟨hmem, hP⟩ := List.mem_filter.mp hmem
  have hP := of_decide_eq_true hP
  have hr := List.fst_mem_of_mem_zipIdx hmem
  have hi : i < rows.length :=
    (List.getElem?_eq_some_iff.mp (List.mk_mem_zipIdx_iff_getElem?.mp hmem)).1
  refine ofBytes_toBytes (hi.trans h.length_lt)
    ((List.length_filter_le _ _).trans_lt (hshort r hr)) (h.fits_gain hr hP) ?_
  rw [projEntry, gain_add_tailGain]
  exact h.fits_gain hr (Finset.union_subset hP (Finset.filter_subset _ _))

end Projections

/-! ## The bounds -/

section Bounds

variable {rank : ItemId → Utility ×ₗ ItemId} {rows : List FilteredTransaction}
  {r : FilteredTransaction} {P X : Finset ItemId} {y : ItemId} {minUtil : Utility}

/-- What the itemset could become worth in a transaction. -/
def pathGain (rank : ItemId → Utility ×ₗ ItemId) (P : Finset ItemId) (r : FilteredTransaction) :
    Utility :=
  r.basket.gain P + tailGain rank P r

theorem gain_le_pathGain (h : FilteredRows rank rows) (hr : r ∈ rows) (hX : X ⊆ r.basket.items)
    (hP : P ⊆ X) (hlater : ∀ x ∈ X, x ∉ P → After rank P x) :
    r.basket.gain X ≤ pathGain rank P r := by
  rw [pathGain, gain_add_tailGain]
  refine gain_le_gain (h.basket_nonneg hr) (fun x hx => ?_)
    (Finset.union_subset (hP.trans hX) (Finset.filter_subset _ _))
  rw [Finset.mem_union, Finset.mem_filter]
  by_cases hxP : x ∈ P
  · exact Or.inl hxP
  · exact Or.inr ⟨hX hx, hlater x hx hxP⟩

theorem pathGain_nonneg (h : FilteredRows rank rows) (hr : r ∈ rows) (hP : P ⊆ r.basket.items) :
    0 ≤ pathGain rank P r :=
  (gain_nonneg (h.basket_nonneg hr) hP).trans
    (gain_le_pathGain h hr hP subset_rfl fun _ hx hxP => (hxP hx).elim)

/-- The updates that the entry `tx` makes, with the values `v`. -/
def txEvents (origTx : OriginalTx) (tx : ProjTx) (v : ℕ → Utility) : List (ItemId × Utility) :=
  (List.range' tx.offset (origTx.items.length - tx.offset)).map fun i =>
    (origTx.items.getD i 0, v i)

def luEvents (db : List OriginalTx) (tx : ProjTx) : List (ItemId × Utility) :=
  txEvents (db.getD tx.txIdx default) tx fun _ => tx.pathUtility

def suEvents (db : List OriginalTx) (tx : ProjTx) : List (ItemId × Utility) :=
  txEvents (db.getD tx.txIdx default) tx (suAt (db.getD tx.txIdx default) tx)

theorem addBounds_eq (db : List OriginalTx) (tx : ProjTx)
    (maps : Table ItemId Utility × Table ItemId Utility) :
    addBounds db maps tx = (Table.modifyAll maps.1 0 (· + ·) (luEvents db tx),
      Table.modifyAll maps.2 0 (· + ·) (suEvents db tx)) := by
  simp only [addBounds, luEvents, suEvents, txEvents]
  induction List.range' tx.offset ((db.getD tx.txIdx default).items.length - tx.offset)
      generalizing maps with
  | nil => rfl
  | cons i is ih => exact ih _

theorem bounds_eq (db : List OriginalTx) (proj : List ProjTx) :
    bounds db proj = (Table.modifyAll ∅ 0 (· + ·) (proj.flatMap (luEvents db)),
      Table.modifyAll ∅ 0 (· + ·) (proj.flatMap (suEvents db))) := by
  have hfold : ∀ maps : Table ItemId Utility × Table ItemId Utility,
      proj.foldl (addBounds db) maps =
        (proj.foldl (fun m tx => Table.modifyAll m 0 (· + ·) (luEvents db tx)) maps.1,
          proj.foldl (fun m tx => Table.modifyAll m 0 (· + ·) (suEvents db tx)) maps.2) := by
    induction proj with
    | nil => exact fun maps => rfl
    | cons tx proj ih =>
      intro maps
      rw [List.foldl_cons, addBounds_eq, ih]
      rfl
  rw [Table.modifyAll_flatMap, Table.modifyAll_flatMap]
  exact hfold (∅, ∅)

/-- One entry of the projection updates the items after `P`, each once. -/
theorem argsAt_txEvents (h : FilteredRows rank rows) (hr : r ∈ rows) (i : ℕ) {v : ℕ → Utility}
    {c : Utility} (hc : ∀ i, (original r).items[i]? = some y → v i = c) :
    Table.argsAt (txEvents (original r) (projEntry rank P (r, i)) v) y =
      if y ∈ r.basket.items ∧ After rank P y then [c] else [] := by
  have hoffset : (projEntry rank P (r, i)).offset = offsetOf rank P r := rfl
  have hargs := Table.argsAt_range' (h.distinct hr) 0 hc (offsetOf rank P r)
  rw [txEvents, hoffset]
  exact hargs.trans (if_congr (mem_tail h hr) rfl rfl)

theorem argsAt_projOf (hy : After rank P y)
    (events : ProjTx → List (ItemId × Utility)) {c : FilteredTransaction → Utility}
    (hevents : ∀ p ∈ rows.zipIdx, Table.argsAt (events (projEntry rank P p)) y =
      if y ∈ p.1.basket.items ∧ After rank P y then [c p.1] else []) :
    Table.argsAt ((projOf rank rows P).flatMap events) y =
      (rows.filter fun r => insert y P ⊆ r.basket.items).map c := by
  have hfst : rows.zipIdx.map Prod.fst = rows := by simp
  rw [Table.argsAt_flatMap, projOf, List.flatMap_map, flatMap_eq_map_filter
    (q := fun p => y ∈ p.1.basket.items) (k := fun p => c p.1), List.filter_filter]
  · conv_rhs => rw [← hfst, List.filter_map, List.map_map]
    have hboth : (rows.zipIdx.filter fun p => decide (y ∈ p.1.basket.items) &&
        decide (P ⊆ p.1.basket.items)) = rows.zipIdx.filter
          ((fun r : FilteredTransaction => decide (insert y P ⊆ r.basket.items)) ∘ Prod.fst) := by
      apply List.filter_congr
      intro p _
      rw [← Bool.decide_and]
      exact decide_eq_decide.mpr Finset.insert_subset_iff.symm
    rw [hboth]
    rfl
  · intro p hp
    rw [hevents p (List.mem_of_mem_filter hp)]
    simp [hy]

/-- `lu` of an item after `P`. -/
theorem argsAt_luEvents (h : FilteredRows rank rows) (hy : After rank P y) :
    Table.argsAt ((projOf rank rows P).flatMap (luEvents (rows.map original))) y =
      (rows.filter fun r => insert y P ⊆ r.basket.items).map (pathGain rank P) := by
  refine argsAt_projOf hy _ fun p hp => ?_
  have htx : (projEntry rank P p).txIdx = p.2 := rfl
  rw [luEvents, htx, getD_original hp]
  exact argsAt_txEvents h (List.fst_mem_of_mem_zipIdx hp) p.2 fun _ _ => rfl

/-- `su` of an item after `P`. -/
theorem argsAt_suEvents (h : FilteredRows rank rows) (hy : After rank P y) :
    Table.argsAt ((projOf rank rows P).flatMap (suEvents (rows.map original))) y =
      (rows.filter fun r => insert y P ⊆ r.basket.items).map (pathGain rank (insert y P)) := by
  refine argsAt_projOf hy _ fun p hp => ?_
  have hr := List.fst_mem_of_mem_zipIdx hp
  have htx : (projEntry rank P p).txIdx = p.2 := rfl
  rw [suEvents, htx, getD_original hp]
  refine argsAt_txEvents h hr p.2 fun i hi => ?_
  obtain ⟨hutil, hremaining, -⟩ := at_position h hr hy hi
  rw [suAt, hutil, hremaining, pathGain, gain_insert _ hy.notMem, gain_singleton]
  exact congrArg (· + _) (add_comm _ _)

/-- The entries update no item before the end of `P`. -/
theorem argsAt_projOf_of_not_after (h : FilteredRows rank rows) (hy : ¬ After rank P y)
    {events : ProjTx → List (ItemId × Utility)} {v : FilteredTransaction → ProjTx → ℕ → Utility}
    (hevents : ∀ p ∈ rows.zipIdx, events (projEntry rank P p) =
      txEvents (original p.1) (projEntry rank P p) (v p.1 (projEntry rank P p))) :
    Table.argsAt ((projOf rank rows P).flatMap events) y = [] := by
  rw [Table.argsAt_flatMap, List.flatMap_eq_nil_iff]
  intro tx htx
  obtain ⟨p, hp, rfl⟩ := List.mem_map.mp htx
  have hp := List.mem_of_mem_filter hp
  have hr := List.fst_mem_of_mem_zipIdx hp
  rw [hevents p hp]
  have hat : ∀ i, (original p.1).items[i]? = some y →
      v p.1 (projEntry rank P p) i =
        v p.1 (projEntry rank P p) ((original p.1).items.idxOf y) := by
    intro i hi
    obtain ⟨hlt, rfl⟩ := List.getElem?_eq_some_iff.mp hi
    have hnodup : (original p.1).items.Nodup := h.distinct hr
    rw [hnodup.idxOf_getElem]
  exact (argsAt_txEvents h hr p.2 hat).trans (if_neg fun hmem => hy hmem.2)

theorem argsAt_luEvents_of_not_after (h : FilteredRows rank rows) (hy : ¬ After rank P y) :
    Table.argsAt ((projOf rank rows P).flatMap (luEvents (rows.map original))) y = [] := by
  refine argsAt_projOf_of_not_after (v := fun _ tx _ => tx.pathUtility) h hy fun p hp => ?_
  have htx : (projEntry rank P p).txIdx = p.2 := rfl
  rw [luEvents, htx, getD_original hp]

theorem argsAt_suEvents_of_not_after (h : FilteredRows rank rows) (hy : ¬ After rank P y) :
    Table.argsAt ((projOf rank rows P).flatMap (suEvents (rows.map original))) y = [] := by
  refine argsAt_projOf_of_not_after (v := fun r tx => suAt (original r) tx) h hy fun p hp => ?_
  have htx : (projEntry rank P p).txIdx = p.2 := rfl
  rw [suEvents, htx, getD_original hp]

/-- The keys of `su` come after `P`. -/
theorem after_of_mem_su (h : FilteredRows rank rows)
    (hy : y ∈ (bounds (rows.map original) (projOf rank rows P)).2.keys) : After rank P y := by
  by_contra hafter
  have hargs := argsAt_suEvents_of_not_after h hafter
  rw [Table.mem_keys_iff, bounds_eq, Table.lookup_modifyAll_empty, if_pos hargs] at hy
  cases hy

/-- The high-utility itemsets that extend `P` by `y` first. -/
structure Branch (rank : ItemId → Utility ×ₗ ItemId) (B : List (Basket ItemId))
    (minUtil : Utility) (P : Finset ItemId) (y : ItemId) (X : Finset ItemId) : Prop where
  sub : insert y P ⊆ X
  later : ∀ x ∈ X, x ∉ insert y P → rank y < rank x
  high : HighUtility B minUtil X

theorem Branch.gain_le (h : FilteredRows rank rows) (hr : r ∈ rows) (hy : After rank P y)
    (hX : Branch rank (rows.map FilteredTransaction.basket) minUtil P y X)
    (hXr : X ⊆ r.basket.items) :
    r.basket.gain X ≤ pathGain rank P r ∧ r.basket.gain X ≤ pathGain rank (insert y P) r := by
  constructor
  · refine gain_le_pathGain h hr hXr ((Finset.subset_insert y P).trans hX.sub) fun x hx hxP => ?_
    by_cases hxy : x ∈ insert y P
    · rwa [(Finset.mem_insert.mp hxy).resolve_right hxP]
    · exact hy.of_insert ((after_insert hy).mpr (hX.later x hx hxy))
  · exact gain_le_pathGain h hr hXr hX.sub fun x hx hxP =>
      (after_insert hy).mpr (hX.later x hx hxP)

/-- A bound that is summed over the transactions of the extended itemset reaches
the threshold if something in the branch does. -/
theorem Branch.le_lookup (hX : Branch rank (rows.map FilteredTransaction.basket) minUtil P y X)
    {events : List (ItemId × Utility)} {c : FilteredTransaction → Utility}
    (hargs : Table.argsAt events y = (rows.filter fun r => insert y P ⊆ r.basket.items).map c)
    (hle : ∀ r ∈ rows, X ⊆ r.basket.items → r.basket.gain X ≤ c r)
    (hnonneg : ∀ r ∈ rows, insert y P ⊆ r.basket.items → 0 ≤ c r) :
    ((Table.modifyAll ∅ 0 (· + ·) events).lookup y).isSome ∧
      minUtil ≤ ((Table.modifyAll ∅ 0 (· + ·) events).lookup y).getD 0 := by
  have hne : Table.argsAt events y ≠ [] := by
    rw [hargs, Ne, List.map_eq_nil_iff, List.filter_eq_nil_iff]
    obtain ⟨r, hr, hXr⟩ := (occurs_map _ _ _).mp hX.high.occurs
    exact fun hnone => hnone r hr (decide_eq_true (hX.sub.trans hXr))
  rw [Table.lookup_modifyAll_empty, if_neg hne, foldl_add_eq_sum, zero_add, hargs]
  refine ⟨rfl, hX.high.le.trans ?_⟩
  refine utility_le_sum _ _ _ (fun r _ hXr => decide_eq_true (hX.sub.trans hXr)) hle ?_
  exact fun r hr hsub => hnonneg r hr (of_decide_eq_true hsub)

/-- Neither bound loses anything. -/
theorem Branch.bounds (h : FilteredRows rank rows) (hy : After rank P y)
    (hX : Branch rank (rows.map FilteredTransaction.basket) minUtil P y X) :
    y ∈ (bounds (rows.map original) (projOf rank rows P)).2.keys ∧
      minUtil ≤ ((bounds (rows.map original) (projOf rank rows P)).1.lookup y).getD 0 ∧
      minUtil ≤ ((bounds (rows.map original) (projOf rank rows P)).2.lookup y).getD 0 := by
  have hlu := hX.le_lookup (argsAt_luEvents h hy)
    (fun r hr hXr => (hX.gain_le h hr hy hXr).1)
    fun r hr hsub => pathGain_nonneg h hr ((Finset.subset_insert y P).trans hsub)
  have hsu := hX.le_lookup (argsAt_suEvents h hy)
    (fun r hr hXr => (hX.gain_le h hr hy hXr).2) fun r hr hsub => pathGain_nonneg h hr hsub
  rw [Table.mem_keys_iff, bounds_eq]
  exact ⟨hsu.1, hlu.2, hsu.2⟩

end Bounds

end Efim

end AirHuim
