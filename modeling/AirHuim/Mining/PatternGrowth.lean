import AirHuim.Library.Enumeration
import AirHuim.Mining.PrefixTree
import AirHuim.Preprocessing.TwuFilter

/-!
# Pattern growth

What the trees of IHUP and UP-Growth say about the database. The tree of an
itemset `Q` counts, for every item and every set of items above it, at least the
utility of `Q` with these items; the conditional tree of one of its items is the
tree of `Q` with that item. So no prefix of a high-utility itemset is pruned, and
every candidate occurs.
-/

namespace AirHuim

open Library Basket

/-! ## Paths in an order -/

/-- The items of a path, from the root: all of the order, and sorted by it. -/
structure InOrder (os items : List ItemId) : Prop where
  mem : ∀ y ∈ items, y ∈ os
  sorted : items.Pairwise fun y z => os.idxOf y < os.idxOf z

/-- The itemset has only items before `x`. -/
def Before (os : List ItemId) (x : ItemId) (Z : Finset ItemId) : Prop :=
  ∀ z ∈ Z, z ∈ os ∧ os.idxOf z < os.idxOf x

section Order

variable {os items items' : List ItemId} {x : ItemId} {Z Z' : Finset ItemId}

theorem InOrder.sublist (h : InOrder os items) (hsub : items'.Sublist items) :
    InOrder os items' :=
  ⟨fun y hy => h.mem y (hsub.subset hy), h.sorted.sublist hsub⟩

theorem InOrder.nodup (h : InOrder os items) : items.Nodup :=
  h.sorted.imp fun hlt heq => hlt.ne (by rw [heq])

theorem before_empty (os : List ItemId) (x : ItemId) : Before os x ∅ :=
  fun z hz => (Finset.notMem_empty z hz).elim

/-- In a list that is sorted by a key, the index grows with the key. -/
theorem idxOf_lt_idxOf {κ : Type*} [Preorder κ] {key : ItemId → κ}
    (h : os.Pairwise fun y z => key y < key z) {y z : ItemId} (hy : y ∈ os) (hz : z ∈ os)
    (hlt : key y < key z) : os.idxOf y < os.idxOf z := by
  have hylt := List.idxOf_lt_length_of_mem hy
  have hzlt := List.idxOf_lt_length_of_mem hz
  by_contra hge
  rcases (not_lt.mp hge).lt_or_eq with hgt | heq
  · have hkey := List.pairwise_iff_getElem.mp h _ _ hzlt hylt hgt
    rw [List.getElem_idxOf, List.getElem_idxOf] at hkey
    exact lt_asymm hlt hkey
  · have hyz : z = y := (List.idxOf_inj hz).mp heq
    rw [hyz] at hlt
    exact lt_irrefl _ hlt

/-- A list in an order that is sorted by a key is sorted by the index. -/
theorem inOrder_of_key {κ : Type*} [Preorder κ] (key : ItemId → κ)
    (h : os.Pairwise fun y z => key y < key z) (hmem : ∀ y ∈ items, y ∈ os)
    (hsorted : items.Pairwise fun y z => key y < key z) : InOrder os items := by
  refine ⟨hmem, hsorted.imp_of_mem ?_⟩
  intro y z hy hz hlt
  exact idxOf_lt_idxOf h (hmem y hy) (hmem z hz) hlt

end Order

/-! ## The counters of a path -/

/-- A path that ends with `x` and has `Z` above it. -/
def Reaches (x : ItemId) (Z : Finset ItemId) (k : List ItemId) : Prop :=
  k.head? = some x ∧ Z ⊆ k.tail.toFinset

instance (x : ItemId) (Z : Finset ItemId) : DecidablePred (Reaches x Z) := fun k =>
  inferInstanceAs (Decidable (k.head? = some x ∧ Z ⊆ k.tail.toFinset))

section Paths

variable {x : ItemId} {Z : Finset ItemId} {q : List ItemId} {w : Utility}
  {path before after : List (ItemId × Utility)} {os : List ItemId}

theorem pathAdds_append (q : List ItemId) (path path' : List (ItemId × Utility)) :
    pathAdds q (path ++ path') =
      pathAdds q path ++ pathAdds ((path.map Prod.fst).reverse ++ q) path' := by
  induction path generalizing q with
  | nil => rfl
  | cons e path ih =>
    rw [List.cons_append, pathAdds, pathAdds, ih, List.cons_append, List.map_cons,
      List.reverse_cons, List.append_assoc, List.singleton_append]

theorem head_of_mem_pathAdds {e : List ItemId × Utility} (he : e ∈ pathAdds q path) :
    ∃ y ∈ path.map Prod.fst, e.1.head? = some y := by
  induction path generalizing q with
  | nil => exact (List.not_mem_nil he).elim
  | cons a path ih =>
    rcases List.mem_cons.mp he with rfl | he
    · exact ⟨a.1, List.mem_cons_self, rfl⟩
    · obtain ⟨y, hy, hhead⟩ := ih he
      exact ⟨y, List.mem_cons_of_mem _ hy, hhead⟩

/-- A path without the item has no counter for it. -/
theorem filter_pathAdds_of_notMem (hx : x ∉ path.map Prod.fst) :
    (pathAdds q path).filter (fun e => Reaches x Z e.1) = [] := by
  rw [List.filter_eq_nil_iff]
  intro e he hreach
  obtain ⟨y, hy, hhead⟩ := head_of_mem_pathAdds he
  have hhead' := (of_decide_eq_true hreach).1
  rw [hhead] at hhead'
  exact hx (Option.some.inj hhead' ▸ hy)

/-- A path has one counter for an item, with the items before it above. -/
theorem filter_pathAdds (hbefore : x ∉ before.map Prod.fst) (hafter : x ∉ after.map Prod.fst) :
    (pathAdds [] (before ++ (x, w) :: after)).filter (fun e => Reaches x Z e.1) =
      if Z ⊆ (before.map Prod.fst).toFinset then
        [(x :: (before.map Prod.fst).reverse, w)]
      else [] := by
  have hitems : (before.map Prod.fst).reverse.toFinset = (before.map Prod.fst).toFinset := by
    ext y
    simp
  rw [pathAdds_append, List.filter_append, filter_pathAdds_of_notMem hbefore, List.nil_append,
    pathAdds, List.append_nil]
  split_ifs with hZ
  · rw [List.filter_cons_of_pos, filter_pathAdds_of_notMem hafter]
    exact decide_eq_true ⟨rfl, hitems.symm ▸ hZ⟩
  · rw [List.filter_cons_of_neg, filter_pathAdds_of_notMem hafter]
    intro hreach
    exact hZ (hitems ▸ (of_decide_eq_true hreach).2)

/-- In a path that is sorted by the order of the items, what is above an item is
what comes before it. -/
theorem filter_sorted_pathAdds (hpath : InOrder os (path.map Prod.fst)) (hZ : Before os x Z)
    (hx : (x, w) ∈ path) :
    ∃ k, (pathAdds [] path).filter (fun e => Reaches x Z e.1) =
      if insert x Z ⊆ (path.map Prod.fst).toFinset then [(k, w)] else [] := by
  have hsorted := hpath.sorted
  obtain ⟨before, after, rfl⟩ := List.append_of_mem hx
  rw [List.map_append, List.map_cons, List.pairwise_append] at hsorted
  obtain ⟨-, hlater, hearlier⟩ := hsorted
  have hbefore : x ∉ before.map Prod.fst := fun hmem =>
    (hearlier x hmem x List.mem_cons_self).false
  have hafter : x ∉ after.map Prod.fst := fun hmem =>
    ((List.pairwise_cons.mp hlater).1 x hmem).false
  refine ⟨_, (filter_pathAdds hbefore hafter).trans (if_congr ?_ rfl rfl)⟩
  rw [Finset.insert_subset_iff]
  constructor
  · intro hsub
    refine ⟨by simp, fun z hz => ?_⟩
    have := List.mem_toFinset.mp (hsub hz)
    rw [List.mem_toFinset, List.map_append]
    exact List.mem_append_left _ this
  · rintro ⟨-, hsub⟩ z hz
    have hmem := List.mem_toFinset.mp (hsub hz)
    rw [List.map_append, List.map_cons] at hmem
    rw [List.mem_toFinset]
    rcases List.mem_append.mp hmem with hmem | hmem
    · exact hmem
    · rcases List.mem_cons.mp hmem with heq | hmem
      · have heq : z = x := heq
        exact ((hZ z hz).2.ne (by rw [heq])).elim
      · exact (lt_asymm (hZ z hz).2 ((List.pairwise_cons.mp hlater).1 z hmem)).elim

/-- What a path adds for an item and the items above it: its weight there, if it
has them all. -/
theorem mass_pathAdds (hpath : InOrder os (path.map Prod.fst)) (hZ : Before os x Z)
    (hx : (x, w) ∈ path) : mass (Reaches x Z) (pathAdds [] path) =
      if insert x Z ⊆ (path.map Prod.fst).toFinset then w else 0 := by
  obtain ⟨k, hfilter⟩ := filter_sorted_pathAdds hpath hZ hx
  rw [mass, hfilter]
  split_ifs <;> simp

theorem exists_reaches_pathAdds (hpath : InOrder os (path.map Prod.fst)) (hZ : Before os x Z) :
    (∃ e ∈ pathAdds [] path, Reaches x Z e.1) ↔ insert x Z ⊆ (path.map Prod.fst).toFinset := by
  have hfilter : (∃ e ∈ pathAdds [] path, Reaches x Z e.1) ↔
      (pathAdds [] path).filter (fun e => Reaches x Z e.1) ≠ [] := by
    rw [ne_eq, List.filter_eq_nil_iff]
    simp
  rw [hfilter]
  by_cases hx : x ∈ path.map Prod.fst
  · obtain ⟨e, he, rfl⟩ := List.mem_map.mp hx
    obtain ⟨k, heq⟩ := filter_sorted_pathAdds (w := e.2) hpath hZ he
    rw [heq]
    split_ifs with hsub <;> simp [hsub]
  · rw [filter_pathAdds_of_notMem hx]
    constructor
    · exact fun h => (h rfl).elim
    · exact fun hsub => (hx (List.mem_toFinset.mp (hsub (Finset.mem_insert_self x Z)))).elim

/-- The counters of a path are for its initial parts. -/
theorem initial_of_mem_pathAdds {e : List ItemId × Utility} (he : e ∈ pathAdds q path) :
    e.1.reverse <+: q.reverse ++ path.map Prod.fst := by
  induction path generalizing q with
  | nil => exact (List.not_mem_nil he).elim
  | cons a path ih =>
    rcases List.mem_cons.mp he with rfl | he
    · exact ⟨path.map Prod.fst, by simp⟩
    · simpa using ih he

theorem weight_of_mem_pathAdds {e : List ItemId × Utility} (he : e ∈ pathAdds q path) :
    ∃ a ∈ path, e.2 = a.2 := by
  induction path generalizing q with
  | nil => exact (List.not_mem_nil he).elim
  | cons a path ih =>
    rcases List.mem_cons.mp he with rfl | he
    · exact ⟨a, List.mem_cons_self, rfl⟩
    · obtain ⟨a', ha', heq⟩ := ih he
      exact ⟨a', List.mem_cons_of_mem a ha', heq⟩

end Paths

/-! ## The tree of an itemset -/

/-- The tree of `Q` over the items `os`. -/
structure CondTree (B : List (Basket ItemId)) (Q : Finset ItemId) (os : List ItemId) (T : Trie) :
    Prop where
  nodup : os.Nodup
  fresh : ∀ x ∈ os, x ∉ Q
  nonneg : ∀ e ∈ T, 0 ≤ e.2
  inOrder : ∀ e ∈ T, InOrder os e.1.reverse
  occurs_item : ∀ x ∈ os, Occurs B (insert x Q)
  occurs_iff : ∀ x ∈ os, ∀ Z, Before os x Z →
    (Occurs B (insert x (Q ∪ Z)) ↔ ∃ e ∈ T, Reaches x Z e.1)
  le_mass : ∀ x ∈ os, ∀ Z, Before os x Z →
    utility B (insert x (Q ∪ Z)) ≤ mass (Reaches x Z) T

/-- The tree of `Q` as far as it has weight: a path that weighs nothing may be
missing, unless the tree is `full`. -/
structure PatternTree (full : Prop) (B : List (Basket ItemId)) (Q : Finset ItemId)
    (os : List ItemId) (T : Trie) : Prop where
  nodup : os.Nodup
  fresh : ∀ x ∈ os, x ∉ Q
  nonneg : ∀ e ∈ T, 0 ≤ e.2
  inOrder : ∀ e ∈ T, InOrder os e.1.reverse
  occurs_item : ∀ x ∈ os, Occurs B (insert x Q)
  occurs_of : ∀ x ∈ os, ∀ Z, Before os x Z → (∃ e ∈ T, Reaches x Z e.1) →
    Occurs B (insert x (Q ∪ Z))
  of_occurs : full → ∀ x ∈ os, ∀ Z, Before os x Z → Occurs B (insert x (Q ∪ Z)) →
    ∃ e ∈ T, Reaches x Z e.1
  le_mass : ∀ x ∈ os, ∀ Z, Before os x Z →
    utility B (insert x (Q ∪ Z)) ≤ mass (Reaches x Z) T

theorem CondTree.pattern {full : Prop} {B : List (Basket ItemId)} {Q : Finset ItemId}
    {os : List ItemId} {T : Trie} (h : CondTree B Q os T) : PatternTree full B Q os T where
  nodup := h.nodup
  fresh := h.fresh
  nonneg := h.nonneg
  inOrder := h.inOrder
  occurs_item := h.occurs_item
  occurs_of x hx Z hZ := (h.occurs_iff x hx Z hZ).mpr
  of_occurs _ x hx Z hZ := (h.occurs_iff x hx Z hZ).mp
  le_mass := h.le_mass

theorem CondTree.full {B : List (Basket ItemId)} {Q : Finset ItemId} {os : List ItemId} {T : Trie}
    (h : CondTree B Q os T) : PatternTree True B Q os T :=
  h.pattern

theorem PatternTree.condTree {B : List (Basket ItemId)} {Q : Finset ItemId} {os : List ItemId}
    {T : Trie} (h : PatternTree True B Q os T) : CondTree B Q os T where
  nodup := h.nodup
  fresh := h.fresh
  nonneg := h.nonneg
  inOrder := h.inOrder
  occurs_item := h.occurs_item
  occurs_iff x hx Z hZ := ⟨h.of_occurs trivial x hx Z hZ, h.occurs_of x hx Z hZ⟩
  le_mass := h.le_mass

/-- A tree filled with paths, of which each is worth enough and all together are
where the itemsets occur, and everywhere if it is full. -/
theorem patternTree_of_paths {ρ : Type*} {full : Prop} {B : List (Basket ItemId)}
    {Q : Finset ItemId} {os : List ItemId} {rows : List ρ} {path : ρ → List (ItemId × Utility)}
    (hnodup : os.Nodup) (hfresh : ∀ x ∈ os, x ∉ Q) (hitem : ∀ x ∈ os, Occurs B (insert x Q))
    (hpath : ∀ r ∈ rows, InOrder os ((path r).map Prod.fst))
    (hnonneg : ∀ r ∈ rows, ∀ e ∈ path r, 0 ≤ e.2)
    (hocc : ∀ x ∈ os, ∀ Z, Before os x Z →
      (∃ r ∈ rows, insert x Z ⊆ ((path r).map Prod.fst).toFinset) → Occurs B (insert x (Q ∪ Z)))
    (hfull : full → ∀ x ∈ os, ∀ Z, Before os x Z → Occurs B (insert x (Q ∪ Z)) →
      ∃ r ∈ rows, insert x Z ⊆ ((path r).map Prod.fst).toFinset)
    (hle : ∀ x ∈ os, ∀ Z, Before os x Z → utility B (insert x (Q ∪ Z)) ≤
      (rows.map fun r => mass (Reaches x Z) (pathAdds [] (path r))).sum) :
    PatternTree full B Q os (tally [] (rows.flatMap fun r => pathAdds [] (path r))) := by
  have hkeys : ∀ k : List ItemId,
      (∃ e ∈ tally [] (rows.flatMap fun r => pathAdds [] (path r)), e.1 = k) ↔
        ∃ r ∈ rows, ∃ e ∈ pathAdds [] (path r), e.1 = k := by
    intro k
    have hmem := mem_keys_tally [] (rows.flatMap fun r => pathAdds [] (path r)) k
    simp only [List.map_nil, List.not_mem_nil, false_or, List.mem_map, List.mem_flatMap] at hmem
    rw [hmem]
    constructor
    · rintro ⟨e, ⟨r, hr, he⟩, hk⟩
      exact ⟨r, hr, e, he, hk⟩
    · rintro ⟨r, hr, e, he, hk⟩
      exact ⟨e, ⟨r, hr, he⟩, hk⟩
  have hreaches : ∀ x Z, Before os x Z →
      ((∃ e ∈ tally [] (rows.flatMap fun r => pathAdds [] (path r)), Reaches x Z e.1) ↔
        ∃ r ∈ rows, insert x Z ⊆ ((path r).map Prod.fst).toFinset) := by
    intro x Z hZ
    constructor
    · rintro ⟨e, he, hreach⟩
      obtain ⟨r, hr, e', he', heq⟩ := (hkeys e.1).mp ⟨e, he, rfl⟩
      exact ⟨r, hr, (exists_reaches_pathAdds (hpath r hr) hZ).mp ⟨e', he', heq ▸ hreach⟩⟩
    · rintro ⟨r, hr, hsub⟩
      obtain ⟨e, he, hreach⟩ := (exists_reaches_pathAdds (hpath r hr) hZ).mpr hsub
      obtain ⟨e', he', heq⟩ := (hkeys e.1).mpr ⟨r, hr, e, he, rfl⟩
      exact ⟨e', he', heq ▸ hreach⟩
  constructor
  · exact hnodup
  · exact hfresh
  · apply nonneg_tally (by simp)
    intro e he
    obtain ⟨r, hr, he⟩ := List.mem_flatMap.mp he
    obtain ⟨a, ha, heq⟩ := weight_of_mem_pathAdds he
    exact heq ▸ hnonneg r hr a ha
  · intro e he
    obtain ⟨r, hr, e', he', heq⟩ := (hkeys e.1).mp ⟨e, he, rfl⟩
    have hinit := initial_of_mem_pathAdds he'
    rw [List.reverse_nil, List.nil_append] at hinit
    rw [← heq]
    exact (hpath r hr).sublist hinit.sublist
  · exact hitem
  · intro x hx Z hZ he
    exact hocc x hx Z hZ ((hreaches x Z hZ).mp he)
  · intro hf x hx Z hZ hX
    exact (hreaches x Z hZ).mpr (hfull hf x hx Z hZ hX)
  · intro x hx Z hZ
    rw [mass_tally, mass_flatMap]
    exact (hle x hx Z hZ).trans (zero_add _).ge

/-- A full one. -/
theorem condTree_of_paths {ρ : Type*} {B : List (Basket ItemId)} {Q : Finset ItemId}
    {os : List ItemId} {rows : List ρ} {path : ρ → List (ItemId × Utility)} (hnodup : os.Nodup)
    (hfresh : ∀ x ∈ os, x ∉ Q) (hitem : ∀ x ∈ os, Occurs B (insert x Q))
    (hpath : ∀ r ∈ rows, InOrder os ((path r).map Prod.fst))
    (hnonneg : ∀ r ∈ rows, ∀ e ∈ path r, 0 ≤ e.2)
    (hocc : ∀ x ∈ os, ∀ Z, Before os x Z → (Occurs B (insert x (Q ∪ Z)) ↔
      ∃ r ∈ rows, insert x Z ⊆ ((path r).map Prod.fst).toFinset))
    (hle : ∀ x ∈ os, ∀ Z, Before os x Z → utility B (insert x (Q ∪ Z)) ≤
      (rows.map fun r => mass (Reaches x Z) (pathAdds [] (path r))).sum) :
    CondTree B Q os (tally [] (rows.flatMap fun r => pathAdds [] (path r))) :=
  (patternTree_of_paths hnodup hfresh hitem hpath hnonneg
    (fun x hx Z hZ => (hocc x hx Z hZ).mpr) (fun _ x hx Z hZ => (hocc x hx Z hZ).mp) hle).condTree

/-! ## The paths above one item -/

/-- The nodes of `x`: the path above each, from the root, and its weight. -/
def condBase (x : ItemId) (T : Trie) : List (List ItemId × Utility) :=
  (T.filter fun e => e.1.head? = some x).map fun e => (e.1.tail.reverse, e.2)

/-- The weight of the paths with all of `Z`. -/
theorem mass_condBase (x : ItemId) (Z : Finset ItemId) (T : Trie) :
    mass (fun path => Z ⊆ path.toFinset) (condBase x T) = mass (Reaches x Z) T := by
  induction T with
  | nil => rfl
  | cons e T ih =>
    have hitems : e.1.tail.reverse.toFinset = e.1.tail.toFinset := List.toFinset_reverse
    rw [mass_cons, ← ih, condBase]
    by_cases hhead : e.1.head? = some x
    · rw [List.filter_cons_of_pos (by simpa using hhead), List.map_cons, mass_cons]
      congr 1
      refine if_congr ?_ rfl rfl
      rw [hitems]
      exact (and_iff_right hhead).symm
    · rw [List.filter_cons_of_neg (by simpa using hhead), if_neg fun h => hhead h.1, zero_add]
      rfl

theorem exists_condBase (x : ItemId) (Z : Finset ItemId) (T : Trie) :
    (∃ e ∈ condBase x T, Z ⊆ e.1.toFinset) ↔ ∃ e ∈ T, Reaches x Z e.1 := by
  have hitems : ∀ k : List ItemId, k.tail.reverse.toFinset = k.tail.toFinset :=
    fun k => List.toFinset_reverse
  simp only [condBase, List.mem_map, List.mem_filter, decide_eq_true_eq]
  constructor
  · rintro ⟨_, ⟨e, ⟨he, hhead⟩, rfl⟩, hsub⟩
    exact ⟨e, he, hhead, hitems e.1 ▸ hsub⟩
  · rintro ⟨e, he, hhead, hsub⟩
    exact ⟨_, ⟨e, ⟨he, hhead⟩, rfl⟩, (hitems e.1).symm ▸ hsub⟩

/-- What a miner keeps of the paths of an item: the items whose paths weigh enough. -/
structure LocalItems (minUtility : Utility) (entries : List (List ItemId × Utility))
    (os : List ItemId) : Prop where
  nodup : os.Nodup
  mem_iff : ∀ y, y ∈ os ↔ (∃ e ∈ entries, y ∈ e.1) ∧
    minUtility ≤ mass (fun path => y ∈ path) entries

namespace PatternTree

variable {full : Prop} {B : List (Basket ItemId)} {Q : Finset ItemId} {os os' : List ItemId}
  {T : Trie} {x : ItemId} {m : Utility} {entries : List (List ItemId × Utility)}

theorem mem_condBase_inOrder (h : PatternTree full B Q os T) {e : List ItemId × Utility}
    (he : e ∈ condBase x T) : InOrder os e.1 ∧ Before os x e.1.toFinset ∧ 0 ≤ e.2 := by
  obtain ⟨e, hmem, rfl⟩ := List.mem_map.mp he
  obtain ⟨hmem, hhead⟩ := List.mem_filter.mp hmem
  obtain ⟨q, heq⟩ := List.head?_eq_some_iff.mp (of_decide_eq_true hhead)
  have horder := h.inOrder e hmem
  rw [heq, List.reverse_cons] at horder
  have habove := horder.sublist (List.sublist_append_left q.reverse [x])
  have hlast := (List.pairwise_append.mp horder.sorted).2.2
  rw [heq, List.tail_cons]
  refine ⟨habove, fun z hz => ?_, h.nonneg e hmem⟩
  have hz := List.mem_toFinset.mp hz
  exact ⟨habove.mem z hz, hlast z hz x List.mem_cons_self⟩

/-- The weight of the paths with `Z` is at least the utility of `Q` with `x` and `Z`. -/
theorem le_mass_entries (h : PatternTree full B Q os T) (hx : x ∈ os)
    (hbase : entries.Perm (condBase x T)) {Z : Finset ItemId} (hZ : Before os x Z) :
    utility B (insert x (Q ∪ Z)) ≤ mass (fun path => Z ⊆ path.toFinset) entries := by
  rw [mass_perm _ hbase, mass_condBase]
  exact h.le_mass x hx Z hZ

theorem exists_entries_iff (hbase : entries.Perm (condBase x T)) (Z : Finset ItemId) :
    (∃ e ∈ entries, Z ⊆ e.1.toFinset) ↔ ∃ e ∈ T, Reaches x Z e.1 := by
  rw [← exists_condBase]
  simp only [hbase.mem_iff]

theorem occurs_of_entries (h : PatternTree full B Q os T) (hx : x ∈ os)
    (hbase : entries.Perm (condBase x T)) {Z : Finset ItemId} (hZ : Before os x Z)
    (he : ∃ e ∈ entries, Z ⊆ e.1.toFinset) : Occurs B (insert x (Q ∪ Z)) :=
  h.occurs_of x hx Z hZ ((exists_entries_iff hbase Z).mp he)

theorem entries_of_occurs (h : PatternTree full B Q os T) (hfull : full) (hx : x ∈ os)
    (hbase : entries.Perm (condBase x T)) {Z : Finset ItemId} (hZ : Before os x Z)
    (hX : Occurs B (insert x (Q ∪ Z))) : ∃ e ∈ entries, Z ⊆ e.1.toFinset :=
  (exists_entries_iff hbase Z).mpr (h.of_occurs hfull x hx Z hZ hX)

/-- The items that are kept come before `x`. -/
theorem before_localItems (h : PatternTree full B Q os T) (hbase : entries.Perm (condBase x T))
    (hlocal : LocalItems m entries os') : Before os x os'.toFinset := by
  intro y hy
  obtain ⟨⟨e, he, hye⟩, -⟩ := (hlocal.mem_iff y).mp (List.mem_toFinset.mp hy)
  exact (h.mem_condBase_inOrder (hbase.mem_iff.mp he)).2.1 y (List.mem_toFinset.mpr hye)

/-- Each tree has fewer items than the one that it comes from. -/
theorem length_localItems_lt (h : PatternTree full B Q os T) (hx : x ∈ os)
    (hbase : entries.Perm (condBase x T)) (hlocal : LocalItems m entries os') :
    os'.length < os.length := by
  have hbefore := h.before_localItems hbase hlocal
  rw [← List.toFinset_card_of_nodup h.nodup, ← List.toFinset_card_of_nodup hlocal.nodup]
  apply Finset.card_lt_card
  rw [Finset.ssubset_iff_of_subset]
  · refine ⟨x, List.mem_toFinset.mpr hx, fun hmem => lt_irrefl _ (hbefore x hmem).2⟩
  · exact fun y hy => List.mem_toFinset.mpr (hbefore y hy).1

theorem insert_union_insert (x y : ItemId) (Q Z : Finset ItemId) :
    insert y (insert x Q ∪ Z) = insert x (Q ∪ insert y Z) := by
  ext z
  simp only [Finset.mem_insert, Finset.mem_union]
  tauto

/-- What comes before an item that is kept comes before `x`, and so does the item. -/
theorem before_insert (hbefore : Before os x os'.toFinset) {y : ItemId} (hy : y ∈ os')
    {Z : Finset ItemId} (hZ : Before os' y Z) : Before os x (insert y Z) := by
  intro z hz
  rcases Finset.mem_insert.mp hz with rfl | hz
  · exact hbefore z (List.mem_toFinset.mpr hy)
  · exact hbefore z (List.mem_toFinset.mpr (hZ z hz).1)

/-- Cutting a path down to the items that are kept loses none of them. -/
theorem insert_subset_iff_of_perm {path kept : List ItemId}
    (hperm : kept.Perm (path.filter (· ∈ os'))) {y : ItemId} (hy : y ∈ os') {Z : Finset ItemId}
    (hZ : Before os' y Z) : insert y Z ⊆ kept.toFinset ↔ insert y Z ⊆ path.toFinset := by
  have hmem : ∀ z ∈ insert y Z, (z ∈ kept.toFinset ↔ z ∈ path.toFinset) := by
    intro z hz
    have hz' : z ∈ os' := by
      rcases Finset.mem_insert.mp hz with rfl | hz
      · exact hy
      · exact (hZ z hz).1
    rw [List.mem_toFinset, List.mem_toFinset, hperm.mem_iff, List.mem_filter]
    exact and_iff_left (decide_eq_true hz')
  exact forall₂_congr hmem

/-- The items of a path that has one weight. -/
theorem map_fst_const (kept : List ItemId) (w : Utility) :
    (kept.map fun y => (y, w)).map Prod.fst = kept := by
  rw [List.map_map]
  exact List.map_id kept

/-- What a path of one weight adds to the nodes that have `y` and `Z`. -/
theorem mass_pathAdds_const {kept : List ItemId} (horder : InOrder os' kept) {y : ItemId}
    {Z : Finset ItemId} (hZ : Before os' y Z) (w : Utility) :
    mass (Reaches y Z) (pathAdds [] (kept.map fun y => (y, w))) =
      if insert y Z ⊆ kept.toFinset then w else 0 := by
  have hitems := map_fst_const kept w
  by_cases hy : y ∈ kept
  · have hmem : (y, w) ∈ kept.map fun y => (y, w) := List.mem_map.mpr ⟨y, hy, rfl⟩
    rw [mass_pathAdds (hitems.symm ▸ horder) hZ hmem, hitems]
  · have hnot : ¬ insert y Z ⊆ kept.toFinset :=
      fun hsub => hy (List.mem_toFinset.mp (hsub (Finset.mem_insert_self y Z)))
    rw [if_neg hnot, mass, filter_pathAdds_of_notMem (hitems.symm ▸ hy)]
    rfl

/-- The tree over the paths of `x`, each cut down to the items that are kept and
put in their order, is the tree of `Q` with `x`. Paths that weigh nothing may be
left out. -/
theorem conditional (h : PatternTree full B Q os T) (hx : x ∈ os)
    (hbase : entries.Perm (condBase x T)) (hlocal : LocalItems m entries os')
    (arrange : List ItemId → List ItemId)
    (hperm : ∀ e ∈ entries, (arrange e.1).Perm (e.1.filter (· ∈ os')))
    (horder : ∀ e ∈ entries, InOrder os' (arrange e.1))
    (keep : List ItemId × Utility → Bool) (hkeep : ∀ e ∈ entries, keep e = false → e.2 = 0)
    (hall : full → ∀ e ∈ entries, keep e = true) :
    PatternTree full B (insert x Q) os' (tally [] ((entries.filter keep).flatMap fun e =>
      pathAdds [] ((arrange e.1).map fun y => (y, e.2)))) := by
  have hbefore := h.before_localItems hbase hlocal
  have hkept : ∀ e ∈ entries.filter keep, e ∈ entries := fun e => List.mem_of_mem_filter
  apply patternTree_of_paths
  · exact hlocal.nodup
  · intro y hy hyQ
    obtain ⟨hyos, hlt⟩ := hbefore y (List.mem_toFinset.mpr hy)
    rcases Finset.mem_insert.mp hyQ with rfl | hyQ
    · exact lt_irrefl _ hlt
    · exact h.fresh y hyos hyQ
  · intro y hy
    have hocc := insert_union_insert x y Q ∅
    rw [Finset.union_empty] at hocc
    rw [hocc]
    apply h.occurs_of_entries hx hbase (before_insert hbefore hy (before_empty os' y))
    obtain ⟨⟨e, he, hye⟩, -⟩ := (hlocal.mem_iff y).mp hy
    exact ⟨e, he, by simpa using hye⟩
  · intro e he
    rw [map_fst_const]
    exact horder e (hkept e he)
  · intro e he a ha
    obtain ⟨y, -, rfl⟩ := List.mem_map.mp ha
    exact (h.mem_condBase_inOrder (hbase.mem_iff.mp (hkept e he))).2.2
  · rintro y hy Z hZ ⟨e, he, hZe⟩
    rw [insert_union_insert]
    apply h.occurs_of_entries hx hbase (before_insert hbefore hy hZ)
    rw [map_fst_const, insert_subset_iff_of_perm (hperm e (hkept e he)) hy hZ] at hZe
    exact ⟨e, hkept e he, hZe⟩
  · intro hfull y hy Z hZ hX
    rw [insert_union_insert] at hX
    obtain ⟨e, he, hZe⟩ :=
      h.entries_of_occurs hfull hx hbase (before_insert hbefore hy hZ) hX
    refine ⟨e, List.mem_filter.mpr ⟨he, hall hfull e he⟩, ?_⟩
    rwa [map_fst_const, insert_subset_iff_of_perm (hperm e he) hy hZ]
  · intro y hy Z hZ
    have hmass : ∀ e ∈ entries.filter keep, mass (Reaches y Z)
        (pathAdds [] ((arrange e.1).map fun y => (y, e.2))) =
          if insert y Z ⊆ e.1.toFinset then e.2 else 0 := by
      intro e he
      rw [mass_pathAdds_const (horder e (hkept e he)) hZ]
      exact if_congr (insert_subset_iff_of_perm (hperm e (hkept e he)) hy hZ) rfl rfl
    rw [insert_union_insert, List.map_congr_left hmass,
      ← mass_eq_sum fun path : List ItemId => insert y Z ⊆ path.toFinset, mass_filter _ hkeep]
    exact h.le_mass_entries hx hbase (before_insert hbefore hy hZ)

end PatternTree

/-! ## Candidates -/

/-- The itemsets whose last item beyond `Q` is `x`. -/
def AtItem (Q : Finset ItemId) (os : List ItemId) (x : ItemId) (X : Finset ItemId) : Prop :=
  insert x Q ⊆ X ∧ Before os x (X \ insert x Q)

/-- The itemsets that extend `Q` by items of the order. -/
def Below (Q : Finset ItemId) (os : List ItemId) (X : Finset ItemId) : Prop :=
  ∃ x ∈ os, AtItem Q os x X

/-- The candidates for a region: no itemset twice, every high-utility one, and
only itemsets that occur. -/
abbrev Candidates (B : List (Basket ItemId)) (m : Utility) (R : Finset ItemId → Prop)
    (cands : List (List ItemId)) : Prop :=
  Lists List.toFinset cands (fun X => HighUtility B m X ∧ R X) fun c =>
    c.Nodup ∧ Occurs B c.toFinset ∧ R c.toFinset

section Regions

variable {full : Prop} {B : List (Basket ItemId)} {Q X : Finset ItemId} {os os' : List ItemId}
  {T : Trie} {x y : ItemId} {m : Utility} {entries : List (List ItemId × Utility)}
  {R R' : Finset ItemId → Prop} {cs cs' : List (List ItemId)}

theorem Candidates.append (h : Candidates B m R cs) (h' : Candidates B m R' cs')
    (hdisj : ∀ X, R X → ¬ R' X) : Candidates B m (fun X => R X ∨ R' X) (cs ++ cs') := by
  refine (Lists.append h h' ?_).mono ?_ ?_
  · rintro b c ⟨-, -, hb⟩ ⟨-, -, hc⟩ heq
    exact hdisj _ hb (heq ▸ hc)
  · rintro X ⟨hX, hR | hR⟩
    · exact Or.inl ⟨hX, hR⟩
    · exact Or.inr ⟨hX, hR⟩
  · rintro c - (⟨hnodup, hocc, hR⟩ | ⟨hnodup, hocc, hR⟩)
    · exact ⟨hnodup, hocc, Or.inl hR⟩
    · exact ⟨hnodup, hocc, Or.inr hR⟩

theorem Candidates.congr (h : Candidates B m R cs) (hR : ∀ X, R' X ↔ R X) :
    Candidates B m R' cs := by
  have heq : R' = R := funext fun X => propext (hR X)
  rwa [heq]

/-- The last item is unique. -/
theorem AtItem.unique (h : AtItem Q os x X) (h' : AtItem Q os y X) (hx : x ∉ Q) (hy : y ∉ Q) :
    x = y := by
  by_contra hne
  have hxX := h.1 (Finset.mem_insert_self x Q)
  have hyX := h'.1 (Finset.mem_insert_self y Q)
  have hyx : y ∈ X \ insert x Q := by simp [hyX, hy, Ne.symm hne]
  have hxy : x ∈ X \ insert y Q := by simp [hxX, hx, hne]
  exact lt_asymm (h.2 y hyx).2 (h'.2 x hxy).2

/-- An itemset that extends `Q` by items of the order has a last one. -/
theorem below_of_subset (hQ : Q ⊆ X) (hsub : ∀ z ∈ X, z ∉ Q → z ∈ os) (hne : X ≠ Q) :
    Below Q os X := by
  have hmore : (X \ Q).Nonempty := by
    rw [Finset.sdiff_nonempty]
    exact fun hXQ => hne (hXQ.antisymm hQ)
  obtain ⟨x, hx, hmax⟩ := Finset.exists_max_image (X \ Q) os.idxOf hmore
  obtain ⟨hxX, hxQ⟩ := Finset.mem_sdiff.mp hx
  refine ⟨x, hsub x hxX hxQ, Finset.insert_subset hxX hQ, fun z hz => ?_⟩
  obtain ⟨hzX, hz⟩ := Finset.mem_sdiff.mp hz
  rw [Finset.mem_insert, not_or] at hz
  refine ⟨hsub z hzX hz.2, (hmax z (Finset.mem_sdiff.mpr ⟨hzX, hz.2⟩)).lt_of_ne fun heq => ?_⟩
  exact hz.1 ((List.idxOf_inj (hsub z hzX hz.2)).mp heq)

/-- What extends `Q` and `x` by items before `x` has `x` as its last item. -/
theorem Below.atItem (h : Below (insert x Q) os' X) (hbefore : Before os x os'.toFinset) :
    AtItem Q os x X := by
  obtain ⟨y, hy, hsub, hrest⟩ := h
  refine ⟨(Finset.subset_insert y _).trans hsub, fun z hz => ?_⟩
  obtain ⟨hzX, hz⟩ := Finset.mem_sdiff.mp hz
  by_cases hzy : z = y
  · exact hbefore z (List.mem_toFinset.mpr (hzy ▸ hy))
  · have hzmore : z ∈ X \ insert y (insert x Q) :=
      Finset.mem_sdiff.mpr ⟨hzX, fun hmem => hz ((Finset.mem_insert.mp hmem).resolve_left hzy)⟩
    exact hbefore z (List.mem_toFinset.mpr (hrest z hzmore).1)

theorem Below.nonempty (h : Below Q os X) : X.Nonempty := by
  obtain ⟨x, -, hsub, -⟩ := h
  exact ⟨x, hsub (Finset.mem_insert_self x Q)⟩

theorem ne_of_below (h : Below Q os X) (hfresh : ∀ x ∈ os, x ∉ Q) : X ≠ Q := by
  rintro rfl
  obtain ⟨x, hx, hsub, -⟩ := h
  exact hfresh x hx (hsub (Finset.mem_insert_self x _))

namespace PatternTree

/-- An itemset with the last item `x` is `Q`, `x` and the items before `x`. -/
theorem eq_insert_union (hat : AtItem Q os x X) : X = insert x (Q ∪ X \ insert x Q) := by
  rw [← Finset.insert_union, Finset.union_sdiff_of_subset hat.1]

theorem le_mass_atItem (h : PatternTree full B Q os T) (hx : x ∈ os)
    (hbase : entries.Perm (condBase x T)) (hat : AtItem Q os x X) :
    utility B X ≤ mass (fun path => X \ insert x Q ⊆ path.toFinset) entries := by
  have hle := h.le_mass_entries hx hbase hat.2
  rwa [← eq_insert_union hat] at hle

/-- If an item's paths weigh too little, no high-utility itemset has it as its
last item. -/
theorem candidates_nil (h : PatternTree full B Q os T) (hx : x ∈ os)
    (hbase : entries.Perm (condBase x T)) (hlt : (entries.map Prod.snd).sum < m) :
    Candidates B m (AtItem Q os x) [] := by
  apply Lists.nil
  rintro X ⟨hX, hat⟩
  have hnonneg : ∀ e ∈ entries, 0 ≤ e.2 :=
    fun e he => (h.mem_condBase_inOrder (hbase.mem_iff.mp he)).2.2
  have hsum : (entries.map Prod.snd).sum = mass (fun _ => True) entries := by simp [mass]
  refine absurd (hX.le.trans ((h.le_mass_atItem hx hbase hat).trans ?_)) (not_le.mpr hlt)
  rw [hsum]
  exact mass_le_mass hnonneg fun _ _ => trivial

/-- The items of a high-utility itemset before its last one are all kept. Where the
threshold is positive, a path with all of them has weight. -/
theorem mem_localItems (h : PatternTree full B Q os T) (hm : full ∨ 0 < m) (hx : x ∈ os)
    (hbase : entries.Perm (condBase x T)) (hlocal : LocalItems m entries os')
    (hX : HighUtility B m X) (hat : AtItem Q os x X) :
    ∀ z ∈ X, z ∉ insert x Q → z ∈ os' := by
  intro z hzX hz
  have hzmore : z ∈ X \ insert x Q := Finset.mem_sdiff.mpr ⟨hzX, hz⟩
  have hnonneg : ∀ e ∈ entries, 0 ≤ e.2 :=
    fun e he => (h.mem_condBase_inOrder (hbase.mem_iff.mp he)).2.2
  have hmass := hX.le.trans (h.le_mass_atItem hx hbase hat)
  have hentry : ∃ e ∈ entries, X \ insert x Q ⊆ e.1.toFinset := by
    rcases hm with hfull | hpos
    · exact h.entries_of_occurs hfull hx hbase hat.2 (eq_insert_union hat ▸ hX.occurs)
    · exact exists_of_mass_ne_zero _ (hpos.trans_le hmass).ne'
  rw [hlocal.mem_iff]
  constructor
  · obtain ⟨e, he, hsub⟩ := hentry
    exact ⟨e, he, List.mem_toFinset.mp (hsub hzmore)⟩
  · apply hmass.trans
    apply mass_le_mass hnonneg
    intro path hsub
    exact List.mem_toFinset.mp (hsub hzmore)

/-- The candidates of an item: the itemset itself, and those of its tree. -/
theorem candidates_cons (h : PatternTree full B Q os T) (hm : full ∨ 0 < m) (hx : x ∈ os)
    (hbase : entries.Perm (condBase x T)) (hlocal : LocalItems m entries os') {pre : List ItemId}
    (hpre : pre.Nodup) (hQ : pre.toFinset = Q) {cands : List (List ItemId)}
    (hcands : Candidates B m (Below (insert x Q) os') cands) :
    Candidates B m (AtItem Q os x) ((pre ++ [x]) :: cands) := by
  obtain ⟨hnodup, hitems⟩ := append_item hpre hQ (h.fresh x hx)
  have hbefore := h.before_localItems hbase hlocal
  have hfresh : ∀ y ∈ os', y ∉ insert x Q := by
    intro y hy hyQ
    obtain ⟨hyos, hlt⟩ := hbefore y (List.mem_toFinset.mpr hy)
    rcases Finset.mem_insert.mp hyQ with rfl | hyQ
    · exact lt_irrefl _ hlt
    · exact h.fresh y hyos hyQ
  have hself : Candidates B m (fun X => X = insert x Q) [pre ++ [x]] :=
    Lists.singleton (fun X hX => hX.2.trans hitems.symm)
      ⟨hnodup, hitems.symm ▸ h.occurs_item x hx, hitems⟩
  have happ := hself.append hcands fun X hX hbelow => ne_of_below hbelow hfresh hX
  refine Lists.mono happ ?_ ?_
  · rintro X ⟨hX, hat⟩
    refine ⟨hX, ?_⟩
    by_cases heq : X = insert x Q
    · exact Or.inl heq
    · exact Or.inr (below_of_subset hat.1 (h.mem_localItems hm hx hbase hlocal hX hat) heq)
  · rintro c - ⟨hc, hocc, hself | hbelow⟩
    · refine ⟨hc, hocc, hself ▸ subset_rfl, ?_⟩
      rw [hself, sdiff_self]
      exact before_empty os x
    · exact ⟨hc, hocc, hbelow.atItem hbefore⟩

end PatternTree

end Regions

end AirHuim
