import AirHuim.Mining.CandidateSearch

/-!
# How many nodes a tree miner needs

A path adds at most one node of an item to a tree, and the paths of a conditional tree
are the nodes of one item in the tree it comes from. So no tree of a run has more nodes
of an item than the database has rows, and each has fewer items than the one before.
The nodes of all trees that exist at one time are bounded by that.
-/

namespace AirHuim

open Library Basket NodeArena

/-- The nodes of all trees below one of so many items, roots included, if none has more
than `rows` nodes of an item. -/
def searchRoom (rows : ℕ) : ℕ → ℕ
  | 0 => 0
  | items + 1 => rows * items + 1 + searchRoom rows items

theorem searchRoom_mono (rows : ℕ) : Monotone (searchRoom rows) :=
  monotone_nat_of_le_succ fun items => Nat.le_add_left (searchRoom rows items) _

theorem two_mul_searchRoom (rows items : ℕ) :
    2 * searchRoom rows (items + 1) = (items + 1) * (rows * items + 2) := by
  induction items with
  | zero =>
    rw [searchRoom, searchRoom]
    ring
  | succ items ih =>
    rw [searchRoom, Nat.mul_add, ih]
    ring

/-- No item has more than `rows` nodes. -/
def Narrow (rows : ℕ) (T : Trie) : Prop := ∀ x, (T.countP fun e => e.1.head? = some x) ≤ rows

theorem Narrow.mono {rows rows' : ℕ} {T : Trie} (h : Narrow rows T) (hle : rows ≤ rows') :
    Narrow rows' T :=
  fun x => (h x).trans hle

theorem narrow_nil (rows : ℕ) : Narrow rows [] := fun _ => Nat.zero_le rows

section Paths

variable {ρ : Type*} {rows : List ρ} {path : ρ → List (ItemId × Utility)} {os : List ItemId}

/-- A path has one node for each of its items. -/
theorem map_head_pathAdds (q : List ItemId) (path : List (ItemId × Utility)) :
    (pathAdds q path).map (fun e => e.1.head?) = path.map fun e => some e.1 := by
  induction path generalizing q with
  | nil => rfl
  | cons e path ih => exact congrArg (some e.1 :: ·) (ih _)

theorem countP_pathAdds_le {path : List (ItemId × Utility)} (h : (path.map Prod.fst).Nodup)
    (x : ItemId) : ((pathAdds [] path).countP fun e => e.1.head? = some x) ≤ 1 := by
  have hheads : ((pathAdds [] path).countP fun e => e.1.head? = some x) =
      (path.map Prod.fst).count x := by
    have hmap : ((pathAdds [] path).countP fun e => e.1.head? = some x) =
        ((pathAdds [] path).map fun e => e.1.head?).countP (· = some x) := by
      rw [List.countP_map]
      rfl
    rw [hmap, map_head_pathAdds, List.countP_map, List.count, List.countP_map]
    exact List.countP_congr fun e _ => by simp
  rw [hheads]
  exact List.nodup_iff_count_le_one.mp h x

/-- Every path adds at most one node of an item. -/
theorem narrow_tally (hpath : ∀ r ∈ rows, ((path r).map Prod.fst).Nodup) :
    Narrow rows.length (tally [] (rows.flatMap fun r => pathAdds [] (path r))) := by
  intro x
  refine (countP_keys_tally_le (fun k : List ItemId => k.head? = some x) [] _).trans ?_
  rw [List.countP_nil, zero_add, List.countP_flatMap]
  refine (List.sum_le_card_nsmul _ 1 fun n hn => ?_).trans ?_
  · obtain ⟨r, hr, rfl⟩ := List.mem_map.mp hn
    exact countP_pathAdds_le (hpath r hr) x
  · simp

/-- The nodes are of the items of the paths, so there are no more than that many for each. -/
theorem length_tally_le (hpath : ∀ r ∈ rows, ((path r).map Prod.fst).Nodup)
    (hos : ∀ r ∈ rows, ∀ e ∈ path r, e.1 ∈ os) :
    (tally [] (rows.flatMap fun r => pathAdds [] (path r))).length ≤ rows.length * os.length := by
  set T := tally [] (rows.flatMap fun r => pathAdds [] (path r))
  have hnodup : T.Nodup :=
    List.Nodup.of_map Prod.fst (nodup_keys_tally (t := []) List.nodup_nil _)
  have hitems : ∀ e ∈ T.toFinset, e.1.head? ∈ (os.map some).toFinset := by
    intro e he
    have hkey := (mem_keys_tally _ _ _).mp (List.mem_map_of_mem (List.mem_toFinset.mp he))
    obtain ⟨e', he', heq⟩ := List.mem_map.mp (hkey.resolve_left List.not_mem_nil)
    obtain ⟨r, hr, he'⟩ := List.mem_flatMap.mp he'
    obtain ⟨y, hy, hhead⟩ := head_of_mem_pathAdds he'
    obtain ⟨p, hp, rfl⟩ := List.mem_map.mp hy
    rw [← heq, hhead, List.mem_toFinset]
    exact List.mem_map_of_mem (hos r hr p hp)
  have hnodes : ∀ k ∈ (os.map some).toFinset,
      (T.toFinset.filter fun e => e.1.head? = k).card ≤ rows.length := by
    intro k hk
    obtain ⟨x, -, rfl⟩ := List.mem_map.mp (List.mem_toFinset.mp hk)
    have hfilter : (T.toFinset.filter fun e => e.1.head? = some x) =
        (T.filter fun e => e.1.head? = some x).toFinset := by
      simp [List.toFinset_filter]
    rw [hfilter, List.toFinset_card_of_nodup (hnodup.filter _), ← List.countP_eq_length_filter]
    exact narrow_tally hpath x
  calc T.length
      = T.toFinset.card := (List.toFinset_card_of_nodup hnodup).symm
    _ ≤ rows.length * (os.map some).toFinset.card :=
        Finset.card_le_mul_card_image_of_maps_to hitems _ hnodes
    _ ≤ rows.length * os.length := by
        refine Nat.mul_le_mul_left _ ((List.toFinset_card_le _).trans ?_)
        rw [List.length_map]

end Paths

/-- There is room for the trees below one of `items` items in an arena of `size` nodes,
or running out of pointers is allowed. -/
def TreeRoom (E : Fault → Prop) (rows size items : ℕ) (T : Trie) : Prop :=
  E .overflow ∨ Narrow rows T ∧ size + searchRoom rows items ≤ nullPtr

section TreeRoom

variable {E : Fault → Prop} {rows size items : ℕ} {T : Trie}

/-- There is room for the next tree, and for those below it. -/
theorem TreeRoom.below (h : TreeRoom E rows size items T) {U : Trie} {items' : ℕ}
    (hlt : items' < items)
    (hU : Narrow rows T → Narrow rows U ∧ U.length ≤ rows * items') :
    (nullPtr ≤ size + U.length → E .overflow) ∧ TreeRoom E rows (size + 1 + U.length) items' U := by
  rcases h with hE | ⟨hT, hroom⟩
  · exact ⟨fun _ => hE, Or.inl hE⟩
  · obtain ⟨hnarrow, hlen⟩ := hU hT
    have hmono := searchRoom_mono rows (Nat.succ_le_of_lt hlt)
    have hstep : searchRoom rows (items' + 1) = rows * items' + 1 + searchRoom rows items' := rfl
    rw [Nat.succ_eq_add_one, hstep] at hmono
    exact ⟨fun hfull => by omega, Or.inr ⟨hnarrow, by omega⟩⟩

/-- The conditional tree of an item has at most a path for each of its nodes. -/
theorem TreeRoom.conditional (h : TreeRoom E rows size items T) {x : ItemId}
    {entries : List (List ItemId × Utility)} (hbase : entries.Perm (condBase x T))
    {os' : List ItemId} (hlt : os'.length < items) {arrange : List ItemId → List ItemId}
    (horder : ∀ e ∈ entries, InOrder os' (arrange e.1)) (keep : List ItemId × Utility → Bool)
    {U : Trie} (hU : U = tally [] ((entries.filter keep).flatMap fun e =>
      pathAdds [] ((arrange e.1).map fun y => (y, e.2)))) :
    (nullPtr ≤ size + U.length → E .overflow) ∧
      TreeRoom E rows (size + 1 + U.length) os'.length U := by
  refine h.below hlt fun hnarrow => ?_
  have hle : (entries.filter keep).length ≤ rows := by
    refine (List.length_filter_le _ _).trans ?_
    rw [hbase.length_eq, condBase, List.length_map, ← List.countP_eq_length_filter]
    exact hnarrow x
  have hpath : ∀ e ∈ entries.filter keep,
      InOrder os' (((arrange e.1).map fun y => (y, e.2)).map Prod.fst) := by
    intro e he
    rw [PatternTree.map_fst_const]
    exact horder e (List.mem_of_mem_filter he)
  have hnodup : ∀ e ∈ entries.filter keep,
      (((arrange e.1).map fun y => (y, e.2)).map Prod.fst).Nodup := fun e he => (hpath e he).nodup
  rw [hU]
  refine ⟨(narrow_tally hnodup).mono hle, (length_tally_le hnodup fun e he p hp => ?_).trans
    (Nat.mul_le_mul_right _ hle)⟩
  exact (hpath e he).mem p.1 (List.mem_map_of_mem hp)

/-- The global tree has at most a path for each row. -/
theorem TreeRoom.global {ρ : Type*} {rows : List ρ} {path : ρ → List (ItemId × Utility)}
    {os : List ItemId}
    (h : E .overflow ∨ searchRoom rows.length (os.length + 1) ≤ nullPtr)
    (hpath : ∀ r ∈ rows, InOrder os ((path r).map Prod.fst)) {T : Trie}
    (hT : T = tally [] (rows.flatMap fun r => pathAdds [] (path r))) :
    (nullPtr ≤ T.length → E .overflow) ∧ TreeRoom E rows.length (1 + T.length) os.length T := by
  have hroom : TreeRoom E rows.length 0 (os.length + 1) [] :=
    h.imp_right fun hle => ⟨narrow_nil _, (zero_add _).trans_le hle⟩
  have hnodup : ∀ r ∈ rows, ((path r).map Prod.fst).Nodup := fun r hr => (hpath r hr).nodup
  have hbelow := hroom.below (U := T) (Nat.lt_succ_self os.length) fun _ => by
    rw [hT]
    exact ⟨narrow_tally hnodup, length_tally_le hnodup fun r hr e he =>
      (hpath r hr).mem e.1 (List.mem_map_of_mem he)⟩
  rwa [zero_add, zero_add] at hbelow

end TreeRoom

/-! ## A database whose trees have room -/

/-- The number of distinct items of a database. -/
def itemCount (db : List SpmfRow) : ℕ :=
  (db.flatMap fun row => row.items.map ItemEntry.item).dedup.length

/-- A database has more rows than there are ids, or its trees may need more nodes than
there are pointers. -/
def OutOfRoom (db : List SpmfRow) : Prop :=
  2 ^ 32 ≤ db.length ∨ 2 * nullPtr < (itemCount db + 1) * (db.length * itemCount db + 2)

instance (db : List SpmfRow) : Decidable (OutOfRoom db) := inferInstanceAs (Decidable (_ ∨ _))

/-- A hundred thousand rows of two hundred items have room. -/
example : ¬ 2 * nullPtr < (200 + 1) * (100000 * 200 + 2) := by decide

variable {db : List SpmfRow} {m : Utility}

theorem length_promising_le (hwf : ∀ row ∈ db, row.WellFormed) :
    (promising m (itemTwus (numbered 0 db))).length ≤ itemCount db := by
  refine ((nodup_promising _ _).subperm fun y hy => ?_).length_le
  obtain ⟨hocc, -⟩ := (mem_promising_itemTwus (numbered_wellFormed hwf 0) m y).mp hy
  rw [map_basket_numbered] at hocc
  obtain ⟨row, hrow, hy⟩ := (occurs_map _ _ _).mp hocc
  obtain ⟨e, he, rfl⟩ := mem_basketOf.mp (Finset.singleton_subset_iff.mp hy)
  rw [List.mem_dedup]
  exact List.mem_flatMap.mpr ⟨row, hrow, List.mem_map_of_mem he⟩

/-- A database that is not out of room has room for all trees. -/
theorem outOfRoom_or (hwf : ∀ row ∈ db, row.WellFormed) {os : List ItemId}
    (hos : os.length = (promising m (itemTwus (numbered 0 db))).length) :
    OutOfRoom db ∨ searchRoom (numbered 0 db).length (os.length + 1) ≤ nullPtr := by
  by_cases hroom : 2 * nullPtr < (itemCount db + 1) * (db.length * itemCount db + 2)
  · exact Or.inl (Or.inr hroom)
  · have hcount := length_promising_le (m := m) hwf
    have hmono : searchRoom db.length (_ + 1) ≤ searchRoom db.length (itemCount db + 1) :=
      searchRoom_mono db.length (Nat.succ_le_succ hcount)
    rw [← two_mul_searchRoom] at hroom
    rw [length_numbered, hos]
    exact Or.inr (hmono.trans (by omega))

end AirHuim
