import AirHuim.Mining.Algorithms.UpGrowth

/-!
# The search over prefix utilities

UP-Growth and UP-Growth+ differ in how they prepare the paths of an item for its
conditional tree. For any preparation that keeps the promising items, puts every
path in their order and leaves out only paths that weigh nothing, the search of
an item finds the candidates that have it as their last, and a run is exact.
-/

namespace AirHuim

open Library Basket NodeArena

namespace UpGrowth

/-- What a miner makes of the paths of an item: the items of the conditional tree,
with their weights, and what is inserted into it. -/
abbrev Prepare := Utility → List (List ItemId × Utility) →
  Except Fault (List (ItemId × Utility) × List (List (ItemId × Utility)))

/-- The same, with the weights of the items at hand. -/
abbrev PrepareBy := Utility → Table ItemId Utility → List (List ItemId × Utility) →
  Except Fault (List (ItemId × Utility) × List (List (ItemId × Utility)))

/-- A preparation adds up the weights and goes on with them. -/
def PrepareBy.prepare (prepareBy : PrepareBy) : Prepare := fun minUtil cpb =>
  prepareBy minUtil (localTwu cpb) cpb

/-- The conditional tree of an item, and the search in it. -/
def mineCondWith (prepare : Prepare)
    (descend : UpTree → List ItemId → ItemId → Found → ArenaM Found) (minUtil : Utility)
    (tree : UpTree) (entry : HeaderEntry) (newPre : List ItemId) (found : Found) :
    ArenaM Found := do
  let a ← get
  let entries ← readChain tree.root a.nextNodePtr entry.head
  let cpb := condPaths entries
  let (valid, paths) ← (prepare minUtil cpb : Except Fault _)
  let a ← get
  let localTree ← UpTree.new
  let localTree := localTree.withItems valid
  let guard := (found.guard.forceAlloc (cpb.length * 16)).forceAlloc localTree.headerBytes
  let localTree' ← localTree.insertPaths paths
  let found ← mineAll (descend localTree' newPre) (tasks localTree'.headerTable)
    { found with guard }
  release a.nextNodePtr
  return { found with guard := (found.guard.free localTree.headerBytes).free (cpb.length * 16) }

def mineUpTreeWith (prepare : Prepare) (minUtil : Utility) :
    ℕ → UpTree → List ItemId → ItemId → Found → ArenaM Found
  | 0, _, _, _, _ => throw .stuck
  | fuel + 1, tree, pre, item, found =>
      match tree.headerTable.lookup item with
      | none => throw .panic
      | some entry => do
          let a ← get
          let itemUtil ← sumChain a.nextNodePtr entry.head 0
          if minUtil ≤ itemUtil then
            mineCondWith prepare (mineUpTreeWith prepare minUtil fuel) minUtil tree entry
              (pre ++ [item]) { found with candidates := found.candidates ++ [pre ++ [item]] }
          else return found

/-- Phases 1 to 3: the candidates, and the footprint of the global header. -/
def phasesWith (prepare : Prepare) (txs : List RawTransaction) (minUtil : Utility)
    (guard : MemoryGuard) : ArenaM (Found × ℕ) := do
  let valid := validItems minUtil (itemTwus txs)
  let tree ← UpTree.new
  let tree := tree.withItems valid
  let tree' ← tree.insertPaths ((txs.map (treePath tree.headerTable)).filter fun path => path ≠ [])
  let found ← mineAll (mineUpTreeWith prepare minUtil (valid.length + 1) tree' [])
    (tasks tree'.headerTable) ⟨[], guard.forceAlloc tree.headerBytes⟩
  return (found, tree.headerBytes)

/-- A run with its phases: the count it returns and the world it leaves. -/
def runWith (prepare : Prepare) (order : SetOrder) (source : DataSource) (ctx : MiningContext) :
    Except Fault (ℕ × World) := do
  let txs ← allTransactions source
  let ((found, headerBytes), arena) ←
    phasesWith prepare txs ctx.minUtility ctx.world.guard (.new ctx.world.pool)
  let phuis := distinctPhuis order found.candidates
  let phuisBytes := (phuis.map fun c => c.length * 8).sum
  let finalTasks := resultTasks ctx.minUtility txs phuis
  let w ← executeTasks ctx
    { ctx.world with pool := arena.pool, guard := found.guard.forceAlloc phuisBytes }
    (finalTasks.map fun l => Task.writeAndCount l.1 l.2)
  return (finalTasks.length, { w with guard := (w.guard.free headerBytes).free phuisBytes })

/-- A hash set that yields its elements in the order in which it got them. -/
def SetOrder.stored : SetOrder := ⟨fun elems => elems, fun _ => List.Perm.refl _⟩

/-! ## The search -/

section Search

variable {full : Prop} {B : List (Basket ItemId)} {m : Utility} {Q : Finset ItemId}
  {os : List ItemId} {T : Trie} {tree : UpTree} {ns : List TreeNode} {a : NodeArena} {x : ItemId}
  {pre : List ItemId} {e : HeaderEntry} {entries : List (List ItemId × Utility)}

theorem sumChain_spec {E : Fault → Prop} {root : ℕ} (ha : a.Holds ns) (h : IsTree ns root T)
    {es : Trie} (hes : ∀ e ∈ es, e ∈ T) {start : ℕ} (hlinked : Linked ns TreeNode.nodeLink start
      (es.map fun e => ptrOf root (T.map Prod.fst) e.1)) {fuel : ℕ} (hfuel : es.length < fuel)
    (itemUtil : Utility) :
    Runs E (sumChain fuel start itemUtil) a fun u a' =>
      u = itemUtil + (es.map Prod.snd).sum ∧ a'.Holds ns := by
  induction es generalizing start fuel a itemUtil with
  | nil =>
    obtain ⟨fuel, rfl⟩ : ∃ n, fuel = n + 1 := ⟨fuel - 1, by omega⟩
    have hstart : start = nullPtr := hlinked
    unfold sumChain
    rw [if_pos hstart]
    exact Runs.pure ⟨(add_zero _).symm, ha⟩
  | cons e es ih =>
    obtain ⟨fuel, rfl⟩ : ∃ n, fuel = n + 1 := ⟨fuel - 1, by omega⟩
    have hkey : e.1 ∈ T.map Prod.fst := List.mem_map_of_mem (hes e List.mem_cons_self)
    obtain ⟨y, q, heq, -⟩ := h.keys.exists_cons hkey
    obtain ⟨rfl, n, hn, hrest⟩ := hlinked
    obtain ⟨n', hn', -, hweight, -⟩ := h.node e (hes e List.mem_cons_self) y q heq
    obtain rfl : n = n' := Option.some.inj (hn.symm.trans hn')
    have hnull : ptrOf root (T.map Prod.fst) e.1 ≠ nullPtr :=
      ((h.ptrOf_lt (Or.inr hkey)).trans_le h.small).ne
    unfold sumChain
    rw [if_neg hnull]
    refine Runs.bind (getNode_spec ha hn) ?_
    rintro _ a₁ ⟨rfl, ha₁⟩
    refine (ih ha₁ (fun e he => hes e (List.mem_cons_of_mem _ he)) hrest
      (Nat.lt_of_succ_lt_succ hfuel) _).mono ?_
    rintro _ a₂ ⟨rfl, ha₂⟩
    refine ⟨?_, ha₂⟩
    rw [hweight, List.map_cons, List.sum_cons, add_assoc]

/-- The nodes of an item, as its header entry has them. -/
theorem linked_head (h : tree.Holds ns os T) (he : tree.headerTable.lookup x = some e) :
    Linked ns TreeNode.nodeLink e.head ((T.filter fun e => e.1.head? = some x).map fun e =>
      ptrOf tree.root (T.map Prod.fst) e.1) ∧
      (T.filter fun e => e.1.head? = some x).length < ns.length := by
  have hlinked := (h.links x e he).1
  rw [ptrsOf_map_fst] at hlinked
  have hle := List.length_filter_le (fun e : List ItemId × Utility => e.1.head? = some x) T
  have hsize := h.isTree.size
  exact ⟨hlinked, by omega⟩

/-- The items of the conditional tree of an item, in its order. -/
abbrev localOrder (m : Utility) (entries : List (List ItemId × Utility)) : List ItemId :=
  (validItems m (localTwu (condPaths entries))).map Prod.fst

theorem localOrder_spec (h : PatternTree full B Q os T) (hbase : entries.Perm (condBase x T)) :
    LocalItems m entries (localOrder m entries) := by
  refine localItems_of_perm
    (fun _ he => (h.mem_condBase_inOrder (hbase.mem_iff.mp he)).1.nodup) ?_
  rw [localOrder, map_fst_validItems]
  exact sortByKey_perm _ _

/-- A path of the conditional tree. -/
def arrange (m : Utility) (entries : List (List ItemId × Utility)) (path : List ItemId) :
    List ItemId :=
  sortByKey (byTwu (localTwu (condPaths entries))) (path.filter fun i => i ∈ localOrder m entries)

theorem inOrder_arrange {path : List ItemId} (h : path.Nodup) :
    InOrder (localOrder m entries) (arrange m entries path) := by
  refine inOrder_of_key (byTwu (localTwu (condPaths entries))) ?_ (fun y hy => ?_)
    (pairwise_sortByKey_byTwu _ (h.filter _))
  · rw [localOrder, map_fst_validItems]
    exact pairwise_sortByKey_byTwu _ (nodup_promising _ _)
  · rw [arrange, mem_sortByKey, List.mem_filter] at hy
    exact of_decide_eq_true hy.2

/-- A preparation of the paths of an item that loses no weight, and no path at all
if the trees are to be full. -/
structure Prepared (full : Prop) (m : Utility) (entries : List (List ItemId × Utility))
    (result : List (ItemId × Utility) × List (List (ItemId × Utility))) : Prop where
  items : result.1 = validItems m (localTwu (condPaths entries))
  known : ∀ path ∈ result.2, ∀ e ∈ path, e.1 ∈ localOrder m entries
  adds : ∃ keep : List ItemId × Utility → Bool, (∀ e ∈ entries, keep e = false → e.2 = 0) ∧
    (full → ∀ e ∈ entries, keep e = true) ∧ result.2.flatMap (pathAdds []) =
      (entries.filter keep).flatMap fun e =>
        pathAdds [] ((arrange m entries e.1).map fun y => (y, e.2))

/-- It does so with the paths of every item. -/
def Prepares (full : Prop) (m : Utility) (prepare : Prepare) : Prop :=
  ∀ entries, (∀ e ∈ entries, e.1.Nodup ∧ 0 ≤ e.2) →
    ∃ result, prepare m (condPaths entries) = .ok result ∧ Prepared full m entries result

/-- The search of an item in a tree of at most `fuel` items, with room for those below. -/
def SearchesFor (E : Fault → Prop) (rows : ℕ) (full : Prop) (m : Utility)
    (B : List (Basket ItemId)) (fuel : ℕ)
    (descend : UpTree → List ItemId → ItemId → Found → ArenaM Found) : Prop :=
  ∀ {a ns tree os T Q pre x}, NodeArena.Holds a ns → UpTree.Holds ns tree os T →
    PatternTree full B Q os T → TreeRoom E rows ns.length os.length T → x ∈ os → pre.Nodup →
      pre.toFinset = Q → os.length ≤ fuel → ∀ found,
        Runs E (descend tree pre x found) a (Finds ns B m (AtItem Q os x) found)

variable {prepare : Prepare} {fuel rows : ℕ} {E : Fault → Prop}
  {descend : UpTree → List ItemId → ItemId → Found → ArenaM Found}

/-- The search in the conditional tree of an item. -/
theorem mineCondWith_spec (hprep : Prepares full m prepare)
    (hdesc : SearchesFor E rows full m B fuel descend) (hfuel : os.length ≤ fuel + 1)
    (ha : a.Holds ns) (htree : tree.Holds ns os T) (h : PatternTree full B Q os T)
    (hroom : TreeRoom E rows ns.length os.length T) (hx : x ∈ os)
    (he : tree.headerTable.lookup x = some e) {newPre : List ItemId} (hpre : newPre.Nodup)
    (hQ : newPre.toFinset = insert x Q) (found : Found) :
    Runs E (mineCondWith prepare descend m tree e newPre found) a
      (Finds ns B m (Below (insert x Q) (localOrder m (condBase x T))) found) := by
  have hbase : (condBase x T).Perm (condBase x T) := List.Perm.refl _
  have hlocal := localOrder_spec (m := m) h hbase
  have hlt := h.length_localItems_lt hx hbase hlocal
  have hless := Nat.le_of_lt_succ (hlt.trans_le hfuel)
  obtain ⟨⟨_, paths⟩, hprepare, rfl, hknown, keep, hkeep, hall, hadds⟩ :=
    hprep (condBase x T) fun e he =>
      ⟨(h.mem_condBase_inOrder he).1.nodup, (h.mem_condBase_inOrder he).2.2⟩
  have horder : ∀ e ∈ condBase x T,
      InOrder (localOrder m (condBase x T)) (arrange m (condBase x T) e.1) :=
    fun e he => inOrder_arrange (h.mem_condBase_inOrder he).1.nodup
  have hcond := h.conditional hx hbase hlocal (arrange m (condBase x T))
    (fun _ _ => sortByKey_perm _ _) horder keep hkeep hall
  rw [← hadds] at hcond
  obtain ⟨hfull, hroom'⟩ := hroom.conditional hbase hlt horder keep
    (U := tally [] (paths.flatMap (pathAdds []))) (by rw [hadds])
  obtain ⟨hlinked, hlen⟩ := linked_head htree he
  unfold mineCondWith
  refine Runs.get_bind ?_
  refine Runs.bind (readChain_spec ha htree.isTree (fun e he => List.mem_of_mem_filter he) hlinked
    (ha.next ▸ hlen)) ?_
  rintro entries a₁ ⟨hentries, ha₁⟩
  have hentries : entries = condBase x T := hentries
  rw [hentries]
  refine Runs.bind (Q := fun b s => b = (_, paths) ∧ s = a₁) (Runs.lift hprepare ⟨rfl, rfl⟩) ?_
  rintro b s ⟨hb, hs⟩
  rw [hb, hs]
  refine Runs.get_bind ?_
  refine Runs.bind (new_spec ha₁ m (localTwu (condPaths (condBase x T)))
    fun hlen => hfull (hlen.trans (Nat.le_add_right _ _))) ?_
  rintro _ a₂ ⟨rfl, ns', ha₂, hnew, hbelow⟩
  refine Runs.bind (insertPaths_spec ha₂ hnew hbelow rfl hknown hfull) ?_
  rintro localTree a₃ ⟨ns'', ha₃, htake, hsize, hlocalTree⟩
  rw [← hsize] at hroom'
  have hsearch := mineAll_below hcond ha₃ (tasks_perm hlocalTree hcond.nodup)
    (fun y hy a found ha => hdesc ha hlocalTree hcond hroom' hy hpre hQ hless found)
  refine Runs.bind (hsearch _) ?_
  rintro found' a₄ ⟨ha₄, hfound⟩
  rw [ha₁.next]
  refine Runs.bind (release_spec ha₄ (by omega)) ?_
  intro _ a₅ ha₅
  exact Runs.pure ⟨htake ▸ ha₅, hfound⟩

/-- The search of an item. -/
theorem mineUpTreeWith_spec (hm : full ∨ 0 < m) (hprep : Prepares full m prepare) (fuel : ℕ) :
    SearchesFor E rows full m B fuel (mineUpTreeWith prepare m fuel) := by
  induction fuel with
  | zero =>
    intro a ns tree os T Q pre x _ _ _ _ hx _ _ hfuel
    rw [List.length_eq_zero_iff.mp (Nat.le_zero.mp hfuel)] at hx
    exact (List.not_mem_nil hx).elim
  | succ fuel ih =>
    intro a ns tree os T Q pre x ha htree h hroom hx hpre hQ hfuel found
    obtain ⟨e, he⟩ := Option.isSome_iff_exists.mp ((htree.known x).mpr hx)
    obtain ⟨hlinked, hlen⟩ := linked_head htree he
    have hbase : (condBase x T).Perm (condBase x T) := List.Perm.refl _
    unfold mineUpTreeWith
    rw [he]
    refine Runs.get_bind ?_
    refine Runs.bind (sumChain_spec ha htree.isTree (fun e he => List.mem_of_mem_filter he)
      hlinked (ha.next ▸ hlen) 0) ?_
    rintro itemUtil a₁ ⟨hutil, ha₁⟩
    have hutil : itemUtil = ((condBase x T).map Prod.snd).sum := by
      rw [hutil, zero_add, condBase, List.map_map]
      rfl
    by_cases hle : m ≤ itemUtil
    · rw [if_pos hle]
      obtain ⟨hpre', hQ'⟩ := append_item hpre hQ (h.fresh x hx)
      refine (mineCondWith_spec hprep ih hfuel ha₁ htree h hroom hx he hpre' hQ' _).mono ?_
      rintro found' a₂ ⟨ha₂, cands, heq, hcands⟩
      refine ⟨ha₂, (pre ++ [x]) :: cands, ?_, ?_⟩
      · rw [heq, List.append_assoc, List.singleton_append]
      · exact h.candidates_cons hm hx hbase (localOrder_spec h hbase) hpre hQ hcands
    · rw [if_neg hle]
      refine Runs.pure ⟨ha₁, [], (List.append_nil _).symm, h.candidates_nil hx hbase ?_⟩
      rw [← hutil]
      exact not_le.mp hle

end Search

/-! ## The global tree -/

section Global

variable {txs : List RawTransaction} {m : Utility} {tx : RawTransaction}

theorem map_fst_withNu (items : List (ItemId × Utility)) :
    (withNu items).map Prod.fst = items.map Prod.fst := by
  rw [withNu, List.map_map]
  have hfst : Prod.fst ∘ (fun p : (ItemId × Utility) × ℕ =>
      (p.1.1, ((items.take (p.2 + 1)).map Prod.snd).sum)) = Prod.fst ∘ Prod.fst := rfl
  rw [hfst, ← List.map_map, List.zipIdx_map_fst]

theorem mem_withNu {items : List (ItemId × Utility)} {e : ItemId × Utility}
    (he : e ∈ withNu items) : ∃ i u, items[i]? = some (e.1, u) ∧
      e.2 = ((items.take (i + 1)).map Prod.snd).sum := by
  obtain ⟨⟨a, i⟩, hmem, rfl⟩ := List.mem_map.mp he
  exact ⟨i, a.2, List.mem_zipIdx_iff_getElem?.mp hmem, rfl⟩

/-- The items of the global tree, in its order. -/
abbrev globalOrder (m : Utility) (txs : List RawTransaction) : List ItemId :=
  (validItems m (itemTwus txs)).map Prod.fst

/-- The header of the global tree before any transaction. -/
abbrev globalHeader (m : Utility) (txs : List RawTransaction) (root : ℕ) : Header :=
  (UpTree.withItems ⟨∅, root⟩ (validItems m (itemTwus txs))).headerTable

theorem mem_globalOrder (m : Utility) (txs : List RawTransaction) (y : ItemId) :
    y ∈ globalOrder m txs ↔ y ∈ promising m (itemTwus txs) := by
  rw [globalOrder, map_fst_validItems, mem_sortByKey]

theorem length_globalOrder (m : Utility) (txs : List RawTransaction) :
    (globalOrder m txs).length = (validItems m (itemTwus txs)).length :=
  List.length_map _

theorem nodup_globalOrder (m : Utility) (txs : List RawTransaction) :
    (globalOrder m txs).Nodup := by
  rw [globalOrder, map_fst_validItems]
  exact (sortByKey_perm _ _).nodup_iff.mpr (nodup_promising _ _)

theorem mem_globalHeader (m : Utility) (txs : List RawTransaction) (root : ℕ) (y : ItemId) :
    y ∈ globalHeader m txs root ↔ y ∈ globalOrder m txs := by
  rw [← AList.lookup_isSome, globalHeader, lookup_withItems]
  split_ifs with hy <;> simp [hy]

theorem mem_filteredItems {root : ℕ} {e : ItemId × Utility} :
    e ∈ filteredItems (globalHeader m txs root) tx ↔
      e.1 ∈ globalOrder m txs ∧ ⟨e.1, e.2⟩ ∈ tx.items := by
  rw [filteredItems, mem_sortByKey, List.mem_map]
  constructor
  · rintro ⟨e, he, rfl⟩
    obtain ⟨he, hmem⟩ := List.mem_filter.mp he
    exact ⟨(mem_globalHeader m txs root _).mp (of_decide_eq_true hmem), he⟩
  · rintro ⟨hmem, he⟩
    exact ⟨⟨e.1, e.2⟩, List.mem_filter.mpr
      ⟨he, decide_eq_true ((mem_globalHeader m txs root _).mpr hmem)⟩, rfl⟩

/-- The filtered items are in the order of the tree. -/
theorem inOrder_filteredItems (htx : tx.WellFormed) (root : ℕ) :
    InOrder (globalOrder m txs) ((filteredItems (globalHeader m txs root) tx).map Prod.fst) := by
  have hmem : ∀ y ∈ (filteredItems (globalHeader m txs root) tx).map Prod.fst,
      y ∈ globalOrder m txs := by
    intro y hy
    obtain ⟨e, he, rfl⟩ := List.mem_map.mp hy
    exact (mem_filteredItems.mp he).1
  refine inOrder_of_key (byTwu (itemTwus txs)) ?_ hmem ?_
  · rw [globalOrder, map_fst_validItems]
    exact pairwise_sortByKey_byTwu _ (nodup_promising _ _)
  · rw [List.pairwise_map]
    have hdistinct : (((tx.items.filter fun e => e.item ∈ globalHeader m txs root).map fun e =>
        (e.item, e.utility)).map fun e : ItemId × Utility => (toLex (OrderDual.toDual
          ((((globalHeader m txs root).lookup e.1).map HeaderEntry.twu).getD 0), e.1) :
            Utilityᵒᵈ ×ₗ ItemId)).Nodup := by
      rw [List.map_map]
      refine List.Nodup.of_map (fun p : Utilityᵒᵈ ×ₗ ItemId => (ofLex p).2) ?_
      rw [List.map_map]
      exact htx.distinct.sublist (List.filter_sublist.map _)
    refine (pairwise_sortByKey_lt _ hdistinct).imp_of_mem ?_
    intro a b ha hb hlt
    have hkey : ∀ e ∈ filteredItems (globalHeader m txs root) tx,
        (((globalHeader m txs root).lookup e.1).map HeaderEntry.twu).getD 0 =
          ((itemTwus txs).lookup e.1).getD 0 := by
      intro e he
      rw [globalHeader, lookup_withItems, if_pos (mem_filteredItems.mp he).1]
      rfl
    rw [hkey a ha, hkey b hb] at hlt
    exact hlt

theorem inOrder_treePath (htx : tx.WellFormed) (root : ℕ) :
    InOrder (globalOrder m txs) ((treePath (globalHeader m txs root) tx).map Prod.fst) := by
  rw [treePath, map_fst_withNu]
  exact inOrder_filteredItems htx root

/-- The entries of a path down to one of its items have all the items before it. -/
theorem subset_take {l : List (ItemId × Utility)} {os : List ItemId}
    (horder : InOrder os (l.map Prod.fst)) {i : ℕ} {x : ItemId} {u : Utility}
    (hi : l[i]? = some (x, u)) {Z : Finset ItemId} (hZ : Before os x Z)
    (hsub : ∀ z ∈ Z, z ∈ l.map Prod.fst) :
    insert x Z ⊆ ((l.take (i + 1)).map Prod.fst).toFinset := by
  have htake : ∀ j v, l[j]? = some v → j ≤ i → v ∈ l.take (i + 1) := by
    intro j v hj hji
    apply List.mem_of_getElem? (i := j)
    rw [List.getElem?_take, if_pos (by omega)]
    exact hj
  intro z hz
  rw [List.mem_toFinset]
  rcases Finset.mem_insert.mp hz with rfl | hz
  · exact List.mem_map.mpr ⟨_, htake i _ hi le_rfl, rfl⟩
  · obtain ⟨v, hv, rfl⟩ := List.mem_map.mp (hsub z hz)
    obtain ⟨j, hj⟩ := List.mem_iff_getElem?.mp hv
    refine List.mem_map.mpr ⟨v, htake j v hj ?_, rfl⟩
    by_contra hgt
    obtain ⟨hilt, hix⟩ := List.getElem?_eq_some_iff.mp hi
    obtain ⟨hjlt, hjv⟩ := List.getElem?_eq_some_iff.mp hj
    have hlater := List.pairwise_iff_getElem.mp (List.pairwise_map.mp horder.sorted) i j hilt hjlt
      (not_le.mp hgt)
    rw [hix, hjv] at hlater
    exact lt_asymm hlater (hZ _ hz).2

/-- Some of the filtered items are worth what their entries say. -/
theorem gain_filteredItems (htx : tx.WellFormed) {root : ℕ} {part : List (ItemId × Utility)}
    (hpart : part.Sublist (filteredItems (globalHeader m txs root) tx)) :
    tx.basket.gain (part.map Prod.fst).toFinset = (part.map Prod.snd).sum := by
  have hnodup : (part.map Prod.fst).Nodup :=
    (inOrder_filteredItems htx root).nodup.sublist (hpart.map Prod.fst)
  have hsum : tx.basket.gain (part.map Prod.fst).toFinset =
      ((part.map Prod.fst).map tx.basket.util).sum := List.sum_toFinset _ hnodup
  rw [hsum, List.map_map]
  congr 1
  apply List.map_congr_left
  intro e he
  exact util_basketOf htx.distinct (mem_filteredItems.mp (hpart.subset he)).2

theorem condTree_global (hwf : ∀ tx ∈ txs, tx.WellFormed) (root : ℕ) :
    CondTree (txs.map RawTransaction.basket) ∅ (globalOrder m txs)
      (tally [] (txs.flatMap fun tx => pathAdds [] (treePath (globalHeader m txs root) tx))) := by
  have hsub : ∀ tx ∈ txs, ∀ part : List (ItemId × Utility),
      part.Sublist (filteredItems (globalHeader m txs root) tx) →
        (part.map Prod.fst).toFinset ⊆ tx.basket.items := by
    intro tx _ part hpart y hy
    obtain ⟨e, he, rfl⟩ := List.mem_map.mp (List.mem_toFinset.mp hy)
    exact mem_basketOf.mpr ⟨_, (mem_filteredItems.mp (hpart.subset he)).2, rfl⟩
  have hitems : ∀ tx : RawTransaction, ∀ y,
      y ∈ (filteredItems (globalHeader m txs root) tx).map Prod.fst ↔
        y ∈ tx.basket.items ∧ y ∈ globalOrder m txs := by
    intro tx y
    constructor
    · intro hy
      obtain ⟨e, he, rfl⟩ := List.mem_map.mp hy
      obtain ⟨hmem, he⟩ := mem_filteredItems.mp he
      exact ⟨mem_basketOf.mpr ⟨_, he, rfl⟩, hmem⟩
    · rintro ⟨hy, hmem⟩
      obtain ⟨e, he, rfl⟩ := mem_basketOf.mp hy
      exact List.mem_map.mpr ⟨(e.item, e.utility), mem_filteredItems.mpr ⟨hmem, he⟩, rfl⟩
  apply condTree_of_transactions (nodup_globalOrder m txs)
  · intro x hx
    exact ((mem_promising_itemTwus hwf m x).mp ((mem_globalOrder m txs x).mp hx)).1
  · exact fun tx htx => inOrder_treePath (hwf tx htx) root
  · intro tx _ y
    rw [treePath, map_fst_withNu]
    exact hitems tx y
  · intro tx htx e he
    obtain ⟨i, u, -, heq⟩ := mem_withNu he
    have hpart := List.take_sublist (i + 1) (filteredItems (globalHeader m txs root) tx)
    rw [heq, ← gain_filteredItems (hwf tx htx) hpart]
    exact gain_nonneg (nonneg_basketOf (hwf tx htx).nonneg) (hsub tx htx _ hpart)
  · intro tx htx e he Z hZ hX
    obtain ⟨i, u, hi, heq⟩ := mem_withNu he
    have hpart := List.take_sublist (i + 1) (filteredItems (globalHeader m txs root) tx)
    rw [heq, ← gain_filteredItems (hwf tx htx) hpart]
    refine gain_le_gain (nonneg_basketOf (hwf tx htx).nonneg) ?_ (hsub tx htx _ hpart)
    refine subset_take (inOrder_filteredItems (hwf tx htx) root) hi hZ fun z hz => ?_
    exact (hitems tx z).mpr ⟨hX (Finset.mem_insert_of_mem hz), (hZ z hz).1⟩

/-- The paths that are inserted have promising items only. -/
theorem mem_treePaths {root : ℕ} {path : List (ItemId × Utility)} {e : ItemId × Utility}
    (hpath : path ∈ (txs.map (treePath (globalHeader m txs root))).filter fun path => path ≠ [])
    (he : e ∈ path) : e.1 ∈ globalOrder m txs := by
  obtain ⟨tx, -, rfl⟩ := List.mem_map.mp (List.mem_of_mem_filter hpath)
  obtain ⟨i, u, hi, -⟩ := mem_withNu he
  exact (mem_filteredItems.mp (List.mem_of_getElem? hi)).1

/-- Transactions without promising items add nothing. -/
theorem flatMap_treePaths (header : Header) (txs : List RawTransaction) :
    ((txs.map (treePath header)).filter fun path => path ≠ []).flatMap (pathAdds []) =
      txs.flatMap fun tx => pathAdds [] (treePath header tx) := by
  rw [flatMap_filter_eq, List.flatMap_map]
  intro path _ hpath
  have hpath : path = [] := by simpa using hpath
  rw [hpath]
  rfl

/-- The candidates of the global tree. -/
theorem phasesWith_spec {E : Fault → Prop} {full : Prop} {prepare : Prepare} (hm : full ∨ 0 < m)
    (hprep : Prepares full m prepare) (hwf : ∀ tx ∈ txs, tx.WellFormed)
    (hroom : E .overflow ∨ searchRoom txs.length ((globalOrder m txs).length + 1) ≤ nullPtr)
    {pool : PagePool} (hpool : ∀ n, pool.fails n = false) (guard : MemoryGuard) :
    Runs E (phasesWith prepare txs m guard) (.new pool) fun result _ =>
      Candidates (txs.map RawTransaction.basket) m (Below ∅ (globalOrder m txs))
        result.1.candidates := by
  have horder : ∀ tx ∈ txs, InOrder (globalOrder m txs)
      ((treePath (globalHeader m txs 0) tx).map Prod.fst) :=
    fun tx htx => inOrder_treePath (hwf tx htx) 0
  obtain ⟨hfull, hroom⟩ := TreeRoom.global hroom horder rfl
  rw [← flatMap_treePaths] at hfull hroom
  unfold phasesWith
  refine Runs.bind (new_spec (holds_new hpool) m (itemTwus txs)
    fun hlen => hfull (hlen.trans (Nat.zero_le _))) ?_
  rintro _ a₁ ⟨rfl, ns, ha₁, hnew, hbelow⟩
  refine Runs.bind (insertPaths_spec ha₁ hnew hbelow rfl
    (fun path hpath e he => mem_treePaths hpath he) (by rwa [List.length_nil, zero_add])) ?_
  rintro tree a₂ ⟨ns', ha₂, -, hsize, htree⟩
  rw [List.length_nil, zero_add] at hsize
  rw [← hsize] at hroom
  rw [flatMap_treePaths] at htree hroom
  have hcond : PatternTree full _ _ _ _ :=
    (condTree_global (m := m) hwf (List.length ([] : List TreeNode))).pattern
  have hlen : (globalOrder m txs).length ≤ (validItems m (itemTwus txs)).length + 1 := by
    rw [length_globalOrder]
    omega
  have hsearch : SearchesFor E txs.length full m (txs.map RawTransaction.basket) _ _ :=
    mineUpTreeWith_spec hm hprep ((validItems m (itemTwus txs)).length + 1)
  refine Runs.bind (mineAll_below hcond ha₂ (tasks_perm htree hcond.nodup)
    (fun x hx a found ha => hsearch ha htree hcond hroom hx List.nodup_nil rfl hlen found) _) ?_
  rintro found a₃ ⟨-, cands, heq, hcands⟩
  refine Runs.pure ?_
  rw [heq]
  exact hcands

end Global

/-! ## The run -/

section Run

variable {db : List SpmfRow} {prepare : Prepare} (ctx : MiningContext) (order : SetOrder)

/-- Sorting the candidates and collecting them in a set loses none. -/
theorem candidates_distinctPhuis {B : List (Basket ItemId)} {m : Utility}
    {R : Finset ItemId → Prop} {cands : List (List ItemId)} (h : Candidates B m R cands) :
    Candidates B m R (distinctPhuis order cands) := by
  have hsorted : ∀ c : List ItemId, (sortByKey id c).toFinset = c.toFinset :=
    fun c => List.toFinset_eq_of_perm _ _ (sortByKey_perm id c)
  have hkeys : (cands.map (sortByKey id)).map List.toFinset = cands.map List.toFinset := by
    rw [List.map_map]
    exact List.map_congr_left fun c _ => hsorted c
  have hsets : Candidates B m R (cands.map (sortByKey id)) := by
    refine ⟨hkeys ▸ h.nodup, fun X hX => hkeys ▸ h.complete X hX, fun c hc => ?_⟩
    obtain ⟨c', hc', rfl⟩ := List.mem_map.mp hc
    rw [hsorted, (sortByKey_perm id c').nodup_iff]
    exact h.sound c' hc'
  have hdistinct : (cands.map (sortByKey id)).dedup = cands.map (sortByKey id) :=
    (List.Nodup.of_map _ hsets.nodup).dedup
  refine Lists.perm hsets ?_
  rw [distinctPhuis, hdistinct]
  exact (order.perm _).symm

/-- A run ends with the exact output and its length, or with an overflow of its counters,
if the database may not have room. -/
theorem runWith_spec {full : Prop} (hm : full ∨ 0 < ctx.minUtility)
    (hprep : Prepares full ctx.minUtility prepare) (hwf : ∀ row ∈ db, row.WellFormed)
    (hpool : ∀ n, ctx.world.pool.fails n = false) :
    (∀ e, runWith prepare order (db.map .ok) ctx = .error e → e = .overflow ∧ OutOfRoom db) ∧
      ∀ count w, runWith prepare order (db.map .ok) ctx = .ok (count, w) →
        ExactOutput db ctx.minUtility w.lines ∧ count = w.lines.length := by
  have hitems : (globalOrder ctx.minUtility (numbered 0 db)).length =
      (promising ctx.minUtility (itemTwus (numbered 0 db))).length := by
    rw [globalOrder, map_fst_validItems, (sortByKey_perm _ _).length_eq]
  obtain ⟨hok, herror⟩ := phasesWith_spec (E := fun e => e = .overflow ∧ OutOfRoom db) hm hprep
    (numbered_wellFormed hwf 0) ((outOfRoom_or hwf hitems).imp_left fun h => ⟨rfl, h⟩) hpool
    ctx.world.guard
  rw [map_basket_numbered 0 db] at hok
  have hends : (∀ e, runWith prepare order (db.map .ok) ctx = .error e →
        e = .overflow ∧ OutOfRoom db) ∧
      ∀ result, runWith prepare order (db.map .ok) ctx = .ok result →
        ExactOutput db ctx.minUtility result.2.lines ∧ result.1 = result.2.lines.length := by
    apply ends_of_search (E := fun e => e = .overflow ∧ OutOfRoom db)
      (fun hrows => ⟨rfl, Or.inl hrows⟩) herror
    rintro ⟨⟨found, headerBytes⟩, arena⟩ hphases
    have hcands := candidates_distinctPhuis order (hok _ arena hphases)
    obtain ⟨w, hrun, hexact, hcount⟩ := lastPass_spec ctx
      { ctx.world with
        pool := arena.pool
        guard := found.guard.forceAlloc
          ((distinctPhuis order found.candidates).map fun c => c.length * 8).sum } hwf
      (fun l => Task.writeAndCount l.1 l.2) writeOps
      (fun l w => Task.writeAndCount_spec l.1 l.2) (fun _ => rfl)
      (fun X hX => below_of_highUtility hwf (mem_globalOrder _ _) hX) (fun X hX => hX.nonempty)
      hcands
    simp only [hrun, bind, Except.bind]
    exact ⟨_, rfl, hexact, hcount.symm⟩
  exact ⟨hends.1, fun count w => hends.2 (count, w)⟩

/-- On a database that has room a run returns. -/
theorem runWith_returns {full : Prop} (hm : full ∨ 0 < ctx.minUtility)
    (hprep : Prepares full ctx.minUtility prepare) (hwf : ∀ row ∈ db, row.WellFormed)
    (hpool : ∀ n, ctx.world.pool.fails n = false) (hroom : ¬ OutOfRoom db) :
    ∃ result, runWith prepare order (db.map .ok) ctx = .ok result := by
  have herror := (runWith_spec ctx order hm hprep hwf hpool).1
  cases hrun : runWith prepare order (db.map .ok) ctx with
  | error e => exact (hroom (herror e hrun).2).elim
  | ok result => exact ⟨result, rfl⟩

end Run

end UpGrowth

end AirHuim
