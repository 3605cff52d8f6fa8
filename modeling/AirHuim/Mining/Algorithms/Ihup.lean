import AirHuim.Mining.TreeRoom

/-!
# IHUP

The miner over a tree whose nodes hold transaction utilities. The header of a
tree keeps the newest node of every item, and each node a link to the one before
it; the items of a conditional tree keep their order. The main results are that
the candidates are complete and without repetition, and that the output is exact.
-/

namespace AirHuim

open Library Basket NodeArena

namespace Ihup

structure IhupTree where
  root : ℕ
  headerTable : Table ItemId ℕ
  itemsOrder : List ItemId

def IhupTree.new (itemsOrder : List ItemId) : ArenaM IhupTree := do
  let root ← allocateNode 0 0 nullPtr
  return ⟨root, itemsOrder.foldl (fun header item => header.insert item nullPtr) ∅, itemsOrder⟩

/-- A child that was not found, the first of its parent and of the header's list. -/
def newChild (header : Table ItemId ℕ) (current : ℕ) (item : ItemId) (pathTwu : Utility) :
    ArenaM (ℕ × Table ItemId ℕ) := do
  let child ← allocateNode item pathTwu current
  let currNode ← getNode current
  let childNode ← getNode child
  match header.lookup item with
  | none => throw .panic
  | some next => do
      setNode child { childNode with nextSibling := currNode.firstChild, nodeLink := next }
      setNode current { currNode with firstChild := child }
      return (child, header.insert item child)

/-- `insert`, for each of the paths. -/
def IhupTree.insertPaths (tree : IhupTree) (paths : List (List ItemId × Utility)) :
    ArenaM IhupTree := do
  let headerTable ← insertAll newChild tree.root tree.headerTable
    (paths.map fun e => e.1.map fun item => (item, e.2))
  return { tree with headerTable }

/-- `sort_by_key` with `position(..).unwrap()`. -/
def sortByPosition (itemsOrder items : List ItemId) : ArenaM (List ItemId) :=
  if ∀ i ∈ items, i ∈ itemsOrder then return sortByKey itemsOrder.idxOf items else throw .panic

def filteredPaths (minUtility : Utility) (twu : Table ItemId Utility)
    (cpb : List (List ItemId × Utility)) : List (List ItemId × Utility) :=
  (cpb.map fun e => (e.1.filter fun i => minUtility ≤ (twu.lookup i).getD 0, e.2)).filter
    fun e => e.1 ≠ []

/-- The conditional tree of an item, and the search in it. -/
def mineCond (descend : IhupTree → List ItemId → Found → ArenaM Found) (minUtility : Utility)
    (tree : IhupTree) (newPre : List ItemId) (cpb : List (List ItemId × Utility)) (found : Found) :
    ArenaM Found :=
  if promising minUtility (localTwu cpb) = [] then return found
  else do
    let localItems ← sortByPosition tree.itemsOrder (promising minUtility (localTwu cpb))
    let a ← get
    let condTree ← IhupTree.new localItems
    let condTree ← condTree.insertPaths (filteredPaths minUtility (localTwu cpb) cpb)
    let found ← descend condTree newPre found
    release a.nextNodePtr
    return found

/-- One item of the loop of `mine_tree`. -/
def mineItem (descend : IhupTree → List ItemId → Found → ArenaM Found) (minUtility : Utility)
    (tree : IhupTree) (pre : List ItemId) (item : ItemId) (found : Found) : ArenaM Found := do
  let a ← get
  let entries ← readChain tree.root a.nextNodePtr ((tree.headerTable.lookup item).getD nullPtr)
  if (entries.map Prod.snd).sum < minUtility then return found
  else
    mineCond descend minUtility tree (pre ++ [item]) (condPaths entries)
      ⟨found.candidates ++ [pre ++ [item]], found.guard.forceAlloc ((pre.length + 1) * 8)⟩

def mineTree (minUtility : Utility) : ℕ → IhupTree → List ItemId → Found → ArenaM Found
  | 0, _, _, _ => throw .stuck
  | fuel + 1, tree, pre, found =>
      mineAll (mineItem (mineTree minUtility fuel) minUtility tree pre) tree.itemsOrder.reverse
        found

def validItems (minUtility : Utility) (twu1 : Table ItemId Utility) : List ItemId :=
  sortByKey (byTwu twu1) (promising minUtility twu1)

/-- `tx_items`, with the utility of the transaction. -/
def treePath (minUtility : Utility) (twu1 : Table ItemId Utility) (tx : RawTransaction) :
    List ItemId × Utility :=
  (sortByKey (byTwu twu1) ((tx.items.map ItemEntry.item).filter fun i =>
    minUtility ≤ (twu1.lookup i).getD 0), tx.transactionUtility)

/-- Phase 1: the global tree and its candidates. -/
def phase1 (txs : List RawTransaction) (minUtility : Utility) (guard : MemoryGuard) :
    ArenaM Found := do
  let twu1 := itemTwus txs
  let tree ← IhupTree.new (validItems minUtility twu1)
  let tree ← tree.insertPaths ((txs.map (treePath minUtility twu1)).filter fun e => e.1 ≠ [])
  mineTree minUtility ((validItems minUtility twu1).length + 1) tree [] ⟨[], guard⟩

/-- `Ihup::run`: the count it returns and the world it leaves. -/
def run (source : DataSource) (ctx : MiningContext) : Except Fault (ℕ × World) := do
  let txs ← allTransactions source
  let (found, arena) ← phase1 txs ctx.minUtility ctx.world.guard (.new ctx.world.pool)
  let candBytes := (found.candidates.map fun c => c.length * 8).sum
  let tasks := resultTasks ctx.minUtility txs found.candidates
  let w ← executeTasks ctx { ctx.world with pool := arena.pool, guard := found.guard }
    (tasks.map fun l => Task.writeHui l.1 l.2)
  return (tasks.length, { w with guard := w.guard.free candBytes })

/-! ## The links of a tree -/

/-- The header has the nodes of every item it knows, newest first. -/
def HeadLinks (ns : List TreeNode) (root : ℕ) (keys : List (List ItemId))
    (header : Table ItemId ℕ) : Prop :=
  ∀ x head, header.lookup x = some head →
    Linked ns TreeNode.nodeLink head (ptrsOf root keys fun k => k.head? = some x).reverse

/-- A new node with a link to the head becomes the head. -/
theorem HeadLinks.concat {ns ns' : List TreeNode} {root next : ℕ} {keys : List (List ItemId)}
    {header : Table ItemId ℕ} {x : ItemId} {q : List ItemId} (h : HeadLinks ns root keys header)
    (hsize : ns.length = root + 1 + keys.length) (hnew : x :: q ∉ keys)
    (hnext : header.lookup x = some next)
    (hold : ∀ (p : ℕ) (n : TreeNode), ns[p]? = some n →
      ∃ n' : TreeNode, ns'[p]? = some n' ∧ n'.nodeLink = n.nodeLink)
    (hlast : ∃ n : TreeNode, ns'[ns.length]? = some n ∧ n.nodeLink = next) :
    HeadLinks ns' root (keys ++ [x :: q]) (header.insert x ns.length) := by
  intro y head hhead
  rw [ptrsOf_concat _ hnew]
  by_cases hyx : y = x
  · subst hyx
    rw [AList.lookup_insert, Option.some.injEq] at hhead
    rw [List.head?_cons, if_pos rfl, List.reverse_append, ← hsize]
    obtain ⟨n, hn, hlink⟩ := hlast
    refine ⟨hhead.symm, n, hn, ?_⟩
    rw [hlink]
    exact (h y next hnext).congr fun p _ => hold p
  · rw [AList.lookup_insert_ne hyx] at hhead
    have hother : ¬ (x :: q).head? = some y := fun heq => hyx (Option.some.inj heq).symm
    rw [if_neg hother, List.append_nil]
    exact (h y head hhead).congr fun p _ => hold p

theorem attaches_newChild :
    Attaches newChild HeadLinks fun header x => (header.lookup x).isSome := by
  constructor
  · intro ns root keys header p n w hlinks hn x head hhead
    refine (hlinks x head hhead).congr fun p' _ n' hn' => ?_
    obtain ⟨w', hw'⟩ := (sameLinks_set hn w).2 p' n' hn'
    exact ⟨_, hw', rfl⟩
  · intro E a ns root T header q x w ha h hlinks hq hnew hknown hE
    obtain ⟨next, hnext⟩ := Option.isSome_iff_exists.mp hknown
    obtain ⟨c, hc, -⟩ := h.children q hq
    have hcur : ptrOf root (T.map Prod.fst) q < ns.length := h.ptrOf_lt hq
    have hroot := root_le_ptrOf root (T.map Prod.fst) q
    unfold newChild
    refine Runs.bind (allocateNode_runs ha hE x w _) ?_
    rintro _ a₁ ⟨rfl, hsmall, ha₁⟩
    refine Runs.bind (getNode_spec ha₁ ((List.getElem?_append_left hcur).trans hc)) ?_
    rintro c a₂ ⟨rfl, ha₂⟩
    refine Runs.bind (getNode_spec ha₂ List.getElem?_concat_length) ?_
    rintro _ a₃ ⟨rfl, ha₃⟩
    rw [hnext]
    refine setChild_runs ha₃ hcur fun a₄ ha₄ => ?_
    have hat := attached_set_concat (x := x) (w := w) (n := ⟨x, w, ptrOf root (T.map Prod.fst) q,
      nullPtr, c.firstChild, next⟩) hc rfl rfl rfl rfl rfl
    refine Runs.pure ⟨_, ha₄, rfl, hsmall, hat, fun p hp => ?_, ?_, fun y => ?_⟩
    · rw [getElem?_set_concat hcur, if_neg (by omega), if_neg (by omega)]
    · have hsize := h.size
      rw [← List.length_map (f := Prod.fst)] at hsize
      refine HeadLinks.concat hlinks hsize hnew hnext (fun p n hn => nodeLink_set_concat hc hn)
        ⟨⟨x, w, ptrOf root (T.map Prod.fst) q, nullPtr, c.firstChild, next⟩, ?_, rfl⟩
      rw [getElem?_set_concat hcur, if_pos rfl]
    · by_cases hyx : y = x
      · subst hyx
        simp [hnext]
      · rw [AList.lookup_insert_ne hyx]

/-! ## Building a tree -/

/-- The nodes hold the tree, which has the items `os` and the counters `T`. -/
structure IhupTree.Holds (ns : List TreeNode) (tree : IhupTree) (os : List ItemId) (T : Trie) :
    Prop where
  isTree : IsTree ns tree.root T
  links : HeadLinks ns tree.root (T.map Prod.fst) tree.headerTable
  known : ∀ x, (tree.headerTable.lookup x).isSome ↔ x ∈ os
  order : tree.itemsOrder = os

section Build

variable {a : NodeArena} {ns : List TreeNode} {E : Fault → Prop}

/-- A new tree with some paths is a tree of their counters, above what was there. -/
theorem build_spec (ha : a.Holds ns) (os : List ItemId) (paths : List (List ItemId × Utility))
    (hpaths : ∀ e ∈ paths, ∀ y ∈ e.1, y ∈ os) {T : Trie}
    (hT : T = tally [] (paths.flatMap fun e => pathAdds [] (e.1.map fun y => (y, e.2))))
    (hE : nullPtr ≤ ns.length + T.length → E .overflow) :
    Runs E (do
        let tree ← IhupTree.new os
        tree.insertPaths paths) a fun tree a' =>
      ∃ ns', a'.Holds ns' ∧ ns'.take ns.length = ns ∧ ns'.length = ns.length + 1 + T.length ∧
        tree.Holds ns' os T := by
  refine Runs.bind (Q := fun tree a' => tree.root = ns.length ∧ ∃ ns', a'.Holds ns' ∧
    tree.Holds ns' os [] ∧ ∀ p < ns.length, ns'[p]? = ns[p]?) ?_ ?_
  · refine Runs.bind (allocateRoot_spec ha fun hlen => hE (hlen.trans (Nat.le_add_right _ _))) ?_
    rintro _ a₁ ⟨rfl, ns', ha₁, htree, hbelow⟩
    refine Runs.pure ⟨rfl, ns', ha₁, ⟨htree, fun x head hhead => ?_, fun x => ?_, rfl⟩, hbelow⟩
    · rw [Table.lookup_foldl_insert] at hhead
      split_ifs at hhead
      · exact (Option.some.inj hhead).symm
      · cases hhead
    · rw [Table.lookup_foldl_insert]
      split_ifs with hx <;> simp [hx]
  · rintro tree a₁ ⟨hroot, ns', ha₁, htree, hbelow⟩
    have htally : tally [] ((paths.map fun e => e.1.map fun item => (item, e.2)).flatMap
        (pathAdds [])) = T := by
      rw [List.flatMap_map, hT]
    have hinsert := insertAll_spec attaches_newChild ha₁ htree.isTree htree.links
      (paths.map fun e => e.1.map fun item => (item, e.2)) (fun path hpath e he => by
        obtain ⟨p, hp, rfl⟩ := List.mem_map.mp hpath
        obtain ⟨y, hy, rfl⟩ := List.mem_map.mp he
        exact (htree.known y).mpr (hpaths p hp y hy)) (by rwa [htally, hroot])
    rw [htally] at hinsert
    refine Runs.bind hinsert ?_
    rintro header a₂ ⟨ns'', ha₂, htree', hlinks, hbelow', hknown⟩
    refine Runs.pure ⟨ns'', ha₂, take_of_below fun p hp => ?_, hroot ▸ htree'.size, htree', hlinks,
      fun x => (hknown x).trans (htree.known x), htree.order⟩
    exact (hbelow' p (hroot ▸ hp)).trans (hbelow p hp)

end Build

/-! ## The search -/

section Search

variable {B : List (Basket ItemId)} {m : Utility} {Q : Finset ItemId} {os : List ItemId} {T : Trie}
  {tree : IhupTree} {ns : List TreeNode} {a : NodeArena} {x : ItemId} {pre : List ItemId}
  {E : Fault → Prop} {rows : ℕ}

/-- The header's list of an item gives the paths above its nodes. -/
theorem readItem_spec (ha : a.Holds ns) (h : tree.Holds ns os T) (hx : x ∈ os) :
    Runs E
      (readChain tree.root a.nextNodePtr ((tree.headerTable.lookup x).getD nullPtr)) a
      fun entries a' => entries.Perm (condBase x T) ∧ a'.Holds ns := by
  obtain ⟨head, hhead⟩ := Option.isSome_iff_exists.mp ((h.known x).mpr hx)
  have hlinked := h.links x head hhead
  rw [ptrsOf_map_fst, ← List.map_reverse] at hlinked
  have hlen : (T.filter fun e => e.1.head? = some x).reverse.length < a.nextNodePtr := by
    have := List.length_filter_le (fun e : List ItemId × Utility => e.1.head? = some x) T
    have hsize := h.isTree.size
    rw [List.length_reverse, ha.next]
    omega
  rw [hhead, Option.getD_some]
  have hmem : ∀ e ∈ (T.filter fun e => e.1.head? = some x).reverse, e ∈ T :=
    fun e he => List.mem_of_mem_filter (List.mem_reverse.mp he)
  refine (readChain_spec ha h.isTree hmem hlinked hlen).mono ?_
  rintro entries a' ⟨rfl, ha'⟩
  exact ⟨(List.reverse_perm _).map _, ha'⟩

/-- The paths that are inserted into a conditional tree. -/
theorem flatMap_filteredPaths {entries : List (List ItemId × Utility)} {local_ : List ItemId}
    (hlocal : ∀ e ∈ entries, ∀ y ∈ e.1,
      (m ≤ ((localTwu (condPaths entries)).lookup y).getD 0 ↔ y ∈ local_)) :
    (filteredPaths m (localTwu (condPaths entries)) (condPaths entries)).flatMap
        (fun e => pathAdds [] (e.1.map fun y => (y, e.2))) =
      entries.flatMap fun e => pathAdds [] ((e.1.filter (· ∈ local_)).map fun y => (y, e.2)) := by
  have hnil : ∀ (es : List (List ItemId × Utility)), ∀ e ∈ es, decide (e.1 ≠ []) = false →
      pathAdds [] (e.1.map fun y => (y, e.2)) = [] := by
    intro es e _ he
    have he : e.1 = [] := by simpa using he
    rw [he]
    rfl
  rw [filteredPaths, flatMap_filter_eq (hnil _), List.flatMap_map, condPaths, flatMap_filter_eq]
  · apply List.flatMap_congr
    intro e he
    have hfilter : (e.1.filter fun i => m ≤ ((localTwu (condPaths entries)).lookup i).getD 0) =
        e.1.filter (· ∈ local_) :=
      List.filter_congr fun y hy => decide_eq_decide.mpr (hlocal e he y hy)
    rw [← hfilter]
    rfl
  · intro e _ he
    have he : e.1 = [] := by simpa using he
    simp [he, pathAdds]

/-- The items of the conditional tree of an item. -/
abbrev localItems (m : Utility) (os : List ItemId) (entries : List (List ItemId × Utility)) :
    List ItemId :=
  sortByKey os.idxOf (promising m (localTwu (condPaths entries)))

variable {entries : List (List ItemId × Utility)}

theorem localItems_spec (h : CondTree B Q os T) (hbase : entries.Perm (condBase x T)) :
    LocalItems m entries (localItems m os entries) :=
  localItems_of_perm
    (fun _ he => (h.full.mem_condBase_inOrder (hbase.mem_iff.mp he)).1.nodup) (sortByKey_perm _ _)

/-- They stay in order. -/
theorem pairwise_localItems (h : CondTree B Q os T) (hbase : entries.Perm (condBase x T)) :
    (localItems m os entries).Pairwise fun y z => os.idxOf y < os.idxOf z := by
  have hbefore := h.full.before_localItems hbase (localItems_spec (m := m) h hbase)
  apply pairwise_sortByKey_lt
  refine List.Nodup.map_on ?_ (nodup_promising _ _)
  intro y hy z hz heq
  have hmem := hbefore y (List.mem_toFinset.mpr ((mem_sortByKey _).mpr hy))
  exact (List.idxOf_inj hmem.1).mp heq

/-- The items of a path that weigh enough are those that are kept. -/
theorem le_localTwu_iff (h : CondTree B Q os T) (hbase : entries.Perm (condBase x T))
    {e : List ItemId × Utility} (he : e ∈ entries) {y : ItemId} (hy : y ∈ e.1) :
    m ≤ ((localTwu (condPaths entries)).lookup y).getD 0 ↔ y ∈ localItems m os entries := by
  have hsome : ∃ e ∈ entries, y ∈ e.1 := ⟨e, he, hy⟩
  rw [(localItems_spec h hbase).mem_iff, lookup_localTwu fun e he =>
    (h.full.mem_condBase_inOrder (hbase.mem_iff.mp he)).1.nodup, if_pos hsome]
  exact (and_iff_right hsome).symm

theorem inOrder_filter (h : CondTree B Q os T) (hbase : entries.Perm (condBase x T))
    {e : List ItemId × Utility} (he : e ∈ entries) :
    InOrder (localItems m os entries) (e.1.filter (· ∈ localItems m os entries)) := by
  have hpath := (h.full.mem_condBase_inOrder (hbase.mem_iff.mp he)).1
  refine inOrder_of_key _ (pairwise_localItems h hbase) (fun y hy => ?_)
    (hpath.sorted.sublist List.filter_sublist)
  exact of_decide_eq_true (List.mem_filter.mp hy).2

/-- The paths of `x`, cut down to these items, make the tree of the itemset with `x`. -/
theorem condTree_filter (h : CondTree B Q os T) (hx : x ∈ os)
    (hbase : entries.Perm (condBase x T)) :
    CondTree B (insert x Q) (localItems m os entries) (tally [] (entries.flatMap fun e =>
      pathAdds [] ((e.1.filter (· ∈ localItems m os entries)).map fun y => (y, e.2)))) := by
  have hcond := h.full.conditional hx hbase (localItems_spec (m := m) h hbase)
    (fun path => path.filter (· ∈ localItems m os entries)) (fun _ _ => List.Perm.refl _)
    (fun e he => inOrder_filter h hbase he) (fun _ => true) (by simp) (by simp)
  rw [List.filter_true] at hcond
  exact hcond.condTree

/-- The search of a tree of fewer items than `fuel`, with room for those below. -/
def Searches (E : Fault → Prop) (rows : ℕ) (m : Utility) (B : List (Basket ItemId)) (fuel : ℕ)
    (descend : IhupTree → List ItemId → Found → ArenaM Found) : Prop :=
  ∀ {a ns tree os T Q pre}, NodeArena.Holds a ns → IhupTree.Holds ns tree os T →
    CondTree B Q os T → TreeRoom E rows ns.length os.length T → pre.Nodup → pre.toFinset = Q →
      os.length < fuel → ∀ found,
        Runs E (descend tree pre found) a (Finds ns B m (Below Q os) found)

variable {fuel : ℕ} {descend : IhupTree → List ItemId → Found → ArenaM Found}

/-- The search in the conditional tree of an item. -/
theorem mineCond_spec (hdesc : Searches E rows m B fuel descend) (hfuel : os.length < fuel + 1)
    (ha : a.Holds ns) (h : CondTree B Q os T) (hroom : TreeRoom E rows ns.length os.length T)
    (hx : x ∈ os) (horder : tree.itemsOrder = os)
    (hbase : entries.Perm (condBase x T)) {newPre : List ItemId} (hpre : newPre.Nodup)
    (hQ : newPre.toFinset = insert x Q) (found : Found) :
    Runs E (mineCond descend m tree newPre (condPaths entries) found) a
      (Finds ns B m (Below (insert x Q) (localItems m os entries)) found) := by
  have hlocal := localItems_spec (m := m) h hbase
  have hbefore := h.full.before_localItems hbase hlocal
  unfold mineCond
  split_ifs with hnil
  · have hnone : localItems m os entries = [] := by
      rw [localItems, hnil]
      rfl
    refine Runs.pure ⟨ha, [], (List.append_nil _).symm, Lists.nil ?_⟩
    rintro X ⟨-, y, hy, -⟩
    rw [hnone] at hy
    exact List.not_mem_nil hy
  · have hknown : ∀ i ∈ promising m (localTwu (condPaths entries)), i ∈ tree.itemsOrder := by
      intro i hi
      rw [horder]
      exact (hbefore i (List.mem_toFinset.mpr ((mem_sortByKey _).mpr hi))).1
    have hpaths : ∀ e ∈ entries, ∀ y ∈ e.1,
        (m ≤ ((localTwu (condPaths entries)).lookup y).getD 0 ↔ y ∈ localItems m os entries) :=
      fun e he y hy => le_localTwu_iff h hbase he hy
    have hcond := condTree_filter (m := m) h hx hbase
    have hless := h.full.length_localItems_lt hx hbase hlocal
    obtain ⟨hfull, hroom'⟩ := hroom.conditional hbase hless
      (fun e he => inOrder_filter (m := m) h hbase he) (fun _ => true) (by rw [List.filter_true])
    have hbuild := build_spec ha (localItems m os entries)
      (filteredPaths m (localTwu (condPaths entries)) (condPaths entries))
      (fun e he y hy => by
        obtain ⟨e', he', rfl⟩ := List.mem_map.mp (List.mem_of_mem_filter he)
        obtain ⟨hy, hle⟩ := List.mem_filter.mp hy
        exact (hpaths e' (List.mem_of_mem_filter he') y hy).mp (of_decide_eq_true hle))
      (by rw [flatMap_filteredPaths hpaths]) hfull
    have hsort : Runs E
        (sortByPosition tree.itemsOrder (promising m (localTwu (condPaths entries)))) a
        fun items a' => items = localItems m os entries ∧ a' = a := by
      unfold sortByPosition
      rw [if_pos hknown, horder]
      exact Runs.pure ⟨rfl, rfl⟩
    refine Runs.bind hsort ?_
    rintro items s ⟨hitems, hs⟩
    rw [hitems, hs]
    refine Runs.get_bind ?_
    rw [← bind_assoc]
    refine Runs.bind hbuild ?_
    rintro condTree a₁ ⟨ns', ha₁, htake, hsize, htree⟩
    rw [← hsize] at hroom'
    refine Runs.bind (hdesc ha₁ htree hcond hroom' hpre hQ (by omega) found) ?_
    rintro found' a₂ ⟨ha₂, hfound⟩
    rw [ha.next]
    refine Runs.bind (release_spec ha₂ (by omega)) ?_
    intro _ a₃ ha₃
    exact Runs.pure ⟨htake ▸ ha₃, hfound⟩

/-- One item of a tree. -/
theorem mineItem_spec (hdesc : Searches E rows m B fuel descend) (hfuel : os.length < fuel + 1)
    (ha : a.Holds ns) (htree : tree.Holds ns os T) (h : CondTree B Q os T)
    (hroom : TreeRoom E rows ns.length os.length T) (hx : x ∈ os)
    (hpre : pre.Nodup) (hQ : pre.toFinset = Q) (found : Found) :
    Runs E (mineItem descend m tree pre x found) a
      (Finds ns B m (AtItem Q os x) found) := by
  unfold mineItem
  refine Runs.get_bind ?_
  refine Runs.bind (readItem_spec ha htree hx) ?_
  rintro entries a₁ ⟨hbase, ha₁⟩
  split_ifs with hlt
  · exact Runs.pure ⟨ha₁, [], (List.append_nil _).symm, h.full.candidates_nil hx hbase hlt⟩
  · obtain ⟨hpre', hQ'⟩ := append_item hpre hQ (h.fresh x hx)
    refine (mineCond_spec hdesc hfuel ha₁ h hroom hx htree.order hbase hpre' hQ' _).mono ?_
    rintro found' a₂ ⟨ha₂, cands, heq, hcands⟩
    refine ⟨ha₂, (pre ++ [x]) :: cands, ?_, ?_⟩
    · rw [heq, List.append_assoc, List.singleton_append]
    · exact h.full.candidates_cons (Or.inl trivial) hx hbase (localItems_spec h hbase) hpre hQ
        hcands

/-- The search of a tree. -/
theorem mineTree_spec (fuel : ℕ) : Searches E rows m B fuel (mineTree m fuel) := by
  induction fuel with
  | zero =>
    intro a ns tree os T Q pre _ _ _ _ _ _ hfuel
    exact (Nat.not_lt_zero _ hfuel).elim
  | succ fuel ih =>
    intro a ns tree os T Q pre ha htree h hroom hpre hQ hfuel found
    unfold mineTree
    rw [htree.order]
    refine mineAll_below h.full ha (List.reverse_perm os) ?_ found
    intro x hx a found ha
    exact mineItem_spec ih hfuel ha htree h hroom hx hpre hQ found

end Search

/-! ## The run -/

section Run

variable {txs : List RawTransaction} {m : Utility} {db : List SpmfRow}

theorem mem_validItems (m : Utility) (twu1 : Table ItemId Utility) (y : ItemId) :
    y ∈ validItems m twu1 ↔ y ∈ promising m twu1 :=
  mem_sortByKey _

/-- The items of a path are the promising items of the transaction. -/
theorem mem_treePath (hwf : ∀ tx ∈ txs, tx.WellFormed) {tx : RawTransaction} (htx : tx ∈ txs)
    (y : ItemId) :
    y ∈ (treePath m (itemTwus txs) tx).1 ↔
      y ∈ tx.basket.items ∧ y ∈ validItems m (itemTwus txs) := by
  rw [treePath, mem_sortByKey, List.mem_filter, mem_validItems, ← List.mem_toFinset]
  refine and_congr_right fun hy => ?_
  have hocc : Occurs (txs.map RawTransaction.basket) {y} :=
    (occurs_map _ _ _).mpr ⟨tx, htx, Finset.singleton_subset_iff.mpr hy⟩
  have hlookup : ∃ v, (itemTwus txs).lookup y = some v := by
    obtain ⟨v, hv, -⟩ := (mem_promising _ _ _).mp
      ((mem_promising_itemTwus hwf (twuOf txs {y}) y).mpr ⟨hocc, le_rfl⟩)
    exact ⟨v, hv⟩
  obtain ⟨v, hv⟩ := hlookup
  rw [mem_promising, hv]
  simp

theorem inOrder_treePath (hwf : ∀ tx ∈ txs, tx.WellFormed) {tx : RawTransaction}
    (htx : tx ∈ txs) :
    InOrder (validItems m (itemTwus txs)) (treePath m (itemTwus txs) tx).1 := by
  refine inOrder_of_key _ (pairwise_sortByKey_byTwu _ (nodup_promising _ _))
    (fun y hy => ((mem_treePath hwf htx y).mp hy).2) ?_
  exact pairwise_sortByKey_byTwu _ ((hwf tx htx).distinct.sublist List.filter_sublist)

/-- The counters of the global tree. -/
abbrev globalTrie (m : Utility) (txs : List RawTransaction) : Trie :=
  tally [] (txs.flatMap fun tx => pathAdds []
    ((treePath m (itemTwus txs) tx).1.map fun y => (y, tx.transactionUtility)))

theorem condTree_global (hwf : ∀ tx ∈ txs, tx.WellFormed) :
    CondTree (txs.map RawTransaction.basket) ∅ (validItems m (itemTwus txs))
      (globalTrie m txs) := by
  have hitems : ∀ tx : RawTransaction, ((treePath m (itemTwus txs) tx).1.map fun y =>
      (y, tx.transactionUtility)).map Prod.fst = (treePath m (itemTwus txs) tx).1 := by
    intro tx
    rw [List.map_map]
    exact List.map_id _
  apply condTree_of_transactions
  · exact (sortByKey_perm _ _).nodup_iff.mpr (nodup_promising _ _)
  · intro x hx
    exact ((mem_promising_itemTwus hwf m x).mp ((mem_validItems _ _ x).mp hx)).1
  · intro tx htx
    rw [hitems]
    exact inOrder_treePath hwf htx
  · intro tx htx y
    rw [hitems]
    exact mem_treePath hwf htx y
  · intro tx htx e he
    obtain ⟨y, -, rfl⟩ := List.mem_map.mp he
    exact (hwf tx htx).transactionUtility_nonneg
  · intro tx htx e he Z _ hsub
    obtain ⟨y, -, rfl⟩ := List.mem_map.mp he
    exact (hwf tx htx).gain_le hsub

/-- The candidates of the global tree. -/
theorem phase1_spec {E : Fault → Prop} (hwf : ∀ tx ∈ txs, tx.WellFormed)
    (hroom : E .overflow ∨
      searchRoom txs.length ((validItems m (itemTwus txs)).length + 1) ≤ nullPtr)
    {pool : PagePool} (hpool : ∀ n, pool.fails n = false) (guard : MemoryGuard) :
    Runs E (phase1 txs m guard) (.new pool) fun found _ =>
      Candidates (txs.map RawTransaction.basket) m (Below ∅ (validItems m (itemTwus txs)))
        found.candidates := by
  obtain ⟨hfull, hroom⟩ := TreeRoom.global hroom (T := globalTrie m txs) (fun tx htx => by
    rw [PatternTree.map_fst_const]
    exact inOrder_treePath hwf htx) rfl
  have hpaths : ((txs.map (treePath m (itemTwus txs))).filter fun e => e.1 ≠ []).flatMap
      (fun e => pathAdds [] (e.1.map fun y => (y, e.2))) = txs.flatMap fun tx => pathAdds []
        ((treePath m (itemTwus txs) tx).1.map fun y => (y, tx.transactionUtility)) := by
    rw [flatMap_filter_eq, List.flatMap_map]
    · rfl
    · intro e _ he
      have he : e.1 = [] := by simpa using he
      rw [he]
      rfl
  have hbuild := build_spec (holds_new hpool) (validItems m (itemTwus txs))
    ((txs.map (treePath m (itemTwus txs))).filter fun e => e.1 ≠ []) (fun e he y hy => by
      obtain ⟨tx, htx, rfl⟩ := List.mem_map.mp (List.mem_of_mem_filter he)
      exact ((mem_treePath hwf htx y).mp hy).2) (T := globalTrie m txs) (by rw [hpaths])
    (by rwa [List.length_nil, zero_add])
  unfold phase1
  simp only
  rw [← bind_assoc]
  refine Runs.bind hbuild ?_
  rintro tree a ⟨ns, ha, -, hsize, htree⟩
  rw [List.length_nil, zero_add] at hsize
  rw [← hsize] at hroom
  refine (mineTree_spec _ ha htree (condTree_global hwf) hroom List.nodup_nil rfl
    (Nat.lt_succ_self _) ⟨[], guard⟩).mono ?_
  rintro found a' ⟨-, cands, heq, hcands⟩
  rw [heq]
  exact hcands

/-- A run ends with the exact output, and then its candidates are complete and without
repetition, or with an overflow of its counters, if the database may not have room. -/
theorem run_spec (ctx : MiningContext) (hwf : ∀ row ∈ db, row.WellFormed)
    (hpool : ∀ n, ctx.world.pool.fails n = false) :
    (∀ e, run (db.map .ok) ctx = .error e → e = .overflow ∧ OutOfRoom db) ∧
      ∀ result, run (db.map .ok) ctx = .ok result →
        ExactOutput db ctx.minUtility result.2.lines ∧ ∃ found arena,
          phase1 (numbered 0 db) ctx.minUtility ctx.world.guard (.new ctx.world.pool) =
            .ok (found, arena) ∧
          (∀ c ∈ found.candidates, c.Nodup) ∧ (found.candidates.map List.toFinset).Nodup ∧
          ∀ X, HighUtility (baskets db) ctx.minUtility X →
            X ∈ found.candidates.map List.toFinset := by
  have hitems : (validItems ctx.minUtility (itemTwus (numbered 0 db))).length =
      (promising ctx.minUtility (itemTwus (numbered 0 db))).length :=
    (sortByKey_perm _ _).length_eq
  obtain ⟨hok, herror⟩ := phase1_spec (E := fun e => e = .overflow ∧ OutOfRoom db)
    (numbered_wellFormed hwf 0) ((outOfRoom_or hwf hitems).imp_left fun h => ⟨rfl, h⟩) hpool
    ctx.world.guard
  rw [map_basket_numbered 0 db] at hok
  apply ends_of_search (E := fun e => e = .overflow ∧ OutOfRoom db)
    (fun hrows => ⟨rfl, Or.inl hrows⟩) herror
  rintro ⟨found, arena⟩ hphase
  have hcands := hok found arena hphase
  obtain ⟨w, hrun, hexact, -⟩ := lastPass_spec ctx
    { ctx.world with pool := arena.pool, guard := found.guard } hwf
    (fun l => Task.writeHui l.1 l.2) (fun l => [.writeHui l.1 l.2])
    (fun l w => Task.writeHui_spec l.1 l.2) (fun _ => rfl)
    (fun X hX => below_of_highUtility hwf (mem_validItems _ _) hX) (fun X hX => hX.nonempty)
    hcands
  simp only [hrun, bind, Except.bind]
  refine ⟨_, rfl, hexact, found, arena, hphase, fun c hc => (hcands.sound c hc).1, hcands.nodup,
    fun X hX => hcands.complete X ⟨hX, ?_⟩⟩
  exact below_of_highUtility hwf (mem_validItems _ _) hX

/-- On a database that has room a run returns. -/
theorem returns_of_room (ctx : MiningContext) (hwf : ∀ row ∈ db, row.WellFormed)
    (hpool : ∀ n, ctx.world.pool.fails n = false) (hroom : ¬ OutOfRoom db) :
    ∃ result, run (db.map .ok) ctx = .ok result := by
  cases hrun : run (db.map .ok) ctx with
  | error e => exact (hroom ((run_spec ctx hwf hpool).1 e hrun).2).elim
  | ok result => exact ⟨result, rfl⟩

/-- IHUP is exact: a run ends with an overflow of its counters or with the exact
output, and then its candidates are complete and without repetition. -/
theorem exact_of_pointers (ctx : MiningContext) (hwf : ∀ row ∈ db, row.WellFormed)
    (hpool : ∀ n, ctx.world.pool.fails n = false) :
    (∀ e, run (db.map .ok) ctx = .error e → e = .overflow) ∧
      ∀ count w, run (db.map .ok) ctx = .ok (count, w) → ExactOutput db ctx.minUtility w.lines ∧
        ∃ found arena,
          phase1 (numbered 0 db) ctx.minUtility ctx.world.guard (.new ctx.world.pool) =
            .ok (found, arena) ∧
          (∀ c ∈ found.candidates, c.Nodup) ∧ (found.candidates.map List.toFinset).Nodup ∧
          ∀ X, HighUtility (baskets db) ctx.minUtility X →
            X ∈ found.candidates.map List.toFinset := by
  obtain ⟨herror, hok⟩ := run_spec ctx hwf hpool
  exact ⟨fun e he => (herror e he).1, fun count w => hok (count, w)⟩

theorem exact_of_pointers_tinyDb :
    ∃ result, run (tinyDb.map .ok) (createCtx 45 none 30) = .ok result ∧
      ExactOutput tinyDb 45 result.2.lines := by
  have hwf : ∀ row ∈ tinyDb, row.WellFormed := by decide
  obtain ⟨result, hrun⟩ : ∃ result, run (tinyDb.map .ok) (createCtx 45 none 30) = .ok result :=
    exists_of_isOk (by decide +kernel)
  have hexact := (exact_of_pointers (createCtx 45 none 30) hwf fun _ => rfl).2
  exact ⟨result, hrun, (hexact result.1 result.2 hrun).1⟩

end Run

end Ihup

end AirHuim
