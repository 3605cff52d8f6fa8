import AirHuim.Mining.TreeRoom

/-!
# UP-Growth

The miner over a tree whose nodes hold prefix utilities: in the global tree, for
every transaction, what its items are worth down to the node. The header of a
tree keeps the first and the last node of every item, and each node a link to the
next one; a conditional tree has an order of its own. The main result is that the
output is exact and its length is what the run returns.
-/

namespace AirHuim

open Library Basket NodeArena

namespace UpGrowth

structure HeaderEntry where
  item : ItemId
  twu : Utility
  head : ℕ
  tail : ℕ
  deriving DecidableEq, Repr

abbrev Header := Table ItemId HeaderEntry

structure UpTree where
  headerTable : Header
  root : ℕ

def UpTree.new : ArenaM UpTree := do
  let root ← allocateNode 0 0 nullPtr
  return ⟨∅, root⟩

/-- The header entries of the valid items, without nodes. -/
def UpTree.withItems (tree : UpTree) (validItems : List (ItemId × Utility)) : UpTree :=
  { tree with
    headerTable := validItems.foldl (fun header e =>
      header.insert e.1 ⟨e.1, e.2, nullPtr, nullPtr⟩) tree.headerTable }

def UpTree.headerBytes (tree : UpTree) : ℕ := tree.headerTable.keys.length * 32

/-- The new node is the last of its item, if the header knows the item. -/
def linkTail (header : Header) (item : ItemId) (child : ℕ) : ArenaM Header :=
  match header.lookup item with
  | none => return header
  | some entry =>
      if entry.tail = nullPtr then
        return header.insert item { entry with head := child, tail := child }
      else do
        let tailNode ← getNode entry.tail
        setNode entry.tail { tailNode with nodeLink := child }
        return header.insert item { entry with tail := child }

/-- A child that was not found: the first of its parent, the last of its item. -/
def newChild (header : Header) (curr : ℕ) (item : ItemId) (nu : Utility) :
    ArenaM (ℕ × Header) := do
  let child ← allocateNode item nu curr
  let currNode ← getNode curr
  let childNode ← getNode child
  setNode child { childNode with nextSibling := currNode.firstChild }
  setNode curr { currNode with firstChild := child }
  let header ← linkTail header item child
  return (child, header)

/-- `insert` and `insert_local`, for each of the paths. -/
def UpTree.insertPaths (tree : UpTree) (paths : List (List (ItemId × Utility))) :
    ArenaM UpTree := do
  let headerTable ← insertAll newChild tree.root tree.headerTable paths
  return { tree with headerTable }

/-- The `nu` of `insert`: the utilities of the items down to each one. -/
def withNu (items : List (ItemId × Utility)) : List (ItemId × Utility) :=
  items.zipIdx.map fun p => (p.1.1, ((items.take (p.2 + 1)).map Prod.snd).sum)

def validItems (minUtil : Utility) (twu : Table ItemId Utility) : List (ItemId × Utility) :=
  (sortByKey (byTwu twu) (promising minUtil twu)).map fun i => (i, (twu.lookup i).getD 0)

/-- The items of a header, ascending by weight, ties by descending item. -/
def tasks (header : Header) : List ItemId :=
  sortByKey (fun i => (toLex (((header.lookup i).map HeaderEntry.twu).getD 0,
    OrderDual.toDual i) : Utility ×ₗ ItemIdᵒᵈ)) header.keys

def sumChain : ℕ → ℕ → Utility → ArenaM Utility
  | 0, _, _ => throw .stuck
  | fuel + 1, curr, itemUtil =>
      if curr = nullPtr then return itemUtil
      else do
        let node ← getNode curr
        sumChain fuel node.nodeLink (itemUtil + node.weight)

/-- The paths of a conditional tree, each in the order of the tree. -/
def localPaths (minUtil : Utility) (twu : Table ItemId Utility)
    (cpb : List (List ItemId × Utility)) : List (List (ItemId × Utility)) :=
  (cpb.map fun e => (sortByKey (byTwu twu) (e.1.filter fun i =>
    i ∈ (validItems minUtil twu).map Prod.fst)).map fun i => (i, e.2)).filter fun path => path ≠ []

/-- The conditional tree of an item, and the search in it. -/
def mineCond (descend : UpTree → List ItemId → ItemId → Found → ArenaM Found) (minUtil : Utility)
    (tree : UpTree) (entry : HeaderEntry) (newPre : List ItemId) (found : Found) :
    ArenaM Found := do
  let a ← get
  let entries ← readChain tree.root a.nextNodePtr entry.head
  let cpb := condPaths entries
  let a ← get
  let localTree ← UpTree.new
  let localTree := localTree.withItems (validItems minUtil (localTwu cpb))
  let guard := (found.guard.forceAlloc (cpb.length * 16)).forceAlloc localTree.headerBytes
  let localTree' ← localTree.insertPaths (localPaths minUtil (localTwu cpb) cpb)
  let found ← mineAll (descend localTree' newPre) (tasks localTree'.headerTable)
    { found with guard }
  release a.nextNodePtr
  return { found with guard := (found.guard.free localTree.headerBytes).free (cpb.length * 16) }

def mineUpTree (minUtil : Utility) : ℕ → UpTree → List ItemId → ItemId → Found → ArenaM Found
  | 0, _, _, _, _ => throw .stuck
  | fuel + 1, tree, pre, item, found =>
      match tree.headerTable.lookup item with
      | none => throw .panic
      | some entry => do
          let a ← get
          let itemUtil ← sumChain a.nextNodePtr entry.head 0
          if minUtil ≤ itemUtil then
            mineCond (mineUpTree minUtil fuel) minUtil tree entry (pre ++ [item])
              { found with candidates := found.candidates ++ [pre ++ [item]] }
          else return found

/-- `filtered_items`, sorted. -/
def filteredItems (header : Header) (tx : RawTransaction) : List (ItemId × Utility) :=
  sortByKey (fun e => (toLex (OrderDual.toDual
      (((header.lookup e.1).map HeaderEntry.twu).getD 0), e.1) : Utilityᵒᵈ ×ₗ ItemId))
    ((tx.items.filter fun e => e.item ∈ header).map fun e => (e.item, e.utility))

/-- What is inserted for a transaction; its `rtu` is not used. -/
def treePath (header : Header) (tx : RawTransaction) : List (ItemId × Utility) :=
  withNu (filteredItems header tx)

/-- Phases 1 to 3: the candidates, and the footprint of the global header. -/
def phases (txs : List RawTransaction) (minUtil : Utility) (guard : MemoryGuard) :
    ArenaM (Found × ℕ) := do
  let valid := validItems minUtil (itemTwus txs)
  let tree ← UpTree.new
  let tree := tree.withItems valid
  let tree' ← tree.insertPaths ((txs.map (treePath tree.headerTable)).filter fun path => path ≠ [])
  let found ← mineAll (mineUpTree minUtil (valid.length + 1) tree' []) (tasks tree'.headerTable)
    ⟨[], guard.forceAlloc tree.headerBytes⟩
  return (found, tree.headerBytes)

/-- The order in which a hash set yields its elements. -/
structure SetOrder where
  order : List (List ItemId) → List (List ItemId)
  perm : ∀ elems, (order elems).Perm elems

/-- The candidates, each sorted, without repetition. -/
def distinctPhuis (order : SetOrder) (phuis : List (List ItemId)) : List (List ItemId) :=
  order.order (phuis.map (sortByKey id)).dedup

/-- `UpGrowth::run`: the count it returns and the world it leaves. -/
def run (order : SetOrder) (source : DataSource) (ctx : MiningContext) :
    Except Fault (ℕ × World) := do
  let txs ← allTransactions source
  let ((found, headerBytes), arena) ←
    phases txs ctx.minUtility ctx.world.guard (.new ctx.world.pool)
  let phuis := distinctPhuis order found.candidates
  let phuisBytes := (phuis.map fun c => c.length * 8).sum
  let finalTasks := resultTasks ctx.minUtility txs phuis
  let w ← executeTasks ctx
    { ctx.world with pool := arena.pool, guard := found.guard.forceAlloc phuisBytes }
    (finalTasks.map fun l => Task.writeAndCount l.1 l.2)
  return (finalTasks.length, { w with guard := (w.guard.free headerBytes).free phuisBytes })

/-! ## The links of a tree -/

/-- The header has the nodes of every item it knows, oldest first, and the last one. -/
def TailLinks (ns : List TreeNode) (root : ℕ) (keys : List (List ItemId)) (header : Header) :
    Prop :=
  ∀ x e, header.lookup x = some e →
    Linked ns TreeNode.nodeLink e.head (ptrsOf root keys fun k => k.head? = some x) ∧
      e.tail = ((ptrsOf root keys fun k => k.head? = some x).getLast?).getD nullPtr

section Links

variable {ns ns' : List TreeNode} {root : ℕ} {keys : List (List ItemId)} {header : Header}
  {x y : ItemId} {q : List ItemId} {e : HeaderEntry}

/-- The tail of an item is one of its nodes, or null. -/
theorem TailLinks.tail_mem (h : TailLinks ns root keys header) (he : header.lookup x = some e) :
    e.tail ∈ ptrsOf root keys (fun k => k.head? = some x) ∨ e.tail = nullPtr := by
  rw [(h x e he).2]
  cases hlast : (ptrsOf root keys fun k => k.head? = some x).getLast? with
  | none => exact Or.inr rfl
  | some t => exact Or.inl (List.mem_of_getLast? hlast)

/-- Nodes of different items are different. -/
theorem ne_of_mem_ptrsOf {p t : ℕ} (hp : p ∈ ptrsOf root keys fun k => k.head? = some y)
    (ht : t ∈ ptrsOf root keys fun k => k.head? = some x) (hyx : y ≠ x) : p ≠ t := by
  rintro rfl
  obtain ⟨k, hk, hky, hptr⟩ := (mem_ptrsOf _).mp hp
  obtain ⟨k', hk', hkx, hptr'⟩ := (mem_ptrsOf _).mp ht
  have heq := ptrOf_inj (Or.inr hk) (hptr.trans hptr'.symm)
  rw [heq, hkx] at hky
  exact hyx (Option.some.inj hky).symm

/-- A new node, to which the tail links, becomes the tail. -/
theorem TailLinks.concat (h : TailLinks ns root keys header)
    (hsize : ns.length = root + 1 + keys.length) (hsmall : ns.length ≤ nullPtr)
    (hnodup : keys.Nodup) (hnew : x :: q ∉ keys) (he : header.lookup x = some e)
    (hold : ∀ (p : ℕ) (n : TreeNode), ns[p]? = some n → ∃ n' : TreeNode, ns'[p]? = some n' ∧
      n'.nodeLink = if p = e.tail then ns.length else n.nodeLink)
    (hlast : ∃ n : TreeNode, ns'[ns.length]? = some n ∧ n.nodeLink = nullPtr) :
    TailLinks ns' root (keys ++ [x :: q]) (header.insert x { e with
      head := if e.tail = nullPtr then ns.length else e.head
      tail := ns.length }) := by
  have hlt : ∀ (p : ℕ) (n : TreeNode), ns[p]? = some n → p < nullPtr := by
    intro p n hn
    exact (List.getElem?_eq_some_iff.mp hn).1.trans_le hsmall
  intro y e' he'
  rw [ptrsOf_concat _ hnew, List.head?_cons]
  by_cases hyx : y = x
  · subst hyx
    rw [AList.lookup_insert, Option.some.injEq] at he'
    subst he'
    obtain ⟨hlinked, htail⟩ := h y e he
    rw [if_pos rfl, ← hsize]
    refine ⟨?_, by simp⟩
    rcases List.eq_nil_or_concat' (ptrsOf root keys fun k => k.head? = some y) with
      hnil | ⟨ps, t, hps⟩
    · rw [hnil] at htail ⊢
      exact ⟨if_pos htail, hlast⟩
    · have hdistinct : (ptrsOf root keys fun k => k.head? = some y).Nodup := nodup_ptrsOf _ hnodup
      rw [hps, List.nodup_append] at hdistinct
      rw [hps] at hlinked htail ⊢
      rw [List.getLast?_concat, Option.getD_some] at htail
      obtain ⟨n, hn⟩ := hlinked.exists_get (List.mem_append_right _ (List.mem_singleton_self t))
      have hne : e.tail ≠ nullPtr := htail ▸ (hlt t n hn).ne
      simp only [if_neg hne]
      refine hlinked.snoc (fun p hp n hn => ?_) ?_ hlast
      · obtain ⟨n', hn', hlink⟩ := hold p n hn
        have hpt : p ≠ t := hdistinct.2.2 p hp t (List.mem_singleton_self t)
        rw [if_neg (htail ▸ hpt)] at hlink
        exact ⟨n', hn', hlink⟩
      · obtain ⟨n', hn', hlink⟩ := hold t n hn
        rw [if_pos htail.symm] at hlink
        exact ⟨n', hn', hlink⟩
  · rw [AList.lookup_insert_ne hyx] at he'
    have hother : ¬ some x = some y := fun heq => hyx (Option.some.inj heq).symm
    obtain ⟨hlinked, htail⟩ := h y e' he'
    rw [if_neg hother, List.append_nil]
    refine ⟨hlinked.congr fun p hp n hn => ?_, htail⟩
    obtain ⟨n', hn', hlink⟩ := hold p n hn
    have hpt : p ≠ e.tail := by
      rcases h.tail_mem he with hmem | hnull
      · exact ne_of_mem_ptrsOf hp hmem hyx
      · exact hnull ▸ (hlt p n hn).ne
    rw [if_neg hpt] at hlink
    exact ⟨n', hn', hlink⟩

/-- Linking the new node from the tail, if there is one. -/
theorem linkTail_spec {E : Fault → Prop} {a : NodeArena} (ha : a.Holds ns')
    (hsmall : ns'.length ≤ nullPtr)
    (he : header.lookup x = some e) (htail : e.tail < ns'.length ∨ e.tail = nullPtr) (child : ℕ) :
    Runs E (linkTail header x child) a fun header' a' =>
      ∃ ns'', a'.Holds ns'' ∧
        header' = header.insert x { e with
          head := if e.tail = nullPtr then child else e.head
          tail := child } ∧
        (ns'' = ns' ∨ ∃ n, ns'[e.tail]? = some n ∧
          ns'' = ns'.set e.tail { n with nodeLink := child }) ∧
        ∀ (p : ℕ) (n : TreeNode), ns'[p]? = some n → ∃ n' : TreeNode, ns''[p]? = some n' ∧
          n'.nodeLink = if p = e.tail then child else n.nodeLink := by
  unfold linkTail
  rw [he]
  by_cases hnull : e.tail = nullPtr
  · simp only [if_pos hnull]
    refine Runs.pure ⟨ns', ha, rfl, Or.inl rfl, fun p n hn => ⟨n, hn, ?_⟩⟩
    have hp := (List.getElem?_eq_some_iff.mp hn).1
    rw [if_neg (by omega)]
  · simp only [if_neg hnull]
    have hlt := htail.resolve_right hnull
    have hget := List.getElem?_eq_getElem hlt
    refine Runs.bind (getNode_spec ha hget) ?_
    intro t a₁ ⟨ht, ha₁⟩
    refine Runs.bind (setNode_spec ha₁ _ hlt) ?_
    intro _ a₂ ha₂
    refine Runs.pure ⟨_, ha₂, rfl, Or.inr ⟨t, ht ▸ hget, rfl⟩, fun p n hn => ?_⟩
    rw [List.getElem?_set]
    by_cases hp : e.tail = p
    · subst hp
      rw [if_pos rfl, if_pos hlt, if_pos rfl]
      exact ⟨_, rfl, rfl⟩
    · rw [if_neg hp, if_neg (Ne.symm hp)]
      exact ⟨n, hn, rfl⟩

/-- A new child, with its links; it fails only if the pointers have run out. -/
theorem newChild_runs {E : Fault → Prop} {a : NodeArena} {T : Trie} (w : Utility) (ha : a.Holds ns)
    (h : IsTree ns root T) (hlinks : TailLinks ns root (T.map Prod.fst) header)
    (hq : OnTree (T.map Prod.fst) q) (hnew : x :: q ∉ T.map Prod.fst)
    (hknown : (header.lookup x).isSome) (hE : nullPtr ≤ ns.length → E .overflow) :
    Runs E (newChild header (ptrOf root (T.map Prod.fst) q) x w) a fun r a' =>
      ∃ ns', a'.Holds ns' ∧ r.1 = ns.length ∧ ns.length < nullPtr ∧
        Attached ns ns' (ptrOf root (T.map Prod.fst) q) x w ∧
        (∀ p < root, ns'[p]? = ns[p]?) ∧ TailLinks ns' root (T.map Prod.fst ++ [x :: q]) r.2 ∧
        ∀ y, (r.2.lookup y).isSome ↔ (header.lookup y).isSome := by
  obtain ⟨e, he⟩ := Option.isSome_iff_exists.mp hknown
  obtain ⟨c, hc, -⟩ := h.children q hq
  have hcur : ptrOf root (T.map Prod.fst) q < ns.length := h.ptrOf_lt hq
  have hroot := root_le_ptrOf root (T.map Prod.fst) q
  have htail : (root < e.tail ∧ e.tail < ns.length) ∨ e.tail = nullPtr := by
    refine (TailLinks.tail_mem hlinks he).imp_left fun hmem => ?_
    obtain ⟨k, hk, hkx, hptr⟩ := (mem_ptrsOf _).mp hmem
    obtain ⟨y, p, rfl, -⟩ := h.keys.exists_cons hk
    refine ⟨?_, hptr ▸ h.ptrOf_lt (Or.inr hk)⟩
    rw [← hptr, ptrOf_cons]
    omega
  unfold newChild
  refine Runs.bind (allocateNode_runs ha hE x w _) ?_
  rintro _ a₁ ⟨rfl, hsmall, ha₁⟩
  refine Runs.bind (getNode_spec ha₁ ((List.getElem?_append_left hcur).trans hc)) ?_
  rintro c a₂ ⟨rfl, ha₂⟩
  refine Runs.bind (getNode_spec ha₂ List.getElem?_concat_length) ?_
  rintro _ a₃ ⟨rfl, ha₃⟩
  refine setChild_runs ha₃ hcur fun a₄ ha₄ => ?_
  have hat := attached_set_concat (x := x) (w := w) (n := ⟨x, w, ptrOf root (T.map Prod.fst) q,
    nullPtr, c.firstChild, nullPtr⟩) hc rfl rfl rfl rfl rfl
  have hget := getElem?_set_concat hcur { c with firstChild := ns.length }
    ⟨x, w, ptrOf root (T.map Prod.fst) q, nullPtr, c.firstChild, nullPtr⟩
  refine Runs.bind (linkTail_spec ha₄ (by rw [hat.length]; omega) he
    (by rw [hat.length]; omega) ns.length) ?_
  rintro _ a₅ ⟨ns'', ha₅, rfl, hset, hlink⟩
  have hsize := h.size
  rw [← List.length_map (f := Prod.fst)] at hsize
  refine Runs.pure ⟨ns'', ha₅, rfl, hsmall, ?_, fun p hp => ?_, ?_, fun y => ?_⟩
  · rcases hset with rfl | ⟨n, hn, rfl⟩
    · exact hat
    · exact hat.setLink hn ns.length
  · have hbelow := hget p
    rw [if_neg (by omega), if_neg (by omega)] at hbelow
    rcases hset with rfl | ⟨n, hn, rfl⟩
    · exact hbelow
    · have hlt := (List.getElem?_eq_some_iff.mp hn).1
      rw [hat.length] at hlt
      exact (List.getElem?_set_ne (by omega)).trans hbelow
  · refine TailLinks.concat hlinks hsize h.small h.keys.nodup hnew he (fun p n hn => ?_) ?_
    · obtain ⟨m, hm, hsame⟩ := nodeLink_set_concat hc hn
      rw [← hsame]
      exact hlink p m hm
    · obtain ⟨n', hn', hnull⟩ := hlink ns.length _ ((hget ns.length).trans (if_pos rfl))
      rw [if_neg (by omega)] at hnull
      exact ⟨n', hn', hnull⟩
  · by_cases hyx : y = x
    · subst hyx
      simp [he]
    · rw [AList.lookup_insert_ne hyx]

theorem TailLinks.reweigh {p : ℕ} {n : TreeNode} (w : Utility)
    (hlinks : TailLinks ns root keys header) (hn : ns[p]? = some n) :
    TailLinks (ns.set p { n with weight := w }) root keys header := by
  intro x e he
  obtain ⟨hlinked, htail⟩ := hlinks x e he
  refine ⟨hlinked.congr fun p' _ n' hn' => ?_, htail⟩
  obtain ⟨w', hw'⟩ := (sameLinks_set hn w).2 p' n' hn'
  exact ⟨_, hw', rfl⟩

theorem attaches_newChild :
    Attaches newChild TailLinks fun header x => (header.lookup x).isSome where
  reweigh := TailLinks.reweigh
  attach w ha h hlinks hq hnew hknown hE := newChild_runs w ha h hlinks hq hnew hknown hE

end Links

/-! ## Building a tree -/

/-- The nodes hold the tree, which has the items `os` and the counters `T`. -/
structure UpTree.Holds (ns : List TreeNode) (tree : UpTree) (os : List ItemId) (T : Trie) :
    Prop where
  isTree : IsTree ns tree.root T
  links : TailLinks ns tree.root (T.map Prod.fst) tree.headerTable
  known : ∀ x, (tree.headerTable.lookup x).isSome ↔ x ∈ os

section Build

variable {a : NodeArena} {ns ns' : List TreeNode} {os : List ItemId} {T : Trie} {tree : UpTree}
  {m : Utility} {x : ItemId} {E : Fault → Prop}

theorem map_fst_validItems (m : Utility) (twu : Table ItemId Utility) :
    (validItems m twu).map Prod.fst = sortByKey (byTwu twu) (promising m twu) := by
  rw [validItems, List.map_map]
  exact List.map_id _

theorem lookup_withItems (m : Utility) (twu : Table ItemId Utility) (root : ℕ) (x : ItemId) :
    (UpTree.withItems ⟨∅, root⟩ (validItems m twu)).headerTable.lookup x =
      if x ∈ (validItems m twu).map Prod.fst then
        some ⟨x, (twu.lookup x).getD 0, nullPtr, nullPtr⟩
      else none := by
  rw [map_fst_validItems]
  simp only [UpTree.withItems, validItems, List.foldl_map]
  exact Table.lookup_foldl_insert (fun x =>
    HeaderEntry.mk x ((twu.lookup x).getD 0) nullPtr nullPtr)
    _ ∅ x

theorem new_spec (ha : a.Holds ns) (m : Utility) (twu : Table ItemId Utility)
    (hE : nullPtr ≤ ns.length → E .overflow) :
    Runs E UpTree.new a fun tree a' => tree = ⟨∅, ns.length⟩ ∧ ∃ ns', a'.Holds ns' ∧
      (tree.withItems (validItems m twu)).Holds ns' ((validItems m twu).map Prod.fst) [] ∧
      ∀ p < ns.length, ns'[p]? = ns[p]? := by
  refine Runs.bind (allocateRoot_spec ha hE) ?_
  rintro _ a₁ ⟨rfl, ns', ha₁, htree, hbelow⟩
  refine Runs.pure ⟨rfl, ns', ha₁, ⟨htree, fun x e he => ?_, fun x => ?_⟩, hbelow⟩
  · rw [lookup_withItems] at he
    split_ifs at he
    obtain rfl := Option.some.inj he
    exact ⟨rfl, rfl⟩
  · rw [lookup_withItems]
    split_ifs with hx <;> simp [hx]

theorem insertPaths_spec (ha : a.Holds ns') (htree : tree.Holds ns' os [])
    (hbelow : ∀ p < ns.length, ns'[p]? = ns[p]?) (hroot : tree.root = ns.length)
    {paths : List (List (ItemId × Utility))} (hpaths : ∀ path ∈ paths, ∀ e ∈ path, e.1 ∈ os)
    (hE : nullPtr ≤ ns.length + (tally [] (paths.flatMap (pathAdds []))).length → E .overflow) :
    Runs E (tree.insertPaths paths) a fun tree' a' => ∃ ns'', a'.Holds ns'' ∧
      ns''.take ns.length = ns ∧
      ns''.length = ns.length + 1 + (tally [] (paths.flatMap (pathAdds []))).length ∧
      tree'.Holds ns'' os (tally [] (paths.flatMap (pathAdds []))) := by
  have hinsert := insertAll_spec attaches_newChild ha htree.isTree htree.links paths
    (fun path hpath e he => (htree.known e.1).mpr (hpaths path hpath e he)) (hroot ▸ hE)
  refine Runs.bind hinsert ?_
  rintro header a₁ ⟨ns'', ha₁, htree', hlinks, hbelow', hknown⟩
  refine Runs.pure ⟨ns'', ha₁, take_of_below fun p hp => ?_, hroot ▸ htree'.size, htree', hlinks,
    fun x => (hknown x).trans (htree.known x)⟩
  exact (hbelow' p (hroot ▸ hp)).trans (hbelow p hp)

/-- The items of a header are visited in some order. -/
theorem tasks_perm (htree : tree.Holds ns os T) (hnodup : os.Nodup) :
    (tasks tree.headerTable).Perm os := by
  refine (sortByKey_perm _ _).trans ?_
  rw [List.perm_ext_iff_of_nodup (AList.keys_nodup _) hnodup]
  intro x
  rw [Table.mem_keys_iff, htree.known]

end Build

end UpGrowth

end AirHuim
