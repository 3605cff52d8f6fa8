import AirHuim.Library.Tally
import AirHuim.Mining.NodeArena

/-!
# Prefix trees in the arena

The trees of IHUP and UP-Growth: a node for every path of items from the root,
with its children in a linked list, newest first, and the nodes of one item in
another. In the abstract a tree is a list of counters, one for each path, in the
order of allocation. A path is given from its last item up to the root.
-/

namespace AirHuim

open Library NodeArena

/-! ## The code the trees share -/

/-- The search for a child, which adds to the weight of the one it finds. -/
def bumpChild (item : ItemId) (weight : Utility) : ℕ → ℕ → ArenaM (Option ℕ)
  | 0, _ => throw .stuck
  | fuel + 1, childPtr =>
      if childPtr = nullPtr then return none
      else do
        let childNode ← getNode childPtr
        if childNode.item = item then do
          setNode childPtr { childNode with weight := childNode.weight + weight }
          return some childPtr
        else bumpChild item weight fuel childNode.nextSibling

/-- The loop of an insertion. `attach` makes a new child and links it into the
header; it differs between the two trees. -/
def insertPath {H : Type} (attach : H → ℕ → ItemId → Utility → ArenaM (ℕ × H)) :
    H → ℕ → List (ItemId × Utility) → ArenaM H
  | header, _, [] => return header
  | header, current, (item, weight) :: rest => do
      let currNode ← getNode current
      let a ← get
      let found ← bumpChild item weight a.nextNodePtr currNode.firstChild
      match found with
      | some child => insertPath attach header child rest
      | none => do
          let (newChild, header) ← attach header current item weight
          insertPath attach header newChild rest

def insertAll {H : Type} (attach : H → ℕ → ItemId → Utility → ArenaM (ℕ × H)) (root : ℕ) :
    H → List (List (ItemId × Utility)) → ArenaM H
  | header, [] => return header
  | header, path :: paths => do
      let header ← insertPath attach header root path
      insertAll attach root header paths

/-- The items on the way up to the root. -/
def pathAbove (root : ℕ) : ℕ → ℕ → ArenaM (List ItemId)
  | 0, _ => throw .stuck
  | fuel + 1, p =>
      if p = root ∨ p = nullPtr then return []
      else do
        let node ← getNode p
        let rest ← pathAbove root fuel node.parent
        return node.item :: rest

/-- The nodes of one item, along their links: the path above each, from the
root, and its weight. -/
def readChain (root : ℕ) : ℕ → ℕ → ArenaM (List (List ItemId × Utility))
  | 0, _ => throw .stuck
  | fuel + 1, curr =>
      if curr = nullPtr then return []
      else do
        let node ← getNode curr
        let a ← get
        let path ← pathAbove root a.nextNodePtr node.parent
        let rest ← readChain root fuel node.nodeLink
        return (path.reverse, node.weight) :: rest

/-! ## Paths and pointers -/

/-- The counters of a tree. -/
abbrev Trie := List (List ItemId × Utility)

/-- A path of the tree, or the root. -/
abbrev OnTree (keys : List (List ItemId)) (q : List ItemId) : Prop := q = [] ∨ q ∈ keys

/-- The paths of a tree: distinct, and each after the one it extends. -/
inductive PathKeys : List (List ItemId) → Prop
  | nil : PathKeys []
  | concat {keys : List (List ItemId)} {x : ItemId} {q : List ItemId} (h : PathKeys keys)
      (hq : OnTree keys q) (hnew : x :: q ∉ keys) : PathKeys (keys ++ [x :: q])

/-- Where the node of a path is. -/
def ptrOf (root : ℕ) (keys : List (List ItemId)) (q : List ItemId) : ℕ :=
  if q = [] then root else root + 1 + keys.idxOf q

section Keys

variable {root : ℕ} {keys : List (List ItemId)} {q q' k : List ItemId} {x : ItemId}

theorem PathKeys.nodup (h : PathKeys keys) : keys.Nodup := by
  induction h with
  | nil => exact List.nodup_nil
  | concat _ _ hnew ih => exact List.Nodup.append ih (List.nodup_singleton _) (by simpa using hnew)

theorem OnTree.concat (h : OnTree keys q) (k : List ItemId) : OnTree (keys ++ [k]) q :=
  h.imp id (List.mem_append_left _)

theorem PathKeys.exists_cons (h : PathKeys keys) (hk : k ∈ keys) :
    ∃ x q, k = x :: q ∧ OnTree keys q := by
  induction h with
  | nil => exact (List.not_mem_nil hk).elim
  | @concat keys x q _ hq _ ih =>
    rcases List.mem_append.mp hk with hk | hk
    · obtain ⟨x, q, heq, hq⟩ := ih hk
      exact ⟨x, q, heq, hq.concat _⟩
    · exact ⟨x, q, List.mem_singleton.mp hk, hq.concat _⟩

theorem PathKeys.onTree_tail (h : PathKeys keys) (hk : x :: q ∈ keys) : OnTree keys q := by
  obtain ⟨_, _, heq, hq⟩ := h.exists_cons hk
  cases heq
  exact hq

/-- A path is no longer than the tree has nodes. -/
theorem PathKeys.length_le (h : PathKeys keys) (hq : OnTree keys q) : q.length ≤ keys.length := by
  induction h generalizing q with
  | nil =>
    rw [hq.resolve_right List.not_mem_nil]
    rfl
  | @concat keys x p _ hp _ ih =>
    rw [List.length_append, List.length_singleton]
    rcases hq with rfl | hq
    · exact Nat.zero_le _
    · rcases List.mem_append.mp hq with hq | hq
      · exact (ih (Or.inr hq)).trans (Nat.le_succ _)
      · rw [List.mem_singleton.mp hq, List.length_cons]
        exact Nat.succ_le_succ (ih hp)

theorem ptrOf_nil (root : ℕ) (keys : List (List ItemId)) : ptrOf root keys [] = root := if_pos rfl

theorem ptrOf_cons (root : ℕ) (keys : List (List ItemId)) (x : ItemId) (q : List ItemId) :
    ptrOf root keys (x :: q) = root + 1 + keys.idxOf (x :: q) :=
  if_neg (List.cons_ne_nil x q)

theorem ptrOf_lt (hq : OnTree keys q) : ptrOf root keys q < root + 1 + keys.length := by
  unfold ptrOf
  split_ifs with hnil
  · omega
  · have := List.idxOf_lt_length_iff.mpr (hq.resolve_left hnil)
    omega

theorem ptrOf_concat (hq : OnTree keys q) (k : List ItemId) :
    ptrOf root (keys ++ [k]) q = ptrOf root keys q := by
  unfold ptrOf
  split_ifs with hnil
  · rfl
  · rw [List.idxOf_append_of_mem (hq.resolve_left hnil)]

theorem ptrOf_concat_self (hnew : x :: q ∉ keys) :
    ptrOf root (keys ++ [x :: q]) (x :: q) = root + 1 + keys.length := by
  rw [ptrOf_cons, List.idxOf_append_of_notMem hnew, List.idxOf_cons_self]
  omega

theorem ptrOf_inj (hq : OnTree keys q) (h : ptrOf root keys q = ptrOf root keys q') :
    q = q' := by
  unfold ptrOf at h
  split_ifs at h with hnil hnil' hnil'
  · rw [hnil, hnil']
  · omega
  · omega
  · exact (List.idxOf_inj (hq.resolve_left hnil)).mp (by omega)

theorem ptrOf_eq_root_iff : ptrOf root keys q = root ↔ q = [] := by
  unfold ptrOf
  split_ifs with hnil
  · simp [hnil]
  · simp only [hnil, iff_false]
    omega

theorem root_le_ptrOf (root : ℕ) (keys : List (List ItemId)) (q : List ItemId) :
    root ≤ ptrOf root keys q := by
  unfold ptrOf
  split_ifs <;> omega

/-- The nodes of the paths that satisfy `p`, oldest first. -/
def ptrsOf (root : ℕ) (keys : List (List ItemId)) (p : List ItemId → Prop) [DecidablePred p] :
    List ℕ :=
  (keys.filter p).map (ptrOf root keys)

variable (p : List ItemId → Prop) [DecidablePred p]

theorem ptrsOf_concat (hnew : x :: q ∉ keys) :
    ptrsOf root (keys ++ [x :: q]) p =
      ptrsOf root keys p ++ if p (x :: q) then [root + 1 + keys.length] else [] := by
  have hold : (keys.filter p).map (ptrOf root (keys ++ [x :: q])) =
      (keys.filter p).map (ptrOf root keys) := by
    apply List.map_congr_left
    intro k hk
    exact ptrOf_concat (Or.inr (List.mem_of_mem_filter hk)) _
  rw [ptrsOf, ptrsOf, List.filter_append, List.map_append, hold]
  split_ifs with hp
  · rw [List.filter_cons_of_pos (by simpa using hp), List.filter_nil, List.map_singleton,
      ptrOf_concat_self hnew]
  · rw [List.filter_cons_of_neg (by simpa using hp), List.filter_nil, List.map_nil]

theorem mem_ptrsOf {ptr : ℕ} :
    ptr ∈ ptrsOf root keys p ↔ ∃ k ∈ keys, p k ∧ ptrOf root keys k = ptr := by
  simp [ptrsOf, and_assoc]

/-- A new path has no children. -/
theorem PathKeys.ptrsOf_new (h : PathKeys keys) (hnew : x :: q ∉ keys) :
    ptrsOf root (keys ++ [x :: q]) (fun k => k.tail = x :: q) = [] := by
  rw [ptrsOf, List.map_eq_nil_iff, List.filter_eq_nil_iff]
  intro k hk htail
  have htail := of_decide_eq_true htail
  rcases List.mem_append.mp hk with hk | hk
  · obtain ⟨y, q', rfl, hq'⟩ := h.exists_cons hk
    obtain rfl : q' = x :: q := htail
    exact hnew (hq'.resolve_left (List.cons_ne_nil x q))
  · rw [List.mem_singleton.mp hk] at htail
    exact List.cons_ne_self x q htail.symm

theorem ptrsOf_map_fst {w : Type*} (T : List (List ItemId × w)) :
    ptrsOf root (T.map Prod.fst) p =
      (T.filter fun e => p e.1).map fun e => ptrOf root (T.map Prod.fst) e.1 := by
  rw [ptrsOf, List.filter_map, List.map_map]
  rfl

theorem nodup_ptrsOf (h : keys.Nodup) : (ptrsOf root keys p).Nodup := by
  refine List.Nodup.map_on ?_ (h.filter _)
  intro k hk k' _ heq
  exact ptrOf_inj (Or.inr (List.mem_of_mem_filter hk)) heq

theorem length_ptrsOf_le : (ptrsOf root keys p).length ≤ keys.length := by
  rw [ptrsOf, List.length_map]
  exact List.length_filter_le _ _

end Keys

/-! ## Linked lists -/

section Linked

variable {ns ns' : List TreeNode} {link : TreeNode → ℕ} {start : ℕ} {ps : List ℕ}

/-- From `start` the links run through the nodes `ps`. -/
def Linked (ns : List TreeNode) (link : TreeNode → ℕ) : ℕ → List ℕ → Prop
  | start, [] => start = nullPtr
  | start, p :: ps => start = p ∧ ∃ n, ns[p]? = some n ∧ Linked ns link (link n) ps

/-- A linked list only depends on the links of its nodes. -/
theorem Linked.congr (h : Linked ns link start ps)
    (hlinks : ∀ p ∈ ps, ∀ n, ns[p]? = some n → ∃ n', ns'[p]? = some n' ∧ link n' = link n) :
    Linked ns' link start ps := by
  induction ps generalizing start with
  | nil => exact h
  | cons p ps ih =>
    obtain ⟨hstart, n, hn, hrest⟩ := h
    obtain ⟨n', hn', hlink⟩ := hlinks p List.mem_cons_self n hn
    refine ⟨hstart, n', hn', ?_⟩
    rw [hlink]
    exact ih hrest fun p hp => hlinks p (List.mem_cons_of_mem _ hp)

/-- A node after the last one. -/
theorem Linked.snoc {last next : ℕ} (h : Linked ns link start (ps ++ [last]))
    (hlinks : ∀ p ∈ ps, ∀ n, ns[p]? = some n → ∃ n', ns'[p]? = some n' ∧ link n' = link n)
    (hlast : ∃ n, ns'[last]? = some n ∧ link n = next)
    (hnext : ∃ n, ns'[next]? = some n ∧ link n = nullPtr) :
    Linked ns' link start (ps ++ [last] ++ [next]) := by
  induction ps generalizing start with
  | nil =>
    obtain ⟨n, hn, hlink⟩ := hlast
    obtain ⟨n', hn', hnull⟩ := hnext
    exact ⟨h.1, n, hn, hlink, n', hn', hnull⟩
  | cons p ps ih =>
    obtain ⟨hstart, n, hn, hrest⟩ := h
    obtain ⟨n', hn', hlink⟩ := hlinks p List.mem_cons_self n hn
    refine ⟨hstart, n', hn', ?_⟩
    rw [hlink]
    exact ih hrest fun p hp => hlinks p (List.mem_cons_of_mem _ hp)

theorem Linked.exists_get (h : Linked ns link start ps) {p : ℕ} (hp : p ∈ ps) :
    ∃ n, ns[p]? = some n := by
  induction ps generalizing start with
  | nil => exact (List.not_mem_nil hp).elim
  | cons q ps ih =>
    obtain ⟨-, n, hn, hrest⟩ := h
    rcases List.mem_cons.mp hp with rfl | hp
    · exact ⟨n, hn⟩
    · exact ih hrest hp

end Linked

/-! ## A tree in the arena -/

/-- The nodes end with a tree at `root`, which has the counters `T`. -/
structure IsTree (ns : List TreeNode) (root : ℕ) (T : Trie) : Prop where
  keys : PathKeys (T.map Prod.fst)
  size : ns.length = root + 1 + T.length
  small : ns.length ≤ nullPtr
  node : ∀ e ∈ T, ∀ x q, e.1 = x :: q → ∃ n, ns[ptrOf root (T.map Prod.fst) e.1]? = some n ∧
    n.item = x ∧ n.weight = e.2 ∧ n.parent = ptrOf root (T.map Prod.fst) q
  children : ∀ q, OnTree (T.map Prod.fst) q → ∃ n, ns[ptrOf root (T.map Prod.fst) q]? = some n ∧
    Linked ns TreeNode.nextSibling n.firstChild
      (ptrsOf root (T.map Prod.fst) fun k => k.tail = q).reverse

section Tree

variable {a : NodeArena} {ns ns' : List TreeNode} {root : ℕ} {T : Trie} {q : List ItemId}
  {x : ItemId} {w : Utility} {E : Fault → Prop}

theorem IsTree.ptrOf_lt (h : IsTree ns root T) (hq : OnTree (T.map Prod.fst) q) :
    ptrOf root (T.map Prod.fst) q < ns.length := by
  have hlt : ptrOf root (T.map Prod.fst) q < root + 1 + (T.map Prod.fst).length :=
    AirHuim.ptrOf_lt hq
  rwa [List.length_map, ← h.size] at hlt

theorem IsTree.node_of_key (h : IsTree ns root T) (hk : x :: q ∈ T.map Prod.fst) :
    ∃ n, ns[ptrOf root (T.map Prod.fst) (x :: q)]? = some n ∧ n.item = x ∧
      n.parent = ptrOf root (T.map Prod.fst) q := by
  obtain ⟨e, he, heq⟩ := List.mem_map.mp hk
  obtain ⟨n, hn, hitem, -, hparent⟩ := h.node e he x q heq
  exact ⟨n, heq ▸ hn, hitem, hparent⟩

/-- A freshly allocated root. -/
theorem isTree_root {pre : List TreeNode} {n : TreeNode} (hchild : n.firstChild = nullPtr)
    (hsmall : pre.length < nullPtr) : IsTree (pre ++ [n]) pre.length [] where
  keys := PathKeys.nil
  size := by simp
  small := by
    rw [List.length_append, List.length_singleton]
    exact hsmall
  node := by simp
  children q hq := by
    rw [hq.resolve_right List.not_mem_nil]
    exact ⟨n, by simp [ptrOf_nil], hchild⟩

/-- Allocating a root leaves what is below it. -/
theorem allocateRoot_spec (ha : a.Holds ns) (hE : nullPtr ≤ ns.length → E .overflow) :
    Runs E (allocateNode 0 0 nullPtr) a fun root a' =>
      root = ns.length ∧ ∃ ns', a'.Holds ns' ∧ IsTree ns' root [] ∧
        ∀ p < root, ns'[p]? = ns[p]? := by
  refine (allocateNode_runs ha hE 0 0 nullPtr).mono ?_
  rintro root a' ⟨rfl, hsmall, ha'⟩
  refine ⟨rfl, _, ha', isTree_root rfl hsmall, fun p hp => ?_⟩
  exact List.getElem?_append_left hp

/-- Giving back a tree leaves the nodes below its root. -/
theorem take_of_below (h : ∀ p < ns.length, ns'[p]? = ns[p]?) :
    ns'.take ns.length = ns := by
  apply List.ext_getElem?
  intro p
  rw [List.getElem?_take]
  split_ifs with hp
  · exact h p hp
  · exact (List.getElem?_eq_none (not_lt.mp hp)).symm

/-- The way up from a path gives the path. -/
theorem pathAbove_spec (ha : a.Holds ns) (h : IsTree ns root T) (hq : OnTree (T.map Prod.fst) q)
    {fuel : ℕ} (hfuel : q.length < fuel) :
    Runs E (pathAbove root fuel (ptrOf root (T.map Prod.fst) q)) a fun path a' =>
      path = q ∧ a'.Holds ns := by
  induction q generalizing fuel a with
  | nil =>
    obtain ⟨fuel, rfl⟩ : ∃ n, fuel = n + 1 := ⟨fuel - 1, by omega⟩
    rw [ptrOf_nil]
    unfold pathAbove
    rw [if_pos (Or.inl rfl)]
    exact Runs.pure ⟨rfl, ha⟩
  | cons x q ih =>
    obtain ⟨fuel, rfl⟩ : ∃ n, fuel = n + 1 := ⟨fuel - 1, by omega⟩
    have hk := hq.resolve_left (List.cons_ne_nil x q)
    obtain ⟨n, hn, hitem, hparent⟩ := h.node_of_key hk
    have hroot : ptrOf root (T.map Prod.fst) (x :: q) ≠ root := fun heq =>
      List.cons_ne_nil x q (ptrOf_eq_root_iff.mp heq)
    have hnull : ptrOf root (T.map Prod.fst) (x :: q) ≠ nullPtr :=
      ((h.ptrOf_lt hq).trans_le h.small).ne
    unfold pathAbove
    rw [if_neg (not_or.mpr ⟨hroot, hnull⟩)]
    refine Runs.bind (getNode_spec ha hn) ?_
    rintro _ a₁ ⟨rfl, ha₁⟩
    rw [hparent]
    refine Runs.bind (ih ha₁ (h.keys.onTree_tail hk) (Nat.lt_of_succ_lt_succ hfuel)) ?_
    rintro _ a₂ ⟨rfl, ha₂⟩
    exact Runs.pure ⟨congrArg (· :: _) hitem, ha₂⟩

/-- Reading the linked nodes of some paths. -/
theorem readChain_spec (ha : a.Holds ns) (h : IsTree ns root T) {es : Trie} (hes : ∀ e ∈ es, e ∈ T)
    {start : ℕ} (hlinked : Linked ns TreeNode.nodeLink start
      (es.map fun e => ptrOf root (T.map Prod.fst) e.1)) {fuel : ℕ} (hfuel : es.length < fuel) :
    Runs E (readChain root fuel start) a fun entries a' =>
      entries = es.map (fun e => (e.1.tail.reverse, e.2)) ∧ a'.Holds ns := by
  induction es generalizing start fuel a with
  | nil =>
    obtain ⟨fuel, rfl⟩ : ∃ n, fuel = n + 1 := ⟨fuel - 1, by omega⟩
    have hstart : start = nullPtr := hlinked
    unfold readChain
    rw [if_pos hstart]
    exact Runs.pure ⟨rfl, ha⟩
  | cons e es ih =>
    obtain ⟨fuel, rfl⟩ : ∃ n, fuel = n + 1 := ⟨fuel - 1, by omega⟩
    have hkey : e.1 ∈ T.map Prod.fst := List.mem_map_of_mem (hes e List.mem_cons_self)
    obtain ⟨x, q, heq, hq⟩ := h.keys.exists_cons hkey
    obtain ⟨rfl, n, hn, hrest⟩ := hlinked
    obtain ⟨n', hn', -, hweight, hparent⟩ := h.node e (hes e List.mem_cons_self) x q heq
    obtain rfl : n = n' := Option.some.inj (hn.symm.trans hn')
    have hnull : ptrOf root (T.map Prod.fst) e.1 ≠ nullPtr :=
      ((h.ptrOf_lt (Or.inr hkey)).trans_le h.small).ne
    unfold readChain
    rw [if_neg hnull]
    refine Runs.bind (getNode_spec ha hn) ?_
    rintro _ a₁ ⟨rfl, ha₁⟩
    refine Runs.get_bind ?_
    rw [hparent]
    have hdepth : q.length < a₁.nextNodePtr := by
      have := h.keys.length_le hq
      rw [List.length_map] at this
      rw [ha₁.next, h.size]
      omega
    refine Runs.bind (pathAbove_spec ha₁ h hq hdepth) ?_
    rintro _ a₂ ⟨rfl, ha₂⟩
    refine Runs.bind (ih ha₂ (fun e he => hes e (List.mem_cons_of_mem _ he)) hrest
      (Nat.lt_of_succ_lt_succ hfuel)) ?_
    rintro _ a₃ ⟨rfl, ha₃⟩
    refine Runs.pure ⟨?_, ha₃⟩
    rw [List.map_cons, heq, hweight]
    rfl

/-- The search along a list of children. -/
theorem bumpChild_list (ha : a.Holds ns) (hsmall : ns.length ≤ nullPtr) (w : Utility) {ps : List ℕ}
    {start : ℕ} (hlinked : Linked ns TreeNode.nextSibling start ps) {fuel : ℕ}
    (hfuel : ps.length < fuel) :
    Runs E (bumpChild x w fuel start) a fun found a' =>
      (found = none ∧ a'.Holds ns ∧ ∀ p ∈ ps, ∀ n, ns[p]? = some n → n.item ≠ x) ∨
        ∃ p ∈ ps, ∃ n, ns[p]? = some n ∧ n.item = x ∧ found = some p ∧
          a'.Holds (ns.set p { n with weight := n.weight + w }) := by
  induction ps generalizing start fuel a with
  | nil =>
    obtain ⟨fuel, rfl⟩ : ∃ n, fuel = n + 1 := ⟨fuel - 1, by omega⟩
    have hstart : start = nullPtr := hlinked
    unfold bumpChild
    rw [if_pos hstart]
    exact Runs.pure (Or.inl ⟨rfl, ha, by simp⟩)
  | cons p ps ih =>
    obtain ⟨fuel, rfl⟩ : ∃ n, fuel = n + 1 := ⟨fuel - 1, by omega⟩
    obtain ⟨rfl, n, hn, hrest⟩ := hlinked
    have hlt : start < ns.length := (List.getElem?_eq_some_iff.mp hn).1
    unfold bumpChild
    rw [if_neg (hlt.trans_le hsmall).ne]
    refine Runs.bind (getNode_spec ha hn) ?_
    rintro _ a₁ ⟨rfl, ha₁⟩
    split_ifs with hitem
    · refine Runs.bind (setNode_spec ha₁ _ hlt) ?_
      intro _ a₂ ha₂
      exact Runs.pure (Or.inr ⟨start, List.mem_cons_self, _, hn, hitem, rfl, ha₂⟩)
    · refine (ih ha₁ hrest (Nat.lt_of_succ_lt_succ hfuel)).mono ?_
      rintro found a₂ (⟨rfl, ha₂, hnone⟩ | ⟨p, hp, m, hm, hmx, rfl, ha₂⟩)
      · refine Or.inl ⟨rfl, ha₂, fun p hp m hm => ?_⟩
        rcases List.mem_cons.mp hp with rfl | hp
        · rw [hn] at hm
          exact Option.some.inj hm ▸ hitem
        · exact hnone p hp m hm
      · exact Or.inr ⟨p, List.mem_cons_of_mem _ hp, m, hm, hmx, rfl, ha₂⟩

/-- A child of `q` with the item `x` is the node of the path with `x` more. -/
theorem IsTree.of_child (h : IsTree ns root T) {p : ℕ}
    (hp : p ∈ (ptrsOf root (T.map Prod.fst) fun k => k.tail = q).reverse) {m : TreeNode}
    (hm : ns[p]? = some m) (hmx : m.item = x) :
    x :: q ∈ T.map Prod.fst ∧ p = ptrOf root (T.map Prod.fst) (x :: q) := by
  obtain ⟨k, hk, htail, rfl⟩ := (mem_ptrsOf _).mp (List.mem_reverse.mp hp)
  obtain ⟨y, q', rfl, -⟩ := h.keys.exists_cons hk
  obtain ⟨m', hm', hitem, -⟩ := h.node_of_key hk
  obtain rfl : m = m' := Option.some.inj (hm.symm.trans hm')
  obtain rfl : q' = q := htail
  obtain rfl : y = x := hitem.symm.trans hmx
  exact ⟨hk, rfl⟩

/-- The search for a child of `q`: it finds the path with one more item, if the
tree has it. -/
theorem bumpChild_spec (ha : a.Holds ns) (h : IsTree ns root T) (hq : OnTree (T.map Prod.fst) q)
    {n : TreeNode} (hn : ns[ptrOf root (T.map Prod.fst) q]? = some n) (w : Utility) :
    Runs E (bumpChild x w a.nextNodePtr n.firstChild) a fun found a' =>
      (found = none ∧ a'.Holds ns ∧ x :: q ∉ T.map Prod.fst) ∨
        (x :: q ∈ T.map Prod.fst ∧ found = some (ptrOf root (T.map Prod.fst) (x :: q)) ∧
          ∃ m, ns[ptrOf root (T.map Prod.fst) (x :: q)]? = some m ∧
            a'.Holds (ns.set (ptrOf root (T.map Prod.fst) (x :: q))
              { m with weight := m.weight + w })) := by
  obtain ⟨n', hn', hlinked⟩ := h.children q hq
  obtain rfl : n = n' := Option.some.inj (hn.symm.trans hn')
  have hfuel : (ptrsOf root (T.map Prod.fst) fun k => k.tail = q).reverse.length <
      a.nextNodePtr := by
    have hle : (ptrsOf root (T.map Prod.fst) fun k => k.tail = q).length ≤
      (T.map Prod.fst).length := length_ptrsOf_le _
    rw [List.length_map] at hle
    rw [List.length_reverse, ha.next, h.size]
    omega
  refine (bumpChild_list ha h.small w hlinked hfuel).mono ?_
  rintro found a' (⟨rfl, ha', hnone⟩ | ⟨p, hp, m, hm, hmx, rfl, ha'⟩)
  · refine Or.inl ⟨rfl, ha', fun hk => ?_⟩
    obtain ⟨m, hm, hitem, -⟩ := h.node_of_key hk
    refine hnone _ (List.mem_reverse.mpr ?_) m hm hitem
    exact (mem_ptrsOf _).mpr ⟨x :: q, hk, rfl, rfl⟩
  · obtain ⟨hk, rfl⟩ := h.of_child hp hm hmx
    exact Or.inr ⟨hk, rfl, m, hm, ha'⟩

/-- The same nodes, but for some weights. -/
def SameLinks (ns ns' : List TreeNode) : Prop :=
  ns'.length = ns.length ∧
    ∀ (p : ℕ) (n : TreeNode), ns[p]? = some n → ∃ w, ns'[p]? = some { n with weight := w }

theorem sameLinks_set {p : ℕ} {n : TreeNode} (hn : ns[p]? = some n) (w : Utility) :
    SameLinks ns (ns.set p { n with weight := w }) := by
  refine ⟨List.length_set, fun p' n' hn' => ?_⟩
  rw [List.getElem?_set]
  split_ifs with heq hlt
  · subst heq
    exact ⟨w, by rw [Option.some.inj (hn.symm.trans hn')]⟩
  · subst heq
    exact (hlt (List.getElem?_eq_some_iff.mp hn).1).elim
  · exact ⟨n'.weight, hn'⟩

/-- Adding to a weight is adding to a counter. -/
theorem IsTree.bump (h : IsTree ns root T) (hk : x :: q ∈ T.map Prod.fst) {m : TreeNode}
    (hm : ns[ptrOf root (T.map Prod.fst) (x :: q)]? = some m) (w : Utility) :
    IsTree (ns.set (ptrOf root (T.map Prod.fst) (x :: q)) { m with weight := m.weight + w }) root
      (tallyAdd (x :: q) w T) := by
  have hkeys : (tallyAdd (x :: q) w T).map Prod.fst = T.map Prod.fst := by
    rw [keys_tallyAdd, if_pos hk]
  obtain ⟨hlen, hsame⟩ := sameLinks_set hm (m.weight + w)
  have hlength : (tallyAdd (x :: q) w T).length = T.length := by
    simpa using congrArg List.length hkeys
  constructor
  · rw [hkeys]
    exact h.keys
  · rw [hlen, hlength]
    exact h.size
  · rw [hlen]
    exact h.small
  · rw [hkeys]
    intro e' he' y p hyp
    obtain ⟨e, he, rfl⟩ := exists_of_mem_tallyAdd h.keys.nodup hk he'
    obtain ⟨n, hn, hitem, hweight, hparent⟩ := h.node e he y p hyp
    by_cases hex : e.1 = x :: q
    · have hmn : m = n := Option.some.inj (hm.symm.trans (hex ▸ hn))
      refine ⟨{ m with weight := m.weight + w }, ?_, ?_, ?_, ?_⟩
      · rw [hex]
        exact List.getElem?_set_self (List.getElem?_eq_some_iff.mp hm).1
      · rw [← hitem, hmn]
      · rw [if_pos hex, ← hweight, hmn]
      · rw [← hparent, hmn]
    · have hptr : ptrOf root (T.map Prod.fst) (x :: q) ≠ ptrOf root (T.map Prod.fst) e.1 :=
        fun heq => hex (ptrOf_inj (Or.inr hk) heq).symm
      refine ⟨n, ?_, hitem, ?_, hparent⟩
      · rw [List.getElem?_set_ne hptr]
        exact hn
      · rw [if_neg hex]
        exact hweight
  · rw [hkeys]
    intro p hp
    obtain ⟨n, hn, hlinked⟩ := h.children p hp
    obtain ⟨w', hn'⟩ := hsame _ n hn
    refine ⟨_, hn', hlinked.congr fun r _ n' hr => ?_⟩
    obtain ⟨w'', hr'⟩ := hsame r n' hr
    exact ⟨_, hr', rfl⟩

/-- A node of `x` is added as the first child of the node at `cur`; the links of
one item are not looked at. -/
structure Attached (ns ns' : List TreeNode) (cur : ℕ) (x : ItemId) (w : Utility) : Prop where
  length : ns'.length = ns.length + 1
  old : ∀ p n, ns[p]? = some n → ∃ n', ns'[p]? = some n' ∧ n'.item = n.item ∧
    n'.weight = n.weight ∧ n'.parent = n.parent ∧ n'.nextSibling = n.nextSibling ∧
    n'.firstChild = if p = cur then ns.length else n.firstChild
  new : ∃ c n, ns[cur]? = some c ∧ ns'[ns.length]? = some n ∧ n.item = x ∧ n.weight = w ∧
    n.parent = cur ∧ n.firstChild = nullPtr ∧ n.nextSibling = c.firstChild

theorem getElem?_set_concat {cur : ℕ} (hcur : cur < ns.length) (c n : TreeNode) (p : ℕ) :
    (ns.set cur c ++ [n])[p]? =
      if p = ns.length then some n else if p = cur then some c else ns[p]? := by
  rcases lt_trichotomy p ns.length with hlt | rfl | hgt
  · rw [List.getElem?_append_left (by rwa [List.length_set]), if_neg hlt.ne]
    split_ifs with hpc
    · subst hpc
      exact List.getElem?_set_self hcur
    · exact List.getElem?_set_ne (Ne.symm hpc)
  · rw [if_pos rfl, List.getElem?_append_right (by rw [List.length_set])]
    simp
  · rw [if_neg hgt.ne', if_neg (hcur.trans hgt).ne', List.getElem?_eq_none hgt.le]
    apply List.getElem?_eq_none
    rw [List.length_append, List.length_set, List.length_singleton]
    omega

/-- The two writes that make the last node a child. -/
theorem setChild_runs {β : Type} {rest : ArenaM β} {Q : β → NodeArena → Prop} {cur : ℕ}
    {c n n₀ : TreeNode} (ha : a.Holds (ns ++ [n₀])) (hcur : cur < ns.length)
    (hrest : ∀ a', a'.Holds (ns.set cur c ++ [n]) → Runs E rest a' Q) :
    Runs E (do
        setNode ns.length n
        setNode cur c
        rest) a Q := by
  refine Runs.bind (setNode_spec ha n (by simp)) ?_
  intro _ a₁ ha₁
  refine Runs.bind (setNode_spec ha₁ c (by simpa using hcur.trans (Nat.lt_succ_self _))) ?_
  intro _ a₂ ha₂
  rw [List.set_append_right _ _ le_rfl, Nat.sub_self, List.set_cons_zero,
    List.set_append_left _ _ hcur] at ha₂
  exact hrest a₂ ha₂

/-- Adding a child does not change the links between the old nodes of an item. -/
theorem nodeLink_set_concat {cur p l : ℕ} {c n m : TreeNode} (hc : ns[cur]? = some c)
    (hm : ns[p]? = some m) : ∃ m' : TreeNode,
      (ns.set cur { c with firstChild := l } ++ [n])[p]? = some m' ∧ m'.nodeLink = m.nodeLink := by
  have hp : p < ns.length := (List.getElem?_eq_some_iff.mp hm).1
  rw [getElem?_set_concat (List.getElem?_eq_some_iff.mp hc).1, if_neg hp.ne]
  split_ifs with hpc
  · subst hpc
    exact ⟨_, rfl, by rw [Option.some.inj (hc.symm.trans hm)]⟩
  · exact ⟨m, hm, rfl⟩

/-- What the code of both trees does to add a child, but for the links. -/
theorem attached_set_concat {cur : ℕ} {c n : TreeNode} (hc : ns[cur]? = some c)
    (hitem : n.item = x) (hweight : n.weight = w) (hparent : n.parent = cur)
    (hchild : n.firstChild = nullPtr) (hsibling : n.nextSibling = c.firstChild) :
    Attached ns (ns.set cur { c with firstChild := ns.length } ++ [n]) cur x w := by
  have hcur : cur < ns.length := (List.getElem?_eq_some_iff.mp hc).1
  have hget := getElem?_set_concat hcur { c with firstChild := ns.length } n
  constructor
  · rw [List.length_append, List.length_set, List.length_singleton]
  · intro p m hm
    have hp : p < ns.length := (List.getElem?_eq_some_iff.mp hm).1
    rw [hget, if_neg hp.ne]
    by_cases hpc : p = cur
    · subst hpc
      obtain rfl : m = c := Option.some.inj (hm.symm.trans hc)
      rw [if_pos rfl]
      exact ⟨_, rfl, rfl, rfl, rfl, rfl, (if_pos rfl).symm⟩
    · rw [if_neg hpc]
      exact ⟨m, hm, rfl, rfl, rfl, rfl, (if_neg hpc).symm⟩
  · exact ⟨c, n, hc, by rw [hget, if_pos rfl], hitem, hweight, hparent, hchild, hsibling⟩

/-- The links of one item do not matter to the tree. -/
theorem Attached.setLink {cur p : ℕ} {n : TreeNode} (h : Attached ns ns' cur x w)
    (hn : ns'[p]? = some n) (l : ℕ) : Attached ns (ns'.set p { n with nodeLink := l }) cur x w := by
  have hget : ∀ (p' : ℕ) (m : TreeNode), ns'[p']? = some m →
      ∃ l', (ns'.set p { n with nodeLink := l })[p']? = some { m with nodeLink := l' } := by
    intro p' m hm
    rw [List.getElem?_set]
    split_ifs with heq hlt
    · subst heq
      exact ⟨l, by rw [Option.some.inj (hn.symm.trans hm)]⟩
    · exact (hlt (List.getElem?_eq_some_iff.mp (heq ▸ hm)).1).elim
    · exact ⟨m.nodeLink, hm⟩
  constructor
  · rw [List.length_set, h.length]
  · intro p' m hm
    obtain ⟨m', hm', hrest⟩ := h.old p' m hm
    obtain ⟨l', hl'⟩ := hget p' m' hm'
    exact ⟨_, hl', hrest⟩
  · obtain ⟨c, m, hc, hm, hrest⟩ := h.new
    obtain ⟨l', hl'⟩ := hget _ m hm
    exact ⟨c, _, hc, hl', hrest⟩

/-- Adding a child is starting a counter. -/
theorem IsTree.attach (h : IsTree ns root T) (hq : OnTree (T.map Prod.fst) q)
    (hnew : x :: q ∉ T.map Prod.fst) (hsmall : ns.length < nullPtr)
    (hat : Attached ns ns' (ptrOf root (T.map Prod.fst) q) x w) :
    IsTree ns' root (T ++ [(x :: q, w)]) := by
  have hkeys : (T ++ [(x :: q, w)]).map Prod.fst = T.map Prod.fst ++ [x :: q] := by simp
  have hself : ptrOf root (T.map Prod.fst ++ [x :: q]) (x :: q) = ns.length := by
    rw [ptrOf_concat_self hnew, List.length_map, h.size]
  obtain ⟨c, new, hc, hget, hitem, hweight, hparent, hchild, hsibling⟩ := hat.new
  have hsiblings : ∀ {start ps}, Linked ns TreeNode.nextSibling start ps →
      Linked ns' TreeNode.nextSibling start ps := by
    intro start ps hlinked
    refine hlinked.congr fun p _ n hn => ?_
    obtain ⟨n', hn', -, -, -, hsame, -⟩ := hat.old p n hn
    exact ⟨n', hn', hsame⟩
  constructor
  · rw [hkeys]
    exact h.keys.concat hq hnew
  · rw [hat.length, h.size, List.length_append, List.length_singleton]
    omega
  · rw [hat.length]
    exact hsmall
  · rw [hkeys]
    intro e he y p hyp
    rcases List.mem_append.mp he with he | he
    · obtain ⟨n, hn, hitem, hweight, hparent⟩ := h.node e he y p hyp
      obtain ⟨n', hn', hitem', hweight', hparent', -, -⟩ := hat.old _ n hn
      have hkey : y :: p ∈ T.map Prod.fst := hyp ▸ List.mem_map_of_mem he
      rw [hyp] at hn'
      rw [hyp, ptrOf_concat (Or.inr hkey), ptrOf_concat (h.keys.onTree_tail hkey)]
      exact ⟨n', hn', hitem'.trans hitem, hweight'.trans hweight, hparent'.trans hparent⟩
    · rw [List.mem_singleton.mp he] at hyp ⊢
      cases hyp
      rw [hself, ptrOf_concat hq]
      exact ⟨new, hget, hitem, hweight, hparent⟩
  · rw [hkeys]
    intro p hp
    by_cases hpx : p = x :: q
    · subst hpx
      rw [hself, h.keys.ptrsOf_new hnew]
      exact ⟨new, hget, hchild⟩
    · have hp : OnTree (T.map Prod.fst) p :=
        hp.imp_right fun hmem => (List.mem_append.mp hmem).resolve_right fun hlast =>
          hpx (List.mem_singleton.mp hlast)
      obtain ⟨n, hn, hlinked⟩ := h.children p hp
      obtain ⟨n', hn', -, -, -, -, hfirst⟩ := hat.old _ n hn
      rw [ptrOf_concat hp, ptrsOf_concat _ hnew]
      refine ⟨n', hn', ?_⟩
      by_cases hpq : p = q
      · subst hpq
        obtain rfl : n = c := Option.some.inj (hn.symm.trans hc)
        rw [if_pos rfl] at hfirst
        rw [if_pos (by rfl), List.reverse_append, List.length_map, ← h.size]
        refine ⟨hfirst, new, hget, ?_⟩
        rw [hsibling]
        exact hsiblings hlinked
      · have hptr : ptrOf root (T.map Prod.fst) p ≠ ptrOf root (T.map Prod.fst) q :=
          fun heq => hpq (ptrOf_inj hp heq)
        rw [if_neg hptr] at hfirst
        rw [List.tail_cons, if_neg (Ne.symm hpq), List.append_nil, hfirst]
        exact hsiblings hlinked

end Tree

/-! ## Insertions -/

section Insertion

variable {H : Type} {attach : H → ℕ → ItemId → Utility → ArenaM (ℕ × H)}
  {links : List TreeNode → ℕ → List (List ItemId) → H → Prop} {known : H → ItemId → Prop}
  {a : NodeArena} {ns : List TreeNode} {root : ℕ} {T : Trie} {q : List ItemId} {header : H}
  {E : Fault → Prop} {M : ℕ}

/-- What is required of `attach`: it keeps the invariant `links` of the header,
in which it finds the items that are `known`, and fails only if the pointers have
run out. -/
structure Attaches (attach : H → ℕ → ItemId → Utility → ArenaM (ℕ × H))
    (links : List TreeNode → ℕ → List (List ItemId) → H → Prop) (known : H → ItemId → Prop) :
    Prop where
  reweigh : ∀ {ns root keys header p} {n : TreeNode} (w : Utility), links ns root keys header →
    ns[p]? = some n → links (ns.set p { n with weight := w }) root keys header
  attach : ∀ {E : Fault → Prop} {a ns root T header q x} (w : Utility), NodeArena.Holds a ns →
    IsTree ns root T → links ns root (T.map Prod.fst) header → OnTree (T.map Prod.fst) q →
    x :: q ∉ T.map Prod.fst → known header x → (nullPtr ≤ ns.length → E .overflow) →
    Runs E (attach header (ptrOf root (T.map Prod.fst) q) x w) a fun r a' =>
      ∃ ns', a'.Holds ns' ∧ r.1 = ns.length ∧ ns.length < nullPtr ∧
        Attached ns ns' (ptrOf root (T.map Prod.fst) q) x w ∧
        (∀ p < root, ns'[p]? = ns[p]?) ∧ links ns' root (T.map Prod.fst ++ [x :: q]) r.2 ∧
        ∀ y, known r.2 y ↔ known header y

/-- The same, with the faults `E`, for the tree at `root` while it has fewer than
`M` nodes. -/
structure AttachesUpTo (E : Fault → Prop) (root M : ℕ)
    (attach : H → ℕ → ItemId → Utility → ArenaM (ℕ × H))
    (links : List TreeNode → ℕ → List (List ItemId) → H → Prop) (known : H → ItemId → Prop) :
    Prop where
  reweigh : ∀ {ns keys header p} {n : TreeNode} (w : Utility), links ns root keys header →
    ns[p]? = some n → links (ns.set p { n with weight := w }) root keys header
  attach : ∀ {a ns T header q x} (w : Utility), NodeArena.Holds a ns → IsTree ns root T →
    links ns root (T.map Prod.fst) header → OnTree (T.map Prod.fst) q →
    x :: q ∉ T.map Prod.fst → known header x → T.length < M →
    Runs E (attach header (ptrOf root (T.map Prod.fst) q) x w) a fun r a' =>
      ∃ ns', a'.Holds ns' ∧ r.1 = ns.length ∧ ns.length < nullPtr ∧
        Attached ns ns' (ptrOf root (T.map Prod.fst) q) x w ∧
        (∀ p < root, ns'[p]? = ns[p]?) ∧ links ns' root (T.map Prod.fst ++ [x :: q]) r.2 ∧
        ∀ y, known r.2 y ↔ known header y

theorem Attaches.upTo (hA : Attaches attach links known)
    (hE : nullPtr ≤ root + M → E .overflow) : AttachesUpTo E root M attach links known where
  reweigh := hA.reweigh
  attach w ha h hlinks hq hnew hknown hroom :=
    hA.attach w ha h hlinks hq hnew hknown fun hfull => hE (by rw [h.size] at hfull; omega)

/-- The additions of a path to the counters. -/
def pathAdds : List ItemId → List (ItemId × Utility) → Trie
  | _, [] => []
  | q, (x, w) :: rest => (x :: q, w) :: pathAdds (x :: q) rest

/-- What an insertion leaves: the tree has the counters `T`, and nothing below
its root has changed. -/
def Inserted (links : List TreeNode → ℕ → List (List ItemId) → H → Prop)
    (known : H → ItemId → Prop) (ns : List TreeNode) (root : ℕ) (header : H) (T : Trie)
    (header' : H) (a' : NodeArena) : Prop :=
  ∃ ns', a'.Holds ns' ∧ IsTree ns' root T ∧ links ns' root (T.map Prod.fst) header' ∧
    (∀ p < root, ns'[p]? = ns[p]?) ∧ ∀ y, known header' y ↔ known header y

/-- A path is on the tree once it has been added to. -/
theorem onTree_tallyAdd (k : List ItemId) (w : Utility) (T : Trie) :
    OnTree ((tallyAdd k w T).map Prod.fst) k := by
  rw [keys_tallyAdd]
  split_ifs with hk
  · exact Or.inr hk
  · exact Or.inr (List.mem_append_right _ (List.mem_singleton_self k))

/-- Adding to the weight of a child is inserting its item. -/
theorem inserted_bump (hA : AttachesUpTo E root M attach links known) (h : IsTree ns root T)
    (hlinks : links ns root (T.map Prod.fst) header) {x : ItemId} (hk : x :: q ∈ T.map Prod.fst)
    {m : TreeNode} (hm : ns[ptrOf root (T.map Prod.fst) (x :: q)]? = some m) {w : Utility}
    (ha : a.Holds (ns.set (ptrOf root (T.map Prod.fst) (x :: q))
      { m with weight := m.weight + w })) :
    Inserted links known ns root header (tallyAdd (x :: q) w T) header a := by
  have hkeys : (tallyAdd (x :: q) w T).map Prod.fst = T.map Prod.fst := by
    rw [keys_tallyAdd, if_pos hk]
  refine ⟨_, ha, h.bump hk hm w, hkeys.symm ▸ hA.reweigh _ hlinks hm, fun p hp => ?_,
    fun _ => Iff.rfl⟩
  refine List.getElem?_set_ne ?_
  rw [ptrOf_cons]
  omega

/-- So is attaching one. -/
theorem inserted_attach (hA : AttachesUpTo E root M attach links known) (ha : a.Holds ns)
    (h : IsTree ns root T) (hlinks : links ns root (T.map Prod.fst) header)
    (hq : OnTree (T.map Prod.fst) q) {x : ItemId} (hnew : x :: q ∉ T.map Prod.fst)
    (hknown : known header x) (hroom : T.length < M) (w : Utility) :
    Runs E (attach header (ptrOf root (T.map Prod.fst) q) x w) a fun r a' =>
      r.1 = ptrOf root ((tallyAdd (x :: q) w T).map Prod.fst) (x :: q) ∧
        Inserted links known ns root header (tallyAdd (x :: q) w T) r.2 a' := by
  refine (hA.attach w ha h hlinks hq hnew hknown hroom).mono ?_
  rintro r a' ⟨ns', ha', hptr, hsmall, hat, hbelow, hlinks', hsame⟩
  have hkeys : (T ++ [(x :: q, w)]).map Prod.fst = T.map Prod.fst ++ [x :: q] := by simp
  rw [tallyAdd_of_notMem hnew]
  refine ⟨?_, ns', ha', h.attach hq hnew hsmall hat, hkeys ▸ hlinks', hbelow, hsame⟩
  rw [hkeys, ptrOf_concat_self hnew, List.length_map, ← h.size]
  exact hptr

/-- Inserting a path adds its weights to the counters along it. -/
theorem insertPath_runs (hA : AttachesUpTo E root M attach links known) (ha : a.Holds ns)
    (h : IsTree ns root T) (hlinks : links ns root (T.map Prod.fst) header)
    (hq : OnTree (T.map Prod.fst) q) {path : List (ItemId × Utility)}
    (hknown : ∀ e ∈ path, known header e.1) (hM : (tally T (pathAdds q path)).length ≤ M) :
    Runs E (insertPath attach header (ptrOf root (T.map Prod.fst) q) path) a
      (Inserted links known ns root header (tally T (pathAdds q path))) := by
  induction path generalizing a ns T q header with
  | nil => exact Runs.pure ⟨ns, ha, h, hlinks, fun _ _ => rfl, fun _ => Iff.rfl⟩
  | cons e path ih =>
    obtain ⟨x, w⟩ := e
    have hstep : tally T (pathAdds q ((x, w) :: path)) =
        tally (tallyAdd (x :: q) w T) (pathAdds (x :: q) path) := rfl
    rw [hstep] at hM ⊢
    -- Whichever way the item gets into the tree, the rest goes on below it.
    have hrest : ∀ header' a', Inserted links known ns root header (tallyAdd (x :: q) w T)
        header' a' → Runs E (insertPath attach header' (ptrOf root
          ((tallyAdd (x :: q) w T).map Prod.fst) (x :: q)) path) a'
            (Inserted links known ns root header
              (tally (tallyAdd (x :: q) w T) (pathAdds (x :: q) path))) := by
      rintro header' a' ⟨ns', ha', htree, hlinks', hbelow, hsame⟩
      refine (ih ha' htree hlinks' (onTree_tallyAdd _ w T) (fun e he =>
        (hsame e.1).mpr (hknown e (List.mem_cons_of_mem _ he))) hM).mono ?_
      rintro header'' a'' ⟨ns'', ha'', htree', hlinks'', hbelow', hsame'⟩
      exact ⟨ns'', ha'', htree', hlinks'', fun p hp => (hbelow' p hp).trans (hbelow p hp),
        fun y => (hsame' y).trans (hsame y)⟩
    obtain ⟨n, hn, -⟩ := h.children q hq
    unfold insertPath
    refine Runs.bind (getNode_spec ha hn) ?_
    rintro _ a₁ ⟨rfl, ha₁⟩
    refine Runs.get_bind ?_
    refine Runs.bind (bumpChild_spec ha₁ h hq hn w) ?_
    rintro found a₂ (⟨rfl, ha₂, hnew⟩ | ⟨hk, rfl, m, hm, ha₂⟩)
    · have hroom : T.length < M := by
        have hgrows := (length_le_tally _ (pathAdds (x :: q) path)).trans hM
        rw [tallyAdd_of_notMem hnew, List.length_append, List.length_singleton] at hgrows
        exact hgrows
      refine Runs.bind (inserted_attach hA ha₂ h hlinks hq hnew (hknown _ List.mem_cons_self)
        hroom w) ?_
      rintro ⟨_, header'⟩ a₃ ⟨rfl, hinserted⟩
      exact hrest header' a₃ hinserted
    · have hkeys : (tallyAdd (x :: q) w T).map Prod.fst = T.map Prod.fst := by
        rw [keys_tallyAdd, if_pos hk]
      have hbumped := hrest header a₂ (inserted_bump hA h hlinks hk hm ha₂)
      rw [hkeys] at hbumped
      exact hbumped

/-- Inserting paths adds all their weights. -/
theorem insertAll_runs (hA : AttachesUpTo E root M attach links known) (ha : a.Holds ns)
    (h : IsTree ns root T) (hlinks : links ns root (T.map Prod.fst) header)
    (paths : List (List (ItemId × Utility)))
    (hknown : ∀ path ∈ paths, ∀ e ∈ path, known header e.1)
    (hM : (tally T (paths.flatMap (pathAdds []))).length ≤ M) :
    Runs E (insertAll attach root header paths) a
      (Inserted links known ns root header (tally T (paths.flatMap (pathAdds [])))) := by
  induction paths generalizing a ns T header with
  | nil => exact Runs.pure ⟨ns, ha, h, hlinks, fun _ _ => rfl, fun _ => Iff.rfl⟩
  | cons path paths ih =>
    have hstep : tally T ((path :: paths).flatMap (pathAdds [])) =
        tally (tally T (pathAdds [] path)) (paths.flatMap (pathAdds [])) := by
      rw [List.flatMap_cons, tally_append]
    rw [hstep] at hM
    have hpath := insertPath_runs (q := []) hA ha h hlinks (Or.inl rfl)
      (hknown path List.mem_cons_self) ((length_le_tally _ _).trans hM)
    rw [ptrOf_nil] at hpath
    rw [hstep]
    unfold insertAll
    refine Runs.bind hpath ?_
    rintro header' a₁ ⟨ns', ha₁, htree, hlinks', hbelow, hsame⟩
    refine (ih ha₁ htree hlinks' (fun path hp e he =>
      (hsame e.1).mpr (hknown path (List.mem_cons_of_mem _ hp) e he)) hM).mono ?_
    rintro header'' a₂ ⟨ns'', ha₂, htree', hlinks'', hbelow', hsame'⟩
    exact ⟨ns'', ha₂, htree', hlinks'', fun p hp => (hbelow' p hp).trans (hbelow p hp),
      fun y => (hsame' y).trans (hsame y)⟩

theorem insertAll_spec (hA : Attaches attach links known) (ha : a.Holds ns)
    (h : IsTree ns root T) (hlinks : links ns root (T.map Prod.fst) header)
    (paths : List (List (ItemId × Utility)))
    (hknown : ∀ path ∈ paths, ∀ e ∈ path, known header e.1)
    (hE : nullPtr ≤ root + (tally T (paths.flatMap (pathAdds []))).length → E .overflow) :
    Runs E (insertAll attach root header paths) a
      (Inserted links known ns root header (tally T (paths.flatMap (pathAdds [])))) :=
  insertAll_runs (hA.upTo hE) ha h hlinks paths hknown le_rfl

end Insertion

end AirHuim
