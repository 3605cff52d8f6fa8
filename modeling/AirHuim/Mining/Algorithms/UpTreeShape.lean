import AirHuim.Mining.Algorithms.UpGrowthOverflow

/-!
# The shape of a UP-tree

A tree is built by `insert` and `insert_local` calls, which update the links of
copied nodes and write them back. Read through its links alone, the arena holds
afterwards the tree of all prefixes of the inserted paths, a chain for every item
of the header, and at every node the sum of what the paths through it contribute. The calls
are those of a build with overflow checks.
-/

namespace AirHuim

open Library NodeArena

/-! ## Following links -/

/-- The children of a node: the first one, and the next of each. -/
inductive ChildOf (ns : List TreeNode) (p : ℕ) : ℕ → Prop
  | first {n : TreeNode} (hn : ns[p]? = some n) (hc : n.firstChild ≠ nullPtr) :
      ChildOf ns p n.firstChild
  | next {c : ℕ} {n : TreeNode} (h : ChildOf ns p c) (hn : ns[c]? = some n)
      (hc : n.nextSibling ≠ nullPtr) : ChildOf ns p n.nextSibling

/-- The items on the way from the root down to a node. -/
inductive PathTo (ns : List TreeNode) (root : ℕ) : ℕ → List ItemId → Prop
  | root : PathTo ns root root []
  | child {p c : ℕ} {items : List ItemId} {n : TreeNode} (h : PathTo ns root p items)
      (hc : ChildOf ns p c) (hn : ns[c]? = some n) : PathTo ns root c (items ++ [n.item])

theorem ChildOf.lt {ns : List TreeNode} {p c : ℕ} (h : ChildOf ns p c) : p < ns.length := by
  induction h with
  | first hn _ => exact (List.getElem?_eq_some_iff.mp hn).1
  | next _ _ _ ih => exact ih

theorem PathTo.lt {ns : List TreeNode} {root p : ℕ} {items : List ItemId}
    (h : PathTo ns root p items) (hne : items ≠ []) : p < ns.length := by
  cases h with
  | root => exact (hne rfl).elim
  | child _ _ hn => exact (List.getElem?_eq_some_iff.mp hn).1

section Links

variable {ns : List TreeNode} {link : TreeNode → ℕ} {start p c : ℕ} {ps : List ℕ} {n : TreeNode}

end Links

/-! ## The tree of the counters -/

section Tree

variable {ns : List TreeNode} {root p c : ℕ} {T : Trie} {q : List ItemId} {x : ItemId}
  {n : TreeNode}

end Tree

/-! ## What a path adds -/

section Adds

variable {q k : List ItemId} {path : List (ItemId × Utility)} {r : List ItemId}

end Adds

namespace UpGrowth

/-! ## Building a tree call by call -/

/-- The `rtu` is not used. -/
def UpTree.insert (tree : UpTree) (items : List (ItemId × Utility)) (_rtu : Utility) :
    CheckedM UpTree := do
  let path ← alarmed (withNuChecked items)
  let headerTable ← insertPathChecked newChild tree.headerTable tree.root path
  return { tree with headerTable }

def UpTree.insertLocal (tree : UpTree) (path : List ItemId) (pathUtility : Utility) :
    CheckedM UpTree := do
  let headerTable ← insertPathChecked newChild tree.headerTable tree.root
    (path.map fun item => (item, pathUtility))
  return { tree with headerTable }

inductive InsertCall
  | insert (items : List (ItemId × Utility)) (rtu : Utility)
  | insertLocal (path : List ItemId) (pathUtility : Utility)

namespace InsertCall

def run (tree : UpTree) : InsertCall → CheckedM UpTree
  | insert items rtu => tree.insert items rtu
  | insertLocal path pathUtility => tree.insertLocal path pathUtility

def items : InsertCall → List ItemId
  | insert items _ => items.map Prod.fst
  | insertLocal path _ => path

/-- What a call adds to the node that `key` leads to: nothing, if `key` is no
prefix of its path; the utility of the prefix, or of the whole path. -/
def contribution (key : List ItemId) (call : InsertCall) : Utility :=
  if key <+: call.items then
    match call with
    | insert items _ => ((items.take key.length).map Prod.snd).sum
    | insertLocal _ pathUtility => pathUtility
  else 0

/-- The items of a call, each with what it adds. -/
def path : InsertCall → List (ItemId × Utility)
  | insert items _ => withNu items
  | insertLocal path pathUtility => path.map fun item => (item, pathUtility)

end InsertCall

/-- The nodes from the root on are a tree with a chain for every item of the
header, in which every prefix of an inserted path leads to a node, and every node has
what the paths contribute to it. -/
structure WellFormed (ns : List TreeNode) (tree : UpTree) (calls : List InsertCall) : Prop where
  /-- What is reached from the root is what was allocated. -/
  reachable : ∀ p, Relation.ReflTransGen (ChildOf ns) tree.root p ↔
    tree.root ≤ p ∧ p < ns.length
  /-- The list of children ends. -/
  siblings : ∀ p, tree.root ≤ p → p < ns.length → ∃ n cs, ns[p]? = some n ∧ cs.Nodup ∧
    Linked ns TreeNode.nextSibling n.firstChild cs
  distinct : ∀ p c c' n n', tree.root ≤ p → ChildOf ns p c → ChildOf ns p c' →
    ns[c]? = some n → ns[c']? = some n' → n.item = n'.item → c = c'
  orphan : ∀ p, tree.root ≤ p → ¬ ChildOf ns p tree.root
  parent : ∀ c n, tree.root < c → ns[c]? = some n → tree.root ≤ n.parent ∧
    ∀ p, tree.root ≤ p → (ChildOf ns p c ↔ p = n.parent)
  /-- The chain of an item visits its nodes, each once, and ends. -/
  chains : ∀ x e, tree.headerTable.lookup x = some e → ∃ ps,
    Linked ns TreeNode.nodeLink e.head ps ∧ e.tail = ps.getLast?.getD nullPtr ∧ ps.Nodup ∧
      ∀ p, p ∈ ps ↔ tree.root < p ∧ ∃ n, ns[p]? = some n ∧ n.item = x
  /-- No path is left out. -/
  complete : ∀ call ∈ calls, ∀ items, items ≠ [] → items <+: call.items →
    ∃ p, tree.root < p ∧ PathTo ns tree.root p items
  nu : ∀ p n, tree.root < p → ns[p]? = some n → ∃ key,
    (∀ items, PathTo ns tree.root p items ↔ items = key) ∧
      n.weight = (calls.map (InsertCall.contribution key)).sum

section Shape

variable {a : NodeArena} {ns ns₀ : List TreeNode} {root : ℕ} {T : Trie} {tree : UpTree}
  {header : Header} {calls : List InsertCall} {key : List ItemId}

/-! ## The counters of the calls -/

theorem withNuChecked_of_fits {items : List (ItemId × Utility)}
    (h : ∀ part, part <+: items → FitsI64 (part.map Prod.snd).sum) :
    withNuChecked items = .ok (withNu items) := by
  refine Pass2.mapM_eq_ok fun p _ => ?_
  have hnu : sumChecked 0 ((items.take (p.2 + 1)).map Prod.snd) =
      .ok (0 + ((items.take (p.2 + 1)).map Prod.snd).sum) := by
    refine sumChecked_of_fits fun part hpart => ?_
    rw [List.prefix_iff_eq_take.mp hpart, ← List.map_take, zero_add]
    exact h _ ((List.take_prefix _ _).trans (List.take_prefix _ _))
  rw [hnu, zero_add]
  rfl

/-- What a call inserts, if the sums of `insert` are in range. -/
theorem InsertCall.run_eq {call : InsertCall}
    (h : ∀ key, key <+: call.items → FitsI64 (call.contribution key)) (tree : UpTree) :
    call.run tree = do
      let headerTable ← insertPathChecked newChild tree.headerTable tree.root call.path
      return { tree with headerTable } := by
  cases call with
  | insertLocal path pathUtility => rfl
  | insert items rtu =>
    have hnu : withNuChecked items = .ok (withNu items) := by
      refine withNuChecked_of_fits fun part hpart => ?_
      have hinitial : part.map Prod.fst <+: items.map Prod.fst := hpart.map Prod.fst
      have hkey := h (part.map Prod.fst) hinitial
      have hsum : InsertCall.contribution (part.map Prod.fst) (.insert items rtu) =
          (part.map Prod.snd).sum := by
        refine (if_pos hinitial).trans ?_
        dsimp only
        rw [List.length_map, ← List.prefix_iff_eq_take.mp hpart]
      rwa [hsum] at hkey
    change UpTree.insert tree items rtu = _
    unfold UpTree.insert
    rw [hnu]
    rfl

end Shape

end UpGrowth

end AirHuim
