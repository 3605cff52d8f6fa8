import AirHuim.Library.StateSpec
import AirHuim.Mining.Context

/-!
# The node arena

The tree miners keep the nodes of all their trees in one arena of pages, under
consecutive pointers; giving nodes back is moving the pointer of the next one.
The main result is that the arena is a growable list of nodes.
-/

namespace AirHuim

open Library

/-- `IhupNode` and `UpNode`: `weight` is `twu` in the one and `nu` in the other. -/
structure TreeNode where
  item : ItemId
  weight : Utility
  parent : ℕ
  firstChild : ℕ
  nextSibling : ℕ
  nodeLink : ℕ
  deriving DecidableEq, Repr

/-- `u32::MAX`, the null of the node pointers. -/
def nullPtr : ℕ := 4294967295

/-- A page of 64 KB, a node of 28 bytes. -/
def nodesPerPage : ℕ := 65536 / 28

/-- The nodes of a page, read and written in place. -/
abbrev NodePage := Fin nodesPerPage → TreeNode

def NodePage.zeroed : NodePage := fun _ => ⟨0, 0, 0, 0, 0, 0⟩

structure NodeArena where
  pool : PagePool
  pages : List NodePage
  nextNodePtr : ℕ

abbrev ArenaM := StateT NodeArena (Except Fault)

namespace NodeArena

def new (pool : PagePool) : NodeArena := ⟨pool, [], 0⟩

def pageIndex (ptr : ℕ) : ℕ := ptr / nodesPerPage

def offset (ptr : ℕ) : Fin nodesPerPage := ⟨ptr % nodesPerPage, Nat.mod_lt ptr (by decide)⟩

/-- An access to the store or the pool, which may fail. -/
def access : ArenaM Unit := fun a =>
  if a.pool.fails a.pool.clock then .error .io
  else .ok ((), { a with pool := { a.pool with clock := a.pool.clock + 1 } })

/-- `next_page_id`, `write_page` of a zeroed page, and `pages.push`. -/
def addPages : ℕ → ArenaM Unit
  | 0 => return ()
  | n + 1 => do
      access
      modify fun a => { a with
        pool := { a.pool with nextPageId := a.pool.nextPageId + 1 }
        pages := a.pages ++ [NodePage.zeroed] }
      addPages n

def getNode (ptr : ℕ) : ArenaM TreeNode := do
  let a ← get
  match a.pages[pageIndex ptr]? with
  | none => throw .panic
  | some page => do
      access
      return page (offset ptr)

def setNode (ptr : ℕ) (node : TreeNode) : ArenaM Unit := do
  let a ← get
  match a.pages[pageIndex ptr]? with
  | none => throw .panic
  | some page => do
      access
      modify fun a => { a with
        pages := a.pages.set (pageIndex ptr) (Function.update page (offset ptr) node) }

/-- The pointer after the last one does not fit a `u32`. -/
def allocateNode (item : ItemId) (weight : Utility) (parent : ℕ) : ArenaM ℕ := do
  let a ← get
  addPages (pageIndex a.nextNodePtr + 1 - a.pages.length)
  setNode a.nextNodePtr ⟨item, weight, parent, nullPtr, nullPtr, nullPtr⟩
  if nullPtr ≤ a.nextNodePtr then throw .overflow
  else do
    modify fun a => { a with nextNodePtr := a.nextNodePtr + 1 }
    return a.nextNodePtr

/-- `arena.next_node_ptr = saved_ptr`. -/
def release (savedPtr : ℕ) : ArenaM Unit := modify fun a => { a with nextNodePtr := savedPtr }

/-! ## The arena as a list -/

def node? (a : NodeArena) (ptr : ℕ) : Option TreeNode :=
  a.pages[pageIndex ptr]?.map fun page => page (offset ptr)

/-- The arena holds the nodes `ns`, in a store that does not fail. -/
structure Holds (a : NodeArena) (ns : List TreeNode) : Prop where
  reliable : ∀ n, a.pool.fails n = false
  next : a.nextNodePtr = ns.length
  nodes : ∀ p n, ns[p]? = some n → a.node? p = some n

/-- Of the faults, only running out of pointers. -/
abbrev OutOfPointers (e : Fault) : Prop := e = .overflow

variable {a : NodeArena} {ns : List TreeNode}

theorem holds_new {pool : PagePool} (h : ∀ n, pool.fails n = false) : (new pool).Holds [] :=
  ⟨h, rfl, fun _ _ h => by simp at h⟩

theorem access_eq (h : ∀ n, a.pool.fails n = false) :
    access a = .ok ((), { a with pool := { a.pool with clock := a.pool.clock + 1 } }) := by
  simp [access, h]

theorem eq_of_pageIndex_offset {p q : ℕ} (hpage : pageIndex p = pageIndex q)
    (hoffset : offset p = offset q) : p = q := by
  have hmod : p % nodesPerPage = q % nodesPerPage := congrArg Fin.val hoffset
  rw [← Nat.div_add_mod p nodesPerPage, ← Nat.div_add_mod q nodesPerPage, hmod]
  unfold pageIndex at hpage
  rw [hpage]

theorem node?_isSome_iff (a : NodeArena) (ptr : ℕ) :
    (a.node? ptr).isSome ↔ pageIndex ptr < a.pages.length := by
  simp [node?]

theorem getNode_spec {E : Fault → Prop} (h : a.Holds ns) {ptr : ℕ} {n : TreeNode}
    (hn : ns[ptr]? = some n) :
    Runs E (getNode ptr) a fun n' a' => n' = n ∧ a'.Holds ns := by
  obtain ⟨page, hpage, hslot⟩ := Option.map_eq_some_iff.mp (h.nodes ptr n hn)
  have hrun : getNode ptr a = .ok (page (offset ptr),
      { a with pool := { a.pool with clock := a.pool.clock + 1 } }) := by
    have haccess := access_eq h.reliable
    unfold getNode
    simp only [bind, StateT.bind, get, getThe, MonadStateOf.get, StateT.get, pure, Except.pure,
      Except.bind, hpage, haccess]
    rfl
  exact Runs.of_eq hrun ⟨hslot, h.reliable, h.next, h.nodes⟩

theorem node?_set {p q : ℕ} {page : NodePage} (hpage : a.pages[pageIndex p]? = some page)
    (node : TreeNode) :
    (a.pages.set (pageIndex p) (Function.update page (offset p) node))[pageIndex q]?.map
      (fun page => page (offset q)) = if q = p then some node else a.node? q := by
  have hlt : pageIndex p < a.pages.length := (List.getElem?_eq_some_iff.mp hpage).1
  rw [List.getElem?_set, node?]
  by_cases hindex : pageIndex p = pageIndex q
  · rw [if_pos hindex, if_pos hlt, Option.map_some, ← hindex, hpage, Option.map_some]
    by_cases hqp : q = p
    · subst hqp
      simp
    · have hoffset : offset q ≠ offset p := fun hoff =>
        hqp (eq_of_pageIndex_offset hindex.symm hoff)
      simp [hqp, hoffset]
  · have hqp : q ≠ p := fun heq => hindex (heq ▸ rfl)
    rw [if_neg hindex, if_neg hqp]

/-- Writing a node changes that node only. -/
theorem setNode_eq (h : ∀ n, a.pool.fails n = false) {ptr : ℕ} (node : TreeNode)
    (hptr : pageIndex ptr < a.pages.length) :
    ∃ a', setNode ptr node a = .ok ((), a') ∧ (∀ n, a'.pool.fails n = false) ∧
      a'.nextNodePtr = a.nextNodePtr ∧
      ∀ q, a'.node? q = if q = ptr then some node else a.node? q := by
  have hpage := List.getElem?_eq_getElem hptr
  have haccess := access_eq h
  refine ⟨{ a with
      pool := { a.pool with clock := a.pool.clock + 1 }
      pages := a.pages.set (pageIndex ptr)
        (Function.update a.pages[pageIndex ptr] (offset ptr) node) }, ?_, h, rfl,
    fun q => node?_set hpage node⟩
  unfold setNode
  simp only [bind, StateT.bind, get, getThe, MonadStateOf.get, StateT.get, pure, Except.pure,
    Except.bind, hpage, haccess]
  rfl

theorem setNode_spec {E : Fault → Prop} (h : a.Holds ns) {ptr : ℕ} (node : TreeNode)
    (hptr : ptr < ns.length) :
    Runs E (setNode ptr node) a fun _ a' => a'.Holds (ns.set ptr node) := by
  have hsome : (a.node? ptr).isSome := by
    rw [h.nodes ptr _ (List.getElem?_eq_getElem hptr)]
    rfl
  obtain ⟨a', hrun, hreliable, hnext, hnode⟩ :=
    setNode_eq h.reliable node ((node?_isSome_iff a ptr).mp hsome)
  refine Runs.of_eq hrun ⟨hreliable, by rw [hnext, h.next, List.length_set], fun q n hq => ?_⟩
  rw [hnode]
  rw [List.getElem?_set] at hq
  split_ifs at hq with heq
  · rw [if_pos heq.symm]
    exact hq
  · rw [if_neg (Ne.symm heq)]
    exact h.nodes q n hq

theorem addPages_eq (n : ℕ) (h : ∀ n, a.pool.fails n = false) :
    ∃ a' new, addPages n a = .ok ((), a') ∧ (∀ n, a'.pool.fails n = false) ∧
      a'.nextNodePtr = a.nextNodePtr ∧ a'.pages = a.pages ++ new ∧ new.length = n := by
  induction n generalizing a with
  | zero => exact ⟨a, [], rfl, h, rfl, (List.append_nil _).symm, rfl⟩
  | succ n ih =>
    obtain ⟨a', new, hrun, hreliable, hnext, hpages, hlen⟩ := ih (a := { a with
      pool := { a.pool with
        clock := a.pool.clock + 1
        nextPageId := a.pool.nextPageId + 1 }
      pages := a.pages ++ [NodePage.zeroed] }) h
    refine ⟨a', NodePage.zeroed :: new, ?_, hreliable, hnext, ?_, by rw [List.length_cons, hlen]⟩
    · have haccess := access_eq h
      unfold addPages
      simp only [bind, StateT.bind, Except.bind, haccess]
      exact hrun
    · rw [hpages, List.append_assoc]
      rfl

/-- Allocation adds a node at the end, unless the pointers have run out. -/
theorem allocateNode_runs {E : Fault → Prop} (h : a.Holds ns)
    (hE : nullPtr ≤ ns.length → E .overflow) (item : ItemId) (weight : Utility) (parent : ℕ) :
    Runs E (allocateNode item weight parent) a fun ptr a' =>
      ptr = ns.length ∧ ns.length < nullPtr ∧
        a'.Holds (ns ++ [⟨item, weight, parent, nullPtr, nullPtr, nullPtr⟩]) := by
  obtain ⟨a₁, new, hgrow, hreliable, hnext, hpages, hlen⟩ :=
    addPages_eq (pageIndex a.nextNodePtr + 1 - a.pages.length) h.reliable
  have hroom : pageIndex a.nextNodePtr < a₁.pages.length := by
    rw [hpages, List.length_append, hlen]
    omega
  obtain ⟨a₂, hset, hreliable₂, hnext₂, hnode₂⟩ := setNode_eq hreliable
    ⟨item, weight, parent, nullPtr, nullPtr, nullPtr⟩ hroom
  have hkept : ∀ p n, ns[p]? = some n → a₁.node? p = some n := by
    intro p n hp
    have hold := h.nodes p n hp
    have hlt : pageIndex p < a.pages.length := by
      rw [← node?_isSome_iff, hold]
      rfl
    rw [node?, hpages, List.getElem?_append_left hlt]
    exact hold
  have hrun : allocateNode item weight parent a =
      (if nullPtr ≤ a.nextNodePtr then throw .overflow
        else do
          modify fun a => { a with nextNodePtr := a.nextNodePtr + 1 }
          return a.nextNodePtr : ArenaM ℕ) a₂ := by
    unfold allocateNode
    simp only [bind, StateT.bind, get, getThe, MonadStateOf.get, StateT.get, pure, Except.pure,
      Except.bind, hgrow, hset]
  by_cases hfull : nullPtr ≤ a.nextNodePtr
  · rw [if_pos hfull] at hrun
    exact Runs.of_error hrun (hE (h.next ▸ hfull))
  · rw [if_neg hfull] at hrun
    refine Runs.of_eq hrun ⟨h.next, ?_, hreliable₂, ?_, fun p n hp => ?_⟩
    · rw [← h.next]
      omega
    · rw [List.length_append, ← h.next, ← hnext, ← hnext₂]
      rfl
    · refine (hnode₂ p).trans ?_
      rw [List.getElem?_append] at hp
      split_ifs at hp with hlt
      · rw [if_neg (by rw [h.next]; omega)]
        exact hkept p n hp
      · have hp' : p = ns.length := by
          have := (List.getElem?_eq_some_iff.mp hp).1
          simp only [List.length_singleton] at this
          omega
        subst hp'
        rw [if_pos h.next.symm]
        simpa using hp

/-- Moving the pointer back gives the last nodes back. -/
theorem release_spec {E : Fault → Prop} (h : a.Holds ns) {savedPtr : ℕ}
    (hle : savedPtr ≤ ns.length) :
    Runs E (release savedPtr) a fun _ a' => a'.Holds (ns.take savedPtr) := by
  refine Runs.modify ⟨h.reliable, ?_, fun p n hp => ?_⟩
  · rw [List.length_take, min_eq_left hle]
  · rw [List.getElem?_take] at hp
    split_ifs at hp
    exact h.nodes p n hp

end NodeArena

end AirHuim
