import AirHuim.Mining.Algorithms.FhmOverflow
import AirHuim.Mining.Algorithms.UpGrowthExact
import AirHuim.Mining.CheckedCandidates
import AirHuim.Mining.CheckedTrees

/-!
# UP-Growth with overflow checks

UP-Growth on a database that is worth less than `2 ^ 63`, in a build that ends with
an alarm where a sum of utilities leaves the range of `i64`, or where the nodes of one
item in a tree weigh more than the database. A transaction adds to at most one node of
an item, and so does a path of a conditional tree, which has the weight of a node of
the tree it comes from. So no alarm is ever raised, whatever the threshold and the
store: a run with checks ends as a run without them.
-/

namespace AirHuim

open Library Basket NodeArena

namespace UpGrowth

def UpTree.insertPathsChecked (tree : UpTree) (paths : List (List (ItemId × Utility))) :
    CheckedM UpTree := do
  let headerTable ← insertAllChecked newChild tree.root tree.headerTable paths
  return { tree with headerTable }

/-- The `nu` of `insert`, each added up anew. -/
def withNuChecked (items : List (ItemId × Utility)) : Except Fault (List (ItemId × Utility)) :=
  items.zipIdx.mapM fun p => do
    let nu ← sumChecked 0 ((items.take (p.2 + 1)).map Prod.snd)
    return (p.1.1, nu)

/-- `rtu` is added up although it is not used. -/
def treePathChecked (header : Header) (tx : RawTransaction) :
    Except Fault (List (ItemId × Utility)) := do
  let _rtu ← sumChecked 0 ((tx.items.filter fun e => e.item ∈ header).map ItemEntry.utility)
  withNuChecked (filteredItems header tx)

def sumChainChecked : ℕ → ℕ → Utility → CheckedM Utility
  | 0, _, _ => throw (.fault .stuck)
  | fuel + 1, curr, itemUtil =>
      if curr = nullPtr then return itemUtil
      else do
        let node ← getNode curr
        let itemUtil ← alarmed (checkI64 (itemUtil + node.weight))
        sumChainChecked fuel node.nodeLink itemUtil

def mineAllChecked (mineItem : ItemId → Found → CheckedM Found) :
    List ItemId → Found → CheckedM Found
  | [], found => return found
  | item :: items, found => do
      let found ← mineItem item found
      mineAllChecked mineItem items found

def mineCondChecked (inspect : ℕ → CheckedM Unit) (prepareBy : PrepareBy)
    (descend : UpTree → List ItemId → ItemId → Found → CheckedM Found) (minUtil : Utility)
    (tree : UpTree) (entry : HeaderEntry) (newPre : List ItemId) (found : Found) :
    CheckedM Found := do
  let a ← get
  let entries ← readChain tree.root a.nextNodePtr entry.head
  let cpb := condPaths entries
  let twu ← alarmed (localTwuChecked cpb)
  let (valid, paths) ← (liftM (prepareBy minUtil twu cpb) : ArenaM _)
  let a ← get
  let localTree ← UpTree.new
  let localTree := localTree.withItems valid
  let guard := (found.guard.forceAlloc (cpb.length * 16)).forceAlloc localTree.headerBytes
  let localTree' ← localTree.insertPathsChecked paths
  inspect localTree'.root
  let found ← mineAllChecked (descend localTree' newPre) (tasks localTree'.headerTable)
    { found with guard }
  release a.nextNodePtr
  return { found with guard := (found.guard.free localTree.headerBytes).free (cpb.length * 16) }

def mineUpTreeChecked (inspect : ℕ → CheckedM Unit) (prepareBy : PrepareBy) (minUtil : Utility) :
    ℕ → UpTree → List ItemId → ItemId → Found → CheckedM Found
  | 0, _, _, _, _ => throw (.fault .stuck)
  | fuel + 1, tree, pre, item, found =>
      match tree.headerTable.lookup item with
      | none => throw (.fault .panic)
      | some entry => do
          let a ← get
          let itemUtil ← sumChainChecked a.nextNodePtr entry.head 0
          if minUtil ≤ itemUtil then
            mineCondChecked inspect prepareBy (mineUpTreeChecked inspect prepareBy minUtil fuel)
              minUtil tree entry (pre ++ [item])
              { found with candidates := found.candidates ++ [pre ++ [item]] }
          else return found

def phasesChecked (inspect : ℕ → CheckedM Unit) (prepareBy : PrepareBy)
    (txs : List RawTransaction) (minUtil : Utility) (guard : MemoryGuard) :
    CheckedM (Found × ℕ) := do
  let twu ← alarmed (itemTwusChecked txs)
  let valid := validItems minUtil twu
  let tree ← UpTree.new
  let tree := tree.withItems valid
  let paths ← alarmed (txs.mapM (treePathChecked tree.headerTable))
  let tree' ← tree.insertPathsChecked (paths.filter fun path => path ≠ [])
  inspect tree'.root
  let found ← mineAllChecked
    (mineUpTreeChecked inspect prepareBy minUtil (valid.length + 1) tree' [])
    (tasks tree'.headerTable) ⟨[], guard.forceAlloc tree.headerBytes⟩
  return (found, tree.headerBytes)

/-- A run with checked sums that inspects the trees it has filled. -/
def runWithChecked (inspect : List RawTransaction → ℕ → CheckedM Unit) (prepareBy : PrepareBy)
    (order : SetOrder) (source : DataSource) (ctx : MiningContext) :
    Except Alarm (ℕ × World) := do
  let txs ← (allTransactions source).mapError .fault
  let ((found, headerBytes), arena) ←
    phasesChecked (inspect txs) prepareBy txs ctx.minUtility ctx.world.guard
      (.new ctx.world.pool)
  let phuis := distinctPhuis order found.candidates
  let phuisBytes := (phuis.map fun c => c.length * 8).sum
  let finalTasks ← alarmed (resultTasksChecked ctx.minUtility txs phuis)
  let w ← (executeTasks ctx
    { ctx.world with pool := arena.pool, guard := found.guard.forceAlloc phuisBytes }
    (finalTasks.map fun l => Task.writeAndCount l.1 l.2)).mapError .fault
  return (finalTasks.length, { w with guard := (w.guard.free headerBytes).free phuisBytes })

/-- A run with checked sums. -/
def runWithSums (prepareBy : PrepareBy) (order : SetOrder) (source : DataSource)
    (ctx : MiningContext) : Except Alarm (ℕ × World) :=
  runWithChecked (fun _ _ => return ()) prepareBy order source ctx

/-- `run` in a build with overflow checks. -/
def runSums (order : SetOrder) (source : DataSource) (ctx : MiningContext) :
    Except Alarm (ℕ × World) :=
  runWithSums prepareBy order source ctx

/-- `run` with checked sums that checks every tree. -/
def runChecked (order : SetOrder) (source : DataSource) (ctx : MiningContext) :
    Except Alarm (ℕ × World) :=
  runWithChecked (fun txs => checkTree (statedTotal txs)) prepareBy order source ctx

/-! ## Runs over a store that may fail -/

section Steady

theorem steady_linkTail (header : Header) (item : ItemId) (child : ℕ) :
    Steady reliable (linkTail header item child) := by
  unfold linkTail
  cases header.lookup item with
  | none => exact Steady.pure _
  | some entry =>
    dsimp only
    split_ifs
    · exact Steady.pure _
    · refine (steady_getNode _).bind fun tailNode => ?_
      exact (steady_setNode _ _).bind fun _ => Steady.pure _

theorem steady_newChild (header : Header) (curr : ℕ) (item : ItemId) (nu : Utility) :
    Steady reliable (newChild header curr item nu) := by
  unfold newChild
  refine (steady_allocateNode _ _ _).bind fun child => ?_
  refine (steady_getNode _).bind fun currNode => ?_
  refine (steady_getNode _).bind fun childNode => ?_
  refine (steady_setNode _ _).bind fun _ => ?_
  refine (steady_setNode _ _).bind fun _ => ?_
  exact (steady_linkTail _ _ _).bind fun header => Steady.pure _

theorem steady_new : Steady reliable UpTree.new :=
  (steady_allocateNode _ _ _).bind fun _ => Steady.pure _

theorem steady_insertPaths (tree : UpTree) (paths : List (List (ItemId × Utility))) :
    Steady reliable (tree.insertPaths paths) :=
  (steady_insertAll steady_newChild _ _ _).bind fun _ => Steady.pure _

theorem steady_sumChain (fuel curr : ℕ) (itemUtil : Utility) :
    Steady reliable (sumChain fuel curr itemUtil) := by
  induction fuel generalizing curr itemUtil with
  | zero => exact Steady.throw _
  | succ fuel ih =>
    unfold sumChain
    split_ifs
    · exact Steady.pure _
    · exact (steady_getNode _).bind fun node => ih _ _

theorem steady_mineAll {mineItem : ItemId → Found → ArenaM Found}
    (h : ∀ item found, Steady reliable (mineItem item found)) (items : List ItemId)
    (found : Found) : Steady reliable (mineAll mineItem items found) := by
  induction items generalizing found with
  | nil => exact Steady.pure _
  | cons item items ih => exact (h item found).bind fun found => ih found

theorem steady_mineCond {prepare : Prepare}
    {descend : UpTree → List ItemId → ItemId → Found → ArenaM Found}
    (h : ∀ tree pre item found, Steady reliable (descend tree pre item found)) (minUtil : Utility)
    (tree : UpTree) (entry : HeaderEntry) (newPre : List ItemId) (found : Found) :
    Steady reliable (mineCondWith prepare descend minUtil tree entry newPre found) := by
  unfold mineCondWith
  refine Steady.get_bind (fun a => ?_) fun _ => rfl
  refine (steady_readChain _ _ _).bind fun entries => ?_
  refine (Steady.lift _).bind fun prepared => ?_
  refine Steady.get_bind (fun a => ?_) fun _ => rfl
  refine steady_new.bind fun localTree => ?_
  refine (steady_insertPaths _ _).bind fun localTree' => ?_
  refine (steady_mineAll (h _ _) _ _).bind fun found => ?_
  exact (steady_release _).bind fun _ => Steady.pure _

theorem steady_mineUpTree (prepare : Prepare) (minUtil : Utility) (fuel : ℕ) (tree : UpTree)
    (pre : List ItemId) (item : ItemId) (found : Found) :
    Steady reliable (mineUpTreeWith prepare minUtil fuel tree pre item found) := by
  induction fuel generalizing tree pre item found with
  | zero => exact Steady.throw _
  | succ fuel ih =>
    unfold mineUpTreeWith
    cases tree.headerTable.lookup item with
    | none => exact Steady.throw _
    | some entry =>
      refine Steady.get_bind (fun a => ?_) fun _ => rfl
      refine (steady_sumChain _ _ _).bind fun itemUtil => ?_
      split_ifs
      · exact steady_mineCond ih _ _ _ _ _
      · exact Steady.pure _

theorem steady_phases (prepare : Prepare) (txs : List RawTransaction) (minUtil : Utility)
    (guard : MemoryGuard) : Steady reliable (phasesWith prepare txs minUtil guard) := by
  unfold phasesWith
  refine steady_new.bind fun tree => ?_
  refine (steady_insertPaths _ _).bind fun tree' => ?_
  exact (steady_mineAll (steady_mineUpTree _ _ _ _ _) _ _).bind fun _ => Steady.pure _

end Steady

/-! ## The paths of the transactions -/

section Paths

variable {tx : RawTransaction}

/-- Part of what a transaction is worth. -/
theorem sum_sublist_le (htx : tx.WellFormed) {part : List Utility}
    (hpart : part.Sublist (tx.items.map ItemEntry.utility)) :
    (∀ u ∈ part, 0 ≤ u) ∧ part.sum ≤ tx.transactionUtility := by
  have hnonneg : ∀ u ∈ tx.items.map ItemEntry.utility, 0 ≤ u := by
    intro u hu
    obtain ⟨e, he, rfl⟩ := List.mem_map.mp hu
    exact htx.nonneg e he
  exact ⟨fun u hu => hnonneg u (hpart.subset hu), htx.total ▸ hpart.sum_le_sum hnonneg⟩

theorem withNuChecked_eq {items : List (ItemId × Utility)} (hnonneg : ∀ e ∈ items, 0 ≤ e.2)
    (hsum : (items.map Prod.snd).sum < 2 ^ 63) : withNuChecked items = .ok (withNu items) := by
  have hutils : ∀ u ∈ items.map Prod.snd, 0 ≤ u := by
    intro u hu
    obtain ⟨e, he, rfl⟩ := List.mem_map.mp hu
    exact hnonneg e he
  refine Pass2.mapM_eq_ok fun p _ => ?_
  have hpart : ((items.take (p.2 + 1)).map Prod.snd).Sublist (items.map Prod.snd) :=
    (List.take_sublist _ _).map _
  have hle := hpart.sum_le_sum hutils
  have hnu : sumChecked 0 ((items.take (p.2 + 1)).map Prod.snd) =
      .ok ((items.take (p.2 + 1)).map Prod.snd).sum := by
    rw [sumChecked_eq le_rfl (fun u hu => hutils u (hpart.subset hu)) (by linarith), zero_add]
  rw [hnu]
  rfl

theorem yields_withNuChecked (items : List (ItemId × Utility)) :
    Yields (withNuChecked items) (withNu items) := by
  refine Yields.mapM (fun p => ?_) items.zipIdx
  have hnu := yields_sumChecked 0 ((items.take (p.2 + 1)).map Prod.snd)
  rw [zero_add] at hnu
  exact hnu.bind (Yields.ok _)

/-- What is left of a transaction is worth no more than all of it. -/
theorem filteredItems_within (htx : tx.WellFormed) (header : Header) :
    (∀ e ∈ filteredItems header tx, 0 ≤ e.2) ∧
      ((filteredItems header tx).map Prod.snd).sum ≤ tx.transactionUtility := by
  have hfiltered : (tx.items.filter fun e => e.item ∈ header).Sublist tx.items :=
    List.filter_sublist
  obtain ⟨hnonneg, hle⟩ := sum_sublist_le htx (hfiltered.map ItemEntry.utility)
  have hperm : ((filteredItems header tx).map Prod.snd).Perm
      ((tx.items.filter fun e => e.item ∈ header).map ItemEntry.utility) := by
    have hsorted := (sortByKey_perm (fun e : ItemId × Utility => (toLex (OrderDual.toDual
      (((header.lookup e.1).map HeaderEntry.twu).getD 0), e.1) : Utilityᵒᵈ ×ₗ ItemId))
      ((tx.items.filter fun e => e.item ∈ header).map fun e => (e.item, e.utility))).map Prod.snd
    rwa [List.map_map] at hsorted
  exact ⟨fun e he => hnonneg e.2 (hperm.mem_iff.mp (List.mem_map_of_mem he)),
    hperm.sum_eq.trans_le hle⟩

theorem treePathChecked_eq (htx : tx.WellFormed) (hfits : tx.transactionUtility < 2 ^ 63)
    (header : Header) : treePathChecked header tx = .ok (treePath header tx) := by
  have hfiltered : (tx.items.filter fun e => e.item ∈ header).Sublist tx.items :=
    List.filter_sublist
  obtain ⟨hnonneg, hle⟩ := sum_sublist_le htx (hfiltered.map ItemEntry.utility)
  have hrtu : sumChecked 0 ((tx.items.filter fun e => e.item ∈ header).map ItemEntry.utility) =
      .ok ((tx.items.filter fun e => e.item ∈ header).map ItemEntry.utility).sum := by
    rw [sumChecked_eq le_rfl hnonneg (by linarith), zero_add]
  obtain ⟨hlo, hhi⟩ := filteredItems_within htx header
  unfold treePathChecked
  rw [hrtu]
  exact withNuChecked_eq hlo (hhi.trans_lt hfits)

/-- The weights of a path are worth part of the transaction. -/
theorem treePath_within (htx : tx.WellFormed) (header : Header) :
    ∀ e ∈ treePath header tx, 0 ≤ e.2 ∧ e.2 ≤ tx.transactionUtility := by
  intro e he
  obtain ⟨hlo, hhi⟩ := filteredItems_within htx header
  obtain ⟨i, u, -, heq⟩ := mem_withNu he
  have hnonneg : ∀ v ∈ (filteredItems header tx).map Prod.snd, 0 ≤ v := by
    intro v hv
    obtain ⟨e', he', rfl⟩ := List.mem_map.mp hv
    exact hlo e' he'
  have hpart : (((filteredItems header tx).take (i + 1)).map Prod.snd).Sublist
      ((filteredItems header tx).map Prod.snd) := (List.take_sublist _ _).map _
  rw [heq]
  exact ⟨List.sum_nonneg fun v hv => hnonneg v (hpart.subset hv),
    (hpart.sum_le_sum hnonneg).trans hhi⟩

end Paths

/-! ## The search -/

section Search

variable {full : Prop} {total m : Utility} {B : List (Basket ItemId)} {Q : Finset ItemId}
  {os : List ItemId} {T : Trie} {tree : UpTree} {ns : List TreeNode} {a : NodeArena} {x : ItemId}
  {pre : List ItemId} {e : HeaderEntry}

theorem silent_sumChain {root : ℕ} (ha : a.reliable.Holds ns) (h : IsTree ns root T) {es : Trie}
    (hes : ∀ e ∈ es, e ∈ T) (hT : ∀ e ∈ T, 0 ≤ e.2) {start : ℕ}
    (hlinked : Linked ns TreeNode.nodeLink start
      (es.map fun e => ptrOf root (T.map Prod.fst) e.1)) {itemUtil : Utility}
    (hutil : 0 ≤ itemUtil) (hfits : itemUtil + (es.map Prod.snd).sum < 2 ^ 63) (fuel : ℕ) :
    Silent .fault (sumChainChecked fuel start itemUtil) (sumChain fuel start itemUtil) a := by
  induction es generalizing start fuel a itemUtil with
  | nil =>
    have hstart : start = nullPtr := hlinked
    cases fuel with
    | zero => exact Silent.throw _ a
    | succ fuel =>
      unfold sumChainChecked sumChain
      rw [if_pos hstart, if_pos hstart]
      exact Silent.pure itemUtil a
  | cons e es ih =>
    obtain ⟨he, hes⟩ := List.forall_mem_cons.mp hes
    obtain ⟨y, q, heq, -⟩ := h.keys.exists_cons (List.mem_map_of_mem he)
    obtain ⟨rfl, n, hn, hrest⟩ := hlinked
    obtain ⟨n', hn', -, hweight, -⟩ := h.node e he y q heq
    obtain rfl : n = n' := Option.some.inj (hn.symm.trans hn')
    cases fuel with
    | zero => exact Silent.throw _ a
    | succ fuel =>
      unfold sumChainChecked sumChain
      split_ifs with hnull
      · exact Silent.pure itemUtil a
      · refine Silent.bind_of_runs rfl (steady_getNode _)
          (getNode_spec (E := OutOfPointers) ha hn) ?_
        rintro node a₁ ⟨rfl, ha₁⟩
        have hlo : 0 ≤ node.weight := hweight ▸ hT e he
        have hlater : 0 ≤ (es.map Prod.snd).sum := by
          refine List.sum_nonneg fun w hw => ?_
          obtain ⟨e', he', rfl⟩ := List.mem_map.mp hw
          exact hT e' (hes e' he')
        rw [List.map_cons, List.sum_cons, ← add_assoc, ← hweight] at hfits
        have hsum : checkI64 (itemUtil + node.weight) = .ok (itemUtil + node.weight) :=
          checkI64_eq_ok (add_nonneg hutil hlo) (by linarith)
        refine Silent.check_bind (alarmed_ok hsum a₁) ?_
        exact ih ha₁ hes hrest (add_nonneg hutil hlo) hfits fuel

/-- Trees in which no item weighs more than `total` pass the inspection. -/
def Accepts (total : Utility) (inspect : ℕ → CheckedM Unit) : Prop :=
  ∀ {a ns root T}, NodeArena.Holds a.reliable ns → IsTree ns root T → Light total T →
    inspect root a = .ok ((), a)

theorem accepts_checkTree (total : Utility) : Accepts total (checkTree total) :=
  fun ha h hlight => checkTree_ok ha h hlight

variable {inspect : ℕ → CheckedM Unit}

/-- Filling a new tree, and inspecting it. -/
theorem silent_build {β : Type} {f : UpTree → ArenaM β} {f' : UpTree → CheckedM β}
    {ns' : List TreeNode} (htotal : total < 2 ^ 63) (hinspect : Accepts total inspect)
    (ha : a.reliable.Holds ns')
    (htree : tree.Holds ns' os []) (hbelow : ∀ p < ns.length, ns'[p]? = ns[p]?)
    (hroot : tree.root = ns.length) {paths : List (List (ItemId × Utility))}
    (hknown : ∀ path ∈ paths, ∀ e ∈ path, e.1 ∈ os)
    (hadds : ∀ e ∈ paths.flatMap (pathAdds []), 0 ≤ e.2)
    (hlight : Light total (tally [] (paths.flatMap (pathAdds []))))
    (hf : ∀ tree' a₁ ns'', a₁.reliable.Holds ns'' → ns''.take ns.length = ns →
      ns.length ≤ ns''.length → UpTree.Holds ns'' tree' os
        (tally [] (paths.flatMap (pathAdds []))) →
        Silent .fault (f' tree') (f tree') a₁) :
    Silent .fault (do
        let tree' ← tree.insertPathsChecked paths
        inspect tree'.root
        f' tree')
      (tree.insertPaths paths >>= f) a := by
  have hcounters : ∀ e ∈ tally [] (paths.flatMap (pathAdds [])), 0 ≤ e.2 :=
    nonneg_tally (by simp) hadds
  have hfits : ∀ e ∈ tally [] (paths.flatMap (pathAdds [])), e.2 < 2 ^ 63 := by
    intro e he
    have hkey : e.1 ∈ (tally [] (paths.flatMap (pathAdds []))).map Prod.fst :=
      List.mem_map_of_mem he
    rw [mem_keys_tally] at hkey
    obtain ⟨e', he', heq⟩ := List.mem_map.mp (hkey.resolve_left (by simp))
    obtain ⟨path, -, he'⟩ := List.mem_flatMap.mp he'
    obtain ⟨y, -, hhead⟩ := head_of_mem_pathAdds he'
    exact (hlight.counter_le hcounters he (heq ▸ hhead)).trans_lt htotal
  have hinsert : Silent .fault (tree.insertPathsChecked paths) (tree.insertPaths paths) a := by
    refine Silent.bind ?_ fun header a₁ _ => Silent.pure _ a₁
    exact silent_insertAll attaches_newChild steady_newChild ha htree.isTree htree.links
      (fun path hpath e he => (htree.known e.1).mpr (hknown path hpath e he))
      (partsFit_of_nonneg (by simp) hadds hfits)
  refine Silent.bind_of_runs hinsert (steady_insertPaths tree paths)
    (insertPaths_spec (E := OutOfPointers) ha htree hbelow hroot hknown fun _ => rfl) ?_
  rintro tree' a₁ ⟨ns'', ha₁, htake, hsize, htree'⟩
  have hle : ns.length ≤ ns''.length := by omega
  exact Silent.check_bind (hinspect ha₁ htree'.isTree hlight)
    (hf tree' a₁ ns'' ha₁ htake hle htree')

theorem silent_mineAll {mineItem : ItemId → Found → ArenaM Found}
    {mineItem' : ItemId → Found → CheckedM Found} {xs : List ItemId}
    (hsilent : ∀ x ∈ xs, ∀ a found, NodeArena.Holds a.reliable ns →
      Silent .fault (mineItem' x found) (mineItem x found) a)
    (hsteady : ∀ x found, Steady reliable (mineItem x found))
    (hruns : ∀ x ∈ xs, ∀ a found, NodeArena.Holds a ns →
      Runs OutOfPointers (mineItem x found) a fun _ a' => a'.Holds ns)
    (ha : a.reliable.Holds ns) (found : Found) :
    Silent .fault (mineAllChecked mineItem' xs found) (mineAll mineItem xs found) a := by
  induction xs generalizing a found with
  | nil => exact Silent.pure found a
  | cons x xs ih =>
    unfold mineAllChecked mineAll
    refine Silent.bind_of_runs (hsilent x List.mem_cons_self a found ha) (hsteady x found)
      (hruns x List.mem_cons_self _ found ha) fun found' a₁ ha₁ => ?_
    exact ih (fun y hy => hsilent y (List.mem_cons_of_mem x hy))
      (fun y hy => hruns y (List.mem_cons_of_mem x hy)) ha₁ found'

/-- The paths of an item weigh what its nodes do. -/
theorem sum_condBase (x : ItemId) (T : Trie) :
    ((condBase x T).map Prod.snd).sum = mass (fun k => k.head? = some x) T := by
  rw [condBase, List.map_map]
  rfl

/-- The paths of `x` are of distinct items, and weigh something or nothing. -/
theorem condBase_within (h : PatternTree full B Q os T) (x : ItemId) :
    ∀ e ∈ condBase x T, e.1.Nodup ∧ 0 ≤ e.2 := fun _ he =>
  ⟨(h.mem_condBase_inOrder he).1.nodup, (h.mem_condBase_inOrder he).2.2⟩

/-- What is inserted into the conditional tree of `x` is not negative, the tree is that
of the itemset with `x`, and no item weighs more in it than `x` does in the tree above. -/
theorem patternTree_prepared (h : PatternTree full B Q os T) (hlight : Light total T) (hx : x ∈ os)
    {prepared : List (ItemId × Utility) × List (List (ItemId × Utility))}
    (hprepared : Prepared full m (condBase x T) prepared) :
    (∀ e ∈ prepared.2.flatMap (pathAdds []), 0 ≤ e.2) ∧
      PatternTree full B (insert x Q) (localOrder m (condBase x T))
        (tally [] (prepared.2.flatMap (pathAdds []))) ∧
      Light total (tally [] (prepared.2.flatMap (pathAdds []))) := by
  obtain ⟨-, -, keep, hkeep, hall, hadds⟩ := hprepared
  have hbase : (condBase x T).Perm (condBase x T) := List.Perm.refl _
  have hwithin := condBase_within h x
  have horder : ∀ e ∈ condBase x T,
      InOrder (localOrder m (condBase x T)) (arrange m (condBase x T) e.1) :=
    fun e he => inOrder_arrange (hwithin e he).1
  rw [hadds]
  refine ⟨fun e he => ?_, ?_, ?_⟩
  · obtain ⟨e', he', he⟩ := List.mem_flatMap.mp he
    refine nonneg_pathAdds (fun p hp => ?_) e he
    obtain ⟨y, -, rfl⟩ := List.mem_map.mp hp
    exact (hwithin e' (List.mem_of_mem_filter he')).2
  · exact h.conditional hx hbase (localOrder_spec (m := m) h hbase) (arrange m (condBase x T))
      (fun _ _ => sortByKey_perm _ _) horder keep hkeep hall
  · have hpart : (((condBase x T).filter keep).map Prod.snd).sum ≤
        ((condBase x T).map Prod.snd).sum := by
      refine (List.filter_sublist.map Prod.snd).sum_le_sum fun w hw => ?_
      obtain ⟨e, he, rfl⟩ := List.mem_map.mp hw
      exact (hwithin e he).2
    refine light_of_paths (f := Prod.snd) (fun e he y => ?_)
      (hpart.trans ((sum_condBase x T).trans_le (hlight x)))
    have he := List.mem_of_mem_filter he
    rw [PatternTree.mass_pathAdds_const (horder e he) (before_empty _ y)]
    split_ifs
    · exact le_rfl
    · exact (hwithin e he).2

/-- A search with checks in a tree that is light, of at most `fuel` items, ends as the
one without them. -/
def SilentSearch (full : Prop) (total : Utility) (B : List (Basket ItemId)) (fuel : ℕ)
    (descend' : UpTree → List ItemId → ItemId → Found → CheckedM Found)
    (descend : UpTree → List ItemId → ItemId → Found → ArenaM Found) : Prop :=
  ∀ {a ns tree os T Q pre x}, NodeArena.Holds a.reliable ns → UpTree.Holds ns tree os T →
    PatternTree full B Q os T → Light total T → x ∈ os → pre.Nodup → pre.toFinset = Q →
      os.length ≤ fuel → ∀ found,
        Silent .fault (descend' tree pre x found) (descend tree pre x found) a

/-- The search in a light tree, over all of its items. -/
theorem silent_mineItems {fuel : ℕ}
    {descend' : UpTree → List ItemId → ItemId → Found → CheckedM Found}
    {descend : UpTree → List ItemId → ItemId → Found → ArenaM Found}
    (hsilent : SilentSearch full total B fuel descend' descend)
    (hsteady : ∀ tree pre item found, Steady reliable (descend tree pre item found))
    (hdesc : SearchesFor OutOfPointers 0 full m B fuel descend) (ha : a.reliable.Holds ns)
    (htree : tree.Holds ns os T) (h : PatternTree full B Q os T) (hlight : Light total T)
    (hpre : pre.Nodup) (hQ : pre.toFinset = Q) (hfuel : os.length ≤ fuel) (found : Found) :
    Silent .fault (mineAllChecked (descend' tree pre) (tasks tree.headerTable) found)
      (mineAll (descend tree pre) (tasks tree.headerTable) found) a := by
  have htasks : ∀ y ∈ tasks tree.headerTable, y ∈ os := fun y hy =>
    (tasks_perm htree h.nodup).mem_iff.mp hy
  refine silent_mineAll (fun y hy a found ha => ?_) (hsteady tree pre) (fun y hy a found ha => ?_)
    ha found
  · exact hsilent ha htree h hlight (htasks y hy) hpre hQ hfuel found
  · exact (hdesc ha htree h (Or.inl rfl) (htasks y hy) hpre hQ hfuel found).mono
      fun _ _ hfinds => hfinds.1

variable {prepareBy : PrepareBy}

theorem silent_mineCond (htotal : total < 2 ^ 63) (hinspect : Accepts total inspect)
    (hprep : Prepares full m (PrepareBy.prepare prepareBy)) {fuel : ℕ}
    {descend' : UpTree → List ItemId → ItemId → Found → CheckedM Found}
    {descend : UpTree → List ItemId → ItemId → Found → ArenaM Found}
    (hsilent : SilentSearch full total B fuel descend' descend)
    (hsteady : ∀ tree pre item found, Steady reliable (descend tree pre item found))
    (hdesc : SearchesFor OutOfPointers 0 full m B fuel descend) (hfuel : os.length ≤ fuel + 1)
    (ha : a.reliable.Holds ns) (htree : tree.Holds ns os T) (h : PatternTree full B Q os T)
    (hlight : Light total T) (hx : x ∈ os) (he : tree.headerTable.lookup x = some e)
    {newPre : List ItemId} (hpre : newPre.Nodup) (hQ : newPre.toFinset = insert x Q)
    (found : Found) :
    Silent .fault (mineCondChecked inspect prepareBy descend' m tree e newPre found)
      (mineCondWith (PrepareBy.prepare prepareBy) descend m tree e newPre found) a := by
  have hbase : (condBase x T).Perm (condBase x T) := List.Perm.refl _
  have hlocal := localOrder_spec (m := m) h hbase
  have hless := Nat.le_of_lt_succ ((h.length_localItems_lt hx hbase hlocal).trans_le hfuel)
  have hwithin := condBase_within h x
  obtain ⟨prepared, hprepare, hprepared⟩ := hprep (condBase x T) hwithin
  obtain ⟨hadds, hcond, hcondLight⟩ := patternTree_prepared h hlight hx hprepared
  obtain ⟨hlinked, hlen⟩ := linked_head htree he
  have htwu : localTwuChecked (condPaths (condBase x T)) =
      .ok (localTwu (condPaths (condBase x T))) := by
    refine localTwuChecked_eq (fun e he => hwithin e (List.mem_of_mem_filter he)) ?_
    have hsub : (condPaths (condBase x T)).Sublist (condBase x T) := List.filter_sublist
    have hle := (hsub.map Prod.snd).sum_le_sum fun w hw => by
      obtain ⟨e, he, rfl⟩ := List.mem_map.mp hw
      exact (hwithin e he).2
    exact (hle.trans ((sum_condBase x T).trans_le (hlight x))).trans_lt htotal
  unfold mineCondChecked mineCondWith
  refine Silent.get_bind ?_
  refine Silent.bind_of_runs rfl (steady_readChain _ _ _)
    (readChain_spec (E := OutOfPointers) ha htree.isTree (fun e he => List.mem_of_mem_filter he)
      hlinked (ha.next ▸ hlen)) ?_
  rintro entries a₁ ⟨hread, ha₁⟩
  have hread : entries = condBase x T := hread
  rw [hread]
  refine Silent.check_bind (alarmed_ok htwu a₁) ?_
  refine Silent.bind_of_runs (Q := fun b s => b = prepared ∧ s = a₁.reliable) rfl (Steady.lift _)
    (Runs.lift (E := OutOfPointers) hprepare ⟨rfl, rfl⟩) ?_
  rintro b a₂ ⟨hb, hsame⟩
  obtain ⟨valid, paths⟩ := prepared
  have ha₂ : a₂.reliable.Holds ns := by rwa [hsame]
  obtain rfl : valid = validItems m (localTwu (condPaths (condBase x T))) := hprepared.items
  rw [hb]
  refine Silent.get_bind ?_
  refine Silent.bind_of_runs rfl steady_new
    (new_spec (E := OutOfPointers) ha₂ m (localTwu (condPaths (condBase x T))) fun _ => rfl) ?_
  rintro _ a₃ ⟨rfl, ns', ha₃, hnew, hbelow⟩
  refine silent_build htotal hinspect ha₃ hnew hbelow rfl hprepared.known hadds hcondLight ?_
  intro localTree a₄ ns'' ha₄ _ _ hlocalTree
  refine Silent.bind (silent_mineItems hsilent hsteady hdesc ha₄ hlocalTree hcond
    hcondLight hpre hQ hless _) fun found' a₅ _ => ?_
  exact Silent.bind rfl fun _ a₆ _ => Silent.pure _ a₆

theorem silent_mineUpTree (hm : full ∨ 0 < m) (htotal : total < 2 ^ 63)
    (hinspect : Accepts total inspect)
    (hprep : Prepares full m (PrepareBy.prepare prepareBy)) (fuel : ℕ) :
    SilentSearch full total B fuel (mineUpTreeChecked inspect prepareBy m fuel)
      (mineUpTreeWith (PrepareBy.prepare prepareBy) m fuel) := by
  induction fuel with
  | zero =>
    intro a ns tree os T Q pre x _ _ _ _ _ _ _ _ found
    exact Silent.throw _ a
  | succ fuel ih =>
    intro a ns tree os T Q pre x ha htree h hlight hx hpre hQ hfuel found
    obtain ⟨e, he⟩ := Option.isSome_iff_exists.mp ((htree.known x).mpr hx)
    obtain ⟨hlinked, hlen⟩ := linked_head htree he
    have hes : ∀ e ∈ T.filter fun e => e.1.head? = some x, e ∈ T :=
      fun e he => List.mem_of_mem_filter he
    have hsum : 0 + ((T.filter fun e => e.1.head? = some x).map Prod.snd).sum < 2 ^ 63 := by
      rw [zero_add]
      exact (hlight x).trans_lt htotal
    unfold mineUpTreeChecked mineUpTreeWith
    rw [he]
    refine Silent.get_bind ?_
    refine Silent.bind_of_runs
      (silent_sumChain ha htree.isTree hes h.nonneg hlinked le_rfl hsum _) (steady_sumChain _ _ _)
      (sumChain_spec (E := OutOfPointers) ha htree.isTree hes hlinked (ha.next ▸ hlen) 0) ?_
    rintro itemUtil a₁ ⟨-, ha₁⟩
    split_ifs
    · obtain ⟨hpre', hQ'⟩ := append_item hpre hQ (h.fresh x hx)
      exact silent_mineCond htotal hinspect hprep ih (steady_mineUpTree _ m fuel)
        (mineUpTreeWith_spec hm hprep fuel) hfuel ha₁ htree h hlight hx he hpre' hQ' _
    · exact Silent.pure found a₁

end Search

/-! ## Sums that may overflow -/

section Watchful

variable {prepareBy : PrepareBy}

theorem yields_treePathChecked (header : Header) (tx : RawTransaction) :
    Yields (treePathChecked header tx) (treePath header tx) :=
  (yields_sumChecked 0 _).bind (yields_withNuChecked (filteredItems header tx))

theorem watchful_sumChain (fuel curr : ℕ) (itemUtil : Utility) (a : NodeArena) :
    Watchful .fault .overflow (sumChainChecked fuel curr itemUtil) (sumChain fuel curr itemUtil)
      a := by
  induction fuel generalizing curr itemUtil a with
  | zero => exact Or.inl (Silent.throw _ a)
  | succ fuel ih =>
    unfold sumChainChecked sumChain
    split_ifs
    · exact Or.inl (Silent.pure itemUtil a)
    · refine Watchful.bind (Or.inl rfl) fun node a₁ _ => ?_
      exact Watchful.check_bind (alarmed_yields (yields_checkI64 _) a₁) (ih _ _ a₁)

theorem watchful_mineAll {mineItem : ItemId → Found → ArenaM Found}
    {mineItem' : ItemId → Found → CheckedM Found}
    (h : ∀ x found a, Watchful .fault .overflow (mineItem' x found) (mineItem x found) a)
    (items : List ItemId) (found : Found) (a : NodeArena) :
    Watchful .fault .overflow (mineAllChecked mineItem' items found)
      (mineAll mineItem items found) a := by
  induction items generalizing found a with
  | nil => exact Or.inl (Silent.pure found a)
  | cons x xs ih => exact (h x found a).bind fun found' a₁ _ => ih found' a₁

theorem watchful_insertPaths (tree : UpTree) (paths : List (List (ItemId × Utility)))
    (a : NodeArena) :
    Watchful .fault .overflow (tree.insertPathsChecked paths) (tree.insertPaths paths) a :=
  (watchful_insertAll newChild tree.root paths tree.headerTable a).bind fun _ a₁ _ =>
    Or.inl (Silent.pure _ a₁)

theorem watchful_mineCond
    {descend' : UpTree → List ItemId → ItemId → Found → CheckedM Found}
    {descend : UpTree → List ItemId → ItemId → Found → ArenaM Found}
    (h : ∀ tree pre x found a,
      Watchful .fault .overflow (descend' tree pre x found) (descend tree pre x found) a)
    (minUtil : Utility) (tree : UpTree) (entry : HeaderEntry) (newPre : List ItemId)
    (found : Found) (a : NodeArena) :
    Watchful .fault .overflow
      (mineCondChecked (fun _ => return ()) prepareBy descend' minUtil tree entry newPre found)
      (mineCondWith (PrepareBy.prepare prepareBy) descend minUtil tree entry newPre found) a := by
  unfold mineCondChecked mineCondWith
  refine Watchful.get_bind ?_
  refine Watchful.bind (Or.inl rfl) fun entries a₁ _ => ?_
  refine Watchful.check_bind (alarmed_yields (yields_localTwuChecked _) a₁) ?_
  refine Watchful.bind (Or.inl rfl) fun prepared a₂ _ => ?_
  refine Watchful.get_bind ?_
  refine Watchful.bind (Or.inl rfl) fun localTree a₃ _ => ?_
  refine (watchful_insertPaths _ _ a₃).bind fun localTree' a₄ _ => ?_
  refine Watchful.check_bind (Or.inl rfl) ?_
  refine (watchful_mineAll (h localTree' newPre) _ _ a₄).bind fun found' a₅ _ => ?_
  exact Watchful.bind (Or.inl rfl) fun _ a₆ _ => Or.inl (Silent.pure _ a₆)

theorem watchful_mineUpTree (minUtil : Utility) (fuel : ℕ) (tree : UpTree) (pre : List ItemId)
    (x : ItemId) (found : Found) (a : NodeArena) :
    Watchful .fault .overflow
      (mineUpTreeChecked (fun _ => return ()) prepareBy minUtil fuel tree pre x found)
      (mineUpTreeWith (PrepareBy.prepare prepareBy) minUtil fuel tree pre x found) a := by
  induction fuel generalizing tree pre x found a with
  | zero => exact Or.inl (Silent.throw _ a)
  | succ fuel ih =>
    unfold mineUpTreeChecked mineUpTreeWith
    cases tree.headerTable.lookup x with
    | none => exact Or.inl (Silent.throw _ a)
    | some entry =>
      refine Watchful.get_bind ?_
      refine (watchful_sumChain _ _ 0 a).bind fun itemUtil a₁ _ => ?_
      split_ifs
      · exact watchful_mineCond ih minUtil tree entry _ _ a₁
      · exact Or.inl (Silent.pure found a₁)

theorem watchful_phases (txs : List RawTransaction) (minUtil : Utility) (guard : MemoryGuard)
    (a : NodeArena) :
    Watchful .fault .overflow (phasesChecked (fun _ => return ()) prepareBy txs minUtil guard)
      (phasesWith (PrepareBy.prepare prepareBy) txs minUtil guard) a := by
  unfold phasesChecked phasesWith
  refine Watchful.check_bind (alarmed_yields (yields_itemTwusChecked txs) a) ?_
  refine Watchful.bind (Or.inl rfl) fun tree a₁ _ => ?_
  refine Watchful.check_bind
    (alarmed_yields (Yields.mapM (fun tx => yields_treePathChecked _ tx) txs) a₁) ?_
  refine (watchful_insertPaths _ _ a₁).bind fun tree' a₂ _ => ?_
  refine Watchful.check_bind (Or.inl rfl) ?_
  refine (watchful_mineAll (watchful_mineUpTree minUtil _ tree' []) _ _ a₂).bind
    fun found a₃ _ => ?_
  exact Or.inl (Silent.pure _ a₃)

end Watchful

/-! ## The run -/

section Run

variable {txs : List RawTransaction} {m : Utility}

/-- A transaction adds to at most one node of an item, and at most what it is worth. -/
theorem light_global (hwf : ∀ tx ∈ txs, tx.WellFormed) (root : ℕ) :
    Light (statedTotal txs)
      (tally [] (txs.flatMap fun tx => pathAdds [] (treePath (globalHeader m txs root) tx))) := by
  refine light_of_paths (f := RawTransaction.transactionUtility) (fun tx htx x => ?_) le_rfl
  have hwithin := treePath_within (hwf tx htx) (globalHeader m txs root)
  have htu := (hwf tx htx).transactionUtility_nonneg
  by_cases hx : x ∈ (treePath (globalHeader m txs root) tx).map Prod.fst
  · obtain ⟨e, he, rfl⟩ := List.mem_map.mp hx
    rw [mass_pathAdds (w := e.2) (inOrder_treePath (m := m) (hwf tx htx) root)
      (before_empty _ _) he]
    split_ifs
    · exact (hwithin e he).2
    · exact htu
  · rw [mass, filter_pathAdds_of_notMem hx]
    exact htu

variable {full : Prop} {prepareBy : PrepareBy}

theorem silent_phases {inspect : ℕ → CheckedM Unit} (hm : full ∨ 0 < m)
    (hinspect : Accepts (statedTotal txs) inspect)
    (hprep : Prepares full m (PrepareBy.prepare prepareBy))
    (hwf : ∀ tx ∈ txs, tx.WellFormed) (htotal : statedTotal txs < 2 ^ 63)
    (pool : PagePool) (guard : MemoryGuard) :
    Silent .fault (phasesChecked inspect prepareBy txs m guard)
      (phasesWith (PrepareBy.prepare prepareBy) txs m guard) (.new pool) := by
  have harena : (NodeArena.new pool).reliable.Holds [] := holds_new fun _ => rfl
  have hfits : ∀ tx ∈ txs, tx.transactionUtility < 2 ^ 63 := by
    intro tx htx
    have hle : tx.transactionUtility ≤ statedTotal txs := by
      refine List.single_le_sum (fun u hu => ?_) _ (List.mem_map_of_mem htx)
      obtain ⟨tx', htx', rfl⟩ := List.mem_map.mp hu
      exact (hwf tx' htx').transactionUtility_nonneg
    exact hle.trans_lt htotal
  unfold phasesChecked phasesWith
  refine Silent.check_bind
    (alarmed_ok (itemTwusChecked_eq (sumsFit_of_total hwf htotal)) _) ?_
  refine Silent.bind_of_runs rfl steady_new
    (new_spec (E := OutOfPointers) harena m (itemTwus txs) fun _ => rfl) ?_
  rintro _ a₁ ⟨rfl, ns, ha₁, hnew, hbelow⟩
  have hpaths : txs.mapM (treePathChecked (globalHeader m txs 0)) =
      .ok (txs.map (treePath (globalHeader m txs 0))) :=
    Pass2.mapM_eq_ok fun tx htx => treePathChecked_eq (hwf tx htx) (hfits tx htx) _
  refine Silent.check_bind (alarmed_ok hpaths a₁) ?_
  have hcond : PatternTree full _ _ _ _ := (condTree_global (m := m) hwf 0).pattern
  have hlight := light_global (m := m) hwf 0
  rw [← flatMap_treePaths] at hcond hlight
  have hlen : (globalOrder m txs).length ≤ (validItems m (itemTwus txs)).length + 1 := by
    rw [length_globalOrder]
    omega
  refine silent_build htotal hinspect ha₁ hnew hbelow rfl
    (fun path hpath e he => mem_treePaths hpath he)
    (fun e he => ?_) hlight ?_
  · obtain ⟨path, hpath, he⟩ := List.mem_flatMap.mp he
    obtain ⟨tx, htx, rfl⟩ := List.mem_map.mp (List.mem_of_mem_filter hpath)
    exact nonneg_pathAdds (fun p hp => (treePath_within (hwf tx htx) _ p hp).1) e he
  · intro tree a₂ ns' ha₂ _ _ htree
    refine Silent.bind (silent_mineItems (silent_mineUpTree hm htotal hinspect hprep _)
      (steady_mineUpTree _ m _) (mineUpTreeWith_spec hm hprep _) ha₂ htree hcond hlight
      List.nodup_nil rfl hlen _) fun found a₃ _ => ?_
    exact Silent.pure _ a₃

variable {db : List SpmfRow} (ctx : MiningContext) (order : SetOrder)

/-- A run with checks ends as the run without them. -/
theorem runWithChecked_eq {inspect : List RawTransaction → ℕ → CheckedM Unit}
    (hm : full ∨ 0 < ctx.minUtility) (hinspect : ∀ txs, Accepts (statedTotal txs) (inspect txs))
    (hprep : Prepares full ctx.minUtility (PrepareBy.prepare prepareBy))
    (hwf : ∀ row ∈ db, row.WellFormed)
    (htotal : (db.map SpmfRow.transactionUtility).sum ≤ 2 ^ 63 - 1) :
    runWithChecked inspect prepareBy order (db.map .ok) ctx =
      (runWith (PrepareBy.prepare prepareBy) order (db.map .ok) ctx).mapError .fault := by
  have htxs := numbered_wellFormed hwf 0
  have hsum : statedTotal (numbered 0 db) < 2 ^ 63 := by
    rw [statedTotal_numbered]
    linarith
  unfold runWithChecked runWith
  rw [allTransactions_map_ok]
  split_ifs
  · have hphases : phasesChecked _ _ _ _ _ _ = _ :=
      silent_phases hm (hinspect _) hprep htxs hsum ctx.world.pool ctx.world.guard
    simp only [bind, Except.bind, Except.mapError, hphases, wrapErrors]
    cases hrun : phasesWith (PrepareBy.prepare prepareBy) (numbered 0 db) ctx.minUtility
        ctx.world.guard (.new ctx.world.pool) with
    | error e => rfl
    | ok result =>
      obtain ⟨⟨found, headerBytes⟩, arena⟩ := result
      have hpool : ∀ n, (NodeArena.new ctx.world.pool).reliable.pool.fails n = false :=
        fun _ => rfl
      have hspec := phasesWith_spec (E := OutOfPointers) hm hprep htxs (Or.inl rfl) hpool
        ctx.world.guard
      have hcands := candidates_distinctPhuis order
        ((steady_phases _ _ ctx.minUtility ctx.world.guard).runs hspec hrun)
      have hfits : ((numbered 0 db).map RawTransaction.transactionUtility).sum < 2 ^ 63 := hsum
      have htasks : resultTasksChecked ctx.minUtility (numbered 0 db)
          (distinctPhuis order found.candidates) = .ok _ :=
        resultTasksChecked_eq htxs (fun c hc => (hcands.sound c hc).1) hfits ctx.minUtility
      simp only [htasks, alarmed, Except.mapError]
      cases executeTasks ctx _ _ <;> rfl
  · rfl

/-- A run with checked sums ends as the run without them, or in an overflow. -/
theorem runWithSums_eq_or (source : DataSource) :
    runWithSums prepareBy order source ctx =
        (runWith (PrepareBy.prepare prepareBy) order source ctx).mapError .fault ∨
      runWithSums prepareBy order source ctx = .error .overflow := by
  unfold runWithSums runWithChecked runWith
  cases allTransactions source with
  | error e => exact Or.inl rfl
  | ok txs =>
    have hphases : Watchful .fault .overflow
        (phasesChecked (fun _ => return ()) prepareBy txs ctx.minUtility ctx.world.guard) _ _ :=
      watchful_phases txs ctx.minUtility ctx.world.guard (.new ctx.world.pool)
    unfold Watchful Silent wrapErrors at hphases
    simp only [bind, Except.bind, Except.mapError]
    rcases hphases with hphases | hphases
    · rw [hphases]
      cases phasesWith (PrepareBy.prepare prepareBy) txs ctx.minUtility ctx.world.guard
          (.new ctx.world.pool) with
      | error e => exact Or.inl rfl
      | ok result =>
        simp only [Except.mapError]
        rcases yields_resultTasksChecked ctx.minUtility txs
          (distinctPhuis order result.1.1.candidates) with htasks | ⟨htasks, -⟩
        · rw [htasks]
          simp only [alarmed, Except.mapError]
          left
          cases executeTasks ctx _ _ <;> rfl
        · rw [htasks]
          exact Or.inr rfl
    · rw [hphases]
      exact Or.inr rfl

theorem runChecked_eq (hwf : ∀ row ∈ db, row.WellFormed)
    (htotal : (db.map SpmfRow.transactionUtility).sum ≤ 2 ^ 63 - 1) :
    runChecked order (db.map .ok) ctx = (run order (db.map .ok) ctx).mapError .fault := by
  rw [run_eq]
  exact runWithChecked_eq ctx order (Or.inl trivial) (fun _ => accepts_checkTree _)
    (prepares ctx.minUtility) hwf htotal

/-- On a database that is worth at most `i64::MAX` no alarm is raised, whatever the
threshold and the store: no sum overflows, and in no tree do the nodes of one item
weigh more than the database. -/
theorem no_alarm (hwf : ∀ row ∈ db, row.WellFormed)
    (htotal : (db.map SpmfRow.transactionUtility).sum ≤ 2 ^ 63 - 1) :
    runChecked order (db.map .ok) ctx = (run order (db.map .ok) ctx).mapError .fault ∧
      runChecked order (db.map .ok) ctx ≠ .error .overflow ∧
      runChecked order (db.map .ok) ctx ≠ .error .overweight := by
  have hrun := runChecked_eq ctx order hwf htotal
  rw [hrun]
  refine ⟨rfl, fun h => ?_, fun h => ?_⟩
  · cases hplain : run order (db.map .ok) ctx <;> rw [hplain] at h <;> cases h
  · cases hplain : run order (db.map .ok) ctx <;> rw [hplain] at h <;> cases h

theorem no_alarm_tinyDb :
    runChecked .stored (tinyDb.map .ok) (createCtx 45 none 30) =
        (run .stored (tinyDb.map .ok) (createCtx 45 none 30)).mapError .fault ∧
      runChecked .stored (tinyDb.map .ok) (createCtx 45 none 30) ≠ .error .overflow ∧
      runChecked .stored (tinyDb.map .ok) (createCtx 45 none 30) ≠ .error .overweight :=
  no_alarm (createCtx 45 none 30) .stored (by decide) (by decide)

/-- A database that is worth one more. -/
def heavyDb : List SpmfRow := [
  { items := [⟨1, 2 ^ 62⟩], transactionUtility := 2 ^ 62 },
  { items := [⟨1, 2 ^ 62⟩], transactionUtility := 2 ^ 62 }]

example : (runChecked .stored (heavyDb.map .ok) (createCtx 45 none 30)).map Prod.fst =
    .error .overflow := by
  decide +kernel

/-- The nodes of item 2 weigh 90. -/
example : (phasesChecked (checkTree 89) UpGrowth.prepareBy (numbered 0 tinyDb) 45 (.new 0)
      (.new (World.fresh 0).pool)).map (fun r => r.1.2) = .error .overweight ∧
    (phasesChecked (checkTree 90) UpGrowth.prepareBy (numbered 0 tinyDb) 45 (.new 0)
      (.new (World.fresh 0).pool)).isOk := by
  decide +kernel

end Run

end UpGrowth

end AirHuim
