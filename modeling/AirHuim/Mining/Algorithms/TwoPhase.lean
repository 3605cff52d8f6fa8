import AirHuim.Library.Intersect
import AirHuim.Mining.TaskLogic

/-!
# Two-Phase

The miner over a vertical index: for every item whose weight reaches the
threshold, a page with the transactions that contain it. The search extends an
itemset by the items that stayed valid one level up and prunes by the weight of
the intersected list. The main result is that its output is exact.
-/

namespace AirHuim

open Library Basket

namespace TwoPhase

structure TxEntry where
  txIdx : ℕ
  util : Utility
  deriving DecidableEq, Repr

structure DfsNode where
  txIdx : ℕ
  utilPrefix : Utility
  deriving DecidableEq, Repr

/-- The 12 bytes of either record. -/
def recordBytes (txIdx : ℕ) (util : Utility) : Bytes := leBytes 4 txIdx ++ i64ToLe util

def serializeNodes (nodes : List DfsNode) : Bytes :=
  nodes.flatMap fun n => recordBytes n.txIdx n.utilPrefix

def deserializeNodes (bytes : Bytes) : List DfsNode :=
  (chunksExact 12 bytes).map fun chunk =>
    ⟨ofLeBytes (chunk.take 4), i64OfLe ((chunk.drop 4).take 8)⟩

def serializeTxEntries (entries : List TxEntry) : Bytes :=
  entries.flatMap fun e => recordBytes e.txIdx e.util

def deserializeTxEntries (bytes : Bytes) : List TxEntry :=
  (chunksExact 12 bytes).map fun chunk =>
    ⟨ofLeBytes (chunk.take 4), i64OfLe ((chunk.drop 4).take 8)⟩

inductive NodeList
  | inMemory (nodes : List DfsNode)
  | onDisk (pageId : PageId) (len : ℕ)

/-- What the recursion reads and never changes. -/
structure Index where
  vertDbPages : List PageId
  txTwus : List Utility
  minUtil : Utility
  orig : List ItemId

/-- The intersection of a list with an item's, with its weight and its utility. -/
def intersectTids (txTwus : List Utility) (tids : List DfsNode) (ext : List TxEntry) :
    List DfsNode × Utility × Utility :=
  intersectWith DfsNode.txIdx TxEntry.txIdx
    (fun (nextTids, twu, exact_) p x =>
      let newUtil := p.utilPrefix + x.util
      (nextTids ++ [⟨p.txIdx, newUtil⟩], twu + txTwus.getD p.txIdx 0, exact_ + newUtil))
    ([], 0, 0) tids ext

def writeIfHigh (ix : Index) (itemset : List ItemId) (nextTids : List DfsNode)
    (exact_ : Utility) : Task Unit :=
  if nextTids ≠ [] ∧ ix.minUtil ≤ exact_ then Task.writeAndCount itemset exact_ else return ()

def storeList (nextTids : List DfsNode) : Task NodeList :=
  if 4096 ≤ (serializeNodes nextTids).length then do
    let pageId ← Task.newPage (serializeNodes nextTids)
    return .onDisk pageId nextTids.length
  else return .inMemory nextTids

/-- The first loop of `dfs`: the extensions that stay valid, with their lists. -/
def extend (ix : Index) (itemset : List ItemId) (tids : List DfsNode) :
    List ℕ → Task (List (ℕ × NodeList))
  | [] => return []
  | extIdx :: extensions => do
      let bytes ← Task.pin (ix.vertDbPages.getD extIdx 0)
      let (nextTids, twu, exact_) := intersectTids ix.txTwus tids (deserializeTxEntries bytes)
      writeIfHigh ix (itemset ++ [ix.orig.getD extIdx 0]) nextTids exact_
      if nextTids ≠ [] ∧ ix.minUtil ≤ twu then
        let list ← storeList nextTids
        let rest ← extend ix itemset tids extensions
        return (extIdx, list) :: rest
      else extend ix itemset tids extensions

def resolve : NodeList → Task (List DfsNode)
  | .inMemory nodes => return nodes
  | .onDisk pageId _ => do
      let bytes ← Task.pin pageId
      return deserializeNodes bytes

/-- The second loop of `dfs`, with the recursive call as a parameter. -/
def recurse (ix : Index) (descend : List ItemId → List ℕ → List DfsNode → Task Unit)
    (itemset : List ItemId) : List (ℕ × NodeList) → Task Unit
  | [] => return ()
  | (extIdx, list) :: rest => do
      let tids ← resolve list
      descend (itemset ++ [ix.orig.getD extIdx 0]) (rest.map Prod.fst) tids
      recurse ix descend itemset rest

def dfs (ix : Index) : ℕ → List ItemId → List ℕ → List DfsNode → Task Unit
  | 0, _, _, _ => throw .stuck
  | fuel + 1, itemset, extensions, tids => do
      let valid ← extend ix itemset tids extensions
      recurse ix (dfs ix fuel) itemset valid

def writeSingle (ix : Index) (itemset : List ItemId) (exact1 : Utility) : Task Unit :=
  if ix.minUtil ≤ exact1 then Task.writeAndCount itemset exact1 else return ()

/-- The task of one item. A page that cannot be pinned counts as empty, and an
error of the search is dropped. -/
def itemTask (ix : Index) (i : ℕ) : Task Unit := do
  let itemset := [ix.orig.getD i 0]
  let initialTids ← Task.okOr (do
      let bytes ← Task.pin (ix.vertDbPages.getD i 0)
      return (deserializeTxEntries bytes).map fun e => DfsNode.mk e.txIdx e.util) []
  let exact1 := (initialTids.map DfsNode.utilPrefix).sum
  writeSingle ix itemset exact1
  let extensions := List.range' (i + 1) (ix.orig.length - (i + 1))
  Task.okOr (dfs ix (extensions.length + 1) itemset extensions initialTids) ()

/-- Phase 1: the items whose weight reaches the threshold, ascending. -/
def validItems (minUtility : Utility) (txs : List RawTransaction) : List ItemId :=
  let twu1 : Table ItemId Utility := txs.foldl (fun twu tx =>
    tx.items.foldl (fun twu entry =>
      Table.modify twu entry.item 0 (· + tx.transactionUtility)) twu) ∅
  sortByKey id (Table.retain twu1 fun _ v => decide (minUtility ≤ v)).keys

/-- The entries of one transaction. -/
def addEntries (valid : List ItemId) (txIdx : ℕ) (items : List ItemEntry)
    (db : List (List TxEntry)) : List (List TxEntry) :=
  items.foldl (fun db entry => match valid.idxOf? entry.item with
    | some m => db.modify m (· ++ [⟨txIdx, entry.utility⟩])
    | none => db) db

/-- Phase 2: one list for each valid item. -/
def vertDb (valid : List ItemId) : ℕ → List RawTransaction → List (List TxEntry) →
    List (List TxEntry)
  | _, [], db => db
  | txIdx, tx :: txs, db => vertDb valid (txIdx + 1) txs (addEntries valid txIdx tx.items db)

/-- One page for each list. -/
def insertPages : List (List TxEntry) → World → Except Fault (List PageId × World)
  | [], w => .ok ([], w)
  | entries :: rest, w => do
      let pageId ← (world.exec (.newPage (serializeTxEntries entries)) w).1
      let (pages, w) ← insertPages rest (world.exec (.newPage (serializeTxEntries entries)) w).2
      return (pageId :: pages, w)

/-- `TwoPhase::run`: the count it returns and the world it leaves. -/
def run (source : DataSource) (ctx : MiningContext) : Except Fault (ℕ × World) := do
  let txs ← (← readDb source).mapM id
  let valid := validItems ctx.minUtility txs
  let txTwus := txs.map RawTransaction.transactionUtility
  let (pages, w) ← insertPages (vertDb valid 0 txs (valid.map fun _ => [])) ctx.world
  let txTwusBytes := txTwus.length * 8
  let (admitted, guard) := w.guard.tryAlloc txTwusBytes
  let w := { w with guard }
  if admitted then
    let ix : Index := ⟨pages, txTwus, ctx.minUtility, valid⟩
    let w ← executeTasks ctx w ((List.range valid.length).map (itemTask ix))
    return (w.huisFound, { w with guard := w.guard.free txTwusBytes })
  else return (0, w)

/-! ## The lists of the index -/

/-- The list of the itemset `P`: where it occurs, with what it is worth there. -/
def nodesOf (txs : List RawTransaction) (P : Finset ItemId) : List DfsNode :=
  (txs.filter fun tx => P ⊆ tx.basket.items).map fun tx => ⟨tx.tid, tx.basket.gain P⟩

/-- The page of the item `y`. -/
def entriesAt (txs : List RawTransaction) (y : ItemId) : List TxEntry :=
  (txs.filter fun tx => {y} ⊆ tx.basket.items).map fun tx => ⟨tx.tid, tx.basket.gain {y}⟩

/-- The transactions of a database as the index has them. -/
structure Rows (txs : List RawTransaction) (txTwus : List Utility) : Prop where
  wellFormed : ∀ tx ∈ txs, tx.WellFormed
  tids : txs.Pairwise fun tx tx' => tx.tid < tx'.tid
  tid_lt : ∀ tx ∈ txs, tx.tid < 2 ^ 32
  twus : ∀ tx ∈ txs, txTwus.getD tx.tid 0 = tx.transactionUtility

theorem getD_numbered (tid : ℕ) (db : List SpmfRow) (skipped : List Utility)
    (hskip : skipped.length = tid) :
    ∀ tx ∈ numbered tid db, (skipped ++ (numbered tid db).map
      RawTransaction.transactionUtility).getD tx.tid 0 = tx.transactionUtility := by
  induction db generalizing tid skipped with
  | nil => exact fun tx htx => (List.not_mem_nil htx).elim
  | cons row db ih =>
    intro tx htx
    rw [numbered, List.map_cons]
    rcases List.mem_cons.mp htx with rfl | htx
    · simp [List.getD_eq_getElem?_getD, ← hskip]
    · have := ih (tid + 1) (skipped ++ [row.transactionUtility]) (by simp [hskip]) tx htx
      rwa [List.append_assoc, List.singleton_append] at this

theorem rows_numbered {db : List SpmfRow} (hwf : ∀ row ∈ db, row.WellFormed)
    (hlen : db.length < 2 ^ 32) :
    Rows (numbered 0 db) ((numbered 0 db).map RawTransaction.transactionUtility) where
  wellFormed := numbered_wellFormed hwf 0
  tids := pairwise_numbered 0 db
  tid_lt tx htx := by
    have := (mem_numbered htx).2.1
    omega
  twus := getD_numbered 0 db [] rfl

theorem length_recordBytes (txIdx : ℕ) (util : Utility) : (recordBytes txIdx util).length = 12 := by
  simp [recordBytes]

theorem recordBytes_fields {txIdx : ℕ} {util : Utility} (ht : txIdx < 2 ^ 32) (hu : FitsI64 util) :
    ofLeBytes ((recordBytes txIdx util).take 4) = txIdx ∧
      i64OfLe (((recordBytes txIdx util).drop 4).take 8) = util := by
  have hfield := take_field (length_leBytes 4 txIdx) (i64ToLe util)
  have htake : (i64ToLe util).take 8 = i64ToLe util :=
    List.take_of_length_le (length_i64ToLe util).le
  rw [recordBytes, hfield.1, hfield.2, htake, i64OfLe_i64ToLe hu]
  exact ⟨ofLeBytes_leBytes_of_lt (ht.trans_le (by norm_num)), rfl⟩

variable {txs : List RawTransaction} {txTwus : List Utility} {P : Finset ItemId} {y : ItemId}

theorem Rows.fits_gain (h : Rows txs txTwus) {tx : RawTransaction} (htx : tx ∈ txs)
    (hP : P ⊆ tx.basket.items) : FitsI64 (tx.basket.gain P) :=
  (h.wellFormed tx htx).fits.of_le (gain_nonneg (nonneg_basketOf (h.wellFormed tx htx).nonneg) hP)
    ((h.wellFormed tx htx).gain_le hP)

theorem deserializeNodes_nodesOf (h : Rows txs txTwus) (P : Finset ItemId) :
    deserializeNodes (serializeNodes (nodesOf txs P)) = nodesOf txs P := by
  apply map_chunksExact_flatMap (by norm_num) (fun n : DfsNode => recordBytes n.txIdx n.utilPrefix)
    fun n => length_recordBytes n.txIdx n.utilPrefix
  intro n hn
  obtain ⟨tx, htx, rfl⟩ := List.mem_map.mp hn
  obtain ⟨htx, hP⟩ := List.mem_filter.mp htx
  have hfields := recordBytes_fields (h.tid_lt tx htx) (h.fits_gain htx (of_decide_eq_true hP))
  simp only [hfields.1, hfields.2]

theorem deserializeTxEntries_entriesAt (h : Rows txs txTwus) (y : ItemId) :
    deserializeTxEntries (serializeTxEntries (entriesAt txs y)) = entriesAt txs y := by
  apply map_chunksExact_flatMap (by norm_num) (fun e : TxEntry => recordBytes e.txIdx e.util)
    fun e => length_recordBytes e.txIdx e.util
  intro e he
  obtain ⟨tx, htx, rfl⟩ := List.mem_map.mp he
  obtain ⟨htx, hy⟩ := List.mem_filter.mp htx
  have hfields := recordBytes_fields (h.tid_lt tx htx) (h.fits_gain htx (of_decide_eq_true hy))
  simp only [hfields.1, hfields.2]

/-- The intersection of the list of `P` with the page of `y` is the list of
`P ∪ {y}`, with its weight and its utility. -/
theorem intersectTids_eq (h : Rows txs txTwus) (hy : y ∉ P) :
    intersectTids txTwus (nodesOf txs P) (entriesAt txs y) =
      (nodesOf txs (insert y P), twuOf txs (insert y P),
        utility (txs.map RawTransaction.basket) (insert y P)) := by
  have hfold : ∀ (rs : List RawTransaction) (nodes : List DfsNode) (twu exact_ : Utility),
      (∀ tx ∈ rs, tx ∈ txs) →
      rs.foldl (fun (s : List DfsNode × Utility × Utility) tx =>
          (s.1 ++ [⟨tx.tid, tx.basket.gain P + tx.basket.gain {y}⟩],
            s.2.1 + txTwus.getD tx.tid 0, s.2.2 + (tx.basket.gain P + tx.basket.gain {y})))
          (nodes, twu, exact_) =
        (nodes ++ rs.map (fun tx => ⟨tx.tid, tx.basket.gain (insert y P)⟩),
          twu + (rs.map RawTransaction.transactionUtility).sum,
          exact_ + (rs.map fun tx => tx.basket.gain (insert y P)).sum) := by
    intro rs
    induction rs with
    | nil => simp
    | cons tx rs ih =>
      intro nodes twu exact_ hrs
      have hgain : tx.basket.gain P + tx.basket.gain {y} = tx.basket.gain (insert y P) := by
        rw [gain_insert _ hy, gain_singleton, add_comm]
      rw [List.foldl_cons, ih _ _ _ fun t ht => hrs t (List.mem_cons_of_mem tx ht), hgain,
        h.twus tx (hrs tx List.mem_cons_self)]
      simp [add_assoc]
  have hboth : (txs.filter fun tx => decide (P ⊆ tx.basket.items) &&
      decide ({y} ⊆ tx.basket.items)) = txs.filter fun tx => insert y P ⊆ tx.basket.items := by
    apply List.filter_congr
    intro tx _
    rw [← Bool.decide_and]
    apply decide_eq_decide.mpr
    rw [Finset.insert_subset_iff, Finset.singleton_subset_iff, and_comm]
  have htid : ∀ tx : RawTransaction, (DfsNode.mk tx.tid (tx.basket.gain P)).txIdx = tx.tid :=
    fun _ => rfl
  have htid' : ∀ tx : RawTransaction, (TxEntry.mk tx.tid (tx.basket.gain {y})).txIdx = tx.tid :=
    fun _ => rfl
  unfold intersectTids nodesOf entriesAt
  rw [intersectWith_rows htid htid' h.tids, hboth]
  refine (hfold _ [] 0 0 fun tx htx => List.mem_of_mem_filter htx).trans ?_
  rw [List.nil_append, zero_add, zero_add, utility_map]
  rfl

end TwoPhase

end AirHuim
