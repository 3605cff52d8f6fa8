import AirHuim.Mining.TaskLogic

/-!
# EFIM

The miner over database projections. A projection holds, for every transaction
that contains the itemset, where its later items start, what the itemset is worth
there and what it could still become worth. Two bounds summed over a projection
decide which items extend the itemset.
-/

namespace AirHuim

open Library Basket

namespace Efim

structure OriginalTx where
  items : List ItemId
  utilities : List Utility
  remainingUtilities : List Utility
  deriving Inhabited, DecidableEq, Repr

structure ProjTx where
  txIdx : ℕ
  offset : ℕ
  prefixUtility : Utility
  pathUtility : Utility
  deriving DecidableEq, Repr

/-- The size of a `ProjTx`: its fields take 22 bytes, its alignment is 8. -/
def projEntrySize : ℕ := 24

def ProjTx.toBytes (p : ProjTx) : Bytes :=
  leBytes 4 p.txIdx ++ (leBytes 2 p.offset ++
    (leBytes 2 0 ++ (i64ToLe p.prefixUtility ++ i64ToLe p.pathUtility)))

def ProjTx.ofBytes (buf : Bytes) : ProjTx where
  txIdx := ofLeBytes (buf.take 4)
  offset := ofLeBytes ((buf.drop 4).take 2)
  prefixUtility := i64OfLe ((buf.drop 8).take 8)
  pathUtility := i64OfLe ((buf.drop 16).take 8)

inductive EfimProj
  | inMemory (proj : List ProjTx)
  | onDisk (pageId : PageId) (count : ℕ)

def EfimProj.spill (proj : List ProjTx) : Task EfimProj := do
  let pageId ← Task.newPage (proj.flatMap ProjTx.toBytes)
  return .onDisk pageId proj.length

/-- At most `count` entries, and no more than the page holds. -/
def EfimProj.load (pageId : PageId) (count : ℕ) : Task (List ProjTx) := do
  let buf ← Task.pin pageId
  return ((chunksExact 24 buf).take count).map ProjTx.ofBytes

/-- The orders in which the hash maps built at an itemset yield their keys. -/
structure HashOrder where
  order : List ItemId → List ItemId → List ItemId
  perm : ∀ itemset keys, (order itemset keys).Perm keys

/-- What every call of the recursion is given. -/
structure Env where
  db : List OriginalTx
  minUtil : Utility
  order : HashOrder

/-- `ru`, running from the last item to the first. -/
def suffixSums : List Utility → List Utility
  | [] => []
  | _ :: utilities => utilities.sum :: suffixSums utilities

/-- A filtered transaction, sorted by weight once more. -/
def loadTx (r : TwuFilterResult) (tx : FilteredTransaction) : OriginalTx :=
  let items := sortByKey (fun e : ItemEntry => (r.twu.lookup e.item).getD 0) tx.items
  ⟨items.map ItemEntry.item, items.map ItemEntry.utility,
    suffixSums (items.map ItemEntry.utility)⟩

/-- The entry that a transaction of the database makes for an item. -/
def initialTx (tx : OriginalTx) (txIdx : ℕ) (item : ItemId) : Option ProjTx :=
  match tx.items.idxOf? item with
  | some pos =>
      let pu := tx.utilities.getD pos 0
      some ⟨txIdx % 2 ^ 32, (pos + 1) % 2 ^ 16, pu, pu + tx.remainingUtilities.getD pos 0⟩
  | none => none

/-- The entry that a transaction of a projection makes for one more item. -/
def projectTx (origTx : OriginalTx) (tx : ProjTx) (item : ItemId) : Option ProjTx :=
  match (origTx.items.drop tx.offset).idxOf? item with
  | some pos =>
      let absPos := tx.offset + pos
      let pu := tx.prefixUtility + origTx.utilities.getD absPos 0
      some ⟨tx.txIdx, (absPos + 1) % 2 ^ 16, pu, pu + origTx.remainingUtilities.getD absPos 0⟩
  | none => none

/-- The entries pushed so far and `item_util`. -/
def pushProj (acc : List ProjTx × Utility) : Option ProjTx → List ProjTx × Utility
  | some p => (acc.1 ++ [p], acc.2 + p.prefixUtility)
  | none => acc

/-- The projection of a single item, and its utility. -/
def initialProj (db : List OriginalTx) (item : ItemId) : List ProjTx × Utility :=
  db.zipIdx.foldl (fun acc p => pushProj acc (initialTx p.1 p.2 item)) ([], 0)

/-- The projection of an itemset with one more item, and its utility. -/
def project (db : List OriginalTx) (proj : List ProjTx) (item : ItemId) :
    List ProjTx × Utility :=
  proj.foldl (fun acc tx => pushProj acc (projectTx (db.getD tx.txIdx default) tx item)) ([], 0)

def suAt (origTx : OriginalTx) (tx : ProjTx) (i : ℕ) : Utility :=
  tx.prefixUtility + origTx.utilities.getD i 0 + origTx.remainingUtilities.getD i 0

/-- One transaction of a projection, for `lu_map` and `su_map`. -/
def addBounds (db : List OriginalTx) (maps : Table ItemId Utility × Table ItemId Utility)
    (tx : ProjTx) : Table ItemId Utility × Table ItemId Utility :=
  let origTx := db.getD tx.txIdx default
  (List.range' tx.offset (origTx.items.length - tx.offset)).foldl (fun maps i =>
    let item := origTx.items.getD i 0
    (Table.modify maps.1 item 0 (· + tx.pathUtility),
      Table.modify maps.2 item 0 (· + suAt origTx tx i))) maps

def bounds (db : List OriginalTx) (proj : List ProjTx) :
    Table ItemId Utility × Table ItemId Utility :=
  proj.foldl (addBounds db) (∅, ∅)

/-- The items whose `su` reaches the threshold, by their position in the first
transaction of the projection. -/
def validExtensions (env : Env) (itemset : List ItemId) (first : ProjTx)
    (su : Table ItemId Utility) : List ItemId :=
  let tail := (env.db.getD first.txIdx default).items.drop first.offset
  sortByKey (fun item => (tail.idxOf? item).getD (2 ^ 64 - 1))
    ((env.order.order itemset su.keys).filter fun item =>
      env.minUtil ≤ (su.lookup item).getD 0)

def writeIfHigh (env : Env) (itemset : List ItemId) (util : Utility) : Task Unit :=
  if env.minUtil ≤ util then Task.writeAndCount itemset util else return ()

/-- A projection over budget is spilled; if that fails there is none. -/
def keep (proj : List ProjTx) : Task (Option EfimProj) := do
  let admitted ← Task.tryAlloc (proj.length * projEntrySize)
  if admitted then return some (.inMemory proj)
  else Task.okOr (do
    let onDisk ← EfimProj.spill proj
    return some onDisk) none

def descendInto (descend : EfimProj → Task Unit) (bytes : ℕ) : Option EfimProj → Task Unit
  | none => return ()
  | some proj => do
      descend proj
      Task.free bytes

/-- What the task of an item and the loop over extensions both do with a new
itemset: write it, keep its projection, search below it, release the budget. -/
def explore (env : Env) (descend : List ItemId → EfimProj → Task Unit) (itemset : List ItemId)
    (proj : List ProjTx) (util : Utility) : Task Unit := do
  writeIfHigh env itemset util
  let kept ← keep proj
  descendInto (descend itemset) (proj.length * projEntrySize) kept

def visit (env : Env) (descend : List ItemId → EfimProj → Task Unit) (itemset : List ItemId)
    (proj : List ProjTx) (lu : Table ItemId Utility) (item : ItemId) : Task Unit :=
  if (lu.lookup item).getD 0 < env.minUtil then return ()
  else
    let (newProj, itemUtil) := project env.db proj item
    if newProj = [] then return ()
    else explore env descend (itemset ++ [item]) newProj itemUtil

def visitAll (env : Env) (descend : List ItemId → EfimProj → Task Unit) (itemset : List ItemId)
    (proj : List ProjTx) (lu : Table ItemId Utility) : List ItemId → Task Unit
  | [] => return ()
  | item :: rest => do
      visit env descend itemset proj lu item
      visitAll env descend itemset proj lu rest

def resolve : EfimProj → Task (Option (List ProjTx))
  | .inMemory proj => return some proj
  | .onDisk pageId count => Task.okOr (do
      let proj ← EfimProj.load pageId count
      return some proj) none

/-- The body of `mine_efim` once the projection is in memory. -/
def mineSlice (env : Env) (descend : List ItemId → EfimProj → Task Unit)
    (itemset : List ItemId) : Option (List ProjTx) → Task Unit
  | none | some [] => return ()
  | some (first :: rest) =>
      let maps := bounds env.db (first :: rest)
      visitAll env descend itemset (first :: rest) maps.1
        (validExtensions env itemset first maps.2)

def mineEfim (env : Env) : ℕ → List ItemId → EfimProj → Task Unit
  | 0, _, _ => throw .stuck
  | fuel + 1, itemset, proj => do
      let projSlice ← resolve proj
      mineSlice env (mineEfim env fuel) itemset projSlice

def itemTask (env : Env) (fuel : ℕ) (item : ItemId) : Task Unit :=
  let (proj, itemUtil) := initialProj env.db item
  explore env (mineEfim env fuel) [item] proj itemUtil

/-- The items the filter lets pass, by weight. -/
def primaryItems (order : HashOrder) (r : TwuFilterResult) : List ItemId :=
  sortByKey (fun item => (r.twu.lookup item).getD 0) (order.order [] r.twu.keys)

/-- `Efim::run`: the count it returns and the world it leaves. -/
def run (order : HashOrder) (source : DataSource) (ctx : MiningContext) :
    Except Fault (ℕ × World) := do
  let txs := okOnly (← readDb source)
  let r := TwuFilter.compute ctx.minUtility txs
  let db := (filteredDb r txs).map (loadTx r)
  let dbSizeBytes := (db.map fun tx => tx.items.length * (4 + 8 + 8)).sum
  let tasks := primaryItems order r
  let w ← executeTasks ctx { ctx.world with guard := ctx.world.guard.forceAlloc dbSizeBytes }
    (tasks.map (itemTask ⟨db, ctx.minUtility, order⟩ (tasks.length + 1)))
  return (w.huisFound, { w with guard := w.guard.free dbSizeBytes })

end Efim

end AirHuim
