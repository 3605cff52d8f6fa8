import AirHuim.Mining.Algorithms.EfimLedger
import AirHuim.Preprocessing.TwuBound

/-!
# EFIM with sums that wrap around

EFIM in a build without overflow checks, where every sum of `i64`s is taken modulo
`2 ^ 64`: the weights, what is left of a transaction after each of its items, the
entries of the projections and the two bounds. What does no arithmetic is shared with
the model whose sums are exact.
-/

namespace AirHuim

open Library Basket

/-- The `i64` that an addition leaves. -/
def wrapI64 (z : ℤ) : ℤ := z.bmod (2 ^ 64)

theorem fitsI64_wrapI64 (z : ℤ) : FitsI64 (wrapI64 z) := by
  have hlo := Int.le_bmod (x := z) (m := 2 ^ 64) (by decide)
  have hhi := Int.bmod_lt (x := z) (m := 2 ^ 64) (by decide)
  exact ⟨by simpa [wrapI64] using hlo, by simpa [wrapI64] using hhi⟩

theorem wrapI64_eq_self {z : ℤ} (h : FitsI64 z) : wrapI64 z = z := by
  obtain ⟨hlo, hhi⟩ := h
  exact Int.bmod_eq_of_le (by simpa using hlo) (by simpa using hhi)

/-- `compute`, with the weights as they wrap around. -/
def TwuFilter.computeWrapping (minUtility : Utility) (transactions : List RawTransaction) :
    TwuFilterResult :=
  let twu : Table ItemId Utility := transactions.foldl (fun twu tx =>
    tx.items.foldl (fun twu entry =>
      Table.modify twu entry.item 0 fun v => wrapI64 (v + tx.transactionUtility)) twu) ∅
  let twu := Table.retain twu fun _ v => decide (minUtility ≤ v)
  { twu
    orderedItems := sortByKey (fun p : ItemId × Utility => toLex (p.2, p.1))
      (twu.entries.map fun e => (e.1, e.2))
    minUtility }

namespace TwuFilter

theorem computeWrapping_twu (minUtility : Utility) (txs : List RawTransaction) :
    (computeWrapping minUtility txs).twu =
      Table.retain (Table.modifyAll ∅ 0 (fun v u => wrapI64 (v + u)) (twuEvents txs))
        fun _ v => decide (minUtility ≤ v) := by
  rw [twuEvents, Table.modifyAll_flatMap]
  simp only [computeWrapping, Table.modifyAll, List.foldl_map]

theorem modifyAll_wrapI64 {m : Table ItemId Utility} {events : List (ItemId × Utility)}
    (h : AllFit (Table.written 0 (· + ·) m events)) :
    Table.modifyAll m 0 (fun v u => wrapI64 (v + u)) events =
      Table.modifyAll m 0 (· + ·) events := by
  induction events generalizing m with
  | nil => rfl
  | cons e events ih =>
    obtain ⟨hvalue, hrest⟩ := allFit_cons.mp h
    have hstep : Table.modify m e.1 0 (fun v => wrapI64 (v + e.2)) =
        Table.modify m e.1 0 (· + e.2) := by
      exact congrArg (m.insert e.1) (wrapI64_eq_self hvalue)
    have hfirst := ih hrest
    unfold Table.modifyAll at hfirst ⊢
    rw [List.foldl_cons, List.foldl_cons, hstep]
    exact hfirst

/-- Weights that fit do not wrap around. -/
theorem computeWrapping_eq {txs : List RawTransaction} (h : SumsFit txs) (minUtility : Utility) :
    computeWrapping minUtility txs = compute minUtility txs := by
  have htwu : (computeWrapping minUtility txs).twu = (compute minUtility txs).twu := by
    rw [computeWrapping_twu, compute_twu, modifyAll_wrapI64 h]
  have hwrapping : computeWrapping minUtility txs =
      ⟨(computeWrapping minUtility txs).twu, sortByKey (fun p : ItemId × Utility =>
        toLex (p.2, p.1)) ((computeWrapping minUtility txs).twu.entries.map fun e => (e.1, e.2)),
        minUtility⟩ := rfl
  rw [hwrapping, htwu]
  rfl

/-- An item that passes the filter occurs. -/
theorem occurs_of_passes {txs : List RawTransaction} {minUtility : Utility} {item : ItemId}
    (h : (computeWrapping minUtility txs).passes item = true) :
    ∃ tx ∈ txs, ∃ e ∈ tx.items, e.item = item := by
  rw [TwuFilterResult.passes, decide_eq_true_iff, ← AList.lookup_isSome, computeWrapping_twu,
    Table.lookup_retain, Table.lookup_modifyAll_empty] at h
  have hne : Table.argsAt (twuEvents txs) item ≠ [] := by
    intro hnil
    rw [if_pos hnil] at h
    cases h
  obtain ⟨v, hv⟩ := List.exists_mem_of_ne_nil _ hne
  obtain ⟨event, hevent, -⟩ := List.mem_map.mp hv
  obtain ⟨hevent, hitem⟩ := List.mem_filter.mp hevent
  obtain ⟨tx, htx, hmem⟩ := List.mem_flatMap.mp hevent
  obtain ⟨e, he, rfl⟩ := List.mem_map.mp hmem
  exact ⟨tx, htx, e, he, of_decide_eq_true hitem⟩

end TwuFilter

namespace Efim.Wrapping

/-- `ru` before the items in front of these have been added. -/
def ruAfter : List Utility → Utility
  | [] => 0
  | u :: utilities => wrapI64 (ruAfter utilities + u)

def suffixSums : List Utility → List Utility
  | [] => []
  | _ :: utilities => ruAfter utilities :: suffixSums utilities

def loadTx (r : TwuFilterResult) (tx : FilteredTransaction) : OriginalTx :=
  let items := sortByKey (fun e : ItemEntry => (r.twu.lookup e.item).getD 0) tx.items
  ⟨items.map ItemEntry.item, items.map ItemEntry.utility,
    suffixSums (items.map ItemEntry.utility)⟩

def initialTx (tx : OriginalTx) (txIdx : ℕ) (item : ItemId) : Option ProjTx :=
  match tx.items.idxOf? item with
  | some pos =>
      let pu := tx.utilities.getD pos 0
      some ⟨txIdx % 2 ^ 32, (pos + 1) % 2 ^ 16, pu,
        wrapI64 (pu + tx.remainingUtilities.getD pos 0)⟩
  | none => none

def projectTx (origTx : OriginalTx) (tx : ProjTx) (item : ItemId) : Option ProjTx :=
  match (origTx.items.drop tx.offset).idxOf? item with
  | some pos =>
      let absPos := tx.offset + pos
      let pu := wrapI64 (tx.prefixUtility + origTx.utilities.getD absPos 0)
      some ⟨tx.txIdx, (absPos + 1) % 2 ^ 16, pu,
        wrapI64 (pu + origTx.remainingUtilities.getD absPos 0)⟩
  | none => none

def pushProj (acc : List ProjTx × Utility) : Option ProjTx → List ProjTx × Utility
  | some p => (acc.1 ++ [p], wrapI64 (acc.2 + p.prefixUtility))
  | none => acc

def initialProj (db : List OriginalTx) (item : ItemId) : List ProjTx × Utility :=
  db.zipIdx.foldl (fun acc p => pushProj acc (initialTx p.1 p.2 item)) ([], 0)

def project (db : List OriginalTx) (proj : List ProjTx) (item : ItemId) :
    List ProjTx × Utility :=
  proj.foldl (fun acc tx => pushProj acc (projectTx (db.getD tx.txIdx default) tx item)) ([], 0)

def suAt (origTx : OriginalTx) (tx : ProjTx) (i : ℕ) : Utility :=
  wrapI64 (wrapI64 (tx.prefixUtility + origTx.utilities.getD i 0) +
    origTx.remainingUtilities.getD i 0)

def addBounds (db : List OriginalTx) (maps : Table ItemId Utility × Table ItemId Utility)
    (tx : ProjTx) : Table ItemId Utility × Table ItemId Utility :=
  let origTx := db.getD tx.txIdx default
  (List.range' tx.offset (origTx.items.length - tx.offset)).foldl (fun maps i =>
    let item := origTx.items.getD i 0
    (Table.modify maps.1 item 0 fun v => wrapI64 (v + tx.pathUtility),
      Table.modify maps.2 item 0 fun v => wrapI64 (v + suAt origTx tx i))) maps

def bounds (db : List OriginalTx) (proj : List ProjTx) :
    Table ItemId Utility × Table ItemId Utility :=
  proj.foldl (addBounds db) (∅, ∅)

def visit (env : Env) (descend : List ItemId → EfimProj → Task Unit) (itemset : List ItemId)
    (proj : List ProjTx) (lu : Table ItemId Utility) (item : ItemId) : Task Unit :=
  if (lu.lookup item).getD 0 < env.minUtil then return ()
  else
    let (newProj, itemUtil) := project env.db proj item
    if newProj = [] then return ()
    else explore env descend (itemset ++ [item]) newProj itemUtil

def visitAll (env : Env) (descend : List ItemId → EfimProj → Task Unit) (itemset : List ItemId)
    (proj : List ProjTx) (lu : Table ItemId Utility) : List ItemId → Task Unit
  | [] => return ()
  | item :: rest => do
      visit env descend itemset proj lu item
      visitAll env descend itemset proj lu rest

def mineSlice (env : Env) (descend : List ItemId → EfimProj → Task Unit)
    (itemset : List ItemId) : Option (List ProjTx) → Task Unit
  | none | some [] => return ()
  | some (first :: rest) =>
      let maps := bounds env.db (first :: rest)
      visitAll env descend itemset (first :: rest) maps.1
        (validExtensions env itemset first maps.2)

def mineEfim (env : Env) : ℕ → List ItemId → EfimProj → Task Unit
  | 0, _, _ => throw .stuck
  | fuel + 1, itemset, proj => do
      let projSlice ← resolve proj
      mineSlice env (mineEfim env fuel) itemset projSlice

def itemTask (env : Env) (fuel : ℕ) (item : ItemId) : Task Unit :=
  let (proj, itemUtil) := initialProj env.db item
  explore env (mineEfim env fuel) [item] proj itemUtil

/-- What a run computes before the mining phase. -/
def prepared (source : DataSource) (ctx : MiningContext) :
    Except Fault (TwuFilterResult × List OriginalTx) := do
  let txs := okOnly (← readDb source)
  let r := TwuFilter.computeWrapping ctx.minUtility txs
  return (r, (filteredDb r txs).map (loadTx r))

/-- `Efim::run`. -/
def run (order : HashOrder) (source : DataSource) (ctx : MiningContext) :
    Except Fault (ℕ × World) := do
  let (r, db) ← prepared source ctx
  let tasks := primaryItems order r
  let w ← executeTasks ctx
    { ctx.world with guard := ctx.world.guard.forceAlloc (dbSizeBytes db) }
    (tasks.map (itemTask ⟨db, ctx.minUtility, order⟩ (tasks.length + 1)))
  return (w.huisFound, { w with guard := w.guard.free (dbSizeBytes db) })

end Efim.Wrapping

end AirHuim
