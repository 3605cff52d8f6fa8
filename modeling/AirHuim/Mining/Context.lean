import AirHuim.Library.SharedProgram
import AirHuim.Library.TopK
import AirHuim.Preprocessing.TwuFilter

/-!
# What the tasks of a run share

The worker tasks of a miner share the buffer pool, the memory guard, the output
writer, the progress counter and, in top-k mode, the heap and its threshold.
Every operation on them is atomic. The pool is taken at the level at which the
miners use it, as a map from page ids to payloads in which pages are created
under fresh ids; any of its operations may fail.
-/

namespace AirHuim

open Library

/-- The pool and the store below it, as a map. Operation number `n` fails if
`fails n`. -/
structure PagePool where
  pages : PageId → Option Bytes
  nextPageId : PageId
  clock : ℕ
  fails : ℕ → Bool

namespace PagePool

/-- `store.next_page_id()`, then `pool.insert_page(id, bytes)`. -/
def newPage (p : PagePool) (bytes : Bytes) : Except Fault PageId × PagePool :=
  if p.fails p.clock then
    (.error .io, { p with nextPageId := p.nextPageId + 1, clock := p.clock + 1 })
  else
    (.ok p.nextPageId,
      { p with
        pages := Function.update p.pages p.nextPageId (some bytes)
        nextPageId := p.nextPageId + 1
        clock := p.clock + 1 })

/-- `pool.pin(id)`, for the payload the guard shows. -/
def pin (p : PagePool) (id : PageId) : Except Fault Bytes × PagePool :=
  let p' := { p with clock := p.clock + 1 }
  if p.fails p.clock then (.error .io, p')
  else match p.pages id with
    | some bytes => (.ok bytes, p')
    | none => (.error .io, p')

end PagePool

/-- The ledger, with the test that decides a reservation: it sees the number of
the call, the bytes in use and the bytes asked for. -/
structure MemoryGuard where
  used : ℕ
  calls : ℕ
  admits : ℕ → ℕ → ℕ → Bool

namespace MemoryGuard

/-- A guard over a budget: a reservation is admitted if it stays within it. -/
def new (budget : ℕ) : MemoryGuard := ⟨0, 0, fun _ used bytes => decide (used + bytes ≤ budget)⟩

def tryAlloc (g : MemoryGuard) (bytes : ℕ) : Bool × MemoryGuard :=
  if g.admits g.calls g.used bytes then
    (true, { g with used := g.used + bytes, calls := g.calls + 1 })
  else (false, { g with calls := g.calls + 1 })

def forceAlloc (g : MemoryGuard) (bytes : ℕ) : MemoryGuard := { g with used := g.used + bytes }

def free (g : MemoryGuard) (bytes : ℕ) : MemoryGuard := { g with used := g.used - min bytes g.used }

/-- A guard over a budget of which `used` bytes are reserved. -/
structure Reserved (g : MemoryGuard) (budget used : ℕ) : Prop where
  admits : g.admits = fun _ used bytes => decide (used + bytes ≤ budget)
  used_eq : g.used = used
  le : used ≤ budget

theorem reserved_new (budget : ℕ) : (new budget).Reserved budget 0 := ⟨rfl, rfl, Nat.zero_le _⟩

theorem Reserved.tryAlloc {g : MemoryGuard} {budget used : ℕ} (h : g.Reserved budget used)
    (bytes : ℕ) :
    (g.tryAlloc bytes).1 = decide (used + bytes ≤ budget) ∧
      (g.tryAlloc bytes).2.Reserved budget
        (if used + bytes ≤ budget then used + bytes else used) := by
  have hanswer : g.admits g.calls g.used bytes = decide (used + bytes ≤ budget) := by
    rw [h.admits, h.used_eq]
  unfold MemoryGuard.tryAlloc
  rw [hanswer]
  by_cases hfit : used + bytes ≤ budget
  · simp only [hfit, decide_true, if_true]
    exact ⟨trivial, h.admits, congrArg (· + bytes) h.used_eq, hfit⟩
  · simp only [hfit, decide_false, if_false, Bool.false_eq_true]
    exact ⟨trivial, h.admits, h.used_eq, h.le⟩

end MemoryGuard

/-- The heap of the best patterns, worst first, and the pruning threshold. -/
structure TkoState where
  heap : List (Utility × List ItemId)
  threshold : Utility
  k : ℕ

/-- The order of the heap's elements: by utility, ties by itemset. -/
def heapKey (e : Utility × List ItemId) : Utility ×ₗ List ItemId := toLex e

namespace TkoState

def empty (k : ℕ) : TkoState := ⟨[], 0, k⟩

/-- `TkoState::new`. `BinaryHeap::with_capacity` panics where `k + 1` elements, of 32
bytes each, are more than `isize::MAX` bytes. -/
def new (k : ℕ) : Except Fault TkoState :=
  if 32 * (k + 1) < 2 ^ 63 then .ok (.empty k) else .error .panic

/-- `update`, under the heap's lock: push, drop the worst beyond `k`, and raise
the threshold to the worst kept once there are `k`. -/
def update (s : TkoState) (utility : Utility) (itemset : List ItemId) : Utility × TkoState :=
  let heap := keepBest heapKey s.k s.heap (utility, itemset)
  let threshold :=
    if heap.length = s.k then
      match heap with
      | (least, _) :: _ => if s.threshold < least then least else s.threshold
      | [] => s.threshold
    else s.threshold
  (threshold, { s with heap, threshold })

end TkoState

/-- Everything the tasks share. `lines` is the output file, `huisFound` the
progress counter. -/
structure World where
  pool : PagePool
  guard : MemoryGuard
  lines : List Line
  huisFound : ℕ
  tko : TkoState

inductive MinerOp
  | newPage (bytes : Bytes)
  | pin (id : PageId)
  | tryAlloc (bytes : ℕ)
  | free (bytes : ℕ)
  | writeHui (itemset : List ItemId) (utility : Utility)
  | foundHui
  | getThreshold
  | update (utility : Utility) (itemset : List ItemId)
  deriving DecidableEq

abbrev minerInterface : Interface where
  Op := MinerOp
  Res
    | .newPage _ => Except Fault PageId
    | .pin _ => Except Fault Bytes
    | .tryAlloc _ => Bool
    | .free _ => Unit
    | .writeHui _ _ => Unit
    | .foundHui => Unit
    | .getThreshold => Utility
    | .update _ _ => Utility

abbrev world : SharedObject minerInterface where
  State := World
  exec
    | .newPage bytes, w => ((w.pool.newPage bytes).1, { w with pool := (w.pool.newPage bytes).2 })
    | .pin id, w => ((w.pool.pin id).1, { w with pool := (w.pool.pin id).2 })
    | .tryAlloc n, w => ((w.guard.tryAlloc n).1, { w with guard := (w.guard.tryAlloc n).2 })
    | .free n, w => ((), { w with guard := w.guard.free n })
    | .writeHui itemset u, w => ((), { w with lines := w.lines ++ [(itemset, u)] })
    | .foundHui, w => ((), { w with huisFound := w.huisFound + 1 })
    | .getThreshold, w => (w.tko.threshold, w)
    | .update u itemset, w =>
        ((w.tko.update u itemset).1, { w with tko := (w.tko.update u itemset).2 })

/-- A task, or a part of one: it may end with an error. -/
abbrev Task (α : Type) := ExceptT Fault (Prog minerInterface) α

namespace Task

def newPage (bytes : Bytes) : Task PageId :=
  ExceptT.mk (Prog.perform (I := minerInterface) (.newPage bytes))

def pin (id : PageId) : Task Bytes := ExceptT.mk (Prog.perform (I := minerInterface) (.pin id))

def tryAlloc (bytes : ℕ) : Task Bool :=
  ExceptT.lift (Prog.perform (I := minerInterface) (.tryAlloc bytes))

def free (bytes : ℕ) : Task Unit :=
  ExceptT.lift (Prog.perform (I := minerInterface) (.free bytes))

/-- `if let Ok(a) = t`, with a value for the other case. -/
def okOr {α : Type} (t : Task α) (default : α) : Task α :=
  ExceptT.mk (Prog.bind t.run fun r => match r with
    | .ok a => .pure (.ok a)
    | .error _ => .pure (.ok default))

def writeHui (itemset : List ItemId) (utility : Utility) : Task Unit :=
  ExceptT.lift (Prog.perform (I := minerInterface) (.writeHui itemset utility))

def foundHui : Task Unit := ExceptT.lift (Prog.perform (I := minerInterface) .foundHui)

def getThreshold : Task Utility :=
  ExceptT.lift (Prog.perform (I := minerInterface) .getThreshold)

def update (utility : Utility) (itemset : List ItemId) : Task Utility :=
  ExceptT.lift (Prog.perform (I := minerInterface) (.update utility itemset))

end Task

/-- `MiningContext`. The schedule is the order in which the worker threads get
to move; every order is the one of some schedule. -/
structure MiningContext where
  minUtility : Utility
  k : Option ℕ
  threads : ℕ
  schedule : List ℕ
  world : World

/-- The fault of the first task that ends in one. -/
def firstFault (results : List (Except Fault Unit)) : Option Fault :=
  results.findSome? fun r => match r with
    | .error e => some e
    | .ok _ => none

/-- `execute_tasks`: the output file is created afresh, the tasks run in order
on one thread or interleaved on several, and a panic of one is a panic of all. -/
def executeTasks (ctx : MiningContext) (w : World) (tasks : List (Task Unit)) :
    Except Fault World :=
  let schedule := if 1 < ctx.threads then ctx.schedule else []
  let end_ := Prog.interleave world schedule (tasks.map ExceptT.run) { w with lines := [] }
  match firstFault end_.1 with
  | some e => .error e
  | none => .ok end_.2

/-! ## The set-up of the integration tests -/

def tinyDb : List SpmfRow := [
  { items := [⟨1, 20⟩, ⟨2, 20⟩], transactionUtility := 40 },
  { items := [⟨1, 30⟩, ⟨3, 30⟩], transactionUtility := 60 },
  { items := [⟨2, 25⟩, ⟨3, 25⟩], transactionUtility := 50 }]

/-- A fresh store that never fails, an empty pool and a guard over `budget`. -/
def World.fresh (budget : ℕ) : World :=
  ⟨⟨fun _ => none, 1, 0, fun _ => false⟩, .new budget, [], 0, .empty 0⟩

def createCtx (minUtility : Utility) (k : Option ℕ) (budget : ℕ) : MiningContext :=
  ⟨minUtility, k, 1, [], .fresh budget⟩

/-- A run that is seen to return has a result. -/
theorem exists_ok_of_bind {ε α β : Type} {x : Except ε α} {f : α → Except ε β} {b : β}
    (h : x >>= f = .ok b) : ∃ a, x = .ok a ∧ f a = .ok b := by
  cases x with
  | error e => cases h
  | ok a => exact ⟨a, rfl, h⟩

theorem exists_of_isOk {ε α : Type} {r : Except ε α} (h : r.isOk = true) : ∃ a, r = .ok a := by
  cases r with
  | error e => cases h
  | ok a => exact ⟨a, rfl⟩

end AirHuim
