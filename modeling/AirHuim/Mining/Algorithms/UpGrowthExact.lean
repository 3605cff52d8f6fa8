import AirHuim.Mining.Algorithms.UpGrowthSearch

/-!
# UP-Growth is exact

Its preparation keeps every path that has an item left, so the conditional trees
are full; the tree of an item's paths, in its own order, is the tree of the itemset
with that item. With the search over such trees, the output is exact.
-/

namespace AirHuim

open Library Basket NodeArena

namespace UpGrowth

/-- What `mine_up_tree` makes of the paths of an item. -/
def prepareBy : PrepareBy := fun minUtil twu cpb =>
  .ok (validItems minUtil twu, localPaths minUtil twu cpb)

def prepare : Prepare := PrepareBy.prepare prepareBy

theorem mineUpTree_eq (minUtil : Utility) (fuel : ℕ) :
    mineUpTree minUtil fuel = mineUpTreeWith prepare minUtil fuel := by
  induction fuel with
  | zero => rfl
  | succ fuel ih =>
    funext tree pre item found
    unfold mineUpTree mineUpTreeWith
    rw [ih]
    rfl

theorem phases_eq (txs : List RawTransaction) (minUtil : Utility) (guard : MemoryGuard) :
    phases txs minUtil guard = phasesWith prepare txs minUtil guard := by
  unfold phases phasesWith
  simp only [mineUpTree_eq]

theorem run_eq (order : SetOrder) (source : DataSource) (ctx : MiningContext) :
    run order source ctx = runWith prepare order source ctx := by
  unfold run runWith
  simp only [phases_eq]

/-- The paths of a conditional tree have its items only. -/
theorem mem_localPaths {m : Utility} {twu : Table ItemId Utility}
    {cpb : List (List ItemId × Utility)} {path : List (ItemId × Utility)} {e : ItemId × Utility}
    (hpath : path ∈ localPaths m twu cpb) (he : e ∈ path) :
    e.1 ∈ (validItems m twu).map Prod.fst := by
  obtain ⟨e', -, rfl⟩ := List.mem_map.mp (List.mem_of_mem_filter hpath)
  obtain ⟨y, hy, rfl⟩ := List.mem_map.mp he
  exact of_decide_eq_true (List.mem_filter.mp ((mem_sortByKey _).mp hy)).2

/-- Paths without items add nothing. -/
theorem flatMap_localPaths (m : Utility) (twu : Table ItemId Utility)
    (entries : List (List ItemId × Utility)) :
    (localPaths m twu (condPaths entries)).flatMap (pathAdds []) =
      entries.flatMap fun e => pathAdds [] ((sortByKey (byTwu twu) (e.1.filter fun i =>
        i ∈ (validItems m twu).map Prod.fst)).map fun y => (y, e.2)) := by
  rw [localPaths, flatMap_filter_eq, List.flatMap_map, condPaths, flatMap_filter_eq]
  · intro e _ he
    have he : e.1 = [] := by simpa using he
    rw [he]
    rfl
  · intro path _ hpath
    have hpath : path = [] := by simpa using hpath
    rw [hpath]
    rfl

theorem prepares (m : Utility) : Prepares True m prepare := by
  intro entries _
  refine ⟨_, rfl, rfl, ?_, fun _ => true, by simp, by simp, ?_⟩
  · exact fun path hpath e he => mem_localPaths hpath he
  · rw [List.filter_true]
    exact flatMap_localPaths m (localTwu (condPaths entries)) entries

section Run

variable {db : List SpmfRow} (ctx : MiningContext) (order : SetOrder)

/-- On a database that has room a run returns. -/
theorem returns_of_room (hwf : ∀ row ∈ db, row.WellFormed)
    (hpool : ∀ n, ctx.world.pool.fails n = false) (hroom : ¬ OutOfRoom db) :
    ∃ result, run order (db.map .ok) ctx = .ok result := by
  rw [run_eq]
  exact runWith_returns ctx order (Or.inl trivial) (prepares ctx.minUtility) hwf hpool hroom

/-- UP-Growth is exact, whatever the order of its hash set: a run ends with an
overflow of its counters, or with the exact output and its length. -/
theorem exact_with_count (hwf : ∀ row ∈ db, row.WellFormed)
    (hpool : ∀ n, ctx.world.pool.fails n = false) :
    (∀ e, run order (db.map .ok) ctx = .error e → e = .overflow) ∧
      ∀ count w, run order (db.map .ok) ctx = .ok (count, w) →
        ExactOutput db ctx.minUtility w.lines ∧ count = w.lines.length := by
  rw [run_eq]
  obtain ⟨herror, hok⟩ :=
    runWith_spec ctx order (Or.inl trivial) (prepares ctx.minUtility) hwf hpool
  exact ⟨fun e he => (herror e he).1, hok⟩

theorem exact_with_count_tinyDb :
    ∃ result, run .stored (tinyDb.map .ok) (createCtx 45 none 30) = .ok result ∧
      ExactOutput tinyDb 45 result.2.lines ∧ result.1 = result.2.lines.length := by
  have hwf : ∀ row ∈ tinyDb, row.WellFormed := by decide
  obtain ⟨result, hrun⟩ : ∃ result,
      run .stored (tinyDb.map .ok) (createCtx 45 none 30) = .ok result :=
    exists_of_isOk (by decide +kernel)
  have hexact := (exact_with_count (createCtx 45 none 30) .stored hwf fun _ => rfl).2
  exact ⟨result, hrun, hexact result.1 result.2 hrun⟩

end Run

end UpGrowth

end AirHuim
