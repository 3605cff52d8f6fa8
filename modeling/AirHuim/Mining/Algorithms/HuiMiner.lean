import AirHuim.Mining.Algorithms.FhmChecked

/-!
# HUI-Miner

The utility-list miner without the pair structure: every extension is joined and
kept. Its output is exact, so it agrees with the output of FHM as soon as the
pair structure of the latter is complete.
-/

namespace AirHuim

open Library Basket

namespace HuiMiner

/-- HUI-Miner reports as FHM does and prunes no pair. -/
def miner (minUtility : Utility) : UlMiner where
  current := return minUtility
  report itemset utility thresh := do
    Task.writeAndCount itemset utility
    return thresh
  prunePair _ _ _ := false

def pass1 (ctx : MiningContext) (txs : List RawTransaction) : TwuFilterResult :=
  TwuFilter.compute ctx.minUtility txs

/-- The entries of one transaction, each appended to the list of its item. -/
def addRow (perItem : Table ItemId (List ULEntry)) (r : FilteredTransaction) :
    Table ItemId (List ULEntry) :=
  let totalUtility := (r.items.map ItemEntry.utility).sum
  (Pass2.rowEntries r.tid totalUtility r.items).foldl
    (fun perItem e => Table.modify perItem e.1 [] (· ++ [e.2])) perItem

def pass2 (rows : List FilteredTransaction) : Table ItemId (List ULEntry) := rows.foldl addRow ∅

/-- The lists of all items, by ascending item. -/
def itemLists (perItem : Table ItemId (List ULEntry)) : List ItemList :=
  (sortByKey id perItem.keys).map fun item => Pass2.header item ((perItem.lookup item).getD [])

abbrev rowsOf (ctx : MiningContext) (txs : List RawTransaction) : List FilteredTransaction :=
  filteredDb (pass1 ctx txs) txs

/-- The lists once more, by ascending weight: the sort is stable and has no tie-break. -/
def filtered (ctx : MiningContext) (txs : List RawTransaction) : List ItemList :=
  sortByKey (fun e : ItemList => ((pass1 ctx txs).twu.lookup e.1).getD 0)
    (itemLists (pass2 (rowsOf ctx txs)))

/-- `HuiMiner::run`: the count it returns and the world it leaves. -/
def run (source : DataSource) (ctx : MiningContext) : Except Fault (ℕ × World) := do
  let txs := okOnly (← readDb source)
  let w ← executeTasks ctx ctx.world ((miner ctx.minUtility).itemTasks (filtered ctx txs))
  return (w.huisFound, w)

def addRowChecked (perItem : Table ItemId (List ULEntry)) (r : FilteredTransaction) :
    Except Fault (Table ItemId (List ULEntry)) := do
  let totalUtility ← sumChecked 0 (r.items.map ItemEntry.utility)
  let entries ← Pass2.rowEntriesChecked r.tid totalUtility r.items
  return entries.foldl (fun perItem e => Table.modify perItem e.1 [] (· ++ [e.2])) perItem

def pass2Checked (rows : List FilteredTransaction) : Except Fault (Table ItemId (List ULEntry)) :=
  rows.foldlM addRowChecked ∅

def itemListsChecked (perItem : Table ItemId (List ULEntry)) : Except Fault (List ItemList) :=
  (sortByKey id perItem.keys).mapM fun item =>
    Pass2.headerChecked item ((perItem.lookup item).getD [])

/-- `run` up to its tasks, with overflow checks. -/
def passesChecked (minUtility : Utility) (txs : List RawTransaction) :
    Except Fault (List ItemList) := do
  let pass1 ← TwuFilter.computeChecked minUtility txs
  let perItem ← pass2Checked (filteredDb pass1 txs)
  let itemLists ← itemListsChecked perItem
  return sortByKey (fun e : ItemList => (pass1.twu.lookup e.1).getD 0) itemLists

/-- `run` on the transactions that have been read. -/
def mineChecked (ctx : MiningContext) (txs : List RawTransaction) : Except Fault (ℕ × World) := do
  let filtered ← passesChecked ctx.minUtility txs
  let w ← executeTasks ctx ctx.world ((miner ctx.minUtility).itemTasksChecked filtered)
  return (w.huisFound, w)

/-- `HuiMiner::run` in a build with overflow checks. -/
def runChecked (source : DataSource) (ctx : MiningContext) : Except Fault (ℕ × World) := do
  mineChecked ctx (okOnly (← readDb source))

theorem miner_lawful (minUtility : Utility) (E : Fault → Prop) :
    (miner minUtility).Lawful E (fun _ => minUtility) writeOps where
  mono _ _ _ := le_rfl
  prune _ _ _ _ _ h := h
  current _ := Task.Spec.pure fun _ _ => ⟨rfl, le_rfl, le_rfl⟩
  report w₀ w t X u hlo hhi := by
    apply Task.Spec.bind (Task.writeAndCount_spec X u)
    rintro _ v _ - rfl
    exact Task.Spec.pure fun _ _ => ⟨List.append_nil _, hlo, hhi⟩

/-! ## The lists of the second pass -/

/-- The map is the one that FHM builds beside its pair structure. -/
theorem pass2_eq (guard : MemoryGuard) (rows : List FilteredTransaction) :
    pass2 rows = (Pass2.run guard rows).perItem := by
  have hfold : ∀ s : Pass2, rows.foldl addRow s.perItem = (rows.foldl Pass2.addRow s).perItem := by
    induction rows with
    | nil => exact fun s => rfl
    | cons r rows ih => exact fun s => ih (s.addRow r)
  exact hfold (Pass2.new guard)

theorem itemLists_pass2 (guard : MemoryGuard) (rows : List FilteredTransaction) :
    itemLists (pass2 rows) = (Pass2.run guard rows).itemLists := by
  rw [pass2_eq guard]
  rfl

theorem yields_pass2Checked (rows : List FilteredTransaction) :
    Yields (pass2Checked rows) (pass2 rows) := by
  refine Yields.foldlM (fun perItem r => ?_) ∅ rows
  have hsum := yields_sumChecked 0 (r.items.map ItemEntry.utility)
  rw [zero_add] at hsum
  exact hsum.bind ((Pass2.yields_rowEntriesChecked _ _ _).bind (Yields.ok _))

theorem pass2Checked_eq {rank : ItemId → Utility ×ₗ ItemId} {rows : List FilteredTransaction}
    (h : FilteredRows rank rows) : pass2Checked rows = .ok (pass2 rows) := by
  refine Pass2.foldlM_eq_ok (fun perItem r hr => ?_) ∅
  obtain ⟨hsum, hentries⟩ := Pass2.entriesChecked_eq h hr
  unfold addRowChecked
  rw [hsum]
  simp only [bind, Except.bind, hentries]
  rfl

theorem itemListsChecked_pass2 (guard : MemoryGuard) (rows : List FilteredTransaction) :
    itemListsChecked (pass2 rows) = (Pass2.run guard rows).itemListsChecked := by
  rw [pass2_eq guard]
  rfl

section

variable {db : List SpmfRow} (ctx : MiningContext)

/-- A stable sort by weight of lists that are in the order of their items. -/
theorem filtered_sorted (txs : List RawTransaction) :
    ((filtered ctx txs).map Prod.fst).Pairwise fun y z =>
      (pass1 ctx txs).rank y < (pass1 ctx txs).rank z := by
  rw [filtered, itemLists_pass2 ctx.world.guard]
  exact Pass2.pairwise_rank_sortByKey (pass1 ctx txs) (Pass2.itemLists_sorted _ _)

theorem mem_filtered (hwf : ∀ row ∈ db, row.WellFormed) (hlen : db.length < 2 ^ 32) {y : ItemId}
    (hy : Occurs ((rowsOf ctx (numbered 0 db)).map FilteredTransaction.basket) {y}) :
    y ∈ (filtered ctx (numbered 0 db)).map Prod.fst := by
  have hrows := filteredRows_filteredDb hwf hlen (pass1 ctx (numbered 0 db))
  rw [filtered, itemLists_pass2 ctx.world.guard]
  exact Pass2.mem_map_fst_sorted hrows ctx.world.guard _ hy

theorem run_map_ok (db : List SpmfRow) (hlen : db.length < 2 ^ 32) :
    run (db.map .ok) ctx = (executeTasks ctx ctx.world
      ((miner ctx.minUtility).itemTasks (filtered ctx (numbered 0 db)))).map
        fun w => (w.huisFound, w) := by
  simp only [run, readDb_map_ok, if_pos hlen]
  change Except.bind (Except.ok _) _ = _
  simp only [Except.bind, okOnly_map_ok]
  cases executeTasks ctx _ _ <;> rfl

theorem forall₂_filtered (hwf : ∀ row ∈ db, row.WellFormed) (hlen : db.length < 2 ^ 32) :
    List.Forall₂ (UlMiner.IsItemList (pass1 ctx (numbered 0 db)).rank (rowsOf ctx (numbered 0 db)))
      ((filtered ctx (numbered 0 db)).map Prod.fst) (filtered ctx (numbered 0 db)) := by
  refine Pass2.forall₂_isItemList (filteredRows_filteredDb hwf hlen (pass1 ctx (numbered 0 db)))
    ctx.world.guard fun e he => ?_
  rw [← itemLists_pass2]
  exact (mem_sortByKey _).mp he

theorem run_spec (hwf : ∀ row ∈ db, row.WellFormed) {E : Fault → Prop}
    (hE : Task.Allows E ctx.world) (hlen : db.length < 2 ^ 32) :
    (∃ e, E e ∧ run (db.map .ok) ctx = .error e) ∨
      ∃ w, run (db.map .ok) ctx = .ok (w.huisFound, w) ∧
        w.huisFound = ctx.world.huisFound + w.lines.length ∧
        ExactOutput db ctx.minUtility w.lines := by
  have hrows := filteredRows_filteredDb hwf hlen (pass1 ctx (numbered 0 db))
  have hitems := forall₂_filtered ctx hwf hlen
  rw [run_map_ok ctx db hlen]
  rcases UlMiner.executeTasks_writing hrows (miner_lawful ctx.minUtility E) ctx hE hitems
      (filtered_sorted ctx _) with ⟨e, he, hrun⟩ | ⟨w, lines, hrun, hperm, hcount, hanswers⟩
  · exact Or.inl ⟨e, he, by rw [hrun]; rfl⟩
  · right
    have hexact : ExactOutput db ctx.minUtility lines :=
      UlMiner.exactOutput_of_answers hwf rfl (fun y => mem_filtered ctx hwf hlen)
        (fun _ _ _ _ _ _ _ _ => rfl) hanswers
    exact ⟨w, by rw [hrun]; rfl, by rw [hcount, hperm.length_eq], hexact.perm hperm.symm⟩

theorem agrees_passesChecked (hwf : ∀ row ∈ db, row.WellFormed) :
    Agrees (LightDb db) (passesChecked ctx.minUtility (numbered 0 db))
      (.ok (filtered ctx (numbered 0 db))) := by
  have hlists := LightDb.agrees_itemListsChecked hwf (pass1 ctx (numbered 0 db)) ctx.world.guard
  rw [← itemLists_pass2, ← itemListsChecked_pass2] at hlists
  refine (LightDb.agrees_computeChecked hwf ctx.minUtility).bind ?_
  refine ((yields_pass2Checked _).under fun h => pass2Checked_eq
    (filteredRows_filteredDb hwf h.length_lt (pass1 ctx (numbered 0 db)))).bind ?_
  exact hlists.bind (Agrees.refl _)

/-- The checked tasks of a run: their output is exact, or they fault. -/
theorem executeTasks_checked_spec (hwf : ∀ row ∈ db, row.WellFormed) {E : Fault → Prop}
    (hE : Task.Allows E ctx.world) (hlen : db.length < 2 ^ 32) :
    (∃ e, (E e ∨ e = .overflow ∧ ¬ LightDb db) ∧ executeTasks ctx ctx.world
        ((miner ctx.minUtility).itemTasksChecked (filtered ctx (numbered 0 db))) = .error e) ∨
      ∃ w, executeTasks ctx ctx.world
          ((miner ctx.minUtility).itemTasksChecked (filtered ctx (numbered 0 db))) = .ok w ∧
        w.huisFound = ctx.world.huisFound + w.lines.length ∧
        ExactOutput db ctx.minUtility w.lines := by
  have hrows := filteredRows_filteredDb hwf hlen (pass1 ctx (numbered 0 db))
  rcases UlMiner.executeTasks_itemTasksChecked (S := LightDb db) hrows
      (fun h => ⟨h.totalOf_lt hwf _, h.joinsFit hwf _⟩) (miner_lawful ctx.minUtility E) ctx hE
      (forall₂_filtered ctx hwf hlen) (filtered_sorted ctx _) with hfault | ⟨w, hrun, hsame⟩
  · exact Or.inl hfault
  · have hspec := run_spec ctx hwf hE hlen
    rw [run_map_ok ctx db hlen, hsame] at hspec
    rcases hspec with ⟨e, -, herror⟩ | ⟨w', hok, hexact⟩
    · cases herror
    · obtain rfl : w = w' := congrArg Prod.snd (Except.ok.inj hok)
      exact Or.inr ⟨w, hrun, hexact⟩

theorem runChecked_map_ok (db : List SpmfRow) :
    runChecked (db.map .ok) ctx =
      if db.length < 2 ^ 32 then mineChecked ctx (numbered 0 db) else .error .overflow := by
  unfold runChecked
  rw [readDb_map_ok]
  split
  · exact congrArg (mineChecked ctx) (okOnly_map_ok _)
  · rfl

/-- Where no storage fails, a checked run is the run, unless a sum overflows. -/
theorem agrees_runChecked (hwf : ∀ row ∈ db, row.WellFormed)
    (hpool : ∀ n, ctx.world.pool.fails n = false) :
    Agrees (LightDb db) (runChecked (db.map .ok) ctx) (run (db.map .ok) ctx) := by
  rw [runChecked_map_ok]
  split
  · rename_i hlen
    have hrows := filteredRows_filteredDb hwf hlen (pass1 ctx (numbered 0 db))
    rw [run_map_ok ctx db hlen]
    refine (agrees_passesChecked ctx hwf).bind ?_
    refine (Fhm.bind_huisFound _).symm ▸ (UlMiner.agrees_itemTasksChecked hrows
      (fun h => ⟨h.totalOf_lt hwf _, h.joinsFit hwf _⟩) (miner_lawful _ _) ctx hpool
      (forall₂_filtered ctx hwf hlen) (filtered_sorted ctx _)).map _
  · rename_i hlen
    exact Or.inr ⟨rfl, fun h => hlen h.length_lt⟩

/-- Where no storage fails, a run returns, or a sum or the counter of rows overflows. -/
theorem runChecked_returns (hwf : ∀ row ∈ db, row.WellFormed)
    (hpool : ∀ n, ctx.world.pool.fails n = false) :
    (∃ result, runChecked (db.map .ok) ctx = .ok result) ∨
      runChecked (db.map .ok) ctx = .error .overflow ∧ ¬ LightDb db := by
  refine (agrees_runChecked ctx hwf hpool).returns ?_
  by_cases hlen : db.length < 2 ^ 32
  · have hE : Task.Allows (fun _ => False) ctx.world := fun n hn => by simp [hpool n] at hn
    rcases run_spec ctx hwf hE hlen with ⟨e, he, -⟩ | ⟨w, hrun, -⟩
    · exact he.elim
    · exact Or.inl ⟨_, hrun⟩
  · right
    rw [run, readDb_map_ok, if_neg hlen]
    exact ⟨rfl, fun h => hlen h.length_lt⟩

end

end HuiMiner

end AirHuim
