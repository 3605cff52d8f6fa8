import AirHuim.Mining.Algorithms.FhmChecked

/-!
# TKO

The top-k miner; TKU and REPT are the same code under other names. With a `k`
it prunes with a threshold that the best `k` itemsets found so far raise, and
writes them at the end. Without one it prunes with the minimum utility and
writes as it goes, like FHM.

Two results: with a `k` the output is a correct top-k under every schedule, and
without one it is exact if and only if no item of a high-utility itemset is
dropped by the bound that is put on the lists of single items.
-/

namespace AirHuim

open Library Basket

/-! ## The heap -/

namespace TkoState

/-- The state after the elements `seen` have been offered. -/
structure After (k : ℕ) (seen : List (Utility × List ItemId)) (s : TkoState) : Prop where
  size : s.k = k
  best : Best heapKey k seen s.heap
  low : s.heap.length < k → s.threshold = 0
  bound : ∀ e ∈ s.heap, s.threshold ≤ max 0 e.1

variable {k : ℕ} {seen : List (Utility × List ItemId)} {s : TkoState}

theorem After.empty (k : ℕ) : After k [] (.empty k) := by
  refine ⟨rfl, Best.nil, fun _ => rfl, ?_⟩
  simp [TkoState.empty]

theorem fst_le_of_heapKey_le {a b : Utility × List ItemId} (h : heapKey a ≤ heapKey b) :
    a.1 ≤ b.1 := by
  rcases Prod.Lex.le_iff.mp h with hlt | ⟨heq, -⟩
  · exact hlt.le
  · exact heq.le

theorem After.update (h : After k seen s) (u : Utility) (X : List ItemId) :
    After k (seen ++ [(u, X)]) (s.update u X).2 := by
  obtain ⟨rfl, hbest, hlow, hbound⟩ := h
  have hbest' := hbest.keepBest (u, X)
  -- the threshold so far is below every element now kept
  have hold : ∀ e ∈ keepBest heapKey s.k s.heap (u, X), s.threshold ≤ max 0 e.1 := by
    intro e he
    by_cases hfull : s.heap.length < s.k
    · rw [hlow hfull]
      exact le_max_left 0 e.1
    · have hlen : s.heap.length = s.k := by
        have := hbest.length
        omega
      obtain ⟨c, hc, hce⟩ := exists_le_of_mem_keepBest hbest.sorted hlen he
      exact (hbound c hc).trans (max_le_max_left 0 (fst_le_of_heapKey_le hce))
  refine ⟨rfl, hbest', ?_, ?_⟩
  · intro hlen
    have hshort : s.heap.length < s.k := by
      have h₁ := hbest.length
      have h₂ := hbest'.length
      simp only [TkoState.update] at hlen
      rw [List.length_append] at h₂
      omega
    simp only [TkoState.update] at hlen ⊢
    rw [if_neg hlen.ne, hlow hshort]
  · intro e he
    simp only [TkoState.update] at he ⊢
    split_ifs with hlen
    · cases hheap : keepBest heapKey s.k s.heap (u, X) with
      | nil => exact hold e he
      | cons least heap =>
        have hleast : least.1 ≤ e.1 := by
          have hsorted := hbest'.sorted
          rw [hheap] at hsorted he
          rcases List.mem_cons.mp he with rfl | he
          · exact le_rfl
          · exact fst_le_of_heapKey_le ((List.pairwise_cons.mp hsorted).1 e he)
        dsimp only
        split_ifs
        · exact hleast.trans (le_max_right 0 e.1)
        · exact hold e he
    · exact hold e he

theorem After.foldl (h : After k seen s) (es : List (Utility × List ItemId)) :
    After k (seen ++ es) (es.foldl (fun s e => (s.update e.1 e.2).2) s) := by
  induction es generalizing seen s with
  | nil => simpa using h
  | cons e es ih =>
    have := ih (h.update e.1 e.2)
    rwa [List.append_assoc, List.singleton_append] at this

end TkoState

/-! ## The miner -/

namespace Tko

def miner (eucs : Eucs) (minUtility : Utility) : Option ℕ → UlMiner
  | none => Fhm.miner eucs minUtility
  | some _ =>
    { current := Task.getThreshold
      report := fun itemset utility _ => Task.update utility itemset
      prunePair := eucs.canPrune }

def initialThreshold (ctx : MiningContext) : Utility := if ctx.k.isSome then 0 else ctx.minUtility

def pass1 (ctx : MiningContext) (txs : List RawTransaction) : TwuFilterResult :=
  TwuFilter.compute (initialThreshold ctx) txs

def pass2 (ctx : MiningContext) (txs : List RawTransaction) : Pass2 :=
  Pass2.run ctx.world.guard (filteredDb (pass1 ctx txs) txs)

/-- The lists of the items that pass the bound, sorted by weight; the sort is
stable and the lists come by ascending item. -/
def filtered (ctx : MiningContext) (txs : List RawTransaction) : List ItemList :=
  sortByKey (fun e => ((pass1 ctx txs).twu.lookup e.1).getD 0)
    ((pass2 ctx txs).itemLists.filter fun e =>
      !decide (e.2.1.sumIutils + e.2.1.sumRutils < initialThreshold ctx))

/-- The end of a top-k run: the heap is emptied into a file of its own. -/
def writeHeap (w : World) : World :=
  let finalResults := (w.tko.heap.map fun e => (e.2, e.1)).reverse
  { w with
    lines := finalResults
    huisFound := finalResults.length
    tko := { w.tko with heap := [] } }

/-- What `run` returns when its tasks have ended. -/
def finish (ctx : MiningContext) (w : World) : ℕ × World :=
  let w := if ctx.k.isSome then writeHeap w else w
  (w.huisFound, w)

def newState (ctx : MiningContext) : Except Fault TkoState :=
  match ctx.k with
  | some k => TkoState.new k
  | none => .ok ctx.world.tko

/-- `Tko::run`: the count it returns and the world it leaves. -/
def run (source : DataSource) (ctx : MiningContext) : Except Fault (ℕ × World) := do
  let tko ← newState ctx
  let txs := okOnly (← readDb source)
  let s := pass2 ctx txs
  let w ← executeTasks ctx { ctx.world with guard := s.guard, tko }
    ((miner s.eucs ctx.minUtility ctx.k).itemTasks (filtered ctx txs))
  return finish ctx w

/-- The lists that pass the bound, whose sums are checked. -/
def passBoundChecked (threshold : Utility) : List ItemList → Except Fault (List ItemList)
  | [] => .ok []
  | e :: lists => do
      let bound ← checkI64 (e.2.1.sumIutils + e.2.1.sumRutils)
      let rest ← passBoundChecked threshold lists
      return if bound < threshold then rest else e :: rest

/-- `run` on the transactions that have been read, with the checks. -/
def mineChecked (ctx : MiningContext) (tko : TkoState) (txs : List RawTransaction) :
    Except Fault (ℕ × World) := do
  let pass1 ← TwuFilter.computeChecked (initialThreshold ctx) txs
  let s ← Pass2.runChecked ctx.world.guard (filteredDb pass1 txs)
  let itemLists ← s.itemListsChecked
  let passing ← passBoundChecked (initialThreshold ctx) itemLists
  let filtered := sortByKey (fun e => (pass1.twu.lookup e.1).getD 0) passing
  let w ← executeTasks ctx { ctx.world with guard := s.guard, tko }
    ((miner s.eucs ctx.minUtility ctx.k).itemTasksChecked filtered)
  return finish ctx w

/-- `Tko::run` in a build with overflow checks. -/
def runChecked (source : DataSource) (ctx : MiningContext) : Except Fault (ℕ × World) := do
  let tko ← newState ctx
  mineChecked ctx tko (okOnly (← readDb source))

abbrev rowsOf (ctx : MiningContext) (txs : List RawTransaction) : List FilteredTransaction :=
  filteredDb (pass1 ctx txs) txs

/-- What is compared with the initial threshold: an item's own worth and that of
the items after it. -/
def itemBound (ctx : MiningContext) (txs : List RawTransaction) (y : ItemId) : Utility :=
  (((rowsOf ctx txs).filter fun r => {y} ⊆ r.basket.items).map fun r =>
    r.basket.gain {y} + remaining (pass1 ctx txs).rank r y).sum

section

variable {db : List SpmfRow} (ctx : MiningContext)

theorem filtered_sorted (txs : List RawTransaction) :
    ((filtered ctx txs).map Prod.fst).Pairwise fun y z =>
      (pass1 ctx txs).rank y < (pass1 ctx txs).rank z := by
  have hitems := Pass2.itemLists_sorted ctx.world.guard (rowsOf ctx txs)
  exact Pass2.pairwise_rank_sortByKey (pass1 ctx txs) (hitems.sublist List.filter_sublist)

theorem mem_filtered (hwf : ∀ row ∈ db, row.WellFormed) (hlen : db.length < 2 ^ 32) (y : ItemId) :
    y ∈ (filtered ctx (numbered 0 db)).map Prod.fst ↔
      Occurs ((rowsOf ctx (numbered 0 db)).map FilteredTransaction.basket) {y} ∧
        initialThreshold ctx ≤ itemBound ctx (numbered 0 db) y := by
  have hrows := filteredRows_filteredDb hwf hlen (pass1 ctx (numbered 0 db))
  have hbound : ∀ e ∈ (pass2 ctx (numbered 0 db)).itemLists,
      e.2.1.sumIutils + e.2.1.sumRutils = itemBound ctx (numbered 0 db) e.1 := by
    intro e he
    have hlist := Pass2.isItemList_of_mem hrows he
    rw [hlist.sumIutils, hlist.sumRutils, hlist.body, itemBound, List.sum_map_add]
    simp only [entriesOf, List.map_map]
    rfl
  have hmem := Pass2.mem_map_fst_itemLists hrows ctx.world.guard y
  rw [← hmem]
  simp only [List.mem_map, filtered, mem_sortByKey, List.mem_filter, Bool.not_eq_true',
    decide_eq_false_iff_not, not_lt]
  constructor
  · rintro ⟨e, ⟨he, hle⟩, rfl⟩
    rw [hbound e he] at hle
    exact ⟨⟨e, he, rfl⟩, hle⟩
  · rintro ⟨⟨e, he, rfl⟩, hle⟩
    refine ⟨e, ⟨he, ?_⟩, rfl⟩
    rw [hbound e he]
    exact hle

theorem itemBound_nonneg (hwf : ∀ row ∈ db, row.WellFormed) (hlen : db.length < 2 ^ 32)
    (y : ItemId) : 0 ≤ itemBound ctx (numbered 0 db) y := by
  have hrows := filteredRows_filteredDb hwf hlen (pass1 ctx (numbered 0 db))
  apply List.sum_nonneg
  intro z hz
  obtain ⟨r, hr, rfl⟩ := List.mem_map.mp hz
  obtain ⟨hr, hy⟩ := List.mem_filter.mp hr
  exact add_nonneg (gain_nonneg (hrows.basket_nonneg hr) (of_decide_eq_true hy))
    (gain_nonneg (hrows.basket_nonneg hr) (Finset.filter_subset _ _))

theorem forall₂_filtered (hwf : ∀ row ∈ db, row.WellFormed) (hlen : db.length < 2 ^ 32) :
    List.Forall₂ (UlMiner.IsItemList (pass1 ctx (numbered 0 db)).rank (rowsOf ctx (numbered 0 db)))
      ((filtered ctx (numbered 0 db)).map Prod.fst) (filtered ctx (numbered 0 db)) := by
  have hrows := filteredRows_filteredDb hwf hlen (pass1 ctx (numbered 0 db))
  have hsub : ∀ e ∈ filtered ctx (numbered 0 db), e ∈ (pass2 ctx (numbered 0 db)).itemLists :=
    fun e he => List.mem_of_mem_filter ((mem_sortByKey _).mp he)
  exact Pass2.forall₂_isItemList hrows ctx.world.guard hsub

/-- The world the tasks start in. -/
def startWorld (ctx : MiningContext) (txs : List RawTransaction) : World :=
  { ctx.world with
    guard := (pass2 ctx txs).guard
    tko := match ctx.k with
      | some k => TkoState.empty k
      | none => ctx.world.tko }

theorem bind_finish (r : Except Fault World) :
    (r >>= fun w => pure (finish ctx w)) = r.map (finish ctx) := by
  cases r <;> rfl

theorem finish_some {k : ℕ} (hk : ctx.k = some k) (w : World) :
    finish ctx w = ((writeHeap w).huisFound, writeHeap w) := by
  simp [finish, hk]

theorem newState_eq (hcap : ∀ k, ctx.k = some k → k + 1 < 2 ^ 58) (txs : List RawTransaction) :
    newState ctx = .ok (startWorld ctx txs).tko := by
  unfold newState startWorld
  cases hk : ctx.k with
  | none => rfl
  | some k =>
    have hroom : 32 * (k + 1) < 2 ^ 63 := by
      have := hcap k hk
      omega
    exact if_pos hroom

theorem run_eq (hcap : ∀ k, ctx.k = some k → k + 1 < 2 ^ 58) (source : DataSource) :
    run source ctx = readDb source >>= fun results =>
      (executeTasks ctx (startWorld ctx (okOnly results))
        ((miner (pass2 ctx (okOnly results)).eucs ctx.minUtility ctx.k).itemTasks
          (filtered ctx (okOnly results)))).map (finish ctx) := by
  rw [run, newState_eq ctx hcap []]
  cases readDb source with
  | error e => rfl
  | ok results => exact bind_finish ctx _

theorem run_map_ok (hcap : ∀ k, ctx.k = some k → k + 1 < 2 ^ 58) (hlen : db.length < 2 ^ 32) :
    run (db.map .ok) ctx = (executeTasks ctx (startWorld ctx (numbered 0 db))
      ((miner (pass2 ctx (numbered 0 db)).eucs ctx.minUtility ctx.k).itemTasks
        (filtered ctx (numbered 0 db)))).map (finish ctx) := by
  rw [run_eq ctx hcap, readDb_map_ok, if_pos hlen]
  change (executeTasks ctx (startWorld ctx (okOnly _)) _).map _ = _
  rw [okOnly_map_ok]

/-- With a complete pair structure the search wants the high-utility itemsets
within the items that pass the bound. -/
theorem wanted_iff (hwf : ∀ row ∈ db, row.WellFormed) (hlen : db.length < 2 ^ 32)
    (heucs : (pass2 ctx (numbered 0 db)).oom = false) (k : Option ℕ) (t : Utility)
    (X : Finset ItemId) :
    (miner (pass2 ctx (numbered 0 db)).eucs ctx.minUtility k).Wanted
        (pass1 ctx (numbered 0 db)).rank (rowsOf ctx (numbered 0 db)) ∅
        ((filtered ctx (numbered 0 db)).map Prod.fst) t X ↔
      HighUtility ((rowsOf ctx (numbered 0 db)).map FilteredTransaction.basket) t X ∧
        ∀ x ∈ X, x ∈ (filtered ctx (numbered 0 db)).map Prod.fst := by
  have hcomplete := Pass2.complete_of_oom heucs
  apply UlMiner.wanted_iff_highUtility
  intro hocc hle x hx y hy hxy
  have hkept := Eucs.canPrune_eq_false
    (filteredRows_filteredDb hwf hlen (pass1 ctx (numbered 0 db))) hcomplete hocc hle hx hy hxy
  rw [← Pass2.run_eucs] at hkept
  cases k <;> exact hkept

/-! ## The checked run -/

theorem yields_passBoundChecked (threshold : Utility) (lists : List ItemList) :
    Yields (passBoundChecked threshold lists) (lists.filter fun e =>
      !decide (e.2.1.sumIutils + e.2.1.sumRutils < threshold)) := by
  induction lists with
  | nil => exact Yields.ok []
  | cons e lists ih =>
    refine (yields_checkI64 _).bind (ih.bind ?_)
    by_cases hlow : e.2.1.sumIutils + e.2.1.sumRutils < threshold
    · rw [if_pos hlow, List.filter_cons_of_neg (by simp [hlow])]
      exact Yields.ok _
    · rw [if_neg hlow, List.filter_cons_of_pos (by simpa using hlow)]
      exact Yields.ok _

theorem passBoundChecked_eq {threshold : Utility} {lists : List ItemList}
    (h : ∀ e ∈ lists, 0 ≤ e.2.1.twu ∧ e.2.1.twu < 2 ^ 63) :
    passBoundChecked threshold lists = .ok (lists.filter fun e =>
      !decide (e.2.1.sumIutils + e.2.1.sumRutils < threshold)) := by
  have hreturns : ∃ kept, passBoundChecked threshold lists = .ok kept := by
    induction lists with
    | nil => exact ⟨[], rfl⟩
    | cons e lists ih =>
      obtain ⟨kept, hkept⟩ := ih fun e' he' => h e' (List.mem_cons_of_mem e he')
      obtain ⟨hlo, hhi⟩ := h e List.mem_cons_self
      have hcheck : checkI64 (e.2.1.sumIutils + e.2.1.sumRutils) = .ok e.2.1.twu :=
        checkI64_eq_ok hlo hhi
      unfold passBoundChecked
      rw [hcheck, hkept]
      exact ⟨_, rfl⟩
  obtain ⟨kept, hkept⟩ := hreturns
  rw [(yields_passBoundChecked threshold lists).eq_ok hkept, hkept]

/-- The bound of an item counts each transaction at most once. -/
theorem agrees_passBoundChecked (hwf : ∀ row ∈ db, row.WellFormed) (threshold : Utility) :
    Agrees (LightDb db) (passBoundChecked threshold (pass2 ctx (numbered 0 db)).itemLists)
      (.ok ((pass2 ctx (numbered 0 db)).itemLists.filter fun e =>
        !decide (e.2.1.sumIutils + e.2.1.sumRutils < threshold))) := by
  refine (yields_passBoundChecked _ _).under fun hlight => passBoundChecked_eq fun e he => ?_
  have hrows := filteredRows_filteredDb hwf hlight.length_lt (pass1 ctx (numbered 0 db))
  have hul := (Pass2.isItemList_of_mem hrows he).isUlOf (w := ctx.world)
  have hbound := UlMiner.extensionBound_le hrows (X := insert e.1 ∅) (y := e.1) (by simp)
  have htwu : e.2.1.twu = _ := UlMiner.twu_eq hul
  rw [htwu]
  exact ⟨hbound.1, hbound.2.trans_lt (hlight.totalOf_lt hwf _)⟩

theorem runChecked_map_ok (hcap : ∀ k, ctx.k = some k → k + 1 < 2 ^ 58) :
    runChecked (db.map .ok) ctx = if db.length < 2 ^ 32 then
      mineChecked ctx (startWorld ctx (numbered 0 db)).tko (numbered 0 db)
    else .error .overflow := by
  unfold runChecked
  rw [newState_eq ctx hcap (numbered 0 db), readDb_map_ok]
  split
  · exact congrArg (mineChecked ctx _) (okOnly_map_ok _)
  · rfl

/-- Whatever `k` is, the search keeps to some threshold that only rises. -/
theorem agrees_runChecked (hwf : ∀ row ∈ db, row.WellFormed)
    (hcap : ∀ k, ctx.k = some k → k + 1 < 2 ^ 58)
    (hpool : ∀ n, ctx.world.pool.fails n = false) {lo : World → Utility}
    {ops : Line → List MinerOp}
    (hm : (miner (pass2 ctx (numbered 0 db)).eucs ctx.minUtility ctx.k).Lawful (fun _ => False)
      lo ops) :
    Agrees (LightDb db) (runChecked (db.map .ok) ctx) (run (db.map .ok) ctx) := by
  rw [runChecked_map_ok ctx hcap]
  split
  · rename_i hlen
    rw [run_map_ok ctx hcap hlen]
    unfold mineChecked
    refine (LightDb.agrees_computeChecked hwf (initialThreshold ctx)).bind ?_
    refine (LightDb.agrees_runChecked hwf (pass1 ctx (numbered 0 db)) ctx.world.guard).bind ?_
    refine (LightDb.agrees_itemListsChecked hwf (pass1 ctx (numbered 0 db)) ctx.world.guard).bind ?_
    refine (agrees_passBoundChecked ctx hwf (initialThreshold ctx)).bind ?_
    refine (bind_finish ctx _).symm ▸ (UlMiner.agrees_itemTasksChecked
      (filteredRows_filteredDb hwf hlen (pass1 ctx (numbered 0 db)))
      (fun h => ⟨h.totalOf_lt hwf _, h.joinsFit hwf _⟩) hm ctx ?_
      (forall₂_filtered ctx hwf hlen) (filtered_sorted ctx _)).map (finish ctx)
    exact hpool
  · rename_i hlen
    exact Or.inr ⟨rfl, fun h => hlen h.length_lt⟩

/-- Where no storage fails a run returns, or a sum or the counter of rows overflows. -/
theorem runChecked_returns (hwf : ∀ row ∈ db, row.WellFormed)
    (hcap : ∀ k, ctx.k = some k → k + 1 < 2 ^ 58)
    (hpool : ∀ n, ctx.world.pool.fails n = false) {lo : World → Utility}
    {ops : Line → List MinerOp}
    (hm : (miner (pass2 ctx (numbered 0 db)).eucs ctx.minUtility ctx.k).Lawful (fun _ => False)
      lo ops) :
    (∃ result, runChecked (db.map .ok) ctx = .ok result) ∨
      runChecked (db.map .ok) ctx = .error .overflow ∧ ¬ LightDb db := by
  refine (agrees_runChecked ctx hwf hcap hpool hm).returns ?_
  by_cases hlen : db.length < 2 ^ 32
  · left
    have hE : Task.Allows (fun _ => False) { startWorld ctx (numbered 0 db) with lines := [] } :=
      fun n hn => by simp [startWorld, hpool n] at hn
    rw [run_map_ok ctx hcap hlen]
    rcases UlMiner.executeTasks_itemTasks
        (filteredRows_filteredDb hwf hlen (pass1 ctx (numbered 0 db))) hm ctx
        (w := startWorld ctx (numbered 0 db)) hE (forall₂_filtered ctx hwf hlen)
        (filtered_sorted ctx _) with ⟨e, he, -⟩ | ⟨log, lines, hrun, -⟩
    · exact he.elim
    · exact ⟨_, by rw [hrun]; rfl⟩
  · right
    rw [run_eq ctx hcap, readDb_map_ok, if_neg hlen]
    exact ⟨rfl, fun h => hlen h.length_lt⟩

/-! ## Without a `k` -/

/-- Without a `k` TKO reports the high-utility itemsets whose items all pass the bound. -/
theorem exactOutput_iff_of_run (hwf : ∀ row ∈ db, row.WellFormed) (hk : ctx.k = none)
    (hpool : ∀ n, ctx.world.pool.fails n = false)
    (heucs : (pass2 ctx (numbered 0 db)).oom = false) {result : ℕ × World}
    (hrun : run (db.map .ok) ctx = .ok result) :
    ExactOutput db ctx.minUtility result.2.lines ↔
      ∀ X, HighUtility (baskets db) ctx.minUtility X →
        ∀ x ∈ X, ctx.minUtility ≤ itemBound ctx (numbered 0 db) x := by
  have hcap : ∀ k, ctx.k = some k → k + 1 < 2 ^ 58 := fun k hsome => by simp [hk] at hsome
  have hlen : db.length < 2 ^ 32 := by
    rw [run_eq ctx hcap] at hrun
    exact length_lt_of_readDb hrun
  have hinit : initialThreshold ctx = ctx.minUtility := by simp [initialThreshold, hk]
  have hE : Task.Allows (fun _ => False) (startWorld ctx (numbered 0 db)) :=
    fun n hn => by simp [startWorld, hpool n] at hn
  rw [run_map_ok ctx hcap hlen, hk] at hrun
  rcases Fhm.executeTasks_miner (filteredRows_filteredDb hwf hlen (pass1 ctx (numbered 0 db))) ctx
      (pass2 ctx (numbered 0 db)).eucs ctx.minUtility hE (forall₂_filtered ctx hwf hlen)
      (filtered_sorted ctx _) with ⟨e, he, -⟩ | ⟨w, lines, hrun', hperm, -, hanswers⟩
  · exact he.elim
  · replace hrun : (executeTasks ctx (startWorld ctx (numbered 0 db))
        ((Fhm.miner (pass2 ctx (numbered 0 db)).eucs ctx.minUtility).itemTasks
          (filtered ctx (numbered 0 db)))).map (finish ctx) = .ok result := hrun
    rw [hrun'] at hrun
    obtain rfl := Except.ok.inj hrun
    have hlines : (finish ctx w).2.lines = w.lines := by simp [finish, hk]
    rw [hlines]
    have hrows_eq : rowsOf ctx (numbered 0 db) =
        filteredDb (TwuFilter.compute ctx.minUtility (numbered 0 db)) (numbered 0 db) := by
      rw [rowsOf, pass1, hinit]
    have hwanted := fun X => wanted_iff ctx hwf hlen heucs none ctx.minUtility X
    constructor
    · intro hexact X hX x hx
      have hmem := hexact.complete X hX
      rw [(hperm.map _).mem_iff] at hmem
      obtain ⟨l, hl, rfl⟩ := List.mem_map.mp hmem
      have hfiltered := ((hwanted _).mp (hanswers.sound l hl).2.2).2 x hx
      rw [← hinit]
      exact ((mem_filtered ctx hwf hlen x).mp hfiltered).2
    · intro hitems
      refine (exactOutput_filteredDb hwf hrows_eq ?_).perm hperm.symm
      refine Lists.mono hanswers (fun X hX => (hwanted X).mpr ⟨hX, fun x hx => ?_⟩) ?_
      · have hXdb : HighUtility (baskets db) ctx.minUtility X := by
          rw [← map_basket_numbered 0 db]
          rw [hrows_eq] at hX
          exact (highUtility_filteredDb (numbered_wellFormed hwf 0) X).mp hX
        rw [mem_filtered ctx hwf hlen, hinit]
        exact ⟨hX.occurs.mono (Finset.singleton_subset_iff.mpr hx), hitems X hXdb x hx⟩
      · rintro l - ⟨hnodup, hu, hl⟩
        exact ⟨hnodup, hu, ((hwanted _).mp hl).1⟩

/-- Without a `k`, where no sum overflows, TKO is exact if and only if every item of a
high-utility itemset passes the bound. -/
theorem threshold_exact_iff (hwf : ∀ row ∈ db, row.WellFormed) (hk : ctx.k = none)
    (hpool : ∀ n, ctx.world.pool.fails n = false)
    (heucs : (pass2 ctx (numbered 0 db)).oom = false) :
    ((∃ result, runChecked (db.map .ok) ctx = .ok result) ∨
        runChecked (db.map .ok) ctx = .error .overflow ∧ ¬ LightDb db) ∧
      ∀ result, runChecked (db.map .ok) ctx = .ok result →
        (ExactOutput db ctx.minUtility result.2.lines ↔
          ∀ X, HighUtility (baskets db) ctx.minUtility X →
            ∀ x ∈ X, ctx.minUtility ≤ itemBound ctx (numbered 0 db) x) := by
  have hcap : ∀ k, ctx.k = some k → k + 1 < 2 ^ 58 := fun k hsome => by simp [hk] at hsome
  have hm : (miner (pass2 ctx (numbered 0 db)).eucs ctx.minUtility ctx.k).Lawful (fun _ => False)
      (fun _ => ctx.minUtility) writeOps := by
    rw [hk]
    exact Fhm.miner_lawful _ _ _
  refine ⟨runChecked_returns ctx hwf hcap hpool hm, fun result hrun => ?_⟩
  exact exactOutput_iff_of_run ctx hwf hk hpool heucs
    ((agrees_runChecked ctx hwf hcap hpool hm).eq_ok hrun)

theorem threshold_exact_iff_tinyDb :
    ∃ result, runChecked (tinyDb.map .ok) (createCtx 45 none 96) = .ok result ∧
      (ExactOutput tinyDb 45 result.2.lines ↔ ∀ X, HighUtility (baskets tinyDb) 45 X →
        ∀ x ∈ X, 45 ≤ itemBound (createCtx 45 none 96) (numbered 0 tinyDb) x) := by
  have hwf : ∀ row ∈ tinyDb, row.WellFormed := by decide
  obtain ⟨hreturns, hiff⟩ :=
    threshold_exact_iff (createCtx 45 none 96) hwf rfl (fun _ => rfl) (by decide)
  obtain ⟨result, hrun⟩ := hreturns.resolve_right fun h => h.2 lightDb_tinyDb
  exact ⟨result, hrun, hiff result hrun⟩

/-- One transaction of two items that are worth the threshold only together: the
second item is dropped before it can extend the first. -/
def lostDb : List SpmfRow := [{ items := [⟨1, 5⟩, ⟨2, 5⟩], transactionUtility := 10 }]

theorem not_threshold_exact :
    ¬ ∀ (db : List SpmfRow) (minUtility : Utility) (budget : ℕ) (result : ℕ × World),
      (∀ row ∈ db, row.WellFormed) →
      (pass2 (createCtx minUtility none budget) (numbered 0 db)).oom = false →
      runChecked (db.map .ok) (createCtx minUtility none budget) = .ok result →
      ExactOutput db minUtility result.2.lines := by
  intro h
  have hlines : (runChecked (lostDb.map .ok) (createCtx 8 none 96)).map (fun r => r.2.lines) =
      .ok [] := by decide +kernel
  cases hrun : runChecked (lostDb.map .ok) (createCtx 8 none 96) with
  | error e =>
    rw [hrun] at hlines
    cases hlines
  | ok result =>
    have hexact := h lostDb 8 96 result (by decide) (by decide) hrun
    rw [hrun] at hlines
    have hempty : result.2.lines = [] := Except.ok.inj hlines
    rw [hempty] at hexact
    exact List.not_mem_nil (hexact.complete {1, 2} (by decide))

/-! ## With a `k` -/

/-- The itemsets that occur in a database. -/
def occurring (db : List SpmfRow) : Finset (Finset ItemId) :=
  (db.flatMap fun row => row.items.map ItemEntry.item).toFinset.powerset.filter fun X =>
    X.Nonempty ∧ Occurs (baskets db) X

theorem mem_occurring {db : List SpmfRow} {X : Finset ItemId} :
    X ∈ occurring db ↔ X.Nonempty ∧ Occurs (baskets db) X := by
  rw [occurring, Finset.mem_filter, Finset.mem_powerset, and_iff_right_iff_imp]
  rintro ⟨-, b, hb, hX⟩ x hx
  obtain ⟨row, hrow, rfl⟩ := List.mem_map.mp hb
  obtain ⟨e, he, rfl⟩ := mem_basketOf.mp (hX hx)
  exact List.mem_toFinset.mpr (List.mem_flatMap.mpr ⟨row, hrow, List.mem_map_of_mem he⟩)

/-- A correct answer to the question for the best `k` itemsets. -/
structure TopK (db : List SpmfRow) (k : ℕ) (lines : List Line) : Prop where
  length : lines.length = min k (occurring db).card
  distinct : (lines.map fun l => l.1.toFinset).Nodup
  exact : ∀ l ∈ lines, l.1.Nodup ∧ l.1.toFinset ∈ occurring db ∧
    l.2 = utility (baskets db) l.1.toFinset
  sorted : lines.Pairwise fun l l' => l'.2 ≤ l.2
  best : ∀ X ∈ occurring db, X ∉ lines.map (fun l => l.1.toFinset) →
    ∀ l ∈ lines, utility (baskets db) X ≤ l.2

/-- The calls that report a line. -/
def ops (l : Line) : List MinerOp := [.update l.2 l.1]

theorem filterMap_offer?_ops (lines : List Line) :
    (lines.flatMap ops).filterMap MinerOp.offer? = lines.map fun l => (l.2, l.1) := by
  induction lines with
  | nil => rfl
  | cons l lines ih =>
    rw [List.flatMap_cons, List.filterMap_append, ih]
    rfl

/-- The threshold the search is held to is the one of the heap, which only rises. -/
theorem miner_lawful (eucs : Eucs) (minUtility : Utility) (k : ℕ) (E : Fault → Prop) :
    (miner eucs minUtility (some k)).Lawful E (fun w => w.tko.threshold) ops where
  mono _ _ hw := hw.threshold
  prune x y _ _ h := eucs.canPrune_mono x y h
  current w := Task.getThreshold_spec
  report w₀ w t X u hlo hhi := by
    refine (Task.update_spec u X).mono le_rfl ?_
    rintro out v t' ⟨rfl, hlo', hhi'⟩
    exact ⟨rfl, (hlo.trans hhi).trans hlo', hhi'⟩

theorem utility_baskets_nonneg (hwf : ∀ row ∈ db, row.WellFormed) (X : Finset ItemId) :
    0 ≤ utility (baskets db) X := by
  rw [baskets, utility_map]
  apply List.sum_nonneg
  intro z hz
  obtain ⟨row, hrow, rfl⟩ := List.mem_map.mp hz
  obtain ⟨hrow, hX⟩ := List.mem_filter.mp hrow
  exact gain_nonneg (nonneg_basketOf (hwf row hrow).nonneg) (of_decide_eq_true hX)

/-- What has been offered by the end answers the question: everything that
occurs and is worth the final threshold, with its utility. -/
theorem topK_of_after {k : ℕ} {lines : List Line} {s : TkoState}
    {seen : List (Utility × List ItemId)}
    (hwf : ∀ row ∈ db, row.WellFormed) (hafter : s.After k seen)
    (hseen : seen.Perm (lines.map fun l => (l.2, l.1)))
    (hlines : Lists (fun l : Line => l.1.toFinset) lines
      (fun X => X ∈ occurring db ∧ s.threshold ≤ utility (baskets db) X) fun l =>
        l.1.Nodup ∧ l.1.toFinset ∈ occurring db ∧ l.2 = utility (baskets db) l.1.toFinset) :
    TopK db k (s.heap.map fun e => (e.2, e.1)).reverse := by
  obtain ⟨-, hbest, hlow, hbound⟩ := hafter
  obtain ⟨rest, hperm, hdropped⟩ := hbest.dropped
  have hall : ((s.heap ++ rest).map fun e => (e.2, e.1)).Perm lines := by
    simpa [Function.comp_def] using
      (hperm.trans hseen).map fun e : Utility × List ItemId => (e.2, e.1)
  rw [List.map_append] at hall
  have hheap : ∀ l ∈ s.heap.map (fun e => (e.2, e.1)), l ∈ lines := fun l hl =>
    hall.subset (List.mem_append_left _ hl)
  have hlen : s.heap.length = min k lines.length := by
    rw [hbest.length, hseen.length_eq, List.length_map]
  have hcard : lines.length = (lines.map fun l => l.1.toFinset).toFinset.card := by
    rw [List.toFinset_card_of_nodup hlines.nodup, List.length_map]
  have hle : lines.length ≤ (occurring db).card := by
    rw [hcard]
    apply Finset.card_le_card
    intro X hX
    obtain ⟨l, hl, rfl⟩ := List.mem_map.mp (List.mem_toFinset.mp hX)
    exact (hlines.sound l hl).2.1
  refine ⟨?_, ?_, ?_, ?_, ?_⟩
  · rw [List.length_reverse, List.length_map, hlen]
    by_cases hfull : k ≤ lines.length
    · omega
    · -- a heap that never filled has left the threshold at zero
      have hzero : s.threshold = 0 := hlow (by omega)
      have hge : (occurring db).card ≤ lines.length := by
        rw [hcard]
        apply Finset.card_le_card
        intro X hX
        rw [List.mem_toFinset]
        exact hlines.complete X ⟨hX, hzero ▸ utility_baskets_nonneg hwf X⟩
      omega
  · rw [List.map_reverse, List.nodup_reverse]
    have hnodup := ((hall.map fun l => l.1.toFinset).nodup_iff).mpr hlines.nodup
    rw [List.map_append] at hnodup
    exact hnodup.of_append_left
  · intro l hl
    exact hlines.sound l (hheap l (List.mem_reverse.mp hl))
  · rw [List.pairwise_reverse, List.pairwise_map]
    exact hbest.sorted.imp fun h => TkoState.fst_le_of_heapKey_le h
  · intro X hX hnot l hl
    rw [List.map_reverse, List.mem_reverse] at hnot
    obtain ⟨e, he, rfl⟩ := List.mem_map.mp (List.mem_reverse.mp hl)
    have hexact : e.1 = utility (baskets db) e.2.toFinset :=
      (hlines.sound _ (hheap _ (List.mem_map_of_mem he))).2.2
    by_cases hmem : X ∈ lines.map fun l => l.1.toFinset
    · -- it was offered, and dropped for a better one
      obtain ⟨l, hl, rfl⟩ := List.mem_map.mp hmem
      rcases List.mem_append.mp (hall.symm.subset hl) with hl' | hl'
      · exact (hnot (List.mem_map_of_mem hl')).elim
      · obtain ⟨d, hd, rfl⟩ := List.mem_map.mp hl'
        rw [← (hlines.sound _ hl).2.2]
        exact TkoState.fst_le_of_heapKey_le (hdropped d hd e he)
    · -- it was not offered, so it is below the final threshold
      have hbelow : utility (baskets db) X < s.threshold := by
        by_contra hge
        exact hmem (hlines.complete X ⟨hX, not_lt.mp hge⟩)
      have hnonneg : 0 ≤ e.1 := by
        rw [hexact]
        exact utility_baskets_nonneg hwf _
      exact hbelow.le.trans ((hbound e he).trans (max_eq_right hnonneg).le)

/-- Over the whole database nothing is filtered out. -/
theorem highUtility_rowsOf (hwf : ∀ row ∈ db, row.WellFormed) {k : ℕ} (hk : ctx.k = some k)
    (t : Utility) (X : Finset ItemId) :
    (HighUtility ((rowsOf ctx (numbered 0 db)).map FilteredTransaction.basket) t X ↔
      X ∈ occurring db ∧ t ≤ utility (baskets db) X) ∧
    (HighUtility ((rowsOf ctx (numbered 0 db)).map FilteredTransaction.basket) t X →
      utility ((rowsOf ctx (numbered 0 db)).map FilteredTransaction.basket) X =
        utility (baskets db) X) := by
  have hinit : initialThreshold ctx = 0 := by simp [initialThreshold, hk]
  have hwf' := numbered_wellFormed hwf 0
  have hsame : X.Nonempty → (∀ x ∈ X, (pass1 ctx (numbered 0 db)).passes x = true) →
      utility ((rowsOf ctx (numbered 0 db)).map FilteredTransaction.basket) X =
          utility (baskets db) X ∧
        (Occurs ((rowsOf ctx (numbered 0 db)).map FilteredTransaction.basket) X ↔
          Occurs (baskets db) X) := by
    intro hne hpass
    rw [← map_basket_numbered 0 db]
    exact utility_filteredDb hwf' _ hne hpass
  constructor
  · constructor
    · intro h
      obtain ⟨hu, ho⟩ := hsame h.nonempty (passes_of_occurs_filteredDb hwf' h.occurs)
      exact ⟨mem_occurring.mpr ⟨h.nonempty, ho.mp h.occurs⟩, hu ▸ h.le⟩
    · rintro ⟨hocc, hle⟩
      obtain ⟨hne, hocc⟩ := mem_occurring.mp hocc
      have hpass : ∀ x ∈ X, (pass1 ctx (numbered 0 db)).passes x = true := by
        intro x hx
        have hX : HighUtility ((numbered 0 db).map RawTransaction.basket) 0 X := by
          rw [map_basket_numbered]
          exact ⟨hne, hocc, utility_baskets_nonneg hwf X⟩
        rw [pass1, hinit]
        exact HighUtility.passes hwf' hX hx
      obtain ⟨hu, ho⟩ := hsame hne hpass
      exact ⟨hne, ho.mpr hocc, hu ▸ hle⟩
  · intro h
    exact (hsame h.nonempty (passes_of_occurs_filteredDb hwf' h.occurs)).1

/-- The output is a correct top-k under every schedule of the tasks. -/
theorem topK_of_run (hwf : ∀ row ∈ db, row.WellFormed) {k : ℕ} (hk : ctx.k = some k)
    (hcap : ∀ k, ctx.k = some k → k + 1 < 2 ^ 58) (hpool : ∀ n, ctx.world.pool.fails n = false)
    (heucs : (pass2 ctx (numbered 0 db)).oom = false) {result : ℕ × World}
    (hrun : run (db.map .ok) ctx = .ok result) :
    TopK db k result.2.lines ∧ result.1 = result.2.lines.length := by
  have hlen : db.length < 2 ^ 32 := by
    rw [run_eq ctx hcap] at hrun
    exact length_lt_of_readDb hrun
  have hE : Task.Allows (fun _ => False) { startWorld ctx (numbered 0 db) with lines := [] } :=
    fun n hn => by simp [startWorld, hpool n] at hn
  have hstart : (startWorld ctx (numbered 0 db)).tko = .empty k := by rw [startWorld, hk]
  rw [run_map_ok ctx hcap hlen, hk] at hrun
  rcases UlMiner.executeTasks_itemTasks
      (filteredRows_filteredDb hwf hlen (pass1 ctx (numbered 0 db)))
      (miner_lawful (pass2 ctx (numbered 0 db)).eucs ctx.minUtility k fun _ => False) ctx
      (w := startWorld ctx (numbered 0 db)) hE (forall₂_filtered ctx hwf hlen)
      (filtered_sorted ctx _) with ⟨e, he, -⟩ | ⟨log, lines, hrun', hperm, hanswers⟩
  · exact he.elim
  · rw [hrun'] at hrun
    obtain rfl := Except.ok.inj hrun
    rw [finish_some ctx hk]
    -- the heap has seen exactly the lines of the search
    have hafter : (Prog.replay world log
        { startWorld ctx (numbered 0 db) with lines := [] }).tko.After k
          ([] ++ (outputs log).filterMap MinerOp.offer?) := by
      rw [tko_replay]
      have hnew : (startWorld ctx (numbered 0 db)).tko.After k [] := by
        rw [hstart]
        exact TkoState.After.empty k
      exact hnew.foldl _
    rw [List.nil_append] at hafter
    have hseen : ((outputs log).filterMap MinerOp.offer?).Perm
        (lines.map fun l => (l.2, l.1)) := by
      rw [← filterMap_offer?_ops]
      exact hperm.filterMap _
    have hwanted := fun t X => wanted_iff ctx hwf hlen heucs (some k) t X
    refine ⟨topK_of_after hwf hafter hseen (Lists.mono hanswers ?_ ?_), rfl⟩
    · rintro X hX
      have hhigh := (highUtility_rowsOf ctx hwf hk _ X).1.mpr hX
      refine (hwanted _ X).mpr ⟨hhigh, fun x hx => ?_⟩
      rw [mem_filtered ctx hwf hlen]
      have hinit : initialThreshold ctx = 0 := by simp [initialThreshold, hk]
      rw [hinit]
      exact ⟨hhigh.occurs.mono (Finset.singleton_subset_iff.mpr hx),
        itemBound_nonneg ctx hwf hlen x⟩
    · rintro l - ⟨hnodup, hu, hl⟩
      have hhigh := ((hwanted _ _).mp hl).1
      have hsame := highUtility_rowsOf ctx hwf hk
        (startWorld ctx (numbered 0 db)).tko.threshold l.1.toFinset
      exact ⟨hnodup, (hsame.1.mp hhigh).1, hu.trans (hsame.2 hhigh)⟩

/-- TKO's output is a correct top-k under every schedule of its tasks, if the heap has
room for `k` and no sum overflows. -/
theorem topK_correct (hwf : ∀ row ∈ db, row.WellFormed) {k : ℕ} (hk : ctx.k = some k)
    (hcap : k + 1 < 2 ^ 58) (hpool : ∀ n, ctx.world.pool.fails n = false)
    (heucs : (pass2 ctx (numbered 0 db)).oom = false) :
    ((∃ result, runChecked (db.map .ok) ctx = .ok result) ∨
        runChecked (db.map .ok) ctx = .error .overflow ∧ ¬ LightDb db) ∧
      ∀ result, runChecked (db.map .ok) ctx = .ok result →
        TopK db k result.2.lines ∧ result.1 = result.2.lines.length := by
  have hcap : ∀ k, ctx.k = some k → k + 1 < 2 ^ 58 := by
    intro k' hk'
    rw [hk] at hk'
    rwa [← Option.some.inj hk']
  have hm : (miner (pass2 ctx (numbered 0 db)).eucs ctx.minUtility ctx.k).Lawful (fun _ => False)
      (fun w => w.tko.threshold) ops := by
    rw [hk]
    exact miner_lawful _ _ k _
  refine ⟨runChecked_returns ctx hwf hcap hpool hm, fun result hrun => ?_⟩
  exact topK_of_run ctx hwf hk hcap hpool heucs
    ((agrees_runChecked ctx hwf hcap hpool hm).eq_ok hrun)

theorem topK_correct_tinyDb :
    ∃ result, runChecked (tinyDb.map .ok) (createCtx 0 (some 3) 96) = .ok result ∧
      TopK tinyDb 3 result.2.lines ∧ result.1 = result.2.lines.length := by
  have hwf : ∀ row ∈ tinyDb, row.WellFormed := by decide
  obtain ⟨hreturns, htop⟩ :=
    topK_correct (createCtx 0 (some 3) 96) hwf rfl (by decide) (fun _ => rfl) (by decide)
  obtain ⟨result, hrun⟩ := hreturns.resolve_right fun h => h.2 lightDb_tinyDb
  exact ⟨result, hrun, htop result hrun⟩

/-- Neither bound can be left out: a sum overflows in the first pass, or the heap cannot
be made. -/
theorem not_topK_correct :
    (¬ ∀ (db : List SpmfRow) (k budget : ℕ), (∀ row ∈ db, row.WellFormed) → k + 1 < 2 ^ 58 →
        (pass2 (createCtx 0 (some k) budget) (numbered 0 db)).oom = false →
        ∃ result, runChecked (db.map .ok) (createCtx 0 (some k) budget) = .ok result ∧
          TopK db k result.2.lines) ∧
      ¬ ∀ (db : List SpmfRow) (k budget : ℕ), (∀ row ∈ db, row.WellFormed) → k + 1 < 2 ^ 64 →
        LightDb db → (pass2 (createCtx 0 (some k) budget) (numbered 0 db)).oom = false →
        ∃ result, runChecked (db.map .ok) (createCtx 0 (some k) budget) = .ok result ∧
          TopK db k result.2.lines := by
  constructor
  · intro hall
    obtain ⟨result, hrun, -⟩ := hall heavyDb 10 1024 heavyDb_wellFormed (by decide) (by decide)
    have hfault : runChecked (heavyDb.map .ok) (createCtx 0 (some 10) 1024) =
        .error .overflow := by
      rw [runChecked_map_ok _ (by simp [createCtx]), if_pos (by decide), mineChecked,
        computeChecked_heavyDb]
      rfl
    rw [hfault] at hrun
    cases hrun
  · intro hall
    obtain ⟨result, hrun, -⟩ := hall tinyDb (2 ^ 58) 96 (by decide) (by decide) lightDb_tinyDb
      (by decide)
    have hfault : runChecked (tinyDb.map .ok) (createCtx 0 (some (2 ^ 58)) 96) =
        .error .panic := by
      have hnew : TkoState.new (2 ^ 58) = .error .panic := if_neg (by decide)
      have hstate : newState (createCtx 0 (some (2 ^ 58)) 96) = .error .panic := hnew
      rw [runChecked, hstate]
      rfl
    rw [hfault] at hrun
    cases hrun

end

end Tko

end AirHuim
