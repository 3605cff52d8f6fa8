import AirHuim.Mining.OneItemLists

/-!
# FHM

The miner and its exactness: when no reservation of the pair structure is
refused, its output is the set of high-utility itemsets with their utilities,
for every schedule of the tasks.
-/

namespace AirHuim

open Library Basket

namespace Fhm

/-- FHM keeps one threshold, writes each result at once and counts it. -/
def miner (eucs : Eucs) (minUtility : Utility) : UlMiner where
  current := return minUtility
  report itemset utility thresh := do
    Task.writeAndCount itemset utility
    return thresh
  prunePair := eucs.canPrune

def pass1 (ctx : MiningContext) (txs : List RawTransaction) : TwuFilterResult :=
  TwuFilter.compute ctx.minUtility txs

def pass2 (ctx : MiningContext) (txs : List RawTransaction) : Pass2 :=
  Pass2.run ctx.world.guard (filteredDb (pass1 ctx txs) txs)

/-- The lists of the items, by ascending weight, ties by item. -/
def filtered (ctx : MiningContext) (txs : List RawTransaction) : List ItemList :=
  sortByKey (fun e => (pass1 ctx txs).rank e.1) (pass2 ctx txs).itemLists

/-- `Fhm::run`: the count it returns and the world it leaves. -/
def run (source : DataSource) (ctx : MiningContext) : Except Fault (ℕ × World) := do
  let txs := okOnly (← readDb source)
  let s := pass2 ctx txs
  let w ← executeTasks ctx { ctx.world with guard := s.guard }
    ((miner s.eucs ctx.minUtility).itemTasks (filtered ctx txs))
  return (w.huisFound, w)

theorem miner_lawful (eucs : Eucs) (minUtility : Utility) (E : Fault → Prop) :
    (miner eucs minUtility).Lawful E (fun _ => minUtility) writeOps where
  mono _ _ _ := le_rfl
  prune x y _ _ h := eucs.canPrune_mono x y h
  current _ := Task.Spec.pure fun _ _ => ⟨rfl, le_rfl, le_rfl⟩
  report w₀ w t X u hlo hhi := by
    refine Task.Spec.bind (Task.writeAndCount_spec X u) ?_
    rintro _ v _ - rfl
    exact Task.Spec.pure fun _ _ => ⟨List.append_nil _, hlo, hhi⟩

/-- A run of the tasks of a miner that writes as it goes. -/
theorem executeTasks_miner {rank : ItemId → Utility ×ₗ ItemId} {rows : List FilteredTransaction}
    (h : FilteredRows rank rows) {E : Fault → Prop} (ctx : MiningContext) (eucs : Eucs)
    (minUtility : Utility) {w : World} (hE : Task.Allows E w) {ys : List ItemId}
    {items : List ItemList} (hitems : List.Forall₂ (UlMiner.IsItemList rank rows) ys items)
    (hsorted : ys.Pairwise fun y z => rank y < rank z) :
    (∃ e, E e ∧ executeTasks ctx w ((miner eucs minUtility).itemTasks items) = .error e) ∨
      ∃ w' lines, executeTasks ctx w ((miner eucs minUtility).itemTasks items) = .ok w' ∧
        w'.lines.Perm lines ∧ w'.huisFound = w.huisFound + lines.length ∧
        UlMiner.Answers rows ((miner eucs minUtility).Wanted rank rows ∅ ys)
          minUtility minUtility lines :=
  UlMiner.executeTasks_writing h (miner_lawful eucs minUtility E) ctx hE hitems hsorted

section

variable {db : List SpmfRow} (ctx : MiningContext)

/-- The rows of the second pass. -/
abbrev rowsOf (ctx : MiningContext) (txs : List RawTransaction) : List FilteredTransaction :=
  filteredDb (pass1 ctx txs) txs

theorem filtered_sorted (txs : List RawTransaction) :
    ((filtered ctx txs).map Prod.fst).Pairwise fun y z =>
      (pass1 ctx txs).rank y < (pass1 ctx txs).rank z := by
  rw [List.pairwise_map]
  apply pairwise_sortByKey_lt
  refine List.pairwise_map.mpr ((Pass2.itemLists_sorted _ _).imp ?_)
  intro e e' hlt heq
  exact hlt.ne ((pass1 ctx txs).rank_injective heq)

theorem run_map_ok (db : List SpmfRow) (hlen : db.length < 2 ^ 32) :
    run (db.map .ok) ctx = (executeTasks ctx
      { ctx.world with guard := (pass2 ctx (numbered 0 db)).guard }
      ((miner (pass2 ctx (numbered 0 db)).eucs ctx.minUtility).itemTasks
        (filtered ctx (numbered 0 db)))).map fun w => (w.huisFound, w) := by
  simp only [run, readDb_map_ok, if_pos hlen]
  change Except.bind (Except.ok _) _ = _
  simp only [Except.bind, okOnly_map_ok]
  cases executeTasks ctx _ _ <;> rfl

/-- Whatever the transactions are, a run counts the lines it writes and leaves the
guard as the second pass has left it. -/
theorem run_counts {n : ℕ} {w : World} (h : run (db.map .ok) ctx = .ok (n, w)) :
    n = w.huisFound ∧ w.huisFound = ctx.world.huisFound + w.lines.length ∧
      w.guard = (pass2 ctx (numbered 0 db)).guard := by
  rw [run_map_ok ctx db (length_lt_of_readDb h)] at h
  have htasks : ∀ task ∈ (miner (pass2 ctx (numbered 0 db)).eucs ctx.minUtility).itemTasks
      (filtered ctx (numbered 0 db)), task.Counts := by
    apply UlMiner.itemTasks_counts
    · exact Task.Counts.pure _
    · exact fun X u _ =>
        Task.Counts.bind (Task.Counts.writeAndCount X u) fun _ => Task.Counts.pure _
  cases hrun : executeTasks ctx { ctx.world with guard := (pass2 ctx (numbered 0 db)).guard }
      ((miner (pass2 ctx (numbered 0 db)).eucs ctx.minUtility).itemTasks
        (filtered ctx (numbered 0 db))) with
  | error e =>
    rw [hrun] at h
    cases h
  | ok w' =>
    rw [hrun] at h
    obtain ⟨rfl, rfl⟩ := Prod.mk.inj (Except.ok.inj h)
    obtain ⟨hguard, hcount⟩ := executeTasks_counts ctx htasks hrun
    exact ⟨rfl, hcount, hguard⟩

theorem forall₂_filtered (hwf : ∀ row ∈ db, row.WellFormed) (hlen : db.length < 2 ^ 32) :
    List.Forall₂ (UlMiner.IsItemList (pass1 ctx (numbered 0 db)).rank (rowsOf ctx (numbered 0 db)))
      ((filtered ctx (numbered 0 db)).map Prod.fst) (filtered ctx (numbered 0 db)) :=
  Pass2.forall₂_isItemList (filteredRows_filteredDb hwf hlen (pass1 ctx (numbered 0 db)))
    ctx.world.guard fun _ he => (mem_sortByKey _).mp he

/-- What a run reports, whatever the pair structure holds: the high-utility
itemsets none of whose pairs it prunes. -/
theorem run_spec (hwf : ∀ row ∈ db, row.WellFormed) {E : Fault → Prop}
    (hE : Task.Allows E ctx.world) (hlen : db.length < 2 ^ 32) :
    (∃ e, E e ∧ run (db.map .ok) ctx = .error e) ∨
      ∃ w lines, run (db.map .ok) ctx = .ok (w.huisFound, w) ∧ w.lines.Perm lines ∧
        w.huisFound = ctx.world.huisFound + lines.length ∧
        UlMiner.Answers (rowsOf ctx (numbered 0 db))
          ((miner (pass2 ctx (numbered 0 db)).eucs ctx.minUtility).Wanted
            (pass1 ctx (numbered 0 db)).rank (rowsOf ctx (numbered 0 db)) ∅
            ((filtered ctx (numbered 0 db)).map Prod.fst))
          ctx.minUtility ctx.minUtility lines := by
  have hrows := filteredRows_filteredDb hwf hlen (pass1 ctx (numbered 0 db))
  have hitems := forall₂_filtered ctx hwf hlen
  rw [run_map_ok ctx db hlen]
  rcases executeTasks_miner hrows ctx (pass2 ctx (numbered 0 db)).eucs ctx.minUtility
      (w := { ctx.world with guard := (pass2 ctx (numbered 0 db)).guard }) hE hitems
      (filtered_sorted ctx _) with ⟨e, he, hrun⟩ | ⟨w, lines, hrun, hanswers⟩
  · exact Or.inl ⟨e, he, by rw [hrun]; rfl⟩
  · exact Or.inr ⟨w, lines, by rw [hrun]; rfl, hanswers⟩

theorem mem_filtered (hwf : ∀ row ∈ db, row.WellFormed) (hlen : db.length < 2 ^ 32) {y : ItemId}
    (hy : Occurs ((rowsOf ctx (numbered 0 db)).map FilteredTransaction.basket) {y}) :
    y ∈ (filtered ctx (numbered 0 db)).map Prod.fst :=
  Pass2.mem_map_fst_sorted (filteredRows_filteredDb hwf hlen (pass1 ctx (numbered 0 db)))
    ctx.world.guard _ hy

/-- What a run reports when nothing is refused to the pair structure. -/
theorem run_spec_of_complete (hwf : ∀ row ∈ db, row.WellFormed) {E : Fault → Prop}
    (hE : Task.Allows E ctx.world) (heucs : (pass2 ctx (numbered 0 db)).oom = false)
    (hlen : db.length < 2 ^ 32) :
    (∃ e, E e ∧ run (db.map .ok) ctx = .error e) ∨
      ∃ w, run (db.map .ok) ctx = .ok (w.huisFound, w) ∧
        w.huisFound = ctx.world.huisFound + w.lines.length ∧
        ExactOutput db ctx.minUtility w.lines := by
  have hrows := filteredRows_filteredDb hwf hlen (pass1 ctx (numbered 0 db))
  have hcomplete := Pass2.complete_of_oom heucs
  rcases run_spec ctx hwf hE hlen with hfault | ⟨w, lines, hrun, hperm, hcount, hanswers⟩
  · exact Or.inl hfault
  · right
    have hexact : ExactOutput db ctx.minUtility lines := by
      apply UlMiner.exactOutput_of_answers hwf rfl (fun y => mem_filtered ctx hwf hlen) _ hanswers
      intro X hocc hle x hx y hy hxy
      have hkept := Eucs.canPrune_eq_false hrows hcomplete hocc hle hx hy hxy
      rw [← Pass2.run_eucs] at hkept
      exact hkept
    exact ⟨w, hrun, by rw [hcount, hperm.length_eq], hexact.perm hperm.symm⟩

/-- FHM is exact when nothing is refused to the pair structure. The first part
says that a run on a database whose tids are `u32` does return. -/
theorem run_exact (hwf : ∀ row ∈ db, row.WellFormed)
    (hpool : ∀ n, ctx.world.pool.fails n = false)
    (heucs : (pass2 ctx (numbered 0 db)).oom = false) (hfresh : ctx.world.huisFound = 0) :
    (db.length < 2 ^ 32 → ∃ result, run (db.map .ok) ctx = .ok result) ∧
      ∀ count w, run (db.map .ok) ctx = .ok (count, w) →
        ExactOutput db ctx.minUtility w.lines ∧ count = w.lines.length := by
  have hE : Task.Allows (fun _ => False) ctx.world := fun n hn => by simp [hpool n] at hn
  have hcases := fun hlen => run_spec_of_complete ctx hwf hE (E := fun _ => False) heucs hlen
  constructor
  · intro hlen
    rcases hcases hlen with ⟨e, he, -⟩ | ⟨w, hrun, -⟩
    · exact he.elim
    · exact ⟨_, hrun⟩
  · intro count w hrun
    rcases hcases (length_lt_of_readDb hrun) with ⟨e, he, -⟩ | ⟨w', hrun', hcount, hexact⟩
    · exact he.elim
    · rw [hrun'] at hrun
      obtain ⟨rfl, rfl⟩ := Prod.mk.inj (Except.ok.inj hrun)
      rw [hfresh, Nat.zero_add] at hcount
      exact ⟨hexact, hcount⟩

theorem run_exact_tinyDb :
    ∃ result, run (tinyDb.map .ok) (createCtx 45 none 1073741824) = .ok result ∧
      ExactOutput tinyDb 45 result.2.lines ∧ result.1 = result.2.lines.length := by
  have hwf : ∀ row ∈ tinyDb, row.WellFormed := by decide
  obtain ⟨hreturns, hexact⟩ :=
    run_exact (createCtx 45 none 1073741824) hwf (fun _ => rfl) (by decide) rfl
  obtain ⟨result, hrun⟩ := hreturns (by decide)
  exact ⟨result, hrun, hexact result.1 result.2 hrun⟩

end

end Fhm

end AirHuim
