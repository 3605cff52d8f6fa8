import AirHuim.Mining.Algorithms.Fhm
import AirHuim.Mining.LightSearch

/-!
# FHM in a build with overflow checks

`Fhm::run` with every `i64` sum checked. A run that returns is one in which no sum has
left its range, and it returns what `run` returns. A run overflows only in the joins
if the database is worth less than `2 ^ 63`, and nowhere if it is light.
-/

namespace AirHuim

open Library Basket

namespace Fhm

/-- `run` up to its tasks: what the second pass leaves, and the lists to search. -/
def passesChecked (minUtility : Utility) (guard : MemoryGuard) (txs : List RawTransaction) :
    Except Fault (Pass2 × List ItemList) := do
  let pass1 ← TwuFilter.computeChecked minUtility txs
  let s ← Pass2.runChecked guard (filteredDb pass1 txs)
  let itemLists ← s.itemListsChecked
  return (s, sortByKey (fun e => pass1.rank e.1) itemLists)

/-- `run` on the transactions that have been read, with the checks. -/
def mineChecked (ctx : MiningContext) (txs : List RawTransaction) : Except Fault (ℕ × World) := do
  let (s, filtered) ← passesChecked ctx.minUtility ctx.world.guard txs
  let w ← executeTasks ctx { ctx.world with guard := s.guard }
    ((miner s.eucs ctx.minUtility).itemTasksChecked filtered)
  return (w.huisFound, w)

def runChecked (source : DataSource) (ctx : MiningContext) : Except Fault (ℕ × World) := do
  mineChecked ctx (okOnly (← readDb source))

/-- The run of the checked tasks, after passes that have not overflowed. -/
def searchChecked (ctx : MiningContext) (txs : List RawTransaction) : Except Fault (ℕ × World) :=
  (executeTasks ctx { ctx.world with guard := (pass2 ctx txs).guard }
    ((miner (pass2 ctx txs).eucs ctx.minUtility).itemTasksChecked (filtered ctx txs))).map
      fun w => (w.huisFound, w)

theorem bind_huisFound (r : Except Fault World) :
    (r >>= fun w => pure (w.huisFound, w)) = r.map fun w => (w.huisFound, w) := by
  cases r <;> rfl

/-- The passes of a checked run yield those of the run. -/
theorem yields_passesChecked (ctx : MiningContext) (txs : List RawTransaction) :
    Yields (passesChecked ctx.minUtility ctx.world.guard txs)
      (pass2 ctx txs, filtered ctx txs) := by
  refine (TwuFilter.yields_computeChecked ctx.minUtility txs).bind ?_
  refine (Pass2.yields_runChecked ctx.world.guard (rowsOf ctx txs)).bind ?_
  exact (pass2 ctx txs).yields_itemListsChecked.bind (Yields.ok _)

theorem agrees_mineChecked (ctx : MiningContext) (txs : List RawTransaction) :
    Agrees False (mineChecked ctx txs) (searchChecked ctx txs) :=
  (yields_passesChecked ctx txs).bind (Or.inl (bind_huisFound _))

/-- The weights of a checked run that returns fit. -/
theorem sumsFit_of_mineChecked {ctx : MiningContext} {txs : List RawTransaction}
    {result : ℕ × World} (h : mineChecked ctx txs = .ok result) : TwuFilter.SumsFit txs := by
  by_contra hfit
  rw [mineChecked, passesChecked, TwuFilter.computeChecked_eq, if_neg hfit] at h
  cases h

/-- What a checked run returns is what the run returns. -/
theorem run_of_runChecked {source : DataSource} {ctx : MiningContext} {result : ℕ × World}
    (h : runChecked source ctx = .ok result) : run source ctx = .ok result := by
  unfold runChecked at h
  unfold run
  cases hread : readDb source with
  | error e =>
    rw [hread] at h
    cases h
  | ok results =>
    rw [hread] at h
    replace h : mineChecked ctx (okOnly results) = .ok result := h
    replace h := (agrees_mineChecked ctx (okOnly results)).eq_ok h
    rw [searchChecked] at h
    have hfollows :=
      (miner (pass2 ctx (okOnly results)).eucs ctx.minUtility).follows_itemTasksChecked
      (filtered ctx (okOnly results))
    cases hrun : executeTasks ctx { ctx.world with guard := (pass2 ctx (okOnly results)).guard }
        ((miner (pass2 ctx (okOnly results)).eucs ctx.minUtility).itemTasksChecked
          (filtered ctx (okOnly results))) with
    | error e =>
      rw [hrun] at h
      cases h
    | ok w =>
      rw [hrun] at h
      have hsame := executeTasks_of_follows hfollows ctx hrun
      simp only [bind, Except.bind, hsame]
      exact h

/-! ## What a run adds up -/

/-- Every join that the run makes has sums that fit. -/
def RunFits (ctx : MiningContext) (txs : List RawTransaction) : Prop :=
  (miner (pass2 ctx txs).eucs ctx.minUtility).SearchFits (pass1 ctx txs).rank (rowsOf ctx txs)
    ctx.minUtility ∅ ((filtered ctx txs).map Prod.fst)

section Run

variable {db : List SpmfRow} (ctx : MiningContext)

/-- The passes and the headers never overflow. -/
theorem passesChecked_eq (hwf : ∀ row ∈ db, row.WellFormed) (hlen : db.length < 2 ^ 32)
    (htotal : statedTotal (numbered 0 db) < 2 ^ 63) :
    passesChecked ctx.minUtility ctx.world.guard (numbered 0 db) =
      .ok (pass2 ctx (numbered 0 db), filtered ctx (numbered 0 db)) := by
  have htxs := numbered_wellFormed hwf 0
  have hrows := filteredRows_filteredDb hwf hlen (pass1 ctx (numbered 0 db))
  have hfits : totalOf (rowsOf ctx (numbered 0 db)) < 2 ^ 63 :=
    (totalOf_filteredDb_le htxs _).trans_lt htotal
  have hpass1 : TwuFilter.computeChecked ctx.minUtility (numbered 0 db) =
      .ok (pass1 ctx (numbered 0 db)) := by
    rw [TwuFilter.computeChecked_eq, if_pos (sumsFit_of_total htxs htotal)]
    rfl
  have hpass2 : Pass2.runChecked ctx.world.guard (rowsOf ctx (numbered 0 db)) =
      .ok (pass2 ctx (numbered 0 db)) := Pass2.runChecked_eq hrows hfits ctx.world.guard
  have hlists : (pass2 ctx (numbered 0 db)).itemListsChecked =
      .ok (pass2 ctx (numbered 0 db)).itemLists :=
    Pass2.itemListsChecked_eq hrows hfits ctx.world.guard
  unfold passesChecked
  simp only [bind, Except.bind, hpass1, hpass2, hlists]
  rfl

theorem agrees_passesChecked (hwf : ∀ row ∈ db, row.WellFormed) :
    Agrees (LightDb db) (passesChecked ctx.minUtility ctx.world.guard (numbered 0 db))
      (.ok (pass2 ctx (numbered 0 db), filtered ctx (numbered 0 db))) :=
  (yields_passesChecked ctx _).under fun h => passesChecked_eq ctx hwf h.length_lt h.total_lt

theorem mineChecked_eq (hwf : ∀ row ∈ db, row.WellFormed) (hlen : db.length < 2 ^ 32)
    (htotal : statedTotal (numbered 0 db) < 2 ^ 63) :
    mineChecked ctx (numbered 0 db) = searchChecked ctx (numbered 0 db) := by
  unfold mineChecked
  rw [passesChecked_eq ctx hwf hlen htotal]
  exact bind_huisFound _

/-- A run overflows only in a join, and if no storage fails it does so exactly if the
sums of one do not fit. -/
theorem mineChecked_spec (hwf : ∀ row ∈ db, row.WellFormed) (hlen : db.length < 2 ^ 32)
    (htotal : statedTotal (numbered 0 db) < 2 ^ 63) {E : Fault → Prop}
    (hE : Task.Allows E ctx.world) :
    (∃ e, (E e ∨ e = .overflow ∧ ¬ RunFits ctx (numbered 0 db)) ∧
        mineChecked ctx (numbered 0 db) = .error e) ∨
      ∃ result, mineChecked ctx (numbered 0 db) = .ok result ∧ RunFits ctx (numbered 0 db) := by
  have hrows := filteredRows_filteredDb hwf hlen (pass1 ctx (numbered 0 db))
  have hfits : totalOf (rowsOf ctx (numbered 0 db)) < 2 ^ 63 :=
    (totalOf_filteredDb_le (numbered_wellFormed hwf 0) _).trans_lt htotal
  have hitems := forall₂_filtered ctx hwf hlen
  let start : World := { ctx.world with guard := (pass2 ctx (numbered 0 db)).guard }
  have hstart : Task.Allows E { start with lines := [] } := hE
  have htasks := UlMiner.itemTasksChecked_checks hrows hfits
    (miner_lawful (pass2 ctx (numbered 0 db)).eucs ctx.minUtility E) hstart hitems
    (filtered_sorted ctx _)
  have hiff : RunFits ctx (numbered 0 db) ↔ _ := UlMiner.searchFits_iff_taskFits _
  rw [hiff, mineChecked_eq ctx hwf hlen htotal, searchChecked]
  rcases executeTasks_checks ctx start htasks with ⟨e, he, hrun⟩ | ⟨w, hrun, hall⟩
  · exact Or.inl ⟨e, he, by rw [hrun]; rfl⟩
  · exact Or.inr ⟨_, by rw [hrun]; rfl, hall⟩

/-- The checked tasks of a run with a complete pair structure: their output is exact, or
they fault. -/
theorem executeTasks_checked_spec (hwf : ∀ row ∈ db, row.WellFormed) {E : Fault → Prop}
    (hE : Task.Allows E ctx.world) (heucs : (pass2 ctx (numbered 0 db)).oom = false)
    (hlen : db.length < 2 ^ 32) :
    (∃ e, (E e ∨ e = .overflow ∧ ¬ LightDb db) ∧
        executeTasks ctx { ctx.world with guard := (pass2 ctx (numbered 0 db)).guard }
          ((miner (pass2 ctx (numbered 0 db)).eucs ctx.minUtility).itemTasksChecked
            (filtered ctx (numbered 0 db))) = .error e) ∨
      ∃ w, executeTasks ctx { ctx.world with guard := (pass2 ctx (numbered 0 db)).guard }
          ((miner (pass2 ctx (numbered 0 db)).eucs ctx.minUtility).itemTasksChecked
            (filtered ctx (numbered 0 db))) = .ok w ∧
        w.huisFound = ctx.world.huisFound + w.lines.length ∧
        ExactOutput db ctx.minUtility w.lines := by
  have hrows := filteredRows_filteredDb hwf hlen (pass1 ctx (numbered 0 db))
  have hstart : Task.Allows E { ctx.world with guard := (pass2 ctx (numbered 0 db)).guard } := hE
  rcases UlMiner.executeTasks_itemTasksChecked (S := LightDb db) hrows
      (fun h => ⟨h.totalOf_lt hwf _, h.joinsFit hwf _⟩)
      (miner_lawful (pass2 ctx (numbered 0 db)).eucs ctx.minUtility E) ctx hstart
      (forall₂_filtered ctx hwf hlen) (filtered_sorted ctx _) with hfault | ⟨w, hrun, hsame⟩
  · exact Or.inl hfault
  · have hspec := run_spec_of_complete ctx hwf hE heucs hlen
    rw [run_map_ok ctx db hlen, hsame] at hspec
    rcases hspec with ⟨e, -, herror⟩ | ⟨w', hok, hexact⟩
    · cases herror
    · obtain rfl : w = w' := congrArg Prod.snd (Except.ok.inj hok)
      exact Or.inr ⟨w, hrun, hexact⟩

theorem runChecked_map_ok (db : List SpmfRow) :
    runChecked (db.map .ok) ctx =
      if db.length < 2 ^ 32 then mineChecked ctx (numbered 0 db) else .error .overflow := by
  unfold runChecked
  rw [readDb_map_ok]
  split
  · exact congrArg (mineChecked ctx) (okOnly_map_ok _)
  · rfl

/-- Where no storage fails, a checked run is the run, unless a sum overflows. -/
theorem agrees_runChecked (hwf : ∀ row ∈ db, row.WellFormed)
    (hpool : ∀ n, ctx.world.pool.fails n = false) :
    Agrees (LightDb db) (runChecked (db.map .ok) ctx) (run (db.map .ok) ctx) := by
  rw [runChecked_map_ok]
  split
  · rename_i hlen
    rw [run_map_ok ctx db hlen]
    refine (agrees_passesChecked ctx hwf).bind ?_
    refine (bind_huisFound _).symm ▸ (UlMiner.agrees_itemTasksChecked
      (filteredRows_filteredDb hwf hlen (pass1 ctx (numbered 0 db)))
      (fun h => ⟨h.totalOf_lt hwf _, h.joinsFit hwf _⟩) (miner_lawful _ _ _) ctx ?_
      (forall₂_filtered ctx hwf hlen) (filtered_sorted ctx _)).map _
    exact hpool
  · rename_i hlen
    exact Or.inr ⟨rfl, fun h => hlen h.length_lt⟩

/-- Where no storage fails, a run returns, or a sum or the counter of rows overflows. -/
theorem runChecked_returns (hwf : ∀ row ∈ db, row.WellFormed)
    (hpool : ∀ n, ctx.world.pool.fails n = false) :
    (∃ result, runChecked (db.map .ok) ctx = .ok result) ∨
      runChecked (db.map .ok) ctx = .error .overflow ∧ ¬ LightDb db := by
  refine (agrees_runChecked ctx hwf hpool).returns ?_
  by_cases hlen : db.length < 2 ^ 32
  · have hE : Task.Allows (fun _ => False) ctx.world := fun n hn => by simp [hpool n] at hn
    rcases run_spec ctx hwf hE hlen with ⟨e, he, -⟩ | ⟨w, lines, hrun, -⟩
    · exact he.elim
    · exact Or.inl ⟨_, hrun⟩
  · right
    rw [run, readDb_map_ok, if_neg hlen]
    exact ⟨rfl, fun h => hlen h.length_lt⟩

end Run

end Fhm

end AirHuim
