import AirHuim.Mining.Algorithms.EfimSearch

/-!
# EFIM is exact

EFIM writes every itemset of high utility that the search reaches.
-/

namespace AirHuim

open Library Basket

namespace Efim

/-! ## The search -/

section Search

variable {rank : ItemId → Utility ×ₗ ItemId} {rows : List FilteredTransaction}
  {B : List (Basket ItemId)} {P : Finset ItemId} {itemset : List ItemId} {env : Env} {w : World}
  {E : Fault → Prop}

theorem visitAll_eq (env : Env) (descend : List ItemId → EfimProj → Task Unit)
    (itemset : List ItemId) (proj : List ProjTx) (lu : Table ItemId Utility) (es : List ItemId) :
    visitAll env descend itemset proj lu es =
      visitAllWith (fun itemset _ => writeIfHigh env itemset) env descend itemset proj lu es := by
  induction es with
  | nil => rfl
  | cons item es ih =>
    rw [visitAll, visitAllWith, ih]
    rfl

theorem mineEfim_eq (env : Env) (fuel : ℕ) :
    mineEfim env fuel = mineWith (fun itemset _ => writeIfHigh env itemset) env fuel := by
  induction fuel with
  | zero => rfl
  | succ fuel ih =>
    funext itemset proj
    rw [mineEfim, mineWith, ih]
    apply bind_congr
    intro slice
    cases slice with
    | none => rfl
    | some proj =>
      cases proj with
      | nil => rfl
      | cons first rest => exact visitAll_eq env _ itemset (first :: rest) _ _

theorem itemTask_eq (env : Env) (fuel : ℕ) :
    itemTask env fuel = itemTaskWith (fun itemset _ => writeIfHigh env itemset) env fuel := by
  funext item
  rw [itemTask, itemTaskWith, mineEfim_eq]
  rfl

theorem writeIfHigh_spec (hnodup : itemset.Nodup) (hitemset : itemset.toFinset = P)
    (hne : P.Nonempty) (hocc : Occurs B P) :
    Task.Spec E (writeIfHigh env itemset (utility B P)) w fun out _ _ =>
      Covers B (fun X => HighUtility B env.minUtil X ∧ X = P) out := by
  subst hitemset
  unfold writeIfHigh
  split_ifs with hhigh
  · refine (Task.writeAndCount_spec _ _).mono le_rfl ?_
    rintro _ v _ rfl
    refine Covers.line hnodup rfl fun X => and_iff_right_of_imp ?_
    rintro rfl
    exact ⟨hne, hocc, hhigh⟩
  · refine Task.Spec.pure fun _ _ => Covers.nil ?_
    rintro X ⟨hX, rfl⟩
    exact hhigh hX.le

theorem writes_high (rank : ItemId → Utility ×ₗ ItemId) (rows : List FilteredTransaction)
    (E : Fault → Prop) (env : Env) : Writes rank rows E env.minUtil (fun _ => True)
      fun itemset _ => writeIfHigh env itemset := by
  intro itemset P w hnodup hitemset hne hocc
  apply (writeIfHigh_spec hnodup hitemset hne hocc).mono le_rfl
  intro out _ _ hout
  exact hout.congr fun X => by simp

end Search

/-! ## The run -/

section Run

variable {db : List SpmfRow} (ctx : MiningContext) (order : HashOrder)

theorem run_eq (source : DataSource) :
    run order source ctx = runWith (fun env itemset _ =>
      writeIfHigh env itemset) order source ctx := by
  simp only [run, runWith, itemTask_eq]

theorem run_map_ok (db : List SpmfRow) (hlen : db.length < 2 ^ 32) :
    run order (db.map .ok) ctx = (executeTasks ctx
      { ctx.world with guard := ctx.world.guard.forceAlloc (footprint ctx db) }
      ((primaryItems order (filterOf ctx db)).map
        (itemTask ⟨(rowsOf ctx db).map (loadTx (filterOf ctx db)), ctx.minUtility, order⟩
          ((primaryItems order (filterOf ctx db)).length + 1)))).map
      fun w => (w.huisFound, { w with guard := w.guard.free (footprint ctx db) }) := by
  simp only [run, readDb_map_ok, if_pos hlen]
  change Except.bind (Except.ok _) _ = _
  simp only [Except.bind, okOnly_map_ok, footprint]
  cases executeTasks ctx _ _ <;> rfl

/-- What a run writes. -/
theorem run_spec (hwf : ∀ row ∈ db, row.WellFormed)
    (hshort : ∀ row ∈ db, row.items.length < 2 ^ 16)
    (hpool : ∀ n, ctx.world.pool.fails n = false) (hlen : db.length < 2 ^ 32) :
    ∃ w lines, run order (db.map .ok) ctx = .ok (w.huisFound, w) ∧ w.lines.Perm lines ∧
      ExactOutput db ctx.minUtility lines := by
  have hwrite : ∀ env : Env, env.db = (rowsOf ctx db).map original →
      env.minUtil = ctx.minUtility → Writes (filterOf ctx db).rank (rowsOf ctx db)
        (fun _ => False) ctx.minUtility (fun _ => True) fun itemset _ =>
          writeIfHigh env itemset := by
    intro env _ hmin
    rw [← hmin]
    exact writes_high _ _ _ env
  obtain ⟨w, lines, hrun, hperm, hlists⟩ := runWith_spec ctx order hwrite hwf hshort hpool hlen
  simp only [and_true] at hlists
  exact ⟨w, lines, run_eq ctx order _ ▸ hrun, hperm, exactOutput_filteredDb hwf rfl hlists⟩

/-- EFIM is exact, whatever the guard answers and whatever the orders of its hash
maps. The first part says that a run on a database whose tids are `u32` does
return. -/
theorem exact_of_short (hwf : ∀ row ∈ db, row.WellFormed)
    (hshort : ∀ row ∈ db, row.items.length < 2 ^ 16)
    (hpool : ∀ n, ctx.world.pool.fails n = false) :
    (db.length < 2 ^ 32 → ∃ result, run order (db.map .ok) ctx = .ok result) ∧
      ∀ count w, run order (db.map .ok) ctx = .ok (count, w) →
        ExactOutput db ctx.minUtility w.lines := by
  constructor
  · intro hlen
    obtain ⟨w, _, hrun, -⟩ := run_spec ctx order hwf hshort hpool hlen
    exact ⟨_, hrun⟩
  · intro count w hrun
    have hlen := length_lt_of_readDb hrun
    obtain ⟨w', lines, hrun', hperm, hexact⟩ := run_spec ctx order hwf hshort hpool hlen
    rw [hrun'] at hrun
    obtain ⟨-, rfl⟩ := Prod.mk.inj (Except.ok.inj hrun)
    exact hexact.perm hperm.symm

theorem exact_of_short_tinyDb :
    ∃ result, run .stored (tinyDb.map .ok) (createCtx 45 none 30) = .ok result ∧
      ExactOutput tinyDb 45 result.2.lines := by
  have hwf : ∀ row ∈ tinyDb, row.WellFormed := by decide
  obtain ⟨hreturns, hexact⟩ :=
    exact_of_short (createCtx 45 none 30) .stored hwf (by decide) (fun _ => rfl)
  obtain ⟨result, hrun⟩ := hreturns (by decide)
  exact ⟨result, hrun, hexact result.1 result.2 hrun⟩

end Run

end Efim

end AirHuim
