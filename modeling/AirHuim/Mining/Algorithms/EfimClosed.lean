import AirHuim.Mining.Algorithms.CheckedWeights

/-!
# EFIM-Closed

EFIM with another test before an itemset is written: no further item of the first
transaction of its projection may stand in all the others. The search goes on
below an itemset that is not closed, so exactly the closed high-utility itemsets
are written.
-/

namespace AirHuim

open Library Basket

namespace EfimClosed

open Efim

/-- `in_all`: the candidate stands in all of these transactions. -/
def inAll (db : List OriginalTx) (proj : List ProjTx) (candidate : ItemId) : Bool :=
  proj.all fun tx => (db.getD tx.txIdx default).items.contains candidate

/-- `is_closed`, for the new itemset and its projection. -/
def isClosed (db : List OriginalTx) (itemset : List ItemId) : List ProjTx → Bool
  | [] => true
  | first :: rest => !(db.getD first.txIdx default).items.any fun candidate =>
      !itemset.contains candidate && inAll db rest candidate

/-- An itemset is written if it reaches the threshold and is closed. -/
def writeIfClosed (env : Env) : Writer := fun itemset proj util =>
  if env.minUtil ≤ util then
    if isClosed env.db itemset proj then Task.writeAndCount itemset util else return ()
  else return ()

/-- `mine_efim_closed`. -/
def mineEfimClosed (env : Env) : ℕ → List ItemId → EfimProj → Task Unit :=
  mineWith (writeIfClosed env) env

/-- `EfimClosed::run`: the count it returns and the world it leaves. -/
def run (order : HashOrder) (source : DataSource) (ctx : MiningContext) :
    Except Fault (ℕ × World) :=
  runWith writeIfClosed order source ctx

/-- `run`, whose weights are checked. -/
def runChecked (order : HashOrder) (source : DataSource) (ctx : MiningContext) :
    Except Fault (ℕ × World) :=
  runWithChecked writeIfClosed order source ctx

/-- The output has exactly the closed high-utility itemsets, each once. -/
abbrev ClosedOutput (db : List SpmfRow) (minUtility : Utility) (lines : List Line) : Prop :=
  Lists (fun l : Line => l.1.toFinset) lines
    (fun X => HighUtility (baskets db) minUtility X ∧ Closed (baskets db) X)
    fun l => l.1.Nodup ∧ (HighUtility (baskets db) minUtility l.1.toFinset ∧
      Closed (baskets db) l.1.toFinset) ∧ l.2 = utility (baskets db) l.1.toFinset

section Search

variable {rank : ItemId → Utility ×ₗ ItemId} {rows : List FilteredTransaction}
  {P : Finset ItemId} {itemset : List ItemId}

/-- What stands in the transaction of an entry. -/
theorem contains_entry {p : FilteredTransaction × ℕ} (hp : p ∈ rows.zipIdx) (x : ItemId) :
    ((rows.map original).getD (projEntry rank P p).txIdx default).items.contains x = true ↔
      x ∈ p.1.basket.items := by
  have htx : (projEntry rank P p).txIdx = p.2 := rfl
  rw [htx, getD_original hp, List.contains_iff_mem, FilteredTransaction.basket, mem_basketOf]
  exact List.mem_map

theorem inAll_iff {ps : List (FilteredTransaction × ℕ)} (hps : ∀ p ∈ ps, p ∈ rows.zipIdx)
    (x : ItemId) : inAll (rows.map original) (ps.map (projEntry rank P)) x = true ↔
      ∀ p ∈ ps, x ∈ p.1.basket.items := by
  rw [inAll, List.all_eq_true, List.forall_mem_map]
  exact forall₂_congr fun p hp => contains_entry (hps p hp) x

/-- The test sees all the transactions of the itemset. -/
theorem isClosed_iff (rank : ItemId → Utility ×ₗ ItemId) (hitemset : itemset.toFinset = P)
    (hocc : Occurs (rows.map FilteredTransaction.basket) P) :
    isClosed (rows.map original) itemset (projOf rank rows P) = true ↔
      Closed (rows.map FilteredTransaction.basket) P := by
  have hmem : ∀ p ∈ rows.zipIdx.filter (fun p => P ⊆ p.1.basket.items), p ∈ rows.zipIdx :=
    fun p => List.mem_of_mem_filter
  have hmemP : ∀ x, itemset.contains x = true ↔ x ∈ P := by
    intro x
    rw [List.contains_iff_mem, ← hitemset, List.mem_toFinset]
  have hrows : Closed (rows.map FilteredTransaction.basket) P ↔
      ∀ x ∉ P, ∃ p ∈ rows.zipIdx.filter (fun p => P ⊆ p.1.basket.items),
        x ∉ p.1.basket.items := by
    rw [closed_iff]
    apply forall₂_congr
    intro x _
    constructor
    · rintro ⟨b, hb, hP, hx⟩
      obtain ⟨r, hr, rfl⟩ := List.mem_map.mp hb
      obtain ⟨i, hi, rfl⟩ := List.getElem_of_mem hr
      have hzip : (rows[i], i) ∈ rows.zipIdx := List.mk_mem_zipIdx_iff_getElem?.mpr (by simp)
      exact ⟨(rows[i], i), List.mem_filter.mpr ⟨hzip, decide_eq_true hP⟩, hx⟩
    · rintro ⟨p, hp, hx⟩
      obtain ⟨hp, hP⟩ := List.mem_filter.mp hp
      exact ⟨p.1.basket, List.mem_map_of_mem (List.fst_mem_of_mem_zipIdx hp),
        of_decide_eq_true hP, hx⟩
  have hne := (projOf_ne_nil_iff rank rows P).mpr hocc
  rw [hrows]
  unfold projOf at hne ⊢
  cases hps : rows.zipIdx.filter (fun p => P ⊆ p.1.basket.items) with
  | nil =>
    rw [hps] at hne
    exact (hne rfl).elim
  | cons first rest =>
    rw [hps] at hmem
    have hfirst := hmem first List.mem_cons_self
    have hrest := fun p hp => hmem p (List.mem_cons_of_mem first hp)
    rw [List.map_cons, isClosed, Bool.not_eq_true', Bool.eq_false_iff, Ne, List.any_eq_true]
    constructor
    · intro hnone x hx
      by_contra hall
      push Not at hall
      apply hnone
      have hx₁ : ((rows.map original).getD (projEntry rank P first).txIdx
          default).items.contains x = true :=
        (contains_entry hfirst x).mpr (hall first List.mem_cons_self)
      refine ⟨x, List.contains_iff_mem.mp hx₁, ?_⟩
      rw [Bool.and_eq_true, inAll_iff hrest, Bool.not_eq_true', Bool.eq_false_iff, Ne, hmemP]
      exact ⟨hx, fun p hp => hall p (List.mem_cons_of_mem first hp)⟩
    · rintro hall ⟨x, hx, htest⟩
      rw [Bool.and_eq_true, inAll_iff hrest, Bool.not_eq_true', Bool.eq_false_iff, Ne, hmemP]
        at htest
      obtain ⟨p, hp, hxp⟩ := hall x htest.1
      rcases List.mem_cons.mp hp with rfl | hp
      · exact hxp ((contains_entry hfirst x).mp (List.contains_iff_mem.mpr hx))
      · exact hxp (htest.2 p hp)

theorem writes_closed (rank : ItemId → Utility ×ₗ ItemId) (E : Fault → Prop) {env : Env}
    (hdb : env.db = rows.map original) : Writes rank rows E env.minUtil
      (Closed (rows.map FilteredTransaction.basket)) (writeIfClosed env) := by
  intro itemset P w hnodup hitemset hne hocc
  have hclosed := isClosed_iff rank hitemset hocc
  subst hitemset
  unfold writeIfClosed
  rw [hdb]
  split_ifs with hhigh hcl
  · apply (Task.writeAndCount_spec _ _).mono le_rfl
    rintro _ v _ rfl
    apply Covers.line hnodup rfl
    intro X
    apply and_iff_right_of_imp
    rintro rfl
    exact ⟨⟨hne, hocc, hhigh⟩, hclosed.mp hcl⟩
  · apply Task.Spec.pure
    intro _ _
    apply Covers.nil
    rintro X ⟨⟨-, hX⟩, rfl⟩
    exact hcl (hclosed.mpr hX)
  · apply Task.Spec.pure
    intro _ _
    apply Covers.nil
    rintro X ⟨⟨hX, -⟩, rfl⟩
    exact hhigh hX.le

end Search

section Run

variable {db : List SpmfRow} (ctx : MiningContext) (order : HashOrder)

/-- What a run writes. -/
theorem run_spec (hwf : ∀ row ∈ db, row.WellFormed)
    (hshort : ∀ row ∈ db, row.items.length < 2 ^ 16)
    (hpool : ∀ n, ctx.world.pool.fails n = false) (hlen : db.length < 2 ^ 32) :
    ∃ w, run order (db.map .ok) ctx = .ok (w.huisFound, w) ∧
      ClosedOutput db ctx.minUtility w.lines := by
  have hwrite : ∀ env : Env, env.db = (rowsOf ctx db).map original →
      env.minUtil = ctx.minUtility → Writes (filterOf ctx db).rank (rowsOf ctx db)
        (fun _ => False) ctx.minUtility (Closed ((rowsOf ctx db).map FilteredTransaction.basket))
        (writeIfClosed env) := by
    intro env hdb hmin
    rw [← hmin]
    exact writes_closed _ _ hdb
  obtain ⟨w, lines, hrun, hperm, hlists⟩ := runWith_spec ctx order hwrite hwf hshort hpool hlen
  refine ⟨w, hrun, Lists.perm ?_ hperm.symm⟩
  have hnumbered := numbered_wellFormed hwf 0
  rw [← map_basket_numbered 0 db]
  apply hlists.mono
  · rintro X ⟨hX, hclosed⟩
    exact ⟨(highUtility_filteredDb hnumbered X).mpr hX,
      (closed_filteredDb hnumbered hX).mpr hclosed⟩
  · rintro l - ⟨hnodup, hu, hX, hclosed⟩
    have hhigh := (highUtility_filteredDb hnumbered _).mp hX
    have hpass := passes_of_occurs_filteredDb hnumbered hX.occurs
    have hutil := (utility_filteredDb hnumbered _ hX.nonempty hpass).1
    exact ⟨hnodup, ⟨hhigh, (closed_filteredDb hnumbered hhigh).mp hclosed⟩, hu.trans hutil⟩

/-- EFIM-Closed writes exactly the closed high-utility itemsets, each once,
whatever the guard answers and whatever the orders of its hash maps. The first
part says that a run returns, unless there are more transactions than tids or the
weight of an item leaves its range. -/
theorem exact_of_closed (hwf : ∀ row ∈ db, row.WellFormed)
    (hshort : ∀ row ∈ db, row.items.length < 2 ^ 16)
    (hpool : ∀ n, ctx.world.pool.fails n = false) :
    ((∃ result, runChecked order (db.map .ok) ctx = .ok result) ∨
        runChecked order (db.map .ok) ctx = .error .overflow ∧
          ¬ (db.length < 2 ^ 32 ∧ TwuFilter.SumsFit (numbered 0 db))) ∧
      ∀ count w, runChecked order (db.map .ok) ctx = .ok (count, w) →
        ClosedOutput db ctx.minUtility w.lines := by
  have hrun : runChecked order (db.map .ok) ctx =
      if TwuFilter.SumsFit (numbered 0 db) then run order (db.map .ok) ctx else .error .overflow :=
    runWithChecked_map_ok order ctx db writeIfClosed
  rw [hrun]
  by_cases hfit : TwuFilter.SumsFit (numbered 0 db)
  · rw [if_pos hfit]
    by_cases hlen : db.length < 2 ^ 32
    · obtain ⟨w, hreturns, hexact⟩ := run_spec ctx order hwf hshort hpool hlen
      refine ⟨Or.inl ⟨_, hreturns⟩, fun count w' hrun' => ?_⟩
      rw [hreturns] at hrun'
      obtain ⟨-, rfl⟩ := Prod.mk.inj (Except.ok.inj hrun')
      exact hexact
    · refine ⟨Or.inr ⟨?_, fun h => hlen h.1⟩, fun count w hrun' => ?_⟩
      · rw [run, runWith, readDb_map_ok, if_neg hlen]
        rfl
      · exact (hlen (length_lt_of_readDb hrun')).elim
  · rw [if_neg hfit]
    refine ⟨Or.inr ⟨rfl, fun h => hfit h.2⟩, fun count w hrun' => ?_⟩
    cases hrun'

theorem exact_of_closed_tinyDb :
    ∃ result, runChecked .stored (tinyDb.map .ok) (createCtx 45 none 30) = .ok result ∧
      ClosedOutput tinyDb 45 result.2.lines := by
  have hwf : ∀ row ∈ tinyDb, row.WellFormed := by decide
  have hfits : tinyDb.length < 2 ^ 32 ∧ TwuFilter.SumsFit (numbered 0 tinyDb) :=
    ⟨by decide, by decide⟩
  obtain ⟨hreturns, hexact⟩ :=
    exact_of_closed (createCtx 45 none 30) .stored hwf (by decide) (fun _ => rfl)
  obtain ⟨result, hrun⟩ := hreturns.resolve_right fun h => h.2 hfits
  exact ⟨result, hrun, hexact result.1 result.2 hrun⟩

theorem closed_heavyDb : Closed (baskets heavyDb) {1} := by
  refine closed_iff.mpr fun y hy => ?_
  have hone : y ≠ 1 := fun h => hy (Finset.mem_singleton.mpr h)
  have hfirst : ∃ b ∈ baskets heavyDb, b.items = {1, 2} := by decide
  have hsecond : ∃ b ∈ baskets heavyDb, b.items = {1, 3} := by decide
  by_cases htwo : y = 2
  · obtain ⟨b, hb, hitems⟩ := hsecond
    exact ⟨b, hb, by simp [hitems], by simp [hitems, htwo]⟩
  · obtain ⟨b, hb, hitems⟩ := hfirst
    exact ⟨b, hb, by simp [hitems], by simp [hitems, hone, htwo]⟩

/-- On the heavy database the run ends in an overflow, although `{1}` is closed and worth
the threshold. -/
theorem not_exact_heavyDb :
    (¬ ∃ result, runChecked .stored (heavyDb.map .ok) (createCtx 2 none 1073741824) =
        .ok result ∧ ClosedOutput heavyDb 2 result.2.lines) ∧
      HighUtility (baskets heavyDb) 2 {1} ∧ Closed (baskets heavyDb) {1} := by
  have hfits : ¬ TwuFilter.SumsFit (numbered 0 heavyDb) := by decide
  refine ⟨?_, by decide, closed_heavyDb⟩
  rintro ⟨result, hrun, -⟩
  have hoverflow : runChecked .stored (heavyDb.map .ok) (createCtx 2 none 1073741824) = _ :=
    runWithChecked_map_ok .stored (createCtx 2 none 1073741824) heavyDb writeIfClosed
  rw [hoverflow, if_neg hfits] at hrun
  cases hrun

end Run

end EfimClosed

end AirHuim
