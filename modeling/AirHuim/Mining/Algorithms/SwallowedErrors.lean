import AirHuim.Mining.Algorithms.CheckedWeights
import AirHuim.Mining.StorageFailures

/-!
# Errors that Two-Phase and EFIM swallow

Both miners return a result although an operation of the pool failed during the
search: the part of the search that needed it is dropped. Two-Phase also returns
one, with nothing in it, when the guard refuses the weights of the transactions.
Without such a failure the output is complete.
-/

namespace AirHuim

open Library Basket

/-- The output has every high-utility itemset, with its utility. -/
def Complete (db : List SpmfRow) (minUtility : Utility) (lines : List Line) : Prop :=
  ∀ X, HighUtility (baskets db) minUtility X → (X, utility (baskets db) X) ∈ emitted lines

theorem ExactOutput.complete_emitted {db : List SpmfRow} {minUtility : Utility} {lines : List Line}
    (h : ExactOutput db minUtility lines) : Complete db minUtility lines :=
  fun X hX => (h.mem_emitted X _).mpr ⟨hX, rfl⟩

theorem mem_emitted_of_mem {lines : List Line} {x : ItemId} {u : Utility}
    (h : ([x], u) ∈ lines) : ({x}, u) ∈ emitted lines :=
  List.mem_toFinset.mpr (List.mem_map.mpr ⟨([x], u), h, rfl⟩)

namespace TwoPhase

variable {db : List SpmfRow} {ctx : MiningContext}

/-- The tasks of a run over this index. -/
def tasksOf (ctx : MiningContext) (db : List SpmfRow) (pages : List PageId) : List (Task Unit) :=
  (List.range (indexOf ctx db pages).orig.length).map (itemTask (indexOf ctx db pages))

/-- A run once its index is built. -/
theorem run_of_builtIndex (hlen : db.length < 2 ^ 32) {pages : List PageId} {w : World}
    (hbuilt : builtIndex ctx db = .ok (pages, w)) :
    run (db.map .ok) ctx =
      if (w.guard.tryAlloc (db.length * 8)).1 then
        (executeTasks ctx { w with guard := (w.guard.tryAlloc (db.length * 8)).2 }
          (tasksOf ctx db pages)).map
          fun w => (w.huisFound, { w with guard := w.guard.free (db.length * 8) })
      else .ok (0, { w with guard := (w.guard.tryAlloc (db.length * 8)).2 }) := by
  cases hguard : (w.guard.tryAlloc (db.length * 8)).1 with
  | true => exact run_map_ok ctx db hlen hbuilt hguard
  | false =>
    unfold builtIndex at hbuilt
    simp only [run, readDb_map_ok, if_pos hlen]
    change Except.bind ((List.map Except.ok (numbered 0 db)).mapM id) _ = _
    rw [mapM_id_map_ok]
    simp only [Except.bind, bind, hbuilt, List.length_map, length_numbered, hguard]
    rfl

theorem exists_builtIndex_of_run {result : ℕ × World}
    (h : run (db.map .ok) ctx = .ok result) : ∃ built, builtIndex ctx db = .ok built := by
  have hlen := length_lt_of_readDb h
  cases hbuilt : builtIndex ctx db with
  | ok built => exact ⟨built, rfl⟩
  | error e =>
    unfold builtIndex at hbuilt
    simp only [run, readDb_map_ok, if_pos hlen] at h
    change Except.bind ((List.map Except.ok (numbered 0 db)).mapM id) _ = _ at h
    rw [mapM_id_map_ok] at h
    simp only [Except.bind, bind, hbuilt] at h
    cases h

theorem insertPages_cons_ok_iff {entries : List TxEntry} {lists : List (List TxEntry)}
    {w w' : World} {pages : List PageId} :
    insertPages (entries :: lists) w = .ok (pages, w') ↔
      ∃ pageId rest, (world.exec (.newPage (serializeTxEntries entries)) w).1 = .ok pageId ∧
        insertPages lists (world.exec (.newPage (serializeTxEntries entries)) w).2 =
          .ok (rest, w') ∧
        pages = pageId :: rest := by
  rw [insertPages]
  cases (world.exec (.newPage (serializeTxEntries entries)) w).1 with
  | error e => simp [bind, Except.bind]
  | ok pageId =>
    cases insertPages lists (world.exec (.newPage (serializeTxEntries entries)) w).2 with
    | error e => simp [bind, Except.bind]
    | ok result => simp [bind, Except.bind, pure, Except.pure, Prod.ext_iff, eq_comm, and_comm]

theorem insertPages_frame {lists : List (List TxEntry)} {w w' : World} {pages : List PageId}
    (h : insertPages lists w = .ok (pages, w')) :
    w'.guard = w.guard ∧ w'.lines = w.lines ∧ w.pool.clock ≤ w'.pool.clock := by
  induction lists generalizing w pages with
  | nil =>
    cases h
    exact ⟨rfl, rfl, le_rfl⟩
  | cons entries lists ih =>
    obtain ⟨pageId, rest, -, hrest, -⟩ := insertPages_cons_ok_iff.mp h
    obtain ⟨hguard, hlines, hclock⟩ := ih hrest
    exact ⟨hguard, hlines, (World.clock_le_exec _ w).trans hclock⟩

/-- Building the index in the copy of the world. -/
theorem insertPages_copy {lists : List (List TxEntry)} {f : ℕ → Bool} {N : ℕ} {w v w' : World}
    {pages : List PageId} (h : insertPages lists w = .ok (pages, w'))
    (hcopy : World.Copy f N w v) (hN : w'.Before N) :
    ∃ v', insertPages lists v = .ok (pages, v') ∧ World.Copy f N w' v' := by
  induction lists generalizing w v pages with
  | nil =>
    cases h
    exact ⟨v, rfl, hcopy⟩
  | cons entries lists ih =>
    obtain ⟨pageId, rest, hpage, hrest, rfl⟩ := insertPages_cons_ok_iff.mp h
    have hbefore : World.Before N (world.exec (.newPage (serializeTxEntries entries)) w).2 :=
      (insertPages_frame hrest).2.2.trans hN
    obtain ⟨hanswer, hnext⟩ := hcopy.exec (.newPage (serializeTxEntries entries)) hbefore
    obtain ⟨v', hrun, hcopy'⟩ := ih hrest hnext
    rw [hanswer] at hpage
    exact ⟨v', insertPages_cons_ok_iff.mpr ⟨pageId, rest, hpage, hrun, rfl⟩, hcopy'⟩

/-- A run sees of the pattern of failures no more than its own operations. -/
theorem run_copy {f : ℕ → Bool} {count : ℕ} {w : World}
    (hrun : run (db.map .ok) ctx = .ok (count, w))
    (hagree : ∀ n, ctx.world.pool.clock ≤ n → n < w.pool.clock → ctx.world.pool.fails n = f n) :
    run (db.map .ok) (ctx.withFails f) = .ok (count, w.withFails f) := by
  have hlen := length_lt_of_readDb hrun
  have hcopy : World.Copy f w.pool.clock ctx.world (ctx.withFails f).world := ⟨rfl, hagree⟩
  obtain ⟨⟨pages, w₁⟩, hbuilt⟩ := exists_builtIndex_of_run hrun
  rw [run_of_builtIndex hlen hbuilt] at hrun
  cases hadmitted : (w₁.guard.tryAlloc (db.length * 8)).1 with
  | false =>
    simp only [hadmitted, Bool.false_eq_true, if_false] at hrun
    obtain ⟨rfl, rfl⟩ := Prod.mk.inj (Except.ok.inj hrun)
    obtain ⟨v₁, hbuilt', rfl, -⟩ := insertPages_copy hbuilt hcopy (le_refl w₁.pool.clock)
    have hbuilt' : builtIndex (ctx.withFails f) db = .ok (pages, w₁.withFails f) := hbuilt'
    rw [run_of_builtIndex hlen hbuilt']
    simp only [World.withFails, hadmitted, Bool.false_eq_true, if_false]
  | true =>
    simp only [hadmitted, if_true] at hrun
    cases htasks : executeTasks ctx { w₁ with guard := (w₁.guard.tryAlloc (db.length * 8)).2 }
        (tasksOf ctx db pages) with
    | error e =>
      rw [htasks] at hrun
      cases hrun
    | ok w₂ =>
      rw [htasks] at hrun
      obtain ⟨rfl, rfl⟩ := Prod.mk.inj (Except.ok.inj hrun)
      have hbefore : World.Before w₂.pool.clock
          { w₁ with guard := (w₁.guard.tryAlloc (db.length * 8)).2 } :=
        executeTasks_before htasks (le_refl w₂.pool.clock)
      obtain ⟨v₁, hbuilt', hcopy₁⟩ := insertPages_copy hbuilt hcopy hbefore
      obtain ⟨v₂, htasks', rfl, -⟩ := executeTasks_copy htasks
        (hcopy₁.setGuard (w₁.guard.tryAlloc (db.length * 8)).2) (le_refl w₂.pool.clock)
      obtain ⟨rfl, -⟩ := hcopy₁
      have hbuilt' : builtIndex (ctx.withFails f) db = .ok (pages, w₁.withFails f) := hbuilt'
      rw [run_of_builtIndex hlen hbuilt']
      have hadmitted' : ((w₁.withFails f).guard.tryAlloc (db.length * 8)).1 = true := hadmitted
      simp only [hadmitted', if_true]
      exact congrArg (Except.map fun w : World =>
        (w.huisFound, { w with guard := w.guard.free (db.length * 8) })) htasks'

/-- A run that was refused the weights has written nothing. -/
theorem lines_of_refused {count : ℕ} {w : World} (hrun : run (db.map .ok) ctx = .ok (count, w))
    (hrefused : (ctx.world.guard.tryAlloc (db.length * 8)).1 = false) :
    w.lines = ctx.world.lines := by
  obtain ⟨⟨pages, w₁⟩, hbuilt⟩ := exists_builtIndex_of_run hrun
  obtain ⟨hguard, hlines, -⟩ := insertPages_frame hbuilt
  rw [run_of_builtIndex (length_lt_of_readDb hrun) hbuilt, hguard, hrefused] at hrun
  obtain ⟨-, rfl⟩ := Prod.mk.inj (Except.ok.inj hrun)
  exact hlines

/-- When no operation of a run has failed, its output is complete if and only if
the weights were admitted or the file it did not touch was. -/
theorem complete_iff_of_unfailed (hwf : ∀ row ∈ db, row.WellFormed) {count : ℕ} {w : World}
    (hrun : run (db.map .ok) ctx = .ok (count, w)) (hunfailed : ctx.world.Unfailed w) :
    Complete db ctx.minUtility w.lines ↔
      (ctx.world.guard.tryAlloc (db.length * 8)).1 = true ∨
        Complete db ctx.minUtility ctx.world.lines := by
  cases hadmitted : (ctx.world.guard.tryAlloc (db.length * 8)).1 with
  | false =>
    rw [lines_of_refused hrun hadmitted]
    simp
  | true =>
    simp only [true_or, iff_true]
    have hrun' := run_copy hrun hunfailed
    obtain ⟨w', lines, hspec, hperm, hexact⟩ := run_spec (ctx.withFails fun _ => false) hwf
      (fun _ => rfl) hadmitted (length_lt_of_readDb hrun)
    rw [hrun'] at hspec
    obtain ⟨-, rfl⟩ := Prod.mk.inj (Except.ok.inj hspec)
    have hexact : ExactOutput db ctx.minUtility w.lines := hexact.perm hperm.symm
    exact hexact.complete_emitted

/-! ### Patterns of failures -/

theorem extend_allFail {A : Line → Prop} (ix : Index) (itemset : List ItemId) (tids : List DfsNode)
    (es : List ℕ) :
    (extend ix itemset tids es).Under World.AllFail A
      fun r => ∀ list, r = .ok list → list = [] := by
  cases es with
  | nil =>
    apply Task.Under.pure
    intro list hlist
    exact (Except.ok.inj hlist).symm
  | cons i es =>
    unfold extend
    apply (Task.Under.bind_fails (Task.Under.pin (fun _ hw => hw) _)).mono
    intro r hr list hlist
    exact (hr list hlist).elim

/-- The search of an item writes nothing where every operation fails. -/
theorem dfs_allFail {A : Line → Prop} (ix : Index) (fuel : ℕ) (itemset : List ItemId)
    (es : List ℕ) (tids : List DfsNode) :
    (dfs ix fuel itemset es tids).Under World.AllFail A fun _ => True := by
  cases fuel with
  | zero => exact Task.Under.throw trivial
  | succ fuel =>
    unfold dfs
    apply Task.Under.bind (extend_allFail ix itemset tids es)
    · intro list hlist
      rw [hlist list rfl]
      exact Task.Under.pure trivial
    · exact fun _ _ => trivial

/-- Where every operation fails, the task of an item takes its utility for zero. -/
theorem itemTask_allFail (ix : Index) (i : ℕ) :
    (itemTask ix i).Under World.AllFail (fun l => ∃ x, l = ([x], 0)) fun r => r = .ok () := by
  unfold itemTask
  apply Task.Under.bind
    (Task.Under.okOr_fails (Task.Under.bind_fails (Task.Under.pin (fun _ hw => hw) _)))
  · intro nodes hnodes
    rw [Except.ok.inj hnodes]
    apply Task.Under.bind (R := fun r => r = .ok ())
    · unfold writeSingle
      split_ifs
      · exact Task.Under.writeAndCount ⟨_, rfl⟩
      · exact Task.Under.pure rfl
    · intro _ _
      exact Task.Under.okOr (dfs_allFail ix _ _ _ _) (fun _ _ => rfl) fun _ _ => rfl
    · exact fun _ h => h
  · intro _ h
    cases h

/-- If every operation after the index is built fails, the run returns, with no
more than single items of utility zero. -/
theorem exists_failures (hlen : db.length < 2 ^ 32)
    (hadmitted : (ctx.world.guard.tryAlloc (db.length * 8)).1 = true) :
    ∃ f count w, run (db.map .ok) (ctx.withFails f) = .ok (count, w) ∧
      ∀ l ∈ w.lines, ∃ x, l = ([x], 0) := by
  obtain ⟨pages, w, hbuilt, hle, hguard, -⟩ := insertPages_spec
    (vertDb (validItems ctx.minUtility (numbered 0 db)) 0 (numbered 0 db)
      ((validItems ctx.minUtility (numbered 0 db)).map fun _ => []))
    (w := ctx.world.withFails fun _ => false) fun _ => rfl
  have hadmitted : (w.guard.tryAlloc (db.length * 8)).1 = true := by
    rw [hguard]
    exact hadmitted
  set f : ℕ → Bool := fun n => decide (w.pool.clock ≤ n) with hf
  have hcopy : World.Copy f w.pool.clock (ctx.world.withFails fun _ => false)
      (ctx.withFails f).world := by
    refine ⟨rfl, fun n _ hn => ?_⟩
    simp [hf, World.withFails, hn]
  obtain ⟨v, hbuilt', rfl, -⟩ := insertPages_copy hbuilt hcopy (le_refl w.pool.clock)
  have hbuilt' : builtIndex (ctx.withFails f) db = .ok (pages, w.withFails f) := hbuilt'
  have htask : ∀ t ∈ tasksOf ctx db pages,
      t.Under World.AllFail (fun l => ∃ x, l = ([x], 0)) fun r => r = .ok () := by
    intro t ht
    obtain ⟨i, -, rfl⟩ := List.mem_map.mp ht
    exact itemTask_allFail _ i
  obtain ⟨w₂, htasks, hlines⟩ := executeTasks_under World.AllFail.exec ctx
    (w := { w.withFails (fun _ => true) with guard := (w.guard.tryAlloc (db.length * 8)).2 })
    (fun _ => rfl) htask
  have hcopy₁ : World.Copy f w₂.pool.clock
      { w.withFails (fun _ => true) with guard := (w.guard.tryAlloc (db.length * 8)).2 }
      { w.withFails f with guard := (w.guard.tryAlloc (db.length * 8)).2 } := by
    refine ⟨rfl, fun n hn _ => ?_⟩
    change w.pool.clock ≤ n at hn
    simp [hf, World.withFails, hn]
  obtain ⟨v₂, htasks', rfl, -⟩ := executeTasks_copy htasks hcopy₁ (le_refl w₂.pool.clock)
  refine ⟨f, w₂.huisFound, { w₂.withFails f with guard := w₂.guard.free (db.length * 8) }, ?_,
    hlines⟩
  rw [run_of_builtIndex hlen hbuilt']
  have hadmitted' : ((w.withFails f).guard.tryAlloc (db.length * 8)).1 = true := hadmitted
  simp only [hadmitted', if_true]
  exact congrArg (Except.map fun w : World =>
    (w.huisFound, { w with guard := w.guard.free (db.length * 8) })) htasks'

/-- The pages of an index that was built hold their lists, whatever fails
afterwards. -/
theorem insertPages_holds {lists : List (List TxEntry)} {w w' : World} {pages : List PageId}
    (h : insertPages lists w = .ok (pages, w')) :
    w ≤ w' ∧ List.Forall₂ (fun page entries => w'.pool.Holds page (serializeTxEntries entries))
      pages lists := by
  induction lists generalizing w pages with
  | nil =>
    cases h
    exact ⟨le_rfl, List.Forall₂.nil⟩
  | cons entries lists ih =>
    obtain ⟨pageId, rest, hpage, hrest, rfl⟩ := insertPages_cons_ok_iff.mp h
    obtain ⟨hle, hpages⟩ := ih hrest
    have hid : (world.exec (.newPage (serializeTxEntries entries)) w).2.pool.Holds pageId
        (serializeTxEntries entries) := by
      simp only [PagePool.newPage] at hpage ⊢
      split_ifs at hpage ⊢
      obtain rfl := Except.ok.inj hpage
      exact ⟨Nat.lt_succ_self _, Function.update_self ..⟩
    exact ⟨(World.le_exec _ w).trans hle, List.Forall₂.cons (hid.mono hle) hpages⟩

/-- An item worth nothing is written whatever fails. -/
theorem itemTask_zero {txs : List RawTransaction} {ix : Index} {w : World}
    (h : Rows txs ix.txTwus) (hix : ix.Holds txs w) {i : ℕ} (hi : i < ix.orig.length)
    (hzero : utility (txs.map RawTransaction.basket) {ix.item i} = 0) (hmin : ix.minUtil ≤ 0) :
    Task.Spec (fun _ => True) (itemTask ix i) w fun out _ _ => .writeHui [ix.item i] 0 ∈ out := by
  have hpin : Task.Spec (fun _ => True) (do
      let bytes ← Task.pin (ix.vertDbPages.getD i 0)
      return (deserializeTxEntries bytes).map fun e => DfsNode.mk e.txIdx e.util) w
      fun _ _ nodes => (nodes.map DfsNode.utilPrefix).sum = 0 := by
    apply Task.Spec.bind (Task.pin_spec (fun _ _ => trivial) (hix i hi))
    rintro _ v _ _ ⟨-, rfl⟩
    apply Task.Spec.pure
    intro _ _
    rw [deserializeTxEntries_entriesAt h, map_entriesAt, sum_nodesOf, hzero]
  unfold itemTask
  apply Task.Spec.bind (Task.Spec.okOr_result hpin rfl)
  intro _ v nodes _ hnodes
  have hwrite : writeSingle ix [ix.item i] (nodes.map DfsNode.utilPrefix).sum =
      Task.writeAndCount [ix.item i] 0 := by
    rw [hnodes]
    exact if_pos hmin
  have hwritten : Task.Spec (fun _ => True)
      (writeSingle ix [ix.item i] (nodes.map DfsNode.utilPrefix).sum) v
      fun out _ _ => out = writeOps ([ix.item i], 0) := by
    rw [hwrite]
    exact Task.writeAndCount_spec _ _
  apply Task.Spec.bind hwritten
  rintro _ v' _ _ rfl
  apply (Task.Spec.any _ v').mono le_rfl
  intro _ _ _ _
  simp [writeOps]

theorem mem_lines_of_zero (hwf : ∀ row ∈ db, row.WellFormed) {count : ℕ} {w : World}
    (hrun : run (db.map .ok) ctx = .ok (count, w))
    (hadmitted : (ctx.world.guard.tryAlloc (db.length * 8)).1 = true) {x : ItemId}
    (hhigh : HighUtility (baskets db) ctx.minUtility {x})
    (hzero : utility (baskets db) {x} = 0) : ([x], 0) ∈ w.lines := by
  have hlen := length_lt_of_readDb hrun
  have hrows := rows_numbered hwf hlen
  have hnodup := nodup_validItems ctx.minUtility (numbered 0 db)
  obtain ⟨⟨pages, w₁⟩, hbuilt⟩ := exists_builtIndex_of_run hrun
  have hguard := (insertPages_frame hbuilt).1
  have hpages := (insertPages_holds hbuilt).2
  rw [vertDb_eq hnodup hwf] at hpages
  rw [run_of_builtIndex hlen hbuilt, hguard, if_pos hadmitted] at hrun
  set ix := indexOf ctx db pages with hix
  have hholds : ix.Holds (numbered 0 db) w₁ := by
    intro i hi
    have := getD_of_forall₂ hpages 0 (i := i) (by rwa [List.length_map])
    rw [List.getElem_map] at this
    rw [Index.item_eq hi]
    exact this
  rw [← map_basket_numbered 0 db] at hhigh hzero
  have hvalid : x ∈ ix.orig :=
    (mem_validItems hrows.wellFormed ctx.minUtility x).mpr
      ⟨hhigh.occurs, hhigh.le.trans (utility_le_twuOf hrows.wellFormed subset_rfl)⟩
  obtain ⟨i, hi, rfl⟩ := List.getElem_of_mem hvalid
  rw [← Index.item_eq hi] at hzero hhigh ⊢
  cases htasks : executeTasks ctx
      { w₁ with guard := (ctx.world.guard.tryAlloc (db.length * 8)).2 } (tasksOf ctx db pages) with
  | error e =>
    rw [htasks] at hrun
    cases hrun
  | ok w₂ =>
    rw [htasks] at hrun
    obtain ⟨-, rfl⟩ := Prod.mk.inj (Except.ok.inj hrun)
    have htask : itemTask ix i ∈ tasksOf ctx db pages := List.mem_map_of_mem (List.mem_range.mpr hi)
    have hspec := itemTask_zero (w := { w₁ with
      guard := (ctx.world.guard.tryAlloc (db.length * 8)).2
      lines := [] }) hrows hholds hi hzero (hzero ▸ hhigh.le)
    exact mem_lines_of_executeTasks (l := ([ix.item i], 0)) htasks htask hspec

/-- The output is complete under every pattern of failures if and only if all there
is to find are single items worth nothing. -/
theorem complete_iff_of_failures (hwf : ∀ row ∈ db, row.WellFormed)
    (hadmitted : (ctx.world.guard.tryAlloc (db.length * 8)).1 = true) :
    (∀ f count w, run (db.map .ok) (ctx.withFails f) = .ok (count, w) →
        Complete db ctx.minUtility w.lines) ↔
      (db.length < 2 ^ 32 → ∀ X, HighUtility (baskets db) ctx.minUtility X →
        X.card = 1 ∧ utility (baskets db) X = 0) := by
  constructor
  · intro hcomplete hlen X hX
    obtain ⟨f, count, w, hrun, hlines⟩ := exists_failures hlen hadmitted
    obtain ⟨l, hl, heq⟩ := List.mem_map.mp (List.mem_toFinset.mp (hcomplete f count w hrun X hX))
    obtain ⟨x, rfl⟩ := hlines l hl
    obtain ⟨rfl, hu⟩ := Prod.mk.inj heq
    exact ⟨Finset.card_singleton x, hu.symm⟩
  · intro hzero f count w hrun X hX
    obtain ⟨hcard, hu⟩ := hzero (length_lt_of_readDb hrun) X hX
    obtain ⟨x, rfl⟩ := Finset.card_eq_one.mp hcard
    rw [hu]
    exact mem_emitted_of_mem (mem_lines_of_zero hwf hrun hadmitted hX hu)

end TwoPhase

namespace Efim

variable {db : List SpmfRow} {ctx : MiningContext} {order : HashOrder}

/-- A run sees of the pattern of failures no more than its own operations. -/
theorem run_copy {f : ℕ → Bool} {count : ℕ} {w : World}
    (hrun : run order (db.map .ok) ctx = .ok (count, w))
    (hagree : ∀ n, ctx.world.pool.clock ≤ n → n < w.pool.clock → ctx.world.pool.fails n = f n) :
    run order (db.map .ok) (ctx.withFails f) = .ok (count, w.withFails f) := by
  have hlen := length_lt_of_readDb hrun
  have hcopy : World.Copy f w.pool.clock ctx.world (ctx.withFails f).world := ⟨rfl, hagree⟩
  rw [run_map_ok ctx order db hlen] at hrun
  cases htasks : executeTasks ctx { ctx.world with
      guard := ctx.world.guard.forceAlloc (footprint ctx db) }
      ((primaryItems order (filterOf ctx db)).map
        (itemTask ⟨(rowsOf ctx db).map (loadTx (filterOf ctx db)), ctx.minUtility, order⟩
          ((primaryItems order (filterOf ctx db)).length + 1))) with
  | error e =>
    rw [htasks] at hrun
    cases hrun
  | ok w₁ =>
    rw [htasks] at hrun
    obtain ⟨rfl, rfl⟩ := Prod.mk.inj (Except.ok.inj hrun)
    obtain ⟨v₁, htasks', rfl, -⟩ := executeTasks_copy htasks
      (hcopy.setGuard (ctx.world.guard.forceAlloc (footprint ctx db))) (le_refl w₁.pool.clock)
    rw [run_map_ok (ctx.withFails f) order db hlen]
    exact congrArg (Except.map fun w : World =>
      (w.huisFound, { w with guard := w.guard.free (footprint ctx db) })) htasks'

/-- When no operation of a run has failed, its output is complete. -/
theorem complete_of_unfailed (hwf : ∀ row ∈ db, row.WellFormed)
    (hshort : ∀ row ∈ db, row.items.length < 2 ^ 16) {count : ℕ} {w : World}
    (hrun : run order (db.map .ok) ctx = .ok (count, w)) (hunfailed : ctx.world.Unfailed w) :
    Complete db ctx.minUtility w.lines := by
  have hrun' := run_copy hrun hunfailed
  obtain ⟨w', lines, hspec, hperm, hexact⟩ := run_spec (ctx.withFails fun _ => false) order hwf
    hshort (fun _ => rfl) (length_lt_of_readDb hrun)
  rw [hrun'] at hspec
  obtain ⟨-, rfl⟩ := Prod.mk.inj (Except.ok.inj hspec)
  have hexact : ExactOutput db ctx.minUtility w.lines := hexact.perm hperm.symm
  exact hexact.complete_emitted

/-! ### Patterns of failures -/

variable {rank : ItemId → Utility ×ₗ ItemId} {rows : List FilteredTransaction} {env : Env}
  {y : ItemId}

/-- With no budget and a store that fails, no projection is kept. -/
theorem keep_refusing {A : Line → Prop} {proj : List ProjTx} (hproj : proj ≠ []) :
    (keep proj).Under World.Refusing A fun r => r = .ok none := by
  have hpos : 0 < proj.length * projEntrySize :=
    Nat.mul_pos (List.length_pos_iff.mpr hproj) (by decide)
  unfold keep
  apply Task.Under.bind (Task.Under.tryAlloc fun w hw => hw.tryAlloc hpos)
  · intro admitted hadmitted
    rw [Except.ok.inj hadmitted]
    simp only [Bool.false_eq_true, if_false]
    apply Task.Under.okOr_fails
    exact Task.Under.bind_fails (Task.Under.bind_fails
      (Task.Under.newPage (fun _ hw => hw.fails) _))
  · intro _ h
    cases h

/-- The task of an item then writes no more than the item. -/
theorem itemTask_refusing (fuel : ℕ) (hproj : (initialProj env.db y).1 ≠ []) :
    (itemTask env fuel y).Under World.Refusing (fun l => ∃ x, l.1 = [x]) fun r => r = .ok () := by
  unfold itemTask explore
  apply Task.Under.bind (R := fun r => r = .ok ())
  · unfold writeIfHigh
    split_ifs
    · exact Task.Under.writeAndCount ⟨y, rfl⟩
    · exact Task.Under.pure rfl
  · intro _ _
    apply Task.Under.bind (keep_refusing hproj)
    · intro kept hkept
      rw [Except.ok.inj hkept]
      exact Task.Under.pure rfl
    · intro _ h
      cases h
  · exact fun _ h => h

/-- Without budget and with every operation failing, the run returns, with no more
than single items. -/
theorem exists_failures (ctx : MiningContext) (order : HashOrder)
    (hwf : ∀ row ∈ db, row.WellFormed) (hshort : ∀ row ∈ db, row.items.length < 2 ^ 16)
    (hlen : db.length < 2 ^ 32) :
    ∃ f budget count w, run order (db.map .ok) ((ctx.withFails f).withBudget budget) =
      .ok (count, w) ∧ ∀ l ∈ w.lines, ∃ x, l.1 = [x] := by
  have hrows := filteredRows_filteredDb hwf hlen (filterOf ctx db)
  have htask : ∀ t ∈ (primaryItems order (filterOf ctx db)).map
      (itemTask ⟨(rowsOf ctx db).map (loadTx (filterOf ctx db)), ctx.minUtility, order⟩
        ((primaryItems order (filterOf ctx db)).length + 1)),
      t.Under World.Refusing (fun l => ∃ x, l.1 = [x]) fun r => r = .ok () := by
    intro t ht
    obtain ⟨y, hy, rfl⟩ := List.mem_map.mp ht
    apply itemTask_refusing
    rw [loadTx_eq hrows, initialProj_spec hrows (short_rowsOf ctx hwf hshort)]
    exact (projOf_ne_nil_iff _ _ _).mpr ((occurs_primaryItems ctx order hwf y).mp hy)
  obtain ⟨w, htasks, hlines⟩ := executeTasks_under World.Refusing.exec ctx
    (w := { ctx.world.withFails (fun _ => true) with
      guard := (MemoryGuard.new 0).forceAlloc (footprint ctx db) })
    ⟨fun _ => rfl, fun _ used bytes hpos => decide_eq_false (by omega)⟩ htask
  refine ⟨fun _ => true, 0, w.huisFound, { w with guard := w.guard.free (footprint ctx db) }, ?_,
    hlines⟩
  rw [run_map_ok _ order db hlen]
  exact congrArg (Except.map fun w : World =>
    (w.huisFound, { w with guard := w.guard.free (footprint ctx db) })) htasks

/-- The task of an item writes it whatever fails. -/
theorem itemTask_item {w : World} (h : FilteredRows rank rows) (hshort : Short rows)
    (hdb : env.db = rows.map original) (fuel : ℕ)
    (hhigh : env.minUtil ≤ utility (rows.map FilteredTransaction.basket) {y}) :
    Task.Spec (fun _ => True) (itemTask env fuel y) w fun out _ _ =>
      .writeHui [y] (utility (rows.map FilteredTransaction.basket) {y}) ∈ out := by
  unfold itemTask explore
  rw [hdb, initialProj_spec h hshort]
  have hwritten : Task.Spec (fun _ => True)
      (writeIfHigh env [y] (utility (rows.map FilteredTransaction.basket) {y})) w
      fun out _ _ => out = writeOps ([y], utility (rows.map FilteredTransaction.basket) {y}) := by
    unfold writeIfHigh
    rw [if_pos hhigh]
    exact Task.writeAndCount_spec _ _
  apply Task.Spec.bind hwritten
  rintro _ v _ _ rfl
  apply (Task.Spec.any _ v).mono le_rfl
  intro _ _ _ _
  simp [writeOps]

theorem mem_lines_of_item (hwf : ∀ row ∈ db, row.WellFormed)
    (hshort : ∀ row ∈ db, row.items.length < 2 ^ 16) {count : ℕ} {w : World}
    (hrun : run order (db.map .ok) ctx = .ok (count, w)) {x : ItemId}
    (hhigh : HighUtility (baskets db) ctx.minUtility {x}) :
    ([x], utility (baskets db) {x}) ∈ w.lines := by
  have hlen := length_lt_of_readDb hrun
  have hrows := filteredRows_filteredDb hwf hlen (filterOf ctx db)
  have hnumbered := numbered_wellFormed hwf 0
  rw [← map_basket_numbered 0 db] at hhigh ⊢
  have hpass := fun z hz => HighUtility.passes hnumbered hhigh (x := z) hz
  have hfiltered := (highUtility_filteredDb hnumbered {x}).mpr hhigh
  have hutil := (utility_filteredDb hnumbered _ hhigh.nonempty hpass).1
  rw [← hutil]
  rw [run_map_ok ctx order db hlen] at hrun
  cases htasks : executeTasks ctx { ctx.world with
      guard := ctx.world.guard.forceAlloc (footprint ctx db) }
      ((primaryItems order (filterOf ctx db)).map
        (itemTask ⟨(rowsOf ctx db).map (loadTx (filterOf ctx db)), ctx.minUtility, order⟩
          ((primaryItems order (filterOf ctx db)).length + 1))) with
  | error e =>
    rw [htasks] at hrun
    cases hrun
  | ok w₁ =>
    rw [htasks] at hrun
    obtain ⟨-, rfl⟩ := Prod.mk.inj (Except.ok.inj hrun)
    have hmem : x ∈ primaryItems order (filterOf ctx db) :=
      (occurs_primaryItems ctx order hwf x).mpr hfiltered.occurs
    exact mem_lines_of_executeTasks (l := ([x], _)) htasks (List.mem_map_of_mem hmem)
      (itemTask_item hrows (short_rowsOf ctx hwf hshort) (loadTx_eq hrows) _ hfiltered.le)

/-- The output is complete under every pattern of failures and every budget if and
only if all there is to find are single items. -/
theorem complete_iff_of_failures (hwf : ∀ row ∈ db, row.WellFormed)
    (hshort : ∀ row ∈ db, row.items.length < 2 ^ 16) :
    (∀ f budget count w, run order (db.map .ok) ((ctx.withFails f).withBudget budget) =
        .ok (count, w) → Complete db ctx.minUtility w.lines) ↔
      (db.length < 2 ^ 32 → ∀ X, HighUtility (baskets db) ctx.minUtility X → X.card = 1) := by
  constructor
  · intro hcomplete hlen X hX
    obtain ⟨f, budget, count, w, hrun, hlines⟩ :=
      exists_failures ctx order hwf hshort hlen
    have hmem := hcomplete f budget count w hrun X hX
    obtain ⟨l, hl, heq⟩ := List.mem_map.mp (List.mem_toFinset.mp hmem)
    obtain ⟨x, hx⟩ := hlines l hl
    obtain ⟨rfl, -⟩ := Prod.mk.inj heq
    rw [hx]
    exact Finset.card_singleton x
  · intro hsingle f budget count w hrun X hX
    obtain ⟨x, rfl⟩ := Finset.card_eq_one.mp (hsingle (length_lt_of_readDb hrun) X hX)
    exact mem_emitted_of_mem (mem_lines_of_item hwf hshort hrun hX)

end Efim

/-! ## Both miners -/

section Both

variable {db : List SpmfRow} {ctx : MiningContext} {order : Efim.HashOrder}

theorem TwoPhase.complete_iff_of_failures_checked (hwf : ∀ row ∈ db, row.WellFormed)
    (hadmitted : (ctx.world.guard.tryAlloc (db.length * 8)).1 = true) :
    (∀ f count w, TwoPhase.runChecked (db.map .ok) (ctx.withFails f) = .ok (count, w) →
        Complete db ctx.minUtility w.lines) ↔
      (db.length < 2 ^ 32 → TwuFilter.SumsFit (numbered 0 db) →
        ∀ X, HighUtility (baskets db) ctx.minUtility X →
          X.card = 1 ∧ utility (baskets db) X = 0) := by
  by_cases hfit : TwuFilter.SumsFit (numbered 0 db)
  · simp only [TwoPhase.runChecked_map_ok, hfit, if_true, forall_const]
    exact TwoPhase.complete_iff_of_failures hwf hadmitted
  · refine iff_of_true (fun f count w hrun => ?_) fun _ h => (hfit h).elim
    exact (hfit (TwoPhase.sumsFit_of_runChecked hrun).1).elim

theorem Efim.complete_iff_of_failures_checked (hwf : ∀ row ∈ db, row.WellFormed)
    (hshort : ∀ row ∈ db, row.items.length < 2 ^ 16) :
    (∀ f budget count w, Efim.runChecked order (db.map .ok) ((ctx.withFails f).withBudget budget) =
        .ok (count, w) → Complete db ctx.minUtility w.lines) ↔
      (db.length < 2 ^ 32 → TwuFilter.SumsFit (numbered 0 db) →
        ∀ X, HighUtility (baskets db) ctx.minUtility X → X.card = 1) := by
  by_cases hfit : TwuFilter.SumsFit (numbered 0 db)
  · simp only [Efim.runChecked_map_ok, hfit, if_true, forall_const]
    exact Efim.complete_iff_of_failures hwf hshort
  · refine iff_of_true (fun f budget count w hrun => ?_) fun _ h => (hfit h).elim
    exact (hfit (Efim.sumsFit_of_runChecked _ _ _ hrun).1).elim

end Both

/-- Without a failed operation only the refused weights of Two-Phase cost anything.
The two last parts say on which databases no failure does. A run whose weights leave
their range does not return. -/
theorem complete_unless_swallowed {db : List SpmfRow} (hwf : ∀ row ∈ db, row.WellFormed)
    (hshort : ∀ row ∈ db, row.items.length < 2 ^ 16) (ctx : MiningContext)
    (order : Efim.HashOrder) :
    (∀ count w, TwoPhase.runChecked (db.map .ok) ctx = .ok (count, w) → ctx.world.Unfailed w →
        (Complete db ctx.minUtility w.lines ↔
          (ctx.world.guard.tryAlloc (db.length * 8)).1 = true ∨
            Complete db ctx.minUtility ctx.world.lines)) ∧
      (∀ count w, Efim.runChecked order (db.map .ok) ctx = .ok (count, w) →
        ctx.world.Unfailed w → Complete db ctx.minUtility w.lines) ∧
      ((ctx.world.guard.tryAlloc (db.length * 8)).1 = true →
        ((∀ f count w, TwoPhase.runChecked (db.map .ok) (ctx.withFails f) = .ok (count, w) →
            Complete db ctx.minUtility w.lines) ↔
          (db.length < 2 ^ 32 → TwuFilter.SumsFit (numbered 0 db) →
            ∀ X, HighUtility (baskets db) ctx.minUtility X →
              X.card = 1 ∧ utility (baskets db) X = 0))) ∧
      ((∀ f budget count w,
          Efim.runChecked order (db.map .ok) ((ctx.withFails f).withBudget budget) =
            .ok (count, w) → Complete db ctx.minUtility w.lines) ↔
        (db.length < 2 ^ 32 → TwuFilter.SumsFit (numbered 0 db) →
          ∀ X, HighUtility (baskets db) ctx.minUtility X → X.card = 1)) := by
  refine ⟨?_, ?_, ?_, ?_⟩
  · intro count w hrun hunfailed
    exact TwoPhase.complete_iff_of_unfailed hwf (TwoPhase.sumsFit_of_runChecked hrun).2 hunfailed
  · intro count w hrun hunfailed
    have hrun := (Efim.sumsFit_of_runChecked _ _ _ hrun).2
    exact Efim.complete_of_unfailed hwf hshort hrun hunfailed
  · exact fun hadmitted => TwoPhase.complete_iff_of_failures_checked hwf hadmitted
  · exact Efim.complete_iff_of_failures_checked hwf hshort

theorem complete_unless_swallowed_tinyDb :
    ∃ count w, TwoPhase.runChecked (tinyDb.map .ok) (createCtx 45 none 1024) = .ok (count, w) ∧
      Complete tinyDb 45 w.lines := by
  have hwf : ∀ row ∈ tinyDb, row.WellFormed := by decide
  obtain ⟨r, h⟩ : ∃ r, TwoPhase.runChecked (tinyDb.map .ok) (createCtx 45 none 1024) = .ok r :=
    exists_of_isOk (by decide +kernel)
  have hcomplete :=
    (complete_unless_swallowed hwf (by decide) (createCtx 45 none 1024) .stored).1 r.1 r.2 h
      fun _ _ _ => rfl
  exact ⟨r.1, r.2, h, hcomplete.mpr (Or.inl (by decide))⟩

theorem exists_incomplete {result : Except Fault (ℕ × World)} {db : List SpmfRow}
    {minUtility : Utility} (lines : List Line) (h : result.map (fun r => r.2.lines) = .ok lines)
    {X : Finset ItemId} (hX : HighUtility (baskets db) minUtility X)
    (hmissing : (X, utility (baskets db) X) ∉ emitted lines) :
    ∃ count w, result = .ok (count, w) ∧ ¬ Complete db minUtility w.lines := by
  cases result with
  | error e => cases h
  | ok r =>
    refine ⟨r.1, r.2, rfl, fun hcomplete => hmissing ?_⟩
    have hlines : r.2.lines = lines := Except.ok.inj h
    rw [← hlines]
    exact hcomplete X hX

/-- A pin of Two-Phase that fails, its weights refused, a spill of EFIM that fails. -/
theorem not_complete_swallowed :
    (∃ count w, TwoPhase.runChecked (tinyDb.map .ok)
        ((createCtx 45 none 1024).withFails fun n => n == 3) = .ok (count, w) ∧
          ¬ Complete tinyDb 45 w.lines) ∧
      (∃ count w, TwoPhase.runChecked (tinyDb.map .ok) (createCtx 45 none 0) = .ok (count, w) ∧
        ¬ Complete tinyDb 45 w.lines) ∧
      ∃ count w, Efim.runChecked .stored (tinyDb.map .ok)
        ((createCtx 45 none 0).withFails fun n => n == 0) = .ok (count, w) ∧
          ¬ Complete tinyDb 45 w.lines := by
  refine ⟨?_, ?_, ?_⟩
  · exact exists_incomplete [([2], 45), ([2, 3], 50), ([3], 55)] (X := {1, 3})
      (by decide +kernel) (by decide +kernel) (by decide +kernel)
  · exact exists_incomplete [] (X := {1, 3})
      (by decide +kernel) (by decide +kernel) (by decide +kernel)
  · exact exists_incomplete [([2], 45), ([1], 50), ([1, 3], 60), ([3], 55)] (X := {2, 3})
      (by decide +kernel) (by decide +kernel) (by decide +kernel)

end AirHuim
