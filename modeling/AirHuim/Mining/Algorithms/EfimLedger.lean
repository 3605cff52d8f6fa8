import AirHuim.Mining.Algorithms.EfimSearch
import AirHuim.Mining.StorageFailures

/-!
# EFIM's memory ledger

A run on one thread, state by state, beside the stack of what is reserved for
the projections that are being searched. A projection that `try_alloc` admits
is worth its bytes there and a spilled one nothing; but `mine_efim` frees the
bytes of either after its call, so the ledger is right as long as nothing of
any size is spilled.
-/

namespace AirHuim

open Library

namespace Efim

/-- What is reserved for the projections on the recursion stack, the innermost
first. A projection comes on it when it is admitted or spilled and goes with the
`free` after the recursive call. -/
def onStack : (op : MinerOp) → minerInterface.Res op → List ℕ → List ℕ
  | .tryAlloc bytes, admitted, stack => if admitted then bytes :: stack else stack
  | .newPage _, .ok _, stack => 0 :: stack
  | .newPage _, .error _, stack => stack
  | .free _, _, stack => stack.tail
  | .pin _, _, stack => stack
  | .writeHui _ _, _, stack => stack
  | .foundHui, _, stack => stack
  | .getThreshold, _, stack => stack
  | .update _ _, _, stack => stack

abbrev ledger : SharedObject minerInterface := Prog.watched world onStack

/-- A page that is created holds no entries, or creating it fails. -/
def NoSpill (op : MinerOp) (s : World × List ℕ) : Prop :=
  match op with
  | .newPage bytes => bytes = [] ∨ s.1.pool.fails s.1.pool.clock = true
  | _ => True

instance (op : MinerOp) (s : World × List ℕ) : Decidable (NoSpill op s) := by
  cases op <;> unfold NoSpill <;> infer_instance

/-- The ledger has what it had at the start and what is on the stack. -/
def Balanced (start : ℕ) (s : World × List ℕ) : Prop := s.1.guard.used = start + s.2.sum

/-- From a balanced state a part of a task goes through such states only, and
leaves the stack as it was if it ends well. -/
def KeepsLedger {α : Type} (start : ℕ) (t : Task α) : Prop :=
  ∀ s : World × List ℕ, Balanced start s →
    Prog.Along ledger NoSpill (Balanced start) t.run s fun r s' => r.isOk → s'.2 = s.2

namespace KeepsLedger

variable {α β : Type} {start : ℕ}

theorem pure (a : α) : KeepsLedger start (Pure.pure a : Task α) := fun _ hs => ⟨hs, fun _ => rfl⟩

theorem throw (e : Fault) : KeepsLedger start (throw e : Task α) :=
  fun _ hs => ⟨hs, fun h => by cases h⟩

/-- A part that may change the stack, then one that is verified from there. -/
theorem bind_along {t : Task α} {f : α → Task β} {s : World × List ℕ}
    {Q : α → World × List ℕ → Prop} {R : Except Fault β → World × List ℕ → Prop}
    (h : Prog.Along ledger NoSpill (Balanced start) t.run s fun r s' =>
      (∀ a, r = .ok a → Q a s') ∧ ∀ e, r = .error e → R (.error e) s')
    (hf : ∀ a s', Balanced start s' → Q a s' →
      Prog.Along ledger NoSpill (Balanced start) (f a).run s' R) :
    Prog.Along ledger NoSpill (Balanced start) (t >>= f).run s R := by
  have hrun : (t >>= f).run = Prog.bind t.run (ExceptT.bindCont f) := rfl
  rw [hrun]
  apply Prog.Along.bind
  refine h.mono fun r s' hs' hr => ?_
  cases r with
  | ok a => exact hf a s' hs' (hr.1 a rfl)
  | error e => exact ⟨hs', hr.2 e rfl⟩

theorem bind {t : Task α} {f : α → Task β} (h : KeepsLedger start t)
    (hf : ∀ a, KeepsLedger start (f a)) : KeepsLedger start (t >>= f) := by
  intro s hs
  apply bind_along (Q := fun _ s' => s'.2 = s.2)
  · refine (h s hs).mono fun r s' _ hr => ⟨fun a ha => hr ?_, fun e he hok => ?_⟩
    · rw [ha]
      rfl
    · cases hok
  · intro a s' hs' hstack
    exact (hf a s' hs').mono fun r t _ hr hok => (hr hok).trans hstack

theorem writeIfHigh (env : Env) (itemset : List ItemId) (util : Utility) :
    KeepsLedger start (writeIfHigh env itemset util) := by
  intro s hs
  unfold Efim.writeIfHigh
  split_ifs
  · exact ⟨hs, fun _ => ⟨hs, fun _ => ⟨hs, fun _ => rfl⟩⟩⟩
  · exact pure () s hs

/-- `if let Ok(a) = t`, where `t` ends as `Q` says of its results. -/
theorem along_okOr {t : Task α} {default : α} {s : World × List ℕ}
    {Q : α → World × List ℕ → Prop}
    (h : Prog.Along ledger NoSpill (Balanced start) t.run s fun r s' =>
      (∀ a, r = .ok a → Q a s') ∧ ∀ e, r = .error e → Q default s') :
    Prog.Along ledger NoSpill (Balanced start) (t.okOr default).run s fun r s' =>
      ∃ a, r = .ok a ∧ Q a s' := by
  apply Prog.Along.bind
  refine h.mono fun r s' hs' hr => ?_
  cases r with
  | ok a => exact ⟨hs', a, rfl, hr.1 a rfl⟩
  | error e => exact ⟨hs', default, rfl, hr.2 e rfl⟩

theorem resolve (p : EfimProj) : KeepsLedger start (resolve p) := by
  intro s hs
  cases p with
  | inMemory proj => exact pure (some proj) s hs
  | onDisk pageId count =>
    have hload : Prog.Along ledger NoSpill (Balanced start)
        (EfimProj.load pageId count >>= fun proj => Pure.pure (some proj) : Task _).run s
        fun r s' => (∀ a, r = .ok a → s'.2 = s.2) ∧ ∀ e, r = .error e → s'.2 = s.2 := by
      have hafter : Balanced start (ledger.exec (.pin pageId) s).2 := hs
      refine ⟨hs, fun _ => ?_⟩
      cases (ledger.exec (.pin pageId) s).1 with
      | ok buf => exact ⟨hafter, fun _ _ => rfl, fun _ _ => rfl⟩
      | error e => exact ⟨hafter, fun _ _ => rfl, fun _ _ => rfl⟩
    refine (along_okOr hload).mono fun r s' _ hr hok => ?_
    obtain ⟨a, -, hstack⟩ := hr
    exact hstack

/-- The stack after `keep`. -/
def afterKeep (proj : List ProjTx) (stack : List ℕ) : Option EfimProj → List ℕ
  | some _ => (proj.length * projEntrySize) :: stack
  | none => stack

/-- Spilling is only free of harm if nothing is spilled. -/
theorem spill (proj : List ProjTx) {s : World × List ℕ} (hs : Balanced start s) :
    Prog.Along ledger NoSpill (Balanced start)
      (EfimProj.spill proj >>= fun onDisk => Pure.pure (some onDisk) : Task _).run s
      fun r s' => (∀ kept, r = .ok kept → s'.2 = afterKeep proj s.2 kept) ∧
        ∀ e, r = .error e → s'.2 = afterKeep proj s.2 none := by
  refine ⟨hs, fun hempty => ?_⟩
  simp only [NoSpill, List.flatMap_eq_nil_iff] at hempty
  cases hfails : s.1.pool.fails s.1.pool.clock with
  | true =>
    have hexec : ledger.exec (.newPage (proj.flatMap ProjTx.toBytes)) s =
        (.error .io, ({ s.1 with pool := (s.1.pool.newPage (proj.flatMap ProjTx.toBytes)).2 },
          s.2)) := by
      simp [ledger, Prog.watched, world, onStack, PagePool.newPage, hfails]
    rw [hexec]
    exact ⟨hs, ⟨fun _ h => (by cases h), fun _ _ => rfl⟩⟩
  | false =>
    have hexec : ledger.exec (.newPage (proj.flatMap ProjTx.toBytes)) s =
        (.ok s.1.pool.nextPageId,
          ({ s.1 with pool := (s.1.pool.newPage (proj.flatMap ProjTx.toBytes)).2 }, 0 :: s.2)) := by
      simp [ledger, Prog.watched, world, onStack, PagePool.newPage, hfails]
    rw [hexec]
    have hnone : proj = [] := by
      rw [hfails] at hempty
      refine List.eq_nil_iff_forall_not_mem.mpr fun p hp => ?_
      have hlength := length_toBytes p
      rw [(hempty.resolve_right Bool.false_ne_true) p hp] at hlength
      cases hlength
    subst hnone
    refine ⟨?_, ⟨fun kept h => ?_, fun _ h => (by cases h)⟩⟩
    · simpa [Balanced] using hs
    · cases h
      rfl

theorem keep (proj : List ProjTx) {s : World × List ℕ} (hs : Balanced start s) :
    Prog.Along ledger NoSpill (Balanced start) (keep proj).run s fun r s' =>
      ∃ kept, r = .ok kept ∧ s'.2 = afterKeep proj s.2 kept := by
  refine ⟨hs, fun _ => ?_⟩
  cases hadmits : s.1.guard.admits s.1.guard.calls s.1.guard.used
      (proj.length * projEntrySize) with
  | true =>
    have hexec : ledger.exec (.tryAlloc (proj.length * projEntrySize)) s =
        (true, ({ s.1 with guard := (s.1.guard.tryAlloc (proj.length * projEntrySize)).2 },
          (proj.length * projEntrySize) :: s.2)) := by
      simp [ledger, Prog.watched, world, onStack, MemoryGuard.tryAlloc, hadmits]
    rw [hexec]
    refine ⟨?_, some (.inMemory proj), rfl, rfl⟩
    simp only [Balanced, MemoryGuard.tryAlloc, hadmits, List.sum_cons, if_true] at hs ⊢
    omega
  | false =>
    have hexec : ledger.exec (.tryAlloc (proj.length * projEntrySize)) s =
        (false, ({ s.1 with guard := (s.1.guard.tryAlloc (proj.length * projEntrySize)).2 },
          s.2)) := by
      simp [ledger, Prog.watched, world, onStack, MemoryGuard.tryAlloc, hadmits]
    rw [hexec]
    have hrefused : Balanced start
        ({ s.1 with guard := (s.1.guard.tryAlloc (proj.length * projEntrySize)).2 }, s.2) := by
      simp only [Balanced, MemoryGuard.tryAlloc, hadmits, Bool.false_eq_true, if_false] at hs ⊢
      exact hs
    exact along_okOr (spill proj hrefused)

/-- The bytes on top of the stack go with it. -/
theorem free (bytes : ℕ) {s : World × List ℕ} {stack : List ℕ} (hs : Balanced start s)
    (hstack : s.2 = bytes :: stack) :
    Prog.Along ledger NoSpill (Balanced start) (Task.free bytes).run s fun _ s' =>
      s'.2 = stack := by
  refine ⟨hs, fun _ => ⟨?_, ?_⟩⟩
  · simp only [Balanced, world, onStack, MemoryGuard.free, hstack, List.sum_cons,
      List.tail_cons] at hs ⊢
    omega
  · simp only [onStack, hstack, List.tail_cons]

theorem explore {env : Env} {descend : List ItemId → EfimProj → Task Unit}
    (hdescend : ∀ itemset p, KeepsLedger start (descend itemset p)) (itemset : List ItemId)
    (proj : List ProjTx) (util : Utility) :
    KeepsLedger start (explore env descend itemset proj util) := by
  unfold Efim.explore
  refine bind (writeIfHigh env itemset util) fun _ s hs => ?_
  apply bind_along (Q := fun kept s' => s'.2 = afterKeep proj s.2 kept)
  · refine (keep proj hs).mono fun r s' _ hr => ?_
    obtain ⟨kept, rfl, hstack⟩ := hr
    exact ⟨fun a ha => (by cases ha; exact hstack), fun e he => (by cases he)⟩
  · intro kept s' hs' hstack
    cases kept with
    | none => exact ⟨hs', fun _ => hstack⟩
    | some p =>
      -- the search below leaves the stack as it is, so that the top is this projection's
      apply bind_along (Q := fun _ t => t.2 = proj.length * projEntrySize :: s.2)
      · refine (hdescend itemset p s' hs').mono fun r t _ hr => ⟨fun a ha => ?_, fun e he hok => ?_⟩
        · exact (hr (by rw [ha]; rfl)).trans hstack
        · cases hok
      · intro _ t ht htop
        exact (free _ ht htop).mono fun r t' _ hr _ => hr

theorem visitAll {env : Env} {descend : List ItemId → EfimProj → Task Unit}
    (hdescend : ∀ itemset p, KeepsLedger start (descend itemset p)) (itemset : List ItemId)
    (proj : List ProjTx) (lu : Table ItemId Utility) (items : List ItemId) :
    KeepsLedger start (visitAll env descend itemset proj lu items) := by
  induction items with
  | nil => exact pure ()
  | cons item rest ih =>
    refine bind ?_ fun _ => ih
    unfold visit
    split_ifs
    · exact pure ()
    · dsimp only
      split_ifs
      · exact pure ()
      · exact explore hdescend _ _ _

theorem mineEfim (env : Env) (fuel : ℕ) (itemset : List ItemId) (p : EfimProj) :
    KeepsLedger start (mineEfim env fuel itemset p) := by
  induction fuel generalizing itemset p with
  | zero => exact throw .stuck
  | succ fuel ih =>
    refine bind (resolve p) fun slice => ?_
    match slice with
    | none => exact pure ()
    | some [] => exact pure ()
    | some (first :: rest) => exact visitAll ih _ _ _ _

theorem itemTask (env : Env) (fuel : ℕ) (item : ItemId) :
    KeepsLedger start (itemTask env fuel item) :=
  explore (mineEfim env fuel) _ _ _

end KeepsLedger

/-! ## Runs -/

/-- What a run computes before the mining phase. -/
def prepared (source : DataSource) (ctx : MiningContext) :
    Except Fault (TwuFilterResult × List OriginalTx) := do
  let txs := okOnly (← readDb source)
  let r := TwuFilter.compute ctx.minUtility txs
  return (r, (filteredDb r txs).map (loadTx r))

def dbSizeBytes (db : List OriginalTx) : ℕ := (db.map fun tx => tx.items.length * (4 + 8 + 8)).sum

/-- The state in which the mining phase begins. -/
def miningStart (ctx : MiningContext) (db : List OriginalTx) : World × List ℕ :=
  ({ ctx.world with guard := ctx.world.guard.forceAlloc (dbSizeBytes db), lines := [] }, [])

def miningTasks (order : HashOrder) (ctx : MiningContext) (r : TwuFilterResult)
    (db : List OriginalTx) (fuel : ℕ) : List (Task Unit) :=
  (primaryItems order r).map (itemTask ⟨db, ctx.minUtility, order⟩ fuel)

theorem run_eq_prepared (order : HashOrder) (source : DataSource) (ctx : MiningContext) :
    run order source ctx = (do
      let (r, db) ← prepared source ctx
      let w ← executeTasks ctx
        { ctx.world with guard := ctx.world.guard.forceAlloc (dbSizeBytes db) }
        (miningTasks order ctx r db ((primaryItems order r).length + 1))
      return (w.huisFound, { w with guard := w.guard.free (dbSizeBytes db) })) := by
  unfold run prepared
  cases readDb source <;> rfl

theorem isOk_of_firstFault {results : List (Except Fault Unit)} (h : firstFault results = none)
    {result : Except Fault Unit} (hmem : result ∈ results) : result.isOk := by
  have hnone := List.findSome?_eq_none_iff.mp h result hmem
  cases result with
  | ok a => rfl
  | error e => cases hnone

/-- While nothing of any size is spilled, every state of the mining phase has in
the ledger what was there before the run, the database and the projections on
the stack; and after the run only the first is left. -/
theorem ledger_balanced (order : HashOrder) (source : DataSource) (ctx : MiningContext)
    (hthreads : ctx.threads ≤ 1) (r : TwuFilterResult) (db : List OriginalTx)
    (hprepared : prepared source ctx = .ok (r, db)) :
    (∀ fuel, Prog.CallsAll ledger NoSpill ((miningTasks order ctx r db fuel).map ExceptT.run)
        (miningStart ctx db) →
      ∀ s ∈ Prog.statesAll ledger ((miningTasks order ctx r db fuel).map ExceptT.run)
          (miningStart ctx db),
        s.1.guard.used = ctx.world.guard.used + dbSizeBytes db + s.2.sum) ∧
      (Prog.CallsAll ledger NoSpill
          ((miningTasks order ctx r db ((primaryItems order r).length + 1)).map ExceptT.run)
          (miningStart ctx db) →
        ∀ n w, run order source ctx = .ok (n, w) → w.guard.used = ctx.world.guard.used) := by
  have hstart : Balanced (ctx.world.guard.used + dbSizeBytes db) (miningStart ctx db) := rfl
  have hkeeps : ∀ fuel, ∀ p ∈ (miningTasks order ctx r db fuel).map ExceptT.run,
      ∀ s, Balanced (ctx.world.guard.used + dbSizeBytes db) s →
        Prog.Along ledger NoSpill (Balanced (ctx.world.guard.used + dbSizeBytes db)) p s
          fun result s' => result.isOk → s'.2 = s.2 := by
    intro fuel p hp s hs
    obtain ⟨t, ht, rfl⟩ := List.mem_map.mp hp
    obtain ⟨item, -, rfl⟩ := List.mem_map.mp ht
    exact KeepsLedger.itemTask _ fuel item s hs
  refine ⟨fun fuel hcalls => (Prog.runAll_of_along Prod.snd (fun result => result.isOk)
    (hkeeps fuel) hstart hcalls).1, fun hcalls n w hrun => ?_⟩
  obtain ⟨hstates, hlast⟩ := Prog.runAll_of_along Prod.snd (fun result => result.isOk)
    (hkeeps _) hstart hcalls
  rw [run_eq_prepared, hprepared] at hrun
  obtain ⟨end_, hend, hfinal⟩ := exists_ok_of_bind (x := executeTasks ctx _ _) hrun
  cases hfinal
  obtain ⟨hfault, rfl⟩ := executeTasks_ok_iff.mp hend
  rw [if_neg (by omega), Prog.interleave] at hfault ⊢
  obtain ⟨hresults, hworld⟩ := Prog.runAll_watched (O := world) onStack
    ((miningTasks order ctx r db ((primaryItems order r).length + 1)).map ExceptT.run)
    (miningStart ctx db).1 (miningStart ctx db).2
  have hempty := hlast fun result hresult => isOk_of_firstFault hfault (hresults ▸ hresult)
  have hbalanced := hstates _ (Prog.runAll_mem_statesAll _ _)
  rw [Balanced, hempty, hworld] at hbalanced
  have hused : ∀ guard : MemoryGuard,
      guard.used = ctx.world.guard.used + dbSizeBytes db + ([] : List ℕ).sum →
        (guard.free (dbSizeBytes db)).used = ctx.world.guard.used := by
    intro guard hguard
    simp only [MemoryGuard.free, hguard, List.sum_nil]
    omega
  exact hused _ hbalanced

/-- The filter's result and the database of the small example. -/
def tinyPrepared : TwuFilterResult × List OriginalTx :=
  (prepared (tinyDb.map .ok) (createCtx 45 none 0)).toOption.get (by decide +kernel)

theorem prepared_tinyDb (budget : ℕ) :
    prepared (tinyDb.map .ok) (createCtx 45 none budget) = .ok tinyPrepared := by
  have hsame : prepared (tinyDb.map .ok) (createCtx 45 none budget) =
      prepared (tinyDb.map .ok) (createCtx 45 none 0) := rfl
  obtain ⟨p, hp⟩ : ∃ p, prepared (tinyDb.map .ok) (createCtx 45 none 0) = .ok p :=
    exists_of_isOk (by decide +kernel)
  have hget : tinyPrepared = p := by
    simp only [tinyPrepared, hp]
    rfl
  rw [hsame, hp, hget]

/-- A budget with room for the database and the projections. -/
theorem ledger_balanced_tinyDb :
    (∀ s ∈ Prog.statesAll ledger
        ((miningTasks .stored (createCtx 45 none 1000) tinyPrepared.1 tinyPrepared.2 4).map
          ExceptT.run) (miningStart (createCtx 45 none 1000) tinyPrepared.2),
      s.1.guard.used = 0 + dbSizeBytes tinyPrepared.2 + s.2.sum) ∧
      ∀ n w, run .stored (tinyDb.map .ok) (createCtx 45 none 1000) = .ok (n, w) →
        w.guard.used = 0 := by
  obtain ⟨hstates, hend⟩ := ledger_balanced .stored (tinyDb.map .ok) (createCtx 45 none 1000)
    (by decide) tinyPrepared.1 tinyPrepared.2 (prepared_tinyDb 1000)
  exact ⟨hstates 4 (by decide +kernel), hend (by decide +kernel)⟩

/-- With a budget of 30 bytes every projection is spilled, and what is freed
after it was reserved for the database, or before the run. -/
theorem not_balanced_spilled :
    (∃ s ∈ Prog.statesAll ledger
        ((miningTasks .stored (createCtx 45 none 30) tinyPrepared.1 tinyPrepared.2 4).map
          ExceptT.run) (miningStart (createCtx 45 none 30) tinyPrepared.2),
      s.1.guard.used ≠ 0 + dbSizeBytes tinyPrepared.2 + s.2.sum) ∧
      (run .stored (tinyDb.map .ok)
        { createCtx 45 none 30 with
          world := { World.fresh 30 with
            guard := { MemoryGuard.new 30 with used := 300 } } }).toOption.map
              (fun result => result.2.guard.used) = some 108 := by
  constructor
  · decide +kernel
  · decide +kernel

end Efim

end AirHuim
