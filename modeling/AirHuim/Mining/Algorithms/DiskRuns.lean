import AirHuim.Mining.Algorithms.HuiMiner
import AirHuim.Mining.DiskWorld
import AirHuim.Preprocessing.DbReader

/-!
# Runs on a disk

The utility-list miners run over the pool as it is, on one thread: frames within a
budget, files below. What a run writes does not depend on the budget, on the
eviction policy or on what was in the directory: if it returns, its output is
exact. Under a prompt policy it does return as soon as the budget takes the
longest utility list. The runs are those of a build with overflow checks: a sum that
leaves the range of `i64` ends them, which does not happen on a light database.
-/

namespace AirHuim

open Library

variable {π : Type} (D : DiskSetup π)

/-- `MiningContext` over a disk, for a run on one thread. `availableMemory` is what
the operating system reports as free. -/
structure DiskContext (π : Type) where
  minUtility : Utility
  k : Option ℕ
  availableMemory : ℕ
  world : DiskWorld π

namespace DiskContext

/-- The budget of `apply_os_safety_net`: no more than is free, less 500 MiB. -/
def finalBudget (ctx : DiskContext π) : ℕ :=
  min ctx.world.pool.fields.budgetBytes (ctx.availableMemory - 500 * 1024 * 1024)

def applyOsSafetyNet (ctx : DiskContext π) : DiskWorld π :=
  { ctx.world with pool := ctx.world.pool.setBudget ctx.finalBudget }

/-- No frame is in use: the pool is new, whatever the directory holds. -/
def Fresh (ctx : DiskContext π) : Prop :=
  ∃ budgetBytes files eviction, ctx.world.pool = .new budgetBytes files eviction

/-- The context over a map without pages. -/
def overMap (ctx : DiskContext π) (fails : ℕ → Bool) : MiningContext where
  minUtility := ctx.minUtility
  k := ctx.k
  threads := 1
  schedule := []
  world := ⟨⟨fun _ => none, ctx.world.counter, 0, fails⟩, ctx.world.guard, ctx.world.lines,
    ctx.world.huisFound, ctx.world.tko⟩

end DiskContext

/-- `execute_tasks` on one thread: the result, and the world that is left. -/
def executeTasksOnDisk (w : DiskWorld π) (tasks : List (Task Unit)) :
    Except Fault Unit × DiskWorld π :=
  let end_ := Prog.runAll (diskWorld D) (tasks.map ExceptT.run) { w with lines := [] }
  (match firstFault end_.1 with
    | some e => .error e
    | none => .ok (),
    end_.2)

section Tasks

variable {D} {w : DiskWorld π} {budget limit : ℕ} {tasks : List (Task Unit)}

/-- The run over the map that takes the course of the run on the disk. -/
structure RunsAlike (ctx : MiningContext) (t : World) (tasks : List (Task Unit))
    (r : Except Fault Unit × DiskWorld π) : Prop where
  error : ∀ e, r.1 = .error e → executeTasks ctx t tasks = .error e
  ok : r.1 = .ok () → ∃ t', executeTasks ctx t tasks = .ok t' ∧ r.2.lines = t'.lines ∧
    r.2.huisFound = t'.huisFound

theorem RunsAlike.of_runAll {ctx : MiningContext} (hctx : ctx.threads ≤ 1) {t : World}
    (hanswers : (Prog.runAll (diskWorld D) (tasks.map ExceptT.run) { w with lines := [] }).1 =
      (Prog.runAll world (tasks.map ExceptT.run) { t with lines := [] }).1)
    (hends : DiskWorld.Shows D budget limit
      (Prog.runAll (diskWorld D) (tasks.map ExceptT.run) { w with lines := [] }).2
      (Prog.runAll world (tasks.map ExceptT.run) { t with lines := [] }).2) :
    RunsAlike ctx t tasks (executeTasksOnDisk D w tasks) := by
  have hmap : executeTasks ctx t tasks =
      match firstFault (Prog.runAll (diskWorld D) (tasks.map ExceptT.run)
        { w with lines := [] }).1 with
      | some e => .error e
      | none => .ok (Prog.runAll world (tasks.map ExceptT.run) { t with lines := [] }).2 := by
    rw [hanswers, executeTasks, if_neg (not_lt.mpr hctx)]
    rfl
  constructor
  · intro e he
    simp only [executeTasksOnDisk] at he
    rw [hmap]
    cases hfault : firstFault
        (Prog.runAll (diskWorld D) (tasks.map ExceptT.run) { w with lines := [] }).1 with
    | some e' =>
      rw [hfault] at he
      cases he
      rfl
    | none =>
      rw [hfault] at he
      cases he
  · intro hok
    simp only [executeTasksOnDisk] at hok
    rw [hmap]
    cases hfault : firstFault
        (Prog.runAll (diskWorld D) (tasks.map ExceptT.run) { w with lines := [] }).1 with
    | some e' =>
      rw [hfault] at hok
      cases hok
    | none => exact ⟨_, rfl, hends.lines, hends.huisFound⟩

theorem callsAll_of_careful (hcareful : ∀ task ∈ tasks, ∀ w : World,
    task.Careful limit w fun _ _ => True) {t : World} (ht : t.pool.Bounded limit) :
    Prog.CallsAll world (PoolCall limit) (tasks.map ExceptT.run) t := by
  refine Prog.callsAll_of_safe (fun t : World => t.pool.Bounded limit) (fun p hp t ht => ?_) ht
  obtain ⟨task, htask, rfl⟩ := List.mem_map.mp hp
  exact (hcareful task htask t ht).mono fun _ _ hr => hr.1

end Tasks

namespace DiskContext

variable {D} {ctx : DiskContext π} {limit : ℕ} {tasks : List (Task Unit)}

/-- A new pool shows a map without pages. -/
theorem Fresh.shows (hfresh : ctx.Fresh) (D : DiskSetup π) (limit : ℕ) (guard : MemoryGuard)
    (tko : TkoState) (fails : ℕ → Bool) :
    DiskWorld.Shows D ctx.finalBudget limit
      { ctx.applyOsSafetyNet with guard, tko, lines := [] }
      { (ctx.overMap fails).world with guard, tko, lines := [] } where
  pool := by
    obtain ⟨budgetBytes, files, eviction, hpool⟩ := hfresh
    refine ⟨.new ctx.finalBudget ⟨files.shownPages D.codec D.crc, 0, fun _ => false, fun _ => none⟩
      eviction, ?_, .new _ _ _, rfl, nofun, nofun, nofun, fun id hid => (hid rfl).elim⟩
    refine ⟨?_, ?_, fun _ => rfl, nofun⟩
    · simp only [applyOsSafetyNet, hpool]
      rfl
    · simp only [applyOsSafetyNet, hpool]
      rfl
  counter := rfl
  guard := rfl
  lines := rfl
  huisFound := rfl
  tko := rfl

/-- On the disk the tasks run as over a map some of whose calls fail. -/
theorem Fresh.runsAlike (hfresh : ctx.Fresh) (hD : D.Lawful) (hlimit : limit < 2 ^ 32)
    (hcareful : ∀ task ∈ tasks, ∀ w : World, task.Careful limit w fun _ _ => True)
    (guard : MemoryGuard) (tko : TkoState)
    (hids : (executeTasksOnDisk D { ctx.applyOsSafetyNet with guard, tko } tasks).2.counter ≤
      2 ^ 64) :
    ∃ fails, RunsAlike (ctx.overMap fails) { (ctx.overMap fails).world with guard, tko } tasks
      (executeTasksOnDisk D { ctx.applyOsSafetyNet with guard, tko } tasks) := by
  have hwithin : DiskWorld.Within (Prog.runAll (diskWorld D) (tasks.map ExceptT.run)
      { ctx.applyOsSafetyNet with guard, tko, lines := [] }).2 := hids
  obtain ⟨cs, hrun⟩ := (DiskWorld.implements_world hD hlimit ctx.finalBudget).runAll 0 hwithin
  -- the map makes the choices of the run, and then none
  set fails : ℕ → Bool := fun i => cs.getD i false
  have hbounded : ({ (ctx.overMap fails).world with guard, tko, lines := [] } : World).pool.Bounded
      limit := ⟨nofun, nofun⟩
  obtain ⟨hanswers, hends, -⟩ := hrun fails _ (Prog.follows_getD cs false)
    ⟨hfresh.shows D limit guard tko fails, rfl, rfl⟩ (callsAll_of_careful hcareful hbounded)
  exact ⟨fails, RunsAlike.of_runAll le_rfl hanswers hends⟩

/-- Under a prompt policy, and with a budget for the largest page, none fails. -/
theorem Fresh.runsAlike_prompt (hfresh : ctx.Fresh) (hD : D.Lawful) (hprompt : D.policy.Prompt)
    (hlimit : limit < 2 ^ 32) (hbudget : limit ≤ ctx.finalBudget)
    (hcareful : ∀ task ∈ tasks, ∀ w : World, task.Careful limit w fun _ _ => True)
    (guard : MemoryGuard) (tko : TkoState)
    (hids : (executeTasksOnDisk D { ctx.applyOsSafetyNet with guard, tko } tasks).2.counter ≤
      2 ^ 64) :
    RunsAlike (ctx.overMap fun _ => false)
      { (ctx.overMap fun _ => false).world with guard, tko } tasks
      (executeTasksOnDisk D { ctx.applyOsSafetyNet with guard, tko } tasks) := by
  have hwithin : DiskWorld.Within (Prog.runAll (diskWorld D) (tasks.map ExceptT.run)
      { ctx.applyOsSafetyNet with guard, tko, lines := [] }).2 := hids
  obtain ⟨cs, hrun⟩ := (DiskWorld.implements_world_prompt hD hprompt hlimit hbudget).runAll 0
    hwithin
  have hbounded : PagePool.Bounded limit
      ({ (ctx.overMap fun _ => false).world with guard, tko, lines := [] } : World).pool :=
    ⟨nofun, nofun⟩
  obtain ⟨hanswers, hends, -⟩ := hrun (fun _ => ()) _ (fun _ _ _ => rfl)
    ⟨hfresh.shows D limit guard tko fun _ => false, fun _ => rfl⟩
    (callsAll_of_careful hcareful hbounded)
  exact RunsAlike.of_runAll le_rfl hanswers hends

end DiskContext

/-- Lists of items have at most one entry for each transaction. -/
theorem length_le_of_isItemList {rank : ItemId → Utility ×ₗ ItemId}
    {rows : List FilteredTransaction}
    {ys : List ItemId} {items : List ItemList}
    (h : List.Forall₂ (UlMiner.IsItemList rank rows) ys items) :
    ∀ e ∈ items, e.2.2.length ≤ rows.length := by
  intro e he
  obtain ⟨y, -, hlist⟩ := exists_of_forall₂ h.flip he
  rw [hlist.body, entriesOf, List.length_map]
  exact List.length_filter_le _ _

/-- A task that may overflow on the way asks for nothing else. -/
theorem Task.Careful.of_follows {α : Type} {limit : ℕ} {t t' : Task α} {w : World}
    {Q : World → α → Prop} (h : Task.Follows t t') (hcareful : t'.Careful limit w Q) :
    t.Careful limit w fun _ _ => True := by
  intro hw
  have hsafe := Prog.Upto.safe (O := world) (C := PoolCall limit)
    (fun v : World => v.pool.Bounded limit ∧ w ≤ v)
    (fun op v hv hop => ⟨bounded_exec op hv.1 hop, hv.2.trans (World.le_exec op v)⟩)
    h ⟨hw, le_rfl⟩ (hcareful hw)
  exact hsafe.mono fun _ v hv => ⟨hv.1, hv.2, fun _ _ => trivial⟩

/-- Reporting writes a line and counts it. -/
theorem Task.Careful.writeAndCount {limit : ℕ} {w : World} (X : List ItemId) (u : Utility) :
    (Task.writeAndCount X u).Careful limit w fun _ _ => True :=
  (Task.Careful.lift (.writeHui X u) fun _ => trivial).bind fun _ _ _ _ =>
    Task.Careful.lift .foundHui fun _ => trivial

/-! ## Runs that write as they go -/

/-- What a run on the disk has to do with the exact output. -/
structure DiskExact (db : List SpmfRow) (minUtility : Utility) (prompt : Prop)
    (r : Except Fault ℕ × DiskWorld π) : Prop where
  exact : ∀ count, r.1 = .ok count →
    ExactOutput db minUtility r.2.lines ∧ count = r.2.lines.length
  error : ∀ e, r.1 = .error e → e = .io ∨ e = .overflow ∧ ¬ LightDb db
  returns : prompt → LightDb db → ∃ count, r.1 = .ok count

/-- A run whose passes overflow. -/
theorem DiskExact.of_overflow {db : List SpmfRow} {minUtility : Utility} {prompt : Prop}
    {w : DiskWorld π} (h : ¬ LightDb db) :
    DiskExact db minUtility prompt (.error .overflow, w) where
  exact _ hcount := by cases hcount
  error e he := Or.inr ⟨(Except.error.inj he).symm, h⟩
  returns _ hlight := (h hlight).elim

/-- A run that is exact over every map, also over one with failures. -/
theorem DiskExact.of_runsAlike {db : List SpmfRow} {minUtility : Utility} {ctx : DiskContext π}
    {prompt : Prop} {r : Except Fault Unit × DiskWorld π} {tasks : List (Task Unit)}
    {t : (ℕ → Bool) → World} (hfresh : ctx.world.huisFound = 0)
    (hexact : ∀ (E : Fault → Prop) fails, Task.Allows E (ctx.overMap fails).world →
      (∃ e, (E e ∨ e = .overflow ∧ ¬ LightDb db) ∧
          executeTasks (ctx.overMap fails) (t fails) tasks = .error e) ∨
        ∃ w, executeTasks (ctx.overMap fails) (t fails) tasks = .ok w ∧
          w.huisFound = ctx.world.huisFound + w.lines.length ∧ ExactOutput db minUtility w.lines)
    (hruns : ∃ fails, RunsAlike (ctx.overMap fails) (t fails) tasks r)
    (hprompt : prompt → RunsAlike (ctx.overMap fun _ => false) (t fun _ => false) tasks r) :
    DiskExact db minUtility prompt (r.1.map fun _ => r.2.huisFound, r.2) := by
  obtain ⟨fails, halike⟩ := hruns
  have hcases := hexact (· = .io) fails fun _ _ => rfl
  constructor
  · intro count hcount
    rcases hr : r.1 with e | ⟨⟩
    · rw [hr] at hcount
      cases hcount
    · rw [hr] at hcount
      cases hcount
      obtain ⟨w, hrun, hlines, hfound⟩ := halike.ok hr
      rcases hcases with ⟨e, -, herror⟩ | ⟨w', hrun', hcount, hout⟩
      · rw [hrun] at herror
        cases herror
      · rw [hrun] at hrun'
        cases hrun'
        rw [hlines, hfound, hcount, hfresh, Nat.zero_add]
        exact ⟨hout, rfl⟩
  · intro e he
    rcases hr : r.1 with e' | ⟨⟩
    · rw [hr] at he
      cases he
      have hrun := halike.error _ hr
      rcases hcases with ⟨e, hfault, herror⟩ | ⟨w, hok, -⟩
      · rw [hrun] at herror
        cases herror
        exact hfault
      · rw [hrun] at hok
        cases hok
    · rw [hr] at he
      cases he
  · intro hp hlight
    rcases hr : r.1 with e | ⟨⟩
    · have hrun := (hprompt hp).error _ hr
      rcases hexact (fun _ => False) (fun _ => false) nofun with ⟨e', hno, -⟩ | ⟨w, hok, -⟩
      · exact (hno.resolve_left id).2 hlight |>.elim
      · rw [hrun] at hok
        cases hok
    · exact ⟨r.2.huisFound, rfl⟩

/-- The tasks of lists of items are careful. -/
theorem itemTasksChecked_careful {m : UlMiner} {rank : ItemId → Utility ×ₗ ItemId}
    {db : List SpmfRow} {f : TwuFilterResult} {ys : List ItemId} {items : List ItemList}
    (hm : m.Careful (20 * db.length))
    (h : List.Forall₂ (UlMiner.IsItemList rank (filteredDb f (numbered 0 db))) ys items) :
    ∀ task ∈ m.itemTasksChecked items, ∀ w : World,
      task.Careful (20 * db.length) w fun _ _ => True := by
  have hbodies : ∀ e ∈ items, 20 * e.2.2.length ≤ 20 * db.length := by
    intro e he
    have hbody := length_le_of_isItemList h e he
    have hrows : (filteredDb f (numbered 0 db)).length ≤ db.length := by
      rw [← length_numbered 0 db]
      exact List.length_filterMap_le _ _
    omega
  have hcareful := UlMiner.itemTasks_careful hm hbodies
  intro task htask w
  obtain ⟨task', htask', hfollows⟩ := exists_of_forall₂ (m.follows_itemTasksChecked items) htask
  exact .of_follows hfollows (hcareful task' htask' w)

/-- The budget takes one list of `tinyDb` at a time. -/
def tinyContext : DiskContext MiningAwarePolicy where
  minUtility := 45
  k := none
  availableMemory := 1073741824
  world := ⟨.new 60 (.new true) .new, 1, 0, .new 1073741824, [], 0, .empty 0⟩

theorem tinyContext_fresh : tinyContext.Fresh := ⟨60, .new true, .new, rfl⟩

/-! ## FHM -/

namespace Fhm

/-- `Fhm::run` on the disk. -/
def runOnDisk (source : DataSource) (ctx : DiskContext π) : Except Fault ℕ × DiskWorld π :=
  match readDb source with
  | .error e => (.error e, ctx.world)
  | .ok read =>
    match passesChecked ctx.minUtility ctx.world.guard (okOnly read) with
    | .error e => (.error e, ctx.world)
    | .ok (s, filtered) =>
      let end_ := executeTasksOnDisk D { ctx.applyOsSafetyNet with guard := s.guard }
        ((miner s.eucs ctx.minUtility).itemTasksChecked filtered)
      (end_.1.map fun _ => end_.2.huisFound, end_.2)

theorem miner_careful (eucs : Eucs) (minUtility : Utility) (limit : ℕ) :
    (miner eucs minUtility).Careful limit where
  current _ := Task.Careful.pure trivial
  report _ X u _ := (Task.Careful.writeAndCount X u).bind fun _ _ _ _ => Task.Careful.pure trivial

variable {D} {db : List SpmfRow} {ctx : DiskContext π}

/-- FHM runs as on the database without the rejected lines. -/
theorem runOnDisk_acceptedRows (source : DataSource) (ctx : DiskContext π) :
    runOnDisk D source ctx = runOnDisk D ((acceptedRows source).map .ok) ctx := by
  unfold runOnDisk
  rw [readDb_eq, readDb_map_ok]
  by_cases hlen : (acceptedRows source).length < 2 ^ 32
  · simp only [if_pos hlen, okOnly_dbReader, okOnly_map_ok]
  · simp only [if_neg hlen]

/-- On any source the run is exact for the accepted rows. -/
theorem diskExact_runOnDisk {source : DataSource} (hD : D.Lawful)
    (hwf : ∀ row ∈ acceptedRows source, row.WellFormed)
    (hfits : 20 * (acceptedRows source).length < 2 ^ 32) (hpool : ctx.Fresh)
    (hfresh : ctx.world.huisFound = 0)
    (heucs : (Pass2.run ctx.world.guard (filteredDb (TwuFilter.compute ctx.minUtility
      (numbered 0 (acceptedRows source))) (numbered 0 (acceptedRows source)))).oom = false)
    (hids : (runOnDisk D source ctx).2.counter ≤ 2 ^ 64) :
    DiskExact (acceptedRows source) ctx.minUtility
      (D.policy.Prompt ∧ 20 * (acceptedRows source).length ≤ ctx.finalBudget)
      (runOnDisk D source ctx) := by
  rw [runOnDisk_acceptedRows] at hids ⊢
  generalize acceptedRows source = db at hwf hfits heucs hids ⊢
  have hlen : db.length < 2 ^ 32 := by omega
  set m := ctx.overMap fun _ => false with hm
  set s := pass2 m (numbered 0 db) with hs
  set tasks := (miner s.eucs ctx.minUtility).itemTasksChecked (filtered m (numbered 0 db))
  have hread : runOnDisk D (db.map .ok) ctx =
      match passesChecked ctx.minUtility ctx.world.guard (numbered 0 db) with
      | .error e => (.error e, ctx.world)
      | .ok (s, filtered) =>
        let end_ := executeTasksOnDisk D { ctx.applyOsSafetyNet with guard := s.guard }
          ((miner s.eucs ctx.minUtility).itemTasksChecked filtered)
        (end_.1.map fun _ => end_.2.huisFound, end_.2) := by
    simp only [runOnDisk, readDb_map_ok, if_pos hlen, okOnly_map_ok]
  have hpasses : Agrees (LightDb db)
      (passesChecked ctx.minUtility ctx.world.guard (numbered 0 db))
      (.ok (s, filtered m (numbered 0 db))) := agrees_passesChecked m hwf
  rw [hread] at hids ⊢
  rcases hpasses with hok | ⟨hoverflow, hheavy⟩
  rotate_left
  · rw [hoverflow]
    exact DiskExact.of_overflow hheavy
  rw [hok] at hids ⊢
  have hrows := filteredRows_filteredDb hwf hlen (pass1 m (numbered 0 db))
  have hsub : ∀ e ∈ filtered m (numbered 0 db), e ∈ s.itemLists :=
    fun e he => (mem_sortByKey _).mp he
  have hitems := Pass2.forall₂_isItemList hrows m.world.guard hsub
  have hcareful := itemTasksChecked_careful (miner_careful s.eucs ctx.minUtility _) hitems
  refine DiskExact.of_runsAlike
    (t := fun fails => { (ctx.overMap fails).world with guard := s.guard }) hfresh
    (fun E fails hE => ?_) (hpool.runsAlike hD hfits hcareful s.guard ctx.world.tko hids)
    fun hp => hpool.runsAlike_prompt hD hp.1 hfits hp.2 hcareful s.guard ctx.world.tko hids
  exact executeTasks_checked_spec (ctx.overMap fails) hwf hE heucs hlen

/-- On a disk of any budget and under any policy FHM writes the high-utility
itemsets or ends with an error of the pool or an overflow. The first does not happen if
the policy is prompt and the longest list fits the budget, and the second not if the
database is light. -/
theorem exact_on_disk (hD : D.Lawful) (hwf : ∀ row ∈ db, row.WellFormed)
    (hfits : 20 * db.length < 2 ^ 32) (hpool : ctx.Fresh) (hfresh : ctx.world.huisFound = 0)
    (heucs : (Pass2.run ctx.world.guard (filteredDb (TwuFilter.compute ctx.minUtility
      (numbered 0 db)) (numbered 0 db))).oom = false)
    (hids : (runOnDisk D (db.map .ok) ctx).2.counter ≤ 2 ^ 64) :
    DiskExact db ctx.minUtility (D.policy.Prompt ∧ 20 * db.length ≤ ctx.finalBudget)
      (runOnDisk D (db.map .ok) ctx) := by
  have hrows : acceptedRows (db.map .ok) = db := acceptedRows_map_ok db
  have hexact := @diskExact_runOnDisk π D ctx (db.map .ok) hD
  rw [hrows] at hexact
  exact hexact hwf hfits hpool hfresh heucs hids

/-- The lists of `tinyDb` are too short for a page of their own. -/
theorem exact_on_disk_tinyDb :
    ∃ count, (runOnDisk tinyDisk (tinyDb.map .ok) tinyContext).1 = .ok count ∧
      ExactOutput tinyDb 45 (runOnDisk tinyDisk (tinyDb.map .ok) tinyContext).2.lines := by
  have hwf : ∀ row ∈ tinyDb, row.WellFormed := by decide
  have hexact := exact_on_disk tinyDisk_lawful hwf (by decide) tinyContext_fresh rfl (by decide)
    (by decide +kernel)
  obtain ⟨count, hcount⟩ := hexact.returns ⟨tinyDisk_prompt, by decide⟩ lightDb_tinyDb
  exact ⟨count, hcount, (hexact.exact count hcount).1⟩

end Fhm

/-! ## HUI-Miner -/

namespace HuiMiner

/-- `HuiMiner::run` on the disk. `HupMiner::run` and `MHuiMiner::run` are the same
code. -/
def runOnDisk (source : DataSource) (ctx : DiskContext π) : Except Fault ℕ × DiskWorld π :=
  match readDb source with
  | .error e => (.error e, ctx.world)
  | .ok read =>
    match passesChecked ctx.minUtility (okOnly read) with
    | .error e => (.error e, ctx.world)
    | .ok filtered =>
      let end_ := executeTasksOnDisk D ctx.applyOsSafetyNet
        ((miner ctx.minUtility).itemTasksChecked filtered)
      (end_.1.map fun _ => end_.2.huisFound, end_.2)

theorem miner_careful (minUtility : Utility) (limit : ℕ) : (miner minUtility).Careful limit where
  current _ := Task.Careful.pure trivial
  report _ X u _ := (Task.Careful.writeAndCount X u).bind fun _ _ _ _ => Task.Careful.pure trivial

variable {D} {db : List SpmfRow} {ctx : DiskContext π}

/-- HUI-Miner needs no pair structure, and so no condition on it. -/
theorem lists_on_disk (hD : D.Lawful) (hwf : ∀ row ∈ db, row.WellFormed)
    (hfits : 20 * db.length < 2 ^ 32) (hpool : ctx.Fresh) (hfresh : ctx.world.huisFound = 0)
    (hids : (runOnDisk D (db.map .ok) ctx).2.counter ≤ 2 ^ 64) :
    DiskExact db ctx.minUtility (D.policy.Prompt ∧ 20 * db.length ≤ ctx.finalBudget)
      (runOnDisk D (db.map .ok) ctx) := by
  have hlen : db.length < 2 ^ 32 := by omega
  set m := ctx.overMap fun _ => false
  have hread : runOnDisk D (db.map .ok) ctx =
      match passesChecked ctx.minUtility (numbered 0 db) with
      | .error e => (.error e, ctx.world)
      | .ok filtered =>
        let end_ := executeTasksOnDisk D ctx.applyOsSafetyNet
          ((miner ctx.minUtility).itemTasksChecked filtered)
        (end_.1.map fun _ => end_.2.huisFound, end_.2) := by
    simp only [runOnDisk, readDb_map_ok, if_pos hlen, okOnly_map_ok]
  have hpasses : Agrees (LightDb db) (passesChecked ctx.minUtility (numbered 0 db))
      (.ok (filtered m (numbered 0 db))) := agrees_passesChecked m hwf
  rw [hread] at hids ⊢
  rcases hpasses with hok | ⟨hoverflow, hheavy⟩
  rotate_left
  · rw [hoverflow]
    exact DiskExact.of_overflow hheavy
  rw [hok] at hids ⊢
  have hrows := filteredRows_filteredDb hwf hlen (pass1 m (numbered 0 db))
  have hsub : ∀ e ∈ filtered m (numbered 0 db),
      e ∈ (Pass2.run m.world.guard (rowsOf m (numbered 0 db))).itemLists := by
    intro e he
    rw [← itemLists_pass2]
    exact (mem_sortByKey _).mp he
  have hitems := Pass2.forall₂_isItemList hrows m.world.guard hsub
  have hcareful := itemTasksChecked_careful (miner_careful ctx.minUtility _) hitems
  refine DiskExact.of_runsAlike (t := fun fails => (ctx.overMap fails).world) hfresh
    (fun E fails hE => ?_)
    (hpool.runsAlike hD hfits hcareful ctx.world.guard ctx.world.tko hids)
    fun hp => hpool.runsAlike_prompt hD hp.1 hfits hp.2 hcareful ctx.world.guard ctx.world.tko hids
  exact executeTasks_checked_spec (ctx.overMap fails) hwf hE hlen

/-- The same database under the same budget. -/
theorem lists_on_disk_tinyDb :
    ∃ count, (runOnDisk tinyDisk (tinyDb.map .ok) tinyContext).1 = .ok count ∧
      ExactOutput tinyDb 45 (runOnDisk tinyDisk (tinyDb.map .ok) tinyContext).2.lines := by
  have hwf : ∀ row ∈ tinyDb, row.WellFormed := by decide
  have hexact := lists_on_disk tinyDisk_lawful hwf (by decide) tinyContext_fresh rfl
    (by decide +kernel)
  obtain ⟨count, hcount⟩ := hexact.returns ⟨tinyDisk_prompt, by decide⟩ lightDb_tinyDb
  exact ⟨count, hcount, (hexact.exact count hcount).1⟩

end HuiMiner

end AirHuim
