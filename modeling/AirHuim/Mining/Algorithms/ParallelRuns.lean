import AirHuim.Mining.Algorithms.HuiMiner
import AirHuim.Mining.ParallelRun

/-!
# The utility-list miners on several threads

What is known of a miner for every schedule of its tasks is known of the threads
of `execute_tasks`, with the channel and the writer between them and the file. The
tasks are those of a build with overflow checks.
-/

namespace AirHuim

open Library

namespace ParallelRun

/-- What the threads have to do with the exact output. -/
structure WritesExactly (db : List SpmfRow) (minUtility : Utility) (s : ParallelRun) : Prop where
  returned : s.main = .returned → ExactOutput db minUtility s.workers.shared.base.lines ∧
    s.workers.shared.base.huisFound = s.workers.shared.base.lines.length
  panicked : ∀ e, s.main = .panicked e → e = .io ∨ e = .overflow ∧ ¬ LightDb db

theorem writesExactly_of_schedules {db : List SpmfRow} {ctx : MiningContext} {w : World}
    {tasks : List (Task Unit)} {s : ParallelRun} (h : AsScheduled ctx w tasks s)
    (hexact : ∀ schedule, (∃ e, (e = .io ∨ e = .overflow ∧ ¬ LightDb db) ∧
        executeTasks { ctx with schedule } w tasks = .error e) ∨
      ∃ w', executeTasks { ctx with schedule } w tasks = .ok w' ∧
        w'.huisFound = w'.lines.length ∧ ExactOutput db ctx.minUtility w'.lines) :
    WritesExactly db ctx.minUtility s where
  returned hmain := by
    obtain ⟨schedule, hrun⟩ := h.returned hmain
    rcases hexact schedule with ⟨e, -, herror⟩ | ⟨w', hok, hcount, hout⟩
    · rw [hrun] at herror
      cases herror
    · rw [hrun] at hok
      cases hok
      exact ⟨hout, hcount⟩
  panicked e hmain := by
    obtain ⟨schedule, hrun⟩ := h.panicked e hmain
    rcases hexact schedule with ⟨e', hfault, herror⟩ | ⟨w', hok, -⟩
    · rw [hrun] at herror
      exact Except.error.inj herror ▸ hfault
    · rw [hrun] at hok
      cases hok

end ParallelRun

namespace Fhm

variable {db : List SpmfRow} (ctx : MiningContext)

/-- The threads of a run as they start on the tasks of its lists. -/
def parallelRun (s : Pass2) (filtered : List ItemList) : ParallelRun :=
  .new { ctx.world with guard := s.guard }
    ((miner s.eucs ctx.minUtility).itemTasksChecked filtered)

/-- FHM on several threads, after its two passes: however they move, when `execute_tasks`
returns the file holds the high-utility itemsets, and a panic is one of the pool or an
overflow, which a light database does not have. -/
theorem writes_exactly (hwf : ∀ row ∈ db, row.WellFormed) (hlen : db.length < 2 ^ 32)
    (hthreads : 1 < ctx.threads) (hfresh : ctx.world.huisFound = 0) {s : Pass2}
    {lists : List ItemList}
    (hpasses : passesChecked ctx.minUtility ctx.world.guard (numbered 0 db) = .ok (s, lists))
    (heucs : s.oom = false) (events : List ParallelEvent) :
    AllStates (ParallelRun.next ctx.threads) (ParallelRun.WritesExactly db ctx.minUtility)
      (parallelRun ctx s lists) events := by
  obtain ⟨rfl, rfl⟩ :=
    Prod.mk.inj (Except.ok.inj ((yields_passesChecked ctx (numbered 0 db)).eq_ok hpasses))
  refine (ParallelRun.run_onCourse ctx.threads _ _ events).mono fun s h =>
    ParallelRun.writesExactly_of_schedules (h.asScheduled hthreads) fun schedule => ?_
  rcases executeTasks_checked_spec { ctx with schedule } hwf (E := (· = .io)) (fun _ _ => rfl)
    heucs hlen with hfault | ⟨w, hrun, hcount, hexact⟩
  · exact Or.inl hfault
  · exact Or.inr ⟨w, hrun, by rw [hcount, hfresh, Nat.zero_add], hexact⟩

/-- One thread does all tasks, in at most `calls` steps each, and the writer keeps up. -/
def oneByOne (tasks calls : ℕ) : List ParallelEvent :=
  ((List.range tasks).flatMap fun i => .work (.take i) ::
    (List.replicate calls [.work (.advance i), .work .move]).flatten) ++
      [.leaveInstall, .finalize, .join]

def tinyThreads : MiningContext := { createCtx 45 none 1073741824 with threads := 2 }

theorem writes_exactly_tinyDb :
    ∃ s lists, passesChecked 45 (.new 1073741824) (numbered 0 tinyDb) = .ok (s, lists) ∧
      AllStates (ParallelRun.next 2) (ParallelRun.WritesExactly tinyDb 45)
        (parallelRun tinyThreads s lists) (oneByOne 3 20) ∧
      (Library.run (ParallelRun.next 2) (parallelRun tinyThreads s lists) (oneByOne 3 20)).main =
        .returned := by
  have hwf : ∀ row ∈ tinyDb, row.WellFormed := by decide
  have hpasses := passesChecked_eq tinyThreads hwf (by decide) (by decide)
  exact ⟨_, _, hpasses, writes_exactly tinyThreads hwf (by decide) (by decide) rfl hpasses
    (by decide) (oneByOne 3 20), by decide +kernel⟩

end Fhm

end AirHuim
