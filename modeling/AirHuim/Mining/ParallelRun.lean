import AirHuim.Library.Workers
import AirHuim.Mining.Context

/-!
# The parallel branch of `execute_tasks`

The worker threads take tasks, and send what they find through a bounded channel
to a thread that writes the file; the main thread waits for the workers, drops its
sender and joins the writer. However the threads move, what is in the file when
`execute_tasks` returns is what some schedule of the tasks writes, so the results
about all schedules are about this program too. The threads always get to the end:
a full channel makes the workers wait for the writer, which never waits for them.
-/

namespace AirHuim

open Library

/-- The capacity of the channel. -/
def channelBound : ℕ := 100000

/-- What the tasks share; `base.lines` is the file, as far as it has been written. -/
structure ChannelWorld where
  base : World
  queue : List Line

namespace ChannelWorld

/-- A call of a task. `tx.send` waits while the channel is full. -/
def exec : (op : MinerOp) → ChannelWorld → Option (minerInterface.Res op × ChannelWorld)
  | .writeHui itemset u, c =>
    if c.queue.length < channelBound then some ((), { c with queue := c.queue ++ [(itemset, u)] })
    else none
  | op, c => some ((world.exec op c.base).1, { c with base := (world.exec op c.base).2 })

/-- The writer thread receives a line and writes it. -/
def recv (c : ChannelWorld) : Option ChannelWorld :=
  match c.queue with
  | [] => none
  | line :: queue => some { base := { c.base with lines := c.base.lines ++ [line] }, queue }

/-- The world in which every line that was sent has been written. -/
def delivered (c : ChannelWorld) : World := { c.base with lines := c.base.lines ++ c.queue }

end ChannelWorld

abbrev channelWorld : WaitingObject minerInterface where
  State := ChannelWorld
  exec := ChannelWorld.exec
  move := ChannelWorld.recv

/-- Where the main thread is. -/
inductive MainPc
  /-- In `pool_rayon.install`. -/
  | installing
  /-- `tx_hui` is dropped; in `writer_thread.join`. -/
  | joining
  | returned
  /-- The panic of a task has come out of `install`. -/
  | panicked (e : Fault)
  deriving DecidableEq

def MainPc.ended : MainPc → Bool
  | returned => true
  | panicked _ => true
  | _ => false

structure ParallelRun where
  workers : Workers channelWorld (Except Fault Unit)
  main : MainPc
  /-- The writer has left its loop and flushed the file. -/
  finalized : Bool

inductive ParallelEvent
  | work (e : WorkerEvent)
  /-- `install` returns, or panics, when all tasks have ended. -/
  | leaveInstall
  /-- `recv` fails: the channel is empty and has no sender any more. -/
  | finalize
  | join
  deriving DecidableEq

namespace ParallelRun

def new (w : World) (tasks : List (Task Unit)) : ParallelRun where
  workers := .new (tasks.map ExceptT.run) ⟨{ w with lines := [] }, []⟩
  main := .installing
  finalized := false

/-- `none` if the event cannot happen now. -/
def step? (threads : ℕ) (s : ParallelRun) : ParallelEvent → Option ParallelRun
  | .work e => (s.workers.step? threads e).map fun workers => { s with workers }
  | .leaveInstall =>
    match s.main, s.workers.results? with
    | .installing, some results =>
      match firstFault results with
      | some e => some { s with main := .panicked e }
      | none => some { s with main := .joining }
    | _, _ => none
  | .finalize =>
    if s.finalized = false ∧ s.main ≠ .installing ∧ s.workers.shared.queue = [] then
      some { s with finalized := true }
    else none
  | .join => if s.main = .joining ∧ s.finalized then some { s with main := .returned } else none

/-- An event that cannot happen changes nothing. -/
def next (threads : ℕ) (s : ParallelRun) (e : ParallelEvent) : ParallelRun :=
  (s.step? threads e).getD s

end ParallelRun

/-! ## What the threads do is what some schedule does -/

namespace ChannelWorld

variable {c c' : ChannelWorld} {op : MinerOp} {r : minerInterface.Res op}

/-- A call sees and does what it sees and does in the world of all lines sent. -/
theorem delivered_exec (h : c.exec op = some (r, c')) :
    r = (world.exec op c.delivered).1 ∧ (world.exec op c.delivered).2 = c'.delivered := by
  cases op with
  | writeHui itemset u =>
    simp only [exec] at h
    split_ifs at h
    cases h
    simp [delivered]
  | _ =>
    cases h
    exact ⟨rfl, rfl⟩

theorem delivered_recv (h : c.recv = some c') : c'.delivered = c.delivered := by
  simp only [recv] at h
  split at h
  · cases h
  · rename_i line queue hqueue
    cases h
    simp [delivered, hqueue]

/-- The relation of the channel's state to the world that tasks see. -/
def Delivers (c : ChannelWorld) (t : World) : Prop := t = c.delivered

theorem simulates_world : Workers.Simulates channelWorld world Delivers where
  exec op c t r c' ht h := by
    subst ht
    exact delivered_exec h
  move c t c' ht h := by
    subst ht
    exact (delivered_recv h).symm

theorem length_queue_exec (hc : c.queue.length ≤ channelBound) (h : c.exec op = some (r, c')) :
    c'.queue.length ≤ channelBound := by
  cases op with
  | writeHui itemset u =>
    simp only [exec] at h
    split_ifs at h with hroom
    cases h
    rw [List.length_append]
    exact hroom
  | _ =>
    cases h
    exact hc

theorem length_queue_recv (h : c.recv = some c') : c'.queue.length < c.queue.length := by
  simp only [recv] at h
  split at h
  · cases h
  · rename_i line queue hqueue
    cases h
    simp [hqueue]

/-- A call waits only for a full channel, which the writer can take from. -/
theorem exists_recv_of_waits (h : c.exec op = none) : ∃ c', c.recv = some c' := by
  cases op with
  | writeHui itemset u =>
    simp only [exec] at h
    split_ifs at h with hroom
    cases hqueue : c.queue with
    | nil => exact (hroom (by simp [hqueue, channelBound])).elim
    | cons line queue => exact ⟨_, by simp only [recv, hqueue]; rfl⟩
  | _ => cases h

theorem recv_wellFounded : WellFounded fun c' c : ChannelWorld => c.recv = some c' :=
  Subrelation.wf (fun h => length_queue_recv h) (measure fun c : ChannelWorld => c.queue.length).wf

end ChannelWorld

namespace ParallelRun

variable {threads : ℕ} {s s' : ParallelRun} {e : ParallelEvent}

/-- Everything that can happen in one step. -/
theorem step?_cases (h : s.step? threads e = some s') :
    (∃ e workers, s.workers.step? threads e = some workers ∧ s' = { s with workers }) ∨
    (∃ results, s.main = .installing ∧ s.workers.jobs = results.map .done ∧
      s' = { s with main := match firstFault results with
        | some e => .panicked e
        | none => .joining }) ∨
    (s.finalized = false ∧ s.main ≠ .installing ∧ s.workers.shared.queue = [] ∧
      s' = { s with finalized := true }) ∨
    (s.main = .joining ∧ s.finalized = true ∧ s' = { s with main := .returned }) := by
  cases e with
  | work e =>
    obtain ⟨workers, hstep, rfl⟩ := Option.map_eq_some_iff.mp h
    exact Or.inl ⟨e, workers, hstep, rfl⟩
  | leaveInstall =>
    simp only [step?] at h
    split at h
    · rename_i results hmain hresults
      refine Or.inr (Or.inl ⟨results, hmain, Workers.results?_eq_some.mp hresults, ?_⟩)
      cases hfault : firstFault results with
      | some e =>
        rw [hfault] at h
        exact (Option.some.inj h).symm
      | none =>
        rw [hfault] at h
        exact (Option.some.inj h).symm
    · cases h
  | finalize =>
    simp only [step?] at h
    split_ifs at h with hcond
    cases h
    exact Or.inr (Or.inr (Or.inl ⟨hcond.1, hcond.2.1, hcond.2.2, rfl⟩))
  | join =>
    simp only [step?] at h
    split_ifs at h with hcond
    cases h
    exact Or.inr (Or.inr (Or.inr ⟨hcond.1, hcond.2, rfl⟩))

/-- What holds at every moment of a run. -/
structure OnCourse (threads : ℕ) (w : World) (tasks : List (Task Unit)) (s : ParallelRun) :
    Prop where
  course : ∃ sched, s.workers.Matches ChannelWorld.Delivers
    (Prog.moves world sched (tasks.map ExceptT.run) { w with lines := [] })
  busy : s.workers.busy ≤ threads
  queue : s.workers.shared.queue.length ≤ channelBound
  left : s.main ≠ .installing → ∃ results, s.workers.jobs = results.map .done ∧
    firstFault results = match s.main with
      | .panicked e => some e
      | _ => none
  finalized : s.finalized = true → s.main ≠ .installing ∧ s.workers.shared.queue = []
  returned : s.main = .returned → s.finalized = true

variable {w : World} {tasks : List (Task Unit)}

theorem OnCourse.new (threads : ℕ) (w : World) (tasks : List (Task Unit)) :
    OnCourse threads w tasks (new w tasks) where
  course := ⟨[], Workers.Matches.new (by simp [ChannelWorld.Delivers, ChannelWorld.delivered])⟩
  busy := by simp [ParallelRun.new, Workers.new, Workers.busy, Function.comp_def, Job.isRunning]
  queue := Nat.zero_le _
  left h := (h rfl).elim
  finalized := nofun
  returned := nofun

theorem OnCourse.work (h : OnCourse threads w tasks s) {e : WorkerEvent}
    {workers : Workers channelWorld (Except Fault Unit)}
    (hstep : s.workers.step? threads e = some workers) :
    OnCourse threads w tasks { s with workers } where
  course := by
    obtain ⟨sched, hmatches⟩ := h.course
    obtain ⟨later, hnext⟩ := hmatches.step ChannelWorld.simulates_world hstep
    refine ⟨sched ++ later, ?_⟩
    rw [Prog.moves_append]
    exact hnext
  busy := Workers.busy_le_step h.busy hstep
  queue := by
    obtain ⟨i, p, -, -, rfl⟩ | ⟨i, a, -, rfl⟩ | ⟨i, op, k, r, c, -, hexec, rfl⟩ | ⟨c, hrecv, rfl⟩ :=
      Workers.step?_cases hstep
    · exact h.queue
    · exact h.queue
    · exact ChannelWorld.length_queue_exec h.queue hexec
    · exact (ChannelWorld.length_queue_recv hrecv).le.trans h.queue
  left hmain := by
    obtain ⟨results, hdone, hfault⟩ := h.left hmain
    obtain ⟨c, -, rfl⟩ := Workers.step?_of_done hdone hstep
    exact ⟨results, hdone, hfault⟩
  finalized hfinal := by
    obtain ⟨hmain, hempty⟩ := h.finalized hfinal
    obtain ⟨results, hdone, -⟩ := h.left hmain
    obtain ⟨c, hrecv, rfl⟩ := Workers.step?_of_done hdone hstep
    -- the writer has nothing to receive any more
    have hshorter := ChannelWorld.length_queue_recv hrecv
    rw [hempty] at hshorter
    exact (Nat.not_lt_zero _ hshorter).elim
  returned := h.returned

theorem OnCourse.step (h : OnCourse threads w tasks s) (hstep : s.step? threads e = some s') :
    OnCourse threads w tasks s' := by
  obtain ⟨e, workers, hwork, rfl⟩ | ⟨results, hmain, hdone, rfl⟩ | ⟨-, hmain, hempty, rfl⟩ |
    ⟨hmain, hfinal, rfl⟩ := step?_cases hstep
  · exact h.work hwork
  · refine ⟨h.course, h.busy, h.queue, fun _ => ⟨results, hdone, ?_⟩, fun hfinal => ?_, ?_⟩
    · cases hfault : firstFault results <;> rfl
    · exact ((h.finalized hfinal).1 hmain).elim
    · cases hfault : firstFault results <;> simp
  · exact ⟨h.course, h.busy, h.queue, h.left, fun _ => ⟨hmain, hempty⟩, fun _ => rfl⟩
  · have hleft : s.main ≠ .installing := by simp [hmain]
    obtain ⟨results, hdone, hfault⟩ := h.left hleft
    rw [hmain] at hfault
    exact ⟨h.course, h.busy, h.queue, fun _ => ⟨results, hdone, hfault⟩,
      fun _ => ⟨nofun, (h.finalized hfinal).2⟩, fun _ => hfinal⟩

/-- What a run of the threads has to do with the runs of the tasks under a schedule. -/
structure AsScheduled (ctx : MiningContext) (w : World) (tasks : List (Task Unit))
    (s : ParallelRun) : Prop where
  /-- No more tasks run at a time than there are threads. -/
  busy : s.workers.busy ≤ ctx.threads
  /-- The channel holds no more than its capacity. -/
  queue : s.workers.shared.queue.length ≤ channelBound
  returned : s.main = .returned →
    ∃ schedule, executeTasks { ctx with schedule } w tasks = .ok s.workers.shared.base
  panicked : ∀ e, s.main = .panicked e →
    ∃ schedule, executeTasks { ctx with schedule } w tasks = .error e

theorem OnCourse.interleave (h : OnCourse threads w tasks s) (hmain : s.main ≠ .installing) :
    ∃ sched, firstFault (Prog.interleave world sched (tasks.map ExceptT.run)
        { w with lines := [] }).1 = (match s.main with
          | .panicked e => some e
          | _ => none) ∧
      (Prog.interleave world sched (tasks.map ExceptT.run) { w with lines := [] }).2 =
        s.workers.shared.delivered := by
  obtain ⟨results, hdone, hfault⟩ := h.left hmain
  obtain ⟨sched, hmatches⟩ := h.course
  have hend := hmatches.interleave hdone
  exact ⟨sched, by rw [hend, hfault], by rw [hend]; exact hmatches.2⟩

theorem OnCourse.asScheduled {ctx : MiningContext} (hthreads : 1 < ctx.threads)
    (h : OnCourse ctx.threads w tasks s) : AsScheduled ctx w tasks s where
  busy := h.busy
  queue := h.queue
  returned hmain := by
    obtain ⟨sched, hfault, hend⟩ := h.interleave (by simp [hmain])
    have hempty := (h.finalized (h.returned hmain)).2
    refine ⟨sched, ?_⟩
    rw [hmain] at hfault
    simp only [executeTasks, if_pos hthreads, hfault, hend, ChannelWorld.delivered, hempty,
      List.append_nil]
  panicked e hmain := by
    obtain ⟨sched, hfault, -⟩ := h.interleave (by simp [hmain])
    refine ⟨sched, ?_⟩
    rw [hmain] at hfault
    simp only [executeTasks, if_pos hthreads, hfault]

theorem run_onCourse (threads : ℕ) (w : World) (tasks : List (Task Unit))
    (events : List ParallelEvent) :
    AllStates (next threads) (OnCourse threads w tasks) (new w tasks) events := by
  refine AllStates.of_forall (fun s e h => ?_) (OnCourse.new threads w tasks) events
  cases hstep : s.step? threads e with
  | none => rwa [next, hstep]
  | some s' =>
    rw [next, hstep]
    exact h.step hstep

/-- However the threads move: when `execute_tasks` returns, the file and all that
the tasks share are as some schedule leaves them, and when it panics, so does the
run under some schedule. -/
theorem follows_schedule (ctx : MiningContext) (hthreads : 1 < ctx.threads) (w : World)
    (tasks : List (Task Unit)) (events : List ParallelEvent) :
    AllStates (next ctx.threads) (AsScheduled ctx w tasks) (new w tasks) events :=
  (run_onCourse ctx.threads w tasks events).mono fun _ h => h.asScheduled hthreads

/-- Two threads and two tasks that write a line each, the second one first. -/
def twoWriters : List ParallelEvent :=
  [.work (.take 0), .work (.take 1), .work (.advance 1), .work (.advance 0), .work .move,
    .work (.advance 0), .work (.advance 1), .leaveInstall, .work .move, .finalize, .join]

theorem follows_schedule_two :
    AllStates (next 2) (AsScheduled { createCtx 1 none 0 with threads := 2 } (.fresh 0)
        [Task.writeHui [1] 5, Task.writeHui [2] 7])
      (new (.fresh 0) [Task.writeHui [1] 5, Task.writeHui [2] 7]) twoWriters ∧
    (run (next 2) (new (.fresh 0) [Task.writeHui [1] 5, Task.writeHui [2] 7])
      twoWriters).main = .returned :=
  ⟨follows_schedule { createCtx 1 none 0 with threads := 2 } (by decide) (.fresh 0)
    [Task.writeHui [1] 5, Task.writeHui [2] 7] twoWriters, by decide +kernel⟩

/-! ## The threads always get to the end -/

/-- As long as the main thread has not ended, some thread can move. -/
theorem exists_step (hthreads : 0 < threads) (s : ParallelRun) (hmain : s.main.ended = false) :
    ∃ e s', s.step? threads e = some s' := by
  have hwriter : ∀ {c}, s.workers.shared.recv = some c → ∃ e s', s.step? threads e = some s' := by
    intro c hrecv
    exact ⟨.work .move, _, by simp only [step?, Workers.step?, hrecv]; rfl⟩
  cases hpc : s.main with
  | installing =>
    rcases s.workers.exists_step hthreads fun op c => ChannelWorld.exists_recv_of_waits with
      ⟨e, workers, hwork⟩ | ⟨results, hdone⟩
    · exact ⟨.work e, _, by simp only [step?, hwork]; rfl⟩
    · have hresults := Workers.results?_eq_some.mpr hdone
      refine ⟨.leaveInstall, { s with main := match firstFault results with
        | some e => .panicked e
        | none => .joining }, ?_⟩
      simp only [step?, hpc, hresults]
      cases firstFault results <;> rfl
  | joining =>
    cases hfinal : s.finalized with
    | true => exact ⟨.join, _, by simp only [step?, hpc, hfinal]; rfl⟩
    | false =>
      cases hqueue : s.workers.shared.queue with
      | nil => exact ⟨.finalize, _, by simp only [step?, hpc, hfinal, hqueue]; rfl⟩
      | cons line queue => exact hwriter (by simp only [ChannelWorld.recv, hqueue]; rfl)
  | returned => simp [hpc, MainPc.ended] at hmain
  | panicked e => simp [hpc, MainPc.ended] at hmain

/-- The steps of the main thread and of the writer that are still to come. -/
def left (s : ParallelRun) : ℕ :=
  (match s.main with
    | .installing => 2
    | .joining => 1
    | _ => 0) + (!s.finalized).toNat

theorem step_wellFounded (threads : ℕ) :
    WellFounded fun s' s : ParallelRun => ∃ e, s.step? threads e = some s' := by
  have hworkers : WellFounded fun w' w : Workers channelWorld (Except Fault Unit) =>
      ∃ e, w.step? threads e = some w' :=
    Workers.step_wellFounded ChannelWorld.recv_wellFounded
  refine Subrelation.wf ?_ (InvImage.wf (fun s : ParallelRun => (s.workers, s.left))
    (hworkers.prod_lex wellFounded_lt))
  rintro s' s ⟨e, hstep⟩
  obtain ⟨e, workers, hwork, rfl⟩ | ⟨results, hmain, -, rfl⟩ | ⟨hfinal, -, -, rfl⟩ |
    ⟨hmain, -, rfl⟩ := step?_cases hstep
  · exact Prod.Lex.left _ _ ⟨e, hwork⟩
  · refine Prod.Lex.right _ ?_
    cases hfault : firstFault results <;> simp [left, hmain]
  · refine Prod.Lex.right _ ?_
    simp [left, hfinal]
  · refine Prod.Lex.right _ ?_
    simp [left, hmain]

/-- From no state can the threads move for ever, and until the main thread has
ended one of them can move: the bounded channel cannot bring them to a halt. -/
theorem always_ends (hthreads : 0 < threads) :
    (∀ s : ParallelRun, s.main.ended = false → ∃ e s', s.step? threads e = some s') ∧
      ∀ f : ℕ → ParallelRun, ∃ n, ∀ e, (f n).step? threads e ≠ some (f (n + 1)) := by
  refine ⟨fun s hmain => exists_step hthreads s hmain, fun f => ?_⟩
  have : IsWellFounded ParallelRun fun s' s => ∃ e, s.step? threads e = some s' :=
    ⟨step_wellFounded threads⟩
  obtain ⟨n, hn⟩ := WellFounded.not_rel_apply_succ
    (r := fun s' s : ParallelRun => ∃ e, s.step? threads e = some s') f
  exact ⟨n, fun e hstep => hn ⟨e, hstep⟩⟩

theorem always_ends_two :
    (∀ s : ParallelRun, s.main.ended = false → ∃ e s', s.step? 2 e = some s') ∧
      ∀ f : ℕ → ParallelRun, ∃ n, ∀ e, (f n).step? 2 e ≠ some (f (n + 1)) :=
  always_ends (by decide)

end ParallelRun

end AirHuim
