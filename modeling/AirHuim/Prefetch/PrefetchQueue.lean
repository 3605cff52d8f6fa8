import AirHuim.Types
import AirHuim.Library.Trace

/-!
# The prefetch queue

Requests go through a channel to a worker, which receives one, pushes it on a
heap, and then pops and issues until the heap is empty. It receives again only
then, so the heap never holds two requests and the order of issue is the order
of submission, whatever the priorities.
-/

namespace AirHuim

open Library

structure PrefetchRequest (π : Type*) where
  pageId : UInt64
  priority : π
  deriving DecidableEq, Repr

/-- Where the worker is in its loop. -/
inductive WorkerPlace (π : Type*)
  /-- `rx.recv()` -/
  | receiving
  /-- Received, not yet on the heap. -/
  | pushing (request : PrefetchRequest π)
  /-- The inner loop. -/
  | draining
  deriving DecidableEq, Repr

/-- The queue, with the requests submitted and issued so far. -/
structure PrefetchQueue (π : Type*) where
  channel : List (PrefetchRequest π)
  place : WorkerPlace π
  heap : List (PrefetchRequest π)
  submitted : List (PrefetchRequest π)
  issued : List (PrefetchRequest π)
  deriving DecidableEq, Repr

inductive QueueEvent (π : Type*)
  | submit (request : PrefetchRequest π)
  | receive
  | push
  /-- The heap pops its entry `i`, one of highest priority. -/
  | pop (i : ℕ)
  /-- The heap is empty and the inner loop ends. -/
  | drained
  deriving DecidableEq, Repr

def QueueEvent.OfWorker {π : Type*} : QueueEvent π → Prop
  | .submit _ => False
  | _ => True

namespace PrefetchQueue

section Handle

variable {π : Type*}

def new : PrefetchQueue π := ⟨[], .receiving, [], [], []⟩

def submit (q : PrefetchQueue π) (request : PrefetchRequest π) : PrefetchQueue π :=
  { q with channel := q.channel ++ [request], submitted := q.submitted ++ [request] }

/-- `submit_predictions`: one `submit` after the other. -/
def submitPredictions (q : PrefetchQueue π) (predictions : List (PrefetchRequest π)) :
    PrefetchQueue π :=
  predictions.foldl submit q

/-- Received but not on the heap. -/
def held (q : PrefetchQueue π) : List (PrefetchRequest π) :=
  match q.place with
  | .pushing request => [request]
  | _ => []

/-- Submitted and not yet issued. -/
def waiting (q : PrefetchQueue π) : List (PrefetchRequest π) := q.heap ++ q.held ++ q.channel

/-- The moves the worker needs until it waits at an empty channel. -/
def remaining (q : PrefetchQueue π) : ℕ :=
  4 * q.channel.length +
    match q.place with
    | .receiving => 0
    | .pushing _ => 3
    | .draining => q.heap.length + 1

theorem waiting_submit (q : PrefetchQueue π) (request : PrefetchRequest π) :
    (q.submit request).waiting = q.waiting ++ [request] := by
  simp [waiting, submit, held]

/-- The heap holds a request only while the worker drains it, and then only one. -/
structure Wf (q : PrefetchQueue π) : Prop where
  empty : q.place ≠ .draining → q.heap = []
  single : q.heap.length ≤ 1
  once : q.submitted = q.issued ++ q.waiting

theorem wf_new : (new : PrefetchQueue π).Wf where
  empty _ := rfl
  single := by simp [new]
  once := rfl

/-- Where no move is left, nothing waits. -/
theorem Wf.issued_of_remaining {q : PrefetchQueue π} (h : q.Wf) (hremaining : q.remaining = 0) :
    q.issued = q.submitted := by
  have hwaiting : q.waiting = [] := by
    cases hplace : q.place with
    | receiving =>
      have hheap := h.empty (by simp [hplace])
      simp only [remaining, hplace] at hremaining
      have hchannel : q.channel = [] := List.length_eq_zero_iff.mp (by omega)
      simp [waiting, held, hplace, hheap, hchannel]
    | pushing request => simp [remaining, hplace] at hremaining
    | draining => simp [remaining, hplace] at hremaining
  rw [h.once, hwaiting, List.append_nil]

end Handle

variable {π : Type*} [LinearOrder π]

/-- The request that a pop of entry `i` returns: `BinaryHeap` returns a greatest one. -/
def popped (q : PrefetchQueue π) (i : ℕ) : Option (PrefetchRequest π) :=
  match q.place with
  | .draining => q.heap[i]?.filter fun r => q.heap.all fun r' => r'.priority ≤ r.priority
  | _ => none

/-- An event that the worker's place does not allow leaves the queue as it is. -/
def step (q : PrefetchQueue π) : QueueEvent π → PrefetchQueue π
  | .submit request => q.submit request
  | .receive =>
    match q.place, q.channel with
    | .receiving, request :: rest => { q with place := .pushing request, channel := rest }
    | _, _ => q
  | .push =>
    match q.place with
    | .pushing request => { q with place := .draining, heap := request :: q.heap }
    | _ => q
  | .pop i =>
    match q.popped i with
    | some request => { q with heap := q.heap.eraseIdx i, issued := q.issued ++ [request] }
    | none => q
  | .drained =>
    match q.place, q.heap with
    | .draining, [] => { q with place := .receiving }
    | _, _ => q

/-- A list of predictions is a run of submissions. -/
theorem submitPredictions_eq_run (q : PrefetchQueue π) (predictions : List (PrefetchRequest π)) :
    q.submitPredictions predictions = run step q (predictions.map .submit) := by
  rw [submitPredictions, run, List.foldl_map]
  rfl

/-- The request that an event issues. -/
def issuedBy (q : PrefetchQueue π) : QueueEvent π → Option (PrefetchRequest π)
  | .pop i => q.popped i
  | _ => none

/-- A request is issued only if none of higher priority waits. -/
def ServesHighest (q : PrefetchQueue π) (e : QueueEvent π) : Prop :=
  ∀ request, q.issuedBy e = some request → ∀ other ∈ q.waiting, other.priority ≤ request.priority

/-- Nothing of lower priority waits when a request is submitted. -/
def SubmitsLast (q : PrefetchQueue π) : QueueEvent π → Prop
  | .submit request => ∀ other ∈ q.waiting, request.priority ≤ other.priority
  | _ => True

instance decidableSubmitsLast (q : PrefetchQueue π) : ∀ e, Decidable (q.SubmitsLast e)
  | .submit _ => List.decidableBAll _ q.waiting
  | .receive | .push | .pop _ | .drained => isTrue trivial

/-- Every request submitted is issued exactly once: the others still wait, the
worker can move as long as any does, and its moves come to all of them. -/
structure IssuesOnce (q : PrefetchQueue π) : Prop where
  once : q.submitted = q.issued ++ q.waiting
  moves : q.remaining ≠ 0 → ∃ e : QueueEvent π, e.OfWorker ∧ q.step e ≠ q
  drains : ∀ worker : List (QueueEvent π), (∀ e ∈ worker, e.OfWorker) →
    AllSteps step (fun q e => q.step e ≠ q) q worker →
      worker.length ≤ q.remaining ∧
        (worker.length = q.remaining → (run step q worker).issued = q.submitted)

/-! ## One step -/

/-- What an event does to a queue. -/
inductive Effect (q : PrefetchQueue π) : QueueEvent π → Prop
  | submitted (request : PrefetchRequest π) : Effect q (.submit request)
  | received {request : PrefetchRequest π} {rest : List (PrefetchRequest π)}
      (place : q.place = .receiving) (channel : q.channel = request :: rest) : Effect q .receive
  | pushed {request : PrefetchRequest π} (place : q.place = .pushing request) : Effect q .push
  | popped {request : PrefetchRequest π} (place : q.place = .draining) (heap : q.heap = [request]) :
      Effect q (.pop 0)
  | drained (place : q.place = .draining) (heap : q.heap = []) : Effect q .drained
  | nothing {e : QueueEvent π} (worker : e.OfWorker) (same : q.step e = q)
      (issued : q.issuedBy e = none) : Effect q e

variable {q : PrefetchQueue π}

theorem popped_single {request : PrefetchRequest π} (hplace : q.place = .draining)
    (hheap : q.heap = [request]) : q.popped 0 = some request := by
  simp [popped, hplace, hheap]

theorem Wf.effect (h : q.Wf) (e : QueueEvent π) : q.Effect e := by
  cases e with
  | submit request => exact .submitted request
  | receive =>
    cases hplace : q.place with
    | receiving =>
      cases hchannel : q.channel with
      | nil => exact .nothing trivial (by simp [step, hplace, hchannel]) rfl
      | cons request rest => exact .received hplace hchannel
    | pushing request => exact .nothing trivial (by simp [step, hplace]) rfl
    | draining => exact .nothing trivial (by simp [step, hplace]) rfl
  | push =>
    cases hplace : q.place with
    | receiving => exact .nothing trivial (by simp [step, hplace]) rfl
    | pushing request => exact .pushed hplace
    | draining => exact .nothing trivial (by simp [step, hplace]) rfl
  | pop i =>
    cases hpopped : q.popped i with
    | none => exact .nothing trivial (by simp [step, hpopped]) hpopped
    | some request =>
      have hplace : q.place = .draining := by
        unfold popped at hpopped
        split at hpopped
        · assumption
        · cases hpopped
      have hentry : q.heap[i]? = some request := by
        simp only [popped, hplace] at hpopped
        exact (Option.filter_eq_some_iff.mp hpopped).1
      have hlt : i < q.heap.length := (List.getElem?_eq_some_iff.mp hentry).1
      have hsingle := h.single
      obtain rfl : i = 0 := by omega
      have hheap : q.heap = [request] := by
        obtain ⟨first, hfirst⟩ := List.length_eq_one_iff.mp (show q.heap.length = 1 by omega)
        rw [hfirst] at hentry ⊢
        simpa using hentry
      exact .popped hplace hheap
  | drained =>
    cases hplace : q.place with
    | receiving => exact .nothing trivial (by simp [step, hplace]) rfl
    | pushing request => exact .nothing trivial (by simp [step, hplace]) rfl
    | draining =>
      cases hheap : q.heap with
      | nil => exact .drained hplace hheap
      | cons request rest => exact .nothing trivial (by simp [step, hplace, hheap]) rfl

theorem step_pop_single {request : PrefetchRequest π} (hplace : q.place = .draining)
    (hheap : q.heap = [request]) :
    q.step (.pop 0) = { q with heap := [], issued := q.issued ++ [request] } := by
  simp [step, popped_single hplace hheap, hheap]

theorem step_drained (hplace : q.place = .draining) (hheap : q.heap = []) :
    q.step .drained = { q with place := .receiving } := by
  simp [step, hplace, hheap]

theorem Wf.step (h : q.Wf) (e : QueueEvent π) : (q.step e).Wf := by
  have honce := h.once
  cases h.effect e with
  | submitted request =>
    exact ⟨h.empty, h.single, by simp [PrefetchQueue.step, submit, waiting, held, honce]⟩
  | received hplace hchannel =>
    have hheap := h.empty (by simp [hplace])
    rw [PrefetchQueue.step, hplace, hchannel]
    refine ⟨fun _ => hheap, h.single, ?_⟩
    simp [waiting, held, hplace, hchannel, hheap, honce]
  | pushed hplace =>
    have hheap := h.empty (by simp [hplace])
    rw [PrefetchQueue.step, hplace]
    refine ⟨fun hne => (hne rfl).elim, by simp [hheap], ?_⟩
    simp [waiting, held, hplace, hheap, honce]
  | popped hplace hheap =>
    rw [step_pop_single hplace hheap]
    exact ⟨fun _ => rfl, by simp, by simp [waiting, held, hplace, hheap, honce]⟩
  | drained hplace hheap =>
    rw [step_drained hplace hheap]
    exact ⟨fun _ => hheap, h.single, by simp [waiting, held, hplace, hheap, honce]⟩
  | nothing _ hsame _ =>
    rw [hsame]
    exact h

theorem Wf.run (h : q.Wf) (events : List (QueueEvent π)) :
    (Library.run PrefetchQueue.step q events).Wf := by
  induction events generalizing q with
  | nil => exact h
  | cons e events ih => exact ih (h.step e)

/-- A list of predictions keeps what every run keeps. -/
theorem Wf.submitPredictions (h : q.Wf) (predictions : List (PrefetchRequest π)) :
    (q.submitPredictions predictions).Wf := by
  rw [submitPredictions_eq_run]
  exact h.run (predictions.map .submit)

/-- The request issued was the first that waited. -/
theorem Wf.waiting_of_issuedBy (h : q.Wf) {e : QueueEvent π} {request : PrefetchRequest π}
    (hissued : q.issuedBy e = some request) : q.waiting = request :: (q.step e).waiting := by
  cases h.effect e with
  | popped hplace hheap =>
    obtain rfl : _ = request := Option.some.inj ((popped_single hplace hheap).symm.trans hissued)
    simp [step_pop_single hplace hheap, waiting, held, hplace, hheap]
  | nothing _ _ hnone => cases hnone.symm.trans hissued
  | _ => cases hissued

/-- A worker's event that issues nothing leaves the same requests waiting. -/
theorem Wf.waiting_of_worker (h : q.Wf) {e : QueueEvent π} (hworker : e.OfWorker)
    (hissued : q.issuedBy e = none) : (q.step e).waiting = q.waiting := by
  cases h.effect e with
  | submitted => exact hworker.elim
  | received hplace hchannel =>
    have hheap := h.empty (by simp [hplace])
    simp [PrefetchQueue.step, waiting, held, hplace, hchannel, hheap]
  | pushed hplace =>
    have hheap := h.empty (by simp [hplace])
    simp [PrefetchQueue.step, waiting, held, hplace, hheap]
  | popped hplace hheap => cases (popped_single hplace hheap).symm.trans hissued
  | drained hplace hheap => simp [PrefetchQueue.step, waiting, held, hplace, hheap]
  | nothing _ hsame _ => rw [hsame]

/-! ## Exactly once -/

/-- Every move of the worker brings it one move closer to the empty channel. -/
theorem Wf.remaining_step (h : q.Wf) {e : QueueEvent π} (hworker : e.OfWorker)
    (hmove : q.step e ≠ q) : (q.step e).remaining + 1 = q.remaining := by
  cases h.effect e with
  | submitted => exact hworker.elim
  | received hplace hchannel =>
    simp [PrefetchQueue.step, remaining, hplace, hchannel]
    omega
  | pushed hplace =>
    have hheap := h.empty (by simp [hplace])
    simp [PrefetchQueue.step, remaining, hplace, hheap]
  | popped hplace hheap => simp [step_pop_single hplace hheap, remaining, hplace, hheap]
  | drained hplace hheap => simp [PrefetchQueue.step, remaining, hplace, hheap]
  | nothing _ hsame _ => exact (hmove hsame).elim

theorem Wf.exists_move (h : q.Wf) (hremaining : q.remaining ≠ 0) :
    ∃ e : QueueEvent π, e.OfWorker ∧ q.step e ≠ q := by
  cases hplace : q.place with
  | receiving =>
    cases hchannel : q.channel with
    | nil => simp [remaining, hplace, hchannel] at hremaining
    | cons request rest =>
      refine ⟨.receive, trivial, fun hsame => ?_⟩
      have hnext := congrArg place hsame
      simp [PrefetchQueue.step, hplace, hchannel] at hnext
  | pushing request =>
    refine ⟨.push, trivial, fun hsame => ?_⟩
    have hnext := congrArg place hsame
    simp [PrefetchQueue.step, hplace] at hnext
  | draining =>
    cases hheap : q.heap with
    | nil =>
      refine ⟨.drained, trivial, fun hsame => ?_⟩
      have hnext := congrArg place hsame
      simp [PrefetchQueue.step, hplace, hheap] at hnext
    | cons request rest =>
      have hsingle := h.single
      obtain rfl : rest = [] := by
        rw [hheap, List.length_cons] at hsingle
        exact List.length_eq_zero_iff.mp (by omega)
      refine ⟨.pop 0, trivial, fun hsame => ?_⟩
      have hnext := congrArg heap hsame
      simp [step_pop_single hplace hheap, hheap] at hnext

theorem Wf.drains (h : q.Wf) {worker : List (QueueEvent π)} (hworker : ∀ e ∈ worker, e.OfWorker)
    (hmoves : AllSteps PrefetchQueue.step (fun q e => q.step e ≠ q) q worker) :
    (Library.run PrefetchQueue.step q worker).remaining + worker.length = q.remaining ∧
      (Library.run PrefetchQueue.step q worker).submitted = q.submitted := by
  induction worker generalizing q with
  | nil => exact ⟨rfl, rfl⟩
  | cons e worker ih =>
    have hfirst := hworker e List.mem_cons_self
    have hstep := h.remaining_step hfirst hmoves.1
    obtain ⟨hlength, hsubmitted⟩ := ih (h.step e)
      (fun e' he' => hworker e' (List.mem_cons_of_mem e he')) hmoves.2
    have hsame : (q.step e).submitted = q.submitted := by
      cases h.effect e with
      | submitted => exact hfirst.elim
      | received hplace hchannel => simp [PrefetchQueue.step, hplace, hchannel]
      | pushed hplace => simp [PrefetchQueue.step, hplace]
      | popped hplace hheap => rw [step_pop_single hplace hheap]
      | drained hplace hheap => simp [PrefetchQueue.step, hplace, hheap]
      | nothing _ hsame _ => rw [hsame]
    rw [Library.run, List.foldl_cons]
    simp only [Library.run] at hlength hsubmitted
    exact ⟨by rw [List.length_cons]; omega, hsubmitted.trans hsame⟩

theorem Wf.issuesOnce (h : q.Wf) : q.IssuesOnce where
  once := h.once
  moves := h.exists_move
  drains worker hworker hmoves := by
    obtain ⟨hlength, hsubmitted⟩ := h.drains hworker hmoves
    refine ⟨by omega, fun hall => ?_⟩
    rw [(h.run worker).issued_of_remaining (by omega), hsubmitted]

/-! ## By priority -/

/-- What waits is in falling order of priority. -/
def Falling (q : PrefetchQueue π) : Prop :=
  q.waiting.Pairwise fun first later => later.priority ≤ first.priority

theorem falling_submit {request : PrefetchRequest π} :
    (q.submit request).Falling ↔ q.Falling ∧ q.SubmitsLast (.submit request) := by
  simp only [Falling, waiting_submit, List.pairwise_append, List.pairwise_singleton, true_and,
    List.mem_singleton, forall_eq, SubmitsLast]

theorem Wf.falling_of_issuedBy (h : q.Wf) {e : QueueEvent π} {request : PrefetchRequest π}
    (hissued : q.issuedBy e = some request) :
    q.Falling ↔ q.ServesHighest e ∧ (q.step e).Falling := by
  have hwaiting := h.waiting_of_issuedBy hissued
  simp only [Falling, ServesHighest, hissued, hwaiting, List.pairwise_cons, Option.some.injEq,
    forall_eq', List.forall_mem_cons, le_refl, true_and]

theorem servesHighest_of_none {e : QueueEvent π} (hissued : q.issuedBy e = none) :
    q.ServesHighest e := by
  intro request hrequest
  cases hissued.symm.trans hrequest

/-- In falling order, one event keeps the order exactly if it submits no request
of higher priority than one that waits, and then it serves by priority. -/
theorem Wf.serves_of_submitsLast (h : q.Wf) (hfalling : q.Falling) {e : QueueEvent π}
    (hsubmit : q.SubmitsLast e) : q.ServesHighest e ∧ (q.step e).Falling := by
  cases hissued : q.issuedBy e with
  | some request => exact (h.falling_of_issuedBy hissued).mp hfalling
  | none =>
    refine ⟨servesHighest_of_none hissued, ?_⟩
    cases e with
    | submit request => exact falling_submit.mpr ⟨hfalling, hsubmit⟩
    | _ =>
      rw [Falling, h.waiting_of_worker (by exact trivial) hissued]
      exact hfalling

theorem Wf.submitsLast_of_serves (h : q.Wf) {e : QueueEvent π} (hserves : q.ServesHighest e)
    (hfalling : (q.step e).Falling) : q.Falling ∧ q.SubmitsLast e := by
  cases hissued : q.issuedBy e with
  | some request =>
    refine ⟨(h.falling_of_issuedBy hissued).mpr ⟨hserves, hfalling⟩, ?_⟩
    cases e with
    | submit request => cases hissued
    | _ => trivial
  | none =>
    cases e with
    | submit request => exact falling_submit.mp hfalling
    | _ =>
      rw [Falling, h.waiting_of_worker (by exact trivial) hissued] at hfalling
      exact ⟨hfalling, trivial⟩

theorem Wf.allServe_of_allSubmitLast (h : q.Wf) (hfalling : q.Falling)
    {events : List (QueueEvent π)} (hsubmits : AllSteps PrefetchQueue.step SubmitsLast q events) :
    AllSteps PrefetchQueue.step ServesHighest q events := by
  induction events generalizing q with
  | nil => trivial
  | cons e events ih =>
    obtain ⟨hserves, hnext⟩ := h.serves_of_submitsLast hfalling hsubmits.1
    exact ⟨hserves, ih (h.step e) hnext hsubmits.2⟩

/-- Backwards from a queue in which nothing waits. -/
theorem Wf.allSubmitLast_of_allServe (h : q.Wf) {events : List (QueueEvent π)}
    (hserves : AllSteps PrefetchQueue.step ServesHighest q events)
    (hend : (Library.run PrefetchQueue.step q events).waiting = []) :
    q.Falling ∧ AllSteps PrefetchQueue.step SubmitsLast q events := by
  induction events generalizing q with
  | nil =>
    have hnothing : q.waiting = [] := hend
    exact ⟨by simp [Falling, hnothing], trivial⟩
  | cons e events ih =>
    obtain ⟨hnext, hlater⟩ := ih (h.step e) hserves.2 hend
    obtain ⟨hfalling, hsubmit⟩ := h.submitsLast_of_serves hserves.1 hnext
    exact ⟨hfalling, hsubmit, hlater⟩

/-- A run in which no request overtakes one that waits serves by priority, and a
run after which nothing waits does so only then. In every run each request is
issued once. -/
theorem servesByPriority_of_submitsLast (events : List (QueueEvent π)) :
    (run step new events).IssuesOnce ∧
      (AllSteps step SubmitsLast new events → AllSteps step ServesHighest new events) ∧
      ((run step new events).waiting = [] →
        (AllSteps step ServesHighest new events ↔ AllSteps step SubmitsLast new events)) := by
  have hfalling : (new : PrefetchQueue π).Falling := List.Pairwise.nil
  have hforward : AllSteps step SubmitsLast new events → AllSteps step ServesHighest new events :=
    wf_new.allServe_of_allSubmitLast hfalling
  refine ⟨(wf_new.run events).issuesOnce, hforward, fun hend => ⟨fun hserves => ?_, hforward⟩⟩
  exact (wf_new.allSubmitLast_of_allServe hserves hend).2

/-- The second request is submitted while the first, more urgent one waits. -/
theorem servesByPriority_of_submitsLast_falling :
    AllSteps step ServesHighest (new : PrefetchQueue ℕ)
      [.submit ⟨1, 5⟩, .receive, .submit ⟨2, 1⟩, .push, .pop 0, .drained, .receive,
        .push, .pop 0] :=
  (servesByPriority_of_submitsLast _).2.1 (by decide)

/-- Two requests submitted before the worker runs: the first is issued first. -/
theorem not_servesHighest_overtaken :
    ¬ AllSteps step ServesHighest (new : PrefetchQueue ℕ)
      [.submit ⟨1, 1⟩, .submit ⟨2, 5⟩, .receive, .push, .pop 0] := by
  rintro ⟨-, -, -, -, hpop, -⟩
  exact absurd (hpop ⟨1, 1⟩ (by decide) ⟨2, 5⟩ (by decide)) (by decide)

end PrefetchQueue

end AirHuim
