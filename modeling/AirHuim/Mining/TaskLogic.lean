import AirHuim.Mining.Context

/-!
# Rules for the tasks

What any task can do to the shared world only ever adds to it: pages are never
rewritten, the page counter and the top-k threshold never go down. Against an
environment that does no more than that, a task is specified by the outputs it
makes, the world from then on and its result; `E` says with which faults it may
end instead.
-/

namespace AirHuim

open Library

/-- Page `id` holds `bytes`, now and from now on. -/
structure PagePool.Holds (p : PagePool) (id : PageId) (bytes : Bytes) : Prop where
  known : id < p.nextPageId
  payload : p.pages id = some bytes

/-- How the world of one moment is related to that of any later one. -/
structure World.Le (w w' : World) : Prop where
  fails : w'.pool.fails = w.pool.fails
  nextPageId : w.pool.nextPageId ≤ w'.pool.nextPageId
  pages : ∀ id < w.pool.nextPageId, w'.pool.pages id = w.pool.pages id
  k : w'.tko.k = w.tko.k
  threshold : w.tko.threshold ≤ w'.tko.threshold

theorem World.Le.refl (w : World) : World.Le w w := ⟨rfl, le_rfl, fun _ _ => rfl, rfl, le_rfl⟩

theorem World.Le.trans {w w' w'' : World} (h : World.Le w w') (h' : World.Le w' w'') :
    World.Le w w'' where
  fails := h'.fails.trans h.fails
  nextPageId := h.nextPageId.trans h'.nextPageId
  pages id hid := (h'.pages id (hid.trans_le h.nextPageId)).trans (h.pages id hid)
  k := h'.k.trans h.k
  threshold := h.threshold.trans h'.threshold

instance : Preorder World where
  le := World.Le
  le_refl := World.Le.refl
  le_trans _ _ _ := World.Le.trans

instance : Preorder world.State := inferInstanceAs (Preorder World)

theorem PagePool.Holds.mono {w w' : World} (hw : w ≤ w') {id : PageId} {bytes : Bytes}
    (h : w.pool.Holds id bytes) : w'.pool.Holds id bytes :=
  ⟨h.known.trans_le hw.nextPageId, (hw.pages id h.known).trans h.payload⟩

theorem TkoState.le_update (s : TkoState) (u : Utility) (X : List ItemId) :
    s.threshold ≤ (s.update u X).2.threshold := by
  simp only [TkoState.update]
  split_ifs
  all_goals first
    | exact le_rfl
    | (split
       · split_ifs with h
         · exact h.le
         · exact le_rfl
       · exact le_rfl)

/-- Every operation moves the world upwards. -/
theorem World.le_exec (op : MinerOp) (w : World) : w ≤ (world.exec op w).2 := by
  cases op with
  | newPage bytes =>
    simp only [PagePool.newPage]
    split_ifs
    · exact ⟨rfl, Nat.le_succ _, fun _ _ => rfl, rfl, le_rfl⟩
    · refine ⟨rfl, Nat.le_succ _, fun id hid => ?_, rfl, le_rfl⟩
      exact Function.update_of_ne hid.ne _ _
  | pin id =>
    simp only [PagePool.pin]
    split_ifs
    · exact ⟨rfl, le_rfl, fun _ _ => rfl, rfl, le_rfl⟩
    · split <;> exact ⟨rfl, le_rfl, fun _ _ => rfl, rfl, le_rfl⟩
  | update u X => exact ⟨rfl, le_rfl, fun _ _ => rfl, rfl, w.tko.le_update u X⟩
  | _ => exact ⟨rfl, le_rfl, fun _ _ => rfl, rfl, le_rfl⟩

/-- The calls by which a task hands over a result. -/
def MinerOp.isOutput : MinerOp → Bool
  | .writeHui _ _ | .foundHui | .update _ _ => true
  | _ => false

def outputs (calls : List MinerOp) : List MinerOp := calls.filter MinerOp.isOutput

@[simp] theorem outputs_nil : outputs [] = [] := rfl

theorem outputs_cons (op : MinerOp) (calls : List MinerOp) :
    outputs (op :: calls) = if op.isOutput then op :: outputs calls else outputs calls :=
  List.filter_cons

@[simp] theorem outputs_append (xs ys : List MinerOp) :
    outputs (xs ++ ys) = outputs xs ++ outputs ys :=
  List.filter_append _ _

/-- What is required of a task's end. -/
def Ends {α : Type} (E : Fault → Prop) (Q : List MinerOp → World → α → Prop)
    (calls : List MinerOp) (w : World) : Except Fault α → Prop
  | .ok a => Q (outputs calls) w a
  | .error e => E e

/-- Whatever the environment does, the task ends with a fault that `E` allows or
satisfies `Q`. -/
def Task.Spec {α : Type} (E : Fault → Prop) (t : Task α) (w : World)
    (Q : List MinerOp → World → α → Prop) : Prop :=
  Prog.Wp world t.run w (Ends E Q)

namespace Task

variable {α β : Type} {E : Fault → Prop} {w w' : World} {t : Task α}
  {Q Q' : List MinerOp → World → α → Prop}

theorem Spec.mono (h : Spec E t w Q) (hw : w ≤ w')
    (hQ : ∀ out v a, Q out v a → Q' out v a) : Spec E t w' Q' :=
  Prog.Wp.mono h hw fun calls v r hr => by
    cases r with
    | ok a => exact hQ _ v a hr
    | error e => exact hr

/-- The world a task ends in is above the one it starts in. -/
theorem Spec.above (h : Spec E t w Q) : Spec E t w fun out v a => w ≤ v ∧ Q out v a := by
  have key : ∀ (p : Prog minerInterface (Except Fault α)) (v : World)
      (R : List MinerOp → World → Except Fault α → Prop), w ≤ v → Prog.Wp world p v R →
      Prog.Wp world p v fun calls v' r => w ≤ v' ∧ R calls v' r := by
    intro p
    induction p with
    | pure a => exact fun v R hv hp v' hv' => ⟨hv.trans hv', hp v' hv'⟩
    | call op k ih =>
      intro v R hv hp v' hv'
      exact ih _ _ _ ((hv.trans hv').trans (World.le_exec op v')) (hp v' hv')
  refine Prog.Wp.mono (key _ w _ le_rfl h) le_rfl fun calls v r hr => ?_
  cases r with
  | ok a => exact hr
  | error e => exact hr.2

theorem Spec.pure {a : α} (h : ∀ v, w ≤ v → Q [] v a) : Spec E (Pure.pure a : Task α) w Q := h

/-- A default that is never needed. -/
theorem Spec.okOr {default : α} (h : Spec (fun _ => False) t w Q) :
    Spec E (t.okOr default) w Q := by
  apply Prog.Wp.bind
  refine Prog.Wp.mono (Prog.Wp.later h) le_rfl fun calls v r hr => ?_
  cases r with
  | ok a =>
    intro v' hv'
    rw [List.append_nil]
    exact hr v' hv'
  | error e => exact (hr v le_rfl).elim

/-- Sequencing: the rest of the task is verified in any world the first part can
leave, which is above the first one. -/
theorem Spec.bind {f : α → Task β} {R : List MinerOp → World → β → Prop} (h : Spec E t w Q)
    (hf : ∀ out v a, w ≤ v → Q out v a → Spec E (f a) v fun out' => R (out ++ out')) :
    Spec E (t >>= f) w R := by
  have hrun : (t >>= f).run = Prog.bind t.run (ExceptT.bindCont f) := rfl
  rw [Spec, hrun]
  apply Prog.Wp.bind
  refine Prog.Wp.mono h.above le_rfl fun calls v r hr => ?_
  cases r with
  | ok a =>
    refine Prog.Wp.mono (hf _ v a hr.1 hr.2) le_rfl fun calls' v' r' hr' => ?_
    cases r' with
    | ok b =>
      have happ := outputs_append calls calls'
      simpa only [Ends, happ] using hr'
    | error e => exact hr'
  | error e => exact fun _ _ => hr

/-- Sequencing after a part without outputs. -/
theorem Spec.bind_silent {f : α → Task β} {P : World → α → Prop}
    {R : List MinerOp → World → β → Prop} (h : Spec E t w fun out v a => out = [] ∧ P v a)
    (hf : ∀ v a, w ≤ v → P v a → Spec E (f a) v R) : Spec E (t >>= f) w R := by
  refine h.bind ?_
  rintro _ v a hv ⟨rfl, hP⟩
  exact hf v a hv hP

/-- The pool's failures are among the faults allowed. -/
def Allows (E : Fault → Prop) (w : World) : Prop := ∀ n, w.pool.fails n = true → E .io

theorem Allows.mono (h : Allows E w) (hw : w ≤ w') : Allows E w' := by
  intro n hn
  rw [hw.fails] at hn
  exact h n hn

theorem newPage_spec (hE : Allows E w) (bytes : Bytes) :
    Spec E (newPage bytes) w fun out v id => out = [] ∧ v.pool.Holds id bytes := by
  intro v hv v' hv'
  simp only [world, PagePool.newPage] at hv' ⊢
  split_ifs at hv' ⊢ with hfail
  · exact hE.mono hv _ hfail
  · refine ⟨rfl, PagePool.Holds.mono hv' ⟨Nat.lt_succ_self _, ?_⟩⟩
    exact Function.update_self ..

theorem pin_spec (hE : Allows E w) {id : PageId} {bytes : Bytes} (h : w.pool.Holds id bytes) :
    Spec E (pin id) w fun out _ b => out = [] ∧ b = bytes := by
  intro v hv v' _
  have hpages := (h.mono hv).payload
  simp only [PagePool.pin, hpages]
  split_ifs with hfail
  · exact hE.mono hv _ hfail
  · exact ⟨rfl, rfl⟩

theorem tryAlloc_spec (n : ℕ) : Spec E (tryAlloc n) w fun out _ _ => out = [] ∧ True :=
  fun _ _ _ _ => ⟨rfl, trivial⟩

theorem free_spec (n : ℕ) : Spec E (free n) w fun out _ _ => out = [] ∧ True :=
  fun _ _ _ _ => ⟨rfl, trivial⟩

theorem writeHui_spec (X : List ItemId) (u : Utility) :
    Spec E (writeHui X u) w fun out _ _ => out = [.writeHui X u] :=
  fun _ _ _ _ => rfl

theorem foundHui_spec : Spec E foundHui w fun out _ _ => out = [.foundHui] := fun _ _ _ _ => rfl

theorem getThreshold_spec :
    Spec E getThreshold w fun out v t =>
      out = [] ∧ w.tko.threshold ≤ t ∧ t ≤ v.tko.threshold :=
  fun _ hv _ hv' => ⟨rfl, hv.threshold, hv'.threshold⟩

theorem update_spec (u : Utility) (X : List ItemId) :
    Spec E (update u X) w fun out v t =>
      out = [.update u X] ∧ w.tko.threshold ≤ t ∧ t ≤ v.tko.threshold := by
  intro v hv v' hv'
  exact ⟨rfl, hv.threshold.trans (v.tko.le_update u X), hv'.threshold⟩

end Task

/-! ## Running the tasks -/

def MinerOp.line? : MinerOp → Option Line
  | .writeHui X u => some (X, u)
  | _ => none

/-- The output file holds what was written, in the order of the calls. -/
theorem lines_replay (log : List MinerOp) (w : World) :
    (Prog.replay world log w).lines = w.lines ++ (outputs log).filterMap MinerOp.line? := by
  induction log generalizing w with
  | nil => exact (List.append_nil _).symm
  | cons op log ih =>
    have hstep : Prog.replay world (op :: log) w = Prog.replay world log (world.exec op w).2 := rfl
    have hout := outputs_cons op log
    rw [hstep, ih, hout]
    cases op <;> simp [MinerOp.isOutput, MinerOp.line?, List.filterMap_cons]

theorem huisFound_replay (log : List MinerOp) (w : World) :
    (Prog.replay world log w).huisFound = w.huisFound + (outputs log).count .foundHui := by
  induction log generalizing w with
  | nil => rfl
  | cons op log ih =>
    have hstep : Prog.replay world (op :: log) w = Prog.replay world log (world.exec op w).2 := rfl
    have hout := outputs_cons op log
    rw [hstep, ih, hout]
    cases op <;> simp [MinerOp.isOutput]
    omega

def MinerOp.offer? : MinerOp → Option (Utility × List ItemId)
  | .update u X => some (u, X)
  | _ => none

/-- The heap has seen what was offered to it, in the order of the calls. -/
theorem tko_replay (log : List MinerOp) (w : World) :
    (Prog.replay world log w).tko = ((outputs log).filterMap MinerOp.offer?).foldl
      (fun s e => (s.update e.1 e.2).2) w.tko := by
  induction log generalizing w with
  | nil => rfl
  | cons op log ih =>
    have hstep : Prog.replay world (op :: log) w = Prog.replay world log (world.exec op w).2 := rfl
    have hout := outputs_cons op log
    rw [hstep, ih, hout]
    cases op <;> simp [MinerOp.isOutput, MinerOp.offer?, List.filterMap_cons]

/-- A run of verified tasks: it ends in the fault of one of them, or all of them
end well and the final world is that of their calls in some order. -/
theorem executeTasks_wp (ctx : MiningContext) (w : World) {tasks : List (Task Unit)}
    {Qs : List (List MinerOp → World → Except Fault Unit → Prop)}
    (h : List.Forall₂ (fun t Q => Prog.Wp world (ExceptT.run t) { w with lines := [] } Q)
      tasks Qs) :
    (∃ e, executeTasks ctx w tasks = .error e ∧ ∃ Q ∈ Qs, ∃ calls v, Q calls v (.error e)) ∨
      ∃ log callss, executeTasks ctx w tasks = .ok (Prog.replay world log { w with lines := [] }) ∧
        log.Perm callss.flatten ∧
        List.Forall₂ (fun calls Q =>
          Q calls (Prog.replay world log { w with lines := [] }) (.ok ())) callss Qs := by
  have hwp : List.Forall₂ (fun p Q => Prog.Wp world p { w with lines := [] } Q)
      (tasks.map ExceptT.run) Qs := List.forall₂_map_left_iff.mpr h
  obtain ⟨log, ends, hperm, hres, hstate, hmeets⟩ :=
    Prog.interleave_meets World.le_exec (if 1 < ctx.threads then ctx.schedule else []) hwp
  rw [hstate] at hmeets
  have hget := List.forall₂_iff_get.mp hmeets
  cases hfault : firstFault (ends.map Prod.snd) with
  | some e =>
    left
    obtain ⟨r, hr, hre⟩ := List.exists_of_findSome?_eq_some hfault
    obtain ⟨⟨calls, r'⟩, hmem, rfl⟩ := List.mem_map.mp hr
    obtain ⟨Q, hQ, hends⟩ := exists_of_forall₂ hmeets hmem
    cases r' with
    | ok a => cases hre
    | error e' =>
      cases hre
      refine ⟨_, ?_, Q, hQ, calls, _, hends⟩
      simp only [executeTasks, hres, hfault]
  | none =>
    right
    have hok : ∀ e ∈ ends, e.2 = .ok () := by
      rintro ⟨calls, r⟩ he
      have := List.findSome?_eq_none_iff.mp hfault r (List.mem_map_of_mem he)
      cases r with
      | ok a => rfl
      | error e => cases this
    refine ⟨log, ends.map Prod.fst, ?_, hperm, ?_⟩
    · simp only [executeTasks, hres, hfault, hstate]
    · rw [List.forall₂_map_left_iff]
      refine List.forall₂_iff_get.mpr ⟨hget.1, fun i hi hi' => ?_⟩
      have := hget.2 i hi hi'
      rwa [hok _ (List.get_mem ends ⟨i, hi⟩)] at this

/-- If every task meets its specification in the world the miner hands over, the
run ends in an allowed fault, or all of them have met it and the final world is
that of their calls in some order. -/
theorem executeTasks_spec {E : Fault → Prop} (ctx : MiningContext) (w : World)
    {tasks : List (Task Unit)} {Qs : List (List MinerOp → World → Unit → Prop)}
    (h : List.Forall₂ (fun t Q => Task.Spec E t { w with lines := [] } Q) tasks Qs) :
    (∃ e, E e ∧ executeTasks ctx w tasks = .error e) ∨
      ∃ log outs, executeTasks ctx w tasks = .ok (Prog.replay world log { w with lines := [] }) ∧
        (outputs log).Perm outs.flatten ∧
        List.Forall₂ (fun out Q => Q out (Prog.replay world log { w with lines := [] }) ()) outs
          Qs := by
  have hwp : List.Forall₂ (fun t Q => Prog.Wp world (ExceptT.run t) { w with lines := [] } Q)
      tasks (Qs.map (Ends E)) := List.forall₂_map_right_iff.mpr h
  rcases executeTasks_wp ctx w hwp with
    ⟨e, hrun, Q, hQ, calls, v, hend⟩ | ⟨log, callss, hrun, hperm, hmeets⟩
  · obtain ⟨Q, -, rfl⟩ := List.mem_map.mp hQ
    exact Or.inl ⟨e, hend, hrun⟩
  · right
    have hflat : outputs callss.flatten = (callss.map outputs).flatten := List.filter_flatten
    refine ⟨log, callss.map outputs, hrun, ?_, ?_⟩
    · rw [← hflat]
      exact hperm.filter _
    · exact List.forall₂_map_left_iff.mpr (List.forall₂_map_right_iff.mp hmeets)

/-! ## Results written as they are found -/

/-- The calls that write a line and count it. -/
def writeOps (l : Line) : List MinerOp := [.writeHui l.1 l.2, .foundHui]

/-- `write_hui`, then one more on the progress counter. -/
def Task.writeAndCount (itemset : List ItemId) (utility : Utility) : Task Unit := do
  Task.writeHui itemset utility
  Task.foundHui

theorem Task.writeAndCount_spec {E : Fault → Prop} {w : World} (X : List ItemId) (u : Utility) :
    Task.Spec E (Task.writeAndCount X u) w fun out _ _ => out = writeOps (X, u) := by
  refine Task.Spec.bind (Task.writeHui_spec X u) ?_
  rintro _ v _ - rfl
  exact Task.foundHui_spec.mono le_rfl fun _ _ _ h => h ▸ rfl

theorem filterMap_line?_writeOps (lines : List Line) :
    (lines.flatMap writeOps).filterMap MinerOp.line? = lines := by
  induction lines with
  | nil => rfl
  | cons l lines ih =>
    rw [List.flatMap_cons, List.filterMap_append, ih]
    rfl

theorem count_foundHui_writeOps (lines : List Line) :
    (lines.flatMap writeOps).count .foundHui = lines.length := by
  induction lines with
  | nil => rfl
  | cons l lines ih =>
    rw [List.flatMap_cons, List.count_append, ih, List.length_cons, Nat.add_comm]
    rfl

/-- A run whose outputs are those of `lines`, in some order. -/
theorem replay_writeOps {log : List MinerOp} {lines : List Line}
    (h : (outputs log).Perm (lines.flatMap writeOps)) (w : World) :
    (Prog.replay world log { w with lines := [] }).lines.Perm lines ∧
      (Prog.replay world log { w with lines := [] }).huisFound = w.huisFound + lines.length := by
  constructor
  · rw [lines_replay, List.nil_append, ← filterMap_line?_writeOps lines]
    exact h.filterMap _
  · rw [huisFound_replay, h.count_eq, count_foundHui_writeOps]

/-! ## Tasks that leave the guard alone and count each line they write -/

/-- The calls that move the ledger. -/
def MinerOp.movesGuard : MinerOp → Bool
  | .tryAlloc _ | .free _ => true
  | _ => false

/-- No call moves the ledger, and if the task ends well its outputs are those of
lines. This needs nothing of the data. -/
def Task.Counts {α : Type} (t : Task α) : Prop :=
  ∀ w, Prog.Wp world t.run w fun calls _ r => (∀ op ∈ calls, op.movesGuard = false) ∧
    ∀ a, r = .ok a → ∃ lines : List Line, outputs calls = lines.flatMap writeOps

namespace Task.Counts

variable {α β : Type}

theorem pure (a : α) : Counts (Pure.pure a : Task α) :=
  fun _ _ _ => ⟨by simp, fun _ _ => ⟨[], rfl⟩⟩

theorem throw (e : Fault) : Counts (throw e : Task α) :=
  fun _ _ _ => ⟨by simp, fun _ _ => ⟨[], rfl⟩⟩

theorem bind {t : Task α} {f : α → Task β} (h : Counts t) (hf : ∀ a, Counts (f a)) :
    Counts (t >>= f) := by
  intro w
  have hrun : (t >>= f).run = Prog.bind t.run (ExceptT.bindCont f) := rfl
  rw [hrun]
  apply Prog.Wp.bind
  apply Prog.Wp.mono (h w) le_rfl
  intro calls v r hr
  cases r with
  | error e => exact fun _ _ => ⟨by simpa using hr.1, fun _ h => by cases h⟩
  | ok a =>
    obtain ⟨hguard, hlines⟩ := hr
    obtain ⟨lines, hcalls⟩ := hlines a rfl
    apply Prog.Wp.mono (hf a v) le_rfl
    rintro calls' v' r' ⟨hguard', hlines'⟩
    constructor
    · intro op hop
      rcases List.mem_append.mp hop with hop | hop
      · exact hguard op hop
      · exact hguard' op hop
    · intro b hb
      obtain ⟨lines', hcalls'⟩ := hlines' b hb
      exact ⟨lines ++ lines', by rw [outputs_append, hcalls, hcalls', List.flatMap_append]⟩

theorem newPage (bytes : Bytes) : Counts (Task.newPage bytes) :=
  fun _ _ _ _ _ => ⟨by simp [MinerOp.movesGuard], fun _ _ => ⟨[], rfl⟩⟩

theorem pin (id : PageId) : Counts (Task.pin id) :=
  fun _ _ _ _ _ => ⟨by simp [MinerOp.movesGuard], fun _ _ => ⟨[], rfl⟩⟩

theorem writeAndCount (itemset : List ItemId) (u : Utility) :
    Counts (Task.writeAndCount itemset u) :=
  fun _ _ _ _ _ _ _ => ⟨by simp [MinerOp.movesGuard], fun _ _ => ⟨[(itemset, u)], rfl⟩⟩

theorem ite {c : Prop} [Decidable c] {t t' : Task α} (h : Counts t) (h' : Counts t') :
    Counts (if c then t else t') := by
  split_ifs
  · exact h
  · exact h'

end Task.Counts

theorem guard_replay {log : List MinerOp} (h : ∀ op ∈ log, op.movesGuard = false) (w : World) :
    (Prog.replay world log w).guard = w.guard := by
  induction log generalizing w with
  | nil => rfl
  | cons op log ih =>
    have hstep : Prog.replay world (op :: log) w = Prog.replay world log (world.exec op w).2 := rfl
    have hop := h op List.mem_cons_self
    rw [hstep, ih fun op' hop' => h op' (List.mem_cons_of_mem op hop')]
    cases op <;> first | rfl | simp [MinerOp.movesGuard] at hop

/-- A run of such tasks leaves the guard as it was and counts what it writes. -/
theorem executeTasks_counts (ctx : MiningContext) {w w' : World} {tasks : List (Task Unit)}
    (h : ∀ t ∈ tasks, t.Counts) (hrun : executeTasks ctx w tasks = .ok w') :
    w'.guard = w.guard ∧ w'.huisFound = w.huisFound + w'.lines.length := by
  have hwp : List.Forall₂ (fun t Q => Prog.Wp world (ExceptT.run t) { w with lines := [] } Q) tasks
      (tasks.map fun _ => fun calls (_ : World) (r : Except Fault Unit) =>
        (∀ op ∈ calls, op.movesGuard = false) ∧
          ∀ a, r = .ok a → ∃ lines : List Line, outputs calls = lines.flatMap writeOps) := by
    rw [List.forall₂_map_right_iff, List.forall₂_same]
    exact fun t ht => h t ht _
  rcases executeTasks_wp ctx w hwp with ⟨e, hfault, -⟩ | ⟨log, callss, hrun', hperm, hmeets⟩
  · rw [hrun] at hfault
    cases hfault
  · rw [hrun] at hrun'
    rw [Except.ok.inj hrun']
    have hall : ∀ calls ∈ callss, (∀ op ∈ calls, op.movesGuard = false) ∧
        ∃ lines : List Line, outputs calls = lines.flatMap writeOps := by
      rw [List.forall₂_map_right_iff] at hmeets
      intro calls hcalls
      obtain ⟨-, -, hguard, hwritten⟩ := exists_of_forall₂ hmeets hcalls
      exact ⟨hguard, hwritten () rfl⟩
    have hlines : ∃ lines : List Line, outputs callss.flatten = lines.flatMap writeOps := by
      clear hmeets hperm
      induction callss with
      | nil => exact ⟨[], rfl⟩
      | cons calls callss ih =>
        obtain ⟨lines, hcalls⟩ := (hall calls List.mem_cons_self).2
        obtain ⟨lines', hrest⟩ := ih fun calls' h' => hall calls' (List.mem_cons_of_mem calls h')
        exact ⟨lines ++ lines', by
          rw [List.flatten_cons, outputs_append, hcalls, hrest, List.flatMap_append]⟩
    obtain ⟨lines, hlines⟩ := hlines
    have hout : (outputs log).Perm (outputs callss.flatten) := hperm.filter _
    rw [hlines] at hout
    obtain ⟨hwritten, hcount⟩ := replay_writeOps hout w
    constructor
    · apply guard_replay
      intro op hop
      obtain ⟨calls, hcalls, hmem⟩ := List.mem_flatten.mp (hperm.subset hop)
      exact (hall calls hcalls).1 op hmem
    · rw [hcount, hwritten.length_eq]

/-- The outputs are those of lines that list exactly the itemsets of a region,
each with its utility. -/
def Covers (B : List (Basket ItemId)) (R : Finset ItemId → Prop) (out : List MinerOp) : Prop :=
  ∃ lines, out = lines.flatMap writeOps ∧ Lists (fun l : Line => l.1.toFinset) lines R fun l =>
    l.1.Nodup ∧ l.2 = Basket.utility B l.1.toFinset ∧ R l.1.toFinset

namespace Covers

variable {B : List (Basket ItemId)} {R R' : Finset ItemId → Prop} {xs ys : List MinerOp}

theorem nil (h : ∀ X, ¬ R X) : Covers B R [] := ⟨[], rfl, Lists.nil h⟩

theorem line {l : Line} (hnodup : l.1.Nodup) (hu : l.2 = Basket.utility B l.1.toFinset)
    (hR : ∀ X, R X ↔ X = l.1.toFinset) : Covers B R (writeOps l) :=
  ⟨[l], by simp, Lists.singleton (fun X hX => (hR X).mp hX) ⟨hnodup, hu, (hR _).mpr rfl⟩⟩

theorem congr (h : Covers B R xs) (hR : ∀ X, R' X ↔ R X) : Covers B R' xs := by
  have heq : R' = R := funext fun X => propext (hR X)
  rwa [heq]

/-- Two disjoint regions, one after the other. -/
theorem append (hx : Covers B R xs) (hy : Covers B R' ys) (hdisj : ∀ X, R X → ¬ R' X) :
    Covers B (fun X => R X ∨ R' X) (xs ++ ys) := by
  obtain ⟨lines, rfl, hlines⟩ := hx
  obtain ⟨lines', rfl, hlines'⟩ := hy
  refine ⟨lines ++ lines', by simp, (hlines.append hlines' ?_).mono (fun _ h => h) ?_⟩
  · rintro b c ⟨-, -, hb⟩ ⟨-, -, hc⟩ heq
    exact hdisj _ hb (heq ▸ hc)
  · rintro l - (⟨hnodup, hu, hl⟩ | ⟨hnodup, hu, hl⟩)
    · exact ⟨hnodup, hu, Or.inl hl⟩
    · exact ⟨hnodup, hu, Or.inr hl⟩

theorem flatten {Rs : List (Finset ItemId → Prop)} {outs : List (List MinerOp)}
    (h : List.Forall₂ (fun out R => Covers B R out) outs Rs)
    (hdisj : Rs.Pairwise fun R R' => ∀ X, R X → ¬ R' X) :
    Covers B (fun X => ∃ R ∈ Rs, R X) outs.flatten := by
  induction h with
  | nil => exact nil (by simp)
  | @cons out R outs Rs hout _ ih =>
    obtain ⟨hhead, htail⟩ := List.pairwise_cons.mp hdisj
    have happ := hout.append (ih htail) fun X hX ⟨R', hR', hX'⟩ => hhead R' hR' X hX hX'
    rw [List.flatten_cons]
    exact happ.congr fun X => by simp

end Covers

/-- Tasks that write as they go, each for a region of its own. -/
theorem executeTasks_covers {E : Fault → Prop} (ctx : MiningContext) (w : World)
    {B : List (Basket ItemId)} {tasks : List (Task Unit)} {Rs : List (Finset ItemId → Prop)}
    (h : List.Forall₂ (fun t R => Task.Spec E t { w with lines := [] }
      fun out _ _ => Covers B R out) tasks Rs)
    (hdisj : Rs.Pairwise fun R R' => ∀ X, R X → ¬ R' X) :
    (∃ e, E e ∧ executeTasks ctx w tasks = .error e) ∨
      ∃ w' lines, executeTasks ctx w tasks = .ok w' ∧ w'.lines.Perm lines ∧
        w'.huisFound = w.huisFound + lines.length ∧
        Lists (fun l : Line => l.1.toFinset) lines (fun X => ∃ R ∈ Rs, R X) fun l =>
          l.1.Nodup ∧ l.2 = Basket.utility B l.1.toFinset ∧ ∃ R ∈ Rs, R l.1.toFinset := by
  have hgoals : List.Forall₂ (fun t Q => Task.Spec E t { w with lines := [] } Q) tasks
      (Rs.map fun R out _ _ => Covers B R out) :=
    List.forall₂_map_right_iff.mpr h
  rcases executeTasks_spec ctx w hgoals with hfault | ⟨log, outs, hrun, hperm, houts⟩
  · exact Or.inl hfault
  · obtain ⟨lines, hlines, hlists⟩ := Covers.flatten (List.forall₂_map_right_iff.mp houts) hdisj
    have hreplay := replay_writeOps (hlines ▸ hperm) w
    exact Or.inr ⟨_, lines, hrun, hreplay.1, hreplay.2, hlists⟩

end AirHuim
