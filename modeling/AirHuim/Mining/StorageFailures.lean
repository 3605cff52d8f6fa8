import AirHuim.Mining.TaskLogic

/-!
# Storage failures

Which operations of the pool fail is given by a pattern over their numbers. A run
sees no more of the pattern than the operations it makes, so one in which none of
its own operations failed is a run over a store that never fails.
-/

namespace AirHuim

open Library

/-- The world with another pattern of failures. -/
def World.withFails (w : World) (f : ℕ → Bool) : World :=
  { w with pool := { w.pool with fails := f } }

def MiningContext.withFails (ctx : MiningContext) (f : ℕ → Bool) : MiningContext :=
  { ctx with world := ctx.world.withFails f }

def MiningContext.withBudget (ctx : MiningContext) (budget : ℕ) : MiningContext :=
  { ctx with world := { ctx.world with guard := .new budget } }

/-- No operation made between the two worlds failed. -/
def World.Unfailed (w w' : World) : Prop :=
  ∀ n, w.pool.clock ≤ n → n < w'.pool.clock → w.pool.fails n = false

/-- A world and its copy, which differ in the failures from operation `N` on only. -/
structure World.Copy (f : ℕ → Bool) (N : ℕ) (w v : World) : Prop where
  eq : v = w.withFails f
  agree : ∀ n, w.pool.clock ≤ n → n < N → w.pool.fails n = f n

theorem World.Copy.setGuard {f : ℕ → Bool} {N : ℕ} {w v : World} (h : World.Copy f N w v)
    (guard : MemoryGuard) : World.Copy f N { w with guard } { v with guard } := by
  obtain ⟨rfl, hagree⟩ := h
  exact ⟨rfl, hagree⟩

theorem World.clock_le_exec (op : MinerOp) (w : World) :
    w.pool.clock ≤ (world.exec op w).2.pool.clock := by
  cases op with
  | newPage bytes =>
    simp only [PagePool.newPage]
    split_ifs <;> exact Nat.le_succ _
  | pin id =>
    simp only [PagePool.pin]
    split_ifs
    · exact Nat.le_succ _
    · split <;> exact Nat.le_succ _
  | _ => exact le_rfl

/-- An operation before number `N` goes as it does in the copy. -/
theorem World.Copy.exec {f : ℕ → Bool} {N : ℕ} {w v : World} (h : World.Copy f N w v)
    (op : MinerOp) (hN : (world.exec op w).2.pool.clock ≤ N) :
    (world.exec op w).1 = (world.exec op v).1 ∧
      World.Copy f N (world.exec op w).2 (world.exec op v).2 := by
  obtain ⟨rfl, hagree⟩ := h
  cases op with
  | newPage bytes =>
    have hclock : (world.exec (.newPage bytes) w).2.pool.clock = w.pool.clock + 1 := by
      simp only [PagePool.newPage]
      split_ifs <;> rfl
    have hsame := hagree w.pool.clock le_rfl (by omega)
    have hlater : ∀ n, w.pool.clock + 1 ≤ n → n < N → w.pool.fails n = f n :=
      fun n hn => hagree n (by omega)
    simp only [PagePool.newPage, World.withFails, ← hsame]
    split_ifs
    · exact ⟨rfl, rfl, hlater⟩
    · exact ⟨rfl, rfl, hlater⟩
  | pin id =>
    have hclock : (world.exec (.pin id) w).2.pool.clock = w.pool.clock + 1 := by
      simp only [PagePool.pin]
      split_ifs
      · rfl
      · split <;> rfl
    have hsame := hagree w.pool.clock le_rfl (by omega)
    have hlater : ∀ n, w.pool.clock + 1 ≤ n → n < N → w.pool.fails n = f n :=
      fun n hn => hagree n (by omega)
    simp only [PagePool.pin, World.withFails, ← hsame]
    split_ifs
    · exact ⟨rfl, rfl, hlater⟩
    · cases w.pool.pages id with
      | none => exact ⟨rfl, rfl, hlater⟩
      | some bytes => exact ⟨rfl, rfl, hlater⟩
  | _ => exact ⟨rfl, rfl, hagree⟩

/-- No more than `N` operations were made. -/
def World.Before (N : ℕ) (w : World) : Prop := w.pool.clock ≤ N

theorem World.before_of_exec (N : ℕ) (op : MinerOp) (w : World)
    (h : World.Before N (world.exec op w).2) : World.Before N w :=
  (World.clock_le_exec op w).trans h

theorem executeTasks_ok_iff {ctx : MiningContext} {tasks : List (Task Unit)} {w w' : World} :
    executeTasks ctx w tasks = .ok w' ↔
      firstFault (Prog.interleave world (if 1 < ctx.threads then ctx.schedule else [])
          (tasks.map ExceptT.run) { w with lines := [] }).1 = none ∧
        (Prog.interleave world (if 1 < ctx.threads then ctx.schedule else [])
          (tasks.map ExceptT.run) { w with lines := [] }).2 = w' := by
  simp only [executeTasks]
  cases firstFault (Prog.interleave world (if 1 < ctx.threads then ctx.schedule else [])
      (tasks.map ExceptT.run) { w with lines := [] }).1 <;> simp

/-- The operations of a run move the clock on. -/
theorem executeTasks_before {ctx : MiningContext} {tasks : List (Task Unit)} {N : ℕ} {w w' : World}
    (h : executeTasks ctx w tasks = .ok w') (hN : w'.Before N) : w.Before N := by
  obtain ⟨-, rfl⟩ := executeTasks_ok_iff.mp h
  have hstart : World.Before N { w with lines := [] } :=
    Prog.within_of_interleave (World.before_of_exec N) hN
  exact hstart

/-- A run of tasks in the copy of its world goes as it does there. -/
theorem executeTasks_copy {ctx : MiningContext} {tasks : List (Task Unit)} {f : ℕ → Bool} {N : ℕ}
    {w v w' : World} (h : executeTasks ctx w tasks = .ok w') (hcopy : World.Copy f N w v)
    (hN : w'.Before N) : ∃ v', executeTasks ctx v tasks = .ok v' ∧ World.Copy f N w' v' := by
  obtain ⟨hok, rfl⟩ := executeTasks_ok_iff.mp h
  have hstart : World.Copy f N { w with lines := [] } { v with lines := [] } := by
    obtain ⟨rfl, hagree⟩ := hcopy
    exact ⟨rfl, hagree⟩
  have hsim : ∀ (op : MinerOp) (w v : World), World.Copy f N w v →
      World.Before N (world.exec op w).2 → (world.exec op w).1 = (world.exec op v).1 ∧
        World.Copy f N (world.exec op w).2 (world.exec op v).2 :=
    fun op w v hR hM => hR.exec op hM
  obtain ⟨hresults, hcopy'⟩ :=
    Prog.interleave_related (O := world) (World.before_of_exec N) hsim hstart hN
  rw [hresults] at hok
  exact ⟨_, executeTasks_ok_iff.mpr ⟨hok, rfl⟩, hcopy'⟩

/-! ## Tasks under an invariant of the world -/

/-- As long as the world satisfies `Inv`, the task writes lines of `A` only and its
result satisfies `R`. -/
def Task.Under {α : Type} (Inv : World → Prop) (A : Line → Prop) (t : Task α)
    (R : Except Fault α → Prop) : Prop :=
  Prog.Under (O := world) Inv t.run fun calls r => (∀ X u, .writeHui X u ∈ calls → A (X, u)) ∧ R r

namespace Task.Under

variable {α β : Type} {Inv : World → Prop} {A : Line → Prop} {t : Task α}
  {R : Except Fault α → Prop}

theorem pure {a : α} (h : R (.ok a)) : Under Inv A (Pure.pure a : Task α) R := ⟨by simp, h⟩

theorem throw {e : Fault} (h : R (.error e)) : Under Inv A (throw e : Task α) R := ⟨by simp, h⟩

theorem mono {R' : Except Fault α → Prop} (h : Under Inv A t R) (hR : ∀ r, R r → R' r) :
    Under Inv A t R' :=
  Prog.Under.mono h fun _ r hr => ⟨hr.1, hR r hr.2⟩

theorem bind {f : α → Task β} {R' : Except Fault β → Prop} (h : Under Inv A t R)
    (hok : ∀ a, R (.ok a) → Under Inv A (f a) R') (herror : ∀ e, R (.error e) → R' (.error e)) :
    Under Inv A (t >>= f) R' := by
  have hrun : (t >>= f).run = Prog.bind t.run (ExceptT.bindCont f) := rfl
  rw [Under, hrun]
  apply Prog.Under.bind
  apply Prog.Under.mono h
  intro calls r hr
  obtain ⟨hlines, hr⟩ := hr
  cases r with
  | error e => exact ⟨by simpa using hlines, herror e hr⟩
  | ok a =>
    apply Prog.Under.mono (hok a hr)
    intro calls' r' hr'
    refine ⟨fun X u hmem => ?_, hr'.2⟩
    rcases List.mem_append.mp hmem with hmem | hmem
    · exact hlines X u hmem
    · exact hr'.1 X u hmem

theorem okOr {default : α} {R' : Except Fault α → Prop} (h : Under Inv A t R)
    (hok : ∀ a, R (.ok a) → R' (.ok a)) (herror : ∀ e, R (.error e) → R' (.ok default)) :
    Under Inv A (t.okOr default) R' := by
  apply Prog.Under.bind
  apply Prog.Under.mono h
  intro calls r hr
  cases r with
  | ok a => exact ⟨by simpa using hr.1, hok a hr.2⟩
  | error e => exact ⟨by simpa using hr.1, herror e hr.2⟩

theorem writeAndCount {X : List ItemId} {u : Utility} (h : A (X, u)) :
    Under Inv A (Task.writeAndCount X u) fun r => r = .ok () := by
  intro v _ v' _
  exact ⟨by simpa using h, rfl⟩

/-- A pin where every operation fails. -/
theorem pin (hfails : ∀ w, Inv w → ∀ n, w.pool.fails n = true) (id : PageId) :
    Under Inv A (Task.pin id) fun r => ∀ bytes, r ≠ .ok bytes := by
  intro w hw
  simp only [PagePool.pin, hfails w hw, if_true]
  constructor <;> simp

/-- A new page where every operation fails. -/
theorem newPage (hfails : ∀ w, Inv w → ∀ n, w.pool.fails n = true) (bytes : Bytes) :
    Under Inv A (Task.newPage bytes) fun r => ∀ id, r ≠ .ok id := by
  intro w hw
  simp only [PagePool.newPage, hfails w hw, if_true]
  constructor <;> simp

/-- A sequence that ends with its first part. -/
theorem bind_fails {f : α → Task β} (h : Under Inv A t fun r => ∀ a, r ≠ .ok a) :
    Under Inv A (t >>= f) fun r => ∀ b, r ≠ .ok b := by
  apply Under.bind h
  · exact fun a ha => (ha a rfl).elim
  · intro e _ b hb
    cases hb

/-- An attempt that fails. -/
theorem okOr_fails {default : α} (h : Under Inv A t fun r => ∀ a, r ≠ .ok a) :
    Under Inv A (t.okOr default) fun r => r = .ok default :=
  okOr h (fun a ha => (ha a rfl).elim) fun _ _ => rfl

/-- A reservation that is refused. -/
theorem tryAlloc {bytes : ℕ} (hrefused : ∀ w, Inv w → (w.guard.tryAlloc bytes).1 = false) :
    Under Inv A (Task.tryAlloc bytes) fun r => r = .ok false := by
  intro w hw
  simp only [hrefused w hw]
  exact ⟨by simp, rfl⟩

end Task.Under

/-- Every operation of the pool fails. -/
def World.AllFail (w : World) : Prop := ∀ n, w.pool.fails n = true

theorem World.AllFail.exec (op : MinerOp) (w : World) (h : w.AllFail) :
    World.AllFail (world.exec op w).2 := by
  intro n
  rw [(World.le_exec op w).fails]
  exact h n

/-- Every operation of the pool fails, and no reservation is admitted. -/
structure World.Refusing (w : World) : Prop where
  fails : w.AllFail
  refuses : ∀ calls used bytes, 0 < bytes → w.guard.admits calls used bytes = false

theorem World.Refusing.exec (op : MinerOp) (w : World) (h : w.Refusing) :
    World.Refusing (world.exec op w).2 := by
  refine ⟨World.AllFail.exec op w h.fails, ?_⟩
  cases op with
  | tryAlloc n =>
    have hadmits : (w.guard.tryAlloc n).2.admits = w.guard.admits := by
      unfold MemoryGuard.tryAlloc
      split_ifs <;> rfl
    simp only [hadmits]
    exact h.refuses
  | _ => exact h.refuses

theorem World.Refusing.tryAlloc {w : World} (h : w.Refusing) {bytes : ℕ} (hpos : 0 < bytes) :
    (w.guard.tryAlloc bytes).1 = false := by
  simp [MemoryGuard.tryAlloc, h.refuses _ _ _ hpos]

theorem mem_lines_replay {log : List MinerOp} {w : World} {l : Line} :
    l ∈ (Prog.replay world log w).lines ↔ l ∈ w.lines ∨ .writeHui l.1 l.2 ∈ log := by
  induction log generalizing w with
  | nil => simp [Prog.replay]
  | cons op log ih =>
    have hstep : Prog.replay world (op :: log) w = Prog.replay world log (world.exec op w).2 := rfl
    rw [hstep, ih]
    cases op <;> simp [Prod.ext_iff, or_assoc]

/-- A run of such tasks. -/
theorem executeTasks_under {Inv : World → Prop} (hinv : ∀ op w, Inv w → Inv (world.exec op w).2)
    {A : Line → Prop} (ctx : MiningContext) {w : World} (hw : Inv { w with lines := [] })
    {tasks : List (Task Unit)} (h : ∀ t ∈ tasks, t.Under Inv A fun r => r = .ok ()) :
    ∃ w', executeTasks ctx w tasks = .ok w' ∧ ∀ l ∈ w'.lines, A l := by
  have hunder : List.Forall₂ (fun p Q => Prog.Under (O := world) Inv p Q) (tasks.map ExceptT.run)
      (tasks.map fun _ calls r => (∀ X u, .writeHui X u ∈ calls → A (X, u)) ∧ r = .ok ()) := by
    rw [List.forall₂_map_left_iff, List.forall₂_map_right_iff, List.forall₂_same]
    exact h
  obtain ⟨log, ends, hperm, hres, hstate, hmeets⟩ :=
    Prog.interleave_under hinv (if 1 < ctx.threads then ctx.schedule else []) hw hunder
  rw [List.forall₂_map_right_iff] at hmeets
  have hend : ∀ e ∈ ends, (∀ X u, .writeHui X u ∈ e.1 → A (X, u)) ∧ e.2 = .ok () := by
    intro e he
    obtain ⟨-, -, hmeets⟩ := exists_of_forall₂ hmeets he
    exact hmeets
  have hok : firstFault (ends.map Prod.snd) = none := by
    apply List.findSome?_eq_none_iff.mpr
    intro r hr
    obtain ⟨e, he, rfl⟩ := List.mem_map.mp hr
    rw [(hend e he).2]
  refine ⟨_, executeTasks_ok_iff.mpr ⟨hres ▸ hok, rfl⟩, fun l hl => ?_⟩
  rw [hstate] at hl
  rcases mem_lines_replay.mp hl with hl | hl
  · cases hl
  · obtain ⟨calls, hcalls, hmem⟩ := List.mem_flatten.mp (hperm.subset hl)
    obtain ⟨e, he, rfl⟩ := List.mem_map.mp hcalls
    exact (hend e he).1 l.1 l.2 hmem

/-! ## What a task writes whatever fails -/

theorem Task.Spec.any {α : Type} (t : Task α) (w : World) :
    Task.Spec (fun _ => True) t w fun _ _ _ => True := by
  have key : ∀ (p : Prog minerInterface (Except Fault α)) (w : World),
      Prog.Wp world p w (Ends (fun _ => True) fun _ _ _ => True) := by
    intro p
    induction p with
    | pure r =>
      intro w v _
      cases r <;> trivial
    | call op k ih =>
      intro w v _
      apply Prog.Wp.mono (ih _ _) le_rfl
      intro calls v r _
      cases r <;> trivial
  exact key t.run w

/-- An attempt, whatever fails in it. -/
theorem Task.Spec.okOr_result {α : Type} {E : Fault → Prop} {t : Task α} {w : World} {default : α}
    {P : α → Prop} (h : Task.Spec (fun _ => True) t w fun _ _ a => P a) (hdefault : P default) :
    Task.Spec E (t.okOr default) w fun _ _ a => P a := by
  apply Prog.Wp.bind
  apply Prog.Wp.mono h le_rfl
  intro calls v r hr
  cases r with
  | ok a => exact fun _ _ => hr
  | error e => exact fun _ _ => hdefault

/-- The task hands nothing over, whether it fails or not, and a result satisfies `P`. -/
def Task.Quiet {α : Type} (t : Task α) (w : World) (P : World → α → Prop) : Prop :=
  Prog.Wp world t.run w fun calls v r => outputs calls = [] ∧ ∀ a, r = .ok a → P v a

namespace Task.Quiet

variable {α β : Type} {w : World} {t : Task α} {P : World → α → Prop}

theorem pure {a : α} (h : ∀ v, w ≤ v → P v a) : Quiet (Pure.pure a : Task α) w P := by
  intro v hv
  refine ⟨rfl, fun b hb => ?_⟩
  cases hb
  exact h v hv

theorem newPage (bytes : Bytes) :
    Quiet (Task.newPage bytes) w fun v id => v.pool.Holds id bytes := by
  intro v hv v' hv'
  refine ⟨rfl, fun id hid => ?_⟩
  simp only [world, PagePool.newPage] at hv' hid
  split_ifs at hv' hid with hfail
  cases hid
  exact PagePool.Holds.mono hv' ⟨Nat.lt_succ_self _, Function.update_self ..⟩

theorem pin {id : PageId} {bytes : Bytes} (h : w.pool.Holds id bytes) :
    Quiet (Task.pin id) w fun _ b => b = bytes := by
  intro v hv v' _
  refine ⟨rfl, fun b hb => ?_⟩
  have hpages := (h.mono hv).payload
  simp only [PagePool.pin, hpages] at hb
  split_ifs at hb
  cases hb
  rfl

theorem bind {f : α → Task β} {R : World → β → Prop} (h : Quiet t w P)
    (hf : ∀ v a, P v a → Quiet (f a) v R) : Quiet (t >>= f) w R := by
  have hrun : (t >>= f).run = Prog.bind t.run (ExceptT.bindCont f) := rfl
  rw [Quiet, hrun]
  apply Prog.Wp.bind
  refine Prog.Wp.mono h le_rfl fun calls v r hr => ?_
  obtain ⟨hcalls, hP⟩ := hr
  cases r with
  | ok a =>
    refine Prog.Wp.mono (hf v a (hP a rfl)) le_rfl fun calls' v' r' hr' => ?_
    rw [outputs_append, hcalls]
    exact hr'
  | error e =>
    intro v' _
    rw [List.append_nil]
    exact ⟨hcalls, fun b hb => by cases hb⟩

/-- An attempt, whatever fails in it. -/
theorem okOr {E : Fault → Prop} {default : α} (h : Quiet t w P)
    (hdefault : ∀ v, P v default) :
    Task.Spec E (t.okOr default) w fun out v a => out = [] ∧ P v a := by
  apply Prog.Wp.bind
  refine Prog.Wp.mono (Prog.Wp.later h) le_rfl fun calls v r hr => ?_
  cases r with
  | ok a =>
    intro v' hv'
    obtain ⟨hcalls, hP⟩ := hr v' hv'
    rw [List.append_nil]
    exact ⟨hcalls, hP a rfl⟩
  | error e =>
    intro v' _
    rw [List.append_nil]
    exact ⟨(hr v le_rfl).1, hdefault v'⟩

end Task.Quiet

/-- What one of the tasks has done when the run returns. -/
theorem meets_of_executeTasks {ctx : MiningContext} {w w' : World} {tasks : List (Task Unit)}
    {Q : List MinerOp → World → Unit → Prop} (hrun : executeTasks ctx w tasks = .ok w')
    {t : Task Unit} (ht : t ∈ tasks) (h : t.Spec (fun _ => True) { w with lines := [] } Q) :
    ∃ log out, w' = Prog.replay world log { w with lines := [] } ∧ out ⊆ outputs log ∧
      Q out w' () := by
  have hspec : List.Forall₂ (fun t Q => Task.Spec (fun _ => True) t { w with lines := [] } Q) tasks
      (tasks.map fun t' out v a => t' = t → Q out v a) := by
    rw [List.forall₂_map_right_iff, List.forall₂_same]
    intro t' _
    by_cases heq : t' = t
    · subst heq
      exact h.mono le_rfl fun _ _ _ hout _ => hout
    · exact (Task.Spec.any t' _).mono le_rfl fun _ _ _ _ heq' => (heq heq').elim
  rcases executeTasks_spec ctx w hspec with ⟨e, -, herror⟩ | ⟨log, outs, hok, hperm, houts⟩
  · rw [hrun] at herror
    cases herror
  · rw [hrun] at hok
    obtain rfl := Except.ok.inj hok
    rw [List.forall₂_map_right_iff] at houts
    obtain ⟨out, hout, hmeets⟩ := exists_of_forall₂ (List.Forall₂.flip houts) ht
    refine ⟨log, out, rfl, fun op hop => ?_, hmeets rfl⟩
    exact hperm.symm.subset (List.mem_flatten.mpr ⟨out, hout, hop⟩)

/-- A line that one of the tasks writes. -/
theorem mem_lines_of_executeTasks {ctx : MiningContext} {w w' : World} {tasks : List (Task Unit)}
    (hrun : executeTasks ctx w tasks = .ok w') {t : Task Unit} (ht : t ∈ tasks) {l : Line}
    (h : t.Spec (fun _ => True) { w with lines := [] } fun out _ _ => .writeHui l.1 l.2 ∈ out) :
    l ∈ w'.lines := by
  obtain ⟨log, out, rfl, hsub, hout⟩ := meets_of_executeTasks hrun ht h
  exact mem_lines_replay.mpr (Or.inr (List.mem_of_mem_filter (hsub hout)))

end AirHuim
