import AirHuim.BufferPool.Threads

/-!
# The ledger of a shared pool

A test of the budget and the addition it allows are separate accesses, and a
page that two threads miss is added twice. In every run the bytes in use are
those of the frames, those under way, and those of all frames that an insertion
replaced; nothing ever gives the last ones back.
-/

namespace AirHuim

open Library

variable {π : Type}

/-- The bytes of the frame that an insertion replaces. -/
def Pc.replaces (p : BufferPool π) : Pc → ℕ
  | .inserting r _ =>
    match p.frames.lookup r.pageId with
    | some frame => frame.data.length
    | none => 0
  | _ => 0

/-- An addition still fits into the budget, and an insertion replaces no bytes. -/
def Pc.LedgerRespected (p : BufferPool π) : Pc → Prop
  | .adding r => p.usedBytes + r.data.length ≤ p.budgetBytes
  | .inserting r _ => ∀ frame, p.frames.lookup r.pageId = some frame → frame.data.length = 0
  | _ => True

namespace BufferPool

variable {p : BufferPool π} {pending : ℕ}

/-- An insertion over a resident frame leaves the bytes of that frame counted. -/
theorem Ledger.replaceFrame {r : Request} {frame : Frame}
    (h : Ledger p (r.data.length + pending)) (hframe : p.frames.lookup r.pageId = some frame)
    (tick : ℕ) : Ledger (p.insertFrame r tick) (pending + frame.data.length) := by
  unfold Ledger at h ⊢
  have hreplace := Table.total_replace hframe ⟨r.data, r.info tick, p.nextAddr⟩
    fun frame => frame.data.length
  change p.usedBytes =
    Table.total (p.frames.insert r.pageId ⟨r.data, r.info tick, p.nextAddr⟩) _ +
      (pending + frame.data.length)
  simp only [residentBytes] at h hreplace
  omega

end BufferPool

namespace PoolWorld

variable {E : EvictionPolicy π} {order : FrameOrder} {w : PoolWorld π} {p q : BufferPool π}
  {pc next : Pc} {handed : List Guard}

/-- The budget holds, and between operations the bytes in use are those of the frames. -/
structure LedgerHolds (w : PoolWorld π) : Prop where
  within : w.pool.usedBytes ≤ w.pool.budgetBytes
  exact : (∀ pc ∈ w.threads, pc = .idle) → w.pool.usedBytes = w.pool.residentBytes

def LedgerRespected (w : PoolWorld π) : PoolEvent → Prop
  | .advance t => ∀ pc, w.threads[t]? = some pc → pc.LedgerRespected w.pool
  | _ => True

/-- The bytes in use are those of the frames, those under way and `lost`. -/
def Owes (w : PoolWorld π) (lost : ℕ) : Prop := BufferPool.Ledger w.pool (w.pending + lost)

theorem replaces_eq_zero (h : pc.Silent p) : pc.replaces p = 0 := by
  cases pc with
  | inserting r tick => exact h.elim
  | _ => rfl

theorem replaces_of_respected (h : pc.LedgerRespected p) : pc.replaces p = 0 := by
  cases pc with
  | inserting r tick =>
    cases hframe : p.frames.lookup r.pageId with
    | none => simp [Pc.replaces, hframe]
    | some frame =>
      simp only [Pc.replaces, hframe]
      exact h frame hframe
  | _ => rfl

/-- One access: `others` are the bytes that are not this thread's. -/
theorem ledger_access (haccess : Access E p pc next handed q) {others : ℕ}
    (h : BufferPool.Ledger p (pc.pending + others)) :
    BufferPool.Ledger q (next.pending + (others + pc.replaces p)) := by
  cases haccess with
  | stay kind =>
    rw [replaces_eq_zero kind, add_zero]
    exact h
  | quiet frames _ _ used _ kind before after =>
    rw [replaces_eq_zero kind, add_zero, after.pending]
    rw [before.pending] at h
    unfold BufferPool.Ledger BufferPool.residentBytes
    rw [frames, used]
    exact h
  | hit _ => exact h.setInfo _ _
  | panic _ => exact h
  | readFreed _ => exact h
  | write _ after =>
    rw [after.pending]
    exact h
  | @clear id job =>
    rw [(job.afterFlush_passive id).pending]
    exact h.setInfo _ _
  | remove =>
    have hremoved := h.removeFrame (p := p)
    simp only [Pc.pending, Pc.replaces, add_zero, zero_add] at hremoved ⊢
    exact hremoved _
  | sub =>
    have hsub := h.subUsed
    simp only [Pc.pending, Pc.replaces, add_zero, zero_add] at hsub ⊢
    exact hsub
  | @add r =>
    have hadd := h.addUsed r.data.length
    simp only [Pc.pending, Pc.replaces, add_zero, zero_add] at hadd ⊢
    exact hadd
  | @insert r tick =>
    simp only [Pc.pending, Pc.replaces, zero_add] at h ⊢
    cases hframe : p.frames.lookup r.pageId with
    | none => exact h.insertFrame hframe tick
    | some frame => exact h.replaceFrame hframe tick
  | hand => exact h
  | mark => exact h.setInfo _ _
  | unpin => exact h.setInfo _ _

theorem budget_access (haccess : Access E p pc next handed q) :
    q.budgetBytes = p.budgetBytes := by
  cases haccess with
  | quiet _ _ _ _ budget _ _ _ => exact budget
  | hit _ => exact BufferPool.budgetBytes_setInfo p _ _
  | @remove id job =>
    unfold BufferPool.removeFrame
    split <;> rfl
  | clear => exact BufferPool.budgetBytes_setInfo p _ _
  | mark => exact BufferPool.budgetBytes_setInfo p _ _
  | unpin => exact BufferPool.budgetBytes_setInfo p _ _
  | _ => rfl

/-- Only an addition raises the bytes in use. -/
theorem used_access (haccess : Access E p pc next handed q) (hok : pc.LedgerRespected p)
    (h : p.usedBytes ≤ p.budgetBytes) : q.usedBytes ≤ p.budgetBytes := by
  cases haccess with
  | quiet _ _ _ used _ _ _ _ => rwa [used]
  | hit _ =>
    dsimp only
    rwa [BufferPool.usedBytes_setInfo]
  | clear => rwa [BufferPool.clearDirty, BufferPool.usedBytes_setInfo]
  | mark => rwa [BufferPool.markDirty, BufferPool.usedBytes_setInfo]
  | unpin => rwa [BufferPool.unpin, BufferPool.usedBytes_setInfo]
  | @remove id job =>
    have hused : (p.removeFrame id).2.usedBytes = p.usedBytes := by
      unfold BufferPool.removeFrame
      split <;> rfl
    rwa [hused]
  | sub => exact (Nat.sub_le _ _).trans h
  | add => exact hok
  | _ => exact h

theorem ledgerRespected_of_silent (h : pc.Silent p) : pc.LedgerRespected p := by
  cases pc with
  | adding r => exact h.elim
  | inserting r tick => exact h.elim
  | _ => trivial

/-- An access after which the budget holds respected it. -/
theorem respected_of_used (haccess : Access E p pc next handed q)
    (hwithin : q.usedBytes ≤ q.budgetBytes) (hreplaces : pc.replaces p = 0) :
    pc.LedgerRespected p := by
  cases haccess with
  | @add r => exact hwithin
  | @insert r tick =>
    intro frame hframe
    simpa only [Pc.replaces, hframe] using hreplaces
  | stay kind => exact ledgerRespected_of_silent kind
  | quiet _ _ _ _ _ kind _ _ => exact ledgerRespected_of_silent kind
  | _ => trivial

/-! ## Runs -/

theorem pending_eq {t : ℕ} (ht : w.threads[t]? = some pc) :
    w.pending = pc.pending + ((w.threads.eraseIdx t).map Pc.pending).sum := by
  rw [pending, ((threads_perm ht).map Pc.pending).sum_eq, List.map_cons, List.sum_cons]

theorem pending_set {t : ℕ} (ht : w.threads[t]? = some pc) (next : Pc) :
    ((w.threads.set t next).map Pc.pending).sum =
      next.pending + ((w.threads.eraseIdx t).map Pc.pending).sum := by
  rw [((set_perm ht next).map Pc.pending).sum_eq, List.map_cons, List.sum_cons]

/-- What an event adds to the bytes that stay counted. -/
def replaces (w : PoolWorld π) : PoolEvent → ℕ
  | .advance t =>
    match w.threads[t]? with
    | some pc => pc.replaces w.pool
    | none => 0
  | _ => 0

theorem start_pending {t : ℕ} (ht : w.threads[t]? = some .idle) (op : ThreadOp) :
    (w.start t op).pool = w.pool ∧ (w.start t op).pending = w.pending := by
  have hpassive : ∀ next : Pc, next.pending = 0 →
      ((w.threads.set t next).map Pc.pending).sum = w.pending := by
    intro next hnext
    rw [pending_set ht next, pending_eq ht, hnext]
    rfl
  rcases start_cases w t op with heq | ⟨next, hnext, heq⟩ | ⟨i, g, -, heq⟩
  · rw [heq]
    exact ⟨rfl, rfl⟩
  · rw [heq]
    exact ⟨rfl, hpassive next (by cases hnext <;> rfl)⟩
  · rw [heq]
    exact ⟨rfl, hpassive _ (by cases g.mutable <;> rfl)⟩

variable (E order) in
theorem Owes.step {lost : ℕ} (h : w.Owes lost) (e : PoolEvent) :
    (w.step E order e).Owes (lost + w.replaces e) := by
  cases e with
  | start t op =>
    unfold PoolWorld.step
    dsimp only
    split
    case h_2 => exact h
    case h_1 ht =>
      obtain ⟨hpool, hpending⟩ := start_pending ht op
      unfold Owes
      rw [hpool, hpending]
      exact h
  | advance t =>
    cases ht : w.threads[t]? with
    | none =>
      simp only [PoolWorld.step, replaces, ht]
      exact h
    | some pc =>
      rw [step_advance ht]
      unfold Owes at h ⊢
      rw [pending_eq ht, Nat.add_assoc] at h
      have haccess := ledger_access (Pc.step_access E order w.pool pc) h
      have hpending : (w.advance E order t pc).pending = (pc.step E order w.pool).1.pending +
          ((w.threads.eraseIdx t).map Pc.pending).sum := pending_set ht _
      have hreplaces : w.replaces (.advance t) = pc.replaces w.pool := by simp only [replaces, ht]
      rw [hpending, hreplaces, Nat.add_assoc, ← Nat.add_assoc _ lost]
      exact haccess
  | poke i off byte =>
    cases hg : w.guards[i]? with
    | none =>
      simp only [PoolWorld.step, hg]
      exact h
    | some g =>
      by_cases hwrite : g.mutable ∧ off < g.len
      · simp only [PoolWorld.step, hg, if_pos hwrite]
        exact BufferPool.Ledger.poke h g off byte
      · simp only [PoolWorld.step, hg, if_neg hwrite]
        exact h

/-- Nothing under way. -/
theorem pending_of_idle (h : ∀ pc ∈ w.threads, pc = .idle) : w.pending = 0 := by
  apply List.sum_eq_zero
  intro n hn
  obtain ⟨pc, hpc, rfl⟩ := List.mem_map.mp hn
  rw [h pc hpc]
  rfl

theorem within_step (h : w.pool.usedBytes ≤ w.pool.budgetBytes) {e : PoolEvent}
    (hok : w.LedgerRespected e) :
    (w.step E order e).pool.usedBytes ≤ (w.step E order e).pool.budgetBytes := by
  cases e with
  | start t op =>
    unfold PoolWorld.step
    dsimp only
    split
    case h_2 => exact h
    case h_1 ht =>
      rw [(start_pending ht op).1]
      exact h
  | advance t =>
    cases ht : w.threads[t]? with
    | none =>
      simp only [PoolWorld.step, ht]
      exact h
    | some pc =>
      rw [step_advance ht]
      have haccess := Pc.step_access E order w.pool pc
      exact (used_access haccess (hok pc ht) h).trans_eq (budget_access haccess).symm
  | poke i off byte =>
    cases hg : w.guards[i]? with
    | none =>
      simp only [PoolWorld.step, hg]
      exact h
    | some g =>
      by_cases hwrite : g.mutable ∧ off < g.len
      · simp only [PoolWorld.step, hg, if_pos hwrite]
        unfold BufferPool.poke
        split
        · split <;> exact h
        · exact h
      · simp only [PoolWorld.step, hg, if_neg hwrite]
        exact h

theorem replaces_of_ledgerRespected {e : PoolEvent} (h : w.LedgerRespected e) :
    w.replaces e = 0 := by
  cases e with
  | advance t =>
    cases ht : w.threads[t]? with
    | none => simp only [replaces, ht]
    | some pc =>
      simp only [replaces, ht]
      exact replaces_of_respected (h pc ht)
  | _ => rfl

theorem ledgerRespected_of_step {e : PoolEvent}
    (hwithin : (w.step E order e).pool.usedBytes ≤ (w.step E order e).pool.budgetBytes)
    (hreplaces : w.replaces e = 0) : w.LedgerRespected e := by
  cases e with
  | start t op => trivial
  | poke i off byte => trivial
  | advance t =>
    intro pc ht
    rw [step_advance ht] at hwithin
    simp only [replaces, ht] at hreplaces
    exact respected_of_used (Pc.step_access E order w.pool pc) hwithin hreplaces

/-- What a run that ends between operations shows: with the ledger right at its
end, no insertion on the way replaced any bytes. -/
theorem respected_of_holds {events : List PoolEvent} {lost : ℕ} (h : w.Owes lost)
    (hholds : AllStates (step E order) LedgerHolds w events)
    (hidle : ∀ pc ∈ (run (step E order) w events).threads, pc = .idle) :
    lost = 0 ∧ AllSteps (step E order) LedgerRespected w events := by
  induction events generalizing w lost with
  | nil =>
    have hexact := LedgerHolds.exact hholds hidle
    have howes : w.pool.usedBytes = w.pool.residentBytes + (w.pending + lost) := h
    have hnone : w.pending = 0 := pending_of_idle hidle
    exact ⟨by omega, trivial⟩
  | cons e es ih =>
    obtain ⟨hlost, hrest⟩ := ih (h.step E order e) hholds.2 hidle
    have hnext : LedgerHolds (w.step E order e) := by
      cases es with
      | nil => exact hholds.2
      | cons e' es' => exact hholds.2.1
    exact ⟨by omega, ledgerRespected_of_step hnext.within (by omega), hrest⟩

theorem Owes.new (budgetBytes : ℕ) (store : ChunkStore) (eviction : π) (threads : ℕ) :
    Owes (PoolWorld.new (BufferPool.new budgetBytes store eviction) threads) 0 := by
  have hpending : (PoolWorld.new (BufferPool.new budgetBytes store eviction) threads).pending =
      0 := by
    apply pending_of_idle
    intro pc hpc
    exact List.eq_of_mem_replicate hpc
  unfold Owes
  rw [hpending]
  rfl

/-- If every addition fits and no insertion replaces bytes, the ledger holds in
all states of a run; and for a run that ends between operations this is the only way. -/
theorem ledgerHolds_iff (E : EvictionPolicy π) (order : FrameOrder) (budgetBytes : ℕ)
    (store : ChunkStore) (eviction : π) (threads : ℕ) (events : List PoolEvent) :
    (AllSteps (step E order) LedgerRespected
        (PoolWorld.new (BufferPool.new budgetBytes store eviction) threads) events →
      AllStates (step E order) LedgerHolds
        (PoolWorld.new (BufferPool.new budgetBytes store eviction) threads) events) ∧
      ((∀ pc ∈ (run (step E order)
          (PoolWorld.new (BufferPool.new budgetBytes store eviction) threads) events).threads,
        pc = .idle) →
        (AllStates (step E order) LedgerHolds
            (PoolWorld.new (BufferPool.new budgetBytes store eviction) threads) events ↔
          AllSteps (step E order) LedgerRespected
            (PoolWorld.new (BufferPool.new budgetBytes store eviction) threads) events)) := by
  have hforward : AllSteps (step E order) LedgerRespected
        (PoolWorld.new (BufferPool.new budgetBytes store eviction) threads) events →
      AllStates (step E order) LedgerHolds
        (PoolWorld.new (BufferPool.new budgetBytes store eviction) threads) events := by
    intro hsteps
    have hinv : AllStates (step E order)
        (fun w => w.Owes 0 ∧ w.pool.usedBytes ≤ w.pool.budgetBytes)
        (PoolWorld.new (BufferPool.new budgetBytes store eviction) threads) events := by
      apply AllStates.of_steps (C := LedgerRespected)
      · intro w e hw hok
        have hstep := hw.1.step E order e
        rw [replaces_of_ledgerRespected hok] at hstep
        exact ⟨hstep, within_step hw.2 hok⟩
      · exact ⟨Owes.new budgetBytes store eviction threads, Nat.zero_le _⟩
      · exact hsteps
    apply hinv.mono
    intro w hw
    refine ⟨hw.2, fun hidle => ?_⟩
    have howes : w.pool.usedBytes = w.pool.residentBytes + (w.pending + 0) := hw.1
    rw [pending_of_idle hidle] at howes
    exact howes
  exact ⟨hforward, fun hidle => ⟨fun hholds => (respected_of_holds
    (Owes.new budgetBytes store eviction threads) hholds hidle).2, hforward⟩⟩

/-- Two threads that load two pages pass the test together and exceed the
budget; two threads that load one page count it twice. -/
theorem not_ledgerHolds_races :
    ¬ AllStates (step LruPolicy.policy ⟨fun _ frames => frames, fun _ _ => List.Perm.refl _⟩)
        LedgerHolds
        (PoolWorld.new (BufferPool.new 1 ⟨fun id => if id < 3 then some [7] else none, 0,
          fun _ => false, fun _ => none⟩ LruPolicy.new) 2)
        [.start 0 (.pin 1 false 100), .start 1 (.pin 2 false 100), .advance 0, .advance 1,
          .advance 0, .advance 1, .advance 0, .advance 1, .advance 0, .advance 1] ∧
      ¬ AllStates (step LruPolicy.policy ⟨fun _ frames => frames, fun _ _ => List.Perm.refl _⟩)
        LedgerHolds
        (PoolWorld.new (BufferPool.new 10 ⟨fun id => if id < 3 then some [7] else none, 0,
          fun _ => false, fun _ => none⟩ LruPolicy.new) 2)
        [.start 0 (.pin 1 false 100), .start 1 (.pin 1 false 100), .advance 0, .advance 1,
          .advance 0, .advance 0, .advance 0, .advance 0, .advance 0,
          .advance 1, .advance 1, .advance 1, .advance 1, .advance 1] := by
  constructor
  · intro h
    have hwithin := h.last.within
    revert hwithin
    decide +kernel
  · intro h
    have hexact := h.last.exact fun pc hpc => by
      have hthreads : pc ∈ [Pc.idle, Pc.idle] := hpc
      simpa using hthreads
    revert hexact
    decide +kernel

end PoolWorld

end AirHuim
