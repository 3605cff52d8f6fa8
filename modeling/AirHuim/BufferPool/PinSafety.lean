import AirHuim.BufferPool.Threads

/-!
# When guards keep their buffers

The lookup of a pin and the insertion after a miss are separate accesses, and so
are the choice of a victim and its removal. A run keeps every guard's buffer,
with the right pin counts, exactly if no frame is removed or replaced while it
is pinned and no pin counter overflows.
-/

namespace AirHuim

open Library

namespace BufferPool

variable {π : Type} {p q : BufferPool π}

/-- Buffers that are still to come have other numbers. -/
def Fresh (p : BufferPool π) : Prop :=
  ∀ id frame, p.frames.lookup id = some frame → frame.addr < p.nextAddr

theorem Fresh.congr (h : Fresh p) (hframes : q.frames = p.frames)
    (hnext : q.nextAddr = p.nextAddr) : Fresh q := by
  unfold Fresh
  rw [hframes, hnext]
  exact h

theorem Fresh.setInfo (h : Fresh p) (id : PageId) (f : PageMeta → PageMeta) :
    Fresh (p.setInfo id f) := by
  intro k frame hframe
  rw [nextAddr_setInfo]
  rw [lookup_setInfo] at hframe
  by_cases hk : k = id
  · rw [if_pos hk, Option.map_eq_some_iff] at hframe
    obtain ⟨old, hold, rfl⟩ := hframe
    exact h id old hold
  · rw [if_neg hk] at hframe
    exact h k frame hframe

theorem Fresh.insertFrame (h : Fresh p) (r : Request) (tick : ℕ) :
    Fresh (p.insertFrame r tick) := by
  intro k frame hframe
  change frame.addr < p.nextAddr + 1
  rw [lookup_insertFrame] at hframe
  by_cases hk : k = r.pageId
  · rw [if_pos hk] at hframe
    cases hframe
    exact Nat.lt_succ_self _
  · rw [if_neg hk] at hframe
    exact (h k frame hframe).trans (Nat.lt_succ_self _)

theorem Fresh.removeFrame (h : Fresh p) (id : PageId) : Fresh (p.removeFrame id).2 := by
  intro k frame hframe
  have hnext : (p.removeFrame id).2.nextAddr = p.nextAddr := by
    unfold BufferPool.removeFrame
    split <;> rfl
  rw [hnext]
  exact h k frame (lookup_of_removeFrame hframe)

theorem Fresh.poke (h : Fresh p) {g : Guard} (hg : p.Backs g) (off : ℕ) (byte : UInt8) :
    Fresh (p.poke g off byte) := by
  have hnext : (p.poke g off byte).nextAddr = p.nextAddr := by
    obtain ⟨frame, hframe, haddr, -⟩ := hg
    simp [BufferPool.poke, hframe, haddr]
  intro k frame hframe
  rw [hnext]
  rw [lookup_poke hg] at hframe
  by_cases hk : k = g.pageId
  · rw [if_pos hk, Option.map_eq_some_iff] at hframe
    obtain ⟨old, hold, rfl⟩ := hframe
    exact h k old hold
  · rw [if_neg hk] at hframe
    exact h k frame hframe

/-- The frame of the page, if it has one, is not pinned. -/
def Unpinned (p : BufferPool π) (id : PageId) : Prop :=
  ∀ frame, p.frames.lookup id = some frame → frame.info.isPinned = false

theorem Pins.free_of_unpinned {guards : List Guard} (h : Pins p guards) {id : PageId}
    (hid : p.Unpinned id) : liveGuards guards id = 0 := by
  cases hframe : p.frames.lookup id with
  | none => exact h.free_of_absent hframe
  | some frame =>
    rw [← h.counts id frame hframe]
    simpa [PageMeta.isPinned] using hid frame hframe

end BufferPool

variable {π : Type} (E : EvictionPolicy π) (order : FrameOrder)

/-- The access does not remove or replace a pinned frame, nor count a pin past
what the counter holds. -/
def Pc.PinsRespected (p : BufferPool π) : Pc → Prop
  | .pinning id _ _ => ∀ frame, p.frames.lookup id = some frame →
      frame.info.pinCount + 1 < 2 ^ 16
  | .removing id _ => p.Unpinned id
  | .inserting r _ => p.Unpinned r.pageId
  | _ => True

namespace PoolWorld

/-- Every live guard has its buffer, and its page counts its guards. -/
structure PinSafe (w : PoolWorld π) : Prop where
  stays : ∀ g ∈ w.live, w.pool.Backs g
  counts : ∀ g ∈ w.live, ∀ frame, w.pool.frames.lookup g.pageId = some frame →
    frame.info.pinCount = liveGuards w.live g.pageId

/-- The event respects the pins. -/
def PinsRespected (w : PoolWorld π) : PoolEvent → Prop
  | .advance t => ∀ pc, w.threads[t]? = some pc → pc.PinsRespected w.pool
  | _ => True

structure PinInvariant (w : PoolWorld π) : Prop where
  pins : BufferPool.Pins w.pool w.live
  fresh : BufferPool.Fresh w.pool

variable {E order} {w : PoolWorld π} {p : BufferPool π} {others : List Guard} {pc : Pc}

theorem PinInvariant.safe (h : PinInvariant w) : PinSafe w where
  stays := h.pins.backed
  counts g _ := h.pins.counts g.pageId

/-- One access of a thread among others that hold the guards `others`. -/
theorem pins_access {next : Pc} {handed : List Guard} (haccess : Access E p pc next handed q)
    (h : BufferPool.Pins p (pc.guards ++ others)) (hok : pc.PinsRespected p) :
    BufferPool.Pins q ((handed ++ next.guards) ++ others) := by
  cases haccess with
  | stay _ => exact h
  | quiet frames _ _ _ _ _ before after =>
    rw [before.guards] at h
    rw [after.guards]
    exact h.congr frames
  | hit lookup => exact (h.hit lookup (hok _ lookup) _).congr rfl
  | panic _ => exact h
  | readFreed _ => exact h
  | write _ after =>
    rw [after.guards]
    exact h.congr rfl
  | @clear id job =>
    rw [(job.afterFlush_passive id).guards]
    exact h.setDirty id fun _ => rfl
  | remove => exact h.removeFrame (h.free_of_unpinned hok)
  | sub => exact h.congr rfl
  | add => exact h.congr rfl
  | insert => exact h.insertFrame _ (h.free_of_unpinned hok)
  | hand =>
    have hidle : Pc.idle.guards = [] := rfl
    rw [hidle, List.append_nil]
    exact h.congr rfl
  | @mark g =>
    have hmarked : BufferPool.Pins (p.markDirty g.pageId) ([g] ++ others) :=
      h.setDirty g.pageId fun _ => rfl
    exact hmarked
  | unpin => exact h.unpin (List.Perm.refl _)

theorem fresh_access {next : Pc} {handed : List Guard} (haccess : Access E p pc next handed q)
    (h : BufferPool.Fresh p) : BufferPool.Fresh q := by
  cases haccess with
  | stay _ => exact h
  | quiet frames _ nextAddr _ _ _ _ _ => exact h.congr frames nextAddr
  | hit _ => exact (h.setInfo _ _).congr rfl rfl
  | panic _ => exact h
  | readFreed _ => exact h
  | write _ _ => exact h.congr rfl rfl
  | clear => exact h.setInfo _ _
  | remove => exact h.removeFrame _
  | sub => exact h.congr rfl rfl
  | add => exact h.congr rfl rfl
  | insert => exact h.insertFrame _ _
  | hand => exact h.congr rfl rfl
  | mark => exact h.setInfo _ _
  | unpin => exact h.setInfo _ _

theorem pinsRespected_of_silent (h : pc.Silent p) : pc.PinsRespected p := by
  cases pc with
  | pinning id mutable elapsedNs =>
    intro frame hframe
    have hnone : p.frames.lookup id = none := h
    rw [hnone] at hframe
    cases hframe
  | adding r => exact h.elim
  | removing id job => exact h.elim
  | inserting r tick => exact h.elim
  | _ => trivial

/-- An access that leaves every guard its buffer and the right counts respected the pins. -/
theorem pinsRespected_of_safe {next : Pc} {handed : List Guard}
    (haccess : Access E p pc next handed q) (h : BufferPool.Pins p (pc.guards ++ others))
    (hfresh : BufferPool.Fresh p)
    (hstays : ∀ g ∈ (handed ++ next.guards) ++ others, q.Backs g)
    (hcounts : ∀ g ∈ (handed ++ next.guards) ++ others, ∀ frame,
      q.frames.lookup g.pageId = some frame →
        frame.info.pinCount = liveGuards ((handed ++ next.guards) ++ others) g.pageId) :
    pc.PinsRespected p := by
  have hpinned : ∀ id frame, p.frames.lookup id = some frame → frame.info.isPinned ≠ false →
      ∃ g ∈ pc.guards ++ others, g.pageId = id := by
    intro id frame hframe hpin
    by_contra hnone
    have hfree : liveGuards (pc.guards ++ others) id = 0 :=
      liveGuards_eq_zero.mpr fun g hg hid => hnone ⟨g, hg, hid⟩
    rw [← h.counts id frame hframe] at hfree
    exact hpin (by simp [PageMeta.isPinned, hfree])
  cases haccess with
  | stay kind => exact pinsRespected_of_silent kind
  | quiet _ _ _ _ _ kind _ _ => exact pinsRespected_of_silent kind
  | panic _ => trivial
  | readFreed _ => trivial
  | write _ _ => trivial
  | clear => trivial
  | sub => trivial
  | add => trivial
  | hand => trivial
  | mark => trivial
  | unpin => trivial
  | @hit id mutable elapsedNs frame lookup =>
    intro frame' hframe'
    rw [lookup] at hframe'
    cases hframe'
    have hcount := hcounts ⟨id, frame.addr, frame.data.length, mutable⟩
      (List.mem_append_left _ List.mem_cons_self)
      { frame with info := BufferPool.countPin p.tick frame.info }
      (by dsimp only; rw [BufferPool.lookup_setInfo, if_pos rfl, lookup]; rfl)
    have hlive : liveGuards ([⟨id, frame.addr, frame.data.length, mutable⟩] ++ Pc.idle.guards ++
        others) id = frame.info.pinCount + 1 := by
      rw [h.counts id frame lookup]
      exact liveGuards_cons ⟨id, frame.addr, frame.data.length, mutable⟩ others id |>.trans
        (by rw [if_pos rfl]; rfl)
    rw [hlive] at hcount
    have hwrap : (frame.info.pinCount + 1) % 2 ^ 16 = frame.info.pinCount + 1 := hcount
    omega
  | @remove id job =>
    intro frame hframe
    by_contra hpin
    obtain ⟨g, hg, hid⟩ := hpinned id frame hframe hpin
    obtain ⟨frame', hframe', -⟩ := hstays g hg
    rw [hid, BufferPool.lookup_removeFrame, if_pos rfl] at hframe'
    cases hframe'
  | @insert r tick =>
    intro frame hframe
    by_contra hpin
    obtain ⟨g, hg, hid⟩ := hpinned r.pageId frame hframe hpin
    obtain ⟨old, hold, haddr, -⟩ := h.backed g hg
    obtain ⟨new, hnew, haddr', -⟩ := hstays g (List.mem_append_right _ hg)
    rw [hid, BufferPool.lookup_insertFrame, if_pos rfl] at hnew
    cases hnew
    have hlt := hfresh g.pageId old hold
    dsimp only at haddr'
    omega

/-! ## Runs -/

theorem PinInvariant.step (h : PinInvariant w) {e : PoolEvent} (hok : w.PinsRespected e) :
    PinInvariant (w.step E order e) := by
  cases e with
  | start t op =>
    unfold PoolWorld.step
    dsimp only
    split
    case h_2 => exact h
    case h_1 ht =>
      obtain ⟨hpool, hlive⟩ := start_spec ht op
      constructor
      · rw [hpool]
        exact h.pins.perm hlive.symm
      · rw [hpool]
        exact h.fresh
  | advance t =>
    cases ht : w.threads[t]? with
    | none =>
      simp only [PoolWorld.step, ht]
      exact h
    | some pc =>
      rw [step_advance ht]
      have haccess := Pc.step_access E order w.pool pc
      have hpins := h.pins.perm (held_perm ht Pc.guards)
      exact ⟨(pins_access haccess hpins (hok pc ht)).perm (live_advance E order ht).symm,
        fresh_access haccess h.fresh⟩
  | poke i off byte =>
    cases hg : w.guards[i]? with
    | none =>
      simp only [PoolWorld.step, hg]
      exact h
    | some g =>
      by_cases hwrite : g.mutable ∧ off < g.len
      · simp only [PoolWorld.step, hg, if_pos hwrite]
        have hbacks := h.pins.backed g (List.mem_append_left _ (List.mem_of_getElem? hg))
        exact ⟨h.pins.poke hbacks off byte, h.fresh.poke hbacks off byte⟩
      · simp only [PoolWorld.step, hg, if_neg hwrite]
        exact h

theorem pinsRespected_of_step (h : PinInvariant w) {e : PoolEvent}
    (hsafe : PinSafe (w.step E order e)) : w.PinsRespected e := by
  cases e with
  | start t op => trivial
  | poke i off byte => trivial
  | advance t =>
    intro pc ht
    rw [step_advance ht] at hsafe
    have hlive := live_advance E order ht
    apply pinsRespected_of_safe (Pc.step_access E order w.pool pc)
      (h.pins.perm (held_perm ht Pc.guards)) h.fresh
    · intro g hg
      exact hsafe.stays g (hlive.mem_iff.mpr hg)
    · intro g hg frame hframe
      rw [hsafe.counts g (hlive.mem_iff.mpr hg) frame hframe, liveGuards_perm hlive]

theorem PinInvariant.new (budgetBytes : ℕ) (store : ChunkStore) (eviction : π) (threads : ℕ) :
    PinInvariant (PoolWorld.new (BufferPool.new budgetBytes store eviction) threads) where
  pins := by
    have hlive : (PoolWorld.new (BufferPool.new budgetBytes store eviction) threads).live = [] := by
      simp [PoolWorld.new, live, Pc.guards]
    rw [hlive]
    exact ⟨fun g hg => (List.not_mem_nil hg).elim, fun id frame h => by
      simp [PoolWorld.new, BufferPool.new] at h⟩
  fresh id frame h := by simp [PoolWorld.new, BufferPool.new] at h

/-- From an empty pool on, every guard keeps its buffer and the pin counts are
right in all states of a run exactly if every event of it respects the pins. -/
theorem pinSafe_iff (E : EvictionPolicy π) (order : FrameOrder) (budgetBytes : ℕ)
    (store : ChunkStore) (eviction : π) (threads : ℕ) (events : List PoolEvent) :
    AllStates (step E order) PinSafe
        (PoolWorld.new (BufferPool.new budgetBytes store eviction) threads) events ↔
      AllSteps (step E order) PinsRespected
        (PoolWorld.new (BufferPool.new budgetBytes store eviction) threads) events :=
  allStates_iff (fun _ _ h hok => h.step hok) (fun _ h => h.safe)
    (fun _ _ h hsafe => pinsRespected_of_step h hsafe)
    (PinInvariant.new budgetBytes store eviction threads)

/-- Two threads pin page 1 and both miss; the insertion of the second replaces
the frame into which the guard of the first points. -/
theorem not_pinSafe_doubleMiss :
    ¬ AllStates (step LruPolicy.policy ⟨fun _ frames => frames, fun _ _ => List.Perm.refl _⟩)
      PinSafe
      (PoolWorld.new (BufferPool.new 10 ⟨fun id => if id = 1 then some [7] else none, 0,
        fun _ => false, fun _ => none⟩ LruPolicy.new) 2)
      [.start 0 (.pin 1 false 100), .start 1 (.pin 1 false 100), .advance 0, .advance 1,
        .advance 0, .advance 0, .advance 0, .advance 0, .advance 0,
        .advance 1, .advance 1, .advance 1, .advance 1] := by
  intro h
  have hstays := h.last.stays ⟨1, 0, 1, false⟩ (by decide +kernel)
  have hview := hstays.view
  revert hview
  decide +kernel

end PoolWorld

end AirHuim
