import AirHuim.BufferPool.Operations
import AirHuim.Library.Trace

/-!
# A pool used by one thread

A session is a pool, the guards that are live, and for the specification the
bytes that were last written to every page. The thread pins pages, writes
through its guards, drops them, creates pages, and may flush, evict, mark dirty
or change the budget at any point.
-/

namespace AirHuim

open Library

structure Session (π : Type) where
  pool : BufferPool π
  guards : List Guard
  /-- The bytes last written to each page. -/
  written : PageId → Option Bytes
  /-- The pages that were pinned or created. -/
  seen : List PageId

inductive SessionOp
  /-- `pin`, or `pin_mut` if `mutable`; a load takes `elapsedNs`. -/
  | pin (mutable : Bool) (id : PageId) (elapsedNs : ℕ)
  /-- One byte is written through the `i`-th guard. -/
  | poke (i off : ℕ) (byte : UInt8)
  | dropGuard (i : ℕ)
  | insertPage (id : PageId) (data : Bytes)
  | markDirty (id : PageId)
  | flush (id : PageId)
  | evictOne
  | setBudget (bytes : ℕ)

namespace Session

variable {π : Type} (E : EvictionPolicy π) (order : FrameOrder)

def new (pool : BufferPool π) : Session π := ⟨pool, [], pool.store.pages, []⟩

/-- The session after an operation, and what a pin or `insert_page` answered. -/
def step (s : Session π) : SessionOp → Except PoolError (Option Guard) × Session π
  | .pin mutable id elapsedNs =>
    match s.pool.pinPage E order mutable id elapsedNs with
    | (.ok g, pool) =>
      (.ok (some g), { s with pool, guards := g :: s.guards, seen := id :: s.seen })
    | (.error e, pool) => (.error e, { s with pool })
  | .poke i off byte =>
    match s.guards[i]? with
    | some g =>
      if g.mutable ∧ off < g.len then
        (.ok none,
          { s with
            pool := s.pool.poke g off byte
            written := Function.update s.written g.pageId
              ((s.written g.pageId).map (·.set off byte)) })
      else (.ok none, s)
    | none => (.ok none, s)
  | .dropGuard i =>
    match s.guards[i]? with
    | some g => (.ok none, { s with pool := s.pool.dropGuard g, guards := s.guards.eraseIdx i })
    | none => (.ok none, s)
  | .insertPage id data =>
    match s.pool.insertPage E order id data with
    | (.ok (), pool) =>
      (.ok none,
        { s with
          pool
          written := Function.update s.written id (some data)
          seen := id :: s.seen })
    | (.error e, pool) => (.error e, { s with pool })
  | .markDirty id => (.ok none, { s with pool := s.pool.markDirty id })
  | .flush id => ((s.pool.flush id).1.map fun _ => none, { s with pool := (s.pool.flush id).2 })
  | .evictOne =>
    ((s.pool.evictOne E order).1.map fun _ => none,
      { s with pool := (s.pool.evictOne E order).2 })
  | .setBudget bytes => (.ok none, { s with pool := s.pool.setBudget bytes })

def next (s : Session π) (op : SessionOp) : Session π := (s.step E order op).2

/-- Fewer than 65536 live guards on every page. -/
def PinsFit (s : Session π) : Prop := ∀ id, liveGuards s.guards id < 2 ^ 16

/-- `insert_page` is only called with ids that were never used. -/
def Allowed (s : Session π) : SessionOp → Prop
  | .insertPage id _ => id ∉ s.seen
  | _ => True

/-- Every operation is allowed, and no page ever has too many guards. -/
def Legal (s : Session π) (ops : List SessionOp) : Prop :=
  AllSteps (next E order) (fun s op => s.Allowed op ∧ (s.next E order op).PinsFit) s ops

structure Consistent (s : Session π) : Prop where
  good : BufferPool.Good s.pool s.guards
  written : s.pool.content = s.written
  seen : ∀ id, s.pool.frames.lookup id ≠ none → id ∈ s.seen

/-- What the pool promises in a state: the ledger, the pins, and the bytes. -/
structure Transparent (s : Session π) : Prop where
  ledger : s.pool.usedBytes = s.pool.residentBytes
  pins : ∀ id frame, s.pool.frames.lookup id = some frame →
    frame.info.pinCount = liveGuards s.guards id
  pinned : ∀ g ∈ s.guards, s.pool.frames.lookup g.pageId ≠ none
  clean : ∀ id frame, s.pool.frames.lookup id = some frame → frame.info.dirty = false →
    (∀ g ∈ s.guards, g.pageId = id → g.mutable = false) →
    s.pool.store.pages id = some frame.data
  pin : ∀ mutable id elapsedNs g s',
    s.step E order (.pin mutable id elapsedNs) = (.ok (some g), s') →
      s'.pool.view g = s.written id ∧
        (s.pool.frames.lookup id = none → s'.pool.usedBytes ≤ s'.pool.budgetBytes)
  insertPage : ∀ id data s', s.step E order (.insertPage id data) = (.ok none, s') →
    s'.pool.usedBytes ≤ s'.pool.budgetBytes
  errors : ∀ op e, (s.step E order op).1 = .error e → BufferPool.Reported e

variable {E : EvictionPolicy π} {order : FrameOrder} {s : Session π}

theorem Consistent.new (budgetBytes : ℕ) (store : ChunkStore) (eviction : π) :
    Consistent (Session.new (BufferPool.new budgetBytes store eviction)) where
  good := BufferPool.Good.new budgetBytes store eviction
  written := rfl
  seen _ h := (h rfl).elim

/-- Operations that only move pages. -/
theorem Consistent.keeps (h : Consistent s) {pool : BufferPool π}
    (hkeeps : BufferPool.Keeps s.guards s.pool pool) : Consistent { s with pool } where
  good := hkeeps.good
  written := hkeeps.content.trans h.written
  seen id hid := h.seen id fun hnone => hid (hkeeps.absent id hnone)

/-- One page more is seen, and no other one has come into the pool. -/
theorem Consistent.seen_cons (h : Consistent s) {pool : BufferPool π} {id : PageId}
    (habsent : ∀ k, k ≠ id → s.pool.frames.lookup k = none → pool.frames.lookup k = none) :
    ∀ k, pool.frames.lookup k ≠ none → k ∈ id :: s.seen := by
  intro k hk
  by_cases hid : k = id
  · rw [hid]
    exact List.mem_cons_self
  · exact List.mem_cons_of_mem id (h.seen k fun hnone => hk (habsent k hid hnone))

/-- Every allowed operation keeps the session consistent. -/
theorem Consistent.step (hE : E.Lawful) (h : Consistent s) {op : SessionOp}
    (hallowed : s.Allowed op) (hfit : (s.step E order op).2.PinsFit) :
    Consistent (s.step E order op).2 := by
  cases op with
  | pin mutable id elapsedNs =>
    rcases hpin : s.pool.pinPage E order mutable id elapsedNs with ⟨e | g, pool⟩
    · simp only [Session.step, hpin]
      exact h.keeps (BufferPool.pinPage_error hE h.good hpin).1
    · simp only [Session.step, hpin] at hfit ⊢
      have hpinned := BufferPool.pinPage_ok hE h.good hpin
      have hroom : liveGuards s.guards id + 1 < 2 ^ 16 := by
        have hcount := hfit id
        rwa [liveGuards_cons, if_pos hpinned.page] at hcount
      exact ⟨hpinned.good hroom, hpinned.content.trans h.written, h.seen_cons hpinned.absent⟩
  | poke i off byte =>
    cases hg : s.guards[i]? with
    | none =>
      simp only [Session.step, hg]
      exact h
    | some g =>
      by_cases hwrite : g.mutable ∧ off < g.len
      · simp only [Session.step, hg, if_pos hwrite]
        have hmem := List.mem_of_getElem? hg
        have hbacks := h.good.pins.backed g hmem
        refine ⟨BufferPool.poke_good h.good hmem hwrite.1 off byte, ?_, fun id hid => h.seen id
          fun hnone => hid (BufferPool.poke_absent hbacks off byte hnone)⟩
        rw [BufferPool.content_poke hbacks, h.written]
      · simp only [Session.step, hg, if_neg hwrite]
        exact h
  | dropGuard i =>
    cases hg : s.guards[i]? with
    | none =>
      simp only [Session.step, hg]
      exact h
    | some g =>
      simp only [Session.step, hg]
      have hperm := (eraseIdx_perm hg).symm
      obtain ⟨hcontent, habsent⟩ := BufferPool.dropGuard_spec s.pool g
      exact ⟨BufferPool.dropGuard_good h.good hperm, hcontent.trans h.written,
        fun id hid => h.seen id fun hnone => hid (habsent id hnone)⟩
  | insertPage id data =>
    rcases hinsert : s.pool.insertPage E order id data with ⟨e | ⟨⟩, pool⟩
    · simp only [Session.step, hinsert]
      exact h.keeps (BufferPool.insertPage_error hE h.good hinsert).1
    · simp only [Session.step, hinsert]
      have habsent : s.pool.frames.lookup id = none := by
        by_contra hresident
        exact hallowed (h.seen id hresident)
      obtain ⟨hgood, hcontent, hother⟩ := BufferPool.insertPage_ok hE h.good habsent hinsert
      exact ⟨hgood, by rw [hcontent, h.written], h.seen_cons hother⟩
  | markDirty id =>
    refine ⟨BufferPool.markDirty_good h.good id, ?_, fun k hk => h.seen k fun hnone => hk ?_⟩
    · exact (BufferPool.content_setInfo s.pool id _).trans h.written
    · exact BufferPool.lookup_setInfo_none s.pool id _ hnone
  | flush id => exact h.keeps (BufferPool.flush_flushes h.good id).keeps
  | evictOne => exact h.keeps (BufferPool.evictOne_spec order hE h.good).1
  | setBudget bytes =>
    exact ⟨⟨h.good.ledger, h.good.pins.congr rfl, h.good.clean.congr rfl rfl⟩, h.written, h.seen⟩

theorem Consistent.transparent (hE : E.Lawful) (h : Consistent s) : Transparent E order s where
  ledger := h.good.ledger
  pins := h.good.pins.counts
  pinned g hg := by
    obtain ⟨frame, hframe, -⟩ := h.good.pins.resident hg
    rw [hframe]
    exact Option.some_ne_none frame
  clean := h.good.clean
  pin mutable id elapsedNs g s' hstep := by
    rcases hpin : s.pool.pinPage E order mutable id elapsedNs with ⟨e | g', pool⟩
    · simp only [Session.step, hpin] at hstep
      cases hstep
    · simp only [Session.step, hpin] at hstep
      cases hstep
      have hpinned := BufferPool.pinPage_ok hE h.good hpin
      obtain ⟨frame, hframe, haddr, -⟩ := hpinned.backs
      refine ⟨?_, hpinned.fits⟩
      rw [← h.written, ← hpinned.content, ← hpinned.page]
      simp [BufferPool.view, BufferPool.content, hframe, haddr]
  insertPage id data s' hstep := by
    rcases hinsert : s.pool.insertPage E order id data with ⟨e | ⟨⟩, pool⟩
    · simp only [Session.step, hinsert] at hstep
      cases hstep
    · simp only [Session.step, hinsert] at hstep
      cases hstep
      exact BufferPool.insertPage_fits hE h.good hinsert
  errors op e herror := by
    cases op with
    | pin mutable id elapsedNs =>
      rcases hpin : s.pool.pinPage E order mutable id elapsedNs with ⟨e' | g, pool⟩
      · simp only [Session.step, hpin] at herror
        cases herror
        exact (BufferPool.pinPage_error hE h.good hpin).2
      · simp only [Session.step, hpin] at herror
        cases herror
    | insertPage id data =>
      rcases hinsert : s.pool.insertPage E order id data with ⟨e' | ⟨⟩, pool⟩
      · simp only [Session.step, hinsert] at herror
        cases herror
        exact (BufferPool.insertPage_error hE h.good hinsert).2
      · simp only [Session.step, hinsert] at herror
        cases herror
    | flush id =>
      rcases hflush : s.pool.flush id with ⟨e' | ⟨⟩, pool⟩
      · simp only [Session.step, hflush] at herror
        cases herror
        exact Or.inl (BufferPool.flush_error (by rw [hflush]))
      · simp only [Session.step, hflush] at herror
        cases herror
    | evictOne =>
      rcases hevict : s.pool.evictOne E order with ⟨e' | victim, pool⟩
      · simp only [Session.step, hevict] at herror
        cases herror
        exact Or.inl ((BufferPool.evictOne_spec order hE h.good).2.2 e (by rw [hevict]))
      · simp only [Session.step, hevict] at herror
        cases herror
    | poke i off byte =>
      simp only [Session.step] at herror
      split at herror
      · split at herror <;> cases herror
      · cases herror
    | dropGuard i =>
      simp only [Session.step] at herror
      split at herror <;> cases herror
    | markDirty id => cases herror
    | setBudget bytes => cases herror

/-- Whatever a thread does with a pool from its creation on, in every state the
ledger and the pins are right, clean frames agree with the store, and a pin
shows the bytes last written. -/
theorem run_transparent (hE : E.Lawful) (budgetBytes : ℕ) (store : ChunkStore) (eviction : π)
    (ops : List SessionOp)
    (hlegal : (Session.new (BufferPool.new budgetBytes store eviction)).Legal E order ops) :
    AllStates (next E order) (Transparent E order)
      (Session.new (BufferPool.new budgetBytes store eviction)) ops := by
  have hconsistent : AllStates (next E order) Consistent
      (Session.new (BufferPool.new budgetBytes store eviction)) ops :=
    AllStates.of_steps (fun s op h hop => h.step hE hop.1 hop.2)
      (Consistent.new budgetBytes store eviction) hlegal
  exact hconsistent.mono fun s h => h.transparent hE

theorem pinsFit_of_length (h : s.guards.length < 2 ^ 16) : s.PinsFit := fun _ =>
  lt_of_le_of_lt List.countP_le_length h

/-- Pages 1 and 2 do not fit together: page 1 is edited, pushed out by page 2
and loaded again. -/
theorem run_transparent_lru :
    AllStates (next LruPolicy.policy ⟨fun _ frames => frames, fun _ _ => List.Perm.refl _⟩)
      (Transparent LruPolicy.policy ⟨fun _ frames => frames, fun _ _ => List.Perm.refl _⟩)
      (Session.new (BufferPool.new 4 ⟨fun id => if id = 1 then some [7, 8, 9] else none, 0,
        fun _ => false, fun _ => none⟩ LruPolicy.new))
      [.pin true 1 100, .poke 0 2 5, .dropGuard 0, .insertPage 2 [3, 4], .flush 2,
        .pin false 1 100] :=
  run_transparent LruPolicy.lawful 4 _ LruPolicy.new _
    ⟨⟨trivial, pinsFit_of_length (by decide +kernel)⟩,
      ⟨trivial, pinsFit_of_length (by decide +kernel)⟩,
      ⟨trivial, pinsFit_of_length (by decide +kernel)⟩,
      ⟨(by decide +kernel : 2 ∉ [1]), pinsFit_of_length (by decide +kernel)⟩,
      ⟨trivial, pinsFit_of_length (by decide +kernel)⟩,
      ⟨trivial, pinsFit_of_length (by decide +kernel)⟩, trivial⟩

end Session

end AirHuim
