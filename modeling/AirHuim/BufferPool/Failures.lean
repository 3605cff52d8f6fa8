import AirHuim.BufferPool.Session

/-!
# Operations that fail

An operation may push out and flush several pages before the store refuses a
call or the budget turns out to be too small. Whatever it did until then only
moved pages: no page's content changes, not even that of a page whose write was
torn, every guard keeps its buffer, and the ledger is that of the frames.
-/

namespace AirHuim

open Library

namespace Session

variable {π : Type} {E : EvictionPolicy π} {order : FrameOrder} {s s' : Session π}

/-- What an operation that takes `s` to `s'` has left alone. -/
structure LosesNothing (s s' : Session π) : Prop where
  /-- The resident frame's bytes, else the store's. -/
  content : s'.pool.content = s.pool.content
  guards : s'.guards = s.guards
  resident : ∀ g ∈ s.guards, s'.pool.frames.lookup g.pageId ≠ none
  view : ∀ g ∈ s.guards, s'.pool.view g = s.pool.content g.pageId
  ledger : s'.pool.usedBytes = s'.pool.residentBytes

theorem LosesNothing.of_keeps {pool : BufferPool π}
    (h : BufferPool.Keeps s.guards s.pool pool) : LosesNothing s { s with pool } where
  content := h.content
  guards := rfl
  resident g hg := by
    obtain ⟨frame, hframe, -⟩ := h.good.pins.resident hg
    rw [hframe]
    exact Option.some_ne_none frame
  view g hg := by rw [(h.good.pins.backed g hg).view, h.content]
  ledger := h.good.ledger

/-- An operation that fails has only moved pages. -/
theorem Consistent.step_error (hE : E.Lawful) (h : Consistent s) {op : SessionOp} {e : PoolError}
    (herror : (s.step E order op).1 = .error e) : LosesNothing s (s.next E order op) := by
  unfold next
  cases op with
  | pin mutable id elapsedNs =>
    rcases hpin : s.pool.pinPage E order mutable id elapsedNs with ⟨e' | g, pool⟩
    · simp only [Session.step, hpin]
      exact LosesNothing.of_keeps (BufferPool.pinPage_error hE h.good hpin).1
    · simp only [Session.step, hpin] at herror
      cases herror
  | insertPage id data =>
    rcases hinsert : s.pool.insertPage E order id data with ⟨e' | ⟨⟩, pool⟩
    · simp only [Session.step, hinsert]
      exact LosesNothing.of_keeps (BufferPool.insertPage_error hE h.good hinsert).1
    · simp only [Session.step, hinsert] at herror
      cases herror
  | flush id => exact LosesNothing.of_keeps (BufferPool.flush_flushes h.good id).keeps
  | evictOne => exact LosesNothing.of_keeps (BufferPool.evictOne_spec order hE h.good).1
  | poke i off byte =>
    simp only [Session.step] at herror
    split at herror
    · split at herror <;> cases herror
    · cases herror
  | dropGuard i =>
    simp only [Session.step] at herror
    split at herror <;> cases herror
  | markDirty id => cases herror
  | setBudget bytes => cases herror

theorem Consistent.run (hE : E.Lawful) (h : Consistent s) {ops : List SessionOp}
    (hlegal : s.Legal E order ops) : Consistent (run (next E order) s ops) :=
  (AllStates.of_steps (fun _ _ h hop => h.step hE hop.1 hop.2) h hlegal).last

/-- Whatever a thread did with a pool from its creation on, an operation that
then fails loses nothing. -/
theorem failure_loses_nothing (hE : E.Lawful) (budgetBytes : ℕ) (store : ChunkStore)
    (eviction : π) (ops : List SessionOp)
    (hlegal : (Session.new (BufferPool.new budgetBytes store eviction)).Legal E order ops)
    (op : SessionOp) (e : PoolError)
    (herror : ((Library.run (next E order)
      (Session.new (BufferPool.new budgetBytes store eviction)) ops).step E order op).1 =
        .error e) :
    LosesNothing
      (Library.run (next E order) (Session.new (BufferPool.new budgetBytes store eviction)) ops)
      ((Library.run (next E order) (Session.new (BufferPool.new budgetBytes store eviction))
        ops).next E order op) :=
  ((Consistent.new budgetBytes store eviction).run hE hlegal).step_error hE herror

/-- Of the calls of this store number 1 fails, and tears the page it writes. -/
def tornStore : ChunkStore where
  pages id := if id = 1 then some [7, 8, 9] else none
  calls := 0
  fails n := decide (n = 1)
  torn _ := some [7]

/-- Page 1 is edited and then must make room for page 2. -/
theorem failure_loses_nothing_torn :
    LosesNothing
      (Library.run (next LruPolicy.policy ⟨fun _ frames => frames, fun _ _ => List.Perm.refl _⟩)
        (Session.new (BufferPool.new 4 tornStore LruPolicy.new))
        [.pin true 1 100, .poke 0 2 5, .dropGuard 0])
      ((Library.run (next LruPolicy.policy ⟨fun _ frames => frames, fun _ _ => List.Perm.refl _⟩)
        (Session.new (BufferPool.new 4 tornStore LruPolicy.new))
        [.pin true 1 100, .poke 0 2 5, .dropGuard 0]).next LruPolicy.policy
          ⟨fun _ frames => frames, fun _ _ => List.Perm.refl _⟩ (.insertPage 2 [3, 4])) :=
  failure_loses_nothing LruPolicy.lawful 4 tornStore LruPolicy.new
    [.pin true 1 100, .poke 0 2 5, .dropGuard 0]
    ⟨⟨trivial, pinsFit_of_length (by decide +kernel)⟩,
      ⟨trivial, pinsFit_of_length (by decide +kernel)⟩,
      ⟨trivial, pinsFit_of_length (by decide +kernel)⟩, trivial⟩
    (.insertPage 2 [3, 4]) .store rfl

end Session

end AirHuim
