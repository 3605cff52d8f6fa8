import AirHuim.BufferPool.Session

/-!
# The counters of the pool

The pool counts its hits and misses, what it evicts, what it reads and writes, and
the most bytes that were in use. Over every run these are exact: a pin is a hit or a
miss according to whether its page was resident, every page that came into the pool
is there or was evicted, every call of the store is a miss or a flush, and the peak
is the most that was in use in any state.
-/

namespace AirHuim

open Library

structure BufferPoolMetrics where
  hits : ℕ
  misses : ℕ
  evictions : ℕ
  dirtyFlushes : ℕ
  bytesRead : ℕ
  bytesWritten : ℕ
  peakBytes : ℕ
  deriving DecidableEq, Repr

namespace BufferPoolMetrics

def new : BufferPoolMetrics := ⟨0, 0, 0, 0, 0, 0, 0⟩

def recordHit (m : BufferPoolMetrics) : BufferPoolMetrics := { m with hits := m.hits + 1 }

def recordMiss (m : BufferPoolMetrics) : BufferPoolMetrics := { m with misses := m.misses + 1 }

def recordEviction (m : BufferPoolMetrics) : BufferPoolMetrics :=
  { m with evictions := m.evictions + 1 }

def recordDirtyFlush (m : BufferPoolMetrics) : BufferPoolMetrics :=
  { m with dirtyFlushes := m.dirtyFlushes + 1 }

def recordBytesRead (m : BufferPoolMetrics) (n : ℕ) : BufferPoolMetrics :=
  { m with bytesRead := m.bytesRead + n }

def recordBytesWritten (m : BufferPoolMetrics) (n : ℕ) : BufferPoolMetrics :=
  { m with bytesWritten := m.bytesWritten + n }

/-- On one thread the loop of `update_peak` is over after an exchange. -/
def updatePeak (m : BufferPoolMetrics) (n : ℕ) : BufferPoolMetrics :=
  if m.peakBytes < n then { m with peakBytes := n } else m

theorem updatePeak_eq (m : BufferPoolMetrics) (n : ℕ) :
    m.updatePeak n = { m with peakBytes := max m.peakBytes n } := by
  rw [updatePeak]
  split
  · rename_i hlt
    rw [max_eq_right hlt.le]
  · rename_i hle
    rw [max_eq_left (not_lt.mp hle)]

end BufferPoolMetrics

/-- The pool with its counters. -/
structure MeteredPool (π : Type) where
  pool : BufferPool π
  metrics : BufferPoolMetrics

namespace MeteredPool

variable {π : Type} (E : EvictionPolicy π) (order : FrameOrder)

def flush (m : MeteredPool π) (id : PageId) : Except PoolError Unit × MeteredPool π :=
  if m.pool.isDirty id then
    match m.pool.frames.lookup id with
    | none => (.error .panic, m)
    | some frame =>
      match m.pool.writePage id frame.data with
      | (.error e, pool) => (.error e, { m with pool })
      | (.ok (), pool) =>
        (.ok (), ⟨pool.clearDirty id,
          m.metrics.recordDirtyFlush.recordBytesWritten frame.data.length⟩)
  else (.ok (), m)

def evictOne (m : MeteredPool π) : Except PoolError (Option PageId) × MeteredPool π :=
  match m.pool.chooseVictim E order with
  | (none, pool) => (.ok none, { m with pool })
  | (some victim, pool) =>
    match flush { m with pool } victim with
    | (.error e, m) => (.error e, m)
    | (.ok (), m) =>
      (.ok (some victim),
        ⟨((m.pool.removeFrame victim).2.subUsed (m.pool.removeFrame victim).1).noteEvict E victim,
          m.metrics.recordEviction⟩)

def makeRoom (size : ℕ) : ℕ → MeteredPool π → Except PoolError Unit × MeteredPool π
  | fuel, m =>
    if m.pool.overBudget size then
      match fuel with
      | 0 => (.error .stuck, m)
      | fuel + 1 =>
        match m.evictOne E order with
        | (.error e, m) => (.error e, m)
        | (.ok none, m) => (.error (.full m.pool.usedBytes m.pool.budgetBytes), m)
        | (.ok (some _), m) => makeRoom size fuel m
    else (.ok (), m)

def install (m : MeteredPool π) (r : Request) : MeteredPool π :=
  ⟨m.pool.install E r, m.metrics.updatePeak (m.pool.addUsed r.data.length).usedBytes⟩

/-- `pin` and, if `mutable`, `pin_mut`. -/
def pinPage (mutable : Bool) (m : MeteredPool π) (id : PageId) (elapsedNs : ℕ) :
    Except PoolError Guard × MeteredPool π :=
  match m.pool.lookupAndPin E id mutable with
  | some (guard, pool) => (.ok guard, ⟨pool, m.metrics.recordHit⟩)
  | none =>
    match m.pool.readPage id with
    | (.error e, pool) => (.error e, ⟨pool, m.metrics.recordMiss⟩)
    | (.ok data, pool) =>
      match makeRoom E order data.length (pool.framesCount + 1)
        ⟨pool, m.metrics.recordMiss.recordBytesRead data.length⟩ with
      | (.error e, m) => (.error e, m)
      | (.ok (), m) =>
        (.ok ⟨id, m.pool.nextAddr, data.length, mutable⟩,
          m.install E ⟨id, data, some mutable, min elapsedNs (2 ^ 32 - 1)⟩)

def insertPage (m : MeteredPool π) (id : PageId) (data : Bytes) :
    Except PoolError Unit × MeteredPool π :=
  match makeRoom E order data.length (m.pool.framesCount + 1) m with
  | (.error e, m) => (.error e, m)
  | (.ok (), m) => (.ok (), m.install E ⟨id, data, none, 50000⟩)

/-! ## The pool is the one without counters -/

variable (m : MeteredPool π)

theorem flush_pool (id : PageId) :
    m.pool.flush id = ((m.flush id).1, (m.flush id).2.pool) := by
  unfold flush BufferPool.flush
  cases m.pool.isDirty id with
  | false => rfl
  | true =>
    cases m.pool.frames.lookup id with
    | none => rfl
    | some frame =>
      dsimp only
      rcases m.pool.writePage id frame.data with ⟨e | ⟨⟩, pool⟩ <;> rfl

theorem evictOne_pool :
    m.pool.evictOne E order = ((m.evictOne E order).1, (m.evictOne E order).2.pool) := by
  unfold evictOne BufferPool.evictOne
  rcases m.pool.chooseVictim E order with ⟨_ | victim, pool⟩
  · rfl
  · dsimp only
    rw [flush_pool { m with pool } victim]
    rcases flush { m with pool } victim with ⟨e | ⟨⟩, m'⟩ <;> rfl

theorem makeRoom_pool (size fuel : ℕ) :
    m.pool.makeRoom E order size fuel =
      ((makeRoom E order size fuel m).1, (makeRoom E order size fuel m).2.pool) := by
  induction fuel generalizing m with
  | zero =>
    unfold makeRoom BufferPool.makeRoom
    cases m.pool.overBudget size <;> rfl
  | succ fuel ih =>
    unfold makeRoom BufferPool.makeRoom
    cases m.pool.overBudget size with
    | false => rfl
    | true =>
      simp only [if_true]
      rw [evictOne_pool]
      rcases m.evictOne E order with ⟨e | _ | victim, m'⟩
      · rfl
      · rfl
      · exact ih m'

theorem pinPage_pool (mutable : Bool) (id : PageId) (elapsedNs : ℕ) :
    m.pool.pinPage E order mutable id elapsedNs =
      ((pinPage E order mutable m id elapsedNs).1,
        (pinPage E order mutable m id elapsedNs).2.pool) := by
  unfold pinPage BufferPool.pinPage
  rcases m.pool.lookupAndPin E id mutable with _ | ⟨guard, pool⟩
  · dsimp only
    rcases m.pool.readPage id with ⟨e | data, pool⟩
    · rfl
    · dsimp only
      rw [makeRoom_pool E order ⟨pool, m.metrics.recordMiss.recordBytesRead data.length⟩]
      rcases makeRoom E order data.length (pool.framesCount + 1)
        ⟨pool, m.metrics.recordMiss.recordBytesRead data.length⟩ with ⟨e | ⟨⟩, m'⟩ <;> rfl
  · rfl

theorem insertPage_pool (id : PageId) (data : Bytes) :
    m.pool.insertPage E order id data =
      ((m.insertPage E order id data).1, (m.insertPage E order id data).2.pool) := by
  unfold insertPage BufferPool.insertPage
  rw [makeRoom_pool]
  rcases makeRoom E order data.length (m.pool.framesCount + 1) m with ⟨e | ⟨⟩, m'⟩ <;> rfl

/-! ## What making room does to the counters -/

/-- Pages have only gone out, each of them was counted, and so was each write. -/
structure Shrinks (m m' : MeteredPool π) : Prop where
  hits : m'.metrics.hits = m.metrics.hits
  misses : m'.metrics.misses = m.metrics.misses
  bytesRead : m'.metrics.bytesRead = m.metrics.bytesRead
  peakBytes : m'.metrics.peakBytes = m.metrics.peakBytes
  evictions : m'.pool.framesCount + m'.metrics.evictions =
    m.pool.framesCount + m.metrics.evictions
  used : m'.pool.usedBytes ≤ m.pool.usedBytes
  fails : m'.pool.store.fails = m.pool.store.fails
  calls : (∀ n, m.pool.store.fails n = false) →
    m'.pool.store.calls + m.metrics.dirtyFlushes = m.pool.store.calls + m'.metrics.dirtyFlushes

variable {E order m} {m' m'' : MeteredPool π} {guards : List Guard}

theorem Shrinks.refl (m : MeteredPool π) : Shrinks m m :=
  ⟨rfl, rfl, rfl, rfl, rfl, le_rfl, rfl, fun _ => rfl⟩

theorem Shrinks.trans (h : Shrinks m m') (h' : Shrinks m' m'') : Shrinks m m'' where
  hits := h'.hits.trans h.hits
  misses := h'.misses.trans h.misses
  bytesRead := h'.bytesRead.trans h.bytesRead
  peakBytes := h'.peakBytes.trans h.peakBytes
  evictions := h'.evictions.trans h.evictions
  used := h'.used.trans h.used
  fails := h'.fails.trans h.fails
  calls hworks := by
    have hfirst := h.calls hworks
    have hsecond := h'.calls fun n => by rw [h.fails, hworks]
    omega

theorem calls_writePage (p : BufferPool π) (id : PageId) (data : Bytes) :
    (p.writePage id data).2.store.calls = p.store.calls + 1 ∧
      (p.writePage id data).2.store.fails = p.store.fails := by
  unfold BufferPool.writePage ChunkStore.writePage
  cases p.store.fails p.store.calls <;> exact ⟨rfl, rfl⟩

theorem flush_shrinks (m : MeteredPool π) (id : PageId) : Shrinks m (m.flush id).2 := by
  unfold flush
  cases m.pool.isDirty id with
  | false => exact Shrinks.refl m
  | true =>
    cases m.pool.frames.lookup id with
    | none => exact Shrinks.refl m
    | some frame =>
      obtain ⟨hcalls, hfails⟩ := calls_writePage m.pool id frame.data
      have hframes : (m.pool.writePage id frame.data).2.frames = m.pool.frames := rfl
      have hused : (m.pool.writePage id frame.data).2.usedBytes = m.pool.usedBytes := rfl
      have hok : (∀ n, m.pool.store.fails n = false) →
          (m.pool.writePage id frame.data).1 = .ok () := by
        intro hworks
        simp [BufferPool.writePage, ChunkStore.writePage, hworks]
      simp only [if_true]
      rcases hwrite : m.pool.writePage id frame.data with ⟨e | ⟨⟩, pool⟩
      · rw [hwrite] at hcalls hfails hframes hused hok
        refine ⟨rfl, rfl, rfl, rfl, ?_, hused.le, hfails, fun hworks => by cases hok hworks⟩
        exact congrArg (Table.total · (fun _ => 1) + _) hframes
      · rw [hwrite] at hcalls hfails hframes hused
        have hcount : (pool.clearDirty id).framesCount = m.pool.framesCount := by
          rw [BufferPool.framesCount_clearDirty]
          exact congrArg (Table.total · fun _ => 1) hframes
        refine ⟨rfl, rfl, rfl, rfl, congrArg (· + _) hcount, ?_, ?_, fun _ => ?_⟩
        · exact ((BufferPool.usedBytes_setInfo pool id _).trans hused).le
        · exact (congrArg ChunkStore.fails (BufferPool.store_setInfo pool id _)).trans hfails
        · have hstore : (pool.clearDirty id).store.calls = m.pool.store.calls + 1 :=
            (congrArg ChunkStore.calls (BufferPool.store_setInfo pool id _)).trans hcalls
          dsimp only
          rw [hstore, Nat.add_assoc, Nat.add_comm 1]
          rfl

theorem evictions_flush (m : MeteredPool π) (id : PageId) :
    (m.flush id).2.metrics.evictions = m.metrics.evictions := by
  unfold flush
  cases m.pool.isDirty id with
  | false => rfl
  | true =>
    cases m.pool.frames.lookup id with
    | none => rfl
    | some frame =>
      simp only [if_true]
      rcases m.pool.writePage id frame.data with ⟨e | ⟨⟩, pool⟩ <;> rfl

/-- Of an evicted page the bytes are given back. -/
theorem removeFrame_fields (p : BufferPool π) (id : PageId) :
    ((p.removeFrame id).2.subUsed (p.removeFrame id).1).usedBytes ≤ p.usedBytes ∧
      ((p.removeFrame id).2.subUsed (p.removeFrame id).1).store = p.store := by
  unfold BufferPool.removeFrame BufferPool.subUsed
  cases p.frames.lookup id <;> exact ⟨Nat.sub_le _ _, rfl⟩

theorem evictOne_shrinks (hE : E.Lawful) (h : BufferPool.Good m.pool guards) :
    Shrinks m (m.evictOne E order).2 := by
  obtain ⟨-, hcount, -⟩ := BufferPool.evictOne_spec order hE h
  rw [evictOne_pool] at hcount
  unfold evictOne at hcount ⊢
  rcases hchoose : m.pool.chooseVictim E order with ⟨_ | victim, pool⟩
  · obtain rfl : (m.pool.chooseVictim E order).2 = pool := congrArg Prod.snd hchoose
    exact ⟨rfl, rfl, rfl, rfl, rfl, le_rfl, rfl, fun _ => rfl⟩
  · obtain rfl : (m.pool.chooseVictim E order).2 = pool := congrArg Prod.snd hchoose
    have hchosen : Shrinks m { m with pool := (m.pool.chooseVictim E order).2 } :=
      ⟨rfl, rfl, rfl, rfl, rfl, le_rfl, rfl, fun _ => rfl⟩
    have hflush := hchosen.trans (flush_shrinks _ victim)
    have hevictions := evictions_flush { m with pool := (m.pool.chooseVictim E order).2 } victim
    rw [hchoose] at hcount
    dsimp only at hcount hevictions ⊢
    rcases hf : flush { m with pool := (m.pool.chooseVictim E order).2 } victim with ⟨e | ⟨⟩, m'⟩
    · rw [hf] at hflush
      exact hflush
    · rw [hf] at hflush hcount hevictions
      have hcount := hcount victim rfl
      obtain ⟨hused, hstore⟩ := removeFrame_fields m'.pool victim
      refine ⟨hflush.hits, hflush.misses, hflush.bytesRead, hflush.peakBytes, ?_,
        hused.trans hflush.used, (congrArg ChunkStore.fails hstore).trans hflush.fails,
        fun hworks => ?_⟩
      · rw [← hcount, ← hevictions, Nat.add_assoc, Nat.add_comm 1]
        rfl
      · exact (congrArg (·.calls + _) hstore).trans (hflush.calls hworks)

variable (order) in
/-- The eviction loop shrinks the pool. -/
theorem makeRoom_shrinks (hE : E.Lawful) (size fuel : ℕ) (h : BufferPool.Good m.pool guards) :
    Shrinks m (makeRoom E order size fuel m).2 := by
  induction fuel generalizing m with
  | zero =>
    unfold makeRoom
    cases m.pool.overBudget size <;> exact Shrinks.refl m
  | succ fuel ih =>
    unfold makeRoom
    cases m.pool.overBudget size with
    | false => exact Shrinks.refl m
    | true =>
      have hevict : Shrinks m (m.evictOne E order).2 := evictOne_shrinks hE h
      obtain ⟨hkeeps, -, -⟩ := BufferPool.evictOne_spec order hE h
      rw [evictOne_pool] at hkeeps
      simp only [if_true]
      rcases hresult : m.evictOne E order with ⟨e | _ | victim, m'⟩
      · rw [hresult] at hevict
        exact hevict
      · rw [hresult] at hevict
        exact hevict
      · rw [hresult] at hevict hkeeps
        exact hevict.trans (ih hkeeps.good)

end MeteredPool

/-! ## Sessions -/

namespace Session

variable {π : Type} (E : EvictionPolicy π) (order : FrameOrder)

/-- The counters after an operation; those not named count nothing. -/
def metricsAfter (s : Session π) (metrics : BufferPoolMetrics) : SessionOp → BufferPoolMetrics
  | .pin mutable id elapsedNs =>
    (MeteredPool.pinPage E order mutable ⟨s.pool, metrics⟩ id elapsedNs).2.metrics
  | .insertPage id data => (MeteredPool.insertPage E order ⟨s.pool, metrics⟩ id data).2.metrics
  | .flush id => (MeteredPool.flush ⟨s.pool, metrics⟩ id).2.metrics
  | .evictOne => (MeteredPool.evictOne E order ⟨s.pool, metrics⟩).2.metrics
  | _ => metrics

/-- The counters after a run. -/
def metricsOf : Session π → BufferPoolMetrics → List SessionOp → BufferPoolMetrics
  | _, metrics, [] => metrics
  | s, metrics, op :: ops => metricsOf (s.next E order op) (s.metricsAfter E order metrics op) ops

/-- What the operations of a run add up to. -/
def tally (f : Session π → SessionOp → ℕ) : Session π → List SessionOp → ℕ
  | _, [] => 0
  | s, op :: ops => f s op + tally f (s.next E order op) ops

/-- A pin of a page that is resident. -/
def hit (s : Session π) : SessionOp → ℕ
  | .pin _ id _ => if s.pool.frames.lookup id = none then 0 else 1
  | _ => 0

def miss (s : Session π) : SessionOp → ℕ
  | .pin _ id _ => if s.pool.frames.lookup id = none then 1 else 0
  | _ => 0

/-- The bytes of a page that the store was asked for and has. -/
def bytesRead (s : Session π) : SessionOp → ℕ
  | .pin _ id _ =>
    if s.pool.frames.lookup id = none then
      match (s.pool.readPage id).1 with
      | .ok data => data.length
      | .error _ => 0
    else 0
  | _ => 0

/-- A page comes into the pool. -/
def arrival (s : Session π) (op : SessionOp) : ℕ :=
  match op with
  | .pin _ id _ =>
    if s.pool.frames.lookup id = none ∧ (s.step E order op).1.isOk then 1 else 0
  | .insertPage _ _ => if (s.step E order op).1.isOk then 1 else 0
  | _ => 0

/-- The most bytes in use in a state of the run. -/
def mostUsed : Session π → List SessionOp → ℕ
  | s, [] => s.pool.usedBytes
  | s, op :: ops => max s.pool.usedBytes (mostUsed (s.next E order op) ops)

/-- What an operation adds to the counters. -/
structure Counts (s : Session π) (op : SessionOp) (m m' : BufferPoolMetrics) : Prop where
  hits : m'.hits = m.hits + s.hit op
  misses : m'.misses = m.misses + s.miss op
  bytesRead : m'.bytesRead = m.bytesRead + s.bytesRead op
  evictions : (s.next E order op).pool.framesCount + m'.evictions =
    s.pool.framesCount + m.evictions + s.arrival E order op
  peakBytes : s.pool.usedBytes ≤ m.peakBytes →
    m'.peakBytes = max m.peakBytes (s.next E order op).pool.usedBytes
  fails : (s.next E order op).pool.store.fails = s.pool.store.fails
  calls : (∀ n, s.pool.store.fails n = false) →
    (s.next E order op).pool.store.calls + (m.misses + m.dirtyFlushes) =
      s.pool.store.calls + (m'.misses + m'.dirtyFlushes)

variable {E order} {s : Session π} {m : BufferPoolMetrics}

/-- What is refused brings no page in. -/
theorem arrival_of_refused {op : SessionOp} (h : (s.step E order op).1.isOk = false) :
    s.arrival E order op = 0 := by
  cases op <;> simp [arrival, h]

/-- An operation that only changes metadata, or the bytes of a frame. -/
theorem Counts.of_same {op : SessionOp} (hhit : s.hit op = 0) (hmiss : s.miss op = 0)
    (hread : s.bytesRead op = 0) (harrival : s.arrival E order op = 0)
    (hcount : (s.next E order op).pool.framesCount = s.pool.framesCount)
    (hused : (s.next E order op).pool.usedBytes = s.pool.usedBytes)
    (hstore : (s.next E order op).pool.store = s.pool.store) :
    Counts E order s op m m where
  hits := by rw [hhit]; rfl
  misses := by rw [hmiss]; rfl
  bytesRead := by rw [hread]; rfl
  evictions := by rw [hcount, harrival]; rfl
  peakBytes hle := by rw [hused, max_eq_left hle]
  fails := congrArg ChunkStore.fails hstore
  calls _ := by rw [hstore]

/-- What is counted before the pool makes room: a miss and the bytes read, or nothing. -/
structure Opens (s : Session π) (op : SessionOp) (m : BufferPoolMetrics) (m₀ : MeteredPool π) :
    Prop where
  hit : s.hit op = 0
  frames : m₀.pool.frames = s.pool.frames
  used : m₀.pool.usedBytes = s.pool.usedBytes
  hits : m₀.metrics.hits = m.hits
  misses : m₀.metrics.misses = m.misses + s.miss op
  bytesRead : m₀.metrics.bytesRead = m.bytesRead + s.bytesRead op
  evictions : m₀.metrics.evictions = m.evictions
  peakBytes : m₀.metrics.peakBytes = m.peakBytes
  fails : m₀.pool.store.fails = s.pool.store.fails
  calls : m₀.pool.store.calls + (m.misses + m.dirtyFlushes) =
    s.pool.store.calls + (m₀.metrics.misses + m₀.metrics.dirtyFlushes)

theorem Opens.refl {op : SessionOp} (hhit : s.hit op = 0) (hmiss : s.miss op = 0)
    (hread : s.bytesRead op = 0) : Opens s op m ⟨s.pool, m⟩ :=
  ⟨hhit, rfl, rfl, rfl, by rw [hmiss]; rfl, by rw [hread]; rfl, rfl, rfl, rfl, rfl⟩

theorem Opens.framesCount {op : SessionOp} {m₀ : MeteredPool π} (h : Opens s op m m₀) :
    m₀.pool.framesCount = s.pool.framesCount :=
  congrArg (Table.total · fun _ => 1) h.frames

/-- An operation that brings nothing in. -/
theorem Opens.shrinks {op : SessionOp} {m₀ m' : MeteredPool π} (h : Opens s op m m₀)
    (hshrinks : MeteredPool.Shrinks m₀ m') (harrival : s.arrival E order op = 0)
    (hpool : (s.next E order op).pool = m'.pool) : Counts E order s op m m'.metrics where
  hits := by rw [h.hit, hshrinks.hits, h.hits]; rfl
  misses := hshrinks.misses.trans h.misses
  bytesRead := hshrinks.bytesRead.trans h.bytesRead
  evictions := by
    rw [hpool, harrival, hshrinks.evictions, h.framesCount, h.evictions]
    rfl
  peakBytes hle := by
    rw [hpool, max_eq_left (hshrinks.used.trans (h.used.le.trans hle)), hshrinks.peakBytes,
      h.peakBytes]
  fails := by rw [hpool, hshrinks.fails, h.fails]
  calls hworks := by
    have hout := hshrinks.calls fun n => (congrFun h.fails n).trans (hworks n)
    have hopen := h.calls
    have hmisses := hshrinks.misses
    rw [hpool]
    omega

/-- An operation that makes room, and then brings a page in. -/
theorem Opens.install {op : SessionOp} {m₀ m' : MeteredPool π} {r : Request}
    (h : Opens s op m m₀) (hshrinks : MeteredPool.Shrinks m₀ m')
    (harrival : s.arrival E order op = 1) (habsent : m'.pool.frames.lookup r.pageId = none)
    (hpool : (s.next E order op).pool = (m'.install E r).pool) :
    Counts E order s op m (m'.install E r).metrics := by
  have hmetrics : (m'.install E r).metrics =
      { m'.metrics with
        peakBytes := max m'.metrics.peakBytes (m'.pool.usedBytes + r.data.length) } :=
    BufferPoolMetrics.updatePeak_eq _ _
  have hframes : (m'.install E r).pool.framesCount = m'.pool.framesCount + 1 :=
    Table.total_insert_new habsent _ fun _ => 1
  have hused : (m'.install E r).pool.usedBytes = m'.pool.usedBytes + r.data.length := rfl
  have hstore : (m'.install E r).pool.store = m'.pool.store := rfl
  rw [hmetrics]
  refine ⟨?_, hshrinks.misses.trans h.misses, hshrinks.bytesRead.trans h.bytesRead, ?_,
    fun _ => ?_, ?_, fun hworks => ?_⟩
  · rw [h.hit]
    exact hshrinks.hits.trans h.hits
  · have hout := hshrinks.evictions
    have hopen := h.framesCount
    have hsame := h.evictions
    dsimp only
    rw [hpool, hframes, harrival]
    omega
  · rw [hpool, hused, ← h.peakBytes, ← hshrinks.peakBytes]
  · rw [hpool, hstore, hshrinks.fails, h.fails]
  · have hout := hshrinks.calls fun n => (congrFun h.fails n).trans (hworks n)
    have hopen := h.calls
    have hmisses := hshrinks.misses
    dsimp only
    rw [hpool, hstore]
    omega

theorem calls_readPage (p : BufferPool π) (id : PageId) :
    (p.readPage id).2.store.calls = p.store.calls + 1 ∧
      (p.readPage id).2.store.fails = p.store.fails := by
  unfold BufferPool.readPage ChunkStore.readPage
  cases p.store.fails p.store.calls with
  | true => exact ⟨rfl, rfl⟩
  | false => cases p.store.pages id <;> exact ⟨rfl, rfl⟩

theorem next_pin (E : EvictionPolicy π) (order : FrameOrder) (s : Session π) (mutable : Bool)
    (id : PageId) (elapsedNs : ℕ) :
    (s.next E order (.pin mutable id elapsedNs)).pool =
        (s.pool.pinPage E order mutable id elapsedNs).2 ∧
      (s.step E order (.pin mutable id elapsedNs)).1.isOk =
        (s.pool.pinPage E order mutable id elapsedNs).1.isOk := by
  simp only [next, step]
  rcases s.pool.pinPage E order mutable id elapsedNs with ⟨e | g, pool⟩ <;> exact ⟨rfl, rfl⟩

/-- Before it makes room, a pin of an absent page counts a miss and the bytes it gets. -/
theorem Opens.of_absent {id : PageId} (habsent : s.pool.frames.lookup id = none)
    (m : BufferPoolMetrics) (mutable : Bool) (elapsedNs : ℕ) :
    Opens s (.pin mutable id elapsedNs) m ⟨(s.pool.readPage id).2,
      m.recordMiss.recordBytesRead (s.bytesRead (.pin mutable id elapsedNs))⟩ := by
  obtain ⟨hcalls, hfails⟩ := calls_readPage s.pool id
  have hhit : s.hit (.pin mutable id elapsedNs) = 0 := if_pos habsent
  have hmiss : s.miss (.pin mutable id elapsedNs) = 1 := if_pos habsent
  refine ⟨hhit, rfl, rfl, rfl, ?_, rfl, rfl, rfl, hfails, ?_⟩
  · rw [hmiss]
    rfl
  · rw [hcalls]
    dsimp only [BufferPoolMetrics.recordMiss, BufferPoolMetrics.recordBytesRead]
    omega

/-- A hit changes nothing but metadata, and is counted. -/
theorem counts_hit {mutable : Bool} {id : PageId} {guard : Guard} {q : BufferPool π}
    (hlookup : s.pool.lookupAndPin E id mutable = some (guard, q)) (m : BufferPoolMetrics)
    (elapsedNs : ℕ) : Counts E order s (.pin mutable id elapsedNs) m m.recordHit := by
  have hpool := (next_pin E order s mutable id elapsedNs).1
  simp only [BufferPool.pinPage, hlookup] at hpool
  obtain ⟨frame, hframe, -, rfl⟩ := BufferPool.lookupAndPin_some hlookup
  have hresident : ¬ s.pool.frames.lookup id = none := by rw [hframe]; exact Option.some_ne_none _
  have hcount : (s.pool.setInfo id (BufferPool.countPin s.pool.tick)).framesCount =
      s.pool.framesCount := s.pool.total_setInfo id _ fun _ => 1
  have hused := s.pool.usedBytes_setInfo id (BufferPool.countPin s.pool.tick)
  have hstore := s.pool.store_setInfo id (BufferPool.countPin s.pool.tick)
  refine ⟨?_, ?_, ?_, ?_, fun hle => ?_, ?_, fun _ => ?_⟩
  · rw [hit, if_neg hresident]
    rfl
  · rw [miss, if_neg hresident]
    rfl
  · rw [bytesRead, if_neg hresident]
    rfl
  · rw [hpool, arrival, if_neg fun h => hresident h.1]
    exact congrArg (· + _) hcount
  · rw [hpool]
    exact (max_eq_left (hused.le.trans hle)).symm
  · rw [hpool]
    exact congrArg ChunkStore.fails hstore
  · rw [hpool]
    exact congrArg (·.calls + _) hstore

/-- A pin counts as a hit, or as a miss with the bytes that the store gives. -/
theorem counts_pin (hE : E.Lawful) (h : Consistent s) (m : BufferPoolMetrics) (mutable : Bool)
    (id : PageId) (elapsedNs : ℕ) :
    Counts E order s (.pin mutable id elapsedNs) m
      (s.metricsAfter E order m (.pin mutable id elapsedNs)) := by
  obtain ⟨hpool, hisOk⟩ := next_pin E order s mutable id elapsedNs
  rw [MeteredPool.pinPage_pool E order ⟨s.pool, m⟩] at hpool hisOk
  rw [metricsAfter]
  unfold MeteredPool.pinPage at hpool hisOk ⊢
  rcases hlookup : s.pool.lookupAndPin E id mutable with _ | ⟨guard, q⟩
  · have habsent := (BufferPool.lookupAndPin_none E).mp hlookup
    have hload := BufferPool.readPage_keeps h.good id
    have hopen := Opens.of_absent habsent m mutable elapsedNs
    have hread : s.bytesRead (.pin mutable id elapsedNs) =
        match (s.pool.readPage id).1 with
        | .ok data => data.length
        | .error _ => 0 := if_pos habsent
    rw [hread] at hopen
    simp only [hlookup] at hpool hisOk ⊢
    rcases hresult : s.pool.readPage id with ⟨e | data, p₁⟩
    · rw [hresult] at hpool hisOk hopen
      exact hopen.shrinks (.refl _) (arrival_of_refused hisOk) hpool
    · rw [hresult] at hpool hisOk hopen hload
      have hshrinks := MeteredPool.makeRoom_shrinks order
        (m := ⟨p₁, m.recordMiss.recordBytesRead data.length⟩) hE data.length (p₁.framesCount + 1)
        hload.good
      have hroom := BufferPool.makeRoom_spec order hE data.length _ hload.good (Nat.lt_succ_self _)
      rw [MeteredPool.makeRoom_pool E order
        ⟨p₁, m.recordMiss.recordBytesRead data.length⟩] at hroom
      simp only at hpool hisOk ⊢
      rcases hmade : MeteredPool.makeRoom E order data.length (p₁.framesCount + 1)
        ⟨p₁, m.recordMiss.recordBytesRead data.length⟩ with ⟨e | ⟨⟩, m'⟩
      · rw [hmade] at hpool hisOk hshrinks
        exact hopen.shrinks hshrinks (arrival_of_refused hisOk) hpool
      · rw [hmade] at hpool hisOk hshrinks hroom
        refine hopen.install hshrinks ?_ ?_ hpool
        · rw [arrival, hisOk]
          exact if_pos ⟨habsent, rfl⟩
        · exact hroom.1.absent id (hload.absent id habsent)
  · exact counts_hit hlookup m elapsedNs

theorem next_insertPage (E : EvictionPolicy π) (order : FrameOrder) (s : Session π) (id : PageId)
    (data : Bytes) :
    (s.next E order (.insertPage id data)).pool = (s.pool.insertPage E order id data).2 ∧
      (s.step E order (.insertPage id data)).1.isOk =
        (s.pool.insertPage E order id data).1.isOk := by
  simp only [next, step]
  rcases s.pool.insertPage E order id data with ⟨e | ⟨⟩, pool⟩ <;> exact ⟨rfl, rfl⟩

theorem counts_insertPage (hE : E.Lawful) (h : Consistent s) (m : BufferPoolMetrics) {id : PageId}
    (hnew : id ∉ s.seen) (data : Bytes) :
    Counts E order s (.insertPage id data) m (s.metricsAfter E order m (.insertPage id data)) := by
  obtain ⟨hpool, hisOk⟩ := next_insertPage E order s id data
  rw [MeteredPool.insertPage_pool E order ⟨s.pool, m⟩] at hpool hisOk
  rw [metricsAfter]
  have habsent : s.pool.frames.lookup id = none := by
    by_contra hresident
    exact hnew (h.seen id hresident)
  have hshrinks := MeteredPool.makeRoom_shrinks order (m := ⟨s.pool, m⟩) hE data.length
    (s.pool.framesCount + 1) h.good
  have hroom := BufferPool.makeRoom_spec order hE data.length _ h.good (Nat.lt_succ_self _)
  rw [MeteredPool.makeRoom_pool E order ⟨s.pool, m⟩] at hroom
  have hopen : Opens s (.insertPage id data) m ⟨s.pool, m⟩ := Opens.refl rfl rfl rfl
  unfold MeteredPool.insertPage at hpool hisOk ⊢
  simp only at hpool hisOk ⊢
  rcases hmade : MeteredPool.makeRoom E order data.length (s.pool.framesCount + 1) ⟨s.pool, m⟩ with
    ⟨e | ⟨⟩, m'⟩
  · rw [hmade] at hpool hisOk hshrinks
    exact hopen.shrinks hshrinks (arrival_of_refused hisOk) hpool
  · rw [hmade] at hpool hisOk hshrinks hroom
    refine hopen.install hshrinks ?_ (hroom.1.absent id habsent) hpool
    rw [arrival, hisOk]
    exact if_pos rfl

theorem framesCount_poke (p : BufferPool π) (g : Guard) (off : ℕ) (byte : UInt8) :
    (p.poke g off byte).framesCount = p.framesCount ∧
      (p.poke g off byte).usedBytes = p.usedBytes ∧ (p.poke g off byte).store = p.store := by
  unfold BufferPool.poke
  cases hframe : p.frames.lookup g.pageId with
  | none => exact ⟨rfl, rfl, rfl⟩
  | some frame =>
    dsimp only
    split
    · refine ⟨?_, rfl, rfl⟩
      have htotal := Table.total_replace hframe { frame with data := frame.data.set off byte }
        fun _ => 1
      exact Nat.add_right_cancel htotal
    · exact ⟨rfl, rfl, rfl⟩

/-- Each operation is counted as what it is. -/
theorem counts_step (hE : E.Lawful) (h : Consistent s) (m : BufferPoolMetrics) {op : SessionOp}
    (hallowed : s.Allowed op) : Counts E order s op m (s.metricsAfter E order m op) := by
  cases op with
  | pin mutable id elapsedNs => exact counts_pin hE h m mutable id elapsedNs
  | insertPage id data => exact counts_insertPage hE h m hallowed data
  | flush id =>
    refine (Opens.refl rfl rfl rfl).shrinks (MeteredPool.flush_shrinks ⟨s.pool, m⟩ id) rfl ?_
    exact congrArg Prod.snd (MeteredPool.flush_pool ⟨s.pool, m⟩ id)
  | evictOne =>
    refine (Opens.refl rfl rfl rfl).shrinks
      (MeteredPool.evictOne_shrinks (m := ⟨s.pool, m⟩) hE h.good) rfl ?_
    exact congrArg Prod.snd (MeteredPool.evictOne_pool E order ⟨s.pool, m⟩)
  | poke i off byte =>
    have hsame : (s.next E order (.poke i off byte)).pool.framesCount = s.pool.framesCount ∧
        (s.next E order (.poke i off byte)).pool.usedBytes = s.pool.usedBytes ∧
          (s.next E order (.poke i off byte)).pool.store = s.pool.store := by
      simp only [next, step]
      cases s.guards[i]? with
      | none => exact ⟨rfl, rfl, rfl⟩
      | some g =>
        dsimp only
        split
        · exact framesCount_poke s.pool g off byte
        · exact ⟨rfl, rfl, rfl⟩
    exact .of_same rfl rfl rfl rfl hsame.1 hsame.2.1 hsame.2.2
  | dropGuard i =>
    have hsame : (s.next E order (.dropGuard i)).pool.framesCount = s.pool.framesCount ∧
        (s.next E order (.dropGuard i)).pool.usedBytes = s.pool.usedBytes ∧
          (s.next E order (.dropGuard i)).pool.store = s.pool.store := by
      simp only [next, step]
      cases s.guards[i]? with
      | none => exact ⟨rfl, rfl, rfl⟩
      | some g =>
        dsimp only [BufferPool.dropGuard, BufferPool.unpin, BufferPool.markDirty]
        split
        · refine ⟨(BufferPool.total_setInfo _ _ _ fun _ => 1).trans
            (BufferPool.total_setInfo _ _ _ fun _ => 1), ?_, ?_⟩
          · rw [BufferPool.usedBytes_setInfo, BufferPool.usedBytes_setInfo]
          · rw [BufferPool.store_setInfo, BufferPool.store_setInfo]
        · exact ⟨BufferPool.total_setInfo _ _ _ fun _ => 1, BufferPool.usedBytes_setInfo _ _ _,
            BufferPool.store_setInfo _ _ _⟩
    exact .of_same rfl rfl rfl rfl hsame.1 hsame.2.1 hsame.2.2
  | markDirty id =>
    exact .of_same rfl rfl rfl rfl (s.pool.total_setInfo id _ fun _ => 1)
      (s.pool.usedBytes_setInfo id _) (s.pool.store_setInfo id _)
  | setBudget bytes => exact .of_same rfl rfl rfl rfl rfl rfl rfl

/-- What a run adds to the counters. -/
structure RunCounts (E : EvictionPolicy π) (order : FrameOrder) (s : Session π)
    (ops : List SessionOp) (m m' : BufferPoolMetrics) : Prop where
  hits : m'.hits = m.hits + tally E order hit s ops
  misses : m'.misses = m.misses + tally E order miss s ops
  bytesRead : m'.bytesRead = m.bytesRead + tally E order bytesRead s ops
  evictions : (run (next E order) s ops).pool.framesCount + m'.evictions =
    s.pool.framesCount + m.evictions + tally E order (arrival E order) s ops
  peakBytes : m'.peakBytes = max m.peakBytes (mostUsed E order s ops)
  calls : (∀ n, s.pool.store.fails n = false) →
    (run (next E order) s ops).pool.store.calls + (m.misses + m.dirtyFlushes) =
      s.pool.store.calls + (m'.misses + m'.dirtyFlushes)

theorem usedBytes_le_mostUsed (E : EvictionPolicy π) (order : FrameOrder) (s : Session π)
    (ops : List SessionOp) : s.pool.usedBytes ≤ mostUsed E order s ops := by
  cases ops with
  | nil => exact le_rfl
  | cons op ops => exact le_max_left _ _

/-- A run is counted operation by operation. -/
theorem counts_run (hE : E.Lawful) {ops : List SessionOp} (h : Consistent s)
    (hlegal : s.Legal E order ops) (m : BufferPoolMetrics)
    (hpeak : s.pool.usedBytes ≤ m.peakBytes) :
    RunCounts E order s ops m (s.metricsOf E order m ops) := by
  induction ops generalizing s m with
  | nil => exact ⟨rfl, rfl, rfl, rfl, (max_eq_left hpeak).symm, fun _ => rfl⟩
  | cons op ops ih =>
    have hstep : Counts E order s op m (s.metricsAfter E order m op) :=
      counts_step hE h m hlegal.1.1
    have hpeak' := hstep.peakBytes hpeak
    have hnext : (s.next E order op).pool.usedBytes ≤ (s.metricsAfter E order m op).peakBytes := by
      rw [hpeak']
      exact le_max_right _ _
    have hconsistent : Consistent (s.next E order op) := h.step hE hlegal.1.1 hlegal.1.2
    have hrest := ih hconsistent hlegal.2 (s.metricsAfter E order m op) hnext
    refine ⟨?_, ?_, ?_, ?_, ?_, fun hworks => ?_⟩
    · rw [metricsOf, hrest.hits, hstep.hits, tally, Nat.add_assoc]
    · rw [metricsOf, hrest.misses, hstep.misses, tally, Nat.add_assoc]
    · rw [metricsOf, hrest.bytesRead, hstep.bytesRead, tally, Nat.add_assoc]
    · rw [metricsOf, tally, ← Nat.add_assoc, ← hstep.evictions]
      exact hrest.evictions
    · rw [metricsOf, hrest.peakBytes, hpeak', mostUsed, max_assoc,
        max_eq_right (usedBytes_le_mostUsed E order _ ops), ← max_assoc, max_eq_left hpeak]
    · have hlast := hrest.calls fun n => (congrFun hstep.fails n).trans (hworks n)
      have hfirst := hstep.calls hworks
      rw [metricsOf]
      change (run (next E order) (s.next E order op) ops).pool.store.calls + _ = _
      omega

/-- What the counters say after a run from a new pool on. -/
structure ExactMetrics (E : EvictionPolicy π) (order : FrameOrder) (s : Session π)
    (ops : List SessionOp) (m : BufferPoolMetrics) : Prop where
  hits : m.hits = tally E order hit s ops
  misses : m.misses = tally E order miss s ops
  bytesRead : m.bytesRead = tally E order bytesRead s ops
  evictions : (run (next E order) s ops).pool.framesCount + m.evictions =
    tally E order (arrival E order) s ops
  peakBytes : m.peakBytes = mostUsed E order s ops
  calls : (∀ n, s.pool.store.fails n = false) →
    (run (next E order) s ops).pool.store.calls = m.misses + m.dirtyFlushes

/-- The counters are exact for every run. -/
theorem metrics_exact (hE : E.Lawful) (budgetBytes : ℕ) {store : ChunkStore}
    (hstore : store.calls = 0) (eviction : π) {ops : List SessionOp}
    (hlegal : (new (BufferPool.new budgetBytes store eviction)).Legal E order ops) :
    ExactMetrics E order (new (BufferPool.new budgetBytes store eviction)) ops
      (metricsOf E order (new (BufferPool.new budgetBytes store eviction)) .new ops) := by
  have hrun := counts_run hE (Consistent.new budgetBytes store eviction) hlegal .new le_rfl
  refine ⟨hrun.hits.trans (Nat.zero_add _), hrun.misses.trans (Nat.zero_add _),
    hrun.bytesRead.trans (Nat.zero_add _), hrun.evictions.trans (Nat.zero_add _),
    hrun.peakBytes.trans (Nat.zero_max _), fun hworks => ?_⟩
  have hcalls := hrun.calls hworks
  have hzero : (new (BufferPool.new budgetBytes store eviction)).pool.store.calls = 0 := hstore
  rw [hzero, Nat.zero_add] at hcalls
  exact hcalls

/-- A miss, an eviction of the dirty page, and a miss again. -/
theorem metrics_exact_lru :
    ExactMetrics LruPolicy.policy ⟨fun _ frames => frames, fun _ _ => List.Perm.refl _⟩
      (new (BufferPool.new 4 ⟨fun id => if id = 1 then some [7, 8, 9] else none, 0,
        fun _ => false, fun _ => none⟩ LruPolicy.new))
      [.pin true 1 100, .dropGuard 0, .insertPage 2 [3, 4], .pin false 1 100]
      (metricsOf LruPolicy.policy ⟨fun _ frames => frames, fun _ _ => List.Perm.refl _⟩
        (new (BufferPool.new 4 ⟨fun id => if id = 1 then some [7, 8, 9] else none, 0,
          fun _ => false, fun _ => none⟩ LruPolicy.new)) .new
        [.pin true 1 100, .dropGuard 0, .insertPage 2 [3, 4], .pin false 1 100]) :=
  metrics_exact LruPolicy.lawful 4 rfl LruPolicy.new
    ⟨⟨trivial, pinsFit_of_length (by decide +kernel)⟩,
      ⟨trivial, pinsFit_of_length (by decide +kernel)⟩,
      ⟨(by decide +kernel : 2 ∉ [1]), pinsFit_of_length (by decide +kernel)⟩,
      ⟨trivial, pinsFit_of_length (by decide +kernel)⟩, trivial⟩

end Session

/-! ## The peak on several threads -/

/-- Where a thread is in `update_peak`. -/
inductive PeakPc
  | load
  /-- In the loop, with what was last seen of the peak. -/
  | loop (current : ℕ)
  | done
  deriving DecidableEq, Repr

/-- A call of `update_peak(n)`. -/
structure PeakThread where
  n : ℕ
  pc : PeakPc
  deriving DecidableEq, Repr

/-- The shared peak, and the threads that raise it. -/
structure SharedPeak where
  peakBytes : ℕ
  threads : List PeakThread
  deriving DecidableEq, Repr

namespace SharedPeak

def new (peakBytes : ℕ) (values : List ℕ) : SharedPeak :=
  ⟨peakBytes, values.map fun n => ⟨n, .load⟩⟩

/-- One access of a thread to the peak. `compare_exchange_weak` may fail although the
peak is what the thread has seen, which is `spurious`. -/
def access (peak : ℕ) (t : PeakThread) (spurious : Bool) : ℕ × PeakPc :=
  match t.pc with
  | .load => (peak, .loop peak)
  | .loop current =>
    if current < t.n then
      if current = peak ∧ spurious = false then (t.n, .done) else (peak, .loop peak)
    else (peak, .done)
  | .done => (peak, .done)

/-- A thread moves. -/
def step (s : SharedPeak) (move : ℕ × Bool) : SharedPeak :=
  match s.threads[move.1]? with
  | some t =>
    ⟨(access s.peakBytes t move.2).1,
      s.threads.set move.1 ⟨t.n, (access s.peakBytes t move.2).2⟩⟩
  | none => s

/-- What a thread has seen is not above the peak, and a finished one has raised it. -/
def Below (peak : ℕ) (t : PeakThread) : Prop :=
  match t.pc with
  | .load => True
  | .loop current => current ≤ peak
  | .done => t.n ≤ peak

theorem Below.mono {peak peak' : ℕ} {t : PeakThread} (h : Below peak t) (hle : peak ≤ peak') :
    Below peak' t := by
  obtain ⟨n, pc⟩ := t
  cases pc with
  | load => trivial
  | loop current => exact Nat.le_trans h hle
  | done => exact Nat.le_trans h hle

/-- The peak is what it was at the start or one of the values, and no finished thread's
value is above it. -/
structure Raised (start : ℕ) (values : List ℕ) (s : SharedPeak) : Prop where
  threads : s.threads.map PeakThread.n = values
  le : start ≤ s.peakBytes
  value : s.peakBytes = start ∨ s.peakBytes ∈ values
  below : ∀ t ∈ s.threads, Below s.peakBytes t

theorem Raised.new (start : ℕ) (values : List ℕ) : Raised start values (new start values) where
  threads := by
    rw [SharedPeak.new, List.map_map]
    exact List.map_id values
  le := le_rfl
  value := Or.inl rfl
  below t ht := by
    obtain ⟨n, -, rfl⟩ := List.mem_map.mp ht
    trivial

/-- An access raises the peak to the thread's value, or leaves it. -/
theorem access_spec {peak : ℕ} {t : PeakThread} (h : Below peak t) (spurious : Bool) :
    peak ≤ (access peak t spurious).1 ∧
      ((access peak t spurious).1 = peak ∨ (access peak t spurious).1 = t.n) ∧
      Below (access peak t spurious).1 ⟨t.n, (access peak t spurious).2⟩ := by
  obtain ⟨n, pc⟩ := t
  cases pc with
  | load => exact ⟨le_rfl, Or.inl rfl, Nat.le_refl peak⟩
  | loop current =>
    unfold access
    dsimp only
    by_cases hlt : current < n
    · rw [if_pos hlt]
      by_cases hswap : current = peak ∧ spurious = false
      · rw [if_pos hswap]
        exact ⟨hswap.1 ▸ hlt.le, Or.inr rfl, Nat.le_refl n⟩
      · rw [if_neg hswap]
        exact ⟨le_rfl, Or.inl rfl, Nat.le_refl peak⟩
    · rw [if_neg hlt]
      exact ⟨le_rfl, Or.inl rfl, Nat.le_trans (not_lt.mp hlt) h⟩
  | done => exact ⟨le_rfl, Or.inl rfl, h⟩

theorem Raised.step {start : ℕ} {values : List ℕ} {s : SharedPeak} (h : Raised start values s)
    (move : ℕ × Bool) : Raised start values (s.step move) := by
  unfold SharedPeak.step
  cases ht : s.threads[move.1]? with
  | none => exact h
  | some t =>
    have hmem := List.mem_of_getElem? ht
    obtain ⟨hle, hvalue, hbelow⟩ := access_spec (h.below t hmem) move.2
    refine ⟨?_, h.le.trans hle, ?_, ?_⟩
    · have hget : (s.threads.map PeakThread.n)[move.1]? = some t.n := by
        rw [List.getElem?_map, ht]
        rfl
      obtain ⟨hlt, hn⟩ := List.getElem?_eq_some_iff.mp hget
      rw [← h.threads, List.map_set, ← hn]
      exact List.set_getElem_self hlt
    · dsimp only
      rcases hvalue with hvalue | hvalue
      · rw [hvalue]
        exact h.value
      · rw [hvalue, ← h.threads]
        exact Or.inr (List.mem_map_of_mem hmem)
    · exact all_set (fun t' ht' => (h.below t' ht').mono hle) hbelow move.1

/-- No value is lost in any interleaving, and when all threads are done the peak is the
largest of the values and of what it was. -/
theorem peak_exact (start : ℕ) (values : List ℕ) (moves : List (ℕ × Bool)) :
    AllStates step (Raised start values) (new start values) moves ∧
      ((∀ t ∈ (run step (new start values) moves).threads, t.pc = .done) →
        IsGreatest (insert start {n | n ∈ values})
          (run step (new start values) moves).peakBytes) := by
  have hall : AllStates step (Raised start values) (new start values) moves :=
    AllStates.of_forall (fun s move h => h.step move) (.new start values) moves
  have hlast := hall.last
  refine ⟨hall, fun hdone => ⟨?_, ?_⟩⟩
  · exact Set.mem_insert_iff.mpr hlast.value
  · intro n hn
    rcases Set.mem_insert_iff.mp hn with rfl | hn
    · exact hlast.le
    · obtain ⟨t, ht, rfl⟩ := List.mem_map.mp (hlast.threads.symm ▸ hn : n ∈ _)
      have hbelow := hlast.below t ht
      rw [Below, hdone t ht] at hbelow
      exact hbelow

end SharedPeak

end AirHuim
