import AirHuim.BufferPool.Invariants
import AirHuim.Library.Trace

/-!
# A pool shared by threads

Every thread is at some point of a pool operation and next performs the access
that stands there; the accesses of different threads interleave freely. A thread
between two operations is idle. Guards may be handed from thread to thread, so
any idle thread may drop any of them.
-/

namespace AirHuim

open Library

/-- What a page is flushed for. -/
inductive Job
  /-- A call of `flush`. -/
  | flush
  /-- A call of `evict_one`. -/
  | evict
  /-- The eviction loop of a pin or of `insert_page`. -/
  | room (r : Request)
  deriving DecidableEq, Repr

/-- Where a thread is: the access that it performs next. -/
inductive Pc
  | idle
  /-- `frames.get_mut` of a pin. -/
  | pinning (id : PageId) (mutable : Bool) (elapsedNs : ℕ)
  /-- `read_page` after a miss. -/
  | missed (id : PageId) (mutable : Bool) (elapsedNs : ℕ)
  /-- The test of the eviction loop. -/
  | testing (r : Request)
  /-- Snapshot and `pick_victim`. -/
  | choosing (job : Job)
  /-- The dirty test of `flush`. -/
  | dirtyTest (id : PageId) (job : Job)
  /-- The second lookup of `flush`, with its `unwrap`. -/
  | frameLookup (id : PageId) (job : Job)
  /-- `write_page` of the buffer at `addr`. -/
  | writing (id : PageId) (addr : ℕ) (job : Job)
  /-- `dirty = false`. -/
  | clearing (id : PageId) (job : Job)
  /-- `frames.remove`. -/
  | removing (id : PageId) (job : Job)
  /-- `used_bytes.fetch_sub`. -/
  | subtracting (id : PageId) (size : ℕ) (job : Job)
  /-- `on_evict`. -/
  | telling (id : PageId) (job : Job)
  /-- `used_bytes.fetch_add`. -/
  | adding (r : Request)
  /-- `frames.insert`. -/
  | inserting (r : Request) (tick : ℕ)
  /-- `on_insert`, with the guard that is returned after it. -/
  | inserted (id : PageId) (guards : List Guard)
  /-- `mark_dirty` of a `PinMutGuard`'s drop. -/
  | dropping (g : Guard)
  /-- `unpin` of a guard's drop. -/
  | unpinning (g : Guard)
  /-- The `unwrap` in `flush` found nothing. -/
  | panicked
  /-- The thread read a buffer that had been freed; nothing is said of what follows. -/
  | freed
  deriving DecidableEq, Repr

def Job.afterFlush (id : PageId) : Job → Pc
  | .flush => .idle
  | .evict => .removing id .evict
  | .room r => .removing id (.room r)

def Job.afterEvict : Job → Pc
  | .flush => .idle
  | .evict => .idle
  | .room r => .testing r

/-- The live guards that a thread holds inside an operation. -/
def Pc.guards : Pc → List Guard
  | .inserted _ guards => guards
  | .dropping g => [g]
  | .unpinning g => [g]
  | _ => []

/-- Those whose page is not marked dirty yet. -/
def Pc.writers : Pc → List Guard
  | .inserted _ guards => guards
  | .dropping g => [g]
  | _ => []

/-- The bytes that the thread has added without their frame, or that it has yet
to subtract for a frame it removed. -/
def Pc.pending : Pc → ℕ
  | .inserting r _ => r.data.length
  | .subtracting _ size _ => size
  | _ => 0

variable {π : Type} (E : EvictionPolicy π) (order : FrameOrder)

/-- One access: where the thread is after it, the guard it was given, and the pool. -/
def Pc.step (p : BufferPool π) : Pc → Pc × List Guard × BufferPool π
  | .idle => (.idle, [], p)
  | .pinning id mutable elapsedNs =>
    match p.lookupAndPin E id mutable with
    | some (g, p) => (.idle, [g], p)
    | none => (.missed id mutable elapsedNs, [], p)
  | .missed id mutable elapsedNs =>
    match p.readPage id with
    | (.ok data, p) => (.testing ⟨id, data, some mutable, min elapsedNs (2 ^ 32 - 1)⟩, [], p)
    | (.error _, p) => (.idle, [], p)
  | .testing r =>
    (if p.overBudget r.data.length then .choosing (.room r) else .adding r, [], p)
  | .choosing job =>
    match p.chooseVictim E order with
    | (some victim, p) => (.dirtyTest victim job, [], p)
    | (none, p) => (.idle, [], p)
  | .dirtyTest id job => (if p.isDirty id then .frameLookup id job else job.afterFlush id, [], p)
  | .frameLookup id job =>
    match p.frames.lookup id with
    | some frame => (.writing id frame.addr job, [], p)
    | none => (.panicked, [], p)
  | .writing id addr job =>
    match p.frames.lookup id with
    | some frame =>
      if frame.addr = addr then
        match p.writePage id frame.data with
        | (.ok (), p) => (.clearing id job, [], p)
        | (.error _, p) => (.idle, [], p)
      else (.freed, [], p)
    | none => (.freed, [], p)
  | .clearing id job => (job.afterFlush id, [], p.clearDirty id)
  | .removing id job => (.subtracting id (p.removeFrame id).1 job, [], (p.removeFrame id).2)
  | .subtracting id size job => (.telling id job, [], p.subUsed size)
  | .telling id job => (job.afterEvict, [], p.noteEvict E id)
  | .adding r => (.inserting r p.tick, [], p.addUsed r.data.length)
  | .inserting r tick =>
    (.inserted r.pageId (r.guard p.nextAddr), [], p.insertFrame r tick)
  | .inserted id guards => (.idle, guards, p.noteInsert E id)
  | .dropping g => (.unpinning g, [], p.markDirty g.pageId)
  | .unpinning g => (.idle, [], p.unpin g.pageId)
  | .panicked => (.panicked, [], p)
  | .freed => (.freed, [], p)

/-- A point of an operation at which the thread holds no guard and owes no bytes. -/
structure Pc.Passive (pc : Pc) : Prop where
  guards : pc.guards = []
  writers : pc.writers = []
  pending : pc.pending = 0
  running : pc ≠ .panicked ∧ pc ≠ .freed

theorem Job.afterFlush_passive (job : Job) (id : PageId) : (job.afterFlush id).Passive := by
  cases job <;> exact ⟨rfl, rfl, rfl, nofun, nofun⟩

theorem Job.afterEvict_passive (job : Job) : job.afterEvict.Passive := by
  cases job <;> exact ⟨rfl, rfl, rfl, nofun, nofun⟩

/-- The access does not count a pin or bytes, nor put in or take out a frame. -/
def Pc.Silent (p : BufferPool π) : Pc → Prop
  | .pinning id _ _ => p.frames.lookup id = none
  | .adding _ => False
  | .removing _ _ => False
  | .inserting _ _ => False
  | _ => True

/-- What one access can do. -/
inductive Access (p : BufferPool π) : Pc → Pc → List Guard → BufferPool π → Prop
  /-- The thread has ended abnormally, or is idle. -/
  | stay {pc : Pc} (kind : pc.Silent p) : Access p pc pc [] p
  /-- Nothing changes that a guard or another access depends on. -/
  | quiet {pc next : Pc} {q : BufferPool π} (frames : q.frames = p.frames)
      (pages : q.store.pages = p.store.pages) (nextAddr : q.nextAddr = p.nextAddr)
      (used : q.usedBytes = p.usedBytes) (budget : q.budgetBytes = p.budgetBytes)
      (kind : pc.Silent p) (before : pc.Passive) (after : next.Passive) :
      Access p pc next [] q
  | hit {id : PageId} {mutable : Bool} {elapsedNs : ℕ} {frame : Frame}
      (lookup : p.frames.lookup id = some frame) :
      Access p (.pinning id mutable elapsedNs) .idle
        [⟨id, frame.addr, frame.data.length, mutable⟩]
        { p.setInfo id (BufferPool.countPin p.tick) with
          tick := (p.tick + 1) % 2 ^ 64
          eviction := E.onAccess id p.eviction }
  | panic {id : PageId} {job : Job} (lookup : p.frames.lookup id = none) :
      Access p (.frameLookup id job) .panicked [] p
  | readFreed {id : PageId} {addr : ℕ} {job : Job}
      (lookup : ∀ frame, p.frames.lookup id = some frame → frame.addr ≠ addr) :
      Access p (.writing id addr job) .freed [] p
  | write {id : PageId} {job : Job} {next : Pc} {frame : Frame}
      (lookup : p.frames.lookup id = some frame) (after : next.Passive) :
      Access p (.writing id frame.addr job) next [] (p.writePage id frame.data).2
  | clear {id : PageId} {job : Job} :
      Access p (.clearing id job) (job.afterFlush id) [] (p.clearDirty id)
  | remove {id : PageId} {job : Job} :
      Access p (.removing id job) (.subtracting id (p.removeFrame id).1 job) []
        (p.removeFrame id).2
  | sub {id : PageId} {size : ℕ} {job : Job} :
      Access p (.subtracting id size job) (.telling id job) [] (p.subUsed size)
  | add {r : Request} : Access p (.adding r) (.inserting r p.tick) [] (p.addUsed r.data.length)
  | insert {r : Request} {tick : ℕ} :
      Access p (.inserting r tick) (.inserted r.pageId (r.guard p.nextAddr)) []
        (p.insertFrame r tick)
  | hand {id : PageId} {guards : List Guard} :
      Access p (.inserted id guards) .idle guards (p.noteInsert E id)
  | mark {g : Guard} : Access p (.dropping g) (.unpinning g) [] (p.markDirty g.pageId)
  | unpin {g : Guard} : Access p (.unpinning g) .idle [] (p.unpin g.pageId)

/-- Every access is one of these. -/
theorem Pc.step_access (p : BufferPool π) (pc : Pc) :
    Access E p pc (pc.step E order p).1 (pc.step E order p).2.1 (pc.step E order p).2.2 := by
  cases pc with
  | idle => exact .stay trivial
  | panicked => exact .stay trivial
  | freed => exact .stay trivial
  | pinning id mutable elapsedNs =>
    simp only [Pc.step]
    rcases hlookup : p.lookupAndPin E id mutable with _ | ⟨g, q⟩
    · exact .quiet rfl rfl rfl rfl rfl ((BufferPool.lookupAndPin_none E).mp hlookup)
        ⟨rfl, rfl, rfl, nofun, nofun⟩ ⟨rfl, rfl, rfl, nofun, nofun⟩
    · obtain ⟨frame, hframe, rfl, rfl⟩ := BufferPool.lookupAndPin_some hlookup
      exact .hit hframe
  | missed id mutable elapsedNs =>
    simp only [Pc.step]
    have hpages := BufferPool.pages_readPage p id
    rcases hread : p.readPage id with ⟨_ | data, q⟩
    all_goals
      obtain rfl : q = (p.readPage id).2 := by rw [hread]
      exact .quiet rfl hpages rfl rfl rfl trivial ⟨rfl, rfl, rfl, nofun, nofun⟩
        ⟨rfl, rfl, rfl, nofun, nofun⟩
  | testing r =>
    simp only [Pc.step]
    cases p.overBudget r.data.length
    all_goals
      exact .quiet rfl rfl rfl rfl rfl trivial ⟨rfl, rfl, rfl, nofun, nofun⟩
        ⟨rfl, rfl, rfl, nofun, nofun⟩
  | choosing job =>
    simp only [Pc.step]
    rcases hchoose : p.chooseVictim E order with ⟨_ | victim, q⟩
    all_goals
      obtain rfl : q = (p.chooseVictim E order).2 := by rw [hchoose]
      exact .quiet rfl rfl rfl rfl rfl trivial ⟨rfl, rfl, rfl, nofun, nofun⟩
        ⟨rfl, rfl, rfl, nofun, nofun⟩
  | dirtyTest id job =>
    simp only [Pc.step]
    cases p.isDirty id
    · exact .quiet rfl rfl rfl rfl rfl trivial ⟨rfl, rfl, rfl, nofun, nofun⟩
        (job.afterFlush_passive id)
    · exact .quiet rfl rfl rfl rfl rfl trivial ⟨rfl, rfl, rfl, nofun, nofun⟩
        ⟨rfl, rfl, rfl, nofun, nofun⟩
  | frameLookup id job =>
    simp only [Pc.step]
    cases hframe : p.frames.lookup id with
    | none => exact .panic hframe
    | some frame =>
      exact .quiet rfl rfl rfl rfl rfl trivial ⟨rfl, rfl, rfl, nofun, nofun⟩
        ⟨rfl, rfl, rfl, nofun, nofun⟩
  | writing id addr job =>
    simp only [Pc.step]
    cases hframe : p.frames.lookup id with
    | none => exact .readFreed (by simp [hframe])
    | some frame =>
      by_cases haddr : frame.addr = addr
      · subst haddr
        simp only [if_true]
        rcases hwrite : p.writePage id frame.data with ⟨_ | ⟨⟩, q⟩
        all_goals
          obtain rfl : q = (p.writePage id frame.data).2 := by rw [hwrite]
          exact .write hframe ⟨rfl, rfl, rfl, nofun, nofun⟩
      · simp only [if_neg haddr]
        exact .readFreed fun frame' hframe' => by
          rw [hframe] at hframe'
          cases hframe'
          exact haddr
  | clearing id job => exact .clear
  | removing id job => exact .remove
  | subtracting id size job => exact .sub
  | telling id job =>
    exact .quiet rfl rfl rfl rfl rfl trivial ⟨rfl, rfl, rfl, nofun, nofun⟩ job.afterEvict_passive
  | adding r => exact .add
  | inserting r tick => exact .insert
  | inserted id guards => exact .hand
  | dropping g => exact .mark
  | unpinning g => exact .unpin

/-- The pool, the guards in the hands of the threads, where each thread is, and
for the specification the bytes last written to every page. -/
structure PoolWorld (π : Type) where
  pool : BufferPool π
  guards : List Guard
  threads : List Pc
  written : PageId → Option Bytes

/-- The operations that an idle thread may begin. -/
inductive ThreadOp
  | pin (id : PageId) (mutable : Bool) (elapsedNs : ℕ)
  | dropGuard (i : ℕ)
  | insertPage (id : PageId) (data : Bytes)
  | flush (id : PageId)
  | evictOne

inductive PoolEvent
  /-- Thread `t`, if idle, begins an operation. -/
  | start (t : ℕ) (op : ThreadOp)
  /-- Thread `t` performs its next access. -/
  | advance (t : ℕ)
  /-- One byte is written through the `i`-th guard. -/
  | poke (i off : ℕ) (byte : UInt8)

/-- The page that an access creates. -/
def Pc.creates (written : PageId → Option Bytes) : Pc → PageId → Option Bytes
  | .inserting r _ =>
    match r.pinned with
    | none => Function.update written r.pageId (some r.data)
    | some _ => written
  | _ => written

namespace PoolWorld

def new (pool : BufferPool π) (threads : ℕ) : PoolWorld π :=
  ⟨pool, [], List.replicate threads .idle, pool.store.pages⟩

def start (w : PoolWorld π) (t : ℕ) : ThreadOp → PoolWorld π
  | .pin id mutable elapsedNs =>
    { w with threads := w.threads.set t (.pinning id mutable elapsedNs) }
  | .dropGuard i =>
    match w.guards[i]? with
    | some g =>
      { w with
        guards := w.guards.eraseIdx i
        threads := w.threads.set t (if g.mutable then .dropping g else .unpinning g) }
    | none => w
  | .insertPage id data => { w with threads := w.threads.set t (.testing ⟨id, data, none, 50000⟩) }
  | .flush id => { w with threads := w.threads.set t (.dirtyTest id .flush) }
  | .evictOne => { w with threads := w.threads.set t (.choosing .evict) }

def advance (w : PoolWorld π) (t : ℕ) (pc : Pc) : PoolWorld π :=
  let (next, handed, pool) := pc.step E order w.pool
  { pool
    guards := handed ++ w.guards
    threads := w.threads.set t next
    written := pc.creates w.written }

def step (w : PoolWorld π) : PoolEvent → PoolWorld π
  | .start t op =>
    match w.threads[t]? with
    | some .idle => w.start t op
    | _ => w
  | .advance t =>
    match w.threads[t]? with
    | some pc => w.advance E order t pc
    | none => w
  | .poke i off byte =>
    match w.guards[i]? with
    | some g =>
      if g.mutable ∧ off < g.len then
        { w with
          pool := w.pool.poke g off byte
          written := Function.update w.written g.pageId
            ((w.written g.pageId).map (·.set off byte)) }
      else w
    | none => w

/-- All live guards. -/
def live (w : PoolWorld π) : List Guard := w.guards ++ w.threads.flatMap Pc.guards

/-- The live guards whose page is not marked dirty yet. -/
def writers (w : PoolWorld π) : List Guard := w.guards ++ w.threads.flatMap Pc.writers

/-- The bytes of all insertions and removals under way. -/
def pending (w : PoolWorld π) : ℕ := (w.threads.map Pc.pending).sum

/-! ## One thread among the others -/

theorem threads_perm {w : PoolWorld π} {t : ℕ} {pc : Pc} (h : w.threads[t]? = some pc) :
    w.threads.Perm (pc :: w.threads.eraseIdx t) :=
  (eraseIdx_perm h).symm

theorem set_perm {w : PoolWorld π} {t : ℕ} {pc : Pc} (h : w.threads[t]? = some pc) (next : Pc) :
    (w.threads.set t next).Perm (next :: w.threads.eraseIdx t) := by
  obtain ⟨ht, -⟩ := List.getElem?_eq_some_iff.mp h
  exact List.set_perm_cons_eraseIdx ht next

/-- The live guards of a state in which thread `t` is at `pc`: its own and the rest. -/
def rest (w : PoolWorld π) (t : ℕ) (held : Pc → List Guard) : List Guard :=
  w.guards ++ (w.threads.eraseIdx t).flatMap held

theorem held_perm {w : PoolWorld π} {t : ℕ} {pc : Pc} (h : w.threads[t]? = some pc)
    (held : Pc → List Guard) :
    (w.guards ++ w.threads.flatMap held).Perm (held pc ++ w.rest t held) := by
  have hperm := (threads_perm h).flatMap_right held
  rw [List.flatMap_cons] at hperm
  exact (hperm.append_left w.guards).trans (List.perm_append_comm_assoc _ _ _)

theorem held_set_perm {w : PoolWorld π} {t : ℕ} {pc : Pc} (h : w.threads[t]? = some pc)
    (next : Pc) (handed : List Guard) (held : Pc → List Guard) :
    (handed ++ w.guards ++ (w.threads.set t next).flatMap held).Perm
      ((handed ++ held next) ++ w.rest t held) := by
  have hperm := (set_perm h next).flatMap_right held
  rw [List.flatMap_cons] at hperm
  rw [List.append_assoc, List.append_assoc]
  exact ((hperm.append_left w.guards).trans (List.perm_append_comm_assoc _ _ _)).append_left handed

variable {E order} {w : PoolWorld π} {pc : Pc}

variable (E order) in
theorem live_advance {t : ℕ} (ht : w.threads[t]? = some pc) :
    (w.advance E order t pc).live.Perm
      (((pc.step E order w.pool).2.1 ++ (pc.step E order w.pool).1.guards) ++
        w.rest t Pc.guards) :=
  held_set_perm ht _ _ Pc.guards

theorem step_advance {t : ℕ} (ht : w.threads[t]? = some pc) :
    w.step E order (.advance t) = w.advance E order t pc := by
  simp [step, ht]

/-- The first steps of the operations that begin without a guard. -/
inductive Begins : Pc → Prop
  | pin (id : PageId) (mutable : Bool) (elapsedNs : ℕ) : Begins (.pinning id mutable elapsedNs)
  | insertPage (id : PageId) (data : Bytes) : Begins (.testing ⟨id, data, none, 50000⟩)
  | flush (id : PageId) : Begins (.dirtyTest id .flush)
  | evictOne : Begins (.choosing .evict)

/-- What beginning an operation can do. -/
theorem start_cases (w : PoolWorld π) (t : ℕ) (op : ThreadOp) :
    w.start t op = w ∨
      (∃ next, Begins next ∧ w.start t op = { w with threads := w.threads.set t next }) ∨
      ∃ i g, w.guards[i]? = some g ∧ w.start t op = { w with
        guards := w.guards.eraseIdx i
        threads := w.threads.set t (if g.mutable then .dropping g else .unpinning g) } := by
  cases op with
  | pin id mutable elapsedNs => exact Or.inr (Or.inl ⟨_, .pin id mutable elapsedNs, rfl⟩)
  | insertPage id data => exact Or.inr (Or.inl ⟨_, .insertPage id data, rfl⟩)
  | flush id => exact Or.inr (Or.inl ⟨_, .flush id, rfl⟩)
  | evictOne => exact Or.inr (Or.inl ⟨_, .evictOne, rfl⟩)
  | dropGuard i =>
    cases hg : w.guards[i]? with
    | none => exact Or.inl (by simp only [start, hg])
    | some g => exact Or.inr (Or.inr ⟨i, g, hg, by simp only [start, hg]⟩)

/-- Beginning an operation moves at most a guard from the hands into the operation. -/
theorem start_spec {t : ℕ} (ht : w.threads[t]? = some .idle) (op : ThreadOp) :
    (w.start t op).pool = w.pool ∧ (w.start t op).live.Perm w.live := by
  rcases start_cases w t op with heq | ⟨next, hnext, heq⟩ | ⟨i, g, hg, heq⟩
  · rw [heq]
    exact ⟨rfl, List.Perm.refl _⟩
  · rw [heq]
    have hset := held_set_perm ht next [] Pc.guards
    have hnone : next.guards = [] := by cases hnext <;> rfl
    rw [hnone] at hset
    exact ⟨rfl, hset.trans (held_perm ht Pc.guards).symm⟩
  · rw [heq]
    refine ⟨rfl, ?_⟩
    have hheld : (if g.mutable then Pc.dropping g else Pc.unpinning g).guards = [g] := by
      cases g.mutable <;> rfl
    have hset := (set_perm ht (if g.mutable then Pc.dropping g else Pc.unpinning g)).flatMap_right
      Pc.guards
    have hold := (threads_perm ht).flatMap_right Pc.guards
    rw [List.flatMap_cons, hheld] at hset
    have hnew := hset.append_left (w.guards.eraseIdx i)
    refine hnew.trans (List.perm_middle.trans ?_)
    exact ((eraseIdx_perm hg).append_right _).trans (hold.symm.append_left _)

end PoolWorld

end AirHuim
