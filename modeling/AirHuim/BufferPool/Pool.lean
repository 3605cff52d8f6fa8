import AirHuim.BufferPool.Policy

/-!
# The buffer pool

The pool keeps some pages of the store in frames, within a byte budget. The
first part lists the accesses to the pool's shared fields, each of which is
atomic in the code; the second part is the operations, for a pool that no other
thread uses meanwhile, as compositions of these accesses.

A frame's buffer is identified by the number of its insertion, which stands for
the address that a guard keeps: a guard can be used as long as the frame of its
page is the one with that number.
-/

namespace AirHuim

open Library

/-- The store as a map from page ids to payloads. Call number `n` fails if
`fails n`; a write that fails leaves `torn n` for its page. -/
structure ChunkStore where
  pages : PageId → Option Bytes
  calls : ℕ
  fails : ℕ → Bool
  torn : ℕ → Option Bytes

inductive PoolError
  /-- A call of the store returned an error. -/
  | store
  /-- `Buffer pool full ({used}/{budget} bytes), all pages pinned`. -/
  | full (usedBytes budgetBytes : ℕ)
  /-- The `unwrap` in `flush`. -/
  | panic
  /-- The eviction loop outran its bound. -/
  | stuck
  deriving DecidableEq, Repr

namespace ChunkStore

def readPage (s : ChunkStore) (id : PageId) : Except PoolError Bytes × ChunkStore :=
  let s' := { s with calls := s.calls + 1 }
  if s.fails s.calls then (.error .store, s')
  else match s.pages id with
    | some data => (.ok data, s')
    | none => (.error .store, s')

def writePage (s : ChunkStore) (id : PageId) (data : Bytes) : Except PoolError Unit × ChunkStore :=
  if s.fails s.calls then
    (.error .store,
      { s with pages := Function.update s.pages id (s.torn s.calls), calls := s.calls + 1 })
  else
    (.ok (), { s with pages := Function.update s.pages id (some data), calls := s.calls + 1 })

end ChunkStore

structure Frame where
  data : Bytes
  info : PageMeta
  addr : ℕ
  deriving DecidableEq, Repr

/-- `PinGuard`, and `PinMutGuard` if `mutable`. -/
structure Guard where
  pageId : PageId
  addr : ℕ
  len : ℕ
  mutable : Bool
  deriving DecidableEq, Repr

structure BufferPool (π : Type) where
  budgetBytes : ℕ
  usedBytes : ℕ
  frames : Table PageId Frame
  eviction : π
  store : ChunkStore
  tick : ℕ
  nextAddr : ℕ
  iterations : ℕ

/-- The order in which the frame map is iterated the `n`-th time. -/
structure FrameOrder where
  order : ℕ → List (PageId × PageMeta) → List (PageId × PageMeta)
  perm : ∀ n frames, (order n frames).Perm frames

/-- What an operation inserts once there is room: a loaded page under its first
pin, or a page created by `insert_page`. -/
structure Request where
  pageId : PageId
  data : Bytes
  /-- For a pin, whether it is `pin_mut`. -/
  pinned : Option Bool
  reloadCostNs : ℕ
  deriving DecidableEq, Repr

/-- The guard that a pin's request is answered with. -/
def Request.guard (r : Request) (addr : ℕ) : List Guard :=
  match r.pinned with
  | some mutable => [⟨r.pageId, addr, r.data.length, mutable⟩]
  | none => []

/-- The metadata of the request's frame. -/
def Request.info (r : Request) (tick : ℕ) : PageMeta :=
  { PageMeta.new r.pageId (r.data.length % 2 ^ 32) with
    dirty := r.pinned.isNone
    pinCount := if r.pinned.isSome then 1 else 0
    lastAccessTick := tick
    accessCount := 1
    reloadCostNs := r.reloadCostNs }

variable {π : Type} (E : EvictionPolicy π) (order : FrameOrder)

namespace BufferPool

def new (budgetBytes : ℕ) (store : ChunkStore) (eviction : π) : BufferPool π where
  budgetBytes
  usedBytes := 0
  frames := ∅
  eviction
  store
  tick := 0
  nextAddr := 0
  iterations := 0

/-! ## Atomic accesses -/

/-- `if let Some(mut frame) = frames.get_mut(&id)`, for a change of metadata. -/
def setInfo (p : BufferPool π) (id : PageId) (f : PageMeta → PageMeta) : BufferPool π :=
  match p.frames.lookup id with
  | some frame => { p with frames := p.frames.insert id { frame with info := f frame.info } }
  | none => p

/-- Counters wrap, as in a release build. -/
def countPin (tick : ℕ) (m : PageMeta) : PageMeta :=
  { m with
    pinCount := (m.pinCount + 1) % 2 ^ 16
    accessCount := (m.accessCount + 1) % 2 ^ 32
    lastAccessTick := tick }

/-- The hit path: under the entry's lock the pin is counted and the policy told. -/
def lookupAndPin (p : BufferPool π) (id : PageId) (mutable : Bool) :
    Option (Guard × BufferPool π) :=
  match p.frames.lookup id with
  | some frame =>
    some (⟨id, frame.addr, frame.data.length, mutable⟩,
      { p.setInfo id (countPin p.tick) with
        tick := (p.tick + 1) % 2 ^ 64
        eviction := E.onAccess id p.eviction })
  | none => none

def readPage (p : BufferPool π) (id : PageId) : Except PoolError Bytes × BufferPool π :=
  ((p.store.readPage id).1, { p with store := (p.store.readPage id).2 })

def writePage (p : BufferPool π) (id : PageId) (data : Bytes) :
    Except PoolError Unit × BufferPool π :=
  ((p.store.writePage id data).1, { p with store := (p.store.writePage id data).2 })

/-- The test of the eviction loop. -/
def overBudget (p : BufferPool π) (size : ℕ) : Bool := decide (p.budgetBytes < p.usedBytes + size)

/-- The snapshot that `evict_one` shows the policy. -/
def snapshot (p : BufferPool π) : List (PageId × PageMeta) :=
  order.order p.iterations (p.frames.entries.map fun e => (e.1, e.2.info))

def chooseVictim (p : BufferPool π) : Option PageId × BufferPool π :=
  (E.pickVictim p.eviction (p.snapshot order), { p with iterations := p.iterations + 1 })

def isDirty (p : BufferPool π) (id : PageId) : Bool :=
  match p.frames.lookup id with
  | some frame => frame.info.dirty
  | none => false

def clearDirty (p : BufferPool π) (id : PageId) : BufferPool π :=
  p.setInfo id fun m => { m with dirty := false }

def markDirty (p : BufferPool π) (id : PageId) : BufferPool π :=
  p.setInfo id fun m => { m with dirty := true }

def unpin (p : BufferPool π) (id : PageId) : BufferPool π :=
  p.setInfo id fun m => { m with pinCount := m.pinCount - 1 }

/-- `frames.remove`, for the length of what was removed. -/
def removeFrame (p : BufferPool π) (id : PageId) : ℕ × BufferPool π :=
  match p.frames.lookup id with
  | some frame => (frame.data.length, { p with frames := p.frames.erase id })
  | none => (0, p)

def subUsed (p : BufferPool π) (size : ℕ) : BufferPool π :=
  { p with usedBytes := p.usedBytes - size }

def noteEvict (p : BufferPool π) (id : PageId) : BufferPool π :=
  { p with eviction := E.onEvict id p.eviction }

/-- The new frame takes its tick and its bytes are counted. -/
def addUsed (p : BufferPool π) (size : ℕ) : BufferPool π :=
  { p with usedBytes := p.usedBytes + size, tick := (p.tick + 1) % 2 ^ 64 }

def insertFrame (p : BufferPool π) (r : Request) (tick : ℕ) : BufferPool π :=
  { p with
    frames := p.frames.insert r.pageId ⟨r.data, r.info tick, p.nextAddr⟩
    nextAddr := p.nextAddr + 1 }

def noteInsert (p : BufferPool π) (id : PageId) : BufferPool π :=
  { p with eviction := E.onInsert id p.eviction }

/-- The bytes behind a guard; `none` if its buffer is no longer in the pool. -/
def view (p : BufferPool π) (g : Guard) : Option Bytes :=
  match p.frames.lookup g.pageId with
  | some frame => if frame.addr = g.addr then some frame.data else none
  | none => none

/-- A write of one byte through a guard. -/
def poke (p : BufferPool π) (g : Guard) (off : ℕ) (byte : UInt8) : BufferPool π :=
  match p.frames.lookup g.pageId with
  | some frame =>
    if frame.addr = g.addr then
      { p with frames := p.frames.insert g.pageId { frame with data := frame.data.set off byte } }
    else p
  | none => p

/-! ## The operations of a thread alone -/

def setBudget (p : BufferPool π) (bytes : ℕ) : BufferPool π := { p with budgetBytes := bytes }

def flush (p : BufferPool π) (id : PageId) : Except PoolError Unit × BufferPool π :=
  if p.isDirty id then
    match p.frames.lookup id with
    | none => (.error .panic, p)
    | some frame =>
      match p.writePage id frame.data with
      | (.error e, p) => (.error e, p)
      | (.ok (), p) => (.ok (), p.clearDirty id)
  else (.ok (), p)

def evictOne (p : BufferPool π) : Except PoolError (Option PageId) × BufferPool π :=
  match p.chooseVictim E order with
  | (none, p) => (.ok none, p)
  | (some victim, p) =>
    match p.flush victim with
    | (.error e, p) => (.error e, p)
    | (.ok (), p) =>
      (.ok (some victim),
        (((p.removeFrame victim).2.subUsed (p.removeFrame victim).1).noteEvict E victim))

/-- The eviction loop: every round but the last takes a page out. -/
def makeRoom (size : ℕ) : ℕ → BufferPool π → Except PoolError Unit × BufferPool π
  | fuel, p =>
    if p.overBudget size then
      match fuel with
      | 0 => (.error .stuck, p)
      | fuel + 1 =>
        match p.evictOne E order with
        | (.error e, p) => (.error e, p)
        | (.ok none, p) => (.error (.full p.usedBytes p.budgetBytes), p)
        | (.ok (some _), p) => makeRoom size fuel p
    else (.ok (), p)

def framesCount (p : BufferPool π) : ℕ := p.frames.total fun _ => 1

/-- The end of a miss and of `insert_page`. -/
def install (p : BufferPool π) (r : Request) : BufferPool π :=
  ((p.addUsed r.data.length).insertFrame r p.tick).noteInsert E r.pageId

/-- `pin` and, if `mutable`, `pin_mut`; a load takes `elapsedNs`. -/
def pinPage (mutable : Bool) (p : BufferPool π) (id : PageId) (elapsedNs : ℕ) :
    Except PoolError Guard × BufferPool π :=
  match p.lookupAndPin E id mutable with
  | some (guard, p) => (.ok guard, p)
  | none =>
    match p.readPage id with
    | (.error e, p) => (.error e, p)
    | (.ok data, p) =>
      match makeRoom E order data.length (p.framesCount + 1) p with
      | (.error e, p) => (.error e, p)
      | (.ok (), p) =>
        (.ok ⟨id, p.nextAddr, data.length, mutable⟩,
          p.install E ⟨id, data, some mutable, min elapsedNs (2 ^ 32 - 1)⟩)

def pin := pinPage E order false

def pinMut := pinPage E order true

def insertPage (p : BufferPool π) (id : PageId) (data : Bytes) :
    Except PoolError Unit × BufferPool π :=
  match makeRoom E order data.length (p.framesCount + 1) p with
  | (.error e, p) => (.error e, p)
  | (.ok (), p) => (.ok (), p.install E ⟨id, data, none, 50000⟩)

/-- The guards' `drop`. -/
def dropGuard (p : BufferPool π) (g : Guard) : BufferPool π :=
  if g.mutable then (p.markDirty g.pageId).unpin g.pageId else p.unpin g.pageId

/-! ## What the accesses do to the frames -/

section Frames

variable (p : BufferPool π)

/-- The sum of the resident frames' lengths. -/
def residentBytes : ℕ := p.frames.total fun frame => frame.data.length

/-- The bytes of a page: those of its frame, else those of the store. -/
def content (id : PageId) : Option Bytes :=
  match p.frames.lookup id with
  | some frame => some frame.data
  | none => p.store.pages id

theorem content_of_lookup {p : BufferPool π} {id : PageId} {frame : Frame}
    (h : p.frames.lookup id = some frame) : p.content id = some frame.data := by
  simp [content, h]

theorem content_of_absent {p : BufferPool π} {id : PageId} (h : p.frames.lookup id = none) :
    p.content id = p.store.pages id := by
  simp [content, h]

theorem setInfo_of_lookup {p : BufferPool π} {id : PageId} {frame : Frame}
    (h : p.frames.lookup id = some frame) (f : PageMeta → PageMeta) :
    p.setInfo id f =
      { p with frames := p.frames.insert id { frame with info := f frame.info } } := by
  simp [setInfo, h]

theorem setInfo_of_absent {p : BufferPool π} {id : PageId} (h : p.frames.lookup id = none)
    (f : PageMeta → PageMeta) : p.setInfo id f = p := by
  simp [setInfo, h]

theorem lookup_setInfo (id : PageId) (f : PageMeta → PageMeta) (k : PageId) :
    (p.setInfo id f).frames.lookup k =
      if k = id then (p.frames.lookup id).map fun frame => { frame with info := f frame.info }
      else p.frames.lookup k := by
  cases h : p.frames.lookup id with
  | none =>
    rw [setInfo_of_absent h]
    by_cases hk : k = id
    · rw [if_pos hk, hk, h]
      rfl
    · rw [if_neg hk]
  | some frame =>
    rw [setInfo_of_lookup h]
    by_cases hk : k = id
    · subst hk
      simp
    · simp [hk, AList.lookup_insert_ne hk]

theorem lookup_setInfo_none (id : PageId) (f : PageMeta → PageMeta) {k : PageId}
    (h : p.frames.lookup k = none) : (p.setInfo id f).frames.lookup k = none := by
  rw [lookup_setInfo]
  by_cases hk : k = id
  · rw [if_pos hk, ← hk, h]
    rfl
  · rw [if_neg hk, h]

@[simp] theorem store_setInfo (id : PageId) (f : PageMeta → PageMeta) :
    (p.setInfo id f).store = p.store := by
  unfold setInfo
  split <;> rfl

@[simp] theorem usedBytes_setInfo (id : PageId) (f : PageMeta → PageMeta) :
    (p.setInfo id f).usedBytes = p.usedBytes := by
  unfold setInfo
  split <;> rfl

@[simp] theorem budgetBytes_setInfo (id : PageId) (f : PageMeta → PageMeta) :
    (p.setInfo id f).budgetBytes = p.budgetBytes := by
  unfold setInfo
  split <;> rfl

@[simp] theorem nextAddr_setInfo (id : PageId) (f : PageMeta → PageMeta) :
    (p.setInfo id f).nextAddr = p.nextAddr := by
  unfold setInfo
  split <;> rfl

/-- A change of metadata keeps every total over the buffers. -/
theorem total_setInfo (id : PageId) (f : PageMeta → PageMeta) (w : Bytes → ℕ) :
    ((p.setInfo id f).frames.total fun frame => w frame.data) =
      p.frames.total fun frame => w frame.data := by
  cases h : p.frames.lookup id with
  | none => rw [setInfo_of_absent h]
  | some frame =>
    rw [setInfo_of_lookup h]
    have hreplace := Table.total_replace h { frame with info := f frame.info }
      fun frame => w frame.data
    dsimp only at hreplace ⊢
    omega

@[simp] theorem residentBytes_setInfo (id : PageId) (f : PageMeta → PageMeta) :
    (p.setInfo id f).residentBytes = p.residentBytes :=
  p.total_setInfo id f List.length

@[simp] theorem content_setInfo (id : PageId) (f : PageMeta → PageMeta) :
    (p.setInfo id f).content = p.content := by
  funext k
  unfold content
  rw [lookup_setInfo, store_setInfo]
  by_cases hk : k = id
  · subst hk
    cases h : p.frames.lookup k <;> simp
  · rw [if_neg hk]

/-- The pages of the snapshot are the resident ones. -/
theorem mem_snapshot {id : PageId} {info : PageMeta} (h : (id, info) ∈ p.snapshot order) :
    ∃ frame, p.frames.lookup id = some frame ∧ frame.info = info := by
  have hmem := (order.perm p.iterations _).subset h
  obtain ⟨e, he, heq⟩ := List.mem_map.mp hmem
  cases heq
  exact ⟨e.2, AList.mem_lookup_iff.mpr he, rfl⟩

end Frames

end BufferPool

end AirHuim
