import AirHuim.BufferPool.FilePool

/-!
# A pool over files used by one thread

The sessions of the pool over the map, for the pool over a store. The thread may do
all it may do there, and in every state it reaches the pool over the file store
keeps the same promises: the ledger, the bytes a pin shows, and that a page that
was flushed is in its file.
-/

namespace AirHuim

open Library

structure StoredSession (π σ : Type) where
  pool : StoredPool π σ
  guards : List Guard
  /-- The bytes last written to each page. -/
  written : PageId → Option Bytes
  /-- The pages that were pinned or created. -/
  seen : List PageId

namespace StoredSession

variable {π σ : Type} (T : StoreTrait σ) (E : EvictionPolicy π) (order : FrameOrder)

/-- The session after an operation, and what a pin or `insert_page` answered. -/
def step (s : StoredSession π σ) : SessionOp → Except PoolError (Option Guard) × StoredSession π σ
  | .pin mutable id elapsedNs =>
    match s.pool.pinPage T E order mutable id elapsedNs with
    | (.ok g, pool) =>
      (.ok (some g), { s with pool, guards := g :: s.guards, seen := id :: s.seen })
    | (.error e, pool) => (.error e, { s with pool })
  | .poke i off byte =>
    match s.guards[i]? with
    | some g =>
      if g.mutable ∧ off < g.len then
        (.ok none,
          { s with
            pool := { s.pool with fields := s.pool.fields.poke g off byte }
            written := Function.update s.written g.pageId
              ((s.written g.pageId).map (·.set off byte)) })
      else (.ok none, s)
    | none => (.ok none, s)
  | .dropGuard i =>
    match s.guards[i]? with
    | some g =>
      (.ok none,
        { s with
          pool := { s.pool with fields := s.pool.fields.dropGuard g }
          guards := s.guards.eraseIdx i })
    | none => (.ok none, s)
  | .insertPage id data =>
    match s.pool.insertPage T E order id data with
    | (.ok (), pool) =>
      (.ok none,
        { s with
          pool
          written := Function.update s.written id (some data)
          seen := id :: s.seen })
    | (.error e, pool) => (.error e, { s with pool })
  | .markDirty id =>
    (.ok none, { s with pool := { s.pool with fields := s.pool.fields.markDirty id } })
  | .flush id =>
    ((s.pool.flush T id).1.map fun _ => none, { s with pool := (s.pool.flush T id).2 })
  | .evictOne =>
    ((s.pool.evictOne T E order).1.map fun _ => none,
      { s with pool := (s.pool.evictOne T E order).2 })
  | .setBudget bytes => (.ok none, { s with pool := s.pool.setBudget bytes })

def next (s : StoredSession π σ) (op : SessionOp) : StoredSession π σ := (s.step T E order op).2

/-- Fewer than 65536 live guards on every page. -/
def PinsFit (s : StoredSession π σ) : Prop := ∀ id, liveGuards s.guards id < 2 ^ 16

/-- `insert_page` is only called with ids that were never used, and with pages that
the store can hold. -/
def Allowed (Fits : PageId → Bytes → Prop) (s : StoredSession π σ) : SessionOp → Prop
  | .insertPage id data => id ∉ s.seen ∧ Fits id data
  | _ => True

/-- Every operation is allowed, and no page ever has too many guards. -/
def Legal (Fits : PageId → Bytes → Prop) (s : StoredSession π σ) (ops : List SessionOp) : Prop :=
  AllSteps (next T E order)
    (fun s op => s.Allowed Fits op ∧ (s.next T E order op).PinsFit) s ops

/-- The session over the store and the session over the map. -/
structure Mirrors (Shows : σ → (PageId → Option Bytes) → Prop) (Fits : PageId → Bytes → Prop)
    (s : StoredSession π σ) (t : Session π) : Prop where
  pool : s.pool.Mirrors Shows Fits t.pool
  guards : s.guards = t.guards
  written : s.written = t.written
  seen : s.seen = t.seen

variable {T} {Shows : σ → (PageId → Option Bytes) → Prop} {Fits : PageId → Bytes → Prop}
  {s : StoredSession π σ} {t : Session π}

theorem pinsFit_of_length (h : s.guards.length < 2 ^ 16) : s.PinsFit := fun _ =>
  lt_of_le_of_lt List.countP_le_length h

/-- One operation: the two sessions answer alike and go on alike. -/
theorem Mirrors.step (hT : T.ActsAsMap Shows Fits)
    (hset : ∀ id (data : Bytes) off byte, Fits id data → Fits id (data.set off byte))
    (h : Mirrors Shows Fits s t) {op : SessionOp} (hallowed : s.Allowed Fits op) :
    (s.step T E order op).1 = (t.step E order op).1 ∧
      Mirrors Shows Fits (s.step T E order op).2 (t.step E order op).2 := by
  obtain ⟨hpool, hguards, hwritten, hseen⟩ := h
  cases op with
  | pin mutable id elapsedNs =>
    obtain ⟨hanswer, hmirrors⟩ :=
      StoredPool.pinPage_alike E order hT hpool mutable id elapsedNs
    simp only [StoredSession.step, Session.step]
    rcases hpin : StoredPool.pinPage T E order mutable s.pool id elapsedNs with ⟨r, p⟩
    rcases hpin' : BufferPool.pinPage E order mutable t.pool id elapsedNs with ⟨r', q⟩
    rw [hpin, hpin'] at hanswer hmirrors
    obtain rfl : r = r' := hanswer
    rcases r with e | g
    · exact ⟨rfl, hmirrors, hguards, hwritten, hseen⟩
    · exact ⟨rfl, hmirrors, congrArg (g :: ·) hguards, hwritten, congrArg (id :: ·) hseen⟩
  | poke i off byte =>
    cases hg : t.guards[i]? with
    | none =>
      simp only [StoredSession.step, Session.step, hguards, hg]
      exact ⟨trivial, hpool, hguards, hwritten, hseen⟩
    | some g =>
      by_cases hwrite : g.mutable ∧ off < g.len
      · simp only [StoredSession.step, Session.step, hguards, hwritten, hg, if_pos hwrite]
        exact ⟨trivial, hpool.poke hset g off byte, rfl, rfl, hseen⟩
      · simp only [StoredSession.step, Session.step, hguards, hg, if_neg hwrite]
        exact ⟨trivial, hpool, hguards, hwritten, hseen⟩
  | dropGuard i =>
    cases hg : t.guards[i]? with
    | none =>
      simp only [StoredSession.step, Session.step, hguards, hg]
      exact ⟨trivial, hpool, hguards, hwritten, hseen⟩
    | some g =>
      simp only [StoredSession.step, Session.step, hguards, hg]
      exact ⟨trivial, hpool.dropGuard g, rfl, hwritten, hseen⟩
  | insertPage id data =>
    obtain ⟨hanswer, hmirrors⟩ :=
      StoredPool.insertPage_alike E order hT hpool hallowed.2
    simp only [StoredSession.step, Session.step]
    rcases hinsert : StoredPool.insertPage T E order s.pool id data with ⟨r, p⟩
    rcases hinsert' : BufferPool.insertPage E order t.pool id data with ⟨r', q⟩
    rw [hinsert, hinsert'] at hanswer hmirrors
    obtain rfl : r = r' := hanswer
    rcases r with e | ⟨⟩
    · exact ⟨rfl, hmirrors, hguards, hwritten, hseen⟩
    · exact ⟨rfl, hmirrors, hguards, by rw [hwritten], congrArg (id :: ·) hseen⟩
  | markDirty id => exact ⟨rfl, hpool.setInfo id _, hguards, hwritten, hseen⟩
  | flush id =>
    obtain ⟨hanswer, hmirrors⟩ := StoredPool.flush_alike hT hpool id
    exact ⟨congrArg (Except.map fun _ => none) hanswer, hmirrors, hguards, hwritten, hseen⟩
  | evictOne =>
    obtain ⟨hanswer, hmirrors⟩ := StoredPool.evictOne_alike E order hT hpool
    exact ⟨congrArg (Except.map fun _ => none) hanswer, hmirrors, hguards, hwritten, hseen⟩
  | setBudget bytes =>
    refine ⟨rfl, ?_, hguards, hwritten, hseen⟩
    exact hpool.access (f := fun q => q.setBudget bytes) rfl rfl hpool.fits

end StoredSession

/-! ## Over files -/

namespace FileSession

variable {π : Type} (c : Codec) (crc : Bytes → UInt32) (E : EvictionPolicy π) (order : FrameOrder)

/-- A pool without frames over a directory that holds `files`. -/
def new (budgetBytes : ℕ) (files : FileChunkStore) (eviction : π) :
    StoredSession π FileChunkStore :=
  ⟨.new budgetBytes files eviction, [], files.shownPages c crc, []⟩

abbrev next (s : StoredSession π FileChunkStore) (op : SessionOp) :
    StoredSession π FileChunkStore :=
  s.next (FileChunkStore.asTrait c crc) E order op

/-- What the pool over the file store promises in a state. -/
structure Transparent (s : StoredSession π FileChunkStore) : Prop where
  ledger : s.pool.fields.usedBytes = s.pool.fields.residentBytes
  pin : ∀ mutable id elapsedNs g s',
    s.step (FileChunkStore.asTrait c crc) E order (.pin mutable id elapsedNs) = (.ok (some g), s') →
      s'.pool.fields.view g = s.written id ∧
        (s.pool.fields.frames.lookup id = none →
          s'.pool.fields.usedBytes ≤ s'.pool.fields.budgetBytes)
  insertPage : ∀ id data s', FileChunkStore.Fits id data →
    s.step (FileChunkStore.asTrait c crc) E order (.insertPage id data) = (.ok none, s') →
      s'.pool.fields.usedBytes ≤ s'.pool.fields.budgetBytes
  /-- A page that is flushed while nobody writes to it is in its file. -/
  durable : ∀ id s', NoWriter s.guards id →
    s.step (FileChunkStore.asTrait c crc) E order (.flush id) = (.ok none, s') →
      s'.pool.store.shownPages c crc id = s'.written id

variable {c crc} {s : StoredSession π FileChunkStore} {t : Session π}

/-- The session over the files and the session over the pages they hold. -/
abbrev Mirrors (c : Codec) (crc : Bytes → UInt32) (s : StoredSession π FileChunkStore)
    (t : Session π) : Prop :=
  s.Mirrors (fun files pages => pages = files.shownPages c crc) FileChunkStore.Fits t

theorem mirrors_new (c : Codec) (crc : Bytes → UInt32) (budgetBytes : ℕ) (files : FileChunkStore)
    (eviction : π) : Mirrors c crc (new c crc budgetBytes files eviction)
      (.new (.new budgetBytes ⟨files.shownPages c crc, 0, fun _ => false, fun _ => none⟩
        eviction)) where
  pool := ⟨rfl, rfl, fun _ => rfl, fun id frame h => by simp [Session.new, BufferPool.new] at h⟩
  guards := rfl
  written := rfl
  seen := rfl

theorem Mirrors.step (hc : c.Inverts) (hsized : c.Sized) (h : Mirrors c crc s t) {op : SessionOp}
    (hallowed : s.Allowed FileChunkStore.Fits op) :
    (s.step (FileChunkStore.asTrait c crc) E order op).1 = (t.step E order op).1 ∧
      Mirrors c crc (next c crc E order s op) (t.step E order op).2 :=
  StoredSession.Mirrors.step E order (FileChunkStore.actsAsMap hc hsized crc)
    (fun _ data _ _ hfits => ⟨hfits.1, by rw [List.length_set]; exact hfits.2⟩) h hallowed

/-- A clean frame without writers holds what the store holds. -/
theorem durable_of_flush (h : t.Consistent) {id : PageId} (hwriter : NoWriter t.guards id)
    (hok : (t.pool.flush id).1 = .ok ()) :
    (t.pool.flush id).2.store.pages id = t.written id := by
  have hflushed := (BufferPool.flush_flushes h.good id).keeps
  rw [← h.written, ← hflushed.content]
  cases hframe : (t.pool.flush id).2.frames.lookup id with
  | none => rw [BufferPool.content_of_absent hframe]
  | some frame =>
    rw [BufferPool.content_of_lookup hframe]
    exact hflushed.good.clean id frame hframe (BufferPool.flush_clean hok hframe) hwriter

/-- What the two pools share. -/
theorem Mirrors.fields_eq (h : Mirrors c crc s t) :
    s.pool.fields.usedBytes = t.pool.usedBytes ∧ s.pool.fields.budgetBytes = t.pool.budgetBytes ∧
      s.pool.fields.residentBytes = t.pool.residentBytes ∧
      s.pool.fields.frames = t.pool.frames ∧ s.pool.fields.view = t.pool.view := by
  rw [h.pool.fields]
  exact ⟨rfl, rfl, rfl, rfl, rfl⟩

theorem transparent_of_mirrors (hE : E.Lawful) (hc : c.Inverts) (hsized : c.Sized)
    (h : Mirrors c crc s t) (hconsistent : t.Consistent) : Transparent c crc E order s := by
  have hshown : t.Transparent E order := hconsistent.transparent hE
  obtain ⟨hused, -, hresident, hframes, -⟩ := h.fields_eq
  -- a step of the one session with its answer is a step of the other
  have hstep : ∀ op a s', s.Allowed FileChunkStore.Fits op →
      s.step (FileChunkStore.asTrait c crc) E order op = (a, s') →
      ∃ t', t.step E order op = (a, t') ∧ Mirrors c crc s' t' := by
    intro op a s' hop heq
    obtain ⟨hanswer, hmirrors⟩ := Mirrors.step E order hc hsized h hop
    rw [next, StoredSession.next, heq] at hmirrors
    rw [heq] at hanswer
    exact ⟨_, Prod.ext hanswer.symm rfl, hmirrors⟩
  constructor
  · rw [hused, hresident]
    exact hshown.ledger
  · intro mutable id elapsedNs g s' heq
    obtain ⟨t', heq', hmirrors⟩ := hstep (.pin mutable id elapsedNs) (.ok (some g)) s' trivial heq
    obtain ⟨hused', hbudget', -, -, hview'⟩ := hmirrors.fields_eq
    rw [hview', hused', hbudget', hframes, h.written]
    exact hshown.pin mutable id elapsedNs g t' heq'
  · intro id data s' hfits heq
    have hinsert : s.pool.insertPage (FileChunkStore.asTrait c crc) E order id data =
        (.ok (), s'.pool) := by
      simp only [StoredSession.step] at heq
      rcases hinsert : s.pool.insertPage (FileChunkStore.asTrait c crc) E order id data with
        ⟨e | ⟨⟩, p⟩
      · rw [hinsert] at heq
        cases heq
      · rw [hinsert] at heq
        cases heq
        rfl
    obtain ⟨hanswer, hmirrors⟩ := StoredPool.insertPage_alike E order
      (FileChunkStore.actsAsMap hc hsized crc) h.pool hfits
    rw [hinsert] at hanswer hmirrors
    have hfitsBudget := BufferPool.insertPage_fits hE hconsistent.good
      (q := (t.pool.insertPage E order id data).2) (Prod.ext hanswer.symm rfl)
    have hfields : s'.pool.fields = { (t.pool.insertPage E order id data).2 with
        store := s'.pool.fields.store } := by
      conv_rhs => rw [hmirrors.fields]
    rw [hfields]
    exact hfitsBudget
  · intro id s' hwriter heq
    obtain ⟨t', heq', hmirrors⟩ := hstep (.flush id) (.ok none) s' trivial heq
    have hok : (t.pool.flush id).1 = .ok () := by
      simp only [Session.step] at heq'
      rcases hflush : t.pool.flush id with ⟨e | ⟨⟩, q⟩
      · rw [hflush] at heq'
        cases heq'
      · rfl
    have hdurable := durable_of_flush hconsistent (h.guards ▸ hwriter) hok
    obtain rfl : { t with pool := (t.pool.flush id).2 } = t' := congrArg Prod.snd heq'
    rw [hmirrors.written, ← hmirrors.pool.shows]
    exact hdurable

/-- Whatever a thread does with a pool over a directory of files, in every state a
pin shows the bytes last written to its page, or held by its file from the start,
and what is flushed is in its file. -/
theorem transparent_on_files (hE : E.Lawful) (hc : c.Inverts) (hsized : c.Sized)
    (crc : Bytes → UInt32)
    (order : FrameOrder) (budgetBytes : ℕ) (files : FileChunkStore) (eviction : π)
    (ops : List SessionOp)
    (hlegal : (new c crc budgetBytes files eviction).Legal (FileChunkStore.asTrait c crc) E order
      FileChunkStore.Fits ops) :
    AllStates (next c crc E order) (Transparent c crc E order)
      (new c crc budgetBytes files eviction) ops := by
  have hmirrored : AllStates (next c crc E order)
      (fun s => ∃ t : Session π, Mirrors c crc s t ∧ t.Consistent)
      (new c crc budgetBytes files eviction) ops := by
    refine AllStates.of_steps ?_
      ⟨_, mirrors_new c crc budgetBytes files eviction, Session.Consistent.new _ _ _⟩ hlegal
    rintro s op ⟨t, hmirrors, hconsistent⟩ ⟨hallowed, hfit⟩
    obtain ⟨-, hnext⟩ := Mirrors.step E order hc hsized hmirrors hallowed
    refine ⟨_, hnext, hconsistent.step hE ?_ fun id => ?_⟩
    · cases op with
      | insertPage id data =>
        show id ∉ t.seen
        rw [← hmirrors.seen]
        exact hallowed.1
      | _ => trivial
    · rw [← hnext.guards]
      exact hfit id
  exact hmirrored.mono fun s ⟨t, hmirrors, hconsistent⟩ =>
    transparent_of_mirrors E order hE hc hsized hmirrors hconsistent

/-- Pages 1 and 2 do not fit together: page 1 is edited, goes to its file when page
2 comes, and is loaded again from there. -/
theorem transparent_on_files_lru :
    AllStates (next Codec.identity FileChunkStore.crc32 LruPolicy.policy
        ⟨fun _ frames => frames, fun _ _ => List.Perm.refl _⟩)
      (Transparent Codec.identity FileChunkStore.crc32 LruPolicy.policy
        ⟨fun _ frames => frames, fun _ _ => List.Perm.refl _⟩)
      (new Codec.identity FileChunkStore.crc32 4 (.new true) LruPolicy.new)
      [.insertPage 1 [7, 8, 9], .pin true 1 100, .poke 0 2 5, .dropGuard 0,
        .insertPage 2 [3, 4], .pin false 1 100] :=
  transparent_on_files LruPolicy.policy LruPolicy.lawful (fun _ _ => rfl) Codec.sized_identity
    FileChunkStore.crc32 _ 4 _ LruPolicy.new _
    ⟨⟨⟨(by decide : 1 ∉ []), by decide, by decide⟩,
        StoredSession.pinsFit_of_length (by decide +kernel)⟩,
      ⟨trivial, StoredSession.pinsFit_of_length (by decide +kernel)⟩,
      ⟨trivial, StoredSession.pinsFit_of_length (by decide +kernel)⟩,
      ⟨trivial, StoredSession.pinsFit_of_length (by decide +kernel)⟩,
      ⟨⟨(by decide +kernel : 2 ∉ [1, 1]), by decide, by decide⟩,
        StoredSession.pinsFit_of_length (by decide +kernel)⟩,
      ⟨trivial, StoredSession.pinsFit_of_length (by decide +kernel)⟩, trivial⟩

end FileSession

end AirHuim
