import AirHuim.BufferPool.Pool

/-!
# What the atomic accesses keep

Three invariants of a pool, each of which every atomic access keeps under a
condition of its own: the pin counters are those of the live guards (`Pins`),
clean frames agree with the store (`Clean`), and the bytes in use are those of
the frames and of the insertions and removals under way (`Ledger`). The
operations of a thread alone and the interleavings of many are compositions of
the same accesses.
-/

namespace AirHuim

open Library

/-- The number of guards on a page. -/
def liveGuards (guards : List Guard) (id : PageId) : ℕ := guards.countP fun g => g.pageId = id

/-- No `PinMutGuard` is on the page. -/
def NoWriter (guards : List Guard) (id : PageId) : Prop :=
  ∀ g ∈ guards, g.pageId = id → g.mutable = false

theorem liveGuards_cons (g : Guard) (guards : List Guard) (id : PageId) :
    liveGuards (g :: guards) id = liveGuards guards id + if g.pageId = id then 1 else 0 := by
  simp [liveGuards, List.countP_cons]

theorem liveGuards_append (xs ys : List Guard) (id : PageId) :
    liveGuards (xs ++ ys) id = liveGuards xs id + liveGuards ys id :=
  List.countP_append

theorem liveGuards_perm {guards guards' : List Guard} (h : guards.Perm guards') (id : PageId) :
    liveGuards guards id = liveGuards guards' id :=
  h.countP_eq _

theorem liveGuards_eq_zero {guards : List Guard} {id : PageId} :
    liveGuards guards id = 0 ↔ ∀ g ∈ guards, g.pageId ≠ id := by
  simp [liveGuards, List.countP_eq_zero]

theorem liveGuards_pos {guards : List Guard} {g : Guard} (h : g ∈ guards) :
    0 < liveGuards guards g.pageId := by
  rw [liveGuards, List.countP_pos_iff]
  exact ⟨g, h, by simp⟩

/-- One element of a list, and the others. -/
theorem eraseIdx_perm {α : Type} {xs : List α} {i : ℕ} {x : α} (h : xs[i]? = some x) :
    (x :: xs.eraseIdx i).Perm xs := by
  obtain ⟨hi, hget⟩ := List.getElem?_eq_some_iff.mp h
  rw [← hget]
  exact List.getElem_cons_eraseIdx_perm hi

theorem mem_guard {r : Request} {addr : ℕ} {g : Guard} (h : g ∈ r.guard addr) :
    g.pageId = r.pageId ∧ g.addr = addr ∧ g.len = r.data.length := by
  unfold Request.guard at h
  split at h
  · rw [List.mem_singleton.mp h]
    exact ⟨rfl, rfl, rfl⟩
  · exact (List.not_mem_nil h).elim

namespace BufferPool

variable {π : Type} {p q : BufferPool π} {guards writers : List Guard} {pending : ℕ}

/-- The frame of the guard's page is the one the guard points into. -/
def Backs (p : BufferPool π) (g : Guard) : Prop :=
  ∃ frame, p.frames.lookup g.pageId = some frame ∧ frame.addr = g.addr ∧
    frame.data.length = g.len

/-- Every guard has its buffer, and every frame counts its guards. -/
structure Pins (p : BufferPool π) (guards : List Guard) : Prop where
  backed : ∀ g ∈ guards, p.Backs g
  counts : ∀ id frame, p.frames.lookup id = some frame →
    frame.info.pinCount = liveGuards guards id

/-- A clean frame on which no writer is live holds the bytes of the store. -/
def Clean (p : BufferPool π) (writers : List Guard) : Prop :=
  ∀ id frame, p.frames.lookup id = some frame → frame.info.dirty = false → NoWriter writers id →
    p.store.pages id = some frame.data

/-- The bytes in use are those of the frames and `pending` more. -/
def Ledger (p : BufferPool π) (pending : ℕ) : Prop := p.usedBytes = p.residentBytes + pending

theorem Backs.view {g : Guard} (h : p.Backs g) : p.view g = p.content g.pageId := by
  obtain ⟨frame, hframe, haddr, -⟩ := h
  simp [BufferPool.view, content, hframe, haddr]

/-! ## Frames that stay as they are -/

theorem Pins.congr (h : Pins p guards) (hframes : q.frames = p.frames) : Pins q guards where
  backed g hg := by
    unfold Backs
    rw [hframes]
    exact h.backed g hg
  counts := by
    rw [hframes]
    exact h.counts

theorem Pins.perm {guards' : List Guard} (h : Pins p guards) (hperm : guards.Perm guards') :
    Pins p guards' where
  backed g hg := h.backed g (hperm.mem_iff.mpr hg)
  counts id frame hframe := (h.counts id frame hframe).trans (liveGuards_perm hperm id)

/-- The page of a live guard is resident and pinned. -/
theorem Pins.resident (h : Pins p guards) {g : Guard} (hg : g ∈ guards) :
    ∃ frame, p.frames.lookup g.pageId = some frame ∧ 0 < frame.info.pinCount := by
  obtain ⟨frame, hframe, -⟩ := h.backed g hg
  refine ⟨frame, hframe, ?_⟩
  rw [h.counts _ frame hframe]
  exact liveGuards_pos hg

theorem Pins.free_of_absent (h : Pins p guards) {id : PageId}
    (habsent : p.frames.lookup id = none) : liveGuards guards id = 0 := by
  rw [liveGuards_eq_zero]
  intro g hg hid
  obtain ⟨frame, hframe, -⟩ := h.resident hg
  rw [hid, habsent] at hframe
  cases hframe

theorem Clean.congr (h : Clean p writers) (hframes : q.frames = p.frames)
    (hpages : q.store.pages = p.store.pages) : Clean q writers := by
  unfold Clean
  rw [hframes, hpages]
  exact h

theorem Clean.mono {writers' : List Guard} (h : Clean p writers)
    (hwriters : ∀ id, NoWriter writers' id → NoWriter writers id) : Clean p writers' :=
  fun id frame hframe hdirty hno => h id frame hframe hdirty (hwriters id hno)

theorem content_congr (hframes : q.frames = p.frames) (hpages : q.store.pages = p.store.pages) :
    q.content = p.content := by
  funext k
  unfold content
  rw [hframes, hpages]

/-! ## Changes of metadata -/

theorem Backs.setInfo {g : Guard} (h : p.Backs g) (id : PageId) (f : PageMeta → PageMeta) :
    (p.setInfo id f).Backs g := by
  obtain ⟨frame, hframe, hrest⟩ := h
  by_cases hg : g.pageId = id
  · refine ⟨{ frame with info := f frame.info }, ?_, hrest⟩
    rw [lookup_setInfo, if_pos hg, ← hg, hframe]
    rfl
  · refine ⟨frame, ?_, hrest⟩
    rw [lookup_setInfo, if_neg hg, hframe]

/-- One counter changes with the guards on its page. -/
theorem Pins.setInfo {guards' : List Guard} (h : Pins p guards) {id : PageId}
    {f : PageMeta → PageMeta} (hbacked : ∀ g ∈ guards', p.Backs g)
    (hother : ∀ k, k ≠ id → liveGuards guards' k = liveGuards guards k)
    (hcount : ∀ frame, p.frames.lookup id = some frame →
      (f frame.info).pinCount = liveGuards guards' id) : Pins (p.setInfo id f) guards' where
  backed g hg := (hbacked g hg).setInfo id f
  counts k frame hframe := by
    rw [lookup_setInfo] at hframe
    by_cases hk : k = id
    · subst hk
      rw [if_pos rfl, Option.map_eq_some_iff] at hframe
      obtain ⟨old, hold, rfl⟩ := hframe
      exact hcount old hold
    · rw [if_neg hk] at hframe
      rw [h.counts k frame hframe, hother k hk]

/-- The dirty bit of one frame changes, perhaps with the writers on its page. -/
theorem Clean.setInfo {writers' : List Guard} (h : Clean p writers) {id : PageId}
    {f : PageMeta → PageMeta} (hother : ∀ k, k ≠ id → NoWriter writers' k → NoWriter writers k)
    (hclean : ∀ frame, p.frames.lookup id = some frame → (f frame.info).dirty = false →
      NoWriter writers' id → p.store.pages id = some frame.data) :
    Clean (p.setInfo id f) writers' := by
  intro k frame hframe hdirty hno
  rw [store_setInfo]
  rw [lookup_setInfo] at hframe
  by_cases hk : k = id
  · subst hk
    rw [if_pos rfl, Option.map_eq_some_iff] at hframe
    obtain ⟨old, hold, rfl⟩ := hframe
    exact hclean old hold hdirty hno
  · rw [if_neg hk] at hframe
    exact h k frame hframe hdirty (hother k hk hno)

theorem Ledger.setInfo (h : Ledger p pending) (id : PageId) (f : PageMeta → PageMeta) :
    Ledger (p.setInfo id f) pending := by
  unfold Ledger
  rw [usedBytes_setInfo, residentBytes_setInfo, h]

theorem Pins.setDirty (h : Pins p guards) (id : PageId) {f : PageMeta → PageMeta}
    (hf : ∀ m, (f m).pinCount = m.pinCount) : Pins (p.setInfo id f) guards :=
  h.setInfo h.backed (fun _ _ => rfl) fun frame hframe =>
    (hf frame.info).trans (h.counts id frame hframe)

/-- A page is marked dirty; writers on it may leave. -/
theorem Clean.markDirty {writers' : List Guard} (h : Clean p writers) {id : PageId}
    (hother : ∀ k, k ≠ id → NoWriter writers' k → NoWriter writers k) :
    Clean (p.markDirty id) writers' :=
  h.setInfo hother fun _ _ hdirty => by cases hdirty

theorem Clean.clearDirty (h : Clean p writers) {id : PageId}
    (hstore : ∀ frame, p.frames.lookup id = some frame → NoWriter writers id →
      p.store.pages id = some frame.data) : Clean (p.clearDirty id) writers :=
  h.setInfo (fun _ _ hno => hno) fun frame hframe _ hno => hstore frame hframe hno

/-- A guard on the page goes. -/
theorem Pins.unpin (h : Pins p guards) {g : Guard} {rest : List Guard}
    (hperm : guards.Perm (g :: rest)) : Pins (p.unpin g.pageId) rest := by
  have hcount : ∀ k, liveGuards guards k = liveGuards rest k + if g.pageId = k then 1 else 0 :=
    fun k => by rw [liveGuards_perm hperm, liveGuards_cons]
  apply h.setInfo
  · intro g' hg'
    exact h.backed g' (hperm.mem_iff.mpr (List.mem_cons_of_mem g hg'))
  · intro k hk
    rw [hcount k, if_neg (Ne.symm hk), add_zero]
  · intro frame hframe
    have hpins := h.counts g.pageId frame hframe
    rw [hcount, if_pos rfl] at hpins
    dsimp only
    omega

theorem Clean.unpin (h : Clean p writers) (id : PageId) : Clean (p.unpin id) writers :=
  h.setInfo (fun _ _ hno => hno) fun frame hframe hdirty hno => h id frame hframe hdirty hno

/-! ## Hits -/

theorem lookupAndPin_some {E : EvictionPolicy π} {id : PageId} {mutable : Bool} {g : Guard}
    (h : p.lookupAndPin E id mutable = some (g, q)) :
    ∃ frame, p.frames.lookup id = some frame ∧
      g = ⟨id, frame.addr, frame.data.length, mutable⟩ ∧
      q = { p.setInfo id (countPin p.tick) with
        tick := (p.tick + 1) % 2 ^ 64
        eviction := E.onAccess id p.eviction } := by
  unfold lookupAndPin at h
  split at h
  case h_1 frame hframe =>
    cases h
    exact ⟨frame, hframe, rfl, rfl⟩
  case h_2 => cases h

theorem lookupAndPin_none (E : EvictionPolicy π) {id : PageId} {mutable : Bool} :
    p.lookupAndPin E id mutable = none ↔ p.frames.lookup id = none := by
  unfold lookupAndPin
  cases p.frames.lookup id <;> simp

/-- A hit adds a guard, if the counter has room for it. -/
theorem Pins.hit (h : Pins p guards) {id : PageId} {frame : Frame}
    (hframe : p.frames.lookup id = some frame) (hroom : frame.info.pinCount + 1 < 2 ^ 16)
    (mutable : Bool) : Pins (p.setInfo id (countPin p.tick))
      (⟨id, frame.addr, frame.data.length, mutable⟩ :: guards) := by
  apply h.setInfo
  · intro g hg
    rcases List.mem_cons.mp hg with hnew | hg
    · rw [hnew]
      exact ⟨frame, hframe, rfl, rfl⟩
    · exact h.backed g hg
  · intro k hk
    rw [liveGuards_cons, if_neg (Ne.symm hk), add_zero]
  · intro frame' hframe'
    rw [hframe] at hframe'
    cases hframe'
    rw [liveGuards_cons, if_pos rfl, ← h.counts id frame hframe]
    exact Nat.mod_eq_of_lt hroom

/-! ## Insertions -/

theorem lookup_insertFrame (p : BufferPool π) (r : Request) (tick : ℕ) (k : PageId) :
    (p.insertFrame r tick).frames.lookup k =
      if k = r.pageId then some ⟨r.data, r.info tick, p.nextAddr⟩ else p.frames.lookup k := by
  by_cases hk : k = r.pageId
  · rw [if_pos hk, hk]
    exact AList.lookup_insert p.frames
  · rw [if_neg hk]
    exact AList.lookup_insert_ne hk

/-- A page without guards gets a new frame, with the guard of the request. -/
theorem Pins.insertFrame (h : Pins p guards) {r : Request} (tick : ℕ)
    (hfree : liveGuards guards r.pageId = 0) :
    Pins (p.insertFrame r tick) (r.guard p.nextAddr ++ guards) where
  backed g hg := by
    rcases List.mem_append.mp hg with hnew | hold
    · obtain ⟨hid, haddr, hlen⟩ := mem_guard hnew
      exact ⟨⟨r.data, r.info tick, p.nextAddr⟩, by rw [lookup_insertFrame, if_pos hid],
        haddr.symm, hlen.symm⟩
    · obtain ⟨frame, hframe, hrest⟩ := h.backed g hold
      refine ⟨frame, ?_, hrest⟩
      rw [lookup_insertFrame, if_neg (liveGuards_eq_zero.mp hfree g hold), hframe]
  counts id frame hframe := by
    rw [lookup_insertFrame] at hframe
    rw [liveGuards_append]
    by_cases hid : id = r.pageId
    · rw [if_pos hid] at hframe
      cases hframe
      rw [hid, hfree]
      cases hpinned : r.pinned <;> simp [Request.info, Request.guard, liveGuards, hpinned]
    · rw [if_neg hid] at hframe
      have hnone : liveGuards (r.guard p.nextAddr) id = 0 := by
        rw [liveGuards_eq_zero]
        intro g hg heq
        exact hid (heq.symm.trans (mem_guard hg).1)
      rw [h.counts id frame hframe, hnone, Nat.zero_add]

/-- A page that is created is dirty; of one that is loaded the store has the bytes. -/
theorem Clean.insertFrame {writers' : List Guard} (h : Clean p writers) {r : Request} (tick : ℕ)
    (hother : ∀ k, k ≠ r.pageId → NoWriter writers' k → NoWriter writers k)
    (hstore : r.pinned.isSome → p.store.pages r.pageId = some r.data) :
    Clean (p.insertFrame r tick) writers' := by
  intro k frame hframe hdirty hno
  rw [lookup_insertFrame] at hframe
  change p.store.pages k = some frame.data
  by_cases hk : k = r.pageId
  · rw [if_pos hk] at hframe
    cases hframe
    rw [hk]
    apply hstore
    cases hpinned : r.pinned with
    | none => simp [Request.info, hpinned] at hdirty
    | some mutable => rfl
  · rw [if_neg hk] at hframe
    exact h k frame hframe hdirty (hother k hk hno)

theorem content_insertFrame (p : BufferPool π) (r : Request) (tick : ℕ) :
    (p.insertFrame r tick).content = Function.update p.content r.pageId (some r.data) := by
  funext k
  by_cases hk : k = r.pageId
  · rw [hk, Function.update_self]
    exact content_of_lookup (by rw [lookup_insertFrame p r tick, if_pos rfl])
  · rw [Function.update_of_ne hk, content, content, lookup_insertFrame, if_neg hk]
    rfl

/-- The bytes of an insertion under way are in the new frame. -/
theorem Ledger.insertFrame {r : Request} (h : Ledger p (r.data.length + pending))
    (habsent : p.frames.lookup r.pageId = none) (tick : ℕ) :
    Ledger (p.insertFrame r tick) pending := by
  unfold Ledger at h ⊢
  change p.usedBytes =
    Table.total (p.frames.insert r.pageId ⟨r.data, r.info tick, p.nextAddr⟩) _ + pending
  rw [Table.total_insert_new habsent, h, residentBytes]
  dsimp only
  omega

/-! ## Removals -/

theorem removeFrame_of_lookup {id : PageId} {frame : Frame}
    (h : p.frames.lookup id = some frame) :
    p.removeFrame id = (frame.data.length, { p with frames := p.frames.erase id }) := by
  simp [removeFrame, h]

theorem removeFrame_of_absent {id : PageId} (h : p.frames.lookup id = none) :
    p.removeFrame id = (0, p) := by
  simp [removeFrame, h]

theorem lookup_removeFrame (p : BufferPool π) (id k : PageId) :
    (p.removeFrame id).2.frames.lookup k = if k = id then none else p.frames.lookup k := by
  cases hframe : p.frames.lookup id with
  | none =>
    rw [removeFrame_of_absent hframe]
    by_cases hk : k = id
    · rw [if_pos hk, hk, hframe]
    · rw [if_neg hk]
  | some frame =>
    rw [removeFrame_of_lookup hframe]
    by_cases hk : k = id
    · rw [if_pos hk, hk]
      exact AList.lookup_erase id p.frames
    · rw [if_neg hk]
      exact AList.lookup_erase_ne hk

@[simp] theorem store_removeFrame (p : BufferPool π) (id : PageId) :
    (p.removeFrame id).2.store = p.store := by
  unfold removeFrame
  split <;> rfl

theorem lookup_of_removeFrame {id k : PageId} {frame : Frame}
    (h : (p.removeFrame id).2.frames.lookup k = some frame) : p.frames.lookup k = some frame := by
  rw [lookup_removeFrame] at h
  by_cases hk : k = id
  · rw [if_pos hk] at h
    cases h
  · rwa [if_neg hk] at h

/-- A page without guards goes. -/
theorem Pins.removeFrame (h : Pins p guards) {id : PageId} (hfree : liveGuards guards id = 0) :
    Pins (p.removeFrame id).2 guards where
  backed g hg := by
    obtain ⟨frame, hframe, hrest⟩ := h.backed g hg
    refine ⟨frame, ?_, hrest⟩
    rw [lookup_removeFrame, if_neg (liveGuards_eq_zero.mp hfree g hg), hframe]
  counts k frame hframe := h.counts k frame (lookup_of_removeFrame hframe)

theorem Clean.removeFrame (h : Clean p writers) (id : PageId) :
    Clean (p.removeFrame id).2 writers := by
  intro k frame hframe hdirty hno
  rw [store_removeFrame]
  exact h k frame (lookup_of_removeFrame hframe) hdirty hno

/-- The bytes of a frame that goes are pending until they are subtracted. -/
theorem Ledger.removeFrame (h : Ledger p pending) (id : PageId) :
    Ledger (p.removeFrame id).2 ((p.removeFrame id).1 + pending) := by
  unfold Ledger at h ⊢
  cases hframe : p.frames.lookup id with
  | none =>
    rw [removeFrame_of_absent hframe, h]
    dsimp only
    omega
  | some frame =>
    rw [removeFrame_of_lookup hframe]
    have htotal := Table.total_erase hframe fun frame => frame.data.length
    simp only [residentBytes] at h ⊢
    omega

theorem Ledger.subUsed {size : ℕ} (h : Ledger p (size + pending)) :
    Ledger (p.subUsed size) pending := by
  unfold Ledger at h ⊢
  change p.usedBytes - size = p.residentBytes + pending
  omega

theorem Ledger.addUsed (h : Ledger p pending) (size : ℕ) :
    Ledger (p.addUsed size) (size + pending) := by
  unfold Ledger at h ⊢
  change p.usedBytes + size = p.residentBytes + (size + pending)
  omega

theorem content_removeFrame {id : PageId} (hstore : ∀ frame, p.frames.lookup id = some frame →
    p.store.pages id = some frame.data) : (p.removeFrame id).2.content = p.content := by
  funext k
  by_cases hk : k = id
  · have habsent : (p.removeFrame id).2.content k = p.store.pages k := by
      rw [content_of_absent (by rw [lookup_removeFrame, if_pos hk]), store_removeFrame]
    rw [habsent, hk]
    cases hframe : p.frames.lookup id with
    | none => rw [content_of_absent hframe]
    | some frame => rw [content_of_lookup hframe, hstore frame hframe]
  · rw [content, content, lookup_removeFrame, if_neg hk, store_removeFrame]

/-! ## Store calls -/

theorem pages_readPage (p : BufferPool π) (id : PageId) :
    (p.readPage id).2.store.pages = p.store.pages := by
  unfold readPage ChunkStore.readPage
  split
  · rfl
  · dsimp only
    split <;> rfl

theorem readPage_ok {id : PageId} {data : Bytes} (h : (p.readPage id).1 = .ok data) :
    p.store.pages id = some data := by
  unfold readPage ChunkStore.readPage at h
  split at h
  · cases h
  · dsimp only at h
    split at h
    · cases h
      assumption
    · cases h

theorem readPage_error {id : PageId} {e : PoolError} (h : (p.readPage id).1 = .error e) :
    e = .store := by
  unfold readPage ChunkStore.readPage at h
  split at h
  · cases h
    rfl
  · dsimp only at h
    split at h
    · cases h
    · cases h
      rfl

theorem pages_writePage_ne (p : BufferPool π) (id : PageId) (data : Bytes) {k : PageId}
    (hk : k ≠ id) : (p.writePage id data).2.store.pages k = p.store.pages k := by
  unfold writePage ChunkStore.writePage
  split <;> exact Function.update_of_ne hk _ _

theorem writePage_ok {id : PageId} {data : Bytes} (h : (p.writePage id data).1 = .ok ()) :
    (p.writePage id data).2.store.pages id = some data := by
  unfold writePage ChunkStore.writePage at h ⊢
  split at h
  · cases h
  · rename_i hfails
    rw [if_neg hfails]
    exact Function.update_self _ _ _

theorem writePage_error {id : PageId} {data : Bytes} {e : PoolError}
    (h : (p.writePage id data).1 = .error e) : e = .store := by
  unfold writePage ChunkStore.writePage at h
  split at h
  · cases h
    rfl
  · cases h

/-- A frame's bytes are written back: the frame is dirty, or the write succeeds. -/
theorem Clean.writePage (h : Clean p writers) {id : PageId} {frame : Frame}
    (hframe : p.frames.lookup id = some frame)
    (hwrite : frame.info.dirty = true ∨ (p.writePage id frame.data).1 = .ok ()) :
    Clean (p.writePage id frame.data).2 writers := by
  intro k other hother hdirty hno
  have hsame : p.frames.lookup k = some other := hother
  by_cases hk : k = id
  · subst hk
    rw [hframe] at hsame
    cases hsame
    rcases hwrite with htrue | hok
    · rw [hdirty] at htrue
      cases htrue
    · exact writePage_ok hok
  · rw [pages_writePage_ne p id frame.data hk]
    exact h k other hsame hdirty hno

/-- What the store holds of a resident page does not matter. -/
theorem content_writePage {id : PageId} {frame : Frame} (hframe : p.frames.lookup id = some frame)
    (data : Bytes) : (p.writePage id data).2.content = p.content := by
  funext k
  by_cases hk : k = id
  · rw [hk, content_of_lookup hframe]
    exact content_of_lookup hframe
  · unfold content
    rw [pages_writePage_ne p id data hk]
    rfl

/-! ## Writes through guards -/

theorem lookup_poke {g : Guard} (h : p.Backs g) (off : ℕ) (byte : UInt8) (k : PageId) :
    (p.poke g off byte).frames.lookup k =
      if k = g.pageId then
        (p.frames.lookup k).map fun frame => { frame with data := frame.data.set off byte }
      else p.frames.lookup k := by
  obtain ⟨frame, hframe, haddr, -⟩ := h
  by_cases hk : k = g.pageId
  · subst hk
    simp [poke, hframe, haddr]
  · simp [poke, hframe, haddr, hk, AList.lookup_insert_ne hk]

@[simp] theorem store_poke (p : BufferPool π) (g : Guard) (off : ℕ) (byte : UInt8) :
    (p.poke g off byte).store = p.store := by
  unfold poke
  split
  · split <;> rfl
  · rfl

theorem Pins.poke (h : Pins p guards) {g : Guard} (hg : p.Backs g) (off : ℕ) (byte : UInt8) :
    Pins (p.poke g off byte) guards where
  backed g' hg' := by
    obtain ⟨frame, hframe, haddr, hlen⟩ := h.backed g' hg'
    by_cases hk : g'.pageId = g.pageId
    · refine ⟨{ frame with data := frame.data.set off byte }, ?_, haddr,
        List.length_set.trans hlen⟩
      rw [lookup_poke hg, if_pos hk, hframe]
      rfl
    · exact ⟨frame, by rw [lookup_poke hg, if_neg hk, hframe], haddr, hlen⟩
  counts k frame hframe := by
    rw [lookup_poke hg] at hframe
    by_cases hk : k = g.pageId
    · rw [if_pos hk, Option.map_eq_some_iff] at hframe
      obtain ⟨old, hold, rfl⟩ := hframe
      exact h.counts k old hold
    · rw [if_neg hk] at hframe
      exact h.counts k frame hframe

/-- A writer may change its page. -/
theorem Clean.poke (h : Clean p writers) {g : Guard} (hg : p.Backs g) (hmem : g ∈ writers)
    (hmut : g.mutable = true) (off : ℕ) (byte : UInt8) : Clean (p.poke g off byte) writers := by
  intro k frame hframe hdirty hno
  rw [store_poke]
  rw [lookup_poke hg] at hframe
  by_cases hk : k = g.pageId
  · have hread := hno g hmem hk.symm
    rw [hmut] at hread
    cases hread
  · rw [if_neg hk] at hframe
    exact h k frame hframe hdirty hno

theorem Ledger.poke (h : Ledger p pending) (g : Guard) (off : ℕ) (byte : UInt8) :
    Ledger (p.poke g off byte) pending := by
  unfold BufferPool.poke
  cases hframe : p.frames.lookup g.pageId with
  | none => exact h
  | some frame =>
    by_cases haddr : frame.addr = g.addr
    · simp only [if_pos haddr]
      have hreplace := Table.total_replace hframe { frame with data := frame.data.set off byte }
        fun frame => frame.data.length
      simp only [Ledger, residentBytes, List.length_set] at h hreplace ⊢
      omega
    · simp only [if_neg haddr]
      exact h

theorem content_poke {g : Guard} (hg : p.Backs g) (off : ℕ) (byte : UInt8) :
    (p.poke g off byte).content =
      Function.update p.content g.pageId ((p.content g.pageId).map (·.set off byte)) := by
  funext k
  by_cases hk : k = g.pageId
  · obtain ⟨frame, hframe, -⟩ := id hg
    rw [hk, Function.update_self, content_of_lookup hframe]
    exact content_of_lookup (by rw [lookup_poke hg off byte, if_pos rfl, hframe]; rfl)
  · rw [Function.update_of_ne hk, content, content, lookup_poke hg, if_neg hk, store_poke]

end BufferPool

end AirHuim
