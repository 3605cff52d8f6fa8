import AirHuim.BufferPool.Threads

/-!
# Between the accesses of an operation

A flush tests the dirty bit, looks the frame up again, writes it and clears the bit in
four accesses, an eviction removes the frame in a fifth, and a pin that has missed inserts
some accesses later what it has read. In between the thread relies on what it has found.
The accesses of other threads take nothing of that away, if they do not come at the
wrong moment.
-/

namespace AirHuim

open Library

variable {π : Type}

/-! ## Where a thread is -/

/-- The page that the thread has found dirty and has yet to write. -/
def Pc.flushes : Pc → Option PageId
  | .frameLookup id _ => some id
  | .writing id _ _ => some id
  | _ => none

/-- The page that it has written and whose dirty bit it has yet to clear. -/
def Pc.clears : Pc → Option PageId
  | .clearing id _ => some id
  | _ => none

/-- The page that it has flushed and has yet to remove. -/
def Pc.removes : Pc → Option PageId
  | .removing id _ => some id
  | _ => none

def Job.request? : Job → Option Request
  | .room r => some r
  | _ => none

/-- What a pin or `insert_page` is to insert. -/
def Pc.request? : Pc → Option Request
  | .testing r => some r
  | .choosing job => job.request?
  | .dirtyTest _ job => job.request?
  | .frameLookup _ job => job.request?
  | .writing _ _ job => job.request?
  | .clearing _ job => job.request?
  | .removing _ job => job.request?
  | .subtracting _ _ job => job.request?
  | .telling _ job => job.request?
  | .adding r => some r
  | .inserting r _ => some r
  | _ => none

def Request.loads (r : Request) : Option PageId := if r.pinned.isSome then some r.pageId else none

/-- The page that a pin has missed and has yet to insert. -/
def Pc.loads : Pc → Option PageId
  | .missed id _ _ => some id
  | pc => pc.request?.bind Request.loads

/-- The thread is not between the write of the page and the clearing of its bit, nor
between its flush and its removal, nor between its miss and its insertion. -/
def Pc.Leaves (pc : Pc) (id : PageId) : Prop :=
  pc.clears ≠ some id ∧ pc.removes ≠ some id ∧ pc.loads ≠ some id

instance (pc : Pc) (id : PageId) : Decidable (pc.Leaves id) :=
  inferInstanceAs (Decidable (_ ∧ _ ∧ _))

theorem Pc.loads_of_request {pc : Pc} {r : Request} (hr : pc.request? = some r)
    (hpinned : r.pinned.isSome) : pc.loads = some r.pageId := by
  have hloads : r.loads = some r.pageId := if_pos hpinned
  cases pc with
  | missed id mutable elapsedNs => cases hr
  | _ => simpa only [Pc.loads, hr, Option.bind_some] using hloads

theorem Pc.exists_request {pc : Pc} {id : PageId} (h : pc.loads = some id) :
    (∃ mutable elapsedNs, pc = .missed id mutable elapsedNs) ∨
      ∃ r, pc.request? = some r ∧ r.pinned.isSome ∧ r.pageId = id := by
  have hbind : ∀ o : Option Request, o.bind Request.loads = some id →
      ∃ r, o = some r ∧ r.pinned.isSome ∧ r.pageId = id := by
    intro o ho
    obtain ⟨r, rfl, hr⟩ := Option.bind_eq_some_iff.mp ho
    unfold Request.loads at hr
    split_ifs at hr with hpinned
    exact ⟨r, rfl, hpinned, Option.some.inj hr⟩
  cases pc with
  | missed id' mutable elapsedNs =>
    obtain rfl : id' = id := Option.some.inj h
    exact Or.inl ⟨mutable, elapsedNs, rfl⟩
  | _ => exact Or.inr (hbind _ h)

/-- The thread itself loads nothing where it drops a guard or inserts a new page. -/
theorem Pc.loads_of_dropping (pc : Pc) (g : Guard) (h : pc = .dropping g) :
    pc.loads ≠ some g.pageId := by
  subst h
  exact nofun

theorem Pc.loads_of_inserting (pc : Pc) (r : Request) (tick : ℕ) (h : pc = .inserting r tick)
    (hnone : r.pinned = none) : pc.loads ≠ some r.pageId := by
  subst h
  simp [Pc.loads, Pc.request?, Request.loads, hnone]

/-! ## What an access does to a page -/

section Access

variable {E : EvictionPolicy π} {p q : BufferPool π} {pc next : Pc} {handed others : List Guard}
  {id : PageId}

theorem setInfo_frame {f : PageMeta → PageMeta} {k : PageId} {frame' : Frame}
    (h : (p.setInfo k f).frames.lookup id = some frame') :
    ∃ frame, p.frames.lookup id = some frame ∧ frame'.data = frame.data ∧
      frame'.addr = frame.addr ∧
      frame'.info = if id = k then f frame.info else frame.info := by
  rw [BufferPool.lookup_setInfo] at h
  split_ifs at h with hk
  · obtain ⟨frame, hframe, rfl⟩ := Option.map_eq_some_iff.mp h
    exact ⟨frame, hk ▸ hframe, rfl, rfl, (if_pos hk).symm⟩
  · exact ⟨frame', h, rfl, rfl, (if_neg hk).symm⟩

/-- A frame was there before with the same buffer, and was dirty if it is, unless a guard
on it has just been dropped; or it is a new one. -/
theorem Access.frame_cases (h : Access E p pc next handed q) {frame' : Frame}
    (hframe' : q.frames.lookup id = some frame') :
    (∃ frame, p.frames.lookup id = some frame ∧ frame'.data = frame.data ∧
      frame'.addr = frame.addr ∧ (frame'.info.dirty = true → frame.info.dirty = false →
        ∃ g, pc = .dropping g ∧ g.pageId = id)) ∨
      ∃ r tick, pc = .inserting r tick ∧ r.pageId = id ∧
        frame' = ⟨r.data, r.info tick, p.nextAddr⟩ := by
  have hsame : p.frames.lookup id = some frame' → ∃ frame, p.frames.lookup id = some frame ∧
      frame'.data = frame.data ∧ frame'.addr = frame.addr ∧ (frame'.info.dirty = true →
        frame.info.dirty = false → ∃ g, pc = .dropping g ∧ g.pageId = id) := by
    intro hframe
    refine ⟨frame', hframe, rfl, rfl, fun hdirty hclean => ?_⟩
    rw [hdirty] at hclean
    cases hclean
  have hkept : ∀ {k : PageId} {f : PageMeta → PageMeta},
    (∀ m, (f m).dirty = true → m.dirty = true) →
      (p.setInfo k f).frames.lookup id = some frame' → ∃ frame, p.frames.lookup id = some frame ∧
        frame'.data = frame.data ∧ frame'.addr = frame.addr ∧ (frame'.info.dirty = true →
          frame.info.dirty = false → ∃ g, pc = .dropping g ∧ g.pageId = id) := by
    intro k f hf hset
    obtain ⟨frame, hframe, hdata, haddr, hinfo⟩ := setInfo_frame hset
    refine ⟨frame, hframe, hdata, haddr, fun hdirty hclean => ?_⟩
    have hold : frame.info.dirty = true := by
      rw [hinfo] at hdirty
      split_ifs at hdirty
      · exact hf _ hdirty
      · exact hdirty
    rw [hclean] at hold
    cases hold
  cases h with
  | stay _ => exact Or.inl (hsame hframe')
  | quiet frames _ _ _ _ _ _ _ => exact Or.inl (hsame (frames ▸ hframe'))
  | @hit k mutable elapsedNs frame lookup =>
    exact Or.inl (hkept (k := k) (f := BufferPool.countPin p.tick) (fun _ hdirty => hdirty) hframe')
  | panic _ => exact Or.inl (hsame hframe')
  | readFreed _ => exact Or.inl (hsame hframe')
  | write _ _ => exact Or.inl (hsame hframe')
  | clear => exact Or.inl (hkept (fun _ hdirty => by cases hdirty) hframe')
  | remove => exact Or.inl (hsame (BufferPool.lookup_of_removeFrame hframe'))
  | sub => exact Or.inl (hsame hframe')
  | add => exact Or.inl (hsame hframe')
  | @insert r tick =>
    rw [BufferPool.lookup_insertFrame] at hframe'
    split_ifs at hframe' with hid
    · exact Or.inr ⟨r, tick, rfl, hid.symm, (Option.some.inj hframe').symm⟩
    · exact Or.inl (hsame hframe')
  | hand => exact Or.inl (hsame hframe')
  | @mark g =>
    obtain ⟨frame, hframe, hdata, haddr, hinfo⟩ := setInfo_frame hframe'
    refine Or.inl ⟨frame, hframe, hdata, haddr, fun hdirty hclean => ⟨g, rfl, ?_⟩⟩
    by_contra hid
    rw [hinfo, if_neg (Ne.symm hid), hclean] at hdirty
    cases hdirty
  | @unpin g =>
    exact Or.inl (hkept (k := g.pageId) (f := fun m => { m with pinCount := m.pinCount - 1 })
      (fun _ hdirty => hdirty) hframe')

/-- A page leaves the pool where its frame is removed. -/
theorem Access.resident (h : Access E p pc next handed q)
    (hframe : (p.frames.lookup id).isSome) (hremoves : pc.removes ≠ some id) :
    (q.frames.lookup id).isSome := by
  have hset : ∀ (k : PageId) (f : PageMeta → PageMeta),
      ((p.setInfo k f).frames.lookup id).isSome := by
    intro k f
    rw [BufferPool.lookup_setInfo]
    split_ifs with hk
    · rwa [Option.isSome_map, ← hk]
    · exact hframe
  cases h with
  | quiet frames _ _ _ _ _ _ _ => rwa [frames]
  | hit lookup => exact hset _ _
  | clear => exact hset _ _
  | mark => exact hset _ _
  | unpin => exact hset _ _
  | @remove k job =>
    have hid : id ≠ k := fun hid => hremoves (congrArg some hid.symm)
    rwa [BufferPool.lookup_removeFrame, if_neg hid]
  | @insert r tick =>
    rw [BufferPool.lookup_insertFrame]
    split_ifs
    · rfl
    · exact hframe
  | _ => exact hframe

/-- The store changes where a frame is written. -/
theorem Access.pages_cases (h : Access E p pc next handed q) (id : PageId) :
    q.store.pages id = p.store.pages id ∨ ∃ frame job, p.frames.lookup id = some frame ∧
      pc = .writing id frame.addr job ∧ q = (p.writePage id frame.data).2 := by
  cases h with
  | quiet _ pages _ _ _ _ _ _ => exact Or.inl (congrFun pages id)
  | hit _ => exact Or.inl (congrFun (congrArg ChunkStore.pages (BufferPool.store_setInfo ..)) id)
  | clear => exact Or.inl (congrFun (congrArg ChunkStore.pages (BufferPool.store_setInfo ..)) id)
  | mark => exact Or.inl (congrFun (congrArg ChunkStore.pages (BufferPool.store_setInfo ..)) id)
  | unpin => exact Or.inl (congrFun (congrArg ChunkStore.pages (BufferPool.store_setInfo ..)) id)
  | remove =>
    exact Or.inl (congrFun (congrArg ChunkStore.pages (BufferPool.store_removeFrame ..)) id)
  | @write k job next frame lookup _ =>
    by_cases hid : id = k
    · subst hid
      exact Or.inr ⟨frame, job, lookup, rfl, rfl⟩
    · exact Or.inl (BufferPool.pages_writePage_ne p k frame.data hid)
  | _ => exact Or.inl rfl

/-- A writer of a page goes where its guard marks the page. -/
theorem Access.noWriter (h : Access E p pc next handed q)
    (hdropping : ∀ g, pc = .dropping g → g.pageId ≠ id)
    (hno : NoWriter ((handed ++ next.writers) ++ others) id) :
    NoWriter (pc.writers ++ others) id := by
  cases h with
  | stay _ => exact hno
  | quiet _ _ _ _ _ _ before after =>
    rw [after.writers] at hno
    rwa [before.writers]
  | hit _ => exact fun g hg => hno g (List.mem_cons_of_mem _ hg)
  | write _ after =>
    rw [after.writers] at hno
    exact hno
  | @clear k job =>
    rw [(job.afterFlush_passive k).writers] at hno
    exact hno
  | insert => exact fun g hg => hno g (List.mem_append_right _ hg)
  | @hand k guards =>
    intro g hg
    refine hno g ?_
    rwa [List.append_assoc]
  | @mark g =>
    intro g' hg' hid
    rcases List.mem_cons.mp hg' with rfl | hg'
    · exact (hdropping g' rfl hid).elim
    · exact hno g' hg' hid
  | _ => exact hno

end Access

/-! ## What a thread relies on -/

/-- What a thread has found of the page that it flushes or removes. -/
structure Pc.FlushKept (p : BufferPool π) (writers : List Guard) (pc : Pc) : Prop where
  resident : ∀ id, pc.flushes = some id → (p.frames.lookup id).isSome
  buffer : ∀ id addr job frame, pc = .writing id addr job → p.frames.lookup id = some frame →
    frame.addr = addr
  wrote : ∀ id frame, pc.clears = some id → p.frames.lookup id = some frame →
    NoWriter writers id → p.store.pages id = some frame.data
  clean : ∀ id frame, pc.removes = some id → p.frames.lookup id = some frame →
    frame.info.dirty = false

/-- What a pin has found of the page that it loads. -/
structure Pc.LoadKept (p : BufferPool π) (writers : List Guard) (pc : Pc) : Prop where
  clean : ∀ id frame, pc.loads = some id → p.frames.lookup id = some frame →
    frame.info.dirty = false
  bytes : ∀ r, pc.request? = some r → r.pinned.isSome → NoWriter writers r.pageId →
    p.content r.pageId = some r.data

/-- What the access does not come between, in the operation of thread `o`: no guard
marks a page, and no `insert_page` replaces its frame, while `o` is about to clear or
remove or insert it; no frame is removed or replaced that `o` is about to write; and no
write fails of a page whose bit `o` is about to clear. -/
def Pc.Heeds (p : BufferPool π) (pc o : Pc) : Prop :=
  match pc with
  | .dropping g => o.Leaves g.pageId
  | .writing id _ _ => p.store.fails p.store.calls = false ∨ o.clears ≠ some id
  | .removing id _ => o.flushes ≠ some id
  | .inserting r _ => o.flushes ≠ some r.pageId ∧ (r.pinned = none → o.Leaves r.pageId)
  | _ => True

instance (p : BufferPool π) (pc o : Pc) : Decidable (pc.Heeds p o) :=
  match pc with
  | .dropping g => inferInstanceAs (Decidable (o.Leaves g.pageId))
  | .writing id _ _ =>
    inferInstanceAs (Decidable (p.store.fails p.store.calls = false ∨ o.clears ≠ some id))
  | .removing id _ => inferInstanceAs (Decidable (o.flushes ≠ some id))
  | .inserting r _ => inferInstanceAs (Decidable (o.flushes ≠ some r.pageId ∧
      (r.pinned = none → o.Leaves r.pageId)))
  | .idle | .pinning .. | .missed .. | .testing _ | .choosing _ | .dirtyTest .. | .frameLookup ..
  | .clearing .. | .subtracting .. | .telling .. | .adding _ | .inserted .. | .unpinning _
  | .panicked | .freed => isTrue trivial

section Kept

variable {E : EvictionPolicy π} {p q : BufferPool π} {pc next o : Pc} {handed others : List Guard}

/-- A pin that is under way keeps what it relies on. -/
theorem Pc.LoadKept.access (h : o.LoadKept p (pc.writers ++ others))
    (haccess : Access E p pc next handed q)
    (hmark : ∀ g, pc = .dropping g → o.loads ≠ some g.pageId)
    (hinsert : ∀ r tick, pc = .inserting r tick → r.pinned = none → o.loads ≠ some r.pageId)
    (hcontent : q.content = pc.creates p.content) :
    o.LoadKept q ((handed ++ next.writers) ++ others) := by
  constructor
  · intro id frame' hloads hframe'
    rcases haccess.frame_cases hframe' with ⟨frame, hframe, -, -, hdirty⟩ | ⟨r, tick, hpc, rfl, rfl⟩
    · by_contra hnot
      obtain ⟨g, hpc, rfl⟩ := hdirty (by simpa using hnot) (h.clean id frame hloads hframe)
      exact hmark g hpc hloads
    · cases hpinned : r.pinned with
      | none => exact (hinsert r tick hpc hpinned hloads).elim
      | some mutable => simp [Request.info, hpinned]
  · intro r hr hpinned hno
    have hloads := Pc.loads_of_request hr hpinned
    have hold := h.bytes r hr hpinned (haccess.noWriter (fun g hpc hid =>
      hmark g hpc (hid ▸ hloads)) hno)
    rw [hcontent]
    cases pc with
    | inserting r' tick =>
      cases hnew : r'.pinned with
      | none =>
        have hne : r.pageId ≠ r'.pageId := fun hid => hinsert r' tick rfl hnew (hid ▸ hloads)
        simp only [Pc.creates, hnew, Function.update_of_ne hne]
        exact hold
      | some mutable =>
        simp only [Pc.creates, hnew]
        exact hold
    | _ => exact hold

/-- What a pin is about to insert is in the store. -/
theorem Pc.LoadKept.pages {writers : List Guard} (h : pc.LoadKept p writers)
    (hclean : BufferPool.Clean p writers) {r : Request} (hr : pc.request? = some r)
    (hpinned : r.pinned.isSome) (hno : NoWriter writers r.pageId) :
    p.store.pages r.pageId = some r.data := by
  have hbytes := h.bytes r hr hpinned hno
  cases hframe : p.frames.lookup r.pageId with
  | none => rwa [BufferPool.content_of_absent hframe] at hbytes
  | some frame =>
    rw [BufferPool.content_of_lookup hframe] at hbytes
    rw [← hbytes]
    exact hclean _ frame hframe (h.clean _ frame (Pc.loads_of_request hr hpinned) hframe) hno

/-- And so does a thread in the middle of a flush or an eviction. -/
theorem Pc.FlushKept.access (h : o.FlushKept p (pc.writers ++ others))
    (haccess : Access E p pc next handed q) (hheeds : pc.Heeds p o)
    (hload : pc.LoadKept p (pc.writers ++ others))
    (hclean : BufferPool.Clean p (pc.writers ++ others))
    (hinsert : ∀ r tick, pc = .inserting r tick → NoWriter (pc.writers ++ others) r.pageId) :
    o.FlushKept q ((handed ++ next.writers) ++ others) := by
  constructor
  · intro id hflushes
    refine haccess.resident (h.resident id hflushes) fun hremoves => ?_
    cases pc with
    | removing k job =>
      obtain rfl : k = id := Option.some.inj hremoves
      exact hheeds hflushes
    | _ => cases hremoves
  · intro id addr job frame' ho hframe'
    rcases haccess.frame_cases hframe' with ⟨frame, hframe, -, haddr, -⟩ | ⟨r, tick, hpc, rfl, rfl⟩
    · exact haddr.trans (h.buffer id addr job frame ho hframe)
    · subst hpc ho
      exact (hheeds.1 rfl).elim
  · intro id frame' hclears hframe' hno
    have hleaves : ∀ g, pc = .dropping g → g.pageId ≠ id := by
      rintro g rfl rfl
      exact hheeds.1 hclears
    rcases haccess.frame_cases hframe' with ⟨frame, hframe, hdata, -, -⟩ | ⟨r, tick, hpc, rfl, rfl⟩
    · have hold := h.wrote id frame hclears hframe (haccess.noWriter hleaves hno)
      rw [hdata]
      rcases haccess.pages_cases id with hsame | ⟨written, job, hwritten, rfl, rfl⟩
      · rw [hsame, hold]
      · obtain rfl : written = frame := Option.some.inj (hwritten.symm.trans hframe)
        have hworks := hheeds.resolve_right fun hne => hne hclears
        simp [BufferPool.writePage, ChunkStore.writePage, hworks]
    · subst hpc
      have hpinned : r.pinned.isSome := by
        by_contra hnone
        exact (hheeds.2 (by simpa using hnone)).1 hclears
      rcases haccess.pages_cases r.pageId with hsame | ⟨_, _, _, hpc, _⟩
      · rw [hsame]
        exact hload.pages hclean rfl hpinned (hinsert r tick rfl)
      · cases hpc
  · intro id frame' hremoves hframe'
    rcases haccess.frame_cases hframe' with ⟨frame, hframe, -, -, hdirty⟩ | ⟨r, tick, hpc, rfl, rfl⟩
    · by_contra hnot
      obtain ⟨g, rfl, rfl⟩ := hdirty (by simpa using hnot) (h.clean id frame hremoves hframe)
      exact hheeds.2.1 hremoves
    · subst hpc
      cases hpinned : r.pinned with
      | none => exact ((hheeds.2 hpinned).2.1 hremoves).elim
      | some mutable => simp [Request.info, hpinned]

/-! ## What a thread has found -/

theorem Pc.FlushKept.of_none {writers : List Guard} (hflushes : pc.flushes = none)
    (hclears : pc.clears = none) (hremoves : pc.removes = none) : pc.FlushKept p writers where
  resident id h := by simp [hflushes] at h
  buffer id addr job frame h := by simp [h, Pc.flushes] at hflushes
  wrote id frame h := by simp [hclears] at h
  clean id frame h := by simp [hremoves] at h

theorem Pc.FlushKept.afterFlush {writers : List Guard} (job : Job) {id : PageId}
    (h : ∀ frame, p.frames.lookup id = some frame → frame.info.dirty = false) :
    (job.afterFlush id).FlushKept p writers := by
  have hremoving : ∀ job, (Pc.removing id job).FlushKept p writers := by
    intro job
    refine ⟨fun _ h => (by cases h), fun _ _ _ _ h => (by cases h), fun _ _ h => (by cases h), ?_⟩
    intro k frame hk hframe
    obtain rfl : id = k := Option.some.inj hk
    exact h frame hframe
  cases job with
  | flush => exact .of_none rfl rfl rfl
  | evict => exact hremoving _
  | room r => exact hremoving _

variable (E) in
/-- After its own access a thread relies on what it has just found or done. -/
theorem Pc.flushKept_step (order : FrameOrder) (p : BufferPool π) (pc : Pc)
    (writers : List Guard) :
    (pc.step E order p).1.FlushKept (pc.step E order p).2.2 writers := by
  cases pc with
  | pinning id mutable elapsedNs =>
    simp only [Pc.step]
    split <;> exact .of_none rfl rfl rfl
  | missed id mutable elapsedNs =>
    simp only [Pc.step]
    split <;> exact .of_none rfl rfl rfl
  | testing r =>
    simp only [Pc.step]
    split <;> exact .of_none rfl rfl rfl
  | choosing job =>
    simp only [Pc.step]
    split <;> exact .of_none rfl rfl rfl
  | dirtyTest id job =>
    simp only [Pc.step]
    unfold BufferPool.isDirty
    cases hframe : p.frames.lookup id with
    | none => exact .afterFlush job fun frame h => by cases hframe.symm.trans h
    | some frame =>
      dsimp only
      split_ifs with hdirty
      · refine ⟨?_, fun _ _ _ _ h => (by cases h), fun _ _ h => (by cases h),
          fun _ _ h => (by cases h)⟩
        intro k hk
        obtain rfl : id = k := Option.some.inj hk
        rw [hframe]
        rfl
      · refine .afterFlush job fun frame' h => ?_
        obtain rfl : frame = frame' := Option.some.inj (hframe.symm.trans h)
        simpa using hdirty
  | frameLookup id job =>
    simp only [Pc.step]
    cases hframe : p.frames.lookup id with
    | none => exact .of_none rfl rfl rfl
    | some frame =>
      refine ⟨?_, ?_, fun _ _ h => (by cases h), fun _ _ h => (by cases h)⟩
      · intro k hk
        obtain rfl : id = k := Option.some.inj hk
        exact Option.isSome_of_mem hframe
      · intro k addr job' frame' hk hframe'
        cases hk
        obtain rfl : frame = frame' := Option.some.inj (hframe.symm.trans hframe')
        rfl
  | writing id addr job =>
    simp only [Pc.step]
    cases hframe : p.frames.lookup id with
    | none => exact .of_none rfl rfl rfl
    | some frame =>
      dsimp only
      split_ifs
      · split
        · rename_i q hwrite
          refine ⟨fun _ h => (by cases h), fun _ _ _ _ h => (by cases h), ?_,
            fun _ _ h => (by cases h)⟩
          intro k frame' hk hframe' _
          obtain rfl : id = k := Option.some.inj hk
          have hok : (p.writePage id frame.data).1 = .ok () := by rw [hwrite]
          obtain rfl : q = (p.writePage id frame.data).2 := by rw [hwrite]
          obtain rfl : frame = frame' := Option.some.inj (hframe.symm.trans hframe')
          exact BufferPool.writePage_ok hok
        · exact .of_none rfl rfl rfl
      · exact .of_none rfl rfl rfl
  | clearing id job =>
    refine .afterFlush job fun frame' hframe' => ?_
    obtain ⟨frame, -, -, -, hinfo⟩ := setInfo_frame hframe'
    rw [hinfo, if_pos rfl]
  | telling id job => cases job <;> exact .of_none rfl rfl rfl
  | _ => exact .of_none rfl rfl rfl

theorem Pc.LoadKept.of_none {writers : List Guard}
    (h : pc.loads = none) : pc.LoadKept p writers where
  clean id frame hid := by simp [h] at hid
  bytes r hr hpinned := by simp [Pc.loads_of_request hr hpinned] at h

/-- Going on with the same request. -/
theorem Pc.LoadKept.of_same {writers : List Guard} (h : pc.LoadKept p writers)
    (hloads : next.loads = pc.loads) (hrequest : next.request? = pc.request?) :
    next.LoadKept p writers where
  clean id frame hid := h.clean id frame (hloads ▸ hid)
  bytes r hr := h.bytes r (hrequest ▸ hr)

variable (E) in
/-- And a pin relies on its miss and on what it has read. -/
theorem Pc.LoadKept.step (order : FrameOrder) {writers : List Guard}
    (h : pc.LoadKept (pc.step E order p).2.2 writers)
    (hclean : BufferPool.Clean (pc.step E order p).2.2 writers) :
    (pc.step E order p).1.LoadKept (pc.step E order p).2.2 writers := by
  cases pc with
  | pinning id mutable elapsedNs =>
    simp only [Pc.step]
    cases hlookup : p.lookupAndPin E id mutable with
    | some r => exact .of_none rfl
    | none =>
      refine ⟨?_, fun _ h => (by cases h)⟩
      intro k frame hk hframe
      obtain rfl : id = k := Option.some.inj hk
      cases ((BufferPool.lookupAndPin_none E).mp hlookup).symm.trans hframe
  | missed id mutable elapsedNs =>
    simp only [Pc.step] at h hclean ⊢
    rcases hread : p.readPage id with ⟨e | data, q⟩
    · exact .of_none rfl
    · rw [hread] at h hclean
      obtain rfl : q = (p.readPage id).2 := by rw [hread]
      have hdata : (p.readPage id).2.store.pages id = some data := by
        rw [BufferPool.pages_readPage]
        exact BufferPool.readPage_ok (by rw [hread])
      refine ⟨h.clean, ?_⟩
      intro r hr _ hno
      obtain rfl := Option.some.inj hr
      cases hframe : (p.readPage id).2.frames.lookup id with
      | none => exact (BufferPool.content_of_absent hframe).trans hdata
      | some frame =>
        have hstore := hclean id frame hframe (h.clean id frame rfl hframe) hno
        rw [BufferPool.content_of_lookup hframe, ← hstore]
        exact hdata
  | testing r =>
    simp only [Pc.step] at h ⊢
    split <;> exact h.of_same rfl rfl
  | choosing job =>
    simp only [Pc.step] at h ⊢
    split
    · rename_i hchoose
      rw [hchoose] at h
      exact h.of_same rfl rfl
    · exact .of_none rfl
  | dirtyTest id job =>
    simp only [Pc.step] at h ⊢
    split_ifs
    · exact h.of_same rfl rfl
    · cases job with
      | flush => exact .of_none rfl
      | evict => exact .of_none rfl
      | room r => exact h.of_same rfl rfl
  | frameLookup id job =>
    simp only [Pc.step] at h ⊢
    cases hframe : p.frames.lookup id with
    | none => exact .of_none rfl
    | some frame =>
      rw [hframe] at h
      exact h.of_same rfl rfl
  | writing id addr job =>
    simp only [Pc.step] at h ⊢
    cases hframe : p.frames.lookup id with
    | none => exact .of_none rfl
    | some frame =>
      rw [hframe] at h
      dsimp only at h ⊢
      split_ifs at h ⊢
      · split
        · rename_i hwrite
          rw [hwrite] at h
          exact h.of_same rfl rfl
        · exact .of_none rfl
      · exact .of_none rfl
  | clearing id job =>
    cases job with
    | flush => exact .of_none rfl
    | evict => exact .of_none rfl
    | room r => exact h.of_same rfl rfl
  | removing id job => exact h.of_same rfl rfl
  | subtracting id size job => exact h.of_same rfl rfl
  | telling id job =>
    cases job with
    | flush => exact .of_none rfl
    | evict => exact .of_none rfl
    | room r => exact h.of_same rfl rfl
  | adding r => exact h.of_same rfl rfl
  | _ => exact .of_none rfl

/-! ## Fewer guards that write, and bytes that are written through one -/

theorem Pc.FlushKept.mono {writers writers' : List Guard} (h : pc.FlushKept p writers)
    (hno : ∀ id, NoWriter writers' id → NoWriter writers id) : pc.FlushKept p writers' :=
  ⟨h.resident, h.buffer, fun id frame hid hframe hw => h.wrote id frame hid hframe (hno id hw),
    h.clean⟩

theorem Pc.LoadKept.mono {writers writers' : List Guard} (h : pc.LoadKept p writers)
    (hno : ∀ id, NoWriter writers' id → NoWriter writers id) : pc.LoadKept p writers' :=
  ⟨h.clean, fun r hr hpinned hw => h.bytes r hr hpinned (hno _ hw)⟩

theorem poke_frame {g : Guard} (hg : p.Backs g) {off : ℕ} {byte : UInt8} {id : PageId}
    {frame' : Frame} (h : (p.poke g off byte).frames.lookup id = some frame') :
    ∃ frame, p.frames.lookup id = some frame ∧ frame'.addr = frame.addr ∧
      frame'.info = frame.info ∧ (id ≠ g.pageId → frame'.data = frame.data) := by
  rw [BufferPool.lookup_poke hg] at h
  split_ifs at h with hid
  · obtain ⟨frame, hframe, rfl⟩ := Option.map_eq_some_iff.mp h
    exact ⟨frame, hframe, rfl, rfl, fun hne => (hne hid).elim⟩
  · exact ⟨frame', h, rfl, rfl, fun _ => rfl⟩

/-- A page that is written through a guard has a writer. -/
theorem ne_of_noWriter {writers : List Guard} {g : Guard} (hmem : g ∈ writers)
    (hmut : g.mutable = true) {id : PageId} (hno : NoWriter writers id) : id ≠ g.pageId := by
  rintro rfl
  have hread := hno g hmem rfl
  rw [hmut] at hread
  cases hread

theorem Pc.FlushKept.poke {writers : List Guard} (h : pc.FlushKept p writers) {g : Guard}
    (hg : p.Backs g) (hmem : g ∈ writers) (hmut : g.mutable = true) (off : ℕ) (byte : UInt8) :
    pc.FlushKept (p.poke g off byte) writers := by
  constructor
  · intro id hid
    rw [BufferPool.lookup_poke hg]
    split_ifs
    · rw [Option.isSome_map]
      exact h.resident id hid
    · exact h.resident id hid
  · intro id addr job frame' hid hframe'
    obtain ⟨frame, hframe, haddr, -⟩ := poke_frame hg hframe'
    exact haddr.trans (h.buffer id addr job frame hid hframe)
  · intro id frame' hid hframe' hno
    obtain ⟨frame, hframe, -, -, hdata⟩ := poke_frame hg hframe'
    rw [BufferPool.store_poke, hdata (ne_of_noWriter hmem hmut hno)]
    exact h.wrote id frame hid hframe hno
  · intro id frame' hid hframe'
    obtain ⟨frame, hframe, -, hinfo, -⟩ := poke_frame hg hframe'
    rw [hinfo]
    exact h.clean id frame hid hframe

theorem Pc.LoadKept.poke {writers : List Guard} (h : pc.LoadKept p writers) {g : Guard}
    (hg : p.Backs g) (hmem : g ∈ writers) (hmut : g.mutable = true) (off : ℕ) (byte : UInt8) :
    pc.LoadKept (p.poke g off byte) writers := by
  constructor
  · intro id frame' hid hframe'
    obtain ⟨frame, hframe, -, hinfo, -⟩ := poke_frame hg hframe'
    rw [hinfo]
    exact h.clean id frame hid hframe
  · intro r hr hpinned hno
    rw [BufferPool.content_poke hg, Function.update_of_ne (ne_of_noWriter hmem hmut hno)]
    exact h.bytes r hr hpinned hno

end Kept

end AirHuim
