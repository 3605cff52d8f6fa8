import AirHuim.BufferPool.Session

/-!
# The pool under the LRU policy

The policy numbers its touches with a clock of its own and takes the unpinned
page with the smallest number. Against a log of the pins and insertions, latest
first, that is the page with the oldest last touch, whatever order the frames
are shown in, as long as the clock has not come to the largest `u64`; and a page
is refused exactly if the pages under guards leave no room for it.
-/

namespace AirHuim

open Library

/-! ## The scan -/

namespace LruPolicy

/-- What the scan has found among the frames seen so far. -/
structure Scanned (s : LruPolicy) (frames : List (PageId × PageMeta)) (best : ℕ × Option PageId) :
    Prop where
  le : ∀ e ∈ frames, e.2.isPinned = false → ∀ time, s.lastAccess.lookup e.1 = some time →
    best.1 ≤ time
  found : ∀ id, best.2 = some id → s.lastAccess.lookup id = some best.1 ∧ best.1 < u64Max ∧
    ∃ info, (id, info) ∈ frames ∧ info.isPinned = false
  none : best.2 = none → best.1 = u64Max

theorem Scanned.scanFrame {s : LruPolicy} {frames : List (PageId × PageMeta)}
    {best : ℕ × Option PageId} (h : Scanned s frames best) (frame : PageId × PageMeta) :
    Scanned s (frames ++ [frame]) (s.scanFrame best frame) := by
  have hkeep : (frame.2.isPinned = false → ∀ time, s.lastAccess.lookup frame.1 = some time →
      best.1 ≤ time) → Scanned s (frames ++ [frame]) best := by
    intro hframe
    refine ⟨fun e he hpin => ?_, fun _ hid => ?_, h.none⟩
    · rcases List.mem_append.mp he with he | he
      · exact h.le e he hpin
      · obtain rfl := List.mem_singleton.mp he
        exact hframe hpin
    · obtain ⟨hlookup, hlt, info, hmem, hpin⟩ := h.found _ hid
      exact ⟨hlookup, hlt, info, List.mem_append_left _ hmem, hpin⟩
  unfold LruPolicy.scanFrame
  cases hpin : frame.2.isPinned with
  | true => exact hkeep fun hfalse => (Bool.false_ne_true (hfalse.symm.trans hpin)).elim
  | false =>
    cases hlookup : s.lastAccess.lookup frame.1 with
    | none => exact hkeep fun _ time htime => by rw [hlookup] at htime; cases htime
    | some time =>
      by_cases hlt : time < best.1
      · simp only [if_pos hlt]
        have hmax : best.1 ≤ u64Max := by
          cases hbest : best.2 with
          | none => exact (h.none hbest).le
          | some _ => exact (h.found _ hbest).2.1.le
        refine ⟨fun e he hfree t ht => ?_, fun _ hid => ?_, fun hnone => by cases hnone⟩
        · rcases List.mem_append.mp he with he | he
          · exact hlt.le.trans (h.le e he hfree t ht)
          · obtain rfl := List.mem_singleton.mp he
            rw [hlookup] at ht
            cases ht
            exact le_rfl
        · cases hid
          exact ⟨hlookup, hlt.trans_le hmax, frame.2,
            List.mem_append_right _ (List.mem_singleton_self frame), hpin⟩
      · simp only [if_neg hlt]
        exact hkeep fun _ t ht => by
          rw [hlookup] at ht
          cases ht
          omega

/-- The victim is a page of the list that is not pinned and has the smallest
time of these; without a victim there is none with a time below the largest `u64`. -/
theorem scanned_foldl (s : LruPolicy) (frames : List (PageId × PageMeta)) :
    Scanned s frames (frames.foldl s.scanFrame (u64Max, none)) := by
  induction frames using List.reverseRecOn with
  | nil => exact ⟨nofun, nofun, fun _ => rfl⟩
  | append_singleton frames frame ih =>
    rw [List.foldl_append]
    exact ih.scanFrame frame

end LruPolicy

namespace BufferPool

variable {p q : BufferPool LruPolicy} {guards : List Guard} {log : List PageId}

/-- The policy's times are the positions in the log of touches, latest first. -/
structure Recent (p : BufferPool LruPolicy) (log : List PageId) : Prop where
  clock : p.eviction.clock = log.length
  fits : log.length ≤ u64Max
  touched : ∀ id, p.frames.lookup id ≠ none → id ∈ log ∧
    p.eviction.lastAccess.lookup id = some (log.length - log.idxOf id)

theorem Recent.new (budgetBytes : ℕ) (store : ChunkStore) :
    Recent (BufferPool.new budgetBytes store LruPolicy.new) [] where
  clock := rfl
  fits := Nat.zero_le _
  touched _ h := (h rfl).elim

/-- The policy is not told anything, and no page comes. -/
theorem Recent.congr (h : Recent p log) (heviction : q.eviction = p.eviction)
    (hresident : ∀ id, q.frames.lookup id ≠ none → p.frames.lookup id ≠ none) : Recent q log where
  clock := by rw [heviction, h.clock]
  fits := h.fits
  touched id hid := by
    rw [heviction]
    exact h.touched id (hresident id hid)

/-- A page is touched; it may have come with that. -/
theorem Recent.touch (h : Recent p log) (hroom : log.length < u64Max) {id : PageId}
    (heviction : q.eviction = p.eviction.touch id)
    (hresident : ∀ k, k ≠ id → q.frames.lookup k ≠ none → p.frames.lookup k ≠ none) :
    Recent q (id :: log) := by
  have hclock : (p.eviction.clock + 1) % 2 ^ 64 = log.length + 1 := by
    rw [h.clock]
    exact Nat.mod_eq_of_lt (by unfold u64Max at hroom; omega)
  refine ⟨?_, hroom, fun k hk => ?_⟩
  · rw [heviction]
    exact hclock
  · rw [heviction]
    by_cases hid : k = id
    · subst hid
      refine ⟨List.mem_cons_self, ?_⟩
      rw [List.idxOf_cons_self]
      simp only [LruPolicy.touch, hclock]
      exact AList.lookup_insert _
    · obtain ⟨hmem, htime⟩ := h.touched k (hresident k hid hk)
      refine ⟨List.mem_cons_of_mem id hmem, ?_⟩
      rw [List.idxOf_cons_ne _ (Ne.symm hid)]
      simp only [LruPolicy.touch, AList.lookup_insert_ne hid, htime, List.length_cons]
      congr 1
      omega

/-- A page goes. -/
theorem Recent.evict (h : Recent p log) {id : PageId}
    (heviction : q.eviction = p.eviction.onEvict id) (hgone : q.frames.lookup id = none)
    (hresident : ∀ k, q.frames.lookup k ≠ none → p.frames.lookup k ≠ none) : Recent q log where
  clock := by rw [heviction]; exact h.clock
  fits := h.fits
  touched k hk := by
    obtain ⟨hmem, htime⟩ := h.touched k (hresident k hk)
    have hid : k ≠ id := fun hid => hk (hid ▸ hgone)
    refine ⟨hmem, ?_⟩
    rw [heviction]
    exact (AList.lookup_erase_ne hid).trans htime

/-- A page comes. -/
theorem Recent.install (h : Recent p log) {id : PageId} (hroom : log.length < u64Max) {r : Request}
    (hid : r.pageId = id) : Recent (p.install LruPolicy.policy r) (id :: log) := by
  apply h.touch hroom
  · rw [← hid]
    rfl
  · intro k hk
    rw [lookup_install, hid, if_neg hk]
    exact fun hresident => hresident

theorem absent_of_install {π : Type} {E : EvictionPolicy π} {p : BufferPool π} {r : Request}
    {k : PageId} (h : (p.install E r).frames.lookup k = none) : p.frames.lookup k = none := by
  rw [lookup_install] at h
  split at h
  · cases h
  · exact h

/-- Of the resident pages without guards, `id` was touched last the longest ago. -/
structure Oldest (guards : List Guard) (log : List PageId) (p : BufferPool LruPolicy)
    (id : PageId) : Prop where
  resident : p.frames.lookup id ≠ none
  free : liveGuards guards id = 0
  touched : id ∈ log
  oldest : ∀ k, p.frames.lookup k ≠ none → liveGuards guards k = 0 → k ≠ id →
    log.idxOf k < log.idxOf id

theorem isPinned_iff {π : Type} {p : BufferPool π} (h : Pins p guards) {id : PageId} {frame : Frame}
    (hframe : p.frames.lookup id = some frame) :
    frame.info.isPinned = false ↔ liveGuards guards id = 0 := by
  simp [PageMeta.isPinned, h.counts id frame hframe]

theorem mem_snapshot_of_lookup {π : Type} (p : BufferPool π) (order : FrameOrder) {id : PageId}
    {frame : Frame} (h : p.frames.lookup id = some frame) :
    (id, frame.info) ∈ p.snapshot order := by
  refine (order.perm p.iterations _).mem_iff.mpr (List.mem_map.mpr ⟨⟨id, frame⟩, ?_, rfl⟩)
  exact AList.mem_lookup_iff.mp h

variable {order : FrameOrder}

/-- The victim is the right one. -/
theorem oldest_victim (hpins : Pins p guards) (h : Recent p log) {id : PageId}
    (hid : (p.chooseVictim LruPolicy.policy order).1 = some id) : Oldest guards log p id := by
  have hscan := LruPolicy.scanned_foldl p.eviction (p.snapshot order)
  obtain ⟨htime, -, info, hmem, hpin⟩ := hscan.found id hid
  obtain ⟨frame, hframe, rfl⟩ := p.mem_snapshot order hmem
  have hresident : p.frames.lookup id ≠ none := by
    rw [hframe]
    exact Option.some_ne_none frame
  obtain ⟨htouched, hnumber⟩ := h.touched id hresident
  refine ⟨hresident, (isPinned_iff hpins hframe).mp hpin, htouched, fun k hk hfree hne => ?_⟩
  obtain ⟨frame', hframe'⟩ := Option.ne_none_iff_exists'.mp hk
  obtain ⟨htouched', hnumber'⟩ := h.touched k hk
  have hle := hscan.le _ (p.mem_snapshot_of_lookup order hframe')
    ((isPinned_iff hpins hframe').mpr hfree) _ hnumber'
  rw [hnumber, Option.some.injEq] at htime
  rw [← htime] at hle
  have hlt := List.idxOf_lt_length_of_mem htouched
  have hlt' := List.idxOf_lt_length_of_mem htouched'
  have hidx : log.idxOf k ≠ log.idxOf id := fun heq => hne ((List.idxOf_inj htouched').mp heq)
  omega

/-- Without a victim, and with the clock not at its end, every page is guarded. -/
theorem guarded_of_no_victim (hpins : Pins p guards) (h : Recent p log)
    (hclock : log.length < u64Max) (hnone : (p.chooseVictim LruPolicy.policy order).1 = none)
    {id : PageId} (hid : p.frames.lookup id ≠ none) : 0 < liveGuards guards id := by
  have hscan := LruPolicy.scanned_foldl p.eviction (p.snapshot order)
  obtain ⟨frame, hframe⟩ := Option.ne_none_iff_exists'.mp hid
  obtain ⟨-, hnumber⟩ := h.touched id hid
  rw [Nat.pos_iff_ne_zero]
  intro hfree
  have hle := hscan.le _ (p.mem_snapshot_of_lookup order hframe)
    ((isPinned_iff hpins hframe).mpr hfree) _ hnumber
  have hmax := hscan.none hnone
  omega

/-! ## Evictions -/

theorem eviction_setInfo {π : Type} (p : BufferPool π) (id : PageId) (f : PageMeta → PageMeta) :
    (p.setInfo id f).eviction = p.eviction := by
  unfold setInfo
  split <;> rfl

theorem eviction_poke {π : Type} (p : BufferPool π) (g : Guard) (off : ℕ) (byte : UInt8) :
    (p.poke g off byte).eviction = p.eviction := by
  unfold poke
  split
  · split <;> rfl
  · rfl

theorem fails_writePage {π : Type} (p : BufferPool π) (id : PageId) (data : Bytes) :
    (p.writePage id data).2.store.fails = p.store.fails := by
  unfold writePage ChunkStore.writePage
  split <;> rfl

theorem fails_readPage {π : Type} (p : BufferPool π) (id : PageId) :
    (p.readPage id).2.store.fails = p.store.fails := by
  unfold readPage ChunkStore.readPage
  split
  · rfl
  · dsimp only
    split <;> rfl

/-- A flush tells the policy nothing. -/
theorem flush_rest {π : Type} (p : BufferPool π) (id : PageId) :
    (p.flush id).2.eviction = p.eviction ∧ (p.flush id).2.store.fails = p.store.fails := by
  cases hdirty : p.isDirty id with
  | false =>
    rw [flush_of_clean hdirty]
    exact ⟨rfl, rfl⟩
  | true =>
    cases hframe : p.frames.lookup id with
    | none => simp [isDirty, hframe] at hdirty
    | some frame =>
      rw [isDirty_of_lookup hframe] at hdirty
      have hfails := fails_writePage p id frame.data
      have heviction : (p.writePage id frame.data).2.eviction = p.eviction := rfl
      rcases hwrite : p.writePage id frame.data with ⟨e | ⟨⟩, p'⟩
      · rw [flush_of_error hframe hdirty hwrite]
        rw [hwrite] at hfails heviction
        exact ⟨heviction, hfails⟩
      · rw [flush_of_ok hframe hdirty hwrite]
        rw [hwrite] at hfails heviction
        dsimp only at hfails heviction
        rw [clearDirty, eviction_setInfo, store_setInfo]
        exact ⟨heviction, hfails⟩

theorem flush_ok_of_works {π : Type} {p : BufferPool π} (hworks : ∀ n, p.store.fails n = false)
    (id : PageId) : (p.flush id).1 = .ok () := by
  cases hdirty : p.isDirty id with
  | false => rw [flush_of_clean hdirty]
  | true =>
    cases hframe : p.frames.lookup id with
    | none => simp [isDirty, hframe] at hdirty
    | some frame =>
      rw [isDirty_of_lookup hframe] at hdirty
      have hwrite : p.writePage id frame.data = (.ok (), (p.writePage id frame.data).2) := by
        simp [writePage, ChunkStore.writePage, hworks]
      rw [flush_of_ok hframe hdirty hwrite]

theorem eviction_removeFrame {π : Type} (p : BufferPool π) (id : PageId) :
    (p.removeFrame id).2.eviction = p.eviction := by
  unfold removeFrame
  split <;> rfl

/-- How an eviction ends, the pages' contents apart: as it began, or without the victim. -/
theorem evictOne_rest {π : Type} {p : BufferPool π} (E : EvictionPolicy π) (order : FrameOrder)
    (hgood : Good p guards) :
    (p.evictOne E order).2.store.fails = p.store.fails ∧
      (((p.evictOne E order).2.eviction = p.eviction ∧
          (∀ id, (p.evictOne E order).1 ≠ .ok (some id)) ∧
          ∀ k, (p.evictOne E order).2.frames.lookup k = none → p.frames.lookup k = none) ∨
        ∃ id, (p.chooseVictim E order).1 = some id ∧ (p.evictOne E order).1 = .ok (some id) ∧
          (p.evictOne E order).2.eviction = E.onEvict id p.eviction ∧
          (p.evictOne E order).2.frames.lookup id = none ∧
          ∀ k, k ≠ id → (p.evictOne E order).2.frames.lookup k = none →
            p.frames.lookup k = none) := by
  have hchosen := chooseVictim_keeps E order hgood
  have hsame : (p.chooseVictim E order).2.eviction = p.eviction := rfl
  rcases evictOne_cases E order p with ⟨-, heq⟩ | ⟨id, hid, ⟨e, -, heq⟩ | ⟨-, heq⟩⟩
  · rw [heq]
    exact ⟨rfl, Or.inl ⟨rfl, nofun, fun _ hk => hk⟩⟩
  · rw [heq]
    obtain ⟨heviction, hfails⟩ := flush_rest (p.chooseVictim E order).2 id
    have hflush := flush_flushes hchosen.good id
    exact ⟨hfails, Or.inl ⟨heviction, nofun, hflush.resident⟩⟩
  · rw [heq]
    obtain ⟨heviction, hfails⟩ := flush_rest (p.chooseVictim E order).2 id
    have hflush := flush_flushes hchosen.good id
    set p₂ := ((p.chooseVictim E order).2.flush id).2
    have hlookup : ∀ k, (((p₂.removeFrame id).2.subUsed (p₂.removeFrame id).1).noteEvict E
        id).frames.lookup k = if k = id then none else p₂.frames.lookup k :=
      lookup_removeFrame p₂ id
    refine ⟨(congrArg ChunkStore.fails (store_removeFrame p₂ id)).trans hfails,
      Or.inr ⟨id, hid, rfl, ?_, ?_, fun k hk hnone => ?_⟩⟩
    · change E.onEvict id (p₂.removeFrame id).2.eviction = _
      rw [eviction_removeFrame, heviction, hsame]
    · rw [hlookup, if_pos rfl]
    · rw [hlookup, if_neg hk] at hnone
      exact hflush.resident k hnone

/-- An eviction keeps the times right. -/
theorem Recent.evictOne (h : Recent p log) (hgood : Good p guards) (order : FrameOrder) :
    Recent (p.evictOne LruPolicy.policy order).2 log := by
  have hkeeps := (evictOne_spec order LruPolicy.lawful hgood).1
  have hresident : ∀ k, (p.evictOne LruPolicy.policy order).2.frames.lookup k ≠ none →
      p.frames.lookup k ≠ none := fun k hk hnone => hk (hkeeps.absent k hnone)
  obtain ⟨-, ⟨heviction, -⟩ | ⟨id, -, -, heviction, hgone, -⟩⟩ :=
    evictOne_rest LruPolicy.policy order hgood
  · exact h.congr heviction hresident
  · exact h.evict heviction hgone hresident

section Loop

variable {π : Type} (E : EvictionPolicy π) (order : FrameOrder)

/-- The victims of the eviction loop, each with the pool it was picked from. -/
def makeRoomVictims (size : ℕ) : ℕ → BufferPool π → List (BufferPool π × PageId)
  | 0, _ => []
  | fuel + 1, p =>
    if p.overBudget size then
      match p.evictOne E order with
      | (.ok (some id), q) => (p, id) :: makeRoomVictims size fuel q
      | _ => []
    else []

variable {E} {p : BufferPool π}

/-- A round of the loop: it is over, or a page went. -/
theorem makeRoom_round (size fuel : ℕ) :
    (makeRoomVictims E order size (fuel + 1) p = [] ∧
        ((makeRoom E order size (fuel + 1) p).2 = p ∨
          (∀ id, (p.evictOne E order).1 ≠ .ok (some id)) ∧
            (makeRoom E order size (fuel + 1) p).2 = (p.evictOne E order).2)) ∨
      ∃ id, (p.evictOne E order).1 = .ok (some id) ∧
        makeRoomVictims E order size (fuel + 1) p =
          (p, id) :: makeRoomVictims E order size fuel (p.evictOne E order).2 ∧
        makeRoom E order size (fuel + 1) p = makeRoom E order size fuel (p.evictOne E order).2 := by
  cases hover : p.overBudget size with
  | false =>
    refine Or.inl ⟨by simp [makeRoomVictims, hover], Or.inl ?_⟩
    rw [makeRoom_of_fits _ hover]
  | true =>
    rcases hevict : p.evictOne E order with ⟨e | _ | id, q⟩
    · refine Or.inl ⟨by simp [makeRoomVictims, hover, hevict], Or.inr ⟨nofun, ?_⟩⟩
      rw [makeRoom_of_error fuel hover hevict]
    · refine Or.inl ⟨by simp [makeRoomVictims, hover, hevict], Or.inr ⟨nofun, ?_⟩⟩
      rw [makeRoom_of_none fuel hover hevict]
    · exact Or.inr ⟨id, rfl, by simp [makeRoomVictims, hover, hevict],
        makeRoom_of_some fuel hover hevict⟩

end Loop

/-- What the eviction loop does under LRU: the times stay right, every victim is
the oldest page, and no other page goes. -/
structure MadeRoom (guards : List Guard) (log : List PageId) (p q : BufferPool LruPolicy)
    (victims : List (BufferPool LruPolicy × PageId)) : Prop where
  recent : Recent q log
  fails : q.store.fails = p.store.fails
  oldest : ∀ e ∈ victims, Oldest guards log e.1 e.2
  gone : ∀ k, q.frames.lookup k = none → p.frames.lookup k = none ∨ k ∈ victims.map Prod.snd

theorem makeRoom_lru (h : Recent p log) (hgood : Good p guards) (order : FrameOrder)
    (size fuel : ℕ) : MadeRoom guards log p (makeRoom LruPolicy.policy order size fuel p).2
      (makeRoomVictims LruPolicy.policy order size fuel p) := by
  induction fuel generalizing p with
  | zero =>
    have hsame : (makeRoom LruPolicy.policy order size 0 p).2 = p := by
      unfold makeRoom
      split <;> rfl
    rw [hsame]
    exact ⟨h, rfl, fun _ he => (List.not_mem_nil he).elim, fun _ hk => Or.inl hk⟩
  | succ fuel ih =>
    have hrecent := h.evictOne hgood order
    have hnext := (evictOne_spec order LruPolicy.lawful hgood).1.good
    obtain ⟨hfails, hcases⟩ := evictOne_rest LruPolicy.policy order hgood
    rcases makeRoom_round order size fuel with ⟨hnone, hsame | ⟨hno, hsame⟩⟩ |
      ⟨id, hid, hvictims, hrest⟩
    · rw [hnone, hsame]
      exact ⟨h, rfl, fun _ he => (List.not_mem_nil he).elim, fun _ hk => Or.inl hk⟩
    · rw [hnone, hsame]
      rcases hcases with ⟨-, -, hresident⟩ | ⟨id, -, hid, -⟩
      · exact ⟨hrecent, hfails, fun _ he => (List.not_mem_nil he).elim,
          fun k hk => Or.inl (hresident k hk)⟩
      · exact (hno id hid).elim
    · rw [hvictims, hrest]
      obtain ⟨hrecent', hfails', holdest, hgone⟩ := ih hrecent hnext
      rcases hcases with ⟨-, hno, -⟩ | ⟨id', hchosen, hid', -, -, hothers⟩
      · exact (hno id hid).elim
      · rw [hid'] at hid
        cases hid
        refine ⟨hrecent', hfails'.trans hfails, fun e he => ?_, fun k hk => ?_⟩
        · rcases List.mem_cons.mp he with rfl | he
          · exact oldest_victim hgood.pins h hchosen
          · exact holdest e he
        · rw [List.map_cons, List.mem_cons]
          by_cases hk' : k = id
          · exact Or.inr (Or.inl hk')
          · exact (hgone k hk).imp (hothers k hk') Or.inr

/-! ## The room that can be made -/

/-- The total size of the pages with live guards. -/
def guardedBytes {π : Type} (guards : List Guard) (p : BufferPool π) : ℕ :=
  ((guards.map Guard.pageId).dedup.map fun id => ((p.content id).getD []).length).sum

theorem guardedBytes_keeps {π : Type} {p q : BufferPool π} (h : Keeps guards p q) :
    guardedBytes guards q = guardedBytes guards p := by
  simp only [guardedBytes, h.content]

/-- The ledger, page by page. -/
theorem residentBytes_eq {π : Type} (p : BufferPool π) :
    p.residentBytes = (p.frames.keys.map fun id => ((p.content id).getD []).length).sum := by
  simp only [residentBytes, Table.total, AList.keys, List.keys, List.map_map]
  congr 1
  refine List.map_congr_left fun e he => ?_
  have hframe : p.frames.lookup e.1 = some e.2 := AList.mem_lookup_iff.mpr he
  simp [content, hframe]

theorem mem_guarded {id : PageId} :
    id ∈ (guards.map Guard.pageId).dedup ↔ 0 < liveGuards guards id := by
  simp [liveGuards, List.countP_pos_iff]

theorem sum_le_of_subset {ids ids' : List PageId} (hnodup : ids.Nodup) (h : ids ⊆ ids')
    (size : PageId → ℕ) : (ids.map size).sum ≤ (ids'.map size).sum := by
  obtain ⟨kept, hperm, hsub⟩ := hnodup.subperm h
  rw [← (hperm.map size).sum_eq]
  exact (hsub.map size).sum_le_sum fun _ _ => Nat.zero_le _

theorem guardedBytes_le {π : Type} {p : BufferPool π} (h : Good p guards) :
    guardedBytes guards p ≤ p.usedBytes := by
  have hused : p.usedBytes = p.residentBytes := h.ledger
  have hsubset : (guards.map Guard.pageId).dedup ⊆ p.frames.keys := by
    intro id hid
    obtain ⟨g, hg, rfl⟩ := List.mem_map.mp (List.mem_dedup.mp hid)
    obtain ⟨frame, hframe, -⟩ := h.pins.resident hg
    exact AList.mem_keys.mp (AList.lookup_isSome.mp (by rw [hframe]; rfl))
  rw [hused, residentBytes_eq]
  exact sum_le_of_subset (List.nodup_dedup _) hsubset _

/-- With a guard on every resident page nothing can go. -/
theorem guardedBytes_eq {π : Type} {p : BufferPool π} (h : Good p guards)
    (hall : ∀ id, p.frames.lookup id ≠ none → 0 < liveGuards guards id) :
    guardedBytes guards p = p.usedBytes := by
  have hused : p.usedBytes = p.residentBytes := h.ledger
  apply le_antisymm (guardedBytes_le h)
  have hsubset : p.frames.keys ⊆ (guards.map Guard.pageId).dedup := by
    intro id hid
    have hsome := AList.lookup_isSome.mpr (AList.mem_keys.mpr hid)
    exact mem_guarded.mpr (hall id (Option.isSome_iff_ne_none.mp hsome))
  rw [hused, residentBytes_eq]
  exact sum_le_of_subset p.frames.nodupKeys hsubset _

/-- Refused as `full` if there is no room, and else answered. -/
def FullExactly {α : Type} (answer : Except PoolError α) (noRoom : Prop) : Prop :=
  (noRoom ∧ ∃ used budget, answer = .error (.full used budget)) ∨ ¬noRoom ∧ ∃ a, answer = .ok a

theorem FullExactly.of_error {α β : Type} {noRoom : Prop} {e : PoolError}
    (h : FullExactly (.error e : Except PoolError α) noRoom) :
    FullExactly (.error e : Except PoolError β) noRoom := by
  rcases h with ⟨hno, used, budget, herror⟩ | ⟨-, a, hok⟩
  · cases herror
    exact Or.inl ⟨hno, used, budget, rfl⟩
  · cases hok

theorem FullExactly.of_ok {α β : Type} {noRoom : Prop} {a : α} {b : β}
    (h : FullExactly (.ok a) noRoom) : FullExactly (.ok b) noRoom := by
  rcases h with ⟨-, used, budget, herror⟩ | ⟨hroom, -, -⟩
  · cases herror
  · exact Or.inr ⟨hroom, b, rfl⟩

/-- The loop makes room exactly if the pages under guards leave it. -/
theorem makeRoom_full (h : Recent p log) (hgood : Good p guards) (hclock : log.length < u64Max)
    (hworks : ∀ n, p.store.fails n = false) (order : FrameOrder) (size : ℕ) {fuel : ℕ}
    (hfuel : p.framesCount < fuel) :
    FullExactly (makeRoom LruPolicy.policy order size fuel p).1
      (p.budgetBytes < size + guardedBytes guards p) := by
  induction fuel generalizing p with
  | zero => omega
  | succ fuel ih =>
    cases hover : p.overBudget size with
    | false =>
      rw [makeRoom_of_fits (fuel + 1) hover]
      have hle := guardedBytes_le hgood
      have hroom : p.usedBytes + size ≤ p.budgetBytes := by simpa [overBudget] using hover
      exact Or.inr ⟨by omega, (), rfl⟩
    | true =>
      have hroom : p.budgetBytes < p.usedBytes + size := by simpa [overBudget] using hover
      obtain ⟨hkeeps, hcount, -⟩ := evictOne_spec order LruPolicy.lawful hgood
      have hrecent := h.evictOne hgood order
      have hfails := (evictOne_rest LruPolicy.policy order hgood).1
      have hguarded := guardedBytes_keeps hkeeps
      rcases evictOne_cases LruPolicy.policy order p with ⟨hnone, heq⟩ |
        ⟨id, -, ⟨e, herror, -⟩ | ⟨-, heq⟩⟩
      · rw [makeRoom_of_none fuel hover heq]
        have hall := guardedBytes_eq hgood fun id => guarded_of_no_victim hgood.pins h hclock hnone
        exact Or.inl ⟨by omega, _, _, rfl⟩
      · have hok : ((p.chooseVictim LruPolicy.policy order).2.flush id).1 = .ok () :=
          flush_ok_of_works (p := (p.chooseVictim LruPolicy.policy order).2) hworks id
        rw [hok] at herror
        cases herror
      · rw [makeRoom_of_some fuel hover heq]
        rw [heq] at hkeeps hcount hrecent hfails hguarded
        have hdecreases := hcount id rfl
        have hrest := ih hrecent hkeeps.good (fun n => by rw [hfails]; exact hworks n) (by omega)
        rwa [hkeeps.budget, hguarded] at hrest

end BufferPool

end AirHuim
