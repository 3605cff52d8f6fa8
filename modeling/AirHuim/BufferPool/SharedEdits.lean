import AirHuim.BufferPool.EditWindows

/-!
# Edits in a shared pool

The frames of a shared pool are edited through guards while other threads flush,
evict and load pages. An edit is safe, and no flush panics, as long as no access
comes between those of another thread's operation that rely on each other, and no
frame that a `PinMutGuard` is live on is removed or replaced.
-/

namespace AirHuim

open Library

variable {π : Type}

/-- A frame is not removed or replaced while a `PinMutGuard` is live on its page, and a
write that fails is of a page that is still dirty. -/
def Pc.EditsRespected (p : BufferPool π) (writers : List Guard) : Pc → Prop
  | .writing id _ _ => p.store.fails p.store.calls = false ∨ p.isDirty id = true
  | .removing id _ => NoWriter writers id
  | .inserting r _ => NoWriter writers r.pageId
  | _ => True

instance (guards : List Guard) (id : PageId) : Decidable (NoWriter guards id) :=
  inferInstanceAs (Decidable (∀ g ∈ guards, g.pageId = id → g.mutable = false))

instance (p : BufferPool π) (writers : List Guard) :
    ∀ pc : Pc, Decidable (pc.EditsRespected p writers)
  | .writing id _ _ =>
    inferInstanceAs (Decidable (p.store.fails p.store.calls = false ∨ p.isDirty id = true))
  | .removing id _ => inferInstanceAs (Decidable (NoWriter writers id))
  | .inserting r _ => inferInstanceAs (Decidable (NoWriter writers r.pageId))
  | .idle | .pinning .. | .missed .. | .testing _ | .choosing _ | .dirtyTest .. | .frameLookup ..
  | .clearing .. | .subtracting .. | .telling .. | .adding _ | .inserted .. | .dropping _
  | .unpinning _ | .panicked | .freed => isTrue trivial

theorem noWriter_perm {writers writers' : List Guard} (h : writers.Perm writers') (id : PageId) :
    NoWriter writers id ↔ NoWriter writers' id := by
  unfold NoWriter
  simp only [h.mem_iff]

theorem Pc.EditsRespected.perm {p : BufferPool π} {pc : Pc} {writers writers' : List Guard}
    (h : pc.EditsRespected p writers) (hperm : writers.Perm writers') :
    pc.EditsRespected p writers' := by
  cases pc with
  | removing id job => exact (noWriter_perm hperm id).mp h
  | inserting r tick => exact (noWriter_perm hperm r.pageId).mp h
  | _ => exact h

/-- Every live `PinMutGuard` among the writers has its buffer. -/
def WritersBacked (p : BufferPool π) (writers : List Guard) : Prop :=
  ∀ g ∈ writers, g.mutable = true → p.Backs g

theorem WritersBacked.congr {p q : BufferPool π} {writers : List Guard}
    (h : WritersBacked p writers)
    (hframes : q.frames = p.frames) : WritersBacked q writers := by
  intro g hg hmut
  unfold BufferPool.Backs
  rw [hframes]
  exact h g hg hmut

theorem WritersBacked.setInfo {p : BufferPool π} {writers : List Guard}
    (h : WritersBacked p writers) (id : PageId)
    (f : PageMeta → PageMeta) : WritersBacked (p.setInfo id f) writers :=
  fun g hg hmut => (h g hg hmut).setInfo id f

namespace PoolWorld

variable {E : EvictionPolicy π} {order : FrameOrder} {w : PoolWorld π} {p q : BufferPool π}
  {pc next : Pc} {handed others : List Guard}

/-- No thread panicked or read a freed buffer, and every page shows the bytes
that were last written to it. -/
structure EditsSafe (w : PoolWorld π) : Prop where
  running : ∀ pc ∈ w.threads, pc ≠ .panicked ∧ pc ≠ .freed
  kept : w.pool.content = w.written

/-- The event respects the edits, and heeds what the other threads are about to do. -/
def EditsRespected (w : PoolWorld π) : PoolEvent → Prop
  | .advance t => ∀ pc, w.threads[t]? = some pc → pc.EditsRespected w.pool w.writers ∧
      ∀ o ∈ w.threads.eraseIdx t, pc.Heeds w.pool o
  | _ => True

instance (w : PoolWorld π) : ∀ e, Decidable (w.EditsRespected e)
  | .advance t => inferInstanceAs (Decidable (∀ pc, w.threads[t]? = some pc →
      pc.EditsRespected w.pool w.writers ∧ ∀ o ∈ w.threads.eraseIdx t, pc.Heeds w.pool o))
  | .start .. | .poke .. => isTrue trivial

structure EditInvariant (w : PoolWorld π) : Prop where
  safe : EditsSafe w
  clean : BufferPool.Clean w.pool w.writers
  backed : WritersBacked w.pool w.writers
  flushes : ∀ pc ∈ w.threads, pc.FlushKept w.pool w.writers
  loads : ∀ pc ∈ w.threads, pc.LoadKept w.pool w.writers

theorem creates_of_silent (h : pc.Silent p) (written : PageId → Option Bytes) :
    pc.creates written = written := by
  cases pc with
  | inserting r tick => exact h.elim
  | _ => rfl

/-- An access that respects the edits keeps clean frames and the store in agreement. -/
theorem clean_access (haccess : Access E p pc next handed q)
    (h : BufferPool.Clean p (pc.writers ++ others))
    (hok : pc.EditsRespected p (pc.writers ++ others))
    (hflush : pc.FlushKept p (pc.writers ++ others))
    (hload : pc.LoadKept p (pc.writers ++ others)) :
    BufferPool.Clean q ((handed ++ next.writers) ++ others) := by
  cases haccess with
  | stay _ => exact h
  | quiet frames pages _ _ _ _ before after =>
    rw [before.writers] at h
    rw [after.writers]
    exact h.congr frames pages
  | @hit id mutable elapsedNs frame lookup =>
    have hclean : BufferPool.Clean (p.setInfo id (BufferPool.countPin p.tick))
        (⟨id, frame.addr, frame.data.length, mutable⟩ :: others) := by
      apply h.setInfo
      · intro k _ hno g hg
        exact hno g (List.mem_cons_of_mem _ hg)
      · intro frame' hframe' hdirty hno
        exact h id frame' hframe' hdirty fun g hg => hno g (List.mem_cons_of_mem _ hg)
    exact hclean.congr rfl rfl
  | panic _ => exact h
  | readFreed _ => exact h
  | @write id job next frame lookup after =>
    rw [after.writers]
    apply h.writePage lookup
    rcases hok with hworks | hdirty
    · right
      simp [BufferPool.writePage, ChunkStore.writePage, hworks]
    · left
      simpa [BufferPool.isDirty, lookup] using hdirty
  | @clear id job =>
    rw [(job.afterFlush_passive id).writers]
    exact h.clearDirty fun frame hframe hno => hflush.wrote id frame rfl hframe hno
  | remove => exact h.removeFrame _
  | sub => exact h.congr rfl rfl
  | add => exact h.congr rfl rfl
  | insert =>
    apply h.insertFrame
    · intro k _ hno g hg
      exact hno g (List.mem_append_right _ hg)
    · exact fun hpinned => hload.pages h rfl hpinned hok
  | hand =>
    have hidle : Pc.idle.writers = [] := rfl
    rw [hidle, List.append_nil]
    exact h.congr rfl rfl
  | @mark g =>
    have hmarked : BufferPool.Clean (p.markDirty g.pageId) others := by
      apply h.markDirty
      intro k hk hno g' hg' hid
      rcases List.mem_append.mp hg' with hown | hother
      · rw [List.mem_singleton.mp hown] at hid
        exact (hk hid.symm).elim
      · exact hno g' hother hid
    exact hmarked
  | unpin => exact h.unpin _

/-- It leaves every writer its buffer. -/
theorem backed_access (haccess : Access E p pc next handed q)
    (h : WritersBacked p (pc.writers ++ others))
    (hok : pc.EditsRespected p (pc.writers ++ others)) :
    WritersBacked q ((handed ++ next.writers) ++ others) := by
  cases haccess with
  | stay _ => exact h
  | quiet frames _ _ _ _ _ before after =>
    rw [before.writers] at h
    rw [after.writers]
    exact h.congr frames
  | @hit id mutable elapsedNs frame lookup =>
    have hbacked : WritersBacked p (⟨id, frame.addr, frame.data.length, mutable⟩ :: others) := by
      intro g hg hmut
      rcases List.mem_cons.mp hg with rfl | hother
      · exact ⟨frame, lookup, rfl, rfl⟩
      · exact h g hother hmut
    exact (hbacked.setInfo id _).congr rfl
  | panic _ => exact h
  | readFreed _ => exact h
  | write _ after =>
    rw [after.writers]
    exact h.congr rfl
  | @clear id job =>
    rw [(job.afterFlush_passive id).writers]
    exact h.setInfo id _
  | @remove id job =>
    intro g hg hmut
    have hne : g.pageId ≠ id := by
      intro hid
      have hread := hok g hg hid
      rw [hmut] at hread
      cases hread
    obtain ⟨frame, hframe, hrest⟩ := h g hg hmut
    exact ⟨frame, by rw [BufferPool.lookup_removeFrame, if_neg hne, hframe], hrest⟩
  | sub => exact h.congr rfl
  | add => exact h.congr rfl
  | @insert r tick =>
    intro g hg hmut
    rcases List.mem_append.mp hg with hnew | hother
    · obtain ⟨hid, haddr, hlen⟩ := mem_guard hnew
      exact ⟨⟨r.data, r.info tick, p.nextAddr⟩,
        by rw [BufferPool.lookup_insertFrame, if_pos hid], haddr.symm, hlen.symm⟩
    · obtain ⟨frame, hframe, hrest⟩ := h g hother hmut
      have hne : g.pageId ≠ r.pageId := 
        (ne_of_noWriter (List.mem_append_right _ hother) hmut hok).symm
      exact ⟨frame, by rw [BufferPool.lookup_insertFrame, if_neg hne, hframe], hrest⟩
  | hand =>
    have hidle : Pc.idle.writers = [] := rfl
    rw [hidle, List.append_nil]
    exact h.congr rfl
  | @mark g =>
    have hothers : WritersBacked p others := fun g' hg' => h g' (List.mem_append_right _ hg')
    exact hothers.setInfo g.pageId _
  | @unpin g => exact h.setInfo g.pageId _

/-- It changes no page but the one it creates. -/
theorem content_access (haccess : Access E p pc next handed q)
    (h : BufferPool.Clean p (pc.writers ++ others))
    (hok : pc.EditsRespected p (pc.writers ++ others))
    (hflush : pc.FlushKept p (pc.writers ++ others))
    (hload : pc.LoadKept p (pc.writers ++ others)) : q.content = pc.creates p.content := by
  cases haccess with
  | stay kind => rw [creates_of_silent kind]
  | quiet frames pages _ _ _ kind _ _ =>
    rw [creates_of_silent kind]
    exact BufferPool.content_congr frames pages
  | @hit id mutable elapsedNs frame lookup => exact BufferPool.content_setInfo p id _
  | panic _ => rfl
  | readFreed _ => rfl
  | write lookup _ => exact BufferPool.content_writePage lookup _
  | @clear id job => exact BufferPool.content_setInfo p id _
  | @remove id job =>
    apply BufferPool.content_removeFrame
    intro frame hframe
    exact h id frame hframe (hflush.clean id frame rfl hframe) hok
  | sub => rfl
  | add => rfl
  | @insert r tick =>
    rw [BufferPool.content_insertFrame]
    cases hpinned : r.pinned with
    | none => simp [Pc.creates, hpinned]
    | some mutable =>
      have hsame : p.content r.pageId = some r.data :=
        hload.bytes r rfl (by simp [hpinned]) hok
      rw [← hsame, Function.update_eq_self]
      simp [Pc.creates, hpinned]
  | hand => rfl
  | @mark g => exact BufferPool.content_setInfo p g.pageId _
  | @unpin g => exact BufferPool.content_setInfo p g.pageId _

/-- It neither panics nor reads a freed buffer. -/
theorem running_access (haccess : Access E p pc next handed q) {writers : List Guard}
    (hflush : pc.FlushKept p writers) (h : pc ≠ .panicked ∧ pc ≠ .freed) :
    next ≠ .panicked ∧ next ≠ .freed := by
  cases haccess with
  | stay _ => exact h
  | quiet _ _ _ _ _ _ _ after => exact after.running
  | @panic id job lookup =>
    have hresident := hflush.resident id rfl
    rw [lookup] at hresident
    cases hresident
  | @readFreed id addr job lookup =>
    obtain ⟨frame, hframe⟩ := Option.isSome_iff_exists.mp (hflush.resident id rfl)
    exact (lookup frame hframe (hflush.buffer id addr job frame rfl hframe)).elim
  | write _ after => exact after.running
  | @clear id job => exact (job.afterFlush_passive id).running
  | _ => exact ⟨nofun, nofun⟩

/-! ## Runs -/

variable (E order) in
theorem writers_advance {t : ℕ} (ht : w.threads[t]? = some pc) :
    (w.advance E order t pc).writers.Perm
      (((pc.step E order w.pool).2.1 ++ (pc.step E order w.pool).1.writers) ++
        w.rest t Pc.writers) :=
  held_set_perm ht _ _ Pc.writers

/-- Beginning an operation moves at most a guard; only a reader stops being counted. -/
theorem start_writers {t : ℕ} (ht : w.threads[t]? = some .idle) (op : ThreadOp) :
    (∀ id, NoWriter (w.start t op).writers id → NoWriter w.writers id) ∧
      ∀ g ∈ (w.start t op).writers, g ∈ w.writers := by
  have hsame : ∀ {w' : PoolWorld π}, w'.writers.Perm w.writers →
      (∀ id, NoWriter w'.writers id → NoWriter w.writers id) ∧ ∀ g ∈ w'.writers, g ∈ w.writers :=
    fun hperm => ⟨fun id => (noWriter_perm hperm id).mp, fun g => hperm.mem_iff.mp⟩
  rcases start_cases w t op with heq | ⟨next, hnext, heq⟩ | ⟨i, g, hg, heq⟩
  · rw [heq]
    exact hsame (List.Perm.refl _)
  · rw [heq]
    have hset := held_set_perm ht next [] Pc.writers
    have hnone : next.writers = [] := by cases hnext <;> rfl
    rw [hnone] at hset
    exact hsame (hset.trans (held_perm ht Pc.writers).symm)
  · rw [heq]
    have hguards := eraseIdx_perm hg
    have hold := (threads_perm ht).flatMap_right Pc.writers
    have hset := (set_perm ht (if g.mutable then Pc.dropping g else Pc.unpinning g)).flatMap_right
      Pc.writers
    rw [List.flatMap_cons] at hset
    cases hmut : g.mutable with
    | true =>
      rw [hmut, if_pos rfl] at hset
      apply hsame
      have hnew := hset.append_left (w.guards.eraseIdx i)
      refine hnew.trans (List.perm_middle.trans ?_)
      exact (hguards.append_right _).trans (hold.symm.append_left _)
    | false =>
      rw [hmut, if_neg (by simp)] at hset
      have hrest : (w.guards.eraseIdx i ++ (w.threads.set t (Pc.unpinning g)).flatMap
          Pc.writers).Perm (w.guards.eraseIdx i ++ w.threads.flatMap Pc.writers) :=
        (hset.trans hold.symm).append_left _
      have hmem : (g :: (w.guards.eraseIdx i ++ w.threads.flatMap Pc.writers)).Perm w.writers :=
        hguards.append_right (w.threads.flatMap Pc.writers)
      constructor
      · intro id hno g' hg' hid
        rcases List.mem_cons.mp (hmem.mem_iff.mpr hg') with rfl | hother
        · exact hmut
        · exact hno g' (hrest.mem_iff.mpr hother) hid
      · intro g' hg'
        exact hmem.mem_iff.mp (List.mem_cons_of_mem g (hrest.mem_iff.mp hg'))

theorem start_running {t : ℕ} (op : ThreadOp)
    (h : ∀ pc ∈ w.threads, pc ≠ .panicked ∧ pc ≠ .freed) :
    ∀ pc ∈ (w.start t op).threads, pc ≠ .panicked ∧ pc ≠ .freed := by
  have hset : ∀ next : Pc, next ≠ .panicked ∧ next ≠ .freed →
      ∀ pc ∈ w.threads.set t next, pc ≠ .panicked ∧ pc ≠ .freed := by
    intro next hnext pc hpc
    rcases List.mem_or_eq_of_mem_set hpc with hold | rfl
    · exact h pc hold
    · exact hnext
  rcases start_cases w t op with heq | ⟨next, hnext, heq⟩ | ⟨i, g, -, heq⟩
  · rw [heq]
    exact h
  · rw [heq]
    apply hset
    cases hnext <;> exact ⟨nofun, nofun⟩
  · rw [heq]
    apply hset
    cases g.mutable <;> exact ⟨nofun, nofun⟩

theorem start_pool (t : ℕ) (op : ThreadOp) :
    (w.start t op).pool = w.pool ∧ (w.start t op).written = w.written := by
  rcases start_cases w t op with heq | ⟨next, -, heq⟩ | ⟨i, g, -, heq⟩ <;> rw [heq] <;>
    exact ⟨rfl, rfl⟩

theorem start_loads {t : ℕ} (op : ThreadOp) :
    ∀ pc ∈ (w.start t op).threads, pc ∈ w.threads ∨
      pc.flushes = none ∧ pc.clears = none ∧ pc.removes = none ∧ pc.loads = none := by
  have hset : ∀ next : Pc, next.flushes = none → next.clears = none → next.removes = none →
      next.loads = none → ∀ pc ∈ w.threads.set t next, pc ∈ w.threads ∨
        pc.flushes = none ∧ pc.clears = none ∧ pc.removes = none ∧ pc.loads = none := by
    intro next hflushes hclears hremoves hloads pc hpc
    rcases List.mem_or_eq_of_mem_set hpc with hold | rfl
    · exact Or.inl hold
    · exact Or.inr ⟨hflushes, hclears, hremoves, hloads⟩
  rcases start_cases w t op with heq | ⟨next, hnext, heq⟩ | ⟨i, g, -, heq⟩
  · rw [heq]
    exact fun pc hpc => Or.inl hpc
  · rw [heq]
    cases hnext <;> exact hset _ rfl rfl rfl rfl
  · rw [heq]
    cases g.mutable <;> exact hset _ rfl rfl rfl rfl

theorem EditInvariant.start (h : EditInvariant w) {t : ℕ} (ht : w.threads[t]? = some .idle)
    (op : ThreadOp) : EditInvariant (w.start t op) := by
  obtain ⟨hpool, hwritten⟩ := w.start_pool t op
  obtain ⟨hno, hmem⟩ := start_writers ht op
  constructor
  · exact ⟨start_running op h.safe.running, by rw [hpool, hwritten, h.safe.kept]⟩
  · rw [hpool]
    exact h.clean.mono hno
  · rw [hpool]
    exact fun g hg => h.backed g (hmem g hg)
  · intro pc hpc
    rw [hpool]
    rcases start_loads op pc hpc with hold | ⟨hflushes, hclears, hremoves, -⟩
    · exact (h.flushes pc hold).mono hno
    · exact .of_none hflushes hclears hremoves
  · intro pc hpc
    rw [hpool]
    rcases start_loads op pc hpc with hold | ⟨-, -, -, hloads⟩
    · exact (h.loads pc hold).mono hno
    · exact .of_none hloads

theorem EditInvariant.advance (h : EditInvariant w) {t : ℕ} (ht : w.threads[t]? = some pc)
    (hok : pc.EditsRespected w.pool w.writers)
    (hheeds : ∀ o ∈ w.threads.eraseIdx t, pc.Heeds w.pool o) :
    EditInvariant (w.advance E order t pc) := by
  have hpc := List.mem_of_getElem? ht
  have haccess := Pc.step_access E order w.pool pc
  have hperm := held_perm ht Pc.writers
  have hback : ∀ id, NoWriter (pc.writers ++ w.rest t Pc.writers) id → NoWriter w.writers id :=
    fun id => (noWriter_perm hperm id).mpr
  have hclean := h.clean.mono hback
  have hbacked : WritersBacked w.pool (pc.writers ++ w.rest t Pc.writers) :=
    fun g hg => h.backed g (hperm.mem_iff.mpr hg)
  have hrespects := hok.perm hperm
  have hflush := (h.flushes pc hpc).mono hback
  have hload := (h.loads pc hpc).mono hback
  have hafter := writers_advance E order ht
  have hnext : ∀ id, NoWriter (w.advance E order t pc).writers id → NoWriter _ id :=
    fun id => (noWriter_perm hafter id).mp
  have hcontent := content_access haccess hclean hrespects hflush hload
  have hcleanNext := clean_access haccess hclean hrespects hflush hload
  have hinsert : ∀ r tick, pc = .inserting r tick →
      NoWriter (pc.writers ++ w.rest t Pc.writers) r.pageId := by
    rintro r tick rfl
    exact hrespects
  constructor
  · constructor
    · intro pc' hpc'
      rcases List.mem_or_eq_of_mem_set hpc' with hold | rfl
      · exact h.safe.running pc' hold
      · exact running_access haccess hflush (h.safe.running pc hpc)
    · rw [h.safe.kept] at hcontent
      exact hcontent
  · exact hcleanNext.mono hnext
  · exact fun g hg => backed_access haccess hbacked hrespects g (hafter.mem_iff.mp hg)
  · intro o ho
    rcases List.mem_cons.mp ((set_perm ht _).mem_iff.mp ho) with rfl | hother
    · exact Pc.flushKept_step E order w.pool pc _
    · have hold := (h.flushes o (List.mem_of_mem_eraseIdx hother)).mono hback
      exact (hold.access haccess (hheeds o hother) hload hclean hinsert).mono hnext
  · intro o ho
    rcases List.mem_cons.mp ((set_perm ht _).mem_iff.mp ho) with rfl | hother
    · have hown := hload.access haccess pc.loads_of_dropping pc.loads_of_inserting hcontent
      exact (hown.step E order hcleanNext).mono hnext
    · have hold := (h.loads o (List.mem_of_mem_eraseIdx hother)).mono hback
      have hheed := hheeds o hother
      refine (hold.access haccess ?_ ?_ hcontent).mono hnext
      · rintro g rfl
        exact hheed.2.2
      · rintro r tick rfl hnone
        exact (hheed.2 hnone).2.2

theorem EditInvariant.poke (h : EditInvariant w) {i off : ℕ} {byte : UInt8} {g : Guard}
    (hg : w.guards[i]? = some g) (hmut : g.mutable = true) :
    EditInvariant { w with
      pool := w.pool.poke g off byte
      written := Function.update w.written g.pageId
        ((w.written g.pageId).map (·.set off byte)) } := by
  have hmem : g ∈ w.writers := List.mem_append_left _ (List.mem_of_getElem? hg)
  have hbacks := h.backed g hmem hmut
  constructor
  · refine ⟨h.safe.running, ?_⟩
    dsimp only
    rw [BufferPool.content_poke hbacks, h.safe.kept]
  · exact h.clean.poke hbacks hmem hmut off byte
  · intro g' hg' hmut'
    obtain ⟨frame, hframe, haddr, hlen⟩ := h.backed g' hg' hmut'
    by_cases hid : g'.pageId = g.pageId
    · refine ⟨{ frame with data := frame.data.set off byte }, ?_, haddr,
        List.length_set.trans hlen⟩
      dsimp only
      rw [BufferPool.lookup_poke hbacks, if_pos hid, hframe]
      rfl
    · refine ⟨frame, ?_, haddr, hlen⟩
      dsimp only
      rw [BufferPool.lookup_poke hbacks, if_neg hid, hframe]
  · exact fun pc hpc => (h.flushes pc hpc).poke hbacks hmem hmut off byte
  · exact fun pc hpc => (h.loads pc hpc).poke hbacks hmem hmut off byte

theorem EditInvariant.step (h : EditInvariant w) {e : PoolEvent} (hok : w.EditsRespected e) :
    EditInvariant (w.step E order e) := by
  cases e with
  | start t op =>
    unfold PoolWorld.step
    dsimp only
    split
    case h_2 => exact h
    case h_1 ht => exact h.start ht op
  | advance t =>
    cases ht : w.threads[t]? with
    | none =>
      simp only [PoolWorld.step, ht]
      exact h
    | some pc =>
      rw [step_advance ht]
      obtain ⟨hpc, hheeds⟩ := hok pc ht
      exact h.advance ht hpc hheeds
  | poke i off byte =>
    cases hg : w.guards[i]? with
    | none =>
      simp only [PoolWorld.step, hg]
      exact h
    | some g =>
      by_cases hwrite : g.mutable ∧ off < g.len
      · simp only [PoolWorld.step, hg, if_pos hwrite]
        exact h.poke hg hwrite.1
      · simp only [PoolWorld.step, hg, if_neg hwrite]
        exact h

theorem EditInvariant.new (budgetBytes : ℕ) (store : ChunkStore) (eviction : π) (threads : ℕ) :
    EditInvariant (PoolWorld.new (BufferPool.new budgetBytes store eviction) threads) where
  safe := by
    refine ⟨fun pc hpc => ?_, rfl⟩
    rw [List.eq_of_mem_replicate hpc]
    exact ⟨nofun, nofun⟩
  clean id frame h := by simp [PoolWorld.new, BufferPool.new] at h
  backed g hg := by simp [PoolWorld.new, writers, Pc.writers] at hg
  flushes pc hpc := by
    rw [List.eq_of_mem_replicate hpc]
    exact .of_none rfl rfl rfl
  loads pc hpc := by
    rw [List.eq_of_mem_replicate hpc]
    exact .of_none rfl

/-- From an empty pool on, in every run whose accesses heed the operations of the other
threads no thread panics and no edit is lost. -/
theorem editsSafe_of_respected (E : EvictionPolicy π) (order : FrameOrder) (budgetBytes : ℕ)
    (store : ChunkStore) (eviction : π) (threads : ℕ) (events : List PoolEvent)
    (h : AllSteps (step E order) EditsRespected
      (PoolWorld.new (BufferPool.new budgetBytes store eviction) threads) events) :
    AllStates (step E order) EditsSafe
      (PoolWorld.new (BufferPool.new budgetBytes store eviction) threads) events :=
  (AllStates.of_steps (fun _ _ hw hok => hw.step hok)
    (EditInvariant.new budgetBytes store eviction threads) h).mono fun _ hw => hw.safe

/-- Two threads that miss one page at once and only read it respect the edits. -/
example : AllSteps
    (step LruPolicy.policy ⟨fun _ frames => frames, fun _ _ => List.Perm.refl _⟩) EditsRespected
    (PoolWorld.new (BufferPool.new 2 ⟨fun id => if id = 1 then some [7] else none, 0,
      fun _ => false, fun _ => none⟩ LruPolicy.new) 2)
    [.start 0 (.pin 1 false 100), .start 1 (.pin 1 false 100), .advance 0, .advance 1,
      .advance 0, .advance 1, .advance 0, .advance 1, .advance 0, .advance 1, .advance 0,
      .advance 1, .advance 0, .advance 1, .start 0 (.dropGuard 0), .start 1 (.dropGuard 0),
      .advance 0, .advance 1] := by
  decide +kernel

/-- Two threads take turns: one edits page 1, the other flushes and evicts it. -/
theorem editsSafe_of_respected_turns :
    AllStates (step LruPolicy.policy ⟨fun _ frames => frames, fun _ _ => List.Perm.refl _⟩)
      EditsSafe
      (PoolWorld.new (BufferPool.new 1 ⟨fun id => if id = 1 then some [7] else none, 0,
        fun _ => false, fun _ => none⟩ LruPolicy.new) 2)
      [.start 0 (.pin 1 true 100), .advance 0, .advance 0, .advance 0, .advance 0, .advance 0,
        .advance 0, .poke 0 0 8, .start 0 (.dropGuard 0), .advance 0, .advance 0,
        .start 1 .evictOne, .advance 1, .advance 1, .advance 1, .advance 1, .advance 1,
        .advance 1, .advance 1, .advance 1] :=
  editsSafe_of_respected LruPolicy.policy ⟨fun _ frames => frames, fun _ _ => List.Perm.refl _⟩
    1 _ LruPolicy.new 2 _ (by decide +kernel)

/-- A flush writes page 1 back, an edit follows, and then the flush clears the
dirty bit: the next eviction drops the edit. And two evictions of one dirty page:
the second looks the frame up after the first has removed it. -/
theorem not_editsSafe_races :
    (¬ AllStates (step LruPolicy.policy ⟨fun _ frames => frames, fun _ _ => List.Perm.refl _⟩)
      (fun w => ∀ id, NoWriter w.live id → w.pool.content id = w.written id)
      (PoolWorld.new (BufferPool.new 1 ⟨fun id => if id = 1 then some [7] else none, 0,
        fun _ => false, fun _ => none⟩ LruPolicy.new) 2)
      [.start 0 (.pin 1 true 100), .advance 0, .advance 0, .advance 0, .advance 0, .advance 0,
        .advance 0, .poke 0 0 8, .start 0 (.dropGuard 0), .advance 0, .advance 0,
        .start 1 (.flush 1), .advance 1, .advance 1, .advance 1,
        .start 0 (.pin 1 true 100), .advance 0, .poke 0 0 9, .start 0 (.dropGuard 0), .advance 0,
        .advance 0, .advance 1, .start 0 .evictOne, .advance 0, .advance 0, .advance 0]) ∧
    ¬ AllStates (step LruPolicy.policy ⟨fun _ frames => frames, fun _ _ => List.Perm.refl _⟩)
      (fun w => Pc.panicked ∉ w.threads)
      (PoolWorld.new (BufferPool.new 1 ⟨fun id => if id = 1 then some [7] else none, 0,
        fun _ => false, fun _ => none⟩ LruPolicy.new) 2)
      [.start 0 (.pin 1 true 100), .advance 0, .advance 0, .advance 0, .advance 0, .advance 0,
        .advance 0, .poke 0 0 8, .start 0 (.dropGuard 0), .advance 0, .advance 0,
        .start 0 .evictOne, .advance 0, .advance 0, .start 1 .evictOne, .advance 1, .advance 1,
        .advance 1, .advance 1, .advance 1, .advance 1, .advance 0] := by
  constructor
  · intro h
    have hkept := h.last 1
    revert hkept
    decide +kernel
  · intro h
    have hrunning := h.last
    revert hrunning
    decide +kernel

end PoolWorld

end AirHuim
