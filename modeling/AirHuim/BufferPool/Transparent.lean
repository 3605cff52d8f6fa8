import AirHuim.BufferPool.Invariants

/-!
# The pool as a cache

The invariant of a pool used by one thread. Eviction and flushing move bytes
between frames and store and change no page's content, also when a call of the
store fails half way, and the eviction loop ends.
-/

namespace AirHuim

open Library

namespace BufferPool

variable {π : Type} {p q : BufferPool π} {guards : List Guard}

/-- The invariant of a pool with these live guards, between two operations. -/
structure Good (p : BufferPool π) (guards : List Guard) : Prop where
  ledger : Ledger p 0
  pins : Pins p guards
  clean : Clean p guards

theorem Good.new (budgetBytes : ℕ) (store : ChunkStore) (eviction : π) :
    Good (BufferPool.new budgetBytes store eviction) [] where
  ledger := rfl
  pins := ⟨fun g hg => (List.not_mem_nil hg).elim, fun id frame h => by simp [BufferPool.new] at h⟩
  clean id frame h := by simp [BufferPool.new] at h

/-- What `q` keeps of `p` when pages are only moved between frames and store. -/
structure Keeps (guards : List Guard) (p q : BufferPool π) : Prop where
  good : Good q guards
  content : q.content = p.content
  budget : q.budgetBytes = p.budgetBytes
  absent : ∀ id, p.frames.lookup id = none → q.frames.lookup id = none

theorem Keeps.refl (h : Good p guards) : Keeps guards p p := ⟨h, rfl, rfl, fun _ h => h⟩

theorem Keeps.trans {r : BufferPool π} (hpq : Keeps guards p q) (hqr : Keeps guards q r) :
    Keeps guards p r where
  good := hqr.good
  content := hqr.content.trans hpq.content
  budget := hqr.budget.trans hpq.budget
  absent id h := hqr.absent id (hpq.absent id h)

/-- The errors with which an operation may end. -/
def Reported (e : PoolError) : Prop := e = .store ∨ ∃ used budget, e = .full used budget

/-! ## Flushing -/

theorem readPage_keeps (h : Good p guards) (id : PageId) : Keeps guards p (p.readPage id).2 where
  good := ⟨h.ledger, h.pins.congr rfl, h.clean.congr rfl (pages_readPage p id)⟩
  content := content_congr rfl (pages_readPage p id)
  budget := rfl
  absent _ h := h

/-- The store under a dirty frame may hold anything. -/
theorem writePage_keeps (h : Good p guards) {id : PageId} {frame : Frame}
    (hframe : p.frames.lookup id = some frame) (hdirty : frame.info.dirty = true) :
    Keeps guards p (p.writePage id frame.data).2 where
  good := ⟨h.ledger, h.pins.congr rfl, h.clean.writePage hframe (Or.inl hdirty)⟩
  content := content_writePage hframe frame.data
  budget := rfl
  absent _ h := h

theorem clearDirty_keeps (h : Good p guards) {id : PageId}
    (hstore : ∀ frame, p.frames.lookup id = some frame → p.store.pages id = some frame.data) :
    Keeps guards p (p.clearDirty id) where
  good := ⟨h.ledger.setInfo id _, h.pins.setDirty id fun _ => rfl,
    h.clean.clearDirty fun frame hframe _ => hstore frame hframe⟩
  content := content_setInfo p id _
  budget := budgetBytes_setInfo p id _
  absent _ hk := lookup_setInfo_none p id _ hk

theorem flush_of_clean {id : PageId} (h : p.isDirty id = false) : p.flush id = (.ok (), p) := by
  simp [flush, h]

theorem flush_of_error {id : PageId} {frame : Frame} {e : PoolError}
    (hframe : p.frames.lookup id = some frame) (hdirty : frame.info.dirty = true)
    (hwrite : p.writePage id frame.data = (.error e, q)) : p.flush id = (.error e, q) := by
  simp [flush, isDirty, hframe, hdirty, hwrite]

theorem flush_of_ok {id : PageId} {frame : Frame} (hframe : p.frames.lookup id = some frame)
    (hdirty : frame.info.dirty = true) (hwrite : p.writePage id frame.data = (.ok (), q)) :
    p.flush id = (.ok (), q.clearDirty id) := by
  simp [flush, isDirty, hframe, hdirty, hwrite]

theorem isDirty_of_lookup {id : PageId} {frame : Frame} (h : p.frames.lookup id = some frame) :
    p.isDirty id = frame.info.dirty := by
  simp [isDirty, h]

theorem framesCount_clearDirty (p : BufferPool π) (id : PageId) :
    (p.clearDirty id).framesCount = p.framesCount :=
  total_setInfo p id _ fun _ => 1

/-- What `flush` keeps: the resident pages too. -/
structure Flushes (guards : List Guard) (p q : BufferPool π) : Prop where
  keeps : Keeps guards p q
  count : q.framesCount = p.framesCount
  resident : ∀ k, q.frames.lookup k = none → p.frames.lookup k = none

theorem flush_flushes (h : Good p guards) (id : PageId) : Flushes guards p (p.flush id).2 := by
  cases hframe : p.frames.lookup id with
  | none =>
    rw [flush_of_clean (by simp [isDirty, hframe])]
    exact ⟨Keeps.refl h, rfl, fun k hk => hk⟩
  | some frame =>
    cases hdirty : frame.info.dirty with
    | false =>
      rw [flush_of_clean ((isDirty_of_lookup hframe).trans hdirty)]
      exact ⟨Keeps.refl h, rfl, fun k hk => hk⟩
    | true =>
      have hwrite := writePage_keeps h hframe hdirty
      have hframes : (p.writePage id frame.data).2.frames = p.frames := rfl
      rcases hw : p.writePage id frame.data with ⟨_ | ⟨⟩, p'⟩
      · rw [flush_of_error hframe hdirty hw]
        rw [hw] at hwrite hframes
        exact ⟨hwrite, congrArg (Table.total · fun _ => 1) hframes, fun k hk => by
          rw [← hframes]; exact hk⟩
      · rw [flush_of_ok hframe hdirty hw]
        have hpages := @writePage_ok _ p id frame.data (by rw [hw])
        rw [hw] at hwrite hframes hpages
        dsimp only at hwrite hframes hpages
        have hstore : ∀ other, p'.frames.lookup id = some other →
            p'.store.pages id = some other.data := by
          intro other hother
          rw [hframes, hframe] at hother
          cases hother
          exact hpages
        refine ⟨hwrite.trans (clearDirty_keeps hwrite.good hstore), ?_, fun k hk => ?_⟩
        · rw [framesCount_clearDirty, framesCount, hframes, framesCount]
        · rw [clearDirty, lookup_setInfo, hframes] at hk
          by_cases hid : k = id
          · rw [if_pos hid, Option.map_eq_none_iff] at hk
            rw [hid, hk]
          · rwa [if_neg hid] at hk

/-- A page that was flushed is clean. -/
theorem flush_clean {id : PageId} {frame : Frame} (hok : (p.flush id).1 = .ok ())
    (hframe : (p.flush id).2.frames.lookup id = some frame) : frame.info.dirty = false := by
  cases hdirty : p.isDirty id with
  | false =>
    rw [flush_of_clean hdirty] at hframe
    rw [← isDirty_of_lookup hframe, hdirty]
  | true =>
    cases hold : p.frames.lookup id with
    | none => simp [isDirty, hold] at hdirty
    | some old =>
      rw [isDirty_of_lookup hold] at hdirty
      rcases hw : p.writePage id old.data with ⟨_ | ⟨⟩, p'⟩
      · rw [flush_of_error hold hdirty hw] at hok
        cases hok
      · rw [flush_of_ok hold hdirty hw] at hframe
        dsimp only at hframe
        rw [clearDirty, lookup_setInfo, if_pos rfl, Option.map_eq_some_iff] at hframe
        obtain ⟨_, _, rfl⟩ := hframe
        rfl

theorem flush_error {id : PageId} {e : PoolError} (h : (p.flush id).1 = .error e) :
    e = .store := by
  cases hdirty : p.isDirty id with
  | false =>
    rw [flush_of_clean hdirty] at h
    cases h
  | true =>
    cases hold : p.frames.lookup id with
    | none => simp [isDirty, hold] at hdirty
    | some old =>
      rw [isDirty_of_lookup hold] at hdirty
      rcases hw : p.writePage id old.data with ⟨_ | ⟨⟩, p'⟩
      · rw [flush_of_error hold hdirty hw] at h
        cases h
        exact writePage_error (by rw [hw])
      · rw [flush_of_ok hold hdirty hw] at h
        cases h

/-! ## Eviction -/

/-- A page without guards whose bytes the store holds can go. -/
theorem removeFrame_keeps (h : Good p guards) {id : PageId} {frame : Frame}
    (hframe : p.frames.lookup id = some frame) (hfree : liveGuards guards id = 0)
    (hstore : p.store.pages id = some frame.data) :
    Keeps guards p ((p.removeFrame id).2.subUsed (p.removeFrame id).1) where
  good := by
    have hpins := h.pins.removeFrame hfree
    have hclean := h.clean.removeFrame id
    exact ⟨(h.ledger.removeFrame id).subUsed, hpins.congr rfl, hclean.congr rfl rfl⟩
  content := by
    have hcontent : (p.removeFrame id).2.content = p.content := by
      apply content_removeFrame
      intro other hother
      rw [hframe] at hother
      cases hother
      exact hstore
    rw [← hcontent]
    exact content_congr rfl rfl
  budget := by
    rw [removeFrame_of_lookup hframe]
    rfl
  absent k hk := by
    change (p.removeFrame id).2.frames.lookup k = none
    rw [lookup_removeFrame]
    split
    · rfl
    · exact hk

theorem noteEvict_keeps {E : EvictionPolicy π} (h : Keeps guards p q) (id : PageId) :
    Keeps guards p (q.noteEvict E id) :=
  ⟨⟨h.good.ledger, h.good.pins.congr rfl, h.good.clean.congr rfl rfl⟩, h.content, h.budget,
    h.absent⟩

section Policy

variable {E : EvictionPolicy π} {order : FrameOrder}

/-- A lawful policy picks a resident page without guards. -/
theorem chooseVictim_spec (hE : E.Lawful) (h : Good p guards) {id : PageId}
    (hid : (p.chooseVictim E order).1 = some id) :
    ∃ frame, p.frames.lookup id = some frame ∧ liveGuards guards id = 0 := by
  obtain ⟨info, hmem, hpin⟩ := hE _ _ _ hid
  obtain ⟨frame, hframe, rfl⟩ := p.mem_snapshot order hmem
  refine ⟨frame, hframe, ?_⟩
  rw [← h.pins.counts id frame hframe]
  simpa [PageMeta.isPinned] using hpin

theorem chooseVictim_keeps (E : EvictionPolicy π) (order : FrameOrder) (h : Good p guards) :
    Keeps guards p (p.chooseVictim E order).2 :=
  ⟨⟨h.ledger, h.pins.congr rfl, h.clean.congr rfl rfl⟩, rfl, rfl, fun _ h => h⟩

/-- How an eviction can end. -/
theorem evictOne_cases (E : EvictionPolicy π) (order : FrameOrder) (p : BufferPool π) :
    ((p.chooseVictim E order).1 = none ∧
        p.evictOne E order = (.ok none, (p.chooseVictim E order).2)) ∨
      ∃ victim, (p.chooseVictim E order).1 = some victim ∧
        ((∃ e, ((p.chooseVictim E order).2.flush victim).1 = .error e ∧
            p.evictOne E order = (.error e, ((p.chooseVictim E order).2.flush victim).2)) ∨
          ((p.chooseVictim E order).2.flush victim).1 = .ok () ∧
            p.evictOne E order = (.ok (some victim),
              ((((p.chooseVictim E order).2.flush victim).2.removeFrame victim).2.subUsed
                (((p.chooseVictim E order).2.flush victim).2.removeFrame victim).1).noteEvict E
                  victim)) := by
  unfold evictOne
  rcases p.chooseVictim E order with ⟨_ | victim, p₁⟩
  · exact Or.inl ⟨rfl, rfl⟩
  · refine Or.inr ⟨victim, rfl, ?_⟩
    dsimp only
    rcases p₁.flush victim with ⟨e | ⟨⟩, p₂⟩
    · exact Or.inl ⟨e, rfl, rfl⟩
    · exact Or.inr ⟨rfl, rfl⟩

variable (order) in
theorem evictOne_spec (hE : E.Lawful) (h : Good p guards) :
    Keeps guards p (p.evictOne E order).2 ∧
      (∀ id, (p.evictOne E order).1 = .ok (some id) →
        (p.evictOne E order).2.framesCount + 1 = p.framesCount) ∧
      ∀ e, (p.evictOne E order).1 = .error e → e = .store := by
  have hchosen := chooseVictim_keeps E order h
  rcases evictOne_cases E order p with ⟨-, heq⟩ | ⟨victim, hvictim, ⟨e, herror, heq⟩ | ⟨hok, heq⟩⟩
  · rw [heq]
    exact ⟨hchosen, fun id hid => (by cases hid), fun e he => (by cases he)⟩
  · rw [heq]
    have hflush := flush_flushes hchosen.good victim
    exact ⟨hchosen.trans hflush.keeps, fun id hid => (by cases hid), fun e' he => by
      cases he
      exact flush_error herror⟩
  · rw [heq]
    obtain ⟨frame, hframe, hfree⟩ := chooseVictim_spec hE h hvictim
    have hflush := flush_flushes hchosen.good victim
    set p₂ := ((p.chooseVictim E order).2.flush victim).2
    obtain ⟨frame₂, hframe₂⟩ : ∃ frame₂, p₂.frames.lookup victim = some frame₂ := by
      apply Option.ne_none_iff_exists'.mp
      intro hnone
      have habsent : p.frames.lookup victim = none := hflush.resident victim hnone
      rw [hframe] at habsent
      cases habsent
    have hwriter : NoWriter guards victim := fun g hg hid =>
      (liveGuards_eq_zero.mp hfree g hg hid).elim
    have hstore := hflush.keeps.good.clean victim frame₂ hframe₂ (flush_clean hok hframe₂) hwriter
    have hremoved := removeFrame_keeps hflush.keeps.good hframe₂ hfree hstore
    refine ⟨noteEvict_keeps ((hchosen.trans hflush.keeps).trans hremoved) victim, fun id _ => ?_,
      fun e he => (by cases he)⟩
    have htotal := Table.total_erase hframe₂ fun _ => 1
    have hcount : p₂.framesCount = p.framesCount := hflush.count
    rw [removeFrame_of_lookup hframe₂, ← hcount]
    change Table.total (p₂.frames.erase victim) (fun _ => 1) + 1 = p₂.frames.total fun _ => 1
    rw [htotal, add_comm]

theorem makeRoom_of_fits {size : ℕ} (fuel : ℕ) (h : p.overBudget size = false) :
    makeRoom E order size fuel p = (.ok (), p) := by
  cases fuel <;> simp [makeRoom, h]

theorem makeRoom_of_error {size : ℕ} (fuel : ℕ) (h : p.overBudget size = true) {e : PoolError}
    (he : p.evictOne E order = (.error e, q)) :
    makeRoom E order size (fuel + 1) p = (.error e, q) := by
  simp [makeRoom, h, he]

theorem makeRoom_of_none {size : ℕ} (fuel : ℕ) (h : p.overBudget size = true)
    (he : p.evictOne E order = (.ok none, q)) :
    makeRoom E order size (fuel + 1) p = (.error (.full q.usedBytes q.budgetBytes), q) := by
  simp [makeRoom, h, he]

theorem makeRoom_of_some {size : ℕ} (fuel : ℕ) (h : p.overBudget size = true) {victim : PageId}
    (he : p.evictOne E order = (.ok (some victim), q)) :
    makeRoom E order size (fuel + 1) p = makeRoom E order size fuel q := by
  simp [makeRoom, h, he]

variable (order) in
/-- The eviction loop ends: with room, or with an error that it reports. -/
theorem makeRoom_spec (hE : E.Lawful) (size fuel : ℕ) (h : Good p guards)
    (hfuel : p.framesCount < fuel) :
    Keeps guards p (makeRoom E order size fuel p).2 ∧
      ((makeRoom E order size fuel p).1 = .ok () →
        (makeRoom E order size fuel p).2.usedBytes + size ≤ p.budgetBytes) ∧
      ∀ e, (makeRoom E order size fuel p).1 = .error e → Reported e := by
  induction fuel generalizing p with
  | zero => omega
  | succ fuel ih =>
    cases hover : p.overBudget size with
    | false =>
      rw [makeRoom_of_fits (fuel + 1) hover]
      refine ⟨Keeps.refl h, fun _ => ?_, fun e he => (by cases he)⟩
      simpa [overBudget] using hover
    | true =>
      obtain ⟨hkeeps, hcount, herror⟩ := evictOne_spec order hE h
      rcases hevict : p.evictOne E order with ⟨e | _ | victim, p'⟩
      · rw [makeRoom_of_error fuel hover hevict]
        rw [hevict] at hkeeps herror
        exact ⟨hkeeps, fun hok => (by cases hok), fun e' he => by
          cases he
          exact Or.inl (herror _ rfl)⟩
      · rw [makeRoom_of_none fuel hover hevict]
        rw [hevict] at hkeeps
        exact ⟨hkeeps, fun hok => (by cases hok), fun e' he => by
          cases he
          exact Or.inr ⟨_, _, rfl⟩⟩
      · rw [makeRoom_of_some fuel hover hevict]
        rw [hevict] at hkeeps hcount
        have hdecreases : p'.framesCount + 1 = p.framesCount := hcount victim rfl
        obtain ⟨hrest, hroom, herror'⟩ := ih (p := p') hkeeps.good (by omega)
        exact ⟨hkeeps.trans hrest, fun hok => by rw [← hkeeps.budget]; exact hroom hok, herror'⟩

end Policy

end BufferPool

end AirHuim
