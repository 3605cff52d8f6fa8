import AirHuim.BufferPool.MiningAware

/-!
# A thread's runs under the mining-aware policy

Along a run the metadata that the score reads are what their names say. Against a
log of the pins and insertions, latest first, the recency of a page is the number
of touches since its last one, its frequency the number of its touches since it was
last brought in, and its reload cost what that took. So every page that is pushed
out has the largest score among the resident pages without guards.
-/

namespace AirHuim

open Library

/-- A pin or an insertion; if it brought the page in, with the cost noted then. -/
structure Touch where
  page : PageId
  loadCost : Option ℕ
  deriving DecidableEq, Repr

namespace Touch

/-- How many touches ago the page was touched, the last touch counting 1. -/
def recency (id : PageId) : List Touch → ℕ
  | [] => 0
  | t :: log => if t.page = id then 1 else recency id log + 1

/-- The touches of the page since it was last brought in, with that one. -/
def freq (id : PageId) : List Touch → ℕ
  | [] => 0
  | t :: log =>
    if t.page = id then
      match t.loadCost with
      | some _ => 1
      | none => freq id log + 1
    else freq id log

/-- What it cost to bring the page in the last time. -/
def reload (id : PageId) : List Touch → ℕ
  | [] => 0
  | t :: log =>
    if t.page = id then t.loadCost.getD (reload id log) else reload id log

theorem freq_le_length (id : PageId) (log : List Touch) : freq id log ≤ log.length := by
  induction log with
  | nil => exact le_rfl
  | cons t log ih =>
    rw [freq, List.length_cons]
    split
    · split <;> omega
    · omega

end Touch

/-- What the score reads of the metadata. -/
def PageMeta.stats (m : PageMeta) : ℕ × ℕ × ℕ := (m.lastAccessTick, m.accessCount, m.reloadCostNs)

namespace BufferPool

section Stats

variable {π : Type} {p q r : BufferPool π}

/-- Pages may go, but none comes and none is touched. -/
structure KeepsStats (p q : BufferPool π) : Prop where
  eviction : q.eviction = p.eviction
  tick : q.tick = p.tick
  stats : ∀ id frame, q.frames.lookup id = some frame →
    ∃ old, p.frames.lookup id = some old ∧ frame.info.stats = old.info.stats

theorem KeepsStats.refl (p : BufferPool π) : KeepsStats p p :=
  ⟨rfl, rfl, fun _ frame h => ⟨frame, h, rfl⟩⟩

theorem KeepsStats.trans (hpq : KeepsStats p q) (hqr : KeepsStats q r) : KeepsStats p r where
  eviction := hqr.eviction.trans hpq.eviction
  tick := hqr.tick.trans hpq.tick
  stats id frame h := by
    obtain ⟨old, hold, hstats⟩ := hqr.stats id frame h
    obtain ⟨older, holder, hstats'⟩ := hpq.stats id old hold
    exact ⟨older, holder, hstats.trans hstats'⟩

theorem tick_setInfo (p : BufferPool π) (id : PageId) (f : PageMeta → PageMeta) :
    (p.setInfo id f).tick = p.tick := by
  unfold setInfo
  split <;> rfl

theorem keepsStats_setInfo (p : BufferPool π) (id : PageId) {f : PageMeta → PageMeta}
    (hf : ∀ m, (f m).stats = m.stats) : KeepsStats p (p.setInfo id f) where
  eviction := eviction_setInfo p id f
  tick := tick_setInfo p id f
  stats k frame h := by
    rw [lookup_setInfo] at h
    by_cases hk : k = id
    · rw [if_pos hk, Option.map_eq_some_iff] at h
      obtain ⟨old, hold, rfl⟩ := h
      exact ⟨old, hk ▸ hold, hf old.info⟩
    · rw [if_neg hk] at h
      exact ⟨frame, h, rfl⟩

theorem keepsStats_poke (p : BufferPool π) (g : Guard) (off : ℕ) (byte : UInt8) :
    KeepsStats p (p.poke g off byte) := by
  unfold poke
  split
  · rename_i old hold
    split
    · refine ⟨rfl, rfl, fun k frame h => ?_⟩
      by_cases hk : k = g.pageId
      · subst hk
        rw [AList.lookup_insert] at h
        cases h
        exact ⟨old, hold, rfl⟩
      · rw [AList.lookup_insert_ne hk] at h
        exact ⟨frame, h, rfl⟩
    · exact KeepsStats.refl p
  · exact KeepsStats.refl p

theorem keepsStats_dropGuard (p : BufferPool π) (g : Guard) : KeepsStats p (p.dropGuard g) := by
  unfold dropGuard
  split
  · have hdirty := keepsStats_setInfo p g.pageId (f := fun m => { m with dirty := true })
      fun _ => rfl
    exact hdirty.trans (keepsStats_setInfo _ _ fun _ => rfl)
  · exact keepsStats_setInfo p g.pageId fun _ => rfl

theorem keepsStats_flush (p : BufferPool π) (id : PageId) : KeepsStats p (p.flush id).2 := by
  cases hdirty : p.isDirty id with
  | false =>
    rw [flush_of_clean hdirty]
    exact KeepsStats.refl p
  | true =>
    cases hframe : p.frames.lookup id with
    | none => simp [isDirty, hframe] at hdirty
    | some frame =>
      rw [isDirty_of_lookup hframe] at hdirty
      have hwritten : KeepsStats p (p.writePage id frame.data).2 :=
        ⟨rfl, rfl, fun _ frame h => ⟨frame, h, rfl⟩⟩
      rcases hwrite : p.writePage id frame.data with ⟨e | ⟨⟩, p'⟩
      · rw [flush_of_error hframe hdirty hwrite]
        rw [hwrite] at hwritten
        exact hwritten
      · rw [flush_of_ok hframe hdirty hwrite]
        rw [hwrite] at hwritten
        have hcleared : KeepsStats p' (p'.clearDirty id) := keepsStats_setInfo p' id fun _ => rfl
        exact hwritten.trans hcleared

variable {E : EvictionPolicy π} (hevict : ∀ id s, E.onEvict id s = s) (order : FrameOrder)

include hevict

theorem keepsStats_evictOne (p : BufferPool π) : KeepsStats p (p.evictOne E order).2 := by
  have hchosen : KeepsStats p (p.chooseVictim E order).2 :=
    ⟨rfl, rfl, fun _ frame h => ⟨frame, h, rfl⟩⟩
  rcases evictOne_cases E order p with ⟨-, heq⟩ | ⟨victim, -, ⟨e, -, heq⟩ | ⟨-, heq⟩⟩
  · rw [heq]
    exact hchosen
  · rw [heq]
    exact hchosen.trans (keepsStats_flush _ victim)
  · rw [heq]
    have hflushed := hchosen.trans (keepsStats_flush (p.chooseVictim E order).2 victim)
    set p₂ := ((p.chooseVictim E order).2.flush victim).2
    refine hflushed.trans ⟨?_, ?_, fun k frame h => ?_⟩
    · exact (hevict victim _).trans (eviction_removeFrame p₂ victim)
    · change (p₂.removeFrame victim).2.tick = p₂.tick
      unfold removeFrame
      split <;> rfl
    · have hlookup : (p₂.removeFrame victim).2.frames.lookup k = some frame := h
      exact ⟨frame, lookup_of_removeFrame hlookup, rfl⟩

theorem keepsStats_makeRoom (size fuel : ℕ) (p : BufferPool π) :
    KeepsStats p (makeRoom E order size fuel p).2 ∧
      ∀ e ∈ makeRoomVictims E order size fuel p, KeepsStats p e.1 ∧
        (e.1.chooseVictim E order).1 = some e.2 := by
  induction fuel generalizing p with
  | zero =>
    refine ⟨?_, fun _ he => (List.not_mem_nil he).elim⟩
    unfold makeRoom
    split <;> exact KeepsStats.refl p
  | succ fuel ih =>
    have hone := keepsStats_evictOne hevict order p
    rcases makeRoom_round (E := E) (p := p) order size fuel with ⟨hnone, hsame | ⟨-, hsame⟩⟩ |
      ⟨id, hid, hvictims, hrest⟩
    · rw [hnone, hsame]
      exact ⟨KeepsStats.refl p, fun _ he => (List.not_mem_nil he).elim⟩
    · rw [hnone, hsame]
      exact ⟨hone, fun _ he => (List.not_mem_nil he).elim⟩
    · obtain ⟨hkeeps, hlater⟩ := ih (p.evictOne E order).2
      rw [hvictims, hrest]
      refine ⟨hone.trans hkeeps, fun e he => ?_⟩
      rcases List.mem_cons.mp he with rfl | he
      · refine ⟨KeepsStats.refl p, ?_⟩
        rcases evictOne_cases E order p with ⟨-, heq⟩ | ⟨victim, hvictim, ⟨e, -, heq⟩ | ⟨-, heq⟩⟩
        · rw [heq] at hid
          cases hid
        · rw [heq] at hid
          cases hid
        · rw [heq] at hid
          cases hid
          exact hvictim
      · exact ⟨hone.trans (hlater e he).1, (hlater e he).2⟩

omit hevict in
theorem good_makeRoomVictims {guards : List Guard} (hE : E.Lawful) (size fuel : ℕ)
    (h : Good p guards) : ∀ e ∈ makeRoomVictims E order size fuel p, Good e.1 guards := by
  induction fuel generalizing p with
  | zero => exact fun _ he => (List.not_mem_nil he).elim
  | succ fuel ih =>
    rcases makeRoom_round (E := E) (p := p) order size fuel with ⟨hnone, -⟩ | ⟨id, -, hvictims, -⟩
    · rw [hnone]
      exact fun _ he => (List.not_mem_nil he).elim
    · rw [hvictims]
      intro e he
      rcases List.mem_cons.mp he with rfl | he
      · exact h
      · exact ih (evictOne_spec order hE h).1.good e he

end Stats

/-! ## The metadata and the log -/

variable {p q : BufferPool MiningAwarePolicy} {guards : List Guard} {log : List Touch}

/-- The clocks count the touches, and the metadata are those of the log. -/
structure Tracked (p : BufferPool MiningAwarePolicy) (log : List Touch) : Prop where
  clock : p.eviction.clock = log.length
  tick : p.tick = log.length
  short : log.length < 2 ^ 32
  stats : ∀ id frame, p.frames.lookup id = some frame →
    frame.info.lastAccessTick + Touch.recency id log = log.length ∧
      frame.info.accessCount = Touch.freq id log ∧ frame.info.reloadCostNs = Touch.reload id log

theorem Tracked.new (budgetBytes : ℕ) (store : ChunkStore) :
    Tracked (BufferPool.new budgetBytes store MiningAwarePolicy.new) [] :=
  ⟨rfl, rfl, by decide, fun _ _ h => by cases h⟩

theorem Tracked.keeps (h : Tracked p log) (hpq : KeepsStats p q) : Tracked q log where
  clock := by rw [hpq.eviction, h.clock]
  tick := hpq.tick.trans h.tick
  short := h.short
  stats id frame hframe := by
    obtain ⟨old, hold, hstats⟩ := hpq.stats id frame hframe
    simp only [PageMeta.stats, Prod.mk.injEq] at hstats
    obtain ⟨htick, hcount, hcost⟩ := hstats
    rw [htick, hcount, hcost]
    exact h.stats id old hold

theorem Tracked.clock_touch (h : Tracked p log) (id : PageId) (t : Touch) :
    (p.eviction.touch id).clock = (t :: log).length ∧
      (p.tick + 1) % 2 ^ 64 = (t :: log).length := by
  have hshort := h.short
  constructor
  · change (p.eviction.clock + 1) % 2 ^ 64 = log.length + 1
    rw [h.clock]
    omega
  · rw [h.tick, List.length_cons]
    omega

/-- The pages that are not touched are one touch older. -/
theorem Tracked.older (h : Tracked p log) {t : Touch} {id : PageId} {frame : Frame}
    (hid : t.page ≠ id) (hframe : p.frames.lookup id = some frame) :
    frame.info.lastAccessTick + Touch.recency id (t :: log) = (t :: log).length ∧
      frame.info.accessCount = Touch.freq id (t :: log) ∧
      frame.info.reloadCostNs = Touch.reload id (t :: log) := by
  obtain ⟨htick, hcount, hcost⟩ := h.stats id frame hframe
  rw [Touch.recency, Touch.freq, Touch.reload, if_neg hid, if_neg hid, if_neg hid,
    List.length_cons]
  exact ⟨by omega, hcount, hcost⟩

/-- A page that is resident is touched. -/
theorem Tracked.hit (h : Tracked p log) {id : PageId} (hshort : log.length + 1 < 2 ^ 32) :
    Tracked { p.setInfo id (countPin p.tick) with
      tick := (p.tick + 1) % 2 ^ 64
      eviction := p.eviction.touch id } (⟨id, none⟩ :: log) where
  clock := (h.clock_touch id ⟨id, none⟩).1
  tick := (h.clock_touch id ⟨id, none⟩).2
  short := hshort
  stats k frame hframe := by
    have hlookup : (p.setInfo id (countPin p.tick)).frames.lookup k = some frame := hframe
    rw [lookup_setInfo] at hlookup
    by_cases hk : k = id
    · subst hk
      rw [if_pos rfl, Option.map_eq_some_iff] at hlookup
      obtain ⟨old, hold, rfl⟩ := hlookup
      obtain ⟨-, hcount, hcost⟩ := h.stats k old hold
      have hfreq := Touch.freq_le_length k log
      simp only [countPin, Touch.recency, Touch.freq, Touch.reload, if_true, List.length_cons,
        Option.getD_none]
      exact ⟨by rw [h.tick], by rw [hcount]; omega, hcost⟩
    · rw [if_neg hk] at hlookup
      exact h.older (Ne.symm hk) hlookup

/-- A page is brought in. -/
theorem Tracked.install (h : Tracked p log) (hshort : log.length + 1 < 2 ^ 32)
    {E : EvictionPolicy MiningAwarePolicy} (hE : E.onInsert = MiningAwarePolicy.touch)
    (r : Request) : Tracked (p.install E r) (⟨r.pageId, some r.reloadCostNs⟩ :: log) where
  clock := by
    change (E.onInsert r.pageId p.eviction).clock = _
    rw [hE]
    exact (h.clock_touch r.pageId _).1
  tick := (h.clock_touch r.pageId ⟨r.pageId, some r.reloadCostNs⟩).2
  short := hshort
  stats k frame hframe := by
    rw [lookup_install] at hframe
    by_cases hk : k = r.pageId
    · subst hk
      rw [if_pos rfl] at hframe
      cases hframe
      simp only [Request.info, Touch.recency, Touch.freq, Touch.reload, if_true, List.length_cons,
        Option.getD_some]
      exact ⟨by rw [h.tick], trivial, trivial⟩
    · rw [if_neg hk] at hframe
      exact h.older (Ne.symm hk) hframe

/-- The score of a page by the log. -/
def scoreBy {F : Type} (A : FloatOps F) (weights : EvictionWeights F) (log : List Touch)
    (id : PageId) : F :=
  MiningAwarePolicy.scoreOf A weights (Touch.recency id log) (Touch.freq id log)
    (Touch.reload id log)

variable {F : Type} {A : FloatOps F} {weights : EvictionWeights F} {order : FrameOrder}

/-- Of the resident pages without guards none has a larger score than `id`. -/
structure LargestScore (A : FloatOps F) (weights : EvictionWeights F) (guards : List Guard)
    (log : List Touch) (p : BufferPool MiningAwarePolicy) (id : PageId) : Prop where
  resident : p.frames.lookup id ≠ none
  free : liveGuards guards id = 0
  largest : ∀ k, p.frames.lookup k ≠ none → liveGuards guards k = 0 →
    A.gt (scoreBy A weights log k) (scoreBy A weights log id) = false

theorem Tracked.score_eq (h : Tracked p log) {id : PageId} {frame : Frame}
    (hframe : p.frames.lookup id = some frame) :
    p.eviction.score A weights frame.info = scoreBy A weights log id := by
  obtain ⟨htick, hcount, hcost⟩ := h.stats id frame hframe
  have hrecency : p.eviction.clock - frame.info.lastAccessTick = Touch.recency id log := by
    rw [h.clock]
    omega
  rw [MiningAwarePolicy.score, hrecency, hcount, hcost, scoreBy]

/-- The victim is the right one. -/
theorem largestScore_victim (hA : A.Ordered) (hpins : Pins p guards) (h : Tracked p log)
    {id : PageId}
    (hid : (p.chooseVictim (MiningAwarePolicy.policy A weights) order).1 = some id) :
    LargestScore A weights guards log p id := by
  obtain ⟨info, hmem, hpin, hlargest⟩ := MiningAwarePolicy.largest_victim hA hid
  obtain ⟨frame, hframe, rfl⟩ := p.mem_snapshot order hmem
  refine ⟨?_, (isPinned_iff hpins hframe).mp hpin, fun k hk hfree => ?_⟩
  · rw [hframe]
    exact Option.some_ne_none frame
  · obtain ⟨frame', hframe'⟩ := Option.ne_none_iff_exists'.mp hk
    rw [← h.score_eq hframe, ← h.score_eq hframe']
    exact hlargest _ (p.mem_snapshot_of_lookup order hframe')
      ((isPinned_iff hpins hframe').mpr hfree)

end BufferPool

/-- The policy counts the touches. -/
structure CountsTouches (E : EvictionPolicy MiningAwarePolicy) : Prop where
  onAccess : E.onAccess = MiningAwarePolicy.touch
  onInsert : E.onInsert = MiningAwarePolicy.touch
  onEvict : ∀ id s, E.onEvict id s = s

theorem MiningAwarePolicy.countsTouches {F : Type} (A : FloatOps F) (weights : EvictionWeights F) :
    CountsTouches (policy A weights) :=
  ⟨rfl, rfl, fun _ _ => rfl⟩

namespace Session

variable {order : FrameOrder}

section Log

variable {π : Type} (E : EvictionPolicy π) (order : FrameOrder)

/-- The touch that an operation makes if it succeeds. -/
def touch (s : Session π) (op : SessionOp) : List Touch :=
  match op, (s.step E order op).1 with
  | .pin _ id elapsedNs, .ok _ =>
    match s.pool.frames.lookup id with
    | some _ => [⟨id, none⟩]
    | none => [⟨id, some (min elapsedNs (2 ^ 32 - 1))⟩]
  | .insertPage id _, .ok _ => [⟨id, some 50000⟩]
  | _, _ => []

/-- The log of the touches, latest first, after some operations. -/
def touches : Session π → List Touch → List SessionOp → List Touch
  | _, log, [] => log
  | s, log, op :: ops => touches (s.next E order op) (s.touch E order op ++ log) ops

theorem length_le_touches (s : Session π) (log : List Touch) (ops : List SessionOp) :
    log.length ≤ (touches E order s log ops).length := by
  induction ops generalizing s log with
  | nil => exact le_rfl
  | cons op ops ih =>
    have hrest := ih (s.next E order op) (s.touch E order op ++ log)
    rw [List.length_append] at hrest
    exact (Nat.le_add_left _ _).trans hrest

end Log

variable {E : EvictionPolicy MiningAwarePolicy} {s : Session MiningAwarePolicy} {log : List Touch}

/-- What an operation does under the policy. -/
structure EvictsByScore (E : EvictionPolicy MiningAwarePolicy) (order : FrameOrder)
    (log : List Touch) (s : Session MiningAwarePolicy) (op : SessionOp) : Prop where
  tracked : (s.touch E order op ++ log).length < 2 ^ 32 →
    BufferPool.Tracked (s.next E order op).pool
      (s.touch E order op ++ log)
  victims : ∀ e ∈ s.victims E order op,
    BufferPool.KeepsStats s.pool e.1 ∧
      (e.1.chooseVictim E order).1 = some e.2

/-- An operation that touches and pushes out nothing. -/
theorem EvictsByScore.of_keeps {op : SessionOp} (h : BufferPool.Tracked s.pool log)
    (htouch : s.touch E order op = [])
    (hvictims : s.victims E order op = [])
    (hkeeps : BufferPool.KeepsStats s.pool
      (s.next E order op).pool) :
    EvictsByScore E order log s op where
  tracked _ := by
    rw [htouch]
    exact h.keeps hkeeps
  victims := by
    rw [hvictims]
    exact fun _ he => (List.not_mem_nil he).elim

theorem pin_evictsByScore (hE : CountsTouches E) (h : BufferPool.Tracked s.pool log)
    (mutable : Bool) (id : PageId) (elapsedNs : ℕ) :
    EvictsByScore E order log s (.pin mutable id elapsedNs) := by
  cases hhit : s.pool.frames.lookup id with
  | some frame =>
    have hpin : s.pool.pinPage E order mutable id elapsedNs =
        (.ok ⟨id, frame.addr, frame.data.length, mutable⟩,
          { s.pool.setInfo id (BufferPool.countPin s.pool.tick) with
            tick := (s.pool.tick + 1) % 2 ^ 64
            eviction := s.pool.eviction.touch id }) := by
      simp [BufferPool.pinPage, BufferPool.lookupAndPin, hhit, hE.onAccess]
    have htouch : s.touch E order (.pin mutable id elapsedNs) = [⟨id, none⟩] := by
      simp [touch, Session.step, hpin, hhit]
    constructor
    · rw [htouch]
      intro hshort
      simp only [next, Session.step, hpin]
      exact h.hit hshort
    · simp [Session.victims, hhit]
  | none =>
    have hnohit : s.pool.lookupAndPin E id mutable = none :=
      (BufferPool.lookupAndPin_none E).mpr hhit
    have hloaded : BufferPool.KeepsStats s.pool (s.pool.readPage id).2 :=
      ⟨rfl, rfl, fun _ frame h => ⟨frame, h, rfl⟩⟩
    rcases hread : s.pool.readPage id with ⟨e | data, p⟩
    · have hpin : s.pool.pinPage E order mutable id elapsedNs = (.error e, p) := by
        simp [BufferPool.pinPage, hnohit, hread]
      rw [hread] at hloaded
      apply EvictsByScore.of_keeps h
      · simp [touch, Session.step, hpin]
      · simp [Session.victims, hhit, hread]
      · simp only [next, Session.step, hpin]
        exact hloaded
    · rw [hread] at hloaded
      obtain ⟨hroomed, hvictims⟩ := BufferPool.keepsStats_makeRoom hE.onEvict order
        data.length (p.framesCount + 1) p
      have hvictims_eq : s.victims E order (.pin mutable id elapsedNs) =
          BufferPool.makeRoomVictims E order data.length (p.framesCount + 1) p := by
        simp [Session.victims, hhit, hread]
      have hkeeps := hloaded.trans hroomed
      rcases hroom : BufferPool.makeRoom E order data.length (p.framesCount + 1) p with ⟨e | ⟨⟩, q⟩
      all_goals rw [hroom] at hkeeps
      all_goals refine ⟨fun hshort => ?_, ?_⟩
      · have hpin : s.pool.pinPage E order mutable id elapsedNs = (.error e, q) := by
          simp [BufferPool.pinPage, hnohit, hread, hroom]
        have htouch : s.touch E order (.pin mutable id elapsedNs) = [] := by
          simp [touch, Session.step, hpin]
        rw [htouch]
        simp only [next, Session.step, hpin]
        exact h.keeps hkeeps
      · rw [hvictims_eq]
        exact fun e he => ⟨hloaded.trans (hvictims e he).1, (hvictims e he).2⟩
      · have hpin : s.pool.pinPage E order mutable id elapsedNs =
            (.ok ⟨id, q.nextAddr, data.length, mutable⟩,
              q.install E ⟨id, data, some mutable, min elapsedNs (2 ^ 32 - 1)⟩) := by
          simp [BufferPool.pinPage, hnohit, hread, hroom]
        have htouch : s.touch E order (.pin mutable id elapsedNs) =
            [⟨id, some (min elapsedNs (2 ^ 32 - 1))⟩] := by
          simp [touch, Session.step, hpin, hhit]
        rw [htouch] at hshort ⊢
        simp only [next, Session.step, hpin]
        exact (h.keeps hkeeps).install hshort hE.onInsert _
      · rw [hvictims_eq]
        exact fun e he => ⟨hloaded.trans (hvictims e he).1, (hvictims e he).2⟩

theorem insertPage_evictsByScore (hE : CountsTouches E) (h : BufferPool.Tracked s.pool log)
    (id : PageId) (data : Bytes) : EvictsByScore E order log s (.insertPage id data) := by
  obtain ⟨hkeeps, hvictims⟩ := BufferPool.keepsStats_makeRoom hE.onEvict order
    data.length (s.pool.framesCount + 1) s.pool
  refine ⟨fun hshort => ?_, hvictims⟩
  rcases hroom : BufferPool.makeRoom E order data.length (s.pool.framesCount + 1) s.pool with
    ⟨e | ⟨⟩, q⟩
  · have hinsert : s.pool.insertPage E order id data = (.error e, q) := by
      simp [BufferPool.insertPage, hroom]
    have htouch : s.touch E order (.insertPage id data) = [] := by
      simp [touch, Session.step, hinsert]
    rw [hroom] at hkeeps
    rw [htouch]
    simp only [next, Session.step, hinsert]
    exact h.keeps hkeeps
  · have hinsert : s.pool.insertPage E order id data =
        (.ok (), q.install E ⟨id, data, none, 50000⟩) := by
      simp [BufferPool.insertPage, hroom]
    have htouch : s.touch E order (.insertPage id data) = [⟨id, some 50000⟩] := by
      simp [touch, Session.step, hinsert]
    rw [hroom] at hkeeps
    rw [htouch] at hshort ⊢
    simp only [next, Session.step, hinsert]
    exact (h.keeps hkeeps).install hshort hE.onInsert _

theorem evictOne_evictsByScore (hE : CountsTouches E) (h : BufferPool.Tracked s.pool log) :
    EvictsByScore E order log s .evictOne := by
  refine ⟨fun _ => h.keeps (BufferPool.keepsStats_evictOne hE.onEvict order s.pool),
    fun e he => ?_⟩
  rcases BufferPool.evictOne_cases E order s.pool with ⟨-, heq⟩ | ⟨id, hid, ⟨e', -, heq⟩ | ⟨-, heq⟩⟩
  · simp [Session.victims, heq] at he
  · simp [Session.victims, heq] at he
  · simp only [Session.victims, heq, List.mem_singleton] at he
    subst he
    exact ⟨BufferPool.KeepsStats.refl s.pool, hid⟩

/-- Every operation keeps the metadata right and evicts by the score. -/
theorem evictsByScore (hE : CountsTouches E) (h : BufferPool.Tracked s.pool log) (op : SessionOp) :
    EvictsByScore E order log s op := by
  cases op with
  | pin mutable id elapsedNs => exact pin_evictsByScore hE h mutable id elapsedNs
  | insertPage id data => exact insertPage_evictsByScore hE h id data
  | evictOne => exact evictOne_evictsByScore hE h
  | poke i off byte =>
    apply EvictsByScore.of_keeps h rfl rfl
    cases hg : s.guards[i]? with
    | none =>
      simp only [next, Session.step, hg]
      exact BufferPool.KeepsStats.refl s.pool
    | some g =>
      by_cases hwrite : g.mutable ∧ off < g.len
      · simp only [next, Session.step, hg, if_pos hwrite]
        exact BufferPool.keepsStats_poke s.pool g off byte
      · simp only [next, Session.step, hg, if_neg hwrite]
        exact BufferPool.KeepsStats.refl s.pool
  | dropGuard i =>
    apply EvictsByScore.of_keeps h rfl rfl
    cases hg : s.guards[i]? with
    | none =>
      simp only [next, Session.step, hg]
      exact BufferPool.KeepsStats.refl s.pool
    | some g =>
      simp only [next, Session.step, hg]
      exact BufferPool.keepsStats_dropGuard s.pool g
  | markDirty id =>
    have hmarked : BufferPool.KeepsStats s.pool (s.pool.markDirty id) :=
      BufferPool.keepsStats_setInfo s.pool id fun _ => rfl
    exact EvictsByScore.of_keeps h rfl rfl hmarked
  | flush id =>
    exact EvictsByScore.of_keeps h rfl rfl (BufferPool.keepsStats_flush s.pool id)
  | setBudget bytes =>
    exact EvictsByScore.of_keeps h rfl rfl ⟨rfl, rfl, fun _ frame h => ⟨frame, h, rfl⟩⟩

/-- Along a run the metadata stay those of the log. -/
theorem tracked_run (hE : CountsTouches E) (h : BufferPool.Tracked s.pool log)
    (ops : List SessionOp)
    (hshort : (touches E order s log ops).length < 2 ^ 32) :
    BufferPool.Tracked (Library.run (next E order) s ops).pool
      (touches E order s log ops) := by
  induction ops generalizing s log with
  | nil => exact h
  | cons op ops ih =>
    have hlen := length_le_touches E order
      (s.next E order op)
      (s.touch E order op ++ log) ops
    exact ih ((evictsByScore hE h op).tracked (hlen.trans_lt hshort)) hshort

/-- The pools that the victims are picked from keep the invariant. -/
theorem Consistent.good_victims (hlawful : E.Lawful) (h : Consistent s) (op : SessionOp) :
    ∀ e ∈ s.victims E order op, BufferPool.Good e.1 s.guards := by
  cases op with
  | evictOne =>
    intro e he
    rcases hresult : (s.pool.evictOne E order).1 with e' | _ | id
    · simp [Session.victims, hresult] at he
    · simp [Session.victims, hresult] at he
    · simp only [Session.victims, hresult, List.mem_singleton] at he
      rw [he]
      exact h.good
  | pin mutable id elapsedNs =>
    intro e he
    have hread := BufferPool.readPage_keeps h.good id
    cases hhit : s.pool.frames.lookup id with
    | some frame => simp [Session.victims, hhit] at he
    | none =>
      rcases hload : (s.pool.readPage id).1 with e' | data
      · simp [Session.victims, hhit, hload] at he
      · simp only [Session.victims, hhit, hload] at he
        exact BufferPool.good_makeRoomVictims order hlawful _ _ hread.good e he
  | insertPage id data => exact BufferPool.good_makeRoomVictims order hlawful _ _ h.good
  | _ => exact fun e he => (List.not_mem_nil he).elim

/-- In every state that a thread can reach with fewer than `2 ^ 32` touches, whatever
an operation pushes out has the largest score of all that may go: by the true
recency, frequency and cost of each page. -/
theorem evicts_largest_score {F : Type} {A : FloatOps F} (hA : A.Ordered)
    (weights : EvictionWeights F) (order : FrameOrder) (budgetBytes : ℕ) (store : ChunkStore)
    (ops : List SessionOp)
    (hlegal : (Session.new (BufferPool.new budgetBytes store MiningAwarePolicy.new)).Legal
      (MiningAwarePolicy.policy A weights) order ops)
    (hshort : (touches (MiningAwarePolicy.policy A weights) order
      (Session.new (BufferPool.new budgetBytes store MiningAwarePolicy.new))
      [] ops).length < 2 ^ 32)
    (op : SessionOp) :
    ∀ e ∈ (run (next (MiningAwarePolicy.policy A weights) order)
        (Session.new (BufferPool.new budgetBytes store MiningAwarePolicy.new)) ops).victims
          (MiningAwarePolicy.policy A weights) order op,
      BufferPool.LargestScore A weights
        (run (next (MiningAwarePolicy.policy A weights) order)
          (Session.new (BufferPool.new budgetBytes store MiningAwarePolicy.new)) ops).guards
        (touches (MiningAwarePolicy.policy A weights) order
          (Session.new (BufferPool.new budgetBytes store MiningAwarePolicy.new))
          [] ops) e.1 e.2 := by
  have hlawful : (MiningAwarePolicy.policy A weights).Lawful := MiningAwarePolicy.lawful hA
  have hcounts := MiningAwarePolicy.countsTouches A weights
  have hconsistent := (Consistent.new budgetBytes store MiningAwarePolicy.new).run hlawful hlegal
  have htracked := tracked_run hcounts (BufferPool.Tracked.new budgetBytes store) ops hshort
  intro e he
  have hevicts : EvictsByScore (MiningAwarePolicy.policy A weights) order _ _ op :=
    evictsByScore hcounts htracked op
  obtain ⟨hkeeps, hchosen⟩ := hevicts.victims e he
  have hgood := hconsistent.good_victims hlawful op e he
  exact BufferPool.largestScore_victim hA hgood.pins (htracked.keeps hkeeps) hchosen

/-- Two pages, each touched twice, and page 2 last. -/
def pagesTouched : List SessionOp :=
  [.insertPage 1 [7], .insertPage 2 [8], .pin false 1 0, .pin false 2 0, .dropGuard 0, .dropGuard 0]

/-- Page 1 goes, the one whose last touch is longer ago. -/
theorem evicts_largest_score_two :
    ∃ e, e ∈ (run (next (MiningAwarePolicy.policy exactOps (.default exactOps)) asListed)
        (Session.new (BufferPool.new 4 emptyStore MiningAwarePolicy.new)) pagesTouched).victims
          (MiningAwarePolicy.policy exactOps (.default exactOps)) asListed .evictOne ∧ e.2 = 1 ∧
      BufferPool.LargestScore exactOps (.default exactOps)
        (run (next (MiningAwarePolicy.policy exactOps (.default exactOps)) asListed)
          (Session.new (BufferPool.new 4 emptyStore MiningAwarePolicy.new)) pagesTouched).guards
        (touches (MiningAwarePolicy.policy exactOps (.default exactOps)) asListed
          (Session.new (BufferPool.new 4 emptyStore MiningAwarePolicy.new)) [] pagesTouched)
        e.1 e.2 :=
  ⟨⟨_, 1⟩, List.mem_singleton.mpr rfl, rfl,
    evicts_largest_score exactOps_ordered (.default exactOps) asListed 4 emptyStore pagesTouched
      ⟨⟨List.not_mem_nil, pinsFit_of_length (by decide +kernel)⟩,
        ⟨(by decide +kernel : 2 ∉ [1]), pinsFit_of_length (by decide +kernel)⟩,
        ⟨trivial, pinsFit_of_length (by decide +kernel)⟩,
        ⟨trivial, pinsFit_of_length (by decide +kernel)⟩,
        ⟨trivial, pinsFit_of_length (by decide +kernel)⟩,
        ⟨trivial, pinsFit_of_length (by decide +kernel)⟩, trivial⟩
      (by decide +kernel) .evictOne _ (List.mem_singleton.mpr rfl)⟩

end Session

end AirHuim
