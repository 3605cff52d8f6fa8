import AirHuim.BufferPool.Failures
import AirHuim.BufferPool.Lru

/-!
# A thread's runs under LRU

Along a run the times of the policy are the positions in the log of the pins and
insertions that succeeded, so every page that is pushed out is the one that was
touched the longest ago, and a page is refused as `full` exactly if it does not
fit beside the pages under guards. Both end with the `u64` clock of the policy.
-/

namespace AirHuim

open Library

namespace Session

section Log

variable {π : Type} (E : EvictionPolicy π) (order : FrameOrder)

/-- The page that an operation pins or creates. -/
def touched (s : Session π) (op : SessionOp) : List PageId :=
  match op, (s.step E order op).1 with
  | .pin _ id _, .ok _ => [id]
  | .insertPage id _, .ok _ => [id]
  | _, _ => []

/-- The log of the pages touched, latest first, after some operations. -/
def touchLog : Session π → List PageId → List SessionOp → List PageId
  | _, log, [] => log
  | s, log, op :: ops => touchLog (s.next E order op) (s.touched E order op ++ log) ops

/-- The pages that an operation pushes out, each with the pool it was picked from. -/
def victims (s : Session π) : SessionOp → List (BufferPool π × PageId)
  | .evictOne =>
    match (s.pool.evictOne E order).1 with
    | .ok (some id) => [(s.pool, id)]
    | _ => []
  | .pin _ id _ =>
    match s.pool.frames.lookup id, (s.pool.readPage id).1 with
    | none, .ok data =>
      BufferPool.makeRoomVictims E order data.length ((s.pool.readPage id).2.framesCount + 1)
        (s.pool.readPage id).2
    | _, _ => []
  | .insertPage _ data =>
    BufferPool.makeRoomVictims E order data.length (s.pool.framesCount + 1) s.pool
  | _ => []

theorem touchLog_append (s : Session π) (log : List PageId) (ops later : List SessionOp) :
    touchLog E order s log (ops ++ later) =
      touchLog E order (run (next E order) s ops) (touchLog E order s log ops) later := by
  induction ops generalizing s log with
  | nil => rfl
  | cons op ops ih => exact ih (s.next E order op) (s.touched E order op ++ log)

theorem length_le_touchLog (s : Session π) (log : List PageId) (ops : List SessionOp) :
    log.length ≤ (touchLog E order s log ops).length := by
  induction ops generalizing s log with
  | nil => exact le_rfl
  | cons op ops ih =>
    have hrest := ih (s.next E order op) (s.touched E order op ++ log)
    rw [List.length_append] at hrest
    exact (Nat.le_add_left _ _).trans hrest

end Log

variable {order : FrameOrder} {s : Session LruPolicy} {log : List PageId}

/-- What an operation does under LRU. -/
structure Evicts (order : FrameOrder) (log : List PageId) (s : Session LruPolicy) (op : SessionOp) :
    Prop where
  recent : (s.touched LruPolicy.policy order op ++ log).length ≤ u64Max →
    BufferPool.Recent (s.next LruPolicy.policy order op).pool
      (s.touched LruPolicy.policy order op ++ log)
  fails : (s.next LruPolicy.policy order op).pool.store.fails = s.pool.store.fails
  oldest : ∀ e ∈ s.victims LruPolicy.policy order op, BufferPool.Oldest s.guards log e.1 e.2
  gone : ∀ k, (s.next LruPolicy.policy order op).pool.frames.lookup k = none →
    s.pool.frames.lookup k = none ∨
      k ∈ (s.victims LruPolicy.policy order op).map Prod.snd

/-- An operation that neither touches nor pushes out a page. -/
theorem Evicts.of_same {op : SessionOp} (h : BufferPool.Recent s.pool log)
    (htouched : s.touched LruPolicy.policy order op = [])
    (hvictims : s.victims LruPolicy.policy order op = [])
    (heviction : (s.next LruPolicy.policy order op).pool.eviction = s.pool.eviction)
    (hfails : (s.next LruPolicy.policy order op).pool.store.fails = s.pool.store.fails)
    (hresident : ∀ k, (s.next LruPolicy.policy order op).pool.frames.lookup k = none ↔
      s.pool.frames.lookup k = none) : Evicts order log s op where
  recent _ := by
    rw [htouched]
    exact h.congr heviction fun k hk hnone => hk ((hresident k).mpr hnone)
  fails := hfails
  oldest := by
    rw [hvictims]
    exact fun _ he => (List.not_mem_nil he).elim
  gone k hk := Or.inl ((hresident k).mp hk)

/-- An operation that makes room and then touches nothing. -/
theorem Evicts.of_room {op : SessionOp} {p : BufferPool LruPolicy}
    (h : BufferPool.MadeRoom s.guards log p (s.next LruPolicy.policy order op).pool
      (s.victims LruPolicy.policy order op))
    (hfails : p.store.fails = s.pool.store.fails)
    (hresident : ∀ k, p.frames.lookup k = none → s.pool.frames.lookup k = none)
    (htouched : s.touched LruPolicy.policy order op = []) : Evicts order log s op where
  recent _ := by
    rw [htouched]
    exact h.recent
  fails := h.fails.trans hfails
  oldest := h.oldest
  gone k hk := (h.gone k hk).imp_left (hresident k)

/-- An operation that makes room for a page and installs it. -/
theorem Evicts.of_install {op : SessionOp} {p q : BufferPool LruPolicy} {r : Request}
    (h : BufferPool.MadeRoom s.guards log p q (s.victims LruPolicy.policy order op))
    (hfails : p.store.fails = s.pool.store.fails)
    (hresident : ∀ k, p.frames.lookup k = none → s.pool.frames.lookup k = none)
    (htouched : s.touched LruPolicy.policy order op = [r.pageId])
    (hnext : (s.next LruPolicy.policy order op).pool = q.install LruPolicy.policy r) :
    Evicts order log s op where
  recent hlen := by
    rw [htouched] at hlen ⊢
    rw [hnext]
    exact h.recent.install hlen rfl
  fails := by
    rw [hnext]
    exact h.fails.trans hfails
  oldest := h.oldest
  gone k hk := by
    rw [hnext] at hk
    exact (h.gone k (BufferPool.absent_of_install hk)).imp_left (hresident k)

theorem lookup_setInfo_none_iff {π : Type} (p : BufferPool π) (id : PageId)
    (f : PageMeta → PageMeta) (k : PageId) :
    (p.setInfo id f).frames.lookup k = none ↔ p.frames.lookup k = none := by
  rw [BufferPool.lookup_setInfo]
  by_cases hk : k = id
  · rw [if_pos hk, hk, Option.map_eq_none_iff]
  · rw [if_neg hk]

theorem pin_evicts (h : Consistent s) (hrecent : BufferPool.Recent s.pool log) (mutable : Bool)
    (id : PageId) (elapsedNs : ℕ) : Evicts order log s (.pin mutable id elapsedNs) := by
  rcases BufferPool.pinPage_cases LruPolicy.policy order mutable s.pool id elapsedNs with
    ⟨g, q, hhit, heq⟩ | ⟨hmiss, hrest⟩
  · obtain ⟨frame, hframe, -, rfl⟩ := BufferPool.lookupAndPin_some hhit
    have htouched : s.touched LruPolicy.policy order (.pin mutable id elapsedNs) = [id] := by
      simp [touched, Session.step, heq]
    have hvictims : s.victims LruPolicy.policy order (.pin mutable id elapsedNs) = [] := by
      simp [victims, hframe]
    have hresident := lookup_setInfo_none_iff s.pool id (BufferPool.countPin s.pool.tick)
    constructor
    · rw [htouched]
      intro hroom
      simp only [next, Session.step, heq]
      exact hrecent.touch hroom rfl fun k _ hk hnone => hk ((hresident k).mpr hnone)
    · simp only [next, Session.step, heq, BufferPool.store_setInfo]
    · rw [hvictims]
      exact fun _ he => (List.not_mem_nil he).elim
    · simp only [next, Session.step, heq]
      exact fun k hk => Or.inl ((hresident k).mp hk)
  · have hread := BufferPool.readPage_keeps h.good id
    have hfails := BufferPool.fails_readPage s.pool id
    have hrecent' : BufferPool.Recent (s.pool.readPage id).2 log :=
      hrecent.congr rfl fun _ hk => hk
    rcases hrest with ⟨e, herror, heq⟩ | ⟨data, q, result, hok, hroom, hend⟩
    · have htouched : s.touched LruPolicy.policy order (.pin mutable id elapsedNs) = [] := by
        simp [touched, Session.step, heq]
      have hvictims : s.victims LruPolicy.policy order (.pin mutable id elapsedNs) = [] := by
        simp [victims, hmiss, herror]
      apply Evicts.of_same hrecent htouched hvictims
      · simp only [next, Session.step, heq]
        rfl
      · simp only [next, Session.step, heq]
        exact hfails
      · simp only [next, Session.step, heq]
        exact fun _ => Iff.rfl
    · have hmade := BufferPool.makeRoom_lru hrecent' hread.good order data.length
        ((s.pool.readPage id).2.framesCount + 1)
      have hvictims : s.victims LruPolicy.policy order (.pin mutable id elapsedNs) =
          BufferPool.makeRoomVictims LruPolicy.policy order data.length
            ((s.pool.readPage id).2.framesCount + 1) (s.pool.readPage id).2 := by
        simp [victims, hmiss, hok]
      rw [hroom, ← hvictims] at hmade
      rcases hend with ⟨e, -, heq⟩ | ⟨-, r, hid, -, -, heq⟩
      · have hnext : (s.next LruPolicy.policy order (.pin mutable id elapsedNs)).pool = q := by
          simp only [next, Session.step, heq]
        rw [← hnext] at hmade
        apply Evicts.of_room hmade hfails fun _ hk => hk
        simp [touched, Session.step, heq]
      · have hnext : (s.next LruPolicy.policy order (.pin mutable id elapsedNs)).pool =
            q.install LruPolicy.policy r := by
          simp only [next, Session.step, heq]
        apply Evicts.of_install hmade hfails (fun _ hk => hk) ?_ hnext
        simp [touched, Session.step, heq, hid]

theorem insertPage_evicts (h : Consistent s) (hrecent : BufferPool.Recent s.pool log)
    (id : PageId) (data : Bytes) : Evicts order log s (.insertPage id data) := by
  have hmade := BufferPool.makeRoom_lru hrecent h.good order data.length (s.pool.framesCount + 1)
  rcases hroom : BufferPool.makeRoom LruPolicy.policy order data.length (s.pool.framesCount + 1)
    s.pool with ⟨e | ⟨⟩, q⟩
  · have heq : s.pool.insertPage LruPolicy.policy order id data = (.error e, q) := by
      simp [BufferPool.insertPage, hroom]
    have hnext : (s.next LruPolicy.policy order (.insertPage id data)).pool = q := by
      simp only [next, Session.step, heq]
    rw [hroom, ← hnext] at hmade
    apply Evicts.of_room hmade rfl fun _ hk => hk
    simp [touched, Session.step, heq]
  · have heq : s.pool.insertPage LruPolicy.policy order id data =
        (.ok (), q.install LruPolicy.policy ⟨id, data, none, 50000⟩) := by
      simp [BufferPool.insertPage, hroom]
    have hnext : (s.next LruPolicy.policy order (.insertPage id data)).pool =
        q.install LruPolicy.policy ⟨id, data, none, 50000⟩ := by
      simp only [next, Session.step, heq]
    rw [hroom] at hmade
    apply Evicts.of_install hmade rfl (fun _ hk => hk) ?_ hnext
    simp [touched, Session.step, heq]

theorem evictOne_evicts (h : Consistent s) (hrecent : BufferPool.Recent s.pool log) :
    Evicts order log s .evictOne := by
  obtain ⟨hfails, hcases⟩ := BufferPool.evictOne_rest LruPolicy.policy order h.good
  rcases hcases with ⟨-, hno, hresident⟩ | ⟨id, hchosen, hid, -, -, hothers⟩
  · have hvictims : s.victims LruPolicy.policy order .evictOne = [] := by
      rcases hresult : (s.pool.evictOne LruPolicy.policy order).1 with e | _ | id
      · simp [victims, hresult]
      · simp [victims, hresult]
      · exact (hno id hresult).elim
    refine ⟨fun _ => hrecent.evictOne h.good order, hfails, ?_, fun k hk => Or.inl (hresident k hk)⟩
    rw [hvictims]
    exact fun _ he => (List.not_mem_nil he).elim
  · have hvictims : s.victims LruPolicy.policy order .evictOne = [(s.pool, id)] := by
      simp [victims, hid]
    refine ⟨fun _ => hrecent.evictOne h.good order, hfails, ?_, fun k hk => ?_⟩
    · rw [hvictims]
      intro e he
      obtain rfl := List.mem_singleton.mp he
      exact BufferPool.oldest_victim h.good.pins hrecent hchosen
    · rw [hvictims]
      by_cases hk' : k = id
      · exact Or.inr (List.mem_singleton.mpr hk')
      · exact Or.inl (hothers k hk' hk)

theorem poke_evicts (h : Consistent s) (hrecent : BufferPool.Recent s.pool log) (i off : ℕ)
    (byte : UInt8) : Evicts order log s (.poke i off byte) := by
  have hsame : (s.next LruPolicy.policy order (.poke i off byte)).pool = s.pool ∨
      ∃ g ∈ s.guards, (s.next LruPolicy.policy order (.poke i off byte)).pool =
        s.pool.poke g off byte := by
    cases hg : s.guards[i]? with
    | none => simp [next, Session.step, hg]
    | some g =>
      by_cases hwrite : g.mutable ∧ off < g.len
      · simp only [next, Session.step, hg, if_pos hwrite]
        exact Or.inr ⟨g, List.mem_of_getElem? hg, rfl⟩
      · simp [next, Session.step, hg, if_neg hwrite]
  apply Evicts.of_same hrecent rfl rfl
  · rcases hsame with heq | ⟨g, -, heq⟩
    · rw [heq]
    · rw [heq, BufferPool.eviction_poke]
  · rcases hsame with heq | ⟨g, -, heq⟩
    · rw [heq]
    · rw [heq, BufferPool.store_poke]
  · intro k
    rcases hsame with heq | ⟨g, hg, heq⟩
    · rw [heq]
    · rw [heq, BufferPool.lookup_poke (h.good.pins.backed g hg)]
      split
      · rename_i hk
        rw [Option.map_eq_none_iff]
      · exact Iff.rfl

theorem dropGuard_evicts (hrecent : BufferPool.Recent s.pool log) (i : ℕ) :
    Evicts order log s (.dropGuard i) := by
  cases hg : s.guards[i]? with
  | none =>
    apply Evicts.of_same hrecent rfl rfl <;> simp [next, Session.step, hg]
  | some g =>
    apply Evicts.of_same hrecent rfl rfl
    · simp only [next, Session.step, hg, BufferPool.dropGuard]
      split <;> simp only [BufferPool.unpin, BufferPool.markDirty, BufferPool.eviction_setInfo]
    · simp only [next, Session.step, hg, BufferPool.dropGuard]
      split <;> simp only [BufferPool.unpin, BufferPool.markDirty, BufferPool.store_setInfo]
    · intro k
      simp only [next, Session.step, hg, BufferPool.dropGuard]
      split <;> simp only [BufferPool.unpin, BufferPool.markDirty, lookup_setInfo_none_iff]

/-- Every operation keeps the times right and pushes out the oldest pages only. -/
theorem Consistent.evicts (h : Consistent s) (hrecent : BufferPool.Recent s.pool log)
    (op : SessionOp) : Evicts order log s op := by
  cases op with
  | pin mutable id elapsedNs => exact pin_evicts h hrecent mutable id elapsedNs
  | poke i off byte => exact poke_evicts h hrecent i off byte
  | dropGuard i => exact dropGuard_evicts hrecent i
  | insertPage id data => exact insertPage_evicts h hrecent id data
  | markDirty id =>
    apply Evicts.of_same hrecent rfl rfl
    · exact BufferPool.eviction_setInfo s.pool id _
    · exact congrArg ChunkStore.fails (BufferPool.store_setInfo s.pool id _)
    · exact lookup_setInfo_none_iff s.pool id _
  | flush id =>
    have hrest := BufferPool.flush_rest s.pool id
    have hflush := BufferPool.flush_flushes h.good id
    apply Evicts.of_same hrecent rfl rfl
    · exact hrest.1
    · exact hrest.2
    · exact fun k => ⟨hflush.resident k, hflush.keeps.absent k⟩
  | evictOne => exact evictOne_evicts h hrecent
  | setBudget bytes => exact Evicts.of_same hrecent rfl rfl rfl rfl fun _ => Iff.rfl

/-- Along a run the policy's times stay the positions in the log. -/
theorem Consistent.recent_run (h : Consistent s) (hrecent : BufferPool.Recent s.pool log)
    {ops : List SessionOp} (hlegal : s.Legal LruPolicy.policy order ops)
    (hclock : (touchLog LruPolicy.policy order s log ops).length ≤ u64Max) :
    BufferPool.Recent (Library.run (next LruPolicy.policy order) s ops).pool
        (touchLog LruPolicy.policy order s log ops) ∧
      (Library.run (next LruPolicy.policy order) s ops).pool.store.fails = s.pool.store.fails := by
  induction ops generalizing s log with
  | nil => exact ⟨hrecent, rfl⟩
  | cons op ops ih =>
    have hevicts : Evicts order log s op := h.evicts hrecent op
    have hlen := length_le_touchLog LruPolicy.policy order
      (s.next LruPolicy.policy order op) (s.touched LruPolicy.policy order op ++ log) ops
    have hnext := h.step LruPolicy.lawful hlegal.1.1 hlegal.1.2
    obtain ⟨hrun, hfails⟩ := ih hnext (hevicts.recent (hlen.trans hclock)) hlegal.2 hclock
    exact ⟨hrun, hfails.trans hevicts.fails⟩

/-- What is pushed out is the unguarded page that was touched the longest ago. -/
structure EvictsOldest (order : FrameOrder) (log : List PageId) (s : Session LruPolicy)
    (op : SessionOp) : Prop where
  oldest : ∀ e ∈ s.victims LruPolicy.policy order op, BufferPool.Oldest s.guards log e.1 e.2
  gone : ∀ k, s.pool.frames.lookup k ≠ none →
    (s.next LruPolicy.policy order op).pool.frames.lookup k = none →
      k ∈ (s.victims LruPolicy.policy order op).map Prod.snd

/-- In every state that a thread can reach with at most `u64Max` touches, every
operation evicts in the order of the touches. -/
theorem evicts_oldest (order : FrameOrder) (budgetBytes : ℕ) (store : ChunkStore)
    (ops : List SessionOp)
    (hlegal : (Session.new (BufferPool.new budgetBytes store LruPolicy.new)).Legal
      LruPolicy.policy order ops)
    (hclock : (touchLog LruPolicy.policy order
      (Session.new (BufferPool.new budgetBytes store LruPolicy.new)) [] ops).length ≤ u64Max)
    (op : SessionOp) :
    EvictsOldest order
      (touchLog LruPolicy.policy order
        (Session.new (BufferPool.new budgetBytes store LruPolicy.new)) [] ops)
      (run (next LruPolicy.policy order)
        (Session.new (BufferPool.new budgetBytes store LruPolicy.new)) ops) op := by
  have hstart := Consistent.new budgetBytes store LruPolicy.new
  have hrecent := (hstart.recent_run (BufferPool.Recent.new budgetBytes store) hlegal hclock).1
  have hevicts : Evicts order _ _ op := (hstart.run LruPolicy.lawful hlegal).evicts hrecent op
  exact ⟨hevicts.oldest, fun k hk hgone => (hevicts.gone k hgone).resolve_left hk⟩

/-- The frame map is iterated in the order in which it is listed. -/
def asListed : FrameOrder := ⟨fun _ frames => frames, fun _ _ => List.Perm.refl _⟩

/-- An empty store that works. -/
def emptyStore : ChunkStore := ⟨fun _ => none, 0, fun _ => false, fun _ => none⟩

/-- Page 2 is the older one once page 1 was pinned again. -/
theorem evicts_oldest_repinned :
    EvictsOldest asListed
      (touchLog LruPolicy.policy asListed
        (Session.new (BufferPool.new 4 emptyStore LruPolicy.new)) []
        [.insertPage 1 [7], .insertPage 2 [8], .pin false 1 0, .dropGuard 0])
      (run (next LruPolicy.policy asListed)
        (Session.new (BufferPool.new 4 emptyStore LruPolicy.new))
        [.insertPage 1 [7], .insertPage 2 [8], .pin false 1 0, .dropGuard 0]) .evictOne :=
  evicts_oldest asListed 4 emptyStore
    [.insertPage 1 [7], .insertPage 2 [8], .pin false 1 0, .dropGuard 0]
    ⟨⟨List.not_mem_nil, pinsFit_of_length (by decide +kernel)⟩,
      ⟨(by decide +kernel : 2 ∉ [1]), pinsFit_of_length (by decide +kernel)⟩,
      ⟨trivial, pinsFit_of_length (by decide +kernel)⟩,
      ⟨trivial, pinsFit_of_length (by decide +kernel)⟩, trivial⟩ (by decide +kernel) .evictOne

/-- A page that is not there is refused as `full` exactly if it does not fit
beside the pages with live guards, and else there is an answer. -/
structure RefusesExactly (order : FrameOrder) (s : Session LruPolicy) : Prop where
  pin : ∀ mutable id elapsedNs data, s.pool.frames.lookup id = none →
    s.pool.store.pages id = some data →
    BufferPool.FullExactly (s.step LruPolicy.policy order (.pin mutable id elapsedNs)).1
      (s.pool.budgetBytes < data.length + BufferPool.guardedBytes s.guards s.pool)
  insertPage : ∀ id data,
    BufferPool.FullExactly (s.step LruPolicy.policy order (.insertPage id data)).1
      (s.pool.budgetBytes < data.length + BufferPool.guardedBytes s.guards s.pool)

theorem Consistent.refusesExactly (h : Consistent s) (hrecent : BufferPool.Recent s.pool log)
    (hclock : log.length < u64Max) (hworks : ∀ n, s.pool.store.fails n = false) :
    RefusesExactly order s where
  pin mutable id elapsedNs data hmiss hstored := by
    have hread : (s.pool.readPage id).1 = .ok data := by
      simp [BufferPool.readPage, ChunkStore.readPage, hworks, hstored]
    have hkeeps := BufferPool.readPage_keeps h.good id
    have hworks' : ∀ n, (s.pool.readPage id).2.store.fails n = false := by
      rw [BufferPool.fails_readPage]
      exact hworks
    have hguarded := BufferPool.guardedBytes_keeps hkeeps
    have hrecent' : BufferPool.Recent (s.pool.readPage id).2 log :=
      hrecent.congr rfl fun _ hk => hk
    have hfull := BufferPool.makeRoom_full hrecent' hkeeps.good hclock hworks' order data.length
      (Nat.lt_succ_self _)
    rw [hguarded, hkeeps.budget] at hfull
    rcases BufferPool.pinPage_cases LruPolicy.policy order mutable s.pool id elapsedNs with
      ⟨g, q, hhit, -⟩ | ⟨-, ⟨e, herror, -⟩ | ⟨data', q, result, hok, hroom, hend⟩⟩
    · rw [(BufferPool.lookupAndPin_none _).mpr hmiss] at hhit
      cases hhit
    · rw [hread] at herror
      cases herror
    · rw [hread] at hok
      cases hok
      rw [hroom] at hfull
      rcases hend with ⟨e, rfl, heq⟩ | ⟨rfl, r, -, -, -, heq⟩
      · simp only [Session.step, heq]
        exact hfull.of_error
      · simp only [Session.step, heq]
        exact hfull.of_ok
  insertPage id data := by
    have hfull := BufferPool.makeRoom_full hrecent h.good hclock hworks order data.length
      (Nat.lt_succ_self _)
    rcases hroom : BufferPool.makeRoom LruPolicy.policy order data.length (s.pool.framesCount + 1)
      s.pool with ⟨e | ⟨⟩, q⟩
    · simp only [Session.step, BufferPool.insertPage, hroom]
      rw [hroom] at hfull
      exact hfull.of_error
    · simp only [Session.step, BufferPool.insertPage, hroom]
      rw [hroom] at hfull
      exact hfull.of_ok

/-- In every state that a thread can reach over a store that works, with fewer
than `u64Max` touches, pages are refused exactly if there is no room for them. -/
theorem refuses_exactly (order : FrameOrder) (budgetBytes : ℕ) (store : ChunkStore)
    (hworks : ∀ n, store.fails n = false) (ops : List SessionOp)
    (hlegal : (Session.new (BufferPool.new budgetBytes store LruPolicy.new)).Legal
      LruPolicy.policy order ops)
    (hclock : (touchLog LruPolicy.policy order
      (Session.new (BufferPool.new budgetBytes store LruPolicy.new)) [] ops).length < u64Max) :
    RefusesExactly order
      (run (next LruPolicy.policy order)
        (Session.new (BufferPool.new budgetBytes store LruPolicy.new)) ops) := by
  have hstart := Consistent.new budgetBytes store LruPolicy.new
  obtain ⟨hrecent, hfails⟩ :=
    hstart.recent_run (BufferPool.Recent.new budgetBytes store) hlegal hclock.le
  have hworks' : ∀ n, (run (next LruPolicy.policy order)
      (Session.new (BufferPool.new budgetBytes store LruPolicy.new)) ops).pool.store.fails n =
        false := by
    rw [hfails]
    exact hworks
  exact (hstart.run LruPolicy.lawful hlegal).refusesExactly hrecent hclock hworks'

/-- Page 1 is under a guard and leaves one byte of room. -/
theorem refuses_exactly_guarded :
    RefusesExactly asListed
      (run (next LruPolicy.policy asListed)
        (Session.new (BufferPool.new 4 emptyStore LruPolicy.new))
        [.insertPage 1 [7, 8, 9], .pin false 1 0]) :=
  refuses_exactly asListed 4 emptyStore (fun _ => rfl) [.insertPage 1 [7, 8, 9], .pin false 1 0]
    ⟨⟨List.not_mem_nil, pinsFit_of_length (by decide +kernel)⟩,
      ⟨trivial, pinsFit_of_length (by decide +kernel)⟩, trivial⟩ (by decide +kernel)

/-! ## The end of the clock -/

/-- A page is pinned and let go, `n` times. -/
def rounds (id : PageId) (n : ℕ) : List SessionOp :=
  (List.replicate n [SessionOp.pin false id 0, .dropGuard 0]).flatten

/-- What rounds on a resident page change in a session without guards: the
policy's clock, and the page's time. -/
structure Rounds (order : FrameOrder) (id : PageId) (n : ℕ) (log : List PageId)
    (s s' : Session LruPolicy) : Prop where
  legal : s.Legal LruPolicy.policy order (rounds id n)
  touches : touchLog LruPolicy.policy order s log (rounds id n) = List.replicate n id ++ log
  guards : s'.guards = []
  eviction : s'.pool.eviction = (LruPolicy.touch id)^[n] s.pool.eviction
  used : s'.pool.usedBytes = s.pool.usedBytes
  budget : s'.pool.budgetBytes = s.pool.budgetBytes
  store : s'.pool.store = s.pool.store
  resident : ∀ k, s'.pool.frames.lookup k = none ↔ s.pool.frames.lookup k = none

theorem round_spec (order : FrameOrder) {id : PageId} (hguards : s.guards = [])
    (hresident : s.pool.frames.lookup id ≠ none) (log : List PageId) :
    Rounds order id 1 log s (run (next LruPolicy.policy order) s (rounds id 1)) := by
  obtain ⟨frame, hframe⟩ := Option.ne_none_iff_exists'.mp hresident
  have hpin : s.next LruPolicy.policy order (.pin false id 0) =
      { s with
        pool := { s.pool.setInfo id (BufferPool.countPin s.pool.tick) with
          tick := (s.pool.tick + 1) % 2 ^ 64
          eviction := s.pool.eviction.touch id }
        guards := [⟨id, frame.addr, frame.data.length, false⟩]
        seen := id :: s.seen } := by
    simp [next, Session.step, BufferPool.pinPage, BufferPool.lookupAndPin, hframe, hguards]
    rfl
  set pool := { s.pool.setInfo id (BufferPool.countPin s.pool.tick) with
    tick := (s.pool.tick + 1) % 2 ^ 64
    eviction := s.pool.eviction.touch id } with hpool
  have hrun : run (next LruPolicy.policy order) s (rounds id 1) =
      { s with pool := pool.unpin id, guards := [], seen := id :: s.seen } := by
    change (s.next LruPolicy.policy order (.pin false id 0)).next LruPolicy.policy order
      (.dropGuard 0) = _
    rw [hpin]
    rfl
  have htouched : s.touched LruPolicy.policy order (.pin false id 0) = [id] := by
    simp [touched, Session.step, BufferPool.pinPage, BufferPool.lookupAndPin, hframe]
  refine ⟨⟨⟨trivial, ?_⟩, ⟨trivial, ?_⟩, trivial⟩, ?_, ?_, ?_, ?_, ?_, ?_, ?_⟩
  · rw [hpin]
    exact pinsFit_of_length (by simp)
  · rw [hpin]
    exact pinsFit_of_length (by simp [next, Session.step])
  · change touchLog LruPolicy.policy order _ (s.touched LruPolicy.policy order _ ++ log) _ = _
    rw [htouched]
    rfl
  all_goals rw [hrun]
  · exact BufferPool.eviction_setInfo pool id _
  · exact (BufferPool.usedBytes_setInfo pool id _).trans (BufferPool.usedBytes_setInfo s.pool id _)
  · exact (BufferPool.budgetBytes_setInfo pool id _).trans
      (BufferPool.budgetBytes_setInfo s.pool id _)
  · exact (BufferPool.store_setInfo pool id _).trans (BufferPool.store_setInfo s.pool id _)
  · exact fun k => (lookup_setInfo_none_iff pool id _ k).trans
      (lookup_setInfo_none_iff s.pool id _ k)

theorem rounds_spec (order : FrameOrder) {id : PageId} (n : ℕ) (hguards : s.guards = [])
    (hresident : s.pool.frames.lookup id ≠ none) (log : List PageId) :
    Rounds order id n log s (run (next LruPolicy.policy order) s (rounds id n)) := by
  induction n generalizing s log with
  | zero => exact ⟨trivial, rfl, hguards, rfl, rfl, rfl, rfl, fun _ => Iff.rfl⟩
  | succ n ih =>
    have hsplit : rounds id (n + 1) = rounds id 1 ++ rounds id n := rfl
    have hfirst := round_spec order hguards hresident log
    have hrest := ih hfirst.guards (fun hnone => hresident ((hfirst.resident id).mp hnone))
      (List.replicate 1 id ++ log)
    have hrun : run (next LruPolicy.policy order) s (rounds id (n + 1)) =
        run (next LruPolicy.policy order) (run (next LruPolicy.policy order) s (rounds id 1))
          (rounds id n) := by
      rw [hsplit]
      exact List.foldl_append
    rw [hrun]
    refine ⟨?_, ?_, hrest.guards, ?_, hrest.used.trans hfirst.used,
      hrest.budget.trans hfirst.budget, hrest.store.trans hfirst.store,
      fun k => (hrest.resident k).trans (hfirst.resident k)⟩
    · rw [Legal, hsplit, allSteps_append]
      exact ⟨hfirst.legal, hrest.legal⟩
    · rw [hsplit, touchLog_append, hfirst.touches, hrest.touches, ← List.append_assoc,
        List.replicate_append_replicate]
    · rw [hrest.eviction, hfirst.eviction]
      rfl

/-- The clock after `n` touches of one page. -/
theorem touch_iterate (policy : LruPolicy) (hclock : policy.clock < 2 ^ 64) (id : PageId) (n : ℕ) :
    ((LruPolicy.touch id)^[n] policy).clock = (policy.clock + n) % 2 ^ 64 ∧
      (0 < n → ((LruPolicy.touch id)^[n] policy).lastAccess.lookup id =
        some ((policy.clock + n) % 2 ^ 64)) ∧
      ∀ k, k ≠ id → ((LruPolicy.touch id)^[n] policy).lastAccess.lookup k =
        policy.lastAccess.lookup k := by
  induction n with
  | zero => exact ⟨(Nat.mod_eq_of_lt hclock).symm, fun h => absurd h (lt_irrefl 0), fun _ _ => rfl⟩
  | succ n ih =>
    rw [Function.iterate_succ_apply']
    obtain ⟨hn, -, hothers⟩ := ih
    have hnext : (((LruPolicy.touch id)^[n] policy).clock + 1) % 2 ^ 64 =
        (policy.clock + (n + 1)) % 2 ^ 64 := by
      rw [hn, Nat.mod_add_mod, Nat.add_assoc]
    refine ⟨hnext, fun _ => ?_, fun k hk => ?_⟩
    · rw [← hnext]
      exact AList.lookup_insert _
    · rw [← hothers k hk]
      exact AList.lookup_insert_ne hk

/-- The clock wraps between the touches of page 1 and the one of page 2. -/
theorem times_of_wrap {policy : LruPolicy} (hclock : policy.clock < 2 ^ 64) {n : ℕ} (hpos : 0 < n)
    (hn : (policy.clock + n) % 2 ^ 64 = u64Max) :
    ((LruPolicy.touch 2)^[1] ((LruPolicy.touch 1)^[n] policy)).lastAccess.lookup 2 = some 0 ∧
      ((LruPolicy.touch 2)^[1] ((LruPolicy.touch 1)^[n] policy)).lastAccess.lookup 1 =
        some u64Max := by
  obtain ⟨hclock₁, htime₁, -⟩ := touch_iterate policy hclock 1 n
  obtain ⟨-, htime₂, hothers⟩ := touch_iterate ((LruPolicy.touch 1)^[n] policy)
    (hclock₁.trans_lt (Nat.mod_lt _ (by decide))) 2 1
  constructor
  · rw [htime₂ Nat.one_pos, hclock₁, hn]
    decide
  · rw [hothers 1 (by decide), htime₁ hpos, hn]

theorem chooseVictim_none {p : BufferPool LruPolicy} (h : ∀ id time, p.frames.lookup id ≠ none →
    p.eviction.lastAccess.lookup id = some time → u64Max ≤ time) :
    (p.chooseVictim LruPolicy.policy order).1 = none := by
  have hscan := LruPolicy.scanned_foldl p.eviction (p.snapshot order)
  rcases hvictim : (p.chooseVictim LruPolicy.policy order).1 with _ | id
  · rfl
  · obtain ⟨htime, hlt, info, hmem, -⟩ := hscan.found id hvictim
    obtain ⟨frame, hframe, -⟩ := p.mem_snapshot order hmem
    have hmax := h id _ (by rw [hframe]; exact Option.some_ne_none frame) htime
    omega

/-- A page with time 0 goes first. -/
theorem chooseVictim_zero {p : BufferPool LruPolicy} {guards : List Guard}
    (hpins : BufferPool.Pins p guards) {id : PageId} (hresident : p.frames.lookup id ≠ none)
    (hfree : liveGuards guards id = 0) (htime : p.eviction.lastAccess.lookup id = some 0)
    (hothers : ∀ k, k ≠ id → p.frames.lookup k ≠ none →
      p.eviction.lastAccess.lookup k ≠ some 0) :
    (p.chooseVictim LruPolicy.policy order).1 = some id := by
  have hscan := LruPolicy.scanned_foldl p.eviction (p.snapshot order)
  obtain ⟨frame, hframe⟩ := Option.ne_none_iff_exists'.mp hresident
  have hbest := Nat.le_zero.mp (hscan.le _ (p.mem_snapshot_of_lookup order hframe)
    ((BufferPool.isPinned_iff hpins hframe).mpr hfree) 0 htime)
  rcases hvictim : (p.chooseVictim LruPolicy.policy order).1 with _ | victim
  · have hmax := hscan.none hvictim
    rw [hbest] at hmax
    exact absurd hmax (by decide)
  · obtain ⟨hzero, -, info, hmem, -⟩ := hscan.found victim hvictim
    obtain ⟨frame', hframe', -⟩ := p.mem_snapshot order hmem
    rw [hbest] at hzero
    by_contra hne
    refine hothers victim (fun heq => hne (congrArg some heq)) ?_ hzero
    rw [hframe']
    exact Option.some_ne_none frame'

/-- Over a store that works, the page that is chosen goes. -/
theorem victims_of_chosen (hworks : ∀ m, s.pool.store.fails m = false) {id : PageId}
    (hchosen : (s.pool.chooseVictim LruPolicy.policy order).1 = some id) :
    s.victims LruPolicy.policy order .evictOne = [(s.pool, id)] := by
  have hworks' : ∀ m, (s.pool.chooseVictim LruPolicy.policy order).2.store.fails m = false := hworks
  rcases BufferPool.evictOne_cases LruPolicy.policy order s.pool with ⟨hnone, -⟩ |
    ⟨victim, hvictim, ⟨e, herror, -⟩ | ⟨-, heq⟩⟩
  · rw [hchosen] at hnone
    cases hnone
  · rw [BufferPool.flush_ok_of_works hworks' victim] at herror
    cases herror
  · rw [hchosen] at hvictim
    cases hvictim
    simp [victims, heq]

/-- A page that fills the budget is touched `n` times more. -/
def exhausted (n : ℕ) : List SessionOp := .insertPage 1 [7] :: rounds 1 n

/-- No page is guarded and page 2 would fit, but page 1 is never a victim again. -/
theorem not_refusesExactly_of_clock {n : ℕ} (hpos : 0 < n) (hn : (1 + n) % 2 ^ 64 = u64Max) :
    (Session.new (BufferPool.new 1 emptyStore LruPolicy.new)).Legal LruPolicy.policy asListed
        (exhausted n) ∧
      ¬ RefusesExactly asListed (run (next LruPolicy.policy asListed)
        (Session.new (BufferPool.new 1 emptyStore LruPolicy.new)) (exhausted n)) := by
  set s := (Session.new (BufferPool.new 1 emptyStore LruPolicy.new)).next LruPolicy.policy asListed
    (.insertPage 1 [7]) with hs
  have honly : ∀ k, k ≠ 1 → s.pool.frames.lookup k = none := fun k hk =>
    (AList.lookup_insert_ne hk).trans rfl
  have hresident : s.pool.frames.lookup 1 ≠ none := Option.some_ne_none _
  have hrounds := rounds_spec asListed n (rfl : s.guards = []) hresident []
  have htime : ((LruPolicy.touch 1)^[n] s.pool.eviction).lastAccess.lookup 1 = some u64Max := by
    rw [← hn]
    exact (touch_iterate s.pool.eviction (by decide +kernel) 1 n).2.1 hpos
  have hlegal : (Session.new (BufferPool.new 1 emptyStore LruPolicy.new)).Legal LruPolicy.policy
      asListed (exhausted n) :=
    ⟨⟨List.not_mem_nil, pinsFit_of_length (by decide +kernel)⟩, hrounds.legal⟩
  refine ⟨hlegal, fun hexact => ?_⟩
  have hlast : run (next LruPolicy.policy asListed)
      (Session.new (BufferPool.new 1 emptyStore LruPolicy.new)) (exhausted n) =
        run (next LruPolicy.policy asListed) s (rounds 1 n) := rfl
  rw [hlast] at hexact
  set s' := run (next LruPolicy.policy asListed) s (rounds 1 n)
  have hbudget : s'.pool.budgetBytes = 1 := hrounds.budget
  have hused : s'.pool.usedBytes = 1 := hrounds.used
  have hnone : (s'.pool.chooseVictim LruPolicy.policy asListed).1 = none := by
    apply chooseVictim_none
    intro id time hid hlookup
    have hone : id = 1 := by
      by_contra hne
      exact hid ((hrounds.resident id).mpr (honly id hne))
    rw [hone, hrounds.eviction, htime] at hlookup
    exact (Option.some.inj hlookup).le
  have hevict : s'.pool.evictOne LruPolicy.policy asListed =
      (.ok none, (s'.pool.chooseVictim LruPolicy.policy asListed).2) := by
    rcases BufferPool.evictOne_cases LruPolicy.policy asListed s'.pool with ⟨-, heq⟩ | ⟨id, hid, -⟩
    · exact heq
    · rw [hnone] at hid
      cases hid
  have hover : s'.pool.overBudget 1 = true := by simp [BufferPool.overBudget, hbudget, hused]
  have hroom := BufferPool.makeRoom_of_none s'.pool.framesCount hover hevict
  have hanswer := hexact.insertPage 2 [8]
  rw [hrounds.guards, hbudget] at hanswer
  rcases hanswer with ⟨hno, -⟩ | ⟨-, a, hok⟩
  · exact lt_irrefl 1 hno
  · simp only [Session.step, BufferPool.insertPage, List.length_singleton, hroom] at hok
    cases hok

/-- After `2 ^ 64 - 1` touches. -/
theorem not_refusesExactly_exhausted :
    (Session.new (BufferPool.new 1 emptyStore LruPolicy.new)).Legal LruPolicy.policy asListed
        (exhausted (2 ^ 64 - 2)) ∧
      ¬ RefusesExactly asListed (run (next LruPolicy.policy asListed)
        (Session.new (BufferPool.new 1 emptyStore LruPolicy.new)) (exhausted (2 ^ 64 - 2))) :=
  not_refusesExactly_of_clock (by decide) (by decide)

/-- Two empty pages; page 1 is touched `n` times more, and then page 2. -/
def overrun (n : ℕ) : List SessionOp :=
  .insertPage 1 [] :: .insertPage 2 [] :: (rounds 1 n ++ rounds 2 1)

/-- The clock starts again with page 2, which goes although page 1 is older. -/
theorem not_evictsOldest_of_clock {n : ℕ} (hpos : 0 < n) (hn : (2 + n) % 2 ^ 64 = u64Max) :
    (Session.new (BufferPool.new 0 emptyStore LruPolicy.new)).Legal LruPolicy.policy asListed
        (overrun n) ∧
      ¬ EvictsOldest asListed
        (touchLog LruPolicy.policy asListed
          (Session.new (BufferPool.new 0 emptyStore LruPolicy.new)) [] (overrun n))
        (run (next LruPolicy.policy asListed)
          (Session.new (BufferPool.new 0 emptyStore LruPolicy.new)) (overrun n)) .evictOne := by
  set start := Session.new (BufferPool.new 0 emptyStore LruPolicy.new) with hstart
  set s := (start.next LruPolicy.policy asListed (.insertPage 1 [])).next LruPolicy.policy asListed
    (.insertPage 2 []) with hs
  have honly : ∀ k, k ≠ 1 → k ≠ 2 → s.pool.frames.lookup k = none := fun k hk hk' =>
    (AList.lookup_insert_ne hk').trans ((AList.lookup_insert_ne hk).trans rfl)
  set s₁ := run (next LruPolicy.policy asListed) s (rounds 1 n) with hs₁
  set s₂ := run (next LruPolicy.policy asListed) s₁ (rounds 2 1) with hs₂
  have hpage₁ : s.pool.frames.lookup 1 ≠ none := Option.some_ne_none _
  have hpage₂ : s.pool.frames.lookup 2 ≠ none := Option.some_ne_none _
  have hfirst : Rounds asListed 1 n [2, 1] s s₁ :=
    rounds_spec asListed n (rfl : s.guards = []) hpage₁ [2, 1]
  have hsecond : Rounds asListed 2 1 (List.replicate n 1 ++ [2, 1]) s₁ s₂ :=
    rounds_spec asListed 1 hfirst.guards (fun hnone => hpage₂ ((hfirst.resident 2).mp hnone)) _
  have hlegal : start.Legal LruPolicy.policy asListed (overrun n) := by
    refine ⟨⟨List.not_mem_nil, pinsFit_of_length (by decide +kernel)⟩,
      ⟨(by decide +kernel : 2 ∉ [1]), pinsFit_of_length (by decide +kernel)⟩, ?_⟩
    exact allSteps_append.mpr ⟨hfirst.legal, hsecond.legal⟩
  have hrun : run (next LruPolicy.policy asListed) start (overrun n) = s₂ := List.foldl_append
  have hlog : touchLog LruPolicy.policy asListed start [] (overrun n) =
      2 :: (List.replicate n 1 ++ [2, 1]) := by
    have hsplit := touchLog_append LruPolicy.policy asListed s [2, 1]
      (rounds 1 n) (rounds 2 1)
    rw [hfirst.touches] at hsplit
    exact hsplit.trans hsecond.touches
  have hconsistent : Consistent s₂ := by
    rw [← hrun]
    exact (Consistent.new 0 emptyStore LruPolicy.new).run LruPolicy.lawful hlegal
  have hresident : ∀ k, s₂.pool.frames.lookup k = none ↔ s.pool.frames.lookup k = none := fun k =>
    (hsecond.resident k).trans (hfirst.resident k)
  have hclock : s.pool.eviction.clock = 2 := rfl
  have hlt : s.pool.eviction.clock < 2 ^ 64 := by decide +kernel
  obtain ⟨hzero, hmax⟩ := times_of_wrap hlt hpos (by rw [hclock]; exact hn)
  rw [← hfirst.eviction, ← hsecond.eviction] at hzero hmax
  have hchosen : (s₂.pool.chooseVictim LruPolicy.policy asListed).1 = some 2 := by
    apply chooseVictim_zero hconsistent.good.pins (fun hnone => hpage₂ ((hresident 2).mp hnone))
      (by rw [hsecond.guards]; rfl) hzero
    intro k hk hpage htime
    by_cases hone : k = 1
    · rw [hone, hmax] at htime
      exact absurd (Option.some.inj htime) (by decide)
    · exact hpage ((hresident k).mpr (honly k hone hk))
  have hworks : ∀ m, s₂.pool.store.fails m = false := by
    rw [hsecond.store, hfirst.store]
    exact fun _ => rfl
  have hvictims := victims_of_chosen hworks hchosen
  refine ⟨hlegal, fun holdest => ?_⟩
  rw [hlog, hrun] at holdest
  have hpage := holdest.oldest (s₂.pool, 2) (by rw [hvictims]; exact List.mem_singleton_self _)
  have hlt := hpage.oldest 1 (fun hnone => hpage₁ ((hresident 1).mp hnone))
    (by rw [hsecond.guards]; rfl) (by decide : (1 : PageId) ≠ 2)
  rw [List.idxOf_cons_self] at hlt
  exact Nat.not_lt_zero _ hlt

/-- After `2 ^ 64` touches. -/
theorem not_evictsOldest_overrun :
    (Session.new (BufferPool.new 0 emptyStore LruPolicy.new)).Legal LruPolicy.policy asListed
        (overrun (2 ^ 64 - 3)) ∧
      ¬ EvictsOldest asListed
        (touchLog LruPolicy.policy asListed
          (Session.new (BufferPool.new 0 emptyStore LruPolicy.new)) [] (overrun (2 ^ 64 - 3)))
        (run (next LruPolicy.policy asListed)
          (Session.new (BufferPool.new 0 emptyStore LruPolicy.new)) (overrun (2 ^ 64 - 3)))
        .evictOne :=
  not_evictsOldest_of_clock (by decide) (by decide)

end Session

end AirHuim
