import AirHuim.BufferPool.FilePool
import AirHuim.BufferPool.MiningAware
import AirHuim.BufferPool.PromptPolicy
import AirHuim.Mining.KnownPages

/-!
# The tasks' world on a disk

What the tasks of a run share, with the pool as it is: frames within a budget, an
eviction policy, and a directory of files below, in which an earlier run may have
left pages. For programs that only pin pages they have created it implements the
map of pages: every call is answered as by a map some calls of which fail, and
none fails if the policy is prompt and the budget takes the largest page.
-/

namespace AirHuim

open Library

/-- What the pool of a run is built from. `elapsedNs n` is the time that the load
in call number `n` would take. -/
structure DiskSetup (π : Type) where
  codec : Codec
  crc : Bytes → UInt32
  policy : EvictionPolicy π
  order : FrameOrder
  elapsedNs : ℕ → ℕ

/-- A lossless codec and a policy that evicts what it may evict. -/
structure DiskSetup.Lawful {π : Type} (D : DiskSetup π) : Prop where
  codec : D.codec.Inverts
  sized : D.codec.Sized
  policy : D.policy.Lawful

/-- What the tasks share. `counter` is the store's, `calls` counts the pool's calls. -/
structure DiskWorld (π : Type) where
  pool : StoredPool π FileChunkStore
  counter : PageId
  calls : ℕ
  guard : MemoryGuard
  lines : List Line
  huisFound : ℕ
  tko : TkoState

variable {π : Type} (D : DiskSetup π)

/-- The store that the pool is given. -/
abbrev DiskSetup.store : StoreTrait FileChunkStore := FileChunkStore.asTrait D.codec D.crc

namespace DiskWorld

/-- `store.next_page_id()`, then `pool.insert_page(id, bytes)`. -/
def newPage (w : DiskWorld π) (bytes : Bytes) : Except Fault PageId × DiskWorld π :=
  match w.pool.insertPage D.store D.policy D.order w.counter bytes with
  | (.ok (), pool) =>
    (.ok w.counter, { w with pool, counter := w.counter + 1, calls := w.calls + 1 })
  | (.error _, pool) =>
    (.error .io, { w with pool, counter := w.counter + 1, calls := w.calls + 1 })

/-- `pool.pin(id)`, the bytes under the guard, and the guard's drop. -/
def pin (w : DiskWorld π) (id : PageId) : Except Fault Bytes × DiskWorld π :=
  match w.pool.pinPage D.store D.policy D.order false id (D.elapsedNs w.calls) with
  | (.error _, pool) => (.error .io, { w with pool, calls := w.calls + 1 })
  | (.ok g, pool) =>
    (match pool.fields.view g with
      | some bytes => .ok bytes
      | none => .error .panic,
      { w with
        pool := { pool with fields := pool.fields.dropGuard g }
        calls := w.calls + 1 })

end DiskWorld

/-- The operations of `world` on the disk. -/
abbrev diskWorld : SharedObject minerInterface where
  State := DiskWorld π
  exec
    | .newPage bytes, w => w.newPage D bytes
    | .pin id, w => w.pin D id
    | .tryAlloc n, w => ((w.guard.tryAlloc n).1, { w with guard := (w.guard.tryAlloc n).2 })
    | .free n, w => ((), { w with guard := w.guard.free n })
    | .writeHui itemset u, w => ((), { w with lines := w.lines ++ [(itemset, u)] })
    | .foundHui, w => ((), { w with huisFound := w.huisFound + 1 })
    | .getThreshold, w => (w.tko.threshold, w)
    | .update u itemset, w =>
        ((w.tko.update u itemset).1, { w with tko := (w.tko.update u itemset).2 })

namespace DiskWorld

/-- The pool over the files, as a map: of the pages that the run has created, and
no others, it holds the bytes, in a frame or in a file. -/
structure HoldsPages (budget limit : ℕ) (p : StoredPool π FileChunkStore) (counter : PageId)
    (pages : PageId → Option Bytes) (q : BufferPool π) : Prop where
  mirrors : p.Mirrors (fun files shown => shown = files.shownPages D.codec D.crc)
    FileChunkStore.Fits q
  good : q.Good []
  budget : q.budgetBytes = budget
  content : ∀ id bytes, pages id = some bytes → q.content id = some bytes
  known : ∀ id bytes, pages id = some bytes → id < counter
  size : ∀ id bytes, pages id = some bytes → bytes.length ≤ limit
  resident : ∀ id, q.frames.lookup id ≠ none → id < counter

/-- The world on the disk and the map of its pages. -/
structure Shows (budget limit : ℕ) (s : DiskWorld π) (t : World) : Prop where
  pool : ∃ q, HoldsPages D budget limit s.pool s.counter t.pool.pages q
  counter : s.counter = t.pool.nextPageId
  guard : s.guard = t.guard
  lines : s.lines = t.lines
  huisFound : s.huisFound = t.huisFound
  tko : s.tko = t.tko

variable {D} {budget limit : ℕ} {p : StoredPool π FileChunkStore} {counter : PageId}
  {pages : PageId → Option Bytes} {q : BufferPool π} {s : DiskWorld π} {t : World}

/-- Pages are only moved, and the next id is taken. -/
theorem HoldsPages.keeps {p' : StoredPool π FileChunkStore} {q' : BufferPool π} {counter' : PageId}
    (h : HoldsPages D budget limit p counter pages q)
    (hmirrors : p'.Mirrors (fun files shown => shown = files.shownPages D.codec D.crc)
      FileChunkStore.Fits q')
    (hkeeps : BufferPool.Keeps [] q q') (hcounter : counter ≤ counter') :
    HoldsPages D budget limit p' counter' pages q' where
  mirrors := hmirrors
  good := hkeeps.good
  budget := hkeeps.budget.trans h.budget
  content id bytes hid := by
    rw [hkeeps.content]
    exact h.content id bytes hid
  known id bytes hid := (h.known id bytes hid).trans_le hcounter
  size := h.size
  resident id hid := (h.resident id fun hnone => hid (hkeeps.absent id hnone)).trans_le hcounter

/-- A page under an id that is new. -/
theorem HoldsPages.create {p' : StoredPool π FileChunkStore} {q' : BufferPool π} {bytes : Bytes}
    (h : HoldsPages D budget limit p counter pages q)
    (hmirrors : p'.Mirrors (fun files shown => shown = files.shownPages D.codec D.crc)
      FileChunkStore.Fits q')
    (hgood : q'.Good []) (hbudget : q'.budgetBytes = q.budgetBytes)
    (hcontent : q'.content = Function.update q.content counter (some bytes))
    (habsent : ∀ k, k ≠ counter → q.frames.lookup k = none → q'.frames.lookup k = none)
    (hsize : bytes.length ≤ limit) :
    HoldsPages D budget limit p' (counter + 1)
      (Function.update pages counter (some bytes)) q' where
  mirrors := hmirrors
  good := hgood
  budget := hbudget.trans h.budget
  content id b hid := by
    rw [hcontent]
    by_cases heq : id = counter
    · subst heq
      rwa [Function.update_self] at hid ⊢
    · rw [Function.update_of_ne heq] at hid ⊢
      exact h.content id b hid
  known id b hid := by
    by_cases heq : id = counter
    · exact heq ▸ Nat.lt_succ_self _
    · rw [Function.update_of_ne heq] at hid
      exact Nat.lt_succ_of_lt (h.known id b hid)
  size id b hid := by
    by_cases heq : id = counter
    · rw [heq, Function.update_self] at hid
      cases hid
      exact hsize
    · rw [Function.update_of_ne heq] at hid
      exact h.size id b hid
  resident id hid := by
    by_cases heq : id = counter
    · exact heq ▸ Nat.lt_succ_self _
    · exact Nat.lt_succ_of_lt (h.resident id fun hnone => hid (habsent id heq hnone))

theorem budgetBytes_insertPage {E : EvictionPolicy π} (order : FrameOrder) (hE : E.Lawful)
    (h : q.Good []) (id : PageId) (data : Bytes) :
    (q.insertPage E order id data).2.budgetBytes = q.budgetBytes := by
  obtain ⟨hkeeps, -⟩ := BufferPool.makeRoom_spec order hE data.length _ h (Nat.lt_succ_self _)
  unfold BufferPool.insertPage
  rcases hroom : BufferPool.makeRoom E order data.length (q.framesCount + 1) q with ⟨e | ⟨⟩, q'⟩
  · rw [hroom] at hkeeps
    exact hkeeps.budget
  · rw [hroom] at hkeeps
    exact hkeeps.budget

/-- Whether the call is to fail in the map. -/
def failed {α : Type} : Except Fault α → Bool
  | .ok _ => false
  | .error _ => true

theorem newPage_of_error {bytes : Bytes} {e : PoolError}
    (h : s.pool.insertPage D.store D.policy D.order s.counter bytes = (.error e, p)) :
    s.newPage D bytes =
      (.error .io, { s with pool := p, counter := s.counter + 1, calls := s.calls + 1 }) := by
  simp [newPage, h]

theorem newPage_of_ok {bytes : Bytes}
    (h : s.pool.insertPage D.store D.policy D.order s.counter bytes = (.ok (), p)) :
    s.newPage D bytes =
      (.ok s.counter, { s with pool := p, counter := s.counter + 1, calls := s.calls + 1 }) := by
  simp [newPage, h]

theorem pin_of_error {id : PageId} {e : PoolError}
    (h : s.pool.pinPage D.store D.policy D.order false id (D.elapsedNs s.calls) = (.error e, p)) :
    s.pin D id = (.error .io, { s with pool := p, calls := s.calls + 1 }) := by
  simp [pin, h]

theorem pin_of_ok {id : PageId} {g : Guard} {bytes : Bytes}
    (h : s.pool.pinPage D.store D.policy D.order false id (D.elapsedNs s.calls) = (.ok g, p))
    (hview : p.fields.view g = some bytes) :
    s.pin D id =
      (.ok bytes, { s with
        pool := { p with fields := p.fields.dropGuard g }
        calls := s.calls + 1 }) := by
  simp [pin, h, hview]

/-- Creating a page: as in the map, if that fails when this does. -/
theorem newPage_shows (hD : D.Lawful) (h : Shows D budget limit s t) (hcounter : s.counter < 2 ^ 64)
    (hlimit : limit < 2 ^ 32) {bytes : Bytes} (hsize : bytes.length ≤ limit)
    (hfail : t.pool.fails t.pool.clock = failed (s.newPage D bytes).1) :
    (s.newPage D bytes).1 = (t.pool.newPage bytes).1 ∧
      Shows D budget limit (s.newPage D bytes).2 { t with pool := (t.pool.newPage bytes).2 } := by
  obtain ⟨⟨q, hq⟩, hnext, hguard, hlines, hfound, htko⟩ := h
  have hacts := FileChunkStore.actsAsMap hD.codec hD.sized D.crc
  have hfits : FileChunkStore.Fits s.counter bytes := ⟨hcounter, hsize.trans_lt hlimit⟩
  obtain ⟨hanswer, hmirrors⟩ :=
    StoredPool.insertPage_alike D.policy D.order hacts hq.mirrors hfits
  have hbudget := budgetBytes_insertPage D.order hD.policy hq.good s.counter bytes
  have habsent : q.frames.lookup s.counter = none := by
    by_contra hresident
    exact lt_irrefl _ (hq.resident s.counter hresident)
  rcases hinsert : s.pool.insertPage D.store D.policy D.order s.counter bytes with ⟨e | ⟨⟩, p⟩
  · rcases hinsert' : q.insertPage D.policy D.order s.counter bytes with ⟨r, q'⟩
    rw [hinsert, hinsert'] at hanswer hmirrors
    obtain rfl : Except.error e = r := hanswer
    obtain ⟨hkeeps, -⟩ := BufferPool.insertPage_error hD.policy hq.good hinsert'
    rw [newPage_of_error hinsert] at hfail ⊢
    have hfails : t.pool.fails t.pool.clock = true := hfail
    rw [PagePool.newPage, if_pos hfails]
    exact ⟨rfl, ⟨q', hq.keeps hmirrors hkeeps (Nat.le_succ _)⟩, congrArg (· + 1) hnext, hguard,
      hlines, hfound, htko⟩
  · rcases hinsert' : q.insertPage D.policy D.order s.counter bytes with ⟨r, q'⟩
    rw [hinsert'] at hbudget
    rw [hinsert, hinsert'] at hanswer hmirrors
    obtain rfl : Except.ok () = r := hanswer
    obtain ⟨hgood, hcontent, hothers⟩ :=
      BufferPool.insertPage_ok hD.policy hq.good habsent hinsert'
    rw [newPage_of_ok hinsert] at hfail ⊢
    have hfails : ¬t.pool.fails t.pool.clock = true := fun htrue => by
      rw [htrue] at hfail
      cases hfail
    rw [PagePool.newPage, if_neg hfails, ← hnext]
    exact ⟨rfl, ⟨q', hq.create hmirrors hgood hbudget hcontent hothers hsize⟩, rfl, hguard,
      hlines, hfound, htko⟩

/-- A pin that is answered shows the page's bytes. -/
theorem HoldsPages.view (hD : D.Lawful) (h : HoldsPages D budget limit p counter pages q)
    {id : PageId} {bytes : Bytes} (hid : pages id = some bytes) {mutable : Bool} {elapsedNs : ℕ}
    {g : Guard} {p' : StoredPool π FileChunkStore} {q' : BufferPool π}
    (hpin : q.pinPage D.policy D.order mutable id elapsedNs = (.ok g, q'))
    (hmirrors : p'.Mirrors (fun files shown => shown = files.shownPages D.codec D.crc)
      FileChunkStore.Fits q') : p'.fields.view g = some bytes := by
  have hpinned := BufferPool.pinPage_ok hD.policy h.good hpin
  have hshown : q'.view g = some bytes := by
    rw [hpinned.backs.view, hpinned.page, hpinned.content]
    exact h.content id bytes hid
  rw [hmirrors.fields] at hshown
  exact hshown

theorem fits_set (id : PageId) (data : Bytes) (off : ℕ) (byte : UInt8)
    (h : FileChunkStore.Fits id data) : FileChunkStore.Fits id (data.set off byte) :=
  ⟨h.1, by rw [List.length_set]; exact h.2⟩

/-- Bytes are written through the guard of a pin, and the guard is dropped again. -/
theorem HoldsPages.edited (hD : D.Lawful) (h : HoldsPages D budget limit p counter pages q)
    {id : PageId} {bytes : Bytes} (hid : pages id = some bytes) {mutable : Bool} {elapsedNs : ℕ}
    {g : Guard} {p' : StoredPool π FileChunkStore} {q' : BufferPool π}
    (hpin : q.pinPage D.policy D.order mutable id elapsedNs = (.ok g, q'))
    (hmirrors : p'.Mirrors (fun files shown => shown = files.shownPages D.codec D.crc)
      FileChunkStore.Fits q') (off : ℕ) {bs : Bytes} (hmut : bs ≠ [] → mutable = true) :
    HoldsPages D budget limit { p' with fields := (p'.fields.write g off bs).dropGuard g } counter
      (Function.update pages id (some (writeFrom bytes off bs)))
        ((q'.write g off bs).dropGuard g) := by
  have hpinned := BufferPool.pinPage_ok hD.policy h.good hpin
  have hfree : liveGuards [] id + 1 < 2 ^ 16 := by simp [liveGuards]
  obtain ⟨hgood, hwritten, hbudget, habsent⟩ := BufferPool.write_spec (hpinned.good hfree)
    List.mem_cons_self (fun hbs => (BufferPool.mutable_of_pinPage hpin).trans (hmut hbs)) off
  obtain ⟨hcontent, habsent'⟩ := BufferPool.dropGuard_spec (q'.write g off bs) g
  refine ⟨(hmirrors.write fits_set g off bs).dropGuard g,
    BufferPool.dropGuard_good hgood (List.Perm.refl [g]), ?_, fun k b hk => ?_, fun k b hk => ?_,
    fun k b hk => ?_, fun k hk => ?_⟩
  · rw [← h.budget, ← hpinned.budget, ← hbudget]
    unfold BufferPool.dropGuard BufferPool.unpin BufferPool.markDirty
    split <;> simp only [BufferPool.budgetBytes_setInfo]
  · rw [hcontent, hwritten, hpinned.content, hpinned.page, h.content id bytes hid]
    by_cases hkid : k = id
    · subst hkid
      rwa [Function.update_self] at hk ⊢
    · rw [Function.update_of_ne hkid] at hk ⊢
      exact h.content k b hk
  · by_cases hkid : k = id
    · exact hkid ▸ h.known id bytes hid
    · rw [Function.update_of_ne hkid] at hk
      exact h.known k b hk
  · by_cases hkid : k = id
    · rw [hkid, Function.update_self] at hk
      cases hk
      rw [length_writeFrom]
      exact h.size id bytes hid
    · rw [Function.update_of_ne hkid] at hk
      exact h.size k b hk
  · by_cases hkid : k = id
    · exact hkid ▸ h.known id bytes hid
    · exact h.resident k fun hnone => hk (habsent' k (habsent k (hpinned.absent k hkid hnone)))

/-- The guard of a pin is dropped again. -/
theorem HoldsPages.unpinned (hD : D.Lawful) (h : HoldsPages D budget limit p counter pages q)
    {id : PageId} {bytes : Bytes} (hid : pages id = some bytes) {mutable : Bool} {elapsedNs : ℕ}
    {g : Guard} {p' : StoredPool π FileChunkStore} {q' : BufferPool π}
    (hpin : q.pinPage D.policy D.order mutable id elapsedNs = (.ok g, q'))
    (hmirrors : p'.Mirrors (fun files shown => shown = files.shownPages D.codec D.crc)
      FileChunkStore.Fits q') :
    HoldsPages D budget limit { p' with fields := p'.fields.dropGuard g } counter pages
      (q'.dropGuard g) := by
  have hempty : ([] : Bytes) ≠ [] → mutable = true := fun hne => (hne rfl).elim
  have hedited := h.edited hD hid hpin hmirrors 0 hempty
  have hsame : Function.update pages id (some (writeFrom bytes 0 [])) = pages :=
    Function.update_eq_self_iff.mpr hid.symm
  rwa [hsame] at hedited

/-- Pinning a page that was created: the same. -/
theorem pin_shows (hD : D.Lawful) (h : Shows D budget limit s t) {id : PageId} {bytes : Bytes}
    (hid : t.pool.pages id = some bytes)
    (hfail : t.pool.fails t.pool.clock = failed (s.pin D id).1) :
    (s.pin D id).1 = (t.pool.pin id).1 ∧
      Shows D budget limit (s.pin D id).2 { t with pool := (t.pool.pin id).2 } := by
  obtain ⟨⟨q, hq⟩, hnext, hguard, hlines, hfound, htko⟩ := h
  have hacts := FileChunkStore.actsAsMap hD.codec hD.sized D.crc
  obtain ⟨hanswer, hmirrors⟩ := StoredPool.pinPage_alike D.policy D.order hacts hq.mirrors false id
    (D.elapsedNs s.calls)
  rcases hpin : s.pool.pinPage D.store D.policy D.order false id (D.elapsedNs s.calls) with
    ⟨e | g, p⟩
  · rcases hpin' : q.pinPage D.policy D.order false id (D.elapsedNs s.calls) with ⟨r, q'⟩
    rw [hpin, hpin'] at hanswer hmirrors
    obtain rfl : Except.error e = r := hanswer
    obtain ⟨hkeeps, -⟩ := BufferPool.pinPage_error hD.policy hq.good hpin'
    rw [pin_of_error hpin] at hfail ⊢
    have hfails : t.pool.fails t.pool.clock = true := hfail
    simp only [PagePool.pin, if_pos hfails]
    exact ⟨trivial, ⟨q', hq.keeps hmirrors hkeeps le_rfl⟩, hnext, hguard, hlines, hfound, htko⟩
  · rcases hpin' : q.pinPage D.policy D.order false id (D.elapsedNs s.calls) with ⟨r, q'⟩
    rw [hpin, hpin'] at hanswer hmirrors
    obtain rfl : Except.ok g = r := hanswer
    rw [pin_of_ok hpin (hq.view hD hid hpin' hmirrors)] at hfail ⊢
    have hfails : ¬t.pool.fails t.pool.clock = true := fun htrue => by
      rw [htrue] at hfail
      cases hfail
    simp only [PagePool.pin, if_neg hfails, hid]
    exact ⟨trivial, ⟨_, hq.unpinned hD hid hpin' hmirrors⟩, hnext, hguard, hlines, hfound, htko⟩

/-! ## The disk implements the map -/

/-- The choices that a call settles: whether an access to the pool failed. -/
def outcome : (op : MinerOp) → minerInterface.Res op → List Bool
  | .newPage _, r => [failed r]
  | .pin _, r => [failed r]
  | _, _ => []

/-- The ids that were taken are `u64`. -/
def Within (s : DiskWorld π) : Prop := s.counter ≤ 2 ^ 64

theorem within_back (op : MinerOp) (s : DiskWorld π) (h : Within ((diskWorld D).exec op s).2) :
    Within s := by
  cases op with
  | newPage bytes =>
    have hcounter : (s.newPage D bytes).2.counter = s.counter + 1 := by
      unfold newPage
      split <;> rfl
    exact Nat.le_of_succ_le (hcounter ▸ h : s.counter + 1 ≤ 2 ^ 64)
  | pin id =>
    have hcounter : (s.pin D id).2.counter = s.counter := by
      unfold pin
      split <;> rfl
    exact (hcounter ▸ h : s.counter ≤ 2 ^ 64)
  | tryAlloc n => exact h
  | free n => exact h
  | writeHui X u => exact h
  | foundHui => exact h
  | getThreshold => exact h
  | update u X => exact h

theorem counter_newPage_lt {bytes : Bytes} (h : Within (s.newPage D bytes).2) :
    s.counter < 2 ^ 64 := by
  have hcounter : (s.newPage D bytes).2.counter = s.counter + 1 := by
    unfold newPage
    split <;> rfl
  exact (hcounter ▸ h : s.counter + 1 ≤ 2 ^ 64)

/-- One call, if the map makes the same choice. -/
theorem exec_shows (hD : D.Lawful) (hlimit : limit < 2 ^ 32) (h : Shows D budget limit s t)
    {op : MinerOp} (hwithin : Within ((diskWorld D).exec op s).2) (hop : PoolCall limit op t)
    (hchoice : ∀ b ∈ outcome op ((diskWorld D).exec op s).1, t.pool.fails t.pool.clock = b) :
    ((diskWorld D).exec op s).1 = (world.exec op t).1 ∧
      Shows D budget limit ((diskWorld D).exec op s).2 (world.exec op t).2 := by
  cases op with
  | newPage bytes =>
    exact newPage_shows hD h (counter_newPage_lt hwithin) hlimit hop
      (hchoice _ List.mem_cons_self)
  | pin id =>
    obtain ⟨bytes, hbytes⟩ := hop
    exact pin_shows hD h hbytes.payload (hchoice _ List.mem_cons_self)
  | tryAlloc n =>
    exact ⟨congrArg (fun g : MemoryGuard => (g.tryAlloc n).1) h.guard, h.pool, h.counter,
      congrArg (fun g : MemoryGuard => (g.tryAlloc n).2) h.guard, h.lines, h.huisFound, h.tko⟩
  | free n =>
    exact ⟨rfl, h.pool, h.counter, congrArg (fun g : MemoryGuard => g.free n) h.guard, h.lines,
      h.huisFound, h.tko⟩
  | writeHui X u =>
    exact ⟨rfl, h.pool, h.counter, h.guard, congrArg (· ++ [(X, u)]) h.lines, h.huisFound, h.tko⟩
  | foundHui =>
    exact ⟨rfl, h.pool, h.counter, h.guard, h.lines, congrArg (· + 1) h.huisFound, h.tko⟩
  | getThreshold => exact ⟨congrArg TkoState.threshold h.tko, h⟩
  | update u X =>
    exact ⟨congrArg (fun tko : TkoState => (tko.update u X).1) h.tko, h.pool, h.counter, h.guard,
      h.lines, h.huisFound, congrArg (fun tko : TkoState => (tko.update u X).2) h.tko⟩

/-- The clock of the map counts the accesses to the pool. -/
theorem clock_exec (op : MinerOp) (t : World) (r : minerInterface.Res op) :
    (world.exec op t).2.pool.fails = t.pool.fails ∧
      (world.exec op t).2.pool.clock = t.pool.clock + (outcome op r).length := by
  cases op with
  | newPage bytes =>
    simp only [PagePool.newPage, outcome]
    split <;> exact ⟨rfl, rfl⟩
  | pin id =>
    simp only [PagePool.pin, outcome]
    split
    · exact ⟨rfl, rfl⟩
    · split <;> exact ⟨rfl, rfl⟩
  | tryAlloc n => exact ⟨rfl, rfl⟩
  | free n => exact ⟨rfl, rfl⟩
  | writeHui X u => exact ⟨rfl, rfl⟩
  | foundHui => exact ⟨rfl, rfl⟩
  | getThreshold => exact ⟨rfl, rfl⟩
  | update u X => exact ⟨rfl, rfl⟩

/-- On a disk of any budget the pool is a map some of whose calls fail. -/
theorem implements_world (hD : D.Lawful) (hlimit : limit < 2 ^ 32) (budget : ℕ) :
    Prog.Implements (diskWorld D) world Within (PoolCall limit)
      fun (f : ℕ → Bool) n s t => Shows D budget limit s t ∧ t.pool.fails = f ∧
        t.pool.clock = n where
  back := within_back
  step := by
    intro op n s hwithin
    refine ⟨outcome op ((diskWorld D).exec op s).1, fun f t hf ⟨hshows, hfails, hclock⟩ hop => ?_⟩
    have hchoice : ∀ b ∈ outcome op ((diskWorld D).exec op s).1,
        t.pool.fails t.pool.clock = b := by
      intro b hb
      have hzero : (outcome op ((diskWorld D).exec op s).1)[0]? = some b := by
        cases op with
        | newPage bytes =>
          rw [List.mem_singleton.mp hb]
          rfl
        | pin id =>
          rw [List.mem_singleton.mp hb]
          rfl
        | _ => exact (List.not_mem_nil hb).elim
      rw [hfails, hclock]
      exact hf 0 b hzero
    obtain ⟨hanswer, hnext⟩ := exec_shows hD hlimit hshows hwithin hop hchoice
    obtain ⟨hfails', hclock'⟩ := clock_exec op t ((diskWorld D).exec op s).1
    exact ⟨hanswer, hnext, hfails'.trans hfails, by rw [hclock', hclock]⟩

/-! ## A budget that takes every page -/

theorem newPage_ok (hD : D.Lawful) (hprompt : D.policy.Prompt) (h : Shows D budget limit s t)
    (hcounter : s.counter < 2 ^ 64) (hlimit : limit < 2 ^ 32) (hbudget : limit ≤ budget)
    {bytes : Bytes} (hsize : bytes.length ≤ limit) : failed (s.newPage D bytes).1 = false := by
  obtain ⟨q, hq⟩ := h.pool
  have hacts := FileChunkStore.actsAsMap hD.codec hD.sized D.crc
  have hfits : FileChunkStore.Fits s.counter bytes := ⟨hcounter, hsize.trans_lt hlimit⟩
  obtain ⟨hanswer, -⟩ := StoredPool.insertPage_alike D.policy D.order hacts hq.mirrors hfits
  have hfull := BufferPool.insertPage_prompt D.order hD.policy hprompt hq.good hq.mirrors.works
    s.counter bytes
  rcases hinsert : s.pool.insertPage D.store D.policy D.order s.counter bytes with ⟨e | ⟨⟩, p⟩
  · rw [hinsert] at hanswer
    rw [← hanswer, hq.budget] at hfull
    rcases hfull with ⟨hno, -⟩ | ⟨-, _, hok⟩
    · simp [BufferPool.guardedBytes] at hno
      omega
    · cases hok
  · rw [newPage_of_ok hinsert]
    rfl

/-- Under a prompt policy, and with room for the largest page, a pin is answered. -/
theorem HoldsPages.pins (hD : D.Lawful) (hprompt : D.policy.Prompt)
    (h : HoldsPages D budget limit p counter pages q) (hbudget : limit ≤ budget) {id : PageId}
    {bytes : Bytes} (hid : pages id = some bytes) (mutable : Bool) (elapsedNs : ℕ) :
    ∃ g, (q.pinPage D.policy D.order mutable id elapsedNs).1 = .ok g := by
  by_cases hresident : q.frames.lookup id = none
  · have hstored : q.store.pages id = some bytes := by
      rw [← BufferPool.content_of_absent hresident]
      exact h.content id bytes hid
    have hfull := BufferPool.pinPage_prompt D.order hD.policy hprompt h.good h.mirrors.works
      hresident hstored mutable elapsedNs
    rw [h.budget] at hfull
    rcases hfull with ⟨hno, -⟩ | ⟨-, hok⟩
    · have hlength := h.size id bytes hid
      simp [BufferPool.guardedBytes] at hno
      omega
    · exact hok
  · exact BufferPool.pinPage_resident D.policy D.order hresident mutable _

theorem pin_ok (hD : D.Lawful) (hprompt : D.policy.Prompt) (h : Shows D budget limit s t)
    (hbudget : limit ≤ budget) {id : PageId} {bytes : Bytes} (hid : t.pool.pages id = some bytes) :
    failed (s.pin D id).1 = false := by
  obtain ⟨q, hq⟩ := h.pool
  have hacts := FileChunkStore.actsAsMap hD.codec hD.sized D.crc
  obtain ⟨hanswer, hmirrors⟩ := StoredPool.pinPage_alike D.policy D.order hacts hq.mirrors false id
    (D.elapsedNs s.calls)
  obtain ⟨g, hg⟩ := hq.pins hD hprompt hbudget hid false (D.elapsedNs s.calls)
  rcases hpin : s.pool.pinPage D.store D.policy D.order false id (D.elapsedNs s.calls) with
    ⟨e | g', p⟩
  · rw [hpin, hg] at hanswer
    cases hanswer
  · rcases hpin' : q.pinPage D.policy D.order false id (D.elapsedNs s.calls) with ⟨r, q'⟩
    rw [hpin, hpin'] at hanswer hmirrors
    obtain rfl : Except.ok g' = r := hanswer
    rw [pin_of_ok hpin (hq.view hD hid hpin' hmirrors)]
    rfl

/-- Under a prompt policy, and with room for the largest page, no call fails. -/
theorem implements_world_prompt (hD : D.Lawful) (hprompt : D.policy.Prompt)
    (hlimit : limit < 2 ^ 32) (hbudget : limit ≤ budget) :
    Prog.Implements (diskWorld D) world Within (PoolCall limit)
      fun (_ : ℕ → Unit) _ s t => Shows D budget limit s t ∧ ∀ n, t.pool.fails n = false where
  back := within_back
  step := by
    intro op n s hwithin
    refine ⟨[], fun f t _ ⟨hshows, hworks⟩ hop => ?_⟩
    have hchoice : ∀ b ∈ outcome op ((diskWorld D).exec op s).1,
        t.pool.fails t.pool.clock = b := by
      intro b hb
      rw [hworks]
      cases op with
      | newPage bytes =>
        rw [List.mem_singleton.mp hb]
        exact (newPage_ok hD hprompt hshows (counter_newPage_lt hwithin) hlimit hbudget hop).symm
      | pin id =>
        obtain ⟨bytes, hbytes⟩ := hop
        rw [List.mem_singleton.mp hb]
        exact (pin_ok hD hprompt hshows hbudget hbytes.payload).symm
      | _ => exact (List.not_mem_nil hb).elim
    obtain ⟨hanswer, hnext⟩ := exec_shows hD hlimit hshows hwithin hop hchoice
    refine ⟨hanswer, hnext, fun m => ?_⟩
    rw [(clock_exec op t ((diskWorld D).exec op s).1).1]
    exact hworks m

end DiskWorld

/-- The policy of the program's own runs, over files that hold payloads as they are. -/
def tinyDisk : DiskSetup MiningAwarePolicy where
  codec := .identity
  crc := FileChunkStore.crc32
  policy := MiningAwarePolicy.policy exactOps (.default exactOps)
  order := Session.asListed
  elapsedNs _ := 0

theorem tinyDisk_lawful : tinyDisk.Lawful where
  codec _ _ := rfl
  sized := Codec.sized_identity
  policy := MiningAwarePolicy.lawful exactOps_ordered

theorem tinyDisk_prompt : tinyDisk.policy.Prompt :=
  MiningAwarePolicy.prompt exactOps_ordered exactOps_finite

end AirHuim
