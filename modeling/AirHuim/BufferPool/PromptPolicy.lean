import AirHuim.BufferPool.LruSession

/-!
# Policies that always find a victim

A policy is prompt if it picks a frame whenever one that is not pinned is shown to
it. Under such a policy the pool needs no more memory than its users hold on to: a
page is refused exactly if it does not fit beside the pages under guards, however
long the pool has been in use.
-/

namespace AirHuim

open Library

/-- A victim is found among frames one of which is not pinned. -/
def EvictionPolicy.Prompt {π : Type} (E : EvictionPolicy π) : Prop :=
  ∀ s frames e, e ∈ frames → e.2.isPinned = false → E.pickVictim s frames ≠ none

namespace BufferPool

variable {π : Type} {E : EvictionPolicy π} {order : FrameOrder} {p : BufferPool π}
  {guards : List Guard}

/-- Without a victim every page is guarded. -/
theorem guarded_of_prompt (hprompt : E.Prompt) (hpins : Pins p guards)
    (hnone : (p.chooseVictim E order).1 = none) {id : PageId} (hid : p.frames.lookup id ≠ none) :
    0 < liveGuards guards id := by
  obtain ⟨frame, hframe⟩ := Option.ne_none_iff_exists'.mp hid
  rw [Nat.pos_iff_ne_zero]
  intro hfree
  exact hprompt p.eviction _ _ (p.mem_snapshot_of_lookup order hframe)
    ((isPinned_iff hpins hframe).mpr hfree) hnone

variable (order) in
/-- The eviction loop makes room exactly if the pages under guards leave it. -/
theorem makeRoom_prompt (hE : E.Lawful) (hprompt : E.Prompt) (hgood : Good p guards)
    (hworks : ∀ n, p.store.fails n = false) (size : ℕ) {fuel : ℕ} (hfuel : p.framesCount < fuel) :
    FullExactly (makeRoom E order size fuel p).1
      (p.budgetBytes < size + guardedBytes guards p) := by
  induction fuel generalizing p with
  | zero => omega
  | succ fuel ih =>
    cases hover : p.overBudget size with
    | false =>
      have hle := guardedBytes_le hgood
      have hroom : p.usedBytes + size ≤ p.budgetBytes := by simpa [overBudget] using hover
      rw [makeRoom_of_fits (fuel + 1) hover]
      exact Or.inr ⟨by omega, (), rfl⟩
    | true =>
      have hroom : p.budgetBytes < p.usedBytes + size := by simpa [overBudget] using hover
      obtain ⟨hkeeps, hcount, -⟩ := evictOne_spec order hE hgood
      have hfails := (evictOne_rest E order hgood).1
      have hguarded := guardedBytes_keeps hkeeps
      rcases evictOne_cases E order p with ⟨hnone, heq⟩ | ⟨id, -, ⟨e, herror, -⟩ | ⟨-, heq⟩⟩
      · have hall := guardedBytes_eq hgood fun id => guarded_of_prompt hprompt hgood.pins hnone
        rw [makeRoom_of_none fuel hover heq]
        exact Or.inl ⟨by omega, _, _, rfl⟩
      · have hok : ((p.chooseVictim E order).2.flush id).1 = .ok () :=
          flush_ok_of_works (p := (p.chooseVictim E order).2) hworks id
        rw [hok] at herror
        cases herror
      · rw [makeRoom_of_some fuel hover heq]
        rw [heq] at hkeeps hcount hfails hguarded
        have hdecreases := hcount id rfl
        have hrest := ih hkeeps.good (fun n => by rw [hfails]; exact hworks n) (by omega)
        rwa [hkeeps.budget, hguarded] at hrest

variable (order) in
/-- A page that is not resident is loaded exactly if it fits beside the guarded ones. -/
theorem pinPage_prompt (hE : E.Lawful) (hprompt : E.Prompt) (hgood : Good p guards)
    (hworks : ∀ n, p.store.fails n = false) {id : PageId} (hmiss : p.frames.lookup id = none)
    {data : Bytes} (hstored : p.store.pages id = some data) (mutable : Bool) (elapsedNs : ℕ) :
    FullExactly (pinPage E order mutable p id elapsedNs).1
      (p.budgetBytes < data.length + guardedBytes guards p) := by
  have hread : (p.readPage id).1 = .ok data := by
    simp [readPage, ChunkStore.readPage, hworks, hstored]
  have hkeeps := readPage_keeps hgood id
  have hworks' : ∀ n, (p.readPage id).2.store.fails n = false := by
    rw [fails_readPage]
    exact hworks
  have hfull := makeRoom_prompt order hE hprompt hkeeps.good hworks' data.length
    (Nat.lt_succ_self _)
  rw [guardedBytes_keeps hkeeps, hkeeps.budget] at hfull
  rcases pinPage_cases E order mutable p id elapsedNs with
    ⟨g, q, hhit, -⟩ | ⟨-, ⟨e, herror, -⟩ | ⟨data', q, result, hok, hroom, hend⟩⟩
  · rw [(lookupAndPin_none _).mpr hmiss] at hhit
    cases hhit
  · rw [hread] at herror
    cases herror
  · rw [hread] at hok
    cases hok
    rw [hroom] at hfull
    rcases hend with ⟨e, rfl, heq⟩ | ⟨rfl, r, -, -, -, heq⟩
    · rw [heq]
      exact hfull.of_error
    · rw [heq]
      exact hfull.of_ok

variable (order) in
theorem insertPage_prompt (hE : E.Lawful) (hprompt : E.Prompt) (hgood : Good p guards)
    (hworks : ∀ n, p.store.fails n = false) (id : PageId) (data : Bytes) :
    FullExactly (insertPage E order p id data).1
      (p.budgetBytes < data.length + guardedBytes guards p) := by
  have hfull := makeRoom_prompt order hE hprompt hgood hworks data.length (Nat.lt_succ_self _)
  unfold insertPage
  rcases hroom : makeRoom E order data.length (p.framesCount + 1) p with ⟨e | ⟨⟩, q⟩
  · rw [hroom] at hfull
    exact hfull.of_error
  · rw [hroom] at hfull
    exact hfull.of_ok

/-- A pin of a page that is there is answered. -/
theorem pinPage_resident (E : EvictionPolicy π) (order : FrameOrder) {id : PageId}
    (hid : p.frames.lookup id ≠ none) (mutable : Bool) (elapsedNs : ℕ) :
    ∃ g, (pinPage E order mutable p id elapsedNs).1 = .ok g := by
  rcases pinPage_cases E order mutable p id elapsedNs with ⟨g, q, -, heq⟩ | ⟨hmiss, -⟩
  · exact ⟨g, by rw [heq]⟩
  · exact (hid hmiss).elim

theorem fails_makeRoom (hE : E.Lawful) (order : FrameOrder) (size fuel : ℕ)
    (hgood : Good p guards) : (makeRoom E order size fuel p).2.store.fails = p.store.fails := by
  induction fuel generalizing p with
  | zero =>
    unfold makeRoom
    split <;> rfl
  | succ fuel ih =>
    have hone := (evictOne_rest E order hgood).1
    rcases makeRoom_round (E := E) (p := p) order size fuel with ⟨-, hsame | ⟨-, hsame⟩⟩ |
      ⟨id, -, -, hrest⟩
    · rw [hsame]
    · rw [hsame, hone]
    · rw [hrest, ih (evictOne_spec order hE hgood).1.good, hone]

end BufferPool

namespace Session

variable {π : Type} {E : EvictionPolicy π} {order : FrameOrder} {s : Session π}

/-- No operation changes which calls of the store fail. -/
theorem Consistent.fails_next (hE : E.Lawful) (h : Consistent s) (op : SessionOp) :
    (s.next E order op).pool.store.fails = s.pool.store.fails := by
  unfold next
  cases op with
  | pin mutable id elapsedNs =>
    have hloaded := BufferPool.fails_readPage s.pool id
    rcases BufferPool.pinPage_cases E order mutable s.pool id elapsedNs with ⟨g, q, hhit, heq⟩ |
      ⟨-, ⟨e, -, heq⟩ | ⟨data, q, result, -, hroom, hend⟩⟩
    · obtain ⟨frame, -, -, rfl⟩ := BufferPool.lookupAndPin_some hhit
      simp only [Session.step, heq, BufferPool.store_setInfo]
    · simp only [Session.step, heq]
      exact hloaded
    · have hroomed := BufferPool.fails_makeRoom hE order data.length
        ((s.pool.readPage id).2.framesCount + 1) (BufferPool.readPage_keeps h.good id).good
      rw [hroom] at hroomed
      rcases hend with ⟨e, -, heq⟩ | ⟨-, r, -, -, -, heq⟩
      · simp only [Session.step, heq]
        exact hroomed.trans hloaded
      · simp only [Session.step, heq]
        exact hroomed.trans hloaded
  | insertPage id data =>
    have hroomed := BufferPool.fails_makeRoom hE order data.length (s.pool.framesCount + 1) h.good
    rcases hroom : BufferPool.makeRoom E order data.length (s.pool.framesCount + 1) s.pool with
      ⟨e | ⟨⟩, q⟩
    · rw [hroom] at hroomed
      simp only [Session.step, BufferPool.insertPage, hroom]
      exact hroomed
    · rw [hroom] at hroomed
      simp only [Session.step, BufferPool.insertPage, hroom]
      exact hroomed
  | poke i off byte =>
    simp only [Session.step]
    split
    · split
      · exact congrArg ChunkStore.fails (BufferPool.store_poke ..)
      · rfl
    · rfl
  | dropGuard i =>
    simp only [Session.step]
    split
    · unfold BufferPool.dropGuard BufferPool.unpin BufferPool.markDirty
      split <;> simp only [BufferPool.store_setInfo]
    · rfl
  | markDirty id => exact congrArg ChunkStore.fails (BufferPool.store_setInfo s.pool id _)
  | flush id => exact (BufferPool.flush_rest s.pool id).2
  | evictOne => exact (BufferPool.evictOne_rest E order h.good).1
  | setBudget bytes => rfl

/-- A page that is not there is refused as `full` exactly if it does not fit
beside the pages with live guards, and else there is an answer. -/
structure RefusesOnlyFull (E : EvictionPolicy π) (order : FrameOrder) (s : Session π) : Prop where
  pin : ∀ mutable id elapsedNs data, s.pool.frames.lookup id = none →
    s.pool.store.pages id = some data →
    BufferPool.FullExactly (s.step E order (.pin mutable id elapsedNs)).1
      (s.pool.budgetBytes < data.length + BufferPool.guardedBytes s.guards s.pool)
  insertPage : ∀ id data,
    BufferPool.FullExactly (s.step E order (.insertPage id data)).1
      (s.pool.budgetBytes < data.length + BufferPool.guardedBytes s.guards s.pool)

theorem Consistent.refusesOnlyFull (hE : E.Lawful) (hprompt : E.Prompt) (h : Consistent s)
    (hworks : ∀ n, s.pool.store.fails n = false) : RefusesOnlyFull E order s where
  pin mutable id elapsedNs data hmiss hstored := by
    have hfull := BufferPool.pinPage_prompt order hE hprompt h.good hworks hmiss hstored mutable
      elapsedNs
    rcases hpin : BufferPool.pinPage E order mutable s.pool id elapsedNs with ⟨e | g, q⟩
    · simp only [Session.step, hpin]
      rw [hpin] at hfull
      exact hfull.of_error
    · simp only [Session.step, hpin]
      rw [hpin] at hfull
      exact hfull.of_ok
  insertPage id data := by
    have hfull := BufferPool.insertPage_prompt order hE hprompt h.good hworks id data
    rcases hinsert : BufferPool.insertPage E order s.pool id data with ⟨e | ⟨⟩, q⟩
    · simp only [Session.step, hinsert]
      rw [hinsert] at hfull
      exact hfull.of_error
    · simp only [Session.step, hinsert]
      rw [hinsert] at hfull
      exact hfull.of_ok

/-- Under a prompt policy, however long a thread has used a pool over a store that
works, pages are refused exactly if there is no room for them. -/
theorem refuses_only_full (hE : E.Lawful) (hprompt : E.Prompt) (order : FrameOrder)
    (budgetBytes : ℕ) (store : ChunkStore) (hworks : ∀ n, store.fails n = false) (eviction : π)
    (ops : List SessionOp)
    (hlegal : (Session.new (BufferPool.new budgetBytes store eviction)).Legal E order ops) :
    AllStates (next E order) (RefusesOnlyFull E order)
      (Session.new (BufferPool.new budgetBytes store eviction)) ops := by
  have hstates : AllStates (next E order)
      (fun s => Consistent s ∧ ∀ n, s.pool.store.fails n = false)
      (Session.new (BufferPool.new budgetBytes store eviction)) ops := by
    refine AllStates.of_steps (fun s op ⟨h, hworks⟩ hop => ⟨h.step hE hop.1 hop.2, fun n => ?_⟩)
      ⟨Consistent.new budgetBytes store eviction, hworks⟩ hlegal
    rw [h.fails_next hE]
    exact hworks n
  exact hstates.mono fun s ⟨h, hworks⟩ => h.refusesOnlyFull hE hprompt hworks

end Session

end AirHuim
