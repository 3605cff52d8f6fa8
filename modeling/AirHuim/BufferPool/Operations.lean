import AirHuim.BufferPool.Transparent

/-!
# Guards and the pool's operations

What a hit, an insertion, a write through a guard and a guard's drop do to the
invariant and to the pages' contents, and from these what `pin`, `pin_mut` and
`insert_page` do.
-/

namespace AirHuim

open Library

namespace BufferPool

variable {π : Type} {p q : BufferPool π} {guards : List Guard}

/-! ## Guards -/

theorem lookup_install (E : EvictionPolicy π) (p : BufferPool π) (r : Request) (k : PageId) :
    (p.install E r).frames.lookup k =
      if k = r.pageId then some ⟨r.data, r.info p.tick, p.nextAddr⟩ else p.frames.lookup k :=
  lookup_insertFrame (p.addUsed r.data.length) r p.tick k

/-- A page that is not resident is installed; of a loaded one the store has the bytes. -/
theorem install_good (E : EvictionPolicy π) (h : Good p guards) {r : Request}
    (habsent : p.frames.lookup r.pageId = none)
    (hstore : r.pinned.isSome → p.store.pages r.pageId = some r.data) :
    Good (p.install E r) (r.guard p.nextAddr ++ guards) := by
  have hpins : Pins (p.addUsed r.data.length) guards := h.pins.congr rfl
  have hclean : Clean (p.addUsed r.data.length) guards := h.clean.congr rfl rfl
  have hinserted := hpins.insertFrame (r := r) p.tick (h.pins.free_of_absent habsent)
  have hagrees : Clean ((p.addUsed r.data.length).insertFrame r p.tick)
      (r.guard p.nextAddr ++ guards) :=
    hclean.insertFrame p.tick (fun k _ hno g hg => hno g (List.mem_append_right _ hg)) hstore
  have hledger := (h.ledger.addUsed r.data.length).insertFrame habsent p.tick
  exact ⟨hledger, hinserted.congr rfl, hagrees.congr rfl rfl⟩

theorem content_install (E : EvictionPolicy π) (p : BufferPool π) (r : Request) :
    (p.install E r).content = Function.update p.content r.pageId (some r.data) :=
  content_insertFrame (p.addUsed r.data.length) r p.tick

/-- A hit adds a guard, if the pin counter has room for it. -/
theorem lookupAndPin_good (E : EvictionPolicy π) (h : Good p guards) {id : PageId} {mutable : Bool}
    {g : Guard} (hhit : p.lookupAndPin E id mutable = some (g, q))
    (hroom : liveGuards guards id + 1 < 2 ^ 16) : Good q (g :: guards) := by
  obtain ⟨frame, hframe, rfl, rfl⟩ := lookupAndPin_some hhit
  rw [← h.pins.counts id frame hframe] at hroom
  have hclean : Clean (p.setInfo id (countPin p.tick))
      (⟨id, frame.addr, frame.data.length, mutable⟩ :: guards) := by
    apply h.clean.setInfo
    · intro k _ hno g hg
      exact hno g (List.mem_cons_of_mem _ hg)
    · intro frame hframe hdirty hno
      exact h.clean id frame hframe hdirty fun g hg => hno g (List.mem_cons_of_mem _ hg)
  exact ⟨h.ledger.setInfo id _, (h.pins.hit hframe hroom mutable).congr rfl,
    hclean.congr rfl rfl⟩

/-- A hit shows the page and moves nothing. -/
theorem lookupAndPin_spec (E : EvictionPolicy π) {id : PageId} {mutable : Bool} {g : Guard}
    (hhit : p.lookupAndPin E id mutable = some (g, q)) :
    q.content = p.content ∧ q.budgetBytes = p.budgetBytes ∧
      (∀ k, p.frames.lookup k = none → q.frames.lookup k = none) ∧
      g.pageId = id ∧ q.Backs g ∧ p.frames.lookup id ≠ none := by
  obtain ⟨frame, hframe, rfl, rfl⟩ := lookupAndPin_some hhit
  have hbacks : p.Backs ⟨id, frame.addr, frame.data.length, mutable⟩ := ⟨frame, hframe, rfl, rfl⟩
  refine ⟨content_setInfo p id _, budgetBytes_setInfo p id _,
    fun k => lookup_setInfo_none p id _, rfl, hbacks.setInfo id (countPin p.tick), ?_⟩
  rw [hframe]
  exact Option.some_ne_none frame

/-- A write through a live `PinMutGuard` changes one byte of its page. -/
theorem poke_good (h : Good p guards) {g : Guard} (hg : g ∈ guards) (hmut : g.mutable = true)
    (off : ℕ) (byte : UInt8) : Good (p.poke g off byte) guards :=
  ⟨h.ledger.poke g off byte, h.pins.poke (h.pins.backed g hg) off byte,
    h.clean.poke (h.pins.backed g hg) hg hmut off byte⟩

theorem poke_absent {g : Guard} (hg : p.Backs g) (off : ℕ) (byte : UInt8) {k : PageId}
    (h : p.frames.lookup k = none) : (p.poke g off byte).frames.lookup k = none := by
  rw [lookup_poke hg]
  split
  · rw [h]
    rfl
  · exact h

/-- A guard is dropped; if it could write, its page is marked dirty first. -/
theorem dropGuard_good (h : Good p guards) {g : Guard} {rest : List Guard}
    (hperm : guards.Perm (g :: rest)) : Good (p.dropGuard g) rest := by
  have hwriter : ∀ k, (g.pageId = k → g.mutable = false) → NoWriter rest k →
      NoWriter guards k := by
    intro k hgk hrest g' hg' hid
    rcases List.mem_cons.mp (hperm.mem_iff.mp hg') with rfl | hmem
    · exact hgk hid
    · exact hrest g' hmem hid
  unfold dropGuard
  cases hmut : g.mutable with
  | false =>
    rw [if_neg (by simp)]
    have hclean : Clean p rest := h.clean.mono fun k => hwriter k fun _ => hmut
    exact ⟨h.ledger.setInfo g.pageId _, h.pins.unpin hperm, hclean.unpin g.pageId⟩
  | true =>
    rw [if_pos rfl]
    have hpins : Pins (p.markDirty g.pageId) guards := h.pins.setDirty g.pageId fun _ => rfl
    have hclean : Clean (p.markDirty g.pageId) rest :=
      h.clean.markDirty fun k hk => hwriter k fun hgk => (hk hgk.symm).elim
    exact ⟨(h.ledger.setInfo g.pageId _).setInfo g.pageId _, hpins.unpin hperm,
      hclean.unpin g.pageId⟩

theorem dropGuard_spec (p : BufferPool π) (g : Guard) : (p.dropGuard g).content = p.content ∧
    ∀ k, p.frames.lookup k = none → (p.dropGuard g).frames.lookup k = none := by
  unfold dropGuard
  split
  · refine ⟨?_, fun k hk => lookup_setInfo_none _ _ _ (lookup_setInfo_none p _ _ hk)⟩
    rw [unpin, content_setInfo, markDirty, content_setInfo]
  · exact ⟨content_setInfo p _ _, fun k hk => lookup_setInfo_none p _ _ hk⟩

theorem markDirty_good (h : Good p guards) (id : PageId) : Good (p.markDirty id) guards :=
  ⟨h.ledger.setInfo id _, h.pins.setDirty id fun _ => rfl, h.clean.markDirty fun _ _ hno => hno⟩

/-! ## The operations -/

section Operations

variable {E : EvictionPolicy π} {order : FrameOrder}

/-- How a pin can end. -/
theorem pinPage_cases (E : EvictionPolicy π) (order : FrameOrder) (mutable : Bool)
    (p : BufferPool π) (id : PageId) (elapsedNs : ℕ) :
    (∃ g q, p.lookupAndPin E id mutable = some (g, q) ∧
        pinPage E order mutable p id elapsedNs = (.ok g, q)) ∨
      p.frames.lookup id = none ∧
        ((∃ e, (p.readPage id).1 = .error e ∧
            pinPage E order mutable p id elapsedNs = (.error e, (p.readPage id).2)) ∨
          ∃ data q result, (p.readPage id).1 = .ok data ∧
            makeRoom E order data.length ((p.readPage id).2.framesCount + 1) (p.readPage id).2 =
              (result, q) ∧
            ((∃ e, result = .error e ∧
                pinPage E order mutable p id elapsedNs = (.error e, q)) ∨
              result = .ok () ∧ ∃ r : Request, r.pageId = id ∧ r.data = data ∧
                r.pinned = some mutable ∧ pinPage E order mutable p id elapsedNs =
                  (.ok ⟨id, q.nextAddr, data.length, mutable⟩, q.install E r))) := by
  unfold pinPage
  rcases hhit : p.lookupAndPin E id mutable with _ | ⟨g, q⟩
  · refine Or.inr ⟨(lookupAndPin_none E).mp hhit, ?_⟩
    dsimp only
    rcases p.readPage id with ⟨e | data, p₁⟩
    · exact Or.inl ⟨e, rfl, rfl⟩
    · refine Or.inr ⟨data, ?_⟩
      dsimp only
      rcases hroom : makeRoom E order data.length (p₁.framesCount + 1) p₁ with ⟨e | ⟨⟩, q⟩
      · exact ⟨q, .error e, rfl, rfl, Or.inl ⟨e, rfl, rfl⟩⟩
      · exact ⟨q, .ok (), rfl, rfl, Or.inr ⟨rfl, _, rfl, rfl, rfl, rfl⟩⟩
  · exact Or.inl ⟨g, q, rfl, rfl⟩

/-- A pin that fails has only moved pages. -/
theorem pinPage_error (hE : E.Lawful) (h : Good p guards) {mutable : Bool} {id : PageId}
    {elapsedNs : ℕ} {e : PoolError}
    (herror : pinPage E order mutable p id elapsedNs = (.error e, q)) :
    Keeps guards p q ∧ Reported e := by
  rcases pinPage_cases E order mutable p id elapsedNs with ⟨g, q', -, heq⟩ |
    ⟨-, ⟨e', hread, heq⟩ | ⟨data, q', result, -, hroom, ⟨e', rfl, heq⟩ | ⟨-, _, -, -, -, heq⟩⟩⟩
  · rw [heq] at herror
    cases herror
  · rw [heq] at herror
    cases herror
    exact ⟨readPage_keeps h id, Or.inl (readPage_error hread)⟩
  · rw [heq] at herror
    cases herror
    have hread := readPage_keeps h id
    obtain ⟨hkeeps, -, hreported⟩ :=
      makeRoom_spec order hE data.length _ hread.good (Nat.lt_succ_self _)
    rw [hroom] at hkeeps hreported
    exact ⟨hread.trans hkeeps, hreported e rfl⟩
  · rw [heq] at herror
    cases herror

/-- What a successful pin of `id` says of its guard and of the pool it leaves. -/
structure Pinned (guards : List Guard) (p q : BufferPool π) (id : PageId) (g : Guard) : Prop where
  page : g.pageId = id
  backs : q.Backs g
  content : q.content = p.content
  budget : q.budgetBytes = p.budgetBytes
  absent : ∀ k, k ≠ id → p.frames.lookup k = none → q.frames.lookup k = none
  good : liveGuards guards id + 1 < 2 ^ 16 → Good q (g :: guards)
  fits : p.frames.lookup id = none → q.usedBytes ≤ q.budgetBytes

theorem pinPage_ok (hE : E.Lawful) (h : Good p guards) {mutable : Bool} {id : PageId}
    {elapsedNs : ℕ} {g : Guard} (hok : pinPage E order mutable p id elapsedNs = (.ok g, q)) :
    Pinned guards p q id g := by
  rcases pinPage_cases E order mutable p id elapsedNs with ⟨g', q', hhit, heq⟩ |
    ⟨hmiss, ⟨e, -, heq⟩ | ⟨data, q', result, hread, hroom, ⟨e, rfl, heq⟩ |
      ⟨rfl, r, hid, hdata, hpinned, heq⟩⟩⟩
  · rw [heq] at hok
    cases hok
    obtain ⟨hcontent, hbudget, habsent, hpage, hbacks, hresident⟩ := lookupAndPin_spec E hhit
    exact ⟨hpage, hbacks, hcontent, hbudget, fun k _ hk => habsent k hk,
      lookupAndPin_good E h hhit, fun hnone => (hresident hnone).elim⟩
  · rw [heq] at hok
    cases hok
  · rw [heq] at hok
    cases hok
  · rw [heq] at hok
    cases hok
    have hload := readPage_keeps h id
    obtain ⟨hkeeps, hfits, -⟩ :=
      makeRoom_spec order hE data.length _ hload.good (Nat.lt_succ_self _)
    rw [hroom] at hkeeps hfits
    have hall := hload.trans hkeeps
    have habsent : q'.frames.lookup id = none := hall.absent id hmiss
    have hstore : q'.content id = some data := by
      rw [hall.content, content_of_absent hmiss]
      exact readPage_ok hread
    have hguard : r.guard q'.nextAddr = [⟨id, q'.nextAddr, data.length, mutable⟩] := by
      simp [Request.guard, hpinned, hid, hdata]
    have hgood : Good (q'.install E r) (⟨id, q'.nextAddr, data.length, mutable⟩ :: guards) := by
      have hinstall := install_good E hall.good (r := r) (by rw [hid, habsent]) fun _ => by
        rw [hid, hdata, ← content_of_absent habsent, hstore]
      rwa [hguard] at hinstall
    refine ⟨rfl, hgood.pins.backed _ List.mem_cons_self, ?_, hall.budget, fun k hk hnone => ?_,
      fun _ => hgood, fun _ => ?_⟩
    · rw [content_install, hid, hdata, ← hstore, Function.update_eq_self, hall.content]
    · rw [lookup_install, hid, if_neg hk]
      exact hall.absent k hnone
    · change q'.usedBytes + r.data.length ≤ q'.budgetBytes
      rw [hdata, hkeeps.budget]
      exact hfits rfl

theorem insertPage_error (hE : E.Lawful) (h : Good p guards) {id : PageId} {data : Bytes}
    {e : PoolError} (herror : insertPage E order p id data = (.error e, q)) :
    Keeps guards p q ∧ Reported e := by
  obtain ⟨hkeeps, -, hreported⟩ :=
    makeRoom_spec order hE data.length _ h (Nat.lt_succ_self _)
  unfold insertPage at herror
  rcases hroom : makeRoom E order data.length (p.framesCount + 1) p with ⟨e' | ⟨⟩, q'⟩
  · rw [hroom] at herror hkeeps hreported
    cases herror
    exact ⟨hkeeps, hreported e rfl⟩
  · rw [hroom] at herror
    cases herror

/-- A page that was not resident is created with its bytes. -/
theorem insertPage_ok (hE : E.Lawful) (h : Good p guards) {id : PageId} {data : Bytes}
    (habsent : p.frames.lookup id = none)
    (hok : insertPage E order p id data = (.ok (), q)) :
    Good q guards ∧ q.content = Function.update p.content id (some data) ∧
      ∀ k, k ≠ id → p.frames.lookup k = none → q.frames.lookup k = none := by
  obtain ⟨hkeeps, hfits, -⟩ :=
    makeRoom_spec order hE data.length _ h (Nat.lt_succ_self _)
  unfold insertPage at hok
  rcases hroom : makeRoom E order data.length (p.framesCount + 1) p with ⟨e | ⟨⟩, q'⟩
  · rw [hroom] at hok
    cases hok
  · rw [hroom] at hok hkeeps hfits
    cases hok
    refine ⟨install_good E (r := ⟨id, data, none, 50000⟩) hkeeps.good (hkeeps.absent id habsent)
      (fun hpin => by cases hpin), ?_, fun k hk hnone => ?_⟩
    · rw [content_install, hkeeps.content]
    · rw [lookup_install, if_neg hk]
      exact hkeeps.absent k hnone

theorem insertPage_fits (hE : E.Lawful) (h : Good p guards) {id : PageId} {data : Bytes}
    (hok : insertPage E order p id data = (.ok (), q)) : q.usedBytes ≤ q.budgetBytes := by
  obtain ⟨hkeeps, hfits, -⟩ :=
    makeRoom_spec order hE data.length _ h (Nat.lt_succ_self _)
  unfold insertPage at hok
  rcases hroom : makeRoom E order data.length (p.framesCount + 1) p with ⟨e | ⟨⟩, q'⟩
  · rw [hroom] at hok
    cases hok
  · rw [hroom] at hok hkeeps hfits
    cases hok
    change q'.usedBytes + data.length ≤ q'.budgetBytes
    rw [hkeeps.budget]
    exact hfits rfl

end Operations

end BufferPool

end AirHuim
