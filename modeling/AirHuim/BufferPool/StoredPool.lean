import AirHuim.BufferPool.Operations
import AirHuim.Library.Records

/-!
# The pool over any store

The pool reaches the store below it through a trait. Here the operations that do
so are given over any implementation of it, and compared with the pool over the
map of pages: if the store acts as a map, the two pools answer alike and keep the
same frames.
-/

namespace AirHuim

open Library

/-- The trait `ChunkStore`, as far as the pool calls it. -/
structure StoreTrait (σ : Type) where
  readPage : σ → PageId → Except PoolError Bytes × σ
  writePage : σ → PageId → Bytes → Except PoolError Unit × σ

/-- A pool over a store: of `fields`, all but the store is used. -/
structure StoredPool (π σ : Type) where
  fields : BufferPool π
  store : σ

/-- A store without pages, for the fields of a pool over another one. -/
def ChunkStore.empty : ChunkStore := ⟨fun _ => none, 0, fun _ => false, fun _ => none⟩

variable {π σ : Type} (T : StoreTrait σ) (E : EvictionPolicy π) (order : FrameOrder)

namespace StoredPool

def new (budgetBytes : ℕ) (store : σ) (eviction : π) : StoredPool π σ :=
  ⟨.new budgetBytes .empty eviction, store⟩

def setBudget (p : StoredPool π σ) (bytes : ℕ) : StoredPool π σ :=
  { p with fields := p.fields.setBudget bytes }

def flush (p : StoredPool π σ) (id : PageId) : Except PoolError Unit × StoredPool π σ :=
  if p.fields.isDirty id then
    match p.fields.frames.lookup id with
    | none => (.error .panic, p)
    | some frame =>
      match T.writePage p.store id frame.data with
      | (.error e, store) => (.error e, { p with store })
      | (.ok (), store) => (.ok (), ⟨p.fields.clearDirty id, store⟩)
  else (.ok (), p)

def evictOne (p : StoredPool π σ) : Except PoolError (Option PageId) × StoredPool π σ :=
  match p.fields.chooseVictim E order with
  | (none, fields) => (.ok none, { p with fields })
  | (some victim, fields) =>
    match flush T { p with fields } victim with
    | (.error e, p) => (.error e, p)
    | (.ok (), p) =>
      let (size, fields) := p.fields.removeFrame victim
      (.ok (some victim), { p with fields := (fields.subUsed size).noteEvict E victim })

def makeRoom (size : ℕ) : ℕ → StoredPool π σ → Except PoolError Unit × StoredPool π σ
  | fuel, p =>
    if p.fields.overBudget size then
      match fuel with
      | 0 => (.error .stuck, p)
      | fuel + 1 =>
        match p.evictOne T E order with
        | (.error e, p) => (.error e, p)
        | (.ok none, p) => (.error (.full p.fields.usedBytes p.fields.budgetBytes), p)
        | (.ok (some _), p) => makeRoom size fuel p
    else (.ok (), p)

def install (p : StoredPool π σ) (r : Request) : StoredPool π σ :=
  { p with fields := p.fields.install E r }

def pinPage (mutable : Bool) (p : StoredPool π σ) (id : PageId) (elapsedNs : ℕ) :
    Except PoolError Guard × StoredPool π σ :=
  match p.fields.lookupAndPin E id mutable with
  | some (guard, fields) => (.ok guard, { p with fields })
  | none =>
    match T.readPage p.store id with
    | (.error e, store) => (.error e, { p with store })
    | (.ok data, store) =>
      match makeRoom T E order data.length (p.fields.framesCount + 1) { p with store } with
      | (.error e, p) => (.error e, p)
      | (.ok (), p) =>
        (.ok ⟨id, p.fields.nextAddr, data.length, mutable⟩,
          p.install E ⟨id, data, some mutable, min elapsedNs (2 ^ 32 - 1)⟩)

def insertPage (p : StoredPool π σ) (id : PageId) (data : Bytes) :
    Except PoolError Unit × StoredPool π σ :=
  match makeRoom T E order data.length (p.fields.framesCount + 1) p with
  | (.error e, p) => (.error e, p)
  | (.ok (), p) => (.ok (), p.install E ⟨id, data, none, 50000⟩)

end StoredPool

/-! ## Stores that act as a map -/

/-- The store shows the pages of a map, reads and writes them, and holds pages
only that `Fits` admits; so it may be written any page that has been loaded. -/
structure StoreTrait.ActsAsMap (Shows : σ → (PageId → Option Bytes) → Prop)
    (Fits : PageId → Bytes → Prop) : Prop where
  read : ∀ s pages id, Shows s pages →
    (T.readPage s id).1 = (match pages id with
      | some data => .ok data
      | none => .error .store) ∧ Shows (T.readPage s id).2 pages
  write : ∀ s pages id data, Shows s pages → Fits id data →
    (T.writePage s id data).1 = .ok () ∧
      Shows (T.writePage s id data).2 (Function.update pages id (some data))
  fits : ∀ s pages id data, Shows s pages → pages id = some data → Fits id data

/-- The pool over the store and the pool over a map that it shows. -/
structure StoredPool.Mirrors (Shows : σ → (PageId → Option Bytes) → Prop)
    (Fits : PageId → Bytes → Prop) (p : StoredPool π σ) (q : BufferPool π) : Prop where
  fields : q = { p.fields with store := q.store }
  shows : Shows p.store q.store.pages
  works : ∀ n, q.store.fails n = false
  fits : ∀ id frame, q.frames.lookup id = some frame → Fits id frame.data

namespace BufferPool

/-- A write of bytes through a guard. -/
def write (p : BufferPool π) (g : Guard) : ℕ → Bytes → BufferPool π
  | _, [] => p
  | off, b :: bs => (p.poke g off b).write g (off + 1) bs

theorem write_spec {p : BufferPool π} {guards : List Guard} (h : Good p guards) {g : Guard}
    (hg : g ∈ guards) {bs : Bytes} (hmut : bs ≠ [] → g.mutable = true) (off : ℕ) :
    Good (p.write g off bs) guards ∧
      (p.write g off bs).content = Function.update p.content g.pageId
        ((p.content g.pageId).map (writeFrom · off bs)) ∧
      (p.write g off bs).budgetBytes = p.budgetBytes ∧
      ∀ k, p.frames.lookup k = none → (p.write g off bs).frames.lookup k = none := by
  induction bs generalizing p off with
  | nil => exact ⟨h, by simp [write, writeFrom], rfl, fun _ hk => hk⟩
  | cons b bs ih =>
    have hbacks := h.pins.backed g hg
    have hmutable := hmut (List.cons_ne_nil b bs)
    have hbudget : (p.poke g off b).budgetBytes = p.budgetBytes := by
      unfold poke
      split
      · split <;> rfl
      · rfl
    obtain ⟨hgood, hcontent, hbudget', habsent⟩ :=
      ih (poke_good h hg hmutable off b) (fun _ => hmutable) (off + 1)
    refine ⟨hgood, ?_, hbudget'.trans hbudget, fun k hk => habsent k (poke_absent hbacks off b hk)⟩
    rw [write, hcontent, content_poke hbacks, Function.update_self, Function.update_idem,
      Option.map_map]
    rfl

/-- The guard of a pin may write if that was asked for. -/
theorem mutable_of_pinPage {E : EvictionPolicy π} {order : FrameOrder} {p q : BufferPool π}
    {mutable : Bool} {id : PageId} {elapsedNs : ℕ} {g : Guard}
    (h : pinPage E order mutable p id elapsedNs = (.ok g, q)) : g.mutable = mutable := by
  rcases pinPage_cases E order mutable p id elapsedNs with ⟨g', q', hhit, heq⟩ |
    ⟨-, ⟨e, -, heq⟩ | ⟨data, q', result, -, -, ⟨e, -, heq⟩ | ⟨-, r, -, -, -, heq⟩⟩⟩
  · rw [heq] at h
    cases h
    unfold lookupAndPin at hhit
    split at hhit
    · cases hhit
      rfl
    · cases hhit
  · rw [heq] at h
    cases h
  · rw [heq] at h
    cases h
  · rw [heq] at h
    cases h
    rfl

variable (p : BufferPool π) (store : ChunkStore)

theorem setInfo_withStore (id : PageId) (f : PageMeta → PageMeta) :
    ({ p with store } : BufferPool π).setInfo id f = { p.setInfo id f with store } := by
  cases h : p.frames.lookup id with
  | none => simp [setInfo, h]
  | some frame => simp [setInfo, h]

theorem removeFrame_withStore (id : PageId) :
    ({ p with store } : BufferPool π).removeFrame id =
      ((p.removeFrame id).1, { (p.removeFrame id).2 with store }) := by
  cases h : p.frames.lookup id with
  | none => simp [removeFrame, h]
  | some frame => simp [removeFrame, h]

theorem lookupAndPin_withStore (id : PageId) (mutable : Bool) :
    ({ p with store } : BufferPool π).lookupAndPin E id mutable =
      (p.lookupAndPin E id mutable).map fun r => (r.1, { r.2 with store }) := by
  cases h : p.frames.lookup id with
  | none => simp [lookupAndPin, h]
  | some frame => simp [lookupAndPin, h, setInfo_withStore]

end BufferPool

namespace StoredPool

section Mirrored

variable {T} {Shows : σ → (PageId → Option Bytes) → Prop} {Fits : PageId → Bytes → Prop}
  {p : StoredPool π σ} {q : BufferPool π}

/-- Equal answers, and pools that mirror each other. -/
def Alike {α : Type} (Shows : σ → (PageId → Option Bytes) → Prop) (Fits : PageId → Bytes → Prop)
    (r : α × StoredPool π σ) (r' : α × BufferPool π) : Prop :=
  r.1 = r'.1 ∧ Mirrors Shows Fits r.2 r'.2

/-- An access that does not reach the store and brings no new bytes. -/
theorem Mirrors.access (h : Mirrors Shows Fits p q) {f : BufferPool π → BufferPool π}
    (hstore : (f q).store = q.store)
    (hf : f { p.fields with store := q.store } = { f p.fields with store := q.store })
    (hfits : ∀ id frame, (f q).frames.lookup id = some frame → Fits id frame.data) :
    Mirrors Shows Fits { p with fields := f p.fields } (f q) where
  fields := by
    rw [hstore, ← hf, ← h.fields]
  shows := by
    rw [hstore]
    exact h.shows
  works := by
    rw [hstore]
    exact h.works
  fits := hfits

theorem Mirrors.setInfo (h : Mirrors Shows Fits p q) (id : PageId) (f : PageMeta → PageMeta) :
    Mirrors Shows Fits { p with fields := p.fields.setInfo id f } (q.setInfo id f) := by
  apply h.access (f := fun q => q.setInfo id f)
  · exact q.store_setInfo id f
  · exact p.fields.setInfo_withStore q.store id f
  · intro k frame hframe
    rw [BufferPool.lookup_setInfo] at hframe
    split at hframe
    · rename_i hk
      obtain ⟨old, hold, rfl⟩ := Option.map_eq_some_iff.mp hframe
      exact h.fits k old (hk ▸ hold)
    · exact h.fits k frame hframe

theorem Mirrors.removeFrame (h : Mirrors Shows Fits p q) (id : PageId) :
    (p.fields.removeFrame id).1 = (q.removeFrame id).1 ∧
      Mirrors Shows Fits { p with fields := (p.fields.removeFrame id).2 } (q.removeFrame id).2 := by
  have hremove := p.fields.removeFrame_withStore q.store id
  rw [← h.fields] at hremove
  refine ⟨by rw [hremove], h.access (f := fun q => (q.removeFrame id).2) ?_ ?_ ?_⟩
  · exact q.store_removeFrame id
  · rw [BufferPool.removeFrame_withStore]
  · exact fun k frame hframe => h.fits k frame (BufferPool.lookup_of_removeFrame hframe)

theorem Mirrors.install (h : Mirrors Shows Fits p q) {r : Request} (hr : Fits r.pageId r.data) :
    Mirrors Shows Fits (p.install E r) (q.install E r) := by
  apply h.access (f := fun q => q.install E r) rfl rfl
  intro k frame hframe
  rw [BufferPool.lookup_install] at hframe
  split at hframe
  · rename_i hk
    cases hframe
    exact hk ▸ hr
  · exact h.fits k frame hframe

theorem Mirrors.poke
    (hset : ∀ id (data : Bytes) off byte, Fits id data → Fits id (data.set off byte))
    (h : Mirrors Shows Fits p q) (g : Guard) (off : ℕ) (byte : UInt8) :
    Mirrors Shows Fits { p with fields := p.fields.poke g off byte } (q.poke g off byte) := by
  apply h.access (f := fun q => q.poke g off byte)
  · exact q.store_poke g off byte
  · unfold BufferPool.poke
    dsimp only
    split
    · split <;> rfl
    · rfl
  · intro k frame hframe
    unfold BufferPool.poke at hframe
    split at hframe
    · rename_i old hold
      split_ifs at hframe
      · by_cases hk : k = g.pageId
        · subst hk
          rw [AList.lookup_insert] at hframe
          cases hframe
          exact hset _ _ _ _ (h.fits _ old hold)
        · rw [AList.lookup_insert_ne hk] at hframe
          exact h.fits k frame hframe
      · exact h.fits k frame hframe
    · exact h.fits k frame hframe

theorem Mirrors.write
    (hset : ∀ id (data : Bytes) off byte, Fits id data → Fits id (data.set off byte))
    (h : Mirrors Shows Fits p q) (g : Guard) (off : ℕ) (bs : Bytes) :
    Mirrors Shows Fits { p with fields := p.fields.write g off bs } (q.write g off bs) := by
  induction bs generalizing p q off with
  | nil => exact h
  | cons b bs ih => exact ih (h.poke hset g off b) (off + 1)

theorem Mirrors.dropGuard (h : Mirrors Shows Fits p q) (g : Guard) :
    Mirrors Shows Fits { p with fields := p.fields.dropGuard g } (q.dropGuard g) := by
  unfold BufferPool.dropGuard
  split
  · have hdirty := h.setInfo g.pageId fun m => { m with dirty := true }
    exact hdirty.setInfo g.pageId fun m => { m with pinCount := m.pinCount - 1 }
  · exact h.setInfo g.pageId _

theorem flush_alike (hT : T.ActsAsMap Shows Fits) (h : Mirrors Shows Fits p q) (id : PageId) :
    Alike Shows Fits (p.flush T id) (q.flush id) := by
  have hdirty : q.isDirty id = p.fields.isDirty id := by
    rw [h.fields]
    rfl
  have hlookup : q.frames.lookup id = p.fields.frames.lookup id := by
    rw [h.fields]
  unfold flush BufferPool.flush
  rw [hdirty, hlookup]
  split
  case isFalse => exact ⟨rfl, h⟩
  case isTrue =>
    cases hframe : p.fields.frames.lookup id with
    | none => exact ⟨rfl, h⟩
    | some frame =>
      have hfits := h.fits id frame (hlookup.trans hframe)
      obtain ⟨hok, hshows⟩ := hT.write p.store q.store.pages id frame.data h.shows hfits
      have hwrite : q.writePage id frame.data = (.ok (), (q.writePage id frame.data).2) := by
        simp [BufferPool.writePage, ChunkStore.writePage, h.works]
      have hpages : (q.writePage id frame.data).2.store.pages =
          Function.update q.store.pages id (some frame.data) := by
        simp [BufferPool.writePage, ChunkStore.writePage, h.works]
      dsimp only
      rw [hwrite]
      rcases hstore : T.writePage p.store id frame.data with ⟨r, store⟩
      rw [hstore] at hok hshows
      obtain rfl : r = .ok () := hok
      have hmirrors : Mirrors Shows Fits { p with store } (q.writePage id frame.data).2 := by
        refine ⟨?_, hpages ▸ hshows, fun n => ?_, h.fits⟩
        · conv_lhs => rw [h.fields]
          rfl
        · simp [BufferPool.writePage, ChunkStore.writePage, h.works]
      exact ⟨rfl, hmirrors.setInfo id _⟩

theorem evictOne_alike (hT : T.ActsAsMap Shows Fits) (h : Mirrors Shows Fits p q) :
    Alike Shows Fits (p.evictOne T E order) (q.evictOne E order) := by
  have hchosen : (q.chooseVictim E order).1 = (p.fields.chooseVictim E order).1 ∧
      Mirrors Shows Fits { p with fields := (p.fields.chooseVictim E order).2 }
        (q.chooseVictim E order).2 := by
    refine ⟨by rw [h.fields]; rfl, h.access (f := fun q => (q.chooseVictim E order).2) rfl rfl ?_⟩
    exact h.fits
  unfold evictOne BufferPool.evictOne
  rcases hvictim : p.fields.chooseVictim E order with ⟨r, fields⟩
  rcases hvictim' : q.chooseVictim E order with ⟨r', q'⟩
  rw [hvictim, hvictim'] at hchosen
  obtain ⟨rfl, hmirrors⟩ : r' = r ∧ _ := hchosen
  rcases r' with _ | victim
  · exact ⟨rfl, hmirrors⟩
  · obtain ⟨hanswer, hflushed⟩ := flush_alike hT hmirrors victim
    dsimp only at hanswer hflushed ⊢
    rcases hflush : flush T { p with fields } victim with ⟨r, p₁⟩
    rcases hflush' : q'.flush victim with ⟨r', q₁⟩
    rw [hflush, hflush'] at hanswer hflushed
    obtain rfl : r = r' := hanswer
    rcases r with e | ⟨⟩
    · exact ⟨rfl, hflushed⟩
    · obtain ⟨hsize, hremoved⟩ := hflushed.removeFrame victim
      have hend := hremoved.access
        (f := fun q => (q.subUsed (q₁.removeFrame victim).1).noteEvict E victim) rfl rfl
        hremoved.fits
      refine ⟨rfl, ?_⟩
      dsimp only at hsize hend ⊢
      rw [hsize]
      exact hend

theorem makeRoom_alike (hT : T.ActsAsMap Shows Fits) (size fuel : ℕ)
    (h : Mirrors Shows Fits p q) :
    Alike Shows Fits (makeRoom T E order size fuel p)
      (BufferPool.makeRoom E order size fuel q) := by
  induction fuel generalizing p q with
  | zero =>
    have hover : q.overBudget size = p.fields.overBudget size := by
      rw [h.fields]
      rfl
    unfold makeRoom BufferPool.makeRoom
    rw [hover]
    split
    · exact ⟨rfl, h⟩
    · exact ⟨rfl, h⟩
  | succ fuel ih =>
    have hover : q.overBudget size = p.fields.overBudget size := by
      rw [h.fields]
      rfl
    unfold makeRoom BufferPool.makeRoom
    rw [hover]
    split
    case isFalse => exact ⟨rfl, h⟩
    case isTrue =>
      obtain ⟨hanswer, hmirrors⟩ := evictOne_alike E order hT h
      rcases hevict : p.evictOne T E order with ⟨r, p'⟩
      rcases hevict' : q.evictOne E order with ⟨r', q'⟩
      rw [hevict, hevict'] at hanswer hmirrors
      obtain rfl : r = r' := hanswer
      rcases r with e | _ | victim
      · exact ⟨rfl, hmirrors⟩
      · refine ⟨?_, hmirrors⟩
        dsimp only at hmirrors ⊢
        rw [hmirrors.fields]
      · exact ih hmirrors

theorem insertPage_alike (hT : T.ActsAsMap Shows Fits) (h : Mirrors Shows Fits p q) {id : PageId}
    {data : Bytes} (hfits : Fits id data) :
    Alike Shows Fits (p.insertPage T E order id data) (q.insertPage E order id data) := by
  have hcount : q.framesCount = p.fields.framesCount := by
    rw [h.fields]
    rfl
  obtain ⟨hanswer, hmirrors⟩ := makeRoom_alike E order hT data.length
    (p.fields.framesCount + 1) h
  unfold insertPage BufferPool.insertPage
  rw [hcount]
  rcases hroom : makeRoom T E order data.length (p.fields.framesCount + 1) p with ⟨r, p'⟩
  rcases hroom' : BufferPool.makeRoom E order data.length (p.fields.framesCount + 1) q with ⟨r', q'⟩
  rw [hroom, hroom'] at hanswer hmirrors
  obtain rfl : r = r' := hanswer
  rcases r with e | ⟨⟩
  · exact ⟨rfl, hmirrors⟩
  · exact ⟨rfl, hmirrors.install E hfits⟩

theorem pinPage_alike (hT : T.ActsAsMap Shows Fits) (h : Mirrors Shows Fits p q) (mutable : Bool)
    (id : PageId) (elapsedNs : ℕ) :
    Alike Shows Fits (pinPage T E order mutable p id elapsedNs)
      (BufferPool.pinPage E order mutable q id elapsedNs) := by
  have hlookup := p.fields.lookupAndPin_withStore E q.store id mutable
  rw [← h.fields] at hlookup
  unfold pinPage BufferPool.pinPage
  rw [hlookup]
  cases hhit : p.fields.lookupAndPin E id mutable with
  | some r =>
    obtain ⟨g, fields⟩ := r
    obtain ⟨frame, hframe, -, rfl⟩ := BufferPool.lookupAndPin_some hhit
    have hpinned := (h.setInfo id (BufferPool.countPin p.fields.tick)).access
      (f := fun q => { q with
        tick := (p.fields.tick + 1) % 2 ^ 64
        eviction := E.onAccess id p.fields.eviction }) rfl rfl
      (h.setInfo id (BufferPool.countPin p.fields.tick)).fits
    refine ⟨rfl, ?_⟩
    convert hpinned using 1
    dsimp only [Option.map_some]
    conv_rhs => rw [h.fields, BufferPool.setInfo_withStore]
  | none =>
    obtain ⟨hanswer, hshows⟩ := hT.read p.store q.store.pages id h.shows
    have hread : (q.readPage id).1 = (T.readPage p.store id).1 ∧
        (q.readPage id).2.store.pages = q.store.pages := by
      rw [hanswer]
      unfold BufferPool.readPage ChunkStore.readPage
      simp only [h.works, Bool.false_eq_true, if_false]
      cases q.store.pages id <;> exact ⟨rfl, rfl⟩
    have hworks : ∀ n, (q.readPage id).2.store.fails n = false := by
      unfold BufferPool.readPage ChunkStore.readPage
      simp only [h.works, Bool.false_eq_true, if_false]
      intro n
      cases q.store.pages id <;> exact h.works n
    have hmirrors : Mirrors Shows Fits { p with store := (T.readPage p.store id).2 }
        (q.readPage id).2 := by
      refine ⟨?_, hread.2 ▸ hshows, hworks, h.fits⟩
      conv_lhs => rw [h.fields]
      rfl
    have hcount : (q.readPage id).2.framesCount = p.fields.framesCount := by
      rw [h.fields]
      rfl
    dsimp only [Option.map_none]
    rcases hload : T.readPage p.store id with ⟨r, store⟩
    rcases hload' : q.readPage id with ⟨r', q₁⟩
    rw [hload, hload'] at hread
    rw [hload, hload'] at hmirrors
    rw [hload'] at hcount
    obtain rfl : r' = r := hread.1
    rcases r' with e | data
    · exact ⟨rfl, hmirrors⟩
    · have hpage : q.store.pages id = some data := by
        rw [hload] at hanswer
        cases hpage : q.store.pages id with
        | none =>
          rw [hpage] at hanswer
          cases hanswer
        | some data' =>
          rw [hpage] at hanswer
          cases hanswer
          rfl
      have hfits := hT.fits p.store q.store.pages id data h.shows hpage
      obtain ⟨hroomed, hend⟩ := makeRoom_alike E order hT data.length
        (p.fields.framesCount + 1) hmirrors
      dsimp only at hroomed hend ⊢
      rw [hcount]
      rcases hroom : makeRoom T E order data.length (p.fields.framesCount + 1)
        ⟨p.fields, store⟩ with
        ⟨r, p'⟩
      rcases hroom' : BufferPool.makeRoom E order data.length (p.fields.framesCount + 1) q₁ with
        ⟨r', q'⟩
      rw [hroom, hroom'] at hroomed hend
      obtain rfl : r = r' := hroomed
      rcases r with e | ⟨⟩
      · exact ⟨rfl, hend⟩
      · refine ⟨?_, hend.install E hfits⟩
        dsimp only at hend ⊢
        rw [hend.fields]

end Mirrored

end StoredPool

end AirHuim
