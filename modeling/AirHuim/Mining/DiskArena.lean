import AirHuim.Mining.DiskWorld
import AirHuim.Mining.NodePages

/-!
# The node arena on a disk

The arena as the program has it: its pages are created in the store, pinned through
the pool for every access, edited in place through the guard, and evicted to their
files and loaded again as the budget demands. Whatever is done with it, it answers
as the arena of node pages does some of whose accesses fail; and none fails under a
prompt policy if the budget takes one page.
-/

namespace AirHuim

open Library

/-- `NodeArena`. `counter` is the store's, `calls` counts the pins. -/
structure DiskArena (π : Type) where
  pool : StoredPool π FileChunkStore
  counter : PageId
  calls : ℕ
  pages : List PageId
  nextNodePtr : ℕ

variable {π : Type} (D : DiskSetup π)

abbrev DiskM (π : Type) := StateT (DiskArena π) (Except Fault)

namespace DiskArena

def new (pool : StoredPool π FileChunkStore) (counter : PageId) : DiskArena π :=
  ⟨pool, counter, 0, [], 0⟩

/-- `next_page_id`, `write_page` of zeroed bytes, and `pages.push`. -/
def addPage : DiskM π Unit := fun d =>
  match D.store.writePage d.pool.store d.counter (List.replicate pageSize 0) with
  | (.error _, _) => .error .io
  | (.ok (), store) => .ok ((), { d with
      pool := { d.pool with store }
      counter := d.counter + 1
      pages := d.pages ++ [d.counter] })

def addPages : ℕ → DiskM π Unit
  | 0 => return ()
  | n + 1 => do
      addPage D
      addPages n

/-- The pin of the page that a pointer is in; a pointer without page is a panic. -/
def pinNode (mutable : Bool) (ptr : ℕ) : DiskM π Guard := fun d =>
  match d.pages[NodeArena.pageIndex ptr]? with
  | none => .error .panic
  | some id =>
    match d.pool.pinPage D.store D.policy D.order mutable id (D.elapsedNs d.calls) with
    | (.error _, _) => .error .io
    | (.ok g, pool) => .ok (g, { d with pool, calls := d.calls + 1 })

/-- `nodes[offset]` under the guard, and the guard's drop. -/
def readNode (g : Guard) (ptr : ℕ) : DiskM π TreeNode := fun d =>
  match d.pool.fields.view g with
  | some bytes => .ok (TreeNode.ofBytes (record nodeBytes (NodeArena.offset ptr) bytes),
      { d with pool := { d.pool with fields := d.pool.fields.dropGuard g } })
  | none => .error .panic

/-- `nodes[offset] = node` under the guard, and the guard's drop. -/
def writeNode (g : Guard) (ptr : ℕ) (node : TreeNode) : DiskM π Unit := fun d =>
  .ok ((), { d with
    pool := { d.pool with
      fields :=
        (d.pool.fields.write g (nodeBytes * NodeArena.offset ptr) node.toBytes).dropGuard g } })

def getNode (ptr : ℕ) : DiskM π TreeNode := do
  let g ← pinNode D false ptr
  readNode g ptr

def setNode (ptr : ℕ) (node : TreeNode) : DiskM π Unit := do
  let g ← pinNode D true ptr
  writeNode g ptr node

/-- The pointer after the last one does not fit a `u32`. -/
def allocateNode (item : ItemId) (weight : Utility) (parent : ℕ) : DiskM π ℕ := do
  let d ← get
  addPages D (NodeArena.pageIndex d.nextNodePtr + 1 - d.pages.length)
  setNode D d.nextNodePtr ⟨item, weight, parent, nullPtr, nullPtr, nullPtr⟩
  if nullPtr ≤ d.nextNodePtr then throw .overflow
  else do
    modify fun d => { d with nextNodePtr := d.nextNodePtr + 1 }
    return d.nextNodePtr

def release (savedPtr : ℕ) : DiskM π Unit := modify fun d => { d with nextNodePtr := savedPtr }

end DiskArena

/-- What the tree miners do with the arena. -/
inductive ArenaOp
  | allocateNode (item : ItemId) (weight : Utility) (parent : ℕ)
  | getNode (ptr : ℕ)
  | setNode (ptr : ℕ) (node : TreeNode)
  | release (savedPtr : ℕ)
  deriving DecidableEq, Repr

inductive ArenaAnswer
  | ptr (ptr : ℕ)
  | node (node : TreeNode)
  | done
  deriving DecidableEq, Repr

def NodeArena.perform : ArenaOp → ArenaM ArenaAnswer
  | .allocateNode item weight parent => .ptr <$> allocateNode item weight parent
  | .getNode ptr => .node <$> getNode ptr
  | .setNode ptr node => (fun _ => .done) <$> setNode ptr node
  | .release savedPtr => (fun _ => .done) <$> release savedPtr

def DiskArena.perform : ArenaOp → DiskM π ArenaAnswer
  | .allocateNode item weight parent => .ptr <$> allocateNode D item weight parent
  | .getNode ptr => .node <$> getNode D ptr
  | .setNode ptr node => (fun _ => .done) <$> setNode D ptr node
  | .release savedPtr => (fun _ => .done) <$> release savedPtr

/-- The arguments are in the ranges of their types. -/
def ArenaOp.Fits : ArenaOp → Prop
  | .allocateNode item weight parent => item < 2 ^ 32 ∧ FitsI64 weight ∧ parent < 2 ^ 32
  | .getNode _ => True
  | .setNode _ node => node.Fits
  | .release savedPtr => savedPtr < 2 ^ 32

instance : DecidablePred ArenaOp.Fits
  | .allocateNode .. => inferInstanceAs (Decidable (_ ∧ _))
  | .getNode _ => isTrue trivial
  | .setNode .. => inferInstanceAs (Decidable (TreeNode.Fits _))
  | .release _ => inferInstanceAs (Decidable (_ < _))

/-- A page is written to the store under an id that is new. -/
theorem DiskWorld.HoldsPages.written {D : DiskSetup π} (hD : D.Lawful) {budget limit : ℕ}
    {p : StoredPool π FileChunkStore} {counter : PageId} {contents : PageId → Option Bytes}
    {q : BufferPool π} (h : DiskWorld.HoldsPages D budget limit p counter contents q) {data : Bytes}
    (hfits : FileChunkStore.Fits counter data) (hsize : data.length ≤ limit) :
    (D.store.writePage p.store counter data).1 = .ok () ∧
      DiskWorld.HoldsPages D budget limit
        { p with store := (D.store.writePage p.store counter data).2 } (counter + 1)
        (Function.update contents counter (some data))
        { q with store := { q.store with
          pages := Function.update q.store.pages counter (some data) } } := by
  obtain ⟨hok, hshows⟩ := (FileChunkStore.actsAsMap hD.codec hD.sized D.crc).write p.store
    q.store.pages counter data h.mirrors.shows hfits
  have habsent : q.frames.lookup counter = none := by
    by_contra hresident
    exact lt_irrefl _ (h.resident counter hresident)
  refine ⟨hok, h.create ⟨?_, hshows, h.mirrors.works, h.mirrors.fits⟩ ⟨h.good.ledger,
    h.good.pins.congr rfl, fun k frame hframe hdirty hno => ?_⟩ rfl ?_ (fun _ _ hk => hk) hsize⟩
  · rw [h.mirrors.fields]
  · have hk : k ≠ counter := fun heq => by
      rw [heq, habsent] at hframe
      cases hframe
    exact (Function.update_of_ne hk _ _).trans (h.good.clean k frame hframe hdirty hno)
  · funext k
    by_cases hk : k = counter
    · subst hk
      simp only [BufferPool.content, habsent, Function.update_self]
    · simp only [BufferPool.content, Function.update_of_ne hk]

/-- A pin of a page that was created: it fails, which it does not under a prompt policy
and with room for the page; or it shows the page, which may be edited under the guard. -/
theorem DiskWorld.HoldsPages.pin_cases {D : DiskSetup π} (hD : D.Lawful) {budget limit : ℕ}
    {p : StoredPool π FileChunkStore} {counter : PageId} {contents : PageId → Option Bytes}
    {q : BufferPool π} (h : DiskWorld.HoldsPages D budget limit p counter contents q) {id : PageId}
    {bytes : Bytes} (hid : contents id = some bytes) (mutable : Bool) (elapsedNs : ℕ) :
    (∃ e p', p.pinPage D.store D.policy D.order mutable id elapsedNs = (.error e, p') ∧
        ¬(D.policy.Prompt ∧ limit ≤ budget)) ∨
      ∃ g p', p.pinPage D.store D.policy D.order mutable id elapsedNs = (.ok g, p') ∧
        p'.fields.view g = some bytes ∧ ∀ off bs, (bs ≠ [] → mutable = true) →
          ∃ q', DiskWorld.HoldsPages D budget limit
            { p' with fields := (p'.fields.write g off bs).dropGuard g } counter
            (Function.update contents id (some (writeFrom bytes off bs))) q' := by
  have hacts := FileChunkStore.actsAsMap hD.codec hD.sized D.crc
  obtain ⟨hanswer, hmirrors⟩ :=
    StoredPool.pinPage_alike D.policy D.order hacts h.mirrors mutable id elapsedNs
  rcases hpin : p.pinPage D.store D.policy D.order mutable id elapsedNs with ⟨e | g, p'⟩
  · refine Or.inl ⟨e, p', rfl, fun ⟨hprompt, hbudget⟩ => ?_⟩
    obtain ⟨g, hg⟩ := h.pins hD hprompt hbudget hid mutable elapsedNs
    rw [hpin, hg] at hanswer
    cases hanswer
  · rcases hpin' : q.pinPage D.policy D.order mutable id elapsedNs with ⟨r, q'⟩
    rw [hpin, hpin'] at hanswer hmirrors
    obtain rfl : Except.ok g = r := hanswer
    exact Or.inr ⟨g, p', rfl, h.view hD hid hpin' hmirrors, fun off bs hmut =>
      ⟨_, h.edited hD hid hpin' hmirrors off hmut⟩⟩

namespace DiskArena

/-- The pages that pointers of 32 bits can need. -/
def maxPages : ℕ := nullPtr / nodesPerPage + 1

variable {D} {budget : ℕ} {d : DiskArena π} {a : NodeArena}

/-- The bytes of the arena's pages, in frames or files, are those of the node pages. -/
structure Shows (D : DiskSetup π) (budget : ℕ) (d : DiskArena π) (a : NodeArena) : Prop where
  pool : ∃ contents q, DiskWorld.HoldsPages D budget pageSize d.pool d.counter contents q ∧
    ∀ (i : ℕ) (id : PageId) (page : NodePage), d.pages[i]? = some id → a.pages[i]? = some page →
      ∃ bytes, contents id = some bytes ∧ page.InBytes bytes
  length : d.pages.length = a.pages.length
  distinct : d.pages.Nodup
  next : d.nextNodePtr = a.nextNodePtr
  small : d.nextNodePtr ≤ nullPtr
  few : d.pages.length ≤ maxPages
  ids : d.counter + maxPages ≤ 2 ^ 64 + d.pages.length

/-! ## Programs over the two arenas -/

section Agrees

variable {α β : Type}

/-- From `d` on, the program over the disk takes the course of the other one, over
node pages whose accesses fail where `cs` says. -/
def Agrees (D : DiskSetup π) (budget : ℕ) (m : DiskM π α) (m' : ArenaM α)
    (d : DiskArena π) : Prop :=
  ∃ cs : List Bool, (D.policy.Prompt ∧ pageSize ≤ budget → ∀ c ∈ cs, c = false) ∧
    ∀ a, Shows D budget d a → Prog.Follows a.pool.fails a.pool.clock cs →
      match m d with
      | .error e => m' a = .error e
      | .ok (r, d') => ∃ a', m' a = .ok (r, a') ∧ Shows D budget d' a' ∧
          a'.pool.fails = a.pool.fails ∧ a'.pool.clock = a.pool.clock + cs.length

variable {m : DiskM π α} {m' : ArenaM α}

theorem Agrees.pure (r : α) : Agrees D budget (Pure.pure r) (Pure.pure r) d :=
  ⟨[], fun _ _ hc => (List.not_mem_nil hc).elim, fun a h _ => ⟨a, rfl, h, rfl, rfl⟩⟩

theorem Agrees.throw (e : Fault) : Agrees D budget (MonadExcept.throw e : DiskM π α)
    (MonadExcept.throw e) d :=
  ⟨[], fun _ _ hc => (List.not_mem_nil hc).elim, fun _ _ _ => rfl⟩

theorem Agrees.congr {m'' : ArenaM α} (heq : ∀ a, Shows D budget d a → m'' a = m' a)
    (h : Agrees D budget m m' d) : Agrees D budget m m'' d := by
  obtain ⟨cs, hprompt, hrun⟩ := h
  refine ⟨cs, hprompt, fun a ha hf => ?_⟩
  rw [heq a ha]
  exact hrun a ha hf

theorem Agrees.congr_left {m'' : DiskM π α} (heq : m'' d = m d) (h : Agrees D budget m m' d) :
    Agrees D budget m'' m' d := by
  unfold Agrees
  rw [heq]
  exact h

/-- The choices may be taken from any arena that is shown. -/
theorem Agrees.of_shows (h : ∀ a, Shows D budget d a → Agrees D budget m m' d) :
    Agrees D budget m m' d := by
  by_cases hshown : ∃ a, Shows D budget d a
  · obtain ⟨a, ha⟩ := hshown
    exact h a ha
  · exact ⟨[], fun _ _ hc => (List.not_mem_nil hc).elim, fun a ha => (hshown ⟨a, ha⟩).elim⟩

theorem Agrees.bind {f : α → DiskM π β} {f' : α → ArenaM β} (h : Agrees D budget m m' d)
    (hf : ∀ r d', m d = .ok (r, d') → Agrees D budget (f r) (f' r) d') :
    Agrees D budget (m >>= f) (m' >>= f') d := by
  obtain ⟨cs, hprompt, hrun⟩ := h
  rcases hm : m d with e | ⟨r, d'⟩
  · have hfirst : (m >>= f) d = .error e := by
      simp only [Bind.bind, StateT.bind, hm, Except.bind]
    refine ⟨cs, hprompt, fun a ha hcs => ?_⟩
    have herror := hrun a ha hcs
    rw [hm] at herror
    rw [hfirst]
    simp only [Bind.bind, StateT.bind, herror, Except.bind]
  · obtain ⟨ds, hprompt', hrest⟩ := hf r d' hm
    have hfirst : (m >>= f) d = f r d' := by
      simp only [Bind.bind, StateT.bind, hm, Except.bind]
    refine ⟨cs ++ ds, fun hp c hc => ?_, fun a ha hcds => ?_⟩
    · exact (List.mem_append.mp hc).elim (hprompt hp c) (hprompt' hp c)
    · obtain ⟨hcs, hds⟩ := Prog.follows_append hcds
      have hok := hrun a ha hcs
      rw [hm] at hok
      obtain ⟨a', hm', ha', hfails, hclock⟩ := hok
      have hfirst' : (m' >>= f') a = f' r a' := by
        simp only [Bind.bind, StateT.bind, hm', Except.bind]
      have hnext := hrest a' ha' (by rwa [hfails, hclock])
      rw [hfails, hclock] at hnext
      rw [hfirst, hfirst', List.length_append, ← Nat.add_assoc]
      exact hnext

theorem Agrees.map (f : α → β) (h : Agrees D budget m m' d) :
    Agrees D budget (f <$> m) (f <$> m') d := by
  rw [map_eq_pure_bind, map_eq_pure_bind]
  exact h.bind fun r _ _ => .pure (f r)

end Agrees

/-! ## The operations -/

theorem Shows.pages_getElem? (h : Shows D budget d a) {i : ℕ} {id : PageId}
    (hi : d.pages[i]? = some id) : ∃ page, a.pages[i]? = some page := by
  have hlt := (List.getElem?_eq_some_iff.mp hi).1
  rw [h.length] at hlt
  exact ⟨_, List.getElem?_eq_getElem hlt⟩

theorem Shows.lt_counter (h : Shows D budget d a) {id : PageId} (hid : id ∈ d.pages) :
    id < d.counter := by
  obtain ⟨i, hi⟩ := List.getElem?_of_mem hid
  obtain ⟨page, hpage⟩ := h.pages_getElem? hi
  obtain ⟨contents, q, hq, hnodes⟩ := h.pool
  obtain ⟨bytes, hbytes, -⟩ := hnodes i id page hi hpage
  exact hq.known id bytes hbytes

/-- An access that the map lets succeed. -/
theorem access_of_works (h : a.pool.fails a.pool.clock = false) :
    NodeArena.access a =
      .ok ((), { a with pool := { a.pool with clock := a.pool.clock + 1 } }) := by
  simp [NodeArena.access, h]

theorem addPage_agrees (hD : D.Lawful) (budget : ℕ) (hroom : d.pages.length < maxPages) :
    Agrees D budget (addPage D)
      (do
        NodeArena.access
        modify fun a => { a with
          pool := { a.pool with nextPageId := a.pool.nextPageId + 1 }
          pages := a.pages ++ [NodePage.zeroed] }) d := by
  refine ⟨[false], fun _ c hc => List.mem_singleton.mp hc, fun a h hf => ?_⟩
  have hknown : ∀ id ∈ d.pages, id < d.counter := fun _ => h.lt_counter
  obtain ⟨⟨contents, q, hq, hnodes⟩, hlength, hdistinct, hnext, hsmall, hfew, hids⟩ := h
  have hfits : FileChunkStore.Fits d.counter (List.replicate pageSize 0) := by
    have hlt : d.counter + maxPages < 2 ^ 64 + maxPages :=
      hids.trans_lt (Nat.add_lt_add_left hroom _)
    refine ⟨Nat.lt_of_add_lt_add_right hlt, ?_⟩
    rw [List.length_replicate]
    decide
  obtain ⟨hok, hwritten⟩ := hq.written hD hfits (by rw [List.length_replicate])
  have hdisk : addPage D d = .ok ((), { d with
      pool := { d.pool with store := (D.store.writePage d.pool.store d.counter
        (List.replicate pageSize 0)).2 }
      counter := d.counter + 1
      pages := d.pages ++ [d.counter] }) := by
    unfold addPage
    rcases hwrite : D.store.writePage d.pool.store d.counter (List.replicate pageSize 0) with
      ⟨e | ⟨⟩, store⟩
    · rw [hwrite] at hok
      cases hok
    · rfl
  have haccess := access_of_works (hf 0 false rfl)
  rw [hdisk]
  refine ⟨{ a with
      pool := { a.pool with
        clock := a.pool.clock + 1
        nextPageId := a.pool.nextPageId + 1 }
      pages := a.pages ++ [NodePage.zeroed] }, ?_, ⟨⟨_, _, hwritten, fun i id page hi hpage => ?_⟩,
    ?_, ?_, hnext, hsmall, ?_, ?_⟩, rfl, rfl⟩
  · simp only [Bind.bind, StateT.bind, haccess, Except.bind]
    rfl
  · by_cases hlast : i = d.pages.length
    · subst hlast
      rw [List.getElem?_concat_length] at hi
      rw [hlength, List.getElem?_concat_length] at hpage
      cases hi
      cases hpage
      exact ⟨_, Function.update_self .., NodePage.zeroed_inBytes⟩
    · have hold : i < d.pages.length := by
        have hlt := (List.getElem?_eq_some_iff.mp hi).1
        rw [List.length_append, List.length_singleton] at hlt
        omega
      rw [List.getElem?_append_left hold] at hi
      rw [List.getElem?_append_left (hlength ▸ hold)] at hpage
      obtain ⟨bytes, hbytes, hin⟩ := hnodes i id page hi hpage
      have hid : id ≠ d.counter := (hq.known id bytes hbytes).ne
      exact ⟨bytes, by rw [Function.update_of_ne hid, hbytes], hin⟩
  · simp [hlength]
  · exact hdistinct.append (List.nodup_singleton _)
      fun id hid heq => (List.mem_singleton.mp heq ▸ hknown id hid).ne rfl
  · rw [List.length_append, List.length_singleton]
    exact hroom
  · rw [List.length_append, List.length_singleton, Nat.add_right_comm, ← Nat.add_assoc]
    exact Nat.succ_le_succ hids

theorem length_addPage {r : Unit} {d' : DiskArena π} (h : addPage D d = .ok (r, d')) :
    d'.pages.length = d.pages.length + 1 := by
  unfold addPage at h
  split at h
  · cases h
  · cases h
    simp

theorem addPages_agrees (hD : D.Lawful) {n : ℕ} (hroom : d.pages.length + n ≤ maxPages) :
    Agrees D budget (addPages D n) (NodeArena.addPages n) d := by
  induction n generalizing d with
  | zero => exact Agrees.pure ()
  | succ n ih =>
    have hadd := addPage_agrees hD budget (d := d) (by omega)
    have hassoc : NodeArena.addPages (n + 1) = (do
        NodeArena.access
        modify fun a => { a with
          pool := { a.pool with nextPageId := a.pool.nextPageId + 1 }
          pages := a.pages ++ [NodePage.zeroed] }) >>= fun _ => NodeArena.addPages n := by
      rw [NodeArena.addPages, bind_assoc]
    rw [hassoc]
    refine hadd.bind fun r d' hd' => ih ?_
    rw [length_addPage hd']
    omega

/-- The pin of a node's page, the bytes written under the guard, and its drop: `next` is
the page with these bytes, and `r` what is read of it. -/
theorem pinNode_agrees (hD : D.Lawful) {mutable : Bool} {ptr : ℕ} {α : Type}
    {m : Guard → DiskM π α} {m' : ArenaM α} (off : ℕ) (bs : Bytes) (next : NodePage → NodePage)
    (r : NodePage → α) (hmut : bs ≠ [] → mutable = true)
    (hm : ∀ (page : NodePage) bytes g d, page.InBytes bytes → d.pool.fields.view g = some bytes →
      m g d = .ok (r page, { d with
        pool := { d.pool with fields := (d.pool.fields.write g off bs).dropGuard g } }))
    (hnext : ∀ (page : NodePage) bytes, page.InBytes bytes →
      (next page).InBytes (writeFrom bytes off bs))
    (hnone : ∀ a, a.pages[NodeArena.pageIndex ptr]? = none → m' a = .error .panic)
    (hsome : ∀ a page, a.pages[NodeArena.pageIndex ptr]? = some page →
      m' a = if a.pool.fails a.pool.clock then .error .io
        else .ok (r page, { a with
          pool := { a.pool with clock := a.pool.clock + 1 }
          pages := a.pages.set (NodeArena.pageIndex ptr) (next page) })) :
    Agrees D budget (pinNode D mutable ptr >>= m) m' d := by
  refine Agrees.of_shows fun a₀ ha₀ => ?_
  rcases hid : d.pages[NodeArena.pageIndex ptr]? with _ | id
  · refine ⟨[], fun _ _ hc => (List.not_mem_nil hc).elim, fun a ha _ => ?_⟩
    have hpin : (pinNode D mutable ptr >>= m) d = .error .panic := by
      simp only [Bind.bind, StateT.bind, pinNode, hid, Except.bind]
    rw [hpin]
    apply hnone
    rw [List.getElem?_eq_none_iff, ← ha.length]
    exact List.getElem?_eq_none_iff.mp hid
  obtain ⟨contents₀, q₀, hq₀, hnodes₀⟩ := ha₀.pool
  obtain ⟨page₀, hpage₀⟩ := ha₀.pages_getElem? hid
  obtain ⟨bytes₀, hbytes₀, -⟩ := hnodes₀ _ id page₀ hid hpage₀
  obtain ⟨e, p, hpin, hno⟩ | ⟨g, p, hpin, -⟩ :=
    hq₀.pin_cases hD hbytes₀ mutable (D.elapsedNs d.calls)
  · refine ⟨[true], fun hprompt => (hno hprompt).elim, fun a ha hf => ?_⟩
    have hrun : (pinNode D mutable ptr >>= m) d = .error .io := by
      simp only [Bind.bind, StateT.bind, pinNode, hid, hpin, Except.bind]
    obtain ⟨page, hpage⟩ := ha.pages_getElem? hid
    rw [hrun]
    exact (hsome a page hpage).trans (if_pos (hf 0 true rfl))
  · refine ⟨[false], fun _ c hc => List.mem_singleton.mp hc, fun a ha hf => ?_⟩
    obtain ⟨page, hpage⟩ := ha.pages_getElem? hid
    obtain ⟨⟨contents, q, hq, hnodes⟩, hlength, hdistinct, hptr, hsmall, hfew, hids⟩ := ha
    obtain ⟨bytes, hbytes, hin⟩ := hnodes _ id page hid hpage
    obtain ⟨e, p', hpin', -⟩ | ⟨g', p', hpin', hview, hedit⟩ :=
      hq.pin_cases hD hbytes mutable (D.elapsedNs d.calls)
    · rw [hpin] at hpin'
      cases hpin'
    · rw [hpin] at hpin'
      cases hpin'
      obtain ⟨q', hq'⟩ := hedit off bs hmut
      have hfirst : pinNode D mutable ptr d = .ok
        (g, { d with pool := p, calls := d.calls + 1 }) := by
        simp only [pinNode, hid, hpin]
      have hrun : (pinNode D mutable ptr >>= m) d = .ok (r page, { d with
          pool := { p with fields := (p.fields.write g off bs).dropGuard g }
          calls := d.calls + 1 }) := by
        have hrest := hm page bytes g { d with pool := p, calls := d.calls + 1 } hin hview
        simp only [Bind.bind, StateT.bind, hfirst, Except.bind]
        exact hrest
      have hworks : ¬a.pool.fails a.pool.clock = true := by
        have hfalse : a.pool.fails a.pool.clock = false := hf 0 false rfl
        simp [hfalse]
      rw [hrun]
      refine ⟨_, (hsome a page hpage).trans (if_neg hworks), ⟨⟨_, q', hq', ?_⟩, ?_, hdistinct, hptr,
        hsmall, hfew, hids⟩, rfl, rfl⟩
      · intro i k page' hi hpage'
        by_cases hindex : i = NodeArena.pageIndex ptr
        · subst hindex
          rw [hid] at hi
          cases hi
          rw [List.getElem?_set_self (List.getElem?_eq_some_iff.mp hpage).1] at hpage'
          cases hpage'
          exact ⟨_, Function.update_self .., hnext page bytes hin⟩
        · rw [List.getElem?_set_ne (Ne.symm hindex)] at hpage'
          obtain ⟨bytes', hbytes', hin'⟩ := hnodes i k page' hi hpage'
          -- another index is another page
          have hk : k ≠ id := by
            rintro rfl
            obtain ⟨hlt, hget⟩ := List.getElem?_eq_some_iff.mp hi
            obtain ⟨hlt', hget'⟩ := List.getElem?_eq_some_iff.mp hid
            exact hindex ((hdistinct.getElem_inj_iff).mp (hget.trans hget'.symm))
          exact ⟨bytes', by rw [Function.update_of_ne hk, hbytes'], hin'⟩
      · rw [List.length_set]
        exact hlength

theorem getNode_agrees (hD : D.Lawful) (ptr : ℕ) :
    Agrees D budget (getNode D ptr) (NodeArena.getNode ptr) d := by
  refine pinNode_agrees hD 0 [] id (fun page => page (NodeArena.offset ptr))
    (fun hne => (hne rfl).elim) ?_ ?_ ?_ ?_
  · intro page bytes g d hin hview
    simp only [readNode, hview, hin.nodes]
    rfl
  · exact fun page bytes hin => hin
  · intro a hnone
    simp only [NodeArena.getNode, Bind.bind, StateT.bind, get, getThe, MonadStateOf.get, StateT.get,
      pure, Except.pure, Except.bind, hnone]
    rfl
  · intro a page hpage
    have hself : a.pages.set (NodeArena.pageIndex ptr) page = a.pages := by
      obtain ⟨hlt, rfl⟩ := List.getElem?_eq_some_iff.mp hpage
      exact List.set_getElem_self hlt
    by_cases hfails : a.pool.fails a.pool.clock = true
    · simp only [NodeArena.getNode, Bind.bind, StateT.bind, get, getThe, MonadStateOf.get,
        StateT.get, pure, Except.pure, Except.bind, hpage, NodeArena.access, if_pos hfails]
    · simp only [NodeArena.getNode, Bind.bind, StateT.bind, get, getThe, MonadStateOf.get,
        StateT.get, pure, Except.pure, Except.bind, hpage, NodeArena.access,
          if_neg hfails, id, hself]
      rfl

theorem setNode_agrees (hD : D.Lawful) (ptr : ℕ) {node : TreeNode} (hnode : node.Fits) :
    Agrees D budget (setNode D ptr node) (NodeArena.setNode ptr node) d := by
  refine pinNode_agrees hD (nodeBytes * NodeArena.offset ptr) node.toBytes
    (fun page => Function.update page (NodeArena.offset ptr) node) (fun _ => ()) (fun _ => rfl)
    ?_ ?_ ?_ ?_
  · exact fun page bytes g d _ _ => rfl
  · exact fun page bytes hin => hin.update (NodeArena.offset ptr) hnode
  · intro a hnone
    simp only [NodeArena.setNode, Bind.bind, StateT.bind, get, getThe, MonadStateOf.get, StateT.get,
      pure, Except.pure, Except.bind, hnone]
    rfl
  · intro a page hpage
    by_cases hfails : a.pool.fails a.pool.clock = true
    · simp only [NodeArena.setNode, Bind.bind, StateT.bind, get, getThe, MonadStateOf.get,
        StateT.get, pure, Except.pure, Except.bind, hpage, NodeArena.access, if_pos hfails]
    · simp only [NodeArena.setNode, Bind.bind, StateT.bind, get, getThe, MonadStateOf.get,
        StateT.get, pure, Except.pure, Except.bind, hpage, NodeArena.access, if_neg hfails]
      rfl

/-- The pointer of the next node is moved. -/
theorem modifyPtr_agrees (f : ℕ → ℕ) (hf : f d.nextNodePtr ≤ nullPtr) :
    Agrees D budget (modify fun d : DiskArena π => { d with nextNodePtr := f d.nextNodePtr })
      (modify fun a => { a with nextNodePtr := f a.nextNodePtr }) d :=
  ⟨[], fun _ _ hc => (List.not_mem_nil hc).elim, fun a h _ =>
    ⟨{ a with nextNodePtr := f a.nextNodePtr }, rfl,
      ⟨h.pool, h.length, h.distinct, congrArg f h.next, hf, h.few, h.ids⟩, rfl, rfl⟩⟩

theorem nextNodePtr_addPages {n : ℕ} {r : Unit} {d' : DiskArena π}
    (h : addPages D n d = .ok (r, d')) : d'.nextNodePtr = d.nextNodePtr := by
  induction n generalizing d with
  | zero =>
    cases h
    rfl
  | succ n ih =>
    simp only [addPages, Bind.bind, StateT.bind] at h
    rcases hadd : addPage D d with e | ⟨u, d₁⟩
    · rw [hadd] at h
      cases h
    · rw [hadd] at h
      refine (ih h).trans ?_
      unfold addPage at hadd
      split at hadd
      · cases hadd
      · cases hadd
        rfl

theorem nextNodePtr_setNode {ptr : ℕ} {node : TreeNode} {r : Unit} {d' : DiskArena π}
    (h : setNode D ptr node d = .ok (r, d')) : d'.nextNodePtr = d.nextNodePtr := by
  simp only [setNode, Bind.bind, StateT.bind] at h
  rcases hpin : pinNode D true ptr d with e | ⟨g, d₁⟩
  · rw [hpin] at h
    cases h
  · rw [hpin] at h
    cases h
    unfold pinNode at hpin
    split at hpin
    · cases hpin
    · split at hpin
      · cases hpin
      · cases hpin
        rfl

theorem pageIndex_lt_maxPages {ptr : ℕ} (h : ptr ≤ nullPtr) : NodeArena.pageIndex ptr < maxPages :=
  Nat.lt_succ_of_le (Nat.div_le_div_right h)

theorem allocateNode_agrees (hD : D.Lawful) {item : ItemId} {weight : Utility} {parent : ℕ}
    (hitem : item < 2 ^ 32) (hweight : FitsI64 weight) (hparent : parent < 2 ^ 32) :
    Agrees D budget (allocateNode D item weight parent) (NodeArena.allocateNode item weight parent)
      d := by
  refine Agrees.of_shows fun a₀ ha₀ => ?_
  have hindex := pageIndex_lt_maxPages ha₀.small
  have hfew := ha₀.few
  have hnull : nullPtr < 2 ^ 32 := by decide
  have hnode : TreeNode.Fits ⟨item, weight, parent, nullPtr, nullPtr, nullPtr⟩ :=
    ⟨hitem, hweight, hparent, hnull, hnull, hnull⟩
  -- both arenas ask for the same pages and the same node
  have hsame : ∀ a, Shows D budget d a → NodeArena.allocateNode item weight parent a =
      (do
        NodeArena.addPages (NodeArena.pageIndex d.nextNodePtr + 1 - d.pages.length)
        NodeArena.setNode d.nextNodePtr ⟨item, weight, parent, nullPtr, nullPtr, nullPtr⟩
        if nullPtr ≤ d.nextNodePtr then throw .overflow
        else do
          modify fun a => { a with nextNodePtr := a.nextNodePtr + 1 }
          return d.nextNodePtr : ArenaM ℕ) a := by
    intro a ha
    rw [ha.next, ha.length]
    rfl
  refine Agrees.congr hsame ?_
  have hdisk : allocateNode D item weight parent d =
      (do
        addPages D (NodeArena.pageIndex d.nextNodePtr + 1 - d.pages.length)
        setNode D d.nextNodePtr ⟨item, weight, parent, nullPtr, nullPtr, nullPtr⟩
        if nullPtr ≤ d.nextNodePtr then throw .overflow
        else do
          modify fun d => { d with nextNodePtr := d.nextNodePtr + 1 }
          return d.nextNodePtr : DiskM π ℕ) d := rfl
  refine Agrees.congr_left hdisk ?_
  refine (addPages_agrees hD (by omega)).bind fun _ d₁ hd₁ => ?_
  refine (setNode_agrees hD d.nextNodePtr hnode).bind fun _ d₂ hd₂ => ?_
  have hptr : d₂.nextNodePtr = d.nextNodePtr :=
    (nextNodePtr_setNode hd₂).trans (nextNodePtr_addPages hd₁)
  split_ifs with hfull
  · exact Agrees.throw _
  · refine (modifyPtr_agrees (· + 1) ?_).bind fun _ _ _ => Agrees.pure _
    rw [hptr]
    omega

theorem perform_agrees (hD : D.Lawful) {op : ArenaOp} (hop : op.Fits) :
    Agrees D budget (perform D op) (NodeArena.perform op) d := by
  cases op with
  | allocateNode item weight parent =>
    exact (allocateNode_agrees hD hop.1 hop.2.1 hop.2.2).map ArenaAnswer.ptr
  | getNode ptr => exact (getNode_agrees hD ptr).map ArenaAnswer.node
  | setNode ptr node => exact (setNode_agrees hD ptr hop).map fun _ => ArenaAnswer.done
  | release savedPtr =>
    exact Agrees.map (fun _ => ArenaAnswer.done)
      (modifyPtr_agrees (fun _ => savedPtr) (Nat.le_of_lt_succ hop))

/-! ## Runs -/

theorem performAll_agrees (hD : D.Lawful) (budget : ℕ) {ops : List ArenaOp}
    (hops : ∀ op ∈ ops, op.Fits) :
    Agrees D budget (ops.mapM (perform D)) (ops.mapM NodeArena.perform) d := by
  induction ops generalizing d with
  | nil => exact Agrees.pure []
  | cons op ops ih =>
    rw [List.mapM_cons, List.mapM_cons]
    refine (perform_agrees hD (hops op List.mem_cons_self)).bind fun r d' _ => ?_
    exact (ih fun op' hop' => hops op' (List.mem_cons_of_mem op hop')).bind fun _ _ _ => .pure _

theorem shows_new (D : DiskSetup π) (budgetBytes : ℕ) (files : FileChunkStore) (eviction : π)
    {counter : PageId} (hcounter : counter + maxPages ≤ 2 ^ 64) (fails : ℕ → Bool) :
    Shows D budgetBytes (new (.new budgetBytes files eviction) counter)
      (NodeArena.new ⟨fun _ => none, counter, 0, fails⟩) where
  pool := ⟨fun _ => none,
    .new budgetBytes ⟨files.shownPages D.codec D.crc, 0, fun _ => false, fun _ => none⟩ eviction,
    ⟨⟨rfl, rfl, fun _ => rfl, nofun⟩, .new _ _ _, rfl, nofun, nofun, nofun,
      fun _ hid => (hid rfl).elim⟩, nofun⟩
  length := rfl
  distinct := List.nodup_nil
  next := rfl
  small := Nat.zero_le _
  few := Nat.zero_le _
  ids := hcounter.trans (Nat.le_add_right _ _)

theorem exists_fails (hD : D.Lawful) (budgetBytes : ℕ) (files : FileChunkStore) (eviction : π)
    {counter : PageId} (hcounter : counter + maxPages ≤ 2 ^ 64) {ops : List ArenaOp}
    (hops : ∀ op ∈ ops, op.Fits) :
    ∃ fails : ℕ → Bool, (D.policy.Prompt ∧ pageSize ≤ budgetBytes → ∀ n, fails n = false) ∧
      (ops.mapM (perform D) (new (.new budgetBytes files eviction) counter)).map Prod.fst =
        (ops.mapM NodeArena.perform
          (NodeArena.new ⟨fun _ => none, counter, 0, fails⟩)).map Prod.fst := by
  obtain ⟨cs, hprompt, hrun⟩ := performAll_agrees hD budgetBytes
    (d := new (.new budgetBytes files eviction) counter) hops
  refine ⟨fun n => cs.getD n false, fun hp n => ?_, ?_⟩
  · show cs.getD n false = false
    rw [List.getD_eq_getElem?_getD]
    cases hc : cs[n]? with
    | none => rfl
    | some c => exact hprompt hp c (List.mem_of_getElem? hc)
  · have hagrees := hrun _ (shows_new D budgetBytes files eviction hcounter fun n =>
    cs.getD n false)
      (Prog.follows_getD cs false)
    rcases hdisk : ops.mapM (perform D) (new (.new budgetBytes files eviction) counter) with
      e | ⟨answers, d'⟩
    · rw [hdisk] at hagrees
      have hmap : ops.mapM NodeArena.perform _ = .error e := hagrees
      rw [hmap]
      rfl
    · rw [hdisk] at hagrees
      obtain ⟨a', hmap, -⟩ := hagrees
      rw [hmap]
      rfl

/-- Whatever is done with the arena on a disk, over whatever files, it answers as the
arena of node pages does some of whose accesses fail. None fails under a prompt policy
if the budget takes one page. -/
theorem answers_as_nodeArena (hD : D.Lawful) (budgetBytes : ℕ) (files : FileChunkStore)
    (eviction : π) {counter : PageId} (hcounter : counter + maxPages ≤ 2 ^ 64)
    {ops : List ArenaOp} (hops : ∀ op ∈ ops, op.Fits) :
    ∃ fails : ℕ → Bool, (D.policy.Prompt ∧ pageSize ≤ budgetBytes → ∀ n, fails n = false) ∧
      (ops.mapM (perform D) (new (.new budgetBytes files eviction) counter)).map Prod.fst =
        (ops.mapM NodeArena.perform
          (NodeArena.new ⟨fun _ => none, counter, 0, fails⟩)).map Prod.fst :=
  exists_fails hD budgetBytes files eviction hcounter hops

/-- Two pages, with room for one of them. -/
theorem answers_as_nodeArena_two :
    ∃ fails : ℕ → Bool, (tinyDisk.policy.Prompt ∧ pageSize ≤ 65536 → ∀ n, fails n = false) ∧
      (([.allocateNode 7 5 nullPtr, .release 2340, .allocateNode 8 6 0, .getNode 0].mapM
          (perform tinyDisk)) (new (.new 65536 (.new true) .new) 1)).map Prod.fst =
        (([.allocateNode 7 5 nullPtr, .release 2340, .allocateNode 8 6 0, .getNode 0].mapM
          NodeArena.perform) (NodeArena.new ⟨fun _ => none, 1, 0, fails⟩)).map Prod.fst :=
  answers_as_nodeArena tinyDisk_lawful 65536 (.new true) .new (by decide) (by decide)

end DiskArena

/-! ## The arena as a growable list -/

/-- What the operations do to the list of the nodes; a pointer past its end is a panic. -/
def performOnList : ArenaOp → StateT (List TreeNode) (Except Fault) ArenaAnswer
  | .allocateNode item weight parent => fun ns =>
    if nullPtr ≤ ns.length then .error .overflow
    else .ok (.ptr ns.length, ns ++ [⟨item, weight, parent, nullPtr, nullPtr, nullPtr⟩])
  | .getNode ptr => fun ns =>
    match ns[ptr]? with
    | some node => .ok (.node node, ns)
    | none => .error .panic
  | .setNode ptr node => fun ns =>
    if ptr < ns.length then .ok (.done, ns.set ptr node) else .error .panic
  | .release savedPtr => fun ns =>
    if savedPtr ≤ ns.length then .ok (.done, ns.take savedPtr) else .error .panic

namespace NodeArena

variable {a : NodeArena} {ns ns' : List TreeNode}

theorem perform_of_list (h : a.Holds ns) {op : ArenaOp} {r : ArenaAnswer}
    (hlist : performOnList op ns = .ok (r, ns')) :
    Runs (fun _ => False) (perform op) a fun r' a' => r' = r ∧ a'.Holds ns' := by
  cases op with
  | allocateNode item weight parent =>
    simp only [performOnList] at hlist
    split_ifs at hlist with hfull
    cases hlist
    apply Runs.map
    refine (allocateNode_runs h hfull item weight parent).mono ?_
    rintro ptr a' ⟨rfl, -, ha'⟩
    exact ⟨rfl, ha'⟩
  | getNode ptr =>
    simp only [performOnList] at hlist
    split at hlist
    · rename_i node hnode
      cases hlist
      apply Runs.map
      refine (getNode_spec h hnode).mono ?_
      rintro n a' ⟨rfl, ha'⟩
      exact ⟨rfl, ha'⟩
    · cases hlist
  | setNode ptr node =>
    simp only [performOnList] at hlist
    split_ifs at hlist with hptr
    cases hlist
    exact Runs.map ((setNode_spec h node hptr).mono fun _ _ ha' => ⟨rfl, ha'⟩)
  | release savedPtr =>
    simp only [performOnList] at hlist
    split_ifs at hlist with hptr
    cases hlist
    exact Runs.map ((release_spec h hptr).mono fun _ _ ha' => ⟨rfl, ha'⟩)

theorem performAll_of_list (h : a.Holds ns) {ops : List ArenaOp} {rs : List ArenaAnswer}
    (hlist : ops.mapM performOnList ns = .ok (rs, ns')) :
    Runs (fun _ => False) (ops.mapM perform) a fun rs' a' => rs' = rs ∧ a'.Holds ns' := by
  induction ops generalizing a ns rs with
  | nil =>
    cases hlist
    exact Runs.pure ⟨rfl, h⟩
  | cons op ops ih =>
    rw [List.mapM_cons] at hlist ⊢
    simp only [Bind.bind, StateT.bind] at hlist
    rcases hop : performOnList op ns with e | ⟨r, ns₁⟩
    · rw [hop] at hlist
      cases hlist
    · rw [hop] at hlist
      simp only [Except.bind] at hlist
      rcases hops : ops.mapM performOnList ns₁ with e | ⟨rs₁, ns₂⟩
      · rw [hops] at hlist
        cases hlist
      · rw [hops] at hlist
        cases hlist
        refine (perform_of_list h hop).bind ?_
        rintro r' a₁ ⟨rfl, ha₁⟩
        refine (ih ha₁ hops).bind ?_
        rintro rs' a₂ ⟨rfl, ha₂⟩
        exact Runs.pure ⟨rfl, ha₂⟩

end NodeArena

namespace DiskArena

variable {D}

/-- Under a prompt policy and with a budget for one page, the arena on a disk is a
growable list of nodes: it gives every answer that the list gives. -/
theorem grows_as_list (hD : D.Lawful) (hprompt : D.policy.Prompt) {budgetBytes : ℕ}
    (hbudget : pageSize ≤ budgetBytes) (files : FileChunkStore) (eviction : π) {counter : PageId}
    (hcounter : counter + maxPages ≤ 2 ^ 64) {ops : List ArenaOp} (hops : ∀ op ∈ ops, op.Fits)
    {answers : List ArenaAnswer} {nodes : List TreeNode}
    (hlist : ops.mapM performOnList [] = .ok (answers, nodes)) :
    (ops.mapM (perform D) (new (.new budgetBytes files eviction) counter)).map Prod.fst =
      .ok answers := by
  obtain ⟨fails, hworks, hsame⟩ := exists_fails hD budgetBytes files eviction hcounter hops
  have hholds : (NodeArena.new ⟨fun _ => none, counter, 0, fails⟩).Holds [] :=
    NodeArena.holds_new (hworks ⟨hprompt, hbudget⟩)
  obtain ⟨rs, a', hrun, rfl, -⟩ := (NodeArena.performAll_of_list hholds hlist).exists_ok
  rw [hsame, hrun]
  rfl

theorem grows_as_list_two :
    (([.allocateNode 7 5 nullPtr, .allocateNode 8 6 0, .getNode 1, .release 1].mapM
      (perform tinyDisk)) (new (.new 65536 (.new true) .new) 1)).map Prod.fst =
        .ok [.ptr 0, .ptr 1, .node ⟨8, 6, 0, nullPtr, nullPtr, nullPtr⟩, .done] :=
  grows_as_list tinyDisk_lawful tinyDisk_prompt (by decide) (.new true) .new (by decide) (by decide)
    (show _ = Except.ok (_, [⟨7, 5, nullPtr, nullPtr, nullPtr, nullPtr⟩]) by decide)

end DiskArena

end AirHuim
