import AirHuim.Mining.CheckedPasses
import AirHuim.Mining.Algorithms.EfimSpill

/-!
# Where the entries of a projection point

An entry is to point just past the last item of its itemset. The position is cast
to a `u16`: in a transaction of the filtered database with less than `2 ^ 16`
items it never wraps, and then the suffixes get shorter along the recursion,
which ends. In a longer one the entry of the item at position 65535 points to
the start. The utilities are any `i64`s and their sums wrap around, which changes
what passes the filter and what is searched, but no position.
-/

namespace AirHuim

open Library Basket

namespace Efim.Wrapping

/-! ## Checks -/

/-- What is checked of the itemset and the entries that `mine_efim` is called with. -/
abbrev Check := List ItemId → List ProjTx → Task Unit

def checkSlice (check : Check) (itemset : List ItemId) : Option (List ProjTx) → Task Unit
  | none => return ()
  | some proj => check itemset proj

/-- `mine_efim` with a check at every call. -/
def mineAsserting (check : Check) (env : Env) : ℕ → List ItemId → EfimProj → Task Unit
  | 0, _, _ => throw .stuck
  | fuel + 1, itemset, proj => do
      let projSlice ← resolve proj
      checkSlice check itemset projSlice
      mineSlice env (mineAsserting check env fuel) itemset projSlice

def itemTaskAsserting (check : Check) (env : Env) (fuel : ℕ) (item : ItemId) : Task Unit :=
  let (proj, itemUtil) := initialProj env.db item
  explore env (mineAsserting check env fuel) [item] proj itemUtil

/-- `Efim::run` with the check. -/
def runAsserting (check : List OriginalTx → Check) (order : HashOrder) (source : DataSource)
    (ctx : MiningContext) : Except Fault (ℕ × World) := do
  let (r, db) ← prepared source ctx
  let tasks := primaryItems order r
  let w ← executeTasks ctx
    { ctx.world with guard := ctx.world.guard.forceAlloc (dbSizeBytes db) }
    (tasks.map (itemTaskAsserting (check db) ⟨db, ctx.minUtility, order⟩ (tasks.length + 1)))
  return (w.huisFound, { w with guard := w.guard.free (dbSizeBytes db) })

/-- One plus the position of the itemset's last item. -/
def pastOf (tx : OriginalTx) (itemset : List ItemId) : Option ℕ := do
  let last ← itemset.getLast?
  let pos ← tx.items.idxOf? last
  return pos + 1

structure PointsPast (tx : OriginalTx) (itemset : List ItemId) (p : ProjTx) : Prop where
  offset : pastOf tx itemset = some p.offset
  disjoint : ∀ x ∈ itemset, x ∉ tx.items.drop p.offset

/-- What the entries and the depth of a call are to satisfy: the depth is the
itemset's length. -/
structure Sound (db : List OriginalTx) (itemset : List ItemId) (proj : List ProjTx) : Prop where
  depth : ∃ tx ∈ db, itemset.length ≤ tx.items.length
  entries : ∀ p ∈ proj, PointsPast (db.getD p.txIdx default) itemset p

instance (tx : OriginalTx) (itemset : List ItemId) (p : ProjTx) :
    Decidable (PointsPast tx itemset p) :=
  decidable_of_iff (pastOf tx itemset = some p.offset ∧ ∀ x ∈ itemset, x ∉ tx.items.drop p.offset)
    ⟨fun h => ⟨h.1, h.2⟩, fun h => ⟨h.offset, h.disjoint⟩⟩

instance (db : List OriginalTx) (itemset : List ItemId) (proj : List ProjTx) :
    Decidable (Sound db itemset proj) :=
  decidable_of_iff ((∃ tx ∈ db, itemset.length ≤ tx.items.length) ∧
      ∀ p ∈ proj, PointsPast (db.getD p.txIdx default) itemset p)
    ⟨fun h => ⟨h.1, h.2⟩, fun h => ⟨h.depth, h.entries⟩⟩

/-- `assert!`, for the entries of a call. -/
def assertSound (db : List OriginalTx) : Check := fun itemset proj =>
  if Sound db itemset proj then return () else throw .panic

/-- Every call of `mine_efim` in the run passes the assertion, the run returns,
and no itemset that it has written has an item twice. -/
def OffsetsRight (order : HashOrder) (source : DataSource) (ctx : MiningContext) : Prop :=
  (runAsserting assertSound order source ctx).isOk ∧
    ∃ count w, run order source ctx = .ok (count, w) ∧ ∀ l ∈ w.lines, l.1.Nodup

theorem mineAsserting_eq (env : Env) (fuel : ℕ) :
    mineAsserting (fun _ _ => return ()) env fuel = mineEfim env fuel := by
  induction fuel with
  | zero => rfl
  | succ fuel ih =>
    funext itemset proj
    rw [mineAsserting, mineEfim, ih]
    apply bind_congr
    intro slice
    cases slice <;> rfl

/-- The code's run checks nothing. -/
theorem run_eq_asserting (order : HashOrder) (source : DataSource) (ctx : MiningContext) :
    run order source ctx = runAsserting (fun _ _ _ => return ()) order source ctx := by
  have htask : ∀ env fuel, itemTaskAsserting (fun _ _ => return ()) env fuel =
    itemTask env fuel := by
    intro env fuel
    funext item
    rw [itemTaskAsserting, mineAsserting_eq]
    rfl
  simp only [run, runAsserting, htask]

/-! ## Entries -/

section Entries

variable {db : List OriginalTx} {tx : OriginalTx} {itemset : List ItemId} {p q : ProjTx}
  {item : ItemId}

/-- The itemset is what the search has taken of the items before the offset, the
last of them included. -/
structure Follows (tx : OriginalTx) (itemset : List ItemId) (p : ProjTx) : Prop where
  sub : itemset.Sublist (tx.items.take p.offset)
  last : ∃ pos item, p.offset = pos + 1 ∧ tx.items[pos]? = some item ∧ itemset.getLast? = some item

theorem idxOf?_of_nodup {items : List ItemId} (h : items.Nodup) {pos : ℕ}
    (hpos : items[pos]? = some item) : items.idxOf? item = some pos := by
  obtain ⟨hlt, hget⟩ := List.getElem?_eq_some_iff.mp hpos
  rw [List.idxOf?_eq_some_iff]
  refine ⟨hlt, hget, fun j hj heq => ?_⟩
  exact hj.ne ((h.getElem_inj_iff).mp (heq.trans hget.symm))

theorem Follows.offset_le (h : Follows tx itemset p) : p.offset ≤ tx.items.length := by
  obtain ⟨pos, item, hoffset, hpos, -⟩ := h.last
  have hlt := (List.getElem?_eq_some_iff.mp hpos).1
  omega

theorem Follows.pointsPast (h : Follows tx itemset p) (hnodup : tx.items.Nodup) :
    PointsPast tx itemset p := by
  constructor
  · obtain ⟨pos, item, hoffset, hpos, hlast⟩ := h.last
    simp [pastOf, hlast, idxOf?_of_nodup hnodup hpos, hoffset]
  · intro x hx
    exact List.disjoint_take_drop hnodup le_rfl (h.sub.subset hx)

theorem take_snoc {items : List ItemId} {pos : ℕ} (hpos : items[pos]? = some item) :
    items.take (pos + 1) = items.take pos ++ [item] := by
  rw [List.take_add_one, hpos]
  rfl

/-- One more item: the offset does not wrap in a short transaction. -/
theorem Follows.projectTx (h : Follows tx itemset p) (hshort : tx.items.length < 2 ^ 16)
    (hq : projectTx tx p item = some q) :
    q.txIdx = p.txIdx ∧ Follows tx (itemset ++ [item]) q := by
  obtain ⟨pos, hpos, htx, hoffset, -⟩ := projectTx_some hq
  rw [List.getElem?_drop] at hpos
  have hlt := (List.getElem?_eq_some_iff.mp hpos).1
  rw [Nat.mod_eq_of_lt (by omega)] at hoffset
  refine ⟨htx, ?_, ⟨p.offset + pos, item, hoffset, hpos, by simp⟩⟩
  have hsub : itemset.Sublist (tx.items.take (p.offset + pos)) :=
    h.sub.trans (List.take_prefix_take_left (Nat.le_add_right _ _)).sublist
  rw [hoffset, take_snoc hpos]
  exact hsub.append (List.Sublist.refl _)

theorem initialTx_some {i : ℕ} (h : initialTx tx i item = some q) :
    ∃ pos, tx.items[pos]? = some item ∧ q.txIdx = i % 2 ^ 32 ∧ q.offset = (pos + 1) % 2 ^ 16 := by
  unfold initialTx at h
  cases hpos : tx.items.idxOf? item with
  | none =>
    rw [hpos] at h
    cases h
  | some pos =>
    rw [hpos] at h
    cases h
    obtain ⟨hlt, hget, -⟩ := List.idxOf?_eq_some_iff.mp hpos
    exact ⟨pos, by rw [List.getElem?_eq_getElem hlt, hget], rfl, rfl⟩

theorem follows_initialTx {i : ℕ} (hi : i < 2 ^ 32) (hshort : tx.items.length < 2 ^ 16)
    (hq : initialTx tx i item = some q) : q.txIdx = i ∧ Follows tx [item] q := by
  obtain ⟨pos, hpos, htx, hoffset⟩ := initialTx_some hq
  have hlt := (List.getElem?_eq_some_iff.mp hpos).1
  rw [Nat.mod_eq_of_lt (by omega)] at hoffset
  rw [Nat.mod_eq_of_lt hi] at htx
  refine ⟨htx, ?_, ⟨pos, item, hoffset, hpos, rfl⟩⟩
  rw [hoffset, take_snoc hpos]
  exact List.sublist_append_right _ _

end Entries

/-! ## Projections -/

section Projections

variable {db : List OriginalTx} {itemset : List ItemId} {proj : List ProjTx} {item : ItemId}

/-- A database whose transactions list distinct items, and less than `2 ^ 16` of them. -/
structure ShortDb (db : List OriginalTx) : Prop where
  length_lt : db.length < 2 ^ 32
  distinct : ∀ tx ∈ db, tx.items.Nodup
  short : ∀ tx ∈ db, tx.items.length < 2 ^ 16

/-- The itemset lies in a transaction, and every entry follows it in its own. -/
structure Placed (db : List OriginalTx) (itemset : List ItemId) (proj : List ProjTx) : Prop where
  reached : ∃ tx ∈ db, itemset.Sublist tx.items
  entries : ∀ p ∈ proj, p.txIdx < db.length ∧ Follows (db.getD p.txIdx default) itemset p

theorem Placed.nodup (h : Placed db itemset proj) (hdb : ShortDb db) : itemset.Nodup := by
  obtain ⟨tx, htx, hsub⟩ := h.reached
  exact (hdb.distinct tx htx).sublist hsub

theorem Placed.sound (h : Placed db itemset proj) (hdb : ShortDb db) : Sound db itemset proj := by
  constructor
  · obtain ⟨tx, htx, hsub⟩ := h.reached
    exact ⟨tx, htx, hsub.length_le⟩
  · intro p hp
    obtain ⟨htx, hfollows⟩ := h.entries p hp
    exact hfollows.pointsPast (hdb.distinct _ (getD_mem htx))

theorem Placed.project (h : Placed db itemset proj) (hdb : ShortDb db)
    (hne : (project db proj item).1 ≠ []) :
    Placed db (itemset ++ [item]) (project db proj item).1 := by
  have hentries : ∀ q ∈ (Wrapping.project db proj item).1,
      q.txIdx < db.length ∧ Follows (db.getD q.txIdx default) (itemset ++ [item]) q := by
    intro q hq
    obtain ⟨p, hp, hpq⟩ := mem_project.mp hq
    obtain ⟨hlt, hfollows⟩ := h.entries p hp
    obtain ⟨htx, hfollows'⟩ := hfollows.projectTx (hdb.short _ (getD_mem hlt)) hpq
    rw [htx]
    exact ⟨hlt, hfollows'⟩
  obtain ⟨q, hq⟩ := List.exists_mem_of_ne_nil _ hne
  obtain ⟨hlt, hfollows⟩ := hentries q hq
  exact ⟨⟨_, getD_mem hlt, hfollows.sub.trans (List.take_sublist _ _)⟩, hentries⟩

theorem mem_initialProj {q : ProjTx} : q ∈ (initialProj db item).1 ↔
    ∃ i tx, db[i]? = some tx ∧ initialTx tx i item = some q := by
  rw [initialProj, fst_foldl_pushProj, List.nil_append, List.mem_filterMap]
  constructor
  · rintro ⟨⟨tx, i⟩, hmem, hq⟩
    exact ⟨i, tx, List.mk_mem_zipIdx_iff_getElem?.mp hmem, hq⟩
  · rintro ⟨i, tx, hget, hq⟩
    exact ⟨(tx, i), List.mk_mem_zipIdx_iff_getElem?.mpr hget, hq⟩

theorem placed_initialProj (hdb : ShortDb db) (hitem : ∃ tx ∈ db, item ∈ tx.items) :
    Placed db [item] (initialProj db item).1 := by
  constructor
  · obtain ⟨tx, htx, hmem⟩ := hitem
    exact ⟨tx, htx, List.singleton_sublist.mpr hmem⟩
  · intro q hq
    obtain ⟨i, tx, hget, hq⟩ := mem_initialProj.mp hq
    obtain ⟨hlt, hi⟩ := List.getElem?_eq_some_iff.mp hget
    have hshort := hdb.short tx (List.mem_of_getElem? hget)
    obtain ⟨rfl, hfollows⟩ := follows_initialTx (hlt.trans hdb.length_lt) hshort hq
    have hgetD : db.getD q.txIdx default = tx := by
      rw [List.getD_eq_getElem?_getD, hget]
      rfl
    rw [hgetD]
    exact ⟨hlt, hfollows⟩

theorem Placed.readBack {slice : List ProjTx} (h : Placed db itemset proj) (hdb : ShortDb db)
    (hslice : ReadBack proj slice) : Placed db itemset slice := by
  rcases hslice with rfl | rfl
  · exact h
  · refine ⟨h.reached, fun q hq => ?_⟩
    obtain ⟨p, hp, rfl⟩ := List.mem_map.mp hq
    obtain ⟨hlt, hfollows⟩ := h.entries p hp
    have hoffset := hfollows.offset_le.trans_lt (hdb.short _ (getD_mem hlt))
    obtain ⟨htx, hsame⟩ := ofBytes_toBytes_position (hlt.trans hdb.length_lt) hoffset
    rw [htx]
    exact ⟨hlt, by rw [hsame]; exact hfollows.sub, by rw [hsame]; exact hfollows.last⟩

end Projections

/-! ## Tasks -/

section Tasks

variable {env : Env} {w : World} {E : Fault → Prop} {check : Check} {itemset : List ItemId}
  {proj : List ProjTx} {descend : List ItemId → EfimProj → Task Unit}

/-- Whatever the pool answers, a projection that is kept holds its entries. -/
theorem keep_spec_any (proj : List ProjTx) :
    Task.Spec E (keep proj) w fun out v kept =>
      out = [] ∧ ∀ p, kept = some p → p.Holds v proj := by
  unfold keep
  refine Task.Spec.bind_silent (Task.tryAlloc_spec _) ?_
  rintro v admitted hv -
  cases admitted with
  | true =>
    refine Task.Spec.pure fun _ _ => ⟨rfl, fun p hp => ?_⟩
    cases hp
    rfl
  | false =>
    have hspill : Task.Quiet (EfimProj.spill proj) v fun v' p => p.Holds v' proj := by
      apply (Task.Quiet.newPage _).bind
      intro v' id hid
      exact Task.Quiet.pure fun v'' hv'' => ⟨PagePool.Holds.mono hv'' hid, rfl⟩
    apply Task.Quiet.okOr
    · apply hspill.bind
      intro v' p hp
      refine Task.Quiet.pure fun v'' hv'' q hq => ?_
      cases hq
      exact hp.mono hv''
    · intro v' p hp
      cases hp

theorem resolve_spec_any {p : EfimProj} (hp : p.Holds w proj) :
    Task.Spec E (resolve p) w fun out _ slice =>
      out = [] ∧ ∀ read, slice = some read → ReadBack proj read := by
  cases p with
  | inMemory p =>
    refine Task.Spec.pure fun _ _ => ⟨rfl, fun read hread => ?_⟩
    cases hread
    exact Or.inl hp
  | onDisk id count =>
    obtain ⟨hid, rfl⟩ := hp
    have hload : Task.Quiet (EfimProj.load id proj.length) w fun _ read => ReadBack proj read := by
      apply (Task.Quiet.pin hid).bind
      rintro v bytes rfl
      exact Task.Quiet.pure fun _ _ => Or.inr (load_bytes_eq proj)
    apply Task.Quiet.okOr
    · apply hload.bind
      intro v read hread
      refine Task.Quiet.pure fun _ _ read' hread' => ?_
      cases hread'
      exact hread
    · intro v read hread
      cases hread

/-- No itemset that is written has an item twice. -/
def DistinctLines (out : List MinerOp) : Prop :=
  ∀ X u, MinerOp.writeHui X u ∈ out → X.Nodup

theorem DistinctLines.append {out out' : List MinerOp} (h : DistinctLines out)
    (h' : DistinctLines out') : DistinctLines (out ++ out') := by
  intro X u hX
  rcases List.mem_append.mp hX with hX | hX
  · exact h X u hX
  · exact h' X u hX

theorem distinctLines_nil : DistinctLines [] := fun _ _ hX => (List.not_mem_nil hX).elim

/-- A task that writes such itemsets only and ends well. -/
abbrev Distinct (t : Task Unit) (w : World) : Prop :=
  Task.Spec (fun _ => False) t w fun out _ _ => DistinctLines out

theorem distinct_pure : Distinct (return ()) w :=
  Task.Spec.pure fun _ _ => distinctLines_nil

theorem Distinct.bind {t t' : Task Unit} (h : Distinct t w) (h' : ∀ v, w ≤ v → Distinct t' v) :
    Distinct (do t; t') w := by
  refine Task.Spec.bind h fun out v _ hv hout => ?_
  exact (h' v hv).mono le_rfl fun out' _ _ hout' => hout.append hout'

theorem distinct_writeIfHigh (hnodup : itemset.Nodup) (util : Utility) :
    Distinct (writeIfHigh env itemset util) w := by
  unfold writeIfHigh
  split_ifs
  · refine (Task.writeAndCount_spec itemset util).mono le_rfl fun out _ _ hout X u hX => ?_
    simp only [hout, writeOps, List.mem_cons, MinerOp.writeHui.injEq, List.not_mem_nil, or_false,
      reduceCtorEq] at hX
    rw [hX.1]
    exact hnodup
  · exact distinct_pure

theorem distinct_explore (hnodup : itemset.Nodup)
    (hdescend : ∀ p v, w ≤ v → p.Holds v proj → Distinct (descend itemset p) v) (util : Utility) :
    Distinct (explore env descend itemset proj util) w := by
  unfold explore
  refine (distinct_writeIfHigh hnodup util).bind fun v hv => ?_
  refine Task.Spec.bind_silent (keep_spec_any proj) fun v' kept hv' hkept => ?_
  cases kept with
  | none => exact distinct_pure
  | some p =>
    refine Distinct.bind (hdescend p v' (hv.trans hv') (hkept p rfl)) fun v'' _ => ?_
    refine (Task.free_spec _).mono le_rfl fun out _ _ hout => ?_
    rw [hout.1]
    exact distinctLines_nil

theorem distinct_visitAll (hplaced : Placed env.db itemset proj) (hdb : ShortDb env.db)
    (hdescend : ∀ item p v, w ≤ v →
      Placed env.db (itemset ++ [item]) (project env.db proj item).1 →
      p.Holds v (project env.db proj item).1 → Distinct (descend (itemset ++ [item]) p) v)
    (lu : Table ItemId Utility) (es : List ItemId) :
    Distinct (visitAll env descend itemset proj lu es) w := by
  induction es generalizing w with
  | nil => exact distinct_pure
  | cons item es ih =>
    have hvisit : Distinct (visit env descend itemset proj lu item) w := by
      unfold visit
      split_ifs
      · exact distinct_pure
      · dsimp only
        split_ifs with hnil
        · exact distinct_pure
        · have hplaced' := hplaced.project hdb hnil
          exact distinct_explore (hplaced'.nodup hdb)
            (fun p v hv hp => hdescend item p v hv hplaced' hp) _
    refine hvisit.bind fun v hv => ih fun item p v' hv' => ?_
    exact hdescend item p v' (hv.trans hv')

/-- The recursion ends: an itemset is no longer than the transaction it lies in. -/
theorem distinct_mineAsserting (hdb : ShortDb env.db) {n : ℕ}
    (hlen : ∀ tx ∈ env.db, tx.items.length ≤ n)
    (hcheck : ∀ itemset proj v, Placed env.db itemset proj →
      Task.Spec (fun _ => False) (check itemset proj) v fun out _ _ => out = [] ∧ True)
    (fuel : ℕ) (hplaced : Placed env.db itemset proj) {p : EfimProj} (hp : p.Holds w proj)
    (hfuel : n < itemset.length + fuel) : Distinct (mineAsserting check env fuel itemset p) w := by
  induction fuel generalizing itemset proj p w with
  | zero =>
    obtain ⟨tx, htx, hsub⟩ := hplaced.reached
    have := hlen tx htx
    have := hsub.length_le
    omega
  | succ fuel ih =>
    refine Task.Spec.bind_silent (resolve_spec_any hp) fun v slice hv hslice => ?_
    cases slice with
    | none => exact distinct_pure.bind fun _ _ => distinct_pure
    | some read =>
      have hread := hplaced.readBack hdb (hslice read rfl)
      refine Task.Spec.bind_silent (hcheck itemset read v hread) fun v' _ hv' _ => ?_
      cases read with
      | nil => exact distinct_pure
      | cons first rest =>
        refine distinct_visitAll hread hdb (fun item p v'' _ hplaced' hp' => ?_) _ _
        apply ih hplaced' hp'
        rw [List.length_append, List.length_singleton]
        omega

theorem distinct_itemTaskAsserting (hdb : ShortDb env.db) {n : ℕ}
    (hlen : ∀ tx ∈ env.db, tx.items.length ≤ n)
    (hcheck : ∀ itemset proj v, Placed env.db itemset proj →
      Task.Spec (fun _ => False) (check itemset proj) v fun out _ _ => out = [] ∧ True)
    {item : ItemId} (hitem : ∃ tx ∈ env.db, item ∈ tx.items) :
    Distinct (itemTaskAsserting check env (n + 1) item) w := by
  have hplaced := placed_initialProj hdb hitem
  refine distinct_explore (List.nodup_singleton item) (fun p v _ hp => ?_) _
  apply distinct_mineAsserting hdb hlen hcheck (n + 1) hplaced hp
  rw [List.length_singleton]
  omega

theorem assertSound_spec {db : List OriginalTx} (hsound : Sound db itemset proj) (v : World) :
    Task.Spec (fun _ => False) (assertSound db itemset proj) v fun out _ _ => out = [] ∧ True := by
  unfold assertSound
  rw [if_pos hsound]
  exact Task.Spec.pure fun _ _ => ⟨rfl, trivial⟩

/-! ## Position 65535 -/

theorem PointsPast.pos {tx : OriginalTx} {p : ProjTx} (h : PointsPast tx itemset p) :
    0 < p.offset := by
  have hoffset := h.offset
  simp only [pastOf, Option.bind_eq_bind, Option.bind_eq_some_iff, Option.pure_def,
    Option.some.injEq] at hoffset
  obtain ⟨last, -, pos, -, hpos⟩ := hoffset
  omega

theorem exists_zero_readBack {slice : List ProjTx} {p : ProjTx} (hp : p ∈ proj)
    (htx : p.txIdx < 2 ^ 32) (hzero : p.offset = 0) (hslice : ReadBack proj slice) :
    ∃ q ∈ slice, q.offset = 0 := by
  rcases hslice with rfl | rfl
  · exact ⟨p, hp, hzero⟩
  · have hoffset := (ofBytes_toBytes_position htx (by omega)).2
    exact ⟨_, List.mem_map_of_mem hp, hoffset.trans hzero⟩

/-- The entry that the item at position 65535 gets points to the start. -/
theorem exists_zero_initialProj {db : List OriginalTx} {tx : OriginalTx} {i : ℕ} {item : ItemId}
    (hget : db[i]? = some tx) (hpos : tx.items.idxOf? item = some (2 ^ 16 - 1)) :
    ∃ p ∈ (initialProj db item).1, p.txIdx < 2 ^ 32 ∧ p.offset = 0 := by
  have hentry : ∃ p, initialTx tx i item = some p ∧ p.txIdx < 2 ^ 32 ∧ p.offset = 0 := by
    unfold initialTx
    rw [hpos]
    exact ⟨_, rfl, Nat.mod_lt _ (by norm_num), by norm_num⟩
  obtain ⟨p, hp, htx, hzero⟩ := hentry
  exact ⟨p, mem_initialProj.mpr ⟨i, tx, hget, hp⟩, htx, hzero⟩

/-- The task of such an item does not pass the assertion. -/
theorem fails_itemTaskAsserting (hpool : Task.Allows (fun _ => False) w) {tx : OriginalTx} {i : ℕ}
    {item : ItemId} (hget : env.db[i]? = some tx)
    (hpos : tx.items.idxOf? item = some (2 ^ 16 - 1)) (fuel : ℕ) :
    Task.Spec (fun _ => True) (itemTaskAsserting (assertSound env.db) env (fuel + 1) item) w
      fun _ _ _ => False := by
  obtain ⟨p, hp, htx, hzero⟩ := exists_zero_initialProj hget hpos
  refine Task.Spec.bind (Task.Spec.any _ w) fun _ v _ hv _ => ?_
  refine Task.Spec.bind_silent (keep_spec (hpool.mono hv) _) ?_
  rintro v' _ hv' ⟨kept, rfl, hkept⟩
  have hmine : Task.Spec (fun _ => True)
      (mineAsserting (assertSound env.db) env (fuel + 1) [item] kept) v' fun _ _ _ => False := by
    refine Task.Spec.bind_silent (resolve_reads ((hpool.mono hv).mono hv') hkept) ?_
    rintro v'' _ _ ⟨read, rfl, hread⟩
    obtain ⟨q, hq, hqzero⟩ := exists_zero_readBack hp htx hzero hread
    have hunsound : ¬Sound env.db [item] read := fun hsound => by
      have := (hsound.entries q hq).pos
      omega
    have hthrow : Task.Spec (fun _ => True) (assertSound env.db [item] read) v''
        fun _ _ _ => False := by
      unfold assertSound
      rw [if_neg hunsound]
      exact fun _ _ => trivial
    exact hthrow.bind fun _ _ _ _ hfalse => hfalse.elim
  exact hmine.bind fun _ _ _ _ hfalse => hfalse.elim

end Tasks

/-! ## The loaded database -/

section Loaded

variable {source : DataSource} {results : List (Except Fault RawTransaction)}
  {txs : List RawTransaction} {r : TwuFilterResult} {ctx : MiningContext} {order : HashOrder}

/-- What EFIM searches. -/
abbrev loaded (r : TwuFilterResult) (txs : List RawTransaction) : List OriginalTx :=
  (filteredDb r txs).map (loadTx r)

theorem prepared_of_readDb (hread : readDb source = .ok results) (ctx : MiningContext) :
    prepared source ctx = .ok (TwuFilter.computeWrapping ctx.minUtility (okOnly results),
      loaded (TwuFilter.computeWrapping ctx.minUtility (okOnly results)) (okOnly results)) := by
  unfold prepared
  rw [hread]
  rfl

theorem length_okOnly_lt (hread : readDb source = .ok results) :
    (okOnly results).length < 2 ^ 32 := by
  unfold readDb at hread
  split_ifs at hread with hcount
  cases hread
  have hsome : ∀ tx : Except Fault RawTransaction, tx.toOption.isSome = tx.isOk := by
    intro tx
    cases tx <;> rfl
  simpa only [okOnly, List.length_filterMap_eq_countP, hsome] using hcount

/-- A loaded transaction lists the items of its source that pass the filter. -/
theorem items_loadTx {raw : RawTransaction} {ftx : FilteredTransaction}
    (ha : r.apply raw = some ftx) :
    (loadTx r ftx).items.Perm ((raw.items.filter fun e => r.passes e.item).map ItemEntry.item) := by
  simp only [TwuFilterResult.apply] at ha
  split_ifs at ha
  cases ha
  exact ((sortByKey_perm _ _).trans (sortByKey_perm _ _)).map _

theorem mem_loaded {tx : OriginalTx} (h : tx ∈ loaded r txs) :
    ∃ raw ∈ txs, tx.items.Perm
      ((raw.items.filter fun e => r.passes e.item).map ItemEntry.item) := by
  obtain ⟨ftx, hftx, rfl⟩ := List.mem_map.mp h
  obtain ⟨raw, hraw, ha⟩ := List.mem_filterMap.mp hftx
  exact ⟨raw, hraw, items_loadTx ha⟩

theorem nodup_loaded (hdistinct : ∀ tx ∈ txs, (tx.items.map ItemEntry.item).Nodup) :
    ∀ tx ∈ loaded r txs, tx.items.Nodup := by
  intro tx htx
  obtain ⟨raw, hraw, hperm⟩ := mem_loaded htx
  exact hperm.nodup_iff.mpr ((hdistinct raw hraw).sublist (List.filter_sublist.map _))

theorem length_loaded_le (hdistinct : ∀ tx ∈ txs, (tx.items.map ItemEntry.item).Nodup) :
    ∀ tx ∈ loaded r txs, tx.items.length ≤ (primaryItems order r).length := by
  intro tx htx
  apply (List.subperm_of_subset (nodup_loaded hdistinct tx htx) ?_).length_le
  intro item hitem
  obtain ⟨raw, -, hperm⟩ := mem_loaded htx
  obtain ⟨e, he, rfl⟩ := List.mem_map.mp (hperm.subset hitem)
  rw [mem_primaryItems]
  exact (List.mem_filter.mp he).2

theorem primary_occurs {minUtility : Utility} {item : ItemId}
    (h : item ∈ primaryItems order (TwuFilter.computeWrapping minUtility txs)) :
    ∃ tx ∈ loaded (TwuFilter.computeWrapping minUtility txs) txs, item ∈ tx.items := by
  have hpass := (mem_primaryItems order _ item).mp h
  obtain ⟨raw, hraw, e, he, rfl⟩ := TwuFilter.occurs_of_passes hpass
  cases ha : (TwuFilter.computeWrapping minUtility txs).apply raw with
  | none =>
    have hblocked := apply_none_basket ha e.item (mem_basketOf.mpr ⟨e, he, rfl⟩)
    rw [hpass] at hblocked
    cases hblocked
  | some ftx =>
    refine ⟨_, List.mem_map_of_mem (List.mem_filterMap.mpr ⟨raw, hraw, ha⟩), ?_⟩
    apply (items_loadTx ha).symm.subset
    exact List.mem_map_of_mem (List.mem_filter.mpr ⟨he, hpass⟩)

/-- No transaction of the filtered database has more items than a `u16` has positions. -/
def ShortRows (r : TwuFilterResult) (txs : List RawTransaction) : Prop :=
  ∀ tx ∈ filteredDb r txs, tx.items.length < 2 ^ 16

theorem length_loadTx (ftx : FilteredTransaction) :
    (loadTx r ftx).items.length = ftx.items.length := by
  simp only [loadTx, List.length_map]
  exact (sortByKey_perm _ _).length_eq

theorem shortDb_loaded (hlen : txs.length < 2 ^ 32)
    (hdistinct : ∀ tx ∈ txs, (tx.items.map ItemEntry.item).Nodup) (hshort : ShortRows r txs) :
    ShortDb (loaded r txs) where
  length_lt := by
    have := List.length_filterMap_le r.apply txs
    rw [List.length_map, filteredDb]
    omega
  distinct := nodup_loaded hdistinct
  short := by
    intro tx htx
    obtain ⟨ftx, hftx, rfl⟩ := List.mem_map.mp htx
    rw [length_loadTx]
    exact hshort ftx hftx

end Loaded

/-! ## Runs -/

section Runs

variable {source : DataSource} {results : List (Except Fault RawTransaction)}
  {ctx : MiningContext}

def assertingTasks (check : List OriginalTx → Check) (order : HashOrder) (ctx : MiningContext)
    (r : TwuFilterResult) (db : List OriginalTx) : List (Task Unit) :=
  (primaryItems order r).map
    (itemTaskAsserting (check db) ⟨db, ctx.minUtility, order⟩ ((primaryItems order r).length + 1))

/-- The world in which the mining phase begins. -/
def miningWorld (ctx : MiningContext) (db : List OriginalTx) : World :=
  { ctx.world with guard := ctx.world.guard.forceAlloc (dbSizeBytes db) }

theorem runAsserting_eq {check : List OriginalTx → Check} {order : HashOrder} {r : TwuFilterResult}
    {db : List OriginalTx} (hprepared : prepared source ctx = .ok (r, db)) :
    runAsserting check order source ctx =
      (executeTasks ctx (miningWorld ctx db) (assertingTasks check order ctx r db)).map
        fun w => (w.huisFound, { w with guard := w.guard.free (dbSizeBytes db) }) := by
  unfold runAsserting
  rw [hprepared]
  change (executeTasks ctx (miningWorld ctx db) (assertingTasks check order ctx r db)).bind _ = _
  cases executeTasks ctx (miningWorld ctx db) (assertingTasks check order ctx r db) <;> rfl

/-- A run on short transactions returns, with any check that such entries pass. -/
theorem runAsserting_of_short (hread : readDb source = .ok results)
    (hdistinct : ∀ tx ∈ okOnly results, (tx.items.map ItemEntry.item).Nodup)
    (hshort : ShortRows (TwuFilter.computeWrapping ctx.minUtility (okOnly results))
      (okOnly results))
    (order : HashOrder) (check : List OriginalTx → Check)
    (hcheck : ∀ db, ShortDb db → ∀ itemset proj v, Placed db itemset proj →
      Task.Spec (fun _ => False) (check db itemset proj) v fun out _ _ => out = [] ∧ True) :
    ∃ count w, runAsserting check order source ctx = .ok (count, w) ∧ ∀ l ∈ w.lines, l.1.Nodup := by
  have hdb := shortDb_loaded (length_okOnly_lt hread) hdistinct hshort
  set r := TwuFilter.computeWrapping ctx.minUtility (okOnly results) with hr
  set db := loaded r (okOnly results)
  have htasks : List.Forall₂
      (fun t Q => Task.Spec (fun _ => False) t { miningWorld ctx db with lines := [] } Q)
      (assertingTasks check order ctx r db)
      ((primaryItems order r).map fun _ out _ _ => DistinctLines out) := by
    rw [assertingTasks, List.forall₂_map_left_iff, List.forall₂_map_right_iff, List.forall₂_same]
    intro item hitem
    have hoccurs : ∃ tx ∈ db, item ∈ tx.items := primary_occurs hitem
    exact distinct_itemTaskAsserting hdb (length_loaded_le hdistinct) (hcheck db hdb) hoccurs
  rw [runAsserting_eq (prepared_of_readDb hread ctx)]
  rcases executeTasks_spec ctx (miningWorld ctx db) htasks with
    ⟨e, he, -⟩ | ⟨log, outs, hrun, hperm, houts⟩
  · exact he.elim
  · rw [hrun]
    refine ⟨_, _, rfl, fun l hl => ?_⟩
    have hline : l ∈ (Prog.replay world log { miningWorld ctx db with lines := [] }).lines := hl
    rw [lines_replay, List.nil_append, List.mem_filterMap] at hline
    obtain ⟨op, hop, hop'⟩ := hline
    obtain ⟨out, hout, hmem⟩ := List.mem_flatten.mp (hperm.subset hop)
    rw [List.forall₂_map_right_iff] at houts
    obtain ⟨-, -, hdistinctLines⟩ := exists_of_forall₂ houts hout
    cases op with
    | writeHui X u =>
      cases hop'
      exact hdistinctLines X u hmem
    | _ => cases hop'

/-- On short transactions all entries point past their itemsets, whatever fails. -/
theorem offsetsRight_of_short (hread : readDb source = .ok results)
    (hdistinct : ∀ tx ∈ okOnly results, (tx.items.map ItemEntry.item).Nodup)
    (hshort : ShortRows (TwuFilter.computeWrapping ctx.minUtility (okOnly results))
      (okOnly results))
    (order : HashOrder) : OffsetsRight order source ctx := by
  constructor
  · obtain ⟨count, w, hrun, -⟩ := runAsserting_of_short hread hdistinct hshort order assertSound
      fun db hdb itemset proj v hplaced => assertSound_spec (hplaced.sound hdb) v
    rw [hrun]
    rfl
  · rw [run_eq_asserting]
    exact runAsserting_of_short hread hdistinct hshort order (fun _ _ _ => return ())
      fun _ _ _ _ _ _ => Task.Spec.pure fun _ _ => ⟨rfl, trivial⟩

/-- In a longer one some entry does not, if no projection is lost to a failure. -/
theorem not_offsetsRight_of_long (hread : readDb source = .ok results)
    (hdistinct : ∀ tx ∈ okOnly results, (tx.items.map ItemEntry.item).Nodup)
    (hlong : ¬ShortRows (TwuFilter.computeWrapping ctx.minUtility (okOnly results))
      (okOnly results))
    (order : HashOrder) (hpool : ∀ n, ctx.world.pool.fails n = false) :
    ¬OffsetsRight order source ctx := by
  rintro ⟨hok, -⟩
  rw [runAsserting_eq (prepared_of_readDb hread ctx)] at hok
  set r := TwuFilter.computeWrapping ctx.minUtility (okOnly results) with hr
  set db := loaded r (okOnly results) with hdb
  obtain ⟨tx, i, hget, hlen⟩ : ∃ (tx : OriginalTx) (i : ℕ),
      db[i]? = some tx ∧ 2 ^ 16 ≤ tx.items.length := by
    simp only [ShortRows, not_forall, not_lt] at hlong
    obtain ⟨ftx, hftx, hlen⟩ := hlong
    obtain ⟨i, hi⟩ := List.mem_iff_getElem?.mp (List.mem_map_of_mem (f := loadTx r) hftx)
    exact ⟨loadTx r ftx, i, hi, by rwa [length_loadTx]⟩
  have hmem : tx ∈ db := List.mem_of_getElem? hget
  have hlt : 2 ^ 16 - 1 < tx.items.length := by omega
  have hpos := idxOf?_of_nodup (nodup_loaded hdistinct tx hmem)
    (List.getElem?_eq_getElem hlt)
  have hprimary : tx.items[2 ^ 16 - 1] ∈ primaryItems order r := by
    obtain ⟨raw, -, hperm⟩ := mem_loaded hmem
    obtain ⟨e, he, heq⟩ := List.mem_map.mp (hperm.subset (List.getElem_mem hlt))
    rw [← heq, mem_primaryItems]
    exact (List.mem_filter.mp he).2
  have hallows : Task.Allows (fun _ => False) { miningWorld ctx db with lines := [] } :=
    fun n hn => by simp [miningWorld, hpool n] at hn
  cases hend : executeTasks ctx (miningWorld ctx db)
    (assertingTasks assertSound order ctx r db) with
  | error e =>
    rw [hend] at hok
    cases hok
  | ok w =>
    have hget' : (⟨db, ctx.minUtility, order⟩ : Env).db[i]? = some tx := hget
    have hfails := fails_itemTaskAsserting hallows hget' hpos (primaryItems order r).length
    obtain ⟨_, _, -, -, hfalse⟩ :=
      meets_of_executeTasks hend (List.mem_map_of_mem hprimary) hfails
    exact hfalse

/-- Whatever the hash orders, the guard, the pool and the schedule. -/
def AlwaysRight (source : DataSource) (minUtility : Utility) : Prop :=
  ∀ order ctx, ctx.minUtility = minUtility → OffsetsRight order source ctx

/-- The entries point past their itemsets in every run on a database with distinct
items, and just so in any one over a pool that does not fail, if and only if no
transaction has `2 ^ 16` items whose weights, as they wrap around, pass the filter. -/
theorem offsetsRight_iff_short (hread : readDb source = .ok results)
    (hdistinct : ∀ tx ∈ okOnly results, (tx.items.map ItemEntry.item).Nodup)
    (minUtility : Utility) :
    (AlwaysRight source minUtility ↔
        ShortRows (TwuFilter.computeWrapping minUtility (okOnly results)) (okOnly results)) ∧
      ∀ order ctx, ctx.minUtility = minUtility → (∀ n, ctx.world.pool.fails n = false) →
        (OffsetsRight order source ctx ↔
          ShortRows (TwuFilter.computeWrapping minUtility (okOnly results)) (okOnly results)) := by
  have hexact : ∀ order ctx, ctx.minUtility = minUtility →
      (∀ n, ctx.world.pool.fails n = false) → (OffsetsRight order source ctx ↔
        ShortRows (TwuFilter.computeWrapping minUtility (okOnly results)) (okOnly results)) := by
    rintro order ctx rfl hpool
    constructor
    · intro hright
      by_contra hlong
      exact not_offsetsRight_of_long hread hdistinct hlong order hpool hright
    · intro hshort
      exact offsetsRight_of_short hread hdistinct hshort order
  refine ⟨⟨fun halways => ?_, ?_⟩, hexact⟩
  · have hright := halways .stored (createCtx minUtility none 0) rfl
    exact (hexact .stored (createCtx minUtility none 0) rfl fun _ => rfl).mp hright
  · rintro hshort order ctx rfl
    exact offsetsRight_of_short hread hdistinct hshort order

theorem offsetsRight_iff_short_tinyDb : AlwaysRight (tinyDb.map .ok) 45 := by
  have hread : readDb (tinyDb.map .ok) = .ok ((numbered 0 tinyDb).map .ok) := readDb_map_ok tinyDb
  have hshort : ShortRows (TwuFilter.computeWrapping 45 (okOnly ((numbered 0 tinyDb).map .ok)))
      (okOnly ((numbered 0 tinyDb).map .ok)) := by
    unfold ShortRows
    decide +kernel
  exact (offsetsRight_iff_short hread (by decide +kernel) 45).1.mpr hshort

/-- One transaction of the items below `n`, each with utility 1. -/
def longRow (n : ℕ) (hn : FitsI64 n) : SpmfRow where
  items := (List.range n).map fun i => ⟨i, 1⟩
  transactionUtility := n
  fits := hn

theorem wellFormed_longRow (n : ℕ) (hn : FitsI64 n) : (longRow n hn).WellFormed where
  distinct := by simp [longRow, Function.comp_def, List.nodup_range]
  nonneg := by
    intro e he
    obtain ⟨i, -, rfl⟩ := List.mem_map.mp he
    exact zero_le_one
  total := by simp [longRow, Function.comp_def]

/-- All of its items pass a threshold of 1. -/
theorem not_shortRows_longRow {n : ℕ} (hn : FitsI64 n) (hlong : 2 ^ 16 ≤ n) :
    ¬ShortRows (TwuFilter.computeWrapping 1 (numbered 0 [longRow n hn]))
      (numbered 0 [longRow n hn]) := by
  have hwf : ∀ tx ∈ numbered 0 [longRow n hn], tx.WellFormed := by
    apply numbered_wellFormed
    intro row hrow
    rw [List.mem_singleton.mp hrow]
    exact wellFormed_longRow n hn
  set raw : RawTransaction := ⟨0, n, (longRow n hn).items⟩ with hraw
  have hnumbered : numbered 0 [longRow n hn] = [raw] := rfl
  rw [hnumbered] at hwf ⊢
  have hsums : TwuFilter.SumsFit [raw] :=
    sumsFit_of_total hwf (by simpa [statedTotal, hraw] using hn.2)
  rw [TwuFilter.computeWrapping_eq hsums]
  have hpasses : ∀ e ∈ raw.items, (TwuFilter.compute 1 [raw]).passes e.item = true := by
    intro e he
    have hmem : {e.item} ⊆ raw.basket.items :=
      Finset.singleton_subset_iff.mpr (mem_basketOf.mpr ⟨e, he, rfl⟩)
    rw [passes_compute hwf]
    constructor
    · exact (occurs_map _ _ _).mpr ⟨raw, List.mem_singleton_self raw, hmem⟩
    · have hweight : twuOf [raw] {e.item} = n := by
        rw [twuOf, List.filter_singleton, decide_eq_true hmem]
        simp [hraw]
      have hpos : (1 : ℤ) ≤ n := by omega
      rw [hweight]
      exact hpos
  have hkept : (raw.items.filter fun e => (TwuFilter.compute 1 [raw]).passes e.item) = raw.items :=
    List.filter_eq_self.mpr hpasses
  have hlength : raw.items.length = n := by simp [hraw, longRow]
  intro hshort
  have hne : raw.items ≠ [] := List.ne_nil_of_length_pos (by omega)
  have happly := hshort _ (List.mem_filterMap.mpr ⟨raw, List.mem_singleton_self raw,
    by rw [TwuFilterResult.apply, hkept, if_neg hne]⟩)
  rw [(sortByKey_perm _ _).length_eq, hlength] at happly
  omega

/-- A transaction of 65536 items is accepted, and the entry of one of them points
to the start. -/
theorem not_alwaysRight_longRow :
    ¬∀ (source : DataSource) (results : List (Except Fault RawTransaction)) (minUtility : Utility),
      readDb source = .ok results →
        (∀ tx ∈ okOnly results, (tx.items.map ItemEntry.item).Nodup) →
          AlwaysRight source minUtility := by
  intro h
  have hn : FitsI64 ((2 ^ 16 : ℕ) : ℤ) := by norm_num [FitsI64]
  have hread : readDb ([longRow (2 ^ 16) hn].map .ok) =
      .ok ((numbered 0 [longRow (2 ^ 16) hn]).map .ok) := readDb_map_ok _
  have hdistinct : ∀ tx ∈ okOnly ((numbered 0 [longRow (2 ^ 16) hn]).map .ok),
      (tx.items.map ItemEntry.item).Nodup := by
    intro tx htx
    rw [okOnly_map_ok] at htx
    obtain ⟨-, -, row, hrow, hitems, -⟩ := mem_numbered htx
    rw [hitems, List.mem_singleton.mp hrow]
    exact (wellFormed_longRow _ hn).distinct
  have hright := h _ _ 1 hread hdistinct .stored (createCtx 1 none 0) rfl
  apply not_offsetsRight_of_long hread hdistinct ?_ .stored (fun _ => rfl) hright
  rw [okOnly_map_ok]
  exact not_shortRows_longRow hn le_rfl

end Runs

end Efim.Wrapping

end AirHuim
