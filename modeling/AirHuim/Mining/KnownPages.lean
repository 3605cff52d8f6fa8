import AirHuim.Library.Refinement
import AirHuim.Mining.UlSearch

/-!
# What the search asks of the pool

The pool relies on its users for two things: they pin only pages that they have
created, and create no page that is larger than it can take. The search over
utility lists keeps to both. A list has at most as many entries as the first of
the two that it is joined from, so no page is larger than the longest list of a
single item.
-/

namespace AirHuim

open Library

/-- Pages are created with at most `limit` bytes, and only pinned once they exist. -/
def PoolCall (limit : ℕ) : MinerOp → World → Prop
  | .newPage bytes, _ => bytes.length ≤ limit
  | .pin id, w => ∃ bytes, w.pool.Holds id bytes
  | _, _ => True

/-- All pages have ids that were given out, and at most `limit` bytes. -/
structure PagePool.Bounded (limit : ℕ) (p : PagePool) : Prop where
  known : ∀ id bytes, p.pages id = some bytes → id < p.nextPageId
  size : ∀ id bytes, p.pages id = some bytes → bytes.length ≤ limit

theorem PagePool.Bounded.newPage {limit : ℕ} {p : PagePool} (h : p.Bounded limit) {bytes : Bytes}
    (hsize : bytes.length ≤ limit) : (p.newPage bytes).2.Bounded limit := by
  unfold PagePool.newPage
  split
  · exact ⟨fun id b hb => Nat.lt_succ_of_lt (h.known id b hb), h.size⟩
  · refine ⟨fun id b hb => ?_, fun id b hb => ?_⟩
    · by_cases hid : id = p.nextPageId
      · exact hid ▸ Nat.lt_succ_self _
      · dsimp only at hb
        rw [Function.update_of_ne hid] at hb
        exact Nat.lt_succ_of_lt (h.known id b hb)
    · dsimp only at hb
      by_cases hid : id = p.nextPageId
      · rw [hid, Function.update_self] at hb
        cases hb
        exact hsize
      · rw [Function.update_of_ne hid] at hb
        exact h.size id b hb

theorem PagePool.Bounded.pin {limit : ℕ} {p : PagePool} (h : p.Bounded limit) (id : PageId) :
    (p.pin id).2.Bounded limit := by
  unfold PagePool.pin
  dsimp only
  split
  · exact ⟨h.known, h.size⟩
  · split <;> exact ⟨h.known, h.size⟩

theorem bounded_exec {limit : ℕ} (op : MinerOp) {w : World} (h : w.pool.Bounded limit)
    (hop : PoolCall limit op w) : (world.exec op w).2.pool.Bounded limit := by
  cases op with
  | newPage bytes => exact h.newPage hop
  | pin id => exact h.pin id
  | tryAlloc n => exact h
  | free n => exact h
  | writeHui X u => exact h
  | foundHui => exact h
  | getThreshold => exact h
  | update u X => exact h

namespace Task

variable {α β : Type} {limit : ℕ} {t : Task α} {w w' : World} {Q Q' : World → α → Prop}

/-- From a world with bounded pages, the task asks the pool for what it may ask
for, keeps the pages bounded, and ends with `Q` unless it fails. -/
def Careful (limit : ℕ) (t : Task α) (w : World) (Q : World → α → Prop) : Prop :=
  w.pool.Bounded limit → Prog.Safe world (PoolCall limit) t.run w fun r v =>
    v.pool.Bounded limit ∧ w ≤ v ∧ ∀ a, r = .ok a → Q v a

theorem Careful.mono (h : t.Careful limit w Q) (hQ : ∀ v a, w ≤ v → Q v a → Q' v a) :
    t.Careful limit w Q' := fun hw =>
  (h hw).mono fun _ v hr => ⟨hr.1, hr.2.1, fun a ha => hQ v a hr.2.1 (hr.2.2 a ha)⟩

theorem Careful.pure {a : α} (h : Q w a) : (Pure.pure a : Task α).Careful limit w Q := fun hw =>
  ⟨hw, le_rfl, fun _ hb => by cases hb; exact h⟩

theorem Careful.throw (e : Fault) : (MonadExcept.throw e : Task α).Careful limit w Q := fun hw =>
  ⟨hw, le_rfl, fun _ hb => by cases hb⟩

theorem Careful.bind {f : α → Task β} {R : World → β → Prop} (h : t.Careful limit w Q)
    (hf : ∀ v a, w ≤ v → Q v a → (f a).Careful limit v R) : (t >>= f).Careful limit w R := by
  intro hw
  have hrun : (t >>= f).run = Prog.bind t.run (ExceptT.bindCont f) := rfl
  rw [hrun]
  refine Prog.Safe.bind ((h hw).mono fun r v hr => ?_)
  obtain ⟨hbounded, hle, hQ⟩ := hr
  cases r with
  | error e => exact ⟨hbounded, hle, fun _ hb => by cases hb⟩
  | ok a =>
    refine (hf v a hle (hQ a rfl) hbounded).mono fun r' v' hr' => ?_
    exact ⟨hr'.1, hle.trans hr'.2.1, hr'.2.2⟩

theorem Careful.ite {c : Prop} [Decidable c] {t' : Task α} (h : c → t.Careful limit w Q)
    (h' : ¬c → t'.Careful limit w Q) : (if c then t else t').Careful limit w Q := by
  split
  · exact h ‹_›
  · exact h' ‹_›

/-- A single call that cannot fail. -/
theorem Careful.lift (op : MinerOp) (hop : ∀ w, PoolCall limit op w) :
    Careful limit (ExceptT.lift (Prog.perform (I := minerInterface) op) : Task _) w
      fun _ _ => True :=
  fun hw => ⟨hop w, bounded_exec op hw (hop w), World.le_exec op w, fun _ _ => trivial⟩

theorem Careful.newPage {bytes : Bytes} (h : bytes.length ≤ limit) :
    (newPage bytes).Careful limit w fun v id => v.pool.Holds id bytes := by
  intro hw
  refine ⟨h, bounded_exec (.newPage bytes) hw h, World.le_exec _ w, fun id hid => ?_⟩
  simp only [PagePool.newPage] at hid ⊢
  split_ifs at hid ⊢ with hfail
  cases hid
  exact ⟨Nat.lt_succ_self _, Function.update_self ..⟩

theorem Careful.pin {id : PageId} {bytes : Bytes} (h : w.pool.Holds id bytes) :
    (pin id).Careful limit w fun _ b => b.length ≤ limit := by
  intro hw
  refine ⟨⟨bytes, h⟩, bounded_exec (.pin id) hw ⟨bytes, h⟩, World.le_exec _ w,
    fun b hb => ?_⟩
  simp only [PagePool.pin, h.payload] at hb
  split_ifs at hb
  cases hb
  exact hw.size id bytes h.payload

end Task

/-! ## Lists and joins -/

/-- A body of at most `limit` bytes. -/
def UlBody.Within (limit : ℕ) (w : World) : UlBody → Prop
  | .inMemory entries => 20 * entries.length ≤ limit
  | .onDisk id => ∃ bytes, w.pool.Holds id bytes

theorem UlBody.Within.mono {limit : ℕ} {w w' : World} (hw : w ≤ w') {body : UlBody}
    (h : body.Within limit w) : body.Within limit w' := by
  cases body with
  | inMemory entries => exact h
  | onDisk id =>
    obtain ⟨bytes, hbytes⟩ := h
    exact ⟨bytes, hbytes.mono hw⟩

theorem length_serializeUlBody (entries : List ULEntry) :
    (serializeUlBody entries).length = 20 * entries.length := by
  simp [serializeUlBody, List.length_flatMap, Nat.mul_comm]

theorem length_of_deserializeUlBody {bytes : Bytes} {entries : List ULEntry}
    (h : deserializeUlBody bytes = some entries) : 20 * entries.length ≤ bytes.length := by
  unfold deserializeUlBody at h
  split at h
  · cases h
    rw [List.length_map, length_chunksExact]
    exact Nat.mul_div_le _ _
  · cases h

/-- Every match of a join takes an entry of the first body. -/
theorem length_joinBodies_le (prefixBody pxBody pyBody : List ULEntry) :
    (joinBodies prefixBody pxBody pyBody).result.length ≤ pxBody.length := by
  unfold joinBodies
  split
  · have h := measure_intersectWith_le ULEntry.tid ULEntry.tid
      (fun acc : JoinAcc => acc.result.length) (f := joinEntry) (fun acc px py => by
        simp [joinEntry, JoinAcc.push]) ⟨[], 0, 0⟩ pxBody pyBody
    simpa using h
  · have h := measure_intersectWith_le ULEntry.tid ULEntry.tid
      (fun s : List ULEntry × JoinAcc => s.2.result.length) (f := joinEntryPrefix)
      (fun s px py => by simp [joinEntryPrefix, JoinAcc.push])
      (prefixBody, ⟨[], 0, 0⟩) pxBody pyBody
    simpa using h

section Joins

variable {limit : ℕ} {w : World}

theorem getBody_careful {body : UlBody} (h : body.Within limit w) :
    (getBody body).Careful limit w fun _ entries => 20 * entries.length ≤ limit := by
  cases body with
  | inMemory entries => exact Task.Careful.pure h
  | onDisk id =>
    obtain ⟨bytes, hbytes⟩ := h
    refine (Task.Careful.pin hbytes).bind fun v b _ hb => ?_
    cases hentries : deserializeUlBody b with
    | none => exact Task.Careful.throw _
    | some entries => exact Task.Careful.pure ((length_of_deserializeUlBody hentries).trans hb)

theorem joinUtilityLists_careful (itemset : List ItemId) (prefixBody : List ULEntry)
    {pxBody : List ULEntry} (h : 20 * pxBody.length ≤ limit) (pyBody : List ULEntry) :
    (joinUtilityLists itemset prefixBody pxBody pyBody).Careful limit w
      fun v e => e.2.Within limit v := by
  have hlength := length_joinBodies_le prefixBody pxBody pyBody
  unfold joinUtilityLists
  refine Task.Careful.ite (fun _ => ?_) fun _ => ?_
  · have hsize : (serializeUlBody (joinBodies prefixBody pxBody pyBody).result).length ≤ limit := by
      rw [length_serializeUlBody]
      omega
    refine (Task.Careful.newPage hsize).bind fun v id _ hid => ?_
    exact Task.Careful.pure ⟨_, hid⟩
  · apply Task.Careful.pure
    show 20 * _ ≤ limit
    omega

end Joins

/-! ## The search -/

namespace UlMiner

variable {m : UlMiner} {limit : ℕ} {w : World}

/-- Reading the threshold and reporting do not touch the pool's pages wrongly. -/
structure Careful (limit : ℕ) (m : UlMiner) : Prop where
  current : ∀ w, m.current.Careful limit w fun _ _ => True
  report : ∀ w X u t, (m.report X u t).Careful limit w fun _ _ => True

theorem reportIfHigh_careful (hm : m.Careful limit) (ul : UtilityList) (itemset : List ItemId)
    (t : Utility) : (m.reportIfHigh ul itemset t).Careful limit w fun _ _ => True :=
  Task.Careful.ite (fun _ => hm.report w _ _ _) fun _ => Task.Careful.pure trivial

/-- The bodies of the extensions are within the limit. -/
abbrev BodiesWithin (limit : ℕ) (w : World) (exts : List Extension) : Prop :=
  ∀ e ∈ exts, e.2.Within limit w

theorem BodiesWithin.mono {w' : World} (hw : w ≤ w') {exts : List Extension}
    (h : BodiesWithin limit w exts) : BodiesWithin limit w' exts :=
  fun e he => (h e he).mono hw

theorem BodiesWithin.cons {e : Extension} {exts : List Extension} (he : e.2.Within limit w)
    (h : BodiesWithin limit w exts) : BodiesWithin limit w (e :: exts) :=
  List.forall_mem_cons.mpr ⟨he, h⟩

theorem nextExtensions_careful (prefixBody : List ULEntry) (ulPx : UtilityList)
    {bodyPx : List ULEntry} (hbody : 20 * bodyPx.length ≤ limit) (itemX : ItemId) (t : Utility)
    {exts : List Extension} (h : BodiesWithin limit w exts) :
    (m.nextExtensions prefixBody ulPx bodyPx itemX t exts).Careful limit w
      fun v next => BodiesWithin limit v next := by
  induction exts generalizing w with
  | nil => exact Task.Careful.pure fun _ he => (List.not_mem_nil he).elim
  | cons e exts ih =>
    obtain ⟨he, hexts⟩ := List.forall_mem_cons.mp h
    unfold nextExtensions
    cases e.1.itemset.getLast? with
    | none => exact Task.Careful.throw _
    | some itemY =>
      refine Task.Careful.ite (fun _ => ih hexts) fun _ => ?_
      refine (getBody_careful he).bind fun v entriesPy hv _ => ?_
      refine (joinUtilityLists_careful _ _ hbody _).bind fun v' new hv' hnew => ?_
      refine (ih (BodiesWithin.mono (hv.trans hv') hexts)).bind fun v'' rest hv'' hrest => ?_
      exact Task.Careful.pure (BodiesWithin.cons (hnew.mono hv'') hrest)

theorem firstExtensions_careful (itemX : ItemId) {bodyX : List ULEntry}
    (hbody : 20 * bodyX.length ≤ limit) (t : Utility) (items : List ItemList) :
    (m.firstExtensions itemX bodyX t items).Careful limit w
      fun v next => BodiesWithin limit v next := by
  induction items generalizing w with
  | nil => exact Task.Careful.pure fun _ he => (List.not_mem_nil he).elim
  | cons e items ih =>
    unfold firstExtensions
    refine Task.Careful.ite (fun _ => ih) fun _ => ?_
    refine (joinUtilityLists_careful _ _ hbody _).bind fun v new _ hnew => ?_
    refine ih.bind fun v' rest hv' hrest => ?_
    exact Task.Careful.pure (BodiesWithin.cons (hnew.mono hv') hrest)

/-- One pass of the loop, over any search of the level below. -/
theorem visit_careful (hm : m.Careful limit) {descend : List ULEntry → List Extension → Task Unit}
    (hdescend : ∀ (v : World) body exts, 20 * body.length ≤ limit → BodiesWithin limit v exts →
      (descend body exts).Careful limit v fun _ _ => True)
    (prefixBody : List ULEntry) (ulPx : UtilityList) {bodyPx : UlBody}
    (hbody : bodyPx.Within limit w) {later : List Extension} (h : BodiesWithin limit w later) :
    (m.visit descend prefixBody ulPx bodyPx later).Careful limit w fun _ _ => True := by
  refine (hm.current w).bind fun v t hv _ => ?_
  refine Task.Careful.ite (fun _ => Task.Careful.pure trivial) fun _ => ?_
  refine (getBody_careful (hbody.mono hv)).bind fun v₁ entriesPx hv₁ hentries => ?_
  cases ulPx.itemset.getLast? with
  | none => exact Task.Careful.throw _
  | some itemX =>
    refine (reportIfHigh_careful hm _ _ _).bind fun v₂ t' hv₂ _ => ?_
    have hlater : BodiesWithin limit v₂ later := BodiesWithin.mono ((hv.trans hv₁).trans hv₂) h
    refine (nextExtensions_careful _ _ hentries _ _ hlater).bind fun v₃ next _ hnext => ?_
    exact Task.Careful.ite (fun _ => Task.Careful.pure trivial)
      fun _ => hdescend v₃ entriesPx next hentries hnext

theorem search_careful (hm : m.Careful limit) (fuel : ℕ) {prefixBody : List ULEntry}
    (hbody : 20 * prefixBody.length ≤ limit) {exts : List Extension}
    (h : BodiesWithin limit w exts) :
    (m.search fuel prefixBody exts).Careful limit w fun _ _ => True := by
  induction fuel generalizing prefixBody exts w with
  | zero => exact Task.Careful.throw _
  | succ fuel ih =>
    unfold search
    induction exts generalizing w with
    | nil => exact Task.Careful.pure trivial
    | cons e exts ihexts =>
      obtain ⟨he, hexts⟩ := List.forall_mem_cons.mp h
      refine (visit_careful hm (fun v body next hb hnext => ih hb hnext) _ _ he hexts).bind
        fun v _ hv _ => ?_
      exact ihexts (BodiesWithin.mono hv hexts)

/-- The tasks of items whose lists are within the limit. -/
theorem itemTasks_careful (hm : m.Careful limit) {items : List ItemList}
    (h : ∀ e ∈ items, 20 * e.2.2.length ≤ limit) :
    ∀ task ∈ m.itemTasks items, ∀ w : World, task.Careful limit w fun _ _ => True := by
  induction items with
  | nil => exact fun _ htask => (List.not_mem_nil htask).elim
  | cons e later ih =>
    obtain ⟨he, hlater⟩ := List.forall_mem_cons.mp h
    intro task htask w
    rcases List.mem_cons.mp htask with rfl | htask
    · refine (hm.current w).bind fun v t _ _ => ?_
      refine Task.Careful.ite (fun _ => Task.Careful.pure trivial) fun _ => ?_
      refine (reportIfHigh_careful hm _ _ _).bind fun v₁ t' _ _ => ?_
      refine (firstExtensions_careful _ he _ _).bind fun v₂ exts _ hexts => ?_
      exact Task.Careful.ite (fun _ => Task.Careful.pure trivial)
        fun _ => search_careful hm _ he hexts
    · exact ih hlater task htask w

end UlMiner

end AirHuim
