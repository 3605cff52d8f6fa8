import AirHuim.Mining.Algorithms.EfimWrapping

/-!
# Spilling is transparent

What `mine_efim` emits is a function of the projection's entries. Which of the
projections on the way are kept in memory and which go through a page and back
is up to the guard's answers, and leaves no trace in the output: a valid entry
survives its 24 bytes. The sums wrap around, so that the entries that are made of
valid ones are valid again, whatever the utilities are.
-/

namespace AirHuim

open Library

namespace Efim

/-- The entry points into the database, and its fields are in the ranges of their types. -/
structure ProjTx.Valid (db : List OriginalTx) (p : ProjTx) : Prop where
  txIdx : p.txIdx < db.length
  offset : p.offset ≤ (db.getD p.txIdx default).items.length
  txIdx_lt : p.txIdx < 2 ^ 32
  offset_lt : p.offset < 2 ^ 16
  prefixUtility : FitsI64 p.prefixUtility
  pathUtility : FitsI64 p.pathUtility

/-- The items after an entry, which are fewer at each step. -/
def ProjTx.remaining (db : List OriginalTx) (p : ProjTx) : ℕ :=
  (db.getD p.txIdx default).items.length - p.offset

/-- Hash maps that yield the key stored last first. -/
def HashOrder.reversed : HashOrder := ⟨fun _ keys => keys.reverse, fun _ _ => List.reverse_perm _⟩

namespace Wrapping

/-! ## The recursion over entries -/

section Emits

variable (env : Env)

/-- The lines of one part and then those of another; `none` if either does not end. -/
def thenLines : Option (List Line) → Option (List Line) → Option (List Line)
  | some lines, some lines' => some (lines ++ lines')
  | _, _ => none

def highLines (itemset : List ItemId) (util : Utility) : List Line :=
  if env.minUtil ≤ util then [(itemset, util)] else []

/-- What an extension emits, given what is emitted below it. -/
def visitEmits (below : List ItemId → List ProjTx → Option (List Line)) (itemset : List ItemId)
    (proj : List ProjTx) (lu : Table ItemId Utility) (item : ItemId) : Option (List Line) :=
  if (lu.lookup item).getD 0 < env.minUtil then some []
  else
    let (newProj, itemUtil) := project env.db proj item
    if newProj = [] then some []
    else thenLines (some (highLines env (itemset ++ [item]) itemUtil))
      (below (itemset ++ [item]) newProj)

def visitAllEmits (below : List ItemId → List ProjTx → Option (List Line)) (itemset : List ItemId)
    (proj : List ProjTx) (lu : Table ItemId Utility) : List ItemId → Option (List Line)
  | [] => some []
  | item :: rest =>
    thenLines (visitEmits env below itemset proj lu item)
      (visitAllEmits below itemset proj lu rest)

/-- The lines of the recursion without any memory: what it emits for a list of
entries, if it ends within the bound. -/
def emits : ℕ → List ItemId → List ProjTx → Option (List Line)
  | 0, _, _ => none
  | _ + 1, _, [] => some []
  | fuel + 1, itemset, first :: rest =>
    let maps := bounds env.db (first :: rest)
    visitAllEmits env (emits fuel) itemset (first :: rest) maps.1
      (validExtensions env itemset first maps.2)

end Emits

/-! ## Entries -/

section Entries

variable {db : List OriginalTx} {proj : List ProjTx} {p q : ProjTx} {item : ItemId}

theorem fst_foldl_pushProj {α : Type*} (g : α → Option ProjTx) (as : List α)
    (acc : List ProjTx × Utility) :
    (as.foldl (fun acc a => pushProj acc (g a)) acc).1 = acc.1 ++ as.filterMap g := by
  induction as generalizing acc with
  | nil => simp
  | cons a as ih =>
    rw [List.foldl_cons, ih]
    cases hg : g a with
    | none => simp [pushProj, hg]
    | some p => simp [pushProj, hg]

theorem mem_project : q ∈ (project db proj item).1 ↔
    ∃ p ∈ proj, projectTx (db.getD p.txIdx default) p item = some q := by
  rw [project, fst_foldl_pushProj, List.nil_append, List.mem_filterMap]

/-- An entry that is made of another, field by field. -/
theorem projectTx_some {tx : OriginalTx} (h : projectTx tx p item = some q) :
    ∃ pos, (tx.items.drop p.offset)[pos]? = some item ∧ q.txIdx = p.txIdx ∧
      q.offset = (p.offset + pos + 1) % 2 ^ 16 ∧ FitsI64 q.prefixUtility ∧
      FitsI64 q.pathUtility := by
  unfold projectTx at h
  cases hpos : (tx.items.drop p.offset).idxOf? item with
  | none =>
    rw [hpos] at h
    cases h
  | some pos =>
    rw [hpos] at h
    cases h
    obtain ⟨hlt, hget, -⟩ := List.idxOf?_eq_some_iff.mp hpos
    exact ⟨pos, by rw [List.getElem?_eq_getElem hlt, hget], rfl, rfl, fitsI64_wrapI64 _,
      fitsI64_wrapI64 _⟩

theorem valid_projectTx (h : p.Valid db)
    (hq : projectTx (db.getD p.txIdx default) p item = some q) : q.Valid db := by
  obtain ⟨pos, hpos, htx, hoffset, hprefix, hpath⟩ := projectTx_some hq
  have hlt := (List.getElem?_eq_some_iff.mp hpos).1
  have hmod : q.offset ≤ p.offset + pos + 1 := hoffset.trans_le (Nat.mod_le _ _)
  rw [List.length_drop] at hlt
  constructor
  · rw [htx]
    exact h.txIdx
  · rw [htx]
    omega
  · rw [htx]
    exact h.txIdx_lt
  · rw [hoffset]
    exact Nat.mod_lt _ (by norm_num)
  · exact hprefix
  · exact hpath

theorem valid_project (h : ∀ p ∈ proj, p.Valid db) (item : ItemId) :
    ∀ q ∈ (project db proj item).1, q.Valid db := by
  intro q hq
  obtain ⟨p, hp, hpq⟩ := mem_project.mp hq
  exact valid_projectTx (h p hp) hpq

theorem ofBytes_toBytes_of_valid (h : ∀ p ∈ proj, p.Valid db) :
    ∀ p ∈ proj, ProjTx.ofBytes p.toBytes = p := fun p hp =>
  ofBytes_toBytes (h p hp).txIdx_lt (h p hp).offset_lt (h p hp).prefixUtility (h p hp).pathUtility

end Entries

/-! ## The recursion in memory and on pages -/

section Specs

variable {env : Env} {w : World} {descend : List ItemId → EfimProj → Task Unit}
  {below : List ItemId → List ProjTx → Option (List Line)} {itemset : List ItemId}
  {proj : List ProjTx}

/-- The task emits these lines and ends, or if there are none it gets stuck. -/
def Emits (lines : Option (List Line)) (t : Task Unit) (w : World) : Prop :=
  ∀ E : Fault → Prop, (lines = none → E .stuck) →
    Task.Spec E t w fun out _ _ => ∃ ls, lines = some ls ∧ out = ls.flatMap writeOps

theorem emits_pure (w : World) : Emits (some []) (return ()) w :=
  fun _ _ => Task.Spec.pure fun _ _ => ⟨[], rfl, rfl⟩

theorem emits_writeIfHigh (env : Env) (itemset : List ItemId) (util : Utility) (w : World) :
    Emits (some (highLines env itemset util)) (writeIfHigh env itemset util) w := by
  intro E _
  unfold writeIfHigh highLines
  split_ifs
  · refine (Task.writeAndCount_spec itemset util).mono le_rfl ?_
    rintro _ _ _ rfl
    exact ⟨_, rfl, by simp⟩
  · exact Task.Spec.pure fun _ _ => ⟨[], rfl, rfl⟩

theorem Emits.bind {lines lines' : Option (List Line)} {t t' : Task Unit} (h : Emits lines t w)
    (h' : ∀ v, w ≤ v → Emits lines' t' v) :
    Emits (thenLines lines lines') (do t; t') w := by
  intro E hE
  refine (h E fun hnone => hE (by rw [hnone]; rfl)).bind ?_
  rintro _ v _ hv ⟨ls, hls, rfl⟩
  refine (h' v hv E fun hnone => hE (by rw [hls, hnone]; rfl)).mono le_rfl ?_
  rintro _ _ _ ⟨ls', hls', rfl⟩
  exact ⟨ls ++ ls', by rw [hls, hls']; rfl, by rw [List.flatMap_append]⟩

/-- A new itemset is written, and what lies below it, whether its projection is
kept or spilled. -/
theorem emits_explore (hpool : Task.Allows (fun _ => False) w) {lines : Option (List Line)}
    (hdescend : ∀ p v, w ≤ v → p.Holds v proj → Emits lines (descend itemset p) v)
    (util : Utility) :
    Emits (thenLines (some (highLines env itemset util)) lines)
      (explore env descend itemset proj util) w := by
  unfold explore
  refine (emits_writeIfHigh env itemset util w).bind fun v hv => ?_
  intro E hE
  refine Task.Spec.bind_silent (keep_spec (hpool.mono hv) proj) ?_
  rintro v' _ hv' ⟨p, rfl, hp⟩
  refine (hdescend p v' (hv.trans hv') hp E hE).bind ?_
  intro out v'' _ _ hout
  refine (Task.free_spec _).mono le_rfl ?_
  rintro _ _ _ ⟨rfl, -⟩
  rw [List.append_nil]
  exact hout

theorem emits_visitAll (hpool : Task.Allows (fun _ => False) w) (lu : Table ItemId Utility)
    (hdescend : ∀ item p v, w ≤ v → p.Holds v (project env.db proj item).1 →
      Emits (below (itemset ++ [item]) (project env.db proj item).1)
        (descend (itemset ++ [item]) p) v) (es : List ItemId) :
    Emits (visitAllEmits env below itemset proj lu es)
      (visitAll env descend itemset proj lu es) w := by
  induction es generalizing w with
  | nil => exact emits_pure w
  | cons item es ih =>
    have hvisit : Emits (visitEmits env below itemset proj lu item)
        (visit env descend itemset proj lu item) w := by
      unfold visitEmits visit
      split_ifs
      · exact emits_pure w
      · dsimp only
        split_ifs
        · exact emits_pure w
        · exact emits_explore hpool (hdescend item) _
    exact hvisit.bind fun v hv => ih (hpool.mono hv) fun item p v' hv' =>
      hdescend item p v' (hv.trans hv')

/-- `mine_efim` emits what the recursion over the entries does. -/
theorem emits_mineEfim (hpool : Task.Allows (fun _ => False) w) (fuel : ℕ) (itemset : List ItemId)
    (hvalid : ∀ p ∈ proj, p.Valid env.db) {p : EfimProj}
    (hp : p.Holds w proj) :
    Emits (emits env fuel itemset proj) (mineEfim env fuel itemset p) w := by
  induction fuel generalizing itemset proj p w with
  | zero => exact fun E hE => fun _ _ => hE rfl
  | succ fuel ih =>
    intro E hE
    unfold mineEfim
    refine Task.Spec.bind_silent (resolve_of_holds hpool (ofBytes_toBytes_of_valid hvalid) hp) ?_
    rintro v _ hv rfl
    cases proj with
    | nil => exact emits_pure v E hE
    | cons first rest =>
      refine emits_visitAll (hpool.mono hv) _ (fun item p v' hv' hp' => ?_) _ E hE
      exact ih ((hpool.mono hv).mono hv') (itemset ++ [item]) (valid_project hvalid item) hp'

end Specs

/-! ## The order of the extensions -/

section Orders

variable {db : List OriginalTx} {minUtil : Utility} {order order' : HashOrder}

/-- The same lines, in some order, or no end in either case. -/
abbrev SameLines : Option (List Line) → Option (List Line) → Prop := Option.Rel List.Perm

theorem SameLines.refl (lines : Option (List Line)) : SameLines lines lines := by
  cases lines with
  | none => exact .none
  | some ls => exact .some (List.Perm.refl ls)

theorem SameLines.trans {a b c : Option (List Line)} (h : SameLines a b) (h' : SameLines b c) :
    SameLines a c := by
  cases h with
  | none => exact h'
  | some hab =>
    cases h' with
    | some hbc => exact .some (hab.trans hbc)

theorem SameLines.thenLines {a a' b b' : Option (List Line)} (ha : SameLines a a')
    (hb : SameLines b b') : SameLines (thenLines a b) (thenLines a' b') := by
  cases ha with
  | none => exact .none
  | some ha =>
    cases hb with
    | none => exact .none
    | some hb => exact .some (ha.append hb)

theorem thenLines_comm (a b c : Option (List Line)) :
    SameLines (thenLines a (thenLines b c)) (thenLines b (thenLines a c)) := by
  cases a <;> cases b <;> cases c
  all_goals first
    | exact .none
    | (refine .some ?_
       simp only [← List.append_assoc]
       exact List.perm_append_comm.append_right _)

theorem visitAllEmits_congr {below below' : List ItemId → List ProjTx → Option (List Line)}
    (hbelow : ∀ itemset proj, SameLines (below itemset proj) (below' itemset proj))
    (itemset : List ItemId) (proj : List ProjTx) (lu : Table ItemId Utility) (es : List ItemId) :
    SameLines (visitAllEmits ⟨db, minUtil, order⟩ below itemset proj lu es)
      (visitAllEmits ⟨db, minUtil, order'⟩ below' itemset proj lu es) := by
  induction es with
  | nil => exact .refl _
  | cons item es ih =>
    apply SameLines.thenLines _ ih
    unfold visitEmits
    split_ifs
    · exact .refl _
    · dsimp only
      split_ifs
      · exact .refl _
      · exact (SameLines.refl _).thenLines (hbelow _ _)

theorem visitAllEmits_perm (env : Env) (below : List ItemId → List ProjTx → Option (List Line))
    (itemset : List ItemId) (proj : List ProjTx) (lu : Table ItemId Utility)
    {es es' : List ItemId} (h : es.Perm es') :
    SameLines (visitAllEmits env below itemset proj lu es)
      (visitAllEmits env below itemset proj lu es') := by
  induction h with
  | nil => exact .refl _
  | cons item _ ih => exact (SameLines.refl _).thenLines ih
  | swap item item' es => exact thenLines_comm _ _ _
  | trans _ _ ih ih' => exact ih.trans ih'

theorem validExtensions_perm (itemset : List ItemId) (first : ProjTx)
    (su : Table ItemId Utility) :
    (validExtensions ⟨db, minUtil, order⟩ itemset first su).Perm
      (validExtensions ⟨db, minUtil, order'⟩ itemset first su) := by
  have hkeys : (order.order itemset su.keys).Perm (order'.order itemset su.keys) :=
    (order.perm itemset su.keys).trans (order'.perm itemset su.keys).symm
  exact (sortByKey_perm _ _).trans ((hkeys.filter _).trans (sortByKey_perm _ _).symm)

/-- The hash maps' orders do not matter either. -/
theorem emits_order (order order' : HashOrder) (fuel : ℕ) (itemset : List ItemId)
    (proj : List ProjTx) :
    SameLines (emits ⟨db, minUtil, order⟩ fuel itemset proj)
      (emits ⟨db, minUtil, order'⟩ fuel itemset proj) := by
  induction fuel generalizing itemset proj with
  | zero => exact .none
  | succ fuel ih =>
    cases proj with
    | nil => exact .refl _
    | cons first rest =>
      have hes : (validExtensions ⟨db, minUtil, order⟩ itemset first
          (bounds db (first :: rest)).2).Perm
          (validExtensions ⟨db, minUtil, order'⟩ itemset first (bounds db (first :: rest)).2) :=
        validExtensions_perm itemset first _
      have hperm := visitAllEmits_perm ⟨db, minUtil, order⟩ (emits ⟨db, minUtil, order⟩ fuel)
        itemset (first :: rest) (bounds db (first :: rest)).1 hes
      exact hperm.trans (visitAllEmits_congr ih itemset (first :: rest) _ _)

end Orders

/-! ## The end of the recursion -/

/-- `fuel` is a bound that the recursion does not reach: no transaction is that
long, and positions are `u16`s. -/
structure Bounded (db : List OriginalTx) (fuel : ℕ) : Prop where
  pos : 0 < fuel
  lt_fuel : ∀ tx ∈ db, tx.items.length < fuel
  lt_offset : ∀ tx ∈ db, tx.items.length < 2 ^ 16

section Ends

variable {env : Env} {proj : List ProjTx} {fuel : ℕ}

theorem getD_mem {db : List OriginalTx} {i : ℕ} (h : i < db.length) :
    db.getD i default ∈ db := by
  have hget : db.getD i default = db[i] := by
    simp [List.getD_eq_getElem?_getD, List.getElem?_eq_getElem h]
  rw [hget]
  exact List.getElem_mem h

theorem remaining_project {db : List OriginalTx} (hlen : ∀ tx ∈ db, tx.items.length < 2 ^ 16)
    (hvalid : ∀ p ∈ proj, p.Valid db) (hfuel : ∀ p ∈ proj, p.remaining db < fuel + 1)
    (item : ItemId) : ∀ q ∈ (project db proj item).1, q.remaining db < fuel := by
  intro q hq
  obtain ⟨p, hp, hpq⟩ := mem_project.mp hq
  obtain ⟨pos, hpos, htx, hoffset, -⟩ := projectTx_some hpq
  have hlt := (List.getElem?_eq_some_iff.mp hpos).1
  have hshort := hlen _ (getD_mem (hvalid p hp).txIdx)
  have hless := hfuel p hp
  unfold ProjTx.remaining at hless ⊢
  rw [List.length_drop] at hlt
  rw [htx, hoffset, Nat.mod_eq_of_lt (by omega)]
  omega

theorem visitAllEmits_isSome {below : List ItemId → List ProjTx → Option (List Line)}
    {itemset : List ItemId} (hbelow : ∀ item, (project env.db proj item).1 ≠ [] →
      (below (itemset ++ [item]) (project env.db proj item).1).isSome)
    (lu : Table ItemId Utility) (es : List ItemId) :
    (visitAllEmits env below itemset proj lu es).isSome := by
  induction es with
  | nil => rfl
  | cons item es ih =>
    have hvisit : (visitEmits env below itemset proj lu item).isSome := by
      unfold visitEmits
      split_ifs
      · rfl
      · dsimp only
        split_ifs with hnil
        · rfl
        · obtain ⟨lines, hlines⟩ := Option.isSome_iff_exists.mp (hbelow item hnil)
          rw [hlines]
          rfl
    obtain ⟨lines, hlines⟩ := Option.isSome_iff_exists.mp hvisit
    obtain ⟨lines', hlines'⟩ := Option.isSome_iff_exists.mp ih
    rw [visitAllEmits, hlines, hlines']
    rfl

/-- The recursion ends: it is deeper than no suffix is long. -/
theorem emits_isSome (hlen : ∀ tx ∈ env.db, tx.items.length < 2 ^ 16)
    (hvalid : ∀ p ∈ proj, p.Valid env.db) (hpos : 0 < fuel)
    (hfuel : ∀ p ∈ proj, p.remaining env.db < fuel) (itemset : List ItemId) :
    (emits env fuel itemset proj).isSome := by
  induction fuel generalizing itemset proj with
  | zero => exact absurd hpos (lt_irrefl 0)
  | succ fuel ih =>
    cases proj with
    | nil => rfl
    | cons first rest =>
      refine visitAllEmits_isSome (fun item hne => ?_) _ _
      have hless := remaining_project hlen hvalid hfuel item
      obtain ⟨q, hq⟩ := List.exists_mem_of_ne_nil _ hne
      exact ih (valid_project hvalid item) (by have := hless q hq; omega) hless _

theorem Bounded.emits_isSome (h : Bounded env.db fuel) (hvalid : ∀ p ∈ proj, p.Valid env.db)
    (itemset : List ItemId) : (emits env fuel itemset proj).isSome := by
  refine Wrapping.emits_isSome h.lt_offset hvalid h.pos (fun p hp => ?_) itemset
  have := h.lt_fuel _ (getD_mem (hvalid p hp).txIdx)
  unfold ProjTx.remaining
  omega

end Ends

/-! ## Two runs -/

section Runs

variable {db : List OriginalTx} {minUtil : Utility} {proj : List ProjTx} {env : Env} {w : World}

/-- A call of `mine_efim`, alone: its result and the world it leaves. -/
def mined (env : Env) (fuel : ℕ) (itemset : List ItemId) (p : EfimProj) (w : World) :
    Except Fault Unit × World :=
  (mineEfim env fuel itemset p).run.run world w

theorem mined_spec (hpool : ∀ n, w.pool.fails n = false) (fuel : ℕ) (itemset : List ItemId)
    (hvalid : ∀ p ∈ proj, p.Valid env.db) {p : EfimProj} (hp : p.Holds w proj) :
    (emits env fuel itemset proj = none ∧ (mined env fuel itemset p w).1 = .error .stuck) ∨
      ∃ lines, emits env fuel itemset proj = some lines ∧ (mined env fuel itemset p w).1 = .ok () ∧
        (mined env fuel itemset p w).2.lines = w.lines ++ lines := by
  have hallows : Task.Allows (fun _ => False) w := fun n hn => by simp [hpool n] at hn
  have hspec := emits_mineEfim hallows fuel itemset hvalid hp
    (fun e => e = .stuck ∧ emits env fuel itemset proj = none) fun hnone => ⟨rfl, hnone⟩
  obtain ⟨calls, hend, hworld, -⟩ := hspec.run
  unfold mined
  cases hresult : ((mineEfim env fuel itemset p).run.run world w).1 with
  | error e =>
    rw [hresult] at hend
    obtain ⟨rfl, hnone⟩ := hend
    exact Or.inl ⟨hnone, rfl⟩
  | ok a =>
    rw [hresult] at hend
    obtain ⟨lines, hlines, hout⟩ := hend
    refine Or.inr ⟨lines, hlines, rfl, ?_⟩
    rw [hworld, lines_replay, hout, filterMap_line?_writeOps]

/-- Two calls of `mine_efim` for one projection, over pools that do not fail,
whatever their guards answer and however their hash maps are ordered: both end
and have written the same itemsets and utilities, or neither ends, which is so
only if the recursion can outrun the bound. -/
theorem spill_transparent (hvalid : ∀ p ∈ proj, p.Valid db) (order order' : HashOrder) (fuel : ℕ)
    (w w' : World) (hpool : ∀ n, w.pool.fails n = false) (hpool' : ∀ n, w'.pool.fails n = false)
    (p p' : EfimProj) (hp : p.Holds w proj) (hp' : p'.Holds w' proj) :
    ((mined ⟨db, minUtil, order⟩ fuel itemset p w).1 = .error .stuck ∧
        (mined ⟨db, minUtil, order'⟩ fuel itemset p' w').1 = .error .stuck ∧ ¬Bounded db fuel) ∨
      (mined ⟨db, minUtil, order⟩ fuel itemset p w).1 = .ok () ∧
        (mined ⟨db, minUtil, order'⟩ fuel itemset p' w').1 = .ok () ∧
        ∃ lines lines', (mined ⟨db, minUtil, order⟩ fuel itemset p w).2.lines = w.lines ++ lines ∧
          (mined ⟨db, minUtil, order'⟩ fuel itemset p' w').2.lines = w'.lines ++ lines' ∧
          lines.Perm lines' ∧ emitted lines = emitted lines' := by
  have hsame : SameLines (emits ⟨db, minUtil, order⟩ fuel itemset proj)
      (emits ⟨db, minUtil, order'⟩ fuel itemset proj) := emits_order order order' fuel itemset proj
  have hvalid₁ : ∀ p ∈ proj, p.Valid (⟨db, minUtil, order⟩ : Env).db := hvalid
  have hvalid₂ : ∀ p ∈ proj, p.Valid (⟨db, minUtil, order'⟩ : Env).db := hvalid
  rcases mined_spec hpool fuel itemset hvalid₁ hp
    with ⟨hnone, hstuck⟩ | ⟨lines, hlines, hok, hwritten⟩
  all_goals
    rcases mined_spec hpool' fuel itemset hvalid₂ hp'
      with ⟨hnone', hstuck'⟩ | ⟨lines', hlines', hok', hwritten'⟩
  · refine Or.inl ⟨hstuck, hstuck', fun hbounded => ?_⟩
    have hends : (emits ⟨db, minUtil, order⟩ fuel itemset proj).isSome :=
      Bounded.emits_isSome hbounded hvalid₁ itemset
    rw [hnone] at hends
    cases hends
  · rw [hnone, hlines'] at hsame
    cases hsame
  · rw [hlines, hnone'] at hsame
    cases hsame
  · rw [hlines, hlines'] at hsame
    cases hsame with
    | some hperm =>
      exact Or.inr ⟨hok, hok', lines, lines', hwritten, hwritten', hperm, emitted_perm hperm⟩

/-- The projection of item 1 in two transactions, the second of which has a
negative utility. -/
def tinyEntries : List OriginalTx × List ProjTx :=
  ([⟨[1, 2, 3], [5, 6, 7], [13, 7, 0]⟩, ⟨[1, 3], [5, -2], [-2, 0]⟩],
    [⟨0, 1, 5, 18⟩, ⟨1, 1, 5, 3⟩])

/-- A page with the entries, and a guard that refuses everything. -/
def spilledWorld : World :=
  ⟨⟨fun _ => some (tinyEntries.2.flatMap ProjTx.toBytes), 1, 0, fun _ => false⟩,
    ⟨0, 0, fun _ _ _ => false⟩, [], 0, .empty 0⟩

/-- The projection on that page, against the projection in memory under a guard
with room for every one. -/
theorem spill_transparent_tinyEntries :
    ∃ lines lines',
      (mined ⟨tinyEntries.1, 4, .stored⟩ 4 [1] (.onDisk 0 2) spilledWorld).2.lines = lines ∧
      (mined ⟨tinyEntries.1, 4, .reversed⟩ 4 [1] (.inMemory tinyEntries.2)
        (.fresh 1000)).2.lines = lines' ∧
      emitted lines = emitted lines' := by
  have hvalid : ∀ p ∈ tinyEntries.2, p.Valid tinyEntries.1 := by
    intro p hp
    simp only [tinyEntries, List.mem_cons, List.not_mem_nil, or_false] at hp
    rcases hp with rfl | rfl
    all_goals exact ⟨by decide, by decide, by norm_num, by norm_num, by decide, by decide⟩
  have hbounded : Bounded tinyEntries.1 4 := ⟨by decide, by decide, by decide⟩
  have hspilled : (EfimProj.onDisk 0 2).Holds spilledWorld tinyEntries.2 :=
    ⟨⟨Nat.one_pos, rfl⟩, rfl⟩
  rcases spill_transparent hvalid .stored .reversed 4 spilledWorld (.fresh 1000) (fun _ => rfl)
      (fun _ => rfl) _ (.inMemory tinyEntries.2) hspilled rfl
    with ⟨-, -, hunbounded⟩ | ⟨-, -, lines, lines', hlines, hlines', -, hsame⟩
  · exact absurd hbounded hunbounded
  · exact ⟨lines, lines', hlines, hlines', hsame⟩

end Runs

end Wrapping

end Efim

end AirHuim
