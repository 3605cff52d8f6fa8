import AirHuim.Library.Intersect
import AirHuim.Mining.TaskLogic

/-!
# Utility lists and their join

The utility list of an itemset has one entry for each filtered transaction that
contains it: what the itemset is worth there, and what the items after its last
one are worth. Long lists live in the pool as 20-byte records. The main result
is that the join of the lists of `P ∪ {y}` and `P ∪ {z}` is the list of
`P ∪ {y, z}`, whether or not it is written to a page.
-/

namespace AirHuim

open Library Basket

structure ULEntry where
  tid : ℕ
  iutils : Utility
  rutils : Utility
  deriving DecidableEq, Repr

inductive RecomputeFlag
  | materialized
  | recomputable
  deriving DecidableEq, Repr

structure UtilityList where
  itemset : List ItemId
  sumIutils : Utility
  sumRutils : Utility
  len : ℕ
  pageId : PageId
  resident : Bool
  recompute : RecomputeFlag
  deriving DecidableEq, Repr

namespace UtilityList

def twu (ul : UtilityList) : Utility := ul.sumIutils + ul.sumRutils

def canPrune (ul : UtilityList) (minUtility : Utility) : Bool :=
  ul.len = 0 || ul.twu < minUtility

def isHighUtility (ul : UtilityList) (minUtility : Utility) : Bool :=
  0 < ul.len && minUtility ≤ ul.sumIutils

end UtilityList

inductive UlBody
  | inMemory (entries : List ULEntry)
  | onDisk (pageId : PageId)
  deriving DecidableEq, Repr

def materializeThresholdBytes : ℕ := 4096

def ULEntry.toBytes (e : ULEntry) : Bytes := leBytes 4 e.tid ++ i64ToLe e.iutils ++ i64ToLe e.rutils

def serializeUlBody (entries : List ULEntry) : Bytes := entries.flatMap ULEntry.toBytes

/-- `None` where the length assertion fails. -/
def deserializeUlBody (bytes : Bytes) : Option (List ULEntry) :=
  if bytes.length % 20 = 0 then
    some ((chunksExact 20 bytes).map fun chunk =>
      ⟨ofLeBytes (chunk.take 4), i64OfLe ((chunk.drop 4).take 8), i64OfLe ((chunk.drop 12).take 8)⟩)
  else none

/-- The variables of the join's loops. -/
structure JoinAcc where
  result : List ULEntry
  sumIutils : Utility
  sumRutils : Utility

def JoinAcc.push (acc : JoinAcc) (e : ULEntry) : JoinAcc :=
  ⟨acc.result ++ [e], acc.sumIutils + e.iutils, acc.sumRutils + e.rutils⟩

/-- A common tid in the join of two 1-itemsets. -/
def joinEntry (acc : JoinAcc) (px py : ULEntry) : JoinAcc :=
  acc.push ⟨px.tid, px.iutils + py.iutils, py.rutils⟩

/-- A common tid in the 3-pointer merge; the first component is what the prefix
pointer has not passed yet. -/
def joinEntryPrefix (s : List ULEntry × JoinAcc) (px py : ULEntry) : List ULEntry × JoinAcc :=
  let rest := s.1.dropWhile fun p => p.tid < px.tid
  let prefixIutils := match rest with
    | p :: _ => if p.tid = px.tid then p.iutils else 0
    | [] => 0
  (rest, s.2.push ⟨px.tid, px.iutils + py.iutils - prefixIutils, py.rutils⟩)

def joinBodies (prefixBody pxBody pyBody : List ULEntry) : JoinAcc :=
  if prefixBody = [] then
    intersectWith ULEntry.tid ULEntry.tid joinEntry ⟨[], 0, 0⟩ pxBody pyBody
  else
    (intersectWith ULEntry.tid ULEntry.tid joinEntryPrefix (prefixBody, ⟨[], 0, 0⟩) pxBody pyBody).2

def joinUtilityLists (itemset : List ItemId) (prefixBody pxBody pyBody : List ULEntry) :
    Task (UtilityList × UlBody) := do
  let acc := joinBodies prefixBody pxBody pyBody
  let bodyBytes := serializeUlBody acc.result
  let len := acc.result.length % 2 ^ 32
  if materializeThresholdBytes ≤ bodyBytes.length then
    let pageId ← Task.newPage bodyBytes
    let recompute := if pageId = 0 then RecomputeFlag.recomputable else .materialized
    return (⟨itemset, acc.sumIutils, acc.sumRutils, len, pageId, true, recompute⟩, .onDisk pageId)
  else
    return (⟨itemset, acc.sumIutils, acc.sumRutils, len, 0, true, .recomputable⟩,
      .inMemory acc.result)

def getBody : UlBody → Task (List ULEntry)
  | .inMemory entries => return entries
  | .onDisk pageId => do
      let bytes ← Task.pin pageId
      match deserializeUlBody bytes with
      | some entries => return entries
      | none => throw .panic

theorem joinUtilityLists_counts (itemset : List ItemId) (prefixBody pxBody pyBody : List ULEntry) :
    (joinUtilityLists itemset prefixBody pxBody pyBody).Counts := by
  unfold joinUtilityLists
  apply Task.Counts.ite
  · exact Task.Counts.bind (Task.Counts.newPage _) fun _ => Task.Counts.pure _
  · exact Task.Counts.pure _

theorem getBody_counts (body : UlBody) : (getBody body).Counts := by
  cases body with
  | inMemory entries => exact Task.Counts.pure entries
  | onDisk pageId =>
    apply Task.Counts.bind (Task.Counts.pin pageId)
    intro bytes
    cases deserializeUlBody bytes with
    | some entries => exact Task.Counts.pure entries
    | none => exact Task.Counts.throw _

/-! ## Records -/

/-- The fields of the entry are in the ranges of their types. -/
structure ULEntry.Fits (e : ULEntry) : Prop where
  tid : e.tid < 2 ^ 32
  iutils : FitsI64 e.iutils
  rutils : FitsI64 e.rutils

@[simp] theorem ULEntry.length_toBytes (e : ULEntry) : e.toBytes.length = 20 := by
  simp [ULEntry.toBytes]

theorem deserializeUlBody_serializeUlBody {entries : List ULEntry} (h : ∀ e ∈ entries, e.Fits) :
    deserializeUlBody (serializeUlBody entries) = some entries := by
  have hlen : (serializeUlBody entries).length = 20 * entries.length := by
    simp [serializeUlBody, List.length_flatMap, Nat.mul_comm]
  rw [deserializeUlBody, if_pos (by omega)]
  congr 1
  apply map_chunksExact_flatMap (by norm_num) ULEntry.toBytes ULEntry.length_toBytes
  intro e he
  obtain ⟨ht, hi, hr⟩ := h e he
  have htid := take_field (length_leBytes 4 e.tid) (i64ToLe e.iutils ++ i64ToLe e.rutils)
  have hiutils := take_field (length_i64ToLe e.iutils) (i64ToLe e.rutils)
  have hrutils : (i64ToLe e.rutils).take 8 = i64ToLe e.rutils :=
    List.take_of_length_le (length_i64ToLe e.rutils).le
  have hdrop : e.toBytes.drop 12 = i64ToLe e.rutils := by
    rw [ULEntry.toBytes, List.append_assoc, show 12 = 4 + 8 from rfl, ← List.drop_drop, htid.2,
      hiutils.2]
  have h256 : e.tid < 256 ^ 4 := ht.trans_le (by norm_num)
  simp only [hdrop, hrutils, i64OfLe_i64ToLe hr]
  simp only [ULEntry.toBytes, List.append_assoc, htid.1, htid.2, hiutils.1, i64OfLe_i64ToLe hi,
    ofLeBytes_leBytes_of_lt h256]

/-! ## The utility list of an itemset -/

section

variable (rank : ItemId → Utility ×ₗ ItemId) (rows : List FilteredTransaction)

/-- What the items after `y` are worth. -/
def remaining (r : FilteredTransaction) (y : ItemId) : Utility :=
  r.basket.gain (r.basket.items.filter fun x => rank y < rank x)

def entryOf (X : Finset ItemId) (y : ItemId) (r : FilteredTransaction) : ULEntry :=
  ⟨r.tid, r.basket.gain X, remaining rank r y⟩

/-- The entries of `X`, whose last item is `y`. -/
def entriesOf (X : Finset ItemId) (y : ItemId) : List ULEntry :=
  (rows.filter fun r => X ⊆ r.basket.items).map (entryOf rank X y)

end

variable {rank : ItemId → Utility ×ₗ ItemId} {rows : List FilteredTransaction}

theorem entriesOf_fits (h : FilteredRows rank rows) (X : Finset ItemId) (y : ItemId) :
    ∀ e ∈ entriesOf rank rows X y, e.Fits := by
  intro e he
  obtain ⟨r, hr, rfl⟩ := List.mem_map.mp he
  obtain ⟨hr, hX⟩ := List.mem_filter.mp hr
  exact ⟨h.tid_lt r hr, h.fits_gain hr (of_decide_eq_true hX),
    h.fits_gain hr (Finset.filter_subset _ _)⟩

theorem length_entriesOf_lt (h : FilteredRows rank rows) (X : Finset ItemId) (y : ItemId) :
    (entriesOf rank rows X y).length < 2 ^ 32 := by
  rw [entriesOf, List.length_map]
  exact (List.length_filter_le _ _).trans_lt h.length_lt

/-! ## The join -/

/-- What the loops have built when they have pushed `entries`. -/
def accOf (entries : List ULEntry) : JoinAcc :=
  ⟨entries, (entries.map ULEntry.iutils).sum, (entries.map ULEntry.rutils).sum⟩

theorem push_accOf (entries : List ULEntry) (e : ULEntry) :
    (accOf entries).push e = accOf (entries ++ [e]) := by
  simp [JoinAcc.push, accOf]

theorem foldl_push (f : FilteredTransaction → ULEntry) (rs : List FilteredTransaction)
    (entries : List ULEntry) :
    rs.foldl (fun acc r => acc.push (f r)) (accOf entries) = accOf (entries ++ rs.map f) := by
  induction rs generalizing entries with
  | nil => simp
  | cons r rs ih => rw [List.foldl_cons, push_accOf, ih, List.map_cons, List.append_assoc,
      List.singleton_append]

section Join

variable {P : Finset ItemId} {y z : ItemId} {f g : FilteredTransaction → Utility}

/-- The entries of `X`, with `f` for what is left of a transaction. -/
def entriesWith (X : Finset ItemId) (f : FilteredTransaction → Utility)
    (rows : List FilteredTransaction) : List ULEntry :=
  (rows.filter fun r => X ⊆ r.basket.items).map fun r => ⟨r.tid, r.basket.gain X, f r⟩

section Cons

variable {X : Finset ItemId} {r : FilteredTransaction}

theorem filter_cons_of_subset (hX : X ⊆ r.basket.items) (rows : List FilteredTransaction) :
    (r :: rows).filter (fun r => X ⊆ r.basket.items) =
      r :: rows.filter fun r => X ⊆ r.basket.items := by
  simp [hX]

theorem filter_cons_of_not_subset (hX : ¬ X ⊆ r.basket.items) (rows : List FilteredTransaction) :
    (r :: rows).filter (fun r => X ⊆ r.basket.items) =
      rows.filter fun r => X ⊆ r.basket.items := by
  simp [hX]

theorem entriesWith_cons_of_subset (hX : X ⊆ r.basket.items) (f : FilteredTransaction → Utility)
    (rows : List FilteredTransaction) :
    entriesWith X f (r :: rows) = ⟨r.tid, r.basket.gain X, f r⟩ :: entriesWith X f rows := by
  rw [entriesWith, filter_cons_of_subset hX]
  rfl

theorem entriesWith_cons_of_not_subset (hX : ¬ X ⊆ r.basket.items)
    (f : FilteredTransaction → Utility) (rows : List FilteredTransaction) :
    entriesWith X f (r :: rows) = entriesWith X f rows := by
  rw [entriesWith, filter_cons_of_not_subset hX]
  rfl

/-- The entry that was pushed last is the first one of those that are left. -/
theorem append_entriesWith (hX : X ⊆ r.basket.items) (f : FilteredTransaction → Utility)
    (entries : List ULEntry) (rows : List FilteredTransaction) :
    entries ++ [⟨r.tid, r.basket.gain X, f r⟩] ++ entriesWith X f rows =
      entries ++ entriesWith X f (r :: rows) := by
  rw [entriesWith_cons_of_subset hX, List.append_assoc, List.singleton_append]

end Cons

theorem insert_insert_subset {S : Finset ItemId} :
    insert z (insert y P) ⊆ S ↔ insert y P ⊆ S ∧ insert z P ⊆ S := by
  simp only [Finset.insert_subset_iff]
  tauto

theorem filter_join (rows : List FilteredTransaction) :
    (rows.filter fun r => decide (insert y P ⊆ r.basket.items) &&
        decide (insert z P ⊆ r.basket.items)) =
      rows.filter fun r => insert z (insert y P) ⊆ r.basket.items := by
  apply List.filter_congr
  intro r _
  rw [← Bool.decide_and]
  exact decide_eq_decide.mpr insert_insert_subset.symm

theorem intersectWith_entriesWith {σ : Type}
    (htids : rows.Pairwise fun r r' => r.tid < r'.tid)
    (onMatch : σ → ULEntry → ULEntry → σ) (s : σ) :
    intersectWith ULEntry.tid ULEntry.tid onMatch s (entriesWith (insert y P) f rows)
        (entriesWith (insert z P) g rows) =
      (rows.filter fun r => insert z (insert y P) ⊆ r.basket.items).foldl
        (fun s r => onMatch s ⟨r.tid, r.basket.gain (insert y P), f r⟩
          ⟨r.tid, r.basket.gain (insert z P), g r⟩) s := by
  have htid : ∀ (X : Finset ItemId) (f : FilteredTransaction → Utility) (r : FilteredTransaction),
      (⟨r.tid, r.basket.gain X, f r⟩ : ULEntry).tid = r.tid := fun _ _ _ => rfl
  rw [← filter_join]
  exact intersectWith_rows (htid _ f) (htid _ g) htids s

theorem gain_join (b : Basket ItemId) (hy : y ∉ P) (hz : z ∉ P) (hyz : y ≠ z) :
    b.gain (insert y P) + b.gain (insert z P) - b.gain P = b.gain (insert z (insert y P)) := by
  have hz' : z ∉ insert y P := by simp [hz, hyz.symm]
  rw [gain_insert _ hz', gain_insert _ hy, gain_insert _ hz]
  ring

/-- The prefix pointer at a transaction of the join: it stops at the prefix's entry. -/
theorem dropWhile_passed (rows : List FilteredTransaction) (p : FilteredTransaction → Utility)
    {r : FilteredTransaction} (hP : P ⊆ r.basket.items) {passed : List ULEntry}
    (hpassed : ∀ e ∈ passed, e.tid < r.tid) :
    (passed ++ entriesWith P p (r :: rows)).dropWhile (fun e => decide (e.tid < r.tid)) =
      ⟨r.tid, r.basket.gain P, p r⟩ :: entriesWith P p rows := by
  rw [List.dropWhile_append_of_pos, entriesWith_cons_of_subset hP, List.dropWhile_cons_of_neg]
  · simp
  · intro e he
    exact decide_eq_true (hpassed e he)

/-- A transaction that is not in the join: what the prefix has there will be passed. -/
theorem exists_passed {r : FilteredTransaction} (hr : ∀ r' ∈ rows, r.tid < r'.tid)
    (P : Finset ItemId) (p : FilteredTransaction → Utility) {passed : List ULEntry}
    (hpassed : ∀ e ∈ passed, ∀ r' ∈ rows, e.tid < r'.tid) :
    ∃ passed', passed ++ entriesWith P p (r :: rows) = passed' ++ entriesWith P p rows ∧
      ∀ e ∈ passed', ∀ r' ∈ rows, e.tid < r'.tid := by
  by_cases hP : P ⊆ r.basket.items
  · refine ⟨passed ++ [⟨r.tid, r.basket.gain P, p r⟩], ?_, ?_⟩
    · exact (append_entriesWith hP p passed rows).symm
    intro e he
    rcases List.mem_append.mp he with he | he
    · exact hpassed e he
    · rw [List.mem_singleton.mp he]
      exact hr
  · exact ⟨passed, by rw [entriesWith_cons_of_not_subset hP], hpassed⟩

/-- Behind the prefix pointer there are only entries of earlier transactions. -/
theorem foldl_joinEntryPrefix (hrows : rows.Pairwise fun r r' => r.tid < r'.tid)
    {p : FilteredTransaction → Utility} (hy : y ∉ P) (hz : z ∉ P) (hyz : y ≠ z)
    (passed entries : List ULEntry) (hpassed : ∀ e ∈ passed, ∀ r ∈ rows, e.tid < r.tid) :
    ((rows.filter fun r => insert z (insert y P) ⊆ r.basket.items).foldl
        (fun s r => joinEntryPrefix s ⟨r.tid, r.basket.gain (insert y P), f r⟩
          ⟨r.tid, r.basket.gain (insert z P), g r⟩)
        (passed ++ entriesWith P p rows, accOf entries)).2 =
      accOf (entries ++ entriesWith (insert z (insert y P)) g rows) := by
  induction rows generalizing passed entries with
  | nil => simp [entriesWith]
  | cons r rows ih =>
    obtain ⟨hr, hrows⟩ := List.pairwise_cons.mp hrows
    have hlater : ∀ e ∈ passed, ∀ r' ∈ rows, e.tid < r'.tid := fun e he r' hr' =>
      hpassed e he r' (List.mem_cons_of_mem r hr')
    by_cases hX : insert z (insert y P) ⊆ r.basket.items
    · have hP : P ⊆ r.basket.items :=
        (Finset.subset_insert y P).trans ((Finset.subset_insert z _).trans hX)
      have hdrop := dropWhile_passed rows p hP
        (fun e he => hpassed e he r List.mem_cons_self)
      have hstep : joinEntryPrefix (passed ++ entriesWith P p (r :: rows), accOf entries)
          ⟨r.tid, r.basket.gain (insert y P), f r⟩ ⟨r.tid, r.basket.gain (insert z P), g r⟩ =
          ([⟨r.tid, r.basket.gain P, p r⟩] ++ entriesWith P p rows,
            accOf (entries ++ [⟨r.tid, r.basket.gain (insert z (insert y P)), g r⟩])) := by
        simp only [joinEntryPrefix, hdrop, ← push_accOf, List.singleton_append]
        simp only [if_pos, gain_join _ hy hz hyz]
      rw [filter_cons_of_subset hX, List.foldl_cons, hstep, ih hrows]
      · rw [append_entriesWith hX]
      · simpa using hr
    · obtain ⟨passed', heq, hpassed'⟩ := exists_passed hr P p hlater
      rw [filter_cons_of_not_subset hX, entriesWith_cons_of_not_subset hX, heq,
        ih hrows _ _ hpassed']

/-- The join of two lists is that of the union, whatever is left of the transactions. -/
theorem joinBodies_entriesWith (htids : rows.Pairwise fun r r' => r.tid < r'.tid)
    {prefixBody : List ULEntry}
    (hpre : P = ∅ ∧ prefixBody = [] ∨ ∃ p, prefixBody = entriesWith P p rows) (hy : y ∉ P)
    (hz : z ∉ P) (hyz : y ≠ z) :
    joinBodies prefixBody (entriesWith (insert y P) f rows) (entriesWith (insert z P) g rows) =
      accOf (entriesWith (insert z (insert y P)) g rows) := by
  have hempty : (⟨[], 0, 0⟩ : JoinAcc) = accOf [] := rfl
  unfold joinBodies
  split_ifs with hnil
  · rw [intersectWith_entriesWith htids, hempty]
    rcases hpre with ⟨rfl, -⟩ | ⟨p, hp⟩
    · have hgain : ∀ r : FilteredTransaction,
          r.basket.gain (insert y ∅) + r.basket.gain (insert z ∅) =
            r.basket.gain (insert z (insert y ∅)) := by
        intro r
        rw [← gain_join r.basket hy hz hyz, gain_empty, sub_zero]
      simp only [joinEntry, hgain]
      exact foldl_push (fun r => ⟨r.tid, r.basket.gain (insert z (insert y ∅)), g r⟩) _ []
    · -- a prefix that occurs nowhere: neither does the join
      have hno : (rows.filter fun r => insert z (insert y P) ⊆ r.basket.items) = [] := by
        rw [hnil, eq_comm, entriesWith, List.map_eq_nil_iff, List.filter_eq_nil_iff] at hp
        rw [List.filter_eq_nil_iff]
        intro r hr hX
        apply hp r hr
        simp only [decide_eq_true_eq] at hX ⊢
        exact ((Finset.subset_insert y P).trans (Finset.subset_insert z _)).trans hX
      simp [hno, entriesWith, accOf]
  · obtain ⟨p, rfl⟩ : ∃ p, prefixBody = entriesWith P p rows := by
      rcases hpre with ⟨-, h⟩ | h
      · exact (hnil h).elim
      · exact h
    rw [intersectWith_entriesWith htids, hempty]
    exact foldl_joinEntryPrefix htids hy hz hyz [] [] (fun _ he => (List.not_mem_nil he).elim)

/-- The body a join takes for the prefix: none for the empty one. -/
def IsPrefixBody (rank : ItemId → Utility ×ₗ ItemId) (rows : List FilteredTransaction)
    (P : Finset ItemId) (body : List ULEntry) : Prop :=
  P = ∅ ∧ body = [] ∨ P ≠ ∅ ∧ ∃ p, body = entriesOf rank rows P p

theorem joinBodies_entriesOf (h : FilteredRows rank rows) {prefixBody : List ULEntry}
    (hpre : IsPrefixBody rank rows P prefixBody) (hy : y ∉ P) (hz : z ∉ P) (hyz : y ≠ z) :
    joinBodies prefixBody (entriesOf rank rows (insert y P) y)
        (entriesOf rank rows (insert z P) z) =
      accOf (entriesOf rank rows (insert z (insert y P)) z) := by
  have hpre : P = ∅ ∧ prefixBody = [] ∨ ∃ p, prefixBody = entriesWith P p rows := by
    rcases hpre with h | ⟨-, p, h⟩
    · exact Or.inl h
    · exact Or.inr ⟨fun r => remaining rank r p, h⟩
  exact joinBodies_entriesWith h.tids hpre hy hz hyz

end Join

/-! ## Lists with their bodies -/

/-- The body holds these entries, now and from now on. -/
def UlBody.Holds (w : World) (entries : List ULEntry) : UlBody → Prop
  | .inMemory es => es = entries
  | .onDisk id => w.pool.Holds id (serializeUlBody entries)

theorem UlBody.Holds.mono {w w' : World} (hw : w ≤ w') {entries : List ULEntry} {body : UlBody}
    (h : body.Holds w entries) : body.Holds w' entries := by
  cases body with
  | inMemory es => exact h
  | onDisk id => exact PagePool.Holds.mono hw h

/-- A header and a body that are the utility list of `X`, whose last item is `y`. -/
structure IsUlOf (rank : ItemId → Utility ×ₗ ItemId) (rows : List FilteredTransaction) (w : World)
    (X : Finset ItemId) (y : ItemId) (ul : UtilityList) (body : UlBody) : Prop where
  nodup : ul.itemset.Nodup
  items : ul.itemset.toFinset = X
  last : ul.itemset.getLast? = some y
  sumIutils : ul.sumIutils = ((entriesOf rank rows X y).map ULEntry.iutils).sum
  sumRutils : ul.sumRutils = ((entriesOf rank rows X y).map ULEntry.rutils).sum
  len : ul.len = (entriesOf rank rows X y).length
  body : body.Holds w (entriesOf rank rows X y)

theorem IsUlOf.mono {w w' : World} (hw : w ≤ w') {X : Finset ItemId} {y : ItemId}
    {ul : UtilityList} {body : UlBody} (h : IsUlOf rank rows w X y ul body) :
    IsUlOf rank rows w' X y ul body :=
  { h with body := h.body.mono hw }

section Specs

variable {E : Fault → Prop} {w : World} {P X : Finset ItemId} {y z : ItemId}

/-- A join that builds `entries` hands them out as a body, with their sums. -/
theorem joinUtilityLists_of_bodies (hE : Task.Allows E w)
    {prefixBody pxBody pyBody entries : List ULEntry}
    (hjoin : joinBodies prefixBody pxBody pyBody = accOf entries) (itemset : List ItemId) :
    Task.Spec E (joinUtilityLists itemset prefixBody pxBody pyBody) w fun out v e =>
      out = [] ∧ e.1.itemset = itemset ∧ e.1.sumIutils = (entries.map ULEntry.iutils).sum ∧
        e.1.sumRutils = (entries.map ULEntry.rutils).sum ∧ e.1.len = entries.length % 2 ^ 32 ∧
        e.2.Holds v entries := by
  unfold joinUtilityLists
  simp only [hjoin, accOf]
  split_ifs
  · refine Task.Spec.bind_silent (Task.newPage_spec hE _) ?_
    intro v id _ hid
    exact Task.Spec.pure fun v' hv' => ⟨rfl, rfl, rfl, rfl, rfl, PagePool.Holds.mono hv' hid⟩
  · exact Task.Spec.pure fun v' _ => ⟨rfl, rfl, rfl, rfl, rfl, rfl⟩

/-- The join of the lists of `P ∪ {y}` and `P ∪ {z}`. -/
theorem joinUtilityLists_spec (h : FilteredRows rank rows) (hE : Task.Allows E w)
    {prefixBody : List ULEntry} (hpre : IsPrefixBody rank rows P prefixBody) (hy : y ∉ P)
    (hz : z ∉ P) (hyz : y ≠ z) {itemset : List ItemId} (hnodup : itemset.Nodup)
    (hitems : itemset.toFinset = insert z (insert y P)) (hlast : itemset.getLast? = some z) :
    Task.Spec E (joinUtilityLists itemset prefixBody (entriesOf rank rows (insert y P) y)
        (entriesOf rank rows (insert z P) z)) w
      fun out v e => out = [] ∧ IsUlOf rank rows v (insert z (insert y P)) z e.1 e.2 := by
  have hjoin := joinUtilityLists_of_bodies hE (joinBodies_entriesOf h hpre hy hz hyz) itemset
  refine hjoin.mono le_rfl fun out v e he => ?_
  obtain ⟨hout, hitemset, hiutils, hrutils, hlen, hbody⟩ := he
  rw [Nat.mod_eq_of_lt (length_entriesOf_lt h (insert z (insert y P)) z)] at hlen
  exact ⟨hout, hitemset ▸ hnodup, hitemset ▸ hitems, hitemset ▸ hlast, hiutils, hrutils, hlen,
    hbody⟩

theorem getBody_of_holds (hE : Task.Allows E w) {entries : List ULEntry}
    (hfits : ∀ e ∈ entries, e.Fits) {body : UlBody} (hbody : body.Holds w entries) :
    Task.Spec E (getBody body) w fun out _ es => out = [] ∧ es = entries := by
  cases body with
  | inMemory es => exact Task.Spec.pure fun _ _ => ⟨rfl, hbody⟩
  | onDisk id =>
    refine Task.Spec.bind_silent (Task.pin_spec hE hbody) ?_
    rintro v _ _ rfl
    rw [deserializeUlBody_serializeUlBody hfits]
    exact Task.Spec.pure fun _ _ => ⟨rfl, rfl⟩

theorem getBody_spec (h : FilteredRows rank rows) (hE : Task.Allows E w) {body : UlBody}
    (hbody : body.Holds w (entriesOf rank rows X y)) :
    Task.Spec E (getBody body) w fun out _ entries =>
      out = [] ∧ entries = entriesOf rank rows X y :=
  getBody_of_holds hE (entriesOf_fits h X y) hbody

end Specs

/-! ## What a list tells -/

section Bounds

variable {w : World} {X Y : Finset ItemId} {y : ItemId} {ul : UtilityList} {body : UlBody}

theorem sum_iutils_entriesOf (rank : ItemId → Utility ×ₗ ItemId) (rows : List FilteredTransaction)
    (X : Finset ItemId) (y : ItemId) :
    ((entriesOf rank rows X y).map ULEntry.iutils).sum =
      utility (rows.map FilteredTransaction.basket) X := by
  rw [utility_map, entriesOf, List.map_map]
  rfl

theorem entriesOf_ne_nil_iff (rank : ItemId → Utility ×ₗ ItemId) (rows : List FilteredTransaction)
    (X : Finset ItemId) (y : ItemId) :
    entriesOf rank rows X y ≠ [] ↔ Occurs (rows.map FilteredTransaction.basket) X := by
  rw [occurs_map, entriesOf, Ne, List.map_eq_nil_iff, List.filter_eq_nil_iff]
  simp

/-- The two sums of a list, taken transaction by transaction. -/
theorem sum_entriesWith (X : Finset ItemId) (f : FilteredTransaction → Utility)
    (rows : List FilteredTransaction) :
    ((entriesWith X f rows).map ULEntry.iutils).sum +
        ((entriesWith X f rows).map ULEntry.rutils).sum =
      ((rows.filter fun r => X ⊆ r.basket.items).map fun r => r.basket.gain X + f r).sum := by
  rw [List.sum_map_add]
  simp only [entriesWith, List.map_map]
  rfl

/-- What an itemset and the rest of its transactions are worth bounds every
extension that lies in these rests. -/
theorem utility_le_entriesWith (hnonneg : ∀ r ∈ rows, r.basket.Nonneg) (hYX : Y ⊆ X)
    {rest : FilteredTransaction → Finset ItemId} (hrest : ∀ r ∈ rows, rest r ⊆ r.basket.items)
    (hafter : ∀ r ∈ rows, X ⊆ r.basket.items → X \ Y ⊆ rest r) :
    utility (rows.map FilteredTransaction.basket) X ≤
      ((entriesWith Y (fun r => r.basket.gain (rest r)) rows).map ULEntry.iutils).sum +
        ((entriesWith Y (fun r => r.basket.gain (rest r)) rows).map ULEntry.rutils).sum := by
  rw [sum_entriesWith]
  apply utility_le_sum
  · intro r _ hX
    exact decide_eq_true (hYX.trans hX)
  · intro r hr hX
    have hsplit : r.basket.gain X = r.basket.gain Y + r.basket.gain (X \ Y) := by
      rw [← gain_union _ Finset.disjoint_sdiff, Finset.union_sdiff_of_subset hYX]
    rw [hsplit]
    apply add_le_add_right
    exact gain_le_gain (hnonneg r hr) (hafter r hr hX) (hrest r hr)
  · intro r hr hY
    exact add_nonneg (gain_nonneg (hnonneg r hr) (of_decide_eq_true hY))
      (gain_nonneg (hnonneg r hr) (hrest r hr))

/-- What a list and the items after it are worth bounds every extension by such items. -/
theorem utility_le_iutils_add_rutils (h : FilteredRows rank rows) (hYX : Y ⊆ X)
    (hafter : ∀ x ∈ X, x ∉ Y → rank y < rank x) :
    utility (rows.map FilteredTransaction.basket) X ≤
      ((entriesOf rank rows Y y).map ULEntry.iutils).sum +
        ((entriesOf rank rows Y y).map ULEntry.rutils).sum := by
  apply utility_le_entriesWith (fun r hr => h.basket_nonneg hr) hYX
    fun r _ => Finset.filter_subset _ _
  intro r _ hX x hx
  obtain ⟨hxX, hxY⟩ := Finset.mem_sdiff.mp hx
  exact Finset.mem_filter.mpr ⟨hX hxX, hafter x hxX hxY⟩

theorem IsUlOf.sumIutils_eq (hul : IsUlOf rank rows w X y ul body) :
    ul.sumIutils = utility (rows.map FilteredTransaction.basket) X := by
  rw [hul.sumIutils, sum_iutils_entriesOf]

theorem IsUlOf.len_pos_iff (hul : IsUlOf rank rows w X y ul body) :
    0 < ul.len ↔ Occurs (rows.map FilteredTransaction.basket) X := by
  rw [hul.len, List.length_pos_iff, entriesOf_ne_nil_iff]

/-- A list reports its itemset if and only if it occurs and is worth the threshold. -/
theorem IsUlOf.isHighUtility_iff (hul : IsUlOf rank rows w X y ul body) (t : Utility) :
    ul.isHighUtility t = true ↔ Occurs (rows.map FilteredTransaction.basket) X ∧
      t ≤ utility (rows.map FilteredTransaction.basket) X := by
  rw [UtilityList.isHighUtility, Bool.and_eq_true, decide_eq_true_iff, decide_eq_true_iff,
    hul.len_pos_iff, hul.sumIutils_eq]

/-- A list that is pruned has no extension worth the threshold. -/
theorem IsUlOf.canPrune_eq_false (h : FilteredRows rank rows)
    (hul : IsUlOf rank rows w Y y ul body) (hYX : Y ⊆ X)
    (hafter : ∀ x ∈ X, x ∉ Y → rank y < rank x) {t : Utility}
    (hocc : Occurs (rows.map FilteredTransaction.basket) X)
    (ht : t ≤ utility (rows.map FilteredTransaction.basket) X) : ul.canPrune t = false := by
  have hlen : 0 < ul.len := hul.len_pos_iff.mpr (hocc.mono hYX)
  have htwu : t ≤ ul.twu := by
    rw [UtilityList.twu, hul.sumIutils, hul.sumRutils]
    exact ht.trans (utility_le_iutils_add_rutils h hYX hafter)
  simp [UtilityList.canPrune, hlen.ne', htwu]

end Bounds

end AirHuim
