import AirHuim.Library.Trace
import AirHuim.Mining.CheckedRuns

/-!
# Utility lists under any order of the items

The join knows nothing of the order: it passes on what the list of `P ∪ {y}`
says is left of a transaction. So for every order, every depth, and whatever the
signs of the utilities, the join of the lists of `Px` and `Py` is the list of
`Pxy`, and stays so for as long as the pool is used. In a build with overflow
checks it may fault instead, where a sum of two entries, an entry of the result or
a running sum of its header leaves the range of `i64`.
-/

namespace AirHuim

open Library Basket

section

variable (before : ItemId → ItemId → Prop) [DecidableRel before]

/-- The items of the transaction after the last item of `X`. -/
def itemsAfter (X : List ItemId) (r : FilteredTransaction) : Finset ItemId :=
  r.basket.items.filter fun i => ∀ l ∈ X.getLast?, before l i

/-- For each transaction with `X` its tid, what `X` is worth there, and what the
items after the last one of `X` are. -/
def utilityListOf (rows : List FilteredTransaction) (X : List ItemId) : List ULEntry :=
  (rows.filter fun r => X.toFinset ⊆ r.basket.items).map fun r =>
    ⟨r.tid, r.basket.gain X.toFinset, r.basket.gain (itemsAfter before X r)⟩

/-- The slice that stands for the prefix. -/
def prefixBodyOf (rows : List FilteredTransaction) (P : List ItemId) : List ULEntry :=
  if P = [] then [] else utilityListOf before rows P

/-- Header and body are the utility list of `X`, and the body can be retrieved
from any later world. -/
structure IsUtilityList (rows : List FilteredTransaction) (E : Fault → Prop) (w : World)
    (X : List ItemId) (ul : UtilityList) (body : UlBody) : Prop where
  itemset : ul.itemset = X
  len : ul.len = (utilityListOf before rows X).length
  sumIutils : ul.sumIutils = ((utilityListOf before rows X).map ULEntry.iutils).sum
  sumRutils : ul.sumRutils = ((utilityListOf before rows X).map ULEntry.rutils).sum
  body : ∀ v, w ≤ v → Task.Spec E (getBody body) v fun out _ entries =>
    out = [] ∧ entries = utilityListOf before rows X

end

variable {before : ItemId → ItemId → Prop} [DecidableRel before]
  {rows : List FilteredTransaction} {P : List ItemId} {x y : ItemId}

theorem utilityListOf_eq (rows : List FilteredTransaction) (X : List ItemId) :
    utilityListOf before rows X =
      entriesWith X.toFinset (fun r => r.basket.gain (itemsAfter before X r)) rows := rfl

theorem toFinset_append_singleton (P : List ItemId) (x : ItemId) :
    (P ++ [x]).toFinset = insert x P.toFinset := by
  ext i
  simp

theorem toFinset_append_pair (P : List ItemId) (x y : ItemId) :
    (P ++ [x, y]).toFinset = insert y (insert x P.toFinset) := by
  ext i
  simp only [List.mem_toFinset, List.mem_append, List.mem_cons, Finset.mem_insert]
  tauto

theorem itemsAfter_append_pair (P : List ItemId) (x y : ItemId) (r : FilteredTransaction) :
    itemsAfter before (P ++ [x, y]) r = itemsAfter before (P ++ [y]) r := by
  simp [itemsAfter]

/-- The bodies join to the utility list of the union. -/
theorem joinBodies_utilityListOf (htids : rows.Pairwise fun r r' => r.tid < r'.tid)
    (hnodup : (P ++ [x, y]).Nodup) :
    joinBodies (prefixBodyOf before rows P) (utilityListOf before rows (P ++ [x]))
        (utilityListOf before rows (P ++ [y])) =
      accOf (utilityListOf before rows (P ++ [x, y])) := by
  obtain ⟨-, hpair, hdisjoint⟩ := List.nodup_append.mp hnodup
  have hx : x ∉ P.toFinset := fun hx =>
    hdisjoint x (List.mem_toFinset.mp hx) x List.mem_cons_self rfl
  have hy : y ∉ P.toFinset := fun hy =>
    hdisjoint y (List.mem_toFinset.mp hy) y (List.mem_cons_of_mem x List.mem_cons_self) rfl
  have hxy : x ≠ y := fun heq => (List.nodup_cons.mp hpair).1 (heq ▸ List.mem_cons_self)
  have hpre : P.toFinset = ∅ ∧ prefixBodyOf before rows P = [] ∨
      ∃ f, prefixBodyOf before rows P = entriesWith P.toFinset f rows := by
    by_cases hP : P = []
    · exact Or.inl ⟨by rw [hP]; rfl, if_pos hP⟩
    · exact Or.inr ⟨_, if_neg hP⟩
  simp only [utilityListOf_eq, toFinset_append_singleton, toFinset_append_pair,
    itemsAfter_append_pair]
  exact joinBodies_entriesWith htids hpre hx hy hxy

/-- The sums of a list bound every extension by later items. -/
theorem utility_le_utilityListOf (hnonneg : ∀ r ∈ rows, ∀ e ∈ r.items, 0 ≤ e.utility)
    {later : Finset ItemId} (hlater : ∀ i ∈ later, before y i) :
    utility (rows.map FilteredTransaction.basket) ((P ++ [y]).toFinset ∪ later) ≤
      ((utilityListOf before rows (P ++ [y])).map ULEntry.iutils).sum +
        ((utilityListOf before rows (P ++ [y])).map ULEntry.rutils).sum := by
  simp only [utilityListOf_eq]
  apply utility_le_entriesWith (fun r hr => nonneg_basketOf (hnonneg r hr))
    Finset.subset_union_left fun r _ => Finset.filter_subset _ _
  intro r _ hX i hi
  obtain ⟨hi, hno⟩ := Finset.mem_sdiff.mp hi
  have hafter : before y i := hlater i ((Finset.mem_union.mp hi).resolve_left hno)
  refine Finset.mem_filter.mpr ⟨hX hi, fun l hl => ?_⟩
  rw [List.getLast?_append, List.getLast?_singleton, Option.some_or] at hl
  cases hl
  exact hafter

/-! ## Overflow -/

/-- What the loops have pushed, and the sums over it, are values of `i64`. -/
structure JoinAcc.InRange (acc : JoinAcc) : Prop where
  eq_accOf : acc = accOf acc.result
  iutils : ∀ e ∈ acc.result, FitsI64 e.iutils
  sums : ∀ entries, entries <+: acc.result →
    FitsI64 (entries.map ULEntry.iutils).sum ∧ FitsI64 (entries.map ULEntry.rutils).sum

theorem JoinAcc.InRange.of_push {acc : JoinAcc} {e : ULEntry} (h : (acc.push e).InRange) :
    acc.InRange where
  eq_accOf := by
    obtain ⟨result, sumIutils, sumRutils⟩ := acc
    have hacc := h.eq_accOf
    simp only [push, accOf, List.map_append, List.map_cons, List.map_nil, List.sum_append,
      List.sum_singleton, JoinAcc.mk.injEq, true_and, add_left_inj] at hacc
    rw [accOf, ← hacc.1, ← hacc.2]
  iutils e' he' := h.iutils e' (List.mem_append_left _ he')
  sums entries hentries := h.sums entries (hentries.trans (List.prefix_append _ _))

theorem JoinAcc.InRange.pushChecked {acc : JoinAcc} {e : ULEntry} (h : (acc.push e).InRange) :
    acc.pushChecked e = .ok (acc.push e) := by
  have hsums := h.sums (acc.push e).result List.prefix_rfl
  have hacc := h.eq_accOf
  have hiutils : ((acc.push e).result.map ULEntry.iutils).sum = acc.sumIutils + e.iutils :=
    (congrArg JoinAcc.sumIutils hacc).symm
  have hrutils : ((acc.push e).result.map ULEntry.rutils).sum = acc.sumRutils + e.rutils :=
    (congrArg JoinAcc.sumRutils hacc).symm
  rw [hiutils, hrutils] at hsums
  unfold JoinAcc.pushChecked checkI64
  rw [if_pos hsums.1, if_pos hsums.2]
  rfl

/-- The entry that is pushed is one of the result. -/
theorem JoinAcc.InRange.pushed {acc : JoinAcc} {e : ULEntry} (h : (acc.push e).InRange) :
    checkI64 e.iutils = .ok e.iutils :=
  if_pos (h.iutils e (List.mem_append_right _ List.mem_cons_self))

/-- The join does not fault if the sums of two entries, what it builds and the sums over
that are in the range. -/
theorem joinBodiesChecked_of_inRange {prefixBody pxBody pyBody : List ULEntry}
    (hentries : ∀ px ∈ pxBody, ∀ py ∈ pyBody, px.tid = py.tid → FitsI64 (px.iutils + py.iutils))
    (h : (joinBodies prefixBody pxBody pyBody).InRange) :
    joinBodiesChecked prefixBody pxBody pyBody = .ok (joinBodies prefixBody pxBody pyBody) := by
  unfold joinBodiesChecked joinBodies at *
  split_ifs at h ⊢
  · refine intersectWith_eq_ok JoinAcc.InRange (fun _ _ _ h => h.of_push) ?_ h
    intro acc px hpx py hpy htid hin
    have hboth : checkI64 (px.iutils + py.iutils) = .ok (px.iutils + py.iutils) :=
      if_pos (hentries px hpx py hpy htid)
    unfold joinEntryChecked
    rw [hboth]
    exact hin.pushChecked
  · rw [intersectWith_eq_ok (fun s : List ULEntry × JoinAcc => s.2.InRange)
      (fun _ _ _ h => h.of_push) ?_ h]
    · rfl
    intro s px hpx py hpy htid hin
    have hboth : checkI64 (px.iutils + py.iutils) = .ok (px.iutils + py.iutils) :=
      if_pos (hentries px hpx py hpy htid)
    unfold joinEntryPrefix at hin
    unfold joinEntryPrefixChecked joinEntryPrefix
    cases hrest : s.1.dropWhile (fun p => decide (p.tid < px.tid)) with
    | nil =>
      simp only [hrest] at hin
      simp only [hboth, bind, Except.bind, hin.pushed, hin.pushChecked]
      rfl
    | cons p rest =>
      simp only [hrest] at hin
      simp only [hboth, bind, Except.bind, hin.pushed, hin.pushChecked]
      rfl

theorem inRange_nil : (⟨[], 0, 0⟩ : JoinAcc).InRange where
  eq_accOf := rfl
  iutils _ he := (List.not_mem_nil he).elim
  sums entries hentries := by
    rw [List.prefix_nil.mp hentries]
    decide

/-- What has been pushed with checks is in the range. -/
theorem JoinAcc.InRange.of_pushChecked {acc acc' : JoinAcc} {e : ULEntry} (h : acc.InRange)
    (he : FitsI64 e.iutils) (hpush : acc.pushChecked e = .ok acc') : acc'.InRange := by
  obtain ⟨sumIutils, hiutils, hpush⟩ := exists_ok_of_bind hpush
  obtain ⟨sumRutils, hrutils, hpush⟩ := exists_ok_of_bind hpush
  obtain rfl := Except.ok.inj hpush
  obtain ⟨rfl, hifits⟩ := checkI64_eq_ok_iff.mp hiutils
  obtain ⟨rfl, hrfits⟩ := checkI64_eq_ok_iff.mp hrutils
  have hnew : (⟨acc.result ++ [e], acc.sumIutils + e.iutils, acc.sumRutils + e.rutils⟩ : JoinAcc) =
      accOf (acc.result ++ [e]) := by
    rw [← push_accOf, ← h.eq_accOf]
    rfl
  refine ⟨hnew, fun e' he' => ?_, fun entries hentries => ?_⟩
  · rcases List.mem_append.mp he' with he' | he'
    · exact h.iutils e' he'
    · rw [List.mem_singleton.mp he']
      exact he
  · rcases List.prefix_concat_iff.mp hentries with rfl | hentries
    · have hsumI := congrArg JoinAcc.sumIutils hnew
      have hsumR := congrArg JoinAcc.sumRutils hnew
      simp only [accOf] at hsumI hsumR
      rw [← hsumI, ← hsumR]
      exact ⟨hifits, hrfits⟩
    · exact h.sums entries hentries

/-- What a join returns is in the range. -/
theorem inRange_of_joinBodiesChecked {prefixBody pxBody pyBody : List ULEntry} {acc : JoinAcc}
    (h : joinBodiesChecked prefixBody pxBody pyBody = .ok acc) : acc.InRange := by
  unfold joinBodiesChecked at h
  split_ifs at h
  · refine intersectWith_related (fun (s : Except Fault JoinAcc) (_ : Unit) =>
      ∀ acc, s = .ok acc → acc.InRange) (g := fun t _ _ => t) (t := ()) ?_ ?_ pxBody pyBody acc h
    · intro s _ px py hs acc hacc
      obtain ⟨acc₀, hacc₀, hacc⟩ := exists_ok_of_bind hacc
      obtain ⟨iutils, hiutils, hpush⟩ := exists_ok_of_bind hacc
      obtain ⟨rfl, hfits⟩ := checkI64_eq_ok_iff.mp hiutils
      exact (hs acc₀ hacc₀).of_pushChecked hfits hpush
    · intro acc hacc
      obtain rfl := Except.ok.inj hacc
      exact inRange_nil
  · cases hwalk : intersectWith ULEntry.tid ULEntry.tid
        (fun s px py => s >>= (joinEntryPrefixChecked · px py))
        (.ok (prefixBody, ⟨[], 0, 0⟩)) pxBody pyBody with
    | error e =>
      rw [hwalk] at h
      cases h
    | ok final =>
      rw [hwalk] at h
      obtain rfl := Except.ok.inj h
      refine intersectWith_related (fun (s : Except Fault (List ULEntry × JoinAcc)) (_ : Unit) =>
        ∀ s', s = .ok s' → s'.2.InRange) (g := fun t _ _ => t)
          (t := ()) ?_ ?_ pxBody pyBody final hwalk
      · intro s _ px py hs s' hs'
        obtain ⟨s₀, hs₀, hs'⟩ := exists_ok_of_bind hs'
        obtain ⟨both, -, hs'⟩ := exists_ok_of_bind hs'
        obtain ⟨iutils, hiutils, hs'⟩ := exists_ok_of_bind hs'
        obtain ⟨acc, hpush, hs'⟩ := exists_ok_of_bind hs'
        obtain rfl := Except.ok.inj hs'
        obtain ⟨rfl, hfits⟩ := checkI64_eq_ok_iff.mp hiutils
        exact (hs s₀ hs₀).of_pushChecked hfits hpush
      · intro s' hs'
        obtain rfl := Except.ok.inj hs'
        exact inRange_nil

section

variable (before : ItemId → ItemId → Prop) [DecidableRel before]

/-- In the join of the lists of `Px` and `Py`: the sum of two entries with one tid (with
the prefix in it twice), the entries of the list of `Pxy`, and the running sums of its
header. -/
structure JoinSumsFit (rows : List FilteredTransaction) (P : List ItemId) (x y : ItemId) :
    Prop where
  entries : ∀ px ∈ utilityListOf before rows (P ++ [x]),
    ∀ py ∈ utilityListOf before rows (P ++ [y]),
    px.tid = py.tid → FitsI64 (px.iutils + py.iutils)
  iutils : ∀ e ∈ utilityListOf before rows (P ++ [x, y]), FitsI64 e.iutils
  sums : ∀ entries, entries <+: utilityListOf before rows (P ++ [x, y]) →
    FitsI64 (entries.map ULEntry.iutils).sum ∧ FitsI64 (entries.map ULEntry.rutils).sum

end

/-- The join returns where these are in the range, and what it returns is in the range. -/
theorem agrees_joinBodiesChecked (htids : rows.Pairwise fun r r' => r.tid < r'.tid)
    (hnodup : (P ++ [x, y]).Nodup) :
    Agrees (JoinSumsFit before rows P x y)
      (joinBodiesChecked (prefixBodyOf before rows P) (utilityListOf before rows (P ++ [x]))
        (utilityListOf before rows (P ++ [y])))
      (.ok (accOf (utilityListOf before rows (P ++ [x, y])))) := by
  have hjoin : joinBodies (prefixBodyOf before rows P) (utilityListOf before rows (P ++ [x]))
      (utilityListOf before rows (P ++ [y])) = accOf (utilityListOf before rows (P ++ [x, y])) :=
    joinBodies_utilityListOf htids hnodup
  rw [← hjoin]
  refine (yields_joinBodiesChecked _ _ _).under fun hfits => ?_
  apply joinBodiesChecked_of_inRange hfits.entries
  rw [hjoin]
  exact ⟨rfl, hfits.iutils, hfits.sums⟩

/-- The tids and what is left of the transactions are those in the list of `Py`. -/
theorem exists_mem_utilityListOf {e : ULEntry} (he : e ∈ utilityListOf before rows (P ++ [x, y])) :
    ∃ e' ∈ utilityListOf before rows (P ++ [y]), e'.tid = e.tid ∧ e'.rutils = e.rutils := by
  obtain ⟨r, hr, rfl⟩ := List.mem_map.mp he
  obtain ⟨hr, hX⟩ := List.mem_filter.mp hr
  have hsub : (P ++ [y]).toFinset ⊆ r.basket.items := by
    refine fun i hi => of_decide_eq_true hX ?_
    simp only [List.toFinset_append, List.mem_toFinset, Finset.mem_union, List.mem_cons] at hi ⊢
    tauto
  refine ⟨_, List.mem_map.mpr ⟨r, List.mem_filter.mpr ⟨hr, decide_eq_true hsub⟩, rfl⟩, rfl, ?_⟩
  rw [itemsAfter_append_pair]

/-- The join of the utility lists of `Px` and `Py` is that of `Pxy`, in any build that
checks its sums; where they all fit, the join returns. -/
theorem join_exact [IsStrictTotalOrder ItemId before] {E : Fault → Prop} {w : World}
    (hE : Task.Allows E w) (hlen : rows.length < 2 ^ 32)
    (htids : rows.Pairwise fun r r' => r.tid < r'.tid) (hitems : (P ++ [x, y]).Pairwise before)
    (hinput : ∀ e ∈ utilityListOf before rows (P ++ [y]), e.Fits) :
    Task.Spec (fun e => E e ∨ e = .overflow ∧ ¬ JoinSumsFit before rows P x y)
      (joinUtilityListsChecked (P ++ [x, y]) (prefixBodyOf before rows P)
        (utilityListOf before rows (P ++ [x])) (utilityListOf before rows (P ++ [y]))) w
      fun out v e => out = [] ∧ IsUtilityList before rows E v (P ++ [x, y]) e.1 e.2 ∧
        ((∀ r ∈ rows, ∀ i ∈ r.items, 0 ≤ i.utility) →
          ∀ later : Finset ItemId, (∀ i ∈ later, before y i) →
            utility (rows.map FilteredTransaction.basket) ((P ++ [x, y]).toFinset ∪ later) ≤
              e.1.sumIutils + e.1.sumRutils) := by
  have hnodup : (P ++ [x, y]).Nodup := by
    refine List.Pairwise.imp ?_ hitems
    rintro a _ hab rfl
    exact irrefl_of before a hab
  have hagrees : Agrees (JoinSumsFit before rows P x y) _ _ := agrees_joinBodiesChecked htids hnodup
  rcases hagrees with hok | ⟨hfault, hno⟩
  · have hrange := inRange_of_joinBodiesChecked hok
    have hfits : ∀ e ∈ utilityListOf before rows (P ++ [x, y]), e.Fits := by
      intro e he
      obtain ⟨e', he', htid, hrutils⟩ := exists_mem_utilityListOf he
      obtain ⟨ht, -, hr⟩ := hinput e' he'
      exact ⟨htid ▸ ht, hrange.iutils e he, hrutils ▸ hr⟩
    have hbodies : joinBodies (prefixBodyOf before rows P) (utilityListOf before rows (P ++ [x]))
        (utilityListOf before rows (P ++ [y])) = accOf (utilityListOf before rows (P ++ [x, y])) :=
      joinBodies_utilityListOf htids hnodup
    have hchecked : joinUtilityListsChecked (P ++ [x, y]) _ _ _ = _ :=
      joinUtilityListsChecked_of_ok (hbodies ▸ hok)
    have hjoin := joinUtilityLists_of_bodies hE hbodies (P ++ [x, y])
    have hcount : (utilityListOf before rows (P ++ [x, y])).length < 2 ^ 32 := by
      rw [utilityListOf, List.length_map]
      exact (List.length_filter_le _ _).trans_lt hlen
    rw [hchecked]
    refine (hjoin.above.weaken fun _ => Or.inl).mono le_rfl ?_
    rintro out v ⟨ul, body⟩ ⟨hv, hout, hitemset, hiutils, hrutils, hul, hbody⟩
    rw [Nat.mod_eq_of_lt hcount] at hul
    refine ⟨hout, ⟨hitemset, hul, hiutils, hrutils, fun v' hv' => ?_⟩,
      fun hnonneg later hlater => ?_⟩
    · exact getBody_of_holds ((hE.mono hv).mono hv') hfits (hbody.mono hv')
    · have hsplit : P ++ [x, y] = P ++ [x] ++ [y] := (List.append_assoc P [x] [y]).symm
      rw [hiutils, hrutils, hsplit]
      exact utility_le_utilityListOf hnonneg hlater
  · rw [joinUtilityListsChecked_of_overflow hfault]
    exact fun _ _ => Or.inr ⟨rfl, hno⟩

/-- Two transactions that both have items 1, 2 and 3, one utility of which is negative. -/
def signedRows : List FilteredTransaction :=
  [⟨0, 9, [⟨1, 2⟩, ⟨2, -3⟩, ⟨3, 4⟩, ⟨4, 6⟩]⟩, ⟨5, 6, [⟨1, 1⟩, ⟨2, 2⟩, ⟨3, 3⟩]⟩]

/-- The lists of 1 2 and 1 3 are joined. -/
theorem join_exact_signed :
    Task.Spec
      (fun e => (fun _ => False) e ∨ e = .overflow ∧ ¬ JoinSumsFit (· < ·) signedRows [1] 2 3)
      (joinUtilityListsChecked ([1] ++ [2, 3]) (prefixBodyOf (· < ·) signedRows [1])
        (utilityListOf (· < ·) signedRows ([1] ++ [2]))
        (utilityListOf (· < ·) signedRows ([1] ++ [3]))) (World.fresh 100)
      fun out v e => out = [] ∧
        IsUtilityList (· < ·) signedRows (fun _ => False) v ([1] ++ [2, 3]) e.1 e.2 ∧
        ((∀ r ∈ signedRows, ∀ i ∈ r.items, 0 ≤ i.utility) →
          ∀ later : Finset ItemId, (∀ i ∈ later, 3 < i) →
            utility (signedRows.map FilteredTransaction.basket) (([1] ++ [2, 3]).toFinset ∪ later) ≤
              e.1.sumIutils + e.1.sumRutils) :=
  join_exact (fun _ hfail => Bool.noConfusion hfail) (by decide) (by decide) (by decide) (by
    have hentries : utilityListOf (· < ·) signedRows ([1] ++ [3]) = [⟨0, 6, 6⟩, ⟨5, 4, 0⟩] := by
      decide
    rw [hentries]
    intro e he
    rcases List.mem_cons.mp he with rfl | he
    · exact ⟨by decide, by decide, by decide⟩
    · obtain rfl := List.mem_singleton.mp he
      exact ⟨by decide, by decide, by decide⟩)

/-- Two transactions that are worth more than an `i64` together. -/
def twiceTwo62 : List FilteredTransaction :=
  [⟨0, 2 ^ 62, [⟨1, 2 ^ 62⟩, ⟨2, 0⟩]⟩, ⟨1, 2 ^ 62, [⟨1, 2 ^ 62⟩, ⟨2, 0⟩]⟩]

/-- One transaction whose first item is worth `2 ^ 62`. -/
def onceTwo62 : List FilteredTransaction := [⟨0, 2 ^ 62, [⟨1, 2 ^ 62⟩, ⟨2, 0⟩, ⟨3, 0⟩]⟩]

/-- The sum of the list of 1 2 is no value of `i64`; and in the join of 1 2 and 1 3 the
prefix is in the sum of the entries twice, although all of its list fits. -/
theorem not_join_exact :
    (utilityListOf (· < ·) twiceTwo62 [1, 2] = [⟨0, 2 ^ 62, 0⟩, ⟨1, 2 ^ 62, 0⟩] ∧
      ¬ FitsI64 ((utilityListOf (· < ·) twiceTwo62 [1, 2]).map ULEntry.iutils).sum ∧
      joinBodiesChecked [] (utilityListOf (· < ·) twiceTwo62 [1])
        (utilityListOf (· < ·) twiceTwo62 [2]) = .error .overflow) ∧
    (utilityListOf (· < ·) onceTwo62 [1, 2, 3] = [⟨0, 2 ^ 62, 0⟩] ∧
      joinBodiesChecked (prefixBodyOf (· < ·) onceTwo62 [1])
        (utilityListOf (· < ·) onceTwo62 [1, 2]) (utilityListOf (· < ·) onceTwo62 [1, 3]) =
        .error .overflow) :=
  ⟨⟨by decide, by decide, rfl⟩, by decide, rfl⟩

end AirHuim
