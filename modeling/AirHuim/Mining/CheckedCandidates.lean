import AirHuim.Mining.CandidateSearch
import AirHuim.Mining.CheckedRuns
import AirHuim.Mining.CheckedSums

/-!
# The sums of the tree miners with overflow checks

What the tree miners add up outside their trees: the weights of the items, in the
database and above one item, and the exact utilities of the candidates. All of it is
nonnegative, and no sum takes from a transaction, or from a path, more than once.
-/

namespace AirHuim

open Library Basket

/-- `twu_map`, with checks. -/
def itemTwusChecked (txs : List RawTransaction) : Except Fault (Table ItemId Utility) :=
  txs.foldlM (fun twu tx => tx.items.foldlM (fun twu entry =>
    TwuFilter.addChecked twu entry.item tx.transactionUtility) twu) ∅

/-- `local_twu`, with checks. -/
def localTwuChecked (cpb : List (List ItemId × Utility)) : Except Fault (Table ItemId Utility) :=
  cpb.foldlM (fun twu e => e.1.foldlM (fun twu i => TwuFilter.addChecked twu i e.2) twu) ∅

/-- `util += u`, with a check. -/
def presentUtilChecked (utils : Table ItemId Utility) :
    Utility → List ItemId → Except Fault (Option Utility)
  | util, [] => return some util
  | util, item :: cand => match utils.lookup item with
    | some u => do
        let util ← checkI64 (util + u)
        presentUtilChecked utils util cand
    | none => return none

/-- `exact_utilities[i] += util`, with a check, if the candidate is present. -/
def addExactChecked (cands : List (List ItemId)) (exactUtilities : List Utility)
    (tx : RawTransaction) : Except Fault (List Utility) :=
  (cands.zip exactUtilities).mapM fun p => do
    match ← presentUtilChecked (txItemUtils tx) 0 p.1 with
    | some util => checkI64 (p.2 + util)
    | none => return p.2

def exactUtilitiesChecked (txs : List RawTransaction) (cands : List (List ItemId)) :
    Except Fault (List Utility) :=
  txs.foldlM (addExactChecked cands) (cands.map fun _ => 0)

def resultTasksChecked (minUtility : Utility) (txs : List RawTransaction)
    (cands : List (List ItemId)) : Except Fault (List Line) := do
  let exactUtilities ← exactUtilitiesChecked txs cands
  return (cands.zip exactUtilities).filter fun l => minUtility ≤ l.2

/-! ## What is returned -/

section Yields

theorem yields_addChecked (twu : Table ItemId Utility) (item : ItemId) (u : Utility) :
    Yields (TwuFilter.addChecked twu item u) (Table.modify twu item 0 (· + u)) :=
  (yields_checkI64 _).bind (Yields.ok _)

theorem yields_itemTwusChecked (txs : List RawTransaction) :
    Yields (itemTwusChecked txs) (itemTwus txs) := by
  refine Yields.foldlM (fun twu tx => ?_) ∅ txs
  exact Yields.foldlM (fun twu entry => yields_addChecked twu entry.item _) twu tx.items

theorem yields_localTwuChecked (cpb : List (List ItemId × Utility)) :
    Yields (localTwuChecked cpb) (localTwu cpb) := by
  refine Yields.foldlM (fun twu e => ?_) ∅ cpb
  exact Yields.foldlM (fun twu i => yields_addChecked twu i e.2) twu e.1

theorem yields_presentUtilChecked (utils : Table ItemId Utility) (util : Utility)
    (cand : List ItemId) :
    Yields (presentUtilChecked utils util cand) (presentUtil utils util cand) := by
  induction cand generalizing util with
  | nil => exact Yields.ok _
  | cons item cand ih =>
    unfold presentUtilChecked presentUtil
    cases utils.lookup item with
    | none => exact Yields.ok none
    | some u => exact (yields_checkI64 _).bind (ih _)

theorem yields_addExactChecked (cands : List (List ItemId)) (exactUtilities : List Utility)
    (tx : RawTransaction) :
    Yields (addExactChecked cands exactUtilities tx) (addExact cands exactUtilities tx) := by
  have hzip : addExact cands exactUtilities tx = (cands.zip exactUtilities).map fun p =>
      p.2 + (presentUtil (txItemUtils tx) 0 p.1).getD 0 := by
    rw [addExact, List.map_zip_eq_zipWith]
    rfl
  rw [hzip]
  refine Yields.mapM (fun p : List ItemId × Utility =>
    (yields_presentUtilChecked _ 0 p.1).bind ?_) _
  cases presentUtil (txItemUtils tx) 0 p.1 with
  | some util => exact yields_checkI64 _
  | none =>
    rw [Option.getD_none, add_zero]
    exact Yields.ok p.2

theorem yields_resultTasksChecked (minUtility : Utility) (txs : List RawTransaction)
    (cands : List (List ItemId)) :
    Yields (resultTasksChecked minUtility txs cands) (resultTasks minUtility txs cands) :=
  (Yields.foldlM (yields_addExactChecked cands) (cands.map fun _ => 0) txs).bind (Yields.ok _)

end Yields

/-! ## Sums that fit -/

theorem itemTwusChecked_eq {txs : List RawTransaction} (hfits : TwuFilter.SumsFit txs) :
    itemTwusChecked txs = .ok (itemTwus txs) :=
  (TwuFilter.foldlM_items txs).trans (if_pos hfits)

/-- Paths of distinct items that weigh less than `2 ^ 63` together. -/
theorem localTwuChecked_eq {cpb : List (List ItemId × Utility)}
    (hcpb : ∀ e ∈ cpb, e.1.Nodup ∧ 0 ≤ e.2) (hsum : (cpb.map Prod.snd).sum < 2 ^ 63) :
    localTwuChecked cpb = .ok (localTwu cpb) := by
  have hweights : ∀ w ∈ cpb.map Prod.snd, 0 ≤ w := by
    intro w hw
    obtain ⟨e, he, rfl⟩ := List.mem_map.mp hw
    exact (hcpb e he).2
  have hfits : AllFit (Table.written 0 (· + ·) ∅
      (cpb.flatMap fun e => e.1.map fun y => (y, e.2))) := by
    apply TwuFilter.allFit_written
    · intro e he
      obtain ⟨p, hp, he⟩ := List.mem_flatMap.mp he
      obtain ⟨y, -, rfl⟩ := List.mem_map.mp he
      exact (hcpb p hp).2
    · intro x
      have hargs : Table.argsAt (cpb.flatMap fun e => e.1.map fun y => (y, e.2)) x =
          (cpb.filter fun e => x ∈ e.1).map Prod.snd := by
        rw [Table.argsAt_flatMap]
        exact flatMap_eq_map_filter fun e he => Table.argsAt_map_const (hcpb e he).1 e.2 x
      rw [hargs]
      exact ((List.filter_sublist.map Prod.snd).sum_le_sum hweights).trans_lt hsum
  have hevents : localTwuChecked cpb = (cpb.flatMap fun e => e.1.map fun y => (y, e.2)).foldlM
      (fun m e => TwuFilter.addChecked m e.1 e.2) ∅ := by
    rw [foldlM_flatMap]
    simp only [List.foldlM_map]
    rfl
  have htwu : Table.modifyAll ∅ 0 (· + ·) (cpb.flatMap fun e => e.1.map fun y => (y, e.2)) =
      localTwu cpb := by
    rw [Table.modifyAll_flatMap]
    simp only [Table.modifyAll, List.foldl_map]
    rfl
  rw [hevents, TwuFilter.foldlM_addChecked, if_pos hfits, htwu]

section Exact

variable {tx : RawTransaction} {txs : List RawTransaction} {cands : List (List ItemId)}

/-- The items of a candidate that are in the transaction fit beside what has been
added up before. -/
theorem presentUtilChecked_eq (htx : tx.WellFormed) {cand : List ItemId} (hcand : cand.Nodup)
    {util : Utility} (hutil : 0 ≤ util)
    (hroom : util + tx.basket.gain (cand.toFinset ∩ tx.basket.items) < 2 ^ 63) :
    presentUtilChecked (txItemUtils tx) util cand =
      .ok (presentUtil (txItemUtils tx) util cand) := by
  induction cand generalizing util with
  | nil => rfl
  | cons x cand ih =>
    obtain ⟨hx, hcand⟩ := List.nodup_cons.mp hcand
    unfold presentUtilChecked presentUtil
    rw [lookup_txItemUtils htx]
    by_cases hmem : x ∈ tx.basket.items
    · have hxc : x ∉ cand.toFinset ∩ tx.basket.items := fun h =>
        hx (List.mem_toFinset.mp (Finset.mem_inter.mp h).1)
      rw [List.toFinset_cons, Finset.insert_inter_of_mem hmem, gain_insert _ hxc,
        ← add_assoc] at hroom
      have hnonneg := nonneg_basketOf htx.nonneg
      have hu : 0 ≤ tx.basket.util x := hnonneg x hmem
      have hrest : 0 ≤ tx.basket.gain (cand.toFinset ∩ tx.basket.items) :=
        gain_nonneg hnonneg Finset.inter_subset_right
      have hsum : checkI64 (util + tx.basket.util x) = .ok (util + tx.basket.util x) :=
        checkI64_eq_ok (add_nonneg hutil hu) (by linarith)
      simp only [if_pos hmem, hsum]
      exact ih hcand (add_nonneg hutil hu) hroom
    · simp only [if_neg hmem]
      rfl

/-- What a candidate is worth in a transaction is between nothing and all of it. -/
theorem presentUtil_within (htx : tx.WellFormed) {cand : List ItemId} (hcand : cand.Nodup) :
    0 ≤ (presentUtil (txItemUtils tx) 0 cand).getD 0 ∧
      (presentUtil (txItemUtils tx) 0 cand).getD 0 ≤ tx.transactionUtility := by
  have hnonneg := nonneg_basketOf htx.nonneg
  rw [presentUtil_eq htx hcand, ← htx.gain_items]
  split_ifs with hsub
  · rw [zero_add]
    exact ⟨gain_nonneg hnonneg hsub, gain_le_gain hnonneg hsub subset_rfl⟩
  · exact ⟨le_rfl, gain_nonneg hnonneg subset_rfl⟩

/-- One transaction of the last pass. -/
theorem addExactChecked_eq (htx : tx.WellFormed) (hcands : ∀ c ∈ cands, c.Nodup)
    {g : List ItemId → Utility} {bound : Utility} (hg : ∀ c ∈ cands, 0 ≤ g c ∧ g c ≤ bound)
    (hfits : bound + tx.transactionUtility < 2 ^ 63) :
    addExactChecked cands (cands.map g) tx = .ok (addExact cands (cands.map g) tx) := by
  have hzip : cands.zip (cands.map g) = cands.map fun c => (c, g c) := by
    have hmap := List.zip_map' (f := id) (l := cands) (g := g)
    rwa [List.map_id] at hmap
  have hnonneg := nonneg_basketOf htx.nonneg
  rw [addExactChecked, hzip, List.mapM_map, addExact_map]
  refine Pass2.mapM_eq_ok fun c hc => ?_
  obtain ⟨hlo, hhi⟩ := hg c hc
  have hroom : 0 + tx.basket.gain (c.toFinset ∩ tx.basket.items) < 2 ^ 63 := by
    have hpart : tx.basket.gain (c.toFinset ∩ tx.basket.items) ≤ tx.basket.gain tx.basket.items :=
      gain_le_gain hnonneg Finset.inter_subset_right subset_rfl
    rw [htx.gain_items] at hpart
    linarith
  obtain ⟨hulo, huhi⟩ := presentUtil_within htx (hcands c hc)
  have hpresent := presentUtilChecked_eq htx (hcands c hc) le_rfl hroom
  simp only [Function.comp_apply, hpresent, bind, Except.bind]
  cases hutil : presentUtil (txItemUtils tx) 0 c with
  | none => exact congrArg Except.ok (add_zero _).symm
  | some util =>
    rw [hutil, Option.getD_some] at hulo huhi
    exact checkI64_eq_ok (add_nonneg hlo hulo) (by linarith)

theorem exactUtilitiesChecked_eq (hwf : ∀ tx ∈ txs, tx.WellFormed)
    (hcands : ∀ c ∈ cands, c.Nodup)
    (hfits : (txs.map RawTransaction.transactionUtility).sum < 2 ^ 63) :
    exactUtilitiesChecked txs cands = .ok (exactUtilities txs cands) := by
  have hfold : ∀ (txs : List RawTransaction) (g : List ItemId → Utility) (bound : Utility),
      (∀ tx ∈ txs, tx.WellFormed) → (∀ c ∈ cands, 0 ≤ g c ∧ g c ≤ bound) →
      bound + (txs.map RawTransaction.transactionUtility).sum < 2 ^ 63 →
      txs.foldlM (addExactChecked cands) (cands.map g) =
        .ok (txs.foldl (addExact cands) (cands.map g)) := by
    intro txs
    induction txs with
    | nil => exact fun _ _ _ _ _ => rfl
    | cons tx txs ih =>
      intro g bound hwf hg hfits
      obtain ⟨htx, hwf⟩ := List.forall_mem_cons.mp hwf
      have hrest : 0 ≤ (txs.map RawTransaction.transactionUtility).sum := by
        refine List.sum_nonneg fun u hu => ?_
        obtain ⟨tx', htx', rfl⟩ := List.mem_map.mp hu
        exact (hwf tx' htx').transactionUtility_nonneg
      rw [List.map_cons, List.sum_cons, ← add_assoc] at hfits
      have hstep := addExactChecked_eq htx hcands hg (by linarith)
      rw [List.foldlM_cons, hstep, List.foldl_cons, addExact_map]
      refine ih _ (bound + tx.transactionUtility) hwf (fun c hc => ?_) hfits
      obtain ⟨hlo, hhi⟩ := hg c hc
      obtain ⟨hulo, huhi⟩ := presentUtil_within htx (hcands c hc)
      exact ⟨add_nonneg hlo hulo, add_le_add hhi huhi⟩
  exact hfold txs (fun _ => 0) 0 hwf (fun _ _ => ⟨le_rfl, le_rfl⟩) (by rwa [zero_add])

theorem resultTasksChecked_eq (hwf : ∀ tx ∈ txs, tx.WellFormed) (hcands : ∀ c ∈ cands, c.Nodup)
    (hfits : (txs.map RawTransaction.transactionUtility).sum < 2 ^ 63) (minUtility : Utility) :
    resultTasksChecked minUtility txs cands = .ok (resultTasks minUtility txs cands) := by
  unfold resultTasksChecked
  rw [exactUtilitiesChecked_eq hwf hcands hfits]
  rfl

end Exact

end AirHuim
