import AirHuim.Mining.Algorithms.UpGrowthOverflow

/-!
# UP-Growth+

The miner of UP-Growth with two more steps on the paths of an item: a loop that
discards unpromising items and lowers the weights of the others by what the paths
deduct, and a filter on what the deductions leave of a path. The deductions are
all zero. The main result is that the loop ends and that the miner emits what
UP-Growth emits. Its runs are those of builds with overflow checks: where a weight
wraps to a negative number, the filter takes its path away.
-/

namespace AirHuim

open Library Basket NodeArena UpGrowth

namespace UpGrowthPlus

/-- A path with the `mnu` of its items, and its utility. -/
abbrev PathEntry := List (ItemId × Utility) × Utility

/-- `cpb`: every `mnu` is set to zero. -/
def withMnu (paths : List (List ItemId × Utility)) : List PathEntry :=
  paths.map fun e => (e.1.map fun i => (i, 0), e.2)

/-- The subtraction of 64-bit integers that stops at their bounds. -/
def saturatingSub (a b : Utility) : Utility :=
  if 0 ≤ b then max (a - b) (-2 ^ 63) else min (a - b) (2 ^ 63 - 1)

/-- The keys that do not reach the threshold. -/
def belowThreshold (minUtil : Utility) (twu : Table ItemId Utility) : Finset ItemId :=
  (Table.retain twu fun _ v => decide (v < minUtil)).keys.toFinset

/-- What a path deducts for the items of `newSet`. -/
def reduction (newSet : Finset ItemId) (path : List (ItemId × Utility)) : Utility :=
  path.foldl (fun reduction e => if e.1 ∈ newSet then reduction + e.2 else reduction) 0

/-- The deduction of one path, taken from the weights of its other items. -/
def reducePath (unpromising newSet : Finset ItemId) (twu : Table ItemId Utility)
    (path : List (ItemId × Utility)) : Table ItemId Utility :=
  if 0 < reduction newSet path then
    path.foldl (fun twu e =>
      if e.1 ∈ unpromising then twu
      else match twu.lookup e.1 with
        | some v => twu.insert e.1 (saturatingSub v (reduction newSet path))
        | none => twu) twu
  else twu

/-- The DLU loop. -/
def discardUnpromising (minUtil : Utility) (cpb : List PathEntry) :
    ℕ → Table ItemId Utility → Finset ItemId → Finset ItemId →
      Except Fault (Table ItemId Utility × Finset ItemId)
  | 0, _, _, _ => .error .stuck
  | fuel + 1, twu, unpromising, processed =>
      let newSet := unpromising \ processed
      if newSet = ∅ then .ok (twu, unpromising)
      else
        let twu := cpb.foldl (fun twu e => reducePath unpromising newSet twu e.1) twu
        discardUnpromising minUtil cpb fuel twu (unpromising ∪ belowThreshold minUtil twu)
          (processed ∪ newSet)

def validItems (unpromising : Finset ItemId) (twu : Table ItemId Utility) :
    List (ItemId × Utility) :=
  (sortByKey (byTwu twu) (twu.keys.filter fun i => i ∉ unpromising)).map fun i =>
    (i, (twu.lookup i).getD 0)

def filteredPath (valid : List ItemId) (twu : Table ItemId Utility)
    (path : List (ItemId × Utility)) : List ItemId :=
  sortByKey (byTwu twu) ((path.map Prod.fst).filter fun i => i ∈ valid)

/-- What is left of a path's utility without its discarded items. -/
def finalPu (valid : List ItemId) (e : PathEntry) : Utility :=
  e.1.foldl (fun pu a => if a.1 ∈ valid then pu else saturatingSub pu a.2) e.2

/-- The paths of a conditional tree: DLN, and those that still weigh something. -/
def localPaths (valid : List ItemId) (twu : Table ItemId Utility) (cpb : List PathEntry) :
    List (List (ItemId × Utility)) :=
  (cpb.filter fun e => filteredPath valid twu e.1 ≠ [] ∧ 0 < finalPu valid e).map fun e =>
    (filteredPath valid twu e.1).map fun i => (i, finalPu valid e)

/-- What `mine_up_tree_plus` makes of the paths of an item. -/
def prepareBy : PrepareBy := fun minUtil localTwu paths => do
  let cpb := withMnu paths
  let (twu, unpromising) ← discardUnpromising minUtil cpb (localTwu.keys.length + 1) localTwu
    (belowThreshold minUtil localTwu) ∅
  let valid := validItems unpromising twu
  return (valid, localPaths (valid.map Prod.fst) twu cpb)

def prepare : Prepare := PrepareBy.prepare prepareBy

def mineUpTreePlus (minUtil : Utility) :
    ℕ → UpTree → List ItemId → ItemId → Found → ArenaM Found :=
  mineUpTreeWith prepare minUtil

/-- `UpGrowthPlus::run`: the count it returns and the world it leaves. -/
def run (order : SetOrder) (source : DataSource) (ctx : MiningContext) :
    Except Fault (ℕ × World) :=
  runWith prepare order source ctx

/-- `run` in a build with overflow checks. -/
def runSums (order : SetOrder) (source : DataSource) (ctx : MiningContext) :
    Except Alarm (ℕ × World) :=
  runWithSums prepareBy order source ctx

/-! ## The loop ends -/

section Loop

variable {minUtil : Utility} {cpb : List PathEntry} {twu twu' : Table ItemId Utility}
  {unpromising processed newSet : Finset ItemId}

theorem belowThreshold_subset (minUtil : Utility) (twu : Table ItemId Utility) :
    belowThreshold minUtil twu ⊆ twu.keys.toFinset := by
  intro i hi
  rw [belowThreshold, List.mem_toFinset] at hi
  rw [List.mem_toFinset]
  exact (List.filter_sublist.map _).subset hi

theorem mem_belowThreshold (minUtil : Utility) (twu : Table ItemId Utility) (i : ItemId) :
    i ∈ belowThreshold minUtil twu ↔ ∃ v, twu.lookup i = some v ∧ v < minUtil := by
  rw [belowThreshold, List.mem_toFinset, Table.mem_keys_iff, Table.lookup_retain]
  cases twu.lookup i <;> simp [Option.filter]

/-- A deduction is made under keys that are there. -/
theorem mem_keys_reducePath (path : List (ItemId × Utility)) (i : ItemId) :
    i ∈ (reducePath unpromising newSet twu path).keys ↔ i ∈ twu.keys := by
  have hfold : ∀ (deduct : Utility) (path : List (ItemId × Utility)) (twu : Table ItemId Utility),
      i ∈ (path.foldl (fun twu e =>
        if e.1 ∈ unpromising then twu
        else match twu.lookup e.1 with
          | some v => twu.insert e.1 (saturatingSub v deduct)
          | none => twu) twu).keys ↔ i ∈ twu.keys := by
    intro deduct path
    induction path with
    | nil => exact fun _ => Iff.rfl
    | cons e path ih =>
      intro twu
      rw [List.foldl_cons, ih]
      split_ifs with he
      · rfl
      · cases hv : twu.lookup e.1 with
        | none => rfl
        | some v =>
          have hmem : e.1 ∈ twu := AList.lookup_isSome.mp (by rw [hv]; rfl)
          rw [← AList.mem_keys, ← AList.mem_keys, AList.mem_insert]
          exact ⟨fun h => h.elim (fun heq => heq ▸ hmem) id, Or.inr⟩
  unfold reducePath
  split_ifs
  · exact hfold _ path twu
  · rfl

theorem mem_keys_reduce (cpb : List PathEntry) (i : ItemId) :
    i ∈ (cpb.foldl (fun twu e => reducePath unpromising newSet twu e.1) twu).keys ↔
      i ∈ twu.keys := by
  induction cpb generalizing twu with
  | nil => rfl
  | cons e cpb ih => rw [List.foldl_cons, ih, mem_keys_reducePath]

/-- The loop ends, whatever the paths deduct: every round processes another key. -/
theorem discardUnpromising_terminates {fuel : ℕ} (hsub : unpromising ⊆ twu.keys.toFinset)
    (hfuel : (twu.keys.toFinset \ processed).card < fuel) :
    ∃ result, discardUnpromising minUtil cpb fuel twu unpromising processed = .ok result := by
  induction fuel generalizing twu unpromising processed with
  | zero => exact (Nat.not_lt_zero _ hfuel).elim
  | succ fuel ih =>
    unfold discardUnpromising
    by_cases hnew : unpromising \ processed = ∅
    · exact ⟨_, if_pos hnew⟩
    · simp only [if_neg hnew]
      have hkeys : (cpb.foldl (fun twu e =>
          reducePath unpromising (unpromising \ processed) twu e.1) twu).keys.toFinset =
            twu.keys.toFinset := by
        ext i
        rw [List.mem_toFinset, List.mem_toFinset, mem_keys_reduce]
      apply ih
      · rw [hkeys]
        exact Finset.union_subset hsub (hkeys ▸ belowThreshold_subset minUtil _)
      · rw [hkeys]
        obtain ⟨i, hi⟩ := Finset.nonempty_of_ne_empty hnew
        obtain ⟨hi, hip⟩ := Finset.mem_sdiff.mp hi
        have hless : twu.keys.toFinset \ (processed ∪ unpromising \ processed) ⊂
            twu.keys.toFinset \ processed := by
          rw [Finset.ssubset_iff_of_subset
            (Finset.sdiff_subset_sdiff subset_rfl Finset.subset_union_left)]
          exact ⟨i, Finset.mem_sdiff.mpr ⟨hsub hi, hip⟩, by simp [hi, hip]⟩
        exact Nat.lt_of_lt_of_le (Finset.card_lt_card hless) (Nat.le_of_lt_succ hfuel)

/-! ## It changes nothing -/

theorem saturatingSub_zero {a : Utility} (h : -2 ^ 63 ≤ a) : saturatingSub a 0 = a := by
  rw [saturatingSub, if_pos le_rfl, sub_zero, max_eq_left h]

/-- A path without deductions. -/
theorem reduction_eq_zero {path : List (ItemId × Utility)} (hpath : ∀ e ∈ path, e.2 = 0) :
    reduction newSet path = 0 := by
  unfold reduction
  induction path with
  | nil => rfl
  | cons e path ih =>
    obtain ⟨he, hpath⟩ := List.forall_mem_cons.mp hpath
    rw [List.foldl_cons, he, add_zero, ite_self]
    exact ih hpath

theorem mnu_of_mem_withMnu {paths : List (List ItemId × Utility)} {e : PathEntry}
    (he : e ∈ withMnu paths) : ∀ a ∈ e.1, a.2 = 0 := by
  obtain ⟨e, -, rfl⟩ := List.mem_map.mp he
  intro a ha
  obtain ⟨i, -, rfl⟩ := List.mem_map.mp ha
  rfl

/-- Without deductions no weight changes. -/
theorem reduce_eq_self (hcpb : ∀ e ∈ cpb, ∀ a ∈ e.1, a.2 = 0) :
    cpb.foldl (fun twu e => reducePath unpromising newSet twu e.1) twu = twu := by
  induction cpb generalizing twu with
  | nil => rfl
  | cons e cpb ih =>
    obtain ⟨he, hcpb⟩ := List.forall_mem_cons.mp hcpb
    have hstep : reducePath unpromising newSet twu e.1 = twu := by
      rw [reducePath, reduction_eq_zero he, if_neg (lt_irrefl 0)]
    rw [List.foldl_cons, hstep]
    exact ih hcpb

/-- What the loop leaves if there is nothing to deduct. -/
theorem discardUnpromising_result (hcpb : ∀ e ∈ cpb, ∀ a ∈ e.1, a.2 = 0) {fuel : ℕ}
    {result : Table ItemId Utility × Finset ItemId}
    (hresult : discardUnpromising minUtil cpb fuel twu (belowThreshold minUtil twu) processed =
      .ok result) :
    result = (twu, belowThreshold minUtil twu) := by
  induction fuel generalizing processed with
  | zero => cases hresult
  | succ fuel ih =>
    unfold discardUnpromising at hresult
    simp only [reduce_eq_self hcpb, Finset.union_self] at hresult
    split_ifs at hresult
    · exact (Except.ok.inj hresult).symm
    · exact ih hresult

/-- The loop of `mine_up_tree_plus` ends with the weights that it began with. -/
theorem discardUnpromising_withMnu (paths : List (List ItemId × Utility))
    (twu : Table ItemId Utility) :
    discardUnpromising minUtil (withMnu paths) (twu.keys.length + 1) twu
      (belowThreshold minUtil twu) ∅ = .ok (twu, belowThreshold minUtil twu) := by
  have hfuel : (twu.keys.toFinset \ ∅).card < twu.keys.length + 1 := by
    rw [Finset.sdiff_empty]
    exact Nat.lt_succ_of_le (List.toFinset_card_le _)
  obtain ⟨result, hresult⟩ : ∃ result, discardUnpromising minUtil (withMnu paths)
      (twu.keys.length + 1) twu (belowThreshold minUtil twu) ∅ = .ok result :=
    discardUnpromising_terminates (belowThreshold_subset minUtil twu) hfuel
  rw [hresult, discardUnpromising_result (fun e he => mnu_of_mem_withMnu he) hresult]

end Loop

/-! ## The paths that are left -/

section Paths

variable {m : Utility} {twu : Table ItemId Utility} {entries : List (List ItemId × Utility)}

/-- What is not unpromising is promising. -/
theorem keys_filter_eq_promising (m : Utility) (twu : Table ItemId Utility) :
    (twu.keys.filter fun i => i ∉ belowThreshold m twu) = promising m twu := by
  have hkeys : promising m twu = (twu.entries.filter fun e => decide (m ≤ e.2)).map Sigma.fst := rfl
  have hall : twu.keys = twu.entries.map Sigma.fst := rfl
  rw [hkeys, hall, List.filter_map]
  congr 1
  apply List.filter_congr
  intro e he
  have hlookup : twu.lookup e.1 = some e.2 := AList.mem_lookup_iff.mpr he
  have hmem := mem_belowThreshold m twu e.1
  rw [hlookup] at hmem
  rw [Function.comp_apply, decide_eq_decide, hmem]
  simp

theorem validItems_belowThreshold (m : Utility) (twu : Table ItemId Utility) :
    validItems (belowThreshold m twu) twu = UpGrowth.validItems m twu := by
  rw [validItems, keys_filter_eq_promising]
  rfl

theorem filteredPath_withMnu (valid : List ItemId) (twu : Table ItemId Utility)
    (path : List ItemId) :
    filteredPath valid twu (path.map fun i => (i, 0)) =
      sortByKey (byTwu twu) (path.filter fun i => i ∈ valid) := by
  rw [filteredPath, List.map_map]
  exact congrArg (fun path : List ItemId => sortByKey (byTwu twu) (path.filter fun i => i ∈ valid))
    (List.map_id path)

theorem finalPu_withMnu (valid path : List ItemId) {pu : Utility} (hpu : 0 ≤ pu) :
    finalPu valid (path.map fun i => (i, 0), pu) = pu := by
  have hbound : -2 ^ 63 ≤ pu := le_trans (by norm_num) hpu
  unfold finalPu
  induction path with
  | nil => rfl
  | cons i path ih =>
    rw [List.map_cons, List.foldl_cons, saturatingSub_zero hbound, ite_self]
    exact ih

/-- The paths that are left are those that weigh something. -/
theorem localPaths_withMnu {cpb : List (List ItemId × Utility)} (hnonneg : ∀ e ∈ cpb, 0 ≤ e.2)
    (valid : List ItemId) (twu : Table ItemId Utility) :
    localPaths valid twu (withMnu cpb) =
      (((cpb.filter fun e => 0 < e.2).map fun e =>
        (sortByKey (byTwu twu) (e.1.filter fun i => i ∈ valid)).map fun i => (i, e.2)).filter
          fun path => path ≠ []) := by
  unfold localPaths withMnu
  rw [List.filter_map, List.filter_map, List.map_map, List.filter_filter]
  have hpath : ∀ e ∈ cpb, filteredPath valid twu (e.1.map fun i => (i, 0)) =
      sortByKey (byTwu twu) (e.1.filter fun i => i ∈ valid) :=
    fun e _ => filteredPath_withMnu valid twu e.1
  have hpu : ∀ e ∈ cpb, finalPu valid (e.1.map fun i => (i, 0), e.2) = e.2 :=
    fun e he => finalPu_withMnu valid e.1 (hnonneg e he)
  refine (List.map_congr_left fun e he => ?_).trans (congrArg _ (List.filter_congr fun e he => ?_))
  · have he := List.mem_of_mem_filter he
    simp only [Function.comp_apply, hpath e he, hpu e he]
  · simp [hpath e he, hpu e he]

/-- The preparation loses only paths that weigh nothing. -/
theorem prepares (m : Utility) : Prepares False m prepare := by
  intro entries hentries
  have hnonneg : ∀ e ∈ condPaths entries, 0 ≤ e.2 :=
    fun e he => (hentries e (List.mem_of_mem_filter he)).2
  have hpaths : localPaths ((UpGrowth.validItems m (localTwu (condPaths entries))).map Prod.fst)
      (localTwu (condPaths entries)) (withMnu (condPaths entries)) =
        UpGrowth.localPaths m (localTwu (condPaths entries))
          (condPaths (entries.filter fun e => 0 < e.2)) := by
    rw [localPaths_withMnu hnonneg, condPaths, List.filter_comm]
    rfl
  have hprepare : prepare m (condPaths entries) =
      .ok (UpGrowth.validItems m (localTwu (condPaths entries)),
        UpGrowth.localPaths m (localTwu (condPaths entries))
          (condPaths (entries.filter fun e => 0 < e.2))) := by
    unfold prepare PrepareBy.prepare prepareBy
    simp only [discardUnpromising_withMnu, bind, Except.bind, validItems_belowThreshold, hpaths]
    rfl
  refine ⟨_, hprepare, rfl, ?_, fun e => 0 < e.2, ?_, fun hfull => hfull.elim, ?_⟩
  · exact fun path hpath e he => mem_localPaths hpath he
  · intro e he hkeep
    exact le_antisymm (not_lt.mp (of_decide_eq_false hkeep)) (hentries e he).2
  · exact flatMap_localPaths m (localTwu (condPaths entries)) _

end Paths

/-! ## The run -/

section Run

variable {db : List SpmfRow} (ctx ctx' : MiningContext) (order order' : SetOrder)

/-- On a database that has room a run without overflow checks returns. -/
theorem returns_of_room (hmin : 1 ≤ ctx.minUtility) (hwf : ∀ row ∈ db, row.WellFormed)
    (hpool : ∀ n, ctx.world.pool.fails n = false) (hroom : ¬ OutOfRoom db) :
    ∃ result, run order (db.map .ok) ctx = .ok result :=
  runWith_returns ctx order (Or.inr (Int.lt_of_lt_of_le Int.zero_lt_one hmin))
    (prepares ctx.minUtility) hwf hpool hroom

theorem runSums_eq_or (source : DataSource) :
    runSums order source ctx = (run order source ctx).mapError .fault ∨
      runSums order source ctx = .error .overflow :=
  runWithSums_eq_or ctx order source

end Run

end UpGrowthPlus

end AirHuim
