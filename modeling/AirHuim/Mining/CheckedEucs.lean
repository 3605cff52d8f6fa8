import AirHuim.Mining.CheckedPasses
import AirHuim.Mining.EucsRefusals

/-!
# Pairs that are refused, with overflow checks

The calls of `add_transaction` in a build that faults where the sum of a pair leaves the
range of `i64`. A sum never falls, so the calls return exactly if every sum is in the
range at the end; and where they return, pruning is sound exactly if no call with
anything to count was cut off.
-/

namespace AirHuim

open Library

namespace Eucs

def addEachChecked : List Added → Eucs → MemoryGuard → Except Fault (Eucs × MemoryGuard)
  | [], e, guard => .ok (e, guard)
  | c :: calls, e, guard => do
      let (_, e', guard') ← e.addTransactionChecked c.items c.tu guard
      addEachChecked calls e' guard'

theorem yields_addEachChecked (calls : List Added) (e : Eucs) (guard : MemoryGuard) :
    Yields (addEachChecked calls e guard) (addEach calls e guard) := by
  induction calls generalizing e guard with
  | nil => exact Yields.ok _
  | cons c calls ih => exact (yields_addTransactionChecked e c.items c.tu guard).bind (ih _ _)

/-- The calls return, and what `can_prune` says of the pair then can be relied on. -/
def SoundAfter (calls : List Added) (guard : MemoryGuard) (x y : ItemId) (t : Utility) : Prop :=
  ∃ r, addEachChecked calls .new guard = .ok r ∧ r.1.SoundAt calls x y t

/-- The sum of every pair stays in the range, over the calls that get to the pair. -/
def CountsFit (calls : List Added) (guard : MemoryGuard) : Prop :=
  ∀ x y, counted (reachAll calls [] guard) x y < 2 ^ 63

/-! ## When the calls return -/

theorem le_valueOf_addPairs {tu : Utility} (htu : 0 ≤ tu) (keys : List (ItemId × ItemId))
    (e : Eucs) (guard : MemoryGuard) (key : ItemId × ItemId) :
    e.valueOf key ≤ (addPairs tu keys e guard).2.1.valueOf key := by
  induction keys generalizing e guard with
  | nil => exact le_rfl
  | cons key' keys ih =>
    have hstep : e.valueOf key ≤
        (⟨Table.modify e.inner key' 0 (· + tu)⟩ : Eucs).valueOf key := by
      rw [valueOf_modify]
      split_ifs with heq
      · rw [heq]
        exact le_add_of_nonneg_right htu
      · exact le_rfl
    unfold addPairs
    split_ifs
    · exact hstep.trans (ih _ _)
    · exact hstep.trans (ih _ _)
    · exact le_rfl

theorem le_valueOf_addEach {calls : List Added} (htu : ∀ c ∈ calls, 0 ≤ c.tu) (e : Eucs)
    (guard : MemoryGuard) (key : ItemId × ItemId) :
    e.valueOf key ≤ (addEach calls e guard).1.valueOf key := by
  induction calls generalizing e guard with
  | nil => exact le_rfl
  | cons c calls ih =>
    have hcall := le_valueOf_addPairs (htu c List.mem_cons_self) (pairKeys c.items) e guard key
    exact hcall.trans (ih (fun c' hc' => htu c' (List.mem_cons_of_mem c hc')) _ _)

/-- The pairs of one call do not overflow if their sums are in the range after it. -/
theorem addPairsChecked_of_lt {tu : Utility} (htu : 0 ≤ tu) {keys : List (ItemId × ItemId)}
    {e : Eucs} {guard : MemoryGuard} (hnonneg : ∀ key, 0 ≤ e.valueOf key)
    (hlt : ∀ key, (addPairs tu keys e guard).2.1.valueOf key < 2 ^ 63) :
    addPairsChecked tu keys e guard = .ok (addPairs tu keys e guard) := by
  induction keys generalizing e guard with
  | nil => rfl
  | cons key keys ih =>
    have hvalue : (⟨Table.modify e.inner key 0 (· + tu)⟩ : Eucs).valueOf key =
        e.valueOf key + tu := by
      rw [valueOf_modify, if_pos rfl]
    have hafter : ∀ key', 0 ≤ (⟨Table.modify e.inner key 0 (· + tu)⟩ : Eucs).valueOf key' := by
      intro key'
      rw [valueOf_modify]
      split_ifs
      · exact add_nonneg (hnonneg key) htu
      · exact hnonneg key'
    have hcheck : ∀ guard', (addPairs tu keys ⟨Table.modify e.inner key 0 (· + tu)⟩
        guard').2.1.valueOf key < 2 ^ 63 →
        checkI64 (e.valueOf key + tu) = .ok (e.valueOf key + tu) := by
      intro guard' hguard'
      have hle := le_valueOf_addPairs htu keys ⟨Table.modify e.inner key 0 (· + tu)⟩ guard' key
      rw [hvalue] at hle
      exact checkI64_eq_ok (add_nonneg (hnonneg key) htu) (hle.trans_lt hguard')
    unfold addPairs at hlt
    unfold addPairsChecked addPairs
    split_ifs at hlt ⊢
    · rw [hcheck _ (hlt key)]
      exact ih hafter hlt
    · rw [hcheck _ (hlt key)]
      exact ih hafter hlt
    · rfl

theorem addEachChecked_of_lt {calls : List Added} (htu : ∀ c ∈ calls, 0 ≤ c.tu) {e : Eucs}
    {guard : MemoryGuard} (hnonneg : ∀ key, 0 ≤ e.valueOf key)
    (hlt : ∀ key, (addEach calls e guard).1.valueOf key < 2 ^ 63) :
    addEachChecked calls e guard = .ok (addEach calls e guard) := by
  induction calls generalizing e guard with
  | nil => rfl
  | cons c calls ih =>
    have hc := htu c List.mem_cons_self
    have hcalls : ∀ c' ∈ calls, 0 ≤ c'.tu := fun c' hc' => htu c' (List.mem_cons_of_mem c hc')
    have hcall : e.addTransactionChecked c.items c.tu guard =
        .ok (e.addTransaction c.items c.tu guard) :=
      addPairsChecked_of_lt hc hnonneg fun key =>
        (le_valueOf_addEach hcalls _ _ key).trans_lt (hlt key)
    unfold addEachChecked
    rw [hcall]
    exact ih hcalls (fun key => (hnonneg key).trans (le_valueOf_addPairs hc _ e guard key)) hlt

/-- What is stored has been checked. -/
theorem valueOf_insert_lt {e : Eucs} (he : ∀ key, e.valueOf key < 2 ^ 63)
    {key : ItemId × ItemId} {tu v : Utility} (h : checkI64 (e.valueOf key + tu) = .ok v) :
    ∀ key', (⟨e.inner.insert key v⟩ : Eucs).valueOf key' < 2 ^ 63 := by
  intro key'
  unfold checkI64 at h
  split at h
  · rename_i hfits
    obtain rfl := Except.ok.inj h
    refine (valueOf_modify e key tu key').trans_lt ?_
    split_ifs
    · exact hfits.2
    · exact he key'
  · cases h

theorem addPairsChecked_lt {tu : Utility} {keys : List (ItemId × ItemId)} {e : Eucs}
    {guard : MemoryGuard} {r : Bool × Eucs × MemoryGuard} (he : ∀ key, e.valueOf key < 2 ^ 63)
    (h : addPairsChecked tu keys e guard = .ok r) : ∀ key, r.2.1.valueOf key < 2 ^ 63 := by
  induction keys generalizing e guard with
  | nil =>
    obtain rfl := Except.ok.inj h
    exact he
  | cons key keys ih =>
    unfold addPairsChecked at h
    split_ifs at h
    · obtain ⟨v, hv, h⟩ := exists_ok_of_bind h
      exact ih (valueOf_insert_lt he hv) h
    · obtain ⟨v, hv, h⟩ := exists_ok_of_bind h
      exact ih (valueOf_insert_lt he hv) h
    · obtain rfl := Except.ok.inj h
      exact he

theorem addEachChecked_lt {calls : List Added} {e : Eucs} {guard : MemoryGuard}
    {r : Eucs × MemoryGuard} (he : ∀ key, e.valueOf key < 2 ^ 63)
    (h : addEachChecked calls e guard = .ok r) : ∀ key, r.1.valueOf key < 2 ^ 63 := by
  induction calls generalizing e guard with
  | nil =>
    obtain rfl := Except.ok.inj h
    exact he
  | cons c calls ih =>
    obtain ⟨s, hcall, h⟩ := exists_ok_of_bind h
    exact ih (addPairsChecked_lt he hcall) h

section Calls

variable {calls : List Added} {guard : MemoryGuard}

theorem valueOf_addEach (hnodup : ∀ c ∈ calls, c.items.Nodup) (key : ItemId × ItemId) :
    (addEach calls .new guard).1.valueOf key =
      (((reachAll calls [] guard).filter fun r => key ∈ r.keys).map fun r => r.call.tu).sum := by
  have hnone : ∀ key, key ∈ Eucs.new.inner ↔ key ∈ [] := fun key => by simp [Eucs.new]
  have hkeys : ∀ r ∈ reachAll calls [] guard, r.keys.Nodup := fun r hr =>
    (nodup_pairKeys (hnodup r.call (mem_reachAll hr).1)).sublist (mem_reachAll hr).2.sublist
  rw [valueOf, addEach_reach hnone calls guard, Eucs.new, Table.lookup_modifyAll_empty,
    argsAt_keys hkeys, foldl_add_eq_sum, zero_add]
  split_ifs with hnil
  · rw [hnil]
    rfl
  · rfl

/-- Every value is what was counted for some pair, or is 0. -/
theorem valueOf_addEach_lt (hnodup : ∀ c ∈ calls, c.items.Nodup)
    (hfits : CountsFit calls guard) (key : ItemId × ItemId) :
    (addEach calls .new guard).1.valueOf key < 2 ^ 63 := by
  rw [valueOf_addEach hnodup]
  by_cases hkey : ∃ r ∈ reachAll calls [] guard, key ∈ r.keys
  · obtain ⟨r, hr, hkey⟩ := hkey
    obtain ⟨hcall, hkeys⟩ := mem_reachAll hr
    obtain ⟨x, y, -, -, -, rfl⟩ := exists_of_mem_pairKeys (hkeys.subset hkey) (hnodup r.call hcall)
    exact hfits x y
  · have hnone : (reachAll calls [] guard).filter (fun r => decide (key ∈ r.keys)) = [] := by
      rw [List.filter_eq_nil_iff]
      exact fun r hr hmem => hkey ⟨r, hr, of_decide_eq_true hmem⟩
    rw [hnone]
    decide

/-- The calls return exactly if the sums stay in the range. -/
theorem addEachChecked_eq (hnodup : ∀ c ∈ calls, c.items.Nodup) (htu : ∀ c ∈ calls, 0 ≤ c.tu)
    (r : Eucs × MemoryGuard) :
    addEachChecked calls .new guard = .ok r ↔
      CountsFit calls guard ∧ r = addEach calls .new guard := by
  constructor
  · intro h
    obtain rfl := Except.ok.inj ((yields_addEachChecked calls .new guard).eq_ok h)
    refine ⟨fun x y => ?_, rfl⟩
    have hnew : ∀ key, Eucs.new.valueOf key < 2 ^ 63 := fun _ => (by decide : (0 : ℤ) < 2 ^ 63)
    have hlt := addEachChecked_lt hnew h (pairKey x y)
    rwa [valueOf_addEach hnodup] at hlt
  · rintro ⟨hfits, rfl⟩
    exact addEachChecked_of_lt htu (fun _ => le_rfl) (valueOf_addEach_lt hnodup hfits)

theorem soundAfter_iff (hnodup : ∀ c ∈ calls, c.items.Nodup) (htu : ∀ c ∈ calls, 0 ≤ c.tu)
    (x y : ItemId) (t : Utility) :
    SoundAfter calls guard x y t ↔
      CountsFit calls guard ∧ SoundAt (addEach calls .new guard).1 calls x y t := by
  constructor
  · rintro ⟨r, hr, hsound⟩
    obtain ⟨hfits, rfl⟩ := (addEachChecked_eq hnodup htu r).mp hr
    exact ⟨hfits, hsound⟩
  · rintro ⟨hfits, hsound⟩
    exact ⟨_, (addEachChecked_eq hnodup htu _).mpr ⟨hfits, rfl⟩, hsound⟩

/-- The calls return and the pruning of a pair is sound if the sums stay in the range
and the pair is worth little, or was counted up to the threshold; and for pairs of two
items and thresholds above 0 exactly if the sums stay in the range and no call with
anything to count was cut off. -/
theorem sound_iff (calls : List Added) (guard : MemoryGuard)
    (hnodup : ∀ c ∈ calls, c.items.Nodup) (htu : ∀ c ∈ calls, 0 ≤ c.tu) :
    (∀ x y t, SoundAfter calls guard x y t ↔ CountsFit calls guard ∧
        (((calls.filter fun c => x ∈ c.items ∧ y ∈ c.items).map Added.tu).sum < t ∨
          (∃ r ∈ reachAll calls [] guard, pairKey x y ∈ r.keys) ∧
            t ≤ counted (reachAll calls [] guard) x y)) ∧
      ((∀ x y, x ≠ y → ∀ t, 0 < t → SoundAfter calls guard x y t) ↔
        CountsFit calls guard ∧ ∀ r ∈ reachAll calls [] guard, r.Refused → r.call.tu = 0) := by
  refine ⟨fun x y t => ?_, fun hsound => ?_, fun ⟨hfits, hzero⟩ x y hxy t ht => ?_⟩
  · rw [soundAfter_iff hnodup htu, soundAt_iff guard hnodup]
  · have hfits := ((soundAfter_iff hnodup htu 0 1 1).mp (hsound 0 1 (by decide) 1 (by decide))).1
    refine ⟨hfits, (forall_soundAt_iff guard hnodup htu).mp fun x y hxy t ht => ?_⟩
    exact ((soundAfter_iff hnodup htu x y t).mp (hsound x y hxy t ht)).2
  · have hsound := (forall_soundAt_iff guard hnodup htu).mpr hzero
    exact (soundAfter_iff hnodup htu x y t).mpr ⟨hfits, hsound x y hxy t ht⟩

/-- No pair is counted beyond what is stated for the calls together. -/
theorem countsFit_of_total (htu : ∀ c ∈ calls, 0 ≤ c.tu)
    (htotal : (calls.map Added.tu).sum < 2 ^ 63) : CountsFit calls guard := by
  intro x y
  have hcalls : ((reachAll calls [] guard).map fun r => r.call.tu) = calls.map Added.tu := by
    conv_rhs => rw [← map_call_reachAll calls [] guard, List.map_map]
    rfl
  have hsub : (((reachAll calls [] guard).filter fun r => pairKey x y ∈ r.keys).map
      fun r => r.call.tu).Sublist (calls.map Added.tu) := by
    rw [← hcalls]
    exact List.filter_sublist.map _
  refine (hsub.sum_le_sum fun u hu => ?_).trans_lt htotal
  obtain ⟨c, hc, rfl⟩ := List.mem_map.mp hu
  exact htu c hc

/-- There is no room for the pair 2 3, but nothing to count for it either. -/
theorem sound_iff_cut :
    SoundAfter [⟨[1, 2], 10⟩, ⟨[1, 2, 3], 0⟩] (.new 64) 1 2 10 ∧
      ∀ x y, x ≠ y → ∀ t, 0 < t →
        SoundAfter [⟨[1, 2], 10⟩, ⟨[1, 2, 3], 0⟩] (.new 64) x y t := by
  obtain ⟨hat, hall⟩ := sound_iff [⟨[1, 2], 10⟩, ⟨[1, 2, 3], 0⟩] (.new 64) (by decide) (by decide)
  have hfits : CountsFit [⟨[1, 2], 10⟩, ⟨[1, 2, 3], 0⟩] (.new 64) :=
    countsFit_of_total (by decide) (by decide)
  exact ⟨(hat 1 2 10).mpr ⟨hfits, Or.inr (by decide)⟩, hall.mpr ⟨hfits, by decide⟩⟩

/-- The pair 1 3 is refused: it is missing, or if there is room for it later on,
counted from then. -/
theorem not_sound_refused :
    ¬ SoundAfter [⟨[1, 2, 3], 10⟩] (.new 32) 1 3 5 ∧
      ¬ SoundAfter [⟨[1, 2, 3], 10⟩, ⟨[1, 3], 20⟩] ⟨0, 0, fun n _ _ => decide (n ≠ 1)⟩ 1 3 25 := by
  constructor
  · rintro ⟨r, hr, hsound⟩
    obtain rfl := Except.ok.inj ((yields_addEachChecked _ _ _).eq_ok hr)
    revert hsound
    decide
  · rintro ⟨r, hr, hsound⟩
    obtain rfl := Except.ok.inj ((yields_addEachChecked _ _ _).eq_ok hr)
    revert hsound
    decide

end Calls

end Eucs

end AirHuim
