import AirHuim.Mining.Eucs

/-!
# Pairs that are refused

Calls of `add_transaction` under a guard that refuses what it likes, when it
likes. Which pairs a call gets to depends on the answers only, and the structure
is the sum over these. A pair that was cut off is missing or undercounted, and
`can_prune` takes it for one that is worth less than it is.
-/

namespace AirHuim

open Library

namespace Eucs

/-- A call of `add_transaction`. -/
structure Added where
  items : List ItemId
  tu : Utility
  deriving DecidableEq, Repr

def addEach : List Added → Eucs → MemoryGuard → Eucs × MemoryGuard
  | [], e, guard => (e, guard)
  | c :: calls, e, guard =>
      let (_, e', guard') := e.addTransaction c.items c.tu guard
      addEach calls e' guard'

/-- What `can_prune` promises of a pair: it is worth less than the threshold in
all the transactions with both items together. -/
def SoundAt (e : Eucs) (calls : List Added) (x y : ItemId) (t : Utility) : Prop :=
  e.canPrune x y t = true →
    ((calls.filter fun c => x ∈ c.items ∧ y ∈ c.items).map Added.tu).sum < t

instance (e : Eucs) (calls : List Added) (x y : ItemId) (t : Utility) :
    Decidable (SoundAt e calls x y t) :=
  inferInstanceAs (Decidable (_ → _))

local instance : LawfulBEq (ItemId × ItemId) := inferInstance

/-- The pairs that a call gets to when those in `seen` are paid for: the ones
before the first that is refused. Then the pairs that are paid for, and the guard. -/
def reach : List (ItemId × ItemId) → List (ItemId × ItemId) → MemoryGuard →
    List (ItemId × ItemId) × List (ItemId × ItemId) × MemoryGuard
  | [], seen, guard => ([], seen, guard)
  | key :: keys, seen, guard =>
      if key ∈ seen then
        let (reached, out) := reach keys seen guard
        (key :: reached, out)
      else if (guard.tryAlloc 32).1 then
        let (reached, out) := reach keys (key :: seen) (guard.tryAlloc 32).2
        (key :: reached, out)
      else ([], seen, (guard.tryAlloc 32).2)

/-- A call with the pairs that it got to. -/
structure Reached where
  call : Added
  keys : List (ItemId × ItemId)
  deriving DecidableEq, Repr

def reachAll : List Added → List (ItemId × ItemId) → MemoryGuard → List Reached
  | [], _, _ => []
  | c :: calls, seen, guard =>
      let (reached, seen', guard') := reach (pairKeys c.items) seen guard
      ⟨c, reached⟩ :: reachAll calls seen' guard'

/-- The call was cut off. -/
def Reached.Refused (r : Reached) : Prop := r.keys ≠ pairKeys r.call.items

/-- What was counted for a pair. -/
def counted (reached : List Reached) (x y : ItemId) : Utility :=
  ((reached.filter fun r => pairKey x y ∈ r.keys).map fun r => r.call.tu).sum

instance (r : Reached) : Decidable r.Refused := inferInstanceAs (Decidable (_ ≠ _))

theorem reach_prefix (keys seen : List (ItemId × ItemId)) (guard : MemoryGuard) :
    (reach keys seen guard).1 <+: keys := by
  induction keys generalizing seen guard with
  | nil => exact List.prefix_rfl
  | cons key keys ih =>
    unfold reach
    split_ifs
    · exact (List.prefix_cons_inj key).mpr (ih seen guard)
    · exact (List.prefix_cons_inj key).mpr (ih _ _)
    · exact List.nil_prefix

/-- A call adds to the pairs that it reaches. -/
theorem addPairs_reach {e : Eucs} {seen : List (ItemId × ItemId)}
    (hseen : ∀ key, key ∈ e.inner ↔ key ∈ seen) (tu : Utility) (keys : List (ItemId × ItemId))
    (guard : MemoryGuard) :
    (addPairs tu keys e guard).2.1.inner = Table.modifyAll e.inner 0 (· + ·)
        ((reach keys seen guard).1.map fun key => (key, tu)) ∧
      (∀ key, key ∈ (addPairs tu keys e guard).2.1.inner ↔ key ∈ (reach keys seen guard).2.1) ∧
      (addPairs tu keys e guard).2.2 = (reach keys seen guard).2.2 := by
  induction keys generalizing e seen guard with
  | nil => exact ⟨rfl, hseen, rfl⟩
  | cons key keys ih =>
    unfold addPairs reach
    by_cases hkey : key ∈ e.inner
    · have hagain : ∀ k, k ∈ Table.modify e.inner key 0 (· + tu) ↔ k ∈ seen := by
        intro k
        rw [mem_modify, hseen, or_iff_right_of_imp]
        rintro rfl
        exact (hseen k).mp hkey
      rw [if_pos hkey, if_pos ((hseen key).mp hkey)]
      exact ih hagain guard
    · rw [if_neg hkey, if_neg fun h => hkey ((hseen key).mpr h)]
      split_ifs with hroom
      · have hnew : ∀ k, k ∈ Table.modify e.inner key 0 (· + tu) ↔ k ∈ key :: seen := by
          intro k
          rw [mem_modify, hseen, List.mem_cons]
        exact ih hnew _
      · exact ⟨rfl, hseen, rfl⟩

theorem addEach_reach {e : Eucs} {seen : List (ItemId × ItemId)}
    (hseen : ∀ key, key ∈ e.inner ↔ key ∈ seen) (calls : List Added) (guard : MemoryGuard) :
    (addEach calls e guard).1.inner = Table.modifyAll e.inner 0 (· + ·)
      ((reachAll calls seen guard).flatMap fun r => r.keys.map fun key => (key, r.call.tu)) := by
  induction calls generalizing e seen guard with
  | nil => rfl
  | cons c calls ih =>
    obtain ⟨hinner, hpaid, hguard⟩ := addPairs_reach hseen c.tu (pairKeys c.items) guard
    have hrest := ih hpaid (addPairs c.tu (pairKeys c.items) e guard).2.2
    rw [hinner, ← Table.modifyAll_append, hguard] at hrest
    simp only [addEach, addTransaction, reachAll, List.flatMap_cons]
    rw [hguard]
    exact hrest

theorem mem_reachAll {calls : List Added} {seen : List (ItemId × ItemId)} {guard : MemoryGuard}
    {r : Reached} (h : r ∈ reachAll calls seen guard) :
    r.call ∈ calls ∧ r.keys <+: pairKeys r.call.items := by
  induction calls generalizing seen guard with
  | nil => exact (List.not_mem_nil h).elim
  | cons c calls ih =>
    rcases List.mem_cons.mp h with rfl | h
    · exact ⟨List.mem_cons_self, reach_prefix _ _ _⟩
    · obtain ⟨hcall, hkeys⟩ := ih h
      exact ⟨List.mem_cons_of_mem c hcall, hkeys⟩

theorem map_call_reachAll (calls : List Added) (seen : List (ItemId × ItemId))
    (guard : MemoryGuard) : (reachAll calls seen guard).map Reached.call = calls := by
  induction calls generalizing seen guard with
  | nil => rfl
  | cons c calls ih =>
    simp only [reachAll, List.map_cons]
    rw [ih]

section Calls

variable {calls : List Added} {guard : MemoryGuard}

theorem canPrune_addEach (hnodup : ∀ c ∈ calls, c.items.Nodup) (x y : ItemId) (t : Utility) :
    (addEach calls .new guard).1.canPrune x y t = false ↔
      (∃ r ∈ reachAll calls [] guard, pairKey x y ∈ r.keys) ∧
        t ≤ counted (reachAll calls [] guard) x y := by
  have hnone : ∀ key, key ∈ Eucs.new.inner ↔ key ∈ [] := fun key => by simp [Eucs.new]
  refine canPrune_of_counted (fun r hr => ?_) (addEach_reach hnone calls guard) x y t
  obtain ⟨hcall, hkeys⟩ := mem_reachAll hr
  exact (nodup_pairKeys (hnodup r.call hcall)).sublist hkeys.sublist

/-- The calls that a pair is in and that did not get to it. -/
def skipped (reached : List Reached) (x y : ItemId) : List Reached :=
  reached.filter fun r => (x ∈ r.call.items ∧ y ∈ r.call.items) ∧ pairKey x y ∉ r.keys

theorem sum_filter_add_sum_filter {α : Type} (xs : List α) (p q : α → Prop) [DecidablePred p]
    [DecidablePred q] (hpq : ∀ a ∈ xs, p a → q a) (f : α → Utility) :
    ((xs.filter fun a => q a).map f).sum =
      ((xs.filter fun a => p a).map f).sum + ((xs.filter fun a => q a ∧ ¬ p a).map f).sum := by
  induction xs with
  | nil => rfl
  | cons a xs ih =>
    have ih := ih fun b hb => hpq b (List.mem_cons_of_mem a hb)
    have ha := hpq a List.mem_cons_self
    by_cases hp : p a
    · simp only [List.filter_cons, hp, ha hp, decide_true, not_true_eq_false, and_false,
        decide_false, Bool.false_eq_true, if_true, if_false, List.map_cons, List.sum_cons, ih,
        add_assoc]
    · by_cases hq : q a
      · simp only [List.filter_cons, hp, hq, decide_true, not_false_eq_true, and_true,
          decide_false, Bool.false_eq_true, if_true, if_false, List.map_cons, List.sum_cons, ih]
        exact add_left_comm _ _ _
      · simp only [List.filter_cons, hp, hq, false_and, decide_false, Bool.false_eq_true, if_false,
          ih]

/-- What a pair is worth is what was counted for it and what was skipped. -/
theorem sum_eq_counted_add (calls : List Added) (guard : MemoryGuard) {x y : ItemId}
    (hxy : x ≠ y) :
    ((calls.filter fun c => x ∈ c.items ∧ y ∈ c.items).map Added.tu).sum =
      counted (reachAll calls [] guard) x y +
        ((skipped (reachAll calls [] guard) x y).map fun r => r.call.tu).sum := by
  have hcalls := map_call_reachAll calls [] guard
  have hreached : ∀ r ∈ reachAll calls [] guard, pairKey x y ∈ r.keys →
      x ∈ r.call.items ∧ y ∈ r.call.items := fun r hr hkey =>
    (mem_pairKeys hxy).mp ((mem_reachAll hr).2.subset hkey)
  calc
    ((calls.filter fun c => x ∈ c.items ∧ y ∈ c.items).map Added.tu).sum =
        (((reachAll calls [] guard).filter fun r => x ∈ r.call.items ∧ y ∈ r.call.items).map
          fun r => r.call.tu).sum := by
      conv_lhs => rw [← hcalls, List.filter_map, List.map_map]
      rfl
    _ = _ := sum_filter_add_sum_filter _ (fun r => pairKey x y ∈ r.keys) _ hreached _

/-- A refused call skips one of its pairs. -/
theorem exists_skipped {r : Reached} (hr : r ∈ reachAll calls [] guard)
    (hnodup : r.call.items.Nodup) (hrefused : r.Refused) :
    ∃ x y, x ≠ y ∧ r ∈ skipped (reachAll calls [] guard) x y := by
  obtain ⟨hcall, hprefix⟩ := mem_reachAll hr
  obtain ⟨rest, hrest⟩ := hprefix
  obtain ⟨key, tail, rfl⟩ : ∃ key tail, rest = key :: tail := by
    refine List.exists_cons_of_ne_nil fun hnil => hrefused ?_
    rw [← hrest, hnil, List.append_nil]
  have hkeys := nodup_pairKeys hnodup
  rw [← hrest] at hkeys
  have hcut : key ∉ r.keys := fun h => (List.disjoint_of_nodup_append hkeys) h List.mem_cons_self
  have hkey : key ∈ pairKeys r.call.items := by
    rw [← hrest]
    exact List.mem_append_right _ List.mem_cons_self
  obtain ⟨x, y, hxy, hx, hy, rfl⟩ := exists_of_mem_pairKeys hkey hnodup
  refine ⟨x, y, hxy, List.mem_filter.mpr ⟨hr, ?_⟩⟩
  simp [hx, hy, hcut]

theorem soundAt_iff {calls : List Added} (guard : MemoryGuard)
    (hnodup : ∀ c ∈ calls, c.items.Nodup) (x y : ItemId) (t : Utility) :
    SoundAt (addEach calls .new guard).1 calls x y t ↔
      ((calls.filter fun c => x ∈ c.items ∧ y ∈ c.items).map Added.tu).sum < t ∨
        (∃ r ∈ reachAll calls [] guard, pairKey x y ∈ r.keys) ∧
          t ≤ counted (reachAll calls [] guard) x y := by
  rw [← canPrune_addEach hnodup, SoundAt]
  cases (addEach calls .new guard).1.canPrune x y t <;> simp

theorem nonneg_reachAll {calls : List Added} {guard : MemoryGuard} (htu : ∀ c ∈ calls, 0 ≤ c.tu)
    {r : Reached} (hr : r ∈ reachAll calls [] guard) : 0 ≤ r.call.tu :=
  htu _ (mem_reachAll hr).1

theorem counted_nonneg {calls : List Added} (guard : MemoryGuard) (htu : ∀ c ∈ calls, 0 ≤ c.tu)
    (x y : ItemId) : 0 ≤ counted (reachAll calls [] guard) x y := by
  refine List.sum_nonneg fun u hu => ?_
  obtain ⟨r, hr, rfl⟩ := List.mem_map.mp hu
  exact nonneg_reachAll htu (List.mem_of_mem_filter hr)

/-- A pair that no call got to was counted up to 0. -/
theorem counted_eq_zero {reached : List Reached} {x y : ItemId}
    (h : ¬∃ r ∈ reached, pairKey x y ∈ r.keys) : counted reached x y = 0 := by
  have hfilter : reached.filter (fun r => pairKey x y ∈ r.keys) = [] := by
    rw [List.filter_eq_nil_iff]
    exact fun r hr hkey => h ⟨r, hr, of_decide_eq_true hkey⟩
  rw [counted, hfilter]
  rfl

theorem le_sum_skipped {calls : List Added} {guard : MemoryGuard} (htu : ∀ c ∈ calls, 0 ≤ c.tu)
    {x y : ItemId} {r : Reached} (hr : r ∈ skipped (reachAll calls [] guard) x y) :
    r.call.tu ≤ ((skipped (reachAll calls [] guard) x y).map fun r => r.call.tu).sum := by
  refine List.single_le_sum (fun u hu => ?_) _ (List.mem_map_of_mem hr)
  obtain ⟨r', hr', rfl⟩ := List.mem_map.mp hu
  exact nonneg_reachAll htu (List.mem_of_mem_filter hr')

/-- If only calls with nothing to count are cut off, nothing is missing. -/
theorem sum_skipped_eq_zero {calls : List Added} {guard : MemoryGuard}
    (hzero : ∀ r ∈ reachAll calls [] guard, r.Refused → r.call.tu = 0) {x y : ItemId}
    (hxy : x ≠ y) : ((skipped (reachAll calls [] guard) x y).map fun r => r.call.tu).sum = 0 := by
  refine List.sum_eq_zero fun u hu => ?_
  obtain ⟨r, hr, rfl⟩ := List.mem_map.mp hu
  refine hzero r (List.mem_of_mem_filter hr) fun hwhole => ?_
  obtain ⟨-, hr⟩ := List.mem_filter.mp hr
  simp only [decide_eq_true_eq] at hr
  exact hr.2 (hwhole ▸ (mem_pairKeys hxy).mpr hr.1)

/-- For pairs of two items and thresholds above 0 pruning is sound exactly if no call
with anything to count was cut off. -/
theorem forall_soundAt_iff {calls : List Added} (guard : MemoryGuard)
    (hnodup : ∀ c ∈ calls, c.items.Nodup) (htu : ∀ c ∈ calls, 0 ≤ c.tu) :
    (∀ x y, x ≠ y → ∀ t, 0 < t → SoundAt (addEach calls .new guard).1 calls x y t) ↔
      ∀ r ∈ reachAll calls [] guard, r.Refused → r.call.tu = 0 := by
  refine ⟨fun hsound r hr hrefused => ?_, fun hzero x y hxy t ht => ?_⟩
  · obtain ⟨hcall, -⟩ := mem_reachAll hr
    obtain ⟨x, y, hxy, hskip⟩ := exists_skipped hr (hnodup _ hcall) hrefused
    have htotal := sum_eq_counted_add calls guard hxy
    have hle := le_sum_skipped htu hskip
    have hcounted := counted_nonneg guard htu x y
    by_contra hne
    have hpos : 0 < r.call.tu := lt_of_le_of_ne (htu _ hcall) (Ne.symm hne)
    -- at the threshold of all that the pair is worth, what was skipped is missing
    have hpruned := (soundAt_iff guard hnodup x y _).mp (hsound x y hxy
      (counted (reachAll calls [] guard) x y +
        ((skipped (reachAll calls [] guard) x y).map fun r => r.call.tu).sum) (by linarith))
    rcases hpruned with hlt | ⟨-, hle'⟩
    · exact (ne_of_lt hlt htotal).elim
    · linarith
  · have htotal := sum_eq_counted_add calls guard hxy
    rw [sum_skipped_eq_zero hzero hxy, add_zero] at htotal
    rw [soundAt_iff guard hnodup, htotal]
    by_cases hreached : ∃ r ∈ reachAll calls [] guard, pairKey x y ∈ r.keys
    · exact (lt_or_ge _ t).imp_right fun hle => ⟨hreached, hle⟩
    · left
      rw [counted_eq_zero hreached]
      exact ht

end Calls

end Eucs

end AirHuim
