import AirHuim.Mining.Context

/-!
# The estimated utility co-occurrence structure

For every pair of items that occur together the structure sums the stated
utilities of the transactions seen with both. Each new pair is paid for with a
reservation; when one is refused the rest of that transaction is not counted.
Two results: what the structure holds when nothing is refused, and what it holds
under a fixed budget, in terms of the transactions and the budget only.
-/

namespace AirHuim

open Library Basket

structure Eucs where
  inner : Table (ItemId × ItemId) Utility

namespace Eucs

def new : Eucs := ⟨∅⟩

/-- The key of a pair: the smaller item first. -/
def pairKey (x y : ItemId) : ItemId × ItemId := if x < y then (x, y) else (y, x)

/-- The keys of the pairs of a transaction, in the order of the two loops. -/
def pairKeys : List ItemId → List (ItemId × ItemId)
  | [] => []
  | x :: items => items.map (pairKey x) ++ pairKeys items

def addPairs (tu : Utility) :
    List (ItemId × ItemId) → Eucs → MemoryGuard → Bool × Eucs × MemoryGuard
  | [], e, guard => (true, e, guard)
  | key :: keys, e, guard =>
      if key ∈ e.inner then
        addPairs tu keys ⟨Table.modify e.inner key 0 (· + tu)⟩ guard
      else if (guard.tryAlloc 32).1 then
        addPairs tu keys ⟨Table.modify e.inner key 0 (· + tu)⟩ (guard.tryAlloc 32).2
      else (false, e, (guard.tryAlloc 32).2)

def addTransaction (e : Eucs) (items : List ItemId) (tu : Utility) (guard : MemoryGuard) :
    Bool × Eucs × MemoryGuard :=
  addPairs tu (pairKeys items) e guard

/-- An absent pair is taken for one that never occurs. -/
def canPrune (e : Eucs) (x y : ItemId) (minUtility : Utility) : Bool :=
  match e.inner.lookup (pairKey x y) with
  | some tu => decide (tu < minUtility)
  | none => true

theorem canPrune_mono (e : Eucs) (x y : ItemId) {t t' : Utility} (h : t ≤ t')
    (hp : e.canPrune x y t' = false) : e.canPrune x y t = false := by
  unfold canPrune at *
  split at hp
  · simp only [decide_eq_false_iff_not, not_lt] at hp ⊢
    exact h.trans hp
  · cases hp

/-! ## The keys of a transaction -/

theorem pairKey_eq_iff {x y a b : ItemId} :
    pairKey x y = pairKey a b ↔ x = a ∧ y = b ∨ x = b ∧ y = a := by
  unfold pairKey
  split_ifs <;> grind

theorem pairKey_comm (x y : ItemId) : pairKey x y = pairKey y x :=
  pairKey_eq_iff.mpr (Or.inr ⟨rfl, rfl⟩)

theorem mem_pairKeys {items : List ItemId} {x y : ItemId} (hxy : x ≠ y) :
    pairKey x y ∈ pairKeys items ↔ x ∈ items ∧ y ∈ items := by
  induction items with
  | nil => simp [pairKeys]
  | cons a items ih =>
    simp only [pairKeys, List.mem_append, List.mem_map, ih, List.mem_cons, pairKey_eq_iff]
    constructor
    · rintro (⟨b, hb, ⟨rfl, rfl⟩ | ⟨rfl, rfl⟩⟩ | ⟨hx, hy⟩)
      · exact ⟨Or.inl rfl, Or.inr hb⟩
      · exact ⟨Or.inr hb, Or.inl rfl⟩
      · exact ⟨Or.inr hx, Or.inr hy⟩
    · rintro ⟨rfl | hx, rfl | hy⟩
      · exact (hxy rfl).elim
      · exact Or.inl ⟨y, hy, Or.inl ⟨rfl, rfl⟩⟩
      · exact Or.inl ⟨x, hx, Or.inr ⟨rfl, rfl⟩⟩
      · exact Or.inr ⟨hx, hy⟩

theorem exists_of_mem_pairKeys {items : List ItemId} {key : ItemId × ItemId}
    (h : key ∈ pairKeys items) (hnodup : items.Nodup) :
    ∃ x y, x ≠ y ∧ x ∈ items ∧ y ∈ items ∧ key = pairKey x y := by
  induction items with
  | nil => exact (List.not_mem_nil h).elim
  | cons a items ih =>
    obtain ⟨ha, hitems⟩ := List.nodup_cons.mp hnodup
    rcases List.mem_append.mp h with h | h
    · obtain ⟨b, hb, rfl⟩ := List.mem_map.mp h
      exact ⟨a, b, fun hab => ha (hab ▸ hb), List.mem_cons_self, List.mem_cons_of_mem a hb, rfl⟩
    · obtain ⟨x, y, hxy, hx, hy, rfl⟩ := ih h hitems
      exact ⟨x, y, hxy, List.mem_cons_of_mem a hx, List.mem_cons_of_mem a hy, rfl⟩

theorem nodup_pairKeys {items : List ItemId} (h : items.Nodup) : (pairKeys items).Nodup := by
  induction items with
  | nil => exact List.nodup_nil
  | cons a items ih =>
    obtain ⟨ha, hitems⟩ := List.nodup_cons.mp h
    rw [pairKeys, List.nodup_append]
    refine ⟨hitems.map_on ?_, ih hitems, ?_⟩
    · intro b hb c hc heq
      rcases pairKey_eq_iff.mp heq with ⟨-, h⟩ | ⟨h, -⟩
      · exact h
      · exact (ha (h ▸ hc)).elim
    · intro p hp q hq heq
      obtain ⟨b, hb, rfl⟩ := List.mem_map.mp hp
      obtain ⟨x, y, -, hx, hy, rfl⟩ := exists_of_mem_pairKeys hq hitems
      rcases pairKey_eq_iff.mp heq with ⟨h, -⟩ | ⟨h, -⟩
      · exact ha (h ▸ hx)
      · exact ha (h ▸ hy)

/-! ## A pass over the filtered transactions -/

/-- The items of a filtered transaction, as the miners hand them over. -/
def itemsOf (r : FilteredTransaction) : List ItemId := r.items.map ItemEntry.item

/-- The calls of the pass, with whether all of them were answered true. -/
def addAll : List FilteredTransaction → Eucs → MemoryGuard → Bool × Eucs × MemoryGuard
  | [], e, guard => (true, e, guard)
  | r :: rows, e, guard =>
      let (complete, e', guard') := e.addTransaction (itemsOf r) r.transactionUtility guard
      let (complete', out) := addAll rows e' guard'
      (complete && complete', out)

/-- The updates of a pass in which `keys` says which pairs of a transaction are reached. -/
def pairEvents (keys : FilteredTransaction → List (ItemId × ItemId))
    (rows : List FilteredTransaction) : List ((ItemId × ItemId) × Utility) :=
  rows.flatMap fun r => (keys r).map fun key => (key, r.transactionUtility)

section Counted

variable {γ : Type} {keys : γ → List (ItemId × ItemId)} {tu : γ → Utility} {xs : List γ}

theorem argsAt_keys (h : ∀ a ∈ xs, (keys a).Nodup) (key : ItemId × ItemId) :
    Table.argsAt (xs.flatMap fun a => (keys a).map fun key => (key, tu a)) key =
      (xs.filter fun a => key ∈ keys a).map tu := by
  rw [Table.argsAt_flatMap]
  induction xs with
  | nil => rfl
  | cons a xs ih =>
    rw [List.flatMap_cons, ih fun b hb => h b (List.mem_cons_of_mem a hb),
      Table.argsAt_map_const (h a List.mem_cons_self)]
    by_cases hk : key ∈ keys a <;> simp [hk]

/-- A pair is kept if it was reached and what was counted for it is enough. -/
theorem canPrune_of_counted (h : ∀ a ∈ xs, (keys a).Nodup) {e : Eucs}
    (he : e.inner =
      Table.modifyAll ∅ 0 (· + ·) (xs.flatMap fun a => (keys a).map fun key => (key, tu a)))
    (x y : ItemId) (t : Utility) :
    e.canPrune x y t = false ↔
      (∃ a ∈ xs, pairKey x y ∈ keys a) ∧
        t ≤ ((xs.filter fun a => pairKey x y ∈ keys a).map tu).sum := by
  have hnil : (xs.filter fun a => pairKey x y ∈ keys a).map tu = [] ↔
      ¬ ∃ a ∈ xs, pairKey x y ∈ keys a := by
    rw [List.map_eq_nil_iff, List.filter_eq_nil_iff]
    simp
  rw [canPrune, he, Table.lookup_modifyAll_empty, argsAt_keys h, foldl_add_eq_sum, zero_add]
  by_cases hex : ∃ a ∈ xs, pairKey x y ∈ keys a
  · rw [if_neg fun h => hnil.mp h hex]
    simp [hex]
  · rw [if_pos (hnil.mpr hex)]
    simp [hex]

end Counted

theorem canPrune_eq_false_iff {keys : FilteredTransaction → List (ItemId × ItemId)}
    {rows : List FilteredTransaction} (h : ∀ r ∈ rows, (keys r).Nodup) {e : Eucs}
    (he : e.inner = Table.modifyAll ∅ 0 (· + ·) (pairEvents keys rows)) (x y : ItemId)
    (t : Utility) :
    e.canPrune x y t = false ↔
      (∃ r ∈ rows, pairKey x y ∈ keys r) ∧
        t ≤ ((rows.filter fun r => pairKey x y ∈ keys r).map
          FilteredTransaction.transactionUtility).sum :=
  canPrune_of_counted h he x y t

/-! ## When nothing is refused -/

theorem addPairs_complete {tu : Utility} {keys : List (ItemId × ItemId)} {e : Eucs}
    {guard : MemoryGuard} (h : (addPairs tu keys e guard).1 = true) :
    (addPairs tu keys e guard).2.1.inner =
      Table.modifyAll e.inner 0 (· + ·) (keys.map fun key => (key, tu)) := by
  induction keys generalizing e guard with
  | nil => rfl
  | cons key keys ih =>
    unfold addPairs at h ⊢
    split_ifs at h ⊢
    · exact ih h
    · exact ih h

theorem addAll_complete {rows : List FilteredTransaction} {e : Eucs} {guard : MemoryGuard}
    (h : (addAll rows e guard).1 = true) :
    (addAll rows e guard).2.1.inner =
      Table.modifyAll e.inner 0 (· + ·) (pairEvents (fun r => pairKeys (itemsOf r)) rows) := by
  induction rows generalizing e guard with
  | nil => rfl
  | cons r rows ih =>
    simp only [addAll, Bool.and_eq_true] at h ⊢
    have hevents : pairEvents (fun r => pairKeys (itemsOf r)) (r :: rows) =
        (pairKeys (itemsOf r)).map (fun key => (key, r.transactionUtility)) ++
          pairEvents (fun r => pairKeys (itemsOf r)) rows := List.flatMap_cons
    rw [ih h.2, addTransaction, addPairs_complete h.1, hevents, Table.modifyAll_append]

variable {rank : ItemId → Utility ×ₗ ItemId} {rows : List FilteredTransaction}

theorem pairKey_mem_itemsOf {r : FilteredTransaction} {x y : ItemId} (hxy : x ≠ y) :
    pairKey x y ∈ pairKeys (itemsOf r) ↔ {x, y} ⊆ r.basket.items := by
  rw [mem_pairKeys hxy, Finset.insert_subset_iff, Finset.singleton_subset_iff]
  simp [FilteredTransaction.basket, mem_basketOf, itemsOf]

/-- A complete structure never prunes a pair of an itemset that is worth the threshold. -/
theorem canPrune_eq_false (hrows : FilteredRows rank rows) {guard : MemoryGuard}
    (hcomplete : (addAll rows .new guard).1 = true) {X : Finset ItemId} {t : Utility}
    (hocc : Occurs (rows.map FilteredTransaction.basket) X)
    (ht : t ≤ utility (rows.map FilteredTransaction.basket) X) {x y : ItemId} (hx : x ∈ X)
    (hy : y ∈ X) (hxy : x ≠ y) : (addAll rows .new guard).2.1.canPrune x y t = false := by
  have hnodup : ∀ r ∈ rows, (pairKeys (itemsOf r)).Nodup := fun r hr =>
    nodup_pairKeys (hrows.distinct hr)
  have hsub : {x, y} ⊆ X := by
    rw [Finset.insert_subset_iff, Finset.singleton_subset_iff]
    exact ⟨hx, hy⟩
  refine (canPrune_eq_false_iff hnodup (addAll_complete hcomplete) x y t).mpr ⟨?_, ?_⟩
  · obtain ⟨r, hr, hX⟩ := (occurs_map _ _ _).mp hocc
    exact ⟨r, hr, (pairKey_mem_itemsOf hxy).mpr (hsub.trans hX)⟩
  · refine ht.trans (utility_le_sum _ _ _ ?_ ?_ ?_)
    · intro r _ hX
      exact decide_eq_true ((pairKey_mem_itemsOf hxy).mpr (hsub.trans hX))
    · intro r hr hX
      exact hrows.gain_le_transactionUtility hr hX
    · intro r hr _
      exact hrows.transactionUtility_nonneg hr

/-! ## Under a fixed budget -/

section Budget

/-- The keys of a list in the order in which they first occur. -/
def distinct {κ : Type} [DecidableEq κ] (keys : List κ) : List κ := keys.reverse.dedup.reverse

section Distinct

variable {κ : Type} [DecidableEq κ]

@[simp] theorem mem_distinct {keys : List κ} {k : κ} : k ∈ distinct keys ↔ k ∈ keys := by
  simp [distinct]

theorem distinct_concat (keys : List κ) (k : κ) :
    distinct (keys ++ [k]) = if k ∈ keys then distinct keys else distinct keys ++ [k] := by
  split_ifs with hk
  · simp [distinct, List.dedup_cons_of_mem (List.mem_reverse.mpr hk)]
  · simp [distinct, List.dedup_cons_of_notMem fun h => hk (List.mem_reverse.mp h)]

theorem distinct_initial (xs ys : List κ) : distinct xs <+: distinct (xs ++ ys) := by
  induction ys generalizing xs with
  | nil => simp
  | cons y ys ih =>
    have hstep : distinct xs <+: distinct (xs ++ [y]) := by
      rw [distinct_concat]
      split_ifs
      · exact List.prefix_rfl
      · exact List.prefix_append _ _
    have := hstep.trans (ih (xs ++ [y]))
    rwa [List.append_assoc, List.singleton_append] at this

/-- Once the slots are taken, later keys change nothing. -/
theorem take_distinct_append {n : ℕ} {xs : List κ} (h : n ≤ (distinct xs).length) (ys : List κ) :
    (distinct (xs ++ ys)).take n = (distinct xs).take n := by
  obtain ⟨zs, hzs⟩ := distinct_initial xs ys
  rw [← hzs, List.take_append_of_le_length h]

end Distinct

/-- The pairs for which a budget has room: the first ones to occur. -/
def admitted (budget : ℕ) (rows : List FilteredTransaction) : List (ItemId × ItemId) :=
  (distinct (rows.flatMap fun r => pairKeys (itemsOf r))).take (budget / 32)

/-- The pairs of a transaction that are counted: those before its first pair
without room. -/
def trackedKeys (budget : ℕ) (rows : List FilteredTransaction) (r : FilteredTransaction) :
    List (ItemId × ItemId) :=
  (pairKeys (itemsOf r)).takeWhile fun key => key ∈ admitted budget rows

/-- The structure and the guard after the pairs in `visited`. -/
structure Admits (budget : ℕ) (visited : List (ItemId × ItemId)) (e : Eucs)
    (guard : MemoryGuard) : Prop where
  keys : ∀ key, key ∈ e.inner ↔ key ∈ (distinct visited).take (budget / 32)
  used : guard.used = 32 * min (budget / 32) (distinct visited).length
  admits : guard.admits = fun _ used bytes => decide (used + bytes ≤ budget)

theorem Admits.new (budget : ℕ) : Admits budget [] .new (.new budget) := by
  refine ⟨fun key => ?_, ?_, rfl⟩
  · simp [Eucs.new, distinct]
  · simp [MemoryGuard.new, distinct]

variable {budget : ℕ} {visited : List (ItemId × ItemId)} {e : Eucs} {guard : MemoryGuard}

theorem mem_modify (m : Table (ItemId × ItemId) Utility) (key : ItemId × ItemId)
    (f : Utility → Utility) (key' : ItemId × ItemId) :
    key' ∈ Table.modify m key 0 f ↔ key' = key ∨ key' ∈ m := by
  simp [Table.modify]

/-- One more pair that is in the structure already. -/
theorem Admits.seen (h : Admits budget visited e guard) {key : ItemId × ItemId}
    (hkey : key ∈ e.inner) (tu : Utility) :
    Admits budget (visited ++ [key]) ⟨Table.modify e.inner key 0 (· + tu)⟩ guard := by
  have hvisited : key ∈ visited := mem_distinct.mp (List.mem_of_mem_take ((h.keys key).mp hkey))
  have hsame : distinct (visited ++ [key]) = distinct visited := by
    rw [distinct_concat, if_pos hvisited]
  refine ⟨fun key' => ?_, hsame ▸ h.used, h.admits⟩
  rw [hsame, mem_modify, ← h.keys]
  constructor
  · rintro (rfl | hkey')
    · exact hkey
    · exact hkey'
  · exact Or.inr

/-- A new pair, with room for it. -/
theorem Admits.grow (h : Admits budget visited e guard) {key : ItemId × ItemId}
    (hkey : key ∉ e.inner) (hroom : (guard.tryAlloc 32).1 = true) (tu : Utility) :
    Admits budget (visited ++ [key]) ⟨Table.modify e.inner key 0 (· + tu)⟩
      (guard.tryAlloc 32).2 := by
  have hfit : guard.used + 32 ≤ budget := by
    simp only [MemoryGuard.tryAlloc, h.admits] at hroom
    split_ifs at hroom with hle
    exact of_decide_eq_true hle
  have hlen : (distinct visited).length < budget / 32 := by
    have := h.used
    omega
  have htake : (distinct visited).take (budget / 32) = distinct visited :=
    List.take_of_length_le hlen.le
  have hnew : distinct (visited ++ [key]) = distinct visited ++ [key] := by
    rw [distinct_concat, if_neg]
    intro hvisited
    exact hkey ((h.keys key).mpr (htake.symm ▸ mem_distinct.mpr hvisited))
  have htake' : (distinct visited ++ [key]).take (budget / 32) = distinct visited ++ [key] :=
    List.take_of_length_le (by simpa using hlen)
  refine ⟨fun key' => ?_, ?_, ?_⟩
  · rw [hnew, htake', mem_modify, h.keys, htake, List.mem_append, List.mem_singleton, or_comm]
  · have hused : (guard.tryAlloc 32).2.used = guard.used + 32 := by
      simp [MemoryGuard.tryAlloc, h.admits, hfit]
    rw [hused, h.used, hnew, List.length_append, List.length_singleton]
    omega
  · simp [MemoryGuard.tryAlloc, h.admits, hfit]

/-- A new pair that is refused: there is no room for any later one either. -/
theorem Admits.full (h : Admits budget visited e guard) (hroom : ¬ (guard.tryAlloc 32).1 = true)
    (keys : List (ItemId × ItemId)) :
    budget / 32 ≤ (distinct visited).length ∧
      Admits budget (visited ++ keys) e (guard.tryAlloc 32).2 := by
  have hfit : ¬ guard.used + 32 ≤ budget := by
    intro hle
    apply hroom
    simp [MemoryGuard.tryAlloc, h.admits, hle]
  have hlen : budget / 32 ≤ (distinct visited).length := by
    have := h.used
    omega
  have hlonger := (distinct_initial visited keys).length_le
  have hsame : (guard.tryAlloc 32).2.used = guard.used ∧
      (guard.tryAlloc 32).2.admits = guard.admits := by
    simp [MemoryGuard.tryAlloc, h.admits, hfit]
  refine ⟨hlen, fun key => ?_, ?_, hsame.2.trans h.admits⟩
  · rw [take_distinct_append hlen, h.keys]
  · rw [hsame.1, h.used]
    omega

theorem addPairs_budget (h : Admits budget visited e guard) (tu : Utility)
    (keys rest : List (ItemId × ItemId)) :
    Admits budget (visited ++ keys) (addPairs tu keys e guard).2.1 (addPairs tu keys e guard).2.2 ∧
      (addPairs tu keys e guard).2.1.inner = Table.modifyAll e.inner 0 (· + ·)
        ((keys.takeWhile fun key =>
          key ∈ (distinct (visited ++ keys ++ rest)).take (budget / 32)).map fun key =>
            (key, tu)) := by
  induction keys generalizing visited e guard with
  | nil =>
    rw [List.append_nil]
    exact ⟨h, rfl⟩
  | cons key keys ih =>
    -- the pairs with room after `key` have room in the end
    have hmem : ∀ e' : Eucs, ∀ guard' : MemoryGuard, Admits budget (visited ++ [key]) e' guard' →
        key ∈ e'.inner →
        key ∈ (distinct (visited ++ (key :: keys) ++ rest)).take (budget / 32) := by
      intro e' guard' hadm hkey
      have hpre := (distinct_initial (visited ++ [key]) (keys ++ rest)).take (budget / 32)
      have heq : visited ++ [key] ++ (keys ++ rest) = visited ++ (key :: keys) ++ rest := by simp
      rw [heq] at hpre
      exact hpre.subset ((hadm.keys key).mp hkey)
    have happend : visited ++ (key :: keys) = visited ++ [key] ++ keys := by simp
    have hown : ∀ f : Utility → Utility, key ∈ Table.modify e.inner key 0 f :=
      fun f => (mem_modify _ _ _ _).mpr (Or.inl rfl)
    unfold addPairs
    split_ifs with hkey hroom
    · have hadm := h.seen hkey tu
      obtain ⟨hinv, htable⟩ := ih hadm
      rw [List.takeWhile_cons_of_pos (by exact decide_eq_true (hmem _ _ hadm (hown _))), happend]
      exact ⟨hinv, htable⟩
    · have hadm := h.grow hkey hroom tu
      obtain ⟨hinv, htable⟩ := ih hadm
      rw [List.takeWhile_cons_of_pos (by exact decide_eq_true (hmem _ _ hadm (hown _))), happend]
      exact ⟨hinv, htable⟩
    · obtain ⟨hlen, hinv⟩ := h.full hroom (key :: keys)
      refine ⟨hinv, ?_⟩
      rw [List.takeWhile_cons_of_neg]
      · rfl
      · rw [decide_eq_true_iff, List.append_assoc, take_distinct_append hlen, ← h.keys]
        exact hkey

theorem addAll_budget (h : Admits budget visited e guard) (rows : List FilteredTransaction) :
    (addAll rows e guard).2.1.inner = Table.modifyAll e.inner 0 (· + ·)
      (pairEvents (fun r => (pairKeys (itemsOf r)).takeWhile fun key => key ∈
        (distinct (visited ++ rows.flatMap fun r => pairKeys (itemsOf r))).take (budget / 32))
        rows) := by
  induction rows generalizing visited e guard with
  | nil => rfl
  | cons r rows ih =>
    obtain ⟨hinv, htable⟩ := addPairs_budget h r.transactionUtility (pairKeys (itemsOf r))
      (rows.flatMap fun r => pairKeys (itemsOf r))
    have hrest := ih hinv
    rw [htable, ← Table.modifyAll_append] at hrest
    rw [List.flatMap_cons, ← List.append_assoc]
    exact hrest

/-- What the structure holds after a pass under a budget. -/
theorem addAll_new_budget (budget : ℕ) (rows : List FilteredTransaction) :
    (addAll rows .new (.new budget)).2.1.inner =
      Table.modifyAll ∅ 0 (· + ·) (pairEvents (trackedKeys budget rows) rows) :=
  addAll_budget (Admits.new budget) rows

theorem addAll_admits (h : Admits budget visited e guard) (rows : List FilteredTransaction) :
    Admits budget (visited ++ rows.flatMap fun r => pairKeys (itemsOf r))
      (addAll rows e guard).2.1 (addAll rows e guard).2.2 := by
  induction rows generalizing visited e guard with
  | nil =>
    rw [List.flatMap_nil, List.append_nil]
    exact h
  | cons r rows ih =>
    have hrest := ih (addPairs_budget h r.transactionUtility (pairKeys (itemsOf r)) []).1
    rw [List.flatMap_cons, ← List.append_assoc]
    exact hrest

/-- Bytes reserved before the pass only take away from the budget. -/
theorem addPairs_reserved {base used : ℕ} {g g' : MemoryGuard}
    (hg : g.Reserved (base + budget) (base + used)) (hg' : g'.Reserved budget used) (tu : Utility)
    (keys : List (ItemId × ItemId)) (e : Eucs) :
    (addPairs tu keys e g).1 = (addPairs tu keys e g').1 ∧
      (addPairs tu keys e g).2.1 = (addPairs tu keys e g').2.1 ∧
      ∃ used', (addPairs tu keys e g).2.2.Reserved (base + budget) (base + used') ∧
        (addPairs tu keys e g').2.2.Reserved budget used' := by
  induction keys generalizing e g g' used with
  | nil => exact ⟨rfl, rfl, used, hg, hg'⟩
  | cons key keys ih =>
    obtain ⟨hanswer, hnext⟩ := hg.tryAlloc 32
    obtain ⟨hanswer', hnext'⟩ := hg'.tryAlloc 32
    have hiff : base + used + 32 ≤ base + budget ↔ used + 32 ≤ budget := by omega
    simp only [hiff] at hanswer hnext
    unfold addPairs
    by_cases hkey : key ∈ e.inner
    · simp only [if_pos hkey]
      exact ih hg hg' _
    · by_cases hfit : used + 32 ≤ budget
      · simp only [if_pos hfit] at hnext hnext'
        simp only [if_neg hkey, hanswer, hanswer', hfit, decide_true, if_true]
        rw [Nat.add_assoc] at hnext
        exact ih hnext hnext' _
      · simp only [if_neg hfit] at hnext hnext'
        simp only [if_neg hkey, hanswer, hanswer', hfit, decide_false, Bool.false_eq_true, if_false]
        exact ⟨trivial, trivial, used, hnext, hnext'⟩

theorem addAll_reserved {base used : ℕ} {g g' : MemoryGuard}
    (hg : g.Reserved (base + budget) (base + used)) (hg' : g'.Reserved budget used)
    (rows : List FilteredTransaction) (e : Eucs) :
    (addAll rows e g).1 = (addAll rows e g').1 ∧
      (addAll rows e g).2.1 = (addAll rows e g').2.1 ∧
      ∃ used', (addAll rows e g).2.2.Reserved (base + budget) (base + used') ∧
        (addAll rows e g').2.2.Reserved budget used' := by
  induction rows generalizing e g g' used with
  | nil => exact ⟨rfl, rfl, used, hg, hg'⟩
  | cons r rows ih =>
    obtain ⟨hok, heucs, used', hnext, hnext'⟩ :=
      addPairs_reserved hg hg' r.transactionUtility (pairKeys (itemsOf r)) e
    obtain ⟨hok', heucs', hfinal⟩ := ih hnext hnext'
      (addPairs r.transactionUtility (pairKeys (itemsOf r)) e g').2.1
    simp only [addAll, addTransaction, heucs, hok]
    exact ⟨by rw [hok'], heucs', hfinal⟩

/-- A pass under what earlier reservations have left of a budget: the structure
is that of a fresh guard over the rest, and every pair with room stays paid for. -/
theorem addAll_new_reserved {used : ℕ} {g : MemoryGuard} (hg : g.Reserved budget used)
    (rows : List FilteredTransaction) :
    (addAll rows .new g).1 = (addAll rows .new (.new (budget - used))).1 ∧
      (addAll rows .new g).2.1 = (addAll rows .new (.new (budget - used))).2.1 ∧
      (addAll rows .new g).2.2.Reserved budget
        (used + 32 * (admitted (budget - used) rows).length) := by
  have hle := hg.le
  have hbase : g.Reserved (used + (budget - used)) (used + 0) := by
    rw [Nat.add_zero, Nat.add_sub_cancel' hle]
    exact hg
  obtain ⟨hok, heucs, used', hnext, hnext'⟩ :=
    addAll_reserved hbase (MemoryGuard.reserved_new _) rows .new
  have hadm := addAll_admits (Admits.new (budget - used)) rows
  have hused : used' = 32 * (admitted (budget - used) rows).length := by
    have := hadm.used
    rw [hnext'.used_eq, List.nil_append] at this
    rw [this, admitted, List.length_take]
  rw [Nat.add_sub_cancel' hle, hused] at hnext
  exact ⟨hok, heucs, hnext⟩

/-- What was counted for a pair is enough for it to be kept. -/
def PairTracked (budget : ℕ) (rows : List FilteredTransaction) (t : Utility) (x y : ItemId) :
    Prop :=
  (∃ r ∈ rows, pairKey x y ∈ trackedKeys budget rows r) ∧
    t ≤ ((rows.filter fun r => pairKey x y ∈ trackedKeys budget rows r).map
      FilteredTransaction.transactionUtility).sum

instance (budget : ℕ) (rows : List FilteredTransaction) (t : Utility) (x y : ItemId) :
    Decidable (PairTracked budget rows t x y) :=
  inferInstanceAs (Decidable (_ ∧ _))

theorem canPrune_budget (hrows : FilteredRows rank rows) (budget : ℕ) (x y : ItemId) (t : Utility) :
    (addAll rows .new (.new budget)).2.1.canPrune x y t = false ↔
      PairTracked budget rows t x y :=
  canPrune_eq_false_iff (fun _ hr =>
      (nodup_pairKeys (hrows.distinct hr)).sublist (List.takeWhile_sublist _))
    (addAll_new_budget budget rows) x y t

end Budget

end Eucs

end AirHuim
