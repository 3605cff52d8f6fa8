import AirHuim.Mining.OneItemLists
import AirHuim.Preprocessing.TwuBound

/-!
# Sums with overflow checks

The arithmetic of the second pass and of the joins, in a build that faults where a
sum or difference leaves the range of `i64`. On rows whose stated utilities are
together below `2 ^ 63` nothing faults in the pass. In a join nothing does but the
sum of the two entries from which the prefix has not been taken yet.
-/

namespace AirHuim

open Library Basket

theorem checkI64_eq_ok {z : ℤ} (hlo : 0 ≤ z) (hhi : z < 2 ^ 63) : checkI64 z = .ok z :=
  if_pos ⟨by omega, hhi⟩

/-- `iter().sum()`, from what has been added up before. -/
def sumChecked (acc : Utility) (values : List Utility) : Except Fault Utility :=
  values.foldlM (fun acc v => checkI64 (acc + v)) acc

/-- A sum is computed if it is in range at every moment. -/
theorem sumChecked_of_fits {acc : Utility} {values : List Utility}
    (h : ∀ part, part <+: values → FitsI64 (acc + part.sum)) :
    sumChecked acc values = .ok (acc + values.sum) := by
  induction values generalizing acc with
  | nil => simp [sumChecked, pure, Except.pure]
  | cons v values ih =>
    have hv : checkI64 (acc + v) = .ok (acc + v) := by
      have hfits := h [v] ((List.prefix_cons_inj v).mpr List.nil_prefix)
      rw [List.sum_singleton] at hfits
      exact if_pos hfits
    have hstep : sumChecked acc (v :: values) = sumChecked (acc + v) values := by
      rw [sumChecked, List.foldlM_cons, hv]
      rfl
    rw [hstep, List.sum_cons, ← add_assoc]
    refine ih fun part hpart => ?_
    have hfits := h (v :: part) ((List.prefix_cons_inj v).mpr hpart)
    rwa [List.sum_cons, ← add_assoc] at hfits

theorem sumChecked_eq {acc : Utility} {values : List Utility} (hacc : 0 ≤ acc)
    (hvalues : ∀ v ∈ values, 0 ≤ v) (hsum : acc + values.sum < 2 ^ 63) :
    sumChecked acc values = .ok (acc + values.sum) := by
  refine sumChecked_of_fits fun part hpart => ?_
  have hlo : 0 ≤ part.sum := List.sum_nonneg fun v hv => hvalues v (hpart.subset hv)
  have hhi : part.sum ≤ values.sum := hpart.sublist.sum_le_sum hvalues
  exact ⟨by linarith, by linarith⟩

theorem FilteredRows.tail {rank : ItemId → Utility ×ₗ ItemId} {r : FilteredTransaction}
    {rows : List FilteredTransaction} (h : FilteredRows rank (r :: rows)) :
    FilteredRows rank rows where
  length_lt := (Nat.lt_succ_self _).trans h.length_lt
  tids := h.tids.of_cons
  tid_lt r' hr' := h.tid_lt r' (List.mem_cons_of_mem r hr')
  sorted r' hr' := h.sorted r' (List.mem_cons_of_mem r hr')
  nonneg r' hr' := h.nonneg r' (List.mem_cons_of_mem r hr')
  gain_le r' hr' := h.gain_le r' (List.mem_cons_of_mem r hr')
  fits r' hr' := h.fits r' (List.mem_cons_of_mem r hr')

/-- What is stated for the rows, all together. -/
def totalOf (rows : List FilteredTransaction) : Utility :=
  (rows.map FilteredTransaction.transactionUtility).sum

theorem totalOf_cons (r : FilteredTransaction) (rows : List FilteredTransaction) :
    totalOf (r :: rows) = r.transactionUtility + totalOf rows :=
  List.sum_cons

theorem FilteredRows.totalOf_nonneg {rank : ItemId → Utility ×ₗ ItemId}
    {rows : List FilteredTransaction} (h : FilteredRows rank rows) : 0 ≤ totalOf rows := by
  refine List.sum_nonneg fun u hu => ?_
  obtain ⟨r, hr, rfl⟩ := List.mem_map.mp hu
  exact h.transactionUtility_nonneg hr

/-- A sum that takes from every row at most once at most what is stated for it. -/
theorem FilteredRows.sum_filter_le {rank : ItemId → Utility ×ₗ ItemId}
    {rows : List FilteredTransaction} (h : FilteredRows rank rows)
    {p : FilteredTransaction → Bool} {f : FilteredTransaction → Utility}
    (hf : ∀ r ∈ rows, p r = true → 0 ≤ f r ∧ f r ≤ r.transactionUtility) :
    0 ≤ ((rows.filter p).map f).sum ∧ ((rows.filter p).map f).sum ≤ totalOf rows := by
  induction rows with
  | nil => exact ⟨le_rfl, le_rfl⟩
  | cons r rows ih =>
    obtain ⟨hlo, hhi⟩ := ih h.tail fun r' hr' => hf r' (List.mem_cons_of_mem r hr')
    have htu := h.transactionUtility_nonneg List.mem_cons_self
    rw [totalOf_cons]
    cases hp : p r with
    | false =>
      rw [List.filter_cons_of_neg (by simp [hp])]
      exact ⟨hlo, by linarith⟩
    | true =>
      obtain ⟨hrlo, hrhi⟩ := hf r List.mem_cons_self hp
      rw [List.filter_cons_of_pos hp, List.map_cons, List.sum_cons]
      exact ⟨by linarith, by linarith⟩

section Entries

variable {rank : ItemId → Utility ×ₗ ItemId} {rows : List FilteredTransaction}

theorem FilteredRows.gain_within (h : FilteredRows rank rows) {r : FilteredTransaction}
    (hr : r ∈ rows) {X : Finset ItemId} (hX : X ⊆ r.basket.items) :
    0 ≤ r.basket.gain X ∧ r.basket.gain X ≤ r.transactionUtility :=
  ⟨gain_nonneg (h.basket_nonneg hr) hX, h.gain_le_transactionUtility hr hX⟩

theorem FilteredRows.sum_iutils (h : FilteredRows rank rows) (X : Finset ItemId) (y : ItemId) :
    0 ≤ ((entriesOf rank rows X y).map ULEntry.iutils).sum ∧
      ((entriesOf rank rows X y).map ULEntry.iutils).sum ≤ totalOf rows := by
  rw [entriesOf, List.map_map]
  exact h.sum_filter_le fun r hr hX => h.gain_within hr (of_decide_eq_true hX)

theorem FilteredRows.sum_rutils (h : FilteredRows rank rows) (X : Finset ItemId) (y : ItemId) :
    0 ≤ ((entriesOf rank rows X y).map ULEntry.rutils).sum ∧
      ((entriesOf rank rows X y).map ULEntry.rutils).sum ≤ totalOf rows := by
  rw [entriesOf, List.map_map]
  exact h.sum_filter_le fun r hr _ => h.gain_within hr (Finset.filter_subset _ _)

end Entries

/-! ## The pair structure -/

namespace Eucs

/-- What the structure holds for a pair; nothing counts as 0. -/
def valueOf (e : Eucs) (key : ItemId × ItemId) : Utility := (e.inner.lookup key).getD 0

def addPairsChecked (tu : Utility) :
    List (ItemId × ItemId) → Eucs → MemoryGuard → Except Fault (Bool × Eucs × MemoryGuard)
  | [], e, guard => .ok (true, e, guard)
  | key :: keys, e, guard =>
      if key ∈ e.inner then do
        let v ← checkI64 (e.valueOf key + tu)
        addPairsChecked tu keys ⟨e.inner.insert key v⟩ guard
      else if (guard.tryAlloc 32).1 then do
        let v ← checkI64 (e.valueOf key + tu)
        addPairsChecked tu keys ⟨e.inner.insert key v⟩ (guard.tryAlloc 32).2
      else .ok (false, e, (guard.tryAlloc 32).2)

def addTransactionChecked (e : Eucs) (items : List ItemId) (tu : Utility) (guard : MemoryGuard) :
    Except Fault (Bool × Eucs × MemoryGuard) :=
  addPairsChecked tu (pairKeys items) e guard

/-- Every value is from 0 to `bound`. -/
def Within (e : Eucs) (bound : Utility) : Prop := ∀ key, 0 ≤ e.valueOf key ∧ e.valueOf key ≤ bound

theorem within_new {bound : Utility} (h : 0 ≤ bound) : new.Within bound :=
  fun _ => ⟨le_rfl, h⟩

theorem valueOf_modify (e : Eucs) (key : ItemId × ItemId) (tu : Utility) (key' : ItemId × ItemId) :
    (⟨Table.modify e.inner key 0 (· + tu)⟩ : Eucs).valueOf key' =
      if key' = key then e.valueOf key + tu else e.valueOf key' := by
  unfold valueOf
  rw [Table.lookup_modify]
  split_ifs <;> rfl

/-- The pairs of one transaction: each is added to once, so that no value grows by
more than the transaction's utility. -/
theorem addPairsChecked_eq {bound tu : Utility} (htu : 0 ≤ tu) (hfits : bound + tu < 2 ^ 63)
    {keys : List (ItemId × ItemId)} (hnodup : keys.Nodup) {e : Eucs}
    (he : e.Within (bound + tu)) (hkeys : ∀ key ∈ keys, e.valueOf key ≤ bound)
    (guard : MemoryGuard) :
    addPairsChecked tu keys e guard = .ok (addPairs tu keys e guard) ∧
      (addPairs tu keys e guard).2.1.Within (bound + tu) := by
  induction keys generalizing e guard with
  | nil => exact ⟨rfl, he⟩
  | cons key keys ih =>
    obtain ⟨hkey, hnodup⟩ := List.nodup_cons.mp hnodup
    have hlo := (he key).1
    have hle := hkeys key List.mem_cons_self
    have hcheck : checkI64 (e.valueOf key + tu) = .ok (e.valueOf key + tu) :=
      checkI64_eq_ok (by linarith) (by linarith)
    have hwithin : (⟨Table.modify e.inner key 0 (· + tu)⟩ : Eucs).Within (bound + tu) := by
      intro key'
      rw [valueOf_modify]
      split_ifs
      · exact ⟨by linarith, by linarith⟩
      · exact he key'
    have hrest : ∀ key' ∈ keys,
        (⟨Table.modify e.inner key 0 (· + tu)⟩ : Eucs).valueOf key' ≤ bound := by
      intro key' hkey'
      have hne : key' ≠ key := fun heq => hkey (heq ▸ hkey')
      rw [valueOf_modify, if_neg hne]
      exact hkeys key' (List.mem_cons_of_mem key hkey')
    unfold addPairsChecked addPairs
    rw [hcheck]
    split_ifs
    · exact ih hnodup hwithin hrest guard
    · exact ih hnodup hwithin hrest _
    · exact ⟨rfl, he⟩

end Eucs

/-! ## The lists of single items -/

namespace Pass2

def rowEntriesChecked (tid : ℕ) :
    Utility → List ItemEntry → Except Fault (List (ItemId × ULEntry))
  | _, [] => .ok []
  | running, entry :: items => do
      let running ← checkI64 (running - entry.utility)
      let entries ← rowEntriesChecked tid running items
      return (entry.item, ⟨tid, entry.utility, running⟩) :: entries

def addRowChecked (s : Pass2) (r : FilteredTransaction) : Except Fault Pass2 := do
  let (complete, eucs, guard) ←
    s.eucs.addTransactionChecked (Eucs.itemsOf r) r.transactionUtility s.guard
  let totalUtility ← sumChecked 0 (r.items.map ItemEntry.utility)
  let entries ← rowEntriesChecked r.tid totalUtility r.items
  let perItem := entries.foldl (fun perItem e => Table.modify perItem e.1 [] (· ++ [e.2])) s.perItem
  return ⟨eucs, perItem, guard, s.oom || !complete⟩

def runChecked (guard : MemoryGuard) (rows : List FilteredTransaction) : Except Fault Pass2 :=
  rows.foldlM addRowChecked (new guard)

def headerChecked (item : ItemId) (entries : List ULEntry) : Except Fault ItemList := do
  let sumIutils ← sumChecked 0 (entries.map ULEntry.iutils)
  let sumRutils ← sumChecked 0 (entries.map ULEntry.rutils)
  return (item, ⟨[item], sumIutils, sumRutils, entries.length % 2 ^ 32, 0, true, .recomputable⟩,
    entries)

def itemListsChecked (s : Pass2) : Except Fault (List ItemList) :=
  (sortByKey id s.perItem.keys).mapM fun item =>
    headerChecked item ((s.perItem.lookup item).getD [])

/-- What is left of a transaction is never more than all of it. -/
theorem rowEntriesChecked_eq (tid : ℕ) {items : List ItemEntry}
    (hnonneg : ∀ e ∈ items, 0 ≤ e.utility) (hsum : (items.map ItemEntry.utility).sum < 2 ^ 63) :
    rowEntriesChecked tid (items.map ItemEntry.utility).sum items =
      .ok (rowEntries tid (items.map ItemEntry.utility).sum items) := by
  induction items with
  | nil => rfl
  | cons e items ih =>
    have he := hnonneg e List.mem_cons_self
    have hrest : ∀ e' ∈ items, 0 ≤ e'.utility := fun e' he' =>
      hnonneg e' (List.mem_cons_of_mem e he')
    have hlo : 0 ≤ (items.map ItemEntry.utility).sum := by
      refine List.sum_nonneg fun u hu => ?_
      obtain ⟨e', he', rfl⟩ := List.mem_map.mp hu
      exact hrest e' he'
    rw [List.map_cons, List.sum_cons] at hsum
    have hrunning : ((e :: items).map ItemEntry.utility).sum - e.utility =
        (items.map ItemEntry.utility).sum := by simp
    unfold rowEntriesChecked rowEntries
    rw [hrunning, checkI64_eq_ok hlo (by linarith)]
    have htail := ih hrest (by linarith)
    simp only [bind, Except.bind, htail]
    rfl

variable {rank : ItemId → Utility ×ₗ ItemId} {rows : List FilteredTransaction}

theorem sum_utilities (h : FilteredRows rank rows) {r : FilteredTransaction} (hr : r ∈ rows) :
    0 ≤ (r.items.map ItemEntry.utility).sum ∧
      (r.items.map ItemEntry.utility).sum ≤ r.transactionUtility := by
  have hgain := gain_basketOf (h.distinct hr)
  constructor
  · rw [← hgain]
    exact gain_nonneg (h.basket_nonneg hr) subset_rfl
  · rw [← hgain]
    exact h.gain_le r hr

/-- The entries of one row, which are worth no more than what is stated for it. -/
theorem entriesChecked_eq (h : FilteredRows rank rows) {r : FilteredTransaction} (hr : r ∈ rows) :
    sumChecked 0 (r.items.map ItemEntry.utility) = .ok (r.items.map ItemEntry.utility).sum ∧
      rowEntriesChecked r.tid (r.items.map ItemEntry.utility).sum r.items =
        .ok (rowEntries r.tid (r.items.map ItemEntry.utility).sum r.items) := by
  have hlt : (r.items.map ItemEntry.utility).sum < 2 ^ 63 :=
    (sum_utilities h hr).2.trans_lt (h.fits r hr).2
  have hnonneg : ∀ u ∈ r.items.map ItemEntry.utility, 0 ≤ u := by
    intro u hu
    obtain ⟨e, he, rfl⟩ := List.mem_map.mp hu
    exact h.nonneg r hr e he
  constructor
  · rw [sumChecked_eq le_rfl hnonneg (by linarith), zero_add]
  · exact rowEntriesChecked_eq r.tid (h.nonneg r hr) hlt

/-- One row: the values of the pairs and of the entries stay within what is stated
for the rows so far. -/
theorem addRowChecked_eq (h : FilteredRows rank rows) {r : FilteredTransaction} (hr : r ∈ rows)
    {s : Pass2} {bound : Utility} (hs : s.eucs.Within bound)
    (hfits : bound + r.transactionUtility < 2 ^ 63) :
    addRowChecked s r = .ok (addRow s r) ∧
      (addRow s r).eucs.Within (bound + r.transactionUtility) := by
  have htu := h.transactionUtility_nonneg hr
  have hwithin : s.eucs.Within (bound + r.transactionUtility) := by
    intro key
    obtain ⟨hlo, hhi⟩ := hs key
    exact ⟨hlo, by linarith⟩
  have hdistinct : (Eucs.itemsOf r).Nodup := h.distinct hr
  obtain ⟨hpairs, hafter⟩ := Eucs.addPairsChecked_eq htu hfits
    (Eucs.nodup_pairKeys hdistinct) hwithin (fun key _ => (hs key).2) s.guard
  obtain ⟨hsum, hentries⟩ := entriesChecked_eq h hr
  refine ⟨?_, hafter⟩
  unfold addRowChecked Eucs.addTransactionChecked
  simp only [bind, Except.bind, hpairs, hsum, hentries]
  rfl

theorem foldlM_addRowChecked (h : FilteredRows rank rows) {s : Pass2} {bound : Utility}
    (hbound : 0 ≤ bound) (hs : s.eucs.Within bound) (hfits : bound + totalOf rows < 2 ^ 63) :
    rows.foldlM addRowChecked s = .ok (rows.foldl addRow s) := by
  induction rows generalizing s bound with
  | nil => rfl
  | cons r rows ih =>
    have htail := h.tail.totalOf_nonneg
    have htu := h.transactionUtility_nonneg List.mem_cons_self
    rw [totalOf_cons, ← add_assoc] at hfits
    obtain ⟨hrow, hwithin⟩ := addRowChecked_eq h List.mem_cons_self hs (by linarith)
    rw [List.foldlM_cons, hrow]
    exact ih h.tail (by linarith) hwithin hfits

theorem runChecked_eq (h : FilteredRows rank rows) (hfits : totalOf rows < 2 ^ 63)
    (guard : MemoryGuard) : runChecked guard rows = .ok (run guard rows) :=
  foldlM_addRowChecked h le_rfl (Eucs.within_new le_rfl) (by rwa [zero_add])

theorem mapM_eq_ok {α β : Type} {f : α → Except Fault β} {g : α → β} {as : List α}
    (h : ∀ a ∈ as, f a = .ok (g a)) : as.mapM f = .ok (as.map g) := by
  induction as with
  | nil => rfl
  | cons a as ih =>
    rw [List.mapM_cons, h a List.mem_cons_self, ih fun b hb => h b (List.mem_cons_of_mem a hb)]
    rfl

theorem foldlM_eq_ok {σ α : Type} {f : σ → α → Except Fault σ} {g : σ → α → σ} {as : List α}
    (h : ∀ s, ∀ a ∈ as, f s a = .ok (g s a)) (s : σ) : as.foldlM f s = .ok (as.foldl g s) := by
  induction as generalizing s with
  | nil => rfl
  | cons a as ih =>
    rw [List.foldlM_cons, h s a List.mem_cons_self]
    exact ih (fun s b hb => h s b (List.mem_cons_of_mem a hb)) _

theorem headerChecked_eq (h : FilteredRows rank rows) (hfits : totalOf rows < 2 ^ 63)
    (x : ItemId) :
    headerChecked x (entriesOf rank rows {x} x) = .ok (header x (entriesOf rank rows {x} x)) := by
  have hi := (h.sum_iutils {x} x).2
  have hr := (h.sum_rutils {x} x).2
  have hentries : ∀ e ∈ entriesOf rank rows {x} x, 0 ≤ e.iutils ∧ 0 ≤ e.rutils := by
    intro e he
    obtain ⟨r, hr, rfl⟩ := List.mem_map.mp he
    obtain ⟨hr, hX⟩ := List.mem_filter.mp hr
    exact ⟨(h.gain_within hr (of_decide_eq_true hX)).1,
      (h.gain_within hr (Finset.filter_subset _ _)).1⟩
  have hiutils : sumChecked 0 ((entriesOf rank rows {x} x).map ULEntry.iutils) =
      .ok ((entriesOf rank rows {x} x).map ULEntry.iutils).sum := by
    rw [sumChecked_eq le_rfl _ (by linarith), zero_add]
    intro u hu
    obtain ⟨e, he, rfl⟩ := List.mem_map.mp hu
    exact (hentries e he).1
  have hrutils : sumChecked 0 ((entriesOf rank rows {x} x).map ULEntry.rutils) =
      .ok ((entriesOf rank rows {x} x).map ULEntry.rutils).sum := by
    rw [sumChecked_eq le_rfl _ (by linarith), zero_add]
    intro u hu
    obtain ⟨e, he, rfl⟩ := List.mem_map.mp hu
    exact (hentries e he).2
  unfold headerChecked
  rw [hiutils, hrutils]
  rfl

theorem itemListsChecked_eq (h : FilteredRows rank rows) (hfits : totalOf rows < 2 ^ 63)
    (guard : MemoryGuard) :
    (run guard rows).itemListsChecked = .ok (run guard rows).itemLists := by
  refine mapM_eq_ok fun x hx => ?_
  have hocc : Occurs (rows.map FilteredTransaction.basket) {x} := by
    rw [mem_sortByKey, Table.mem_keys_iff, lookup_perItem h] at hx
    by_contra hno
    rw [if_neg hno] at hx
    cases hx
  rw [lookup_perItem h, if_pos hocc]
  exact headerChecked_eq h hfits x

end Pass2

/-! ## The join -/

def JoinAcc.pushChecked (acc : JoinAcc) (e : ULEntry) : Except Fault JoinAcc := do
  let sumIutils ← checkI64 (acc.sumIutils + e.iutils)
  let sumRutils ← checkI64 (acc.sumRutils + e.rutils)
  return ⟨acc.result ++ [e], sumIutils, sumRutils⟩

def joinEntryChecked (acc : JoinAcc) (px py : ULEntry) : Except Fault JoinAcc := do
  let iutils ← checkI64 (px.iutils + py.iutils)
  acc.pushChecked ⟨px.tid, iutils, py.rutils⟩

def joinEntryPrefixChecked (s : List ULEntry × JoinAcc) (px py : ULEntry) :
    Except Fault (List ULEntry × JoinAcc) := do
  let rest := s.1.dropWhile fun p => p.tid < px.tid
  let prefixIutils := match rest with
    | p :: _ => if p.tid = px.tid then p.iutils else 0
    | [] => 0
  let both ← checkI64 (px.iutils + py.iutils)
  let iutils ← checkI64 (both - prefixIutils)
  let acc ← s.2.pushChecked ⟨px.tid, iutils, py.rutils⟩
  return (rest, acc)

/-- `joinBodies`; after a fault the walk goes on without doing anything. -/
def joinBodiesChecked (prefixBody pxBody pyBody : List ULEntry) : Except Fault JoinAcc :=
  if prefixBody = [] then
    intersectWith ULEntry.tid ULEntry.tid (fun s px py => s >>= (joinEntryChecked · px py))
      (.ok ⟨[], 0, 0⟩) pxBody pyBody
  else
    (intersectWith ULEntry.tid ULEntry.tid (fun s px py => s >>= (joinEntryPrefixChecked · px py))
      (.ok (prefixBody, ⟨[], 0, 0⟩)) pxBody pyBody).map Prod.snd

theorem foldl_bind {σ ρ : Type} (f : σ → ρ → Except Fault σ) (s : Except Fault σ) (rs : List ρ) :
    rs.foldl (fun s r => s >>= (f · r)) s = s >>= (rs.foldlM f ·) := by
  induction rs generalizing s with
  | nil => cases s <;> rfl
  | cons r rs ih =>
    rw [List.foldl_cons, ih]
    cases s <;> rfl

/-- There is room for what the rows can still add to the sums. -/
structure Room (entries : List ULEntry) (rows : List FilteredTransaction) : Prop where
  iutils_nonneg : 0 ≤ (entries.map ULEntry.iutils).sum
  iutils_lt : (entries.map ULEntry.iutils).sum + totalOf rows < 2 ^ 63
  rutils_nonneg : 0 ≤ (entries.map ULEntry.rutils).sum
  rutils_lt : (entries.map ULEntry.rutils).sum + totalOf rows < 2 ^ 63

section Join

variable {rank : ItemId → Utility ×ₗ ItemId} {rows : List FilteredTransaction}
  {P : Finset ItemId} {y z : ItemId} {f g : FilteredTransaction → Utility}

theorem Room.skip {entries : List ULEntry} {r : FilteredTransaction}
    (h : Room entries (r :: rows)) (htu : 0 ≤ r.transactionUtility) : Room entries rows := by
  obtain ⟨hi, hi', hr, hr'⟩ := h
  rw [totalOf_cons] at hi' hr'
  exact ⟨hi, by linarith, hr, by linarith⟩

/-- An entry takes at most what is stated for its row. -/
theorem Room.push {entries : List ULEntry} {r : FilteredTransaction} {e : ULEntry}
    (h : Room entries (r :: rows)) (hrows : 0 ≤ totalOf rows)
    (hi : 0 ≤ e.iutils ∧ e.iutils ≤ r.transactionUtility)
    (hr : 0 ≤ e.rutils ∧ e.rutils ≤ r.transactionUtility) :
    (accOf entries).pushChecked e = .ok (accOf (entries ++ [e])) ∧ Room (entries ++ [e]) rows := by
  obtain ⟨hilo, hihi, hrlo, hrhi⟩ := h
  rw [totalOf_cons] at hihi hrhi
  constructor
  · have hiutils : checkI64 ((entries.map ULEntry.iutils).sum + e.iutils) =
        .ok ((entries.map ULEntry.iutils).sum + e.iutils) :=
      checkI64_eq_ok (add_nonneg hilo hi.1) (by linarith [hi.2])
    have hrutils : checkI64 ((entries.map ULEntry.rutils).sum + e.rutils) =
        .ok ((entries.map ULEntry.rutils).sum + e.rutils) :=
      checkI64_eq_ok (add_nonneg hrlo hr.1) (by linarith [hr.2])
    rw [← push_accOf]
    unfold JoinAcc.pushChecked JoinAcc.push accOf
    rw [hiutils, hrutils]
    rfl
  · refine ⟨?_, ?_, ?_, ?_⟩ <;>
      simp only [List.map_append, List.map_cons, List.map_nil, List.sum_append, List.sum_singleton]
    · linarith [hi.1]
    · linarith [hi.2]
    · linarith [hr.1]
    · linarith [hr.2]

/-- Two lists of single items: nothing is added up twice. -/
theorem foldlM_joinEntryChecked (h : FilteredRows rank rows) (hyz : y ≠ z)
    (hg : ∀ r ∈ rows, 0 ≤ g r ∧ g r ≤ r.transactionUtility) {entries : List ULEntry}
    (hroom : Room entries rows) :
    (rows.filter fun r => insert z (insert y ∅) ⊆ r.basket.items).foldlM
        (fun acc r => joinEntryChecked acc ⟨r.tid, r.basket.gain (insert y ∅), f r⟩
          ⟨r.tid, r.basket.gain (insert z ∅), g r⟩) (accOf entries) =
      .ok (accOf (entries ++ entriesWith (insert z (insert y ∅)) g rows)) := by
  induction rows generalizing entries with
  | nil => simp [entriesWith, pure, Except.pure]
  | cons r rows ih =>
    have htu := h.transactionUtility_nonneg List.mem_cons_self
    have hg' : ∀ r' ∈ rows, 0 ≤ g r' ∧ g r' ≤ r'.transactionUtility := fun r' hr' =>
      hg r' (List.mem_cons_of_mem r hr')
    by_cases hX : insert z (insert y ∅) ⊆ r.basket.items
    · have hgain := gain_join (P := ∅) r.basket (Finset.notMem_empty y) (Finset.notMem_empty z) hyz
      rw [gain_empty, sub_zero] at hgain
      have hwithin := h.gain_within List.mem_cons_self hX
      have hboth := checkI64_eq_ok hwithin.1 (hwithin.2.trans_lt (h.fits r List.mem_cons_self).2)
      obtain ⟨hpush, hroom'⟩ := hroom.push
        (e := ⟨r.tid, r.basket.gain (insert z (insert y ∅)), g r⟩) h.tail.totalOf_nonneg hwithin
        (hg r List.mem_cons_self)
      have hstep : joinEntryChecked (accOf entries) ⟨r.tid, r.basket.gain (insert y ∅), f r⟩
          ⟨r.tid, r.basket.gain (insert z ∅), g r⟩ =
          .ok (accOf (entries ++ [⟨r.tid, r.basket.gain (insert z (insert y ∅)), g r⟩])) := by
        unfold joinEntryChecked
        rw [hgain, hboth]
        exact hpush
      rw [filter_cons_of_subset hX, List.foldlM_cons, hstep]
      have hrest := ih h.tail hg' hroom'
      rw [append_entriesWith hX] at hrest
      exact hrest
    · rw [filter_cons_of_not_subset hX, entriesWith_cons_of_not_subset hX,
        ih h.tail hg' (hroom.skip htu)]

/-- The sum of the two entries, with the prefix in it twice, stays in the range. -/
def JoinFits (rows : List FilteredTransaction) (P : Finset ItemId) (y z : ItemId) : Prop :=
  ∀ r ∈ rows, insert z (insert y P) ⊆ r.basket.items →
    r.basket.gain (insert y P) + r.basket.gain (insert z P) < 2 ^ 63

instance (rows : List FilteredTransaction) (P : Finset ItemId) (y z : ItemId) :
    Decidable (JoinFits rows P y z) :=
  inferInstanceAs (Decidable (∀ r ∈ rows, _ → _))

theorem joinFits_cons {r : FilteredTransaction} :
    JoinFits (r :: rows) P y z ↔ (insert z (insert y P) ⊆ r.basket.items →
      r.basket.gain (insert y P) + r.basket.gain (insert z P) < 2 ^ 63) ∧ JoinFits rows P y z :=
  List.forall_mem_cons

/-- One step of the merge behind a prefix: that is the only sum that can leave the
range. -/
theorem joinEntryPrefixChecked_eq {r : FilteredTransaction} (h : FilteredRows rank (r :: rows))
    (p : FilteredTransaction → Utility) (hy : y ∉ P) (hz : z ∉ P) (hyz : y ≠ z)
    (hX : insert z (insert y P) ⊆ r.basket.items) (hg : 0 ≤ g r ∧ g r ≤ r.transactionUtility)
    {passed entries : List ULEntry} (hpassed : ∀ e ∈ passed, e.tid < r.tid)
    (hroom : Room entries (r :: rows)) :
    joinEntryPrefixChecked (passed ++ entriesWith P p (r :: rows), accOf entries)
        ⟨r.tid, r.basket.gain (insert y P), f r⟩ ⟨r.tid, r.basket.gain (insert z P), g r⟩ =
      if r.basket.gain (insert y P) + r.basket.gain (insert z P) < 2 ^ 63 then
        .ok ([⟨r.tid, r.basket.gain P, p r⟩] ++ entriesWith P p rows,
          accOf (entries ++ [⟨r.tid, r.basket.gain (insert z (insert y P)), g r⟩]))
      else .error .overflow := by
  have hsub : insert y P ⊆ r.basket.items := (Finset.subset_insert z _).trans hX
  have hsub' : insert z P ⊆ r.basket.items := (insert_insert_subset.mp hX).2
  have hP : P ⊆ r.basket.items := (Finset.subset_insert y P).trans hsub
  have hboth : 0 ≤ r.basket.gain (insert y P) + r.basket.gain (insert z P) :=
    add_nonneg (h.gain_within List.mem_cons_self hsub).1 (h.gain_within List.mem_cons_self hsub').1
  split
  · rename_i hfits
    have hdrop := dropWhile_passed rows p hP hpassed
    have hgain := gain_join r.basket hy hz hyz
    have hwithin := h.gain_within List.mem_cons_self hX
    have hown := checkI64_eq_ok hwithin.1 (hwithin.2.trans_lt (h.fits r List.mem_cons_self).2)
    obtain ⟨hpush, -⟩ := hroom.push
      (e := ⟨r.tid, r.basket.gain (insert z (insert y P)), g r⟩) h.tail.totalOf_nonneg hwithin hg
    unfold joinEntryPrefixChecked
    simp only [hdrop, if_true, checkI64_eq_ok hboth hfits, bind, Except.bind, hgain, hown, hpush]
    rfl
  · rename_i hfits
    have hfault : checkI64 (r.basket.gain (insert y P) + r.basket.gain (insert z P)) =
        .error .overflow := if_neg fun hin => hfits hin.2
    unfold joinEntryPrefixChecked
    simp only [hfault, bind, Except.bind]

/-- The merge behind a prefix faults exactly if that sum leaves the range somewhere. -/
theorem foldlM_joinEntryPrefixChecked (h : FilteredRows rank rows)
    {p : FilteredTransaction → Utility} (hy : y ∉ P) (hz : z ∉ P) (hyz : y ≠ z)
    (hg : ∀ r ∈ rows, 0 ≤ g r ∧ g r ≤ r.transactionUtility) {passed entries : List ULEntry}
    (hpassed : ∀ e ∈ passed, ∀ r ∈ rows, e.tid < r.tid) (hroom : Room entries rows) :
    ((rows.filter fun r => insert z (insert y P) ⊆ r.basket.items).foldlM
        (fun s r => joinEntryPrefixChecked s ⟨r.tid, r.basket.gain (insert y P), f r⟩
          ⟨r.tid, r.basket.gain (insert z P), g r⟩)
        (passed ++ entriesWith P p rows, accOf entries)).map Prod.snd =
      if JoinFits rows P y z then
        .ok (accOf (entries ++ entriesWith (insert z (insert y P)) g rows))
      else .error .overflow := by
  induction rows generalizing passed entries with
  | nil => simp [entriesWith, pure, Except.pure, Except.map, JoinFits]
  | cons r rows ih =>
    obtain ⟨hr, -⟩ := List.pairwise_cons.mp h.tids
    have hg' : ∀ r' ∈ rows, 0 ≤ g r' ∧ g r' ≤ r'.transactionUtility := fun r' hr' =>
      hg r' (List.mem_cons_of_mem r hr')
    by_cases hX : insert z (insert y P) ⊆ r.basket.items
    · have hstep := joinEntryPrefixChecked_eq (f := f) h p hy hz hyz hX (hg r List.mem_cons_self)
        (fun e he => hpassed e he r List.mem_cons_self) hroom
      rw [filter_cons_of_subset hX, List.foldlM_cons, hstep]
      by_cases hfits : r.basket.gain (insert y P) + r.basket.gain (insert z P) < 2 ^ 63
      · have hroom' := (hroom.push
          (e := ⟨r.tid, r.basket.gain (insert z (insert y P)), g r⟩) h.tail.totalOf_nonneg
          (h.gain_within List.mem_cons_self hX) (hg r List.mem_cons_self)).2
        have hnext : ∀ e ∈ [(⟨r.tid, r.basket.gain P, p r⟩ : ULEntry)], ∀ r' ∈ rows,
            e.tid < r'.tid := by
          intro e he
          rw [List.mem_singleton.mp he]
          exact hr
        have hiff : JoinFits (r :: rows) P y z ↔ JoinFits rows P y z :=
          joinFits_cons.trans (and_iff_right fun _ => hfits)
        have hrest := ih h.tail hg' hnext hroom'
        rw [append_entriesWith hX] at hrest
        rw [if_pos hfits, if_congr hiff rfl rfl]
        exact hrest
      · have hno : ¬ JoinFits (r :: rows) P y z := fun hall =>
          hfits ((joinFits_cons.mp hall).1 hX)
        rw [if_neg hfits, if_neg hno]
        rfl
    · have hlater : ∀ e ∈ passed, ∀ r' ∈ rows, e.tid < r'.tid := fun e he r' hr' =>
        hpassed e he r' (List.mem_cons_of_mem r hr')
      obtain ⟨passed', heq, hpassed'⟩ := exists_passed hr P p hlater
      have hiff : JoinFits (r :: rows) P y z ↔ JoinFits rows P y z :=
        joinFits_cons.trans (and_iff_right fun hin => (hX hin).elim)
      rw [filter_cons_of_not_subset hX, entriesWith_cons_of_not_subset hX, heq,
        if_congr hiff rfl rfl, ih h.tail hg' hpassed'
          (hroom.skip (h.transactionUtility_nonneg List.mem_cons_self))]

theorem room_nil (hfits : totalOf rows < 2 ^ 63) : Room [] rows := by
  have hsum : ((([] : List ULEntry).map ULEntry.iutils).sum + totalOf rows) < 2 ^ 63 := by
    simpa using hfits
  exact ⟨le_rfl, hsum, le_rfl, hsum⟩

/-- When the join of the lists of `P ∪ {y}` and `P ∪ {z}` faults, and what it builds
otherwise. -/
theorem joinBodiesChecked_eq (h : FilteredRows rank rows) (hfits : totalOf rows < 2 ^ 63)
    {prefixBody : List ULEntry} (hpre : IsPrefixBody rank rows P prefixBody) (hy : y ∉ P)
    (hz : z ∉ P) (hyz : y ≠ z) :
    joinBodiesChecked prefixBody (entriesOf rank rows (insert y P) y)
        (entriesOf rank rows (insert z P) z) =
      if P = ∅ ∨ JoinFits rows P y z then
        .ok (accOf (entriesOf rank rows (insert z (insert y P)) z))
      else .error .overflow := by
  have hg : ∀ r ∈ rows, 0 ≤ remaining rank r z ∧ remaining rank r z ≤ r.transactionUtility :=
    fun r hr => h.gain_within hr (Finset.filter_subset _ _)
  have hentries : ∀ (X : Finset ItemId) (x : ItemId),
      entriesOf rank rows X x = entriesWith X (fun r => remaining rank r x) rows := fun _ _ => rfl
  have hempty : (⟨[], 0, 0⟩ : JoinAcc) = accOf [] := rfl
  simp only [joinBodiesChecked, hentries, intersectWith_entriesWith h.tids, foldl_bind, hempty]
  rcases hpre with ⟨rfl, rfl⟩ | ⟨hP, p, rfl⟩
  · rw [if_pos rfl, if_pos (Or.inl rfl)]
    exact foldlM_joinEntryChecked h hyz hg (room_nil hfits)
  · have hiff : (P = ∅ ∨ JoinFits rows P y z) ↔ JoinFits rows P y z := or_iff_right hP
    rw [if_congr hiff rfl rfl]
    by_cases hnil : entriesOf rank rows P p = []
    · -- a prefix that occurs nowhere
      have hno : ∀ r ∈ rows, ¬ insert z (insert y P) ⊆ r.basket.items := by
        intro r hr hX
        rw [entriesOf, List.map_eq_nil_iff, List.filter_eq_nil_iff] at hnil
        apply hnil r hr
        exact decide_eq_true
          (((Finset.subset_insert y P).trans (Finset.subset_insert z _)).trans hX)
      have hfilter : (rows.filter fun r => insert z (insert y P) ⊆ r.basket.items) = [] := by
        rw [List.filter_eq_nil_iff]
        exact fun r hr hX => hno r hr (of_decide_eq_true hX)
      have hjoin : JoinFits rows P y z := fun r hr hX => (hno r hr hX).elim
      rw [if_pos hnil, if_pos hjoin, entriesWith, hfilter]
      rfl
    · rw [if_neg hnil]
      have hnone : ∀ e ∈ ([] : List ULEntry), ∀ r ∈ rows, e.tid < r.tid := fun e he =>
        (List.not_mem_nil he).elim
      exact foldlM_joinEntryPrefixChecked h hy hz hyz hg hnone (room_nil hfits)

end Join

end AirHuim
