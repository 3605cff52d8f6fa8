import Mathlib.Data.List.AList
import Mathlib.Algebra.BigOperators.Group.List.Basic
import Mathlib.Tactic

/-!
# Tables filled by one pass of updates

A hash map that is only ever filled by `entry(k).or_insert(d)` followed by an
in-place change is a finite map from keys to the fold of the changes made under
that key. The map is an association list with pairwise distinct keys; no result
below depends on the order of its entries.
-/

namespace AirHuim.Library

/-- A finite map with values of one type. -/
abbrev Table (κ V : Type*) := AList fun _ : κ => V

namespace Table

variable {κ V β : Type*} [DecidableEq κ]

/-- `f(entry(k).or_insert(d))`. -/
def modify (m : Table κ V) (k : κ) (d : V) (f : V → V) : Table κ V :=
  m.insert k (f ((m.lookup k).getD d))

/-- One pass of updates, each naming a key and an argument for `f`. -/
def modifyAll (m : Table κ V) (d : V) (f : V → β → V) (events : List (κ × β)) : Table κ V :=
  events.foldl (fun m e => modify m e.1 d (f · e.2)) m

/-- `retain(p)`: drop the entries on which `p` fails. -/
def retain (m : Table κ V) (p : κ → V → Bool) : Table κ V :=
  ⟨m.entries.filter fun e => p e.1 e.2, m.nodupKeys.sublist List.filter_sublist⟩

/-- The arguments of the updates made under `k`, oldest first. -/
def argsAt (events : List (κ × β)) (k : κ) : List β :=
  (events.filter fun e => e.1 = k).map Prod.snd

theorem lookup_modify (m : Table κ V) (k : κ) (d : V) (f : V → V) (k' : κ) :
    (modify m k d f).lookup k' =
      if k' = k then some (f ((m.lookup k).getD d)) else m.lookup k' := by
  by_cases h : k' = k
  · subst h
    simp [modify]
  · simp [modify, h, AList.lookup_insert_ne h]

@[simp] theorem argsAt_nil (k : κ) : argsAt ([] : List (κ × β)) k = [] := rfl

theorem argsAt_cons (e : κ × β) (events : List (κ × β)) (k : κ) :
    argsAt (e :: events) k = if e.1 = k then e.2 :: argsAt events k else argsAt events k := by
  by_cases h : e.1 = k <;> simp [argsAt, h]

/-- One update for each of pairwise distinct keys, all with one argument. -/
theorem argsAt_map_const {ks : List κ} (h : ks.Nodup) (v : β) (k : κ) :
    argsAt (ks.map fun k => (k, v)) k = if k ∈ ks then [v] else [] := by
  induction ks with
  | nil => rfl
  | cons a ks ih =>
    obtain ⟨ha, hks⟩ := List.nodup_cons.mp h
    rw [List.map_cons, argsAt_cons, ih hks]
    by_cases hk : a = k
    · subst hk
      simp [ha]
    · simp [hk, Ne.symm hk]

theorem argsAt_append (xs ys : List (κ × β)) (k : κ) :
    argsAt (xs ++ ys) k = argsAt xs k ++ argsAt ys k := by
  simp [argsAt]

theorem argsAt_flatMap {γ : Type*} (xs : List γ) (f : γ → List (κ × β)) (k : κ) :
    argsAt (xs.flatMap f) k = xs.flatMap fun x => argsAt (f x) k := by
  induction xs with
  | nil => rfl
  | cons x xs ih => simp [argsAt_append, ih]

/-- Updates of an array's positions from `off` on, with pairwise distinct keys. -/
theorem argsAt_range' {ks : List κ} (h : ks.Nodup) (d : κ) {v : ℕ → β} {c : β} {k : κ}
    (hc : ∀ i, ks[i]? = some k → v i = c) (off : ℕ) :
    argsAt ((List.range' off (ks.length - off)).map fun i => (ks.getD i d, v i)) k =
      if k ∈ ks.drop off then [c] else [] := by
  induction hn : ks.length - off generalizing off with
  | zero => simp [List.drop_eq_nil_of_le (Nat.sub_eq_zero_iff_le.mp hn)]
  | succ n ih =>
    have hoff : off < ks.length := by omega
    have hget : ks.getD off d = ks[off] := by simp [List.getD_eq_getElem?_getD, hoff]
    have hnodup : (ks[off] :: ks.drop (off + 1)).Nodup := by
      rw [← List.drop_eq_getElem_cons hoff]
      exact h.sublist (List.drop_sublist off ks)
    rw [List.range'_succ, List.map_cons, argsAt_cons, ih (off + 1) (by omega),
      List.drop_eq_getElem_cons hoff, hget]
    by_cases hk : ks[off] = k
    · subst hk
      rw [if_pos rfl, if_neg (List.nodup_cons.mp hnodup).1, if_pos List.mem_cons_self,
        hc off (List.getElem?_eq_getElem hoff)]
    · have hmem : k ∈ ks[off] :: ks.drop (off + 1) ↔ k ∈ ks.drop (off + 1) := by
        rw [List.mem_cons, or_iff_right (Ne.symm hk)]
      rw [if_neg hk]
      exact if_congr hmem.symm rfl rfl

/-- What a pass leaves under a key: the old value, or the default, folded with
the arguments of the updates under that key. -/
theorem lookup_modifyAll (m : Table κ V) (d : V) (f : V → β → V) (events : List (κ × β))
    (k : κ) :
    (modifyAll m d f events).lookup k =
      if m.lookup k = none ∧ argsAt events k = [] then none
      else some ((argsAt events k).foldl f ((m.lookup k).getD d)) := by
  induction events generalizing m with
  | nil => cases h : m.lookup k <;> simp [modifyAll, h]
  | cons e events ih =>
    have hstep : modifyAll m d f (e :: events) =
        modifyAll (modify m e.1 d (f · e.2)) d f events := rfl
    rw [hstep, ih, lookup_modify, argsAt_cons]
    by_cases h : k = e.1
    · subst h
      simp
    · simp [h, Ne.symm h]

/-- The pass from the empty table. -/
theorem lookup_modifyAll_empty (d : V) (f : V → β → V) (events : List (κ × β)) (k : κ) :
    (modifyAll ∅ d f events).lookup k =
      if argsAt events k = [] then none else some ((argsAt events k).foldl f d) := by
  rw [lookup_modifyAll]
  simp

/-- The values a pass writes, in order. -/
def written (d : V) (f : V → β → V) : Table κ V → List (κ × β) → List V
  | _, [] => []
  | m, e :: events =>
    f ((m.lookup e.1).getD d) e.2 :: written d f (modify m e.1 d (f · e.2)) events

/-- What is written under a key is the fold of the arguments up to there. -/
theorem mem_written_iff {d : V} {f : V → β → V} {m : Table κ V} {events : List (κ × β)} {v : V} :
    v ∈ written d f m events ↔ ∃ before e after, events = before ++ e :: after ∧
      v = (argsAt (before ++ [e]) e.1).foldl f ((m.lookup e.1).getD d) := by
  induction events generalizing m with
  | nil => simp [written]
  | cons e events ih =>
    have hkey : ∀ (before : List (κ × β)) (e' : κ × β),
        (argsAt (before ++ [e']) e'.1).foldl f (((modify m e.1 d (f · e.2)).lookup e'.1).getD d) =
          (argsAt (e :: before ++ [e']) e'.1).foldl f ((m.lookup e'.1).getD d) := by
      intro before e'
      rw [lookup_modify, List.cons_append, argsAt_cons]
      by_cases h : e'.1 = e.1
      · rw [if_pos h, if_pos h.symm, List.foldl_cons, Option.getD_some, h]
      · rw [if_neg h, if_neg (Ne.symm h)]
    rw [written, List.mem_cons, ih]
    constructor
    · rintro (rfl | ⟨before, e', after, rfl, rfl⟩)
      · exact ⟨[], e, events, rfl, by simp [argsAt]⟩
      · exact ⟨e :: before, e', after, rfl, hkey before e'⟩
    · rintro ⟨before, e', after, hevents, rfl⟩
      cases before with
      | nil =>
        obtain ⟨rfl, rfl⟩ := List.cons.inj hevents
        exact Or.inl (by simp [argsAt])
      | cons b before =>
        obtain ⟨rfl, rfl⟩ := List.cons.inj hevents
        exact Or.inr ⟨before, e', after, rfl, (hkey before e').symm⟩

/-- What a pass leaves under a key it has last written there. -/
theorem lookup_modifyAll_written (d : V) (f : V → β → V) (m : Table κ V) (events : List (κ × β))
    (k : κ) : (modifyAll m d f events).lookup k = m.lookup k ∨
      ∃ v ∈ written d f m events, (modifyAll m d f events).lookup k = some v := by
  induction events generalizing m with
  | nil => exact Or.inl rfl
  | cons e events ih =>
    have hstep : modifyAll m d f (e :: events) =
        modifyAll (modify m e.1 d (f · e.2)) d f events := rfl
    rw [hstep, written]
    rcases ih (modify m e.1 d (f · e.2)) with hsame | ⟨v, hv, hlookup⟩
    · rw [hsame, lookup_modify]
      by_cases hk : k = e.1
      · exact Or.inr ⟨_, List.mem_cons_self, if_pos hk⟩
      · exact Or.inl (if_neg hk)
    · exact Or.inr ⟨v, List.mem_cons_of_mem _ hv, hlookup⟩

theorem modifyAll_append (m : Table κ V) (d : V) (f : V → β → V) (xs ys : List (κ × β)) :
    modifyAll m d f (xs ++ ys) = modifyAll (modifyAll m d f xs) d f ys :=
  List.foldl_append

theorem modifyAll_flatMap {γ : Type*} (m : Table κ V) (d : V) (f : V → β → V) (xs : List γ)
    (g : γ → List (κ × β)) :
    modifyAll m d f (xs.flatMap g) = xs.foldl (fun m x => modifyAll m d f (g x)) m := by
  simp [modifyAll, List.foldl_flatMap]

theorem lookup_retain (m : Table κ V) (p : κ → V → Bool) (k : κ) :
    (retain m p).lookup k = (m.lookup k).filter (p k) := by
  ext v
  rw [Option.filter_eq_some_iff]
  simp only [← Option.mem_def, AList.mem_lookup_iff, retain, List.mem_filter]

/-- Inserting a value for each of some keys. -/
theorem lookup_foldl_insert (f : κ → V) (ks : List κ) (m : Table κ V) (k : κ) :
    (ks.foldl (fun m k => m.insert k (f k)) m).lookup k =
      if k ∈ ks then some (f k) else m.lookup k := by
  induction ks generalizing m with
  | nil => simp
  | cons a ks ih =>
    rw [List.foldl_cons, ih]
    by_cases hk : k = a
    · subst hk
      simp
    · rw [AList.lookup_insert_ne hk]
      exact if_congr (by simp [hk]) rfl rfl

theorem mem_keys_iff (m : Table κ V) (k : κ) : k ∈ m.keys ↔ (m.lookup k).isSome := by
  rw [← AList.mem_keys, AList.lookup_isSome]

/-- The sum of a measure of the values. -/
def total (m : Table κ V) (f : V → ℕ) : ℕ := (m.entries.map fun e => f e.2).sum

omit [DecidableEq κ] in
@[simp] theorem total_empty (f : V → ℕ) : total (∅ : Table κ V) f = 0 := rfl

theorem total_insert (m : Table κ V) (k : κ) (v : V) (f : V → ℕ) :
    total (m.insert k v) f = f v + total (m.erase k) f := by
  have herase : (m.erase k).entries = m.entries.kerase k := rfl
  simp [total, AList.entries_insert, herase]

theorem erase_of_lookup_none {m : Table κ V} {k : κ} (h : m.lookup k = none) :
    m.erase k = m := by
  apply AList.ext
  exact List.kerase_of_notMem_keys (AList.lookup_eq_none.mp h)

theorem total_erase {m : Table κ V} {k : κ} {v : V} (h : m.lookup k = some v) (f : V → ℕ) :
    total m f = f v + total (m.erase k) f := by
  have hmem : k ∈ m.entries.keys := (mem_keys_iff m k).mpr (by simp [h])
  obtain ⟨v', xs, ys, _, hentries, herase⟩ := List.exists_of_kerase hmem
  have hv : v' = v := by
    have hin : (⟨k, v'⟩ : Sigma fun _ : κ => V) ∈ m.entries := by simp [hentries]
    have hlookup := AList.mem_lookup_iff.mpr hin
    rw [h] at hlookup
    exact (Option.some.inj hlookup).symm
  have hleft : total m f = ((xs ++ ⟨k, v'⟩ :: ys).map fun e => f e.2).sum := by
    rw [total, hentries]
  have hright : total (m.erase k) f = ((xs ++ ys).map fun e => f e.2).sum := by
    rw [total, ← herase]
    rfl
  rw [hleft, hright, hv]
  simp only [List.map_append, List.map_cons, List.sum_append, List.sum_cons]
  omega

/-- A replaced value is taken off, the new one put on. -/
theorem total_replace {m : Table κ V} {k : κ} {v : V} (h : m.lookup k = some v) (v' : V)
    (f : V → ℕ) : total (m.insert k v') f + f v = total m f + f v' := by
  rw [total_insert, total_erase h]
  omega

theorem total_insert_new {m : Table κ V} {k : κ} (h : m.lookup k = none) (v : V) (f : V → ℕ) :
    total (m.insert k v) f = total m f + f v := by
  rw [total_insert, erase_of_lookup_none h, add_comm]

end Table

/-- Summing the arguments is the fold a counter performs. -/
theorem foldl_add_eq_sum {M : Type*} [AddCommMonoid M] (xs : List M) (a : M) :
    xs.foldl (· + ·) a = a + xs.sum := by
  induction xs generalizing a with
  | nil => simp
  | cons x xs ih => rw [List.foldl_cons, ih, List.sum_cons, add_assoc]

/-- Pushing the arguments is the fold a vector performs. -/
theorem foldl_push_eq_append {β : Type*} (xs ys : List β) :
    xs.foldl (fun l x => l ++ [x]) ys = ys ++ xs := by
  induction xs generalizing ys with
  | nil => simp
  | cons x xs ih => rw [List.foldl_cons, ih, List.append_assoc, List.singleton_append]

/-- A scan that emits for some elements is a filter and a map. -/
theorem filterMap_eq_map_filter {α β : Type*} {g : α → Option β} {q : α → Prop} [DecidablePred q]
    {k : α → β} {as : List α} (h : ∀ a ∈ as, g a = if q a then some (k a) else none) :
    as.filterMap g = (as.filter q).map k := by
  induction as with
  | nil => rfl
  | cons a as ih =>
    have ha := h a List.mem_cons_self
    have ih := ih fun b hb => h b (List.mem_cons_of_mem a hb)
    by_cases hq : q a <;> simp [ha, hq, ih]

theorem flatMap_eq_map_filter {α β : Type*} {g : α → List β} {q : α → Prop} [DecidablePred q]
    {k : α → β} {as : List α} (h : ∀ a ∈ as, g a = if q a then [k a] else []) :
    as.flatMap g = (as.filter q).map k := by
  induction as with
  | nil => rfl
  | cons a as ih =>
    have ha := h a List.mem_cons_self
    have ih := ih fun b hb => h b (List.mem_cons_of_mem a hb)
    by_cases hq : q a <;> simp [ha, hq, ih]

theorem foldlM_flatMap {α γ σ : Type*} {m : Type _ → Type*} [Monad m] [LawfulMonad m]
    (xs : List γ) (g : γ → List α) (f : σ → α → m σ) (s : σ) :
    (xs.flatMap g).foldlM f s = xs.foldlM (fun s x => (g x).foldlM f s) s := by
  induction xs generalizing s with
  | nil => rfl
  | cons x xs ih =>
    rw [List.flatMap_cons, List.foldlM_append, List.foldlM_cons]
    exact congrArg _ (funext ih)

/-- Dropping what emits nothing changes nothing. -/
theorem flatMap_filter_eq {α β : Type*} {p : α → Bool} {g : α → List β} {as : List α}
    (h : ∀ a ∈ as, p a = false → g a = []) : (as.filter p).flatMap g = as.flatMap g := by
  induction as with
  | nil => rfl
  | cons a as ih =>
    have ih := ih fun b hb => h b (List.mem_cons_of_mem a hb)
    cases hp : p a with
    | false => rw [List.filter_cons_of_neg (by simp [hp]), List.flatMap_cons, ih,
        h a List.mem_cons_self hp, List.nil_append]
    | true => rw [List.filter_cons_of_pos hp, List.flatMap_cons, List.flatMap_cons, ih]

end AirHuim.Library
