import Mathlib.Data.List.Sort
import Mathlib.Data.Prod.Lex
import Mathlib.Tactic

/-!
# Stable sorting by a key

`sort_by_key` of a standard library: the result is sorted by the key, and
elements with equal keys keep their order.
-/

namespace AirHuim.Library

variable {α κ : Type*} [LinearOrder κ]

def sortByKey (key : α → κ) (xs : List α) : List α :=
  xs.insertionSort fun a b => key a ≤ key b

variable (key : α → κ)

theorem sortByKey_perm (xs : List α) : (sortByKey key xs).Perm xs := List.perm_insertionSort _ xs

@[simp] theorem mem_sortByKey {xs : List α} {a : α} : a ∈ sortByKey key xs ↔ a ∈ xs :=
  (sortByKey_perm key xs).mem_iff

private theorem pairwise_orderedInsert {r : α → α → Prop} {a : α} :
    ∀ {xs : List α}, (∀ b ∈ xs, r a b) →
      xs.Pairwise (fun b c => key b < key c ∨ key b = key c ∧ r b c) →
      (xs.orderedInsert (fun b c => key b ≤ key c) a).Pairwise
        (fun b c => key b < key c ∨ key b = key c ∧ r b c)
  | [], _, _ => List.pairwise_singleton _ _
  | b :: xs, hr, hs => by
    obtain ⟨hb, hxs⟩ := List.pairwise_cons.mp hs
    rw [List.orderedInsert]
    split_ifs with h
    · refine List.pairwise_cons.mpr ⟨?_, hs⟩
      have hle : ∀ c ∈ b :: xs, key a ≤ key c := by
        intro c hc
        rcases List.mem_cons.mp hc with rfl | hc
        · exact h
        · rcases hb c hc with hlt | ⟨heq, -⟩
          · exact h.trans hlt.le
          · exact h.trans heq.le
      intro c hc
      rcases (hle c hc).lt_or_eq with hlt | heq
      · exact Or.inl hlt
      · exact Or.inr ⟨heq, hr c hc⟩
    · refine List.pairwise_cons.mpr ⟨?_, pairwise_orderedInsert
        (fun c hc => hr c (List.mem_cons_of_mem b hc)) hxs⟩
      intro c hc
      rcases List.mem_cons.mp ((List.perm_orderedInsert _ a xs).subset hc) with rfl | hc
      · exact Or.inl (not_le.mp h)
      · exact hb c hc

/-- Sorting keeps a relation between elements of equal key that the list has. -/
theorem pairwise_sortByKey_stable {r : α → α → Prop} {xs : List α} (h : xs.Pairwise r) :
    (sortByKey key xs).Pairwise fun a b => key a < key b ∨ key a = key b ∧ r a b := by
  induction xs with
  | nil => exact List.Pairwise.nil
  | cons a xs ih =>
    obtain ⟨ha, hxs⟩ := List.pairwise_cons.mp h
    exact pairwise_orderedInsert key
      (fun b hb => ha b ((List.perm_insertionSort _ xs).subset hb)) (ih hxs)

/-- With pairwise distinct keys the order is strict. -/
theorem pairwise_sortByKey_lt {xs : List α} (h : (xs.map key).Nodup) :
    (sortByKey key xs).Pairwise fun a b => key a < key b := by
  refine (pairwise_sortByKey_stable key (List.pairwise_map.mp h)).imp ?_
  rintro a b (hlt | ⟨heq, hne⟩)
  · exact hlt
  · exact (hne heq).elim

/-- A list that is sorted already is left alone. -/
theorem sortByKey_eq_self {xs : List α} (h : xs.Pairwise fun a b => key a ≤ key b) :
    sortByKey key xs = xs :=
  h.insertionSort_eq

/-- In a list that an upward closed predicate splits, dropping what fails it leaves
what satisfies it. -/
theorem drop_length_filter_not {r : α → α → Prop} {p : α → Bool}
    (hp : ∀ a b, r a b → p a = true → p b = true) {xs : List α} (h : xs.Pairwise r) :
    xs.drop (xs.filter fun a => !p a).length = xs.filter p := by
  induction xs with
  | nil => rfl
  | cons a xs ih =>
    obtain ⟨ha, hxs⟩ := List.pairwise_cons.mp h
    by_cases hpa : p a = true
    · have hall : ∀ b ∈ a :: xs, p b = true := by
        intro b hb
        rcases List.mem_cons.mp hb with rfl | hb
        · exact hpa
        · exact hp a b (ha b hb) hpa
      have hnone : (a :: xs).filter (fun b => !p b) = [] := by
        rw [List.filter_eq_nil_iff]
        intro b hb
        simp [hall b hb]
      rw [hnone, List.length_nil, List.drop_zero, List.filter_eq_self.mpr hall]
    · rw [List.filter_cons_of_neg hpa, List.filter_cons_of_pos (by simpa using hpa),
        List.length_cons, List.drop_succ_cons]
      exact ih hxs

end AirHuim.Library
