import Mathlib.Data.List.Sort
import Mathlib.Tactic

/-!
# Keeping the best of a stream

A list of at most `k` elements, worst first, to which a new element is added by
inserting it in order and dropping the worst when there are too many. After any
stream it holds `k` elements of the stream, or all of it, and none that was
dropped is better than one that was kept.
-/

namespace AirHuim.Library

variable {α κ : Type*} [LinearOrder κ] (key : α → κ) (k : ℕ)

def keepBest (heap : List α) (a : α) : List α :=
  let pushed := heap.orderedInsert (fun b c => key b ≤ key c) a
  if k < pushed.length then pushed.tail else pushed

/-- `heap` is what is kept of `seen`. -/
structure Best (seen heap : List α) : Prop where
  sorted : heap.Pairwise fun a b => key a ≤ key b
  length : heap.length = min k seen.length
  dropped : ∃ rest, (heap ++ rest).Perm seen ∧ ∀ d ∈ rest, ∀ a ∈ heap, key d ≤ key a

variable {key k} {seen heap : List α}

theorem Best.nil : Best key k [] [] := by
  refine ⟨List.Pairwise.nil, by simp, [], List.Perm.refl _, ?_⟩
  simp

theorem pairwise_orderedInsert_key (h : heap.Pairwise fun a b => key a ≤ key b) (a : α) :
    (heap.orderedInsert (fun b c => key b ≤ key c) a).Pairwise fun a b => key a ≤ key b := by
  induction heap with
  | nil => exact List.pairwise_singleton _ _
  | cons b heap ih =>
    obtain ⟨hb, hheap⟩ := List.pairwise_cons.mp h
    rw [List.orderedInsert]
    split_ifs with hab
    · refine List.pairwise_cons.mpr ⟨fun c hc => ?_, h⟩
      rcases List.mem_cons.mp hc with rfl | hc
      · exact hab
      · exact hab.trans (hb c hc)
    · refine List.pairwise_cons.mpr ⟨fun c hc => ?_, ih hheap⟩
      rcases List.mem_cons.mp ((List.perm_orderedInsert _ a heap).subset hc) with rfl | hc
      · exact (not_le.mp hab).le
      · exact hb c hc

/-- When the worst goes, it is no better than any element that stays. -/
theorem Best.keepBest (h : Best key k seen heap) (a : α) :
    Best key k (seen ++ [a]) (keepBest key k heap a) := by
  obtain ⟨hsorted, hlen, rest, hperm, hrest⟩ := h
  have hpushed := pairwise_orderedInsert_key hsorted a
  have hpushed_perm := List.perm_orderedInsert (fun b c => key b ≤ key c) a heap
  have hpushed_len := List.orderedInsert_length (fun b c => key b ≤ key c) heap a
  have hall : (a :: heap ++ rest).Perm (seen ++ [a]) := by
    have := hperm.cons a
    exact this.trans (List.perm_append_singleton a seen).symm
  unfold AirHuim.Library.keepBest
  dsimp only
  split_ifs with hfull
  · rw [hpushed_len] at hfull
    refine ⟨hpushed.tail, ?_, ?_⟩
    · rw [List.length_tail, hpushed_len, List.length_append, List.length_singleton]
      omega
    · cases hheap : heap with
      | nil =>
        refine ⟨a :: rest, by simpa [hheap] using hall, ?_⟩
        simp
      | cons m heap' =>
        subst hheap
        obtain ⟨hm, -⟩ := List.pairwise_cons.mp hsorted
        rw [List.orderedInsert]
        split_ifs with ham
        · -- the new element is the worst
          refine ⟨a :: rest, ?_, ?_⟩
          · exact (List.perm_middle).trans hall
          · intro d hd b hb
            rcases List.mem_cons.mp hd with rfl | hd
            · rcases List.mem_cons.mp hb with rfl | hb
              · exact ham
              · exact ham.trans (hm b hb)
            · exact hrest d hd b hb
        · -- the worst so far goes
          have htail := List.perm_orderedInsert (fun b c => key b ≤ key c) a heap'
          refine ⟨m :: rest, ?_, ?_⟩
          · calc
              _ = heap'.orderedInsert (fun b c => key b ≤ key c) a ++ m :: rest := rfl
              List.Perm _ ((a :: heap') ++ m :: rest) := htail.append_right _
              List.Perm _ (a :: (m :: heap' ++ rest)) := List.perm_middle.cons a
              List.Perm _ (seen ++ [a]) := hall
          · intro d hd b hb
            have hmb : key m ≤ key b := by
              rcases List.mem_cons.mp (htail.subset hb) with rfl | hb
              · exact (not_le.mp ham).le
              · exact hm b hb
            rcases List.mem_cons.mp hd with rfl | hd
            · exact hmb
            · exact (hrest d hd m List.mem_cons_self).trans hmb
  · rw [hpushed_len] at hfull
    refine ⟨hpushed, ?_, rest, ?_, ?_⟩
    · rw [hpushed_len, List.length_append, List.length_singleton]
      omega
    · exact (hpushed_perm.append_right rest).trans hall
    · -- nothing was dropped so far
      have hnil : rest = [] := by
        have := hperm.length_eq
        rw [List.length_append] at this
        exact List.length_eq_zero_iff.mp (by omega)
      simp [hnil]

/-- An element kept by a full list is no worse than some element held before. -/
theorem exists_le_of_mem_keepBest (h : heap.Pairwise fun a b => key a ≤ key b)
    (hfull : heap.length = k) {a b : α} (hb : b ∈ keepBest key k heap a) :
    ∃ c ∈ heap, key c ≤ key b := by
  have hpushed_len := List.orderedInsert_length (fun b c => key b ≤ key c) heap a
  unfold keepBest at hb
  dsimp only at hb
  rw [if_pos (by omega)] at hb
  cases heap with
  | nil => simp at hb
  | cons m heap =>
    obtain ⟨hm, -⟩ := List.pairwise_cons.mp h
    refine ⟨m, List.mem_cons_self, ?_⟩
    rw [List.orderedInsert] at hb
    split_ifs at hb with ham
    · rcases List.mem_cons.mp hb with rfl | hb
      · exact le_rfl
      · exact hm b hb
    · rcases List.mem_cons.mp ((List.perm_orderedInsert _ a heap).subset hb) with rfl | hb
      · exact (not_le.mp ham).le
      · exact hm b hb

end AirHuim.Library
