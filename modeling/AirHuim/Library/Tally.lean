import Mathlib.Tactic

/-!
# Counters in order of first use

A list of keyed counters: adding under a key raises its counter, or starts a new
one at the end. Any total over the counters is the total over the additions.
-/

namespace AirHuim.Library

variable {κ M : Type*} [DecidableEq κ] [AddCommMonoid M]

def tallyAdd (k : κ) (m : M) : List (κ × M) → List (κ × M)
  | [] => [(k, m)]
  | e :: t => if e.1 = k then (e.1, e.2 + m) :: t else e :: tallyAdd k m t

def tally (t : List (κ × M)) (adds : List (κ × M)) : List (κ × M) :=
  adds.foldl (fun t e => tallyAdd e.1 e.2 t) t

/-- The total of the counters whose keys satisfy `g`. -/
def mass (g : κ → Prop) [DecidablePred g] (t : List (κ × M)) : M :=
  ((t.filter fun e => g e.1).map Prod.snd).sum

variable (g : κ → Prop) [DecidablePred g]

omit [DecidableEq κ] in
theorem mass_cons (e : κ × M) (t : List (κ × M)) :
    mass g (e :: t) = (if g e.1 then e.2 else 0) + mass g t := by
  by_cases h : g e.1 <;> simp [mass, h]

omit [DecidableEq κ] in
theorem mass_eq_sum (t : List (κ × M)) :
    mass g t = (t.map fun e => if g e.1 then e.2 else 0).sum := by
  induction t with
  | nil => rfl
  | cons e t ih => rw [mass_cons, ih, List.map_cons, List.sum_cons]

omit [DecidableEq κ] in
theorem mass_append (t t' : List (κ × M)) : mass g (t ++ t') = mass g t + mass g t' := by
  simp [mass]

omit [DecidableEq κ] in
theorem mass_perm {t t' : List (κ × M)} (h : t.Perm t') : mass g t = mass g t' :=
  ((h.filter _).map _).sum_eq

omit [DecidableEq κ] in
/-- Entries without mass may be left out. -/
theorem mass_filter {t : List (κ × M)} {keep : κ × M → Bool}
    (h : ∀ e ∈ t, keep e = false → e.2 = 0) : mass g (t.filter keep) = mass g t := by
  induction t with
  | nil => rfl
  | cons e t ih =>
    have ih := ih fun e' he' => h e' (List.mem_cons_of_mem e he')
    cases hkeep : keep e with
    | true => rw [List.filter_cons_of_pos hkeep, mass_cons, mass_cons, ih]
    | false =>
      rw [List.filter_cons_of_neg (by simp [hkeep]), mass_cons, ih, h e List.mem_cons_self hkeep,
        ite_self, zero_add]

omit [DecidableEq κ] in
theorem exists_of_mass_ne_zero {t : List (κ × M)} (h : mass g t ≠ 0) : ∃ e ∈ t, g e.1 := by
  by_contra hnone
  push Not at hnone
  apply h
  rw [mass, List.filter_eq_nil_iff.mpr (by simpa using hnone)]
  rfl

omit [DecidableEq κ] in
theorem mass_flatMap {ρ : Type*} (rows : List ρ) (F : ρ → List (κ × M)) :
    mass g (rows.flatMap F) = (rows.map fun r => mass g (F r)).sum := by
  induction rows with
  | nil => rfl
  | cons r rows ih => rw [List.flatMap_cons, mass_append, ih, List.map_cons, List.sum_cons]

theorem mass_tallyAdd (k : κ) (m : M) (t : List (κ × M)) :
    mass g (tallyAdd k m t) = mass g t + if g k then m else 0 := by
  induction t with
  | nil =>
    rw [tallyAdd, mass_cons]
    exact add_comm _ _
  | cons e t ih =>
    unfold tallyAdd
    split_ifs with he hg hg
    · rw [mass_cons, mass_cons, he, if_pos hg, if_pos hg]
      exact add_right_comm _ _ _
    · rw [mass_cons, mass_cons, he, if_neg hg, if_neg hg, add_zero]
    · rw [mass_cons, mass_cons, ih, if_pos hg, add_assoc]
    · rw [mass_cons, mass_cons, ih, if_neg hg, add_zero, add_zero]

theorem tally_append (t adds adds' : List (κ × M)) :
    tally t (adds ++ adds') = tally (tally t adds) adds' :=
  List.foldl_append

/-- A total over the counters is the total over the additions. -/
theorem mass_tally (t adds : List (κ × M)) : mass g (tally t adds) = mass g t + mass g adds := by
  induction adds generalizing t with
  | nil => simp [tally, mass]
  | cons e adds ih =>
    have hstep : tally t (e :: adds) = tally (tallyAdd e.1 e.2 t) adds := rfl
    rw [hstep, ih, mass_tallyAdd, mass_cons, add_assoc]

theorem keys_tallyAdd (k : κ) (m : M) (t : List (κ × M)) :
    (tallyAdd k m t).map Prod.fst =
      if k ∈ t.map Prod.fst then t.map Prod.fst else t.map Prod.fst ++ [k] := by
  induction t with
  | nil => simp [tallyAdd]
  | cons e t ih =>
    unfold tallyAdd
    split_ifs with he hmem hmem
    · rfl
    · exact (hmem (he ▸ List.mem_cons_self)).elim
    · have hmem : k ∈ t.map Prod.fst :=
        (List.mem_cons.mp hmem).resolve_left fun heq => he heq.symm
      rw [List.map_cons, ih, if_pos hmem, List.map_cons]
    · have hmem : k ∉ t.map Prod.fst := fun h => hmem (List.mem_cons_of_mem _ h)
      rw [List.map_cons, ih, if_neg hmem, List.map_cons, List.cons_append]

theorem mem_keys_tally (t adds : List (κ × M)) (k : κ) :
    k ∈ (tally t adds).map Prod.fst ↔ k ∈ t.map Prod.fst ∨ k ∈ adds.map Prod.fst := by
  induction adds generalizing t with
  | nil => simp [tally]
  | cons e adds ih =>
    have hstep : tally t (e :: adds) = tally (tallyAdd e.1 e.2 t) adds := rfl
    have hkeys : k ∈ (tallyAdd e.1 e.2 t).map Prod.fst ↔ k ∈ t.map Prod.fst ∨ k = e.1 := by
      rw [keys_tallyAdd]
      split_ifs with he
      · exact ⟨Or.inl, fun h => h.elim id fun heq => heq ▸ he⟩
      · simp
    rw [hstep, ih, hkeys, List.map_cons, List.mem_cons, or_assoc]

/-- A new key starts a counter at the end. -/
theorem tallyAdd_of_notMem {k : κ} {m : M} {t : List (κ × M)} (h : k ∉ t.map Prod.fst) :
    tallyAdd k m t = t ++ [(k, m)] := by
  induction t with
  | nil => rfl
  | cons e t ih =>
    obtain ⟨he, ht⟩ := not_or.mp (fun hmem => h (List.mem_cons.mpr hmem))
    rw [tallyAdd, if_neg (Ne.symm he), ih ht, List.cons_append]

/-- Counters are only ever started. -/
theorem length_le_tally (t adds : List (κ × M)) : t.length ≤ (tally t adds).length := by
  have hstep : ∀ (k : κ) (m : M) (t : List (κ × M)), t.length ≤ (tallyAdd k m t).length := by
    intro k m t
    have hkeys := congrArg List.length (keys_tallyAdd k m t)
    rw [List.length_map] at hkeys
    rw [hkeys]
    split_ifs <;> simp
  induction adds generalizing t with
  | nil => exact le_rfl
  | cons e adds ih => exact (hstep e.1 e.2 t).trans (ih _)

theorem nodup_keys_tally {t : List (κ × M)} (h : (t.map Prod.fst).Nodup) (adds : List (κ × M)) :
    ((tally t adds).map Prod.fst).Nodup := by
  induction adds generalizing t with
  | nil => exact h
  | cons e adds ih =>
    apply ih
    rw [keys_tallyAdd]
    split_ifs with he
    · exact h
    · exact List.Nodup.append h (List.nodup_singleton _) (by simpa using he)

/-- A known key has its own counter raised and no other. -/
theorem exists_of_mem_tallyAdd {k : κ} {m : M} {t : List (κ × M)} (hnodup : (t.map Prod.fst).Nodup)
    (hk : k ∈ t.map Prod.fst) {e' : κ × M} (he' : e' ∈ tallyAdd k m t) :
    ∃ e ∈ t, e' = (e.1, if e.1 = k then e.2 + m else e.2) := by
  induction t with
  | nil => exact (List.not_mem_nil hk).elim
  | cons a t ih =>
    obtain ⟨ha, ht⟩ := List.nodup_cons.mp hnodup
    unfold tallyAdd at he'
    split_ifs at he' with hak
    · rcases List.mem_cons.mp he' with rfl | he'
      · exact ⟨a, List.mem_cons_self, by rw [if_pos hak]⟩
      · have hne : e'.1 ≠ k := fun heq => ha (hak.trans heq.symm ▸ List.mem_map_of_mem he')
        exact ⟨e', List.mem_cons_of_mem a he', by rw [if_neg hne]⟩
    · rcases List.mem_cons.mp he' with rfl | he'
      · exact ⟨e', List.mem_cons_self, by rw [if_neg hak]⟩
      · have hk : k ∈ t.map Prod.fst :=
          (List.mem_cons.mp hk).resolve_left fun heq => hak heq.symm
        obtain ⟨e, he, heq⟩ := ih ht hk he'
        exact ⟨e, List.mem_cons_of_mem a he, heq⟩

/-- No more counters than additions have a property of the key. -/
theorem countP_keys_tally_le (p : κ → Bool) (t adds : List (κ × M)) :
    (tally t adds).countP (fun e => p e.1) ≤
      t.countP (fun e => p e.1) + adds.countP fun e => p e.1 := by
  have hcount : ∀ l : List (κ × M), l.countP (fun e => p e.1) = (l.map Prod.fst).countP p :=
    fun l => List.countP_map.symm
  induction adds generalizing t with
  | nil => exact le_rfl
  | cons e adds ih =>
    have hstep : (tallyAdd e.1 e.2 t).countP (fun e => p e.1) ≤
        t.countP (fun e => p e.1) + if p e.1 then 1 else 0 := by
      rw [hcount, keys_tallyAdd, hcount t]
      split_ifs <;> simp [List.countP_append, *]
    have hrest := ih (tallyAdd e.1 e.2 t)
    rw [List.countP_cons]
    exact hrest.trans (by omega)

section Order

variable [PartialOrder M] [IsOrderedAddMonoid M]

/-- Counters that are only ever raised. -/
theorem nonneg_tally {t adds : List (κ × M)} (ht : ∀ e ∈ t, 0 ≤ e.2)
    (hadds : ∀ e ∈ adds, 0 ≤ e.2) : ∀ e ∈ tally t adds, 0 ≤ e.2 := by
  have hstep : ∀ (k : κ) (m : M) (t : List (κ × M)), 0 ≤ m → (∀ e ∈ t, 0 ≤ e.2) →
      ∀ e ∈ tallyAdd k m t, 0 ≤ e.2 := by
    intro k m t hm
    induction t with
    | nil => simpa [tallyAdd] using hm
    | cons a t ih =>
      intro ht
      obtain ⟨ha, ht⟩ := List.forall_mem_cons.mp ht
      unfold tallyAdd
      split_ifs
      · exact List.forall_mem_cons.mpr ⟨add_nonneg ha hm, ht⟩
      · exact List.forall_mem_cons.mpr ⟨ha, ih ht⟩
  induction adds generalizing t with
  | nil => exact ht
  | cons a adds ih =>
    obtain ⟨ha, hadds⟩ := List.forall_mem_cons.mp hadds
    exact ih (hstep a.1 a.2 t ha ht) hadds

/-- No counter is lowered. -/
theorem exists_le_of_mem_tally {t adds : List (κ × M)} (hadds : ∀ e ∈ adds, 0 ≤ e.2) {e : κ × M}
    (he : e ∈ t) : ∃ e' ∈ tally t adds, e'.1 = e.1 ∧ e.2 ≤ e'.2 := by
  have hstep : ∀ (k : κ) (m : M) (t : List (κ × M)), 0 ≤ m → ∀ e ∈ t,
      ∃ e' ∈ tallyAdd k m t, e'.1 = e.1 ∧ e.2 ≤ e'.2 := by
    intro k m t hm
    induction t with
    | nil => simp
    | cons a t ih =>
      intro e he
      unfold tallyAdd
      rcases List.mem_cons.mp he with rfl | he
      · split_ifs
        · exact ⟨_, List.mem_cons_self, rfl, le_add_of_nonneg_right hm⟩
        · exact ⟨e, List.mem_cons_self, rfl, le_rfl⟩
      · split_ifs
        · exact ⟨e, List.mem_cons_of_mem _ he, rfl, le_rfl⟩
        · obtain ⟨e', he', heq, hle⟩ := ih e he
          exact ⟨e', List.mem_cons_of_mem a he', heq, hle⟩
  induction adds generalizing t e with
  | nil => exact ⟨e, he, rfl, le_rfl⟩
  | cons a adds ih =>
    obtain ⟨ha, hadds⟩ := List.forall_mem_cons.mp hadds
    obtain ⟨e₁, he₁, heq₁, hle₁⟩ := hstep a.1 a.2 t ha e he
    obtain ⟨e', he', heq, hle⟩ := ih hadds he₁
    exact ⟨e', he', heq.trans heq₁, hle₁.trans hle⟩

omit [DecidableEq κ] in
/-- A counter is at most the total over keys with its own. -/
theorem le_mass_of_mem {t : List (κ × M)} (ht : ∀ e ∈ t, 0 ≤ e.2) {g : κ → Prop} [DecidablePred g]
    {e : κ × M} (he : e ∈ t) (hg : g e.1) : e.2 ≤ mass g t := by
  refine List.single_le_sum (fun m hm => ?_) _ ?_
  · obtain ⟨e', he', rfl⟩ := List.mem_map.mp hm
    exact ht e' (List.mem_of_mem_filter he')
  · exact List.mem_map.mpr ⟨e, List.mem_filter.mpr ⟨he, decide_eq_true hg⟩, rfl⟩

omit [DecidableEq κ] in
/-- Over fewer keys the total is less. -/
theorem mass_le_mass {t : List (κ × M)} (ht : ∀ e ∈ t, 0 ≤ e.2) {g g' : κ → Prop} [DecidablePred g]
    [DecidablePred g'] (hg : ∀ k, g k → g' k) : mass g t ≤ mass g' t := by
  induction t with
  | nil => exact le_rfl
  | cons a t ih =>
    obtain ⟨ha, ht⟩ := List.forall_mem_cons.mp ht
    rw [mass_cons, mass_cons]
    refine add_le_add ?_ (ih ht)
    split_ifs with h h' h'
    · exact le_rfl
    · exact (h' (hg _ h)).elim
    · exact ha
    · exact le_rfl

end Order

end AirHuim.Library
