import AirHuim.Mining.Algorithms.FhmChecked

/-!
# FHM under a memory budget

A pair whose reservation was refused is absent from the pair structure, and an
absent pair is pruned as if it never occurred; the transactions in which the
structure stopped early are missing from the sums of later pairs. So the budget
decides what is reported. This module says exactly how: under a budget FHM
reports the high-utility itemsets all of whose pairs were counted up to the
threshold, and two budgets give one output when they agree on those. The runs
are those of a build with overflow checks.
-/

namespace AirHuim

open Library Basket

namespace Fhm

/-- All pairs of the itemset were counted, under the budget, up to the threshold. -/
def PairsTracked (budget : ℕ) (minUtility : Utility) (db : List SpmfRow) (X : Finset ItemId) :
    Prop :=
  ∀ x ∈ X, ∀ y ∈ X, x ≠ y → Eucs.PairTracked budget
    (filteredDb (TwuFilter.compute minUtility (numbered 0 db)) (numbered 0 db)) minUtility x y

instance (budget : ℕ) (minUtility : Utility) (db : List SpmfRow) (X : Finset ItemId) :
    Decidable (PairsTracked budget minUtility db X) :=
  inferInstanceAs (Decidable (∀ _ ∈ _, _))

section

variable {db : List SpmfRow} {ctx : MiningContext} {budget used : ℕ}

theorem wanted_iff_pairsTracked (hwf : ∀ row ∈ db, row.WellFormed) (hlen : db.length < 2 ^ 32)
    (hguard : ctx.world.guard.Reserved budget used) (X : Finset ItemId) :
    (miner (pass2 ctx (numbered 0 db)).eucs ctx.minUtility).Wanted
        (pass1 ctx (numbered 0 db)).rank (rowsOf ctx (numbered 0 db)) ∅
        ((filtered ctx (numbered 0 db)).map Prod.fst) ctx.minUtility X ↔
      HighUtility (baskets db) ctx.minUtility X ∧
        PairsTracked (budget - used) ctx.minUtility db X := by
  have hrows := filteredRows_filteredDb hwf hlen (pass1 ctx (numbered 0 db))
  have hpair : ∀ x y, (miner (pass2 ctx (numbered 0 db)).eucs ctx.minUtility).prunePair x y
      ctx.minUtility = false ↔
        Eucs.PairTracked (budget - used) (rowsOf ctx (numbered 0 db)) ctx.minUtility x y := by
    intro x y
    have heucs : (pass2 ctx (numbered 0 db)).eucs =
        (Eucs.addAll (rowsOf ctx (numbered 0 db)) .new (.new (budget - used))).2.1 := by
      rw [pass2, Pass2.run_eucs]
      exact (Eucs.addAll_new_reserved hguard _).2.1
    rw [miner, heucs]
    exact Eucs.canPrune_budget hrows (budget - used) x y ctx.minUtility
  have hsame : HighUtility ((rowsOf ctx (numbered 0 db)).map FilteredTransaction.basket)
      ctx.minUtility X ↔ HighUtility (baskets db) ctx.minUtility X := by
    rw [← map_basket_numbered 0 db]
    exact highUtility_filteredDb (numbered_wellFormed hwf 0) X
  rw [← hsame]
  constructor
  · intro h
    refine ⟨⟨Finset.nonempty_iff_ne_empty.mpr h.ne, h.occurs, h.le⟩, ?_⟩
    intro x hx y hy hxy
    -- of two items one comes first, and a pair has one key
    rcases lt_trichotomy ((pass1 ctx (numbered 0 db)).rank x)
      ((pass1 ctx (numbered 0 db)).rank y) with hlt | heq | hlt
    · exact (hpair x y).mp (h.pairs x hx (Finset.notMem_empty x) y hy (Finset.notMem_empty y) hlt)
    · exact (hxy ((pass1 ctx (numbered 0 db)).rank_injective heq)).elim
    · have := (hpair y x).mp
        (h.pairs y hy (Finset.notMem_empty y) x hx (Finset.notMem_empty x) hlt)
      rw [Eucs.PairTracked, Eucs.pairKey_comm y x] at this
      exact this
  · rintro ⟨⟨hne, hocc, hle⟩, htracked⟩
    refine ⟨Finset.empty_subset X, ?_, hne.ne_empty, hocc, hle, ?_⟩
    · intro x hx
      exact Or.inr (mem_filtered ctx hwf hlen (hocc.mono (Finset.singleton_subset_iff.mpr hx)))
    · intro x hx _ y hy _ hlt
      exact (hpair x y).mpr (htracked x hx y hy fun heq => hlt.ne (congrArg _ heq))

/-- What a run reports under what is left of a budget. -/
theorem lists_run (hwf : ∀ row ∈ db, row.WellFormed)
    (hguard : ctx.world.guard.Reserved budget used) {count : ℕ} {w : World}
    (hrun : run (db.map .ok) ctx = .ok (count, w)) :
    Lists (fun l : Line => l.1.toFinset) w.lines
      (fun X => HighUtility (baskets db) ctx.minUtility X ∧
        PairsTracked (budget - used) ctx.minUtility db X)
      fun l => l.1.Nodup ∧ l.2 = utility (baskets db) l.1.toFinset ∧
        HighUtility (baskets db) ctx.minUtility l.1.toFinset ∧
        PairsTracked (budget - used) ctx.minUtility db l.1.toFinset := by
  have hlen := length_lt_of_readDb hrun
  rcases run_spec ctx hwf (E := fun _ => True) (fun _ _ => trivial) hlen with
    ⟨e, -, hfault⟩ | ⟨w', lines, hrun', hperm, -, hanswers⟩
  · rw [hrun] at hfault
    cases hfault
  · rw [hrun'] at hrun
    obtain ⟨-, rfl⟩ := Prod.mk.inj (Except.ok.inj hrun)
    apply (Lists.mono hanswers _ _).perm hperm.symm
    · exact fun X => (wanted_iff_pairsTracked hwf hlen hguard X).mpr
    · rintro l - ⟨hnodup, hu, hwanted⟩
      have hX := (wanted_iff_pairsTracked hwf hlen hguard _).mp hwanted
      have hpass := passes_of_occurs_filteredDb (numbered_wellFormed hwf 0) hwanted.occurs
      have hsame := (utility_filteredDb (numbered_wellFormed hwf 0) _ hX.1.nonempty hpass).1
      rw [map_basket_numbered] at hsame
      exact ⟨hnodup, hu.trans hsame, hX⟩

theorem mem_emitted_run (hwf : ∀ row ∈ db, row.WellFormed)
    (hbudget : ctx.world.guard = .new budget) {count : ℕ} {w : World}
    (hrun : run (db.map .ok) ctx = .ok (count, w)) (X : Finset ItemId) (u : Utility) :
    (X, u) ∈ emitted w.lines ↔ HighUtility (baskets db) ctx.minUtility X ∧
      PairsTracked budget ctx.minUtility db X ∧ u = utility (baskets db) X := by
  have hguard : ctx.world.guard.Reserved budget 0 := hbudget ▸ MemoryGuard.reserved_new budget
  rw [mem_emitted_of_lists (lists_run hwf hguard hrun), Nat.sub_zero, and_assoc]

/-- Two runs in which no sum overflows give one output if and only if their budgets
agree, for every high-utility itemset, on whether its pairs were counted up to the
threshold. -/
theorem emitted_eq_iff {ctx₁ ctx₂ : MiningContext} {budget₁ budget₂ : ℕ} {minUtility : Utility}
    {r₁ r₂ : ℕ × World} (hwf : ∀ row ∈ db, row.WellFormed) (hmin₁ : ctx₁.minUtility = minUtility)
    (hmin₂ : ctx₂.minUtility = minUtility) (hbudget₁ : ctx₁.world.guard = .new budget₁)
    (hbudget₂ : ctx₂.world.guard = .new budget₂) (hrun₁ : runChecked (db.map .ok) ctx₁ = .ok r₁)
    (hrun₂ : runChecked (db.map .ok) ctx₂ = .ok r₂) :
    emitted r₁.2.lines = emitted r₂.2.lines ↔
      ∀ X, HighUtility (baskets db) minUtility X →
        (PairsTracked budget₁ minUtility db X ↔ PairsTracked budget₂ minUtility db X) := by
  have h₁ := mem_emitted_run hwf hbudget₁ (run_of_runChecked hrun₁)
  have h₂ := mem_emitted_run hwf hbudget₂ (run_of_runChecked hrun₂)
  rw [hmin₁] at h₁
  rw [hmin₂] at h₂
  constructor
  · intro heq X hX
    have hmem : (X, utility (baskets db) X) ∈ emitted r₁.2.lines ↔
        (X, utility (baskets db) X) ∈ emitted r₂.2.lines := by rw [heq]
    rw [h₁, h₂] at hmem
    constructor
    · exact fun htracked => (hmem.mp ⟨hX, htracked, rfl⟩).2.1
    · exact fun htracked => (hmem.mpr ⟨hX, htracked, rfl⟩).2.1
  · intro h
    ext ⟨X, u⟩
    rw [h₁, h₂]
    constructor
    · rintro ⟨hX, htracked, hu⟩
      exact ⟨hX, (h X hX).mp htracked, hu⟩
    · rintro ⟨hX, htracked, hu⟩
      exact ⟨hX, (h X hX).mpr htracked, hu⟩

theorem emitted_eq_iff_tinyDb :
    ∃ r₁ r₂, runChecked (tinyDb.map .ok) (createCtx 45 none 0) = .ok r₁ ∧
      runChecked (tinyDb.map .ok) (createCtx 45 none 96) = .ok r₂ ∧
      (emitted r₁.2.lines = emitted r₂.2.lines ↔
        ∀ X, HighUtility (baskets tinyDb) 45 X →
          (PairsTracked 0 45 tinyDb X ↔ PairsTracked 96 45 tinyDb X)) := by
  obtain ⟨r₁, h₁⟩ : ∃ r, runChecked (tinyDb.map .ok) (createCtx 45 none 0) = .ok r :=
    exists_of_isOk (by decide +kernel)
  obtain ⟨r₂, h₂⟩ : ∃ r, runChecked (tinyDb.map .ok) (createCtx 45 none 96) = .ok r :=
    exists_of_isOk (by decide +kernel)
  exact ⟨r₁, r₂, h₁, h₂, emitted_eq_iff (by decide) rfl rfl rfl rfl h₁ h₂⟩

/-- The output does depend on the budget: without room for a pair, the itemsets
of two items are lost. -/
theorem not_budget_independent :
    ¬ ∀ (db : List SpmfRow) (minUtility : Utility) (budget₁ budget₂ : ℕ) (r₁ r₂ : ℕ × World),
      (∀ row ∈ db, row.WellFormed) →
      runChecked (db.map .ok) (createCtx minUtility none budget₁) = .ok r₁ →
      runChecked (db.map .ok) (createCtx minUtility none budget₂) = .ok r₂ →
      emitted r₁.2.lines = emitted r₂.2.lines := by
  intro h
  have h₀ : (runChecked (tinyDb.map .ok) (createCtx 45 none 0)).map (fun r => r.2.lines) =
      .ok [([2], 45), ([1], 50), ([3], 55)] := by decide +kernel
  have h₁ : (runChecked (tinyDb.map .ok) (createCtx 45 none 96)).map (fun r => r.2.lines) =
      .ok [([2], 45), ([2, 3], 50), ([1], 50), ([1, 3], 60), ([3], 55)] := by decide +kernel
  cases hrun₀ : runChecked (tinyDb.map .ok) (createCtx 45 none 0) with
  | error e =>
    rw [hrun₀] at h₀
    cases h₀
  | ok r₀ =>
    cases hrun₁ : runChecked (tinyDb.map .ok) (createCtx 45 none 96) with
    | error e =>
      rw [hrun₁] at h₁
      cases h₁
    | ok r₁ =>
      have heq := h tinyDb 45 0 96 r₀ r₁ (by decide) hrun₀ hrun₁
      rw [hrun₀] at h₀
      rw [hrun₁] at h₁
      have h₀' : r₀.2.lines = _ := Except.ok.inj h₀
      have h₁' : r₁.2.lines = _ := Except.ok.inj h₁
      rw [h₀', h₁'] at heq
      exact absurd heq (by decide +kernel)

end

end Fhm

end AirHuim
