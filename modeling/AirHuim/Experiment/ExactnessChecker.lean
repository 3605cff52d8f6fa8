import AirHuim.Experiment.ResultFile

/-!
# The exactness checker

The checker compares the itemsets of two result files as sets, and for every
itemset in both the utilities of the first pairs that an iteration over the hash
sets finds. Which pair that is depends on the iteration order where an itemset
has several utilities; the main result says on which files the verdict is right
for every order.
-/

namespace AirHuim

open Library

structure ExactnessResult where
  falseNegatives : ℕ
  falsePositives : ℕ
  utilityMismatches : ℕ
  exact : Bool
  deriving DecidableEq, Repr

/-- An order in which a hash set may be iterated over. -/
structure IterationOf (s : Finset Line) (order : List Line) : Prop where
  nodup : order.Nodup
  mem_iff : ∀ l, l ∈ order ↔ l ∈ s

/-- The utility of the first pair with this itemset. -/
def findUtility (order : List Line) (itemset : List ItemId) : Option Utility :=
  (order.find? fun l => l.1 = itemset).map Prod.snd

/-- `verify_exactness`, on two parsed sets given in the order of iteration. -/
def verifyExactness (reference airHuim : List Line) : ExactnessResult :=
  let refItemsets := (reference.map Prod.fst).toFinset
  let ahItemsets := (airHuim.map Prod.fst).toFinset
  let falseNegatives := (refItemsets \ ahItemsets).card
  let falsePositives := (ahItemsets \ refItemsets).card
  let utilityMismatches := ((refItemsets ∩ ahItemsets).filter fun itemset =>
    findUtility reference itemset ≠ findUtility airHuim itemset).card
  { falseNegatives, falsePositives, utilityMismatches
    exact := falseNegatives == 0 && falsePositives == 0 && utilityMismatches == 0 }

/-- The itemsets of a parsed file. -/
def itemsetsOf (s : Finset Line) : Finset (List ItemId) := s.image Prod.fst

/-- The verdict is right for every order of iteration: `exact` if the sets are
equal, and the counts are those of the itemsets in only one of them. -/
def DecidesEquality (reference airHuim : Finset Line) : Prop :=
  ∀ refOrder ahOrder, IterationOf reference refOrder → IterationOf airHuim ahOrder →
    ((verifyExactness refOrder ahOrder).exact = true ↔ reference = airHuim) ∧
      (verifyExactness refOrder ahOrder).falseNegatives =
        (itemsetsOf reference \ itemsetsOf airHuim).card ∧
      (verifyExactness refOrder ahOrder).falsePositives =
        (itemsetsOf airHuim \ itemsetsOf reference).card

/-- No itemset has two utilities. -/
def OneUtilityEach (s : Finset Line) : Prop := ∀ l ∈ s, ∀ l' ∈ s, l.1 = l'.1 → l = l'

instance (s : Finset Line) : Decidable (OneUtilityEach s) := Finset.decidableDforallFinset

/-- Some itemset of both has no utility in common. -/
def Disagree (reference airHuim : Finset Line) : Prop :=
  ∃ itemset ∈ itemsetsOf reference ∩ itemsetsOf airHuim,
    ∀ u, (itemset, u) ∈ reference → (itemset, u) ∉ airHuim

variable {s t : Finset Line} {order order' : List Line}

theorem IterationOf.itemsets (h : IterationOf s order) :
    (order.map Prod.fst).toFinset = itemsetsOf s := by
  ext X
  simp [itemsetsOf, h.mem_iff]

theorem mem_itemsetsOf {X : List ItemId} : X ∈ itemsetsOf s ↔ ∃ u, (X, u) ∈ s := by
  simp [itemsetsOf]

/-- What is found under an itemset is one of its utilities. -/
theorem IterationOf.exists_findUtility (h : IterationOf s order) {X : List ItemId}
    (hX : X ∈ itemsetsOf s) : ∃ u, findUtility order X = some u ∧ (X, u) ∈ s := by
  obtain ⟨u, hu⟩ := mem_itemsetsOf.mp hX
  have hsome : (order.find? fun l => l.1 = X).isSome := by
    rw [List.find?_isSome]
    exact ⟨(X, u), (h.mem_iff _).mpr hu, by simp⟩
  obtain ⟨l, hl⟩ := Option.isSome_iff_exists.mp hsome
  have hfst : l.1 = X := by simpa using List.find?_some hl
  refine ⟨l.2, by rw [findUtility, hl]; rfl, ?_⟩
  rw [← hfst]
  exact (h.mem_iff l).mp (List.mem_of_find?_eq_some hl)

/-- The verdict in terms of the sets and what is found. -/
theorem exact_iff (h : IterationOf s order) (h' : IterationOf t order') :
    (verifyExactness order order').exact = true ↔ itemsetsOf s = itemsetsOf t ∧
      ∀ X ∈ itemsetsOf s ∩ itemsetsOf t, findUtility order X = findUtility order' X := by
  simp only [verifyExactness, h.itemsets, h'.itemsets, Bool.and_eq_true, beq_iff_eq,
    Finset.card_eq_zero, Finset.sdiff_eq_empty_iff_subset, Finset.filter_eq_empty_iff, not_not]
  rw [← Finset.Subset.antisymm_iff]

/-- Some iteration finds any chosen utilities first. -/
theorem exists_iterationOf (choice : List ItemId → Utility)
    (h : ∀ X ∈ itemsetsOf s, (X, choice X) ∈ s) :
    ∃ order, IterationOf s order ∧ ∀ X ∈ itemsetsOf s, findUtility order X = some (choice X) := by
  set chosen := s.toList.filter fun l => l.2 = choice l.1 with hchosen
  have hperm : (chosen ++ s.toList.filter fun l => !decide (l.2 = choice l.1)).Perm s.toList :=
    List.filter_append_perm _ _
  refine ⟨_, ⟨hperm.nodup_iff.mpr s.nodup_toList, fun l => ?_⟩, fun X hX => ?_⟩
  · rw [hperm.mem_iff, Finset.mem_toList]
  · have hmem : (X, choice X) ∈ chosen :=
      List.mem_filter.mpr ⟨Finset.mem_toList.mpr (h X hX), by simp⟩
    have hsome : (chosen.find? fun l => l.1 = X).isSome := by
      rw [List.find?_isSome]
      exact ⟨(X, choice X), hmem, by simp⟩
    obtain ⟨l, hl⟩ := Option.isSome_iff_exists.mp hsome
    have hfst : l.1 = X := by simpa using List.find?_some hl
    have hsnd : l.2 = choice l.1 :=
      of_decide_eq_true (List.mem_filter.mp (List.mem_of_find?_eq_some hl)).2
    rw [findUtility, List.find?_append, hl, Option.some_or, Option.map_some, hsnd, hfst]

theorem counts_verifyExactness (h : IterationOf s order) (h' : IterationOf t order') :
    (verifyExactness order order').falseNegatives = (itemsetsOf s \ itemsetsOf t).card ∧
      (verifyExactness order order').falsePositives = (itemsetsOf t \ itemsetsOf s).card := by
  simp only [verifyExactness, h.itemsets, h'.itemsets, and_self]

/-- With one utility for each itemset the order does not matter. -/
theorem exact_iff_of_oneUtilityEach (h : IterationOf s order) (h' : IterationOf t order')
    (hs : OneUtilityEach s) (ht : OneUtilityEach t) :
    (verifyExactness order order').exact = true ↔ s = t := by
  rw [exact_iff h h']
  constructor
  · rintro ⟨hitemsets, hfind⟩
    have hsame : ∀ X u, (X, u) ∈ s ↔ (X, u) ∈ t := by
      intro X u
      constructor
      · intro hu
        have hX := mem_itemsetsOf.mpr ⟨u, hu⟩
        obtain ⟨v, hv, hvs⟩ := h.exists_findUtility hX
        obtain ⟨v', hv', hvt⟩ := h'.exists_findUtility (hitemsets ▸ hX)
        have heq := hfind X (Finset.mem_inter.mpr ⟨hX, hitemsets ▸ hX⟩)
        rw [hv, hv', Option.some_inj] at heq
        rw [hs _ hu _ hvs rfl, heq]
        exact hvt
      · intro hu
        have hX := mem_itemsetsOf.mpr ⟨u, hu⟩
        obtain ⟨v, hv, hvs⟩ := h.exists_findUtility (hitemsets ▸ hX)
        obtain ⟨v', hv', hvt⟩ := h'.exists_findUtility hX
        have heq := hfind X (Finset.mem_inter.mpr ⟨hitemsets ▸ hX, hX⟩)
        rw [hv, hv', Option.some_inj] at heq
        rw [ht _ hu _ hvt rfl, ← heq]
        exact hvs
    ext ⟨X, u⟩
    exact hsame X u
  · rintro rfl
    refine ⟨rfl, fun X hX => ?_⟩
    obtain ⟨v, hv, hvs⟩ := h.exists_findUtility (Finset.mem_inter.mp hX).1
    obtain ⟨v', hv', hvs'⟩ := h'.exists_findUtility (Finset.mem_inter.mp hX).1
    have heq := congrArg Prod.snd (hs _ hvs _ hvs' rfl)
    rw [hv, hv']
    exact congrArg some heq

/-- Where some order finds two equal utilities for every itemset, and some order
does not, the verdict depends on the order. -/
theorem not_decidesEquality (hitemsets : itemsetsOf s = itemsetsOf t) (hagree : ¬ Disagree s t)
    (hmany : ¬ (OneUtilityEach s ∧ OneUtilityEach t)) : ¬ DecidesEquality s t := by
  intro hdecides
  have hcommon : ∀ X, ∃ u, X ∈ itemsetsOf s → (X, u) ∈ s ∧ (X, u) ∈ t := by
    intro X
    by_cases hX : X ∈ itemsetsOf s
    · by_contra hnone
      push Not at hnone
      exact hagree ⟨X, Finset.mem_inter.mpr ⟨hX, hitemsets ▸ hX⟩, fun u hu hu' =>
        (hnone u).2 hu hu'⟩
    · exact ⟨0, fun h => (hX h).elim⟩
  choose common hcommon using hcommon
  -- both iterations find a common utility of every itemset
  obtain ⟨order, horder, hfind⟩ := exists_iterationOf common fun X hX => (hcommon X hX).1
  obtain ⟨order', horder', hfind'⟩ := exists_iterationOf (s := t) common fun X hX =>
    (hcommon X (hitemsets ▸ hX)).2
  have hst : s = t := by
    apply (hdecides order order' horder horder').1.mp
    rw [exact_iff horder horder']
    refine ⟨hitemsets, fun X hX => ?_⟩
    obtain ⟨hXs, hXt⟩ := Finset.mem_inter.mp hX
    rw [hfind X hXs, hfind' X hXt]
  subst hst
  rw [and_self, OneUtilityEach] at hmany
  push Not at hmany
  obtain ⟨l, hl, l', hl', hfst, hne⟩ := hmany
  -- one iteration finds the one utility of this itemset, the other the other
  have hupdate : ∀ k ∈ s, ∀ X ∈ itemsetsOf s, (X, Function.update common k.1 k.2 X) ∈ s := by
    intro k hk X hX
    by_cases hXk : X = k.1
    · subst hXk
      rwa [Function.update_self]
    · rw [Function.update_of_ne hXk]
      exact (hcommon X hX).1
  obtain ⟨order, horder, hfind⟩ := exists_iterationOf _ (hupdate l hl)
  obtain ⟨order', horder', hfind'⟩ := exists_iterationOf _ (hupdate l' hl')
  have hexact := (hdecides order order' horder horder').1.mpr rfl
  have hX : l.1 ∈ itemsetsOf s := mem_itemsetsOf.mpr ⟨l.2, hl⟩
  have heq := ((exact_iff horder horder').mp hexact).2 l.1 (Finset.mem_inter.mpr ⟨hX, hX⟩)
  rw [hfind l.1 hX, hfind' l.1 hX, hfst, Function.update_self, ← hfst, Function.update_self,
    Option.some_inj] at heq
  exact hne (Prod.ext hfst heq)

/-- The checker decides equality exactly if the files differ in their itemsets, or
disagree on one, or give no itemset two utilities. -/
theorem decidesEquality_iff :
    DecidesEquality s t ↔
      itemsetsOf s ≠ itemsetsOf t ∨ Disagree s t ∨ OneUtilityEach s ∧ OneUtilityEach t := by
  constructor
  · intro hdecides
    by_contra hcondition
    push Not at hcondition
    obtain ⟨hitemsets, hagree, hmany⟩ := hcondition
    exact not_decidesEquality hitemsets hagree (fun h => hmany h.1 h.2) hdecides
  · intro hcondition order order' h h'
    refine ⟨?_, counts_verifyExactness h h'⟩
    rcases hcondition with hitemsets | ⟨X, hX, hdisjoint⟩ | ⟨hs, ht⟩
    · rw [exact_iff h h']
      exact ⟨fun hexact => (hitemsets hexact.1).elim, fun hst => (hitemsets (hst ▸ rfl)).elim⟩
    · obtain ⟨hXs, hXt⟩ := Finset.mem_inter.mp hX
      rw [exact_iff h h']
      constructor
      · rintro ⟨-, hfind⟩
        obtain ⟨u, hu, hus⟩ := h.exists_findUtility hXs
        obtain ⟨u', hu', hut⟩ := h'.exists_findUtility hXt
        have heq := hfind X hX
        rw [hu, hu', Option.some_inj] at heq
        exact (hdisjoint u hus (heq ▸ hut)).elim
      · rintro rfl
        obtain ⟨u, hu⟩ := mem_itemsetsOf.mp hXs
        exact (hdisjoint u hu hu).elim
    · exact exact_iff_of_oneUtilityEach h h' hs ht

/-- The pairs that the lines of a file stand for. -/
def pairsOf (lines : List Line) : Finset Line := (lines.map sortedLine).toFinset

/-- The checker's verdict on two written files is right exactly if the pairs
written differ in their itemsets, or disagree on one, or give no itemset two
utilities. -/
theorem decides_written_iff {lines lines' : List Line} (h : ∀ l ∈ lines, FitsLine l)
    (h' : ∀ l ∈ lines', FitsLine l) :
    DecidesEquality (parseHuiFile (ResultWriter.writeAll lines).file)
        (parseHuiFile (ResultWriter.writeAll lines').file) ↔
      itemsetsOf (pairsOf lines) ≠ itemsetsOf (pairsOf lines') ∨
        Disagree (pairsOf lines) (pairsOf lines') ∨
        OneUtilityEach (pairsOf lines) ∧ OneUtilityEach (pairsOf lines') := by
  have hs : parseHuiFile (ResultWriter.writeAll lines).file = pairsOf lines :=
    congrArg List.toFinset (filterMap_parseHuiLine_writeAll h)
  have ht : parseHuiFile (ResultWriter.writeAll lines').file = pairsOf lines' :=
    congrArg List.toFinset (filterMap_parseHuiLine_writeAll h')
  rw [hs, ht]
  exact decidesEquality_iff

/-- One file has an itemset that the other lacks. -/
theorem decides_written_iff_missing :
    DecidesEquality (parseHuiFile (ResultWriter.writeAll [([2, 1], 100), ([3, 4], 200)]).file)
        (parseHuiFile (ResultWriter.writeAll [([1, 2], 100)]).file) ↔
      itemsetsOf (pairsOf [([2, 1], 100), ([3, 4], 200)]) ≠ itemsetsOf (pairsOf [([1, 2], 100)]) ∨
        Disagree (pairsOf [([2, 1], 100), ([3, 4], 200)]) (pairsOf [([1, 2], 100)]) ∨
        OneUtilityEach (pairsOf [([2, 1], 100), ([3, 4], 200)]) ∧
          OneUtilityEach (pairsOf [([1, 2], 100)]) :=
  decides_written_iff (by decide) (by decide)

/-- The results of two windows, in each of which the item 1 is useful. -/
def twoWindows : List Line := [([1], 10), ([1], 20)]

theorem not_decidesEquality_twoWindows :
    ¬ DecidesEquality (parseHuiFile (ResultWriter.writeAll twoWindows).file)
      (parseHuiFile (ResultWriter.writeAll twoWindows).file) := by
  have hs : parseHuiFile (ResultWriter.writeAll twoWindows).file = pairsOf twoWindows :=
    congrArg List.toFinset (filterMap_parseHuiLine_writeAll (by decide))
  rw [hs]
  apply not_decidesEquality rfl
  · rintro ⟨X, hX, hdisjoint⟩
    obtain ⟨u, hu⟩ := mem_itemsetsOf.mp (Finset.mem_inter.mp hX).1
    exact hdisjoint u hu hu
  · decide

end AirHuim
