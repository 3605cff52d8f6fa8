import AirHuim.Mining.Algorithms.FhmChecked

/-!
# FHM+

FHM with bounds on the number of items. A report needs both bounds; the upper one
also cuts the search, the lower one does not, since a long itemset is reached
through short ones. The main result is that the output is that of FHM, less the
itemsets of another length.
-/

namespace AirHuim

open Library Basket

/-- `min_length` and `max_length` of the context, which only this miner reads. -/
structure LengthBounds where
  minLength : ℕ
  maxLength : ℕ

def LengthBounds.Allows (b : LengthBounds) (length : ℕ) : Prop :=
  b.minLength ≤ length ∧ length ≤ b.maxLength

instance (b : LengthBounds) (length : ℕ) : Decidable (b.Allows length) :=
  inferInstanceAs (Decidable (_ ∧ _))

namespace FhmPlus

/-- What every call of the search is given. -/
structure Env where
  eucs : Eucs
  minUtility : Utility
  bounds : LengthBounds

/-- The pair test and the joins are those of FHM. -/
def Env.miner (env : Env) : UlMiner := Fhm.miner env.eucs env.minUtility

def writeIfHigh (env : Env) (ul : UtilityList) (itemset : List ItemId) : Task Unit :=
  if ul.isHighUtility env.minUtility ∧ env.bounds.Allows itemset.length then
    Task.writeAndCount itemset ul.sumIutils
  else return ()

/-- One pass of the search's loop, with the recursive call as a parameter. -/
def visit (env : Env) (descend : List ULEntry → List Extension → Task Unit)
    (prefixBody : List ULEntry) (ulPx : UtilityList) (bodyPx : UlBody) (later : List Extension) :
    Task Unit :=
  if ulPx.canPrune env.minUtility then return ()
  else do
    let entriesPx ← getBody bodyPx
    match ulPx.itemset.getLast? with
    | none => throw .panic
    | some itemX =>
      writeIfHigh env ulPx ulPx.itemset
      if env.bounds.maxLength ≤ ulPx.itemset.length then return ()
      else
        let next ← env.miner.nextExtensions prefixBody ulPx entriesPx itemX env.minUtility later
        if next.isEmpty then return () else descend entriesPx next

def searchLoop (env : Env) (descend : List ULEntry → List Extension → Task Unit)
    (prefixBody : List ULEntry) : List Extension → Task Unit
  | [] => return ()
  | (ulPx, bodyPx) :: exts => do
      visit env descend prefixBody ulPx bodyPx exts
      searchLoop env descend prefixBody exts

/-- `fhm_plus_search`; a level has fewer extensions than the one above it. -/
def fhmPlusSearch (env : Env) : ℕ → List ULEntry → List Extension → Task Unit
  | 0, _, _ => throw .stuck
  | fuel + 1, prefixBody, exts => searchLoop env (fhmPlusSearch env fuel) prefixBody exts

/-- The task of one item. -/
def itemTask (env : Env) (descend : List ULEntry → List Extension → Task Unit) (e : ItemList)
    (later : List ItemList) : Task Unit :=
  let (itemX, ulX, bodyX) := e
  if ulX.canPrune env.minUtility then return ()
  else do
    writeIfHigh env ulX [itemX]
    if env.bounds.maxLength ≤ 1 then return ()
    else
      let exts ← env.miner.firstExtensions itemX bodyX env.minUtility later
      if exts.isEmpty then return () else descend bodyX exts

/-- The tasks of all items, in order. -/
def itemTasks (env : Env) : List ItemList → List (Task Unit)
  | [] => []
  | e :: later =>
      itemTask env (fun body exts => fhmPlusSearch env exts.length body exts) e later ::
        itemTasks env later

def pass1 (ctx : MiningContext) (txs : List RawTransaction) : TwuFilterResult :=
  TwuFilter.compute ctx.minUtility txs

def pass2 (ctx : MiningContext) (txs : List RawTransaction) : Pass2 :=
  Pass2.run ctx.world.guard (filteredDb (pass1 ctx txs) txs)

/-- The lists of the items, by ascending weight: the sort is stable and has no tie-break. -/
def filtered (ctx : MiningContext) (txs : List RawTransaction) : List ItemList :=
  sortByKey (fun e : ItemList => ((pass1 ctx txs).twu.lookup e.1).getD 0) (pass2 ctx txs).itemLists

/-- `FhmPlus::run`: the count it returns and the world it leaves. -/
def run (bounds : LengthBounds) (source : DataSource) (ctx : MiningContext) :
    Except Fault (ℕ × World) := do
  let txs := okOnly (← readDb source)
  let s := pass2 ctx txs
  let w ← executeTasks ctx { ctx.world with guard := s.guard }
    (itemTasks ⟨s.eucs, ctx.minUtility, bounds⟩ (filtered ctx txs))
  return (w.huisFound, w)

/-! ## The same with overflow checks -/

def visitChecked (env : Env) (descend : List ULEntry → List Extension → Task Unit)
    (prefixBody : List ULEntry) (ulPx : UtilityList) (bodyPx : UlBody) (later : List Extension) :
    Task Unit := do
  let prune ← Task.ofExcept (ulPx.canPruneChecked env.minUtility)
  if prune then return ()
  else
    let entriesPx ← getBody bodyPx
    match ulPx.itemset.getLast? with
    | none => throw .panic
    | some itemX =>
      writeIfHigh env ulPx ulPx.itemset
      if env.bounds.maxLength ≤ ulPx.itemset.length then return ()
      else
        let next ←
          env.miner.nextExtensionsChecked prefixBody ulPx entriesPx itemX env.minUtility later
        if next.isEmpty then return () else descend entriesPx next

def searchLoopChecked (env : Env) (descend : List ULEntry → List Extension → Task Unit)
    (prefixBody : List ULEntry) : List Extension → Task Unit
  | [] => return ()
  | (ulPx, bodyPx) :: exts => do
      visitChecked env descend prefixBody ulPx bodyPx exts
      searchLoopChecked env descend prefixBody exts

def fhmPlusSearchChecked (env : Env) : ℕ → List ULEntry → List Extension → Task Unit
  | 0, _, _ => throw .stuck
  | fuel + 1, prefixBody, exts =>
      searchLoopChecked env (fhmPlusSearchChecked env fuel) prefixBody exts

def itemTaskChecked (env : Env) (descend : List ULEntry → List Extension → Task Unit)
    (e : ItemList) (later : List ItemList) : Task Unit := do
  let (itemX, ulX, bodyX) := e
  let prune ← Task.ofExcept (ulX.canPruneChecked env.minUtility)
  if prune then return ()
  else
    writeIfHigh env ulX [itemX]
    if env.bounds.maxLength ≤ 1 then return ()
    else
      let exts ← env.miner.firstExtensionsChecked itemX bodyX env.minUtility later
      if exts.isEmpty then return () else descend bodyX exts

def itemTasksChecked (env : Env) : List ItemList → List (Task Unit)
  | [] => []
  | e :: later =>
      itemTaskChecked env (fun body exts =>
        fhmPlusSearchChecked env exts.length body exts) e later ::
        itemTasksChecked env later

/-- `run` on the transactions that have been read, with the checks. -/
def mineChecked (bounds : LengthBounds) (ctx : MiningContext) (txs : List RawTransaction) :
    Except Fault (ℕ × World) := do
  let pass1 ← TwuFilter.computeChecked ctx.minUtility txs
  let s ← Pass2.runChecked ctx.world.guard (filteredDb pass1 txs)
  let itemLists ← s.itemListsChecked
  let filtered := sortByKey (fun e : ItemList => (pass1.twu.lookup e.1).getD 0) itemLists
  let w ← executeTasks ctx { ctx.world with guard := s.guard }
    (itemTasksChecked ⟨s.eucs, ctx.minUtility, bounds⟩ filtered)
  return (w.huisFound, w)

/-- `FhmPlus::run` in a build with overflow checks. -/
def runChecked (bounds : LengthBounds) (source : DataSource) (ctx : MiningContext) :
    Except Fault (ℕ × World) := do
  mineChecked bounds ctx (okOnly (← readDb source))

/-! ## The search -/

variable {rank : ItemId → Utility ×ₗ ItemId} {rows : List FilteredTransaction}
  {E : Fault → Prop} {w : World} {P X : Finset ItemId} {y : ItemId} {ys : List ItemId} {env : Env}

/-- What a search below `P` has to find: what FHM wants there, within the bounds. -/
def Sought (env : Env) (rank : ItemId → Utility ×ₗ ItemId) (rows : List FilteredTransaction)
    (P : Finset ItemId) (ys : List ItemId) (X : Finset ItemId) : Prop :=
  env.miner.Wanted rank rows P ys env.minUtility X ∧ env.bounds.Allows X.card

/-- The part of it that contains the first item. -/
def HeadSought (env : Env) (rank : ItemId → Utility ×ₗ ItemId) (rows : List FilteredTransaction)
    (P : Finset ItemId) (y : ItemId) (ys : List ItemId) (X : Finset ItemId) : Prop :=
  UlMiner.HeadWanted env.miner rank rows P y ys env.minUtility X ∧ env.bounds.Allows X.card

/-- The calls of a part of the search that answer a region. -/
abbrev Answers (rows : List FilteredTransaction) (R : Finset ItemId → Prop)
    (out : List MinerOp) : Prop :=
  Covers (rows.map FilteredTransaction.basket) R out

theorem miner_lawful (env : Env) (E : Fault → Prop) :
    env.miner.Lawful E (fun _ => env.minUtility) writeOps :=
  Fhm.miner_lawful env.eucs env.minUtility E

/-- The head of a region is the itemset itself and what lies below it. -/
theorem headSought_iff (hsorted : ∀ z ∈ ys, rank y < rank z) (hy : y ∉ P) :
    HeadSought env rank rows P y ys X ↔
      (X = insert y P ∧ HeadSought env rank rows P y ys X) ∨
        Sought env rank rows (insert y P)
          (ys.filter fun z => !env.miner.prunePair y z env.minUtility) X := by
  have hm := miner_lawful env fun _ => True
  constructor
  · rintro ⟨⟨hyX, hX⟩, hlen⟩
    by_cases hne : X = insert y P
    · exact Or.inl ⟨hne, ⟨hyX, hX⟩, hlen⟩
    · exact Or.inr ⟨UlMiner.wanted_cons_of_mem hm le_rfl hsorted hy hX hyX hne, hlen⟩
  · rintro (⟨-, h⟩ | ⟨hX, hlen⟩)
    · exact h
    · obtain ⟨hX, hyX, -⟩ := hX.of_insert hm le_rfl hsorted hy
      exact ⟨⟨hyX, hX⟩, hlen⟩

/-- The line of the itemset itself, if it is worth the threshold and of a
length that is asked for. -/
theorem writeIfHigh_spec (ys : List ItemId) {ul : UtilityList} {body : UlBody}
    (hul : IsUlOf rank rows w (insert y P) y ul body) (hy : y ∉ P) :
    Task.Spec E (writeIfHigh env ul ul.itemset) w fun out _ _ =>
      Answers rows (fun X => X = insert y P ∧ HeadSought env rank rows P y ys X) out := by
  have hcard : (insert y P).card = ul.itemset.length := by
    rw [← hul.items, List.toFinset_card_of_nodup hul.nodup]
  unfold writeIfHigh
  split_ifs with hhigh
  · obtain ⟨hhigh, hlen⟩ := hhigh
    obtain ⟨hocc, hle⟩ := (hul.isHighUtility_iff env.minUtility).mp hhigh
    apply (Task.writeAndCount_spec ul.itemset ul.sumIutils).mono le_rfl
    rintro _ v _ rfl
    apply Covers.line hul.nodup
    · rw [hul.sumIutils_eq, hul.items]
    · intro X
      rw [hul.items, and_iff_left_of_imp]
      rintro rfl
      rw [← hcard] at hlen
      exact ⟨UlMiner.headWanted_insert hy hocc hle, hlen⟩
  · apply Task.Spec.pure
    intro v _
    apply Covers.nil
    rintro X ⟨rfl, ⟨-, hX⟩, hlen⟩
    apply hhigh
    rw [hul.isHighUtility_iff, ← hcard]
    exact ⟨⟨hX.occurs, hX.le⟩, hlen⟩

theorem writeIfHigh_light (ul : UtilityList) (itemset : List ItemId) :
    Task.Checks E True (writeIfHigh env ul itemset) w fun _ _ => True := by
  unfold writeIfHigh
  split_ifs
  · apply ((Task.writeAndCount_spec itemset ul.sumIutils).weaken fun _ => Or.inl).mono le_rfl
    exact fun _ _ _ _ => ⟨trivial, trivial⟩
  · exact Task.Checks.pure fun _ _ => trivial

/-- Below an itemset of the greatest length nothing is sought. -/
theorem not_sought_of_cut (hcut : env.bounds.maxLength ≤ P.card) :
    ¬ Sought env rank rows P ys X := by
  rintro ⟨hX, -, hlen⟩
  have hlt := Finset.card_lt_card (hX.sub.ssubset_of_ne hX.ne.symm)
  omega

/-- The own line and the lines below are disjoint, and together they are the region. -/
theorem answers_head (hsorted : ∀ z ∈ ys, rank y < rank z) (hy : y ∉ P) {own below : List MinerOp}
    (hown : Answers rows (fun X => X = insert y P ∧ HeadSought env rank rows P y ys X) own)
    (hbelow : Answers rows (Sought env rank rows (insert y P)
      (ys.filter fun z => !env.miner.prunePair y z env.minUtility)) below) :
    Answers rows (HeadSought env rank rows P y ys) (own ++ below) := by
  apply (hown.append hbelow _).congr
  · exact fun X => headSought_iff hsorted hy
  · rintro X ⟨rfl, -⟩ ⟨hX, -⟩
    exact hX.ne rfl

/-- One pass of the loop finds what contains its item, if the recursive call
finds what lies below. -/
theorem visit_spec (h : FilteredRows rank rows) (hE : Task.Allows E w)
    {descend : List ULEntry → List Extension → Task Unit} {prefixBody : List ULEntry}
    (hpre : IsPrefixBody rank rows P prefixBody) {ulPx : UtilityList} {bodyPx : UlBody}
    {later : List Extension}
    (hexts : UlMiner.AreExtensions rank rows w P (y :: ys) ((ulPx, bodyPx) :: later))
    (hdescend : ∀ v zs next, w ≤ v → next ≠ [] → zs.length ≤ ys.length →
      UlMiner.AreExtensions rank rows v (insert y P) zs next →
      Task.Spec E (descend (entriesOf rank rows (insert y P) y) next) v fun out _ _ =>
        Answers rows (Sought env rank rows (insert y P) zs) out) :
    Task.Spec E (visit env descend prefixBody ulPx bodyPx later) w fun out _ _ =>
      Answers rows (HeadSought env rank rows P y ys) out := by
  obtain ⟨hul, -⟩ := List.forall₂_cons.mp hexts.lists
  obtain ⟨hlater, -⟩ := List.pairwise_cons.mp hexts.sorted
  have hyP : y ∉ P := hexts.fresh y List.mem_cons_self
  have hcard : (insert y P).card = ulPx.itemset.length := by
    rw [← hul.items, List.toFinset_card_of_nodup hul.nodup]
  unfold visit
  by_cases hprune : ulPx.canPrune env.minUtility = true
  · rw [if_pos hprune]
    apply Task.Spec.pure
    intro v _
    apply Covers.nil
    rintro X ⟨hX, -⟩
    rw [hX.canPrune_eq_false h hul hlater le_rfl] at hprune
    cases hprune
  · rw [if_neg hprune]
    apply Task.Spec.bind_silent (getBody_spec h hE hul.body)
    rintro v₁ _ hv₁ rfl
    simp only [hul.last]
    apply Task.Spec.bind (writeIfHigh_spec ys (hul.mono hv₁) hyP)
    intro own v₂ _ hv₂ hown
    have hw₂ : w ≤ v₂ := hv₁.trans hv₂
    split_ifs with hcut
    · apply Task.Spec.pure
      intro v _
      exact answers_head hlater hyP hown
        (Covers.nil fun X => not_sought_of_cut (hcard ▸ hcut))
    · apply Task.Spec.bind_silent (UlMiner.nextExtensions_spec h (hE.mono hw₂) hpre hul.nodup
        hul.items hyP (hexts.tail.mono hw₂) hlater)
      intro v₃ next hv₃ hnext
      cases next with
      | nil =>
        have hnone := List.forall₂_nil_right_iff.mp hnext.lists
        apply Task.Spec.pure
        intro v _
        apply answers_head hlater hyP hown
        rw [hnone]
        exact Covers.nil fun X hX => UlMiner.not_wanted_nil hX.1
      | cons e next =>
        apply (hdescend v₃ _ (e :: next) (hw₂.trans hv₃) (by simp) (List.length_filter_le _ _)
          hnext).mono le_rfl
        intro below v _ hbelow
        exact answers_head hlater hyP hown hbelow

theorem sought_cons_iff (hy : y ∉ P) (hsorted : (y :: ys).Pairwise fun y z => rank y < rank z) :
    Sought env rank rows P (y :: ys) X ↔
      HeadSought env rank rows P y ys X ∨ Sought env rank rows P ys X := by
  have hnot : env.miner.Wanted rank rows P ys env.minUtility X → y ∉ X := by
    intro hX hyX
    rcases hX.within y hyX with hyP | hyys
    · exact hy hyP
    · exact ((List.pairwise_cons.mp hsorted).1 y hyys).ne rfl
  constructor
  · rintro ⟨hX, hlen⟩
    by_cases hyX : y ∈ X
    · exact Or.inl ⟨⟨hyX, hX⟩, hlen⟩
    · exact Or.inr ⟨(UlMiner.wanted_cons_of_notMem hyX).mp hX, hlen⟩
  · rintro (⟨⟨-, hX⟩, hlen⟩ | ⟨hX, hlen⟩)
    · exact ⟨hX, hlen⟩
    · exact ⟨(UlMiner.wanted_cons_of_notMem (hnot hX)).mpr hX, hlen⟩

/-- The two parts of a region have nothing in common. -/
theorem HeadSought.not_sought (hy : y ∉ P)
    (hsorted : (y :: ys).Pairwise fun y z => rank y < rank z)
    (hX : HeadSought env rank rows P y ys X) : ¬ Sought env rank rows P ys X := by
  rintro ⟨hX', -⟩
  rcases hX'.within y hX.1.1 with hyP | hyys
  · exact hy hyP
  · exact ((List.pairwise_cons.mp hsorted).1 y hyys).ne rfl

theorem searchLoop_spec (h : FilteredRows rank rows) (hE : Task.Allows E w)
    {descend : List ULEntry → List Extension → Task Unit} {n : ℕ}
    (hdescend : ∀ P y zs next v, w ≤ v → next ≠ [] → zs.length ≤ n →
      UlMiner.AreExtensions rank rows v (insert y P) zs next →
      Task.Spec E (descend (entriesOf rank rows (insert y P) y) next) v fun out _ _ =>
        Answers rows (Sought env rank rows (insert y P) zs) out)
    {prefixBody : List ULEntry} (hpre : IsPrefixBody rank rows P prefixBody)
    {exts : List Extension} (hexts : UlMiner.AreExtensions rank rows w P ys exts)
    (hlen : ys.length ≤ n + 1) :
    Task.Spec E (searchLoop env descend prefixBody exts) w fun out _ _ =>
      Answers rows (Sought env rank rows P ys) out := by
  induction exts generalizing ys w with
  | nil =>
    obtain rfl : ys = [] := List.forall₂_nil_right_iff.mp hexts.lists
    apply Task.Spec.pure
    intro v _
    exact Covers.nil fun X hX => UlMiner.not_wanted_nil hX.1
  | cons e exts ih =>
    obtain ⟨y, ys, -, -, rfl⟩ := List.forall₂_cons_right_iff.mp hexts.lists
    have hyP : y ∉ P := hexts.fresh y List.mem_cons_self
    rw [List.length_cons] at hlen
    unfold searchLoop
    apply Task.Spec.bind (visit_spec h hE hpre hexts fun v zs next hv hne hzs =>
      hdescend P y zs next v hv hne (by omega))
    intro head v _ hv hhead
    apply (ih (hE.mono hv) (fun P y zs next v' hv' => hdescend P y zs next v' (hv.trans hv'))
      (hexts.tail.mono hv) (by omega)).mono le_rfl
    intro tail v' _ htail
    apply (hhead.append htail _).congr
    · exact fun X => sought_cons_iff hyP hexts.sorted
    · exact fun X => HeadSought.not_sought hyP hexts.sorted

/-- The search finds the whole region; its fuel is the number of extensions. -/
theorem fhmPlusSearch_spec (h : FilteredRows rank rows) (fuel : ℕ) (hE : Task.Allows E w)
    {prefixBody : List ULEntry} (hpre : IsPrefixBody rank rows P prefixBody)
    {exts : List Extension} (hexts : UlMiner.AreExtensions rank rows w P ys exts)
    (hlen : ys.length ≤ fuel) (hne : exts ≠ []) :
    Task.Spec E (fhmPlusSearch env fuel prefixBody exts) w fun out _ _ =>
      Answers rows (Sought env rank rows P ys) out := by
  induction fuel generalizing P ys w prefixBody exts with
  | zero =>
    have hlists := hexts.lists.length_eq
    have hzero : exts.length = 0 := by omega
    exact (hne (List.length_eq_zero_iff.mp hzero)).elim
  | succ fuel ih =>
    apply searchLoop_spec h hE _ hpre hexts hlen
    intro P y zs next v hv hne hzs hnext
    apply ih (hE.mono hv) _ hnext hzs hne
    exact Or.inr ⟨Finset.insert_ne_empty y P, y, rfl⟩

/-! ## The tasks -/

theorem itemTask_eq (descend : List ULEntry → List Extension → Task Unit) {e : ItemList}
    (he : UlMiner.IsItemList rank rows y e) {later : List ItemList}
    (h : List.Forall₂ (UlMiner.IsItemList rank rows) ys later) :
    itemTask env descend e later =
      visit env descend [] e.2.1 (.inMemory e.2.2) (later.map UlMiner.toExtension) := by
  obtain ⟨itemX, ulX, bodyX⟩ := e
  have hulX : ulX.itemset = [itemX] := by
    rw [he.itemset, ← he.item]
  have hlast : ulX.itemset.getLast? = some itemX := by
    rw [hulX]
    rfl
  have hbody : getBody (.inMemory bodyX) = pure bodyX := rfl
  simp only [itemTask, visit, UlMiner.firstExtensions_eq hulX bodyX h, hbody, hulX]
  rfl

/-- What each task has to find. -/
def taskRegions (env : Env) (rank : ItemId → Utility ×ₗ ItemId) (rows : List FilteredTransaction) :
    List ItemId → List (Finset ItemId → Prop)
  | [] => []
  | y :: ys => HeadSought env rank rows ∅ y ys :: taskRegions env rank rows ys

theorem itemTasks_spec (env : Env) (h : FilteredRows rank rows) (hE : Task.Allows E w)
    {items : List ItemList} (hitems : List.Forall₂ (UlMiner.IsItemList rank rows) ys items)
    (hsorted : ys.Pairwise fun y z => rank y < rank z) :
    List.Forall₂ (fun task R => Task.Spec E task w fun out _ _ => Answers rows R out)
      (itemTasks env items) (taskRegions env rank rows ys) := by
  induction hitems with
  | nil => exact List.Forall₂.nil
  | @cons y e ys items he hitems ih =>
    apply List.Forall₂.cons _ (ih hsorted.of_cons)
    rw [itemTask_eq _ he hitems]
    apply visit_spec h hE (Or.inl ⟨rfl, rfl⟩)
      (UlMiner.areExtensions_items (List.Forall₂.cons he hitems) hsorted)
    intro v zs next hv hne hzs hnext
    have hbody : e.2.2 = entriesOf rank rows (insert y ∅) y := by
      rw [insert_empty_eq]
      exact he.body
    rw [← hbody]
    apply fhmPlusSearch_spec h _ (hE.mono hv) _ hnext hnext.lists.length_eq.le hne
    exact Or.inr ⟨Finset.insert_ne_empty y ∅, y, hbody⟩

theorem exists_taskRegions_iff (hsorted : ys.Pairwise fun y z => rank y < rank z) :
    (∃ R ∈ taskRegions env rank rows ys, R X) ↔ Sought env rank rows ∅ ys X := by
  induction ys with
  | nil =>
    simp only [taskRegions, List.not_mem_nil, false_and, exists_false, false_iff]
    exact fun hX => UlMiner.not_wanted_nil hX.1
  | cons y ys ih =>
    rw [taskRegions, sought_cons_iff (Finset.notMem_empty y) hsorted, ← ih hsorted.of_cons]
    simp

theorem pairwise_taskRegions (hsorted : ys.Pairwise fun y z => rank y < rank z) :
    (taskRegions env rank rows ys).Pairwise fun R R' => ∀ X, R X → ¬ R' X := by
  induction ys with
  | nil => exact List.Pairwise.nil
  | cons y ys ih =>
    rw [taskRegions, List.pairwise_cons]
    constructor
    · intro R hR X hX hRX
      apply HeadSought.not_sought (Finset.notMem_empty y) hsorted hX
      exact (exists_taskRegions_iff hsorted.of_cons).mp ⟨R, hR, hRX⟩
    · exact ih hsorted.of_cons

/-! ## The checked tasks -/

open AirHuim.Task (Follows)

section Checked

variable {descend descend' : List ULEntry → List Extension → Task Unit}

theorem follows_visitChecked
    (hdescend : ∀ body exts, Follows (descend body exts) (descend' body exts))
    (prefixBody : List ULEntry) (ulPx : UtilityList) (bodyPx : UlBody) (later : List Extension) :
    Follows (visitChecked env descend prefixBody ulPx bodyPx later)
      (visit env descend' prefixBody ulPx bodyPx later) := by
  unfold visitChecked visit
  apply Follows.ofExcept_bind (yields_canPruneChecked ulPx env.minUtility)
  split
  · exact Follows.refl _
  · apply (Follows.refl _).bind
    intro entriesPx
    cases ulPx.itemset.getLast? with
    | none => exact Follows.refl _
    | some itemX =>
      apply (Follows.refl _).bind
      intro _
      split
      · exact Follows.refl _
      · apply (env.miner.follows_nextExtensionsChecked _ _ _ _ _ _).bind
        intro next
        split
        · exact Follows.refl _
        · exact hdescend entriesPx next

theorem follows_fhmPlusSearchChecked (fuel : ℕ) (prefixBody : List ULEntry)
    (exts : List Extension) :
    Follows (fhmPlusSearchChecked env fuel prefixBody exts)
      (fhmPlusSearch env fuel prefixBody exts) := by
  induction fuel generalizing prefixBody exts with
  | zero => exact Follows.refl _
  | succ fuel ih =>
    unfold fhmPlusSearchChecked fhmPlusSearch
    induction exts with
    | nil => exact Follows.refl _
    | cons e exts ihexts =>
      exact (follows_visitChecked ih prefixBody e.1 e.2 exts).bind fun _ => ihexts

theorem follows_itemTaskChecked
    (hdescend : ∀ body exts, Follows (descend body exts) (descend' body exts)) (e : ItemList)
    (later : List ItemList) :
    Follows (itemTaskChecked env descend e later) (itemTask env descend' e later) := by
  obtain ⟨itemX, ulX, bodyX⟩ := e
  unfold itemTaskChecked itemTask
  apply Follows.ofExcept_bind (yields_canPruneChecked ulX env.minUtility)
  dsimp only
  split
  · exact Follows.refl _
  · apply (Follows.refl _).bind
    intro _
    split
    · exact Follows.refl _
    · apply (env.miner.follows_firstExtensionsChecked _ _ _ _).bind
      intro exts
      split
      · exact Follows.refl _
      · exact hdescend bodyX exts

theorem follows_itemTasksChecked (items : List ItemList) :
    List.Forall₂ Follows (itemTasksChecked env items) (itemTasks env items) := by
  induction items with
  | nil => exact .nil
  | cons e later ih =>
    refine .cons (follows_itemTaskChecked (fun body exts => ?_) e later) ih
    exact follows_fhmPlusSearchChecked exts.length body exts

/-- Where every join fits, one pass of the loop does not overflow. -/
theorem visitChecked_light (h : FilteredRows rank rows) (hfits : totalOf rows < 2 ^ 63)
    (hjoins : JoinsFit rows) (hE : Task.Allows E w) {prefixBody : List ULEntry}
    (hpre : IsPrefixBody rank rows P prefixBody) {ulPx : UtilityList} {bodyPx : UlBody}
    {later : List Extension}
    (hexts : UlMiner.AreExtensions rank rows w P (y :: ys) ((ulPx, bodyPx) :: later))
    (hbefore : UlMiner.Before rank P (y :: ys))
    (hdescend : ∀ v zs next, w ≤ v → next ≠ [] → zs.length ≤ ys.length →
      UlMiner.AreExtensions rank rows v (insert y P) zs next →
      UlMiner.Before rank (insert y P) zs →
      Task.Checks E True (descend (entriesOf rank rows (insert y P) y) next) v fun _ _ => True) :
    Task.Checks E True (visitChecked env descend prefixBody ulPx bodyPx later) w
      fun _ _ => True := by
  obtain ⟨hul, -⟩ := List.forall₂_cons.mp hexts.lists
  obtain ⟨hlater, -⟩ := List.pairwise_cons.mp hexts.sorted
  unfold visitChecked
  rw [UlMiner.canPruneChecked_eq h hfits hbefore.last hul, Task.ofExcept_ok_bind]
  split
  · exact Task.Checks.pure fun _ _ => trivial
  · apply Task.Checks.bind_silent (Task.Checks.of_spec (getBody_spec h hE hul.body))
    rintro v₁ _ hv₁ rfl
    simp only [hul.last]
    apply Task.Checks.bind_silent (writeIfHigh_light ulPx ulPx.itemset)
    intro v₂ _ hv₂ _
    have hw₂ : w ≤ v₂ := hv₁.trans hv₂
    split_ifs
    · exact Task.Checks.pure fun _ _ => trivial
    · apply (UlMiner.nextExtensionsChecked_light h hfits hjoins (hE.mono hw₂) hpre
        (hexts.mono hw₂) env.minUtility).bind_silent
      intro v₃ next hv₃ hnext
      cases next with
      | nil => exact Task.Checks.pure fun _ _ => trivial
      | cons e next =>
        exact hdescend v₃ _ (e :: next) (hw₂.trans hv₃) (List.cons_ne_nil e next)
          (List.length_filter_le _ _) hnext (hbefore.filter hlater _)

theorem searchLoopChecked_light (h : FilteredRows rank rows) (hfits : totalOf rows < 2 ^ 63)
    (hjoins : JoinsFit rows) (hE : Task.Allows E w) {n : ℕ}
    (hdescend : ∀ P y zs next v, w ≤ v → next ≠ [] → zs.length ≤ n →
      UlMiner.AreExtensions rank rows v (insert y P) zs next →
      UlMiner.Before rank (insert y P) zs →
      Task.Checks E True (descend (entriesOf rank rows (insert y P) y) next) v fun _ _ => True)
    {prefixBody : List ULEntry} (hpre : IsPrefixBody rank rows P prefixBody)
    {exts : List Extension} (hexts : UlMiner.AreExtensions rank rows w P ys exts)
    (hbefore : UlMiner.Before rank P ys) (hlen : ys.length ≤ n + 1) :
    Task.Checks E True (searchLoopChecked env descend prefixBody exts) w fun _ _ => True := by
  induction exts generalizing ys w with
  | nil => exact Task.Checks.pure fun _ _ => trivial
  | cons e exts ih =>
    obtain ⟨y, ys, -, -, rfl⟩ := List.forall₂_cons_right_iff.mp hexts.lists
    rw [List.length_cons] at hlen
    have hrest : UlMiner.Before rank P ys := fun x hx z hz =>
      hbefore x hx z (List.mem_cons_of_mem y hz)
    unfold searchLoopChecked
    apply (visitChecked_light h hfits hjoins hE hpre hexts hbefore
      fun v zs next hv hne hzs => hdescend P y zs next v hv hne (by omega)).bind_silent
    intro v _ hv _
    exact ih (hE.mono hv) (fun P y zs next v' hv' => hdescend P y zs next v' (hv.trans hv'))
      (hexts.tail.mono hv) hrest (by omega)

theorem fhmPlusSearchChecked_light (h : FilteredRows rank rows) (hfits : totalOf rows < 2 ^ 63)
    (hjoins : JoinsFit rows) (fuel : ℕ) (hE : Task.Allows E w) {prefixBody : List ULEntry}
    (hpre : IsPrefixBody rank rows P prefixBody) {exts : List Extension}
    (hexts : UlMiner.AreExtensions rank rows w P ys exts) (hbefore : UlMiner.Before rank P ys)
    (hlen : ys.length ≤ fuel) (hne : exts ≠ []) :
    Task.Checks E True (fhmPlusSearchChecked env fuel prefixBody exts) w fun _ _ => True := by
  induction fuel generalizing P ys w prefixBody exts with
  | zero =>
    have hlists := hexts.lists.length_eq
    have hzero : exts.length = 0 := by omega
    exact (hne (List.length_eq_zero_iff.mp hzero)).elim
  | succ fuel ih =>
    apply searchLoopChecked_light h hfits hjoins hE _ hpre hexts hbefore hlen
    intro P y zs next v hv hne hzs hnext hbefore
    exact ih (hE.mono hv) (Or.inr ⟨Finset.insert_ne_empty y P, y, rfl⟩) hnext hbefore hzs hne

theorem itemTaskChecked_eq {e : ItemList} (he : UlMiner.IsItemList rank rows y e)
    {later : List ItemList} (h : List.Forall₂ (UlMiner.IsItemList rank rows) ys later) :
    itemTaskChecked env descend e later =
      visitChecked env descend [] e.2.1 (.inMemory e.2.2) (later.map UlMiner.toExtension) := by
  obtain ⟨itemX, ulX, bodyX⟩ := e
  have hulX : ulX.itemset = [itemX] := by
    rw [he.itemset, ← he.item]
  have hlast : ulX.itemset.getLast? = some itemX := by
    rw [hulX]
    rfl
  have hbody : getBody (.inMemory bodyX) = pure bodyX := rfl
  simp only [itemTaskChecked, visitChecked, UlMiner.firstExtensionsChecked_eq hulX bodyX h, hbody,
    hulX]
  rfl

theorem itemTasksChecked_light (h : FilteredRows rank rows) (hfits : totalOf rows < 2 ^ 63)
    (hjoins : JoinsFit rows) (hE : Task.Allows E w) {items : List ItemList}
    (hitems : List.Forall₂ (UlMiner.IsItemList rank rows) ys items)
    (hsorted : ys.Pairwise fun y z => rank y < rank z) :
    ∀ task ∈ itemTasksChecked env items, Task.Checks E True task w fun _ _ => True := by
  induction hitems with
  | nil => exact fun task htask => (List.not_mem_nil htask).elim
  | @cons y e ys items he hitems ih =>
    refine List.forall_mem_cons.mpr ⟨?_, ih hsorted.of_cons⟩
    rw [itemTaskChecked_eq he hitems]
    apply visitChecked_light h hfits hjoins hE (Or.inl ⟨rfl, rfl⟩)
      (UlMiner.areExtensions_items (List.Forall₂.cons he hitems) hsorted)
      (fun x hx => (Finset.notMem_empty x hx).elim)
    intro v zs next hv hne hzs hnext hbefore
    have hbody : e.2.2 = entriesOf rank rows (insert y ∅) y := by
      rw [insert_empty_eq]
      exact he.body
    rw [← hbody]
    apply fhmPlusSearchChecked_light h hfits hjoins _ (hE.mono hv) _ hnext hbefore
      hnext.lists.length_eq.le hne
    exact Or.inr ⟨Finset.insert_ne_empty y ∅, y, hbody⟩

end Checked

/-! ## The run -/

section

variable {db : List SpmfRow} (bounds : LengthBounds) (ctx : MiningContext)

abbrev rowsOf (ctx : MiningContext) (txs : List RawTransaction) : List FilteredTransaction :=
  filteredDb (pass1 ctx txs) txs

theorem filtered_sorted (txs : List RawTransaction) :
    ((filtered ctx txs).map Prod.fst).Pairwise fun y z =>
      (pass1 ctx txs).rank y < (pass1 ctx txs).rank z :=
  Pass2.pairwise_rank_sortByKey (pass1 ctx txs) (Pass2.itemLists_sorted _ _)

theorem run_map_ok (db : List SpmfRow) (hlen : db.length < 2 ^ 32) :
    run bounds (db.map .ok) ctx = (executeTasks ctx
      { ctx.world with guard := (pass2 ctx (numbered 0 db)).guard }
      (itemTasks ⟨(pass2 ctx (numbered 0 db)).eucs, ctx.minUtility, bounds⟩
        (filtered ctx (numbered 0 db)))).map fun w => (w.huisFound, w) := by
  simp only [run, readDb_map_ok, if_pos hlen]
  change Except.bind (Except.ok _) _ = _
  simp only [Except.bind, okOnly_map_ok]
  cases executeTasks ctx _ _ <;> rfl

theorem forall₂_filtered (hwf : ∀ row ∈ db, row.WellFormed) (hlen : db.length < 2 ^ 32) :
    List.Forall₂ (UlMiner.IsItemList (pass1 ctx (numbered 0 db)).rank (rowsOf ctx (numbered 0 db)))
      ((filtered ctx (numbered 0 db)).map Prod.fst) (filtered ctx (numbered 0 db)) :=
  Pass2.forall₂_isItemList (filteredRows_filteredDb hwf hlen (pass1 ctx (numbered 0 db)))
    ctx.world.guard fun _ he => (mem_sortByKey _).mp he

/-- What a run reports, whatever the pair structure holds. -/
theorem run_spec (hwf : ∀ row ∈ db, row.WellFormed) {E : Fault → Prop}
    (hE : Task.Allows E ctx.world) (hlen : db.length < 2 ^ 32) {env : Env}
    (henv : env = ⟨(pass2 ctx (numbered 0 db)).eucs, ctx.minUtility, bounds⟩) :
    (∃ e, E e ∧ run bounds (db.map .ok) ctx = .error e) ∨
      ∃ w, run bounds (db.map .ok) ctx = .ok (w.huisFound, w) ∧
        Lists (fun l : Line => l.1.toFinset) w.lines
          (Sought env (pass1 ctx (numbered 0 db)).rank (rowsOf ctx (numbered 0 db)) ∅
            ((filtered ctx (numbered 0 db)).map Prod.fst))
          fun l => l.1.Nodup ∧
            l.2 = utility ((rowsOf ctx (numbered 0 db)).map FilteredTransaction.basket)
              l.1.toFinset ∧
            Sought env (pass1 ctx (numbered 0 db)).rank (rowsOf ctx (numbered 0 db)) ∅
              ((filtered ctx (numbered 0 db)).map Prod.fst) l.1.toFinset := by
  have hrows := filteredRows_filteredDb hwf hlen (pass1 ctx (numbered 0 db))
  have hitems := forall₂_filtered ctx hwf hlen
  have hsorted := filtered_sorted ctx (numbered 0 db)
  rw [run_map_ok bounds ctx db hlen, ← henv]
  have htasks := itemTasks_spec
    (w := { ctx.world with guard := (pass2 ctx (numbered 0 db)).guard, lines := [] }) env
    hrows hE hitems hsorted
  rcases executeTasks_covers ctx { ctx.world with guard := (pass2 ctx (numbered 0 db)).guard }
      htasks (pairwise_taskRegions hsorted) with
    ⟨e, he, hrun⟩ | ⟨w, lines, hrun, hperm, -, hlists⟩
  · exact Or.inl ⟨e, he, by rw [hrun]; rfl⟩
  · simp only [exists_taskRegions_iff hsorted] at hlists
    exact Or.inr ⟨w, by rw [hrun]; rfl, hlists.perm hperm.symm⟩

theorem mem_filtered (hwf : ∀ row ∈ db, row.WellFormed) (hlen : db.length < 2 ^ 32) {y : ItemId}
    (hy : Occurs ((rowsOf ctx (numbered 0 db)).map FilteredTransaction.basket) {y}) :
    y ∈ (filtered ctx (numbered 0 db)).map Prod.fst :=
  Pass2.mem_map_fst_sorted (filteredRows_filteredDb hwf hlen (pass1 ctx (numbered 0 db)))
    ctx.world.guard _ hy

/-- With one pair structure FHM+ wants what FHM wants, within the bounds. -/
theorem sought_iff {ctx' : MiningContext} (hwf : ∀ row ∈ db, row.WellFormed)
    (hlen : db.length < 2 ^ 32) (hmin : ctx'.minUtility = ctx.minUtility)
    (heucs : (pass2 ctx (numbered 0 db)).eucs = (Fhm.pass2 ctx' (numbered 0 db)).eucs)
    (X : Finset ItemId) :
    Sought ⟨(pass2 ctx (numbered 0 db)).eucs, ctx.minUtility, bounds⟩
        (pass1 ctx (numbered 0 db)).rank (rowsOf ctx (numbered 0 db)) ∅
        ((filtered ctx (numbered 0 db)).map Prod.fst) X ↔
      (Fhm.miner (Fhm.pass2 ctx' (numbered 0 db)).eucs ctx'.minUtility).Wanted
        (Fhm.pass1 ctx' (numbered 0 db)).rank (Fhm.rowsOf ctx' (numbered 0 db)) ∅
        ((Fhm.filtered ctx' (numbered 0 db)).map Prod.fst) ctx'.minUtility X ∧
      bounds.Allows X.card := by
  have hpass : Fhm.pass1 ctx' (numbered 0 db) = pass1 ctx (numbered 0 db) := by
    rw [Fhm.pass1, pass1, hmin]
  have hrowsOf : Fhm.rowsOf ctx' (numbered 0 db) = rowsOf ctx (numbered 0 db) := by
    rw [Fhm.rowsOf, rowsOf, hpass]
  have hitems := fun y => Fhm.mem_filtered ctx' hwf hlen (y := y)
  rw [hrowsOf] at hitems
  rw [hpass, hrowsOf, hmin, ← heucs]
  constructor
  · rintro ⟨hX, hlength⟩
    exact ⟨hX.of_occurs hitems, hlength⟩
  · rintro ⟨hX, hlength⟩
    exact ⟨hX.of_occurs fun y => mem_filtered ctx hwf hlen, hlength⟩

theorem runChecked_map_ok (db : List SpmfRow) :
    runChecked bounds (db.map .ok) ctx =
      if db.length < 2 ^ 32 then mineChecked bounds ctx (numbered 0 db) else .error .overflow := by
  unfold runChecked
  rw [readDb_map_ok]
  split
  · exact congrArg (mineChecked bounds ctx) (okOnly_map_ok _)
  · rfl

/-- Where no storage fails, a checked run is the run, unless a sum overflows. -/
theorem agrees_runChecked (hwf : ∀ row ∈ db, row.WellFormed)
    (hpool : ∀ n, ctx.world.pool.fails n = false) :
    Agrees (LightDb db) (runChecked bounds (db.map .ok) ctx) (run bounds (db.map .ok) ctx) := by
  let start : World := { ctx.world with guard := (pass2 ctx (numbered 0 db)).guard, lines := [] }
  have hE : Task.Allows (fun _ => False) start := fun n hn => by simp [start, hpool n] at hn
  rw [runChecked_map_ok]
  split
  · rename_i hlen
    have hrows := filteredRows_filteredDb hwf hlen (pass1 ctx (numbered 0 db))
    have hitems := forall₂_filtered ctx hwf hlen
    have hsorted := filtered_sorted ctx (numbered 0 db)
    rw [run_map_ok bounds ctx db hlen]
    unfold mineChecked
    apply (LightDb.agrees_computeChecked hwf ctx.minUtility).bind
    apply (LightDb.agrees_runChecked hwf (pass1 ctx (numbered 0 db)) ctx.world.guard).bind
    apply (LightDb.agrees_itemListsChecked hwf (pass1 ctx (numbered 0 db)) ctx.world.guard).bind
    refine (Fhm.bind_huisFound _).symm ▸ (agrees_executeTasks ctx _ (follows_itemTasksChecked _)
      (List.forall₂_map_right_iff.mpr (itemTasks_spec (w := start) _ hrows hE hitems hsorted))
      fun hlight => ?_).map _
    exact itemTasksChecked_light hrows (hlight.totalOf_lt hwf _) (hlight.joinsFit hwf _) hE hitems
      hsorted
  · rename_i hlen
    exact Or.inr ⟨rfl, fun h => hlen h.length_lt⟩

/-- Where no storage fails, a run returns, or a sum or the counter of rows overflows. -/
theorem runChecked_returns (hwf : ∀ row ∈ db, row.WellFormed)
    (hpool : ∀ n, ctx.world.pool.fails n = false) :
    (∃ result, runChecked bounds (db.map .ok) ctx = .ok result) ∨
      runChecked bounds (db.map .ok) ctx = .error .overflow ∧ ¬ LightDb db := by
  apply (agrees_runChecked bounds ctx hwf hpool).returns
  by_cases hlen : db.length < 2 ^ 32
  · have hE : Task.Allows (fun _ => False) ctx.world := fun n hn => by simp [hpool n] at hn
    rcases run_spec bounds ctx hwf hE hlen rfl with ⟨e, he, -⟩ | ⟨w, hrun, -⟩
    · exact he.elim
    · exact Or.inl ⟨_, hrun⟩
  · right
    rw [run, readDb_map_ok, if_neg hlen]
    exact ⟨rfl, fun h => hlen h.length_lt⟩

/-- FHM+ lists what FHM lists, less the itemsets outside the bounds, unless a sum
overflows in one of them. -/
theorem filters_fhm (ctx' : MiningContext) (hwf : ∀ row ∈ db, row.WellFormed)
    (hmin : ctx'.minUtility = ctx.minUtility) (hpool : ∀ n, ctx.world.pool.fails n = false)
    (hpool' : ∀ n, ctx'.world.pool.fails n = false)
    (heucs : (pass2 ctx (numbered 0 db)).eucs = (Fhm.pass2 ctx' (numbered 0 db)).eucs) :
    ((∃ result, runChecked bounds (db.map .ok) ctx = .ok result) ∨
        runChecked bounds (db.map .ok) ctx = .error .overflow ∧ ¬ LightDb db) ∧
      ((∃ result, Fhm.runChecked (db.map .ok) ctx' = .ok result) ∨
        Fhm.runChecked (db.map .ok) ctx' = .error .overflow ∧ ¬ LightDb db) ∧
      ∀ result result', runChecked bounds (db.map .ok) ctx = .ok result →
        Fhm.runChecked (db.map .ok) ctx' = .ok result' →
          emitted result.2.lines = (emitted result'.2.lines).filter
              (fun p => bounds.minLength ≤ p.1.card ∧ p.1.card ≤ bounds.maxLength) ∧
            (result.2.lines.map fun l => l.1.toFinset).Nodup := by
  have hE : Task.Allows (fun _ => False) ctx.world := fun n hn => by simp [hpool n] at hn
  have hE' : Task.Allows (fun _ => False) ctx'.world := fun n hn => by simp [hpool' n] at hn
  refine ⟨runChecked_returns bounds ctx hwf hpool, Fhm.runChecked_returns ctx' hwf hpool', ?_⟩
  intro result result' hchecked hchecked'
  have hresult := (agrees_runChecked bounds ctx hwf hpool).eq_ok hchecked
  have hresult' := Fhm.run_of_runChecked hchecked'
  have hlen := length_lt_of_readDb hresult
  rcases run_spec bounds ctx hwf hE hlen rfl with ⟨e, he, -⟩ | ⟨w, hrun, hlists⟩
  · exact he.elim
  rcases Fhm.run_spec ctx' hwf hE' hlen with ⟨e, he, -⟩ | ⟨w', lines', hrun', hperm, -, hlists'⟩
  · exact he.elim
  rw [hrun] at hresult
  rw [hrun'] at hresult'
  rw [← Except.ok.inj hresult, ← Except.ok.inj hresult', emitted_perm hperm]
  have hrows : Fhm.rowsOf ctx' (numbered 0 db) = rowsOf ctx (numbered 0 db) := by
    rw [Fhm.rowsOf, rowsOf, Fhm.pass1, pass1, hmin]
  constructor
  · ext ⟨X, u⟩
    rw [Finset.mem_filter, mem_emitted_of_lists hlists, mem_emitted_of_lists hlists',
      sought_iff bounds ctx hwf hlen hmin heucs, hrows, LengthBounds.Allows]
    tauto
  · exact hlists.nodup

theorem filters_fhm_tinyDb :
    ∃ result result', runChecked ⟨2, 2⟩ (tinyDb.map .ok) (createCtx 45 none 96) = .ok result ∧
      Fhm.runChecked (tinyDb.map .ok) (createCtx 45 none 96) = .ok result' ∧
      emitted result.2.lines = (emitted result'.2.lines).filter
        (fun p => 2 ≤ p.1.card ∧ p.1.card ≤ 2) := by
  have hwf : ∀ row ∈ tinyDb, row.WellFormed := by decide
  obtain ⟨hreturns, hreturns', hfilters⟩ := filters_fhm ⟨2, 2⟩ (createCtx 45 none 96)
    (createCtx 45 none 96) hwf rfl (fun _ => rfl) (fun _ => rfl) rfl
  obtain ⟨result, hrun⟩ := hreturns.resolve_right fun h => h.2 lightDb_tinyDb
  obtain ⟨result', hrun'⟩ := hreturns'.resolve_right fun h => h.2 lightDb_tinyDb
  exact ⟨result, result', hrun, hrun', (hfilters result result' hrun hrun').1⟩

/-- On one transaction with all its utility on the first of three items FHM overflows in a
join that FHM+, stopped at pairs, does not make. -/
theorem not_filters_fhm :
    ¬ ∀ (db : List SpmfRow) (minUtility : Utility) (bounds : LengthBounds) (budget : ℕ)
        (result : ℕ × World), (∀ row ∈ db, row.WellFormed) →
      runChecked bounds (db.map .ok) (createCtx minUtility none budget) = .ok result →
      ∃ result', Fhm.runChecked (db.map .ok) (createCtx minUtility none budget) = .ok result' ∧
        emitted result.2.lines = (emitted result'.2.lines).filter
          (fun p => bounds.minLength ≤ p.1.card ∧ p.1.card ≤ bounds.maxLength) := by
  intro hall
  let row : SpmfRow :=
    { items := [⟨1, 2 ^ 62⟩, ⟨2, 0⟩, ⟨3, 0⟩], transactionUtility := 2 ^ 62 }
  have hwf : ∀ row' ∈ [row], row'.WellFormed := by decide
  obtain ⟨result, hrun⟩ : ∃ result,
      runChecked ⟨1, 2⟩ ([row].map .ok) (createCtx 1 none 1024) = .ok result :=
    exists_of_isOk (by decide +kernel)
  obtain ⟨result', hrun', -⟩ := hall [row] 1 ⟨1, 2⟩ 1024 result hwf hrun
  have hfault : (Fhm.runChecked ([row].map .ok) (createCtx 1 none 1024)).isOk = false := by
    decide +kernel
  rw [hrun'] at hfault
  cases hfault

end

end FhmPlus

end AirHuim
