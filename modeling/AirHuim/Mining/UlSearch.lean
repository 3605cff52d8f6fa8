import AirHuim.Mining.UlJoin

/-!
# Depth-first search over utility lists

The search that the utility-list miners share. A miner is given by how it reads
its threshold, how it reports an itemset and how it prunes pairs of items; the
recursion, the two bounds on a list and the joins are the same in all of them.

The search is specified against a threshold that other tasks may raise while it
runs: what it reports is worth the threshold at its start, and everything worth
the threshold at its end is reported.
-/

namespace AirHuim

open Library Basket

/-- A utility list with its body. -/
abbrev Extension := UtilityList × UlBody

/-- An item with its list, as the miners keep them in memory. -/
abbrev ItemList := ItemId × UtilityList × List ULEntry

/-- What the utility-list miners differ in. `report` gets the itemset, its
utility and the threshold last read, and answers the threshold to go on with. -/
structure UlMiner where
  current : Task Utility
  report : List ItemId → Utility → Utility → Task Utility
  prunePair : ItemId → ItemId → Utility → Bool

namespace UlMiner

variable (m : UlMiner)

/-- The report of an itemset that its list shows to be worth the threshold. -/
def reportIfHigh (ul : UtilityList) (itemset : List ItemId) (thresh : Utility) : Task Utility :=
  if ul.isHighUtility thresh then m.report itemset ul.sumIutils thresh else return thresh

/-- The joins with the extensions to the right. -/
def nextExtensions (prefixBody : List ULEntry) (ulPx : UtilityList) (bodyPx : List ULEntry)
    (itemX : ItemId) (thresh : Utility) : List Extension → Task (List Extension)
  | [] => return []
  | (ulPy, bodyPy) :: exts => do
      match ulPy.itemset.getLast? with
      | none => throw .panic
      | some itemY =>
        if m.prunePair itemX itemY thresh then
          nextExtensions prefixBody ulPx bodyPx itemX thresh exts
        else
          let entriesPy ← getBody bodyPy
          let new ← joinUtilityLists (ulPx.itemset ++ [itemY]) prefixBody bodyPx entriesPy
          let rest ← nextExtensions prefixBody ulPx bodyPx itemX thresh exts
          return new :: rest

/-- One pass of the search's loop, with the recursive call as a parameter. -/
def visit (descend : List ULEntry → List Extension → Task Unit) (prefixBody : List ULEntry)
    (ulPx : UtilityList) (bodyPx : UlBody) (later : List Extension) : Task Unit := do
  let thresh ← m.current
  if ulPx.canPrune thresh then return ()
  else
    let entriesPx ← getBody bodyPx
    match ulPx.itemset.getLast? with
    | none => throw .panic
    | some itemX =>
      let thresh ← m.reportIfHigh ulPx ulPx.itemset thresh
      let next ← m.nextExtensions prefixBody ulPx entriesPx itemX thresh later
      if next.isEmpty then return () else descend entriesPx next

def searchLoop (descend : List ULEntry → List Extension → Task Unit) (prefixBody : List ULEntry) :
    List Extension → Task Unit
  | [] => return ()
  | (ulPx, bodyPx) :: exts => do
      m.visit descend prefixBody ulPx bodyPx exts
      searchLoop descend prefixBody exts

/-- The recursion; a level has fewer extensions than the one above it. -/
def search : ℕ → List ULEntry → List Extension → Task Unit
  | 0, _, _ => throw .stuck
  | fuel + 1, prefixBody, exts => m.searchLoop (search fuel) prefixBody exts

/-- The joins of an item with the items to its right. -/
def firstExtensions (itemX : ItemId) (bodyX : List ULEntry) (thresh : Utility) :
    List ItemList → Task (List Extension)
  | [] => return []
  | (itemY, _, bodyY) :: rest => do
      if m.prunePair itemX itemY thresh then firstExtensions itemX bodyX thresh rest
      else
        let new ← joinUtilityLists [itemX, itemY] [] bodyX bodyY
        let exts ← firstExtensions itemX bodyX thresh rest
        return new :: exts

/-- The task of one item. -/
def itemTask (descend : List ULEntry → List Extension → Task Unit) (e : ItemList)
    (later : List ItemList) : Task Unit := do
  let (itemX, ulX, bodyX) := e
  let thresh ← m.current
  if ulX.canPrune thresh then return ()
  else
    let thresh ← m.reportIfHigh ulX [itemX] thresh
    let exts ← m.firstExtensions itemX bodyX thresh later
    if exts.isEmpty then return () else descend bodyX exts

/-- The tasks of all items, in order. -/
def itemTasks : List ItemList → List (Task Unit)
  | [] => []
  | e :: later =>
      m.itemTask (fun body exts => m.search exts.length body exts) e later :: itemTasks later

/-! ## What is searched for -/

/-- What a search has to find below `P`, with the items `ys` to extend it by, at
threshold `t`: the itemsets that occur, are worth `t` and have no pair of added
items that is pruned at `t`. -/
structure Wanted (rank : ItemId → Utility ×ₗ ItemId) (rows : List FilteredTransaction)
    (P : Finset ItemId) (ys : List ItemId) (t : Utility) (X : Finset ItemId) : Prop where
  sub : P ⊆ X
  within : ∀ x ∈ X, x ∈ P ∨ x ∈ ys
  ne : X ≠ P
  occurs : Occurs (rows.map FilteredTransaction.basket) X
  le : t ≤ utility (rows.map FilteredTransaction.basket) X
  pairs : ∀ x ∈ X, x ∉ P → ∀ y ∈ X, y ∉ P → rank x < rank y → m.prunePair x y t = false

/-- The lines of a search that started at threshold `t` and ended at `t'`. -/
abbrev Answers (rows : List FilteredTransaction) (region : Utility → Finset ItemId → Prop)
    (t t' : Utility) (lines : List Line) : Prop :=
  Lists (fun l : Line => l.1.toFinset) lines (region t') fun l =>
    l.1.Nodup ∧ l.2 = utility (rows.map FilteredTransaction.basket) l.1.toFinset ∧
      region t l.1.toFinset

/-- What the search relies on. `lo` is the threshold the world enforces, `ops`
the calls that report a line. -/
structure Lawful (E : Fault → Prop) (lo : World → Utility) (ops : Line → List MinerOp) :
    Prop where
  mono : ∀ w w', w ≤ w' → lo w ≤ lo w'
  prune : ∀ x y t t', t ≤ t' → m.prunePair x y t' = false → m.prunePair x y t = false
  current : ∀ w, Task.Spec E m.current w fun out v t => out = [] ∧ lo w ≤ t ∧ t ≤ lo v
  report : ∀ w₀ w t X u, lo w₀ ≤ t → t ≤ lo w → Task.Spec E (m.report X u t) w fun out v t' =>
    out = ops (X, u) ∧ lo w₀ ≤ t' ∧ t' ≤ lo v

variable {m} {rank : ItemId → Utility ×ₗ ItemId} {rows : List FilteredTransaction}
  {E : Fault → Prop} {lo : World → Utility} {ops : Line → List MinerOp} {P X : Finset ItemId}
  {y : ItemId} {ys : List ItemId} {t t' : Utility} {w : World}

theorem Lawful.wanted_mono (hm : m.Lawful E lo ops) (ht : t ≤ t')
    (h : m.Wanted rank rows P ys t' X) : m.Wanted rank rows P ys t X :=
  { h with
    le := ht.trans h.le
    pairs := fun x hx hxP z hz hzP hlt => hm.prune x z t t' ht (h.pairs x hx hxP z hz hzP hlt) }

/-- Below `P` with no item left there is nothing. -/
theorem not_wanted_nil : ¬ m.Wanted rank rows P [] t X := by
  intro h
  refine h.ne (subset_antisymm (fun x hx => ?_) h.sub)
  rcases h.within x hx with hx | hx
  · exact hx
  · exact (List.not_mem_nil hx).elim

/-- Without its first item a region is the region of the others. -/
theorem wanted_cons_of_notMem (hy : y ∉ X) :
    m.Wanted rank rows P (y :: ys) t X ↔ m.Wanted rank rows P ys t X := by
  constructor
  · intro h
    refine { h with within := fun x hx => ?_ }
    rcases h.within x hx with hxP | hxy
    · exact Or.inl hxP
    · rcases List.mem_cons.mp hxy with rfl | hxs
      · exact (hy hx).elim
      · exact Or.inr hxs
  · intro h
    exact { h with within := fun x hx => (h.within x hx).imp_right (List.mem_cons_of_mem y) }

/-- Only the items that occur matter. -/
theorem Wanted.of_occurs {ys' : List ItemId} (h : m.Wanted rank rows P ys t X)
    (hys : ∀ y, Occurs (rows.map FilteredTransaction.basket) {y} → y ∈ ys') :
    m.Wanted rank rows P ys' t X :=
  { h with
    within := fun x hx => Or.inr (hys x (h.occurs.mono (Finset.singleton_subset_iff.mpr hx))) }

/-- What contains the first item is `P` with it, or lies below that: there the
items that its own pair test leaves are all that is needed. -/
theorem wanted_cons_of_mem {t₁ : Utility} (hm : m.Lawful E lo ops) (h₁ : t₁ ≤ t)
    (hsorted : ∀ z ∈ ys, rank y < rank z) (hy : y ∉ P)
    (h : m.Wanted rank rows P (y :: ys) t X) (hyX : y ∈ X) (hne : X ≠ insert y P) :
    m.Wanted rank rows (insert y P) (ys.filter fun z => !m.prunePair y z t₁) t X where
  sub := Finset.insert_subset hyX h.sub
  within x hx := by
    rw [Finset.mem_insert]
    rcases h.within x hx with hxP | hxy
    · exact Or.inl (Or.inr hxP)
    · rcases List.mem_cons.mp hxy with rfl | hxs
      · exact Or.inl (Or.inl rfl)
      · by_cases hxP : x ∈ P
        · exact Or.inl (Or.inr hxP)
        · have hpair := h.pairs y hyX hy x hx hxP (hsorted x hxs)
          exact Or.inr (List.mem_filter.mpr ⟨hxs, by simp [hm.prune y x t₁ t h₁ hpair]⟩)
  ne := hne
  occurs := h.occurs
  le := h.le
  pairs x hx hxP z hz hzP hlt :=
    h.pairs x hx (fun hx' => hxP (Finset.mem_insert_of_mem hx')) z hz
      (fun hz' => hzP (Finset.mem_insert_of_mem hz')) hlt

theorem Wanted.of_insert {t₁ : Utility} (hm : m.Lawful E lo ops) (h₁ : t ≤ t₁)
    (hsorted : ∀ z ∈ ys, rank y < rank z) (hy : y ∉ P)
    (h : m.Wanted rank rows (insert y P) (ys.filter fun z => !m.prunePair y z t₁) t X) :
    m.Wanted rank rows P (y :: ys) t X ∧ y ∈ X ∧ X ≠ insert y P := by
  have hyX : y ∈ X := h.sub (Finset.mem_insert_self y P)
  have hlater : ∀ x ∈ X, x ∉ P → x ≠ y → x ∈ ys ∧ m.prunePair y x t₁ = false := by
    intro x hx hxP hxy
    rcases h.within x hx with hx' | hx'
    · rcases Finset.mem_insert.mp hx' with hx' | hx'
      · exact (hxy hx').elim
      · exact (hxP hx').elim
    · obtain ⟨hxs, hp⟩ := List.mem_filter.mp hx'
      exact ⟨hxs, by simpa using hp⟩
  refine ⟨⟨(Finset.subset_insert y P).trans h.sub, ?_, ?_, h.occurs, h.le, ?_⟩, hyX, h.ne⟩
  · intro x hx
    by_cases hxP : x ∈ P
    · exact Or.inl hxP
    · by_cases hxy : x = y
      · exact Or.inr (hxy ▸ List.mem_cons_self)
      · exact Or.inr (List.mem_cons_of_mem y (hlater x hx hxP hxy).1)
  · rintro rfl
    exact hy hyX
  · intro x hx hxP z hz hzP hlt
    by_cases hxy : x = y
    · subst hxy
      exact hm.prune x z t t₁ h₁ (hlater z hz hzP fun h => hlt.ne (congrArg rank h.symm)).2
    · by_cases hzy : z = y
      · subst hzy
        exact (lt_asymm hlt (hsorted x (hlater x hx hxP hxy).1)).elim
      · exact h.pairs x hx (by simp [hxy, hxP]) z hz (by simp [hzy, hzP]) hlt

/-! ## The search finds it -/

/-- The extensions of `P` by the items `ys`, in rank order. -/
structure AreExtensions (rank : ItemId → Utility ×ₗ ItemId) (rows : List FilteredTransaction)
    (w : World) (P : Finset ItemId) (ys : List ItemId) (exts : List Extension) : Prop where
  lists : List.Forall₂ (fun y (e : Extension) => IsUlOf rank rows w (insert y P) y e.1 e.2) ys exts
  sorted : ys.Pairwise fun y z => rank y < rank z
  fresh : ∀ y ∈ ys, y ∉ P

theorem AreExtensions.mono {w' : World} (hw : w ≤ w') {exts : List Extension}
    (h : AreExtensions rank rows w P ys exts) : AreExtensions rank rows w' P ys exts :=
  { h with lists := h.lists.imp fun _ _ hul => hul.mono hw }

theorem AreExtensions.tail {e : Extension} {exts : List Extension}
    (h : AreExtensions rank rows w P (y :: ys) (e :: exts)) :
    AreExtensions rank rows w P ys exts where
  lists := (List.forall₂_cons.mp h.lists).2
  sorted := h.sorted.of_cons
  fresh z hz := h.fresh z (List.mem_cons_of_mem y hz)

/-- One more join, in front of those with the extensions further to the right. -/
theorem AreExtensions.cons_join {v : World} {z : ItemId} {q : ItemId → Bool}
    {exts rest : List Extension} {new : Extension}
    (hexts : AreExtensions rank rows w P (z :: ys) exts) (hz : z ∉ insert y P)
    (hnew : IsUlOf rank rows v (insert z (insert y P)) z new.1 new.2)
    (hrest : AreExtensions rank rows v (insert y P) (ys.filter q) rest) :
    AreExtensions rank rows v (insert y P) (z :: ys.filter q) (new :: rest) where
  lists := List.Forall₂.cons hnew hrest.lists
  sorted := by
    refine List.pairwise_cons.mpr ⟨fun x hx => ?_, hrest.sorted⟩
    exact (List.pairwise_cons.mp hexts.sorted).1 x (List.mem_of_mem_filter hx)
  fresh x hx := by
    rcases List.mem_cons.mp hx with rfl | hx
    · exact hz
    · exact hrest.fresh x hx

theorem nextExtensions_spec (h : FilteredRows rank rows) (hE : Task.Allows E w)
    {prefixBody : List ULEntry} (hpre : IsPrefixBody rank rows P prefixBody)
    {ulPx : UtilityList} (hnodup : ulPx.itemset.Nodup) (hitems : ulPx.itemset.toFinset = insert y P)
    (hy : y ∉ P) {exts : List Extension} (hexts : AreExtensions rank rows w P ys exts)
    (hlater : ∀ z ∈ ys, rank y < rank z) :
    Task.Spec E (m.nextExtensions prefixBody ulPx (entriesOf rank rows (insert y P) y) y t exts) w
      fun out v next => out = [] ∧
        AreExtensions rank rows v (insert y P) (ys.filter fun z => !m.prunePair y z t) next := by
  induction exts generalizing ys w with
  | nil =>
    obtain rfl : ys = [] := List.forall₂_nil_right_iff.mp hexts.lists
    exact Task.Spec.pure fun v _ => ⟨rfl, List.Forall₂.nil, List.Pairwise.nil, by simp⟩
  | cons e exts ih =>
    obtain ⟨z, zs, hz, hzs, rfl⟩ := List.forall₂_cons_right_iff.mp hexts.lists
    obtain ⟨ulPy, bodyPy⟩ := e
    have hyz : y ≠ z := fun heq => (hlater z List.mem_cons_self).ne (congrArg rank heq)
    have hzP : z ∉ P := hexts.fresh z List.mem_cons_self
    have hlater' : ∀ x ∈ zs, rank y < rank x := fun x hx =>
      hlater x (List.mem_cons_of_mem z hx)
    have hzfresh : z ∉ insert y P := by simp [hyz.symm, hzP]
    unfold nextExtensions
    simp only [hz.last]
    split_ifs with hp
    · rw [List.filter_cons_of_neg (by simp [hp])]
      exact ih hE hexts.tail hlater'
    · refine Task.Spec.bind_silent (getBody_spec h hE hz.body) ?_
      rintro v _ hv rfl
      obtain ⟨hnodup', hitems'⟩ := append_item hnodup hitems hzfresh
      refine Task.Spec.bind_silent (joinUtilityLists_spec h (hE.mono hv) hpre hy hzP hyz hnodup'
        hitems' (by simp)) ?_
      intro v' new hv' hnew
      refine Task.Spec.bind_silent (ih (hE.mono (hv.trans hv'))
        (hexts.tail.mono (hv.trans hv')) hlater') ?_
      intro v'' rest hv'' hrest
      refine Task.Spec.pure fun u hu => ⟨rfl, ?_⟩
      rw [List.filter_cons_of_pos (by simp [hp])]
      exact hexts.cons_join hzfresh (hnew.mono (hv''.trans hu)) (hrest.mono hu)

/-- The part of a region that contains its first item. -/
def HeadWanted (m : UlMiner) (rank : ItemId → Utility ×ₗ ItemId) (rows : List FilteredTransaction)
    (P : Finset ItemId) (y : ItemId) (ys : List ItemId) (t : Utility) (X : Finset ItemId) : Prop :=
  y ∈ X ∧ m.Wanted rank rows P (y :: ys) t X

/-- The requirement on a search of a region. -/
def Finds (rows : List FilteredTransaction) (lo : World → Utility) (ops : Line → List MinerOp)
    (region : Utility → Finset ItemId → Prop) (w : World) (out : List MinerOp) (v : World) : Prop :=
  ∃ lines, out = lines.flatMap ops ∧ Answers rows region (lo w) (lo v) lines

theorem Answers.mono {region : Utility → Finset ItemId → Prop} {t₀ t₁ : Utility}
    {lines : List Line} (h : Answers rows region t t' lines)
    (hregion : ∀ t t' X, t ≤ t' → region t' X → region t X) (h₀ : t₀ ≤ t) (h₁ : t' ≤ t₁) :
    Answers rows region t₀ t₁ lines :=
  Lists.mono h (fun X => hregion t' t₁ X h₁)
    fun _ _ ⟨hnodup, hu, hreg⟩ => ⟨hnodup, hu, hregion t₀ t _ h₀ hreg⟩

theorem Lawful.headWanted_mono (hm : m.Lawful E lo ops) (t t' : Utility) (X : Finset ItemId)
    (ht : t ≤ t') (h : HeadWanted m rank rows P y ys t' X) : HeadWanted m rank rows P y ys t X :=
  ⟨h.1, hm.wanted_mono ht h.2⟩

/-- A list with an extension that is wanted is not pruned. -/
theorem HeadWanted.canPrune_eq_false (h : FilteredRows rank rows) {ul : UtilityList} {body : UlBody}
    (hul : IsUlOf rank rows w (insert y P) y ul body) (hsorted : ∀ z ∈ ys, rank y < rank z)
    (hX : HeadWanted m rank rows P y ys t' X) (ht : t ≤ t') : ul.canPrune t = false := by
  obtain ⟨hyX, hX⟩ := hX
  refine hul.canPrune_eq_false h (Finset.insert_subset hyX hX.sub) ?_ hX.occurs (ht.trans hX.le)
  intro x hx hxPy
  rcases hX.within x hx with hxP | hxys
  · exact (hxPy (Finset.mem_insert_of_mem hxP)).elim
  · rcases List.mem_cons.mp hxys with rfl | hxys
    · exact (hxPy (Finset.mem_insert_self x P)).elim
    · exact hsorted x hxys

theorem headWanted_insert (hy : y ∉ P)
    (hocc : Occurs (rows.map FilteredTransaction.basket) (insert y P))
    (ht : t ≤ utility (rows.map FilteredTransaction.basket) (insert y P)) :
    HeadWanted m rank rows P y ys t (insert y P) := by
  refine ⟨Finset.mem_insert_self y P, Finset.subset_insert y P, ?_, ?_, hocc, ht, ?_⟩
  · intro x hx
    rcases Finset.mem_insert.mp hx with rfl | hx
    · exact Or.inr List.mem_cons_self
    · exact Or.inl hx
  · exact fun heq => hy (heq ▸ Finset.mem_insert_self y P)
  · intro x hx hxP z hz hzP hlt
    have hxy := (Finset.mem_insert.mp hx).resolve_right hxP
    have hzy := (Finset.mem_insert.mp hz).resolve_right hzP
    rw [hxy, hzy] at hlt
    exact (lt_irrefl _ hlt).elim

/-- The line of the itemset itself, if it is worth the threshold. -/
theorem reportIfHigh_spec (ys : List ItemId) (hm : m.Lawful E lo ops) {ul : UtilityList}
    {body : UlBody}
    (hul : IsUlOf rank rows w (insert y P) y ul body) (hy : y ∉ P) {t₀ : Utility} {w₀ : World}
    (hlo : lo w₀ ≤ t₀) (hhi : t₀ ≤ lo w) :
    Task.Spec E (m.reportIfHigh ul ul.itemset t₀) w fun out v t =>
      lo w₀ ≤ t ∧ t ≤ lo v ∧ ∃ lines, out = lines.flatMap ops ∧
        Answers rows (fun t X => X = insert y P ∧ HeadWanted m rank rows P y ys t X)
          (lo w₀) (lo v) lines := by
  unfold reportIfHigh
  split_ifs with hhigh
  · obtain ⟨hocc, hle⟩ := (hul.isHighUtility_iff t₀).mp hhigh
    refine (hm.report w₀ w t₀ ul.itemset ul.sumIutils hlo hhi).mono le_rfl ?_
    rintro out v t ⟨rfl, hlo', hhi'⟩
    refine ⟨hlo', hhi', [(ul.itemset, ul.sumIutils)], by simp, Lists.singleton ?_ ?_⟩
    · rintro X ⟨rfl, -⟩
      exact hul.items.symm
    · have hself : HeadWanted m rank rows P y ys (lo w₀) (insert y P) :=
        headWanted_insert hy hocc (hlo.trans hle)
      refine ⟨hul.nodup, ?_, hul.items, ?_⟩
      · rw [hul.sumIutils_eq, hul.items]
      · rwa [hul.items]
  · refine Task.Spec.pure fun v hv => ⟨hlo, hhi.trans (hm.mono _ _ hv), [], rfl, Lists.nil ?_⟩
    rintro X ⟨rfl, hX⟩
    apply hhigh
    rw [hul.isHighUtility_iff]
    exact ⟨hX.2.occurs, (hhi.trans (hm.mono _ _ hv)).trans hX.2.le⟩

/-- The line of `P ∪ {y}` and the lines below it are those of the first part of
the region. -/
theorem answers_head (hm : m.Lawful E lo ops) (hsorted : ∀ z ∈ ys, rank y < rank z) (hy : y ∉ P)
    {t₀ t₁ t₂ t₃ t₄ : Utility} (h₀₂ : t₀ ≤ t₂) (h₁₄ : t₁ ≤ t₄) (h₂₃ : t₂ ≤ t₃) (h₃₄ : t₃ ≤ t₄)
    {own lines : List Line}
    (hown : Answers rows (fun t X => X = insert y P ∧ HeadWanted m rank rows P y ys t X)
      t₀ t₁ own)
    (hlines : Answers rows
      (m.Wanted rank rows (insert y P) (ys.filter fun z => !m.prunePair y z t₂)) t₃ t₄ lines) :
    Answers rows (HeadWanted m rank rows P y ys) t₀ t₄ (own ++ lines) := by
  refine (hown.append hlines ?_).mono ?_ ?_
  · rintro b c ⟨-, -, hb, -⟩ ⟨-, -, hc⟩ heq
    exact hc.ne (heq.symm.trans hb)
  · rintro X ⟨hyX, hX⟩
    by_cases hne : X = insert y P
    · exact Or.inl ⟨hne, hm.headWanted_mono _ _ X h₁₄ ⟨hyX, hX⟩⟩
    · exact Or.inr (wanted_cons_of_mem hm (h₂₃.trans h₃₄) hsorted hy hX hyX hne)
  · rintro l - (⟨hnodup, hu, -, hl⟩ | ⟨hnodup, hu, hl⟩)
    · exact ⟨hnodup, hu, hl⟩
    · have hlo := hm.wanted_mono (h₀₂.trans h₂₃) hl
      obtain ⟨hX, hyX, -⟩ := hlo.of_insert hm h₀₂ hsorted hy
      exact ⟨hnodup, hu, hyX, hX⟩

/-- One pass of the loop finds what contains its item, if the recursive call
finds what lies below. -/
theorem visit_spec (h : FilteredRows rank rows) (hm : m.Lawful E lo ops) (hE : Task.Allows E w)
    {descend : List ULEntry → List Extension → Task Unit} {prefixBody : List ULEntry}
    (hpre : IsPrefixBody rank rows P prefixBody) {ulPx : UtilityList} {bodyPx : UlBody}
    {later : List Extension}
    (hexts : AreExtensions rank rows w P (y :: ys) ((ulPx, bodyPx) :: later))
    (hdescend : ∀ v zs next, w ≤ v → next ≠ [] → zs.length ≤ ys.length →
      AreExtensions rank rows v (insert y P) zs next →
      Task.Spec E (descend (entriesOf rank rows (insert y P) y) next) v fun out v' _ =>
        Finds rows lo ops (m.Wanted rank rows (insert y P) zs) v out v') :
    Task.Spec E (m.visit descend prefixBody ulPx bodyPx later) w fun out v _ =>
      Finds rows lo ops (HeadWanted m rank rows P y ys) w out v := by
  obtain ⟨hul, -⟩ := List.forall₂_cons.mp hexts.lists
  obtain ⟨hlater, -⟩ := List.pairwise_cons.mp hexts.sorted
  have hyP : y ∉ P := hexts.fresh y List.mem_cons_self
  unfold visit
  refine Task.Spec.bind_silent (hm.current w) ?_
  rintro v₁ t₁ hv₁ ⟨hlo₁, hhi₁⟩
  split_ifs with hprune
  · refine Task.Spec.pure fun v hv => ⟨[], rfl, Lists.nil fun X hX => ?_⟩
    rw [hX.canPrune_eq_false h hul hlater (hhi₁.trans (hm.mono v₁ v hv))] at hprune
    cases hprune
  · refine Task.Spec.bind_silent (getBody_spec h (hE.mono hv₁) (hul.mono hv₁).body) ?_
    rintro v₂ _ hv₂ rfl
    simp only [hul.last]
    have hw₂ : w ≤ v₂ := hv₁.trans hv₂
    refine Task.Spec.bind (reportIfHigh_spec ys hm (hul.mono hw₂) hyP hlo₁
      (hhi₁.trans (hm.mono _ _ hv₂))) ?_
    rintro _ v₃ t₂ hv₃ ⟨hlo₂, hhi₂, own, rfl, hown⟩
    have hw₃ : w ≤ v₃ := hw₂.trans hv₃
    refine Task.Spec.bind_silent (nextExtensions_spec h (hE.mono hw₃) hpre hul.nodup hul.items
      hyP (hexts.tail.mono hw₃) hlater) ?_
    intro v₄ next hv₄ hnext
    have hhi₄ : t₂ ≤ lo v₄ := hhi₂.trans (hm.mono _ _ hv₄)
    have hcombine : ∀ v lines, v₄ ≤ v → Answers rows (m.Wanted rank rows (insert y P)
          (ys.filter fun z => !m.prunePair y z t₂)) (lo v₄) (lo v) lines →
        Finds rows lo ops (HeadWanted m rank rows P y ys) w
          (own.flatMap ops ++ lines.flatMap ops) v := by
      intro v lines hv hlines
      refine ⟨own ++ lines, by simp, ?_⟩
      exact answers_head hm hlater hyP hlo₂ (hm.mono _ _ (hv₄.trans hv)) hhi₄ (hm.mono _ _ hv)
        hown hlines
    cases next with
    | nil =>
      have hnone := List.forall₂_nil_right_iff.mp hnext.lists
      refine Task.Spec.pure fun v hv => ?_
      have hempty := hcombine v [] hv (Lists.nil fun X hX => by
        rw [hnone] at hX
        exact not_wanted_nil hX)
      simpa using hempty
    | cons e next =>
      refine (hdescend v₄ _ (e :: next) (hw₃.trans hv₄) (by simp) (List.length_filter_le _ _)
        hnext).above.mono le_rfl ?_
      rintro _ v _ ⟨hv, lines, rfl, hlines⟩
      exact hcombine v lines hv hlines

/-- A region is searched in two parts: with its first item, and without it. -/
theorem answers_cons (hy : y ∉ P) (hsorted : (y :: ys).Pairwise fun y z => rank y < rank z)
    {head tail : List Line} (hhead : Answers rows (HeadWanted m rank rows P y ys) t t' head)
    (htail : Answers rows (m.Wanted rank rows P ys) t t' tail) :
    Answers rows (m.Wanted rank rows P (y :: ys)) t t' (head ++ tail) := by
  have hnot : ∀ t X, m.Wanted rank rows P ys t X → y ∉ X := by
    intro t X hX hyX
    rcases hX.within y hyX with hyP | hyys
    · exact hy hyP
    · exact ((List.pairwise_cons.mp hsorted).1 y hyys).ne rfl
  refine (hhead.append htail ?_).mono ?_ ?_
  · rintro b c ⟨-, -, hb, -⟩ ⟨-, -, hc⟩ heq
    exact hnot t _ hc (heq ▸ hb)
  · intro X hX
    by_cases hyX : y ∈ X
    · exact Or.inl ⟨hyX, hX⟩
    · exact Or.inr ((wanted_cons_of_notMem hyX).mp hX)
  · rintro l - (⟨hnodup, hu, -, hl⟩ | ⟨hnodup, hu, hl⟩)
    · exact ⟨hnodup, hu, hl⟩
    · exact ⟨hnodup, hu, (wanted_cons_of_notMem (hnot t _ hl)).mpr hl⟩

/-- The loop finds the whole region. -/
theorem searchLoop_spec (h : FilteredRows rank rows) (hm : m.Lawful E lo ops)
    (hE : Task.Allows E w) {descend : List ULEntry → List Extension → Task Unit} {n : ℕ}
    (hdescend : ∀ P y zs next v, w ≤ v → next ≠ [] → zs.length ≤ n →
      AreExtensions rank rows v (insert y P) zs next →
      Task.Spec E (descend (entriesOf rank rows (insert y P) y) next) v fun out v' _ =>
        Finds rows lo ops (m.Wanted rank rows (insert y P) zs) v out v')
    {prefixBody : List ULEntry} (hpre : IsPrefixBody rank rows P prefixBody)
    {exts : List Extension} (hexts : AreExtensions rank rows w P ys exts)
    (hlen : ys.length ≤ n + 1) :
    Task.Spec E (m.searchLoop descend prefixBody exts) w fun out v _ =>
      Finds rows lo ops (m.Wanted rank rows P ys) w out v := by
  induction exts generalizing ys w with
  | nil =>
    obtain rfl : ys = [] := List.forall₂_nil_right_iff.mp hexts.lists
    exact Task.Spec.pure fun v _ => ⟨[], rfl, Lists.nil fun X => not_wanted_nil⟩
  | cons e exts ih =>
    obtain ⟨y, ys, -, -, rfl⟩ := List.forall₂_cons_right_iff.mp hexts.lists
    rw [List.length_cons] at hlen
    unfold searchLoop
    refine Task.Spec.bind (visit_spec h hm hE hpre hexts fun v zs next hv hne hzs =>
      hdescend P y zs next v hv hne (by omega)) ?_
    rintro _ v _ hv ⟨head, rfl, hhead⟩
    refine (ih (hE.mono hv) (fun P y zs next v' hv' => hdescend P y zs next v' (hv.trans hv'))
      (hexts.tail.mono hv) (by omega)).above.mono le_rfl ?_
    rintro _ v' _ ⟨hv', tail, rfl, htail⟩
    refine ⟨head ++ tail, by simp, answers_cons (hexts.fresh y List.mem_cons_self) hexts.sorted
      (Answers.mono hhead hm.headWanted_mono le_rfl (hm.mono _ _ hv')) ?_⟩
    exact Answers.mono htail (fun _ _ _ => hm.wanted_mono) (hm.mono _ _ hv) le_rfl

/-- The search finds the whole region; its fuel is the number of extensions. -/
theorem search_spec (h : FilteredRows rank rows) (hm : m.Lawful E lo ops) (fuel : ℕ)
    (hE : Task.Allows E w) {prefixBody : List ULEntry}
    (hpre : IsPrefixBody rank rows P prefixBody) {exts : List Extension}
    (hexts : AreExtensions rank rows w P ys exts) (hlen : ys.length ≤ fuel) (hne : exts ≠ []) :
    Task.Spec E (m.search fuel prefixBody exts) w fun out v _ =>
      Finds rows lo ops (m.Wanted rank rows P ys) w out v := by
  induction fuel generalizing P ys w prefixBody exts with
  | zero =>
    have hnil : ys = [] := List.length_eq_zero_iff.mp (Nat.le_zero.mp hlen)
    have := hexts.lists.length_eq
    rw [hnil] at this
    exact (hne (List.length_eq_zero_iff.mp this.symm)).elim
  | succ fuel ih =>
    refine searchLoop_spec h hm hE ?_ hpre hexts hlen
    intro P y zs next v hv hne hzs hnext
    refine ih (hE.mono hv) (Or.inr ⟨?_, y, rfl⟩) hnext hzs hne
    exact Finset.insert_ne_empty y P

/-! ## The tasks -/

/-- The in-memory list of the single item `y`. -/
structure IsItemList (rank : ItemId → Utility ×ₗ ItemId) (rows : List FilteredTransaction)
    (y : ItemId) (e : ItemList) : Prop where
  item : e.1 = y
  itemset : e.2.1.itemset = [y]
  body : e.2.2 = entriesOf rank rows {y} y
  sumIutils : e.2.1.sumIutils = (e.2.2.map ULEntry.iutils).sum
  sumRutils : e.2.1.sumRutils = (e.2.2.map ULEntry.rutils).sum
  len : e.2.1.len = e.2.2.length

/-- The list as the search sees it. -/
def toExtension (e : ItemList) : Extension := (e.2.1, .inMemory e.2.2)

theorem IsItemList.isUlOf {e : ItemList} (h : IsItemList rank rows y e) :
    IsUlOf rank rows w (insert y ∅) y (toExtension e).1 (toExtension e).2 := by
  obtain ⟨-, hitemset, hbody, hi, hr, hlen⟩ := h
  rw [insert_empty_eq]
  refine ⟨?_, ?_, ?_, ?_, ?_, ?_, hbody⟩
  · simp [toExtension, hitemset]
  · simp [toExtension, hitemset]
  · simp [toExtension, hitemset]
  · rw [← hbody]
    exact hi
  · rw [← hbody]
    exact hr
  · rw [← hbody]
    exact hlen

theorem areExtensions_items {items : List ItemList}
    (h : List.Forall₂ (IsItemList rank rows) ys items)
    (hsorted : ys.Pairwise fun y z => rank y < rank z) :
    AreExtensions rank rows w ∅ ys (items.map toExtension) where
  lists := List.forall₂_map_right_iff.mpr (h.imp fun _ _ he => he.isUlOf)
  sorted := hsorted
  fresh y _ := Finset.notMem_empty y

/-- Joining with the items to the right is what the search does one level down. -/
theorem firstExtensions_eq {itemX : ItemId} {ulX : UtilityList} (hulX : ulX.itemset = [itemX])
    (bodyX : List ULEntry) {items : List ItemList}
    (h : List.Forall₂ (IsItemList rank rows) ys items) :
    m.firstExtensions itemX bodyX t items =
      m.nextExtensions [] ulX bodyX itemX t (items.map toExtension) := by
  induction h with
  | nil => rfl
  | @cons y e ys items he _ ih =>
    obtain ⟨itemY, ulY, bodyY⟩ := e
    have hlast : ulY.itemset.getLast? = some itemY := by
      rw [he.itemset, ← he.item]
      rfl
    simp only [List.map_cons, toExtension, firstExtensions, nextExtensions, hlast, hulX]
    rw [ih]
    rfl

theorem itemTask_eq (descend : List ULEntry → List Extension → Task Unit) {e : ItemList}
    (he : IsItemList rank rows y e) {later : List ItemList}
    (h : List.Forall₂ (IsItemList rank rows) ys later) :
    m.itemTask descend e later =
      m.visit descend [] e.2.1 (.inMemory e.2.2) (later.map toExtension) := by
  obtain ⟨itemX, ulX, bodyX⟩ := e
  have hulX : ulX.itemset = [itemX] := by
    rw [he.itemset, ← he.item]
  have hlast : ulX.itemset.getLast? = some itemX := by
    rw [hulX]
    rfl
  have hbody : getBody (.inMemory bodyX) = pure bodyX := rfl
  simp only [itemTask, visit, firstExtensions_eq hulX bodyX h, hbody, hulX]
  rfl

/-- What each task has to find. -/
def taskGoals (m : UlMiner) (rank : ItemId → Utility ×ₗ ItemId) (rows : List FilteredTransaction)
    (lo : World → Utility) (ops : Line → List MinerOp) (w : World) :
    List ItemId → List (List MinerOp → World → Unit → Prop)
  | [] => []
  | y :: ys => (fun out v _ => Finds rows lo ops (HeadWanted m rank rows ∅ y ys) w out v) ::
      taskGoals m rank rows lo ops w ys

theorem itemTasks_spec (h : FilteredRows rank rows) (hm : m.Lawful E lo ops)
    (hE : Task.Allows E w) {items : List ItemList}
    (hitems : List.Forall₂ (IsItemList rank rows) ys items)
    (hsorted : ys.Pairwise fun y z => rank y < rank z) :
    List.Forall₂ (fun task goal => Task.Spec E task w goal) (m.itemTasks items)
      (taskGoals m rank rows lo ops w ys) := by
  induction hitems with
  | nil => exact List.Forall₂.nil
  | @cons y e ys items he hitems ih =>
    refine List.Forall₂.cons ?_ (ih hsorted.of_cons)
    rw [itemTask_eq _ he hitems]
    refine visit_spec h hm hE (Or.inl ⟨rfl, rfl⟩)
      (areExtensions_items (List.Forall₂.cons he hitems) hsorted) ?_
    intro v zs next hv hne hzs hnext
    have hlen : zs.length ≤ next.length := hnext.lists.length_eq.le
    have hbody : e.2.2 = entriesOf rank rows (insert y ∅) y := by
      rw [insert_empty_eq]
      exact he.body
    rw [← hbody]
    refine search_spec h hm _ (hE.mono hv) (Or.inr ⟨?_, y, hbody⟩) hnext hlen hne
    exact Finset.insert_ne_empty y ∅

theorem finds_tasks {v : World} {outs : List (List MinerOp)}
    (hsorted : ys.Pairwise fun y z => rank y < rank z)
    (h : List.Forall₂ (fun out goal => goal out v ()) outs (taskGoals m rank rows lo ops w ys)) :
    ∃ lines, outs.flatten = lines.flatMap ops ∧
      Answers rows (m.Wanted rank rows ∅ ys) (lo w) (lo v) lines := by
  induction ys generalizing outs with
  | nil =>
    obtain rfl : outs = [] := List.forall₂_nil_right_iff.mp h
    exact ⟨[], rfl, Lists.nil fun X => not_wanted_nil⟩
  | cons y ys ih =>
    obtain ⟨out, outs, ⟨head, rfl, hhead⟩, houts, rfl⟩ := List.forall₂_cons_right_iff.mp h
    obtain ⟨tail, htail_eq, htail⟩ := ih hsorted.of_cons houts
    exact ⟨head ++ tail, by simp [htail_eq], answers_cons
      (Finset.notMem_empty y) hsorted hhead htail⟩

/-- With a pair test that spares what is worth the threshold, what is wanted is
what a miner has to report, as far as it lies within the items searched. -/
theorem wanted_iff_highUtility
    (hpairs : Occurs (rows.map FilteredTransaction.basket) X →
      t ≤ utility (rows.map FilteredTransaction.basket) X →
      ∀ x ∈ X, ∀ y ∈ X, x ≠ y → m.prunePair x y t = false) :
    m.Wanted rank rows ∅ ys t X ↔
      HighUtility (rows.map FilteredTransaction.basket) t X ∧ ∀ x ∈ X, x ∈ ys := by
  constructor
  · intro h
    refine ⟨⟨Finset.nonempty_iff_ne_empty.mpr h.ne, h.occurs, h.le⟩, fun x hx => ?_⟩
    exact (h.within x hx).resolve_left (Finset.notMem_empty x)
  · rintro ⟨⟨hne, hocc, hle⟩, hys⟩
    refine ⟨Finset.empty_subset X, fun x hx => Or.inr (hys x hx), hne.ne_empty, hocc, hle, ?_⟩
    intro x hx _ y hy _ hlt
    exact hpairs hocc hle x hx y hy fun heq => hlt.ne (congrArg rank heq)

/-- A run of the tasks under any schedule: unless it ends in an allowed fault,
what it reports answers the search over all items. -/
theorem executeTasks_itemTasks (h : FilteredRows rank rows) (hm : m.Lawful E lo ops)
    (ctx : MiningContext) (hE : Task.Allows E { w with lines := [] }) {items : List ItemList}
    (hitems : List.Forall₂ (IsItemList rank rows) ys items)
    (hsorted : ys.Pairwise fun y z => rank y < rank z) :
    (∃ e, E e ∧ executeTasks ctx w (m.itemTasks items) = .error e) ∨
      ∃ log lines, executeTasks ctx w (m.itemTasks items) =
          .ok (Prog.replay world log { w with lines := [] }) ∧
        (outputs log).Perm (lines.flatMap ops) ∧
        Answers rows (m.Wanted rank rows ∅ ys) (lo { w with lines := [] })
          (lo (Prog.replay world log { w with lines := [] })) lines := by
  rcases executeTasks_spec ctx w (itemTasks_spec h hm hE hitems hsorted) with
    hfault | ⟨log, outs, hrun, hperm, houts⟩
  · exact Or.inl hfault
  · obtain ⟨lines, hlines, hanswers⟩ := finds_tasks hsorted houts
    exact Or.inr ⟨log, lines, hrun, hlines ▸ hperm, hanswers⟩

/-- The same for a miner with a fixed threshold that writes as it goes. -/
theorem executeTasks_writing (h : FilteredRows rank rows) (hm : m.Lawful E (fun _ => t) writeOps)
    (ctx : MiningContext) (hE : Task.Allows E w) {items : List ItemList}
    (hitems : List.Forall₂ (IsItemList rank rows) ys items)
    (hsorted : ys.Pairwise fun y z => rank y < rank z) :
    (∃ e, E e ∧ executeTasks ctx w (m.itemTasks items) = .error e) ∨
      ∃ w' lines, executeTasks ctx w (m.itemTasks items) = .ok w' ∧ w'.lines.Perm lines ∧
        w'.huisFound = w.huisFound + lines.length ∧
        Answers rows (m.Wanted rank rows ∅ ys) t t lines := by
  rcases executeTasks_itemTasks h hm ctx hE hitems hsorted with
    hfault | ⟨log, lines, hrun, hperm, hanswers⟩
  · exact Or.inl hfault
  · obtain ⟨hlines, hcount⟩ := replay_writeOps hperm w
    exact Or.inr ⟨_, lines, hrun, hlines, hcount, hanswers⟩

/-! ## What holds without any assumption on the data -/

section Counts

variable (hcurrent : m.current.Counts) (hreport : ∀ X u t, (m.report X u t).Counts)

include hreport in
theorem reportIfHigh_counts (ul : UtilityList) (itemset : List ItemId) (t : Utility) :
    (m.reportIfHigh ul itemset t).Counts :=
  Task.Counts.ite (hreport _ _ _) (Task.Counts.pure _)

theorem nextExtensions_counts (prefixBody : List ULEntry) (ulPx : UtilityList)
    (bodyPx : List ULEntry) (itemX : ItemId) (t : Utility) (exts : List Extension) :
    (m.nextExtensions prefixBody ulPx bodyPx itemX t exts).Counts := by
  induction exts with
  | nil => exact Task.Counts.pure _
  | cons e exts ih =>
    unfold nextExtensions
    cases e.1.itemset.getLast? with
    | none => exact Task.Counts.throw _
    | some itemY =>
      apply Task.Counts.ite ih
      apply Task.Counts.bind (getBody_counts e.2)
      intro entriesPy
      apply Task.Counts.bind (joinUtilityLists_counts _ _ _ _)
      intro new
      exact Task.Counts.bind ih fun _ => Task.Counts.pure _

theorem firstExtensions_counts (itemX : ItemId) (bodyX : List ULEntry) (t : Utility)
    (items : List ItemList) : (m.firstExtensions itemX bodyX t items).Counts := by
  induction items with
  | nil => exact Task.Counts.pure _
  | cons e items ih =>
    unfold firstExtensions
    apply Task.Counts.ite ih
    apply Task.Counts.bind (joinUtilityLists_counts _ _ _ _)
    intro new
    exact Task.Counts.bind ih fun _ => Task.Counts.pure _

include hcurrent hreport

theorem visit_counts {descend : List ULEntry → List Extension → Task Unit}
    (hdescend : ∀ body exts, (descend body exts).Counts) (prefixBody : List ULEntry)
    (ulPx : UtilityList) (bodyPx : UlBody) (later : List Extension) :
    (m.visit descend prefixBody ulPx bodyPx later).Counts := by
  apply Task.Counts.bind hcurrent
  intro t
  apply Task.Counts.ite (Task.Counts.pure _)
  apply Task.Counts.bind (getBody_counts bodyPx)
  intro entriesPx
  cases ulPx.itemset.getLast? with
  | none => exact Task.Counts.throw _
  | some itemX =>
    apply Task.Counts.bind (reportIfHigh_counts hreport _ _ _)
    intro t'
    apply Task.Counts.bind (nextExtensions_counts _ _ _ _ _ _)
    intro next
    exact Task.Counts.ite (Task.Counts.pure _) (hdescend _ _)

theorem search_counts (fuel : ℕ) (prefixBody : List ULEntry) (exts : List Extension) :
    (m.search fuel prefixBody exts).Counts := by
  induction fuel generalizing prefixBody exts with
  | zero => exact Task.Counts.throw _
  | succ fuel ih =>
    unfold search
    induction exts with
    | nil => exact Task.Counts.pure _
    | cons e exts ihexts =>
      apply Task.Counts.bind (visit_counts hcurrent hreport ih _ _ _ _)
      exact fun _ => ihexts

theorem itemTasks_counts (items : List ItemList) :
    ∀ task ∈ m.itemTasks items, task.Counts := by
  induction items with
  | nil => exact fun _ h => (List.not_mem_nil h).elim
  | cons e items ih =>
    intro task htask
    rcases List.mem_cons.mp htask with rfl | htask
    · apply Task.Counts.bind hcurrent
      intro t
      apply Task.Counts.ite (Task.Counts.pure _)
      apply Task.Counts.bind (reportIfHigh_counts hreport _ _ _)
      intro t'
      apply Task.Counts.bind (firstExtensions_counts _ _ _ _)
      intro exts
      exact Task.Counts.ite (Task.Counts.pure _) (search_counts hcurrent hreport _ _ _)
    · exact ih task htask

end Counts

/-- What a search over all items of the filtered database has listed is exact, if
the pair test spares what is worth the threshold. -/
theorem exactOutput_of_answers {db : List SpmfRow} (hwf : ∀ row ∈ db, row.WellFormed)
    (hrows : rows = filteredDb (TwuFilter.compute t (numbered 0 db)) (numbered 0 db))
    (hys : ∀ y, Occurs (rows.map FilteredTransaction.basket) {y} → y ∈ ys)
    (hpairs : ∀ X, Occurs (rows.map FilteredTransaction.basket) X →
      t ≤ utility (rows.map FilteredTransaction.basket) X →
      ∀ x ∈ X, ∀ y ∈ X, x ≠ y → m.prunePair x y t = false) {lines : List Line}
    (h : Answers rows (m.Wanted rank rows ∅ ys) t t lines) : ExactOutput db t lines := by
  have hwanted : ∀ X, m.Wanted rank rows ∅ ys t X ↔
      HighUtility (rows.map FilteredTransaction.basket) t X := by
    intro X
    rw [wanted_iff_highUtility (hpairs X), and_iff_left_of_imp]
    intro hX x hx
    exact hys x (hX.occurs.mono (Finset.singleton_subset_iff.mpr hx))
  apply exactOutput_filteredDb hwf hrows
  apply Lists.mono h
  · exact fun X => (hwanted X).mpr
  · intro l _ hl
    exact ⟨hl.1, hl.2.1, (hwanted _).mp hl.2.2⟩

end UlMiner

end AirHuim
