import AirHuim.Mining.Algorithms.EfimProjection

/-!
# The search over projections

EFIM and EFIM-Closed differ in what they write of an itemset they reach. For any
way of writing, every itemset is reached along its items in rank order, and along
no other path; nothing on the way to a high-utility one is pruned.
-/

namespace AirHuim

open Library Basket

namespace Efim

/-- What a miner does with an itemset that it reaches: its items, its projection,
its utility. -/
abbrev Writer := List ItemId → List ProjTx → Utility → Task Unit

/-- What the task of an item and the loop over extensions both do with a new
itemset: write it, keep its projection, search below it, release the budget. -/
def exploreWith (write : Writer) (descend : List ItemId → EfimProj → Task Unit)
    (itemset : List ItemId) (proj : List ProjTx) (util : Utility) : Task Unit := do
  write itemset proj util
  let kept ← keep proj
  descendInto (descend itemset) (proj.length * projEntrySize) kept

def visitWith (write : Writer) (env : Env) (descend : List ItemId → EfimProj → Task Unit)
    (itemset : List ItemId) (proj : List ProjTx) (lu : Table ItemId Utility) (item : ItemId) :
    Task Unit :=
  if (lu.lookup item).getD 0 < env.minUtil then return ()
  else
    let (newProj, itemUtil) := project env.db proj item
    if newProj = [] then return ()
    else exploreWith write descend (itemset ++ [item]) newProj itemUtil

def visitAllWith (write : Writer) (env : Env) (descend : List ItemId → EfimProj → Task Unit)
    (itemset : List ItemId) (proj : List ProjTx) (lu : Table ItemId Utility) :
    List ItemId → Task Unit
  | [] => return ()
  | item :: rest => do
      visitWith write env descend itemset proj lu item
      visitAllWith write env descend itemset proj lu rest

/-- One level of the search, once the projection is in memory. -/
def mineSliceWith (write : Writer) (env : Env) (descend : List ItemId → EfimProj → Task Unit)
    (itemset : List ItemId) : Option (List ProjTx) → Task Unit
  | none | some [] => return ()
  | some (first :: rest) =>
      let maps := bounds env.db (first :: rest)
      visitAllWith write env descend itemset (first :: rest) maps.1
        (validExtensions env itemset first maps.2)

def mineWith (write : Writer) (env : Env) : ℕ → List ItemId → EfimProj → Task Unit
  | 0, _, _ => throw .stuck
  | fuel + 1, itemset, proj => do
      let projSlice ← resolve proj
      mineSliceWith write env (mineWith write env fuel) itemset projSlice

def itemTaskWith (write : Writer) (env : Env) (fuel : ℕ) (item : ItemId) : Task Unit :=
  let (proj, itemUtil) := initialProj env.db item
  exploreWith write (mineWith write env fuel) [item] proj itemUtil

/-- A run with its two passes: the count it returns and the world it leaves. -/
def runWith (write : Env → Writer) (order : HashOrder) (source : DataSource) (ctx : MiningContext) :
    Except Fault (ℕ × World) := do
  let txs := okOnly (← readDb source)
  let r := TwuFilter.compute ctx.minUtility txs
  let db := (filteredDb r txs).map (loadTx r)
  let dbSizeBytes := (db.map fun tx => tx.items.length * (4 + 8 + 8)).sum
  let tasks := primaryItems order r
  let env : Env := ⟨db, ctx.minUtility, order⟩
  let w ← executeTasks ctx { ctx.world with guard := ctx.world.guard.forceAlloc dbSizeBytes }
    (tasks.map (itemTaskWith (write env) env (tasks.length + 1)))
  return (w.huisFound, { w with guard := w.guard.free dbSizeBytes })

/-- Hash maps that yield their keys in the order in which they store them. -/
def HashOrder.stored : HashOrder := ⟨fun _ keys => keys, fun _ _ => List.Perm.refl _⟩

/-! ## The search -/

section Search

variable {rank : ItemId → Utility ×ₗ ItemId} {rows : List FilteredTransaction}
  {B : List (Basket ItemId)} {minUtil : Utility} {P X : Finset ItemId} {y : ItemId}
  {es itemset : List ItemId} {env : Env} {w : World} {E : Fault → Prop} {write : Writer}
  {Wanted : Finset ItemId → Prop}

/-- The high-utility itemsets that extend `P`. -/
def Below (rank : ItemId → Utility ×ₗ ItemId) (B : List (Basket ItemId)) (minUtil : Utility)
    (P : Finset ItemId) (X : Finset ItemId) : Prop :=
  ∃ y, After rank P y ∧ Branch rank B minUtil P y X

theorem branch_iff (hrank : Function.Injective rank) (hy : After rank P y) :
    Branch rank B minUtil P y X ↔
      (HighUtility B minUtil X ∧ X = insert y P) ∨ Below rank B minUtil (insert y P) X := by
  constructor
  · intro h
    by_cases hX : X = insert y P
    · exact Or.inl ⟨h.high, hX⟩
    · right
      have hrest : (X \ insert y P).Nonempty := by
        rw [Finset.sdiff_nonempty]
        exact fun hsub => hX (subset_antisymm hsub h.sub)
      obtain ⟨z, hz, hmin⟩ := Finset.exists_min_image _ rank hrest
      obtain ⟨hzX, hzy⟩ := Finset.mem_sdiff.mp hz
      refine ⟨z, (after_insert hy).mpr (h.later z hzX hzy),
        Finset.insert_subset hzX h.sub, fun x hx hxz => ?_, h.high⟩
      obtain ⟨hne, hxy⟩ := not_or.mp (fun hmem => hxz (Finset.mem_insert.mpr hmem))
      exact (hmin x (Finset.mem_sdiff.mpr ⟨hx, hxy⟩)).lt_of_ne fun heq => hne (hrank heq.symm)
  · rintro (⟨hX, rfl⟩ | ⟨z, hz, h⟩)
    · exact ⟨subset_rfl, fun x hx hxy => (hxy hx).elim, hX⟩
    · refine ⟨(Finset.subset_insert z _).trans h.sub, fun x hx hxy => ?_, h.high⟩
      have hyz := (after_insert hy).mp hz
      by_cases hxz : x = z
      · rwa [hxz]
      · exact hyz.trans (h.later x hx (by simp [hxz, hxy]))

/-- A high-utility itemset is in the branch of its first item. -/
theorem exists_branch (hrank : Function.Injective rank) (hX : HighUtility B minUtil X) :
    ∃ y, Occurs B {y} ∧ Branch rank B minUtil ∅ y X := by
  obtain ⟨y, hy, hmin⟩ := Finset.exists_min_image X rank hX.nonempty
  have hsub : {y} ⊆ X := Finset.singleton_subset_iff.mpr hy
  refine ⟨y, hX.occurs.mono hsub, hsub, fun x hx hxy => ?_, hX⟩
  refine (hmin x hx).lt_of_ne fun heq => hxy ?_
  rw [hrank heq]
  exact Finset.mem_insert_self x ∅

/-- An itemset is in one branch only. -/
theorem Branch.unique {z : ItemId} (hy : After rank P y) (hz : After rank P z)
    (h : Branch rank B minUtil P y X) (h' : Branch rank B minUtil P z X) : y = z := by
  by_contra hne
  have hyz := h.later z (h'.sub (Finset.mem_insert_self z P))
    (by simp [Ne.symm hne, hz.notMem])
  have hzy := h'.later y (h.sub (Finset.mem_insert_self y P)) (by simp [hne, hy.notMem])
  exact lt_asymm hyz hzy

def EfimProj.Holds (w : World) (proj : List ProjTx) : EfimProj → Prop
  | .inMemory p => p = proj
  | .onDisk id count => w.pool.Holds id (proj.flatMap ProjTx.toBytes) ∧ count = proj.length

theorem EfimProj.Holds.mono {w' : World} (hw : w ≤ w') {proj : List ProjTx} {p : EfimProj}
    (h : p.Holds w proj) : p.Holds w' proj := by
  cases p with
  | inMemory p => exact h
  | onDisk id count => exact ⟨PagePool.Holds.mono hw h.1, h.2⟩

theorem keep_spec (hpool : Task.Allows (fun _ => False) w) (proj : List ProjTx) :
    Task.Spec E (keep proj) w fun out v kept =>
      out = [] ∧ ∃ p, kept = some p ∧ p.Holds v proj := by
  unfold keep
  refine Task.Spec.bind_silent (Task.tryAlloc_spec _) ?_
  rintro v admitted hv -
  cases admitted with
  | true => exact Task.Spec.pure fun _ _ => ⟨rfl, _, rfl, rfl⟩
  | false =>
    simp only [Bool.false_eq_true, if_false]
    refine Task.Spec.okOr ?_
    have hspill : Task.Spec (fun _ => False) (EfimProj.spill proj) v fun out v' p =>
        out = [] ∧ p.Holds v' proj := by
      refine Task.Spec.bind_silent (Task.newPage_spec (hpool.mono hv) _) ?_
      intro v' id _ hid
      exact Task.Spec.pure fun v'' hv'' => ⟨rfl, PagePool.Holds.mono hv'' hid, rfl⟩
    refine Task.Spec.bind_silent hspill ?_
    intro v' p _ hp
    exact Task.Spec.pure fun v'' hv'' => ⟨rfl, p, rfl, hp.mono hv''⟩

/-- A projection as it is, or as it is read back from a page. -/
def ReadBack (proj slice : List ProjTx) : Prop :=
  slice = proj ∨ slice = proj.map fun p => ProjTx.ofBytes p.toBytes

theorem resolve_reads (hpool : Task.Allows (fun _ => False) w) {proj : List ProjTx}
    {p : EfimProj} (hp : p.Holds w proj) :
    Task.Spec E (resolve p) w fun out _ slice =>
      out = [] ∧ ∃ read, slice = some read ∧ ReadBack proj read := by
  cases p with
  | inMemory p => exact Task.Spec.pure fun _ _ => ⟨rfl, p, rfl, Or.inl hp⟩
  | onDisk id count =>
    obtain ⟨hid, rfl⟩ := hp
    have hload : Task.Spec (fun _ => False) (EfimProj.load id proj.length) w
        fun out _ loaded => out = [] ∧ ReadBack proj loaded := by
      refine Task.Spec.bind_silent (Task.pin_spec hpool hid) ?_
      rintro v _ _ rfl
      exact Task.Spec.pure fun _ _ => ⟨rfl, Or.inr (load_bytes_eq proj)⟩
    refine Task.Spec.okOr (Task.Spec.bind_silent hload ?_)
    intro v read _ hread
    exact Task.Spec.pure fun _ _ => ⟨rfl, read, rfl, hread⟩

/-- A projection whose entries survive the page is resolved as it was. -/
theorem resolve_of_holds (hpool : Task.Allows (fun _ => False) w) {proj : List ProjTx}
    (hfits : ∀ p ∈ proj, ProjTx.ofBytes p.toBytes = p) {p : EfimProj} (hp : p.Holds w proj) :
    Task.Spec E (resolve p) w fun out _ slice => out = [] ∧ slice = some proj := by
  have hback : (proj.map fun p => ProjTx.ofBytes p.toBytes) = proj :=
    (List.map_congr_left hfits).trans (List.map_id proj)
  refine (resolve_reads hpool hp).mono le_rfl ?_
  rintro out _ slice ⟨hout, read, rfl, rfl | rfl⟩
  · exact ⟨hout, rfl⟩
  · exact ⟨hout, congrArg some hback⟩

theorem resolve_spec (h : FilteredRows rank rows) (hshort : Short rows)
    (hpool : Task.Allows (fun _ => False) w) {p : EfimProj} (hp : p.Holds w (projOf rank rows P)) :
    Task.Spec E (resolve p) w fun out _ slice => out = [] ∧ slice = some (projOf rank rows P) :=
  resolve_of_holds hpool (ofBytes_toBytes_projOf h hshort P) hp

/-- The writer writes an itemset it is given if and only if it is wanted. -/
def Writes (rank : ItemId → Utility ×ₗ ItemId) (rows : List FilteredTransaction)
    (E : Fault → Prop) (minUtil : Utility) (Wanted : Finset ItemId → Prop)
    (write : Writer) : Prop :=
  ∀ itemset P w, itemset.Nodup → itemset.toFinset = P → P.Nonempty →
    Occurs (rows.map FilteredTransaction.basket) P →
    Task.Spec E (write itemset (projOf rank rows P)
      (utility (rows.map FilteredTransaction.basket) P)) w fun out _ _ =>
        Covers (rows.map FilteredTransaction.basket) (fun X =>
          (HighUtility (rows.map FilteredTransaction.basket) minUtil X ∧ Wanted X) ∧ X = P) out

/-- The requirement on the search below `P`. -/
def SearchesFor (rank : ItemId → Utility ×ₗ ItemId) (rows : List FilteredTransaction)
    (E : Fault → Prop) (minUtil : Utility) (Wanted : Finset ItemId → Prop) (w : World)
    (descend : List ItemId → EfimProj → Task Unit) (P : Finset ItemId) : Prop :=
  ∀ itemset proj v, w ≤ v → itemset.Nodup → itemset.toFinset = P →
    proj.Holds v (projOf rank rows P) → Task.Spec E (descend itemset proj) v fun out _ _ =>
      Covers (rows.map FilteredTransaction.basket) (fun X =>
        Below rank (rows.map FilteredTransaction.basket) minUtil P X ∧ Wanted X) out

/-- A new itemset is written, and what lies below it. -/
theorem exploreWith_spec (hwrite : Writes rank rows E minUtil Wanted write)
    (hrank : Function.Injective rank) (hpool : Task.Allows (fun _ => False) w)
    {descend : List ItemId → EfimProj → Task Unit}
    (hy : After rank P y) (hocc : Occurs (rows.map FilteredTransaction.basket) (insert y P))
    (hdescend : SearchesFor rank rows E minUtil Wanted w descend (insert y P))
    (hnodup : itemset.Nodup) (hitemset : itemset.toFinset = insert y P) :
    Task.Spec E (exploreWith write descend itemset (projOf rank rows (insert y P))
      (utility (rows.map FilteredTransaction.basket) (insert y P))) w fun out _ _ =>
        Covers (rows.map FilteredTransaction.basket) (fun X =>
          Branch rank (rows.map FilteredTransaction.basket) minUtil P y X ∧ Wanted X) out := by
  unfold exploreWith
  apply Task.Spec.bind (hwrite itemset _ w hnodup hitemset (Finset.insert_nonempty y P) hocc)
  intro out v _ hv hout
  apply Task.Spec.bind (keep_spec (hpool.mono hv) _)
  rintro _ v₁ _ hv₁ ⟨rfl, p, rfl, hp⟩
  unfold descendInto
  apply Task.Spec.bind (hdescend itemset p v₁ (hv.trans hv₁) hnodup hitemset hp)
  intro out' v₂ _ hv₂ hout'
  apply (Task.free_spec _).mono le_rfl
  rintro _ _ _ ⟨rfl, -⟩
  rw [List.nil_append, List.append_nil]
  have hdisj : ∀ X, (HighUtility (rows.map FilteredTransaction.basket) minUtil X ∧ Wanted X) ∧
      X = insert y P → ¬ (Below rank (rows.map FilteredTransaction.basket) minUtil (insert y P) X ∧
        Wanted X) := by
    rintro X ⟨-, rfl⟩ ⟨⟨z, hz, hX⟩, -⟩
    exact hz.notMem (hX.sub (Finset.mem_insert_self z _))
  apply (hout.append hout' hdisj).congr
  intro X
  rw [branch_iff hrank hy]
  tauto

/-- The loop over the extensions covers their branches: one that `lu` prunes is
empty, and so is one whose projection is. -/
theorem visitAllWith_spec (hwrite : Writes rank rows E env.minUtil Wanted write)
    (h : FilteredRows rank rows) (hrank : Function.Injective rank)
    (hshort : Short rows) (hdb : env.db = rows.map original)
    (hpool : Task.Allows (fun _ => False) w) {descend : List ItemId → EfimProj → Task Unit}
    (hdescend : ∀ y, After rank P y →
      Occurs (rows.map FilteredTransaction.basket) (insert y P) →
      SearchesFor rank rows E env.minUtil Wanted w descend (insert y P))
    (hnodup : itemset.Nodup) (hitemset : itemset.toFinset = P) (hes : es.Nodup)
    (hafter : ∀ y ∈ es, After rank P y) :
    Task.Spec E (visitAllWith write env descend itemset (projOf rank rows P)
      (bounds env.db (projOf rank rows P)).1 es) w fun out _ _ =>
        Covers (rows.map FilteredTransaction.basket) (fun X => (∃ y ∈ es,
          Branch rank (rows.map FilteredTransaction.basket) env.minUtil P y X) ∧ Wanted X) out := by
  induction es generalizing w with
  | nil => exact Task.Spec.pure fun _ _ => Covers.nil (by simp)
  | cons y es ih =>
    have hy : After rank P y := hafter y List.mem_cons_self
    obtain ⟨hnodup', hitemset'⟩ := append_item hnodup hitemset hy.notMem
    have hvisit : Task.Spec E (visitWith write env descend itemset (projOf rank rows P)
        (bounds env.db (projOf rank rows P)).1 y) w fun out _ _ =>
          Covers (rows.map FilteredTransaction.basket) (fun X =>
            Branch rank (rows.map FilteredTransaction.basket) env.minUtil P y X ∧
              Wanted X) out := by
      rw [hdb]
      unfold visitWith
      split_ifs with hlu
      · exact Task.Spec.pure fun _ _ => Covers.nil fun X hX =>
          hlu.not_ge (hX.1.bounds h hy).2.1
      · rw [hdb, project_spec h hshort hy]
        have hempty := projOf_ne_nil_iff rank rows (insert y P)
        simp only
        split_ifs with hnil
        · apply Task.Spec.pure
          intro _ _
          apply Covers.nil
          intro X hX
          exact hempty.mpr (hX.1.high.occurs.mono hX.1.sub) hnil
        · have hocc := hempty.mp hnil
          exact exploreWith_spec hwrite hrank hpool hy hocc (hdescend y hy hocc) hnodup' hitemset'
    unfold visitAllWith
    apply Task.Spec.bind hvisit
    intro out v _ hv hout
    apply (ih (hpool.mono hv)
      (fun z hz hocc itemset proj v' hv' => hdescend z hz hocc itemset proj v' (hv.trans hv'))
      (List.nodup_cons.mp hes).2 fun z hz => hafter z (List.mem_cons_of_mem y hz)).mono le_rfl
    intro out' _ _ hout'
    refine (hout.append hout' ?_).congr fun X => ?_
    · rintro X ⟨hX, -⟩ ⟨⟨z, hz, hX'⟩, -⟩
      have heq := hX.unique hy (hafter z (List.mem_cons_of_mem y hz)) hX'
      exact (List.nodup_cons.mp hes).1 (heq ▸ hz)
    · rw [List.exists_mem_cons_iff, or_and_right]

/-- The valid extensions, in some order, contain the first items of all that
lies below. -/
theorem validExtensions_spec (h : FilteredRows rank rows) (hdb : env.db = rows.map original)
    (itemset : List ItemId) (first : ProjTx) :
    (validExtensions env itemset first (bounds env.db (projOf rank rows P)).2).Nodup ∧
      (∀ y ∈ validExtensions env itemset first (bounds env.db (projOf rank rows P)).2,
        After rank P y) ∧
      ∀ y X, After rank P y →
        Branch rank (rows.map FilteredTransaction.basket) env.minUtil P y X →
        y ∈ validExtensions env itemset first (bounds env.db (projOf rank rows P)).2 := by
  rw [hdb]
  unfold validExtensions
  simp only [mem_sortByKey, List.mem_filter, decide_eq_true_eq]
  refine ⟨?_, fun y hy => ?_, fun y X hy hX => ?_⟩
  · refine (sortByKey_perm _ _).nodup_iff.mpr (List.Nodup.filter _ ?_)
    exact (env.order.perm itemset _).nodup_iff.mpr (AList.keys_nodup _)
  · exact after_of_mem_su h ((env.order.perm itemset _).subset hy.1)
  · obtain ⟨hmem, -, hsu⟩ := hX.bounds h hy
    exact ⟨(env.order.perm itemset _).symm.subset hmem, hsu⟩

/-- The search covers what lies below its itemset. Every level adds an item of the
rows, which bounds the depth. -/
theorem mineWith_spec (hwrite : Writes rank rows E env.minUtil Wanted write)
    (h : FilteredRows rank rows) (hrank : Function.Injective rank)
    (hshort : Short rows) (hdb : env.db = rows.map original)
    (hpool : Task.Allows (fun _ => False) w) {items : Finset ItemId}
    (hitems : ∀ r ∈ rows, r.basket.items ⊆ items) (fuel : ℕ) (hP : P ⊆ items)
    (hfuel : items.card < P.card + fuel) :
    SearchesFor rank rows E env.minUtil Wanted w (mineWith write env fuel) P := by
  induction fuel generalizing P w with
  | zero => exact ((Finset.card_le_card hP).not_gt hfuel).elim
  | succ fuel ih =>
    intro itemset proj v hv hnodup hitemset hproj
    unfold mineWith
    apply Task.Spec.bind_silent (resolve_spec h hshort (hpool.mono hv) hproj)
    rintro v₁ _ hv₁ rfl
    have hbelow := projOf_ne_nil_iff rank rows P
    cases hslice : projOf rank rows P with
    | nil =>
      apply Task.Spec.pure
      intro _ _
      apply Covers.nil
      rintro X ⟨⟨y, -, hX⟩, -⟩
      exact hbelow.mpr (hX.high.occurs.mono ((Finset.subset_insert y P).trans hX.sub)) hslice
    | cons first rest =>
      unfold mineSliceWith
      simp only
      rw [← hslice]
      obtain ⟨hes, hafter, hcomplete⟩ := validExtensions_spec (P := P) h hdb itemset first
      refine (visitAllWith_spec hwrite h hrank hshort hdb (hpool.mono (hv.trans hv₁)) ?_ hnodup
        hitemset hes hafter).mono le_rfl ?_
      · intro y hy hocc
        obtain ⟨r, hr, hsub⟩ := (occurs_map _ _ _).mp hocc
        apply ih (hpool.mono (hv.trans hv₁)) (hsub.trans (hitems r hr))
        rw [Finset.card_insert_of_notMem hy.notMem]
        omega
      · intro out _ _ hout
        apply hout.congr
        intro X
        apply and_congr_left
        intro _
        constructor
        · rintro ⟨y, hy, hX⟩
          exact ⟨y, hcomplete y X hy hX, hX⟩
        · rintro ⟨y, hy, hX⟩
          exact ⟨y, hafter y hy, hX⟩

/-- The task of an item. -/
theorem itemTaskWith_spec (hwrite : Writes rank rows E env.minUtil Wanted write)
    (h : FilteredRows rank rows) (hrank : Function.Injective rank)
    (hshort : Short rows) (hdb : env.db = rows.map original)
    (hpool : Task.Allows (fun _ => False) w) {items : Finset ItemId}
    (hitems : ∀ r ∈ rows, r.basket.items ⊆ items) {fuel : ℕ} (hfuel : items.card < fuel)
    (hocc : Occurs (rows.map FilteredTransaction.basket) {y}) :
    Task.Spec E (itemTaskWith write env fuel y) w fun out _ _ =>
      Covers (rows.map FilteredTransaction.basket) (fun X =>
        Branch rank (rows.map FilteredTransaction.basket) env.minUtil ∅ y X ∧ Wanted X) out := by
  obtain ⟨r, hr, hsub⟩ := (occurs_map _ _ _).mp hocc
  have hsearch : SearchesFor rank rows E env.minUtil Wanted w (mineWith write env fuel) {y} :=
    mineWith_spec hwrite h hrank hshort hdb hpool hitems fuel (hsub.trans (hitems r hr)) (by omega)
  unfold itemTaskWith
  rw [hdb, initialProj_spec h hshort]
  exact exploreWith_spec (P := ∅) hwrite hrank hpool (after_empty y) hocc hsearch
    (List.nodup_singleton y) rfl

end Search

/-! ## The run -/

section Run

variable {db : List SpmfRow} (ctx : MiningContext) (order : HashOrder)

abbrev filterOf (ctx : MiningContext) (db : List SpmfRow) : TwuFilterResult :=
  TwuFilter.compute ctx.minUtility (numbered 0 db)

/-- The rows of the second pass. -/
abbrev rowsOf (ctx : MiningContext) (db : List SpmfRow) : List FilteredTransaction :=
  filteredDb (filterOf ctx db) (numbered 0 db)

/-- Sorting a filtered transaction once more changes nothing. -/
theorem loadTx_eq {r : TwuFilterResult} {rows : List FilteredTransaction}
    (h : FilteredRows r.rank rows) : rows.map (loadTx r) = rows.map original := by
  apply List.map_congr_left
  intro tx htx
  have hsorted : sortByKey (fun e : ItemEntry => (r.twu.lookup e.item).getD 0) tx.items =
      tx.items := by
    refine sortByKey_eq_self _ ((h.sorted tx htx).imp ?_)
    intro a b hab
    rcases Prod.Lex.lt_iff.mp hab with hlt | ⟨heq, -⟩
    · exact hlt.le
    · exact heq.le
  rw [loadTx, hsorted]
  rfl

theorem short_rowsOf (hwf : ∀ row ∈ db, row.WellFormed)
    (hshort : ∀ row ∈ db, row.items.length < 2 ^ 16) : Short (rowsOf ctx db) := by
  intro r hr
  obtain ⟨tx, htx, happly⟩ := List.mem_filterMap.mp hr
  obtain ⟨-, -, row, hrow, hitems, -⟩ := mem_numbered htx
  obtain ⟨-, hperm, -⟩ := apply_some (numbered_wellFormed hwf 0 tx htx) happly
  rw [hperm.length_eq]
  refine (List.length_filter_le _ _).trans_lt ?_
  rw [hitems]
  exact hshort row hrow

theorem mem_primaryItems (r : TwuFilterResult) (x : ItemId) :
    x ∈ primaryItems order r ↔ r.passes x = true := by
  rw [primaryItems, mem_sortByKey, (order.perm [] _).mem_iff, ← AList.mem_keys,
    TwuFilterResult.passes, decide_eq_true_iff]

theorem nodup_primaryItems (r : TwuFilterResult) : (primaryItems order r).Nodup :=
  (sortByKey_perm _ _).nodup_iff.mpr ((order.perm [] _).nodup_iff.mpr (AList.keys_nodup _))

/-- The primary items occur in the rows, and nothing else does. -/
theorem occurs_primaryItems (hwf : ∀ row ∈ db, row.WellFormed) (y : ItemId) :
    y ∈ primaryItems order (filterOf ctx db) ↔
      Occurs ((rowsOf ctx db).map FilteredTransaction.basket) {y} := by
  have hwf := numbered_wellFormed hwf 0
  rw [mem_primaryItems]
  constructor
  · intro hpass
    refine (utility_filteredDb hwf _ (Finset.singleton_nonempty y) fun x hx => ?_).2.mpr
      ((passes_compute hwf _ y).mp hpass).1
    rwa [Finset.mem_singleton.mp hx]
  · intro hocc
    exact passes_of_occurs_filteredDb hwf hocc y (Finset.mem_singleton_self y)

/-- The footprint that the run forces onto the ledger. -/
def footprint (ctx : MiningContext) (db : List SpmfRow) : ℕ :=
  (((rowsOf ctx db).map (loadTx (filterOf ctx db))).map fun tx =>
    tx.items.length * (4 + 8 + 8)).sum

/-- The tasks of a run. -/
def tasksWith (write : Env → Writer) (order : HashOrder) (ctx : MiningContext) (db : List SpmfRow) :
    List (Task Unit) :=
  let env : Env := ⟨(rowsOf ctx db).map (loadTx (filterOf ctx db)), ctx.minUtility, order⟩
  (primaryItems order (filterOf ctx db)).map
    (itemTaskWith (write env) env ((primaryItems order (filterOf ctx db)).length + 1))

theorem runWith_map_ok (write : Env → Writer) (hlen : db.length < 2 ^ 32) :
    runWith write order (db.map .ok) ctx = (executeTasks ctx
      { ctx.world with guard := ctx.world.guard.forceAlloc (footprint ctx db) }
      (tasksWith write order ctx db)).map
      fun w => (w.huisFound, { w with guard := w.guard.free (footprint ctx db) }) := by
  simp only [runWith, readDb_map_ok, if_pos hlen]
  change Except.bind (Except.ok _) _ = _
  simp only [Except.bind, okOnly_map_ok, footprint, tasksWith]
  cases executeTasks ctx _ _ <;> rfl

/-- What a run writes: what is wanted of the high-utility itemsets. -/
theorem runWith_spec {write : Env → Writer} {Wanted : Finset ItemId → Prop}
    (hwrite : ∀ env : Env, env.db = (rowsOf ctx db).map original → env.minUtil = ctx.minUtility →
      Writes (filterOf ctx db).rank (rowsOf ctx db) (fun _ => False) ctx.minUtility Wanted
        (write env))
    (hwf : ∀ row ∈ db, row.WellFormed) (hshort : ∀ row ∈ db, row.items.length < 2 ^ 16)
    (hpool : ∀ n, ctx.world.pool.fails n = false) (hlen : db.length < 2 ^ 32) :
    ∃ w lines, runWith write order (db.map .ok) ctx = .ok (w.huisFound, w) ∧
      w.lines.Perm lines ∧ Lists (fun l : Line => l.1.toFinset) lines
        (fun X => HighUtility ((rowsOf ctx db).map FilteredTransaction.basket) ctx.minUtility X ∧
          Wanted X) fun l => l.1.Nodup ∧
            l.2 = utility ((rowsOf ctx db).map FilteredTransaction.basket) l.1.toFinset ∧
            HighUtility ((rowsOf ctx db).map FilteredTransaction.basket) ctx.minUtility
              l.1.toFinset ∧ Wanted l.1.toFinset := by
  have hrows := filteredRows_filteredDb hwf hlen (filterOf ctx db)
  have hmem := occurs_primaryItems ctx order hwf
  have hallows : Task.Allows (fun _ => False) ctx.world := fun n hn => by simp [hpool n] at hn
  have hitems : ∀ r ∈ rowsOf ctx db,
      r.basket.items ⊆ (primaryItems order (filterOf ctx db)).toFinset := by
    intro r hr x hx
    rw [List.mem_toFinset, hmem, occurs_map]
    exact ⟨r, hr, Finset.singleton_subset_iff.mpr hx⟩
  set B := (rowsOf ctx db).map FilteredTransaction.basket with hB
  have htasks : List.Forall₂ (fun t R => Task.Spec (fun _ => False) t
        { ctx.world with
          guard := ctx.world.guard.forceAlloc (footprint ctx db)
          lines := [] }
        fun out _ _ => Covers B R out)
      (tasksWith write order ctx db)
      ((primaryItems order (filterOf ctx db)).map fun y X =>
        Branch (filterOf ctx db).rank B ctx.minUtility ∅ y X ∧ Wanted X) := by
    rw [tasksWith, List.forall₂_map_left_iff, List.forall₂_map_right_iff, List.forall₂_same]
    intro y hy
    apply itemTaskWith_spec (w := { ctx.world with
        guard := ctx.world.guard.forceAlloc (footprint ctx db)
        lines := [] }) (hwrite _ (loadTx_eq hrows) rfl) hrows (filterOf ctx db).rank_injective
      (short_rowsOf ctx hwf hshort) (loadTx_eq hrows) hallows hitems _ ((hmem y).mp hy)
    exact Nat.lt_succ_of_le (List.toFinset_card_le _)
  have hdisj : ((primaryItems order (filterOf ctx db)).map fun y X =>
      Branch (filterOf ctx db).rank B ctx.minUtility ∅ y X ∧ Wanted X).Pairwise
      fun R R' => ∀ X, R X → ¬ R' X := by
    rw [List.pairwise_map]
    apply (nodup_primaryItems order (filterOf ctx db)).imp
    intro y z hne X hX hX'
    exact hne (hX.1.unique (after_empty _) (after_empty _) hX'.1)
  have hregions : ∀ X, (∃ R ∈ (primaryItems order (filterOf ctx db)).map fun y X =>
      Branch (filterOf ctx db).rank B ctx.minUtility ∅ y X ∧ Wanted X, R X) ↔
      HighUtility B ctx.minUtility X ∧ Wanted X := by
    intro X
    constructor
    · rintro ⟨R, hR, hX⟩
      obtain ⟨y, -, rfl⟩ := List.mem_map.mp hR
      exact ⟨hX.1.high, hX.2⟩
    · rintro ⟨hX, hwanted⟩
      obtain ⟨y, hocc, hbranch⟩ := exists_branch (filterOf ctx db).rank_injective hX
      exact ⟨_, List.mem_map_of_mem ((hmem y).mpr hocc), hbranch, hwanted⟩
  rw [runWith_map_ok ctx order write hlen]
  rcases executeTasks_covers ctx { ctx.world with
      guard := ctx.world.guard.forceAlloc (footprint ctx db) } htasks hdisj with
    ⟨e, he, -⟩ | ⟨w, lines, hrun, hperm, -, hlists⟩
  · exact he.elim
  · rw [hrun]
    refine ⟨{ w with guard := w.guard.free (footprint ctx db) }, lines, rfl, hperm, ?_⟩
    apply hlists.mono fun X => (hregions X).mpr
    rintro l - ⟨hnodup, hu, hl⟩
    exact ⟨hnodup, hu, (hregions _).mp hl⟩

end Run

end Efim

end AirHuim
