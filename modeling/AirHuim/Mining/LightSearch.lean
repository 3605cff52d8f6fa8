import AirHuim.Mining.CheckedPasses

/-!
# The checked search where every join fits

A search whose joins have room for their prefix twice never overflows, whatever its
threshold does in the meantime.
-/

namespace AirHuim

open Library Basket

namespace UlMiner

variable {m : UlMiner} {rank : ItemId → Utility ×ₗ ItemId} {rows : List FilteredTransaction}
  {E : Fault → Prop} {lo : World → Utility} {ops : Line → List MinerOp} {P : Finset ItemId}
  {y : ItemId} {ys : List ItemId} {w : World}

theorem nextExtensionsChecked_light (h : FilteredRows rank rows) (hfits : totalOf rows < 2 ^ 63)
    (hjoins : JoinsFit rows) (hE : Task.Allows E w) {prefixBody : List ULEntry}
    (hpre : IsPrefixBody rank rows P prefixBody) {ulPx : UtilityList} {bodyPx : UlBody}
    {later : List Extension}
    (hexts : AreExtensions rank rows w P (y :: ys) ((ulPx, bodyPx) :: later)) (t : Utility) :
    Task.Checks E True
      (m.nextExtensionsChecked prefixBody ulPx (entriesOf rank rows (insert y P) y) y t later) w
      fun v next =>
        AreExtensions rank rows v (insert y P) (ys.filter fun z => !m.prunePair y z t) next := by
  obtain ⟨hul, -⟩ := List.forall₂_cons.mp hexts.lists
  obtain ⟨hlater, -⟩ := List.pairwise_cons.mp hexts.sorted
  refine (nextExtensionsChecked_checks h hfits hE hpre hul.nodup hul.items
    (hexts.fresh y List.mem_cons_self) hexts.tail hlater).congr (iff_of_true ?_ trivial)
  exact fun z _ _ => Or.inr (hjoins P y z)

/-- Whatever the report does to the threshold. -/
theorem reportIfHigh_light (hm : m.Lawful E lo ops) {t₀ : Utility} {w₀ : World}
    (hlo : lo w₀ ≤ t₀) (hhi : t₀ ≤ lo w) (ul : UtilityList) (itemset : List ItemId) :
    Task.Checks E True (m.reportIfHigh ul itemset t₀) w fun _ _ => True := by
  unfold reportIfHigh
  split_ifs
  · exact (Task.Checks.of_spec (hm.report w₀ w t₀ itemset ul.sumIutils hlo hhi)).mono
      fun _ _ _ => trivial
  · exact Task.Checks.pure fun _ _ => trivial

theorem visitChecked_light (h : FilteredRows rank rows) (hfits : totalOf rows < 2 ^ 63)
    (hjoins : JoinsFit rows) (hm : m.Lawful E lo ops) (hE : Task.Allows E w)
    {descend : List ULEntry → List Extension → Task Unit} {prefixBody : List ULEntry}
    (hpre : IsPrefixBody rank rows P prefixBody) {ulPx : UtilityList} {bodyPx : UlBody}
    {later : List Extension}
    (hexts : AreExtensions rank rows w P (y :: ys) ((ulPx, bodyPx) :: later))
    (hbefore : Before rank P (y :: ys))
    (hdescend : ∀ v zs next, w ≤ v → next ≠ [] → zs.length ≤ ys.length →
      AreExtensions rank rows v (insert y P) zs next → Before rank (insert y P) zs →
      Task.Checks E True (descend (entriesOf rank rows (insert y P) y) next) v fun _ _ => True) :
    Task.Checks E True (m.visitChecked descend prefixBody ulPx bodyPx later) w
      fun _ _ => True := by
  obtain ⟨hul, -⟩ := List.forall₂_cons.mp hexts.lists
  obtain ⟨hlater, -⟩ := List.pairwise_cons.mp hexts.sorted
  unfold visitChecked
  refine Task.Checks.bind_silent (Task.Checks.of_spec (hm.current w)) ?_
  rintro v₁ t₁ hv₁ ⟨hlo₁, hhi₁⟩
  rw [canPruneChecked_eq h hfits hbefore.last (hul.mono hv₁), Task.ofExcept_ok_bind]
  split_ifs
  · exact Task.Checks.pure fun _ _ => trivial
  · refine Task.Checks.bind_silent
      (Task.Checks.of_spec (getBody_spec h (hE.mono hv₁) (hul.mono hv₁).body)) ?_
    rintro v₂ _ hv₂ rfl
    simp only [hul.last]
    have hw₂ : w ≤ v₂ := hv₁.trans hv₂
    refine Task.Checks.bind_silent
      (reportIfHigh_light hm hlo₁ (hhi₁.trans (hm.mono _ _ hv₂)) ulPx ulPx.itemset) ?_
    intro v₃ t₂ hv₃ _
    have hw₃ : w ≤ v₃ := hw₂.trans hv₃
    refine (nextExtensionsChecked_light h hfits hjoins (hE.mono hw₃) hpre (hexts.mono hw₃)
      t₂).bind_silent fun v₄ next hv₄ hnext => ?_
    cases next with
    | nil => exact Task.Checks.pure fun _ _ => trivial
    | cons e next =>
      exact hdescend v₄ _ (e :: next) (hw₃.trans hv₄) (List.cons_ne_nil e next)
        (List.length_filter_le _ _) hnext (hbefore.filter hlater _)

theorem searchLoopChecked_light (h : FilteredRows rank rows) (hfits : totalOf rows < 2 ^ 63)
    (hjoins : JoinsFit rows) (hm : m.Lawful E lo ops) (hE : Task.Allows E w)
    {descend : List ULEntry → List Extension → Task Unit} {n : ℕ}
    (hdescend : ∀ P y zs next v, w ≤ v → next ≠ [] → zs.length ≤ n →
      AreExtensions rank rows v (insert y P) zs next → Before rank (insert y P) zs →
      Task.Checks E True (descend (entriesOf rank rows (insert y P) y) next) v fun _ _ => True)
    {prefixBody : List ULEntry} (hpre : IsPrefixBody rank rows P prefixBody)
    {exts : List Extension} (hexts : AreExtensions rank rows w P ys exts)
    (hbefore : Before rank P ys) (hlen : ys.length ≤ n + 1) :
    Task.Checks E True (m.searchLoopChecked descend prefixBody exts) w fun _ _ => True := by
  induction exts generalizing ys w with
  | nil => exact Task.Checks.pure fun _ _ => trivial
  | cons e exts ih =>
    obtain ⟨y, ys, -, -, rfl⟩ := List.forall₂_cons_right_iff.mp hexts.lists
    rw [List.length_cons] at hlen
    have hrest : Before rank P ys := fun x hx z hz => hbefore x hx z (List.mem_cons_of_mem y hz)
    unfold searchLoopChecked
    refine (visitChecked_light h hfits hjoins hm hE hpre hexts hbefore
      fun v zs next hv hne hzs => hdescend P y zs next v hv hne (by omega)).bind_silent ?_
    intro v _ hv _
    exact ih (hE.mono hv) (fun P y zs next v' hv' => hdescend P y zs next v' (hv.trans hv'))
      (hexts.tail.mono hv) hrest (by omega)

theorem searchChecked_light (h : FilteredRows rank rows) (hfits : totalOf rows < 2 ^ 63)
    (hjoins : JoinsFit rows) (hm : m.Lawful E lo ops) (fuel : ℕ) (hE : Task.Allows E w)
    {prefixBody : List ULEntry} (hpre : IsPrefixBody rank rows P prefixBody)
    {exts : List Extension} (hexts : AreExtensions rank rows w P ys exts)
    (hbefore : Before rank P ys) (hlen : ys.length ≤ fuel) (hne : exts ≠ []) :
    Task.Checks E True (m.searchChecked fuel prefixBody exts) w fun _ _ => True := by
  induction fuel generalizing P ys w prefixBody exts with
  | zero =>
    have hlength := hexts.lists.length_eq
    have hzero : exts.length = 0 := by omega
    exact (hne (List.length_eq_zero_iff.mp hzero)).elim
  | succ fuel ih =>
    refine searchLoopChecked_light h hfits hjoins hm hE ?_ hpre hexts hbefore hlen
    intro P y zs next v hv hne hzs hnext hbefore
    exact ih (hE.mono hv) (Or.inr ⟨Finset.insert_ne_empty y P, y, rfl⟩) hnext hbefore hzs hne

theorem itemTasksChecked_light (h : FilteredRows rank rows) (hfits : totalOf rows < 2 ^ 63)
    (hjoins : JoinsFit rows) (hm : m.Lawful E lo ops) (hE : Task.Allows E w)
    {items : List ItemList} (hitems : List.Forall₂ (IsItemList rank rows) ys items)
    (hsorted : ys.Pairwise fun y z => rank y < rank z) :
    ∀ task ∈ m.itemTasksChecked items, Task.Checks E True task w fun _ _ => True := by
  induction hitems with
  | nil => exact fun task htask => (List.not_mem_nil htask).elim
  | @cons y e ys items he hitems ih =>
    refine List.forall_mem_cons.mpr ⟨?_, ih hsorted.of_cons⟩
    rw [itemTaskChecked_eq _ he hitems]
    refine visitChecked_light h hfits hjoins hm hE (Or.inl ⟨rfl, rfl⟩)
      (areExtensions_items (List.Forall₂.cons he hitems) hsorted)
      (fun x hx => (Finset.notMem_empty x hx).elim) ?_
    intro v zs next hv hne hzs hnext hbefore
    have hlen : zs.length ≤ next.length := hnext.lists.length_eq.le
    have hbody : e.2.2 = entriesOf rank rows (insert y ∅) y := by
      rw [insert_empty_eq]
      exact he.body
    rw [← hbody]
    exact searchChecked_light h hfits hjoins hm _ (hE.mono hv)
      (Or.inr ⟨Finset.insert_ne_empty y ∅, y, hbody⟩) hnext hbefore hlen hne

end UlMiner

/-- A run of tasks that never overflow. -/
theorem executeTasks_light {E : Fault → Prop} (ctx : MiningContext) (w : World)
    {tasks : List (Task Unit)}
    (h : ∀ task ∈ tasks, Task.Checks E True task { w with lines := [] } fun _ _ => True) :
    (∃ e, E e ∧ executeTasks ctx w tasks = .error e) ∨ ∃ w', executeTasks ctx w tasks = .ok w' := by
  have hchecks : List.Forall₂ (fun task R =>
      Task.Checks E R task { w with lines := [] } fun _ _ => True) tasks
      (tasks.map fun _ => True) := by
    rw [List.forall₂_map_right_iff, List.forall₂_same]
    exact h
  rcases executeTasks_checks ctx w hchecks with ⟨e, he, hrun⟩ | ⟨w', hrun, -⟩
  · refine Or.inl ⟨e, he.resolve_right fun hno => hno.2 fun R hR => ?_, hrun⟩
    obtain ⟨-, -, rfl⟩ := List.mem_map.mp hR
    trivial
  · exact Or.inr ⟨w', hrun⟩

/-- Checked tasks that do not overflow under `S`: they fault, or end as their tasks do. -/
theorem executeTasks_checked {E : Fault → Prop} {S : Prop} (ctx : MiningContext) (w : World)
    {tasks tasks' : List (Task Unit)} {Qs : List (List MinerOp → World → Unit → Prop)}
    (h : List.Forall₂ Task.Follows tasks tasks')
    (hspecs : List.Forall₂ (fun t Q => Task.Spec E t { w with lines := [] } Q) tasks' Qs)
    (hlight : S → ∀ task ∈ tasks, Task.Checks E True task { w with lines := [] } fun _ _ => True) :
    (∃ e, (E e ∨ e = .overflow ∧ ¬ S) ∧ executeTasks ctx w tasks = .error e) ∨
      ∃ w', executeTasks ctx w tasks = .ok w' ∧ executeTasks ctx w tasks' = .ok w' := by
  by_cases hS : S
  · rcases executeTasks_light ctx w (hlight hS) with ⟨e, he, hrun⟩ | ⟨w', hrun⟩
    · exact Or.inl ⟨e, Or.inl he, hrun⟩
    · exact Or.inr ⟨w', hrun, executeTasks_of_follows h ctx hrun⟩
  · rcases executeTasks_follows ctx w h hspecs with ⟨e, he, hrun⟩ | hends
    · exact Or.inl ⟨e, he.imp_right fun he => ⟨he, hS⟩, hrun⟩
    · exact Or.inr hends

/-- Where the tasks do not fault. -/
theorem agrees_executeTasks {S : Prop} (ctx : MiningContext) (w : World)
    {tasks tasks' : List (Task Unit)} {Qs : List (List MinerOp → World → Unit → Prop)}
    (h : List.Forall₂ Task.Follows tasks tasks')
    (hspecs : List.Forall₂ (fun t Q => Task.Spec (fun _ => False) t { w with lines := [] } Q)
      tasks' Qs)
    (hlight : S → ∀ task ∈ tasks,
      Task.Checks (fun _ => False) True task { w with lines := [] } fun _ _ => True) :
    Agrees S (executeTasks ctx w tasks) (executeTasks ctx w tasks') := by
  rcases executeTasks_checked ctx w h hspecs hlight with ⟨e, he, hrun⟩ | ⟨w', hrun, hsame⟩
  · obtain ⟨rfl, hS⟩ := he.resolve_left id
    exact Or.inr ⟨hrun, hS⟩
  · exact Or.inl (hrun.trans hsame.symm)

namespace UlMiner

variable {m : UlMiner} {rank : ItemId → Utility ×ₗ ItemId} {rows : List FilteredTransaction}
  {lo : World → Utility} {ops : Line → List MinerOp} {ys : List ItemId} {w : World} {S : Prop}

/-- The tasks of a search that fits under `S`. -/
theorem executeTasks_itemTasksChecked {E : Fault → Prop} (h : FilteredRows rank rows)
    (hS : S → totalOf rows < 2 ^ 63 ∧ JoinsFit rows) (hm : m.Lawful E lo ops)
    (ctx : MiningContext) (hE : Task.Allows E w) {items : List ItemList}
    (hitems : List.Forall₂ (IsItemList rank rows) ys items)
    (hsorted : ys.Pairwise fun y z => rank y < rank z) :
    (∃ e, (E e ∨ e = .overflow ∧ ¬ S) ∧
        executeTasks ctx w (m.itemTasksChecked items) = .error e) ∨
      ∃ w', executeTasks ctx w (m.itemTasksChecked items) = .ok w' ∧
        executeTasks ctx w (m.itemTasks items) = .ok w' := by
  have hstart : Task.Allows E { w with lines := [] } := hE
  refine executeTasks_checked ctx w (m.follows_itemTasksChecked items)
    (itemTasks_spec h hm hstart hitems hsorted) fun hs => ?_
  obtain ⟨hfits, hjoins⟩ := hS hs
  exact itemTasksChecked_light h hfits hjoins hm hstart hitems hsorted

/-- A run of the checked tasks where no storage fails. -/
theorem agrees_itemTasksChecked (h : FilteredRows rank rows)
    (hS : S → totalOf rows < 2 ^ 63 ∧ JoinsFit rows) (hm : m.Lawful (fun _ => False) lo ops)
    (ctx : MiningContext) (hpool : ∀ n, w.pool.fails n = false) {items : List ItemList}
    (hitems : List.Forall₂ (IsItemList rank rows) ys items)
    (hsorted : ys.Pairwise fun y z => rank y < rank z) :
    Agrees S (executeTasks ctx w (m.itemTasksChecked items))
      (executeTasks ctx w (m.itemTasks items)) := by
  have hE : Task.Allows (fun _ => False) w := fun n hn => by simp [hpool n] at hn
  rcases executeTasks_itemTasksChecked h hS hm ctx hE hitems hsorted with
    ⟨e, he, hrun⟩ | ⟨w', hrun, hsame⟩
  · obtain ⟨rfl, hS⟩ := he.resolve_left id
    exact Or.inr ⟨hrun, hS⟩
  · exact Or.inl (hrun.trans hsame.symm)

end UlMiner

end AirHuim
