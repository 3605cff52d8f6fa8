import AirHuim.Library.PartialProgram
import AirHuim.Mining.CheckedSearch

/-!
# The checked search and the search

What the checked functions return is what the functions without the checks return. A
checked task makes the calls of its task until a sum does not fit, and a run of the
checked tasks that ends well is the run of the tasks.
-/

namespace AirHuim

open Library Basket

/-- `r` is `c`, unless a sum overflows; under `S` none does. -/
def Agrees {α : Type} (S : Prop) (r c : Except Fault α) : Prop :=
  r = c ∨ r = .error .overflow ∧ ¬ S

/-- Nothing is said of when a sum overflows. -/
abbrev Yields {α : Type} (r : Except Fault α) (a : α) : Prop := Agrees False r (.ok a)

section Agrees

variable {α β : Type} {S : Prop}

theorem Agrees.refl (r : Except Fault α) : Agrees S r r := Or.inl rfl

theorem Yields.ok (a : α) : Yields (.ok a) a := Agrees.refl _

theorem yields_overflow (a : α) : Yields (.error .overflow) a := Or.inr ⟨rfl, id⟩

theorem Yields.under {r : Except Fault α} {a : α} (h : Yields r a) (hS : S → r = .ok a) :
    Agrees S r (.ok a) := by
  by_cases hs : S
  · exact Or.inl (hS hs)
  · exact h.imp_right fun he => ⟨he.1, hs⟩

theorem Agrees.bind {r : Except Fault α} {a : α} {f : α → Except Fault β} {c : Except Fault β}
    (h : Agrees S r (.ok a)) (hf : Agrees S (f a) c) : Agrees S (r >>= f) c := by
  rcases h with rfl | ⟨rfl, hS⟩
  · exact hf
  · exact Or.inr ⟨rfl, hS⟩

theorem Agrees.map {r c : Except Fault α} (h : Agrees S r c) (f : α → β) :
    Agrees S (r.map f) (c.map f) := by
  rcases h with rfl | ⟨rfl, hS⟩
  · exact Or.inl rfl
  · exact Or.inr ⟨rfl, hS⟩

theorem Yields.map {r : Except Fault α} {a : α} (h : Yields r a) (f : α → β) :
    Yields (r.map f) (f a) := Agrees.map h f

/-- A checked program returns, or overflows, if the program does so. -/
theorem Agrees.returns {r c : Except Fault α} (h : Agrees S r c)
    (hc : (∃ a, c = .ok a) ∨ c = .error .overflow ∧ ¬ S) :
    (∃ a, r = .ok a) ∨ r = .error .overflow ∧ ¬ S := by
  rcases h with rfl | h
  · exact hc
  · exact Or.inr h

/-- What a checked program returns. -/
theorem Agrees.eq_ok {r c : Except Fault α} {a : α} (h : Agrees S r c) (hr : r = .ok a) :
    c = .ok a := by
  rcases h with rfl | ⟨rfl, -⟩
  · exact hr
  · cases hr

theorem Yields.foldlM {f : α → β → Except Fault α} {g : α → β → α}
    (h : ∀ s b, Yields (f s b) (g s b)) (s : α) (bs : List β) :
    Yields (bs.foldlM f s) (bs.foldl g s) := by
  induction bs generalizing s with
  | nil => exact Yields.ok s
  | cons b bs ih =>
    rw [List.foldlM_cons, List.foldl_cons]
    exact (h s b).bind (ih _)

theorem Yields.mapM {f : α → Except Fault β} {g : α → β} (h : ∀ a, Yields (f a) (g a))
    (as : List α) : Yields (as.mapM f) (as.map g) := by
  induction as with
  | nil => exact Yields.ok []
  | cons a as ih =>
    rw [List.mapM_cons, List.map_cons]
    exact (h a).bind (ih.bind (Yields.ok _))

end Agrees

section Yields

theorem yields_checkI64 (z : ℤ) : Yields (checkI64 z) z := by
  unfold checkI64
  split
  · exact Yields.ok z
  · exact yields_overflow z

theorem yields_sumChecked (acc : Utility) (values : List Utility) :
    Yields (sumChecked acc values) (acc + values.sum) := by
  rw [← foldl_add_eq_sum]
  exact Yields.foldlM (fun acc v => yields_checkI64 (acc + v)) acc values

theorem yields_canPruneChecked (ul : UtilityList) (minUtility : Utility) :
    Yields (ul.canPruneChecked minUtility) (ul.canPrune minUtility) := by
  unfold UtilityList.canPruneChecked UtilityList.canPrune UtilityList.twu
  split
  · rename_i hlen
    simpa [hlen] using Yields.ok true
  · rename_i hlen
    simpa [hlen] using (yields_checkI64 _).map fun twu => decide (twu < minUtility)

theorem yields_pushChecked (acc : JoinAcc) (e : ULEntry) :
    Yields (acc.pushChecked e) (acc.push e) :=
  (yields_checkI64 _).bind ((yields_checkI64 _).bind (Yields.ok _))

theorem yields_joinEntryChecked (acc : JoinAcc) (px py : ULEntry) :
    Yields (joinEntryChecked acc px py) (joinEntry acc px py) :=
  (yields_checkI64 _).bind (yields_pushChecked _ _)

theorem yields_joinEntryPrefixChecked (s : List ULEntry × JoinAcc) (px py : ULEntry) :
    Yields (joinEntryPrefixChecked s px py) (joinEntryPrefix s px py) :=
  (yields_checkI64 _).bind ((yields_checkI64 _).bind ((yields_pushChecked _ _).bind (Yields.ok _)))

theorem yields_joinBodiesChecked (prefixBody pxBody pyBody : List ULEntry) :
    Yields (joinBodiesChecked prefixBody pxBody pyBody) (joinBodies prefixBody pxBody pyBody) := by
  unfold joinBodiesChecked joinBodies
  split
  · apply intersectWith_related Yields _ (Yields.ok _)
    exact fun s t px py h => h.bind (yields_joinEntryChecked t px py)
  · apply Yields.map
    apply intersectWith_related Yields _ (Yields.ok _)
    exact fun s t px py h => h.bind (yields_joinEntryPrefixChecked t px py)

end Yields

/-! ## Tasks -/

/-- `t` makes the calls of `t'`, but may overflow at any point. -/
def Task.Follows {α : Type} (t t' : Task α) : Prop :=
  Prog.Upto (fun r : Except Fault α => r = .error .overflow) t.run t'.run

namespace Task

variable {α β : Type} {t t' : Task α}

theorem Follows.refl (t : Task α) : Follows t t := Prog.Upto.refl t.run

theorem Follows.bind {f f' : α → Task β} (h : Follows t t') (hf : ∀ a, Follows (f a) (f' a)) :
    Follows (t >>= f) (t' >>= f') := by
  refine Prog.Upto.bind h (fun r hr => ?_) fun r => ?_
  · rw [hr]
    exact ⟨.error .overflow, rfl, rfl⟩
  · cases r with
    | error e => exact Prog.Upto.pure _
    | ok a => exact hf a

/-- Sequencing after a checked sum. -/
theorem Follows.ofExcept_bind {r : Except Fault α} {a : α} {f : α → Task β} {u : Task β}
    (h : Yields r a) (hf : Follows (f a) u) : Follows (ofExcept r >>= f) u := by
  rcases h with rfl | ⟨rfl, -⟩
  · exact hf
  · exact Prog.Upto.stop (S := fun r : Except Fault β => r = .error .overflow) rfl u.run

/-- A checked task does what its task does, or it overflows. -/
theorem Follows.spec {E : Fault → Prop} {w : World} {Q : List MinerOp → World → α → Prop}
    (h : Follows t t') (ht : Spec E t' w Q) : Spec (fun e => E e ∨ e = .overflow) t w Q := by
  refine Prog.Wp.mono (Prog.Upto.wp h ht) le_rfl fun calls v r hr => ?_
  rcases hr with hr | rfl
  · cases r with
    | ok a => exact hr
    | error e => exact Or.inl hr
  · exact Or.inr rfl

end Task

open AirHuim.Task (Follows)

theorem follows_joinUtilityListsChecked (itemset : List ItemId)
    (prefixBody pxBody pyBody : List ULEntry) :
    Follows (joinUtilityListsChecked itemset prefixBody pxBody pyBody)
      (joinUtilityLists itemset prefixBody pxBody pyBody) :=
  Follows.ofExcept_bind (yields_joinBodiesChecked prefixBody pxBody pyBody) (Follows.refl _)

namespace UlMiner

variable (m : UlMiner) {descend descend' : List ULEntry → List Extension → Task Unit}

theorem follows_nextExtensionsChecked (prefixBody : List ULEntry) (ulPx : UtilityList)
    (bodyPx : List ULEntry) (itemX : ItemId) (thresh : Utility) (exts : List Extension) :
    Follows (m.nextExtensionsChecked prefixBody ulPx bodyPx itemX thresh exts)
      (m.nextExtensions prefixBody ulPx bodyPx itemX thresh exts) := by
  induction exts with
  | nil => exact Follows.refl _
  | cons e exts ih =>
    unfold nextExtensionsChecked nextExtensions
    cases e.1.itemset.getLast? with
    | none => exact Follows.refl _
    | some itemY =>
      dsimp only
      split
      · exact ih
      · refine (Follows.refl _).bind fun entriesPy => ?_
        refine (follows_joinUtilityListsChecked _ _ _ _).bind fun new => ?_
        exact ih.bind fun rest => Follows.refl _

theorem follows_visitChecked (hdescend : ∀ body exts, Follows (descend body exts)
    (descend' body exts))
    (prefixBody : List ULEntry) (ulPx : UtilityList) (bodyPx : UlBody) (later : List Extension) :
    Follows (m.visitChecked descend prefixBody ulPx bodyPx later)
      (m.visit descend' prefixBody ulPx bodyPx later) := by
  unfold visitChecked visit
  refine (Follows.refl _).bind fun thresh => ?_
  refine Follows.ofExcept_bind (yields_canPruneChecked ulPx thresh) ?_
  split
  · exact Follows.refl _
  · refine (Follows.refl _).bind fun entriesPx => ?_
    cases ulPx.itemset.getLast? with
    | none => exact Follows.refl _
    | some itemX =>
      refine (Follows.refl _).bind fun thresh => ?_
      refine (m.follows_nextExtensionsChecked _ _ _ _ _ _).bind fun next => ?_
      split
      · exact Follows.refl _
      · exact hdescend entriesPx next

theorem follows_searchLoopChecked
    (hdescend : ∀ body exts, Follows (descend body exts) (descend' body exts))
    (prefixBody : List ULEntry) (exts : List Extension) :
    Follows (m.searchLoopChecked descend prefixBody exts)
      (m.searchLoop descend' prefixBody exts) := by
  induction exts with
  | nil => exact Follows.refl _
  | cons e exts ih =>
    exact (m.follows_visitChecked hdescend prefixBody e.1 e.2 exts).bind fun _ => ih

theorem follows_searchChecked (fuel : ℕ) (prefixBody : List ULEntry) (exts : List Extension) :
    Follows (m.searchChecked fuel prefixBody exts) (m.search fuel prefixBody exts) := by
  induction fuel generalizing prefixBody exts with
  | zero => exact Follows.refl _
  | succ fuel ih => exact m.follows_searchLoopChecked ih prefixBody exts

theorem follows_firstExtensionsChecked (itemX : ItemId) (bodyX : List ULEntry) (thresh : Utility)
    (later : List ItemList) :
    Follows (m.firstExtensionsChecked itemX bodyX thresh later)
      (m.firstExtensions itemX bodyX thresh later) := by
  induction later with
  | nil => exact Follows.refl _
  | cons e later ih =>
    unfold firstExtensionsChecked firstExtensions
    split
    · exact ih
    · refine (follows_joinUtilityListsChecked _ _ _ _).bind fun new => ?_
      exact ih.bind fun exts => Follows.refl _

theorem follows_itemTaskChecked
    (hdescend : ∀ body exts, Follows (descend body exts) (descend' body exts)) (e : ItemList)
    (later : List ItemList) :
    Follows (m.itemTaskChecked descend e later) (m.itemTask descend' e later) := by
  unfold itemTaskChecked itemTask
  refine (Follows.refl _).bind fun thresh => ?_
  refine Follows.ofExcept_bind (yields_canPruneChecked e.2.1 thresh) ?_
  split
  · exact Follows.refl _
  · refine (Follows.refl _).bind fun thresh => ?_
    refine (m.follows_firstExtensionsChecked _ _ _ _).bind fun exts => ?_
    split
    · exact Follows.refl _
    · exact hdescend e.2.2 exts

theorem follows_itemTasksChecked (items : List ItemList) :
    List.Forall₂ Follows (m.itemTasksChecked items) (m.itemTasks items) := by
  induction items with
  | nil => exact .nil
  | cons e later ih =>
    refine .cons (m.follows_itemTaskChecked (fun body exts => ?_) e later) ih
    exact m.follows_searchChecked exts.length body exts

end UlMiner

theorem ne_overflow_of_firstFault {results : List (Except Fault Unit)}
    (h : firstFault results = none) : ∀ r ∈ results, ¬ r = .error .overflow := by
  rintro r hr rfl
  have hnone := List.findSome?_eq_none_iff.mp h _ hr
  cases hnone

/-- A run that ends well is the run of the tasks that it follows. -/
theorem executeTasks_of_follows {tasks tasks' : List (Task Unit)}
    (h : List.Forall₂ Follows tasks tasks') (ctx : MiningContext) {w w' : World}
    (hrun : executeTasks ctx w tasks = .ok w') : executeTasks ctx w tasks' = .ok w' := by
  have hupto : List.Forall₂ (Prog.Upto fun r : Except Fault Unit => r = .error .overflow)
      (tasks.map ExceptT.run) (tasks'.map ExceptT.run) := by
    rw [List.forall₂_map_left_iff, List.forall₂_map_right_iff]
    exact h
  have hall := Prog.interleave_upto (O := world) hupto
    (if 1 < ctx.threads then ctx.schedule else []) { w with lines := [] } fun r hr => ?_
  · unfold executeTasks at hrun ⊢
    dsimp only at hrun ⊢
    rw [← hall]
    exact hrun
  · unfold executeTasks at hrun
    dsimp only at hrun
    split at hrun
    · cases hrun
    · rename_i hnone
      exact ne_overflow_of_firstFault hnone r hr

/-- A run of checked tasks ends as the run of the tasks, or with a fault that the tasks
may have, or with an overflow. -/
theorem executeTasks_follows {E : Fault → Prop} (ctx : MiningContext) (w : World)
    {tasks tasks' : List (Task Unit)} {Qs : List (List MinerOp → World → Unit → Prop)}
    (h : List.Forall₂ Follows tasks tasks')
    (hspecs : List.Forall₂ (fun t Q => Task.Spec E t { w with lines := [] } Q) tasks' Qs) :
    (∃ e, (E e ∨ e = .overflow) ∧ executeTasks ctx w tasks = .error e) ∨
      ∃ w', executeTasks ctx w tasks = .ok w' ∧ executeTasks ctx w tasks' = .ok w' := by
  have hgoals : List.Forall₂ (fun t Q => Task.Spec (fun e => E e ∨ e = .overflow) t
      { w with lines := [] } Q) tasks Qs := by
    rw [List.forall₂_iff_get] at h hspecs ⊢
    refine ⟨h.1.trans hspecs.1, fun i hi hi' => ?_⟩
    exact (h.2 i hi (h.1 ▸ hi)).spec (hspecs.2 i (h.1 ▸ hi) hi')
  rcases executeTasks_spec ctx w hgoals with hfault | ⟨log, outs, hrun, -⟩
  · exact Or.inl hfault
  · exact Or.inr ⟨_, hrun, executeTasks_of_follows h ctx hrun⟩

end AirHuim
