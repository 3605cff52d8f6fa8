import AirHuim.Mining.CheckedSums

/-!
# The search with overflow checks

The search over utility lists, in a build that faults where a sum leaves the range
of `i64`: a join can fault, and so can the bound by which a list is pruned. A
search faults exactly if one of the joins that it makes has a sum that does not
fit.
-/

namespace AirHuim

open Library Basket

/-- `can_prune`: the two sums are not added up for an empty list. -/
def UtilityList.canPruneChecked (ul : UtilityList) (minUtility : Utility) : Except Fault Bool :=
  if ul.len = 0 then .ok true
  else (checkI64 (ul.sumIutils + ul.sumRutils)).map fun twu => decide (twu < minUtility)

/-- What is computed without the shared world. -/
def Task.ofExcept {α : Type} (r : Except Fault α) : Task α := ExceptT.mk (pure r)

def joinUtilityListsChecked (itemset : List ItemId) (prefixBody pxBody pyBody : List ULEntry) :
    Task Extension := do
  let acc ← Task.ofExcept (joinBodiesChecked prefixBody pxBody pyBody)
  let bodyBytes := serializeUlBody acc.result
  let len := acc.result.length % 2 ^ 32
  if materializeThresholdBytes ≤ bodyBytes.length then
    let pageId ← Task.newPage bodyBytes
    let recompute := if pageId = 0 then RecomputeFlag.recomputable else .materialized
    return (⟨itemset, acc.sumIutils, acc.sumRutils, len, pageId, true, recompute⟩, .onDisk pageId)
  else
    return (⟨itemset, acc.sumIutils, acc.sumRutils, len, 0, true, .recomputable⟩,
      .inMemory acc.result)

section Join

variable {itemset : List ItemId} {prefixBody pxBody pyBody : List ULEntry}

theorem joinUtilityListsChecked_of_ok (h : joinBodiesChecked prefixBody pxBody pyBody =
      .ok (joinBodies prefixBody pxBody pyBody)) :
    joinUtilityListsChecked itemset prefixBody pxBody pyBody =
      joinUtilityLists itemset prefixBody pxBody pyBody := by
  unfold joinUtilityListsChecked joinUtilityLists
  rw [h]
  rfl

theorem joinUtilityListsChecked_of_overflow
    (h : joinBodiesChecked prefixBody pxBody pyBody = .error .overflow) :
    joinUtilityListsChecked itemset prefixBody pxBody pyBody = throw .overflow := by
  unfold joinUtilityListsChecked
  rw [h]
  rfl

end Join

namespace UlMiner

variable (m : UlMiner)

def nextExtensionsChecked (prefixBody : List ULEntry) (ulPx : UtilityList)
    (bodyPx : List ULEntry) (itemX : ItemId) (thresh : Utility) :
    List Extension → Task (List Extension)
  | [] => return []
  | (ulPy, bodyPy) :: exts => do
      match ulPy.itemset.getLast? with
      | none => throw .panic
      | some itemY =>
        if m.prunePair itemX itemY thresh then
          nextExtensionsChecked prefixBody ulPx bodyPx itemX thresh exts
        else
          let entriesPy ← getBody bodyPy
          let new ← joinUtilityListsChecked (ulPx.itemset ++ [itemY]) prefixBody bodyPx entriesPy
          let rest ← nextExtensionsChecked prefixBody ulPx bodyPx itemX thresh exts
          return new :: rest

def visitChecked (descend : List ULEntry → List Extension → Task Unit)
    (prefixBody : List ULEntry) (ulPx : UtilityList) (bodyPx : UlBody) (later : List Extension) :
    Task Unit := do
  let thresh ← m.current
  let prune ← Task.ofExcept (ulPx.canPruneChecked thresh)
  if prune then return ()
  else
    let entriesPx ← getBody bodyPx
    match ulPx.itemset.getLast? with
    | none => throw .panic
    | some itemX =>
      let thresh ← m.reportIfHigh ulPx ulPx.itemset thresh
      let next ← m.nextExtensionsChecked prefixBody ulPx entriesPx itemX thresh later
      if next.isEmpty then return () else descend entriesPx next

def searchLoopChecked (descend : List ULEntry → List Extension → Task Unit)
    (prefixBody : List ULEntry) : List Extension → Task Unit
  | [] => return ()
  | (ulPx, bodyPx) :: exts => do
      m.visitChecked descend prefixBody ulPx bodyPx exts
      searchLoopChecked descend prefixBody exts

def searchChecked : ℕ → List ULEntry → List Extension → Task Unit
  | 0, _, _ => throw .stuck
  | fuel + 1, prefixBody, exts => m.searchLoopChecked (searchChecked fuel) prefixBody exts

def firstExtensionsChecked (itemX : ItemId) (bodyX : List ULEntry) (thresh : Utility) :
    List ItemList → Task (List Extension)
  | [] => return []
  | (itemY, _, bodyY) :: rest => do
      if m.prunePair itemX itemY thresh then firstExtensionsChecked itemX bodyX thresh rest
      else
        let new ← joinUtilityListsChecked [itemX, itemY] [] bodyX bodyY
        let exts ← firstExtensionsChecked itemX bodyX thresh rest
        return new :: exts

def itemTaskChecked (descend : List ULEntry → List Extension → Task Unit) (e : ItemList)
    (later : List ItemList) : Task Unit := do
  let (itemX, ulX, bodyX) := e
  let thresh ← m.current
  let prune ← Task.ofExcept (ulX.canPruneChecked thresh)
  if prune then return ()
  else
    let thresh ← m.reportIfHigh ulX [itemX] thresh
    let exts ← m.firstExtensionsChecked itemX bodyX thresh later
    if exts.isEmpty then return () else descend bodyX exts

def itemTasksChecked : List ItemList → List (Task Unit)
  | [] => []
  | e :: later =>
      m.itemTaskChecked (fun body exts => m.searchChecked exts.length body exts) e later ::
        itemTasksChecked later

end UlMiner

/-! ## Tasks that fault by an overflow exactly if something does not fit -/

theorem Task.Spec.weaken {α : Type} {E E' : Fault → Prop} {t : Task α} {w : World}
    {Q : List MinerOp → World → α → Prop} (h : Task.Spec E t w Q) (hE : ∀ e, E e → E' e) :
    Task.Spec E' t w Q :=
  Prog.Wp.mono h le_rfl fun calls v r hr => by
    cases r with
    | ok a => exact hr
    | error e => exact hE e hr

/-- `t` overflows only if `R` fails, ends in other faults only as `E` allows, and
returns only if `R` holds. -/
def Task.Checks {α : Type} (E : Fault → Prop) (R : Prop) (t : Task α) (w : World)
    (Q : World → α → Prop) : Prop :=
  Task.Spec (fun e => E e ∨ e = .overflow ∧ ¬ R) t w fun _ v a => R ∧ Q v a

namespace Task

variable {α β : Type} {E : Fault → Prop} {R R' : Prop} {t : Task α} {w : World}
  {Q : World → α → Prop}

/-- A task that adds nothing up. -/
theorem Checks.of_spec {out : List MinerOp → Prop}
    (h : Spec E t w fun calls v a => out calls ∧ Q v a) : Checks E True t w Q :=
  (h.weaken fun _ => Or.inl).mono le_rfl fun _ _ _ hout => ⟨trivial, hout.2⟩

theorem Checks.pure {a : α} (h : ∀ v, w ≤ v → Q v a) : Checks E True (Pure.pure a) w Q :=
  Spec.pure fun v hv => ⟨trivial, h v hv⟩

theorem Checks.congr (h : Checks E R t w Q) (hR : R ↔ R') : Checks E R' t w Q := by
  rwa [← propext hR]

theorem Checks.mono {Q' : World → α → Prop} (h : Checks E R t w Q)
    (hQ : ∀ v a, Q v a → Q' v a) : Checks E R t w Q' :=
  Spec.mono h le_rfl fun _ v a hout => ⟨hout.1, hQ v a hout.2⟩

theorem Checks.bind {f : α → Task β} {Q' : World → β → Prop} (h : Checks E R t w Q)
    (hf : ∀ v a, w ≤ v → Q v a → Checks E R' (f a) v Q') :
    Checks E (R ∧ R') (t >>= f) w Q' := by
  have hfirst : Spec (fun e => E e ∨ e = .overflow ∧ ¬ (R ∧ R')) t w fun _ v a => R ∧ Q v a :=
    h.weaken fun e he => he.imp_right fun he => ⟨he.1, fun hboth => he.2 hboth.1⟩
  refine hfirst.bind fun _ v a hv ha => ?_
  have hrest : Spec (fun e => E e ∨ e = .overflow ∧ ¬ (R ∧ R')) (f a) v fun _ v b => R' ∧ Q' v b :=
    (hf v a hv ha.2).weaken fun e he => he.imp_right fun he => ⟨he.1, fun hboth => he.2 hboth.2⟩
  exact hrest.mono le_rfl fun _ v' b hb => ⟨⟨ha.1, hb.1⟩, hb.2⟩

/-- Sequencing after a task that adds nothing up. -/
theorem Checks.bind_silent {f : α → Task β} {Q' : World → β → Prop} (h : Checks E True t w Q)
    (hf : ∀ v a, w ≤ v → Q v a → Checks E R (f a) v Q') : Checks E R (t >>= f) w Q' :=
  (h.bind hf).congr (iff_of_eq (true_and R))

/-- Sequencing before a task that adds nothing up. -/
theorem Checks.bind_last {f : α → Task β} {Q' : World → β → Prop} (h : Checks E R t w Q)
    (hf : ∀ v a, w ≤ v → Q v a → Checks E True (f a) v Q') : Checks E R (t >>= f) w Q' :=
  (h.bind hf).congr (iff_of_eq (and_true R))

theorem ofExcept_ok_bind (a : α) (f : α → Task β) : (ofExcept (.ok a) >>= f) = f a := rfl

theorem checks_overflow (hR : ¬ R) : Checks E R (throw .overflow : Task α) w Q :=
  fun _ _ => Or.inr ⟨rfl, hR⟩

end Task

/-! ## What the search has to add up -/

section Fits

variable (m : UlMiner) (rank : ItemId → Utility ×ₗ ItemId) (rows : List FilteredTransaction)
  (t : Utility)

/-- What `X`, whose last item is `y`, and the items after it are worth where `X` is. -/
def extensionBound (X : Finset ItemId) (y : ItemId) : Utility :=
  ((rows.filter fun r => X ⊆ r.basket.items).map fun r =>
    r.basket.gain X + remaining rank r y).sum

/-- The sums of all joins that a search below `P` makes, with the items `ys` to extend
it by: a join with `x` and `y` is reached through items that are not pruned pair by
pair, none of whose initial parts is bounded below the threshold. -/
def UlMiner.SearchFits (P : Finset ItemId) (ys : List ItemId) : Prop :=
  ∀ L x y, (L ++ [x, y]).Sublist ys →
    (L ++ [x, y]).Pairwise (fun a b => m.prunePair a b t = false) →
    (∀ Q z, Q ++ [z] <+: L ++ [x] → t ≤ extensionBound rank rows (P ∪ (Q ++ [z]).toFinset) z) →
    P ∪ L.toFinset = ∅ ∨ JoinFits rows (P ∪ L.toFinset) x y

end Fits

namespace UlMiner

variable {m : UlMiner} {rank : ItemId → Utility ×ₗ ItemId} {rows : List FilteredTransaction}
  {t : Utility} {P : Finset ItemId} {y : ItemId} {ys : List ItemId}

theorem searchFits_nil : m.SearchFits rank rows t P [] := by
  intro L x y hsub
  have hlen := hsub.length_le
  rw [List.length_append] at hlen
  exact (Nat.not_succ_le_zero _ ((Nat.le_add_left 2 L.length).trans hlen)).elim

/-- The part of `SearchFits` that starts with `y`. -/
def HeadFits (m : UlMiner) (rank : ItemId → Utility ×ₗ ItemId) (rows : List FilteredTransaction)
    (t : Utility) (P : Finset ItemId) (y : ItemId) (ys : List ItemId) : Prop :=
  t ≤ extensionBound rank rows (insert y P) y →
    (∀ z ∈ ys, m.prunePair y z t = false → P = ∅ ∨ JoinFits rows P y z) ∧
      m.SearchFits rank rows t (insert y P) (ys.filter fun z => !m.prunePair y z t)

theorem union_cons_toFinset (P : Finset ItemId) (y : ItemId) (L : List ItemId) :
    P ∪ (y :: L).toFinset = insert y P ∪ L.toFinset := by
  rw [List.toFinset_cons, Finset.union_insert, Finset.insert_union]

theorem SearchFits.head (h : m.SearchFits rank rows t P (y :: ys)) :
    HeadFits m rank rows t P y ys := by
  intro hbound
  constructor
  · intro z hz hpair
    have hsub : ([] ++ [y, z]).Sublist (y :: ys) := (List.singleton_sublist.mpr hz).cons_cons y
    have hpairs : ([] ++ [y, z]).Pairwise fun a b => m.prunePair a b t = false := by
      simpa using hpair
    have hfits := h [] y z hsub hpairs fun Q x hQ => by
      obtain ⟨rfl, rfl⟩ : Q = [] ∧ x = y := by
        have hlen := hQ.length_le
        have hQnil : Q = [] := by
          rw [← List.length_eq_zero_iff]
          simpa using hlen
        rw [hQnil] at hQ
        exact ⟨hQnil, by simpa using hQ⟩
      rw [List.nil_append, union_cons_toFinset, List.toFinset_nil, Finset.union_empty]
      exact hbound
    rwa [List.toFinset_nil, Finset.union_empty] at hfits
  · intro L x z hsub hpairs hbounds
    have hall : ∀ a ∈ L ++ [x, z], m.prunePair y a t = false := by
      intro a ha
      simpa using (List.mem_filter.mp (hsub.subset ha)).2
    have hfits := h (y :: L) x z ((hsub.trans List.filter_sublist).cons_cons y)
      (List.pairwise_cons.mpr ⟨hall, hpairs⟩) fun Q b hQ => by
        cases Q with
        | nil =>
          obtain ⟨rfl, -⟩ := List.cons_prefix_cons.mp hQ
          rw [List.nil_append, union_cons_toFinset, List.toFinset_nil, Finset.union_empty]
          exact hbound
        | cons a Q =>
          obtain ⟨rfl, hrest⟩ := List.cons_prefix_cons.mp hQ
          rw [List.cons_append, union_cons_toFinset]
          exact hbounds Q b hrest
    rwa [union_cons_toFinset] at hfits

/-- A search is that of its first item and that of the others. -/
theorem searchFits_cons : m.SearchFits rank rows t P (y :: ys) ↔
    HeadFits m rank rows t P y ys ∧ m.SearchFits rank rows t P ys := by
  constructor
  · intro h
    exact ⟨h.head, fun L x z hsub => h L x z (hsub.cons y)⟩
  · rintro ⟨hhead, htail⟩ L x z hsub hpairs hbounds
    rcases List.sublist_cons_iff.mp hsub with hsub | ⟨L', hL', hsub⟩
    · exact htail L x z hsub hpairs hbounds
    · have hown : t ≤ extensionBound rank rows (insert y P) y := by
        have hfirst := hbounds [] y
        rw [List.nil_append, union_cons_toFinset, List.toFinset_nil, Finset.union_empty] at hfirst
        apply hfirst
        cases L with
        | nil =>
          obtain ⟨rfl, -⟩ := List.cons.inj hL'
          exact List.prefix_rfl
        | cons a L =>
          obtain ⟨rfl, -⟩ := List.cons.inj hL'
          exact List.prefix_append _ _
      obtain ⟨hjoins, hbelow⟩ := hhead hown
      rw [hL'] at hpairs
      obtain ⟨hall, hrest⟩ := List.pairwise_cons.mp hpairs
      cases L with
      | nil =>
        obtain ⟨rfl, rfl⟩ := List.cons.inj hL'
        rw [List.toFinset_nil, Finset.union_empty]
        exact hjoins z (List.singleton_sublist.mp hsub) (hall z List.mem_cons_self)
      | cons a L =>
        obtain ⟨rfl, rfl⟩ := List.cons.inj hL'
        rw [union_cons_toFinset]
        apply hbelow L x z _ hrest
        · intro Q b hQ
          have hb := hbounds (a :: Q) b (List.cons_prefix_cons.mpr ⟨rfl, hQ⟩)
          rwa [List.cons_append, union_cons_toFinset] at hb
        · have hkept : (L ++ [x, z]).filter (fun b => !m.prunePair a b t) = L ++ [x, z] :=
            List.filter_eq_self.mpr fun b hb => by simp [hall b hb]
          rw [← hkept]
          exact hsub.filter _

/-- Where `P` with `y` occurs nowhere there is nothing to add up. -/
theorem headFits_of_not_occurs
    (hno : ¬ Occurs (rows.map FilteredTransaction.basket) (insert y P)) :
    HeadFits m rank rows t P y ys := by
  have hvacuous : ∀ (X : Finset ItemId) (x z : ItemId), insert y P ⊆ insert z (insert x X) →
      JoinFits rows X x z := by
    intro X x z hsub r hr hX
    exact (hno ((occurs_map _ _ _).mpr ⟨r, hr, hsub.trans hX⟩)).elim
  refine fun _ => ⟨fun z _ _ => Or.inr ?_, fun L x z _ _ _ => Or.inr ?_⟩
  · exact hvacuous P y z (Finset.subset_insert z _)
  · apply hvacuous
    exact Finset.subset_union_left.trans
      ((Finset.subset_insert x _).trans (Finset.subset_insert z _))

/-! ## The search faults exactly where one of its joins does -/

section Checks

variable {E : Fault → Prop} {w : World} {ops : Line → List MinerOp}

/-- A bound counts an item of a transaction at most once. -/
theorem extensionBound_le (h : FilteredRows rank rows) {X : Finset ItemId}
    (hX : ∀ x ∈ X, rank x ≤ rank y) :
    0 ≤ extensionBound rank rows X y ∧ extensionBound rank rows X y ≤ totalOf rows := by
  refine h.sum_filter_le fun r hr hsub => ?_
  have hsub := of_decide_eq_true hsub
  have hdisjoint : Disjoint X (r.basket.items.filter fun x => rank y < rank x) := by
    rw [Finset.disjoint_left]
    intro x hx hafter
    exact ((Finset.mem_filter.mp hafter).2.trans_le (hX x hx)).false
  have hunion : X ∪ (r.basket.items.filter fun x => rank y < rank x) ⊆ r.basket.items :=
    Finset.union_subset hsub (Finset.filter_subset _ _)
  rw [remaining, ← gain_union _ hdisjoint]
  exact h.gain_within hr hunion

theorem twu_eq {X : Finset ItemId} {ul : UtilityList} {body : UlBody}
    (hul : IsUlOf rank rows w X y ul body) : ul.twu = extensionBound rank rows X y := by
  rw [UtilityList.twu, hul.sumIutils, hul.sumRutils]
  exact sum_entriesWith X (fun r => remaining rank r y) rows

theorem canPruneChecked_eq (h : FilteredRows rank rows) (hfits : totalOf rows < 2 ^ 63)
    {X : Finset ItemId} (hX : ∀ x ∈ X, rank x ≤ rank y) {ul : UtilityList} {body : UlBody}
    (hul : IsUlOf rank rows w X y ul body) (t : Utility) :
    ul.canPruneChecked t = .ok (ul.canPrune t) := by
  obtain ⟨hlo, hhi⟩ := extensionBound_le h hX
  have hcheck : checkI64 ul.twu = .ok ul.twu := by
    rw [twu_eq hul]
    exact checkI64_eq_ok hlo (by linarith)
  unfold UtilityList.canPruneChecked UtilityList.canPrune
  rw [UtilityList.twu] at hcheck
  rw [UtilityList.twu, hcheck]
  split_ifs with hlen
  · simp [hlen]
  · simp [hlen, Except.map]

theorem joinUtilityListsChecked_checks (h : FilteredRows rank rows) (hfits : totalOf rows < 2 ^ 63)
    (hE : Task.Allows E w) {prefixBody : List ULEntry}
    (hpre : IsPrefixBody rank rows P prefixBody) {z : ItemId} (hy : y ∉ P) (hz : z ∉ P)
    (hyz : y ≠ z) {itemset : List ItemId} (hnodup : itemset.Nodup)
    (hitems : itemset.toFinset = insert z (insert y P)) (hlast : itemset.getLast? = some z) :
    Task.Checks E (P = ∅ ∨ JoinFits rows P y z)
      (joinUtilityListsChecked itemset prefixBody (entriesOf rank rows (insert y P) y)
        (entriesOf rank rows (insert z P) z)) w
      fun v e => IsUlOf rank rows v (insert z (insert y P)) z e.1 e.2 := by
  have hchecked := joinBodiesChecked_eq h hfits hpre hy hz hyz
  by_cases hR : P = ∅ ∨ JoinFits rows P y z
  · rw [if_pos hR, ← joinBodies_entriesOf h hpre hy hz hyz] at hchecked
    rw [joinUtilityListsChecked_of_ok hchecked]
    exact (Task.Checks.of_spec (joinUtilityLists_spec h hE hpre hy hz hyz hnodup hitems
      hlast)).congr (iff_of_true trivial hR)
  · rw [if_neg hR] at hchecked
    rw [joinUtilityListsChecked_of_overflow hchecked]
    exact Task.checks_overflow hR

/-- One step of the search to the right: the joins that the pair test leaves. -/
theorem nextExtensionsChecked_checks (h : FilteredRows rank rows) (hfits : totalOf rows < 2 ^ 63)
    (hE : Task.Allows E w) {prefixBody : List ULEntry}
    (hpre : IsPrefixBody rank rows P prefixBody) {ulPx : UtilityList}
    (hnodup : ulPx.itemset.Nodup) (hitems : ulPx.itemset.toFinset = insert y P) (hy : y ∉ P)
    {exts : List Extension} (hexts : AreExtensions rank rows w P ys exts)
    (hlater : ∀ z ∈ ys, rank y < rank z) :
    Task.Checks E (∀ z ∈ ys, m.prunePair y z t = false → P = ∅ ∨ JoinFits rows P y z)
      (m.nextExtensionsChecked prefixBody ulPx (entriesOf rank rows (insert y P) y) y t exts) w
      fun v next =>
        AreExtensions rank rows v (insert y P) (ys.filter fun z => !m.prunePair y z t) next := by
  induction exts generalizing ys w with
  | nil =>
    obtain rfl : ys = [] := List.forall₂_nil_right_iff.mp hexts.lists
    refine (Task.Checks.pure fun v _ => ?_).congr (iff_of_true trivial (by simp))
    exact ⟨List.Forall₂.nil, List.Pairwise.nil, by simp⟩
  | cons e exts ih =>
    obtain ⟨z, zs, hz, hzs, rfl⟩ := List.forall₂_cons_right_iff.mp hexts.lists
    obtain ⟨ulPy, bodyPy⟩ := e
    have hyz : y ≠ z := fun heq => (hlater z List.mem_cons_self).ne (congrArg rank heq)
    have hzP : z ∉ P := hexts.fresh z List.mem_cons_self
    have hlater' : ∀ x ∈ zs, rank y < rank x := fun x hx => hlater x (List.mem_cons_of_mem z hx)
    have hzfresh : z ∉ insert y P := by simp [hyz.symm, hzP]
    unfold nextExtensionsChecked
    simp only [hz.last]
    split_ifs with hp
    · rw [List.filter_cons_of_neg (by simp [hp])]
      refine (ih hE hexts.tail hlater').congr ?_
      simp [hp]
    · rw [List.filter_cons_of_pos (by simp [hp])]
      refine Task.Checks.bind_silent (Task.Checks.of_spec (getBody_spec h hE hz.body)) ?_
      rintro v _ hv rfl
      obtain ⟨hnodup', hitems'⟩ := append_item hnodup hitems hzfresh
      have hjoin := joinUtilityListsChecked_checks h hfits (hE.mono hv) hpre hy hzP hyz hnodup'
        hitems' (by simp)
      have hiff : (∀ x ∈ z :: zs, m.prunePair y x t = false → P = ∅ ∨ JoinFits rows P y x) ↔
          (P = ∅ ∨ JoinFits rows P y z) ∧
            ∀ x ∈ zs, m.prunePair y x t = false → P = ∅ ∨ JoinFits rows P y x :=
        List.forall_mem_cons.trans
          (and_congr_left' (forall_prop_of_true (Bool.eq_false_iff.mpr hp)))
      refine Task.Checks.congr (hjoin.bind fun v' new hv' hnew => ?_) hiff.symm
      refine Task.Checks.bind_last (ih (hE.mono (hv.trans hv'))
        (hexts.tail.mono (hv.trans hv')) hlater') ?_
      intro v'' rest hv'' hrest
      refine Task.Checks.pure fun u hu => ?_
      exact hexts.cons_join hzfresh (hnew.mono (hv''.trans hu)) (hrest.mono hu)

/-- The items of the prefix come before those that it is extended by. -/
def Before (rank : ItemId → Utility ×ₗ ItemId) (P : Finset ItemId) (ys : List ItemId) : Prop :=
  ∀ x ∈ P, ∀ z ∈ ys, rank x < rank z

theorem Before.filter (h : Before rank P (y :: ys)) (hlater : ∀ z ∈ ys, rank y < rank z)
    (q : ItemId → Bool) : Before rank (insert y P) (ys.filter q) := by
  intro x hx z hz
  have hz := List.mem_of_mem_filter hz
  rcases Finset.mem_insert.mp hx with rfl | hx
  · exact hlater z hz
  · exact h x hx z (List.mem_cons_of_mem y hz)

/-- So the item a search is at is the last of its itemset. -/
theorem Before.last (h : Before rank P (y :: ys)) : ∀ x ∈ insert y P, rank x ≤ rank y := by
  intro x hx
  rcases Finset.mem_insert.mp hx with rfl | hx
  · exact le_rfl
  · exact (h x hx y List.mem_cons_self).le

theorem headFits_of_pruned {ul : UtilityList} {body : UlBody}
    (hul : IsUlOf rank rows w (insert y P) y ul body) (hprune : ul.canPrune t = true) :
    HeadFits m rank rows t P y ys := by
  by_cases hocc : Occurs (rows.map FilteredTransaction.basket) (insert y P)
  · intro hbound
    have hlen := hul.len_pos_iff.mpr hocc
    rw [← twu_eq hul] at hbound
    simp [UtilityList.canPrune, hlen.ne', not_lt.mpr hbound] at hprune
  · exact headFits_of_not_occurs hocc

theorem bound_of_not_pruned {X : Finset ItemId} {ul : UtilityList} {body : UlBody}
    (hul : IsUlOf rank rows w X y ul body) (hprune : ¬ ul.canPrune t = true) :
    t ≤ extensionBound rank rows X y := by
  rw [← twu_eq hul]
  by_contra hlow
  exact hprune (by simp [UtilityList.canPrune, lt_of_not_ge hlow])

/-- A report adds nothing up, and a fixed threshold stays what it is. -/
theorem reportIfHigh_checks (hm : m.Lawful E (fun _ => t) ops) (ul : UtilityList)
    (itemset : List ItemId) :
    Task.Checks E True (m.reportIfHigh ul itemset t) w fun _ t' => t' = t := by
  unfold reportIfHigh
  split_ifs
  · exact (Task.Checks.of_spec (hm.report w w t itemset ul.sumIutils le_rfl le_rfl)).mono
      fun _ _ ht => le_antisymm ht.2 ht.1
  · exact Task.Checks.pure fun _ _ => rfl

/-- One pass of the loop adds up what starts with its item, if the recursive call
adds up what lies below. -/
theorem visitChecked_checks (h : FilteredRows rank rows) (hfits : totalOf rows < 2 ^ 63)
    (hm : m.Lawful E (fun _ => t) ops) (hE : Task.Allows E w)
    {descend : List ULEntry → List Extension → Task Unit} {prefixBody : List ULEntry}
    (hpre : IsPrefixBody rank rows P prefixBody) {ulPx : UtilityList} {bodyPx : UlBody}
    {later : List Extension}
    (hexts : AreExtensions rank rows w P (y :: ys) ((ulPx, bodyPx) :: later))
    (hbefore : Before rank P (y :: ys))
    (hdescend : ∀ v zs next, w ≤ v → next ≠ [] → zs.length ≤ ys.length →
      AreExtensions rank rows v (insert y P) zs next → Before rank (insert y P) zs →
      Task.Checks E (m.SearchFits rank rows t (insert y P) zs)
        (descend (entriesOf rank rows (insert y P) y) next) v fun _ _ => True) :
    Task.Checks E (HeadFits m rank rows t P y ys)
      (m.visitChecked descend prefixBody ulPx bodyPx later) w fun _ _ => True := by
  obtain ⟨hul, -⟩ := List.forall₂_cons.mp hexts.lists
  obtain ⟨hlater, -⟩ := List.pairwise_cons.mp hexts.sorted
  have hyP : y ∉ P := hexts.fresh y List.mem_cons_self
  unfold visitChecked
  refine Task.Checks.bind_silent (Task.Checks.of_spec (hm.current w)) ?_
  rintro v₁ t₁ hv₁ ⟨hlo₁, hhi₁⟩
  obtain rfl : t₁ = t := le_antisymm hhi₁ hlo₁
  rw [canPruneChecked_eq h hfits hbefore.last (hul.mono hv₁), Task.ofExcept_ok_bind]
  split_ifs with hprune
  · exact (Task.Checks.pure fun _ _ => trivial).congr
      (iff_of_true trivial (headFits_of_pruned hul hprune))
  · have hbound := bound_of_not_pruned hul hprune
    refine Task.Checks.congr ?_ (forall_prop_of_true hbound).symm
    refine Task.Checks.bind_silent
      (Task.Checks.of_spec (getBody_spec h (hE.mono hv₁) (hul.mono hv₁).body)) ?_
    rintro v₂ _ hv₂ rfl
    simp only [hul.last]
    have hw₂ : w ≤ v₂ := hv₁.trans hv₂
    refine Task.Checks.bind_silent (reportIfHigh_checks hm ulPx ulPx.itemset) ?_
    rintro v₃ _ hv₃ rfl
    have hw₃ : w ≤ v₃ := hw₂.trans hv₃
    refine (nextExtensionsChecked_checks h hfits (hE.mono hw₃) hpre hul.nodup hul.items
      hyP (hexts.tail.mono hw₃) hlater).bind fun v₄ next hv₄ hnext => ?_
    cases next with
    | nil =>
      have hnone := List.forall₂_nil_right_iff.mp hnext.lists
      refine (Task.Checks.pure fun _ _ => trivial).congr (iff_of_true trivial ?_)
      rw [hnone]
      exact searchFits_nil
    | cons e next =>
      exact hdescend v₄ _ (e :: next) (hw₃.trans hv₄) (List.cons_ne_nil e next)
        (List.length_filter_le _ _) hnext (hbefore.filter hlater _)

/-- The loop adds up the joins of the whole search. -/
theorem searchLoopChecked_checks (h : FilteredRows rank rows) (hfits : totalOf rows < 2 ^ 63)
    (hm : m.Lawful E (fun _ => t) ops) (hE : Task.Allows E w)
    {descend : List ULEntry → List Extension → Task Unit} {n : ℕ}
    (hdescend : ∀ P y zs next v, w ≤ v → next ≠ [] → zs.length ≤ n →
      AreExtensions rank rows v (insert y P) zs next → Before rank (insert y P) zs →
      Task.Checks E (m.SearchFits rank rows t (insert y P) zs)
        (descend (entriesOf rank rows (insert y P) y) next) v fun _ _ => True)
    {prefixBody : List ULEntry} (hpre : IsPrefixBody rank rows P prefixBody)
    {exts : List Extension} (hexts : AreExtensions rank rows w P ys exts)
    (hbefore : Before rank P ys) (hlen : ys.length ≤ n + 1) :
    Task.Checks E (m.SearchFits rank rows t P ys) (m.searchLoopChecked descend prefixBody exts) w
      fun _ _ => True := by
  induction exts generalizing ys w with
  | nil =>
    obtain rfl : ys = [] := List.forall₂_nil_right_iff.mp hexts.lists
    exact (Task.Checks.pure fun _ _ => trivial).congr (iff_of_true trivial searchFits_nil)
  | cons e exts ih =>
    obtain ⟨y, ys, -, -, rfl⟩ := List.forall₂_cons_right_iff.mp hexts.lists
    rw [List.length_cons] at hlen
    have hrest : Before rank P ys := fun x hx z hz => hbefore x hx z (List.mem_cons_of_mem y hz)
    unfold searchLoopChecked
    have hvisit := visitChecked_checks h hfits hm hE hpre hexts hbefore
      fun v zs next hv hne hzs => hdescend P y zs next v hv hne (by omega)
    refine Task.Checks.congr (hvisit.bind fun v _ hv _ => ?_) searchFits_cons.symm
    exact ih (hE.mono hv) (fun P y zs next v' hv' => hdescend P y zs next v' (hv.trans hv'))
      (hexts.tail.mono hv) hrest (by omega)

theorem searchChecked_checks (h : FilteredRows rank rows) (hfits : totalOf rows < 2 ^ 63)
    (hm : m.Lawful E (fun _ => t) ops) (fuel : ℕ) (hE : Task.Allows E w)
    {prefixBody : List ULEntry} (hpre : IsPrefixBody rank rows P prefixBody)
    {exts : List Extension} (hexts : AreExtensions rank rows w P ys exts)
    (hbefore : Before rank P ys) (hlen : ys.length ≤ fuel) (hne : exts ≠ []) :
    Task.Checks E (m.SearchFits rank rows t P ys) (m.searchChecked fuel prefixBody exts) w
      fun _ _ => True := by
  induction fuel generalizing P ys w prefixBody exts with
  | zero =>
    have hnil : ys = [] := List.length_eq_zero_iff.mp (Nat.le_zero.mp hlen)
    have hlength := hexts.lists.length_eq
    rw [hnil] at hlength
    exact (hne (List.length_eq_zero_iff.mp hlength.symm)).elim
  | succ fuel ih =>
    refine searchLoopChecked_checks h hfits hm hE ?_ hpre hexts hbefore hlen
    intro P y zs next v hv hne hzs hnext hbefore
    exact ih (hE.mono hv) (Or.inr ⟨Finset.insert_ne_empty y P, y, rfl⟩) hnext hbefore hzs hne

/-! ## The tasks -/

theorem firstExtensionsChecked_eq {itemX : ItemId} {ulX : UtilityList}
    (hulX : ulX.itemset = [itemX]) (bodyX : List ULEntry) {items : List ItemList}
    (h : List.Forall₂ (IsItemList rank rows) ys items) :
    m.firstExtensionsChecked itemX bodyX t items =
      m.nextExtensionsChecked [] ulX bodyX itemX t (items.map toExtension) := by
  induction h with
  | nil => rfl
  | @cons y e ys items he _ ih =>
    obtain ⟨itemY, ulY, bodyY⟩ := e
    have hlast : ulY.itemset.getLast? = some itemY := by
      rw [he.itemset, ← he.item]
      rfl
    simp only [List.map_cons, toExtension, firstExtensionsChecked, nextExtensionsChecked, hlast,
      hulX]
    rw [ih]
    rfl

theorem itemTaskChecked_eq (descend : List ULEntry → List Extension → Task Unit) {e : ItemList}
    (he : IsItemList rank rows y e) {later : List ItemList}
    (h : List.Forall₂ (IsItemList rank rows) ys later) :
    m.itemTaskChecked descend e later =
      m.visitChecked descend [] e.2.1 (.inMemory e.2.2) (later.map toExtension) := by
  obtain ⟨itemX, ulX, bodyX⟩ := e
  have hulX : ulX.itemset = [itemX] := by
    rw [he.itemset, ← he.item]
  have hlast : ulX.itemset.getLast? = some itemX := by
    rw [hulX]
    rfl
  have hbody : getBody (.inMemory bodyX) = pure bodyX := rfl
  simp only [itemTaskChecked, visitChecked, firstExtensionsChecked_eq hulX bodyX h, hbody, hulX]
  rfl

/-- What each task adds up. -/
def taskFits (m : UlMiner) (rank : ItemId → Utility ×ₗ ItemId) (rows : List FilteredTransaction)
    (t : Utility) : List ItemId → List Prop
  | [] => []
  | y :: ys => HeadFits m rank rows t ∅ y ys :: taskFits m rank rows t ys

theorem searchFits_iff_taskFits (ys : List ItemId) :
    m.SearchFits rank rows t ∅ ys ↔ ∀ R ∈ taskFits m rank rows t ys, R := by
  induction ys with
  | nil => exact iff_of_true searchFits_nil fun _ hR => (List.not_mem_nil hR).elim
  | cons y ys ih => rw [searchFits_cons, ih, taskFits, List.forall_mem_cons]

theorem itemTasksChecked_checks (h : FilteredRows rank rows) (hfits : totalOf rows < 2 ^ 63)
    (hm : m.Lawful E (fun _ => t) ops) (hE : Task.Allows E w) {items : List ItemList}
    (hitems : List.Forall₂ (IsItemList rank rows) ys items)
    (hsorted : ys.Pairwise fun y z => rank y < rank z) :
    List.Forall₂ (fun task R => Task.Checks E R task w fun _ _ => True) (m.itemTasksChecked items)
      (taskFits m rank rows t ys) := by
  induction hitems with
  | nil => exact List.Forall₂.nil
  | @cons y e ys items he hitems ih =>
    refine List.Forall₂.cons ?_ (ih hsorted.of_cons)
    rw [itemTaskChecked_eq _ he hitems]
    refine visitChecked_checks h hfits hm hE (Or.inl ⟨rfl, rfl⟩)
      (areExtensions_items (List.Forall₂.cons he hitems) hsorted)
      (fun x hx => (Finset.notMem_empty x hx).elim) ?_
    intro v zs next hv hne hzs hnext hbefore
    have hlen : zs.length ≤ next.length := hnext.lists.length_eq.le
    have hbody : e.2.2 = entriesOf rank rows (insert y ∅) y := by
      rw [insert_empty_eq]
      exact he.body
    rw [← hbody]
    exact searchChecked_checks h hfits hm _ (hE.mono hv)
      (Or.inr ⟨Finset.insert_ne_empty y ∅, y, hbody⟩) hnext hbefore hlen hne

end Checks

end UlMiner

/-- Tasks of which each faults by an overflow exactly if something of its own does not
fit: so does a run of them, if nothing else fails. -/
theorem executeTasks_checks {E : Fault → Prop} (ctx : MiningContext) (w : World)
    {tasks : List (Task Unit)} {Rs : List Prop}
    (h : List.Forall₂ (fun task R => Task.Checks E R task { w with lines := [] } fun _ _ => True)
      tasks Rs) :
    (∃ e, (E e ∨ e = .overflow ∧ ¬ ∀ R ∈ Rs, R) ∧ executeTasks ctx w tasks = .error e) ∨
      ∃ w', executeTasks ctx w tasks = .ok w' ∧ ∀ R ∈ Rs, R := by
  have hgoals : List.Forall₂ (fun task Q => Task.Spec
      (fun e => E e ∨ e = .overflow ∧ ¬ ∀ R ∈ Rs, R) task { w with lines := [] } Q) tasks
      (Rs.map fun R _ _ _ => R ∧ True) := by
    rw [List.forall₂_map_right_iff]
    have hmem : List.Forall₂ (fun task R => R ∈ Rs ∧
        Task.Checks E R task { w with lines := [] } fun _ _ => True) tasks Rs := by
      rw [List.forall₂_iff_get] at h ⊢
      exact ⟨h.1, fun i hi hi' => ⟨List.get_mem Rs ⟨i, hi'⟩, h.2 i hi hi'⟩⟩
    refine hmem.imp fun task R hR => hR.2.weaken fun e he => ?_
    exact he.imp_right fun he => ⟨he.1, fun hall => he.2 (hall R hR.1)⟩
  rcases executeTasks_spec ctx w hgoals with hfault | ⟨log, outs, hrun, -, houts⟩
  · exact Or.inl hfault
  · refine Or.inr ⟨_, hrun, fun R hR => ?_⟩
    have hback := (List.forall₂_map_right_iff.mp houts).flip
    obtain ⟨out, -, hout⟩ := exists_of_forall₂ hback hR
    exact hout.1

end AirHuim
