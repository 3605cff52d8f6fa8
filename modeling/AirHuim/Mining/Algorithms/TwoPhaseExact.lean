import AirHuim.Mining.Algorithms.TwoPhase

/-!
# Two-Phase is exact

The vertical index holds the list of every valid item; every recursion holds the
list of its itemset; and the itemsets below a node are those of its level and
those below the extensions that stay valid.
-/

namespace AirHuim

open Library Basket

namespace TwoPhase

/-! ## The index -/

section Index

variable {valid : List ItemId} {i : ℕ} {x : ItemId}

/-- One transaction adds its entries for an item to that item's list only. -/
theorem getElem?_addEntries (hnodup : valid.Nodup) (hi : valid[i]? = some x) (txIdx : ℕ)
    (items : List ItemEntry) (db : List (List TxEntry)) :
    (addEntries valid txIdx items db)[i]? =
      db[i]?.map (· ++ (items.filter fun e => e.item = x).map fun e => ⟨txIdx, e.utility⟩) := by
  unfold addEntries
  induction items generalizing db with
  | nil => simp
  | cons e items ih =>
    obtain ⟨hlt, hget⟩ := List.getElem?_eq_some_iff.mp hi
    rw [List.foldl_cons, ih]
    by_cases he : e.item = x
    · have hidx : valid.idxOf? e.item = some i := by
        rw [List.idxOf?_eq_some_iff]
        refine ⟨hlt, hget.trans he.symm, fun j hj heq => ?_⟩
        have := (hnodup.getElem_inj_iff).mp (heq.trans (he.trans hget.symm))
        omega
      rw [hidx]
      simp [he, Option.map_map, Function.comp_def]
    · have hother : ∀ m, valid.idxOf? e.item = some m → m ≠ i := by
        rintro m hm rfl
        obtain ⟨_, hm, -⟩ := List.idxOf?_eq_some_iff.mp hm
        exact he (hm.symm.trans hget)
      cases hidx : valid.idxOf? e.item with
      | none => simp [he]
      | some m => simp [he, List.getElem?_modify_ne _ _ (hother m hidx)]

theorem length_addEntries (valid : List ItemId) (txIdx : ℕ) (items : List ItemEntry)
    (db : List (List TxEntry)) : (addEntries valid txIdx items db).length = db.length := by
  unfold addEntries
  induction items generalizing db with
  | nil => rfl
  | cons e items ih =>
    rw [List.foldl_cons, ih]
    split <;> simp

/-- With distinct items a transaction has at most one entry for an item. -/
theorem entries_of_item {tx : RawTransaction} (h : tx.WellFormed) (x : ItemId) :
    (tx.items.filter fun e => e.item = x).map (fun e => TxEntry.mk tx.tid e.utility) =
      entriesAt [tx] x := by
  have hcount : ∀ items : List ItemEntry, (items.map ItemEntry.item).Nodup →
      items.filter (fun e => e.item = x) = [] ∧ x ∉ (basketOf items).items ∨
        ∃ e, items.filter (fun e => e.item = x) = [e] ∧ x ∈ (basketOf items).items := by
    intro items
    induction items with
    | nil => simp [basketOf]
    | cons e items ih =>
      intro hnodup
      obtain ⟨he, hnodup⟩ := List.nodup_cons.mp hnodup
      by_cases hex : e.item = x
      · subst hex
        refine Or.inr ⟨e, ?_, mem_basketOf.mpr ⟨e, List.mem_cons_self, rfl⟩⟩
        have hnil : items.filter (fun e' => e'.item = e.item) = [] := by
          rw [List.filter_eq_nil_iff]
          intro b hb hbe
          exact he (of_decide_eq_true hbe ▸ List.mem_map_of_mem hb)
        simp [hnil]
      · have hmem : x ∈ (basketOf (e :: items)).items ↔ x ∈ (basketOf items).items := by
          simp [mem_basketOf, hex]
        simpa [hex, hmem] using ih hnodup
  rcases hcount tx.items h.distinct with ⟨hnil, hx⟩ | ⟨e, hone, hx⟩
  · have hx' : x ∉ tx.basket.items := hx
    rw [entriesAt, hnil, List.filter_cons_of_neg (by simpa using hx')]
    rfl
  · have hx' : {x} ⊆ tx.basket.items := by simpa [RawTransaction.basket] using hx
    have hutil : tx.basket.gain {x} = e.utility := by
      simp [RawTransaction.basket, basketOf, hone]
    simp only [entriesAt, hone, hx', hutil, List.filter_singleton, decide_true, List.map_cons,
      List.map_nil, cond_true]

theorem getElem?_vertDb (hnodup : valid.Nodup) (hi : valid[i]? = some x) (tid : ℕ)
    {db : List SpmfRow} (hwf : ∀ row ∈ db, row.WellFormed) (acc : List (List TxEntry)) :
    (vertDb valid tid (numbered tid db) acc)[i]? =
      acc[i]?.map (· ++ entriesAt (numbered tid db) x) := by
  induction db generalizing tid acc with
  | nil => simp [numbered, vertDb, entriesAt]
  | cons row db ih =>
    have htx := numbered_wellFormed hwf tid _ List.mem_cons_self
    have hsplit : entriesAt (numbered tid (row :: db)) x =
        entriesAt [⟨tid, row.transactionUtility, row.items⟩] x ++
          entriesAt (numbered (tid + 1) db) x := by
      rw [entriesAt, numbered, ← List.singleton_append, List.filter_append, List.map_append]
      rfl
    have hentries := entries_of_item htx x
    rw [numbered, vertDb, ih (tid + 1) fun r hr => hwf r (List.mem_cons_of_mem row hr),
      getElem?_addEntries hnodup hi, ← numbered, hsplit, ← hentries, Option.map_map]
    congr 1
    funext l
    simp

theorem length_vertDb (valid : List ItemId) (txIdx : ℕ) (txs : List RawTransaction)
    (acc : List (List TxEntry)) : (vertDb valid txIdx txs acc).length = acc.length := by
  induction txs generalizing txIdx acc with
  | nil => rfl
  | cons tx txs ih => rw [vertDb, ih, length_addEntries]

/-- The index of a database: the list of every valid item. -/
theorem vertDb_eq (hnodup : valid.Nodup) {db : List SpmfRow} (hwf : ∀ row ∈ db, row.WellFormed) :
    vertDb valid 0 (numbered 0 db) (valid.map fun _ => []) =
      valid.map (entriesAt (numbered 0 db)) := by
  apply List.ext_getElem?
  intro i
  cases hi : valid[i]? with
  | none =>
    have hlen := List.getElem?_eq_none_iff.mp hi
    rw [List.getElem?_eq_none_iff.mpr (by rw [length_vertDb, List.length_map]; exact hlen),
      List.getElem?_map, hi]
    rfl
  | some x =>
    rw [getElem?_vertDb hnodup hi 0 hwf, List.getElem?_map, List.getElem?_map, hi]
    rfl

/-- Pages are written one after the other; none is lost. -/
theorem insertPages_spec (lists : List (List TxEntry)) {w : World}
    (hpool : ∀ n, w.pool.fails n = false) :
    ∃ pages w', insertPages lists w = .ok (pages, w') ∧ w ≤ w' ∧ w'.guard = w.guard ∧
      w'.huisFound = w.huisFound ∧
      List.Forall₂ (fun page entries => w'.pool.Holds page (serializeTxEntries entries))
        pages lists := by
  induction lists generalizing w with
  | nil => exact ⟨[], w, rfl, le_rfl, rfl, rfl, List.Forall₂.nil⟩
  | cons entries lists ih =>
    have hstep : ∃ id w', world.exec (.newPage (serializeTxEntries entries)) w = (.ok id, w') ∧
        w'.pool.Holds id (serializeTxEntries entries) ∧ w'.guard = w.guard ∧
        w'.huisFound = w.huisFound := by
      simp only [PagePool.newPage, hpool]
      exact ⟨_, _, rfl, ⟨Nat.lt_succ_self _, Function.update_self ..⟩, rfl, rfl⟩
    obtain ⟨id, w₁, hexec, hid, hguard, hfound⟩ := hstep
    have hle : w ≤ w₁ := by
      have := World.le_exec (.newPage (serializeTxEntries entries)) w
      rwa [hexec] at this
    obtain ⟨pages, w', hrest, hle', hguard', hfound', hpages⟩ :=
      ih (w := w₁) fun n => by rw [hle.fails]; exact hpool n
    refine ⟨id :: pages, w', ?_, hle.trans hle', hguard'.trans hguard, hfound'.trans hfound,
      List.Forall₂.cons (hid.mono hle') hpages⟩
    rw [insertPages, hexec]
    change Except.bind (Except.ok id) _ = _
    simp only [Except.bind, hrest]
    rfl

end Index

/-! ## The regions of the search -/

section Regions

variable {B : List (Basket ItemId)} {minUtil : Utility} {P X : Finset ItemId} {y : ItemId}
  {ys : List ItemId}

/-- The itemsets below `P` when it may be extended by `ys`. -/
structure Below (B : List (Basket ItemId)) (minUtil : Utility) (P : Finset ItemId)
    (ys : List ItemId) (X : Finset ItemId) : Prop where
  sub : P ⊆ X
  within : ∀ x ∈ X, x ∈ P ∨ x ∈ ys
  ne : X ≠ P
  high : HighUtility B minUtil X

/-- Those one level down. -/
def Level (B : List (Basket ItemId)) (minUtil : Utility) (P : Finset ItemId) (ys : List ItemId)
    (X : Finset ItemId) : Prop :=
  HighUtility B minUtil X ∧ ∃ y ∈ ys, X = insert y P

/-- Those further down. -/
def Deeper (B : List (Basket ItemId)) (minUtil : Utility) (P : Finset ItemId) (ys : List ItemId)
    (X : Finset ItemId) : Prop :=
  Below B minUtil P ys X ∧ ∀ y ∈ ys, X ≠ insert y P

theorem level_cons : Level B minUtil P (y :: ys) X ↔
    HighUtility B minUtil X ∧ X = insert y P ∨ Level B minUtil P ys X := by
  simp only [Level, List.mem_cons, exists_eq_or_imp]
  tauto

/-- What lies further down only needs the extensions that stay valid. -/
theorem below_iff {valid : ItemId → Bool} (hfresh : ∀ y ∈ ys, y ∉ P)
    (hvalid : ∀ y ∈ ys, HighUtility B minUtil X → insert y P ⊆ X → valid y = true) :
    Below B minUtil P ys X ↔ Level B minUtil P ys X ∨ Deeper B minUtil P (ys.filter valid) X := by
  constructor
  · intro h
    by_cases hlevel : ∃ y ∈ ys, X = insert y P
    · exact Or.inl ⟨h.high, hlevel⟩
    · refine Or.inr ⟨{ h with within := fun x hx => ?_ }, fun y hy heq => ?_⟩
      · rcases h.within x hx with hxP | hxys
        · exact Or.inl hxP
        · exact Or.inr (List.mem_filter.mpr
            ⟨hxys, hvalid x hxys h.high (Finset.insert_subset hx h.sub)⟩)
      · exact hlevel ⟨y, List.mem_of_mem_filter hy, heq⟩
  · rintro (⟨hX, y, hy, rfl⟩ | ⟨h, -⟩)
    · refine ⟨Finset.subset_insert y P, fun x hx => ?_, fun heq => ?_, hX⟩
      · rcases Finset.mem_insert.mp hx with rfl | hx
        · exact Or.inr hy
        · exact Or.inl hx
      · exact hfresh y hy (heq ▸ Finset.mem_insert_self y P)
    · exact { h with within := fun x hx => (h.within x hx).imp_right List.mem_of_mem_filter }

theorem not_deeper_of_level {valid : ItemId → Bool} (hfresh : ∀ y ∈ ys, y ∉ P)
    (h : Level B minUtil P ys X) : ¬ Deeper B minUtil P (ys.filter valid) X := by
  rintro ⟨hbelow, hne⟩
  obtain ⟨-, y, hy, rfl⟩ := h
  rcases hbelow.within y (Finset.mem_insert_self y P) with hyP | hyys
  · exact hfresh y hy hyP
  · exact hne y hyys rfl

theorem not_deeper_nil : ¬ Deeper B minUtil P [] X := by
  rintro ⟨h, -⟩
  refine h.ne (subset_antisymm (fun x hx => ?_) h.sub)
  exact (h.within x hx).resolve_right (List.not_mem_nil)

/-- What lies further down contains the first extension, or not. -/
theorem deeper_cons (hfresh : ∀ z ∈ y :: ys, z ∉ P) :
    Deeper B minUtil P (y :: ys) X ↔
      Below B minUtil (insert y P) ys X ∨ (y ∉ X ∧ Deeper B minUtil P ys X) := by
  have hy : y ∉ P := hfresh y List.mem_cons_self
  constructor
  · rintro ⟨h, hne⟩
    by_cases hyX : y ∈ X
    · refine Or.inl
        ⟨Finset.insert_subset hyX h.sub, fun x hx => ?_, hne y List.mem_cons_self, h.high⟩
      rcases h.within x hx with hxP | hxys
      · exact Or.inl (Finset.mem_insert_of_mem hxP)
      · rcases List.mem_cons.mp hxys with rfl | hxys
        · exact Or.inl (Finset.mem_insert_self x P)
        · exact Or.inr hxys
    · refine Or.inr ⟨hyX, { h with within := fun x hx => ?_ }, fun z hz =>
        hne z (List.mem_cons_of_mem y hz)⟩
      rcases h.within x hx with hxP | hxys
      · exact Or.inl hxP
      · rcases List.mem_cons.mp hxys with rfl | hxys
        · exact (hyX hx).elim
        · exact Or.inr hxys
  · rintro (h | ⟨hyX, h, hne⟩)
    · have hyX : y ∈ X := h.sub (Finset.mem_insert_self y P)
      refine ⟨⟨(Finset.subset_insert y P).trans h.sub, fun x hx => ?_, ?_, h.high⟩,
        fun z hz heq => ?_⟩
      · rcases h.within x hx with hxP | hxys
        · rcases Finset.mem_insert.mp hxP with rfl | hxP
          · exact Or.inr List.mem_cons_self
          · exact Or.inl hxP
        · exact Or.inr (List.mem_cons_of_mem y hxys)
      · rintro rfl
        exact hy hyX
      · subst heq
        rcases Finset.mem_insert.mp hyX with rfl | hyP
        · exact h.ne rfl
        · exact hy hyP
    · refine ⟨{ h with within := fun x hx => (h.within x hx).imp_right (List.mem_cons_of_mem y) },
        fun z hz heq => ?_⟩
      rcases List.mem_cons.mp hz with rfl | hz
      · exact hyX (heq ▸ Finset.mem_insert_self z P)
      · exact hne z hz heq

end Regions

/-! ## The search -/

section Search

variable {txs : List RawTransaction} {txTwus : List Utility} {ix : Index} {E : Fault → Prop}
  {w : World} {P : Finset ItemId} {es : List ℕ} {itemset : List ItemId}

/-- The item of an extension. -/
def Index.item (ix : Index) (i : ℕ) : ItemId := ix.orig.getD i 0

/-- The pages hold the lists of the items. -/
def Index.Holds (ix : Index) (txs : List RawTransaction) (w : World) : Prop :=
  ∀ i < ix.orig.length,
    w.pool.Holds (ix.vertDbPages.getD i 0) (serializeTxEntries (entriesAt txs (ix.item i)))

theorem Index.Holds.mono {w' : World} (hw : w ≤ w') (h : ix.Holds txs w) : ix.Holds txs w' :=
  fun i hi => PagePool.Holds.mono hw (h i hi)

def NodeList.Holds (w : World) (nodes : List DfsNode) : NodeList → Prop
  | .inMemory ns => ns = nodes
  | .onDisk id _ => w.pool.Holds id (serializeNodes nodes)

theorem NodeList.Holds.mono {w' : World} (hw : w ≤ w') {nodes : List DfsNode} {list : NodeList}
    (h : list.Holds w nodes) : list.Holds w' nodes := by
  cases list with
  | inMemory ns => exact h
  | onDisk id len => exact PagePool.Holds.mono hw h

/-- Extensions of `P`: positions in the index, of distinct items not in `P`. -/
structure Extends (ix : Index) (P : Finset ItemId) (es : List ℕ) : Prop where
  lt : ∀ i ∈ es, i < ix.orig.length
  fresh : ∀ y ∈ es.map ix.item, y ∉ P
  nodup : (es.map ix.item).Nodup

theorem Extends.tail {i : ℕ} (h : Extends ix P (i :: es)) : Extends ix P es where
  lt j hj := h.lt j (List.mem_cons_of_mem i hj)
  fresh y hy := h.fresh y (List.mem_cons_of_mem (ix.item i) hy)
  nodup := (List.nodup_cons.mp h.nodup).2

/-- The extension stays valid. -/
def isValid (txs : List RawTransaction) (minUtil : Utility) (P : Finset ItemId) (y : ItemId) :
    Bool :=
  nodesOf txs (insert y P) ≠ [] ∧ minUtil ≤ twuOf txs (insert y P)

theorem nodesOf_ne_nil_iff (txs : List RawTransaction) (P : Finset ItemId) :
    nodesOf txs P ≠ [] ↔ Occurs (txs.map RawTransaction.basket) P := by
  rw [occurs_map, nodesOf, Ne, List.map_eq_nil_iff, List.filter_eq_nil_iff]
  simp

/-- An extension with a high-utility itemset below it stays valid. -/
theorem isValid_of_highUtility (h : Rows txs txTwus) {minUtil : Utility} {X : Finset ItemId}
    {y : ItemId} (hX : HighUtility (txs.map RawTransaction.basket) minUtil X)
    (hsub : insert y P ⊆ X) : isValid txs minUtil P y = true := by
  rw [isValid, decide_eq_true_iff, nodesOf_ne_nil_iff]
  exact ⟨hX.occurs.mono hsub, hX.le.trans (utility_le_twuOf h.wellFormed hsub)⟩

/-- The extensions kept, each with its list. -/
structure Kept (ix : Index) (txs : List RawTransaction) (w : World) (P : Finset ItemId)
    (es : List ℕ) (valid : List (ℕ × NodeList)) : Prop where
  idxs : valid.map Prod.fst = es.filter fun i => isValid txs ix.minUtil P (ix.item i)
  lists : ∀ p ∈ valid, p.2.Holds w (nodesOf txs (insert (ix.item p.1) P))

theorem storeList_spec (hE : Task.Allows E w) (P : Finset ItemId) :
    Task.Spec E (storeList (nodesOf txs P)) w fun out v list =>
      out = [] ∧ list.Holds v (nodesOf txs P) := by
  unfold storeList
  split_ifs
  · refine Task.Spec.bind_silent (Task.newPage_spec hE _) ?_
    intro v id _ hid
    exact Task.Spec.pure fun v' hv' => ⟨rfl, PagePool.Holds.mono hv' hid⟩
  · exact Task.Spec.pure fun _ _ => ⟨rfl, rfl⟩

theorem resolve_spec (h : Rows txs txTwus) (hE : Task.Allows E w) {list : NodeList}
    (hlist : list.Holds w (nodesOf txs P)) :
    Task.Spec E (resolve list) w fun out _ nodes => out = [] ∧ nodes = nodesOf txs P := by
  cases list with
  | inMemory ns => exact Task.Spec.pure fun _ _ => ⟨rfl, hlist⟩
  | onDisk id len =>
    refine Task.Spec.bind_silent (Task.pin_spec hE hlist) ?_
    rintro v _ _ rfl
    exact Task.Spec.pure fun _ _ => ⟨rfl, deserializeNodes_nodesOf h P⟩

/-- The line of an itemset, if it is a high-utility one. -/
theorem writeIfHigh_spec (hnodup : itemset.Nodup) (hne : itemset.toFinset.Nonempty) :
    Task.Spec E (writeIfHigh ix itemset (nodesOf txs itemset.toFinset)
        (utility (txs.map RawTransaction.basket) itemset.toFinset)) w
      fun out _ _ => Covers (txs.map RawTransaction.basket) (fun X =>
        HighUtility (txs.map RawTransaction.basket) ix.minUtil X ∧ X = itemset.toFinset) out := by
  unfold writeIfHigh
  have hocc := nodesOf_ne_nil_iff txs itemset.toFinset
  split_ifs with hhigh
  · refine (Task.writeAndCount_spec _ _).mono le_rfl ?_
    rintro _ v _ rfl
    refine Covers.line hnodup rfl fun X => and_iff_right_of_imp ?_
    rintro rfl
    exact ⟨hne, hocc.mp hhigh.1, hhigh.2⟩
  · refine Task.Spec.pure fun _ _ => Covers.nil ?_
    rintro X ⟨hX, rfl⟩
    exact hhigh ⟨hocc.mpr hX.occurs, hX.le⟩

/-- The first loop writes one level and keeps what stays valid. -/
theorem extend_spec (h : Rows txs ix.txTwus) (hE : Task.Allows E w) (hix : ix.Holds txs w)
    (hes : Extends ix P es) (hnodup : itemset.Nodup) (hitemset : itemset.toFinset = P) :
    Task.Spec E (extend ix itemset (nodesOf txs P) es) w fun out v valid =>
      Covers (txs.map RawTransaction.basket)
        (Level (txs.map RawTransaction.basket) ix.minUtil P (es.map ix.item)) out ∧
      Kept ix txs v P es valid := by
  induction es generalizing w with
  | nil =>
    refine Task.Spec.pure fun v _ => ⟨Covers.nil ?_, rfl, by simp⟩
    rintro X ⟨-, y, hy, -⟩
    exact List.not_mem_nil hy
  | cons i es ih =>
    have hy : ix.item i ∉ P := hes.fresh _ List.mem_cons_self
    obtain ⟨hnodup', hset⟩ := append_item hnodup hitemset hy
    -- the lines of this extension and of the later ones
    have hjoin : ∀ xs ys, Covers (txs.map RawTransaction.basket) (fun X =>
          HighUtility (txs.map RawTransaction.basket) ix.minUtil X ∧
            X = insert (ix.item i) P) xs →
        Covers (txs.map RawTransaction.basket)
          (Level (txs.map RawTransaction.basket) ix.minUtil P (es.map ix.item)) ys →
        Covers (txs.map RawTransaction.basket)
          (Level (txs.map RawTransaction.basket) ix.minUtil P ((i :: es).map ix.item))
            (xs ++ ys) := by
      intro xs ys hxs hys
      refine (hxs.append hys ?_).congr fun X => level_cons
      rintro X ⟨-, rfl⟩ ⟨-, z, hz, heq⟩
      have hmem : ix.item i ∈ insert z P := heq ▸ Finset.mem_insert_self _ P
      rcases Finset.mem_insert.mp hmem with hiz | hiP
      · exact (List.nodup_cons.mp hes.nodup).1 (hiz ▸ hz)
      · exact hy hiP
    unfold extend
    refine Task.Spec.bind_silent (Task.pin_spec hE (hix i (hes.lt i List.mem_cons_self))) ?_
    rintro v _ hv rfl
    rw [deserializeTxEntries_entriesAt h, intersectTids_eq h hy]
    have hwrite : Task.Spec E (writeIfHigh ix (itemset ++ [ix.item i])
          (nodesOf txs (itemset ++ [ix.item i]).toFinset)
          (utility (txs.map RawTransaction.basket) (itemset ++ [ix.item i]).toFinset)) v _ :=
      writeIfHigh_spec hnodup' (hset ▸ Finset.insert_nonempty _ P)
    rw [hset] at hwrite
    refine Task.Spec.bind hwrite ?_
    rintro out v₁ _ hv₁ hout
    have hw₁ : w ≤ v₁ := hv.trans hv₁
    split_ifs with hvalid
    · refine Task.Spec.bind (storeList_spec (hE.mono hw₁) _) ?_
      rintro _ v₂ list hv₂ ⟨rfl, hlist⟩
      have hw₂ : w ≤ v₂ := hw₁.trans hv₂
      refine Task.Spec.bind (ih (hE.mono hw₂) (hix.mono hw₂) hes.tail) ?_
      rintro out' v₃ rest hv₃ ⟨hout', hrest⟩
      refine Task.Spec.pure fun v₄ hv₄ => ⟨?_, ?_, ?_⟩
      · simpa using hjoin out out' hout hout'
      · have hpos : isValid txs ix.minUtil P (ix.item i) = true := decide_eq_true hvalid
        rw [List.map_cons, List.filter_cons_of_pos (by simpa using hpos), hrest.idxs]
      · intro p hp
        rcases List.mem_cons.mp hp with rfl | hp
        · exact hlist.mono (hv₃.trans hv₄)
        · exact (hrest.lists p hp).mono hv₄
    · refine (ih (hE.mono hw₁) (hix.mono hw₁) hes.tail).mono le_rfl ?_
      rintro out' v₃ rest ⟨hout', hrest⟩
      refine ⟨hjoin out out' hout hout', ?_, hrest.lists⟩
      have hneg : isValid txs ix.minUtil P (ix.item i) = false := decide_eq_false hvalid
      rw [List.filter_cons_of_neg (by simpa using hneg), hrest.idxs]

/-- The second loop writes what lies further down, if the recursive call writes
what lies below its itemset. -/
theorem recurse_spec (h : Rows txs ix.txTwus) (hE : Task.Allows E w) (hix : ix.Holds txs w)
    {descend : List ItemId → List ℕ → List DfsNode → Task Unit} {n : ℕ}
    (hdescend : ∀ P itemset es v, w ≤ v → es.length < n → Extends ix P es → itemset.Nodup →
      itemset.toFinset = P → ix.Holds txs v →
      Task.Spec E (descend itemset es (nodesOf txs P)) v fun out _ _ =>
        Covers (txs.map RawTransaction.basket)
          (Below (txs.map RawTransaction.basket) ix.minUtil P (es.map ix.item)) out)
    (hnodup : itemset.Nodup) (hitemset : itemset.toFinset = P) {valid : List (ℕ × NodeList)}
    (hes : Extends ix P (valid.map Prod.fst))
    (hlists : ∀ p ∈ valid, p.2.Holds w (nodesOf txs (insert (ix.item p.1) P)))
    (hlen : valid.length ≤ n) :
    Task.Spec E (recurse ix descend itemset valid) w fun out _ _ =>
      Covers (txs.map RawTransaction.basket) (Deeper (txs.map RawTransaction.basket) ix.minUtil P
        ((valid.map Prod.fst).map ix.item)) out := by
  induction valid generalizing w with
  | nil => exact Task.Spec.pure fun _ _ => Covers.nil fun X => not_deeper_nil
  | cons p valid ih =>
    obtain ⟨i, list⟩ := p
    rw [List.map_cons] at hes
    have hy : ix.item i ∉ P := hes.fresh _ List.mem_cons_self
    obtain ⟨hnodup', hset⟩ := append_item hnodup hitemset hy
    have hrest : Extends ix (insert (ix.item i) P) (valid.map Prod.fst) := by
      refine ⟨hes.tail.lt, fun y hyv => ?_, hes.tail.nodup⟩
      rw [Finset.mem_insert]
      rintro (rfl | hyP)
      · exact (List.nodup_cons.mp hes.nodup).1 hyv
      · exact hes.tail.fresh y hyv hyP
    rw [List.length_cons] at hlen
    unfold recurse
    refine Task.Spec.bind (resolve_spec h hE (hlists _ List.mem_cons_self)) ?_
    rintro _ v _ hv ⟨rfl, rfl⟩
    refine Task.Spec.bind (hdescend _ _ _ v hv (by rw [List.length_map]; omega) hrest hnodup' hset
      (hix.mono hv)) ?_
    rintro out v₁ _ hv₁ hout
    have hw₁ : w ≤ v₁ := hv.trans hv₁
    refine (ih (hE.mono hw₁) (hix.mono hw₁)
      (fun P itemset es v' hv' => hdescend P itemset es v' (hw₁.trans hv')) hes.tail
      (fun p hp => (hlists p (List.mem_cons_of_mem _ hp)).mono hw₁) (by omega)).mono le_rfl ?_
    rintro out' _ _ hout'
    have hfresh : ∀ z ∈ ix.item i :: (valid.map Prod.fst).map ix.item, z ∉ P := hes.fresh
    have hnotin : ∀ X, Deeper (txs.map RawTransaction.basket) ix.minUtil P
        ((valid.map Prod.fst).map ix.item) X → ix.item i ∉ X := by
      rintro X ⟨hX, -⟩ hiX
      rcases hX.within _ hiX with hiP | hiv
      · exact hy hiP
      · exact (List.nodup_cons.mp hes.nodup).1 hiv
    refine (hout.append hout' ?_).congr fun X => ?_
    · intro X hX hX'
      exact hnotin X hX' (hX.sub (Finset.mem_insert_self _ P))
    · rw [List.map_cons, List.map_cons, deeper_cons hfresh,
        and_iff_right_of_imp (hnotin X)]

/-- The search writes what lies below its itemset; one level has fewer
extensions than the one above it. -/
theorem dfs_spec (h : Rows txs ix.txTwus) (fuel : ℕ) (hE : Task.Allows E w)
    (hix : ix.Holds txs w) (hes : Extends ix P es) (hnodup : itemset.Nodup)
    (hitemset : itemset.toFinset = P) (hlen : es.length < fuel) :
    Task.Spec E (dfs ix fuel itemset es (nodesOf txs P)) w fun out _ _ =>
      Covers (txs.map RawTransaction.basket)
        (Below (txs.map RawTransaction.basket) ix.minUtil P (es.map ix.item)) out := by
  induction fuel generalizing P es itemset w with
  | zero => exact (Nat.not_lt_zero _ hlen).elim
  | succ fuel ih =>
    unfold dfs
    refine Task.Spec.bind (extend_spec h hE hix hes hnodup hitemset) ?_
    rintro out v valid hv ⟨hout, hkept⟩
    have hsub : List.Sublist (valid.map Prod.fst) es := hkept.idxs ▸ List.filter_sublist
    have hes' : Extends ix P (valid.map Prod.fst) :=
      ⟨fun i hi => hes.lt i (hsub.subset hi),
        fun y hy => hes.fresh y ((hsub.map ix.item).subset hy), hes.nodup.sublist (hsub.map _)⟩
    have hlen' : valid.length ≤ es.length := by simpa using hsub.length_le
    refine (recurse_spec h (hE.mono hv) (hix.mono hv) (n := fuel) ?_ hnodup hitemset hes'
      hkept.lists (by omega)).mono le_rfl ?_
    · intro P itemset es v' hv' hlt hes hnodup hitemset hix'
      exact ih (hE.mono (hv.trans hv')) hix' hes hnodup hitemset hlt
    · rintro out' _ _ hout'
      have hitems : (valid.map Prod.fst).map ix.item =
          (es.map ix.item).filter (isValid txs ix.minUtil P) := by
        rw [hkept.idxs, List.filter_map]
        rfl
      rw [hitems] at hout'
      refine (hout.append hout' fun X => not_deeper_of_level hes.fresh).congr fun X => ?_
      exact below_iff hes.fresh fun y _ hX hsub => isValid_of_highUtility h hX hsub

/-! ## The tasks -/

/-- The itemsets of the task of `y`, with `ys` the later items. -/
def Branch (B : List (Basket ItemId)) (minUtil : Utility) (y : ItemId) (ys : List ItemId)
    (X : Finset ItemId) : Prop :=
  HighUtility B minUtil X ∧ y ∈ X ∧ ∀ x ∈ X, x = y ∨ x ∈ ys

theorem branch_iff {B : List (Basket ItemId)} {minUtil : Utility} {y : ItemId} {ys : List ItemId}
    {X : Finset ItemId} :
    Branch B minUtil y ys X ↔
      (HighUtility B minUtil X ∧ X = {y}) ∨ Below B minUtil {y} ys X := by
  constructor
  · rintro ⟨hX, hy, hwithin⟩
    by_cases hone : X = {y}
    · exact Or.inl ⟨hX, hone⟩
    · refine Or.inr ⟨Finset.singleton_subset_iff.mpr hy, fun x hx => ?_, hone, hX⟩
      exact (hwithin x hx).imp_left Finset.mem_singleton.mpr
  · rintro (⟨hX, rfl⟩ | h)
    · exact ⟨hX, Finset.mem_singleton_self y, fun x hx => Or.inl (Finset.mem_singleton.mp hx)⟩
    · exact ⟨h.high, Finset.singleton_subset_iff.mp h.sub,
        fun x hx => (h.within x hx).imp_left Finset.mem_singleton.mp⟩

/-- The positions after `i`. -/
abbrev Index.later (ix : Index) (i : ℕ) : List ℕ :=
  List.range' (i + 1) (ix.orig.length - (i + 1))

theorem Index.mem_later {i j : ℕ} : j ∈ ix.later i ↔ i < j ∧ j < ix.orig.length := by
  rw [Index.later, List.mem_range'_1]
  omega

theorem Index.item_eq {i : ℕ} (hi : i < ix.orig.length) : ix.item i = ix.orig[i] := by
  simp [Index.item, List.getD_eq_getElem?_getD, hi]

theorem Index.item_inj (hnodup : ix.orig.Nodup) {i j : ℕ} (hi : i < ix.orig.length)
    (hj : j < ix.orig.length) (h : ix.item i = ix.item j) : i = j := by
  rw [Index.item_eq hi, Index.item_eq hj] at h
  exact hnodup.getElem_inj_iff.mp h

theorem extends_later (hnodup : ix.orig.Nodup) {i : ℕ} (hi : i < ix.orig.length) :
    Extends ix {ix.item i} (ix.later i) where
  lt j hj := (Index.mem_later.mp hj).2
  fresh y hy := by
    obtain ⟨j, hj, rfl⟩ := List.mem_map.mp hy
    obtain ⟨hij, hj⟩ := Index.mem_later.mp hj
    rw [Finset.mem_singleton]
    intro heq
    exact hij.ne' (Index.item_inj hnodup hj hi heq)
  nodup := by
    refine List.Nodup.map_on (fun j hj j' hj' heq => ?_) List.nodup_range'
    exact Index.item_inj hnodup (Index.mem_later.mp hj).2 (Index.mem_later.mp hj').2 heq

theorem map_entriesAt (txs : List RawTransaction) (y : ItemId) :
    (entriesAt txs y).map (fun e => DfsNode.mk e.txIdx e.util) = nodesOf txs {y} := by
  rw [entriesAt, List.map_map]
  rfl

theorem sum_nodesOf (txs : List RawTransaction) (P : Finset ItemId) :
    ((nodesOf txs P).map DfsNode.utilPrefix).sum = utility (txs.map RawTransaction.basket) P := by
  rw [nodesOf, List.map_map, utility_map]
  rfl

theorem writeSingle_spec {y : ItemId} (hocc : Occurs (txs.map RawTransaction.basket) {y}) :
    Task.Spec E (writeSingle ix [y] (utility (txs.map RawTransaction.basket) {y})) w
      fun out _ _ => Covers (txs.map RawTransaction.basket) (fun X =>
        HighUtility (txs.map RawTransaction.basket) ix.minUtil X ∧ X = {y}) out := by
  unfold writeSingle
  split_ifs with hhigh
  · refine (Task.writeAndCount_spec _ _).mono le_rfl ?_
    rintro _ v _ rfl
    refine Covers.line (List.nodup_singleton y) (by simp) fun X => ?_
    rw [List.toFinset_cons, List.toFinset_nil, insert_empty_eq]
    refine and_iff_right_of_imp ?_
    rintro rfl
    exact ⟨Finset.singleton_nonempty y, hocc, hhigh⟩
  · refine Task.Spec.pure fun _ _ => Covers.nil ?_
    rintro X ⟨hX, rfl⟩
    exact hhigh hX.le

/-- The task of an item writes its branch, if the pool does not fail. -/
theorem itemTask_spec (h : Rows txs ix.txTwus) (hpool : Task.Allows (fun _ => False) w)
    (hix : ix.Holds txs w) (hnodup : ix.orig.Nodup) {i : ℕ} (hi : i < ix.orig.length)
    (hocc : Occurs (txs.map RawTransaction.basket) {ix.item i}) :
    Task.Spec E (itemTask ix i) w fun out _ _ => Covers (txs.map RawTransaction.basket)
      (Branch (txs.map RawTransaction.basket) ix.minUtil (ix.item i)
        ((ix.later i).map ix.item)) out := by
  have hpin : Task.Spec (fun _ => False) (do
      let bytes ← Task.pin (ix.vertDbPages.getD i 0)
      return (deserializeTxEntries bytes).map fun e => DfsNode.mk e.txIdx e.util) w
      fun out _ nodes => out = [] ∧ nodes = nodesOf txs {ix.item i} := by
    refine Task.Spec.bind_silent (Task.pin_spec hpool (hix i hi)) ?_
    rintro v _ _ rfl
    refine Task.Spec.pure fun _ _ => ⟨rfl, ?_⟩
    rw [deserializeTxEntries_entriesAt h, map_entriesAt]
  unfold itemTask
  refine Task.Spec.bind_silent (Task.Spec.okOr hpin) ?_
  rintro v _ hv rfl
  rw [sum_nodesOf]
  refine Task.Spec.bind (writeSingle_spec hocc) ?_
  rintro out v₁ _ hv₁ hout
  have hw₁ : w ≤ v₁ := hv.trans hv₁
  have hdfs := dfs_spec h ((ix.later i).length + 1) (hpool.mono hw₁) (hix.mono hw₁)
    (extends_later hnodup hi) (List.nodup_singleton (ix.item i)) (by simp) (Nat.lt_succ_self _)
  refine (Task.Spec.okOr hdfs).mono le_rfl ?_
  rintro out' _ _ hout'
  refine (hout.append hout' ?_).congr fun X => branch_iff
  rintro X ⟨-, rfl⟩ hX
  exact hX.ne rfl

end Search

/-! ## The branches -/

section Branches

variable {B : List (Basket ItemId)} {ix : Index}

/-- The branches of the items, in the order of the index. -/
def branches (B : List (Basket ItemId)) (ix : Index) : List (Finset ItemId → Prop) :=
  (List.range ix.orig.length).map fun i =>
    Branch B ix.minUtil (ix.item i) ((ix.later i).map ix.item)

theorem branches_disjoint (hnodup : ix.orig.Nodup) :
    (branches B ix).Pairwise fun R R' => ∀ X, R X → ¬ R' X := by
  rw [branches, List.pairwise_map]
  refine (List.pairwise_lt_range.imp_of_mem ?_)
  rintro i j hi hj hij X ⟨-, hmem, -⟩ ⟨-, -, hwithin⟩
  rw [List.mem_range] at hi hj
  rcases hwithin _ hmem with heq | hlater
  · exact hij.ne (Index.item_inj hnodup hi hj heq)
  · obtain ⟨j', hj', heq⟩ := List.mem_map.mp hlater
    obtain ⟨hjj', hj'⟩ := Index.mem_later.mp hj'
    exact (hij.trans hjj').ne' (Index.item_inj hnodup hj' hi heq)

/-- Every high-utility itemset over the items is in the branch of the first of
its items. -/
theorem exists_branches {X : Finset ItemId} :
    (∃ R ∈ branches B ix, R X) ↔ HighUtility B ix.minUtil X ∧ ∀ x ∈ X, x ∈ ix.orig := by
  have hitem : ∀ j < ix.orig.length, ix.item j ∈ ix.orig := by
    intro j hj
    rw [Index.item_eq hj]
    exact List.getElem_mem hj
  have hindex : ∀ x ∈ ix.orig, ∃ j < ix.orig.length, ix.item j = x := by
    intro x hx
    obtain ⟨j, hj, rfl⟩ := List.getElem_of_mem hx
    exact ⟨j, hj, Index.item_eq hj⟩
  constructor
  · rintro ⟨R, hR, hX⟩
    obtain ⟨i, hi, rfl⟩ := List.mem_map.mp hR
    obtain ⟨hhigh, -, hwithin⟩ := hX
    refine ⟨hhigh, fun x hx => ?_⟩
    rcases hwithin x hx with rfl | hlater
    · exact hitem i (List.mem_range.mp hi)
    · obtain ⟨j, hj, rfl⟩ := List.mem_map.mp hlater
      exact hitem j (Index.mem_later.mp hj).2
  · rintro ⟨hhigh, hsub⟩
    have hfirst : ∃ i, i < ix.orig.length ∧ ix.item i ∈ X := by
      obtain ⟨x, hx⟩ := hhigh.nonempty
      obtain ⟨j, hj, rfl⟩ := hindex x (hsub x hx)
      exact ⟨j, hj, hx⟩
    classical
    obtain ⟨hi, hiX⟩ := Nat.find_spec hfirst
    refine ⟨_, List.mem_map_of_mem (List.mem_range.mpr hi), hhigh, hiX, fun x hx => ?_⟩
    obtain ⟨j, hj, rfl⟩ := hindex x (hsub x hx)
    rcases (Nat.find_min' hfirst ⟨hj, hx⟩).eq_or_lt with heq | hlt
    · exact Or.inl (by rw [heq])
    · exact Or.inr (List.mem_map_of_mem (Index.mem_later.mpr ⟨hlt, hj⟩))

end Branches

/-! ## The run -/

section Run

variable {db : List SpmfRow} (ctx : MiningContext)

/-- The valid items are those that the filter lets pass. -/
theorem mem_validItems {txs : List RawTransaction} (h : ∀ tx ∈ txs, tx.WellFormed)
    (minUtility : Utility) (x : ItemId) :
    x ∈ validItems minUtility txs ↔
      Occurs (txs.map RawTransaction.basket) {x} ∧ minUtility ≤ twuOf txs {x} := by
  rw [← passes_compute h, TwuFilterResult.passes, decide_eq_true_iff, validItems, mem_sortByKey,
    AList.mem_keys]
  rfl

theorem nodup_validItems (minUtility : Utility) (txs : List RawTransaction) :
    (validItems minUtility txs).Nodup :=
  (sortByKey_perm _ _).nodup_iff.mpr (AList.keys_nodup _)

/-- The index that the tasks of a run read. -/
def indexOf (ctx : MiningContext) (db : List SpmfRow) (pages : List PageId) : Index :=
  ⟨pages, (numbered 0 db).map RawTransaction.transactionUtility, ctx.minUtility,
    validItems ctx.minUtility (numbered 0 db)⟩

/-- The pages of the index, and the world after them. -/
def builtIndex (ctx : MiningContext) (db : List SpmfRow) : Except Fault (List PageId × World) :=
  insertPages (vertDb (validItems ctx.minUtility (numbered 0 db)) 0 (numbered 0 db)
    ((validItems ctx.minUtility (numbered 0 db)).map fun _ => [])) ctx.world

theorem run_map_ok (db : List SpmfRow) (hlen : db.length < 2 ^ 32) {pages : List PageId}
    {w : World} (hbuilt : builtIndex ctx db = .ok (pages, w))
    (hguard : (w.guard.tryAlloc (db.length * 8)).1 = true) :
    run (db.map .ok) ctx = (executeTasks ctx
      { w with guard := (w.guard.tryAlloc (db.length * 8)).2 }
      ((List.range (indexOf ctx db pages).orig.length).map (itemTask (indexOf ctx db pages)))).map
      fun w => (w.huisFound, { w with guard := w.guard.free (db.length * 8) }) := by
  unfold builtIndex at hbuilt
  simp only [run, readDb_map_ok, if_pos hlen]
  change Except.bind ((List.map Except.ok (numbered 0 db)).mapM id) _ = _
  rw [mapM_id_map_ok]
  simp only [Except.bind, bind, hbuilt, List.length_map, length_numbered, hguard, if_true]
  unfold indexOf
  cases executeTasks ctx _ _ <;> rfl

theorem getD_of_forall₂ {α β : Type*} {R : α → β → Prop} {as : List α} {bs : List β}
    (h : List.Forall₂ R as bs) (a : α) {i : ℕ} (hi : i < bs.length) : R (as.getD i a) bs[i] := by
  have hi' : i < as.length := h.length_eq ▸ hi
  have := (List.forall₂_iff_get.mp h).2 i hi' hi
  simpa [List.getD_eq_getElem?_getD, hi'] using this

/-- What a run writes. -/
theorem run_spec (hwf : ∀ row ∈ db, row.WellFormed)
    (hpool : ∀ n, ctx.world.pool.fails n = false)
    (hguard : (ctx.world.guard.tryAlloc (db.length * 8)).1 = true) (hlen : db.length < 2 ^ 32) :
    ∃ w lines, run (db.map .ok) ctx = .ok (w.huisFound, w) ∧ w.lines.Perm lines ∧
      ExactOutput db ctx.minUtility lines := by
  have hrows := rows_numbered hwf hlen
  have hnodup := nodup_validItems ctx.minUtility (numbered 0 db)
  obtain ⟨pages, w, hbuilt, hle, hguard', hfound, hpages⟩ := insertPages_spec
    (vertDb (validItems ctx.minUtility (numbered 0 db)) 0 (numbered 0 db)
      ((validItems ctx.minUtility (numbered 0 db)).map fun _ => [])) hpool
  rw [vertDb_eq hnodup hwf] at hpages
  rw [run_map_ok ctx db hlen hbuilt (hguard' ▸ hguard)]
  set ix := indexOf ctx db pages with hix
  have hholds : ix.Holds (numbered 0 db) w := by
    intro i hi
    have := getD_of_forall₂ hpages 0 (i := i) (by rwa [List.length_map])
    rw [List.getElem_map] at this
    rw [Index.item_eq hi]
    exact this
  have hvalid : ∀ x, x ∈ ix.orig ↔
      Occurs ((numbered 0 db).map RawTransaction.basket) {x} ∧
        ctx.minUtility ≤ twuOf (numbered 0 db) {x} :=
    mem_validItems hrows.wellFormed ctx.minUtility
  have hallows : Task.Allows (fun _ => False) w := by
    intro n hn
    rw [hle.fails, hpool n] at hn
    cases hn
  have htasks : List.Forall₂ (fun t R => Task.Spec (fun _ => False) t
        { w with guard := (w.guard.tryAlloc (db.length * 8)).2, lines := [] }
        fun out _ _ => Covers ((numbered 0 db).map RawTransaction.basket) R out)
      ((List.range ix.orig.length).map (itemTask ix))
      (branches ((numbered 0 db).map RawTransaction.basket) ix) := by
    rw [branches, List.forall₂_map_left_iff, List.forall₂_map_right_iff]
    refine List.forall₂_same.mpr fun i hi => ?_
    rw [List.mem_range] at hi
    have hocc := ((hvalid _).mp (Index.item_eq hi ▸ List.getElem_mem hi)).1
    exact itemTask_spec (w := { w with guard := (w.guard.tryAlloc (db.length * 8)).2, lines := [] })
      hrows hallows hholds hnodup hi hocc
  rcases executeTasks_covers ctx { w with guard := (w.guard.tryAlloc (db.length * 8)).2 } htasks
      (branches_disjoint hnodup) with ⟨e, he, -⟩ | ⟨w', lines, hrun, hperm, -, hlists⟩
  · exact he.elim
  · rw [hrun]
    refine ⟨{ w' with guard := w'.guard.free (db.length * 8) }, lines, rfl, hperm, ?_⟩
    rw [ExactOutput, ← map_basket_numbered 0 db]
    refine hlists.mono (fun X hX => exists_branches.mpr ⟨hX, fun x hx => ?_⟩) ?_
    · have hsub : {x} ⊆ X := Finset.singleton_subset_iff.mpr hx
      exact (hvalid x).mpr ⟨hX.occurs.mono hsub,
        hX.le.trans (utility_le_twuOf hrows.wellFormed hsub)⟩
    · rintro l - ⟨hnodup, hu, hl⟩
      exact ⟨hnodup, (exists_branches.mp hl).1, hu⟩

/-- Two-Phase is exact when the weights of the transactions are admitted. The
first part says that a run on a database whose tids are `u32` does return. -/
theorem exact_of_admitted (hwf : ∀ row ∈ db, row.WellFormed)
    (hpool : ∀ n, ctx.world.pool.fails n = false)
    (hguard : (ctx.world.guard.tryAlloc (db.length * 8)).1 = true) :
    (db.length < 2 ^ 32 → ∃ result, run (db.map .ok) ctx = .ok result) ∧
      ∀ count w, run (db.map .ok) ctx = .ok (count, w) → ExactOutput db ctx.minUtility w.lines := by
  constructor
  · intro hlen
    obtain ⟨w, _, hrun, -⟩ := run_spec ctx hwf hpool hguard hlen
    exact ⟨_, hrun⟩
  · intro count w hrun
    have hlen := length_lt_of_readDb hrun
    obtain ⟨w', lines, hrun', hperm, hexact⟩ := run_spec ctx hwf hpool hguard hlen
    rw [hrun'] at hrun
    obtain ⟨-, rfl⟩ := Prod.mk.inj (Except.ok.inj hrun)
    exact hexact.perm hperm.symm

theorem exact_of_admitted_tinyDb :
    ∃ result, run (tinyDb.map .ok) (createCtx 45 none 1073741824) = .ok result ∧
      ExactOutput tinyDb 45 result.2.lines := by
  have hwf : ∀ row ∈ tinyDb, row.WellFormed := by decide
  obtain ⟨hreturns, hexact⟩ :=
    exact_of_admitted (createCtx 45 none 1073741824) hwf (fun _ => rfl) (by decide)
  obtain ⟨result, hrun⟩ := hreturns (by decide)
  exact ⟨result, hrun, hexact result.1 result.2 hrun⟩

end Run

end TwoPhase

end AirHuim
