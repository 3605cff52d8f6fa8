import AirHuim.Mining.CheckedRuns
import AirHuim.Mining.CheckedSums
import AirHuim.Mining.PatternGrowth
import AirHuim.Mining.ReliableArena

/-!
# Prefix trees with overflow checks

Insertions into a tree in a build that ends with an alarm where the weight of a node
leaves the range of `i64`, and a check of a whole tree: that the nodes of one item
weigh no more than the database. Counters that are only raised stay in range if they
are in the end, and in a tree the nodes of one item weigh what its counters say.
-/

namespace AirHuim

open Library NodeArena

/-- How a run with checks ends if it does not return: with a fault of the run, where a
sum of utilities leaves the range of `i64`, or where a tree weighs too much. -/
inductive Alarm
  | fault (e : Fault)
  | overflow
  | overweight
  deriving DecidableEq, Repr

abbrev CheckedM := StateT NodeArena (Except Alarm)

instance : MonadLift ArenaM CheckedM := ⟨wrapErrors Alarm.fault⟩

/-- The alarms of checked sums. -/
def alarmed {α : Type} (x : Except Fault α) : Except Alarm α := x.mapError fun _ => .overflow

/-- `child_node.nu += nu`, with a check. -/
def bumpChildChecked (item : ItemId) (weight : Utility) : ℕ → ℕ → CheckedM (Option ℕ)
  | 0, _ => throw (.fault .stuck)
  | fuel + 1, childPtr =>
      if childPtr = nullPtr then return none
      else do
        let childNode ← getNode childPtr
        if childNode.item = item then do
          let weight ← alarmed (checkI64 (childNode.weight + weight))
          setNode childPtr { childNode with weight }
          return some childPtr
        else bumpChildChecked item weight fuel childNode.nextSibling

section Definitions

variable {H : Type} (attach : H → ℕ → ItemId → Utility → ArenaM (ℕ × H))

def insertPathChecked : H → ℕ → List (ItemId × Utility) → CheckedM H
  | header, _, [] => return header
  | header, current, (item, weight) :: rest => do
      let currNode ← getNode current
      let a ← get
      let found ← bumpChildChecked item weight a.nextNodePtr currNode.firstChild
      match found with
      | some child => insertPathChecked header child rest
      | none => do
          let (newChild, header) ← attach header current item weight
          insertPathChecked header newChild rest

def insertAllChecked (root : ℕ) : H → List (List (ItemId × Utility)) → CheckedM H
  | header, [] => return header
  | header, path :: paths => do
      let header ← insertPathChecked attach header root path
      insertAllChecked root header paths

end Definitions

/-- The nodes of the tree that was built last: all after its root. -/
def treeNodes (a : NodeArena) (root : ℕ) : List TreeNode :=
  (List.range (a.nextNodePtr - (root + 1))).filterMap fun i => a.node? (root + 1 + i)

/-- The sum of `nu` over the nodes of one item. -/
def nuOf (nodes : List TreeNode) (item : ItemId) : Utility :=
  ((nodes.filter fun n => n.item = item).map TreeNode.weight).sum

/-- That no item of the tree weighs more than `total`. It looks at the nodes without
an access to the store. -/
def checkTree (total : Utility) (root : ℕ) : CheckedM Unit := do
  let a ← get
  if ∀ n ∈ treeNodes a root, nuOf (treeNodes a root) n.item ≤ total then return ()
  else throw .overweight

section Insertion

variable {a : NodeArena} {ns : List TreeNode} {root : ℕ} {T : Trie} {q : List ItemId} {x : ItemId}
  {w : Utility}

theorem alarmed_ok {α : Type} {x : Except Fault α} {v : α} (h : x = .ok v) (a : NodeArena) :
    (liftM (alarmed x) : CheckedM α) a = .ok (v, a) := by
  rw [h]
  rfl

/-- Searching a list of children in which the sums are in range. -/
theorem silent_bumpChild (ha : a.reliable.Holds ns) {ps : List ℕ} {start : ℕ}
    (hlinked : Linked ns TreeNode.nextSibling start ps)
    (hfits : ∀ p ∈ ps, ∀ n, ns[p]? = some n → n.item = x → FitsI64 (n.weight + w)) (fuel : ℕ) :
    Silent .fault (bumpChildChecked x w fuel start) (bumpChild x w fuel start) a := by
  induction ps generalizing start fuel a with
  | nil =>
    have hstart : start = nullPtr := hlinked
    cases fuel with
    | zero => exact Silent.throw _ a
    | succ fuel =>
      unfold bumpChildChecked bumpChild
      rw [if_pos hstart, if_pos hstart]
      exact Silent.pure none a
  | cons p ps ih =>
    obtain ⟨rfl, n, hn, hrest⟩ := hlinked
    cases fuel with
    | zero => exact Silent.throw _ a
    | succ fuel =>
      unfold bumpChildChecked bumpChild
      split_ifs with hnull
      · exact Silent.pure none a
      · refine Silent.bind_of_runs rfl (steady_getNode _)
          (getNode_spec (E := OutOfPointers) ha hn) ?_
        rintro childNode a₁ ⟨rfl, ha₁⟩
        split_ifs with hitem
        · have hsum : checkI64 (childNode.weight + w) = .ok (childNode.weight + w) :=
            if_pos (hfits start List.mem_cons_self childNode hn hitem)
          refine Silent.check_bind (alarmed_ok hsum a₁) ?_
          exact Silent.bind rfl fun _ a₂ _ => Silent.pure _ a₂
        · exact ih ha₁ hrest (fun p hp => hfits p (List.mem_cons_of_mem _ hp)) fuel

/-- The counter of a child that was found is the sum that is checked. -/
theorem mem_tallyAdd_of_node (h : IsTree ns root T) (hk : x :: q ∈ T.map Prod.fst) {m : TreeNode}
    (hm : ns[ptrOf root (T.map Prod.fst) (x :: q)]? = some m) :
    (x :: q, m.weight + w) ∈ tallyAdd (x :: q) w T := by
  have hkeys : (tallyAdd (x :: q) w T).map Prod.fst = T.map Prod.fst := by
    rw [keys_tallyAdd, if_pos hk]
  obtain ⟨e, he, heq⟩ := List.mem_map.mp (hkeys.symm ▸ hk)
  obtain ⟨n, hn, -, hweight, -⟩ := (h.bump hk hm w).node e he x q heq
  rw [hkeys, heq, List.getElem?_set_self (List.getElem?_eq_some_iff.mp hm).1] at hn
  have hsum : m.weight + w = e.2 := by
    rw [← hweight, ← Option.some.inj hn]
  have hcounter : (x :: q, m.weight + w) = e := Prod.ext heq.symm hsum
  rwa [hcounter]

/-- The sum in a child is in range if the counters are afterwards. -/
theorem fitsI64_child (h : IsTree ns root T) (hfits : ∀ e ∈ tallyAdd (x :: q) w T, FitsI64 e.2)
    {p : ℕ} (hp : p ∈ (ptrsOf root (T.map Prod.fst) fun k => k.tail = q).reverse) {m : TreeNode}
    (hm : ns[p]? = some m) (hmx : m.item = x) : FitsI64 (m.weight + w) := by
  obtain ⟨hk, rfl⟩ := h.of_child hp hm hmx
  exact hfits _ (mem_tallyAdd_of_node h hk hm)

/-- The counters are in range after each of the additions. -/
def PartsFit (T adds : Trie) : Prop := ∀ part, part <+: adds → ∀ e ∈ tally T part, FitsI64 e.2

section PartsFit

variable {adds adds' : Trie} {k : List ItemId}

theorem PartsFit.now (h : PartsFit T ((k, w) :: adds)) : ∀ e ∈ tallyAdd k w T, FitsI64 e.2 :=
  h [(k, w)] ((List.prefix_cons_inj _).mpr List.nil_prefix)

theorem PartsFit.tail (h : PartsFit T ((k, w) :: adds)) : PartsFit (tallyAdd k w T) adds :=
  fun part hpart => h ((k, w) :: part) ((List.prefix_cons_inj _).mpr hpart)

theorem PartsFit.left (h : PartsFit T (adds ++ adds')) : PartsFit T adds :=
  fun part hpart => h part (hpart.trans (List.prefix_append adds adds'))

theorem PartsFit.right (h : PartsFit T (adds ++ adds')) : PartsFit (tally T adds) adds' := by
  intro part hpart
  rw [← tally_append]
  exact h _ ((List.prefix_append_right_inj adds).mpr hpart)

/-- What is only raised is in range at every moment if it is in the end. -/
theorem partsFit_of_nonneg (hT : ∀ e ∈ T, 0 ≤ e.2) (hadds : ∀ e ∈ adds, 0 ≤ e.2)
    (hfits : ∀ e ∈ tally T adds, e.2 < 2 ^ 63) : PartsFit T adds := by
  rintro part ⟨rest, rfl⟩ e he
  obtain ⟨hpart, hrest⟩ := List.forall_mem_append.mp hadds
  obtain ⟨e', he', -, hle⟩ := exists_le_of_mem_tally hrest he
  rw [← tally_append] at he'
  exact ⟨le_trans (by decide) (nonneg_tally hT hpart e he), hle.trans_lt (hfits e' he')⟩

end PartsFit

variable {H : Type} {attach : H → ℕ → ItemId → Utility → ArenaM (ℕ × H)}
  {links : List TreeNode → ℕ → List (List ItemId) → H → Prop} {known : H → ItemId → Prop}
  {header : H}

theorem nonneg_pathAdds {path : List (ItemId × Utility)} (h : ∀ e ∈ path, 0 ≤ e.2) :
    ∀ e ∈ pathAdds q path, 0 ≤ e.2 := by
  intro e he
  obtain ⟨e', he', heq⟩ := weight_of_mem_pathAdds he
  exact heq ▸ h e' he'

/-- Inserting a path, if all counters are in range on the way. -/
theorem silent_insertPath (hA : Attaches attach links known)
    (hattach : ∀ header current item weight, Steady reliable (attach header current item weight))
    (ha : a.reliable.Holds ns) (h : IsTree ns root T)
    (hlinks : links ns root (T.map Prod.fst) header)
    (hq : OnTree (T.map Prod.fst) q) {path : List (ItemId × Utility)}
    (hknown : ∀ e ∈ path, known header e.1) (hfits : PartsFit T (pathAdds q path)) :
    Silent .fault (insertPathChecked attach header (ptrOf root (T.map Prod.fst) q) path)
      (insertPath attach header (ptrOf root (T.map Prod.fst) q) path) a := by
  induction path generalizing a ns T q header with
  | nil => exact Silent.pure header a
  | cons e path ih =>
    obtain ⟨x, w⟩ := e
    rw [pathAdds] at hfits
    have hrest : ∀ header' a', Inserted links known ns root header (tallyAdd (x :: q) w T)
        header' a'.reliable → Silent .fault
          (insertPathChecked attach header' (ptrOf root
            ((tallyAdd (x :: q) w T).map Prod.fst) (x :: q)) path)
          (insertPath attach header' (ptrOf root
            ((tallyAdd (x :: q) w T).map Prod.fst) (x :: q)) path) a' := by
      rintro header' a' ⟨ns', ha', htree, hlinks', -, hsame⟩
      exact ih ha' htree hlinks' (onTree_tallyAdd _ w T)
        (fun e he => (hsame e.1).mpr (hknown e (List.mem_cons_of_mem _ he))) hfits.tail
    obtain ⟨n, hn, hlinked⟩ := h.children q hq
    unfold insertPathChecked insertPath
    refine Silent.bind_of_runs rfl (steady_getNode _)
      (getNode_spec (E := OutOfPointers) ha hn) ?_
    rintro currNode a₁ ⟨rfl, ha₁⟩
    refine Silent.get_bind ?_
    refine Silent.bind_of_runs (silent_bumpChild ha₁ hlinked
      (fun p hp m hm hmx => fitsI64_child h hfits.now hp hm hmx) _) (steady_bumpChild _ _ _ _)
      (bumpChild_spec (E := OutOfPointers) ha₁ h hq hn w) ?_
    rintro found a₂ (⟨rfl, ha₂, hnew⟩ | ⟨hk, rfl, m, hm, ha₂⟩)
    · refine Silent.bind_of_runs rfl (hattach _ _ _ _)
        (inserted_attach (hA.upTo (E := OutOfPointers) fun _ => rfl) ha₂ h hlinks hq hnew
          (hknown _ List.mem_cons_self) (Nat.lt_succ_self _) w) ?_
      rintro ⟨_, header'⟩ a₃ ⟨rfl, hinserted⟩
      exact hrest header' a₃ hinserted
    · have hkeys : (tallyAdd (x :: q) w T).map Prod.fst = T.map Prod.fst := by
        rw [keys_tallyAdd, if_pos hk]
      have hbumped := hrest header a₂
        (inserted_bump (hA.upTo (E := OutOfPointers) (M := 0) fun _ => rfl) h hlinks hk hm ha₂)
      rw [hkeys] at hbumped
      exact hbumped

theorem silent_insertAll (hA : Attaches attach links known)
    (hattach : ∀ header current item weight, Steady reliable (attach header current item weight))
    (ha : a.reliable.Holds ns) (h : IsTree ns root T)
    (hlinks : links ns root (T.map Prod.fst) header)
    {paths : List (List (ItemId × Utility))}
    (hknown : ∀ path ∈ paths, ∀ e ∈ path, known header e.1)
    (hfits : PartsFit T (paths.flatMap (pathAdds []))) :
    Silent .fault (insertAllChecked attach root header paths) (insertAll attach root header paths)
      a := by
  induction paths generalizing a ns T header with
  | nil => exact Silent.pure header a
  | cons path paths ih =>
    rw [List.flatMap_cons] at hfits
    have hpath := silent_insertPath (q := []) hA hattach ha h hlinks (Or.inl rfl)
      (hknown path List.mem_cons_self) hfits.left
    have hruns := insertPath_runs (q := []) (hA.upTo (E := OutOfPointers) fun _ => rfl) ha h
      hlinks (Or.inl rfl) (hknown path List.mem_cons_self) le_rfl
    rw [ptrOf_nil] at hpath hruns
    unfold insertAllChecked insertAll
    refine Silent.bind_of_runs hpath (steady_insertPath hattach _ _ _) hruns ?_
    rintro header' a₁ ⟨ns', ha₁, htree, hlinks', -, hsame⟩
    exact ih ha₁ htree hlinks'
      (fun path' hp e he => (hsame e.1).mpr (hknown path' (List.mem_cons_of_mem _ hp) e he))
      hfits.right

end Insertion

/-! ## Insertions of which nothing is known -/

section Watchful

theorem alarmed_yields {α : Type} {x : Except Fault α} {v : α} (h : Yields x v) (a : NodeArena) :
    (liftM (alarmed x) : CheckedM α) a = .ok (v, a) ∨
      (liftM (alarmed x) : CheckedM α) a = .error .overflow := by
  rcases h with rfl | ⟨rfl, -⟩
  · exact Or.inl rfl
  · exact Or.inr rfl

theorem watchful_bumpChild (item : ItemId) (weight : Utility) (fuel childPtr : ℕ) (a : NodeArena) :
    Watchful .fault .overflow (bumpChildChecked item weight fuel childPtr)
      (bumpChild item weight fuel childPtr) a := by
  induction fuel generalizing childPtr a with
  | zero => exact Or.inl (Silent.throw _ a)
  | succ fuel ih =>
    unfold bumpChildChecked bumpChild
    split_ifs with hnull
    · exact Or.inl (Silent.pure none a)
    · refine Watchful.bind (Or.inl rfl) fun childNode a₁ _ => ?_
      split_ifs with hitem
      · refine Watchful.check_bind (alarmed_yields (yields_checkI64 _) a₁) ?_
        exact Watchful.bind (Or.inl rfl) fun _ a₂ _ => Or.inl (Silent.pure _ a₂)
      · exact ih childNode.nextSibling a₁

theorem watchful_insertPath {H : Type} (attach : H → ℕ → ItemId → Utility → ArenaM (ℕ × H))
    (path : List (ItemId × Utility)) (header : H) (current : ℕ) (a : NodeArena) :
    Watchful .fault .overflow (insertPathChecked attach header current path)
      (insertPath attach header current path) a := by
  induction path generalizing header current a with
  | nil => exact Or.inl (Silent.pure header a)
  | cons e path ih =>
    obtain ⟨x, w⟩ := e
    unfold insertPathChecked insertPath
    refine Watchful.bind (Or.inl rfl) fun currNode a₁ _ => ?_
    refine Watchful.get_bind ?_
    refine Watchful.bind (watchful_bumpChild x w _ _ a₁) fun found a₂ _ => ?_
    cases found with
    | some child => exact ih header child a₂
    | none => exact Watchful.bind (Or.inl rfl) fun r a₃ _ => ih r.2 r.1 a₃

theorem watchful_insertAll {H : Type} (attach : H → ℕ → ItemId → Utility → ArenaM (ℕ × H))
    (root : ℕ) (paths : List (List (ItemId × Utility))) (header : H) (a : NodeArena) :
    Watchful .fault .overflow (insertAllChecked attach root header paths)
      (insertAll attach root header paths) a := by
  induction paths generalizing header a with
  | nil => exact Or.inl (Silent.pure header a)
  | cons path paths ih =>
    unfold insertAllChecked insertAll
    exact (watchful_insertPath attach path header root a).bind fun header' a₁ _ => ih header' a₁

end Watchful

/-! ## What a tree weighs -/

/-- The counters of one item are at most `bound` together. -/
def Light (bound : Utility) (T : Trie) : Prop :=
  ∀ x, mass (fun k => k.head? = some x) T ≤ bound

section Weight

variable {a : NodeArena} {ns : List TreeNode} {root : ℕ} {T : Trie} {x : ItemId}
  {bound : Utility}

theorem mass_head (x : ItemId) (T : Trie) :
    mass (fun k => k.head? = some x) T = mass (Reaches x ∅) T := by
  rw [mass_eq_sum, mass_eq_sum]
  congr 1
  apply List.map_congr_left
  intro e _
  exact if_congr (by simp [Reaches]) rfl rfl

theorem Light.counter_le (h : Light bound T) (hT : ∀ e ∈ T, 0 ≤ e.2) {e : List ItemId × Utility}
    (he : e ∈ T) (hkey : e.1.head? = some x) : e.2 ≤ bound :=
  (le_mass_of_mem hT he hkey).trans (h x)

/-- A tree of paths, of which each gives every item a share of `bound`. -/
theorem light_of_paths {ρ : Type} {rows : List ρ} {path : ρ → List (ItemId × Utility)}
    {f : ρ → Utility}
    (hf : ∀ r ∈ rows, ∀ x, mass (Reaches x ∅) (pathAdds [] (path r)) ≤ f r)
    (hsum : (rows.map f).sum ≤ bound) :
    Light bound (tally [] (rows.flatMap fun r => pathAdds [] (path r))) := by
  intro x
  have hle : (rows.map fun r => mass (Reaches x ∅) (pathAdds [] (path r))).sum ≤
      (rows.map f).sum := List.sum_le_sum fun r hr => hf r hr x
  rw [mass_head, mass_tally, mass_flatMap]
  exact (zero_add _).trans_le (hle.trans hsum)

theorem filterMap_getElem?_range {α : Type} (l : List α) :
    (List.range l.length).filterMap (fun i => l[i]?) = l := by
  induction l with
  | nil => rfl
  | cons a l ih =>
    rw [List.length_cons, List.range_succ_eq_map, List.filterMap_cons, List.filterMap_map]
    exact congrArg (a :: ·) ih

theorem treeNodes_eq (ha : a.Holds ns) (root : ℕ) : treeNodes a root = ns.drop (root + 1) := by
  have hget : ∀ i ∈ List.range (a.nextNodePtr - (root + 1)),
      a.node? (root + 1 + i) = (ns.drop (root + 1))[i]? := by
    intro i hi
    have hlt : root + 1 + i < ns.length := by
      have := List.mem_range.mp hi
      rw [ha.next] at this
      omega
    rw [List.getElem?_drop, List.getElem?_eq_getElem hlt]
    exact ha.nodes _ _ (List.getElem?_eq_getElem hlt)
  rw [treeNodes, List.filterMap_congr hget, ha.next, ← List.length_drop]
  exact filterMap_getElem?_range _

/-- The nodes after the root are the counters, in their order. -/
theorem forall₂_nodes (h : IsTree ns root T) :
    List.Forall₂ (fun (n : TreeNode) e => e.1.head? = some n.item ∧ n.weight = e.2)
      (ns.drop (root + 1)) T := by
  have hlen : (ns.drop (root + 1)).length = T.length := by
    rw [List.length_drop, h.size]
    omega
  refine List.forall₂_iff_get.mpr ⟨hlen, fun i hi hiT => ?_⟩
  obtain ⟨x, q, hkey, -⟩ := h.keys.exists_cons (List.mem_map_of_mem (List.getElem_mem hiT))
  obtain ⟨n, hn, hitem, hweight, -⟩ := h.node _ (List.getElem_mem hiT) x q hkey
  have hindex : (T.map Prod.fst).idxOf T[i].1 = i := by
    have hik : i < (T.map Prod.fst).length := by rwa [List.length_map]
    have hget : (T.map Prod.fst)[i] = T[i].1 := List.getElem_map _
    rw [← hget]
    exact h.keys.nodup.idxOf_getElem i _
  have hptr : ptrOf root (T.map Prod.fst) T[i].1 = root + 1 + i := by
    rw [hkey, ptrOf_cons, ← hkey, hindex]
  have hnode : (ns.drop (root + 1)).get ⟨i, hi⟩ = n := by
    rw [hptr, ← List.getElem?_drop] at hn
    exact (List.getElem?_eq_some_iff.mp hn).2
  rw [hnode]
  exact ⟨by rw [List.get_eq_getElem, hkey, hitem]; rfl, hweight⟩

theorem nuOf_eq_mass {nodes : List TreeNode}
    (h : List.Forall₂ (fun (n : TreeNode) e => e.1.head? = some n.item ∧ n.weight = e.2) nodes T)
    (x : ItemId) : nuOf nodes x = mass (fun k => k.head? = some x) T := by
  induction h with
  | nil => rfl
  | @cons n e nodes T hne _ ih =>
    obtain ⟨hitem, hweight⟩ := hne
    rw [mass_cons, ← ih, nuOf, nuOf, hitem, ← hweight]
    by_cases hx : n.item = x <;> simp [hx]

theorem nuOf_treeNodes (ha : a.Holds ns) (h : IsTree ns root T) (x : ItemId) :
    nuOf (treeNodes a root) x = mass (fun k => k.head? = some x) T := by
  rw [treeNodes_eq ha]
  exact nuOf_eq_mass (forall₂_nodes h) x

/-- The check of a tree is about every item: one without nodes weighs nothing. -/
theorem checkTree_iff {total : Utility} (htotal : 0 ≤ total) (a : NodeArena) (root : ℕ) :
    checkTree total root a = .ok ((), a) ↔ ∀ x, nuOf (treeNodes a root) x ≤ total := by
  have hrun : checkTree total root a =
      (if ∀ n ∈ treeNodes a root, nuOf (treeNodes a root) n.item ≤ total then return ()
        else throw .overweight : CheckedM Unit) a := rfl
  rw [hrun]
  split_ifs with hall
  · refine iff_of_true rfl fun x => ?_
    by_cases hx : ∃ n ∈ treeNodes a root, n.item = x
    · obtain ⟨n, hn, rfl⟩ := hx
      exact hall n hn
    · have hnone : (treeNodes a root).filter (fun n => n.item = x) = [] := by
        rw [List.filter_eq_nil_iff]
        exact fun n hn hnx => hx ⟨n, hn, of_decide_eq_true hnx⟩
      rw [nuOf, hnone]
      exact htotal
  · refine iff_of_false (fun h => ?_) fun h => hall fun n _ => h n.item
    cases h

theorem checkTree_ok (ha : a.reliable.Holds ns) (h : IsTree ns root T) {total : Utility}
    (hlight : Light total T) : checkTree total root a = .ok ((), a) := by
  have hall : ∀ n ∈ treeNodes a root, nuOf (treeNodes a root) n.item ≤ total := by
    intro n _
    exact (nuOf_treeNodes ha h n.item).trans_le (hlight n.item)
  exact congrFun (if_pos hall) a

end Weight

end AirHuim
