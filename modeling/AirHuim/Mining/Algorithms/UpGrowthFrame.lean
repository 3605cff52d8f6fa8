import AirHuim.Mining.Algorithms.UpGrowthPlus
import AirHuim.Mining.ArenaFrame

/-!
# The arena is used like a stack

All trees of the miners live in one arena, and a call gives the nodes of its
conditional tree back by moving the pointer of the next node. The links that an
insertion follows stay inside the tree it fills, so all writes of a call are to nodes
that have been allocated since. Whatever the arena and the tree, a call that returns
leaves the pointer and all nodes below it as they were.
-/

namespace AirHuim

open Library NodeArena

namespace UpGrowth

/-- A pointer to a node allocated since `s`, or null. -/
def Since (s : ℕ) (a : NodeArena) (ptr : ℕ) : Prop :=
  ptr = nullPtr ∨ s ≤ ptr ∧ ptr < a.nextNodePtr

/-- The tree under construction: the nodes since `s`. The links that an insertion
follows lead from them to them, and so do the ends of the header. -/
structure Confined (s : ℕ) (header : Header) (a : NodeArena) : Prop where
  node : ∀ p, s ≤ p → p < a.nextNodePtr → ∃ n, a.node? p = some n ∧
    Since s a n.firstChild ∧ Since s a n.nextSibling
  tail : ∀ x e, header.lookup x = some e → Since s a e.tail

/-- The tree has been worked on, and nothing below it has changed. -/
structure Worked (s : ℕ) (a : NodeArena) (header : Header) (a' : NodeArena) : Prop where
  keeps : KeepsBelow s a a'
  next_le : a.nextNodePtr ≤ a'.nextNodePtr
  confined : Confined s header a'

section Frame

variable {s : ℕ} {a a' a'' : NodeArena} {header header' : Header} {ptr : ℕ}

theorem Since.mono (h : Since s a ptr) (hle : a.nextNodePtr ≤ a'.nextNodePtr) : Since s a' ptr :=
  h.imp_right fun hin => ⟨hin.1, hin.2.trans_le hle⟩

theorem Since.of_ne (h : Since s a ptr) (hne : ptr ≠ nullPtr) : s ≤ ptr ∧ ptr < a.nextNodePtr :=
  h.resolve_left hne

theorem Confined.of_same (h : Confined s header a) (hsame : SameNodes a a') :
    Confined s header a' := by
  have hnext : a'.nextNodePtr = a.nextNodePtr := hsame.next
  constructor
  · intro p hlo hhi
    obtain ⟨n, hn, hchild, hsibling⟩ := h.node p hlo (hnext ▸ hhi)
    exact ⟨n, (hsame.node? p).trans hn, hchild.mono hnext.ge, hsibling.mono hnext.ge⟩
  · exact fun x e he => (h.tail x e he).mono hnext.ge

theorem Confined.get (h : Confined s header a) {n : TreeNode} (hlo : s ≤ ptr)
    (hhi : ptr < a.nextNodePtr) (hn : a.node? ptr = some n) :
    Since s a n.firstChild ∧ Since s a n.nextSibling := by
  obtain ⟨n', hn', hlinks⟩ := h.node ptr hlo hhi
  rw [hn] at hn'
  exact Option.some.inj hn' ▸ hlinks

theorem Worked.of_same (h : Confined s header a) (hsame : SameNodes a a') :
    Worked s a header a' :=
  ⟨hsame.keepsBelow s, hsame.next.ge, h.of_same hsame⟩

theorem Worked.trans (h : Worked s a header a') (h' : Worked s a' header' a'') :
    Worked s a header' a'' :=
  ⟨h.keeps.trans h'.keeps, h.next_le.trans h'.next_le, h'.confined⟩

/-- Writing one of the nodes, with links that stay inside. -/
theorem setNode_worked (h : Confined s header a) (hlo : s ≤ ptr) {n : TreeNode}
    (hchild : Since s a n.firstChild) (hsibling : Since s a n.nextSibling) :
    Runs AnyFault (setNode ptr n) a fun _ a' =>
      a'.nextNodePtr = a.nextNodePtr ∧ Worked s a header a' := by
  refine (setNode_keeps ptr n a).mono ?_
  rintro _ a' ⟨hfails, hnext, hnode⟩
  refine ⟨hnext, ⟨hfails, fun p hp m hm => ?_⟩, hnext.ge, fun p hp hp' => ?_, fun x e he => ?_⟩
  · rw [hnode, if_neg (hp.trans_le hlo).ne]
    exact hm
  · rw [hnode]
    split_ifs with heq
    · exact ⟨n, rfl, hchild.mono hnext.ge, hsibling.mono hnext.ge⟩
    · obtain ⟨m, hm, hchild, hsibling⟩ := h.node p hp (hnext ▸ hp')
      exact ⟨m, hm, hchild.mono hnext.ge, hsibling.mono hnext.ge⟩
  · exact (h.tail x e he).mono hnext.ge

/-- A new node, with null links. -/
theorem allocateNode_worked (h : Confined s header a) (hs : s ≤ a.nextNodePtr) (item : ItemId)
    (weight : Utility) (parent : ℕ) :
    Runs AnyFault (allocateNode item weight parent) a fun ptr a' =>
      (s ≤ ptr ∧ ptr < a'.nextNodePtr) ∧ Worked s a header a' := by
  refine (allocateNode_keeps item weight parent a).mono ?_
  rintro _ a' ⟨rfl, hfails, hnext, hnew, hold⟩
  have hle : a.nextNodePtr ≤ a'.nextNodePtr := by omega
  refine ⟨⟨hs, by omega⟩, ⟨hfails, fun p hp n hn => ?_⟩, hle, fun p hp hp' => ?_, fun x e he => ?_⟩
  · exact hold p (hp.trans_le hs).ne n hn
  · by_cases heq : p = a.nextNodePtr
    · subst heq
      exact ⟨_, hnew, Or.inl rfl, Or.inl rfl⟩
    · obtain ⟨n, hn, hchild, hsibling⟩ := h.node p hp (by omega)
      exact ⟨n, hold p heq n hn, hchild.mono hle, hsibling.mono hle⟩
  · exact (h.tail x e he).mono hle

theorem bumpChild_worked (h : Confined s header a) (item : ItemId) (weight : Utility) (fuel : ℕ)
    (hptr : Since s a ptr) :
    Runs AnyFault (bumpChild item weight fuel ptr) a fun found a' =>
      (∀ child, found = some child → s ≤ child ∧ child < a'.nextNodePtr) ∧
        Worked s a header a' := by
  induction fuel generalizing a ptr with
  | zero => exact Runs.throw trivial
  | succ fuel ih =>
    unfold bumpChild
    split_ifs with hnull
    · refine Runs.pure ⟨fun child hfound => ?_, Worked.of_same h (SameNodes.refl a)⟩
      cases hfound
    · obtain ⟨hlo, hhi⟩ := hptr.of_ne hnull
      refine Runs.bind (getNode_keeps ptr a) ?_
      rintro n a₁ ⟨hn, hsame⟩
      have hread := Worked.of_same h hsame
      obtain ⟨hchild, hsibling⟩ := h.get hlo hhi hn
      have hnext : a.nextNodePtr ≤ a₁.nextNodePtr := hsame.next.ge
      split_ifs
      · refine Runs.bind (setNode_worked hread.confined hlo (n := { n with weight := _ })
          (hchild.mono hnext) (hsibling.mono hnext)) ?_
        rintro _ a₂ ⟨hnext₂, hwrite⟩
        refine Runs.pure ⟨fun child hchild => ?_, hread.trans hwrite⟩
        cases hchild
        exact ⟨hlo, by omega⟩
      · refine (ih hread.confined (hsibling.mono hnext)).mono ?_
        rintro found a₂ ⟨hfound, hrest⟩
        exact ⟨hfound, hread.trans hrest⟩

/-- The tail of an item gets a link, which no insertion follows; then the new node is
the tail. -/
theorem linkTail_worked (h : Confined s header a) (item : ItemId) {child : ℕ}
    (hchild : s ≤ child ∧ child < a.nextNodePtr) :
    Runs AnyFault (linkTail header item child) a fun header' a' => Worked s a header' a' := by
  have hinsert : ∀ (e : HeaderEntry) (a' : NodeArena), a.nextNodePtr ≤ a'.nextNodePtr →
      Confined s header a' → Confined s (header.insert item { e with tail := child }) a' := by
    intro e a' hle h'
    refine ⟨h'.node, fun x e' he' => ?_⟩
    by_cases hx : x = item
    · subst hx
      rw [AList.lookup_insert] at he'
      cases he'
      exact Or.inr ⟨hchild.1, hchild.2.trans_le hle⟩
    · rw [AList.lookup_insert_ne hx] at he'
      exact h'.tail x e' he'
  unfold linkTail
  cases he : header.lookup item with
  | none => exact Runs.pure (Worked.of_same h (SameNodes.refl a))
  | some e =>
    dsimp only
    split_ifs with hnull
    · exact Runs.pure ⟨KeepsBelow.refl s a, le_rfl, hinsert { e with head := child } a le_rfl h⟩
    · obtain ⟨hlo, hhi⟩ := (h.tail item e he).of_ne hnull
      refine Runs.bind (getNode_keeps e.tail a) ?_
      rintro n a₁ ⟨hn, hsame⟩
      have hread := Worked.of_same h hsame
      obtain ⟨hfirst, hsibling⟩ := h.get hlo hhi hn
      have hnext : a.nextNodePtr ≤ a₁.nextNodePtr := hsame.next.ge
      refine Runs.bind (setNode_worked hread.confined hlo (n := { n with nodeLink := child })
        (hfirst.mono hnext) (hsibling.mono hnext)) ?_
      rintro _ a₂ ⟨-, hwrite⟩
      have hall := hread.trans hwrite
      exact Runs.pure ⟨hall.keeps, hall.next_le, hinsert e a₂ hall.next_le hall.confined⟩

theorem newChild_worked (h : Confined s header a) {curr : ℕ} (hcurr : s ≤ curr)
    (hlt : curr < a.nextNodePtr) (item : ItemId) (nu : Utility) :
    Runs AnyFault (newChild header curr item nu) a fun r a' =>
      (s ≤ r.1 ∧ r.1 < a'.nextNodePtr) ∧ Worked s a r.2 a' := by
  unfold newChild
  refine Runs.bind (allocateNode_worked h (by omega) item nu curr) ?_
  rintro child a₁ ⟨⟨hlo, hhi⟩, h₁⟩
  refine Runs.bind (getNode_keeps curr a₁) ?_
  rintro currNode a₂ ⟨hcurrNode, hsame₂⟩
  obtain ⟨hfirst, hsibling⟩ := h₁.confined.get hcurr (hlt.trans_le h₁.next_le) hcurrNode
  have h₂ := h₁.trans (Worked.of_same h₁.confined hsame₂)
  have hnext₂ : a₂.nextNodePtr = a₁.nextNodePtr := hsame₂.next
  refine Runs.bind (getNode_keeps child a₂) ?_
  rintro childNode a₃ ⟨hchildNode, hsame₃⟩
  obtain ⟨hfirst', -⟩ := h₂.confined.get hlo (by omega) hchildNode
  have h₃ := h₂.trans (Worked.of_same h₂.confined hsame₃)
  have hnext₃ : a₃.nextNodePtr = a₂.nextNodePtr := hsame₃.next
  refine Runs.bind (setNode_worked h₃.confined hlo
    (n := { childNode with nextSibling := currNode.firstChild }) (hfirst'.mono hnext₃.ge)
    (hfirst.mono (by omega))) ?_
  rintro _ a₄ ⟨hnext₄, hwrite₄⟩
  have h₄ := h₃.trans hwrite₄
  have hlink : Since s a₄ child := Or.inr ⟨hlo, by omega⟩
  refine Runs.bind (setNode_worked h₄.confined hcurr (n := { currNode with firstChild := child })
    hlink (hsibling.mono (by omega))) ?_
  rintro _ a₅ ⟨hnext₅, hwrite₅⟩
  have h₅ := h₄.trans hwrite₅
  have hchild : s ≤ child ∧ child < a₅.nextNodePtr := ⟨hlo, by omega⟩
  refine Runs.bind (linkTail_worked h₅.confined item hchild) ?_
  intro header' a₆ h₆
  exact Runs.pure ⟨⟨hlo, hchild.2.trans_le h₆.next_le⟩, h₅.trans h₆⟩

/-- An insertion from one of the nodes. -/
theorem insertPath_worked (h : Confined s header a) {curr : ℕ} (hcurr : s ≤ curr)
    (hlt : curr < a.nextNodePtr) (path : List (ItemId × Utility)) :
    Runs AnyFault (insertPath newChild header curr path) a fun header' a' =>
      Worked s a header' a' := by
  induction path generalizing a header curr with
  | nil => exact Runs.pure (Worked.of_same h (SameNodes.refl a))
  | cons e path ih =>
    obtain ⟨item, weight⟩ := e
    unfold insertPath
    refine Runs.bind (getNode_keeps curr a) ?_
    rintro currNode a₁ ⟨hcurrNode, hsame⟩
    have h₁ := Worked.of_same h hsame
    have hfirst : Since s a₁ currNode.firstChild :=
      (h.get hcurr hlt hcurrNode).1.mono hsame.next.ge
    refine Runs.get_bind ?_
    refine Runs.bind (bumpChild_worked h₁.confined item weight _ hfirst) ?_
    rintro found a₂ ⟨hfound, hbump⟩
    have h₂ := h₁.trans hbump
    cases found with
    | some child =>
      obtain ⟨hlo, hhi⟩ := hfound child rfl
      refine (ih h₂.confined hlo hhi).mono ?_
      exact fun header' a' h' => h₂.trans h'
    | none =>
      refine Runs.bind (newChild_worked h₂.confined hcurr (hlt.trans_le h₂.next_le) item weight) ?_
      rintro ⟨child, header'⟩ a₃ ⟨⟨hlo, hhi⟩, hnew⟩
      have h₃ := h₂.trans hnew
      refine (ih h₃.confined hlo hhi).mono ?_
      exact fun header'' a' h' => h₃.trans h'

theorem insertAll_worked (h : Confined s header a) {root : ℕ} (hroot : s ≤ root)
    (hlt : root < a.nextNodePtr) (paths : List (List (ItemId × Utility))) :
    Runs AnyFault (insertAll newChild root header paths) a fun header' a' =>
      Worked s a header' a' := by
  induction paths generalizing a header with
  | nil => exact Runs.pure (Worked.of_same h (SameNodes.refl a))
  | cons path paths ih =>
    unfold insertAll
    refine Runs.bind (insertPath_worked h hroot hlt path) ?_
    intro header' a₁ h₁
    refine (ih h₁.confined (hlt.trans_le h₁.next_le)).mono ?_
    exact fun header'' a' h' => h₁.trans h'

theorem insertPaths_worked {tree : UpTree} (h : Confined s tree.headerTable a)
    (hroot : s ≤ tree.root) (hlt : tree.root < a.nextNodePtr)
    (paths : List (List (ItemId × Utility))) :
    Runs AnyFault (tree.insertPaths paths) a fun tree' a' => Worked s a tree'.headerTable a' := by
  refine Runs.bind (insertAll_worked h hroot hlt paths) ?_
  intro header a' h'
  exact Runs.pure h'

/-! ## Reading a tree -/

theorem sumChain_keeps (fuel curr : ℕ) (itemUtil : Utility) (a : NodeArena) :
    Runs AnyFault (sumChain fuel curr itemUtil) a fun _ a' => SameNodes a a' := by
  induction fuel generalizing curr itemUtil a with
  | zero => exact Runs.throw trivial
  | succ fuel ih =>
    unfold sumChain
    split_ifs
    · exact Runs.pure (SameNodes.refl a)
    · refine Runs.bind (getNode_keeps curr a) ?_
      rintro n a₁ ⟨-, h₁⟩
      exact (ih n.nodeLink _ a₁).mono fun _ _ h₂ => h₁.trans h₂

theorem pathAbove_keeps (root fuel p : ℕ) (a : NodeArena) :
    Runs AnyFault (pathAbove root fuel p) a fun _ a' => SameNodes a a' := by
  induction fuel generalizing p a with
  | zero => exact Runs.throw trivial
  | succ fuel ih =>
    unfold pathAbove
    split_ifs
    · exact Runs.pure (SameNodes.refl a)
    · refine Runs.bind (getNode_keeps p a) ?_
      rintro n a₁ ⟨-, h₁⟩
      refine Runs.bind (ih n.parent a₁) ?_
      intro _ a₂ h₂
      exact Runs.pure (h₁.trans h₂)

theorem readChain_keeps (root fuel curr : ℕ) (a : NodeArena) :
    Runs AnyFault (readChain root fuel curr) a fun _ a' => SameNodes a a' := by
  induction fuel generalizing curr a with
  | zero => exact Runs.throw trivial
  | succ fuel ih =>
    unfold readChain
    split_ifs
    · exact Runs.pure (SameNodes.refl a)
    · refine Runs.bind (getNode_keeps curr a) ?_
      rintro n a₁ ⟨-, h₁⟩
      refine Runs.get_bind ?_
      refine Runs.bind (pathAbove_keeps root _ n.parent a₁) ?_
      intro _ a₂ h₂
      refine Runs.bind (ih n.nodeLink a₂) ?_
      intro _ a₃ h₃
      exact Runs.pure ((h₁.trans h₂).trans h₃)

/-! ## A call -/

/-- The pointer of the next node and all nodes below it are as they were. -/
structure Restored (a a' : NodeArena) : Prop where
  next : a'.nextNodePtr = a.nextNodePtr
  keeps : KeepsBelow a.nextNodePtr a a'

theorem Restored.of_same (h : SameNodes a a') : Restored a a' := ⟨h.next, h.keepsBelow _⟩

theorem Restored.trans (h : Restored a a') (h' : Restored a' a'') : Restored a a'' :=
  ⟨h'.next.trans h.next, h.keeps.trans (h.next ▸ h'.keeps)⟩

/-- What the arena holds of the trees of enclosing calls, it still holds. -/
theorem Restored.holds (h : Restored a a') {ns : List TreeNode} (ha : a.Holds ns) :
    a'.Holds ns where
  reliable n := by
    rw [h.keeps.fails]
    exact ha.reliable n
  next := h.next.trans ha.next
  nodes p n hp := by
    have hlt : p < a.nextNodePtr := by
      rw [ha.next]
      exact (List.getElem?_eq_some_iff.mp hp).1
    exact h.keeps.node p hlt n (ha.nodes p n hp)

theorem mineAll_restores {mineItem : ItemId → Found → ArenaM Found}
    (h : ∀ item found a, Runs AnyFault (mineItem item found) a fun _ a' => Restored a a')
    (items : List ItemId) (found : Found) (a : NodeArena) :
    Runs AnyFault (mineAll mineItem items found) a fun _ a' => Restored a a' := by
  induction items generalizing found a with
  | nil => exact Runs.pure (Restored.of_same (SameNodes.refl a))
  | cons item items ih =>
    unfold mineAll
    refine Runs.bind (h item found a) ?_
    intro found' a₁ h₁
    exact (ih found' a₁).mono fun _ _ h₂ => h₁.trans h₂

/-- A new tree: a root at the pointer of the next node. -/
theorem new_keeps (a : NodeArena) :
    Runs AnyFault UpTree.new a fun tree a' => tree = ⟨∅, a.nextNodePtr⟩ ∧
      KeepsBelow a.nextNodePtr a a' ∧ a'.nextNodePtr = a.nextNodePtr + 1 ∧
      a'.node? a.nextNodePtr = some ⟨0, 0, nullPtr, nullPtr, nullPtr, nullPtr⟩ := by
  refine Runs.bind (allocateNode_keeps 0 0 nullPtr a) ?_
  rintro _ a' ⟨rfl, hfails, hnext, hnew, hold⟩
  exact Runs.pure ⟨rfl, ⟨hfails, fun p hp n hn => hold p hp.ne n hn⟩, hnext, hnew⟩

/-- The header of a new tree has no nodes yet. -/
theorem confined_withItems {root : ℕ} (hroot : a.nextNodePtr = root + 1)
    (hnode : a.node? root = some ⟨0, 0, nullPtr, nullPtr, nullPtr, nullPtr⟩)
    (validItems : List (ItemId × Utility)) :
    Confined root (UpTree.withItems ⟨∅, root⟩ validItems).headerTable a := by
  have htail : ∀ (header : Header), (∀ x e, header.lookup x = some e → e.tail = nullPtr) →
      ∀ x e, (validItems.foldl (fun header e =>
        header.insert e.1 ⟨e.1, e.2, nullPtr, nullPtr⟩) header).lookup x = some e →
          e.tail = nullPtr := by
    induction validItems with
    | nil => exact fun _ h => h
    | cons v validItems ih =>
      intro header h
      refine ih _ fun x e he => ?_
      by_cases hx : x = v.1
      · subst hx
        rw [AList.lookup_insert] at he
        cases he
        rfl
      · rw [AList.lookup_insert_ne hx] at he
        exact h x e he
  constructor
  · intro p hlo hhi
    obtain rfl : p = root := by omega
    exact ⟨_, hnode, Or.inl rfl, Or.inl rfl⟩
  · exact fun x e he => Or.inl (htail ∅ (by simp) x e he)

/-- The conditional tree is above everything else, and is given back. -/
theorem mineCondWith_restores (prepare : Prepare)
    {descend : UpTree → List ItemId → ItemId → Found → ArenaM Found}
    (hdescend : ∀ tree pre item found a,
      Runs AnyFault (descend tree pre item found) a fun _ a' => Restored a a')
    (minUtil : Utility) (tree : UpTree) (entry : HeaderEntry) (newPre : List ItemId)
    (found : Found) (a : NodeArena) :
    Runs AnyFault (mineCondWith prepare descend minUtil tree entry newPre found) a
      fun _ a' => Restored a a' := by
  unfold mineCondWith
  refine Runs.get_bind ?_
  refine Runs.bind (readChain_keeps tree.root _ entry.head a) ?_
  intro entries a₁ h₁
  refine Runs.bind (Runs.lift_any fun _ _ => trivial) ?_
  rintro ⟨valid, paths⟩ b ⟨-, hb⟩
  rw [hb]
  refine Runs.get_bind ?_
  refine Runs.bind (new_keeps a₁) ?_
  rintro localTree a₂ ⟨rfl, hkeeps₂, hnext₂, hroot⟩
  have hlt : a₁.nextNodePtr < a₂.nextNodePtr := by omega
  refine Runs.bind (insertPaths_worked (confined_withItems hnext₂ hroot valid) le_rfl hlt paths) ?_
  intro localTree a₃ h₃
  refine Runs.bind (mineAll_restores (hdescend localTree newPre) _ _ a₃) ?_
  intro found' a₄ h₄
  have hle : a₁.nextNodePtr ≤ a₃.nextNodePtr := hlt.le.trans h₃.next_le
  have hkeeps : KeepsBelow a₁.nextNodePtr a₁ a₄ :=
    (hkeeps₂.trans h₃.keeps).trans (h₄.keeps.mono hle)
  refine Runs.bind (Q := fun _ a₅ => a₅ = { a₄ with nextNodePtr := a₁.nextNodePtr })
    (Runs.modify rfl) ?_
  rintro _ _ rfl
  have hreleased : Restored a₁ { a₄ with nextNodePtr := a₁.nextNodePtr } :=
    ⟨rfl, hkeeps.fails, hkeeps.node⟩
  exact Runs.pure ((Restored.of_same h₁).trans hreleased)

theorem mineUpTreeWith_restores (prepare : Prepare) (minUtil : Utility) (fuel : ℕ) (tree : UpTree)
    (pre : List ItemId) (item : ItemId) (found : Found) (a : NodeArena) :
    Runs AnyFault (mineUpTreeWith prepare minUtil fuel tree pre item found) a
      fun _ a' => Restored a a' := by
  induction fuel generalizing tree pre item found a with
  | zero => exact Runs.throw trivial
  | succ fuel ih =>
    unfold mineUpTreeWith
    cases tree.headerTable.lookup item with
    | none => exact Runs.throw trivial
    | some entry =>
      refine Runs.get_bind ?_
      refine Runs.bind (sumChain_keeps _ entry.head 0 a) ?_
      intro itemUtil a₁ h₁
      split_ifs
      · refine (mineCondWith_restores prepare ih minUtil tree entry _ _ a₁).mono ?_
        exact fun _ a' h' => (Restored.of_same h₁).trans h'
      · exact Runs.pure (Restored.of_same h₁)

/-- A call that returns leaves the pointer of the next node and all nodes below it as
they were, and with them all trees that the arena held. Nothing is required of the
arena, the tree, the item, the prefix and the threshold. -/
theorem mineUpTree_restores {minUtil : Utility} {fuel : ℕ} {tree : UpTree} {pre : List ItemId}
    {item : ItemId} {found found' : Found}
    (h : mineUpTree minUtil fuel tree pre item found a = .ok (found', a')) :
    a'.nextNodePtr = a.nextNodePtr ∧
      (∀ p < a.nextNodePtr, ∀ n, a.node? p = some n → a'.node? p = some n) ∧
      ∀ ns, a.Holds ns → a'.Holds ns := by
  rw [mineUpTree_eq] at h
  have hrestored : Restored a a' :=
    (mineUpTreeWith_restores prepare minUtil fuel tree pre item found a).ok found' a' h
  exact ⟨hrestored.next, hrestored.keeps.node, fun ns => hrestored.holds⟩

end Frame

/-- Two items that share a path, and one of them alone. -/
def twoPaths : ArenaM UpTree := do
  let tree ← UpTree.new
  (tree.withItems [(1, 20), (2, 15)]).insertPaths [[(1, 5), (2, 8)], [(2, 7)]]

theorem mineUpTree_restores_twoPaths :
    ∃ tree a found' a', twoPaths (.new ⟨fun _ => none, 1, 0, fun _ => false⟩) = .ok (tree, a) ∧
      mineUpTree 8 2 tree [] 2 ⟨[], .new 0⟩ a = .ok (found', a') ∧
      a'.nextNodePtr = a.nextNodePtr ∧
      (∀ p < a.nextNodePtr, ∀ n, a.node? p = some n → a'.node? p = some n) ∧
      ∀ ns, a.Holds ns → a'.Holds ns := by
  obtain ⟨⟨tree, a⟩, hbuild⟩ : ∃ built,
      twoPaths (.new ⟨fun _ => none, 1, 0, fun _ => false⟩) = .ok built :=
    exists_of_isOk (by decide +kernel)
  have hrun : (twoPaths (.new ⟨fun _ => none, 1, 0, fun _ => false⟩) >>= fun built =>
      mineUpTree 8 2 built.1 [] 2 ⟨[], .new 0⟩ built.2).isOk = true := by
    decide +kernel
  rw [hbuild] at hrun
  obtain ⟨⟨found', a'⟩, hmine⟩ := exists_of_isOk hrun
  exact ⟨tree, a, found', a', hbuild, hmine, mineUpTree_restores hmine⟩

end UpGrowth

end AirHuim
