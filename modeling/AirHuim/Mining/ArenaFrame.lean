import AirHuim.Mining.PrefixTree

/-!
# What an operation on the arena leaves alone

The arena may hold anything here, and its store may fail. A read leaves all nodes as
they are, a write all but one; a node is allocated at the pointer of the next one. So
what a program leaves alone below a pointer is a matter of where it writes.
-/

namespace AirHuim

open Library

namespace NodeArena

/-- Any fault is allowed: the specification is about runs that return. -/
abbrev AnyFault (_ : Fault) : Prop := True

/-- The same nodes, up to the state of the store. -/
structure SameNodes (a a' : NodeArena) : Prop where
  fails : a'.pool.fails = a.pool.fails
  pages : a'.pages = a.pages
  next : a'.nextNodePtr = a.nextNodePtr

/-- The nodes below `s` are as they were. -/
structure KeepsBelow (s : ℕ) (a a' : NodeArena) : Prop where
  fails : a'.pool.fails = a.pool.fails
  node : ∀ p < s, ∀ n, a.node? p = some n → a'.node? p = some n

variable {a a' a'' : NodeArena} {s : ℕ}

theorem SameNodes.refl (a : NodeArena) : SameNodes a a := ⟨rfl, rfl, rfl⟩

theorem SameNodes.trans (h : SameNodes a a') (h' : SameNodes a' a'') : SameNodes a a'' :=
  ⟨h'.fails.trans h.fails, h'.pages.trans h.pages, h'.next.trans h.next⟩

theorem SameNodes.node? (h : SameNodes a a') (p : ℕ) : a'.node? p = a.node? p := by
  unfold NodeArena.node?
  rw [h.pages]

theorem SameNodes.keepsBelow (h : SameNodes a a') (s : ℕ) : KeepsBelow s a a' :=
  ⟨h.fails, fun p _ _ hn => (h.node? p).trans hn⟩

theorem KeepsBelow.refl (s : ℕ) (a : NodeArena) : KeepsBelow s a a := ⟨rfl, fun _ _ _ hn => hn⟩

theorem KeepsBelow.trans (h : KeepsBelow s a a') (h' : KeepsBelow s a' a'') :
    KeepsBelow s a a'' :=
  ⟨h'.fails.trans h.fails, fun p hp n hn => h'.node p hp n (h.node p hp n hn)⟩

theorem KeepsBelow.mono {t : ℕ} (h : KeepsBelow t a a') (hst : s ≤ t) : KeepsBelow s a a' :=
  ⟨h.fails, fun p hp n hn => h.node p (hp.trans_le hst) n hn⟩

theorem access_keeps (a : NodeArena) :
    Runs AnyFault access a fun _ a' => SameNodes a a' := by
  unfold access
  constructor
  · intro _ a' h
    split_ifs at h
    cases h
    exact ⟨rfl, rfl, rfl⟩
  · exact fun _ _ => trivial

theorem getNode_keeps (ptr : ℕ) (a : NodeArena) :
    Runs AnyFault (getNode ptr) a fun n a' => a.node? ptr = some n ∧ SameNodes a a' := by
  unfold getNode
  refine Runs.get_bind ?_
  cases hpage : a.pages[pageIndex ptr]? with
  | none => exact Runs.throw trivial
  | some page =>
    refine Runs.bind (access_keeps a) ?_
    intro _ a' ha'
    refine Runs.pure ⟨?_, ha'⟩
    rw [NodeArena.node?, hpage, Option.map_some]

theorem setNode_keeps (ptr : ℕ) (node : TreeNode) (a : NodeArena) :
    Runs AnyFault (setNode ptr node) a fun _ a' => a'.pool.fails = a.pool.fails ∧
      a'.nextNodePtr = a.nextNodePtr ∧
        ∀ q, a'.node? q = if q = ptr then some node else a.node? q := by
  unfold setNode
  refine Runs.get_bind ?_
  cases hpage : a.pages[pageIndex ptr]? with
  | none => exact Runs.throw trivial
  | some page =>
    refine Runs.bind (access_keeps a) ?_
    intro _ a' ha'
    refine Runs.modify ⟨ha'.fails, ha'.next, fun q => ?_⟩
    rw [← ha'.pages] at hpage
    refine (node?_set hpage node).trans ?_
    rw [ha'.node?]

theorem addPages_keeps (n : ℕ) (a : NodeArena) :
    Runs AnyFault (addPages n) a fun _ a' => a'.pool.fails = a.pool.fails ∧
      a'.nextNodePtr = a.nextNodePtr ∧ ∃ new, a'.pages = a.pages ++ new := by
  induction n generalizing a with
  | zero => exact Runs.pure ⟨rfl, rfl, [], (List.append_nil _).symm⟩
  | succ n ih =>
    unfold addPages
    refine Runs.bind (access_keeps a) ?_
    intro _ a₁ h₁
    refine Runs.bind (Q := fun _ a₂ => a₂.pool.fails = a.pool.fails ∧
      a₂.nextNodePtr = a.nextNodePtr ∧ a₂.pages = a.pages ++ [NodePage.zeroed])
      (Runs.modify ⟨h₁.fails, h₁.next, ?_⟩) ?_
    · dsimp only
      rw [h₁.pages]
    · rintro _ a₂ ⟨hfails, hnext, hpages⟩
      refine (ih a₂).mono ?_
      rintro _ a₃ ⟨hfails', hnext', new, hpages'⟩
      refine ⟨hfails'.trans hfails, hnext'.trans hnext, NodePage.zeroed :: new, ?_⟩
      rw [hpages', hpages, List.append_assoc]
      rfl

/-- Allocation writes at the pointer of the next node, and there only. -/
theorem allocateNode_keeps (item : ItemId) (weight : Utility) (parent : ℕ) (a : NodeArena) :
    Runs AnyFault (allocateNode item weight parent) a fun ptr a' => ptr = a.nextNodePtr ∧
      a'.pool.fails = a.pool.fails ∧ a'.nextNodePtr = a.nextNodePtr + 1 ∧
      a'.node? a.nextNodePtr = some ⟨item, weight, parent, nullPtr, nullPtr, nullPtr⟩ ∧
      ∀ q ≠ a.nextNodePtr, ∀ n, a.node? q = some n → a'.node? q = some n := by
  unfold allocateNode
  refine Runs.get_bind ?_
  refine Runs.bind (addPages_keeps _ a) ?_
  rintro _ a₁ ⟨hfails, hnext, new, hpages⟩
  refine Runs.bind (setNode_keeps _ _ a₁) ?_
  rintro _ a₂ ⟨hfails', hnext', hnode⟩
  split_ifs
  · exact Runs.throw trivial
  · refine Runs.bind (Q := fun _ a₃ => a₃ = { a₂ with nextNodePtr := a₂.nextNodePtr + 1 })
      (Runs.modify rfl) ?_
    rintro _ _ rfl
    refine Runs.pure ⟨rfl, hfails'.trans hfails, ?_, ?_, fun q hq n hn => ?_⟩
    · dsimp only
      rw [hnext', hnext]
    · exact (hnode _).trans (if_pos rfl)
    · refine (hnode q).trans ?_
      have hlt : pageIndex q < a.pages.length := by
        rw [← node?_isSome_iff, hn]
        rfl
      rw [if_neg hq, NodeArena.node?, hpages, List.getElem?_append_left hlt]
      exact hn

end NodeArena

end AirHuim
