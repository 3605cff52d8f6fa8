import AirHuim.Library.Records
import AirHuim.Mining.NodeArena

/-!
# Nodes in the bytes of a page

A node is a packed record of 28 bytes, and a page of 64 KB holds 2340 of them next
to each other.
-/

namespace AirHuim

open Library

def nodeBytes : ℕ := 28

def pageSize : ℕ := 65536

namespace TreeNode

/-- `repr(C, packed)`. -/
def toBytes (n : TreeNode) : Bytes :=
  leBytes 4 n.item ++ (i64ToLe n.weight ++ (leBytes 4 n.parent ++ (leBytes 4 n.firstChild ++
    (leBytes 4 n.nextSibling ++ leBytes 4 n.nodeLink))))

def ofBytes (bs : Bytes) : TreeNode where
  item := ofLeBytes (slice 0 4 bs)
  weight := i64OfLe (slice 4 8 bs)
  parent := ofLeBytes (slice 12 4 bs)
  firstChild := ofLeBytes (slice 16 4 bs)
  nextSibling := ofLeBytes (slice 20 4 bs)
  nodeLink := ofLeBytes (slice 24 4 bs)

/-- The fields are in the ranges of their types. -/
structure Fits (n : TreeNode) : Prop where
  item : n.item < 2 ^ 32
  weight : FitsI64 n.weight
  parent : n.parent < 2 ^ 32
  firstChild : n.firstChild < 2 ^ 32
  nextSibling : n.nextSibling < 2 ^ 32
  nodeLink : n.nodeLink < 2 ^ 32

instance (n : TreeNode) : Decidable n.Fits :=
  decidable_of_iff (n.item < 2 ^ 32 ∧ FitsI64 n.weight ∧ n.parent < 2 ^ 32 ∧ n.firstChild < 2 ^ 32 ∧
      n.nextSibling < 2 ^ 32 ∧ n.nodeLink < 2 ^ 32)
    ⟨fun ⟨h₁, h₂, h₃, h₄, h₅, h₆⟩ => ⟨h₁, h₂, h₃, h₄, h₅, h₆⟩,
      fun ⟨h₁, h₂, h₃, h₄, h₅, h₆⟩ => ⟨h₁, h₂, h₃, h₄, h₅, h₆⟩⟩

@[simp] theorem length_toBytes (n : TreeNode) : n.toBytes.length = nodeBytes := by
  simp [toBytes, nodeBytes]

theorem ofBytes_toBytes {n : TreeNode} (h : n.Fits) : ofBytes n.toBytes = n := by
  have hfield : ∀ k, k < 2 ^ 32 → ofLeBytes (leBytes 4 k) = k := fun k hk =>
    ofLeBytes_leBytes_of_lt (hk.trans_le (by norm_num))
  have hskip := fun k off w xs => slice_append_right (length_leBytes 4 k) off w xs
  have hskip8 := fun z off w xs => slice_append_right (length_i64ToLe z) off w xs
  have hhead := fun k xs => slice_append_left (length_leBytes 4 k) xs
  have hitem : slice 0 4 n.toBytes = leBytes 4 n.item := hhead _ _
  have hweight : slice 4 8 n.toBytes = i64ToLe n.weight := by
    rw [toBytes, hskip _ 0, slice_append_left (length_i64ToLe _)]
  have hparent : slice 12 4 n.toBytes = leBytes 4 n.parent := by
    rw [toBytes, hskip _ (8 + 0), hskip8, hhead]
  have hchild : slice 16 4 n.toBytes = leBytes 4 n.firstChild := by
    rw [toBytes, hskip _ (8 + (4 + 0)), hskip8, hskip, hhead]
  have hsibling : slice 20 4 n.toBytes = leBytes 4 n.nextSibling := by
    rw [toBytes, hskip _ (8 + (4 + (4 + 0))), hskip8, hskip, hskip, hhead]
  have hlink : slice 24 4 n.toBytes = leBytes 4 n.nodeLink := by
    rw [toBytes, hskip _ (8 + (4 + (4 + (4 + 0)))), hskip8, hskip, hskip, hskip,
      slice_self (length_leBytes 4 _)]
  rw [ofBytes, hitem, hweight, hparent, hchild, hsibling, hlink, hfield _ h.item,
    i64OfLe_i64ToLe h.weight, hfield _ h.parent, hfield _ h.firstChild, hfield _ h.nextSibling,
    hfield _ h.nodeLink]

/-- Bytes that are all zero are a node of zeros. -/
theorem ofBytes_replicate : ofBytes (List.replicate nodeBytes 0) = ⟨0, 0, 0, 0, 0, 0⟩ := by
  decide

end TreeNode

/-- The bytes of a page and its nodes. -/
structure NodePage.InBytes (page : NodePage) (bytes : Bytes) : Prop where
  length : bytes.length = pageSize
  nodes : ∀ i : Fin nodesPerPage, TreeNode.ofBytes (record nodeBytes i bytes) = page i

theorem record_le_pageSize (i : Fin nodesPerPage) : nodeBytes * i + nodeBytes ≤ pageSize := by
  have hi : (i : ℕ) < 65536 / 28 := i.isLt
  unfold nodeBytes pageSize
  omega

theorem NodePage.zeroed_inBytes : NodePage.zeroed.InBytes (List.replicate pageSize 0) where
  length := List.length_replicate
  nodes i := by
    rw [record_replicate 0 (record_le_pageSize i)]
    exact TreeNode.ofBytes_replicate

theorem NodePage.InBytes.update {page : NodePage} {bytes : Bytes} (h : page.InBytes bytes)
    (i : Fin nodesPerPage) {n : TreeNode} (hn : n.Fits) :
    NodePage.InBytes (Function.update page i n) (writeFrom bytes (nodeBytes * i) n.toBytes) where
  length := by rw [length_writeFrom, h.length]
  nodes j := by
    rw [record_writeFrom n.length_toBytes (by rw [h.length]; exact record_le_pageSize i)]
    by_cases hji : j = i
    · subst hji
      rw [if_pos rfl, Function.update_self, TreeNode.ofBytes_toBytes hn]
    · rw [if_neg fun heq => hji (Fin.ext heq), Function.update_of_ne hji, h.nodes]

end AirHuim
