/-
# The height of the B+ tree

`height` walks down the first children.  In a well-formed tree all leaves are equally deep,
every node below the root has at least `order / 2` keys and the root at least one, so the
number of keys grows at least as fast as a power of the height.
-/
import ImmuStore.BPlusMap

variable {α ν : Type}

namespace NodeRef

mutual

/-- The loop of `height` from a node on. -/
def height : NodeRef α ν → Except PyError ℕ
  | .leaf _ _ _ => .ok 1
  | .internal _ _ children => do
    let rest ← heightOfFirst children
    return rest + 1

/-- `height` from the first child on. -/
def heightOfFirst : List (NodeRef α ν) → Except PyError ℕ
  | [] => .error .indexError
  | child :: _ => height child

end

end NodeRef

/-- `height`. -/
def BPlusTree.height (t : BPlusTree α ν) : Except PyError ℕ := t.treeRef.elim (.ok 0) NodeRef.height

variable [LinearOrder α]

namespace NodeRef

variable {order d least : ℕ} {lo hi : Option α} {node : NodeRef α ν}

/-- `height` counts the levels. -/
theorem Wf.height_eq (h : Wf order d least lo hi node) : node.height = .ok (d + 1) := by
  induction d generalizing least lo hi node with
  | zero =>
    obtain ⟨_, keys, values, rfl, -⟩ := h.exists_leaf
    rfl
  | succ d ih =>
    obtain ⟨_, keys, children, rfl, hint⟩ := h.exists_internal
    have hfirst : heightOfFirst children = .ok (d + 1) := by
      cases hint.chain with
      | last _ hchild => exact ih hchild
      | cons _ hchild _ => exact ih hchild
    rw [height, hfirst]
    rfl

/-- A node with `least` keys has a child more than that, or is a leaf with as many keys. -/
theorem Wf.mul_le_length_items (h : Wf order d (order / 2) lo hi node) :
    order / 2 * (order / 2 + 1) ^ d ≤ node.items.length := by
  induction d generalizing lo hi node with
  | zero =>
    obtain ⟨_, keys, values, rfl, hleaf⟩ := h.exists_leaf
    have := hleaf.least_le
    simp only [pow_zero, Nat.mul_one, items, List.length_map, List.length_zip, hleaf.aligned]
    omega
  | succ d ih =>
    obtain ⟨_, keys, children, rfl, hint⟩ := h.exists_internal
    rw [items_internal]
    calc order / 2 * (order / 2 + 1) ^ (d + 1)
        = (order / 2 + 1) * (order / 2 * (order / 2 + 1) ^ d) := by rw [pow_succ]; ring
      _ ≤ (keys.length + 1) * (order / 2 * (order / 2 + 1) ^ d) :=
        Nat.mul_le_mul_right _ (Nat.succ_le_succ hint.least_le)
      _ ≤ (children.flatMap items).length := hint.chain.mul_le_length_flatMap ih

/-- The root, which only needs one key, has at least two children. -/
theorem Wf.root_mul_le_length_items (h : Wf order (d + 1) 1 lo hi node) :
    2 * (order / 2 * (order / 2 + 1) ^ d) ≤ node.items.length := by
  obtain ⟨_, keys, children, rfl, hint⟩ := h.exists_internal
  rw [items_internal]
  calc 2 * (order / 2 * (order / 2 + 1) ^ d)
      ≤ (keys.length + 1) * (order / 2 * (order / 2 + 1) ^ d) :=
        Nat.mul_le_mul_right _ (Nat.succ_le_succ hint.least_le)
    _ ≤ (children.flatMap items).length := hint.chain.mul_le_length_flatMap mul_le_length_items

end NodeRef

namespace BPlusTree

/-- The height of a well-formed tree, and what it costs in keys. -/
theorem Ok.height_spec {t : BPlusTree α ν} (h : t.Ok) :
    ∃ height, t.height = .ok height ∧
      (2 ≤ height →
        2 * (t.order / 2) * (t.order / 2 + 1) ^ (height - 2) ≤ t.items.length) := by
  unfold BPlusTree.height items
  cases hroot : t.treeRef with
  | none => exact ⟨0, rfl, by omega⟩
  | some root =>
    obtain ⟨d, hwf⟩ := h.root_wf root hroot
    refine ⟨d + 1, hwf.height_eq, fun htall => ?_⟩
    obtain ⟨d, rfl⟩ := Nat.exists_eq_add_one.mpr (show 0 < d by omega)
    rw [Nat.mul_assoc]
    exact hwf.root_mul_le_length_items

/-- **The height is logarithmic in the number of keys.**  After any updates of an empty tree
`height` returns, and a tree of height `h ≥ 2` has at least
`2 * (order // 2) * (order // 2 + 1) ^ (h - 2)` keys. -/
theorem logarithmic_height (order : ℕ) (horder : 3 ≤ order) (updates : List (Update α ν)) :
    let t : BPlusTree α ν := (BPlusTree.empty order).updateAll updates
    ∃ h n : ℕ, t.height = .ok h ∧ t.length = n ∧ t.items.length = n ∧
      (2 ≤ h → 2 * (order / 2) * (order / 2 + 1) ^ (h - 2) ≤ n) := by
  intro t
  have hholds : Holds order t (Update.applyAll (fun _ => none) updates) :=
    (Holds.empty horder).updateAll updates
  obtain ⟨h, hheight, hbound⟩ := hholds.ok.height_spec
  rw [hholds.order_eq] at hbound
  exact ⟨h, t.items.length, hheight, hholds.ok.count_eq, rfl, hbound⟩

theorem logarithmic_height_sample :
    let t : BPlusTree ℕ ℕ := (BPlusTree.empty 3).updateAll sampleUpdates
    3 ≤ 3 ∧ t.height = .ok 2 ∧
      ∃ h n : ℕ, t.height = .ok h ∧ t.length = n ∧ t.items.length = n ∧
        (2 ≤ h → 2 * (3 / 2) * (3 / 2 + 1) ^ (h - 2) ≤ n) :=
  ⟨by decide, by decide, logarithmic_height 3 (by decide) sampleUpdates⟩

end BPlusTree
