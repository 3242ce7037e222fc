/-
# The B+ tree is a sorted map

Runs of `set` and `delete` from the empty tree, against a reference map.  Every state
reached is well-formed (`Ok`), lists the bindings of the reference map in increasing
key order, and passes its own audit.
-/
import ImmuStore.BPlusInsert
import ImmuStore.BPlusDelete

variable {α ν : Type}

/-! ## The reference map -/

/-- An update of a map. -/
inductive Update (α ν : Type) where
  | set (key : α) (value : ν)
  | delete (key : α)
  deriving DecidableEq, Repr

namespace Update

variable [DecidableEq α]

/-- The effect of an update on a map; deleting an absent key has none. -/
def applyTo (f : α → Option ν) : Update α ν → α → Option ν
  | .set key value => Function.update f key (some value)
  | .delete key => Function.update f key none

/-- The map after a sequence of updates of `f`. -/
def applyAll (f : α → Option ν) (updates : List (Update α ν)) : α → Option ν :=
  updates.foldl applyTo f

end Update

/-! ## The invariant read node by node -/

namespace NodeRef

variable [LinearOrder α]
variable {node : NodeRef α ν}

/-- What holds of the keys of every node: they increase, lie within the bounds
inherited from the ancestors, and are as many as a node may have. -/
structure KeysSound (order : ℕ) (isRoot : Bool) (lo hi : Option α) (keys : List α) : Prop where
  increasing : keys.Pairwise (· < ·)
  within : ∀ k ∈ keys, Within lo hi k
  le_order : keys.length ≤ order
  half_le : isRoot = false → order / 2 ≤ keys.length
  root_pos : isRoot = true → 1 ≤ keys.length

/-- A subtree all of whose leaves are at depth `d`, node by node: child `i` has the
separators `i - 1` and `i` for bounds. -/
def Sound (order : ℕ) : Bool → ℕ → Option α → Option α → NodeRef α ν → Prop
  | isRoot, 0, lo, hi, .leaf _ keys values =>
    KeysSound order isRoot lo hi keys ∧ values.length = keys.length
  | isRoot, d + 1, lo, hi, .internal _ keys children =>
    KeysSound order isRoot lo hi keys ∧ children.length = keys.length + 1 ∧
      ∀ i child, children[i]? = some child →
        Sound order false d (if i = 0 then lo else keys[i - 1]?)
          (if i < keys.length then keys[i]? else hi) child
  | _, 0, _, _, .internal _ _ _ => False
  | _, _ + 1, _, _, .leaf _ _ _ => False

theorem Wf.sound {order d least : ℕ} {lo hi : Option α} (h : Wf order d least lo hi node)
    {isRoot : Bool} (hroot : isRoot = true → 1 ≤ least)
    (hleast : isRoot = false → order / 2 ≤ least) : Sound order isRoot d lo hi node := by
  induction d generalizing least lo hi node isRoot with
  | zero =>
    obtain ⟨address, keys, values, rfl, hleaf⟩ := h.exists_leaf
    refine ⟨⟨hleaf.increasing, hleaf.within, hleaf.le_order, ?_, ?_⟩, hleaf.aligned⟩
    · exact fun hr => (hleast hr).trans hleaf.least_le
    · exact fun hr => (hroot hr).trans hleaf.least_le
  | succ d ih =>
    obtain ⟨address, keys, children, rfl, hint⟩ := h.exists_internal
    refine ⟨⟨hint.chain.pairwise, fun _ => hint.chain.within_range, hint.le_order, ?_, ?_⟩,
      hint.chain.length_eq, ?_⟩
    · exact fun hr => (hleast hr).trans hint.least_le
    · exact fun hr => (hroot hr).trans hint.least_le
    · intro i child hchild
      exact ih (hint.chain.child_at hchild) (by simp) fun _ => le_rfl

mutual

/-- The keys in the leaves of a subtree. -/
def leafKeys : NodeRef α ν → List α
  | .leaf _ keys _ => keys
  | .internal _ _ children => leafKeysOf children

/-- The keys in the leaves below a list of nodes. -/
def leafKeysOf : List (NodeRef α ν) → List α
  | [] => []
  | child :: children => child.leafKeys ++ leafKeysOf children

end

omit [LinearOrder α] in
theorem leafKeysOf_eq (children : List (NodeRef α ν)) :
    leafKeysOf children = children.flatMap leafKeys := by
  induction children with
  | nil => rfl
  | cons child children ih => rw [leafKeysOf, ih, List.flatMap_cons]

/-- The leaves of a well-formed subtree hold the keys of its items. -/
theorem Wf.leafKeys_eq {order d least : ℕ} {lo hi : Option α} (h : Wf order d least lo hi node) :
    node.leafKeys = node.items.map Prod.fst := by
  induction d generalizing least lo hi node with
  | zero =>
    obtain ⟨address, keys, values, rfl, hleaf⟩ := h.exists_leaf
    rw [keys_of_items_leaf address hleaf.aligned, leafKeys]
  | succ d ih =>
    obtain ⟨address, keys, children, rfl, hint⟩ := h.exists_internal
    rw [leafKeys, leafKeysOf_eq, items_internal, List.map_flatMap]
    refine List.flatMap_congr fun child hchild => ?_
    obtain ⟨i, hi⟩ := List.mem_iff_getElem?.mp hchild
    exact ih (hint.chain.child_at hi)

end NodeRef

/-! ## One update -/

namespace BPlusTree

variable [LinearOrder α] {t : BPlusTree α ν} {f : α → Option ν}
variable {order : ℕ}

/-- The invariant of a tree. -/
structure Ok (t : BPlusTree α ν) : Prop where
  order_ge : 3 ≤ t.order
  root_wf : ∀ root ∈ t.treeRef, ∃ d, NodeRef.Wf t.order d 1 none none root
  count_eq : t.count = t.items.length

theorem Ok.empty (h : 3 ≤ order) : (BPlusTree.empty order : BPlusTree α ν).Ok where
  order_ge := h
  root_wf := by simp [BPlusTree.empty]
  count_eq := rfl

theorem Ok.items_increase (h : t.Ok) : KeysIncrease t.items := by
  unfold items
  cases hroot : t.treeRef with
  | none => exact List.Pairwise.nil
  | some root =>
    obtain ⟨d, hwf⟩ := h.root_wf root hroot
    exact hwf.items_increase.1

/-- `get` returns what the items bind the key to, or raises `KeyError`. -/
theorem Ok.get_spec (h : t.Ok) (key : α) :
    (∃ v, t.get key = .ok v ∧ (key, v) ∈ t.items) ∨
      (t.get key = .error .keyError ∧ ∀ v, (key, v) ∉ t.items) := by
  unfold get items
  cases hroot : t.treeRef with
  | none => exact .inr ⟨rfl, by simp⟩
  | some root =>
    obtain ⟨d, hwf⟩ := h.root_wf root hroot
    exact hwf.get_spec key

/-- `set` returns, keeps the invariant and writes one binding. -/
theorem Ok.set_spec (h : t.Ok) (key : α) (value : ν) :
    ∃ t' n, set key value t = .ok () t' ∧ t'.Ok ∧ t'.order = t.order ∧
      Inserted key value t.items t'.items n := by
  cases hroot : t.treeRef with
  | none =>
    have hins : Inserted key value t.items [(key, value)] 1 := by
      simpa [items, hroot] using (Inserted.added [] [] : Inserted key value _ _ 1)
    refine ⟨⟨t.order, some (.leafRef [key] [⟨value, 0⟩]), t.count + 1⟩, 1,
      by simp [set, hroot, NodeRef.insert], ⟨h.order_ge, ?_, ?_⟩, rfl, ?_⟩
    · rintro root ⟨⟩
      exact ⟨0, NodeRef.wf_single h.order_ge key ⟨value, 0⟩⟩
    · have := h.count_eq
      simp [items, hroot] at this
      simp [items, NodeRef.items, NodeRef.leafRef, this]
    · simpa [items, NodeRef.items, NodeRef.leafRef] using hins
  | some node =>
    obtain ⟨d, hwf⟩ := h.root_wf node hroot
    obtain ⟨root, d', n, hrun, hwf', hins⟩ := hwf.insert_spec h.order_ge key ⟨value, 0⟩ t.count
    refine ⟨⟨t.order, some root, t.count + n⟩, n, by simp [set, hroot, hrun],
      ⟨h.order_ge, ?_, ?_⟩, rfl, by simpa [items, hroot]⟩
    · rintro r ⟨⟩
      exact ⟨d', hwf'⟩
    · rw [h.count_eq]
      simp [items, hroot, hins.length_eq]

/-- `delete` removes the binding of a key and keeps the invariant, or raises
`KeyError` and changes nothing. -/
theorem Ok.delete_spec (h : t.Ok) (key : α) :
    (∃ t', delete key t = .ok () t' ∧ t'.Ok ∧ t'.order = t.order ∧
        Removed key t.items t'.items) ∨
      (delete key t = .error .keyError t ∧ ∀ v, (key, v) ∉ t.items) := by
  obtain ⟨order, treeRef, count⟩ := t
  cases treeRef with
  | none => exact .inr ⟨rfl, by simp [items]⟩
  | some node =>
    obtain ⟨d, hwf⟩ := h.root_wf node rfl
    rcases hwf.delete_spec h.order_ge key count with ⟨root, hrun, hwf', hrem⟩ | ⟨hrun, habsent⟩
    · refine .inl ⟨⟨order, root, count - 1⟩, by simp [delete, hrun], ⟨h.order_ge, hwf', ?_⟩, rfl, hrem⟩
      have hcount : count = node.items.length := h.count_eq
      rw [hcount, hrem.length_eq]
      simp [items]
    · exact .inr ⟨by simp [delete, hrun], habsent⟩

/-! ## Runs -/

/-- The tree after an update, whether it returned or raised. -/
def update (t : BPlusTree α ν) : Update α ν → BPlusTree α ν
  | .set key value => resultState (set key value t)
  | .delete key => resultState (delete key t)

/-- The tree after a sequence of updates. -/
def updateAll (t : BPlusTree α ν) (updates : List (Update α ν)) : BPlusTree α ν :=
  updates.foldl update t

/-- The tree keeps its invariant and represents the map `f`. -/
structure Holds (order : ℕ) (t : BPlusTree α ν) (f : α → Option ν) : Prop where
  ok : t.Ok
  order_eq : t.order = order
  represents : Represents t.items f

theorem Holds.empty (h : 3 ≤ order) :
    Holds order (BPlusTree.empty order : BPlusTree α ν) fun _ => none :=
  ⟨.empty h, rfl, .nil⟩

/-- Only the empty tree holds the empty map. -/
theorem Holds.eq_empty (h : Holds order t fun _ => none) : t = .empty order := by
  have hitems : t.items = [] := h.represents.unique .nil
  have hroot : t.treeRef = none := by
    by_contra hne
    obtain ⟨root, hroot⟩ := Option.ne_none_iff_exists'.mp hne
    obtain ⟨d, hwf⟩ := h.ok.root_wf root hroot
    rw [items, hroot] at hitems
    exact hwf.items_ne_nil (Nat.le_refl 1) h.ok.order_ge hitems
  have hcount := h.ok.count_eq
  rw [hitems] at hcount
  obtain ⟨order', treeRef, count⟩ := t
  have horder : order' = order := h.order_eq
  have hcount : count = 0 := hcount
  have hroot : treeRef = none := hroot
  rw [horder, hroot, hcount]
  rfl

variable {order : ℕ}

section

variable (h : Holds order t f)
include h

/-- `get` reads the map. -/
theorem Holds.get_eq (key : α) :
    t.get key = match f key with
      | some value => .ok value
      | none => .error .keyError := by
  rcases h.ok.get_spec key with ⟨v, hget, hmem⟩ | ⟨hget, habsent⟩
  · rw [hget, (h.represents.mem_iff key v).mp hmem]
  · have hnone : f key = none := by
      rw [Option.eq_none_iff_forall_not_mem]
      intro v hv
      exact habsent v ((h.represents.mem_iff key v).mpr hv)
    rw [hget, hnone]

/-- `set` updates the map. -/
theorem Holds.set (key : α) (value : ν) :
    ∃ t', BPlusTree.set key value t = .ok () t' ∧
      Holds order t' (Function.update f key (some value)) := by
  obtain ⟨t', n, hrun, hok, horder, hins⟩ := h.ok.set_spec key value
  exact ⟨t', hrun, hok, horder.trans h.order_eq, h.represents.inserted hins hok.items_increase⟩

/-- `delete` erases a bound key. -/
theorem Holds.delete {key : α} (hkey : f key ≠ none) :
    ∃ t', BPlusTree.delete key t = .ok () t' ∧ Holds order t' (Function.update f key none) := by
  rcases h.ok.delete_spec key with ⟨t', hrun, hok, horder, hrem⟩ | ⟨-, habsent⟩
  · exact ⟨t', hrun, hok, horder.trans h.order_eq, h.represents.removed hrem⟩
  · obtain ⟨v, hv⟩ := Option.ne_none_iff_exists'.mp hkey
    exact absurd ((h.represents.mem_iff key v).mpr hv) (habsent v)

/-- `delete` of an absent key raises `KeyError` and changes nothing. -/
theorem Holds.delete_absent {key : α} (hkey : f key = none) :
    BPlusTree.delete key t = .error .keyError t := by
  rcases h.ok.delete_spec key with ⟨t', hrun, hok, horder, hrem⟩ | ⟨hrun, -⟩
  · exact absurd hkey (h.represents.bound_of_removed hrem)
  · exact hrun

theorem Holds.length_eq : t.length = ({k | f k ≠ none}.ncard : ℤ) := by
  rw [length, h.ok.count_eq, h.represents.length_eq]

/-- One update of the tree is one update of the map. -/
theorem Holds.update (u : Update α ν) :
    Holds order (t.update u) (u.applyTo f) := by
  cases u with
  | set key value =>
    obtain ⟨t', hrun, h'⟩ := h.set key value
    rw [BPlusTree.update, hrun]
    exact h'
  | delete key =>
    by_cases hkey : f key = none
    · rw [BPlusTree.update, h.delete_absent hkey]
      have hsame : Update.applyTo f (.delete key) = f := Function.update_eq_self_iff.mpr hkey.symm
      rw [hsame]
      exact h
    · obtain ⟨t', hrun, h'⟩ := h.delete hkey
      rw [BPlusTree.update, hrun]
      exact h'

/-- A run of updates of the tree is a run of updates of the map. -/
theorem Holds.updateAll (updates : List (Update α ν)) :
    Holds order (t.updateAll updates) (Update.applyAll f updates) := by
  induction updates generalizing t f with
  | nil => exact h
  | cons u updates ih => exact ih (h.update u)

end

example : ((BPlusTree.empty 3).updateAll [.set 4 40, .set 2 20, .set 5 50, .set 1 10, .delete 4]
    : BPlusTree ℕ ℕ).items = [(1, 10), (2, 20), (5, 50)] := by decide

/-- **The B+ tree is a sorted map.**  After any updates of an empty tree, `get` and
`delete` answer as the reference map does, `items` lists its bindings in increasing key
order, and `length` is their number. -/
theorem sorted_map (order : ℕ) (horder : 3 ≤ order) (updates : List (Update α ν)) :
    let t : BPlusTree α ν := (BPlusTree.empty order).updateAll updates
    let f : α → Option ν := Update.applyAll (fun _ => none) updates
    (∀ key, t.get key = match f key with
      | some value => .ok value
      | none => .error .keyError) ∧
    (∀ key value, ∃ t', BPlusTree.set key value t = .ok () t') ∧
    (∀ key, f key ≠ none → ∃ t', BPlusTree.delete key t = .ok () t') ∧
    (∀ key, f key = none → BPlusTree.delete key t = .error .keyError t) ∧
    t.items.Pairwise (fun a b => a.1 < b.1) ∧
    (∀ key value, (key, value) ∈ t.items ↔ f key = some value) ∧
    t.length = ({key | f key ≠ none}.ncard : ℤ) := by
  intro t f
  have h : Holds order t f := (Holds.empty horder).updateAll updates
  refine ⟨h.get_eq, ?_, ?_, fun key => h.delete_absent, h.represents.increasing,
    h.represents.mem_iff, h.length_eq⟩
  · intro key value
    obtain ⟨t', hrun, -⟩ := h.set key value
    exact ⟨t', hrun⟩
  · intro key hkey
    obtain ⟨t', hrun, -⟩ := h.delete hkey
    exact ⟨t', hrun⟩

/-- Updates that grow a tree of order 3 to two levels and shrink it again. -/
def sampleUpdates : List (Update ℕ ℕ) :=
  [.set 4 40, .set 2 20, .set 5 50, .set 1 10, .set 3 30, .delete 5, .delete 2, .delete 9]

theorem sorted_map_sample :
    let t : BPlusTree ℕ ℕ := (BPlusTree.empty 3).updateAll sampleUpdates
    3 ≤ 3 ∧ t.get 3 = .ok 30 ∧ t.get 2 = .error .keyError ∧
      BPlusTree.delete 2 t = .error .keyError t := by
  obtain ⟨hget, -, -, hdelete, -⟩ := sorted_map 3 (by decide) sampleUpdates
  refine ⟨by decide, ?_, ?_, ?_⟩
  · rw [hget]
    rfl
  · rw [hget]
    rfl
  · exact hdelete 2 rfl

/-- A well-formed tree passes its audit. -/
theorem Ok.audit_eq (h : t.Ok) :
    ∃ report, t.audit = .ok report ∧ report.errors = [] ∧ report.keys = t.items.length ∧
      report.values = t.items.length := by
  have hchecked : ∃ height n, t.checkRoot ⟨[], 0, 0, 0⟩ =
      .ok height (AuditState.seen ⟨[], 0, 0, 0⟩ n t.items.length) := by
    unfold checkRoot items
    cases hroot : t.treeRef with
    | none => exact ⟨0, 0, rfl⟩
    | some root =>
      obtain ⟨d, hwf⟩ := h.root_wf root hroot
      obtain ⟨n, hn⟩ := hwf.check_spec true (fun _ => Nat.le_refl 1) (by simp)
        ⟨[], 0, 0, 0⟩
      exact ⟨d + 1, n, hn⟩
  obtain ⟨height, n, hrun⟩ := hchecked
  unfold audit
  rw [hrun]
  simp [AuditState.seen, AuditState.report, h.count_eq]

/-- **The representation invariant.**  Every tree reached from the empty one by updates
is sound node by node, counts its leaf keys, and passes its audit. -/
theorem representation_invariant (order : ℕ) (horder : 3 ≤ order) (updates : List (Update α ν)) :
    let t : BPlusTree α ν := (BPlusTree.empty order).updateAll updates
    (∀ root, t.treeRef = some root → ∃ d, NodeRef.Sound order true d none none root) ∧
    t.count = ((t.treeRef.elim [] NodeRef.leafKeys).length : ℤ) ∧
    ∃ report, t.audit = .ok report ∧ report.errors = [] := by
  intro t
  have h : Holds order t (Update.applyAll (fun _ => none) updates) :=
    (Holds.empty horder).updateAll updates
  refine ⟨?_, ?_, ?_⟩
  · intro root hroot
    obtain ⟨d, hwf⟩ := h.ok.root_wf root hroot
    rw [h.order_eq] at hwf
    exact ⟨d, hwf.sound (fun _ => Nat.le_refl 1) (by simp)⟩
  · rw [h.ok.count_eq, items]
    cases hroot : t.treeRef with
    | none => rfl
    | some root =>
      obtain ⟨d, hwf⟩ := h.ok.root_wf root hroot
      simp [hwf.leafKeys_eq]
  · obtain ⟨report, hrun, herrors, -⟩ := h.ok.audit_eq
    exact ⟨report, hrun, herrors⟩

theorem representation_invariant_sample :
    let t : BPlusTree ℕ ℕ := (BPlusTree.empty 3).updateAll sampleUpdates
    3 ≤ 3 ∧ t.count = ((t.treeRef.elim [] NodeRef.leafKeys).length : ℤ) ∧
      ∃ report, t.audit = .ok report ∧ report.errors = [] :=
  ⟨by decide, (representation_invariant 3 (by decide) sampleUpdates).2⟩

end BPlusTree
