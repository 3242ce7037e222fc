/-
# Copy on write

An update builds new nodes out of references it was given: a value or child reference
of the new tree is one of the old tree, the new value, or a node built by the update.
So a property of references that new nodes have when their parts have it
(`Hereditary`) passes from a tree to every tree updated from it.
-/
import ImmuStore.BPlusTree

variable {α ν : Type}

namespace NodeRef

/-- Properties of value and node references that new nodes inherit from their parts. -/
structure Hereditary (P : ValueRef ν → Prop) (Q : NodeRef α ν → Prop) : Prop where
  leafRef : ∀ keys values, (∀ v ∈ values, P v) → Q (leafRef keys values)
  internalRef : ∀ keys children, (∀ c ∈ children, Q c) → Q (internalRef keys children)
  values : ∀ {address keys values}, Q (.leaf address keys values) → ∀ v ∈ values, P v
  children : ∀ {address keys children}, Q (.internal address keys children) → ∀ c ∈ children, Q c

namespace Hereditary

variable {P : ValueRef ν → Prop} {Q : NodeRef α ν → Prop}
variable {values : List (ValueRef ν)} {children : List (NodeRef α ν)}

/-! ## Insert -/

/-- A result of `_insert_rec` whose references have the property. -/
def Inherited (Q : NodeRef α ν → Prop) (r : NodeRef α ν × Option (α × NodeRef α ν)) : Prop :=
  Q r.1 ∧ ∀ s ∈ r.2, Q s.2

theorem leafSplit (h : Hereditary P Q) (order : ℕ) (keys : List α) (hv : ∀ v ∈ values, P v) :
    Returns (leafSplit order keys values) (Inherited Q) := by
  unfold NodeRef.leafSplit
  refine .ite (.pure ⟨h.leafRef _ _ hv, by simp⟩) (.bind (returns_getItem _ _) fun s _ => .pure ?_)
  refine ⟨h.leafRef _ _ fun v hv' => hv v (List.mem_of_mem_take hv'), ?_⟩
  rintro _ ⟨⟩
  exact h.leafRef _ _ fun v hv' => hv v (List.mem_of_mem_drop hv')

theorem internalSplit (h : Hereditary P Q) (order : ℕ) (keys : List α) (hc : ∀ c ∈ children, Q c) :
    Returns (internalSplit order keys children) (Inherited Q) := by
  unfold NodeRef.internalSplit
  refine .ite (.pure ⟨h.internalRef _ _ hc, by simp⟩)
    (.bind (returns_getItem _ _) fun s _ => .pure ?_)
  refine ⟨h.internalRef _ _ fun c hc' => hc c (List.mem_of_mem_take hc'), ?_⟩
  rintro _ ⟨⟩
  exact h.internalRef _ _ fun c hc' => hc c (List.mem_of_mem_drop hc')

theorem internalPut (keys : List α) (index : ℕ) {newChild : NodeRef α ν}
    {split : Option (α × NodeRef α ν)} (hc : ∀ c ∈ children, Q c)
    (hnew : Inherited Q (newChild, split)) :
    Returns (internalPut keys children index newChild split) fun r => ∀ c ∈ r.2, Q c := by
  unfold NodeRef.internalPut
  refine .bind (returns_setItem _ _ _) fun children' hset => ?_
  have hc' : ∀ c ∈ children', Q c := by
    intro c hmem
    rcases hset c hmem with hold | rfl
    · exact hc c hold
    · exact hnew.1
  cases split with
  | none => exact .pure hc'
  | some s =>
    refine .pure fun c hmem => ?_
    rcases mem_insertItem hmem with hold | rfl
    · exact hc' c hold
    · exact hnew.2 s rfl

variable [LinearOrder α] {key : α} {valueRef : ValueRef ν}
variable {root : Option (NodeRef α ν)}

theorem leafPut (hnew : P valueRef) (keys : List α) (hv : ∀ v ∈ values, P v) :
    Returns (leafPut key valueRef keys values) fun r => ∀ v ∈ r.2, P v := by
  have hold : ∀ v, v ∈ values ∨ v = valueRef → P v := by
    rintro v (hmem | rfl)
    · exact hv v hmem
    · exact hnew
  unfold NodeRef.leafPut
  refine .ite (.bind (returns_setItem _ _ _) fun values' hset => ?_)
    (.bind (.modify _) fun _ _ => ?_)
  · exact .pure fun v hmem => hold v (hset v hmem)
  · exact .pure fun v hmem => hold v (mem_insertItem hmem)

mutual

/-- `_insert_rec` passes the property on. -/
theorem insertRec (h : Hereditary P Q) (order : ℕ) (hnew : P valueRef) :
    ∀ {node : NodeRef α ν}, Q node →
    Returns (insertRec order key valueRef node) (Inherited Q)
  | .leaf address keys values, hnode => by
    rw [NodeRef.insertRec]
    exact .bind (leafPut hnew keys (h.values hnode)) fun r hr => h.leafSplit order _ hr
  | .internal address keys children, hnode => by
    rw [NodeRef.insertRec]
    refine .bind (h.insertIn order hnew (h.children hnode) _) fun r hr => ?_
    exact .bind (internalPut keys _ (h.children hnode) hr) fun n hn => h.internalSplit order _ hn

theorem insertIn (h : Hereditary P Q) (order : ℕ) (hnew : P valueRef) :
    ∀ {children : List (NodeRef α ν)}, (∀ c ∈ children, Q c) → ∀ i, Returns (insertIn order key valueRef children i) (Inherited Q)
  | [], _, _ => by
    rw [NodeRef.insertIn]
    exact Returns.throw
  | child :: _, hc, 0 => by
    rw [NodeRef.insertIn]
    exact h.insertRec order hnew (hc child (by simp))
  | _ :: children, hc, i + 1 => by
    rw [NodeRef.insertIn]
    exact h.insertIn order hnew (fun c hmem => hc c (by simp [hmem])) i

end

theorem insert (h : Hereditary P Q) (order : ℕ) (hnew : P valueRef) (hroot : ∀ r ∈ root, Q r) :
    Returns (insert order key valueRef root) Q := by
  cases root with
  | none =>
    exact .bind (.modify _) fun _ _ => .pure (h.leafRef _ _ (by simpa using hnew))
  | some node =>
    refine .bind (h.insertRec order hnew (hroot node rfl)) fun r hr => ?_
    obtain ⟨new, split⟩ := r
    cases split with
    | none => exact .pure hr.1
    | some s =>
      refine .pure (h.internalRef _ _ fun c hc => ?_)
      rcases List.mem_pair.mp hc with rfl | rfl
      · exact hr.1
      · exact hr.2 s rfl

/-! ## Delete -/

theorem leafDelete (h : Hereditary P Q) (keys : List α) (hv : ∀ v ∈ values, P v) :
    Returns (leafDelete key keys values) Q := by
  unfold NodeRef.leafDelete
  refine .ite (.bind (returns_delItem _ _) fun values' hdel => ?_) .throw
  refine .bind (returns_delItem _ _) fun keys' _ => .bind (.modify _) fun _ _ => .pure ?_
  exact h.leafRef _ _ fun v hmem => hv v (hdel v hmem)

section

variable {children : List (NodeRef α ν)} {keys : Py ℤ (List α)}
variable {a left child right : NodeRef α ν}

omit [LinearOrder α]

/-- Two children replaced by new ones. -/
theorem setItems (hc : ∀ c ∈ children, Q c) {i j : ℕ} {b : NodeRef α ν} (ha : Q a) (hb : Q b) :
    Returns (do
      let children ← setItem children i a
      let children ← setItem children j b
      let keys ← keys
      return (keys, children)) fun r : List α × List (NodeRef α ν) => ∀ c ∈ r.2, Q c := by
  refine .bind (returns_setItem _ _ _) fun children1 h1 => ?_
  refine .bind (returns_setItem _ _ _) fun children2 h2 => ?_
  refine .bind (P := fun _ => True) (fun _ _ _ _ => trivial) fun keys' _ => .pure fun c hmem => ?_
  rcases h2 c hmem with hmem | rfl
  · rcases h1 c hmem with hmem | rfl
    · exact hc c hmem
    · exact ha
  · exact hb

/-- A child replaced by a new one and its neighbour removed. -/
theorem setDelItems (hc : ∀ c ∈ children, Q c) {i j : ℕ} (ha : Q a) :
    Returns (do
      let children ← setItem children i a
      let children ← delItem children j
      let keys ← keys
      return (keys, children)) fun r : List α × List (NodeRef α ν) => ∀ c ∈ r.2, Q c := by
  refine .bind (returns_setItem _ _ _) fun children1 h1 => ?_
  refine .bind (returns_delItem _ _) fun children2 h2 => ?_
  refine .bind (P := fun _ => True) (fun _ _ _ _ => trivial) fun keys' _ => .pure fun c hmem => ?_
  rcases h1 c (h2 c hmem) with hmem | rfl
  · exact hc c hmem
  · exact ha

theorem borrowFromLeft (h : Hereditary P Q) (keys : List α) (index : ℕ) (hc : ∀ c ∈ children, Q c)
    (hleft : Q left) (hchild : Q child) :
    Returns (borrowFromLeft keys children index left child) fun r => ∀ c ∈ r.2, Q c := by
  unfold NodeRef.borrowFromLeft
  split
  · refine .bind (returns_lastItem _) fun k _ => .bind (returns_lastItem _) fun v hv => ?_
    refine setItems hc (h.leafRef _ _ fun v hmem => ?_) (h.leafRef _ _ fun v' hmem => ?_)
    · exact h.values hleft v (List.mem_of_mem_dropLast hmem)
    · rcases List.mem_cons.mp hmem with rfl | hmem
      · exact h.values hleft _ hv
      · exact h.values hchild _ hmem
  · refine .bind (returns_getItem _ _) fun s _ => .bind (returns_lastItem _) fun k _ =>
      .bind (returns_lastItem _) fun c hcl => ?_
    refine setItems hc (h.internalRef _ _ fun c hmem => ?_) (h.internalRef _ _ fun c' hmem => ?_)
    · exact h.children hleft c (List.mem_of_mem_dropLast hmem)
    · rcases List.mem_cons.mp hmem with rfl | hmem
      · exact h.children hleft _ hcl
      · exact h.children hchild _ hmem
  · exact .throw

theorem borrowFromRight (h : Hereditary P Q) (keys : List α) (index : ℕ) (hc : ∀ c ∈ children, Q c)
    (hright : Q right) (hchild : Q child) :
    Returns (borrowFromRight keys children index right child) fun r => ∀ c ∈ r.2, Q c := by
  unfold NodeRef.borrowFromRight
  split
  · refine .bind (returns_getItem _ _) fun k _ => .bind (returns_getItem _ _) fun v hv =>
      .bind (returns_getItem _ _) fun s _ => ?_
    refine setItems hc (h.leafRef _ _ fun v' hmem => ?_) (h.leafRef _ _ fun v hmem => ?_)
    · rcases List.mem_append.mp hmem with hmem | hmem
      · exact h.values hchild _ hmem
      · rw [List.mem_singleton.mp hmem]
        exact h.values hright _ hv
    · exact h.values hright v (List.mem_of_mem_tail hmem)
  · refine .bind (returns_getItem _ _) fun s _ => .bind (returns_getItem _ _) fun c hcr =>
      .bind (returns_getItem _ _) fun k _ => ?_
    refine setItems hc (h.internalRef _ _ fun c' hmem => ?_) (h.internalRef _ _ fun c hmem => ?_)
    · rcases List.mem_append.mp hmem with hmem | hmem
      · exact h.children hchild _ hmem
      · rw [List.mem_singleton.mp hmem]
        exact h.children hright _ hcr
    · exact h.children hright c (List.mem_of_mem_tail hmem)
  · exact .throw

theorem merge (h : Hereditary P Q) (keys : List α) (index : ℕ) (hc : ∀ c ∈ children, Q c)
    (hleft : Q left) (hright : Q right) :
    Returns (merge keys children index left right) fun r => ∀ c ∈ r.2, Q c := by
  unfold NodeRef.merge
  split
  · refine setDelItems hc (h.leafRef _ _ fun v hmem => ?_)
    rcases List.mem_append.mp hmem with hmem | hmem
    · exact h.values hleft v hmem
    · exact h.values hright v hmem
  · refine .bind (returns_getItem _ _) fun s _ => ?_
    refine setDelItems hc (h.internalRef _ _ fun c hmem => ?_)
    rcases List.mem_append.mp hmem with hmem | hmem
    · exact h.children hleft c hmem
    · exact h.children hright c hmem
  · exact .throw

theorem rebalance (h : Hereditary P Q) (order : ℕ) (keys : List α) (index : ℕ)
    (hc : ∀ c ∈ children, Q c) :
    Returns (rebalance order keys children index) Q := by
  have hsibling : ∀ {i : ℕ} {c : NodeRef α ν}, children[i]? = some c → Q c :=
    fun hget => hc _ (List.mem_of_getElem? hget)
  have hleft : ∀ c, (if 0 < index then children[index - 1]? else none) = some c → Q c := by
    intro c hget
    split_ifs at hget
    exact hsibling hget
  unfold NodeRef.rebalance
  refine .bind (returns_getItem _ _) fun child hchild => ?_
  refine .bind (P := fun r => ∀ c ∈ r.2, Q c) ?_ fun r hr => .pure (h.internalRef _ _ hr)
  have hchild' := hc child hchild
  unfold rebalanceWith
  split
  · rename_i left hlend
    exact h.borrowFromLeft keys index hc (hleft _ (Option.filter_eq_some_iff.mp hlend).1) hchild'
  · rename_i right hlend
    exact h.borrowFromRight keys index hc (hsibling (Option.filter_eq_some_iff.mp hlend).1) hchild'
  · rename_i hget
    exact h.merge keys _ hc (hleft _ hget) hchild'
  · rename_i hget
    exact h.merge keys _ hc hchild' (hsibling hget)
  · exact .throw

end

mutual

/-- `_delete_rec` passes the property on. -/
theorem deleteRec (h : Hereditary P Q) (order : ℕ) : ∀ {node : NodeRef α ν}, Q node →
    Returns (deleteRec order key node) Q
  | .leaf address keys values, hnode => by
    rw [NodeRef.deleteRec]
    exact h.leafDelete keys (h.values hnode)
  | .internal address keys children, hnode => by
    rw [NodeRef.deleteRec]
    refine .bind (h.deleteIn order (h.children hnode) _) fun child hchild => ?_
    refine .bind (returns_setItem _ _ _) fun children' hset => ?_
    have hc : ∀ c ∈ children', Q c := by
      intro c hmem
      rcases hset c hmem with hold | rfl
      · exact h.children hnode c hold
      · exact hchild
    exact .ite (.pure (h.internalRef _ _ hc)) (h.rebalance order keys _ hc)

theorem deleteIn (h : Hereditary P Q) (order : ℕ) : ∀ {children : List (NodeRef α ν)},
    (∀ c ∈ children, Q c) → ∀ i, Returns (deleteIn order key children i) Q
  | [], _, _ => by
    rw [NodeRef.deleteIn]
    exact Returns.throw
  | child :: _, hc, 0 => by
    rw [NodeRef.deleteIn]
    exact h.deleteRec order (hc child (by simp))
  | _ :: children, hc, i + 1 => by
    rw [NodeRef.deleteIn]
    exact h.deleteIn order (fun c hmem => hc c (by simp [hmem])) i

end

theorem delete (h : Hereditary P Q) (order : ℕ) (hroot : ∀ r ∈ root, Q r) :
    Returns (delete order key root) fun root' => ∀ r ∈ root', Q r := by
  cases root with
  | none => exact .throw
  | some node =>
    refine .bind (h.deleteRec order (hroot node rfl)) fun new hnew => ?_
    split
    · refine .bind (returns_getItem _ _) fun child hchild => .pure ?_
      rintro r ⟨⟩
      exact h.children hnew _ hchild
    · exact .pure (by simp)
    · refine .pure ?_
      rintro r ⟨⟩
      exact hnew

end Hereditary

end NodeRef

namespace BPlusTree

variable [LinearOrder α] {P : ValueRef ν → Prop} {Q : NodeRef α ν → Prop} {t t' : BPlusTree α ν}
  {key : α}

/-- `set` passes a hereditary property of references on. -/
theorem set_hereditary (h : NodeRef.Hereditary P Q) {value : ν} (hnew : P ⟨value, 0⟩)
    (ht : ∀ r ∈ t.treeRef, Q r) (hrun : set key value t = .ok () t') : ∀ r ∈ t'.treeRef, Q r := by
  unfold set at hrun
  cases hins : NodeRef.insert t.order key ⟨value, 0⟩ t.treeRef t.count with
  | error e count =>
    rw [hins] at hrun
    cases hrun
  | ok root count =>
    rw [hins] at hrun
    obtain rfl : { t with treeRef := some root, count := count } = t' := by simpa using hrun
    rintro r ⟨⟩
    exact h.insert t.order hnew ht _ _ _ hins

/-- `delete` passes a hereditary property of references on. -/
theorem delete_hereditary (h : NodeRef.Hereditary P Q) (ht : ∀ r ∈ t.treeRef, Q r)
    (hrun : delete key t = .ok () t') : ∀ r ∈ t'.treeRef, Q r := by
  unfold delete at hrun
  cases hdel : NodeRef.delete t.order key t.treeRef t.count with
  | error e count =>
    rw [hdel] at hrun
    cases hrun
  | ok root count =>
    rw [hdel] at hrun
    obtain rfl : { t with treeRef := root, count := count } = t' := by simpa using hrun
    exact h.delete t.order ht _ _ _ hdel

end BPlusTree
