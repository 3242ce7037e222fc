/-
# Insertion into the B+ tree

What `_insert_rec` hands its caller (`Grown`) is again a well-formed subtree for the
same range, or two of them with the separator between them; either way the items are
those of the old subtree with one binding written.
-/
import ImmuStore.BPlusInvariant

variable {α ν : Type} [LinearOrder α]

namespace NodeRef

variable {order d least : ℕ} {lo hi : Option α} {key : α}
variable {keys : List α}
variable {values : List (ValueRef ν)} {node : NodeRef α ν}

/-- The results of `_insert_rec` for the range from `lo` to `hi`, with their items. -/
inductive Grown (order d least : ℕ) (lo hi : Option α) :
    NodeRef α ν × Option (α × NodeRef α ν) → List (α × ν) → Prop
  | whole {node : NodeRef α ν} :
      Wf order d least lo hi node → Grown order d least lo hi (node, none) node.items
  | split {left right : NodeRef α ν} {separator : α} :
      Chain (Wf order d (order / 2)) lo hi [separator] [left, right] →
      Grown order d least lo hi (left, some (separator, right)) (left.items ++ right.items)

/-! ## Leaves -/

/-- Writing into a leaf keeps it a leaf, with one key more at most. -/
theorem leafPut_spec (valueRef : ValueRef ν) (h : LeafOk order least lo hi keys values)
    (hkey : Within lo hi key) (count : ℤ) :
    ∃ keys' values' n, leafPut key valueRef keys values count = .ok (keys', values') (count + (n : ℕ)) ∧
      LeafOk (order + 1) least lo hi keys' values' ∧
      Inserted key valueRef.referent (leafRef keys values).items (leafRef keys' values').items n := by
  obtain ⟨K1, K2, V1, V2, rfl, rfl, hV1, hV2, hindex, hlt, hfound | habsent⟩ :=
    exists_leaf_route h key
  · obtain ⟨hget, K3, rfl⟩ := hfound
    obtain ⟨v, V3, rfl⟩ := List.exists_cons_of_length_eq_add_one hV2
    refine ⟨K1 ++ key :: K3, V1 ++ valueRef :: V3, 0, ?_, ?_, ?_⟩
    · rw [leafPut, if_pos hget, hindex, ← hV1, setItem_append]
      simp
    · exact { increasing := h.increasing, within := h.within, least_le := h.least_le
              aligned := by simpa using h.aligned, le_order := h.le_order.trans (Nat.le_succ _) }
    · simp only [leafRef, items_leaf_append hV1, items_leaf_cons]
      exact .replaced _ _ _
  · obtain ⟨hget, hgt⟩ := habsent
    refine ⟨K1 ++ key :: K2, V1 ++ valueRef :: V2, 1, ?_, ?_, ?_⟩
    · rw [leafPut, if_neg hget, hindex, insertItem_append, ← hV1, insertItem_append]
      simp
    · obtain ⟨h1, h2, h12⟩ := List.pairwise_append.mp h.increasing
      have hsorted : (K1 ++ key :: K2).Pairwise (· < ·) := by
        rw [List.pairwise_append]
        refine ⟨h1, List.Pairwise.cons hgt h2, fun a ha b hb => ?_⟩
        rcases List.mem_cons.mp hb with rfl | hb
        · exact hlt a ha
        · exact h12 a ha b hb
      have hwithin : ∀ k ∈ K1 ++ key :: K2, Within lo hi k := by
        intro k hk
        rcases List.mem_append.mp hk with hk | hk
        · exact h.within k (List.mem_append_left _ hk)
        · rcases List.mem_cons.mp hk with rfl | hk
          · exact hkey
          · exact h.within k (List.mem_append_right _ hk)
      have hlen : (K1 ++ key :: K2).length = (K1 ++ K2).length + 1 := by simp; omega
      exact { increasing := hsorted, within := hwithin, aligned := by simp [hV1, hV2]
              least_le := by have := h.least_le; omega
              le_order := by have := h.le_order; omega }
    · simp only [leafRef, items_leaf_append hV1, items_leaf_cons]
      exact .added _ _

/-- The overflow test of a leaf. -/
theorem leafSplit_spec (ho : 3 ≤ order) (h : LeafOk (order + 1) least lo hi keys values)
    (count : ℤ) :
    ∃ result, leafSplit order keys values count = .ok result count ∧
      Grown order 0 least lo hi result (leafRef keys values).items := by
  by_cases hfit : keys.length ≤ order
  · refine ⟨(leafRef keys values, none), ?_, .whole ?_⟩
    · rw [leafSplit, if_pos hfit]
      rfl
    · exact { h with le_order := hfit }
  · have hlen : keys.length = order + 1 := by have := h.le_order; omega
    obtain ⟨K1, s, K2, rfl, hK1⟩ : ∃ K1 s K2, keys = K1 ++ s :: K2 ∧ K1.length = keys.length / 2 :=
      exists_append_cons_of_lt (by omega)
    obtain ⟨V1, V2, rfl, hV1⟩ : ∃ V1 V2, values = V1 ++ V2 ∧ V1.length = K1.length :=
      exists_append_of_le (by rw [h.aligned]; omega)
    have hlen2 : K1.length + K2.length = order := by
      simp only [List.length_append, List.length_cons] at hlen
      omega
    have hne : K1 ≠ [] := by
      rintro rfl
      simp only [List.length_nil] at hK1
      omega
    have hhalf : K1.length = (order + 1) / 2 := by rw [hK1, hlen]
    refine ⟨(leafRef K1 V1, some (s, leafRef (s :: K2) V2)), ?_, ?_⟩
    · rw [leafSplit, if_neg hfit, ← hK1, getItem_append]
      simp [← hV1]
    · have hitems : (leafRef (K1 ++ s :: K2) (V1 ++ V2)).items =
          (leafRef K1 V1).items ++ (leafRef (s :: K2) V2).items := items_leaf_append hV1
      rw [hitems]
      exact .split (h.cut hV1 hne (by omega) (by omega) (by omega) (by omega))

/-! ## Internal nodes -/

/-- The overflow test of an internal node. -/
theorem internalSplit_spec (ho : 3 ≤ order) {children : List (NodeRef α ν)}
    (h : Chain (Wf order d (order / 2)) lo hi keys children) (hmin : least ≤ keys.length)
    (hmax : keys.length ≤ order + 1) (count : ℤ) :
    ∃ result, internalSplit order keys children count = .ok result count ∧
      Grown order (d + 1) least lo hi result (children.flatMap items) := by
  by_cases hfit : keys.length ≤ order
  · refine ⟨(internalRef keys children, none), ?_, ?_⟩
    · rw [internalSplit, if_pos hfit]
      rfl
    · rw [← items_internal 0 keys]
      exact .whole ⟨h, hmin, hfit⟩
  · have hlen : keys.length = order + 1 := by omega
    have hlenC := h.length_eq
    obtain ⟨K1, s, K2, rfl, hK1⟩ : ∃ K1 s K2, keys = K1 ++ s :: K2 ∧ K1.length = keys.length / 2 :=
      exists_append_cons_of_lt (by omega)
    obtain ⟨C1, C2, rfl, hC1⟩ : ∃ C1 C2, children = C1 ++ C2 ∧ C1.length = K1.length + 1 :=
      exists_append_of_le (by omega)
    have hlen2 : K1.length + K2.length = order := by
      simp only [List.length_append, List.length_cons] at hlen
      omega
    have hhalf : K1.length = (order + 1) / 2 := by rw [hK1, hlen]
    refine ⟨(internalRef K1 C1, some (s, internalRef K2 C2)), ?_, ?_⟩
    · rw [internalSplit, if_neg hfit, ← hK1, getItem_append]
      have htake : (C1 ++ C2).take (K1.length + 1) = C1 := by rw [← hC1, List.take_left]
      have hdrop : (C1 ++ C2).drop (K1.length + 1) = C2 := by rw [← hC1, List.drop_left]
      have hkeys : (K1 ++ s :: K2).drop (K1.length + 1) = K2 := by simp
      simp [htake, hdrop, hkeys]
    · rw [List.flatMap_append, ← items_internal 0 K1, ← items_internal 0 K2]
      exact .split (cut_internal h hC1 (by omega) (by omega) (by omega) (by omega))

theorem insertIn_append (valueRef : ValueRef ν) (C1 : List (NodeRef α ν)) (child : NodeRef α ν) (C2 : List (NodeRef α ν)) :
    insertIn order key valueRef (C1 ++ child :: C2) C1.length =
      insertRec order key valueRef child := by
  induction C1 with
  | nil => rfl
  | cons c C1 ih => exact ih

/-- What became of a child takes its place among its siblings. -/
theorem internalPut_spec {l u : Option α} {K1 K2 : List α} {C1 C2 : List (NodeRef α ν)}
    {result : NodeRef α ν × Option (α × NodeRef α ν)} {items' : List (α × ν)}
    (child : NodeRef α ν) (hC1 : C1.length = K1.length) (hlu : Below l u)
    (hgrown : Grown order d (order / 2) l u result items')
    (hput : ∀ ks cs, Chain (Wf order d (order / 2)) l u ks cs →
      Chain (Wf order d (order / 2)) lo hi (K1 ++ (ks ++ K2)) (C1 ++ (cs ++ C2))) (count : ℤ) :
    ∃ keys' children',
      internalPut (K1 ++ K2) (C1 ++ child :: C2) C1.length result.1 result.2 count =
        .ok (keys', children') count ∧
      Chain (Wf order d (order / 2)) lo hi keys' children' ∧
      (K1 ++ K2).length ≤ keys'.length ∧ keys'.length ≤ (K1 ++ K2).length + 1 ∧
      children'.flatMap items = C1.flatMap items ++ (items' ++ C2.flatMap items) := by
  cases hgrown with
  | whole hnew =>
    refine ⟨_, _, ?_, hput [] _ (.last hlu hnew), by simp, by simp, by simp⟩
    rw [internalPut, setItem_append]
    simp
  | @split left right s hnew =>
    refine ⟨_, _, ?_, hput _ _ hnew, by simp, by simp; omega, by simp⟩
    have hkeys : insertItem (K1 ++ K2) C1.length s = K1 ++ ([s] ++ K2) := by
      rw [hC1, insertItem_append]
      rfl
    have hright : insertItem (C1 ++ left :: C2) (C1.length + 1) right =
        C1 ++ ([left, right] ++ C2) := by
      simpa using insertItem_append (C1 ++ [left]) C2 right
    rw [internalPut, setItem_append]
    simp only [run_bind, run_pure, hkeys, hright]

/-! ## The whole insertion -/

/-- `_insert_rec` on a well-formed subtree returns, and writes one binding. -/
theorem Wf.insertRec_spec (ho : 3 ≤ order) (valueRef : ValueRef ν) (h : Wf order d least lo hi node)
    (hkey : Within lo hi key) (count : ℤ) :
    ∃ result items' n, insertRec order key valueRef node count = .ok result (count + (n : ℕ)) ∧
      Grown order d least lo hi result items' ∧
      Inserted key valueRef.referent node.items items' n := by
  induction d generalizing least lo hi node with
  | zero =>
    obtain ⟨address, keys, values, rfl, hleaf⟩ := h.exists_leaf
    obtain ⟨keys', values', n, hput, hleaf', hins⟩ :=
      leafPut_spec valueRef hleaf hkey count
    obtain ⟨result, hsplit, hgrown⟩ := leafSplit_spec ho hleaf' (count + n)
    refine ⟨result, _, n, ?_, hgrown, hins⟩
    rw [insertRec, run_bind, hput]
    exact hsplit
  | succ d ih =>
    obtain ⟨address, keys, children, rfl, hint⟩ := h.exists_internal
    obtain ⟨K1, K2, C1, child, C2, rfl, rfl, hroute⟩ := exists_route hint.chain key
    obtain ⟨l, u, hlu, hchild, hrange, hput⟩ := hroute.focus
    obtain ⟨result, items', n, hrec, hgrown, hins⟩ := ih hchild (hrange hkey)
    obtain ⟨keys', children', hnew, hchain', hmin, hmax, hitems⟩ :=
      internalPut_spec child hroute.aligned hlu hgrown hput (count + n)
    obtain ⟨result', hsplit, hgrown'⟩ := internalSplit_spec ho hchain'
      (hint.least_le.trans hmin) (hmax.trans (Nat.succ_le_succ hint.le_order)) (count + n)
    refine ⟨result', _, n, ?_, hgrown', ?_⟩
    · rw [insertRec, hroute.index, insertIn_append]
      simp only [run_bind, hrec, hnew, hsplit]
    · rw [hitems, items_internal, List.flatMap_append, List.flatMap_cons]
      exact hins.context _ _

/-- `_insert` on a well-formed tree writes one binding, and the tree stays
well-formed. -/
theorem Wf.insert_spec (ho : 3 ≤ order) (key : α) (valueRef : ValueRef ν)
    (h : Wf order d 1 none none node) (count : ℤ) :
    ∃ root d' n, insert order key valueRef (some node) count = .ok root (count + (n : ℕ)) ∧
      Wf order d' 1 none none root ∧ Inserted key valueRef.referent node.items root.items n := by
  obtain ⟨result, items', n, hrec, hgrown, hins⟩ :=
    h.insertRec_spec ho valueRef (within_open key) count
  cases hgrown with
  | @whole root hroot =>
    refine ⟨root, d, n, ?_, hroot, hins⟩
    simp only [insert, run_bind, hrec, run_pure]
  | @split left right s hchain =>
    refine ⟨internalRef [s] [left, right], d + 1, n, ?_, ⟨hchain, by simp, by simp; omega⟩, ?_⟩
    · simp only [insert, run_bind, hrec, run_pure]
    · simpa [internalRef, items_internal] using hins

/-- The first binding makes a leaf the root. -/
theorem wf_single (ho : 3 ≤ order) (key : α) (valueRef : ValueRef ν) :
    Wf order 0 1 none none (leafRef [key] [valueRef]) :=
  { increasing := by simp, within := fun _ _ => within_open _, aligned := rfl
    least_le := by simp, le_order := by simp; omega }

end NodeRef
