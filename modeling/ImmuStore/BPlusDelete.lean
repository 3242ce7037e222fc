/-
# Deletion from the B+ tree

A deletion leaves a subtree that may be one key short of the minimum.  Its parent
then moves a key over from a sibling or merges the two; either way the two children
are replaced by a stretch of well-formed ones for the same range with the same items
(`Repaired`).  Moving a key is joining the two nodes and cutting them elsewhere.
-/
import ImmuStore.BPlusInvariant

variable {α ν : Type} [LinearOrder α]

namespace NodeRef

variable {order d least : ℕ} {lo hi l u : Option α} {key s : α} {left right : NodeRef α ν}
  {K1 K2 : List α} {C1 C2 : List (NodeRef α ν)}
variable {node : NodeRef α ν}

/-- A stretch of children that takes the place of two neighbours `left` and `right`
in the range from `l` to `u`. -/
structure Repaired (order d : ℕ) (l u : Option α) (left right : NodeRef α ν) (ks : List α)
    (cs : List (NodeRef α ν)) : Prop where
  chain : Chain (Wf order d (order / 2)) l u ks cs
  items_eq : cs.flatMap items = left.items ++ right.items
  length_le : ks.length ≤ 1

/-! ## Borrowing and merging -/

omit [LinearOrder α] in
/-- The separator of two siblings. -/
theorem getItem_separator {K2 : List α} (hC1 : C1.length = K1.length) :
    getItem (K1 ++ s :: K2) C1.length = (pure s : Py ℤ α) := by
  rw [hC1, getItem_append]

omit [LinearOrder α] in
theorem setItem_separator {K2 : List α} (hC1 : C1.length = K1.length) (k : α) :
    setItem (K1 ++ s :: K2) C1.length k = (pure (K1 ++ k :: K2) : Py ℤ (List α)) := by
  rw [hC1, setItem_append]

/-- `_borrow_from_left` repairs an under-full child. -/
theorem borrowFromLeft_spec (K2 : List α) (C2 : List (NodeRef α ν)) (ho : 3 ≤ order)
    (hls : Below l (some s)) (hsu : Below (some s) u)
    (hleft : Wf order d (order / 2) l (some s) left) (hlend : order / 2 < left.numKeys)
    (hright : Wf order d (order / 2 - 1) (some s) u right) (hfew : right.numKeys < order / 2)
    (hC1 : C1.length = K1.length) (count : ℤ) :
    ∃ ks cs, borrowFromLeft (K1 ++ s :: K2) (C1 ++ left :: right :: C2) (C1.length + 1) left right
        count = .ok (K1 ++ (ks ++ K2), C1 ++ (cs ++ C2)) count ∧
      Repaired order d l u left right ks cs := by
  cases d with
  | zero =>
    obtain ⟨_, keys, values, rfl, hl⟩ := hleft.exists_leaf
    obtain ⟨_, keys', values', rfl, hr⟩ := hright.exists_leaf
    simp only [numKeys] at hlend hfew
    obtain ⟨K, k, rfl⟩ :=
      keys.eq_nil_or_concat'.resolve_left (List.ne_nil_of_length_pos (by omega))
    obtain ⟨V, v, rfl⟩ := values.eq_nil_or_concat'.resolve_left
      (List.ne_nil_of_length_pos (by rw [hl.aligned]; simp))
    have hV : V.length = K.length := by simpa using hl.aligned
    have hmax := hl.le_order
    have hmin := hr.least_le
    simp only [List.length_append, List.length_singleton] at hlend hmax
    have hjoin := hl.join hr hls hsu
    simp only [List.append_assoc, List.singleton_append] at hjoin
    refine ⟨[k], [leafRef K V, leafRef (k :: keys') (v :: values')], ?_, ?_, ?_, by simp⟩
    · simp [borrowFromLeft, setItem_separator hC1]
    · exact hjoin.cut hV (List.ne_nil_of_length_pos (by omega)) (by omega) (by omega) (by omega)
        (by omega)
    · simp [leafRef, items, List.zip_append hV.symm]
  | succ d =>
    obtain ⟨_, keys, children, rfl, hl⟩ := hleft.exists_internal
    obtain ⟨_, keys', children', rfl, hr⟩ := hright.exists_internal
    simp only [numKeys] at hlend hfew
    have hlen := hl.chain.length_eq
    obtain ⟨K, k, rfl⟩ :=
      keys.eq_nil_or_concat'.resolve_left (List.ne_nil_of_length_pos (by omega))
    obtain ⟨C, c, rfl⟩ :=
      children.eq_nil_or_concat'.resolve_left (List.ne_nil_of_length_pos (by omega))
    have hC : C.length = K.length + 1 := by simpa using hlen
    have hmax := hl.le_order
    have hmin := hr.least_le
    simp only [List.length_append, List.length_singleton] at hlend hmax
    have hjoin := (Chain.append_iff hlen).mpr ⟨hl.chain, hr.chain⟩
    simp only [List.append_assoc, List.singleton_append] at hjoin
    refine ⟨[k], [internalRef K C, internalRef (s :: keys') (c :: children')], ?_, ?_, ?_, by simp⟩
    · simp [borrowFromLeft, getItem_separator hC1, setItem_separator hC1]
    · exact cut_internal hjoin hC (by omega) (by omega) (by simp; omega) (by simp; omega)
    · simp [internalRef, items_internal]

/-- `_borrow_from_right` repairs an under-full child. -/
theorem borrowFromRight_spec (K2 : List α) (C2 : List (NodeRef α ν)) (ho : 3 ≤ order)
    (hls : Below l (some s)) (hsu : Below (some s) u)
    (hleft : Wf order d (order / 2 - 1) l (some s) left) (hfew : left.numKeys < order / 2)
    (hright : Wf order d (order / 2) (some s) u right) (hlend : order / 2 < right.numKeys)
    (hC1 : C1.length = K1.length) (count : ℤ) :
    ∃ ks cs, borrowFromRight (K1 ++ s :: K2) (C1 ++ left :: right :: C2) C1.length right left
        count = .ok (K1 ++ (ks ++ K2), C1 ++ (cs ++ C2)) count ∧
      Repaired order d l u left right ks cs := by
  cases d with
  | zero =>
    obtain ⟨_, keys, values, rfl, hl⟩ := hleft.exists_leaf
    obtain ⟨_, keys', values', rfl, hr⟩ := hright.exists_leaf
    simp only [numKeys] at hlend hfew
    obtain ⟨k, K0, rfl⟩ := List.exists_cons_of_length_pos (l := keys') (by omega)
    obtain ⟨k', K, rfl⟩ := List.exists_cons_of_length_pos (l := K0) (by simp at hlend; omega)
    have haligned := hr.aligned
    have hmin := hl.least_le
    have hmax := hr.le_order
    simp only [List.length_cons] at hlend hmax haligned
    obtain ⟨v, V0, rfl⟩ := List.exists_cons_of_length_pos (l := values') (by omega)
    obtain ⟨v', V, rfl⟩ := List.exists_cons_of_length_pos (l := V0) (by simp at haligned; omega)
    have hjoin := hl.join hr hls hsu
    rw [show keys ++ k :: k' :: K = (keys ++ [k]) ++ k' :: K by simp,
      show values ++ v :: v' :: V = (values ++ [v]) ++ v' :: V by simp] at hjoin
    refine ⟨[k'], [leafRef (keys ++ [k]) (values ++ [v]), leafRef (k' :: K) (v' :: V)], ?_, ?_, ?_,
      by simp⟩
    · simp [borrowFromRight, setItem_separator hC1]
    · exact hjoin.cut (by simp [hl.aligned]) (by simp) (by simp; omega) (by simp; omega) (by omega)
        (by omega)
    · simp [leafRef, items, List.zip_append hl.aligned.symm]
  | succ d =>
    obtain ⟨_, keys, children, rfl, hl⟩ := hleft.exists_internal
    obtain ⟨_, keys', children', rfl, hr⟩ := hright.exists_internal
    simp only [numKeys] at hlend hfew
    have hlen := hr.chain.length_eq
    have hlen' := hl.chain.length_eq
    have hmin := hl.least_le
    have hmax := hr.le_order
    obtain ⟨k, K, rfl⟩ := List.exists_cons_of_length_pos (l := keys') (by omega)
    obtain ⟨c, C, rfl⟩ := List.exists_cons_of_length_pos (l := children') (by omega)
    simp only [List.length_cons] at hlend hmax
    have hjoin := (Chain.append_iff hlen').mpr ⟨hl.chain, hr.chain⟩
    rw [show keys ++ s :: k :: K = (keys ++ [s]) ++ k :: K by simp,
      show children ++ c :: C = (children ++ [c]) ++ C by simp] at hjoin
    refine ⟨[k], [internalRef (keys ++ [s]) (children ++ [c]), internalRef K C], ?_, ?_, ?_, by simp⟩
    · simp [borrowFromRight, getItem_separator hC1, setItem_separator hC1]
    · exact cut_internal hjoin (by simp [hlen']) (by simp; omega) (by simp; omega) (by omega)
        (by omega)
    · simp [internalRef, items_internal]

/-- `_merge` repairs two children that together fit into one node. -/
theorem merge_spec (C1 : List (NodeRef α ν)) (K2 : List α) (C2 : List (NodeRef α ν)) {n1 n2 : ℕ}
    (hls : Below l (some s)) (hsu : Below (some s) u)
    (hleft : Wf order d n1 l (some s) left) (hright : Wf order d n2 (some s) u right)
    (hmin : order / 2 ≤ left.numKeys + right.numKeys)
    (hmax : left.numKeys + right.numKeys + 1 ≤ order)
    (hC1 : C1.length = K1.length) (count : ℤ) :
    ∃ ks cs, merge (K1 ++ s :: K2) (C1 ++ left :: right :: C2) C1.length left right
        count = .ok (K1 ++ (ks ++ K2), C1 ++ (cs ++ C2)) count ∧
      Repaired order d l u left right ks cs := by
  have hdel : delItem (K1 ++ s :: K2) C1.length =
      (pure (K1 ++ K2) : Py ℤ (List α)) := by
    rw [hC1, delItem_append]
  have hlu : Below l u := hls.trans hsu
  cases d with
  | zero =>
    obtain ⟨_, keys, values, rfl, hl⟩ := hleft.exists_leaf
    obtain ⟨_, keys', values', rfl, hr⟩ := hright.exists_leaf
    simp only [numKeys] at hmin hmax
    have hjoin := hl.join hr hls hsu
    have hwf : Wf order 0 (order / 2) l u (leafRef (keys ++ keys') (values ++ values')) :=
      { hjoin with least_le := by simp; omega, le_order := by simp; omega }
    refine ⟨[], [leafRef (keys ++ keys') (values ++ values')], ?_, .last hlu hwf, ?_, by simp⟩
    · simp [merge, hdel]
    · simp [leafRef, items, List.zip_append hl.aligned.symm]
  | succ d =>
    obtain ⟨_, keys, children, rfl, hl⟩ := hleft.exists_internal
    obtain ⟨_, keys', children', rfl, hr⟩ := hright.exists_internal
    simp only [numKeys] at hmin hmax
    have hjoin := (Chain.append_iff hl.chain.length_eq).mpr ⟨hl.chain, hr.chain⟩
    have hwf : Wf order (d + 1) (order / 2) l u
        (internalRef (keys ++ s :: keys') (children ++ children')) :=
      ⟨hjoin, by simp; omega, by simp; omega⟩
    refine ⟨[], [internalRef (keys ++ s :: keys') (children ++ children')], ?_, .last hlu hwf, ?_,
      by simp⟩
    · simp [merge, getItem_separator hC1, hdel]
    · simp [internalRef, items_internal]

/-! ## Rebalancing -/

/-- The keys and children of a node after its children have been rebalanced. -/
structure Rebalanced (order d : ℕ) (lo hi : Option α) (keys : List α)
    (children : List (NodeRef α ν)) (new : List α × List (NodeRef α ν)) : Prop where
  chain : Chain (Wf order d (order / 2)) lo hi new.1 new.2
  items_eq : new.2.flatMap items = children.flatMap items
  length_le : keys.length ≤ new.1.length + 1
  le_length : new.1.length ≤ keys.length

/-- Two neighbouring children repaired are the node rebalanced. -/
theorem Repaired.rebalanced {ks : List α} {cs : List (NodeRef α ν)}
    (h : Repaired order d l u left right ks cs)
    (hput : ∀ ks cs, Chain (Wf order d (order / 2)) l u ks cs →
      Chain (Wf order d (order / 2)) lo hi (K1 ++ (ks ++ K2)) (C1 ++ (cs ++ C2))) :
    Rebalanced order d lo hi (K1 ++ s :: K2) (C1 ++ left :: right :: C2)
      (K1 ++ (ks ++ K2), C1 ++ (cs ++ C2)) where
  chain := hput ks cs h.chain
  items_eq := by simp [h.items_eq]
  length_le := by simp; omega
  le_length := by
    have := h.length_le
    simp
    omega

section Rebalance

variable {child child' : NodeRef α ν} {keys : List α}
variable {D : List (NodeRef α ν)}

/-- The separator after the first `n` of a chain with more than `n + 1` children. -/
theorem exists_separator {P : Option α → Option α → NodeRef α ν → Prop}
    {children : List (NodeRef α ν)} (h : Chain P lo hi keys children) {n : ℕ}
    (hn : n + 1 < children.length) : ∃ K1 s K2, keys = K1 ++ s :: K2 ∧ n = K1.length := by
  obtain ⟨K1, s, K2, hkeys, hK1⟩ :=
    exists_append_cons_of_lt (show n < keys.length by have := h.length_eq; omega)
  exact ⟨K1, s, K2, hkeys, hK1.symm⟩

variable (hweak : ∀ l u, Wf order d (order / 2) l u child → Wf order d (order / 2 - 1) l u child')
  (hfew : child'.numKeys < order / 2)
include hweak hfew

/-- A left sibling with a key to spare. -/
theorem rebalance_lendLeft (ho : 3 ≤ order)
    (h : Chain (Wf order d (order / 2)) lo hi keys (D ++ left :: child :: C2))
    (hlend : canLend order left = true)
    (right : Option (NodeRef α ν)) (count : ℤ) :
    ∃ new, rebalanceWith order keys (D ++ left :: child' :: C2) (D.length + 1) child' (some left)
        right count = .ok new count ∧
      Rebalanced order d lo hi keys (D ++ left :: child' :: C2) new := by
  obtain ⟨K1, s, K2, rfl, hD⟩ := exists_separator h (n := D.length) (by simp)
  obtain ⟨l, u, hls, hleft, hsu, hchild, hput⟩ := h.window hD
  obtain ⟨ks, cs, hrun, hrep⟩ := borrowFromLeft_spec K2 C2 ho hls hsu hleft
    (by simpa [canLend] using hlend) (hweak _ _ hchild) hfew hD count
  refine ⟨_, ?_, hrep.rebalanced hput⟩
  have hfilter : (some left).filter (canLend order) = some left := Option.filter_some_pos hlend
  unfold rebalanceWith
  rw [hfilter]
  exact hrun

/-- A right sibling with a key to spare, and no such left sibling. -/
theorem rebalance_lendRight (ho : 3 ≤ order)
    (h : Chain (Wf order d (order / 2)) lo hi keys (C1 ++ child :: right :: C2))
    (hlend : canLend order right = true)
    {left : Option (NodeRef α ν)} (hleft : left.filter (canLend order) = none) (count : ℤ) :
    ∃ new, rebalanceWith order keys (C1 ++ child' :: right :: C2) C1.length child' left
        (some right) count = .ok new count ∧
      Rebalanced order d lo hi keys (C1 ++ child' :: right :: C2) new := by
  obtain ⟨K1, s, K2, rfl, hC1⟩ := exists_separator h (n := C1.length) (by simp)
  obtain ⟨l, u, hls, hchild, hsu, hright, hput⟩ := h.window hC1
  obtain ⟨ks, cs, hrun, hrep⟩ := borrowFromRight_spec K2 C2 ho hls hsu
    (hweak _ _ hchild) hfew hright (by simpa [canLend] using hlend) hC1 count
  refine ⟨_, ?_, hrep.rebalanced hput⟩
  have hfilter : (some right).filter (canLend order) = some right := Option.filter_some_pos hlend
  unfold rebalanceWith
  rw [hleft, hfilter]
  exact hrun

/-- No sibling with a key to spare: the child goes into its left sibling. -/
theorem rebalance_mergeLeft
    (h : Chain (Wf order d (order / 2)) lo hi keys (D ++ left :: child :: C2))
    (hleft : canLend order left = false)
    {right : Option (NodeRef α ν)} (hright : right.filter (canLend order) = none) (count : ℤ) :
    ∃ new, rebalanceWith order keys (D ++ left :: child' :: C2) (D.length + 1) child' (some left)
        right count = .ok new count ∧
      Rebalanced order d lo hi keys (D ++ left :: child' :: C2) new := by
  obtain ⟨K1, s, K2, rfl, hD⟩ := exists_separator h (n := D.length) (by simp)
  obtain ⟨l, u, hls, hwf, hsu, hchild, hput⟩ := h.window hD
  have hwf' := hweak _ _ hchild
  have hmin := hwf.least_le
  have hmin' := hwf'.least_le
  have hmax : left.numKeys ≤ order / 2 := by simpa [canLend] using hleft
  obtain ⟨ks, cs, hrun, hrep⟩ := merge_spec D K2 C2 hls hsu hwf hwf' (by omega)
    (by omega) hD count
  refine ⟨_, ?_, hrep.rebalanced hput⟩
  have hfilter : (some left).filter (canLend order) = none := Option.filter_some_neg hleft
  unfold rebalanceWith
  rw [hfilter, hright]
  exact hrun

/-- No sibling with a key to spare and none on the left: the right sibling goes into
the child. -/
theorem rebalance_mergeRight
    (h : Chain (Wf order d (order / 2)) lo hi keys (child :: right :: C2))
    (hright : canLend order right = false) (count : ℤ) :
    ∃ new, rebalanceWith order keys (child' :: right :: C2) 0 child' none (some right) count =
        .ok new count ∧
      Rebalanced order d lo hi keys (child' :: right :: C2) new := by
  obtain ⟨K1, s, K2, rfl, hnil⟩ := exists_separator h (n := 0) (by simp)
  have hwindow : Chain (Wf order d (order / 2)) lo hi (K1 ++ s :: K2)
      ([] ++ child :: right :: C2) := h
  obtain ⟨l, u, hls, hchild, hsu, hwf, hput⟩ := hwindow.window hnil
  have hwf' := hweak _ _ hchild
  have hmin := hwf.least_le
  have hmin' := hwf'.least_le
  have hmax : right.numKeys ≤ order / 2 := by simpa [canLend] using hright
  obtain ⟨ks, cs, hrun, hrep⟩ := merge_spec [] K2 C2 hls hsu hwf' hwf
    (by omega) (by omega) hnil count
  refine ⟨_, ?_, hrep.rebalanced hput⟩
  have hfilter : (some right).filter (canLend order) = none := Option.filter_some_neg hright
  unfold rebalanceWith
  rw [hfilter]
  exact hrun

/-- `_rebalance` repairs a child that a deletion left one key short. -/
theorem rebalance_spec (ho : 3 ≤ order)
    (h : Chain (Wf order d (order / 2)) lo hi keys (C1 ++ child :: C2)) (hkeys : 1 ≤ keys.length)
    (count : ℤ) :
    ∃ new, rebalance order keys (C1 ++ child' :: C2) C1.length count =
        .ok (internalRef new.1 new.2) count ∧
      Rebalanced order d lo hi keys (C1 ++ child' :: C2) new := by
  suffices hnew : ∃ new, rebalanceWith order keys (C1 ++ child' :: C2) C1.length child' C1.getLast?
      C2.head? count = .ok new count ∧
      Rebalanced order d lo hi keys (C1 ++ child' :: C2) new by
    obtain ⟨new, hrun, hnew⟩ := hnew
    have hleft : (if 0 < C1.length then (C1 ++ child' :: C2)[C1.length - 1]? else none) =
        C1.getLast? := by
      rcases C1.eq_nil_or_concat' with rfl | ⟨D, left, rfl⟩ <;> simp
    have hright : (C1 ++ child' :: C2)[C1.length + 1]? = C2.head? := by
      rw [List.getElem?_append_right (Nat.le_succ _), show C1.length.succ - C1.length = 1 by omega,
        List.getElem?_cons_succ, List.head?_eq_getElem?]
    refine ⟨new, ?_, hnew⟩
    simp only [rebalance, getItem_append, run_bind, run_pure, hleft, hright, hrun]
  have hlen := h.length_eq
  rcases C1.eq_nil_or_concat' with rfl | ⟨D, left, rfl⟩
  · obtain ⟨right, C3, rfl⟩ := List.exists_cons_of_ne_nil
      (show C2 ≠ [] from List.ne_nil_of_length_pos (by simp at hlen; omega))
    rcases Bool.eq_false_or_eq_true (canLend order right) with hlend | hlend
    · exact rebalance_lendRight hweak hfew ho h hlend rfl count
    · exact rebalance_mergeRight hweak hfew h hlend count
  · rw [List.append_assoc, List.singleton_append] at h ⊢
    simp only [List.getLast?_concat, List.length_append, List.length_singleton]
    rcases Bool.eq_false_or_eq_true (canLend order left) with hlendLeft | hlendLeft
    · exact rebalance_lendLeft hweak hfew ho h hlendLeft _ count
    · by_cases hlendRight : ∃ right C3, C2 = right :: C3 ∧ canLend order right = true
      · obtain ⟨right, C3, rfl, hlend⟩ := hlendRight
        have h' : Chain (Wf order d (order / 2)) lo hi keys
          ((D ++ [left]) ++ child :: right :: C3) := by simpa using h
        have hleft : (some left).filter (canLend order) = none := Option.filter_some_neg hlendLeft
        simpa using rebalance_lendRight hweak hfew ho h' hlend hleft count
      · refine rebalance_mergeLeft hweak hfew h hlendLeft ?_ count
        cases C2 with
        | nil => rfl
        | cons right C3 =>
          apply Option.filter_some_neg
          rw [← Bool.not_eq_true]
          exact fun hl => hlendRight ⟨right, C3, rfl, hl⟩

end Rebalance

/-! ## The whole deletion -/

/-- The leaf branch of `_delete_rec`. -/
theorem leafDelete_spec {keys : List α} {values : List (ValueRef ν)}
    (h : LeafOk order least lo hi keys values) (key : α) (count : ℤ) :
    (∃ node', leafDelete key keys values count = .ok node' (count - 1) ∧
        Wf order 0 (least - 1) lo hi node' ∧ Removed key (leafRef keys values).items node'.items) ∨
      (leafDelete key keys values count = .error .keyError count ∧
        ∀ v, (key, v) ∉ (leafRef keys values).items) := by
  obtain ⟨K1, K2, V1, V2, hkeys, hvalues, hV1, hV2, hindex, hlt, hfound | habsent⟩ :=
    exists_leaf_route h key
  · obtain ⟨hget, K3, rfl⟩ := hfound
    obtain ⟨v, V3, rfl⟩ := List.exists_cons_of_length_eq_add_one hV2
    subst hkeys hvalues
    refine .inl ⟨leafRef (K1 ++ K3) (V1 ++ V3), ?_, ?_, ?_⟩
    · rw [leafDelete, if_pos hget, hindex, delItem_append, ← hV1, delItem_append]
      simp
    · have hsub : (K1 ++ K3).Sublist (K1 ++ key :: K3) :=
        (List.sublist_cons_self _ _).append_left K1
      have hlen : (K1 ++ key :: K3).length = (K1 ++ K3).length + 1 := by simp; omega
      exact { increasing := h.increasing.sublist hsub
              within := fun k hk => h.within k (hsub.subset hk)
              aligned := by simpa [hV1] using hV2
              least_le := by have := h.least_le; omega
              le_order := by have := h.le_order; omega }
    · simp only [leafRef, items_leaf_append hV1, items_leaf_cons]
      exact .intro _ _ _
  · obtain ⟨hget, hgt⟩ := habsent
    refine .inr ⟨by rw [leafDelete, if_neg hget]; rfl, h.not_mem_items ?_⟩
    rw [hkeys, List.mem_append]
    rintro (hk | hk)
    · exact lt_irrefl _ (hlt key hk)
    · exact lt_irrefl _ (hgt key hk)

theorem deleteIn_append (C1 : List (NodeRef α ν)) (child : NodeRef α ν) (C2 : List (NodeRef α ν)) :
    deleteIn order key (C1 ++ child :: C2) C1.length = deleteRec order key child := by
  induction C1 with
  | nil => rfl
  | cons c C1 ih => exact ih

/-- `_delete_rec` on a well-formed subtree removes the binding of the key and leaves a
subtree at most one key short, or raises `KeyError` if there is no binding. -/
theorem Wf.deleteRec_spec (ho : 3 ≤ order) (h : Wf order d least lo hi node) (hleast : 1 ≤ least)
    (key : α) (count : ℤ) :
    (∃ node', deleteRec order key node count = .ok node' (count - 1) ∧
        Wf order d (least - 1) lo hi node' ∧ Removed key node.items node'.items) ∨
      (deleteRec order key node count = .error .keyError count ∧ ∀ v, (key, v) ∉ node.items) := by
  induction d generalizing least lo hi node with
  | zero =>
    obtain ⟨address, keys, values, rfl, hleaf⟩ := h.exists_leaf
    rw [deleteRec]
    exact leafDelete_spec hleaf key count
  | succ d ih =>
    obtain ⟨address, keys, children, rfl, hint⟩ := h.exists_internal
    obtain ⟨K1, K2, C1, child, C2, rfl, rfl, hroute⟩ := exists_route hint.chain key
    obtain ⟨l, u, hlu, hchild, -, hput⟩ := hroute.focus
    have hhalf : 1 ≤ order / 2 := by omega
    have hkeys : 1 ≤ (K1 ++ K2).length := hleast.trans hint.least_le
    have hmin := hint.least_le
    have hmax := hint.le_order
    rcases ih hchild hhalf with ⟨child', hrec, hchild', hrem⟩ | ⟨hrec, habsent⟩
    · have hrun : deleteRec order key (.internal address (K1 ++ K2) (C1 ++ child :: C2)) count =
          (if order / 2 ≤ child'.numKeys then pure (internalRef (K1 ++ K2) (C1 ++ child' :: C2))
            else rebalance order (K1 ++ K2) (C1 ++ child' :: C2) C1.length :
              Py ℤ (NodeRef α ν)) (count - 1) := by
        rw [deleteRec, hroute.index, deleteIn_append]
        simp only [run_bind, hrec, setItem_append, run_pure]
      have hitems : Removed key (NodeRef.internal address (K1 ++ K2) (C1 ++ child :: C2)).items
          ((C1 ++ child' :: C2).flatMap items) := by
        rw [items_internal, List.flatMap_append, List.flatMap_cons, List.flatMap_append,
          List.flatMap_cons]
        exact hrem.context _ _
      rw [hrun]
      refine .inl ?_
      by_cases hfull : order / 2 ≤ child'.numKeys
      · rw [if_pos hfull]
        have hchain := hput [] [child'] (.last hlu (hchild'.with_least hfull))
        refine ⟨_, rfl, ⟨hchain, by simp at hmin ⊢; omega, hmax⟩, ?_⟩
        rw [items_internal] at hitems ⊢
        rwa [internalRef, items_internal]
      · -- the recursive call returns the same child in whatever range it is analysed
        have hweak : ∀ l u, Wf order d (order / 2) l u child →
            Wf order d (order / 2 - 1) l u child' := by
          intro l u hwf
          rcases ih hwf hhalf with ⟨child'', hrec', hwf', -⟩ | ⟨hrec', -⟩
          · obtain rfl : child'' = child' := by
              rw [hrec'] at hrec
              injection hrec
            exact hwf'
          · rw [hrec'] at hrec
            cases hrec
        obtain ⟨new, hnew, hreb⟩ := rebalance_spec hweak (Nat.lt_of_not_le hfull) ho hroute.chain hkeys
          (count - 1)
        have hlen := hreb.length_le
        have hlen' := hreb.le_length
        rw [if_neg hfull, hnew]
        refine ⟨_, rfl, ⟨hreb.chain, by omega, by omega⟩, ?_⟩
        rw [items_internal] at hitems ⊢
        rwa [internalRef, items_internal, hreb.items_eq]
    · refine .inr ⟨?_, fun v hv => habsent v (hroute.mem_items_iff.mp hv)⟩
      rw [deleteRec, hroute.index, deleteIn_append]
      simp only [run_bind, hrec]

/-- `_delete` on a well-formed tree removes the binding of the key, and what remains is
empty or a well-formed tree; it raises `KeyError` and leaves the counter alone if there
is no binding. -/
theorem Wf.delete_spec (ho : 3 ≤ order) (h : Wf order d 1 none none node) (key : α) (count : ℤ) :
    (∃ root, delete order key (some node) count = .ok root (count - 1) ∧
        (∀ r ∈ root, ∃ d', Wf order d' 1 none none r) ∧
        Removed key node.items (root.elim [] items)) ∨
      (delete order key (some node) count = .error .keyError count ∧
        ∀ v, (key, v) ∉ node.items) := by
  rcases h.deleteRec_spec ho (Nat.le_refl 1) key count with ⟨node', hrec, hwf, hrem⟩ | ⟨hrec, habs⟩
  · refine .inl ?_
    cases d with
    | zero =>
      obtain ⟨address, keys, values, rfl, hleaf⟩ := hwf.exists_leaf
      cases keys with
      | nil =>
        refine ⟨none, by simp [delete, hrec], by simp, ?_⟩
        simpa [items] using hrem
      | cons k keys =>
        refine ⟨some (.leaf address (k :: keys) values), by simp [delete, hrec], ?_, by simpa using hrem⟩
        rintro r ⟨⟩
        exact ⟨0, hwf.with_least (by simp [numKeys])⟩
    | succ d =>
      obtain ⟨address, keys, children, rfl, hint⟩ := hwf.exists_internal
      cases keys with
      | nil =>
        -- the only child becomes the root
        obtain ⟨child, rfl⟩ := List.length_eq_one_iff.mp hint.chain.length_eq
        have hchild := (Chain.singleton_iff.mp hint.chain).2
        refine ⟨some child, by simp [delete, hrec], ?_, by simpa [items_internal] using hrem⟩
        rintro r ⟨⟩
        have := hchild.least_le
        exact ⟨d, hchild.with_least (by omega)⟩
      | cons k keys =>
        refine ⟨some (.internal address (k :: keys) children), by simp [delete, hrec], ?_,
          by simpa using hrem⟩
        rintro r ⟨⟩
        exact ⟨d + 1, hwf.with_least (by simp [numKeys])⟩
  · exact .inr ⟨by simp [delete, hrec], habs⟩

end NodeRef
