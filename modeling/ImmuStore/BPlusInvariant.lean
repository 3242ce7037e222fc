/-
# The representation invariant of the B+ tree

`Wf order d least lo hi` describes a subtree of depth `d` for the keys from `lo` to
`hi` whose top node has at least `least` keys; every node below the top has at least
`order / 2`.  Under it `items` increases in key, `get` finds what `items` lists, and
`check` finds nothing to report.
-/
import ImmuStore.BPlusTree
import ImmuStore.SeparatorChain
import ImmuStore.SortedAssoc

variable {α ν : Type}

@[simp] theorem AuditState.report_nil (s : AuditState α) : s.report [] = s := by
  simp [AuditState.report]

/-- The counters after `nodes` more nodes and `keys` more leaf keys with their values. -/
def AuditState.seen (s : AuditState α) (nodes keys : ℕ) : AuditState α :=
  { s with nodes := s.nodes + nodes, values := s.values + keys, leafKeys := s.leafKeys + keys }

theorem AuditState.seen_seen (s : AuditState α) (n n' k k' : ℕ) :
    (s.seen n k).seen n' k' = s.seen (n + n') (k + k') := by
  simp [AuditState.seen, Nat.add_assoc]

variable [LinearOrder α]

namespace NodeRef

/-- A leaf with at least `least` keys. -/
structure LeafOk (order least : ℕ) (lo hi : Option α) (keys : List α)
    (values : List (ValueRef ν)) : Prop where
  increasing : keys.Pairwise (· < ·)
  within : ∀ k ∈ keys, Within lo hi k
  aligned : values.length = keys.length
  least_le : least ≤ keys.length
  le_order : keys.length ≤ order

/-- An internal node with at least `least` keys, whose children meet `P`. -/
structure InternalOk (P : Option α → Option α → NodeRef α ν → Prop) (order least : ℕ)
    (lo hi : Option α) (keys : List α) (children : List (NodeRef α ν)) : Prop where
  chain : Chain P lo hi keys children
  least_le : least ≤ keys.length
  le_order : keys.length ≤ order

/-- A well-formed subtree of depth `d`. -/
def Wf (order : ℕ) : ℕ → ℕ → Option α → Option α → NodeRef α ν → Prop
  | 0, least, lo, hi, .leaf _ keys values => LeafOk order least lo hi keys values
  | d + 1, least, lo, hi, .internal _ keys children =>
    InternalOk (fun lo hi child => Wf order d (order / 2) lo hi child) order least lo hi keys children
  | 0, _, _, _, .internal _ _ _ => False
  | _ + 1, _, _, _, .leaf _ _ _ => False

variable {order d least : ℕ} {lo hi : Option α} {node : NodeRef α ν}
variable {address n : ℕ} {keys K1 K2 : List α} {values V1 V2 : List (ValueRef ν)}
    {children C1 C2 : List (NodeRef α ν)} {P : Option α → Option α → NodeRef α ν → Prop}
variable {s key : α} {child : NodeRef α ν}

/-- A well-formed node without children is a leaf. -/
theorem Wf.exists_leaf (h : Wf order 0 least lo hi node) :
    ∃ address keys values, node = .leaf address keys values ∧
      LeafOk order least lo hi keys values := by
  cases node with
  | leaf address keys values => exact ⟨address, keys, values, rfl, h⟩
  | internal address keys children => exact h.elim

/-- A well-formed node with a depth below it is internal. -/
theorem Wf.exists_internal (h : Wf order (d + 1) least lo hi node) :
    ∃ address keys children, node = .internal address keys children ∧
      InternalOk (Wf order d (order / 2)) order least lo hi keys children := by
  cases node with
  | leaf address keys values => exact h.elim
  | internal address keys children => exact ⟨address, keys, children, rfl, h⟩

theorem Wf.least_le (h : Wf order d least lo hi node) : least ≤ node.numKeys := by
  cases d with
  | zero =>
    obtain ⟨_, keys, values, rfl, hleaf⟩ := h.exists_leaf
    exact hleaf.least_le
  | succ d =>
    obtain ⟨_, keys, children, rfl, hint⟩ := h.exists_internal
    exact hint.least_le

/-- The lower bound on the number of keys may be any that the node meets. -/
theorem Wf.with_least (h : Wf order d least lo hi node) (hn : n ≤ node.numKeys) :
    Wf order d n lo hi node := by
  cases d with
  | zero =>
    obtain ⟨_, keys, values, rfl, hleaf⟩ := h.exists_leaf
    exact { hleaf with least_le := hn }
  | succ d =>
    obtain ⟨_, keys, children, rfl, hint⟩ := h.exists_internal
    exact { hint with least_le := hn }

/-! ## Items -/

omit [LinearOrder α] in
theorem items_leaf_append (h : V1.length = K1.length) :
    (NodeRef.leaf address (K1 ++ K2) (V1 ++ V2)).items =
      (NodeRef.leaf address K1 V1).items ++ (NodeRef.leaf address K2 V2).items := by
  simp only [items]
  rw [List.zip_append h.symm, List.map_append]

omit [LinearOrder α] in
theorem items_leaf_cons {k : α} {v : ValueRef ν} {K : List α} {V : List (ValueRef ν)} :
    (NodeRef.leaf address (k :: K) (v :: V)).items =
      (k, v.referent) :: (NodeRef.leaf address K V).items := by
  simp [items]

omit [LinearOrder α] in
theorem items_internal (address : ℕ) (keys : List α) :
    (NodeRef.internal address keys children).items = children.flatMap items := by
  rw [items, itemsOf_eq]

/-- A well-formed subtree with at least one key holds an item. -/
theorem Wf.items_ne_nil (h : Wf order d least lo hi node) (hleast : 1 ≤ least) (horder : 3 ≤ order) :
    node.items ≠ [] := by
  induction d generalizing least lo hi node with
  | zero =>
    obtain ⟨_, keys, values, rfl, hleaf⟩ := h.exists_leaf
    apply List.ne_nil_of_length_pos
    have := hleaf.least_le
    simp only [items, List.length_map, List.length_zip, hleaf.aligned]
    omega
  | succ d ih =>
    obtain ⟨_, keys, children, rfl, hint⟩ := h.exists_internal
    rw [items_internal]
    have hhalf : 1 ≤ order / 2 := by omega
    cases hint.chain with
    | last _ hchild => simp [ih hchild hhalf]
    | cons _ hchild _ => simp [ih hchild hhalf]

omit [LinearOrder α] in
theorem keys_of_items_leaf (address : ℕ) (h : values.length = keys.length) :
    (NodeRef.leaf address keys values).items.map Prod.fst = keys := by
  rw [items, List.map_map]
  change List.map Prod.fst (keys.zip values) = keys
  exact List.map_fst_zip h.ge

/-- The items of a well-formed subtree increase in key and lie in its range. -/
theorem Wf.items_increase (h : Wf order d least lo hi node) :
    KeysIncrease node.items ∧ ∀ e ∈ node.items, Within lo hi e.1 := by
  induction d generalizing least lo hi node with
  | zero =>
    obtain ⟨address, keys, values, rfl, hleaf⟩ := h.exists_leaf
    have hkeys := keys_of_items_leaf address hleaf.aligned
    constructor
    · rw [KeysIncrease, ← List.pairwise_map, hkeys]
      exact hleaf.increasing
    · intro e he
      apply hleaf.within
      rw [← hkeys]
      exact List.mem_map_of_mem he
  | succ d ih =>
    obtain ⟨_, keys, children, rfl, hint⟩ := h.exists_internal
    rw [items_internal]
    exact hint.chain.flatMap_pairwise fun _ _ _ hc => ih hc

/-! ## Cutting and joining nodes -/

/-- Cutting a leaf at one of its keys gives two leaves with that key between them. -/
theorem LeafOk.cut (h : LeafOk n least lo hi (K1 ++ s :: K2) (V1 ++ V2))
    (hV1 : V1.length = K1.length) (hK1 : K1 ≠ []) (hmin1 : order / 2 ≤ K1.length)
    (hmax1 : K1.length ≤ order) (hmin2 : order / 2 ≤ K2.length + 1)
    (hmax2 : K2.length + 1 ≤ order) :
    Chain (Wf order 0 (order / 2)) lo hi [s] [leafRef K1 V1, leafRef (s :: K2) V2] := by
  obtain ⟨h1, h2, h12⟩ := List.pairwise_append.mp h.increasing
  have hs : Within lo hi s := h.within s (by simp)
  obtain ⟨k, hk⟩ := List.exists_mem_of_ne_nil K1 hK1
  have hks : k < s := h12 k hk s (by simp)
  refine .cons ((h.within k (by simp [hk])).below_of_lt hks) ?_ (.last hs.below ?_)
  · exact { increasing := h1, aligned := hV1, least_le := hmin1, le_order := hmax1
            within := fun k hk => (h.within k (by simp [hk])).lt_some (h12 k hk s (by simp)) }
  · have hlen := h.aligned
    simp only [List.length_append, List.length_cons] at hlen
    have hwithin : ∀ k ∈ s :: K2, Within (some s) hi k := by
      intro k hk
      refine (h.within k (List.mem_append_right _ hk)).some_le ?_
      rcases List.mem_cons.mp hk with rfl | hk
      · exact le_rfl
      · exact ((List.pairwise_cons.mp h2).1 k hk).le
    exact { increasing := h2, within := hwithin, least_le := hmin2, le_order := hmax2
            aligned := by rw [List.length_cons]; omega }

/-- Two neighbouring leaves hold what a leaf for both their ranges may hold. -/
theorem LeafOk.join {n1 n2 : ℕ} (h1 : LeafOk order n1 lo (some s) K1 V1)
    (h2 : LeafOk order n2 (some s) hi K2 V2) (hlo : Below lo (some s)) (hhi : Below (some s) hi) :
    LeafOk (K1 ++ K2).length (K1 ++ K2).length lo hi (K1 ++ K2) (V1 ++ V2) := by
  have hincr : (K1 ++ K2).Pairwise (· < ·) := by
    rw [List.pairwise_append]
    refine ⟨h1.increasing, h2.increasing, fun a ha b hb => ?_⟩
    exact ((h1.within a ha).under s rfl).trans_le ((h2.within b hb).above s rfl)
  have hwithin : ∀ k ∈ K1 ++ K2, Within lo hi k := by
    intro k hk
    rcases List.mem_append.mp hk with hk | hk
    · exact (h1.within k hk).widen_right hhi
    · exact (h2.within k hk).widen_left hlo
  exact { increasing := hincr, within := hwithin, least_le := le_rfl, le_order := le_rfl
          aligned := by simp [h1.aligned, h2.aligned] }

/-- Cutting the keys and children of an internal node at a separator gives two nodes
with that separator between them. -/
theorem cut_internal (h : Chain (Wf order d (order / 2)) lo hi (K1 ++ s :: K2) (C1 ++ C2))
    (hC1 : C1.length = K1.length + 1) (hmin1 : order / 2 ≤ K1.length) (hmax1 : K1.length ≤ order)
    (hmin2 : order / 2 ≤ K2.length) (hmax2 : K2.length ≤ order) :
    Chain (Wf order (d + 1) (order / 2)) lo hi [s] [internalRef K1 C1, internalRef K2 C2] := by
  obtain ⟨hleft, hright⟩ := (Chain.append_iff hC1).mp h
  have hwf1 : Wf order (d + 1) (order / 2) lo (some s) (internalRef K1 C1) := ⟨hleft, hmin1, hmax1⟩
  have hwf2 : Wf order (d + 1) (order / 2) (some s) hi (internalRef K2 C2) := ⟨hright, hmin2, hmax2⟩
  exact .cons hleft.range_below hwf1 (.last hright.range_below hwf2)

/-! ## Lookup -/

/-- The way to the child that `bisect_right` leads to: the separators and siblings on
its left, the child, and those on its right. -/
structure Route (P : Option α → Option α → NodeRef α ν → Prop) (lo hi : Option α) (key : α)
    (K1 K2 : List α) (C1 : List (NodeRef α ν)) (child : NodeRef α ν) (C2 : List (NodeRef α ν)) :
    Prop where
  chain : Chain P lo hi (K1 ++ K2) (C1 ++ child :: C2)
  aligned : C1.length = K1.length
  index : bisectRight (K1 ++ K2) key = C1.length
  le_key : ∀ s ∈ K1, s ≤ key
  key_lt : ∀ s ∈ K2, key < s

theorem exists_route (h : Chain P lo hi keys children) (key : α) :
    ∃ K1 K2 C1 child C2, keys = K1 ++ K2 ∧ children = C1 ++ child :: C2 ∧
      Route P lo hi key K1 K2 C1 child C2 := by
  obtain ⟨K1, K2, rfl, hindex, hle, hlt⟩ := bisectRight_spec h.pairwise key
  have hlen := h.length_eq
  have hin : K1.length < children.length := by
    rw [hlen, List.length_append]
    omega
  obtain ⟨C1, child, C2, rfl, hC1⟩ := exists_append_cons_of_lt hin
  exact ⟨K1, K2, C1, child, C2, rfl, rfl, h, hC1, by rw [hindex, hC1], hle, hlt⟩

/-- The range of the child the key is led to: it holds the key, and what fills it may
take the place of the child. -/
theorem Route.focus (h : Route P lo hi key K1 K2 C1 child C2) :
    ∃ l u, Below l u ∧ P l u child ∧ (Within lo hi key → Within l u key) ∧
      ∀ ks cs, Chain P l u ks cs → Chain P lo hi (K1 ++ (ks ++ K2)) (C1 ++ (cs ++ C2)) := by
  have hfocus : Chain P lo hi (K1 ++ ([] ++ K2)) (C1 ++ ([child] ++ C2)) := h.chain
  obtain ⟨l, u, hl, hu, hchild, hput⟩ := hfocus.focus h.aligned rfl
  obtain ⟨hlu, hP⟩ := Chain.singleton_iff.mp hchild
  refine ⟨l, u, hlu, hP, fun hkey => ⟨?_, ?_⟩, hput⟩
  · rcases hl with rfl | ⟨s, hs, rfl⟩
    · exact hkey.above
    · simpa using h.le_key s hs
  · rcases hu with rfl | ⟨s, hs, rfl⟩
    · exact hkey.under
    · simpa using h.key_lt s hs

/-- The key a leaf holds at the index `bisect_left` gives, if it holds it at all. -/
theorem exists_leaf_route (h : LeafOk order least lo hi keys values) (key : α) :
    ∃ K1 K2 V1 V2, keys = K1 ++ K2 ∧ values = V1 ++ V2 ∧ V1.length = K1.length ∧
      V2.length = K2.length ∧ bisectLeft keys key = K1.length ∧
      (∀ k ∈ K1, k < key) ∧
      ((keys[bisectLeft keys key]? = some key ∧ ∃ K3, K2 = key :: K3) ∨
        (keys[bisectLeft keys key]? ≠ some key ∧ ∀ k ∈ K2, key < k)) := by
  obtain ⟨K1, K2, hkeys, hindex, hlt, hge⟩ := bisectLeft_spec h.increasing key
  have hlen : K1.length ≤ values.length := by
    rw [h.aligned, hkeys, List.length_append]
    omega
  obtain ⟨V1, V2, hvalues, hV1⟩ := exists_append_of_le hlen
  have hV2 : V2.length = K2.length := by
    have := h.aligned
    rw [hkeys, hvalues, List.length_append, List.length_append] at this
    omega
  refine ⟨K1, K2, V1, V2, hkeys, hvalues, hV1, hV2, hindex, hlt, ?_⟩
  have hhead : keys[bisectLeft keys key]? = K2.head? := by
    rw [hindex, hkeys, List.getElem?_append_right le_rfl, Nat.sub_self,
      List.head?_eq_getElem?]
  rw [hhead]
  rcases K2 with _ | ⟨k, K3⟩
  · exact .inr ⟨by simp, by simp⟩
  · by_cases hk : k = key
    · exact .inl ⟨by simp [hk], K3, by rw [hk]⟩
    · refine .inr ⟨by simpa using hk, ?_⟩
      have hkey : key < k := lt_of_le_of_ne (hge k (by simp)) (Ne.symm hk)
      have hincr := (List.pairwise_append.mp (hkeys ▸ h.increasing)).2.1
      intro k' hk'
      rcases List.mem_cons.mp hk' with rfl | hk'
      · exact hkey
      · exact hkey.trans ((List.pairwise_cons.mp hincr).1 k' hk')

theorem getFrom_append (key : α) (C1 : List (NodeRef α ν)) (child : NodeRef α ν)
    (C2 : List (NodeRef α ν)) : getFrom key (C1 ++ child :: C2) C1.length = child.get key := by
  induction C1 with
  | nil => rfl
  | cons c C1 ih => exact ih

/-- A key that no leaf key equals is bound by no item. -/
theorem LeafOk.not_mem_items (h : LeafOk order least lo hi keys values) (hkey : key ∉ keys)
    (v : ν) :
    (key, v) ∉ (NodeRef.leaf address keys values).items := by
  intro hmem
  apply hkey
  rw [← keys_of_items_leaf address h.aligned]
  exact List.mem_map_of_mem hmem

/-- A node binds a key just as the child does that the key is led to. -/
theorem Route.mem_items_iff (h : Route (Wf order d least) lo hi key K1 K2 C1 child C2) {v : ν} :
    (key, v) ∈ (NodeRef.internal address (K1 ++ K2) (C1 ++ child :: C2)).items ↔
      (key, v) ∈ child.items := by
  rw [items_internal]
  exact h.chain.mem_flatMap_iff (fun _ _ _ hc => hc.items_increase.2) h.aligned h.le_key h.key_lt rfl

/-- `_get` returns what the items bind the key to, and raises `KeyError` if they do
not bind it. -/
theorem Wf.get_spec (h : Wf order d least lo hi node) (key : α) :
    (∃ v, node.get key = .ok v ∧ (key, v) ∈ node.items) ∨
      (node.get key = .error .keyError ∧ ∀ v, (key, v) ∉ node.items) := by
  induction d generalizing least lo hi node with
  | zero =>
    obtain ⟨address, keys, values, rfl, hleaf⟩ := h.exists_leaf
    obtain ⟨K1, K2, V1, V2, hkeys, hvalues, hV1, hV2, hindex, hlt, hfound | habsent⟩ :=
      exists_leaf_route hleaf key
    · obtain ⟨hkey, K3, rfl⟩ := hfound
      obtain ⟨v, V3, rfl⟩ := List.exists_cons_of_length_eq_add_one hV2
      have hv : values[bisectLeft keys key]? = some v := by
        rw [hindex, ← hV1, hvalues]
        simp
      refine .inl ⟨v.referent, ?_, ?_⟩
      · rw [get, if_pos hkey, hv]
      · rw [hkeys, hvalues, items_leaf_append hV1, items_leaf_cons]
        simp
    · obtain ⟨hkey, hgt⟩ := habsent
      refine .inr ⟨by rw [get, if_neg hkey], hleaf.not_mem_items ?_⟩
      rw [hkeys, List.mem_append]
      rintro (hk | hk)
      · exact lt_irrefl _ (hlt key hk)
      · exact lt_irrefl _ (hgt key hk)
  | succ d ih =>
    obtain ⟨address, keys, children, rfl, hint⟩ := h.exists_internal
    obtain ⟨K1, K2, C1, child, C2, rfl, rfl, hroute⟩ := exists_route hint.chain key
    have hget : (NodeRef.internal address (K1 ++ K2) (C1 ++ child :: C2)).get key = child.get key := by
      rw [get, hroute.index, getFrom_append]
    have hmem : ∀ v, (key, v) ∈ (NodeRef.internal address (K1 ++ K2) (C1 ++ child :: C2)).items ↔
        (key, v) ∈ child.items := fun v => hroute.mem_items_iff
    obtain ⟨l, u, -, hchild, -, -⟩ := hroute.focus
    simp only [hget, hmem]
    exact ih hchild

/-! ## Audit -/

theorem consecutive_lt (h : keys.Pairwise (· < ·)) : ∀ p ∈ keys.zip keys.tail, p.1 < p.2 := by
  induction keys with
  | nil => simp
  | cons k keys ih =>
    obtain ⟨hk, hkeys⟩ := List.pairwise_cons.mp h
    cases keys with
    | nil => simp
    | cons k' keys =>
      intro p hp
      rcases List.mem_cons.mp hp with rfl | hp
      · exact hk k' (by simp)
      · exact ih hkeys p hp

/-- The tests on the keys of a node find nothing in a node with increasing keys in
its range and an admitted number of them. -/
theorem keyErrors_eq_nil {isRoot : Bool} (hincr : keys.Pairwise (· < ·))
    (hwithin : ∀ k ∈ keys, Within lo hi k) (hmax : keys.length ≤ order)
    (hmin : isRoot = false → order / 2 ≤ keys.length) : keyErrors order keys lo hi isRoot = [] := by
  have horder : ((keys.zip keys.tail).filter fun p => ¬ p.1 < p.2) = [] := by
    rw [List.filter_eq_nil_iff]
    intro p hp
    simpa using consecutive_lt hincr p hp
  have hbounds : ∀ key ∈ keys,
      (lo.toList.filter fun lower => key < lower).map (AuditError.belowLowerBound key) ++
        (hi.toList.filter fun upper => upper ≤ key).map (.notBelowUpperBound key) = [] := by
    intro key hkey
    rw [List.append_eq_nil_iff, List.map_eq_nil_iff, List.map_eq_nil_iff, List.filter_eq_nil_iff,
      List.filter_eq_nil_iff]
    constructor
    · intro l hl
      simpa using (hwithin key hkey).above l (by simpa using hl)
    · intro u hu
      simpa using (hwithin key hkey).under u (by simpa using hu)
  have hover : ¬ order < keys.length := by omega
  have hunder : ¬ (isRoot = false ∧ keys.length < order / 2) := fun h => by
    have := hmin h.1
    omega
  rw [keyErrors, horder, if_neg hover, if_neg hunder, List.flatMap_eq_nil_iff.mpr hbounds]
  rfl

omit [LinearOrder α] in
/-- The child after the separators `K1` is checked from the last of them on. -/
theorem lowerOf_append {l lower : Option α}
    (hl : (K1 = [] ∧ l = lower) ∨ ∃ K k, K1 = K ++ [k] ∧ l = some k) :
    lowerOf (K1 ++ K2) lower K1.length = pure l := by
  rcases hl with ⟨rfl, rfl⟩ | ⟨K, k, rfl, rfl⟩
  · rfl
  · simp [lowerOf]

section Check

/-- The loop over the children finds them all of one height. -/
theorem checkFrom_spec {l lower : Option α} {K2 : List α} {C : List (NodeRef α ν)}
    (hcheck : ∀ {lo hi : Option α} {child : NodeRef α ν}, Wf order d (order / 2) lo hi child →
      ∀ s, ∃ n, child.check order lo hi false s = .ok (d + 1) (s.seen n child.items.length))
    (h : Chain (Wf order d (order / 2)) l hi K2 C) {K1 : List α}
    (hl : (K1 = [] ∧ l = lower) ∨ ∃ K k, K1 = K ++ [k] ∧ l = some k)
    {heights : Finset ℕ} (hheights : heights ⊆ {d + 1}) (s : AuditState α) :
    ∃ n, checkFrom order (K1 ++ K2) lower hi C K1.length heights s =
      .ok {d + 1} (s.seen n (C.flatMap items).length) := by
  have hheights' : heights ∪ {d + 1} = {d + 1} := Finset.union_eq_right.mpr hheights
  induction h generalizing K1 heights s with
  | last hb hc =>
    obtain ⟨n, hn⟩ := hcheck hc s
    refine ⟨n, ?_⟩
    rw [checkFrom, lowerOf_append hl]
    simp only [run_bind, run_pure, List.append_nil, Nat.lt_irrefl, if_false, hn, checkFrom, hheights']
    simp
  | @cons l hi k ks c cs hb hc ht ih =>
    obtain ⟨n, hn⟩ := hcheck hc s
    obtain ⟨n', hn'⟩ := @ih (K1 ++ [k]) (.inr ⟨K1, k, rfl, rfl⟩) {d + 1} (Finset.Subset.refl _)
      (s.seen n c.items.length) (Finset.union_self _)
    refine ⟨n + n', ?_⟩
    have hkeys : K1 ++ k :: ks = K1 ++ [k] ++ ks := by simp
    have hupper : (if K1.length < (K1 ++ k :: ks).length then (K1 ++ k :: ks)[K1.length]? else hi) =
        some k := by simp
    rw [checkFrom, lowerOf_append hl]
    simp only [run_bind, run_pure, hupper, hn, hheights']
    rw [hkeys, show K1.length + 1 = (K1 ++ [k]).length by simp, hn', AuditState.seen_seen,
      List.flatMap_cons, List.length_append]

/-- `check` finds nothing to report in a well-formed subtree and returns its height. -/
theorem Wf.check_spec (h : Wf order d least lo hi node) (isRoot : Bool)
    (hroot : isRoot = true → 1 ≤ least) (hleast : isRoot = false → order / 2 ≤ least)
    (s : AuditState α) :
    ∃ n, node.check order lo hi isRoot s = .ok (d + 1) (s.seen n node.items.length) := by
  induction d generalizing least lo hi node isRoot s with
  | zero =>
    obtain ⟨address, keys, values, rfl, hleaf⟩ := h.exists_leaf
    have herrors := keyErrors_eq_nil hleaf.increasing hleaf.within hleaf.le_order
      fun hr => (hleast hr).trans hleaf.least_le
    refine ⟨1, ?_⟩
    simp [check, herrors, hleaf.aligned, AuditState.seen, items]
  | succ d ih =>
    obtain ⟨address, keys, children, rfl, hint⟩ := h.exists_internal
    have herrors := keyErrors_eq_nil hint.chain.pairwise (fun _ => hint.chain.within_range)
      hint.le_order fun hr => (hleast hr).trans hint.least_le
    have hnokeys : ¬ (isRoot = true ∧ keys.length < 1) := fun hr => by
      have := hroot hr.1
      have := hint.least_le
      omega
    have hcheck : ∀ {lo hi : Option α} {child : NodeRef α ν}, Wf order d (order / 2) lo hi child →
        ∀ s, ∃ n, child.check order lo hi false s = .ok (d + 1) (s.seen n child.items.length) :=
      fun hc s => ih hc false (by simp) (fun _ => le_rfl) s
    obtain ⟨n, hn⟩ := checkFrom_spec hcheck hint.chain (.inl ⟨rfl, rfl⟩) (Finset.empty_subset _)
      (s.seen 1 0)
    refine ⟨1 + n, ?_⟩
    rw [List.nil_append, List.length_nil] at hn
    rw [AuditState.seen_seen, Nat.zero_add] at hn
    rw [check, items_internal]
    simp only [run_bind, run_modify, run_pure, herrors, hint.chain.length_eq, hnokeys, ne_eq,
      not_true_eq_false, if_false, AuditState.report_nil]
    rw [show ({ s with nodes := s.nodes + 1 } : AuditState α) = s.seen 1 0 from rfl, hn]
    simp [Nat.add_comm]

end Check

end NodeRef
