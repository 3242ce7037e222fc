/-
# What an audit without errors says

`check` compares the keys of a node with each other and with the bounds that it inherits,
and the heights of the children.  Whatever the tree is, if it reports nothing, then the
tree is well formed: so its items increase, and lookups and range scans find just them.
-/
import ImmuStore.BinaryTree

variable {α ν : Type} [LinearOrder α]

/-! ## Scans -/

/-- **A range scan is the filtered iteration.**  For every B+ tree whose root is well
formed, of any order and height and with whatever separators, and for every binary search
tree: whatever the bounds are, `_range_items` yields the items whose keys are in the range,
in the same order. -/
theorem range_scan_eq_filter {t : BPlusTree α ν}
    (ht : ∀ root ∈ t.treeRef, ∃ d least, NodeRef.Wf t.order d least none none root)
    {b : BinaryNodeRef α ν} (hb : KeysIncrease b.items) (start stop : Option α) :
    t.rangeItems start stop = .ok (t.items.filter fun e => inRange start stop e.1) ∧
      b.rangeItems start stop = b.items.filter fun e => inRange start stop e.1 := by
  refine ⟨?_, BinaryNodeRef.rangeItems_eq_restrict hb start stop⟩
  unfold BPlusTree.rangeItems BPlusTree.items
  cases hroot : t.treeRef with
  | none => rfl
  | some root =>
    obtain ⟨d, least, hwf⟩ := ht root hroot
    exact hwf.rangeItems_eq

/-- Two leaves below a separator that is no key, and a scan that ends at the separator. -/
theorem range_scan_eq_filter_sample :
    (⟨3, some (.internal 0 [5] [.leaf 0 [1, 3] [⟨10, 0⟩, ⟨30, 0⟩], .leaf 0 [6] [⟨60, 0⟩]]), 3⟩
        : BPlusTree ℕ ℕ).rangeItems (some 2) (some 5) = .ok [(3, 30)] ∧
      (BinaryNodeRef.node 0 .empty 3 ⟨30, 0⟩ .empty 1).rangeItems (some 2) (some 5) = [(3, 30)] := by
  have hb : KeysIncrease (BinaryNodeRef.node 0 .empty 3 ⟨30, 0⟩ .empty 1 : BinaryNodeRef ℕ ℕ).items :=
    List.pairwise_singleton _ _
  refine range_scan_eq_filter (fun root hroot => ⟨1, 1, ?_⟩) hb _ _
  cases hroot
  refine ⟨.cons (by simp [Below]) ?_ (.last (by simp [Below]) ?_), by decide, by decide⟩
  · exact ⟨by decide, fun k hk => ⟨by simp, by simp at hk ⊢; omega⟩, rfl, by decide, by decide⟩
  · exact ⟨by decide, fun k hk => ⟨by simp at hk ⊢; omega, by simp⟩, rfl, by decide, by decide⟩

/-! ## One node -/

namespace NodeRef

variable {order : ℕ} {lo hi : Option α}
variable {keys : List α}
variable {node : NodeRef α ν}

theorem pairwise_of_consecutive (h : ∀ p ∈ keys.zip keys.tail, p.1 < p.2) :
    keys.Pairwise (· < ·) := by
  induction keys with
  | nil => exact List.Pairwise.nil
  | cons k keys ih =>
    cases keys with
    | nil => exact List.pairwise_singleton _ _
    | cons k' keys =>
      have hlt : k < k' := h (k, k') (by simp)
      have hrest : (k' :: keys).Pairwise (· < ·) := ih fun p hp => h p (.tail _ hp)
      refine List.pairwise_cons.mpr ⟨fun x hx => ?_, hrest⟩
      rcases List.mem_cons.mp hx with rfl | hx
      · exact hlt
      · exact hlt.trans ((List.pairwise_cons.mp hrest).1 x hx)

/-- What the keys of a node are if the tests on them find nothing. -/
structure KeysOk (order : ℕ) (lo hi : Option α) (isRoot : Bool) (keys : List α) : Prop where
  increasing : keys.Pairwise (· < ·)
  within : ∀ k ∈ keys, Within lo hi k
  le_order : keys.length ≤ order
  least_le : (if isRoot then 0 else order / 2) ≤ keys.length

theorem keysOk_of_keyErrors {isRoot : Bool} (h : keyErrors order keys lo hi isRoot = []) :
    KeysOk order lo hi isRoot keys := by
  simp only [keyErrors, List.append_eq_nil_iff, List.map_eq_nil_iff, List.filter_eq_nil_iff,
    List.flatMap_eq_nil_iff, decide_eq_true_eq, not_lt, not_le, Option.mem_toList] at h
  obtain ⟨⟨⟨hconsecutive, hbounds⟩, hmax⟩, hmin⟩ := h
  refine ⟨pairwise_of_consecutive hconsecutive, fun k hk => ⟨?_, ?_⟩, ?_, ?_⟩
  · exact (hbounds k hk).1
  · exact (hbounds k hk).2
  · by_contra hlt
    simp [Nat.lt_of_not_le hlt] at hmax
  · cases isRoot with
    | true => simp
    | false =>
      simpa using hmin

theorem KeysOk.leafOk {values : List (ValueRef ν)} {isRoot : Bool}
    (h : KeysOk order lo hi isRoot keys) (haligned : values.length = keys.length) :
    LeafOk order (if isRoot then 0 else order / 2) lo hi keys values :=
  ⟨h.increasing, h.within, haligned, h.least_le, h.le_order⟩

/-- A node that has a key, or is internal, has room between its bounds. -/
theorem Wf.range_below {d least : ℕ} (h : Wf order d least lo hi node) (hleast : 1 ≤ least) :
    Below lo hi := by
  cases d with
  | zero =>
    obtain ⟨address, keys, values, rfl, hleaf⟩ := h.exists_leaf
    have hne : keys ≠ [] := List.ne_nil_of_length_pos (hleast.trans hleaf.least_le)
    obtain ⟨k, hk⟩ := List.exists_mem_of_ne_nil keys hne
    intro l hl u hu
    exact ((hleaf.within k hk).above l hl).trans_lt ((hleaf.within k hk).under u hu)
  | succ d =>
    obtain ⟨address, keys, children, rfl, hint⟩ := h.exists_internal
    exact hint.chain.range_below

/-! ## The whole tree -/

omit [LinearOrder α] in
theorem lowerOf_state {lower l : Option α} {index : ℕ} {s s' : AuditState α}
    (h : lowerOf keys lower index s = .ok l s') : s' = s := by
  unfold lowerOf at h
  split_ifs at h
  · rw [run_map, getItem] at h
    cases hkey : keys[index - 1]? with
    | none => simp [hkey] at h
    | some key =>
      simp only [hkey, run_pure] at h
      exact (EStateM.Result.ok.inj h).2.symm
  · exact (EStateM.Result.ok.inj h).2.symm

mutual

/-- What has been reported stays reported. -/
theorem check_errors : ∀ {node : NodeRef α ν} {lo hi : Option α} {isRoot : Bool} {s s' : AuditState α}
    {height : ℕ}, node.check order lo hi isRoot s = .ok height s' → s.errors <+: s'.errors
  | .leaf address keys values, lo, hi, isRoot, s, s', height, hrun => by
    simp only [check, run_bind, run_modify, run_pure] at hrun
    cases hrun
    simp only [AuditState.report, List.append_assoc]
    exact List.prefix_append ..
  | .internal address keys children, lo, hi, isRoot, s, s', height, hrun => by
    simp only [check, run_bind, run_modify] at hrun
    split at hrun
    · next heights s2 hchildren =>
      simp only [run_pure] at hrun
      cases hrun
      refine List.IsPrefix.trans ?_ ((checkFrom_errors hchildren).trans (List.prefix_append ..))
      simp only [AuditState.report, List.append_assoc]
      exact List.prefix_append ..
    · cases hrun

theorem checkFrom_errors : ∀ {children : List (NodeRef α ν)} {keys : List α} {lower upper : Option α}
    {index : ℕ} {before heights : Finset ℕ} {s s' : AuditState α},
    checkFrom order keys lower upper children index before s = .ok heights s' → s.errors <+: s'.errors
  | [], keys, lower, upper, index, before, heights, s, s', hrun => by
    rw [checkFrom, run_pure] at hrun
    cases hrun
    exact List.prefix_refl _
  | child :: children, keys, lower, upper, index, before, heights, s, s', hrun => by
    rw [checkFrom, run_bind] at hrun
    split at hrun
    · next l s1 hlower =>
      obtain rfl := lowerOf_state hlower
      rw [run_bind] at hrun
      split at hrun
      · next height s2 hchild =>
        exact (check_errors hchild).trans (checkFrom_errors hrun)
      · cases hrun
    · cases hrun

end

mutual

/-- A subtree in which `check` finds nothing is well formed. -/
theorem check_sound (horder : 2 ≤ order) : ∀ {node : NodeRef α ν} {lo hi : Option α} {isRoot : Bool}
    {s s' : AuditState α} {height : ℕ}, node.check order lo hi isRoot s = .ok height s' →
    s'.errors = [] → s'.leafKeys = s.leafKeys + node.items.length ∧ ∃ d, height = d + 1 ∧
      Wf order d (if isRoot then 0 else order / 2) lo hi node
  | .leaf address keys values, lo, hi, isRoot, s, s', height, hrun, hno => by
    simp only [check, run_bind, run_modify, run_pure] at hrun
    cases hrun
    simp only [AuditState.report, List.append_eq_nil_iff] at hno
    obtain ⟨⟨-, hkeys⟩, hvalues⟩ := hno
    have haligned : values.length = keys.length := by
      by_contra hne
      simp [hne] at hvalues
    refine ⟨?_, 0, rfl, (keysOk_of_keyErrors hkeys).leafOk haligned⟩
    simp [AuditState.report, items, haligned]
  | .internal address keys children, lo, hi, isRoot, s, s', height, hrun, hno => by
    simp only [check, run_bind, run_modify] at hrun
    split at hrun
    · next heights s2 hchildren =>
      simp only [run_pure] at hrun
      cases hrun
      simp only [AuditState.report, List.append_eq_nil_iff] at hno
      obtain ⟨hno2, hbalanced⟩ := hno
      -- nothing was reported before the loop either
      have hfirst := List.prefix_nil.mp (hno2 ▸ checkFrom_errors hchildren)
      simp only [AuditState.report, List.append_eq_nil_iff] at hfirst
      obtain ⟨⟨⟨-, hkeys⟩, hcount⟩, -⟩ := hfirst
      have hlen : children.length = keys.length + 1 := by
        by_contra hne
        simp [hne] at hcount
      have hcard : heights.card ≤ 1 := by
        by_contra hlt
        simp [Nat.lt_of_not_le hlt] at hbalanced
      have hloop : checkFrom order ([] ++ keys) lo hi children ([] : List α).length ∅ _ = .ok heights s2 :=
        hchildren
      obtain ⟨hleafKeys, -, hsame⟩ := checkFrom_sound horder hlen (.inl ⟨rfl, rfl⟩) hloop hno2
      obtain ⟨d, rfl, hchain⟩ := hsame hcard
      have hok := keysOk_of_keyErrors hkeys
      refine ⟨?_, d + 1, by simp [Nat.add_comm], hchain, hok.least_le, hok.le_order⟩
      rw [items_internal]
      simpa [AuditState.report] using hleafKeys
    · cases hrun

/-- The loop over the children from the child after the separators `K1` on. -/
theorem checkFrom_sound (horder : 2 ≤ order) : ∀ {children : List (NodeRef α ν)} {K1 K2 : List α}
    {l lower upper : Option α} {before heights : Finset ℕ} {s s' : AuditState α},
    children.length = K2.length + 1 →
    ((K1 = [] ∧ l = lower) ∨ ∃ K k, K1 = K ++ [k] ∧ l = some k) →
    checkFrom order (K1 ++ K2) lower upper children K1.length before s = .ok heights s' →
    s'.errors = [] → s'.leafKeys = s.leafKeys + (children.flatMap items).length ∧ before ⊆ heights ∧
      (heights.card ≤ 1 → ∃ d, heights = {d + 1} ∧ Chain (Wf order d (order / 2)) l upper K2 children)
  | [], K1, K2, l, lower, upper, before, heights, s, s', hlen, hl, hrun, hno => by
    simp at hlen
  | child :: children, K1, K2, l, lower, upper, before, heights, s, s', hlen, hl, hrun, hno => by
    rw [checkFrom, lowerOf_append hl] at hrun
    simp only [run_bind, run_pure] at hrun
    split at hrun
    · next height s1 hchild =>
      have hno1 : s1.errors = [] := List.prefix_nil.mp (hno ▸ checkFrom_errors hrun)
      obtain ⟨hleafKeys, d, rfl, hwf⟩ := check_sound horder hchild hno1
      simp only [Bool.false_eq_true, if_false] at hwf
      have hbelow := hwf.range_below (Nat.div_pos horder (by omega))
      cases K2 with
      | nil =>
        obtain rfl : children = [] := List.length_eq_zero_iff.mp (by simpa using hlen)
        simp only [List.append_nil, Nat.lt_irrefl, if_false] at hwf hbelow
        rw [checkFrom, run_pure] at hrun
        cases hrun
        refine ⟨by simpa using hleafKeys, Finset.subset_union_left, fun hcard => ⟨d, ?_, .last hbelow hwf⟩⟩
        refine Finset.eq_singleton_iff_unique_mem.mpr ⟨by simp, fun x hx => ?_⟩
        exact Finset.card_le_one.mp hcard x hx (d + 1) (by simp)
      | cons k K2 =>
        have hupper : (if K1.length < (K1 ++ k :: K2).length then (K1 ++ k :: K2)[K1.length]?
            else upper) = some k := by simp
        rw [hupper] at hwf hbelow
        rw [List.append_cons, show K1.length + 1 = (K1 ++ [k]).length by simp] at hrun
        obtain ⟨hrestKeys, hsub, hrest⟩ := checkFrom_sound horder (by simpa using hlen)
          (.inr ⟨K1, k, rfl, rfl⟩) hrun hno
        refine ⟨?_, Finset.subset_union_left.trans hsub, fun hcard => ?_⟩
        · rw [hrestKeys, hleafKeys, List.flatMap_cons, List.length_append, Nat.add_assoc]
        · obtain ⟨d', rfl, hchain⟩ := hrest hcard
          have hmem : d + 1 ∈ ({d' + 1} : Finset ℕ) := hsub (by simp)
          obtain rfl : d = d' := by simpa using hmem
          exact ⟨d, rfl, .cons hbelow hwf hchain⟩
    · cases hrun

end

/-! ## Leaves -/

mutual

/-- The depths of the leaves of a subtree. -/
def leafDepths : NodeRef α ν → List ℕ
  | .leaf _ _ _ => [0]
  | .internal _ _ children => (leafDepthsOf children).map (· + 1)

/-- The depths of the leaves of children. -/
def leafDepthsOf : List (NodeRef α ν) → List ℕ
  | [] => []
  | child :: children => leafDepths child ++ leafDepthsOf children

end

omit [LinearOrder α] in
theorem leafDepthsOf_eq (children : List (NodeRef α ν)) :
    leafDepthsOf children = children.flatMap leafDepths := by
  induction children with
  | nil => rfl
  | cons child children ih => rw [leafDepthsOf, ih, List.flatMap_cons]

theorem Wf.leafDepths_eq {d least : ℕ} (h : Wf order d least lo hi node) :
    ∀ depth ∈ node.leafDepths, depth = d := by
  induction d generalizing least lo hi node with
  | zero =>
    obtain ⟨address, keys, values, rfl, -⟩ := h.exists_leaf
    simp [leafDepths]
  | succ d ih =>
    obtain ⟨address, keys, children, rfl, hint⟩ := h.exists_internal
    intro depth hdepth
    rw [leafDepths, leafDepthsOf_eq] at hdepth
    obtain ⟨below, hbelow, rfl⟩ := List.mem_map.mp hdepth
    obtain ⟨child, hchild, hmem⟩ := List.mem_flatMap.mp hbelow
    obtain ⟨i, hget⟩ := List.mem_iff_getElem?.mp hchild
    rw [ih (hint.chain.child_at hget) below hmem]

end NodeRef

/-! ## Soundness -/

namespace BPlusTree

variable {t : BPlusTree α ν}

/-- A tree in which the audit finds nothing is well formed, and its count is right. -/
theorem wf_of_audit (horder : 3 ≤ t.order) {report : AuditReport α} (h : t.audit = .ok report)
    (hno : report.errors = []) :
    (∀ root ∈ t.treeRef, ∃ d, NodeRef.Wf t.order d 0 none none root) ∧ t.count = t.items.length := by
  unfold audit at h
  cases hcheck : t.checkRoot ⟨[], 0, 0, 0⟩ with
  | error e s => simp [hcheck] at h
  | ok height s =>
    rw [hcheck] at h
    cases h
    simp only [AuditState.report, List.append_eq_nil_iff] at hno
    obtain ⟨herrors, hcount⟩ := hno
    have hleafKeys : (s.leafKeys : ℤ) = t.count := by
      by_contra hne
      simp [hne] at hcount
    unfold checkRoot at hcheck
    unfold items
    cases hroot : t.treeRef with
    | none =>
      rw [hroot] at hcheck
      cases hcheck
      exact ⟨by simp, hleafKeys.symm⟩
    | some root =>
      rw [hroot] at hcheck
      obtain ⟨hkeys, d, -, hwf⟩ := NodeRef.check_sound (by omega) hcheck herrors
      refine ⟨fun root' hroot' => ?_, ?_⟩
      · cases hroot'
        exact ⟨d, hwf⟩
      · rw [← hleafKeys, hkeys]
        simp

/-- **The audit is sound.**  For every tree, however it came about, and every count: if the
audit returns no errors, then the items increase strictly in key, a lookup returns a value
exactly if the items bind the key to it, every range scan is the filtered iteration, all
leaves are at the same depth, and there are as many items as the count says. -/
theorem audit_is_sound (horder : 3 ≤ t.order) {report : AuditReport α} (h : t.audit = .ok report)
    (hno : report.errors = []) :
    KeysIncrease t.items ∧ (∀ key v, t.get key = .ok v ↔ (key, v) ∈ t.items) ∧
      (∀ start stop, t.rangeItems start stop = .ok (restrict start stop t.items)) ∧
      (∀ root ∈ t.treeRef, ∃ d, ∀ depth ∈ root.leafDepths, depth = d) ∧
      (t.items.length : ℤ) = t.count := by
  obtain ⟨hwf, hcount⟩ := wf_of_audit horder h hno
  unfold items at hcount ⊢
  unfold get rangeItems
  cases hroot : t.treeRef with
  | none =>
    rw [hroot] at hcount
    refine ⟨List.Pairwise.nil, ?_, fun start stop => rfl, by simp, hcount.symm⟩
    intro key v
    constructor
    · intro hget
      cases hget
    · simp
  | some root =>
    rw [hroot] at hcount
    obtain ⟨d, hroot_wf⟩ := hwf root hroot
    have hincrease : KeysIncrease root.items := hroot_wf.items_increase.1
    refine ⟨hincrease, fun key v => ?_, fun start stop => hroot_wf.rangeItems_eq, ?_, hcount.symm⟩
    · show root.get key = .ok v ↔ (key, v) ∈ root.items
      rcases hroot_wf.get_spec key with ⟨v', hget, hmem⟩ | ⟨hget, habsent⟩
      · rw [hget]
        refine ⟨fun heq => Except.ok.inj heq ▸ hmem, fun hv => ?_⟩
        rw [hincrease.functional hmem hv]
      · rw [hget]
        refine ⟨fun heq => ?_, fun hv => absurd hv (habsent v)⟩
        cases heq
    · intro root' hroot'
      cases hroot'
      exact ⟨d, hroot_wf.leafDepths_eq⟩

/-- A root with two leaves, and a separator that is no key. -/
theorem audit_is_sound_sample :
    (⟨3, some (.internal 0 [5] [.leaf 0 [1, 3] [⟨10, 0⟩, ⟨30, 0⟩], .leaf 0 [6] [⟨60, 0⟩]]), 3⟩
        : BPlusTree ℕ ℕ).audit = .ok ⟨3, 3, 3, 2, []⟩ ∧
      (⟨3, some (.internal 0 [5] [.leaf 0 [1, 3] [⟨10, 0⟩, ⟨30, 0⟩], .leaf 0 [6] [⟨60, 0⟩]]), 3⟩
        : BPlusTree ℕ ℕ).get 3 = .ok 30 := by
  have haudit : (⟨3, some (.internal 0 [5] [.leaf 0 [1, 3] [⟨10, 0⟩, ⟨30, 0⟩], .leaf 0 [6] [⟨60, 0⟩]]), 3⟩
      : BPlusTree ℕ ℕ).audit = .ok ⟨3, 3, 3, 2, []⟩ := by decide
  exact ⟨haudit, ((audit_is_sound (by decide) haudit rfl).2.1 3 30).mpr (by decide)⟩

end BPlusTree
