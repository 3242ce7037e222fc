/-
# Range scans of the B+ tree

`_range_items` skips the children that end before the range and stops at the first that
begins behind it.  On a well-formed tree it yields the items whose keys are in the
range, in order.
-/
import ImmuStore.BPlusMap

variable {α ν : Type} [LinearOrder α]
variable {start stop : Option α}
variable {key s : α}

/-! ## Ranges of a scan -/

/-- The key is not below `start`, if there is one, and below `stop`, if there is one. -/
def inRange (start stop : Option α) (key : α) : Bool :=
  start.all (fun s => decide (s ≤ key)) && stop.all fun s => decide (key < s)

theorem inRange_eq_true : inRange start stop key = true ↔ Within start stop key := by
  constructor
  · intro h
    simp only [inRange, Bool.and_eq_true, Option.all_eq_true, decide_eq_true_eq] at h
    exact ⟨h.1, h.2⟩
  · intro h
    simp only [inRange, Bool.and_eq_true, Option.all_eq_true, decide_eq_true_eq]
    exact ⟨h.above, h.under⟩

omit [LinearOrder α] in
theorem any_decide {bound : Option α} {p : α → Prop} [DecidablePred p] :
    bound.any (fun s => decide (p s)) = true ↔ ∃ s, bound = some s ∧ p s := by
  cases bound with
  | none => simp
  | some s => simp

theorem inRange_of_lt (hs : start = some s) (h : key < s) : inRange start stop key = false := by
  simp [inRange, hs, h]

theorem inRange_of_ge (hs : stop = some s) (h : s ≤ key) : inRange start stop key = false := by
  simp [inRange, hs, h]

/-- The items of a list whose keys are in the range. -/
def restrict (start stop : Option α) (items : List (α × ν)) : List (α × ν) :=
  items.filter fun e => inRange start stop e.1

theorem restrict_cons (start stop : Option α) (e : α × ν) (l : List (α × ν)) :
    restrict start stop (e :: l) =
      if inRange start stop e.1 then e :: restrict start stop l else restrict start stop l :=
  List.filter_cons ..

theorem restrict_append (start stop : Option α) (l l' : List (α × ν)) :
    restrict start stop (l ++ l') = restrict start stop l ++ restrict start stop l' :=
  List.filter_append ..

theorem restrict_eq_nil {items : List (α × ν)} (h : ∀ e ∈ items, inRange start stop e.1 = false) :
    restrict start stop items = [] := by
  rw [restrict, List.filter_eq_nil_iff]
  intro e he
  simp [h e he]

namespace NodeRef

/-! ## The scan -/

/-- The loop of `_range_items` over the entries of a leaf. -/
def rangeEntries (start stop : Option α) : List (α × ValueRef ν) → List (α × ν)
  | [] => []
  | (key, valueRef) :: entries =>
    if start.any fun s => decide (key < s) then rangeEntries start stop entries
    else if stop.any fun s => decide (s ≤ key) then []
    else (key, valueRef.referent) :: rangeEntries start stop entries

omit [LinearOrder α] in
/-- `left_bound`. -/
def leftBound (keys : List α) (index : ℕ) : Except PyError (Option α) :=
  if 0 < index then
    match keys[index - 1]? with
    | some key => .ok (some key)
    | none => .error .indexError
  else .ok none

omit [LinearOrder α] in
/-- `right_bound`. -/
def rightBound (keys : List α) (index : ℕ) : Option α :=
  if index < keys.length then keys[index]? else none

mutual

/-- `_range_items` of a node. -/
def rangeItems (start stop : Option α) : NodeRef α ν → Except PyError (List (α × ν))
  | .leaf _ keys values => .ok (rangeEntries start stop (keys.zip values))
  | .internal _ keys children => rangeFrom start stop keys children 0

/-- The loop of `_range_items` over the children from an index on. -/
def rangeFrom (start stop : Option α) (keys : List α) :
    List (NodeRef α ν) → ℕ → Except PyError (List (α × ν))
  | [], _ => .ok []
  | child :: children, index => do
    let left ← leftBound keys index
    if stop.any fun s => left.any fun l => decide (s ≤ l) then return []
    else if start.any fun s => (rightBound keys index).any fun r => decide (r ≤ s) then
      rangeFrom start stop keys children (index + 1)
    else do
      let first ← rangeItems start stop child
      let rest ← rangeFrom start stop keys children (index + 1)
      return first ++ rest

end

end NodeRef

/-- `_range_items` from the root. -/
def BPlusTree.rangeItems (t : BPlusTree α ν) (start stop : Option α) :
    Except PyError (List (α × ν)) :=
  match t.treeRef with
  | none => .ok []
  | some root => root.rangeItems start stop

/-! ## What it yields -/

namespace NodeRef

variable {order d least : ℕ} {lo hi start stop : Option α} {node : NodeRef α ν}

/-- The loop over a leaf with increasing keys may stop at the first key behind the
range. -/
theorem rangeEntries_eq {keys : List α} {values : List (ValueRef ν)} (address : ℕ)
    (hkeys : keys.Pairwise (· < ·)) :
    rangeEntries start stop (keys.zip values) =
      restrict start stop (NodeRef.leaf address keys values).items := by
  induction keys generalizing values with
  | nil => rfl
  | cons key keys ih =>
    cases values with
    | nil => rfl
    | cons v values =>
      obtain ⟨hlt, htail⟩ := List.pairwise_cons.mp hkeys
      rw [List.zip_cons_cons, rangeEntries, items_leaf_cons, ih htail, restrict_cons]
      by_cases hbelow : start.any fun s => decide (key < s)
      · obtain ⟨s, hs, hkey⟩ := any_decide.mp hbelow
        have hout : inRange start stop key = false := inRange_of_lt hs hkey
        simp [hbelow, hout]
      · by_cases hbehind : stop.any fun s => decide (s ≤ key)
        · -- the keys that follow are behind the range as well
          obtain ⟨s, hs, hkey⟩ := any_decide.mp hbehind
          have hout : inRange start stop key = false := inRange_of_ge hs hkey
          have hrest : restrict start stop (NodeRef.leaf address keys values).items = [] := by
            apply restrict_eq_nil
            intro e he
            have hmem : e.1 ∈ keys := by
              simp only [items, List.mem_map] at he
              obtain ⟨p, hp, rfl⟩ := he
              exact (List.of_mem_zip hp).1
            exact inRange_of_ge hs (hkey.trans (hlt _ hmem).le)
          simp [hbelow, hbehind, hout, hrest]
        · have hin : inRange start stop key = true := by
            rw [any_decide] at hbelow hbehind
            push Not at hbelow hbehind
            exact inRange_eq_true.mpr ⟨hbelow, hbehind⟩
          simp [hbelow, hbehind, hin]

omit [LinearOrder α] in
/-- The child after the separators `K1` begins at the last of them. -/
theorem leftBound_append {l : Option α} {K1 K2 : List α}
    (hl : (K1 = [] ∧ l = none) ∨ ∃ K k, K1 = K ++ [k] ∧ l = some k) :
    leftBound (K1 ++ K2) K1.length = .ok l := by
  rcases hl with ⟨rfl, rfl⟩ | ⟨K, k, rfl, rfl⟩
  · rfl
  · simp [leftBound]

/-- The loop over the children, from the child after the separators `K1` on. -/
theorem rangeFrom_eq {l : Option α} {K2 : List α} {C : List (NodeRef α ν)}
    (hchild : ∀ {lo hi : Option α} {child : NodeRef α ν}, Wf order d (order / 2) lo hi child →
      child.rangeItems start stop = .ok (restrict start stop child.items))
    (h : Chain (Wf order d (order / 2)) lo hi K2 C) {K1 : List α}
    (hl : (K1 = [] ∧ l = none) ∨ ∃ K k, K1 = K ++ [k] ∧ l = some k) (hlo : ∀ k ∈ l, lo = some k) :
    rangeFrom start stop (K1 ++ K2) C K1.length = .ok (restrict start stop (C.flatMap items)) := by
  induction h generalizing K1 l with
  | @last lo hi c hb hc =>
    rw [rangeFrom, leftBound_append hl]
    have hright : rightBound (K1 ++ []) K1.length = none := by simp [rightBound]
    simp only [hright, hchild hc, rangeFrom]
    by_cases hstop : stop.any fun s => l.any fun l => decide (s ≤ l)
    · -- everything in the last child is behind the range
      simp only [Option.any_eq_true, decide_eq_true_eq] at hstop
      obtain ⟨s, hs, k, hk, hle⟩ := hstop
      have hnil : restrict start stop ([c].flatMap items) = [] := by
        apply restrict_eq_nil
        intro e he
        have hwithin := hc.items_increase.2 e (by simpa using he)
        exact inRange_of_ge hs (hle.trans (hwithin.above k (hlo k hk)))
      rw [hnil]
      simp [hs, hk, hle, bind, Except.bind, pure, Except.pure]
    · simp [hstop, bind, Except.bind, pure, Except.pure]
  | @cons lo hi k ks c cs hb hc ht ih =>
    have hkeys : K1 ++ k :: ks = K1 ++ [k] ++ ks := by simp
    have hrest := @ih (some k) (K1 ++ [k]) (.inr ⟨K1, k, rfl, rfl⟩) (fun j hj => by simpa using hj)
    rw [← hkeys, List.length_append, List.length_singleton] at hrest
    have hright : rightBound (K1 ++ k :: ks) K1.length = some k := by simp [rightBound]
    have hwhole := ht.flatMap_pairwise fun _ _ _ hc => hc.items_increase
    rw [rangeFrom, leftBound_append hl, hrest, hright, hchild hc, List.flatMap_cons, restrict_append]
    by_cases hstop : stop.any fun s => l.any fun l => decide (s ≤ l)
    · simp only [Option.any_eq_true, decide_eq_true_eq] at hstop
      obtain ⟨s, hs, j, hj, hle⟩ := hstop
      have hfirst : restrict start stop c.items = [] :=
        restrict_eq_nil fun e he => inRange_of_ge hs
          (hle.trans ((hc.items_increase.2 e he).above j (hlo j hj)))
      have hothers : restrict start stop (cs.flatMap items) = [] := by
        apply restrict_eq_nil
        intro e he
        have hjk : j < k := hb j (hlo j hj) k rfl
        exact inRange_of_ge hs (hle.trans (hjk.le.trans ((hwhole.2 e he).above k rfl)))
      rw [hfirst, hothers]
      simp [hs, hj, hle, bind, Except.bind, pure, Except.pure]
    · by_cases hstart : start.any fun s => decide (k ≤ s)
      · obtain ⟨s, hs, hle⟩ : ∃ s, start = some s ∧ k ≤ s := any_decide.mp hstart
        have hfirst : restrict start stop c.items = [] := by
          apply restrict_eq_nil
          intro e he
          have hlt := (hc.items_increase.2 e he).under k rfl
          exact inRange_of_lt hs (hlt.trans_le hle)
        rw [hfirst]
        simp [hstop, hstart, bind, Except.bind]
      · simp [hstop, hstart, bind, Except.bind, pure, Except.pure]

/-- On a well-formed subtree `_range_items` yields the items in the range. -/
theorem Wf.rangeItems_eq (h : Wf order d least lo hi node) :
    node.rangeItems start stop = .ok (restrict start stop node.items) := by
  induction d generalizing least lo hi node with
  | zero =>
    obtain ⟨address, keys, values, rfl, hleaf⟩ := h.exists_leaf
    rw [rangeItems, rangeEntries_eq address hleaf.increasing]
  | succ d ih =>
    obtain ⟨address, keys, children, rfl, hint⟩ := h.exists_internal
    have hrun := rangeFrom_eq (fun hc => ih hc) hint.chain (.inl ⟨rfl, rfl⟩) (by simp)
    rw [rangeItems, items_internal]
    exact hrun

end NodeRef

/-- A tree that holds a map yields its bindings in the range, in increasing order. -/
theorem BPlusTree.Holds.rangeItems_eq {order : ℕ} {t : BPlusTree α ν} {f : α → Option ν}
    (h : Holds order t f) (start stop : Option α) :
    t.rangeItems start stop = .ok (restrict start stop t.items) := by
  unfold BPlusTree.rangeItems BPlusTree.items
  cases hroot : t.treeRef with
  | none => rfl
  | some root =>
    obtain ⟨d, hwf⟩ := h.ok.root_wf root hroot
    exact hwf.rangeItems_eq

example : ((BPlusTree.empty 3).updateAll [.set 4 40, .set 2 20, .set 5 50, .set 1 10]
    : BPlusTree ℕ ℕ).rangeItems (some 2) (some 5) = .ok [(2, 20), (4, 40)] := by decide
