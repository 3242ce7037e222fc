/-
# The binary tree (`binary_tree.py`)

The other index engine: an unbalanced search tree whose nodes know how many keys are
below them.  References are modelled resolved, as those of the B+ tree are; the empty
reference stands for one without referent and address.  A tree whose items increase and
whose lengths are right (`Ok`) is a sorted map.
-/
import ImmuStore.BPlusScan

/-- A `BinaryNodeRef`: empty, or a `BinaryNode` with the address of its record. -/
inductive BinaryNodeRef (α ν : Type) where
  | empty
  | node (address : ℕ) (left : BinaryNodeRef α ν) (key : α) (value : ValueRef ν)
      (right : BinaryNodeRef α ν) (length : ℕ)
  deriving DecidableEq, Repr

variable {α ν : Type}

/-- The messages `audit` collects. -/
inductive BinaryAuditError (α : Type) where
  /-- "{key} is not greater than lower bound {lower}" -/
  | notGreater (key lower : α)
  /-- "{key} is not less than upper bound {upper}" -/
  | notLess (key upper : α)
  /-- "{key} length is {length}, expected {expected}" -/
  | wrongLength (key : α) (length expected : ℕ)
  deriving DecidableEq, Repr

/-- The `AuditReport` of a binary tree. -/
structure BinaryAuditReport (α : Type) where
  keys : ℕ
  nodes : ℕ
  values : ℕ
  height : ℕ
  errors : List (BinaryAuditError α)
  deriving DecidableEq, Repr

/-- The errors and the counter `walk` adds to. -/
structure WalkState (α : Type) where
  errors : List (BinaryAuditError α)
  values : ℕ
  deriving DecidableEq, Repr

/-- `errors.append`, for the errors a test found. -/
def WalkState.report (s : WalkState α) (errors : List (BinaryAuditError α)) : WalkState α :=
  { s with errors := s.errors ++ errors }

namespace BinaryNodeRef

/-! ## Reads -/

/-- `_ref_length`. -/
def refLength : BinaryNodeRef α ν → ℕ
  | .empty => 0
  | .node _ _ _ _ _ length => length

/-- `_items`. -/
def items : BinaryNodeRef α ν → List (α × ν)
  | .empty => []
  | .node _ left key value right _ => left.items ++ (key, value.referent) :: right.items

/-- `_height`. -/
def height : BinaryNodeRef α ν → ℕ
  | .empty => 0
  | .node _ left _ _ right _ => 1 + max left.height right.height

variable [LinearOrder α]

/-- `_get`. -/
def get (key : α) : BinaryNodeRef α ν → Except PyError ν
  | .empty => .error .keyError
  | .node _ left nodeKey value right _ =>
    if key < nodeKey then left.get key
    else if nodeKey < key then right.get key
    else .ok value.referent

/-- `_range_items`. -/
def rangeItems (start stop : Option α) : BinaryNodeRef α ν → List (α × ν)
  | .empty => []
  | .node _ left key value right _ =>
    (if start.all (fun s => decide (s ≤ key)) then left.rangeItems start stop else []) ++
    (if start.all (fun s => decide (s ≤ key)) && stop.all (fun s => decide (key < s)) then
      [(key, value.referent)] else []) ++
    (if stop.all (fun s => decide (key < s)) then right.rangeItems start stop else [])

/-- The tests `walk` makes on the key of a node. -/
def boundErrors (key : α) (lower upper : Option α) : List (BinaryAuditError α) :=
  (lower.toList.filter fun lower => key ≤ lower).map (.notGreater key) ++
  (upper.toList.filter fun upper => upper ≤ key).map (.notLess key)

/-- `walk`: audits a subtree and returns its number of keys and the depth of its deepest
node. -/
def walk : BinaryNodeRef α ν → Option α → Option α → ℕ → Py (WalkState α) (ℕ × ℕ)
  | .empty, _, _, depth => return (0, depth - 1)
  | .node _ left key _ right length, lower, upper, depth => do
    modify (·.report (boundErrors key lower upper))
    modify fun s => { s with values := s.values + 1 }
    let (leftCount, leftHeight) ← left.walk lower (some key) (depth + 1)
    let (rightCount, rightHeight) ← right.walk (some key) upper (depth + 1)
    let expected := 1 + leftCount + rightCount
    modify (·.report (if length ≠ expected then [.wrongLength key length expected] else []))
    return (expected, max depth (max leftHeight rightHeight))

/-- `audit`. -/
def audit (root : BinaryNodeRef α ν) : Except PyError (BinaryAuditReport α) :=
  match root.walk none none 1 ⟨[], 0⟩ with
  | .error e _ => .error e
  | .ok (nodes, height) s =>
    .ok { keys := nodes, nodes := nodes, values := s.values
          height := match root with
            | .empty => 0
            | .node .. => height
          errors := s.errors }

/-! ## Updates -/

omit [LinearOrder α] in
/-- `_node_ref`: a node not written yet. -/
def nodeRef (left : BinaryNodeRef α ν) (key : α) (value : ValueRef ν) (right : BinaryNodeRef α ν) :
    BinaryNodeRef α ν :=
  .node 0 left key value right (1 + left.refLength + right.refLength)

/-- `_insert`. -/
def insert (key : α) (value : ValueRef ν) : BinaryNodeRef α ν → BinaryNodeRef α ν
  | .empty => nodeRef .empty key value .empty
  | .node _ left nodeKey nodeValue right _ =>
    if key < nodeKey then nodeRef (left.insert key value) nodeKey nodeValue right
    else if nodeKey < key then nodeRef left nodeKey nodeValue (right.insert key value)
    else nodeRef left key value right

omit [LinearOrder α] in
/-- `_pop_min` of a node with these parts: the key and the value of its smallest node,
and what is left. -/
def popMin : BinaryNodeRef α ν → α → ValueRef ν → BinaryNodeRef α ν →
    (α × ValueRef ν) × BinaryNodeRef α ν
  | .empty, key, value, right => ((key, value), right)
  | .node _ left leftKey leftValue leftRight _, key, value, right =>
    let popped := popMin left leftKey leftValue leftRight
    (popped.1, nodeRef popped.2 key value right)

omit [LinearOrder α] in
/-- The end of `_delete`: what takes the place of a node, from its subtrees. -/
def join : BinaryNodeRef α ν → BinaryNodeRef α ν → BinaryNodeRef α ν
  | .empty, right => right
  | left, .empty => left
  | left, .node _ rightLeft rightKey rightValue rightRight _ =>
    let popped := popMin rightLeft rightKey rightValue rightRight
    nodeRef left popped.1.1 popped.1.2 popped.2

/-- `_delete`. -/
def delete (key : α) : BinaryNodeRef α ν → Except PyError (BinaryNodeRef α ν)
  | .empty => .error .keyError
  | .node _ left nodeKey nodeValue right _ =>
    if key < nodeKey then do
      let left ← left.delete key
      return nodeRef left nodeKey nodeValue right
    else if nodeKey < key then do
      let right ← right.delete key
      return nodeRef left nodeKey nodeValue right
    else .ok (join left right)

end BinaryNodeRef

/-! ## The invariant -/

/-- The keys increase around a binding if they do on both sides of it. -/
theorem keysIncrease_node [LinearOrder α] {A B : List (α × ν)} {key : α} {v : ν} :
    KeysIncrease (A ++ (key, v) :: B) ↔
      KeysIncrease A ∧ KeysIncrease B ∧ (∀ a ∈ A, a.1 < key) ∧ ∀ b ∈ B, key < b.1 := by
  unfold KeysIncrease
  rw [List.pairwise_append, List.pairwise_cons]
  constructor
  · rintro ⟨hA, ⟨hkey, hB⟩, hAB⟩
    exact ⟨hA, hB, fun a ha => hAB a ha (key, v) (by simp), hkey⟩
  · rintro ⟨hA, hB, hlt, hgt⟩
    refine ⟨hA, ⟨hgt, hB⟩, ?_⟩
    intro a ha b hb
    rcases List.mem_cons.mp hb with rfl | hb
    · exact hlt a ha
    · exact (hlt a ha).trans (hgt b hb)

namespace BinaryNodeRef

variable {key : α}

/-- Every node knows the number of keys below it. -/
def Sized : BinaryNodeRef α ν → Prop
  | .empty => True
  | .node _ left _ _ right length =>
    left.Sized ∧ right.Sized ∧ length = 1 + left.items.length + right.items.length

variable {t left right : BinaryNodeRef α ν}

theorem Sized.refLength_eq (h : t.Sized) : t.refLength = t.items.length := by
  cases t with
  | empty => rfl
  | node address left key value right length =>
    obtain ⟨-, -, rfl⟩ := h
    simp only [refLength, items, List.length_append, List.length_cons]
    omega

theorem Sized.nodeRef (hl : left.Sized) (hr : right.Sized) (key : α) (value : ValueRef ν) :
    (nodeRef left key value right).Sized := by
  refine ⟨hl, hr, ?_⟩
  rw [hl.refLength_eq, hr.refLength_eq]

@[simp] theorem items_nodeRef (left : BinaryNodeRef α ν) (key : α) (value : ValueRef ν)
    (right : BinaryNodeRef α ν) :
    (nodeRef left key value right).items = left.items ++ (key, value.referent) :: right.items := rfl

theorem items_node (address : ℕ) (left : BinaryNodeRef α ν) (key : α) (value : ValueRef ν)
    (right : BinaryNodeRef α ν) (length : ℕ) :
    (node address left key value right length).items =
      left.items ++ (key, value.referent) :: right.items := rfl

variable [LinearOrder α]

/-- The invariant of a tree. -/
structure Ok (t : BinaryNodeRef α ν) : Prop where
  increasing : KeysIncrease t.items
  sized : t.Sized

theorem Ok.empty : (.empty : BinaryNodeRef α ν).Ok := ⟨List.Pairwise.nil, trivial⟩

/-- The parts of a tree that keeps the invariant. -/
structure Parts (left : BinaryNodeRef α ν) (key : α) (right : BinaryNodeRef α ν) : Prop where
  left_ok : left.Ok
  right_ok : right.Ok
  left_lt : ∀ e ∈ left.items, e.1 < key
  right_gt : ∀ e ∈ right.items, key < e.1

theorem Ok.parts {address length : ℕ} {value : ValueRef ν}
    (h : (node address left key value right length).Ok) : Parts left key right := by
  obtain ⟨hl, hr, hlt, hgt⟩ := keysIncrease_node.mp h.increasing
  obtain ⟨hsl, hsr, -⟩ := h.sized
  exact ⟨⟨hl, hsl⟩, ⟨hr, hsr⟩, hlt, hgt⟩

theorem Parts.nodeRef_ok (h : Parts left key right) (value : ValueRef ν) :
    (nodeRef left key value right).Ok := by
  constructor
  · rw [items_nodeRef]
    exact keysIncrease_node.mpr ⟨h.left_ok.increasing, h.right_ok.increasing, h.left_lt, h.right_gt⟩
  · exact h.left_ok.sized.nodeRef h.right_ok.sized key value

/-! ## Reading -/

/-- `_get` returns what the items bind the key to, or raises `KeyError`. -/
theorem Ok.get_spec (h : t.Ok) (key : α) :
    (∃ v, t.get key = .ok v ∧ (key, v) ∈ t.items) ∨
      (t.get key = .error .keyError ∧ ∀ v, (key, v) ∉ t.items) := by
  induction t with
  | empty => exact .inr ⟨rfl, by simp [items]⟩
  | node address left nodeKey value right length ihl ihr =>
    have hp := h.parts
    rw [items_node, get]
    rcases lt_trichotomy key nodeKey with hlt | rfl | hgt
    · rw [if_pos hlt]
      rcases ihl hp.left_ok with ⟨v, hget, hmem⟩ | ⟨hget, habsent⟩
      · exact .inl ⟨v, hget, List.mem_append_left _ hmem⟩
      · refine .inr ⟨hget, fun v hv => ?_⟩
        rcases List.mem_append.mp hv with hv | hv
        · exact habsent v hv
        rcases List.mem_cons.mp hv with hv | hv
        · exact hlt.ne (congrArg Prod.fst hv)
        · exact absurd (hp.right_gt _ hv) hlt.not_gt
    · rw [if_neg (lt_irrefl key), if_neg (lt_irrefl key)]
      exact .inl ⟨value.referent, rfl, by simp⟩
    · rw [if_neg hgt.not_gt, if_pos hgt]
      rcases ihr hp.right_ok with ⟨v, hget, hmem⟩ | ⟨hget, habsent⟩
      · exact .inl ⟨v, hget, List.mem_append_right _ (.tail _ hmem)⟩
      · refine .inr ⟨hget, fun v hv => ?_⟩
        rcases List.mem_append.mp hv with hv | hv
        · exact absurd (hp.left_lt _ hv) hgt.not_gt
        rcases List.mem_cons.mp hv with hv | hv
        · exact hgt.ne' (congrArg Prod.fst hv)
        · exact habsent v hv

/-- `_range_items` of a search tree yields the items in the range. -/
theorem rangeItems_eq_restrict (h : KeysIncrease t.items) (start stop : Option α) :
    t.rangeItems start stop = restrict start stop t.items := by
  induction t with
  | empty => rfl
  | node address left key value right length ihl ihr =>
    obtain ⟨hl, hr, hleft_lt, hright_gt⟩ := keysIncrease_node.mp h
    have hleft : (if start.all (fun s => decide (s ≤ key)) then left.rangeItems start stop else []) =
        restrict start stop left.items := by
      split
      · exact ihl hl
      · next hstart =>
        -- the node is below the range, and so is everything on its left
        obtain ⟨s, hs, hlt⟩ : ∃ s, start = some s ∧ key < s := by
          cases start with
          | none => simp at hstart
          | some s => exact ⟨s, rfl, by simpa using hstart⟩
        exact (restrict_eq_nil fun e he => inRange_of_lt hs ((hleft_lt e he).trans hlt)).symm
    have hright : (if stop.all (fun s => decide (key < s)) then right.rangeItems start stop else []) =
        restrict start stop right.items := by
      split
      · exact ihr hr
      · next hstop =>
        obtain ⟨s, hs, hle⟩ : ∃ s, stop = some s ∧ s ≤ key := by
          cases stop with
          | none => simp at hstop
          | some s => exact ⟨s, rfl, by simpa using hstop⟩
        exact (restrict_eq_nil fun e he => inRange_of_ge hs (hle.trans (hright_gt e he).le)).symm
    unfold rangeItems items
    rw [hleft, hright, restrict_append, restrict_cons, List.append_assoc]
    congr 1
    show (if inRange start stop key then _ else _) ++ _ = _
    split
    · rfl
    · rfl

/-- The walk over a tree finds no errors, if its keys are within the bounds. -/
theorem Ok.walk_spec (h : t.Ok) (lower upper : Option α) (depth : ℕ)
    (hlower : ∀ l ∈ lower, ∀ e ∈ t.items, l < e.1) (hupper : ∀ u ∈ upper, ∀ e ∈ t.items, e.1 < u)
    (s : WalkState α) :
    ∃ height, t.walk lower upper depth s =
      .ok (t.items.length, height) { s with values := s.values + t.items.length } := by
  induction t generalizing lower upper depth s with
  | empty => exact ⟨depth - 1, rfl⟩
  | node address left key value right length ihl ihr =>
    have hp := h.parts
    obtain ⟨-, -, rfl⟩ := h.sized
    have hbounds : boundErrors key lower upper = [] := by
      have hmem : (key, value.referent) ∈ left.items ++ (key, value.referent) :: right.items := by
        simp
      cases lower with
      | none =>
        cases upper with
        | none => rfl
        | some u => simpa [boundErrors] using hupper u rfl _ hmem
      | some l =>
        have hl := hlower l rfl _ hmem
        cases upper with
        | none => simpa [boundErrors] using hl
        | some u => simpa [boundErrors] using ⟨hl, hupper u rfl _ hmem⟩
    obtain ⟨leftHeight, hleft⟩ := ihl hp.left_ok lower (some key) (depth + 1)
      (fun l hl e he => hlower l hl e (List.mem_append_left _ he))
      (fun u hu e he => by
        obtain rfl : key = u := by simpa using hu
        exact hp.left_lt e he)
      { s with values := s.values + 1 }
    obtain ⟨rightHeight, hright⟩ := ihr hp.right_ok (some key) upper (depth + 1)
      (fun l hl e he => by
        obtain rfl : key = l := by simpa using hl
        exact hp.right_gt e he)
      (fun u hu e he => hupper u hu e (List.mem_append_right _ (.tail _ he)))
      { s with values := s.values + 1 + left.items.length }
    refine ⟨max depth (max leftHeight rightHeight), ?_⟩
    simp only [walk, run_bind, run_modify, run_pure, WalkState.report, hbounds, hleft, hright,
      List.append_nil, ne_eq, not_true_eq_false, if_false, items_node, List.length_append,
      List.length_cons]
    congr 2
    · omega
    · omega

/-- A tree that keeps the invariant passes its audit. -/
theorem Ok.audit_eq (h : t.Ok) :
    ∃ report, t.audit = .ok report ∧ report.errors = [] ∧ report.keys = t.items.length := by
  obtain ⟨height, hwalk⟩ := h.walk_spec none none 1 (by simp) (by simp) ⟨[], 0⟩
  unfold audit
  rw [hwalk]
  exact ⟨_, rfl, rfl, rfl⟩

/-! ## Updating -/

/-- What `_insert` returns keeps the invariant, with one binding written. -/
theorem Ok.insert_spec (h : t.Ok) (key : α) (value : ValueRef ν) :
    (t.insert key value).Ok ∧
      ∃ n, Inserted key value.referent t.items (t.insert key value).items n := by
  induction t with
  | empty =>
    refine ⟨Parts.nodeRef_ok ⟨.empty, .empty, by simp [items], by simp [items]⟩ value, 1, ?_⟩
    exact .added [] []
  | node address left nodeKey nodeValue right length ihl ihr =>
    have hp := h.parts
    unfold insert
    rcases lt_trichotomy key nodeKey with hlt | rfl | hgt
    · obtain ⟨hok, n, hins⟩ := ihl hp.left_ok
      rw [if_pos hlt]
      refine ⟨Parts.nodeRef_ok ⟨hok, hp.right_ok, fun e he => ?_, hp.right_gt⟩ nodeValue, n, ?_⟩
      · rcases hins.mem he with hkey | he
        · rw [hkey]
          exact hlt
        · exact hp.left_lt e he
      · simpa [items] using hins.context [] ((nodeKey, nodeValue.referent) :: right.items)
    · rw [if_neg (lt_irrefl key), if_neg (lt_irrefl key)]
      exact ⟨hp.nodeRef_ok value, 0, .replaced left.items right.items nodeValue.referent⟩
    · obtain ⟨hok, n, hins⟩ := ihr hp.right_ok
      rw [if_neg hgt.not_gt, if_pos hgt]
      refine ⟨Parts.nodeRef_ok ⟨hp.left_ok, hok, hp.left_lt, fun e he => ?_⟩ nodeValue, n, ?_⟩
      · rcases hins.mem he with hkey | he
        · rw [hkey]
          exact hgt
        · exact hp.right_gt e he
      · simpa [items] using hins.context (left.items ++ [(nodeKey, nodeValue.referent)]) []

omit [LinearOrder α] in
/-- `_pop_min` takes the first item off. -/
theorem popMin_items (left : BinaryNodeRef α ν) (key : α) (value : ValueRef ν)
    (right : BinaryNodeRef α ν) :
    left.items ++ (key, value.referent) :: right.items =
      ((popMin left key value right).1.1, (popMin left key value right).1.2.referent) ::
        (popMin left key value right).2.items := by
  induction left generalizing key value right with
  | empty => rfl
  | node address left' leftKey leftValue leftRight length ih _ =>
    rw [popMin, items, ih leftKey leftValue leftRight]
    rfl

omit [LinearOrder α] in
theorem popMin_sized (hl : left.Sized) (hr : right.Sized) (key : α) (value : ValueRef ν) :
    (popMin left key value right).2.Sized := by
  induction left generalizing key value right with
  | empty => exact hr
  | node address left' leftKey leftValue leftRight length ih _ =>
    obtain ⟨hll, hlr, -⟩ := hl
    exact (ih hll hlr leftKey leftValue).nodeRef hr key value

omit [LinearOrder α] in
/-- What takes the place of a node has the items of its subtrees. -/
theorem items_join (left right : BinaryNodeRef α ν) : (join left right).items = left.items ++ right.items := by
  cases left with
  | empty => rfl
  | node address left' leftKey leftValue leftRight length =>
    cases right with
    | empty => simp [join, items]
    | node address' rightLeft rightKey rightValue rightRight length' =>
      have hpopped := popMin_items rightLeft rightKey rightValue rightRight
      show _ ++ _ :: (popMin rightLeft rightKey rightValue rightRight).2.items = _
      rw [items_node address' rightLeft, hpopped]

omit [LinearOrder α] in
theorem Sized.join (hl : left.Sized) (hr : right.Sized) : (join left right).Sized := by
  cases left with
  | empty => exact hr
  | node address left' leftKey leftValue leftRight length =>
    cases right with
    | empty => exact hl
    | node address' rightLeft rightKey rightValue rightRight length' =>
      obtain ⟨hrl, hrr, -⟩ := hr
      exact hl.nodeRef (popMin_sized hrl hrr rightKey rightValue) _ _

/-- `_delete` removes the binding of a key and keeps the invariant, or raises
`KeyError`. -/
theorem Ok.delete_spec (h : t.Ok) (key : α) :
    (∃ t', t.delete key = .ok t' ∧ t'.Ok ∧ Removed key t.items t'.items) ∨
      (t.delete key = .error .keyError ∧ ∀ v, (key, v) ∉ t.items) := by
  induction t with
  | empty => exact .inr ⟨rfl, by simp [items]⟩
  | node address left nodeKey nodeValue right length ihl ihr =>
    have hp := h.parts
    rw [items_node, delete]
    rcases lt_trichotomy key nodeKey with hlt | rfl | hgt
    · rw [if_pos hlt]
      rcases ihl hp.left_ok with ⟨left', hrun, hok, hrem⟩ | ⟨hrun, habsent⟩
      · refine .inl ⟨nodeRef left' nodeKey nodeValue right, by rw [hrun]; rfl, ?_, ?_⟩
        · exact Parts.nodeRef_ok ⟨hok, hp.right_ok,
            fun e he => hp.left_lt e (hrem.sublist.subset he), hp.right_gt⟩ nodeValue
        · simpa using hrem.context [] ((nodeKey, nodeValue.referent) :: right.items)
      · refine .inr ⟨by rw [hrun]; rfl, fun v hv => ?_⟩
        rcases List.mem_append.mp hv with hv | hv
        · exact habsent v hv
        rcases List.mem_cons.mp hv with hv | hv
        · exact hlt.ne (congrArg Prod.fst hv)
        · exact absurd (hp.right_gt _ hv) hlt.not_gt
    · rw [if_neg (lt_irrefl key), if_neg (lt_irrefl key)]
      refine .inl ⟨join left right, rfl, ⟨?_, hp.left_ok.sized.join hp.right_ok.sized⟩, ?_⟩
      · rw [items_join]
        exact h.increasing.sublist ((List.sublist_cons_self _ _).append_left _)
      · rw [items_join]
        exact .intro left.items right.items nodeValue.referent
    · rw [if_neg hgt.not_gt, if_pos hgt]
      rcases ihr hp.right_ok with ⟨right', hrun, hok, hrem⟩ | ⟨hrun, habsent⟩
      · refine .inl ⟨nodeRef left nodeKey nodeValue right', by rw [hrun]; rfl, ?_, ?_⟩
        · exact Parts.nodeRef_ok ⟨hp.left_ok, hok, hp.left_lt,
            fun e he => hp.right_gt e (hrem.sublist.subset he)⟩ nodeValue
        · simpa using hrem.context (left.items ++ [(nodeKey, nodeValue.referent)]) []
      · refine .inr ⟨by rw [hrun]; rfl, fun v hv => ?_⟩
        rcases List.mem_append.mp hv with hv | hv
        · exact absurd (hp.left_lt _ hv) hgt.not_gt
        rcases List.mem_cons.mp hv with hv | hv
        · exact hgt.ne' (congrArg Prod.fst hv)
        · exact habsent v hv

/-! ## The map of a tree -/

/-- The tree keeps its invariant and represents the map `f`. -/
structure Holds (t : BinaryNodeRef α ν) (f : α → Option ν) : Prop where
  ok : t.Ok
  represents : Represents t.items f

theorem Holds.empty : Holds (.empty : BinaryNodeRef α ν) fun _ => none := ⟨.empty, .nil⟩

variable {t : BinaryNodeRef α ν} {f : α → Option ν}

/-- `_get` reads the map. -/
theorem Holds.get_eq (h : t.Holds f) (key : α) :
    t.get key = match f key with
      | some value => .ok value
      | none => .error .keyError := by
  rcases h.ok.get_spec key with ⟨v, hget, hmem⟩ | ⟨hget, habsent⟩
  · rw [hget, (h.represents.mem_iff key v).mp hmem]
  · have hnone : f key = none := by
      rw [Option.eq_none_iff_forall_not_mem]
      intro v hv
      exact habsent v ((h.represents.mem_iff key v).mpr hv)
    rw [hget, hnone]

/-- `_insert` updates the map. -/
theorem Holds.insert (h : t.Holds f) (key : α) (value : ValueRef ν) :
    (t.insert key value).Holds (Function.update f key (some value.referent)) := by
  obtain ⟨hok, n, hins⟩ := h.ok.insert_spec key value
  exact ⟨hok, h.represents.inserted hins hok.increasing⟩

/-- `_delete` erases a bound key. -/
theorem Holds.delete (h : t.Holds f) (hkey : f key ≠ none) :
    ∃ t', t.delete key = .ok t' ∧ t'.Holds (Function.update f key none) := by
  rcases h.ok.delete_spec key with ⟨t', hrun, hok, hrem⟩ | ⟨-, habsent⟩
  · exact ⟨t', hrun, hok, h.represents.removed hrem⟩
  · obtain ⟨v, hv⟩ := Option.ne_none_iff_exists'.mp hkey
    exact absurd ((h.represents.mem_iff key v).mpr hv) (habsent v)

/-- `_delete` of an absent key raises `KeyError`. -/
theorem Holds.delete_absent (h : t.Holds f) (hkey : f key = none) :
    t.delete key = .error .keyError := by
  rcases h.ok.delete_spec key with ⟨t', hrun, hok, hrem⟩ | ⟨hrun, -⟩
  · exact absurd hkey (h.represents.bound_of_removed hrem)
  · exact hrun

/-- Only the empty tree holds the empty map. -/
theorem Holds.eq_empty (h : t.Holds fun _ => none) : t = .empty := by
  have hitems : t.items = [] := h.represents.unique .nil
  cases t with
  | empty => rfl
  | node address left key value right length => simp [items] at hitems

/-- The root knows the number of keys. -/
theorem Holds.refLength_eq (h : t.Holds f) : t.refLength = t.items.length := h.ok.sized.refLength_eq

end BinaryNodeRef
