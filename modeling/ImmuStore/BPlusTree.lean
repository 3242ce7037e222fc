/-
# The B+ tree (`bplus_tree.py`, `logical.py`)

References are modelled resolved: a `NodeRef` carries its referent, the node, and
its `address`, which is 0 until the node has been written.  Loading a referent from
its address returns the node stored there, so whether a reference has been followed
yet cannot be observed; the storage layer has its own account of loading.

The recursive methods run over the counter `_count`, as the source keeps it: an
exception leaves the counter where it stood when it was raised.
-/
import ImmuStore.Python

/-- A reference to a value. -/
structure ValueRef (ν : Type) where
  referent : ν
  address : ℕ
  deriving DecidableEq, Repr

/-- A reference to a node: a `LeafNode` or an `InternalNode`. -/
inductive NodeRef (α ν : Type) where
  | leaf (address : ℕ) (keys : List α) (values : List (ValueRef ν))
  | internal (address : ℕ) (keys : List α) (children : List (NodeRef α ν))
  deriving Repr

variable {α ν : Type}

namespace NodeRef

/-- `_leaf_ref`: a leaf not written yet. -/
def leafRef (keys : List α) (values : List (ValueRef ν)) : NodeRef α ν := .leaf 0 keys values

/-- `_internal_ref`: an internal node not written yet. -/
def internalRef (keys : List α) (children : List (NodeRef α ν)) : NodeRef α ν :=
  .internal 0 keys children

/-- `_num_keys`. -/
def numKeys : NodeRef α ν → ℕ
  | .leaf _ keys _ => keys.length
  | .internal _ keys _ => keys.length

/-! ## Reads -/

mutual

/-- `_items`. -/
def items : NodeRef α ν → List (α × ν)
  | .leaf _ keys values => (keys.zip values).map fun e => (e.1, e.2.referent)
  | .internal _ _ children => itemsOf children

/-- The loop of `_items` over the children of a node. -/
def itemsOf : List (NodeRef α ν) → List (α × ν)
  | [] => []
  | child :: children => child.items ++ itemsOf children

end

theorem itemsOf_eq (children : List (NodeRef α ν)) : itemsOf children = children.flatMap items := by
  induction children with
  | nil => rfl
  | cons child children ih => rw [itemsOf, ih, List.flatMap_cons]

variable [LinearOrder α]

mutual

/-- `_get`. -/
def get (key : α) : NodeRef α ν → Except PyError ν
  | .leaf _ keys values =>
    if keys[bisectLeft keys key]? = some key then
      match values[bisectLeft keys key]? with
      | some valueRef => .ok valueRef.referent
      | none => .error .indexError
    else .error .keyError
  | .internal _ keys children => getFrom key children (bisectRight keys key)

/-- `_get` in the child at an index. -/
def getFrom (key : α) : List (NodeRef α ν) → ℕ → Except PyError ν
  | [], _ => .error .indexError
  | child :: _, 0 => child.get key
  | _ :: children, i + 1 => getFrom key children i

end

/-! ## Insert -/

/-- The leaf branch of `_insert_rec` up to the overflow test: the keys and values
with `key` bound to `valueRef`. -/
def leafPut (key : α) (valueRef : ValueRef ν) (keys : List α) (values : List (ValueRef ν)) :
    Py ℤ (List α × List (ValueRef ν)) :=
  if keys[bisectLeft keys key]? = some key then do
    -- overwrite: live-key count unchanged
    let values ← setItem values (bisectLeft keys key) valueRef
    return (keys, values)
  else do
    modify (· + 1)
    return (insertItem keys (bisectLeft keys key) key,
      insertItem values (bisectLeft keys key) valueRef)

omit [LinearOrder α] in
/-- The leaf branch of `_insert_rec` from the overflow test on: a leaf that overflows
is cut in two, and the first key of the right leaf is copied up as separator. -/
def leafSplit (order : ℕ) (keys : List α) (values : List (ValueRef ν)) :
    Py ℤ (NodeRef α ν × Option (α × NodeRef α ν)) :=
  if keys.length ≤ order then
    return (leafRef keys values, none)
  else do
    let mid := keys.length / 2
    let separator ← getItem keys mid
    return (leafRef (keys.take mid) (values.take mid),
      some (separator, leafRef (keys.drop mid) (values.drop mid)))

omit [LinearOrder α] in
/-- The internal branch of `_insert_rec` up to the overflow test: the new child takes
its place, with what was split off it to its right. -/
def internalPut (keys : List α) (children : List (NodeRef α ν)) (index : ℕ)
    (newChild : NodeRef α ν) (split : Option (α × NodeRef α ν)) :
    Py ℤ (List α × List (NodeRef α ν)) := do
  let children ← setItem children index newChild
  match split with
  | none => return (keys, children)
  | some (separator, right) =>
    return (insertItem keys index separator, insertItem children (index + 1) right)

omit [LinearOrder α] in
/-- The internal branch of `_insert_rec` from the overflow test on: the middle key of
a node that overflows is promoted. -/
def internalSplit (order : ℕ) (keys : List α) (children : List (NodeRef α ν)) :
    Py ℤ (NodeRef α ν × Option (α × NodeRef α ν)) :=
  if keys.length ≤ order then
    return (internalRef keys children, none)
  else do
    let mid := keys.length / 2
    let promoted ← getItem keys mid
    return (internalRef (keys.take mid) (children.take (mid + 1)),
      some (promoted, internalRef (keys.drop (mid + 1)) (children.drop (mid + 1))))

mutual

/-- `_insert_rec`. -/
def insertRec (order : ℕ) (key : α) (valueRef : ValueRef ν) :
    NodeRef α ν → Py ℤ (NodeRef α ν × Option (α × NodeRef α ν))
  | .leaf _ keys values => do
    let new ← leafPut key valueRef keys values
    leafSplit order new.1 new.2
  | .internal _ keys children => do
    let child ← insertIn order key valueRef children (bisectRight keys key)
    let new ← internalPut keys children (bisectRight keys key) child.1 child.2
    internalSplit order new.1 new.2

/-- `_insert_rec` in the child at an index. -/
def insertIn (order : ℕ) (key : α) (valueRef : ValueRef ν) :
    List (NodeRef α ν) → ℕ → Py ℤ (NodeRef α ν × Option (α × NodeRef α ν))
  | [], _ => throw .indexError
  | child :: _, 0 => insertRec order key valueRef child
  | _ :: children, i + 1 => insertIn order key valueRef children i

end

/-- `_insert`; the tree of a reference without referent is empty. -/
def insert (order : ℕ) (key : α) (valueRef : ValueRef ν) :
    Option (NodeRef α ν) → Py ℤ (NodeRef α ν)
  | none => do
    modify (· + 1)
    return leafRef [key] [valueRef]
  | some node => do
    let new ← insertRec order key valueRef node
    match new.2 with
    | none => return new.1
    | some (separator, right) => return internalRef [separator] [new.1, right]

/-! ## Delete -/

/-- The leaf branch of `_delete_rec`. -/
def leafDelete (key : α) (keys : List α) (values : List (ValueRef ν)) :
    Py ℤ (NodeRef α ν) :=
  if keys[bisectLeft keys key]? = some key then do
    let values ← delItem values (bisectLeft keys key)
    let keys ← delItem keys (bisectLeft keys key)
    modify (· - 1)
    return leafRef keys values
  else throw .keyError

omit [LinearOrder α] in
/-- `_borrow_from_left`, as the lists it leaves. -/
def borrowFromLeft (keys : List α) (children : List (NodeRef α ν)) (index : ℕ) :
    NodeRef α ν → NodeRef α ν → Py ℤ (List α × List (NodeRef α ν))
  | .leaf _ leftKeys leftValues, .leaf _ childKeys childValues => do
    let key ← lastItem leftKeys
    let value ← lastItem leftValues
    let children ← setItem children (index - 1) (leafRef leftKeys.dropLast leftValues.dropLast)
    let children ← setItem children index (leafRef (key :: childKeys) (value :: childValues))
    let keys ← setItem keys (index - 1) key
    return (keys, children)
  | .internal _ leftKeys leftChildren, .internal _ childKeys childChildren => do
    let separator ← getItem keys (index - 1)
    let key ← lastItem leftKeys
    let moved ← lastItem leftChildren
    let children ← setItem children (index - 1)
      (internalRef leftKeys.dropLast leftChildren.dropLast)
    let children ← setItem children index
      (internalRef (separator :: childKeys) (moved :: childChildren))
    let keys ← setItem keys (index - 1) key
    return (keys, children)
  | _, _ => throw .attributeError

omit [LinearOrder α] in
/-- `_borrow_from_right`, as the lists it leaves. -/
def borrowFromRight (keys : List α) (children : List (NodeRef α ν)) (index : ℕ) :
    NodeRef α ν → NodeRef α ν → Py ℤ (List α × List (NodeRef α ν))
  | .leaf _ rightKeys rightValues, .leaf _ childKeys childValues => do
    let key ← getItem rightKeys 0
    let value ← getItem rightValues 0
    let separator ← getItem rightKeys 1
    let children ← setItem children index (leafRef (childKeys ++ [key]) (childValues ++ [value]))
    let children ← setItem children (index + 1) (leafRef rightKeys.tail rightValues.tail)
    let keys ← setItem keys index separator
    return (keys, children)
  | .internal _ rightKeys rightChildren, .internal _ childKeys childChildren => do
    let separator ← getItem keys index
    let moved ← getItem rightChildren 0
    let key ← getItem rightKeys 0
    let children ← setItem children index
      (internalRef (childKeys ++ [separator]) (childChildren ++ [moved]))
    let children ← setItem children (index + 1) (internalRef rightKeys.tail rightChildren.tail)
    let keys ← setItem keys index key
    return (keys, children)
  | _, _ => throw .attributeError

omit [LinearOrder α] in
/-- `_merge`, as the lists it leaves. -/
def merge (keys : List α) (children : List (NodeRef α ν)) (leftIndex : ℕ) :
    NodeRef α ν → NodeRef α ν → Py ℤ (List α × List (NodeRef α ν))
  | .leaf _ leftKeys leftValues, .leaf _ rightKeys rightValues => do
    let children ← setItem children leftIndex
      (leafRef (leftKeys ++ rightKeys) (leftValues ++ rightValues))
    let children ← delItem children (leftIndex + 1)
    let keys ← delItem keys leftIndex
    return (keys, children)
  | .internal _ leftKeys leftChildren, .internal _ rightKeys rightChildren => do
    let separator ← getItem keys leftIndex
    let children ← setItem children leftIndex
      (internalRef (leftKeys ++ separator :: rightKeys) (leftChildren ++ rightChildren))
    let children ← delItem children (leftIndex + 1)
    let keys ← delItem keys leftIndex
    return (keys, children)
  | _, _ => throw .attributeError

omit [LinearOrder α] in
/-- Whether a sibling of an under-full child can give up a key. -/
def canLend (order : ℕ) (sibling : NodeRef α ν) : Bool := order / 2 < sibling.numKeys

omit [LinearOrder α] in
/-- The lists `_rebalance` leaves once it has found the child and its siblings; without
siblings `_merge` is handed a `None`. -/
def rebalanceWith (order : ℕ) (keys : List α) (children : List (NodeRef α ν)) (index : ℕ)
    (child : NodeRef α ν) (left right : Option (NodeRef α ν)) :
    Py ℤ (List α × List (NodeRef α ν)) :=
  match left.filter (canLend order), right.filter (canLend order), left, right with
  | some left, _, _, _ => borrowFromLeft keys children index left child
  | none, some right, _, _ => borrowFromRight keys children index right child
  | none, none, some left, _ => merge keys children (index - 1) left child
  | none, none, none, some right => merge keys children index child right
  | none, none, none, none => throw .attributeError

omit [LinearOrder α] in
/-- `_rebalance`. -/
def rebalance (order : ℕ) (keys : List α) (children : List (NodeRef α ν)) (index : ℕ) :
    Py ℤ (NodeRef α ν) := do
  let child ← getItem children index
  let left := if 0 < index then children[index - 1]? else none
  let right := children[index + 1]?
  let new ← rebalanceWith order keys children index child left right
  return internalRef new.1 new.2

mutual

/-- `_delete_rec`. -/
def deleteRec (order : ℕ) (key : α) : NodeRef α ν → Py ℤ (NodeRef α ν)
  | .leaf _ keys values => leafDelete key keys values
  | .internal _ keys children => do
    let newChild ← deleteIn order key children (bisectRight keys key)
    let newChildren ← setItem children (bisectRight keys key) newChild
    if order / 2 ≤ newChild.numKeys then
      return internalRef keys newChildren
    else rebalance order keys newChildren (bisectRight keys key)

/-- `_delete_rec` in the child at an index. -/
def deleteIn (order : ℕ) (key : α) : List (NodeRef α ν) → ℕ → Py ℤ (NodeRef α ν)
  | [], _ => throw .indexError
  | child :: _, 0 => deleteRec order key child
  | _ :: children, i + 1 => deleteIn order key children i

end

/-- `_delete`; `none` is the reference to an empty tree. -/
def delete (order : ℕ) (key : α) : Option (NodeRef α ν) → Py ℤ (Option (NodeRef α ν))
  | none => throw .keyError
  | some node => do
    let new ← deleteRec order key node
    match new with
    | .internal _ [] children => do
      -- collapse a root that lost its last key
      let child ← getItem children 0
      return some child
    | .leaf _ [] _ => return none
    | _ => return some new

end NodeRef

/-! ## Audit -/

/-- The messages `audit` collects, with what they report. -/
inductive AuditError (α : Type) where
  /-- "keys out of order: {smaller} !< {larger}" -/
  | keysOutOfOrder (smaller larger : α)
  /-- "{key} below lower bound {lower}" -/
  | belowLowerBound (key lower : α)
  /-- "{key} not below upper bound {upper}" -/
  | notBelowUpperBound (key upper : α)
  /-- "node overflow: {keys} keys exceeds order {order}" -/
  | nodeOverflow (keys order : ℕ)
  /-- "node underflow: {keys} keys below minimum {minimum}" -/
  | nodeUnderflow (keys minimum : ℕ)
  /-- "leaf key/value count mismatch" -/
  | leafCountMismatch
  /-- "internal child/key count mismatch" -/
  | childCountMismatch
  /-- "root internal node has no separator keys" -/
  | rootWithoutKeys
  /-- "tree is not height-balanced across children" -/
  | notHeightBalanced
  /-- "stored key count {stored} != leaf key count {found}" -/
  | keyCountMismatch (stored : ℤ) (found : ℕ)
  deriving DecidableEq, Repr

/-- `AuditReport` (`audit.py`). -/
structure AuditReport (α : Type) where
  keys : ℕ
  nodes : ℕ
  values : ℕ
  height : ℕ
  errors : List (AuditError α)
  deriving DecidableEq, Repr

/-- The errors and counters `check` adds to. -/
structure AuditState (α : Type) where
  errors : List (AuditError α)
  nodes : ℕ
  values : ℕ
  leafKeys : ℕ
  deriving DecidableEq, Repr

/-- `errors.append`, for the errors a test found. -/
def AuditState.report (s : AuditState α) (errors : List (AuditError α)) : AuditState α :=
  { s with errors := s.errors ++ errors }

namespace NodeRef

variable [LinearOrder α]

/-- The tests `check` makes on the keys of every node. -/
def keyErrors (order : ℕ) (keys : List α) (lower upper : Option α) (isRoot : Bool) :
    List (AuditError α) :=
  ((keys.zip keys.tail).filter fun p => ¬ p.1 < p.2).map (fun p => .keysOutOfOrder p.1 p.2) ++
  keys.flatMap (fun key =>
    (lower.toList.filter fun lower => key < lower).map (.belowLowerBound key) ++
    (upper.toList.filter fun upper => upper ≤ key).map (.notBelowUpperBound key)) ++
  (if order < keys.length then [.nodeOverflow keys.length order] else []) ++
  (if isRoot = false ∧ keys.length < order / 2 then [.nodeUnderflow keys.length (order / 2)] else [])

omit [LinearOrder α] in
/-- The lower bound of the child at an index, `keys[child_index - 1]` but for the
first child. -/
def lowerOf (keys : List α) (lower : Option α) (index : ℕ) :
    Py (AuditState α) (Option α) :=
  if 0 < index then some <$> getItem keys (index - 1) else pure lower

mutual

/-- `check`: audits a subtree and returns its height.  The values of a leaf are
resolved, so that following them cannot fail. -/
def check (order : ℕ) : NodeRef α ν → Option α → Option α → Bool →
    Py (AuditState α) ℕ
  | .leaf _ keys values, lower, upper, isRoot => do
    modify fun s => { s with nodes := s.nodes + 1 }
    modify (·.report (keyErrors order keys lower upper isRoot))
    modify (·.report (if values.length ≠ keys.length then [.leafCountMismatch] else []))
    modify fun s => { s with
      values := s.values + (keys.zip values).length
      leafKeys := s.leafKeys + keys.length }
    return 1
  | .internal _ keys children, lower, upper, isRoot => do
    modify fun s => { s with nodes := s.nodes + 1 }
    modify (·.report (keyErrors order keys lower upper isRoot))
    modify (·.report (if children.length ≠ keys.length + 1 then [.childCountMismatch] else []))
    modify (·.report (if isRoot = true ∧ keys.length < 1 then [.rootWithoutKeys] else []))
    let heights ← checkFrom order keys lower upper children 0 ∅
    modify (·.report (if 1 < heights.card then [.notHeightBalanced] else []))
    return 1 + heights.sup id

/-- The loop of `check` over the children from an index on; `heights` collects the
heights found. -/
def checkFrom (order : ℕ) (keys : List α) (lower upper : Option α) :
    List (NodeRef α ν) → ℕ → Finset ℕ → Py (AuditState α) (Finset ℕ)
  | [], _, heights => return heights
  | child :: children, index, heights => do
    let lo ← lowerOf keys lower index
    let hi := if index < keys.length then keys[index]? else upper
    let height ← check order child lo hi false
    checkFrom order keys lower upper children (index + 1) (heights ∪ {height})

end

end NodeRef

/-! ## The tree -/

/-- A `BPlusTree` without its storage: `_order`, `_tree_ref` and `_count`. -/
structure BPlusTree (α ν : Type) where
  order : ℕ
  treeRef : Option (NodeRef α ν)
  count : ℤ

namespace BPlusTree

/-- The tree of a new database. -/
def empty (order : ℕ) : BPlusTree α ν := ⟨order, none, 0⟩

/-- `items`. -/
def items (t : BPlusTree α ν) : List (α × ν) := t.treeRef.elim [] NodeRef.items

/-- `length`. -/
def length (t : BPlusTree α ν) : ℤ := t.count

variable [LinearOrder α]

/-- `get`. -/
def get (t : BPlusTree α ν) (key : α) : Except PyError ν :=
  match t.treeRef with
  | none => .error .keyError
  | some node => node.get key

/-- `set`; the new root is assigned only when `_insert` has returned. -/
def set (key : α) (value : ν) : Py (BPlusTree α ν) Unit := fun t =>
  match NodeRef.insert t.order key ⟨value, 0⟩ t.treeRef t.count with
  | .ok root count => .ok () { t with treeRef := some root, count := count }
  | .error e count => .error e { t with count := count }

/-- `delete`. -/
def delete (key : α) : Py (BPlusTree α ν) Unit := fun t =>
  match NodeRef.delete t.order key t.treeRef t.count with
  | .ok root count => .ok () { t with treeRef := root, count := count }
  | .error e count => .error e { t with count := count }

/-- `check` from the root; an empty tree has height 0. -/
def checkRoot (t : BPlusTree α ν) : Py (AuditState α) ℕ :=
  match t.treeRef with
  | none => return 0
  | some node => node.check t.order none none true

/-- `audit`. -/
def audit (t : BPlusTree α ν) : Except PyError (AuditReport α) :=
  match t.checkRoot ⟨[], 0, 0, 0⟩ with
  | .error e _ => .error e
  | .ok height s =>
    let s := s.report
      (if (s.leafKeys : ℤ) ≠ t.count then [.keyCountMismatch t.count s.leafKeys] else [])
    .ok { keys := s.leafKeys, nodes := s.nodes, values := s.values, height := height,
          errors := s.errors }

end BPlusTree
