/-
# A handle with the binary engine (`binary_tree.py`, `logical.py`, `physical.py`)

The same storage under the other tree.  `pickle` is one parameter for both engines: it
loads the dictionary it has dumped, and each engine looks its own keys up in it.  A
commit of this engine leaves the key count of the meta block at 0.
-/
import ImmuStore.BinaryTree
import ImmuStore.HandleSpec

open Storage

/-- The dictionary that `BinaryNodeRef.referent_to_bytes` pickles. -/
structure BinaryPayload (α : Type) where
  left : ℕ
  key : α
  value : ℕ
  right : ℕ
  length : ℕ
  deriving DecidableEq, Repr

/-- A pickled dictionary: one with the keys of a B+ tree node, or with those of a binary
node. -/
inductive NodeDict (α : Type) where
  | bplus (payload : NodePayload α)
  | binary (payload : BinaryPayload α)
  deriving DecidableEq, Repr

/-- `zlib.crc32` and `pickle`. -/
structure Pickle (α : Type) where
  crc32 : Bytes → ℕ
  dumps : NodeDict α → Bytes
  loads : Bytes → Except PyError (NodeDict α)
  loads_dumps : ∀ dict, loads (dumps dict) = .ok dict

namespace Pickle

variable {α : Type} (p : Pickle α)

/-- `BPlusNodeRef.bytes_to_referent` begins with `data["leaf"]`. -/
def loadsBPlus (record : Bytes) : Except PyError (NodePayload α) := do
  match ← p.loads record with
  | .bplus payload => return payload
  | .binary _ => throw .keyError

/-- `BinaryNodeRef.bytes_to_referent` begins with `data["left"]`. -/
def loadsBinary (record : Bytes) : Except PyError (BinaryPayload α) := do
  match ← p.loads record with
  | .bplus _ => throw .keyError
  | .binary payload => return payload

/-- What the B+ tree sees of it. -/
def ext : Externals α where
  crc32 := p.crc32
  dumps payload := p.dumps (.bplus payload)
  loads := p.loadsBPlus
  loads_dumps payload := by
    rw [loadsBPlus, p.loads_dumps]
    rfl

theorem loadsBinary_dumps (payload : BinaryPayload α) :
    p.loadsBinary (p.dumps (.binary payload)) = .ok payload := by
  rw [loadsBinary, p.loads_dumps]
  rfl

/-- The record of a binary node is no record of a B+ tree node. -/
theorem loadsBPlus_dumps (payload : BinaryPayload α) :
    p.ext.loads (p.dumps (.binary payload)) = .error .keyError := by
  show p.loadsBPlus _ = _
  rw [loadsBPlus, p.loads_dumps]
  rfl

end Pickle

variable {α : Type} (p : Pickle α)

/-! ## Storing and loading nodes -/

namespace BinaryNodeRef

/-- The address of a node, 0 if there is none or it has not been written. -/
def address {ν : Type} : BinaryNodeRef α ν → ℕ
  | .empty => 0
  | .node address _ _ _ _ _ => address

/-- The end of `store`: the node is written once everything it refers to has been. -/
def storeSelf (left : BinaryNodeRef α Bytes) (key : α) (value : ValueRef Bytes)
    (right : BinaryNodeRef α Bytes) (length : ℕ) (d : Disk) : StoreResult (BinaryNodeRef α Bytes) :=
  match Storage.write p.crc32
      (p.dumps (.binary ⟨left.address, key, value.address, right.address, length⟩)) d with
  | .ok address d => ⟨.node address left key value right length, none, d⟩
  | .error e d => ⟨.node 0 left key value right length, some e, d⟩

/-- `BinaryNodeRef.store`, with `BinaryNode.store_refs`: the value, the left subtree, the
right one, then the node; a node that has an address is not written again. -/
def store : BinaryNodeRef α Bytes → Disk → StoreResult (BinaryNodeRef α Bytes)
  | .empty, d => ⟨.empty, none, d⟩
  | .node address left key value right length, d =>
    if address = 0 then
      let v := storeValue p.crc32 value d
      match v.raised with
      | some e => ⟨.node 0 left key v.ref right length, some e, v.disk⟩
      | none =>
        let l := left.store v.disk
        match l.raised with
        | some e => ⟨.node 0 l.ref key v.ref right length, some e, l.disk⟩
        | none =>
          let r := right.store l.disk
          match r.raised with
          | some e => ⟨.node 0 l.ref key v.ref r.ref length, some e, r.disk⟩
          | none => storeSelf p l.ref key v.ref r.ref length r.disk
    else ⟨.node address left key value right length, none, d⟩

/-- `bytes_to_referent` and `get`, from a node down to its values; address 0 is the empty
reference, and `fuel` bounds the depth. -/
def load (f : File) : ℕ → ℕ → Except PyError (BinaryNodeRef α Bytes)
  | 0, _ => .error .recursionError
  | fuel + 1, address =>
    if address = 0 then .ok .empty else do
      let record ← Storage.read p.crc32 f address
      let node ← p.loadsBinary record
      let left ← load f fuel node.left
      let value ← NodeRef.loadValue p.crc32 f node.value
      let right ← load f fuel node.right
      return .node address left node.key value right node.length

end BinaryNodeRef

/-! ## The handle -/

/-- The state of a handle with the binary engine. -/
structure BinaryDatabase (α : Type) where
  disk : Disk
  cached : Meta
  locked : Bool
  treeRef : BinaryNodeRef α Bytes

namespace BinaryDatabase

/-- `lock`: whether the lock was newly taken. -/
def lock : Py (BinaryDatabase α) Bool := fun db =>
  .ok (!db.locked) { db with locked := true }

/-- `unlock`. -/
def unlock (db : BinaryDatabase α) : BinaryDatabase α := { db with locked := false }

/-- An operation of the storage. -/
def onDisk {β : Type} (x : Py Disk β) : Py (BinaryDatabase α) β := fun db =>
  match x db.disk with
  | .ok b d => .ok b { db with disk := d }
  | .error e d => .error e { db with disk := d }

/-- `_refresh_tree_ref`. -/
def refresh : Py (BinaryDatabase α) Unit := fun db =>
  match Storage.readBestMeta p.crc32 db.disk.live with
  | .error e => .error e db
  | .ok m =>
    match BinaryNodeRef.load p db.disk.live (db.disk.live.size + 1) m.rootAddress with
    | .error e => .error e { db with cached := m }
    | .ok root => .ok () { db with cached := m, treeRef := root }

/-- `if self._storage.lock(): self._refresh_tree_ref()`. -/
def lockFresh : Py (BinaryDatabase α) Unit := do
  let fresh ← lock
  if fresh then refresh p else pure ()

/-- `if not self._storage.locked: self._refresh_tree_ref()`. -/
def refreshUnlocked : Py (BinaryDatabase α) Unit := do
  let db ← MonadState.get
  if db.locked then pure () else refresh p

/-- `length`. -/
def length : Py (BinaryDatabase α) ℤ := do
  refreshUnlocked p
  let db ← MonadState.get
  return db.treeRef.refLength

/-- `items`. -/
def items : Py (BinaryDatabase α) (List (α × Bytes)) := do
  refreshUnlocked p
  let db ← MonadState.get
  return db.treeRef.items

/-- `self._tree_ref.store(self._storage)`. -/
def storeTree : Py (BinaryDatabase α) Unit := fun db =>
  let stored := db.treeRef.store p db.disk
  let db := { db with disk := stored.disk, treeRef := stored.ref }
  match stored.raised with
  | some e => .error e db
  | none => .ok () db

/-- The meta block that `commit_root_address` writes, from the handle's cached one. -/
def nextMeta (db : BinaryDatabase α) (rootAddress : ℕ) (keyCount : ℤ) : Meta :=
  ⟨db.cached.txnId + 1, rootAddress, keyCount, db.disk.live.size, 1 - db.cached.slot⟩

/-- `commit_root_address`. -/
def commitRootAddress (rootAddress : ℕ) (keyCount : ℤ) : Py (BinaryDatabase α) Unit := do
  let _ ← lock
  onDisk Storage.flush
  let db ← MonadState.get
  let newMeta := db.nextMeta rootAddress keyCount
  onDisk (Storage.writeSlot p.crc32 newMeta.slot newMeta)
  onDisk Storage.flush
  modify fun db => { db with cached := newMeta, locked := false }

/-- `commit` of `LogicalBase`; it leaves the key count to its default, 0. -/
def commit : Py (BinaryDatabase α) Unit := do
  storeTree p
  let db ← MonadState.get
  commitRootAddress p db.treeRef.address 0
  refresh p

/-- A handle that has not read anything yet. -/
def blank (d : Disk) : BinaryDatabase α := ⟨d, ⟨0, 0, 0, 0, 0⟩, false, .empty⟩

/-- `DBDB.__init__`. -/
def connect : Py (BinaryDatabase α) Unit := do
  let m ← onDisk (Storage.ensureMeta p.crc32)
  modify fun db => { db with cached := m }
  refresh p

variable [LinearOrder α]

/-- `get`. -/
def get (key : α) : Py (BinaryDatabase α) Bytes := do
  refreshUnlocked p
  let db ← MonadState.get
  ofExcept (db.treeRef.get key)

/-- `set`. -/
def set (key : α) (value : Bytes) : Py (BinaryDatabase α) Unit := do
  lockFresh p
  modify fun db => { db with treeRef := db.treeRef.insert key ⟨value, 0⟩ }

/-- `delete`. -/
def delete (key : α) : Py (BinaryDatabase α) Unit := do
  lockFresh p
  let db ← MonadState.get
  let root ← ofExcept (db.treeRef.delete key)
  modify fun db => { db with treeRef := root }

/-- `range_items`. -/
def rangeItems (start stop : Option α) : Py (BinaryDatabase α) (List (α × Bytes)) := do
  refreshUnlocked p
  let db ← MonadState.get
  return db.treeRef.rangeItems start stop

/-- `audit`. -/
def audit : Py (BinaryDatabase α) (BinaryAuditReport α) := do
  refreshUnlocked p
  let db ← MonadState.get
  ofExcept db.treeRef.audit

end BinaryDatabase
