/-
# A database handle (`logical.py`, `bplus_tree.py`, `physical.py`)

The state of one handle: the disk it works on, the meta block it caches, whether it
holds the write lock, and its tree.  Waiting for the lock is not part of a method: a
run lets a method begin only when it would not wait.

`pickle` is a parameter, with the law that it loads what it has dumped.  A tree is
loaded whole when it is refreshed, where the source follows references one by one:
records are never overwritten, so that both read the same nodes.
-/
import ImmuStore.BPlusMap
import ImmuStore.StorageSpec

/-- What a node is pickled as: its keys, and the addresses of its values or children. -/
structure NodePayload (α : Type) where
  leaf : Bool
  keys : List α
  addresses : List ℕ
  deriving DecidableEq, Repr

/-- The functions of the standard library that the storage rests on. -/
structure Externals (α : Type) where
  crc32 : Bytes → ℕ
  dumps : NodePayload α → Bytes
  loads : Bytes → Except PyError (NodePayload α)
  loads_dumps : ∀ payload, loads (dumps payload) = .ok payload

variable {α : Type} (ext : Externals α)

/-! ## Storing and loading nodes -/

namespace NodeRef

variable {ν : Type}

/-- The address of a node, 0 if it has not been written. -/
def address : NodeRef α ν → ℕ
  | .leaf address _ _ => address
  | .internal address _ _ => address

/-- The node at another address. -/
def withAddress (a : ℕ) : NodeRef α ν → NodeRef α ν
  | .leaf _ keys values => .leaf a keys values
  | .internal _ keys children => .internal a keys children

/-- The dictionary that `referent_to_bytes` pickles. -/
def payload : NodeRef α ν → NodePayload α
  | .leaf _ keys values => ⟨true, keys, values.map ValueRef.address⟩
  | .internal _ keys children => ⟨false, keys, children.map address⟩

end NodeRef

/-- What `store` leaves: references with the addresses they were given, the exception
that stopped it, if any, and the disk. -/
structure StoreResult (γ : Type) where
  ref : γ
  raised : Option PyError
  disk : Disk

/-- `ValueRef.store`. -/
def storeValue (crc32 : Bytes → ℕ) (v : ValueRef Bytes) (d : Disk) : StoreResult (ValueRef Bytes) :=
  if v.address = 0 then
    match Storage.write crc32 v.referent d with
    | .ok address d => ⟨{ v with address := address }, none, d⟩
    | .error e d => ⟨v, some e, d⟩
  else ⟨v, none, d⟩

/-- `LeafNode.store_refs`. -/
def storeValues (crc32 : Bytes → ℕ) : List (ValueRef Bytes) → Disk →
    StoreResult (List (ValueRef Bytes))
  | [], d => ⟨[], none, d⟩
  | v :: values, d =>
    let first := storeValue crc32 v d
    match first.raised with
    | some e => ⟨first.ref :: values, some e, first.disk⟩
    | none =>
      let rest := storeValues crc32 values first.disk
      ⟨first.ref :: rest.ref, rest.raised, rest.disk⟩

namespace NodeRef

/-- The end of `store`: the node is written once everything it refers to has been. -/
def storeSelf (node : NodeRef α Bytes) (raised : Option PyError) (d : Disk) :
    StoreResult (NodeRef α Bytes) :=
  match raised with
  | some e => ⟨node, some e, d⟩
  | none =>
    match Storage.write ext.crc32 (ext.dumps node.payload) d with
    | .ok address d => ⟨node.withAddress address, none, d⟩
    | .error e d => ⟨node, some e, d⟩

mutual

/-- `BPlusNodeRef.store`: a node that has an address is not written again. -/
def store : NodeRef α Bytes → Disk → StoreResult (NodeRef α Bytes)
  | .leaf address keys values, d =>
    if address = 0 then
      let refs := storeValues ext.crc32 values d
      storeSelf ext (.leaf 0 keys refs.ref) refs.raised refs.disk
    else ⟨.leaf address keys values, none, d⟩
  | .internal address keys children, d =>
    if address = 0 then
      let refs := storeAll children d
      storeSelf ext (.internal 0 keys refs.ref) refs.raised refs.disk
    else ⟨.internal address keys children, none, d⟩

/-- `InternalNode.store_refs`. -/
def storeAll : List (NodeRef α Bytes) → Disk → StoreResult (List (NodeRef α Bytes))
  | [], d => ⟨[], none, d⟩
  | child :: children, d =>
    let first := store child d
    match first.raised with
    | some e => ⟨first.ref :: children, some e, first.disk⟩
    | none =>
      let rest := storeAll children first.disk
      ⟨first.ref :: rest.ref, rest.raised, rest.disk⟩

end

/-- The value at an address. -/
def loadValue (crc32 : Bytes → ℕ) (f : File) (address : ℕ) : Except PyError (ValueRef Bytes) := do
  let referent ← Storage.read crc32 f address
  return ⟨referent, address⟩

/-- `bytes_to_referent` and `get`, from a node down to its values; `fuel` bounds the
depth. -/
def load (f : File) : ℕ → ℕ → Except PyError (NodeRef α Bytes)
  | 0, _ => .error .recursionError
  | fuel + 1, address => do
    let record ← Storage.read ext.crc32 f address
    let node ← ext.loads record
    if node.leaf then
      let values ← node.addresses.mapM (loadValue ext.crc32 f)
      return .leaf address node.keys values
    else
      let children ← node.addresses.mapM (load f fuel)
      return .internal address node.keys children

/-- The tree behind a root address; address 0 is the empty tree.  A chain of references
cannot be longer than the file. -/
def loadRoot (f : File) (address : ℕ) : Except PyError (Option (NodeRef α Bytes)) :=
  if address = 0 then .ok none else do
    let root ← load ext f (f.size + 1) address
    return some root

end NodeRef

/-! ## The handle -/

/-- The state of a handle. -/
structure Database (α : Type) where
  disk : Disk
  cached : Storage.Meta
  locked : Bool
  tree : BPlusTree α Bytes

namespace Database

/-- `lock`: whether the lock was newly taken. -/
def lock : Py (Database α) Bool := fun db =>
  .ok (!db.locked) { db with locked := true }

/-- `unlock`. -/
def unlock : Py (Database α) Unit := modify fun db => { db with locked := false }

/-- An operation of the storage. -/
def onDisk {β : Type} (x : Py Disk β) : Py (Database α) β := fun db =>
  match x db.disk with
  | .ok b d => .ok b { db with disk := d }
  | .error e d => .error e { db with disk := d }

/-- An operation of the tree in memory. -/
def onTree {β : Type} (x : Py (BPlusTree α Bytes) β) :
    Py (Database α) β := fun db =>
  match x db.tree with
  | .ok b t => .ok b { db with tree := t }
  | .error e t => .error e { db with tree := t }

/-- `_refresh_tree_ref`: the cached meta block and the tree are those of the adopted
meta block. -/
def refresh : Py (Database α) Unit := fun db =>
  match Storage.readBestMeta ext.crc32 db.disk.live with
  | .error e => .error e db
  | .ok m =>
    match NodeRef.loadRoot ext db.disk.live m.rootAddress with
    | .error e => .error e { db with cached := m }
    | .ok root => .ok () { db with
        cached := m
        tree := { db.tree with treeRef := root, count := m.keyCount } }

/-- `if self._storage.lock(): self._refresh_tree_ref()`. -/
def lockFresh : Py (Database α) Unit := do
  let fresh ← lock
  if fresh then refresh ext else pure ()

/-- `if not self._storage.locked: self._refresh_tree_ref()`. -/
def refreshUnlocked : Py (Database α) Unit := do
  let db ← get
  if db.locked then pure () else refresh ext

variable [LinearOrder α]

/-- `get`. -/
def get (key : α) : Py (Database α) Bytes := do
  refreshUnlocked ext
  onTree fun t => match t.get key with
    | .ok value => .ok value t
    | .error e => .error e t

/-- `set`. -/
def set (key : α) (value : Bytes) : Py (Database α) Unit := do
  lockFresh ext
  onTree (BPlusTree.set key value)

/-- `delete`. -/
def delete (key : α) : Py (Database α) Unit := do
  lockFresh ext
  onTree (BPlusTree.delete key)

/-- A call of `set` or of `delete`. -/
def update : Update α Bytes → Py (Database α) Unit
  | .set key value => set ext key value
  | .delete key => delete ext key

/-- `audit`. -/
def audit : Py (Database α) (AuditReport α) := do
  refreshUnlocked ext
  onTree fun t => match t.audit with
    | .ok report => .ok report t
    | .error e => .error e t

omit [LinearOrder α]

/-- `self._tree_ref.store(self._storage)`: the references keep the addresses they were
given even if it raises. -/
def storeTree : Py (Database α) Unit := fun db =>
  match db.tree.treeRef with
  | none => .ok () db
  | some root =>
    let stored := root.store ext db.disk
    let db := { db with disk := stored.disk, tree := { db.tree with treeRef := some stored.ref } }
    match stored.raised with
    | some e => .error e db
    | none => .ok () db

/-- The address of the root, 0 for an empty tree. -/
def rootAddress (db : Database α) : ℕ := db.tree.treeRef.elim 0 NodeRef.address

/-- The meta block that `commit_root_address` writes, from the handle's cached one. -/
def nextMeta (db : Database α) (rootAddress : ℕ) (keyCount : ℤ) : Storage.Meta :=
  ⟨db.cached.txnId + 1, rootAddress, keyCount, db.disk.live.size, 1 - db.cached.slot⟩

/-- `commit_root_address`. -/
def commitRootAddress (rootAddress : ℕ) (keyCount : ℤ) : Py (Database α) Unit := do
  let _ ← lock
  -- data records must be durable before the meta block that references them
  onDisk Storage.flush
  let db ← MonadState.get
  let newMeta := db.nextMeta rootAddress keyCount
  onDisk (Storage.writeSlot ext.crc32 newMeta.slot newMeta)
  onDisk Storage.flush
  modify fun db => { db with cached := newMeta }
  unlock

/-- `commit`. -/
def commit : Py (Database α) Unit := do
  storeTree ext
  let db ← MonadState.get
  commitRootAddress ext db.rootAddress db.tree.count
  refresh ext

/-- A handle that has not read anything yet. -/
def blank (order : ℕ) (d : Disk) : Database α := ⟨d, ⟨0, 0, 0, 0, 0⟩, false, ⟨order, none, 0⟩⟩

/-- `DBDB.__init__`: the storage finds or makes its meta blocks, then the tree is
read. -/
def connect : Py (Database α) Unit := do
  let m ← onDisk (Storage.ensureMeta ext.crc32)
  modify fun db => { db with cached := m }
  let db ← MonadState.get
  if db.tree.order < 3 then throw .valueError else refresh ext

end Database
