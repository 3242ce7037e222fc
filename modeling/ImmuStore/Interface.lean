/-
# Handles, snapshots and transactions (`interface.py`, `mvcc.py`)

The methods of `DBDB` over the tree and its storage, on a database file with a path.
A generator is modelled by the list of what it yields when it is consumed at once; each
method is one step, which its mutex makes it for the threads of a process.
-/
import ImmuStore.BPlusScan
import ImmuStore.Database
import ImmuStore.PyDict

open Storage

variable {α V : Type}

/-- What a handle knows of its keys and values: `_validate_key`, `str.startswith` and
the codec. -/
structure Codec (α V : Type) where
  validKey : α → Bool
  startsWith : α → α → Bool
  encode : V → Except PyError Bytes
  decode : Bytes → Except PyError V

/-- The values of stored entries. -/
def Codec.decodeAll (codec : Codec α V) (entries : List (α × Bytes)) :
    Except PyError (List (α × V)) :=
  entries.mapM fun e => do
    let value ← codec.decode e.2
    return (e.1, value)

/-- The entries whose keys begin with `pre`, if there is one. -/
def Codec.withPre (codec : Codec α V) (pre : Option α) (entries : List (α × Bytes)) :
    List (α × Bytes) :=
  entries.filter fun e => pre.all fun p => codec.startsWith e.1 p

/-! ## Statistics of a file -/

/-- `StorageStats`. -/
structure StorageStats where
  fileSize : ℕ
  rootAddress : ℕ
  recordCount : ℕ
  keyCount : ℤ
  txnId : ℕ
  deriving DecidableEq, Repr

/-- The loop of `count_records` from an address on; every turn passes a header, so that
`fuel` is enough if it is more than the size of the file. -/
def Storage.countFrom (f : File) : ℕ → ℕ → Except PyError ℕ
  | 0, _ => .error .recursionError
  | fuel + 1, address =>
    if address < f.size then
      let header := f.read address recordHeaderBytes
      if header.length ≠ recordHeaderBytes then .error .databaseCorruptionError
      else do
        let rest ← countFrom f fuel (address + recordHeaderBytes + unpackBE (header.take 4))
        return rest + 1
    else if address ≠ f.size then .error .databaseCorruptionError
    else .ok 0

/-- `count_records`. -/
def Storage.countRecords (f : File) : Except PyError ℕ := countFrom f (f.size + 1) superblockSize

variable (ext : Externals α)

namespace Database

/-- `stats`. -/
def stats : Py (Database α) StorageStats := fun db =>
  match readBestMeta ext.crc32 db.disk.live with
  | .error e => .error e db
  | .ok m =>
    match countRecords db.disk.live with
    | .error e => .error e { db with cached := m }
    | .ok records => .ok ⟨db.disk.live.size, m.rootAddress, records, m.keyCount, m.txnId⟩
        { db with cached := m }

/-- `length`. -/
def length : Py (Database α) ℤ := do
  refreshUnlocked ext
  let db ← MonadState.get
  return db.tree.length

/-- `items`. -/
def items : Py (Database α) (List (α × Bytes)) := do
  refreshUnlocked ext
  let db ← MonadState.get
  return db.tree.items

/-- `range_items`. -/
def rangeItems [LinearOrder α] (start stop : Option α) :
    Py (Database α) (List (α × Bytes)) := do
  refreshUnlocked ext
  let db ← MonadState.get
  ofExcept (db.tree.rangeItems start stop)

end Database

/-! ## The mapping -/

namespace DBDB

variable (codec : Codec α V)

/-- `_validate_key`. -/
def validateKey (key : α) : Py (Database α) Unit :=
  if codec.validKey key then pure () else throw .keyEncodingError

/-- `_validate_key` of an argument that may be left out. -/
def validateBound : Option α → Py (Database α) Unit
  | none => pure ()
  | some key => validateKey codec key

/-- `__len__`. -/
def len : Py (Database α) ℤ := Database.length ext

/-- `items`. -/
def items : Py (Database α) (List (α × V)) := do
  let entries ← Database.items ext
  ofExcept (codec.decodeAll entries)

variable [LinearOrder α]

/-- `__getitem__`. -/
def getItem (key : α) : Py (Database α) V := do
  validateKey codec key
  let payload ← Database.get ext key
  ofExcept (codec.decode payload)

/-- `__setitem__`. -/
def setItem (key : α) (value : V) : Py (Database α) Unit := do
  validateKey codec key
  let payload ← ofExcept (codec.encode value)
  Database.set ext key payload

/-- `__delitem__`. -/
def delItem (key : α) : Py (Database α) Unit := do
  validateKey codec key
  Database.delete ext key

/-- `get`, of the mapping protocol. -/
def get (key : α) (default : V) : Py (Database α) V :=
  onKeyError (getItem ext codec key) (pure default)

/-- `__contains__`, of the mapping protocol. -/
def contains (key : α) : Py (Database α) Bool :=
  onKeyError ((fun _ => true) <$> getItem ext codec key) (pure false)

/-- `scan`. -/
def scan (pre start stop : Option α) : Py (Database α) (List (α × V)) := do
  validateBound codec pre
  validateBound codec start
  validateBound codec stop
  let entries ← Database.rangeItems ext start stop
  ofExcept (codec.decodeAll (codec.withPre pre entries))

/-- `keys`. -/
def keys (pre start stop : Option α) : Py (Database α) (List α) := do
  let entries ← scan ext codec pre start stop
  return entries.map Prod.fst

/-- `update_value`. -/
def updateValue (key : α) (updater : V → Except PyError V) (default : V) :
    Py (Database α) V := do
  validateKey codec key
  Database.lockFresh ext
  let current ← get ext codec key default
  let updated ← ofExcept (updater current)
  setItem ext codec key updated
  return updated

/-- The loop of `compact` that fills the new file. -/
def setItems : List (α × V) → Py (Database α) Unit
  | [] => pure ()
  | (key, value) :: entries => do
    setItem ext codec key value
    setItems entries

end DBDB

/-! ## Snapshots -/

/-- A `Snapshot`: the root it has pinned, and the number of keys. -/
structure Snapshot where
  rootAddress : ℕ
  count : ℤ
  deriving DecidableEq, Repr

namespace Snapshot

variable (codec : Codec α V) (order : ℕ) (f : File) (snapshot : Snapshot)

/-- `_root`: the pinned tree, read from the file as it is now. -/
def tree : Except PyError (BPlusTree α Bytes) := do
  let root ← NodeRef.loadRoot ext f snapshot.rootAddress
  return ⟨order, root, snapshot.count⟩

/-- `__len__`. -/
def len : ℤ := snapshot.count

/-- `items`. -/
def items : Except PyError (List (α × V)) := do
  let tree ← snapshot.tree ext order f
  codec.decodeAll tree.items

variable [LinearOrder α]

/-- `_raw`. -/
def raw (key : α) : Except PyError (Option Bytes) :=
  Except.onKeyError (do
    let tree ← snapshot.tree ext order f
    let payload ← tree.get key
    return some payload) none

/-- `__getitem__`. -/
def getItem (key : α) : Except PyError V := do
  match ← snapshot.raw ext order f key with
  | none => throw .keyError
  | some payload => codec.decode payload

/-- `get`. -/
def get (key : α) (default : V) : Except PyError V := do
  match ← snapshot.raw ext order f key with
  | none => return default
  | some payload => codec.decode payload

/-- `__contains__`. -/
def contains (key : α) : Except PyError Bool := do
  let payload ← snapshot.raw ext order f key
  return payload.isSome

/-- `scan`. -/
def scan (pre start stop : Option α) : Except PyError (List (α × V)) := do
  let tree ← snapshot.tree ext order f
  let entries ← tree.rangeItems start stop
  codec.decodeAll (codec.withPre pre entries)

/-- `audit`. -/
def audit : Except PyError (AuditReport α) := do
  let tree ← snapshot.tree ext order f
  tree.audit

end Snapshot

/-! ## The handle -/

/-- A `DBDB`: its database, whether it has been closed, and the number of its open
snapshots. -/
structure Handle (α : Type) where
  database : Database α
  closed : Bool
  openSnapshots : ℕ

namespace Handle

/-- The handle of a database that has just been opened. -/
def ofDatabase (db : Database α) : Handle α := ⟨db, false, 0⟩

/-- An operation on the database. -/
def onDatabase {β : Type} (x : Py (Database α) β) : Py (Handle α) β := fun h =>
  match x h.database with
  | .ok b db => .ok b { h with database := db }
  | .error e db => .error e { h with database := db }

/-- `_assert_open`. -/
def assertOpen : Py (Handle α) Unit := fun h =>
  if h.closed then .error .databaseClosedError h else .ok () h

/-- A method of the mapping. -/
def call {β : Type} (x : Py (Database α) β) : Py (Handle α) β := do
  assertOpen
  onDatabase x

/-- `close`. -/
def close (h : Handle α) : Handle α :=
  { h with database := { h.database with locked := false }, closed := true }

/-- The critical section of `snapshot`.  The meta block is read for the root, for the
count and once more by the storage of the snapshot; within one step it is the same
block. -/
def pin : Py (Handle α) Snapshot := fun h =>
  match readBestMeta ext.crc32 h.database.disk.live with
  | .error e => .error e h
  | .ok m => .ok ⟨m.rootAddress, m.keyCount⟩ { h with
      database := { h.database with cached := m }
      openSnapshots := h.openSnapshots + 1 }

/-- `snapshot`. -/
def snapshot : Py (Handle α) Snapshot := do
  assertOpen
  pin ext

/-- `_snapshot_closed`. -/
def snapshotClosed (h : Handle α) : Handle α := { h with openSnapshots := h.openSnapshots - 1 }

variable (codec : Codec α V) [LinearOrder α]

/-- What `compact` writes to its temporary file. -/
def compactInto (items : List (α × V)) : Py (Database α) StorageStats := do
  Database.connect ext
  DBDB.setItems ext codec items
  Database.commit ext
  Database.stats ext

/-- The critical section of `compact`. -/
def rewrite (temp : File) : Py (Handle α) StorageStats := fun h =>
  if 0 < h.openSnapshots then .error .immuStoreError h
  else match DBDB.items ext codec h.database with
    | .error e db => .error e { h with database := db }
    | .ok items db =>
      match compactInto ext codec items (.blank db.tree.order (.powerOn temp)) with
      | .error e _ => .error e { h with database := db }
      | .ok stats compacted =>
        match Database.connect ext (.blank db.tree.order compacted.disk) with
        | .error e _ => .error e (close { h with database := db })
        | .ok () reopened => .ok stats { h with database := reopened }

/-- `compact`; `temp` is the temporary file as it is found.  The file takes the place of
the database file, and the handle is opened anew on it. -/
def compact (temp : File) : Py (Handle α) StorageStats := do
  assertOpen
  rewrite ext codec temp

end Handle

/-! ## Transactions -/

/-- A `Transaction`: its base snapshot while it is open, and its overlay, in which
`none` is the tombstone. -/
structure Transaction (α : Type) where
  base : Option Snapshot
  overlay : PyDict α (Option Bytes)

namespace Transaction

variable (codec : Codec α V) (order : ℕ) (f : File) (tx : Transaction α) [LinearOrder α]

/-- `key in self._base`. -/
def baseContains (key : α) : Except PyError Bool :=
  match tx.base with
  | none => .error .typeError
  | some base => base.contains ext order f key

/-- `self._base[key]`. -/
def baseItem (key : α) : Except PyError V :=
  match tx.base with
  | none => .error .typeError
  | some base => base.getItem ext codec order f key

/-- `self._base._raw(key)`. -/
def baseRaw (key : α) : Except PyError (Option Bytes) :=
  match tx.base with
  | none => .error .attributeError
  | some base => base.raw ext order f key

/-- `get`. -/
def get (key : α) : Except PyError V :=
  if codec.validKey key then
    match tx.overlay.get? key with
    | some none => .error .keyError
    | some (some payload) => codec.decode payload
    | none => tx.baseItem ext codec order f key
  else .error .keyEncodingError

/-- `get_or_none`. -/
def getOrNone (key : α) (default : V) : Except PyError V :=
  (tx.get ext codec order f key).onKeyError default

/-- `__contains__`. -/
def contains (key : α) : Except PyError Bool :=
  match tx.overlay.get? key with
  | some payload => .ok payload.isSome
  | none => tx.baseContains ext order f key

/-- `set`. -/
def set (key : α) (value : V) : Except PyError (Transaction α) :=
  if codec.validKey key then do
    let payload ← codec.encode value
    return { tx with overlay := tx.overlay.set key (some payload) }
  else .error .keyEncodingError

/-- `delete`. -/
def delete (key : α) : Except PyError (Transaction α) :=
  if codec.validKey key then do
    let present ← tx.contains ext order f key
    if present then return { tx with overlay := tx.overlay.set key none } else throw .keyError
  else .error .keyEncodingError

/-- `update`. -/
def update (key : α) (updater : V → Except PyError V) (default : V) :
    Except PyError (V × Transaction α) := do
  let current ← tx.getOrNone ext codec order f key default
  let updated ← updater current
  let tx ← tx.set codec key updated
  return (updated, tx)

/-! ### Begin and end -/

omit [LinearOrder α] in
/-- `DBDB.begin`. -/
def begin : Py (Handle α) (Transaction α) := do
  Handle.assertOpen
  let base ← Handle.snapshot ext
  return ⟨some base, .empty⟩

/-- `db._tree.get(key)`, or `None`. -/
def currentValue (key : α) : Py (Database α) (Option Bytes) :=
  onKeyError (some <$> Database.get ext key) (pure none)

/-- The loop of `_check_conflicts`. -/
def checkConflicts : List (α × Option Bytes) → Py (Database α) Unit
  | [] => pure ()
  | (key, _) :: entries => do
    let db ← MonadState.get
    let baseValue ← ofExcept (tx.baseRaw ext db.tree.order db.disk.live key)
    let current ← currentValue ext key
    if baseValue = current then checkConflicts entries else throw .conflictError

/-- The loop of `commit` over the overlay. -/
def applyOverlay : List (α × Option Bytes) → Py (Database α) Unit
  | [] => pure ()
  | (key, none) :: entries => do
    onKeyError (Database.delete ext key) (pure ())
    applyOverlay entries
  | (key, some payload) :: entries => do
    Database.set ext key payload
    applyOverlay entries

/-- `commit` of an overlay that is not empty. -/
def commitOverlay : Py (Database α) Unit := do
  let _ ← Database.lock
  andFinally (do
    Database.refresh ext
    tx.checkConflicts ext tx.overlay.entries
    applyOverlay ext tx.overlay.entries
    Database.commit ext) fun db => { db with locked := false }

omit [LinearOrder α] in
/-- `_close_base`, on the handle. -/
def closeBase (h : Handle α) : Handle α :=
  match tx.base with
  | none => h
  | some _ => h.snapshotClosed

/-- `commit`, on the handle. -/
def commit : Py (Handle α) Unit :=
  andFinally (if tx.overlay.entries = [] then pure () else Handle.onDatabase (tx.commitOverlay ext))
    tx.closeBase

omit [LinearOrder α] in
/-- The transaction after `commit`, whether that returned or raised. -/
def committed : Transaction α := { tx with base := none }

omit [LinearOrder α] in
/-- `abort`, on the handle. -/
def abort (h : Handle α) : Handle α := tx.closeBase h

omit [LinearOrder α] in
/-- The transaction after `abort`. -/
def aborted : Transaction α := ⟨none, .empty⟩

end Transaction
