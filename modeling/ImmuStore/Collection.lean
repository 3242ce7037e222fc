/-
# Collections (`collection.py`)

Documents with secondary indexes, queries and expiry, kept in a database through one
handle.  A document, its index entries and its expiry record are ordinary keys of that
database; those of the last two kinds begin with NUL.

JSON is a parameter: its values, the tests that the source makes of them and the
functions of `json`, with the laws that `loads` gives back what `dumps` was given and that
the output of `dumps` has no NUL.  The clock is the sequence of its readings, one for each
call of it.
-/
import ImmuStore.Interface

variable {V T : Type}

/-! ## JSON values -/

/-- JSON values and what the source does with them; `T` is the type of numbers that the
clock returns. -/
structure Json (V T : Type) where
  /-- `None`. -/
  null : V
  /-- A `str`. -/
  str : Text → V
  /-- A number. -/
  number : T → V
  /-- The text of a `str`. -/
  asStr : V → Option Text
  /-- The value of a number. -/
  asNumber : V → Option T
  /-- The items of a `dict`. -/
  asDict : V → Option (Text → Option V)
  /-- `int(value)` for a `float` that is an integer, other values as they are. -/
  intOfFloat : V → V
  /-- The sum of two numbers. -/
  add : T → T → T
  /-- `json.dumps(value, sort_keys=True)`. -/
  dumps : V → Text
  /-- `JsonCodec.encode`. -/
  encode : V → Bytes
  /-- `JsonCodec.decode`. -/
  decode : Bytes → Except PyError V
  asStr_str : ∀ text, asStr (str text) = some text
  asNumber_number : ∀ n, asNumber (number n) = some n
  asStr_null : asStr null = none
  asNumber_null : asNumber null = none
  asDict_null : asDict null = none
  decode_encode : ∀ value, decode (encode value) = .ok value
  nul_not_mem_dumps : ∀ value, Char.ofNat 0 ∉ dumps value

/-- `JsonCodec`, for keys that are strings. -/
def Json.codec (json : Json V T) : Codec Text V where
  validKey key := !key.isEmpty
  startsWith key pre := pre.isPrefixOf key
  encode value := .ok (json.encode value)
  decode := json.decode

/-! ## Keys -/

/-- The character NUL. -/
def nul : Char := Char.ofNat 0

/-- `_RESERVED`. -/
def reserved : Text := [nul]

/-- `_INDEX_PREFIX`. -/
def indexPrefix : Text := [nul, 'i', 'd', 'x', nul]

/-- `_EXPIRY_PREFIX`. -/
def expiryPrefix : Text := [nul, 'e', 'x', 'p', nul]

/-- `_value_token`. -/
def valueToken (json : Json V T) (value : V) : Text := json.dumps (json.intOfFloat value)

/-- `_index_key`. -/
def indexKey (json : Json V T) (field : Text) (value : V) (primaryKey : Text) : Text :=
  indexPrefix ++ field ++ [nul] ++ valueToken json value ++ [nul] ++ primaryKey

/-- `_index_scan_prefix`. -/
def indexScanPrefix (json : Json V T) (field : Text) (value : V) : Text :=
  indexPrefix ++ field ++ [nul] ++ valueToken json value ++ [nul]

/-- `_expiry_key`. -/
def expiryKey (primaryKey : Text) : Text := expiryPrefix ++ primaryKey

/-- `_check_key`. -/
def checkKey (key : Text) : Except PyError Unit :=
  if key = [] then .error .valueError
  else if reserved.isPrefixOf key then .error .valueError
  else .ok ()

/-! ## The collection -/

/-- A `Collection`: its database, the indexed fields in the order in which the set is
iterated, and the readings that its clock has still to give. -/
structure Collection (T : Type) where
  db : Handle Text
  indexes : List Text
  clock : ℕ → T

namespace Collection

/-- `self._clock()`. -/
def readClock : Py (Collection T) T := fun c =>
  .ok (c.clock 0) { c with clock := fun n => c.clock (n + 1) }

/-- A call of the database. -/
def onDb {β : Type} (x : Py (Handle Text) β) : Py (Collection T) β :=
  fun c => match x c.db with
    | .ok b db => .ok b { c with db := db }
    | .error e db => .error e { c with db := db }

/-- A call of a transaction, which reads its base from the file as it is now. -/
def onBase {β : Type} (x : ℕ → File → Except PyError β) : Py (Collection T) β :=
  fun c => match x c.db.database.tree.order c.db.database.disk.live with
    | .ok b => .ok b c
    | .error e => .error e c

variable (ext : Externals Text) (json : Json V T)

/-- `self._db.get(key)`. -/
def dbGet (key : Text) : Py (Collection T) V :=
  onDb (Handle.call (DBDB.get ext json.codec key json.null))

/-- `self._db[key]`. -/
def dbItem (key : Text) : Py (Collection T) V :=
  onDb (Handle.call (DBDB.getItem ext json.codec key))

/-- `self._db.scan(prefix=pre)`. -/
def dbScan (pre : Text) : Py (Collection T) (List (Text × V)) :=
  onDb (Handle.call (DBDB.scan ext json.codec (some pre) none none))

/-- `self._db.keys()`. -/
def dbKeys : Py (Collection T) (List Text) :=
  onDb (Handle.call (DBDB.keys ext json.codec none none none))

section Reads

variable [DecidableEq V] [LE T] [DecidableLE T]

/-- `_is_expired`; the clock is read only if there is an expiry record. -/
def isExpired (key : Text) : Py (Collection T) Bool := do
  let expiry ← dbGet ext json (expiryKey key)
  if expiry = json.null then return false
  else
    let now ← readClock
    match json.asNumber expiry with
    | none => throw .typeError
    | some expiry => return decide (expiry ≤ now)

/-- `get`. -/
def get (key : Text) : Py (Collection T) V := do
  ofExcept (checkKey key)
  let document ← dbGet ext json key
  if document = json.null then return json.null
  else
    let expired ← isExpired ext json key
    return if expired then json.null else document

/-- `__contains__`. -/
def contains (key : Text) : Py (Collection T) Bool := do
  let document ← get ext json key
  return decide (document ≠ json.null)

/-- The loop of `keys`. -/
def visibleKeys : List Text → Py (Collection T) (List Text)
  | [] => pure []
  | key :: keys =>
    if reserved.isPrefixOf key then visibleKeys keys
    else do
      let expired ← isExpired ext json key
      let rest ← visibleKeys keys
      return if expired then rest else key :: rest

/-- `keys`. -/
def keys : Py (Collection T) (List Text) := do
  let all ← dbKeys ext json
  visibleKeys ext json all

/-- The loop of `documents`. -/
def documentsOf : List Text → Py (Collection T) (List (Text × V))
  | [] => pure []
  | key :: keys =>
    if reserved.isPrefixOf key then documentsOf keys
    else do
      let expired ← isExpired ext json key
      if expired then documentsOf keys
      else
        let document ← dbItem ext json key
        let rest ← documentsOf keys
        return (key, document) :: rest

/-- `documents`. -/
def documents : Py (Collection T) (List (Text × V)) := do
  let all ← dbKeys ext json
  documentsOf ext json all

/-- `count`. -/
def count : Py (Collection T) ℕ := do
  let visible ← keys ext json
  return visible.length

end Reads

/-! ## Writes -/

/-- The end of the `with` block of a transaction: it is aborted if the body raises, and
committed otherwise. -/
def runBody (body : Transaction Text → Py (Collection T) (Transaction Text))
    (tx : Transaction Text) : Py (Collection T) Unit := fun c =>
  match body tx c with
  | .error e c => .error e { c with db := tx.abort c.db }
  | .ok tx c => onDb (tx.commit ext) c

/-- `with self._db.transaction() as tx: …`. -/
def withTransaction (body : Transaction Text → Py (Collection T) (Transaction Text)) :
    Py (Collection T) Unit := do
  let tx ← onDb (Transaction.begin ext)
  runBody ext body tx

/-- `if key in tx: tx.delete(key)`. -/
def dropKey (key : Text) (tx : Transaction Text) :
    Py (Collection T) (Transaction Text) := do
  let present ← onBase fun order f => tx.contains ext order f key
  if present then onBase fun order f => tx.delete ext json.codec order f key else pure tx

/-- The loop of `_unindex`. -/
def unindexFields (key : Text) (items : Text → Option V) :
    List Text → Transaction Text → Py (Collection T) (Transaction Text)
  | [], tx => pure tx
  | field :: fields, tx =>
    match items field with
    | none => unindexFields key items fields tx
    | some value => do
      let tx ← dropKey ext json (indexKey json field value key) tx
      unindexFields key items fields tx

/-- `_unindex`. -/
def unindex (key : Text) (document : V) (tx : Transaction Text) :
    Py (Collection T) (Transaction Text) := do
  let c ← MonadState.get
  match json.asDict document with
  | none => pure tx
  | some items => unindexFields ext json key items c.indexes tx

/-- The loop of `set` that writes the index entries. -/
def indexFields (key : Text) (items : Text → Option V) :
    List Text → Transaction Text → Except PyError (Transaction Text)
  | [], tx => .ok tx
  | field :: fields, tx =>
    match items field with
    | none => indexFields key items fields tx
    | some value => do
      let tx ← tx.set json.codec (indexKey json field value key) (json.str key)
      indexFields key items fields tx

/-- The expiry record of `set`. -/
def setExpiry (key : Text) (ttl : Option T) (tx : Transaction Text) :
    Py (Collection T) (Transaction Text) :=
  match ttl with
  | some ttl => do
    let now ← readClock
    ofExcept (tx.set json.codec (expiryKey key) (json.number (json.add now ttl)))
  | none => dropKey ext json (expiryKey key) tx

/-- The transaction of `set`. -/
def setBody (key : Text) (document : V) (items : Text → Option V) (ttl : Option T)
    (tx : Transaction Text) : Py (Collection T) (Transaction Text) := do
  let c ← MonadState.get
  let old ← onBase fun order f => tx.getOrNone ext json.codec order f key json.null
  let tx ← unindex ext json key old tx
  let tx ← ofExcept (tx.set json.codec key document)
  let tx ← ofExcept (indexFields json key items c.indexes tx)
  setExpiry ext json key ttl tx

/-- `set`. -/
def set (key : Text) (document : V) (ttl : Option T) : Py (Collection T) Unit := do
  ofExcept (checkKey key)
  match json.asDict document with
  | none => throw .typeError
  | some items => withTransaction ext (setBody ext json key document items ttl)

/-- The transaction of `delete`. -/
def deleteBody (key : Text) (document : V) (tx : Transaction Text) :
    Py (Collection T) (Transaction Text) := do
  let tx ← unindex ext json key document tx
  let tx ← onBase fun order f => tx.delete ext json.codec order f key
  dropKey ext json (expiryKey key) tx

section Updates

variable [DecidableEq V] [LE T] [DecidableLE T]

omit [LE T] [DecidableLE T] in
/-- `delete`. -/
def delete (key : Text) : Py (Collection T) Unit := do
  ofExcept (checkKey key)
  let document ← dbGet ext json key
  if document = json.null then throw .keyError
  else withTransaction ext (deleteBody ext json key document)

omit [DecidableEq V] [LE T] [DecidableLE T] in
/-- The loop of `create_index`. -/
def backfill (field : Text) :
    List Text → Transaction Text → Py (Collection T) (Transaction Text)
  | [], tx => pure tx
  | key :: keys, tx => do
    let document ← dbItem ext json key
    match json.asDict document >>= fun items => items field with
    | none => backfill field keys tx
    | some value =>
      let tx ← ofExcept (tx.set json.codec (indexKey json field value key) (json.str key))
      backfill field keys tx

/-- The transaction of `create_index`. -/
def createIndexBody (field : Text) (tx : Transaction Text) :
    Py (Collection T) (Transaction Text) := do
  let visible ← keys ext json
  backfill ext json field visible tx

/-- `create_index`. -/
def createIndex (field : Text) : Py (Collection T) Unit := do
  withTransaction ext (createIndexBody ext json field)
  modify fun c => { c with indexes := if field ∈ c.indexes then c.indexes else c.indexes ++ [field] }

omit [DecidableEq V] in
/-- The keys that `sweep` collects from the expiry records. -/
def expiredKeys (now : T) : List (Text × V) → Except PyError (List Text)
  | [] => .ok []
  | (key, expiry) :: entries =>
    match json.asNumber expiry with
    | none => .error .typeError
    | some expiry => do
      let rest ← expiredKeys now entries
      return if expiry ≤ now then key.drop expiryPrefix.length :: rest else rest

omit [LE T] [DecidableLE T] in
/-- The loop of `sweep`. -/
def deleteAll : List Text → Py (Collection T) Unit
  | [] => pure ()
  | key :: keys => do
    onKeyError (delete ext json key) (pure ())
    deleteAll keys

/-- `sweep`. -/
def sweep : Py (Collection T) ℕ := do
  let now ← readClock
  let entries ← dbScan ext json expiryPrefix
  let expired ← ofExcept (expiredKeys json now entries)
  deleteAll ext json expired
  return expired.length

end Updates

end Collection

/-! ## Queries -/

/-- A `Query`: its equalities and its predicates, which may raise. -/
structure Query (V : Type) where
  equals : List (Text × V)
  predicates : List (V → Except PyError Bool)

namespace Query

/-- `Collection.query`. -/
def new : Query V := ⟨[], []⟩

/-- `where`. -/
def whereEq (q : Query V) (field : Text) (value : V) : Query V :=
  { q with equals := q.equals ++ [(field, value)] }

/-- `filter`. -/
def filter (q : Query V) (predicate : V → Except PyError Bool) : Query V :=
  { q with predicates := q.predicates ++ [predicate] }

/-- `all(predicate(document) for predicate in …)`. -/
def allHold (document : V) : List (V → Except PyError Bool) → Except PyError Bool
  | [] => .ok true
  | predicate :: predicates => do
    if ← predicate document then allHold document predicates else return false

variable (ext : Externals Text) (json : Json V T) (q : Query V)

/-- The equalities of `_matches`. -/
def equalsHold (items : Text → Option V) : Bool :=
  q.equals.all fun e => decide (valueToken json ((items e.1).getD json.null) = valueToken json e.2)

/-- `_matches`. -/
def matchesDocument (document : V) : Except PyError Bool :=
  match json.asDict document with
  -- a value that is no dictionary has no method `get`
  | none => if q.equals = [] then allHold document q.predicates else .error .attributeError
  | some items =>
    if q.equalsHold json items then allHold document q.predicates else .ok false

/-- The equalities on indexed fields. -/
def indexedEquals (indexes : List Text) : List (Text × V) := q.equals.filter fun e => e.1 ∈ indexes

/-- The set of the primary keys under an index prefix; a value that is no string is not a
key that the database takes. -/
def primaryKeys (json : Json V T) : List (Text × V) → Except PyError (Finset Text)
  | [] => .ok ∅
  | (_, value) :: entries =>
    match json.asStr value with
    | none => .error .keyEncodingError
    | some key => do
      let rest ← primaryKeys json entries
      return insert key rest

/-- The key sets of `_candidate_keys`. -/
def keySets : List (Text × V) → Py (Collection T) (List (Finset Text))
  | [] => pure []
  | (field, value) :: equals => do
    let entries ← Collection.dbScan ext json (indexScanPrefix json field value)
    let first ← ofExcept (primaryKeys json entries)
    let rest ← keySets equals
    return first :: rest

/-- `set.intersection(*key_sets)`, of at least one set. -/
def intersection : Finset Text → List (Finset Text) → Finset Text
  | first, [] => first
  | first, second :: rest => intersection (first ∩ second) rest

/-- `_candidate_keys`; `none` asks for a full scan. -/
def candidateKeys : Py (Collection T) (Option (Finset Text)) := do
  let c ← MonadState.get
  let sets ← keySets ext json (q.indexedEquals c.indexes)
  match sets with
  | [] => return none
  | first :: rest => return some (intersection first rest)

variable [DecidableEq V] [LE T] [DecidableLE T]

/-- One turn of the loop of `all`. -/
def collect (key : Text) (document : V) : Py (Collection T) (List (Text × V)) :=
  if document = json.null then pure []
  else do
    let expired ← Collection.isExpired ext json key
    if expired then return []
    else
      let found ← ofExcept (q.matchesDocument json document)
      return if found then [(key, document)] else []

/-- The loop of `all` over the keys of the collection. -/
def scanAll : List Text → Py (Collection T) (List (Text × V))
  | [] => pure []
  | key :: keys =>
    if reserved.isPrefixOf key then scanAll keys
    else do
      let expired ← Collection.isExpired ext json key
      if expired then scanAll keys
      else
        let document ← Collection.dbItem ext json key
        let first ← q.collect ext json key document
        let rest ← scanAll keys
        return first ++ rest

/-- The loop of `all` over candidates. -/
def lookupAll : List Text → Py (Collection T) (List (Text × V))
  | [] => pure []
  | key :: keys => do
    let document ← Collection.dbGet ext json key
    let first ← q.collect ext json key document
    let rest ← lookupAll keys
    return first ++ rest

/-- `all`. -/
def all : Py (Collection T) (List (Text × V)) := do
  let candidates ← q.candidateKeys ext json
  match candidates with
  | none => do
    let keys ← Collection.dbKeys ext json
    q.scanAll ext json keys
  | some candidates => q.lookupAll ext json (candidates.sort (· ≤ ·))

end Query
