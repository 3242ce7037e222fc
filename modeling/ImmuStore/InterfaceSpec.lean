/-
# What the methods of the mapping and snapshots do

A method of the mapping acts on the staged map, and raises what its key, its codec or an
absent key make it raise.  A snapshot reads the map it has pinned as long as the records
below its end stay what they are.
-/
import ImmuStore.HandleSpec
import ImmuStore.Interface

open Storage

variable {α V : Type} [LinearOrder α] {ext : Externals α} {codec : Codec α V} {order : ℕ}
  {f g : File} {L L' : ℕ} {m : Meta} {b c s : α → Option Bytes}

/-! ## Snapshots -/

/-- The snapshot has pinned the map `b`, all of it below `L`. -/
def Snapshot.Pins (ext : Externals α) (order : ℕ) (f : File) (L : ℕ) (snapshot : Snapshot)
    (b : α → Option Bytes) : Prop :=
  ∃ m t, snapshot = ⟨m.rootAddress, m.keyCount⟩ ∧ AtMeta ext order f L m t ∧
    BPlusTree.Holds order t b

namespace Snapshot.Pins

variable {snapshot : Snapshot}

theorem of_committed (hc : Committed ext order f m c) :
    Pins ext order f m.dataLength ⟨m.rootAddress, m.keyCount⟩ c := by
  obtain ⟨t, hat, hholds⟩ := hc.tree
  exact ⟨m, t, rfl, hat, hholds⟩

section

variable (h : snapshot.Pins ext order f L b)
include h

theorem mono (hfg : SameRecords L f g) (hL : L ≤ L') (hsize : L' ≤ g.size) : snapshot.Pins ext order g L' b := by
  obtain ⟨m, t, heq, hat, hholds⟩ := h
  exact ⟨m, t, heq, hat.mono hfg hL hsize, hholds⟩

theorem tree_eq :
    ∃ t, snapshot.tree ext order f = .ok t ∧ BPlusTree.Holds order t b := by
  obtain ⟨m, t, rfl, hat, hholds⟩ := h
  refine ⟨t, ?_, hholds⟩
  rw [Snapshot.tree, hat.loadRoot_eq]
  obtain ⟨_, treeRef, count⟩ := t
  rw [← hat.order_eq, ← hat.count_eq]
  rfl

/-- A snapshot reads the map it pins. -/
theorem raw_eq (key : α) :
    snapshot.raw ext order f key = .ok (b key) := by
  obtain ⟨t, htree, hholds⟩ := h.tree_eq
  have hget := hholds.get_eq key
  rw [Snapshot.raw, htree]
  cases hkey : b key with
  | none =>
    rw [hkey] at hget
    change Except.onKeyError (t.get key >>= fun payload => pure (some payload)) none = _
    rw [hget]
    rfl
  | some payload =>
    rw [hkey] at hget
    change Except.onKeyError (t.get key >>= fun payload => pure (some payload)) none = _
    rw [hget]
    rfl

end

end Snapshot.Pins

/-! ## Methods of a handle that is open -/

section Call

variable {β : Type} {h : Handle α} {x : Py (Database α) β} {db : Database α}

omit [LinearOrder α]

theorem Handle.call_of_open (hopen : h.closed = false) (x : Py (Database α) β) :
    Handle.call x h = Handle.onDatabase x h := by
  simp [Handle.call, Handle.assertOpen, hopen]

theorem Handle.call_ok {b : β} (hopen : h.closed = false) (hx : x h.database = .ok b db) :
    Handle.call x h = .ok b { h with database := db } := by
  rw [call_of_open hopen, onDatabase, hx]

theorem Handle.call_error {e : PyError} (hopen : h.closed = false) (hx : x h.database = .error e db) :
    Handle.call x h = .error e { h with database := db } := by
  rw [call_of_open hopen, onDatabase, hx]

end Call

/-- `snapshot` pins the committed map. -/
theorem Handle.snapshot_eq {h : Handle α} (hopen : h.closed = false)
    (hc : Committed ext order h.database.disk.live m c) :
    h.snapshot ext = .ok ⟨m.rootAddress, m.keyCount⟩ { h with
      database := { h.database with cached := m }
      openSnapshots := h.openSnapshots + 1 } := by
  simp [Handle.snapshot, Handle.assertOpen, Handle.pin, hopen, hc.adopted.readBestMeta]

/-! ## A handle that holds the lock -/

/-- The handle holds the lock and is current; `c` is committed, `s` is staged. -/
structure Database.Writing (ext : Externals α) (order : ℕ) (db : Database α) (m : Meta)
    (c s : α → Option Bytes) : Prop where
  locked : db.locked = true
  cached_eq : db.cached = m
  committed : Committed ext order db.disk.live m c
  holding : Holding ext order db.disk.live db.tree s

namespace Database.Writing

variable {db : Database α}

section

variable (h : db.Writing ext order m c s)
include h

theorem attached : db.Attached ext order m c s :=
  ⟨h.committed, h.holding.holds.order_eq, fun _ => ⟨h.cached_eq, h.holding⟩,
    fun hl => by simp [h.locked] at hl⟩

theorem get (key : α) :
    Database.get ext key db = match s key with
      | some value => .ok value db
      | none => .error .keyError db := by
  obtain ⟨db', hrefresh, hget⟩ := h.attached.get key
  obtain rfl : db' = db := by
    simpa [Database.refreshUnlocked, h.locked] using hrefresh.symm
  exact hget

/-- The writer assigns in memory, -/
theorem set (key : α) (value : Bytes) :
    ∃ db', Database.set ext key value db = .ok () db' ∧ db'.disk = db.disk ∧
      db'.Writing ext order m c (Function.update s key (some value)) := by
  obtain ⟨t, hrun, hholding⟩ := h.attached.set key value
  exact ⟨_, hrun, rfl, rfl, rfl, h.committed, hholding⟩

/-- and deletes there. -/
theorem delete (key : α) :
    ∃ db', onKeyError (Database.delete ext key) (pure ()) db = .ok () db' ∧ db'.disk = db.disk ∧
      db'.Writing ext order m c (Function.update s key none) := by
  by_cases hkey : s key = none
  · obtain ⟨t, hrun, hholding⟩ := h.attached.delete_absent hkey
    refine ⟨{ db with cached := m, locked := true, tree := t }, ?_, rfl, rfl, rfl, h.committed, ?_⟩
    · simp [onKeyError, hrun]
    · rw [Function.update_eq_self_iff.mpr hkey.symm]
      exact hholding
  · obtain ⟨t, hrun, hholding⟩ := h.attached.delete hkey
    refine ⟨{ db with cached := m, locked := true, tree := t }, ?_, rfl, rfl, rfl, h.committed,
      hholding⟩
    simp [onKeyError, hrun]

end

end Database.Writing

/-- With the lock, `_refresh_tree_ref` drops what is staged. -/
theorem Database.refresh_locked (db : Database α) (hc : Committed ext order db.disk.live m c)
    (horder : db.tree.order = order) :
    ∃ db', Database.refresh ext { db with locked := true } = .ok () db' ∧ db'.disk = db.disk ∧
      db'.Writing ext order m c c ∧ AtMeta ext order db.disk.live db.disk.live.size m db'.tree := by
  obtain ⟨t, hrun, hat⟩ := Database.refresh_spec { db with locked := true } hc horder
  exact ⟨_, hrun, rfl, ⟨rfl, rfl, hc, hat.holding le_rfl hc⟩, hat⟩

/-! ## The mapping -/

/-- The result of a computation that leaves the state `s`. -/
def Except.inState {ε σ β : Type} (x : Except ε β) (s : σ) : EStateM.Result ε σ β :=
  match x with
  | .ok b => .ok b s
  | .error e => .error e s

theorem ofExcept_eq {ε σ β : Type} (x : Except ε β) (s : σ) :
    (ofExcept x : EStateM ε σ β) s = x.inState s := by
  cases x with
  | ok b => rfl
  | error e => rfl

/-- Looking a key up in a map. -/
def mapGet (codec : Codec α V) (s : α → Option Bytes) (key : α) : Except PyError V :=
  if codec.validKey key then
    match s key with
    | none => .error .keyError
    | some payload => codec.decode payload
  else .error .keyEncodingError

namespace Database.Attached

variable {db : Database α}
variable {key : α}

/-- A write begins by taking the lock. -/
theorem writing {t : BPlusTree α Bytes} (h : db.Attached ext order m c s)
    (hholding : Holding ext order db.disk.live t b) :
    Writing ext order { db with cached := m, locked := true, tree := t } m c b :=
  ⟨rfl, rfl, h.committed, hholding⟩

section

variable (h : db.Attached ext order m c s)
include h

theorem setItem {value : V} {payload : Bytes} (hvalid : codec.validKey key = true)
    (hencode : codec.encode value = .ok payload) :
    ∃ db', DBDB.setItem ext codec key value db = .ok () db' ∧ db'.disk = db.disk ∧
      db'.Writing ext order m c (Function.update s key (some payload)) := by
  obtain ⟨t, hrun, hholding⟩ := h.set key payload
  refine ⟨{ db with cached := m, locked := true, tree := t }, ?_, rfl, h.writing hholding⟩
  simp [DBDB.setItem, DBDB.validateKey, hvalid, hencode, hrun]

section

variable (hvalid : codec.validKey key = true)
include hvalid

theorem delItem (hkey : s key ≠ none) :
    ∃ db', DBDB.delItem ext codec key db = .ok () db' ∧ db'.disk = db.disk ∧
      db'.Writing ext order m c (Function.update s key none) := by
  obtain ⟨t, hrun, hholding⟩ := h.delete hkey
  refine ⟨{ db with cached := m, locked := true, tree := t }, ?_, rfl, h.writing hholding⟩
  simp [DBDB.delItem, DBDB.validateKey, hvalid, hrun]

/-- `del` of an absent key raises `KeyError` and keeps the lock. -/
theorem delItem_absent (hkey : s key = none) :
    ∃ db', DBDB.delItem ext codec key db = .error .keyError db' ∧ db'.disk = db.disk ∧
      db'.Writing ext order m c s := by
  obtain ⟨t, hrun, hholding⟩ := h.delete_absent hkey
  refine ⟨{ db with cached := m, locked := true, tree := t }, ?_, rfl, h.writing hholding⟩
  simp [DBDB.delItem, DBDB.validateKey, hvalid, hrun]

/-- A lookup reads the map, on a refreshed handle. -/
theorem getItem :
    ∃ db', Database.refreshUnlocked ext db = .ok () db' ∧
      DBDB.getItem ext codec key db = (mapGet codec s key).inState db' := by
  obtain ⟨db', hrefresh, hget⟩ := h.get key
  refine ⟨db', hrefresh, ?_⟩
  simp only [DBDB.getItem, DBDB.validateKey, hvalid, if_true, run_bind, run_pure, hget, mapGet]
  cases s key with
  | none => rfl
  | some payload =>
    cases hdecode : codec.decode payload with
    | ok value => simp [Except.inState, hdecode]
    | error e => simp [Except.inState, hdecode]

theorem get_default (default : V) :
    ∃ db', Database.refreshUnlocked ext db = .ok () db' ∧
      DBDB.get ext codec key default db =
        ((mapGet codec s key).onKeyError default).inState db' := by
  obtain ⟨db', hrefresh, hget⟩ := h.getItem hvalid
  refine ⟨db', hrefresh, ?_⟩
  rw [DBDB.get, onKeyError, hget]
  cases mapGet codec s key with
  | ok value => rfl
  | error e => cases e <;> rfl

end

end

end Database.Attached

namespace Database.Writing

variable {db : Database α}

theorem refreshUnlocked_eq (h : db.Writing ext order m c s) :
    Database.refreshUnlocked ext db = .ok () db := by
  simp [Database.refreshUnlocked, h.locked]

theorem get_default (h : db.Writing ext order m c s) {key : α} (hvalid : codec.validKey key = true)
    (default : V) :
    DBDB.get ext codec key default db =
      ((mapGet codec s key).onKeyError default).inState db := by
  obtain ⟨db', hrefresh, hget⟩ := h.attached.get_default hvalid default
  rw [h.refreshUnlocked_eq] at hrefresh
  cases hrefresh
  exact hget

end Database.Writing

namespace DBDB

variable {db : Database α} {key : α} {value : V}

/-- A key that is not valid is refused. -/
theorem setItem_invalid (hvalid : codec.validKey key = false) :
    setItem ext codec key value db = .error .keyEncodingError db := by
  simp [setItem, validateKey, hvalid]

theorem setItem_unencodable {e : PyError} (hvalid : codec.validKey key = true)
    (hencode : codec.encode value = .error e) : setItem ext codec key value db = .error e db := by
  simp [setItem, validateKey, hvalid, hencode]

theorem delItem_invalid (hvalid : codec.validKey key = false) :
    delItem ext codec key db = .error .keyEncodingError db := by
  simp [delItem, validateKey, hvalid]

/-- `update_value` takes the lock, reads, and stages what the updater makes of it. -/
theorem updateValue_spec (h : db.Attached ext order m c s) (hvalid : codec.validKey key = true)
    (updater : V → Except PyError V) (default : V) :
    ∃ db1, db1.disk = db.disk ∧ db1.Writing ext order m c s ∧
      updateValue ext codec key updater default db =
        match (mapGet codec s key).onKeyError default >>= updater with
        | .error e => .error e db1
        | .ok updated => ((fun _ => updated) <$> setItem ext codec key updated) db1 := by
  obtain ⟨t, hlock, hholding⟩ := h.lockFresh
  have hwriting := h.writing hholding
  refine ⟨{ db with cached := m, locked := true, tree := t }, rfl, hwriting, ?_⟩
  simp only [updateValue, run_bind, validateKey, hvalid, if_true, run_pure, hlock,
    hwriting.get_default hvalid]
  cases (mapGet codec s key).onKeyError default with
  | error e => rfl
  | ok current =>
    cases hupdated : updater current with
    | error e => simp [Except.inState, bind, Except.bind, hupdated]
    | ok updated => simp [Except.inState, bind, Except.bind, hupdated]

end DBDB
