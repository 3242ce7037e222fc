/-
# Commands of any shape (`raft/statemachine.py`)

A command comes from a client as a JSON value, and `apply` looks into it as it goes: for its
`op`, then for its `key` and `value`.  What it finds decides whether the change is staged, or an
exception leaves the database as it was (`JsonData.kv`, `JsonData.Fits`).  The index is staged
behind the change, so that the handle reads the index of the last command that fits, also if
its commit raises.
-/
import ImmuStore.JsonValue
import ImmuStore.KVMachine

open Function Storage

/-! ## JSON values as Python holds them -/

/-- A JSON value. -/
structure JsonData (F : Type) where
  value : JsonValue F
  isJson : value.IsJson

variable {F : Type}

theorem JsonValue.EntriesJson.of_mem {entries : List (String × JsonValue F)}
    (h : EntriesJson entries) {e : String × JsonValue F} (he : e ∈ entries) : e.2.IsJson := by
  induction entries with
  | nil => exact absurd he List.not_mem_nil
  | cons first entries ih =>
    obtain ⟨hfirst, hrest⟩ := h
    rcases List.mem_cons.mp he with rfl | hmem
    · exact hfirst
    · exact ih hrest hmem

theorem JsonValue.IsJson.getItem {value item : JsonValue F} (h : value.IsJson) {key : String}
    (hitem : value.getItem key = .ok item) : item.IsJson := by
  cases value with
  | dict entries =>
    simp only [JsonValue.getItem] at hitem
    cases hlookup : entries.lookup key with
    | none => simp [hlookup] at hitem
    | some found =>
      rw [hlookup] at hitem
      obtain rfl := Except.ok.inj hitem
      obtain ⟨l1, l2, hsplit, -⟩ := List.lookup_eq_some_iff.mp hlookup
      exact h.2.of_mem (e := (key, found)) (by rw [hsplit]; simp)
  | _ => cases hitem

namespace JsonData

/-- `value[key]`. -/
def getItem (key : String) (value : JsonData F) : Except PyError (JsonData F) :=
  match h : value.value.getItem key with
  | .ok item => .ok ⟨item, value.isJson.getItem h⟩
  | .error e => .error e

/-- The string, if the value is one. -/
def text? (value : JsonData F) : Option String :=
  match value.value with
  | .str s => some s
  | _ => none

/-- `{"op": "noop"}`. -/
def noop : JsonData F :=
  ⟨.dict [("op", .str "noop")], by simp [JsonValue.IsJson, JsonValue.EntriesJson]⟩

instance : RaftCommand (JsonData F) := ⟨noop⟩

variable {value : JsonData F}

theorem getItem_eq_error {key : String} {e : PyError} :
    value.getItem key = .error e ↔ value.value.getItem key = .error e := by
  unfold getItem
  split
  · next h => simp [h]
  · next e' h => simp [h]

/-- A value that has an item is a dictionary, and lacks the others. -/
theorem keyError_of_getItem {item : JsonData F} {key key' : String} {e : PyError}
    (h : value.getItem key = .ok item) (h' : value.getItem key' = .error e) : e = .keyError := by
  rw [getItem_eq_error] at h'
  obtain ⟨value, hvalue⟩ := value
  cases value with
  | dict entries =>
    simp only [JsonValue.getItem] at h'
    cases hlookup : entries.lookup key' with
    | none =>
      rw [hlookup] at h'
      exact (Except.error.inj h').symm
    | some found =>
      rw [hlookup] at h'
      cases h'
  | _ => cases h

/-! ## What a command says -/

/-- The change a command asks for, if `apply` gets as far as to stage it.  A `del` without a
key is a `KeyError` that `apply` catches. -/
def kv (command : JsonData F) : Option (KVCommand (JsonData F)) :=
  match command.getItem "op" with
  | .error _ => none
  | .ok op =>
    if op.text? = some "set" then
      match command.getItem "value", command.getItem "key" with
      | .ok value, .ok key => key.text?.map (.set · value)
      | _, _ => none
    else if op.text? = some "del" then
      match command.getItem "key" with
      | .ok key => key.text?.map .del
      | .error _ => some .noop
    else some .noop

/-- The command has an `op`; if that is `set` it has a value and a key that is a string and
not empty, and if it is `del` it has such a key or none. -/
def Fits (command : JsonData F) : Prop := ∃ change, command.kv = some change ∧ change.Valid

theorem fits_noop : (noop : JsonData F).Fits := ⟨.noop, rfl, trivial⟩

end JsonData

/-! ## The state machine -/

namespace KVStateMachine

variable (ext : Externals String) (json : JsonModule (JsonData F))

/-- `self._db[key] = value`, for a key that is any JSON value. -/
def setAt (key value : JsonData F) : Py (Database String) Unit :=
  match key.text? with
  | some key => DBDB.setItem ext json.codec key value
  | none => throw .keyEncodingError

/-- `del self._db[key]`, for a key that is any JSON value. -/
def delAt (key : JsonData F) : Py (Database String) Unit :=
  match key.text? with
  | some key => DBDB.delItem ext json.codec key
  | none => throw .keyEncodingError

/-- The branches of `apply`, for a command of any shape. -/
def stageJson (command : JsonData F) : Py (Database String) Unit := do
  let op ← ofExcept (command.getItem "op")
  if op.text? = some "set" then
    -- the value is looked up before the key
    let value ← ofExcept (command.getItem "value")
    let key ← ofExcept (command.getItem "key")
    setAt ext json key value
  else if op.text? = some "del" then
    onKeyError (do
      let key ← ofExcept (command.getItem "key")
      delAt ext json key) (pure ())
  else pure ()

/-- `apply`, for a command of any shape. -/
def applyJson (index : ℕ) (command : JsonData F) : Py (Database String) Unit := do
  stageJson ext json command
  DBDB.setItem ext json.codec raftAppliedKey (json.number index)
  Database.commit ext

variable {ext json} {command : JsonData F}

/-- A command that says what to change is staged as that. -/
theorem stageJson_of_kv {change : KVCommand (JsonData F)} (h : command.kv = some change)
    (db : Database String) : stageJson ext json command db = stage ext json change db := by
  unfold JsonData.kv at h
  cases hop : command.getItem "op" with
  | error e => simp [hop] at h
  | ok op =>
    simp only [hop] at h
    simp only [stageJson, run_bind, hop, ofExcept_ok]
    by_cases hset : op.text? = some "set"
    · rw [if_pos hset] at h ⊢
      cases hvalue : command.getItem "value" with
      | error e => simp [hvalue] at h
      | ok value =>
        cases hkey : command.getItem "key" with
        | error e => simp [hvalue, hkey] at h
        | ok key =>
          simp only [hvalue, hkey, Option.map_eq_some_iff] at h
          obtain ⟨text, htext, rfl⟩ := h
          simp only [run_bind, ofExcept_ok, setAt, htext]
          rfl
    · rw [if_neg hset] at h ⊢
      by_cases hdel : op.text? = some "del"
      · rw [if_pos hdel] at h ⊢
        cases hkey : command.getItem "key" with
        | error e =>
          obtain rfl := JsonData.keyError_of_getItem hop hkey
          obtain rfl : KVCommand.noop = change := by simpa [hkey] using h
          rfl
        | ok key =>
          simp only [hkey, Option.map_eq_some_iff] at h
          obtain ⟨text, htext, rfl⟩ := h
          simp only [stage, onKeyError, run_bind, ofExcept_ok, delAt, htext]
      · rw [if_neg hdel] at h ⊢
        cases h
        rfl

/-- A command that does not fit raises before anything is touched. -/
theorem stageJson_unfit (ext : Externals String) (json : JsonModule (JsonData F))
    (h : ¬ command.Fits) (db : Database String) :
    ∃ e, stageJson ext json command db = .error e db := by
  cases hkv : command.kv with
  | some change =>
    have hinvalid : ¬ change.Valid := fun hvalid => h ⟨change, hkv, hvalid⟩
    rw [stageJson_of_kv hkv]
    cases change with
    | set key value =>
      obtain rfl : key = "" := not_not.mp hinvalid
      exact ⟨_, DBDB.setItem_invalid rfl⟩
    | del key =>
      obtain rfl : key = "" := not_not.mp hinvalid
      refine ⟨.keyEncodingError, ?_⟩
      rw [stage, onKeyError_error (DBDB.delItem_invalid rfl) (by decide)]
    | noop => exact absurd trivial hinvalid
  | none =>
    unfold JsonData.kv at hkv
    simp only [stageJson, run_bind]
    cases hop : command.getItem "op" with
    | error e => exact ⟨e, rfl⟩
    | ok op =>
      simp only [hop] at hkv
      simp only [ofExcept_ok]
      by_cases hset : op.text? = some "set"
      · rw [if_pos hset] at hkv ⊢
        cases hvalue : command.getItem "value" with
        | error e => exact ⟨e, rfl⟩
        | ok value =>
          cases hkey : command.getItem "key" with
          | error e => exact ⟨e, rfl⟩
          | ok key =>
            simp only [hvalue, hkey, Option.map_eq_none_iff] at hkv
            refine ⟨.keyEncodingError, ?_⟩
            simp only [run_bind, ofExcept_ok, setAt, hkv]
            rfl
      · rw [if_neg hset] at hkv ⊢
        by_cases hdel : op.text? = some "del"
        · rw [if_pos hdel] at hkv ⊢
          cases hkey : command.getItem "key" with
          | error e => simp [hkey] at hkv
          | ok key =>
            simp only [hkey, Option.map_eq_none_iff] at hkv
            refine ⟨.keyEncodingError, ?_⟩
            simp only [onKeyError, run_bind, ofExcept_ok, delAt, hkv]
            rfl
        · rw [if_neg hdel] at hkv
          cases hkv

end KVStateMachine

/-! ## The index that a database shows -/

/-- The map has the index `k`, or none where `k` is 0. -/
def Indexed (json : JsonModule (JsonData F)) (s : String → Option Bytes) (k : ℕ) : Prop :=
  s raftAppliedKey = some (json.encode (json.number k)) ∨ s raftAppliedKey = none ∧ k = 0

/-- The database runs, and what it shows has the index `k`. -/
structure Counts (ext : Externals String) (json : JsonModule (JsonData F)) (order : ℕ)
    (db : Database String) (k : ℕ) : Prop where
  shows : ∃ c s, db.Running ext order c s ∧ Indexed json s k ∧ ∃ k', Indexed json c k'

variable {ext : Externals String} {json : JsonModule (JsonData F)} {order : ℕ}
  {db : Database String} {c s : String → Option Bytes} {command : JsonData F} {k : ℕ}

theorem Indexed.appliedIndex (h : Indexed json s k) (hdb : db.Running ext order c s) :
    ∃ db', KVStateMachine.appliedIndex ext json db = .ok (k : ℤ) db' ∧
      db'.Running ext order c s := by
  have hvalid := json.validKey_of_ne (by decide : raftAppliedKey ≠ "")
  obtain ⟨db', hrefresh, hget⟩ := hdb.attached.getItem hvalid
  refine ⟨db', ?_, hdb.refreshUnlocked hrefresh⟩
  rw [mapGet, if_pos hvalid] at hget
  rcases h with hsome | ⟨hnone, rfl⟩
  · have hdecode : json.codec.decode (json.encode (json.number k)) = .ok (json.number k) :=
      json.decode_encode _
    rw [hsome] at hget
    simp [KVStateMachine.appliedIndex, onKeyError, hget, hdecode, Except.inState,
      json.toInt_number]
  · rw [hnone] at hget
    simp [KVStateMachine.appliedIndex, onKeyError, hget, Except.inState]

theorem Counts.appliedIndex (h : Counts ext json order db k) :
    ∃ db', KVStateMachine.appliedIndex ext json db = .ok (k : ℤ) db' := by
  obtain ⟨c, s, hdb, hindexed, -⟩ := h.shows
  obtain ⟨db', hindex, -⟩ := hindexed.appliedIndex hdb
  exact ⟨db', hindex⟩

/-- A command that fits is staged with its index, and committed unless something in it is too
long for the file. -/
theorem applyJson_fits (hdb : db.Running ext order c s) {change : KVCommand (JsonData F)}
    (hkv : command.kv = some change) (hvalid : change.Valid) (index : ℕ) :
    ∃ s', s' = update (change.onMap json s) raftAppliedKey
        (some (json.encode (json.number index))) ∧
      ((∃ db', KVStateMachine.applyJson ext json index command db = .ok () db' ∧
          db'.Running ext order s' s') ∨
        ∃ e db', KVStateMachine.applyJson ext json index command db = .error e db' ∧
          db'.Running ext order c s' ∧ db'.Overflows ext) := by
  obtain ⟨db1, hstage, hdisk, hattached⟩ := KVStateMachine.stage_spec hdb.attached json hvalid
  obtain ⟨db2, hset, hdisk2, hwriting⟩ :=
    hattached.setJson json (by decide : raftAppliedKey ≠ "") (json.number index)
  have hrun : KVStateMachine.applyJson ext json index command db = db2.commit ext := by
    simp only [KVStateMachine.applyJson, run_bind, KVStateMachine.stageJson_of_kv hkv, hstage, hset]
  have hrunning : db2.Running ext order c (update (change.onMap json s) raftAppliedKey
      (some (json.encode (json.number index)))) := by
    have hsafe := hdb.safe
    rw [← hdisk, ← hdisk2, ← hwriting.cached_eq] at hsafe
    exact ⟨hsafe, hwriting.holding, fun hl => absurd (hwriting.locked.symm.trans hl) (by decide)⟩
  refine ⟨_, rfl, ?_⟩
  rw [hrun]
  cases hcommit : db2.commit ext with
  | ok u db' => exact .inl ⟨db', rfl, hrunning.commit hcommit⟩
  | error e db' =>
    have hlong := (Database.commit_error hrunning.safe.committed hrunning.holding hcommit).2
    exact .inr ⟨e, db', rfl, hrunning.commitRaises hcommit, hlong⟩

/-- After a command that fits the handle shows its index, whether its commit has returned or
raised. -/
theorem Counts.applyJson (h : Counts ext json order db k) (hfits : command.Fits) (index : ℕ) :
    Counts ext json order (resultState (KVStateMachine.applyJson ext json index command db))
      index := by
  obtain ⟨c, s, hdb, -, hindexed⟩ := h.shows
  obtain ⟨change, hkv, hvalid⟩ := hfits
  obtain ⟨s', hs', ⟨db', hrun, hdb'⟩ | ⟨e, db', hrun, hdb', -⟩⟩ :=
    applyJson_fits hdb hkv hvalid index
  · have hindex : Indexed json s' index := .inl (by rw [hs', update_self])
    rw [hrun]
    exact ⟨s', s', hdb', hindex, index, hindex⟩
  · have hindex : Indexed json s' index := .inl (by rw [hs', update_self])
    rw [hrun]
    exact ⟨c, s', hdb', hindex, hindexed⟩

/-- A command that does not fit raises and leaves the database as it was. -/
theorem applyJson_unfit (ext : Externals String) (json : JsonModule (JsonData F))
    (h : ¬ command.Fits) (index : ℕ) (db : Database String) :
    ∃ e, KVStateMachine.applyJson ext json index command db = .error e db := by
  obtain ⟨e, hstage⟩ := KVStateMachine.stageJson_unfit ext json h db
  exact ⟨e, by simp only [KVStateMachine.applyJson, run_bind, hstage]⟩

/-! ## As the state machine of a node -/

/-- The database behind the `apply` callback of a server. -/
def KVState (_ : Externals String) (_ : JsonModule (JsonData F)) : Type := Database String

/-- An `applied_index` that raises keeps the server from starting. -/
instance (ext : Externals String) (json : JsonModule (JsonData F)) :
    StateMachine (KVState ext json) (JsonData F) where
  apply index command := fun db => KVStateMachine.applyJson ext json index command db
  appliedIndex db :=
    match KVStateMachine.appliedIndex ext json db with
    | .ok index _ => index.toNat
    | .error _ _ => 0

theorem Counts.appliedIndex_eq {db : KVState ext json} (h : Counts ext json order db k) :
    StateMachine.appliedIndex db = k := by
  obtain ⟨db', hindex⟩ := h.appliedIndex
  show (match KVStateMachine.appliedIndex ext json db with
    | .ok index _ => index.toNat
    | .error _ _ => 0) = k
  rw [hindex]
  exact Int.toNat_natCast k

/-! ## Starting over a file -/

/-- `start` opens the database over the file and reads its applied index. -/
def Opens (order : ℕ) (f : File) (sm : KVState ext json) : Prop :=
  ∃ db index, Database.connect ext (.blank order (.powerOn f)) = .ok () db ∧
    KVStateMachine.appliedIndex ext json db = .ok index sm

variable {f : File} {m : Meta} {sm : KVState ext json}

theorem Opens.running (h : Opens order f sm)
    (hopen : ∀ db, Database.connect ext (.blank order (.powerOn f)) = .ok () db →
      db.Running ext order s s) (hs : Indexed json s k) :
    Database.Running ext order sm s s := by
  obtain ⟨db, index, hconnect, hindex⟩ := h
  obtain ⟨db', hindex', hrunning⟩ := hs.appliedIndex (hopen db hconnect)
  rw [hindex] at hindex'
  cases hindex'
  exact hrunning

theorem Opens.running_new (h : Opens order .empty sm) :
    Database.Running ext order sm (fun _ => none) fun _ => none :=
  h.running (k := 0) (fun _ hconnect => Database.connect_new_running hconnect) (.inr ⟨rfl, rfl⟩)

/-- What was committed is found. -/
theorem Opens.running_committed (h : Opens order f sm)
    (hc : Committed ext order f m c) (hindexed : Indexed json c k) :
    Database.Running ext order sm c c := by
  refine h.running (fun db hconnect => ?_) hindexed
  obtain ⟨db', hconnect', hrunning⟩ := Database.connect_running hc
  obtain rfl : db = db' := by simpa [hconnect] using hconnect'
  exact hrunning

theorem Opens.counts_new (h : Opens order .empty sm) : Counts ext json order sm 0 :=
  ⟨_, _, h.running_new, .inr ⟨rfl, rfl⟩, 0, .inr ⟨rfl, rfl⟩⟩

/-- A database that is opened again shows an index. -/
theorem Opens.counts (hdb : Counts ext json order db k) (h : Opens order db.disk.live sm) :
    ∃ k', Counts ext json order sm k' := by
  obtain ⟨c, s, hrunning, -, k', hindexed⟩ := hdb.shows
  have hsm := h.running_committed hrunning.safe.committed hindexed
  exact ⟨k', c, c, hsm, hindexed, k', hindexed⟩
