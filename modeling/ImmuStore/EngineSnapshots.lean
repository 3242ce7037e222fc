/-
# Snapshots and transactions with either engine (`mvcc.py`, `interface.py`)

A snapshot decodes every record as a node of the B+ tree, whichever engine has written
it.  The dictionary of a binary node has no key `"leaf"`, and the `KeyError` that looking
it up raises is taken for the absence of the key that was asked for; the key count that
the binary engine leaves in the meta block is 0.  So a snapshot of a database with this
engine is faithful only if the committed map is empty.
-/
import ImmuStore.EngineEquivalence

open Storage

variable {α V : Type} [LinearOrder α]

/-! ## Snapshots and transactions over an engine -/

/-- The keys of `INDEX_CLASSES`. -/
inductive IndexName where
  | bplus
  | binary
  deriving DecidableEq, Repr

/-- `INDEX_CLASSES`. -/
def indexEngine (p : Pickle α) : IndexName → Engine α
  | .bplus => bplusEngine p.ext defaultOrder
  | .binary => binaryEngine p

namespace Engine

variable (E : Engine α) (p : Pickle α) (codec : Codec α V)

omit [LinearOrder α] in
/-- The critical section of `snapshot`. -/
def snapshot : Py E.State Snapshot := do
  let m ← E.readMeta
  return ⟨m.rootAddress, m.keyCount⟩

omit [LinearOrder α] in
/-- `db._tree.get(key)`, or `None`. -/
def currentValue (key : α) : Py E.State (Option Bytes) :=
  onKeyError (some <$> E.get key) (pure none)

/-- The loop of `_check_conflicts`. -/
def checkConflicts (tx : Transaction α) : List (α × Option Bytes) → Py E.State Unit
  | [] => pure ()
  | (key, _) :: entries => do
    let state ← MonadState.get
    let baseValue ← ofExcept (tx.baseRaw p.ext defaultOrder (E.disk state).live key)
    let current ← E.currentValue key
    if baseValue = current then checkConflicts tx entries else throw .conflictError

omit [LinearOrder α] in
/-- The loop of `commit` over the overlay. -/
def applyOverlay : List (α × Option Bytes) → Py E.State Unit
  | [] => pure ()
  | (key, none) :: entries => do
    onKeyError (E.delete key) (pure ())
    applyOverlay entries
  | (key, some payload) :: entries => do
    E.set key payload
    applyOverlay entries

/-- `commit` of an overlay that is not empty. -/
def commitOverlay (tx : Transaction α) : Py E.State Unit := do
  let _ ← E.lock
  andFinally (do
    E.refresh
    E.checkConflicts p tx tx.overlay.entries
    E.applyOverlay tx.overlay.entries
    E.commit) E.unlock

/-- `commit` of a transaction. -/
def commitTransaction (tx : Transaction α) : Py E.State Unit :=
  if tx.overlay.entries = [] then pure () else E.commitOverlay p tx

/-- The states that calls and transactions reach from a new database.  A transaction may
end with any exception other than that of a record that cannot be written. -/
inductive Reached : Opened E → Prop
  | connect {state : E.State} : E.connect (E.blank (.powerOn .empty)) = .ok () state →
      Reached ⟨state, false⟩
  | call {h : Opened E} (call : Call α V) : Reached h → Reached (resultState (E.call codec call h))
  | transaction {h : Opened E} (tx : Transaction α) : Reached h → h.closed = false →
      (∀ state, E.commitTransaction p tx h.state ≠ .error .structError state) →
      Reached { h with state := resultState (E.commitTransaction p tx h.state) }

omit [LinearOrder α] in
/-- The file has committed the map `c`: a handle that is opened on it reads `c`. -/
def Serves (f : File) (c : α → Option Bytes) : Prop :=
  ∃ state, E.connect (E.blank (.powerOn f)) = .ok () state ∧
    ∀ key, ∃ state', E.get key state = match c key with
      | some value => .ok value state'
      | none => .error .keyError state'

/-- Snapshots and transactions read the committed map `c`: a snapshot has its keys, its
values and its size, and a transaction that begins now and only sets existing keys finds
no conflict. -/
def SnapshotFaithful (state : E.State) (c : α → Option Bytes) : Prop :=
  ∃ snapshot state', E.snapshot state = .ok snapshot state' ∧
    (∀ key, snapshot.contains p.ext defaultOrder (E.disk state').live key =
      .ok (c key).isSome) ∧
    (∀ key, snapshot.getItem p.ext codec defaultOrder (E.disk state').live key =
      match c key with
      | none => .error .keyError
      | some payload => codec.decode payload) ∧
    snapshot.len = ({key | c key ≠ none}.ncard : ℤ) ∧
    ∀ tx : Transaction α, tx.base = some snapshot →
      (∀ e ∈ tx.overlay.entries, e.2 ≠ none ∧ c e.1 ≠ none) →
      ∀ e state'', E.commitTransaction p tx state' = .error e state'' → e ≠ .conflictError

/-! ## What transactions do -/

/-- An implementation of versioned maps with what transactions need beyond it. -/
structure Transacts (R : E.State → (α → Option Bytes) → (α → Option Bytes) → Prop) : Prop where
  implements : E.Implements R
  lockRefresh : ∀ {state c s}, R state c s → ∃ fresh state1 state2,
    E.lock state = .ok fresh state1 ∧ E.refresh state1 = .ok () state2 ∧ R state2 c c ∧
      E.disk state2 = E.disk state
  get_disk : ∀ key state, E.disk (resultState (E.get key state)) = E.disk state
  unlock : ∀ {state c}, R state c c → R (E.unlock state) c c

variable {E p codec} {R : E.State → (α → Option Bytes) → (α → Option Bytes) → Prop}
  {state : E.State} {c s : α → Option Bytes}

omit [LinearOrder α] in
theorem snapshot_eq {m : Meta} {state' : E.State} (hmeta : E.readMeta state = .ok m state') :
    E.snapshot state = .ok ⟨m.rootAddress, m.keyCount⟩ state' := by
  rw [snapshot, run_bind, hmeta]
  rfl

/-- A transaction whose base and database differ on the first key it has written. -/
theorem conflict {tx : Transaction α} {key : α} {payload base current : Option Bytes}
    {entries : List (α × Option Bytes)} {fresh : Bool} {state1 state2 state3 : E.State}
    (hlock : E.lock state = .ok fresh state1) (hrefresh : E.refresh state1 = .ok () state2)
    (hoverlay : tx.overlay.entries = (key, payload) :: entries)
    (hbase : tx.baseRaw p.ext defaultOrder (E.disk state2).live key = .ok base)
    (hcurrent : E.currentValue key state2 = .ok current state3) (hne : base ≠ current) :
    ∃ state', E.commitTransaction p tx state = .error .conflictError state' := by
  have hcheck : E.checkConflicts p tx tx.overlay.entries state2 = .error .conflictError state3 := by
    rw [hoverlay]
    simp [checkConflicts, hbase, hcurrent, hne]
  refine ⟨E.unlock state3, ?_⟩
  rw [commitTransaction, if_neg (by simp [hoverlay])]
  simp [commitOverlay, andFinally, hlock, hrefresh, hcheck]

namespace Transacts

variable (hE : E.Transacts R)
variable {tx : Transaction α}
variable {state1 state2 : E.State}
include hE

theorem currentValue_eq (hR : R state c s) (key : α) :
    ∃ state', E.currentValue key state = .ok (s key) state' ∧ R state' c s ∧
      E.disk state' = E.disk state := by
  obtain ⟨state', hR', hget⟩ := hE.implements.get hR key
  have hdisk := hE.get_disk key state
  refine ⟨state', ?_, hR', ?_⟩
  · unfold currentValue onKeyError
    rw [run_map, hget]
    cases s key <;> rfl
  · rw [hget] at hdisk
    rw [← hdisk]
    cases s key <;> rfl

/-- A base that reads the map of the handle finds no conflicts. -/
theorem checkConflicts_ok (entries : List (α × Option Bytes)) {d : Disk}
    (hbase : ∀ e ∈ entries, tx.baseRaw p.ext defaultOrder d.live e.1 = .ok (s e.1))
    (hR : R state c s) (hd : E.disk state = d) :
    ∃ state', E.checkConflicts p tx entries state = .ok () state' ∧ R state' c s := by
  induction entries generalizing state with
  | nil => exact ⟨state, rfl, hR⟩
  | cons e entries ih =>
    obtain ⟨key, payload⟩ := e
    obtain ⟨state1, hcurrent, hR1, hdisk⟩ := hE.currentValue_eq hR key
    obtain ⟨state2, hrest, hR2⟩ :=
      ih (fun e he => hbase e (.tail _ he)) hR1 (hdisk.trans hd)
    refine ⟨state2, ?_, hR2⟩
    have hraw : tx.baseRaw p.ext defaultOrder (E.disk state).live key = .ok (s key) := by
      rw [hd]
      exact hbase (key, payload) (.head _)
    simp [checkConflicts, hraw, hcurrent, hrest]

/-- The check keeps the maps, however it ends. -/
theorem checkConflicts_keeps (tx : Transaction α) (entries : List (α × Option Bytes))
    (hR : R state c s) : R (resultState (E.checkConflicts p tx entries state)) c s := by
  induction entries generalizing state with
  | nil => exact hR
  | cons e entries ih =>
    obtain ⟨key, payload⟩ := e
    obtain ⟨state1, hcurrent, hR1, -⟩ := hE.currentValue_eq hR key
    simp only [checkConflicts, run_bind, run_get]
    cases tx.baseRaw p.ext defaultOrder (E.disk state).live key with
    | error e => exact hR
    | ok baseValue =>
      simp only [ofExcept_ok, hcurrent]
      split_ifs
      · exact ih hR1
      · exact hR1

theorem applyOverlay_ok (entries : List (α × Option Bytes)) (hR : R state c s) :
    ∃ state' s', E.applyOverlay entries state = .ok () state' ∧ R state' c s' := by
  induction entries generalizing state s with
  | nil => exact ⟨state, s, rfl, hR⟩
  | cons e entries ih =>
    obtain ⟨key, payload⟩ := e
    cases payload with
    | none =>
      have hdelete : ∃ state1 s1, onKeyError (E.delete key) (pure ()) state = .ok () state1 ∧
          R state1 c s1 := by
        by_cases hkey : s key = none
        · obtain ⟨state1, hrun, hR1⟩ := hE.implements.delete_absent hR key hkey
          exact ⟨state1, s, by simp [onKeyError, hrun], hR1⟩
        · obtain ⟨state1, hrun, hR1⟩ := hE.implements.delete hR key hkey
          exact ⟨state1, _, by simp [onKeyError, hrun], hR1⟩
      obtain ⟨state1, s1, hrun, hR1⟩ := hdelete
      obtain ⟨state2, s2, hrest, hR2⟩ := ih hR1
      exact ⟨state2, s2, by rw [applyOverlay, run_bind, hrun]; exact hrest, hR2⟩
    | some value =>
      obtain ⟨state1, hrun, hR1⟩ := hE.implements.set hR key value
      obtain ⟨state2, s2, hrest, hR2⟩ := ih hR1
      exact ⟨state2, s2, by rw [applyOverlay, run_bind, hrun]; exact hrest, hR2⟩

/-- What `commit` does once the check has found no conflict. -/
theorem commitOverlay_checked {state3 : E.State} {fresh : Bool}
    (hlock : E.lock state = .ok fresh state1) (hrefresh : E.refresh state1 = .ok () state2)
    (hcheck : E.checkConflicts p tx tx.overlay.entries state2 = .ok () state3) (hR : R state3 c c) :
    (∃ state' s', E.commitOverlay p tx state = .ok () state' ∧ R state' s' s') ∨
      ∃ state', E.commitOverlay p tx state = .error .structError state' := by
  obtain ⟨state4, s', happly, hR4⟩ := hE.applyOverlay_ok tx.overlay.entries hR
  rcases hE.implements.commit hR4 with ⟨state5, hcommit, hR5⟩ | ⟨state5, hcommit, -⟩
  · refine .inl ⟨E.unlock state5, s', ?_, hE.unlock hR5⟩
    simp [commitOverlay, andFinally, hlock, hrefresh, hcheck, happly, hcommit]
  · refine .inr ⟨E.unlock state5, ?_⟩
    simp [commitOverlay, andFinally, hlock, hrefresh, hcheck, happly, hcommit]

/-- A transaction whose base reads the committed map finds no conflict. -/
theorem no_conflict (hR : R state c s) (hbase : ∀ e ∈ tx.overlay.entries,
      tx.baseRaw p.ext defaultOrder (E.disk state).live e.1 = .ok (c e.1)) {e : PyError}
    {state' : E.State} (hrun : E.commitTransaction p tx state = .error e state') :
    e ≠ .conflictError := by
  unfold commitTransaction at hrun
  split_ifs at hrun
  · cases hrun
  · obtain ⟨fresh, state1, state2, hlock, hrefresh, hR2, hdisk⟩ := hE.lockRefresh hR
    obtain ⟨state3, hcheck, hR3⟩ := hE.checkConflicts_ok tx.overlay.entries hbase hR2 hdisk
    rcases hE.commitOverlay_checked hlock hrefresh hcheck hR3 with ⟨_, _, hok, -⟩ | ⟨_, herror⟩
    · rw [hok] at hrun
      cases hrun
    · rw [herror] at hrun
      obtain ⟨rfl, -⟩ := EStateM.Result.error.inj hrun
      exact PyError.noConfusion

/-- A transaction leaves a committed map, unless its records cannot be written. -/
theorem transaction_keeps (hR : R state c s)
    (hrun : ∀ state', E.commitTransaction p tx state ≠ .error .structError state') :
    ∃ c' s', R (resultState (E.commitTransaction p tx state)) c' s' := by
  unfold commitTransaction at hrun ⊢
  split_ifs at hrun ⊢
  · exact ⟨c, s, hR⟩
  · obtain ⟨fresh, state1, state2, hlock, hrefresh, hR2, -⟩ := hE.lockRefresh hR
    have hkeeps := hE.checkConflicts_keeps (p := p) tx tx.overlay.entries hR2
    cases hcheck : E.checkConflicts p tx tx.overlay.entries state2 with
    | error e state3 =>
      rw [hcheck] at hkeeps
      refine ⟨c, c, ?_⟩
      simpa [commitOverlay, andFinally, hlock, hrefresh, hcheck] using hE.unlock hkeeps
    | ok _ state3 =>
      rw [hcheck] at hkeeps
      rcases hE.commitOverlay_checked hlock hrefresh hcheck hkeeps with ⟨_, s', hok, hR'⟩ | ⟨_, herror⟩
      · exact ⟨s', s', by rwa [hok]⟩
      · exact absurd herror (hrun _)

/-- Every state that is reached has a committed map. -/
theorem of_reached {h : Opened E} (hreached : E.Reached p codec h) : ∃ c s, R h.state c s := by
  induction hreached with
  | connect hconnect =>
    obtain ⟨state', hconnect', hR⟩ := hE.implements.connect_new
    rw [hconnect] at hconnect'
    obtain ⟨-, rfl⟩ := EStateM.Result.ok.inj hconnect'
    exact ⟨_, _, hR⟩
  | @call h call _ ih =>
    obtain ⟨c, s, hR⟩ := ih
    have hs : Shows R h ⟨c, s, h.closed⟩ := ⟨hR, rfl⟩
    have hcall : Agrees R codec h ⟨c, s, h.closed⟩ call ∨ _ := hE.implements.call_spec hs call
    rcases hcall with ⟨h', hrun, hs'⟩ | ⟨rfl, h', hrun, hs'⟩
    · rw [hrun]
      cases Versioned.answer codec ⟨c, s, h.closed⟩ call with
      | ok answer => exact ⟨_, _, hs'.1⟩
      | error e => exact ⟨_, _, hs'.1⟩
    · rw [hrun]
      exact ⟨_, _, hs'.1⟩
  | transaction tx _ _ hrun ih =>
    obtain ⟨c, s, hR⟩ := ih
    exact hE.transaction_keeps hR hrun

/-- The database of one short key that has been committed is reached. -/
theorem reached_single (p : Pickle α) (codec : Codec α V) {key : α} {value : V} {payload : Bytes}
    (hvalid : codec.validKey key = true) (hencode : codec.encode value = .ok payload)
    (hconnect : E.connect (E.blank (.powerOn .empty)) = .ok () state)
    (hset : E.set key payload state = .ok () state1) (hcommit : E.commit state1 = .ok () state2) :
    E.Reached p codec ⟨state2, false⟩ ∧ ∃ c, c key = some payload ∧ R state2 c c := by
  constructor
  · have h0 : E.Reached p codec ⟨state, false⟩ := .connect hconnect
    have h1 := h0.call (.setItem key value)
    rw [call_setItem hvalid hencode hset] at h1
    have h2 := h1.call .commit
    rwa [resultState_ok, call_commit hcommit] at h2
  · obtain ⟨state', hconnect', hR⟩ := hE.implements.connect_new
    obtain rfl : state' = state := (EStateM.Result.ok.inj (hconnect'.symm.trans hconnect)).2
    obtain ⟨state1', hset', hR1⟩ := hE.implements.set hR key payload
    obtain rfl : state1' = state1 := (EStateM.Result.ok.inj (hset'.symm.trans hset)).2
    rcases hE.implements.commit hR1 with ⟨state2', hcommit', hR2⟩ | ⟨state2', hcommit', -⟩
    · obtain rfl : state2' = state2 := (EStateM.Result.ok.inj (hcommit'.symm.trans hcommit)).2
      exact ⟨_, Function.update_self .., hR2⟩
    · rw [hcommit] at hcommit'
      cases hcommit'

/-- The committed map is what a handle opened on the file reads. -/
theorem serves_iff (hR : R state c s) {c' : α → Option Bytes} :
    E.Serves (E.disk state).live c' ↔ c' = c := by
  obtain ⟨state1, hconnect, hR1⟩ := hE.implements.reopen hR
  constructor
  · rintro ⟨state2, hconnect', hget'⟩
    rw [hconnect] at hconnect'
    obtain ⟨-, rfl⟩ := EStateM.Result.ok.inj hconnect'
    funext key
    obtain ⟨state3, -, hget⟩ := hE.implements.get hR1 key
    obtain ⟨state4, hget'⟩ := hget' key
    rw [hget] at hget'
    cases hc : c key <;> cases hc' : c' key <;> simp_all
  · rintro rfl
    refine ⟨state1, hconnect, fun key => ?_⟩
    obtain ⟨state2, -, hget⟩ := hE.implements.get hR1 key
    exact ⟨state2, hget⟩

end Transacts

end Engine

/-! ## The two engines -/

section Disk

variable {ext : Externals α} {p : Pickle α}

omit [LinearOrder α] in
theorem Database.disk_onTree {β : Type} (x : Py (BPlusTree α Bytes) β) (db : Database α) :
    (resultState (Database.onTree x db)).disk = db.disk := by
  unfold Database.onTree
  cases x db.tree with
  | ok b t => rfl
  | error e t => rfl

/-- `get` writes nothing. -/
theorem Database.disk_get (key : α) (db : Database α) :
    (resultState (Database.get ext key db)).disk = db.disk := by
  have hrefresh : (resultState (Database.refreshUnlocked ext db)).disk = db.disk := by
    cases hl : db.locked with
    | true => simp [Database.refreshUnlocked, hl]
    | false => simpa [Database.refreshUnlocked, hl] using db.disk_refresh ext
  cases hrun : Database.refreshUnlocked ext db with
  | error e db' =>
    rw [hrun] at hrefresh
    rw [Database.get, run_bind, hrun]
    exact hrefresh
  | ok _ db' =>
    rw [hrun] at hrefresh
    rw [Database.get, run_bind, hrun]
    exact (Database.disk_onTree _ db').trans hrefresh

omit [LinearOrder α] in
theorem BinaryDatabase.disk_refresh (db : BinaryDatabase α) :
    (resultState (db.refresh p)).disk = db.disk := by
  unfold BinaryDatabase.refresh
  cases readBestMeta p.crc32 db.disk.live with
  | error e => rfl
  | ok m =>
    cases hload : BinaryNodeRef.load p db.disk.live (db.disk.live.size + 1) m.rootAddress with
    | error e => simp [hload]
    | ok root => simp [hload]

/-- `get` writes nothing. -/
theorem BinaryDatabase.disk_get (key : α) (db : BinaryDatabase α) :
    (resultState (BinaryDatabase.get p key db)).disk = db.disk := by
  have hrefresh : (resultState (BinaryDatabase.refreshUnlocked p db)).disk = db.disk := by
    cases hl : db.locked with
    | true => simp [BinaryDatabase.refreshUnlocked, hl]
    | false => simpa [BinaryDatabase.refreshUnlocked, hl] using db.disk_refresh
  cases hrun : BinaryDatabase.refreshUnlocked p db with
  | error e db' =>
    rw [hrun] at hrefresh
    simpa [BinaryDatabase.get, hrun] using hrefresh
  | ok _ db' =>
    rw [hrun] at hrefresh
    cases hget : db'.treeRef.get key with
    | ok value => simpa [BinaryDatabase.get, hrun, hget] using hrefresh
    | error e => simpa [BinaryDatabase.get, hrun, hget] using hrefresh

end Disk

theorem bplusEngine_transacts (ext : Externals α) {order : ℕ} (horder : 3 ≤ order) :
    (bplusEngine ext order).Transacts (fun db c s => Database.Running ext order db c s) where
  implements := bplusEngine_implements ext horder
  lockRefresh := by
    intro db c s hR
    obtain ⟨t, hrefresh, hat⟩ := Database.refresh_spec { db with locked := true } hR.safe.committed
      hR.holding.holds.order_eq
    exact ⟨_, _, _, rfl, hrefresh,
      ⟨hR.safe, hat.holding le_rfl hR.safe.committed, fun _ => rfl⟩, rfl⟩
  get_disk := fun key db => Database.disk_get key db
  unlock := fun hR => ⟨hR.safe, hR.holding, fun _ => rfl⟩

theorem binaryEngine_transacts (p : Pickle α) :
    (binaryEngine p).Transacts (fun db c s => BinaryDatabase.Running p db c s) where
  implements := binaryEngine_implements p
  lockRefresh := by
    intro db c s hR
    have hlocked : BinaryCommitted p ({ db with locked := true } : BinaryDatabase α).disk.live
        db.cached c := hR.committed
    obtain ⟨t, hrefresh, hon, hholds⟩ := BinaryDatabase.refresh_spec hlocked
    exact ⟨_, _, _, rfl, hrefresh, ⟨hR.committed, hholds, .stored hon, fun _ => rfl⟩, rfl⟩
  get_disk := fun key db => BinaryDatabase.disk_get key db
  unlock := fun hR => ⟨hR.committed, hR.holds, hR.staged, fun _ => rfl⟩

/-! ## Snapshots of the two engines -/

section Snapshots

variable {p : Pickle α} {codec : Codec α V} {f : File} {L : ℕ} {snapshot : Snapshot}
  {b c s : α → Option Bytes}
variable {order : ℕ} {payload : Option Bytes} {db : BinaryDatabase α}

/-- What a snapshot reads, from what it finds for each key. -/
theorem Snapshot.contains_of_raw {key : α} (h : snapshot.raw p.ext order f key = .ok payload) :
    snapshot.contains p.ext order f key = .ok payload.isSome := by
  rw [Snapshot.contains, h]
  rfl

theorem Snapshot.getItem_of_raw {key : α} :
    snapshot.raw p.ext order f key = .ok payload →
    snapshot.getItem p.ext codec order f key = match payload with
      | none => .error .keyError
      | some payload => codec.decode payload := by
  intro h
  rw [Snapshot.getItem, h]
  cases payload <;> rfl

/-- A snapshot of a B+ tree has the size of the map it has pinned. -/
theorem Snapshot.Pins.len_eq {ext : Externals α} (h : snapshot.Pins ext order f L b) :
    snapshot.len = ({key | b key ≠ none}.ncard : ℤ) := by
  obtain ⟨m, t, rfl, hat, hholds⟩ := h
  rw [← hholds.length_eq]
  exact hat.count_eq.symm

/-- With the B+ tree snapshots and transactions are faithful. -/
theorem bplus_snapshotFaithful {db : Database α}
    (hR : Database.Running p.ext defaultOrder db c s) :
    (bplusEngine p.ext defaultOrder).SnapshotFaithful p codec db c := by
  have hE := bplusEngine_transacts p.ext (by decide : 3 ≤ defaultOrder)
  have hpins := Snapshot.Pins.of_committed hR.safe.committed
  have hrun : (bplusEngine p.ext defaultOrder).snapshot db =
      .ok ⟨db.cached.rootAddress, db.cached.keyCount⟩ db := by
    refine Engine.snapshot_eq ?_
    show Database.readMeta p.ext db = _
    rw [Database.readMeta, hR.safe.committed.adopted.readBestMeta]
    rfl
  refine ⟨_, db, hrun, ?_, ?_, hpins.len_eq, ?_⟩
  · exact fun key => Snapshot.contains_of_raw (hpins.raw_eq key)
  · exact fun key => Snapshot.getItem_of_raw (hpins.raw_eq key)
  · intro tx hbase _ e db' hcommit
    refine hE.no_conflict hR (fun entry _ => ?_) hcommit
    rw [Transaction.baseRaw, hbase]
    exact hpins.raw_eq entry.1

/-- The root of a binary tree is no node of a B+ tree, and nothing is found in it. -/
theorem raw_of_binary {t : BinaryNodeRef α Bytes} (hon : BinaryNodeRef.OnFile p f L t)
    (count : ℤ) (key : α) :
    (⟨t.address, count⟩ : Snapshot).raw p.ext defaultOrder f key = .ok none := by
  cases hon with
  | empty => rfl
  | @node address length left right nodeKey value hrec _ _ _ _ _ =>
    have hne : address ≠ 0 := by
      have := hrec.ge
      simp only [superblockSize] at this
      omega
    have hread : read p.ext.crc32 f address = _ := hrec.read_eq
    have hload : NodeRef.loadRoot p.ext f address = .error .keyError := by
      rw [NodeRef.loadRoot, if_neg hne, NodeRef.load, hread]
      simp only [bind, Except.bind, p.loadsBPlus_dumps]
    show Except.onKeyError _ _ = _
    simp only [Snapshot.tree, BinaryNodeRef.address, hload]
    rfl

/-- A snapshot of a binary tree finds nothing. -/
theorem binary_snapshot_eq (hR : BinaryDatabase.Running p db c s) :
    ∃ snapshot, (binaryEngine p).snapshot db = .ok snapshot db ∧ snapshot.len = 0 ∧
      ∀ key, snapshot.raw p.ext defaultOrder db.disk.live key = .ok none := by
  obtain ⟨t, hon, hroot, -⟩ := hR.committed.tree
  refine ⟨⟨t.address, 0⟩, ?_, rfl, raw_of_binary hon 0⟩
  rw [hroot, ← hR.committed.keyCount_eq]
  refine Engine.snapshot_eq ?_
  show BinaryDatabase.readMeta p db = _
  rw [BinaryDatabase.readMeta, hR.committed.adopted.readBestMeta]
  rfl

/-- With the binary tree snapshots and transactions are faithful to the empty map only. -/
theorem binary_snapshotFaithful_iff (hR : BinaryDatabase.Running p db c s) :
    (binaryEngine p).SnapshotFaithful p codec db c ↔ c = fun _ => none := by
  have hE := binaryEngine_transacts p
  obtain ⟨snapshot, hrun, hlen, hraw⟩ := binary_snapshot_eq hR
  constructor
  · rintro ⟨snapshot', db', hrun', hcontains, -⟩
    rw [hrun] at hrun'
    obtain ⟨rfl, rfl⟩ := EStateM.Result.ok.inj hrun'
    funext key
    have hkey : (Except.ok (none : Option Bytes).isSome : Except PyError Bool) = .ok (c key).isSome :=
      (Snapshot.contains_of_raw (hraw key)).symm.trans (hcontains key)
    simpa using hkey
  · rintro rfl
    refine ⟨snapshot, db, hrun, ?_, ?_, ?_, ?_⟩
    · exact fun key => Snapshot.contains_of_raw (hraw key)
    · exact fun key => Snapshot.getItem_of_raw (hraw key)
    · simp [hlen]
    · intro tx hbase _ e db' hcommit
      refine hE.no_conflict hR (fun entry _ => ?_) hcommit
      rw [Transaction.baseRaw, hbase]
      exact hraw entry.1

end Snapshots

/-! ## Faithfulness -/

/-- **Snapshots and transactions read the committed map with the B+ tree, and with the
binary tree only if that map is empty.**  In every state that calls and transactions
reach from a new database, for the map that its file has committed. -/
theorem snapshots_faithful_iff (p : Pickle α) (codec : Codec α V) (index : IndexName)
    {h : Opened (indexEngine p index)} (hreached : (indexEngine p index).Reached p codec h)
    {c : α → Option Bytes}
    (hc : (indexEngine p index).Serves ((indexEngine p index).disk h.state).live c) :
    (indexEngine p index).SnapshotFaithful p codec h.state c ↔ index = .bplus ∨ c = fun _ => none := by
  cases index with
  | bplus =>
    have hE := bplusEngine_transacts p.ext (by decide : 3 ≤ defaultOrder)
    obtain ⟨c', s, hR⟩ := hE.of_reached hreached
    obtain rfl := (hE.serves_iff hR).mp hc
    exact iff_of_true (bplus_snapshotFaithful hR) (.inl rfl)
  | binary =>
    have hE := binaryEngine_transacts p
    obtain ⟨c', s, hR⟩ := hE.of_reached hreached
    obtain rfl := (hE.serves_iff hR).mp hc
    refine (binary_snapshotFaithful_iff hR).trans ?_
    simp

theorem snapshots_faithful_sample :
    ∃ (h : Opened (indexEngine textPickle .bplus)) (c : Text → Option Bytes),
      (indexEngine textPickle .bplus).Reached textPickle bytesCodec h ∧
      (indexEngine textPickle .bplus).Serves ((indexEngine textPickle .bplus).disk h.state).live c ∧
      c ['k'] = some [7] ∧
      (indexEngine textPickle .bplus).SnapshotFaithful textPickle bytesCodec h.state c := by
  have hE := bplusEngine_transacts textPickle.ext (by decide : 3 ≤ defaultOrder)
  obtain ⟨b, hconnect, -⟩ := hE.implements.connect_new
  obtain ⟨b1, b2, hset, hcommit⟩ := bplus_sample_commit hconnect
  obtain ⟨hreached, c, hc, hR⟩ :=
    hE.reached_single textPickle bytesCodec rfl rfl hconnect hset hcommit
  have hserves := (hE.serves_iff hR).mpr rfl
  have hfaithful := snapshots_faithful_iff textPickle bytesCodec .bplus hreached hserves
  exact ⟨_, c, hreached, hserves, hc, hfaithful.mpr (.inl rfl)⟩

/-- With the binary tree a snapshot of one committed key is empty, and a transaction that
sets this key, alone on the database, raises `ConflictError`. -/
theorem binary_snapshots_miss_keys :
    ∃ (h : Opened (indexEngine textPickle .binary)) (c : Text → Option Bytes) (snapshot : Snapshot),
      (indexEngine textPickle .binary).Reached textPickle bytesCodec h ∧
      (indexEngine textPickle .binary).Serves ((indexEngine textPickle .binary).disk h.state).live c ∧
      c ['k'] = some [7] ∧
      (indexEngine textPickle .binary).snapshot h.state = .ok snapshot h.state ∧
      snapshot.contains textPickle.ext defaultOrder
        ((indexEngine textPickle .binary).disk h.state).live ['k'] = .ok false ∧
      snapshot.len = 0 ∧
      ∃ state, (indexEngine textPickle .binary).commitTransaction textPickle
        ⟨some snapshot, PyDict.empty.set ['k'] (some [8])⟩ h.state = .error .conflictError state := by
  have hE := binaryEngine_transacts textPickle
  obtain ⟨t, hconnect, -⟩ := hE.implements.connect_new
  obtain ⟨t1, t2, hset, hcommit⟩ := binary_sample_commit hconnect
  obtain ⟨hreached, c, hc, hR⟩ :=
    hE.reached_single textPickle bytesCodec rfl rfl hconnect hset hcommit
  obtain ⟨snapshot, hsnapshot, hlen, hraw⟩ := binary_snapshot_eq hR
  refine ⟨_, c, snapshot, hreached, (hE.serves_iff hR).mpr rfl, hc, hsnapshot,
    Snapshot.contains_of_raw (hraw ['k']), hlen, ?_⟩
  -- the base finds nothing where the handle finds the committed value
  obtain ⟨fresh, t3, t4, hlock, hrefresh, hR4, hdisk⟩ := hE.lockRefresh hR
  obtain ⟨t5, hcurrent, -⟩ := hE.currentValue_eq hR4 ['k']
  rw [hc] at hcurrent
  have hbase : Transaction.baseRaw textPickle.ext defaultOrder ((binaryEngine textPickle).disk t4).live
      ⟨some snapshot, PyDict.empty.set ['k'] (some [8])⟩ ['k'] = .ok none := by
    rw [hdisk]
    exact hraw ['k']
  exact Engine.conflict hlock hrefresh rfl hbase hcurrent (by simp)
