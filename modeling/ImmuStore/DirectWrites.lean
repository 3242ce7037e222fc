/-
# Direct writes and transactions on one handle

Direct writes are staged in the tree of the handle until `DBDB.commit`.  A transaction
that commits something reloads that tree first and releases the lock at its end, whoever
had taken it.  A direct write is therefore published by the next `DBDB.commit` as long as
no transaction commits in between; otherwise it may be gone.
-/
import ImmuStore.Serial

open Function Relation Storage
open Transaction (closeBase_database begin begin_eq)

variable {α V : Type} [LinearOrder α] {ext : Externals α} {codec : Codec α V} {order : ℕ}
  {f : File} {L : ℕ} {m : Meta} {b c s : α → Option Bytes}
variable {u : Update α Bytes}

/-! ## The model -/

/-- The key that an update is about. -/
def Update.key {ν : Type} : Update α ν → α
  | .set key _ => key
  | .delete key => key

/-- What the update asks for holds of the map. -/
def Update.PresentIn (c : α → Option Bytes) : Update α Bytes → Prop
  | .set key value => c key = some value
  | .delete key => c key = none

theorem Update.applyTo_of_ne {key : α} (h : key ≠ u.key) (s : α → Option Bytes) :
    u.applyTo s key = s key := by
  cases u with
  | set _ _ => exact update_of_ne h _ _
  | delete _ => exact update_of_ne h _ _

theorem Update.presentIn_applyTo (u : Update α Bytes) (s : α → Option Bytes) :
    u.PresentIn (u.applyTo s) := by
  cases u with
  | set key value => exact update_self _ _ _
  | delete key => exact update_self _ _ _

/-- What holds of a map still holds after an update of another key. -/
theorem Update.PresentIn.applyTo {w : Update α Bytes} (h : w.PresentIn s) (hne : u.key ≠ w.key) :
    w.PresentIn (u.applyTo s) := by
  cases w with
  | set key value => exact (Update.applyTo_of_ne (Ne.symm hne) s).trans h
  | delete key => exact (Update.applyTo_of_ne (Ne.symm hne) s).trans h

/-- A direct call on the handle. -/
inductive DirectCall (α V : Type) where
  | set (key : α) (value : V)
  | delete (key : α)
  | updateValue (key : α) (updater : V → Except PyError V) (default : V)

/-- A direct call, with the write that it has staged. -/
def DirectCall.run (ext : Externals α) (codec : Codec α V) :
    DirectCall α V → Py (Database α) (Update α Bytes)
  | .set key value => do
    DBDB.setItem ext codec key value
    let payload ← ofExcept (codec.encode value)
    return .set key payload
  | .delete key => do
    DBDB.delItem ext codec key
    return .delete key
  | .updateValue key updater default => do
    let updated ← DBDB.updateValue ext codec key updater default
    let payload ← ofExcept (codec.encode updated)
    return .set key payload

/-- A write on the handle: directly, or by a transaction that has committed. -/
structure LoggedWrite (α : Type) where
  direct : Bool
  update : Update α Bytes

/-- The writes of an overlay. -/
def Transaction.writes (tx : Transaction α) : List (LoggedWrite α) :=
  tx.overlay.entries.map fun e =>
    ⟨false, match e.2 with
      | none => .delete e.1
      | some payload => .set e.1 payload⟩

/-- A handle, the transactions begun on it, and the writes since the last `DBDB.commit`
that returned. -/
structure MixedStore (α : Type) where
  handle : Handle α
  txs : List (Transaction α)
  log : List (LoggedWrite α)

/-- A call on the handle or on one of its transactions. -/
inductive MixedCall (α V : Type) where
  | direct (call : DirectCall α V)
  | commit
  | begin
  | inTx (i : ℕ) (call : TxCall α V)
  | commitTx (i : ℕ)
  | abortTx (i : ℕ)

namespace MixedStore

variable {σ σ' : MixedStore α}
variable {log : List (LoggedWrite α)}

/-- The store of an open database. -/
def new (db : Database α) : MixedStore α := ⟨.ofDatabase db, [], []⟩

variable (ext) (codec) (order) in
/-- The calls, each of them as one step. -/
inductive Step :
    MixedStore α → MixedCall α V → MixedStore α → Prop
  | direct {σ : MixedStore α} {call : DirectCall α V} {u : Update α Bytes} {h : Handle α} :
      Handle.call (call.run ext codec) σ.handle = .ok u h →
      Step σ (.direct call) { σ with handle := h, log := σ.log ++ [⟨true, u⟩] }
  | directRaises {σ : MixedStore α} {call : DirectCall α V} {e : PyError} {h : Handle α} :
      Handle.call (call.run ext codec) σ.handle = .error e h →
      Step σ (.direct call) { σ with handle := h }
  | commit {σ : MixedStore α} {h : Handle α} :
      Handle.call (Database.commit ext) σ.handle = .ok () h →
      Step σ .commit { σ with handle := h, log := [] }
  | commitRaises {σ : MixedStore α} {e : PyError} {h : Handle α} :
      Handle.call (Database.commit ext) σ.handle = .error e h →
      Step σ .commit { σ with handle := h }
  | begin {σ : MixedStore α} {tx : Transaction α} {h : Handle α} :
      begin ext σ.handle = .ok tx h →
      Step σ .begin { σ with handle := h, txs := σ.txs ++ [tx] }
  | inTx {σ : MixedStore α} {i : ℕ} {tx : Transaction α} {call : TxCall α V} :
      σ.txs[i]? = some tx →
      Step σ (.inTx i call) { σ with
        txs := σ.txs.set i (tx.call ext codec order σ.handle.database.disk.live call).2 }
  | commitTx {σ : MixedStore α} {i : ℕ} {tx : Transaction α} {h : Handle α} :
      σ.txs[i]? = some tx → tx.commit ext σ.handle = .ok () h →
      Step σ (.commitTx i)
        ⟨h, σ.txs.set i tx.committed, σ.log ++ tx.writes⟩
  | commitTxRaises {σ : MixedStore α} {i : ℕ} {tx : Transaction α} {e : PyError} {h : Handle α} :
      σ.txs[i]? = some tx → tx.commit ext σ.handle = .error e h →
      Step σ (.commitTx i) { σ with handle := h, txs := σ.txs.set i tx.committed }
  | abortTx {σ : MixedStore α} {i : ℕ} {tx : Transaction α} : σ.txs[i]? = some tx →
      Step σ (.abortTx i) { σ with
        handle := tx.abort σ.handle
        txs := σ.txs.set i Transaction.aborted }

/-- Every direct write of the log that no later write of the log is about holds of the
map. -/
def Kept (log : List (LoggedWrite α)) (c : α → Option Bytes) : Prop :=
  ∀ before u after, log = before ++ ⟨true, u⟩ :: after →
    (∀ w ∈ after, w.update.key ≠ u.key) → u.PresentIn c

/-- No direct write is staged. -/
def NothingStaged (log : List (LoggedWrite α)) : Prop := ∀ w ∈ log, w.direct = false

/-- A step that is not the commit of a non-empty overlay while a direct write is
staged. -/
def CarefulStep (ext : Externals α) (codec : Codec α V) (order : ℕ) (σ σ' : MixedStore α) : Prop :=
  ∃ call, Step ext codec order σ call σ' ∧
    ∀ i tx, call = .commitTx i → σ.txs[i]? = some tx → tx.overlay.entries ≠ [] →
      NothingStaged σ.log

/-! ## The log -/

omit [LinearOrder α] in
theorem kept_of_nothingStaged (h : NothingStaged log) (c : α → Option Bytes) : Kept log c := by
  rintro before u after rfl -
  have := h ⟨true, u⟩ (by simp)
  cases this

/-- A direct write that is logged is staged on top of the others. -/
theorem Kept.append (h : Kept log s) (u : Update α Bytes) :
    Kept (log ++ [⟨true, u⟩]) (u.applyTo s) := by
  intro before w after heq hlast
  rcases List.eq_nil_or_concat after with rfl | ⟨after, x, rfl⟩
  · -- the write is the new one
    obtain ⟨-, hw⟩ := List.append_inj' heq rfl
    obtain rfl : u = w := by simpa using hw
    exact u.presentIn_applyTo s
  · have heq' : log ++ [⟨true, u⟩] = (before ++ ⟨true, w⟩ :: after) ++ [x] := by
      rw [heq]
      simp
    obtain ⟨hlog, hx⟩ := List.append_inj' heq' rfl
    obtain rfl : _ = x := by simpa using hx
    have hne : u.key ≠ w.key := hlast ⟨true, u⟩ (by simp)
    exact (h before w after hlog fun x hx => hlast x (by simp [hx])).applyTo hne

end MixedStore

/-! ## Direct calls -/

/-- A direct call stages its write, or raises and stages nothing; it may have taken the
lock by then. -/
theorem DirectCall.run_spec {db : Database α} (h : db.Attached ext order m c s)
    (call : DirectCall α V) :
    (∃ u db', call.run ext codec db = .ok u db' ∧ db'.disk = db.disk ∧
        db'.Writing ext order m c (u.applyTo s)) ∨
      ∃ e db', call.run ext codec db = .error e db' ∧
        (db' = db ∨ db'.disk = db.disk ∧ db'.Writing ext order m c s) := by
  cases call with
  | set key value =>
    cases hvalid : codec.validKey key with
    | false =>
      refine .inr ⟨.keyEncodingError, db, ?_, .inl rfl⟩
      rw [run, run_bind, DBDB.setItem_invalid hvalid]
    | true =>
      cases hencode : codec.encode value with
      | error e =>
        refine .inr ⟨e, db, ?_, .inl rfl⟩
        rw [run, run_bind, DBDB.setItem_unencodable hvalid hencode]
      | ok payload =>
        obtain ⟨db', hset, hdisk, hwriting⟩ := h.setItem hvalid hencode
        refine .inl ⟨.set key payload, db', ?_, hdisk, hwriting⟩
        simp [run, hset, hencode]
  | delete key =>
    cases hvalid : codec.validKey key with
    | false =>
      refine .inr ⟨.keyEncodingError, db, ?_, .inl rfl⟩
      rw [run, run_bind, DBDB.delItem_invalid hvalid]
    | true =>
      by_cases hkey : s key = none
      · obtain ⟨db', hdel, hdisk, hwriting⟩ := h.delItem_absent hvalid hkey
        exact .inr ⟨.keyError, db', by rw [run, run_bind, hdel], .inr ⟨hdisk, hwriting⟩⟩
      · obtain ⟨db', hdel, hdisk, hwriting⟩ := h.delItem hvalid hkey
        exact .inl ⟨.delete key, db', by rw [run, run_bind, hdel]; rfl, hdisk, hwriting⟩
  | updateValue key updater default =>
    cases hvalid : codec.validKey key with
    | false =>
      refine .inr ⟨.keyEncodingError, db, ?_, .inl rfl⟩
      simp [run, DBDB.updateValue, DBDB.validateKey, hvalid]
    | true =>
      obtain ⟨db1, hdisk1, hwriting1, hupdate⟩ :=
        DBDB.updateValue_spec h hvalid updater default
      cases hnew : (mapGet codec s key).onKeyError default >>= updater with
      | error e =>
        refine .inr ⟨e, db1, ?_, .inr ⟨hdisk1, hwriting1⟩⟩
        rw [run, run_bind, hupdate, hnew]
      | ok updated =>
        cases hencode : codec.encode updated with
        | error e =>
          refine .inr ⟨e, db1, ?_, .inr ⟨hdisk1, hwriting1⟩⟩
          simp [run, hupdate, hnew, DBDB.setItem_unencodable hvalid hencode]
        | ok payload =>
          obtain ⟨db2, hset, hdisk2, hwriting2⟩ := hwriting1.attached.setItem hvalid hencode
          refine .inl ⟨.set key payload, db2, ?_, hdisk2.trans hdisk1, hwriting2⟩
          simp [run, hupdate, hnew, hset, hencode]

/-! ## The invariant -/

namespace MixedStore

variable {σ σ' : MixedStore α}
variable {log : List (LoggedWrite α)} {h : Handle α}
variable {db : Database α} {s' : α → Option Bytes} {call : DirectCall α V} {e : PyError}
    {tx : Transaction α}

/-- The invariant of a run: `c` is committed, and the tree of the handle holds `s`. -/
structure Inv (ext : Externals α) (order : ℕ) (σ : MixedStore α) (m : Meta)
    (c s : α → Option Bytes) : Prop where
  committed : Committed ext order σ.handle.database.disk.live m c
  cached_eq : σ.handle.database.cached = m
  notClosed : σ.handle.closed = false
  holding : Holding ext order σ.handle.database.disk.live σ.handle.database.tree s
  kept : Kept σ.log s
  idle : σ.handle.database.locked = false → NothingStaged σ.log
  bases : ∀ tx ∈ σ.txs, ∀ base ∈ tx.base,
    ∃ b, base.Pins ext order σ.handle.database.disk.live m.dataLength b

section

variable (hinv : σ.Inv ext order m c s)
include hinv

/-- The map that a direct call works on: without the lock, the committed one. -/
theorem Inv.attached :
    ∃ s', σ.handle.database.Attached ext order m c s' ∧ Kept σ.log s' ∧ (s' = s ∨ s' = c) := by
  cases hlocked : σ.handle.database.locked with
  | true =>
    refine ⟨s, ⟨hinv.committed, hinv.holding.holds.order_eq, fun _ => ⟨hinv.cached_eq, hinv.holding⟩,
      ?_⟩, hinv.kept, .inl rfl⟩
    simp [hlocked]
  | false =>
    refine ⟨c, ⟨hinv.committed, hinv.holding.holds.order_eq, ?_, fun _ => rfl⟩,
      kept_of_nothingStaged (hinv.idle hlocked) c, .inr rfl⟩
    simp [hlocked]

/-- The invariant after a direct call that has taken the lock. -/
theorem Inv.writing (hdisk : db.disk = σ.handle.database.disk)
    (hwriting : db.Writing ext order m c s') (hkept : Kept log s') :
    Inv ext order { σ with handle := { σ.handle with database := db }, log := log } m c s' where
  committed := hwriting.committed
  cached_eq := hwriting.cached_eq
  notClosed := hinv.notClosed
  holding := hwriting.holding
  kept := hkept
  idle := fun hl => by simp [hwriting.locked] at hl
  bases := by
    change ∀ tx ∈ σ.txs, ∀ base ∈ tx.base, ∃ b, base.Pins ext order db.disk.live m.dataLength b
    rw [hdisk]
    exact hinv.bases

theorem Inv.direct {u : Update α Bytes}
    (hrun : Handle.call (call.run ext codec) σ.handle = .ok u h) :
    ∃ s', Inv ext order { σ with handle := h, log := σ.log ++ [⟨true, u⟩] } m c s' := by
  obtain ⟨s', hattached, hkept, -⟩ := hinv.attached
  rw [Handle.call_of_open hinv.notClosed, Handle.onDatabase] at hrun
  rcases call.run_spec hattached with ⟨u', db', hcall, hdisk, hwriting⟩ | ⟨e, db', hcall, -⟩
  · rw [hcall] at hrun
    cases hrun
    exact ⟨_, hinv.writing hdisk hwriting (hkept.append _)⟩
  · rw [hcall] at hrun
    cases hrun

theorem Inv.directRaises (hrun : Handle.call (call.run ext codec) σ.handle = .error e h) :
    ∃ s', Inv ext order { σ with handle := h } m c s' := by
  obtain ⟨s', hattached, hkept, -⟩ := hinv.attached
  rw [Handle.call_of_open hinv.notClosed, Handle.onDatabase] at hrun
  rcases call.run_spec hattached with ⟨u', db', hcall, -⟩ | ⟨e', db', hcall, hsame⟩
  · rw [hcall] at hrun
    cases hrun
  · rw [hcall] at hrun
    cases hrun
    rcases hsame with rfl | ⟨hdisk, hwriting⟩
    · exact ⟨s, hinv⟩
    · exact ⟨s', hinv.writing hdisk hwriting hkept⟩

/-- The open bases outlive what is appended. -/
theorem Inv.bases_mono {g : File} {m' : Meta}
    (hrecords : SameRecords m.dataLength σ.handle.database.disk.live g)
    (hle : m.dataLength ≤ m'.dataLength) (hsize : m'.dataLength ≤ g.size)
    {txs : List (Transaction α)}
    (htxs : ∀ tx ∈ txs, tx.base = none ∨ ∃ tx' ∈ σ.txs, tx.base = tx'.base) :
    ∀ tx ∈ txs, ∀ base ∈ tx.base, ∃ b, base.Pins ext order g m'.dataLength b := by
  intro tx htx base hbase
  rcases htxs tx htx with hnone | ⟨tx', htx', heq⟩
  · simp [hnone] at hbase
  · rw [heq] at hbase
    obtain ⟨b, hpins⟩ := hinv.bases tx' htx' base hbase
    exact ⟨b, hpins.mono hrecords hle hsize⟩

end

omit [LinearOrder α] in
theorem base_set {i : ℕ} (tx' : Transaction α) (hi : σ.txs[i]? = some tx)
    (hbase : tx'.base = none ∨ tx'.base = tx.base) :
    ∀ x ∈ σ.txs.set i tx', x.base = none ∨ ∃ y ∈ σ.txs, x.base = y.base := by
  intro x hx
  rcases List.mem_or_eq_of_mem_set hx with hx | rfl
  · exact .inr ⟨x, hx, rfl⟩
  · rcases hbase with hnone | hsame
    · exact .inl hnone
    · exact .inr ⟨tx, List.mem_of_getElem? hi, hsame⟩

theorem Inv.commit (hinv : σ.Inv ext order m c s)
    (hrun : Handle.call (Database.commit ext) σ.handle = .ok () h) :
    ∃ m', Inv ext order { σ with handle := h, log := [] } m' s s := by
  rw [Handle.call_of_open hinv.notClosed, Handle.onDatabase] at hrun
  have hc := hinv.cached_eq ▸ hinv.committed
  cases hcommit : Database.commit ext σ.handle.database with
  | error e db => simp [hcommit] at hrun
  | ok _ db =>
    rw [hcommit] at hrun
    cases hrun
    have hpub := Database.commit_published hc hinv.holding hcommit
    obtain ⟨hrecords, hgrown⟩ := hpub.records_of_le hinv.committed.le
    refine ⟨db.cached, hpub.committed, rfl, hinv.notClosed,
      hpub.atMeta.holding hpub.committed.le hpub.committed,
      kept_of_nothingStaged (by simp [NothingStaged]) s, by simp [NothingStaged], ?_⟩
    exact hinv.bases_mono hrecords hgrown hpub.committed.le fun tx htx => .inr ⟨tx, htx, rfl⟩

theorem Inv.commitRaises (hinv : σ.Inv ext order m c s)
    (hrun : Handle.call (Database.commit ext) σ.handle = .error e h) :
    Inv ext order { σ with handle := h } m c s := by
  rw [Handle.call_of_open hinv.notClosed, Handle.onDatabase] at hrun
  have hc := hinv.cached_eq ▸ hinv.committed
  cases hcommit : Database.commit ext σ.handle.database with
  | ok _ db => simp [hcommit] at hrun
  | error e' db =>
    rw [hcommit] at hrun
    cases hrun
    obtain ⟨hcached, hholding, hsame, hcases⟩ := Database.commit_raised hc hinv.holding hcommit
    have hbelow := hsame.mono hinv.committed.le
    have hc' := hinv.committed.sameBelow hbelow
    refine ⟨hc', hcached.trans hinv.cached_eq, hinv.notClosed, hholding, hinv.kept, ?_, ?_⟩
    · intro hunlocked
      have hunlocked : db.locked = false := hunlocked
      rcases hcases with hl | ⟨hl, -⟩
      · simp [hl] at hunlocked
      · exact hinv.idle (hl ▸ hunlocked)
    · exact hinv.bases_mono (.of_sameBelow hbelow) le_rfl hc'.le
        fun tx htx => .inr ⟨tx, htx, rfl⟩

theorem Inv.begin (hinv : σ.Inv ext order m c s)
    (hrun : begin ext σ.handle = .ok tx h) :
    Inv ext order { σ with handle := h, txs := σ.txs ++ [tx] } m c s := by
  rw [begin_eq hinv.notClosed hinv.committed] at hrun
  cases hrun
  refine ⟨hinv.committed, rfl, hinv.notClosed, hinv.holding, hinv.kept, hinv.idle, ?_⟩
  intro tx htx base hbase
  rcases List.mem_append.mp htx with htx | htx
  · exact hinv.bases tx htx base hbase
  · obtain rfl := List.mem_singleton.mp htx
    obtain rfl : _ = base := by simpa using hbase
    exact ⟨c, .of_committed hinv.committed⟩

variable {i : ℕ} {tx : Transaction α}

section

variable (hinv : σ.Inv ext order m c s)
include hinv

theorem Inv.inTx (hi : σ.txs[i]? = some tx) (call : TxCall α V) :
    Inv ext order { σ with
      txs := σ.txs.set i (tx.call ext codec order σ.handle.database.disk.live call).2 } m c s :=
  { hinv with
    bases := hinv.bases_mono ⟨hinv.committed.le, fun _ _ _ => rfl⟩ le_rfl hinv.committed.le
      (base_set _ hi (.inr (Transaction.call_base call))) }

/-- Closing a base changes nothing but the number of open snapshots. -/
theorem Inv.close (hi : σ.txs[i]? = some tx) {tx' : Transaction α} (hclosed : tx'.base = none) :
    Inv ext order { σ with handle := tx.closeBase σ.handle, txs := σ.txs.set i tx' } m c s where
  committed := by
    rw [closeBase_database]
    exact hinv.committed
  cached_eq := by
    rw [closeBase_database]
    exact hinv.cached_eq
  notClosed := by
    rw [Transaction.closeBase_closed]
    exact hinv.notClosed
  holding := by
    rw [closeBase_database]
    exact hinv.holding
  kept := hinv.kept
  idle := by
    rw [closeBase_database]
    exact hinv.idle
  bases := by
    rw [closeBase_database]
    exact hinv.bases_mono ⟨hinv.committed.le, fun _ _ _ => rfl⟩ le_rfl hinv.committed.le
      (base_set _ hi (.inl hclosed))

/-- The invariant after a commit of a transaction while no direct write was staged. -/
theorem Inv.reloaded (db : Database α) {m' : Meta} {c' : α → Option Bytes}
    (hc : Committed ext order db.disk.live m' c') (hcached : db.cached = m')
    (hholding : Holding ext order db.disk.live db.tree s')
    (hrecords : SameRecords m.dataLength σ.handle.database.disk.live db.disk.live)
    (hle : m.dataLength ≤ m'.dataLength) (hnothing : NothingStaged log) :
    Inv ext order { σ with handle := { σ.handle with database := db }, log := log } m' c' s' where
  committed := hc
  cached_eq := hcached
  notClosed := hinv.notClosed
  holding := hholding
  kept := kept_of_nothingStaged hnothing s'
  idle := fun _ => hnothing
  bases := hinv.bases_mono hrecords hle hc.le fun tx htx => .inr ⟨tx, htx, rfl⟩

theorem Inv.outcome (hi : σ.txs[i]? = some tx) (hsome : tx.overlay.entries ≠ []) :
    ∃ b, tx.Outcome ext order σ.handle.database m b c (tx.commitOverlay ext σ.handle.database) := by
  have horder := hinv.holding.holds.order_eq
  cases hbase : tx.base with
  | none =>
    have hpins : ∀ base ∈ tx.base, base.Pins ext order σ.handle.database.disk.live 0 c := by
      simp [hbase]
    exact ⟨c, Transaction.commitOverlay_spec hinv.committed horder hsome hpins⟩
  | some base =>
    obtain ⟨b, hpins⟩ := hinv.bases tx (List.mem_of_getElem? hi) base hbase
    refine ⟨b, Transaction.commitOverlay_spec (L := m.dataLength) hinv.committed horder hsome ?_⟩
    intro base' hmem
    obtain rfl : base = base' := by simpa [hbase] using hmem
    exact hpins

end

omit [LinearOrder α] in
theorem nothingStaged_writes (h : NothingStaged log) (tx : Transaction α) :
    NothingStaged (log ++ tx.writes) := by
  intro w hw
  rcases List.mem_append.mp hw with hw | hw
  · exact h w hw
  · obtain ⟨e, -, rfl⟩ := List.mem_map.mp hw
    rfl

section

variable (hinv : σ.Inv ext order m c s) (hi : σ.txs[i]? = some tx)
    (hcareful : tx.overlay.entries ≠ [] → NothingStaged σ.log)
include hinv hi hcareful

theorem Inv.commitTx (hrun : tx.commit ext σ.handle = .ok () h) :
    ∃ m' c' s', Inv ext order ⟨h, σ.txs.set i tx.committed, σ.log ++ tx.writes⟩ m' c' s' := by
  by_cases hempty : tx.overlay.entries = []
  · rw [Transaction.commit_of_empty _ hempty] at hrun
    cases hrun
    rw [Transaction.writes, hempty, List.map_nil, List.append_nil]
    exact ⟨m, c, s, hinv.close hi rfl⟩
  · rw [Transaction.commit_of_ne _ hempty] at hrun
    obtain ⟨b, houtcome⟩ := hinv.outcome hi hempty
    generalize tx.commitOverlay ext σ.handle.database = result at hrun houtcome
    cases houtcome with
    | refused => cases hrun
    | failed => cases hrun
    | @published db1 db2 _ _ hwriting hdisk hpub =>
      cases hrun
      obtain ⟨hrecords, hgrown⟩ := hpub.records_of_le hwriting.committed.le
      rw [hdisk] at hrecords
      have hreloaded := hinv.reloaded db2 hpub.committed rfl
        (hpub.atMeta.holding hpub.committed.le hpub.committed) hrecords hgrown
        (nothingStaged_writes (hcareful hempty) tx)
      exact ⟨_, _, _, hreloaded.close hi rfl⟩

theorem Inv.commitTxRaises (hrun : tx.commit ext σ.handle = .error e h) :
    ∃ s', Inv ext order { σ with handle := h, txs := σ.txs.set i tx.committed } m c s' := by
  by_cases hempty : tx.overlay.entries = []
  · rw [Transaction.commit_of_empty _ hempty] at hrun
    cases hrun
  · rw [Transaction.commit_of_ne _ hempty] at hrun
    obtain ⟨b, houtcome⟩ := hinv.outcome hi hempty
    generalize tx.commitOverlay ext σ.handle.database = result at hrun houtcome
    cases houtcome with
    | published => cases hrun
    | @refused _ t _ hat =>
      cases hrun
      have hreloaded := hinv.reloaded ⟨_, m, false, t⟩ hinv.committed rfl
        (hat.holding le_rfl hinv.committed)
        ⟨hinv.committed.le, fun _ _ _ => rfl⟩ le_rfl (hcareful hempty)
      exact ⟨_, hreloaded.close hi rfl⟩
    | @failed _ db1 db2 _ _ hwriting hdisk hcommit =>
      cases hrun
      obtain ⟨hcached, hholding, hsame, -⟩ := Database.commit_raised
        (hwriting.cached_eq ▸ hwriting.committed) hwriting.holding hcommit
      rw [hdisk] at hsame
      have hbelow := hsame.mono hinv.committed.le
      have hreloaded := hinv.reloaded { db2 with locked := false } (hinv.committed.sameBelow hbelow)
        (hcached.trans hwriting.cached_eq) hholding (.of_sameBelow hbelow) le_rfl
        (hcareful hempty)
      exact ⟨_, hreloaded.close hi rfl⟩

end

/-- One step keeps the invariant. -/
theorem CarefulStep.inv (hstep : CarefulStep ext codec order σ σ') (hinv : σ.Inv ext order m c s) :
    ∃ m' c' s', σ'.Inv ext order m' c' s' := by
  obtain ⟨call, hstep, hcareful⟩ := hstep
  cases hstep with
  | direct hrun => exact ⟨m, c, hinv.direct hrun⟩
  | directRaises hrun => exact ⟨m, c, hinv.directRaises hrun⟩
  | commit hrun =>
    obtain ⟨m', hinv'⟩ := hinv.commit hrun
    exact ⟨m', s, s, hinv'⟩
  | commitRaises hrun => exact ⟨m, c, s, hinv.commitRaises hrun⟩
  | begin hrun => exact ⟨m, c, s, hinv.begin hrun⟩
  | inTx hi => exact ⟨m, c, s, hinv.inTx hi _⟩
  | commitTx hi hrun => exact hinv.commitTx hi (hcareful _ _ rfl hi) hrun
  | commitTxRaises hi hrun =>
    exact ⟨m, c, hinv.commitTxRaises hi (hcareful _ _ rfl hi) hrun⟩
  | abortTx hi => exact ⟨m, c, s, hinv.close hi rfl⟩

theorem inv_of_run {db0 : Database α}
    (hnew : Database.connect ext (.blank order (.powerOn .empty)) = .ok () db0)
    (hdb : ReflTransGen (Session.Step ext order)
      (.running db0 (fun _ => none) fun _ => none) (.running db c s))
    (hrun : ReflTransGen (CarefulStep ext codec order) (new db) σ) :
    ∃ m c s, σ.Inv ext order m c s := by
  induction hrun with
  | refl =>
    have hrunning : db.Running ext order c s := Session.inv_of_run hnew hdb
    exact ⟨db.cached, c, s, hrunning.safe.committed, rfl, rfl, hrunning.holding,
      kept_of_nothingStaged (by simp [new, NothingStaged]) s, by simp [new, NothingStaged],
      by simp [new]⟩
  | tail _ hstep ih =>
    obtain ⟨m, c, s, hinv⟩ := ih
    exact hstep.inv hinv

/-! ## A run with a transaction -/

/-- A transaction begins on an empty file, binds 1 and commits. -/
theorem run_sampleTx {n : ℕ} (db : Database ℕ) (log : List (LoggedWrite ℕ))
    (hc : Committed sampleExt 64 db.disk.live initialMeta fun _ => none)
    (horder : db.tree.order = 64) (hd : Roomy sampleExt 64 (n + 1) db.disk) :
    ∃ db1 db2, ReflTransGen
        (fun σ σ' => ∃ call, Step sampleExt sampleCodec 64 σ call σ' ∧ σ.log = log)
        ⟨⟨db, false, 0⟩, [], log⟩
        ⟨⟨db2, false, 0⟩, [(sampleTx 1).committed], log ++ [⟨false, .set 1 [7]⟩]⟩ ∧
      db1.cached = initialMeta ∧ Database.Published sampleExt 64 db1 db2 sampleMap ∧
      Roomy sampleExt 64 n db2.disk := by
  set db' : Database ℕ := { db with cached := initialMeta }
  obtain ⟨db1, db2, hcommit, -, hcached, hpub, hroom⟩ := sampleTx_commits 1 ⟨db', false, 1⟩
    hc horder (.of_committed hc) rfl (by decide) (few_empty _) hd
  have hbegin : Step sampleExt sampleCodec 64 ⟨⟨db, false, 0⟩, [], log⟩ .begin _ :=
    .begin (begin_eq (h := ⟨db, false, 0⟩) rfl hc)
  have hsteps := ((ReflTransGen.single (r := fun σ σ' => ∃ call,
    Step sampleExt sampleCodec 64 σ call σ' ∧ σ.log = log) ⟨_, hbegin, rfl⟩).tail
    ⟨.inTx 0 (.set 1 [7]), .inTx rfl, rfl⟩).tail ⟨.commitTx 0, .commitTx rfl hcommit, rfl⟩
  exact ⟨db1, db2, hsteps, hcached, hpub, hroom⟩

/-- A direct write of the sample handle. -/
theorem direct_sample {m : Meta} {c s : ℕ → Option Bytes} (db : Database ℕ)
    (h : db.Attached sampleExt 64 m c s) (txs : List (Transaction ℕ))
    (log : List (LoggedWrite ℕ)) (key : ℕ) (value : Bytes) :
    ∃ db', Step sampleExt sampleCodec 64 ⟨⟨db, false, 0⟩, txs, log⟩ (.direct (.set key value))
        ⟨⟨db', false, 0⟩, txs, log ++ [⟨true, .set key value⟩]⟩ ∧ db'.disk = db.disk ∧
      db'.Writing sampleExt 64 m c (Update.applyTo s (.set key value)) := by
  have hvalid : sampleCodec.validKey key = true := rfl
  have hencode : sampleCodec.encode value = .ok value := rfl
  obtain ⟨db', hset, hdisk, hwriting⟩ := h.setItem hvalid hencode
  refine ⟨db', .direct ?_, hdisk, hwriting⟩
  have hrun : DirectCall.run sampleExt sampleCodec (.set key value) db =
      .ok (.set key value) db' := by
    rw [DirectCall.run, run_bind, hset]
    rfl
  rw [Handle.call_of_open rfl, Handle.onDatabase, hrun]

/-! ## Staged writes are published -/

/-- **Direct writes are published as long as no transaction commits over them.**  In any
run in which no transaction commits a non-empty overlay while a direct write is staged,
`DBDB.commit` publishes every direct write since the one before it that was not
overwritten or deleted later. -/
theorem direct_writes_published (ext : Externals α) (codec : Codec α V) (order : ℕ)
    {db0 db : Database α}
    (hnew : Database.connect ext (.blank order (.powerOn .empty)) = .ok () db0)
    (hdb : ReflTransGen (Session.Step ext order)
      (.running db0 (fun _ => none) fun _ => none) (.running db c s))
    (hrun : ReflTransGen (CarefulStep ext codec order) (new db) σ) {h : Handle α}
    (hcommit : Handle.call (Database.commit ext) σ.handle = .ok () h) :
    ∃ c', h.database.Serves ext c' ∧ Kept σ.log c' := by
  obtain ⟨m, c, s, hinv⟩ := inv_of_run hnew hdb hrun
  obtain ⟨m', hinv'⟩ := hinv.commit hcommit
  obtain ⟨s', hattached, -, hs'⟩ := hinv'.attached
  obtain rfl : s' = s := hs'.elim id id
  exact ⟨_, hattached.serves, hinv.kept⟩

theorem direct_writes_published_sample :
    ∃ (db0 : Database ℕ) (σ : MixedStore ℕ) (h : Handle ℕ),
      Database.connect sampleExt (.blank 64 (.powerOn .empty)) = .ok () db0 ∧
      ReflTransGen (CarefulStep sampleExt sampleCodec 64) (new db0) σ ∧
      σ.log = [⟨false, .set 1 [7]⟩, ⟨true, .set 2 [9]⟩] ∧
      Handle.call (Database.commit sampleExt) σ.handle = .ok () h ∧
      ∃ c, h.database.Serves sampleExt c ∧ c 2 = some [9] := by
  obtain ⟨d, t, hnew, hc, hat, -, hsize⟩ :=
    Database.connect_new sampleExt (by decide : 3 ≤ 64)
  -- a transaction commits, then a direct write is staged
  obtain ⟨db1, db2, hrun, -, hpub, hroom⟩ :=
    run_sampleTx ⟨d, initialMeta, false, t⟩ [] hc hat.order_eq (roomy_new hc hsize)
  have hcareful : ReflTransGen (CarefulStep sampleExt sampleCodec 64)
      (new ⟨d, initialMeta, false, t⟩) _ :=
    hrun.lift id fun σ σ' ⟨call, hstep, hlog⟩ =>
      ⟨call, hstep, fun _ _ _ _ _ => hlog ▸ by simp [NothingStaged]⟩
  obtain ⟨db3, hdirect, hdisk, hwriting⟩ := direct_sample db2
    (.of_unlocked hpub.committed hpub.atMeta.order_eq hpub.unlocked) [(sampleTx 1).committed]
    [⟨false, .set 1 [7]⟩] 2 [9]
  have hsteps := hcareful.tail ⟨_, hdirect, fun _ _ hcall => by cases hcall⟩
  have hfew : Few [1, 2] (Update.applyTo sampleMap (.set 2 [9])) :=
    few_sampleMap.update (by decide) (by decide)
  obtain ⟨db4, hcommit, -⟩ := Database.commit_short (hwriting.cached_eq ▸ hwriting.committed)
    hwriting.holding hfew.short_sample (hdisk ▸ hroom)
  have hend : Handle.call (Database.commit sampleExt) (⟨db3, false, 0⟩ : Handle ℕ) =
      .ok () ⟨db4, false, 0⟩ := by
    rw [Handle.call_of_open rfl, Handle.onDatabase, hcommit]
  obtain ⟨c, hserves, hkept⟩ :=
    direct_writes_published sampleExt sampleCodec 64 hnew .refl hsteps hend
  exact ⟨_, _, _, hnew, hsteps, rfl, hend, c, hserves,
    hkept [⟨false, .set 1 [7]⟩] (.set 2 [9]) [] rfl (by simp)⟩

/-! ## A lost write

A direct write is staged; a transaction that has nothing to do with its key commits; the
write is gone when the handle commits. -/

/-- **A transaction that commits drops what is staged.** -/
theorem transaction_drops_direct_write :
    ∃ (db0 : Database ℕ) (σ : MixedStore ℕ) (h : Handle ℕ),
      Database.connect sampleExt (.blank 64 (.powerOn .empty)) = .ok () db0 ∧
      ReflTransGen (fun σ σ' => ∃ call, Step sampleExt sampleCodec 64 σ call σ')
        (new db0) σ ∧
      σ.log = [⟨true, .set 2 [9]⟩, ⟨false, .set 1 [7]⟩] ∧
      Handle.call (Database.commit sampleExt) σ.handle = .ok () h ∧
      ∃ c, h.database.Serves sampleExt c ∧ c 2 = none := by
  obtain ⟨d, t, hnew, hc, hat, -, hsize⟩ :=
    Database.connect_new sampleExt (by decide : 3 ≤ 64)
  obtain ⟨db1, hdirect, hdisk, hwriting⟩ := direct_sample ⟨d, initialMeta, false, t⟩
    (.of_unlocked hc hat.order_eq rfl) [] [] 2 [9]
  obtain rfl : db1.disk = d := hdisk
  obtain ⟨db2, db3, hrun, hcached, hpub, -⟩ := run_sampleTx db1 [⟨true, .set 2 [9]⟩] hwriting.committed
    hwriting.holding.holds.order_eq (roomy_new hc hsize)
  have hsteps : ReflTransGen
      (fun σ σ' => ∃ call, Step sampleExt sampleCodec 64 σ call σ') _ _ :=
    hrun.lift id fun _ _ h => h.imp fun _ => And.left
  -- the handle commits
  obtain ⟨db4, hagain, hpub', -⟩ := hpub.commit_again (by
    rw [hpub.succeeds.txnId, hcached]
    decide)
  have hend : Handle.call (Database.commit sampleExt) (⟨db3, false, 0⟩ : Handle ℕ) =
      .ok () ⟨db4, false, 0⟩ := by
    rw [Handle.call_of_open rfl, Handle.onDatabase, hagain]
  have hserves : db4.Serves sampleExt sampleMap :=
    (Database.Attached.of_unlocked hpub'.committed hpub'.atMeta.order_eq hpub'.unlocked).serves
  exact ⟨_, _, _, hnew, (ReflTransGen.single ⟨_, hdirect⟩).trans hsteps, rfl, hend, _,
    hserves, rfl⟩

end MixedStore
