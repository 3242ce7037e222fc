/-
# Calls that raise

A call of the mapping takes the write lock before most of what can make it raise, and
only a commit that returns, or `close`, gives it back.  A call that raises therefore leaves
the handle as it was if the lock was held before, or if it raises before it takes the lock;
otherwise the handle keeps a lock that nobody asked for.
-/
import ImmuStore.FlushFaults
import ImmuStore.Serial

open Storage
open DBDB (validateKey)

variable {α V : Type} [LinearOrder α] {ext : Externals α} {codec : Codec α V} {order : ℕ}
  {m : Meta} {c s : α → Option Bytes} {db db' : Database α}
variable {E : PyError → Handle α → Prop}

/-! ## Reading -/

namespace Database

/-- The handle `db'` is `db` on the same file, with the same lock and the same view. -/
structure Rereads (ext : Externals α) (order : ℕ) (db : Database α) (s : α → Option Bytes)
    (db' : Database α) : Prop where
  sound : db'.Sound ext order
  views : db'.Views ext order s
  disk_eq : db'.disk = db.disk
  locked_eq : db'.locked = db.locked

theorem Rereads.refl (h : db.Sound ext order) (hv : db.Views ext order s) :
    Rereads ext order db s db :=
  ⟨h, hv, rfl, rfl⟩

theorem Rereads.trans {db'' : Database α} (h : Rereads ext order db s db')
    (h' : Rereads ext order db' s db'') : Rereads ext order db s db'' :=
  ⟨h'.sound, h'.views, h'.disk_eq.trans h.disk_eq, h'.locked_eq.trans h.locked_eq⟩

/-- The computation reads: whether it returns or raises, the handle views what it did. -/
structure Reading {β : Type} (ext : Externals α) (order : ℕ) (x : Py (Database α) β) :
    Prop where
  meets : ∀ {db : Database α} {s : α → Option Bytes}, db.Sound ext order → db.Views ext order s →
    Meets x db (fun _ => Rereads ext order db s) fun _ => Rereads ext order db s

namespace Reading

variable {β γ : Type}
variable {x : Py (Database α) β}

/-- Two reads in a row are a read. -/
theorem bind {k : β → Py (Database α) γ} (hx : Reading ext order x)
    (hk : ∀ b, Reading ext order (k b)) :
    Reading ext order (x >>= k) := by
  refine ⟨fun h hv => .bind ((hx.meets h hv).mono (fun b db1 hb => ?_) fun _ _ he => he)⟩
  exact ((hk b).meets hb.sound hb.views).mono (fun _ _ hc => hb.trans hc) fun _ _ hc => hb.trans hc

theorem map (k : β → γ) (hx : Reading ext order x) : Reading ext order (k <$> x) :=
  ⟨fun h hv => .map (hx.meets h hv)⟩

theorem pure (b : β) : Reading ext order (pure b) := ⟨fun h hv => .pure (.refl h hv)⟩

theorem ofExcept (x : Except PyError β) : Reading ext order (ofExcept x) :=
  ⟨fun h hv => .ofExcept (fun _ _ => .refl h hv) fun _ _ => .refl h hv⟩

/-- A test that may raise. -/
theorem ite (p : Prop) [Decidable p] (e : PyError) :
    Reading ext order (if p then Pure.pure () else throw e) := by
  refine ⟨fun h hv => ?_⟩
  split_ifs
  · exact .pure (.refl h hv)
  · exact .throw (.refl h hv)

theorem onKeyError {handler : Py (Database α) β} (hx : Reading ext order x)
    (hhandler : Reading ext order handler) : Reading ext order (onKeyError x handler) := by
  refine ⟨fun h hv => .onKeyError ((hx.meets h hv).mono (fun _ _ hend => hend) fun e db1 hend => ?_)⟩
  refine ⟨fun _ => ?_, fun _ => hend⟩
  exact (hhandler.meets hend.sound hend.views).mono (fun _ _ hc => hend.trans hc)
    fun _ _ hc => hend.trans hc

theorem get : Reading (α := α) ext order MonadState.get :=
  ⟨fun h hv => .of_ok rfl (.refl h hv)⟩

/-- A refresh is a read. -/
theorem refreshUnlocked : Reading ext order (Database.refreshUnlocked ext) := by
  refine ⟨fun h hv => ?_⟩
  obtain ⟨db', hrun, hturns⟩ := h.refreshUnlocked hv
  exact .of_ok hrun ⟨hturns.sound h, hturns.views_of_eq hv, hturns.disk_eq, hturns.locked_eq⟩

/-- So is a lookup, -/
theorem databaseGet (key : α) : Reading ext order (Database.get ext key) := by
  refine ⟨fun {db s} h hv => ?_⟩
  obtain ⟨db', hturns, hget⟩ := h.get hv key
  have hend : Rereads ext order db s db' :=
    ⟨hturns.sound h, hturns.views_of_eq hv, hturns.disk_eq, hturns.locked_eq⟩
  cases hkey : s key with
  | some value => exact .of_ok (by rw [hget, hkey]) hend
  | none => exact .of_error (by rw [hget, hkey]) hend

section

variable (codec)

theorem validateKey (key : α) :
    Reading ext order (validateKey codec key) := ite _ _

theorem validateBound (bound : Option α) :
    Reading ext order (DBDB.validateBound codec bound) := by
  cases bound with
  | none => exact pure ()
  | some key => exact validateKey codec key

theorem getItem (key : α) : Reading ext order (DBDB.getItem ext codec key) :=
  (validateKey codec key).bind fun _ => (databaseGet key).bind fun _ => ofExcept _

theorem getDefault (key : α) (default : V) :
    Reading ext order (DBDB.get ext codec key default) :=
  (getItem codec key).onKeyError (pure default)

/-- a scan, -/
theorem scan (pre start stop : Option α) :
    Reading ext order (DBDB.scan ext codec pre start stop) :=
  (validateBound codec pre).bind fun _ => (validateBound codec start).bind fun _ =>
    (validateBound codec stop).bind fun _ =>
      (refreshUnlocked.bind fun _ => get.bind fun _ => ofExcept _).bind fun _ => ofExcept _

/-- and the listing. -/
theorem items : Reading ext order (DBDB.items ext codec) :=
  (refreshUnlocked.bind fun _ => get.bind fun _ => pure _).bind fun _ => ofExcept _

end

end Reading

end Database

/-! ## The calls -/

/-- A call of a method of the mapping. -/
inductive MappingCall (α V : Type) where
  | getItem (key : α)
  | items
  | scan (pre start stop : Option α)
  | setItem (key : α) (value : V)
  | delItem (key : α)
  | updateValue (key : α) (updater : V → Except PyError V) (default : V)
  | commit (fault : Option FlushFault)

namespace MappingCall

/-- What the call does to the database of an open handle. -/
def body (ext : Externals α) (codec : Codec α V) :
    MappingCall α V → Py (Database α) Unit
  | .getItem key => (fun _ => ()) <$> DBDB.getItem ext codec key
  | .items => (fun _ => ()) <$> DBDB.items ext codec
  | .scan pre start stop => (fun _ => ()) <$> DBDB.scan ext codec pre start stop
  | .setItem key value => DBDB.setItem ext codec key value
  | .delItem key => DBDB.delItem ext codec key
  | .updateValue key updater default =>
    (fun _ => ()) <$> DBDB.updateValue ext codec key updater default
  | .commit fault => Database.commitUnder ext fault

/-- The call. -/
def run (ext : Externals α) (codec : Codec α V) (call : MappingCall α V) :
    Py (Handle α) Unit :=
  Handle.call (call.body ext codec)

omit [LinearOrder α] in
/-- The call takes the write lock before it can raise: `commit`, and the others that write
except `__setitem__`, which validates and encodes first; a key that is not valid is found
before the lock. -/
def LocksFirst (codec : Codec α V) : MappingCall α V → Prop
  | .delItem key => codec.validKey key = true
  | .updateValue key _ _ => codec.validKey key = true
  | .commit _ => True
  | _ => False

/-- What a call that raises leaves. -/
structure Raised (ext : Externals α) (codec : Codec α V) (order : ℕ) (db : Database α)
    (s : α → Option Bytes) (call : MappingCall α V) (e : PyError) (db' : Database α) : Prop where
  sound : db'.Sound ext order
  same : db.locked = true ∨ ¬ call.LocksFirst codec →
    db'.Views ext order s ∧ db'.locked = db.locked
  locks : call.LocksFirst codec → (∀ fault, call = .commit fault → e ≠ .structError) →
    db'.locked = true
  kept : (∀ e, call ≠ .commit (some (.metaFlush e))) →
    File.SameBelow db.disk.live.size db.disk.live db'.disk.live

variable {call : MappingCall α V} {e : PyError}

/-- A call that has only read. -/
theorem Raised.of_rereads (h : db.Rereads ext order s db') (hlocks : ¬ call.LocksFirst codec) :
    Raised ext codec order db s call e db' :=
  ⟨h.sound, fun _ => ⟨h.views, h.locked_eq⟩, fun hl => absurd hl hlocks,
    fun _ => h.disk_eq ▸ .refl le_rfl⟩

/-- A call that has taken the lock and staged nothing. -/
theorem Raised.of_turns (h : db.Turns ext order true s db') (hdb : db.Sound ext order)
    (hlocks : call.LocksFirst codec) : Raised ext codec order db s call e db' := by
  refine ⟨h.sound hdb, fun hl => ⟨h.views, ?_⟩, fun _ _ => h.locked_eq,
    fun _ => h.disk_eq ▸ .refl le_rfl⟩
  rcases hl with hl | hl
  · rw [h.locked_eq, hl]
  · exact absurd hlocks hl

section

variable (h : db.Sound ext order) (hv : db.Views ext order s)
include h hv

/-- An assignment that raises has changed nothing. -/
theorem setItem_meets (key : α) (value : V) :
    Meets (DBDB.setItem ext codec key value) db
      (fun _ db' => ∃ s', db.Turns ext order true s' db') fun _ db' => db' = db := by
  cases hvalid : codec.validKey key with
  | false => exact .of_error (DBDB.setItem_invalid hvalid) rfl
  | true =>
    cases hencode : codec.encode value with
    | error e => exact .of_error (DBDB.setItem_unencodable hvalid hencode) rfl
    | ok payload =>
      obtain ⟨db', hset, hturns⟩ := h.set hv key payload
      have hrun : DBDB.setItem ext codec key value db = .ok () db' := by
        simp [DBDB.setItem, validateKey, hvalid, hencode, hset]
      exact .of_ok hrun ⟨_, hturns⟩

/-- So has a deletion, -/
theorem delItem_meets (key : α) :
    Meets (DBDB.delItem ext codec key) db (fun _ db' => db'.Sound ext order)
      (Raised ext codec order db s (.delItem key)) := by
  cases hvalid : codec.validKey key with
  | false =>
    refine .of_error (DBDB.delItem_invalid hvalid) (.of_rereads (.refl h hv) ?_)
    simp [LocksFirst, hvalid]
  | true =>
    by_cases hkey : s key = none
    · obtain ⟨db', hdelete, hturns⟩ := h.delete_absent hv key hkey
      have hrun : DBDB.delItem ext codec key db = .error .keyError db' := by
        simp [DBDB.delItem, validateKey, hvalid, hdelete]
      exact .of_error hrun (.of_turns hturns h hvalid)
    · obtain ⟨db', hdelete, hturns⟩ := h.delete hv key hkey
      have hrun : DBDB.delItem ext codec key db = .ok () db' := by
        simp [DBDB.delItem, validateKey, hvalid, hdelete]
      exact .of_ok hrun (hturns.sound h)

/-- an update, -/
theorem updateValue_meets (key : α) (updater : V → Except PyError V) (default : V) :
    Meets (DBDB.updateValue ext codec key updater default) db (fun _ db' => db'.Sound ext order)
      (Raised ext codec order db s (.updateValue key updater default)) := by
  cases hvalid : codec.validKey key with
  | false =>
    have hrun : DBDB.updateValue ext codec key updater default db =
        .error .keyEncodingError db := by
      simp [DBDB.updateValue, validateKey, hvalid]
    refine .of_error hrun (.of_rereads (.refl h hv) ?_)
    simp [LocksFirst, hvalid]
  | true =>
    obtain ⟨db1, hlock, hturns⟩ := h.lockFresh hv
    -- once the lock is taken, nothing changes until the new value has been encoded
    have hraised : ∀ {e : PyError} {db2 : Database α}, db1.Rereads ext order s db2 →
        Raised ext codec order db s (.updateValue key updater default) e db2 := by
      intro e db2 hend
      have hl : db2.locked = true := hend.locked_eq.trans hturns.locked_eq
      exact .of_turns ⟨hend.disk_eq.trans hturns.disk_eq, hl, hend.views.locked hl⟩ h hvalid
    have hread := (Database.Reading.getDefault codec key default).meets (hturns.sound h)
      hturns.views
    have hvalidated : validateKey codec key db = .ok () db := by
      simp [validateKey, hvalid]
    refine .bind (.of_ok hvalidated ?_)
    refine .bind (.of_ok hlock ?_)
    refine .bind (hread.mono (fun current db2 hend => ?_) fun _ _ => hraised)
    refine .bind (.ofExcept (fun updated _ => ?_) fun _ _ => hraised hend)
    refine .bind ((setItem_meets hend.sound hend.views key updated).mono (fun _ db3 hset => ?_)
      fun _ db3 hsame => ?_)
    · obtain ⟨s', hturns'⟩ := hset
      exact .pure (hturns'.sound hend.sound)
    · subst hsame
      exact hraised hend

/-- and a commit. -/
theorem commit_meets (fault : Option FlushFault) :
    Meets (Database.commitUnder ext fault) db (fun _ db' => db'.Sound ext order)
      (Raised ext codec order db s (.commit fault)) := by
  obtain ⟨s0, hs0, hview⟩ : ∃ s0, Holding ext order db.disk.live db.tree s0 ∧
      (db.locked = true → s0 = s) := by
    cases hl : db.locked with
    | true => exact ⟨s, hv.locked hl, fun _ => rfl⟩
    | false =>
      obtain ⟨s0, hs0⟩ := h.holding
      exact ⟨s0, hs0, by simp⟩
  refine (Database.commitUnder_meets h hs0 fault).mono (fun _ _ hend => hend) fun e db' hend => ?_
  refine ⟨⟨hend.slots, s0, hend.holding⟩, fun hsame => ?_, fun _ hshort => ?_, fun hfault => ?_⟩
  · have hl : db.locked = true := hsame.resolve_right fun hnot => hnot trivial
    have hl' : db'.locked = true := hend.locked.elim id fun heq => heq.2.trans hl
    obtain rfl := hview hl
    exact ⟨⟨fun _ => hend.holding, by simp [hl']⟩, hl'.trans hl.symm⟩
  · exact hend.locked.resolve_right fun heq => hshort fault rfl heq.1
  · exact hend.kept fun e he => hfault e (by rw [he])

/-- Every call keeps the handle sound; one that raises leaves what `Raised` says. -/
theorem body_meets (call : MappingCall α V) :
    Meets (call.body ext codec) db (fun _ db' => db'.Sound ext order)
      (Raised ext codec order db s call) := by
  cases call with
  | getItem key =>
    exact .map (((Database.Reading.getItem codec key).meets h hv).mono (fun _ _ hend => hend.sound)
      fun _ _ hend => .of_rereads hend id)
  | items =>
    exact .map (((Database.Reading.items codec).meets h hv).mono (fun _ _ hend => hend.sound)
      fun _ _ hend => .of_rereads hend id)
  | scan pre start stop =>
    exact .map (((Database.Reading.scan codec pre start stop).meets h hv).mono
      (fun _ _ hend => hend.sound) fun _ _ hend => .of_rereads hend id)
  | setItem key value =>
    refine (setItem_meets h hv key value).mono (fun _ db' hend => ?_) fun e db' hend => ?_
    · obtain ⟨s', hturns⟩ := hend
      exact hturns.sound h
    · subst hend
      exact .of_rereads (.refl h hv) id
  | delItem key => exact delItem_meets h hv key
  | updateValue key updater default => exact .map (updateValue_meets h hv key updater default)
  | commit fault => exact commit_meets h hv fault

end

end MappingCall

/-! ## Runs -/

/-- `commit` of an overlay that is not empty, with a flush that may raise. -/
def Transaction.commitOverlayUnder (ext : Externals α) (fault : Option FlushFault)
    (tx : Transaction α) : Py (Database α) Unit := do
  let _ ← Database.lock
  andFinally (do
    Database.refresh ext
    tx.checkConflicts ext tx.overlay.entries
    applyOverlay ext tx.overlay.entries
    Database.commitUnder ext fault) fun db => { db with locked := false }

/-- `commit` of a transaction, with a flush that may raise. -/
def Transaction.commitUnder (ext : Externals α) (fault : Option FlushFault) (tx : Transaction α) :
    Py (Handle α) Unit :=
  andFinally (if tx.overlay.entries = [] then pure ()
    else Handle.onDatabase (tx.commitOverlayUnder ext fault)) tx.closeBase

variable (ext) (codec) (order) in
/-- The states of a handle that has been opened on a file with sound slots: after calls of
the mapping and commits of transactions, with flushes that raise, after snapshots are
taken and closed, and after `close`.  While the handle does not hold the lock, others may
write records and commit. -/
inductive Handle.Reached : Handle α → Prop
  | opened {d : Disk} {db : Database α} : Database.connect ext (.blank order d) = .ok () db →
      SoundSlots ext order db.disk.live → Reached (.ofDatabase db)
  | call {h : Handle α} (call : MappingCall α V) : Reached h →
      Reached (resultState (call.run ext codec h))
  | transaction {h : Handle α} (tx : Transaction α) (fault : Option FlushFault) :
      Reached h → Reached (resultState (tx.commitUnder ext fault h))
  | snapshot {h : Handle α} : Reached h →
      Reached (resultState (h.snapshot ext))
  | snapshotClosed {h : Handle α} : Reached h →
      Reached h.snapshotClosed
  | close {h : Handle α} : Reached h → Reached h.close
  | others {h : Handle α} {d : Disk} : Reached h → h.database.locked = false →
      SoundSlots ext order d.live →
      SameRecords h.database.disk.live.size h.database.disk.live d.live →
      Reached { h with database := { h.database with disk := d } }

/-! ### What every run keeps -/

theorem Transaction.checkConflicts_reading (tx : Transaction α) (entries : List (α × Option Bytes)) :
    Database.Reading ext order (tx.checkConflicts ext entries) := by
  induction entries with
  | nil => exact .pure ()
  | cons e entries ih =>
    obtain ⟨key, payload⟩ := e
    refine Database.Reading.get.bind fun _ => (Database.Reading.ofExcept _).bind fun _ => ?_
    refine (((Database.Reading.databaseGet key).map some).onKeyError (.pure none)).bind fun _ => ?_
    refine ⟨fun h hv => ?_⟩
    split_ifs
    · exact ih.meets h hv
    · exact .throw (.refl h hv)

/-- The overlay applies without an error. -/
theorem Transaction.applyOverlay_sound (h : db.Sound ext order)
    (entries : List (α × Option Bytes)) :
    ∃ db', applyOverlay ext entries db = .ok () db' ∧ db'.Sound ext order := by
  induction entries generalizing db with
  | nil => exact ⟨db, rfl, h⟩
  | cons e entries ih =>
    obtain ⟨key, payload⟩ := e
    obtain ⟨s, hv⟩ := h.views
    cases payload with
    | some value =>
      obtain ⟨db1, hset, hturns⟩ := h.set hv key value
      obtain ⟨db2, hrest, h2⟩ := ih (hturns.sound h)
      exact ⟨db2, by rw [applyOverlay, run_bind, hset]; exact hrest, h2⟩
    | none =>
      obtain ⟨db1, hdelete, h1⟩ : ∃ db1,
          onKeyError (Database.delete ext key) (pure ()) db = .ok () db1 ∧ db1.Sound ext order := by
        by_cases hkey : s key = none
        · obtain ⟨db1, hdelete, hturns⟩ := h.delete_absent hv key hkey
          exact ⟨db1, onKeyError_keyError hdelete, hturns.sound h⟩
        · obtain ⟨db1, hdelete, hturns⟩ := h.delete hv key hkey
          exact ⟨db1, onKeyError_ok hdelete, hturns.sound h⟩
      obtain ⟨db2, hrest, h2⟩ := ih h1
      exact ⟨db2, by rw [applyOverlay, run_bind, hdelete]; exact hrest, h2⟩

/-- `commit` of an overlay keeps the handle sound; it gives the lock back on every way
out. -/
theorem Transaction.commitOverlayUnder_sound (h : db.Sound ext order) (tx : Transaction α)
    (fault : Option FlushFault) :
    Meets (tx.commitOverlayUnder ext fault) db (fun _ db' => db'.Sound ext order)
      fun _ db' => db'.Sound ext order := by
  obtain ⟨m, c, hc⟩ := h.slots.committed
  obtain ⟨db0, hrefresh, hdisk, hwriting, -⟩ := Database.refresh_locked db hc h.order_eq
  have h0 : db0.Sound ext order := ⟨hdisk ▸ h.slots, c, hwriting.holding⟩
  have hview : db0.Views ext order c := ⟨fun _ => hwriting.holding, by simp [hwriting.locked]⟩
  refine .bind (.of_ok rfl (.cleanup (.bind (.of_ok hrefresh (.bind ?_)))))
  refine ((tx.checkConflicts_reading tx.overlay.entries).meets h0 hview).mono ?_
    fun _ db1 hend => ⟨hend.sound.slots, hend.sound.holding⟩
  intro _ db1 hend
  obtain ⟨db2, happly, h2⟩ := applyOverlay_sound hend.sound tx.overlay.entries
  obtain ⟨s, hs⟩ := h2.holding
  refine .bind (.of_ok happly ?_)
  exact (Database.commitUnder_meets h2 hs fault).mono (fun _ _ hend => ⟨hend.slots, hend.holding⟩)
    fun _ _ hend => ⟨hend.slots, s, hend.holding⟩

omit [LinearOrder α] in
/-- What an operation on the database does is done to the handle. -/
theorem Handle.onDatabase_meets {β : Type} {h : Handle α} {x : Py (Database α) β}
    {Q : β → Handle α → Prop} (hx : Meets x h.database (fun b db' => Q b { h with database := db' })
      fun e db' => E e { h with database := db' }) : Meets (Handle.onDatabase x) h Q E := by
  unfold Meets Handle.onDatabase
  cases hrun : x h.database with
  | ok b db' => exact hx.ok hrun
  | error e db' => exact hx.error hrun

omit [LinearOrder α] in
theorem Handle.call_meets {β : Type} {h : Handle α} {x : Py (Database α) β}
    {Q : β → Handle α → Prop} (hclosed : h.closed = true → E .databaseClosedError h)
    (hx : h.closed = false → Meets x h.database (fun b db' => Q b { h with database := db' })
      fun e db' => E e { h with database := db' }) : Meets (Handle.call x) h Q E := by
  cases hc : h.closed with
  | true =>
    refine .of_error ?_ (hclosed hc)
    simp [Handle.call, Handle.assertOpen, hc]
  | false =>
    rw [Meets, Handle.call_of_open hc]
    exact Handle.onDatabase_meets (hx hc)

/-- The tree of a handle that has just been opened. -/
theorem Database.holding_of_connect {d : Disk} (hrun : connect ext (blank order d) = .ok () db)
    (hc : Committed ext order db.disk.live m c) : Holding ext order db.disk.live db.tree c := by
  have horder : ¬ order < 3 := by
    have := order_ge_of_connect hrun
    omega
  cases hensure : ensureMeta ext.crc32 d with
  | error e d' => simp [connect, onDisk, blank, hensure] at hrun
  | ok m0 d' =>
    simp only [connect, onDisk, blank, run_bind, hensure, run_modify, run_get, horder, if_false]
      at hrun
    have hdisk : db.disk = d' := disk_eq_of_refresh hrun
    obtain ⟨t, hrefresh, hat⟩ :=
      refresh_spec ⟨d', m0, false, ⟨order, none, 0⟩⟩ (hdisk ▸ hc) rfl
    obtain rfl : _ = db := by simpa [hrefresh] using hrun
    exact hat.holding le_rfl hc

/-- The slots of a file that has just been made. -/
theorem Database.soundSlots_of_new (hrun : connect ext (blank order (.powerOn .empty)) = .ok () db) :
    SoundSlots ext order db.disk.live := by
  have horder := order_ge_of_connect hrun
  have hnot : ¬ order < 3 := by omega
  obtain ⟨d, hensure, hslots, -, hsize⟩ := ensureMeta_new ext.crc32
  simp only [connect, onDisk, blank, run_bind, hensure, run_modify, run_get, hnot, if_false] at hrun
  rw [disk_eq_of_refresh hrun]
  exact hslots.sound hsize.ge horder

namespace Handle

variable {h h' : Handle α}
variable {db db' : Database ℕ}

/-- Every state that is reached is sound. -/
theorem Reached.sound (hreach : h.Reached ext codec order) : h.database.Sound ext order := by
  induction hreach with
  | opened hrun hslots =>
    obtain ⟨m, c, hc⟩ := hslots.committed
    exact ⟨hslots, c, Database.holding_of_connect hrun hc⟩
  | call call _ ih =>
    obtain ⟨s, hv⟩ := ih.views
    refine Meets.resultState (P := fun h : Handle α => h.database.Sound ext order) ?_
    refine call_meets (fun _ => ih) fun _ => ?_
    exact (MappingCall.body_meets ih hv call).mono (fun _ _ hend => hend) fun _ _ hend => hend.sound
  | @transaction h tx fault _ ih =>
    have hbase : ∀ h : Handle α, (tx.closeBase h).database = h.database := by
      intro h
      unfold Transaction.closeBase
      cases tx.base with
      | none => rfl
      | some base => rfl
    refine Meets.resultState (P := fun h : Handle α => h.database.Sound ext order) (.cleanup ?_)
    simp only [hbase]
    split_ifs
    · exact .pure ih
    · exact onDatabase_meets (tx.commitOverlayUnder_sound ih fault)
  | @snapshot h _ ih =>
    cases hc : h.closed with
    | true => simpa [Handle.snapshot, Handle.assertOpen, hc] using ih
    | false =>
      obtain ⟨m, c, hcommitted⟩ := ih.slots.committed
      rw [Handle.snapshot_eq hc hcommitted]
      exact ⟨ih.slots, ih.holding⟩
  | snapshotClosed _ ih => exact ih
  | close _ ih => exact ⟨ih.slots, ih.holding⟩
  | others _ hl hslots hrecords ih =>
    obtain ⟨s, hs⟩ := ih.holding
    exact ⟨hslots, s, hs.mono hrecords⟩

/-! ## Calls that leave the handle as it was -/

/-- The staged map, as the handle reads it. -/
def view (ext : Externals α) (h : Handle α) (key : α) : Except PyError Bytes :=
  resultValue (Handle.call (Database.get ext key) h)

/-- The staged map and the ownership of the write lock are the same. -/
structure Keeps (ext : Externals α) (h h' : Handle α) : Prop where
  view_eq : ∀ key, h'.view ext key = h.view ext key
  locked_eq : h'.database.locked = h.database.locked

/-- The call cannot raise with a lock that it has taken itself: the handle is closed, or
holds the lock already, or the call raises before it takes it. -/
def HoldsLockFor (codec : Codec α V) (h : Handle α) (call : MappingCall α V) : Prop :=
  h.closed = true ∨ h.database.locked = true ∨ ¬ call.LocksFirst codec

theorem view_eq (hopen : h.closed = false) (hsound : h.database.Sound ext order)
    (hv : h.database.Views ext order s) (key : α) :
    h.view ext key = match s key with
      | some value => .ok value
      | none => .error .keyError := by
  obtain ⟨db', -, hget⟩ := hsound.get hv key
  rw [view, call_of_open hopen, onDatabase, hget]
  cases s key with
  | some value => rfl
  | none => rfl

/-- In every state of a handle that can be reached, a call that raises leaves the staged
map and the ownership of the lock as they were if and only if the handle was closed or
held the lock already, or the call raises before it takes the lock; a commit that raises
because a record is too long may also do so without it.  Only a failed flush of the meta
block changes what is committed. -/
theorem raising_call_keeps_handle_iff (ext : Externals α) (codec : Codec α V) (order : ℕ)
    {e : PyError} (hreach : h.Reached ext codec order) (call : MappingCall α V)
    (hrun : call.run ext codec h = .error e h') :
    (h.HoldsLockFor codec call → h.Keeps ext h') ∧
      ((∀ fault, call = .commit fault → e ≠ .structError) →
        (h.Keeps ext h' ↔ h.HoldsLockFor codec call)) ∧
      ((∀ e, call ≠ .commit (some (.metaFlush e))) → ∃ m c,
        Committed ext order h.database.disk.live m c ∧
          Committed ext order h'.database.disk.live m c) := by
  have hsound := hreach.sound
  obtain ⟨s, hv⟩ := hsound.views
  obtain ⟨m, c, hc⟩ := hsound.slots.committed
  cases hclosed : h.closed with
  | true =>
    obtain ⟨-, rfl⟩ : PyError.databaseClosedError = e ∧ h = h' := by
      simpa [MappingCall.run, Handle.call, Handle.assertOpen, hclosed] using hrun
    have hkeeps : h.Keeps ext h := ⟨fun _ => rfl, rfl⟩
    exact ⟨fun _ => hkeeps, fun _ => ⟨fun _ => .inl hclosed, fun _ => hkeeps⟩,
      fun _ => ⟨m, c, hc, hc⟩⟩
  | false =>
    obtain ⟨db', hbody, rfl⟩ : ∃ db', call.body ext codec h.database = .error e db' ∧
        { h with database := db' } = h' := by
      rw [MappingCall.run, call_of_open hclosed, onDatabase] at hrun
      cases hbody : call.body ext codec h.database with
      | ok b db' => simp [hbody] at hrun
      | error e' db' =>
        simp only [hbody, EStateM.Result.error.injEq] at hrun
        exact ⟨db', by rw [hrun.1], hrun.2⟩
    have hraised := (MappingCall.body_meets hsound hv call).error hbody
    have hkeeps : h.HoldsLockFor codec call → h.Keeps ext { h with database := db' } := by
      intro hholds
      obtain ⟨hv', hl⟩ := hraised.same (hholds.resolve_left (by simp [hclosed]))
      refine ⟨fun key => ?_, hl⟩
      rw [view_eq hclosed hsound hv]
      exact view_eq (h := { h with database := db' }) hclosed hraised.sound hv' key
    refine ⟨hkeeps, fun hshort => ⟨fun hsame => ?_, hkeeps⟩, fun hfault => ⟨m, c, hc, ?_⟩⟩
    · by_contra hnot
      have hlocks : call.LocksFirst codec := by
        by_contra hno
        exact hnot (.inr (.inr hno))
      exact hnot (.inr (.inl (hsame.locked_eq ▸ hraised.locks hlocks hshort)))
    · exact hc.sameBelow ((hraised.kept hfault).mono hc.le)

/-- A call that returns, of a handle that is open. -/
theorem run_ofDatabase (call : MappingCall ℕ Bytes)
    (h : call.body sampleExt sampleCodec db = .ok () db') :
    call.run sampleExt sampleCodec (ofDatabase db) = .ok () (ofDatabase db') := by
  simp [MappingCall.run, Handle.call, assertOpen, onDatabase, ofDatabase, h]

theorem setItem_sample {key : ℕ} {value : Bytes} (h : db.set sampleExt key value = .ok () db') :
    DBDB.setItem sampleExt sampleCodec key value db = .ok () db' := by
  simp [DBDB.setItem, validateKey, sampleCodec, h]

/-- A new handle on a new file. -/
theorem exists_new_handle : ∃ db : Database ℕ,
    (ofDatabase db).Reached sampleExt sampleCodec 64 ∧ db.locked = false ∧
      Committed sampleExt 64 db.disk.live initialMeta (fun _ => none) ∧
      db.Views sampleExt 64 fun _ => none := by
  obtain ⟨d, t, hnew, hc, -⟩ := Database.connect_new sampleExt (by decide : 3 ≤ 64)
  exact ⟨⟨d, initialMeta, false, t⟩, .opened hnew (Database.soundSlots_of_new hnew), rfl, hc,
    by simp, fun _ => ⟨initialMeta, hc⟩⟩

/-- A handle on a new file with one binding staged. -/
theorem exists_staged_handle : ∃ db : Database ℕ,
    (ofDatabase db).Reached sampleExt sampleCodec 64 ∧ db.locked = true ∧
      Committed sampleExt 64 db.disk.live initialMeta (fun _ => none) ∧
      db.Views sampleExt 64 sampleMap := by
  obtain ⟨db, hreach, -, hc, hv⟩ := exists_new_handle
  have hsound : db.Sound sampleExt 64 := hreach.sound
  obtain ⟨db1, hset, hturns⟩ := hsound.set hv 1 [7]
  have hnext := hreach.call (MappingCall.setItem 1 [7])
  rw [run_ofDatabase (.setItem 1 [7]) (setItem_sample hset)] at hnext
  exact ⟨db1, hnext, hturns.locked_eq, hturns.disk_eq ▸ hc, hturns.views⟩

/-- With a binding staged, `del` of another key raises and changes nothing. -/
theorem raising_call_keeps_handle_iff_sample : ∃ h h' : Handle ℕ,
    h.Reached sampleExt sampleCodec 64 ∧ h.database.locked = true ∧
      (MappingCall.delItem 2).run sampleExt sampleCodec h = .error .keyError h' ∧
      h.Keeps sampleExt h' := by
  obtain ⟨db, hreach, hlocked, -, hv⟩ := exists_staged_handle
  have hsound : db.Sound sampleExt 64 := hreach.sound
  obtain ⟨db', hdelete, -⟩ := hsound.delete_absent hv 2 (by simp [sampleMap, Update.applyTo])
  have hraises : (MappingCall.delItem 2).run sampleExt sampleCodec (ofDatabase db) =
      .error .keyError (ofDatabase db') := by
    simp [MappingCall.run, MappingCall.body, Handle.call, assertOpen, onDatabase, ofDatabase,
      DBDB.delItem, validateKey, sampleCodec, hdelete]
  have hkeeps := raising_call_keeps_handle_iff sampleExt sampleCodec 64 hreach (.delItem 2)
    hraises
  exact ⟨_, _, hreach, hlocked, hraises, hkeeps.1 (.inr (.inl hlocked))⟩

/-- On a handle that does not hold the lock, `del` of an absent key raises and leaves the
handle with the lock. -/
theorem delete_absent_takes_lock : ∃ h h' : Handle ℕ,
    h.Reached sampleExt sampleCodec 64 ∧
      (MappingCall.delItem 1).run sampleExt sampleCodec h = .error .keyError h' ∧
      h.database.locked = false ∧ h'.database.locked = true := by
  obtain ⟨db, hreach, hl, -, hv⟩ := exists_new_handle
  have hsound : db.Sound sampleExt 64 := hreach.sound
  obtain ⟨db1, hdelete, hturns⟩ := hsound.delete_absent hv 1 rfl
  refine ⟨ofDatabase db, ofDatabase db1, hreach, ?_, hl, hturns.locked_eq⟩
  simp [MappingCall.run, MappingCall.body, Handle.call, assertOpen, onDatabase, ofDatabase,
    DBDB.delItem, validateKey, sampleCodec, hdelete]

/-- **Reading changes nothing.**  In every state of a handle that can be reached,
`__getitem__`, `items` and `scan` leave the file, the lock and the staged map as they were,
whether they return or raise. -/
theorem reading_changes_nothing (ext : Externals α) (codec : Codec α V) (order : ℕ)
    (hreach : h.Reached ext codec order) (call : MappingCall α V)
    (hreads : call = .items ∨ (∃ key, call = .getItem key) ∨
      ∃ pre start stop, call = .scan pre start stop) :
    (resultState (call.run ext codec h)).database.disk = h.database.disk ∧
      h.Keeps ext (resultState (call.run ext codec h)) := by
  have hsound := hreach.sound
  obtain ⟨s, hv⟩ := hsound.views
  have hreading : Database.Reading ext order (call.body ext codec) := by
    rcases hreads with rfl | ⟨key, rfl⟩ | ⟨pre, start, stop, rfl⟩
    · exact (Database.Reading.items codec).map _
    · exact (Database.Reading.getItem codec key).map _
    · exact (Database.Reading.scan codec pre start stop).map _
  refine Meets.resultState (P := fun h' : Handle α =>
    h'.database.disk = h.database.disk ∧ h.Keeps ext h') ?_
  refine call_meets (fun _ => ⟨rfl, fun _ => rfl, rfl⟩) fun hopen => ?_
  have hend : ∀ db', h.database.Rereads ext order s db' →
      db'.disk = h.database.disk ∧ h.Keeps ext { h with database := db' } := by
    intro db' hrereads
    refine ⟨hrereads.disk_eq, fun key => ?_, hrereads.locked_eq⟩
    rw [view_eq hopen hsound hv]
    exact view_eq (h := { h with database := db' }) hopen hrereads.sound hrereads.views key
  exact (hreading.meets hsound hv).mono (fun _ => hend) fun _ => hend

theorem reading_changes_nothing_sample : ∃ h : Handle ℕ,
    h.Reached sampleExt sampleCodec 64 ∧ h.database.locked = true ∧
      h.database.Views sampleExt 64 sampleMap ∧
      h.Keeps sampleExt (resultState (MappingCall.items.run sampleExt sampleCodec h)) := by
  obtain ⟨db, hreach, hlocked, -, hv⟩ := exists_staged_handle
  exact ⟨_, hreach, hlocked, hv, (reading_changes_nothing _ _ _ hreach .items (.inl rfl)).2⟩

end Handle
