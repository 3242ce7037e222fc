/-
# The record layer (`physical.py`)

A `Storage` by itself: it appends records and publishes a root address, whatever the
records hold and wherever the address points.  A run opens it again and again, after it was
closed or after a crash, and keeps beside it which records a commit has covered and which
are newer.  With the policy `full` a crash may come anywhere; with `none` nothing is
promised of a crash, and a run has none.
-/
import ImmuStore.RecordTable
import ImmuStore.Recovery

open Relation Storage

/-! ## The model -/

/-- `DURABILITY_MODES`. -/
inductive Durability where
  | full
  | none
  deriving DecidableEq, Repr

/-- The disk after a flush, if the policy asks for one. -/
def Durability.flushed : Durability → Disk → Disk
  | .full, d => d.push .flush
  | .none, d => d

@[simp] theorem Durability.live_flushed (durability : Durability) (d : Disk) :
    (durability.flushed d).live = d.live := by
  cases durability with
  | full => exact Disk.live_flush d
  | none => rfl

/-- `if self._durability == DURABILITY_FULL: self.flush()`. -/
def Durability.flush (durability : Durability) : Py Disk Unit :=
  modify durability.flushed

/-- A `Storage`: its file, the meta block it caches, and whether it holds the lock. -/
structure OpenStorage where
  disk : Disk
  cached : Meta
  locked : Bool

namespace OpenStorage

variable (crc32 : Bytes → ℕ) (durability : Durability)

/-- The recovery of `_ensure_meta` on an existing file. -/
def recover : Py Disk Meta := do
  let d ← MonadState.get
  let m ← ofExcept (readBestMeta crc32 d.live)
  if m.dataLength < d.live.size then
    modify (·.push (.truncate m.dataLength))
    durability.flush
  return m

/-- `__init__`. -/
def init : Py Disk OpenStorage := do
  let d ← MonadState.get
  let m ← if d.live.size < superblockSize then initMeta crc32 else recover crc32 durability
  let d ← MonadState.get
  return ⟨d, m, false⟩

/-- An operation on the file. -/
def onDisk {β : Type} (x : Py Disk β) : Py OpenStorage β := fun s =>
  match x s.disk with
  | .ok b d => .ok b { s with disk := d }
  | .error e d => .error e { s with disk := d }

/-- A field of the adopted meta block, which is cached. -/
def adopt {β : Type} (field : Meta → β) : Py OpenStorage β := do
  let s ← MonadState.get
  let m ← ofExcept (readBestMeta crc32 s.disk.live)
  modify fun s => { s with cached := m }
  return field m

/-- `get_root_address`. -/
def getRootAddress : Py OpenStorage ℕ := adopt crc32 Meta.rootAddress

/-- `get_key_count`. -/
def getKeyCount : Py OpenStorage ℤ := adopt crc32 Meta.keyCount

/-- `get_txn_id`. -/
def getTxnId : Py OpenStorage ℕ := adopt crc32 Meta.txnId

/-- The meta block that `commit_root_address` writes. -/
def nextMeta (s : OpenStorage) (rootAddress : ℕ) (keyCount : ℤ) : Meta :=
  ⟨s.cached.txnId + 1, rootAddress, keyCount, s.disk.live.size, 1 - s.cached.slot⟩

/-- `commit_root_address`. -/
def commitRootAddress (rootAddress : ℕ) (keyCount : ℤ) : Py OpenStorage Unit := do
  modify fun s => { s with locked := true }
  onDisk durability.flush
  let s ← MonadState.get
  let newMeta := s.nextMeta rootAddress keyCount
  onDisk (writeSlot crc32 newMeta.slot newMeta)
  onDisk durability.flush
  modify fun s => { s with cached := newMeta }
  modify fun s => { s with locked := false }

/-- `write`. -/
def write (payload : Bytes) : Py OpenStorage ℕ := onDisk (Storage.write crc32 payload)

/-- `read`. -/
def read (s : OpenStorage) (address : ℕ) : Except PyError Bytes :=
  Storage.read crc32 s.disk.live address

/-- `count_records`. -/
def countRecords (s : OpenStorage) : Except PyError ℕ := Storage.countRecords s.disk.live

end OpenStorage

namespace OpenStorage

variable {crc32 : Bytes → ℕ} {durability : Durability}

/-- `commit_root_address`: a flush, the other slot, a flush. -/
theorem commitRootAddress_eq (crc32 : Bytes → ℕ) (durability : Durability) (rootAddress : ℕ)
    (keyCount : ℤ) (s : OpenStorage) :
    commitRootAddress crc32 durability rootAddress keyCount s =
      match metaBlock crc32 (s.nextMeta rootAddress keyCount) with
      | .error e => .error e { s with disk := durability.flushed s.disk, locked := true }
      | .ok block => .ok () ⟨durability.flushed ((durability.flushed s.disk).push
            (.write ((1 - s.cached.slot) * metaSlotSize) block)),
          s.nextMeta rootAddress keyCount, false⟩ := by
  have hnext : ({ s with disk := durability.flushed s.disk, locked := true } : OpenStorage).nextMeta
      rootAddress keyCount = s.nextMeta rootAddress keyCount := by
    simp [nextMeta]
  have hslot : (s.nextMeta rootAddress keyCount).slot = 1 - s.cached.slot := rfl
  unfold commitRootAddress
  cases hblock : metaBlock crc32 (s.nextMeta rootAddress keyCount) with
  | error e => simp [onDisk, Durability.flush, writeSlot, hnext, hblock]
  | ok block => simp [onDisk, Durability.flush, writeSlot, hnext, hslot, hblock]

end OpenStorage

/-- The storage of a handle. -/
def Database.storage {α : Type} (db : Database α) : OpenStorage := ⟨db.disk, db.cached, db.locked⟩

/-- `commit_root_address` of a handle is that of its storage. -/
theorem Database.commitRootAddress_storage {α : Type} (ext : Externals α) (rootAddress : ℕ)
    (keyCount : ℤ) (db : Database α) :
    Database.commitRootAddress ext rootAddress keyCount db =
      match db.storage.commitRootAddress ext.crc32 .full rootAddress keyCount with
      | .ok () s => .ok () { db with disk := s.disk, cached := s.cached, locked := s.locked }
      | .error e s => .error e { db with disk := s.disk, cached := s.cached, locked := s.locked } := by
  have hnext : db.storage.nextMeta rootAddress keyCount = db.nextMeta rootAddress keyCount := rfl
  rw [Database.commitRootAddress_eq, OpenStorage.commitRootAddress_eq, hnext]
  cases metaBlock ext.crc32 (db.nextMeta rootAddress keyCount) with
  | error e => rfl
  | ok block => rfl

/-- Opening a storage with the policy `full` is what opening a handle begins with. -/
theorem OpenStorage.init_full (crc32 : Bytes → ℕ) (d : Disk) :
    OpenStorage.init crc32 .full d = match ensureMeta crc32 d with
      | .ok m d' => .ok ⟨d', m, false⟩ d'
      | .error e d' => .error e d' := by
  by_cases hsmall : d.live.size < superblockSize
  · simp only [init, ensureMeta, run_bind, run_get, if_pos hsmall]
    cases initMeta crc32 d with
    | ok m d' => rfl
    | error e d' => rfl
  · simp only [init, ensureMeta, run_bind, run_get, if_neg hsmall, OpenStorage.recover,
      Storage.recover]
    cases readBestMeta crc32 d.live with
    | error e => rfl
    | ok m =>
      by_cases hlong : m.dataLength < d.live.size
      · simp [hlong, Durability.flush, Durability.flushed]
      · simp [hlong]

/-! ## Runs -/

/-- What a commit publishes, with its transaction id. -/
structure CommitArgs where
  rootAddress : ℕ
  keyCount : ℤ
  txnId : ℕ
  deriving DecidableEq, Repr

/-- What a meta block says. -/
def Storage.Meta.args (m : Meta) : CommitArgs := ⟨m.rootAddress, m.keyCount, m.txnId⟩

/-- What an observer of an open storage knows: what was committed last, the records that
a commit has followed and those written since, with their addresses, the number of records
that `count_records` found when the storage was opened, and how many were written since. -/
structure RecordLog where
  last : CommitArgs
  kept : List (ℕ × Bytes)
  recent : List (ℕ × Bytes)
  found : ℕ
  written : ℕ

/-- A storage that is open, or a file with what may be found in it: what was committed last,
and the records that a commit has followed. -/
inductive RecordSite where
  | running (s : OpenStorage) (log : RecordLog)
  | down (f : File) (possible : Set CommitArgs) (kept : List (ℕ × Bytes))

namespace RecordSite

variable (crc32) (durability) in
/-- The steps of a run. -/
inductive Step : RecordSite → RecordSite → Prop
  | write {s s' : OpenStorage} {log : RecordLog} {payload : Bytes} {address : ℕ} :
      s.write crc32 payload = .ok address s' →
      Step (.running s log) (.running s' { log with
        recent := log.recent ++ [(address, payload)]
        written := log.written + 1 })
  | adopt {s : OpenStorage} {log : RecordLog} : Step (.running s log)
      (.running (resultState (s.getRootAddress crc32)) log)
  | commit {s s' : OpenStorage} {log : RecordLog} {rootAddress : ℕ} {keyCount : ℤ} :
      s.commitRootAddress crc32 durability rootAddress keyCount = .ok () s' →
      Step (.running s log) (.running s' { log with
        last := ⟨rootAddress, keyCount, log.last.txnId + 1⟩
        kept := log.kept ++ log.recent
        recent := [] })
  | commitRaises {s s' : OpenStorage} {log : RecordLog} {rootAddress : ℕ} {keyCount : ℤ}
      {e : PyError} : s.commitRootAddress crc32 durability rootAddress keyCount = .error e s' →
      Step (.running s log) (.running s' log)
  | close {s : OpenStorage} {log : RecordLog} :
      Step (.running s log) (.down s.disk.live {log.last} log.kept)
  | crash {s : OpenStorage} {log : RecordLog} {f : File} : durability = .full →
      s.disk.Crashed (TornSlotFails crc32) f →
      Step (.running s log) (.down f {log.last} log.kept)
  | crashInWrite {s : OpenStorage} {log : RecordLog} {payload : Bytes} {d : Disk} {f : File} :
      durability = .full → s.disk.Later d →
      d.Later (resultState (s.write crc32 payload)).disk → d.Crashed (TornSlotFails crc32) f →
      Step (.running s log) (.down f {log.last} log.kept)
  | crashInCommit {s : OpenStorage} {log : RecordLog} {rootAddress : ℕ} {keyCount : ℤ} {d : Disk}
      {f : File} : durability = .full → s.disk.Later d →
      d.Later (resultState (s.commitRootAddress crc32 durability rootAddress keyCount)).disk →
      d.Crashed (TornSlotFails crc32) f →
      Step (.running s log)
        (.down f {log.last, ⟨rootAddress, keyCount, log.last.txnId + 1⟩} log.kept)
  | reopen {f : File} {possible : Set CommitArgs} {kept : List (ℕ × Bytes)} {s : OpenStorage}
      {d : Disk} {found : ℕ} : OpenStorage.init crc32 durability (.powerOn f) = .ok s d →
      s.countRecords = .ok found →
      Step (.down f possible kept) (.running s ⟨s.cached.args, kept, [], found, 0⟩)
  | crashInRecovery {f g : File} {possible : Set CommitArgs} {kept : List (ℕ × Bytes)} {d : Disk} :
      durability = .full → (Disk.powerOn f).Later d →
      d.Later (resultState (OpenStorage.init crc32 durability (.powerOn f))) →
      d.Crashed (TornSlotFails crc32) g →
      Step (.down f possible kept) (.down g possible kept)

end RecordSite

/-! ## The invariant -/

/-- The file has committed `m`; the records below its length are `l`, with those of `kept`
among them. -/
structure Tabled (crc32 : Bytes → ℕ) (m : Meta) (l kept : List (ℕ × Bytes)) (f : File) : Prop where
  adopted : Adopted crc32 f m
  records : Records crc32 f superblockSize l m.dataLength
  le : m.dataLength ≤ f.size
  kept : ∀ r ∈ kept, r ∈ l

section Tabled

variable {crc32 : Bytes → ℕ} {durability : Durability} {m m' : Meta} {f g : File}
  {l l' kept : List (ℕ × Bytes)} {d d' : Disk}

theorem Tabled.size_ge (h : Tabled crc32 m l kept f) : superblockSize ≤ f.size :=
  h.records.le.trans h.le

theorem Tabled.below (crc32 : Bytes → ℕ) (m : Meta) (l kept : List (ℕ × Bytes)) :
    Disk.Below m.dataLength (Tabled crc32 m l kept) := by
  refine ⟨fun h => h.le, fun h hfg => ?_⟩
  exact ⟨h.adopted.sameBelow hfg h.records.le, h.records.congr le_rfl (.of_sameBelow hfg),
    hfg.le_right, h.kept⟩

section

variable (h : Tabled crc32 m l kept f)
include h

/-- Every record that a commit has followed can be read. -/
theorem Tabled.read_eq {r : ℕ × Bytes} (hr : r ∈ kept) :
    Storage.read crc32 f r.1 = .ok r.2 :=
  (h.records.recordAt le_rfl h.le r (h.kept r hr)).read_eq

/-- `count_records`, in a file that ends with its commit. -/
theorem Tabled.countRecords_eq (hsize : f.size = m.dataLength) :
    Storage.countRecords f = .ok l.length := by
  have hrecords := h.records
  rw [← hsize] at hrecords
  exact hrecords.countRecords_eq

/-- While the other slot is being overwritten the commit stays what it is. -/
theorem Tabled.torn (hfg : SameButSlot (1 - m.slot) f g)
    (htorn : readSlot crc32 g (1 - m.slot) = .ok none ∨
      readSlot crc32 g (1 - m.slot) = readSlot crc32 f (1 - m.slot)) : Tabled crc32 m l kept g := by
  have hrecords := hfg.sameRecords (by omega)
  have hle : m.dataLength ≤ g.size := h.le.trans hfg.size_eq.ge
  refine ⟨h.adopted.torn rfl hfg htorn, h.records.congr le_rfl ?_, hle, h.kept⟩
  exact ⟨hle, fun i hi hi' => hrecords.byte_eq i hi (hi'.trans_le h.le)⟩

/-- A complete slot write commits all the records of the file. -/
theorem Tabled.publish (htail : Records crc32 f m.dataLength l' f.size) (hsucc : m'.Succeeds m)
    (hlen : m'.dataLength = f.size) {block : Bytes} (hblock : metaBlock crc32 m' = .ok block)
    (hfg : SameButSlot m'.slot f g) (hnew : g.At (m'.slot * metaSlotSize) block)
    (recent : List (ℕ × Bytes)) (hrecent : ∀ r ∈ recent, r ∈ l') : Tabled crc32 m' (l ++ l') (kept ++ recent) g := by
  have hslot : m'.slot < 2 := by
    have := hsucc.slot
    omega
  refine ⟨h.adopted.succ hsucc hfg (readSlot_of_at hblock hnew), ?_, ?_, fun r hr => ?_⟩
  · rw [hlen]
    exact (h.records.append htail).congr le_rfl (hfg.sameRecords hslot)
  · rw [hlen, hfg.size_eq]
  · rcases List.mem_append.mp hr with hr | hr
    · exact List.mem_append_left _ (h.kept r hr)
    · exact List.mem_append_right _ (hrecent r hr)

end

end Tabled

/-- Whatever a crash leaves, one of the possible commits is found in it, with all the
records of `kept`. -/
def CrashFinds (crc32 : Bytes → ℕ) (possible : Set CommitArgs) (kept : List (ℕ × Bytes)) (d : Disk) :
    Prop :=
  ∀ f, d.Crashed (TornSlotFails crc32) f → ∃ m l, m.args ∈ possible ∧ Tabled crc32 m l kept f

/-- The log of an open storage is true: `l` are the records below the length of its last
commit, `l'` those behind. -/
structure OpenStorage.Tracks (crc32 : Bytes → ℕ) (durability : Durability) (s : OpenStorage)
    (log : RecordLog) (l l' : List (ℕ × Bytes)) : Prop where
  tabled : Tabled crc32 s.cached l log.kept s.disk.live
  tail : Records crc32 s.disk.live s.cached.dataLength l' s.disk.live.size
  recent : ∀ r ∈ log.recent, r ∈ l'
  count : l.length + l'.length = log.found + log.written
  last : log.last = s.cached.args
  guarded : durability = .full → s.disk.Guarded s.cached.dataLength

/-- The invariant of a run. -/
def RecordSite.Inv (crc32 : Bytes → ℕ) (durability : Durability) : RecordSite → Prop
  | .running s log => ∃ l l', s.Tracks crc32 durability log l l'
  | .down f possible kept => ∃ m l, m.args ∈ possible ∧ Tabled crc32 m l kept f

namespace OpenStorage.Tracks

variable {crc32 : Bytes → ℕ} {durability : Durability} {s s' : OpenStorage} {log : RecordLog}
  {l l' : List (ℕ × Bytes)} {payload : Bytes} {address rootAddress : ℕ} {keyCount : ℤ}
  {possible : Set CommitArgs}

theorem secure (h : s.Tracks crc32 durability log l l') (hfull : durability = .full) :
    s.disk.Secure s.cached.dataLength (Tabled crc32 s.cached l log.kept) :=
  ⟨h.tabled, h.guarded hfull⟩

theorem crashFinds_of_secure {d : Disk} {m : Meta} {kept : List (ℕ × Bytes)}
    (h : d.Secure m.dataLength (Tabled crc32 m l kept)) (hm : m.args ∈ possible) :
    CrashFinds crc32 possible kept d := fun _ hf =>
  ⟨m, l, hm, h.crashed (Tabled.below crc32 m l kept) hf⟩

/-! ### Writing -/

section

variable (h : s.Tracks crc32 durability log l l')
include h

theorem write (hrun : s.write crc32 payload = .ok address s') :
    s'.Tracks crc32 durability { log with
      recent := log.recent ++ [(address, payload)]
      written := log.written + 1 } l (l' ++ [(address, payload)]) := by
  obtain ⟨d, hwrite, rfl⟩ : ∃ d, Storage.write crc32 payload s.disk = .ok address d ∧
      { s with disk := d } = s' := by
    rw [OpenStorage.write, onDisk] at hrun
    cases hwrite : Storage.write crc32 payload s.disk with
    | error e d => simp [hwrite] at hrun
    | ok a d =>
      simp only [hwrite, EStateM.Result.ok.injEq] at hrun
      exact ⟨d, by rw [hrun.1], hrun.2⟩
  obtain ⟨rfl, happ, hrecord⟩ := write_records h.tabled.size_ge hwrite
  have hsame := happ.sameBelow
  refine ⟨?_, ?_, fun r hr => ?_, ?_, h.last, fun hfull => ?_⟩
  · exact (Tabled.below _ _ _ _).congr h.tabled (hsame.mono h.tabled.le)
  · exact (h.tail.congr h.tabled.records.le (.of_sameBelow hsame)).append hrecord
  · rcases List.mem_append.mp hr with hr | hr
    · exact List.mem_append_left _ (h.recent r hr)
    · exact List.mem_append_right _ hr
  · have := h.count
    simp only [List.length_append, List.length_singleton]
    omega
  · exact ((h.secure hfull).appends (Tabled.below _ _ _ _) happ d happ.later (.refl d)).guarded

/-- A crash during a write leaves the last commit. -/
theorem write_crashFinds (hfull : durability = .full) (payload : Bytes) : s.disk.Throughout (CrashFinds crc32 {log.last} log.kept)
      (resultState (s.write crc32 payload)).disk := by
  have hfinds : ∀ d : Disk, d.Secure s.cached.dataLength (Tabled crc32 s.cached l log.kept) →
      CrashFinds crc32 {log.last} log.kept d :=
    fun d hd => crashFinds_of_secure hd h.last.symm
  rw [OpenStorage.write, onDisk]
  rcases write_spec crc32 payload s.disk h.tabled.size_ge with ⟨d, hwrite, happ, -⟩ | ⟨e, hwrite⟩
  · rw [hwrite]
    exact ((h.secure hfull).appends (Tabled.below _ _ _ _) happ).mono hfinds
  · rw [hwrite]
    exact .refl (hfinds _ (h.secure hfull))

/-! ### Committing -/

theorem commit (hrun : s.commitRootAddress crc32 durability rootAddress keyCount = .ok () s') :
    s'.Tracks crc32 durability { log with
      last := ⟨rootAddress, keyCount, log.last.txnId + 1⟩
      kept := log.kept ++ log.recent
      recent := [] } (l ++ l') [] := by
  rw [commitRootAddress_eq] at hrun
  cases hblock : metaBlock crc32 (s.nextMeta rootAddress keyCount) with
  | error e => simp [hblock] at hrun
  | ok block =>
    simp only [hblock] at hrun
    cases hrun
    obtain ⟨-, -, -, -, hlen⟩ := metaBlock_ok hblock
    have hsame := sameButSlot_write (by omega : 1 - s.cached.slot < 2) h.tabled.size_ge hlen.le
    have hpub : Tabled crc32 (s.nextMeta rootAddress keyCount) (l ++ l') (log.kept ++ log.recent)
        (s.disk.live.write ((1 - s.cached.slot) * metaSlotSize) block) :=
      h.tabled.publish h.tail ⟨rfl, rfl⟩ rfl hblock hsame (File.at_write _ _ _) _ h.recent
    refine ⟨?_, ?_, by simp, ?_, ?_, fun hfull => ?_⟩
    · simpa using hpub
    · simp only [Durability.live_flushed, Disk.live_write, hsame.size_eq]
      exact .nil _
    · simpa using h.count
    · rw [h.last]
      rfl
    · subst hfull
      exact .flush (by simpa [Durability.flushed] using hpub.le)

theorem commitRaises {e : PyError}
    (hrun : s.commitRootAddress crc32 durability rootAddress keyCount = .error e s') :
    s'.Tracks crc32 durability log l l' := by
  rw [commitRootAddress_eq] at hrun
  cases hblock : metaBlock crc32 (s.nextMeta rootAddress keyCount) with
  | ok block => simp [hblock] at hrun
  | error e' =>
    simp only [hblock] at hrun
    cases hrun
    refine ⟨by simpa using h.tabled, by simpa using h.tail, h.recent, h.count, h.last,
      fun hfull => ?_⟩
    subst hfull
    exact .flush h.tabled.le

end

/-- Wherever a commit is interrupted, the file has the last commit or the one that was
being made. -/
theorem commit_crashFinds (h : s.Tracks crc32 .full log l l') (rootAddress : ℕ) (keyCount : ℤ) :
    s.disk.Throughout
      (CrashFinds crc32 {log.last, ⟨rootAddress, keyCount, log.last.txnId + 1⟩} log.kept)
      (resultState (s.commitRootAddress crc32 .full rootAddress keyCount)).disk := by
  have hold : ∀ d : Disk, d.Secure s.cached.dataLength (Tabled crc32 s.cached l log.kept) →
      CrashFinds crc32 {log.last, ⟨rootAddress, keyCount, log.last.txnId + 1⟩} log.kept d :=
    fun d hd => crashFinds_of_secure hd (.inl h.last.symm)
  have hflush : s.disk.Throughout
      (CrashFinds crc32 {log.last, ⟨rootAddress, keyCount, log.last.txnId + 1⟩} log.kept)
      (s.disk.push .flush) :=
    .push (hold _ (h.secure rfl)) (hold _ (.flush h.tabled (Tabled.below _ _ _ _)))
  rw [commitRootAddress_eq]
  cases hblock : metaBlock crc32 (s.nextMeta rootAddress keyCount) with
  | error e => exact hflush
  | ok block =>
    have hnew : (s.nextMeta rootAddress keyCount).args ∈
        ({log.last, ⟨rootAddress, keyCount, log.last.txnId + 1⟩} : Set CommitArgs) := by
      right
      rw [h.last]
      rfl
    obtain ⟨-, -, -, -, hlen⟩ := metaBlock_ok hblock
    have hpublish : ∀ {g : File}, SameButSlot (1 - s.cached.slot) s.disk.live g →
        g.At ((1 - s.cached.slot) * metaSlotSize) block →
        Tabled crc32 (s.nextMeta rootAddress keyCount) (l ++ l') log.kept g := by
      intro g hsame hat
      simpa using h.tabled.publish h.tail ⟨rfl, rfl⟩ rfl hblock hsame hat [] (by simp)
    have hslot : CrashFinds crc32 {log.last, ⟨rootAddress, keyCount, log.last.txnId + 1⟩} log.kept
        ((s.disk.push .flush).push (.write ((1 - s.cached.slot) * metaSlotSize) block)) := by
      intro f hf
      obtain ⟨hsame, hfound⟩ := crashed_slot (by omega) hlen h.tabled.size_ge hf
      rcases hfound with hsaved | hat | hnone
      · exact ⟨_, l, .inl h.last.symm, h.tabled.torn hsame (.inr hsaved)⟩
      · exact ⟨_, l ++ l', hnew, hpublish hsame hat⟩
      · exact ⟨_, l, .inl h.last.symm, h.tabled.torn hsame (.inl hnone)⟩
    have hsame := sameButSlot_write (by omega : 1 - s.cached.slot < 2) h.tabled.size_ge hlen.le
    have hafter : CrashFinds crc32 {log.last, ⟨rootAddress, keyCount, log.last.txnId + 1⟩} log.kept
        (((s.disk.push .flush).push (.write ((1 - s.cached.slot) * metaSlotSize) block)).push
          .flush) := by
      refine crashFinds_of_secure (.flush ?_ (Tabled.below _ _ (l ++ l') _)) hnew
      rw [Disk.live_write, Disk.live_flush]
      exact hpublish hsame (File.at_write _ _ _)
    have hwrite := hflush.trans (.push (hflush _ (Disk.later_push _ _) (.refl _)) hslot)
      (Disk.later_push _ _) (Disk.later_push _ _)
    exact hwrite.trans (.push hslot hafter) ((Disk.later_push _ _).trans (Disk.later_push _ _))
      (Disk.later_push _ _)

end OpenStorage.Tracks

/-! ### Opening -/

section Opening

variable {crc32 : Bytes → ℕ} {durability : Durability} {m : Meta} {f : File}
  {l kept : List (ℕ × Bytes)}

/-- Recovery cuts off what lies beyond the adopted commit. -/
theorem OpenStorage.init_eq {d : Disk} (durability : Durability)
    (hsize : superblockSize ≤ d.live.size) (hbest : readBestMeta crc32 d.live = .ok m) :
    OpenStorage.init crc32 durability d =
      if m.dataLength < d.live.size then
        .ok ⟨durability.flushed (d.push (.truncate m.dataLength)), m, false⟩
          (durability.flushed (d.push (.truncate m.dataLength)))
      else .ok ⟨d, m, false⟩ d := by
  simp only [init, run_bind, run_get, if_neg hsize.not_gt, recover, hbest, ofExcept_ok]
  split_ifs
  · rfl
  · rfl

/-- Opening a file cuts off what no commit has followed. -/
theorem OpenStorage.init_spec (h : Tabled crc32 m l kept f) (durability : Durability) :
    ∃ d, OpenStorage.init crc32 durability (.powerOn f) = .ok ⟨d, m, false⟩ d ∧
      Tabled crc32 m l kept d.live ∧ d.live.size = m.dataLength ∧
      (durability = .full → (Disk.powerOn f).Later d ∧
        Disk.Throughout (Disk.Secure m.dataLength (Tabled crc32 m l kept)) (.powerOn f) d) := by
  have hbelow := Tabled.below crc32 m l kept
  have hopened : Disk.Secure m.dataLength (Tabled crc32 m l kept) (.powerOn f) := .powerOn h hbelow
  have hinit := init_eq (d := .powerOn f) durability h.size_ge h.adopted.readBestMeta
  by_cases hlong : m.dataLength < f.size
  · have hcut := hopened.truncate hbelow (Nat.le_refl m.dataLength)
    refine ⟨durability.flushed ((Disk.powerOn f).push (.truncate m.dataLength)), ?_, ?_, ?_,
      fun hfull => ?_⟩
    · rw [hinit, if_pos (by exact hlong)]
    · rw [Durability.live_flushed]
      exact hcut.holds
    · rw [Durability.live_flushed, Disk.live_truncate, File.size_truncate]
    · subst hfull
      exact ⟨(Disk.later_push _ _).trans (Disk.later_push _ _),
        Disk.Throughout.trans (.push hopened hcut) (.push hcut (.flush hcut.holds hbelow))
          (Disk.later_push _ _) (Disk.later_push _ _)⟩
  · refine ⟨.powerOn f, ?_, h, ?_, fun _ => ⟨.refl _, .refl hopened⟩⟩
    · rw [hinit, if_neg (by exact hlong)]
    · have := h.le
      simp only [Disk.live_powerOn]
      omega

/-- A storage that has just been opened. -/
theorem OpenStorage.tracks_of_init {s : OpenStorage} {d : Disk} {found : ℕ}
    (h : Tabled crc32 m l kept f)
    (hrun : OpenStorage.init crc32 durability (.powerOn f) = .ok s d)
    (hfound : s.countRecords = .ok found) :
    s.cached = m ∧ s.Tracks crc32 durability ⟨s.cached.args, kept, [], found, 0⟩ l [] := by
  obtain ⟨d', hrun', htabled, hsize, hsecure⟩ := init_spec h durability
  rw [hrun] at hrun'
  cases hrun'
  have htail : Records crc32 d.live m.dataLength [] d.live.size := by
    rw [hsize]
    exact .nil _
  obtain rfl : found = l.length := by
    simpa [countRecords, htabled.countRecords_eq hsize] using hfound.symm
  refine ⟨rfl, htabled, htail, by simp, by simp, rfl, fun hfull => ?_⟩
  obtain ⟨hlater, hthroughout⟩ := hsecure hfull
  exact (hthroughout d hlater (.refl d)).guarded

end Opening

/-! ## Every run -/

section Runs

variable {crc32 : Bytes → ℕ} {durability : Durability} {s : OpenStorage} {log : RecordLog}
  {l l' : List (ℕ × Bytes)} {σ σ' : RecordSite}

/-- A new storage: no records, and nothing committed. -/
def RecordLog.new : RecordLog := ⟨⟨0, 0, 0⟩, [], [], 0, 0⟩

theorem OpenStorage.init_new (crc32 : Bytes → ℕ) (durability : Durability) :
    ∃ d, OpenStorage.init crc32 durability (.powerOn .empty) = .ok ⟨d, initialMeta, false⟩ d ∧
      OpenStorage.Tracks crc32 durability ⟨d, initialMeta, false⟩ .new [] [] ∧
      d.live.size = superblockSize := by
  obtain ⟨d, hensure, hslots, hguarded, hsize⟩ := ensureMeta_new crc32
  have hsmall : (Disk.powerOn .empty).live.size < superblockSize := by decide
  have hinit : initMeta crc32 (.powerOn .empty) = .ok initialMeta d := by
    simpa only [ensureMeta, run_bind, run_get, if_pos hsmall] using hensure
  refine ⟨d, ?_, ⟨⟨hslots.adopted, .nil _, hsize.ge, by simp [RecordLog.new]⟩, ?_,
    by simp [RecordLog.new], rfl, rfl, fun _ => hguarded⟩, hsize⟩
  · simp only [init, run_bind, run_get, if_pos hsmall, hinit]
    rfl
  · rw [hsize]
    exact .nil _

theorem OpenStorage.Tracks.adopt_eq {β : Type} (h : s.Tracks crc32 durability log l l')
    (field : Meta → β) : OpenStorage.adopt crc32 field s = .ok (field s.cached) s := by
  simp [OpenStorage.adopt, h.tabled.adopted.readBestMeta]

/-- One step keeps the invariant. -/
theorem RecordSite.Step.inv (hstep : Step crc32 durability σ σ') (h : σ.Inv crc32 durability) :
    σ'.Inv crc32 durability := by
  cases hstep with
  | write hrun =>
    obtain ⟨l, l', htracks⟩ := h
    exact ⟨_, _, htracks.write hrun⟩
  | adopt =>
    obtain ⟨l, l', htracks⟩ := h
    rw [OpenStorage.getRootAddress, htracks.adopt_eq]
    exact ⟨l, l', htracks⟩
  | commit hrun =>
    obtain ⟨l, l', htracks⟩ := h
    exact ⟨_, _, htracks.commit hrun⟩
  | commitRaises hrun =>
    obtain ⟨l, l', htracks⟩ := h
    exact ⟨_, _, htracks.commitRaises hrun⟩
  | close =>
    obtain ⟨l, l', htracks⟩ := h
    exact ⟨_, l, htracks.last.symm, htracks.tabled⟩
  | crash hfull hcrashed =>
    obtain ⟨l, l', htracks⟩ := h
    exact OpenStorage.Tracks.crashFinds_of_secure (htracks.secure hfull) htracks.last.symm _ hcrashed
  | crashInWrite hfull hlater hlater' hcrashed =>
    obtain ⟨l, l', htracks⟩ := h
    exact htracks.write_crashFinds hfull _ _ hlater hlater' _ hcrashed
  | crashInCommit hfull hlater hlater' hcrashed =>
    obtain ⟨l, l', htracks⟩ := h
    subst hfull
    exact htracks.commit_crashFinds _ _ _ hlater hlater' _ hcrashed
  | reopen hrun hfound =>
    obtain ⟨m, l, -, htabled⟩ := h
    exact ⟨l, [], (OpenStorage.tracks_of_init htabled hrun hfound).2⟩
  | crashInRecovery hfull hlater hlater' hcrashed =>
    obtain ⟨m, l, hm, htabled⟩ := h
    obtain ⟨d, hrun, -, -, hsecure⟩ := OpenStorage.init_spec htabled durability
    rw [hrun] at hlater'
    exact OpenStorage.Tracks.crashFinds_of_secure ((hsecure hfull).2 _ hlater hlater') hm _ hcrashed

/-- What holds of every state of a run from a new storage. -/
theorem RecordSite.inv_of_run {s0 : OpenStorage} {d0 : Disk}
    (hnew : OpenStorage.init crc32 durability (.powerOn .empty) = .ok s0 d0)
    (hrun : ReflTransGen (Step crc32 durability) (.running s0 .new) σ) :
    σ.Inv crc32 durability := by
  induction hrun with
  | refl =>
    obtain ⟨d, hinit, htracks, -⟩ := OpenStorage.init_new crc32 durability
    rw [hnew] at hinit
    cases hinit
    exact ⟨[], [], htracks⟩
  | tail _ hstep ih => exact hstep.inv ih

/-! ## Correctness -/

/-- What is asked of an open storage: a new address lies behind the superblock and is that
of no record in the file, every record is read back as it was written, the getters return
what was committed last, and `count_records` returns the number of records found when the
storage was opened and written since. -/
structure OpenStorage.Correct (crc32 : Bytes → ℕ) (s : OpenStorage) (log : RecordLog) : Prop where
  writes : ∀ payload : Bytes, payload.length < 2 ^ 32 →
    ∃ address s', s.write crc32 payload = .ok address s' ∧ superblockSize ≤ address ∧
      ∀ other record, s.read crc32 other = .ok record → other ≠ address
  reads : ∀ r ∈ log.kept ++ log.recent, s.read crc32 r.1 = .ok r.2
  root : resultValue (s.getRootAddress crc32) = .ok log.last.rootAddress
  keys : resultValue (s.getKeyCount crc32) = .ok log.last.keyCount
  txn : resultValue (s.getTxnId crc32) = .ok log.last.txnId
  counts : s.countRecords = .ok (log.found + log.written)

/-- What is asked of a file that is not open: it is opened, with one of the possible
commits, every record that a commit has followed can be read, and `count_records`
returns. -/
def OpensCorrectly (crc32 : Bytes → ℕ) (durability : Durability) (f : File)
    (possible : Set CommitArgs) (kept : List (ℕ × Bytes)) : Prop :=
  ∃ s d found, OpenStorage.init crc32 durability (.powerOn f) = .ok s d ∧
    s.cached.args ∈ possible ∧ s.countRecords = .ok found ∧
    ∀ r ∈ kept, s.read crc32 r.1 = .ok r.2

/-- What is asked of a state of a run. -/
def RecordSite.Correct (crc32 : Bytes → ℕ) (durability : Durability) : RecordSite → Prop
  | .running s log => s.Correct crc32 log
  | .down f possible kept => OpensCorrectly crc32 durability f possible kept

theorem OpenStorage.Tracks.correct (h : s.Tracks crc32 durability log l l') : s.Correct crc32 log := by
  have htable := h.tabled.records.append h.tail
  refine ⟨fun payload hshort => ?_, fun r hr => ?_, ?_, ?_, ?_, ?_⟩
  · obtain ⟨d, hwrite, -⟩ := write_returns crc32 (by norm_num at hshort ⊢; exact hshort)
      h.tabled.size_ge
    refine ⟨s.disk.live.size, { s with disk := d }, ?_, h.tabled.size_ge, fun other record hread => ?_⟩
    · rw [OpenStorage.write, onDisk, hwrite]
    · exact (lt_size_of_read hread).ne
  · refine (htable.recordAt le_rfl le_rfl r ?_).read_eq
    rcases List.mem_append.mp hr with hr | hr
    · exact List.mem_append_left _ (h.tabled.kept r hr)
    · exact List.mem_append_right _ (h.recent r hr)
  · rw [getRootAddress, h.adopt_eq, h.last]
    rfl
  · rw [getKeyCount, h.adopt_eq, h.last]
    rfl
  · rw [getTxnId, h.adopt_eq, h.last]
    rfl
  · rw [countRecords, htable.countRecords_eq, List.length_append, h.count]

/-- In every run of storages on one file, opened again after they were closed or after a
crash at any point, the record layer does what it should. -/
theorem record_layer_correct (crc32 : Bytes → ℕ) (durability : Durability) {s0 : OpenStorage}
    {d0 : Disk} (hnew : OpenStorage.init crc32 durability (.powerOn .empty) = .ok s0 d0)
    (hrun : ReflTransGen (RecordSite.Step crc32 durability) (.running s0 .new) σ) :
    σ.Correct crc32 durability := by
  have hinv := RecordSite.inv_of_run hnew hrun
  cases σ with
  | running s log =>
    obtain ⟨l, l', htracks⟩ := hinv
    exact htracks.correct
  | down f possible kept =>
    obtain ⟨m, l, hm, htabled⟩ := hinv
    obtain ⟨d, hinit, htabled', hsize, -⟩ := OpenStorage.init_spec htabled durability
    exact ⟨⟨d, m, false⟩, d, l.length, hinit, hm, htabled'.countRecords_eq hsize,
      fun r hr => htabled'.read_eq hr⟩

/-- One record is written and committed, and the storage is closed: the next one finds
both. -/
theorem record_layer_correct_sample : ∃ s0 d0 f,
    OpenStorage.init (fun _ => 0) .full (.powerOn .empty) = .ok s0 d0 ∧
      ReflTransGen (RecordSite.Step (fun _ => 0) .full) (.running s0 .new)
        (.down f {⟨superblockSize, 1, 1⟩} [(superblockSize, [7])]) ∧
      ∃ s d, OpenStorage.init (fun _ => 0) .full (.powerOn f) = .ok s d ∧
        s.read (fun _ => 0) superblockSize = .ok [7] := by
  obtain ⟨d, hinit, htracks, hsize⟩ := OpenStorage.init_new (fun _ => 0) .full
  have hshort : ([7] : Bytes).length < 256 ^ 4 := by decide
  obtain ⟨d1, hwrite, hsize1⟩ := write_returns (fun _ => 0) hshort hsize.ge
  rw [hsize] at hwrite hsize1
  set s0 : OpenStorage := ⟨d, initialMeta, false⟩ with hs0
  set s1 : OpenStorage := ⟨d1, initialMeta, false⟩ with hs1
  have hfirst : s0.write (fun _ => 0) [7] = .ok superblockSize s1 := by
    rw [OpenStorage.write, OpenStorage.onDisk, hs0, hwrite]
  obtain ⟨block, hblock⟩ : ∃ block, metaBlock (fun _ => 0) (s1.nextMeta superblockSize 1) =
      .ok block := by
    have hnext : s1.nextMeta superblockSize 1 =
        ⟨1, superblockSize, 1, superblockSize + recordHeaderBytes + 1, 1⟩ := by
      rw [OpenStorage.nextMeta, hs1, hsize1]
      rfl
    rw [hnext]
    exact metaBlock_of_lt (by decide) (by decide) (by decide) (by decide)
  obtain ⟨s2, hcommit⟩ : ∃ s2,
      s1.commitRootAddress (fun _ => 0) .full superblockSize 1 = .ok () s2 := by
    rw [OpenStorage.commitRootAddress_eq, hblock]
    exact ⟨_, rfl⟩
  have hrun : ReflTransGen (RecordSite.Step (fun _ => 0) .full) (.running s0 .new)
      (.down s2.disk.live {⟨superblockSize, 1, 1⟩} [(superblockSize, [7])]) :=
    ((ReflTransGen.single (.write hfirst)).tail (.commit hcommit)).tail .close
  obtain ⟨s, d', -, hopened, -, -, hread⟩ := record_layer_correct (fun _ => 0) .full hinit hrun
  exact ⟨s0, d, s2.disk.live, hinit, hrun, s, d', hopened, hread (superblockSize, [7]) (List.mem_singleton_self _)⟩

end Runs
