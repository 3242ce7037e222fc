/-
# Snapshots of a shared file

Any number of handles work on one file, with snapshots and transactions open on them.
Commits append, and opening the file cuts off no more than what lies beyond the commit it
adopts; what a snapshot has pinned therefore stays where it is, as long as the adopted
commit is never replaced by an older one.  A commit with an outdated cache does replace
it, and the next handle that is opened then cuts records of the snapshot off.
-/
import ImmuStore.Runs
import ImmuStore.Serial

open Relation Storage
open Transaction (closeBase_database)

variable {α V : Type} [LinearOrder α] {ext : Externals α} {codec : Codec α V} {order : ℕ}
  {f g : File} {L : ℕ} {m m' : Meta} {b c c' s : α → Option Bytes}

/-! ## Reading through a snapshot -/

/-- What the methods of a snapshot return if it reads the map `c`. -/
structure Snapshot.Reads (ext : Externals α) (codec : Codec α V) (order : ℕ) (f : File)
    (snapshot : Snapshot) (c : α → Option Bytes) : Prop where
  getItem : ∀ key, snapshot.getItem ext codec order f key = match c key with
    | none => .error .keyError
    | some payload => codec.decode payload
  get : ∀ key default, snapshot.get ext codec order f key default = match c key with
    | none => .ok default
    | some payload => codec.decode payload
  contains : ∀ key, snapshot.contains ext order f key = .ok (c key).isSome
  entries : ∃ entries, Represents entries c ∧
    snapshot.items ext codec order f = codec.decodeAll entries ∧
    (∀ pre start stop, snapshot.scan ext codec order f pre start stop =
      codec.decodeAll (codec.withPre pre (restrict start stop entries))) ∧
    snapshot.len = entries.length
  audit : ∃ report, snapshot.audit ext order f = .ok report ∧ report.errors = []

namespace Snapshot.Pins

variable {snapshot : Snapshot}

/-- A snapshot reads the map it has pinned. -/
theorem reads (h : snapshot.Pins ext order f L b) (codec : Codec α V) :
    snapshot.Reads ext codec order f b := by
  obtain ⟨t, htree, hholds⟩ := h.tree_eq
  refine ⟨fun key => ?_, fun key default => ?_, fun key => ?_, ⟨t.items, hholds.represents, ?_, ?_, ?_⟩,
    ?_⟩
  · rw [Snapshot.getItem, h.raw_eq]
    cases b key with
    | none => rfl
    | some payload => rfl
  · rw [Snapshot.get, h.raw_eq]
    cases b key with
    | none => rfl
    | some payload => rfl
  · rw [Snapshot.contains, h.raw_eq]
    rfl
  · rw [Snapshot.items, htree]
    rfl
  · intro pre start stop
    have hrange := hholds.rangeItems_eq start stop
    rw [Snapshot.scan, htree]
    change (t.rangeItems start stop >>= fun entries => codec.decodeAll (codec.withPre pre entries)) = _
    rw [hrange]
    rfl
  · rw [← hholds.ok.count_eq]
    obtain ⟨m, t', rfl, hat, -⟩ := h
    rw [Snapshot.tree, hat.loadRoot_eq] at htree
    cases htree
    rfl
  · obtain ⟨report, hrun, herrors, -⟩ := hholds.ok.audit_eq
    refine ⟨report, ?_, herrors⟩
    rw [Snapshot.audit, htree]
    exact hrun

/-- The pinned tree is read as before as long as its records stay. -/
theorem tree_congr (h : snapshot.Pins ext order f L b) (hfg : SameRecords L f g) (hL : L ≤ g.size) :
    snapshot.tree ext order g = snapshot.tree ext order f := by
  obtain ⟨m, t, rfl, hat, -⟩ := h
  rw [Snapshot.tree, Snapshot.tree, hat.loadRoot_eq,
    (hat.mono hfg le_rfl hL).loadRoot_eq]

end Snapshot.Pins

/-! ## The model -/

/-- The map that a reader of the file finds. -/
def File.Shows (ext : Externals α) (order : ℕ) (f : File) (c : α → Option Bytes) : Prop :=
  (Database.blank order (.powerOn f)).Serves ext c

/-- A file that a database may be opened on: an empty one, or what a crash has left. -/
def Recoverable (ext : Externals α) (order : ℕ) (f : File) : Prop :=
  f = .empty ∨ ∃ db0 allowed,
    Database.connect ext (.blank order (.powerOn .empty)) = .ok () db0 ∧
    ReflTransGen (Session.Step ext order)
      (.running db0 (fun _ => none) fun _ => none) (.down f allowed)

/-- A handle on a shared file; `spoiled` if its tree is what a transaction commit that
could not be written has left, or if the handle has been closed. -/
structure OpenHandle (α : Type) where
  cached : Meta
  locked : Bool
  tree : BPlusTree α Bytes
  closed : Bool
  openSnapshots : ℕ
  spoiled : Bool

/-- A snapshot, the handle it was taken from, and the file at that moment. -/
structure Reader where
  owner : ℕ
  snapshot : Snapshot
  taken : File
  isOpen : Bool

/-- A transaction, and the handle it was begun on. -/
structure OwnedTx (α : Type) where
  owner : ℕ
  tx : Transaction α

/-- A file with its handles, snapshots and transactions. -/
structure MvccFile (α : Type) where
  disk : Disk
  handles : ℕ → Option (OpenHandle α)
  readers : List Reader
  txs : List (OwnedTx α)

/-- Whether a transaction commit has left the tree of its handle unwritten. -/
def Transaction.spoils {σ : Type} (tx : Transaction α) (spoiled : Bool) :
    EStateM.Result PyError σ Unit → Bool
  | .error .structError _ => true
  | _ => tx.overlay.entries.isEmpty && spoiled

namespace MvccFile

/-- The state that a method of the handle works on. -/
def handle (w : MvccFile α) (o : OpenHandle α) : Handle α :=
  ⟨⟨w.disk, o.cached, o.locked, o.tree⟩, o.closed, o.openSnapshots⟩

/-- The state that a call on handle `i` leaves. -/
def leave (w : MvccFile α) (i : ℕ) (h : Handle α) (spoiled : Bool) : MvccFile α :=
  { w with
    disk := h.database.disk
    handles := Function.update w.handles i (some ⟨h.database.cached, h.database.locked,
      h.database.tree, h.closed, h.openSnapshots, spoiled⟩) }

/-- Handle `i` does not wait for the lock: no other handle holds it. -/
def Free (w : MvccFile α) (i : ℕ) : Prop :=
  ∀ j ≠ i, ∀ o, w.handles j = some o → o.locked = false

variable (ext) (codec) (order) (allowed : MvccFile α → OpenHandle α → Prop) in
/-- The calls, each of them as one step; `allowed` says which commits are made. -/
inductive Step : MvccFile α → MvccFile α → Prop
  | connect {w : MvccFile α} {i : ℕ} {db : Database α} : w.handles i = none → w.Free i →
      Database.connect ext (.blank order w.disk) = .ok () db →
      Step w (w.leave i (.ofDatabase db) false)
  | get {w : MvccFile α} {i : ℕ} {o : OpenHandle α} (key : α) : w.handles i = some o →
      o.closed = false →
      Step w (w.leave i { w.handle o with
        database := resultState ((w.handle o).database.get ext key) } false)
  | update {w : MvccFile α} {i : ℕ} {o : OpenHandle α} (u : Update α Bytes) :
      w.handles i = some o → o.closed = false → w.Free i →
      Step w (w.leave i { w.handle o with
        database := resultState ((w.handle o).database.update ext u) } false)
  | commit {w : MvccFile α} {i : ℕ} {o : OpenHandle α} : w.handles i = some o →
      o.closed = false → w.Free i → allowed w o →
      Step w (w.leave i { w.handle o with
        database := resultState ((w.handle o).database.commit ext) } o.spoiled)
  | close {w : MvccFile α} {i : ℕ} {o : OpenHandle α} : w.handles i = some o →
      Step w (w.leave i (w.handle o).close true)
  | snapshot {w : MvccFile α} {i : ℕ} {o : OpenHandle α} {snapshot : Snapshot} {h : Handle α} :
      w.handles i = some o → (w.handle o).snapshot ext = .ok snapshot h →
      Step w { w.leave i h o.spoiled with
        readers := w.readers ++ [⟨i, snapshot, w.disk.live, true⟩] }
  | closeSnapshot {w : MvccFile α} {k : ℕ} {r : Reader} {o : OpenHandle α} :
      w.readers[k]? = some r → r.isOpen = true → w.handles r.owner = some o →
      Step w { w.leave r.owner (w.handle o).snapshotClosed o.spoiled with
        readers := w.readers.set k { r with isOpen := false } }
  | begin {w : MvccFile α} {i : ℕ} {o : OpenHandle α} {tx : Transaction α} {h : Handle α} :
      w.handles i = some o → Transaction.begin ext (w.handle o) = .ok tx h →
      Step w { w.leave i h o.spoiled with txs := w.txs ++ [⟨i, tx⟩] }
  | call {w : MvccFile α} {k : ℕ} {x : OwnedTx α} (call : TxCall α V) : w.txs[k]? = some x →
      Step w { w with
        txs := w.txs.set k ⟨x.owner, (x.tx.call ext codec order w.disk.live call).2⟩ }
  | commitTx {w : MvccFile α} {k : ℕ} {x : OwnedTx α} {o : OpenHandle α} :
      w.txs[k]? = some x → w.handles x.owner = some o → o.closed = false →
      (x.tx.overlay.entries ≠ [] → w.Free x.owner) →
      Step w
        { w.leave x.owner (resultState (x.tx.commit ext (w.handle o)))
            (x.tx.spoils o.spoiled (x.tx.commit ext (w.handle o))) with
          txs := w.txs.set k ⟨x.owner, x.tx.committed⟩ }
  | abortTx {w : MvccFile α} {k : ℕ} {x : OwnedTx α} {o : OpenHandle α} :
      w.txs[k]? = some x → w.handles x.owner = some o →
      Step w { w.leave x.owner (x.tx.abort (w.handle o)) o.spoiled with
        txs := w.txs.set k ⟨x.owner, .aborted⟩ }

/-- The file with the handle that it was opened with. -/
def opened (db : Database α) : MvccFile α :=
  leave ⟨db.disk, fun _ => none, [], []⟩ 0 (.ofDatabase db) false

/-- The commits of a handle whose cache is the meta block that the file adopts, and whose
tree is not spoiled. -/
def Current (ext : Externals α) (w : MvccFile α) (o : OpenHandle α) : Prop :=
  readBestMeta ext.crc32 w.disk.live = .ok o.cached ∧ o.spoiled = false

variable {w w' : MvccFile α} {i : ℕ} {o : OpenHandle α}
variable {spoiled closed : Bool} {h : Handle α} {k n : ℕ} {tx : Transaction α} {x : OwnedTx α}
variable {r : Reader} {db db0 : Database α}

/-! ## The invariant -/

/-- A handle on a file that has committed `m`: with the lock, its cache is current; without
it, its tree is one that some commit has written, unless it is spoiled. -/
structure Member (ext : Externals α) (order : ℕ) (f : File) (m : Meta) (o : OpenHandle α) :
    Prop where
  order_eq : o.tree.order = order
  locked : o.locked = true → o.cached = m ∧ ∃ s, Holding ext order f o.tree s
  unlocked : o.locked = false → o.spoiled = false → ∃ s, BPlusTree.Holds order o.tree s ∧
    ∀ root ∈ o.tree.treeRef, NodeRef.OnFile ext f m.dataLength root

/-- The snapshot has pinned the map that was committed when it was taken, and reads the
same tree as then. -/
def Kept (ext : Externals α) (order : ℕ) (f : File) (L : ℕ) (r : Reader) : Prop :=
  ∃ c, r.taken.Shows ext order c ∧ r.snapshot.Pins ext order f L c ∧
    r.snapshot.tree ext order f = r.snapshot.tree ext order r.taken

/-- The invariant of a run: `c` is committed, and everything that is pinned lies below the
end of the commit. -/
structure Inv (ext : Externals α) (order : ℕ) (w : MvccFile α) (m : Meta)
    (c : α → Option Bytes) : Prop where
  committed : Committed ext order w.disk.live m c
  alone : ∀ i o, w.handles i = some o → o.locked = true → w.Free i
  member : ∀ i o, w.handles i = some o → Member ext order w.disk.live m o
  readers : ∀ r ∈ w.readers, Kept ext order w.disk.live m.dataLength r
  bases : ∀ x ∈ w.txs, ∀ base ∈ x.tx.base, ∃ b, base.Pins ext order w.disk.live m.dataLength b

section

omit [LinearOrder α]

@[simp] theorem handles_leave_self (w : MvccFile α) (i : ℕ) (h : Handle α) (spoiled : Bool) :
    (w.leave i h spoiled).handles i = some ⟨h.database.cached, h.database.locked,
      h.database.tree, h.closed, h.openSnapshots, spoiled⟩ :=
  Function.update_self _ _ _

theorem handles_leave_of_ne (w : MvccFile α) {i j : ℕ} (hj : j ≠ i) (h : Handle α)
    (spoiled : Bool) : (w.leave i h spoiled).handles j = w.handles j :=
  Function.update_of_ne hj _ _

@[simp] theorem readers_leave (w : MvccFile α) (i : ℕ) (h : Handle α) (spoiled : Bool) :
    (w.leave i h spoiled).readers = w.readers := rfl

@[simp] theorem txs_leave (w : MvccFile α) (i : ℕ) (h : Handle α) (spoiled : Bool) :
    (w.leave i h spoiled).txs = w.txs := rfl

theorem free_leave {h : Handle α} {spoiled : Bool} (hfree : w.Free i) :
    (w.leave i h spoiled).Free i :=
  LockFree.update OpenHandle.locked hfree

end

theorem Member.attached (hm : Member ext order w.disk.live m o)
    (hc : Committed ext order w.disk.live m c) :
    ∃ s, (w.handle o).database.Attached ext order m c s := by
  cases hl : o.locked with
  | true =>
    obtain ⟨hcached, s, hholding⟩ := hm.locked hl
    exact ⟨s, hc, hm.order_eq, fun _ => ⟨hcached, hholding⟩,
      fun hl' => absurd (hl.symm.trans hl') (by decide)⟩
  | false =>
    exact ⟨c, hc, hm.order_eq, fun hl' => absurd (hl.symm.trans hl') (by decide), fun _ => rfl⟩

/-- A handle whose tree is that of the adopted meta block. -/
theorem Member.of_atMeta {cached : Meta} {t : BPlusTree α Bytes} (hc : Committed ext order f m c)
    (hat : AtMeta ext order f L m t) :
    Member ext order f m ⟨cached, false, t, closed, n, spoiled⟩ := by
  obtain ⟨t', hat', hholds⟩ := hc.tree
  obtain rfl := hat.unique hat'
  exact ⟨hat.order_eq, fun hl => (by cases hl), fun _ _ => ⟨c, hholds, hat'.onFile⟩⟩

/-- A handle without the lock outlives what others write. -/
theorem Member.transfer (hm : Member ext order f m o) (hl : o.locked = false)
    (hfg : SameRecords m.dataLength f g) (hle : m.dataLength ≤ m'.dataLength)
    (hsize : m'.dataLength ≤ g.size) : Member ext order g m' o where
  order_eq := hm.order_eq
  locked := by simp [hl]
  unlocked := by
    intro _ hspoiled
    obtain ⟨s, hholds, honFile⟩ := hm.unlocked hl hspoiled
    exact ⟨s, hholds, fun root hroot => (honFile root hroot).mono hfg hle hsize⟩

theorem Kept.transfer (h : Kept ext order f m.dataLength r) (hfg : SameRecords m.dataLength f g)
    (hle : m.dataLength ≤ m'.dataLength) (hsize : m'.dataLength ≤ g.size) :
    Kept ext order g m'.dataLength r := by
  obtain ⟨c, hshows, hpins, htree⟩ := h
  exact ⟨c, hshows, hpins.mono hfg hle hsize,
    (hpins.tree_congr hfg (hle.trans hsize)).trans htree⟩

omit [LinearOrder α] in
theorem free_leave_unlocked {j : ℕ} (hfree : w.Free i) (hl : h.database.locked = false) :
    (w.leave j h spoiled).Free i :=
  LockFree.update_unlocked OpenHandle.locked hfree hl

omit [LinearOrder α] in
theorem leave_leave (w : MvccFile α) (i : ℕ) (h h' : Handle α) (spoiled spoiled' : Bool) :
    (w.leave i h spoiled).leave i h' spoiled' = w.leave i h' spoiled' := by
  simp [leave]

section

variable (hinv : w.Inv ext order m c)
include hinv

/-- The invariant after a call that leaves the file as it is. -/
theorem Inv.touched (hdisk : h.database.disk = w.disk) (hlock : h.database.locked = true → w.Free i)
    (hnew : Member ext order w.disk.live m ⟨h.database.cached, h.database.locked, h.database.tree,
      h.closed, h.openSnapshots, spoiled⟩) : (w.leave i h spoiled).Inv ext order m c := by
  have hsame : (w.leave i h spoiled).disk = w.disk := hdisk
  refine ⟨?_, alone_update OpenHandle.locked hinv.alone hlock, ?_, ?_, ?_⟩
  · rw [hsame]
    exact hinv.committed
  · rw [hsame]
    exact forall_update (fun j _ o ho => hinv.member j o ho) hnew
  · rw [hsame]
    exact hinv.readers
  · rw [hsame]
    exact hinv.bases

/-- The invariant after a call that writes: it has the lock for itself, and keeps the
records of the commit. -/
theorem Inv.written (hfree : w.Free i) (hc : Committed ext order h.database.disk.live m' c')
    (hrecords : SameRecords m.dataLength w.disk.live h.database.disk.live)
    (hle : m.dataLength ≤ m'.dataLength)
    (hnew : Member ext order h.database.disk.live m' ⟨h.database.cached, h.database.locked,
      h.database.tree, h.closed, h.openSnapshots, spoiled⟩) :
    (w.leave i h spoiled).Inv ext order m' c' where
  committed := hc
  alone := alone_update OpenHandle.locked hinv.alone fun _ => hfree
  member := forall_update
    (fun j hj o ho => (hinv.member j o ho).transfer (hfree j hj o ho) hrecords hle hc.le) hnew
  readers := fun r hr => (hinv.readers r hr).transfer hrecords hle hc.le
  bases := by
    intro x hx base hbase
    obtain ⟨b, hpins⟩ := hinv.bases x hx base hbase
    exact ⟨b, hpins.mono hrecords hle hc.le⟩

/-! ## One call -/

theorem Inv.connect (hfree : w.Free i)
    (hrun : Database.connect ext (.blank order w.disk) = .ok () db) :
    (w.leave i (.ofDatabase db) false).Inv ext order m c := by
  obtain ⟨d, t, rfl, hc, hat, hsame⟩ := Database.connect_ok hinv.committed hrun
  exact hinv.written hfree hc (.of_sameBelow hsame) le_rfl (.of_atMeta hc hat)

theorem Inv.get (ho : w.handles i = some o) (key : α) :
    (w.leave i { w.handle o with
      database := resultState ((w.handle o).database.get ext key) } false).Inv ext order m c := by
  have hm := hinv.member i o ho
  obtain ⟨s, hattached⟩ := hm.attached hinv.committed
  rcases hattached.resultState_get key with ⟨hl, hrun⟩ | ⟨hl, t, hat, hrun⟩
  · rw [hrun]
    have hl : o.locked = true := hl
    exact hinv.touched rfl (fun _ => hinv.alone i o ho hl)
      ⟨hm.order_eq, hm.locked, fun hl' => absurd (hl.symm.trans hl') (by decide)⟩
  · rw [hrun]
    have hl : o.locked = false := hl
    have hnew : Member ext order w.disk.live m ⟨m, o.locked, t, o.closed, o.openSnapshots, false⟩ := by
      rw [hl]
      exact .of_atMeta hinv.committed hat
    exact hinv.touched rfl (fun hl' => absurd (hl.symm.trans hl') (by decide)) hnew

theorem Inv.update (ho : w.handles i = some o) (hfree : w.Free i) (u : Update α Bytes) :
    (w.leave i { w.handle o with
      database := resultState ((w.handle o).database.update ext u) } false).Inv ext order m c := by
  obtain ⟨s, hattached⟩ := (hinv.member i o ho).attached hinv.committed
  obtain ⟨t, hholding, hrun⟩ := hattached.update u
  have hresult : resultState ((w.handle o).database.update ext u) =
      { (w.handle o).database with cached := m, locked := true, tree := t } := by
    rcases hrun with hrun | ⟨-, hrun⟩ <;> rw [hrun] <;> rfl
  rw [hresult]
  exact hinv.touched rfl (fun _ => hfree)
    ⟨hholding.holds.order_eq, fun _ => ⟨rfl, _, hholding⟩, fun hl => (by cases hl)⟩

/-- A handle whose tree is not spoiled holds a map that can be committed. -/
theorem Inv.holding (ho : w.handles i = some o) (hspoiled : o.spoiled = false) : ∃ s, Holding ext order w.disk.live o.tree s := by
  have hm := hinv.member i o ho
  cases hl : o.locked with
  | true => exact (hm.locked hl).2
  | false =>
    obtain ⟨s, hholds, honFile⟩ := hm.unlocked hl hspoiled
    refine ⟨s, hholds, fun root hroot => .stored ?_⟩
    exact (honFile root hroot).mono ⟨hinv.committed.le, fun _ _ _ => rfl⟩ hinv.committed.le
      le_rfl

end

/-- After a commit that returns the handle holds what it has published. -/
theorem Member.of_published {db' : Database α} (hpub : Database.Published ext order db db' s) :
    Member ext order db'.disk.live db'.cached
      ⟨db'.cached, db'.locked, db'.tree, closed, n, spoiled⟩ := by
  rw [hpub.unlocked]
  exact .of_atMeta hpub.committed hpub.atMeta

section

variable (hinv : w.Inv ext order m c) (ho : w.handles i = some o)
include hinv ho

theorem Inv.commit (hfree : w.Free i) (hcurrent : Current ext w o) :
    ∃ m' c', (w.leave i { w.handle o with
      database := resultState ((w.handle o).database.commit ext) } o.spoiled).Inv ext order m' c' := by
  obtain ⟨hbest, hspoiled⟩ := hcurrent
  rw [hinv.committed.adopted.readBestMeta] at hbest
  cases hbest
  obtain ⟨s, hholding⟩ := hinv.holding ho hspoiled
  have hm := hinv.member i o ho
  cases hrun : (w.handle o).database.commit ext with
  | ok _ db =>
    have hpub := Database.commit_published hinv.committed hholding hrun
    obtain ⟨hrecords, hle⟩ := hpub.records_of_le hinv.committed.le
    exact ⟨db.cached, s, hinv.written hfree hpub.committed hrecords hle (.of_published hpub)⟩
  | error e db =>
    obtain ⟨hcached, hholding', hsame, hcases⟩ :=
      Database.commit_raised hinv.committed hholding hrun
    have hbelow : File.SameBelow o.cached.dataLength w.disk.live db.disk.live :=
      hsame.mono hinv.committed.le
    -- a tree that is on file is stored without an exception, so that the lock is held
    have hlocked : db.locked = true := by
      rcases hcases with hl | ⟨hl, root, hroot, hzero⟩
      · exact hl
      · by_contra hne
        rw [hl] at hne
        obtain ⟨_, -, honFile⟩ := hm.unlocked (Bool.eq_false_of_not_eq_true hne) hspoiled
        exact (honFile root hroot).address_ne_zero hzero
    refine ⟨o.cached, c, hinv.written hfree (hinv.committed.sameBelow hbelow) (.of_sameBelow hbelow)
      le_rfl ⟨hholding'.holds.order_eq, fun _ => ⟨hcached, s, hholding'⟩, fun hl => ?_⟩⟩
    exact absurd (hlocked.symm.trans hl) (by decide)

theorem Inv.close :
    (w.leave i (w.handle o).close true).Inv ext order m c :=
  hinv.touched rfl (fun hl => (by cases hl))
    ⟨(hinv.member i o ho).order_eq, fun hl => (by cases hl), fun _ hspoiled => (by cases hspoiled)⟩

/-- Reading the adopted meta block, as `snapshot` and `begin` do. -/
theorem Inv.pinned (closed : Bool) (n : ℕ) :
    (w.leave i ⟨⟨w.disk, m, o.locked, o.tree⟩, closed, n⟩ o.spoiled).Inv ext order m c := by
  have hm := hinv.member i o ho
  exact hinv.touched rfl (fun hl => hinv.alone i o ho hl)
    ⟨hm.order_eq, fun hl => ⟨rfl, (hm.locked hl).2⟩, hm.unlocked⟩

/-- Changing the number of open snapshots. -/
theorem Inv.recounted (n : ℕ) :
    (w.leave i { w.handle o with openSnapshots := n } o.spoiled).Inv ext order m c :=
  hinv.touched rfl (fun hl => hinv.alone i o ho hl) { hinv.member i o ho with }

end

theorem shows_of_committed (hc : Committed ext order f m c) : f.Shows ext order c :=
  Database.serves_of_committed (d := .powerOn f) hc

omit [LinearOrder α] in
/-- A closed handle takes no snapshot. -/
theorem closed_of_snapshot {h' : Handle α} {snapshot : Snapshot}
    (hrun : h.snapshot ext = .ok snapshot h') : h.closed = false := by
  cases hclosed : h.closed with
  | false => rfl
  | true => simp [Handle.snapshot, Handle.assertOpen, hclosed] at hrun

section

variable (hinv : w.Inv ext order m c)
include hinv

theorem Inv.snapshot (ho : w.handles i = some o) {snapshot : Snapshot}
    (hrun : (w.handle o).snapshot ext = .ok snapshot h) :
    Inv ext order { w.leave i h o.spoiled with
      readers := w.readers ++ [⟨i, snapshot, w.disk.live, true⟩] } m c ∧
    h.openSnapshots = o.openSnapshots + 1 := by
  have hopen := closed_of_snapshot hrun
  rw [Handle.snapshot_eq hopen hinv.committed] at hrun
  cases hrun
  refine ⟨{ hinv.pinned ho o.closed (o.openSnapshots + 1) with readers := fun r hr => ?_ }, rfl⟩
  rcases List.mem_append.mp hr with hr | hr
  · exact hinv.readers r hr
  · obtain rfl := List.mem_singleton.mp hr
    exact ⟨c, shows_of_committed hinv.committed, .of_committed hinv.committed, rfl⟩

theorem Inv.closeSnapshot (hr : w.readers[k]? = some r) (ho : w.handles r.owner = some o) :
    Inv ext order { w.leave r.owner (w.handle o).snapshotClosed o.spoiled with
      readers := w.readers.set k { r with isOpen := false } } m c := by
  refine { hinv.recounted ho (o.openSnapshots - 1) with readers := fun r' hr' => ?_ }
  rcases List.mem_or_eq_of_mem_set hr' with hr' | rfl
  · exact hinv.readers r' hr'
  · exact hinv.readers r (List.mem_of_getElem? hr)

theorem Inv.begin (ho : w.handles i = some o)
    (hrun : Transaction.begin ext (w.handle o) = .ok tx h) :
    Inv ext order { w.leave i h o.spoiled with txs := w.txs ++ [⟨i, tx⟩] } m c ∧
    h.openSnapshots = o.openSnapshots + 1 ∧ tx.base.isSome = true := by
  have hopen : (w.handle o).closed = false := by
    cases hclosed : (w.handle o).closed with
    | false => rfl
    | true => simp [Transaction.begin, Handle.assertOpen, hclosed] at hrun
  rw [Transaction.begin_eq hopen hinv.committed] at hrun
  cases hrun
  refine ⟨{ hinv.pinned ho o.closed (o.openSnapshots + 1) with bases := fun x hx => ?_ }, rfl, rfl⟩
  rcases List.mem_append.mp hx with hx | hx
  · exact hinv.bases x hx
  · obtain rfl := List.mem_singleton.mp hx
    rintro base ⟨⟩
    exact ⟨c, .of_committed hinv.committed⟩

/-- Replacing a transaction by one with the same base, or none. -/
theorem Inv.bases_set (hx : w.txs[k]? = some x) (hbase : ∀ base ∈ tx.base, base ∈ x.tx.base) :
    ∀ x' ∈ w.txs.set k ⟨x.owner, tx⟩, ∀ base ∈ x'.tx.base,
      ∃ b, base.Pins ext order w.disk.live m.dataLength b := by
  intro x' hx' base hbase'
  rcases List.mem_or_eq_of_mem_set hx' with hx' | rfl
  · exact hinv.bases x' hx' base hbase'
  · exact hinv.bases x (List.mem_of_getElem? hx) base (hbase base hbase')

theorem Inv.call (hx : w.txs[k]? = some x) (call : TxCall α V) :
    Inv ext order { w with
      txs := w.txs.set k ⟨x.owner, (x.tx.call ext codec order w.disk.live call).2⟩ } m c := by
  refine { hinv with bases := hinv.bases_set hx fun base hbase => ?_ }
  rwa [Transaction.call_base] at hbase

theorem Inv.abortTx (hx : w.txs[k]? = some x) (ho : w.handles x.owner = some o) :
    Inv ext order { w.leave x.owner (x.tx.abort (w.handle o)) o.spoiled with
      txs := w.txs.set k ⟨x.owner, .aborted⟩ } m c := by
  have hhandle : x.tx.abort (w.handle o) = { w.handle o with
      openSnapshots := (x.tx.abort (w.handle o)).openSnapshots } := by
    unfold Transaction.abort Transaction.closeBase
    cases x.tx.base with
    | none => rfl
    | some base => rfl
  rw [hhandle]
  exact { hinv.recounted ho _ with
    bases := hinv.bases_set hx fun base hbase => absurd hbase (by simp [Transaction.aborted]) }

/-- What a transaction commit leaves of the handle, apart from the number of open
snapshots. -/
theorem Inv.commitTx (hx : x ∈ w.txs) (ho : w.handles x.owner = some o)
    (hfree : x.tx.overlay.entries ≠ [] → w.Free x.owner) :
    ∃ m' c', Inv ext order (w.leave x.owner (resultState (x.tx.commit ext (w.handle o)))
      (x.tx.spoils o.spoiled (x.tx.commit ext (w.handle o)))) m' c' := by
  by_cases hempty : x.tx.overlay.entries = []
  · rw [Transaction.commit_of_empty _ hempty]
    have hm := hinv.member _ o ho
    have hspoils : x.tx.spoils o.spoiled
        (.ok () (x.tx.closeBase (w.handle o)) : EStateM.Result PyError _ _) = o.spoiled := by
      simp [Transaction.spoils, hempty]
    rw [hspoils]
    refine ⟨m, c, hinv.touched ?_ (fun hl => hinv.alone _ o ho ?_) ?_⟩
    · simp [handle]
    · simpa [handle] using hl
    · simpa [handle] using { hm with }
  · obtain ⟨b, hpins⟩ : ∃ b, ∀ base ∈ x.tx.base,
        base.Pins ext order w.disk.live m.dataLength b := by
      cases hbase : x.tx.base with
      | none => exact ⟨c, by simp⟩
      | some base =>
        obtain ⟨b, hpins⟩ := hinv.bases x hx base hbase
        exact ⟨b, by simpa using hpins⟩
    have hspec := @Transaction.commitOverlay_spec _ _ _ _ _ _ _ _ x.tx (w.handle o).database
      hinv.committed (hinv.member _ o ho).order_eq hempty hpins
    rw [Transaction.commit_of_ne _ hempty]
    generalize x.tx.commitOverlay ext (w.handle o).database = result at hspec ⊢
    cases hspec with
    | @refused e t _ hat =>
      refine ⟨m, c, hinv.touched ?_ (fun hl => ?_) ?_⟩
      · rw [resultState_error, closeBase_database]
        rfl
      · rw [resultState_error, closeBase_database] at hl
        cases hl
      · rw [resultState_error, closeBase_database]
        exact .of_atMeta hinv.committed hat
    | @failed e db1 db2 _ _ hwriting hdisk hcommit =>
      have hcommitted := hwriting.cached_eq ▸ hwriting.committed
      obtain ⟨rfl, -⟩ := Database.commit_error hcommitted hwriting.holding hcommit
      obtain ⟨-, hholding, hsame, -⟩ :=
        Database.commit_raised hcommitted hwriting.holding hcommit
      rw [hdisk] at hsame
      have hbelow : File.SameBelow m.dataLength w.disk.live db2.disk.live :=
        hsame.mono hinv.committed.le
      refine ⟨m, c, hinv.written (hfree hempty) ?_ ?_ le_rfl ?_⟩
      · rw [resultState_error, closeBase_database]
        exact hinv.committed.sameBelow hbelow
      · rw [resultState_error, closeBase_database]
        exact .of_sameBelow hbelow
      · rw [resultState_error, closeBase_database]
        exact ⟨hholding.holds.order_eq, fun hl => (by cases hl), fun _ hl => (by cases hl)⟩
    | @published db1 db2 _ _ _ hdisk hpub =>
      obtain ⟨hrecords, hle⟩ := hpub.records_of_le (L := m.dataLength) (by rw [hdisk]; exact hinv.committed.le)
      rw [hdisk] at hrecords
      refine ⟨db2.cached, x.tx.overlaid c, hinv.written (hfree hempty) ?_ ?_ hle ?_⟩
      · rw [resultState_ok, closeBase_database]
        exact hpub.committed
      · rw [resultState_ok, closeBase_database]
        exact hrecords
      · rw [resultState_ok, closeBase_database]
        exact .of_published hpub

end

/-- One step keeps the invariant. -/
theorem Step.inv (hstep : Step ext codec order (Current ext) w w') (hinv : w.Inv ext order m c) :
    ∃ m' c', w'.Inv ext order m' c' := by
  cases hstep with
  | connect _ hfree hrun => exact ⟨m, c, hinv.connect hfree hrun⟩
  | get key ho => exact ⟨m, c, hinv.get ho key⟩
  | update u ho _ hfree => exact ⟨m, c, hinv.update ho hfree u⟩
  | commit ho _ hfree hcurrent => exact hinv.commit ho hfree hcurrent
  | close ho => exact ⟨m, c, hinv.close ho⟩
  | snapshot ho hrun => exact ⟨m, c, (hinv.snapshot ho hrun).1⟩
  | closeSnapshot hr _ ho => exact ⟨m, c, hinv.closeSnapshot hr ho⟩
  | begin ho hrun => exact ⟨m, c, (hinv.begin ho hrun).1⟩
  | call call hx => exact ⟨m, c, hinv.call hx call⟩
  | @commitTx k x _ hx ho _ hfree =>
    obtain ⟨m', c', hinv'⟩ := hinv.commitTx (List.mem_of_getElem? hx) ho hfree
    have hclosed : ∀ x' ∈ w.txs.set k ⟨x.owner, x.tx.committed⟩, ∀ base ∈ x'.tx.base,
        ∃ x ∈ w.txs, base ∈ x.tx.base := by
      intro x' hx' base hbase
      rcases List.mem_or_eq_of_mem_set hx' with hx' | rfl
      · exact ⟨x', hx', hbase⟩
      · cases hbase
    refine ⟨m', c', { hinv' with bases := fun x' hx' base hbase => ?_ }⟩
    obtain ⟨x0, hx0, hbase0⟩ := hclosed x' hx' base hbase
    exact hinv'.bases x0 hx0 base hbase0
  | abortTx hx ho => exact ⟨m, c, hinv.abortTx hx ho⟩

/-! ## Counting open snapshots -/

/-- The number of snapshots, and of bases of transactions, that are open on a handle. -/
def openCount (readers : List Reader) (txs : List (OwnedTx α)) (i : ℕ) : ℕ :=
  readers.countP (fun r => r.owner = i && r.isOpen) +
    txs.countP fun x => x.owner = i && x.tx.base.isSome

/-- Every handle knows how many of its snapshots are open. -/
def Counted (w : MvccFile α) : Prop :=
  ∀ i, (w.handles i).elim 0 OpenHandle.openSnapshots = openCount w.readers w.txs i

omit [LinearOrder α] in
theorem Counted.open_eq (h : w.Counted) (ho : w.handles i = some o) :
    o.openSnapshots = openCount w.readers w.txs i := by
  have := h i
  rwa [ho] at this

omit [LinearOrder α] in
/-- After a call on one handle, the count of that handle has to be right, and the others
must not have changed. -/
theorem Counted.leave (hcounted : w.Counted) {readers : List Reader} {txs : List (OwnedTx α)}
    (hself : h.openSnapshots = openCount readers txs i)
    (hothers : ∀ j ≠ i, openCount readers txs j = openCount w.readers w.txs j) :
    Counted { w.leave i h spoiled with readers := readers, txs := txs } := by
  intro j
  by_cases hj : j = i
  · subst hj
    simpa using hself
  · rw [hothers j hj, ← hcounted j]
    simp only [handles_leave_of_ne w hj]

/-- Replacing one element of a list changes a count by what the old and the new one count. -/
theorem countP_set_add {β : Type} (p : β → Bool) {l : List β} {x : β} (hx : l[k]? = some x) (y : β)
    : (l.set k y).countP p + (if p x then 1 else 0) = l.countP p + if p y then 1 else 0 := by
  obtain ⟨hlt, rfl⟩ := List.getElem?_eq_some_iff.mp hx
  rw [List.countP_set hlt]
  by_cases hp : p l[k] = true
  · have : 0 < l.countP p := List.countP_pos_iff.mpr ⟨l[k], List.getElem_mem hlt, hp⟩
    simp only [hp, if_true]
    omega
  · simp [hp]

omit [LinearOrder α] in
/-- The count of open snapshots after `commit` is that after `_close_base`. -/
theorem openSnapshots_commit [LinearOrder α] (tx : Transaction α) (h : Handle α) :
    (resultState (tx.commit ext h)).openSnapshots = (tx.closeBase h).openSnapshots := by
  have hclose : ∀ db, (tx.closeBase { h with database := db }).openSnapshots =
      (tx.closeBase h).openSnapshots := by
    intro db
    unfold Transaction.closeBase
    cases tx.base with
    | none => rfl
    | some base => rfl
  by_cases hempty : tx.overlay.entries = []
  · rw [Transaction.commit_of_empty _ hempty]
    rfl
  · rw [Transaction.commit_of_ne _ hempty]
    cases tx.commitOverlay ext h.database with
    | ok _ db => exact hclose db
    | error e db => exact hclose db

omit [LinearOrder α] in
/-- Closing the base of a transaction, on its handle and in the list. -/
theorem Counted.closeBase (hcounted : w.Counted) (hx : w.txs[k]? = some x)
    (ho : w.handles x.owner = some o)
    (hn : h.openSnapshots = (x.tx.closeBase (w.handle o)).openSnapshots) (hbase : tx.base = none) :
    Counted { w.leave x.owner h spoiled with txs := w.txs.set k ⟨x.owner, tx⟩ } := by
  have hset := fun j => countP_set_add
    (fun x : OwnedTx α => x.owner = j && x.tx.base.isSome) hx ⟨x.owner, tx⟩
  have hopen : o.openSnapshots = _ := hcounted.open_eq ho
  refine hcounted.leave (w := w) ?_ fun j hj => ?_
  · have := hset x.owner
    rw [hn]
    simp only [openCount, readers_leave] at hopen ⊢
    unfold Transaction.closeBase
    cases hold : x.tx.base with
    | none =>
      simp [hbase, hold] at this
      simp only [handle]
      omega
    | some base =>
      simp [hbase, hold] at this
      simp only [Handle.snapshotClosed, handle]
      omega
  · have := hset j
    simp [hj.symm, openCount] at this ⊢
    omega

/-- One step keeps the counts right. -/
theorem Step.counted (hstep : Step ext codec order (Current ext) w w') (hinv : w.Inv ext order m c)
    (hcounted : w.Counted) : w'.Counted := by
  cases hstep with
  | @connect i db hnone _ hrun =>
    refine hcounted.leave (w := w) ?_ fun _ _ => rfl
    rw [← hcounted i, hnone]
    rfl
  | get key ho => exact hcounted.leave (hcounted.open_eq ho) fun _ _ => rfl
  | update u ho => exact hcounted.leave (hcounted.open_eq ho) fun _ _ => rfl
  | commit ho => exact hcounted.leave (hcounted.open_eq ho) fun _ _ => rfl
  | close ho => exact hcounted.leave (hcounted.open_eq ho) fun _ _ => rfl
  | snapshot ho hrun =>
    have hcount := (hinv.snapshot ho hrun).2
    have hopen := hcounted.open_eq ho
    refine hcounted.leave (w := w) ?_ fun j hj => ?_
    · rw [hcount, hopen]
      simp [openCount]
      omega
    · simp [openCount, hj.symm]
  | @closeSnapshot k r o hr hopen ho =>
    have hset := fun j => countP_set_add (fun r : Reader => r.owner = j && r.isOpen) hr
      { r with isOpen := false }
    have hcount : o.openSnapshots = _ := hcounted.open_eq ho
    refine hcounted.leave (w := w) ?_ fun j hj => ?_
    · have := hset r.owner
      simp [hopen] at this
      simp only [openCount, Handle.snapshotClosed, handle, txs_leave] at hcount ⊢
      omega
    · have := hset j
      simp [hj.symm, openCount] at this ⊢
      omega
  | begin ho hrun =>
    obtain ⟨-, hcount, hbase⟩ := hinv.begin ho hrun
    have hopen := hcounted.open_eq ho
    refine hcounted.leave (w := w) ?_ fun j hj => ?_
    · rw [hcount, hopen]
      simp [openCount, hbase]
      omega
    · simp [openCount, hj.symm]
  | @call k x call hx =>
    have hset := fun j => countP_set_add (fun x : OwnedTx α => x.owner = j && x.tx.base.isSome) hx
      ⟨x.owner, (x.tx.call ext codec order w.disk.live call).2⟩
    intro j
    have := hset j
    simp only [Transaction.call_base, Nat.add_right_cancel_iff] at this
    have hj := hcounted j
    simp only [openCount] at hj ⊢
    omega
  | commitTx hx ho => exact hcounted.closeBase hx ho (openSnapshots_commit _ _) rfl
  | abortTx hx ho => exact hcounted.closeBase hx ho rfl rfl

/-! ## Isolation -/

/-- Opening a file that a database may be opened on. -/
theorem opened_of_recoverable (hf : Recoverable ext order f)
    (hrun : Database.connect ext (.blank order (.powerOn f)) = .ok () db0) :
    ∃ m c, (opened db0).Inv ext order m c := by
  obtain ⟨m, c, hc, hlocked, t, hat, htree⟩ : ∃ m c, Committed ext order db0.disk.live m c ∧
      db0.locked = false ∧ ∃ t, AtMeta ext order db0.disk.live db0.disk.live.size m t ∧
        db0.tree = t := by
    rcases hf with rfl | ⟨db, allowed, hnew, hsession⟩
    · obtain ⟨d, t, hrun', hc, hat, -⟩ :=
        Database.connect_new ext (Database.order_ge_of_connect hrun)
      obtain rfl : db0 = _ := by simpa [hrun] using hrun'
      exact ⟨_, _, hc, rfl, t, hat, rfl⟩
    · obtain ⟨m, c, -, hc⟩ := Session.inv_of_run hnew hsession
      obtain ⟨d, t, hrun', hc', hat, -⟩ := Database.connect_spec (d := .powerOn f) hc
      obtain rfl : db0 = _ := by simpa [hrun] using hrun'
      exact ⟨m, c, hc', rfl, t, hat, rfl⟩
  have hnone : (⟨db0.disk, fun _ => none, [], []⟩ : MvccFile α).Inv ext order m c :=
    ⟨hc, fun _ _ ho => (by cases ho), fun _ _ ho => (by cases ho), fun _ hr => (by cases hr),
      fun _ hx => (by cases hx)⟩
  refine ⟨m, c, hnone.touched rfl (fun hl => absurd (hlocked.symm.trans hl) (by decide)) ?_⟩
  have hmember : Member ext order db0.disk.live m
      ⟨db0.cached, db0.locked, db0.tree, false, 0, false⟩ := by
    rw [hlocked, htree]
    exact .of_atMeta hc hat
  exact hmember

theorem inv_of_run (hf : Recoverable ext order f)
    (hopen : Database.connect ext (.blank order (.powerOn f)) = .ok () db0)
    (hrun : ReflTransGen (Step ext codec order (Current ext)) (opened db0) w) :
    (∃ m c, w.Inv ext order m c) ∧ w.Counted := by
  induction hrun with
  | refl =>
    refine ⟨opened_of_recoverable hf hopen, fun i => ?_⟩
    by_cases hi : i = 0
    · subst hi
      rfl
    · rw [opened, handles_leave_of_ne _ hi]
      rfl
  | tail _ hstep ih =>
    obtain ⟨⟨m, c, hinv⟩, hcounted⟩ := ih
    exact ⟨hstep.inv hinv, hstep.counted hinv hcounted⟩

/-- `compact` is refused while a snapshot is open. -/
theorem Counted.compact (hcounted : w.Counted) (hr : r ∈ w.readers) (hopen : r.isOpen = true)
    (ho : w.handles r.owner = some o) (temp : File) :
    ∃ e, Handle.compact ext codec temp (w.handle o) = .error e (w.handle o) := by
  have hpos : 0 < (w.handle o).openSnapshots := by
    have hcount : 0 < w.readers.countP fun r' => r'.owner = r.owner && r'.isOpen :=
      List.countP_pos_iff.mpr ⟨r, hr, by simp [hopen]⟩
    have heq : (w.handle o).openSnapshots = _ := hcounted.open_eq ho
    rw [heq, openCount]
    omega
  cases hclosed : (w.handle o).closed with
  | true => exact ⟨_, by simp [Handle.compact, Handle.assertOpen, hclosed]; rfl⟩
  | false => exact ⟨_, by simp [Handle.compact, Handle.assertOpen, hclosed, Handle.rewrite, hpos]; rfl⟩

/-- **Snapshots are isolated from later writes.**  Whatever is done through any number of
handles on a file, as long as no handle commits with an outdated cache or with the tree
of a transaction that could not be written: every open snapshot reads the map that was
committed when it was taken, its audit is what it was then, and its handle refuses to
compact the file. -/
theorem snapshots_isolated (ext : Externals α) (codec : Codec α V) (order : ℕ) {f : File}
    (hf : Recoverable ext order f) {db0 : Database α}
    (hopen : Database.connect ext (.blank order (.powerOn f)) = .ok () db0)
    (hrun : ReflTransGen (Step ext codec order (Current ext)) (opened db0) w)
    {r : Reader} (hr : r ∈ w.readers) (hropen : r.isOpen = true) :
    (∃ c, r.taken.Shows ext order c ∧ r.snapshot.Reads ext codec order w.disk.live c) ∧
    r.snapshot.audit ext order w.disk.live = r.snapshot.audit ext order r.taken ∧
    ∀ o, w.handles r.owner = some o → ∀ temp,
      ∃ e, Handle.compact ext codec temp (w.handle o) = .error e (w.handle o) := by
  obtain ⟨⟨m, c, hinv⟩, hcounted⟩ := inv_of_run hf hopen hrun
  obtain ⟨b, hshows, hpins, htree⟩ := hinv.readers r hr
  refine ⟨⟨b, hshows, hpins.reads codec⟩, ?_, fun o ho temp => hcounted.compact hr hropen ho temp⟩
  rw [Snapshot.audit, Snapshot.audit, htree]

/-! ## A run -/

section Run

variable {allowed : MvccFile α → OpenHandle α → Prop} {u : Update α Bytes} {db1 db2 : Database α}

/-- The snapshot that handle `i` takes. -/
def reader (i : ℕ) (db : Database α) : Reader :=
  ⟨i, ⟨db.cached.rootAddress, db.cached.keyCount⟩, db.disk.live, true⟩

/-- A commit that returns. -/
theorem Step.commit_ok (ho : w.handles i = some o) (hclosed : o.closed = false) (hfree : w.Free i)
    (hallowed : allowed w o) (hrun : (w.handle o).database.commit ext = .ok () db) :
    Step ext codec order allowed w (w.leave i { w.handle o with database := db } o.spoiled) := by
  have hstep : Step ext codec order allowed w _ := .commit ho hclosed hfree hallowed
  rwa [hrun] at hstep

section

variable (hfree : w.Free i)
include hfree

/-- A handle that has just made a call stages an update. -/
theorem Step.update_leave (hrun : db.update ext u = .ok () db1) :
    Step ext codec order allowed (w.leave i ⟨db, false, n⟩ spoiled)
      (w.leave i ⟨db1, false, n⟩ false) := by
  have hstate : db1 = resultState (db.update ext u) := by
    rw [hrun]
    rfl
  rw [hstate, ← leave_leave w i ⟨db, false, n⟩ _ spoiled false]
  exact .update u (handles_leave_self _ _ _ _) rfl (free_leave hfree)

/-- It commits. -/
theorem Step.commit_leave
    (hallowed : allowed (w.leave i ⟨db, false, n⟩ false)
      ⟨db.cached, db.locked, db.tree, false, n, false⟩)
    (hrun : db.commit ext = .ok () db1) :
    Step ext codec order allowed (w.leave i ⟨db, false, n⟩ false)
      (w.leave i ⟨db1, false, n⟩ false) := by
  rw [← leave_leave w i ⟨db, false, n⟩ ⟨db1, false, n⟩ false false]
  exact .commit_ok (handles_leave_self _ _ _ _) rfl (free_leave hfree) hallowed hrun

/-- It stages an update and commits it. -/
theorem run_update_commit (hupdate : db.update ext u = .ok () db1)
    (hallowed : allowed (w.leave i ⟨db1, false, n⟩ false)
      ⟨db1.cached, db1.locked, db1.tree, false, n, false⟩)
    (hcommit : db1.commit ext = .ok () db2) :
    ReflTransGen (Step ext codec order allowed) (w.leave i ⟨db, false, n⟩ spoiled)
      (w.leave i ⟨db2, false, n⟩ false) :=
  (ReflTransGen.single (.update_leave hfree hupdate)).tail (.commit_leave hfree hallowed hcommit)

end

/-- It takes a snapshot. -/
theorem Step.snapshot_leave (hc : Committed ext order db.disk.live db.cached c) :
    Step ext codec order allowed (w.leave i ⟨db, false, n⟩ false)
      (leave { w with readers := w.readers ++ [reader i db] } i ⟨db, false, n + 1⟩ false) := by
  have hstep : Step ext codec order allowed (w.leave i ⟨db, false, n⟩ false) _ :=
    .snapshot (handles_leave_self _ _ _ _) (Handle.snapshot_eq rfl hc)
  rw [leave_leave] at hstep
  exact hstep

/-- The cache of a handle is current if the file is as the last commit has left it. -/
theorem current_leave (hc : Committed ext order db.disk.live db.cached c) (hdisk : db1.disk = db.disk)
    (hcached : db1.cached = db.cached) :
    Current ext (w.leave i ⟨db1, false, n⟩ false)
      ⟨db1.cached, db1.locked, db1.tree, false, n, false⟩ := by
  refine ⟨?_, rfl⟩
  rw [hcached, ← hc.adopted.readBestMeta]
  simp only [leave, hdisk]

end Run

theorem snapshots_isolated_sample :
    ∃ (db0 : Database ℕ) (w : MvccFile ℕ) (r : Reader),
      Recoverable sampleExt 64 .empty ∧
      Database.connect sampleExt (.blank 64 (.powerOn .empty)) = .ok () db0 ∧
      ReflTransGen (Step sampleExt sampleCodec 64 (Current sampleExt))
        (opened db0) w ∧
      r ∈ w.readers ∧ r.isOpen = true ∧
      r.snapshot.getItem sampleExt sampleCodec 64 w.disk.live 1 = .ok [7] ∧
      w.disk.live.Shows sampleExt 64 (Update.applyTo sampleMap (.set 1 [9])) := by
  obtain ⟨d, t, hnew, hc, hat, -, hsize⟩ :=
    Database.connect_new sampleExt (by decide : 3 ≤ 64)
  obtain ⟨db1, db2, hset, hdisk, hcached, hcommit, hpub, hroom⟩ :=
    sample_commit ⟨d, initialMeta, false, t⟩ hc (roomy_new hc hsize) rfl hat.order_eq
  have hattached : db2.Attached sampleExt 64 db2.cached sampleMap sampleMap :=
    .of_unlocked hpub.committed hpub.atMeta.order_eq hpub.unlocked
  have hfew : Few [1, 2] (Update.applyTo sampleMap (.set 1 [9])) :=
    few_sampleMap.update (by decide) (by decide)
  obtain ⟨db3, db4, hset', hdisk', hcached', hcommit', hpub', -⟩ :=
    hattached.set_commit 1 [9] hfew.short_sample hroom
  -- a binding is committed and a snapshot taken, then the binding is overwritten
  have hfree : ∀ l, Free (⟨d, fun _ => none, l, []⟩ : MvccFile ℕ) 0 := fun _ _ _ _ ho => by cases ho
  have hrun : ReflTransGen (Step sampleExt sampleCodec 64 (Current sampleExt))
      (opened ⟨d, initialMeta, false, t⟩)
      (leave ⟨d, fun _ => none, [reader 0 db2], []⟩ 0 ⟨db4, false, 1⟩ false) :=
    ((run_update_commit (u := .set 1 [7]) (hfree []) hset (current_leave hc hdisk hcached)
      hcommit).tail (.snapshot_leave hpub.committed)).trans
      (run_update_commit (u := .set 1 [9]) (hfree _) hset'
        (current_leave hpub.committed hdisk' hcached') hcommit')
  obtain ⟨⟨c, hshows, hreads⟩, -⟩ := snapshots_isolated sampleExt sampleCodec 64 (.inl rfl)
    hnew hrun (List.mem_singleton.mpr rfl) rfl
  obtain rfl := hshows.unique (shows_of_committed hpub.committed)
  exact ⟨_, _, _, .inl rfl, hnew, hrun, List.mem_singleton.mpr rfl, rfl, hreads.getItem 1,
    shows_of_committed hpub'.committed⟩

/-! ## A snapshot that is cut off

Two handles are open on a new file.  The second commits twice with nothing staged, then a
binding, and takes a snapshot.  The first, which still has the cache of the new file,
commits: its transaction 1 takes the slot of transaction 3, and the file goes back to
transaction 2.  The next handle that is opened cuts the file off where that ends. -/

/-- A commit of a handle that still has the cache of the new file takes slot 1, and the
file adopts what stands in slot 0. -/
theorem commit_reverts (db : Database α) (horder : 3 ≤ order) (hcached : db.cached = initialMeta)
    (htree : db.tree = .empty order) (hsize : db.disk.live.size < 256 ^ 8)
    (hslot : readSlot ext.crc32 db.disk.live 0 = .ok (some m)) (hm : m.slot = 0)
    (htxn : 1 < m.txnId) (hroot : m.rootAddress = 0) (hcount : m.keyCount = 0)
    (hge : superblockSize ≤ m.dataLength) (hle : m.dataLength ≤ db.disk.live.size) :
    ∃ db', db.commit ext = .ok () db' ∧ db'.locked = false ∧
      Committed ext order db'.disk.live m fun _ => none := by
  obtain ⟨f, hsame, hslot', hcommit⟩ := Database.commit_stale db (hge.trans hle) hsize hcached htree
  have hadopted : Adopted ext.crc32 f m := by
    refine ⟨by omega, ?_, .inr ⟨_, by rw [hm]; exact hslot', .inl htxn⟩⟩
    rw [hm, ← hsame.readSlot (by decide)]
    exact hslot
  exact hcommit (.of_empty hadopted horder hroot hcount hge (hle.trans hsame.size_eq.ge))

/-- A snapshot whose root lies beyond the end of the file. -/
theorem getItem_of_size_le {snapshot : Snapshot} (hroot : snapshot.rootAddress ≠ 0)
    (hsize : f.size ≤ snapshot.rootAddress) (key : α) :
    snapshot.getItem ext codec order f key = .error .databaseCorruptionError := by
  have hload : NodeRef.loadRoot ext f snapshot.rootAddress = .error .databaseCorruptionError := by
    rw [NodeRef.loadRoot, if_neg hroot, NodeRef.load, read_of_size_le hsize]
    rfl
  rw [Snapshot.getItem, Snapshot.raw, Snapshot.tree, hload]
  rfl

/-- **A snapshot can be cut off.**  A commit with an outdated cache and an open of the file
later, a key that the snapshot had pinned cannot be read any more. -/
theorem snapshot_cut_off :
    ∃ (db0 : Database ℕ) (w : MvccFile ℕ) (r : Reader),
      Database.connect sampleExt (.blank 64 (.powerOn .empty)) = .ok () db0 ∧
      ReflTransGen (Step sampleExt sampleCodec 64 fun _ _ => True) (opened db0) w ∧
      r ∈ w.readers ∧ r.isOpen = true ∧ r.taken.Shows sampleExt 64 sampleMap ∧
      sampleMap 1 = some [7] ∧
      r.snapshot.getItem sampleExt sampleCodec 64 w.disk.live 1 =
        .error .databaseCorruptionError := by
  obtain ⟨d, t, hnew, hc, hat, -, hsize⟩ :=
    Database.connect_new sampleExt (by decide : 3 ≤ 64)
  -- the second handle is opened
  obtain ⟨d', t', hopen, hc', hat', -⟩ := Database.connect_spec hc
  have hsize' : d'.live.size = superblockSize := Database.size_of_connect hc hopen
  obtain rfl := hat.eq_empty hc
  obtain rfl := hat'.eq_empty hc'
  -- the second handle commits twice with nothing staged
  obtain ⟨block, hblock⟩ : ∃ block, metaBlock sampleExt.crc32 initialMeta = .ok block :=
    metaBlock_of_lt (by decide) (by decide) (by decide) (by decide)
  obtain ⟨a1, hcommit1, hpub1, hsize1⟩ := Database.commit_idle ⟨d', initialMeta, false, .empty 64⟩ hc'
    hat' le_rfl hblock hsize' (by decide : 0 + 1 < 256 ^ 8)
  have htxn1 : a1.cached.txnId = 1 := hpub1.succeeds.txnId
  obtain ⟨a2, hcommit2, hpub2, hsize2⟩ := hpub1.commit_again (by rw [htxn1]; decide)
  have htxn2 : a2.cached.txnId = 2 := by rw [hpub2.succeeds.txnId, htxn1]
  have hslot2 : a2.cached.slot = 0 := by
    have hslot1 : a1.cached.slot = 1 := hpub1.succeeds.slot
    rw [hpub2.succeeds.slot, hslot1]
  have hend2 : a2.disk.live.size = superblockSize := by rw [hsize2, hsize1, hsize']
  have htree2 := hpub2.atMeta.eq_empty hpub2.committed
  -- then it commits a binding, and takes a snapshot
  obtain ⟨a3, a4, hset, hdisk, hcached, hcommit4, hpub4, -⟩ := sample_commit a2 hpub2.committed
    (roomy_of_size hpub2.committed hend2 (by omega)) hpub2.unlocked hpub2.atMeta.order_eq
  have hkept : readSlot sampleExt.crc32 a4.disk.live 0 = .ok (some a2.cached) := by
    have hattached := Database.Attached.of_unlocked hpub2.committed hpub2.atMeta.order_eq
      hpub2.unlocked
    obtain ⟨t3, hset', hholding⟩ := hattached.set 1 [7]
    obtain rfl : _ = a3 := by simpa [hset'] using hset
    rw [← hslot2]
    exact @Database.commit_keeps_slot _ _ _ _ _ _ { a2 with locked := true, tree := t3 } _
      hpub2.committed hholding hcommit4
  have hgrown : superblockSize ≤ a4.disk.live.size := by
    rw [← hend2, ← hdisk]
    exact hpub4.records.le_right
  have hend : a2.cached.dataLength = superblockSize := by rw [← hpub2.size_eq, hend2]
  -- the first handle commits, and a third one is opened
  obtain ⟨b, hcommitB, hunlockedB, hreverted⟩ := commit_reverts
    ⟨a4.disk, initialMeta, false, .empty 64⟩ (by decide) rfl rfl hpub4.size_lt hkept hslot2
    (by rw [htxn2]; decide) (by rw [← hpub2.atMeta.root_eq, htree2]; rfl)
    (by rw [← hpub2.atMeta.count_eq, htree2]; rfl) hend.ge (by rw [hend]; exact hgrown)
  obtain ⟨d5, t5, hopen5, -⟩ := Database.connect_spec hreverted
  have hcut : d5.live.size = superblockSize := by
    rw [← hend]
    exact Database.size_of_connect hreverted hopen5
  -- the run
  set w0 := opened (⟨d, initialMeta, false, .empty 64⟩ : Database ℕ)
  have hfree : ∀ i, w0.Free i := fun i => free_leave_unlocked (fun _ _ _ ho => by cases ho) rfl
  set w1 := leave { w0 with readers := [reader 1 a4] } 1 ⟨a4, false, 1⟩ false
  have hsnapshot : Step sampleExt sampleCodec 64 (fun _ _ => True) _ w1 :=
    .snapshot_leave hpub4.committed
  have houtdated : Step sampleExt sampleCodec 64 (fun _ _ => True) w1
      (w1.leave 0 ⟨b, false, 0⟩ false) :=
    .commit_ok (o := ⟨initialMeta, false, .empty 64, false, 0, false⟩) rfl rfl
      (free_leave_unlocked (hfree 0) hpub4.unlocked) trivial hcommitB
  have hthird : Step sampleExt sampleCodec 64 (fun _ _ => True) (w1.leave 0 ⟨b, false, 0⟩ false) _ :=
    .connect (i := 2) rfl
      (free_leave_unlocked (free_leave_unlocked (hfree 2) hpub4.unlocked) hunlockedB) hopen5
  have hrun := ((((((ReflTransGen.single (.connect rfl (hfree 1) hopen)).tail
    (.commit_leave (hfree 1) trivial hcommit1)).tail
    (.commit_leave (hfree 1) trivial hcommit2)).trans
    (run_update_commit (u := .set 1 [7]) (hfree 1) hset trivial hcommit4)).tail hsnapshot).tail
    houtdated).tail hthird
  -- the root of the snapshot lies beyond the end of the file
  have hroot : superblockSize ≤ a4.cached.rootAddress := by
    rw [← hpub4.atMeta.root_eq]
    cases htree : a4.tree.treeRef with
    | some root => exact (hpub4.atMeta.onFile root htree).recordAt.ge
    | none =>
      have hholds := (hpub4.atMeta.holding hpub4.committed.le hpub4.committed).holds
      have hmem : (1, [7]) ∈ a4.tree.items := (hholds.represents.mem_iff 1 [7]).mpr rfl
      rw [BPlusTree.items, htree] at hmem
      cases hmem
  refine ⟨_, _, reader 1 a4, hnew, hrun, List.mem_singleton.mpr rfl, rfl, shows_of_committed hpub4.committed, rfl, getItem_of_size_le ?_ ?_ 1⟩
  · have : 0 < superblockSize := by decide
    exact (this.trans_le hroot).ne'
  · exact hcut.le.trans hroot

end MvccFile
