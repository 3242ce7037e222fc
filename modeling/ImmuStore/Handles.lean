/-
# Several handles on one file

Any number of handles work on one file and take turns at its lock.  A handle refreshes
its cache when it takes the lock in order to stage something, and when it reads without
the lock; a commit with nothing staged does neither.  It therefore publishes the map of
whatever the handle has read last: right if that is the map committed last, and the
loss of every later commit if it is not.
-/
import ImmuStore.Recovery
import ImmuStore.Runs

open Relation Storage

variable {α : Type} [LinearOrder α] {ext : Externals α} {order : ℕ} {f g : File} {m m' : Meta}
  {c c' : α → Option Bytes}

/-! ## The model -/

/-- A handle on a shared file, and the updates staged on it since its last commit. -/
structure FileHandle (α : Type) where
  cached : Meta
  locked : Bool
  tree : BPlusTree α Bytes
  staged : List (Update α Bytes)

/-- A file, and the handles that are open on it. -/
structure SharedFile (α : Type) where
  disk : Disk
  handles : ℕ → Option (FileHandle α)

/-- A call on one of the handles. -/
inductive HandleCall (α : Type) where
  | connect (i : ℕ)
  | get (i : ℕ) (key : α)
  | update (i : ℕ) (u : Update α Bytes)
  | commit (i : ℕ)

namespace SharedFile

variable {w w' : SharedFile α} {i : ℕ} {h : FileHandle α}
variable {db : Database α}
variable {u : Update α Bytes}

/-- The state that a method of the handle works on. -/
def database (w : SharedFile α) (h : FileHandle α) : Database α :=
  ⟨w.disk, h.cached, h.locked, h.tree⟩

/-- The state that a call on handle `i` leaves. -/
def leave (w : SharedFile α) (i : ℕ) (db : Database α) (staged : List (Update α Bytes)) :
    SharedFile α :=
  ⟨db.disk, Function.update w.handles i (some ⟨db.cached, db.locked, db.tree, staged⟩)⟩

omit [LinearOrder α] in
@[simp] theorem handles_leave_self (w : SharedFile α) (i : ℕ) (db : Database α)
    (staged : List (Update α Bytes)) :
    (w.leave i db staged).handles i = some ⟨db.cached, db.locked, db.tree, staged⟩ :=
  Function.update_self _ _ _

omit [LinearOrder α] in
theorem handles_leave_of_ne (w : SharedFile α) {i j : ℕ} (hj : j ≠ i) (db : Database α)
    (staged : List (Update α Bytes)) : (w.leave i db staged).handles j = w.handles j :=
  Function.update_of_ne hj _ _

/-- Handle `i` does not wait for the lock: no other handle holds it. -/
def Free (w : SharedFile α) (i : ℕ) : Prop :=
  ∀ j ≠ i, ∀ h, w.handles j = some h → h.locked = false

omit [LinearOrder α] in
theorem free_leave {staged : List (Update α Bytes)} (hfree : w.Free i) :
    (w.leave i db staged).Free i :=
  LockFree.update FileHandle.locked hfree

variable (ext) (order) in
/-- The calls, each of them as one step.  Opening a file takes the lock for its
recovery; reading never waits. -/
inductive Step :
    SharedFile α → HandleCall α → SharedFile α → Prop
  | connect {w : SharedFile α} {i : ℕ} {db : Database α} : w.handles i = none → w.Free i →
      Database.connect ext (.blank order w.disk) = .ok () db →
      Step w (.connect i) (w.leave i db [])
  | get {w : SharedFile α} {i : ℕ} {h : FileHandle α} (key : α) : w.handles i = some h →
      Step w (.get i key)
        (w.leave i (resultState ((w.database h).get ext key)) h.staged)
  | update {w : SharedFile α} {i : ℕ} {h : FileHandle α} {u : Update α Bytes} {db : Database α} :
      w.handles i = some h → w.Free i → (w.database h).update ext u = .ok () db →
      Step w (.update i u) (w.leave i db (h.staged ++ [u]))
  | updateRaises {w : SharedFile α} {i : ℕ} {h : FileHandle α} {u : Update α Bytes}
      {db : Database α} {e : PyError} : w.handles i = some h → w.Free i →
      (w.database h).update ext u = .error e db →
      Step w (.update i u) (w.leave i db h.staged)
  | commit {w : SharedFile α} {i : ℕ} {h : FileHandle α} {db : Database α} :
      w.handles i = some h → w.Free i → (w.database h).commit ext = .ok () db →
      Step w (.commit i) (w.leave i db [])
  | commitRaises {w : SharedFile α} {i : ℕ} {h : FileHandle α} {db : Database α} {e : PyError} :
      w.handles i = some h → w.Free i → (w.database h).commit ext = .error e db →
      Step w (.commit i) (w.leave i db h.staged)

/-- The file with the handle that created it. -/
def new (db : Database α) : SharedFile α := leave ⟨db.disk, fun _ => none⟩ 0 db []

/-- The map that a reader of the file finds. -/
def Shows (ext : Externals α) (order : ℕ) (w : SharedFile α) (c : α → Option Bytes) : Prop :=
  (Database.blank order (.powerOn w.disk.live)).Serves ext c

/-- Between `w` and `w'` the staged updates were published, with a higher transaction
id. -/
def Publishes (ext : Externals α) (order : ℕ) (w w' : SharedFile α)
    (staged : List (Update α Bytes)) : Prop :=
  ∃ c m m', w.Shows ext order c ∧ w'.Shows ext order (Update.applyAll c staged) ∧
    readBestMeta ext.crc32 w.disk.live = .ok m ∧ readBestMeta ext.crc32 w'.disk.live = .ok m' ∧
    m.txnId < m'.txnId

/-- The cache of the handle is the meta block that the file adopts. -/
def Current (ext : Externals α) (w : SharedFile α) (h : FileHandle α) : Prop :=
  readBestMeta ext.crc32 w.disk.live = .ok h.cached

/-- A step that is not a commit with an outdated cache. -/
def CurrentStep (ext : Externals α) (order : ℕ) (w w' : SharedFile α) : Prop :=
  ∃ call, Step ext order w call w' ∧
    ∀ i h, call = .commit i → w.handles i = some h → w.Current ext h

/-! ## The invariant -/

/-- A handle on a file that has committed `m` and `c`: with the lock, its cache is
current and its tree is the committed map with the staged updates; without it, nothing
is staged and its tree is that of its cache, which may be outdated. -/
structure Joined (ext : Externals α) (order : ℕ) (f : File) (m : Meta) (c : α → Option Bytes)
    (h : FileHandle α) : Prop where
  order_eq : h.tree.order = order
  locked : h.locked = true →
    h.cached = m ∧ Holding ext order f h.tree (Update.applyAll c h.staged)
  unlocked : h.locked = false →
    h.staged = [] ∧ AtMeta ext order f m.dataLength h.cached h.tree
  older : h.cached = m ∨ h.cached.txnId < m.txnId

/-- The invariant of a shared file. -/
structure Inv (ext : Externals α) (order : ℕ) (w : SharedFile α) (m : Meta)
    (c : α → Option Bytes) : Prop where
  committed : Committed ext order w.disk.live m c
  alone : ∀ i h, w.handles i = some h → h.locked = true → w.Free i
  joined : ∀ i h, w.handles i = some h → Joined ext order w.disk.live m c h

theorem Joined.attached (hj : Joined ext order w.disk.live m c h)
    (hc : Committed ext order w.disk.live m c) :
    (w.database h).Attached ext order m c (Update.applyAll c h.staged) where
  committed := hc
  order_eq := hj.order_eq
  locked := hj.locked
  unlocked := by
    intro hl
    rw [(hj.unlocked hl).1]
    rfl

/-- A handle without the lock outlives what others write. -/
theorem Joined.transfer (hj : Joined ext order f m c h) (hl : h.locked = false)
    (hfg : SameRecords m.dataLength f g) (hle : m.dataLength ≤ m'.dataLength)
    (hsize : m'.dataLength ≤ g.size) (hnext : m' = m ∨ m.txnId < m'.txnId) :
    Joined ext order g m' c' h where
  order_eq := hj.order_eq
  locked := by simp [hl]
  unlocked := fun _ => ⟨(hj.unlocked hl).1, (hj.unlocked hl).2.mono hfg hle hsize⟩
  older := by
    rcases hnext with rfl | hlt
    · exact hj.older
    · rcases hj.older with heq | hlt'
      · exact .inr (heq ▸ hlt)
      · exact .inr (hlt'.trans hlt)

/-- The invariant after a call, if it holds of the handle that was called and still
holds of the others. -/
theorem Inv.leave (hinv : w.Inv ext order m c) {staged : List (Update α Bytes)}
    (hlock : db.locked = true → w.Free i) (hc : Committed ext order db.disk.live m' c')
    (hothers : ∀ j ≠ i, ∀ h, w.handles j = some h → Joined ext order db.disk.live m' c' h)
    (hnew : Joined ext order db.disk.live m' c' ⟨db.cached, db.locked, db.tree, staged⟩) :
    (w.leave i db staged).Inv ext order m' c' where
  committed := hc
  alone := alone_update FileHandle.locked hinv.alone hlock
  joined := forall_update hothers hnew

/-- A file is read as what it has committed. -/
theorem shows_of_committed (hc : Committed ext order w.disk.live m c) : w.Shows ext order c :=
  Database.serves_of_committed hc

theorem Inv.current_iff (hinv : w.Inv ext order m c) : w.Current ext h ↔ h.cached = m := by
  rw [Current, hinv.committed.adopted.readBestMeta]
  constructor
  · intro heq
    exact (Except.ok.inj heq).symm
  · intro heq
    rw [heq]

/-! ## One call -/

theorem inv_new (hnew : Database.connect ext (.blank order (.powerOn .empty)) = .ok () db) :
    (new db).Inv ext order initialMeta fun _ => none := by
  obtain ⟨d, t, hrun, hc, hat, -, hsize⟩ :=
    Database.connect_new ext (Database.order_ge_of_connect hnew)
  obtain rfl : db = _ := by simpa [hnew] using hrun
  refine ⟨hc, ?_, ?_⟩
  · exact alone_update FileHandle.locked (fun _ _ hh => by cases hh) fun hl => by cases hl
  · refine forall_update (fun _ _ _ hh => by cases hh)
      ⟨hat.order_eq, fun hl => (by cases hl), fun _ => ⟨rfl, ?_⟩, .inl rfl⟩
    rw [hsize] at hat
    exact hat

section

variable (hinv : w.Inv ext order m c)
include hinv

theorem Inv.connect (hfree : w.Free i)
    (hrun : Database.connect ext (.blank order w.disk) = .ok () db) :
    (w.leave i db []).Inv ext order m c := by
  obtain ⟨d, t, rfl, hc, hat, hsame⟩ := Database.connect_ok hinv.committed hrun
  obtain ⟨t', hat', -⟩ := hc.tree
  obtain rfl := hat.unique hat'
  refine hinv.leave (fun hl => by cases hl) hc ?_
    ⟨hat.order_eq, fun hl => (by cases hl), fun _ => ⟨rfl, hat'⟩, .inl rfl⟩
  intro j hj h hh
  exact (hinv.joined j h hh).transfer (hfree j hj h hh) (.of_sameBelow hsame) le_rfl hc.le
    (.inl rfl)

theorem Inv.get (hh : w.handles i = some h) (key : α) :
    (w.leave i (resultState ((w.database h).get ext key)) h.staged).Inv ext order m c := by
  have hj := hinv.joined i h hh
  rcases (hj.attached hinv.committed).resultState_get key with ⟨hl, hrun⟩ | ⟨hl, t, hat, hrun⟩
  · rw [hrun]
    exact hinv.leave (fun _ => hinv.alone i h hh hl) hinv.committed
      (fun j _ h' hh' => hinv.joined j h' hh') hj
  · rw [hrun]
    have hunlocked : (w.database h).locked ≠ true := by simp [hl]
    exact hinv.leave (fun hl' => absurd hl' hunlocked) hinv.committed
      (fun j _ h' hh' => hinv.joined j h' hh')
      ⟨hat.order_eq, fun hl' => absurd hl' hunlocked, fun _ => ⟨(hj.unlocked hl).1, hat⟩, .inl rfl⟩

/-- After a call of `set` or `delete` the handle holds the lock. -/
theorem Inv.staged (hfree : w.Free i) {t : BPlusTree α Bytes} {staged : List (Update α Bytes)}
    (hholding : Holding ext order w.disk.live t (Update.applyAll c staged)) :
    (w.leave i ⟨w.disk, m, true, t⟩ staged).Inv ext order m c :=
  hinv.leave (fun _ => hfree) hinv.committed (fun j _ h' hh' => hinv.joined j h' hh')
    ⟨hholding.holds.order_eq, fun _ => ⟨rfl, hholding⟩, fun hl => (by cases hl), .inl rfl⟩

section

variable (hh : w.handles i = some h)
include hh

theorem Inv.update (hfree : w.Free i) (hrun : (w.database h).update ext u = .ok () db) :
    (w.leave i db (h.staged ++ [u])).Inv ext order m c := by
  have happend : Update.applyAll c (h.staged ++ [u]) = u.applyTo (Update.applyAll c h.staged) := by
    simp [Update.applyAll]
  obtain ⟨t, hholding, hrun' | ⟨-, hrun'⟩⟩ :=
    ((hinv.joined i h hh).attached hinv.committed).update u
  · obtain rfl : db = _ := by simpa [hrun] using hrun'
    exact hinv.staged hfree (happend ▸ hholding)
  · simp [hrun] at hrun'

theorem Inv.updateRaises (hfree : w.Free i) {e : PyError}
    (hrun : (w.database h).update ext u = .error e db) :
    (w.leave i db h.staged).Inv ext order m c := by
  obtain ⟨t, hholding, hrun' | ⟨hsame, hrun'⟩⟩ :=
    ((hinv.joined i h hh).attached hinv.committed).update u
  · simp [hrun] at hrun'
  · obtain ⟨-, rfl⟩ : e = .keyError ∧ db = _ := by simpa [hrun] using hrun'
    exact hinv.staged hfree (hsame ▸ hholding)

/-- A handle whose cache is current holds the committed map with what it has staged. -/
theorem Inv.holding (hcurrent : h.cached = m) :
    Holding ext order w.disk.live h.tree (Update.applyAll c h.staged) := by
  have hj := hinv.joined i h hh
  cases hl : h.locked with
  | true => exact (hj.locked hl).2
  | false =>
    obtain ⟨hstaged, hat⟩ := hj.unlocked hl
    rw [hcurrent] at hat
    rw [hstaged]
    exact hat.holding hinv.committed.le hinv.committed

/-- A commit with a current cache publishes what is staged. -/
theorem Inv.commit (hfree : w.Free i) (hcurrent : h.cached = m)
    (hrun : (w.database h).commit ext = .ok () db) :
    (w.leave i db []).Inv ext order db.cached (Update.applyAll c h.staged) ∧
      m.txnId < db.cached.txnId := by
  subst hcurrent
  have hpub := Database.commit_published hinv.committed (hinv.holding hh rfl) hrun
  have htxn : h.cached.txnId < db.cached.txnId := by
    have : db.cached.txnId = h.cached.txnId + 1 := hpub.succeeds.txnId
    omega
  obtain ⟨hrecords, hgrown⟩ := hpub.records_of_le hinv.committed.le
  refine ⟨hinv.leave (fun _ => hfree) hpub.committed ?_ ?_, htxn⟩
  · intro j hj h' hh'
    exact (hinv.joined j h' hh').transfer (hfree j hj h' hh') hrecords hgrown
      hpub.committed.le (.inr htxn)
  · refine ⟨hpub.atMeta.order_eq, fun hl => ?_, fun _ => ⟨rfl, hpub.atMeta⟩, .inl rfl⟩
    simp [hpub.unlocked] at hl

theorem Inv.commitRaises (hfree : w.Free i) (hcurrent : h.cached = m) {e : PyError}
    (hrun : (w.database h).commit ext = .error e db) :
    (w.leave i db h.staged).Inv ext order m c := by
  subst hcurrent
  obtain ⟨hcached, hholding, hsame, hcases⟩ :=
    Database.commit_raised hinv.committed (hinv.holding hh rfl) hrun
  have hbelow : File.SameBelow h.cached.dataLength w.disk.live db.disk.live :=
    hsame.mono hinv.committed.le
  have hc := hinv.committed.sameBelow hbelow
  have hlocked : db.locked = true := by
    rcases hcases with hl | ⟨hl, root, hroot, hzero⟩
    · exact hl
    · by_contra hne
      rw [hl] at hne
      have hunlocked : h.locked = false := Bool.eq_false_of_not_eq_true hne
      exact (((hinv.joined i h hh).unlocked hunlocked).2.onFile root hroot).address_ne_zero hzero
  refine hinv.leave (fun _ => hfree) hc ?_ ⟨hholding.holds.order_eq, fun _ => ⟨hcached, hholding⟩,
    fun hl => ?_, .inl hcached⟩
  · intro j hj h' hh'
    exact (hinv.joined j h' hh').transfer (hfree j hj h' hh') (.of_sameBelow hbelow) le_rfl
      hc.le (.inl rfl)
  · rw [hlocked] at hl
    cases hl

end

end

/-- One step keeps the invariant. -/
theorem CurrentStep.inv (hstep : CurrentStep ext order w w') (hinv : w.Inv ext order m c) :
    ∃ m' c', w'.Inv ext order m' c' := by
  obtain ⟨call, hstep, hcurrent⟩ := hstep
  cases hstep with
  | connect _ hfree hrun => exact ⟨m, c, hinv.connect hfree hrun⟩
  | get key hh => exact ⟨m, c, hinv.get hh key⟩
  | update hh hfree hrun => exact ⟨m, c, hinv.update hh hfree hrun⟩
  | updateRaises hh hfree hrun => exact ⟨m, c, hinv.updateRaises hh hfree hrun⟩
  | commit hh hfree hrun =>
    exact ⟨_, _, (hinv.commit hh hfree (hinv.current_iff.mp (hcurrent _ _ rfl hh)) hrun).1⟩
  | commitRaises hh hfree hrun =>
    exact ⟨m, c, hinv.commitRaises hh hfree (hinv.current_iff.mp (hcurrent _ _ rfl hh)) hrun⟩

/-! ## Commits with an outdated cache -/

/-- A commit with an outdated cache writes the meta block after the one it knows, which
is no newer than the adopted one. -/
theorem Inv.commit_outdated (hinv : w.Inv ext order m c) (hh : w.handles i = some h)
    (houtdated : h.cached ≠ m) (hrun : (w.database h).commit ext = .ok () db) {best : Meta}
    (hbest : readBestMeta ext.crc32 db.disk.live = .ok best) :
    best.txnId ≤ m.txnId := by
  have hj := hinv.joined i h hh
  have hunlocked : h.locked = false := by
    by_contra hl
    exact houtdated (hj.locked (by simpa using hl)).1
  have hlt : h.cached.txnId < m.txnId := hj.older.resolve_left houtdated
  obtain ⟨-, hat⟩ := hj.unlocked hunlocked
  rw [Database.commit_of_onFile hat.onFile] at hrun
  set m' := (w.database h).nextMeta (w.database h).rootAddress (w.database h).tree.count with hm'
  cases hblock : metaBlock ext.crc32 m' with
  | error e => simp [hblock] at hrun
  | ok block =>
    have hslot : m'.slot = 1 - h.cached.slot := rfl
    rw [hblock] at hrun
    have hlive : db.disk.live = w.disk.live.write (m'.slot * metaSlotSize) block := by
      rw [Database.disk_eq_of_refresh hrun, hslot]
      simp [database]
    rw [hlive] at hbest
    obtain ⟨-, -, -, -, hlen⟩ := metaBlock_ok hblock
    refine hinv.committed.adopted.readBestMeta_le (by omega : m'.slot < 2) hlt ?_
      (readSlot_of_at hblock (File.at_write _ _ _)) hbest
    exact sameButSlot_write (by omega) hinv.committed.size_ge hlen.le

/-! ## Two handles

Two handles are open on a new file.  The second commits a binding; the first, which has
staged nothing and read nothing since it was opened, commits too. -/

/-- The commit of a handle that still has the cache of the new file overwrites the first
commit of the file. -/
theorem commit_overwrites (db : Database α) (hc : Committed ext order db.disk.live m c)
    (hfirst : m.Succeeds initialMeta) (hsize : db.disk.live.size < 256 ^ 8)
    (hcached : db.cached = initialMeta) (htree : db.tree = .empty order) :
    ∃ db' m', db.commit ext = .ok () db' ∧
      Committed ext order db'.disk.live m' fun _ => none := by
  obtain ⟨f, hsame, hslot, hcommit⟩ := Database.commit_stale db hc.size_ge hsize hcached htree
  have hadopted : Adopted ext.crc32 f ⟨1, 0, 0, db.disk.live.size, 1⟩ := by
    refine hc.adopted.overwritten ?_ ?_ hsame hslot
    · rw [hfirst.txnId]
      rfl
    · rw [hfirst.slot]
      rfl
  obtain ⟨db', hrun, -, hpub⟩ :=
    hcommit (.of_empty hadopted hc.order_ge rfl rfl hc.size_ge hsame.size_eq.ge)
  exact ⟨db', _, hrun, hpub⟩

/-- The first handle commits after the second, with the cache of the new file. -/
theorem sample_handles :
    ∃ (db0 db2 db : Database ℕ) (w : SharedFile ℕ) (h h0 : FileHandle ℕ),
      Database.connect sampleExt (.blank 64 (.powerOn .empty)) = .ok () db0 ∧
      ReflTransGen (CurrentStep sampleExt 64) (new db0) w ∧
      (w.handles 1 = some h ∧ h.staged = [.set 1 [7]] ∧ w.Free 1 ∧ w.Current sampleExt h ∧
        (w.database h).commit sampleExt = .ok () db2) ∧
      ((w.leave 1 db2 []).handles 0 = some h0 ∧ h0.staged = [] ∧ (w.leave 1 db2 []).Free 0 ∧
        ¬ (w.leave 1 db2 []).Current sampleExt h0 ∧
        ((w.leave 1 db2 []).database h0).commit sampleExt = .ok () db) ∧
      (w.leave 1 db2 []).Shows sampleExt 64 sampleMap ∧
      ((w.leave 1 db2 []).leave 0 db []).Shows sampleExt 64 fun _ => none := by
  obtain ⟨d, t, hnew, hc, hat, -, hsize⟩ :=
    Database.connect_new sampleExt (by decide : 3 ≤ 64)
  -- the second handle is opened, stages a binding and commits it
  obtain ⟨d', t', hopen, hc', hat', -⟩ := Database.connect_spec hc
  have hsize' : d'.live.size = superblockSize := Database.size_of_connect hc hopen
  obtain ⟨db1, db2, hset, hdisk, hcached, hcommit, hpub, -⟩ :=
    sample_commit ⟨d', initialMeta, false, t'⟩ hc' (roomy_new hc' hsize') rfl hat'.order_eq
  set w0 := new ⟨d, initialMeta, false, t⟩
  set w1 := w0.leave 1 ⟨d', initialMeta, false, t'⟩ [] with hw1
  set w2 := w1.leave 1 db1 [.set 1 [7]] with hw2
  set w3 := w2.leave 1 db2 [] with hw3
  have hfree : ∀ i, w0.Free i := fun i =>
    LockFree.update_unlocked FileHandle.locked (fun _ _ _ hh => by cases hh) rfl
  have hconnect : CurrentStep sampleExt 64 w0 w1 :=
    ⟨_, .connect rfl (hfree 1) hopen, fun _ _ hcall => by cases hcall⟩
  have hupdate : CurrentStep sampleExt 64 w1 w2 :=
    ⟨_, .update (handles_leave_self _ _ _ _) (free_leave (hfree 1)) hset, fun _ _ hcall => by
      cases hcall⟩
  have hcurrent : w2.Current sampleExt ⟨db1.cached, db1.locked, db1.tree, [.set 1 [7]]⟩ := by
    rw [Current, hcached]
    simp only [hw2, leave, hdisk]
    exact hc'.adopted.readBestMeta
  -- the first handle is as it was opened
  have hfree0 : w3.Free 0 := by
    have hleave : w3 = w0.leave 1 db2 [] := by simp [hw3, hw2, hw1, leave]
    rw [hleave]
    exact LockFree.update_unlocked FileHandle.locked (hfree 0) hpub.unlocked
  have houtdated : ¬ w3.Current sampleExt ⟨initialMeta, false, t, []⟩ := by
    intro hbest
    rw [Current, show w3.disk = db2.disk from rfl, hpub.committed.adopted.readBestMeta] at hbest
    have htxn := hpub.succeeds.txnId
    rw [Except.ok.inj hbest, hcached] at htxn
    cases htxn
  have htree : t = .empty 64 := hat.unique (atMeta_empty _ _ _ 0)
  obtain ⟨db, m', hlost, hc4⟩ := commit_overwrites
    (w3.database ⟨initialMeta, false, t, []⟩) hpub.committed (hcached ▸ hpub.succeeds)
    hpub.size_lt rfl htree
  exact ⟨_, db2, db, w2, _, _, hnew, (ReflTransGen.single hconnect).tail hupdate,
    ⟨handles_leave_self _ _ _ _, rfl, free_leave (free_leave (hfree 1)), hcurrent, hcommit⟩,
    ⟨rfl, rfl, hfree0, houtdated, hlost⟩, shows_of_committed hpub.committed,
    shows_of_committed hc4⟩

/-! ## Lost commits -/

/-- **A commit publishes what is staged on its handle, on top of what was committed
last, exactly if its cache is current.**  In any run whose commits all have a current
cache, a commit that returns publishes the map committed last with the updates staged
on its handle, under a higher transaction id, if and only if its cache is current. -/
theorem commit_publishes_iff_current (ext : Externals α) (order : ℕ) {db0 : Database α}
    (hnew : Database.connect ext (.blank order (.powerOn .empty)) = .ok () db0)
    (hrun : ReflTransGen (CurrentStep ext order) (new db0) w)
    (hh : w.handles i = some h) (hfree : w.Free i) {db : Database α}
    (hcommit : (w.database h).commit ext = .ok () db) :
    Publishes ext order w (w.leave i db []) h.staged ↔ w.Current ext h := by
  have hinv : ∃ m c, w.Inv ext order m c := by
    clear hh hfree hcommit
    induction hrun with
    | refl => exact ⟨_, _, inv_new hnew⟩
    | tail _ hstep ih =>
      obtain ⟨m, c, hinv⟩ := ih
      exact hstep.inv hinv
  obtain ⟨m, c, hinv⟩ := hinv
  constructor
  · rintro ⟨c', m1, m2, -, -, hbest, hbest', hlt⟩
    by_contra houtdated
    rw [hinv.current_iff] at houtdated
    have hle := hinv.commit_outdated hh houtdated hcommit hbest'
    rw [hinv.committed.adopted.readBestMeta] at hbest
    cases hbest
    omega
  · intro hcurrent
    obtain ⟨hinv', htxn⟩ := hinv.commit hh hfree (hinv.current_iff.mp hcurrent) hcommit
    exact ⟨c, m, db.cached, shows_of_committed hinv.committed, shows_of_committed hinv'.committed,
      hinv.committed.adopted.readBestMeta, hinv'.committed.adopted.readBestMeta, htxn⟩

/-- The commit of the second handle publishes; the one of the first does not. -/
theorem commit_publishes_iff_current_sample :
    ∃ (db0 db2 db : Database ℕ) (w : SharedFile ℕ),
      Database.connect sampleExt (.blank 64 (.powerOn .empty)) = .ok () db0 ∧
      ReflTransGen (CurrentStep sampleExt 64) (new db0) w ∧
      Publishes sampleExt 64 w (w.leave 1 db2 []) [.set 1 [7]] ∧
      ¬ Publishes sampleExt 64 (w.leave 1 db2 []) ((w.leave 1 db2 []).leave 0 db []) [] := by
  obtain ⟨db0, db2, db, w, h, h0, hnew, hrun, ⟨hh, hstaged, hfree, hcurrent, hcommit⟩,
    ⟨hh0, hstaged0, hfree0, houtdated, hcommit0⟩, -⟩ := sample_handles
  have hcommits : CurrentStep sampleExt 64 w (w.leave 1 db2 []) := by
    refine ⟨_, .commit hh hfree hcommit, ?_⟩
    rintro i h' ⟨⟩ hh'
    rw [hh] at hh'
    cases hh'
    exact hcurrent
  have hsecond := commit_publishes_iff_current sampleExt 64 hnew hrun hh hfree hcommit
  have hfirst := commit_publishes_iff_current sampleExt 64 hnew (hrun.tail hcommits) hh0
    hfree0 hcommit0
  rw [hstaged] at hsecond
  rw [hstaged0] at hfirst
  exact ⟨db0, db2, db, w, hnew, hrun, hsecond.mpr hcurrent, fun hpub => houtdated (hfirst.mp hpub)⟩

/-- **A commit with nothing staged can undo the commits of others.** -/
theorem commit_loses_update :
    ∃ (db0 db : Database ℕ) (w : SharedFile ℕ) (h : FileHandle ℕ),
      Database.connect sampleExt (.blank 64 (.powerOn .empty)) = .ok () db0 ∧
      ReflTransGen (fun w w' => ∃ call, Step sampleExt 64 w call w') (new db0) w ∧
      w.handles 0 = some h ∧ h.staged = [] ∧ w.Free 0 ∧
      (w.database h).commit sampleExt = .ok () db ∧
      w.Shows sampleExt 64 sampleMap ∧
      (w.leave 0 db []).Shows sampleExt 64 (fun _ => none) := by
  obtain ⟨db0, db2, db, w, h, h0, hnew, hrun, ⟨hh, -, hfree, -, hcommit⟩,
    ⟨hh0, hstaged0, hfree0, -, hcommit0⟩, hbefore, hafter⟩ := sample_handles
  have hsteps : ReflTransGen (fun w w' => ∃ call, Step sampleExt 64 w call w')
      (new db0) w :=
    hrun.lift id fun _ _ h => h.imp fun _ => And.left
  exact ⟨db0, db, _, h0, hnew, hsteps.tail ⟨_, .commit hh hfree hcommit⟩, hh0, hstaged0, hfree0,
    hcommit0, hbefore, hafter⟩

end SharedFile
