/-
# Crashes and recovery

A database is used through one handle, loses power at any point, and is opened again,
any number of times.  A run keeps two maps beside the handle: the one committed last
and the one staged.  A crash is allowed to leave the first of them, and also the second
if it comes during a commit; opening the file finds one that is allowed.
-/
import ImmuStore.ShortCommits

open Relation Storage

variable {α : Type} [LinearOrder α] {ext : Externals α} {order : ℕ} {f g : File} {m m' : Meta}
  {t : BPlusTree α Bytes} {c s : α → Option Bytes} {d d' : Disk} {db db' : Database α}

/-! ## What a crash leaves -/

/-- What is assumed of a crash during the write of a meta slot: unless the slot is left
as it was or as it should be, its checksum fails. -/
def TornSlotFails (crc32 : Bytes → ℕ) (f : File) (op : DiskOp) (g : File) : Prop :=
  ∀ index < 2, ∀ block, op = .write (index * metaSlotSize) block →
    g.read (index * metaSlotSize) metaSlotSize = f.read (index * metaSlotSize) metaSlotSize ∨
      g.read (index * metaSlotSize) metaSlotSize = block ∨ CrcFails crc32 g index

/-- The disk has committed `c`, and a crash cannot touch that. -/
structure Safe (ext : Externals α) (order : ℕ) (m : Meta) (c : α → Option Bytes) (d : Disk) :
    Prop where
  committed : Committed ext order d.live m c
  guarded : d.Guarded m.dataLength

/-- Whatever a crash leaves has committed one of `maps`. -/
def CrashSafe (ext : Externals α) (order : ℕ) (maps : Set (α → Option Bytes)) (d : Disk) : Prop :=
  ∀ f, d.Crashed (TornSlotFails ext.crc32) f → ∃ m, ∃ c ∈ maps, Committed ext order f m c

theorem Committed.below (ext : Externals α) (order : ℕ) (m : Meta) (c : α → Option Bytes) :
    Disk.Below m.dataLength fun f => Committed ext order f m c :=
  ⟨fun h => h.le, fun h hfg => h.sameBelow hfg⟩

theorem safe_iff_secure : Safe ext order m c d ↔
    d.Secure m.dataLength fun f => Committed ext order f m c :=
  ⟨fun h => ⟨h.committed, h.guarded⟩, fun h => ⟨h.holds, h.guarded⟩⟩

namespace Safe

theorem crashSafe (h : Safe ext order m c d) {maps : Set (α → Option Bytes)} (hc : c ∈ maps) :
    CrashSafe ext order maps d := fun _ hf =>
  ⟨m, c, hc, (safe_iff_secure.mp h).crashed (Committed.below ext order m c) hf⟩

theorem write (h : Safe ext order m c d) {pos : ℕ} (hpos : m.dataLength ≤ pos) (data : Bytes) :
    Safe ext order m c (d.push (.write pos data)) :=
  safe_iff_secure.mpr ((safe_iff_secure.mp h).write (Committed.below ext order m c) hpos data)

theorem truncate (h : Safe ext order m c d) {n : ℕ} (hn : m.dataLength ≤ n) :
    Safe ext order m c (d.push (.truncate n)) :=
  safe_iff_secure.mpr ((safe_iff_secure.mp h).truncate (Committed.below ext order m c) hn)

theorem flush (h : Committed ext order d.live m c) : Safe ext order m c (d.push .flush) :=
  safe_iff_secure.mpr (.flush h (Committed.below ext order m c))

theorem powerOn (h : Committed ext order f m c) : Safe ext order m c (.powerOn f) :=
  safe_iff_secure.mpr (.powerOn h (Committed.below ext order m c))

/-- Appending records is safe all along. -/
theorem appends (h : Safe ext order m c d) (happ : d.Appends d') :
    Disk.Throughout (Safe ext order m c) d d' :=
  ((safe_iff_secure.mp h).appends (Committed.below ext order m c) happ).mono fun _ => safe_iff_secure.mpr

end Safe

/-! ## Crashes during a commit -/

/-- What may be found in a slot whose write was interrupted. -/
theorem crashed_slot {crc32 : Bytes → ℕ} {index : ℕ} {block : Bytes} (hindex : index < 2)
    (hlen : block.length = metaSlotSize) (hsize : superblockSize ≤ d.live.size)
    (hf : ((d.push .flush).push (.write (index * metaSlotSize) block)).Crashed
      (TornSlotFails crc32) f) :
    SameButSlot index d.live f ∧
      (readSlot crc32 f index = readSlot crc32 d.live index ∨ f.At (index * metaSlotSize) block ∨
        readSlot crc32 f index = .ok none) := by
  rw [Disk.Crashed, Disk.durable_write, Disk.durable_flush, Disk.pending_write,
    Disk.pending_flush, List.nil_append] at hf
  cases hf with
  | cons hsurvives htorn hrest =>
    cases hrest
    have hsame : SameButSlot index d.live f := by
      cases hsurvives with
      | lost => exact ⟨hsize, rfl, fun _ _ => rfl⟩
      | written pos data k =>
        refine sameButSlot_write hindex hsize ?_
        rw [List.length_take, hlen]
        exact Nat.min_le_right _ _
    refine ⟨hsame, ?_⟩
    rcases htorn index hindex block rfl with hold | hnew | hfails
    · refine .inl (readSlot_congr ?_)
      have hle : metaBodyBytes + metaCrcBytes ≤ metaSlotSize := by decide
      rw [← File.take_read f _ hle, hold, File.take_read _ _ hle]
    · refine .inr (.inl (.of_read (by rw [hlen]; exact hnew) ?_))
      have := hsame.size_eq
      simp only [hlen, metaSlotSize, superblockSize] at *
      omega
    · exact .inr (.inr (readSlot_of_crcFails hfails))

/-- A crash during the slot write leaves the map committed before or the one being
published. -/
theorem crashSafe_slot (h : Committed ext order d.live m c)
    (hat : AtMeta ext order d.live d.live.size m' t) (hholds : BPlusTree.Holds order t s)
    (hsucc : m'.Succeeds m) (hlen : m'.dataLength = d.live.size) {block : Bytes}
    (hblock : metaBlock ext.crc32 m' = .ok block) :
    CrashSafe ext order {c, s} ((d.push .flush).push (.write (m'.slot * metaSlotSize) block)) := by
  intro f hf
  have hslot := hsucc.slot
  obtain ⟨-, -, -, -, hblockLen⟩ := metaBlock_ok hblock
  obtain ⟨hsame, hfound⟩ := crashed_slot (by omega) hblockLen h.size_ge hf
  rcases hfound with hold | hnew | hnone
  · rw [hslot] at hsame hold
    exact ⟨m, c, .inl rfl, h.torn hsame (.inr hold)⟩
  · exact ⟨m', s, .inr rfl, h.publish hat hholds hsucc hlen hblock hsame hnew⟩
  · rw [hslot] at hsame hnone
    exact ⟨m, c, .inl rfl, h.torn hsame (.inl hnone)⟩

/-- Wherever a commit is interrupted, the file has committed the old map or the new
one. -/
theorem commit_crashSafe (hsafe : Safe ext order db.cached c db.disk)
    (hs : Holding ext order db.disk.live db.tree s) :
    db.disk.Throughout (CrashSafe ext order {c, s}) (resultState (db.commit ext)).disk := by
  have hold : ∀ e, Safe ext order db.cached c e → CrashSafe ext order {c, s} e :=
    fun e he => he.crashSafe (.inl rfl)
  have hspec := Database.commit_spec hsafe.committed hs
  generalize db.commit ext = result at hspec ⊢
  cases hspec with
  | @unstored e d t happ => exact (hsafe.appends happ).mono hold
  | @unpublished e d t happ =>
    have hstored := hsafe.appends happ
    have hd := hstored d happ.later (.refl d)
    have hflush : Disk.Throughout (Safe ext order db.cached c) d (d.push .flush) :=
      .push hd (.flush hd.committed)
    exact (hstored.trans hflush happ.later (Disk.later_push _ _)).mono hold
  | @published d t t' m' block happ hat hholds hsucc hlen hblock hpub _ =>
    have hstored := hsafe.appends happ
    have hd := hstored d happ.later (.refl d)
    have hflush : Disk.Throughout (Safe ext order db.cached c) d (d.push .flush) :=
      .push hd (.flush hd.committed)
    have hbefore := (hstored.trans hflush happ.later (Disk.later_push _ _)).mono hold
    have hslot := crashSafe_slot hd.committed hat hholds hsucc hlen hblock
    have hafter : Safe ext order m' s (((d.push .flush).push
        (.write (m'.slot * metaSlotSize) block)).push .flush) :=
      .flush (by rw [Disk.live_write, Disk.live_flush]; exact hpub)
    have hwrite := hbefore.trans (.push (hbefore _ (happ.later.trans (Disk.later_push _ _))
      (.refl _)) hslot) (happ.later.trans (Disk.later_push _ _)) (Disk.later_push _ _)
    exact hwrite.trans (.push hslot (hafter.crashSafe (.inr rfl)))
      ((happ.later.trans (Disk.later_push _ _)).trans (Disk.later_push _ _)) (Disk.later_push _ _)

/-- Wherever recovery is interrupted, and when it ends, the file has committed the same
map. -/
theorem connect_safe (h : Committed ext order f m c) :
    ∃ d t, Database.connect ext (.blank order (.powerOn f)) = .ok () ⟨d, m, false, t⟩ ∧
      AtMeta ext order d.live d.live.size m t ∧ (Disk.powerOn f).Later d ∧
      Disk.Throughout (Safe ext order m c) (.powerOn f) d := by
  obtain ⟨d, t, hrun, -, hat, hcases⟩ := Database.connect_spec (d := .powerOn f) h
  have hsafe : Safe ext order m c (.powerOn f) := .powerOn h
  refine ⟨d, t, hrun, hat, ?_⟩
  rcases hcases with rfl | rfl
  · exact ⟨.refl _, .refl hsafe⟩
  · have hcut := hsafe.truncate (Nat.le_refl m.dataLength)
    exact ⟨(Disk.later_push _ _).trans (Disk.later_push _ _),
      Disk.Throughout.trans (.push hsafe hcut) (.push hcut (.flush hcut.committed))
        (Disk.later_push _ _) (Disk.later_push _ _)⟩

/-! ## Runs -/

namespace Database

/-- The handle reads the map `c`. -/
def Serves (ext : Externals α) (db : Database α) (c : α → Option Bytes) : Prop :=
  ∀ key, ∃ db', db.get ext key = match c key with
    | some value => .ok value db'
    | none => .error .keyError db'

end Database

/-- A database: open, with the maps committed last and staged, or down, with the maps
that a crash was allowed to leave. -/
inductive Session (α : Type) where
  | running (db : Database α) (committed staged : α → Option Bytes)
  | down (f : File) (allowed : Set (α → Option Bytes))

variable (ext) (order) in
/-- The steps of a run. -/
inductive Session.Step : Session α → Session α → Prop
  | update {db : Database α} {c s : α → Option Bytes} (u : Update α Bytes) :
      Step (.running db c s) (.running (resultState (db.update ext u)) c (u.applyTo s))
  | commit {db db' : Database α} {c s : α → Option Bytes} : db.commit ext = .ok () db' →
      Step (.running db c s) (.running db' s s)
  | commitRaises {db db' : Database α} {c s : α → Option Bytes} {e : PyError} :
      db.commit ext = .error e db' → Step (.running db c s) (.running db' c s)
  | crash {db : Database α} {c s : α → Option Bytes} {f : File} :
      db.disk.Crashed (TornSlotFails ext.crc32) f →
      Step (.running db c s) (.down f {c})
  | crashInCommit {db : Database α} {c s : α → Option Bytes} {d : Disk} {f : File} :
      db.disk.Later d → d.Later (resultState (db.commit ext)).disk →
      d.Crashed (TornSlotFails ext.crc32) f →
      Step (.running db c s) (.down f {c, s})
  | reopen {f : File} {allowed : Set (α → Option Bytes)} {db : Database α} {c : α → Option Bytes} :
      Database.connect ext (.blank order (.powerOn f)) = .ok () db → db.Serves ext c →
      Step (.down f allowed) (.running db c c)
  | crashInRecovery {f g : File} {allowed : Set (α → Option Bytes)} {d : Disk} :
      (Disk.powerOn f).Later d →
      d.Later (resultState (Database.connect ext (.blank order (.powerOn f)))).disk →
      d.Crashed (TornSlotFails ext.crc32) g →
      Step (.down f allowed) (.down g allowed)

/-- The invariant of an open database. -/
structure Database.Running (ext : Externals α) (order : ℕ) (db : Database α)
    (c s : α → Option Bytes) : Prop where
  safe : Safe ext order db.cached c db.disk
  holding : Holding ext order db.disk.live db.tree s
  idle : db.locked = false → s = c

/-- The invariant of a run. -/
def Session.Inv (ext : Externals α) (order : ℕ) : Session α → Prop
  | .running db c s => db.Running ext order c s
  | .down f allowed => ∃ m, ∃ c ∈ allowed, Committed ext order f m c

namespace Database

section

variable (h : db.Running ext order c s)
include h

theorem Running.attached : db.Attached ext order db.cached c s :=
  ⟨h.safe.committed, h.holding.holds.order_eq, fun _ => ⟨rfl, h.holding⟩, h.idle⟩

theorem Running.update (u : Update α Bytes) :
    (resultState (db.update ext u)).Running ext order c (u.applyTo s) := by
  obtain ⟨t, hholding, hrun | ⟨-, hrun⟩⟩ := h.attached.update u
  · rw [hrun]
    exact ⟨h.safe, hholding, fun hl => by cases hl⟩
  · rw [hrun]
    exact ⟨h.safe, hholding, fun hl => by cases hl⟩

/-- Reading does not stop a database from running. -/
theorem Running.refreshUnlocked (hrun : db.refreshUnlocked ext = .ok () db') : db'.Running ext order c s := by
  obtain ⟨db'', hrun', hholding, hcases⟩ := h.attached.refreshUnlocked
  obtain rfl : db' = db'' := by simpa [hrun] using hrun'
  rcases hcases with ⟨-, rfl⟩ | ⟨hl, -, hdb⟩
  · exact h
  · rw [hdb]
    exact ⟨h.safe, hholding, fun _ => h.idle hl⟩

theorem Running.commit (hrun : db.commit ext = .ok () db') :
    db'.Running ext order s s := by
  have hpub := commit_published h.safe.committed h.holding hrun
  exact ⟨⟨hpub.committed, hpub.guarded⟩, hpub.atMeta.holding hpub.committed.le hpub.committed,
    fun _ => rfl⟩

theorem Running.commitRaises {e : PyError} (hrun : db.commit ext = .error e db') : db'.Running ext order c s := by
  have hspec := commit_spec h.safe.committed h.holding
  rw [hrun] at hspec
  cases hspec with
  | @unstored e d t happ hholding =>
    exact ⟨h.safe.appends happ d happ.later (.refl d), hholding, h.idle⟩
  | @unpublished e d t happ hholding =>
    have hd := h.safe.appends happ d happ.later (.refl d)
    refine ⟨.flush hd.committed, ?_, fun hl => by cases hl⟩
    rw [Disk.live_flush]
    exact hholding

end

theorem Attached.serves {m : Meta} (h : db.Attached ext order m c s) : db.Serves ext s := by
  intro key
  obtain ⟨db', -, hget⟩ := h.get key
  exact ⟨db', hget⟩

/-- A file is read as what it has committed. -/
theorem serves_of_committed {d : Disk} {m : Meta} (hc : Committed ext order d.live m c) :
    (blank order d).Serves ext c :=
  have hattached : (blank order d).Attached ext order m c c := .of_unlocked hc rfl rfl
  hattached.serves

theorem Serves.unique {c' : α → Option Bytes} (h : db.Serves ext c) (h' : db.Serves ext c') :
    c = c' := by
  funext key
  obtain ⟨db1, h1⟩ := h key
  obtain ⟨db2, h2⟩ := h' key
  rw [h1] at h2
  cases hc : c key <;> cases hc' : c' key <;> simp_all

/-- Opening what a crash has left finds the committed map. -/
theorem connect_running (h : Committed ext order f m c) :
    ∃ db, connect ext (.blank order (.powerOn f)) = .ok () db ∧ db.Running ext order c c := by
  obtain ⟨d, t, hrun, hat, hlater, hsafe⟩ := connect_safe h
  have hd := hsafe d hlater (.refl d)
  exact ⟨_, hrun, hd, hat.holding le_rfl hd.committed, fun _ => rfl⟩

/-- Creating a database. -/
theorem connect_new_running
    (hrun : connect ext (.blank order (.powerOn .empty)) = .ok () db) :
    db.Running ext order (fun _ => none) fun _ => none := by
  obtain ⟨d, t, hrun', hc, hat, hguarded, -⟩ := connect_new ext (order_ge_of_connect hrun)
  obtain rfl : db = _ := by simpa [hrun] using hrun'
  exact ⟨⟨hc, hguarded⟩, hat.holding le_rfl hc, fun _ => rfl⟩

end Database

variable {σ : Session α}

/-- One step keeps the invariant. -/
theorem Session.Step.inv {σ' : Session α} (hstep : σ.Step ext order σ') (h : σ.Inv ext order) :
    σ'.Inv ext order := by
  cases hstep with
  | update u => exact Database.Running.update h u
  | commit hrun => exact Database.Running.commit h hrun
  | commitRaises hrun => exact Database.Running.commitRaises h hrun
  | crash hcrashed =>
    have hrunning : Database.Running ext order _ _ _ := h
    exact hrunning.safe.crashSafe (Set.mem_singleton _) _ hcrashed
  | crashInCommit hlater hlater' hcrashed =>
    have hrunning : Database.Running ext order _ _ _ := h
    exact commit_crashSafe hrunning.safe hrunning.holding _ hlater hlater' _ hcrashed
  | reopen hrun hserves =>
    obtain ⟨m, c, -, hc⟩ := h
    obtain ⟨db, hrun', hrunning⟩ := Database.connect_running hc
    obtain rfl : db = _ := by simpa [hrun] using hrun'.symm
    rw [hserves.unique hrunning.attached.serves]
    exact hrunning
  | crashInRecovery hlater hlater' hcrashed =>
    obtain ⟨m, c, hmem, hc⟩ := h
    obtain ⟨d, t, hrun, -, -, hsafe⟩ := connect_safe hc
    rw [hrun] at hlater'
    exact (hsafe _ hlater hlater').crashSafe hmem _ hcrashed

/-- What holds of every state of a run from a new database. -/
theorem Session.inv_of_run {db0 : Database α}
    (hnew : Database.connect ext (.blank order (.powerOn .empty)) = .ok () db0)
    (hrun : ReflTransGen (Session.Step ext order)
      (.running db0 (fun _ => none) fun _ => none) σ) : σ.Inv ext order := by
  induction hrun with
  | refl => exact Database.connect_new_running hnew
  | tail _ hstep ih => exact hstep.inv ih

/-! ## A first commit -/

namespace Database

/-- The first binding of an empty database. -/
theorem set_new (hc : Committed ext order db.disk.live m fun _ => none)
    (hlocked : db.locked = false) (horder : db.tree.order = order) (key : α) (value : Bytes) :
    db.set ext key value = .ok () { db with
      cached := m
      locked := true
      tree := ⟨order, some (.leafRef [key] [⟨value, 0⟩]), 1⟩ } := by
  obtain ⟨t, hrefresh, hat⟩ := refresh_spec { db with locked := true } hc horder
  obtain rfl := hat.eq_empty hc
  have hfresh : lockFresh ext db =
      .ok () { db with cached := m, locked := true, tree := .empty order } := by
    simp [lockFresh, lock, hlocked, hrefresh]
  rw [Database.set, run_bind, hfresh]
  exact onTree_ok rfl

/-- A handle that still has the cache of the new file commits to slot 1, and reads what the
file then adopts. -/
theorem commit_stale (db : Database α) (hge : superblockSize ≤ db.disk.live.size)
    (hsize : db.disk.live.size < 256 ^ 8) (hcached : db.cached = initialMeta)
    (htree : db.tree = .empty order) :
    ∃ f, SameButSlot 1 db.disk.live f ∧
      readSlot ext.crc32 f 1 = .ok (some ⟨1, 0, 0, db.disk.live.size, 1⟩) ∧
      ∀ {m : Meta}, Committed ext order f m (fun _ => none) →
        ∃ db', db.commit ext = .ok () db' ∧ db'.locked = false ∧
          Committed ext order db'.disk.live m fun _ => none := by
  have hnone : ∀ root ∈ db.tree.treeRef, NodeRef.OnFile ext db.disk.live db.disk.live.size root := by
    simp [htree, BPlusTree.empty]
  have hfields : db.nextMeta db.rootAddress db.tree.count = ⟨1, 0, 0, db.disk.live.size, 1⟩ := by
    rw [nextMeta, rootAddress, hcached, htree]
    rfl
  obtain ⟨block, hblock⟩ : ∃ block, metaBlock ext.crc32 ⟨1, 0, 0, db.disk.live.size, 1⟩ = .ok block :=
    metaBlock_of_lt (by decide : 1 < 256 ^ 8) (by decide : 0 < 256 ^ 8)
      (by decide : (0 : ℤ) ≤ 0 ∧ (0 : ℤ).toNat < 256 ^ 8) hsize
  obtain ⟨-, -, -, -, hlen⟩ := metaBlock_ok hblock
  refine ⟨db.disk.live.write (1 * metaSlotSize) block, sameButSlot_write (by decide) hge hlen.le,
    readSlot_of_at hblock (File.at_write _ _ _), fun {m} hc => ?_⟩
  rw [commit_of_onFile hnone, hfields, hblock]
  set published : Database α := ⟨((db.disk.push .flush).push
    (.write ((1 - db.cached.slot) * metaSlotSize) block)).push .flush,
    ⟨1, 0, 0, db.disk.live.size, 1⟩, false, db.tree⟩ with hpublished
  have hlive : published.disk.live = db.disk.live.write (1 * metaSlotSize) block := by
    simp [hpublished, hcached, initialMeta]
  obtain ⟨t, hrefresh, -⟩ := refresh_spec published (hlive ▸ hc) (by rw [hpublished, htree]; rfl)
  exact ⟨_, hrefresh, rfl, hlive ▸ hc⟩

end Database

/-! ## A sample -/

theorem Few.short_sample {s : ℕ → Option Bytes} (hs : Few [1, 2] s) :
    Short sampleExt 64 s :=
  hs.short _ (by decide) (by decide)

/-- The map that binds 1 to one byte. -/
def sampleMap : ℕ → Option Bytes := Update.applyTo (fun _ => none) (.set 1 [7])

theorem few_sampleMap : Few [1, 2] sampleMap := (few_empty _).update (by decide) (by decide)

/-- An empty sample database takes a binding and commits it. -/
theorem sample_commit {n : ℕ} (db : Database ℕ)
    (hc : Committed sampleExt 64 db.disk.live m fun _ => none)
    (hd : Roomy sampleExt 64 (n + 1) db.disk) (hlocked : db.locked = false)
    (horder : db.tree.order = 64) :
    ∃ db1 db2, db.set sampleExt 1 [7] = .ok () db1 ∧ db1.disk = db.disk ∧
      db1.cached = m ∧ db1.commit sampleExt = .ok () db2 ∧
      Database.Published sampleExt 64 db1 db2 sampleMap ∧
      Roomy sampleExt 64 n db2.disk :=
  (Database.Attached.of_unlocked hc horder hlocked).set_commit 1 [7] few_sampleMap.short_sample hd

/-- Nothing of what came after the last flush need survive. -/
theorem crashed_durable (crc32 : Bytes → ℕ) (d : Disk) :
    d.Crashed (TornSlotFails crc32) d.durable := by
  have hlost : ∀ (f : File) (ops : List DiskOp), Survive (TornSlotFails crc32) f ops f := by
    intro f ops
    induction ops with
    | nil => exact .nil f
    | cons op ops ih => exact .cons (.lost f op) (fun _ _ _ _ => .inl rfl) ih
  exact hlost _ _

/-! ## Atomicity and durability -/

/-- **Commits are atomic and durable.**  Whatever is staged and committed on a new
database, and wherever it crashes: opening it succeeds, the audit finds no errors, and
the map found is the one committed last or, if the crash came during a commit, the one
that commit was publishing. -/
theorem commits_survive_crashes (ext : Externals α) (order : ℕ) {db0 : Database α}
    (hnew : Database.connect ext (.blank order (.powerOn .empty)) = .ok () db0) {f : File}
    {allowed : Set (α → Option Bytes)}
    (hrun : ReflTransGen (Session.Step ext order)
      (.running db0 (fun _ => none) fun _ => none) (.down f allowed)) :
    ∃ db, Database.connect ext (.blank order (.powerOn f)) = .ok () db ∧
      (∃ report db', db.audit ext = .ok report db' ∧ report.errors = []) ∧
      ∃ c ∈ allowed, db.Serves ext c := by
  obtain ⟨m, c, hmem, hc⟩ := Session.inv_of_run hnew hrun
  obtain ⟨db, hopen, hrunning⟩ := Database.connect_running hc
  exact ⟨db, hopen, hrunning.attached.audit, c, hmem, hrunning.attached.serves⟩

theorem commits_survive_crashes_sample :
    ∃ (db0 db : Database ℕ) (f : File),
      Database.connect sampleExt (.blank 64 (.powerOn .empty)) = .ok () db0 ∧
      ReflTransGen (Session.Step sampleExt 64)
        (.running db0 (fun _ => none) fun _ => none) (.down f {sampleMap}) ∧
      Database.connect sampleExt (.blank 64 (.powerOn f)) = .ok () db ∧
      db.Serves sampleExt sampleMap := by
  obtain ⟨d, t, hnew, hc, hat, -, hsize⟩ :=
    Database.connect_new sampleExt (by decide : 3 ≤ 64)
  obtain ⟨db1, db2, hset, -, -, hcommit, -⟩ :=
    sample_commit ⟨d, initialMeta, false, t⟩ hc (roomy_new hc hsize) rfl hat.order_eq
  have hrun : ReflTransGen (Session.Step sampleExt 64)
      (.running ⟨d, initialMeta, false, t⟩ (fun _ => none) fun _ => none)
      (.down db2.disk.durable {sampleMap}) := by
    have hupdate : Session.Step sampleExt 64
        (.running ⟨d, initialMeta, false, t⟩ (fun _ => none) fun _ => none)
        (.running db1 (fun _ => none) sampleMap) := by
      have hdb1 : resultState (Database.update sampleExt (.set 1 [7])
          ⟨d, initialMeta, false, t⟩) = db1 := by
        rw [Database.update, hset]
        rfl
      rw [← hdb1]
      exact .update (.set 1 [7])
    exact ((ReflTransGen.single hupdate).tail (.commit hcommit)).tail
      (.crash (crashed_durable _ _))
  obtain ⟨db, hopen, -, c, hmem, hserves⟩ := commits_survive_crashes sampleExt 64 hnew hrun
  obtain rfl : c = sampleMap := hmem
  exact ⟨_, db, _, hnew, hrun, hopen, hserves⟩
