/-
# What an interrupted compaction leaves (`interface.py`)

A compaction may be interrupted anywhere, and leaves its temporary file behind.  The next
one opens it like any database file: it recovers it, sets the live entries in it, and
publishes the result.  Keys that the leftover file has committed and that have been deleted
since come back.
-/
import ImmuStore.Compaction

open Storage
open Handle (compactInto call)

variable {α V : Type} [LinearOrder α] {ext : Externals α} {codec : Codec α V} {order : ℕ}
  {m : Meta} {c s : α → Option Bytes} {db db' : Database α} {f temp : File}
variable {base : α → Option Bytes} {entries l : List (α × Bytes)} {db2 db1 : Database ℕ}
variable {h : Handle α}

/-! ## Leftover files -/

/-- What may be left of a file whose creation was interrupted: it is too short, or each of
its slots holds the meta block of a new file or nothing valid. -/
def Storage.Unfinished (crc32 : Bytes → ℕ) (f : File) : Prop :=
  f.size < superblockSize ∨ f.size = superblockSize ∧ ∀ index < 2,
    readSlot crc32 f index = .ok none ∨
      readSlot crc32 f index = .ok (some { initialMeta with slot := index })

variable (ext) (codec) (order) in
/-- The temporary files that interrupted compactions may leave, one after the other.  The
first one is interrupted while it creates the file, or later; the others find the file that
is there.  What has not been flushed may be lost or torn. -/
inductive LeftBehind : File → Prop
  | creating {f : File} : Unfinished ext.crc32 f → LeftBehind f
  | created {temp f : File} {items : List (α × V)} {db : Database α} {d : Disk} :
      LeftBehind temp →
      Database.connect ext (.blank order (.powerOn temp)) = .ok () db → db.disk.Later d →
      d.Later (resultState (compactInto ext codec items (.blank order (.powerOn temp)))).disk →
      d.Crashed (TornSlotFails ext.crc32) f → LeftBehind f
  | found {temp f : File} {items : List (α × V)} {d : Disk} :
      LeftBehind temp → superblockSize ≤ temp.size → (Disk.powerOn temp).Later d →
      d.Later (resultState (compactInto ext codec items (.blank order (.powerOn temp)))).disk →
      d.Crashed (TornSlotFails ext.crc32) f → LeftBehind f

theorem opensWith_of_committed (h : Committed ext order f m c) : OpensWith ext order f c := by
  intro db hrun
  obtain ⟨db', hrun', hrunning⟩ := Database.connect_running h
  obtain rfl : db = db' := by simpa [hrun] using hrun'
  exact hrunning

theorem OpensWith.eq_of_committed (h : OpensWith ext order f base) (hc : Committed ext order f m c)
    : c = base := by
  obtain ⟨db, hrun, hrunning⟩ := Database.connect_running hc
  exact hrunning.attached.serves.unique (h db hrun).attached.serves

/-- A file whose adopted slot is that of a new file has committed the empty map. -/
theorem committed_of_initial (horder : 3 ≤ order) (hm : Adopted ext.crc32 f m)
    (hinitial : m = { initialMeta with slot := m.slot }) (hsize : superblockSize ≤ f.size) :
    Committed ext order f m fun _ => none := by
  have hlen : m.dataLength = superblockSize := by rw [hinitial, initialMeta]
  refine ⟨hm, hlen.ge, hlen.le.trans hsize, .empty order, ?_, .empty horder⟩
  rw [hinitial]
  exact ⟨by simp [BPlusTree.empty], rfl, rfl, rfl⟩

/-- An unfinished file that is long enough cannot be opened, or has committed the empty
map. -/
theorem Storage.Unfinished.raises_or_committed (hf : Unfinished ext.crc32 f) (horder : 3 ≤ order)
    (hsize : superblockSize ≤ f.size) :
    (∃ e, Database.connect ext (.blank order (.powerOn f)) = .error e (.blank order (.powerOn f))) ∨
      ∃ m, Committed ext order f m fun _ => none := by
  obtain ⟨-, hslots⟩ := hf.resolve_left (by omega)
  have hread : ∀ index < 2, ∃ other, readSlot ext.crc32 f index = .ok other := fun index hlt =>
    (hslots index hlt).elim (fun h => ⟨_, h⟩) fun h => ⟨_, h⟩
  have hcommitted : ∀ index < 2,
      readSlot ext.crc32 f index = .ok (some { initialMeta with slot := index }) →
      ∃ m, Committed ext order f m fun _ => none := by
    intro index hlt hvalid
    obtain ⟨other, hother⟩ := hread (1 - index) (by omega)
    set new : Meta := { initialMeta with slot := index }
    obtain ⟨m, hm⟩ := exists_adopted (m := new) hlt hvalid hother
    refine ⟨m, committed_of_initial horder hm ?_ hsize⟩
    have hown := hm.own
    rcases hslots m.slot hm.slot_lt with hnone | hinitial
    · rw [hnone] at hown
      cases hown
    · rw [hinitial] at hown
      exact (Option.some.inj (Except.ok.inj hown)).symm
  rcases hslots 0 (by decide) with h0 | h0
  · rcases hslots 1 (by decide) with h1 | h1
    · have hbest : readBestMeta ext.crc32 f = .error .databaseCorruptionError :=
        readBestMeta_eq h0 h1
      refine .inl ⟨.databaseCorruptionError, ?_⟩
      simp [Database.connect, Database.onDisk, Database.blank, ensureMeta, hsize.not_gt, recover,
        hbest]
    · exact .inr (hcommitted 1 (by decide) h1)
  · exact .inr (hcommitted 0 (by decide) h0)

/-- An unfinished file is made anew or holds the empty map, if it can be opened. -/
theorem Storage.Unfinished.opensWith (hf : Unfinished ext.crc32 f) :
    OpensWith ext order f fun _ => none := by
  intro db hrun
  have horder := Database.order_ge_of_connect hrun
  by_cases hshort : f.size < superblockSize
  · obtain ⟨d, t, hrun', hc, hat, hguarded, -⟩ := Database.connect_short ext horder hshort
    obtain rfl : db = _ := by simpa [hrun] using hrun'
    exact ⟨⟨hc, hguarded⟩, hat.holding le_rfl hc, fun _ => rfl⟩
  · rcases hf.raises_or_committed horder (by omega) with ⟨e, hraises⟩ | ⟨m, hc⟩
    · rw [hrun] at hraises
      cases hraises
    · exact opensWith_of_committed hc db hrun

/-! ## What the next compaction finds -/

/-- A commit only adds operations. -/
theorem Database.Running.commit_later (h : db.Running ext order c s) :
    db.disk.Later (resultState (db.commit ext)).disk := by
  have hspec := Database.commit_spec h.safe.committed h.holding
  generalize db.commit ext = result at hspec ⊢
  cases hspec with
  | unstored happ => exact happ.later
  | unpublished happ => exact happ.later.trans (Disk.later_push _ _)
  | published happ =>
    exact ((happ.later.trans (Disk.later_push _ _)).trans (Disk.later_push _ _)).trans
      (Disk.later_push _ _)

theorem CrashSafe.mono {maps maps' : Set (α → Option Bytes)} {d : Disk}
    (h : CrashSafe ext order maps d) (hmaps : maps ⊆ maps') : CrashSafe ext order maps' d := by
  intro f hf
  obtain ⟨m, c, hmem, hc⟩ := h f hf
  exact ⟨m, c, hmaps hmem, hc⟩

/-- Wherever a compaction is interrupted once it has opened its file, the file has committed
some map. -/
theorem compactInto_crashSafe (codec : Codec α V)
    (hopen : Database.connect ext (.blank order (.powerOn temp)) = .ok () db)
    (h : db.Running ext order base base) (items : List (α × V)) :
    db.disk.Later
        (resultState (compactInto ext codec items (.blank order (.powerOn temp)))).disk ∧
      db.disk.Throughout (CrashSafe ext order Set.univ)
        (resultState (compactInto ext codec items (.blank order (.powerOn temp)))).disk := by
  have hstart : db.disk.Throughout (CrashSafe ext order Set.univ) db.disk :=
    .refl (h.safe.crashSafe (Set.mem_univ base))
  have hset : Meets (DBDB.setItems ext codec items) db _ _ := setItems_meets items h
  rw [compactInto, run_bind, hopen]
  dsimp only
  rw [run_bind]
  cases hitems : DBDB.setItems ext codec items db with
  | error e db1 =>
    obtain ⟨s, -, hdisk⟩ := hset.error hitems
    rw [resultState_error, hdisk]
    exact ⟨.refl _, hstart⟩
  | ok u db1 =>
    obtain ⟨l, -, hrunning, hdisk⟩ := hset.ok hitems
    have hlater := hrunning.commit_later
    have hsafe := (commit_crashSafe hrunning.safe hrunning.holding).mono
      fun e (he : CrashSafe ext order _ e) => he.mono (Set.subset_univ _)
    dsimp only
    rw [run_bind, ← hdisk]
    cases hcommit : db1.commit ext with
    | error e db2 =>
      rw [hcommit] at hlater hsafe
      exact ⟨hlater, hsafe⟩
    | ok u db2 =>
      rw [hcommit] at hlater hsafe
      dsimp only
      rw [disk_stats]
      exact ⟨hlater, hsafe⟩

/-- Every file that is left behind is unfinished or has committed some map. -/
theorem LeftBehind.unfinished_or_committed (horder : 3 ≤ order) (h : LeftBehind ext codec order f) :
    Unfinished ext.crc32 f ∨ ∃ m c, Committed ext order f m c := by
  induction h with
  | creating hf => exact .inl hf
  | @created temp f items db d _ hopen hlater hlater' hcrashed ih =>
    obtain ⟨base, htemp⟩ : ∃ base, OpensWith ext order temp base := by
      rcases ih with hf | ⟨m, c, hc⟩
      · exact ⟨_, hf.opensWith⟩
      · exact ⟨c, opensWith_of_committed hc⟩
    obtain ⟨-, hsafe⟩ := compactInto_crashSafe codec hopen (htemp db hopen) items
    obtain ⟨m, c, -, hc⟩ := hsafe d hlater hlater' f hcrashed
    exact .inr ⟨m, c, hc⟩
  | @found temp f items d _ hsize hlater hlater' hcrashed ih =>
    have hcommitted : ∀ {m c}, Committed ext order temp m c → ∃ m c, Committed ext order f m c := by
      intro m c hc
      obtain ⟨d0, t, hopen, hat, hlater0, hsafe0⟩ := connect_safe hc
      have hd0 := hsafe0 d0 hlater0 (.refl d0)
      have hrunning : Database.Running ext order ⟨d0, m, false, t⟩ c c :=
        ⟨hd0, hat.holding le_rfl hd0.committed, fun _ => rfl⟩
      obtain ⟨hlater1, hsafe1⟩ := compactInto_crashSafe codec hopen hrunning items
      have hsafe := (hsafe0.mono fun e he => he.crashSafe (Set.mem_univ c)).trans hsafe1 hlater0 hlater1
      obtain ⟨m', c', -, hc'⟩ := hsafe d hlater hlater' f hcrashed
      exact ⟨m', c', hc'⟩
    rcases ih with hf | ⟨m, c, hc⟩
    · rcases hf.raises_or_committed horder hsize with ⟨e, hraises⟩ | ⟨m, hc⟩
      · -- nothing has been done to the file
        rw [compactInto, run_bind, hraises] at hlater'
        have hd : d = .powerOn temp := (hlater'.eq_of_length_le hlater.ops_le.length_le)
        subst hd
        cases hcrashed
        exact .inl hf
      · exact .inr (hcommitted hc)
    · exact .inr (hcommitted hc)

/-! ## What a compaction keeps -/

/-- What can be seen of a database: its items, its length, and of its audit the numbers of
keys and values and the errors.  (The audit also counts the nodes of the tree, which a
compaction builds anew.) -/
structure Contents (α V : Type) where
  items : Except PyError (List (α × V))
  length : Except PyError ℤ
  audit : Except PyError (ℕ × ℕ × List (AuditError α))

/-- What the handle shows of its database. -/
def Handle.contents (ext : Externals α) (codec : Codec α V) (h : Handle α) : Contents α V :=
  ⟨resultValue (call (DBDB.items ext codec) h), resultValue (call (DBDB.len ext) h),
    (resultValue (call (Database.audit ext) h)).map fun report =>
      (report.keys, report.values, report.errors)⟩

theorem Handle.contents_closed (hclosed : h.closed = true) :
    h.contents ext codec = ⟨.error .databaseClosedError, .error .databaseClosedError,
      .error .databaseClosedError⟩ := by
  simp [Handle.contents, call, Handle.assertOpen, hclosed, Except.map]

/-- The contents are those of the map that the handle reads. -/
theorem Handle.contents_eq (hopen : h.closed = false) (hfinds : h.database.Finds ext order s)
    (hs : Represents entries s) :
    h.contents ext codec = ⟨codec.decodeAll entries,
      .ok entries.length, .ok (entries.length, entries.length, [])⟩ := by
  obtain ⟨db, hrun, hholds⟩ := hfinds.refreshes
  obtain rfl : db.tree.items = entries := hholds.represents.unique hs
  obtain ⟨report, haudit, herrors, hkeys, hvalues⟩ := hholds.ok.audit_eq
  have hitems : resultValue (call (DBDB.items ext codec) h) = codec.decodeAll db.tree.items := by
    rw [Handle.call_of_open hopen]
    cases hdecode : codec.decodeAll db.tree.items with
    | ok items => simp [Handle.onDatabase, DBDB.items, Database.items, hrun, hdecode]
    | error e => simp [Handle.onDatabase, DBDB.items, Database.items, hrun, hdecode]
  have hlen : resultValue (call (DBDB.len ext) h) = .ok (db.tree.items.length : ℤ) := by
    rw [Handle.call_of_open hopen]
    simp [Handle.onDatabase, DBDB.len, Database.length, hrun, BPlusTree.length, hholds.ok.count_eq]
  have hreport : resultValue (call (Database.audit ext) h) = .ok report := by
    rw [Handle.call_of_open hopen]
    simp [Handle.onDatabase, Database.audit, Database.onTree, hrun, haudit]
  simp [Handle.contents, hitems, hlen, hreport, Except.map, hkeys, hvalues, herrors]

theorem Database.Finds.exists_entries (h : db.Finds ext order s) :
    ∃ entries, Represents entries s := by
  obtain ⟨db', -, hholds⟩ := h.refreshes
  exact ⟨_, hholds.represents⟩

omit [LinearOrder α] in
/-- Decoding looks at nothing but what each entry decodes to. -/
theorem Codec.decodeAll_congr {l' : List (α × Bytes)}
    (h : (l.map fun e => (e.1, codec.decode e.2)) = l'.map fun e => (e.1, codec.decode e.2)) :
    codec.decodeAll l = codec.decodeAll l' := by
  have hmap : ∀ l : List (α × Bytes), codec.decodeAll l =
      (l.map fun e => (e.1, codec.decode e.2)).mapM fun e => do
        let value ← e.2
        return (e.1, value) := by
    intro l
    rw [List.mapM_map]
    rfl
  rw [hmap, hmap, h]

/-- The entries of a map, each with what it decodes to. -/
theorem Represents.decoded (h : Represents entries s) (codec : Codec α V) :
    Represents (entries.map fun e => (e.1, codec.decode e.2))
      fun key => (s key).map codec.decode := by
  refine ⟨?_, fun k v => ?_⟩
  · simpa [KeysIncrease, List.pairwise_map] using h.increasing
  · simp only [List.mem_map, Prod.mk.injEq, Prod.exists, Option.map_eq_some_iff]
    constructor
    · rintro ⟨k', payload, hmem, rfl, rfl⟩
      exact ⟨payload, (h.mem_iff _ _).mp hmem, rfl⟩
    · rintro ⟨payload, hs, rfl⟩
      exact ⟨k, payload, (h.mem_iff _ _).mpr hs, rfl, rfl⟩

omit [LinearOrder α] in
theorem Codec.keys_of_decodeAll {items : List (α × V)} (h : codec.decodeAll l = .ok items) :
    l.map Prod.fst = items.map Prod.fst := by
  have hall := Codec.decodeAll_ok h
  clear h
  induction hall with
  | nil => rfl
  | cons hfirst _ ih => rw [List.map_cons, List.map_cons, ih, hfirst.1]

omit [LinearOrder α] in
theorem Codec.exists_decodeAll (h : ∀ e ∈ l, ∃ value, codec.decode e.2 = .ok value) :
    ∃ items, codec.decodeAll l = .ok items := by
  induction l with
  | nil => exact ⟨[], rfl⟩
  | cons e l ih =>
    obtain ⟨value, hvalue⟩ := h e (by simp)
    obtain ⟨items, hitems⟩ := ih fun x hx => h x (by simp [hx])
    rw [Codec.decodeAll] at hitems
    refine ⟨(e.1, value) :: items, ?_⟩
    rw [Codec.decodeAll, List.mapM_cons, hvalue, hitems]
    rfl

/-- Entries put over a map read like themselves exactly if the map binds no other key. -/
theorem Codec.Overlays.same_iff {c' : α → Option Bytes} (h : codec.Overlays c base c')
    {entries' : List (α × Bytes)} (hc : Represents entries c) (hc' : Represents entries' c') :
    codec.decodeAll entries' = codec.decodeAll entries ∧ entries'.length = entries.length ↔
      ∀ key, base key ≠ none → c key ≠ none := by
  constructor
  · rintro ⟨hsame, -⟩ key hbase hkey
    -- the key of `base` is among the entries, and both lists have the keys of the items
    have hentry := h key
    rw [hkey] at hentry
    obtain ⟨payload, hpayload⟩ := Option.ne_none_iff_exists'.mp hbase
    have hmem := (hc'.mem_iff key payload).mpr (hentry.trans hpayload)
    obtain ⟨items, hdecode⟩ : ∃ items, codec.decodeAll entries = .ok items := by
      refine Codec.exists_decodeAll fun e he => ?_
      have hbound := h e.1
      rw [(hc.mem_iff e.1 e.2).mp he] at hbound
      obtain ⟨-, -, value, -, hvalue, -⟩ := hbound
      exact ⟨value, hvalue⟩
    have hlist : entries'.map Prod.fst = entries.map Prod.fst :=
      (Codec.keys_of_decodeAll (hsame.trans hdecode)).trans (Codec.keys_of_decodeAll hdecode).symm
    have hin : key ∈ entries.map Prod.fst := hlist ▸ List.mem_map_of_mem hmem
    obtain ⟨e, he, rfl⟩ := List.mem_map.mp hin
    rw [(hc.mem_iff e.1 e.2).mp he] at hkey
    cases hkey
  · intro hbound
    have hmap : (fun key => (c' key).map codec.decode) = fun key => (c key).map codec.decode := by
      funext key
      have hentry := h key
      cases hkey : c key with
      | some payload =>
        rw [hkey] at hentry
        obtain ⟨-, payload', value, hs', hvalue, hvalue'⟩ := hentry
        simp [hs', hvalue, hvalue']
      | none =>
        rw [hkey] at hentry
        have hnone : base key = none := by
          by_contra hne
          exact hbound key hne hkey
        simp [hentry, hnone]
    have hdecoded := hc'.decoded codec
    rw [hmap] at hdecoded
    have hlist := hdecoded.unique (hc.decoded codec)
    exact ⟨Codec.decodeAll_congr hlist, by simpa using congrArg List.length hlist⟩

theorem Handle.Reached.order_ge (hreach : h.Reached ext codec order) : 3 ≤ order := by
  obtain ⟨s, hs⟩ := hreach.sound.holding
  rw [← hs.holds.order_eq]
  exact hs.holds.ok.order_ge

/-- A file that is left behind opens with one map, the one it has committed. -/
theorem LeftBehind.opensWith (horder : 3 ≤ order) (h : LeftBehind ext codec order temp) :
    ∃ base, OpensWith ext order temp base ∧
      ((∃ key, base key ≠ none) → ∃ m, Committed ext order temp m base) := by
  rcases h.unfinished_or_committed horder with hf | ⟨m, c, hc⟩
  · exact ⟨_, hf.opensWith, by simp⟩
  · exact ⟨c, opensWith_of_committed hc, fun _ => ⟨m, hc⟩⟩

/-! ## A sample -/

/-- The key of the sample database is deleted, and that is committed. -/
theorem sample_deleted {n : ℕ} (hpub : Database.Published sampleExt 64 db1 db2 sampleMap)
    (hroom : Roomy sampleExt 64 (n + 1) db2.disk) :
    ∃ db3 db4, db2.delete sampleExt 1 = .ok () db3 ∧ db3.commit sampleExt = .ok () db4 ∧
      Database.Published sampleExt 64 db3 db4 fun _ => none := by
  have hattached : db2.Attached sampleExt 64 db2.cached sampleMap sampleMap :=
    .of_unlocked hpub.committed hpub.atMeta.order_eq hpub.unlocked
  obtain ⟨t, hdelete, hholding⟩ := hattached.delete (by decide : sampleMap 1 ≠ none)
  have hmap : Function.update sampleMap 1 none = fun _ => none := by
    simp [sampleMap, Update.applyTo]
  rw [hmap] at hholding
  set db3 : Database ℕ := { db2 with cached := db2.cached, locked := true, tree := t }
  obtain ⟨db4, hcommit, hpub', -⟩ : ∃ db4, db3.commit sampleExt = .ok () db4 ∧ _ :=
    Database.commit_short hpub.committed hholding (few_empty _).short_sample hroom
  exact ⟨db3, db4, hdelete, hcommit, hpub'⟩

/-- The file of the sample database, left by a compaction. -/
theorem sample_leftBehind {db0 : Database ℕ} {stats : StorageStats}
    (hnew : Database.connect sampleExt (.blank 64 (.powerOn .empty)) = .ok () db0)
    (hinto : compactInto sampleExt sampleCodec [(1, [7])]
      (.blank 64 (.powerOn .empty)) = .ok stats db2) :
    LeftBehind sampleExt sampleCodec 64 db2.disk.durable := by
  have hopens : OpensWith sampleExt 64 .empty fun _ => none := opensWith_empty _ _
  obtain ⟨hlater, -⟩ := compactInto_crashSafe sampleCodec hnew (hopens db0 hnew) [(1, [7])]
  refine .created (.creating (.inl (by decide))) hnew hlater (.refl _) ?_
  rw [hinto]
  exact crashed_durable _ _

/-- A commit that returns ends with a flush. -/
theorem Database.durable_of_commit (hc : Committed ext order db.disk.live db.cached c)
    (hs : Holding ext order db.disk.live db.tree s) (hrun : db.commit ext = .ok () db') :
    db'.disk.durable = db'.disk.live := by
  have hspec := Database.commit_spec hc hs
  rw [hrun] at hspec
  cases hspec with
  | published => rw [Disk.durable_flush, Disk.live_flush]

/-- The commit of a compaction that finds a file with nothing to add to it. -/
theorem sample_recompacted (hpub : Database.Published sampleExt 64 db1 db2 sampleMap)
    (hcached : db1.cached = initialMeta) (hwhole : Whole sampleExt.crc32 db2.disk.live) :
    ∃ stats compacted m c, compactInto sampleExt sampleCodec []
        (.blank 64 (.powerOn db2.disk.live)) = .ok stats compacted ∧
      Committed sampleExt 64 compacted.disk.live m c := by
  obtain ⟨d, t, hopen, hc, hat, hcases⟩ :=
    Database.connect_spec (d := .powerOn db2.disk.live) hpub.committed
  have hc2 : Committed sampleExt 64 (Disk.powerOn db2.disk.live).live db2.cached sampleMap :=
    hpub.committed
  have hsize : d.live.size = db2.cached.dataLength := Database.size_of_connect hc2 hopen
  have hwhole0 : Whole sampleExt.crc32 d.live := by
    refine hwhole.congr ?_ (hsize.trans hpub.size_eq.symm)
    rcases hcases with rfl | rfl
    · exact ⟨le_rfl, fun _ _ _ => rfl⟩
    · simp only [Disk.live_flush, Disk.live_truncate]
      exact .of_sameBelow (.truncate le_rfl hpub.size_eq.le)
  have htxn : db2.cached.txnId + 1 < 256 ^ 8 := by
    rw [hpub.succeeds.txnId, hcached]
    decide
  obtain ⟨block, hblock⟩ := hpub.packed
  obtain ⟨db', hcommit, hpub', -⟩ :=
    Database.commit_idle ⟨d, db2.cached, false, t⟩ hc hat le_rfl hblock hsize htxn
  have hwhole' : Whole sampleExt.crc32
      (resultState (Database.commit sampleExt ⟨d, db2.cached, false, t⟩)).disk.live :=
    Database.commit_whole hwhole0
  rw [hcommit, resultState_ok] at hwhole'
  obtain ⟨stats, hstats⟩ := stats_returns hpub'.committed hwhole'
  refine ⟨stats, db', _, _, ?_, hpub'.committed⟩
  simp only [compactInto, DBDB.setItems, run_bind, hopen, run_pure, hcommit, hstats]

omit [LinearOrder α] in
theorem Database.commitUnder_none (ext : Externals α) (db : Database α) :
    Database.commitUnder ext none db = db.commit ext := by
  simp only [commitUnder, Database.commit, run_bind, commitRootAddressUnder_eq]

/-- A handle of the sample database and a file that a compaction of it has left; the key is
deleted, and the next compaction returns. -/
theorem sample_leftover : ∃ (h1 h2 h h' : Handle ℕ) (stats stats' : StorageStats)
    (compacted : Database ℕ) (temp : File), h1.Reached sampleExt sampleCodec 64 ∧
      h1.closed = false ∧ h1.database.Views sampleExt 64 sampleMap ∧
      compactInto sampleExt sampleCodec [(1, [7])] (.blank 64 (.powerOn .empty)) =
        .ok stats compacted ∧
      compacted.disk.Crashed (TornSlotFails sampleExt.crc32) temp ∧
      LeftBehind sampleExt sampleCodec 64 temp ∧
      (∃ m, Committed sampleExt 64 temp m sampleMap) ∧
      (MappingCall.delItem 1).run sampleExt sampleCodec h1 = .ok () h2 ∧
      (MappingCall.commit none).run sampleExt sampleCodec h2 = .ok () h ∧
      h.Reached sampleExt sampleCodec 64 ∧ h.closed = false ∧
      h.database.locked = false ∧ h.database.Views sampleExt 64 (fun _ => none) ∧
      Handle.compact sampleExt sampleCodec temp h = .ok stats' h' := by
  obtain ⟨db0, db1, db2, stats, hnew, hset, hcached, hcommit, hpub, hroom, hwhole, hinto⟩ :=
    sample_committed
  obtain ⟨db3, db4, hdelete, hcommit', hpub'⟩ := sample_deleted hpub hroom
  -- the history of the handle, call by call
  have hreach0 : (Handle.ofDatabase db0).Reached sampleExt sampleCodec 64 :=
    .opened hnew (Database.soundSlots_of_new hnew)
  have hrun1 : (MappingCall.setItem 1 [7]).run sampleExt sampleCodec (.ofDatabase db0) =
      .ok () (.ofDatabase db1) :=
    Handle.run_ofDatabase _ (Handle.setItem_sample hset)
  have hrun2 : (MappingCall.commit none).run sampleExt sampleCodec (.ofDatabase db1) =
      .ok () (.ofDatabase db2) :=
    Handle.run_ofDatabase _ (by rw [MappingCall.body, Database.commitUnder_none, hcommit])
  have hrun3 : (MappingCall.delItem 1).run sampleExt sampleCodec (.ofDatabase db2) =
      .ok () (.ofDatabase db3) :=
    Handle.run_ofDatabase _ (by
      simp [MappingCall.body, DBDB.delItem, DBDB.validateKey, sampleCodec, hdelete])
  have hrun4 : (MappingCall.commit none).run sampleExt sampleCodec (.ofDatabase db3) =
      .ok () (.ofDatabase db4) :=
    Handle.run_ofDatabase _ (by rw [MappingCall.body, Database.commitUnder_none, hcommit'])
  have hreach2 : (Handle.ofDatabase db2).Reached sampleExt sampleCodec 64 := by
    have hnext := (hreach0.call (.setItem 1 [7])).call (.commit none)
    rwa [hrun1, resultState_ok, hrun2] at hnext
  have hreach4 : (Handle.ofDatabase db4).Reached sampleExt sampleCodec 64 := by
    have hnext := (hreach2.call (.delItem 1)).call (.commit none)
    rwa [hrun3, resultState_ok, hrun4] at hnext
  -- the file that is left, and what the next compaction makes of it
  have hdurable : db2.disk.durable = db2.disk.live := by
    obtain ⟨c, s, hc, hs⟩ : ∃ c s, Committed sampleExt 64 db1.disk.live db1.cached c ∧
        Holding sampleExt 64 db1.disk.live db1.tree s := by
      have hupdate := (Database.connect_new_running hnew).update (.set 1 [7])
      rw [Database.update, hset, resultState_ok] at hupdate
      exact ⟨_, _, hupdate.safe.committed, hupdate.holding⟩
    exact Database.durable_of_commit hc hs hcommit
  obtain ⟨stats', compacted, m, c, hinto', hc'⟩ := sample_recompacted hpub hcached hwhole
  have hviews : db4.Views sampleExt 64 fun _ => none :=
    ⟨by simp [hpub'.unlocked], fun _ => ⟨_, hpub'.committed⟩⟩
  have hsound4 : db4.Sound sampleExt 64 := hreach4.sound
  obtain ⟨db5, hitems⟩ : ∃ db5, DBDB.items sampleExt sampleCodec db4 = .ok [] db5 ∧
      db5.tree.order = 64 := by
    obtain ⟨db5, hrefresh, hholds⟩ := (hsound4.finds hviews).refreshes
    have hempty : db5.tree.items = [] := hholds.represents.unique .nil
    refine ⟨db5, ?_, hholds.order_eq⟩
    have hdecode : sampleCodec.decodeAll [] = .ok [] := rfl
    simp [DBDB.items, Database.items, hrefresh, hempty, hdecode]
  obtain ⟨h', hcompact⟩ := compact_returns (h := .ofDatabase db4) rfl rfl hitems.1 hitems.2
    (hdurable ▸ hinto') hc'
  have hcrashed : db2.disk.Crashed (TornSlotFails sampleExt.crc32) db2.disk.durable :=
    crashed_durable _ _
  refine ⟨.ofDatabase db2, .ofDatabase db3, .ofDatabase db4, h', stats, stats', db2,
    db2.disk.durable, hreach2, rfl, ⟨?_, fun _ => ⟨_, hpub.committed⟩⟩, hinto, hcrashed,
    sample_leftBehind hnew hinto, ⟨db2.cached, hdurable ▸ hpub.committed⟩, hrun3, hrun4, hreach4,
    rfl, hpub'.unlocked, hviews, hcompact⟩
  intro hl
  rw [show (Handle.ofDatabase db2).database.locked = false from hpub.unlocked] at hl
  cases hl

/-! ## Compacting over a leftover file -/

/-- **A compaction brings back what a leftover file holds.**  Let the handle read the map `c`:
the committed one, if nothing is staged.  Whatever file interrupted compactions have left, a
compaction that raises leaves the items, the length and the audit as they were; one that
returns does so exactly if every key that the leftover file has committed is bound in `c`. -/
theorem compact_keeps_contents_iff (ext : Externals α) (codec : Codec α V) (order : ℕ)
    (hcodec : codec.Recodes) {h : Handle α} (hreach : h.Reached ext codec order)
    (hv : h.database.Views ext order c) (htemp : LeftBehind ext codec order temp) :
    match Handle.compact ext codec temp h with
    | .error _ h' => h'.contents ext codec = h.contents ext codec
    | .ok _ h' => h'.contents ext codec = h.contents ext codec ↔
        ∀ m0 c0, Committed ext order temp m0 c0 → ∀ key, c0 key ≠ none → c key ≠ none := by
  have hsound := hreach.sound
  obtain ⟨base, hopens, hbase⟩ := htemp.opensWith hreach.order_ge
  have hcompact := Handle.compact_meets hcodec hsound hv hopens
  have hfinds := hsound.finds hv
  obtain ⟨entries, hentries⟩ := hfinds.exists_entries
  cases hrun : Handle.compact ext codec temp h with
  | error e h' =>
    obtain ⟨hclosed, hrereads⟩ := hcompact.error hrun
    dsimp only
    cases hopen : h.closed with
    | true => rw [Handle.contents_closed hopen, Handle.contents_closed (hclosed.trans hopen)]
    | false =>
      rw [Handle.contents_eq hopen hfinds hentries, Handle.contents_eq (hclosed.trans hopen)
        (hrereads.sound.finds hrereads.views) hentries]
  | ok stats h' =>
    obtain ⟨hreach', hopen', m', c', hc', hv', hoverlays⟩ := hcompact.ok hrun
    have hfinds' := hreach'.sound.finds hv'
    obtain ⟨entries', hentries'⟩ := hfinds'.exists_entries
    have hsame := hoverlays.same_iff hentries hentries'
    have hbound : (∀ key, base key ≠ none → c key ≠ none) ↔
        ∀ m0 c0, Committed ext order temp m0 c0 → ∀ key, c0 key ≠ none → c key ≠ none := by
      constructor
      · intro hall m0 c0 hc0
        rw [hopens.eq_of_committed hc0]
        exact hall
      · intro hall key hkey
        obtain ⟨m0, hc0⟩ := hbase ⟨key, hkey⟩
        exact hall m0 base hc0 key hkey
    dsimp only
    rw [Handle.contents_eq (Handle.open_of_compact hrun) hfinds hentries,
      Handle.contents_eq hopen' hfinds' hentries', ← hbound, ← hsame]
    simp only [Contents.mk.injEq, Except.ok.injEq, Nat.cast_inj, Prod.mk.injEq, and_true]
    tauto

theorem compact_keeps_contents_iff_sample : ∃ (h h' : Handle ℕ) (stats : StorageStats) (temp : File),
    h.Reached sampleExt sampleCodec 64 ∧ h.database.Views sampleExt 64 (fun _ => none) ∧
      LeftBehind sampleExt sampleCodec 64 temp ∧
      Handle.compact sampleExt sampleCodec temp h = .ok stats h' ∧
      h'.contents sampleExt sampleCodec ≠ h.contents sampleExt sampleCodec := by
  obtain ⟨-, -, h, h', -, stats, -, temp, -, -, -, -, -, htemp, ⟨m, hc⟩, -, -, hreach, -, -, hv, hrun⟩ :=
    sample_leftover
  have hiff := compact_keeps_contents_iff sampleExt sampleCodec 64 sampleCodec_recodes hreach hv
    htemp
  rw [hrun] at hiff
  refine ⟨h, h', stats, temp, hreach, hv, htemp, hrun, fun hsame => ?_⟩
  exact hiff.mp hsame m sampleMap hc 1 (by decide) rfl

/-- A key that was in the database when a compaction was interrupted, and that has been
deleted since, is back after the next compaction. -/
theorem compact_revives_deleted : ∃ (h1 h2 h h' : Handle ℕ) (stats stats' : StorageStats)
    (compacted : Database ℕ) (temp : File), h1.Reached sampleExt sampleCodec 64 ∧
      (h1.contents sampleExt sampleCodec).items = .ok [(1, [7])] ∧
      compactInto sampleExt sampleCodec [(1, [7])] (.blank 64 (.powerOn .empty)) =
        .ok stats compacted ∧
      compacted.disk.Crashed (TornSlotFails sampleExt.crc32) temp ∧
      LeftBehind sampleExt sampleCodec 64 temp ∧
      (MappingCall.delItem 1).run sampleExt sampleCodec h1 = .ok () h2 ∧
      (MappingCall.commit none).run sampleExt sampleCodec h2 = .ok () h ∧
      h.database.locked = false ∧
      Handle.compact sampleExt sampleCodec temp h = .ok stats' h' ∧
      (h.contents sampleExt sampleCodec).items = .ok [] ∧
      (h'.contents sampleExt sampleCodec).items = .ok [(1, [7])] := by
  obtain ⟨h1, h2, h, h', stats, stats', compacted, temp, hreach1, hopen1, hv1, hinto, hcrashed,
    htemp, ⟨m, hc⟩, hdelete, hcommit, hreach, hopen, hlocked, hv, hrun⟩ := sample_leftover
  have hentries : Represents [(1, [7])] sampleMap := .single 1 [7]
  have hcompact := Handle.compact_meets sampleCodec_recodes hreach.sound hv
    (opensWith_of_committed hc)
  obtain ⟨hreach', hopen', m', c', hc', hv', hoverlays⟩ := hcompact.ok hrun
  have hmap : c' = sampleMap := funext fun key => hoverlays key
  refine ⟨h1, h2, h, h', stats, stats', compacted, temp, hreach1, ?_, hinto, hcrashed, htemp,
    hdelete, hcommit, hlocked, hrun, ?_, ?_⟩
  · rw [Handle.contents_eq hopen1 (hreach1.sound.finds hv1) hentries]
    rfl
  · rw [Handle.contents_eq hopen (hreach.sound.finds hv) .nil]
    rfl
  · rw [Handle.contents_eq hopen' (hreach'.sound.finds (hmap ▸ hv')) hentries]
    rfl
