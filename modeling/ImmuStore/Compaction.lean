/-
# Compaction (`interface.py`)

`compact` lists the entries that the handle reads, sets them in a database under a temporary
name, commits that, and puts its file in the place of the old one.  It reads through the
handle, so that what is staged is published; and it opens the temporary file as it finds it,
so that what an interrupted compaction has left there takes part.
-/
import ImmuStore.FailedCalls
import ImmuStore.MetaSlots
import ImmuStore.StoredRecords

open Function Storage
open Handle (compact compactInto assertOpen rewrite)

variable {α V : Type} [LinearOrder α] {ext : Externals α} {codec : Codec α V} {order : ℕ}
  {m : Meta} {c s : α → Option Bytes} {db db' : Database α}
variable {h : Handle α} {entries l : List (α × Bytes)} {items : List (α × V)}
    {base : α → Option Bytes} {temp f : File}
variable {stats : StorageStats}

/-! ## What is read -/

/-- A value that is encoded again is decoded to what it was. -/
structure Codec.Recodes (codec : Codec α V) : Prop where
  decode_eq : ∀ {payload payload' : Bytes} {value : V}, codec.decode payload = .ok value →
    codec.encode value = .ok payload' → codec.decode payload' = .ok value

/-- What `__getitem__` makes of a stored map. -/
def Codec.read (codec : Codec α V) (s : α → Option Bytes) (key : α) : Except PyError V :=
  if codec.validKey key then
    match s key with
    | some payload => codec.decode payload
    | none => .error .keyError
  else .error .keyEncodingError

/-- What a fresh connection to the file reads. -/
def freshGet (ext : Externals α) (codec : Codec α V) (order : ℕ) (f : File) (key : α) :
    Except PyError V :=
  resultValue ((do Database.connect ext; DBDB.getItem ext codec key)
    (Database.blank order (.powerOn f)))

/-- What the handle reads. -/
def Handle.reading (ext : Externals α) (codec : Codec α V) (h : Handle α) (key : α) :
    Except PyError V :=
  resultValue (Handle.call (DBDB.getItem ext codec key) h)

namespace Database

/-- A method that reads finds the map `s`. -/
structure Finds (ext : Externals α) (order : ℕ) (db : Database α) (s : α → Option Bytes) : Prop where
  refreshes : ∃ db', refreshUnlocked ext db = .ok () db' ∧ BPlusTree.Holds order db'.tree s

theorem Sound.finds (h : db.Sound ext order) (hv : db.Views ext order s) :
    db.Finds ext order s := by
  obtain ⟨db', hrun, hturns⟩ := h.refreshUnlocked hv
  exact ⟨db', hrun, hturns.holding.holds⟩

theorem Attached.finds (h : db.Attached ext order m c s) : db.Finds ext order s := by
  obtain ⟨db', hrun, hholding, -⟩ := h.refreshUnlocked
  exact ⟨db', hrun, hholding.holds⟩

theorem Finds.getItem (h : db.Finds ext order s) (codec : Codec α V) (key : α) :
    resultValue (DBDB.getItem ext codec key db) = codec.read s key := by
  obtain ⟨db', hrun, hholds⟩ := h.refreshes
  have hget := hholds.get_eq key
  cases hvalid : codec.validKey key with
  | false => simp [DBDB.getItem, DBDB.validateKey, Codec.read, hvalid]
  | true =>
    cases hkey : s key with
    | none =>
      rw [hkey] at hget
      simp [DBDB.getItem, DBDB.validateKey, Codec.read, hvalid, hkey, Database.get, hrun, onTree,
        hget]
    | some payload =>
      rw [hkey] at hget
      simp only [DBDB.getItem, DBDB.validateKey, Codec.read, hvalid, hkey, Database.get, hrun,
        onTree, hget, if_true, run_bind, run_pure]
      cases codec.decode payload with
      | ok value => rfl
      | error e => rfl

end Database

theorem freshGet_eq (hc : Committed ext order f m c) (key : α) :
    freshGet ext codec order f key = codec.read c key := by
  obtain ⟨db, hrun, hrunning⟩ := Database.connect_running hc
  rw [freshGet, run_bind, hrun]
  exact hrunning.attached.finds.getItem codec key

theorem Handle.reading_eq (hopen : h.closed = false) (hfinds : h.database.Finds ext order s)
    (key : α) :
    h.reading ext codec key = codec.read s key := by
  rw [Handle.reading, Handle.call_of_open hopen, Handle.onDatabase, ← hfinds.getItem codec key]
  cases DBDB.getItem ext codec key h.database with
  | ok value db => rfl
  | error e db => rfl

/-! ## Filling the temporary file -/

/-- Bindings made one after the other. -/
def bindAll (l : List (α × Bytes)) (s : α → Option Bytes) : α → Option Bytes :=
  l.foldl (fun s e => update s e.1 (some e.2)) s

/-- The stored entry is the encoded one. -/
def Codec.Encodes (codec : Codec α V) (e : α × V) (e' : α × Bytes) : Prop :=
  codec.validKey e.1 = true ∧ e'.1 = e.1 ∧ codec.encode e.2 = .ok e'.2

/-- The loop of `compact` that fills the new file. -/
theorem setItems_meets (items : List (α × V)) : ∀ {db : Database α} {s : α → Option Bytes},
    db.Running ext order c s → Meets (DBDB.setItems ext codec items) db
      (fun _ db' => ∃ l, List.Forall₂ codec.Encodes items l ∧
        db'.Running ext order c (bindAll l s) ∧ db'.disk = db.disk)
      fun _ db' => ∃ s', db'.Running ext order c s' ∧ db'.disk = db.disk := by
  induction items with
  | nil => exact fun h => .pure ⟨[], .nil, h, rfl⟩
  | cons e items ih =>
    intro db s h
    obtain ⟨key, value⟩ := e
    refine .bind ?_
    cases hvalid : codec.validKey key with
    | false => exact .of_error (DBDB.setItem_invalid hvalid) ⟨s, h, rfl⟩
    | true =>
      cases hencode : codec.encode value with
      | error x => exact .of_error (DBDB.setItem_unencodable hvalid hencode) ⟨s, h, rfl⟩
      | ok payload =>
        obtain ⟨t, hset, -⟩ := h.attached.set key payload
        have hrunning := h.update (.set key payload)
        rw [Database.update, hset, resultState_ok] at hrunning
        have hrun : DBDB.setItem ext codec key value db = .ok () { db with
            cached := db.cached
            locked := true
            tree := t } := by
          simp [DBDB.setItem, DBDB.validateKey, hvalid, hencode, hset]
        refine .of_ok hrun ((ih hrunning).mono (fun _ db' hend => ?_) fun _ db' hend => hend)
        obtain ⟨l, hl, hrunning', hdisk⟩ := hend
        exact ⟨(key, payload) :: l, .cons ⟨hvalid, rfl, hencode⟩ hl, hrunning', hdisk⟩

omit [LinearOrder α] in
/-- Entries that could be decoded, one by one. -/
theorem Codec.decodeAll_ok (h : codec.decodeAll entries = .ok items) :
    List.Forall₂ (fun e e' => e'.1 = e.1 ∧ codec.decode e.2 = .ok e'.2) entries items := by
  induction entries generalizing items with
  | nil =>
    cases h
    exact .nil
  | cons e entries ih =>
    rw [Codec.decodeAll, List.mapM_cons] at h
    obtain ⟨first, hfirst, h⟩ := Except.bind_eq_ok.mp h
    obtain ⟨rest, hrest, h⟩ := Except.bind_eq_ok.mp h
    obtain ⟨value, hvalue, hpair⟩ := Except.bind_eq_ok.mp hfirst
    cases h
    cases hpair
    exact .cons ⟨rfl, hvalue⟩ (ih hrest)

/-- The map `s'` is `base` with every entry of `s` put over it, decoded and encoded again. -/
def Codec.Overlays (codec : Codec α V) (s base s' : α → Option Bytes) : Prop :=
  ∀ key, match s key with
    | some payload => codec.validKey key = true ∧ ∃ payload' value, s' key = some payload' ∧
        codec.decode payload = .ok value ∧ codec.decode payload' = .ok value
    | none => s' key = base key

theorem bindAll_of_not_mem {key : α} (h : ∀ e ∈ l, e.1 ≠ key) : bindAll l s key = s key := by
  induction l generalizing s with
  | nil => rfl
  | cons e l ih =>
    have hne : key ≠ e.1 := (h e (by simp)).symm
    rw [bindAll, List.foldl_cons]
    refine (ih fun x hx => h x (by simp [hx])).trans ?_
    exact update_of_ne hne _ _

/-- A sorted list, decoded and encoded again, is put over a map. -/
theorem bindAll_recoded (hcodec : codec.Recodes) (hentries : KeysIncrease entries)
    (hdecode : List.Forall₂ (fun e e' => e'.1 = e.1 ∧ codec.decode e.2 = .ok e'.2) entries items)
    (hencode : List.Forall₂ codec.Encodes items l) (base : α → Option Bytes) :
    (∀ e ∈ entries, codec.validKey e.1 = true ∧ ∃ payload' value, bindAll l base e.1 = some payload' ∧
        codec.decode e.2 = .ok value ∧ codec.decode payload' = .ok value) ∧
      (∀ e ∈ l, ∃ e' ∈ entries, e'.1 = e.1) := by
  induction hdecode generalizing l base with
  | nil =>
    cases hencode
    exact ⟨by simp, by simp⟩
  | @cons e e' entries items hfirst hrest ih =>
    cases hencode with
    | @cons _ x _ l hx hl =>
      obtain ⟨hbelow, hsorted⟩ := List.pairwise_cons.mp hentries
      obtain ⟨hkey, hvalue⟩ := hfirst
      obtain ⟨hvalid, hkey', hpayload⟩ := hx
      obtain ⟨hbound, hkeys⟩ := ih hsorted hl (update base x.1 (some x.2))
      have hsame : x.1 = e.1 := hkey'.trans hkey
      refine ⟨fun y hy => ?_, fun y hy => ?_⟩
      · rcases List.mem_cons.mp hy with rfl | hy
        · -- the keys that follow are larger, so that the first binding stays
          have hlast : ∀ z ∈ l, z.1 ≠ y.1 := by
            intro z hz heq
            obtain ⟨z', hz', hzkey⟩ := hkeys z hz
            exact absurd (hbelow z' hz') (by rw [hzkey, heq]; exact lt_irrefl _)
          refine ⟨hkey ▸ hvalid, x.2, e'.2, ?_, hvalue, hcodec.decode_eq hvalue hpayload⟩
          rw [bindAll, List.foldl_cons]
          refine (bindAll_of_not_mem hlast).trans ?_
          rw [← hsame]
          exact update_self ..
        · exact hbound y hy
      · rcases List.mem_cons.mp hy with rfl | hy
        · exact ⟨e, by simp, hsame.symm⟩
        · obtain ⟨z, hz, hzkey⟩ := hkeys y hy
          exact ⟨z, by simp [hz], hzkey⟩

/-- What the loop of `compact` stores of the entries of `s`. -/
theorem overlays_bindAll (hcodec : codec.Recodes) (hs : Represents entries s)
    (hdecode : codec.decodeAll entries = .ok items) (hencode : List.Forall₂ codec.Encodes items l)
    (base : α → Option Bytes) :
    codec.Overlays s base (bindAll l base) := by
  obtain ⟨hbound, hkeys⟩ :=
    bindAll_recoded hcodec hs.increasing (Codec.decodeAll_ok hdecode) hencode base
  intro key
  cases hkey : s key with
  | some payload => exact hbound (key, payload) ((hs.mem_iff key payload).mpr hkey)
  | none =>
    refine bindAll_of_not_mem fun e he heq => ?_
    obtain ⟨e', he', hsame⟩ := hkeys e he
    have := (hs.mem_iff e'.1 e'.2).mp he'
    rw [hsame, heq, hkey] at this
    cases this

omit [LinearOrder α] in
theorem Codec.Overlays.read_eq {s' : α → Option Bytes} (h : codec.Overlays s base s') {key : α}
    (hkey : s key = none → base key = none) : codec.read s' key = codec.read s key := by
  have hentry := h key
  unfold Codec.read
  cases hs : s key with
  | some payload =>
    rw [hs] at hentry
    obtain ⟨-, payload', value, hs', hdecode, hdecode'⟩ := hentry
    simp only [hs', hdecode, hdecode']
  | none =>
    rw [hs] at hentry
    simp only [hentry, hkey hs]

/-! ## Compacting -/

/-- Whatever the temporary file is, if it can be opened then it holds the map `c`. -/
def OpensWith (ext : Externals α) (order : ℕ) (temp : File) (c : α → Option Bytes) : Prop :=
  ∀ db, Database.connect ext (.blank order (.powerOn temp)) = .ok () db → db.Running ext order c c

omit [LinearOrder α] in
theorem disk_stats (ext : Externals α) (db : Database α) :
    (resultState (Database.stats ext db)).disk = db.disk := by
  unfold Database.stats
  cases readBestMeta ext.crc32 db.disk.live with
  | error e => rfl
  | ok m =>
    dsimp only
    cases countRecords db.disk.live with
    | error e => rfl
    | ok n => rfl

/-- The slots of a file that holds its last two commits. -/
theorem Fallback.soundSlots {m' : Meta} {p : α → Option Bytes} (h : Fallback ext order f m m' p)
    (hc : Committed ext order f m c) : SoundSlots ext order f := by
  refine ⟨⟨m, hc.adopted⟩, fun index hindex x hx => ?_⟩
  have hlt := hc.adopted.slot_lt
  by_cases hown : index = m.slot
  · rw [hown, hc.adopted.own] at hx
    cases Except.ok.inj hx
    exact ⟨c, hc.ge, hc.le, hc.tree⟩
  · have hslot := h.slot_eq
    rw [show index = m'.slot by omega, h.own] at hx
    cases Except.ok.inj hx
    exact ⟨p, h.ge, h.le.trans hc.le, h.tree⟩

/-- What `compact` has written to its temporary file when it returns. -/
theorem compactInto_meets (hcodec : codec.Recodes) (htemp : OpensWith ext order temp base)
    (hs : Represents entries s) (hdecode : codec.decodeAll entries = .ok items) :
    Meets (compactInto ext codec items) (.blank order (.powerOn temp))
      (fun _ db' => ∃ m' c' m'' p, Committed ext order db'.disk.live m' c' ∧
        Fallback ext order db'.disk.live m' m'' p ∧ codec.Overlays s base c')
      fun _ _ => True := by
  refine .bind ?_
  cases hconnect : Database.connect ext (.blank order (.powerOn temp)) with
  | error e db => exact .of_error hconnect trivial
  | ok u db =>
    refine .of_ok hconnect (.bind ?_)
    refine (setItems_meets items (htemp db hconnect)).mono (fun _ db1 hend => ?_) fun _ _ _ => trivial
    obtain ⟨l, hl, hrunning, -⟩ := hend
    refine .bind ?_
    cases hcommit : db1.commit ext with
    | error e db2 => exact .of_error hcommit trivial
    | ok u db2 =>
      have hrunning' := hrunning.commit hcommit
      have hoverlays := overlays_bindAll hcodec hs hdecode hl base
      refine .of_ok hcommit ?_
      cases hstats : db2.stats ext with
      | error e db3 => exact .of_error hstats trivial
      | ok stats db3 =>
        have hdisk := disk_stats ext db2
        rw [hstats, resultState_ok] at hdisk
        have hfallback := Fallback.of_commit hrunning.safe.committed hrunning.holding hcommit
        rw [← hdisk] at hfallback
        have hcommitted : Committed ext order db3.disk.live db2.cached (bindAll l base) := by
          rw [hdisk]
          exact hrunning'.safe.committed
        exact .of_ok hstats ⟨_, _, _, _, hcommitted, hfallback, hoverlays⟩

/-- The entries that `items` decodes. -/
theorem items_of_items (hsound : db.Sound ext order) (hv : db.Views ext order s)
    (hrun : DBDB.items ext codec db = .ok items db') :
    ∃ entries, Represents entries s ∧ codec.decodeAll entries = .ok items := by
  obtain ⟨db1, hrefresh, hholds⟩ := (hsound.finds hv).refreshes
  refine ⟨db1.tree.items, hholds.represents, ?_⟩
  cases hdecode : codec.decodeAll db1.tree.items with
  | error e => simp [DBDB.items, Database.items, hrefresh, hdecode] at hrun
  | ok items' =>
    obtain ⟨rfl, -⟩ : items' = items ∧ db1 = db' := by
      simpa [DBDB.items, Database.items, hrefresh, hdecode] using hrun
    rfl

/-- `compact` either raises and leaves the file and what the handle reads as they are, or
puts a file in place that has committed what the handle read, over what the temporary file
held. -/
theorem Handle.compact_meets (hcodec : codec.Recodes) (hsound : h.database.Sound ext order)
    (hv : h.database.Views ext order s) (htemp : OpensWith ext order temp base) :
    Meets (compact ext codec temp) h
      (fun _ h' => h'.Reached ext codec order ∧ h'.closed = false ∧
        ∃ m' c', Committed ext order h'.database.disk.live m' c' ∧
          h'.database.Views ext order c' ∧ codec.Overlays s base c')
      fun _ h' => h'.closed = h.closed ∧ h.database.Rereads ext order s h'.database := by
  cases hclosed : h.closed with
  | true =>
    have hrun : compact ext codec temp h = .error .databaseClosedError h := by
      simp [compact, assertOpen, hclosed]
    exact .of_error hrun ⟨hclosed, .refl hsound hv⟩
  | false =>
    have hrun : compact ext codec temp h = rewrite ext codec temp h := by
      simp [compact, assertOpen, hclosed]
    rw [Meets, hrun, rewrite]
    have hread := (Database.Reading.items codec).meets hsound hv
    split_ifs with hsnapshots
    · exact ⟨hclosed, .refl hsound hv⟩
    · cases hitems : DBDB.items ext codec h.database with
      | error e db => exact ⟨hclosed, hread.error hitems⟩
      | ok items db =>
        have hrereads := hread.ok hitems
        have horder : db.tree.order = order := hrereads.sound.order_eq
        obtain ⟨entries, hentries, hdecode⟩ := items_of_items hsound hv hitems
        have hinto := compactInto_meets hcodec htemp hentries hdecode
        dsimp only
        rw [horder]
        cases hcompact : compactInto ext codec items (.blank order (.powerOn temp)) with
        | error e compacted => exact ⟨hclosed, hrereads⟩
        | ok stats compacted =>
          obtain ⟨m', c', m'', p, hc', hfallback, hoverlays⟩ := hinto.ok hcompact
          obtain ⟨d', t, hconnect, hc'', -, hcases⟩ := Database.connect_spec hc'
          have hslots : SoundSlots ext order d'.live := by
            refine Fallback.soundSlots (hfallback.sameBelow ?_) hc''
            rcases hcases with rfl | rfl
            · exact .refl hc'.le
            · simp only [Disk.live_flush, Disk.live_truncate]
              exact .truncate hc'.le le_rfl
          have hnew : (⟨⟨d', m', false, t⟩, h.closed, h.openSnapshots⟩ : Handle α) =
              .ofDatabase ⟨d', m', false, t⟩ := by
            rw [Handle.ofDatabase, hclosed, Nat.eq_zero_of_not_pos hsnapshots]
          dsimp only
          rw [hconnect]
          refine ⟨?_, hclosed, m', c', hc'', ⟨by simp, fun _ => ⟨m', hc''⟩⟩, hoverlays⟩
          rw [hnew]
          exact .opened hconnect hslots

theorem Handle.open_of_compact {h' : Handle α}
    (hrun : compact ext codec temp h = .ok stats h') : h.closed = false := by
  cases hclosed : h.closed with
  | false => rfl
  | true => simp [compact, assertOpen, hclosed] at hrun

/-- `stats` returns on a file made of whole records. -/
theorem stats_returns (hc : Committed ext order db.disk.live m c) (h : Whole ext.crc32 db.disk.live) :
    ∃ stats, db.stats ext = .ok stats { db with cached := m } := by
  obtain ⟨n, hn⟩ := h.countRecords
  unfold Database.stats
  simp only [hc.adopted.readBestMeta, hn]
  exact ⟨_, rfl⟩

/-- A compaction whose temporary file could be written returns. -/
theorem compact_returns (hopen : h.closed = false) (hsnapshots : h.openSnapshots = 0)
    (hitems : DBDB.items ext codec h.database = .ok items db) (horder : db.tree.order = order)
    {compacted : Database α}
    (hinto : compactInto ext codec items (.blank order (.powerOn temp)) = .ok stats compacted)
    (hc : Committed ext order compacted.disk.live m c) :
    ∃ h', compact ext codec temp h = .ok stats h' := by
  obtain ⟨d, t, hconnect, -⟩ := Database.connect_spec hc
  refine ⟨{ h with database := ⟨d, m, false, t⟩ }, ?_⟩
  simp [compact, assertOpen, hopen, rewrite, hsnapshots, hitems, horder, hinto,
    hconnect]

/-! ## A sample -/

theorem sampleCodec_recodes : sampleCodec.Recodes :=
  ⟨fun _ hencode => hencode.symm⟩

/-- The sample database, committed, and what a compaction writes of it to a new file. -/
theorem sample_committed : ∃ (db0 db1 db2 : Database ℕ) (stats : StorageStats),
    Database.connect sampleExt (.blank 64 (.powerOn .empty)) = .ok () db0 ∧
      db0.set sampleExt 1 [7] = .ok () db1 ∧ db1.cached = initialMeta ∧
      db1.commit sampleExt = .ok () db2 ∧
      Database.Published sampleExt 64 db1 db2 sampleMap ∧
      Roomy sampleExt 64 999999 db2.disk ∧ Whole sampleExt.crc32 db2.disk.live ∧
      compactInto sampleExt sampleCodec [(1, [7])] (.blank 64 (.powerOn .empty)) =
        .ok stats db2 := by
  obtain ⟨d, t, hnew, hc, hat, -, hsize⟩ :=
    Database.connect_new sampleExt (by decide : 3 ≤ 64)
  obtain ⟨db1, db2, hset, hdisk, hcached, hcommit, hpub, hroom⟩ :=
    sample_commit ⟨d, initialMeta, false, t⟩ hc (roomy_new hc hsize) rfl hat.order_eq
  have hwhole : Whole sampleExt.crc32 db1.disk.live := by
    rw [hdisk]
    exact .of_size_eq hsize
  have hwhole' := Database.commit_whole hwhole
  rw [hcommit, resultState_ok] at hwhole'
  obtain ⟨stats, hstats⟩ := stats_returns hpub.committed hwhole'
  refine ⟨_, db1, db2, stats, hnew, hset, hcached, hcommit, hpub, hroom, hwhole', ?_⟩
  simp only [compactInto, DBDB.setItems, run_bind, hnew, Handle.setItem_sample hset, run_pure,
    hcommit, hstats]

/-- A new handle with one binding staged, and its compaction. -/
theorem sample_staged : ∃ (h h' : Handle ℕ) (stats : StorageStats),
    h.Reached sampleExt sampleCodec 64 ∧ h.closed = false ∧
      h.database.Views sampleExt 64 sampleMap ∧
      Committed sampleExt 64 h.database.disk.live initialMeta (fun _ => none) ∧
      compact sampleExt sampleCodec .empty h = .ok stats h' := by
  obtain ⟨db, hreach, hlocked, hc, hv⟩ := Handle.exists_staged_handle
  have hsound : db.Sound sampleExt 64 := hreach.sound
  obtain ⟨_, _, compacted, stats, -, -, -, -, hpub, -, -, hinto⟩ := sample_committed
  have hentries : db.tree.items = [(1, [7])] := by
    refine (hv.1 hlocked).holds.represents.unique ⟨by simp [KeysIncrease], fun k v => ?_⟩
    simp [sampleMap, Update.applyTo, update_apply, eq_comm]
  have hitems : DBDB.items sampleExt sampleCodec db = .ok [(1, [7])] db := by
    simp [DBDB.items, Database.items, Database.refreshUnlocked, hlocked, hentries, Codec.decodeAll,
      sampleCodec]
  obtain ⟨h', hrun⟩ := compact_returns (h := .ofDatabase db) rfl rfl hitems hsound.order_eq hinto
    hpub.committed
  exact ⟨.ofDatabase db, h', stats, hreach, rfl, hv, hc, hrun⟩

/-! ## Nothing staged is published -/

/-- A file that is made anew holds the empty map. -/
theorem opensWith_empty (ext : Externals α) (order : ℕ) :
    OpensWith ext order .empty fun _ => none :=
  fun _ hrun => Database.connect_new_running hrun

/-- **A compaction publishes what is staged.**  Without a leftover temporary file, a
compaction that raises leaves what a fresh connection reads as it was; one that returns does
so exactly if the handle read, for every key, what a fresh connection did: if nothing was
staged that changes what is read. -/
theorem compact_keeps_committed_iff (ext : Externals α) (codec : Codec α V) (order : ℕ)
    (hcodec : codec.Recodes) {h : Handle α} (hreach : h.Reached ext codec order) :
    match compact ext codec .empty h with
    | .error _ h' => ∀ key, freshGet ext codec order h'.database.disk.live key =
        freshGet ext codec order h.database.disk.live key
    | .ok _ h' => (∀ key, freshGet ext codec order h'.database.disk.live key =
          freshGet ext codec order h.database.disk.live key) ↔
        ∀ key, h.reading ext codec key = freshGet ext codec order h.database.disk.live key := by
  have hsound := hreach.sound
  obtain ⟨s, hv⟩ := hsound.views
  have hcompact := Handle.compact_meets hcodec hsound hv (opensWith_empty ext order)
  cases hrun : compact ext codec .empty h with
  | error e h' =>
    obtain ⟨-, hrereads⟩ := hcompact.error hrun
    intro key
    rw [hrereads.disk_eq]
  | ok stats h' =>
    obtain ⟨-, -, m', c', hc', -, hoverlays⟩ := hcompact.ok hrun
    have hopen := Handle.open_of_compact hrun
    -- afterwards a fresh connection reads what the handle read before
    have hsame : ∀ key, freshGet ext codec order h'.database.disk.live key =
        h.reading ext codec key := by
      intro key
      rw [freshGet_eq hc', Handle.reading_eq hopen (hsound.finds hv)]
      exact hoverlays.read_eq fun _ => rfl
    simp only [hsame]

theorem compact_keeps_committed_iff_sample : ∃ (h h' : Handle ℕ) (stats : StorageStats),
    h.Reached sampleExt sampleCodec 64 ∧
      compact sampleExt sampleCodec .empty h = .ok stats h' ∧
      ((∀ key, freshGet sampleExt sampleCodec 64 h'.database.disk.live key =
          freshGet sampleExt sampleCodec 64 h.database.disk.live key) ↔
        ∀ key, h.reading sampleExt sampleCodec key =
          freshGet sampleExt sampleCodec 64 h.database.disk.live key) := by
  obtain ⟨h, h', stats, hreach, -, -, -, hrun⟩ := sample_staged
  have hiff := compact_keeps_committed_iff sampleExt sampleCodec 64 sampleCodec_recodes hreach
  rw [hrun] at hiff
  exact ⟨h, h', stats, hreach, hrun, hiff⟩

/-- A binding that is staged and not committed is read by a fresh connection after a
compaction. -/
theorem compact_publishes_staged : ∃ (h h' : Handle ℕ) (stats : StorageStats),
    h.Reached sampleExt sampleCodec 64 ∧
      compact sampleExt sampleCodec .empty h = .ok stats h' ∧
      freshGet sampleExt sampleCodec 64 h.database.disk.live 1 = .error .keyError ∧
      freshGet sampleExt sampleCodec 64 h'.database.disk.live 1 = .ok [7] := by
  obtain ⟨h, h', stats, hreach, -, hv, hc, hrun⟩ := sample_staged
  have hcompact := Handle.compact_meets sampleCodec_recodes hreach.sound hv
    (opensWith_empty sampleExt 64)
  obtain ⟨-, -, m', c', hc', -, hoverlays⟩ := hcompact.ok hrun
  refine ⟨h, h', stats, hreach, hrun, ?_, ?_⟩
  · rw [freshGet_eq hc]
    rfl
  · rw [freshGet_eq hc', hoverlays.read_eq fun _ => rfl]
    rfl
