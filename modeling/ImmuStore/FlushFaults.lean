/-
# Commits whose flushes raise

A commit flushes twice: the records, then the meta block.  A failed flush of the meta block
leaves the new block in the file while the handle still counts from the old one, so that
the next commit writes the same slot again.  What such commits keep is that each slot of
the file points at a whole tree, and that the tree of the handle is one.
-/
import ImmuStore.Contracts
import ImmuStore.HandleSpec

open Storage

variable {α : Type} [LinearOrder α] {ext : Externals α} {order : ℕ} {f g : File} {m m' : Meta}
  {c s : α → Option Bytes} {db db' : Database α}
variable {crc32 : Bytes → ℕ}

/-! ## Commits with flushes that raise -/

/-- A flush of a commit that raises. -/
inductive FlushFault where
  | dataFlush (e : PyError)
  | metaFlush (e : PyError)

namespace FlushFault

/-- The flush of the records. -/
def data : Option FlushFault → Py Disk Unit
  | some (.dataFlush e) => throw e
  | _ => flush

/-- The flush of the meta block. -/
def ofMeta : Option FlushFault → Py Disk Unit
  | some (.metaFlush e) => throw e
  | _ => flush

end FlushFault

namespace Database

omit [LinearOrder α] in
/-- `commit_root_address`, with a flush that may raise. -/
def commitRootAddressUnder (ext : Externals α) (fault : Option FlushFault) (rootAddress : ℕ)
    (keyCount : ℤ) : Py (Database α) Unit := do
  let _ ← lock
  onDisk (FlushFault.data fault)
  let db ← MonadState.get
  let newMeta := db.nextMeta rootAddress keyCount
  onDisk (Storage.writeSlot ext.crc32 newMeta.slot newMeta)
  onDisk (FlushFault.ofMeta fault)
  modify fun db => { db with cached := newMeta }
  unlock

omit [LinearOrder α] in
/-- `commit`, with a flush that may raise. -/
def commitUnder (ext : Externals α) (fault : Option FlushFault) :
    Py (Database α) Unit := do
  storeTree ext
  let db ← MonadState.get
  commitRootAddressUnder ext fault db.rootAddress db.tree.count
  refresh ext

end Database

/-! ## Files whose slots are sound -/

/-- The meta block points at a whole tree, which holds the map `c`. -/
structure Rooted (ext : Externals α) (order : ℕ) (f : File) (m : Meta) (c : α → Option Bytes) :
    Prop where
  ge : superblockSize ≤ m.dataLength
  le : m.dataLength ≤ f.size
  tree : ∃ t, AtMeta ext order f m.dataLength m t ∧ BPlusTree.Holds order t c

theorem Rooted.mono (h : Rooted ext order f m c) (hfg : SameRecords f.size f g) :
    Rooted ext order g m c := by
  obtain ⟨t, hat, hholds⟩ := h.tree
  have hle : m.dataLength ≤ g.size := h.le.trans hfg.le_right
  refine ⟨h.ge, hle, t, ?_, hholds⟩
  exact hat.mono ⟨hle, fun i hi hi' => hfg.byte_eq i hi (hi'.trans_le h.le)⟩ le_rfl hle

/-- A slot of the file is adopted, and every slot that is valid points at a whole tree. -/
structure SoundSlots (ext : Externals α) (order : ℕ) (f : File) : Prop where
  adopted : ∃ m, Adopted ext.crc32 f m
  rooted : ∀ index < 2, ∀ m, readSlot ext.crc32 f index = .ok (some m) →
    ∃ c, Rooted ext order f m c

namespace SoundSlots

theorem committed (h : SoundSlots ext order f) : ∃ m c, Committed ext order f m c := by
  obtain ⟨m, hm⟩ := h.adopted
  obtain ⟨c, hroot⟩ := h.rooted m.slot hm.slot_lt m hm.own
  exact ⟨m, c, hm, hroot.ge, hroot.le, hroot.tree⟩

theorem size_ge (h : SoundSlots ext order f) : superblockSize ≤ f.size := by
  obtain ⟨m, c, hc⟩ := h.committed
  exact hc.size_ge

/-- Appending to the file leaves its slots sound. -/
theorem sameBelow (h : SoundSlots ext order f) (hfg : File.SameBelow f.size f g) :
    SoundSlots ext order g := by
  obtain ⟨m, hm⟩ := h.adopted
  refine ⟨⟨m, hm.sameBelow hfg h.size_ge⟩, fun index hindex x hx => ?_⟩
  rw [← readSlot_sameBelow hfg h.size_ge hindex] at hx
  obtain ⟨c, hroot⟩ := h.rooted index hindex x hx
  exact ⟨c, hroot.mono (.of_sameBelow hfg)⟩

end SoundSlots

/-- A slot that is read holds a meta block of that slot. -/
theorem Storage.slot_of_readSlot {index : ℕ} (h : readSlot crc32 f index = .ok (some m)) :
    m.slot = index := by
  unfold readSlot at h
  simp only at h
  split_ifs at h
  all_goals cases h
  rfl

/-- If one slot is valid and the other one can be read, one of them is adopted. -/
theorem Storage.exists_adopted {other : Option Meta} (hslot : m.slot < 2)
    (hown : readSlot crc32 f m.slot = .ok (some m))
    (hother : readSlot crc32 f (1 - m.slot) = .ok other) : ∃ x, Adopted crc32 f x := by
  cases other with
  | none => exact ⟨m, hslot, hown, .inl hother⟩
  | some x =>
    have hx := slot_of_readSlot hother
    by_cases hnewer : x.txnId < m.txnId ∨ x.txnId = m.txnId ∧ m.slot = 0
    · exact ⟨m, hslot, hown, .inr ⟨x, hother, hnewer⟩⟩
    · refine ⟨x, by omega, hx ▸ hother, .inr ⟨m, ?_, by omega⟩⟩
      rw [hx, show 1 - (1 - m.slot) = m.slot by omega]
      exact hown

/-- A meta block of a whole tree, written into its slot, leaves the slots sound. -/
theorem SoundSlots.write (h : SoundSlots ext order f) (hslot : m.slot < 2)
    (hroot : Rooted ext order f m s) {block : Bytes} (hblock : metaBlock ext.crc32 m = .ok block) :
    SoundSlots ext order (f.write (m.slot * metaSlotSize) block) := by
  obtain ⟨-, -, -, -, hlen⟩ := metaBlock_ok hblock
  have hsame := sameButSlot_write hslot h.size_ge hlen.le
  have hrecords := hsame.sameRecords hslot
  have hnew : readSlot ext.crc32 (f.write (m.slot * metaSlotSize) block) m.slot = .ok (some m) :=
    readSlot_of_at hblock (File.at_write _ _ _)
  obtain ⟨x, hx⟩ := h.adopted
  have hread : ∃ other, readSlot ext.crc32 f (1 - m.slot) = .ok other := by
    have hlt := hx.slot_lt
    by_cases hown : 1 - m.slot = x.slot
    · exact ⟨_, hown ▸ hx.own⟩
    · rw [show 1 - m.slot = 1 - x.slot by omega]
      rcases hx.other with hother | ⟨y, hother, -⟩
      · exact ⟨_, hother⟩
      · exact ⟨_, hother⟩
  obtain ⟨other, hother⟩ := hread
  refine ⟨exists_adopted hslot hnew (hsame.readSlot hslot ▸ hother), fun index hindex y hy => ?_⟩
  by_cases hown : index = m.slot
  · rw [hown, hnew] at hy
    cases Except.ok.inj hy
    exact ⟨s, hroot.mono hrecords⟩
  · obtain rfl : index = 1 - m.slot := by omega
    rw [← hsame.readSlot hslot] at hy
    obtain ⟨c, hc⟩ := h.rooted _ hindex y hy
    exact ⟨c, hc.mono hrecords⟩

/-- The slots of a new file are sound. -/
theorem Storage.NewSlots.sound (h : NewSlots ext.crc32 f) (hsize : superblockSize ≤ f.size)
    (horder : 3 ≤ order) : SoundSlots ext order f := by
  refine ⟨⟨initialMeta, h.adopted⟩, fun index hindex x hx => ⟨fun _ => none, ?_⟩⟩
  obtain rfl : x = { initialMeta with slot := index } := by
    rw [h index hindex] at hx
    exact (Option.some.inj (Except.ok.inj hx)).symm
  exact ⟨le_rfl, hsize, .empty order, ⟨by simp [BPlusTree.empty], rfl, rfl, rfl⟩,
    .empty horder⟩

/-! ## Handles on such files -/

namespace Database

/-- The file has sound slots, and the tree of the handle holds some map. -/
structure Sound (ext : Externals α) (order : ℕ) (db : Database α) : Prop where
  slots : SoundSlots ext order db.disk.live
  holding : ∃ s, Holding ext order db.disk.live db.tree s

/-- The map that the handle reads: that of its tree while it holds the lock, otherwise
the committed one. -/
structure Views (ext : Externals α) (order : ℕ) (db : Database α) (s : α → Option Bytes) :
    Prop where
  locked : db.locked = true → Holding ext order db.disk.live db.tree s
  unlocked : db.locked = false → ∃ m, Committed ext order db.disk.live m s

theorem Sound.views (h : db.Sound ext order) : ∃ s, db.Views ext order s := by
  cases hl : db.locked with
  | true =>
    obtain ⟨s, hs⟩ := h.holding
    exact ⟨s, fun _ => hs, by simp [hl]⟩
  | false =>
    obtain ⟨m, c, hc⟩ := h.slots.committed
    exact ⟨c, by simp [hl], fun _ => ⟨m, hc⟩⟩

theorem Sound.order_eq (h : db.Sound ext order) : db.tree.order = order := by
  obtain ⟨s, hs⟩ := h.holding
  exact hs.holds.order_eq

/-- The handle `db'` is `db` on the same file, with a tree that holds `s`; `lock` says
whether it now holds the lock. -/
structure Turns (ext : Externals α) (order : ℕ) (db : Database α) (lock : Bool)
    (s : α → Option Bytes) (db' : Database α) : Prop where
  disk_eq : db'.disk = db.disk
  locked_eq : db'.locked = lock
  holding : Holding ext order db'.disk.live db'.tree s

theorem Turns.sound {lock : Bool} (h : Turns ext order db lock s db') (hdb : db.Sound ext order) :
    db'.Sound ext order :=
  ⟨h.disk_eq ▸ hdb.slots, s, h.holding⟩

/-- A handle that holds the lock views the map of its tree. -/
theorem Turns.views (h : Turns ext order db true s db') : db'.Views ext order s :=
  ⟨fun _ => h.holding, by simp [h.locked_eq]⟩

theorem Turns.views_of_eq (h : Turns ext order db db.locked s db') (hv : db.Views ext order s) :
    db'.Views ext order s :=
  ⟨fun _ => h.holding, fun hl => h.disk_eq ▸ hv.unlocked (h.locked_eq ▸ hl)⟩

section

variable (h : db.Sound ext order) (hv : db.Views ext order s)
include h hv

/-- A method that reads begins with the tree that the handle views. -/
theorem Sound.refreshUnlocked :
    ∃ db', Database.refreshUnlocked ext db = .ok () db' ∧ Turns ext order db db.locked s db' := by
  cases hl : db.locked with
  | true =>
    refine ⟨db, ?_, rfl, hl, hv.locked hl⟩
    simp [Database.refreshUnlocked, hl]
  | false =>
    obtain ⟨m, hc⟩ := hv.unlocked hl
    obtain ⟨t, hrun, hat⟩ := refresh_spec db hc h.order_eq
    refine ⟨{ db with cached := m, tree := t }, ?_, rfl, hl, hat.holding le_rfl hc⟩
    simp [Database.refreshUnlocked, hl, hrun]

/-- A method that writes begins by taking the lock, with the tree that the handle
views. -/
theorem Sound.lockFresh :
    ∃ db', Database.lockFresh ext db = .ok () db' ∧ Turns ext order db true s db' := by
  cases hl : db.locked with
  | true =>
    refine ⟨db, ?_, rfl, hl, hv.locked hl⟩
    obtain ⟨disk, cached, locked, tree⟩ := db
    obtain rfl : locked = true := hl
    simp [Database.lockFresh, lock]
  | false =>
    obtain ⟨m, hc⟩ := hv.unlocked hl
    obtain ⟨t, hrun, hat⟩ := refresh_spec { db with locked := true } hc h.order_eq
    refine ⟨{ db with cached := m, locked := true, tree := t }, ?_, rfl, rfl,
      hat.holding le_rfl hc⟩
    simp [Database.lockFresh, lock, hl, hrun]

/-- `get` reads the map that the handle views. -/
theorem Sound.get (key : α) :
    ∃ db', Turns ext order db db.locked s db' ∧
      Database.get ext key db = match s key with
        | some value => .ok value db'
        | none => .error .keyError db' := by
  obtain ⟨db', hrun, hturns⟩ := h.refreshUnlocked hv
  refine ⟨db', hturns, ?_⟩
  have hget := hturns.holding.holds.get_eq key
  rw [Database.get, run_bind, hrun]
  cases hkey : s key with
  | some value =>
    rw [hkey] at hget
    exact onTree_ok (by rw [hget])
  | none =>
    rw [hkey] at hget
    exact onTree_error (by rw [hget])

theorem Sound.set (key : α) (value : Bytes) :
    ∃ db', Database.set ext key value db = .ok () db' ∧
      Turns ext order db true (Function.update s key (some value)) db' := by
  obtain ⟨db1, hrun, hturns⟩ := h.lockFresh hv
  obtain ⟨t, hset, hholding⟩ := hturns.holding.set key value
  refine ⟨{ db1 with tree := t }, ?_, hturns.disk_eq, hturns.locked_eq, hholding⟩
  rw [Database.set, run_bind, hrun]
  exact onTree_ok hset

theorem Sound.delete (key : α) (hkey : s key ≠ none) :
    ∃ db', Database.delete ext key db = .ok () db' ∧
      Turns ext order db true (Function.update s key none) db' := by
  obtain ⟨db1, hrun, hturns⟩ := h.lockFresh hv
  obtain ⟨t, hdelete, hholding⟩ := hturns.holding.delete hkey
  refine ⟨{ db1 with tree := t }, ?_, hturns.disk_eq, hturns.locked_eq, hholding⟩
  rw [Database.delete, run_bind, hrun]
  exact onTree_ok hdelete

theorem Sound.delete_absent (key : α) (hkey : s key = none) :
    ∃ db', Database.delete ext key db = .error .keyError db' ∧ Turns ext order db true s db' := by
  obtain ⟨db1, hrun, hturns⟩ := h.lockFresh hv
  refine ⟨db1, ?_, hturns⟩
  rw [Database.delete, run_bind, hrun]
  exact onTree_error (hturns.holding.holds.delete_absent hkey)

end

end Database

/-! ## What a commit with a raising flush leaves -/

namespace Database

omit [LinearOrder α] in
theorem commitRootAddressUnder_eq (ext : Externals α) (fault : Option FlushFault) (rootAddress : ℕ)
    (keyCount : ℤ) (db : Database α) :
    commitRootAddressUnder ext fault rootAddress keyCount db =
      match fault with
      | some (.dataFlush e) => .error e { db with locked := true }
      | some (.metaFlush e) =>
        match metaBlock ext.crc32 (db.nextMeta rootAddress keyCount) with
        | .error e => .error e { db with disk := db.disk.push .flush, locked := true }
        | .ok block => .error e { db with
            disk := (db.disk.push .flush).push
              (.write ((1 - db.cached.slot) * metaSlotSize) block)
            locked := true }
      | none => commitRootAddress ext rootAddress keyCount db := by
  have hnext : ({ db with disk := db.disk.push .flush, locked := true } : Database α).nextMeta
      rootAddress keyCount = db.nextMeta rootAddress keyCount := by
    simp [nextMeta]
  cases fault with
  | none => rfl
  | some fault =>
    cases fault with
    | dataFlush e => rfl
    | metaFlush e =>
      have hslot : (db.nextMeta rootAddress keyCount).slot = 1 - db.cached.slot := rfl
      simp only [commitRootAddressUnder, FlushFault.data, FlushFault.ofMeta, run_bind, lock, onDisk,
        flush, run_modify, run_get, writeSlot, hnext, hslot]
      cases metaBlock ext.crc32 (db.nextMeta rootAddress keyCount) with
      | error e => rfl
      | ok block => rfl

/-- What a commit that raises leaves: nothing staged is lost, only a failed flush of the
meta block touches a slot, and the lock is taken unless a record was too long. -/
structure CommitFails (ext : Externals α) (order : ℕ) (db : Database α) (s : α → Option Bytes)
    (fault : Option FlushFault) (e : PyError) (db' : Database α) : Prop where
  slots : SoundSlots ext order db'.disk.live
  holding : Holding ext order db'.disk.live db'.tree s
  locked : db'.locked = true ∨ e = .structError ∧ db'.locked = db.locked
  kept : (∀ e, fault ≠ some (.metaFlush e)) →
    File.SameBelow db.disk.live.size db.disk.live db'.disk.live

/-- `commit` keeps the handle sound, whichever flush raises. -/
theorem commitUnder_meets (h : db.Sound ext order) (hs : Holding ext order db.disk.live db.tree s)
    (fault : Option FlushFault) :
    Meets (commitUnder ext fault) db (fun _ db' => db'.Sound ext order)
      (CommitFails ext order db s fault) := by
  obtain ⟨d, t, happ, hholding, ⟨hstore, honFile⟩ | ⟨-, e, hstore⟩⟩ :=
    storeTree_spec h.slots.size_ge hs
  · have hslots := h.slots.sameBelow happ.sameBelow
    set stored : Database α := { db with disk := d, tree := t }
    set m' := stored.nextMeta stored.rootAddress stored.tree.count with hm'
    have hroot : Rooted ext order d.live m' s :=
      ⟨hslots.size_ge, le_rfl, t, ⟨honFile, rfl, rfl, hholding.holds.order_eq⟩,
        hholding.holds⟩
    have hslot : m'.slot < 2 := by
      have : m'.slot = 1 - db.cached.slot := rfl
      omega
    have hrun : commitUnder ext fault db =
        (commitRootAddressUnder ext fault stored.rootAddress stored.tree.count >>=
          fun _ => refresh ext) stored := by
      rw [commitUnder, run_bind, hstore]
      rfl
    -- a meta block that cannot be packed is found after the flush of the records
    have hunpacked : ∀ {e : PyError}, metaBlock ext.crc32 m' = .error e →
        CommitFails ext order db s fault e
          { stored with disk := stored.disk.push .flush, locked := true } := by
      intro e hblock
      refine ⟨?_, ?_, .inl rfl, fun _ => ?_⟩
      · rw [Disk.live_flush]
        exact hslots
      · rw [Disk.live_flush]
        exact hholding
      · rw [Disk.live_flush]
        exact happ.sameBelow
    -- one that can be packed leaves the slots sound
    have hpacked : ∀ {block : Bytes}, metaBlock ext.crc32 m' = .ok block →
        SoundSlots ext order (d.live.write (m'.slot * metaSlotSize) block) ∧
          Holding ext order (d.live.write (m'.slot * metaSlotSize) block) t s := by
      intro block hblock
      obtain ⟨-, -, -, -, hlen⟩ := metaBlock_ok hblock
      have hsame := sameButSlot_write hslot hslots.size_ge hlen.le
      exact ⟨hslots.write hslot hroot hblock, hholding.mono (hsame.sameRecords hslot)⟩
    rw [Meets, hrun, run_bind, commitRootAddressUnder_eq]
    cases fault with
    | none =>
      simp only [commitRootAddress_eq, ← hm']
      cases hblock : metaBlock ext.crc32 m' with
      | error e => exact hunpacked hblock
      | ok block =>
        obtain ⟨hslots', -⟩ := hpacked hblock
        set published : Database α :=
          ⟨((d.push .flush).push (.write (m'.slot * metaSlotSize) block)).push .flush, m', false, t⟩
          with hpublished
        have hlive : published.disk.live = d.live.write (m'.slot * metaSlotSize) block := by
          simp [hpublished]
        rw [← hlive] at hslots'
        obtain ⟨x, c, hc⟩ := hslots'.committed
        obtain ⟨t', hrefresh, hat⟩ := refresh_spec published hc hholding.holds.order_eq
        change Meets (refresh ext) published _ _
        exact .of_ok hrefresh ⟨hslots', c, hat.holding le_rfl hc⟩
    | some fault =>
      cases fault with
      | dataFlush e => exact ⟨hslots, hholding, .inl rfl, fun _ => happ.sameBelow⟩
      | metaFlush e =>
        simp only [← hm']
        cases hblock : metaBlock ext.crc32 m' with
        | error e' => exact hunpacked hblock
        | ok block =>
          obtain ⟨hslots', hholding'⟩ := hpacked hblock
          refine ⟨?_, ?_, .inl rfl, fun hfault => absurd rfl (hfault e)⟩
          · rw [Disk.live_write, Disk.live_flush]
            exact hslots'
          · rw [Disk.live_write, Disk.live_flush]
            exact hholding'
  · obtain ⟨rfl, -⟩ := storeTree_error hstore
    refine .of_error (by rw [commitUnder, run_bind, hstore]) ?_
    exact ⟨h.slots.sameBelow happ.sameBelow, hholding, .inr ⟨rfl, rfl⟩, fun _ => happ.sameBelow⟩

end Database
