/-
# What a handle with the binary engine does

`BinaryDatabase.Running` says which map the file has committed and which one the handle
has staged.  Every method keeps it, and answers from the staged map.
-/
import ImmuStore.BinaryDatabase

open Storage

variable {α : Type} {p : Pickle α} {f g : File} {L L' : ℕ}

namespace BinaryNodeRef

variable {t left right : BinaryNodeRef α Bytes} {value : ValueRef Bytes}
variable {key : α} {d : Disk}

/-! ## Contents -/

/-- A tree without its addresses. -/
def strip {ν : Type} : BinaryNodeRef α ν → BinaryNodeRef α ν
  | .empty => .empty
  | .node _ left key value right length => .node 0 left.strip key ⟨value.referent, 0⟩ right.strip length

theorem items_strip {ν : Type} (t : BinaryNodeRef α ν) : t.strip.items = t.items := by
  induction t with
  | empty => rfl
  | node address left key value right length ihl ihr => rw [strip, items, items, ihl, ihr]

theorem sized_strip {ν : Type} (t : BinaryNodeRef α ν) : t.strip.Sized ↔ t.Sized := by
  induction t with
  | empty => rfl
  | node address left key value right length ihl ihr =>
    rw [strip, Sized, Sized, ihl, ihr, items_strip, items_strip]

/-- Neither the invariant nor the map of a tree depends on its addresses. -/
theorem Holds.congr [LinearOrder α] {ν : Type} {t t' : BinaryNodeRef α ν} {s : α → Option ν}
    (h : t.Holds s) (hstrip : t.strip = t'.strip) : t'.Holds s := by
  have hitems : t'.items = t.items := by rw [← items_strip, ← hstrip, items_strip]
  refine ⟨⟨?_, ?_⟩, ?_⟩
  · rw [hitems]
    exact h.ok.increasing
  · rw [← sized_strip, ← hstrip, sized_strip]
    exact h.ok.sized
  · rw [hitems]
    exact h.represents

/-! ## Trees on file -/

/-- The tree has been written, with all its records below `L`, subtrees before their
root. -/
inductive OnFile (p : Pickle α) (f : File) (L : ℕ) : BinaryNodeRef α Bytes → Prop
  | empty : OnFile p f L .empty
  | node {address length : ℕ} {left right : BinaryNodeRef α Bytes} {key : α} {value : ValueRef Bytes} :
      RecordAt p.crc32 f L address
        (p.dumps (.binary ⟨left.address, key, value.address, right.address, length⟩)) →
      RecordAt p.crc32 f L value.address value.referent → OnFile p f L left → OnFile p f L right →
      left.address < address → right.address < address →
      OnFile p f L (.node address left key value right length)

/-- The tree consists of new nodes above trees that have been written. -/
inductive Staged (p : Pickle α) (f : File) (L : ℕ) : BinaryNodeRef α Bytes → Prop
  | stored {t : BinaryNodeRef α Bytes} : OnFile p f L t → Staged p f L t
  | node {length : ℕ} {left right : BinaryNodeRef α Bytes} {key : α} {value : ValueRef Bytes} :
      NodeRef.StagedValue p.ext f L value → Staged p f L left → Staged p f L right →
      Staged p f L (.node 0 left key value right length)

theorem OnFile.mono (h : OnFile p f L t) (hfg : SameRecords L f g) (hL : L ≤ L')
    (hsize : L' ≤ g.size) : OnFile p g L' t := by
  induction h with
  | empty => exact .empty
  | node hrec hvalue _ _ hl hr ihl ihr =>
    exact .node ((hrec.congr hfg).mono hL hsize) ((hvalue.congr hfg).mono hL hsize) ihl ihr hl hr

theorem Staged.mono (h : Staged p f L t) (hfg : SameRecords L f g) (hL : L ≤ L')
    (hsize : L' ≤ g.size) : Staged p g L' t := by
  induction h with
  | stored hon => exact .stored (hon.mono hfg hL hsize)
  | node hvalue _ _ ihl ihr => exact .node (hvalue.mono hfg hL hsize) ihl ihr

theorem persistent_onFile : Persistent (OnFile p) := ⟨fun h hfg hL hsize => h.mono hfg hL hsize⟩

theorem persistent_staged : Persistent (Staged p) := ⟨fun h hfg hL hsize => h.mono hfg hL hsize⟩

/-- A tree on file lies below the end. -/
theorem OnFile.address_lt (h : OnFile p f L t) (hL : 0 < L) : t.address < L := by
  cases h with
  | empty => exact hL
  | node hrec _ _ _ _ _ =>
    have := hrec.le
    simp only [recordHeaderBytes] at this
    simp only [address]
    omega

/-- A tree on file is loaded as it was stored. -/
theorem OnFile.load_eq (h : OnFile p f L t) {fuel : ℕ} (hfuel : t.address < fuel) :
    load p f fuel t.address = .ok t := by
  induction h generalizing fuel with
  | empty =>
    obtain ⟨fuel, rfl⟩ : ∃ n, fuel = n + 1 := ⟨fuel - 1, by omega⟩
    rfl
  | @node address length left right key value hrec hvalue hleft hright hl hr ihl ihr =>
    obtain ⟨fuel, rfl⟩ : ∃ n, fuel = n + 1 := ⟨fuel - 1, by omega⟩
    have haddress : address < fuel + 1 := hfuel
    have hne : address ≠ 0 := by omega
    show load p f (fuel + 1) address = _
    rw [load, if_neg hne, hrec.read_eq]
    simp only [bind, Except.bind, p.loadsBinary_dumps]
    rw [ihl (by omega), ihr (by omega), NodeRef.loadValue, hvalue.read_eq]
    rfl

/-- The parts of a staged node are staged. -/
theorem Staged.parts {address length : ℕ}
    (h : Staged p f L (.node address left key value right length)) :
    NodeRef.StagedValue p.ext f L value ∧ Staged p f L left ∧ Staged p f L right := by
  cases h with
  | stored hon =>
    cases hon with
    | node _ hvalue hl hr _ _ => exact ⟨.inr hvalue, .stored hl, .stored hr⟩
  | node hvalue hl hr => exact ⟨hvalue, hl, hr⟩

/-- A staged node with an address has been written. -/
theorem Staged.onFile {address length : ℕ}
    (h : Staged p f L (.node address left key value right length)) (hne : address ≠ 0) :
    OnFile p f L (.node address left key value right length) := by
  cases h with
  | stored hon => exact hon
  | node _ _ _ => exact absurd rfl hne

theorem Staged.insert [LinearOrder α] (h : Staged p f L t) (key : α) (value : Bytes) :
    Staged p f L (t.insert key ⟨value, 0⟩) := by
  have hnew : NodeRef.StagedValue p.ext f L ⟨value, 0⟩ := .inl rfl
  induction t with
  | empty => exact .node hnew h h
  | node address left nodeKey nodeValue right length ihl ihr =>
    obtain ⟨hvalue, hl, hr⟩ := h.parts
    unfold BinaryNodeRef.insert
    split_ifs
    · exact .node hvalue (ihl hl) hr
    · exact .node hvalue hl (ihr hr)
    · exact .node hnew hl hr

theorem Staged.popMin (hl : Staged p f L left) (hr : Staged p f L right) (key : α)
    (hvalue : NodeRef.StagedValue p.ext f L value) :
    NodeRef.StagedValue p.ext f L (popMin left key value right).1.2 ∧
      Staged p f L (popMin left key value right).2 := by
  induction left generalizing key value right with
  | empty => exact ⟨hvalue, hr⟩
  | node address left' leftKey leftValue leftRight length ih _ =>
    obtain ⟨hlvalue, hll, hlr⟩ := hl.parts
    obtain ⟨hpopped, hrest⟩ := ih hll hlr leftKey hlvalue
    exact ⟨hpopped, .node hvalue hrest hr⟩

theorem Staged.join (hl : Staged p f L left) (hr : Staged p f L right) :
    Staged p f L (join left right) := by
  cases left with
  | empty => exact hr
  | node address left' leftKey leftValue leftRight length =>
    cases right with
    | empty => exact hl
    | node address' rightLeft rightKey rightValue rightRight length' =>
      obtain ⟨hvalue, hrl, hrr⟩ := hr.parts
      obtain ⟨hpopped, hrest⟩ := hrl.popMin hrr rightKey hvalue
      exact .node hpopped hl hrest

theorem Staged.delete [LinearOrder α] {t' : BinaryNodeRef α Bytes} (h : Staged p f L t)
    (hrun : t.delete key = .ok t') : Staged p f L t' := by
  induction t generalizing t' with
  | empty => cases hrun
  | node address left nodeKey nodeValue right length ihl ihr =>
    obtain ⟨hvalue, hl, hr⟩ := h.parts
    unfold BinaryNodeRef.delete at hrun
    split_ifs at hrun
    · obtain ⟨left', hleft, hrun⟩ := Except.bind_eq_ok.mp hrun
      cases hrun
      exact .node hvalue (ihl hl hleft) hr
    · obtain ⟨right', hright, hrun⟩ := Except.bind_eq_ok.mp hrun
      cases hrun
      exact .node hvalue hl (ihr hr hright)
    · cases hrun
      exact hl.join hr

/-! ## Storing -/

/-- The end of `store`, for a new node whose parts are on file. -/
theorem storeSelf_spec (key : α) (length : ℕ) (hd : superblockSize ≤ d.live.size)
    (hvalue : NodeRef.OnFileValue p.ext d.live d.live.size value)
    (hl : OnFile p d.live d.live.size left) (hr : OnFile p d.live d.live.size right) :
    Stored strip (Staged p) (OnFile p) (.node 0 left key value right length) d
      (storeSelf p left key value right length d) := by
  unfold storeSelf
  have hpos : 0 < d.live.size := Nat.lt_of_lt_of_le (by decide) hd
  rcases write_spec p.crc32
      (p.dumps (.binary ⟨left.address, key, value.address, right.address, length⟩)) d hd with
    ⟨d', hrun, happ, hrec⟩ | ⟨e, hrun⟩
  · have hon : OnFile p d'.live d'.live.size (.node d.live.size left key value right length) :=
      .node hrec (happ.persistent (NodeRef.persistent_onFileValue p.ext) hvalue)
        (happ.persistent persistent_onFile hl) (happ.persistent persistent_onFile hr)
        (hl.address_lt hpos) (hr.address_lt hpos)
    simp only [hrun]
    exact ⟨happ, rfl, .stored hon, fun _ => hon⟩
  · simp only [hrun]
    exact ⟨.refl, rfl, .node (.inr hvalue) (.stored hl) (.stored hr), by simp⟩

/-- `store` leaves a staged tree on file with its contents. -/
theorem store_spec (hd : superblockSize ≤ d.live.size) (h : Staged p d.live d.live.size t) :
    Stored strip (Staged p) (OnFile p) t d (t.store p d) := by
  induction t generalizing d with
  | empty => exact ⟨.refl, rfl, h, fun _ => .empty⟩
  | node address left key value right length ihl ihr =>
    rw [store]
    by_cases hzero : address = 0
    · subst hzero
      obtain ⟨hvalue, hleft, hright⟩ := h.parts
      rw [if_pos rfl]
      -- the value, then the left subtree, then the right one, each on the disk before it
      have hv := NodeRef.storeValue_spec p.ext hd hvalue
      have hvEq : storeValue p.ext.crc32 value d = storeValue p.crc32 value d := rfl
      rw [hvEq] at hv
      have hstripV : (⟨(storeValue p.crc32 value d).ref.referent, 0⟩ : ValueRef Bytes) =
          ⟨value.referent, 0⟩ := by rw [hv.content_eq]
      cases hvRaised : (storeValue p.crc32 value d).raised with
      | some e =>
        simp only [hvRaised]
        refine ⟨hv.appends, by simp only [strip, hstripV], .node hv.staged ?_ ?_, by simp⟩
        · exact hv.appends.persistent persistent_staged hleft
        · exact hv.appends.persistent persistent_staged hright
      | none =>
        simp only [hvRaised]
        have hd1 := hd.trans hv.appends.sameBelow.le_right
        have hl := ihl hd1 (hv.appends.persistent persistent_staged hleft)
        cases hlRaised : (left.store p (storeValue p.crc32 value d).disk).raised with
        | some e =>
          refine ⟨hv.appends.trans hl.appends, by simp only [strip, hstripV, hl.content_eq],
            .node ?_ hl.staged ?_, by simp⟩
          · exact hl.appends.persistent (NodeRef.persistent_stagedValue p.ext) hv.staged
          · exact (hv.appends.trans hl.appends).persistent persistent_staged hright
        | none =>
          have hd2 := hd1.trans hl.appends.sameBelow.le_right
          have hr := ihr hd2 ((hv.appends.trans hl.appends).persistent persistent_staged hright)
          have hvOn := (hl.appends.trans hr.appends).persistent
            (NodeRef.persistent_onFileValue p.ext) (hv.onFile hvRaised)
          have hlOn := hr.appends.persistent persistent_onFile (hl.onFile hlRaised)
          have happ := (hv.appends.trans hl.appends).trans hr.appends
          cases hrRaised : (right.store p (left.store p (storeValue p.crc32 value d).disk).disk).raised with
          | some e =>
            exact ⟨happ, by simp only [strip, hstripV, hl.content_eq, hr.content_eq],
              .node (.inr hvOn) (.stored hlOn) hr.staged, by simp⟩
          | none =>
            have hself := storeSelf_spec key length (hd2.trans hr.appends.sameBelow.le_right) hvOn
              hlOn (hr.onFile hrRaised)
            refine ⟨happ.trans hself.appends, ?_, hself.staged, hself.onFile⟩
            rw [hself.content_eq]
            simp only [strip, hstripV, hl.content_eq, hr.content_eq]
    · rw [if_neg hzero]
      exact ⟨.refl, rfl, h, fun _ => h.onFile hzero⟩

/-- `store` raises nothing but `struct.error`. -/
theorem store_raised {e : PyError} (h : (t.store p d).raised = some e) : e = .structError := by
  induction t generalizing d with
  | empty => cases h
  | node address left key value right length ihl ihr =>
    rw [store] at h
    split_ifs at h
    cases hv : (storeValue p.crc32 value d).raised with
    | some e' =>
      obtain rfl : e' = e := by simpa [hv] using h
      exact (NodeRef.storeValue_raised hv).1
    | none =>
      simp only [hv] at h
      cases hl : (left.store p (storeValue p.crc32 value d).disk).raised with
      | some e' =>
        obtain rfl : e' = e := by simpa [hl] using h
        exact ihl hl
      | none =>
        simp only [hl] at h
        cases hr : (right.store p (left.store p (storeValue p.crc32 value d).disk).disk).raised with
        | some e' =>
          obtain rfl : e' = e := by simpa [hr] using h
          exact ihr hr
        | none =>
          simp only [hr] at h
          unfold storeSelf at h
          split at h
          · cases h
          · next e' d' hwrite =>
            obtain rfl : e' = e := by simpa using h
            exact (write_error hwrite).1

end BinaryNodeRef

/-! ## Committed maps -/

variable [LinearOrder α] {m m' : Meta} {c s : α → Option Bytes}

/-- The file has committed the meta block `m`, and with it the map `c`; this engine
counts no keys. -/
structure BinaryCommitted (p : Pickle α) (f : File) (m : Meta) (c : α → Option Bytes) : Prop where
  adopted : Adopted p.crc32 f m
  ge : superblockSize ≤ m.dataLength
  le : m.dataLength ≤ f.size
  keyCount_eq : m.keyCount = 0
  tree : ∃ t, BinaryNodeRef.OnFile p f m.dataLength t ∧ t.address = m.rootAddress ∧ t.Holds c

theorem BinaryCommitted.size_ge (h : BinaryCommitted p f m c) : superblockSize ≤ f.size := h.ge.trans h.le

/-- The commit lasts as long as the bytes below its length do. -/
theorem BinaryCommitted.sameBelow (h : BinaryCommitted p f m c)
    (hfg : File.SameBelow m.dataLength f g) : BinaryCommitted p g m c := by
  obtain ⟨t, hon, hroot, hholds⟩ := h.tree
  exact ⟨h.adopted.sameBelow hfg h.ge, h.ge, hfg.le_right, h.keyCount_eq, t,
    hon.mono (.of_sameBelow hfg) le_rfl hfg.le_right, hroot, hholds⟩

/-- The tree behind the meta block, within the whole file. -/
theorem BinaryCommitted.tree_live (h : BinaryCommitted p f m c) :
    ∃ t, BinaryNodeRef.OnFile p f f.size t ∧ t.address = m.rootAddress ∧ t.Holds c := by
  obtain ⟨t, hon, hroot, hholds⟩ := h.tree
  exact ⟨t, hon.mono ⟨h.le, fun _ _ _ => rfl⟩ h.le le_rfl, hroot, hholds⟩

/-- A new file has committed the empty map. -/
theorem BinaryCommitted.new (hadopted : Adopted p.crc32 f initialMeta)
    (hsize : f.size = superblockSize) : BinaryCommitted p f initialMeta fun _ => none :=
  ⟨hadopted, le_rfl, hsize.ge, rfl, .empty, .empty, rfl, .empty⟩

namespace BinaryDatabase

variable {db db' : BinaryDatabase α}

/-- The invariant of a handle: `c` is committed and `s` is staged. -/
structure Running (p : Pickle α) (db : BinaryDatabase α) (c s : α → Option Bytes) : Prop where
  committed : BinaryCommitted p db.disk.live db.cached c
  holds : db.treeRef.Holds s
  staged : BinaryNodeRef.Staged p db.disk.live db.disk.live.size db.treeRef
  idle : db.locked = false → s = c

/-! ## Refreshing -/

/-- `_refresh_tree_ref` loads the committed tree. -/
theorem refresh_spec (hc : BinaryCommitted p db.disk.live m c) :
    ∃ t, refresh p db = .ok () { db with cached := m, treeRef := t } ∧
      BinaryNodeRef.OnFile p db.disk.live db.disk.live.size t ∧ t.Holds c := by
  obtain ⟨t, hon, hroot, hholds⟩ := hc.tree_live
  have hlt : t.address < db.disk.live.size + 1 :=
    (hon.address_lt (Nat.lt_of_lt_of_le (by decide) hc.size_ge)).trans (Nat.lt_succ_self _)
  refine ⟨t, ?_, hon, hholds⟩
  unfold refresh
  rw [hc.adopted.readBestMeta]
  simp only [← hroot, hon.load_eq hlt]

/-- A refreshed handle has nothing staged. -/
theorem refresh_running (hc : BinaryCommitted p db.disk.live m c) :
    ∃ db', refresh p db = .ok () db' ∧ db'.Running p c c ∧ db'.locked = db.locked ∧
      db'.disk = db.disk ∧ db'.cached = m := by
  obtain ⟨t, hrun, hon, hholds⟩ := refresh_spec hc
  exact ⟨_, hrun, ⟨hc, hholds, .stored hon, fun _ => rfl⟩, rfl, rfl, rfl⟩

namespace Running

section

variable (h : db.Running p c s)
include h

/-- A method that writes begins with a current tree, and the lock. -/
theorem lockFresh :
    ∃ db', BinaryDatabase.lockFresh p db = .ok () db' ∧ db'.Running p c s ∧ db'.locked = true ∧
      db'.disk = db.disk ∧ db'.cached = db.cached := by
  cases hl : db.locked with
  | true =>
    refine ⟨db, ?_, h, hl, rfl, rfl⟩
    obtain ⟨disk, cached, locked, treeRef⟩ := db
    obtain rfl : locked = true := hl
    simp [BinaryDatabase.lockFresh, lock]
  | false =>
    obtain rfl := h.idle hl
    have hlocked : BinaryCommitted p ({ db with locked := true } : BinaryDatabase α).disk.live
        db.cached s := h.committed
    obtain ⟨db', hrun, hrunning, hkept⟩ := refresh_running hlocked
    refine ⟨db', ?_, hrunning, hkept⟩
    simp [BinaryDatabase.lockFresh, lock, hl, hrun]

/-- A method that reads begins with a current tree. -/
theorem refreshUnlocked :
    ∃ db', BinaryDatabase.refreshUnlocked p db = .ok () db' ∧ db'.Running p c s := by
  cases hl : db.locked with
  | true => exact ⟨db, by simp [BinaryDatabase.refreshUnlocked, hl], h⟩
  | false =>
    obtain rfl := h.idle hl
    obtain ⟨db', hrun, hrunning, -⟩ := refresh_running h.committed
    exact ⟨db', by simp [BinaryDatabase.refreshUnlocked, hl, hrun], hrunning⟩

/-! ## Reading and staging -/

theorem get (key : α) :
    ∃ db', db'.Running p c s ∧ BinaryDatabase.get p key db = match s key with
      | some value => .ok value db'
      | none => .error .keyError db' := by
  obtain ⟨db', hrun, hrunning⟩ := h.refreshUnlocked
  refine ⟨db', hrunning, ?_⟩
  simp only [BinaryDatabase.get, run_bind, hrun, run_get, hrunning.holds.get_eq key]
  cases s key with
  | none => rfl
  | some value => rfl

/-- `set` stages a binding, and leaves the file as it is. -/
theorem set (key : α) (value : Bytes) :
    ∃ db', BinaryDatabase.set p key value db = .ok () db' ∧
      db'.Running p c (Function.update s key (some value)) ∧ db'.disk = db.disk ∧
      db'.cached = db.cached := by
  obtain ⟨db', hrun, hrunning, hl, hkept⟩ := h.lockFresh
  refine ⟨{ db' with treeRef := db'.treeRef.insert key ⟨value, 0⟩ }, ?_, ⟨hrunning.committed,
    hrunning.holds.insert key ⟨value, 0⟩, hrunning.staged.insert key value, ?_⟩, hkept⟩
  · simp [BinaryDatabase.set, hrun]
  · intro hfree
    rw [hl] at hfree
    cases hfree

theorem delete {key : α} (hkey : s key ≠ none) :
    ∃ db', BinaryDatabase.delete p key db = .ok () db' ∧
      db'.Running p c (Function.update s key none) := by
  obtain ⟨db', hrun, hrunning, hl, -⟩ := h.lockFresh
  obtain ⟨t, hdelete, hholds⟩ := hrunning.holds.delete hkey
  refine ⟨{ db' with treeRef := t }, ?_, hrunning.committed, hholds, hrunning.staged.delete hdelete, ?_⟩
  · simp [BinaryDatabase.delete, hrun, hdelete]
  · intro hfree
    rw [hl] at hfree
    cases hfree

/-- `delete` of an absent key raises `KeyError`. -/
theorem delete_absent {key : α} (hkey : s key = none) :
    ∃ db', BinaryDatabase.delete p key db = .error .keyError db' ∧ db'.Running p c s := by
  obtain ⟨db', hrun, hrunning, -⟩ := h.lockFresh
  refine ⟨db', ?_, hrunning⟩
  simp [BinaryDatabase.delete, hrun, hrunning.holds.delete_absent hkey]

/-- What the methods that list keys read: a tree of the staged map. -/
theorem read :
    ∃ db', db'.Running p c s ∧
      BinaryDatabase.length p db = .ok (db'.treeRef.items.length : ℤ) db' ∧
      BinaryDatabase.items p db = .ok db'.treeRef.items db' ∧
      (∀ start stop, BinaryDatabase.rangeItems p start stop db =
        .ok (restrict start stop db'.treeRef.items) db') ∧
      ∃ report, BinaryDatabase.audit p db = .ok report db' ∧ report.errors = [] := by
  obtain ⟨db', hrun, hrunning⟩ := h.refreshUnlocked
  obtain ⟨report, haudit, herrors, -⟩ := hrunning.holds.ok.audit_eq
  refine ⟨db', hrunning, ?_, ?_, ?_, report, ?_, herrors⟩
  · simp [BinaryDatabase.length, hrun, hrunning.holds.refLength_eq]
  · simp [BinaryDatabase.items, hrun]
  · intro start stop
    simp [BinaryDatabase.rangeItems, hrun, BinaryNodeRef.rangeItems_eq_restrict hrunning.holds.ok.increasing start stop]
  · simp [BinaryDatabase.audit, hrun, haudit]

end

end Running

/-! ## Committing -/

omit [LinearOrder α] in
/-- `commit_root_address`: a flush, the other slot, a flush. -/
theorem commitRootAddress_eq (rootAddress : ℕ) (keyCount : ℤ) (db : BinaryDatabase α) :
    commitRootAddress p rootAddress keyCount db =
      match metaBlock p.crc32 (db.nextMeta rootAddress keyCount) with
      | .error e => .error e { db with disk := db.disk.push .flush, locked := true }
      | .ok block => .ok () { db with
          disk := ((db.disk.push .flush).push
            (.write ((1 - db.cached.slot) * metaSlotSize) block)).push .flush
          cached := db.nextMeta rootAddress keyCount
          locked := false } := by
  have hnext : ({ db with disk := db.disk.push .flush, locked := true } : BinaryDatabase α).nextMeta
      rootAddress keyCount = db.nextMeta rootAddress keyCount := by
    simp [nextMeta]
  unfold commitRootAddress
  cases hblock : metaBlock p.crc32 (db.nextMeta rootAddress keyCount) with
  | error e => simp [lock, onDisk, flush, writeSlot, hnext, hblock]
  | ok block =>
    have hslot : (db.nextMeta rootAddress keyCount).slot = 1 - db.cached.slot := rfl
    simp [lock, onDisk, flush, writeSlot, hnext, hslot, hblock]

/-- `store` of the root writes what is new, or raises `struct.error`. -/
theorem storeTree_spec (h : db.Running p c s) :
    ∃ stored : BinaryDatabase α, stored.Running p c s ∧ stored.cached = db.cached ∧
      ((storeTree p db = .ok () stored ∧
          BinaryNodeRef.OnFile p stored.disk.live stored.disk.live.size stored.treeRef) ∨
        storeTree p db = .error .structError stored) := by
  have hstored := BinaryNodeRef.store_spec h.committed.size_ge h.staged
  refine ⟨{ db with disk := (db.treeRef.store p db.disk).disk
                    treeRef := (db.treeRef.store p db.disk).ref }, ⟨?_, ?_, hstored.staged, h.idle⟩, rfl, ?_⟩
  · exact h.committed.sameBelow (hstored.appends.sameBelow.mono h.committed.le)
  · exact h.holds.congr hstored.content_eq.symm
  · unfold storeTree
    cases hraised : (db.treeRef.store p db.disk).raised with
    | none => exact .inl ⟨by simp only [hraised], hstored.onFile hraised⟩
    | some e =>
      obtain rfl := BinaryNodeRef.store_raised hraised
      exact .inr (by simp only [hraised])

/-- A complete slot write commits the map of the tree it points at. -/
theorem publish (h : db.Running p c s)
    (hon : BinaryNodeRef.OnFile p db.disk.live db.disk.live.size db.treeRef) {block : Bytes}
    (hblock : metaBlock p.crc32 (db.nextMeta db.treeRef.address 0) = .ok block) :
    BinaryCommitted p (db.disk.live.write ((1 - db.cached.slot) * metaSlotSize) block)
      (db.nextMeta db.treeRef.address 0) s := by
  have hsucc : (db.nextMeta db.treeRef.address 0).Succeeds db.cached := ⟨rfl, rfl⟩
  obtain ⟨-, -, -, -, hlen⟩ := metaBlock_ok hblock
  have hslot : 1 - db.cached.slot < 2 := by omega
  have hsame := sameButSlot_write hslot h.committed.size_ge hlen.le
  refine ⟨h.committed.adopted.succ hsucc hsame (readSlot_of_at hblock (File.at_write _ _ _)),
    h.committed.size_ge, hsame.size_eq.ge, rfl, db.treeRef, ?_, rfl, h.holds⟩
  exact hon.mono (hsame.sameRecords hslot) le_rfl hsame.size_eq.ge

/-- A commit returns once the tree is stored and the meta block can be packed. -/
theorem commit_of_stored {stored : BinaryDatabase α} (h : stored.Running p c s)
    (hstore : storeTree p db = .ok () stored)
    (hon : BinaryNodeRef.OnFile p stored.disk.live stored.disk.live.size stored.treeRef)
    {block : Bytes}
    (hblock : metaBlock p.crc32 (stored.nextMeta stored.treeRef.address 0) = .ok block) :
    ∃ db', commit p db = .ok () db' ∧ db'.Running p s s := by
  set published : BinaryDatabase α := { stored with
    disk := ((stored.disk.push .flush).push
      (.write ((1 - stored.cached.slot) * metaSlotSize) block)).push .flush
    cached := stored.nextMeta stored.treeRef.address 0
    locked := false } with hpublished
  have hlive : published.disk.live =
      stored.disk.live.write ((1 - stored.cached.slot) * metaSlotSize) block := by
    simp [hpublished]
  have hc : BinaryCommitted p published.disk.live published.cached s := by
    rw [hlive]
    exact publish h hon hblock
  obtain ⟨db', hrefresh, hdb', -⟩ := refresh_running hc
  refine ⟨db', ?_, hdb'⟩
  have hrun : commit p db =
      (commitRootAddress p stored.treeRef.address 0 >>= fun _ => refresh p) stored := by
    rw [commit, run_bind, hstore]
    rfl
  rw [hrun, run_bind, commitRootAddress_eq, hblock]
  exact hrefresh

/-- `commit` publishes the staged map, or raises `struct.error` and publishes nothing. -/
theorem Running.commit (h : db.Running p c s) :
    (∃ db', BinaryDatabase.commit p db = .ok () db' ∧ db'.Running p s s) ∨
      ∃ db', BinaryDatabase.commit p db = .error .structError db' ∧ db'.Running p c s := by
  obtain ⟨stored, hrunning, -, ⟨hstore, hon⟩ | hstore⟩ := storeTree_spec h
  · cases hblock : metaBlock p.crc32 (stored.nextMeta stored.treeRef.address 0) with
    | ok block => exact .inl (commit_of_stored hrunning hstore hon hblock)
    | error e =>
      obtain rfl := metaBlock_error hblock
      have hrun : BinaryDatabase.commit p db =
          (commitRootAddress p stored.treeRef.address 0 >>= fun _ => refresh p) stored := by
        rw [BinaryDatabase.commit, run_bind, hstore]
        rfl
      rw [hrun, run_bind, commitRootAddress_eq, hblock]
      refine .inr ⟨_, rfl, ?_, hrunning.holds, ?_, fun hl => by cases hl⟩
      · rw [Disk.live_flush]
        exact hrunning.committed
      · rw [Disk.live_flush]
        exact hrunning.staged
  · refine .inr ⟨stored, ?_, hrunning⟩
    rw [BinaryDatabase.commit, run_bind, hstore]

/-! ## Opening -/

/-- Opening a file finds the committed map. -/
theorem connect_running (hc : BinaryCommitted p f m c) :
    ∃ db, connect p (blank (.powerOn f)) = .ok () db ∧ db.Running p c c ∧ db.locked = false := by
  have hadopted : Adopted p.crc32 (Disk.powerOn f).live m := hc.adopted
  obtain ⟨d, hensure, -, hcases⟩ := ensureMeta_adopted hadopted hc.ge hc.le
  have hd : BinaryCommitted p d.live m c := by
    rcases hcases with rfl | rfl
    · exact hc
    · simp only [Disk.live_flush, Disk.live_truncate]
      exact hc.sameBelow (.truncate hc.le le_rfl)
  have hopened : BinaryCommitted p (⟨d, m, false, .empty⟩ : BinaryDatabase α).disk.live m c := hd
  obtain ⟨db, hrefresh, hrunning, hl, -⟩ := refresh_running hopened
  refine ⟨db, ?_, hrunning, hl⟩
  simp [connect, onDisk, blank, hensure, hrefresh]

/-- Creating a database. -/
theorem connect_new (p : Pickle α) :
    ∃ d, connect p (blank (.powerOn .empty)) = .ok () ⟨d, initialMeta, false, .empty⟩ ∧
      BinaryCommitted p d.live initialMeta (fun _ => none) ∧ d.live.size = superblockSize := by
  obtain ⟨d, hensure, hslots, -, hsize⟩ := ensureMeta_new p.crc32
  have hopened : BinaryCommitted p (⟨d, initialMeta, false, .empty⟩ : BinaryDatabase α).disk.live
      initialMeta fun _ => none := .new hslots.adopted hsize
  obtain ⟨t, hrefresh, -, hholds⟩ := refresh_spec hopened
  obtain rfl := hholds.eq_empty
  refine ⟨d, ?_, hopened, hsize⟩
  simp [connect, onDisk, blank, hensure, hrefresh]

theorem connect_new_running (p : Pickle α) :
    ∃ db, connect p (blank (.powerOn .empty)) = .ok () db ∧
      db.Running p (fun _ => none) (fun _ => none) ∧ db.disk.live.size = superblockSize ∧
      db.cached = initialMeta := by
  obtain ⟨d, hrun, hc, hsize⟩ := connect_new p
  exact ⟨_, hrun, ⟨hc, .empty, .stored .empty, fun _ => rfl⟩, hsize, rfl⟩

end BinaryDatabase
