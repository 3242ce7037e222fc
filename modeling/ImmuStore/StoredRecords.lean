/-
# The records that a commit appends

`Recording` is a series of writes; it adds its records to the table of the file.  Storing
a tree is such a series: one record for every node and every value that had no address,
children before their parents, and none for the others.  A file made of whole records
therefore stays one, whether a commit returns or raises.
-/
import ImmuStore.RecordTable
import ImmuStore.HandleSpec

open Storage

namespace Storage

variable {crc32 : Bytes → ℕ} {f g : File} {d d' d'' : Disk} {l l' : List (ℕ × Bytes)}

/-! ## Series of writes -/

/-- Payloads written one after the other, with the addresses they were given. -/
inductive Recording (crc32 : Bytes → ℕ) : Disk → List (ℕ × Bytes) → Disk → Prop
  | nil (d : Disk) : Recording crc32 d [] d
  | cons {d d' d'' : Disk} {address : ℕ} {payload : Bytes} {l : List (ℕ × Bytes)} :
      write crc32 payload d = .ok address d' → Recording crc32 d' l d'' →
      Recording crc32 d ((address, payload) :: l) d''

namespace Recording

theorem single {address : ℕ} {payload : Bytes} (h : write crc32 payload d = .ok address d') :
    Recording crc32 d [(address, payload)] d' :=
  .cons h (.nil _)

theorem append (h : Recording crc32 d l d') (h' : Recording crc32 d' l' d'') :
    Recording crc32 d (l ++ l') d'' := by
  induction h with
  | nil => exact h'
  | cons hwrite _ ih => exact .cons hwrite (ih h')

/-- The records stand one after the other from the old end of the file to the new one. -/
theorem records (h : Recording crc32 d l d') (hd : superblockSize ≤ d.live.size) :
    d.Appends d' ∧ Records crc32 d'.live d.live.size l d'.live.size := by
  induction h with
  | nil => exact ⟨.refl, .nil _⟩
  | @cons d d1 d2 address payload l hwrite hrest ih =>
    obtain ⟨rfl, happ, hrecord⟩ := write_records hd hwrite
    obtain ⟨happ', hrecords⟩ := ih (hd.trans happ.sameBelow.le_right)
    refine ⟨happ.trans happ', ?_⟩
    -- the first record lies below everything that is written after it
    exact (hrecord.congr hd (.of_sameBelow happ'.sameBelow)).append hrecords

end Recording

/-! ## Files made of whole records -/

/-- Behind the superblock the file is made of whole records. -/
def Whole (crc32 : Bytes → ℕ) (f : File) : Prop :=
  ∃ l, Records crc32 f superblockSize l f.size

namespace Whole

theorem size_ge (h : Whole crc32 f) : superblockSize ≤ f.size := by
  obtain ⟨l, hl⟩ := h
  exact hl.le

/-- `count_records` returns. -/
theorem countRecords (h : Whole crc32 f) : ∃ n, countRecords f = .ok n := by
  obtain ⟨l, hl⟩ := h
  exact ⟨l.length, hl.countRecords_eq⟩

theorem of_size_eq (h : f.size = superblockSize) : Whole crc32 f :=
  ⟨[], by rw [h]; exact .nil _⟩

theorem congr (h : Whole crc32 f) (hfg : SameRecords f.size f g) (hsize : g.size = f.size) :
    Whole crc32 g := by
  obtain ⟨l, hl⟩ := h
  refine ⟨l, ?_⟩
  rw [hsize]
  exact hl.congr le_rfl hfg

theorem recording (h : Whole crc32 d.live) (hl : Recording crc32 d l d') : Whole crc32 d'.live := by
  obtain ⟨happ, hnew⟩ := hl.records h.size_ge
  obtain ⟨old, hold⟩ := h
  exact ⟨old ++ l, (hold.congr le_rfl (.of_sameBelow happ.sameBelow)).append hnew⟩

end Whole

end Storage

/-! ## What storing a tree writes -/

/-- The values of a leaf, as they are once they have been stored, and the records written for
them: one for each value that had no address. -/
inductive StoredValues : List (ValueRef Bytes) → List (ValueRef Bytes) → List (ℕ × Bytes) → Prop
  | nil : StoredValues [] [] []
  | old {v : ValueRef Bytes} {values stored : List (ValueRef Bytes)} {l : List (ℕ × Bytes)} :
      v.address ≠ 0 → StoredValues values stored l → StoredValues (v :: values) (v :: stored) l
  | new {referent : Bytes} {address : ℕ} {values stored : List (ValueRef Bytes)}
      {l : List (ℕ × Bytes)} : StoredValues values stored l →
      StoredValues (⟨referent, 0⟩ :: values) (⟨referent, address⟩ :: stored) ((address, referent) :: l)

namespace NodeRef

variable {α : Type} (ext : Externals α)

mutual

/-- A subtree, as it is once it has been stored, and the records written for it.  A node that
has an address stays what it is, with everything below it; any other is written once, after
what it refers to. -/
inductive StoredAs : NodeRef α Bytes → NodeRef α Bytes → List (ℕ × Bytes) → Prop
  | old {node : NodeRef α Bytes} : node.address ≠ 0 → StoredAs node node []
  | leaf {address : ℕ} {keys : List α} {values stored : List (ValueRef Bytes)}
      {l : List (ℕ × Bytes)} : StoredValues values stored l →
      StoredAs (.leaf 0 keys values) (.leaf address keys stored)
        (l ++ [(address, ext.dumps (payload (.leaf address keys stored)))])
  | internal {address : ℕ} {keys : List α} {children stored : List (NodeRef α Bytes)}
      {l : List (ℕ × Bytes)} : StoredAllAs children stored l →
      StoredAs (.internal 0 keys children) (.internal address keys stored)
        (l ++ [(address, ext.dumps (payload (.internal address keys stored)))])

/-- `StoredAs` for the children of a node. -/
inductive StoredAllAs : List (NodeRef α Bytes) → List (NodeRef α Bytes) → List (ℕ × Bytes) → Prop
  | nil : StoredAllAs [] [] []
  | cons {child child' : NodeRef α Bytes} {children children' : List (NodeRef α Bytes)}
      {l l' : List (ℕ × Bytes)} : StoredAs child child' l → StoredAllAs children children' l' →
      StoredAllAs (child :: children) (child' :: children') (l ++ l')

end

/-- Storing `x` is a series of writes, described by `stored` unless it raises. -/
def Writes {γ : Type} (stored : γ → γ → List (ℕ × Bytes) → Prop) (x : γ) (d : Disk)
    (r : StoreResult γ) : Prop :=
  ∃ l, Recording ext.crc32 d l r.disk ∧ (r.raised = none → stored x r.ref l)

theorem storeValues_records (values : List (ValueRef Bytes)) {d : Disk}
    (hd : superblockSize ≤ d.live.size) :
    Writes ext StoredValues values d (storeValues ext.crc32 values d) := by
  induction values generalizing d with
  | nil => exact ⟨[], .nil d, fun _ => .nil⟩
  | cons v values ih =>
    unfold storeValues storeValue
    by_cases hzero : v.address = 0
    · obtain ⟨referent, address⟩ := v
      obtain rfl : address = 0 := hzero
      simp only [if_true]
      rcases write_spec ext.crc32 referent d hd with ⟨d', hrun, happ, -⟩ | ⟨e, hrun⟩
      · obtain ⟨l, hl, hstored⟩ := ih (hd.trans happ.sameBelow.le_right)
        simp only [hrun]
        exact ⟨_, .cons hrun hl, fun h => .new (hstored h)⟩
      · simp only [hrun]
        exact ⟨[], .nil d, by simp⟩
    · obtain ⟨l, hl, hstored⟩ := ih hd
      simp only [if_neg hzero]
      exact ⟨l, hl, fun h => .old hzero (hstored h)⟩

/-- The end of `store` adds the record of the node to those of its parts. -/
theorem storeSelf_records (node : NodeRef α Bytes) (raised : Option PyError) {d d' : Disk}
    {l : List (ℕ × Bytes)} (hd : superblockSize ≤ d.live.size) (hl : Recording ext.crc32 d l d') :
    ∃ l', Recording ext.crc32 d l' (storeSelf ext node raised d').disk ∧
      ((storeSelf ext node raised d').raised = none → raised = none ∧
        ∃ address, l' = l ++ [(address, ext.dumps node.payload)] ∧
          (storeSelf ext node raised d').ref = node.withAddress address) := by
  have hd' := hd.trans (hl.records hd).1.sameBelow.le_right
  unfold storeSelf
  cases raised with
  | some e => exact ⟨l, hl, by simp⟩
  | none =>
    rcases write_spec ext.crc32 (ext.dumps node.payload) d' hd' with ⟨d'', hrun, -⟩ | ⟨e, hrun⟩
    · simp only [hrun]
      exact ⟨_, hl.append (.single hrun), fun _ => ⟨trivial, _, rfl, rfl⟩⟩
    · simp only [hrun]
      exact ⟨l, hl, by simp⟩

mutual

/-- `store` writes the new nodes and values of a tree, each once. -/
theorem store_records : ∀ (node : NodeRef α Bytes) {d : Disk}, superblockSize ≤ d.live.size →
    Writes ext (StoredAs ext) node d (store ext node d)
  | .leaf address keys values, d, hd => by
    by_cases hzero : address = 0
    · subst hzero
      obtain ⟨l, hl, hparts⟩ := storeValues_records ext values hd
      obtain ⟨l', hl', hself⟩ := storeSelf_records ext
        (.leaf 0 keys (storeValues ext.crc32 values d).ref) (storeValues ext.crc32 values d).raised
        hd hl
      rw [store, if_pos rfl]
      refine ⟨l', hl', fun h => ?_⟩
      obtain ⟨hnone, a, rfl, ha⟩ := hself h
      simp only [ha]
      exact .leaf (hparts hnone)
    · rw [store, if_neg hzero]
      exact ⟨[], .nil d, fun _ => .old hzero⟩
  | .internal address keys children, d, hd => by
    by_cases hzero : address = 0
    · subst hzero
      obtain ⟨l, hl, hparts⟩ := storeAll_records children hd
      obtain ⟨l', hl', hself⟩ := storeSelf_records ext
        (.internal 0 keys (storeAll ext children d).ref) (storeAll ext children d).raised hd hl
      rw [store, if_pos rfl]
      refine ⟨l', hl', fun h => ?_⟩
      obtain ⟨hnone, a, rfl, ha⟩ := hself h
      simp only [ha]
      exact .internal (hparts hnone)
    · rw [store, if_neg hzero]
      exact ⟨[], .nil d, fun _ => .old hzero⟩

theorem storeAll_records : ∀ (children : List (NodeRef α Bytes)) {d : Disk},
    superblockSize ≤ d.live.size →
    Writes ext (StoredAllAs ext) children d (storeAll ext children d)
  | [], d, _ => by
    rw [storeAll]
    exact ⟨[], .nil d, fun _ => .nil⟩
  | child :: children, d, hd => by
    obtain ⟨l, hl, hfirst⟩ := store_records child hd
    rw [storeAll]
    cases hraised : (store ext child d).raised with
    | some e => exact ⟨l, hl, by simp⟩
    | none =>
      obtain ⟨l', hl', hrest⟩ :=
        storeAll_records children (hd.trans (hl.records hd).1.sameBelow.le_right)
      exact ⟨l ++ l', hl.append hl', fun h => .cons (hfirst hraised) (hrest h)⟩

end

end NodeRef

/-! ## What a commit writes -/

/-- `StoredAs` for the root of a tree. -/
inductive StoredRoot {α : Type} (ext : Externals α) :
    Option (NodeRef α Bytes) → Option (NodeRef α Bytes) → List (ℕ × Bytes) → Prop
  | empty : StoredRoot ext none none []
  | root {node stored : NodeRef α Bytes} {l : List (ℕ × Bytes)} : node.StoredAs ext stored l →
      StoredRoot ext (some node) (some stored) l

namespace Database

variable {α : Type} {ext : Externals α} {db db' : Database α}

theorem storeTree_records (ext : Externals α) (hd : superblockSize ≤ db.disk.live.size) :
    ∃ l, Recording ext.crc32 db.disk l (resultState (storeTree ext db)).disk ∧
      ∀ stored, storeTree ext db = .ok () stored →
        StoredRoot ext db.tree.treeRef stored.tree.treeRef l ∧ stored.tree.count = db.tree.count := by
  unfold storeTree
  cases hroot : db.tree.treeRef with
  | none =>
    refine ⟨[], .nil _, ?_⟩
    rintro stored ⟨⟩
    rw [hroot]
    exact ⟨.empty, rfl⟩
  | some root =>
    obtain ⟨l, hl, hstored⟩ := root.store_records ext hd
    cases hraised : (root.store ext db.disk).raised with
    | none =>
      simp only [hraised]
      refine ⟨l, hl, ?_⟩
      rintro stored ⟨⟩
      exact ⟨.root (hstored hraised), rfl⟩
    | some e =>
      simp only [hraised]
      exact ⟨l, hl, by simp⟩

theorem cached_storeTree (ext : Externals α) (db : Database α) :
    (resultState (storeTree ext db)).cached = db.cached := by
  unfold storeTree
  cases db.tree.treeRef with
  | none => rfl
  | some root =>
    dsimp only
    cases (root.store ext db.disk).raised with
    | none => rfl
    | some e => rfl

/-- A commit appends records and then overwrites at most the slot that its meta block is not
in, whether it returns or raises. -/
theorem commit_records (ext : Externals α) (hd : superblockSize ≤ db.disk.live.size) :
    ∃ l d, Recording ext.crc32 db.disk l d ∧
      SameButSlot (1 - db.cached.slot) d.live (resultState (commit ext db)).disk.live := by
  obtain ⟨l, hl, -⟩ := storeTree_records ext hd
  have hsize := hd.trans (hl.records hd).1.sameBelow.le_right
  cases hstore : storeTree ext db with
  | error e stored =>
    rw [hstore] at hl hsize
    rw [commit, run_bind, hstore]
    exact ⟨l, _, hl, hsize, rfl, fun _ _ => rfl⟩
  | ok u stored =>
    have hcached := cached_storeTree ext db
    rw [hstore] at hl hsize hcached
    have hrun : commit ext db =
        (commitRootAddress ext stored.rootAddress stored.tree.count >>= fun _ => refresh ext)
          stored := by
      rw [commit, run_bind, hstore]
      rfl
    refine ⟨l, _, hl, ?_⟩
    rw [hrun, run_bind, commitRootAddress_eq]
    cases hblock : metaBlock ext.crc32 (stored.nextMeta stored.rootAddress stored.tree.count) with
    | error e => exact ⟨hsize, by simp, fun _ _ => by simp⟩
    | ok block =>
      obtain ⟨-, -, -, -, hlen⟩ := metaBlock_ok hblock
      simp only [disk_refresh]
      simp only [Disk.live_flush, Disk.live_write, ← hcached]
      exact sameButSlot_write (by omega) hsize hlen.le

/-- A file made of whole records stays one, whether a commit returns or raises. -/
theorem commit_whole (h : Whole ext.crc32 db.disk.live) :
    Whole ext.crc32 (resultState (commit ext db)).disk.live := by
  obtain ⟨l, d, hl, hsame⟩ := commit_records ext h.size_ge
  exact (h.recording hl).congr (hsame.sameRecords (by omega)) hsame.size_eq

/-- What a commit that returns has done, step by step. -/
theorem commit_ok (hrun : commit ext db = .ok () db') :
    ∃ stored block, storeTree ext db = .ok () stored ∧
      metaBlock ext.crc32 (stored.nextMeta stored.rootAddress stored.tree.count) = .ok block ∧
      db'.disk.live = stored.disk.live.write ((1 - db.cached.slot) * metaSlotSize) block := by
  cases hstore : storeTree ext db with
  | error e stored =>
    rw [commit, run_bind, hstore] at hrun
    cases hrun
  | ok u stored =>
    have hcached := cached_storeTree ext db
    rw [hstore] at hcached
    have hcommit : commit ext db =
        (commitRootAddress ext stored.rootAddress stored.tree.count >>= fun _ => refresh ext)
          stored := by
      rw [commit, run_bind, hstore]
      rfl
    rw [hcommit, run_bind, commitRootAddress_eq] at hrun
    cases hblock : metaBlock ext.crc32 (stored.nextMeta stored.rootAddress stored.tree.count) with
    | error e => simp [hblock] at hrun
    | ok block =>
      simp only [hblock] at hrun
      refine ⟨stored, block, rfl, hblock, ?_⟩
      rw [disk_eq_of_refresh hrun, ← hcached]
      simp

variable [LinearOrder α] {order : ℕ} {c s : α → Option Bytes}

/-- A commit that returns leaves in the handle the tree it has stored, and behind the old
end of the file the records it has written for it. -/
theorem commit_stored (hc : Committed ext order db.disk.live db.cached c)
    (hs : Holding ext order db.disk.live db.tree s) (hrun : commit ext db = .ok () db') :
    ∃ l, Storage.Records ext.crc32 db'.disk.live db.disk.live.size l db'.disk.live.size ∧
      StoredRoot ext db.tree.treeRef db'.tree.treeRef l ∧ db'.tree.count = db.tree.count := by
  have hpub := commit_published hc hs hrun
  obtain ⟨stored, block, hstore, hblock, hlive⟩ := commit_ok hrun
  obtain ⟨l, hl, hstored⟩ := storeTree_records ext hc.size_ge
  obtain ⟨hroot, hcount⟩ := hstored stored hstore
  rw [hstore] at hl
  obtain ⟨happ, hrecords⟩ := hl.records hc.size_ge
  obtain ⟨-, -, -, -, hlen⟩ := metaBlock_ok hblock
  have hslot : 1 - db.cached.slot < 2 := by omega
  have hsize := hc.size_ge.trans happ.sameBelow.le_right
  have hsame : SameButSlot (1 - db.cached.slot) stored.disk.live db'.disk.live := by
    rw [hlive]
    exact sameButSlot_write hslot hsize hlen.le
  -- the meta block that is adopted now is the one in the slot just written
  have hmeta : db'.cached = stored.nextMeta stored.rootAddress stored.tree.count := by
    have hown := hpub.committed.adopted.own
    have hnew : readSlot ext.crc32 db'.disk.live (1 - db.cached.slot) = _ :=
      readSlot_of_at hblock (by rw [hlive]; exact File.at_write _ _ _)
    have hcached := cached_storeTree ext db
    rw [hstore] at hcached
    rw [hpub.succeeds.slot, hnew] at hown
    have heq := Option.some.inj (Except.ok.inj hown)
    rw [← heq, nextMeta, show stored.cached = db.cached from hcached]
  have hat : AtMeta ext order stored.disk.live stored.disk.live.size db'.cached stored.tree := by
    obtain ⟨d, t, -, hholding, ⟨hstore', honFile⟩ | ⟨-, e, hstore'⟩⟩ := storeTree_spec hc.size_ge hs
    · obtain rfl : stored = _ := by simpa [hstore] using hstore'
      rw [hmeta]
      exact ⟨honFile, rfl, rfl, hholding.holds.order_eq⟩
    · rw [hstore] at hstore'
      cases hstore'
  have htree : db'.tree = stored.tree :=
    hpub.atMeta.unique (hat.mono (hsame.sameRecords hslot) le_rfl hsame.size_eq.ge)
  refine ⟨l, ?_, by rw [htree]; exact hroot, by rw [htree]; exact hcount⟩
  rw [hsame.size_eq]
  exact hrecords.congr hc.size_ge (hsame.sameRecords hslot)

end Database
