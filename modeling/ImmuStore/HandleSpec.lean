/-
# What the methods of a handle do

`Committed` says which map a file has committed: the meta block it adopts, and the
tree behind it.  `Holding` says which map the tree of a handle holds, some of it
perhaps not written yet.  Every method is specified by these two.
-/
import ImmuStore.Persist

open Storage

variable {α : Type} {ext : Externals α} {order : ℕ} {f g : File} {L L' : ℕ}
  {m m' : Meta} {t t' : BPlusTree α Bytes} {c s : α → Option Bytes}

/-- The meta block of a new file. -/
def Storage.initialMeta : Meta := ⟨0, 0, 0, superblockSize, 0⟩

/-! ## Opening the storage -/

namespace Storage

variable {crc32 : Bytes → ℕ}

/-- Recovery cuts off what lies beyond the adopted commit. -/
theorem ensureMeta_adopted {d : Disk} (h : Adopted crc32 d.live m)
    (hge : superblockSize ≤ m.dataLength) (hle : m.dataLength ≤ d.live.size) :
    ∃ d', ensureMeta crc32 d = .ok m d' ∧ d'.live.size = m.dataLength ∧
      (d' = d ∨ d' = (d.push (.truncate m.dataLength)).push .flush) := by
  simp only [ensureMeta, run_bind, run_get, if_neg (hge.trans hle).not_gt, recover, h.readBestMeta]
  split_ifs
  · exact ⟨_, rfl, by simp, .inr rfl⟩
  · exact ⟨_, rfl, by omega, .inl rfl⟩

/-- Both slots of the file hold the meta block of a new file. -/
def NewSlots (crc32 : Bytes → ℕ) (f : File) : Prop :=
  ∀ index < 2, readSlot crc32 f index = .ok (some { initialMeta with slot := index })

theorem NewSlots.adopted (h : NewSlots crc32 f) : Adopted crc32 f initialMeta :=
  ⟨by decide, h 0 (by decide),
    .inr ⟨{ initialMeta with slot := 1 }, h 1 (by decide), .inr ⟨rfl, rfl⟩⟩⟩

/-- The two blocks of a new file. -/
theorem newSlots_of_at {first second : Bytes} (hfirst : metaBlock crc32 initialMeta = .ok first)
    (hsecond : metaBlock crc32 { initialMeta with slot := 1 } = .ok second) (h0 : f.At 0 first)
    (h1 : f.At metaSlotSize second) : NewSlots crc32 f := by
  intro index hindex
  have hcases : index = 0 ∨ index = 1 := by omega
  rcases hcases with rfl | rfl
  · exact readSlot_of_at hfirst (by simpa using h0)
  · exact readSlot_of_at hsecond (by simpa using h1)

/-- A file that is too short is given its two meta blocks. -/
theorem ensureMeta_short (crc32 : Bytes → ℕ) (hf : f.size < superblockSize) :
    ∃ d, ensureMeta crc32 (.powerOn f) = .ok initialMeta d ∧ NewSlots crc32 d.live ∧
      d.Guarded superblockSize ∧ d.live.size = superblockSize := by
  obtain ⟨first, hfirst⟩ : ∃ block, metaBlock crc32 initialMeta = .ok block :=
    metaBlock_of_lt (by decide) (by decide) (by decide) (by decide)
  obtain ⟨second, hsecond⟩ : ∃ block, metaBlock crc32 { initialMeta with slot := 1 } = .ok block :=
    metaBlock_of_lt (by decide) (by decide) (by decide) (by decide)
  obtain ⟨-, -, -, -, hlen1⟩ := metaBlock_ok hfirst
  obtain ⟨-, -, -, -, hlen2⟩ := metaBlock_ok hsecond
  set d : Disk := ((((Disk.powerOn f).push (.write 0 first)).push
    (.write metaSlotSize second)).push (.truncate superblockSize)).push .flush with hd
  have hlive : d.live = ((f.write 0 first).write metaSlotSize second).truncate
      superblockSize := by
    simp [hd]
  have hsame : File.SameBelow superblockSize ((f.write 0 first).write metaSlotSize second)
      d.live := by
    rw [hlive]
    refine .truncate ?_ le_rfl
    rw [File.size_write, hlen2]
    exact Nat.le_max_right _ _
  have h0 : d.live.At 0 first := by
    refine hsame.at ?_ (by rw [hlen1]; decide)
    have hkeep : File.SameBelow metaSlotSize (f.write 0 first)
        ((f.write 0 first).write metaSlotSize second) :=
      .write (by rw [File.size_write, hlen1]; omega) le_rfl _
    exact hkeep.at (File.at_write _ _ _) (by rw [hlen1, Nat.zero_add])
  have h1 : d.live.At metaSlotSize second :=
    hsame.at (File.at_write _ _ _) (by rw [hlen2]; decide)
  have hsize : d.live.size = superblockSize := by rw [hlive, File.size_truncate]
  refine ⟨d, ?_, newSlots_of_at hfirst hsecond h0 h1, .flush (by rw [← Disk.live_flush, ← hd, hsize]),
    hsize⟩
  have hsmall : (Disk.powerOn f).live.size < superblockSize := hf
  simp only [initialMeta] at hfirst hsecond
  rw [ensureMeta, run_bind, run_get]
  simp only [if_pos hsmall]
  simp [initMeta, writeSlot, hfirst, hsecond, flush, hd, initialMeta]

/-- An empty file is given its two meta blocks. -/
theorem ensureMeta_new (crc32 : Bytes → ℕ) :
    ∃ d, ensureMeta crc32 (.powerOn .empty) = .ok initialMeta d ∧ NewSlots crc32 d.live ∧
      d.Guarded superblockSize ∧ d.live.size = superblockSize :=
  ensureMeta_short crc32 (by decide)

end Storage

/-! ## Files and trees -/

/-- `t` is the tree that the meta block `m` points at, all of it below `L`. -/
structure AtMeta (ext : Externals α) (order : ℕ) (f : File) (L : ℕ) (m : Meta)
    (t : BPlusTree α Bytes) : Prop where
  onFile : ∀ root ∈ t.treeRef, NodeRef.OnFile ext f L root
  root_eq : t.treeRef.elim 0 NodeRef.address = m.rootAddress
  count_eq : t.count = m.keyCount
  order_eq : t.order = order

section

variable (h : AtMeta ext order f L m t)
include h

theorem AtMeta.mono (hfg : SameRecords L f g) (hL : L ≤ L') (hsize : L' ≤ g.size) : AtMeta ext order g L' m t :=
  { h with onFile := fun root hroot => (h.onFile root hroot).mono hfg hL hsize }

/-- What a meta block points at is loaded from the file. -/
theorem AtMeta.loadRoot_eq :
    NodeRef.loadRoot ext f m.rootAddress = .ok t.treeRef := by
  rw [← h.root_eq]
  cases hroot : t.treeRef with
  | none => rfl
  | some root => exact (h.onFile root hroot).loadRoot_eq

/-- A meta block points at one tree. -/
theorem AtMeta.unique (h' : AtMeta ext order f L' m t') : t = t' := by
  obtain ⟨order1, root1, count1⟩ := t
  obtain ⟨order2, root2, count2⟩ := t'
  have hroot : root1 = root2 := Except.ok.inj (h.loadRoot_eq.symm.trans h'.loadRoot_eq)
  have hcount : count1 = count2 := h.count_eq.trans h'.count_eq.symm
  have horder : order1 = order2 := h.order_eq.trans h'.order_eq.symm
  rw [hroot, hcount, horder]

end

/-- The meta block of a new file points at the empty tree. -/
theorem atMeta_empty (ext : Externals α) (order : ℕ) (f : File) (L : ℕ) :
    AtMeta ext order f L initialMeta (.empty order) :=
  ⟨by simp [BPlusTree.empty], rfl, rfl, rfl⟩

variable [LinearOrder α]

/-- The file has committed the meta block `m`, and with it the map `c`. -/
structure Committed (ext : Externals α) (order : ℕ) (f : File) (m : Meta)
    (c : α → Option Bytes) : Prop where
  adopted : Adopted ext.crc32 f m
  ge : superblockSize ≤ m.dataLength
  le : m.dataLength ≤ f.size
  tree : ∃ t, AtMeta ext order f m.dataLength m t ∧ BPlusTree.Holds order t c

/-- The tree holds the map `s`; what is not new in it is on file. -/
structure Holding (ext : Externals α) (order : ℕ) (f : File) (t : BPlusTree α Bytes)
    (s : α → Option Bytes) : Prop where
  holds : BPlusTree.Holds order t s
  staged : ∀ root ∈ t.treeRef, NodeRef.Staged ext f f.size root

/-- A meta block without a root has committed the empty map. -/
theorem Committed.of_empty (hadopted : Adopted ext.crc32 f m) (horder : 3 ≤ order)
    (hroot : m.rootAddress = 0) (hcount : m.keyCount = 0) (hge : superblockSize ≤ m.dataLength)
    (hle : m.dataLength ≤ f.size) : Committed ext order f m fun _ => none :=
  ⟨hadopted, hge, hle, .empty order, ⟨by simp [BPlusTree.empty], hroot.symm, hcount.symm, rfl⟩,
    .empty horder⟩

section

variable (h : Committed ext order f m c)
include h

/-- The commit lasts as long as the bytes below its length do. -/
theorem Committed.sameBelow (hfg : File.SameBelow m.dataLength f g) : Committed ext order g m c := by
  obtain ⟨t, hat, hholds⟩ := h.tree
  exact ⟨h.adopted.sameBelow hfg h.ge, h.ge, hfg.le_right, t,
    hat.mono (.of_sameBelow hfg) le_rfl hfg.le_right, hholds⟩

theorem Committed.size_ge : superblockSize ≤ f.size := h.ge.trans h.le

theorem Committed.order_ge : 3 ≤ order := by
  obtain ⟨t, hat, hholds⟩ := h.tree
  rw [← hat.order_eq]
  exact hholds.ok.order_ge

end

/-- The tree of the adopted meta block holds the committed map. -/
theorem AtMeta.holding (h : AtMeta ext order f L m t) (hL : L ≤ f.size)
    (hc : Committed ext order f m c) : Holding ext order f t c := by
  obtain ⟨t', hat, hholds⟩ := hc.tree
  obtain rfl := h.unique hat
  refine ⟨hholds, fun root hroot => .stored ?_⟩
  exact (h.onFile root hroot).mono ⟨hL, fun _ _ _ => rfl⟩ hL le_rfl

/-- A file that has committed the empty map points at the empty tree. -/
theorem AtMeta.eq_empty (h : AtMeta ext order f L m t) (hc : Committed ext order f m fun _ => none) :
    t = .empty order := by
  obtain ⟨t', hat, hholds⟩ := hc.tree
  rw [h.unique hat]
  exact hholds.eq_empty

/-- A complete slot write commits the map of the tree it points at. -/
theorem Committed.publish (h : Committed ext order f m c) (hat : AtMeta ext order f f.size m' t)
    (hholds : BPlusTree.Holds order t s) (hsucc : m'.Succeeds m) (hlen : m'.dataLength = f.size)
    {block : Bytes} (hblock : metaBlock ext.crc32 m' = .ok block) (hfg : SameButSlot m'.slot f g)
    (hnew : g.At (m'.slot * metaSlotSize) block) : Committed ext order g m' s := by
  have hslot : m'.slot < 2 := by
    have := hsucc.slot
    omega
  refine ⟨h.adopted.succ hsucc hfg (readSlot_of_at hblock hnew), ?_, ?_, t, ?_, hholds⟩
  · rw [hlen]
    exact h.size_ge
  · rw [hlen, hfg.size_eq]
  · rw [hlen]
    exact hat.mono (hfg.sameRecords hslot) le_rfl hfg.size_eq.ge

/-- A slot write that leaves the slot invalid or as it was does not touch the commit. -/
theorem Committed.torn (h : Committed ext order f m c) (hfg : SameButSlot (1 - m.slot) f g)
    (htorn : readSlot ext.crc32 g (1 - m.slot) = .ok none ∨
      readSlot ext.crc32 g (1 - m.slot) = readSlot ext.crc32 f (1 - m.slot)) :
    Committed ext order g m c := by
  obtain ⟨t, hat, hholds⟩ := h.tree
  have hrecords := hfg.sameRecords (by omega)
  have hle : m.dataLength ≤ g.size := h.le.trans hfg.size_eq.ge
  refine ⟨h.adopted.torn rfl hfg htorn, h.ge, hle, t, ?_, hholds⟩
  exact hat.mono ⟨hle, fun i hi hi' => hrecords.byte_eq i hi (hi'.trans_le h.le)⟩ le_rfl hle

/-! ## The tree of a handle -/

section

variable (h : Holding ext order f t s)
include h

/-- A handle keeps its tree as long as the records of the file stay what they are. -/
theorem Holding.mono (hfg : SameRecords f.size f g) :
    Holding ext order g t s :=
  ⟨h.holds, fun root hroot => (h.staged root hroot).mono hfg hfg.le_right le_rfl⟩

theorem Holding.set (key : α) (value : Bytes) :
    ∃ t', BPlusTree.set key value t = .ok () t' ∧
      Holding ext order f t' (Function.update s key (some value)) := by
  obtain ⟨t', hrun, hholds⟩ := h.holds.set key value
  exact ⟨t', hrun, hholds,
    BPlusTree.set_hereditary (NodeRef.hereditary_staged ext f f.size) (.inl rfl) h.staged hrun⟩

theorem Holding.delete {key : α} (hkey : s key ≠ none) :
    ∃ t', BPlusTree.delete key t = .ok () t' ∧
      Holding ext order f t' (Function.update s key none) := by
  obtain ⟨t', hrun, hholds⟩ := h.holds.delete hkey
  exact ⟨t', hrun, hholds,
    BPlusTree.delete_hereditary (NodeRef.hereditary_staged ext f f.size) h.staged hrun⟩

end

namespace Database

variable {db : Database α}
variable {e : PyError} {db' : Database α} {d : Disk}

omit [LinearOrder α] in
theorem onTree_ok {β : Type} {x : Py (BPlusTree α Bytes) β} {b : β}
    (h : x db.tree = .ok b t) : onTree x db = .ok b { db with tree := t } := by
  rw [onTree, h]

omit [LinearOrder α] in
theorem onTree_error {β : Type} {x : Py (BPlusTree α Bytes) β}
    (h : x db.tree = .error e t) : onTree x db = .error e { db with tree := t } := by
  rw [onTree, h]

/-! ## Refreshing -/

/-- `_refresh_tree_ref` loads the tree of the adopted meta block. -/
theorem refresh_spec (db : Database α) (hc : Committed ext order db.disk.live m c) (horder : db.tree.order = order) :
    ∃ t, refresh ext db = .ok () { db with cached := m, tree := t } ∧
      AtMeta ext order db.disk.live db.disk.live.size m t := by
  obtain ⟨t, hat, -⟩ := hc.tree
  have hlive := hat.mono ⟨hc.le, fun _ _ _ => rfl⟩ hc.le le_rfl
  refine ⟨⟨db.tree.order, t.treeRef, m.keyCount⟩, ?_, hlive.onFile, hlive.root_eq, rfl, horder⟩
  unfold refresh
  rw [hc.adopted.readBestMeta]
  simp only [hat.loadRoot_eq]

omit [LinearOrder α] in
theorem disk_refresh (ext : Externals α) (db : Database α) :
    (resultState (refresh ext db)).disk = db.disk := by
  unfold refresh
  cases readBestMeta ext.crc32 db.disk.live with
  | error e => rfl
  | ok m =>
    dsimp only
    cases NodeRef.loadRoot ext db.disk.live m.rootAddress with
    | error e => rfl
    | ok root => rfl

omit [LinearOrder α] in
theorem disk_eq_of_refresh (h : refresh ext db = .ok () db') : db'.disk = db.disk := by
  have hdisk := disk_refresh ext db
  rwa [h] at hdisk

/-- A handle on a file that has committed `m` and `c`, with `s` staged: if it holds the
lock its cache is current and its tree is the staged one, otherwise nothing is
staged. -/
structure Attached (ext : Externals α) (order : ℕ) (db : Database α) (m : Meta)
    (c s : α → Option Bytes) : Prop where
  committed : Committed ext order db.disk.live m c
  order_eq : db.tree.order = order
  locked : db.locked = true → db.cached = m ∧ Holding ext order db.disk.live db.tree s
  unlocked : db.locked = false → s = c

/-- A handle without the lock has staged nothing. -/
theorem Attached.of_unlocked (hc : Committed ext order db.disk.live m c)
    (horder : db.tree.order = order) (hl : db.locked = false) : Attached ext order db m c c :=
  ⟨hc, horder, fun hl' => (by simp [hl] at hl'), fun _ => rfl⟩

/-- A method that writes begins with a current tree, and the lock. -/
theorem Attached.lockFresh (h : Attached ext order db m c s) :
    ∃ t, lockFresh ext db = .ok () { db with cached := m, locked := true, tree := t } ∧
      Holding ext order db.disk.live t s := by
  cases hl : db.locked with
  | true =>
    obtain ⟨hcached, hholding⟩ := h.locked hl
    refine ⟨db.tree, ?_, hholding⟩
    simp [Database.lockFresh, lock, hl, ← hcached]
  | false =>
    obtain ⟨t, hrun, hat⟩ := refresh_spec { db with locked := true } h.committed h.order_eq
    refine ⟨t, ?_, ?_⟩
    · simp [Database.lockFresh, lock, hl, hrun]
    · rw [h.unlocked hl]
      exact hat.holding le_rfl h.committed

/-- A method that reads begins with a current tree. -/
theorem Attached.refreshUnlocked (h : Attached ext order db m c s) :
    ∃ db', refreshUnlocked ext db = .ok () db' ∧ Holding ext order db.disk.live db'.tree s ∧
      ((db.locked = true ∧ db' = db) ∨
        db.locked = false ∧ AtMeta ext order db.disk.live db.disk.live.size m db'.tree ∧
          db' = { db with cached := m, tree := db'.tree }) := by
  cases hl : db.locked with
  | true =>
    refine ⟨db, ?_, (h.locked hl).2, .inl ⟨rfl, rfl⟩⟩
    simp [Database.refreshUnlocked, hl]
  | false =>
    obtain ⟨t, hrun, hat⟩ := refresh_spec db h.committed h.order_eq
    refine ⟨{ db with cached := m, tree := t }, ?_, ?_, .inr ⟨rfl, hat, by rw [hl]⟩⟩
    · simp [Database.refreshUnlocked, hl, hrun]
    · rw [h.unlocked hl]
      exact hat.holding le_rfl h.committed

/-! ## Opening -/

section

variable (hc : Committed ext order d.live m c)
include hc

/-- Recovery cuts off what lies beyond the commit. -/
theorem ensureMeta_spec :
    ∃ d', ensureMeta ext.crc32 d = .ok m d' ∧ d'.live.size = m.dataLength ∧
      (d' = d ∨ d' = (d.push (.truncate m.dataLength)).push .flush) :=
  ensureMeta_adopted hc.adopted hc.ge hc.le

/-- Opening a file that has committed something cuts off what lies beyond it. -/
theorem connect_spec :
    ∃ d' t, connect ext (blank order d) = .ok () ⟨d', m, false, t⟩ ∧
      Committed ext order d'.live m c ∧ AtMeta ext order d'.live d'.live.size m t ∧
      (d' = d ∨ d' = (d.push (.truncate m.dataLength)).push .flush) := by
  have horder : ¬ order < 3 := by
    have := hc.order_ge
    omega
  obtain ⟨d', hensure, -, hcases⟩ := ensureMeta_spec hc
  have hc' : Committed ext order d'.live m c := by
    rcases hcases with rfl | rfl
    · exact hc
    · simp only [Disk.live_flush, Disk.live_truncate]
      exact hc.sameBelow (.truncate hc.le le_rfl)
  obtain ⟨t, hrefresh, hat⟩ := refresh_spec ⟨d', m, false, ⟨order, none, 0⟩⟩ hc' rfl
  refine ⟨d', t, ?_, hc', hat, hcases⟩
  simp [connect, onDisk, blank, hensure, horder, hrefresh]

/-- The same for an opening that has returned; the records of the commit are where they were. -/
theorem connect_ok (hrun : connect ext (blank order d) = .ok () db) :
    ∃ d' t, db = ⟨d', m, false, t⟩ ∧ Committed ext order d'.live m c ∧
      AtMeta ext order d'.live d'.live.size m t ∧ File.SameBelow m.dataLength d.live d'.live := by
  obtain ⟨d', t, hrun', hc', hat, hcases⟩ := connect_spec hc
  obtain rfl : db = _ := by simpa [hrun] using hrun'
  refine ⟨d', t, rfl, hc', hat, ?_⟩
  rcases hcases with rfl | rfl
  · exact .refl hc.le
  · rw [Disk.live_flush, Disk.live_truncate]
    exact .truncate hc.le le_rfl

/-- A file that has been opened ends with its commit. -/
theorem size_of_connect (h : connect ext (blank order d) = .ok () db) : db.disk.live.size = m.dataLength := by
  obtain ⟨d', hensure, hsize, -⟩ := ensureMeta_spec hc
  have horder : ¬ order < 3 := by
    have := hc.order_ge
    omega
  simp only [connect, onDisk, blank, run_bind, hensure, run_modify, run_get, horder, if_false] at h
  rw [disk_eq_of_refresh h]
  exact hsize

end

omit [LinearOrder α] in
/-- A tree is opened with an order of at least three. -/
theorem order_ge_of_connect (h : connect ext (blank order d) = .ok () db) : 3 ≤ order := by
  by_contra horder
  have hlt : order < 3 := by omega
  cases hensure : ensureMeta ext.crc32 d with
  | error e d' => simp [connect, onDisk, blank, hensure] at h
  | ok m d' => simp [connect, onDisk, blank, hensure, hlt] at h

/-- Opening a file that is too short makes a new one, which has committed the empty map. -/
theorem connect_short (ext : Externals α) (horder : 3 ≤ order) (hf : f.size < superblockSize) :
    ∃ d t, connect ext (blank order (.powerOn f)) = .ok () ⟨d, initialMeta, false, t⟩ ∧
      Committed ext order d.live initialMeta (fun _ => none) ∧
      AtMeta ext order d.live d.live.size initialMeta t ∧
      d.Guarded superblockSize ∧ d.live.size = superblockSize := by
  obtain ⟨d, hensure, hslots, hguarded, hsize⟩ := ensureMeta_short ext.crc32 hf
  have hc : Committed ext order d.live initialMeta fun _ => none :=
    ⟨hslots.adopted, le_rfl, hsize.ge, .empty order, atMeta_empty _ _ _ _, .empty horder⟩
  obtain ⟨t, hrefresh, hat⟩ :=
    refresh_spec ⟨d, initialMeta, false, ⟨order, none, 0⟩⟩ hc rfl
  refine ⟨d, t, ?_, hc, hat, hguarded, hsize⟩
  have hnot : ¬ order < 3 := by omega
  simp [connect, onDisk, blank, hensure, hnot, hrefresh]

/-- Opening an empty file makes a new one. -/
theorem connect_new (ext : Externals α) (horder : 3 ≤ order) :
    ∃ d t, connect ext (blank order (.powerOn .empty)) = .ok () ⟨d, initialMeta, false, t⟩ ∧
      Committed ext order d.live initialMeta (fun _ => none) ∧
      AtMeta ext order d.live d.live.size initialMeta t ∧
      d.Guarded superblockSize ∧ d.live.size = superblockSize :=
  connect_short ext horder (by decide)

/-! ## Reading and staging -/

section

variable (h : Attached ext order db m c s)
include h

/-- `set` stages a binding. -/
theorem Attached.set (key : α) (value : Bytes) :
    ∃ t, Database.set ext key value db = .ok () { db with cached := m, locked := true, tree := t } ∧
      Holding ext order db.disk.live t (Function.update s key (some value)) := by
  obtain ⟨t, hrun, hholding⟩ := h.lockFresh
  obtain ⟨t', hset, hholding'⟩ := hholding.set key value
  refine ⟨t', ?_, hholding'⟩
  rw [Database.set, run_bind, hrun]
  exact onTree_ok hset

/-- `delete` stages the removal of a bound key. -/
theorem Attached.delete {key : α} (hkey : s key ≠ none) :
    ∃ t, Database.delete ext key db = .ok () { db with cached := m, locked := true, tree := t } ∧
      Holding ext order db.disk.live t (Function.update s key none) := by
  obtain ⟨t, hrun, hholding⟩ := h.lockFresh
  obtain ⟨t', hdelete, hholding'⟩ := hholding.delete hkey
  refine ⟨t', ?_, hholding'⟩
  rw [Database.delete, run_bind, hrun]
  exact onTree_ok hdelete

/-- `delete` of an absent key raises `KeyError`; the lock stays taken. -/
theorem Attached.delete_absent {key : α} (hkey : s key = none) :
    ∃ t, Database.delete ext key db =
        .error .keyError { db with cached := m, locked := true, tree := t } ∧
      Holding ext order db.disk.live t s := by
  obtain ⟨t, hrun, hholding⟩ := h.lockFresh
  refine ⟨t, ?_, hholding⟩
  rw [Database.delete, run_bind, hrun]
  exact onTree_error (hholding.holds.delete_absent hkey)

/-- A call of `set` or `delete` stages its effect on the map, whether it returns or
raises. -/
theorem Attached.update (u : Update α Bytes) :
    ∃ t, Holding ext order db.disk.live t (u.applyTo s) ∧
      (Database.update ext u db = .ok () { db with cached := m, locked := true, tree := t } ∨
        u.applyTo s = s ∧ Database.update ext u db =
          .error .keyError { db with cached := m, locked := true, tree := t }) := by
  cases u with
  | set key value =>
    obtain ⟨t, hrun, hholding⟩ := h.set key value
    exact ⟨t, hholding, .inl hrun⟩
  | delete key =>
    by_cases hkey : s key = none
    · obtain ⟨t, hrun, hholding⟩ := h.delete_absent hkey
      have hsame : Update.applyTo s (.delete key) = s := Function.update_eq_self_iff.mpr hkey.symm
      rw [hsame]
      exact ⟨t, hholding, .inr ⟨rfl, hrun⟩⟩
    · obtain ⟨t, hrun, hholding⟩ := h.delete hkey
      exact ⟨t, hholding, .inl hrun⟩

/-- `get` reads the staged map. -/
theorem Attached.get (key : α) :
    ∃ db', Database.refreshUnlocked ext db = .ok () db' ∧
      Database.get ext key db = match s key with
        | some value => .ok value db'
        | none => .error .keyError db' := by
  obtain ⟨db', hrun, hholding, -⟩ := h.refreshUnlocked
  refine ⟨db', hrun, ?_⟩
  have hget := hholding.holds.get_eq key
  rw [Database.get, run_bind, hrun]
  cases hkey : s key with
  | some value =>
    rw [hkey] at hget
    exact onTree_ok (by rw [hget])
  | none =>
    rw [hkey] at hget
    exact onTree_error (by rw [hget])

/-- `get` leaves a handle that holds the lock as it is, and reloads the tree of any
other. -/
theorem Attached.resultState_get (key : α) :
    (db.locked = true ∧ resultState (Database.get ext key db) = db) ∨
      (db.locked = false ∧ ∃ t, AtMeta ext order db.disk.live m.dataLength m t ∧
        resultState (Database.get ext key db) = { db with cached := m, tree := t }) := by
  obtain ⟨db', hrefresh, hget⟩ := h.get key
  have hresult : resultState (Database.get ext key db) = db' := by
    rw [hget]
    cases s key <;> rfl
  obtain ⟨db'', hrefresh', -, hcases⟩ := h.refreshUnlocked
  obtain rfl : db' = db'' := by simpa [hrefresh] using hrefresh'
  rw [hresult]
  rcases hcases with ⟨hl, rfl⟩ | ⟨hl, hat, hdb⟩
  · exact .inl ⟨hl, rfl⟩
  · obtain ⟨t, hat', -⟩ := h.committed.tree
    exact .inr ⟨hl, db'.tree, hat.unique hat' ▸ hat', hdb⟩

/-- `audit` reports no errors. -/
theorem Attached.audit :
    ∃ report db', Database.audit ext db = .ok report db' ∧ report.errors = [] := by
  obtain ⟨db', hrun, hholding, -⟩ := h.refreshUnlocked
  obtain ⟨report, haudit, herrors, -⟩ := hholding.holds.ok.audit_eq
  refine ⟨report, db', ?_, herrors⟩
  rw [Database.audit, run_bind, hrun]
  exact onTree_ok (by rw [haudit])

end

/-! ## Committing -/

/-- `store` of the root writes what is new; if it raises, the root is still
unwritten. -/
theorem storeTree_spec (hd : superblockSize ≤ db.disk.live.size)
    (h : Holding ext order db.disk.live db.tree s) :
    ∃ d t, db.disk.Appends d ∧ Holding ext order d.live t s ∧
      ((storeTree ext db = .ok () { db with disk := d, tree := t } ∧
          ∀ root ∈ t.treeRef, NodeRef.OnFile ext d.live d.live.size root) ∨
        ((∃ root ∈ db.tree.treeRef, root.address = 0) ∧
          ∃ e, storeTree ext db = .error e { db with disk := d, tree := t })) := by
  unfold storeTree
  cases hroot : db.tree.treeRef with
  | none => exact ⟨db.disk, db.tree, .refl, h, .inl ⟨rfl, by simp [hroot]⟩⟩
  | some root =>
    have hstored := NodeRef.store_spec ext hd (h.staged root hroot)
    refine ⟨(root.store ext db.disk).disk,
      { db.tree with treeRef := some (root.store ext db.disk).ref }, hstored.appends,
      ⟨h.holds.congr hroot hstored.content_eq.symm, ?_⟩, ?_⟩
    · rintro _ ⟨⟩
      exact hstored.staged
    · cases hraised : (root.store ext db.disk).raised with
      | none =>
        refine .inl ⟨by simp only [hraised], ?_⟩
        rintro _ ⟨⟩
        exact hstored.onFile hraised
      | some e =>
        refine .inr ⟨⟨root, rfl, ?_⟩, e, by simp only [hraised]⟩
        by_contra hne
        rw [root.store_eq_self ext hne] at hraised
        cases hraised

omit [LinearOrder α] in
/-- `commit_root_address`: a flush, the other slot, a flush. -/
theorem commitRootAddress_eq (ext : Externals α) (rootAddress : ℕ) (keyCount : ℤ)
    (db : Database α) :
    commitRootAddress ext rootAddress keyCount db =
      match metaBlock ext.crc32 (db.nextMeta rootAddress keyCount) with
      | .error e => .error e { db with disk := db.disk.push .flush, locked := true }
      | .ok block => .ok () { db with
          disk := ((db.disk.push .flush).push
            (.write ((1 - db.cached.slot) * metaSlotSize) block)).push .flush
          cached := db.nextMeta rootAddress keyCount
          locked := false } := by
  have hnext : ({ db with disk := db.disk.push .flush, locked := true } : Database α).nextMeta
      rootAddress keyCount = db.nextMeta rootAddress keyCount := by
    simp [nextMeta]
  unfold commitRootAddress
  cases hblock : metaBlock ext.crc32 (db.nextMeta rootAddress keyCount) with
  | error e => simp [lock, onDisk, flush, writeSlot, hnext, hblock]
  | ok block =>
    have hslot : (db.nextMeta rootAddress keyCount).slot = 1 - db.cached.slot := rfl
    simp [lock, onDisk, flush, writeSlot, unlock, hnext, hslot, hblock]

omit [LinearOrder α] in
theorem storeTree_of_onFile (honFile : ∀ root ∈ db.tree.treeRef, NodeRef.OnFile ext f L root) :
    storeTree ext db = .ok () db := by
  obtain ⟨disk, cached, locked, order, treeRef, count⟩ := db
  cases treeRef with
  | none => rfl
  | some root =>
    simp [storeTree, root.store_eq_self ext (honFile root rfl).address_ne_zero]

omit [LinearOrder α] in
/-- A commit with nothing to store only writes a meta block. -/
theorem commit_of_onFile (honFile : ∀ root ∈ db.tree.treeRef, NodeRef.OnFile ext f L root) :
    commit ext db = match metaBlock ext.crc32 (db.nextMeta db.rootAddress db.tree.count) with
      | .error e => .error e { db with disk := db.disk.push .flush, locked := true }
      | .ok block => refresh ext { db with
          disk := ((db.disk.push .flush).push
            (.write ((1 - db.cached.slot) * metaSlotSize) block)).push .flush
          cached := db.nextMeta db.rootAddress db.tree.count
          locked := false } := by
  have hstore := storeTree_of_onFile honFile
  have hrun : commit ext db =
      (commitRootAddress ext db.rootAddress db.tree.count >>= fun _ => refresh ext) db := by
    rw [commit, run_bind, hstore]
    rfl
  rw [hrun, run_bind, commitRootAddress_eq]
  cases metaBlock ext.crc32 (db.nextMeta db.rootAddress db.tree.count) with
  | error e => rfl
  | ok block => rfl

/-- What a commit of a handle with a current cache may do: raise before everything is
written, raise before the meta block is, or publish the map it holds. -/
inductive Commits (ext : Externals α) (order : ℕ) (db : Database α) (s : α → Option Bytes) :
    EStateM.Result PyError (Database α) Unit → Prop
  | unstored {e : PyError} {d : Disk} {t : BPlusTree α Bytes} : db.disk.Appends d →
      Holding ext order d.live t s → (∃ root ∈ db.tree.treeRef, root.address = 0) →
      storeTree ext db = .error e { db with disk := d, tree := t } →
      Commits ext order db s (.error e { db with disk := d, tree := t })
  | unpublished {e : PyError} {d : Disk} {t : BPlusTree α Bytes} : db.disk.Appends d →
      Holding ext order d.live t s → storeTree ext db = .ok () { db with disk := d, tree := t } →
      metaBlock ext.crc32 (({ db with disk := d, tree := t } : Database α).nextMeta
        (t.treeRef.elim 0 NodeRef.address) t.count) = .error e →
      Commits ext order db s
        (.error e { db with disk := d.push .flush, tree := t, locked := true })
  | published {d : Disk} {t t' : BPlusTree α Bytes} {m' : Meta} {block : Bytes} :
      db.disk.Appends d → AtMeta ext order d.live d.live.size m' t → BPlusTree.Holds order t s →
      m'.Succeeds db.cached → m'.dataLength = d.live.size → metaBlock ext.crc32 m' = .ok block →
      Committed ext order (d.live.write (m'.slot * metaSlotSize) block) m' s →
      AtMeta ext order (d.live.write (m'.slot * metaSlotSize) block) d.live.size m' t' →
      Commits ext order db s (.ok ()
        ⟨((d.push .flush).push (.write (m'.slot * metaSlotSize) block)).push .flush, m', false, t'⟩)

/-- `commit`. -/
theorem commit_spec (hc : Committed ext order db.disk.live db.cached c)
    (hs : Holding ext order db.disk.live db.tree s) : Commits ext order db s (commit ext db) := by
  obtain ⟨d, t, happ, hholding, ⟨hstore, honFile⟩ | ⟨hnew, e, hstore⟩⟩ := storeTree_spec hc.size_ge hs
  · have hcommitted : Committed ext order d.live db.cached c :=
      hc.sameBelow (happ.sameBelow.mono hc.le)
    set stored : Database α := { db with disk := d, tree := t }
    set m' := stored.nextMeta stored.rootAddress stored.tree.count with hm'
    have hrun : commit ext db =
        (commitRootAddress ext stored.rootAddress stored.tree.count >>= fun _ => refresh ext)
          stored := by
      rw [commit, run_bind, hstore]
      rfl
    rw [hrun, run_bind, commitRootAddress_eq, ← hm']
    cases hblock : metaBlock ext.crc32 m' with
    | error e => exact .unpublished happ hholding hstore hblock
    | ok block =>
      have hat : AtMeta ext order d.live d.live.size m' t :=
        ⟨honFile, rfl, rfl, hholding.holds.order_eq⟩
      have hsucc : m'.Succeeds db.cached := ⟨rfl, rfl⟩
      have hslot : m'.slot < 2 := by
        have := hsucc.slot
        omega
      obtain ⟨-, -, -, -, hlen⟩ := metaBlock_ok hblock
      have hpub : Committed ext order (d.live.write (m'.slot * metaSlotSize) block) m' s :=
        hcommitted.publish hat hholding.holds hsucc rfl hblock
          (sameButSlot_write hslot hcommitted.size_ge hlen.le) (File.at_write _ _ _)
      set published : Database α :=
        ⟨((d.push .flush).push (.write (m'.slot * metaSlotSize) block)).push .flush, m', false, t⟩
        with hpublished
      have hlive : published.disk.live = d.live.write (m'.slot * metaSlotSize) block := by
        simp [hpublished]
      obtain ⟨t', hrefresh, hat'⟩ := refresh_spec published (hlive ▸ hpub)
        hholding.holds.order_eq
      have hsize : published.disk.live.size = d.live.size := by
        rw [hlive]
        exact (sameButSlot_write hslot hcommitted.size_ge hlen.le).size_eq
      rw [hsize, hlive] at hat'
      have hend : Commits ext order db s _ :=
        .published happ hat hholding.holds hsucc rfl hblock hpub hat'
      rw [← hrefresh] at hend
      exact hend
  · rw [commit, run_bind, hstore]
    exact .unstored happ hholding hnew hstore

/-- A commit returns if everything can be written. -/
theorem commit_returns (db : Database α) (hc : Committed ext order db.disk.live db.cached c)
    (hs : Holding ext order db.disk.live db.tree s) {stored : Database α}
    (hstore : storeTree ext db = .ok () stored) {block : Bytes}
    (hblock : metaBlock ext.crc32 (stored.nextMeta stored.rootAddress stored.tree.count) = .ok block) :
    ∃ db', commit ext db = .ok () db' := by
  have hspec := commit_spec hc hs
  generalize commit ext db = result at hspec ⊢
  cases hspec with
  | unstored _ _ _ hraise =>
    rw [hstore] at hraise
    cases hraise
  | unpublished _ _ hstore' hraise =>
    obtain rfl : stored = _ := by simpa [hstore] using hstore'
    rw [rootAddress, hraise] at hblock
    cases hblock
  | published => exact ⟨_, rfl⟩

/-- What a commit that returns has done. -/
structure Published (ext : Externals α) (order : ℕ) (db db' : Database α)
    (s : α → Option Bytes) : Prop where
  ran : commit ext db = .ok () db'
  succeeds : db'.cached.Succeeds db.cached
  committed : Committed ext order db'.disk.live db'.cached s
  atMeta : AtMeta ext order db'.disk.live db'.cached.dataLength db'.cached db'.tree
  unlocked : db'.locked = false
  records : SameRecords db.disk.live.size db.disk.live db'.disk.live
  size_eq : db'.disk.live.size = db'.cached.dataLength
  guarded : db'.disk.Guarded db'.cached.dataLength
  packed : ∃ block, metaBlock ext.crc32 db'.cached = .ok block

/-- The records of an earlier commit stay where they are. -/
theorem Published.records_of_le (h : Published ext order db db' s) {L : ℕ}
    (hL : L ≤ db.disk.live.size) :
    SameRecords L db.disk.live db'.disk.live ∧ L ≤ db'.cached.dataLength := by
  have hle := h.records.le_right
  refine ⟨⟨hL.trans hle, fun k hk hk' => h.records.byte_eq k hk (hk'.trans_le hL)⟩, ?_⟩
  rw [← h.size_eq]
  exact hL.trans hle

theorem commit_published (hc : Committed ext order db.disk.live db.cached c)
    (hs : Holding ext order db.disk.live db.tree s) (hrun : commit ext db = .ok () db') :
    Published ext order db db' s := by
  have hspec := commit_spec hc hs
  rw [hrun] at hspec
  cases hspec with
  | @published d t t' m' block happ hat hholds hsucc hlen hblock hpub hat' =>
    have hlive : (((d.push .flush).push (.write (m'.slot * metaSlotSize) block)).push .flush).live
        = d.live.write (m'.slot * metaSlotSize) block := by simp
    have hslot : m'.slot < 2 := by
      have := hsucc.slot
      omega
    obtain ⟨-, -, -, -, hblockLen⟩ := metaBlock_ok hblock
    have hsame : SameButSlot m'.slot d.live (d.live.write (m'.slot * metaSlotSize) block) :=
      sameButSlot_write hslot (hc.size_ge.trans happ.sameBelow.le_right) hblockLen.le
    have hrecords := hsame.sameRecords hslot
    have hend := happ.sameBelow.le_right
    refine ⟨hrun, hsucc, ?_, ?_, rfl, ?_, ?_, .flush ?_, block, hblock⟩
    · rw [hlive]
      exact hpub
    · rw [hlive, hlen]
      exact hat'
    · rw [hlive]
      refine ⟨hend.trans hrecords.le_right, fun i hi hi' => ?_⟩
      rw [happ.sameBelow.byte_eq i hi', hrecords.byte_eq i hi (hi'.trans_le hend)]
    · rw [hlive, hlen, hsame.size_eq]
    · rw [Disk.live_write, Disk.live_flush, hlen, hsame.size_eq]

/-- A commit with nothing staged returns, as long as there is a next transaction id. -/
theorem commit_idle (db : Database α) (hc : Committed ext order db.disk.live db.cached c)
    (hat : AtMeta ext order db.disk.live L db.cached db.tree) (hL : L ≤ db.disk.live.size)
    {block : Bytes} (hblock : metaBlock ext.crc32 db.cached = .ok block)
    (hsize : db.disk.live.size = db.cached.dataLength) (htxn : db.cached.txnId + 1 < 256 ^ 8) :
    ∃ db', commit ext db = .ok () db' ∧ Published ext order db db' c ∧
      db'.disk.live.size = db.disk.live.size := by
  obtain ⟨-, hroot, hcount, hlen⟩ := metaBlock_fits hblock
  have hholding : Holding ext order db.disk.live db.tree c := hat.holding hL hc
  have hstore : storeTree ext db = .ok () db := storeTree_of_onFile hat.onFile
  have hnext : ∃ block, metaBlock ext.crc32
      (db.nextMeta db.rootAddress db.tree.count) = .ok block := by
    refine metaBlock_of_lt htxn ?_ ?_ ?_
    · rw [nextMeta, rootAddress, hat.root_eq]
      exact hroot
    · rw [nextMeta, hat.count_eq]
      exact hcount
    · rw [nextMeta, hsize]
      exact hlen
  obtain ⟨block', hblock'⟩ := hnext
  obtain ⟨db', hrun⟩ := commit_returns db hc hholding hstore hblock'
  refine ⟨db', hrun, commit_published hc hholding hrun, ?_⟩
  rw [commit_of_onFile hat.onFile, hblock'] at hrun
  rw [disk_eq_of_refresh hrun]
  obtain ⟨-, -, -, -, hblockLen⟩ := metaBlock_ok hblock'
  simp only [Disk.live_flush, Disk.live_write]
  exact (sameButSlot_write (by omega) hc.size_ge hblockLen.le).size_eq

/-- The length of the file has been packed. -/
theorem Published.size_lt (h : Published ext order db db' s) : db'.disk.live.size < 256 ^ 8 := by
  obtain ⟨block, hblock⟩ := h.packed
  rw [h.size_eq]
  exact (metaBlock_fits hblock).2.2.2

/-- A commit right after another one returns, as long as there is a next transaction
id. -/
theorem Published.commit_again (h : Published ext order db db' s)
    (htxn : db'.cached.txnId + 1 < 256 ^ 8) :
    ∃ db'', commit ext db' = .ok () db'' ∧ Published ext order db' db'' s ∧
      db''.disk.live.size = db'.disk.live.size := by
  obtain ⟨block, hblock⟩ := h.packed
  exact commit_idle db' h.committed h.atMeta h.committed.le hblock h.size_eq htxn

/-- A commit leaves the slot of the meta block it was made from as it is. -/
theorem commit_keeps_slot (hc : Committed ext order db.disk.live db.cached c)
    (hs : Holding ext order db.disk.live db.tree s) (hrun : commit ext db = .ok () db') :
    readSlot ext.crc32 db'.disk.live db.cached.slot = .ok (some db.cached) := by
  have hspec := commit_spec hc hs
  rw [hrun] at hspec
  cases hspec with
  | @published d t t' m' block happ hat hholds hsucc hlen hblock hpub hat' =>
    have hslot := hsucc.slot
    have hlt := hc.adopted.slot_lt
    obtain ⟨-, -, -, -, hblockLen⟩ := metaBlock_ok hblock
    have hold : Committed ext order d.live db.cached c := hc.sameBelow (happ.sameBelow.mono hc.le)
    have hsame : SameButSlot m'.slot d.live (d.live.write (m'.slot * metaSlotSize) block) :=
      sameButSlot_write (by omega) hold.size_ge hblockLen.le
    simp only [Disk.live_flush, Disk.live_write]
    rw [show db.cached.slot = 1 - m'.slot by omega, ← hsame.readSlot (by omega),
      show 1 - m'.slot = db.cached.slot by omega]
    exact hold.adopted.own

/-- Something that the handle has to write is too long for its field: a record, or a
number of the meta block. -/
inductive Overflows (ext : Externals α) (db : Database α) : Prop
  | record {root : NodeRef α Bytes} : root ∈ db.tree.treeRef → NodeRef.TooLong ext root →
      Overflows ext db
  | transactions : 256 ^ 8 ≤ db.cached.txnId + 1 → Overflows ext db
  | keys : 256 ^ 8 ≤ db.tree.items.length → Overflows ext db
  | file : 256 ^ 8 ≤ db.disk.live.size → Overflows ext db

omit [LinearOrder α] in
theorem Overflows.congr {db : Database α} (h : Overflows ext db) (htree : db'.tree = db.tree)
    (hcached : db'.cached = db.cached) (hdisk : db'.disk.live = db.disk.live) :
    Overflows ext db' := by
  cases h with
  | record hroot hlong => exact .record (htree ▸ hroot) hlong
  | transactions hlong => exact .transactions (hcached ▸ hlong)
  | keys hlong => exact .keys (htree ▸ hlong)
  | file hlong => exact .file (hdisk ▸ hlong)

omit [LinearOrder α] in
/-- `store` of the root raises nothing but `struct.error`, for a record that is too
long. -/
theorem storeTree_error (h : storeTree ext db = .error e db') :
    e = .structError ∧ Overflows ext db' := by
  unfold storeTree at h
  cases hroot : db.tree.treeRef with
  | none => simp [hroot] at h
  | some root =>
    cases hraised : (root.store ext db.disk).raised with
    | none => simp [hroot, hraised] at h
    | some e' =>
      simp only [hroot, hraised] at h
      obtain ⟨rfl, hstate⟩ := EStateM.Result.error.inj h
      obtain ⟨rfl, hlong⟩ := NodeRef.store_raised ext hraised
      rw [← hstate]
      exact ⟨rfl, .record rfl hlong⟩

section

variable (hc : Committed ext order db.disk.live db.cached c)
    (hs : Holding ext order db.disk.live db.tree s) (hrun : commit ext db = .error e db')
include hc hs hrun

/-- `commit` of a handle with a current cache raises nothing but `struct.error`, for
something that is too long. -/
theorem commit_error :
    e = .structError ∧ Overflows ext db' := by
  have hspec := commit_spec hc hs
  rw [hrun] at hspec
  cases hspec with
  | unstored _ _ _ hstore => exact storeTree_error hstore
  | @unpublished _ d t happ hholding hstore hblock =>
    refine ⟨metaBlock_error hblock, ?_⟩
    have hroot : t.treeRef.elim 0 NodeRef.address ≤ d.live.size := by
      obtain ⟨d', t', -, -, ⟨hstore', honFile⟩ | ⟨-, e', hstore'⟩⟩ := storeTree_spec hc.size_ge hs
      · obtain ⟨rfl, rfl⟩ : d = d' ∧ t = t' := by simpa [hstore] using hstore'
        cases hroot : t.treeRef with
        | none => exact Nat.zero_le _
        | some root =>
          have := (honFile root hroot).recordAt.le
          simp only [Option.elim_some]
          omega
      · rw [hstore] at hstore'
        cases hstore'
    by_contra hfits
    have htxn : ¬ 256 ^ 8 ≤ db.cached.txnId + 1 := fun h => hfits (.transactions h)
    have hkeys : ¬ 256 ^ 8 ≤ t.items.length := fun h => hfits (.keys h)
    have hfile : ¬ 256 ^ 8 ≤ d.live.size := fun h => hfits (.file (by rwa [Disk.live_flush]))
    obtain ⟨block, hok⟩ : ∃ block, metaBlock ext.crc32
        (({ db with disk := d, tree := t } : Database α).nextMeta
          (t.treeRef.elim 0 NodeRef.address) t.count) = .ok block := by
      refine metaBlock_of_lt ?_ ?_ ?_ ?_
      · simp only [nextMeta]
        omega
      · simp only [nextMeta]
        omega
      · simp only [nextMeta, hholding.holds.ok.count_eq, Int.toNat_natCast]
        omega
      · simp only [nextMeta]
        omega
    rw [hok] at hblock
    cases hblock

/-- What a commit that raises has done: nothing is published or lost, and unless the
tree could not be written the handle holds the lock. -/
theorem commit_raised :
    db'.cached = db.cached ∧ Holding ext order db'.disk.live db'.tree s ∧
      File.SameBelow db.disk.live.size db.disk.live db'.disk.live ∧
      (db'.locked = true ∨
        db'.locked = db.locked ∧ ∃ root ∈ db.tree.treeRef, root.address = 0) := by
  have hspec := commit_spec hc hs
  rw [hrun] at hspec
  cases hspec with
  | unstored happ hholding hnew => exact ⟨rfl, hholding, happ.sameBelow, .inr ⟨rfl, hnew⟩⟩
  | unpublished happ hholding =>
    refine ⟨rfl, ?_, ?_, .inl rfl⟩
    · rw [Disk.live_flush]
      exact hholding
    · rw [Disk.live_flush]
      exact happ.sameBelow

end

end Database
