/-
# Lazy references and shadow paging (`logical.py`, `bplus_tree.py`)

A handle follows its references as it needs them: some have been loaded, some have not,
and some are new.  `LazyTree` keeps them so.  A lazy tree presents the tree of a `Database`
when following every reference would give that tree; a commit of the one is then a commit
of the other, whatever has been loaded.

A commit writes the new nodes and values behind the end of the file and the meta block into
the slot that is not adopted, and what it publishes is the tree that was committed.
-/
import ImmuStore.StoredRecords
import ImmuStore.RecordLayer

open Storage

/-! ## The model -/

/-- A reference to a node: its address alone, or its address and its referent, whose values
may in turn not have been loaded. -/
inductive LazyRef (α : Type) where
  | unloaded (address : ℕ)
  | leaf (address : ℕ) (keys : List α) (values : List (ValueRef (Option Bytes)))
  | internal (address : ℕ) (keys : List α) (children : List (LazyRef α))

namespace LazyRef

variable {α : Type}

/-- `address`. -/
def address : LazyRef α → ℕ
  | .unloaded address => address
  | .leaf address _ _ => address
  | .internal address _ _ => address

/-- `ValueRef.store`. -/
def storeValue (crc32 : Bytes → ℕ) (v : ValueRef (Option Bytes)) (d : Disk) :
    StoreResult (ValueRef (Option Bytes)) :=
  match v.referent with
  | none => ⟨v, none, d⟩
  | some referent =>
    if v.address = 0 then
      match write crc32 referent d with
      | .ok address d => ⟨{ v with address := address }, none, d⟩
      | .error e d => ⟨v, some e, d⟩
    else ⟨v, none, d⟩

/-- `LeafNode.store_refs`. -/
def storeValues (crc32 : Bytes → ℕ) : List (ValueRef (Option Bytes)) → Disk →
    StoreResult (List (ValueRef (Option Bytes)))
  | [], d => ⟨[], none, d⟩
  | v :: values, d =>
    let first := storeValue crc32 v d
    match first.raised with
    | some e => ⟨first.ref :: values, some e, first.disk⟩
    | none =>
      let rest := storeValues crc32 values first.disk
      ⟨first.ref :: rest.ref, rest.raised, rest.disk⟩

variable (ext : Externals α)

/-- The end of `store`: a node, of which `ref` is the reference at an address, is written
once everything it refers to has been. -/
def storeSelf (ref : ℕ → LazyRef α) (payload : NodePayload α) (raised : Option PyError) (d : Disk) :
    StoreResult (LazyRef α) :=
  match raised with
  | some e => ⟨ref 0, some e, d⟩
  | none =>
    match write ext.crc32 (ext.dumps payload) d with
    | .ok address d => ⟨ref address, none, d⟩
    | .error e d => ⟨ref 0, some e, d⟩

mutual

/-- `BPlusNodeRef.store`: nothing is done without a referent, or if there is an address. -/
def store : LazyRef α → Disk → StoreResult (LazyRef α)
  | .unloaded address, d => ⟨.unloaded address, none, d⟩
  | .leaf address keys values, d =>
    if address = 0 then
      let refs := storeValues ext.crc32 values d
      storeSelf ext (.leaf · keys refs.ref) ⟨true, keys, refs.ref.map ValueRef.address⟩ refs.raised
        refs.disk
    else ⟨.leaf address keys values, none, d⟩
  | .internal address keys children, d =>
    if address = 0 then
      let refs := storeAll children d
      storeSelf ext (.internal · keys refs.ref) ⟨false, keys, refs.ref.map LazyRef.address⟩
        refs.raised refs.disk
    else ⟨.internal address keys children, none, d⟩

/-- `InternalNode.store_refs`. -/
def storeAll : List (LazyRef α) → Disk → StoreResult (List (LazyRef α))
  | [], d => ⟨[], none, d⟩
  | child :: children, d =>
    let first := store child d
    match first.raised with
    | some e => ⟨first.ref :: children, some e, first.disk⟩
    | none =>
      let rest := storeAll children first.disk
      ⟨first.ref :: rest.ref, rest.raised, rest.disk⟩

end

end LazyRef

/-- A `BPlusTree` and its storage; the reference to an empty tree has the address 0 and no
referent. -/
structure LazyTree (α : Type) where
  storage : OpenStorage
  treeRef : LazyRef α
  count : ℤ

namespace LazyTree

variable {α : Type} (ext : Externals α) (durability : Durability)

/-- An operation of the storage. -/
def onStorage {β : Type} (x : Py OpenStorage β) : Py (LazyTree α) β :=
  fun t =>
    match x t.storage with
    | .ok b s => .ok b { t with storage := s }
    | .error e s => .error e { t with storage := s }

/-- `_refresh_tree_ref`: the new reference has not been followed. -/
def refreshTreeRef : Py (LazyTree α) Unit := do
  let root ← onStorage (OpenStorage.getRootAddress ext.crc32)
  modify fun t => { t with treeRef := .unloaded root }
  let count ← onStorage (OpenStorage.getKeyCount ext.crc32)
  modify fun t => { t with count := count }

/-- `self._tree_ref.store(self._storage)`. -/
def storeTree : Py (LazyTree α) Unit := fun t =>
  let stored := t.treeRef.store ext t.storage.disk
  let t := { t with storage := { t.storage with disk := stored.disk }, treeRef := stored.ref }
  match stored.raised with
  | some e => .error e t
  | none => .ok () t

/-- `commit`. -/
def commit : Py (LazyTree α) Unit := do
  storeTree ext
  let t ← MonadState.get
  onStorage (OpenStorage.commitRootAddress ext.crc32 durability t.treeRef.address t.count)
  refreshTreeRef ext

end LazyTree

/-! ## What a lazy tree presents -/

namespace LazyRef

variable {α : Type}

/-- The value has been loaded, or has an address to load it from. -/
def PresentsValue (v : ValueRef (Option Bytes)) (w : ValueRef Bytes) : Prop :=
  v.address = w.address ∧ (v.referent = some w.referent ∨ v.referent = none ∧ v.address ≠ 0)

mutual

/-- Following every reference gives the node. -/
inductive Presents : LazyRef α → NodeRef α Bytes → Prop
  | unloaded {node : NodeRef α Bytes} : node.address ≠ 0 → Presents (.unloaded node.address) node
  | leaf {address : ℕ} {keys : List α} {values : List (ValueRef (Option Bytes))}
      {values' : List (ValueRef Bytes)} : List.Forall₂ PresentsValue values values' →
      Presents (.leaf address keys values) (.leaf address keys values')
  | internal {address : ℕ} {keys : List α} {children : List (LazyRef α)}
      {children' : List (NodeRef α Bytes)} : PresentsAll children children' →
      Presents (.internal address keys children) (.internal address keys children')

/-- `Presents` for the children of a node. -/
inductive PresentsAll : List (LazyRef α) → List (NodeRef α Bytes) → Prop
  | nil : PresentsAll [] []
  | cons {child : LazyRef α} {children : List (LazyRef α)} {child' : NodeRef α Bytes}
      {children' : List (NodeRef α Bytes)} : Presents child child' → PresentsAll children children' →
      PresentsAll (child :: children) (child' :: children')

end

theorem Presents.address_eq {ref : LazyRef α} {node : NodeRef α Bytes} (h : Presents ref node) :
    ref.address = node.address := by
  cases h with
  | unloaded => rfl
  | leaf => rfl
  | internal => rfl

theorem PresentsAll.addresses_eq {refs : List (LazyRef α)} {nodes : List (NodeRef α Bytes)} :
    PresentsAll refs nodes → refs.map address = nodes.map NodeRef.address
  | .nil => rfl
  | .cons h hs => by rw [List.map_cons, List.map_cons, h.address_eq, hs.addresses_eq]

theorem addresses_eq_of_presentsValue {values : List (ValueRef (Option Bytes))}
    {values' : List (ValueRef Bytes)} (h : List.Forall₂ PresentsValue values values') :
    values.map ValueRef.address = values'.map ValueRef.address := by
  induction h with
  | nil => rfl
  | cons hv _ ih => rw [List.map_cons, List.map_cons, hv.1, ih]

/-! ## Storing -/

/-- Two calls of `store` have done the same. -/
structure Agree {γ δ : Type} (R : γ → δ → Prop) (r : StoreResult γ) (r' : StoreResult δ) : Prop where
  ref : R r.ref r'.ref
  raised_eq : r.raised = r'.raised
  live_eq : r.disk.live = r'.disk.live

/-- `write` does the same to files with the same bytes. -/
theorem write_agree (crc32 : Bytes → ℕ) (payload : Bytes) {d d' : Disk} (h : d.live = d'.live) :
    (∃ address e e', write crc32 payload d = .ok address e ∧ write crc32 payload d' = .ok address e' ∧
      e.live = e'.live) ∨
    ∃ x, write crc32 payload d = .error x d ∧ write crc32 payload d' = .error x d' := by
  unfold write
  cases recordHeader crc32 payload with
  | error x => exact .inr ⟨x, rfl, rfl⟩
  | ok header =>
    rw [h]
    exact .inl ⟨_, _, _, rfl, rfl, by simp [h]⟩

end LazyRef

open LazyRef (Agree Presents PresentsAll PresentsValue write_agree)

variable {α : Type}
variable {root : Option (NodeRef α Bytes)}
variable {d d' : Disk} {ext : Externals α}

theorem storeValue_agree (crc32 : Bytes → ℕ) {v : ValueRef (Option Bytes)} {w : ValueRef Bytes}
    (hv : PresentsValue v w) (h : d.live = d'.live) :
    Agree PresentsValue (LazyRef.storeValue crc32 v d) (storeValue crc32 w d') := by
  obtain ⟨referent, address⟩ := v
  obtain ⟨rfl, rfl | ⟨rfl, hne⟩⟩ : address = w.address ∧ _ := hv
  · by_cases hzero : w.address = 0
    · rcases write_agree crc32 w.referent h with ⟨a, e, e', hrun, hrun', hlive⟩ | ⟨x, hrun, hrun'⟩
      · simp only [LazyRef.storeValue, storeValue, if_pos hzero, hrun, hrun']
        exact ⟨⟨rfl, .inl rfl⟩, rfl, hlive⟩
      · simp only [LazyRef.storeValue, storeValue, if_pos hzero, hrun, hrun']
        exact ⟨⟨rfl, .inl rfl⟩, rfl, h⟩
    · simp only [LazyRef.storeValue, storeValue, if_neg hzero]
      exact ⟨⟨rfl, .inl rfl⟩, rfl, h⟩
  · -- a value that has not been loaded has an address, so that neither is written
    rw [storeValue, if_neg hne]
    exact ⟨⟨rfl, .inr ⟨rfl, hne⟩⟩, rfl, h⟩

theorem storeValues_agree (crc32 : Bytes → ℕ) {values : List (ValueRef (Option Bytes))}
    {values' : List (ValueRef Bytes)} (hvalues : List.Forall₂ PresentsValue values values')
    (h : d.live = d'.live) :
    Agree (List.Forall₂ PresentsValue) (LazyRef.storeValues crc32 values d)
      (storeValues crc32 values' d') := by
  induction hvalues generalizing d d' with
  | nil => exact ⟨.nil, rfl, h⟩
  | @cons v w values values' hv hrest ih =>
    have hfirst := storeValue_agree crc32 hv h
    unfold LazyRef.storeValues storeValues
    dsimp only
    rw [hfirst.raised_eq]
    cases (storeValue crc32 w d').raised with
    | some e => exact ⟨.cons hfirst.ref hrest, rfl, hfirst.live_eq⟩
    | none =>
      have hothers := ih hfirst.live_eq
      exact ⟨.cons hfirst.ref hothers.ref, hothers.raised_eq, hothers.live_eq⟩

/-- The end of `store`, for a node whose parts have been stored. -/
theorem storeSelf_agree (ext : Externals α) {ref : ℕ → LazyRef α} (node : NodeRef α Bytes)
    (href : ∀ a, Presents (ref a) (node.withAddress a)) (hnode : node.withAddress 0 = node)
    (raised : Option PyError) (h : d.live = d'.live) :
    Agree Presents (LazyRef.storeSelf ext ref node.payload raised d)
      (NodeRef.storeSelf ext node raised d') := by
  have hunstored : Presents (ref 0) node := hnode ▸ href 0
  cases raised with
  | some e => exact ⟨hunstored, rfl, h⟩
  | none =>
    rcases write_agree ext.crc32 (ext.dumps node.payload) h with
      ⟨a, e, e', hrun, hrun', hlive⟩ | ⟨x, hrun, hrun'⟩
    · simp only [LazyRef.storeSelf, NodeRef.storeSelf, hrun, hrun']
      exact ⟨href a, rfl, hlive⟩
    · simp only [LazyRef.storeSelf, NodeRef.storeSelf, hrun, hrun']
      exact ⟨hunstored, rfl, h⟩

mutual

/-- `store` does the same whatever has been loaded. -/
theorem store_agree (ext : Externals α) : ∀ {ref : LazyRef α} {node : NodeRef α Bytes},
    Presents ref node → ∀ {d d' : Disk}, d.live = d'.live →
      Agree Presents (ref.store ext d) (node.store ext d')
  | _, node, .unloaded hne, d, d', h => by
    rw [node.store_eq_self ext hne, LazyRef.store]
    exact ⟨.unloaded hne, rfl, h⟩
  | .leaf address keys values, .leaf _ _ values', .leaf hvalues, d, d', h => by
    rw [LazyRef.store, NodeRef.store]
    by_cases hzero : address = 0
    · have hparts := storeValues_agree ext.crc32 hvalues h
      rw [if_pos hzero, if_pos hzero]
      dsimp only
      rw [hparts.raised_eq, LazyRef.addresses_eq_of_presentsValue hparts.ref]
      exact storeSelf_agree ext (.leaf 0 keys (storeValues ext.crc32 values' d').ref)
        (fun a => .leaf hparts.ref) rfl _ hparts.live_eq
    · rw [if_neg hzero, if_neg hzero]
      exact ⟨.leaf hvalues, rfl, h⟩
  | .internal address keys children, .internal _ _ children', .internal hchildren, d, d', h => by
    rw [LazyRef.store, NodeRef.store]
    by_cases hzero : address = 0
    · have hparts := storeAll_agree ext hchildren h
      rw [if_pos hzero, if_pos hzero]
      dsimp only
      rw [hparts.raised_eq, hparts.ref.addresses_eq]
      exact storeSelf_agree ext (.internal 0 keys (NodeRef.storeAll ext children' d').ref)
        (fun a => .internal hparts.ref) rfl _ hparts.live_eq
    · rw [if_neg hzero, if_neg hzero]
      exact ⟨.internal hchildren, rfl, h⟩

theorem storeAll_agree (ext : Externals α) : ∀ {refs : List (LazyRef α)}
    {nodes : List (NodeRef α Bytes)}, PresentsAll refs nodes → ∀ {d d' : Disk}, d.live = d'.live →
      Agree PresentsAll (LazyRef.storeAll ext refs d) (NodeRef.storeAll ext nodes d')
  | _, _, .nil, d, d', h => by
    rw [LazyRef.storeAll, NodeRef.storeAll]
    exact ⟨.nil, rfl, h⟩
  | _ :: _, child' :: _, .cons hchild hchildren, d, d', h => by
    have hfirst := store_agree ext hchild h
    rw [LazyRef.storeAll, NodeRef.storeAll]
    dsimp only
    rw [hfirst.raised_eq]
    cases (child'.store ext d').raised with
    | some e => exact ⟨.cons hfirst.ref hchildren, rfl, hfirst.live_eq⟩
    | none =>
      have hothers := storeAll_agree ext hchildren hfirst.live_eq
      exact ⟨.cons hfirst.ref hothers.ref, hothers.raised_eq, hothers.live_eq⟩

end

/-! ## Committing -/

/-- The reference presents the root of a tree. -/
inductive LazyRef.PresentsRoot : LazyRef α → Option (NodeRef α Bytes) → Prop
  | empty : PresentsRoot (.unloaded 0) none
  | node {ref : LazyRef α} {node : NodeRef α Bytes} : Presents ref node → PresentsRoot ref (some node)

theorem LazyRef.PresentsRoot.address_eq {ref : LazyRef α} (h : PresentsRoot ref root) :
    ref.address = root.elim 0 NodeRef.address := by
  cases h with
  | empty => rfl
  | node h => exact h.address_eq

/-- A node is loaded at its address. -/
theorem address_of_loadRoot {f : File} {address : ℕ}
    (h : NodeRef.loadRoot ext f address = .ok root) :
    LazyRef.PresentsRoot (.unloaded address) root := by
  by_cases hzero : address = 0
  · rw [NodeRef.loadRoot, if_pos hzero] at h
    cases h
    rw [hzero]
    exact .empty
  · rw [NodeRef.loadRoot, if_neg hzero] at h
    obtain ⟨node, hload, hroot⟩ := Except.bind_eq_ok.mp h
    cases hroot
    have haddress : node.address = address := by
      simp only [NodeRef.load] at hload
      obtain ⟨record, -, hload⟩ := Except.bind_eq_ok.mp hload
      obtain ⟨payload, -, hload⟩ := Except.bind_eq_ok.mp hload
      split_ifs at hload
      · obtain ⟨values, -, hnode⟩ := Except.bind_eq_ok.mp hload
        cases hnode
        rfl
      · obtain ⟨children, -, hnode⟩ := Except.bind_eq_ok.mp hload
        cases hnode
        rfl
    rw [← haddress]
    exact .node (.unloaded (by rwa [haddress]))

namespace LazyTree

variable {ext : Externals α} {durability : Durability} {t t' : LazyTree α} {db db' : Database α}

/-- The storage is that of the handle, and following every reference gives its tree. -/
structure Presents (t : LazyTree α) (db : Database α) : Prop where
  live_eq : t.storage.disk.live = db.disk.live
  cached_eq : t.storage.cached = db.cached
  locked_eq : t.storage.locked = db.locked
  root : LazyRef.PresentsRoot t.treeRef db.tree.treeRef
  count_eq : t.count = db.tree.count

/-- Two methods have ended in the same way. -/
inductive Agrees : EStateM.Result PyError (LazyTree α) Unit →
    EStateM.Result PyError (Database α) Unit → Prop
  | ok {t : LazyTree α} {db : Database α} : t.Presents db → Agrees (.ok () t) (.ok () db)
  | error {e : PyError} {t : LazyTree α} {db : Database α} : t.Presents db →
      Agrees (.error e t) (.error e db)

theorem Agrees.live_eq {r : EStateM.Result PyError (LazyTree α) Unit}
    {r' : EStateM.Result PyError (Database α) Unit} (h : Agrees r r') :
    (resultState r).storage.disk.live = (resultState r').disk.live := by
  cases h with
  | ok h => exact h.live_eq
  | error h => exact h.live_eq

theorem storeTree_agrees (h : t.Presents db) : Agrees (storeTree ext t) (db.storeTree ext) := by
  obtain ⟨⟨disk, cached, locked⟩, ref, count⟩ := t
  obtain ⟨disk', cached', locked', order, root, count'⟩ := db
  obtain ⟨hlive, hcached, hlocked, hroot, hcount⟩ := h
  dsimp only at hlive hcached hlocked hroot hcount
  subst hcached hlocked hcount
  cases hroot with
  | empty =>
    rw [storeTree, LazyRef.store, Database.storeTree]
    exact .ok ⟨hlive, rfl, rfl, .empty, rfl⟩
  | @node ref node hnode =>
    have hagree := store_agree ext hnode hlive
    unfold storeTree Database.storeTree
    dsimp only
    rw [hagree.raised_eq]
    cases (node.store ext disk').raised with
    | none => exact .ok ⟨hagree.live_eq, rfl, rfl, .node hagree.ref, rfl⟩
    | some e => exact .error ⟨hagree.live_eq, rfl, rfl, .node hagree.ref, rfl⟩

theorem commitRootAddress_agrees (h : t.Presents db) (rootAddress : ℕ) (keyCount : ℤ) :
    Agrees (onStorage (OpenStorage.commitRootAddress ext.crc32 durability rootAddress keyCount) t)
      (db.commitRootAddress ext rootAddress keyCount) := by
  have hnext : t.storage.nextMeta rootAddress keyCount = db.nextMeta rootAddress keyCount := by
    rw [OpenStorage.nextMeta, Database.nextMeta, h.cached_eq, h.live_eq]
  rw [onStorage, OpenStorage.commitRootAddress_eq, Database.commitRootAddress_eq, hnext]
  cases metaBlock ext.crc32 (db.nextMeta rootAddress keyCount) with
  | error e => exact .error ⟨by simp [h.live_eq], h.cached_eq, rfl, h.root, h.count_eq⟩
  | ok block => exact .ok ⟨by simp [h.live_eq, h.cached_eq], rfl, rfl, h.root, h.count_eq⟩

/-- The reference that a refresh leaves presents the tree that is loaded from it. -/
theorem refreshTreeRef_agrees (h : t.Presents db) (hrun : db.refresh ext = .ok () db') :
    Agrees (refreshTreeRef ext t) (db.refresh ext) := by
  rw [hrun]
  unfold Database.refresh at hrun
  cases hbest : readBestMeta ext.crc32 db.disk.live with
  | error e => simp [hbest] at hrun
  | ok m =>
    cases hload : NodeRef.loadRoot ext db.disk.live m.rootAddress with
    | error e => simp [hbest, hload] at hrun
    | ok root =>
      simp only [hbest, hload, EStateM.Result.ok.injEq, true_and] at hrun
      rw [← h.live_eq] at hbest
      have hrefresh : refreshTreeRef ext t = .ok ()
          ⟨{ t.storage with cached := m }, .unloaded m.rootAddress, m.keyCount⟩ := by
        simp [refreshTreeRef, onStorage, OpenStorage.getRootAddress, OpenStorage.getKeyCount,
          OpenStorage.adopt, hbest]
      rw [hrefresh, ← hrun]
      exact .ok ⟨h.live_eq, rfl, h.locked_eq, address_of_loadRoot hload, rfl⟩

variable [LinearOrder α] {order : ℕ} {c s : α → Option Bytes}

/-- After a commit has written its meta block, the tree can be loaded. -/
theorem refresh_of_commitRootAddress (hc : Committed ext order db.disk.live db.cached c)
    (hs : Holding ext order db.disk.live db.tree s) {db1 db2 : Database α}
    (hstore : db.storeTree ext = .ok () db1)
    (hroot : db1.commitRootAddress ext db1.rootAddress db1.tree.count = .ok () db2) :
    ∃ db', db2.refresh ext = .ok () db' := by
  cases hrefresh : db2.refresh ext with
  | ok u db' => exact ⟨db', rfl⟩
  | error e db' =>
    have hspec := Database.commit_spec hc hs
    have hrun : db.commit ext = .error e db' := by
      simp only [Database.commit, run_bind, hstore, run_get, hroot, hrefresh]
    rw [hrun] at hspec
    cases hspec with
    | unstored _ _ _ hraise =>
      rw [hstore] at hraise
      cases hraise
    | unpublished _ _ hstore' hraise =>
      obtain rfl : db1 = _ := by simpa [hstore] using hstore'
      rw [Database.commitRootAddress_eq, Database.rootAddress, hraise] at hroot
      cases hroot

/-- A commit does the same whatever has been loaded, under either policy. -/
theorem commit_agrees (durability : Durability) (hc : Committed ext order db.disk.live db.cached c)
    (hs : Holding ext order db.disk.live db.tree s) (h : t.Presents db) :
    Agrees (commit ext durability t) (db.commit ext) := by
  have hstored : Agrees (storeTree ext t) (db.storeTree ext) := storeTree_agrees h
  rw [commit, Database.commit, run_bind, run_bind]
  cases hstore : db.storeTree ext with
  | error e db1 =>
    rw [hstore] at hstored
    generalize storeTree ext t = result at hstored
    cases hstored with
    | error h1 => exact .error h1
  | ok u db1 =>
    rw [hstore] at hstored
    generalize storeTree ext t = result at hstored
    cases hstored with
    | @ok t1 _ h1 =>
      have haddress : t1.treeRef.address = db1.rootAddress := h1.root.address_eq
      have hcommitted : Agrees (onStorage (OpenStorage.commitRootAddress ext.crc32 durability
          db1.rootAddress db1.tree.count) t1)
          (db1.commitRootAddress ext db1.rootAddress db1.tree.count) :=
        commitRootAddress_agrees h1 _ _
      simp only [run_bind, run_get, haddress, h1.count_eq]
      cases hroot : db1.commitRootAddress ext db1.rootAddress db1.tree.count with
      | error e db2 =>
        rw [hroot] at hcommitted
        generalize onStorage _ t1 = result at hcommitted ⊢
        cases hcommitted with
        | error h2 => exact .error h2
      | ok u db2 =>
        obtain ⟨db', hrefresh⟩ := refresh_of_commitRootAddress hc hs hstore hroot
        rw [hroot] at hcommitted
        generalize onStorage _ t1 = result at hcommitted ⊢
        cases hcommitted with
        | ok h2 => exact refreshTreeRef_agrees h2 hrefresh

end LazyTree

/-! ## Shadow paging -/

namespace NodeRef

variable {ext : Externals α}

theorem referents_of_storedValues {values stored : List (ValueRef Bytes)} {l : List (ℕ × Bytes)}
    (h : StoredValues values stored l) :
    (stored.map fun v => (⟨v.referent, 0⟩ : ValueRef Bytes)) =
      values.map fun v => ⟨v.referent, 0⟩ := by
  induction h with
  | nil => rfl
  | old _ _ ih => rw [List.map_cons, List.map_cons, ih]
  | new _ ih => rw [List.map_cons, List.map_cons, ih]

mutual

/-- Storing changes nothing but addresses. -/
theorem StoredAs.strip_eq : ∀ {node stored : NodeRef α Bytes}
    {l : List (ℕ × Bytes)}, StoredAs ext node stored l → stored.strip = node.strip
  | _, _, _, .old _ => rfl
  | _, _, _, .leaf hvalues => by
    simp only [strip, referents_of_storedValues hvalues]
  | _, _, _, .internal hchildren => by
    simp only [strip, stripAll_eq, hchildren.strip_eq]

theorem StoredAllAs.strip_eq : ∀ {nodes stored : List (NodeRef α Bytes)}
    {l : List (ℕ × Bytes)}, StoredAllAs ext nodes stored l → stored.map strip = nodes.map strip
  | _, _, _, .nil => rfl
  | _, _, _, .cons hchild hchildren => by
    rw [List.map_cons, List.map_cons, hchild.strip_eq, hchildren.strip_eq]

end

end NodeRef

theorem StoredRoot.strip_eq {stored : Option (NodeRef α Bytes)} {l : List (ℕ × Bytes)}
    (h : StoredRoot ext root stored l) :
    stored.map NodeRef.strip = root.map NodeRef.strip := by
  cases h with
  | empty => rfl
  | root hnode => rw [Option.map_some, Option.map_some, hnode.strip_eq]

variable [LinearOrder α]

variable (ext) (order) in
/-- The tree of the handle was reached by sets and deletes from the root that its file has
committed; commits that raised may have come between.  A handle that other handles have left
behind is on that root once it has begun to set or delete. -/
inductive Database.Edited : Database α → Prop
  | first {db : Database α} {m : Meta} {c : α → Option Bytes} (u : Update α Bytes) :
      Committed ext order db.disk.live m c → db.locked = false → db.tree.order = order →
      Edited (resultState (db.update ext u))
  | root {db : Database α} {c : α → Option Bytes} :
      Committed ext order db.disk.live db.cached c →
      AtMeta ext order db.disk.live db.disk.live.size db.cached db.tree → Edited db
  | update {db : Database α} (u : Update α Bytes) : Edited db →
      Edited (resultState (db.update ext u))
  | commitRaises {db db' : Database α} {e : PyError} : Edited db →
      db.commit ext = .error e db' → Edited db'

variable {ext : Externals α} {order : ℕ} {db db' : Database α} {c s : α → Option Bytes}

theorem Database.Attached.holding_update {m : Meta} (h : db.Attached ext order m c s)
    (u : Update α Bytes) : ∃ c s, (resultState (db.update ext u)).Attached ext order
      (resultState (db.update ext u)).cached c s ∧
      Holding ext order (resultState (db.update ext u)).disk.live
        (resultState (db.update ext u)).tree s := by
  obtain ⟨t, hholding, hrun⟩ := h.update u
  have hstate : resultState (db.update ext u) = { db with cached := m, locked := true, tree := t } := by
    rcases hrun with hrun | ⟨-, hrun⟩
    · rw [hrun, resultState]
    · rw [hrun, resultState]
  rw [hstate]
  exact ⟨c, _, ⟨h.committed, hholding.holds.order_eq, fun _ => ⟨rfl, hholding⟩,
    fun hl => by cases hl⟩, hholding⟩

/-- What has an address has been written, with everything below it, and the root is that of
the adopted meta block until something is staged. -/
theorem Database.Edited.attached (h : db.Edited ext order) :
    ∃ c s, db.Attached ext order db.cached c s ∧ Holding ext order db.disk.live db.tree s := by
  induction h with
  | @first db m c u hc hlocked horder =>
    exact (Database.Attached.of_unlocked hc horder hlocked).holding_update u
  | root hc hat =>
    have hholding := hat.holding le_rfl hc
    exact ⟨_, _, ⟨hc, hat.order_eq, fun _ => ⟨rfl, hholding⟩, fun _ => rfl⟩, hholding⟩
  | update u _ ih =>
    obtain ⟨c, s, hattached, -⟩ := ih
    exact hattached.holding_update u
  | @commitRaises db db' e _ hrun ih =>
    obtain ⟨c, s, hattached, hholding⟩ := ih
    obtain ⟨hcached, hholding', hsame, hlocked⟩ :=
      Database.commit_raised hattached.committed hholding hrun
    refine ⟨c, s, ⟨?_, hholding'.holds.order_eq, fun _ => ⟨rfl, hholding'⟩, fun hl => ?_⟩, hholding'⟩
    · rw [hcached]
      exact hattached.committed.sameBelow (hsame.mono hattached.committed.le)
    · rcases hlocked with hlocked | ⟨hlocked, -⟩
      · rw [hl] at hlocked
        cases hlocked
      · exact hattached.unlocked (hlocked ▸ hl)

/-- A commit touches neither the records nor the slot of the meta block it was made from. -/
theorem Database.commit_keeps_bytes (ext : Externals α)
    (hc : Committed ext order db.disk.live db.cached c) :
    (∀ i, superblockSize ≤ i → i < db.disk.live.size →
        (resultState (db.commit ext)).disk.live.byte i = db.disk.live.byte i) ∧
      (resultState (db.commit ext)).disk.live.read (db.cached.slot * metaSlotSize) metaSlotSize =
        db.disk.live.read (db.cached.slot * metaSlotSize) metaSlotSize := by
  obtain ⟨l, d, hl, hslot⟩ := Database.commit_records ext hc.size_ge
  obtain ⟨happ, -⟩ := hl.records hc.size_ge
  have hlt := hc.adopted.slot_lt
  have hsize := hc.size_ge
  have hsize' := hslot.size_left
  have hsize'' := hslot.size_eq
  refine ⟨fun i hi hi' => ?_, File.read_congr ?_ ?_ fun i hi hi' => ?_⟩
  · rw [happ.sameBelow.byte_eq i hi', hslot.byte_eq i]
    simp only [metaSlotSize, superblockSize] at *
    omega
  · simp only [metaSlotSize, superblockSize] at *
    omega
  · simp only [metaSlotSize, superblockSize] at *
    omega
  · rw [happ.sameBelow.byte_eq i, hslot.byte_eq i]
    · simp only [metaSlotSize, superblockSize] at *
      omega
    · simp only [metaSlotSize, superblockSize] at *
      omega

/-- A handle opened on what a commit has left finds the tree that was committed. -/
theorem Database.Published.connect (h : Database.Published ext order db db' s) :
    ∃ fresh, Database.connect ext (.blank order (.powerOn db'.disk.live)) = .ok () fresh ∧
      fresh.tree = db'.tree := by
  obtain ⟨d, t, hrun, -, hat, hcases⟩ :=
    Database.connect_spec (d := .powerOn db'.disk.live) h.committed
  have hsame : SameRecords db'.cached.dataLength db'.disk.live d.live := by
    rcases hcases with rfl | rfl
    · exact ⟨h.committed.le, fun _ _ _ => rfl⟩
    · simp only [Disk.live_flush, Disk.live_truncate]
      exact .of_sameBelow (.truncate h.committed.le le_rfl)
  exact ⟨_, hrun, hat.unique (h.atMeta.mono hsame le_rfl hsame.le_right)⟩

/-- **A commit is shadow paging, and loading a tree undoes storing it.**  Whatever has been
set and deleted since the last commit, and whichever references have been loaded: a commit
leaves every record and the adopted meta slot as they are; if it returns, it has appended one
record for each node and value that was new, children before their parents, and a fresh
handle loads from the published root the tree that was committed, with its count. -/
theorem commit_shadow_pages (ext : Externals α) (order : ℕ) (durability : Durability)
    {db : Database α} (hdb : db.Edited ext order) {t : LazyTree α} (ht : t.Presents db) :
    let f := t.storage.disk.live
    let g := (resultState (t.commit ext durability)).storage.disk.live
    let slot := t.storage.cached.slot * metaSlotSize
    Adopted ext.crc32 f t.storage.cached ∧
      (∀ i, superblockSize ≤ i → i < f.size → g.byte i = f.byte i) ∧
      g.read slot metaSlotSize = f.read slot metaSlotSize ∧
      match t.commit ext durability with
      | .ok () _ => ∃ stored l, StoredRoot ext db.tree.treeRef stored l ∧
          stored.map NodeRef.strip = db.tree.treeRef.map NodeRef.strip ∧
          Records ext.crc32 g f.size l g.size ∧
          ∃ fresh, Database.connect ext (.blank order (.powerOn g)) = .ok () fresh ∧
            fresh.tree = ⟨order, stored, db.tree.count⟩
      | .error e t' => e = .structError ∧ ∃ db', t'.Presents db' ∧ db'.Overflows ext := by
  obtain ⟨c, s, hattached, hholding⟩ := hdb.attached
  have hc := hattached.committed
  have hagrees := LazyTree.commit_agrees durability hc hholding ht
  obtain ⟨hrecords, hslot⟩ := Database.commit_keeps_bytes ext hc
  dsimp only
  rw [hagrees.live_eq, ht.live_eq, ht.cached_eq]
  refine ⟨hc.adopted, hrecords, hslot, ?_⟩
  generalize t.commit ext durability = r at hagrees
  cases hcommit : db.commit ext with
  | error e db' =>
    rw [hcommit] at hagrees
    cases hagrees with
    | error ht' =>
      obtain ⟨rfl, hoverflows⟩ := Database.commit_error hc hholding hcommit
      exact ⟨rfl, db', ht', hoverflows⟩
  | ok u db' =>
    rw [hcommit] at hagrees
    cases hagrees with
    | ok ht' =>
      have hpub := Database.commit_published hc hholding hcommit
      obtain ⟨l, hl, hstored, hcount⟩ := Database.commit_stored hc hholding hcommit
      obtain ⟨fresh, hconnect, hfresh⟩ := hpub.connect
      refine ⟨db'.tree.treeRef, l, hstored, hstored.strip_eq, hl, fresh, hconnect, ?_⟩
      rw [hfresh, ← hcount, ← hpub.atMeta.order_eq]

theorem commit_shadow_pages_sample :
    ∃ (db : Database ℕ) (t t' : LazyTree ℕ) (fresh : Database ℕ), db.Edited sampleExt 64 ∧
      t.Presents db ∧ t.commit sampleExt .none = .ok () t' ∧
      Database.connect sampleExt (.blank 64 (.powerOn t'.storage.disk.live)) = .ok () fresh ∧
      fresh.tree.count = 1 := by
  obtain ⟨d, tree, hnew, hc, hat, -, hsize⟩ :=
    Database.connect_new sampleExt (by decide : 3 ≤ 64)
  set db0 : Database ℕ := ⟨d, initialMeta, false, tree⟩
  have hroot : db0.Edited sampleExt 64 := .root hc hat
  have hset : db0.set sampleExt 1 [7] = .ok () _ :=
    Database.set_new hc rfl hat.order_eq 1 [7]
  set db : Database ℕ := ⟨d, initialMeta, true, ⟨64, some (.leafRef [1] [⟨[7], 0⟩]), 1⟩⟩
  have hedited : db.Edited sampleExt 64 := by
    have hupdate := Database.Edited.update (.set 1 [7]) hroot
    rwa [Database.update, hset] at hupdate
  set t : LazyTree ℕ := ⟨⟨d, initialMeta, true⟩, .leaf 0 [1] [⟨some [7], 0⟩], 1⟩
  have ht : t.Presents db :=
    ⟨rfl, rfl, rfl, .node (.leaf (.cons ⟨rfl, .inl rfl⟩ .nil)), rfl⟩
  obtain ⟨c, s, hattached, hholding⟩ := hedited.attached
  obtain ⟨db1, db', hset', -, -, hcommit, -⟩ := sample_commit db0 hc (roomy_new hc hsize) rfl hat.order_eq
  obtain rfl : db = db1 := by simpa [hset] using hset'
  have hagrees := LazyTree.commit_agrees .none hattached.committed hholding ht
  rw [hcommit] at hagrees
  obtain ⟨-, -, -, hresult⟩ := commit_shadow_pages sampleExt 64 .none hedited ht
  cases hlazy : t.commit sampleExt .none with
  | error e t' =>
    rw [hlazy] at hagrees
    cases hagrees
  | ok u t' =>
    rw [hlazy] at hresult
    obtain ⟨stored, l, -, -, -, fresh, hconnect, hfresh⟩ := hresult
    exact ⟨db, t, t', fresh, hedited, ht, hlazy, hconnect, by rw [hfresh]⟩
