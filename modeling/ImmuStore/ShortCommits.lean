/-
# Maps that can be committed

A commit raises only if a record is too long for its header or the file too long for its
meta block.  A map of fewer than `2 * (order / 2)` bindings is one leaf in every tree that
holds it, so whether its records fit can be seen from the map.
-/
import ImmuStore.TextPickle

open Storage

variable {α : Type} [LinearOrder α]

/-! ## Small trees -/

namespace NodeRef

variable {ν : Type} {order d : ℕ} {lo hi : Option α} {node : NodeRef α ν}

/-- A subtree below the root has at least `order / 2` items. -/
theorem Wf.half_le_items (h : Wf order d (order / 2) lo hi node) : order / 2 ≤ node.items.length := by
  induction d generalizing lo hi node with
  | zero =>
    obtain ⟨_, keys, values, rfl, hleaf⟩ := h.exists_leaf
    have := hleaf.least_le
    simp only [items, List.length_map, List.length_zip, hleaf.aligned]
    omega
  | succ d ih =>
    obtain ⟨_, keys, children, rfl, hint⟩ := h.exists_internal
    rw [items_internal]
    cases hint.chain with
    | last _ hchild => simpa using ih hchild
    | cons _ hchild _ =>
      have := ih hchild
      rw [List.flatMap_cons, List.length_append]
      omega

/-- A root with fewer items than two such subtrees is a leaf. -/
theorem Wf.leaf_of_few (h : Wf order d 1 lo hi node) (hfew : node.items.length < 2 * (order / 2)) :
    ∃ address keys values, node = .leaf address keys values ∧ values.length = keys.length := by
  cases d with
  | zero =>
    obtain ⟨address, keys, values, rfl, hleaf⟩ := h.exists_leaf
    exact ⟨address, keys, values, rfl, hleaf.aligned⟩
  | succ d =>
    obtain ⟨_, keys, children, rfl, hint⟩ := h.exists_internal
    rw [items_internal] at hfew
    have hleast := hint.least_le
    cases hint.chain with
    | last _ _ => simp at hleast
    | cons _ hfirst hrest =>
      have h1 := hfirst.half_le_items
      cases hrest with
      | last _ hsecond =>
        have h2 := hsecond.half_le_items
        simp only [List.flatMap_cons, List.flatMap_nil, List.length_append, List.length_nil] at hfew
        omega
      | cons _ hsecond _ =>
        have h2 := hsecond.half_le_items
        simp only [List.flatMap_cons, List.length_append] at hfew
        omega

end NodeRef

/-! ## Storing a leaf -/

section Store

variable {ext : Externals α} {d : Disk}
variable {s : α → Option Bytes}

omit [LinearOrder α] in
/-- A value that is not too long is written at the end of the file, or has its record
already. -/
theorem NodeRef.storeValue_returns (crc32 : Bytes → ℕ) {v : ValueRef Bytes} {n : ℕ}
    (hn : n ≤ 256 ^ 4) (hd : superblockSize ≤ d.live.size) (hlength : v.referent.length < n)
    (haddress : v.address < d.live.size) :
    ∃ v' d', storeValue crc32 v d = ⟨v', none, d'⟩ ∧ v'.address < d'.live.size ∧
      d.live.size ≤ d'.live.size ∧ d'.live.size ≤ d.live.size + (n + recordHeaderBytes) := by
  by_cases hnew : v.address = 0
  · obtain ⟨d', hwrite, hsize⟩ := write_returns crc32 (hlength.trans_le hn) hd
    have hpos : 0 < recordHeaderBytes := by decide
    refine ⟨{ v with address := d.live.size }, d', by simp [storeValue, hnew, hwrite], ?_, ?_, ?_⟩
    · show d.live.size < d'.live.size
      omega
    · omega
    · omega
  · exact ⟨v, d, by simp [storeValue, hnew], haddress, le_rfl, by omega⟩

omit [LinearOrder α] in
/-- Values that are not too long are stored. -/
theorem NodeRef.storeValues_returns (crc32 : Bytes → ℕ) {values : List (ValueRef Bytes)}
    (hd : superblockSize ≤ d.live.size) (hvalues : ∀ v ∈ values, v.referent.length < 256 ^ 4)
    (haddress : ∀ v ∈ values, v.address < d.live.size) :
    ∃ ref d', storeValues crc32 values d = ⟨ref, none, d'⟩ ∧ ref.length = values.length ∧
      (∀ v ∈ ref, v.address < d'.live.size) ∧ d.live.size ≤ d'.live.size ∧
      d'.live.size ≤ d.live.size + values.length * (256 ^ 4 + recordHeaderBytes) := by
  induction values generalizing d with
  | nil => exact ⟨[], d, rfl, rfl, by simp, le_rfl, by simp⟩
  | cons v values ih =>
    rw [List.forall_mem_cons] at hvalues haddress
    obtain ⟨v', d1, hstore, hbound, hle, hgrown⟩ :=
      storeValue_returns crc32 le_rfl hd hvalues.1 haddress.1
    obtain ⟨ref, d', hrest, hlen, hrefs, hle', hgrown'⟩ := ih (hd.trans hle) hvalues.2
      fun v hv => (haddress.2 v hv).trans_le hle
    refine ⟨v' :: ref, d', by simp [storeValues, hstore, hrest], by simp [hlen], ?_, hle.trans hle', ?_⟩
    · rw [List.forall_mem_cons]
      exact ⟨hbound.trans_le hle', hrefs⟩
    · rw [List.length_cons, Nat.add_mul, Nat.one_mul]
      omega

/-- The map has few bindings, and its values and the record of its keys are short. -/
def Short (ext : Externals α) (order : ℕ) (s : α → Option Bytes) : Prop :=
  ∃ l, Represents l s ∧ l.length < 2 * (order / 2) ∧ (∀ e ∈ l, e.2.length < 256 ^ 4) ∧
    ∀ addresses : List ℕ, addresses.length = l.length → (∀ a ∈ addresses, a < 256 ^ 8) →
      (ext.dumps ⟨true, l.map Prod.fst, addresses⟩).length < 256 ^ 4

/-- The map can be committed to the file: it is short, and the numbers of the file are far from
their limits. -/
structure Committable (ext : Externals α) (order : ℕ) (d : Disk) (s : α → Option Bytes) : Prop where
  short : Short ext order s
  size_lt : d.live.size + 2 * (order / 2) * (256 ^ 4 + recordHeaderBytes) < 256 ^ 8
  txn_lt : ∀ m, readBestMeta ext.crc32 d.live = .ok m → m.txnId + 1 < 256 ^ 8

namespace Database

variable {order : ℕ} {db : Database α} {c s : α → Option Bytes}

section

variable (hc : Committed ext order db.disk.live db.cached c)
    (hs : Holding ext order db.disk.live db.tree s)
include hc hs

/-- The tree of a map that can be committed is stored. -/
theorem storeTree_returns (h : Committable ext order db.disk s) :
    ∃ stored, storeTree ext db = .ok () stored ∧ stored.cached = db.cached ∧
      stored.tree.count = db.tree.count ∧ stored.rootAddress < 256 ^ 8 ∧
      stored.disk.live.size ≤
        db.disk.live.size + 2 * (order / 2) * (256 ^ 4 + recordHeaderBytes) := by
  obtain ⟨l, hl, hfew, hvalues, hnode⟩ := h.short
  have hsize := h.size_lt
  obtain rfl : l = db.tree.items := hl.unique hs.holds.represents
  cases hroot : db.tree.treeRef with
  | none =>
    refine ⟨db, by simp [storeTree, hroot], rfl, rfl, ?_, by omega⟩
    simp [Database.rootAddress, hroot]
  | some root =>
    obtain ⟨depth, hwf⟩ := hs.holds.ok.root_wf root hroot
    have hitems : db.tree.items = root.items := by
      rw [BPlusTree.items, hroot]
      rfl
    rw [hs.holds.order_eq] at hwf
    rw [hitems] at hfew hvalues hnode
    obtain ⟨address, keys, values, rfl, haligned⟩ := hwf.leaf_of_few hfew
    have hkeys := NodeRef.keys_of_items_leaf address haligned
    have hlength : (NodeRef.leaf address keys values).items.length = values.length := by
      rw [← List.length_map (f := Prod.fst), hkeys, haligned]
    have hstaged := hs.staged _ hroot
    by_cases hnew : address = 0
    · subst hnew
      have hvalue : ∀ v ∈ values, NodeRef.StagedValue ext db.disk.live db.disk.live.size v := by
        cases hstaged with
        | stored honFile => exact absurd rfl honFile.address_ne_zero
        | leaf hvalue => exact hvalue
      have hpos : superblockSize ≤ db.disk.live.size := hc.size_ge
      have hshort : ∀ v ∈ values, v.referent.length < 256 ^ 4 := by
        intro v hv
        obtain ⟨i, hi, rfl⟩ := List.getElem_of_mem hv
        have hi' : i < keys.length := haligned ▸ hi
        refine hvalues (keys[i], values[i].referent) ?_
        rw [NodeRef.items, List.mem_map]
        exact ⟨(keys[i], values[i]), List.mem_iff_getElem.mpr ⟨i, by simp [hi, hi'], by simp⟩, rfl⟩
      obtain ⟨ref, d1, hstore, hlen, hrefs, hle, hgrown⟩ :=
        NodeRef.storeValues_returns ext.crc32 hpos hshort fun v hv => (hvalue v hv).address_lt hpos
      rw [hlength] at hfew hnode
      have hbound : (values.length + 1) * (256 ^ 4 + recordHeaderBytes) ≤
          2 * (order / 2) * (256 ^ 4 + recordHeaderBytes) := Nat.mul_le_mul_right _ hfew
      rw [Nat.add_mul, Nat.one_mul] at hbound
      have hpayload : (ext.dumps ⟨true, keys, ref.map ValueRef.address⟩).length < 256 ^ 4 := by
        rw [← hkeys]
        refine hnode _ (by simp [hlen]) fun a ha => ?_
        obtain ⟨v, hv, rfl⟩ := List.mem_map.mp ha
        have := hrefs v hv
        omega
      obtain ⟨d2, hwrite, hsize2⟩ := write_returns ext.crc32 hpayload (hpos.trans hle)
      refine ⟨{ db with
        disk := d2
        tree := { db.tree with treeRef := some (.leaf d1.live.size keys ref) } }, ?_, rfl, rfl, ?_, ?_⟩
      · simp [storeTree, hroot, NodeRef.store, hstore, NodeRef.storeSelf, NodeRef.payload, hwrite,
          NodeRef.withAddress]
      · show d1.live.size < 256 ^ 8
        omega
      · show d2.live.size ≤ db.disk.live.size + 2 * (order / 2) * (256 ^ 4 + recordHeaderBytes)
        omega
    · have hstore : (NodeRef.leaf address keys values).store ext db.disk =
          ⟨.leaf address keys values, none, db.disk⟩ := by
        rw [NodeRef.store, if_neg hnew]
      refine ⟨db, ?_, rfl, rfl, ?_, by omega⟩
      · simp only [storeTree, hroot, hstore]
        rw [← hroot]
      have honFile := hstaged.onFile hnew
      have := honFile.recordAt.le
      simp only [Database.rootAddress, hroot, Option.elim_some]
      omega

/-- The meta block does not lengthen the file. -/
theorem size_of_commit {stored db' : Database α} (hstore : storeTree ext db = .ok () stored)
    (hrun : commit ext db = .ok () db') :
    db'.disk.live.size = stored.disk.live.size := by
  have hle : superblockSize ≤ stored.disk.live.size := by
    obtain ⟨d, t, happ, -, ⟨hstore', -⟩ | ⟨-, e, hstore'⟩⟩ := storeTree_spec hc.size_ge hs
    · cases hstore.symm.trans hstore'
      exact hc.size_ge.trans happ.sameBelow.le_right
    · rw [hstore] at hstore'
      cases hstore'
  rw [commit, run_bind, hstore] at hrun
  simp only [run_bind, run_get, commitRootAddress_eq] at hrun
  cases hblock : metaBlock ext.crc32 (stored.nextMeta stored.rootAddress stored.tree.count) with
  | error e => simp [hblock] at hrun
  | ok block =>
    simp only [hblock] at hrun
    obtain ⟨-, -, -, -, hlen⟩ := metaBlock_ok hblock
    rw [disk_eq_of_refresh hrun]
    simp only [Disk.live_flush, Disk.live_write]
    exact (sameButSlot_write (by omega) hle hlen.le).size_eq

/-- A map that can be committed is committed, and the file grows by its records only. -/
theorem commit_committable (h : Committable ext order db.disk s) :
    ∃ db', commit ext db = .ok () db' ∧ db'.disk.live.size ≤
      db.disk.live.size + 2 * (order / 2) * (256 ^ 4 + recordHeaderBytes) := by
  obtain ⟨stored, hstore, hcached, hcount, hroot, hgrown⟩ := storeTree_returns hc hs h
  have hsize : stored.disk.live.size < 256 ^ 8 := hgrown.trans_lt h.size_lt
  obtain ⟨l, hl, hfew, -, -⟩ := h.short
  have htxn : stored.cached.txnId + 1 < 256 ^ 8 := by
    rw [hcached]
    exact h.txn_lt db.cached hc.adopted.readBestMeta
  have hkeys : 0 ≤ stored.tree.count ∧ stored.tree.count.toNat < 256 ^ 8 := by
    have hlt : db.tree.items.length < 256 ^ 8 := by
      have hle : 2 * (order / 2) * 1 ≤ 2 * (order / 2) * (256 ^ 4 + recordHeaderBytes) :=
        Nat.mul_le_mul_left _ (by decide)
      have hsize' := h.size_lt
      rw [← hl.unique hs.holds.represents]
      omega
    rw [hcount, hs.holds.ok.count_eq]
    exact ⟨Int.natCast_nonneg _, by rwa [Int.toNat_natCast]⟩
  obtain ⟨block, hblock⟩ : ∃ block, metaBlock ext.crc32
      (stored.nextMeta stored.rootAddress stored.tree.count) = .ok block :=
    metaBlock_of_lt htxn hroot hkeys hsize
  obtain ⟨db', hrun⟩ := commit_returns db hc hs hstore hblock
  exact ⟨db', hrun, (size_of_commit hc hs hstore hrun).trans_le hgrown⟩

end

end Database

/-! ## Several commits -/

/-- The file has room for `n` commits of short maps. -/
structure Roomy (ext : Externals α) (order n : ℕ) (d : Disk) : Prop where
  size_lt : d.live.size + n * (2 * (order / 2) * (256 ^ 4 + recordHeaderBytes)) < 256 ^ 8
  txn_lt : ∀ m, readBestMeta ext.crc32 d.live = .ok m → m.txnId + n < 256 ^ 8

section Room

variable {order n : ℕ} {s : α → Option Bytes}

theorem Short.committable (hs : Short ext order s) (hd : Roomy ext order (n + 1) d) :
    Committable ext order d s := by
  obtain ⟨hsize, htxn⟩ := hd
  refine ⟨hs, ?_, fun m hm => ?_⟩
  · rw [Nat.add_mul, Nat.one_mul] at hsize
    omega
  · have := htxn m hm
    omega

omit [LinearOrder α] in
theorem Roomy.of_succ (hd : Roomy ext order (n + 1) d) : Roomy ext order n d := by
  obtain ⟨hsize, htxn⟩ := hd
  refine ⟨?_, fun m hm => ?_⟩
  · rw [Nat.add_mul, Nat.one_mul] at hsize
    omega
  · have := htxn m hm
    omega

variable {db : Database α} {c : α → Option Bytes} {m : Meta}

/-- A short map is committed, and takes the room of one commit. -/
theorem Database.commit_short (hc : Committed ext order db.disk.live db.cached c)
    (hs : Holding ext order db.disk.live db.tree s) (hshort : Short ext order s)
    (hd : Roomy ext order (n + 1) db.disk) :
    ∃ db', commit ext db = .ok () db' ∧ Published ext order db db' s ∧ Roomy ext order n db'.disk := by
  obtain ⟨db', hrun, hgrown⟩ := commit_committable hc hs (hshort.committable hd)
  have hpub := commit_published hc hs hrun
  obtain ⟨hsize, htxn⟩ := hd
  refine ⟨db', hrun, hpub, ?_, fun m hm => ?_⟩
  · rw [Nat.add_mul, Nat.one_mul] at hsize
    omega
  · rw [hpub.committed.adopted.readBestMeta] at hm
    cases hm
    have hbefore := htxn _ hc.adopted.readBestMeta
    have hnext := hpub.succeeds.txnId
    omega

/-- A handle stages a binding and commits it. -/
theorem Database.Attached.set_commit (h : db.Attached ext order m c s) (key : α) (value : Bytes)
    (hshort : Short ext order (Function.update s key (some value)))
    (hd : Roomy ext order (n + 1) db.disk) :
    ∃ db1 db2 : Database α, db.set ext key value = .ok () db1 ∧ db1.disk = db.disk ∧
      db1.cached = m ∧ db1.commit ext = .ok () db2 ∧
      Published ext order db1 db2 (Function.update s key (some value)) ∧
      Roomy ext order n db2.disk := by
  obtain ⟨t, hset, hholding⟩ := h.set key value
  set db1 : Database α := { db with cached := m, locked := true, tree := t }
  obtain ⟨db2, hcommit, hpub, hroom⟩ : ∃ db2, db1.commit ext = .ok () db2 ∧ _ :=
    commit_short h.committed hholding hshort hd
  exact ⟨db1, db2, hset, rfl, rfl, hcommit, hpub, hroom⟩

end Room

/-- A file without records has room for a million commits. -/
theorem roomy_of_size {m : Meta} (hc : Committed ext 64 d.live m s)
    (hsize : d.live.size = superblockSize) (htxn : m.txnId < 256) : Roomy ext 64 1000000 d := by
  refine ⟨?_, fun m' hm' => ?_⟩
  · rw [hsize]
    decide
  · rw [hc.adopted.readBestMeta] at hm'
    cases hm'
    omega

theorem roomy_new (hc : Committed ext 64 d.live initialMeta s)
    (hsize : d.live.size = superblockSize) : Roomy ext 64 1000000 d :=
  roomy_of_size hc hsize (by decide)

end Store

/-- The keys are among the given ones, and the values are short. -/
def Few (keys : List α) (s : α → Option Bytes) : Prop :=
  ∀ x value, s x = some value → x ∈ keys ∧ value.length < 256 ^ 4

section Few

variable {keys : List α} {s : α → Option Bytes}

omit [LinearOrder α] in
theorem few_empty (keys : List α) : Few keys fun _ => none := by simp [Few]

theorem Few.update (hs : Few keys s) {key : α} (hkey : key ∈ keys) {payload : Option Bytes}
    (hpayload : ∀ value ∈ payload, value.length < 256 ^ 4) :
    Few keys (Function.update s key payload) :=
  (Function.forall_update_iff s
    fun x y => ∀ value, y = some value → x ∈ keys ∧ value.length < 256 ^ 4).mpr
    ⟨fun value hvalue => ⟨hkey, hpayload value hvalue⟩, fun x _ => hs x⟩

/-- A map of fewer than 64 keys of fewer than 256 characters is short. -/
theorem Few.short (hs : Few keys s) {text : α → Text} (htext : Function.Injective text)
    (hfew : keys.length < 64) (hlength : ∀ key ∈ keys, (text key).length < 256) :
    Short (pickleOf text htext).ext 64 s := by
  obtain ⟨l, hl, hcount, hmem⟩ := Represents.exists_of_keys s keys fun x hx => by
    obtain ⟨value, hvalue⟩ := Option.ne_none_iff_exists'.mp hx
    exact (hs x value hvalue).1
  have hfew' : l.length < 64 := by omega
  have hkeys : ∀ key ∈ l.map Prod.fst, (text key).length ≤ 256 := by
    intro key hkey
    obtain ⟨e, he, rfl⟩ := List.mem_map.mp hkey
    exact (hlength _ (hmem e he)).le
  refine ⟨l, hl, hfew', ?_, fun addresses haligned haddresses => ?_⟩
  · rintro ⟨x, value⟩ he
    exact (hs x value ((hl.mem_iff x value).mp he)).2
  · have hrecord := length_leaf_record_le htext (by norm_num) hkeys (by simp; omega) haddresses
    rw [List.length_map] at hrecord
    omega

end Few
