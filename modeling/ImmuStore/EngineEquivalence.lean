/-
# Observational equivalence of the index engines

Two databases, one with each engine, answer alike as long as no commit raises
`struct.error`.  Whether a commit raises depends on the sizes of records, and these differ
between the engines: a leaf of the B+ tree holds many keys in one record, a binary node
only one.
-/
import ImmuStore.Engines
import ImmuStore.ShortCommits
import ImmuStore.TextPickle

open Function Storage

variable {α V : Type}

/-! ## Records of different sizes -/

/-- The records of a binding are shorter than `n`, as long as the numbers in them are below
`B`. -/
def Pickle.Fits (p : Pickle α) (n B : ℕ) (key : α) (value : Bytes) : Prop :=
  value.length < n ∧ ∀ left address right length, left < B → address < B → right < B → length < B →
    (p.dumps (.binary ⟨left, key, address, right, length⟩)).length < n

/-- A tree whose records fit is stored. -/
theorem BinaryNodeRef.Staged.store_returns {p : Pickle α} {n B : ℕ} {t : BinaryNodeRef α Bytes}
    {d : Disk} (h : t.Staged p d.live d.live.size) (hsized : t.Sized)
    (hd : superblockSize ≤ d.live.size) (hn : n ≤ 256 ^ 4) (hfits : ∀ e ∈ t.items, p.Fits n B e.1 e.2)
    (hB : d.live.size + 2 * (n + recordHeaderBytes) * t.items.length ≤ B) :
    (t.store p d).raised = none ∧
      (t.store p d).disk.live.size ≤ d.live.size + 2 * (n + recordHeaderBytes) * t.items.length := by
  have hsuper : 0 < superblockSize := by decide
  induction t generalizing d with
  | empty => exact ⟨rfl, Nat.le_add_right _ _⟩
  | node address left key value right length ihl ihr =>
    by_cases hzero : address = 0
    swap
    · rw [store, if_neg hzero]
      exact ⟨rfl, Nat.le_add_right _ _⟩
    subst hzero
    obtain ⟨hvalue, hleft, hright⟩ := h.parts
    obtain ⟨hleftSized, hrightSized, rfl⟩ := hsized
    rw [items_node, List.forall_mem_append, List.forall_mem_cons] at hfits
    obtain ⟨hleftFits, ⟨hvlen, hdumps⟩, hrightFits⟩ := hfits
    have hitems : ∀ x, x * (BinaryNodeRef.node 0 left key value right
        (1 + left.items.length + right.items.length)).items.length =
          x * left.items.length + x * right.items.length + x := by
      intro x
      simp only [items_node, List.length_append, List.length_cons]
      ring
    rw [hitems] at hB ⊢
    have hcount : 1 + left.items.length + right.items.length < B := by
      have := Nat.le_mul_of_pos_left left.items.length (show 0 < 2 * (n + recordHeaderBytes) by omega)
      have := Nat.le_mul_of_pos_left right.items.length (show 0 < 2 * (n + recordHeaderBytes) by omega)
      omega
    -- the value, then the left subtree, then the right one, each on the disk before it
    have hv := NodeRef.storeValue_spec p.ext hd hvalue
    obtain ⟨v, d1, hstore, hvaddress, hle1, hsize1⟩ :=
      NodeRef.storeValue_returns p.crc32 hn hd hvlen (hvalue.address_lt hd)
    have hstore' : storeValue p.ext.crc32 value d = ⟨v, none, d1⟩ := hstore
    rw [hstore'] at hv
    have happ1 : d.Appends d1 := hv.appends
    have hd1 := hd.trans hle1
    have hleft1 := happ1.persistent persistent_staged hleft
    have hl := store_spec hd1 hleft1
    obtain ⟨hlraised, hlsize⟩ := ihl hleft1 hleftSized hd1 hleftFits (by omega)
    have hd2 := hd1.trans hl.appends.sameBelow.le_right
    have hright2 := (happ1.trans hl.appends).persistent persistent_staged hright
    have hr := store_spec hd2 hright2
    obtain ⟨hrraised, hrsize⟩ := ihr hright2 hrightSized hd2 hrightFits (by omega)
    have hd3 := hd2.trans hr.appends.sameBelow.le_right
    have hladdress := (hl.onFile hlraised).address_lt (by omega)
    have hraddress := (hr.onFile hrraised).address_lt (by omega)
    have hpayload := hdumps _ v.address _ _ (hladdress.trans_le (by omega)) (by omega)
      (hraddress.trans_le (by omega)) hcount
    obtain ⟨d2, hwrite, hsize2⟩ := write_returns p.crc32 (hpayload.trans_le hn) hd3
    simp only [store, if_true, hstore, hlraised, hrraised, storeSelf, hwrite]
    exact ⟨trivial, by omega⟩

/-- A commit returns if the records of the staged map fit. -/
theorem BinaryDatabase.Running.commit_returns [LinearOrder α] {p : Pickle α} {n B : ℕ}
    {db : BinaryDatabase α} {c s : α → Option Bytes} (h : db.Running p c s)
    {items : List (α × Bytes)} (hitems : Represents items s) (hfits : ∀ e ∈ items, p.Fits n B e.1 e.2)
    (hn : n ≤ 256 ^ 4) (hB : db.disk.live.size + 2 * (n + recordHeaderBytes) * items.length ≤ B)
    (hB' : B < 256 ^ 8) (htxn : db.cached.txnId + 1 < 256 ^ 8) :
    ∃ db', BinaryDatabase.commit p db = .ok () db' ∧ db'.Running p s s := by
  obtain rfl := hitems.unique h.holds.represents
  obtain ⟨hraised, hsize⟩ :=
    h.staged.store_returns h.holds.ok.sized h.committed.size_ge hn hfits hB
  obtain ⟨stored, hrunning, hcached, ⟨hstore, hon⟩ | hstore⟩ := storeTree_spec h
  · have hdisk : stored.disk = (db.treeRef.store p db.disk).disk := by
      simp only [storeTree, hraised, EStateM.Result.ok.injEq, true_and] at hstore
      rw [← hstore]
    rw [← hdisk] at hsize
    have hge : 0 < stored.disk.live.size := Nat.lt_of_lt_of_le (by decide) hrunning.committed.size_ge
    have hlt := (hsize.trans hB).trans_lt hB'
    have hzero : (0 : ℤ) ≤ 0 ∧ (0 : ℤ).toNat < 256 ^ 8 := by decide
    rw [← hcached] at htxn
    obtain ⟨block, hblock⟩ : ∃ block,
        metaBlock p.crc32 (nextMeta stored stored.treeRef.address 0) = .ok block :=
      metaBlock_of_lt htxn ((hon.address_lt hge).trans hlt) hzero hlt
    exact commit_of_stored hrunning hstore hon hblock
  · simp only [storeTree, hraised] at hstore
    cases hstore

/-- A key of one character and a gigabyte behind it. -/
def wideKey (c : Char) : Text := c :: List.replicate (2 ^ 30) 'a'

theorem wideKey_lt {c c' : Char} (h : c < c') : wideKey c < wideKey c' := List.Lex.rel h

theorem length_wideKey (c : Char) : (wideKey c).length = 2 ^ 30 + 1 := by
  rw [wideKey, List.length_cons, List.length_replicate]

/-- A wide key of ASCII characters takes a byte for each. -/
theorem length_utf8_wideKey {c : Char} (hc : c.toNat < 128) :
    (Resp.utf8Encode (wideKey c)).length = 2 ^ 30 + 1 := by
  have hascii : ∀ {c : Char}, c.toNat < 128 → (String.utf8EncodeChar c).length = 1 := by
    intro c hc
    rcases Resp.utf8EncodeChar_cases c with ⟨-, heq⟩ | ⟨hge, -⟩
    · rw [heq, List.length_singleton]
    · omega
  have htail : ∀ n, (Resp.utf8Encode (.replicate n 'a')).length = n := by
    intro n
    rw [Resp.utf8Encode, List.length_flatMap, List.map_replicate, hascii (by decide), List.sum_replicate,
      smul_eq_mul, Nat.mul_one]
  rw [wideKey, Resp.utf8Encode, List.flatMap_cons, List.length_append, hascii hc, ← Resp.utf8Encode,
    htail, Nat.add_comm]

section

variable {E : Engine α} {codec : Codec α V} {h : Opened E}
variable {call : Call α V} {key : α} {state state' : E.State} {keys : List α}
variable {payload : Bytes} {s : α → Option Bytes}

theorem Engine.trace_ok {answer : Answer α V} {h' : Opened E}
    (hcall : E.call codec call h = .ok answer h') (calls : List (Call α V)) :
    E.trace codec h (call :: calls) = (call, .ok answer) :: E.trace codec h' calls := by
  rw [trace, hcall]

theorem Engine.trace_error {e : PyError} {h' : Opened E} (hcall : E.call codec call h = .error e h')
    (calls : List (Call α V)) :
    E.trace codec h (call :: calls) = (call, .error e) :: E.trace codec h' calls := by
  rw [trace, hcall]

/-- `__setitem__` of a handle that is open. -/
theorem Engine.call_setItem {value : V} (hvalid : codec.validKey key = true)
    (hencode : codec.encode value = .ok payload) (hset : E.set key payload state = .ok () state') :
    E.call codec (.setItem key value) ⟨state, false⟩ = .ok .done ⟨state', false⟩ := by
  simp [call, method, setItem, validateKey, hvalid, hencode, hset]

theorem Engine.call_contains {b : Bool} (hcontains : E.contains codec key state = .ok b state') :
    E.call codec (.contains key) ⟨state, false⟩ = .ok (.truth b) ⟨state', false⟩ := by
  simp [call, method, hcontains]

theorem Engine.call_commit (hcommit : E.commit state = .ok () state') :
    E.call codec .commit ⟨state, false⟩ = .ok .done ⟨state', false⟩ := by
  simp [call, method, hcommit]

theorem Engine.call_commit_error {e : PyError} (hcommit : E.commit state = .error e state') :
    E.call codec .commit ⟨state, false⟩ = .error e ⟨state', false⟩ := by
  simp [call, method, hcommit]

theorem Engine.call_reopen {closed : Bool}
    (hreopen : E.connect (E.blank (.powerOn (E.disk state).live)) = .ok () state') :
    E.call codec .reopen ⟨state, closed⟩ = .ok .done ⟨state', false⟩ := by
  simp [call, hreopen]

/-- Bindings of one value are staged, each of them from a state that meets `P`. -/
theorem Engine.trace_setItems [LinearOrder α] {E : Engine α} {value : V}
    {P : E.State → (α → Option Bytes) → Prop}
    (hset : ∀ {state s}, P state s → ∀ key, ∃ state', E.set key payload state = .ok () state' ∧
      P state' (update s key (some payload))) (hencode : codec.encode value = .ok payload)
    (hvalid : ∀ key ∈ keys, codec.validKey key = true) {state : E.State} (hP : P state s) :
    ∃ state' s', P state' s' ∧ (∀ key ∈ keys, s' key = some payload) ∧
      (∀ key ∉ keys, s' key = s key) ∧ ∀ calls,
        E.trace codec ⟨state, false⟩ (keys.map (.setItem · value) ++ calls) =
          keys.map (fun key => (.setItem key value, .ok .done)) ++
            E.trace codec ⟨state', false⟩ calls := by
  induction keys generalizing state s with
  | nil => exact ⟨state, s, hP, by simp, fun _ _ => rfl, fun calls => rfl⟩
  | cons key keys ih =>
    rw [List.forall_mem_cons] at hvalid
    obtain ⟨state1, hrun, hP1⟩ := hset hP key
    obtain ⟨state', s', hP', hkeys, hother, htrace⟩ := ih hvalid.2 hP1
    refine ⟨state', s', hP', ?_, ?_, fun calls => ?_⟩
    · rw [List.forall_mem_cons]
      refine ⟨?_, hkeys⟩
      by_cases hkey : key ∈ keys
      · exact hkeys key hkey
      · rw [hother key hkey, update_self]
    · intro x hx
      rw [List.mem_cons, not_or] at hx
      rw [hother x hx.2, update_of_ne hx.1]
    · rw [List.map_cons, List.cons_append, Engine.trace_ok (Engine.call_setItem hvalid.1 hencode hrun),
        htrace]
      rfl

theorem represents_keys [LinearOrder α] (h : keys.Pairwise (· < ·))
    (hkeys : ∀ key ∈ keys, s key = some payload) (hother : ∀ key ∉ keys, s key = none) :
    Represents (keys.map (·, payload)) s := by
  refine ⟨?_, fun key value => ?_⟩
  · rw [KeysIncrease, List.pairwise_map]
    exact h
  · by_cases hkey : key ∈ keys
    · simp [hkey, hkeys key hkey]
    · simp [hkey, hother key hkey]

/-- A leaf whose record is too long cannot be committed. -/
theorem Database.Running.commit_too_long [LinearOrder α] {ext : Externals α} {order : ℕ}
    {db : Database α} {c : α → Option Bytes} (h : Database.Running ext order db c s)
    {items : List (α × Bytes)} (hitems : Represents items s) (hne : items ≠ [])
    (hfew : items.length < 2 * (order / 2))
    (hlong : ∀ addresses, 256 ^ 4 ≤ (ext.dumps ⟨true, items.map Prod.fst, addresses⟩).length) :
    ∃ db', Database.commit ext db = .error .structError db' := by
  cases hrun : Database.commit ext db with
  | error e db' =>
    obtain ⟨rfl, -⟩ := Database.commit_error h.safe.committed h.holding hrun
    exact ⟨db', rfl⟩
  | ok _ db' =>
    -- the tree that has been published is one leaf, and its record stands on the file
    exfalso
    have hpub := Database.commit_published h.safe.committed h.holding hrun
    have hholds := (hpub.atMeta.holding hpub.committed.le hpub.committed).holds
    obtain rfl := hitems.unique hholds.represents
    cases hroot : db'.tree.treeRef with
    | none => exact hne (by rw [BPlusTree.items, hroot]; rfl)
    | some root =>
      have heq : db'.tree.items = root.items := by
        rw [BPlusTree.items, hroot]
        rfl
      obtain ⟨depth, hwf⟩ := hholds.ok.root_wf root hroot
      rw [hholds.order_eq] at hwf
      rw [heq] at hfew hlong
      obtain ⟨address, keys, values, rfl, haligned⟩ := hwf.leaf_of_few hfew
      rw [NodeRef.keys_of_items_leaf address haligned] at hlong
      have hrecord := (hpub.atMeta.onFile _ hroot).recordAt.length_lt
      exact absurd hrecord (hlong _).not_gt

theorem Engine.mem_of_mem_trace {E : Engine α} {h : Opened E} {calls : List (Call α V)}
    {r : Except PyError (Answer α V)} (hmem : (call, r) ∈ E.trace codec h calls) :
    call ∈ calls := by
  induction calls generalizing h with
  | nil => cases hmem
  | cons first calls ih =>
    obtain ⟨answer, h', htrace⟩ : ∃ answer h', E.trace codec h (first :: calls) =
        (first, answer) :: E.trace codec h' calls := by
      rw [trace]
      split <;> exact ⟨_, _, rfl⟩
    rw [htrace] at hmem
    rcases List.mem_cons.mp hmem with heq | hmem
    · rw [(Prod.mk.inj heq).1]
      exact .head _
    · exact .tail _ (ih hmem)

end

/-- Four keys of a gigabyte. -/
def wideKeys : List Text := ['a', 'b', 'c', 'd'].map wideKey

theorem wideKeys_increase : wideKeys.Pairwise (· < ·) := by
  have hchars : ['a', 'b', 'c', 'd'].Pairwise (· < ·) := by decide
  rw [wideKeys, List.pairwise_map]
  exact hchars.imp wideKey_lt

/-- The four keys, with empty values. -/
def wideItems : List (Text × Bytes) := wideKeys.map (·, [])

/-- The four keys are committed, and the first of them is looked for after the database has
been opened again. -/
def wideCalls : List (Call Text Bytes) :=
  wideKeys.map (.setItem · []) ++ [.commit, .reopen, .contains (wideKey 'a')]

theorem wideKeys_valid : ∀ key ∈ wideKeys, bytesCodec.validKey key = true := by
  intro key hkey
  obtain ⟨c, -, rfl⟩ := List.mem_map.mp hkey
  rfl

/-- The B+ tree keeps the keys in one record, which it cannot write. -/
theorem bplus_wideCalls :
    ∃ b, (bplusEngine textPickle.ext defaultOrder).connect (.blank defaultOrder (.powerOn .empty)) =
        .ok () b ∧
      (bplusEngine textPickle.ext defaultOrder).trace bytesCodec ⟨b, false⟩ wideCalls =
        wideKeys.map (fun key => (.setItem key [], .ok .done)) ++
          [(.commit, .error .structError), (.reopen, .ok .done),
            (.contains (wideKey 'a'), .ok (.truth false))] := by
  have hE := bplusEngine_implements textPickle.ext (by decide : 3 ≤ defaultOrder)
  obtain ⟨b, hnew, hR⟩ := hE.connect_new
  refine ⟨b, hnew, ?_⟩
  obtain ⟨b1, s, hR1, hkeys, hother, htrace⟩ := Engine.trace_setItems
    (E := bplusEngine textPickle.ext defaultOrder)
    (P := fun db s => Database.Running textPickle.ext defaultOrder db (fun _ => none) s)
    (fun hR key => hE.set hR key []) (rfl : bytesCodec.encode [] = _) wideKeys_valid hR
  have hlong : ∀ addresses, 256 ^ 4 ≤
      (textPickle.ext.dumps ⟨true, wideItems.map Prod.fst, addresses⟩).length := by
    intro addresses
    have hrecord := length_leaf_record true wideKeys addresses
    have hsum : (wideKeys.map List.length).sum = 4 * (2 ^ 30 + 1) := by
      simp only [wideKeys, List.map_cons, List.map_nil, length_wideKey, List.sum_cons, List.sum_nil]
      norm_num
    rw [wideItems, List.map_map, Function.comp_def, List.map_id']
    omega
  obtain ⟨b2, hcommit⟩ := hR1.commit_too_long (represents_keys wideKeys_increase hkeys hother)
    (by simp [wideKeys]) (by decide) hlong
  have hR2 : Database.Running textPickle.ext defaultOrder b2 _ _ := hR1.commitRaises hcommit
  obtain ⟨b3, hreopen, hR3⟩ := hE.reopen hR2
  obtain ⟨b4, hcontains, -⟩ : ∃ b4, (bplusEngine textPickle.ext defaultOrder).contains
      bytesCodec (wideKey 'a') b3 = .ok false b4 ∧ _ := hE.contains_eq hR3 (wideKey 'a')
  have hcommit' : (bplusEngine textPickle.ext defaultOrder).commit b1 = .error .structError b2 :=
    hcommit
  rw [wideCalls, htrace, Engine.trace_error (Engine.call_commit_error hcommit'),
    Engine.trace_ok (Engine.call_reopen hreopen),
    Engine.trace_ok (Engine.call_contains hcontains)]
  rfl

/-- The records of the wide keys can be written. -/
theorem fits_wideItems : ∀ e ∈ wideItems, textPickle.Fits (256 ^ 4) (256 ^ 5) e.1 e.2 := by
  intro e he
  obtain ⟨key, hkey, rfl⟩ := List.mem_map.mp he
  obtain ⟨c, hc, rfl⟩ := List.mem_map.mp hkey
  have hwide := length_utf8_wideKey
    ((by simp : ∀ c ∈ ['a', 'b', 'c', 'd'], c.toNat < 128) c hc)
  refine ⟨(by decide : ([] : Bytes).length < 256 ^ 4), fun l v r k hl hv hr hk => ?_⟩
  have hrecord := length_binary_record (by omega : (Resp.utf8Encode (wideKey c)).length < _) (hl.trans (by norm_num))
    (hv.trans (by norm_num)) (hr.trans (by norm_num)) (hk.trans (by norm_num))
  exact hrecord.trans_lt (by omega)

/-- The binary tree commits all the keys. -/
theorem binary_wideCalls :
    ∃ t, (binaryEngine textPickle).connect (.blank (.powerOn .empty)) = .ok () t ∧
      (binaryEngine textPickle).trace bytesCodec ⟨t, false⟩ wideCalls =
        wideKeys.map (fun key => (.setItem key [], .ok .done)) ++
          [(.commit, .ok .done), (.reopen, .ok .done),
            (.contains (wideKey 'a'), .ok (.truth true))] := by
  have hE := binaryEngine_implements textPickle
  obtain ⟨t, hnew, hR, hsize, hmeta⟩ := BinaryDatabase.connect_new_running textPickle
  refine ⟨t, hnew, ?_⟩
  obtain ⟨t1, s, ⟨hR1, hdisk, hcached⟩, hkeys, hother, htrace⟩ := Engine.trace_setItems
    (E := binaryEngine textPickle)
    (P := fun db s => BinaryDatabase.Running textPickle db (fun _ => none) s ∧ db.disk = t.disk ∧
      db.cached = t.cached) (fun hP key => by
        obtain ⟨db', hrun, hR', hdisk, hcached⟩ := hP.1.set key []
        exact ⟨db', hrun, hR', hdisk.trans hP.2.1, hcached.trans hP.2.2⟩)
    (rfl : bytesCodec.encode [] = _) wideKeys_valid ⟨hR, rfl, rfl⟩
  obtain ⟨t2, hcommit, hR2⟩ := hR1.commit_returns (represents_keys wideKeys_increase hkeys hother)
    fits_wideItems le_rfl (by rw [hdisk, hsize]; decide) (by decide) (by rw [hcached, hmeta]; decide)
  obtain ⟨t3, hreopen, hR3⟩ := hE.reopen hR2
  obtain ⟨t4, hcontains, -⟩ : ∃ t4, (binaryEngine textPickle).contains bytesCodec (wideKey 'a') t3 =
      _ ∧ _ := hE.contains_eq hR3 (wideKey 'a')
  have hmem : wideKey 'a' ∈ wideKeys := .head _
  rw [mapGet, if_pos (wideKeys_valid _ hmem), hkeys _ hmem] at hcontains
  have hcommit' : (binaryEngine textPickle).commit t1 = .ok () t2 := hcommit
  rw [wideCalls, htrace, Engine.trace_ok (Engine.call_commit hcommit'),
    Engine.trace_ok (Engine.call_reopen hreopen),
    Engine.trace_ok (Engine.call_contains (b := true) hcontains)]
  rfl

/-- One short key is committed, looked for after the database has been opened again, and
audited. -/
def sampleCalls : List (Call Text Bytes) :=
  [.setItem ['k'] [7], .commit, .reopen, .contains ['k'], .audit]

/-- A run of the sample calls whose commit returns. -/
theorem sampleCalls_commit {E : Engine Text} {state state1 state2 : E.State}
    (hset : E.set ['k'] [7] state = .ok () state1) (hcommit : E.commit state1 = .ok () state2) :
    (.commit, .error .structError) ∉ E.trace bytesCodec ⟨state, false⟩ sampleCalls := by
  intro hmem
  rw [sampleCalls, Engine.trace_ok (Engine.call_setItem rfl rfl hset),
    Engine.trace_ok (Engine.call_commit hcommit)] at hmem
  have hrest : Call.commit ∈ ([.reopen, .contains ['k'], .audit] : List (Call Text Bytes)) := by
    apply Engine.mem_of_mem_trace
    simpa using hmem
  simp at hrest

/-- The record of the short key in the binary tree is short. -/
theorem length_sample_record {l v r n : ℕ} (hl : l < 256 ^ 2) (hv : v < 256 ^ 2) (hr : r < 256 ^ 2)
    (hn : n < 256 ^ 2) : (textPickle.dumps (.binary ⟨l, ['k'], v, r, n⟩)).length < 100 := by
  have hk : (Resp.utf8Encode ['k']).length = 1 := by decide
  have hrecord := length_binary_record (by rw [hk]; norm_num) (hl.trans (by norm_num))
    (hv.trans (by norm_num)) (hr.trans (by norm_num)) (hn.trans (by norm_num))
  rw [hk] at hrecord
  omega

/-- With the B+ tree the short key is committed. -/
theorem bplus_sample_commit {b : Database Text}
    (hnew : Database.connect textPickle.ext (.blank defaultOrder (.powerOn .empty)) = .ok () b) :
    ∃ b1 b2 : Database Text,
      (bplusEngine textPickle.ext defaultOrder).set ['k'] [7] b = .ok () b1 ∧
      (bplusEngine textPickle.ext defaultOrder).commit b1 = .ok () b2 := by
  obtain ⟨d, t, hnew', hc, hat, -, hsize⟩ :=
    Database.connect_new textPickle.ext (by decide : 3 ≤ defaultOrder)
  obtain rfl : _ = b := (EStateM.Result.ok.inj (hnew'.symm.trans hnew)).2
  have hfew := @Few.update Text _ _ _ (few_empty [['k']]) ['k'] (by decide) (some [7]) (by decide)
  have hattached : Database.Attached textPickle.ext defaultOrder ⟨d, initialMeta, false, t⟩
      initialMeta (fun _ => none) fun _ => none := .of_unlocked hc hat.order_eq rfl
  obtain ⟨b1, b2, hset, -, -, hcommit, -⟩ := hattached.set_commit ['k'] [7]
    (hfew.short injective_id (by decide) (by decide)) (roomy_new hc hsize)
  exact ⟨b1, b2, hset, hcommit⟩

/-- With the binary tree the short key is committed. -/
theorem binary_sample_commit {t : BinaryDatabase Text}
    (hnew : BinaryDatabase.connect textPickle (.blank (.powerOn .empty)) = .ok () t) :
    ∃ t1 t2 : BinaryDatabase Text, (binaryEngine textPickle).set ['k'] [7] t = .ok () t1 ∧
      (binaryEngine textPickle).commit t1 = .ok () t2 := by
  obtain ⟨t', hnew', hR, hsize, hmeta⟩ := BinaryDatabase.connect_new_running textPickle
  obtain rfl : t' = t := (EStateM.Result.ok.inj (hnew'.symm.trans hnew)).2
  obtain ⟨t1, hset, hR1, hdisk, hcached⟩ := hR.set ['k'] [7]
  obtain ⟨t2, hcommit, -⟩ := hR1.commit_returns (n := 100) (B := 256 ^ 2) (.single ['k'] [7])
    (List.forall_mem_singleton.mpr ⟨by decide, fun _ _ _ _ => length_sample_record⟩) (by decide)
    (by rw [hdisk, hsize]; decide) (by decide) (by rw [hcached, hmeta]; decide)
  exact ⟨t1, t2, hset, hcommit⟩

/-! ## Equivalence -/

/-- **The two index engines are observationally equivalent.**  Two new databases, one
with each engine, answer any sequence of calls alike: the same values, the same keys in
the same order, `KeyError` for the same calls, and clean audits, as long as no commit
raises `struct.error`. -/
theorem engines_equivalent [LinearOrder α] (p : Pickle α) (codec : Codec α V) :
    ∃ b t, (bplusEngine p.ext defaultOrder).connect (.blank defaultOrder (.powerOn .empty)) =
        .ok () b ∧
      (binaryEngine p).connect (.blank (.powerOn .empty)) = .ok () t ∧
      ∀ calls : List (Call α V),
        (.commit, .error .structError) ∉
          (bplusEngine p.ext defaultOrder).trace codec ⟨b, false⟩ calls →
        (.commit, .error .structError) ∉ (binaryEngine p).trace codec ⟨t, false⟩ calls →
        (bplusEngine p.ext defaultOrder).trace codec ⟨b, false⟩ calls =
            (binaryEngine p).trace codec ⟨t, false⟩ calls ∧
          ∀ r, (.audit, r) ∈ (binaryEngine p).trace codec ⟨t, false⟩ calls →
            r = .ok (.truth true) ∨ r = .error .databaseClosedError := by
  have hbplus := bplusEngine_implements p.ext (by decide : 3 ≤ defaultOrder)
  have hbinary := binaryEngine_implements p
  obtain ⟨b, hb, hRb⟩ := hbplus.connect_new
  obtain ⟨t, ht, hRt⟩ := hbinary.connect_new
  refine ⟨b, t, hb, ht, fun calls hcb hct => ?_⟩
  set v : Versioned α := ⟨fun _ => none, fun _ => none, false⟩
  have hsb : Engine.Shows (fun db c s => Database.Running p.ext defaultOrder db c s)
      ⟨b, false⟩ v := ⟨hRb, rfl⟩
  have hst : Engine.Shows (fun db c s => BinaryDatabase.Running p db c s) ⟨t, false⟩ v := ⟨hRt, rfl⟩
  have htb := hbplus.trace_eq hsb hcb
  have htt := hbinary.trace_eq hst hct
  refine ⟨htb.trans htt.symm, fun r hr => ?_⟩
  rw [htt] at hr
  exact v.audit_of_mem_trace codec hr

theorem engines_equivalent_sample :
    ∃ b t, (bplusEngine textPickle.ext defaultOrder).connect
        (.blank defaultOrder (.powerOn .empty)) = .ok () b ∧
      (binaryEngine textPickle).connect (.blank (.powerOn .empty)) = .ok () t ∧
      (.commit, .error .structError) ∉
        (bplusEngine textPickle.ext defaultOrder).trace bytesCodec ⟨b, false⟩ sampleCalls ∧
      (.commit, .error .structError) ∉
        (binaryEngine textPickle).trace bytesCodec ⟨t, false⟩ sampleCalls ∧
      (bplusEngine textPickle.ext defaultOrder).trace bytesCodec ⟨b, false⟩ sampleCalls =
        (binaryEngine textPickle).trace bytesCodec ⟨t, false⟩ sampleCalls := by
  obtain ⟨b, t, hb, ht, hall⟩ := engines_equivalent textPickle bytesCodec
  obtain ⟨b1, b2, hset_b, hcommit_b⟩ := bplus_sample_commit hb
  obtain ⟨t1, t2, hset_t, hcommit_t⟩ := binary_sample_commit ht
  have hcb := sampleCalls_commit hset_b hcommit_b
  have hct := sampleCalls_commit hset_t hcommit_t
  exact ⟨b, t, hb, ht, hcb, hct, (hall sampleCalls hcb hct).1⟩

/-- The engines answer differently once a record of the B+ tree is too long: after the
commit and the reopening the key is there with one, and absent with the other. -/
theorem engines_differ_on_wide_keys :
    ∃ b t, (bplusEngine textPickle.ext defaultOrder).connect
        (.blank defaultOrder (.powerOn .empty)) = .ok () b ∧
      (binaryEngine textPickle).connect (.blank (.powerOn .empty)) = .ok () t ∧
      (.contains (wideKey 'a'), .ok (.truth false)) ∈
        (bplusEngine textPickle.ext defaultOrder).trace bytesCodec ⟨b, false⟩ wideCalls ∧
      (.contains (wideKey 'a'), .ok (.truth true)) ∈
        (binaryEngine textPickle).trace bytesCodec ⟨t, false⟩ wideCalls ∧
      (bplusEngine textPickle.ext defaultOrder).trace bytesCodec ⟨b, false⟩ wideCalls ≠
        (binaryEngine textPickle).trace bytesCodec ⟨t, false⟩ wideCalls := by
  obtain ⟨b, hb, htb⟩ := bplus_wideCalls
  obtain ⟨t, ht, htt⟩ := binary_wideCalls
  refine ⟨b, t, hb, ht, ?_, ?_, ?_⟩
  · rw [htb]
    simp
  · rw [htt]
    simp
  · rw [htb, htt]
    simp
