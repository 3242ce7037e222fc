/-
# What the methods of a collection do

On a handle that stores a map, a method of a collection acts on that map: `set`, `delete`
and `create_index` are one transaction each, which assigns a list of keys.  The keys of
documents, of index entries and of expiry records never meet, and an index entry
determines its field and its document as long as no indexed field name continues another
one with NUL.
-/
import ImmuStore.Collection
import ImmuStore.StoreSpec

variable {V T : Type} {json : Json V T}
variable {key x key' f g field : Text} {names : Set Text} {s items : Text → Option V}
variable {l : List (Text × Option V)} {fields : List Text}

/-! ## Keys -/

/-- The keys that `_check_key` accepts. -/
def DocKey (key : Text) : Prop := key ≠ [] ∧ ¬ reserved <+: key

/-- The check passes document keys only. -/
theorem checkKey_eq_ok_iff : checkKey key = .ok () ↔ DocKey key := by
  unfold checkKey DocKey
  by_cases hnil : key = []
  · simp [hnil]
  · by_cases hres : reserved <+: key
    · simp [hnil, hres, List.isPrefixOf_iff_prefix]
    · simp [hnil, hres, List.isPrefixOf_iff_prefix]

theorem checkKey_of_not (h : ¬ DocKey key) : checkKey key = .error .valueError := by
  rw [← checkKey_eq_ok_iff] at h
  unfold checkKey at h ⊢
  split_ifs at h ⊢ <;> first | rfl | exact absurd rfl h

theorem reserved_indexKey (field : Text) (value : V) (key : Text) :
    reserved <+: indexKey json field value key := by
  simp [reserved, indexKey, indexPrefix]

theorem reserved_expiryKey (key : Text) : reserved <+: expiryKey key := by
  simp [reserved, expiryKey, expiryPrefix]

theorem DocKey.ne_indexKey (h : DocKey key) (field : Text) (value : V) (key' : Text) :
    key ≠ indexKey json field value key' := by
  rintro rfl
  exact h.2 (reserved_indexKey ..)

theorem DocKey.ne_expiryKey (h : DocKey key) (key' : Text) :
    key ≠ expiryKey key' := by
  rintro rfl
  exact h.2 (reserved_expiryKey _)

theorem indexKey_ne_expiryKey (field : Text) (value : V) (key key' : Text) :
    indexKey json field value key ≠ expiryKey key' := by
  simp [indexKey, indexPrefix, expiryKey, expiryPrefix]

theorem expiryKey_inj : expiryKey key = expiryKey key' ↔ key = key' := by
  simp [expiryKey]

theorem indexKey_ne_nil (json : Json V T) (field : Text) (value : V) (key : Text) :
    indexKey json field value key ≠ [] := by
  simp [indexKey, indexPrefix]

theorem expiryKey_ne_nil (key : Text) : expiryKey key ≠ [] := by
  simp [expiryKey, expiryPrefix]

/-- A token is free of NUL. -/
theorem nul_not_mem_valueToken (value : V) : nul ∉ valueToken json value :=
  json.nul_not_mem_dumps _

/-- No name continues another one with NUL. -/
def Separated (names : Set Text) : Prop := ∀ f ∈ names, ∀ g ∈ names, ¬ (f ++ [nul]) <+: g

theorem separated_of_no_nul : Separated {f | nul ∉ f} := by
  rintro f - g hg ⟨rest, rfl⟩
  exact hg (by simp)

/-- A name, and what follows it behind a NUL. -/
theorem Separated.eq_of_append (h : Separated names) {rest rest' : Text} (hf : f ∈ names)
    (hg : g ∈ names) (heq : f ++ nul :: rest = g ++ nul :: rest') :
    f = g ∧ rest = rest' := by
  rcases List.append_eq_append_iff.mp heq with ⟨a, rfl, ha⟩ | ⟨a, rfl, ha⟩
  · cases a with
    | nil => exact ⟨(List.append_nil f).symm, by simpa using ha⟩
    | cons x a =>
      cases ha
      exact absurd ⟨a, by simp⟩ (h f hf _ hg)
  · cases a with
    | nil => exact ⟨List.append_nil g, by simpa using ha.symm⟩
    | cons x a =>
      cases ha
      exact absurd ⟨a, by simp⟩ (h g hg _ hf)

/-- An index entry determines its field, the token of its value and its document. -/
theorem Separated.indexKey_inj (h : Separated names) {v w : V} (hf : f ∈ names) (hg : g ∈ names)
    (heq : indexKey json f v key = indexKey json g w key') :
    f = g ∧ valueToken json v = valueToken json w ∧ key = key' := by
  simp only [indexKey, List.append_assoc, List.append_cancel_left_eq, List.singleton_append] at heq
  obtain ⟨rfl, hrest⟩ := h.eq_of_append hf hg heq
  obtain ⟨htoken, rfl⟩ :=
    eq_of_append_mark (nul_not_mem_valueToken v) (nul_not_mem_valueToken w) hrest
  exact ⟨rfl, htoken, rfl⟩

/-- An entry under the scan prefix of a field is an entry of that field. -/
theorem Separated.of_scanPrefix (h : Separated names) {v w : V} (hf : f ∈ names) (hg : g ∈ names)
    (hpre : indexScanPrefix json f v <+: indexKey json g w key) :
    f = g ∧ valueToken json v = valueToken json w := by
  obtain ⟨rest, hrest⟩ := hpre
  have heq : indexKey json f v rest = indexKey json g w key := hrest
  obtain ⟨rfl, htoken, -⟩ := h.indexKey_inj hf hg heq
  exact ⟨rfl, htoken⟩

/-! ## Assigning several keys -/

/-- The map after assigning the pairs of a list, one after the other. -/
def assignAll (s : Text → Option V) (l : List (Text × Option V)) : Text → Option V :=
  l.foldl (fun s e => assign s e.1 e.2) s

@[simp] theorem assignAll_cons (s : Text → Option V) (e : Text × Option V)
    (l : List (Text × Option V)) : assignAll s (e :: l) = assignAll (assign s e.1 e.2) l := rfl

theorem assignAll_of_not_mem (h : ∀ e ∈ l, e.1 ≠ x) : assignAll s l x = s x := by
  induction l generalizing s with
  | nil => rfl
  | cons e l ih =>
    rw [assignAll_cons, ih fun e he => h e (.tail _ he),
      assign_of_ne (h e (.head _)).symm]

/-- A key that is assigned one value only. -/
theorem assignAll_of_mem {value : Option V} (hmem : (x, value) ∈ l)
    (h : ∀ e ∈ l, e.1 = x → e.2 = value) :
    assignAll s l x = value := by
  induction l generalizing s with
  | nil => cases hmem
  | cons e l ih =>
    rw [assignAll_cons]
    by_cases hrest : ∃ e' ∈ l, e'.1 = x
    · obtain ⟨⟨_, value'⟩, he', rfl⟩ := hrest
      obtain rfl := h _ (.tail _ he') rfl
      exact ih he' fun e he => h e (.tail _ he)
    · have hother : ∀ e' ∈ l, e'.1 ≠ x := fun e' he' hx => hrest ⟨e', he', hx⟩
      rw [assignAll_of_not_mem hother]
      rcases List.mem_cons.mp hmem with rfl | hmem
      · exact assign_self
      · exact absurd rfl (hother _ hmem)

/-- The index entries of a document. -/
def entriesOf (json : Json V T) (fields : List Text) (items : Text → Option V) (key : Text) :
    List Text :=
  fields.filterMap fun field => (items field).map fun value => indexKey json field value key

/-- One entry for each indexed field of the document. -/
theorem mem_entriesOf :
    x ∈ entriesOf json fields items key ↔
      ∃ field ∈ fields, ∃ value, items field = some value ∧ x = indexKey json field value key := by
  simp only [entriesOf, List.mem_filterMap, Option.map_eq_some_iff]
  constructor
  · rintro ⟨field, hfield, value, hvalue, rfl⟩
    exact ⟨field, hfield, value, hvalue, rfl⟩
  · rintro ⟨field, hfield, value, hvalue, rfl⟩
    exact ⟨field, hfield, value, hvalue, rfl⟩

theorem entriesOf_cons_none (h : items field = none) (fields : List Text) (key : Text) :
    entriesOf json (field :: fields) items key = entriesOf json fields items key := by
  simp only [entriesOf, List.filterMap_cons, h, Option.map_none]

theorem entriesOf_cons_some {value : V} (h : items field = some value) (fields : List Text)
    (key : Text) :
    entriesOf json (field :: fields) items key =
      indexKey json field value key :: entriesOf json fields items key := by
  simp only [entriesOf, List.filterMap_cons, h, Option.map_some]

/-- The index entries of the document that is stored under a key. -/
def oldEntries (json : Json V T) (fields : List Text) (s : Text → Option V) (key : Text) :
    List Text :=
  match (s key).bind json.asDict with
  | none => []
  | some items => entriesOf json fields items key

theorem mem_oldEntries :
    x ∈ oldEntries json fields s key ↔
      ∃ document items, s key = some document ∧ json.asDict document = some items ∧
        ∃ field ∈ fields, ∃ value, items field = some value ∧ x = indexKey json field value key := by
  unfold oldEntries
  cases s key with
  | none => simp
  | some document =>
    cases hdict : json.asDict document with
    | none => simp [hdict]
    | some items => simp [hdict, mem_entriesOf]

/-- The index entries that a document would have under a key. -/
def documentEntries (json : Json V T) (fields : List Text) (key : Text) (document : V) : List Text :=
  match json.asDict document with
  | none => []
  | some items => entriesOf json fields items key

theorem oldEntries_eq (fields : List Text) (s : Text → Option V) (key : Text) :
    oldEntries json fields s key = documentEntries json fields key ((s key).getD json.null) := by
  unfold oldEntries documentEntries
  cases s key with
  | none => simp [json.asDict_null]
  | some document => rfl

/-- What `set` makes of the map. -/
def setMap (json : Json V T) (fields : List Text) (key : Text) (document : V)
    (items : Text → Option V) (expiry : Option V) (s : Text → Option V) : Text → Option V :=
  let unindexed := assignAll s ((oldEntries json fields s key).map fun x => (x, none))
  let written := assign unindexed key (some document)
  let indexed := assignAll written
    ((entriesOf json fields items key).map fun x => (x, some (json.str key)))
  assign indexed (expiryKey key) expiry

/-- What `delete` makes of the map if it has read the document before. -/
def deleteReadMap (json : Json V T) (fields : List Text) (key : Text) (document : V)
    (s : Text → Option V) : Text → Option V :=
  let unindexed := assignAll s ((documentEntries json fields key document).map fun x => (x, none))
  assign (assign unindexed key none) (expiryKey key) none

/-- What `delete` makes of the map. -/
def deleteMap (json : Json V T) (fields : List Text) (key : Text) (s : Text → Option V) :
    Text → Option V :=
  let unindexed := assignAll s ((oldEntries json fields s key).map fun x => (x, none))
  assign (assign unindexed key none) (expiryKey key) none

/-- No document is stored under the key of an index entry. -/
theorem unindexed_key (json : Json V T) (fields : List Text) (hkey : DocKey key)
    (document : V) (s : Text → Option V) :
    assignAll s ((documentEntries json fields key document).map fun x => (x, none)) key = s key := by
  apply assignAll_of_not_mem
  intro e he heq
  obtain ⟨x, hx, rfl⟩ := List.mem_map.mp he
  unfold documentEntries at hx
  cases hitems : json.asDict document with
  | none => simp [hitems] at hx
  | some items =>
    rw [hitems] at hx
    obtain ⟨field, -, value, -, hindex⟩ := mem_entriesOf.mp hx
    exact hkey.ne_indexKey field value _ (heq.symm.trans hindex)

/-- The entries that `create_index` writes for the documents under some keys. -/
def backfillEntries (json : Json V T) (field : Text) (s : Text → Option V) (keys : List Text) :
    List (Text × Option V) :=
  keys.filterMap fun key => ((s key).bind json.asDict >>= fun items => items field).map
    fun value => (indexKey json field value key, some (json.str key))

/-! ## Reads -/

/-- The codec of a collection is its `json`. -/
theorem Json.roundTrips (json : Json V T) : json.codec.RoundTrips json.encode :=
  ⟨fun _ => rfl, json.decode_encode⟩

theorem Json.validKey_iff : json.codec.validKey key = true ↔ key ≠ [] := by
  cases key <;> simp [Json.codec]

namespace Collection

variable {ext : Externals Text} {order : ℕ} {db : Handle Text} {d : Disk} {s s' : Text → Option V}
  {fields : List Text} {clock : ℕ → T} {key : Text}
variable {db' : Handle Text}

theorem onDb_ok {β : Type} {x : Py (Handle Text) β} {b : β} (h : x db = .ok b db') :
    onDb x ⟨db, fields, clock⟩ = .ok b ⟨db', fields, clock⟩ := by
  rw [onDb, h]

theorem onDb_error {β : Type} {x : Py (Handle Text) β} {e : PyError}
    (h : x db = .error e db') :
    onDb x ⟨db, fields, clock⟩ = .error e ⟨db', fields, clock⟩ := by
  rw [onDb, h]

section Reads

variable (hs : db.Stores ext order json.encode d s) (fields : List Text) (clock : ℕ → T)
include hs

/-- A lookup returns the value or `None`. -/
theorem dbGet_spec (hkey : key ≠ []) :
    ∃ db', db'.Stores ext order json.encode d s ∧
      dbGet ext json key ⟨db, fields, clock⟩ = .ok ((s key).getD json.null) ⟨db', fields, clock⟩ := by
  obtain ⟨db', hs', hget⟩ := hs.get json.roundTrips (Json.validKey_iff.mpr hkey) json.null
  exact ⟨db', hs', onDb_ok hget⟩

theorem dbItem_spec (hkey : key ≠ []) {value : V} (hvalue : s key = some value) :
    ∃ db', db'.Stores ext order json.encode d s ∧
      dbItem ext json key ⟨db, fields, clock⟩ = .ok value ⟨db', fields, clock⟩ := by
  obtain ⟨db', hs', hget⟩ := hs.getItem json.roundTrips (Json.validKey_iff.mpr hkey)
  rw [hvalue] at hget
  exact ⟨db', hs', onDb_ok hget⟩

/-- A missing key raises `KeyError`. -/
theorem dbItem_absent (hkey : key ≠ []) (habsent : s key = none) :
    ∃ db', db'.Stores ext order json.encode d s ∧
      dbItem ext json key ⟨db, fields, clock⟩ = .error .keyError ⟨db', fields, clock⟩ := by
  obtain ⟨db', hs', hget⟩ := hs.getItem json.roundTrips (Json.validKey_iff.mpr hkey)
  rw [habsent] at hget
  exact ⟨db', hs', onDb_error hget⟩

/-- The keys are listed, -/
theorem dbKeys_spec :
    ∃ db' l, db'.Stores ext order json.encode d s ∧ Represents l s ∧
      dbKeys ext json ⟨db, fields, clock⟩ = .ok (l.map Prod.fst) ⟨db', fields, clock⟩ := by
  obtain ⟨db', l, hs', hl, hkeys⟩ := hs.keys json.roundTrips
  exact ⟨db', l, hs', hl, onDb_ok hkeys⟩

/-- and those with a prefix scanned. -/
theorem dbScan_spec {pre : Text} (hpre : pre ≠ []) :
    ∃ db' l, db'.Stores ext order json.encode d s ∧ Represents l s ∧
      dbScan ext json pre ⟨db, fields, clock⟩ =
        .ok (l.filter fun e => pre.isPrefixOf e.1) ⟨db', fields, clock⟩ := by
  have hvalid : ∀ p ∈ some pre, json.codec.validKey p = true := by
    intro p hp
    obtain rfl := Option.mem_some_iff.mp hp
    exact Json.validKey_iff.mpr hpre
  obtain ⟨db', l, hs', hl, hscan⟩ := hs.scan json.roundTrips hvalid
  exact ⟨db', l, hs', hl, onDb_ok hscan⟩

end Reads

/-- Every expiry record is a number. -/
def Timed (json : Json V T) (s : Text → Option V) : Prop :=
  ∀ key value, s (expiryKey key) = some value → ∃ t, value = json.number t

section Expiry

variable [DecidableEq V] [LE T] [DecidableLE T]

omit [DecidableEq V] in
/-- Whether a key has expired at a time. -/
def expiredAt (json : Json V T) (s : Text → Option V) (key : Text) (now : T) : Bool :=
  match (s (expiryKey key)).bind json.asNumber with
  | none => false
  | some expiry => decide (expiry ≤ now)

variable (hs : db.Stores ext order json.encode d s) (fields : List Text) (clock : ℕ → T)
  (htimed : Timed json s)
include hs htimed

/-- `_is_expired` reads the clock if there is an expiry record. -/
theorem isExpired_eq (key : Text) :
    ∃ db', db'.Stores ext order json.encode d s ∧
      isExpired ext json key ⟨db, fields, clock⟩ = .ok (expiredAt json s key (clock 0))
        ⟨db', fields, fun i => clock (i + if (s (expiryKey key)).isSome then 1 else 0)⟩ := by
  obtain ⟨db', hs', hget⟩ := dbGet_spec hs fields clock (expiryKey_ne_nil key)
  refine ⟨db', hs', ?_⟩
  cases hexpiry : s (expiryKey key) with
  | none => simp [isExpired, hget, hexpiry, expiredAt]
  | some value =>
    obtain ⟨t, rfl⟩ := htimed key value hexpiry
    have hne : json.number t ≠ json.null := by
      intro heq
      have hnone := json.asNumber_null
      rw [← heq, json.asNumber_number] at hnone
      cases hnone
    simp [isExpired, hget, hexpiry, expiredAt, hne, readClock, json.asNumber_number]

/-- `_is_expired`, at the next reading of the clock; a key that has expired has had the
clock read. -/
theorem isExpired_spec (key : Text) :
    ∃ db' n, db'.Stores ext order json.encode d s ∧
      (expiredAt json s key (clock 0) = true → 0 < n) ∧
      isExpired ext json key ⟨db, fields, clock⟩ =
        .ok (expiredAt json s key (clock 0)) ⟨db', fields, fun i => clock (i + n)⟩ := by
  obtain ⟨db', hs', hrun⟩ := isExpired_eq hs fields clock htimed key
  refine ⟨db', _, hs', fun hexpired => ?_, hrun⟩
  cases hexpiry : s (expiryKey key) with
  | none => simp [expiredAt, hexpiry] at hexpired
  | some value => simp

/-- `keys` drops the reserved keys, and those that have expired when they are met. -/
theorem visibleKeys_spec (keys : List Text) :
    ∃ db' n l, db'.Stores ext order json.encode d s ∧
      visibleKeys ext json keys ⟨db, fields, clock⟩ = .ok l ⟨db', fields, fun i => clock (i + n)⟩ ∧
      (∀ key ∈ l, key ∈ keys ∧ ¬ reserved <+: key) ∧
      ∀ key ∈ keys, ¬ reserved <+: key →
        key ∈ l ∨ ∃ i < n, expiredAt json s key (clock i) = true := by
  induction keys generalizing db clock with
  | nil => exact ⟨db, 0, [], hs, rfl, by simp, by simp⟩
  | cons key keys ih =>
    by_cases hres : reserved <+: key
    · obtain ⟨db', n, l, hs', hrun, hl, hkeys⟩ := ih hs clock
      refine ⟨db', n, l, hs', ?_, fun k hk => ⟨.tail _ (hl k hk).1, (hl k hk).2⟩, ?_⟩
      · rw [visibleKeys, if_pos (List.isPrefixOf_iff_prefix.mpr hres)]
        exact hrun
      · intro k hk hkres
        rcases List.mem_cons.mp hk with rfl | hk
        · exact absurd hres hkres
        · exact hkeys k hk hkres
    · have hnot : reserved.isPrefixOf key = false := by
        rw [Bool.eq_false_iff, ne_eq, List.isPrefixOf_iff_prefix]
        exact hres
      obtain ⟨db1, m, hs1, hread, hexpired⟩ := isExpired_spec hs fields clock htimed key
      obtain ⟨db', n, l, hs', hrun, hl, hkeys⟩ := ih hs1 fun i => clock (i + m)
      have hclock : (fun i => clock (i + n + m)) = fun i => clock (i + (n + m)) := by
        funext i
        rw [Nat.add_assoc]
      -- the readings for the later keys come behind those for the first
      have hrest : ∀ k ∈ keys, ¬ reserved <+: k →
          k ∈ l ∨ ∃ i < n + m, expiredAt json s k (clock i) = true := by
        intro k hk hkres
        rcases hkeys k hk hkres with hmem | ⟨i, hi, hexp⟩
        · exact .inl hmem
        · exact .inr ⟨i + m, by omega, hexp⟩
      refine ⟨db', n + m, if expiredAt json s key (clock 0) then l else key :: l, hs', ?_, ?_, ?_⟩
      · simp only [visibleKeys, hnot, Bool.false_eq_true, if_false, run_bind, hexpired, hrun, hclock,
          run_pure]
      · intro k hk
        have hcons : k ∈ l ∨ k = key := by
          split_ifs at hk
          · exact .inl hk
          · exact (List.mem_cons.mp hk).symm
        rcases hcons with hk | rfl
        · exact ⟨.tail _ (hl k hk).1, (hl k hk).2⟩
        · exact ⟨.head _, hres⟩
      · intro k hk hkres
        rcases List.mem_cons.mp hk with rfl | hk
        · cases hexp : expiredAt json s k (clock 0) with
          | true =>
            have := hread hexp
            exact .inr ⟨0, by omega, hexp⟩
          | false => exact .inl (by simp)
        · rcases hrest k hk hkres with hmem | hexp
          · refine .inl ?_
            split_ifs
            · exact hmem
            · exact .tail _ hmem
          · exact .inr hexp

end Expiry

/-! ## Transactions -/

theorem onBase_ok {β : Type} {x : ℕ → File → Except PyError β} {b : β}
    (hs : db.Stores ext order json.encode d s) (h : x order d.live = .ok b) :
    onBase x ⟨db, fields, clock⟩ = .ok b ⟨db, fields, clock⟩ := by
  simp only [onBase, hs.order_eq, hs.disk_eq, h]

theorem onBase_error {β : Type} {x : ℕ → File → Except PyError β} {e : PyError}
    (hs : db.Stores ext order json.encode d s) (h : x order d.live = .error e) :
    onBase x ⟨db, fields, clock⟩ = .error e ⟨db, fields, clock⟩ := by
  simp only [onBase, hs.order_eq, hs.disk_eq, h]

/-- What a method that writes does on the file `d`: its transaction is committed, or
something is too long to be written and the map stays as it was. -/
inductive Writes (ext : Externals Text) (json : Json V T) (order : ℕ) (d : Disk)
    (s s' : Text → Option V) (fields : List Text) (clock : ℕ → T) :
    EStateM.Result PyError (Collection T) Unit → Prop
  | committed {db : Handle Text} {d' : Disk} : db.Stores ext order json.encode d' s' →
      (∀ n, Short ext order (stored json.encode s') → Roomy ext order (n + 1) d →
        Roomy ext order n d') →
      Writes ext json order d s s' fields clock (.ok () ⟨db, fields, clock⟩)
  | failed {db : Handle Text} {d' : Disk} : ¬ Committable ext order d (stored json.encode s') →
      db.Stores ext order json.encode d' s → db.database.Overflows ext →
      Writes ext json order d s s' fields clock (.error .structError ⟨db, fields, clock⟩)

/-- A short map is committed as long as the file has room. -/
theorem Writes.returns {result : EStateM.Result PyError (Collection T) Unit} {n : ℕ}
    (hw : Writes ext json order d s s' fields clock result)
    (hshort : Short ext order (stored json.encode s')) (hroom : Roomy ext order (n + 1) d) :
    ∃ db d', result = .ok () ⟨db, fields, clock⟩ ∧ db.Stores ext order json.encode d' s' ∧
      Roomy ext order n d' := by
  cases hw with
  | @committed db d' hs' hroom' => exact ⟨db, d', rfl, hs', hroom' n hshort hroom⟩
  | failed hnot _ _ => exact absurd (hshort.committable hroom) hnot

/-- A transaction whose body returns. -/
theorem withTransaction_of_run {clock' : ℕ → T} {tx tx' : Transaction Text} {db1 db2 : Handle Text}
    {body : Transaction Text → Py (Collection T) (Transaction Text)}
    (hbegin : Transaction.begin ext db = .ok tx db1)
    (hrun : body tx ⟨db1, fields, clock⟩ = .ok tx' ⟨db2, fields, clock'⟩)
    (hs : db2.Stores ext order json.encode d s) (htx : tx'.Overlays ext order json.encode d s s') :
    Writes ext json order d s s' fields clock' (withTransaction ext body ⟨db, fields, clock⟩) := by
  rw [withTransaction, run_bind, onDb_ok hbegin]
  simp only [runBody, hrun]
  rcases hs.commit htx with ⟨db3, d', hcommit, hs3, -, hroom⟩ | ⟨hfits, db3, d', hcommit, hs3, hlong⟩
  · rw [onDb_ok hcommit]
    exact .committed hs3 hroom
  · rw [onDb_error hcommit]
    exact .failed hfits hs3 hlong

section Bodies

variable {tx : Transaction Text} {s0 : Text → Option V} (fields) (clock) (key)

section

variable (hs : db.Stores ext order json.encode d s0)
    (htx : tx.Overlays ext order json.encode d s s')
include hs htx

/-- A deletion of what may be missing. -/
theorem dropKey_spec (hkey : key ≠ []) :
    ∃ tx', dropKey ext json key tx ⟨db, fields, clock⟩ = .ok tx' ⟨db, fields, clock⟩ ∧
      tx'.Overlays ext order json.encode d s (assign s' key none) ∧ tx.Adds (· = key) tx' := by
  have hcontains : onBase (fun order f => tx.contains ext order f key) ⟨db, fields, clock⟩ =
      .ok (s' key).isSome ⟨db, fields, clock⟩ := onBase_ok hs (htx.contains key)
  cases hbound : s' key with
  | none =>
    refine ⟨tx, ?_, ?_, .refl ..⟩
    · simp [dropKey, hcontains, hbound]
    · rw [assign_none_of_absent hbound]
      exact htx
  | some value =>
    obtain ⟨tx', hdelete, htx', htouched⟩ :=
      htx.delete (Json.validKey_iff.mpr hkey) (by simp [hbound])
    refine ⟨tx', ?_, htx', .of_iff htouched⟩
    have hrun : onBase (fun order f => tx.delete ext json.codec order f key) ⟨db, fields, clock⟩ =
        .ok tx' ⟨db, fields, clock⟩ := onBase_ok hs hdelete
    simp [dropKey, hcontains, hbound, hrun]

theorem unindexFields_spec (items : Text → Option V) (names : List Text) :
    ∃ tx', unindexFields ext json key items names tx ⟨db, fields, clock⟩ =
        .ok tx' ⟨db, fields, clock⟩ ∧
      tx'.Overlays ext order json.encode d s
        (assignAll s' ((entriesOf json names items key).map fun x => (x, none))) ∧
      tx.Adds (· ∈ entriesOf json names items key) tx' := by
  induction names generalizing tx s' with
  | nil => exact ⟨tx, rfl, htx, .refl ..⟩
  | cons field names ih =>
    cases hvalue : items field with
    | none =>
      obtain ⟨tx', hrun, htx', hadds⟩ := ih htx
      rw [entriesOf_cons_none hvalue]
      exact ⟨tx', by simpa only [unindexFields, hvalue] using hrun, htx', hadds⟩
    | some value =>
      obtain ⟨tx1, hdrop, htx1, hadds1⟩ := dropKey_spec fields clock _ hs htx
        (indexKey_ne_nil json field value key)
      obtain ⟨tx', hrun, htx', hadds⟩ := ih htx1
      rw [entriesOf_cons_some hvalue]
      refine ⟨tx', by simpa only [unindexFields, hvalue, run_bind, hdrop] using hrun, htx', ?_⟩
      exact hadds1.trans hadds (by simp) (by simp +contextual)

/-- `_unindex` of a document. -/
theorem unindex_spec (document : V) :
    ∃ tx', unindex ext json key document tx ⟨db, fields, clock⟩ = .ok tx' ⟨db, fields, clock⟩ ∧
      tx'.Overlays ext order json.encode d s
        (assignAll s' ((documentEntries json fields key document).map fun x => (x, none))) ∧
      tx.Adds (· ∈ documentEntries json fields key document) tx' := by
  unfold documentEntries
  cases hitems : json.asDict document with
  | none =>
    refine ⟨tx, ?_, htx, .refl ..⟩
    simp [unindex, hitems]
  | some items =>
    obtain ⟨tx', hrun, htx', hadds⟩ := unindexFields_spec fields clock key hs htx items fields
    refine ⟨tx', ?_, htx', hadds⟩
    simp [unindex, hitems, hrun]

end

theorem indexFields_spec (htx : tx.Overlays ext order json.encode d s s')
    (items : Text → Option V) (names : List Text) :
    ∃ tx', indexFields json key items names tx = .ok tx' ∧
      tx'.Overlays ext order json.encode d s
        (assignAll s' ((entriesOf json names items key).map fun x => (x, some (json.str key)))) ∧
      ∀ x, tx'.Touches x ↔ x ∈ entriesOf json names items key ∨ tx.Touches x := by
  induction names generalizing tx s' with
  | nil => exact ⟨tx, rfl, htx, by simp [entriesOf]⟩
  | cons field names ih =>
    cases hvalue : items field with
    | none =>
      obtain ⟨tx', hrun, htx', htouched⟩ := ih htx
      rw [entriesOf_cons_none hvalue]
      exact ⟨tx', by simpa only [indexFields, hvalue] using hrun, htx', htouched⟩
    | some value =>
      obtain ⟨tx1, hset, htx1, htouched1⟩ := htx.set json.roundTrips
        (Json.validKey_iff.mpr (indexKey_ne_nil json field value key)) (json.str key)
      obtain ⟨tx', hrun, htx', htouched⟩ := ih htx1
      rw [entriesOf_cons_some hvalue]
      refine ⟨tx', ?_, htx', fun x => ?_⟩
      · rw [indexFields, hvalue]
        simp only [hset]
        exact hrun
      · rw [htouched, htouched1, List.mem_cons]
        tauto

/-- The expiry record that `set` writes. -/
def expiryOf (json : Json V T) (clock : ℕ → T) (ttl : Option T) : Option V :=
  ttl.map fun ttl => json.number (json.add (clock 0) ttl)

/-- The clock after `set`, which reads it for a time to live only. -/
def clockAfter (clock : ℕ → T) (ttl : Option T) : ℕ → T := fun i => clock (i + if ttl.isSome then 1 else 0)

theorem setExpiry_spec (hs : db.Stores ext order json.encode d s0)
    (htx : tx.Overlays ext order json.encode d s s') (ttl : Option T) :
    ∃ tx', setExpiry ext json key ttl tx ⟨db, fields, clock⟩ =
        .ok tx' ⟨db, fields, clockAfter clock ttl⟩ ∧
      tx'.Overlays ext order json.encode d s
        (assign s' (expiryKey key) (expiryOf json clock ttl)) ∧ tx.Adds (· = expiryKey key) tx' := by
  cases ttl with
  | none =>
    obtain ⟨tx', hdrop, htx', hadds⟩ := dropKey_spec fields clock _ hs htx (expiryKey_ne_nil key)
    exact ⟨tx', hdrop, htx', hadds⟩
  | some ttl =>
    obtain ⟨tx', hset, htx', htouched⟩ := htx.set json.roundTrips
      (Json.validKey_iff.mpr (expiryKey_ne_nil key)) (json.number (json.add (clock 0) ttl))
    refine ⟨tx', ?_, htx', .of_iff htouched⟩
    simp only [setExpiry, run_bind, readClock, hset, ofExcept_ok]
    rfl

/-- The keys that `set` may write. -/
def SetKeys (json : Json V T) (fields : List Text) (key : Text) (items : Text → Option V)
    (s : Text → Option V) (x : Text) : Prop :=
  x = key ∨ x = expiryKey key ∨ x ∈ oldEntries json fields s key ∨ x ∈ entriesOf json fields items key

theorem setBody_spec (hs : db.Stores ext order json.encode d s0)
    (htx : tx.Overlays ext order json.encode d s s) (hkey : key ≠ []) (document : V)
    (items : Text → Option V) (ttl : Option T) :
    ∃ tx', setBody ext json key document items ttl tx ⟨db, fields, clock⟩ =
        .ok tx' ⟨db, fields, clockAfter clock ttl⟩ ∧
      tx'.Overlays ext order json.encode d s
        (setMap json fields key document items (expiryOf json clock ttl) s) ∧
      tx.Adds (SetKeys json fields key items s) tx' ∧ tx'.Touches key ∧
      ∀ x ∈ entriesOf json fields items key, tx'.Touches x := by
  have hvalid : json.codec.validKey key = true := Json.validKey_iff.mpr hkey
  have hold : onBase (fun order f => tx.getOrNone ext json.codec order f key json.null)
      ⟨db, fields, clock⟩ = .ok ((s key).getD json.null) ⟨db, fields, clock⟩ :=
    onBase_ok hs (htx.getOrNone json.roundTrips hvalid json.null)
  obtain ⟨tx1, hunindex, htx1, hadds1⟩ := unindex_spec fields clock key hs htx ((s key).getD json.null)
  rw [← oldEntries_eq] at htx1 hadds1
  obtain ⟨tx2, hset, htx2, htouched2⟩ := htx1.set json.roundTrips hvalid document
  obtain ⟨tx3, hindex, htx3, htouched3⟩ := indexFields_spec key htx2 items fields
  obtain ⟨tx4, hexpiry, htx4, hadds4⟩ := setExpiry_spec fields clock key hs htx3 ttl
  refine ⟨tx4, ?_, htx4, ?_, ?_, fun x hx => ?_⟩
  · simp only [setBody, run_bind, run_get, hold, hunindex, hset, ofExcept_ok, hindex, hexpiry]
  · refine (hadds1.trans (.of_iff htouched2) ?_ ?_).trans ((Transaction.Adds.of_iff htouched3).trans
      hadds4 ?_ ?_) (fun x hx => hx) fun x hx => hx
    · exact fun x hx => .inr (.inr (.inl hx))
    · exact fun x hx => .inl hx
    · exact fun x hx => .inr (.inr (.inr hx))
    · exact fun x hx => .inr (.inl hx)
  · exact hadds4.1 _ ((htouched3 key).mpr (.inr ((htouched2 key).mpr (.inl rfl))))
  · exact hadds4.1 _ ((htouched3 x).mpr (.inl hx))

/-- `set` writes `setMap`. -/
theorem set_spec (hs : db.Stores ext order json.encode d s) (hkey : DocKey key) {document : V}
    {items : Text → Option V} (hitems : json.asDict document = some items) (ttl : Option T) :
    Writes ext json order d s (setMap json fields key document items (expiryOf json clock ttl) s)
      fields (clockAfter clock ttl) (set ext json key document ttl ⟨db, fields, clock⟩) := by
  have hcheck := checkKey_eq_ok_iff.mpr hkey
  simp only [set, run_bind, hcheck, ofExcept_ok, hitems]
  obtain ⟨tx, db1, hbegin, hs1, htx, -⟩ := hs.begin
  obtain ⟨tx', hrun, htx', -⟩ := setBody_spec fields clock key hs1 htx hkey.1 document items ttl
  exact withTransaction_of_run hbegin hrun hs1 htx'

/-- `set` refuses a reserved key before it begins. -/
theorem set_refused (c : Collection T) (document : V) (ttl : Option T) (hkey : ¬ DocKey key) :
    set ext json key document ttl c = .error .valueError c := by
  simp [set, checkKey_of_not hkey]

/-- `set` refuses what is not a dictionary before it begins. -/
theorem set_not_dict (c : Collection T) {document : V} (ttl : Option T) (hkey : DocKey key)
    (hnone : json.asDict document = none) : set ext json key document ttl c = .error .typeError c := by
  simp [set, checkKey_eq_ok_iff.mpr hkey, hnone]

section

variable (hs : db.Stores ext order json.encode d s0) (htx : tx.Overlays ext order json.encode d s s)
    (hkey : DocKey key)
include hs htx hkey

/-- The transaction of `delete`, with a document that it has read. -/
theorem deleteBody_spec (document : V) (hbound : s key ≠ none) :
    ∃ tx', deleteBody ext json key document tx ⟨db, fields, clock⟩ = .ok tx' ⟨db, fields, clock⟩ ∧
      tx'.Overlays ext order json.encode d s (deleteReadMap json fields key document s) ∧
      tx.Adds (fun x => x = key ∨ x = expiryKey key ∨ x ∈ documentEntries json fields key document)
        tx' := by
  obtain ⟨tx1, hunindex, htx1, hadds1⟩ := unindex_spec fields clock key hs htx document
  have hsame := unindexed_key json fields hkey document s
  obtain ⟨tx2, hdelete, htx2, htouched2⟩ := htx1.delete (Json.validKey_iff.mpr hkey.1)
    (by rw [hsame]; exact hbound)
  have hrun2 : onBase (fun order f => tx1.delete ext json.codec order f key) ⟨db, fields, clock⟩ =
      .ok tx2 ⟨db, fields, clock⟩ := onBase_ok hs hdelete
  obtain ⟨tx3, hdrop, htx3, hadds3⟩ := dropKey_spec fields clock _ hs htx2
    (expiryKey_ne_nil key)
  refine ⟨tx3, ?_, htx3, ?_⟩
  · simp only [deleteBody, run_bind, hunindex, hrun2, hdrop]
  · refine (hadds1.trans (.of_iff htouched2) ?_ ?_).trans hadds3 (fun x hx => hx) ?_
    · exact fun x hx => .inr (.inr hx)
    · exact fun x hx => .inl hx
    · exact fun x hx => .inr (.inl hx)

/-- The transaction of `delete` finds that there is no document any more. -/
theorem deleteBody_absent (document : V) (hbound : s key = none) :
    deleteBody ext json key document tx ⟨db, fields, clock⟩ = .error .keyError ⟨db, fields, clock⟩ := by
  obtain ⟨tx1, hunindex, htx1, -⟩ := unindex_spec fields clock key hs htx document
  have hsame := unindexed_key json fields hkey document s
  have hdelete : onBase (fun order f => tx1.delete ext json.codec order f key) ⟨db, fields, clock⟩ =
      .error .keyError ⟨db, fields, clock⟩ :=
    onBase_error hs (htx1.delete_absent (Json.validKey_iff.mpr hkey.1) (hsame.trans hbound))
  simp only [deleteBody, run_bind, hunindex, hdelete]

end

section Delete

variable [DecidableEq V]

/-- `delete` of a document. -/
theorem delete_spec (hs : db.Stores ext order json.encode d s) (hkey : DocKey key)
    (hbound : (s key).getD json.null ≠ json.null) :
    Writes ext json order d s (deleteMap json fields key s) fields clock
      (delete ext json key ⟨db, fields, clock⟩) := by
  have hcheck := checkKey_eq_ok_iff.mpr hkey
  obtain ⟨db1, hs1, hget⟩ := dbGet_spec hs fields clock hkey.1
  have hsome : s key ≠ none := by
    intro hnone
    simp [hnone] at hbound
  simp only [delete, run_bind, hcheck, ofExcept_ok, hget, if_neg hbound]
  obtain ⟨tx, db2, hbegin, hs2, htx, -⟩ := hs1.begin
  obtain ⟨tx', hrun, htx', -⟩ := deleteBody_spec fields clock key hs2 htx hkey _ hsome
  have hmap : deleteReadMap json fields key ((s key).getD json.null) s = deleteMap json fields key s := by
    rw [deleteReadMap, ← oldEntries_eq]
    rfl
  exact withTransaction_of_run hbegin hrun hs2 (hmap ▸ htx')

/-- `delete` of an absent document raises `KeyError`. -/
theorem delete_absent (hs : db.Stores ext order json.encode d s) (hkey : DocKey key)
    (hbound : (s key).getD json.null = json.null) :
    ∃ db', db'.Stores ext order json.encode d s ∧
      delete ext json key ⟨db, fields, clock⟩ = .error .keyError ⟨db', fields, clock⟩ := by
  have hcheck := checkKey_eq_ok_iff.mpr hkey
  obtain ⟨db1, hs1, hget⟩ := dbGet_spec hs fields clock hkey.1
  refine ⟨db1, hs1, ?_⟩
  simp only [delete, run_bind, hcheck, ofExcept_ok, hget, if_pos hbound, run_throw]

/-- A reserved key cannot be deleted. -/
theorem delete_refused (c : Collection T) (hkey : ¬ DocKey key) :
    delete ext json key c = .error .valueError c := by
  simp [delete, checkKey_of_not hkey]

end Delete

theorem backfill_spec (hs : db.Stores ext order json.encode d s)
    {b : Text → Option V} (htx : tx.Overlays ext order json.encode d b s') (field : Text)
    {keys : List Text} (hkeys : ∀ key ∈ keys, key ≠ [] ∧ s key ≠ none) :
    ∃ tx' db', backfill ext json field keys tx ⟨db, fields, clock⟩ = .ok tx' ⟨db', fields, clock⟩ ∧
      db'.Stores ext order json.encode d s ∧
      tx'.Overlays ext order json.encode d b (assignAll s' (backfillEntries json field s keys)) ∧
      ∀ x, tx'.Touches x ↔ (∃ e ∈ backfillEntries json field s keys, e.1 = x) ∨ tx.Touches x := by
  induction keys generalizing tx s' db with
  | nil => exact ⟨tx, db, rfl, hs, htx, by simp [backfillEntries]⟩
  | cons key keys ih =>
    obtain ⟨hne, hbound⟩ := hkeys key (.head _)
    have hrest : ∀ key ∈ keys, key ≠ [] ∧ s key ≠ none := fun k hk =>
      hkeys k (.tail _ hk)
    obtain ⟨document, hdocument⟩ := Option.ne_none_iff_exists'.mp hbound
    obtain ⟨db1, hs1, hitem⟩ := dbItem_spec hs fields clock hne hdocument
    cases hvalue : json.asDict document >>= fun items => items field with
    | none =>
      have hentries : backfillEntries json field s (key :: keys) = backfillEntries json field s keys := by
        simp only [backfillEntries, List.filterMap_cons, hdocument, Option.bind_some, hvalue,
          Option.map_none]
      obtain ⟨tx', db', hrun, hs', htx', htouched⟩ := ih hs1 htx hrest
      rw [← hentries] at htx' htouched
      refine ⟨tx', db', ?_, hs', htx', htouched⟩
      simpa only [backfill, run_bind, hitem, hvalue] using hrun
    | some value =>
      have hentries : backfillEntries json field s (key :: keys) =
          (indexKey json field value key, some (json.str key)) :: backfillEntries json field s keys := by
        simp only [backfillEntries, List.filterMap_cons, hdocument, Option.bind_some, hvalue,
          Option.map_some]
      obtain ⟨tx1, hset, htx1, htouched1⟩ := htx.set json.roundTrips
        (Json.validKey_iff.mpr (indexKey_ne_nil json field value key)) (json.str key)
      obtain ⟨tx', db', hrun, hs', htx', htouched⟩ := ih hs1 htx1 hrest
      refine ⟨tx', db', ?_, hs', ?_, fun x => ?_⟩
      · simpa only [backfill, run_bind, hitem, hvalue, hset, ofExcept_ok] using hrun
      · rwa [hentries, assignAll_cons]
      · rw [htouched, htouched1, hentries]
        simp only [List.mem_cons, exists_eq_or_imp, eq_comm (a := x)]
        rw [or_left_comm, or_assoc]

section CreateIndex

variable [DecidableEq V] [LE T] [DecidableLE T]

omit [DecidableEq V] [LE T] [DecidableLE T] in
theorem mem_keys_iff {all : List (Text × V)} (hall : Represents all s) (key : Text) :
    key ∈ all.map Prod.fst ↔ s key ≠ none := by
  rw [Option.ne_none_iff_exists', List.mem_map]
  constructor
  · rintro ⟨⟨_, value⟩, he, rfl⟩
    exact ⟨value, (hall.mem_iff _ _).mp he⟩
  · rintro ⟨value, hvalue⟩
    exact ⟨(key, value), (hall.mem_iff _ _).mpr hvalue, rfl⟩

section

variable (hs : db.Stores ext order json.encode d s) (htimed : Timed json s) (hnil : s [] = none)
include hs htimed hnil

/-- `keys` finds documents; one that it has passed over had expired at a reading of the
clock that it has made. -/
theorem keys_spec :
    ∃ db' n l, db'.Stores ext order json.encode d s ∧
      keys ext json ⟨db, fields, clock⟩ = .ok l ⟨db', fields, fun i => clock (i + n)⟩ ∧
      (∀ key ∈ l, DocKey key ∧ s key ≠ none) ∧
      ∀ key, DocKey key → s key ≠ none →
        key ∈ l ∨ ∃ i < n, expiredAt json s key (clock i) = true := by
  obtain ⟨db1, all, hs1, hall, hdbKeys⟩ := dbKeys_spec hs fields clock
  obtain ⟨db2, n, l, hs2, hvisible, hl, hpassed⟩ :=
    visibleKeys_spec hs1 fields clock htimed (all.map Prod.fst)
  have hmem := mem_keys_iff hall
  refine ⟨db2, n, l, hs2, ?_, fun key hkey => ?_, fun key hkey hbound => ?_⟩
  · simp only [keys, run_bind, hdbKeys, hvisible]
  · obtain ⟨hin, hres⟩ := hl key hkey
    have hbound := (hmem key).mp hin
    refine ⟨⟨?_, hres⟩, hbound⟩
    rintro rfl
    exact hbound hnil
  · exact hpassed key ((hmem key).mpr hbound) hkey.2

/-- `create_index` writes the entries of the documents it has found visible; a document
that it has passed over had expired at a reading of the clock that it has made. -/
theorem createIndex_spec (field : Text) :
    ∃ n l, (∀ key ∈ l, DocKey key ∧ s key ≠ none) ∧
      (∀ key, DocKey key → s key ≠ none →
        key ∈ l ∨ ∃ i < n, expiredAt json s key (clock i) = true) ∧
      ((∃ db' d', createIndex ext json field ⟨db, fields, clock⟩ =
          .ok () ⟨db', if field ∈ fields then fields else fields ++ [field], fun i => clock (i + n)⟩ ∧
        db'.Stores ext order json.encode d' (assignAll s (backfillEntries json field s l))) ∨
      ¬ Committable ext order d (stored json.encode (assignAll s (backfillEntries json field s l))) ∧
        ∃ db' d', createIndex ext json field ⟨db, fields, clock⟩ =
            .error .structError ⟨db', fields, fun i => clock (i + n)⟩ ∧
          db'.Stores ext order json.encode d' s ∧ db'.database.Overflows ext) := by
  obtain ⟨tx, db1, hbegin, hs1, htx, -⟩ := hs.begin
  obtain ⟨db3, n, l, hs3, hkeys, hdocs, hpassed⟩ := keys_spec fields clock hs1 htimed hnil
  obtain ⟨tx', db4, hbackfill, hs4, htx', -⟩ := backfill_spec fields (fun i => clock (i + n)) hs3 htx
    field fun key hkey => ⟨(hdocs key hkey).1.1, (hdocs key hkey).2⟩
  have hbody : createIndexBody ext json field tx ⟨db1, fields, clock⟩ =
      .ok tx' ⟨db4, fields, fun i => clock (i + n)⟩ := by
    simp only [createIndexBody, run_bind, hkeys, hbackfill]
  refine ⟨n, l, hdocs, hpassed, ?_⟩
  have hwrites := withTransaction_of_run hbegin hbody hs4 htx'
  rw [createIndex, run_bind]
  generalize withTransaction ext (createIndexBody ext json field) ⟨db, fields, clock⟩ = result
    at hwrites ⊢
  cases hwrites with
  | @committed db5 d5 hs5 _ => exact .inl ⟨db5, d5, rfl, hs5⟩
  | @failed db5 d5 hfits hs5 hlong => exact .inr ⟨hfits, db5, d5, rfl, hs5, hlong⟩

end

end CreateIndex

end Bodies

end Collection
