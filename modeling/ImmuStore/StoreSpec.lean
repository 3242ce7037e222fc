/-
# A handle as a store of values

With a codec that round-trips, a handle on which nothing is staged stores a map from keys
to values, and its methods and transactions act on that map.  Here every writer is a
transaction, so that an exception of a commit leaves the map as it was.
-/
import ImmuStore.Recovery
import ImmuStore.TransactionSpec

open Function Storage

variable {α V : Type}
variable {codec : Codec α V} {enc : V → Bytes} {db : Database α} {c : α → Option Bytes}

/-- The codec encodes every value, and decodes it again. -/
structure Codec.RoundTrips (codec : Codec α V) (enc : V → Bytes) : Prop where
  encode_eq : ∀ value, codec.encode value = .ok (enc value)
  decode_eq : ∀ value, codec.decode (enc value) = .ok value

/-- A map of values as it is stored. -/
def stored (enc : V → Bytes) (s : α → Option V) : α → Option Bytes := fun key => (s key).map enc

/-- The map with another value, or none, for one key. -/
def assign [LinearOrder α] (s : α → Option V) (key : α) (value : Option V) : α → Option V :=
  update s key value

section Assign

variable [LinearOrder α] {s : α → Option V} {key key' : α} {value : Option V} {enc : V → Bytes}

@[simp] theorem assign_self : assign s key value key = value := update_self ..

theorem assign_of_ne (h : key' ≠ key) : assign s key value key' = s key' :=
  update_of_ne h ..

theorem stored_assign : stored enc (assign s key value) =
    update (stored enc s) key (value.map enc) := by
  funext k
  by_cases hk : k = key
  · subst hk
    simp [stored]
  · simp [stored, assign_of_ne hk, update_of_ne hk]

/-- An encoded value is stored by an update. -/
theorem applyTo_stored_set {value : V} : (Update.set key (enc value)).applyTo (stored enc s) =
    stored enc (assign s key (some value)) := by
  rw [stored_assign]
  rfl

theorem assign_none_of_absent (h : s key = none) : assign s key none = s :=
  update_eq_self_iff.mpr h.symm

/-- The stored map has the list of the map, with every value encoded. -/
theorem Represents.of_stored {l : List (α × Bytes)} (h : Represents l (stored enc s)) :
    ∃ l', l = l'.map (fun e => (e.1, enc e.2)) ∧ Represents l' s := by
  have hmem : ∀ e ∈ l, ∃ value, s e.1 = some value ∧ enc value = e.2 := by
    rintro ⟨k, payload⟩ he
    exact Option.map_eq_some_iff.mp ((h.mem_iff k payload).mp he)
  have hdecode : ∀ e ∈ l, ((s e.1).map fun value => (e.1, enc value)) = some e := by
    intro e he
    obtain ⟨value, hs, henc⟩ := hmem e he
    rw [hs, ← Prod.mk.eta (p := e), ← henc]
    rfl
  refine ⟨l.filterMap fun e => (s e.1).map fun value => (e.1, value), ?_, ?_, ?_⟩
  · rw [List.map_filterMap]
    conv_lhs => rw [← List.filterMap_some (l := l)]
    refine List.filterMap_congr fun e he => ?_
    rw [← hdecode e he]
    cases s e.1 <;> rfl
  · rw [KeysIncrease, List.pairwise_filterMap]
    refine h.increasing.imp fun {e e'} hlt b hb b' hb' => ?_
    obtain ⟨value, -, rfl⟩ := Option.map_eq_some_iff.mp hb
    obtain ⟨value', -, rfl⟩ := Option.map_eq_some_iff.mp hb'
    exact hlt
  · intro k value
    rw [List.mem_filterMap]
    constructor
    · rintro ⟨e, -, he⟩
      obtain ⟨value', hs, heq⟩ := Option.map_eq_some_iff.mp he
      cases heq
      exact hs
    · intro hs
      exact ⟨(k, enc value), (h.mem_iff _ _).mpr (by simp [stored, hs]), by simp [hs]⟩

end Assign

section

variable (h : codec.RoundTrips enc)
include h

theorem Codec.RoundTrips.injective : Injective enc := by
  intro v w hvw
  have := (h.decode_eq v).symm.trans ((congrArg codec.decode hvw).trans (h.decode_eq w))
  exact Except.ok.inj this

/-- The stored form determines the map. -/
theorem stored_injective {s s' : α → Option V} (heq : stored enc s = stored enc s') : s = s' := by
  funext key
  exact Option.map_injective h.injective (congrFun heq key)

theorem Codec.RoundTrips.decodeAll_eq (l : List (α × V)) :
    codec.decodeAll (l.map fun e => (e.1, enc e.2)) = .ok l := by
  unfold Codec.decodeAll
  induction l with
  | nil => rfl
  | cons e l ih =>
    rw [List.map_cons, List.mapM_cons, h.decode_eq, ih]
    rfl

end

variable [LinearOrder α] {ext : Externals α} {codec : Codec α V} {order : ℕ} {enc : V → Bytes}
  {d : Disk} {s s' : α → Option V} {h h' : Handle α} {key : α}
variable {m : Meta} {pre : Option α}

/-- What the methods that list keys read. -/
theorem Database.Attached.rangeItems {s : α → Option Bytes} (h : db.Attached ext order m c s) :
    ∃ db' l, Database.refreshUnlocked ext db = .ok () db' ∧ Represents l s ∧
      ∀ start stop, Database.rangeItems ext start stop db = .ok (restrict start stop l) db' := by
  obtain ⟨db', hrun, hholding, -⟩ := h.refreshUnlocked
  refine ⟨db', db'.tree.items, hrun, hholding.holds.represents, fun start stop => ?_⟩
  simp [Database.rangeItems, hrun, hholding.holds.rangeItems_eq start stop]

section

variable (hcodec : codec.RoundTrips enc) (hat : db.Attached ext order m c (stored enc s))
    (hvalid : ∀ p ∈ pre, codec.validKey p = true)
include hcodec hat hvalid

/-- `scan`, without bounds. -/
theorem Database.Attached.scan :
    ∃ db' l, Database.refreshUnlocked ext db = .ok () db' ∧ Represents l s ∧
      DBDB.scan ext codec pre none none db =
        .ok (l.filter fun e => pre.all fun p => codec.startsWith e.1 p) db' := by
  obtain ⟨db', l, hrefresh, hl, hrange⟩ := hat.rangeItems
  obtain ⟨l', rfl, hl'⟩ := hl.of_stored
  refine ⟨db', l', hrefresh, hl', ?_⟩
  have hall : ∀ l : List (α × Bytes), restrict none none l = l := fun l =>
    List.filter_eq_self.mpr fun _ _ => rfl
  have hpre : DBDB.validateBound codec pre db = .ok () db := by
    cases pre with
    | none => rfl
    | some p => simp [DBDB.validateBound, DBDB.validateKey, hvalid p rfl]
  have hnone : DBDB.validateBound codec none db = .ok () db := rfl
  have hfilter : codec.withPre pre (l'.map fun e => (e.1, enc e.2)) =
      (l'.filter fun e => pre.all fun p => codec.startsWith e.1 p).map fun e => (e.1, enc e.2) := by
    rw [Codec.withPre, List.filter_map]
    rfl
  simp only [DBDB.scan, run_bind, hpre, hnone, hrange, hall, hfilter, hcodec.decodeAll_eq,
    ofExcept_ok]

/-- `keys`, without bounds. -/
theorem Database.Attached.keys :
    ∃ db' l, Database.refreshUnlocked ext db = .ok () db' ∧ Represents l s ∧
      DBDB.keys ext codec pre none none db =
        .ok ((l.map Prod.fst).filter fun key => pre.all fun p => codec.startsWith key p) db' := by
  obtain ⟨db', l, hrefresh, hl, hscan⟩ := hat.scan hcodec hvalid
  refine ⟨db', l, hrefresh, hl, ?_⟩
  rw [DBDB.keys, run_bind, hscan, List.filter_map]
  rfl

end

/-- The handle is open, nothing is staged on it, and the file `d` stores the map `s`. -/
structure Handle.Stores (ext : Externals α) (order : ℕ) (enc : V → Bytes) (d : Disk)
    (s : α → Option V) (h : Handle α) : Prop where
  opened : h.closed = false
  unlocked : h.database.locked = false
  order_eq : h.database.tree.order = order
  disk_eq : h.database.disk = d
  committed : ∃ m, Committed ext order d.live m (stored enc s)

namespace Handle.Stores

variable {db : Database α}

section

variable (hs : h.Stores ext order enc d s)
include hs

theorem attached :
    ∃ m, h.database.Attached ext order m (stored enc s) (stored enc s) := by
  obtain ⟨m, hc⟩ := hs.committed
  exact ⟨m, .of_unlocked (hs.disk_eq ▸ hc) hs.order_eq hs.unlocked⟩

theorem serves : h.database.Serves ext (stored enc s) := by
  obtain ⟨m, hattached⟩ := hs.attached
  exact hattached.serves

/-- Reading refreshes the tree. -/
theorem refreshed (hrun : Database.refreshUnlocked ext h.database = .ok () db) :
    Stores ext order enc d s { h with database := db } := by
  obtain ⟨m, hattached⟩ := hs.attached
  obtain ⟨db', hrun', hholding, hcases⟩ := hattached.refreshUnlocked
  obtain rfl : db' = db := by simpa [hrun'] using hrun
  have horder : db'.tree.order = order := hholding.holds.order_eq
  rcases hcases with ⟨hl, -⟩ | ⟨-, -, heq⟩
  · rw [hs.unlocked] at hl
    cases hl
  · refine ⟨hs.opened, ?_, horder, ?_, hs.committed⟩
    · show db'.locked = false
      rw [heq]
      exact hs.unlocked
    · show db'.disk = d
      rw [heq]
      exact hs.disk_eq

end

omit [LinearOrder α] in
/-- A method of the mapping, on a handle that is open. -/
theorem call_eq {β : Type} (hopen : h.closed = false) {x : Py (Database α) β}
    {result : Except PyError β} (hx : x h.database = result.inState db) :
    Handle.call x h = result.inState { h with database := db } := by
  cases result with
  | ok b => exact call_ok hopen hx
  | error e => exact call_error hopen hx

variable (hcodec : codec.RoundTrips enc)
include hcodec

omit [LinearOrder α] in
theorem mapGet_stored (hvalid : codec.validKey key = true) :
    mapGet codec (stored enc s) key = match s key with
      | none => .error .keyError
      | some value => .ok value := by
  rw [mapGet, if_pos hvalid, stored]
  cases s key with
  | none => rfl
  | some value => exact hcodec.decode_eq value

section

variable (hs : h.Stores ext order enc d s)
include hs

/-- `__getitem__`. -/
theorem getItem (hvalid : codec.validKey key = true) :
    ∃ h', h'.Stores ext order enc d s ∧
      Handle.call (DBDB.getItem ext codec key) h = match s key with
        | none => .error .keyError h'
        | some value => .ok value h' := by
  obtain ⟨m, hattached⟩ := hs.attached
  obtain ⟨db, hrefresh, hget⟩ := hattached.getItem hvalid
  refine ⟨{ h with database := db }, hs.refreshed hrefresh, ?_⟩
  rw [call_eq hs.opened hget, mapGet_stored hcodec hvalid]
  cases s key <;> rfl

/-- `get`. -/
theorem get (hvalid : codec.validKey key = true) (default : V) :
    ∃ h', h'.Stores ext order enc d s ∧
      Handle.call (DBDB.get ext codec key default) h = .ok ((s key).getD default) h' := by
  obtain ⟨m, hattached⟩ := hs.attached
  obtain ⟨db, hrefresh, hget⟩ := hattached.get_default hvalid default
  refine ⟨{ h with database := db }, hs.refreshed hrefresh, ?_⟩
  rw [call_eq hs.opened hget, mapGet_stored hcodec hvalid]
  cases s key <;> rfl

/-- `scan`, without bounds. -/
theorem scan {pre : Option α} (hvalid : ∀ p ∈ pre, codec.validKey p = true) :
    ∃ h' l, h'.Stores ext order enc d s ∧ Represents l s ∧
      Handle.call (DBDB.scan ext codec pre none none) h =
        .ok (l.filter fun e => pre.all fun p => codec.startsWith e.1 p) h' := by
  obtain ⟨m, hattached⟩ := hs.attached
  obtain ⟨db, l, hrefresh, hl, hscan⟩ := hattached.scan hcodec hvalid
  exact ⟨{ h with database := db }, l, hs.refreshed hrefresh, hl, call_ok hs.opened hscan⟩

/-- `keys`, without bounds. -/
theorem keys :
    ∃ h' l, h'.Stores ext order enc d s ∧ Represents l s ∧
      Handle.call (DBDB.keys ext codec none none none) h = .ok (l.map Prod.fst) h' := by
  obtain ⟨m, hattached⟩ := hs.attached
  obtain ⟨db, l, hrefresh, hl, hkeys⟩ := hattached.keys hcodec fun p (hp : p ∈ none) => by cases hp
  have hall : ((l.map Prod.fst).filter fun key => (none : Option α).all fun p =>
      codec.startsWith key p) = l.map Prod.fst := List.filter_eq_self.mpr fun _ _ => rfl
  rw [hall] at hkeys
  exact ⟨{ h with database := db }, l, hs.refreshed hrefresh, hl, call_ok hs.opened hkeys⟩

end

end Handle.Stores

/-! ## Transactions -/

/-- The overlay says something about the key. -/
def Transaction.Touches (tx : Transaction α) (x : α) : Prop := tx.overlay.get? x ≠ none

/-- The map `s` with what `s'` says about the keys of the overlay. -/
def Transaction.merged (tx : Transaction α) (s' s : α → Option V) : α → Option V := fun x =>
  match tx.overlay.get? x with
  | some _ => s' x
  | none => s x

namespace Transaction

variable {tx : Transaction α}
variable {x : α} {K : α → Prop}

theorem merged_of_touches (hx : tx.Touches x) : tx.merged s' s x = s' x := by
  obtain ⟨payload, hpayload⟩ := Option.ne_none_iff_exists'.mp hx
  rw [merged, hpayload]

theorem merged_of_not_touches (hx : ¬ tx.Touches x) : tx.merged s' s x = s x := by
  rw [merged, not_not.mp hx]

theorem touches_set (base : Option Snapshot) (key : α) (payload : Option Bytes) :
    (⟨base, tx.overlay.set key payload⟩ : Transaction α).Touches x ↔ x = key ∨ tx.Touches x := by
  simp only [Touches, PyDict.get?_set]
  by_cases hx : x = key
  · simp [hx]
  · simp [hx]

/-- The overlay keeps its keys, and has new ones from `K` only. -/
def Adds (tx : Transaction α) (K : α → Prop) (tx' : Transaction α) : Prop :=
  (∀ x, tx.Touches x → tx'.Touches x) ∧ ∀ x, tx'.Touches x → tx.Touches x ∨ K x

theorem Adds.refl (tx : Transaction α) (K : α → Prop) : tx.Adds K tx :=
  ⟨fun _ hx => hx, fun _ hx => .inl hx⟩

theorem Adds.trans {tx1 tx2 : Transaction α} {K' K'' : α → Prop} (h : tx.Adds K tx1)
    (h' : tx1.Adds K' tx2) (hK : ∀ x, K x → K'' x) (hK' : ∀ x, K' x → K'' x) : tx.Adds K'' tx2 := by
  refine ⟨fun x hx => h'.1 x (h.1 x hx), fun x hx => ?_⟩
  rcases h'.2 x hx with hx | hx
  · exact (h.2 x hx).imp_right (hK x)
  · exact .inr (hK' x hx)

theorem Adds.of_iff {tx' : Transaction α} (h : ∀ x, tx'.Touches x ↔ K x ∨ tx.Touches x) :
    tx.Adds K tx' :=
  ⟨fun x hx => (h x).mpr (.inr hx), fun x hx => ((h x).mp hx).symm⟩

theorem not_touches_of_empty (hempty : tx.overlay.entries = []) : ¬ tx.Touches x := by
  rw [Touches, not_not, PyDict.get?, hempty]
  rfl

theorem empty_of_not_touches (h : ∀ x, ¬ tx.Touches x) : tx.overlay.entries = [] := by
  refine List.eq_nil_iff_forall_not_mem.mpr fun ⟨x, payload⟩ hx => h x ?_
  rw [Touches, PyDict.mem_entries_iff.mp hx]
  simp

theorem unchanged_iff {b c : α → Option Bytes} :
    tx.Unchanged b c ↔ ∀ x, tx.Touches x → b x = c x := by
  constructor
  · intro h x hx
    obtain ⟨payload, hpayload⟩ := Option.ne_none_iff_exists'.mp hx
    exact h (x, payload) (PyDict.mem_entries_iff.mpr hpayload)
  · rintro h ⟨x, payload⟩ he
    refine h x ?_
    rw [Touches, PyDict.mem_entries_iff.mp he]
    simp

end Transaction

/-- The transaction has pinned the map `s`, and with its overlay on top this is `s'`. -/
structure Transaction.Overlays (ext : Externals α) (order : ℕ) (enc : V → Bytes) (d : Disk)
    (s s' : α → Option V) (tx : Transaction α) : Prop where
  base : ∃ base L, tx.base = some base ∧ L ≤ d.live.size ∧ base.Pins ext order d.live L (stored enc s)
  overlaid_eq : tx.overlaid (stored enc s) = stored enc s'

namespace Transaction.Overlays

variable {tx : Transaction α}

/-- What is pinned stays pinned as long as the records do. -/
theorem mono (htx : tx.Overlays ext order enc d s s') {d' : Disk}
    (hrecords : SameRecords d.live.size d.live d'.live) : tx.Overlays ext order enc d' s s' := by
  obtain ⟨base, L, hbase, hle, hpins⟩ := htx.base
  have hsame : SameRecords L d.live d'.live :=
    ⟨hle.trans hrecords.le_right, fun i hi hi' => hrecords.byte_eq i hi (hi'.trans_le hle)⟩
  refine ⟨⟨base, L, hbase, hsame.le_right, ?_⟩, htx.overlaid_eq⟩
  exact hpins.mono hsame le_rfl hsame.le_right

theorem stored_merged (htx : tx.Overlays ext order enc d b s') (s : α → Option V) :
    tx.overlaid (stored enc s) = stored enc (tx.merged s' s) := by
  funext x
  have hx := congrFun htx.overlaid_eq x
  unfold Transaction.overlaid at hx ⊢
  unfold stored Transaction.merged
  cases hoverlay : tx.overlay.get? x with
  | none => rfl
  | some payload =>
    simp only [hoverlay] at hx ⊢
    exact hx

/-- The overlay has every key where it changes something. -/
theorem touches_of_ne (htx : tx.Overlays ext order enc d s s') {x : α} (hne : s' x ≠ s x)
    (hinj : Injective enc) : tx.Touches x := by
  intro hnone
  have hx := congrFun htx.overlaid_eq x
  simp only [Transaction.overlaid, hnone] at hx
  exact hne (Option.map_injective hinj hx).symm

theorem contains (htx : tx.Overlays ext order enc d s s') (key : α) :
    tx.contains ext order d.live key = .ok (s' key).isSome := by
  obtain ⟨base, L, hbase, -, hpins⟩ := htx.base
  rw [Transaction.contains_eq hbase hpins rfl, htx.overlaid_eq, stored, Option.isSome_map]

variable (hcodec : codec.RoundTrips enc)
include hcodec

section

variable (htx : tx.Overlays ext order enc d s s') (hvalid : codec.validKey key = true)
include htx hvalid

theorem getOrNone (default : V) : tx.getOrNone ext codec order d.live key default = .ok ((s' key).getD default) := by
  obtain ⟨base, L, hbase, -, hpins⟩ := htx.base
  rw [Transaction.getOrNone, Transaction.get_eq hbase hpins fun _ => rfl, htx.overlaid_eq,
    Handle.Stores.mapGet_stored hcodec hvalid]
  cases s' key <;> rfl

theorem set (value : V) :
    ∃ tx', tx.set codec key value = .ok tx' ∧
      tx'.Overlays ext order enc d s (assign s' key (some value)) ∧
      ∀ x, tx'.Touches x ↔ x = key ∨ tx.Touches x := by
  refine ⟨{ tx with overlay := tx.overlay.set key (some (enc value)) }, ?_, ⟨htx.base, ?_⟩,
    fun x => Transaction.touches_set ..⟩
  · rw [Transaction.set, if_pos hvalid, hcodec.encode_eq]
    rfl
  · rw [Transaction.overlaid_set, htx.overlaid_eq, stored_assign]
    rfl

end

omit hcodec in
theorem delete (htx : tx.Overlays ext order enc d s s') (hvalid : codec.validKey key = true)
    (hkey : s' key ≠ none) :
    ∃ tx', tx.delete ext codec order d.live key = .ok tx' ∧
      tx'.Overlays ext order enc d s (assign s' key none) ∧
      ∀ x, tx'.Touches x ↔ x = key ∨ tx.Touches x := by
  refine ⟨{ tx with overlay := tx.overlay.set key none }, ?_, ⟨htx.base, ?_⟩,
    fun x => Transaction.touches_set ..⟩
  · rw [Transaction.delete, if_pos hvalid, htx.contains, Option.isSome_iff_ne_none.mpr hkey]
    rfl
  · rw [Transaction.overlaid_set, htx.overlaid_eq, stored_assign]
    rfl

omit hcodec in
theorem delete_absent (htx : tx.Overlays ext order enc d s s') (hvalid : codec.validKey key = true)
    (hkey : s' key = none) : tx.delete ext codec order d.live key = .error .keyError := by
  rw [Transaction.delete, if_pos hvalid, htx.contains, hkey]
  rfl

end Transaction.Overlays

namespace Handle.Stores

variable {tx : Transaction α}

/-- A transaction begins with the map of the store. -/
theorem begin (hs : h.Stores ext order enc d s) :
    ∃ tx h', Transaction.begin ext h = .ok tx h' ∧ h'.Stores ext order enc d s ∧
      tx.Overlays ext order enc d s s ∧ ∀ x, ¬ tx.Touches x := by
  obtain ⟨m, hc⟩ := hs.committed
  have hc' : Committed ext order h.database.disk.live m (stored enc s) := hs.disk_eq ▸ hc
  refine ⟨_, _, Transaction.begin_eq hs.opened hc', ⟨hs.opened, hs.unlocked, hs.order_eq, hs.disk_eq,
    m, hc⟩, ⟨⟨_, _, rfl, hc.le, Snapshot.Pins.of_committed hc⟩, Transaction.overlaid_empty _ _⟩,
    fun x => Transaction.not_touches_of_empty rfl⟩

theorem closeBase (hs : h.Stores ext order enc d s) (tx : Transaction α) :
    (tx.closeBase h).Stores ext order enc d s where
  opened := by rw [Transaction.closeBase_closed, hs.opened]
  unlocked := by rw [Transaction.closeBase_database, hs.unlocked]
  order_eq := by rw [Transaction.closeBase_database, hs.order_eq]
  disk_eq := by rw [Transaction.closeBase_database, hs.disk_eq]
  committed := hs.committed

/-- What a transaction that began with the map `b`, and has made it `s'`, does to a store
with the map `s`: its overlay is committed, or it finds that a key of the overlay has
changed, or something is too long to be written. -/
inductive Settles (ext : Externals α) (order : ℕ) (enc : V → Bytes) (d : Disk)
    (b s' s : α → Option V) (tx : Transaction α) : EStateM.Result PyError (Handle α) Unit → Prop
  | committed {h' : Handle α} {d' : Disk} :
      (∀ x, tx.Touches x → stored enc b x = stored enc s x) →
      h'.Stores ext order enc d' (tx.merged s' s) → SameRecords d.live.size d.live d'.live →
      (∀ n, Short ext order (stored enc (tx.merged s' s)) → Roomy ext order (n + 1) d →
        Roomy ext order n d') →
      Settles ext order enc d b s' s tx (.ok () h')
  | conflicting {h' : Handle α} : (∃ x, tx.Touches x ∧ stored enc b x ≠ stored enc s x) →
      h'.Stores ext order enc d s → Settles ext order enc d b s' s tx (.error .conflictError h')
  | failed {h' : Handle α} {d' : Disk} : ¬ Committable ext order d (stored enc (tx.merged s' s)) →
      h'.Stores ext order enc d' s → SameRecords d.live.size d.live d'.live →
      h'.database.Overflows ext → Settles ext order enc d b s' s tx (.error .structError h')

/-- `commit` of a transaction that began with some map. -/
theorem commit_spec (hs : h.Stores ext order enc d s) (htx : tx.Overlays ext order enc d b s') :
    Settles ext order enc d b s' s tx (tx.commit ext h) := by
  have hmerged := htx.stored_merged s
  by_cases hempty : tx.overlay.entries = []
  · rw [Transaction.overlaid_of_empty hempty] at hmerged
    rw [Transaction.commit_of_empty h hempty]
    refine .committed (fun x hx => absurd hx (Transaction.not_touches_of_empty hempty)) ?_
      ⟨le_rfl, fun _ _ _ => rfl⟩ fun n _ hroom => hroom.of_succ
    exact { hs.closeBase tx with committed := hmerged ▸ hs.committed }
  obtain ⟨m, hc⟩ := hs.committed
  obtain ⟨base, L, hbase, -, hpins⟩ := htx.base
  rw [← hs.disk_eq] at hc hpins
  have hpinned : ∀ base' ∈ tx.base, base'.Pins ext order h.database.disk.live L (stored enc b) := by
    intro base' hbase'
    rw [hbase] at hbase'
    obtain rfl := Option.mem_some_iff.mp hbase'
    exact hpins
  have houtcome := Transaction.commitOverlay_spec hc hs.order_eq hempty hpinned
  rw [Transaction.commit_of_ne h hempty]
  -- a failed commit keeps the bytes of the file, and with them the committed map
  have hkept : ∀ {e db}, tx.Outcome ext order h.database m (stored enc b) (stored enc s) (.error e db) →
      (tx.closeBase { h with database := db }).Stores ext order enc db.disk s ∧
        SameRecords d.live.size d.live db.disk.live := by
    intro e db hout
    obtain ⟨hunlocked, -, horder, hsame⟩ := hout.of_error
    have hstores : Stores ext order enc db.disk s { h with database := db } :=
      ⟨hs.opened, hunlocked, horder, rfl, m, hc.sameBelow (hsame.mono hc.le)⟩
    rw [hs.disk_eq] at hsame
    exact ⟨hstores.closeBase tx, .of_sameBelow hsame⟩
  generalize hresult : tx.commitOverlay ext h.database = result at houtcome
  cases houtcome with
  | @refused e t hwhy hat =>
    rcases hwhy with ⟨-, hnone⟩ | ⟨rfl, hne, hchanged⟩
    · rw [hbase] at hnone
      cases hnone
    · have hrefused : tx.Outcome ext order h.database m (stored enc b) (stored enc s) _ :=
        .refused (.inr ⟨rfl, hne, hchanged⟩) hat
      have hstores := (hkept hrefused).1
      refine .conflicting ?_ { hstores with disk_eq := hstores.disk_eq.trans hs.disk_eq, committed := ?_ }
      rotate_left
      · exact ⟨m, hs.disk_eq ▸ hc⟩
      rw [Transaction.unchanged_iff] at hchanged
      simpa using hchanged
  | @failed e db1 db2 hne hunchanged hwriting hdisk hrun =>
    have hcached : Committed ext order db1.disk.live db1.cached (stored enc s) :=
      hwriting.cached_eq ▸ hwriting.committed
    obtain ⟨rfl, hlong⟩ := Database.commit_error hcached hwriting.holding hrun
    obtain ⟨hstores, hrecords⟩ := hkept (.failed hne hunchanged hwriting hdisk hrun)
    refine .failed (fun hfits => ?_) hstores hrecords ?_
    · rw [← hs.disk_eq, ← hdisk, ← hmerged] at hfits
      obtain ⟨db', hcommit, -⟩ := Database.commit_committable hcached hwriting.holding hfits
      rw [hcommit] at hrun
      cases hrun
    · rw [Transaction.closeBase_database]
      exact hlong.congr rfl rfl rfl
  | @published db1 db2 hne hunchanged hwriting hdisk hpub =>
    have hstores : Stores ext order enc db2.disk (tx.merged s' s) { h with database := db2 } := by
      refine ⟨hs.opened, hpub.unlocked, hpub.atMeta.order_eq, rfl, db2.cached, ?_⟩
      rw [← hmerged]
      exact hpub.committed
    have hcached : Committed ext order db1.disk.live db1.cached (stored enc s) :=
      hwriting.cached_eq ▸ hwriting.committed
    refine .committed (Transaction.unchanged_iff.mp hunchanged) (hstores.closeBase tx) ?_
      fun n hshort hroom => ?_
    · have hrecords := hpub.records
      rw [hdisk, hs.disk_eq] at hrecords
      exact hrecords
    · rw [← hs.disk_eq, ← hdisk] at hroom
      rw [← hmerged] at hshort
      obtain ⟨db', hrun, -, hroom'⟩ :=
        Database.commit_short hcached hwriting.holding hshort hroom
      cases hrun.symm.trans hpub.ran
      exact hroom'

/-- A transaction that began with the map of the store finds no conflict: it is
committed, or something is too long to be written and the store keeps the map it has. -/
theorem commit (hs : h.Stores ext order enc d s) (htx : tx.Overlays ext order enc d s s') :
    (∃ h' d', tx.commit ext h = .ok () h' ∧ h'.Stores ext order enc d' s' ∧
        SameRecords d.live.size d.live d'.live ∧
        ∀ n, Short ext order (stored enc s') → Roomy ext order (n + 1) d → Roomy ext order n d') ∨
      ¬ Committable ext order d (stored enc s') ∧
        ∃ h' d', tx.commit ext h = .error .structError h' ∧ h'.Stores ext order enc d' s ∧
          h'.database.Overflows ext := by
  have hsame : stored enc (tx.merged s' s) = stored enc s' := by
    rw [← htx.stored_merged s, htx.overlaid_eq]
  have hsettles := commit_spec hs htx
  generalize tx.commit ext h = result at hsettles ⊢
  cases hsettles with
  | @committed h' d' _ hstores hrecords hroom =>
    rw [hsame] at hroom
    exact .inl ⟨h', d', rfl, { hstores with committed := hsame ▸ hstores.committed }, hrecords, hroom⟩
  | conflicting hchanged _ =>
    obtain ⟨x, -, hne⟩ := hchanged
    exact absurd rfl hne
  | @failed h' d' hfits hstores _ hlong =>
    rw [hsame] at hfits
    exact .inr ⟨hfits, h', d', rfl, hstores, hlong⟩

end Handle.Stores

/-- The store of a new database is empty. -/
theorem Handle.stores_new
    (hnew : Database.connect ext (.blank order (.powerOn .empty)) = .ok () db) :
    (Handle.ofDatabase db).Stores ext order enc db.disk fun _ => none := by
  obtain ⟨d, t, hnew', hc, hat, -, -⟩ := Database.connect_new ext (Database.order_ge_of_connect hnew)
  obtain rfl : _ = db := (EStateM.Result.ok.inj (hnew'.symm.trans hnew)).2
  exact ⟨rfl, rfl, hat.order_eq, rfl, initialMeta, hc⟩

/-- A store that is opened again has the map it had. -/
theorem Handle.Stores.reopen (hs : h.Stores ext order enc d s)
    (hopen : Database.connect ext (.blank order h.database.disk) = .ok () db) :
    (Handle.ofDatabase db).Stores ext order enc db.disk s := by
  obtain ⟨m, hc⟩ := hs.committed
  rw [← hs.disk_eq] at hc
  obtain ⟨d', t, hopen', hc', hat, -⟩ := Database.connect_spec hc
  obtain rfl : _ = db := (EStateM.Result.ok.inj (hopen'.symm.trans hopen)).2
  exact ⟨rfl, rfl, hat.order_eq, rfl, m, hc'⟩

theorem Handle.Stores.reopens (hs : h.Stores ext order enc d s) :
    ∃ db, Database.connect ext (.blank order h.database.disk) = .ok () db := by
  obtain ⟨m, hc⟩ := hs.committed
  rw [← hs.disk_eq] at hc
  obtain ⟨d', t, hopen, -⟩ := Database.connect_spec hc
  exact ⟨_, hopen⟩
