/-
# The indexes of a collection

In every state that a collection reaches from an empty database, an index entry belongs to
a document that has the field, with its value, and every document that has not expired has
an entry for each indexed field it has.  An expired document may lack an entry:
`create_index` passes it over.  The clock never goes back, so it stays expired until it is
written again or deleted, and then its entries are right.
-/
import ImmuStore.CollectionMap
import ImmuStore.JsonValue
import ImmuStore.TextPickle

open JsonValue (writeInt write escape)

variable {V T : Type} {json : Json V T} {fields : List Text} {key : Text} {s : Text → Option V}

/-! ## The invariant -/

namespace Collection

variable [LE T] [DecidableLE T]

/-- What holds of the map of a collection: documents are dictionaries, an expiry record is
a time and belongs to a document, an index entry belongs to a document with its field and
value, and a document has its entries unless it has expired for good. -/
structure Coherent (json : Json V T) (fields : List Text) (clock : ℕ → T) (s : Text → Option V) :
    Prop extends Documented json s where
  entries : ∀ x value, indexPrefix <+: x → s x = some value →
    ∃ field ∈ fields, ∃ key w, FieldOf json s key field w ∧ x = indexKey json field w key ∧
      value = json.str key
  complete : ∀ key field w, FieldOf json s key field w → field ∈ fields →
    s (indexKey json field w key) = some (json.str key) ∨
      ∀ n, expiredAt json s key (clock n) = true

variable {clock : ℕ → T} {names : Set Text}

theorem coherent_empty : Coherent json fields clock fun _ => none where
  toDocumented := .empty
  entries := by simp
  complete := by
    rintro key field w ⟨-, document, items, hs, -⟩
    cases hs

theorem Coherent.entered (h : Coherent json fields clock s) :
    Entered json (fun _ => True) fields clock s := fun key field w hof hfield _ =>
  h.complete key field w hof hfield

theorem Coherent.of_clock (h : Coherent json fields clock s) {clock' : ℕ → T}
    (hclock : ∀ n, ∃ m, clock' n = clock m) : Coherent json fields clock' s where
  toDocumented := h.toDocumented
  entries := h.entries
  complete := fun key field w hof hfield =>
    h.entered.of_clock hclock key field w hof hfield trivial

/-- `set` keeps the invariant. -/
theorem Coherent.set (h : Coherent json fields clock s) (hsep : Separated names)
    (hnames : ∀ f ∈ fields, f ∈ names) (hkey : DocKey key) {document : V}
    {items : Text → Option V} (hitems : json.asDict document = some items) {expiry : Option V}
    (hexpiry : ∀ value ∈ expiry, ∃ t, value = json.number t) :
    Coherent json fields clock (setMap json fields key document items expiry s) := by
  refine ⟨h.toDocumented.set fields hkey hitems hexpiry, ?_, ?_⟩
  · intro x value hx hs
    by_cases hnew : x ∈ entriesOf json fields items key
    · rw [setMap_of_mem hnew] at hs
      obtain ⟨field, hfield, w, hw, rfl⟩ := mem_entriesOf.mp hnew
      exact ⟨field, hfield, key, w, ⟨hkey, document, items, setMap_key hkey, hitems, hw⟩, rfl,
        (Option.some.inj hs).symm⟩
    · by_cases hold : x ∈ oldEntries json fields s key
      · rw [setMap_of_old hold hnew hkey] at hs
        cases hs
      · rw [setMap_other (indexPrefix_ne_expiryKey hx key) (indexPrefix_ne_key hx hkey) hold hnew] at hs
        obtain ⟨field, hfield, k, w, hof, rfl, rfl⟩ := h.entries x value hx hs
        -- an entry of the old document would be among the old entries
        have hne : k ≠ key := by
          rintro rfl
          exact hold ((mem_oldEntries_iff hkey).mpr ⟨field, hfield, w, hof, rfl⟩)
        exact ⟨field, hfield, k, w, hof.congr (setMap_document hof.1 hne), rfl, rfl⟩
  · exact fun k f w hof hf => h.entered.set hsep hnames hkey hitems k f w hof hf trivial

/-- `delete` keeps the invariant. -/
theorem Coherent.delete (h : Coherent json fields clock s) (hsep : Separated names)
    (hnames : ∀ f ∈ fields, f ∈ names) (hkey : DocKey key) :
    Coherent json fields clock (deleteMap json fields key s) := by
  refine ⟨h.toDocumented.delete fields hkey, ?_, ?_⟩
  · intro x value hx hs
    by_cases hold : x ∈ oldEntries json fields s key
    · rw [deleteMap_of_old hold] at hs
      cases hs
    · rw [deleteMap_other (indexPrefix_ne_expiryKey hx key) (indexPrefix_ne_key hx hkey) hold] at hs
      obtain ⟨field, hfield, k, w, hof, rfl, rfl⟩ := h.entries x value hx hs
      have hne : k ≠ key := by
        rintro rfl
        exact hold ((mem_oldEntries_iff hkey).mpr ⟨field, hfield, w, hof, rfl⟩)
      exact ⟨field, hfield, k, w, hof.congr (deleteMap_document hof.1 hne), rfl, rfl⟩
  · exact fun k f w hof hf => h.entered.delete hsep hnames hkey k f w hof hf trivial

/-- `create_index` keeps the invariant, with one more field. -/
theorem Coherent.createIndex [IsTrans T (· ≤ ·)] (h : Coherent json fields clock s)
    (hclock : ∀ i j, i < j → clock i ≤ clock j) (hsep : Separated names)
    (hnames : ∀ f ∈ fields, f ∈ names) {field : Text} (hfield : field ∈ names) {n : ℕ} {l : List Text}
    (hl : ∀ key ∈ l, DocKey key ∧ s key ≠ none)
    (hpassed : ∀ key, DocKey key → s key ≠ none →
      key ∈ l ∨ ∃ i < n, expiredAt json s key (clock i) = true) :
    Coherent json (if field ∈ fields then fields else fields ++ [field]) (fun i => clock (i + n))
      (assignAll s (backfillEntries json field s l)) := by
  have hkeys : ∀ key ∈ l, DocKey key := fun key hkey => (hl key hkey).1
  have hdoc : ∀ {k}, DocKey k → assignAll s (backfillEntries json field s l) k = s k :=
    fun hk => backfill_document hkeys hk
  refine ⟨h.toDocumented.backfill field hkeys, ?_, ?_⟩
  · intro x value hx hs
    by_cases hnew : ∃ key ∈ l, ∃ w, FieldOf json s key field w ∧ x = indexKey json field w key
    · obtain ⟨key, hkey, w, hof, rfl⟩ := hnew
      rw [assignAll_backfill_self hkeys hkey hof] at hs
      exact ⟨field, mem_declared.mpr (.inr rfl), key, w, hof.congr (hdoc hof.1), rfl,
        (Option.some.inj hs).symm⟩
    · rw [assignAll_of_not_mem] at hs
      · obtain ⟨f, hf, key, w, hof, rfl, rfl⟩ := h.entries x value hx hs
        exact ⟨f, mem_declared.mpr (.inl hf), key, w, hof.congr (hdoc hof.1), rfl, rfl⟩
      · intro e he heq
        obtain ⟨key, hkey, w, hof, rfl⟩ := (mem_backfillEntries hkeys).mp he
        exact hnew ⟨key, hkey, w, hof, heq.symm⟩
  · exact fun k f w hof hf =>
      h.entered.createIndex hsep hnames hclock hfield hl hpassed k f w hof hf trivial

end Collection

/-! ## Runs -/

/-- A call that writes. -/
inductive CollectionCall (V T : Type) where
  | set (key : Text) (document : V) (ttl : Option T)
  | delete (key : Text)
  | createIndex (field : Text)
  | sweep

/-- The field that a call declares, if it declares one. -/
def CollectionCall.names : CollectionCall V T → List Text
  | .createIndex field => [field]
  | _ => []

section Runs

variable [DecidableEq V] [LE T] [DecidableLE T]

/-- The call, on a collection. -/
def CollectionCall.run (ext : Externals Text) (json : Json V T) :
    CollectionCall V T → Py (Collection T) Unit
  | .set key document ttl => Collection.set ext json key document ttl
  | .delete key => Collection.delete ext json key
  | .createIndex field => Collection.createIndex ext json field
  | .sweep => do let _ ← Collection.sweep ext json

namespace Collection

/-- The states of a collection that was built on an empty database, with indexed fields
from `names` and a clock that does not go back; a call may return or raise. -/
inductive Reached (ext : Externals Text) (json : Json V T) (order : ℕ) (names : Set Text) :
    Collection T → Prop
  | new {db : Database Text} {fields : List Text} {clock : ℕ → T} :
      Database.connect ext (.blank order (.powerOn .empty)) = .ok () db →
      (∀ f ∈ fields, f ∈ names) → (∀ i j, i < j → clock i ≤ clock j) →
      Reached ext json order names ⟨.ofDatabase db, fields, clock⟩
  | call {c : Collection T} (call : CollectionCall V T) : Reached ext json order names c →
      (∀ f ∈ call.names, f ∈ names) → Reached ext json order names (resultState (call.run ext json c))

omit [DecidableEq V] in
/-- A property of the indexed fields, the clock and the map that every write keeps. -/
structure Kept (json : Json V T) (names : Set Text)
    (P : List Text → (ℕ → T) → (Text → Option V) → Prop) : Prop where
  documented : ∀ {fields clock s}, P fields clock s → Documented json s
  later : ∀ {fields clock s} (n : ℕ), P fields clock s → P fields (fun i => clock (i + n)) s
  set : ∀ {fields clock s key document items expiry}, P fields clock s → DocKey key →
    json.asDict document = some items → (∀ value ∈ expiry, ∃ t, value = json.number t) →
    P fields clock (setMap json fields key document items expiry s)
  delete : ∀ {fields clock s key}, P fields clock s → DocKey key →
    P fields clock (deleteMap json fields key s)
  createIndex : ∀ {fields clock s field n} {l : List Text}, P fields clock s → field ∈ names →
    (∀ key ∈ l, DocKey key ∧ s key ≠ none) →
    (∀ key, DocKey key → s key ≠ none →
      key ∈ l ∨ ∃ i < n, expiredAt json s key (clock i) = true) →
    P (if field ∈ fields then fields else fields ++ [field]) (fun i => clock (i + n))
      (assignAll s (backfillEntries json field s l))

/-- The collection stores a map with the property. -/
def Keeps (ext : Externals Text) (json : Json V T) (order : ℕ)
    (P : List Text → (ℕ → T) → (Text → Option V) → Prop) (c : Collection T) : Prop :=
  ∃ d s, c.db.Stores ext order json.encode d s ∧ P c.indexes c.clock s

variable {ext : Externals Text} {order : ℕ} {names : Set Text} {c : Collection T} {d : Disk}
  {s s' : Text → Option V} {clock : ℕ → T}

section Kept

variable {P : List Text → (ℕ → T) → (Text → Option V) → Prop}

omit [DecidableEq V] [LE T] [DecidableLE T] in
/-- A write keeps the property if the map it commits has it. -/
theorem Writes.keeps {result : EStateM.Result PyError (Collection T) Unit}
    (hw : Writes ext json order d s s' fields clock result) (hs : P fields clock s)
    (hs' : P fields clock s') : Keeps ext json order P (resultState result) := by
  cases hw with
  | committed hstores _ => exact ⟨_, s', hstores, hs'⟩
  | failed _ hstores _ => exact ⟨_, s, hstores, hs⟩

variable (hP : Kept json names P)
include hP

omit [DecidableEq V] in
theorem Keeps.set (h : c.Keeps ext json order P) (key : Text) (document : V) (ttl : Option T) :
    (resultState (Collection.set ext json key document ttl c)).Keeps ext json order P := by
  by_cases hkey : DocKey key
  · cases hitems : json.asDict document with
    | none =>
      rw [set_not_dict key c ttl hkey hitems]
      exact h
    | some items =>
      obtain ⟨d, s, hstores, hs⟩ := h
      have hafter : P c.indexes (clockAfter c.clock ttl) s := hP.later _ hs
      refine (set_spec c.indexes c.clock key hstores hkey hitems ttl).keeps hafter
        (hP.set hafter hkey hitems fun value hvalue => ?_)
      obtain ⟨t, -, rfl⟩ := Option.map_eq_some_iff.mp hvalue
      exact ⟨_, rfl⟩
  · rw [set_refused key c document ttl hkey]
    exact h

theorem Keeps.delete (h : c.Keeps ext json order P) (key : Text) :
    (resultState (Collection.delete ext json key c)).Keeps ext json order P := by
  by_cases hkey : DocKey key
  · obtain ⟨d, s, hstores, hs⟩ := h
    by_cases hbound : (s key).getD json.null = json.null
    · obtain ⟨db', hstores', hrun⟩ := delete_absent c.indexes c.clock key hstores hkey hbound
      rw [hrun]
      exact ⟨d, s, hstores', hs⟩
    · exact (delete_spec c.indexes c.clock key hstores hkey hbound).keeps hs (hP.delete hs hkey)
  · rw [delete_refused key c hkey]
    exact h

theorem Keeps.createIndex (h : c.Keeps ext json order P) {field : Text} (hfield : field ∈ names) :
    (resultState (Collection.createIndex ext json field c)).Keeps ext json order P := by
  obtain ⟨d, s, hstores, hs⟩ := h
  obtain ⟨n, l, hl, hpassed, hrun⟩ := createIndex_spec c.indexes c.clock hstores
    (hP.documented hs).timed (hP.documented hs).nil field
  rcases hrun with ⟨db', d', hrun, hstores'⟩ | ⟨-, db', d', hrun, hstores', -⟩
  · rw [hrun]
    exact ⟨d', _, hstores', hP.createIndex hs hfield hl hpassed⟩
  · rw [hrun]
    exact ⟨d', s, hstores', hP.later n hs⟩

theorem Keeps.deleteAll (h : c.Keeps ext json order P) (keys : List Text) :
    (resultState (Collection.deleteAll ext json keys c)).Keeps ext json order P := by
  induction keys generalizing c with
  | nil => exact h
  | cons key keys ih =>
    have hstep := h.delete hP key
    rw [Collection.deleteAll, run_bind, onKeyError]
    cases hrun : Collection.delete ext json key c with
    | ok _ c1 =>
      rw [hrun] at hstep
      exact ih hstep
    | error e c1 =>
      rw [hrun] at hstep
      cases e with
      | keyError => exact ih hstep
      | _ => exact hstep

theorem Keeps.sweep (h : c.Keeps ext json order P) :
    (resultState (Collection.sweep ext json c)).Keeps ext json order P := by
  obtain ⟨d, s, hstores, hs⟩ := h
  obtain ⟨db1, l, hstores1, -, hscan⟩ := dbScan_spec hstores c.indexes (fun i => c.clock (i + 1))
    (by decide : expiryPrefix ≠ [])
  have h1 : Keeps ext json order P ⟨db1, c.indexes, fun i => c.clock (i + 1)⟩ :=
    ⟨d, s, hstores1, hP.later 1 hs⟩
  simp only [Collection.sweep, run_bind, readClock, hscan]
  cases expiredKeys json (c.clock 0) (l.filter fun e => expiryPrefix.isPrefixOf e.1) with
  | error e => exact h1
  | ok expired =>
    have hdeleted := h1.deleteAll hP expired
    simp only [ofExcept_ok]
    cases hrun : Collection.deleteAll ext json expired ⟨db1, c.indexes, fun i => c.clock (i + 1)⟩ with
    | ok _ c2 =>
      rw [hrun] at hdeleted
      exact hdeleted
    | error e c2 =>
      rw [hrun] at hdeleted
      exact hdeleted

/-- A call keeps the property, whether it returns or raises. -/
theorem Keeps.call (h : c.Keeps ext json order P) (call : CollectionCall V T)
    (hnames : ∀ f ∈ call.names, f ∈ names) :
    (resultState (call.run ext json c)).Keeps ext json order P := by
  cases call with
  | set key document ttl => exact h.set hP key document ttl
  | delete key => exact h.delete hP key
  | createIndex field => exact h.createIndex hP (hnames field (by simp [CollectionCall.names]))
  | sweep =>
    have hswept := h.sweep hP
    rw [CollectionCall.run, run_bind]
    cases hrun : Collection.sweep ext json c with
    | ok _ c1 =>
      rw [hrun] at hswept
      exact hswept
    | error e c1 =>
      rw [hrun] at hswept
      exact hswept

/-- Every state that a collection reaches has a property that holds of the empty map. -/
theorem Reached.keeps (hempty : ∀ fields clock, (∀ f ∈ fields, f ∈ names) →
      (∀ i j, i < j → clock i ≤ clock j) → P fields clock fun _ => none)
    (h : Reached ext json order names c) : c.Keeps ext json order P := by
  induction h with
  | new hnew hnames hclock =>
    exact ⟨_, fun _ => none, Handle.stores_new hnew, hempty _ _ hnames hclock⟩
  | call call _ hnames ih => exact ih.call hP call hnames

end Kept

omit [DecidableEq V] in
/-- Every write keeps the documents as they should be. -/
theorem kept_documented : Kept json names fun _ _ s => Documented json s where
  documented h := h
  later _ h := h
  set h hkey hitems hexpiry := h.set _ hkey hitems hexpiry
  delete h hkey := h.delete _ hkey
  createIndex h _ hl _ := h.backfill _ fun key hkey => (hl key hkey).1

theorem Reached.documented (h : Reached ext json order names c) :
    ∃ d s, c.db.Stores ext order json.encode d s ∧ Documented json s :=
  h.keeps kept_documented fun _ _ _ _ => .empty

omit [DecidableEq V] in
/-- Fields from `names`, a clock that does not go back and a coherent map. -/
structure Sound (json : Json V T) (names : Set Text) (fields : List Text) (clock : ℕ → T)
    (s : Text → Option V) : Prop where
  declared : ∀ f ∈ fields, f ∈ names
  ordered : ∀ i j, i < j → clock i ≤ clock j
  coherent : Coherent json fields clock s

omit [DecidableEq V] in
theorem names_declared {field : Text} (hnames : ∀ f ∈ fields, f ∈ names) (hfield : field ∈ names) :
    ∀ f ∈ (if field ∈ fields then fields else fields ++ [field]), f ∈ names := by
  intro f hf
  rcases mem_declared.mp hf with hf | rfl
  · exact hnames f hf
  · exact hfield

omit [DecidableEq V] in
/-- Every write keeps a sound collection sound. -/
theorem kept_sound [IsTrans T (· ≤ ·)] (hsep : Separated names) :
    Kept json names (Sound json names) where
  documented h := h.coherent.toDocumented
  later n h :=
    ⟨h.declared, fun i j hij => h.ordered _ _ (by omega), h.coherent.of_clock fun i => ⟨i + n, rfl⟩⟩
  set h hkey hitems hexpiry :=
    ⟨h.declared, h.ordered, h.coherent.set hsep h.declared hkey hitems hexpiry⟩
  delete h hkey := ⟨h.declared, h.ordered, h.coherent.delete hsep h.declared hkey⟩
  createIndex h hfield hl hpassed :=
    ⟨names_declared h.declared hfield, fun i j hij => h.ordered _ _ (by omega),
      h.coherent.createIndex h.ordered hsep h.declared hfield hl hpassed⟩

theorem Reached.sound [IsTrans T (· ≤ ·)] (hsep : Separated names)
    (h : Reached ext json order names c) : c.Keeps ext json order (Sound json names) :=
  h.keeps (kept_sound hsep) fun _ _ hnames hclock => ⟨hnames, hclock, coherent_empty⟩

end Collection

end Runs

/-! ## Exactness -/

/-- The entries of the indexed fields are those of the documents: an entry belongs to a
document that has the field with its value, no two documents share an entry, and a
document that has not expired at a reading of the clock still to come has its entries. -/
structure IndexExact [LE T] [DecidableLE T] (json : Json V T) (fields : List Text) (clock : ℕ → T)
    (s : Text → Option V) : Prop where
  sound : ∀ f ∈ fields, ∀ x value, indexPrefix ++ f ++ [nul] <+: x → s x = some value →
    ∃ v key w, x = indexKey json f v key ∧ value = json.str key ∧ FieldOf json s key f w ∧
      valueToken json w = valueToken json v
  unshared : ∀ f ∈ fields, ∀ g ∈ fields, ∀ v w key key',
    indexKey json f v key = indexKey json g w key' → key = key'
  complete : ∀ key f w n, FieldOf json s key f w → f ∈ fields →
    Collection.expiredAt json s key (clock n) = false →
    s (indexKey json f w key) = some (json.str key)

theorem Collection.Coherent.exact [LE T] [DecidableLE T] {clock : ℕ → T} {names : Set Text}
    (h : Coherent json fields clock s) (hsep : Separated names) (hnames : ∀ f ∈ fields, f ∈ names) :
    IndexExact json fields clock s where
  sound := by
    intro f hf x value hpre hs
    have hindex : indexPrefix <+: x := (List.prefix_append _ _).trans
      ((List.append_assoc ..).symm ▸ hpre)
    obtain ⟨g, hg, key, w, hof, rfl, rfl⟩ := h.entries x value hindex hs
    obtain ⟨rest, hrest⟩ := hpre
    simp only [indexKey, List.append_assoc, List.append_cancel_left_eq, List.singleton_append] at hrest
    obtain ⟨rfl, -⟩ := hsep.eq_of_append (hnames f hf) (hnames g hg) hrest
    exact ⟨w, key, w, rfl, rfl, hof, rfl⟩
  unshared := fun f hf g hg v w key key' heq =>
    (hsep.indexKey_inj (hnames f hf) (hnames g hg) heq).2.2
  complete := by
    intro key f w n hof hf hlive
    rcases h.complete key f w hof hf with hentry | hexpired
    · exact hentry
    · rw [hexpired n] at hlive
      cases hlive

/-- **The secondary indexes are exact.**  In every state that a collection reaches from an
empty database, with indexed field names without NUL and a clock that does not go back,
the database serves a map whose index entries are exactly those of its documents, up to
documents that have expired. -/
theorem indexes_exact [DecidableEq V] [LE T] [DecidableLE T] [IsTrans T (· ≤ ·)]
    (ext : Externals Text) (json : Json V T) (order : ℕ) {c : Collection T}
    (hreached : Collection.Reached ext json order {f | nul ∉ f} c) :
    ∃ s, c.db.database.Serves ext (stored json.encode s) ∧
      IndexExact json c.indexes c.clock s := by
  obtain ⟨d, s, hstores, hsound⟩ := hreached.sound separated_of_no_nul
  exact ⟨s, hstores.serves, hsound.coherent.exact separated_of_no_nul hsound.declared⟩

/-! ### A sample -/

/-- Values to try a collection with: a dictionary has the number 1 under each of its keys,
which are in order. -/
inductive SampleValue where
  | null
  | number (n : ℕ)
  | text (s : Text)
  | dict (keys : List Text)
  deriving DecidableEq

namespace SampleValue

/-- The value in JSON. -/
def toJson : SampleValue → JsonValue Empty
  | .null => .null
  | .number n => .int n
  | .text s => .str (.ofList s)
  | .dict keys => .dict (keys.map fun key => (.ofList key, .int 1))

theorem toJson_injective : Function.Injective toJson := by
  intro v w h
  cases v with
  | null => cases w with
    | null => rfl
    | _ => cases h
  | number n => cases w with
    | number n' => rw [Int.ofNat.inj (JsonValue.int.inj h)]
    | _ => cases h
  | text s => cases w with
    | text s' => rw [String.ofList_inj.mp (JsonValue.str.inj h)]
    | _ => cases h
  | dict keys => cases w with
    | dict keys' =>
      have hkeys := congrArg (List.map Prod.fst) (JsonValue.dict.inj h)
      simp only [List.map_map, Function.comp_def] at hkeys
      rw [List.map_injective_iff.mpr (fun _ _ => String.ofList_inj.mp) hkeys]
    | _ => cases h

/-- The text of a value has no NUL. -/
theorem nul_not_mem_write {gap : Text} (hgap : nul ∉ gap) (v : SampleValue) :
    nul ∉ v.toJson.write gap := by
  have hint : ∀ n : ℕ, nul ∉ writeInt n := by
    intro n hmem
    rw [writeInt, if_neg (by omega)] at hmem
    exact absurd (Nat.isDigit_of_mem_toDigits (by decide) (by decide) hmem) (by decide)
  have hstring : ∀ s, nul ∉ JsonValue.writeString s := by
    intro s
    have hescape : ∀ c, nul ∉ escape c := by
      intro c
      have hhex : ∀ n < 16, nul ≠ Resp.hexDigit n := by decide
      unfold escape
      split_ifs with hc
      · have hlt := JsonValue.toNat_lt_of_escaped hc
        simp only [List.mem_cons, List.not_mem_nil, or_false, not_or]
        exact ⟨by decide, by decide, by decide, by decide, hhex _ (by omega), hhex _ (by omega)⟩
      · rw [List.mem_singleton]
        rintro rfl
        exact hc (.inl (by decide))
    have hquote : nul ≠ '"' := by decide
    simp [JsonValue.writeString, hescape, hquote]
  cases v with
  | null => simp [toJson, write, nul]
  | number n => exact hint n
  | text s => exact hstring _
  | dict keys =>
    have hcomma : nul ∉ ',' :: gap := by simpa [nul] using hgap
    rw [toJson, write, JsonValue.writeEntries_eq, List.mem_cons, not_or]
    refine ⟨by decide, JsonValue.not_mem_joined (by decide) hcomma (by simp) fun entry hentry => ?_⟩
    obtain ⟨key, -, rfl⟩ := List.mem_map.mp hentry
    have hcolon : nul ∉ ':' :: gap := by simpa [nul] using hgap
    simp only [JsonValue.writeEntry, List.mem_append, not_or]
    exact ⟨hstring _, hcolon, hint 1⟩

end SampleValue

/-- The samples in JSON. -/
noncomputable def docJson : Json SampleValue ℕ where
  null := .null
  str := .text
  number := .number
  asStr := fun
    | .text s => some s
    | _ => none
  asNumber := fun
    | .number n => some n
    | _ => none
  asDict := fun
    | .dict keys => some fun field => if field ∈ keys then some (.number 1) else none
    | _ => none
  intOfFloat v := v
  add := (· + ·)
  dumps v := v.toJson.write [' ']
  encode v := Resp.utf8Encode (v.toJson.write [])
  decode bytes := open Classical in
    if h : ∃ v : SampleValue, Resp.utf8Encode (v.toJson.write []) = bytes then .ok h.choose
    else .error .valueError
  asStr_str _ := rfl
  asNumber_number _ := rfl
  asStr_null := rfl
  asNumber_null := rfl
  asDict_null := rfl
  decode_encode v := by
    have hex : ∃ w : SampleValue, Resp.utf8Encode (w.toJson.write []) = Resp.utf8Encode (v.toJson.write []) :=
      ⟨v, rfl⟩
    have htext := JsonValue.write_injective [] (Resp.utf8Encode_injective hex.choose_spec)
    rw [dif_pos hex, SampleValue.toJson_injective htext]
  nul_not_mem_dumps := SampleValue.nul_not_mem_write (by decide)

/-- The map of a sample collection after a document has been written, under `k`. -/
noncomputable abbrev sampleSet (fields keys : List Text) (expiry : Option SampleValue)
    (s : Text → Option SampleValue) : Text → Option SampleValue :=
  setMap docJson fields ['k'] (.dict keys)
    (fun field => if field ∈ keys then some (.number 1) else none) expiry s

/-- The map of a sample collection with an index on `f` and one document. -/
noncomputable def sampleDocuments (keys : List Text) : Text → Option SampleValue :=
  sampleSet [['f']] keys none fun _ => none

theorem docKey_k : DocKey ['k'] := by
  constructor
  · simp
  · rw [← List.isPrefixOf_iff_prefix]
    decide

/-- What a sample collection stores. -/
theorem sampleDocuments_eq (keys : List Text) (x : Text) :
    sampleDocuments keys x =
      if x = ['k'] then some (.dict keys)
      else if ['f'] ∈ keys ∧ x = indexKey docJson ['f'] (.number 1) ['k'] then some (.text ['k'])
      else none := by
  have hold : oldEntries docJson [['f']] (fun _ => none) ['k'] = [] := rfl
  have hentries : ∀ x, x ∈ entriesOf docJson [['f']]
      (fun field => if field ∈ keys then some (.number 1) else none) ['k'] ↔
        ['f'] ∈ keys ∧ x = indexKey docJson ['f'] (.number 1) ['k'] := by
    intro x
    rw [mem_entriesOf]
    simp
  by_cases hk : x = ['k']
  · rw [if_pos hk, hk]
    exact setMap_key docKey_k
  · rw [if_neg hk]
    by_cases hentry : ['f'] ∈ keys ∧ x = indexKey docJson ['f'] (.number 1) ['k']
    · rw [if_pos hentry]
      exact setMap_of_mem ((hentries x).mpr hentry)
    · rw [if_neg hentry]
      by_cases hexpiry : x = expiryKey ['k']
      · rw [hexpiry]
        exact setMap_expiryKey
      · refine setMap_other hexpiry hk (by simp [hold]) ?_
        rw [hentries]
        exact hentry

/-- Without indexes and expiry, a document is stored alone. -/
theorem setMap_lone {document : V} {items : Text → Option V} {x : Text} (hx : x ≠ key) :
    setMap json [] key document items none (fun _ => none) x = none := by
  by_cases hexpiry : x = expiryKey key
  · rw [hexpiry]
    exact setMap_expiryKey
  · exact setMap_other hexpiry hx (by simp [oldEntries]) (by simp [entriesOf])

theorem length_encode_number {n : ℕ} (hn : n < 10 ^ 9) :
    (docJson.encode (.number n)).length < 256 ^ 4 := by
  have hdigits : (Nat.toDigits 10 n).length ≤ 9 :=
    (Nat.length_toDigits_le_iff (by decide) (by decide)).mpr hn
  have hutf8 := (length_utf8Encode (writeInt n)).2
  rw [writeInt, if_neg (by omega), Int.natAbs_natCast] at hutf8
  show (Resp.utf8Encode (writeInt n)).length < 256 ^ 4
  rw [writeInt, if_neg (by omega), Int.natAbs_natCast]
  omega

/-- The keys of a sample collection. -/
noncomputable def sampleKeys : List Text :=
  [['k'], expiryKey ['k'], indexKey docJson ['f'] (.number 1) ['k']]

/-- The map has a few keys only, and its values are short. -/
def Sampled (s : Text → Option SampleValue) : Prop :=
  ∀ x value, s x = some value → x ∈ sampleKeys ∧ (docJson.encode value).length < 256 ^ 4

namespace Sampled

variable {s : Text → Option SampleValue} {fields keys : List Text}

theorem empty : Sampled fun _ => none := by
  intro x value hs
  cases hs

theorem short (h : Sampled s) : Short textExt 64 (stored docJson.encode s) := by
  have hfew : Few sampleKeys (stored docJson.encode s) := by
    intro x bytes hs
    obtain ⟨value, hvalue, rfl⟩ := Option.map_eq_some_iff.mp hs
    exact h x value hvalue
  exact hfew.short Function.injective_id (by decide) (by decide)

/-- A map that differs on the keys of a sample collection. -/
theorem congr {s' : Text → Option SampleValue} (h : Sampled s)
    (hs' : ∀ x value, s' x = some value →
      s x = some value ∨ x ∈ sampleKeys ∧ (docJson.encode value).length < 256 ^ 4) :
    Sampled s' := by
  intro x value hvalue
  rcases hs' x value hvalue with hsame | hnew
  · exact h x value hsame
  · exact hnew

theorem set (h : Sampled s) (hfields : ∀ f ∈ fields, f = ['f'])
    (hkeys : keys = [] ∨ keys = [['f']]) (expiry : Option SampleValue)
    (hexpiry : ∀ value ∈ expiry, (docJson.encode value).length < 256 ^ 4) :
    Sampled (sampleSet fields keys expiry s) := by
  refine h.congr fun x value hvalue => ?_
  rw [sampleSet] at hvalue
  by_cases hx : x = expiryKey ['k']
  · subst hx
    rw [setMap_expiryKey] at hvalue
    exact .inr ⟨by simp [sampleKeys], hexpiry value hvalue⟩
  by_cases hk : x = ['k']
  · subst hk
    rw [setMap_key docKey_k] at hvalue
    cases hvalue
    refine .inr ⟨by simp [sampleKeys], ?_⟩
    rcases hkeys with rfl | rfl <;> decide +kernel
  by_cases hnew : x ∈ entriesOf docJson fields
      (fun field => if field ∈ keys then some (.number 1) else none) ['k']
  · rw [setMap_of_mem hnew] at hvalue
    cases hvalue
    obtain ⟨field, hfield, w, hw, rfl⟩ := mem_entriesOf.mp hnew
    obtain rfl := hfields field hfield
    obtain ⟨-, hw⟩ := Option.ite_none_right_eq_some.mp hw
    cases hw
    exact .inr ⟨by simp [sampleKeys], by decide +kernel⟩
  by_cases hold : x ∈ oldEntries docJson fields s ['k']
  · rw [setMap_of_old hold hnew docKey_k] at hvalue
    cases hvalue
  · rw [setMap_other hx hk hold hnew] at hvalue
    exact .inl hvalue

end Sampled

/-- A sample collection that has been built on a new file. -/
theorem sample_new : ∃ (db : Database Text) (d : Disk),
    Database.connect textExt (.blank 64 (.powerOn .empty)) = .ok () db ∧
    (Handle.ofDatabase db).Stores textExt 64 docJson.encode d (fun _ => none) ∧
    Roomy textExt 64 1000000 d := by
  obtain ⟨d, t, hnew, hc, -, -, hsize⟩ :=
    Database.connect_new textExt (by decide : 3 ≤ 64)
  exact ⟨_, d, hnew, Handle.stores_new hnew, roomy_new hc hsize⟩

/-- A sample collection stores its document. -/
theorem sample_set (fields : List Text) (hfields : ∀ f ∈ fields, f = ['f']) (keys : List Text)
    (hkeys : keys = [] ∨ keys = [['f']]) (ttl : Option ℕ) (httl : ∀ t ∈ ttl, t < 10 ^ 9) :
    ∃ (db : Database Text) (c : Collection ℕ) (d : Disk),
      Database.connect textExt (.blank 64 (.powerOn .empty)) = .ok () db ∧
      Collection.set textExt docJson ['k'] (.dict keys) ttl
        ⟨.ofDatabase db, fields, fun _ => 0⟩ = .ok () c ∧
      c.indexes = fields ∧ c.clock = (fun _ => 0) ∧
      c.db.Stores textExt 64 docJson.encode d
        (sampleSet fields keys (ttl.map .number) fun _ => none) ∧
      Roomy textExt 64 999999 d := by
  obtain ⟨db, d, hnew, hs, hroom⟩ := sample_new
  have hwrites := Collection.set_spec fields (fun _ => 0) ['k'] hs docKey_k
    (rfl : docJson.asDict (.dict keys) = some _) ttl
  have hexpiry : Collection.expiryOf docJson (fun _ => 0) ttl = ttl.map .number := by
    cases ttl with
    | none => rfl
    | some t => exact congrArg (fun n => some (SampleValue.number n)) (Nat.zero_add t)
  rw [hexpiry] at hwrites
  have hshort := (Sampled.empty.set hfields hkeys (ttl.map .number) fun value hvalue => by
    obtain ⟨t, ht, rfl⟩ := Option.map_eq_some_iff.mp hvalue
    exact length_encode_number (httl t ht)).short
  obtain ⟨db', d', hrun, hs', hroom'⟩ := hwrites.returns hshort hroom
  exact ⟨db, _, d', hnew, hrun, rfl, rfl, hs', hroom'⟩

/-- A sample collection with an index on `f` has been reached. -/
theorem sample_reached (keys : List Text) (hkeys : keys = [] ∨ keys = [['f']]) :
    ∃ (c : Collection ℕ) (d : Disk), c.indexes = [['f']] ∧
      Collection.Reached textExt docJson 64 {f | nul ∉ f} c ∧
      c.db.Stores textExt 64 docJson.encode d (sampleDocuments keys) := by
  obtain ⟨db, c, d, hnew, hrun, hindexes, -, hstores, -⟩ := sample_set [['f']] (by simp) keys hkeys none
    (by simp)
  refine ⟨c, d, hindexes, ?_, hstores⟩
  have hstart : Collection.Reached textExt docJson 64 {f | nul ∉ f}
      ⟨.ofDatabase db, [['f']], fun _ => 0⟩ := by
    refine .new hnew (fun f hf => ?_) fun i j _ => Nat.le_refl 0
    obtain rfl := List.mem_singleton.mp hf
    decide
  have hcall := hstart.call (.set ['k'] (.dict keys) none) (by simp [CollectionCall.names])
  rwa [CollectionCall.run, hrun] at hcall

theorem indexes_exact_sample :
    ∃ (c : Collection ℕ) (s : Text → Option SampleValue),
      Collection.Reached textExt docJson 64 {f | nul ∉ f} c ∧
      c.db.database.Serves textExt (stored docJson.encode s) ∧
      IndexExact docJson c.indexes c.clock s ∧ s ['k'] = some (.dict [['f']]) ∧
      s (indexKey docJson ['f'] (.number 1) ['k']) = some (.text ['k']) := by
  obtain ⟨c, d, -, hreached, hstores⟩ := sample_reached [['f']] (.inr rfl)
  obtain ⟨s, hserves, hexact⟩ := indexes_exact textExt docJson 64 hreached
  -- the map that the database serves is the one that was written
  have hstored : stored docJson.encode s = stored docJson.encode (sampleDocuments [['f']]) :=
    hserves.unique hstores.serves
  have hmap : s = sampleDocuments [['f']] := stored_injective docJson.roundTrips hstored
  refine ⟨c, s, hreached, hserves, hexact, ?_, ?_⟩
  · rw [hmap, sampleDocuments_eq, if_pos rfl]
  · rw [hmap, sampleDocuments_eq, if_neg (docKey_k.ne_indexKey ['f'] _ ['k']).symm,
      if_pos ⟨by simp, rfl⟩]
