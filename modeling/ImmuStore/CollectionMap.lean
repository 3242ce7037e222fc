/-
# The maps of a collection

What `set`, `delete` and `create_index` make of the map they find, key by key: a document
and its expiry record change with the methods that name their key only, whatever fields
are indexed.  So documents are dictionaries and expiry records are times that belong to a
document, in every state.
-/
import ImmuStore.CollectionSpec

variable {V T : Type} {json : Json V T} {fields : List Text} {key : Text} {s : Text → Option V}
variable {field x : Text} {keys l : List Text}
variable {s' : Text → Option V} {value : Option V}

/-! ## The maps that the methods leave -/

/-- The document under the key has the field, with the value. -/
def FieldOf (json : Json V T) (s : Text → Option V) (key field : Text) (value : V) : Prop :=
  DocKey key ∧ ∃ document items, s key = some document ∧ json.asDict document = some items ∧
    items field = some value

/-- A field is read from its document alone. -/
theorem FieldOf.congr {value : V} (h : FieldOf json s key field value) (hsame : s' key = s key) :
    FieldOf json s' key field value := by
  obtain ⟨hkey, document, items, hs, hitems, hvalue⟩ := h
  exact ⟨hkey, document, items, hsame.trans hs, hitems, hvalue⟩

/-- The keys of index entries. -/
def IsIndexKey (json : Json V T) (x : Text) : Prop :=
  ∃ field value key, x = indexKey json field value key

/-- No document is stored under an index key. -/
theorem DocKey.not_isIndexKey (h : DocKey key) : ¬ IsIndexKey json key := by
  rintro ⟨field, value, key', heq⟩
  exact h.ne_indexKey field value key' heq

theorem expiryKey_not_isIndexKey (key : Text) : ¬ IsIndexKey json (expiryKey key) := by
  rintro ⟨field, value, key', heq⟩
  exact indexKey_ne_expiryKey field value key' key heq.symm

theorem nil_not_isIndexKey : ¬ IsIndexKey json [] := by
  rintro ⟨field, value, key, heq⟩
  exact indexKey_ne_nil json field value key heq.symm

theorem not_mem_entriesOf {items : Text → Option V} (h : ¬ IsIndexKey json x) :
    x ∉ entriesOf json fields items key := by
  intro hx
  obtain ⟨field, -, value, -, heq⟩ := mem_entriesOf.mp hx
  exact h ⟨field, value, key, heq⟩

theorem not_mem_oldEntries (h : ¬ IsIndexKey json x) : x ∉ oldEntries json fields s key := by
  intro hx
  obtain ⟨-, -, -, -, field, -, value, -, heq⟩ := mem_oldEntries.mp hx
  exact h ⟨field, value, key, heq⟩

section Separated

variable {names : Set Text} (hsep : Separated names) (hnames : ∀ f ∈ fields, f ∈ names)
include hsep hnames

/-- The entries of two documents are different. -/
theorem not_mem_entriesOf_of_ne {items : Text → Option V} {key' field : Text} {w : V}
    (hne : key' ≠ key) (hfield : field ∈ fields) :
    indexKey json field w key' ∉ entriesOf json fields items key := by
  intro hx
  obtain ⟨field', hfield', value, -, heq⟩ := mem_entriesOf.mp hx
  exact hne (hsep.indexKey_inj (hnames _ hfield) (hnames _ hfield') heq).2.2

theorem not_mem_oldEntries_of_ne {key' field : Text} {w : V} (hne : key' ≠ key)
    (hfield : field ∈ fields) : indexKey json field w key' ∉ oldEntries json fields s key := by
  intro hx
  obtain ⟨-, -, -, -, field', hfield', value, -, heq⟩ := mem_oldEntries.mp hx
  exact hne (hsep.indexKey_inj (hnames _ hfield) (hnames _ hfield') heq).2.2

end Separated

/-- The old entries of a document are those of its fields. -/
theorem mem_oldEntries_iff (hkey : DocKey key) :
    x ∈ oldEntries json fields s key ↔
      ∃ field ∈ fields, ∃ value, FieldOf json s key field value ∧ x = indexKey json field value key := by
  rw [mem_oldEntries]
  constructor
  · rintro ⟨document, items, hs, hitems, field, hfield, value, hvalue, rfl⟩
    exact ⟨field, hfield, value, ⟨hkey, document, items, hs, hitems, hvalue⟩, rfl⟩
  · rintro ⟨field, hfield, value, ⟨-, document, items, hs, hitems, hvalue⟩, rfl⟩
    exact ⟨document, items, hs, hitems, field, hfield, value, hvalue, rfl⟩

theorem assignAll_map_of_mem (hx : x ∈ l) : assignAll s (l.map fun x => (x, value)) x = value := by
  refine assignAll_of_mem (List.mem_map_of_mem hx) fun e he _ => ?_
  obtain ⟨y, -, rfl⟩ := List.mem_map.mp he
  rfl

theorem assignAll_map_of_not_mem (hx : x ∉ l) :
    assignAll s (l.map fun x => (x, value)) x = s x := by
  refine assignAll_of_not_mem fun e he heq => ?_
  obtain ⟨y, hy, rfl⟩ := List.mem_map.mp he
  exact hx (heq ▸ hy)

section SetMap

variable {document : V} {items : Text → Option V} {expiry : Option V} {x : Text}

theorem setMap_expiryKey : setMap json fields key document items expiry s (expiryKey key) = expiry :=
  assign_self

/-- `set` enters the new entries, -/
theorem setMap_of_mem (hx : x ∈ entriesOf json fields items key) :
    setMap json fields key document items expiry s x = some (json.str key) := by
  have hne : x ≠ expiryKey key := by
    obtain ⟨field, -, value, -, rfl⟩ := mem_entriesOf.mp hx
    exact indexKey_ne_expiryKey _ _ _ _
  rw [setMap, assign_of_ne hne, assignAll_map_of_mem hx]

/-- stores the document, -/
theorem setMap_key (hkey : DocKey key) :
    setMap json fields key document items expiry s key = some document := by
  rw [setMap, assign_of_ne (hkey.ne_expiryKey key),
    assignAll_map_of_not_mem (not_mem_entriesOf hkey.not_isIndexKey), assign_self]

/-- drops the old entries that are not new ones, -/
theorem setMap_of_old (hx : x ∈ oldEntries json fields s key)
    (hnew : x ∉ entriesOf json fields items key) (hkey : DocKey key) :
    setMap json fields key document items expiry s x = none := by
  have hne : x ≠ expiryKey key ∧ x ≠ key := by
    obtain ⟨-, -, -, -, field, -, value, -, rfl⟩ := mem_oldEntries.mp hx
    exact ⟨indexKey_ne_expiryKey _ _ _ _, (hkey.ne_indexKey field value key).symm⟩
  rw [setMap, assign_of_ne hne.1, assignAll_map_of_not_mem hnew, assign_of_ne hne.2,
    assignAll_map_of_mem hx]

/-- and leaves the rest. -/
theorem setMap_other (hexpiry : x ≠ expiryKey key) (hkey : x ≠ key)
    (hold : x ∉ oldEntries json fields s key) (hnew : x ∉ entriesOf json fields items key) :
    setMap json fields key document items expiry s x = s x := by
  rw [setMap, assign_of_ne hexpiry, assignAll_map_of_not_mem hnew, assign_of_ne hkey,
    assignAll_map_of_not_mem hold]

/-- `delete` drops the entries of its document, -/
theorem deleteMap_of_old (hx : x ∈ oldEntries json fields s key) :
    deleteMap json fields key s x = none := by
  by_cases hexpiry : x = expiryKey key
  · rw [hexpiry]
    exact assign_self
  · by_cases hkey : x = key
    · rw [deleteMap, assign_of_ne hexpiry, hkey, assign_self]
    · rw [deleteMap, assign_of_ne hexpiry, assign_of_ne hkey, assignAll_map_of_mem hx]

/-- the document, -/
theorem deleteMap_key (hkey : DocKey key) : deleteMap json fields key s key = none := by
  rw [deleteMap, assign_of_ne (hkey.ne_expiryKey key), assign_self]

theorem deleteMap_expiryKey : deleteMap json fields key s (expiryKey key) = none := assign_self

/-- and nothing else. -/
theorem deleteMap_other (hexpiry : x ≠ expiryKey key) (hkey : x ≠ key)
    (hold : x ∉ oldEntries json fields s key) : deleteMap json fields key s x = s x := by
  rw [deleteMap, assign_of_ne hexpiry, assign_of_ne hkey, assignAll_map_of_not_mem hold]

end SetMap

/-- One entry for each document that has the field. -/
theorem mem_backfillEntries {e : Text × Option V} (hkeys : ∀ key ∈ keys, DocKey key) :
    e ∈ backfillEntries json field s keys ↔
      ∃ key ∈ keys, ∃ value, FieldOf json s key field value ∧
        e = (indexKey json field value key, some (json.str key)) := by
  simp only [backfillEntries, List.mem_filterMap, Option.map_eq_some_iff]
  constructor
  · rintro ⟨key, hkey, value, hvalue, rfl⟩
    obtain ⟨items, hitems, hvalue⟩ := Option.bind_eq_some_iff.mp hvalue
    obtain ⟨document, hs, hdict⟩ := Option.bind_eq_some_iff.mp hitems
    exact ⟨key, hkey, value, ⟨hkeys key hkey, document, items, hs, hdict, hvalue⟩, rfl⟩
  · rintro ⟨key, hkey, value, ⟨-, document, items, hs, hdict, hvalue⟩, rfl⟩
    refine ⟨key, hkey, value, ?_, rfl⟩
    simp [hs, hdict, hvalue]

/-- A key that no entry of a new index has keeps its value. -/
theorem assignAll_backfill_other (hkeys : ∀ key ∈ keys, DocKey key)
    (hx : ∀ key w, x ≠ indexKey json field w key) :
    assignAll s (backfillEntries json field s keys) x = s x := by
  refine assignAll_of_not_mem fun e he heq => ?_
  obtain ⟨key, -, w, -, rfl⟩ := (mem_backfillEntries hkeys).mp he
  exact hx key w heq.symm

/-- The entry of a new index, once it has been written for a document. -/
theorem assignAll_backfill_self {w : V} (hkeys : ∀ key ∈ keys, DocKey key)
    (hkey : key ∈ keys) (hof : FieldOf json s key field w) :
    assignAll s' (backfillEntries json field s keys) (indexKey json field w key) =
      some (json.str key) := by
  refine assignAll_of_mem ((mem_backfillEntries hkeys).mpr ⟨key, hkey, w, hof, rfl⟩) fun e he heq => ?_
  obtain ⟨key', -, w', -, rfl⟩ := (mem_backfillEntries hkeys).mp he
  have hsep : Separated {field} := by
    rintro f rfl g rfl hpre
    have := hpre.length_le
    simp at this
  obtain ⟨-, -, rfl⟩ := hsep.indexKey_inj rfl rfl heq
  rfl

/-! ## Documents and expiry records -/

section Frames

variable {document : V} {items : Text → Option V} {expiry : Option V} {k : Text}

/-- Other documents are kept, with their expiry. -/
theorem setMap_document (hk : DocKey k) (hne : k ≠ key) :
    setMap json fields key document items expiry s k = s k :=
  setMap_other (hk.ne_expiryKey key) hne (not_mem_oldEntries hk.not_isIndexKey)
    (not_mem_entriesOf hk.not_isIndexKey)

theorem setMap_expiry (hkey : DocKey key) (hne : k ≠ key) :
    setMap json fields key document items expiry s (expiryKey k) = s (expiryKey k) :=
  setMap_other (fun heq => hne (expiryKey_inj.mp heq)) (hkey.ne_expiryKey k).symm
    (not_mem_oldEntries (expiryKey_not_isIndexKey k)) (not_mem_entriesOf (expiryKey_not_isIndexKey k))

theorem deleteMap_document (hk : DocKey k) (hne : k ≠ key) :
    deleteMap json fields key s k = s k :=
  deleteMap_other (hk.ne_expiryKey key) hne (not_mem_oldEntries hk.not_isIndexKey)

theorem deleteMap_expiry (hkey : DocKey key) (hne : k ≠ key) :
    deleteMap json fields key s (expiryKey k) = s (expiryKey k) :=
  deleteMap_other (fun heq => hne (expiryKey_inj.mp heq)) (hkey.ne_expiryKey k).symm
    (not_mem_oldEntries (expiryKey_not_isIndexKey k))

variable {field : Text} {keys : List Text} (hkeys : ∀ key ∈ keys, DocKey key)
include hkeys

/-- Filling an index changes no document. -/
theorem backfill_document (hk : DocKey k) :
    assignAll s (backfillEntries json field s keys) k = s k :=
  assignAll_backfill_other hkeys fun key w => hk.ne_indexKey field w key

theorem backfill_expiry (k : Text) :
    assignAll s (backfillEntries json field s keys) (expiryKey k) = s (expiryKey k) :=
  assignAll_backfill_other hkeys fun key w => (indexKey_ne_expiryKey field w key k).symm

end Frames

/-- Documents are dictionaries, and an expiry record is a time. -/
structure WellFormed (json : Json V T) (s : Text → Option V) : Prop where
  nil : s [] = none
  documents : ∀ key document, DocKey key → s key = some document →
    json.asDict document ≠ none
  timed : Collection.Timed json s

/-- A document is not `None`. -/
theorem WellFormed.ne_null (h : WellFormed json s) (hkey : DocKey key) {document : V}
    (hs : s key = some document) : document ≠ json.null := by
  rintro rfl
  exact h.documents key _ hkey hs json.asDict_null

/-- An expiry record moreover belongs to a document. -/
structure Documented (json : Json V T) (s : Text → Option V) : Prop extends WellFormed json s where
  owned : ∀ key, s (expiryKey key) ≠ none → DocKey key ∧ s key ≠ none

namespace Documented

theorem empty : Documented json fun _ => none where
  nil := rfl
  documents := by simp
  timed := by simp [Collection.Timed]
  owned := by simp

/-- A map with the same documents and expiry records. -/
theorem congr {s' : Text → Option V} (h : Documented json s) (hnil : s' [] = s [])
    (hdoc : ∀ k, DocKey k → s' k = s k) (hexp : ∀ k, s' (expiryKey k) = s (expiryKey k)) :
    Documented json s' where
  nil := hnil.trans h.nil
  documents k document hk hs := h.documents k document hk ((hdoc k hk).symm.trans hs)
  timed k value hs := h.timed k value ((hexp k).symm.trans hs)
  owned k hs := by
    obtain ⟨hk, hbound⟩ := h.owned k (hexp k ▸ hs)
    exact ⟨hk, by rwa [hdoc k hk]⟩

variable (fields) in
/-- `set` keeps documents and expiry records well formed. -/
theorem set (h : Documented json s) (hkey : DocKey key) {document : V}
    {items : Text → Option V} (hitems : json.asDict document = some items) {expiry : Option V}
    (hexpiry : ∀ value ∈ expiry, ∃ t, value = json.number t) :
    Documented json (setMap json fields key document items expiry s) where
  nil := by
    rw [setMap_other (expiryKey_ne_nil key).symm hkey.1.symm (not_mem_oldEntries nil_not_isIndexKey)
      (not_mem_entriesOf nil_not_isIndexKey), h.nil]
  documents k document' hk hs := by
    by_cases hne : k = key
    · subst hne
      rw [setMap_key hk] at hs
      cases hs
      simp [hitems]
    · rw [setMap_document hk hne] at hs
      exact h.documents k document' hk hs
  timed k value hs := by
    by_cases hne : k = key
    · subst hne
      rw [setMap_expiryKey] at hs
      exact hexpiry value hs
    · rw [setMap_expiry hkey hne] at hs
      exact h.timed k value hs
  owned k hs := by
    by_cases hne : k = key
    · subst hne
      exact ⟨hkey, by simp [setMap_key hkey]⟩
    · rw [setMap_expiry hkey hne] at hs
      obtain ⟨hk, hbound⟩ := h.owned k hs
      exact ⟨hk, by rwa [setMap_document hk hne]⟩

variable (fields) in
/-- So does `delete`. -/
theorem delete (h : Documented json s) (hkey : DocKey key) :
    Documented json (deleteMap json fields key s) where
  nil := by
    rw [deleteMap_other (expiryKey_ne_nil key).symm hkey.1.symm
      (not_mem_oldEntries nil_not_isIndexKey), h.nil]
  documents k document hk hs := by
    by_cases hne : k = key
    · subst hne
      rw [deleteMap_key hk] at hs
      cases hs
    · rw [deleteMap_document hk hne] at hs
      exact h.documents k document hk hs
  timed k value hs := by
    by_cases hne : k = key
    · subst hne
      rw [deleteMap_expiryKey] at hs
      cases hs
    · rw [deleteMap_expiry hkey hne] at hs
      exact h.timed k value hs
  owned k hs := by
    by_cases hne : k = key
    · subst hne
      exact absurd deleteMap_expiryKey hs
    · rw [deleteMap_expiry hkey hne] at hs
      obtain ⟨hk, hbound⟩ := h.owned k hs
      exact ⟨hk, by rwa [deleteMap_document hk hne]⟩

theorem backfill (h : Documented json s) (field : Text) {keys : List Text}
    (hkeys : ∀ key ∈ keys, DocKey key) :
    Documented json (assignAll s (backfillEntries json field s keys)) :=
  h.congr (assignAll_backfill_other hkeys fun key w => (indexKey_ne_nil json field w key).symm)
    (fun _ hk => backfill_document hkeys hk) (backfill_expiry hkeys)

end Documented

/-! ## Index entries -/

theorem indexPrefix_ne_expiryKey (hx : indexPrefix <+: x) (key : Text) : x ≠ expiryKey key := by
  rintro rfl
  obtain ⟨rest, hrest⟩ := hx
  simp [indexPrefix, expiryKey, expiryPrefix] at hrest

theorem indexPrefix_ne_key (hx : indexPrefix <+: x) (hkey : DocKey key) : x ≠ key := by
  rintro rfl
  refine hkey.2 (List.IsPrefix.trans ?_ hx)
  simp [reserved, indexPrefix]

theorem mem_declared {f : Text} :
    f ∈ (if field ∈ fields then fields else fields ++ [field]) ↔ f ∈ fields ∨ f = field := by
  split_ifs with hin
  · exact ⟨.inl, fun hf => hf.elim id fun heq => heq ▸ hin⟩
  · simp

namespace Collection

variable {names : Set Text}

/-- Index entries, of fields from `names`, point to the keys they are built from. -/
def Pointing (json : Json V T) (names : Set Text) (s : Text → Option V) : Prop :=
  ∀ x value, indexPrefix <+: x → s x = some value →
    ∃ f ∈ names, ∃ w key, DocKey key ∧ x = indexKey json f w key ∧ value = json.str key

namespace Pointing

theorem empty : Pointing json names fun _ => none := by
  intro x value _ hs
  cases hs

/-- `set` enters keys of its own document only. -/
theorem set (h : Pointing json names s) (hnames : ∀ f ∈ fields, f ∈ names) (hkey : DocKey key)
    {document : V} {items : Text → Option V} {expiry : Option V} :
    Pointing json names (setMap json fields key document items expiry s) := by
  intro x value hx hs
  by_cases hnew : x ∈ entriesOf json fields items key
  · rw [setMap_of_mem hnew] at hs
    obtain ⟨field, hfield, w, -, rfl⟩ := mem_entriesOf.mp hnew
    exact ⟨field, hnames field hfield, w, key, hkey, rfl, (Option.some.inj hs).symm⟩
  · by_cases hold : x ∈ oldEntries json fields s key
    · rw [setMap_of_old hold hnew hkey] at hs
      cases hs
    · rw [setMap_other (indexPrefix_ne_expiryKey hx key) (indexPrefix_ne_key hx hkey) hold hnew] at hs
      exact h x value hx hs

theorem delete (h : Pointing json names s) (hkey : DocKey key) :
    Pointing json names (deleteMap json fields key s) := by
  intro x value hx hs
  by_cases hold : x ∈ oldEntries json fields s key
  · rw [deleteMap_of_old hold] at hs
    cases hs
  · rw [deleteMap_other (indexPrefix_ne_expiryKey hx key) (indexPrefix_ne_key hx hkey) hold] at hs
    exact h x value hx hs

/-- New entries point to documents. -/
theorem assignEntries (h : Pointing json names s) {l : List (Text × Option V)}
    (hl : ∀ e ∈ l, ∃ f ∈ names, ∃ w key, DocKey key ∧
      e = (indexKey json f w key, some (json.str key))) : Pointing json names (assignAll s l) := by
  induction l generalizing s with
  | nil => exact h
  | cons e l ih =>
    refine ih (s := assign s e.1 e.2) ?_ fun e he => hl e (.tail _ he)
    obtain ⟨f, hf, w, key, hkey, rfl⟩ := hl e (.head _)
    intro x value hx hs
    by_cases heq : x = indexKey json f w key
    · subst heq
      rw [assign_self] at hs
      exact ⟨f, hf, w, key, hkey, rfl, (Option.some.inj hs).symm⟩
    · rw [assign_of_ne heq] at hs
      exact h x value hx hs

end Pointing

variable [LE T] [DecidableLE T] {clock : ℕ → T}

/-- Whether a key has expired depends on its record only. -/
theorem expiredAt_congr {s' : Text → Option V} (hsame : s' (expiryKey key) = s (expiryKey key))
    (now : T) : expiredAt json s' key now = expiredAt json s key now := by
  rw [expiredAt, expiredAt, hsame]

/-- What has expired stays expired. -/
theorem expiredAt_mono [IsTrans T (· ≤ ·)] {now now' : T} (h : expiredAt json s key now = true)
    (hle : now ≤ now') : expiredAt json s key now' = true := by
  unfold expiredAt at h ⊢
  cases hexpiry : (s (expiryKey key)).bind json.asNumber with
  | none => simp [hexpiry] at h
  | some t =>
    simp only [hexpiry, decide_eq_true_eq] at h ⊢
    exact trans_of (· ≤ ·) h hle

/-- A document has its entries for the indexed fields with values from `p`, unless it has
expired for good. -/
def Entered (json : Json V T) (p : V → Prop) (fields : List Text) (clock : ℕ → T)
    (s : Text → Option V) : Prop :=
  ∀ key field w, FieldOf json s key field w → field ∈ fields → p w →
    s (indexKey json field w key) = some (json.str key) ∨
      ∀ n, expiredAt json s key (clock n) = true

namespace Entered

variable {p : V → Prop}

theorem empty : Entered json p fields clock fun _ => none := by
  rintro key field w ⟨-, document, items, hs, -⟩ _
  cases hs

theorem of_clock (h : Entered json p fields clock s) {clock' : ℕ → T}
    (hclock : ∀ n, ∃ m, clock' n = clock m) : Entered json p fields clock' s := by
  intro key field w hfield hmem hp
  rcases h key field w hfield hmem hp with hentry | hexpired
  · exact .inl hentry
  · refine .inr fun n => ?_
    obtain ⟨m, hm⟩ := hclock n
    rw [hm]
    exact hexpired m

section Separated

variable (hsep : Separated names) (hnames : ∀ f ∈ fields, f ∈ names)
include hsep hnames

/-- `set` writes the entries of its document. -/
theorem set (h : Entered json p fields clock s) (hkey : DocKey key) {document : V}
    {items : Text → Option V} (hitems : json.asDict document = some items) {expiry : Option V} :
    Entered json p fields clock (setMap json fields key document items expiry s) := by
  intro k field w hof hfield hp
  by_cases hne : k = key
  · subst hne
    obtain ⟨-, document', items', hs, hitems', hw⟩ := hof
    rw [setMap_key hkey] at hs
    cases hs
    rw [hitems] at hitems'
    cases hitems'
    exact .inl (setMap_of_mem (mem_entriesOf.mpr ⟨field, hfield, w, hw, rfl⟩))
  · rcases h k field w (hof.congr (setMap_document hof.1 hne).symm) hfield hp with hentry | hexpired
    · refine .inl ?_
      rw [setMap_other (indexKey_ne_expiryKey _ _ _ _) (hkey.ne_indexKey field w k).symm
        (not_mem_oldEntries_of_ne hsep hnames hne hfield)
        (not_mem_entriesOf_of_ne hsep hnames hne hfield)]
      exact hentry
    · refine .inr fun n => ?_
      rw [expiredAt_congr (setMap_expiry hkey hne)]
      exact hexpired n

/-- `delete` keeps the entries of the other documents. -/
theorem delete (h : Entered json p fields clock s) (hkey : DocKey key) :
    Entered json p fields clock (deleteMap json fields key s) := by
  intro k field w hof hfield hp
  -- what is bound afterwards does not belong to the key
  have hne : k ≠ key := by
    rintro rfl
    obtain ⟨hk, document, -, hs, -⟩ := hof
    rw [deleteMap_key hk] at hs
    cases hs
  rcases h k field w (hof.congr (deleteMap_document hof.1 hne).symm) hfield hp with hentry | hexpired
  · refine .inl ?_
    rw [deleteMap_other (indexKey_ne_expiryKey _ _ _ _) (hkey.ne_indexKey field w k).symm
      (not_mem_oldEntries_of_ne hsep hnames hne hfield)]
    exact hentry
  · refine .inr fun n => ?_
    rw [expiredAt_congr (deleteMap_expiry hkey hne)]
    exact hexpired n

/-- Writing entries that point to their keys takes none away. -/
theorem assignEntries (h : Entered json p fields clock s) {l : List (Text × Option V)}
    (hl : ∀ e ∈ l, ∃ f ∈ names, ∃ w k, e = (indexKey json f w k, some (json.str k))) :
    Entered json p fields clock (assignAll s l) := by
  have hother : ∀ {x}, ¬ IsIndexKey json x → assignAll s l x = s x := by
    intro x hx
    refine assignAll_of_not_mem fun e he heq => hx ?_
    obtain ⟨f, -, w, k, rfl⟩ := hl e he
    exact ⟨f, w, k, heq.symm⟩
  intro k field w hof hfield hp
  have hof' : FieldOf json s k field w := hof.congr (hother hof.1.not_isIndexKey).symm
  rcases h k field w hof' hfield hp with hentry | hexpired
  · refine .inl ?_
    by_cases hmem : ∃ e ∈ l, e.1 = indexKey json field w k
    · obtain ⟨⟨x, value⟩, he, rfl⟩ := hmem
      -- whatever entry this is, it points to the same key
      have hvalue : ∀ e ∈ l, e.1 = indexKey json field w k → e.2 = some (json.str k) := by
        intro e he heq
        obtain ⟨f, hf, w', k', rfl⟩ := hl e he
        obtain ⟨-, -, rfl⟩ := hsep.indexKey_inj hf (hnames field hfield) heq
        rfl
      have hsome := hvalue _ he rfl
      simp only at hsome
      subst hsome
      exact assignAll_of_mem he hvalue
    · rw [assignAll_of_not_mem fun e he heq => hmem ⟨e, he, heq⟩]
      exact hentry
  · refine .inr fun n => ?_
    rw [expiredAt_congr (hother (expiryKey_not_isIndexKey k))]
    exact hexpired n

/-- `create_index` writes the entries of the documents that it has found, and passes over
those that have expired. -/
theorem createIndex [IsTrans T (· ≤ ·)] (h : Entered json p fields clock s)
    (hclock : ∀ i j, i < j → clock i ≤ clock j) {field : Text} (hfield : field ∈ names) {n : ℕ}
    {l : List Text} (hl : ∀ key ∈ l, DocKey key ∧ s key ≠ none)
    (hpassed : ∀ key, DocKey key → s key ≠ none →
      key ∈ l ∨ ∃ i < n, expiredAt json s key (clock i) = true) :
    Entered json p (if field ∈ fields then fields else fields ++ [field]) (fun i => clock (i + n))
      (assignAll s (backfillEntries json field s l)) := by
  have hkeys : ∀ key ∈ l, DocKey key := fun key hkey => (hl key hkey).1
  have hshift : Entered json p fields (fun i => clock (i + n)) s := h.of_clock fun i => ⟨i + n, rfl⟩
  have hold := hshift.assignEntries hsep hnames (l := backfillEntries json field s l) fun e he => by
    obtain ⟨key, -, w, -, rfl⟩ := (mem_backfillEntries hkeys).mp he
    exact ⟨field, hfield, w, key, rfl⟩
  intro k f w hof hf hp
  rcases mem_declared.mp hf with hf | rfl
  · exact hold k f w hof hf hp
  · have hof' : FieldOf json s k f w := hof.congr (backfill_document hkeys hof.1).symm
    have hbound : s k ≠ none := by
      obtain ⟨-, document, -, hs, -⟩ := hof'
      simp [hs]
    rcases hpassed k hof.1 hbound with hk | ⟨i, hi, hgone⟩
    · exact .inl (assignAll_backfill_self hkeys hk hof')
    · -- a document that was passed over had expired, and stays so
      refine .inr fun j => ?_
      rw [expiredAt_congr (backfill_expiry hkeys k)]
      exact expiredAt_mono hgone (hclock i (j + n) (by omega))

end Separated

end Entered

end Collection
