/-
# Clients that share a collection

The methods of a collection take no lock of their own: they are atomic in their calls of
the database.  `set` begins a transaction, whose body reads the pinned state and the set of
indexed fields, and commits it; `delete` reads its document before that.  Other clients may
act between these steps.  A commit that returns has found the keys of its overlay as they were when the
transaction began, and has written them on top of what the others have committed since.
-/
import ImmuStore.CollectionMap
import ImmuStore.Runs

open Collection (onDb)

variable {V T : Type} {json : Json V T} {fields : List Text} {key : Text} {s : Text → Option V}

/-! ## The steps of a method -/

namespace Collection

/-- A part of the body of a `with` block: the transaction is aborted if it raises. -/
def abortOnError {β : Type} (tx : Transaction Text) (x : Py (Collection T) β) :
    Py (Collection T) β := fun c =>
  match x c with
  | .ok a c => .ok a c
  | .error e c => .error e { c with db := tx.abort c.db }

variable (ext : Externals Text)

/-- A `with` block up to its commit. -/
def beginWith (body : Transaction Text → Py (Collection T) (Transaction Text)) :
    Py (Collection T) (Transaction Text) := do
  let tx ← onDb (Transaction.begin ext)
  abortOnError tx (body tx)

/-- A `with` block is its beginning and body, and the commit. -/
theorem withTransaction_eq
    (body : Transaction Text → Py (Collection T) (Transaction Text)) :
    withTransaction ext body = (do
      let tx ← beginWith ext body
      onDb (tx.commit ext)) := by
  funext c
  simp only [withTransaction, beginWith, run_bind]
  cases onDb (Transaction.begin ext) c with
  | error e c => rfl
  | ok tx c =>
    simp only [runBody, abortOnError]
    cases body tx c with
    | error e c => rfl
    | ok tx c => rfl

variable (json : Json V T)

/-- The beginning of `delete`. -/
def fetch [DecidableEq V] (key : Text) : Py (Collection T) V := do
  ofExcept (checkKey key)
  let document ← dbGet ext json key
  if document = json.null then throw .keyError else return document

/-- `delete` reads its document, begins its transaction and commits it. -/
theorem delete_eq [DecidableEq V] (key : Text) :
    delete ext json key = (do
      let document ← fetch ext json key
      let tx ← beginWith ext (deleteBody ext json key document)
      onDb (tx.commit ext)) := by
  funext c
  simp only [delete, fetch, withTransaction_eq, run_bind]
  cases (ofExcept (checkKey key) : Py (Collection T) Unit) c with
  | error e c => rfl
  | ok _ c =>
    simp only
    cases dbGet ext json key c with
    | error e c => rfl
    | ok document c =>
      by_cases hnull : document = json.null
      · simp [hnull]
      · simp [hnull]

end Collection

/-- A call of another client that has not ended: `delete` has read its document, a
transaction has begun, or it has still to be committed and has written a document under a
key, or has removed it, with the fields that were indexed then. -/
inductive InFlight (V T : Type) where
  | fetched (key : Text) (document : V)
  | setting (key : Text) (document : V) (items : Text → Option V) (ttl : Option T)
      (tx : Transaction Text)
  | deleting (key : Text) (document : V) (tx : Transaction Text)
  | committing (key : Text) (written : Option V) (fields : List Text) (tx : Transaction Text)

/-- What another client does. -/
inductive ClientEvent (V : Type) where
  | works
  | commits (key : Text) (written : Option V) (fields : List Text)

/-- One step of another client. -/
inductive ClientStep (ext : Externals Text) (json : Json V T) :
    Collection T → List (InFlight V T) → ClientEvent V → Collection T → List (InFlight V T) → Prop
  | setBegins {c c' : Collection T} {pool : List (InFlight V T)} {key : Text} {document : V}
      {items : Text → Option V} {ttl : Option T} {tx : Transaction Text} :
      checkKey key = .ok () → json.asDict document = some items →
      onDb (Transaction.begin ext) c = .ok tx c' →
      ClientStep ext json c pool .works c' (.setting key document items ttl tx :: pool)
  | setWrites {c c' : Collection T} {l1 l2 : List (InFlight V T)} {key : Text} {document : V}
      {items : Text → Option V} {ttl : Option T} {tx tx' : Transaction Text} :
      Collection.abortOnError tx (Collection.setBody ext json key document items ttl tx) c = .ok tx' c' →
      ClientStep ext json c (l1 ++ .setting key document items ttl tx :: l2) .works c'
        (l1 ++ .committing key (some document) c.indexes tx' :: l2)
  | deleteReads {c c' : Collection T} {pool : List (InFlight V T)} {key : Text} {document : V} :
      checkKey key = .ok () → Collection.dbGet ext json key c = .ok document c' →
      document ≠ json.null →
      ClientStep ext json c pool .works c' (.fetched key document :: pool)
  | deleteBegins {c c' : Collection T} {l1 l2 : List (InFlight V T)} {key : Text} {document : V}
      {tx : Transaction Text} : onDb (Transaction.begin ext) c = .ok tx c' →
      ClientStep ext json c (l1 ++ .fetched key document :: l2) .works c'
        (l1 ++ .deleting key document tx :: l2)
  | deleteWrites {c c' : Collection T} {l1 l2 : List (InFlight V T)} {key : Text} {document : V}
      {tx tx' : Transaction Text} :
      Collection.abortOnError tx (Collection.deleteBody ext json key document tx) c = .ok tx' c' →
      ClientStep ext json c (l1 ++ .deleting key document tx :: l2) .works c'
        (l1 ++ .committing key none c.indexes tx' :: l2)
  | deleteRaises {c c' : Collection T} {l1 l2 : List (InFlight V T)} {key : Text} {document : V}
      {tx : Transaction Text} {e : PyError} :
      Collection.abortOnError tx (Collection.deleteBody ext json key document tx) c = .error e c' →
      ClientStep ext json c (l1 ++ .deleting key document tx :: l2) .works c' (l1 ++ l2)
  | commits {c c' : Collection T} {l1 l2 : List (InFlight V T)} {key : Text} {written : Option V}
      {fields : List Text} {tx : Transaction Text} : onDb (tx.commit ext) c = .ok () c' →
      ClientStep ext json c (l1 ++ .committing key written fields tx :: l2)
        (.commits key written fields) c' (l1 ++ l2)
  | commitRaises {c c' : Collection T} {l1 l2 : List (InFlight V T)} {key : Text} {written : Option V}
      {fields : List Text} {tx : Transaction Text} {e : PyError} :
      onDb (tx.commit ext) c = .error e c' →
      ClientStep ext json c (l1 ++ .committing key written fields tx :: l2) .works c' (l1 ++ l2)

/-! ## Prepared transactions -/

/-- The keys that a call for `key` may write: the document, its expiry record and entries of
the indexed fields. -/
def OwnKey (json : Json V T) (fields : List Text) (key x : Text) : Prop :=
  x = key ∨ x = expiryKey key ∨ ∃ f ∈ fields, ∃ w, x = indexKey json f w key

/-- The transaction has begun with the map `b` and has written nothing. -/
structure Begun (ext : Externals Text) (order : ℕ) (json : Json V T) (d : Disk)
    (b : Text → Option V) (tx : Transaction Text) : Prop where
  overlays : tx.Overlays ext order json.encode d b b
  empty : ∀ x, ¬ tx.Touches x

/-- The transaction began with the map `b` and makes `s'` of it: it writes a document under
the key, with its entries, or removes it. -/
structure Prepared (ext : Externals Text) (order : ℕ) (json : Json V T) (d : Disk) (key : Text)
    (written : Option V) (fields : List Text) (b s' : Text → Option V) (tx : Transaction Text) :
    Prop where
  overlays : tx.Overlays ext order json.encode d b s'
  self : tx.Touches key
  written_eq : s' key = written
  own : ∀ x, tx.Touches x → OwnKey json fields key x
  entries : ∀ document items f w, written = some document → json.asDict document = some items →
    f ∈ fields → items f = some w →
    tx.Touches (indexKey json f w key) ∧ s' (indexKey json f w key) = some (json.str key)
  pointing : ∀ f w value, tx.Touches (indexKey json f w key) →
    s' (indexKey json f w key) = some value → value = json.str key
  timed : ∀ value, tx.Touches (expiryKey key) → s' (expiryKey key) = some value →
    ∃ t, value = json.number t
  dict : ∀ document, written = some document → json.asDict document ≠ none

/-- What a commit for a key has done to the map. -/
structure Landed (json : Json V T) (key : Text) (written : Option V) (fields : List Text)
    (s s' : Text → Option V) : Prop where
  document : s' key = written
  others : ∀ x, ¬ OwnKey json fields key x → s' x = s x
  entries : ∀ document items f w, written = some document → json.asDict document = some items →
    f ∈ fields → items f = some w → s' (indexKey json f w key) = some (json.str key)
  pointing : ∀ f w value, s' (indexKey json f w key) = some value →
    value = json.str key ∨ s (indexKey json f w key) = some value
  timed : ∀ value, s' (expiryKey key) = some value →
    (∃ t, value = json.number t) ∨ s (expiryKey key) = some value
  dict : ∀ document, written = some document → json.asDict document ≠ none

theorem DocKey.not_ownKey {k : Text} (hk : DocKey k) (hne : k ≠ key) :
    ¬ OwnKey json fields key k := by
  rintro (rfl | heq | ⟨f, -, w, heq⟩)
  · exact hne rfl
  · exact hk.ne_expiryKey key heq
  · exact hk.ne_indexKey f w key heq

theorem expiryKey_not_ownKey {k : Text} (hkey : DocKey key) (hne : k ≠ key) :
    ¬ OwnKey json fields key (expiryKey k) := by
  rintro (heq | heq | ⟨f, -, w, heq⟩)
  · exact hkey.ne_expiryKey k heq.symm
  · exact hne (expiryKey_inj.mp heq)
  · exact indexKey_ne_expiryKey f w key k heq.symm

namespace Landed

variable {written : Option V} {s' : Text → Option V} {k : Text}
variable {names : Set Text}

section

variable (h : Landed json key written fields s s')
include h

theorem document_of_ne (hk : DocKey k) (hne : k ≠ key) : s' k = s k :=
  h.others k (hk.not_ownKey hne)

theorem expiry_of_ne (hkey : DocKey key) (hne : k ≠ key) : s' (expiryKey k) = s (expiryKey k) :=
  h.others _ (expiryKey_not_ownKey hkey hne)

/-- A commit keeps the documents dictionaries and the expiry records times. -/
theorem wellFormed (hs : WellFormed json s) (hkey : DocKey key) : WellFormed json s' where
  nil := by
    rw [h.others, hs.nil]
    rintro (heq | heq | ⟨f, -, w, heq⟩)
    · exact hkey.1 heq.symm
    · exact expiryKey_ne_nil key heq.symm
    · exact indexKey_ne_nil json f w key heq.symm
  documents k document hk hdocument := by
    by_cases hne : k = key
    · subst hne
      exact h.dict document (h.document.symm.trans hdocument)
    · exact hs.documents k document hk ((h.document_of_ne hk hne).symm.trans hdocument)
  timed k value hvalue := by
    by_cases hne : k = key
    · subst hne
      rcases h.timed value hvalue with htime | hold
      · exact htime
      · exact hs.timed k value hold
    · exact hs.timed k value ((h.expiry_of_ne hkey hne).symm.trans hvalue)

/-- A commit keeps the entries pointing to the keys they are built from. -/
theorem pointing_kept (hs : Collection.Pointing json names s) (hkey : DocKey key)
    (hfields : ∀ f ∈ fields, f ∈ names) : Collection.Pointing json names s' := by
  intro x value hx hvalue
  by_cases hown : OwnKey json fields key x
  · rcases hown with rfl | rfl | ⟨f, hf, w, rfl⟩
    · exact absurd rfl (indexPrefix_ne_key hx hkey)
    · exact absurd rfl (indexPrefix_ne_expiryKey hx key)
    · rcases h.pointing f w value hvalue with rfl | hold
      · exact ⟨f, hfields f hf, w, key, hkey, rfl, rfl⟩
      · exact hs _ value hx hold
  · exact hs x value hx ((h.others x hown).symm.trans hvalue)

end

/-- A commit leaves the entries of the other documents alone, and those of fields that were
not indexed. -/
theorem entry_kept (hsep : Separated names) (h : Landed json key written fields s s')
    (hfields : ∀ f ∈ fields, f ∈ names) {field : Text} (hfield : field ∈ names)
    (hother : k ≠ key ∨ field ∉ fields) (hk : DocKey key) (w : V) :
    s' (indexKey json field w k) = s (indexKey json field w k) := by
  refine h.others _ ?_
  rintro (heq | heq | ⟨f, hf, w', heq⟩)
  · exact hk.ne_indexKey field w k heq.symm
  · exact indexKey_ne_expiryKey field w k key heq
  · obtain ⟨rfl, -, rfl⟩ := hsep.indexKey_inj hfield (hfields f hf) heq
    rcases hother with hne | hnot
    · exact hne rfl
    · exact hnot hf

end Landed

section Maps

variable {document : V}
variable {x : Text}

theorem deleteReadMap_key (hkey : DocKey key) :
    deleteReadMap json fields key document s key = none := by
  rw [deleteReadMap, assign_of_ne (hkey.ne_expiryKey key), assign_self]

theorem deleteReadMap_expiryKey : deleteReadMap json fields key document s (expiryKey key) = none :=
  assign_self

theorem mem_documentEntries (h : x ∈ documentEntries json fields key document) :
    ∃ f ∈ fields, ∃ w, x = indexKey json f w key := by
  unfold documentEntries at h
  cases hitems : json.asDict document with
  | none => simp [hitems] at h
  | some items =>
    rw [hitems] at h
    obtain ⟨f, hf, w, -, rfl⟩ := mem_entriesOf.mp h
    exact ⟨f, hf, w, rfl⟩

theorem deleteReadMap_of_mem (hkey : DocKey key)
    (hx : x ∈ documentEntries json fields key document) :
    deleteReadMap json fields key document s x = none := by
  obtain ⟨f, -, w, rfl⟩ := mem_documentEntries hx
  rw [deleteReadMap, assign_of_ne (indexKey_ne_expiryKey _ _ _ _),
    assign_of_ne (hkey.ne_indexKey f w key).symm, assignAll_map_of_mem hx]

/-- `delete` binds nothing. -/
theorem of_deleteReadMap {value : V} (h : deleteReadMap json fields key document s x = some value) :
    s x = some value := by
  unfold deleteReadMap at h
  by_cases hexpiry : x = expiryKey key
  · rw [hexpiry, assign_self] at h
    cases h
  rw [assign_of_ne hexpiry] at h
  by_cases hkey : x = key
  · rw [hkey, assign_self] at h
    cases h
  rw [assign_of_ne hkey] at h
  by_cases hentry : x ∈ documentEntries json fields key document
  · rw [assignAll_map_of_mem hentry] at h
    cases h
  · rwa [assignAll_map_of_not_mem hentry] at h

end Maps

namespace Collection

variable {ext : Externals Text} {order : ℕ} {db : Handle Text} {d : Disk} {clock : ℕ → T}
variable {b : Text → Option V} {tx : Transaction Text}

section Fetch

variable [DecidableEq V]

/-- What `delete` reads. -/
theorem fetch_of_some (hs : db.Stores ext order json.encode d s) (fields : List Text)
    (clock : ℕ → T) (hkey : DocKey key) {document : V} (hdocument : s key = some document)
    (hnull : document ≠ json.null) :
    ∃ db', fetch ext json key ⟨db, fields, clock⟩ = .ok document ⟨db', fields, clock⟩ ∧
      db'.Stores ext order json.encode d s := by
  obtain ⟨db', hs', hget⟩ := dbGet_spec hs fields clock hkey.1
  refine ⟨db', ?_, hs'⟩
  simp [fetch, checkKey_eq_ok_iff.mpr hkey, hget, hdocument, hnull]

/-- `delete` reads the document under a document key, or it raises. -/
theorem fetch_spec (hs : db.Stores ext order json.encode d s) (fields : List Text) (clock : ℕ → T)
    (key : Text) :
    fetch ext json key ⟨db, fields, clock⟩ = .error .valueError ⟨db, fields, clock⟩ ∨
      DocKey key ∧ ∃ db', db'.Stores ext order json.encode d s ∧
        (fetch ext json key ⟨db, fields, clock⟩ = .error .keyError ⟨db', fields, clock⟩ ∨
          ∃ document, fetch ext json key ⟨db, fields, clock⟩ = .ok document ⟨db', fields, clock⟩) := by
  by_cases hkey : DocKey key
  · obtain ⟨db', hs', hget⟩ := dbGet_spec hs fields clock hkey.1
    refine .inr ⟨hkey, db', hs', ?_⟩
    by_cases hnull : (s key).getD json.null = json.null
    · exact .inl (by simp [fetch, checkKey_eq_ok_iff.mpr hkey, hget, hnull])
    · exact .inr ⟨_, by simp [fetch, checkKey_eq_ok_iff.mpr hkey, hget, hnull]; rfl⟩
  · exact .inl (by simp [fetch, checkKey_of_not hkey])

end Fetch

section

variable (hs : db.Stores ext order json.encode d s)
include hs

/-- The body of `set`, in a transaction that has begun with the map `b`. -/
theorem setBody_prepares (hbegun : Begun ext order json d b tx) (fields : List Text) (clock : ℕ → T)
    (hkey : DocKey key) {document : V} {items : Text → Option V}
    (hitems : json.asDict document = some items) (ttl : Option T) :
    ∃ tx', abortOnError tx (setBody ext json key document items ttl tx) ⟨db, fields, clock⟩ =
        .ok tx' ⟨db, fields, clockAfter clock ttl⟩ ∧
      Prepared ext order json d key (some document) fields b
        (setMap json fields key document items (expiryOf json clock ttl) b) tx' := by
  obtain ⟨tx', hrun, htx, hadds, hself, hentries⟩ :=
    setBody_spec fields clock key hs hbegun.overlays hkey.1 document items ttl
  have hkeys : ∀ x, tx'.Touches x → SetKeys json fields key items b x := fun x hx =>
    (hadds.2 x hx).resolve_left (hbegun.empty x)
  refine ⟨tx', ?_, htx, hself, setMap_key hkey, fun x hx => ?_, ?_, ?_, ?_, ?_⟩
  · simp only [abortOnError, hrun]
  · rcases hkeys x hx with rfl | rfl | hold | hnew
    · exact .inl rfl
    · exact .inr (.inl rfl)
    · obtain ⟨-, -, -, -, f, hf, w, -, rfl⟩ := mem_oldEntries.mp hold
      exact .inr (.inr ⟨f, hf, w, rfl⟩)
    · obtain ⟨f, hf, w, -, rfl⟩ := mem_entriesOf.mp hnew
      exact .inr (.inr ⟨f, hf, w, rfl⟩)
  · intro document' items' f w heq hitems' hf hw
    cases heq
    obtain rfl : items = items' := by simpa [hitems] using hitems'
    have hmem : indexKey json f w key ∈ entriesOf json fields items key :=
      mem_entriesOf.mpr ⟨f, hf, w, hw, rfl⟩
    exact ⟨hentries _ hmem, setMap_of_mem hmem⟩
  · intro f w value htouched hvalue
    by_cases hnew : indexKey json f w key ∈ entriesOf json fields items key
    · rw [setMap_of_mem hnew] at hvalue
      exact (Option.some.inj hvalue).symm
    · -- an old entry that is not written anew is gone
      rcases hkeys _ htouched with heq | heq | hold | hnew'
      · exact absurd heq.symm (hkey.ne_indexKey f w key)
      · exact absurd heq (indexKey_ne_expiryKey f w key key)
      · rw [setMap_of_old hold hnew hkey] at hvalue
        cases hvalue
      · exact absurd hnew' hnew
  · intro value _ hvalue
    rw [setMap_expiryKey] at hvalue
    obtain ⟨t, -, rfl⟩ := Option.map_eq_some_iff.mp hvalue
    exact ⟨_, rfl⟩
  · intro document' heq
    cases heq
    simp [hitems]

/-- The body of `delete`, with a document that it has read. -/
theorem deleteBody_prepares (hbegun : Begun ext order json d b tx) (fields : List Text)
    (clock : ℕ → T) (hkey : DocKey key) (document : V) (hbound : b key ≠ none) :
    ∃ tx', abortOnError tx (deleteBody ext json key document tx) ⟨db, fields, clock⟩ =
        .ok tx' ⟨db, fields, clock⟩ ∧
      Prepared ext order json d key none fields b (deleteReadMap json fields key document b) tx' := by
  obtain ⟨tx', hrun, htx, hadds⟩ :=
    deleteBody_spec fields clock key hs hbegun.overlays hkey document hbound
  have hkeys : ∀ x, tx'.Touches x →
      x = key ∨ x = expiryKey key ∨ x ∈ documentEntries json fields key document := fun x hx =>
    (hadds.2 x hx).resolve_left (hbegun.empty x)
  have hself : tx'.Touches key := by
    refine htx.touches_of_ne ?_ json.roundTrips.injective
    rw [deleteReadMap_key hkey]
    exact hbound.symm
  refine ⟨tx', ?_, htx, hself, deleteReadMap_key hkey, fun x hx => ?_, ?_, ?_, ?_, ?_⟩
  · simp only [abortOnError, hrun]
  · rcases hkeys x hx with rfl | rfl | hentry
    · exact .inl rfl
    · exact .inr (.inl rfl)
    · exact .inr (.inr (mem_documentEntries hentry))
  · intro document' items f w heq
    cases heq
  · intro f w value htouched hvalue
    rcases hkeys _ htouched with heq | heq | hentry
    · exact absurd heq.symm (hkey.ne_indexKey f w key)
    · exact absurd heq (indexKey_ne_expiryKey f w key key)
    · rw [deleteReadMap_of_mem hkey hentry] at hvalue
      cases hvalue
  · intro value _ hvalue
    rw [deleteReadMap_expiryKey] at hvalue
    cases hvalue
  · intro document' heq
    cases heq

/-- The body of `delete` of a document that was there no more when it began. -/
theorem deleteBody_raises (hbegun : Begun ext order json d b tx) (fields : List Text)
    (clock : ℕ → T) (hkey : DocKey key) (document : V) (hbound : b key = none) :
    abortOnError tx (deleteBody ext json key document tx) ⟨db, fields, clock⟩ =
      .error .keyError ⟨tx.abort db, fields, clock⟩ := by
  have hrun := deleteBody_absent fields clock key hs hbegun.overlays hkey document hbound
  simp only [abortOnError, hrun]

/-- A transaction begins with what is stored. -/
theorem onDb_begin (fields : List Text) (clock : ℕ → T) :
    ∃ tx db', onDb (Transaction.begin ext) ⟨db, fields, clock⟩ = .ok tx ⟨db', fields, clock⟩ ∧
      db'.Stores ext order json.encode d s ∧ Begun ext order json d s tx := by
  obtain ⟨tx, db', hbegin, hs', htx, hempty⟩ := hs.begin
  exact ⟨tx, db', onDb_ok hbegin, hs', htx, hempty⟩

/-- The beginning of `delete`, up to its commit. -/
theorem beginWith_delete (fields : List Text) (clock : ℕ → T) (hkey : DocKey key)
    (document : V) (hbound : s key ≠ none) :
    ∃ tx db', beginWith ext (deleteBody ext json key document) ⟨db, fields, clock⟩ =
        .ok tx ⟨db', fields, clock⟩ ∧
      db'.Stores ext order json.encode d s ∧
      Prepared ext order json d key none fields s (deleteReadMap json fields key document s) tx := by
  obtain ⟨tx0, db', hbegin, hs', hbegun⟩ := onDb_begin hs fields clock
  obtain ⟨tx, hrun, hprepared⟩ := deleteBody_prepares hs' hbegun fields clock hkey document hbound
  exact ⟨tx, db', by rw [beginWith, run_bind, hbegin]; exact hrun, hs', hprepared⟩

theorem beginWith_delete_absent (fields : List Text) (clock : ℕ → T) (hkey : DocKey key)
    (document : V) (hbound : s key = none) :
    ∃ db', beginWith ext (deleteBody ext json key document) ⟨db, fields, clock⟩ =
        .error .keyError ⟨db', fields, clock⟩ ∧ db'.Stores ext order json.encode d s := by
  obtain ⟨tx0, db', hbegin, hs', hbegun⟩ := onDb_begin hs fields clock
  refine ⟨tx0.abort db', ?_, hs'.closeBase tx0⟩
  rw [beginWith, run_bind, hbegin]
  exact deleteBody_raises hs' hbegun fields clock hkey document hbound

end

end Collection

namespace Prepared

variable {ext : Externals Text} {order : ℕ} {db : Handle Text} {d d' : Disk} {clock : ℕ → T}
  {written : Option V} {b s' : Text → Option V} {tx : Transaction Text}

section

variable (h : Prepared ext order json d key written fields b s' tx)
include h

theorem mono (hrecords : Storage.SameRecords d.live.size d.live d'.live) :
    Prepared ext order json d' key written fields b s' tx :=
  { h with overlays := h.overlays.mono hrecords }

theorem landed (s : Text → Option V) :
    Landed json key written fields s (tx.merged s' s) where
  document := by rw [Transaction.merged_of_touches h.self, h.written_eq]
  others x hx := Transaction.merged_of_not_touches fun htouched => hx (h.own x htouched)
  entries document items f w hdoc hitems hf hw := by
    obtain ⟨htouched, hvalue⟩ := h.entries document items f w hdoc hitems hf hw
    rw [Transaction.merged_of_touches htouched, hvalue]
  pointing f w value hvalue := by
    by_cases htouched : tx.Touches (indexKey json f w key)
    · rw [Transaction.merged_of_touches htouched] at hvalue
      exact .inl (h.pointing f w value htouched hvalue)
    · rw [Transaction.merged_of_not_touches htouched] at hvalue
      exact .inr hvalue
  timed value hvalue := by
    by_cases htouched : tx.Touches (expiryKey key)
    · rw [Transaction.merged_of_touches htouched] at hvalue
      exact .inl (h.timed value htouched hvalue)
    · rw [Transaction.merged_of_not_touches htouched] at hvalue
      exact .inr hvalue
  dict := h.dict

/-- The commit of a prepared transaction: it lands on top of what is stored, and has found
its keys unchanged, or it raises and leaves the map alone. -/
theorem commit (hs : db.Stores ext order json.encode d s) (indexes : List Text) (clock : ℕ → T) :
    (∃ db' d', onDb (tx.commit ext) ⟨db, indexes, clock⟩ = .ok () ⟨db', indexes, clock⟩ ∧
        db'.Stores ext order json.encode d' (tx.merged s' s) ∧
        Storage.SameRecords d.live.size d.live d'.live ∧ ∀ x, tx.Touches x → b x = s x) ∨
      ∃ e db' d', onDb (tx.commit ext) ⟨db, indexes, clock⟩ = .error e ⟨db', indexes, clock⟩ ∧
        e ≠ .keyError ∧ db'.Stores ext order json.encode d' s ∧
        Storage.SameRecords d.live.size d.live d'.live := by
  have hsettles := hs.commit_spec h.overlays
  generalize hrun : tx.commit ext db = result at hsettles
  cases hsettles with
  | @committed db' d' hunchanged hs' hrecords _ =>
    refine .inl ⟨db', d', Collection.onDb_ok hrun, hs', hrecords, fun x hx => ?_⟩
    exact Option.map_injective json.roundTrips.injective (hunchanged x hx)
  | @conflicting db' _ hs' =>
    exact .inr ⟨_, db', d, Collection.onDb_error hrun, by simp, hs', le_rfl, fun _ _ _ => rfl⟩
  | @failed db' d' _ hs' hrecords _ =>
    exact .inr ⟨_, db', d', Collection.onDb_error hrun, by simp, hs', hrecords⟩

end

section

variable (h : Prepared ext order json d key written fields s s' tx)
    (hs : db.Stores ext order json.encode d s)
include h hs

/-- The commit of a transaction that began with what is stored: it returns, or something is
too long to be written. -/
theorem commit_same (indexes : List Text) (clock : ℕ → T) :
    (∃ db' d', onDb (tx.commit ext) ⟨db, indexes, clock⟩ = .ok () ⟨db', indexes, clock⟩ ∧
        db'.Stores ext order json.encode d' s') ∨
      ∃ db', onDb (tx.commit ext) ⟨db, indexes, clock⟩ = .error .structError ⟨db', indexes, clock⟩ := by
  rcases hs.commit h.overlays with ⟨db', d', hrun, hs', -⟩ | ⟨-, db', -, hrun, -⟩
  · exact .inl ⟨db', d', Collection.onDb_ok hrun, hs'⟩
  · exact .inr ⟨db', Collection.onDb_error hrun⟩

/-- It returns if the map is short and there is room. -/
theorem commit_returns (indexes : List Text) (clock : ℕ → T)
    (hshort : Short ext order (stored json.encode s')) {n : ℕ} (hroom : Roomy ext order (n + 1) d) :
    ∃ db' d', onDb (tx.commit ext) ⟨db, indexes, clock⟩ = .ok () ⟨db', indexes, clock⟩ ∧
      db'.Stores ext order json.encode d' s' ∧ Storage.SameRecords d.live.size d.live d'.live ∧
      Roomy ext order n d' := by
  rcases hs.commit h.overlays with ⟨db', d', hrun, hs', hrecords, hroom'⟩ | ⟨hlong, -⟩
  · exact ⟨db', d', Collection.onDb_ok hrun, hs', hrecords, hroom' n hshort hroom⟩
  · exact absurd (hshort.committable hroom) hlong

end

end Prepared

/-! ## The other clients -/

/-- What is known of a call in flight. -/
def InFlight.Ok (ext : Externals Text) (order : ℕ) (json : Json V T) (names : Set Text) (d : Disk) :
    InFlight V T → Prop
  | .fetched key _ => DocKey key
  | .setting key document items _ tx => DocKey key ∧ json.asDict document = some items ∧
      ∃ b, Begun ext order json d b tx
  | .deleting key _ tx => DocKey key ∧ ∃ b, Begun ext order json d b tx
  | .committing key written fields tx => DocKey key ∧ (∀ f ∈ fields, f ∈ names) ∧
      ∃ b s', Prepared ext order json d key written fields b s' tx

variable {call : InFlight V T}
variable {ext : Externals Text} {names : Set Text} {p : InFlight V T → Prop}
    {l1 l2 : List (InFlight V T)} {s' : Text → Option V}

theorem InFlight.Ok.mono {order : ℕ} {d d' : Disk} (h : call.Ok ext order json names d)
    (hrecords : Storage.SameRecords d.live.size d.live d'.live) :
    call.Ok ext order json names d' := by
  cases call with
  | fetched key document => exact h
  | setting key document items ttl tx =>
    obtain ⟨hkey, hitems, b, hbegun⟩ := h
    exact ⟨hkey, hitems, b, hbegun.overlays.mono hrecords, hbegun.empty⟩
  | deleting key document tx =>
    obtain ⟨hkey, b, hbegun⟩ := h
    exact ⟨hkey, b, hbegun.overlays.mono hrecords, hbegun.empty⟩
  | committing key written fields tx =>
    obtain ⟨hkey, hfields, b, s', hprepared⟩ := h
    exact ⟨hkey, hfields, b, s', hprepared.mono hrecords⟩

/-- One call of the pool goes on. -/
theorem pool_replace {call' : InFlight V T} (hpool : ∀ x ∈ l1 ++ call :: l2, p x)
    (hcall : p call') :
    ∀ x ∈ l1 ++ call' :: l2, p x := by
  intro x hx
  rcases List.mem_append.mp hx with hx | hx
  · exact hpool x (List.mem_append_left _ hx)
  · rcases List.mem_cons.mp hx with rfl | hx
    · exact hcall
    · exact hpool x (List.mem_append_right _ (.tail _ hx))

/-- One call of the pool ends. -/
theorem pool_remove (hpool : ∀ x ∈ l1 ++ call :: l2, p x) : ∀ x ∈ l1 ++ l2, p x := by
  intro x hx
  rcases List.mem_append.mp hx with hx | hx
  · exact hpool x (List.mem_append_left _ hx)
  · exact hpool x (List.mem_append_right _ (.tail _ hx))

/-- What a step of another client may do to the map. -/
def ClientEvent.Effect (json : Json V T) (names : Set Text) (e : ClientEvent V)
    (s s' : Text → Option V) : Prop :=
  s' = s ∨ ∃ key written fields, e = .commits key written fields ∧ DocKey key ∧
    (∀ f ∈ fields, f ∈ names) ∧ Landed json key written fields s s'

theorem ClientEvent.Effect.wellFormed {e : ClientEvent V} (h : e.Effect json names s s')
    (hs : WellFormed json s) : WellFormed json s' := by
  rcases h with rfl | ⟨key, written, fields, -, hkey, -, hlanded⟩
  · exact hs
  · exact hlanded.wellFormed hs hkey

section ClientStep

open Collection (clockAfter expiryOf)

variable {ext : Externals Text} {order : ℕ} {names : Set Text} {d : Disk}
variable {c : Collection T}

/-- A step of another client: what it does to the map, and what stays known of the calls in
flight. -/
theorem ClientStep.spec {c' : Collection T} {pool pool' : List (InFlight V T)} {e : ClientEvent V}
    (hstep : ClientStep ext json c pool e c' pool') (hs : c.db.Stores ext order json.encode d s)
    (hnames : ∀ f ∈ c.indexes, f ∈ names) (hpool : ∀ call ∈ pool, call.Ok ext order json names d) :
    ∃ d' s', c'.db.Stores ext order json.encode d' s' ∧
      Storage.SameRecords d.live.size d.live d'.live ∧
      (∀ call ∈ pool', call.Ok ext order json names d') ∧ c'.indexes = c.indexes ∧
      (∃ n, c'.clock = fun i => c.clock (i + n)) ∧ e.Effect json names s s' := by
  have hsame : Storage.SameRecords d.live.size d.live d.live := ⟨le_rfl, fun _ _ _ => rfl⟩
  cases hstep with
  | @setBegins _ _ key document items ttl tx hcheck hitems hrun =>
    have hkey := checkKey_eq_ok_iff.mp hcheck
    obtain ⟨tx', db', hrun', hs', hbegun⟩ := Collection.onDb_begin hs c.indexes c.clock
    cases hrun'.symm.trans hrun
    refine ⟨d, s, hs', hsame, List.forall_mem_cons.mpr ⟨?_, hpool⟩, rfl, ⟨0, rfl⟩, .inl rfl⟩
    exact ⟨hkey, hitems, s, hbegun⟩
  | @setWrites _ l1 l2 key document items ttl tx tx' hrun =>
    obtain ⟨hkey, hitems, b, hbegun⟩ : InFlight.Ok ext order json names d
        (.setting key document items ttl tx) := hpool _ (by simp)
    obtain ⟨tx'', hrun', hprepared⟩ :=
      Collection.setBody_prepares hs hbegun c.indexes c.clock hkey hitems ttl
    cases hrun'.symm.trans hrun
    exact ⟨d, s, hs, hsame, pool_replace hpool ⟨hkey, hnames, b, _, hprepared⟩, rfl, ⟨_, rfl⟩, .inl rfl⟩
  | @deleteReads _ _ key document hcheck hget _ =>
    have hkey := checkKey_eq_ok_iff.mp hcheck
    obtain ⟨db', hs', hget'⟩ := Collection.dbGet_spec hs c.indexes c.clock hkey.1
    cases hget'.symm.trans hget
    exact ⟨d, s, hs', hsame, List.forall_mem_cons.mpr ⟨hkey, hpool⟩, rfl, ⟨0, rfl⟩, .inl rfl⟩
  | @deleteBegins _ l1 l2 key document tx hrun =>
    have hkey : DocKey key := hpool (.fetched key document) (by simp)
    obtain ⟨tx', db', hrun', hs', hbegun⟩ := Collection.onDb_begin hs c.indexes c.clock
    cases hrun'.symm.trans hrun
    exact ⟨d, s, hs', hsame, pool_replace hpool ⟨hkey, s, hbegun⟩, rfl, ⟨0, rfl⟩, .inl rfl⟩
  | @deleteWrites _ l1 l2 key document tx tx' hrun =>
    obtain ⟨hkey, b, hbegun⟩ : InFlight.Ok ext order json names d (.deleting key document tx) :=
      hpool _ (by simp)
    by_cases hbound : b key = none
    · have hrun' := Collection.deleteBody_raises hs hbegun c.indexes c.clock hkey document hbound
      cases hrun'.symm.trans hrun
    · obtain ⟨tx'', hrun', hprepared⟩ :=
        Collection.deleteBody_prepares hs hbegun c.indexes c.clock hkey document hbound
      cases hrun'.symm.trans hrun
      exact ⟨d, s, hs, hsame, pool_replace hpool ⟨hkey, hnames, b, _, hprepared⟩, rfl, ⟨0, rfl⟩, .inl rfl⟩
  | @deleteRaises _ l1 l2 key document tx e hrun =>
    obtain ⟨hkey, b, hbegun⟩ : InFlight.Ok ext order json names d (.deleting key document tx) :=
      hpool _ (by simp)
    by_cases hbound : b key = none
    · have hrun' := Collection.deleteBody_raises hs hbegun c.indexes c.clock hkey document hbound
      cases hrun'.symm.trans hrun
      exact ⟨d, s, hs.closeBase tx, hsame, pool_remove hpool, rfl, ⟨0, rfl⟩, .inl rfl⟩
    · obtain ⟨tx'', hrun', -⟩ :=
        Collection.deleteBody_prepares hs hbegun c.indexes c.clock hkey document hbound
      cases hrun'.symm.trans hrun
  | @commits _ l1 l2 key written fields tx hrun =>
    obtain ⟨hkey, hfields, b, s', hprepared⟩ : InFlight.Ok ext order json names d
        (.committing key written fields tx) := hpool _ (by simp)
    rcases hprepared.commit hs c.indexes c.clock with
      ⟨db', d', hrun', hs', hrecords, -⟩ | ⟨e, db', d', hrun', -⟩
    · cases hrun'.symm.trans hrun
      exact ⟨d', _, hs', hrecords, fun call hcall => (pool_remove hpool call hcall).mono hrecords, rfl,
        ⟨0, rfl⟩, .inr ⟨key, written, fields, rfl, hkey, hfields, hprepared.landed s⟩⟩
    · cases hrun'.symm.trans hrun
  | @commitRaises _ l1 l2 key written fields tx e hrun =>
    obtain ⟨hkey, hfields, b, s', hprepared⟩ : InFlight.Ok ext order json names d
        (.committing key written fields tx) := hpool _ (by simp)
    rcases hprepared.commit hs c.indexes c.clock with
      ⟨db', d', hrun', -⟩ | ⟨e, db', d', hrun', -, hs', hrecords⟩
    · cases hrun'.symm.trans hrun
    · cases hrun'.symm.trans hrun
      exact ⟨d', s, hs', hrecords, fun call hcall => (pool_remove hpool call hcall).mono hrecords, rfl,
        ⟨0, rfl⟩, .inl rfl⟩

/-- A call of `set` that nobody interrupts, with room for what it writes. -/
theorem ClientStep.set_alone (hs : c.db.Stores ext order json.encode d s) (hkey : DocKey key)
    {document : V} {items : Text → Option V} (hitems : json.asDict document = some items)
    (ttl : Option T) {n : ℕ} (hshort : Short ext order (stored json.encode
      (setMap json c.indexes key document items (expiryOf json c.clock ttl) s)))
    (hroom : Roomy ext order (n + 1) d) (pool : List (InFlight V T)) :
    ∃ c1 c2 c3 tx1 tx2 d', ClientStep ext json c pool .works c1 (.setting key document items ttl tx1 :: pool) ∧
      ClientStep ext json c1 (.setting key document items ttl tx1 :: pool) .works c2
        (.committing key (some document) c.indexes tx2 :: pool) ∧
      ClientStep ext json c2 (.committing key (some document) c.indexes tx2 :: pool)
        (.commits key (some document) c.indexes) c3 pool ∧
      c3.indexes = c.indexes ∧ c3.clock = clockAfter c.clock ttl ∧
      c3.db.Stores ext order json.encode d'
        (setMap json c.indexes key document items (expiryOf json c.clock ttl) s) ∧
      Storage.SameRecords d.live.size d.live d'.live ∧ Roomy ext order n d' := by
  obtain ⟨tx1, db1, hbegin, hs1, hbegun⟩ := Collection.onDb_begin hs c.indexes c.clock
  obtain ⟨tx2, hbody, hprepared⟩ :=
    Collection.setBody_prepares hs1 hbegun c.indexes c.clock hkey hitems ttl
  obtain ⟨db3, d', hcommit, hs3, hrecords, hroom'⟩ :=
    hprepared.commit_returns hs1 c.indexes (clockAfter c.clock ttl) hshort hroom
  have hwrites := @ClientStep.setWrites _ _ ext json ⟨db1, c.indexes, c.clock⟩
    ⟨db1, c.indexes, clockAfter c.clock ttl⟩ [] pool key document items ttl tx1 tx2 hbody
  have hcommits := @ClientStep.commits _ _ ext json ⟨db1, c.indexes, clockAfter c.clock ttl⟩
    ⟨db3, c.indexes, clockAfter c.clock ttl⟩ [] pool key (some document) c.indexes tx2 hcommit
  exact ⟨_, _, _, tx1, tx2, d', .setBegins (checkKey_eq_ok_iff.mpr hkey) hitems hbegin, hwrites,
    hcommits, rfl, rfl, hs3, hrecords, hroom'⟩

end ClientStep

/-! ## A call among other clients -/

/-- A collection, a call that is watched at its phase, and the calls of other clients in
flight. -/
structure CallState (φ V T : Type) where
  collection : Collection T
  phase : φ
  pool : List (InFlight V T)

/-- The state after a step of the call, or after its exception. -/
def CallState.after {φ : Type} (raised : PyError → φ) (pool : List (InFlight V T)) :
    EStateM.Result PyError (Collection T) φ → CallState φ V T
  | .ok phase c => ⟨c, phase, pool⟩
  | .error e c => ⟨c, raised e, pool⟩

/-- Who acts. -/
inductive CallEvent (V : Type) where
  | advances
  | client (e : ClientEvent V)

/-- One step of the call, which may raise, or of another client. -/
inductive CallStep {φ : Type} (ext : Externals Text) (json : Json V T)
    (step : φ → Py (Collection T) φ) (raised : PyError → φ) :
    CallState φ V T → CallEvent V → CallState φ V T → Prop
  | advances {c c' : Collection T} {phase phase' : φ} {pool : List (InFlight V T)} :
      step phase c = .ok phase' c' →
      CallStep ext json step raised ⟨c, phase, pool⟩ .advances ⟨c', phase', pool⟩
  | raises {c c' : Collection T} {phase : φ} {pool : List (InFlight V T)} {e : PyError} :
      step phase c = .error e c' →
      CallStep ext json step raised ⟨c, phase, pool⟩ .advances ⟨c', raised e, pool⟩
  | client {c c' : Collection T} {phase : φ} {pool pool' : List (InFlight V T)} {e : ClientEvent V} :
      ClientStep ext json c pool e c' pool' →
      CallStep ext json step raised ⟨c, phase, pool⟩ (.client e) ⟨c', phase, pool'⟩

/-- The collection serves the map. -/
def Collection.ServesMap (ext : Externals Text) (json : Json V T) (c : Collection T)
    (s : Text → Option V) : Prop :=
  c.db.database.Serves ext (stored json.encode s)

theorem Collection.ServesMap.eq {order : ℕ} {c : Collection T} {d : Disk}
    (h : c.ServesMap ext json s') (hs : c.db.Stores ext order json.encode d s) : s' = s :=
  stored_injective json.roundTrips (h.unique hs.serves)
