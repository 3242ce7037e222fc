/-
# `create_index` among other clients

`create_index` collects the keys, reads one document after the other, outside the
transaction it has begun, and stages an entry for each; then it commits the entries and
declares the field.  The transaction has index entries in its overlay only, so the conflict
check says nothing about the documents: what other clients write while the field is not yet
declared is indexed only if its key has still to be read.
-/
import ImmuStore.CollectionClients
import ImmuStore.CollectionSessions

open Collection (abortOnError onDb backfill)

variable {V T : Type} {json : Json V T} {fields : List Text} {key field : Text}
  {s : Text → Option V}

/-! ## The steps of `create_index` -/

/-- Where a call of `create_index` stands: its transaction has begun, it has collected keys
and has still to read the documents under some of them, it has committed the entries, it
has declared the field. -/
inductive BackfillPhase where
  | idle
  | begun (tx : Transaction Text)
  | reading (tx : Transaction Text) (keys : List Text)
  | filled
  | declared
  | raised (e : PyError)

/-- One round of the loop of `create_index`. -/
def Collection.backfillKey (ext : Externals Text) (json : Json V T) (field key : Text)
    (tx : Transaction Text) : Py (Collection T) (Transaction Text) := do
  let document ← dbItem ext json key
  match json.asDict document >>= fun items => items field with
  | none => return tx
  | some value => ofExcept (tx.set json.codec (indexKey json field value key) (json.str key))

/-- The end of `create_index`. -/
def Collection.declare (field : Text) (c : Collection T) : Collection T :=
  { c with indexes := if field ∈ c.indexes then c.indexes else c.indexes ++ [field] }

namespace BackfillPhase

variable [DecidableEq V] [LE T] [DecidableLE T] (ext : Externals Text) (json : Json V T) (field : Text)

/-- The next step. -/
def step : BackfillPhase → Py (Collection T) BackfillPhase
  | .idle => do
    let tx ← onDb (Transaction.begin ext)
    return .begun tx
  | .begun tx => do
    let keys ← abortOnError tx (Collection.keys ext json)
    return .reading tx keys
  | .reading tx (key :: keys) => do
    let tx ← abortOnError tx (Collection.backfillKey ext json field key tx)
    return .reading tx keys
  | .reading tx [] => do
    onDb (tx.commit ext)
    return .filled
  | .filled => do
    modify (Collection.declare field)
    return .declared
  | .declared => return .declared
  | .raised e => return .raised e

variable {ext json field}

omit [DecidableEq V] [LE T] [DecidableLE T] in
theorem backfill_cons (key : Text) (keys : List Text) (tx : Transaction Text) :
    backfill ext json field (key :: keys) tx = (do
      let tx ← Collection.backfillKey ext json field key tx
      backfill ext json field keys tx) := by
  funext c
  simp only [backfill, Collection.backfillKey, run_bind]
  cases Collection.dbItem ext json key c with
  | error e c => rfl
  | ok document c =>
    simp only
    cases json.asDict document >>= fun items => items field with
    | none => rfl
    | some value => rfl

omit [DecidableEq V] [LE T] [DecidableLE T] in
/-- A round keeps the base of the transaction. -/
theorem backfillKey_base {tx tx' : Transaction Text} {c c' : Collection T}
    (h : Collection.backfillKey ext json field key tx c = .ok tx' c') : tx'.base = tx.base := by
  simp only [Collection.backfillKey, run_bind] at h
  cases hitem : Collection.dbItem ext json key c with
  | error e c1 => simp [hitem] at h
  | ok document c1 =>
    simp only [hitem] at h
    cases hvalue : json.asDict document >>= fun items => items field with
    | none =>
      simp only [hvalue] at h
      cases h
      rfl
    | some value =>
      simp only [hvalue, Transaction.set] at h
      split_ifs at h
      · cases h
        rfl
      · cases h

/-- The steps after the keys have been collected. -/
theorem ends_reading (tx0 tx : Transaction Text) (hbase : tx.base = tx0.base) (keys : List Text)
    (c : Collection T) :
    EndsIn (step ext json field) (.reading tx keys) c
      ((do
        let tx ← abortOnError tx0 (backfill ext json field keys tx)
        onDb (tx.commit ext)
        modify (Collection.declare field)
        return .declared : Py (Collection T) BackfillPhase) c) := by
  induction keys generalizing tx c with
  | nil =>
    simp only [run_bind, abortOnError, backfill, run_pure]
    cases hcommit : onDb (tx.commit ext) c with
    | error e c1 => exact .of_error (by simp only [step, run_bind, hcommit])
    | ok _ c1 =>
      have hfilled : step ext json field (.reading tx []) c = .ok .filled c1 := by
        simp only [step, run_bind, hcommit]
        rfl
      have hends : EndsIn (step ext json field) .declared (c1.declare field)
          (.ok .declared (c1.declare field)) := .of_fixed rfl
      exact .of_ok hfilled (.of_ok rfl hends)
  | cons key keys ih =>
    simp only [run_bind, abortOnError, backfill_cons]
    cases hread : Collection.backfillKey ext json field key tx c with
    | error e c1 =>
      have habort : tx.abort c1.db = tx0.abort c1.db := by
        simp only [Transaction.abort, Transaction.closeBase, hbase]
      simp only [← habort]
      exact .of_error (by simp only [step, run_bind, abortOnError, hread])
    | ok tx1 c1 =>
      have hstep : step ext json field (.reading tx (key :: keys)) c = .ok (.reading tx1 keys) c1 := by
        simp only [step, run_bind, abortOnError, hread]
        rfl
      have hends := ih tx1 ((backfillKey_base hread).trans hbase) c1
      simp only [run_bind, abortOnError] at hends
      exact .of_ok hstep hends

/-- A call of `create_index` that nobody interrupts takes these steps. -/
theorem ends_idle (c : Collection T) :
    EndsIn (step ext json field) .idle c
      ((do
        Collection.createIndex ext json field
        return .declared : Py (Collection T) BackfillPhase) c) := by
  have heq : Collection.createIndex ext json field = (do
      let tx ← onDb (Transaction.begin ext)
      let tx ← abortOnError tx (Collection.createIndexBody ext json field tx)
      onDb (tx.commit ext)
      modify (Collection.declare field)) := by
    rw [Collection.createIndex, Collection.withTransaction_eq, Collection.beginWith]
    simp only [bind_assoc]
    rfl
  simp only [heq, run_bind]
  cases hbegin : (onDb (Transaction.begin ext) : Py (Collection T) _) c with
  | error e c1 => exact .of_error (by simp only [step, run_bind, hbegin])
  | ok tx c1 =>
    have hbegun : step ext json field .idle c = .ok (.begun tx) c1 := by
      simp only [step, run_bind, hbegin]
      rfl
    refine .of_ok hbegun ?_
    simp only [abortOnError, Collection.createIndexBody, run_bind]
    cases hkeys : Collection.keys ext json c1 with
    | error e c2 => exact .of_error (by simp only [step, run_bind, abortOnError, hkeys])
    | ok keys c2 =>
      have hreading : step ext json field (.begun tx) c1 = .ok (.reading tx keys) c2 := by
        simp only [step, run_bind, abortOnError, hkeys]
        rfl
      have hends : EndsIn (step ext json field) (.reading tx keys) c2 _ :=
        ends_reading tx tx rfl keys c2
      simp only [run_bind, abortOnError] at hends
      refine .of_ok hreading ?_
      simp only
      cases hfill : backfill ext json field keys tx c2 with
      | error e c3 =>
        rw [hfill] at hends
        exact hends
      | ok tx' c3 =>
        rw [hfill] at hends
        simp only at hends ⊢
        cases hcommit : onDb (tx'.commit ext) c3 with
        | error e c4 =>
          rw [hcommit] at hends
          exact hends
        | ok _ c4 =>
          rw [hcommit] at hends
          exact hends

end BackfillPhase

/-! ## The entries that are staged -/

/-- The transaction has begun with some map, and has staged entries of the field only. -/
def Staged (ext : Externals Text) (order : ℕ) (json : Json V T) (field : Text) (d : Disk)
    (tx : Transaction Text) : Prop :=
  ∃ b s', tx.Overlays ext order json.encode d b s' ∧ ∀ x, tx.Touches x →
    ∃ w k, DocKey k ∧ x = indexKey json field w k ∧ s' x = some (json.str k)

/-- What the commit of staged entries makes of the map. -/
structure Entries (json : Json V T) (field : Text) (tx : Transaction Text) (s s' : Text → Option V) :
    Prop where
  staged : ∀ x, tx.Touches x →
    ∃ w k, DocKey k ∧ x = indexKey json field w k ∧ s' x = some (json.str k)
  others : ∀ x, ¬ tx.Touches x → s' x = s x

section Staged

variable {ext : Externals Text} {order : ℕ} {d d' : Disk} {tx : Transaction Text} {db : Handle Text}
  {b : Text → Option V}

theorem Begun.staged (h : Begun ext order json d b tx) (field : Text) :
    Staged ext order json field d tx :=
  ⟨b, b, h.overlays, fun x hx => absurd hx (h.empty x)⟩

namespace Staged

section

variable (h : Staged ext order json field d tx)
include h

theorem mono (hrecords : Storage.SameRecords d.live.size d.live d'.live) :
    Staged ext order json field d' tx := by
  obtain ⟨b, s', htx, hstaged⟩ := h
  exact ⟨b, s', htx.mono hrecords, hstaged⟩

/-- One round of the loop: it raises if the document is gone, and stages its entry
otherwise. -/
theorem read (hs : db.Stores ext order json.encode d s) (fields : List Text) (clock : ℕ → T)
    (hkey : DocKey key) :
    (∃ db', Collection.backfillKey ext json field key tx ⟨db, fields, clock⟩ =
        .error .keyError ⟨db', fields, clock⟩ ∧ db'.Stores ext order json.encode d s) ∨
      ∃ tx' db', Collection.backfillKey ext json field key tx ⟨db, fields, clock⟩ =
          .ok tx' ⟨db', fields, clock⟩ ∧
        db'.Stores ext order json.encode d s ∧ Staged ext order json field d tx' ∧
        (∀ x, tx.Touches x → tx'.Touches x) ∧
        ∀ w, FieldOf json s key field w → tx'.Touches (indexKey json field w key) := by
  obtain ⟨b, s', htx, hstaged⟩ := h
  cases hdocument : s key with
  | none =>
    obtain ⟨db', hs', hitem⟩ := Collection.dbItem_absent hs fields clock hkey.1 hdocument
    exact .inl ⟨db', by simp only [Collection.backfillKey, run_bind, hitem], hs'⟩
  | some document =>
    obtain ⟨db', hs', hitem⟩ := Collection.dbItem_spec hs fields clock hkey.1 hdocument
    right
    cases hvalue : json.asDict document >>= fun items => items field with
    | none =>
      refine ⟨tx, db', ?_, hs', ⟨b, s', htx, hstaged⟩, fun x hx => hx, ?_⟩
      · simp only [Collection.backfillKey, run_bind, hitem, hvalue]
        rfl
      · rintro w ⟨-, document', items, hdocument', hitems, hw⟩
        obtain rfl : document = document' := Option.some.inj (hdocument.symm.trans hdocument')
        simp [hitems, hw] at hvalue
    | some value =>
      obtain ⟨tx', hset, htx', htouched⟩ := htx.set json.roundTrips
        (Json.validKey_iff.mpr (indexKey_ne_nil json field value key)) (json.str key)
      refine ⟨tx', db', ?_, hs', ⟨b, _, htx', fun x hx => ?_⟩, fun x hx => ?_, ?_⟩
      · simp only [Collection.backfillKey, run_bind, hitem, hvalue, hset, ofExcept_ok]
      · by_cases heq : x = indexKey json field value key
        · subst heq
          exact ⟨value, key, hkey, rfl, assign_self⟩
        · rw [assign_of_ne heq]
          exact hstaged x (((htouched x).mp hx).resolve_left heq)
      · exact (htouched x).mpr (.inr hx)
      · rintro w ⟨-, document', items, hdocument', hitems, hw⟩
        obtain rfl : document = document' := Option.some.inj (hdocument.symm.trans hdocument')
        obtain rfl : w = value := by simpa [hitems, hw] using hvalue
        exact (htouched _).mpr (.inl rfl)

/-- The commit of the staged entries. -/
theorem commit (hs : db.Stores ext order json.encode d s) (fields : List Text) (clock : ℕ → T) :
    (∃ db' d' s', onDb (tx.commit ext) ⟨db, fields, clock⟩ = .ok () ⟨db', fields, clock⟩ ∧
        db'.Stores ext order json.encode d' s' ∧
        Storage.SameRecords d.live.size d.live d'.live ∧ Entries json field tx s s') ∨
      ∃ e db' d', onDb (tx.commit ext) ⟨db, fields, clock⟩ = .error e ⟨db', fields, clock⟩ ∧
        db'.Stores ext order json.encode d' s ∧ Storage.SameRecords d.live.size d.live d'.live := by
  obtain ⟨b, s', htx, hstaged⟩ := h
  have hsettles := hs.commit_spec htx
  generalize hrun : tx.commit ext db = result at hsettles
  cases hsettles with
  | @committed db' d' _ hs' hrecords _ =>
    refine .inl ⟨db', d', _, Collection.onDb_ok hrun, hs', hrecords, fun x hx => ?_, fun x hx => ?_⟩
    · rw [Transaction.merged_of_touches hx]
      exact hstaged x hx
    · exact Transaction.merged_of_not_touches hx
  | @conflicting db' _ hs' =>
    exact .inr ⟨_, db', d, Collection.onDb_error hrun, hs', le_rfl, fun _ _ _ => rfl⟩
  | @failed db' d' _ hs' hrecords _ =>
    exact .inr ⟨_, db', d', Collection.onDb_error hrun, hs', hrecords⟩

end

end Staged

namespace Entries

variable {s' : Text → Option V} {names : Set Text}

section

variable (h : Entries json field tx s s')
include h

theorem other {x : Text} (hx : ¬ IsIndexKey json x) : s' x = s x := by
  refine h.others x fun htouched => ?_
  obtain ⟨w, k, -, rfl, -⟩ := h.staged x htouched
  exact hx ⟨field, w, k, rfl⟩

theorem wellFormed (hs : WellFormed json s) : WellFormed json s' where
  nil := (h.other nil_not_isIndexKey).trans hs.nil
  documents k document hk hdocument :=
    hs.documents k document hk ((h.other hk.not_isIndexKey).symm.trans hdocument)
  timed k value hvalue :=
    hs.timed k value ((h.other (expiryKey_not_isIndexKey k)).symm.trans hvalue)

theorem pointing (hs : Collection.Pointing json names s) (hfield : field ∈ names) : Collection.Pointing json names s' := by
  intro x value hx hvalue
  by_cases htouched : tx.Touches x
  · obtain ⟨w, k, hk, rfl, hentry⟩ := h.staged x htouched
    exact ⟨field, hfield, w, k, hk, rfl, Option.some.inj (hvalue.symm.trans hentry)⟩
  · exact hs x value hx ((h.others x htouched).symm.trans hvalue)

/-- A staged entry is there afterwards, and so is one that was there before. -/
theorem entry (hsep : Separated names) (hfield : field ∈ names) {w : V}
    (hcovered : tx.Touches (indexKey json field w key) ∨
      s (indexKey json field w key) = some (json.str key)) :
    s' (indexKey json field w key) = some (json.str key) := by
  by_cases htouched : tx.Touches (indexKey json field w key)
  · obtain ⟨w', k, -, heq, hentry⟩ := h.staged _ htouched
    obtain ⟨-, -, rfl⟩ := hsep.indexKey_inj hfield hfield heq
    exact hentry
  · rw [h.others _ htouched]
    exact hcovered.resolve_left htouched

end

end Entries

end Staged

/-! ## What is covered -/

/-- A document with a value under the field has its entry, or the call will see to it: its
key has still to be read, or the entry is staged. -/
def BackfillPhase.Covers (json : Json V T) (field : Text) (s : Text → Option V) (key : Text) (w : V) :
    BackfillPhase → Prop
  | .reading tx keys => key ∈ keys ∨ tx.Touches (indexKey json field w key) ∨
      s (indexKey json field w key) = some (json.str key)
  | .filled => s (indexKey json field w key) = some (json.str key)
  | .declared => s (indexKey json field w key) = some (json.str key)
  | _ => True

/-- The indexed fields that the query compares are the given one, with values that are not
`None`. -/
def Query.Over (json : Json V T) (indexes : List Text) (field : Text) (q : Query V) : Prop :=
  ∀ e ∈ q.indexedEquals indexes, e.1 = field ∧ IsNonNull json e.2

/-- A call of `create_index` among the calls of other clients. -/
abbrev BackfillState (V T : Type) := CallState BackfillPhase V T

section Backfill

/-- Another client whose `set` has not seen the field declared commits a document only if
`create_index` covers its value under the field. -/
def CoversWritten (ext : Externals Text) (json : Json V T) (field : Text) (st : BackfillState V T)
    (e : CallEvent V) (_ : BackfillState V T) : Prop :=
  ∀ key document fields items w, e = .client (.commits key (some document) fields) → field ∉ fields →
    json.asDict document = some items → items field = some w → IsNonNull json w →
    ∀ s, st.collection.ServesMap ext json s → st.phase.Covers json field s key w

/-- What is known of a call of `create_index`. -/
def BackfillPhase.Ok (ext : Externals Text) (order : ℕ) (json : Json V T) (field : Text) (d : Disk) :
    BackfillPhase → Prop
  | .begun tx => Staged ext order json field d tx
  | .reading tx keys => Staged ext order json field d tx ∧ ∀ k ∈ keys, DocKey k
  | _ => True

variable {ext : Externals Text} {order : ℕ} {names : Set Text} {strict : Prop} {d d' : Disk}
  {s' : Text → Option V} {clock : ℕ → T} {phase phase' : BackfillPhase}

theorem BackfillPhase.Ok.mono (h : phase.Ok ext order json field d)
    (hrecords : Storage.SameRecords d.live.size d.live d'.live) :
    phase.Ok ext order json field d' := by
  cases phase with
  | begun tx => exact Staged.mono h hrecords
  | reading tx keys => exact ⟨h.1.mono hrecords, h.2⟩
  | _ => trivial

/-- An entry covers a document in every phase. -/
theorem BackfillPhase.Covers.of_entry {w : V}
    (h : s (indexKey json field w key) = some (json.str key)) : phase.Covers json field s key w := by
  cases phase with
  | reading tx keys => exact .inr (.inr h)
  | filled => exact h
  | declared => exact h
  | _ => trivial

/-- Whether a document is covered depends on the map through its entry. -/
theorem BackfillPhase.Covers.congr {w : V} (h : phase.Covers json field s key w)
    (hentry : s' (indexKey json field w key) = s (indexKey json field w key)) :
    phase.Covers json field s' key w := by
  cases phase with
  | reading tx keys =>
    rcases h with hkey | htouched | hs
    · exact .inl hkey
    · exact .inr (.inl htouched)
    · exact .inr (.inr (hentry.trans hs))
  | filled => exact hentry.trans h
  | declared => exact hentry.trans h
  | _ => trivial

section Covered

variable [LE T] [DecidableLE T]

/-- Every document with a value under the field is covered, or has expired for good. -/
def Covered (json : Json V T) (field : Text) (phase : BackfillPhase) (clock : ℕ → T)
    (s : Text → Option V) : Prop :=
  ∀ key w, FieldOf json s key field w → IsNonNull json w →
    phase.Covers json field s key w ∨ ∀ n, Collection.expiredAt json s key (clock n) = true

/-- What holds in every state of a run; in the strict sense, documents are covered. -/
structure BackfillInv (ext : Externals Text) (order : ℕ) (json : Json V T) (names : Set Text)
    (field : Text) (strict : Prop) (st : BackfillState V T) (d : Disk) (s : Text → Option V) : Prop where
  stores : st.collection.db.Stores ext order json.encode d s
  formed : WellFormed json s
  pointing : Collection.Pointing json names s
  named : ∀ f ∈ st.collection.indexes, f ∈ names
  ordered : ∀ i j, i < j → st.collection.clock i ≤ st.collection.clock j
  pool : ∀ call ∈ st.pool, call.Ok ext order json names d
  ok : st.phase.Ok ext order json field d
  indexed : st.phase = .declared → field ∈ st.collection.indexes
  covered : strict → Covered json field st.phase st.collection.clock s

section

variable (h : Covered json field phase clock s)
include h

/-- What is covered stays covered at later readings of the clock, in a phase that covers
as much. -/
theorem Covered.later (n : ℕ)
    (hphase : ∀ key w, FieldOf json s key field w → phase.Covers json field s key w →
      phase'.Covers json field s key w) :
    Covered json field phase' (fun i => clock (i + n)) s := by
  intro key w hof hw
  rcases h key w hof hw with hcovers | hexpired
  · exact .inl (hphase key w hof hcovers)
  · exact .inr fun i => hexpired (i + n)

/-- A map with the same documents and expiry records. -/
theorem Covered.congr (hdocument : ∀ k, DocKey k → s' k = s k)
    (hexpiry : ∀ k, s' (expiryKey k) = s (expiryKey k))
    (hphase : ∀ key w, phase.Covers json field s key w → phase'.Covers json field s' key w) :
    Covered json field phase' clock s' := by
  intro key w hof hw
  have hof' : FieldOf json s key field w := hof.congr (hdocument key hof.1).symm
  rcases h key w hof' hw with hcovers | hexpired
  · exact .inl (hphase key w hcovers)
  · exact .inr fun n => by rw [Collection.expiredAt_congr (hexpiry key)]; exact hexpired n

/-- A commit of another client leaves the documents covered, if it covers what it writes. -/
theorem Covered.landed (hsep : Separated names) (hfield : field ∈ names) {written : Option V}
    (hlanded : Landed json key written fields s s') (hkey : DocKey key)
    (hfields : ∀ f ∈ fields, f ∈ names)
    (hwritten : ∀ document items w, written = some document → field ∉ fields →
      json.asDict document = some items → items field = some w → IsNonNull json w →
      phase.Covers json field s key w) :
    Covered json field phase clock s' := by
  intro k w hof hw
  by_cases hne : k = key
  · subst hne
    obtain ⟨-, document, items, hdocument, hitems, hvalue⟩ := hof
    have hdocument' : written = some document := hlanded.document.symm.trans hdocument
    refine .inl ?_
    by_cases hin : field ∈ fields
    · exact .of_entry (hlanded.entries document items field w hdocument' hitems hin hvalue)
    · exact (hwritten document items w hdocument' hin hitems hvalue hw).congr
        (hlanded.entry_kept hsep hfields hfield (.inr hin) hkey w)
  · have hof' : FieldOf json s k field w := hof.congr (hlanded.document_of_ne hof.1 hne).symm
    rcases h k w hof' hw with hcovers | hexpired
    · exact .inl (hcovers.congr (hlanded.entry_kept hsep hfields hfield (.inl hne) hkey w))
    · exact .inr fun n => by
        rw [Collection.expiredAt_congr (hlanded.expiry_of_ne hkey hne)]
        exact hexpired n

end

end Covered

variable [DecidableEq V] [LE T] [DecidableLE T]

/-- One step of `create_index`, which may raise, or of another client. -/
abbrev BackfillStep (ext : Externals Text) (json : Json V T) (field : Text) :
    BackfillState V T → CallEvent V → BackfillState V T → Prop :=
  CallStep ext json (BackfillPhase.step ext json field) BackfillPhase.raised

/-- One step of `create_index`, or its exception. -/
theorem BackfillInv.advance [IsTrans T (· ≤ ·)] {c : Collection T} {pool : List (InFlight V T)}
    (h : BackfillInv ext order json names field strict ⟨c, phase, pool⟩ d s) (hsep : Separated names)
    (hfield : field ∈ names) :
    ∃ d' s', BackfillInv ext order json names field strict
      (.after .raised pool (phase.step ext json field c)) d' s' := by
  cases phase with
  | idle =>
    obtain ⟨tx, db', hrun, hs', hbegun⟩ := Collection.onDb_begin h.stores c.indexes c.clock
    simp only [BackfillPhase.step, run_bind, hrun]
    exact ⟨d, s, { h with
      stores := hs'
      ok := hbegun.staged field
      indexed := fun hphase => by cases hphase
      covered := fun _ _ _ _ _ => .inl trivial }⟩
  | begun tx =>
    obtain ⟨db', n, l, hs', hrun, hl, hpassed⟩ :=
      Collection.keys_spec c.indexes c.clock h.stores h.formed.timed h.formed.nil
    simp only [BackfillPhase.step, run_bind, abortOnError, hrun]
    refine ⟨d, s, { h with
      stores := hs'
      ordered := fun i j hij => h.ordered _ _ (by omega)
      ok := ⟨h.ok, fun k hk => (hl k hk).1⟩
      indexed := fun hphase => by cases hphase
      covered := fun _ key w hof _ => ?_ }⟩
    -- a document that has been passed over had expired, and the clock does not go back
    obtain ⟨hkey, document, -, hdocument, -⟩ := hof
    rcases hpassed key hkey (by simp [hdocument]) with hmem | ⟨i, hi, hexpired⟩
    · exact .inl (.inl hmem)
    · exact .inr fun j => Collection.expiredAt_mono hexpired (h.ordered i (j + n) (by omega))
  | reading tx keys => cases keys with
    | cons key keys =>
      obtain ⟨hstaged, hkeys⟩ := h.ok
      rcases hstaged.read h.stores c.indexes c.clock (hkeys key (.head _)) with
        ⟨db', hrun, hs'⟩ | ⟨tx', db', hrun, hs', hstaged', hmono, hread⟩
      · simp only [BackfillPhase.step, run_bind, abortOnError, hrun]
        exact ⟨d, s, { h with
          stores := hs'.closeBase tx
          ok := trivial
          indexed := fun hphase => by cases hphase
          covered := fun _ _ _ _ _ => .inl trivial }⟩
      · simp only [BackfillPhase.step, run_bind, abortOnError, hrun]
        refine ⟨d, s, { h with
          stores := hs'
          ok := ⟨hstaged', fun k hk => hkeys k (.tail _ hk)⟩
          indexed := fun hphase => by cases hphase
          covered := fun hstrict => (h.covered hstrict).later 0 ?_ }⟩
        rintro k w hof (hmem | htouched | hentry)
        · rcases List.mem_cons.mp hmem with rfl | hmem
          · exact .inr (.inl (hread w hof))
          · exact .inl hmem
        · exact .inr (.inl (hmono _ htouched))
        · exact .inr (.inr hentry)
    | nil =>
      obtain ⟨hstaged, -⟩ := h.ok
      rcases hstaged.commit h.stores c.indexes c.clock with
        ⟨db', d', s', hrun, hs', hrecords, hentries⟩ | ⟨e, db', d', hrun, hs', hrecords⟩
      · simp only [BackfillPhase.step, run_bind, hrun]
        refine ⟨d', s', { h with
          stores := hs'
          formed := hentries.wellFormed h.formed
          pointing := hentries.pointing h.pointing hfield
          pool := fun call hcall => (h.pool call hcall).mono hrecords
          ok := trivial
          indexed := fun hphase => by cases hphase
          covered := fun hstrict => ?_ }⟩
        refine (h.covered hstrict).congr (fun k hk => hentries.other hk.not_isIndexKey)
          (fun k => hentries.other (expiryKey_not_isIndexKey k)) fun k w hcovers => ?_
        exact hentries.entry hsep hfield (hcovers.resolve_left (by simp))
      · simp only [BackfillPhase.step, run_bind, hrun]
        exact ⟨d', s, { h with
          stores := hs'
          pool := fun call hcall => (h.pool call hcall).mono hrecords
          ok := trivial
          indexed := fun hphase => by cases hphase
          covered := fun _ _ _ _ _ => .inl trivial }⟩
  | filled =>
    exact ⟨d, s, { h with
      named := Collection.names_declared h.named hfield
      ok := trivial
      indexed := fun _ => mem_declared.mpr (.inr rfl)
      covered := h.covered }⟩
  | declared => exact ⟨d, s, h⟩
  | raised e => exact ⟨d, s, h⟩

/-- A step keeps the invariant; in the strict sense, if it covers what it writes. -/
theorem BackfillInv.step [IsTrans T (· ≤ ·)] {st st' : BackfillState V T} {e : CallEvent V}
    (h : BackfillInv ext order json names field strict st d s) (hsep : Separated names)
    (hfield : field ∈ names) (hstep : BackfillStep ext json field st e st')
    (hmeets : strict → CoversWritten ext json field st e st') :
    ∃ d' s', BackfillInv ext order json names field strict st' d' s' := by
  cases hstep with
  | advances hrun | raises hrun =>
    have hadvance := h.advance hsep hfield
    rw [hrun] at hadvance
    exact hadvance
  | @client c c' phase pool pool' e hclient =>
    obtain ⟨d', s', hs', hrecords, hpool', hindexes, ⟨n, hclock⟩, heffect⟩ :=
      hclient.spec h.stores h.named h.pool
    have hlater : Covered json field phase c.clock s' → Covered json field phase c'.clock s' := by
      intro hcovered
      rw [hclock]
      exact hcovered.later n fun _ _ _ hcovers => hcovers
    refine ⟨d', s', hs', heffect.wellFormed h.formed, ?_, fun f hf => h.named f (hindexes ▸ hf), ?_,
      hpool', h.ok.mono hrecords, fun hphase => hindexes ▸ h.indexed hphase, fun hstrict => hlater ?_⟩
    · rcases heffect with rfl | ⟨key, written, fields, -, hkey, hfields, hlanded⟩
      · exact h.pointing
      · exact hlanded.pointing_kept h.pointing hkey hfields
    · intro i j hij
      simp only [hclock]
      exact h.ordered _ _ (by omega)
    · rcases heffect with rfl | ⟨key, written, fields, rfl, hkey, hfields, hlanded⟩
      · exact h.covered hstrict
      · refine (h.covered hstrict).landed hsep hfield hlanded hkey hfields ?_
        rintro document items w rfl hnot hitems hvalue hw
        exact hmeets hstrict key document fields items w rfl hnot hitems hvalue hw s h.stores.serves

/-- **`create_index` among other clients.**  `create_index` is called on a collection that
has been reached from an empty database, and other clients call `set` and `delete` in
between its steps.  If every document that they commit without having seen the field
declared is covered, that is, the keys have still to be collected, its own key has still to
be read or its entry is staged or there, then a query over the new index finds what a full
scan finds, from the moment on in which the field is declared.  In any run, it does so
exactly if the index is complete. -/
theorem backfill_answer_eq_scan [IsTrans T (· ≤ ·)] (ext : Externals Text) (json : Json V T)
    (order : ℕ) {names : Set Text} (hsep : Separated names) {field : Text} (hfield : field ∈ names)
    {c : Collection T} (hreached : Collection.Reached ext json order names c) :
    (∀ st, Run (BackfillStep ext json field) (CoversWritten ext json field) ⟨c, .idle, []⟩ st →
      st.phase = .declared → ∀ q : Query V, q.Over json st.collection.indexes field →
      q.answer ext json st.collection = q.scanAnswer ext json st.collection) ∧
    ∀ st, Run (BackfillStep ext json field) (fun _ _ _ => True) ⟨c, .idle, []⟩ st →
      st.phase = .declared →
      ((∀ q : Query V, q.Over json st.collection.indexes field →
          q.answer ext json st.collection = q.scanAnswer ext json st.collection) ↔
        ∃ s, st.collection.ServesMap ext json s ∧
          Complete json [field] s (st.collection.clock 0)) := by
  obtain ⟨d, s, hs, hsound⟩ := hreached.sound hsep
  have hpoint : Collection.Pointing json names s := by
    intro x value hx hvalue
    obtain ⟨f, hf, k, w, hof, rfl, rfl⟩ := hsound.coherent.entries x value hx hvalue
    exact ⟨f, hsound.declared f hf, w, k, hof.1, rfl, rfl⟩
  have hstart : ∀ strict, BackfillInv ext order json names field strict ⟨c, .idle, []⟩ d s := fun _ =>
    ⟨hs, hsound.coherent.toWellFormed, hpoint, hsound.declared, hsound.ordered, by simp,
      trivial, nofun, fun _ _ _ _ _ => .inl trivial⟩
  have hused : ∀ {indexes} {q : Query V}, q.Over json indexes field →
      ∀ e ∈ q.indexedEquals indexes, e.1 ∈ [field] ∧ IsNonNull json e.2 := fun hq e he =>
    ⟨List.mem_singleton.mpr (hq e he).1, (hq e he).2⟩
  constructor
  · intro st hrun hphase q hq
    obtain ⟨d1, s1, hinv⟩ := hrun.invariant
      (I := fun st => ∃ d s, BackfillInv ext order json names field True st d s) ⟨d, s, hstart True⟩
      fun st e st' ⟨_, _, hinv⟩ hstep hmeets => hinv.step hsep hfield hstep fun _ => hmeets
    refine Collection.answer_eq_of_complete hinv.stores hinv.formed hinv.pointing ?_ (hused hq)
    intro k f w hof hf hw hlive
    obtain rfl := List.mem_singleton.mp hf
    rcases hinv.covered trivial k w hof hw with hcovers | hexpired
    · rw [hphase] at hcovers
      exact hcovers
    · rw [hexpired 0] at hlive
      cases hlive
  · intro st hrun hphase
    obtain ⟨d1, s1, hinv⟩ := hrun.invariant
      (I := fun st => ∃ d s, BackfillInv ext order json names field False st d s) ⟨d, s, hstart False⟩
      fun st e st' ⟨_, _, hinv⟩ hstep _ => hinv.step hsep hfield hstep False.elim
    constructor
    · intro hqueries
      refine ⟨s1, hinv.stores.serves, Collection.complete_of_answers hinv.stores hinv.formed
        hinv.pointing hsep ?_ fun f hf w hw => hqueries _ ?_⟩
      · intro f hf
        obtain rfl := List.mem_singleton.mp hf
        exact ⟨hinv.indexed hphase, hfield⟩
      · intro e he
        obtain rfl := List.mem_singleton.mp hf
        obtain rfl : e = (f, w) := by
          simpa [Query.whereEq, Query.new] using (List.mem_filter.mp he).1
        exact ⟨rfl, hw⟩
    · rintro ⟨s2, hserves, hcomplete⟩ q hq
      obtain rfl := hserves.eq hinv.stores
      exact Collection.answer_eq_of_complete hinv.stores hinv.formed hinv.pointing hcomplete (hused hq)

end Backfill

/-! ### A sample -/

/-- Steps of the call alone are a run. -/
theorem run_of_iterate {φ : Type} {ext : Externals Text} {step : φ → Py (Collection T) φ}
    {raised : PyError → φ} {Meets : CallState φ V T → CallEvent V → CallState φ V T → Prop}
    {start : CallState φ V T} (hmeets : ∀ st st', Meets st .advances st') {n : ℕ} {phase phase' : φ}
    {c c' : Collection T} {pool : List (InFlight V T)}
    (hrun : Run (CallStep ext json step raised) Meets start ⟨c, phase, pool⟩)
    (hsteps : iterate step n phase c = .ok phase' c') :
    Run (CallStep ext json step raised) Meets start ⟨c', phase', pool⟩ := by
  induction n generalizing phase c with
  | zero =>
    cases hsteps
    exact hrun
  | succ n ih =>
    rw [iterate, run_bind] at hsteps
    cases hstep : step phase c with
    | error e c1 => simp [hstep] at hsteps
    | ok phase1 c1 =>
      rw [hstep] at hsteps
      exact ih (hrun.step (.advances hstep) (hmeets _ _)) hsteps

theorem over_sample (indexes : List Text) :
    (Query.new.whereEq ['f'] (.number 1)).Over docJson indexes ['f'] := by
  intro e he
  have hin := (List.mem_filter.mp he).1
  obtain rfl : e = (['f'], .number 1) := by simpa [Query.whereEq, Query.new] using hin
  exact ⟨rfl, isNonNull_one _ hin⟩

/-- The entries of a sample collection are among its keys. -/
theorem Sampled.backfill {s : Text → Option SampleValue} (h : Sampled s) {l : List Text}
    (hl : ∀ k ∈ l, DocKey k ∧ s k ≠ none) :
    Sampled (assignAll s (backfillEntries docJson ['f'] s l)) := by
  have hkeys : ∀ k ∈ l, DocKey k := fun k hk => (hl k hk).1
  refine h.congr fun x value hvalue => ?_
  by_cases hentry : ∃ k ∈ l, ∃ w, FieldOf docJson s k ['f'] w ∧ x = indexKey docJson ['f'] w k
  · obtain ⟨k, hk, w, hof, rfl⟩ := hentry
    rw [assignAll_backfill_self hkeys hk hof] at hvalue
    cases hvalue
    obtain ⟨hkey, document, items, hdocument, hitems, hw⟩ := hof
    obtain rfl : k = ['k'] := by
      rcases List.mem_cons.mp (h k document hdocument).1 with rfl | hmem
      · rfl
      rcases List.mem_cons.mp hmem with rfl | hmem
      · exact absurd rfl (hkey.ne_expiryKey _)
      · obtain rfl := List.mem_singleton.mp hmem
        exact absurd rfl (hkey.ne_indexKey _ _ _)
    obtain rfl : w = .number 1 := by
      cases document with
      | dict keys =>
        cases hitems
        exact (Option.some.inj (Option.ite_none_right_eq_some.mp hw).2).symm
      | _ => cases hitems
    exact .inr ⟨by simp [sampleKeys], by decide +kernel⟩
  · rw [assignAll_of_not_mem] at hvalue
    · exact .inl hvalue
    · intro e he heq
      obtain ⟨k, hk, w, hof, rfl⟩ := (mem_backfillEntries hkeys).mp he
      exact hentry ⟨k, hk, w, hof, heq.symm⟩

/-- The transaction of `create_index` has begun on an empty collection, and another client has
stored a document since; the call returns. -/
theorem sample_fills {n : ℕ} {tx : Transaction Text} {c : Collection ℕ} {d : Disk}
    (htx : tx.Overlays textExt 64 docJson.encode d (fun _ => none) fun _ => none)
    (hempty : ∀ x, ¬ tx.Touches x)
    (hs : c.db.Stores textExt 64 docJson.encode d (sampleSet [] [['f']] none fun _ => none))
    (hroom : Roomy textExt 64 (n + 1) d) :
    ∃ (m : ℕ) (c' : Collection ℕ) (s : Text → Option SampleValue),
      iterate (BackfillPhase.step textExt docJson ['f']) m (.begun tx) c =
        .ok .declared c' ∧
      c'.ServesMap textExt docJson s ∧ s ['k'] = some (.dict [['f']]) := by
  set s := sampleSet [] [['f']] none fun _ => none
  have hformed : WellFormed docJson s :=
    (Documented.empty.set [] docKey_k rfl (by simp)).toWellFormed
  have hsampled : Sampled s := Sampled.empty.set (by simp) (.inr rfl) none (by simp)
  obtain ⟨db1, k, l, hs1, hkeys, hl, -⟩ :=
    Collection.keys_spec c.indexes c.clock hs hformed.timed hformed.nil
  have hdocs : ∀ key ∈ l, DocKey key := fun key hkey => (hl key hkey).1
  obtain ⟨tx', db2, hfill, hs2, htx', htouched⟩ := Collection.backfill_spec c.indexes
    (fun i => c.clock (i + k)) hs1 htx ['f'] fun key hkey => ⟨(hl key hkey).1.1, (hl key hkey).2⟩
  -- what is staged are entries, and there was none
  have hentry : ∀ x, tx'.Touches x → ∃ key ∈ l, ∃ w, FieldOf docJson s key ['f'] w ∧
      x = indexKey docJson ['f'] w key := by
    intro x hx
    obtain ⟨e, he, rfl⟩ := ((htouched x).mp hx).resolve_right (hempty x)
    obtain ⟨key, hkey, w, hof, rfl⟩ := (mem_backfillEntries hdocs).mp he
    exact ⟨key, hkey, w, hof, rfl⟩
  have hmerged : tx'.merged (assignAll (fun _ => none) (backfillEntries docJson ['f'] s l)) s =
      assignAll s (backfillEntries docJson ['f'] s l) := by
    funext x
    by_cases hx : tx'.Touches x
    · obtain ⟨key, hkey, w, hof, rfl⟩ := hentry x hx
      rw [Transaction.merged_of_touches hx, assignAll_backfill_self hdocs hkey hof,
        assignAll_backfill_self hdocs hkey hof]
    · rw [Transaction.merged_of_not_touches hx, assignAll_of_not_mem]
      exact fun e he heq => hx ((htouched x).mpr (.inl ⟨e, he, heq⟩))
  have hsettles := hs2.commit_spec htx'
  generalize hcommit : tx'.commit textExt db2 = result at hsettles
  cases hsettles with
  | @committed db3 d' _ hs3 _ _ =>
    rw [hmerged] at hs3
    obtain ⟨m, hm⟩ : EndsIn (BackfillPhase.step textExt docJson ['f']) _ _ _ :=
      BackfillPhase.ends_reading tx tx rfl l ⟨db1, c.indexes, fun i => c.clock (i + k)⟩
    have hsteps := hm m (Nat.le_refl m)
    simp only [run_bind, abortOnError, hfill, Collection.onDb_ok hcommit] at hsteps
    refine ⟨m + 1, Collection.declare ['f'] ⟨db3, c.indexes, fun i => c.clock (i + k)⟩, _, ?_,
      hs3.serves, ?_⟩
    · rw [iterate, run_bind]
      simp only [BackfillPhase.step, run_bind, abortOnError, hkeys]
      exact hsteps
    · rw [backfill_document hdocs docKey_k]
      exact setMap_key docKey_k
  | conflicting hchanged _ =>
    obtain ⟨x, hx, hne⟩ := hchanged
    obtain ⟨key, -, w, -, rfl⟩ := hentry x hx
    have hnone : s (indexKey docJson ['f'] w key) = none :=
      setMap_lone (docKey_k.ne_indexKey ['f'] w key).symm
    rw [stored, stored, hnone] at hne
    exact absurd rfl hne
  | failed hlong _ _ _ =>
    rw [hmerged] at hlong
    exact absurd ((hsampled.backfill hl).short.committable hroom) hlong

theorem backfill_answer_eq_scan_sample :
    ∃ (c : Collection ℕ) (st : BackfillState SampleValue ℕ) (s : Text → Option SampleValue),
      Collection.Reached textExt docJson 64 {f | nul ∉ f} c ∧
      c.ServesMap textExt docJson (fun _ => none) ∧
      Run (BackfillStep textExt docJson ['f'])
        (CoversWritten textExt docJson ['f']) ⟨c, .idle, []⟩ st ∧
      st.phase = .declared ∧ st.collection.ServesMap textExt docJson s ∧
      s ['k'] = some (.dict [['f']]) ∧
      (Query.new.whereEq ['f'] (.number 1)).Over docJson st.collection.indexes ['f'] ∧
      (Query.new.whereEq ['f'] (.number 1)).answer textExt docJson st.collection =
        (Query.new.whereEq ['f'] (.number 1)).scanAnswer textExt docJson st.collection := by
  obtain ⟨db, d, hnew, hs, hroom⟩ := sample_new
  have hreached : Collection.Reached textExt docJson 64 {f | nul ∉ f}
      ⟨.ofDatabase db, [], fun _ => 0⟩ := .new hnew (by simp) fun i j _ => Nat.le_refl 0
  obtain ⟨tx, db1, hbegin, hs1, hbegun⟩ := Collection.onDb_begin hs [] fun _ => 0
  have hbegin' : BackfillStep textExt docJson ['f']
      ⟨⟨.ofDatabase db, [], fun _ => 0⟩, .idle, []⟩ .advances ⟨⟨db1, [], fun _ => 0⟩, .begun tx, []⟩ :=
    .advances (by simp only [BackfillPhase.step, run_bind, hbegin]; rfl)
  -- the document comes before the keys are collected
  obtain ⟨c2, c3, c4, tx1, tx2, d', hbegins, hwrites, hcommits, -, -, hs4, hrecords, hroom4⟩ :=
    ClientStep.set_alone (c := ⟨db1, [], fun _ => 0⟩) hs1 docKey_k
      (rfl : docJson.asDict (.dict [['f']]) = some _) none
      (Sampled.empty.set (by simp) (.inr rfl) none (by simp)).short hroom []
  have hcovers : ∀ c pool e st', CoversWritten textExt docJson ['f']
      ⟨c, .begun tx, pool⟩ e st' := fun _ _ _ _ _ _ _ _ _ _ _ _ _ _ _ _ => trivial
  have hadvances : ∀ st st', CoversWritten textExt docJson ['f'] st .advances st' :=
    fun _ _ _ _ _ _ _ he => by cases he
  obtain ⟨m, c, s, hsteps, hserves, hk⟩ :=
    sample_fills (hbegun.overlays.mono hrecords) hbegun.empty hs4 hroom4
  have hrun := run_of_iterate hadvances ((((Run.refl.step hbegin' (hadvances _ _)).step
    (.client hbegins) (hcovers _ _ _ _)).step (.client hwrites) (hcovers _ _ _ _)).step
    (.client hcommits) (hcovers _ _ _ _)) hsteps
  exact ⟨_, _, s, hreached, hs.serves, hrun, rfl, hserves, hk, over_sample _, (backfill_answer_eq_scan
    textExt docJson 64 separated_of_no_nul (by decide) hreached).1 _ hrun rfl _
    (over_sample _)⟩

/-- Another client writes a document after the keys have been collected; the declared index
does not have it. -/
theorem backfill_misses_document :
    ∃ (c : Collection ℕ) (st : BackfillState SampleValue ℕ),
      Collection.Reached textExt docJson 64 {f | nul ∉ f} c ∧
      Run (BackfillStep textExt docJson ['f']) (fun _ _ _ => True) ⟨c, .idle, []⟩ st ∧
      st.phase = .declared ∧ st.pool = [] ∧
      (Query.new.whereEq ['f'] (.number 1)).answer textExt docJson st.collection =
        .ok [] ∧
      (Query.new.whereEq ['f'] (.number 1)).scanAnswer textExt docJson st.collection =
        .ok [(['k'], .dict [['f']])] := by
  obtain ⟨db, d, hnew, hs, hroom⟩ := sample_new
  have hreached : Collection.Reached textExt docJson 64 {f | nul ∉ f}
      ⟨.ofDatabase db, [], fun _ => 0⟩ := .new hnew (by simp) fun i j _ => Nat.le_refl 0
  obtain ⟨tx, db1, hbegin, hs1, hbegun⟩ := Collection.onDb_begin hs [] fun _ => 0
  obtain ⟨db2, n, l, hs2, hkeys, hl, -⟩ := Collection.keys_spec [] (fun _ => 0) hs1
    (Documented.empty : Documented docJson _).toWellFormed.timed rfl
  obtain rfl : l = [] := by
    refine List.eq_nil_iff_forall_not_mem.mpr fun k hk => ?_
    exact (hl k hk).2 rfl
  -- the document comes between the collection of the keys and the commit
  obtain ⟨c3, c4, c5, tx1, tx2, d', hbegins, hwrites, hcommits, hindexes, -, hs5, -, -⟩ :=
    ClientStep.set_alone (c := ⟨db2, [], fun _ => 0⟩) hs2 docKey_k
      (rfl : docJson.asDict (.dict [['f']]) = some _) none
      (Sampled.empty.set (by simp) (.inr rfl) none (by simp)).short hroom []
  have hcommit : onDb (tx.commit textExt) c5 =
      .ok () ⟨tx.closeBase c5.db, c5.indexes, c5.clock⟩ :=
    Collection.onDb_ok (Transaction.commit_of_empty c5.db
      (Transaction.empty_of_not_touches hbegun.empty))
  have hbegin' : BackfillStep textExt docJson ['f']
      ⟨⟨.ofDatabase db, [], fun _ => 0⟩, .idle, []⟩ .advances ⟨⟨db1, [], fun _ => 0⟩, .begun tx, []⟩ :=
    .advances (by simp only [BackfillPhase.step, run_bind, hbegin]; rfl)
  have hcollects : BackfillStep textExt docJson ['f']
      ⟨⟨db1, [], fun _ => 0⟩, .begun tx, []⟩ .advances ⟨⟨db2, [], fun _ => 0⟩, .reading tx [], []⟩ :=
    .advances (by simp only [BackfillPhase.step, run_bind, abortOnError, hkeys]; rfl)
  have hfills : BackfillStep textExt docJson ['f'] ⟨c5, .reading tx [], []⟩ .advances
      ⟨⟨tx.closeBase c5.db, c5.indexes, c5.clock⟩, .filled, []⟩ :=
    .advances (by simp only [BackfillPhase.step, run_bind, hcommit]; rfl)
  have hrun : Run (BackfillStep textExt docJson ['f']) (fun _ _ _ => True)
      ⟨⟨.ofDatabase db, [], fun _ => 0⟩, .idle, []⟩
      ⟨Collection.declare ['f'] ⟨tx.closeBase c5.db, c5.indexes, c5.clock⟩, .declared, []⟩ :=
    ((((((Run.refl.step hbegin' trivial).step hcollects trivial).step (.client hbegins) trivial).step
      (.client hwrites) trivial).step (.client hcommits) trivial).step hfills trivial).step
      (.advances rfl) trivial
  refine ⟨_, _, hreached, hrun, rfl, rfl, lone_document_missed (hs5.closeBase tx) ?_ docKey_k
    (setMap_key docKey_k) ?_ ?_ ?_⟩
  · exact (Documented.empty.set _ docKey_k rfl (by simp [Collection.expiryOf])).toWellFormed
  · exact fun x hx => setMap_lone hx
  · rfl
  · simp [Query.indexedEquals, Query.whereEq, Query.new, Collection.declare, hindexes]
