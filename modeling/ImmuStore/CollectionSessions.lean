/-
# Sessions on one file

Index entries stay in the file, but which fields are indexed is declared anew by every
session, and a constructor fills no index.  So an index is complete in a session if it was
complete when the session began: the methods write the entries of the fields that are
declared while they run, and `create_index` fills the index it declares.
-/
import ImmuStore.CollectionQuery

open Query (new whereEq)

variable {V T : Type} {json : Json V T} {fields : List Text} {key : Text} {s : Text → Option V}

/-! ## Queries without `None` -/

/-- The value is not taken for `None`. -/
def IsNonNull (json : Json V T) (value : V) : Prop := valueToken json value ≠ valueToken json json.null

/-- The query compares no field with `None`. -/
def Query.NonNull (json : Json V T) (q : Query V) : Prop := ∀ e ∈ q.equals, IsNonNull json e.2

section Complete

variable [LE T] [DecidableLE T]

/-- Every document that has not expired has its entry for each indexed field it has, with
a value that is not `None`. -/
def Complete (json : Json V T) (fields : List Text) (s : Text → Option V) (now : T) : Prop :=
  ∀ key f w, FieldOf json s key f w → f ∈ fields → IsNonNull json w →
    Collection.expiredAt json s key now = false → s (indexKey json f w key) = some (json.str key)

variable {names : Set Text} {q : Query V} {now : T} {document : V}

/-- A document that the query selects is named if the indexes that it uses are complete. -/
theorem Complete.namedIn {used : List Text} (h : Complete json used s now)
    (hq : ∀ e ∈ q.indexedEquals fields, e.1 ∈ used ∧ IsNonNull json e.2)
    (hsel : q.Selects json s now key document) : q.NamedIn json fields s key := by
  obtain ⟨hkey, hs, hlive, items, hitems, hhold⟩ := hsel
  intro e he
  obtain ⟨hused, hnull⟩ := hq e he
  have hin : e ∈ q.equals := (List.mem_filter.mp he).1
  have htoken : valueToken json ((items e.1).getD json.null) = valueToken json e.2 := by
    simpa using List.all_eq_true.mp hhold e hin
  cases hvalue : items e.1 with
  | none =>
    rw [hvalue] at htoken
    exact absurd htoken.symm hnull
  | some w =>
    rw [hvalue, Option.getD_some] at htoken
    have hw : IsNonNull json w := by
      rw [IsNonNull, htoken]
      exact hnull
    refine ⟨_, ?_, h key e.1 w ⟨hkey, document, items, hs, hitems, hvalue⟩ hused hw hlive⟩
    rw [indexScanPrefix, ← htoken]
    exact List.prefix_append _ _

omit [LE T] [DecidableLE T] in
/-- A document that is named for its value has the entry of the value. -/
theorem entry_of_named (hsep : Separated names) (hpoint : Collection.Pointing json names s)
    {f x : Text} {w : V} (hf : f ∈ names) (hpre : indexScanPrefix json f w <+: x)
    (hx : s x = some (json.str key)) : s (indexKey json f w key) = some (json.str key) := by
  obtain ⟨g, hg, w', key', -, rfl, heq⟩ := hpoint x _
    ((indexScanPrefix_indexPrefix json f w).trans hpre) hx
  obtain ⟨rfl, htoken⟩ := hsep.of_scanPrefix hf hg hpre
  have hsome := congrArg json.asStr heq
  rw [json.asStr_str, json.asStr_str] at hsome
  cases hsome
  rw [indexKey, htoken]
  exact hx

/-- The query for the value of one field. -/
theorem selects_field {f : Text} {w : V} (hof : FieldOf json s key f w)
    (hlive : Collection.expiredAt json s key now = false) :
    ∃ document, (new.whereEq f w).Selects json s now key document ∧
      (new.whereEq f w).matchesDocument json document = .ok true := by
  obtain ⟨hkey, document, items, hs, hitems, hw⟩ := hof
  have hhold : (new.whereEq f w).equalsHold json items = true := by
    simp [Query.equalsHold, whereEq, new, hw]
  refine ⟨document, ⟨hkey, hs, hlive, items, hitems, hhold⟩, ?_⟩
  rw [Query.matchesDocument, hitems]
  simp only [hhold, if_true]
  rfl

end Complete

/-! ## Histories of sessions -/

section Sessions

variable [DecidableEq V] [LE T] [DecidableLE T]

namespace Collection

/-- The states of a collection over a history of sessions on one file.  A session opens
the file, declares any fields and has a clock of its own; `Begins` is a condition on the
collection it begins with. -/
inductive Sessions (ext : Externals Text) (json : Json V T) (order : ℕ) (names : Set Text)
    (Begins : Collection T → Prop) : Collection T → Prop
  | first {db : Database Text} {fields : List Text} {clock : ℕ → T} :
      Database.connect ext (.blank order (.powerOn .empty)) = .ok () db →
      (∀ f ∈ fields, f ∈ names) → Begins ⟨.ofDatabase db, fields, clock⟩ →
      Sessions ext json order names Begins ⟨.ofDatabase db, fields, clock⟩
  | call {c : Collection T} (call : CollectionCall V T) : Sessions ext json order names Begins c →
      (∀ f ∈ call.names, f ∈ names) →
      Sessions ext json order names Begins (resultState (call.run ext json c))
  | next {c : Collection T} {db : Database Text} {fields : List Text} {clock : ℕ → T} :
      Sessions ext json order names Begins c →
      Database.connect ext (.blank order c.db.database.disk) = .ok () db →
      (∀ f ∈ fields, f ∈ names) → Begins ⟨.ofDatabase db, fields, clock⟩ →
      Sessions ext json order names Begins ⟨.ofDatabase db, fields, clock⟩

variable {ext : Externals Text} {order : ℕ} {names : Set Text} {c : Collection T} {d : Disk}
  {Begins : Collection T → Prop} {P : List Text → (ℕ → T) → (Text → Option V) → Prop}
variable {s : Text → Option V}
variable {clock : ℕ → T}

/-- What the methods keep, and what holds when a session begins, holds in every state. -/
theorem Sessions.keeps (hP : Kept json names P)
    (hpoint : ∀ {fields clock s}, P fields clock s → Pointing json names s)
    (hbegin : ∀ (c : Collection T) d s, c.db.Stores ext order json.encode d s → Begins c →
      (∀ f ∈ c.indexes, f ∈ names) → Documented json s → Pointing json names s →
      P c.indexes c.clock s)
    (h : Sessions ext json order names Begins c) : c.Keeps ext json order P := by
  induction h with
  | first hnew hnames hbegins =>
    have hstores : Handle.Stores ext order json.encode _ (fun _ => none) (.ofDatabase _) :=
      Handle.stores_new hnew
    exact ⟨_, _, hstores, hbegin _ _ _ hstores hbegins hnames .empty .empty⟩
  | call call _ hnames ih => exact ih.call hP call hnames
  | next _ hopen hnames hbegins ih =>
    obtain ⟨d, s, hstores, hs⟩ := ih
    have hstores' := hstores.reopen hopen
    exact ⟨_, s, hstores', hbegin _ _ _ hstores' hbegins hnames (hP.documented hs) (hpoint hs)⟩

omit [DecidableEq V] in
/-- Fields from `names`, a clock that does not go back, and an entry for every document
that has not expired for good. -/
structure Filled (json : Json V T) (names : Set Text) (fields : List Text) (clock : ℕ → T)
    (s : Text → Option V) : Prop where
  declared : ∀ f ∈ fields, f ∈ names
  ordered : ∀ i j, i < j → clock i ≤ clock j
  documented : Documented json s
  pointing : Pointing json names s
  entered : Entered json (IsNonNull json) fields clock s

omit [DecidableEq V] in
theorem kept_filled [IsTrans T (· ≤ ·)] (hsep : Separated names) :
    Kept json names (Filled json names) where
  documented h := h.documented
  later n h := ⟨h.declared, fun i j hij => h.ordered _ _ (by omega), h.documented, h.pointing,
    h.entered.of_clock fun i => ⟨i + n, rfl⟩⟩
  set h hkey hitems hexpiry := ⟨h.declared, h.ordered, h.documented.set _ hkey hitems hexpiry,
    h.pointing.set h.declared hkey, h.entered.set hsep h.declared hkey hitems⟩
  delete h hkey := ⟨h.declared, h.ordered, h.documented.delete _ hkey, h.pointing.delete hkey,
    h.entered.delete hsep h.declared hkey⟩
  createIndex h hfield hl hpassed := by
    obtain ⟨hdeclared, hdocumented, hpointing⟩ := kept_indexed.createIndex
      ⟨h.declared, h.documented, h.pointing⟩ hfield hl hpassed
    exact ⟨hdeclared, fun i j hij => h.ordered _ _ (by omega), hdocumented, hpointing,
      h.entered.createIndex hsep h.declared h.ordered hfield hl hpassed⟩

omit [DecidableEq V] in
/-- With a clock that does not go back, what is complete at the next reading is filled. -/
theorem entered_of_complete [IsTrans T (· ≤ ·)] (hclock : ∀ i j, i < j → clock i ≤ clock j)
    (h : Complete json fields s (clock 0)) :
    Entered json (IsNonNull json) fields clock s := by
  intro key f w hof hf hw
  cases hexpired : expiredAt json s key (clock 0) with
  | false => exact .inl (h key f w hof hf hw hexpired)
  | true =>
    refine .inr fun n => ?_
    cases n with
    | zero => exact hexpired
    | succ n => exact expiredAt_mono hexpired (hclock 0 (n + 1) (by omega))

omit [DecidableEq V] in
theorem complete_of_entered (h : Entered json (IsNonNull json) fields clock s) :
    Complete json fields s (clock 0) := by
  intro key f w hof hf hw hlive
  rcases h key f w hof hf hw with hentry | hexpired
  · exact hentry
  · rw [hexpired 0] at hlive
    cases hlive

/-- The indexes of the collection are complete. -/
def Backfilled (ext : Externals Text) (json : Json V T) (c : Collection T) : Prop :=
  ∃ s, c.db.database.Serves ext (stored json.encode s) ∧ Complete json c.indexes s (c.clock 0)

/-- A session that begins with complete indexes, and with a clock that will not go back. -/
def BeginsBackfilled (ext : Externals Text) (json : Json V T) (c : Collection T) : Prop :=
  (∀ i j, i < j → c.clock i ≤ c.clock j) ∧ c.Backfilled ext json

section Answers

variable {s : Text → Option V} (hs : c.db.Stores ext order json.encode d s)
  (hformed : WellFormed json s) (hpoint : Pointing json names s)
variable {used : List Text}
include hs hformed hpoint

/-- A query over complete indexes finds what a full scan finds. -/
theorem answer_eq_of_complete (hcomplete : Complete json used s (c.clock 0)) {q : Query V}
    (hq : ∀ e ∈ q.indexedEquals c.indexes, e.1 ∈ used ∧ IsNonNull json e.2) :
    q.answer ext json c = q.scanAnswer ext json c :=
  Query.all_eq_of_named hs hformed hpoint c.indexes q (c.clock 0) fun _ _ hsel =>
    hcomplete.namedIn hq hsel

/-- If the queries for one value find what a full scan finds, the indexes are complete. -/
theorem complete_of_answers (hsep : Separated names) (hused : ∀ f ∈ used, f ∈ c.indexes ∧ f ∈ names)
    (hanswers : ∀ f ∈ used, ∀ w, IsNonNull json w →
      (new.whereEq f w).answer ext json c = (new.whereEq f w).scanAnswer ext json c) :
    Complete json used s (c.clock 0) := by
  intro key f w hof hf hw hlive
  obtain ⟨document, hsel, hmatch⟩ := selects_field hof hlive
  -- a query without predicates does not raise
  have hreturns : ∀ key document, (new.whereEq f w).Selects json s (c.clock 0) key document →
      ∃ hit, (new.whereEq f w).matchesDocument json document = .ok hit := by
    rintro k document' ⟨-, -, -, items, hitems, hhold⟩
    refine ⟨true, ?_⟩
    rw [Query.matchesDocument, hitems]
    simp only [hhold, if_true]
    rfl
  have hnamed := (Query.all_eq_iff_named hs hformed hpoint c.indexes _ (c.clock 0) hreturns).mp
    (hanswers f hf w hw) key document hsel hmatch
  obtain ⟨x, hpre, hx⟩ := hnamed (f, w)
    (by simp [Query.indexedEquals, whereEq, new, (hused f hf).1])
  exact entry_of_named hsep hpoint (hused f hf).2 hpre hx

end Answers

omit [DecidableEq V] [LE T] [DecidableLE T] in
theorem nonNull_whereEq {f : Text} {w : V} (hw : IsNonNull json w) :
    (new.whereEq f w).NonNull json := by
  intro e he
  obtain rfl : e = (f, w) := by simpa [whereEq, new] using he
  exact hw

/-- Queries find what a full scan finds exactly if the indexes are complete. -/
theorem answers_iff_backfilled (hsep : Separated names) (hs : c.db.Stores ext order json.encode d s)
    (h : Indexed json names c.indexes c.clock s) :
    (∀ q : Query V, q.NonNull json → q.answer ext json c = q.scanAnswer ext json c) ↔
      c.Backfilled ext json := by
  constructor
  · intro hqueries
    refine ⟨s, hs.serves, complete_of_answers hs h.documented.toWellFormed h.pointing hsep
      (fun f hf => ⟨hf, h.declared f hf⟩) fun f _ w hw => ?_⟩
    exact hqueries _ (nonNull_whereEq hw)
  · rintro ⟨s', hserves, hcomplete⟩ q hq
    obtain rfl : s' = s := stored_injective json.roundTrips (hserves.unique hs.serves)
    refine answer_eq_of_complete hs h.documented.toWellFormed h.pointing hcomplete fun e he => ?_
    obtain ⟨hin, hfield⟩ := List.mem_filter.mp he
    exact ⟨by simpa using hfield, hq e hin⟩

end Collection

/-- **Indexes across sessions.**  If every session begins with complete indexes and has a
clock that does not go back, a query that compares no field with `None` finds in every
state what a full scan finds.  And in any state, however the sessions began, all such
queries do so exactly if the indexes are complete. -/
theorem sessions_answer_eq_scan [IsTrans T (· ≤ ·)] (ext : Externals Text) (json : Json V T)
    (order : ℕ) {names : Set Text} (hsep : Separated names) :
    (∀ c : Collection T,
      Collection.Sessions ext json order names (Collection.BeginsBackfilled ext json) c →
      ∀ q : Query V, q.NonNull json → q.answer ext json c = q.scanAnswer ext json c) ∧
    ∀ c : Collection T, Collection.Sessions ext json order names (fun _ => True) c →
      ((∀ q : Query V, q.NonNull json → q.answer ext json c = q.scanAnswer ext json c) ↔
        c.Backfilled ext json) := by
  constructor
  · intro c hsessions
    obtain ⟨d, s, hstores, hfilled⟩ := hsessions.keeps (Collection.kept_filled hsep)
      (fun h => h.pointing) fun c d s hs hbegins hnames hdocumented hpointing => by
        obtain ⟨hclock, s', hserves, hcomplete⟩ := hbegins
        obtain rfl : s' = s := stored_injective json.roundTrips (hserves.unique hs.serves)
        exact ⟨hnames, hclock, hdocumented, hpointing,
          Collection.entered_of_complete hclock hcomplete⟩
    refine (Collection.answers_iff_backfilled hsep hstores
      ⟨hfilled.declared, hfilled.documented, hfilled.pointing⟩).mpr ⟨s, hstores.serves, ?_⟩
    exact Collection.complete_of_entered hfilled.entered
  · intro c hsessions
    obtain ⟨d, s, hstores, hindexed⟩ := hsessions.keeps Collection.kept_indexed
      (fun h => h.pointing) fun _ _ _ _ _ hnames hdocumented hpointing =>
        ⟨hnames, hdocumented, hpointing⟩
    exact Collection.answers_iff_backfilled hsep hstores hindexed

end Sessions

/-! ### A sample -/

theorem isNonNull_one : (new.whereEq ['f'] (.number 1)).NonNull docJson := by
  intro e he
  obtain rfl : e = (['f'], .number 1) := by simpa [whereEq, new] using he
  show valueToken docJson (.number 1) ≠ valueToken docJson .null
  decide

/-- The first session, up to its call of `set`. -/
theorem sample_session (Begins : Collection ℕ → Prop) (fields : List Text)
    (hfields : ∀ f ∈ fields, f = ['f']) (hbegins : ∀ db : Database Text,
      Database.connect textExt (.blank 64 (.powerOn .empty)) = .ok () db →
      Begins ⟨.ofDatabase db, fields, fun _ => 0⟩) :
    ∃ (c : Collection ℕ) (d : Disk),
      Collection.Sessions textExt docJson 64 {f | nul ∉ f} Begins c ∧
      c.db.Stores textExt 64 docJson.encode d (sampleSet fields [['f']] none fun _ => none) := by
  obtain ⟨db, c, d, hnew, hrun, -, -, hstores, -⟩ := sample_set fields hfields [['f']] (.inr rfl)
    none (by simp)
  have hstart : Collection.Sessions textExt docJson 64 {f | nul ∉ f} Begins
      ⟨.ofDatabase db, fields, fun _ => 0⟩ := by
    refine .first hnew (fun f hf => ?_) (hbegins db hnew)
    rw [hfields f hf]
    decide
  have hcall := hstart.call (.set ['k'] (.dict [['f']]) none) (by simp [CollectionCall.names])
  rw [CollectionCall.run, hrun] at hcall
  exact ⟨c, d, hcall, hstores⟩

theorem declared_sample : ∀ f ∈ [['f']], f ∈ {f : Text | nul ∉ f} := by
  intro f hf
  obtain rfl := List.mem_singleton.mp hf
  decide

theorem sessions_answer_eq_scan_sample :
    ∃ c : Collection ℕ, c.indexes = [['f']] ∧
      Collection.Sessions textExt docJson 64 {f | nul ∉ f}
        (Collection.BeginsBackfilled textExt docJson) c ∧
      c.db.database.Serves textExt (stored docJson.encode (sampleDocuments [['f']])) ∧
      (new.whereEq ['f'] (.number 1)).answer textExt docJson c =
        (new.whereEq ['f'] (.number 1)).scanAnswer textExt docJson c := by
  obtain ⟨c, d, hfirst, hstores⟩ := sample_session
    (Collection.BeginsBackfilled textExt docJson) [['f']] (by simp) fun db hnew => by
      refine ⟨fun _ _ _ => Nat.le_refl 0, fun _ => none, (Handle.stores_new hnew).serves, ?_⟩
      exact Collection.complete_of_entered .empty
  obtain ⟨db', hopen⟩ := hstores.reopens
  have hserves := (hstores.reopen hopen).serves
  have hnext : Collection.Sessions textExt docJson 64 {f | nul ∉ f}
      (Collection.BeginsBackfilled textExt docJson)
      ⟨.ofDatabase db', [['f']], fun _ => 0⟩ := by
    -- the second session finds the entry that the first one has written
    refine hfirst.next hopen declared_sample ⟨fun _ _ _ => Nat.le_refl 0, _, hserves, ?_⟩
    exact Collection.complete_of_entered
      (Collection.Entered.empty.set separated_of_no_nul declared_sample docKey_k rfl)
  exact ⟨_, rfl, hnext, hserves, (sessions_answer_eq_scan textExt docJson 64
    separated_of_no_nul).1 _ hnext _ isNonNull_one⟩

/-- A session without indexes writes a document; the next one declares the field, and its
index knows nothing of the document. -/
theorem new_session_misses_document :
    ∃ c : Collection ℕ, c.indexes = [['f']] ∧
      Collection.Sessions textExt docJson 64 {f | nul ∉ f} (fun _ => True) c ∧
      (new.whereEq ['f'] (.number 1)).NonNull docJson ∧
      (new.whereEq ['f'] (.number 1)).answer textExt docJson c = .ok [] ∧
      (new.whereEq ['f'] (.number 1)).scanAnswer textExt docJson c =
        .ok [(['k'], .dict [['f']])] := by
  obtain ⟨c, d, hfirst, hstores⟩ := sample_session (fun _ => True) [] (by simp) fun _ _ => trivial
  obtain ⟨db', hopen⟩ := hstores.reopens
  have hnext : Collection.Sessions textExt docJson 64 {f | nul ∉ f} (fun _ => True)
      ⟨.ofDatabase db', [['f']], fun _ => 0⟩ := hfirst.next hopen declared_sample trivial
  have hstores' : Handle.Stores _ _ _ _ _ (⟨.ofDatabase db', [['f']], fun _ => 0⟩ : Collection ℕ).db :=
    hstores.reopen hopen
  refine ⟨_, rfl, hnext, isNonNull_one, lone_document_missed hstores' ?_ docKey_k
    (setMap_key docKey_k) ?_ ?_ ?_⟩
  · exact (Documented.empty.set _ docKey_k rfl (by simp)).toWellFormed
  · exact fun x hx => setMap_lone hx
  · rfl
  · simp [Query.indexedEquals, whereEq, new]
