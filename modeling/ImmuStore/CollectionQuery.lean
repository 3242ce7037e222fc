/-
# Queries over indexes and full scans

`all` goes through the keys that the indexes name, or through all keys, and tests every
document it meets.  Both ways find the same documents, in the same order, as long as each
document that the equalities of the query select is named by an entry for every indexed
one of them.  A document that lacks an indexed field is selected by a comparison with
`None`, and has no entry.
-/
import ImmuStore.CollectionIndex

open Collection (expiredAt)

/-! ## Gathering along a list -/

section Gather

variable {α β ε : Type} {f : α → Except ε (List β)}
variable {l : List α}

/-- The results along a list, put together. -/
def gather (f : α → Except ε (List β)) : List α → Except ε (List β)
  | [] => .ok []
  | a :: l => do
    let first ← f a
    let rest ← gather f l
    return first ++ rest

theorem gather_cons_nil {a : α} (h : f a = .ok []) (l : List α) : gather f (a :: l) = gather f l := by
  rw [gather, h]
  cases gather f l <;> simp [bind, Except.bind, pure, Except.pure]

/-- Where nothing is found, the list may as well be shorter. -/
theorem gather_filter (p : α → Prop) [DecidablePred p] (h : ∀ a ∈ l, ¬ p a → f a = .ok []) :
    gather f l = gather f (l.filter p) := by
  induction l with
  | nil => rfl
  | cons a l ih =>
    have hrest := ih fun b hb => h b (.tail _ hb)
    by_cases ha : p a
    · rw [List.filter_cons_of_pos (by simpa using ha), gather, gather, hrest]
    · rw [List.filter_cons_of_neg (by simpa using ha), ← hrest]
      exact gather_cons_nil (h a (.head _) ha) l

/-- Two increasing lists that agree on where something may be found. -/
theorem gather_eq_of_increasing [LinearOrder α] (p : α → Prop) {l' : List α}
    (hl : l.Pairwise (· < ·)) (hl' : l'.Pairwise (· < ·)) (h : ∀ a ∈ l, ¬ p a → f a = .ok [])
    (h' : ∀ a ∈ l', ¬ p a → f a = .ok []) (hsame : ∀ a, p a → (a ∈ l ↔ a ∈ l')) :
    gather f l = gather f l' := by
  classical
  have heq : l.filter (fun a => p a) = l'.filter fun a => p a := by
    refine (hl.filter _).sortedLT.eq_of_mem_iff (hl'.filter _).sortedLT fun a => ?_
    simp only [List.mem_filter, decide_eq_true_eq]
    constructor
    · rintro ⟨ha, hp⟩
      exact ⟨(hsame a hp).mp ha, hp⟩
    · rintro ⟨ha, hp⟩
      exact ⟨(hsame a hp).mpr ha, hp⟩
  rw [gather_filter p h, gather_filter p h', heq]

theorem gather_returns (h : ∀ a ∈ l, ∃ found, f a = .ok found) : ∃ r, gather f l = .ok r := by
  induction l with
  | nil => exact ⟨[], rfl⟩
  | cons a l ih =>
    obtain ⟨first, hfirst⟩ := h a (.head _)
    obtain ⟨rest, hrest⟩ := ih fun b hb => h b (.tail _ hb)
    exact ⟨first ++ rest, by rw [gather, hfirst, hrest]; rfl⟩

theorem mem_gather {r : List β} (h : gather f l = .ok r) {b : β} :
    b ∈ r ↔ ∃ a ∈ l, ∃ found, f a = .ok found ∧ b ∈ found := by
  induction l generalizing r with
  | nil =>
    cases h
    simp
  | cons a l ih =>
    obtain ⟨first, hfirst, h⟩ := Except.bind_eq_ok.mp h
    obtain ⟨rest, hrest, h⟩ := Except.bind_eq_ok.mp h
    obtain rfl : first ++ rest = r := Except.ok.inj h
    simp only [List.mem_append, ih hrest, List.mem_cons, exists_eq_or_imp, hfirst, Except.ok.injEq,
      exists_eq_left']

end Gather

variable {V T : Type} {json : Json V T} {fields : List Text} {key : Text} {s : Text → Option V}

/-! ## What a query finds -/

theorem indexScanPrefix_indexPrefix (json : Json V T) (field : Text) (value : V) :
    indexPrefix <+: indexScanPrefix json field value := by
  simp [indexScanPrefix]

namespace Query

variable [LE T] [DecidableLE T] (q : Query V)

/-- What one turn of the loop of `all` finds under a key. -/
def found (json : Json V T) (s : Text → Option V) (now : T) (key : Text) :
    Except PyError (List (Text × V)) :=
  match s key with
  | none => .ok []
  | some document =>
    if expiredAt json s key now then .ok []
    else do
      let hit ← q.matchesDocument json document
      return if hit then [(key, document)] else []

/-- The equalities of the query hold of the document under the key, which is visible. -/
def Selects (json : Json V T) (s : Text → Option V) (now : T) (key : Text) (document : V) : Prop :=
  DocKey key ∧ s key = some document ∧ expiredAt json s key now = false ∧
    ∃ items, json.asDict document = some items ∧ q.equalsHold json items = true

omit [LE T] [DecidableLE T] in
/-- For every equality on an indexed field, an entry names the key. -/
def NamedIn (json : Json V T) (fields : List Text) (s : Text → Option V) (key : Text) : Prop :=
  ∀ e ∈ q.indexedEquals fields, ∃ x, indexScanPrefix json e.1 e.2 <+: x ∧ s x = some (json.str key)

variable {q} {now : T} {document : V}

theorem found_of_none (hs : s key = none) : q.found json s now key = .ok [] := by
  rw [found, hs]

theorem found_of_some (hs : s key = some document) (hlive : expiredAt json s key now = false) :
    q.found json s now key = do
      let hit ← q.matchesDocument json document
      return if hit then [(key, document)] else [] := by
  simp only [found, hs, hlive, Bool.false_eq_true, if_false]

theorem found_of_expired (hgone : expiredAt json s key now = true) :
    q.found json s now key = .ok [] := by
  unfold found
  cases s key with
  | none => rfl
  | some document => rw [hgone]; rfl

/-- Nothing is found where the equalities do not hold. -/
theorem found_of_not_selects (h : WellFormed json s) (hkey : DocKey key)
    (hnot : ∀ document, ¬ q.Selects json s now key document) : q.found json s now key = .ok [] := by
  cases hs : s key with
  | none => exact found_of_none hs
  | some document =>
    cases hexpired : expiredAt json s key now with
    | true => exact found_of_expired hexpired
    | false =>
      obtain ⟨items, hitems⟩ := Option.ne_none_iff_exists'.mp (h.documents key document hkey hs)
      have hmiss : ¬ q.equalsHold json items = true := fun hhold =>
        hnot document ⟨hkey, hs, hexpired, items, hitems, hhold⟩
      rw [found_of_some hs hexpired, matchesDocument, hitems]
      simp only [if_neg hmiss]
      rfl

/-- What is found under a key is its document, if the query matches it. -/
theorem mem_of_found {l : List (Text × V)} (h : q.found json s now key = .ok l) {e : Text × V}
    (he : e ∈ l) : e.1 = key := by
  unfold found at h
  cases hs : s key with
  | none =>
    rw [hs] at h
    cases h
    cases he
  | some document =>
    simp only [hs] at h
    split_ifs at h
    · cases h
      cases he
    · obtain ⟨hit, -, h⟩ := Except.bind_eq_ok.mp h
      cases h
      split_ifs at he
      · rw [List.mem_singleton.mp he]
      · cases he

end Query

/-! ## The loops of `all` -/

namespace Query

variable [DecidableEq V] [LE T] [DecidableLE T] {ext : Externals Text} {order : ℕ} {db : Handle Text}
  {d : Disk} {q : Query V} {now : T} {names : Set Text}

variable (q) (now) in
theorem collect_spec (hs : db.Stores ext order json.encode d s) (h : WellFormed json s)
    (fields : List Text) (hkey : DocKey key) {document : V} (hdoc : s key = some document) :
    ∃ db', db'.Stores ext order json.encode d s ∧
      q.collect ext json key document ⟨db, fields, fun _ => now⟩ =
        (ofExcept (q.found json s now key) : Py (Collection T) _)
          ⟨db', fields, fun _ => now⟩ := by
  obtain ⟨db', hs', hexpired⟩ := Collection.isExpired_eq hs fields (fun _ => now) h.timed key
  refine ⟨db', hs', ?_⟩
  have hne := h.ne_null hkey hdoc
  cases hgone : expiredAt json s key now with
  | true =>
    rw [hgone] at hexpired
    rw [found_of_expired hgone]
    simp [collect, hne, hexpired]
  | false =>
    rw [hgone] at hexpired
    rw [found_of_some hdoc hgone]
    simp only [collect, if_neg hne, run_bind, hexpired, Bool.false_eq_true, if_false]
    cases q.matchesDocument json document with
    | error e => rfl
    | ok hit => rfl

variable {keys : List Text}

variable (q) (now) in
/-- The full scan goes through the keys that are not reserved. -/
theorem scanAll_spec (hs : db.Stores ext order json.encode d s) (h : WellFormed json s)
    (fields : List Text) (hkeys : ∀ key ∈ keys, s key ≠ none) :
    ∃ db', q.scanAll ext json keys ⟨db, fields, fun _ => now⟩ =
      (ofExcept (gather (q.found json s now) (keys.filter fun key => !reserved.isPrefixOf key)) :
        Py (Collection T) _) ⟨db', fields, fun _ => now⟩ := by
  induction keys generalizing db with
  | nil => exact ⟨db, rfl⟩
  | cons key keys ih =>
    have hrest : ∀ key ∈ keys, s key ≠ none := fun k hk => hkeys k (.tail _ hk)
    obtain ⟨document, hdoc⟩ := Option.ne_none_iff_exists'.mp (hkeys key (.head _))
    cases hres : reserved.isPrefixOf key with
    | true =>
      obtain ⟨db', hrun⟩ := ih hs hrest
      rw [List.filter_cons_of_neg (by simp [hres]), scanAll, if_pos hres]
      exact ⟨db', hrun⟩
    | false =>
      have hkey : DocKey key := by
        refine ⟨?_, fun hpre => ?_⟩
        · rintro rfl
          rw [h.nil] at hdoc
          cases hdoc
        · rw [List.isPrefixOf_iff_prefix.mpr hpre] at hres
          cases hres
      obtain ⟨db1, hs1, hexpired⟩ := Collection.isExpired_eq hs fields (fun _ => now) h.timed key
      rw [List.filter_cons_of_pos (by simp [hres])]
      cases hgone : expiredAt json s key now with
      | true =>
        rw [hgone] at hexpired
        obtain ⟨db', hrun⟩ := ih hs1 hrest
        refine ⟨db', ?_⟩
        rw [gather_cons_nil (found_of_expired hgone), ← hrun]
        simp [scanAll, hres, hexpired]
      | false =>
        rw [hgone] at hexpired
        obtain ⟨db2, hs2, hitem⟩ := Collection.dbItem_spec hs1 fields (fun _ => now) hkey.1 hdoc
        obtain ⟨db3, hs3, hcollect⟩ := collect_spec q now hs2 h fields hkey hdoc
        obtain ⟨db', hrun⟩ := ih hs3 hrest
        simp only [scanAll, hres, Bool.false_eq_true, if_false, run_bind, hexpired, hitem, hcollect, gather]
        cases q.found json s now key with
        | error e => exact ⟨db3, rfl⟩
        | ok first =>
          simp only [ofExcept_ok, hrun]
          refine ⟨db', ?_⟩
          cases gather (q.found json s now) (keys.filter fun key => !reserved.isPrefixOf key) with
          | error e => rfl
          | ok rest => rfl

variable (q) (now) in
theorem lookupAll_spec (hs : db.Stores ext order json.encode d s) (h : WellFormed json s)
    (fields : List Text) (hkeys : ∀ key ∈ keys, DocKey key) :
    ∃ db', q.lookupAll ext json keys ⟨db, fields, fun _ => now⟩ =
      (ofExcept (gather (q.found json s now) keys) : Py (Collection T) _)
        ⟨db', fields, fun _ => now⟩ := by
  induction keys generalizing db with
  | nil => exact ⟨db, rfl⟩
  | cons key keys ih =>
    have hkey := hkeys key (.head _)
    have hrest : ∀ key ∈ keys, DocKey key := fun k hk => hkeys k (.tail _ hk)
    obtain ⟨db1, hs1, hget⟩ := Collection.dbGet_spec hs fields (fun _ => now) hkey.1
    cases hdoc : s key with
    | none =>
      obtain ⟨db', hrun⟩ := ih hs1 hrest
      refine ⟨db', ?_⟩
      rw [gather_cons_nil (found_of_none hdoc), lookupAll, run_bind, hget]
      simp only [hdoc, Option.getD_none, run_bind, collect, if_true, run_pure, hrun, List.nil_append]
      cases gather (q.found json s now) keys with
      | error e => rfl
      | ok rest => rfl
    | some document =>
      obtain ⟨db2, hs2, hcollect⟩ := collect_spec q now hs1 h fields hkey hdoc
      obtain ⟨db', hrun⟩ := ih hs2 hrest
      rw [lookupAll, run_bind, hget, gather]
      simp only [hdoc, Option.getD_some, run_bind, hcollect]
      cases q.found json s now key with
      | error e => exact ⟨db2, rfl⟩
      | ok first =>
        simp only [ofExcept_ok, hrun]
        refine ⟨db', ?_⟩
        cases gather (q.found json s now) keys with
        | error e => rfl
        | ok rest => rfl

/-! ## The plan -/

omit [DecidableEq V] [LE T] [DecidableLE T] in
/-- The set of keys that the entries under a prefix name. -/
theorem primaryKeys_spec (json : Json V T) (entries : List (Text × V))
    (h : ∀ e ∈ entries, ∃ key, e.2 = json.str key) :
    ∃ keys, primaryKeys json entries = .ok keys ∧
      ∀ key, key ∈ keys ↔ ∃ e ∈ entries, e.2 = json.str key := by
  induction entries with
  | nil => exact ⟨∅, rfl, by simp⟩
  | cons e entries ih =>
    obtain ⟨x, value⟩ := e
    obtain ⟨key, rfl⟩ : ∃ key, value = json.str key := h (x, value) (.head _)
    obtain ⟨keys, hrest, hmem⟩ := ih fun e he => h e (.tail _ he)
    refine ⟨insert key keys, ?_, fun k => ?_⟩
    · rw [primaryKeys, json.asStr_str]
      simp only [hrest]
      rfl
    · have hinj : json.str key = json.str k ↔ k = key := by
        constructor
        · intro heq
          have hsome := congrArg json.asStr heq
          rw [json.asStr_str, json.asStr_str] at hsome
          exact (Option.some.inj hsome).symm
        · rintro rfl
          rfl
      simp [hmem, hinj]

omit [DecidableEq V] [LE T] [DecidableLE T] in
/-- Each key set holds what the entries under its prefix name. -/
theorem keySets_spec (hs : db.Stores ext order json.encode d s)
    (hpoint : Collection.Pointing json names s) (fields : List Text) (clock : ℕ → T)
    (equals : List (Text × V)) :
    ∃ db' sets, db'.Stores ext order json.encode d s ∧
      keySets ext json equals ⟨db, fields, clock⟩ = .ok sets ⟨db', fields, clock⟩ ∧
      sets.length = equals.length ∧
      ∀ key, (∀ keys ∈ sets, key ∈ keys) ↔
        ∀ e ∈ equals, ∃ x, indexScanPrefix json e.1 e.2 <+: x ∧ s x = some (json.str key) := by
  induction equals generalizing db with
  | nil => exact ⟨db, [], hs, rfl, rfl, by simp⟩
  | cons e equals ih =>
    obtain ⟨field, value⟩ := e
    have hne : indexScanPrefix json field value ≠ [] := by simp [indexScanPrefix, indexPrefix]
    obtain ⟨db1, l, hs1, hl, hscan⟩ := Collection.dbScan_spec hs fields clock hne
    obtain ⟨keys, hkeys, hmem⟩ := primaryKeys_spec json
      (l.filter fun e => (indexScanPrefix json field value).isPrefixOf e.1) fun e he => by
        obtain ⟨hin, hpre⟩ := List.mem_filter.mp he
        obtain ⟨-, -, -, key, -, -, hvalue⟩ := hpoint e.1 e.2
          ((indexScanPrefix_indexPrefix json field value).trans (List.isPrefixOf_iff_prefix.mp hpre))
          ((hl.mem_iff _ _).mp hin)
        exact ⟨key, hvalue⟩
    obtain ⟨db', sets, hs', hrest, hlength, hsets⟩ := ih hs1
    refine ⟨db', keys :: sets, hs', ?_, by simp [hlength], fun key => ?_⟩
    · simp only [keySets, run_bind, hscan, hkeys, ofExcept_ok, hrest, run_pure]
    · have hfirst : key ∈ keys ↔
          ∃ x, indexScanPrefix json field value <+: x ∧ s x = some (json.str key) := by
        rw [hmem]
        constructor
        · rintro ⟨⟨x, w⟩, he, rfl⟩
          obtain ⟨hin, hpre⟩ := List.mem_filter.mp he
          exact ⟨x, List.isPrefixOf_iff_prefix.mp hpre, (hl.mem_iff _ _).mp hin⟩
        · rintro ⟨x, hpre, hx⟩
          refine ⟨(x, json.str key), List.mem_filter.mpr ⟨(hl.mem_iff _ _).mpr hx, ?_⟩, rfl⟩
          exact List.isPrefixOf_iff_prefix.mpr hpre
      simp only [List.forall_mem_cons, hfirst, hsets]

theorem mem_intersection {first : Finset Text} {rest : List (Finset Text)} :
    key ∈ intersection first rest ↔ ∀ keys ∈ first :: rest, key ∈ keys := by
  induction rest generalizing first with
  | nil => simp [intersection]
  | cons second rest ih =>
    rw [intersection, ih]
    simp [and_assoc]

/-- `all` goes through keys in increasing order; of the documents, those that are named for
every indexed equality. -/
theorem all_spec (hs : db.Stores ext order json.encode d s) (h : WellFormed json s)
    (hpoint : Collection.Pointing json names s) (fields : List Text) (q : Query V) (now : T) :
    ∃ keys : List Text, keys.Pairwise (· < ·) ∧ (∀ key ∈ keys, DocKey key) ∧
      (∀ key, DocKey key → s key ≠ none → (key ∈ keys ↔ q.NamedIn json fields s key)) ∧
      resultValue (q.all ext json ⟨db, fields, fun _ => now⟩) = gather (q.found json s now) keys := by
  obtain ⟨db1, sets, hs1, hsets, hlength, hmem⟩ :=
    keySets_spec hs hpoint fields (fun _ => now) (q.indexedEquals fields)
  have hvalue : ∀ {x : Except PyError (List (Text × V))} {c : Collection T},
      resultValue ((ofExcept x : Py (Collection T) _) c) = x := by
    intro x c
    cases x <;> rfl
  cases sets with
  | nil =>
    -- no equality is on an indexed field, so nothing is asked of a key
    have hnone : q.indexedEquals fields = [] := List.eq_nil_of_length_eq_zero hlength.symm
    obtain ⟨db2, l, hs2, hl, hkeys⟩ := Collection.dbKeys_spec hs1 fields fun _ => now
    have hbound : ∀ key ∈ l.map Prod.fst, s key ≠ none := by
      intro key hkey
      obtain ⟨e, he, rfl⟩ := List.mem_map.mp hkey
      simp [(hl.mem_iff e.1 e.2).mp he]
    obtain ⟨db3, hscan⟩ := scanAll_spec q now hs2 h fields hbound
    refine ⟨(l.map Prod.fst).filter fun key => !reserved.isPrefixOf key, ?_, ?_, ?_, ?_⟩
    · exact (List.pairwise_map.mpr hl.increasing).filter _
    · intro key hkey
      obtain ⟨hin, hres⟩ := List.mem_filter.mp hkey
      refine ⟨?_, fun hpre => ?_⟩
      · rintro rfl
        exact hbound [] hin h.nil
      · simp [List.isPrefixOf_iff_prefix.mpr hpre] at hres
    · intro key hkey hsome
      obtain ⟨document, hdoc⟩ := Option.ne_none_iff_exists'.mp hsome
      have hnot : reserved.isPrefixOf key = false := by
        rw [Bool.eq_false_iff, ne_eq, List.isPrefixOf_iff_prefix]
        exact hkey.2
      refine iff_of_true (List.mem_filter.mpr ⟨?_, by simp [hnot]⟩) ?_
      · exact List.mem_map.mpr ⟨(key, document), (hl.mem_iff _ _).mpr hdoc, rfl⟩
      · rw [NamedIn, hnone]
        simp
    · simp only [all, candidateKeys, run_bind, run_get, hsets, run_pure, hkeys, hscan, hvalue]
  | cons first rest =>
    have hdocs : ∀ key ∈ (intersection first rest).sort (· ≤ ·), DocKey key := by
      intro key hkey
      have hin := mem_intersection.mp ((Finset.mem_sort _).mp hkey)
      obtain ⟨e, equals, hequals⟩ : ∃ e equals, q.indexedEquals fields = e :: equals := by
        cases hequals : q.indexedEquals fields with
        | nil => simp [hequals] at hlength
        | cons e equals => exact ⟨e, equals, rfl⟩
      obtain ⟨x, hpre, hx⟩ := (hmem key).mp hin e (by simp [hequals])
      obtain ⟨-, -, -, key', hkey', -, heq⟩ := hpoint x _
        ((indexScanPrefix_indexPrefix json e.1 e.2).trans hpre) hx
      have hsome := congrArg json.asStr heq
      rw [json.asStr_str, json.asStr_str] at hsome
      rw [Option.some.inj hsome]
      exact hkey'
    obtain ⟨db2, hlookup⟩ := lookupAll_spec q now hs1 h fields hdocs
    refine ⟨(intersection first rest).sort (· ≤ ·), (Finset.sortedLT_sort _).pairwise, hdocs, ?_, ?_⟩
    · intro key _ _
      rw [Finset.mem_sort, mem_intersection, hmem]
      rfl
    · simp only [all, candidateKeys, run_bind, run_get, hsets, run_pure, hlookup, hvalue]

/-! ## The two plans -/

section Plans

variable (hs : db.Stores ext order json.encode d s) (h : WellFormed json s)
  (hpoint : Collection.Pointing json names s) (fields : List Text) (q : Query V) (now : T)
include hs h hpoint

/-- If every selected document is named, the indexes change nothing, not even which
exception is raised. -/
theorem all_eq_of_named
    (hnamed : ∀ key document, q.Selects json s now key document → q.NamedIn json fields s key) :
    resultValue (q.all ext json ⟨db, fields, fun _ => now⟩) =
      resultValue (q.all ext json ⟨db, [], fun _ => now⟩) := by
  obtain ⟨keys, hincr, hdocs, hkeys, hrun⟩ := all_spec hs h hpoint fields q now
  obtain ⟨keys', hincr', hdocs', hkeys', hrun'⟩ := all_spec hs h hpoint [] q now
  rw [hrun, hrun']
  refine gather_eq_of_increasing (fun key => ∃ document, q.Selects json s now key document) hincr
    hincr' (fun key hkey hnot => ?_) (fun key hkey hnot => ?_) fun key hselects => ?_
  · exact found_of_not_selects h (hdocs key hkey) fun document hsel => hnot ⟨document, hsel⟩
  · exact found_of_not_selects h (hdocs' key hkey) fun document hsel => hnot ⟨document, hsel⟩
  · obtain ⟨document, hsel⟩ := hselects
    have hsome : s key ≠ none := by simp [hsel.2.1]
    rw [hkeys key hsel.1 hsome, hkeys' key hsel.1 hsome]
    exact iff_of_true (hnamed key document hsel) (by simp [NamedIn, indexedEquals])

/-- If no predicate raises, the two plans agree exactly if every match is named. -/
theorem all_eq_iff_named
    (hreturns : ∀ key document, q.Selects json s now key document →
      ∃ hit, q.matchesDocument json document = .ok hit) :
    resultValue (q.all ext json ⟨db, fields, fun _ => now⟩) =
        resultValue (q.all ext json ⟨db, [], fun _ => now⟩) ↔
      ∀ key document, q.Selects json s now key document →
        q.matchesDocument json document = .ok true → q.NamedIn json fields s key := by
  obtain ⟨keys, hincr, hdocs, hkeys, hrun⟩ := all_spec hs h hpoint fields q now
  obtain ⟨keys', hincr', hdocs', hkeys', hrun'⟩ := all_spec hs h hpoint [] q now
  have hall : ∀ key document, q.Selects json s now key document → key ∈ keys' := by
    intro key document hsel
    exact (hkeys' key hsel.1 (by simp [hsel.2.1])).mpr (by simp [NamedIn, indexedEquals])
  -- where the query does not match, nothing is found
  have hnone : ∀ key, DocKey key → (¬ ∃ document, q.Selects json s now key document ∧
      q.matchesDocument json document = .ok true) → q.found json s now key = .ok [] := by
    intro key hkey hnot
    by_cases hsel : ∃ document, q.Selects json s now key document
    · obtain ⟨document, hsel⟩ := hsel
      obtain ⟨hit, hhit⟩ := hreturns key document hsel
      rw [found_of_some hsel.2.1 hsel.2.2.1, hhit]
      cases hit with
      | true => exact absurd ⟨document, hsel, hhit⟩ hnot
      | false => rfl
    · exact found_of_not_selects h hkey fun document hsel' => hsel ⟨document, hsel'⟩
  have hreturn : ∀ l : List Text, (∀ key ∈ l, DocKey key) →
      ∃ r, gather (q.found json s now) l = .ok r := by
    intro l hl
    refine gather_returns fun key hkey => ?_
    by_cases hmatch : ∃ document, q.Selects json s now key document ∧
        q.matchesDocument json document = .ok true
    · obtain ⟨document, hsel, hhit⟩ := hmatch
      exact ⟨[(key, document)], by rw [found_of_some hsel.2.1 hsel.2.2.1, hhit]; rfl⟩
    · exact ⟨[], hnone key (hl key hkey) hmatch⟩
  rw [hrun, hrun']
  constructor
  · intro heq key document hsel hhit
    obtain ⟨r, hr⟩ := hreturn keys hdocs
    have hmem : (key, document) ∈ r := by
      refine (mem_gather (heq ▸ hr)).mpr ⟨key, hall key document hsel, [(key, document)], ?_, by simp⟩
      rw [found_of_some hsel.2.1 hsel.2.2.1, hhit]
      rfl
    obtain ⟨key', hkey', l, hl, hin⟩ := (mem_gather hr).mp hmem
    obtain rfl : key = key' := mem_of_found hl hin
    exact (hkeys key hsel.1 (by simp [hsel.2.1])).mp hkey'
  · intro hnamed
    refine gather_eq_of_increasing (fun key => ∃ document, q.Selects json s now key document ∧
        q.matchesDocument json document = .ok true) hincr hincr'
      (fun key hkey => hnone key (hdocs key hkey)) (fun key hkey => hnone key (hdocs' key hkey)) ?_
    rintro key ⟨document, hsel, hhit⟩
    rw [hkeys key hsel.1 (by simp [hsel.2.1])]
    exact iff_of_true (hnamed key document hsel hhit) (hall key document hsel)

end Plans

/-! ## Names and fields -/

/-- The document under the key has every indexed field that the query compares. -/
def HasCompared (q : Query V) (json : Json V T) (fields : List Text) (s : Text → Option V)
    (key : Text) : Prop :=
  ∀ e ∈ q.indexedEquals fields, ∃ w, FieldOf json s key e.1 w

omit [DecidableEq V] in
/-- The entries of a field name documents that have it. -/
theorem namedIn_iff {clock : ℕ → T} (hcoherent : Collection.Coherent json fields clock s)
    (hsep : Separated names) (hnames : ∀ f ∈ fields, f ∈ names) {n : ℕ} {document : V}
    (hsel : q.Selects json s (clock n) key document) :
    q.NamedIn json fields s key ↔ q.HasCompared json fields s key := by
  obtain ⟨hkey, hs, hlive, items, hitems, hhold⟩ := hsel
  refine forall₂_congr fun e he => ?_
  have hfield : e.1 ∈ fields := by simpa using (List.mem_filter.mp he).2
  constructor
  · rintro ⟨x, hpre, hx⟩
    obtain ⟨g, hg, k, w, hof, rfl, heq⟩ := hcoherent.entries x _
      ((indexScanPrefix_indexPrefix json e.1 e.2).trans hpre) hx
    obtain ⟨rfl, -⟩ := hsep.of_scanPrefix (hnames _ hfield) (hnames _ hg) hpre
    have hsome := congrArg json.asStr heq
    rw [json.asStr_str, json.asStr_str] at hsome
    cases hsome
    exact ⟨w, hof⟩
  · rintro ⟨w, hof⟩
    rcases hcoherent.complete key e.1 w hof hfield with hentry | hexpired
    · -- the value under the field has the token that the query asks for
      have htoken : valueToken json w = valueToken json e.2 := by
        obtain ⟨-, document', items', hs', hitems', hw⟩ := hof
        obtain rfl : document = document' := by simpa [hs] using hs'
        obtain rfl : items = items' := by simpa [hitems] using hitems'
        have hall := List.all_eq_true.mp hhold e (List.mem_filter.mp he).1
        simpa [hw] using hall
      refine ⟨_, ?_, hentry⟩
      rw [indexScanPrefix, ← htoken]
      exact List.prefix_append _ _
    · rw [hexpired n] at hlive
      cases hlive

end Query

/-! ## Collections in use -/

section Answers

variable [DecidableEq V] [LE T] [DecidableLE T]

/-- What `all` gives, at the next reading of the clock. -/
def Query.answer (ext : Externals Text) (json : Json V T) (q : Query V) (c : Collection T) :
    Except PyError (List (Text × V)) :=
  resultValue (q.all ext json { c with clock := fun _ => c.clock 0 })

/-- What `all` gives over the same documents if no field is indexed. -/
def Query.scanAnswer (ext : Externals Text) (json : Json V T) (q : Query V) (c : Collection T) :
    Except PyError (List (Text × V)) :=
  q.answer ext json { c with indexes := [] }

omit [DecidableEq V] [LE T] [DecidableLE T] in
/-- Documents as they should be, and entries of fields from `names` that point to keys. -/
structure Collection.Indexed (json : Json V T) (names : Set Text) (fields : List Text)
    (clock : ℕ → T) (s : Text → Option V) : Prop where
  declared : ∀ f ∈ fields, f ∈ names
  documented : Documented json s
  pointing : Collection.Pointing json names s

omit [DecidableEq V] in
/-- Every write keeps the entries pointing to keys, whatever the names are. -/
theorem Collection.kept_indexed {names : Set Text} :
    Collection.Kept json names (Collection.Indexed json names) where
  documented h := h.documented
  later _ h := ⟨h.declared, h.documented, h.pointing⟩
  set h hkey hitems hexpiry :=
    ⟨h.declared, h.documented.set _ hkey hitems hexpiry, h.pointing.set h.declared hkey⟩
  delete h hkey := ⟨h.declared, h.documented.delete _ hkey, h.pointing.delete hkey⟩
  createIndex {fields _ s field _ l} h hfield hl _ := by
    have hkeys : ∀ key ∈ l, DocKey key := fun key hkey => (hl key hkey).1
    refine ⟨Collection.names_declared h.declared hfield, h.documented.backfill field hkeys, ?_⟩
    refine h.pointing.assignEntries fun e he => ?_
    obtain ⟨key, hkey, w, -, rfl⟩ := (mem_backfillEntries hkeys).mp he
    exact ⟨field, hfield, w, key, hkeys key hkey, rfl⟩

/-- **When an index changes nothing.**  In every state that a collection reaches from an
empty database, a query gives what it gives without indexes if every document that its
equalities select is named by an entry for each indexed one of them; if its predicates
return on these documents, it does so only if every match is named.  With field names of
which none continues another one with NUL, the documents that are named are those that
have the indexed fields the query compares. -/
theorem indexed_answer_eq_scan [IsTrans T (· ≤ ·)] (ext : Externals Text) (json : Json V T)
    (order : ℕ) {names : Set Text} {c : Collection T}
    (hreached : Collection.Reached ext json order names c) :
    ∃ s, c.db.database.Serves ext (stored json.encode s) ∧ ∀ q : Query V,
      ((∀ key document, q.Selects json s (c.clock 0) key document →
          q.NamedIn json c.indexes s key) →
        q.answer ext json c = q.scanAnswer ext json c) ∧
      ((∀ key document, q.Selects json s (c.clock 0) key document →
          ∃ hit, q.matchesDocument json document = .ok hit) →
        (q.answer ext json c = q.scanAnswer ext json c ↔
          ∀ key document, q.Selects json s (c.clock 0) key document →
            q.matchesDocument json document = .ok true → q.NamedIn json c.indexes s key)) ∧
      (Separated names → ∀ key document, q.Selects json s (c.clock 0) key document →
        (q.NamedIn json c.indexes s key ↔ q.HasCompared json c.indexes s key)) := by
  obtain ⟨d, s, hstores, hindexed⟩ := hreached.keeps Collection.kept_indexed
    fun _ _ hnames _ => ⟨hnames, .empty, .empty⟩
  refine ⟨s, hstores.serves, fun q => ⟨?_, ?_, ?_⟩⟩
  · exact Query.all_eq_of_named hstores hindexed.documented.toWellFormed hindexed.pointing c.indexes q (c.clock 0)
  · exact Query.all_eq_iff_named hstores hindexed.documented.toWellFormed hindexed.pointing c.indexes q (c.clock 0)
  · intro hsep key document hsel
    obtain ⟨d', s', hstores', hsound⟩ := hreached.sound hsep
    obtain rfl : s = s' :=
      stored_injective json.roundTrips (hstores.serves.unique hstores'.serves)
    exact Query.namedIn_iff hsound.coherent hsep hsound.declared hsel

/-- A document that has no entry at all is missed by every plan that uses an index. -/
theorem lone_document_missed {ext : Externals Text} {order : ℕ} {c : Collection T} {d : Disk}
    {q : Query V} {document : V} (hs : c.db.Stores ext order json.encode d s)
    (h : WellFormed json s) (hkey : DocKey key) (hdoc : s key = some document)
    (hother : ∀ x, x ≠ key → s x = none) (hmatch : q.matchesDocument json document = .ok true)
    (hindexed : q.indexedEquals c.indexes ≠ []) :
    q.answer ext json c = .ok [] ∧ q.scanAnswer ext json c = .ok [(key, document)] := by
  have hentry : ∀ x, indexPrefix <+: x → s x = none := fun x hx => hother x (indexPrefix_ne_key hx hkey)
  have hpoint : Collection.Pointing json Set.univ s := by
    intro x value hx hvalue
    rw [hentry x hx] at hvalue
    cases hvalue
  have hlive : expiredAt json s key (c.clock 0) = false := by
    rw [expiredAt, hother _ (hkey.ne_expiryKey key).symm]
    rfl
  have hfound : q.found json s (c.clock 0) key = .ok [(key, document)] := by
    rw [Query.found_of_some hdoc hlive, hmatch]
    rfl
  have hnothing : ∀ x, x ≠ key → q.found json s (c.clock 0) x = .ok [] := fun x hx =>
    Query.found_of_none (hother x hx)
  constructor
  · obtain ⟨keys, hincr, -, hkeys, hrun⟩ := Query.all_spec hs h hpoint c.indexes q (c.clock 0)
    have hnot : key ∉ keys := by
      intro hmem
      obtain ⟨e, he⟩ := List.exists_mem_of_ne_nil _ hindexed
      obtain ⟨x, hpre, hx⟩ := (hkeys key hkey (by simp [hdoc])).mp hmem e he
      rw [hentry x ((indexScanPrefix_indexPrefix json e.1 e.2).trans hpre)] at hx
      cases hx
    refine hrun.trans (gather_eq_of_increasing (fun _ => False) hincr List.Pairwise.nil ?_ (by simp)
      (by simp))
    intro x hx _
    exact hnothing x fun heq => hnot (heq ▸ hx)
  · obtain ⟨keys, hincr, -, hkeys, hrun⟩ := Query.all_spec hs h hpoint [] q (c.clock 0)
    have hmem : key ∈ keys := (hkeys key hkey (by simp [hdoc])).mpr
      (by simp [Query.NamedIn, Query.indexedEquals])
    have hgather := gather_eq_of_increasing (f := q.found json s (c.clock 0)) (fun x => x = key) hincr
      (List.pairwise_singleton (· < ·) key) (fun x _ hx => hnothing x hx) (by simp)
      (by rintro x rfl; simp [hmem])
    refine hrun.trans (hgather.trans ?_)
    rw [gather, hfound]
    rfl

end Answers

/-! ### A sample -/

/-- The document of a sample collection is the only one that a query can select. -/
theorem sample_selects {keys : List Text} {q : Query SampleValue} {now : ℕ} {key : Text}
    {document : SampleValue} (h : q.Selects docJson (sampleDocuments keys) now key document) :
    key = ['k'] ∧ document = .dict keys := by
  obtain ⟨hkey, hs, -⟩ := h
  rw [sampleDocuments_eq] at hs
  split_ifs at hs with hk hentry
  · exact ⟨hk, (Option.some.inj hs).symm⟩
  · obtain ⟨-, rfl⟩ := hentry
    exact absurd rfl (hkey.ne_indexKey ['f'] _ ['k'])

theorem indexed_answer_eq_scan_sample :
    ∃ (c : Collection ℕ) (s : Text → Option SampleValue),
      Collection.Reached textExt docJson 64 {f | nul ∉ f} c ∧
      c.db.database.Serves textExt (stored docJson.encode s) ∧
      s ['k'] = some (.dict [['f']]) ∧ c.indexes = [['f']] ∧
      (Query.new.whereEq ['f'] (.number 1)).answer textExt docJson c =
        (Query.new.whereEq ['f'] (.number 1)).scanAnswer textExt docJson c := by
  obtain ⟨c, d, hindexes, hreached, hstores⟩ := sample_reached [['f']] (.inr rfl)
  obtain ⟨s, hserves, hqueries⟩ :=
    indexed_answer_eq_scan textExt docJson 64 hreached
  obtain rfl : s = sampleDocuments [['f']] :=
    stored_injective docJson.roundTrips (hserves.unique hstores.serves)
  have hdoc : sampleDocuments [['f']] ['k'] = some (.dict [['f']]) := by
    rw [sampleDocuments_eq, if_pos rfl]
  obtain ⟨hequal, -, hnamed⟩ := hqueries (Query.new.whereEq ['f'] (.number 1))
  refine ⟨c, _, hreached, hserves, hdoc, hindexes, hequal fun key document hsel => ?_⟩
  refine (hnamed separated_of_no_nul key document hsel).mpr fun e he => ?_
  -- the document has the only field that is compared
  obtain ⟨rfl, rfl⟩ := sample_selects hsel
  obtain rfl : e = (['f'], .number 1) := by
    simpa [Query.whereEq, Query.new] using (List.mem_filter.mp he).1
  exact ⟨.number 1, docKey_k, _, _, hdoc, rfl, by simp⟩

/-- A document without the indexed field is found by a full scan for `None`, and not over
the index. -/
theorem null_query_misses_document :
    ∃ c : Collection ℕ, Collection.Reached textExt docJson 64 {f | nul ∉ f} c ∧
      (Query.new.whereEq ['f'] .null).answer textExt docJson c = .ok [] ∧
      (Query.new.whereEq ['f'] .null).scanAnswer textExt docJson c =
        .ok [(['k'], .dict [])] := by
  obtain ⟨c, d, hindexes, hreached, hstores⟩ := sample_reached [] (.inl rfl)
  refine ⟨c, hreached, lone_document_missed hstores ?_ docKey_k ?_ ?_ rfl ?_⟩
  · exact (Documented.empty.set _ docKey_k rfl (by simp)).toWellFormed
  · rw [sampleDocuments_eq, if_pos rfl]
  · intro x hx
    rw [sampleDocuments_eq, if_neg hx, if_neg (by simp)]
  · simp [hindexes, Query.indexedEquals, Query.whereEq, Query.new]
