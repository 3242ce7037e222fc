/-
# A collection is a map with expiry

Whatever fields are indexed, the methods of a collection act as on a map from keys to
documents with an optional time of expiry: every call that returns has the effect it has
on that map, and every read gives what is visible there.
-/
import ImmuStore.CollectionIndex
import ImmuStore.ExpiryMap

open ExpiryMap (live seen without put)
open CollectionCall (run)

variable {V T : Type} {json : Json V T} {fields : List Text} {key : Text} {s : Text → Option V}

/-! ## The map with expiry -/

instance : DecidablePred DocKey := fun key =>
  inferInstanceAs (Decidable (key ≠ [] ∧ ¬ reserved <+: key))

/-- The time of expiry of a key, from its record. -/
def expiryTime (json : Json V T) (s : Text → Option V) (key : Text) : Option T :=
  (s (expiryKey key)).bind json.asNumber

/-- The map with expiry that the map of a collection stands for. -/
def expiryMapOf (json : Json V T) (s : Text → Option V) : ExpiryMap Text V T := fun key =>
  if DocKey key then (s key).map fun document => (document, expiryTime json s key) else none

theorem expiryMapOf_of (hkey : DocKey key) :
    expiryMapOf json s key = (s key).map fun document => (document, expiryTime json s key) :=
  if_pos hkey

theorem expiryMapOf_of_not (hkey : ¬ DocKey key) : expiryMapOf json s key = none :=
  if_neg hkey

theorem expiryMapOf_eq_none (hkey : DocKey key) : expiryMapOf json s key = none ↔ s key = none := by
  rw [expiryMapOf_of hkey, Option.map_eq_none_iff]

theorem expiryTime_eq_none (h : Documented json s) : expiryTime json s key = none ↔ s (expiryKey key) = none := by
  unfold expiryTime
  cases hrecord : s (expiryKey key) with
  | none => simp
  | some value =>
    obtain ⟨t, rfl⟩ := h.timed key value hrecord
    simp [json.asNumber_number]

/-- Whether a key has expired, from its binding. -/
theorem expiredAt_eq_not_live [LinearOrder T] (document : V) (now : T) :
    Collection.expiredAt json s key now = !live now (document, expiryTime json s key) := by
  unfold Collection.expiredAt live expiryTime
  cases (s (expiryKey key)).bind json.asNumber with
  | none => rfl
  | some expiry => simp [← not_lt]

section Writes

variable {document : V} {items : Text → Option V} {expiry : Option V}

theorem expiryMapOf_setMap (hkey : DocKey key) :
    expiryMapOf json (setMap json fields key document items expiry s) =
      (expiryMapOf json s).put key document (expiry.bind json.asNumber) := by
  funext k
  by_cases hk : DocKey k
  · by_cases hne : k = key
    · subst hne
      rw [put, assign_self, expiryMapOf_of hk, setMap_key hk, expiryTime, setMap_expiryKey]
      rfl
    · rw [put, assign_of_ne hne, expiryMapOf_of hk, expiryMapOf_of hk,
        setMap_document hk hne, expiryTime, setMap_expiry hkey hne]
      rfl
  · have hne : k ≠ key := fun heq => hk (heq ▸ hkey)
    rw [put, assign_of_ne hne, expiryMapOf_of_not hk, expiryMapOf_of_not hk]

theorem expiryMapOf_deleteMap (hkey : DocKey key) :
    expiryMapOf json (deleteMap json fields key s) = (expiryMapOf json s).without [key] := by
  funext k
  by_cases hne : k = key
  · subst hne
    rw [without, if_pos (List.mem_singleton_self k), expiryMapOf_of hkey, deleteMap_key hkey]
    rfl
  · rw [without, if_neg (fun hmem => hne (List.mem_singleton.mp hmem))]
    by_cases hk : DocKey k
    · rw [expiryMapOf_of hk, expiryMapOf_of hk, deleteMap_document hk hne, expiryTime,
        deleteMap_expiry hkey hne]
      rfl
    · rw [expiryMapOf_of_not hk, expiryMapOf_of_not hk]

theorem expiryMapOf_backfill {field : Text} {keys : List Text}
    (hkeys : ∀ key ∈ keys, DocKey key) :
    expiryMapOf json (assignAll s (backfillEntries json field s keys)) = expiryMapOf json s := by
  funext k
  by_cases hk : DocKey k
  · rw [expiryMapOf_of hk, expiryMapOf_of hk, backfill_document hkeys hk, expiryTime,
      backfill_expiry hkeys]
    rfl
  · rw [expiryMapOf_of_not hk, expiryMapOf_of_not hk]

end Writes

/-- The binding of a document, from what is stored under its key. -/
def entryOf (json : Json V T) (s : Text → Option V) (e : Text × V) : Option (Text × V × Option T) :=
  if DocKey e.1 then some (e.1, e.2, expiryTime json s e.1) else none

/-- The bindings of the documents, in the order of their keys. -/
theorem represents_entries (json : Json V T) {l : List (Text × V)} (h : Represents l s) :
    Represents (l.filterMap (entryOf json s)) (expiryMapOf json s) := by
  constructor
  · rw [KeysIncrease, List.pairwise_filterMap]
    refine h.increasing.imp fun {e e'} hlt b hb b' hb' => ?_
    unfold entryOf at hb hb'
    split_ifs at hb hb'
    cases hb
    cases hb'
    exact hlt
  · rintro k ⟨document, expiry⟩
    rw [List.mem_filterMap]
    constructor
    · rintro ⟨e, he, hentry⟩
      unfold entryOf at hentry
      split_ifs at hentry with hk
      cases hentry
      rw [expiryMapOf_of hk, (h.mem_iff e.1 e.2).mp he]
      rfl
    · intro hbound
      by_cases hk : DocKey k
      · rw [expiryMapOf_of hk] at hbound
        obtain ⟨document', hs, heq⟩ := Option.map_eq_some_iff.mp hbound
        obtain ⟨rfl, rfl⟩ := Prod.mk.inj heq
        exact ⟨(k, document'), (h.mem_iff _ _).mpr hs, if_pos hk⟩
      · rw [expiryMapOf_of_not hk] at hbound
        cases hbound

namespace Collection

variable [DecidableEq V] [LinearOrder T] {ext : Externals Text} {order : ℕ} {db : Handle Text}
  {d : Disk}
variable {l : List (Text × V)}

/-! ## Reads -/

/-- `get` returns the visible document, or `None`. -/
theorem get_eq (hs : db.Stores ext order json.encode d s) (h : Documented json s)
    (fields : List Text) (clock : ℕ → T) (hkey : DocKey key) :
    ∃ c', get ext json key ⟨db, fields, clock⟩ =
      .ok (((expiryMapOf json s).visible (clock 0) key).getD json.null) c' := by
  have hcheck := checkKey_eq_ok_iff.mpr hkey
  obtain ⟨db1, hs1, hget⟩ := dbGet_spec hs fields clock hkey.1
  cases hdoc : s key with
  | none =>
    rw [ExpiryMap.visible_of_none ((expiryMapOf_eq_none hkey).mpr hdoc)]
    exact ⟨_, by simp [get, hcheck, hget, hdoc]; rfl⟩
  | some document =>
    obtain ⟨db2, -, hexpired⟩ := isExpired_eq hs1 fields clock h.timed key
    rw [expiredAt_eq_not_live document] at hexpired
    have hbound : expiryMapOf json s key = some (document, expiryTime json s key) := by
      rw [expiryMapOf_of hkey, hdoc]
      rfl
    have hne := h.ne_null hkey hdoc
    rw [ExpiryMap.visible_of_some hbound]
    cases hlive : live (clock 0) (document, expiryTime json s key) with
    | true => exact ⟨_, by simp [get, hcheck, hget, hdoc, hne, hexpired, hlive]; rfl⟩
    | false => exact ⟨_, by simp [get, hcheck, hget, hdoc, hne, hexpired, hlive]; rfl⟩

/-- `documents` and `keys` go through what is stored, and pass over what is reserved or
has expired. -/
theorem reads_eq (hs : db.Stores ext order json.encode d s) (h : Documented json s)
    (fields : List Text) (clock : ℕ → T) (hl : ∀ e ∈ l, s e.1 = some e.2) :
    (∃ c', documentsOf ext json (l.map Prod.fst) ⟨db, fields, clock⟩ =
      .ok (seen (l.filterMap (entryOf json s)) clock) c') ∧
    ∃ c', visibleKeys ext json (l.map Prod.fst) ⟨db, fields, clock⟩ =
      .ok ((seen (l.filterMap (entryOf json s)) clock).map Prod.fst) c' := by
  induction l generalizing db clock with
  | nil => exact ⟨⟨_, rfl⟩, _, rfl⟩
  | cons e l ih =>
    obtain ⟨key, document⟩ := e
    have hdoc : s key = some document := hl (key, document) (.head _)
    have hrest : ∀ e ∈ l, s e.1 = some e.2 := fun e he => hl e (.tail _ he)
    have hnil : key ≠ [] := by
      rintro rfl
      rw [h.nil] at hdoc
      cases hdoc
    by_cases hkey : DocKey key
    · have hnot : reserved.isPrefixOf key = false := by
        rw [Bool.eq_false_iff, ne_eq, List.isPrefixOf_iff_prefix]
        exact hkey.2
      have hentry : entryOf json s (key, document) = some (key, document, expiryTime json s key) :=
        if_pos hkey
      have hsome : (expiryTime json s key).isSome = (s (expiryKey key)).isSome := by
        rw [Bool.eq_iff_iff, Option.isSome_iff_ne_none, Option.isSome_iff_ne_none, ne_eq, ne_eq,
          expiryTime_eq_none h]
      obtain ⟨db1, hs1, hexpired⟩ := isExpired_eq hs fields clock h.timed key
      rw [expiredAt_eq_not_live document, ← hsome] at hexpired
      rw [List.filterMap_cons_some hentry, ExpiryMap.seen_cons, List.map_cons]
      generalize (fun i => clock (i + if (expiryTime json s key).isSome then 1 else 0)) = clock'
        at hexpired ⊢
      obtain ⟨db2, hs2, hitem⟩ := dbItem_spec hs1 fields clock' hnil hdoc
      obtain ⟨⟨c1, hdocuments⟩, c2, hkeys⟩ := ih hs1 clock' hrest
      cases hlive : live (clock 0) (document, expiryTime json s key) with
      | true =>
        rw [hlive] at hexpired
        obtain ⟨c3, hdocuments'⟩ := (ih hs2 clock' hrest).1
        exact ⟨⟨c3, by simp [documentsOf, hnot, hexpired, hitem, hdocuments']⟩, c2,
          by simp [visibleKeys, hnot, hexpired, hkeys]⟩
      | false =>
        rw [hlive] at hexpired
        exact ⟨⟨c1, by simp [documentsOf, hnot, hexpired, hdocuments]⟩, c2,
          by simp [visibleKeys, hnot, hexpired, hkeys]⟩
    · have hres : reserved.isPrefixOf key = true := by
        rw [List.isPrefixOf_iff_prefix]
        by_contra hnot
        exact hkey ⟨hnil, hnot⟩
      have hentry : entryOf json s (key, document) = none := if_neg hkey
      obtain ⟨⟨c1, hdocuments⟩, c2, hkeys⟩ := ih hs clock hrest
      rw [List.filterMap_cons_none hentry, List.map_cons]
      exact ⟨⟨c1, by rw [documentsOf, if_pos hres, hdocuments]⟩, c2,
        by rw [visibleKeys, if_pos hres, hkeys]⟩

/-! ## Sweeping -/

/-- The keys whose expiry record is due. -/
def dueKeys (json : Json V T) (now : T) (entries : List (Text × V)) : List Text :=
  entries.filterMap fun e => (json.asNumber e.2).bind fun expiry =>
    if expiry ≤ now then some (e.1.drop expiryPrefix.length) else none

omit [DecidableEq V] in
theorem expiredKeys_eq (now : T) {entries : List (Text × V)}
    (h : ∀ e ∈ entries, ∃ t, e.2 = json.number t) :
    expiredKeys json now entries = .ok (dueKeys json now entries) := by
  induction entries with
  | nil => rfl
  | cons e entries ih =>
    obtain ⟨x, value⟩ := e
    obtain ⟨t, rfl⟩ : ∃ t, value = json.number t := h (x, value) (.head _)
    have hrest := ih fun e he => h e (.tail _ he)
    rw [expiredKeys, json.asNumber_number]
    simp only [hrest, dueKeys, List.filterMap_cons, json.asNumber_number, Option.bind_some]
    by_cases hle : t ≤ now
    · simp [hle]
    · simp [hle]

omit [DecidableEq V] in
/-- The due keys of a collection are the keys of its bindings that have expired. -/
theorem mem_dueKeys (h : Documented json s) (hl : Represents l s) (now : T) (key : Text) :
    key ∈ dueKeys json now (l.filter fun e => expiryPrefix.isPrefixOf e.1) ↔
      ∃ e, expiryMapOf json s key = some e ∧ live now e = false := by
  simp only [dueKeys, List.mem_filterMap, List.mem_filter, List.isPrefixOf_iff_prefix,
    Option.bind_eq_some_iff]
  constructor
  · rintro ⟨⟨x, value⟩, ⟨hmem, rest, rfl⟩, t, ht, hdue⟩
    have hrecord : s (expiryKey rest) = some value := (hl.mem_iff _ _).mp hmem
    obtain ⟨hkey, hbound⟩ := h.owned rest (by simp [hrecord])
    obtain ⟨document, hdoc⟩ := Option.ne_none_iff_exists'.mp hbound
    split_ifs at hdue with hle
    obtain rfl : rest = key := by simpa using hdue
    refine ⟨(document, some t), ?_, by simpa [live] using hle⟩
    have htime : expiryTime json s rest = some t := by rw [expiryTime, hrecord]; exact ht
    rw [expiryMapOf_of hkey, hdoc, htime]
    rfl
  · rintro ⟨⟨document, expiry⟩, hbound, hexpired⟩
    have hkey : DocKey key := by
      by_contra hnot
      rw [expiryMapOf_of_not hnot] at hbound
      cases hbound
    rw [expiryMapOf_of hkey] at hbound
    obtain ⟨_, -, heq⟩ := Option.map_eq_some_iff.mp hbound
    cases heq
    cases htime : expiryTime json s key with
    | none => simp [live, htime] at hexpired
    | some t =>
      obtain ⟨value, hrecord, ht⟩ := Option.bind_eq_some_iff.mp htime
      refine ⟨(expiryKey key, value), ⟨(hl.mem_iff _ _).mpr hrecord, List.prefix_append _ _⟩, t, ht, ?_⟩
      have hle : t ≤ now := by simpa [live, htime] using hexpired
      simp [hle, expiryKey]

omit [DecidableEq V] in
theorem nodup_dueKeys (hl : Represents l s) (now : T) :
    (dueKeys json now (l.filter fun e => expiryPrefix.isPrefixOf e.1)).Nodup := by
  unfold dueKeys
  rw [List.Nodup, List.pairwise_filterMap, List.pairwise_filter]
  refine hl.increasing.imp fun {e e'} hlt hpre hpre' key hkey key' hkey' heq => ?_
  obtain ⟨t, -, hdue⟩ := Option.bind_eq_some_iff.mp hkey
  obtain ⟨t', -, hdue'⟩ := Option.bind_eq_some_iff.mp hkey'
  obtain ⟨rest, hrest⟩ := List.isPrefixOf_iff_prefix.mp hpre
  obtain ⟨rest', hrest'⟩ := List.isPrefixOf_iff_prefix.mp hpre'
  split_ifs at hdue hdue'
  obtain rfl : rest = key := by simpa [← hrest] using hdue
  obtain rfl : rest' = key' := by simpa [← hrest'] using hdue'
  rw [← hrest, ← hrest', heq] at hlt
  exact lt_irrefl _ hlt

omit [LinearOrder T] in
/-- The loop of `sweep` deletes the documents under its keys, unless something is too long
to be written. -/
theorem deleteAll_spec (hs : db.Stores ext order json.encode d s) (h : Documented json s)
    (fields : List Text) (clock : ℕ → T) {keys : List Text} (hkeys : ∀ key ∈ keys, DocKey key) :
    ∃ gone rest db' d' s', keys = gone ++ rest ∧ db'.Stores ext order json.encode d' s' ∧
      Documented json s' ∧ expiryMapOf json s' = (expiryMapOf json s).without gone ∧
      (rest = [] ∧ deleteAll ext json keys ⟨db, fields, clock⟩ = .ok () ⟨db', fields, clock⟩ ∨
        rest ≠ [] ∧
          deleteAll ext json keys ⟨db, fields, clock⟩ = .error .structError ⟨db', fields, clock⟩ ∧
          db'.database.Overflows ext) := by
  induction keys generalizing db d s with
  | nil =>
    refine ⟨[], [], db, d, s, rfl, hs, h, ?_, .inl ⟨rfl, rfl⟩⟩
    funext key
    rfl
  | cons key keys ih =>
    have hkey := hkeys key (.head _)
    have hrest : ∀ k ∈ keys, DocKey k := fun k hk => hkeys k (.tail _ hk)
    have hwithout : ∀ gone, ((expiryMapOf json s).without [key]).without gone =
        (expiryMapOf json s).without (key :: gone) := by
      intro gone
      funext k
      by_cases hk : k = key
      · simp [without, hk]
      · simp [without, hk]
    -- the first deletion, and whether the loop goes on
    have hstep : (∃ db1 d1 s1, db1.Stores ext order json.encode d1 s1 ∧ Documented json s1 ∧
          expiryMapOf json s1 = (expiryMapOf json s).without [key] ∧
          onKeyError (delete ext json key) (pure ()) ⟨db, fields, clock⟩ =
            .ok () ⟨db1, fields, clock⟩) ∨
        ∃ db1 d1, db1.Stores ext order json.encode d1 s ∧ db1.database.Overflows ext ∧
          onKeyError (delete ext json key) (pure ()) ⟨db, fields, clock⟩ =
            .error .structError ⟨db1, fields, clock⟩ := by
      cases hdoc : s key with
      | none =>
        obtain ⟨db1, hs1, hrun⟩ := delete_absent fields clock key hs hkey (by rw [hdoc]; rfl)
        refine .inl ⟨db1, d, s, hs1, h, ?_, by simp [onKeyError, hrun]⟩
        funext k
        by_cases hk : k = key
        · simp [without, hk, (expiryMapOf_eq_none hkey).mpr hdoc]
        · simp [without, hk]
      | some document =>
        have hwrites := delete_spec fields clock key hs hkey
          (by rw [hdoc]; exact h.ne_null hkey hdoc)
        generalize hrun : delete ext json key ⟨db, fields, clock⟩ = result at hwrites
        cases hwrites with
        | @committed db1 d1 hs1 _ =>
          exact .inl ⟨db1, d1, _, hs1, h.delete fields hkey, expiryMapOf_deleteMap hkey,
            by simp [onKeyError, hrun]⟩
        | @failed db1 d1 _ hs1 hlong =>
          exact .inr ⟨db1, d1, hs1, hlong, by simp [onKeyError, hrun]⟩
    rcases hstep with ⟨db1, d1, s1, hs1, h1, hmap1, hrun⟩ | ⟨db1, d1, hs1, hlong, hrun⟩
    · obtain ⟨gone, rest, db', d', s', rfl, hs', h', hmap, hend⟩ := ih hs1 h1 hrest
      refine ⟨key :: gone, rest, db', d', s', rfl, hs', h', ?_, ?_⟩
      · rw [hmap, hmap1, hwithout]
      · simpa only [deleteAll, run_bind, hrun] using hend
    · refine ⟨[], key :: keys, db1, d1, s, rfl, hs1, h, ?_, .inr ⟨by simp, ?_, hlong⟩⟩
      · funext k
        rfl
      · rw [deleteAll, run_bind, hrun]

/-- `sweep` deletes the documents that have expired at its reading of the clock, unless
something is too long to be written. -/
theorem sweep_spec (hs : db.Stores ext order json.encode d s) (h : Documented json s)
    (fields : List Text) (clock : ℕ → T) :
    ∃ due gone rest db' d' s', due.Nodup ∧
      (∀ key, key ∈ due ↔
        ∃ e, expiryMapOf json s key = some e ∧ live (clock 0) e = false) ∧
      due = gone ++ rest ∧ db'.Stores ext order json.encode d' s' ∧ Documented json s' ∧
      expiryMapOf json s' = (expiryMapOf json s).without gone ∧
      (rest = [] ∧ sweep ext json ⟨db, fields, clock⟩ =
          .ok due.length ⟨db', fields, fun i => clock (i + 1)⟩ ∨
        rest ≠ [] ∧ sweep ext json ⟨db, fields, clock⟩ =
          .error .structError ⟨db', fields, fun i => clock (i + 1)⟩ ∧ db'.database.Overflows ext) := by
  obtain ⟨db1, l, hs1, hl, hscan⟩ := dbScan_spec hs fields (fun i => clock (i + 1))
    (by decide : expiryPrefix ≠ [])
  have htimes : ∀ e ∈ l.filter (fun e => expiryPrefix.isPrefixOf e.1), ∃ t, e.2 = json.number t := by
    rintro ⟨x, value⟩ he
    obtain ⟨hmem, hpre⟩ := List.mem_filter.mp he
    obtain ⟨rest, rfl⟩ := List.isPrefixOf_iff_prefix.mp hpre
    exact h.timed rest value ((hl.mem_iff _ _).mp hmem)
  have hmem := mem_dueKeys h hl (clock 0)
  have hdue := expiredKeys_eq (clock 0) htimes
  have hdocs : ∀ key ∈ dueKeys json (clock 0) (l.filter fun e => expiryPrefix.isPrefixOf e.1),
      DocKey key := by
    intro key hkey
    obtain ⟨e, hbound, -⟩ := (hmem key).mp hkey
    by_contra hnot
    rw [expiryMapOf_of_not hnot] at hbound
    cases hbound
  obtain ⟨gone, rest, db', d', s', hsplit, hs', h', hmap, hend⟩ :=
    deleteAll_spec hs1 h fields (fun i => clock (i + 1)) hdocs
  refine ⟨_, gone, rest, db', d', s', nodup_dueKeys hl (clock 0), hmem, hsplit, hs', h', hmap, ?_⟩
  rcases hend with ⟨hrest, hrun⟩ | ⟨hrest, hrun, hlong⟩
  · refine .inl ⟨hrest, ?_⟩
    simp only [sweep, run_bind, readClock, hscan, hdue, ofExcept_ok, hrun, run_pure]
  · refine .inr ⟨hrest, ?_, hlong⟩
    simp only [sweep, run_bind, readClock, hscan, hdue, ofExcept_ok, hrun]

end Collection

/-! ## Runs -/

section Runs

variable [LinearOrder T]

/-- The exception of a call whose key or document is refused, or whose key is absent. -/
def CollectionCall.exception (json : Json V T) (m : ExpiryMap Text V T) :
    CollectionCall V T → Option PyError
  | .set key document _ =>
    if DocKey key then if (json.asDict document).isNone then some .typeError else none
    else some .valueError
  | .delete key =>
    if DocKey key then if (m key).isNone then some .keyError else none
    else some .valueError
  | .createIndex _ => none
  | .sweep => none

/-- The map after a call that returns. -/
def ExpiryMap.after (json : Json V T) (now : T) (m : ExpiryMap Text V T) :
    CollectionCall V T → ExpiryMap Text V T
  | .set key document ttl => m.put key document (ttl.map (json.add now))
  | .delete key => m.without [key]
  | .createIndex _ => m
  | .sweep => m.sweep now

/-- A call, with its reading of the clock, its result, and whether it has left something
that is too long to be written. -/
structure CollectionEvent (V T : Type) where
  call : CollectionCall V T
  now : T
  result : Except PyError Unit
  overflows : Prop

/-- What a call does to the map with expiry.  A call that raises changes nothing, but for a
`sweep`, which may have deleted some of what had expired; and only what is too long to be
written makes a call raise that the map allows. -/
inductive ExpiryMap.Call (json : Json V T) (m : ExpiryMap Text V T) :
    CollectionEvent V T → ExpiryMap Text V T → Prop
  | returned {call : CollectionCall V T} {now : T} {overflows : Prop} :
      call.exception json m = none →
      Call json m ⟨call, now, .ok (), overflows⟩ (m.after json now call)
  | raised {call : CollectionCall V T} {now : T} {overflows : Prop} {e : PyError} :
      call.exception json m = some e → Call json m ⟨call, now, .error e, overflows⟩ m
  | overflowed {call : CollectionCall V T} {now : T} {overflows : Prop} : overflows →
      call.exception json m = none → call ≠ .sweep →
      Call json m ⟨call, now, .error .structError, overflows⟩ m
  | interrupted {now : T} {overflows : Prop} {gone : List Text} : overflows →
      (∀ key ∈ gone, ∃ e, m key = some e ∧ live now e = false) →
      Call json m ⟨.sweep, now, .error .structError, overflows⟩ (m.without gone)

/-- The maps that a sequence of calls can lead to from the empty map. -/
inductive ExpiryMap.Run (json : Json V T) : List (CollectionEvent V T) → ExpiryMap Text V T → Prop
  | nil : Run json [] fun _ => none
  | call {events : List (CollectionEvent V T)} {m m' : ExpiryMap Text V T}
      {event : CollectionEvent V T} : Run json events m → ExpiryMap.Call json m event m' →
      Run json (events ++ [event]) m'

variable [DecidableEq V]

/-- What is seen of a call on a collection. -/
def CollectionCall.event (ext : Externals Text) (json : Json V T) (c : Collection T)
    (call : CollectionCall V T) : CollectionEvent V T :=
  ⟨call, c.clock 0, resultValue (call.run ext json c),
    (resultState (call.run ext json c)).db.database.Overflows ext⟩

namespace Collection

/-- The states of a collection that was built on an empty database, with any indexed
fields and a clock that does not go back, and the calls that led to them. -/
inductive Traced (ext : Externals Text) (json : Json V T) (order : ℕ) :
    List (CollectionEvent V T) → Collection T → Prop
  | new {db : Database Text} {fields : List Text} {clock : ℕ → T} :
      Database.connect ext (.blank order (.powerOn .empty)) = .ok () db →
      (∀ i j, i < j → clock i ≤ clock j) →
      Traced ext json order [] ⟨.ofDatabase db, fields, clock⟩
  | call {events : List (CollectionEvent V T)} {c : Collection T} (call : CollectionCall V T) :
      Traced ext json order events c →
      Traced ext json order (events ++ [call.event ext json c]) (resultState (call.run ext json c))

/-- How a collection behaves that stands for the map `m`, whose bindings are `l`. -/
structure Agrees (ext : Externals Text) (json : Json V T) (c : Collection T)
    (m : ExpiryMap Text V T) (l : List (Text × V × Option T)) : Prop where
  bindings : Represents l m
  documentKeys : ∀ key, m key ≠ none → DocKey key
  get : ∀ key, DocKey key →
    resultValue (Collection.get ext json key c) = .ok ((m.visible (c.clock 0) key).getD json.null)
  contains : ∀ key, DocKey key →
    resultValue (Collection.contains ext json key c) = .ok (m.visible (c.clock 0) key).isSome
  documents : resultValue (Collection.documents ext json c) = .ok (seen l c.clock)
  keys : resultValue (Collection.keys ext json c) = .ok ((seen l c.clock).map Prod.fst)
  count : resultValue (Collection.count ext json c) = .ok (seen l c.clock).length
  records : ∃ s, c.db.database.Serves ext (stored json.encode s) ∧
    (∀ key, DocKey key → (s key).isSome = (m key).isSome) ∧
    ∀ key, s (expiryKey key) ≠ none → m key ≠ none
  delete : ∀ key, DocKey key →
    (resultValue (Collection.delete ext json key c) = .error .keyError ↔ m key = none)
  delete_absent : ∀ key, m key = none → ∀ map, c.db.database.Serves ext map →
    (resultState (Collection.delete ext json key c)).db.database.Serves ext map
  sweep : resultValue (Collection.sweep ext json c) =
      .ok (l.filter fun e => !live (c.clock 0) e.2).length ∨
    resultValue (Collection.sweep ext json c) = .error .structError ∧
      (resultState (Collection.sweep ext json c)).db.database.Overflows ext
  sweep_visible : ∀ now, c.clock 0 ≤ now →
    (∀ key, resultValue (Collection.get ext json key
        { resultState (Collection.sweep ext json c) with clock := fun _ => now }) =
      resultValue (Collection.get ext json key { c with clock := fun _ => now })) ∧
    resultValue (Collection.documents ext json
        { resultState (Collection.sweep ext json c) with clock := fun _ => now }) =
      resultValue (Collection.documents ext json { c with clock := fun _ => now })
  sweep_again : ∀ n c', Collection.sweep ext json c = .ok n c' →
    resultValue (Collection.sweep ext json { c' with clock := fun _ => c.clock 0 }) = .ok 0

/-- The collection stands for the map `m`. -/
structure Shows (ext : Externals Text) (json : Json V T) (order : ℕ) (c : Collection T)
    (m : ExpiryMap Text V T) : Prop where
  clock : ∀ i j, i < j → c.clock i ≤ c.clock j
  stores : ∃ d s, c.db.Stores ext order json.encode d s ∧ Documented json s ∧ expiryMapOf json s = m

variable {ext : Externals Text} {order : ℕ} {db : Handle Text} {d : Disk} {c : Collection T}
  {m : ExpiryMap Text V T}

section Values

variable (hs : db.Stores ext order json.encode d s) (h : Documented json s) (fields : List Text)
  (clock : ℕ → T)
include hs h

theorem value_get (key : Text) :
    resultValue (Collection.get ext json key ⟨db, fields, clock⟩) =
      if DocKey key then .ok (((expiryMapOf json s).visible (clock 0) key).getD json.null)
      else .error .valueError := by
  split_ifs with hkey
  · obtain ⟨c', hget⟩ := get_eq hs h fields clock hkey
    rw [hget]
    rfl
  · simp [Collection.get, checkKey_of_not hkey]

theorem value_contains (hkey : DocKey key) :
    resultValue (Collection.contains ext json key ⟨db, fields, clock⟩) =
      .ok ((expiryMapOf json s).visible (clock 0) key).isSome := by
  obtain ⟨c', hget⟩ := get_eq hs h fields clock hkey
  simp only [Collection.contains, run_bind, hget, run_pure, resultValue_ok, Except.ok.injEq]
  cases hvisible : (expiryMapOf json s).visible (clock 0) key with
  | none => simp
  | some document =>
    -- what is visible is a document, and so not `None`
    have hdoc : s key = some document := by
      unfold ExpiryMap.visible at hvisible
      obtain ⟨e, he, rfl⟩ := Option.map_eq_some_iff.mp hvisible
      obtain ⟨he, -⟩ := Option.filter_eq_some_iff.mp he
      rw [expiryMapOf_of hkey] at he
      obtain ⟨_, hs, rfl⟩ := Option.map_eq_some_iff.mp he
      exact hs
    simp [h.ne_null hkey hdoc]

variable {l : List (Text × V)} (hl : Represents l s)
include hl

theorem value_documents :
    resultValue (Collection.documents ext json ⟨db, fields, clock⟩) =
      .ok (seen (l.filterMap (entryOf json s)) clock) := by
  obtain ⟨db1, l', hs1, hl', hkeys⟩ := dbKeys_spec hs fields clock
  obtain rfl := hl'.unique hl
  obtain ⟨⟨c', hdocuments⟩, -⟩ := reads_eq hs1 h fields clock fun e he => (hl.mem_iff _ _).mp he
  simp only [Collection.documents, run_bind, hkeys, hdocuments, resultValue_ok]

theorem value_keys :
    ∃ c', Collection.keys ext json ⟨db, fields, clock⟩ =
      .ok ((seen (l.filterMap (entryOf json s)) clock).map Prod.fst) c' := by
  obtain ⟨db1, l', hs1, hl', hkeys⟩ := dbKeys_spec hs fields clock
  obtain rfl := hl'.unique hl
  obtain ⟨-, c', hvisible⟩ := reads_eq hs1 h fields clock fun e he => (hl.mem_iff _ _).mp he
  exact ⟨c', by simp only [Collection.keys, run_bind, hkeys, hvisible]⟩

omit hl in
/-- What is visible after a sweep, now or later. -/
theorem value_after_sweep {db' : Handle Text} {d' : Disk} {s' : Text → Option V} {now now' : T}
    (hs' : db'.Stores ext order json.encode d' s') (h' : Documented json s') (hle : now ≤ now')
    {gone : List Text} (hmap : expiryMapOf json s' = (expiryMapOf json s).without gone)
    (hgone : ∀ key ∈ gone, ∃ e, expiryMapOf json s key = some e ∧ live now e = false) :
    (∀ key, resultValue (Collection.get ext json key ⟨db', fields, fun _ => now'⟩) =
      resultValue (Collection.get ext json key ⟨db, fields, fun _ => now'⟩)) ∧
    resultValue (Collection.documents ext json ⟨db', fields, fun _ => now'⟩) =
      resultValue (Collection.documents ext json ⟨db, fields, fun _ => now'⟩) := by
  have hvisible : ∀ key, (expiryMapOf json s').visible now' key = (expiryMapOf json s).visible now' key := by
    intro key
    rw [hmap]
    exact ExpiryMap.visible_without hle hgone key
  constructor
  · intro key
    rw [value_get hs' h', value_get hs h, hvisible]
  · obtain ⟨-, l, -, hl, -⟩ := dbKeys_spec hs fields fun _ => now
    obtain ⟨-, l', -, hl', -⟩ := dbKeys_spec hs' fields fun _ => now
    rw [value_documents hs' h' fields _ hl', value_documents hs h fields _ hl]
    -- both lists are what is visible, in the order of the keys
    have hseen := ExpiryMap.represents_seen (represents_entries json hl) now'
    have hseen' := ExpiryMap.represents_seen (represents_entries json hl') now'
    rw [funext hvisible] at hseen'
    rw [hseen'.unique hseen]

end Values

/-- A collection behaves as the map it stands for. -/
theorem Shows.agrees (hshows : c.Shows ext json order m) : ∃ l, c.Agrees ext json m l := by
  obtain ⟨-, d, s, hs, h, rfl⟩ := hshows
  obtain ⟨-, l, -, hl, -⟩ := dbKeys_spec hs c.indexes c.clock
  obtain ⟨c1, hkeys⟩ := value_keys hs h c.indexes c.clock hl
  obtain ⟨due, gone, rest, db', d', s', hnodup, hdue, hsplit, hs', h', hmap, hsweep⟩ :=
    sweep_spec hs h c.indexes c.clock
  have hentries := represents_entries json hl
  have hstate : resultState (Collection.sweep ext json c) =
      ⟨db', c.indexes, fun i => c.clock (i + 1)⟩ := by
    rcases hsweep with ⟨-, hrun⟩ | ⟨-, hrun, -⟩
    · rw [hrun]
      rfl
    · rw [hrun]
      rfl
  refine ⟨l.filterMap (entryOf json s), hentries, ?_, ?_, ?_, ?_, ?_, ?_, ?_, ?_, ?_, ?_, ?_, ?_⟩
  · intro key hbound
    by_contra hnot
    exact hbound (expiryMapOf_of_not hnot)
  · intro key hkey
    rw [value_get hs h, if_pos hkey]
  · intro key hkey
    exact value_contains hs h c.indexes c.clock hkey
  · exact value_documents hs h c.indexes c.clock hl
  · rw [hkeys]
    rfl
  · simp only [Collection.count, run_bind, hkeys, run_pure, resultValue_ok, List.length_map]
  · refine ⟨s, hs.serves, fun key hkey => ?_, fun key hrecord => ?_⟩
    · rw [expiryMapOf_of hkey, Option.isSome_map]
    · obtain ⟨hkey, hbound⟩ := h.owned key hrecord
      exact fun hnone => hbound ((expiryMapOf_eq_none hkey).mp hnone)
  · intro key hkey
    rw [expiryMapOf_eq_none hkey]
    cases hdoc : s key with
    | none =>
      obtain ⟨db1, -, hrun⟩ := delete_absent c.indexes c.clock key hs hkey (by rw [hdoc]; rfl)
      simp [hrun]
    | some document =>
      have hwrites := delete_spec c.indexes c.clock key hs hkey (by rw [hdoc]; exact h.ne_null hkey hdoc)
      generalize hrun : Collection.delete ext json key ⟨c.db, c.indexes, c.clock⟩ = result at hwrites
      cases hwrites with
      | committed => simp
      | failed => simp
  · intro key hnone map hserves
    by_cases hkey : DocKey key
    · have hdoc : s key = none := (expiryMapOf_eq_none hkey).mp hnone
      obtain ⟨db1, hs1, hrun⟩ := delete_absent c.indexes c.clock key hs hkey (by rw [hdoc]; rfl)
      rw [hrun, hserves.unique hs.serves]
      exact hs1.serves
    · rw [delete_refused key c hkey]
      exact hserves
  · rcases hsweep with ⟨-, hrun⟩ | ⟨-, hrun, hlong⟩
    · left
      rw [hrun, resultValue_ok, ExpiryMap.length_expired hentries hnodup hdue]
    · right
      rw [hrun]
      exact ⟨rfl, hlong⟩
  · intro now hle
    rw [hstate]
    refine value_after_sweep hs h c.indexes hs' h' hle hmap fun key hkey => ?_
    exact (hdue key).mp (hsplit ▸ List.mem_append_left _ hkey)
  · intro n c' hrun
    rcases hsweep with ⟨rfl, hrun'⟩ | ⟨-, hrun', -⟩
    · rw [hrun] at hrun'
      cases hrun'
      obtain rfl : due = gone := by rw [hsplit, List.append_nil]
      rw [ExpiryMap.without_eq_sweep hdue] at hmap
      obtain ⟨due', gone', rest', _, _, _, -, hdue', hsplit', -, -, -, hagain⟩ :=
        sweep_spec hs' h' c.indexes fun _ => c.clock 0
      -- nothing is left that has expired
      obtain rfl : due' = [] := by
        refine List.eq_nil_iff_forall_not_mem.mpr fun key hkey => ?_
        obtain ⟨e, hbound, hexpired⟩ := (hdue' key).mp hkey
        rw [hmap] at hbound
        obtain ⟨-, hlive⟩ := Option.filter_eq_some_iff.mp hbound
        rw [hexpired] at hlive
        cases hlive
      obtain ⟨-, rfl⟩ := List.append_eq_nil_iff.mp hsplit'.symm
      rcases hagain with ⟨-, hrun''⟩ | ⟨hne, -⟩
      · rw [hrun'']
        rfl
      · exact absurd rfl hne
    · rw [hrun] at hrun'
      cases hrun'

/-- Every call has the effect on the map that it has in the model. -/
theorem Shows.call (hshows : c.Shows ext json order m) (call : CollectionCall V T) :
    ∃ m', ExpiryMap.Call json m (call.event ext json c) m' ∧
      (resultState (call.run ext json c)).Shows ext json order m' := by
  obtain ⟨hclock, d, s, hs, h, rfl⟩ := hshows
  have hlater : ∀ n i j, i < j → c.clock (i + n) ≤ c.clock (j + n) := fun n i j hij =>
    hclock _ _ (by omega)
  cases call with
  | set key document ttl =>
    rw [CollectionCall.event, run]
    by_cases hkey : DocKey key
    · cases hitems : json.asDict document with
      | none =>
        rw [set_not_dict key c ttl hkey hitems]
        exact ⟨_, .raised (by simp [CollectionCall.exception, hkey, hitems]), hclock, d, s, hs, h, rfl⟩
      | some items =>
        have hallowed : (CollectionCall.set key document ttl).exception json (expiryMapOf json s) =
            none := by simp [CollectionCall.exception, hkey, hitems]
        have hwrites := set_spec c.indexes c.clock key hs hkey hitems ttl
        generalize Collection.set ext json key document ttl ⟨c.db, c.indexes, c.clock⟩ = result
          at hwrites
        cases hwrites with
        | @committed db' d' hs' _ =>
          refine ⟨_, .returned hallowed, hlater _, d', _, hs', h.set c.indexes hkey hitems ?_, ?_⟩
          · intro value hvalue
            obtain ⟨t, -, rfl⟩ := Option.map_eq_some_iff.mp hvalue
            exact ⟨_, rfl⟩
          · rw [expiryMapOf_setMap hkey]
            cases ttl with
            | none => rfl
            | some ttl =>
              rw [expiryOf, Option.map_some, Option.bind_some, json.asNumber_number]
              rfl
        | @failed db' d' _ hs' hlong =>
          exact ⟨_, .overflowed hlong hallowed (by simp), hlater _, d', s, hs', h, rfl⟩
    · rw [set_refused key c document ttl hkey]
      exact ⟨_, .raised (by simp [CollectionCall.exception, hkey]), hclock, d, s, hs, h, rfl⟩
  | delete key =>
    rw [CollectionCall.event, run]
    by_cases hkey : DocKey key
    · cases hdoc : s key with
      | none =>
        obtain ⟨db', hs', hrun⟩ := delete_absent c.indexes c.clock key hs hkey (by rw [hdoc]; rfl)
        rw [hrun]
        refine ⟨_, .raised ?_, hclock, d, s, hs', h, rfl⟩
        simp [CollectionCall.exception, hkey, (expiryMapOf_eq_none hkey).mpr hdoc]
      | some document =>
        have hallowed : (CollectionCall.delete key).exception json (expiryMapOf json s) = none := by
          simp [CollectionCall.exception, hkey, expiryMapOf_of hkey, hdoc]
        have hwrites := delete_spec c.indexes c.clock key hs hkey
          (by rw [hdoc]; exact h.ne_null hkey hdoc)
        generalize Collection.delete ext json key ⟨c.db, c.indexes, c.clock⟩ = result at hwrites
        cases hwrites with
        | @committed db' d' hs' _ =>
          exact ⟨_, .returned hallowed, hclock, d', _, hs', h.delete c.indexes hkey,
            expiryMapOf_deleteMap hkey⟩
        | @failed db' d' _ hs' hlong =>
          exact ⟨_, .overflowed hlong hallowed (by simp), hclock, d', s, hs', h, rfl⟩
    · rw [delete_refused key c hkey]
      exact ⟨_, .raised (by simp [CollectionCall.exception, hkey]), hclock, d, s, hs, h, rfl⟩
  | createIndex field =>
    obtain ⟨n, l, hl, -, hrun⟩ := createIndex_spec c.indexes c.clock hs h.timed h.nil field
    have hkeys : ∀ key ∈ l, DocKey key := fun key hkey => (hl key hkey).1
    rw [CollectionCall.event, run]
    rcases hrun with ⟨db', d', hrun, hs'⟩ | ⟨-, db', d', hrun, hs', hlong⟩
    · rw [hrun]
      exact ⟨_, .returned rfl, hlater n, d', _, hs', h.backfill field hkeys, expiryMapOf_backfill hkeys⟩
    · rw [hrun]
      exact ⟨_, .overflowed hlong rfl (by simp), hlater n, d', s, hs', h, rfl⟩
  | sweep =>
    obtain ⟨due, gone, rest, db', d', s', -, hdue, hsplit, hs', h', hmap, hsweep⟩ :=
      sweep_spec hs h c.indexes c.clock
    rw [CollectionCall.event, run, run_bind]
    rcases hsweep with ⟨rfl, hrun⟩ | ⟨-, hrun, hlong⟩
    · obtain rfl : due = gone := by rw [hsplit, List.append_nil]
      rw [ExpiryMap.without_eq_sweep hdue] at hmap
      rw [hrun]
      exact ⟨_, .returned rfl, hlater 1, d', s', hs', h', hmap⟩
    · rw [hrun]
      refine ⟨_, .interrupted hlong fun key hkey => ?_, hlater 1, d', s', hs', h', hmap⟩
      exact (hdue key).mp (hsplit ▸ List.mem_append_left _ hkey)

end Collection

/-- **A collection refines a map with expiry.**  After any calls, with any indexed fields
and a clock that does not go back, there is a map with expiry that these calls lead to, and
every method of the collection agrees with it. -/
theorem collection_refines_expiry_map (ext : Externals Text) (json : Json V T) (order : ℕ)
    {events : List (CollectionEvent V T)} {c : Collection T}
    (htraced : Collection.Traced ext json order events c) :
    ∃ m l, ExpiryMap.Run json events m ∧ c.Agrees ext json m l := by
  have hshows : ∃ m, ExpiryMap.Run json events m ∧ c.Shows ext json order m := by
    induction htraced with
    | new hnew hclock =>
      refine ⟨_, .nil, hclock, _, fun _ => none, Handle.stores_new hnew, .empty, ?_⟩
      funext key
      simp [expiryMapOf]
    | call call _ ih =>
      obtain ⟨m, hrun, hshows⟩ := ih
      obtain ⟨m', hcall, hshows'⟩ := hshows.call call
      exact ⟨m', .call hrun hcall, hshows'⟩
  obtain ⟨m, hrun, hshows⟩ := hshows
  obtain ⟨l, hagrees⟩ := hshows.agrees
  exact ⟨m, l, hrun, hagrees⟩

end Runs

theorem collection_refines_expiry_map_sample :
    ∃ (c : Collection ℕ) (overflows : Prop) (m : ExpiryMap Text SampleValue ℕ)
      (l : List (Text × SampleValue × Option ℕ)),
      Collection.Traced textExt docJson 64
        [⟨.set ['k'] (.dict [['f']]) (some 5), 0, .ok (), overflows⟩] c ∧
      ExpiryMap.Run docJson [⟨.set ['k'] (.dict [['f']]) (some 5), 0, .ok (), overflows⟩] m ∧
      c.Agrees textExt docJson m l := by
  obtain ⟨db, c, d, hnew, hrun, -⟩ :=
    sample_set [['f']] (by simp) [['f']] (.inr rfl) (some 5) (by simp)
  have hstart : Collection.Traced textExt docJson 64 []
      ⟨.ofDatabase db, [['f']], fun _ => 0⟩ := .new hnew fun _ _ _ => Nat.le_refl 0
  have htraced := hstart.call (.set ['k'] (.dict [['f']]) (some 5))
  rw [CollectionCall.event, run, hrun] at htraced
  obtain ⟨m, l, hmodel, hagrees⟩ :=
    collection_refines_expiry_map textExt docJson 64 htraced
  exact ⟨c, _, m, l, htraced, hmodel, hagrees⟩
