/-
# `sweep` among other clients

`sweep` collects the keys whose expiry record is due, and then deletes one document after
the other, each in a transaction of its own and without another look at its expiry.  From
the beginning of that transaction on, a change of the document is found by the conflict
check; what other clients write between the scan and that beginning is lost.
-/
import ImmuStore.CollectionClients
import ImmuStore.CollectionIndex

open Collection (expiredAt deleteAll expiredKeys onDb sweep fetch beginWith_delete dbScan)

variable {V T : Type} {json : Json V T} {fields : List Text} {key : Text} {s : Text → Option V}

/-! ## The steps of `sweep` -/

/-- Where a call of `sweep` stands: it has read the clock, it has collected keys, it has
read the document of the first one, it has begun to delete it. -/
inductive SweepPhase (V T : Type) where
  | idle
  | timed (now : T)
  | scanned (now : T) (keys : List Text)
  | fetched (now : T) (key : Text) (document : V) (keys : List Text)
  | began (now : T) (key : Text) (tx : Transaction Text) (keys : List Text)
  | finished
  | raised (e : PyError)

namespace SweepPhase

/-- The reading of the clock. -/
def reading : SweepPhase V T → Option T
  | .timed now => some now
  | .scanned now _ => some now
  | .fetched now _ _ _ => some now
  | .began now _ _ _ => some now
  | _ => none

/-- The collected keys whose deletion has not begun. -/
def waiting : SweepPhase V T → List Text
  | .scanned _ keys => keys
  | .fetched _ key _ keys => key :: keys
  | .began _ _ _ keys => keys
  | _ => []

variable [DecidableEq V] [LE T] [DecidableLE T] (ext : Externals Text) (json : Json V T)

/-- The next step; a `KeyError` of `delete` is passed over. -/
def step : SweepPhase V T → Py (Collection T) (SweepPhase V T)
  | .idle => do
    let now ← Collection.readClock
    return .timed now
  | .timed now => do
    let entries ← dbScan ext json expiryPrefix
    let keys ← ofExcept (expiredKeys json now entries)
    return .scanned now keys
  | .scanned _ [] => return .finished
  | .scanned now (key :: keys) => onKeyError (do
      let document ← fetch ext json key
      return .fetched now key document keys) (return .scanned now keys)
  | .fetched now key document keys => onKeyError (do
      let tx ← Collection.beginWith ext (Collection.deleteBody ext json key document)
      return .began now key tx keys) (return .scanned now keys)
  | .began now _ tx keys => onKeyError (do
      onDb (tx.commit ext)
      return .scanned now keys) (return .scanned now keys)
  | .finished => return .finished
  | .raised e => return .raised e

variable {ext json}

/-- The steps for one key are a call of `delete`. -/
theorem ends_scanned (now : T) (keys : List Text) (c : Collection T) :
    EndsIn (step ext json) (.scanned now keys : SweepPhase V T) c
      ((do
        deleteAll ext json keys
        return .finished : Py (Collection T) (SweepPhase V T)) c) := by
  induction keys generalizing c with
  | nil =>
    have hends : EndsIn (step ext json) (.finished : SweepPhase V T) c (.ok .finished c) := .of_fixed rfl
    exact .of_ok rfl hends
  | cons key keys ih =>
    -- a step that raises: with a `KeyError` the loop goes on, with another error it ends
    have herror : ∀ {phase : SweepPhase V T} {x : Py (Collection T) (SweepPhase V T)}
        {c1 c2 : Collection T} {e : PyError},
        phase.step ext json = onKeyError x (return .scanned now keys) → x c1 = .error e c2 →
        Collection.delete ext json key c = .error e c2 →
        EndsIn (step ext json) phase c1 ((do
          deleteAll ext json (key :: keys)
          return .finished : Py (Collection T) (SweepPhase V T)) c) := by
      intro phase x c1 c2 e hstep hx hdelete
      have hphase := congrFun hstep c1
      simp only [deleteAll, run_bind]
      by_cases he : e = .keyError
      · subst he
        rw [onKeyError_keyError hx] at hphase
        rw [onKeyError_keyError hdelete]
        exact .of_ok hphase (ih c2)
      · rw [onKeyError_error hx he] at hphase
        rw [onKeyError_error hdelete he]
        exact .of_error hphase
    have hdelete := congrFun (Collection.delete_eq ext json key) c
    simp only [run_bind] at hdelete
    cases hfetch : fetch ext json key c with
    | error e c1 => exact herror rfl (by rw [run_bind, hfetch]) (by rw [hdelete, hfetch])
    | ok document c1 =>
      have hstep : (scanned now (key :: keys)).step ext json c = .ok (.fetched now key document keys) c1 :=
        onKeyError_ok (by rw [run_bind, hfetch]; rfl)
      refine .of_ok hstep ?_
      simp only [hfetch] at hdelete
      cases hbegin : Collection.beginWith ext (Collection.deleteBody ext json key document) c1 with
      | error e c2 => exact herror rfl (by rw [run_bind, hbegin]) (by rw [hdelete, hbegin])
      | ok tx c2 =>
        have hstep : (fetched now key document keys).step ext json c1 = .ok (.began now key tx keys) c2 :=
          onKeyError_ok (by rw [run_bind, hbegin]; rfl)
        refine .of_ok hstep ?_
        simp only [hbegin] at hdelete
        cases hcommit : onDb (tx.commit ext) c2 with
        | error e c3 => exact herror rfl (by rw [run_bind, hcommit]) (by rw [hdelete, hcommit])
        | ok _ c3 =>
          have hstep : (began now key tx keys : SweepPhase V T).step ext json c2 = .ok (.scanned now keys) c3 :=
            onKeyError_ok (by rw [run_bind, hcommit]; rfl)
          rw [hcommit] at hdelete
          simp only [deleteAll, run_bind, onKeyError_ok hdelete]
          exact .of_ok hstep (ih c3)

/-- A call of `sweep` that nobody interrupts takes these steps. -/
theorem sweep_takes_steps (c : Collection T) :
    EndsIn (step ext json) (.idle : SweepPhase V T) c
      ((do
        let _ ← sweep ext json
        return .finished : Py (Collection T) (SweepPhase V T)) c) := by
  simp only [sweep, run_bind]
  cases hclock : (Collection.readClock : Py (Collection T) T) c with
  | error e c1 => exact .of_error (by simp only [step, run_bind, hclock])
  | ok now c1 =>
    have hstep : (idle : SweepPhase V T).step ext json c = .ok (.timed now) c1 := by
      simp only [step, run_bind, hclock]
      rfl
    refine .of_ok hstep ?_
    simp only
    cases hscan : dbScan ext json expiryPrefix c1 with
    | error e c2 => exact .of_error (by simp only [step, run_bind, hscan])
    | ok entries c2 =>
      simp only
      cases hkeys : expiredKeys json now entries with
      | error e => exact .of_error (by simp only [step, run_bind, hscan, hkeys]; rfl)
      | ok keys =>
        have hstep : (timed now : SweepPhase V T).step ext json c1 = .ok (.scanned now keys) c2 := by
          simp only [step, run_bind, hscan, hkeys]
          rfl
        refine .of_ok hstep ?_
        have hends : EndsIn (step ext json) (.scanned now keys : SweepPhase V T) c2 _ :=
          ends_scanned now keys c2
        simp only [ofExcept_ok, run_bind] at hends ⊢
        cases hall : deleteAll ext json keys c2 with
        | error e c3 =>
          rw [hall] at hends
          exact hends
        | ok _ c3 =>
          rw [hall] at hends
          exact hends

end SweepPhase

/-! ## A sweep and other clients -/

/-- A call of `sweep` among the calls of other clients. -/
abbrev SweepState (V T : Type) := CallState (SweepPhase V T) V T

section Sweep

variable [DecidableEq V] [LE T] [DecidableLE T]

/-- One step of `sweep`, which may raise, or of another client. -/
abbrev SweepStep (ext : Externals Text) (json : Json V T) :
    SweepState V T → CallEvent V → SweepState V T → Prop :=
  CallStep ext json (SweepPhase.step ext json) SweepPhase.raised

omit [DecidableEq V] in
/-- A step removes expired documents only. -/
def RemovesExpired (ext : Externals Text) (json : Json V T) (st st' : SweepState V T) : Prop :=
  ∀ s s', st.collection.ServesMap ext json s → st'.collection.ServesMap ext json s' →
    ∀ key, DocKey key → s key ≠ none → s' key = none →
    ∃ now, st.phase.reading = some now ∧ expiredAt json s key now = true

omit [DecidableEq V] in
/-- A commit of another client, for a key that `sweep` has collected and not yet begun to
delete, leaves no document there or one that has expired at the reading of the clock. -/
def LeavesExpired (ext : Externals Text) (json : Json V T) (st : SweepState V T) (e : CallEvent V)
    (st' : SweepState V T) : Prop :=
  ∀ key written fields now, e = .client (.commits key written fields) →
    st.phase.reading = some now → key ∈ st.phase.waiting →
    ∀ s, st'.collection.ServesMap ext json s → s key ≠ none →
      expiredAt json s key now = true

omit [DecidableEq V] in
theorem leavesExpired_advances (ext : Externals Text) (json : Json V T) (st st' : SweepState V T) :
    LeavesExpired ext json st .advances st' := by
  intro key written fields now he
  cases he

/-! ### What is known of a sweep -/

omit [DecidableEq V] in
/-- A collected key comes from an expiry record that is due. -/
theorem mem_of_expiredKeys {now : T} {entries : List (Text × V)} {keys : List Text}
    (h : expiredKeys json now entries = .ok keys) {k : Text} (hk : k ∈ keys) :
    ∃ e ∈ entries, ∃ t, json.asNumber e.2 = some t ∧ t ≤ now ∧ k = e.1.drop expiryPrefix.length := by
  induction entries generalizing keys with
  | nil =>
    obtain rfl : [] = keys := Except.ok.inj h
    cases hk
  | cons e entries ih =>
    obtain ⟨x, value⟩ := e
    rw [expiredKeys] at h
    cases hnumber : json.asNumber value with
    | none => simp [hnumber] at h
    | some t =>
      rw [hnumber] at h
      obtain ⟨rest, hrest, hkeys⟩ := Except.bind_eq_ok.mp h
      have hlater : k ∈ rest → ∃ e ∈ (x, value) :: entries, ∃ t, json.asNumber e.2 = some t ∧
          t ≤ now ∧ k = e.1.drop expiryPrefix.length := by
        intro hmem
        obtain ⟨e, he, htime⟩ := ih hrest hmem
        exact ⟨e, .tail _ he, htime⟩
      by_cases hle : t ≤ now
      · rw [if_pos hle] at hkeys
        cases hkeys
        rcases List.mem_cons.mp hk with rfl | hk
        · exact ⟨(x, value), .head _, t, hnumber, hle, rfl⟩
        · exact hlater hk
      · rw [if_neg hle] at hkeys
        cases hkeys
        exact hlater hk

omit [DecidableEq V] in
/-- The document under a key is due, in a strict sense or in none. -/
def Due (json : Json V T) (strict : Prop) (now : T) (s : Text → Option V) (k : Text) : Prop :=
  strict → s k ≠ none → expiredAt json s k now = true

section Due

variable {strict : Prop} {now : T} {s' : Text → Option V} {k : Text}

omit [DecidableEq V] in
theorem Due.congr (h : Due json strict now s k) (hdocument : s' k = s k)
    (hexpiry : s' (expiryKey k) = s (expiryKey k)) : Due json strict now s' k := by
  intro hstrict hbound
  rw [Collection.expiredAt_congr hexpiry]
  exact h hstrict (hdocument ▸ hbound)

omit [DecidableEq V] in
/-- A removal leaves what is due due. -/
theorem Due.removed (h : Due json strict now s k) (hk : DocKey k) (hkey : DocKey key)
    (hlanded : Landed json key none fields s s') : Due json strict now s' k := by
  by_cases hne : k = key
  · subst hne
    intro _ hbound
    exact absurd hlanded.document hbound
  · exact h.congr (hlanded.document_of_ne hk hne) (hlanded.expiry_of_ne hkey hne)

end Due

namespace SweepPhase

omit [DecidableEq V] in
/-- What is known of a call of `sweep`: the documents it is going to delete are due. -/
def Ok (ext : Externals Text) (order : ℕ) (json : Json V T) (strict : Prop) (d : Disk)
    (s : Text → Option V) : SweepPhase V T → Prop
  | .scanned now keys => ∀ k ∈ keys, DocKey k → Due json strict now s k
  | .fetched now key _ keys =>
    DocKey key ∧ ∀ k ∈ key :: keys, DocKey k → Due json strict now s k
  | .began now key tx keys => DocKey key ∧
    (∀ k ∈ keys, DocKey k → Due json strict now s k) ∧
    ∃ fields b s', Prepared ext order json d key none fields b s' tx ∧
      s' (expiryKey key) = none ∧ Due json strict now b key
  | _ => True

variable {ext : Externals Text} {order : ℕ} {strict : Prop} {d d' : Disk} {s' : Text → Option V}
  {phase : SweepPhase V T}

omit [DecidableEq V] in
/-- What is known stays known if the collected documents stay due. -/
theorem Ok.mono (h : phase.Ok ext order json strict d s)
    (hrecords : Storage.SameRecords d.live.size d.live d'.live)
    (hdue : ∀ now k, phase.reading = some now → k ∈ phase.waiting → DocKey k →
      Due json strict now s k → Due json strict now s' k) :
    phase.Ok ext order json strict d' s' := by
  cases phase with
  | scanned now keys => exact fun k hk hkey => hdue now k rfl hk hkey (h k hk hkey)
  | fetched now key document keys =>
    exact ⟨h.1, fun k hk hkey => hdue now k rfl hk hkey (h.2 k hk hkey)⟩
  | began now key tx keys =>
    obtain ⟨hkey, hkeys, fields, b, s1, hprepared, hexpiry, hb⟩ := h
    exact ⟨hkey, fun k hk hk' => hdue now k rfl hk hk' (hkeys k hk hk'), fields, b, s1,
      hprepared.mono hrecords, hexpiry, hb⟩
  | _ => trivial

omit [DecidableEq V] in
/-- What a step of `sweep` does: it reads, it removes a document that is due, or it
raises. -/
inductive Stepped (ext : Externals Text) (order : ℕ) (json : Json V T) (strict : Prop) (d : Disk)
    (s : Text → Option V) (phase : SweepPhase V T) :
    EStateM.Result PyError (Collection T) (SweepPhase V T) → Prop
  | reads {phase' : SweepPhase V T} {c' : Collection T} :
      c'.db.Stores ext order json.encode d s → phase'.Ok ext order json strict d s →
      Stepped ext order json strict d s phase (.ok phase' c')
  | removes {phase' : SweepPhase V T} {c' : Collection T} {now : T} {key : Text} {fields : List Text}
      {d' : Disk} {s' : Text → Option V} : phase.reading = some now → DocKey key →
      Landed json key none fields s s' → Due json strict now s key →
      c'.db.Stores ext order json.encode d' s' →
      Storage.SameRecords d.live.size d.live d'.live → phase'.Ok ext order json strict d' s' →
      Stepped ext order json strict d s phase (.ok phase' c')
  | raises {e : PyError} {c' : Collection T} {d' : Disk} :
      c'.db.Stores ext order json.encode d' s →
      Storage.SameRecords d.live.size d.live d'.live →
      Stepped ext order json strict d s phase (.error e c')

/-- One step of `sweep`. -/
theorem step_spec {c : Collection T} (hs : c.db.Stores ext order json.encode d s)
    (hok : phase.Ok ext order json strict d s) :
    Stepped ext order json strict d s phase (phase.step ext json c) := by
  cases phase with
  | idle => exact .reads hs trivial
  | timed now =>
    obtain ⟨db', l, hs', hl, hscan⟩ := Collection.dbScan_spec hs c.indexes c.clock
      (by decide : expiryPrefix ≠ [])
    simp only [step, run_bind, hscan]
    cases hkeys : expiredKeys json now (l.filter fun e => expiryPrefix.isPrefixOf e.1) with
    | error e => exact .raises hs' ⟨le_rfl, fun _ _ _ => rfl⟩
    | ok keys =>
      refine .reads hs' fun k hk _ _ _ => ?_
      obtain ⟨⟨x, value⟩, he, t, ht, hle, rfl⟩ := mem_of_expiredKeys hkeys hk
      obtain ⟨hmem, hpre⟩ := List.mem_filter.mp he
      obtain ⟨rest, rfl⟩ := List.isPrefixOf_iff_prefix.mp hpre
      have hvalue : s (expiryKey rest) = some value := (hl.mem_iff _ _).mp hmem
      simp [expiredAt, hvalue, ht, hle]
  | scanned now keys => cases keys with
    | nil => exact .reads hs trivial
    | cons key keys =>
      have hrest : ∀ k ∈ keys, DocKey k → Due json strict now s k := fun k hk =>
        hok k (.tail _ hk)
      rcases Collection.fetch_spec hs c.indexes c.clock key with
        hrun | ⟨hkey, db', hs', hrun | ⟨document, hrun⟩⟩
      · rw [step, onKeyError_error (by rw [run_bind, hrun]) (by simp)]
        exact .raises hs ⟨le_rfl, fun _ _ _ => rfl⟩
      · rw [step, onKeyError_keyError (by rw [run_bind, hrun])]
        exact .reads hs' hrest
      · rw [step, onKeyError_ok (by rw [run_bind, hrun]; rfl)]
        exact .reads hs' ⟨hkey, hok⟩
  | fetched now key document keys =>
    obtain ⟨hkey, hdue⟩ := hok
    have hrest : ∀ k ∈ keys, DocKey k → Due json strict now s k := fun k hk =>
      hdue k (.tail _ hk)
    by_cases hbound : s key = none
    · obtain ⟨db', hrun, hs'⟩ :=
        Collection.beginWith_delete_absent hs c.indexes c.clock hkey document hbound
      rw [step, onKeyError_keyError (by rw [run_bind, hrun])]
      exact .reads hs' hrest
    · obtain ⟨tx, db', hrun, hs', hprepared⟩ :=
        beginWith_delete hs c.indexes c.clock hkey document hbound
      rw [step, onKeyError_ok (by rw [run_bind, hrun]; rfl)]
      exact .reads hs' ⟨hkey, hrest, c.indexes, s, _, hprepared, deleteReadMap_expiryKey,
        hdue key (.head _) hkey⟩
  | began now key tx keys =>
    obtain ⟨hkey, hrest, fields, b, s', hprepared, hexpiry, hdue⟩ := hok
    rcases hprepared.commit hs c.indexes c.clock with
      ⟨db', d', hrun, hs', hrecords, hsame⟩ | ⟨e, db', d', hrun, he, hs', hrecords⟩
    · have hlanded := hprepared.landed s
      rw [step, onKeyError_ok (by rw [run_bind, hrun]; rfl)]
      refine .removes rfl hkey hlanded ?_ hs' hrecords fun k hk hk' =>
        (hrest k hk hk').removed hk' hkey hlanded
      -- the expiry record the transaction began with is among the keys it has checked
      intro hstrict hbound
      have hexpired := hdue hstrict (by rw [hsame key hprepared.self]; exact hbound)
      have htouched : tx.Touches (expiryKey key) := by
        refine hprepared.overlays.touches_of_ne ?_ json.roundTrips.injective
        rw [hexpiry]
        intro hnone
        simp [expiredAt, ← hnone] at hexpired
      rwa [Collection.expiredAt_congr (hsame _ htouched)] at hexpired
    · rw [step, onKeyError_error (by rw [run_bind, hrun]) he]
      exact .raises hs' hrecords
  | finished => exact .reads hs trivial
  | raised e => exact .reads hs trivial

end SweepPhase

/-! ### Runs -/

omit [DecidableEq V] in
/-- What holds in every state of a run. -/
def SweepState.Inv (ext : Externals Text) (order : ℕ) (json : Json V T) (strict : Prop)
    (st : SweepState V T) : Prop :=
  ∃ d s, st.collection.db.Stores ext order json.encode d s ∧ WellFormed json s ∧
    st.phase.Ok ext order json strict d s ∧
    ∀ call ∈ st.pool, call.Ok ext order json Set.univ d

section Inv

variable {ext : Externals Text} {order : ℕ} {strict : Prop} {st st' : SweepState V T}
  {e : CallEvent V}

/-- A step keeps the invariant; in the strict sense, if another client's commit leaves
expired what `sweep` has collected. -/
theorem SweepState.Inv.step (h : st.Inv ext order json strict) (hstep : SweepStep ext json st e st')
    (hmeets : strict → LeavesExpired ext json st e st') : st'.Inv ext order json strict := by
  obtain ⟨d, s, hs, hformed, hok, hpool⟩ := h
  cases hstep with
  | @advances c c' phase phase' pool hrun =>
    have hstepped := SweepPhase.step_spec hs hok
    rw [hrun] at hstepped
    cases hstepped with
    | reads hs' hok' => exact ⟨d, s, hs', hformed, hok', hpool⟩
    | removes _ hkey hlanded _ hs' hrecords hok' =>
      exact ⟨_, _, hs', hlanded.wellFormed hformed hkey, hok', fun call hcall =>
        (hpool call hcall).mono hrecords⟩
  | @raises c c' phase pool e hrun =>
    have hstepped := SweepPhase.step_spec hs hok
    rw [hrun] at hstepped
    cases hstepped with
    | raises hs' hrecords =>
      exact ⟨_, s, hs', hformed, trivial, fun call hcall => (hpool call hcall).mono hrecords⟩
  | @client c c' phase pool pool' e hclient =>
    obtain ⟨d', s', hs', hrecords, hpool', -, -, heffect⟩ :=
      hclient.spec hs (fun _ _ => Set.mem_univ _) hpool
    refine ⟨d', s', hs', heffect.wellFormed hformed, hok.mono hrecords ?_, hpool'⟩
    intro now k hreading hwaiting hk hdue
    rcases heffect with rfl | ⟨key, written, fields, rfl, hkey, -, hlanded⟩
    · exact hdue
    · by_cases hne : k = key
      · subst hne
        exact fun hstrict => hmeets hstrict k written fields now rfl hreading hwaiting s' hs'.serves
      · exact hdue.congr (hlanded.document_of_ne hk hne) (hlanded.expiry_of_ne hkey hne)

/-- What a step of `sweep` removes has expired. -/
theorem SweepState.Inv.removesExpired (h : st.Inv ext order json True)
    (hstep : SweepStep ext json st .advances st') : RemovesExpired ext json st st' := by
  intro s1 s1' hserves hserves' k hk hbound hgone
  obtain ⟨d, s, hs, -, hok, -⟩ := h
  obtain rfl := hserves.eq hs
  have hstepped := SweepPhase.step_spec hs hok
  cases hstep with
  | @advances c c' phase phase' pool hrun =>
    rw [hrun] at hstepped
    cases hstepped with
    | reads hs' =>
      obtain rfl := hserves'.eq hs'
      exact absurd hgone hbound
    | @removes _ _ now key fields d' s' hreading hkey hlanded hdue hs' =>
      obtain rfl := hserves'.eq hs'
      by_cases hne : k = key
      · subst hne
        exact ⟨now, hreading, hdue trivial hbound⟩
      · exact absurd ((hlanded.document_of_ne hk hne).symm.trans hgone) hbound
  | @raises c c' phase pool e hrun =>
    rw [hrun] at hstepped
    cases hstepped with
    | raises hs' =>
      obtain rfl := hserves'.eq hs'
      exact absurd hgone hbound

/-- If nobody else acts, `sweep` removes a document it has collected, whatever its expiry
is by then, or something is too long to be written. -/
theorem SweepPhase.removes_collected {c : Collection T} {d : Disk}
    (hs : c.db.Stores ext order json.encode d s) (hformed : WellFormed json s)
    (hkey : DocKey key) (hbound : s key ≠ none) (now : T) (keys : List Text) :
    ∃ c', iterate (step ext json) 3 (.scanned now (key :: keys)) c = .error .structError c' ∨
      iterate (step ext json) 3 (.scanned now (key :: keys)) c = .ok (.scanned now keys) c' ∧
        ∃ s', c'.ServesMap ext json s' ∧ s' key = none := by
  obtain ⟨document, hdocument⟩ := Option.ne_none_iff_exists'.mp hbound
  obtain ⟨db1, hfetch, hs1⟩ := Collection.fetch_of_some hs c.indexes c.clock hkey hdocument
    (hformed.ne_null hkey hdocument)
  obtain ⟨tx, db2, hbegin, hs2, hprepared⟩ :=
    beginWith_delete hs1 c.indexes c.clock hkey document hbound
  have hfetched : step ext json (.scanned now (key :: keys)) c = .ok (.fetched now key document keys) _ :=
    onKeyError_ok (by rw [run_bind, hfetch]; rfl)
  have hbegan : step ext json (.fetched now key document keys) ⟨db1, c.indexes, c.clock⟩ =
      .ok (.began now key tx keys) _ := onKeyError_ok (by rw [run_bind, hbegin]; rfl)
  simp only [iterate, run_bind, hfetched, hbegan]
  rcases hprepared.commit_same hs2 c.indexes c.clock with ⟨db3, d3, hcommit, hs3⟩ | ⟨db3, hcommit⟩
  · have hremoved : step ext json (.began now key tx keys) ⟨db2, c.indexes, c.clock⟩ =
        .ok (.scanned now keys) _ := onKeyError_ok (by rw [run_bind, hcommit]; rfl)
    rw [hremoved]
    exact ⟨_, .inr ⟨rfl, _, hs3.serves, hprepared.written_eq⟩⟩
  · have hraised : step ext json (.began now key tx keys) ⟨db2, c.indexes, c.clock⟩ = .error .structError _ :=
      onKeyError_error (by rw [run_bind, hcommit]) (by simp)
    rw [hraised]
    exact ⟨_, .inl rfl⟩

end Inv

/-- **What `sweep` removes among other clients.**  `sweep` is called on a collection that
has been reached from an empty database, and other clients call `set` and `delete` in
between its steps.  If no commit of theirs leaves a document that has not expired under a
key that `sweep` has collected and not yet begun to delete, then every document that a
step of `sweep` removes has expired at the reading of the clock, in the state in which the
removal is committed.  The condition cannot be spared: in any run, a document under the
next collected key is removed by the next steps of `sweep`, whatever its expiry is. -/
theorem sweep_removes_expired (ext : Externals Text) (json : Json V T) (order : ℕ) {names : Set Text}
    {c : Collection T} (hreached : Collection.Reached ext json order names c) :
    (∀ st st', Run (SweepStep ext json) (LeavesExpired ext json) ⟨c, .idle, []⟩ st →
      SweepStep ext json st .advances st' → RemovesExpired ext json st st') ∧
    ∀ st, Run (SweepStep ext json) (fun _ _ _ => True) ⟨c, .idle, []⟩ st →
      ∀ now key keys s, st.phase = .scanned now (key :: keys) →
      st.collection.ServesMap ext json s → DocKey key → s key ≠ none →
      ∃ c', iterate (SweepPhase.step ext json) 3 st.phase st.collection = .error .structError c' ∨
        iterate (SweepPhase.step ext json) 3 st.phase st.collection = .ok (.scanned now keys) c' ∧
          ∃ s', c'.ServesMap ext json s' ∧ s' key = none := by
  obtain ⟨d, s, hs, hdocumented⟩ := hreached.documented
  have hstart : ∀ strict, SweepState.Inv ext order json strict ⟨c, .idle, []⟩ := fun strict =>
    ⟨d, s, hs, hdocumented.toWellFormed, trivial, by simp⟩
  constructor
  · intro st st' hrun hstep
    have hinv := hrun.invariant (hstart True) fun st e st' hinv hstep hmeets =>
      hinv.step hstep fun _ => hmeets
    exact hinv.removesExpired hstep
  · intro st hrun now key keys s1 hphase hserves hkey hbound
    obtain ⟨d1, s2, hs2, hformed, -, -⟩ := hrun.invariant (hstart False)
      fun st e st' hinv hstep _ => hinv.step hstep False.elim
    obtain rfl := hserves.eq hs2
    rw [hphase]
    exact SweepPhase.removes_collected hs2 hformed hkey hbound now keys

end Sweep

/-! ### A sample -/

/-- The map of a collection without indexes that has a document under `k`, with or without
an expiry. -/
noncomputable def expiringDocument (expiry : Option SampleValue) : Text → Option SampleValue :=
  sampleSet [] [] expiry fun _ => none

/-- Nothing else is stored. -/
theorem expiringDocument_other (expiry : Option SampleValue) {x : Text} (hk : x ≠ ['k'])
    (hx : x ≠ expiryKey ['k']) : expiringDocument expiry x = none :=
  setMap_other hx hk (by simp [oldEntries]) (by simp [entriesOf])

theorem sampled_expiring (n : ℕ) (hn : n < 10 ^ 9) : Sampled (expiringDocument (some (.number n))) := by
  refine Sampled.empty.set (by simp) (.inl rfl) _ fun value hvalue => ?_
  obtain rfl := Option.mem_some_iff.mp hvalue
  exact length_encode_number hn

/-- A document that is written with a time to live of 0 is collected at once. -/
theorem sample_scanned : ∃ (c c1 c2 : Collection ℕ) (d : Disk),
    Collection.Reached textExt docJson 64 Set.univ c ∧
    SweepStep textExt docJson ⟨c, .idle, []⟩ .advances ⟨c1, .timed 0, []⟩ ∧
    SweepStep textExt docJson ⟨c1, .timed 0, []⟩ .advances ⟨c2, .scanned 0 [['k']], []⟩ ∧
    c2.indexes = [] ∧ c2.clock = (fun _ => 0) ∧
    c2.db.Stores textExt 64 docJson.encode d (expiringDocument (some (.number 0))) ∧
    Roomy textExt 64 999999 d := by
  obtain ⟨db, c, d', hnew, hrun, hindexes, hclock, hs', hroom'⟩ :=
    sample_set [] (by simp) [] (.inl rfl) (some 0) (by simp)
  obtain ⟨db', fields, clock⟩ := c
  obtain rfl : fields = [] := hindexes
  obtain rfl : clock = fun _ => 0 := hclock
  change db'.Stores _ _ _ _ (expiringDocument (some (.number 0))) at hs'
  have hstart : Collection.Reached textExt docJson 64 Set.univ
      ⟨.ofDatabase db, [], fun _ => 0⟩ := .new hnew (by simp) fun i j _ => Nat.le_refl 0
  have hreached := hstart.call (.set ['k'] (.dict []) (some 0)) (by simp [CollectionCall.names])
  rw [CollectionCall.run, hrun] at hreached
  obtain ⟨db2, l, hs2, hl, hscan⟩ := Collection.dbScan_spec hs' [] (fun _ => 0)
    (by decide : expiryPrefix ≠ [])
  -- the expiry record of `k` is the only one
  have hentries : (l.filter fun e => expiryPrefix.isPrefixOf e.1) = [(expiryKey ['k'], .number 0)] := by
    refine Represents.unique (f := fun x =>
      if x = expiryKey ['k'] then some (SampleValue.number 0) else none) ⟨hl.increasing.filter _, ?_⟩
      ⟨List.pairwise_singleton .., fun x value => ?_⟩
    · intro x value
      rw [List.mem_filter, hl.mem_iff]
      by_cases hx : x = expiryKey ['k']
      · subst hx
        have hexpiry : expiringDocument (some (.number 0)) (expiryKey ['k']) = some (.number 0) :=
          setMap_expiryKey
        rw [hexpiry, if_pos rfl]
        exact and_iff_left (List.isPrefixOf_iff_prefix.mpr (List.prefix_append ..))
      · rw [if_neg hx]
        by_cases hk : x = ['k']
        · subst hk
          have hpre : expiryPrefix.isPrefixOf ['k'] = false := by decide
          simp [hpre]
        · simp [expiringDocument_other _ hk hx]
    · simp [eq_comm]
  have hstep : (SweepPhase.timed 0).step textExt docJson ⟨db', [], fun _ => 0⟩ =
      .ok (.scanned 0 [['k']]) ⟨db2, [], fun _ => 0⟩ := by
    simp only [SweepPhase.step, run_bind, hscan, hentries]
    rfl
  exact ⟨_, _, ⟨db2, [], fun _ => 0⟩, d', hreached, .advances rfl, .advances hstep, rfl, rfl, hs2,
    hroom'⟩

/-- `sweep` removes the document of a sample collection that it has collected. -/
theorem sample_removes {c : Collection ℕ} {d : Disk} {s : Text → Option SampleValue} {n : ℕ}
    (hs : c.db.Stores textExt 64 docJson.encode d s)
    (hsampled : Sampled s) (hroom : Roomy textExt 64 (n + 1) d)
    (hk : s ['k'] = some (.dict [])) :
    ∃ (c1 c2 c3 : Collection ℕ) (tx : Transaction Text) (s' : Text → Option SampleValue),
      SweepStep textExt docJson ⟨c, .scanned 0 [['k']], []⟩ .advances
        ⟨c1, .fetched 0 ['k'] (.dict []) [], []⟩ ∧
      SweepStep textExt docJson ⟨c1, .fetched 0 ['k'] (.dict []) [], []⟩ .advances
        ⟨c2, .began 0 ['k'] tx [], []⟩ ∧
      SweepStep textExt docJson ⟨c2, .began 0 ['k'] tx [], []⟩ .advances
        ⟨c3, .scanned 0 [], []⟩ ∧
      c2.ServesMap textExt docJson s ∧
      c3.ServesMap textExt docJson s' ∧ s' ['k'] = none := by
  obtain ⟨db1, hfetch, hs1⟩ := Collection.fetch_of_some hs c.indexes c.clock docKey_k hk (by decide)
  obtain ⟨tx, db2, hbegin, hs2, hprepared⟩ :=
    beginWith_delete hs1 c.indexes c.clock docKey_k (.dict []) (by simp [hk])
  have hshort : Sampled (deleteReadMap docJson c.indexes ['k'] (.dict []) s) :=
    hsampled.congr fun x value hvalue => .inl (of_deleteReadMap hvalue)
  obtain ⟨db3, d3, hcommit, hs3, -, -⟩ :=
    hprepared.commit_returns hs2 c.indexes c.clock hshort.short hroom
  refine ⟨⟨db1, c.indexes, c.clock⟩, ⟨db2, c.indexes, c.clock⟩, ⟨db3, c.indexes, c.clock⟩, tx, _,
    .advances (onKeyError_ok (by rw [run_bind, hfetch]; rfl)),
    .advances (onKeyError_ok (by rw [run_bind, hbegin]; rfl)),
    .advances (onKeyError_ok (by rw [run_bind, hcommit]; rfl)), hs2.serves, hs3.serves,
    hprepared.written_eq⟩

/-- The document that has been collected, written anew. -/
noncomputable def rewrittenDocument (ttl : Option ℕ) : Text → Option SampleValue :=
  sampleSet [] [] (Collection.expiryOf docJson (fun _ => 0) ttl) (expiringDocument (some (.number 0)))

/-- Another client writes the document anew after it has been collected; it is removed all the
same. -/
theorem sample_rewritten (ttl : Option ℕ) (httl : ∀ t ∈ ttl, t = 0) :
    ∃ (c : Collection ℕ) (st st' : SweepState SampleValue ℕ) (s' : Text → Option SampleValue),
      Collection.Reached textExt docJson 64 Set.univ c ∧
      (∀ Meets : SweepState SampleValue ℕ → CallEvent SampleValue → SweepState SampleValue ℕ → Prop,
        (∀ st st', Meets st .advances st') → (∀ st st', Meets st (.client .works) st') →
        (∀ st st', st.phase = .scanned 0 [['k']] →
          st'.collection.ServesMap textExt docJson (rewrittenDocument ttl) →
          Meets st (.client (.commits ['k'] (some (.dict [])) [])) st') →
        Run (SweepStep textExt docJson) Meets ⟨c, .idle, []⟩ st) ∧
      SweepStep textExt docJson st .advances st' ∧
      st.collection.ServesMap textExt docJson (rewrittenDocument ttl) ∧
      st'.collection.ServesMap textExt docJson s' ∧
      st.phase.reading = some 0 ∧ s' ['k'] = none := by
  obtain ⟨c, c1, c2, d, hreached, hfirst, hsecond, hindexes, hclock, hs, hroom⟩ := sample_scanned
  have hsampled : Sampled (rewrittenDocument ttl) := by
    refine (sampled_expiring 0 (by omega)).set (by simp) (.inl rfl) _ fun value hvalue => ?_
    cases ttl with
    | none => cases hvalue
    | some t =>
      obtain rfl := httl t rfl
      obtain rfl := Option.mem_some_iff.mp hvalue
      exact length_encode_number (by decide : 0 < 10 ^ 9)
  -- the other client's call of `set` lies between the scan and the first read
  obtain ⟨c3, c4, c5, tx1, tx2, d', hbegins, hwrites, hcommits, -, -, hs5, -, hroom5⟩ :=
    ClientStep.set_alone hs docKey_k (rfl : docJson.asDict (.dict []) = some _) ttl
      (by rw [hindexes, hclock]; exact hsampled.short) hroom []
  rw [hindexes] at hwrites hcommits
  rw [hindexes, hclock] at hs5
  obtain ⟨c6, c7, c8, tx, s', hthird, hfourth, hfifth, hs7, hs8, hgone⟩ :=
    sample_removes hs5 hsampled hroom5 (setMap_key docKey_k)
  refine ⟨c, _, _, s', hreached, fun Meets hadvances hworks hcommit => ?_, hfifth, hs7, hs8, rfl, hgone⟩
  exact ((((((Run.refl.step hfirst (hadvances _ _)).step hsecond (hadvances _ _)).step
    (.client hbegins) (hworks _ _)).step (.client hwrites) (hworks _ _)).step (.client hcommits)
    (hcommit _ _ rfl hs5.serves)).step hthird (hadvances _ _)).step hfourth (hadvances _ _)

/-- The other client writes a document that has expired by then. -/
theorem sweep_removes_expired_sample :
    ∃ (c : Collection ℕ) (st st' : SweepState SampleValue ℕ) (s s' : Text → Option SampleValue),
      Collection.Reached textExt docJson 64 Set.univ c ∧
      Run (SweepStep textExt docJson) (LeavesExpired textExt docJson)
        ⟨c, .idle, []⟩ st ∧
      SweepStep textExt docJson st .advances st' ∧
      st.collection.ServesMap textExt docJson s ∧
      st'.collection.ServesMap textExt docJson s' ∧
      s ['k'] = some (.dict []) ∧ s' ['k'] = none ∧
      RemovesExpired textExt docJson st st' := by
  obtain ⟨c, st, st', s', hreached, hruns, hstep, hserves, hserves', -, hgone⟩ :=
    sample_rewritten (some 0) (by simp)
  have hrun := hruns (LeavesExpired textExt docJson) (leavesExpired_advances _ _)
    (fun _ _ _ _ _ _ he => by cases he) fun st st' hphase hafter key written fields now he hnow _ s hs _ => by
      cases he
      rw [hphase] at hnow
      cases hnow
      obtain rfl : s = rewrittenDocument (some 0) :=
        stored_injective docJson.roundTrips (hs.unique hafter)
      rw [expiredAt, rewrittenDocument, sampleSet, setMap_expiryKey]
      rfl
  exact ⟨c, st, st', _, s', hreached, hrun, hstep, hserves, hserves', setMap_key docKey_k, hgone,
    (sweep_removes_expired textExt docJson 64 hreached).1 _ _ hrun hstep⟩

/-- The other client writes a document without a time to live. -/
theorem sweep_removes_rewritten :
    ∃ (c : Collection ℕ) (st st' : SweepState SampleValue ℕ) (s s' : Text → Option SampleValue),
      Collection.Reached textExt docJson 64 Set.univ c ∧
      Run (SweepStep textExt docJson) (fun _ _ _ => True) ⟨c, .idle, []⟩ st ∧
      SweepStep textExt docJson st .advances st' ∧
      st.collection.ServesMap textExt docJson s ∧
      st'.collection.ServesMap textExt docJson s' ∧
      st.phase.reading = some 0 ∧ s ['k'] = some (.dict []) ∧
      expiredAt docJson s ['k'] 0 = false ∧ s' ['k'] = none := by
  obtain ⟨c, st, st', s', hreached, hruns, hstep, hserves, hserves', hreading, hgone⟩ :=
    sample_rewritten none (by simp)
  refine ⟨c, st, st', _, s', hreached,
    hruns _ (fun _ _ => trivial) (fun _ _ => trivial) fun _ _ _ _ => trivial, hstep, hserves, hserves',
    hreading, setMap_key docKey_k, ?_, hgone⟩
  rw [expiredAt, rewrittenDocument, sampleSet, setMap_expiryKey]
  rfl
