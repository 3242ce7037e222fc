/-
# The two index engines (`interface.py`)

`DBDB` works with either engine.  An engine is what it asks of one; its methods over an
engine are those of the mapping.  An engine that implements versioned maps answers every
call as a versioned map does, until a commit raises `struct.error`; both engines do.
-/
import ImmuStore.BinarySpec
import ImmuStore.InterfaceSpec
import ImmuStore.Recovery

open Function Storage

variable {α V : Type}

/-- An index engine over its storage: what `DBDB` and its transactions call. -/
structure Engine (α : Type) where
  State : Type
  disk : State → Disk
  blank : Disk → State
  connect : Py State Unit
  lock : Py State Bool
  unlock : State → State
  refresh : Py State Unit
  /-- `get_root_address` and `get_key_count`: the meta block is read, and cached -/
  readMeta : Py State Meta
  get : α → Py State Bytes
  set : α → Bytes → Py State Unit
  delete : α → Py State Unit
  length : Py State ℤ
  items : Py State (List (α × Bytes))
  rangeItems : Option α → Option α → Py State (List (α × Bytes))
  /-- `audit().ok` -/
  auditOk : Py State Bool
  commit : Py State Unit

/-- `DEFAULT_ORDER`. -/
def defaultOrder : ℕ := 64

/-- `get_root_address` and `get_key_count`. -/
def Database.readMeta (ext : Externals α) : Py (Database α) Meta := fun db =>
  match readBestMeta ext.crc32 db.disk.live with
  | .error e => .error e db
  | .ok m => .ok m { db with cached := m }

/-- `get_root_address` and `get_key_count`. -/
def BinaryDatabase.readMeta (p : Pickle α) : Py (BinaryDatabase α) Meta := fun db =>
  match readBestMeta p.crc32 db.disk.live with
  | .error e => .error e db
  | .ok m => .ok m { db with cached := m }

/-- `index="bplus"`. -/
def bplusEngine [LinearOrder α] (ext : Externals α) (order : ℕ) : Engine α where
  State := Database α
  disk := Database.disk
  blank := Database.blank order
  connect := Database.connect ext
  lock := Database.lock
  unlock db := { db with locked := false }
  refresh := Database.refresh ext
  readMeta := Database.readMeta ext
  get := Database.get ext
  set := Database.set ext
  delete := Database.delete ext
  length := Database.length ext
  items := Database.items ext
  rangeItems := Database.rangeItems ext
  auditOk := (fun report => report.errors.isEmpty) <$> Database.audit ext
  commit := Database.commit ext

/-- `index="binary"`. -/
def binaryEngine [LinearOrder α] (p : Pickle α) : Engine α where
  State := BinaryDatabase α
  disk := BinaryDatabase.disk
  blank := BinaryDatabase.blank
  connect := BinaryDatabase.connect p
  lock := BinaryDatabase.lock
  unlock := BinaryDatabase.unlock
  refresh := BinaryDatabase.refresh p
  readMeta := BinaryDatabase.readMeta p
  get := BinaryDatabase.get p
  set := BinaryDatabase.set p
  delete := BinaryDatabase.delete p
  length := BinaryDatabase.length p
  items := BinaryDatabase.items p
  rangeItems := BinaryDatabase.rangeItems p
  auditOk := (fun report => report.errors.isEmpty) <$> BinaryDatabase.audit p
  commit := BinaryDatabase.commit p

/-! ## The mapping over an engine -/

namespace Engine

variable (E : Engine α) (codec : Codec α V)

/-- `_validate_key`. -/
def validateKey (key : α) : Py E.State Unit :=
  if codec.validKey key then pure () else throw .keyEncodingError

/-- `_validate_key` of an argument that may be left out. -/
def validateBound : Option α → Py E.State Unit
  | none => pure ()
  | some key => E.validateKey codec key

/-- `__getitem__`. -/
def getItem (key : α) : Py E.State V := do
  E.validateKey codec key
  let payload ← E.get key
  ofExcept (codec.decode payload)

/-- `__setitem__`. -/
def setItem (key : α) (value : V) : Py E.State Unit := do
  E.validateKey codec key
  let payload ← ofExcept (codec.encode value)
  E.set key payload

/-- `__delitem__`. -/
def delItem (key : α) : Py E.State Unit := do
  E.validateKey codec key
  E.delete key

/-- `__contains__`, of the mapping protocol. -/
def contains (key : α) : Py E.State Bool :=
  onKeyError ((fun _ => true) <$> E.getItem codec key) (pure false)

/-- `items`. -/
def mapItems : Py E.State (List (α × V)) := do
  let entries ← E.items
  ofExcept (codec.decodeAll entries)

/-- `scan`. -/
def scan (pre start stop : Option α) : Py E.State (List (α × V)) := do
  E.validateBound codec pre
  E.validateBound codec start
  E.validateBound codec stop
  let entries ← E.rangeItems start stop
  ofExcept (codec.decodeAll (codec.withPre pre entries))

/-- With the B+ tree these are the methods of the mapping. -/
theorem bplus_methods [LinearOrder α] (ext : Externals α) (order : ℕ) :
    (bplusEngine ext order).getItem codec = DBDB.getItem ext codec ∧
    (bplusEngine ext order).setItem codec = DBDB.setItem ext codec ∧
    (bplusEngine ext order).delItem codec = DBDB.delItem ext codec ∧
    (bplusEngine ext order).contains codec = DBDB.contains ext codec ∧
    (bplusEngine ext order).mapItems codec = DBDB.items ext codec ∧
    (bplusEngine ext order).scan codec = DBDB.scan ext codec := by
  refine ⟨rfl, rfl, rfl, rfl, rfl, ?_⟩
  funext pre start stop
  cases pre <;> cases start <;> cases stop <;> rfl

end Engine

/-! ## Calls -/

/-- A call through `DBDB`. -/
inductive Call (α V : Type) where
  | setItem (key : α) (value : V)
  | delItem (key : α)
  | getItem (key : α)
  | contains (key : α)
  | len
  | items
  | scan (pre start stop : Option α)
  | audit
  | commit
  | close
  | reopen
  deriving DecidableEq, Repr

/-- What a call returns. -/
inductive Answer (α V : Type) where
  | done
  | value (v : V)
  | truth (b : Bool)
  | number (n : ℤ)
  | entries (l : List (α × V))
  deriving DecidableEq, Repr

/-- A `DBDB` with an engine.  Once it is closed nothing but its file is used. -/
structure Opened (E : Engine α) where
  state : E.State
  closed : Bool

namespace Engine

variable (E : Engine α) (codec : Codec α V)

/-- A method of an open handle. -/
def method {β : Type} (x : Py E.State β) (answer : β → Answer α V) :
    Py (Opened E) (Answer α V) := fun h =>
  if h.closed then .error .databaseClosedError h
  else match x h.state with
    | .ok b state => .ok (answer b) { h with state := state }
    | .error e state => .error e { h with state := state }

/-- One call.  To reopen is to close, and to open the file again. -/
def call : Call α V → Py (Opened E) (Answer α V)
  | .setItem key value => E.method (E.setItem codec key value) fun _ => .done
  | .delItem key => E.method (E.delItem codec key) fun _ => .done
  | .getItem key => E.method (E.getItem codec key) .value
  | .contains key => E.method (E.contains codec key) .truth
  | .len => E.method E.length .number
  | .items => E.method (E.mapItems codec) .entries
  | .scan pre start stop => E.method (E.scan codec pre start stop) .entries
  | .audit => E.method E.auditOk .truth
  | .commit => E.method E.commit fun _ => .done
  | .close => fun h => .ok .done { h with closed := true }
  | .reopen => fun h =>
    match E.connect (E.blank (.powerOn (E.disk h.state).live)) with
    | .ok () state => .ok .done ⟨state, false⟩
    | .error e _ => .error e { h with closed := true }

/-- What a sequence of calls returns or raises, call by call. -/
def trace : Opened E → List (Call α V) → List (Call α V × Except PyError (Answer α V))
  | _, [] => []
  | h, call :: calls =>
    match E.call codec call h with
    | .ok answer h' => (call, .ok answer) :: trace h' calls
    | .error e h' => (call, .error e) :: trace h' calls

end Engine

/-! ## Versioned maps -/

/-- The bindings of a finite map in increasing key order. -/
noncomputable def listing [LinearOrder α] (s : α → Option Bytes) : List (α × Bytes) :=
  open Classical in if h : ∃ l, Represents l s then h.choose else []

theorem Represents.listing_eq [LinearOrder α] {l : List (α × Bytes)} {s : α → Option Bytes}
    (h : Represents l s) : listing s = l := by
  have hex : ∃ l, Represents l s := ⟨l, h⟩
  rw [listing, dif_pos hex]
  exact hex.choose_spec.unique h

/-- `_validate_key`, as an answer. -/
def Codec.checkKey (codec : Codec α V) (key : α) : Except PyError Unit :=
  if codec.validKey key then .ok () else .error .keyEncodingError

/-- `_validate_key` of an argument that may be left out, as an answer. -/
def Codec.checkBound (codec : Codec α V) : Option α → Except PyError Unit
  | none => .ok ()
  | some key => codec.checkKey key

/-- What a database is for: a map with its committed version, behind a handle that may
be closed. -/
structure Versioned (α : Type) where
  committed : α → Option Bytes
  staged : α → Option Bytes
  closed : Bool

namespace Versioned

variable [LinearOrder α] (codec : Codec α V) (v : Versioned α)

/-- What an open map answers. -/
noncomputable def openAnswer : Call α V → Except PyError (Answer α V)
  | .setItem key value => do
    codec.checkKey key
    let _ ← codec.encode value
    return .done
  | .delItem key => do
    codec.checkKey key
    if v.staged key = none then throw .keyError else return .done
  | .getItem key => .value <$> mapGet codec v.staged key
  | .contains key => .truth <$> ((fun _ => true) <$> mapGet codec v.staged key).onKeyError false
  | .len => .ok (.number (listing v.staged).length)
  | .items => .entries <$> codec.decodeAll (listing v.staged)
  | .scan pre start stop => do
    codec.checkBound pre
    codec.checkBound start
    codec.checkBound stop
    .entries <$> codec.decodeAll (codec.withPre pre (restrict start stop (listing v.staged)))
  | .audit => .ok (.truth true)
  | .commit | .close | .reopen => .ok .done

/-- What the map answers; a closed handle can only be closed or opened again. -/
noncomputable def answer : Call α V → Except PyError (Answer α V)
  | .close => .ok .done
  | .reopen => .ok .done
  | call => if v.closed then .error .databaseClosedError else v.openAnswer codec call

/-- What a call makes of an open map. -/
def openNext : Call α V → Versioned α
  | .setItem key value =>
    match codec.checkKey key, codec.encode value with
    | .ok (), .ok payload => { v with staged := update v.staged key (some payload) }
    | _, _ => v
  | .delItem key =>
    match codec.checkKey key with
    | .ok () => { v with staged := update v.staged key none }
    | .error _ => v
  | .commit => { v with committed := v.staged }
  | _ => v

/-- What a call makes of the map. -/
def next : Call α V → Versioned α
  | .close => { v with closed := true }
  | .reopen => { v with staged := v.committed, closed := false }
  | call => if v.closed then v else v.openNext codec call

/-- What a sequence of calls is answered. -/
noncomputable def trace : Versioned α → List (Call α V) → List (Call α V × Except PyError (Answer α V))
  | _, [] => []
  | v, call :: calls => (call, v.answer codec call) :: trace (v.next codec call) calls

/-- Audits of an open map are clean. -/
theorem audit_of_mem_trace {calls : List (Call α V)} {r : Except PyError (Answer α V)}
    (h : (.audit, r) ∈ v.trace codec calls) :
    r = .ok (.truth true) ∨ r = .error .databaseClosedError := by
  induction calls generalizing v with
  | nil => cases h
  | cons call calls ih =>
    rcases List.mem_cons.mp h with heq | h
    · obtain ⟨rfl, rfl⟩ := Prod.mk.inj heq
      cases hclosed : v.closed with
      | true => exact .inr (by simp [answer, hclosed])
      | false => exact .inl (by simp [answer, hclosed, openAnswer])
    · exact ih _ h

end Versioned

/-! ## Engines that implement versioned maps -/

/-- `R` relates a state of the engine to the maps it has committed and staged; every
method answers from the staged map and keeps `R`. -/
structure Engine.Implements [LinearOrder α] (E : Engine α)
    (R : E.State → (α → Option Bytes) → (α → Option Bytes) → Prop) : Prop where
  connect_new : ∃ state, E.connect (E.blank (.powerOn .empty)) = .ok () state ∧
    R state (fun _ => none) fun _ => none
  reopen : ∀ {state c s}, R state c s →
    ∃ state', E.connect (E.blank (.powerOn (E.disk state).live)) = .ok () state' ∧ R state' c c
  get : ∀ {state c s}, R state c s → ∀ key, ∃ state', R state' c s ∧
    E.get key state = match s key with
      | some value => .ok value state'
      | none => .error .keyError state'
  set : ∀ {state c s}, R state c s → ∀ key value, ∃ state', E.set key value state = .ok () state' ∧
    R state' c (update s key (some value))
  delete : ∀ {state c s}, R state c s → ∀ key, s key ≠ none →
    ∃ state', E.delete key state = .ok () state' ∧ R state' c (update s key none)
  delete_absent : ∀ {state c s}, R state c s → ∀ key, s key = none →
    ∃ state', E.delete key state = .error .keyError state' ∧ R state' c s
  read : ∀ {state c s}, R state c s → ∃ l state', Represents l s ∧ R state' c s ∧
    E.length state = .ok (l.length : ℤ) state' ∧ E.items state = .ok l state' ∧
    (∀ start stop, E.rangeItems start stop state = .ok (restrict start stop l) state') ∧
    E.auditOk state = .ok true state'
  commit : ∀ {state c s}, R state c s →
    (∃ state', E.commit state = .ok () state' ∧ R state' s s) ∨
      ∃ state', E.commit state = .error .structError state' ∧ R state' c s

namespace Engine

variable [LinearOrder α] {E : Engine α}
  {R : E.State → (α → Option Bytes) → (α → Option Bytes) → Prop} {codec : Codec α V}
  {h : Opened E} {v : Versioned α}

/-- The handle shows the versioned map. -/
def Shows (R : E.State → (α → Option Bytes) → (α → Option Bytes) → Prop) (h : Opened E)
    (v : Versioned α) : Prop :=
  R h.state v.committed v.staged ∧ h.closed = v.closed

/-- A call is answered as the versioned map answers it. -/
def Agrees (R : E.State → (α → Option Bytes) → (α → Option Bytes) → Prop) (codec : Codec α V)
    (h : Opened E) (v : Versioned α) (call : Call α V) : Prop :=
  ∃ h', E.call codec call h = (v.answer codec call).inState h' ∧ Shows R h' (v.next codec call)

omit [LinearOrder α] in
/-- A method that ends with the answer `x`, in `state`. -/
theorem method_eq {β : Type} {m : Py E.State β} {x : Except PyError β}
    {state : E.State} (hopen : h.closed = false) (hm : m h.state = x.inState state)
    (answer : β → Answer α V) :
    E.method m answer h = (answer <$> x).inState { h with state := state } := by
  unfold method
  rw [hopen, hm]
  cases x with
  | ok b => rfl
  | error e => rfl

omit [LinearOrder α] in
theorem method_closed {β : Type} (m : Py E.State β) (answer : β → Answer α V)
    (hclosed : h.closed = true) : E.method m answer h = .error .databaseClosedError h := by
  unfold method
  rw [hclosed]
  rfl

namespace Implements

variable (hE : E.Implements R)
variable {state : E.State} {c s : α → Option Bytes}
include hE

section

variable (hR : R state c s)
include hR

theorem setItem_eq (key : α) (value : V) :
    ∃ state', E.setItem codec key value state =
        (do codec.checkKey key
            let _ ← codec.encode value
            return () : Except PyError Unit).inState state' ∧
      R state' c (match codec.checkKey key, codec.encode value with
        | .ok (), .ok payload => update s key (some payload)
        | _, _ => s) := by
  unfold setItem validateKey Codec.checkKey
  cases codec.validKey key with
  | false => exact ⟨state, rfl, hR⟩
  | true =>
    cases codec.encode value with
    | error e => exact ⟨state, rfl, hR⟩
    | ok payload =>
      obtain ⟨state', hset, hR'⟩ := hE.set hR key payload
      exact ⟨state', hset, hR'⟩

theorem delItem_eq (key : α) :
    ∃ state', E.delItem codec key state =
        (do codec.checkKey key
            if s key = none then throw .keyError else return () : Except PyError Unit).inState state' ∧
      R state' c (match codec.checkKey key with
        | .ok () => update s key none
        | .error _ => s) := by
  unfold delItem validateKey Codec.checkKey
  cases codec.validKey key with
  | false => exact ⟨state, rfl, hR⟩
  | true =>
    by_cases hkey : s key = none
    · obtain ⟨state', hdelete, hR'⟩ := hE.delete_absent hR key hkey
      refine ⟨state', ?_, ?_⟩
      · simp only [if_true, hkey]
        exact hdelete
      · have hsame : update s key none = s := update_eq_self_iff.mpr hkey.symm
        simp only [if_true, hsame]
        exact hR'
    · obtain ⟨state', hdelete, hR'⟩ := hE.delete hR key hkey
      refine ⟨state', ?_, hR'⟩
      simp only [if_true, hkey]
      exact hdelete

theorem getItem_eq (key : α) :
    ∃ state', E.getItem codec key state = (mapGet codec s key).inState state' ∧ R state' c s := by
  unfold getItem validateKey mapGet
  cases codec.validKey key with
  | false => exact ⟨state, rfl, hR⟩
  | true =>
    obtain ⟨state', hR', hget⟩ := hE.get hR key
    refine ⟨state', ?_, hR'⟩
    simp only [if_true, run_bind, run_pure, hget]
    cases s key with
    | none => rfl
    | some payload => exact ofExcept_eq _ _

theorem contains_eq (key : α) :
    ∃ state', E.contains codec key state =
        (((fun _ => true) <$> mapGet codec s key).onKeyError false).inState state' ∧ R state' c s := by
  obtain ⟨state', hget, hR'⟩ : ∃ state', E.getItem codec key state =
      (mapGet codec s key).inState state' ∧ R state' c s := hE.getItem_eq hR key
  refine ⟨state', ?_, hR'⟩
  unfold contains onKeyError
  rw [run_map, hget]
  cases mapGet codec s key with
  | ok value => rfl
  | error e => cases e <;> rfl

theorem mapItems_eq :
    ∃ state', E.mapItems codec state = (codec.decodeAll (listing s)).inState state' ∧
      R state' c s := by
  obtain ⟨l, state', hl, hR', -, hitems, -⟩ := hE.read hR
  refine ⟨state', ?_, hR'⟩
  rw [hl.listing_eq, mapItems, run_bind, hitems]
  exact ofExcept_eq _ _

theorem scan_eq (pre start stop : Option α) :
    ∃ state', E.scan codec pre start stop state =
        (do codec.checkBound pre; codec.checkBound start; codec.checkBound stop
            codec.decodeAll (codec.withPre pre (restrict start stop (listing s)))).inState state' ∧
      R state' c s := by
  obtain ⟨l, state', hl, hR', -, -, hrange, -⟩ := hE.read hR
  have hbound : ∀ (bound : Option α) (state : E.State),
      E.validateBound codec bound state = (codec.checkBound bound).inState state := by
    intro bound state
    cases bound with
    | none => rfl
    | some key =>
      show E.validateKey codec key state = (codec.checkKey key).inState state
      unfold validateKey Codec.checkKey
      cases codec.validKey key <;> rfl
  rw [hl.listing_eq]
  simp only [scan, run_bind, hbound]
  cases codec.checkBound pre with
  | error e => exact ⟨state, rfl, hR⟩
  | ok _ =>
    cases codec.checkBound start with
    | error e => exact ⟨state, rfl, hR⟩
    | ok _ =>
      cases codec.checkBound stop with
      | error e => exact ⟨state, rfl, hR⟩
      | ok _ =>
        refine ⟨state', ?_, hR'⟩
        simp only [Except.inState, hrange]
        exact ofExcept_eq _ _

end

omit hE in
/-- A method that answers as the map does. -/
theorem agrees_of_method {β : Type} {m : Py E.State β} {answer : β → Answer α V}
    {x : Except PyError β} {call : Call α V} (hopen : h.closed = false)
    (hcall : E.call codec call = E.method m answer) (hm : m h.state = x.inState state)
    (hanswer : v.answer codec call = answer <$> x)
    (hnext : Shows R { h with state := state } (v.next codec call)) : Agrees R codec h v call := by
  refine ⟨{ h with state := state }, ?_, hnext⟩
  rw [hcall, hanswer]
  exact method_eq hopen hm answer

/-- One call of an open handle is answered as the versioned map answers it, unless it is
a commit that raises `struct.error`. -/
theorem open_call (hs : Shows R h v) (hopen : h.closed = false) (call : Call α V) :
    Agrees R codec h v call ∨ call = .commit ∧
      ∃ h', E.call codec .commit h = .error .structError h' ∧ Shows R h' v := by
  obtain ⟨c, s, closed⟩ := v
  obtain ⟨hR, hclosed⟩ : R h.state c s ∧ h.closed = closed := hs
  obtain rfl : closed = false := hclosed.symm.trans hopen
  cases call with
  | setItem key value =>
    obtain ⟨state, hrun, hR'⟩ := hE.setItem_eq hR key value
    refine .inl (agrees_of_method hopen rfl hrun ?_ ?_)
    · simp only [Versioned.answer, Bool.false_eq_true, if_false, Versioned.openAnswer]
      cases codec.checkKey key <;> cases codec.encode value <;> rfl
    · simp only [Versioned.next, Bool.false_eq_true, if_false, Versioned.openNext]
      cases hkey : codec.checkKey key <;> cases hencode : codec.encode value <;>
        simp only [hkey, hencode] at hR' <;> exact ⟨hR', hopen⟩
  | delItem key =>
    obtain ⟨state, hrun, hR'⟩ := hE.delItem_eq hR key
    refine .inl (agrees_of_method hopen rfl hrun ?_ ?_)
    · simp only [Versioned.answer, Bool.false_eq_true, if_false, Versioned.openAnswer]
      cases codec.checkKey key with
      | error e => rfl
      | ok _ => by_cases hkey : s key = none <;> simp only [hkey] <;> rfl
    · simp only [Versioned.next, Bool.false_eq_true, if_false, Versioned.openNext]
      cases hkey : codec.checkKey key <;> simp only [hkey] at hR' <;> exact ⟨hR', hopen⟩
  | getItem key =>
    obtain ⟨state, hrun, hR'⟩ := hE.getItem_eq hR key
    exact .inl (agrees_of_method hopen rfl hrun rfl ⟨hR', hopen⟩)
  | contains key =>
    obtain ⟨state, hrun, hR'⟩ := hE.contains_eq hR key
    exact .inl (agrees_of_method hopen rfl hrun rfl ⟨hR', hopen⟩)
  | len =>
    obtain ⟨l, state, hl, hR', hlength, -⟩ := hE.read hR
    have hrun : E.length h.state = (Except.ok ((listing s).length : ℤ)).inState state := by
      rw [hl.listing_eq]
      exact hlength
    exact .inl (agrees_of_method hopen rfl hrun rfl ⟨hR', hopen⟩)
  | items =>
    obtain ⟨state, hrun, hR'⟩ := hE.mapItems_eq hR
    exact .inl (agrees_of_method hopen rfl hrun rfl ⟨hR', hopen⟩)
  | scan pre start stop =>
    obtain ⟨state, hrun, hR'⟩ := hE.scan_eq hR pre start stop
    refine .inl (agrees_of_method hopen rfl hrun ?_ ⟨hR', hopen⟩)
    simp only [Versioned.answer, Bool.false_eq_true, if_false, Versioned.openAnswer]
    cases codec.checkBound pre <;> cases codec.checkBound start <;>
      cases codec.checkBound stop <;> rfl
  | audit =>
    obtain ⟨l, state, -, hR', -, -, -, haudit⟩ := hE.read hR
    have hrun : E.auditOk h.state = (Except.ok true).inState state := haudit
    exact .inl (agrees_of_method hopen rfl hrun rfl ⟨hR', hopen⟩)
  | commit =>
    rcases hE.commit hR with ⟨state, hcommit, hR'⟩ | ⟨state, hcommit, hR'⟩
    · have hrun : E.commit h.state = (Except.ok ()).inState state := hcommit
      exact .inl (agrees_of_method hopen rfl hrun rfl ⟨hR', hopen⟩)
    · have hrun : E.commit h.state = (Except.error .structError).inState state := hcommit
      exact .inr ⟨rfl, _, method_eq hopen hrun _, hR', hopen⟩
  | close => exact .inl ⟨_, rfl, hR, rfl⟩
  | reopen =>
    obtain ⟨state, hrun, hR'⟩ := hE.reopen hR
    refine .inl ⟨⟨state, false⟩, ?_, hR', rfl⟩
    simp [Engine.call, hrun, Versioned.answer, Except.inState]

/-- A closed handle refuses every method. -/
theorem closed_call (hs : Shows R h v) (hclosed : h.closed = true) (call : Call α V) :
    Agrees R codec h v call := by
  obtain ⟨hR, hsame⟩ := hs
  have hv : v.closed = true := hsame.symm.trans hclosed
  have hrefused : ∀ {call : Call α V}, E.call codec call h = .error .databaseClosedError h →
      v.answer codec call = .error .databaseClosedError → v.next codec call = v →
      Agrees R codec h v call := by
    intro call hcall hanswer hnext
    refine ⟨h, ?_, ?_⟩
    · rw [hcall, hanswer]
      rfl
    · rw [hnext]
      exact ⟨hR, hsame⟩
  cases call with
  | close => exact ⟨_, rfl, hR, rfl⟩
  | reopen =>
    obtain ⟨state, hrun, hR'⟩ := hE.reopen hR
    refine ⟨⟨state, false⟩, ?_, hR', rfl⟩
    simp [Engine.call, hrun, Versioned.answer, Except.inState]
  | _ =>
    exact hrefused (method_closed _ _ hclosed) (by simp [Versioned.answer, hv])
      (by simp [Versioned.next, hv])

/-- One call is answered as the versioned map answers it, unless it is a commit that raises
`struct.error`; that leaves both maps as they were. -/
theorem call_spec (hs : Shows R h v) (call : Call α V) :
    Agrees R codec h v call ∨ call = .commit ∧
      ∃ h', E.call codec .commit h = .error .structError h' ∧ Shows R h' v := by
  cases hopen : h.closed with
  | false => exact hE.open_call hs hopen call
  | true => exact .inl (hE.closed_call hs hopen call)

/-- A sequence of calls is answered as the versioned map answers it, if no commit raises
`struct.error`. -/
theorem trace_eq (hs : Shows R h v) {calls : List (Call α V)}
    (hcommits : (.commit, .error .structError) ∉ E.trace codec h calls) :
    E.trace codec h calls = v.trace codec calls := by
  induction calls generalizing h v with
  | nil => rfl
  | cons call calls ih =>
    rcases hE.call_spec hs call with ⟨h', hrun, hs'⟩ | ⟨rfl, h', hrun, -⟩
    · rw [trace, hrun] at hcommits ⊢
      rw [Versioned.trace]
      cases hanswer : v.answer codec call with
      | ok answer =>
        rw [hanswer] at hcommits
        exact congrArg _ (ih hs' fun hmem => hcommits (.tail _ hmem))
      | error e =>
        rw [hanswer] at hcommits
        exact congrArg _ (ih hs' fun hmem => hcommits (.tail _ hmem))
    · rw [trace, hrun] at hcommits
      exact absurd (List.mem_cons_self ..) hcommits

end Implements

end Engine

/-! ## The engines implement versioned maps -/

theorem run_map_ok {ε σ β γ : Type} {f : β → γ} {x : EStateM ε σ β} {state state' : σ} {b : β}
    (h : x state = .ok b state') : (f <$> x) state = .ok (f b) state' := by
  rw [run_map, h]

section

variable [LinearOrder α]

/-- What the methods of the B+ tree that list keys read. -/
theorem Database.Running.read {ext : Externals α} {order : ℕ} {db : Database α}
    {c s : α → Option Bytes} (h : db.Running ext order c s) :
    ∃ db', db'.Running ext order c s ∧ Represents db'.tree.items s ∧
      Database.length ext db = .ok (db'.tree.items.length : ℤ) db' ∧
      Database.items ext db = .ok db'.tree.items db' ∧
      (∀ start stop, Database.rangeItems ext start stop db =
        .ok (restrict start stop db'.tree.items) db') ∧
      ∃ report, Database.audit ext db = .ok report db' ∧ report.errors = [] := by
  obtain ⟨db', hrun, hholding, -⟩ := h.attached.refreshUnlocked
  obtain ⟨report, haudit, herrors, -⟩ := hholding.holds.ok.audit_eq
  refine ⟨db', h.refreshUnlocked hrun, hholding.holds.represents, ?_, ?_, ?_, report, ?_, herrors⟩
  · simp [Database.length, hrun, BPlusTree.length, hholding.holds.ok.count_eq]
  · simp [Database.items, hrun]
  · intro start stop
    simp [Database.rangeItems, hrun, hholding.holds.rangeItems_eq start stop]
  · rw [Database.audit, run_bind, hrun]
    exact Database.onTree_ok (by rw [haudit])

theorem bplusEngine_implements (ext : Externals α) {order : ℕ} (horder : 3 ≤ order) :
    (bplusEngine ext order).Implements (fun db c s => Database.Running ext order db c s) where
  connect_new := by
    obtain ⟨d, t, hnew, -⟩ := Database.connect_new ext horder
    exact ⟨_, hnew, Database.connect_new_running hnew⟩
  reopen := fun hR => Database.connect_running hR.safe.committed
  get := by
    intro db c s hR key
    obtain ⟨db', hrefresh, hget⟩ := hR.attached.get key
    exact ⟨db', hR.refreshUnlocked hrefresh, hget⟩
  set := by
    intro db c s hR key value
    obtain ⟨t, hrun, hholding⟩ := hR.attached.set key value
    exact ⟨_, hrun, hR.safe, hholding, fun hl => by cases hl⟩
  delete := by
    intro db c s hR key hkey
    obtain ⟨t, hrun, hholding⟩ := hR.attached.delete hkey
    exact ⟨_, hrun, hR.safe, hholding, fun hl => by cases hl⟩
  delete_absent := by
    intro db c s hR key hkey
    obtain ⟨t, hrun, hholding⟩ := hR.attached.delete_absent hkey
    exact ⟨_, hrun, hR.safe, hholding, fun hl => by cases hl⟩
  read := by
    intro db c s hR
    obtain ⟨db', hR', hl, hlength, hitems, hrange, report, haudit, herrors⟩ := hR.read
    refine ⟨db'.tree.items, db', hl, hR', hlength, hitems, hrange, ?_⟩
    exact (run_map_ok haudit).trans (by rw [herrors]; rfl)
  commit := by
    intro db c s hR
    show (∃ db', Database.commit ext db = .ok () db' ∧ _) ∨
      ∃ db', Database.commit ext db = .error .structError db' ∧ _
    cases hrun : Database.commit ext db with
    | ok _ db' => exact .inl ⟨db', rfl, hR.commit hrun⟩
    | error e db' =>
      obtain ⟨rfl, -⟩ := Database.commit_error hR.safe.committed hR.holding hrun
      exact .inr ⟨db', rfl, hR.commitRaises hrun⟩

theorem binaryEngine_implements (p : Pickle α) :
    (binaryEngine p).Implements (fun db c s => BinaryDatabase.Running p db c s) where
  connect_new := by
    obtain ⟨db, hrun, hR, -⟩ := BinaryDatabase.connect_new_running p
    exact ⟨db, hrun, hR⟩
  reopen := by
    intro db c s hR
    obtain ⟨db', hrun, hR', -⟩ := BinaryDatabase.connect_running hR.committed
    exact ⟨db', hrun, hR'⟩
  get := fun hR => hR.get
  set := by
    intro db c s hR key value
    obtain ⟨db', hrun, hR', -⟩ := hR.set key value
    exact ⟨db', hrun, hR'⟩
  delete := fun hR _ hkey => hR.delete hkey
  delete_absent := fun hR _ hkey => hR.delete_absent hkey
  read := by
    intro db c s hR
    obtain ⟨db', hR', hlength, hitems, hrange, report, haudit, herrors⟩ := hR.read
    refine ⟨db'.treeRef.items, db', hR'.holds.represents, hR', hlength, hitems, hrange, ?_⟩
    exact (run_map_ok haudit).trans (by rw [herrors]; rfl)
  commit := fun hR => hR.commit

end
