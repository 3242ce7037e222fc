/-
# Optimistic transactions lose no update

Any number of transactions run on one handle, their calls interleaved in any way.  The
body of a transaction chooses each call by the replies to the calls before it, so that
it can be run again on another map.  If every transaction that commits has read only
keys that it also writes, the committed map is the one that the bodies of the committed
transactions produce when they run one after another, in the order of their commits.
-/
import ImmuStore.Recovery
import ImmuStore.TransactionSpec

open Relation Storage
open Transaction (closeBase_database)

variable {α V : Type} [LinearOrder α] {ext : Externals α} {codec : Codec α V} {order : ℕ}
  {f : File} {L : ℕ} {m : Meta} {b c c0 s : α → Option Bytes}

/-! ## Bodies -/

/-- What a call gives back: a value, nothing, or an exception. -/
abbrev Reply (V : Type) := Except PyError (Option V)

/-- A call of a method of a transaction. -/
inductive TxCall (α V : Type) where
  | get (key : α)
  | getOrNone (key : α) (default : V)
  | set (key : α) (value : V)
  | delete (key : α)
  | update (key : α) (updater : V → Except PyError V) (default : V)

/-- The body of a transaction: its next call, by the replies so far. -/
abbrev Body (α V : Type) := List (Reply V) → TxCall α V

/-- The keys that a call looks up.  `delete` looks its key up to see whether it is
there; a key that is not valid is not looked up. -/
def TxCall.reads (codec : Codec α V) : TxCall α V → List α
  | .get key => if codec.validKey key then [key] else []
  | .getOrNone key _ => if codec.validKey key then [key] else []
  | .set _ _ => []
  | .delete key => if codec.validKey key then [key] else []
  | .update key _ _ => if codec.validKey key then [key] else []

/-- What a call replies and leaves, given its result. -/
def Reply.of {β : Type} (unchanged : β) : Except PyError (Option V × β) → Reply V × β
  | .ok (reply, after) => (.ok reply, after)
  | .error e => (.error e, unchanged)

/-- A call on a transaction; `f` is the file. -/
def Transaction.call (ext : Externals α) (codec : Codec α V) (order : ℕ) (f : File)
    (tx : Transaction α) : TxCall α V → Reply V × Transaction α
  | .get key => Reply.of tx do
    let value ← tx.get ext codec order f key
    return (some value, tx)
  | .getOrNone key default => Reply.of tx do
    let value ← tx.getOrNone ext codec order f key default
    return (some value, tx)
  | .set key value => Reply.of tx do
    let tx ← tx.set codec key value
    return (none, tx)
  | .delete key => Reply.of tx do
    let tx ← tx.delete ext codec order f key
    return (none, tx)
  | .update key updater default => Reply.of tx do
    let (value, tx) ← tx.update ext codec order f key updater default
    return (some value, tx)

/-! ## Bodies on a map -/

/-- Binding a key in a map. -/
def mapSet (codec : Codec α V) (s : α → Option Bytes) (key : α) (value : V) :
    Except PyError (α → Option Bytes) :=
  if codec.validKey key then do
    let payload ← codec.encode value
    return Function.update s key (some payload)
  else .error .keyEncodingError

/-- Removing a key from a map. -/
def mapDelete (codec : Codec α V) (s : α → Option Bytes) (key : α) :
    Except PyError (α → Option Bytes) :=
  if codec.validKey key then
    if (s key).isSome then .ok (Function.update s key none) else .error .keyError
  else .error .keyEncodingError

/-- A call on a map. -/
def TxCall.onMap (codec : Codec α V) (s : α → Option Bytes) :
    TxCall α V → Reply V × (α → Option Bytes)
  | .get key => Reply.of s do
    let value ← mapGet codec s key
    return (some value, s)
  | .getOrNone key default => Reply.of s do
    let value ← (mapGet codec s key).onKeyError default
    return (some value, s)
  | .set key value => Reply.of s do
    let s ← mapSet codec s key value
    return (none, s)
  | .delete key => Reply.of s do
    let s ← mapDelete codec s key
    return (none, s)
  | .update key updater default => Reply.of s do
    let current ← (mapGet codec s key).onKeyError default
    let updated ← updater current
    let s ← mapSet codec s key updated
    return (some updated, s)

/-- The first `n` calls of a body on a map: the replies and the map they leave. -/
def Body.run (codec : Codec α V) (body : Body α V) (s : α → Option Bytes) :
    ℕ → List (Reply V) × (α → Option Bytes)
  | 0 => ([], s)
  | n + 1 =>
    let (replies, s) := body.run codec s n
    let (reply, s) := (body replies).onMap codec s
    (replies ++ [reply], s)

/-! ## A call on a transaction is a call on its map -/

namespace Transaction

variable {tx : Transaction α} {base : Snapshot}

/-- The reply of a call on a transaction is that of a call on a map, and the transaction
it leaves overlays `c` to the map that the other leaves. -/
def Matches (c : α → Option Bytes) (r : Reply V × Transaction α)
    (r' : Reply V × (α → Option Bytes)) : Prop :=
  r'.1 = r.1 ∧ r'.2 = r.2.overlaid c

theorem matches_set (tx : Transaction α) (c : α → Option Bytes) (key : α) (value : V)
    (reply : Option V) :
    Matches c (Reply.of tx do
        let tx ← tx.set codec key value
        return (reply, tx))
      (Reply.of (tx.overlaid c) do
        let s ← mapSet codec (tx.overlaid c) key value
        return (reply, s)) := by
  unfold set mapSet
  by_cases hvalid : codec.validKey key = true
  · rw [if_pos hvalid, if_pos hvalid]
    cases codec.encode value with
    | error e => exact ⟨rfl, rfl⟩
    | ok payload => exact ⟨rfl, (overlaid_set _ _ _ _).symm⟩
  · rw [if_neg hvalid, if_neg hvalid]
    exact ⟨rfl, rfl⟩

/-- **One call.**  If `c` agrees with the pinned map on what the call reads, the call on
the transaction is the call on `c` with the overlay on top. -/
theorem call_matches (hbase : tx.base = some base) (hpins : base.Pins ext order f L b)
    {call : TxCall α V} (hreads : ∀ key ∈ call.reads codec, c key = b key) :
    Matches c (tx.call ext codec order f call) (call.onMap codec (tx.overlaid c)) := by
  have hget : ∀ key, (codec.validKey key = true → key ∈ call.reads codec) →
      tx.get ext codec order f key = mapGet codec (tx.overlaid c) key :=
    fun key hread => get_eq hbase hpins fun hvalid => hreads key (hread hvalid)
  cases call with
  | get key =>
    simp only [Transaction.call, TxCall.onMap, hget key fun hvalid => by simp [TxCall.reads, hvalid]]
    cases mapGet codec (tx.overlaid c) key with
    | error e => exact ⟨rfl, rfl⟩
    | ok value => exact ⟨rfl, rfl⟩
  | getOrNone key default =>
    simp only [Transaction.call, TxCall.onMap, getOrNone,
      hget key fun hvalid => by simp [TxCall.reads, hvalid]]
    cases (mapGet codec (tx.overlaid c) key).onKeyError default with
    | error e => exact ⟨rfl, rfl⟩
    | ok value => exact ⟨rfl, rfl⟩
  | set key value => exact matches_set tx c key value none
  | delete key =>
    simp only [Transaction.call, TxCall.onMap, delete, mapDelete]
    by_cases hvalid : codec.validKey key = true
    · have hkey : c key = b key := hreads key (by simp [TxCall.reads, hvalid])
      rw [if_pos hvalid, if_pos hvalid, contains_eq hbase hpins hkey]
      cases (tx.overlaid c key).isSome with
      | true => exact ⟨rfl, (overlaid_set _ _ _ _).symm⟩
      | false => exact ⟨rfl, rfl⟩
    · rw [if_neg hvalid, if_neg hvalid]
      exact ⟨rfl, rfl⟩
  | update key updater default =>
    simp only [Transaction.call, TxCall.onMap, update, getOrNone,
      hget key fun hvalid => by simp [TxCall.reads, hvalid]]
    cases (mapGet codec (tx.overlaid c) key).onKeyError default with
    | error e => exact ⟨rfl, rfl⟩
    | ok current =>
      cases hupdated : updater current with
      | error e =>
        simp only [hupdated, bind, Except.bind]
        exact ⟨rfl, rfl⟩
      | ok updated =>
        have hset := @matches_set _ _ _ codec tx c key updated (some updated)
        simp only [hupdated, bind, Except.bind] at hset ⊢
        cases htx : tx.set codec key updated with
        | error e =>
          rw [htx] at hset
          exact hset
        | ok tx' =>
          rw [htx] at hset
          exact hset

theorem update_base {tx' : Transaction α} {key : α} {updater : V → Except PyError V}
    {default value : V} (h : tx.update ext codec order f key updater default = .ok (value, tx')) :
    tx'.base = tx.base := by
  obtain ⟨current, -, hrun⟩ := Except.bind_eq_ok.mp h
  obtain ⟨updated, -, hrun⟩ := Except.bind_eq_ok.mp hrun
  obtain ⟨tx1, hset, hrun⟩ := Except.bind_eq_ok.mp hrun
  cases Except.ok.inj hrun
  exact set_base hset

omit [LinearOrder α] in
theorem of_base {result : Except PyError (Option V × Transaction α)}
    (h : ∀ reply tx', result = .ok (reply, tx') → tx'.base = tx.base) :
    (Reply.of tx result).2.base = tx.base := by
  cases result with
  | error e => rfl
  | ok r => exact h r.1 r.2 rfl

/-- A call leaves the base as it is. -/
theorem call_base (call : TxCall α V) : (tx.call ext codec order f call).2.base = tx.base := by
  cases call with
  | get key =>
    refine of_base fun reply tx' hrun => ?_
    obtain ⟨value, -, hrun⟩ := Except.bind_eq_ok.mp hrun
    rw [(Prod.mk.inj (Except.ok.inj hrun)).2]
  | getOrNone key default =>
    refine of_base fun reply tx' hrun => ?_
    obtain ⟨value, -, hrun⟩ := Except.bind_eq_ok.mp hrun
    rw [(Prod.mk.inj (Except.ok.inj hrun)).2]
  | set key value =>
    refine of_base fun reply tx' hrun => ?_
    obtain ⟨tx1, hset, hrun⟩ := Except.bind_eq_ok.mp hrun
    rw [← (Prod.mk.inj (Except.ok.inj hrun)).2]
    exact set_base hset
  | delete key =>
    refine of_base fun reply tx' hrun => ?_
    obtain ⟨tx1, hdelete, hrun⟩ := Except.bind_eq_ok.mp hrun
    rw [← (Prod.mk.inj (Except.ok.inj hrun)).2]
    exact delete_base hdelete
  | update key updater default =>
    refine of_base fun reply tx' hrun => ?_
    obtain ⟨⟨value, tx1⟩, hupdate, hrun⟩ := Except.bind_eq_ok.mp hrun
    rw [← (Prod.mk.inj (Except.ok.inj hrun)).2]
    exact update_base hupdate

end Transaction

/-! ## A transaction that commits -/

/-- A transaction without a conflict commits, if its map is short. -/
theorem Transaction.commit_short {n : ℕ} {tx : Transaction α} {base : Snapshot} (h : Handle α)
    (hc : Committed ext order h.database.disk.live m c) (horder : h.database.tree.order = order)
    (hsome : tx.overlay.entries ≠ []) (hbase : tx.base = some base)
    (hpins : base.Pins ext order h.database.disk.live L b) (hunchanged : tx.Unchanged b c)
    (hshort : Short ext order (tx.overlaid c)) (hd : Roomy ext order (n + 1) h.database.disk) :
    ∃ db1 db2, tx.commit ext h = .ok () (tx.closeBase { h with database := db2 }) ∧
      db1.disk = h.database.disk ∧ db1.cached = m ∧
      Database.Published ext order db1 db2 (tx.overlaid c) ∧ Roomy ext order n db2.disk := by
  have houtcome := commitOverlay_spec (L := L) (b := b) hc horder hsome fun base' hbase' => by
    obtain rfl : base = base' := by simpa [hbase] using hbase'
    exact hpins
  have hcommits : ∀ {db1 : Database α}, db1.Writing ext order m c (tx.overlaid c) →
      db1.disk = h.database.disk → ∃ db2, db1.commit ext = .ok () db2 ∧ Roomy ext order n db2.disk := by
    intro db1 hwriting hdisk
    obtain ⟨db2, hrun, -, hroom⟩ := Database.commit_short
      (hwriting.cached_eq ▸ hwriting.committed) hwriting.holding hshort (hdisk ▸ hd)
    exact ⟨db2, hrun, hroom⟩
  rw [commit_of_ne _ hsome]
  generalize tx.commitOverlay ext h.database = result at houtcome
  cases houtcome with
  | refused hwhy _ =>
    rcases hwhy with ⟨-, hnone⟩ | ⟨-, -, hchanged⟩
    · simp [hbase] at hnone
    · exact absurd hunchanged hchanged
  | failed _ _ hwriting hdisk hrun =>
    obtain ⟨db2, hok, -⟩ := hcommits hwriting hdisk
    rw [hok] at hrun
    cases hrun
  | @published db1 db2 _ _ hwriting hdisk hpub =>
    obtain ⟨db, hok, hroom⟩ := hcommits hwriting hdisk
    obtain ⟨-, rfl⟩ := EStateM.Result.ok.inj (hok.symm.trans hpub.ran)
    exact ⟨db1, db, rfl, hdisk, hwriting.cached_eq, hpub, hroom⟩

/-- Bytes stored as they are, under any key. -/
def sampleCodec : Codec ℕ Bytes := ⟨fun _ => true, fun _ _ => true, .ok, .ok⟩

/-- A transaction that began on an empty database and binds a key to one byte. -/
def sampleTx (key : ℕ) : Transaction ℕ := ⟨some ⟨0, 0⟩, PyDict.empty.set key (some [7])⟩

theorem overlaid_sampleTx (key : ℕ) (s : ℕ → Option Bytes) :
    (sampleTx key).overlaid s = Update.applyTo s (.set key [7]) := by
  rw [sampleTx, @Transaction.overlaid_set _ _ ⟨some ⟨0, 0⟩, .empty⟩, Transaction.overlaid_empty]
  rfl

/-- The sample transaction commits on a small map, if its key has not changed. -/
theorem sampleTx_commits {n : ℕ} {b c : ℕ → Option Bytes} (key : ℕ) (h : Handle ℕ)
    (hc : Committed sampleExt 64 h.database.disk.live m c)
    (horder : h.database.tree.order = 64)
    (hpins : (⟨0, 0⟩ : Snapshot).Pins sampleExt 64 h.database.disk.live L b)
    (hsame : b key = c key) (hkey : key ∈ [1, 2]) (hfew : Few [1, 2] c)
    (hd : Roomy sampleExt 64 (n + 1) h.database.disk) :
    ∃ db1 db2, (sampleTx key).commit sampleExt h =
        .ok () ((sampleTx key).closeBase { h with database := db2 }) ∧
      db1.disk = h.database.disk ∧ db1.cached = m ∧
      Database.Published sampleExt 64 db1 db2 (Update.applyTo c (.set key [7])) ∧
      Roomy sampleExt 64 n db2.disk := by
  have hunchanged : (sampleTx key).Unchanged b c := by
    intro e he
    obtain rfl : e = (key, some [7]) := List.mem_singleton.mp he
    exact hsame
  have hshort : Short sampleExt 64 (Update.applyTo c (.set key [7])) :=
    (hfew.update hkey (by decide)).short_sample
  rw [← overlaid_sampleTx] at hshort ⊢
  exact Transaction.commit_short h hc horder (List.cons_ne_nil _ _) rfl hpins hunchanged hshort hd

/-! ## Runs -/

/-- A transaction, the body that drives it, the replies its calls have had, and the keys
they have read. -/
structure Client (α V : Type) where
  tx : Transaction α
  body : Body α V
  replies : List (Reply V)
  reads : List α

/-- The transaction has read only keys that are in its overlay. -/
def Client.ReadsOwn (cl : Client α V) : Prop := ∀ key ∈ cl.reads, cl.tx.overlay.get? key ≠ none

/-- A handle, the transactions that were begun on it, and those that have committed, as
they were when they did. -/
structure TxStore (α V : Type) where
  handle : Handle α
  clients : List (Client α V)
  committed : List (Client α V)

/-- What a step of a run did. -/
inductive TxEvent where
  | began
  | called (i : ℕ)
  | committed (i : ℕ)
  | refused (i : ℕ) (e : PyError)
  | aborted (i : ℕ)

namespace TxStore

/-- The store of an open database. -/
def new (db : Database α) : TxStore α V := ⟨.ofDatabase db, [], []⟩

/-- The committed transactions after a commit that has returned.  Committing a second
time, or after an abort, is not a commit of the transaction. -/
def record (cl : Client α V) (committed : List (Client α V)) : List (Client α V) :=
  if cl.tx.base.isSome then committed ++ [cl] else committed

/-- The client after its next call. -/
def next (ext : Externals α) (codec : Codec α V) (order : ℕ) (f : File) (cl : Client α V) :
    Client α V :=
  let call := cl.body cl.replies
  let (reply, tx) := cl.tx.call ext codec order f call
  { cl with tx := tx, replies := cl.replies ++ [reply], reads := cl.reads ++ call.reads codec }

variable (ext) (codec) (order) in
/-- The steps of a run. -/
inductive Step :
    TxStore α V → TxEvent → TxStore α V → Prop
  | begin {σ : TxStore α V} {tx : Transaction α} {h : Handle α} (body : Body α V) :
      Transaction.begin ext σ.handle = .ok tx h →
      Step σ .began { σ with
        handle := h
        clients := σ.clients ++ [⟨tx, body, [], []⟩] }
  | call {σ : TxStore α V} {i : ℕ} {cl : Client α V} : σ.clients[i]? = some cl →
      Step σ (.called i) { σ with
        clients := σ.clients.set i (next ext codec order σ.handle.database.disk.live cl) }
  | commit {σ : TxStore α V} {i : ℕ} {cl : Client α V} {h : Handle α} :
      σ.clients[i]? = some cl → cl.tx.commit ext σ.handle = .ok () h →
      Step σ (.committed i) ⟨h, σ.clients.set i { cl with tx := cl.tx.committed },
        record cl σ.committed⟩
  | commitRaises {σ : TxStore α V} {i : ℕ} {cl : Client α V} {h : Handle α} {e : PyError} :
      σ.clients[i]? = some cl → cl.tx.commit ext σ.handle = .error e h →
      Step σ (.refused i e) { σ with
        handle := h
        clients := σ.clients.set i { cl with tx := cl.tx.committed } }
  | abort {σ : TxStore α V} {i : ℕ} {cl : Client α V} : σ.clients[i]? = some cl →
      Step σ (.aborted i) { σ with
        handle := cl.tx.abort σ.handle
        clients := σ.clients.set i { cl with tx := Transaction.aborted } }

/-- The map after the bodies of transactions have run on it one after another. -/
def serial (codec : Codec α V) (c : α → Option Bytes) (committed : List (Client α V)) :
    α → Option Bytes :=
  committed.foldl (fun c cl => (cl.body.run codec c cl.replies.length).2) c

/-- The number of transactions whose base is open. -/
def openBases (clients : List (Client α V)) : ℕ := clients.countP fun cl => cl.tx.base.isSome

/-! ## The invariant -/

/-- On every map that agrees with `b` on what the client has read, its body replies what
it has replied and leaves its overlay. -/
def Follows (codec : Codec α V) (cl : Client α V) (b : α → Option Bytes) : Prop :=
  ∀ c, (∀ key ∈ cl.reads, c key = b key) →
    cl.body.run codec c cl.replies.length = (cl.replies, cl.tx.overlaid c)

/-- The invariant of a run; `c` is the committed map. -/
structure Inv (ext : Externals α) (codec : Codec α V) (order : ℕ) (c0 : α → Option Bytes)
    (σ : TxStore α V) (m : Meta) (c : α → Option Bytes) : Prop where
  committed : Committed ext order σ.handle.database.disk.live m c
  order_eq : σ.handle.database.tree.order = order
  unlocked : σ.handle.database.locked = false
  notClosed : σ.handle.closed = false
  counted : σ.handle.openSnapshots = openBases σ.clients
  clients : ∀ cl ∈ σ.clients, ∀ base ∈ cl.tx.base, ∃ b, Follows codec cl b ∧
    base.Pins ext order σ.handle.database.disk.live m.dataLength b
  serial_eq : (∀ cl ∈ σ.committed, cl.ReadsOwn) → c = serial codec c0 σ.committed

variable {σ σ' : TxStore α V} {i : ℕ} {cl : Client α V}
variable {cl' : Client α V} {h : Handle α} {committed' clients : List (Client α V)}
variable {db : Database α}

/-- The next call of a client that follows the map it has pinned. -/
theorem Follows.next (h : Follows codec cl b) {base : Snapshot} (hbase : cl.tx.base = some base)
    (hpins : base.Pins ext order f L b) : Follows codec (next ext codec order f cl) b := by
  intro c hc
  have hbefore : ∀ key ∈ cl.reads, c key = b key := fun key hkey => hc key (by simp [TxStore.next, hkey])
  have hcall : ∀ key ∈ (cl.body cl.replies).reads codec, c key = b key :=
    fun key hkey => hc key (by simp [TxStore.next, hkey])
  obtain ⟨hreply, hmap⟩ := Transaction.call_matches hbase hpins hcall
  simp only [TxStore.next, List.length_append, List.length_singleton, Body.run, h c hbefore]
  rw [hreply, hmap]

omit [LinearOrder α] in
/-- The open bases after the base of one client has been closed or left as it is. -/
theorem openBases_set (hi : clients[i]? = some cl) (cl' : Client α V) :
    openBases (clients.set i cl') =
      openBases clients - (if cl.tx.base.isSome then 1 else 0) +
        if cl'.tx.base.isSome then 1 else 0 := by
  obtain ⟨hlt, rfl⟩ := List.getElem?_eq_some_iff.mp hi
  exact List.countP_set hlt

omit [LinearOrder α] in
theorem openBases_pos (hi : clients[i]? = some cl) (hopen : cl.tx.base.isSome = true) :
    0 < openBases clients :=
  List.countP_pos_iff.mpr ⟨cl, List.mem_of_getElem? hi, hopen⟩

section

variable (hinv : σ.Inv ext codec order c0 m c)
include hinv

/-- Closing the base of a client, on the handle and in the list of clients. -/
theorem Inv.counted_close (hi : σ.clients[i]? = some cl) (db : Database α)
    (hclosed : cl'.tx.base = none) :
    (cl.tx.closeBase { σ.handle with database := db }).openSnapshots =
      openBases (σ.clients.set i cl') := by
  rw [openBases_set hi, hclosed, ← hinv.counted]
  unfold Transaction.closeBase
  cases cl.tx.base with
  | none => rfl
  | some base => rfl

/-- The invariant after a step of one client. -/
theorem Inv.replace {m' : Meta} {c' : α → Option Bytes}
    (hc : Committed ext order h.database.disk.live m' c') (horder : h.database.tree.order = order)
    (hunlocked : h.database.locked = false) (hclosed : h.closed = σ.handle.closed)
    (hcount : h.openSnapshots = openBases (σ.clients.set i cl'))
    (hrecords : SameRecords m.dataLength σ.handle.database.disk.live h.database.disk.live)
    (hle : m.dataLength ≤ m'.dataLength) (hcl : ∀ base ∈ cl'.tx.base, ∃ b, Follows codec cl' b ∧
      base.Pins ext order h.database.disk.live m'.dataLength b)
    (hserial : (∀ cl ∈ committed', cl.ReadsOwn) → c' = serial codec c0 committed') :
    Inv ext codec order c0 ⟨h, σ.clients.set i cl', committed'⟩ m' c' where
  committed := hc
  order_eq := horder
  unlocked := hunlocked
  notClosed := hclosed.trans hinv.notClosed
  counted := hcount
  clients := by
    intro x hx base hbase
    rcases List.mem_or_eq_of_mem_set hx with hx | rfl
    · obtain ⟨b, hfollows, hpins⟩ := hinv.clients x hx base hbase
      exact ⟨b, hfollows, hpins.mono hrecords hle hc.le⟩
    · exact hcl base hbase
  serial_eq := hserial

theorem Inv.begin (body : Body α V) {tx : Transaction α}
    (hrun : Transaction.begin ext σ.handle = .ok tx h) :
    Inv ext codec order c0
      { σ with handle := h, clients := σ.clients ++ [⟨tx, body, [], []⟩] } m c := by
  rw [Transaction.begin_eq hinv.notClosed hinv.committed] at hrun
  cases hrun
  refine ⟨hinv.committed, hinv.order_eq, hinv.unlocked, hinv.notClosed, ?_, ?_, hinv.serial_eq⟩
  · simp [openBases, hinv.counted]
  · intro cl hcl base hbase
    rcases List.mem_append.mp hcl with hcl | hcl
    · exact hinv.clients cl hcl base hbase
    · obtain rfl := List.mem_singleton.mp hcl
      obtain rfl : _ = base := by simpa using hbase
      refine ⟨c, fun c' _ => ?_, .of_committed hinv.committed⟩
      rw [Transaction.overlaid_empty]
      rfl

theorem Inv.call (hi : σ.clients[i]? = some cl) :
    Inv ext codec order c0 { σ with
      clients := σ.clients.set i (next ext codec order σ.handle.database.disk.live cl) } m c := by
  have hbase : (next ext codec order σ.handle.database.disk.live cl).tx.base = cl.tx.base :=
    Transaction.call_base _
  refine hinv.replace hinv.committed hinv.order_eq hinv.unlocked rfl ?_
    ⟨hinv.committed.le, fun _ _ _ => rfl⟩ le_rfl ?_ hinv.serial_eq
  · rw [openBases_set hi, hbase, ← hinv.counted]
    cases hopen : cl.tx.base.isSome with
    | false => rfl
    | true =>
      have := hinv.counted ▸ openBases_pos hi hopen
      simp only [if_true]
      omega
  · intro base hmem
    rw [hbase] at hmem
    obtain ⟨b, hfollows, hpins⟩ := hinv.clients cl (List.mem_of_getElem? hi) base hmem
    exact ⟨b, hfollows.next hmem hpins, hpins⟩

/-- A step that closes the base of a client and publishes nothing. -/
theorem Inv.close (hi : σ.clients[i]? = some cl)
    (hsame : File.SameBelow σ.handle.database.disk.live.size
      σ.handle.database.disk.live db.disk.live) (horder : db.tree.order = order)
    (hunlocked : db.locked = false) (hclosed : cl'.tx.base = none)
    (hserial : (∀ cl ∈ committed', cl.ReadsOwn) → c = serial codec c0 committed') :
    Inv ext codec order c0
      ⟨cl.tx.closeBase { σ.handle with database := db }, σ.clients.set i cl', committed'⟩ m c := by
  have hbelow := hsame.mono hinv.committed.le
  refine hinv.replace ?_ ?_ ?_ ?_ (hinv.counted_close hi db hclosed) ?_ le_rfl ?_ hserial
  · rw [closeBase_database]
    exact hinv.committed.sameBelow hbelow
  · rw [closeBase_database]
    exact horder
  · rw [closeBase_database]
    exact hunlocked
  · rw [Transaction.closeBase_closed]
  · rw [closeBase_database]
    exact .of_sameBelow hbelow
  · simp [hclosed]

/-- What the commit of a client does. -/
theorem Inv.outcome (hi : σ.clients[i]? = some cl) (hsome : cl.tx.overlay.entries ≠ []) :
    ∃ b, (cl.tx.base.isSome = true → Follows codec cl b) ∧
      cl.tx.Outcome ext order σ.handle.database m b c
        (cl.tx.commitOverlay ext σ.handle.database) := by
  cases hbase : cl.tx.base with
  | none =>
    have hpins : ∀ base ∈ cl.tx.base, base.Pins ext order σ.handle.database.disk.live 0 c := by
      simp [hbase]
    exact ⟨c, by simp, Transaction.commitOverlay_spec hinv.committed hinv.order_eq hsome hpins⟩
  | some base =>
    obtain ⟨b, hfollows, hpins⟩ := hinv.clients cl (List.mem_of_getElem? hi) base hbase
    refine ⟨b, fun _ => hfollows,
      Transaction.commitOverlay_spec (L := m.dataLength) hinv.committed hinv.order_eq hsome ?_⟩
    intro base' hmem
    obtain rfl : base = base' := by simpa [hbase] using hmem
    exact hpins

end

/-- The map of one more committed transaction, if it agrees with the pinned map on what
the transaction has read. -/
theorem serial_record (hserial : (∀ cl ∈ σ.committed, cl.ReadsOwn) → c = serial codec c0 σ.committed)
    (hfollows : cl.tx.base.isSome = true → Follows codec cl b)
    (hopen : cl.tx.base.isSome = true) (hunchanged : cl.tx.Unchanged b c)
    (hown : ∀ x ∈ record cl σ.committed, x.ReadsOwn) :
    cl.tx.overlaid c = serial codec c0 (record cl σ.committed) := by
  rw [record, if_pos hopen] at hown ⊢
  have hbefore := hserial fun x hx => hown x (by simp [hx])
  have hagree : ∀ key ∈ cl.reads, c key = b key := by
    intro key hkey
    obtain ⟨payload, hpayload⟩ := Option.ne_none_iff_exists'.mp (hown cl (by simp) key hkey)
    exact (hunchanged (key, payload) (PyDict.mem_entries_iff.mpr hpayload)).symm
  rw [serial, List.foldl_append, List.foldl_cons, List.foldl_nil, ← serial, ← hbefore,
    hfollows hopen c hagree]

section

variable (hinv : σ.Inv ext codec order c0 m c) (hi : σ.clients[i]? = some cl)
include hinv hi

theorem Inv.commit (hrun : cl.tx.commit ext σ.handle = .ok () h) :
    ∃ m' c', Inv ext codec order c0
      ⟨h, σ.clients.set i { cl with tx := cl.tx.committed }, record cl σ.committed⟩ m' c' := by
  by_cases hempty : cl.tx.overlay.entries = []
  · -- nothing is written; what the transaction has read was in its empty overlay
    rw [Transaction.commit_of_empty _ hempty] at hrun
    obtain rfl : cl.tx.closeBase σ.handle = h := by simpa using hrun
    refine ⟨m, c, hinv.close hi (.refl le_rfl) hinv.order_eq hinv.unlocked rfl ?_⟩
    intro hown
    cases hopen : cl.tx.base.isSome with
    | false =>
      rw [record, if_neg (by simp [hopen])] at hown ⊢
      exact hinv.serial_eq hown
    | true =>
      obtain ⟨base, hbase⟩ := Option.isSome_iff_exists.mp hopen
      obtain ⟨b, hfollows, -⟩ := hinv.clients cl (List.mem_of_getElem? hi) base hbase
      rw [← serial_record hinv.serial_eq (fun _ => hfollows) hopen
        (by simp [Transaction.Unchanged, hempty]) hown, Transaction.overlaid_of_empty hempty]
  · rw [Transaction.commit_of_ne _ hempty] at hrun
    obtain ⟨b, hfollows, houtcome⟩ := hinv.outcome hi hempty
    generalize cl.tx.commitOverlay ext σ.handle.database = result at hrun houtcome
    cases houtcome with
    | refused => cases hrun
    | failed => cases hrun
    | @published db1 db2 hbase hunchanged hwriting hdisk hpub =>
      obtain rfl : cl.tx.closeBase { σ.handle with database := db2 } = h := by simpa using hrun
      have hopen : cl.tx.base.isSome = true := Option.isSome_iff_ne_none.mpr hbase
      obtain ⟨hrecords, hgrown⟩ := hpub.records_of_le hwriting.committed.le
      refine ⟨db2.cached, cl.tx.overlaid c, hinv.replace ?_ ?_ ?_ ?_
        (hinv.counted_close hi db2 rfl) ?_ hgrown (by simp [Transaction.committed])
        fun hown => serial_record hinv.serial_eq hfollows hopen hunchanged hown⟩
      · rw [closeBase_database]
        exact hpub.committed
      · rw [closeBase_database]
        exact hpub.atMeta.order_eq
      · rw [closeBase_database]
        exact hpub.unlocked
      · rw [Transaction.closeBase_closed]
      · rw [closeBase_database, ← hdisk]
        exact hrecords

theorem Inv.commitRaises {e : PyError} (hrun : cl.tx.commit ext σ.handle = .error e h) :
    Inv ext codec order c0 { σ with
      handle := h
      clients := σ.clients.set i { cl with tx := cl.tx.committed } } m c := by
  by_cases hempty : cl.tx.overlay.entries = []
  · rw [Transaction.commit_of_empty _ hempty] at hrun
    cases hrun
  · rw [Transaction.commit_of_ne _ hempty] at hrun
    obtain ⟨b, -, houtcome⟩ := hinv.outcome hi hempty
    generalize cl.tx.commitOverlay ext σ.handle.database = result at hrun houtcome
    cases result with
    | ok _ db => cases hrun
    | error e' db =>
      obtain ⟨-, rfl⟩ : e' = e ∧ cl.tx.closeBase { σ.handle with database := db } = h := by
        simpa using hrun
      obtain ⟨hunlocked, -, horder, hsame⟩ := houtcome.of_error
      exact hinv.close hi hsame horder hunlocked rfl hinv.serial_eq

theorem Inv.abort :
    Inv ext codec order c0 { σ with
      handle := cl.tx.abort σ.handle
      clients := σ.clients.set i { cl with tx := Transaction.aborted } } m c :=
  hinv.close hi (.refl le_rfl) hinv.order_eq hinv.unlocked rfl hinv.serial_eq

end

/-- One step keeps the invariant. -/
theorem Step.inv {event : TxEvent} (hstep : Step ext codec order σ event σ')
    (hinv : σ.Inv ext codec order c0 m c) : ∃ m' c', σ'.Inv ext codec order c0 m' c' := by
  cases hstep with
  | begin body hrun => exact ⟨m, c, hinv.begin body hrun⟩
  | call hi => exact ⟨m, c, hinv.call hi⟩
  | commit hi hrun => exact hinv.commit hi hrun
  | commitRaises hi hrun => exact ⟨m, c, hinv.commitRaises hi hrun⟩
  | abort hi => exact ⟨m, c, hinv.abort hi⟩

theorem Inv.serves (hinv : σ.Inv ext codec order c0 m c) : σ.handle.database.Serves ext c := by
  exact (Database.Attached.of_unlocked hinv.committed hinv.order_eq hinv.unlocked).serves

/-- A database that was reached from a new one and has nothing staged. -/
theorem inv_new {db0 : Database α}
    (hnew : Database.connect ext (.blank order (.powerOn .empty)) = .ok () db0)
    (hdb : ReflTransGen (Session.Step ext order)
      (.running db0 (fun _ => none) fun _ => none) (.running db c0 s)) (hidle : db.locked = false) :
    (new db : TxStore α V).Inv ext codec order c0 db.cached c0 := by
  have hrunning : db.Running ext order c0 s := Session.inv_of_run hnew hdb
  exact ⟨hrunning.safe.committed, hrunning.holding.holds.order_eq, hidle, rfl, rfl, by simp [new],
    fun _ => rfl⟩

/-! ## Serial runs -/

/-- **Optimistic transactions lose no update.**  In any run of transactions on an open
database with the committed map `c0`: if those that have committed have read only keys in
their own overlays, the committed map is `c0` after their bodies, in commit order; and
a commit that finds a conflict, and an abort, leave the committed map as it was, the lock
released and the base closed. -/
theorem transactions_serialise (ext : Externals α) (codec : Codec α V) (order : ℕ)
    {db0 db : Database α}
    (hnew : Database.connect ext (.blank order (.powerOn .empty)) = .ok () db0)
    (hdb : ReflTransGen (Session.Step ext order)
      (.running db0 (fun _ => none) fun _ => none) (.running db c0 s))
    (hidle : db.locked = false)
    (hrun : ReflTransGen (fun σ σ' => ∃ event, Step ext codec order σ event σ')
      (new db) σ) :
    ((∀ cl ∈ σ.committed, cl.ReadsOwn) →
      σ.handle.database.Serves ext (serial codec c0 σ.committed)) ∧
    ∀ i event σ', Step ext codec order σ event σ' →
      event = .refused i .conflictError ∨ event = .aborted i →
      (∀ c, σ.handle.database.Serves ext c → σ'.handle.database.Serves ext c) ∧
      σ'.handle.database.locked = false ∧
      (∃ cl, σ'.clients[i]? = some cl ∧ cl.tx.base = none) ∧
      σ'.handle.openSnapshots = openBases σ'.clients := by
  obtain ⟨m, c, hinv⟩ : ∃ m c, σ.Inv ext codec order c0 m c := by
    induction hrun with
    | refl => exact ⟨_, _, inv_new hnew hdb hidle⟩
    | tail _ hstep ih =>
      obtain ⟨m, c, hinv⟩ := ih
      obtain ⟨event, hstep⟩ := hstep
      exact hstep.inv hinv
  refine ⟨fun hown => hinv.serial_eq hown ▸ hinv.serves, ?_⟩
  intro i event σ' hstep hevent
  -- both kinds of step keep the invariant, with the same committed map
  have hkept : ∀ {σ' : TxStore α V}, σ'.Inv ext codec order c0 m c →
      (∀ c, σ.handle.database.Serves ext c → σ'.handle.database.Serves ext c) ∧
      σ'.handle.database.locked = false ∧ σ'.handle.openSnapshots = openBases σ'.clients := by
    intro σ' hinv'
    refine ⟨fun c' hserves => ?_, hinv'.unlocked, hinv'.counted⟩
    rw [hserves.unique hinv.serves]
    exact hinv'.serves
  have hset : ∀ {j cl} (cl' : Client α V), σ.clients[j]? = some cl → cl'.tx.base = none →
      ∃ cl, (σ.clients.set j cl')[j]? = some cl ∧ cl.tx.base = none := by
    intro j cl cl' hj hclosed
    obtain ⟨hlt, -⟩ := List.getElem?_eq_some_iff.mp hj
    exact ⟨cl', List.getElem?_set_self hlt, hclosed⟩
  cases hstep with
  | begin => simp at hevent
  | call => simp at hevent
  | commit => simp at hevent
  | @commitRaises j cl h e hj hcommit =>
    obtain ⟨rfl, rfl⟩ : j = i ∧ e = .conflictError := by simpa using hevent
    obtain ⟨hserves, hunlocked, hcounted⟩ := hkept (hinv.commitRaises hj hcommit)
    exact ⟨hserves, hunlocked, hset _ hj rfl, hcounted⟩
  | @abort j cl hj =>
    obtain rfl : j = i := by simpa using hevent
    obtain ⟨hserves, hunlocked, hcounted⟩ := hkept (hinv.abort hj)
    exact ⟨hserves, hunlocked, hset _ hj rfl, hcounted⟩

/-- A client whose body adds a byte to the value of a key. -/
def sampleClient (key : ℕ) (tx : Transaction ℕ) (replies : List (Reply Bytes)) (reads : List ℕ) :
    Client ℕ Bytes :=
  ⟨tx, fun _ => .update key (fun value => .ok (value ++ [7])) [], replies, reads⟩

theorem transactions_serialise_sample :
    ∃ (db0 : Database ℕ) (σ : TxStore ℕ Bytes),
      Database.connect sampleExt (.blank 64 (.powerOn .empty)) = .ok () db0 ∧
      db0.locked = false ∧
      ReflTransGen (fun σ σ' => ∃ event, Step sampleExt sampleCodec 64 σ event σ')
        (new db0) σ ∧
      σ.committed.map Client.reads = [[1], [2]] ∧
      σ.handle.database.Serves sampleExt (Update.applyTo sampleMap (.set 2 [7])) := by
  obtain ⟨d, t, hnew, hc, hat, -, hsize⟩ :=
    Database.connect_new sampleExt (by decide : 3 ≤ 64)
  set db : Database ℕ := ⟨d, initialMeta, false, t⟩
  set tx : Transaction ℕ := ⟨some ⟨0, 0⟩, .empty⟩
  have hpins : (⟨0, 0⟩ : Snapshot).Pins sampleExt 64 d.live initialMeta.dataLength
      fun _ => none := .of_committed hc
  set one := sampleClient 1 (sampleTx 1) [.ok (some [7])] [1]
  set two := sampleClient 2 (sampleTx 2) [.ok (some [7])] [2]
  obtain ⟨db1, db2, hcommit, hdisk, hcached, hpub, hroom⟩ := sampleTx_commits 1 ⟨db, false, 2⟩
    hc hat.order_eq hpins rfl (by decide) (few_empty _) (roomy_new hc hsize)
  -- the second finds its key as it was when it began
  obtain rfl : db1.disk = d := hdisk
  obtain ⟨hrecords, hgrown⟩ := hpub.records_of_le hc.le
  obtain ⟨db3, db4, hcommit', -⟩ := sampleTx_commits 2 ⟨db2, false, 1⟩ hpub.committed
    hpub.atMeta.order_eq (hpins.mono hrecords hgrown hpub.committed.le) rfl (by decide)
    few_sampleMap hroom
  -- both transactions begin before either commits
  have hbegun : ReflTransGen (fun σ σ' => ∃ event, Step sampleExt sampleCodec 64 σ event σ')
      (new db) ⟨⟨db, false, 2⟩, [sampleClient 1 tx [] [], sampleClient 2 tx [] []], []⟩ :=
    (ReflTransGen.single ⟨_, .begin _ (Transaction.begin_eq (h := .ofDatabase db) rfl hc)⟩).tail
      ⟨_, .begin _ (Transaction.begin_eq (h := ⟨db, false, 1⟩) rfl hc)⟩
  have hsteps := (((hbegun.tail ⟨_, .call (i := 0) rfl⟩).tail ⟨_, .call (i := 1) rfl⟩).tail
    ⟨_, .commit (i := 0) rfl hcommit⟩).tail ⟨_, .commit (i := 1) rfl hcommit'⟩
  have hrun : ReflTransGen (fun σ σ' => ∃ event, Step sampleExt sampleCodec 64 σ event σ')
      (new db) ⟨⟨db4, false, 0⟩, [{ one with tx := one.tx.committed },
        { two with tx := two.tx.committed }], [one, two]⟩ := hsteps
  have hserial := (transactions_serialise sampleExt sampleCodec 64 hnew .refl rfl hrun).1
    (by simp [Client.ReadsOwn, one, two, sampleClient, sampleTx])
  exact ⟨_, _, hnew, rfl, hrun, rfl, hserial⟩

end TxStore
