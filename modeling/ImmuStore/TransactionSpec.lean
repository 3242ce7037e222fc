/-
# What transactions do

A transaction reads the map that its base has pinned, with its overlay on top.  `commit`
publishes the committed map with the overlay on top, unless the two maps differ on a key
of the overlay.
-/
import ImmuStore.InterfaceSpec

open Storage

variable {α V : Type} [LinearOrder α] {ext : Externals α} {codec : Codec α V} {order : ℕ}
  {f g : File} {L L' : ℕ} {m : Meta} {b c s : α → Option Bytes}

/-- `begin` pins the committed map. -/
theorem Transaction.begin_eq {h : Handle α} (hopen : h.closed = false)
    (hc : Committed ext order h.database.disk.live m c) :
    Transaction.begin ext h = .ok ⟨some ⟨m.rootAddress, m.keyCount⟩, .empty⟩ { h with
      database := { h.database with cached := m }
      openSnapshots := h.openSnapshots + 1 } := by
  simp [Transaction.begin, Handle.assertOpen, hopen, Handle.snapshot_eq hopen hc]

/-! ## Transactions -/

namespace Transaction

variable {tx : Transaction α} {db : Database α}

/-- The map with the overlay on top. -/
def overlaid (tx : Transaction α) (s : α → Option Bytes) : α → Option Bytes := fun key =>
  match tx.overlay.get? key with
  | some payload => payload
  | none => s key

theorem overlaid_empty (base : Option Snapshot) (s : α → Option Bytes) :
    (⟨base, .empty⟩ : Transaction α).overlaid s = s := by
  funext key
  simp [overlaid]

theorem overlaid_set (base : Option Snapshot) (key : α) (payload : Option Bytes)
    (s : α → Option Bytes) :
    (⟨base, tx.overlay.set key payload⟩ : Transaction α).overlaid s =
      Function.update (tx.overlaid s) key payload := by
  funext k
  by_cases hk : k = key
  · subst hk
    simp [overlaid]
  · simp [overlaid, PyDict.get?_set_of_ne hk, Function.update_of_ne hk]

/-- Writing the entries of a dictionary over a map one by one. -/
theorem foldl_entries {d : PyDict α (Option Bytes)} (s : α → Option Bytes) (key : α) :
    d.entries.foldl (fun s e => Function.update s e.1 e.2) s key =
      match d.get? key with
      | some payload => payload
      | none => s key := by
  obtain ⟨l, hl⟩ := d
  simp only [PyDict.get?]
  induction l generalizing s with
  | nil => rfl
  | cons e l ih =>
    rw [List.map_cons, List.nodup_cons] at hl
    rw [List.foldl_cons, ih _ hl.2, List.find?_cons]
    by_cases he : e.1 = key
    · have hnone : l.find? (fun e => decide (e.1 = key)) = none := by
        rw [List.find?_eq_none]
        intro e' he' hkey
        apply hl.1
        rw [he, ← of_decide_eq_true hkey]
        exact List.mem_map_of_mem he'
      rw [hnone, ← he]
      simp
    · simp only [he, decide_false]
      cases l.find? (fun e => decide (e.1 = key)) with
      | none => simp [Function.update_of_ne (Ne.symm he)]
      | some e' => rfl

theorem foldl_overlay (tx : Transaction α) (s : α → Option Bytes) :
    tx.overlay.entries.foldl (fun s e => Function.update s e.1 e.2) s = tx.overlaid s :=
  funext (foldl_entries s)

theorem currentValue_eq (h : db.Writing ext order m c s) (key : α) :
    currentValue ext key db = .ok (s key) db := by
  have hget := h.get key
  cases hkey : s key with
  | none =>
    rw [hkey] at hget
    simp [currentValue, onKeyError, hget]
  | some payload =>
    rw [hkey] at hget
    simp [currentValue, onKeyError, hget]

/-- `_check_conflicts` compares the pinned map with the map of the handle. -/
theorem checkConflicts_eq (h : db.Writing ext order m c s) {base : Snapshot}
    (hbase : tx.base = some base) (hpins : base.Pins ext order db.disk.live L b)
    (entries : List (α × Option Bytes)) :
    tx.checkConflicts ext entries db =
      if ∀ e ∈ entries, b e.1 = s e.1 then .ok () db else .error .conflictError db := by
  induction entries with
  | nil => simp [checkConflicts]
  | cons e entries ih =>
    obtain ⟨key, payload⟩ := e
    have hraw : tx.baseRaw ext db.tree.order db.disk.live key = .ok (b key) := by
      rw [baseRaw, hbase, h.holding.holds.order_eq]
      exact hpins.raw_eq key
    simp only [checkConflicts, run_bind, run_get, hraw, ofExcept_ok, currentValue_eq h]
    by_cases heq : b key = s key
    · simp only [heq, if_true, List.forall_mem_cons, true_and, ih]
    · simp only [heq, if_false, List.forall_mem_cons, false_and]
      rfl

theorem applyOverlay_spec (h : db.Writing ext order m c s) (entries : List (α × Option Bytes)) :
    ∃ db', applyOverlay ext entries db = .ok () db' ∧ db'.disk = db.disk ∧
      db'.Writing ext order m c (entries.foldl (fun s e => Function.update s e.1 e.2) s) := by
  induction entries generalizing db s with
  | nil => exact ⟨db, rfl, rfl, h⟩
  | cons e entries ih =>
    obtain ⟨key, payload⟩ := e
    cases payload with
    | none =>
      obtain ⟨db1, hrun, hdisk, h1⟩ := h.delete key
      obtain ⟨db2, hrest, hdisk', h2⟩ := ih h1
      exact ⟨db2, by rw [applyOverlay, run_bind, hrun]; exact hrest, hdisk'.trans hdisk, h2⟩
    | some value =>
      obtain ⟨db1, hrun, hdisk, h1⟩ := h.set key value
      obtain ⟨db2, hrest, hdisk', h2⟩ := ih h1
      exact ⟨db2, by rw [applyOverlay, run_bind, hrun]; exact hrest, hdisk'.trans hdisk, h2⟩

/-- The pinned map and the committed one do not differ on the overlay. -/
def Unchanged (tx : Transaction α) (b c : α → Option Bytes) : Prop :=
  ∀ e ∈ tx.overlay.entries, b e.1 = c e.1

/-- What a commit of an overlay does, on a file that has committed `m` and `c`: it finds
its base closed, it finds a conflict, it fails to write, or it publishes. -/
inductive Outcome (ext : Externals α) (order : ℕ) (tx : Transaction α) (db : Database α) (m : Meta)
    (b c : α → Option Bytes) : EStateM.Result PyError (Database α) Unit → Prop
  | refused {e : PyError} {t : BPlusTree α Bytes} :
      ((e = .attributeError ∧ tx.base = none) ∨
        (e = .conflictError ∧ tx.base ≠ none ∧ ¬ tx.Unchanged b c)) →
      AtMeta ext order db.disk.live db.disk.live.size m t →
      Outcome ext order tx db m b c (.error e ⟨db.disk, m, false, t⟩)
  | failed {e : PyError} {db1 db2 : Database α} : tx.base ≠ none → tx.Unchanged b c →
      db1.Writing ext order m c (tx.overlaid c) → db1.disk = db.disk →
      db1.commit ext = .error e db2 →
      Outcome ext order tx db m b c (.error e { db2 with locked := false })
  | published {db1 db2 : Database α} : tx.base ≠ none → tx.Unchanged b c →
      db1.Writing ext order m c (tx.overlaid c) → db1.disk = db.disk →
      Database.Published ext order db1 db2 (tx.overlaid c) →
      Outcome ext order tx db m b c (.ok () db2)

/-- `commit` of an overlay that is not empty. -/
theorem commitOverlay_spec (hc : Committed ext order db.disk.live m c)
    (horder : db.tree.order = order) (hsome : tx.overlay.entries ≠ [])
    (hpins : ∀ base ∈ tx.base, base.Pins ext order db.disk.live L b) :
    Outcome ext order tx db m b c (tx.commitOverlay ext db) := by
  obtain ⟨db0, hrefresh, hdisk, hwriting, hat⟩ := Database.refresh_locked db hc horder
  have hrun : tx.commitOverlay ext db = andFinally (do
      tx.checkConflicts ext tx.overlay.entries
      applyOverlay ext tx.overlay.entries
      Database.commit ext) (fun db => { db with locked := false }) db0 := by
    simp only [commitOverlay, run_bind, Database.lock, andFinally, hrefresh]
  have hclean : (⟨db.disk, m, false, db0.tree⟩ : Database α) = { db0 with locked := false } := by
    rw [← hdisk, ← hwriting.cached_eq]
  rw [hrun]
  cases hbase : tx.base with
  | none =>
    obtain ⟨e, entries, hentries⟩ := List.exists_cons_of_ne_nil hsome
    have hcheck : tx.checkConflicts ext tx.overlay.entries db0 = .error .attributeError db0 := by
      rw [hentries]
      simp [checkConflicts, baseRaw, hbase]
    simp only [andFinally, run_bind, hcheck]
    rw [← hclean]
    exact .refused (.inl ⟨rfl, hbase⟩) hat
  | some base =>
    have hne : tx.base ≠ none := by simp [hbase]
    have hcheck := checkConflicts_eq hwriting hbase (hdisk ▸ hpins base (by simp [hbase]))
      tx.overlay.entries
    by_cases hunchanged : ∀ e ∈ tx.overlay.entries, b e.1 = c e.1
    · obtain ⟨db1, happly, hdisk1, hwriting1⟩ := applyOverlay_spec hwriting tx.overlay.entries
      rw [foldl_overlay] at hwriting1
      rw [if_pos hunchanged] at hcheck
      simp only [andFinally, run_bind, hcheck, happly]
      cases hcommit : Database.commit ext db1 with
      | error e db2 => exact .failed hne hunchanged hwriting1 (hdisk1.trans hdisk) hcommit
      | ok _ db2 =>
        have hpub := Database.commit_published (hwriting1.cached_eq ▸ hwriting1.committed)
          hwriting1.holding hcommit
        have hsame : ({ db2 with locked := false } : Database α) = db2 := by
          rw [← hpub.unlocked]
        simp only [hsame]
        exact .published hne hunchanged hwriting1 (hdisk1.trans hdisk) hpub
    · rw [if_neg hunchanged] at hcheck
      simp only [andFinally, run_bind, hcheck]
      rw [← hclean]
      exact .refused (.inr ⟨rfl, hne, hunchanged⟩) hat

/-! ## Calls of a transaction -/

section Calls

variable {base : Snapshot}
variable {key : α}
variable {tx' : Transaction α}

/-- A key that is read as in the pinned map is read as in the overlaid one. -/
theorem get_eq (hbase : tx.base = some base) (hpins : base.Pins ext order f L b)
    (hkey : codec.validKey key = true → c key = b key) :
    tx.get ext codec order f key = mapGet codec (tx.overlaid c) key := by
  unfold get mapGet
  by_cases hvalid : codec.validKey key = true
  · rw [if_pos hvalid, if_pos hvalid]
    cases hover : tx.overlay.get? key with
    | none =>
      have hsame : tx.overlaid c key = b key := by
        rw [overlaid, hover]
        exact hkey hvalid
      simp only [baseItem, hbase, Snapshot.getItem, hpins.raw_eq, hsame]
      cases b key with
      | none => rfl
      | some payload => rfl
    | some payload =>
      have hsame : tx.overlaid c key = payload := by rw [overlaid, hover]
      rw [hsame]
      cases payload with
      | none => rfl
      | some payload => rfl
  · rw [if_neg hvalid, if_neg hvalid]

theorem contains_eq (hbase : tx.base = some base) (hpins : base.Pins ext order f L b)
    (hkey : c key = b key) :
    tx.contains ext order f key = .ok (tx.overlaid c key).isSome := by
  unfold contains overlaid
  cases tx.overlay.get? key with
  | none =>
    simp only [baseContains, hbase, Snapshot.contains, hpins.raw_eq, hkey]
    rfl
  | some payload => rfl

theorem set_base {value : V} (h : tx.set codec key value = .ok tx') : tx'.base = tx.base := by
  unfold set at h
  split_ifs at h
  obtain ⟨payload, -, hrun⟩ := Except.bind_eq_ok.mp h
  rw [← Except.ok.inj hrun]

theorem delete_base (h : tx.delete ext codec order f key = .ok tx') : tx'.base = tx.base := by
  unfold delete at h
  split_ifs at h
  obtain ⟨present, -, hrun⟩ := Except.bind_eq_ok.mp h
  cases present with
  | true => rw [← Except.ok.inj hrun]
  | false => cases hrun

end Calls

/-! ## Commits on a handle -/

omit [LinearOrder α] in
@[simp] theorem closeBase_database (tx : Transaction α) (h : Handle α) :
    (tx.closeBase h).database = h.database := by
  unfold closeBase
  cases tx.base with
  | none => rfl
  | some base => rfl

omit [LinearOrder α] in
@[simp] theorem closeBase_closed (tx : Transaction α) (h : Handle α) :
    (tx.closeBase h).closed = h.closed := by
  unfold closeBase
  cases tx.base with
  | none => rfl
  | some base => rfl

/-- `commit` of an empty overlay only closes the base. -/
theorem commit_of_empty (h : Handle α) (hempty : tx.overlay.entries = []) :
    tx.commit ext h = .ok () (tx.closeBase h) := by
  rw [commit, if_pos hempty]
  rfl

theorem commit_of_ne (h : Handle α) (hsome : tx.overlay.entries ≠ []) :
    tx.commit ext h = match tx.commitOverlay ext h.database with
      | .ok () db => .ok () (tx.closeBase { h with database := db })
      | .error e db => .error e (tx.closeBase { h with database := db }) := by
  rw [commit, if_neg hsome]
  unfold andFinally Handle.onDatabase
  cases tx.commitOverlay ext h.database with
  | ok _ db => rfl
  | error e db => rfl

theorem overlaid_of_empty (hempty : tx.overlay.entries = []) (s : α → Option Bytes) :
    tx.overlaid s = s := by
  rw [← foldl_overlay, hempty]
  rfl

/-- What a commit leaves that did not publish: the lock is released and the committed
map is untouched. -/
theorem Outcome.of_error {e : PyError} {db db' : Database α}
    (h : Outcome ext order tx db m b c (.error e db')) :
    db'.locked = false ∧ db'.cached = m ∧ db'.tree.order = order ∧
      File.SameBelow db.disk.live.size db.disk.live db'.disk.live := by
  cases h with
  | refused _ hat => exact ⟨rfl, rfl, hat.order_eq, .refl le_rfl⟩
  | @failed _ db1 db2 _ _ hwriting hdisk hrun =>
    obtain ⟨hcached, hholding, hsame, -⟩ := Database.commit_raised
      (hwriting.cached_eq ▸ hwriting.committed) hwriting.holding hrun
    exact ⟨rfl, hcached.trans hwriting.cached_eq, hholding.holds.order_eq, hdisk ▸ hsame⟩

end Transaction
