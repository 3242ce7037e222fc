/-
# Corruption of a meta slot

The two slots are written in turn.  Once a commit has been made since the file was
opened, they hold the last commit and the one before it, and the records of the older one
are still in place: if either slot is damaged while the database is down, it is opened as
the other one left it, and the next commit takes the damaged slot.
-/
import ImmuStore.Recovery

open Relation Storage

variable {α : Type} [LinearOrder α] {ext : Externals α} {order : ℕ} {f g : File} {m m' : Meta}
  {c p s : α → Option Bytes} {d d' : Disk} {db db' : Database α}

/-! ## The other slot -/

/-- Beside the adopted meta block `m` stands the older `m'`, with the map `p` behind it. -/
structure Fallback (ext : Externals α) (order : ℕ) (f : File) (m m' : Meta)
    (p : α → Option Bytes) : Prop where
  slot_eq : m'.slot = 1 - m.slot
  own : readSlot ext.crc32 f m'.slot = .ok (some m')
  ge : superblockSize ≤ m'.dataLength
  le : m'.dataLength ≤ m.dataLength
  tree : ∃ t, AtMeta ext order f m'.dataLength m' t ∧ BPlusTree.Holds order t p

theorem Fallback.sameBelow (h : Fallback ext order f m m' p)
    (hfg : File.SameBelow m.dataLength f g) : Fallback ext order g m m' p := by
  obtain ⟨t, hat, hholds⟩ := h.tree
  have hslot := h.slot_eq
  refine { h with own := ?_, tree := ⟨t, ?_, hholds⟩ }
  · rw [← readSlot_sameBelow hfg (h.ge.trans h.le) (by omega)]
    exact h.own
  · exact hat.mono (.of_sameBelow (hfg.mono h.le)) le_rfl (h.le.trans hfg.le_right)

/-- If the slot of the adopted meta block fails, the other one is adopted. -/
theorem Fallback.adopt (h : Fallback ext order f m m' p) (hc : Committed ext order f m c)
    (hfg : SameButSlot m.slot f g) (hbad : readSlot ext.crc32 g m.slot = .ok none) :
    Committed ext order g m' p := by
  obtain ⟨t, hat, hholds⟩ := h.tree
  have hslot := hc.adopted.slot_lt
  have heq := h.slot_eq
  have hle : m'.dataLength ≤ g.size := (h.le.trans hc.le).trans hfg.size_eq.ge
  have hrecords := hfg.sameRecords hslot
  refine ⟨⟨by omega, ?_, .inl ?_⟩, h.ge, hle, t, ?_, hholds⟩
  · rw [heq, ← hfg.readSlot hslot, ← heq]
    exact h.own
  · rw [show 1 - m'.slot = m.slot by omega]
    exact hbad
  · exact hat.mono ⟨hle, fun i hi hi' =>
      hrecords.byte_eq i hi (hi'.trans_le (h.le.trans hc.le))⟩ le_rfl hle

/-- After a commit the other slot holds what was committed before. -/
theorem Fallback.of_commit (hc : Committed ext order db.disk.live db.cached c)
    (hs : Holding ext order db.disk.live db.tree s) (hrun : db.commit ext = .ok () db') :
    Fallback ext order db'.disk.live db'.cached db.cached c := by
  have hpub := Database.commit_published hc hs hrun
  have hslot := hc.adopted.slot_lt
  have hsucc := hpub.succeeds.slot
  obtain ⟨t, hat, hholds⟩ := hc.tree
  obtain ⟨hrecords, hle⟩ := hpub.records_of_le hc.le
  refine ⟨by omega, Database.commit_keeps_slot hc hs hrun, hc.ge, hle, t, ?_, hholds⟩
  exact hat.mono hrecords le_rfl hrecords.le_right

/-- A change to one slot that makes its checksum fail. -/
structure Corrupts (crc32 : Bytes → ℕ) (index : ℕ) (f g : File) : Prop where
  same : SameButSlot index f g
  fails : CrcFails crc32 g index

/-- Whichever slot is damaged, the other one is adopted. -/
theorem Fallback.corrupted (h : Fallback ext order f m m' p) (hc : Committed ext order f m c)
    {index : ℕ} (hindex : index < 2) (hbad : Corrupts ext.crc32 index f g) :
    ∃ x, Committed ext order g x (if index = m.slot then p else c) := by
  have hnone := readSlot_of_crcFails hbad.fails
  have hslot := hc.adopted.slot_lt
  by_cases heq : index = m.slot
  · rw [if_pos heq]
    subst heq
    exact ⟨m', h.adopt hc hbad.same hnone⟩
  · rw [if_neg heq]
    obtain rfl : index = 1 - m.slot := by omega
    exact ⟨m, hc.torn hbad.same (.inl hnone)⟩

/-! ## Runs -/

/-- The operation writes into the superblock. -/
def DiskOp.WritesSlot : DiskOp → Prop
  | .write pos _ => pos < superblockSize
  | .truncate _ => False
  | .flush => False

/-- A database: open, with the map committed before the last one if there has been a commit
since it was opened, and the maps committed last and staged; or down, with the maps that
may be found, and the pairs of last and preceding map that its slots may hold. -/
inductive SlotSession (α : Type) where
  | running (db : Database α) (before : Option (α → Option Bytes)) (committed staged : α → Option Bytes)
  | down (f : File) (allowed : Set (α → Option Bytes))
      (pairs : Set ((α → Option Bytes) × (α → Option Bytes)))

namespace SlotSession

/-- What the slots hold after a commit. -/
def lastTwo (before : Option (α → Option Bytes)) (c : α → Option Bytes) :
    Set ((α → Option Bytes) × (α → Option Bytes)) :=
  {pair | pair.1 = c ∧ pair.2 ∈ before}

variable (ext) (order) in
/-- The steps of a run: calls, closing, crashes anywhere, and damage to a slot of a file
whose slots hold two commits. -/
inductive Step : SlotSession α → SlotSession α → Prop
  | update {db : Database α} {before : Option (α → Option Bytes)} {c s : α → Option Bytes}
      (u : Update α Bytes) :
      Step (.running db before c s)
        (.running (resultState (db.update ext u)) before c (u.applyTo s))
  | commit {db db' : Database α} {before : Option (α → Option Bytes)} {c s : α → Option Bytes} :
      db.commit ext = .ok () db' → Step (.running db before c s) (.running db' (some c) s s)
  | commitRaises {db db' : Database α} {before : Option (α → Option Bytes)}
      {c s : α → Option Bytes} {e : PyError} : db.commit ext = .error e db' →
      Step (.running db before c s) (.running db' before c s)
  | close {db : Database α} {before : Option (α → Option Bytes)} {c s : α → Option Bytes} :
      Step (.running db before c s) (.down db.disk.live {c} (lastTwo before c))
  | crash {db : Database α} {before : Option (α → Option Bytes)} {c s : α → Option Bytes} {f : File} :
      db.disk.Crashed (TornSlotFails ext.crc32) f →
      Step (.running db before c s) (.down f {c} (lastTwo before c))
  | crashInCommit {db : Database α} {before : Option (α → Option Bytes)} {c s : α → Option Bytes}
      {d : Disk} {f : File} : db.disk.Later d → d.Later (resultState (db.commit ext)).disk →
      d.Crashed (TornSlotFails ext.crc32) f →
      Step (.running db before c s) (.down f {c, s} ∅)
  | crashBetweenSlots {db : Database α} {p c s : α → Option Bytes} {d : Disk} {f : File} :
      db.disk.Later d → d.Later (resultState (db.commit ext)).disk →
      (∀ op ∈ d.pending, ¬ op.WritesSlot) → d.Crashed (TornSlotFails ext.crc32) f →
      Step (.running db (some p) c s) (.down f {c, s} {(c, p), (s, c)})
  | corrupt {f g : File} {allowed : Set (α → Option Bytes)}
      {pairs : Set ((α → Option Bytes) × (α → Option Bytes))} {index : ℕ} : pairs.Nonempty →
      index < 2 → Corrupts ext.crc32 index f g →
      Step (.down f allowed pairs) (.down g {c | ∃ pair ∈ pairs, c = pair.1 ∨ c = pair.2} ∅)
  | reopen {f : File} {allowed : Set (α → Option Bytes)}
      {pairs : Set ((α → Option Bytes) × (α → Option Bytes))} {db : Database α}
      {c : α → Option Bytes} :
      Database.connect ext (.blank order (.powerOn f)) = .ok () db → db.Serves ext c →
      Step (.down f allowed pairs) (.running db none c c)
  | crashInRecovery {f g : File} {allowed : Set (α → Option Bytes)}
      {pairs : Set ((α → Option Bytes) × (α → Option Bytes))} {d : Disk} :
      (Disk.powerOn f).Later d →
      d.Later (resultState (Database.connect ext (.blank order (.powerOn f)))).disk →
      d.Crashed (TornSlotFails ext.crc32) g →
      Step (.down f allowed pairs) (.down g allowed ∅)

/-- The slots of the file hold one of the pairs. -/
def HoldsPair (ext : Externals α) (order : ℕ) (f : File)
    (pairs : Set ((α → Option Bytes) × (α → Option Bytes))) : Prop :=
  ∃ last before, (last, before) ∈ pairs ∧ ∃ m m', Committed ext order f m last ∧
    Fallback ext order f m m' before

/-- The invariant of a run. -/
def Inv (ext : Externals α) (order : ℕ) : SlotSession α → Prop
  | .running db before c s => db.Running ext order c s ∧
      ∀ p ∈ before, ∃ m', Fallback ext order db.disk.live db.cached m' p
  | .down f allowed pairs => (∃ m, ∃ c ∈ allowed, Committed ext order f m c) ∧
      (pairs.Nonempty → HoldsPair ext order f pairs)

/-- A file whose bytes below the commit are those of a running database. -/
theorem holdsPair_of_sameBelow {before : Option (α → Option Bytes)}
    (hc : Committed ext order f m c)
    (hbefore : ∀ p ∈ before, ∃ m', Fallback ext order f m m' p)
    (hfg : File.SameBelow m.dataLength f g) (hne : (lastTwo before c).Nonempty) :
    HoldsPair ext order g (lastTwo before c) := by
  obtain ⟨⟨_, p⟩, rfl, hp⟩ := hne
  obtain ⟨m', hold⟩ := hbefore p hp
  exact ⟨_, p, ⟨rfl, hp⟩, m, m', hc.sameBelow hfg, hold.sameBelow hfg⟩

end SlotSession

/-- Whatever a crash leaves here has one of the pairs in its slots, unless it interrupts a
slot write. -/
def PairSafe (ext : Externals α) (order : ℕ)
    (pairs : Set ((α → Option Bytes) × (α → Option Bytes))) (d : Disk) : Prop :=
  (∀ op ∈ d.pending, ¬ op.WritesSlot) → ∀ f, d.Crashed (TornSlotFails ext.crc32) f →
    SlotSession.HoldsPair ext order f pairs

theorem Safe.pairSafe (h : Safe ext order m c d) (hold : Fallback ext order d.live m m' p)
    {pairs : Set ((α → Option Bytes) × (α → Option Bytes))} (hmem : (c, p) ∈ pairs) :
    PairSafe ext order pairs d := by
  intro _ f hf
  have hsame := h.guarded.live.symm.trans (h.guarded.crashed hf)
  exact ⟨c, p, hmem, m, m', h.committed.sameBelow hsame, hold.sameBelow hsame⟩

/-- Between slot writes, a commit leaves the last two commits in the slots. -/
theorem commit_pairSafe (hsafe : Safe ext order db.cached c db.disk)
    (hs : Holding ext order db.disk.live db.tree s)
    (hold : Fallback ext order db.disk.live db.cached m' p) :
    db.disk.Throughout (PairSafe ext order {(c, p), (s, c)}) (resultState (db.commit ext)).disk := by
  set P : Disk → Prop := fun d =>
    Safe ext order db.cached c d ∧ Fallback ext order d.live db.cached m' p with hP
  have hpairs : ∀ d, P d → PairSafe ext order {(c, p), (s, c)} d :=
    fun d hd => hd.1.pairSafe hd.2 (.inl rfl)
  have happends : ∀ d, db.disk.Appends d → Disk.Throughout P db.disk d := by
    intro d happ
    refine happ.throughout ⟨hsafe, hold⟩ fun e pos data he hpos => ?_
    have hwrite := he.1.write (he.1.committed.le.trans hpos) data
    refine ⟨hwrite, ?_⟩
    rw [Disk.live_write]
    exact he.2.sameBelow (.write he.1.committed.le (he.1.committed.le.trans hpos) data)
  have hflush : ∀ d, P d → P (d.push .flush) := by
    intro d hd
    refine ⟨.flush hd.1.committed, ?_⟩
    rw [Disk.live_flush]
    exact hd.2
  have hspec := Database.commit_spec hsafe.committed hs
  have hfallback : ∀ db', db.commit ext = .ok () db' →
      Fallback ext order db'.disk.live db'.cached db.cached c :=
    fun db' hrun => .of_commit hsafe.committed hs hrun
  generalize db.commit ext = result at hspec hfallback ⊢
  cases hspec with
  | @unstored e d t happ => exact (happends d happ).mono hpairs
  | @unpublished e d t happ =>
    have hstored := happends d happ
    have hd := hstored d happ.later (.refl d)
    exact (hstored.trans (.push hd (hflush d hd)) happ.later (Disk.later_push _ _)).mono hpairs
  | @published d t t' x block happ hat hholds hsucc hlen hblock hpub _ =>
    have hstored := happends d happ
    have hd := hstored d happ.later (.refl d)
    have hbefore := (hstored.trans (.push hd (hflush d hd)) happ.later (Disk.later_push _ _)).mono
      hpairs
    have hslot : x.slot < 2 := by
      have := hsucc.slot
      omega
    -- here the write of the slot is pending
    have hwriting : PairSafe ext order {(c, p), (s, c)}
        ((d.push .flush).push (.write (x.slot * metaSlotSize) block)) := by
      intro hnone
      have hpos : x.slot * metaSlotSize < superblockSize := by
        simp only [metaSlotSize, superblockSize]
        omega
      exact absurd hpos (hnone (.write (x.slot * metaSlotSize) block) (by simp))
    have hafter : PairSafe ext order {(c, p), (s, c)} (((d.push .flush).push
        (.write (x.slot * metaSlotSize) block)).push .flush) := by
      have hsafe' : Safe ext order x s (((d.push .flush).push
          (.write (x.slot * metaSlotSize) block)).push .flush) :=
        .flush (by rw [Disk.live_write, Disk.live_flush]; exact hpub)
      exact hsafe'.pairSafe (hfallback _ rfl) (.inr rfl)
    have hflushed : db.disk.Later (d.push .flush) := happ.later.trans (Disk.later_push _ _)
    have hwrite := hbefore.trans (.push (hbefore _ hflushed (.refl _)) hwriting) hflushed
      (Disk.later_push _ _)
    exact hwrite.trans (.push hwriting hafter) (hflushed.trans (Disk.later_push _ _))
      (Disk.later_push _ _)

/-! ## The invariant -/

/-- `set` and `delete` change neither the file nor the cache of a running database. -/
theorem Database.Running.update_keeps (h : db.Running ext order c s) (u : Update α Bytes) :
    (resultState (db.update ext u)).disk = db.disk ∧
      (resultState (db.update ext u)).cached = db.cached := by
  obtain ⟨t, -, hrun | ⟨-, hrun⟩⟩ := h.attached.update u
  · rw [hrun]
    exact ⟨rfl, rfl⟩
  · rw [hrun]
    exact ⟨rfl, rfl⟩

namespace SlotSession

variable {σ : SlotSession α}

/-- One step keeps the invariant. -/
theorem Step.inv {σ' : SlotSession α} (hstep : σ.Step ext order σ') (h : σ.Inv ext order) :
    σ'.Inv ext order := by
  cases hstep with
  | update u =>
    obtain ⟨hrunning, hbefore⟩ := h
    obtain ⟨hdisk, hcached⟩ := hrunning.update_keeps u
    refine ⟨hrunning.update u, ?_⟩
    rw [hdisk, hcached]
    exact hbefore
  | commit hrun =>
    obtain ⟨hrunning, -⟩ := h
    refine ⟨hrunning.commit hrun, ?_⟩
    rintro p ⟨⟩
    exact ⟨_, .of_commit hrunning.safe.committed hrunning.holding hrun⟩
  | commitRaises hrun =>
    obtain ⟨hrunning, hbefore⟩ := h
    obtain ⟨hcached, -, hsame, -⟩ :=
      Database.commit_raised hrunning.safe.committed hrunning.holding hrun
    refine ⟨hrunning.commitRaises hrun, fun p hp => ?_⟩
    obtain ⟨m', hold⟩ := hbefore p hp
    rw [hcached]
    exact ⟨m', hold.sameBelow (hsame.mono hrunning.safe.committed.le)⟩
  | close =>
    obtain ⟨hrunning, hbefore⟩ := h
    have hc := hrunning.safe.committed
    exact ⟨⟨_, _, rfl, hc⟩, holdsPair_of_sameBelow hc hbefore (.refl hc.le)⟩
  | crash hcrashed =>
    obtain ⟨hrunning, hbefore⟩ := h
    have hsafe := hrunning.safe
    have hsame := hsafe.guarded.live.symm.trans (hsafe.guarded.crashed hcrashed)
    exact ⟨hsafe.crashSafe (Set.mem_singleton _) _ hcrashed,
      holdsPair_of_sameBelow hsafe.committed hbefore hsame⟩
  | crashInCommit hlater hlater' hcrashed =>
    obtain ⟨hrunning, -⟩ := h
    refine ⟨commit_crashSafe hrunning.safe hrunning.holding _ hlater hlater' _ hcrashed, ?_⟩
    rintro ⟨_, ⟨⟩⟩
  | crashBetweenSlots hlater hlater' hpending hcrashed =>
    obtain ⟨hrunning, hbefore⟩ := h
    obtain ⟨m', hold⟩ := hbefore _ rfl
    exact ⟨commit_crashSafe hrunning.safe hrunning.holding _ hlater hlater' _ hcrashed, fun _ =>
      commit_pairSafe hrunning.safe hrunning.holding hold _ hlater hlater' hpending _ hcrashed⟩
  | corrupt hne hindex hbad =>
    obtain ⟨last, before, hmem, m, m', hc, hold⟩ := h.2 hne
    obtain ⟨x, hx⟩ := hold.corrupted hc hindex hbad
    refine ⟨⟨x, _, ⟨_, hmem, ?_⟩, hx⟩, ?_⟩
    · split_ifs
      · exact .inr rfl
      · exact .inl rfl
    · rintro ⟨_, ⟨⟩⟩
  | reopen hrun hserves =>
    obtain ⟨⟨m, c, -, hc⟩, -⟩ := h
    obtain ⟨db, hrun', hrunning⟩ := Database.connect_running hc
    obtain rfl : db = _ := by simpa [hrun] using hrun'.symm
    rw [hserves.unique hrunning.attached.serves]
    exact ⟨hrunning, by simp⟩
  | crashInRecovery hlater hlater' hcrashed =>
    obtain ⟨⟨m, c, hmem, hc⟩, -⟩ := h
    obtain ⟨d, t, hrun, -, -, hsafe⟩ := connect_safe hc
    rw [hrun] at hlater'
    refine ⟨(hsafe _ hlater hlater').crashSafe hmem _ hcrashed, ?_⟩
    rintro ⟨_, ⟨⟩⟩

theorem inv_of_run {db0 : Database α}
    (hnew : Database.connect ext (.blank order (.powerOn .empty)) = .ok () db0)
    (hrun : ReflTransGen (Step ext order)
      (.running db0 none (fun _ => none) fun _ => none) σ) : σ.Inv ext order := by
  induction hrun with
  | refl => exact ⟨Database.connect_new_running hnew, by simp⟩
  | tail _ hstep ih => exact hstep.inv ih

end SlotSession

/-! ## The next commit -/

/-- A call before the next commit that returns: an update, or a commit that raises. -/
inductive Database.Staging (ext : Externals α) :
    Database α × (α → Option Bytes) → Database α × (α → Option Bytes) → Prop
  | update {db : Database α} {s : α → Option Bytes} (u : Update α Bytes) :
      Staging ext (db, s) (resultState (db.update ext u), u.applyTo s)
  | commitRaises {db db' : Database α} {s : α → Option Bytes} {e : PyError} :
      db.commit ext = .error e db' → Staging ext (db, s) (db', s)

/-- Whatever is staged on `db`, which was opened on `g` as the map `c`: the next commit is
newer than every slot of `g` that is valid, and the file is then opened as it left it. -/
def Database.NextCommitWins (ext : Externals α) (order : ℕ) (g : File) (db : Database α)
    (c : α → Option Bytes) : Prop :=
  ∀ db1 s db2, ReflTransGen (Staging ext) (db, c) (db1, s) →
    db1.commit ext = .ok () db2 →
    (∀ index < 2, ∀ x, readSlot ext.crc32 g index = .ok (some x) → x.txnId < db2.cached.txnId) ∧
    ∀ h, (h = db2.disk.live ∨ db2.disk.Crashed (TornSlotFails ext.crc32) h) →
      ∃ db3, connect ext (.blank order (.powerOn h)) = .ok () db3 ∧ db3.cached = db2.cached ∧
        db3.Serves ext s

/-- What is staged keeps the database running, with the cache it was opened with. -/
theorem Database.Running.staging {db1 : Database α} (h : db.Running ext order c c)
    (hrun : ReflTransGen (Staging ext) (db, c) (db1, s)) :
    db1.Running ext order c s ∧ db1.cached = db.cached := by
  generalize hx : (db1, s) = x at hrun
  induction hrun generalizing db1 s with
  | refl =>
    cases hx
    exact ⟨h, rfl⟩
  | tail _ hstep ih =>
    cases hstep with
    | update u =>
      cases hx
      obtain ⟨hrunning, hcached⟩ := ih rfl
      exact ⟨hrunning.update u, (hrunning.update_keeps u).2.trans hcached⟩
    | commitRaises hraises =>
      cases hx
      obtain ⟨hrunning, hcached⟩ := ih rfl
      exact ⟨hrunning.commitRaises hraises, (commit_raised hrunning.safe.committed hrunning.holding
        hraises).1.trans hcached⟩

/-- The next commit on a database that was opened on `g`. -/
theorem Committed.nextCommitWins (hc : Committed ext order g m c)
    (hrunning : db.Running ext order c c) (hcached : db.cached = m) :
    db.NextCommitWins ext order g c := by
  intro db1 s db2 hstaging hcommit
  obtain ⟨hrunning1, hcached1⟩ := hrunning.staging hstaging
  have hpub := Database.commit_published hrunning1.safe.committed hrunning1.holding hcommit
  refine ⟨fun index hindex x hx => ?_, fun h hh => ?_⟩
  · have hle := hc.adopted.txnId_le hindex hx
    have htxn := hpub.succeeds.txnId
    rw [hcached1, hcached] at htxn
    omega
  · have hsame : File.SameBelow db2.cached.dataLength db2.disk.live h := by
      rcases hh with rfl | hcrashed
      · exact .refl hpub.committed.le
      · exact hpub.guarded.live.symm.trans (hpub.guarded.crashed hcrashed)
    have hc' := hpub.committed.sameBelow hsame
    obtain ⟨d, t, hopen, hc'', hat, -⟩ := Database.connect_spec (d := .powerOn h) hc'
    exact ⟨_, hopen, rfl, (Database.Attached.of_unlocked hc'' hat.order_eq rfl).serves⟩

/-! ## One slot, one commit -/

/-- **Damage to one slot costs at most one commit.**  If a database has gone down after a
commit since it was opened, without interrupting the write of a slot, then damage to the
slot of the last commit brings back the map committed before it, and damage to the other
slot loses nothing; the audit finds no errors, and the next commit supersedes whatever the
slots hold. -/
theorem slot_damage_costs_one_commit (ext : Externals α) (order : ℕ) {db0 : Database α}
    (hnew : Database.connect ext (.blank order (.powerOn .empty)) = .ok () db0) {f : File}
    {allowed : Set (α → Option Bytes)} {pairs : Set ((α → Option Bytes) × (α → Option Bytes))}
    (hrun : ReflTransGen (SlotSession.Step ext order)
      (.running db0 none (fun _ => none) fun _ => none) (.down f allowed pairs))
    (hpairs : pairs.Nonempty) :
    ∃ last before, (last, before) ∈ pairs ∧ ∃ m, readBestMeta ext.crc32 f = .ok m ∧
      ∀ index < 2, ∀ g, Corrupts ext.crc32 index f g →
        ∃ db, Database.connect ext (.blank order (.powerOn g)) = .ok () db ∧
          (∃ report db', db.audit ext = .ok report db' ∧ report.errors = []) ∧
          db.Serves ext (if index = m.slot then before else last) ∧
          db.NextCommitWins ext order g (if index = m.slot then before else last) := by
  obtain ⟨last, before, hmem, m, m', hc, hold⟩ := (SlotSession.inv_of_run hnew hrun).2 hpairs
  refine ⟨last, before, hmem, m, hc.adopted.readBestMeta, fun index hindex g hbad => ?_⟩
  obtain ⟨x, hx⟩ := hold.corrupted hc hindex hbad
  obtain ⟨d, t, hopen, hat, hlater, hsafe⟩ := connect_safe hx
  have hd := hsafe d hlater (.refl d)
  have hrunning : (⟨d, x, false, t⟩ : Database α).Running ext order _ _ :=
    ⟨hd, hat.holding le_rfl hd.committed, fun _ => rfl⟩
  exact ⟨_, hopen, hrunning.attached.audit, hrunning.attached.serves,
    hx.nextCommitWins hrunning rfl⟩

/-- Any slot can be damaged. -/
theorem exists_corrupts (crc32 : Bytes → ℕ) {index : ℕ} (hindex : index < 2)
    (hsize : superblockSize ≤ f.size) : ∃ g, Corrupts crc32 index f g := by
  set body := f.read (index * metaSlotSize) metaBodyBytes with hbody
  have hlen : body.length = metaBodyBytes := by
    rw [hbody, File.length_read]
    simp only [metaSlotSize, metaBodyBytes, superblockSize] at *
    omega
  obtain ⟨n, hn, hne⟩ : ∃ n < 256 ^ 4, crc crc32 body ≠ n := by
    by_cases hzero : crc crc32 body = 0
    · exact ⟨1, by decide, by rw [hzero]; decide⟩
    · exact ⟨0, by decide, hzero⟩
  have hshort : (body ++ packBE 4 n).length = metaBodyBytes + metaCrcBytes := by
    rw [List.length_append, hlen, length_packBE]
    rfl
  refine ⟨f.write (index * metaSlotSize) (body ++ packBE 4 n),
    sameButSlot_write hindex hsize (by rw [hshort]; decide), ?_⟩
  have hread := (File.at_write f (index * metaSlotSize) (body ++ packBE 4 n)).read_eq
  rw [hshort] at hread
  rw [CrcFails, hread]
  rw [← hlen, List.take_left, List.drop_left, unpackBE_packBE hn]
  exact hne

theorem slot_damage_costs_one_commit_sample :
    ∃ (db0 db : Database ℕ) (f g : File) (pairs : Set ((ℕ → Option Bytes) × (ℕ → Option Bytes)))
      (index : ℕ),
      Database.connect sampleExt (.blank 64 (.powerOn .empty)) = .ok () db0 ∧
      ReflTransGen (SlotSession.Step sampleExt 64)
        (.running db0 none (fun _ => none) fun _ => none) (.down f {sampleMap} pairs) ∧
      pairs.Nonempty ∧ Corrupts sampleExt.crc32 index f g ∧
      Database.connect sampleExt (.blank 64 (.powerOn g)) = .ok () db ∧
      db.Serves sampleExt fun _ => none := by
  obtain ⟨d, t, hnew, hc, hat, -, hsize⟩ :=
    Database.connect_new sampleExt (by decide : 3 ≤ 64)
  obtain ⟨db1, db2, hset, -, -, hcommit, hpub, -⟩ :=
    sample_commit ⟨d, initialMeta, false, t⟩ hc (roomy_new hc hsize) rfl hat.order_eq
  have hupdate : SlotSession.Step sampleExt 64
      (.running ⟨d, initialMeta, false, t⟩ none (fun _ => none) fun _ => none)
      (.running db1 none (fun _ => none) sampleMap) := by
    have hdb1 : resultState (Database.update sampleExt (.set 1 [7])
        ⟨d, initialMeta, false, t⟩) = db1 := by
      rw [Database.update, hset]
      rfl
    rw [← hdb1]
    exact .update (.set 1 [7])
  have hrun := ((ReflTransGen.single hupdate).tail (.commit hcommit)).tail .close
  have hpairs : (SlotSession.lastTwo (some fun _ => none) sampleMap).Nonempty :=
    ⟨(sampleMap, fun _ => none), rfl, rfl⟩
  obtain ⟨last, before, ⟨-, hbefore⟩, m, hbest, hdamage⟩ :=
    slot_damage_costs_one_commit sampleExt 64 hnew hrun hpairs
  obtain rfl : _ = before := by simpa using hbefore
  rw [hpub.committed.adopted.readBestMeta] at hbest
  cases hbest
  -- the slot of the last commit is damaged
  obtain ⟨g, hbad⟩ := exists_corrupts sampleExt.crc32 hpub.committed.adopted.slot_lt
    hpub.committed.size_ge
  obtain ⟨db, hopen, -, hserves, -⟩ := hdamage _ hpub.committed.adopted.slot_lt g hbad
  rw [if_pos rfl] at hserves
  exact ⟨_, db, _, g, _, _, hnew, hrun, hpairs, hbad, hopen, hserves⟩
