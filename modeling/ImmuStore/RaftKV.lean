/-
# Servers over databases (`raft/server.py`)

A server is a node whose `apply` callback is that of a `KVStateMachine`; it is started over the
file of its database and, if it was given a path, over its saved log.  Every call keeps the
index in the database at or below `last_applied`; the two are equal after the call if and only
if no command that was handed over in it failed to fit (`CallOf.counts`).
-/
import ImmuStore.KVCommands
import ImmuStore.RaftCalls
import ImmuStore.RaftCluster
import ImmuStore.RespSpec

open Function Storage
open StateMachine (appliedIndex apply)
open JsonData (noop fits_noop)
open RaftNode (tick propose)

variable {F : Type} {ext : Externals String} {json : JsonModule (JsonData F)} {order : ℕ}
variable {sm : KVState ext json}

/-- The nodes, the clusters and the calls of servers. -/
abbrev ServerNode (ι : Type) (ext : Externals String) (json : JsonModule (JsonData F)) : Type :=
  RaftNode ι (JsonData F) (KVState ext json)

@[inherit_doc ServerNode]
abbrev ServerCluster (size : ℕ) (ext : Externals String) (json : JsonModule (JsonData F)) : Type :=
  RaftCluster size (JsonData F) (KVState ext json)

@[inherit_doc ServerNode]
abbrev ServerCall (size : ℕ) (ext : Externals String) (json : JsonModule (JsonData F)) : Type :=
  NodeM (Fin size) (JsonData F) (KVState ext json) (List (Envelope (Fin size) (JsonData F)))

/-! ## The state machine of a server

The databases that show an index stay such under `apply`, so they are a state machine by
themselves; it tracks the index, as the results about the waiting calls of servers assume. -/

/-- The outcome of a computation whose final state has the property. -/
def EStateM.Result.attach {ε σ α : Type} {P : σ → Prop} :
    (r : EStateM.Result ε σ α) → P (resultState r) → EStateM.Result ε { s // P s } α
  | .ok a s, h => .ok a ⟨s, h⟩
  | .error e s, h => .error e ⟨s, h⟩

theorem EStateM.Result.state_attach {ε σ α : Type} {P : σ → Prop} (r : EStateM.Result ε σ α)
    (h : P (resultState r)) : (resultState (r.attach h)).val = resultState r := by
  cases r <;> rfl

/-- The index that is shown after a call of `apply` is that of the call, or the one before. -/
theorem Counts.apply_or {db : Database String} {k : ℕ} (h : Counts ext json order db k) (index : ℕ)
    (command : JsonData F) :
    ∃ k', (k' = k ∨ k' = index) ∧
      Counts ext json order (resultState (KVStateMachine.applyJson ext json index command db)) k' := by
  by_cases hfits : command.Fits
  · exact ⟨index, .inr rfl, h.applyJson hfits index⟩
  · obtain ⟨e, hrun⟩ := applyJson_unfit ext json hfits index db
    rw [hrun]
    exact ⟨k, .inl rfl, h⟩

/-- A database that shows an index. -/
def CountedState (ext : Externals String) (json : JsonModule (JsonData F)) (order : ℕ) : Type :=
  { db : KVState ext json // ∃ k, Counts ext json order db k }

instance : StateMachine (CountedState ext json order) (JsonData F) where
  apply index command := fun s => (KVStateMachine.applyJson ext json index command s.val).attach (by
    obtain ⟨k, hk⟩ := s.property
    obtain ⟨k', -, hk'⟩ := hk.apply_or index command
    exact ⟨k', hk'⟩)
  appliedIndex s := appliedIndex s.val

/-- **The state machine of a server tracks the index.** -/
theorem countedState_tracks : StateMachine.Tracks (CountedState ext json order) := by
  intro index command s
  obtain ⟨k, hk⟩ := s.property
  obtain ⟨k', hor, hk'⟩ := hk.apply_or index command
  have hafter : appliedIndex (resultState (apply index command s)) = k' :=
    (congrArg (appliedIndex (σ := KVState ext json))
      (EStateM.Result.state_attach _ _)).trans hk'.appliedIndex_eq
  have hbefore : appliedIndex s = k := hk.appliedIndex_eq
  rw [hafter, hbefore]
  exact hor

/-! ## One call -/

namespace RaftNode

variable {ι : Type} {n z : ServerNode ι ext json} {k : ℕ}

/-- `last_applied` is what `applied_index` returns. -/
def Counted (n : ServerNode ι ext json) : Prop :=
  ∃ db, KVStateMachine.appliedIndex ext json n.sm = .ok (n.lastApplied : ℤ) db

theorem counted_iff (h : Counts ext json order n.sm k) : n.Counted ↔ k = n.lastApplied := by
  obtain ⟨db, hindex⟩ := h.appliedIndex
  constructor
  · rintro ⟨db', hindex'⟩
    rw [hindex'] at hindex
    exact_mod_cast (EStateM.Result.ok.inj hindex).1.symm
  · rintro rfl
    exact ⟨db, hindex⟩

/-- What a stretch of calls of `apply` leaves of a node that started at the index `k`: the
commands come from the log, the index has not overtaken `last_applied`, and they are equal if
and only if every command fits and, where there was none, they were equal before. -/
structure Hands (ext : Externals String) (json : JsonModule (JsonData F)) (order : ℕ)
    (n y : ServerNode ι ext json) (entries : List (LogEntry (JsonData F))) (k k' : ℕ)
    (calls : List (ℕ × JsonData F)) : Prop where
  applied : y.applied = n.applied ++ calls
  fromLog : ∀ call ∈ calls, ∃ e ∈ entries, e.command = call.2
  counts : Counts ext json order y.sm k'
  le : k' ≤ y.lastApplied
  eq_iff : k' = y.lastApplied ↔
    (calls = [] → k = n.lastApplied) ∧ ∀ call ∈ calls, call.2.Fits

theorem hands_nothing (h : Counts ext json order n.sm k) (hle : k ≤ n.lastApplied)
    (entries : List (LogEntry (JsonData F))) : Hands ext json order n n entries k k [] :=
  ⟨by simp, by simp, h, hle, by simp⟩

/-- A node after it has handed over its next entry, with the given state machine. -/
def afterCall (n : ServerNode ι ext json) (command : JsonData F)
    (sm : KVState ext json) : ServerNode ι ext json :=
  { n with
    lastApplied := n.lastApplied + 1
    applied := n.applied ++ [(n.lastApplied + 1, command)]
    sm := sm }

/-- The loop hands over entries until one is refused. -/
theorem hands_applyLoop (count : ℕ) : ∀ (n : ServerNode ι ext json) (k : ℕ),
    n.lastApplied + count ≤ n.log.lastIndex → Counts ext json order n.sm k → k ≤ n.lastApplied →
    ∃ k' calls, Hands ext json order n (resultState (applyLoop count n)) n.log.entries k k'
      calls := by
  induction count with
  | zero => exact fun n k _ h hle => ⟨k, [], hands_nothing h hle _⟩
  | succ count ih =>
    intro n k hrange h hle
    have hlt : n.lastApplied < n.log.entries.length := by
      have hlast : n.lastApplied + (count + 1) ≤ n.log.entries.length := hrange
      omega
    set e := n.log.entries[n.lastApplied] with he
    have hmem : e ∈ n.log.entries := List.getElem_mem hlt
    have hget : n.log.get (n.lastApplied + 1) = some e := by
      rw [RaftLog.get, if_neg (Nat.succ_ne_zero _), Nat.add_sub_cancel, he]
      exact List.getElem?_eq_getElem hlt
    have hindex : k ≤ n.lastApplied + 1 := by omega
    by_cases hfits : e.command.Fits
    · have hcounts := h.applyJson hfits (n.lastApplied + 1)
      cases happly : KVStateMachine.applyJson ext json (n.lastApplied + 1) e.command n.sm with
      | ok u sm =>
        -- the entry is applied, and the loop goes on at its index
        rw [happly] at hcounts
        have hrun : applyLoop (count + 1) n = applyLoop count (n.afterCall e.command sm) := by
          have happly' : apply (n.lastApplied + 1) e.command n.sm = .ok u sm := happly
          simp only [applyLoop, run_bind, run_modify, run_get, hget, applyFn, happly']
          rfl
        obtain ⟨k', calls, hhands⟩ := ih (n.afterCall e.command sm) (n.lastApplied + 1)
          (by
            show n.lastApplied + 1 + count ≤ n.log.lastIndex
            omega) hcounts le_rfl
        refine ⟨k', (n.lastApplied + 1, e.command) :: calls, ?_⟩
        rw [hrun]
        refine ⟨?_, ?_, hhands.counts, hhands.le, ?_⟩
        · rw [hhands.applied]
          exact List.append_assoc _ _ _
        · intro call hcall
          rcases List.mem_cons.mp hcall with rfl | hcall
          · exact ⟨e, hmem, rfl⟩
          · exact hhands.fromLog call hcall
        · rw [hhands.eq_iff]
          simp [hfits, afterCall]
      | error err sm =>
        -- the commit has raised: the loop ends, with the index staged
        rw [happly] at hcounts
        have hrun : applyLoop (count + 1) n =
            .error (.raised err) (n.afterCall e.command sm) := by
          have happly' : apply (n.lastApplied + 1) e.command n.sm = .error err sm :=
            happly
          simp only [applyLoop, run_bind, run_modify, run_get, hget, applyFn, happly', run_throw]
          rfl
        refine ⟨n.lastApplied + 1, [(n.lastApplied + 1, e.command)], ?_⟩
        rw [hrun]
        exact ⟨rfl, by simpa using ⟨e, hmem, rfl⟩, hcounts, le_rfl, by simp [hfits, afterCall]⟩
    · -- the entry is refused before anything is staged
      obtain ⟨err, happly⟩ := applyJson_unfit ext json hfits (n.lastApplied + 1) n.sm
      have hrun : applyLoop (count + 1) n =
          .error (.raised err) (n.afterCall e.command n.sm) := by
        have happly' : apply (n.lastApplied + 1) e.command n.sm =
            .error err n.sm := happly
        simp only [applyLoop, run_bind, run_modify, run_get, hget, applyFn, happly', run_throw]
        rfl
      refine ⟨k, [(n.lastApplied + 1, e.command)], ?_⟩
      rw [hrun]
      refine ⟨rfl, by simpa using ⟨e, hmem, rfl⟩, h, hindex, ?_⟩
      have hne : k ≠ n.lastApplied + 1 := by omega
      simp [hfits, hne, afterCall]

/-- Every call hands over a stretch of entries, all of which the node had, was sent or was
given. -/
theorem CallOf.hands {α : Type} {P : JsonData F → Prop} {K R : Prop}
    {r : EStateM.Result (RaftError ι) (ServerNode ι ext json) α}
    (h : CallOf P K R n r) (hcounts : Counts ext json order n.sm k) (hle : k ≤ n.lastApplied) :
    ∃ k' calls entries, Hands ext json order n (resultState r) entries k k' calls ∧
      (n.Carries P → ∀ e ∈ entries, P e.command) := by
  rcases h.split with hsilent | ⟨z, hcommits, hfinishes⟩
  · refine ⟨k, [], [], ⟨?_, by simp, ?_, ?_, ?_⟩, by simp⟩
    · rw [hsilent.applied, List.append_nil]
    · rw [hsilent.sm]
      exact hcounts
    · rw [hsilent.lastApplied]
      exact hle
    · simp [hsilent.lastApplied]
  -- applying starts from the counters of the node, and what follows it leaves them alone
  have hquiet := hcommits.toQuiet
  have hrange := hcommits.inLog
  rw [← hquiet.sm] at hcounts
  rw [← hquiet.lastApplied] at hle
  obtain ⟨k', calls, hhands⟩ : ∃ k' calls,
      Hands ext json order z (resultState (applyCommitted z)) z.log.entries k k' calls := by
    show ∃ k' calls, Hands ext json order z
      (resultState (applyLoop (z.commitIndex - z.lastApplied) z)) z.log.entries k k' calls
    rcases Nat.le_total z.commitIndex z.lastApplied with hdone | hahead
    · rw [Nat.sub_eq_zero_of_le hdone]
      exact ⟨k, [], hands_nothing hcounts hle _⟩
    · exact hands_applyLoop _ z k (by omega) hcounts hle
  refine ⟨k', calls, z.log.entries, ⟨?_, hhands.fromLog, ?_, ?_, ?_⟩,
    fun hn => (hquiet.carries hn).entries⟩
  · rw [hfinishes.applied, hhands.applied, hquiet.applied]
  · rw [hfinishes.sm]
    exact hhands.counts
  · rw [hfinishes.lastApplied]
    exact hhands.le
  · rw [hfinishes.lastApplied, hhands.eq_iff, hquiet.lastApplied]

end RaftNode

/-! ## Clusters of servers -/

namespace RaftCluster

variable {size : ℕ}

/-- The node that `start` builds: over the file at the log's path if there is a path, else
over an empty log. -/
def startNode (n : ServerNode (Fin size) ext json) (sm : KVState ext json)
    (rng : ℕ → ℕ) : ServerNode (Fin size) ext json :=
  RaftNode.new n.nodeId n.peers sm n.applied (.new n.log.path n.log.file) rng n.config
    (appliedIndex sm)

/-- The process of server `i` has ended and is started again. -/
def restarted (c : ServerCluster size ext json) (i : Fin size)
    (sm : KVState ext json) (rng : ℕ → ℕ) : ServerCluster size ext json :=
  { c with nodes := update c.nodes i (startNode (c.nodes i) sm rng) }

/-- Servers started for the first time, with or without a path for the log. -/
def IsStarted (order : ℕ) (c : ServerCluster size ext json) : Prop :=
  ∃ (config : Fin size → RaftConfig) (path : Fin size → Bool) (rng : Fin size → ℕ → ℕ)
    (sm : Fin size → KVState ext json), (∀ i, Opens order .empty (sm i)) ∧
      c = init config path rng sm

/-- The calls that servers answer: a tick, an envelope in flight, and a command of a client
that has the property, whether the server leads or not. -/
inductive Serves (P : JsonData F → Prop) (c : ServerCluster size ext json) :
    Fin size → ServerCall size ext json → Prop
  | tick (i : Fin size) : Serves P c i tick
  | deliver {env : Envelope (Fin size) (JsonData F)} : env ∈ c.sent →
      Serves P c env.dst (RaftNode.step env)
  | propose (i : Fin size) {command : JsonData F} : P command →
      Serves P c i (Prod.snd <$> propose command)

/-- A call, or a process that ends and is started again over its files. -/
inductive ServerStep (order : ℕ) (P : JsonData F → Prop)
    (c : ServerCluster size ext json) :
    ServerCluster size ext json → Prop
  | call {i : Fin size} {m : ServerCall size ext json} : c.Serves P i m →
      ServerStep order P c (c.perform i m)
  | restart {i : Fin size} {sm : KVState ext json} (rng : ℕ → ℕ) :
      Opens order (c.nodes i).sm.disk.live sm →
      ServerStep order P c (c.restarted i sm rng)

/-- Any number of steps. -/
def ServerSteps (order : ℕ) (P : JsonData F → Prop) :
    ServerCluster size ext json → ServerCluster size ext json →
      Prop :=
  Relation.ReflTransGen (ServerStep order P)

variable {P : JsonData F → Prop} {c c' c0 : ServerCluster size ext json}
variable {i : Fin size} {m : ServerCall size ext json} {n : ServerNode (Fin size) ext json}
variable {sm : KVState ext json}

/-- What holds of every node after one of them was started again. -/
theorem forall_restarted {rng : ℕ → ℕ} {p : ServerNode (Fin size) ext json → Prop}
    (hi : p (startNode (c.nodes i) sm rng)) (h : ∀ j, p (c.nodes j)) (j : Fin size) :
    p ((c.restarted i sm rng).nodes j) :=
  (forall_update_iff c.nodes fun _ => p).mpr ⟨hi, fun j _ => h j⟩ j

theorem Serves.sendsOf (h : c.Serves P i m) (hnoop : P noop)
    (hsent : ∀ env ∈ c.sent, env.Carries P) :
    RaftNode.SendsOf P False False (c.nodes i) (m (c.nodes i)) := by
  cases h with
  | tick i => exact RaftNode.sendsOf_tick hnoop False.elim
  | deliver henv => exact RaftNode.sendsOf_step hnoop (hsent _ henv) False.elim False.elim
  | propose i hcommand => exact RaftNode.sendsOf_propose hcommand False.elim

/-- The state that the runs keep: the database of every node shows an index that has not
overtaken `last_applied`. -/
def AllCount (order : ℕ) (c : ServerCluster size ext json) : Prop :=
  ∀ i, ∃ k, Counts ext json order (c.nodes i).sm k ∧ k ≤ (c.nodes i).lastApplied

/-- The state that the runs keep if every command has the property. -/
structure AllCarry (P : JsonData F → Prop) (c : ServerCluster size ext json) :
    Prop where
  nodes : ∀ i, (c.nodes i).Carries P
  sent : ∀ env ∈ c.sent, env.Carries P

theorem IsStarted.allCount (h : IsStarted order c) : c.AllCount order := by
  obtain ⟨config, path, rng, sm, hsm, rfl⟩ := h
  exact fun i => ⟨0, (hsm i).counts_new, Nat.zero_le _⟩

theorem IsStarted.allCarry (h : IsStarted order c) : c.AllCarry P := by
  obtain ⟨config, path, rng, sm, hsm, rfl⟩ := h
  have hlog : ∀ i, (RaftLog.new (path i) none : RaftLog (Fin size) (JsonData F)).entries = [] ∧
      (RaftLog.new (path i) none : RaftLog (Fin size) (JsonData F)).file = none := by
    intro i
    cases path i <;> exact ⟨rfl, rfl⟩
  refine ⟨fun i => ⟨fun e he => ?_, fun saved hsaved => ?_, fun env henv => ?_⟩,
    fun env henv => absurd henv List.not_mem_nil⟩
  · have hmem : e ∈ (RaftLog.new (path i) none : RaftLog (Fin size) (JsonData F)).entries := he
    rw [(hlog i).1] at hmem
    exact absurd hmem List.not_mem_nil
  · have hfile : (RaftLog.new (path i) none : RaftLog (Fin size) (JsonData F)).file = some saved :=
      hsaved
    rw [(hlog i).2] at hfile
    cases hfile
  · exact absurd henv List.not_mem_nil

/-- What a restarted node reads from its files has the property. -/
theorem carries_startNode (h : n.Carries P) (sm : KVState ext json) (rng : ℕ → ℕ) :
    (startNode n sm rng).Carries P := by
  obtain ⟨hfile, hentries⟩ : (RaftLog.new n.log.path n.log.file).file = n.log.file ∧
      ∀ e ∈ (RaftLog.new n.log.path n.log.file).entries, P e.command := by
    have hsaved := h.file
    cases n.log.path with
    | false => exact ⟨rfl, fun e he => absurd he List.not_mem_nil⟩
    | true =>
      cases hf : n.log.file with
      | none => exact ⟨rfl, fun e he => absurd he List.not_mem_nil⟩
      | some saved => exact ⟨rfl, hsaved saved hf⟩
  refine ⟨hentries, fun saved hsaved => ?_, fun env henv => absurd henv List.not_mem_nil⟩
  have hsaved' : (RaftLog.new n.log.path n.log.file).file = some saved := hsaved
  exact h.file saved (hfile.symm.trans hsaved')

/-- The nodes and the envelopes after a call. -/
theorem AllCarry.call (h : c.AllCarry P) (hnoop : P noop) (hm : c.Serves P i m) :
    (c.perform i m).AllCarry P := by
  obtain ⟨hcall, hout⟩ := hm.sendsOf hnoop h.sent
  refine ⟨forall_perform (p := fun _ n => n.Carries P) (hcall.carries (h.nodes i)) fun j _ =>
    h.nodes j, fun env henv => ?_⟩
  rcases mem_sent_perform henv with hold | ⟨out, x, hr, hnew⟩
  · exact h.sent env hold
  · exact hout (h.nodes i) out x hr env hnew

theorem ServerStep.allCarry (hstep : c.ServerStep order P c') (hnoop : P noop)
    (h : c.AllCarry P) : c'.AllCarry P := by
  cases hstep with
  | call hm => exact h.call hnoop hm
  | @restart i sm rng hopens =>
    exact ⟨forall_restarted (carries_startNode (h.nodes i) sm rng) h.nodes, h.sent⟩

/-- Every command is a command. -/
theorem AllCarry.anything (c : ServerCluster size ext json) :
    c.AllCarry fun _ => True := by
  have hsent : ∀ env : Envelope (Fin size) (JsonData F), env.Carries fun _ => True := by
    intro env
    unfold Envelope.Carries
    split
    · exact fun _ _ => trivial
    · trivial
  exact ⟨fun i => ⟨fun _ _ => trivial, fun _ _ _ _ => trivial, fun env _ => hsent env⟩,
    fun env _ => hsent env⟩

theorem Serves.anything (h : c.Serves P i m) : c.Serves (fun _ => True) i m := by
  cases h with
  | tick i => exact .tick i
  | deliver henv => exact .deliver henv
  | propose i _ => exact .propose i trivial

/-- What a call hands over to the state machine of its node. -/
theorem Serves.hands (h : c.Serves P i m) (hnoop : P noop)
    (hsent : ∀ env ∈ c.sent, env.Carries P) {k : ℕ}
    (hcounts : Counts ext json order (c.nodes i).sm k) (hle : k ≤ (c.nodes i).lastApplied) :
    ∃ k' calls entries, RaftNode.Hands ext json order (c.nodes i)
        (resultState (m (c.nodes i))) entries k k' calls ∧
      ((c.nodes i).Carries P → ∀ call ∈ calls, P call.2) := by
  obtain ⟨k', calls, entries, hhands, hentries⟩ := (h.sendsOf hnoop hsent).1.hands hcounts hle
  refine ⟨k', calls, entries, hhands, fun hn call hcall => ?_⟩
  obtain ⟨e, he, hcommand⟩ := hhands.fromLog call hcall
  rw [← hcommand]
  exact hentries hn e he

/-- A restart takes over the index that the database shows. -/
theorem counts_startNode (h : Opens order n.sm.disk.live sm) {k : ℕ}
    (hcounts : Counts ext json order n.sm k) (rng : ℕ → ℕ) :
    Counts ext json order (startNode n sm rng).sm (startNode n sm rng).lastApplied := by
  obtain ⟨k', hk'⟩ := h.counts hcounts
  have hlast : (startNode n sm rng).lastApplied = k' := hk'.appliedIndex_eq
  rw [hlast]
  exact hk'

theorem ServerStep.allCount (hstep : c.ServerStep order P c') (h : c.AllCount order) :
    c'.AllCount order := by
  cases hstep with
  | @call i m hm =>
    obtain ⟨k, hcounts, hle⟩ := h i
    obtain ⟨k', calls, entries, hhands, -⟩ :=
      hm.anything.hands trivial (AllCarry.anything c).sent hcounts hle
    exact forall_perform (p := fun _ n => ∃ k, Counts ext json order n.sm k ∧ k ≤ n.lastApplied)
      ⟨k', hhands.counts, hhands.le⟩ fun j _ => h j
  | @restart i sm rng hopens =>
    obtain ⟨k, hcounts, -⟩ := h i
    exact forall_restarted (p := fun n => ∃ k, Counts ext json order n.sm k ∧ k ≤ n.lastApplied)
      ⟨_, counts_startNode hopens hcounts rng, le_rfl⟩ h

theorem ServerSteps.allCount (h : ServerSteps order P c0 c) (hstart : c0.IsStarted order) :
    c.AllCount order := by
  induction h with
  | refl => exact hstart.allCount
  | tail _ hstep ih => exact hstep.allCount ih

theorem ServerSteps.allCarry (h : ServerSteps order P c0 c) (hnoop : P noop)
    (hstart : c0.IsStarted order) : c.AllCarry P := by
  induction h with
  | refl => exact hstart.allCarry
  | tail _ hstep ih => exact hstep.allCarry hnoop ih

/-- Where every command fits, the index is `last_applied` itself. -/
theorem ServerStep.counts (hstep : c.ServerStep order JsonData.Fits c')
    (hcarry : c.AllCarry JsonData.Fits)
    (h : ∀ i, Counts ext json order (c.nodes i).sm (c.nodes i).lastApplied) (j : Fin size) :
    Counts ext json order (c'.nodes j).sm (c'.nodes j).lastApplied := by
  cases hstep with
  | @call i m hm =>
    obtain ⟨k', calls, entries, hhands, hfits⟩ :=
      hm.hands fits_noop hcarry.sent (h i) le_rfl
    have heq := hhands.eq_iff.mpr ⟨fun _ => rfl, hfits (hcarry.nodes i)⟩
    have hcounts := hhands.counts
    rw [heq] at hcounts
    exact forall_perform (p := fun _ n => Counts ext json order n.sm n.lastApplied) hcounts
      (fun j _ => h j) j
  | @restart i sm rng hopens =>
    exact forall_restarted (p := fun n => Counts ext json order n.sm n.lastApplied)
      (counts_startNode hopens (h i) rng) h j

theorem ServerSteps.counts (h : ServerSteps order JsonData.Fits c0 c) (hstart : c0.IsStarted order)
    (i : Fin size) : Counts ext json order (c.nodes i).sm (c.nodes i).lastApplied := by
  induction h generalizing i with
  | refl =>
    obtain ⟨config, path, rng, sm, hsm, rfl⟩ := hstart
    have hcounts := (hsm i).counts_new
    have hlast : appliedIndex (sm i) = 0 := hcounts.appliedIndex_eq
    show Counts ext json order (sm i) (appliedIndex (sm i))
    rw [hlast]
    exact hcounts
  | tail hsteps hstep ih =>
    exact hstep.counts (ServerSteps.allCarry hsteps fits_noop hstart) ih i

end RaftCluster

/-! ## A sample -/

/-- The text of a value, without spaces, in UTF-8. -/
def writeBytes (value : JsonData Empty) : Bytes := Resp.utf8Encode (value.value.write [])

theorem writeBytes_injective : Injective writeBytes := by
  rintro ⟨x, hx⟩ ⟨y, hy⟩ h
  obtain rfl := JsonValue.write_injective [] (Resp.utf8Encode_injective h)
  rfl

open Classical in
/-- The written values are read back by looking for the one value that is written so. -/
noncomputable def sampleJsonBytes : JsonModule (JsonData Empty) where
  encode := writeBytes
  decode bytes := if h : ∃ value, writeBytes value = bytes then .ok h.choose else .error .valueError
  decode_encode value := by
    have h : ∃ value', writeBytes value' = writeBytes value := ⟨value, rfl⟩
    rw [dif_pos h, writeBytes_injective h.choose_spec]
  number n := ⟨.int n, trivial⟩
  toInt value :=
    match value.value with
    | .int n => .ok n
    | _ => .error .typeError
  toInt_number _ := rfl

/-- A new database of the sample. -/
theorem exists_opens_new : ∃ sm : KVState sampleMachineExt sampleJsonBytes,
    Opens 64 .empty sm := by
  obtain ⟨d, t, hnew, -⟩ := Database.connect_new sampleMachineExt (by decide : 3 ≤ 64)
  have hindexed : Indexed sampleJsonBytes (fun _ => none) 0 := .inr ⟨rfl, rfl⟩
  obtain ⟨sm, hindex, -⟩ := hindexed.appliedIndex (Database.connect_new_running hnew)
  exact ⟨sm, _, _, hnew, hindex⟩

/-- A server without peers that stands at its first tick. -/
def loneStart (sm : KVState ext json) : ServerCluster 1 ext json :=
  .init (fun _ => ⟨1, 1, 3⟩) (fun _ => false) (fun _ _ => 0) fun _ => sm

/-- The server after the election, before its no-op is committed. -/
def loneElected (sm : KVState ext json) : ServerNode (Fin 1) ext json where
  nodeId := 0
  peers := []
  sm := sm
  applied := []
  log := ⟨false, [⟨1, noop⟩], 1, some 0, none⟩
  rng := fun _ => 0
  config := ⟨1, 1, 3⟩
  currentTerm := 1
  votedFor := some 0
  role := .leader
  leaderId := some 0
  commitIndex := 0
  lastApplied := 0
  votes := {0}
  nextIndex := fun _ => none
  matchIndex := fun _ => none
  electionElapsed := 0
  heartbeatElapsed := 0
  electionTimeout := 1
  outbox := []

theorem tick_loneStart (h : appliedIndex sm = 0) :
    tick ((loneStart sm).nodes 0) =
      (RaftNode.maybeAdvanceCommit >>= fun _ => RaftNode.drain) (loneElected sm) := by
  have hnew : (loneStart sm).nodes 0 = RaftNode.new 0 [] sm [] (.new false none) (fun _ => 0)
      ⟨1, 1, 3⟩ 0 := by
    simp only [loneStart, RaftCluster.init, h]
    rfl
  rw [hnew]
  -- one vote is a majority, and there is nobody to send the no-op to
  simp [tick, RaftNode.new, RaftNode.resetElectionTimer, RaftNode.randint,
    RaftNode.becomeCandidate, RaftNode.hasMajority, RaftNode.clusterSize, RaftNode.persist,
    RaftLog.save, RaftNode.becomeLeader, RaftNode.broadcastAppend, RaftLog.new, RaftLog.appendNew,
    loneElected]
  rfl

/-- An elected server commits and applies the only entry that it has not applied. -/
theorem advance_lone {n : ServerNode (Fin 1) ext json} {e : LogEntry (JsonData F)}
    (entries : List (LogEntry (JsonData F))) (hpeers : n.peers = [])
    (hlog : n.log.entries = entries ++ [e]) (hterm : e.term = n.currentTerm)
    (hcommit : n.commitIndex = entries.length) (hlast : n.lastApplied = entries.length)
    (houtbox : n.outbox = []) :
    resultState ((RaftNode.maybeAdvanceCommit >>= fun _ => RaftNode.drain) n) =
      { n with
        commitIndex := entries.length + 1
        lastApplied := entries.length + 1
        applied := n.applied ++ [(entries.length + 1, e.command)]
        sm := resultState (KVStateMachine.applyJson ext json (entries.length + 1) e.command
          n.sm) } := by
  have hcandidate : n.commitCandidate = some (entries.length + 1) := by
    simp [RaftNode.commitCandidate, RaftLog.lastIndex, RaftLog.termAt, RaftNode.hasMajority,
      RaftNode.clusterSize, RaftNode.replicas, hpeers, hlog, hterm, hcommit]
  have hget : n.log.get (entries.length + 1) = some e := by
    simp [RaftLog.get, hlog]
  simp only [RaftNode.maybeAdvanceCommit, run_bind, run_get, hcandidate, run_modify,
    RaftNode.applyCommitted, hlast, Nat.add_sub_cancel_left, RaftNode.applyLoop, hget,
    RaftNode.applyFn]
  have happly : (apply (entries.length + 1) e.command n.sm :
      EStateM.Result PyError (KVState ext json) Unit) =
      KVStateMachine.applyJson ext json (entries.length + 1) e.command n.sm := rfl
  rw [happly, houtbox]
  cases KVStateMachine.applyJson ext json (entries.length + 1) e.command n.sm with
  | ok u sm => rfl
  | error err sm => rfl

/-- The election ends with the no-op handed over. -/
theorem tick_loneStart_state (h : appliedIndex sm = 0) :
    resultState (tick ((loneStart sm).nodes 0)) =
      { loneElected sm with
        commitIndex := 1
        lastApplied := 1
        applied := [(1, noop)]
        sm := resultState (KVStateMachine.applyJson ext json 1 noop sm) } := by
  rw [tick_loneStart h]
  exact advance_lone (n := loneElected sm) [] rfl rfl rfl rfl rfl rfl

/-- A command proposed to the elected server is handed over as well. -/
theorem propose_lone (command : JsonData F) :
    resultState ((Prod.snd <$> propose command)
      { loneElected sm with commitIndex := 1, lastApplied := 1, applied := [(1, noop)] }) =
      { loneElected sm with
        log := ⟨false, [⟨1, noop⟩, ⟨1, command⟩], 1, some 0, none⟩
        commitIndex := 2
        lastApplied := 2
        applied := [(1, noop), (2, command)]
        sm := resultState (KVStateMachine.applyJson ext json 2 command sm) } := by
  rw [RaftNode.snd_propose rfl command]
  exact advance_lone (e := ⟨1, command⟩) [⟨1, noop⟩] rfl rfl rfl rfl rfl rfl

/-- A `set` with an empty key. -/
def emptyKey : JsonData F :=
  ⟨.dict [("op", .str "set"), ("key", .str ""), ("value", .null)], by
    simp [JsonValue.IsJson, JsonValue.EntriesJson]⟩

theorem not_fits_emptyKey : ¬ (emptyKey : JsonData F).Fits := by
  rintro ⟨change, hkv, hvalid⟩
  have hkv' : (emptyKey : JsonData F).kv = some (.set "" ⟨.null, trivial⟩) := rfl
  cases hkv'.symm.trans hkv
  exact hvalid rfl

/-! ## Counted as applied -/

open RaftCluster in
/-- **A command that fits is applied when it is counted as applied.**  Where clients propose
commands that fit, `last_applied` is the applied index of the database after every call and
every restart.  Where they propose anything, a call that hands commands over ends with the two
equal if and only if each of these commands fits, whether it returns or raises; and a call
that hands nothing over leaves them equal or not as they were. -/
theorem last_applied_iff_fits {size : ℕ} {c0 : ServerCluster size ext json}
    (hstart : c0.IsStarted order) :
    (∀ c, ServerSteps order JsonData.Fits c0 c → ∀ i, (c.nodes i).Counted) ∧
    ∀ c, ServerSteps order (fun _ => True) c0 c → ∀ i m, c.Serves (fun _ => True) i m →
      ∃ calls, ((c.perform i m).nodes i).applied = (c.nodes i).applied ++ calls ∧
        (((c.perform i m).nodes i).Counted ↔
          (calls = [] → (c.nodes i).Counted) ∧ ∀ call ∈ calls, call.2.Fits) := by
  constructor
  · intro c hrun i
    exact (hrun.counts hstart i).appliedIndex
  · intro c hrun i m hm
    obtain ⟨k, hcounts, hle⟩ := hrun.allCount hstart i
    obtain ⟨k', calls, entries, hhands, -⟩ :=
      hm.hands trivial (AllCarry.anything c).sent hcounts hle
    rw [perform_nodes, update_self]
    refine ⟨calls, hhands.applied, ?_⟩
    rw [RaftNode.counted_iff hhands.counts, RaftNode.counted_iff hcounts]
    exact hhands.eq_iff

/-- A `set` of a key. -/
def setKey : JsonData F :=
  ⟨.dict [("op", .str "set"), ("key", .str "k"), ("value", .null)], by
    simp [JsonValue.IsJson, JsonValue.EntriesJson]⟩

theorem fits_setKey : (setKey : JsonData F).Fits :=
  ⟨.set "k" ⟨.null, trivial⟩, rfl, (by decide : "k" ≠ "")⟩

/-- Two servers with election timeouts of one tick. -/
def pairStart (sm : KVState ext json) : ServerCluster 2 ext json :=
  .init (fun _ => ⟨1, 1, 3⟩) (fun _ => false) (fun _ _ => 0) fun _ => sm

open RaftCluster in
/-- The first server is elected; it sends a command with its no-op, which the second one
acknowledges. -/
theorem pairStart_elected (order : ℕ) (sm : KVState ext json) :
    ∃ (c : ServerCluster 2 ext json) (env : Envelope (Fin 2) (JsonData F)),
      ServerSteps order JsonData.Fits (pairStart sm) c ∧ env.dst = 1 ∧
      (∃ leader, (Prod.snd <$> propose setKey) (c.nodes 0) = .ok [env] leader ∧
        leader.log.entries = [⟨1, noop⟩, ⟨1, setKey⟩]) ∧
      ∃ follower, RaftNode.step env (c.nodes 1) =
        .ok [⟨1, 0, .appendEntriesReply ⟨1, true, 2⟩⟩] follower := by
  set c1 := (pairStart sm).perform 0 tick
  set c2 := c1.perform 1 (RaftNode.step ⟨0, 1, .requestVote ⟨1, 0, 0, 0⟩⟩)
  set c3 := c2.perform 0 (RaftNode.step ⟨1, 0, .requestVoteReply ⟨1, true⟩⟩)
  have hvote : ⟨0, 1, .requestVote ⟨1, 0, 0, 0⟩⟩ ∈ c1.sent :=
    List.mem_of_getElem? (i := 0) (by with_unfolding_all rfl)
  have hreply : ⟨1, 0, .requestVoteReply ⟨1, true⟩⟩ ∈ c2.sent :=
    List.mem_of_getElem? (i := 1) (by with_unfolding_all rfl)
  have hrun : ServerSteps order JsonData.Fits (pairStart sm) c3 :=
    ((Relation.ReflTransGen.single (.call (.tick 0))).tail (.call (.deliver hvote))).tail
      (.call (.deliver hreply))
  have hled : c3.nodes 0 = { (pairStart sm).nodes 0 with
      log := ⟨false, [⟨1, noop⟩], 1, some 0, none⟩
      currentTerm := 1
      votedFor := some 0
      role := .leader
      leaderId := some 0
      votes := {1, 0}
      nextIndex := fun peer => if peer ∈ [1] then some 1 else none
      matchIndex := fun peer => if peer ∈ [1] then some 0 else none } := by
    with_unfolding_all rfl
  refine ⟨c3, ⟨0, 1, .appendEntries ⟨1, 0, 0, 0, [⟨1, noop⟩, ⟨1, setKey⟩], 0⟩⟩, hrun, rfl,
    ?_, _, by with_unfolding_all rfl⟩
  rw [hled]
  exact ⟨_, by with_unfolding_all rfl, rfl⟩

open RaftCluster in
/-- The acknowledgement hands the command over. -/
theorem last_applied_iff_fits_pair :
    ∃ (sm : KVState sampleMachineExt sampleJsonBytes) (c : ServerCluster 2 _ _),
      (pairStart sm).IsStarted 64 ∧ ServerSteps 64 JsonData.Fits (pairStart sm) c ∧
      (c.nodes 0).log.entries = [⟨1, noop⟩, ⟨1, setKey⟩] ∧
      ⟨1, 0, .appendEntriesReply ⟨1, true, 2⟩⟩ ∈ c.sent ∧
      ((c.perform 0 (RaftNode.step ⟨1, 0, .appendEntriesReply ⟨1, true, 2⟩⟩)).nodes 0).Counted := by
  obtain ⟨sm, hopens⟩ := exists_opens_new
  have hstart : (pairStart sm).IsStarted 64 := ⟨_, _, _, _, fun _ => hopens, rfl⟩
  obtain ⟨c, env, hrun, hdst, ⟨leader, hpropose, hentries⟩, follower, hstep⟩ :=
    pairStart_elected 64 sm
  have hstep' : RaftNode.step env (update c.nodes 0 leader env.dst) =
      .ok [⟨1, 0, .appendEntriesReply ⟨1, true, 2⟩⟩] follower := by
    rw [hdst, update_of_ne (by decide)]
    exact hstep
  have hproposed : ServerSteps 64 JsonData.Fits (pairStart sm)
      ⟨update c.nodes 0 leader, c.sent ++ [env]⟩ := by
    rw [← perform_ok hpropose]
    exact hrun.tail (.call (.propose 0 fits_setKey))
  have hacked := hproposed.tail (.call (.deliver (List.mem_append_right _ (List.mem_singleton_self _))))
  rw [perform_ok hstep'] at hacked
  have hack : ⟨1, 0, .appendEntriesReply ⟨1, true, 2⟩⟩ ∈
      c.sent ++ [env] ++ [⟨1, 0, .appendEntriesReply ⟨1, true, 2⟩⟩] := by simp
  refine ⟨sm, _, hstart, hacked, ?_, hack, ?_⟩
  · simp [hdst, hentries]
  · exact (last_applied_iff_fits hstart).1 _ (hacked.tail (.call (.deliver hack))) 0

/-- A `set` with an empty key is counted, although the database has refused it. -/
theorem refused_command_is_counted :
    ∃ c0 c : ServerCluster 1 sampleMachineExt sampleJsonBytes,
      c0.IsStarted 64 ∧ RaftCluster.ServerSteps 64 (fun _ => True) c0 c ∧
      (c.nodes 0).lastApplied = 2 ∧ ∃ db,
        KVStateMachine.appliedIndex sampleMachineExt sampleJsonBytes (c.nodes 0).sm =
          .ok 1 db := by
  obtain ⟨sm, hopens⟩ := exists_opens_new
  have hnew := hopens.counts_new
  have hstart : (loneStart sm).IsStarted 64 := ⟨_, _, _, _, fun _ => hopens, rfl⟩
  set c1 := (loneStart sm).perform 0 tick with hc1
  have hrun : RaftCluster.ServerSteps 64 (fun _ => True) (loneStart sm)
      (c1.perform 0 (Prod.snd <$> propose emptyKey)) :=
    (Relation.ReflTransGen.single (.call (.tick 0))).tail (.call (.propose 0 trivial))
  -- the no-op of the election is applied
  have hfirst := hnew.applyJson fits_noop 1
  set sm1 := resultState (KVStateMachine.applyJson sampleMachineExt sampleJsonBytes 1
    noop sm) with hsm1
  have hnode1 : c1.nodes 0 = { loneElected sm1 with
      commitIndex := 1
      lastApplied := 1
      applied := [(1, noop)] } := by
    rw [hc1, RaftCluster.perform_nodes, update_self]
    exact tick_loneStart_state hnew.appliedIndex_eq
  have hnode2 : (c1.perform 0 (Prod.snd <$> propose emptyKey)).nodes 0 =
      resultState ((Prod.snd <$> propose emptyKey) (c1.nodes 0)) := by
    rw [RaftCluster.perform_nodes, update_self]
  rw [hnode1] at hnode2
  replace hnode2 := hnode2.trans (propose_lone emptyKey)
  -- the `set` is not, and leaves the database as it was
  obtain ⟨e, hrefused⟩ := applyJson_unfit sampleMachineExt sampleJsonBytes
    not_fits_emptyKey 2 sm1
  obtain ⟨db, hindex⟩ := hfirst.appliedIndex
  refine ⟨_, _, hstart, hrun, by rw [hnode2], db, ?_⟩
  rw [hnode2, hrefused]
  exact hindex
