/-
# What a node has promised is saved

Term, vote and log change in many branches of the handlers, and the messages that speak of
them are returned at the end of the call.  On every path the last change is followed by a
save before anything is sent, so that when a call returns the saved state is the one in
memory, and a node restarted from it stands by every message of the call (`BasedOn`).  The
file itself is the JSON payload of `save`, and `_load` reads it back.
-/
import ImmuStore.RaftDiscipline
import ImmuStore.RaftWire

/-! ## Messages and the state they speak of -/

namespace RaftNode

variable {ι κ σ : Type}

/-- What a message says about the term, the vote and the log of the node that sent it, in a
call that handled `request`. -/
def BasedOn (request : Option (RpcBody ι κ)) (n : RaftNode ι κ σ) (env : Envelope ι κ) : Prop :=
  match env.body with
  | .requestVote rv => rv.term = n.currentTerm ∧ n.votedFor = some rv.candidateId ∧
      rv.lastLogIndex = n.log.lastIndex ∧ rv.lastLogTerm = n.log.lastTerm
  | .requestVoteReply reply => reply.term = n.currentTerm ∧ (reply.voteGranted = true →
      ∃ rv, request = some (.requestVote rv) ∧ n.votedFor = some rv.candidateId)
  | .appendEntries ae => ae.term = n.currentTerm ∧ ae.prevLogTerm = n.log.termAt ae.prevLogIndex ∧
      ae.entries = n.log.entriesFrom (ae.prevLogIndex + 1)
  | .appendEntriesReply reply => reply.term = n.currentTerm ∧ (reply.success = true →
      ∃ ae, request = some (.appendEntries ae) ∧
        reply.matchIndex = ae.prevLogIndex + ae.entries.length ∧
        reply.matchIndex ≤ n.log.lastIndex ∧
        ∀ k, ¬ RaftLog.Conflict n.log.entries ae.prevLogIndex ae.entries k)

/-- The nodes have the same term, vote and entries. -/
structure SameState (n y : RaftNode ι κ σ) : Prop where
  term : y.currentTerm = n.currentTerm
  vote : y.votedFor = n.votedFor
  entries : y.log.entries = n.log.entries

/-- The term, the vote and the entries of the node are saved. -/
def Synced (n : RaftNode ι κ σ) : Prop := n.log.Synced n.currentTerm n.votedFor

/-- The state is saved, and what waits to be sent is based on it. -/
structure Grounded (request : Option (RpcBody ι κ)) (n : RaftNode ι κ σ) : Prop where
  synced : n.Synced
  based : ∀ env ∈ n.outbox, n.BasedOn request env

variable {request : Option (RpcBody ι κ)} {n y : RaftNode ι κ σ}

/-- Only the term, the vote and the log count. -/
theorem BasedOn.congr {env : Envelope ι κ} (h : n.BasedOn request env) (hsame : SameState n y) :
    y.BasedOn request env := by
  have hindex : y.log.lastIndex = n.log.lastIndex := by
    rw [RaftLog.lastIndex, hsame.entries, RaftLog.lastIndex]
  have hlast : y.log.lastTerm = n.log.lastTerm := by
    rw [RaftLog.lastTerm, hsame.entries, RaftLog.lastTerm]
  have hterm : ∀ k, y.log.termAt k = n.log.termAt k := fun k => by
    rw [RaftLog.termAt, hsame.entries, RaftLog.termAt]
  have hfrom : ∀ k, y.log.entriesFrom k = n.log.entriesFrom k := fun k => by
    rw [RaftLog.entriesFrom, hsame.entries, RaftLog.entriesFrom]
  unfold BasedOn at h ⊢
  simpa only [hsame.term, hsame.vote, hindex, hlast, hterm, hfrom, hsame.entries] using h

/-- What happens between a change of state and its save, or beside both. -/
structure Beside (n y : RaftNode ι κ σ) : Prop where
  term : y.currentTerm = n.currentTerm
  vote : y.votedFor = n.votedFor
  log : y.log = n.log
  outbox : y.outbox = n.outbox

theorem Beside.sameState (h : Beside n y) : SameState n y :=
  ⟨h.term, h.vote, congrArg RaftLog.entries h.log⟩

/-- A change beside them keeps every message grounded. -/
theorem Grounded.beside (h : n.Grounded request) (hy : Beside n y) : y.Grounded request := by
  refine ⟨?_, fun env henv => ?_⟩
  · unfold Synced
    rw [hy.log, hy.term, hy.vote]
    exact h.synced
  · rw [hy.outbox] at henv
    exact (h.based env henv).congr hy.sameState

/-- Saving grounds a node that has not sent anything. -/
theorem grounded_persist (request : Option (RpcBody ι κ)) (hempty : n.outbox = []) :
    n.persist.Grounded request := by
  refine ⟨RaftLog.synced_save _ _ _, fun env henv => ?_⟩
  rw [show n.persist.outbox = [] from hempty] at henv
  exact absurd henv List.not_mem_nil

theorem Synced.grounded (h : n.Synced) (request : Option (RpcBody ι κ)) :
    Grounded request { n with outbox := [] } :=
  ⟨h, fun _ henv => absurd henv List.not_mem_nil⟩

/-- A message that the state stands by may be sent. -/
theorem Grounded.send {dst : ι} {body : RpcBody ι κ} (h : n.Grounded request)
    (hbody : n.BasedOn request ⟨n.nodeId, dst, body⟩) : (n.send dst body).Grounded request := by
  have hsame : SameState n (n.send dst body) := ⟨rfl, rfl, rfl⟩
  refine ⟨h.synced, fun env henv => ?_⟩
  rcases List.mem_append.mp henv with hold | hnew
  · exact (h.based env hold).congr hsame
  · obtain rfl := List.mem_singleton.mp hnew
    exact hbody.congr hsame

/-- A new term is saved before anything is sent. -/
theorem grounded_becomeFollower (request : Option (RpcBody ι κ)) (hempty : n.outbox = []) (T : ℕ) :
    (n.becomeFollower T).Grounded request ∧ (n.becomeFollower T).outbox = [] := by
  unfold becomeFollower
  dsimp only
  split_ifs
  · exact ⟨grounded_persist request hempty, hempty⟩
  · exact ⟨grounded_persist request hempty, hempty⟩

/-- The node takes over a later term. -/
theorem Grounded.adopt (h : n.Grounded request) (hempty : n.outbox = []) (T : ℕ) :
    Grounded request (if n.currentTerm < T then n.becomeFollower T else n) ∧
      (if n.currentTerm < T then n.becomeFollower T else n).outbox = [] := by
  split_ifs
  · exact grounded_becomeFollower request hempty T
  · exact ⟨h, hempty⟩

/-! ## Calls that return -/

/-- If the computation returns, it leaves a grounded node. -/
def Grounds {α : Type} (request : Option (RpcBody ι κ))
    (r : EStateM.Result (RaftError ι) (RaftNode ι κ σ) α) : Prop :=
  match r with
  | .ok _ y => y.Grounded request
  | .error _ _ => True

/-- Calls ground their messages one after another. -/
theorem Grounds.bind {α β : Type} {m : NodeM ι κ σ α} {f : α → NodeM ι κ σ β}
    (hm : Grounds request (m n)) (hf : ∀ a y, y.Grounded request → Grounds request (f a y)) :
    Grounds request ((m >>= f) n) := by
  rw [run_bind]
  cases hr : m n with
  | ok a y =>
    rw [hr] at hm
    exact hf a y hm
  | error e y => trivial

theorem Grounds.after {α β : Type} {m : NodeM ι κ σ α} {f : α → NodeM ι κ σ β} {a : α}
    (hm : m n = .ok a y) (hf : Grounds request (f a y)) : Grounds request ((m >>= f) n) := by
  rwa [run_bind, hm]

theorem SameButApplied.beside (h : SameButApplied n y) : Beside n y := by
  obtain ⟨last, calls, sm, rfl⟩ := h
  exact ⟨rfl, rfl, rfl, rfl⟩

section Apply

variable [StateMachine σ κ]

/-- Applying changes nothing that is promised. -/
theorem Grounded.applyCommitted (h : n.Grounded request) : Grounds request (applyCommitted n) := by
  have hsame := sameButApplied_applyLoop (n.commitIndex - n.lastApplied) n
  show Grounds request (applyLoop (n.commitIndex - n.lastApplied) n)
  cases hr : applyLoop (n.commitIndex - n.lastApplied) n with
  | ok u y =>
    rw [hr] at hsame
    exact h.beside hsame.beside
  | error e y => trivial

theorem Grounded.maybeAdvanceCommit (h : n.Grounded request) :
    Grounds request (maybeAdvanceCommit n) := by
  simp only [RaftNode.maybeAdvanceCommit, run_bind, run_get]
  cases n.commitCandidate with
  | none => exact h
  | some index =>
    have hy : Grounded request { n with commitIndex := index } :=
      h.beside ⟨rfl, rfl, rfl, rfl⟩
    exact hy.applyCommitted

end Apply

/-! ## Replication and elections -/

theorem basedOn_appendRequest (n : RaftNode ι κ σ) (dst : ι) (next : ℕ) :
    n.BasedOn request ⟨n.nodeId, dst, .appendEntries (n.appendRequest next)⟩ :=
  ⟨rfl, rfl, rfl⟩

theorem Grounded.sendAppendTo (h : n.Grounded request) (peer : ι) :
    Grounds request (sendAppendTo peer n) := by
  cases hnext : n.nextIndex peer with
  | none =>
    simp only [RaftNode.sendAppendTo, run_bind, run_get, hnext]
    trivial
  | some next =>
    rw [sendAppendTo_eq hnext]
    exact h.send (basedOn_appendRequest n peer next)

/-- Requests to the peers say what the log holds. -/
theorem Grounded.broadcastTo (h : n.Grounded request) (peers : List ι) :
    Grounds request (broadcastTo peers n) := by
  induction peers generalizing n with
  | nil => exact h
  | cons peer peers ih => exact (h.sendAppendTo peer).bind fun _ y hy => ih hy

/-- A candidate has voted for itself. -/
theorem Grounded.requestVotes (h : n.Grounded request) (hvote : n.votedFor = some n.nodeId) :
    n.requestVotes.Grounded request := by
  unfold RaftNode.requestVotes
  generalize n.peers = peers
  induction peers generalizing n with
  | nil => exact h
  | cons peer peers ih =>
    rw [List.foldl_cons]
    exact ih (h.send ⟨rfl, hvote, rfl, rfl⟩) hvote

section Handlers

variable [DecidableEq ι] [StateMachine σ κ] [RaftCommand κ]
variable {src : ι} {ae : AppendEntries ι κ}

/-- A new leader saves its no-op before it replicates it. -/
theorem grounds_becomeLeader (hempty : n.outbox = []) : Grounds request (becomeLeader n) := by
  show Grounds request ((broadcastAppend >>= fun _ => RaftNode.maybeAdvanceCommit) (persist _))
  refine Grounds.bind ?_ fun _ y hy => hy.maybeAdvanceCommit
  exact (grounded_persist request (by exact hempty)).broadcastTo _

/-- A candidate saves its own vote before it asks for others. -/
theorem grounds_becomeCandidate (hempty : n.outbox = []) : Grounds request (becomeCandidate n) := by
  simp only [becomeCandidate, run_bind, run_modify, run_get]
  split_ifs
  · exact grounds_becomeLeader hempty
  · refine Grounded.requestVotes ?_ rfl
    exact grounded_persist request (by exact hempty)

omit [StateMachine σ κ] [RaftCommand κ] in
/-- A vote is saved before it is sent. -/
theorem Grounded.handleRequestVote {rv : RequestVote ι} (h : n.Grounded (some (.requestVote rv)))
    (hempty : n.outbox = []) :
    (n.handleRequestVote src rv).Grounded (some (.requestVote rv)) := by
  unfold RaftNode.handleRequestVote
  by_cases hold : rv.term < n.currentTerm
  · rw [if_pos hold]
    exact h.send ⟨rfl, fun hgranted => absurd hgranted Bool.false_ne_true⟩
  rw [if_neg hold]
  obtain ⟨hy, hout⟩ := h.adopt hempty rv.term
  generalize (if n.currentTerm < rv.term then n.becomeFollower rv.term else n) = y at hy hout
  dsimp only
  split_ifs
  · -- the vote is saved before it is granted
    refine Grounded.send (grounded_persist _ (by exact hout)) ⟨rfl, fun _ => ⟨rv, rfl, rfl⟩⟩
  · exact hy.send ⟨rfl, fun hgranted => absurd hgranted Bool.false_ne_true⟩

theorem Grounded.handleRequestVoteReply (h : n.Grounded request) (hempty : n.outbox = []) (src : ι)
    (reply : RequestVoteReply) : Grounds request (handleRequestVoteReply src reply n) := by
  simp only [RaftNode.handleRequestVoteReply, run_bind, run_get]
  split_ifs
  · exact (grounded_becomeFollower request hempty reply.term).1
  · exact h
  · simp only [run_bind, run_modify, run_get]
    split_ifs
    · exact grounds_becomeLeader hempty
    · exact h.beside ⟨rfl, rfl, rfl, rfl⟩
  · exact h

omit [DecidableEq ι] [RaftCommand κ] in
/-- The entries are saved before they are acknowledged. -/
theorem grounds_acceptEntries (hempty : n.outbox = []) (hprev : ae.prevLogIndex ≤ n.log.lastIndex) :
    Grounds (some (.appendEntries ae)) (acceptEntries src ae n) := by
  have hplaced := RaftLog.spliceEntries_placed hprev ae.entries
  have hlast : ∀ y : RaftNode ι κ σ, y.outbox = [] →
      y.log = n.log.appendFrom ae.prevLogIndex ae.entries →
      (y.persist.send src (.appendEntriesReply ⟨y.currentTerm, true,
        ae.prevLogIndex + ae.entries.length⟩)).Grounded (some (.appendEntries ae)) := by
    intro y hout hlog
    have hentries : y.persist.log.entries =
        RaftLog.spliceEntries n.log.entries ae.prevLogIndex ae.entries := by
      show y.log.entries = _
      rw [hlog]
      rfl
    refine Grounded.send (grounded_persist _ hout) ⟨rfl, fun _ => ⟨ae, rfl, rfl, ?_, ?_⟩⟩
    · rw [RaftLog.lastIndex, hentries]
      exact hplaced.le_length
    · rw [hentries]
      exact hplaced.agree
  simp only [acceptEntries, run_bind, run_modify, run_get]
  split_ifs
  · simp only [run_bind, run_modify]
    generalize hz : ({ n with
      log := n.log.appendFrom ae.prevLogIndex ae.entries
      commitIndex := min ae.leaderCommit (ae.prevLogIndex + ae.entries.length) } :
        RaftNode ι κ σ) = z
    have hsame := sameButApplied_applyLoop (z.commitIndex - z.lastApplied) z
    cases hr : RaftNode.applyCommitted z with
    | error e y => trivial
    | ok u y =>
      have hy : SameButApplied z y := by
        rwa [show applyLoop (z.commitIndex - z.lastApplied) z = .ok u y from hr] at hsame
      refine hlast y ?_ ?_
      · rw [hy.beside.outbox, ← hz]
        exact hempty
      · rw [hy.beside.log, ← hz]
  · exact hlast _ hempty rfl

omit [DecidableEq ι] [RaftCommand κ] in
/-- Entries are saved before they are acknowledged. -/
theorem Grounded.handleAppendEntries (h : n.Grounded (some (.appendEntries ae)))
    (hempty : n.outbox = []) :
    Grounds (some (.appendEntries ae)) (handleAppendEntries src ae n) := by
  simp only [RaftNode.handleAppendEntries, run_bind, run_get]
  by_cases hold : ae.term < n.currentTerm
  · rw [if_pos hold]
    exact h.send ⟨rfl, fun hsuccess => absurd hsuccess Bool.false_ne_true⟩
  rw [if_neg hold]
  obtain ⟨hy, hout⟩ := h.adopt hempty ae.term
  simp only [run_bind, run_modify, run_get]
  generalize (if n.currentTerm < ae.term then n.becomeFollower ae.term else n) = y at hy hout
  have hz : Grounded (some (.appendEntries ae))
      (resetElectionTimer { y with role := .follower, leaderId := some ae.leaderId }) :=
    hy.beside ⟨rfl, rfl, rfl, rfl⟩
  split_ifs with hreject
  · exact hz.send ⟨rfl, fun hsuccess => absurd hsuccess Bool.false_ne_true⟩
  · exact grounds_acceptEntries hout (Nat.le_of_not_lt (not_or.mp hreject).1)

omit [RaftCommand κ] in
theorem Grounded.handleAppendEntriesReply (h : n.Grounded request) (hempty : n.outbox = [])
    (src : ι) (reply : AppendEntriesReply) :
    Grounds request (handleAppendEntriesReply src reply n) := by
  simp only [RaftNode.handleAppendEntriesReply, run_bind, run_get]
  split_ifs
  · exact (grounded_becomeFollower request hempty reply.term).1
  · exact h
  · refine .after (m := modify _) rfl (Grounded.maybeAdvanceCommit ?_)
    exact h.beside ⟨rfl, rfl, rfl, rfl⟩
  · cases n.nextIndex src with
    | none => trivial
    | some next =>
      refine .after (m := modify _) rfl (Grounded.sendAppendTo ?_ src)
      exact h.beside ⟨rfl, rfl, rfl, rfl⟩

/-! ## The driving API -/

/-- If the call returns, the state is saved and the messages are based on it. -/
def Answers (request : Option (RpcBody ι κ))
    (r : EStateM.Result (RaftError ι) (RaftNode ι κ σ) (List (Envelope ι κ))) : Prop :=
  match r with
  | .ok out y => y.Synced ∧ ∀ env ∈ out, y.BasedOn request env
  | .error _ _ => True

omit [DecidableEq ι] [StateMachine σ κ] [RaftCommand κ] in
/-- The call returns what is in its outbox. -/
theorem Grounds.drain {α : Type} {m : NodeM ι κ σ α} (h : Grounds request (m n)) :
    Answers request ((m >>= fun _ => RaftNode.drain) n) := by
  rw [run_bind]
  cases hm : m n with
  | error e z => trivial
  | ok a z =>
    rw [hm] at h
    exact ⟨h.synced, fun env henv => (h.based env henv).congr ⟨rfl, rfl, rfl⟩⟩

omit [DecidableEq ι] [StateMachine σ κ] [RaftCommand κ] in
theorem Answers.after {α : Type} {m : NodeM ι κ σ α} {f : α → NodeM ι κ σ (List (Envelope ι κ))}
    {a : α} (hm : m n = .ok a y) (hf : Answers request (f a y)) :
    Answers request ((m >>= f) n) := by
  rwa [run_bind, hm]

theorem Synced.tick (h : n.Synced) : Answers none (tick n) := by
  have h0 := h.grounded none
  refine .after (m := modify _) rfl ?_
  simp only [run_bind, run_get]
  split_ifs
  · refine .after (m := modify _) rfl (.after (m := modify _) rfl ?_)
    refine Grounds.drain (Grounded.broadcastTo ?_ _)
    exact h0.beside ⟨rfl, rfl, rfl, rfl⟩
  · refine .after (m := modify _) rfl (Grounds.drain (m := pure ()) ?_)
    exact h0.beside ⟨rfl, rfl, rfl, rfl⟩
  · refine .after (m := modify _) rfl (grounds_becomeCandidate rfl).drain
  · refine .after (m := modify _) rfl (Grounds.drain (m := pure ()) ?_)
    exact h0.beside ⟨rfl, rfl, rfl, rfl⟩

theorem Synced.step (h : n.Synced) (env : Envelope ι κ) :
    Answers (some env.body) (step env n) := by
  obtain ⟨src, dst, body⟩ := env
  have h0 := h.grounded (some body)
  refine .after (m := modify _) rfl ?_
  cases body with
  | requestVote rv => exact Grounds.drain (m := modify _) (h0.handleRequestVote rfl)
  | requestVoteReply reply => exact (h0.handleRequestVoteReply rfl src reply).drain
  | appendEntries ae => exact (h0.handleAppendEntries rfl).drain
  | appendEntriesReply reply => exact (h0.handleAppendEntriesReply rfl src reply).drain

omit [DecidableEq ι] [RaftCommand κ] in
theorem answers_propose (n : RaftNode ι κ σ) (command : κ) :
    Answers none ((Prod.snd <$> propose command) n) := by
  by_cases hleads : n.role = .leader
  · -- the new entry is saved before it is replicated
    have hsend : Grounds none (broadcastAppend (persist
        { n with outbox := [], log := n.log.appendNew ⟨n.currentTerm, command⟩ })) :=
      (grounded_persist none (by exact rfl)).broadcastTo _
    rw [snd_propose hleads]
    exact Grounds.drain (hsend.bind fun _ _ hz => hz.maybeAdvanceCommit)
  · rw [snd_propose_not_leader hleads]
    trivial

end Handlers

end RaftNode

/-! ## The file of a log -/

namespace Wire

variable {F : Type}

/-- The attributes of a `RaftLog` that are saved. -/
structure SavedLog (F : Type) where
  currentTerm : JsonValue F
  votedFor : JsonValue F
  entries : List (LogEntry F)

/-- The payload of `save`. -/
def payload (log : SavedLog F) : JsonValue F :=
  .dict [
    ("current_term", log.currentTerm),
    ("voted_for", log.votedFor),
    ("entries", .list (log.entries.map fun e => .dict [("term", e.term), ("command", e.command)]))]

/-- The contents of the file after `save`. -/
def saved (json : JsonText F) (log : SavedLog F) : Bytes := Resp.utf8Encode (json.dumps (payload log))

/-- An entry of `data["entries"]` in `_load`. -/
def entryOfDict (value : JsonValue F) : Except PyError (LogEntry F) := do
  let term ← value.getItem "term"
  let command ← value.getItem "command"
  return ⟨term, command⟩

/-- `_load`. -/
def load (json : JsonText F) (raw : Bytes) : Except PyError (SavedLog F) :=
  match Resp.utf8Decode? raw with
  | none => .error .valueError
  | some text => do
    let data ← json.loads text
    let currentTerm ← data.getItem "current_term"
    let votedFor ← data.getItem "voted_for"
    let entries ← (← (← data.getItem "entries").iter).mapM entryOfDict
    return ⟨currentTerm, votedFor, entries⟩

/-- What is saved are JSON values. -/
structure SavedLog.IsJson (log : SavedLog F) : Prop where
  term : log.currentTerm.IsJson
  vote : log.votedFor.IsJson
  entries : ∀ e ∈ log.entries, e.term.IsJson ∧ e.command.IsJson

variable {log : SavedLog F}

theorem SavedLog.IsJson.payload (h : log.IsJson) : (payload log).IsJson := by
  have hentries : JsonValue.AllJson
      (log.entries.map fun e => .dict [("term", e.term), ("command", e.command)]) := by
    rw [JsonValue.allJson_iff]
    intro value hvalue
    obtain ⟨e, he, rfl⟩ := List.mem_map.mp hvalue
    simp [JsonValue.IsJson, JsonValue.EntriesJson, h.entries e he]
  simp [Wire.payload, JsonValue.IsJson, JsonValue.EntriesJson, h.term, h.vote, hentries]

theorem mapM_entryOfDict (entries : List (LogEntry F)) :
    (entries.map fun e => JsonValue.dict [("term", e.term), ("command", e.command)]).mapM
      entryOfDict = .ok entries := by
  induction entries with
  | nil => rfl
  | cons e entries ih =>
    rw [List.map_cons, List.mapM_cons, ih]
    rfl

/-- A log is loaded as it was saved. -/
theorem load_saved (json : JsonText F) (h : log.IsJson) : load json (saved json log) = .ok log := by
  have hloads := json.loads_dumps _ h.payload
  calc load json (saved json log)
      = (do
          let entries ← (log.entries.map fun e =>
            .dict [("term", e.term), ("command", e.command)]).mapM entryOfDict
          return ⟨log.currentTerm, log.votedFor, entries⟩) := by
        rw [load, saved, Resp.utf8Decode?_utf8Encode]
        simp only [hloads]
        rfl
    _ = .ok log := by
      rw [mapM_entryOfDict]
      rfl

end Wire

/-- What a log saves, with its ids and commands as JSON values. -/
def SavedLog.onWire {F ι κ : Type} (ids : ι → JsonValue F) (commands : κ → JsonValue F)
    (log : SavedLog ι κ) : Wire.SavedLog F :=
  ⟨.int log.currentTerm, log.votedFor.elim .null ids, log.entries.map (LogEntry.onWire commands)⟩

/-- **The log that `RaftLog.new` builds is the one that is loaded.**  The bytes that `save`
writes are loaded as the term, the vote and the entries that a restarted log has. -/
theorem RaftLog.load_save {F ι κ : Type} (json : JsonText F) {ids : ι → JsonValue F}
    {commands : κ → JsonValue F} (hids : ∀ i, (ids i).IsJson)
    (hcommands : ∀ c, (commands c).IsJson) {log : RaftLog ι κ} (hpath : log.path = true) (term : ℕ)
    (vote : Option ι) :
    ∃ data, (log.save term vote).file = some data ∧
      Wire.load json (Wire.saved json (data.onWire ids commands)) =
        .ok (SavedLog.onWire ids commands ⟨(log.save term vote).reopen.currentTerm,
          (log.save term vote).reopen.votedFor, (log.save term vote).reopen.entries⟩) := by
  have hfile : (log.save term vote).file = some ⟨term, vote, log.entries⟩ := if_pos hpath
  have hreopen : (log.save term vote).reopen = new true (log.save term vote).file := if_pos hpath
  refine ⟨_, hfile, ?_⟩
  rw [hreopen, hfile]
  refine Wire.load_saved json ⟨trivial, ?_, fun e he => ?_⟩
  · cases vote with
    | none => trivial
    | some i => exact hids i
  · obtain ⟨e, -, rfl⟩ := List.mem_map.mp he
    exact ⟨trivial, hcommands e.command⟩

/-! ## Runs in which every call returns -/

namespace RaftCluster

variable {size : ℕ} {κ σ : Type} [StateMachine σ κ] [RaftCommand κ]

/-- The node handles the event and returns. -/
inductive Returned (c : RaftCluster size κ σ) : ClusterEvent size κ → Fin size →
    Option (RpcBody (Fin size) κ) → List (Envelope (Fin size) κ) → RaftNode (Fin size) κ σ → Prop
  | tick {i out y} : RaftNode.tick (c.nodes i) = .ok out y → Returned c (.tick i) i none out y
  | deliver {env out y} : env ∈ c.sent → RaftNode.step env (c.nodes env.dst) = .ok out y →
      Returned c (.deliver env) env.dst (some env.body) out y
  | propose {i command out y} : (Prod.snd <$> RaftNode.propose command) (c.nodes i) = .ok out y →
      Returned c (.propose i command) i none out y

/-- A call that returns, a command that is refused because the node does not lead, or a
restart. -/
inductive ReturningStep (c : RaftCluster size κ σ) : RaftCluster size κ σ → Prop
  | call {ev i request out y} : c.Returned ev i request out y → ReturningStep c (c.step ev)
  | refused {i : Fin size} (command : κ) : (c.nodes i).role ≠ .leader →
      ReturningStep c (c.step (.propose i command))
  | restart (i : Fin size) (rng : ℕ → ℕ) : ReturningStep c (c.step (.restart i rng))

/-- Any number of such steps. -/
def ReturningSteps : RaftCluster size κ σ → RaftCluster size κ σ → Prop :=
  Relation.ReflTransGen ReturningStep

variable {c : RaftCluster size κ σ} {ev : ClusterEvent size κ} {i : Fin size}
  {request : Option (RpcBody (Fin size) κ)} {out : List (Envelope (Fin size) κ)}
  {y : RaftNode (Fin size) κ σ}

theorem Returned.nodes (h : c.Returned ev i request out y) :
    (c.step ev).nodes = Function.update c.nodes i y := by
  cases h with
  | tick hr => rw [step, perform_nodes, hr, resultState_ok]
  | deliver _ hr => rw [step, perform_nodes, hr, resultState_ok]
  | propose hr => rw [step, perform_nodes, hr, resultState_ok]

/-- A call that returns has saved what it sends. -/
theorem Returned.synced (h : c.Returned ev i request out y) (hi : (c.nodes i).Synced) :
    y.Synced ∧ ∀ env ∈ out, y.BasedOn request env := by
  cases h with
  | tick hr =>
    have hanswers := hi.tick
    rwa [hr] at hanswers
  | @deliver env _ _ _ hr =>
    have hanswers := hi.step env
    rwa [hr] at hanswers
  | @propose _ command _ _ hr =>
    have hanswers := RaftNode.answers_propose (c.nodes i) command
    rwa [hr] at hanswers

omit [RaftCommand κ] in
/-- A restarted node has the term, the vote and the entries that were saved. -/
theorem synced_restartNode {n : RaftNode (Fin size) κ σ} (h : n.Synced) (rng : ℕ → ℕ) :
    n.SameState (restartNode n rng) ∧ (restartNode n rng).Synced := by
  obtain ⟨hsaved, hentries⟩ := RaftLog.SavedAs.reopen h
  have hsame : n.SameState (restartNode n rng) := ⟨hsaved.term, hsaved.vote, hentries⟩
  refine ⟨hsame, ?_⟩
  show n.log.reopen.SavedAs n.log.reopen.currentTerm n.log.reopen.votedFor n.log.reopen.entries
  rw [hsaved.term, hsaved.vote, hentries]
  exact hsaved

theorem ReturningStep.synced {c' : RaftCluster size κ σ} (h : c.ReturningStep c')
    (hc : ∀ i, (c.nodes i).Synced) (j : Fin size) : (c'.nodes j).Synced := by
  cases h with
  | @call ev i request out y hr =>
    rw [hr.nodes]
    exact (Function.forall_update_iff c.nodes fun _ => RaftNode.Synced).mpr
      ⟨(hr.synced (hc i)).1, fun j _ => hc j⟩ j
  | @refused i command hi =>
    have hr : resultState ((Prod.snd <$> RaftNode.propose command) (c.nodes i)) = c.nodes i := by
      simp [RaftNode.propose, hi]
    rw [step, perform_nodes, hr, Function.update_eq_self]
    exact hc j
  | restart i rng =>
    exact (Function.forall_update_iff c.nodes fun _ => RaftNode.Synced).mpr
      ⟨(synced_restartNode (hc i) rng).2, fun j _ => hc j⟩ j

/-- So has every call of a run. -/
theorem ReturningSteps.synced {c0 : RaftCluster size κ σ} (h : ReturningSteps c0 c)
    (hinit : c0.IsInit) (j : Fin size) : (c.nodes j).Synced := by
  induction h generalizing j with
  | refl =>
    obtain ⟨config, path, rng, sm, -, rfl⟩ := hinit
    have hnew := RaftLog.synced_new (ι := Fin size) (κ := κ) (path j)
    show (RaftLog.new (path j) none).SavedAs (RaftLog.new (path j) none).currentTerm
      (RaftLog.new (path j) none).votedFor _
    rw [hnew.term, hnew.vote]
    exact hnew
  | tail _ hstep ih => exact hstep.synced ih j

end RaftCluster

open RaftCluster in
/-- **Nothing is promised before it is saved.**  In every run in which the calls return, the
state of every node is saved.  When a further call returns, the saved term, vote and entries
are those in memory; a node restarted from them has them again, and the messages of the call
are true of it.  The file of a log is loaded as it was saved. -/
theorem promises_are_saved {size : ℕ} {κ σ : Type} [StateMachine σ κ] [RaftCommand κ]
    {c0 a : RaftCluster size κ σ} (hinit : c0.IsInit) (ha : ReturningSteps c0 a) :
    (∀ i, (a.nodes i).Synced) ∧
    (∀ ev i request out y, a.Returned ev i request out y → y.Synced ∧
      ∀ rng, (restartNode y rng).currentTerm = y.currentTerm ∧
        (restartNode y rng).votedFor = y.votedFor ∧
        (restartNode y rng).log.entries = y.log.entries ∧
        ∀ env ∈ out, (restartNode y rng).BasedOn request env) ∧
    ∀ (F : Type) (json : JsonText F) (log : Wire.SavedLog F), log.IsJson →
      Wire.load json (Wire.saved json log) = .ok log := by
  refine ⟨ha.synced hinit, fun ev i request out y hr => ?_, fun F json log => Wire.load_saved json⟩
  obtain ⟨hy, hbased⟩ := hr.synced (ha.synced hinit i)
  refine ⟨hy, fun rng => ?_⟩
  obtain ⟨hsame, -⟩ := synced_restartNode hy rng
  exact ⟨hsame.term, hsame.vote, hsame.entries, fun env henv => (hbased env henv).congr hsame⟩

open RaftCluster in
/-- The second node of the pair grants its vote, and has it after a restart. -/
theorem promises_are_saved_pair :
    ∃ out y, (pairInit.step (.tick 0)).Returned (.deliver ⟨0, 1, .requestVote ⟨1, 0, 0, 0⟩⟩) 1
        (some (.requestVote ⟨1, 0, 0, 0⟩)) out y ∧
      out = [⟨1, 0, .requestVoteReply ⟨1, true⟩⟩] ∧
      (restartNode y fun _ => 0).votedFor = y.votedFor ∧ y.votedFor = some 0 := by
  have hrun : ReturningSteps pairInit (pairInit.step (.tick 0)) :=
    .single (.call (.tick (i := 0) rfl))
  have hr : (pairInit.step (.tick 0)).Returned (.deliver ⟨0, 1, .requestVote ⟨1, 0, 0, 0⟩⟩) 1
      (some (.requestVote ⟨1, 0, 0, 0⟩)) _ _ := .deliver (by decide) rfl
  obtain ⟨-, hcalls, -⟩ := promises_are_saved pairInit_isInit hrun
  exact ⟨_, _, hr, by decide, ((hcalls _ _ _ _ _ hr).2 _).2.1, by decide⟩
