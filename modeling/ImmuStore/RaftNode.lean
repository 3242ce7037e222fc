/-
# The consensus node (`raft/node.py`)

`RaftNode` with every field the handlers read, and its methods under the names of
the source.  Methods that cannot raise are functions on nodes; the others run in
`NodeM`, where an exception keeps the assignments made before it, as in Python.

Three things are made explicit that the source leaves to its environment:

* the injected RNG is the stream `rng` of its future draws;
* the object behind the `apply` callback is the state machine `sm`;
* `applied` is a history the code does not keep: the arguments of every call of
  `_apply_fn` in the node's life.
-/
import ImmuStore.Python
import ImmuStore.RaftLog

/-! ## Exceptions, state machines, commands -/

/-- What a node method raises: `NotLeaderError` with the known leader, or another
exception. -/
inductive RaftError (ι : Type) where
  | notLeader (leaderId : Option ι)
  | raised (e : PyError)
  deriving DecidableEq, Repr

/-- A replicated state machine: the `apply` callback and the `applied_index`
property. -/
class StateMachine (σ : Type) (κ : outParam Type) where
  apply : ℕ → κ → Py σ Unit
  appliedIndex : σ → ℕ

/-- Commands are opaque to the node, but for the no-op it appends itself. -/
class RaftCommand (κ : Type) where
  noop : κ

/-- The commands of `statemachine.py`; values are opaque. -/
inductive KVCommand (ν : Type) where
  | set (key : String) (value : ν)
  | del (key : String)
  | noop
  deriving DecidableEq, Repr

instance (ν : Type) : RaftCommand (KVCommand ν) := ⟨.noop⟩

/-- `Recorder`: the in-memory state machine of the simulation. -/
structure Recorder (κ : Type) where
  applied : List (ℕ × κ) := []
  appliedIndex : ℕ := 0

instance (κ : Type) : StateMachine (Recorder κ) κ where
  apply := fun index command => modify fun r =>
    { r with applied := r.applied ++ [(index, command)], appliedIndex := index }
  appliedIndex := Recorder.appliedIndex

/-! ## The node -/

inductive Role where
  | follower
  | candidate
  | leader
  deriving DecidableEq, Repr

structure RaftConfig where
  electionTimeoutMin : ℕ := 10
  electionTimeoutMax : ℕ := 20
  heartbeatInterval : ℕ := 3

structure RaftNode (ι κ σ : Type) where
  nodeId : ι
  peers : List ι
  sm : σ
  applied : List (ℕ × κ)
  log : RaftLog ι κ
  rng : ℕ → ℕ
  config : RaftConfig
  currentTerm : ℕ
  votedFor : Option ι
  role : Role
  leaderId : Option ι
  commitIndex : ℕ
  lastApplied : ℕ
  votes : Finset ι
  nextIndex : ι → Option ℕ
  matchIndex : ι → Option ℕ
  electionElapsed : ℕ
  heartbeatElapsed : ℕ
  electionTimeout : ℕ
  outbox : List (Envelope ι κ)

/-- Computations of a node's methods. -/
abbrev NodeM (ι κ σ : Type) := EStateM (RaftError ι) (RaftNode ι κ σ)

namespace RaftNode

variable {ι κ σ : Type}

/-- `randint(lo, hi)` from the raw draw `r`. -/
def randint (lo hi r : ℕ) : ℕ := lo + r % (hi + 1 - lo)

def resetElectionTimer (n : RaftNode ι κ σ) : RaftNode ι κ σ :=
  { n with
    electionElapsed := 0
    electionTimeout := randint n.config.electionTimeoutMin n.config.electionTimeoutMax (n.rng 0)
    rng := fun k => n.rng (k + 1) }

/-- `RaftNode(node_id, peers, apply, log, rng, config, last_applied)`. -/
def new (nodeId : ι) (peers : List ι) (sm : σ) (applied : List (ℕ × κ)) (log : RaftLog ι κ)
    (rng : ℕ → ℕ) (config : RaftConfig) (lastApplied : ℕ) : RaftNode ι κ σ :=
  resetElectionTimer
    { nodeId := nodeId
      peers := peers
      sm := sm
      applied := applied
      log := log
      rng := rng
      config := config
      currentTerm := log.currentTerm
      votedFor := log.votedFor
      role := .follower
      leaderId := none
      commitIndex := 0
      lastApplied := lastApplied
      votes := ∅
      nextIndex := fun _ => none
      matchIndex := fun _ => none
      electionElapsed := 0
      heartbeatElapsed := 0
      electionTimeout := 0
      outbox := [] }

def clusterSize (n : RaftNode ι κ σ) : ℕ := n.peers.length + 1

def hasMajority (n : RaftNode ι κ σ) (count : ℕ) : Prop := n.clusterSize / 2 + 1 ≤ count

instance (n : RaftNode ι κ σ) (count : ℕ) : Decidable (n.hasMajority count) :=
  inferInstanceAs (Decidable (_ ≤ _))

def persist (n : RaftNode ι κ σ) : RaftNode ι κ σ :=
  { n with log := n.log.save n.currentTerm n.votedFor }

def send (n : RaftNode ι κ σ) (dst : ι) (body : RpcBody ι κ) : RaftNode ι κ σ :=
  { n with outbox := n.outbox ++ [⟨n.nodeId, dst, body⟩] }

def becomeFollower (n : RaftNode ι κ σ) (term : ℕ) : RaftNode ι κ σ :=
  let n := { n with role := .follower }
  let n := if n.currentTerm < term then { n with currentTerm := term, votedFor := none } else n
  persist (resetElectionTimer { n with leaderId := none })

/-! ## Applying committed entries -/

section Apply

variable [StateMachine σ κ]

/-- The call of the `apply` callback. -/
def applyFn (index : ℕ) (command : κ) : NodeM ι κ σ Unit := do
  modify fun n => { n with applied := n.applied ++ [(index, command)] }
  let n ← get
  match StateMachine.apply index command n.sm with
  | .ok _ sm => modify fun n => { n with sm := sm }
  | .error e sm =>
    modify fun n => { n with sm := sm }
    throw (.raised e)

/-- `while self.last_applied < self.commit_index`, `count` being the number of
rounds left. -/
def applyLoop : ℕ → NodeM ι κ σ Unit
  | 0 => pure ()
  | count + 1 => do
    modify fun n => { n with lastApplied := n.lastApplied + 1 }
    let n ← get
    match n.log.get n.lastApplied with
    | none => throw (.raised .indexError)
    | some entry =>
      applyFn n.lastApplied entry.command
      applyLoop count

def applyCommitted : NodeM ι κ σ Unit := do
  let n ← get
  applyLoop (n.commitIndex - n.lastApplied)

/-- The replicas of the entry at `index` the leader knows of, itself included. -/
def replicas (n : RaftNode ι κ σ) (index : ℕ) : ℕ :=
  1 + (n.peers.filter fun peer => index ≤ (n.matchIndex peer).getD 0).length

/-- The first index of `range(last_index, commit_index, -1)` that is of the
current term and has a majority of replicas. -/
def commitCandidate (n : RaftNode ι κ σ) : Option ℕ :=
  (List.range' (n.commitIndex + 1) (n.log.lastIndex - n.commitIndex)).reverse.find? fun index =>
    n.log.termAt index = n.currentTerm ∧ n.hasMajority (n.replicas index)

def maybeAdvanceCommit : NodeM ι κ σ Unit := do
  let n ← get
  match n.commitCandidate with
  | none => pure ()
  | some index =>
    modify fun n => { n with commitIndex := index }
    applyCommitted

end Apply

/-! ## Replication, elections and the handlers -/

section Handlers

variable [DecidableEq ι] [StateMachine σ κ] [RaftCommand κ]

def sendAppendTo (peer : ι) : NodeM ι κ σ Unit := do
  let n ← get
  match n.nextIndex peer with
  | none => throw (.raised .keyError)
  | some next =>
    let prevIndex := next - 1
    modify fun n => n.send peer (.appendEntries {
      term := n.currentTerm
      leaderId := n.nodeId
      prevLogIndex := prevIndex
      prevLogTerm := n.log.termAt prevIndex
      entries := n.log.entriesFrom (prevIndex + 1)
      leaderCommit := n.commitIndex })

def broadcastTo : List ι → NodeM ι κ σ Unit
  | [] => pure ()
  | peer :: rest => do
    sendAppendTo peer
    broadcastTo rest

def broadcastAppend : NodeM ι κ σ Unit := do
  let n ← get
  broadcastTo n.peers

def becomeLeader : NodeM ι κ σ Unit := do
  modify fun n =>
    { n with
      role := .leader
      leaderId := some n.nodeId
      nextIndex := fun peer => if peer ∈ n.peers then some (n.log.lastIndex + 1) else none
      matchIndex := fun peer => if peer ∈ n.peers then some 0 else none
      heartbeatElapsed := 0
      log := n.log.appendNew ⟨n.currentTerm, RaftCommand.noop⟩ }
  modify persist
  broadcastAppend
  maybeAdvanceCommit

/-- The vote requests a new candidate sends. -/
def requestVotes (n : RaftNode ι κ σ) : RaftNode ι κ σ :=
  n.peers.foldl (fun n peer => n.send peer (.requestVote {
    term := n.currentTerm
    candidateId := n.nodeId
    lastLogIndex := n.log.lastIndex
    lastLogTerm := n.log.lastTerm })) n

def becomeCandidate : NodeM ι κ σ Unit := do
  modify fun n => persist (resetElectionTimer
    { n with
      role := .candidate
      currentTerm := n.currentTerm + 1
      votedFor := some n.nodeId
      leaderId := none
      votes := {n.nodeId} })
  let n ← get
  if n.hasMajority n.votes.card then becomeLeader else modify requestVotes

def handleRequestVote (n : RaftNode ι κ σ) (src : ι) (rv : RequestVote ι) : RaftNode ι κ σ :=
  if rv.term < n.currentTerm then n.send src (.requestVoteReply ⟨n.currentTerm, false⟩)
  else
    let n := if n.currentTerm < rv.term then n.becomeFollower rv.term else n
    let logOk : Prop := n.log.lastTerm < rv.lastLogTerm ∨
      (rv.lastLogTerm = n.log.lastTerm ∧ n.log.lastIndex ≤ rv.lastLogIndex)
    if (n.votedFor = none ∨ n.votedFor = some rv.candidateId) ∧ logOk then
      let n := persist (resetElectionTimer { n with votedFor := some rv.candidateId })
      n.send src (.requestVoteReply ⟨n.currentTerm, true⟩)
    else n.send src (.requestVoteReply ⟨n.currentTerm, false⟩)

def handleRequestVoteReply (src : ι) (reply : RequestVoteReply) : NodeM ι κ σ Unit := do
  let n ← get
  if n.currentTerm < reply.term then modify (becomeFollower · reply.term)
  else if n.role ≠ .candidate ∨ reply.term < n.currentTerm then pure ()
  else if reply.voteGranted then
    modify fun n => { n with votes := insert src n.votes }
    let n ← get
    if n.hasMajority n.votes.card then becomeLeader else pure ()
  else pure ()

/-- The part of `_handle_append_entries` after the consistency check. -/
def acceptEntries (src : ι) (ae : AppendEntries ι κ) : NodeM ι κ σ Unit := do
  modify fun n => { n with log := n.log.appendFrom ae.prevLogIndex ae.entries }
  let newLast := ae.prevLogIndex + ae.entries.length
  let n ← get
  if n.commitIndex < ae.leaderCommit then
    modify fun n => { n with commitIndex := min ae.leaderCommit newLast }
    applyCommitted
  modify persist
  modify fun n => n.send src (.appendEntriesReply ⟨n.currentTerm, true, newLast⟩)

def handleAppendEntries (src : ι) (ae : AppendEntries ι κ) : NodeM ι κ σ Unit := do
  let n ← get
  if ae.term < n.currentTerm then
    modify fun n => n.send src (.appendEntriesReply ⟨n.currentTerm, false, n.log.lastIndex⟩)
  else
    modify fun n => if n.currentTerm < ae.term then n.becomeFollower ae.term else n
    modify fun n =>
      resetElectionTimer { n with role := .follower, leaderId := some ae.leaderId }
    let n ← get
    if n.log.lastIndex < ae.prevLogIndex ∨ n.log.termAt ae.prevLogIndex ≠ ae.prevLogTerm then
      modify fun n => n.send src (.appendEntriesReply ⟨n.currentTerm, false, n.log.lastIndex⟩)
    else acceptEntries src ae

def handleAppendEntriesReply (src : ι) (reply : AppendEntriesReply) : NodeM ι κ σ Unit := do
  let n ← get
  if n.currentTerm < reply.term then modify (becomeFollower · reply.term)
  else if n.role ≠ .leader ∨ reply.term < n.currentTerm then pure ()
  else if reply.success then
    modify fun n =>
      { n with
        matchIndex := Function.update n.matchIndex src (some reply.matchIndex)
        nextIndex := Function.update n.nextIndex src (some (reply.matchIndex + 1)) }
    maybeAdvanceCommit
  else
    match n.nextIndex src with
    | none => throw (.raised .keyError)
    | some next =>
      modify fun n =>
        { n with
          nextIndex := Function.update n.nextIndex src
            (some (max 1 (min (next - 1) (reply.matchIndex + 1)))) }
      sendAppendTo src

/-! ## The driving API -/

def drain : NodeM ι κ σ (List (Envelope ι κ)) := do
  let n ← get
  modify fun n => { n with outbox := [] }
  pure n.outbox

def tick : NodeM ι κ σ (List (Envelope ι κ)) := do
  modify fun n => { n with outbox := [] }
  let n ← get
  if n.role = .leader then
    modify fun n => { n with heartbeatElapsed := n.heartbeatElapsed + 1 }
    if n.config.heartbeatInterval ≤ n.heartbeatElapsed + 1 then
      modify fun n => { n with heartbeatElapsed := 0 }
      broadcastAppend
  else
    modify fun n => { n with electionElapsed := n.electionElapsed + 1 }
    if n.electionTimeout ≤ n.electionElapsed + 1 then
      becomeCandidate
  drain

def step (envelope : Envelope ι κ) : NodeM ι κ σ (List (Envelope ι κ)) := do
  modify fun n => { n with outbox := [] }
  match envelope.body with
  | .requestVote rv => modify (handleRequestVote · envelope.src rv)
  | .requestVoteReply reply => handleRequestVoteReply envelope.src reply
  | .appendEntries ae => handleAppendEntries envelope.src ae
  | .appendEntriesReply reply => handleAppendEntriesReply envelope.src reply
  drain

/-- `propose`: the index of the new entry and the messages to send. -/
def propose (command : κ) : NodeM ι κ σ (ℕ × List (Envelope ι κ)) := do
  let n ← get
  if n.role ≠ .leader then throw (.notLeader n.leaderId)
  modify fun n => { n with outbox := [] }
  modify fun n => { n with log := n.log.appendNew ⟨n.currentTerm, command⟩ }
  let index := (← get).log.lastIndex
  modify persist
  broadcastAppend
  maybeAdvanceCommit
  let out ← drain
  pure (index, out)

end Handlers

end RaftNode
