/-
# What a call can do

Every call of a node's method prepares a commit index, applies committed entries, and
finishes, and does nothing else to the state machine (`CallOf`).  Apart from the applying the
state machine and its counters are left alone (`Quiet`), and the commands that a node keeps or
sends are those it had, those of the request it handles, its own no-op, or the command that is
proposed to it (`Carries`).  A call raises what applying has raised, unless a next index is
missing, and sets no earlier commit index, unless a request announces more than it reaches.
-/
import ImmuStore.RaftSplice
import ImmuStore.RaftNodeSpec

variable {ι κ σ : Type}

/-! ## Commands -/

/-- The entries after a splice are old or new ones. -/
theorem RaftLog.mem_spliceEntries {e : LogEntry κ} {L es : List (LogEntry κ)} {p : ℕ}
    (h : e ∈ spliceEntries L p es) : e ∈ L ∨ e ∈ es := by
  induction es generalizing L p with
  | nil => exact .inl h
  | cons new es ih =>
    have hone : ∀ L', (∀ a ∈ L', a ∈ L ∨ a = new) → e ∈ spliceEntries L' (p + 1) es →
        e ∈ L ∨ e ∈ new :: es := by
      intro L' hL' he
      rcases ih he with hold | hrest
      · rcases hL' e hold with hL | rfl
        · exact .inl hL
        · exact .inr (.head _)
      · exact .inr (.tail _ hrest)
    rw [spliceEntries] at h
    cases hp : L[p]? with
    | none =>
      rw [hp] at h
      exact hone _ (fun a ha => by simpa using ha) h
    | some old =>
      rw [hp] at h
      dsimp only at h
      split_ifs at h
      · refine hone _ (fun a ha => ?_) h
        rcases List.mem_append.mp ha with hold | hnew
        · exact .inl (List.mem_of_mem_take hold)
        · exact .inr (List.mem_singleton.mp hnew)
      · exact hone _ (fun a ha => .inl ha) h

/-- The entries of an append request have commands with the property. -/
def Envelope.Carries (P : κ → Prop) (env : Envelope ι κ) : Prop :=
  match env.body with
  | .appendEntries ae => ∀ e ∈ ae.entries, P e.command
  | _ => True

theorem Envelope.carries_true (env : Envelope ι κ) : env.Carries fun _ => True := by
  unfold Envelope.Carries
  split
  · exact fun _ _ => trivial
  · trivial

namespace RaftNode

/-- Every command that the node has, has saved or is about to send has the property. -/
structure Carries (P : κ → Prop) (n : RaftNode ι κ σ) : Prop where
  entries : ∀ e ∈ n.log.entries, P e.command
  file : ∀ saved, n.log.file = some saved → ∀ e ∈ saved.entries, P e.command
  outbox : ∀ env ∈ n.outbox, env.Carries P

/-! ## The parts of a call -/

/-- The state machine and its counters are as before. -/
structure Quiet (P : κ → Prop) (n y : RaftNode ι κ σ) : Prop where
  sm : y.sm = n.sm
  lastApplied : y.lastApplied = n.lastApplied
  applied : y.applied = n.applied
  carries : n.Carries P → y.Carries P

/-- The commit index is as before, too. -/
structure Silent (P : κ → Prop) (n y : RaftNode ι κ σ) : Prop extends Quiet P n y where
  commitIndex : y.commitIndex = n.commitIndex

/-- What follows the applying: the entries are as before, too. -/
structure Finishes (P : κ → Prop) (n y : RaftNode ι κ σ) : Prop extends Silent P n y where
  entries : y.log.entries = n.log.entries

variable {P : κ → Prop} {n x y z : RaftNode ι κ σ}

theorem Quiet.trans (h : Quiet P x y) (h' : Quiet P y z) : Quiet P x z where
  sm := h'.sm.trans h.sm
  lastApplied := h'.lastApplied.trans h.lastApplied
  applied := h'.applied.trans h.applied
  carries := fun hx => h'.carries (h.carries hx)

theorem Silent.trans (h : Silent P x y) (h' : Silent P y z) : Silent P x z :=
  ⟨h.toQuiet.trans h'.toQuiet, h'.commitIndex.trans h.commitIndex⟩

theorem Finishes.trans (h : Finishes P x y) (h' : Finishes P y z) : Finishes P x z :=
  ⟨h.toSilent.trans h'.toSilent, h'.entries.trans h.entries⟩

theorem Silent.finish (h : Silent P x y) (h' : Finishes P y z) : Silent P x z :=
  h.trans h'.toSilent

section

variable (hlog : y.log = n.log) (hout : y.outbox = n.outbox) (hsm : y.sm = n.sm)
    (hlast : y.lastApplied = n.lastApplied)
include hlog hout hsm hlast

/-- Nothing that concerns the commands or the state machine has changed. -/
theorem finishes_of_eq (happlied : y.applied = n.applied)
    (hcommit : y.commitIndex = n.commitIndex) : Finishes P n y where
  sm := hsm
  lastApplied := hlast
  applied := happlied
  carries := fun h => ⟨by rw [hlog]; exact h.entries, by rw [hlog]; exact h.file,
    by rw [hout]; exact h.outbox⟩
  commitIndex := hcommit
  entries := congrArg RaftLog.entries hlog

theorem silent_of_eq (happlied : y.applied = n.applied) (hcommit : y.commitIndex = n.commitIndex) : Silent P n y :=
  (finishes_of_eq hlog hout hsm hlast happlied hcommit).toSilent

end

theorem finishes_refl (n : RaftNode ι κ σ) : Finishes P n n := finishes_of_eq rfl rfl rfl rfl rfl rfl

theorem finishes_persist (n : RaftNode ι κ σ) : Finishes P n n.persist where
  sm := rfl
  lastApplied := rfl
  applied := rfl
  carries := fun h => by
    refine ⟨h.entries, fun saved hsaved => ?_, h.outbox⟩
    -- what is saved are the entries, if there is a path at all
    have hfile : (if n.log.path then some ⟨n.currentTerm, n.votedFor, n.log.entries⟩
        else n.log.file) = some saved := hsaved
    split_ifs at hfile
    · rw [← Option.some.inj hfile]
      exact h.entries
    · exact h.file saved hfile
  commitIndex := rfl
  entries := rfl

theorem finishes_clear (n : RaftNode ι κ σ) : Finishes P n { n with outbox := [] } where
  sm := rfl
  lastApplied := rfl
  applied := rfl
  carries := fun h => ⟨h.entries, h.file, fun _ henv => absurd henv List.not_mem_nil⟩
  commitIndex := rfl
  entries := rfl

theorem finishes_send {dst : ι} {body : RpcBody ι κ}
    (hbody : n.Carries P → Envelope.Carries P ⟨n.nodeId, dst, body⟩) :
    Finishes P n (n.send dst body) where
  sm := rfl
  lastApplied := rfl
  applied := rfl
  carries := fun h => ⟨h.entries, h.file, fun env henv => by
    rcases List.mem_append.mp henv with hold | hnew
    · exact h.outbox env hold
    · obtain rfl := List.mem_singleton.mp hnew
      exact hbody h⟩
  commitIndex := rfl
  entries := rfl

/-- A leader enters a command. -/
theorem silent_appendNew {e : LogEntry κ} (he : P e.command) :
    Silent P n { n with log := n.log.appendNew e } where
  sm := rfl
  lastApplied := rfl
  applied := rfl
  carries := fun h => by
    refine ⟨fun e' he' => ?_, h.file, h.outbox⟩
    rcases List.mem_append.mp he' with hold | hnew
    · exact h.entries e' hold
    · obtain rfl := List.mem_singleton.mp hnew
      exact he
  commitIndex := rfl

/-- A follower takes over entries. -/
theorem silent_appendFrom {prevIndex : ℕ} {es : List (LogEntry κ)} (hes : ∀ e ∈ es, P e.command) :
    Silent P n { n with log := n.log.appendFrom prevIndex es } where
  sm := rfl
  lastApplied := rfl
  applied := rfl
  carries := fun h => by
    refine ⟨fun e he => ?_, h.file, h.outbox⟩
    rcases RaftLog.mem_spliceEntries he with hold | hnew
    · exact h.entries e hold
    · exact hes e hnew
  commitIndex := rfl

/-! ## Calls -/

/-- The peers of a leader have next indices. -/
def NextKnown (n : RaftNode ι κ σ) : Prop :=
  n.role = .leader → ∀ p ∈ n.peers, ∃ next, n.nextIndex p = some next

/-- A request does not announce more committed entries than it reaches. -/
def CommitInReach (ae : AppendEntries ι κ) : Prop :=
  ae.leaderCommit ≤ ae.prevLogIndex + ae.entries.length

/-- The node has set a commit index within its log, which is not an earlier one if `R`. -/
structure Commits (P : κ → Prop) (R : Prop) (n z : RaftNode ι κ σ) : Prop extends Quiet P n z where
  ahead : R → n.commitIndex ≤ z.commitIndex
  inLog : z.commitIndex ≤ z.log.lastIndex

theorem Commits.prepend {R : Prop} (h : Commits P R y z) (hy : Silent P n y) : Commits P R n z :=
  ⟨hy.toQuiet.trans h.toQuiet, fun hR => hy.commitIndex.ge.trans (h.ahead hR), h.inLog⟩

/-- A computation that leaves the state machine alone, and returns if `K`. -/
structure SilentCall {α : Type} (P : κ → Prop) (K : Prop) (n : RaftNode ι κ σ)
    (r : EStateM.Result (RaftError ι) (RaftNode ι κ σ) α) : Prop where
  silent : Silent P n (resultState r)
  returns : K → ∃ a y, r = .ok a y

section Calls

variable {α β : Type} {K R : Prop}

theorem silent_sendAppendTo (peer : ι) : Silent P n (resultState (sendAppendTo peer n)) := by
  cases hnext : n.nextIndex peer with
  | none =>
    simp only [sendAppendTo, run_bind, run_get, hnext, run_throw, resultState_error]
    exact (finishes_refl n).toSilent
  | some next =>
    rw [sendAppendTo_eq hnext]
    refine (finishes_refl n).toSilent.finish (finishes_send ?_)
    intro h e he
    exact h.entries e (List.mem_of_mem_drop he)

/-- Requests to the peers commit nothing. -/
theorem silent_broadcastTo (peers : List ι) : Silent P n (resultState (broadcastTo peers n)) := by
  induction peers generalizing n with
  | nil => exact (finishes_refl n).toSilent
  | cons peer peers ih =>
    have hfirst := silent_sendAppendTo (P := P) (n := n) peer
    simp only [broadcastTo, run_bind]
    cases hr : sendAppendTo peer n with
    | error e y =>
      rw [hr] at hfirst
      exact hfirst
    | ok a y =>
      rw [hr] at hfirst
      exact hfirst.trans ih

theorem silentCall_broadcastAppend (hK : K → ∀ p ∈ n.peers, ∃ next, n.nextIndex p = some next) :
    SilentCall P K n (broadcastAppend n) :=
  ⟨silent_broadcastTo n.peers, fun hk => ⟨_, _, broadcastTo_eq n.peers n (hK hk)⟩⟩

/-- Nor do requests for votes, -/
theorem silent_requestVotes (n : RaftNode ι κ σ) : Silent P n n.requestVotes := by
  unfold requestVotes
  generalize n.peers = peers
  induction peers generalizing n with
  | nil => exact (finishes_refl n).toSilent
  | cons peer peers ih =>
    refine Silent.trans ?_ (ih (n.send peer _))
    exact (finishes_refl n).toSilent.finish (finishes_send (by intro _; trivial))

/-- a new term, -/
theorem silent_becomeFollower (n : RaftNode ι κ σ) (T : ℕ) : Silent P n (n.becomeFollower T) := by
  unfold becomeFollower
  dsimp only
  split_ifs
  · refine Silent.finish ?_ (finishes_persist _)
    exact silent_of_eq rfl rfl rfl rfl rfl rfl
  · refine Silent.finish ?_ (finishes_persist _)
    exact silent_of_eq rfl rfl rfl rfl rfl rfl

/-- The node takes over a later term. -/
theorem silent_adopt (n : RaftNode ι κ σ) (T : ℕ) :
    Silent P n (if n.currentTerm < T then n.becomeFollower T else n) := by
  split_ifs
  · exact silent_becomeFollower n T
  · exact (finishes_refl n).toSilent

/-- or a vote. -/
theorem silent_handleRequestVote [DecidableEq ι] (src : ι) (rv : RequestVote ι) :
    Silent P n (n.handleRequestVote src rv) := by
  unfold handleRequestVote
  by_cases hold : rv.term < n.currentTerm
  · rw [if_pos hold]
    exact (finishes_refl n).toSilent.finish (finishes_send (by intro _; trivial))
  rw [if_neg hold]
  refine (silent_adopt n rv.term).trans ?_
  generalize (if n.currentTerm < rv.term then n.becomeFollower rv.term else n) = y
  dsimp only
  split_ifs
  · refine Silent.finish (Silent.finish ?_ (finishes_persist _)) (finishes_send (by intro _; trivial))
    exact silent_of_eq rfl rfl rfl rfl rfl rfl
  · exact (finishes_refl y).toSilent.finish (finishes_send (by intro _; trivial))

variable [StateMachine σ κ]
variable {r : EStateM.Result (RaftError ι) (RaftNode ι κ σ) α} {m : NodeM ι κ σ α}
    {f : α → NodeM ι κ σ β}
variable {ae : AppendEntries ι κ}

/-- A call leaves the state machine alone, raising only if `K` fails; or it sets a commit
index, applies up to it, and if that returns, it leaves the state machine, the entries and the
commit index alone and returns. -/
inductive CallOf (P : κ → Prop) (K R : Prop) (n : RaftNode ι κ σ) :
    EStateM.Result (RaftError ι) (RaftNode ι κ σ) α → Prop
  | returns {a : α} {y : RaftNode ι κ σ} : Silent P n y → CallOf P K R n (.ok a y)
  | raises {e : RaftError ι} {y : RaftNode ι κ σ} : ¬ K → Silent P n y →
      CallOf P K R n (.error e y)
  | applies {z w y : RaftNode ι κ σ} {a : α} : Commits P R n z → applyCommitted z = .ok ⟨⟩ w →
      Finishes P w y → CallOf P K R n (.ok a y)
  | applyRaises {z w : RaftNode ι κ σ} {e : RaftError ι} : Commits P R n z →
      applyCommitted z = .error e w → CallOf P K R n (.error e w)

/-- The two kinds of calls. -/
theorem CallOf.split (h : CallOf P K R n r) :
    Silent P n (resultState r) ∨
      ∃ z, Commits P R n z ∧ Finishes P (resultState (applyCommitted z)) (resultState r) := by
  cases h with
  | returns h => exact .inl h
  | raises _ h => exact .inl h
  | applies hz happly hy => exact .inr ⟨_, hz, by rw [happly]; exact hy⟩
  | applyRaises hz happly => exact .inr ⟨_, hz, by rw [happly]; exact finishes_refl _⟩

theorem CallOf.prepend (hy : Silent P n y) (h : CallOf P K R y r) : CallOf P K R n r := by
  cases h with
  | returns h => exact .returns (hy.trans h)
  | raises hk h => exact .raises hk (hy.trans h)
  | applies hz happly hfinishes => exact .applies (hz.prepend hy) happly hfinishes
  | applyRaises hz happly => exact .applyRaises (hz.prepend hy) happly

/-- A step that leaves the state machine alone may come first. -/
theorem CallOf.after {a : α} (hm : m n = .ok a y) (hy : Silent P n y) (hf : CallOf P K R y (f a y))
    : CallOf P K R n ((m >>= f) n) := by
  rw [run_bind, hm]
  exact hf.prepend hy

omit [StateMachine σ κ] in
/-- It raises only where `K` fails. -/
theorem SilentCall.error {e : RaftError ι}
    (h : SilentCall P K n (.error e y : EStateM.Result _ _ α)) : ¬ K ∧ Silent P n y := by
  refine ⟨fun hk => ?_, h.silent⟩
  obtain ⟨a, z, hz⟩ := h.returns hk
  cases hz

/-- The same for a step that may raise. -/
theorem CallOf.sent (hm : SilentCall P K n (m n)) (hf : ∀ {a} y, CallOf P K R y (f a y)) :
    CallOf P K R n ((m >>= f) n) := by
  cases hr : m n with
  | error e y =>
    rw [hr] at hm
    rw [run_bind, hr]
    exact .raises hm.error.1 hm.error.2
  | ok a y =>
    rw [hr] at hm
    exact CallOf.after hr hm.silent (hf y)

theorem SilentCall.callOf (h : SilentCall P K n r) : CallOf P K R n r := by
  cases r with
  | ok a y => exact .returns h.silent
  | error e y => exact .raises h.error.1 h.error.2

/-- A step that returns and also leaves the entries and the commit index alone may come last. -/
theorem CallOf.finish (hm : CallOf P K R n (m n))
    (hf : ∀ a y, ∃ b z, f a y = .ok b z ∧ Finishes P y z) : CallOf P K R n ((m >>= f) n) := by
  rw [run_bind]
  generalize m n = r at hm
  cases hm with
  | @returns a y h =>
    obtain ⟨b, z, hrun, hz⟩ := hf a y
    show CallOf P K R n (f a y)
    rw [hrun]
    exact .returns (h.finish hz)
  | raises hk h => exact .raises hk h
  | @applies _ w y a hz happly hy =>
    obtain ⟨b, z, hrun, hyz⟩ := hf a y
    show CallOf P K R n (f a y)
    rw [hrun]
    exact .applies hz happly (hy.trans hyz)
  | applyRaises hz happly => exact .applyRaises hz happly

theorem callOf_applyCommitted (h : Commits P R n y) : CallOf P K R n (applyCommitted y) := by
  cases happly : applyCommitted y with
  | ok a w => exact .applies h happly (finishes_refl w)
  | error e w => exact .applyRaises h happly

/-- A leader commits what it finds on a majority. -/
theorem callOf_maybeAdvanceCommit : CallOf P K R n (maybeAdvanceCommit n) := by
  simp only [maybeAdvanceCommit, run_bind, run_get]
  cases hc : n.commitCandidate with
  | none => exact .returns (finishes_refl n).toSilent
  | some index =>
    obtain ⟨hlt, hle, -⟩ := commitCandidate_spec hc
    exact callOf_applyCommitted (y := { n with commitIndex := index })
      ⟨⟨rfl, rfl, rfl, fun h => ⟨h.entries, h.file, h.outbox⟩⟩, fun _ => hlt.le, hle⟩

/-- The new commit index of a follower lies within the spliced log. -/
theorem callOf_acceptEntries (src : ι) (hprev : ae.prevLogIndex ≤ n.log.lastIndex)
    (hes : ∀ e ∈ ae.entries, P e.command) (hR : R → CommitInReach ae) :
    CallOf P K R n (acceptEntries src ae n) := by
  have hlen : ae.prevLogIndex + ae.entries.length ≤
      (n.log.appendFrom ae.prevLogIndex ae.entries).entries.length :=
    (RaftLog.spliceEntries_placed hprev ae.entries).le_length
  have hlast : ∀ y : RaftNode ι κ σ, Finishes P y (send (persist y) src
      (.appendEntriesReply ⟨y.currentTerm, true, ae.prevLogIndex + ae.entries.length⟩)) := fun y =>
    (finishes_persist y).trans (finishes_send (by intro _; trivial))
  refine CallOf.after (m := modify _) rfl (silent_appendFrom hes) ?_
  simp only [run_bind, run_get]
  split_ifs with hcommit
  · rw [← bind_assoc]
    refine CallOf.finish ?_ fun _ y => ⟨_, _, rfl, hlast y⟩
    refine callOf_applyCommitted (y := { n with
        log := n.log.appendFrom ae.prevLogIndex ae.entries
        commitIndex := min ae.leaderCommit (ae.prevLogIndex + ae.entries.length) })
      ⟨⟨rfl, rfl, rfl, fun h => ⟨h.entries, h.file, h.outbox⟩⟩, fun hr => ?_,
        (Nat.min_le_right _ _).trans hlen⟩
    show n.commitIndex ≤ min ae.leaderCommit (ae.prevLogIndex + ae.entries.length)
    rw [min_eq_left (hR hr)]
    exact hcommit.le
  · exact .returns (hlast _).toSilent

theorem callOf_handleAppendEntries (src : ι) (hes : ∀ e ∈ ae.entries, P e.command)
    (hR : R → CommitInReach ae) :
    CallOf P K R n (handleAppendEntries src ae n) := by
  simp only [handleAppendEntries, run_bind, run_get]
  by_cases hold : ae.term < n.currentTerm
  · rw [if_pos hold]
    exact .returns ((finishes_refl n).toSilent.finish (finishes_send (by intro _; trivial)))
  rw [if_neg hold]
  have hadopt := silent_adopt (P := P) n ae.term
  simp only [run_bind, run_modify, run_get]
  generalize (if n.currentTerm < ae.term then n.becomeFollower ae.term else n) = y at hadopt
  have hhears : Silent P y (resetElectionTimer
      { y with role := .follower, leaderId := some ae.leaderId }) :=
    silent_of_eq rfl rfl rfl rfl rfl rfl
  refine CallOf.prepend (hadopt.trans hhears) ?_
  split_ifs with hreject
  · refine .returns (Silent.finish (finishes_refl _).toSilent (finishes_send ?_))
    intro _
    trivial
  · exact callOf_acceptEntries src (Nat.le_of_not_lt (not_or.mp hreject).1) hes hR

variable [DecidableEq ι]

theorem callOf_handleAppendEntriesReply (src : ι) (reply : AppendEntriesReply)
    (hK : K → n.role = .leader → ∃ next, n.nextIndex src = some next) :
    CallOf P K R n (handleAppendEntriesReply src reply n) := by
  simp only [handleAppendEntriesReply, run_bind, run_get]
  split_ifs with hterm hskip hsuccess
  · exact .returns (silent_becomeFollower n reply.term)
  · exact .returns (finishes_refl n).toSilent
  · exact .after (m := modify _) rfl (silent_of_eq rfl rfl rfl rfl rfl rfl)
      callOf_maybeAdvanceCommit
  · cases hnext : n.nextIndex src with
    | none =>
      refine .raises (fun hk => ?_) (finishes_refl n).toSilent
      obtain ⟨next, hsome⟩ := hK hk (not_not.mp (not_or.mp hskip).1)
      rw [hnext] at hsome
      cases hsome
    | some next =>
      refine .after (m := modify _) rfl (silent_of_eq rfl rfl rfl rfl rfl rfl) ?_
      refine SilentCall.callOf ⟨silent_sendAppendTo src, fun _ => ?_⟩
      rw [sendAppendTo_eq (Function.update_self ..)]
      exact ⟨_, _, rfl⟩

variable [RaftCommand κ]

/-- A new leader appends its no-op. -/
theorem callOf_becomeLeader (hnoop : P RaftCommand.noop) : CallOf P K R n (becomeLeader n) := by
  have hleads : Silent P n { n with
      role := .leader
      leaderId := some n.nodeId
      nextIndex := fun peer => if peer ∈ n.peers then some (n.log.lastIndex + 1) else none
      matchIndex := fun peer => if peer ∈ n.peers then some 0 else none
      heartbeatElapsed := 0 } := silent_of_eq rfl rfl rfl rfl rfl rfl
  refine CallOf.after (m := modify _) rfl (hleads.trans (silent_appendNew hnoop)) ?_
  refine CallOf.after (m := modify _) rfl (finishes_persist _).toSilent ?_
  exact CallOf.sent (silentCall_broadcastAppend fun _ p hp => ⟨_, if_pos hp⟩)
    fun y => callOf_maybeAdvanceCommit

/-- A node alone becomes leader at once. -/
theorem callOf_becomeCandidate (hnoop : P RaftCommand.noop) :
    CallOf P K R n (becomeCandidate n) := by
  have hstands : Silent P n (resetElectionTimer { n with
      role := .candidate
      currentTerm := n.currentTerm + 1
      votedFor := some n.nodeId
      leaderId := none
      votes := {n.nodeId} }) := silent_of_eq rfl rfl rfl rfl rfl rfl
  refine CallOf.after (m := modify _) rfl (hstands.finish (finishes_persist _)) ?_
  simp only [run_bind, run_get]
  split_ifs
  · exact callOf_becomeLeader hnoop
  · exact .returns (silent_requestVotes _)

theorem callOf_handleRequestVoteReply (hnoop : P RaftCommand.noop) (src : ι)
    (reply : RequestVoteReply) : CallOf P K R n (handleRequestVoteReply src reply n) := by
  simp only [handleRequestVoteReply, run_bind, run_get]
  split_ifs
  · exact .returns (silent_becomeFollower n reply.term)
  · exact .returns (finishes_refl n).toSilent
  · refine CallOf.after (m := modify _) rfl (silent_of_eq rfl rfl rfl rfl rfl rfl) ?_
    simp only [run_bind, run_get]
    split_ifs
    · exact callOf_becomeLeader hnoop
    · exact .returns (finishes_refl _).toSilent
  · exact .returns (finishes_refl n).toSilent

omit [DecidableEq ι] [RaftCommand κ] in
/-- A call keeps the property of the commands. -/
theorem CallOf.carries (h : CallOf P K R n r) (hn : n.Carries P) : (resultState r).Carries P := by
  rcases h.split with hsilent | ⟨z, hcommits, hfinishes⟩
  · exact hsilent.carries hn
  · refine hfinishes.carries ?_
    have hz := hcommits.carries hn
    -- applying touches neither the log nor the outbox
    obtain ⟨last, calls, sm, hsame⟩ := sameButApplied_applyLoop (z.commitIndex - z.lastApplied) z
    show (resultState (applyLoop (z.commitIndex - z.lastApplied) z)).Carries P
    rw [hsame]
    exact ⟨hz.entries, hz.file, hz.outbox⟩

/-! ## The driving API -/

/-- A call whose messages have the property, too. -/
def SendsOf (P : κ → Prop) (K R : Prop) (n : RaftNode ι κ σ)
    (r : EStateM.Result (RaftError ι) (RaftNode ι κ σ) (List (Envelope ι κ))) : Prop :=
  CallOf P K R n r ∧ (n.Carries P → ∀ out y, r = .ok out y → ∀ env ∈ out, env.Carries P)

omit [DecidableEq ι] [RaftCommand κ] in
theorem SendsOf.prepend {r : EStateM.Result (RaftError ι) (RaftNode ι κ σ) (List (Envelope ι κ))}
    (hy : Silent P n y) (h : SendsOf P K R y r) : SendsOf P K R n r :=
  ⟨h.1.prepend hy, fun hn => h.2 (hy.carries hn)⟩

omit [DecidableEq ι] [RaftCommand κ] in
theorem SendsOf.after {f : α → NodeM ι κ σ (List (Envelope ι κ))} {a : α} (hm : m n = .ok a y)
    (hy : Silent P n y) (hf : SendsOf P K R y (f a y)) :
    SendsOf P K R n ((m >>= f) n) := by
  rw [run_bind, hm]
  exact hf.prepend hy

omit [DecidableEq ι] [RaftCommand κ] in
/-- What is drained was in the outbox. -/
theorem CallOf.drain (h : CallOf P K R n (m n)) :
    SendsOf P K R n ((m >>= fun _ => RaftNode.drain) n) := by
  refine ⟨h.finish fun _ y => ⟨_, _, rfl, finishes_clear y⟩, fun hn out y hr => ?_⟩
  rw [run_bind] at hr
  cases hm : m n with
  | error e z => simp [hm] at hr
  | ok a z =>
    rw [hm] at hr
    have hz := h.carries hn
    rw [hm] at hz
    cases hr
    exact hz.outbox

theorem sendsOf_tick (hnoop : P RaftCommand.noop) (hK : K → n.NextKnown) :
    SendsOf P K R n (tick n) := by
  refine SendsOf.after (m := modify _) rfl (finishes_clear n).toSilent ?_
  simp only [run_bind, run_get]
  split_ifs with hleads
  · refine SendsOf.after (m := modify _) rfl (silent_of_eq rfl rfl rfl rfl rfl rfl) ?_
    refine SendsOf.after (m := modify _) rfl (silent_of_eq rfl rfl rfl rfl rfl rfl) ?_
    refine CallOf.drain (silentCall_broadcastAppend fun hk => ?_).callOf
    exact hK hk hleads
  · refine SendsOf.after (m := modify _) rfl (silent_of_eq rfl rfl rfl rfl rfl rfl) ?_
    exact CallOf.drain (m := pure ()) (.returns (finishes_refl _).toSilent)
  · refine SendsOf.after (m := modify _) rfl (silent_of_eq rfl rfl rfl rfl rfl rfl) ?_
    exact (callOf_becomeCandidate hnoop).drain
  · refine SendsOf.after (m := modify _) rfl (silent_of_eq rfl rfl rfl rfl rfl rfl) ?_
    exact CallOf.drain (m := pure ()) (.returns (finishes_refl _).toSilent)

theorem sendsOf_step (hnoop : P RaftCommand.noop) {env : Envelope ι κ} (henv : env.Carries P)
    (hK : K → n.NextKnown ∧ env.src ∈ n.peers)
    (hR : R → ∀ ae, env.body = .appendEntries ae → CommitInReach ae) :
    SendsOf P K R n (step env n) := by
  obtain ⟨src, dst, body⟩ := env
  refine SendsOf.after (m := modify _) rfl (finishes_clear n).toSilent ?_
  cases body with
  | requestVote rv => exact CallOf.drain (m := modify _) (.returns (silent_handleRequestVote src rv))
  | requestVoteReply reply => exact (callOf_handleRequestVoteReply hnoop src reply).drain
  | appendEntries ae =>
    exact (callOf_handleAppendEntries src henv fun hr => hR hr ae rfl).drain
  | appendEntriesReply reply =>
    refine (callOf_handleAppendEntriesReply src reply ?_).drain
    exact fun hk hleads => (hK hk).1 hleads src (hK hk).2

omit [DecidableEq ι] [RaftCommand κ] in
theorem sendsOf_propose {command : κ} (hcommand : P command)
    (hK : K → n.NextKnown ∧ n.role = .leader) :
    SendsOf P K R n ((Prod.snd <$> propose command) n) := by
  by_cases hleads : n.role = .leader
  · have happends : Silent P n
        { n with outbox := [], log := n.log.appendNew ⟨n.currentTerm, command⟩ } := by
      refine (finishes_clear n).toSilent.trans ?_
      exact silent_appendNew (e := ⟨n.currentTerm, command⟩) hcommand
    rw [snd_propose hleads]
    refine SendsOf.prepend (happends.finish (finishes_persist _)) ?_
    refine (CallOf.sent (silentCall_broadcastAppend fun hk => ?_) fun y =>
      callOf_maybeAdvanceCommit).drain
    exact (hK hk).1 hleads
  · rw [snd_propose_not_leader hleads]
    exact ⟨.raises (fun hk => hleads (hK hk).2) (finishes_refl n).toSilent,
      fun _ out y hr => by cases hr⟩

end Calls

/-! ## How far a node has committed and applied -/

/-- From `n` to `y` nothing was uncommitted, and nothing was applied beyond what is
committed. -/
structure Advanced (n y : RaftNode ι κ σ) : Prop where
  commit : n.commitIndex ≤ y.commitIndex
  applied : y.lastApplied ≤ max n.lastApplied y.commitIndex

theorem Advanced.of_eq (hc : y.commitIndex = n.commitIndex) (ha : y.lastApplied = n.lastApplied) :
    Advanced n y :=
  ⟨hc.ge, by rw [ha]; exact le_max_left _ _⟩

/-- Between restarts `commit_index` never decreases, and `last_applied` never runs ahead of it
unless it already was, whether or not the call raises. -/
theorem CallOf.advanced [StateMachine σ κ] {α : Type} {K R : Prop}
    {r : EStateM.Result (RaftError ι) (RaftNode ι κ σ) α} (h : CallOf P K R n r) (hR : R) :
    Advanced n (resultState r) := by
  rcases h.split with hsilent | ⟨z, hcommits, hfinishes⟩
  · exact .of_eq hsilent.commitIndex hsilent.lastApplied
  -- applying goes from the old counter to the new commit index
  obtain ⟨hge, hle, -⟩ := applyLoop_bounds (z.commitIndex - z.lastApplied) z
  obtain ⟨last, calls, sm, hsame⟩ := sameButApplied_applyLoop (z.commitIndex - z.lastApplied) z
  have hcommit : (resultState r).commitIndex = z.commitIndex := by
    rw [hfinishes.commitIndex]
    show (resultState (applyLoop (z.commitIndex - z.lastApplied) z)).commitIndex = _
    rw [hsame]
  have hlast : (resultState r).lastApplied
      = (resultState (applyLoop (z.commitIndex - z.lastApplied) z)).lastApplied :=
    hfinishes.lastApplied
  have hahead := hcommits.ahead hR
  have hbefore := hcommits.lastApplied
  exact ⟨by omega, by omega⟩

end RaftNode
