/-
# A follower catches up (`_handle_append_entries`, `_handle_append_entries_reply`)

A leader and one follower in its term exchange append requests and replies.  The follower
rejects a request that starts behind its log or at an entry of another term, and the leader
then backs off: to the index before, and no further than the end of the follower's log.  The
request that starts at index 0 is never rejected, so that the exchange ends, with the leader's
log at the beginning of the follower's.

The `apply` callback of the follower may raise while it takes the entries over.  The leader
then gets no reply and sends the request again; each time the follower has gone further with
its entries, so that this ends, too.
-/
import ImmuStore.RaftSplice
import ImmuStore.RaftNodeSpec

open Function
open RaftNode (step)

/-! ## Logs that match -/

namespace RaftLog

variable {ι κ : Type} {L F : List (LogEntry κ)}

/-- Logs with the same term at the same index agree up to that index. -/
def LogMatching (L F : List (LogEntry κ)) : Prop :=
  ∀ k e e', L[k]? = some e → F[k]? = some e' → e.term = e'.term → L.take (k + 1) = F.take (k + 1)

theorem LogMatching.eq_entry (h : LogMatching L F) {k : ℕ} {e e' : LogEntry κ} (he : F[k]? = some e)
    (he' : L[k]? = some e') (hterm : e.term = e'.term) : e = e' := by
  have htake := congrArg (fun l : List (LogEntry κ) => l[k]?) (h k e' e he' he hterm.symm)
  simp only [List.getElem?_take_of_lt (Nat.lt_succ_self k), he, he', Option.some.injEq] at htake
  exact htake.symm

theorem termAt_of_lt {log : RaftLog ι κ} {k : ℕ} (h : k < log.entries.length) :
    log.termAt (k + 1) = log.entries[k].term := by
  simp [termAt, List.getElem?_eq_getElem h]

/-- The check of the entry before the new ones. -/
theorem LogMatching.take_eq {leads follows : RaftLog ι κ}
    (h : LogMatching leads.entries follows.entries) {prev : ℕ} (hL : prev ≤ leads.entries.length)
    (hF : prev ≤ follows.entries.length) (hterm : follows.termAt prev = leads.termAt prev) :
    follows.entries.take prev = leads.entries.take prev := by
  cases prev with
  | zero => simp
  | succ k =>
    rw [termAt_of_lt hL, termAt_of_lt hF, Int.natCast_inj] at hterm
    exact (h k _ _ (List.getElem?_eq_getElem hL) (List.getElem?_eq_getElem hF) hterm.symm).symm

/-- Splicing in the rest of the leader's log puts it at the beginning, and the logs match
as before. -/
theorem LogMatching.splice (h : LogMatching L F) {prev : ℕ} (hL : prev ≤ L.length)
    (hF : prev ≤ F.length) (htake : F.take prev = L.take prev) :
    L <+: spliceEntries F prev (L.drop prev) ∧
      LogMatching L (spliceEntries F prev (L.drop prev)) := by
  have hover := spliceEntries_eq_overlay le_rfl (L.length - prev) prev F (by omega) hF htake
    fun k e e' => h.eq_entry
  rw [List.take_length] at hover
  rw [hover, overlay]
  split_ifs with hpre
  · exact ⟨hpre, h⟩
  · refine ⟨List.prefix_rfl, ?_⟩
    intro k e e' _ _ _
    rfl

end RaftLog

/-! ## What the two handlers do -/

namespace RaftNode

variable {ι κ σ : Type} [StateMachine σ κ] {n y : RaftNode ι κ σ}

/-- A loop that raises has gone on by at least one entry. -/
theorem applyLoop_error {count : ℕ} {e : RaftError ι} (h : applyLoop count n = .error e y) :
    n.lastApplied < y.lastApplied ∧ y.lastApplied ≤ n.lastApplied + count := by
  have hbounds := (applyLoop_bounds count n).2.1
  rw [h, resultState_error] at hbounds
  refine ⟨?_, hbounds⟩
  cases count with
  | zero => cases h
  | succ count =>
    simp only [applyLoop, run_bind, run_modify, run_get] at h
    cases hget : n.log.get (n.lastApplied + 1) with
    | none =>
      simp only [hget, run_throw, EStateM.Result.error.injEq] at h
      rw [← h.2]
      exact Nat.lt_succ_self _
    | some entry =>
      simp only [hget, applyFn, run_bind, run_modify, run_get] at h
      cases hr : StateMachine.apply (n.lastApplied + 1) entry.command n.sm with
      | error e' sm =>
        simp only [hr, run_bind, run_modify, run_throw, EStateM.Result.error.injEq] at h
        rw [← h.2]
        exact Nat.lt_succ_self _
      | ok u sm =>
        simp only [hr, run_modify] at h
        -- the rest of the loop starts behind this entry
        have hrest := (applyLoop_bounds count { n with
          lastApplied := n.lastApplied + 1
          applied := n.applied ++ [(n.lastApplied + 1, entry.command)]
          sm := sm }).1
        rw [h, resultState_error] at hrest
        exact hrest

/-- The node has taken over the entries of a request. -/
structure Took (n : RaftNode ι κ σ) (ae : AppendEntries ι κ) (y : RaftNode ι κ σ) : Prop where
  nodeId : y.nodeId = n.nodeId
  term : y.currentTerm = n.currentTerm
  entries : y.log.entries = RaftLog.spliceEntries n.log.entries ae.prevLogIndex ae.entries

/-- Accepting entries ends with a reply, or raises further on in the committed entries. -/
theorem acceptEntries_cases (src : ι) (ae : AppendEntries ι κ) (n : RaftNode ι κ σ) :
    (∃ y, acceptEntries src ae n = .ok ⟨⟩ y ∧ n.Took ae y ∧
      y.outbox = n.outbox ++ [⟨n.nodeId, src, .appendEntriesReply
        ⟨n.currentTerm, true, ae.prevLogIndex + ae.entries.length⟩⟩]) ∨
    ∃ e y, acceptEntries src ae n = .error e y ∧ n.Took ae y ∧ n.lastApplied < y.lastApplied ∧
      y.lastApplied ≤ ae.prevLogIndex + ae.entries.length := by
  simp only [acceptEntries, run_bind, run_modify, run_get]
  split_ifs
  · simp only [run_bind, run_modify]
    generalize hz : ({ n with
      log := n.log.appendFrom ae.prevLogIndex ae.entries
      commitIndex := min ae.leaderCommit (ae.prevLogIndex + ae.entries.length) } :
        RaftNode ι κ σ) = z
    have hsame := sameButApplied_applyLoop (z.commitIndex - z.lastApplied) z
    have hrun : applyCommitted z = applyLoop (z.commitIndex - z.lastApplied) z := rfl
    rw [hrun]
    cases hr : applyLoop (z.commitIndex - z.lastApplied) z with
    | ok u y =>
      rw [hr] at hsame
      obtain ⟨last, calls, sm, rfl⟩ := hsame
      subst hz
      exact .inl ⟨_, rfl, ⟨rfl, rfl, rfl⟩, rfl⟩
    | error e y =>
      obtain ⟨hlt, hle⟩ := applyLoop_error hr
      rw [hr] at hsame
      obtain ⟨last, calls, sm, rfl⟩ := hsame
      subst hz
      refine .inr ⟨e, _, rfl, ⟨rfl, rfl, rfl⟩, hlt, ?_⟩
      -- the loop was to go up to the commit index, which lies within the new entries
      dsimp only [resultState] at hlt hle ⊢
      omega
  · exact .inl ⟨_, rfl, ⟨rfl, rfl, rfl⟩, rfl⟩

variable [DecidableEq ι] [RaftCommand κ]
variable {ae : AppendEntries ι κ}

/-- A request of the node's own term that is rejected. -/
theorem step_reject (src dst : ι) (hterm : ae.term = n.currentTerm)
    (hreject : n.log.lastIndex < ae.prevLogIndex ∨
      n.log.termAt ae.prevLogIndex ≠ ae.prevLogTerm) :
    ∃ y, step ⟨src, dst, .appendEntries ae⟩ n = .ok [⟨n.nodeId, src,
        .appendEntriesReply ⟨n.currentTerm, false, n.log.lastIndex⟩⟩] y ∧
      y.nodeId = n.nodeId ∧ y.currentTerm = n.currentTerm ∧ y.log = n.log := by
  have hold : ¬ ae.term < n.currentTerm := by omega
  have hsame : ¬ n.currentTerm < ae.term := by omega
  have hrun : step ⟨src, dst, .appendEntries ae⟩ n = .ok [⟨n.nodeId, src,
      .appendEntriesReply ⟨n.currentTerm, false, n.log.lastIndex⟩⟩]
      (resetElectionTimer { n with
        role := .follower, leaderId := some ae.leaderId, outbox := [] }) := by
    simp only [step, run_bind, run_modify, handleAppendEntries, run_get, if_neg hold, if_neg hsame]
    rw [if_pos (by exact hreject)]
    rfl
  exact ⟨_, hrun, rfl, rfl, rfl⟩

/-- A request of the node's own term that is not rejected. -/
theorem step_accept (src dst : ι) (hterm : ae.term = n.currentTerm)
    (hfits : ¬ (n.log.lastIndex < ae.prevLogIndex ∨
      n.log.termAt ae.prevLogIndex ≠ ae.prevLogTerm)) :
    (∃ y, step ⟨src, dst, .appendEntries ae⟩ n = .ok [⟨n.nodeId, src, .appendEntriesReply
        ⟨n.currentTerm, true, ae.prevLogIndex + ae.entries.length⟩⟩] y ∧ n.Took ae y) ∨
    ∃ e y, step ⟨src, dst, .appendEntries ae⟩ n = .error e y ∧ n.Took ae y ∧
      n.lastApplied < y.lastApplied ∧ y.lastApplied ≤ ae.prevLogIndex + ae.entries.length := by
  have hold : ¬ ae.term < n.currentTerm := by omega
  have hsame : ¬ n.currentTerm < ae.term := by omega
  have hrun : step ⟨src, dst, .appendEntries ae⟩ n = (acceptEntries src ae >>= fun _ => drain)
      (resetElectionTimer { n with
        role := .follower, leaderId := some ae.leaderId, outbox := [] }) := by
    simp only [step, run_bind, run_modify, handleAppendEntries, run_get, if_neg hold, if_neg hsame]
    rw [if_neg (by exact hfits)]
  rw [hrun, run_bind]
  rcases acceptEntries_cases src ae (resetElectionTimer { n with
    role := .follower, leaderId := some ae.leaderId, outbox := [] }) with
    ⟨y, hr, htook, hout⟩ | ⟨e, y, hr, htook, happlied⟩
  · rw [hr]
    refine .inl ⟨{ y with outbox := [] }, ?_, ⟨htook.nodeId, htook.term, htook.entries⟩⟩
    simp only [drain, run_bind, run_get, run_modify, run_pure, hout]
    rfl
  · rw [hr]
    exact .inr ⟨e, y, rfl, ⟨htook.nodeId, htook.term, htook.entries⟩, happlied⟩

/-- The next index after a rejection. -/
def backOff (next matchIndex : ℕ) : ℕ := max 1 (min (next - 1) (matchIndex + 1))

/-- A leader that is rejected backs off and sends the request from there. -/
theorem step_rejected {src : ι} (dst : ι) (reply : AppendEntriesReply) {next : ℕ}
    (hleads : n.role = .leader) (hterm : reply.term = n.currentTerm)
    (hfailed : reply.success = false) (hnext : n.nextIndex src = some next) :
    ∃ y, step ⟨src, dst, .appendEntriesReply reply⟩ n = .ok
        [⟨n.nodeId, src, .appendEntries (y.appendRequest (backOff next reply.matchIndex))⟩] y ∧
      y.nodeId = n.nodeId ∧ y.role = .leader ∧ y.currentTerm = n.currentTerm ∧ y.log = n.log ∧
      y.nextIndex src = some (backOff next reply.matchIndex) := by
  have hlater : ¬ n.currentTerm < reply.term := by omega
  have hgo : ¬ (n.role ≠ .leader ∨ reply.term < n.currentTerm) := by
    rintro (hrole | hlt)
    · exact hrole hleads
    · omega
  generalize hy : ({ n with
    outbox := []
    nextIndex := update n.nextIndex src (some (backOff next reply.matchIndex)) } :
      RaftNode ι κ σ) = y
  have hnext' : y.nextIndex src = some (backOff next reply.matchIndex) := by
    rw [← hy]
    exact update_self _ _ _
  have hrun : step ⟨src, dst, .appendEntriesReply reply⟩ n =
      (sendAppendTo src >>= fun _ => drain) y := by
    simp only [step, run_bind, run_modify, handleAppendEntriesReply, run_get, if_neg hlater,
      if_neg hgo, hfailed, Bool.false_eq_true, if_false, hnext]
    rw [← hy]
    rfl
  refine ⟨y, ?_, ?_⟩
  · rw [hrun, run_bind, sendAppendTo_eq hnext', ← hy]
    rfl
  · subst hy
    exact ⟨rfl, hleads, rfl, rfl, hnext'⟩

/-- A leader that is acknowledged has noted it, whatever its own `apply` callback does. -/
theorem step_acknowledged (src dst : ι) (reply : AppendEntriesReply)
    (hleads : n.role = .leader) (hterm : reply.term = n.currentTerm)
    (hsuccess : reply.success = true) :
    (resultState (step ⟨src, dst, .appendEntriesReply reply⟩ n)).log = n.log ∧
      (resultState (step ⟨src, dst, .appendEntriesReply reply⟩ n)).matchIndex src =
        some reply.matchIndex ∧
      (resultState (step ⟨src, dst, .appendEntriesReply reply⟩ n)).nextIndex src =
        some (reply.matchIndex + 1) := by
  have hlater : ¬ n.currentTerm < reply.term := by omega
  have hgo : ¬ (n.role ≠ .leader ∨ reply.term < n.currentTerm) := by
    rintro (hrole | hlt)
    · exact hrole hleads
    · omega
  generalize hy : ({ n with
    outbox := []
    matchIndex := update n.matchIndex src (some reply.matchIndex)
    nextIndex := update n.nextIndex src (some (reply.matchIndex + 1)) } :
      RaftNode ι κ σ) = y
  have hrun : step ⟨src, dst, .appendEntriesReply reply⟩ n =
      (maybeAdvanceCommit >>= fun _ => drain) y := by
    simp only [step, run_bind, run_modify, handleAppendEntriesReply, run_get, if_neg hlater,
      if_neg hgo, hsuccess, if_true]
    rw [← hy]
  have hnoted : ∀ z : RaftNode ι κ σ, z.log = y.log → z.matchIndex = y.matchIndex →
      z.nextIndex = y.nextIndex → z.log = n.log ∧ z.matchIndex src = some reply.matchIndex ∧
        z.nextIndex src = some (reply.matchIndex + 1) := by
    intro z hlog hmatch hnext
    rw [hlog, hmatch, hnext, ← hy]
    exact ⟨rfl, update_self _ _ _, update_self _ _ _⟩
  rw [hrun, run_bind]
  simp only [maybeAdvanceCommit, run_bind, run_get]
  cases y.commitCandidate with
  | none => exact hnoted _ rfl rfl rfl
  | some index =>
    have hsame := sameButApplied_applyLoop
      (index - y.lastApplied) { y with commitIndex := index }
    simp only [run_bind, run_modify, applyCommitted, run_get]
    cases hr : applyLoop (index - y.lastApplied) { y with commitIndex := index } with
    | ok u z =>
      rw [hr] at hsame
      obtain ⟨last, calls, sm, rfl⟩ := hsame
      exact hnoted _ rfl rfl rfl
    | error e z =>
      rw [hr] at hsame
      obtain ⟨last, calls, sm, rfl⟩ := hsame
      exact hnoted _ rfl rfl rfl

end RaftNode

/-! ## The exchange -/

/-- A leader, a follower, and the request on its way from the one to the other. -/
structure CatchUp (ι κ σ : Type) where
  leader : RaftNode ι κ σ
  follower : RaftNode ι κ σ
  request : Envelope ι κ

namespace CatchUp

variable {ι κ σ : Type} [DecidableEq ι] [StateMachine σ κ] [RaftCommand κ]

/-- What the follower answers; nothing, if its `apply` callback raises. -/
def reply (x : CatchUp ι κ σ) : Option (Envelope ι κ) :=
  match step x.request x.follower with
  | .ok out _ => out.head?
  | .error _ _ => none

/-- The `success` of the answer. -/
def success (x : CatchUp ι κ σ) : Option Bool :=
  match x.reply with
  | some ⟨_, _, .appendEntriesReply reply⟩ => some reply.success
  | _ => none

/-- The request is handled, and the reply to it.  Without a reply the request is sent again;
otherwise the next one is what the leader sends. -/
def turn (x : CatchUp ι κ σ) : CatchUp ι κ σ :=
  let follower := resultState (step x.request x.follower)
  match x.reply with
  | none => { x with follower := follower }
  | some reply =>
    match step reply x.leader with
    | .ok out leader => ⟨leader, follower, out.head?.getD x.request⟩
    | .error _ leader => ⟨leader, follower, x.request⟩

/-- The next index for the follower `p` is `next`, and the request starts there. -/
structure Ok (L : List (LogEntry κ)) (p : ι) (next : ℕ) (x : CatchUp ι κ σ) : Prop where
  nodeId : x.follower.nodeId = p
  leads : x.leader.role = .leader
  entries : x.leader.log.entries = L
  term : x.follower.currentTerm = x.leader.currentTerm
  nextIndex : x.leader.nextIndex p = some next
  one_le : 1 ≤ next
  le : next ≤ L.length + 1
  matching : RaftLog.LogMatching L x.follower.log.entries
  request : x.request = ⟨x.leader.nodeId, p, .appendEntries (x.leader.appendRequest next)⟩

/-- The follower has the leader's log, and the leader knows. -/
structure Done (L : List (LogEntry κ)) (p : ι) (x : CatchUp ι κ σ) : Prop where
  entries : x.leader.log.entries = L
  take_eq : x.follower.log.entries.take L.length = L
  matchIndex : x.leader.matchIndex p = some L.length
  nextIndex : x.leader.nextIndex p = some (L.length + 1)

variable {L : List (LogEntry κ)} {p : ι} {next : ℕ} {x : CatchUp ι κ σ}

omit [DecidableEq ι] [StateMachine σ κ] [RaftCommand κ] in
/-- The entries of the request end where the leader's log ends. -/
theorem Ok.request_length (h : x.Ok L p next) :
    (x.leader.appendRequest next).prevLogIndex + (x.leader.appendRequest next).entries.length =
      L.length := by
  show next - 1 + (x.leader.log.entries.drop (next - 1)).length = L.length
  have hle := h.le
  rw [h.entries, List.length_drop]
  omega

/-- The follower's log ends before the request, or has another term there. -/
def Rejects (next : ℕ) (x : CatchUp ι κ σ) : Prop :=
  x.follower.log.lastIndex < next - 1 ∨
    x.follower.log.termAt (next - 1) ≠ x.leader.log.termAt (next - 1)

/-- A rejected request makes the leader back off. -/
theorem Ok.turn_of_rejects (h : x.Ok L p next) (hreject : x.Rejects next) :
    x.success = some false ∧ ∃ next' < next, x.turn.Ok L p next' := by
  obtain rfl := h.nodeId
  have hterm : (x.leader.appendRequest next).term = x.follower.currentTerm := h.term.symm
  obtain ⟨f, hf, hid, hfterm, hflog⟩ :=
    RaftNode.step_reject x.leader.nodeId x.follower.nodeId hterm hreject
  obtain ⟨l, hl, hlid, hlrole, hlterm, hllog, hlnext⟩ :=
    RaftNode.step_rejected x.leader.nodeId
      ⟨x.follower.currentTerm, false, x.follower.log.lastIndex⟩ h.leads h.term rfl h.nextIndex
  rw [← h.request] at hf
  have hreply : x.reply = some ⟨x.follower.nodeId, x.leader.nodeId,
      .appendEntriesReply ⟨x.follower.currentTerm, false, x.follower.log.lastIndex⟩⟩ := by
    rw [reply, hf]
    rfl
  have hturn : x.turn = ⟨l, f, ⟨x.leader.nodeId, x.follower.nodeId, .appendEntries
      (l.appendRequest (RaftNode.backOff next x.follower.log.lastIndex))⟩⟩ := by
    simp only [CatchUp.turn, hreply, hl, hf, resultState_ok, List.head?_cons, Option.getD_some]
  -- index 0 is never rejected
  have htwo : 2 ≤ next := by
    have hone := h.one_le
    by_contra hlt
    obtain rfl : next = 1 := by omega
    rcases hreject with hshort | hother
    · exact absurd hshort (Nat.not_lt_zero _)
    · exact hother rfl
  have hle := h.le
  refine ⟨by rw [success, hreply], RaftNode.backOff next x.follower.log.lastIndex, ?_, ?_⟩
  · unfold RaftNode.backOff
    omega
  · rw [hturn]
    exact {
      nodeId := hid
      leads := hlrole
      entries := by rw [hllog, h.entries]
      term := by rw [hfterm, hlterm, h.term]
      nextIndex := hlnext
      one_le := Nat.le_max_left _ _
      le := by unfold RaftNode.backOff; omega
      matching := by rw [hflog]; exact h.matching
      request := by rw [hlid] }

omit [DecidableEq ι] [StateMachine σ κ] [RaftCommand κ] in
/-- A follower that takes the request over has the leader's log at the beginning. -/
theorem Ok.took (h : x.Ok L p next) (hfits : ¬ x.Rejects next) {f : RaftNode ι κ σ}
    (htook : x.follower.Took (x.leader.appendRequest next) f) :
    L <+: f.log.entries ∧ RaftLog.LogMatching L f.log.entries := by
  obtain ⟨hlong, hsame⟩ := not_or.mp hfits
  have hle := h.le
  have hF : next - 1 ≤ x.follower.log.entries.length := Nat.le_of_not_lt hlong
  have hL : next - 1 ≤ x.leader.log.entries.length := by
    rw [h.entries]
    omega
  have hmatch := h.matching
  rw [← h.entries] at hmatch ⊢
  rw [htook.entries]
  exact hmatch.splice hL hF (hmatch.take_eq hL hF (not_not.mp hsame))

/-- A request that is not rejected is accepted, unless the follower raises on the way. -/
theorem Ok.turn_of_fits (h : x.Ok L p next) (hfits : ¬ x.Rejects next) :
    (x.success = none ∧ x.turn.Ok L p next ∧
      x.follower.lastApplied < x.turn.follower.lastApplied ∧
      x.turn.follower.lastApplied ≤ L.length) ∨
    (x.success = some true ∧ x.turn.Done L p) := by
  obtain rfl := h.nodeId
  have hterm : (x.leader.appendRequest next).term = x.follower.currentTerm := h.term.symm
  rcases RaftNode.step_accept x.leader.nodeId x.follower.nodeId hterm hfits
    with ⟨f, hf, htook⟩ | ⟨e, f, hf, htook, hlt, happlied⟩
  · right
    rw [← h.request, h.request_length] at hf
    obtain ⟨hpre, -⟩ := h.took hfits htook
    generalize hmsg : (⟨x.follower.nodeId, x.leader.nodeId,
      .appendEntriesReply ⟨x.follower.currentTerm, true, L.length⟩⟩ : Envelope ι κ) = msg at hf
    have hreply : x.reply = some msg := by
      rw [reply, hf]
      rfl
    obtain ⟨hlog, hmatchIndex, hnextIndex⟩ := RaftNode.step_acknowledged
      x.follower.nodeId x.leader.nodeId ⟨x.follower.currentTerm, true, L.length⟩ h.leads h.term rfl
    rw [hmsg] at hlog hmatchIndex hnextIndex
    have hleader : x.turn.leader = resultState (step msg x.leader) := by
      simp only [CatchUp.turn, hreply]
      cases step msg x.leader <;> rfl
    have hfollower : x.turn.follower = f := by
      simp only [CatchUp.turn, hreply, hf, resultState_ok]
      cases step msg x.leader <;> rfl
    refine ⟨by rw [success, hreply, ← hmsg], ?_⟩
    exact {
      entries := by rw [hleader, hlog, h.entries]
      take_eq := by rw [hfollower]; exact (List.prefix_iff_eq_take.mp hpre).symm
      matchIndex := by rw [hleader]; exact hmatchIndex
      nextIndex := by rw [hleader]; exact hnextIndex }
  · left
    rw [← h.request] at hf
    rw [h.request_length] at happlied
    have hreply : x.reply = none := by rw [reply, hf]
    have hturn : x.turn = { x with follower := f } := by
      simp only [CatchUp.turn, hreply, hf, resultState_error]
    rw [hturn]
    refine ⟨by rw [success, hreply], ?_, hlt, happlied⟩
    exact { h with
      nodeId := htook.nodeId
      term := by rw [htook.term, h.term]
      matching := (h.took hfits htook).2 }

/-- **One turn.**  The request is rejected and the next index decreases; or it is not
answered and the follower has applied more entries; or it is accepted and the follower has
caught up. -/
theorem Ok.turn (h : x.Ok L p next) :
    (x.success = some false ∧ ∃ next' < next, x.turn.Ok L p next') ∨
    (x.success = none ∧ x.turn.Ok L p next ∧
      x.follower.lastApplied < x.turn.follower.lastApplied ∧
      x.turn.follower.lastApplied ≤ L.length) ∨
    (x.success = some true ∧ x.turn.Done L p) := by
  by_cases hreject : x.Rejects next
  · exact .inl (h.turn_of_rejects hreject)
  · exact .inr (h.turn_of_fits hreject)

/-! ## The exchange ends -/

/-- In the first `k` turns nothing is accepted, and fewer than `next` requests are rejected. -/
structure BacksOff (L : List (LogEntry κ)) (p : ι) (next k : ℕ) (x : CatchUp ι κ σ) : Prop where
  ok : ∀ j ≤ k, ∃ n, (CatchUp.turn^[j] x).Ok L p n
  unsuccessful : ∀ j < k, (CatchUp.turn^[j] x).success ≠ some true
  rejections : (List.range k).countP (fun j => (CatchUp.turn^[j] x).success == some false) < next

theorem Ok.backsOff_zero (h : x.Ok L p next) : x.BacksOff L p next 0 where
  ok := fun j hj => ⟨next, by rwa [Nat.le_zero.mp hj]⟩
  unsuccessful := fun j hj => absurd hj (Nat.not_lt_zero j)
  rejections := h.one_le

/-- One more turn in front. -/
theorem BacksOff.cons {next' k : ℕ} (h : x.turn.BacksOff L p next' k) (hx : x.Ok L p next)
    (hfirst : x.success = some false ∧ next' < next ∨ x.success = none ∧ next' = next) :
    x.BacksOff L p next (k + 1) where
  ok := by
    intro j hj
    cases j with
    | zero => exact ⟨next, hx⟩
    | succ j => exact h.ok j (Nat.le_of_succ_le_succ hj)
  unsuccessful := by
    intro j hj
    cases j with
    | zero => rcases hfirst with ⟨hfirst, -⟩ | ⟨hfirst, -⟩ <;> simp [hfirst]
    | succ j => exact h.unsuccessful j (Nat.lt_of_succ_lt_succ hj)
  rejections := by
    have hrest := h.rejections
    have hcount : (List.range (k + 1)).countP (fun j => (CatchUp.turn^[j] x).success == some false) =
        (List.range k).countP (fun j => (CatchUp.turn^[j] x.turn).success == some false) +
          if x.success == some false then 1 else 0 := by
      rw [List.range_succ_eq_map, List.countP_cons, List.countP_map]
      rfl
    rw [hcount]
    rcases hfirst with ⟨hfirst, hlt⟩ | ⟨hfirst, rfl⟩
    · rw [hfirst, if_pos (by decide)]
      omega
    · rw [hfirst, if_neg (by decide)]
      exact hrest

/-- The exchange ends with a success: the next index decreases with every rejection, and
between two replies the follower gets on with its entries. -/
theorem Ok.catchesUp (h : x.Ok L p next) :
    ∃ k, x.BacksOff L p next k ∧ (CatchUp.turn^[k] x).success = some true ∧
      (CatchUp.turn^[k + 1] x).Done L p := by
  induction next using Nat.strong_induction_on generalizing x with
  | _ next ihnext =>
    -- for one next index: by the entries that the follower has not applied yet
    induction hm : L.length - x.follower.lastApplied using Nat.strong_induction_on
      generalizing x with
    | _ m ihm =>
      rcases h.turn with ⟨hrejected, next', hlt, hok⟩ | ⟨hsilent, hok, hmore, hle⟩ | ⟨hdone, hend⟩
      · obtain ⟨k, hbacks, hsuccess, hend⟩ := ihnext next' hlt hok
        exact ⟨k + 1, hbacks.cons h (.inl ⟨hrejected, hlt⟩), hsuccess, hend⟩
      · obtain ⟨k, hbacks, hsuccess, hend⟩ := ihm _ (by omega) hok rfl
        exact ⟨k + 1, hbacks.cons h (.inr ⟨hsilent, rfl⟩), hsuccess, hend⟩
      · exact ⟨0, h.backsOff_zero, hdone, hend⟩

end CatchUp

/-- A node of a cluster of two, in term 2, with a log of entries of the given terms. -/
def sampleMember (id : ℕ) (role : Role) (terms : List ℕ) :
    RaftNode ℕ (KVCommand ℕ) (Recorder (KVCommand ℕ)) :=
  { RaftNode.new id [1 - id] {} [] (RaftLog.new false none) (fun _ => 0) {} 0 with
    role := role
    currentTerm := 2
    log := { RaftLog.new false none with entries := terms.map fun term => ⟨term, .noop⟩ }
    nextIndex := fun _ => some 3 }

theorem sampleMember_matching :
    RaftLog.LogMatching (sampleMember 0 .leader [1, 2, 2]).log.entries
      (sampleMember 1 .follower [1, 1]).log.entries := by
  intro k e e' he he' hterm
  match k with
  | 0 => rfl
  | 1 =>
    obtain rfl : (⟨2, .noop⟩ : LogEntry (KVCommand ℕ)) = e := Option.some.inj he
    obtain rfl : (⟨1, .noop⟩ : LogEntry (KVCommand ℕ)) = e' := Option.some.inj he'
    exact absurd hterm (by decide)
  | k + 2 => cases he'

open CatchUp in
/-- **A follower catches up.**  Let a leader and a follower in its term have logs that match,
and let the leader send its request from any next index within its log.  After fewer
rejections than that index the follower accepts a request; every rejection decreases the next
index, which stays positive; and then the follower's log begins with the leader's, and the
leader's match index and next index for it are those of the end of its log. -/
theorem follower_catches_up {ι κ σ : Type} [DecidableEq ι] [StateMachine σ κ] [RaftCommand κ]
    (leader follower : RaftNode ι κ σ) (hleads : leader.role = .leader)
    (hterm : follower.currentTerm = leader.currentTerm)
    (hmatch : RaftLog.LogMatching leader.log.entries follower.log.entries) (next : ℕ)
    (hnext : leader.nextIndex follower.nodeId = some next) (hone : 1 ≤ next)
    (hle : next ≤ leader.log.lastIndex + 1) :
    ∃ x : CatchUp ι κ σ, x.follower = follower ∧
      RaftNode.sendAppendTo follower.nodeId { leader with outbox := [] } = .ok ⟨⟩ x.leader ∧
      x.leader.outbox = [x.request] ∧
      ∃ k, (∀ j < k, (turn^[j] x).success ≠ some true) ∧ (turn^[k] x).success = some true ∧
        (List.range k).countP (fun j => (turn^[j] x).success == some false) < next ∧
        (∀ j ≤ k, ∃ n, (turn^[j] x).leader.nextIndex follower.nodeId = some n ∧ 1 ≤ n ∧
          ((turn^[j] x).success = some false →
            ∃ n' < n, (turn^[j + 1] x).leader.nextIndex follower.nodeId = some n')) ∧
        (turn^[k + 1] x).leader.log.entries = leader.log.entries ∧
        (turn^[k + 1] x).follower.log.entries.take leader.log.lastIndex = leader.log.entries ∧
        (turn^[k + 1] x).leader.matchIndex follower.nodeId = some leader.log.lastIndex ∧
        (turn^[k + 1] x).leader.nextIndex follower.nodeId = some (leader.log.lastIndex + 1) := by
  let x : CatchUp ι κ σ :=
    ⟨RaftNode.send { leader with outbox := [] } follower.nodeId
        (.appendEntries (leader.appendRequest next)), follower,
      ⟨leader.nodeId, follower.nodeId, .appendEntries (leader.appendRequest next)⟩⟩
  have hx : x.Ok leader.log.entries follower.nodeId next := {
    nodeId := rfl
    leads := hleads
    entries := rfl
    term := hterm
    nextIndex := hnext
    one_le := hone
    le := hle
    matching := hmatch
    request := rfl }
  obtain ⟨k, hbacks, hsuccess, hdone⟩ := hx.catchesUp
  refine ⟨x, rfl, RaftNode.sendAppendTo_eq hnext, rfl, k, hbacks.unsuccessful, hsuccess,
    hbacks.rejections, fun j hj => ?_, hdone.entries, hdone.take_eq, hdone.matchIndex,
    hdone.nextIndex⟩
  obtain ⟨n, hn⟩ := hbacks.ok j hj
  refine ⟨n, hn.nextIndex, hn.one_le, fun hrejected => ?_⟩
  rw [iterate_succ_apply']
  rcases hn.turn with ⟨-, n', hlt, hok⟩ | ⟨hsilent, -⟩ | ⟨haccepted, -⟩
  · exact ⟨n', hlt, hok.nextIndex⟩
  · rw [hsilent] at hrejected
    cases hrejected
  · rw [haccepted] at hrejected
    cases hrejected

open CatchUp in
/-- The follower has an entry of an older term where the leader has its second one. -/
theorem follower_catches_up_sample :
    ∃ (x : CatchUp ℕ (KVCommand ℕ) (Recorder (KVCommand ℕ))) (k : ℕ),
      x.follower = sampleMember 1 .follower [1, 1] ∧
      (turn^[k + 1] x).follower.log.entries.take 3 = [⟨1, .noop⟩, ⟨2, .noop⟩, ⟨2, .noop⟩] := by
  obtain ⟨x, hx, -, -, k, -, -, -, -, -, htake, -⟩ := follower_catches_up
    (sampleMember 0 .leader [1, 2, 2]) (sampleMember 1 .follower [1, 1]) rfl rfl
    sampleMember_matching 3 rfl (by decide) (by decide)
  exact ⟨x, k, hx, htake⟩
