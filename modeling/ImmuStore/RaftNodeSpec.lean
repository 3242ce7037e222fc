/-
# What the loops of the node compute

Closed forms of the node's loops on nodes where they do not raise: applying
committed entries to a state machine that accepts every command
(`StateMachine.Total`), and sending append requests to peers with a known
`next_index`.  A callback that raises stops the apply loop, which has then still
touched nothing but what it applies (`sameButApplied_applyLoop`).
-/
import ImmuStore.RaftNode

open StateMachine (appliedIndex apply)

/-! ## The calls a log gives rise to -/

section Calls

variable {κ : Type}

/-- The `(index, command)` pairs of the entries of a log, from index 1. -/
def callsOf (L : List (LogEntry κ)) : List (ℕ × κ) := (L.zipIdx 1).map fun p => (p.2, p.1.command)

@[simp] theorem callsOf_nil : callsOf ([] : List (LogEntry κ)) = [] := rfl

theorem callsOf_concat (L : List (LogEntry κ)) (e : LogEntry κ) :
    callsOf (L ++ [e]) = callsOf L ++ [(L.length + 1, e.command)] := by
  simp [callsOf, List.zipIdx_append, Nat.add_comm]

theorem callsOf_mono {L L' : List (LogEntry κ)} (h : L <+: L') : callsOf L <+: callsOf L' := by
  obtain ⟨t, rfl⟩ := h
  simp only [callsOf, List.zipIdx_append, List.map_append]
  exact List.prefix_append _ _

theorem length_callsOf (L : List (LogEntry κ)) : (callsOf L).length = L.length := by simp [callsOf]

theorem callsOf_map_fst (L : List (LogEntry κ)) : (callsOf L).map Prod.fst = List.range' 1 L.length := by
  simp [callsOf, Function.comp_def, List.zipIdx_map_snd]

end Calls

/-- The state machine accepts every command and records the index it was given. -/
structure StateMachine.Total (σ : Type) {κ : Type} [StateMachine σ κ] : Prop where
  apply_ok : ∀ (index : ℕ) (command : κ) (s : σ),
    ∃ s', apply index command s = .ok ⟨⟩ s' ∧ appliedIndex s' = index

/-- A call leaves the recorded index alone or sets it to the index of the call,
also when it raises. -/
def StateMachine.Tracks (σ : Type) {κ : Type} [StateMachine σ κ] : Prop :=
  ∀ (index : ℕ) (command : κ) (s : σ),
    appliedIndex (resultState (apply index command s))
        = appliedIndex s ∨
      appliedIndex (resultState (apply index command s)) = index

theorem recorder_tracks (κ : Type) : StateMachine.Tracks (Recorder κ) :=
  fun _ _ _ => Or.inr rfl

theorem recorder_total (κ : Type) : StateMachine.Total (Recorder κ) where
  apply_ok := fun _ _ _ => ⟨_, rfl, rfl⟩

namespace RaftNode

variable {ι κ σ : Type}
variable {n : RaftNode ι κ σ}

/-! ## Applying -/

section Apply

variable [StateMachine σ κ]
variable {n : RaftNode ι κ σ}

/-- The node's applied calls are those of its log up to `last_applied`, and the
state machine knows how far it got. -/
structure AppliedUpTo (n : RaftNode ι κ σ) : Prop where
  le : n.lastApplied ≤ n.log.entries.length
  calls : n.applied = callsOf (n.log.entries.take n.lastApplied)
  index : appliedIndex n.sm = n.lastApplied

/-- The node after `count` further entries have been applied. -/
def afterApply (n : RaftNode ι κ σ) (count : ℕ) (sm : σ) : RaftNode ι κ σ :=
  { n with
    lastApplied := n.lastApplied + count
    applied := callsOf (n.log.entries.take (n.lastApplied + count))
    sm := sm }

/-- One round of the loop: the next entry is handed to the state machine. -/
theorem applyLoop_succ (hsm : StateMachine.Total σ) (h : n.AppliedUpTo)
    (hlt : n.lastApplied < n.log.entries.length) (count : ℕ) :
    ∃ sm, applyLoop (count + 1) n = applyLoop count (n.afterApply 1 sm) ∧
      (n.afterApply 1 sm).AppliedUpTo := by
  obtain ⟨sm, hok, hidx⟩ :=
    hsm.apply_ok (n.lastApplied + 1) (n.log.entries[n.lastApplied]).command n.sm
  have hget : n.log.get (n.lastApplied + 1) = some n.log.entries[n.lastApplied] := by
    simp [RaftLog.get, List.getElem?_eq_getElem hlt]
  have hcalls : n.applied ++ [(n.lastApplied + 1, (n.log.entries[n.lastApplied]).command)]
      = callsOf (n.log.entries.take (n.lastApplied + 1)) := by
    rw [← List.take_concat_get' n.log.entries n.lastApplied hlt, callsOf_concat, h.calls,
      List.length_take_of_le hlt.le]
  refine ⟨sm, ?_, ?_, rfl, hidx⟩
  · simp only [applyLoop, applyFn, run_bind, run_modify, run_get, hget, hok, hcalls]
    rfl
  · exact hlt

/-- **The apply loop** hands over the next entries one by one, in order. -/
theorem applyLoop_eq (hsm : StateMachine.Total σ) :
    ∀ (count : ℕ) (n : RaftNode ι κ σ), n.AppliedUpTo →
      n.lastApplied + count ≤ n.log.entries.length →
      ∃ sm, applyLoop count n = .ok ⟨⟩ (n.afterApply count sm) ∧
        (n.afterApply count sm).AppliedUpTo := by
  intro count
  induction count with
  | zero =>
    intro n h _
    have hn : n.afterApply 0 n.sm = n := by
      unfold afterApply
      rw [Nat.add_zero, ← h.calls]
    exact ⟨n.sm, by rw [hn]; rfl, by rw [hn]; exact h⟩
  | succ count ih =>
    intro n h hle
    obtain ⟨sm1, heq1, h1⟩ := applyLoop_succ hsm h (by omega) count
    have hle1 : (n.afterApply 1 sm1).lastApplied + count ≤
        (n.afterApply 1 sm1).log.entries.length := by
      simp only [afterApply]
      omega
    obtain ⟨sm2, heq2, h2⟩ := ih (n.afterApply 1 sm1) h1 hle1
    have hcomp : (n.afterApply 1 sm1).afterApply count sm2 = n.afterApply (count + 1) sm2 := by
      simp only [afterApply, Nat.add_assoc, Nat.add_comm 1 count]
    rw [hcomp] at heq2 h2
    exact ⟨sm2, by rw [heq1, heq2], h2⟩

/-- `_apply` brings `last_applied` up to `commit_index`, if it was behind. -/
theorem applyCommitted_eq (hsm : StateMachine.Total σ) (h : n.AppliedUpTo)
    (hle : n.commitIndex ≤ n.log.entries.length) :
    ∃ sm, applyCommitted n = .ok ⟨⟩ (n.afterApply (n.commitIndex - n.lastApplied) sm) ∧
      (n.afterApply (n.commitIndex - n.lastApplied) sm).AppliedUpTo := by
  have hle' : n.lastApplied + (n.commitIndex - n.lastApplied) ≤ n.log.entries.length := by
    have := h.le
    omega
  exact applyLoop_eq hsm _ n h hle'

/-- The nodes differ at most in what they have applied. -/
def SameButApplied (n n' : RaftNode ι κ σ) : Prop :=
  ∃ last calls sm, n' = { n with lastApplied := last, applied := calls, sm := sm }

omit [StateMachine σ κ] in
theorem SameButApplied.trans {n1 n2 n3 : RaftNode ι κ σ} (h : SameButApplied n1 n2)
    (h' : SameButApplied n2 n3) : SameButApplied n1 n3 := by
  obtain ⟨last, calls, sm, rfl⟩ := h
  obtain ⟨last', calls', sm', rfl⟩ := h'
  exact ⟨last', calls', sm', rfl⟩

theorem sameButApplied_applyFn (index : ℕ) (command : κ) (n : RaftNode ι κ σ) :
    SameButApplied n (resultState (applyFn index command n)) := by
  simp only [applyFn, run_bind, run_modify, run_get]
  cases apply index command n.sm with
  | ok _ sm => exact ⟨_, _, _, rfl⟩
  | error e sm => exact ⟨_, _, _, rfl⟩

/-- Whether or not the callback raises, the loop touches nothing else. -/
theorem sameButApplied_applyLoop : ∀ (count : ℕ) (n : RaftNode ι κ σ),
    SameButApplied n (resultState (applyLoop count n)) := by
  intro count
  induction count with
  | zero => exact fun n => ⟨_, _, _, rfl⟩
  | succ count ih =>
    intro n
    have hbump : SameButApplied n { n with lastApplied := n.lastApplied + 1 } := ⟨_, _, _, rfl⟩
    simp only [applyLoop, run_bind, run_modify, run_get]
    cases n.log.get (n.lastApplied + 1) with
    | none => exact hbump
    | some entry =>
      have hfn := sameButApplied_applyFn (n.lastApplied + 1) entry.command
        { n with lastApplied := n.lastApplied + 1 }
      simp only [run_bind]
      cases hr : applyFn (n.lastApplied + 1) entry.command
        { n with lastApplied := n.lastApplied + 1 } with
      | ok a n' =>
        rw [hr] at hfn
        exact (hbump.trans hfn).trans (ih n')
      | error e n' =>
        rw [hr] at hfn
        exact hbump.trans hfn

/-- The loop applies at most `count` entries, and the recorded index stays behind
`last_applied`. -/
theorem applyLoop_bounds : ∀ (count : ℕ) (n : RaftNode ι κ σ),
    n.lastApplied ≤ (resultState (applyLoop count n)).lastApplied ∧
    (resultState (applyLoop count n)).lastApplied ≤ n.lastApplied + count ∧
    (StateMachine.Tracks σ → appliedIndex n.sm ≤ n.lastApplied →
      appliedIndex (resultState (applyLoop count n)).sm
        ≤ (resultState (applyLoop count n)).lastApplied) := by
  intro count
  induction count with
  | zero => exact fun n => ⟨le_rfl, le_rfl, fun _ h => h⟩
  | succ count ih =>
    intro n
    simp only [applyLoop, run_bind, run_modify, run_get]
    cases n.log.get (n.lastApplied + 1) with
    | none => exact ⟨Nat.le_succ _, by simp, fun _ h => h.trans (Nat.le_succ _)⟩
    | some entry =>
      have htracks : StateMachine.Tracks σ → appliedIndex n.sm ≤ n.lastApplied →
          appliedIndex (resultState (apply (n.lastApplied + 1)
            entry.command n.sm)) ≤ n.lastApplied + 1 := by
        intro htr hle
        rcases htr (n.lastApplied + 1) entry.command n.sm with h | h
        · rw [h]
          exact hle.trans (Nat.le_succ _)
        · exact h.le
      simp only [applyFn, run_bind, run_modify, run_get]
      cases hr : apply (n.lastApplied + 1) entry.command n.sm with
      | ok a sm =>
        rw [hr] at htracks
        obtain ⟨h1, h2, h3⟩ := ih { n with
          lastApplied := n.lastApplied + 1
          applied := n.applied ++ [(n.lastApplied + 1, entry.command)]
          sm := sm }
        simp only [run_modify] at h1 h2 h3 ⊢
        exact ⟨by omega, by omega, fun htr hle => h3 htr (htracks htr hle)⟩
      | error e sm =>
        rw [hr] at htracks
        exact ⟨Nat.le_succ _, by simp, htracks⟩

end Apply

/-! ## Commit candidates and broadcasting -/

/-- A commit candidate is a new index of the current term with a majority behind it. -/
theorem commitCandidate_spec {index : ℕ} (h : n.commitCandidate = some index) :
    n.commitIndex < index ∧ index ≤ n.log.entries.length ∧
      n.log.termAt index = n.currentTerm ∧ n.hasMajority (n.replicas index) := by
  have hmem := List.mem_of_find?_eq_some h
  have hprop := List.find?_some h
  simp only [List.mem_reverse, List.mem_range'_1, RaftLog.lastIndex] at hmem
  simp only [decide_eq_true_eq] at hprop
  exact ⟨by omega, by omega, hprop.1, hprop.2⟩

/-- The append request for a peer whose next index is `next`. -/
def appendRequest (n : RaftNode ι κ σ) (next : ℕ) : AppendEntries ι κ where
  term := n.currentTerm
  leaderId := n.nodeId
  prevLogIndex := next - 1
  prevLogTerm := n.log.termAt (next - 1)
  entries := n.log.entries.drop (next - 1)
  leaderCommit := n.commitIndex

theorem sendAppendTo_eq {peer : ι} {next : ℕ} (h : n.nextIndex peer = some next) :
    sendAppendTo peer n = .ok ⟨⟩ (n.send peer (.appendEntries (n.appendRequest next))) := by
  simp only [sendAppendTo, run_bind, run_get, h, run_modify]
  rfl

/-- Broadcasting to peers with a known next index sends each of them its request. -/
theorem broadcastTo_eq : ∀ (ps : List ι) (n : RaftNode ι κ σ),
    (∀ p ∈ ps, ∃ next, n.nextIndex p = some next) →
    broadcastTo ps n = .ok ⟨⟩ { n with outbox := n.outbox ++ ps.map fun p =>
      ⟨n.nodeId, p, .appendEntries (n.appendRequest ((n.nextIndex p).getD 0))⟩ } := by
  intro ps
  induction ps with
  | nil =>
    intro n _
    simp [broadcastTo]
  | cons p ps ih =>
    intro n hall
    obtain ⟨next, hnext⟩ := hall p (.head _)
    have hrest := ih (n.send p (.appendEntries (n.appendRequest next)))
      (fun q hq => hall q (.tail _ hq))
    simp only [broadcastTo, run_bind, sendAppendTo_eq hnext, hrest]
    simp [send, appendRequest, hnext]

/-! ## Proposing -/

section Propose

variable [StateMachine σ κ] {n : RaftNode ι κ σ}

/-- A leader that is given a command appends it, saves, broadcasts, and tries to commit. -/
theorem snd_propose (hleads : n.role = .leader) (command : κ) :
    (Prod.snd <$> propose command) n =
      ((broadcastAppend >>= fun _ => maybeAdvanceCommit) >>= fun _ => drain)
        (persist { n with outbox := [], log := n.log.appendNew ⟨n.currentTerm, command⟩ }) := by
  simp only [propose, run_map, run_bind, run_get, run_modify, if_neg (not_not.mpr hleads)]
  cases broadcastAppend
    (persist { n with outbox := [], log := n.log.appendNew ⟨n.currentTerm, command⟩ }) with
  | error e z => rfl
  | ok u z =>
    dsimp only
    cases maybeAdvanceCommit z with
    | error e z' => rfl
    | ok u z' => rfl

/-- Any other node refuses. -/
theorem snd_propose_not_leader (hleads : n.role ≠ .leader) (command : κ) :
    (Prod.snd <$> propose command) n = .error (.notLeader n.leaderId) n := by
  simp [propose, hleads]

end Propose

end RaftNode
