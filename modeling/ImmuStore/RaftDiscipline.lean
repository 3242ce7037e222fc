/-
# Indices in range

A node looks into its log and its tables by index: what it applies, what it sends to a peer,
what it compares a request with.  In a cluster these lookups all succeed, so that a call can
only raise what the `apply` callback has raised in it (`OnlyApplyRaises`); commit indices and
next indices stay within the log, requests announce no more than they reach, and the match
indices of a leader are true of its peers.
-/
import ImmuStore.RaftSafety
import ImmuStore.RaftServer

/-! ## Calls that raise -/

namespace RaftNode

variable {ι κ σ : Type} [StateMachine σ κ]

/-- In the call that took `n` to `y` the state machine was called, and the last of its calls
raised `e`. -/
def ApplyRaised (n : RaftNode ι κ σ) (e : RaftError ι) (y : RaftNode ι κ σ) : Prop :=
  ∃ calls index command sm e', y.applied = n.applied ++ calls ++ [(index, command)] ∧
    StateMachine.apply index command sm = .error e' y.sm ∧ e = .raised e'

/-- A computation from `n` returns, or raises what the state machine has raised in it. -/
def OnlyApplyRaises {α : Type} (n : RaftNode ι κ σ)
    (r : EStateM.Result (RaftError ι) (RaftNode ι κ σ) α) : Prop :=
  match r with
  | .ok _ y => n.applied <+: y.applied
  | .error e y => n.ApplyRaised e y

variable {n y : RaftNode ι κ σ}

theorem OnlyApplyRaises.of_applied_eq {α : Type} (a : α) (h : y.applied = n.applied) :
    OnlyApplyRaises n (.ok a y : EStateM.Result (RaftError ι) _ α) := by
  show n.applied <+: y.applied
  rw [h]

theorem OnlyApplyRaises.of_later {α : Type} {r : EStateM.Result (RaftError ι) (RaftNode ι κ σ) α}
    (hny : n.applied <+: y.applied) (h : OnlyApplyRaises y r) : OnlyApplyRaises n r := by
  cases r with
  | ok a z => exact hny.trans h
  | error e z =>
    obtain ⟨before, hbefore⟩ := hny
    obtain ⟨calls, index, command, sm, e', hcalls, happly, he⟩ := h
    refine ⟨before ++ calls, index, command, sm, e', ?_, happly, he⟩
    rw [hcalls, ← hbefore]
    simp only [List.append_assoc]

/-- Sequencing: what follows runs only if the first part returned. -/
theorem OnlyApplyRaises.bind {α β : Type} {m : NodeM ι κ σ α} {f : α → NodeM ι κ σ β}
    (hm : OnlyApplyRaises n (m n)) (hf : ∀ a y, m n = .ok a y → OnlyApplyRaises y (f a y)) :
    OnlyApplyRaises n ((m >>= f) n) := by
  rw [run_bind]
  cases hr : m n with
  | ok a y =>
    rw [hr] at hm
    exact (hf a y hr).of_later hm
  | error e y =>
    rw [hr] at hm
    exact hm

/-- A step that leaves the applied calls alone may be skipped. -/
theorem OnlyApplyRaises.after {α β : Type} {m : NodeM ι κ σ α} {f : α → NodeM ι κ σ β} {a : α}
    (hm : m n = .ok a y) (hy : y.applied = n.applied) (hf : OnlyApplyRaises y (f a y)) :
    OnlyApplyRaises n ((m >>= f) n) := by
  rw [run_bind, hm]
  exact hf.of_later (by rw [hy])

/-! ## Applying -/

theorem onlyApplyRaises_applyFn (index : ℕ) (command : κ) :
    OnlyApplyRaises n (applyFn index command n) := by
  simp only [applyFn, run_bind, run_modify, run_get]
  cases hr : StateMachine.apply index command n.sm with
  | ok u sm => exact List.prefix_append _ _
  | error e sm => exact ⟨[], index, command, n.sm, e, by simp, hr, rfl⟩

/-- The loop stays within the log. -/
theorem onlyApplyRaises_applyLoop (count : ℕ) (n : RaftNode ι κ σ)
    (hle : n.lastApplied + count ≤ n.log.entries.length) :
    OnlyApplyRaises n (applyLoop count n) := by
  induction count generalizing n with
  | zero => exact .of_applied_eq _ rfl
  | succ count ih =>
    have hlt : n.lastApplied < n.log.entries.length := by omega
    have hget : n.log.get (n.lastApplied + 1) = some n.log.entries[n.lastApplied] := by
      simp [RaftLog.get, List.getElem?_eq_getElem hlt]
    refine .after (y := { n with lastApplied := n.lastApplied + 1 }) rfl rfl ?_
    simp only [run_bind, run_get, hget]
    refine .bind (onlyApplyRaises_applyFn _ _) fun _ y hy => ih y ?_
    -- applying changes neither the log nor the counter
    obtain ⟨last, calls, sm, rfl⟩ : SameButApplied { n with lastApplied := n.lastApplied + 1 } y := by
      have hsame := sameButApplied_applyFn (n.lastApplied + 1) n.log.entries[n.lastApplied].command
        { n with lastApplied := n.lastApplied + 1 }
      rwa [hy] at hsame
    have hlast : last = n.lastApplied + 1 := by
      simp only [applyFn, run_bind, run_modify, run_get] at hy
      cases hr : StateMachine.apply (n.lastApplied + 1) n.log.entries[n.lastApplied].command n.sm with
      | ok u sm' =>
        simp only [hr, run_modify, EStateM.Result.ok.injEq, true_and] at hy
        exact (congrArg RaftNode.lastApplied hy).symm
      | error e sm' =>
        simp only [hr, run_bind, run_modify] at hy
        cases hy
    show last + count ≤ n.log.entries.length
    omega

theorem onlyApplyRaises_applyCommitted (hle : n.commitIndex ≤ n.log.entries.length) :
    OnlyApplyRaises n (applyCommitted n) := by
  show OnlyApplyRaises n (applyLoop (n.commitIndex - n.lastApplied) n)
  by_cases hlt : n.lastApplied < n.commitIndex
  · exact onlyApplyRaises_applyLoop _ n (by omega)
  · rw [show n.commitIndex - n.lastApplied = 0 by omega]
    exact .of_applied_eq _ rfl

/-- If the next indices are known, a call raises only what applying has raised. -/
theorem CallOf.onlyApplyRaises {α : Type} {P : κ → Prop} {K R : Prop}
    {r : EStateM.Result (RaftError ι) (RaftNode ι κ σ) α} (h : CallOf P K R n r) (hK : K) :
    OnlyApplyRaises n r := by
  have happlies : ∀ {z}, Commits P R n z → OnlyApplyRaises n (applyCommitted z) := fun hz =>
    (onlyApplyRaises_applyCommitted hz.inLog).of_later (by rw [hz.applied])
  cases h with
  | returns h => exact .of_applied_eq _ h.applied
  | raises hk => exact absurd hK hk
  | applies hz happly hy =>
    have hw := happlies hz
    rw [happly] at hw
    show n.applied <+: _
    rw [hy.applied]
    exact hw
  | applyRaises hz happly =>
    have hw := happlies hz
    rwa [happly] at hw

end RaftNode

/-! ## Clusters -/

open History RaftCluster

variable {size : ℕ} {κ σ : Type} [StateMachine σ κ] {c0 a : RaftCluster size κ σ}
  {H : ClusterHistory size κ}

theorem ClusterRel.nextIndex (h : ClusterRel H a) {i p : Fin size}
    (hi : (a.nodes i).role = .leader) (hp : p ∈ (a.nodes i).peers) :
    ∃ next, (a.nodes i).nextIndex p = some next ∧ 1 ≤ next ∧
      next ≤ (a.nodes i).log.lastIndex + 1 := by
  have hpeers : (a.nodes i).peers = peersOf i := (h.nodes i).rel.peers
  have hentries : (a.nodes i).log.entries = H.log i := (h.nodes i).rel.entries
  rw [hpeers, mem_peersOf] at hp
  unfold RaftLog.lastIndex
  rw [hentries]
  exact ((h.nodes i).rel.leader hi).next p hp

theorem ClusterRel.nextKnown (h : ClusterRel H a) (i : Fin size) : (a.nodes i).NextKnown := by
  intro hi p hp
  obtain ⟨next, hnext, -⟩ := h.nextIndex hi hp
  exact ⟨next, hnext⟩

/-- What an append request in flight announces. -/
theorem Justified.appendEntries {env : Envelope (Fin size) κ} (hj : Justified H env)
    {ae : AppendEntries (Fin size) κ} (hbody : env.body = .appendEntries ae) :
    ae.leaderCommit ≤ ae.prevLogIndex + ae.entries.length ∧ 0 ≤ ae.prevLogTerm := by
  refine ⟨hj.commitInReach hbody, ?_⟩
  obtain ⟨src, dst, body⟩ := env
  obtain rfl : body = .appendEntries ae := hbody
  obtain ⟨-, -, n, -, -, -, ⟨-, hzero⟩ | ⟨e, -, hterm⟩, -⟩ := hj
  · exact hzero.ge
  · rw [hterm]
    exact Int.natCast_nonneg _

variable [RaftCommand κ]

namespace RaftCluster

/-- The calls that the members of a cluster answer: a tick, an envelope in flight, and a
command given to a leader. -/
inductive Calls (c : RaftCluster size κ σ) :
    Fin size → NodeM (Fin size) κ σ (List (Envelope (Fin size) κ)) → Prop
  | tick (i : Fin size) : Calls c i RaftNode.tick
  | deliver {env : Envelope (Fin size) κ} : env ∈ c.sent → Calls c env.dst (RaftNode.step env)
  | propose {i : Fin size} (command : κ) : (c.nodes i).role = .leader →
      Calls c i (Prod.snd <$> RaftNode.propose command)

end RaftCluster

theorem ClusterRel.onlyApplyRaises (h : ClusterRel H a) {i : Fin size}
    {m : NodeM (Fin size) κ σ (List (Envelope (Fin size) κ))} (hm : a.Calls i m) :
    (a.nodes i).OnlyApplyRaises (m (a.nodes i)) := by
  cases hm with
  | tick =>
    exact (RaftNode.sendsOf_tick (P := fun _ => True) (R := True) trivial fun _ =>
      h.nextKnown i).1.onlyApplyRaises trivial
  | @deliver env hen =>
    refine (RaftNode.sendsOf_step trivial env.carries_true (fun _ =>
      ⟨h.nextKnown env.dst, ?_⟩) False.elim).1.onlyApplyRaises trivial
    have hpeers : (a.nodes env.dst).peers = peersOf env.dst := (h.nodes env.dst).rel.peers
    rw [hpeers, mem_peersOf]
    exact (h.sent env hen).1
  | propose command hi =>
    exact (RaftNode.sendsOf_propose (P := fun _ => True) (R := True) trivial fun _ =>
      ⟨h.nextKnown i, hi⟩).1.onlyApplyRaises trivial

/-- **Commit index discipline.**  In every state that a run reaches: an append request in
flight announces no more committed entries than it reaches, and the term of an entry that
exists; commit indices lie within the logs, and between restarts they do not decrease; the
next indices of a leader lie between 1 and the end of its log; and a call returns, or raises
what the state machine has raised in it. -/
theorem commit_index_discipline (hinit : c0.IsInit) (ha : RaftCluster.Steps c0 a) :
    (∀ env ∈ a.sent, ∀ ae, env.body = .appendEntries ae →
      ae.leaderCommit ≤ ae.prevLogIndex + ae.entries.length ∧ 0 ≤ ae.prevLogTerm) ∧
    (∀ i, (a.nodes i).commitIndex ≤ (a.nodes i).log.lastIndex) ∧
    (∀ i ev, a.Enabled ev → (∀ rng, ev ≠ .restart i rng) →
      (a.nodes i).commitIndex ≤ ((a.step ev).nodes i).commitIndex) ∧
    (∀ i, (a.nodes i).role = .leader → ∀ p ∈ (a.nodes i).peers, ∃ next,
      (a.nodes i).nextIndex p = some next ∧ 1 ≤ next ∧ next ≤ (a.nodes i).log.lastIndex + 1) ∧
    (∀ i m, a.Calls i m → (∃ out x, m (a.nodes i) = .ok out x) ∨
      ∃ e x, m (a.nodes i) = .error e x ∧ (a.nodes i).ApplyRaised e x) := by
  obtain ⟨H, hrel⟩ := clusterRel_of_run hinit ha
  refine ⟨fun env henv ae hbody => (hrel.sent env henv).appendEntries hbody, fun i => ?_,
    fun i ev hen hev => ?_, fun i hi p hp => hrel.nextIndex hi hp, fun i m hm => ?_⟩
  · have hentries : (a.nodes i).log.entries = H.log i := (hrel.nodes i).rel.entries
    have hset : Settled H i (a.nodes i).commitIndex := (hrel.nodes i).rel.committed
    rw [RaftLog.lastIndex, hentries]
    exact hset.1
  · by_cases hrestart : ∃ j rng, ev = .restart j rng
    · -- the restart of another node leaves this one alone
      obtain ⟨j, rng, rfl⟩ := hrestart
      have hij : i ≠ j := by
        rintro rfl
        exact hev rng rfl
      show _ ≤ (Function.update a.nodes j _ i).commitIndex
      rw [Function.update_of_ne hij]
    · push Not at hrestart
      exact (hrel.advanced ev hen hrestart i).commit
  · have honly := hrel.onlyApplyRaises hm
    cases hr : m (a.nodes i) with
    | ok out x => exact .inl ⟨out, x, rfl⟩
    | error e x =>
      rw [hr] at honly
      exact .inr ⟨e, x, rfl, honly⟩

theorem commit_index_discipline_pair :
    (pairMatched.nodes 0).role = .leader ∧ (pairMatched.nodes 0).commitIndex = 1 ∧
      (pairMatched.nodes 0).commitIndex ≤ (pairMatched.nodes 0).log.lastIndex :=
  ⟨by decide, by decide, (commit_index_discipline pairInit_isInit
    (steps_pairLed.trans steps_pairMatched)).2.1 0⟩

/-- **Match indices are truthful.**  In every state that a run reaches, a peer in the term of
a leader has the entries that the leader's match index for it says, and they are the
leader's. -/
theorem match_index_truthful (hinit : c0.IsInit) (ha : RaftCluster.Steps c0 a) {i p : Fin size}
    (hi : (a.nodes i).role = .leader)
    (hT : (a.nodes p).currentTerm = (a.nodes i).currentTerm) {k : ℕ}
    (hk : (a.nodes i).matchIndex p = some k) :
    k ≤ (a.nodes p).log.entries.length ∧
      (a.nodes p).log.entries.take k = (a.nodes i).log.entries.take k := by
  obtain ⟨H, hrel⟩ := clusterRel_of_run hinit ha
  have htermi : (a.nodes i).currentTerm = H.term i := (hrel.nodes i).rel.term
  have htermp : (a.nodes p).currentTerm = H.term p := (hrel.nodes p).rel.term
  have hlogp : (a.nodes p).log.entries = H.log p := (hrel.nodes p).rel.entries
  obtain ⟨-, hlogi⟩ := hrel.leader hi
  -- what is counted was acknowledged in this term, and a member keeps what it acknowledged
  have hacked : k ≤ H.acked p (H.term i) := by
    have hmatched := ((hrel.nodes i).rel.leader hi).matched p
    have hk' : (a.nodes i).view.matchIndex p = some k := hk
    rwa [hk', Option.getD_some] at hmatched
  have hsame : H.term p = H.term i := by rw [← htermp, ← htermi, hT]
  have hheld := (hrel.inv.log_holds p).acked
  have hlen := hrel.inv.acked_le p (H.term i)
  rw [hsame] at hheld
  rw [hlogp, hlogi, htermi]
  have htake : ((H.lead (H.term i)).take (H.acked p (H.term i))).length
      = H.acked p (H.term i) := List.length_take_of_le hlen
  refine ⟨?_, ?_⟩
  · have := hheld.length_le
    omega
  · rw [take_eq_of_isPrefix hheld (by omega), List.take_take, Nat.min_eq_left hacked]

theorem match_index_truthful_pair :
    (pairMatched.nodes 0).matchIndex 1 = some 1 ∧
      (pairMatched.nodes 1).log.entries.take 1 = (pairMatched.nodes 0).log.entries.take 1 :=
  ⟨by decide, (match_index_truthful pairInit_isInit (steps_pairLed.trans steps_pairMatched)
    (by decide) (by decide) (by decide : (pairMatched.nodes 0).matchIndex 1 = some 1)).2⟩
