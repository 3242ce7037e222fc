/-
# Clusters refine histories: the simulation

Every method of a node, run on a node that agrees with the history, leaves the
node in agreement with an extended history, whether it returns or the state
machine raises (`Simulated`); it returns if the state machine does not raise, and
the envelopes it returns are justified.  One lemma per method of the source, from
`becomeFollower` up to `tick`, `step` and `propose`, then `ClusterRel.step`: every
step of a cluster is a run of moves, or a restart, of one member.
-/
import ImmuStore.RaftRefine

open Function History RaftCluster Relation
open StateMachine (appliedIndex)
open RaftNode (resetElectionTimer applyLoop)

variable {size : ℕ} {κ σ : Type}

/-! ## What a node and the history say of its log -/

section Views

variable {H : ClusterHistory size κ} {i : Fin size} {x : RaftNode (Fin size) κ σ}

theorem NodeRel.sameButApplied {y : RaftNode (Fin size) κ σ}
    (h : NodeRel H i x.view) (hsame : x.SameButApplied y) : NodeRel H i y.view := by
  obtain ⟨last, calls, sm, rfl⟩ := hsame
  exact { h with
    leader := fun hr => ⟨(h.leader hr).won, (h.leader hr).acked, (h.leader hr).next,
      (h.leader hr).matched⟩ }

/-- The replicas counted by a leader are a quorum of acknowledgements. -/
theorem NodeRel.chosen_of_candidate (h : NodeRel H i x.view) (hI : Inv (maj size) H)
    (hrole : x.role = .leader) {index : ℕ} (hc : x.commitCandidate = some index) :
    Settled H i index := by
  have hL := h.leader hrole
  have hentries : x.log.entries = H.log i := h.entries
  have hterm : x.currentTerm = H.term i := h.term
  have hpeers : x.peers = peersOf i := h.peers
  have hown : H.log i = H.lead (H.term i) := hI.own i hL.won
  obtain ⟨hlt, hle, htermAt, hmaj⟩ := RaftNode.commitCandidate_spec hc
  rw [hentries] at hle
  refine ⟨hle, Or.inr ⟨H.term i, index - 1, le_rfl, ⟨?_, ?_⟩, ?_⟩⟩
  · -- the entry is of the leader's own term
    have hlt' : index - 1 < x.log.entries.length := by
      rw [hentries]
      omega
    have hne : index ≠ 0 := by omega
    refine ⟨x.log.entries[index - 1], ?_, ?_⟩
    · rw [← hown, ← hentries]
      exact List.getElem?_eq_getElem hlt'
    · simp only [RaftLog.termAt, if_neg hne, List.getElem?_eq_getElem hlt', hterm] at htermAt
      exact_mod_cast htermAt
  · let F := x.peers.filter fun p => index ≤ (x.matchIndex p).getD 0
    have hnodup : F.Nodup := by
      have : x.peers.Nodup := by
        rw [hpeers]
        exact nodup_peersOf i
      exact this.filter _
    have hnot : i ∉ F.toFinset := by
      simp only [F, List.mem_toFinset, List.mem_filter, hpeers, mem_peersOf]
      exact fun h => h.1 rfl
    refine ⟨insert i F.toFinset, ?_, ?_⟩
    · show Fintype.card (Fin size) / 2 + 1 ≤ (insert i F.toFinset).card
      rw [Finset.card_insert_of_notMem hnot, List.toFinset_card_of_nodup hnodup, Fintype.card_fin]
      have hsize : x.clusterSize = size := by
        unfold RaftNode.clusterSize
        rw [hpeers]
        exact length_peersOf i
      have hm : x.clusterSize / 2 + 1 ≤ 1 + F.length := hmaj
      omega
    · intro p hp
      rw [Finset.mem_insert, List.mem_toFinset] at hp
      rcases hp with rfl | hp
      · have := hL.acked
        omega
      · have hge : index ≤ (x.matchIndex p).getD 0 := by
          simpa using (List.mem_filter.mp hp).2
        have hmat : (x.matchIndex p).getD 0 ≤ H.acked p (H.term i) := hL.matched p
        omega
  · rw [← hown, show index - 1 + 1 = index by omega]

/-- Anchored logs that agree on a term agree on the entry. -/
theorem entry_eq_of_term_eq {X Y : List (LogEntry κ)} (hX : H.Anchored X) (hY : H.Anchored Y)
    {k : ℕ} {e e' : LogEntry κ} (hk : X[k]? = some e) (hk' : Y[k]? = some e')
    (ht : e.term = e'.term) : e = e' := by
  have htake := hX.matching hY hk hk' ht
  have h1 : (X.take (k + 1))[k]? = some e := by
    rw [List.getElem?_take_of_lt (Nat.lt_succ_self k), hk]
  rw [htake, List.getElem?_take_of_lt (Nat.lt_succ_self k), hk'] at h1
  exact (Option.some.inj h1).symm

/-- What the leader has sent heads the log that holds it. -/
theorem take_prefix_hold (n : ℕ) :
    (H.lead (H.term i)).take n <+: (H.hold i n).log i := by
  have hlog : (H.hold i n).log i = overlay (H.log i) ((H.lead (H.term i)).take n) := by
    simp [History.hold]
  rw [hlog]
  exact prefix_overlay _ _

/-- The log of a follower that passed the consistency check becomes what the
history says. -/
theorem NodeRel.spliced (h : NodeRel H i x.view) (hI : Inv (maj size) H)
    {ae : AppendEntries (Fin size) κ} (hT : H.term i = ae.term) {n : ℕ}
    (hn : n ≤ (H.lead ae.term).length) (hpn : ae.prevLogIndex ≤ n)
    (hes : ae.entries = ((H.lead ae.term).take n).drop ae.prevLogIndex)
    (hprev : (ae.prevLogIndex = 0 ∧ ae.prevLogTerm = 0) ∨
      ∃ e, (H.lead ae.term)[ae.prevLogIndex - 1]? = some e ∧ ae.prevLogTerm = e.term)
    (hle : ae.prevLogIndex ≤ x.log.lastIndex)
    (hcheck : x.log.termAt ae.prevLogIndex = ae.prevLogTerm) :
    (x.log.appendFrom ae.prevLogIndex ae.entries).entries = (H.hold i n).log i := by
  have hentries : x.log.entries = H.log i := h.entries
  have hlog : (H.hold i n).log i = overlay (H.log i) ((H.lead ae.term).take n) := by
    simp [History.hold, hT]
  have hanchX := (hI.log_holds i).anchored
  have hanchL := hI.lead_anchored ae.term
  have hle' : ae.prevLogIndex ≤ (H.log i).length := by
    rw [← hentries]
    exact hle
  have htake : (H.log i).take ae.prevLogIndex = (H.lead ae.term).take ae.prevLogIndex := by
    rcases Nat.eq_zero_or_pos ae.prevLogIndex with h0 | hpos
    · rw [h0, List.take_zero, List.take_zero]
    · obtain ⟨e, he, hte⟩ := hprev.resolve_left (fun h => by omega)
      have hlt : ae.prevLogIndex - 1 < (H.log i).length := by omega
      have hXe : (H.log i)[ae.prevLogIndex - 1]? = some (H.log i)[ae.prevLogIndex - 1] :=
        List.getElem?_eq_getElem hlt
      have hterm : ((H.log i)[ae.prevLogIndex - 1]).term = e.term := by
        have hlt' : ae.prevLogIndex - 1 < x.log.entries.length := by
          rw [hentries]
          exact hlt
        simp only [RaftLog.termAt, if_neg hpos.ne', hentries, hXe, hte] at hcheck
        exact_mod_cast hcheck
      have := hanchX.matching hanchL hXe he hterm
      rwa [show ae.prevLogIndex - 1 + 1 = ae.prevLogIndex by omega] at this
  show RaftLog.spliceEntries x.log.entries ae.prevLogIndex ae.entries = _
  rw [hlog, hentries, hes]
  exact RaftLog.spliceEntries_eq_overlay hn (n - ae.prevLogIndex) ae.prevLogIndex (H.log i)
    (by omega) hle' htake (fun k e e' hk hk' ht => entry_eq_of_term_eq hanchX hanchL hk hk' ht)

/-- Splicing in memory leaves the file alone. -/
theorem RaftLog.SavedAs.appendFrom {log : RaftLog (Fin size) κ} {t : ℕ} {v : Option (Fin size)}
    {S : List (LogEntry κ)} (h : log.SavedAs t v S) (prevIndex : ℕ) (es : List (LogEntry κ)) :
    (log.appendFrom prevIndex es).SavedAs t v
      (if log.path then S else (log.appendFrom prevIndex es).entries) := by
  refine ⟨h.term, h.vote, fun hpath => ?_, fun hpath => ?_⟩
  · have hpath' : log.path = true := hpath
    rw [if_pos hpath']
    exact h.file hpath'
  · have hpath' : log.path = false := hpath
    simp [hpath']

end Views

/-! ## Agreement -/

variable [StateMachine σ κ]

/-- The node agrees with the history, its saved log is the history's, and what it
is about to send is justified.  If the state machine accepts every command, what
is applied is chosen and nothing is left unsaved; if it only keeps track of its
index, no more is counted as applied than is chosen. -/
structure NodeOk (H : ClusterHistory size κ) (i : Fin size) (x : RaftNode (Fin size) κ σ) :
    Prop where
  rel : NodeRel H i x.view
  saved : x.log.SavedAs x.currentTerm x.votedFor (H.saved i)
  out : ∀ env ∈ x.outbox, Justified H env
  applied : StateMachine.Total σ →
    AppliedRel H i x.lastApplied x.applied (appliedIndex x.sm)
  synced : StateMachine.Total σ → H.saved i = H.log i
  bound : StateMachine.Tracks σ →
    AppliedBound H i x.lastApplied (appliedIndex x.sm)

/-- A computation ends in agreement with moves of the node `i`, and returns if
the state machine does not raise. -/
def Simulated {α : Type} (H : ClusterHistory size κ) (i : Fin size)
    (r : EStateM.Result (RaftError (Fin size)) (RaftNode (Fin size) κ σ) α) : Prop :=
  ∃ H', Run (maj size) i H H' ∧ NodeOk H' i (resultState r) ∧
    (StateMachine.Total σ → ∃ a x', r = .ok a x')

section Simulated

variable {α : Type} {H H1 : ClusterHistory size κ} {i : Fin size} {x : RaftNode (Fin size) κ σ}

theorem Simulated.of_ok (h : NodeOk H i x) (a : α) : Simulated H i (.ok a x) :=
  ⟨H, ReflTransGen.refl, h, fun _ => ⟨a, x, rfl⟩⟩

theorem Simulated.of_run
    {r : EStateM.Result (RaftError (Fin size)) (RaftNode (Fin size) κ σ) α}
    (hrun : Run (maj size) i H H1) (h : Simulated H1 i r) : Simulated H i r := by
  obtain ⟨H', hrun', hok, hret⟩ := h
  exact ⟨H', hrun.trans hrun', hok, hret⟩

end Simulated

section Methods

variable {H : ClusterHistory size κ} {i : Fin size} {x : RaftNode (Fin size) κ σ}
variable {y : RaftNode (Fin size) κ σ} {src p l : Fin size} {ae : AppendEntries (Fin size) κ}

/-! ## Methods that cannot raise -/

theorem NodeOk.send (h : NodeOk H i x) {dst : Fin size} {body : RpcBody (Fin size) κ}
    (hj : Justified H ⟨i, dst, body⟩) : NodeOk H i (x.send dst body) := by
  refine { h with out := fun env henv => ?_ }
  have hid : x.nodeId = i := h.rel.nodeId
  simp only [RaftNode.send, List.mem_append, List.mem_singleton] at henv
  rcases henv with henv | henv
  · exact h.out env henv
  · rw [henv, hid]
    exact hj

/-- Saving after a run of moves that left the outbox and what is applied alone. -/
theorem NodeOk.persist {H1 : ClusterHistory size κ} (h : NodeOk H i x) (hI : Inv (maj size) H)
    (hrun : Run (maj size) i H H1) (hrel : NodeRel H1 i y.view) (hout : y.outbox = x.outbox)
    (happ : y.lastApplied = x.lastApplied ∧ y.applied = x.applied ∧ y.sm = x.sm) :
    Run (maj size) i H (H1.save i) ∧ NodeOk (H1.save i) i y.persist := by
  have hrun' : Run (maj size) i H (H1.save i) := hrun.tail (Step.save i)
  have hentries : y.log.entries = H1.log i := hrel.entries
  have hsaved : (H1.save i).saved i = H1.log i := by simp [History.save]
  refine ⟨hrun', hrel.save, ?_, ?_, fun hsm => ?_, fun _ => hsaved, fun htr => ?_⟩
  · rw [hsaved, ← hentries]
    exact RaftLog.synced_save _ _ _
  · intro env henv
    have henv' : env ∈ x.outbox := hout ▸ henv
    exact (h.out env henv').mono (hI.run_extends hrun')
  · obtain ⟨hlast, hcalls, hstate⟩ := happ
    show AppliedRel _ i y.lastApplied y.applied (appliedIndex y.sm)
    rw [hlast, hcalls, hstate]
    exact (h.applied hsm).run hI hrun'
  · obtain ⟨hlast, -, hstate⟩ := happ
    show AppliedBound _ i y.lastApplied (appliedIndex y.sm)
    rw [hlast, hstate]
    exact (h.bound htr).mono (hI.run_extends hrun')

section

variable (h : NodeOk H i x) (hI : Inv (maj size) H)
include h hI

theorem NodeOk.becomeFollower {T : ℕ} (hT : x.currentTerm < T) :
    Run (maj size) i H ((H.raise i T).save i) ∧
      NodeOk ((H.raise i T).save i) i (x.becomeFollower T) := by
  have hterm : x.currentTerm = H.term i := h.rel.term
  have hT' : H.term i < T := hterm ▸ hT
  have hrun : Run (maj size) i H (H.raise i T) :=
    ReflTransGen.single (Step.raise i T hT')
  have heq : x.becomeFollower T = RaftNode.persist (resetElectionTimer
      { x with role := .follower, currentTerm := T, votedFor := none, leaderId := none }) := by
    simp [RaftNode.becomeFollower, hT]
  rw [heq]
  exact h.persist hI hrun (h.rel.raise hI hT') rfl ⟨rfl, rfl, rfl⟩

/-- Stepping down on a later term, if the message brings one. -/
theorem NodeOk.adoptTerm {T : ℕ} (hT : x.currentTerm ≤ T) :
    ∃ H1, Run (maj size) i H H1 ∧ H1.term i = T ∧
      NodeOk H1 i (if x.currentTerm < T then x.becomeFollower T else x) := by
  have hterm : x.currentTerm = H.term i := h.rel.term
  by_cases hlt : x.currentTerm < T
  · rw [if_pos hlt]
    obtain ⟨hrun, hok⟩ := h.becomeFollower hI hlt
    exact ⟨_, hrun, by simp [History.save, History.raise], hok⟩
  · rw [if_neg hlt]
    exact ⟨H, ReflTransGen.refl, by omega, h⟩

theorem NodeOk.handleRequestVote {rv : RequestVote (Fin size)}
    (hj : Justified H ⟨src, i, .requestVote rv⟩) :
    Simulated H i (.ok PUnit.unit (x.handleRequestVote src rv)) := by
  have hne : src ≠ i := hj.1
  unfold RaftNode.handleRequestVote
  by_cases hlt : rv.term < x.currentTerm
  · rw [if_pos hlt]
    exact Simulated.of_ok (h.send ⟨hne.symm, by simp⟩) _
  rw [if_neg hlt]
  obtain ⟨H1, hrun1, hterm1, h1⟩ := h.adoptTerm hI (T := rv.term) (by omega)
  have hI1 := hI.run hrun1
  obtain ⟨-, hcand, L, hst, hlen, hlast⟩ := hj.mono (hI.run_extends hrun1)
  refine Simulated.of_run hrun1 ?_
  -- from here on `y` is the node in the term of the request
  generalize (if x.currentTerm < rv.term then x.becomeFollower rv.term else x) = y at h1
  dsimp only
  by_cases hgrant : (y.votedFor = none ∨ y.votedFor = some rv.candidateId) ∧
      (y.log.lastTerm < rv.lastLogTerm ∨
        (rv.lastLogTerm = y.log.lastTerm ∧ y.log.lastIndex ≤ rv.lastLogIndex))
  · rw [if_pos hgrant]
    obtain ⟨hfree, hlogOk⟩ := hgrant
    have hentries : y.log.entries = H1.log i := h1.rel.entries
    have hvote : y.votedFor = H1.vote i (H1.term i) := h1.rel.vote
    have hycur : y.currentTerm = H1.term i := h1.rel.term
    rw [hcand] at hfree ⊢
    have hst' : H1.stood src (H1.term i) = some L := by rw [hterm1]; exact hst
    have hup : UpToDate L (H1.log i) := by
      rw [RaftLog.lastTerm_eq, hentries, ← hlast] at hlogOk
      rw [← hlen] at hlogOk
      unfold RaftLog.lastIndex at hlogOk
      rw [hentries] at hlogOk
      exact hlogOk
    rw [hvote] at hfree
    have hstep : Step (maj size) i H1 (H1.grant i src) := Step.grant i src L hst' hup hfree
    have hnew : (H1.grant i src).vote i (H1.term i) = some src := by simp [History.grant]
    have hrel : NodeRel (H1.grant i src) i { y.view with vote := some src } := by
      have := h1.rel.mono (extends_grant hfree) rfl rfl (fun hl => hl)
      rwa [hnew] at this
    obtain ⟨hrun, hok⟩ := h1.persist
      (y := resetElectionTimer { y with votedFor := some src }) hI1
      (ReflTransGen.single hstep) hrel rfl ⟨rfl, rfl, rfl⟩
    refine Simulated.of_run hrun (Simulated.of_ok (hok.send ?_) _)
    refine ⟨hne.symm, fun _ => ?_⟩
    show (H1.grant i src).vote i y.currentTerm = some src
    rw [hycur]
    exact hnew
  · rw [if_neg hgrant]
    exact Simulated.of_ok (h1.send ⟨hne.symm, by simp⟩) _

/-! ## Replication -/

section

variable (hrole : x.role = .leader)
include hrole

/-- A leader's append request is a stretch of its term's leader log. -/
theorem NodeOk.justified_appendRequest (hp : p ≠ i) {k : ℕ} (hk : 1 ≤ k)
    (hk' : k ≤ (H.log i).length + 1) :
    Justified H ⟨i, p, .appendEntries (x.appendRequest k)⟩ := by
  have hL := h.rel.leader hrole
  have hterm : x.currentTerm = H.term i := h.rel.term
  have hentries : x.log.entries = H.log i := h.rel.entries
  have hown : H.log i = H.lead (H.term i) := hI.own i hL.won
  obtain ⟨hcle, hch⟩ : Settled H i x.commitIndex := h.rel.committed
  refine ⟨hp.symm, ?_⟩
  show H.leader x.currentTerm = some i ∧ _
  rw [hterm]
  refine ⟨hL.won, (H.log i).length, ?_, ?_, ?_, ?_, hcle, ?_⟩
  · show (H.log i).length ≤ (H.lead x.currentTerm).length
    rw [hterm, hown]
  · show k - 1 ≤ _
    omega
  · show x.log.entries.drop (k - 1) = ((H.lead x.currentTerm).take _).drop (k - 1)
    rw [hterm, hentries, ← hown, List.take_length]
  · show (k - 1 = 0 ∧ x.log.termAt (k - 1) = 0) ∨
      ∃ e, (H.lead x.currentTerm)[k - 1 - 1]? = some e ∧ x.log.termAt (k - 1) = e.term
    rw [hterm, ← hown, ← hentries]
    rcases Nat.eq_zero_or_pos (k - 1) with h0 | hpos
    · left
      simp [h0, RaftLog.termAt]
    · right
      have hlt : k - 1 - 1 < x.log.entries.length := by
        rw [hentries]
        omega
      refine ⟨x.log.entries[k - 1 - 1], List.getElem?_eq_getElem hlt, ?_⟩
      simp [RaftLog.termAt, hpos.ne', List.getElem?_eq_getElem hlt]
  · show ChosenBy (maj size) H x.currentTerm ((H.lead x.currentTerm).take x.commitIndex)
    rw [hterm, ← hown]
    exact hch

theorem NodeOk.sendAppendTo (hp : p ≠ i) :
    ∃ x', RaftNode.sendAppendTo p x = .ok ⟨⟩ x' ∧ NodeOk H i x' := by
  obtain ⟨k, hk, hk1, hk2⟩ := (h.rel.leader hrole).next p hp
  exact ⟨_, RaftNode.sendAppendTo_eq hk, h.send (h.justified_appendRequest hI hrole hp hk1 hk2)⟩

theorem NodeOk.broadcastAppend :
    ∃ x', RaftNode.broadcastAppend x = .ok ⟨⟩ x' ∧ NodeOk H i x' ∧ x'.role = .leader := by
  have hpeers : x.peers = peersOf i := h.rel.peers
  have hnext := (h.rel.leader hrole).next
  have heq := RaftNode.broadcastTo_eq x.peers x (fun p hp => by
    rw [hpeers, mem_peersOf] at hp
    obtain ⟨k, hk, -⟩ := hnext p hp
    exact ⟨k, hk⟩)
  refine ⟨_, heq, { h with out := ?_ }, hrole⟩
  intro env henv
  simp only [List.mem_append, List.mem_map] at henv
  rcases henv with henv | ⟨p, hp, rfl⟩
  · exact h.out env henv
  · rw [hpeers, mem_peersOf] at hp
    obtain ⟨k, hk, hk1, hk2⟩ := hnext p hp
    have hk' : x.nextIndex p = some k := hk
    have hid : x.nodeId = i := h.rel.nodeId
    rw [hk', Option.getD_some, hid]
    exact h.justified_appendRequest hI hrole hp hk1 hk2

end

end

/-! ## Committing and applying -/

/-- Applying what is committed to a state machine that accepts every command. -/
theorem AppliedRel.applyCommitted (hsm : StateMachine.Total σ) (h : NodeRel H i x.view)
    (ha : AppliedRel H i x.lastApplied x.applied (appliedIndex x.sm)) :
    ∃ x', RaftNode.applyCommitted x = .ok ⟨⟩ x' ∧
      AppliedRel H i x'.lastApplied x'.applied (appliedIndex x'.sm) := by
  have hentries : x.log.entries = H.log i := h.entries
  have hcom : Settled H i x.commitIndex := h.committed
  have hup : x.AppliedUpTo := by
    refine ⟨?_, ?_, ha.index⟩
    · rw [hentries]
      exact ha.settled.1
    · rw [hentries]
      exact ha.calls
  obtain ⟨sm, heq, hup'⟩ := RaftNode.applyCommitted_eq hsm hup (by rw [hentries]; exact hcom.1)
  refine ⟨_, heq, ?_⟩
  generalize hcount : x.commitIndex - x.lastApplied = count at heq hup'
  -- either nothing was left to apply, or `last_applied` is now `commit_index`
  have hlast : x.lastApplied + count = x.lastApplied ∨ x.lastApplied + count = x.commitIndex := by
    omega
  refine ⟨?_, ?_, hup'.index⟩
  · show Settled H i (x.lastApplied + count)
    rcases hlast with hl | hl
    · rw [hl]
      exact ha.settled
    · rw [hl]
      exact hcom
  · have := hup'.calls
    rw [show (x.afterApply count sm).log.entries = H.log i from hentries] at this
    exact this

/-- As many entries are chosen as the apply loop has counted. -/
theorem AppliedBound.applyCommitted (h : NodeRel H i x.view) (htr : StateMachine.Tracks σ)
    (hb : AppliedBound H i x.lastApplied (appliedIndex x.sm)) :
    AppliedBound H i (resultState (RaftNode.applyCommitted x)).lastApplied
      (appliedIndex (resultState (RaftNode.applyCommitted x)).sm) := by
  obtain ⟨hcle, hcch⟩ : Settled H i x.commitIndex := h.committed
  obtain ⟨hidx, P, hlen, hch⟩ := hb
  obtain ⟨hge, hle, htrack⟩ := RaftNode.applyLoop_bounds (x.commitIndex - x.lastApplied) x
  refine ⟨htrack htr hidx, ?_⟩
  show ∃ P : List (LogEntry κ), P.length = (resultState (applyLoop _ x)).lastApplied ∧ _
  generalize (resultState (applyLoop (x.commitIndex - x.lastApplied) x)).lastApplied = k
    at hge hle
  -- either nothing was applied, or what is counted now is within what is committed
  rcases hge.eq_or_lt with rfl | hlt
  · exact ⟨P, hlen, hch⟩
  · refine ⟨(H.log i).take k, List.length_take_of_le (by omega), hcch.of_isPrefix ?_⟩
    exact List.take_prefix_take_left (by omega)

section

variable (h : NodeOk H i x)
include h

/-- Applying what is committed keeps the agreement, also if the callback raises. -/
theorem NodeOk.applyCommitted : Simulated H i (RaftNode.applyCommitted x) := by
  have hsame := RaftNode.sameButApplied_applyLoop (x.commitIndex - x.lastApplied) x
  have hrel := h.rel.sameButApplied hsame
  have happ : StateMachine.Total σ →
      ∃ x', RaftNode.applyCommitted x = .ok ⟨⟩ x' ∧
        AppliedRel H i x'.lastApplied x'.applied (appliedIndex x'.sm) := fun hsm =>
    AppliedRel.applyCommitted hsm h.rel (h.applied hsm)
  refine ⟨H, ReflTransGen.refl, ⟨hrel, ?_, ?_, ?_, h.synced, fun htr =>
    AppliedBound.applyCommitted h.rel htr (h.bound htr)⟩, fun hsm => ?_⟩
  · obtain ⟨last, calls, sm, heq⟩ := hsame
    show RaftLog.SavedAs (resultState (applyLoop _ x)).log
      (resultState (applyLoop _ x)).currentTerm
      (resultState (applyLoop _ x)).votedFor _
    rw [heq]
    exact h.saved
  · obtain ⟨last, calls, sm, heq⟩ := hsame
    show ∀ env ∈ (resultState (applyLoop _ x)).outbox, _
    rw [heq]
    exact h.out
  · intro hsm
    obtain ⟨x', hx', ha⟩ := happ hsm
    rw [hx']
    exact ha
  · obtain ⟨x', hx', -⟩ := happ hsm
    exact ⟨⟨⟩, x', hx'⟩

section

variable (hI : Inv (maj size) H)
include hI

theorem NodeOk.maybeAdvanceCommit (hrole : x.role = .leader) : Simulated H i (RaftNode.maybeAdvanceCommit x) := by
  simp only [RaftNode.maybeAdvanceCommit, run_bind, run_get]
  cases hc : x.commitCandidate with
  | none => exact Simulated.of_ok h _
  | some index =>
    have hset := h.rel.chosen_of_candidate hI hrole hc
    have hy : NodeOk H i { x with commitIndex := index } :=
      { h with rel := h.rel.commit hset }
    exact hy.applyCommitted

/-! ## Append requests and replies -/

/-- A callback that raises in the middle of `_handle_append_entries` leaves the
spliced log unsaved and unacknowledged. -/
theorem NodeOk.unsaved (hl : H.leader (H.term i) = some l) (hne : l ≠ i) {n prevIndex : ℕ}
    {es : List (LogEntry κ)} (hlog : (x.log.appendFrom prevIndex es).entries = (H.hold i n).log i)
    (hrel : NodeRel (H.hold i n) i y.view) (hylog : y.log = x.log.appendFrom prevIndex es)
    (hterm : y.currentTerm = x.currentTerm) (hvote : y.votedFor = x.votedFor)
    (hout : y.outbox = x.outbox) (hraise : ¬ StateMachine.Total σ)
    (hbound : StateMachine.Tracks σ →
      AppliedBound (H.hold i n) i y.lastApplied (appliedIndex y.sm)) :
    ∃ H', Run (maj size) i H H' ∧ NodeOk H' i y := by
  have hstep : Step (maj size) i H (H.hold i n) := Step.hold i l n hl hne
  have hrun := ReflTransGen.single hstep
  have hsaved := h.saved.appendFrom prevIndex es
  by_cases hpath : x.log.path = true
  · refine ⟨H.hold i n, hrun, hrel, ?_, ?_, fun hsm => absurd hsm hraise,
      fun hsm => absurd hsm hraise, hbound⟩
    · rw [if_pos hpath] at hsaved
      rw [hylog, hterm, hvote]
      exact hsaved
    · rw [hout]
      exact fun env henv => (h.out env henv).mono (hI.run_extends hrun)
  · -- an in-memory log object survives the restart with what was spliced in
    have hrun' : Run (maj size) i H ((H.hold i n).save i) := hrun.tail (Step.save i)
    refine ⟨(H.hold i n).save i, hrun', hrel.save, ?_, ?_, fun hsm => absurd hsm hraise,
      fun hsm => absurd hsm hraise, fun htr => (hbound htr).mono (extends_logs _ _)⟩
    · rw [if_neg hpath] at hsaved
      rw [show ((H.hold i n).save i).saved i = (H.hold i n).log i by simp [History.save],
        hylog, hterm, hvote, ← hlog]
      exact hsaved
    · rw [hout]
      exact fun env henv => (h.out env henv).mono (hI.run_extends hrun')

/-- Saving and acknowledging the spliced log. -/
theorem NodeOk.acknowledge (hl : H.leader (H.term i) = some l) (hne : l ≠ i) {n : ℕ}
    (hn : n ≤ (H.lead (H.term i)).length) (hrel : NodeRel (H.hold i n) i y.view)
    (hterm : y.currentTerm = x.currentTerm) (hout : y.outbox = x.outbox)
    (happ : StateMachine.Total σ →
      AppliedRel (H.hold i n) i y.lastApplied y.applied (appliedIndex y.sm))
    (hbound : StateMachine.Tracks σ →
      AppliedBound (H.hold i n) i y.lastApplied (appliedIndex y.sm)) :
    ∃ H', Run (maj size) i H H' ∧
      NodeOk H' i (y.persist.send l (.appendEntriesReply ⟨y.currentTerm, true, n⟩)) := by
  have hxterm : x.currentTerm = H.term i := h.rel.term
  have hentries : y.log.entries = (H.hold i n).log i := hrel.entries
  have hpre : (H.lead (H.term i)).take n <+: (H.hold i n).log i := take_prefix_hold n
  have hsaved : ((H.hold i n).save i).saved i = (H.hold i n).log i := by simp [History.save]
  have hstep1 : Step (maj size) i H (H.hold i n) := Step.hold i l n hl hne
  have hstep2 : Step (maj size) i ((H.hold i n).save i) (((H.hold i n).save i).ack i n) :=
    Step.ack i n hn hpre (by rw [hsaved]; exact hpre)
  have hrun' : Run (maj size) i (H.hold i n) (((H.hold i n).save i).ack i n) :=
    (ReflTransGen.single (Step.save i)).tail hstep2
  have hrun : Run (maj size) i H (((H.hold i n).save i).ack i n) :=
    (ReflTransGen.single hstep1).trans hrun'
  refine ⟨_, hrun, NodeOk.send (x := y.persist)
    ⟨(hrel.save).ack n, ?_, ?_, ?_, fun _ => hsaved, ?_⟩ ?_⟩
  · show RaftLog.SavedAs _ _ _ (((H.hold i n).save i).saved i)
    rw [hsaved, ← hentries]
    exact RaftLog.synced_save _ _ _
  · intro env henv
    have henv' : env ∈ x.outbox := hout ▸ henv
    exact (h.out env henv').mono (hI.run_extends hrun)
  · exact fun hsm => (happ hsm).run (hI.step hstep1) hrun'
  · exact fun htr => (hbound htr).mono ((hI.step hstep1).run_extends hrun')
  · refine ⟨hne.symm, fun _ => ?_⟩
    show n ≤ (((H.hold i n).save i).ack i n).acked i y.currentTerm
    rw [hterm, hxterm]
    simp [History.ack, History.save, History.hold]

theorem NodeOk.acceptEntries (hrole : x.role = .follower)
    (hj : Justified H ⟨src, i, .appendEntries ae⟩) (hT : H.term i = ae.term)
    (hle : ae.prevLogIndex ≤ x.log.lastIndex)
    (hcheck : x.log.termAt ae.prevLogIndex = ae.prevLogTerm) :
    Simulated H i (RaftNode.acceptEntries src ae x) := by
  obtain ⟨hne, hl, n, hn, hpn, hes, hprev, hlc, hch⟩ := hj
  have hlT : H.leader (H.term i) = some src := by rw [hT]; exact hl
  have hlog := h.rel.spliced hI hT hn hpn hes hprev hle hcheck
  have hnew : ae.prevLogIndex + ae.entries.length = n := by
    rw [hes, List.length_drop, List.length_take_of_le hn]
    omega
  have hstep : Step (maj size) i H (H.hold i n) := Step.hold i src n hlT hne
  have hI' := hI.step hstep
  have hext := hI.step_extends hstep
  let y : RaftNode (Fin size) κ σ :=
    { x with log := x.log.appendFrom ae.prevLogIndex ae.entries }
  have hy : NodeRel (H.hold i n) i y.view := by
    have hrel := h.rel.hold hI hrole hlT hne n
    rw [← hlog] at hrel
    exact hrel
  have hyapp : StateMachine.Total σ →
      AppliedRel (H.hold i n) i y.lastApplied y.applied (appliedIndex y.sm) :=
    fun hsm => (h.applied hsm).run hI (ReflTransGen.single hstep)
  have hybound : StateMachine.Tracks σ →
      AppliedBound (H.hold i n) i y.lastApplied (appliedIndex y.sm) :=
    fun htr => (h.bound htr).mono hext
  have hn' : n ≤ (H.lead (H.term i)).length := by rw [hT]; exact hn
  by_cases hcommit : x.commitIndex < ae.leaderCommit
  · have hmin : min ae.leaderCommit n = ae.leaderCommit := min_eq_left hlc
    -- the committed entries of the leader are now a prefix of the log
    have hset : Settled (H.hold i n) i ae.leaderCommit := by
      have hpre : (H.lead ae.term).take n <+: (H.hold i n).log i := hT ▸ take_prefix_hold n
      have hlen : ((H.lead ae.term).take n).length = n := List.length_take_of_le hn
      refine ⟨?_, ?_⟩
      · have := hpre.length_le
        omega
      · rw [take_eq_of_isPrefix hpre (by rw [hlen]; exact hlc), List.take_take, min_eq_left hlc]
        exact hch.mono hext hT.ge
    let z : RaftNode (Fin size) κ σ := { y with commitIndex := ae.leaderCommit }
    have hz : NodeRel (H.hold i n) i z.view := hy.commit hset
    have hzapp : StateMachine.Total σ →
        ∃ w, RaftNode.applyCommitted z = .ok ⟨⟩ w ∧
          AppliedRel (H.hold i n) i w.lastApplied w.applied (appliedIndex w.sm) :=
      fun hsm => AppliedRel.applyCommitted hsm hz (hyapp hsm)
    have hzbound := fun htr => AppliedBound.applyCommitted hz htr (hybound htr)
    have hsame := RaftNode.sameButApplied_applyLoop (z.commitIndex - z.lastApplied) z
    have hw := hz.sameButApplied hsame
    obtain ⟨last, calls, sm, heq⟩ := hsame
    have hseq : RaftNode.acceptEntries src ae x
        = (RaftNode.applyCommitted >>= fun _ => modify RaftNode.persist >>= fun _ =>
            modify fun w => w.send src (.appendEntriesReply ⟨w.currentTerm, true, n⟩)) z := by
      simp only [RaftNode.acceptEntries, run_bind, run_modify, run_get, if_pos hcommit, hmin, hnew]
      rfl
    rw [hseq, run_bind]
    change NodeRel (H.hold i n) i (resultState (RaftNode.applyCommitted z)).view at hw
    change resultState (RaftNode.applyCommitted z) = _ at heq
    cases hr : RaftNode.applyCommitted z with
    | ok a w =>
      rw [hr, resultState_ok] at hw heq
      simp only [hr, resultState_ok] at hzbound
      have hwapp : StateMachine.Total σ →
          AppliedRel (H.hold i n) i w.lastApplied w.applied (appliedIndex w.sm) := by
        intro hsm
        obtain ⟨w', hw', ha⟩ := hzapp hsm
        rw [hr] at hw'
        cases hw'
        exact ha
      obtain ⟨H', hrun, hok⟩ := h.acknowledge hI hlT hne hn' hw (by rw [heq]) (by rw [heq]) hwapp
        hzbound
      exact Simulated.of_run hrun (Simulated.of_ok hok _)
    | error e w =>
      rw [hr, resultState_error] at hw heq
      simp only [hr, resultState_error] at hzbound
      have hraise : ¬ StateMachine.Total σ := by
        intro hsm
        obtain ⟨w', hw', -⟩ := hzapp hsm
        rw [hr] at hw'
        cases hw'
      obtain ⟨H', hrun, hok⟩ := h.unsaved hI hlT hne hlog hw (by rw [heq]) (by rw [heq])
        (by rw [heq]) (by rw [heq]) hraise hzbound
      exact ⟨H', hrun, hok, fun hsm => absurd hsm hraise⟩
  · simp only [RaftNode.acceptEntries, run_bind, run_modify, run_get, if_neg hcommit, hnew]
    obtain ⟨H', hrun, hok⟩ := h.acknowledge hI hlT hne hn' hy rfl rfl hyapp hybound
    exact Simulated.of_run hrun (Simulated.of_ok hok _)

theorem NodeOk.handleAppendEntries (hj : Justified H ⟨src, i, .appendEntries ae⟩) :
    Simulated H i (RaftNode.handleAppendEntries src ae x) := by
  have hne : src ≠ i := hj.1
  simp only [RaftNode.handleAppendEntries, run_bind, run_get]
  by_cases hlt : ae.term < x.currentTerm
  · rw [if_pos hlt, run_modify]
    exact Simulated.of_ok (h.send ⟨hne.symm, by simp⟩) _
  rw [if_neg hlt]
  obtain ⟨H1, hrun1, hterm1, h1⟩ := h.adoptTerm hI (T := ae.term) (by omega)
  have hI1 := hI.run hrun1
  have hj1 := hj.mono (hI.run_extends hrun1)
  refine Simulated.of_run hrun1 ?_
  simp only [run_bind, run_modify, run_get]
  generalize (if x.currentTerm < ae.term then x.becomeFollower ae.term else x) = y at h1
  have hz : NodeOk H1 i
      (resetElectionTimer { y with role := .follower, leaderId := some ae.leaderId }) :=
    { h1 with rel := { h1.rel with candidate := nofun, leader := nofun } }
  have hrole : (resetElectionTimer
      { y with role := .follower, leaderId := some ae.leaderId }).role = .follower := rfl
  generalize resetElectionTimer
    { y with role := .follower, leaderId := some ae.leaderId } = z at hz hrole ⊢
  by_cases hreject : z.log.lastIndex < ae.prevLogIndex ∨
      z.log.termAt ae.prevLogIndex ≠ ae.prevLogTerm
  · rw [if_pos hreject, run_modify]
    exact Simulated.of_ok (hz.send ⟨hne.symm, by simp⟩) _
  · rw [if_neg hreject]
    push Not at hreject
    exact hz.acceptEntries hI1 hrole hj1 hterm1 hreject.1 hreject.2

theorem NodeOk.handleAppendEntriesReply {reply : AppendEntriesReply}
    (hj : Justified H ⟨src, i, .appendEntriesReply reply⟩) :
    Simulated H i (RaftNode.handleAppendEntriesReply src reply x) := by
  have hne : src ≠ i := hj.1
  have hterm : x.currentTerm = H.term i := h.rel.term
  simp only [RaftNode.handleAppendEntriesReply, run_bind, run_get]
  by_cases hlt : x.currentTerm < reply.term
  · rw [if_pos hlt, run_modify]
    obtain ⟨hrun, hok⟩ := h.becomeFollower hI hlt
    exact Simulated.of_run hrun (Simulated.of_ok hok _)
  rw [if_neg hlt]
  by_cases hskip : x.role ≠ .leader ∨ reply.term < x.currentTerm
  · rw [if_pos hskip]
    exact Simulated.of_ok h _
  rw [if_neg hskip]
  push Not at hskip
  obtain ⟨hrole, hge⟩ := hskip
  have hrt : reply.term = H.term i := by omega
  have hL := h.rel.leader hrole
  have hnotcand : x.role ≠ .candidate := by rw [hrole]; decide
  by_cases hs : reply.success = true
  · rw [if_pos hs]
    have hack : reply.matchIndex ≤ H.acked src (H.term i) := by
      rw [← hrt]
      exact hj.2 hs
    let y : RaftNode (Fin size) κ σ :=
      { x with
        matchIndex := update x.matchIndex src (some reply.matchIndex)
        nextIndex := update x.nextIndex src (some (reply.matchIndex + 1)) }
    have hy : NodeOk H i y := by
      refine { h with rel := { h.rel with
        candidate := fun hr => absurd hr hnotcand
        leader := fun _ => ⟨hL.won, hL.acked, ?_, ?_⟩ } }
      · intro p hp
        by_cases hps : p = src
        · subst hps
          refine ⟨reply.matchIndex + 1, update_self _ _ _, by omega, ?_⟩
          have hlen := hI.acked_le p (H.term i)
          rw [← hI.own i hL.won] at hlen
          omega
        · obtain ⟨k, hk, hk1, hk2⟩ := hL.next p hp
          exact ⟨k, (update_of_ne hps _ _).trans hk, hk1, hk2⟩
      · intro p
        show (update x.matchIndex src (some reply.matchIndex) p).getD 0 ≤ _
        by_cases hps : p = src
        · subst hps
          rw [update_self]
          exact hack
        · rw [update_of_ne hps]
          exact hL.matched p
    simp only [run_bind, run_modify]
    exact hy.maybeAdvanceCommit hI hrole
  · rw [if_neg hs]
    obtain ⟨k, hk, hk1, hk2⟩ := hL.next src hne
    have hk' : x.nextIndex src = some k := hk
    rw [hk']
    let y : RaftNode (Fin size) κ σ :=
      { x with
        nextIndex := update x.nextIndex src
          (some (max 1 (min (k - 1) (reply.matchIndex + 1)))) }
    have hy : NodeOk H i y := by
      refine { h with rel := { h.rel with
        candidate := fun hr => absurd hr hnotcand
        leader := fun _ => ⟨hL.won, hL.acked, ?_, hL.matched⟩ } }
      intro p hp
      by_cases hps : p = src
      · subst hps
        exact ⟨_, update_self _ _ _, le_max_left _ _, by omega⟩
      · obtain ⟨k', hk', hk1', hk2'⟩ := hL.next p hp
        exact ⟨k', (update_of_ne hps _ _).trans hk', hk1', hk2'⟩
    obtain ⟨y', hsend, hy'⟩ := hy.sendAppendTo hI hrole hne
    simp only [run_bind, run_modify]
    rw [show RaftNode.sendAppendTo src _ = _ from hsend]
    exact Simulated.of_ok hy' _

end

end

/-! ## Proposals and restarts -/

/-- A method that returns envelopes returns justified ones. -/
def SimulatedOut (H : ClusterHistory size κ) (i : Fin size)
    (r : EStateM.Result (RaftError (Fin size)) (RaftNode (Fin size) κ σ)
      (List (Envelope (Fin size) κ))) : Prop :=
  ∃ H', Run (maj size) i H H' ∧ NodeOk H' i (resultState r) ∧
    (StateMachine.Total σ → ∃ a x', r = .ok a x') ∧
    ∀ out x', r = .ok out x' → ∀ env ∈ out, Justified H' env

theorem NodeOk.clearOutbox (h : NodeOk H i x) : NodeOk H i { x with outbox := [] } :=
  { h with out := by simp }

/-- Draining the outbox returns what the method has put there. -/
theorem Simulated.drain {α : Type} {m : NodeM (Fin size) κ σ α} (h : Simulated H i (m x)) :
    SimulatedOut H i ((m >>= fun _ => RaftNode.drain) x) := by
  obtain ⟨H', hrun, hok, hret⟩ := h
  refine ⟨H', hrun, ?_⟩
  rw [run_bind]
  cases hr : m x with
  | ok a x' =>
    rw [hr] at hok
    refine ⟨hok.clearOutbox, fun _ => ⟨_, _, rfl⟩, ?_⟩
    rintro out y hy env henv
    cases hy
    exact hok.out env henv
  | error e x' =>
    rw [hr] at hok hret
    refine ⟨hok, fun hsm => ?_, ?_⟩
    · obtain ⟨a, y, hy⟩ := hret hsm
      cases hy
    · rintro out y hy
      cases hy

/-- The index that a leader returns is that of the new entry. -/
theorem RaftNode.propose_index (hrole : x.role = .leader) {command : κ} {index : ℕ}
    {out : List (Envelope (Fin size) κ)} {x' : RaftNode (Fin size) κ σ}
    (h : RaftNode.propose command x = .ok (index, out) x') :
    index = x.log.entries.length + 1 := by
  have hnot : ¬ x.role ≠ .leader := not_not.mpr hrole
  simp only [RaftNode.propose, run_bind, run_get, run_modify, run_pure, if_neg hnot,
    RaftLog.lastIndex, RaftLog.appendNew_entries, List.length_append, List.length_cons,
    List.length_nil] at h
  split at h
  · split at h
    · cases h
      rfl
    · cases h
  · cases h

/-- A proposal extends the leader's log by the new entry before anything else. -/
theorem NodeOk.propose (h : NodeOk H i x) (hI : Inv (maj size) H) (hrole : x.role = .leader)
    (command : κ) :
    Run (maj size) i H (H.extend i ⟨x.currentTerm, command⟩) ∧
      SimulatedOut (H.extend i ⟨x.currentTerm, command⟩) i
        ((Prod.snd <$> RaftNode.propose command) x) := by
  have hterm : x.currentTerm = H.term i := h.rel.term
  have h0 := h.clearOutbox
  obtain ⟨hrun, hrel⟩ := h0.rel.append hI hrole (e := ⟨x.currentTerm, command⟩) hterm
  obtain ⟨hrun', hy⟩ := h0.persist hI hrun
    (y := { x with outbox := [], log := x.log.appendNew ⟨x.currentTerm, command⟩ })
    hrel rfl ⟨rfl, rfl, rfl⟩
  have hI' := hI.run hrun'
  have heq := RaftNode.snd_propose hrole command
  have hyrole : ({ x with outbox := [], log := x.log.appendNew ⟨x.currentTerm, command⟩ } :
    RaftNode (Fin size) κ σ).persist.role = .leader := hrole
  generalize ({ x with outbox := [], log := x.log.appendNew ⟨x.currentTerm, command⟩ } :
    RaftNode (Fin size) κ σ) = y at hy heq hyrole
  obtain ⟨y1, hbr, hy1, hrole1⟩ := hy.broadcastAppend hI' hyrole
  rw [heq]
  have hsim : Simulated (H.extend i ⟨x.currentTerm, command⟩) i
      ((RaftNode.broadcastAppend >>= fun _ => RaftNode.maybeAdvanceCommit) y.persist) := by
    refine Simulated.of_run (ReflTransGen.single (Step.save i)) ?_
    rw [run_bind, hbr]
    exact hy1.maybeAdvanceCommit hI' hrole1
  exact ⟨hrun, hsim.drain⟩

/-- A restart falls back to the saved log and forgets the volatile state. -/
theorem NodeOk.restart (h : NodeOk H i x) (rng : ℕ → ℕ) :
    NodeOk (H.lose i) i (RaftCluster.restartNode x rng) := by
  obtain ⟨hsaved, hentries⟩ := h.saved.reopen
  have hlog : (H.lose i).log i = H.saved i := by simp [History.lose]
  refine ⟨?_, ?_, by simp [restartNode, RaftNode.new, resetElectionTimer], ?_, ?_,
    fun htr => (h.bound htr).resume.mono (extends_logs _ _)⟩
  · exact {
      nodeId := h.rel.nodeId
      peers := h.rel.peers
      term := hsaved.term.trans h.rel.term
      entries := hentries.trans hlog.symm
      vote := hsaved.vote.trans h.rel.vote
      committed := ⟨Nat.zero_le _, Or.inl rfl⟩
      candidate := nofun
      leader := nofun }
  · show x.log.reopen.SavedAs x.log.reopen.currentTerm x.log.reopen.votedFor (H.saved i)
    rw [hsaved.term, hsaved.vote]
    exact hsaved
  · -- nothing was unsaved, so the log that comes back is the one that was applied
    intro hsm
    have ha := h.applied hsm
    have hidx : appliedIndex x.sm = x.lastApplied := ha.index
    have hsame : (H.lose i).log i = H.log i := hlog.trans (h.synced hsm)
    refine ⟨?_, ?_, rfl⟩
    · show Settled (H.lose i) i (appliedIndex x.sm)
      rw [hidx]
      refine ⟨by rw [hsame]; exact ha.settled.1, ?_⟩
      rw [hsame]
      exact ha.settled.2.mono (extends_logs _ _) le_rfl
    · show x.applied = callsOf (((H.lose i).log i).take (appliedIndex x.sm))
      rw [hidx, hsame]
      exact ha.calls
  · exact fun _ => hlog.symm

/-! ## Elections -/

/-- The vote requests of a candidate are justified by the log it stood with. -/
theorem NodeOk.requestVotes (h : NodeOk H i x) (hrole : x.role = .candidate) :
    NodeOk H i x.requestVotes := by
  obtain ⟨-, hst, -⟩ := h.rel.candidate hrole
  have key : ∀ (ps : List (Fin size)) (y : RaftNode (Fin size) κ σ), (∀ p ∈ ps, p ≠ i) →
      NodeOk H i y → y.role = .candidate →
      NodeOk H i (ps.foldl (fun n peer => n.send peer (.requestVote {
        term := n.currentTerm
        candidateId := n.nodeId
        lastLogIndex := n.log.lastIndex
        lastLogTerm := n.log.lastTerm })) y) := by
    intro ps
    induction ps with
    | nil => exact fun y _ hy _ => hy
    | cons p ps ih =>
      intro y hps hy hyrole
      have hyterm : y.currentTerm = H.term i := hy.rel.term
      have hyentries : y.log.entries = H.log i := hy.rel.entries
      refine ih _ (fun q hq => hps q (.tail _ hq)) (hy.send ?_) hyrole
      refine ⟨(hps p (.head _)).symm, hy.rel.nodeId, H.log i, ?_, ?_, ?_⟩
      · show H.stood i y.currentTerm = _
        rw [hyterm]
        exact hst
      · show _ = y.log.entries.length
        rw [hyentries]
      · show _ = y.log.lastTerm
        rw [RaftLog.lastTerm_eq, hyentries]
  refine key x.peers x (fun p hp => ?_) h hrole
  have hpeers : x.peers = peersOf i := h.rel.peers
  rw [hpeers, mem_peersOf] at hp
  exact hp

variable [RaftCommand κ]

section

variable (h : NodeOk H i x) (hI : Inv (maj size) H)
include h hI

/-- A candidate with a majority becomes leader: it wins, appends its no-op,
broadcasts it, and commits at once if it is alone. -/
theorem NodeOk.becomeLeader (hrole : x.role = .candidate) (hmaj : x.hasMajority x.votes.card) :
    Simulated H i (RaftNode.becomeLeader x) := by
  have hpeers : x.peers = peersOf i := h.rel.peers
  have hterm : x.currentTerm = H.term i := h.rel.term
  have hentries : x.log.entries = H.log i := h.rel.entries
  have hsize : x.clusterSize = size := by
    unfold RaftNode.clusterSize
    rw [hpeers]
    exact length_peersOf i
  have hmaj' : size / 2 + 1 ≤ x.votes.card := by
    have hm : x.clusterSize / 2 + 1 ≤ x.votes.card := hmaj
    omega
  let y0 : RaftNode (Fin size) κ σ :=
    { x with
      role := .leader
      leaderId := some x.nodeId
      nextIndex := fun peer => if peer ∈ x.peers then some (x.log.lastIndex + 1) else none
      matchIndex := fun peer => if peer ∈ x.peers then some 0 else none
      heartbeatElapsed := 0
      log := x.log.appendNew ⟨x.currentTerm, RaftCommand.noop⟩ }
  obtain ⟨hrun, hrel⟩ := h.rel.lead hI hrole hmaj' (e := ⟨x.currentTerm, RaftCommand.noop⟩) hterm
    y0.nextIndex
    (by
      intro p hp
      have hmem : p ∈ x.peers := by
        rw [hpeers, mem_peersOf]
        exact hp
      simp [y0, hmem, RaftLog.lastIndex, hentries])
    y0.matchIndex
    (by
      intro p
      simp only [y0]
      split_ifs <;> rfl)
  obtain ⟨hrun', hy⟩ := h.persist (y := y0) hI hrun hrel rfl ⟨rfl, rfl, rfl⟩
  have hI' := hI.run hrun'
  obtain ⟨y1, hbr, hy1, hrole1⟩ := hy.broadcastAppend hI' rfl
  refine Simulated.of_run hrun' ?_
  have hseq : RaftNode.becomeLeader x
      = (RaftNode.broadcastAppend >>= fun _ => RaftNode.maybeAdvanceCommit) y0.persist := rfl
  rw [hseq, run_bind, hbr]
  exact hy1.maybeAdvanceCommit hI' hrole1

theorem NodeOk.becomeCandidate :
    Simulated H i (RaftNode.becomeCandidate x) := by
  have hterm : x.currentTerm = H.term i := h.rel.term
  have hid : x.nodeId = i := h.rel.nodeId
  let y0 : RaftNode (Fin size) κ σ := resetElectionTimer
    { x with
      role := .candidate
      currentTerm := x.currentTerm + 1
      votedFor := some x.nodeId
      leaderId := none
      votes := {x.nodeId} }
  have hrel : NodeRel (H.stand i) i y0.view := by
    have hview : y0.view = { x.view with
        term := H.term i + 1, vote := some i, role := .candidate, votes := {i} } := by
      simp [y0, RaftNode.view, resetElectionTimer, hid, hterm]
    rw [hview]
    exact h.rel.stand hI
  obtain ⟨hrun, hy⟩ := h.persist (y := y0) hI (ReflTransGen.single (Step.stand i)) hrel rfl
    ⟨rfl, rfl, rfl⟩
  have hI' := hI.run hrun
  refine Simulated.of_run hrun ?_
  have hseq : RaftNode.becomeCandidate x
      = (if y0.persist.hasMajority y0.persist.votes.card then RaftNode.becomeLeader y0.persist
          else .ok ⟨⟩ y0.persist.requestVotes) := by
    simp only [RaftNode.becomeCandidate, run_bind, run_modify, run_get]
    split_ifs <;> rfl
  rw [hseq]
  split_ifs with hmaj
  · exact hy.becomeLeader hI' rfl hmaj
  · exact Simulated.of_ok (hy.requestVotes rfl) _

theorem NodeOk.handleRequestVoteReply {reply : RequestVoteReply}
    (hj : Justified H ⟨src, i, .requestVoteReply reply⟩) :
    Simulated H i (RaftNode.handleRequestVoteReply src reply x) := by
  have hterm : x.currentTerm = H.term i := h.rel.term
  simp only [RaftNode.handleRequestVoteReply, run_bind, run_get]
  by_cases hlt : x.currentTerm < reply.term
  · rw [if_pos hlt, run_modify]
    obtain ⟨hrun, hok⟩ := h.becomeFollower hI hlt
    exact Simulated.of_run hrun (Simulated.of_ok hok _)
  rw [if_neg hlt]
  by_cases hskip : x.role ≠ .candidate ∨ reply.term < x.currentTerm
  · rw [if_pos hskip]
    exact Simulated.of_ok h _
  rw [if_neg hskip]
  push Not at hskip
  obtain ⟨hrole, hge⟩ := hskip
  have hrt : reply.term = H.term i := by omega
  by_cases hg : reply.voteGranted = true
  · rw [if_pos hg]
    -- the counted vote was really cast, in this term and for this node
    have hvote : H.vote src (H.term i) = some i := by
      rw [← hrt]
      exact hj.2 hg
    let y : RaftNode (Fin size) κ σ := { x with votes := insert src x.votes }
    have hy : NodeOk H i y := by
      obtain ⟨hnot, hst, hvotes⟩ := h.rel.candidate hrole
      exact { h with rel := { h.rel with
        candidate := by
          intro _
          refine ⟨hnot, hst, fun u hu => ?_⟩
          have hu' : u ∈ insert src x.votes := hu
          rw [Finset.mem_insert] at hu'
          rcases hu' with rfl | hu'
          · exact hvote
          · exact hvotes u hu'
        leader := by
          intro hr
          have hr' : x.role = .leader := hr
          rw [hrole] at hr'
          cases hr' } }
    simp only [run_bind, run_modify, run_get]
    by_cases hmaj : y.hasMajority y.votes.card
    · rw [if_pos hmaj]
      exact hy.becomeLeader hI hrole hmaj
    · rw [if_neg hmaj]
      exact Simulated.of_ok hy _
  · rw [if_neg hg]
    exact Simulated.of_ok h _

/-! ## The driving API -/

theorem NodeOk.tick :
    SimulatedOut H i (RaftNode.tick x) := by
  have h0 := h.clearOutbox
  have hbeats (n : ℕ) : NodeOk H i { x with outbox := [], heartbeatElapsed := n } := { h0 with }
  have hwaits : NodeOk H i { x with outbox := [], electionElapsed := x.electionElapsed + 1 } :=
    { h0 with }
  simp only [RaftNode.tick, run_bind, run_modify, run_get]
  split_ifs with hrole hbeat htime
  · obtain ⟨y, hbr, hy, -⟩ := (hbeats 0).broadcastAppend hI hrole
    refine Simulated.drain (m := RaftNode.broadcastAppend) ?_
    rw [hbr]
    exact Simulated.of_ok hy _
  · exact Simulated.drain (m := pure ()) (Simulated.of_ok (hbeats _) _)
  · exact (hwaits.becomeCandidate hI).drain
  · exact Simulated.drain (m := pure ()) (Simulated.of_ok hwaits _)

theorem NodeOk.step {env : Envelope (Fin size) κ} (hdst : env.dst = i) (hj : Justified H env) : SimulatedOut H i (RaftNode.step env x) := by
  have h0 := h.clearOutbox
  obtain ⟨src, dst, body⟩ := env
  obtain rfl : dst = i := hdst
  cases body with
  | requestVote rv =>
    exact Simulated.drain (m := modify (RaftNode.handleRequestVote · src rv))
      (h0.handleRequestVote hI hj)
  | requestVoteReply reply => exact Simulated.drain (h0.handleRequestVoteReply hI hj)
  | appendEntries ae => exact Simulated.drain (h0.handleAppendEntries hI hj)
  | appendEntriesReply reply => exact Simulated.drain (h0.handleAppendEntriesReply hI hj)

end

end Methods

/-! ## The cluster -/

/-- The cluster agrees with the history, which satisfies its invariant. -/
structure ClusterRel (H : ClusterHistory size κ) (c : RaftCluster size κ σ) : Prop where
  inv : Inv (maj size) H
  nodes : ∀ i, NodeOk H i (c.nodes i)
  sent : ∀ env ∈ c.sent, Justified H env

section Cluster

variable {c c' : RaftCluster size κ σ} {H : ClusterHistory size κ}

theorem clusterRel_init (h : c.IsInit) : ClusterRel History.init c := by
  obtain ⟨config, path, rng, sm, hsm, rfl⟩ := h
  refine ⟨Inv.init, fun i => ?_, by simp [RaftCluster.init]⟩
  have hlog : (RaftLog.new (path i) none : RaftLog (Fin size) κ).entries = [] := by
    cases path i <;> rfl
  have hsaved : (RaftLog.new (path i) none : RaftLog (Fin size) κ).Synced 0 none :=
    RaftLog.synced_new (path i)
  refine ⟨?_, ?_, by simp [RaftCluster.init, RaftNode.new, resetElectionTimer], ?_,
    fun _ => rfl, fun _ => ⟨le_rfl, [], (hsm i).symm, ChosenBy.nil _⟩⟩
  · exact {
      nodeId := rfl
      peers := rfl
      term := hsaved.term
      entries := hlog
      vote := hsaved.vote
      committed := ⟨Nat.zero_le _, Or.inl rfl⟩
      candidate := nofun
      leader := nofun }
  · show (RaftLog.new (path i) none).SavedAs (RaftLog.new (path i) none).currentTerm
      (RaftLog.new (path i) none).votedFor []
    rw [hsaved.term, hsaved.vote, ← hlog]
    exact hsaved
  · refine fun _ => ⟨⟨(hsm i).le, Or.inl List.take_nil⟩, ?_, rfl⟩
    show ([] : List (ℕ × κ)) = callsOf (([] : List (LogEntry κ)).take _)
    rw [List.take_nil]
    rfl

/-- A node the moves of another one do not touch. -/
theorem NodeOk.frame {H' : ClusterHistory size κ} {i j : Fin size} {x : RaftNode (Fin size) κ σ}
    (h : NodeOk H j x) (hI : Inv (maj size) H) (hrun : Run (maj size) i H H') (hj : j ≠ i) :
    NodeOk H' j x := by
  have hext := hI.run_extends hrun
  have hf := hrun.frame
  refine ⟨h.rel.frame hext hf hj, ?_, fun env henv => (h.out env henv).mono hext,
    fun hsm => (h.applied hsm).run hI hrun, fun hsm => ?_, fun htr => (h.bound htr).mono hext⟩
  · rw [hf.saved j hj]
    exact h.saved
  · rw [hf.saved j hj, hf.log j hj]
    exact h.synced hsm

/-- One node moves, the others and the envelopes in flight keep their agreement. -/
theorem ClusterRel.perform (h : ClusterRel H c) {i : Fin size} {H1 : ClusterHistory size κ}
    (hrun1 : Run (maj size) i H H1) {m : NodeM (Fin size) κ σ (List (Envelope (Fin size) κ))}
    (hm : SimulatedOut H1 i (m (c.nodes i))) :
    ∃ H', Run (maj size) i H1 H' ∧ ClusterRel H' (c.perform i m) := by
  obtain ⟨H', hrun', hok, -, hout⟩ := hm
  have hrun := hrun1.trans hrun'
  have hext := h.inv.run_extends hrun
  refine ⟨H', hrun', h.inv.run hrun, forall_perform (p := NodeOk H') hok fun j hj =>
    (h.nodes j).frame h.inv hrun hj, fun env henv => ?_⟩
  rcases mem_sent_perform henv with henv | ⟨out, x', hr, henv⟩
  · exact (h.sent env henv).mono hext
  · exact hout out x' hr env henv

theorem ClusterRel.restart (h : ClusterRel H c) (i : Fin size) (rng : ℕ → ℕ) :
    ClusterRel (H.lose i)
      { c with nodes := update c.nodes i (restartNode (c.nodes i) rng) } := by
  have hext : Extends H (H.lose i) := extends_logs _ _
  refine ⟨h.inv.lose i, (forall_update_iff c.nodes (NodeOk (H.lose i))).mpr
    ⟨(h.nodes i).restart rng, fun j hj => ?_⟩, fun env henv => (h.sent env henv).mono hext⟩
  have hjok := h.nodes j
  have hlog : (H.lose i).log j = H.log j := by simp [History.lose, hj]
  refine ⟨hjok.rel.keep hext rfl hlog rfl id, hjok.saved,
    fun env henv => (hjok.out env henv).mono hext, fun hsm => ?_, fun hsm => ?_,
    fun htr => (hjok.bound htr).mono hext⟩
  · have ha := hjok.applied hsm
    refine ⟨⟨by rw [hlog]; exact ha.settled.1, ?_⟩, by rw [hlog]; exact ha.calls, ha.index⟩
    rw [hlog]
    exact ha.settled.2.mono hext le_rfl
  · rw [hlog]
    exact hjok.synced hsm

variable [RaftCommand κ]

/-- A step other than a restart is a run of moves of one member. -/
theorem ClusterRel.run (h : ClusterRel H c) (ev : ClusterEvent size κ) (hen : c.Enabled ev)
    (hev : ∀ i rng, ev ≠ .restart i rng) :
    ∃ i H', Run (maj size) i H H' ∧ ClusterRel H' (c.step ev) := by
  cases ev with
  | tick i => exact ⟨i, h.perform ReflTransGen.refl ((h.nodes i).tick h.inv)⟩
  | deliver env =>
    exact ⟨env.dst, h.perform ReflTransGen.refl
      ((h.nodes env.dst).step h.inv rfl (h.sent env hen))⟩
  | propose i command =>
    obtain ⟨hrun, hsim⟩ := (h.nodes i).propose h.inv hen command
    obtain ⟨H', hrun', hrel⟩ := h.perform hrun hsim
    exact ⟨i, H', hrun.trans hrun', hrel⟩
  | restart i rng => exact absurd rfl (hev i rng)

/-- **Simulation.**  Every step of a cluster is a run of moves, or a restart, of
one member. -/
theorem ClusterRel.step (h : ClusterRel H c) (hs : Step c c') :
    ∃ H', History.Steps (maj size) H H' ∧ ClusterRel H' c' := by
  obtain ⟨ev, hen, rfl⟩ := hs
  by_cases hev : ∃ i rng, ev = .restart i rng
  · obtain ⟨i, rng, rfl⟩ := hev
    exact ⟨H.lose i, steps_lose i, h.restart i rng⟩
  · push Not at hev
    obtain ⟨i, H', hrun, hrel⟩ := h.run ev hen hev
    exact ⟨H', hrun.steps, hrel⟩

theorem ClusterRel.steps (h : ClusterRel H c) (hs : RaftCluster.Steps c c') :
    ∃ H', History.Steps (maj size) H H' ∧ ClusterRel H' c' :=
  simulation_of_run (R := fun c H => ClusterRel H c) (fun _ _ _ hR hstep => hR.step hstep) hs h

/-- Every cluster a run reaches agrees with some history. -/
theorem clusterRel_of_run (hinit : c.IsInit) (hs : RaftCluster.Steps c c') :
    ∃ H, ClusterRel H c' := by
  obtain ⟨H, -, hrel⟩ := (clusterRel_init hinit).steps hs
  exact ⟨H, hrel⟩

end Cluster
