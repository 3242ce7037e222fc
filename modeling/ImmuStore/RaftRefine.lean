/-
# Clusters refine histories: the relation

How a cluster is read as a history of `TermHistory`.  `NodeRel` relates one node
to the history: term, log and vote are the history's; a candidate stood with its
log and its collected votes were cast; a leader won its term and its match indices
are acknowledged; what is committed or applied is chosen.  `Justified` reads an
envelope as a stable fact about the history, so an envelope stays justified
however late it is delivered (`Justified.mono`).

The moves of a node's own history are then `NodeRel.raise`, `NodeRel.stand`,
`NodeRel.lead`, `NodeRel.append`, `NodeRel.hold` and `NodeRel.commit`.  What is
committed or applied stays so by `Settled.run`, whatever the moves are.
-/
import ImmuStore.RaftCluster
import ImmuStore.TermHistoryStep

open History RaftCluster

variable {size : ℕ} {κ σ : Type}

/-- Histories of a cluster of `size` nodes. -/
abbrev ClusterHistory (size : ℕ) (κ : Type) := History (Fin size) (LogEntry κ)

/-- The quorums of a cluster are its majorities. -/
abbrev maj (size : ℕ) : QuorumSystem (Fin size) := majority (Fin size)

/-! ## Envelopes -/

/-- What an envelope says about the history it was sent in. -/
def Justified (H : ClusterHistory size κ) (env : Envelope (Fin size) κ) : Prop :=
  env.src ≠ env.dst ∧ match env.body with
  | .requestVote rv => rv.candidateId = env.src ∧
      ∃ L, H.stood env.src rv.term = some L ∧ L.length = rv.lastLogIndex ∧
        lastStamp L = rv.lastLogTerm
  | .requestVoteReply reply => reply.voteGranted = true → H.vote env.src reply.term = some env.dst
  | .appendEntries ae => H.leader ae.term = some env.src ∧
      ∃ n, n ≤ (H.lead ae.term).length ∧ ae.prevLogIndex ≤ n ∧
        ae.entries = ((H.lead ae.term).take n).drop ae.prevLogIndex ∧
        ((ae.prevLogIndex = 0 ∧ ae.prevLogTerm = 0) ∨
          ∃ e, (H.lead ae.term)[ae.prevLogIndex - 1]? = some e ∧ ae.prevLogTerm = e.term) ∧
        ae.leaderCommit ≤ n ∧
        ChosenBy (maj size) H ae.term ((H.lead ae.term).take ae.leaderCommit)
  | .appendEntriesReply reply => reply.success = true →
      reply.matchIndex ≤ H.acked env.src reply.term

theorem Justified.mono {H H' : ClusterHistory size κ} (hext : Extends H H')
    {env : Envelope (Fin size) κ} (h : Justified H env) : Justified H' env := by
  obtain ⟨hne, hbody⟩ := h
  refine ⟨hne, ?_⟩
  cases henv : env.body with
  | requestVote rv =>
    rw [henv] at hbody
    obtain ⟨hc, L, hst, hlen, hlast⟩ := hbody
    exact ⟨hc, L, hext.stood _ _ _ hst, hlen, hlast⟩
  | requestVoteReply reply =>
    rw [henv] at hbody
    exact fun hg => hext.vote _ _ _ (hbody hg)
  | appendEntries ae =>
    rw [henv] at hbody
    obtain ⟨hl, n, hn, hpn, hes, hprev, hlc, hch⟩ := hbody
    refine ⟨hext.leader _ _ hl, n, hn.trans (hext.lead _).length_le, hpn, ?_, ?_, hlc, ?_⟩
    · rw [take_eq_of_isPrefix (hext.lead _) hn]
      exact hes
    · rcases hprev with hprev | ⟨e, he, ht⟩
      · exact Or.inl hprev
      · exact Or.inr ⟨e, getElem?_of_isPrefix (hext.lead _) he, ht⟩
    · rw [take_eq_of_isPrefix (hext.lead _) (hlc.trans hn)]
      exact hch.mono hext le_rfl
  | appendEntriesReply reply =>
    rw [henv] at hbody
    exact fun hs => (hbody hs).trans (hext.acked_le _ _)

/-! ## Nodes -/

/-- The part of a node the history speaks about. -/
structure NodeView (size : ℕ) (κ : Type) where
  nodeId : Fin size
  peers : List (Fin size)
  term : ℕ
  vote : Option (Fin size)
  entries : List (LogEntry κ)
  role : Role
  commitIndex : ℕ
  votes : Finset (Fin size)
  nextIndex : Fin size → Option ℕ
  matchIndex : Fin size → Option ℕ

def RaftNode.view (x : RaftNode (Fin size) κ σ) : NodeView size κ where
  nodeId := x.nodeId
  peers := x.peers
  term := x.currentTerm
  vote := x.votedFor
  entries := x.log.entries
  role := x.role
  commitIndex := x.commitIndex
  votes := x.votes
  nextIndex := x.nextIndex
  matchIndex := x.matchIndex

/-- What the history knows about a leader. -/
structure LeaderRel (H : ClusterHistory size κ) (i : Fin size) (v : NodeView size κ) : Prop where
  won : H.leader (H.term i) = some i
  acked : (H.log i).length ≤ H.acked i (H.term i)
  next : ∀ p, p ≠ i → ∃ k, v.nextIndex p = some k ∧ 1 ≤ k ∧ k ≤ (H.log i).length + 1
  matched : ∀ p, (v.matchIndex p).getD 0 ≤ H.acked p (H.term i)

/-- The first `k` entries of the log of `i` are chosen. -/
def Settled (H : ClusterHistory size κ) (i : Fin size) (k : ℕ) : Prop :=
  k ≤ (H.log i).length ∧ ChosenBy (maj size) H (H.term i) ((H.log i).take k)

/-- The node `i`, seen as `v`, agrees with the history. -/
structure NodeRel (H : ClusterHistory size κ) (i : Fin size) (v : NodeView size κ) : Prop where
  nodeId : v.nodeId = i
  peers : v.peers = peersOf i
  term : v.term = H.term i
  entries : v.entries = H.log i
  vote : v.vote = H.vote i (H.term i)
  committed : Settled H i v.commitIndex
  candidate : v.role = .candidate → H.leader (H.term i) ≠ some i ∧
    H.stood i (H.term i) = some (H.log i) ∧ ∀ u ∈ v.votes, H.vote u (H.term i) = some i
  leader : v.role = .leader → LeaderRel H i v

/-- The `calls` the node `i` has made of its state machine, which is at `index`, are
those of its log up to `last`, and that much is chosen. -/
structure AppliedRel (H : ClusterHistory size κ) (i : Fin size) (last : ℕ) (calls : List (ℕ × κ))
    (index : ℕ) : Prop where
  settled : Settled H i last
  calls : calls = callsOf ((H.log i).take last)
  index : index = last

/-- As many entries are chosen as the node `i` counts as applied, and its state
machine, which is at `index`, is not ahead of that. -/
def AppliedBound (H : ClusterHistory size κ) (i : Fin size) (last index : ℕ) : Prop :=
  index ≤ last ∧ ∃ P, P.length = last ∧ ChosenBy (maj size) H (H.term i) P

/-! ## What is settled stays settled -/

section Settled

variable {H H' : ClusterHistory size κ} {i : Fin size}
variable {j : Fin size} {last index k : ℕ}

theorem Settled.run (hI : Inv (maj size) H) (hrun : Run (maj size) j H H') (h : Settled H i k) :
    Settled H' i k ∧ (H'.log i).take k = (H.log i).take k := by
  obtain ⟨hk, hch⟩ := h
  obtain ⟨hch', hpre⟩ := hch.run hI hrun (List.take_prefix _ _)
  have hlen : ((H.log i).take k).length = k := List.length_take_of_le hk
  have htake : (H'.log i).take k = (H.log i).take k := by
    rw [take_eq_of_isPrefix hpre hlen.ge, List.take_take, min_self]
  refine ⟨⟨?_, ?_⟩, htake⟩
  · have := hpre.length_le
    omega
  · rw [htake]
    exact hch'

theorem Settled.step (hI : Inv (maj size) H) (hs : Step (maj size) j H H') (h : Settled H i k) :
    Settled H' i k :=
  (h.run hI (Relation.ReflTransGen.single hs)).1

theorem AppliedRel.run (hI : Inv (maj size) H) (hrun : Run (maj size) j H H') {calls : List (ℕ × κ)}
    (h : AppliedRel H i last calls index) :
    AppliedRel H' i last calls index := by
  obtain ⟨hset, htake⟩ := h.settled.run hI hrun
  refine ⟨hset, ?_, h.index⟩
  rw [htake]
  exact h.calls

theorem AppliedBound.mono (hext : Extends H H') (h : AppliedBound H i last index) :
    AppliedBound H' i last index := by
  obtain ⟨hle, P, hlen, hch⟩ := h
  exact ⟨hle, P, hlen, hch.mono hext (hext.term_le i)⟩

/-- A restart resumes from the state machine's index. -/
theorem AppliedBound.resume (h : AppliedBound H i last index) : AppliedBound H i index index := by
  obtain ⟨hle, P, hlen, hch⟩ := h
  exact ⟨le_rfl, P.take index, List.length_take_of_le (by omega),
    hch.of_isPrefix (List.take_prefix _ _)⟩

end Settled

/-! ## The moves of a node -/

section NodeRel

variable {H H' : ClusterHistory size κ} {i : Fin size} {v : NodeView size κ}
variable {e : LogEntry κ}

section

variable (h : NodeRel H i v)
include h

section

variable (hext : Extends H H') (hterm : H'.term i = H.term i) (hlog : H'.log i = H.log i)
include hext hterm hlog

/-- Growth of the history does not disturb a node whose term and log it keeps;
only its vote is read off again. -/
theorem NodeRel.mono (hlead : H'.leader (H.term i) = some i → H.leader (H.term i) = some i) :
    NodeRel H' i { v with vote := H'.vote i (H.term i) } where
  nodeId := h.nodeId
  peers := h.peers
  term := by rw [hterm]; exact h.term
  entries := by rw [hlog]; exact h.entries
  vote := by rw [hterm]
  committed := by
    obtain ⟨hk, hch⟩ := h.committed
    refine ⟨by rw [hlog]; exact hk, ?_⟩
    rw [hterm, hlog]
    exact hch.mono hext le_rfl
  candidate := by
    intro hrole
    obtain ⟨hne, hst, hvotes⟩ := h.candidate hrole
    rw [hterm, hlog]
    exact ⟨fun hl => hne (hlead hl), hext.stood _ _ _ hst,
      fun u hu => hext.vote _ _ _ (hvotes u hu)⟩
  leader := by
    intro hrole
    obtain ⟨hwon, hack, hnext, hmatch⟩ := h.leader hrole
    refine ⟨?_, ?_, ?_, ?_⟩
    · rw [hterm]
      exact hext.leader _ _ hwon
    · rw [hterm, hlog]
      exact hack.trans (hext.acked_le _ _)
    · rw [hlog]
      exact hnext
    · rw [hterm]
      exact fun p => (hmatch p).trans (hext.acked_le _ _)

/-- A node is not disturbed where its term, log and vote are kept. -/
theorem NodeRel.keep (hvote : H'.vote i (H.term i) = H.vote i (H.term i))
    (hlead : H'.leader (H.term i) = some i → H.leader (H.term i) = some i) : NodeRel H' i v := by
  have hm := h.mono hext hterm hlog hlead
  rw [hvote, ← h.vote] at hm
  exact hm

end

/-- Another node's moves do not disturb a node. -/
theorem NodeRel.frame (hext : Extends H H') {j : Fin size} (hf : Frame j H H') (hij : i ≠ j) : NodeRel H' i v :=
  h.keep hext (hf.term i hij) (hf.log i hij) (hf.vote i hij _) (hf.leader i hij _)

theorem NodeRel.save : NodeRel (H.save i) i v :=
  h.keep (extends_logs _ _) rfl rfl rfl id

theorem NodeRel.ack (n : ℕ) : NodeRel (H.ack i n) i v :=
  h.keep (extends_ack i n) rfl rfl rfl id

section

variable (hI : Inv (maj size) H)
include hI

/-- Moving to a later term makes the node a follower without a vote. -/
theorem NodeRel.raise {T : ℕ} (hT : H.term i < T) :
    NodeRel (H.raise i T) i { v with term := T, vote := none, role := .follower } := by
  have hterm : (H.raise i T).term i = T := by simp [History.raise]
  exact {
    nodeId := h.nodeId
    peers := h.peers
    term := hterm.symm
    entries := h.entries
    vote := by
      rw [hterm]
      exact (hI.vote_none hT).symm
    committed := h.committed.step hI (Step.raise i T hT)
    candidate := by
      intro hrole
      cases hrole
    leader := by
      intro hrole
      cases hrole }

/-- Standing opens the next term with the node's own vote. -/
theorem NodeRel.stand :
    NodeRel (H.stand i) i
      { v with term := H.term i + 1, vote := some i, role := .candidate, votes := {i} } := by
  have hterm : (H.stand i).term i = H.term i + 1 := by simp [History.stand]
  have hvote : (H.stand i).vote i (H.term i + 1) = some i := by simp [History.stand]
  exact {
    nodeId := h.nodeId
    peers := h.peers
    term := hterm.symm
    entries := h.entries
    vote := by rw [hterm, hvote]
    committed := h.committed.step hI (Step.stand i)
    candidate := by
      intro _
      rw [hterm]
      refine ⟨fun hl => ?_, by simp [History.stand], ?_⟩
      · have := hI.leader_le (show H.leader (H.term i + 1) = some i from hl)
        omega
      · intro u hu
        rw [Finset.mem_singleton] at hu
        rw [hu, hvote]
    leader := by
      intro hrole
      cases hrole }

/-- A candidate with a majority wins its term and appends the first entry of it. -/
theorem NodeRel.lead (hrole : v.role = .candidate) (hmaj : size / 2 + 1 ≤ v.votes.card)
    (he : e.term = H.term i) (next : Fin size → Option ℕ)
    (hnext : ∀ p, p ≠ i → next p = some ((H.log i).length + 1)) (match' : Fin size → Option ℕ)
    (hmatch : ∀ p, (match' p).getD 0 = 0) :
    Run (maj size) i H ((H.win i).extend i e) ∧
      NodeRel ((H.win i).extend i e) i
        { v with
          entries := v.entries ++ [e]
          role := .leader
          nextIndex := next
          matchIndex := match' } := by
  obtain ⟨hnot, hst, hvotes⟩ := h.candidate hrole
  have hquorum : (maj size).IsQuorum v.votes := by
    show Fintype.card (Fin size) / 2 + 1 ≤ v.votes.card
    rw [Fintype.card_fin]
    exact hmaj
  have hstep1 : Step (maj size) i H (H.win i) := Step.win i v.votes hst hnot hquorum hvotes
  have hwon : (H.win i).leader ((H.win i).term i) = some i := by simp [History.win]
  have hstep2 : Step (maj size) i (H.win i) ((H.win i).extend i e) := Step.extend i e hwon he
  have hrun : Run (maj size) i H ((H.win i).extend i e) :=
    (Relation.ReflTransGen.single hstep1).tail hstep2
  have hlog : ((H.win i).extend i e).log i = H.log i ++ [e] := by
    simp [History.extend, History.win]
  refine ⟨hrun, ?_⟩
  exact {
    nodeId := h.nodeId
    peers := h.peers
    term := h.term
    entries := by
      rw [hlog]
      exact congrArg (· ++ [e]) h.entries
    vote := h.vote
    committed := (h.committed.run hI hrun).1
    candidate := by
      intro hr
      cases hr
    leader := by
      intro _
      refine ⟨hwon, ?_, ?_, ?_⟩
      · rw [hlog]
        simp [History.extend, History.win]
      · intro p hp
        refine ⟨_, hnext p hp, by omega, ?_⟩
        rw [hlog, List.length_append]
        exact Nat.le_succ _
      · intro p
        have : (match' p).getD 0 = 0 := hmatch p
        rw [this]
        exact Nat.zero_le _ }

/-- A leader appends a client's entry. -/
theorem NodeRel.append (hrole : v.role = .leader) (he : e.term = H.term i) :
    Run (maj size) i H (H.extend i e) ∧
      NodeRel (H.extend i e) i { v with entries := v.entries ++ [e] } := by
  have hL := h.leader hrole
  have hstep : Step (maj size) i H (H.extend i e) := Step.extend i e hL.won he
  have hext : Extends H (H.extend i e) := hI.step_extends hstep
  have hlog : (H.extend i e).log i = H.log i ++ [e] := by simp [History.extend]
  refine ⟨Relation.ReflTransGen.single hstep, ?_⟩
  exact {
    nodeId := h.nodeId
    peers := h.peers
    term := h.term
    entries := by
      rw [hlog]
      exact congrArg (· ++ [e]) h.entries
    vote := h.vote
    committed := h.committed.step hI hstep
    candidate := by
      intro hr
      have hr' : v.role = .candidate := hr
      rw [hrole] at hr'
      cases hr'
    leader := by
      intro _
      refine ⟨hL.won, ?_, ?_, ?_⟩
      · rw [hlog, hI.own i hL.won]
        simp [History.extend]
      · intro p hp
        obtain ⟨k, hk, hk1, hk2⟩ := hL.next p hp
        refine ⟨k, hk, hk1, ?_⟩
        rw [hlog, List.length_append]
        exact hk2.trans (Nat.le_succ _)
      · exact fun p => (hL.matched p).trans (hext.acked_le _ _) }

/-- A follower takes over the first `n` entries of its leader. -/
theorem NodeRel.hold (hrole : v.role = .follower) {l : Fin size} (hl : H.leader (H.term i) = some l)
    (hne : l ≠ i) (n : ℕ) :
    NodeRel (H.hold i n) i { v with entries := (H.hold i n).log i } where
  nodeId := h.nodeId
  peers := h.peers
  term := h.term
  entries := rfl
  vote := h.vote
  committed := h.committed.step hI (Step.hold i l n hl hne)
  candidate := by
    intro hr
    have hr' : v.role = .candidate := hr
    rw [hrole] at hr'
    cases hr'
  leader := by
    intro hr
    have hr' : v.role = .leader := hr
    rw [hrole] at hr'
    cases hr'

end

/-- The commit index may move to any chosen prefix of the log. -/
theorem NodeRel.commit {k : ℕ} (hk : Settled H i k) :
    NodeRel H i { v with commitIndex := k } :=
  { h with
    committed := hk
    leader := fun hr => ⟨(h.leader hr).won, (h.leader hr).acked, (h.leader hr).next,
      (h.leader hr).matched⟩ }

end

end NodeRel
