/-
# Safety of the cluster

The safety properties the documentation of the cluster claims, for every cluster
size, every state machine and every run: election safety, log matching, leader
completeness and state machine safety.  All of them are read off the history a
run agrees with (`ClusterRel`); the first three hold also when the state machine
raises in the middle of a handler.

A run is cut at two of its points, `Steps c0 a` and `Steps a b`, where a property
relates what holds at different times.
-/
import ImmuStore.RaftSim

open History RaftCluster Relation

variable {size : ℕ} {κ σ : Type} [StateMachine σ κ] [RaftCommand κ]
variable {c0 a b : RaftCluster size κ σ}
variable {H : ClusterHistory size κ}
variable {env : Envelope (Fin size) κ}

/-- Two points of one run agree with two points of one run of histories. -/
theorem clusterRel_of_run_run (hinit : c0.IsInit) (ha : RaftCluster.Steps c0 a)
    (hab : RaftCluster.Steps a b) :
    ∃ H H', Extends H H' ∧ ClusterRel H a ∧ ClusterRel H' b := by
  obtain ⟨H, hrel⟩ := clusterRel_of_run hinit ha
  obtain ⟨H', hsteps, hrel'⟩ := hrel.steps hab
  exact ⟨H, H', hrel.inv.steps_extends hsteps, hrel, hrel'⟩

/-! ## A run of a cluster of two

The first node stands, gets the vote of the second, and replicates its no-op and then a
command, after which the second node stands. -/

theorem step_deliver (h : env ∈ a.sent) : RaftCluster.Step a (a.step (.deliver env)) :=
  ⟨.deliver env, h, rfl⟩

/-- A cluster of two nodes with election timeouts of one tick. -/
def pairInit : RaftCluster 2 (KVCommand ℕ) (Recorder (KVCommand ℕ)) :=
  init (fun _ => ⟨1, 1, 3⟩) (fun _ => true) (fun _ _ => 0) (fun _ => {})

/-- The second node has voted for the first one, which then leads. -/
def pairLed : RaftCluster 2 (KVCommand ℕ) (Recorder (KVCommand ℕ)) :=
  ((pairInit.step (.tick 0)).step (.deliver ⟨0, 1, .requestVote ⟨1, 0, 0, 0⟩⟩)).step
    (.deliver ⟨1, 0, .requestVoteReply ⟨1, true⟩⟩)

/-- The second node has acknowledged the no-op. -/
def pairMatched : RaftCluster 2 (KVCommand ℕ) (Recorder (KVCommand ℕ)) :=
  (pairLed.step (.deliver ⟨0, 1, .appendEntries ⟨1, 0, 0, 0, [⟨1, .noop⟩], 0⟩⟩)).step
    (.deliver ⟨1, 0, .appendEntriesReply ⟨1, true, 1⟩⟩)

/-- The first node has committed a command, of which the second one knows only that it is in
the log. -/
def pairServed : RaftCluster 2 (KVCommand ℕ) (Recorder (KVCommand ℕ)) :=
  ((pairMatched.step (.propose 0 (.set "x" 1))).step
    (.deliver ⟨0, 1, .appendEntries ⟨1, 0, 1, 1, [⟨1, .set "x" 1⟩], 1⟩⟩)).step
    (.deliver ⟨1, 0, .appendEntriesReply ⟨1, true, 2⟩⟩)

/-- The second node leads in the next term. -/
def pairHanded : RaftCluster 2 (KVCommand ℕ) (Recorder (KVCommand ℕ)) :=
  ((pairServed.step (.tick 1)).step (.deliver ⟨1, 0, .requestVote ⟨2, 1, 2, 1⟩⟩)).step
    (.deliver ⟨0, 1, .requestVoteReply ⟨2, true⟩⟩)

theorem pairInit_isInit : pairInit.IsInit := ⟨_, _, _, _, fun _ => rfl, rfl⟩

theorem steps_pairLed : RaftCluster.Steps pairInit pairLed :=
  ((ReflTransGen.single ⟨.tick 0, trivial, rfl⟩).tail (step_deliver (by decide))).tail
    (step_deliver (by decide))

theorem steps_pairMatched : RaftCluster.Steps pairLed pairMatched :=
  (ReflTransGen.single (step_deliver (by decide))).tail (step_deliver (by decide))

theorem steps_pairServed : RaftCluster.Steps pairMatched pairServed :=
  ((ReflTransGen.single ⟨.propose 0 (.set "x" 1), (by decide : _ = _), rfl⟩).tail
    (step_deliver (by decide))).tail (step_deliver (by decide))

theorem run_pairServed : RaftCluster.Steps pairInit pairServed :=
  (steps_pairLed.trans steps_pairMatched).trans steps_pairServed

theorem steps_pairHanded : RaftCluster.Steps pairServed pairHanded :=
  ((ReflTransGen.single ⟨.tick 1, trivial, rfl⟩).tail (step_deliver (by decide))).tail
    (step_deliver (by decide))

/-! ## Elections and logs -/

omit [RaftCommand κ] in
/-- A node that leads is its term's winner, and its log is that term's leader log. -/
theorem ClusterRel.leader (h : ClusterRel H a) {i : Fin size} (hi : (a.nodes i).role = .leader) :
    H.leader (a.nodes i).currentTerm = some i ∧
      (a.nodes i).log.entries = H.lead (a.nodes i).currentTerm := by
  have hterm : (a.nodes i).currentTerm = H.term i := (h.nodes i).rel.term
  have hentries : (a.nodes i).log.entries = H.log i := (h.nodes i).rel.entries
  have hwon := ((h.nodes i).rel.leader hi).won
  rw [hterm, hentries]
  exact ⟨hwon, h.inv.own i hwon⟩

/-- **Election safety.**  At most one node ever leads in a term. -/
theorem election_safety (hinit : c0.IsInit) (ha : RaftCluster.Steps c0 a)
    (hab : RaftCluster.Steps a b) {i j : Fin size} (hi : (a.nodes i).role = .leader)
    (hj : (b.nodes j).role = .leader)
    (hT : (a.nodes i).currentTerm = (b.nodes j).currentTerm) : i = j := by
  obtain ⟨H, H', hext, hrel, hrel'⟩ := clusterRel_of_run_run hinit ha hab
  have hwon := hext.leader _ _ (hrel.leader hi).1
  rw [hT, (hrel'.leader hj).1] at hwon
  exact (Option.some.inj hwon).symm

theorem election_safety_pair :
    (pairHanded.nodes 1).role = .leader ∧ (pairHanded.nodes 1).currentTerm = 2 ∧
      ∀ j, (pairHanded.nodes j).role = .leader → (pairHanded.nodes j).currentTerm = 2 → 1 = j :=
  ⟨by decide, by decide, fun _ hj hT => election_safety pairInit_isInit
    (run_pairServed.trans steps_pairHanded) ReflTransGen.refl (by decide) hj hT.symm⟩

/-- **Votes are kept.**  The term of a node never goes back, and while it stays the node's
vote is not changed: not by a restart, and not by a handler in which the state machine
raises. -/
theorem votes_are_kept (hinit : c0.IsInit) (ha : RaftCluster.Steps c0 a)
    (hab : RaftCluster.Steps a b) (i : Fin size) :
    (a.nodes i).currentTerm ≤ (b.nodes i).currentTerm ∧
    ∀ c, (a.nodes i).votedFor = some c → (b.nodes i).currentTerm = (a.nodes i).currentTerm →
      (b.nodes i).votedFor = some c := by
  obtain ⟨H, H', hext, hrel, hrel'⟩ := clusterRel_of_run_run hinit ha hab
  have hterm : (a.nodes i).currentTerm = H.term i := (hrel.nodes i).rel.term
  have hterm' : (b.nodes i).currentTerm = H'.term i := (hrel'.nodes i).rel.term
  have hvote : (a.nodes i).votedFor = H.vote i (H.term i) := (hrel.nodes i).rel.vote
  have hvote' : (b.nodes i).votedFor = H'.vote i (H'.term i) := (hrel'.nodes i).rel.vote
  rw [hterm, hterm', hvote, hvote']
  refine ⟨hext.term_le i, fun c hc hT => ?_⟩
  rw [hT]
  exact hext.vote _ _ _ hc

theorem votes_are_kept_pair :
    (pairLed.nodes 1).votedFor = some 0 ∧
      ((pairServed.step (.restart 1 fun _ => 0)).nodes 1).votedFor = some 0 :=
  ⟨by decide, (votes_are_kept pairInit_isInit steps_pairLed
    ((steps_pairMatched.trans steps_pairServed).tail ⟨.restart 1 fun _ => 0, trivial, rfl⟩) 1).2 0
    (by decide) (by decide)⟩

/-- **Log matching.**  In every reachable state, logs with the same term at the same
index (`k + 1`) agree up to that index; and the log of a leader only grows while it
leads. -/
theorem log_matching (hinit : c0.IsInit) (ha : RaftCluster.Steps c0 a)
    (hab : RaftCluster.Steps a b) :
    (∀ (i j : Fin size) (k : ℕ) (e e' : LogEntry κ), (a.nodes i).log.entries[k]? = some e →
      (a.nodes j).log.entries[k]? = some e' → e.term = e'.term →
      (a.nodes i).log.entries.take (k + 1) = (a.nodes j).log.entries.take (k + 1)) ∧
    (∀ i : Fin size, (a.nodes i).role = .leader → (b.nodes i).role = .leader →
      (a.nodes i).currentTerm = (b.nodes i).currentTerm →
      (a.nodes i).log.entries <+: (b.nodes i).log.entries) := by
  obtain ⟨H, H', hext, hrel, hrel'⟩ := clusterRel_of_run_run hinit ha hab
  refine ⟨?_, ?_⟩
  · intro i j k e e' hi hj hterm
    have hlogi : (a.nodes i).log.entries = H.log i := (hrel.nodes i).rel.entries
    have hlogj : (a.nodes j).log.entries = H.log j := (hrel.nodes j).rel.entries
    rw [hlogi] at hi ⊢
    rw [hlogj] at hj ⊢
    exact (hrel.inv.log_holds i).anchored.matching (hrel.inv.log_holds j).anchored hi hj hterm
  · intro i hi hi' hT
    rw [(hrel.leader hi).2, (hrel'.leader hi').2, ← hT]
    exact hext.lead _

theorem log_matching_pair :
    (pairMatched.nodes 1).log.entries.take 1 = (pairMatched.nodes 0).log.entries.take 1 ∧
    (pairServed.nodes 0).log.entries = [⟨1, .noop⟩, ⟨1, .set "x" 1⟩] ∧
    (pairMatched.nodes 0).log.entries <+: (pairServed.nodes 0).log.entries :=
  have h := log_matching pairInit_isInit (steps_pairLed.trans steps_pairMatched) steps_pairServed
  ⟨h.1 1 0 0 ⟨1, .noop⟩ ⟨1, .noop⟩ (by decide) (by decide) rfl, by decide,
    h.2 0 (by decide) (by decide) (by decide)⟩

/-! ## What is committed -/

omit [RaftCommand κ] in
/-- What a node has committed is in the log of every leader of a later term,
whichever of the two points of the run comes first. -/
theorem ClusterRel.committed_prefix {H1 H2 : ClusterHistory size κ} (hI : Inv (maj size) H)
    (h1 : ClusterRel H1 a) (h2 : ClusterRel H2 b) (hext1 : Extends H1 H) (hext2 : Extends H2 H)
    {i j : Fin size} (hj : (b.nodes j).role = .leader)
    (hT : (a.nodes i).currentTerm < (b.nodes j).currentTerm) :
    (a.nodes i).log.entries.take (a.nodes i).commitIndex <+: (b.nodes j).log.entries := by
  have hterm : (a.nodes i).currentTerm = H1.term i := (h1.nodes i).rel.term
  have hentries : (a.nodes i).log.entries = H1.log i := (h1.nodes i).rel.entries
  obtain ⟨-, hch⟩ : Settled H1 i (a.nodes i).commitIndex := (h1.nodes i).rel.committed
  rw [← hterm, ← hentries] at hch
  obtain ⟨hwon, hlog⟩ := h2.leader hj
  obtain ⟨L, M, -, hst, hlead, -⟩ := h2.inv.leader_won _ _ hwon
  rw [hlog, hlead]
  have hpre := (hch.mono hext1 le_rfl).prefix_stood hI hT (hext2.leader _ _ hwon)
    (hext2.stood _ _ _ hst)
  exact hpre.trans (List.prefix_append L M)

/-- Delivering an envelope keeps the committed entries of every node. -/
theorem ClusterRel.take_deliver (h : ClusterRel H a) (hen : env ∈ a.sent) (v : Fin size) :
    ((a.step (.deliver env)).nodes v).log.entries.take (a.nodes v).commitIndex
      = (a.nodes v).log.entries.take (a.nodes v).commitIndex := by
  obtain ⟨i, H', hrun, hrel'⟩ := h.run (.deliver env) hen (by intro i rng hev; cases hev)
  have hset : Settled H v (a.nodes v).commitIndex := (h.nodes v).rel.committed
  have hentries : (a.nodes v).log.entries = H.log v := (h.nodes v).rel.entries
  have hentries' : ((a.step (.deliver env)).nodes v).log.entries = H'.log v :=
    (hrel'.nodes v).rel.entries
  rw [hentries, hentries']
  exact (hset.run h.inv hrun).2

/-- **Leader completeness.**  What a leader of a term has committed is in the log of
every leader of a later term, at whichever points of the run the two are observed;
and no append request removes or replaces an entry its receiver has committed. -/
theorem leader_completeness (hinit : c0.IsInit) (ha : RaftCluster.Steps c0 a)
    (hb : RaftCluster.Steps c0 b) (hab : RaftCluster.Steps a b ∨ RaftCluster.Steps b a) :
    (∀ (i j : Fin size) (index : ℕ), (a.nodes i).role = .leader → (b.nodes j).role = .leader →
      (a.nodes i).currentTerm < (b.nodes j).currentTerm → index ≤ (a.nodes i).commitIndex →
      index ≤ (a.nodes i).log.entries.length ∧
      (a.nodes i).log.entries.take index = (b.nodes j).log.entries.take index) ∧
    (∀ env ∈ a.sent, ∀ v : Fin size,
      ((a.step (.deliver env)).nodes v).log.entries.take (a.nodes v).commitIndex
        = (a.nodes v).log.entries.take (a.nodes v).commitIndex) := by
  refine ⟨?_, ?_⟩
  · intro i j index _ hj hT hindex
    -- the history of the later of the two points records both
    obtain ⟨H, H1, H2, hI, h1, h2, hext1, hext2⟩ : ∃ H H1 H2 : ClusterHistory size κ,
        Inv (maj size) H ∧ ClusterRel H1 a ∧ ClusterRel H2 b ∧ Extends H1 H ∧ Extends H2 H := by
      rcases hab with hab | hba
      · obtain ⟨H, H', hext, hrel, hrel'⟩ := clusterRel_of_run_run hinit ha hab
        exact ⟨H', H, H', hrel'.inv, hrel, hrel', hext, Extends.refl _⟩
      · obtain ⟨H, H', hext, hrel, hrel'⟩ := clusterRel_of_run_run hinit hb hba
        exact ⟨H', H', H, hrel'.inv, hrel', hrel, Extends.refl _, hext⟩
    have hpre := ClusterRel.committed_prefix hI h1 h2 hext1 hext2 hj hT
    have hle : (a.nodes i).commitIndex ≤ (a.nodes i).log.entries.length := by
      have hentries : (a.nodes i).log.entries = H1.log i := (h1.nodes i).rel.entries
      have hset : Settled H1 i (a.nodes i).commitIndex := (h1.nodes i).rel.committed
      rw [hentries]
      exact hset.1
    refine ⟨hindex.trans hle, ?_⟩
    have hlen : ((a.nodes i).log.entries.take (a.nodes i).commitIndex).length
        = (a.nodes i).commitIndex := List.length_take_of_le hle
    rw [take_eq_of_isPrefix hpre (by omega), List.take_take, min_eq_left hindex]
  · intro env henv v
    obtain ⟨H, hrel⟩ := clusterRel_of_run hinit ha
    exact hrel.take_deliver henv v

theorem leader_completeness_pair :
    (pairServed.nodes 0).log.entries.take 2 = [⟨1, .noop⟩, ⟨1, .set "x" 1⟩] ∧
    (pairServed.nodes 0).log.entries.take 2 = (pairHanded.nodes 1).log.entries.take 2 :=
  have h := leader_completeness pairInit_isInit run_pairServed
    (run_pairServed.trans steps_pairHanded) (Or.inl steps_pairHanded)
  ⟨by decide, (h.1 0 1 2 (by decide) (by decide) (by decide) (by decide)).2⟩

/-- **What is committed agrees.**  At any two points of a run, what two nodes have
committed is one a continuation of the other, also if the state machine raises. -/
theorem committed_entries_agree (hinit : c0.IsInit) (ha : RaftCluster.Steps c0 a)
    (hab : RaftCluster.Steps a b) (i j : Fin size) :
    (a.nodes i).commitIndex ≤ (a.nodes i).log.entries.length ∧
    ((a.nodes i).log.entries.take (a.nodes i).commitIndex <+:
        (b.nodes j).log.entries.take (b.nodes j).commitIndex ∨
      (b.nodes j).log.entries.take (b.nodes j).commitIndex <+:
        (a.nodes i).log.entries.take (a.nodes i).commitIndex) := by
  obtain ⟨H, H', hext, hrel, hrel'⟩ := clusterRel_of_run_run hinit ha hab
  have hlog : (a.nodes i).log.entries = H.log i := (hrel.nodes i).rel.entries
  have hlog' : (b.nodes j).log.entries = H'.log j := (hrel'.nodes j).rel.entries
  obtain ⟨hle, hch⟩ : Settled H i (a.nodes i).commitIndex := (hrel.nodes i).rel.committed
  obtain ⟨-, hch'⟩ : Settled H' j (b.nodes j).commitIndex := (hrel'.nodes j).rel.committed
  rw [hlog, hlog']
  -- the later history records what was chosen at the earlier point
  exact ⟨hle, (hch.mono hext le_rfl).comparable hrel'.inv hch'⟩

theorem committed_entries_agree_pair :
    (pairServed.nodes 0).commitIndex = 2 ∧ (pairServed.nodes 1).commitIndex = 1 ∧
    ((pairServed.nodes 0).log.entries.take 2 <+: (pairServed.nodes 1).log.entries.take 1 ∨
      (pairServed.nodes 1).log.entries.take 1 <+: (pairServed.nodes 0).log.entries.take 2) :=
  ⟨by decide, by decide, (committed_entries_agree pairInit_isInit run_pairServed
    ReflTransGen.refl 0 1).2⟩

/-! ## What is applied -/

/-- **State machine safety, applied exactly once.**  If the state machine does not
raise, the calls a node has made of it, restarts included, are those for the indices
1, 2, 3, …, each once; and the calls any two nodes have made, at any two points of
a run, are one a continuation of the other. -/
theorem state_machine_safety (hsm : StateMachine.Total σ) (hinit : c0.IsInit)
    (ha : RaftCluster.Steps c0 a) (hab : RaftCluster.Steps a b) (i j : Fin size) :
    (a.nodes i).applied.map Prod.fst = List.range' 1 (a.nodes i).applied.length ∧
    ((a.nodes i).applied <+: (b.nodes j).applied ∨
      (b.nodes j).applied <+: (a.nodes i).applied) := by
  obtain ⟨H, H', hext, hrel, hrel'⟩ := clusterRel_of_run_run hinit ha hab
  have happ := (hrel.nodes i).applied hsm
  have happ' := (hrel'.nodes j).applied hsm
  rw [happ.calls, happ'.calls]
  refine ⟨by rw [callsOf_map_fst, length_callsOf], ?_⟩
  rcases (happ.settled.2.mono hext le_rfl).comparable hrel'.inv happ'.settled.2 with hpre | hpre
  · exact Or.inl (callsOf_mono hpre)
  · exact Or.inr (callsOf_mono hpre)

theorem state_machine_safety_pair :
    (pairServed.nodes 0).applied = [(1, .noop), (2, .set "x" 1)] ∧
    (pairHanded.nodes 1).applied = [(1, .noop)] ∧
    ((pairServed.nodes 0).applied <+: (pairHanded.nodes 1).applied ∨
      (pairHanded.nodes 1).applied <+: (pairServed.nodes 0).applied) :=
  ⟨by decide, by decide, (state_machine_safety (recorder_total _) pairInit_isInit run_pairServed
    steps_pairHanded 0 1).2⟩
