/-
# Servers and their clients (`raft/server.py`)

`RaftServer` drives a node from timers and sockets; `submit` proposes a command and
polls `last_applied` until it has reached the index of the new entry.  The state is
the cluster, the `submit` calls that wait, and those that have returned.

A returning `submit` vouches for its own entry exactly if its log still holds an
entry of the proposing term at the index (`Kept`): the poll alone does not notice
that another leader's entry has taken the place.
-/
import ImmuStore.RaftCalls
import ImmuStore.RaftSim

open History RaftCluster Relation

/-- A `submit` call: where it runs, the index it waits for and the entry it appended. -/
structure Submission (size : ℕ) (κ : Type) where
  node : Fin size
  index : ℕ
  entry : LogEntry κ
  deriving DecidableEq

structure RaftServers (size : ℕ) (κ σ : Type) where
  cluster : RaftCluster size κ σ
  pending : List (Submission size κ)
  returned : List (Submission size κ)

inductive ServerEvent (size : ℕ) (κ : Type) where
  | tick (i : Fin size)
  | deliver (env : Envelope (Fin size) κ)
  | submit (i : Fin size) (command : κ)
  /-- A waiting call looks at `last_applied`. -/
  | poll (call : Submission size κ)
  /-- A waiting call gives up. -/
  | timeout (call : Submission size κ)
  /-- The process of a server dies and is started again. -/
  | restart (i : Fin size) (rng : ℕ → ℕ)

namespace RaftServers

variable {size : ℕ} {κ σ : Type} [StateMachine σ κ]

/-- Servers with persistent logs, before anything has happened. -/
def IsInit (s : RaftServers size κ σ) : Prop :=
  (∃ (config : Fin size → RaftConfig) (rng : Fin size → ℕ → ℕ) (sm : Fin size → σ),
    (∀ i, StateMachine.appliedIndex (sm i) = 0) ∧
      s.cluster = RaftCluster.init config (fun _ => true) rng sm) ∧
  s.pending = [] ∧ s.returned = []

variable [DecidableEq κ] [RaftCommand κ]

/-- `submit` up to its wait.  A node that does not lead raises `NotLeaderError`. -/
def submit (s : RaftServers size κ σ) (i : Fin size) (command : κ) : RaftServers size κ σ :=
  if (s.cluster.nodes i).role = .leader then
    match RaftNode.propose command (s.cluster.nodes i) with
    | .ok (index, _) _ =>
      { s with
        cluster := s.cluster.step (.propose i command)
        pending := s.pending ++ [⟨i, index, ⟨(s.cluster.nodes i).currentTerm, command⟩⟩] }
    | .error _ _ => { s with cluster := s.cluster.step (.propose i command) }
  else s

/-- One look of `_await_apply` at `last_applied`. -/
def poll (s : RaftServers size κ σ) (call : Submission size κ) : RaftServers size κ σ :=
  if (s.cluster.nodes call.node).lastApplied < call.index then s
  else { s with pending := s.pending.erase call, returned := s.returned ++ [call] }

def Enabled (s : RaftServers size κ σ) : ServerEvent size κ → Prop
  | .tick _ => True
  | .deliver env => env ∈ s.cluster.sent
  | .submit _ _ => True
  | .poll call => call ∈ s.pending
  | .timeout call => call ∈ s.pending
  | .restart _ _ => True

def step (s : RaftServers size κ σ) : ServerEvent size κ → RaftServers size κ σ
  | .tick i => { s with cluster := s.cluster.step (.tick i) }
  | .deliver env => { s with cluster := s.cluster.step (.deliver env) }
  | .submit i command => s.submit i command
  | .poll call => s.poll call
  | .timeout call => { s with pending := s.pending.erase call }
  | .restart i rng =>
    { s with
      cluster := s.cluster.step (.restart i rng)
      pending := s.pending.filter (·.node ≠ i) }

def Step (s s' : RaftServers size κ σ) : Prop := ∃ ev, s.Enabled ev ∧ s' = s.step ev

def Steps : RaftServers size κ σ → RaftServers size κ σ → Prop := ReflTransGen Step

/-- The log of the server still holds an entry of the proposing term at the index. -/
def Kept (s : RaftServers size κ σ) (call : Submission size κ) : Prop :=
  (s.cluster.nodes call.node).log.termAt call.index = call.entry.term

/-- A step in which a call that returns has kept its entry. -/
def KeptStep (s s' : RaftServers size κ σ) : Prop :=
  ∃ ev, s.Enabled ev ∧ s' = s.step ev ∧
    ∀ call, ev = .poll call → call.index ≤ (s.cluster.nodes call.node).lastApplied → s.Kept call

def KeptSteps : RaftServers size κ σ → RaftServers size κ σ → Prop :=
  ReflTransGen KeptStep

end RaftServers

/-! ## The cluster under the servers -/

section Advance

variable {size : ℕ} {κ σ : Type} [StateMachine σ κ] {H : ClusterHistory size κ}
variable {c : RaftCluster size κ σ}

omit [StateMachine σ κ] in
theorem Justified.commitInReach {env : Envelope (Fin size) κ} (hj : Justified H env)
    {ae : AppendEntries (Fin size) κ} (hbody : env.body = .appendEntries ae) :
    RaftNode.CommitInReach ae := by
  obtain ⟨src, dst, body⟩ := env
  obtain rfl : body = .appendEntries ae := hbody
  obtain ⟨-, -, n, hn, hpn, hes, -, hlc, -⟩ := hj
  unfold RaftNode.CommitInReach
  rw [hes, List.length_drop, List.length_take_of_le hn]
  omega

variable [RaftCommand κ]

/-- Between restarts no node takes back a commit, or applies more than is committed. -/
theorem ClusterRel.advanced (h : ClusterRel H c) (ev : ClusterEvent size κ) (hen : c.Enabled ev)
    (hev : ∀ i rng, ev ≠ .restart i rng) (v : Fin size) :
    RaftNode.Advanced (c.nodes v) ((c.step ev).nodes v) := by
  have hperform : ∀ (i : Fin size) (m : NodeM (Fin size) κ σ (List (Envelope (Fin size) κ))),
      RaftNode.Advanced (c.nodes i) (resultState (m (c.nodes i))) →
      RaftNode.Advanced (c.nodes v) ((c.perform i m).nodes v) := by
    intro i m hm
    exact forall_perform (p := fun v => RaftNode.Advanced (c.nodes v)) hm
      (fun _ _ => RaftNode.Advanced.of_eq rfl rfl) v
  cases ev with
  | tick i =>
    exact hperform i _ ((RaftNode.sendsOf_tick (P := fun _ => True) trivial
      False.elim).1.advanced trivial)
  | deliver env =>
    exact hperform env.dst _ ((RaftNode.sendsOf_step trivial env.carries_true False.elim
      fun _ ae hbody => (h.sent env hen).commitInReach hbody).1.advanced trivial)
  | propose i command =>
    exact hperform i _ ((RaftNode.sendsOf_propose (P := fun _ => True) trivial
      False.elim).1.advanced trivial)
  | restart i rng => exact absurd rfl (hev i rng)

omit [RaftCommand κ] in
/-- A leader has applied no more than its log holds. -/
theorem ClusterRel.lastApplied_le (h : ClusterRel H c) (htr : StateMachine.Tracks σ) {i : Fin size}
    (hrole : (c.nodes i).role = .leader) :
    (c.nodes i).lastApplied ≤ (c.nodes i).log.entries.length := by
  have hentries : (c.nodes i).log.entries = H.log i := (h.nodes i).rel.entries
  have hwon := ((h.nodes i).rel.leader hrole).won
  obtain ⟨-, P, hlen, hch⟩ := (h.nodes i).bound htr
  have hpre := (hch.prefix_lead h.inv hwon).length_le
  rw [hentries, h.inv.own i hwon]
  omega

end Advance

/-! ## Waiting calls -/

section Calls

variable {size : ℕ} {κ σ : Type} [StateMachine σ κ]
variable {H H' : ClusterHistory size κ} {c : RaftCluster size κ σ} {call : Submission size κ}

/-- A waiting call: its entry is in the leader log of its term, and its server has
not applied that far, or no further than it has committed. -/
structure Awaits (H : ClusterHistory size κ) (c : RaftCluster size κ σ)
    (call : Submission size κ) : Prop where
  pos : 1 ≤ call.index
  entry : (H.lead call.entry.term)[call.index - 1]? = some call.entry
  applied : (c.nodes call.node).lastApplied < call.index ∨
    (c.nodes call.node).lastApplied ≤ (c.nodes call.node).commitIndex

omit [StateMachine σ κ] in
theorem Awaits.mono {c' : RaftCluster size κ σ} (h : Awaits H c call) (hext : Extends H H')
    (hadv : RaftNode.Advanced (c.nodes call.node) (c'.nodes call.node)) : Awaits H' c' call := by
  refine ⟨h.pos, getElem?_of_isPrefix (hext.lead _) h.entry, ?_⟩
  have h1 := hadv.commit
  have h2 := hadv.applied
  rcases h.applied with h3 | h3
  · omega
  · right
    omega

omit [StateMachine σ κ] in
/-- The server of a call whose wait is over has committed the index. -/
theorem Awaits.committed (h : Awaits H c call)
    (hlast : call.index ≤ (c.nodes call.node).lastApplied) :
    call.index ≤ (c.nodes call.node).commitIndex := by
  rcases h.applied with h | h <;> omega

/-- The index of a call holds its entry exactly if it holds one of its term. -/
theorem Awaits.entry_iff (h : Awaits H c call) (hrel : ClusterRel H c)
    (hlast : call.index ≤ (c.nodes call.node).lastApplied) :
    (c.nodes call.node).log.entries[call.index - 1]? = some call.entry ↔
      (c.nodes call.node).log.termAt call.index = call.entry.term := by
  have hpos := h.pos
  have hentries : (c.nodes call.node).log.entries = H.log call.node :=
    (hrel.nodes call.node).rel.entries
  obtain ⟨hle, -⟩ : Settled H call.node (c.nodes call.node).commitIndex :=
    (hrel.nodes call.node).rel.committed
  have hlt : call.index - 1 < (c.nodes call.node).log.entries.length := by
    have := h.committed hlast
    rw [hentries]
    omega
  have hterm : (c.nodes call.node).log.termAt call.index
      = ((c.nodes call.node).log.entries[call.index - 1]).term := by
    simp only [RaftLog.termAt, if_neg (show call.index ≠ 0 by omega),
      List.getElem?_eq_getElem hlt]
  rw [hterm, List.getElem?_eq_getElem hlt, Option.some.injEq]
  constructor
  · intro heq
    rw [heq]
  · intro ht
    -- one term has one leader log, and both entries stand in it at this index
    have ht' : ((c.nodes call.node).log.entries[call.index - 1]).term = call.entry.term := by
      exact_mod_cast ht
    refine entry_eq_of_term_eq (hrel.inv.log_holds call.node).anchored
      (hrel.inv.lead_anchored call.entry.term) ?_ h.entry ht'
    rw [← hentries]
    exact List.getElem?_eq_getElem hlt

/-- A returned call whose entry is chosen. -/
def Vouched (H : ClusterHistory size κ) (call : Submission size κ) : Prop :=
  ∃ T P, ChosenBy (maj size) H T P ∧ P[call.index - 1]? = some call.entry

theorem Vouched.mono (h : Vouched H call) (hext : Extends H H') : Vouched H' call := by
  obtain ⟨T, P, hch, hget⟩ := h
  exact ⟨T, P, hch.mono hext le_rfl, hget⟩

/-- Every node that has committed the index of a vouched call holds its entry there. -/
theorem Vouched.entry (h : Vouched H call) (hrel : ClusterRel H c) (hpos : 1 ≤ call.index)
    {v : Fin size} (hv : call.index ≤ (c.nodes v).commitIndex) :
    (c.nodes v).log.entries[call.index - 1]? = some call.entry := by
  obtain ⟨T, P, hch, hget⟩ := h
  have hentries : (c.nodes v).log.entries = H.log v := (hrel.nodes v).rel.entries
  obtain ⟨hle, hch'⟩ : Settled H v (c.nodes v).commitIndex := (hrel.nodes v).rel.committed
  have hlen : ((H.log v).take (c.nodes v).commitIndex).length = (c.nodes v).commitIndex :=
    List.length_take_of_le hle
  rw [hentries, ← List.getElem?_take_of_lt (show call.index - 1 < (c.nodes v).commitIndex by omega)]
  rcases hch.comparable hrel.inv hch' with hpre | hpre
  · exact getElem?_of_isPrefix hpre hget
  · have hlt : call.index - 1 < ((H.log v).take (c.nodes v).commitIndex).length := by omega
    have := getElem?_of_isPrefix hpre (List.getElem?_eq_getElem hlt)
    rw [hget] at this
    rw [List.getElem?_eq_getElem hlt, this]

end Calls

/-! ## Runs -/

namespace RaftServers

variable {size : ℕ} {κ σ : Type} [StateMachine σ κ]

/-- The cluster agrees with the history, and so do the waiting calls. -/
structure Rel (H : ClusterHistory size κ) (s : RaftServers size κ σ) : Prop where
  cluster : ClusterRel H s.cluster
  pending : ∀ call ∈ s.pending, Awaits H s.cluster call

theorem rel_init {s : RaftServers size κ σ} (h : s.IsInit) : Rel History.init s := by
  obtain ⟨⟨config, rng, sm, hsm, hc⟩, hpending, -⟩ := h
  refine ⟨clusterRel_init ⟨config, fun _ => true, rng, sm, hsm, hc⟩, ?_⟩
  rw [hpending]
  simp

variable [DecidableEq κ] [RaftCommand κ]
variable {H : ClusterHistory size κ} {s s' s0 : RaftServers size κ σ}
variable {ev : ServerEvent size κ}

omit [DecidableEq κ] in
/-- A step of the cluster that is no restart. -/
theorem Rel.clusterStep (h : Rel H s) (ev : ClusterEvent size κ) (hen : s.cluster.Enabled ev)
    (hev : ∀ i rng, ev ≠ .restart i rng) :
    ∃ H', Extends H H' ∧ Rel H' { s with cluster := s.cluster.step ev } := by
  obtain ⟨i, H', hrun, hrel⟩ := h.cluster.run ev hen hev
  have hext := h.cluster.inv.run_extends hrun
  exact ⟨H', hext, hrel, fun call hcall =>
    (h.pending call hcall).mono hext (h.cluster.advanced ev hen hev call.node)⟩

omit [DecidableEq κ] in
theorem Rel.submit (h : Rel H s) (htr : StateMachine.Tracks σ) (i : Fin size) (command : κ) :
    ∃ H', Extends H H' ∧ Rel H' (s.submit i command) := by
  unfold RaftServers.submit
  by_cases hrole : (s.cluster.nodes i).role = .leader
  · rw [if_pos hrole]
    have hnr : ∀ (j : Fin size) rng, ClusterEvent.propose i command ≠ .restart j rng := by
      intro j rng hev
      cases hev
    obtain ⟨hrun1, hsim⟩ := (h.cluster.nodes i).propose h.cluster.inv hrole command
    obtain ⟨H', hrun, hrel⟩ := h.cluster.perform hrun1 hsim
    have hI1 := h.cluster.inv.run hrun1
    have hext := (h.cluster.inv.run_extends hrun1).trans (hI1.run_extends hrun)
    have hadv := h.cluster.advanced (.propose i command) hrole hnr
    have hold : ∀ call ∈ s.pending, Awaits H' (s.cluster.step (.propose i command)) call :=
      fun call hcall => (h.pending call hcall).mono hext (hadv call.node)
    cases hr : RaftNode.propose command (s.cluster.nodes i) with
    | error e x' => exact ⟨H', hext, hrel, hold⟩
    | ok r x' =>
      obtain ⟨index, out⟩ := r
      refine ⟨H', hext, hrel, fun call hcall => ?_⟩
      have hindex : index = (s.cluster.nodes i).log.entries.length + 1 :=
        RaftNode.propose_index hrole hr
      rcases List.mem_append.mp hcall with hcall | hcall
      · exact hold call hcall
      rw [List.mem_singleton] at hcall
      subst hcall
      have hterm : (s.cluster.nodes i).currentTerm = H.term i := (h.cluster.nodes i).rel.term
      have hentries : (s.cluster.nodes i).log.entries = H.log i := (h.cluster.nodes i).rel.entries
      have hwon := ((h.cluster.nodes i).rel.leader hrole).won
      have hpos : 1 ≤ index := by omega
      refine ⟨hpos, ?_, ?_⟩
      · -- the entry is the last one of the extended leader log
        refine getElem?_of_isPrefix ((hI1.run_extends hrun).lead _) ?_
        show ((H.extend i ⟨(s.cluster.nodes i).currentTerm, command⟩).lead
          (s.cluster.nodes i).currentTerm)[index - 1]? = _
        rw [hterm, hindex, hentries, h.cluster.inv.own i hwon]
        simp [History.extend]
      · have hle := h.cluster.lastApplied_le htr hrole
        have h2 := (hadv i).applied
        show ((s.cluster.step (.propose i command)).nodes i).lastApplied < index ∨
          ((s.cluster.step (.propose i command)).nodes i).lastApplied
            ≤ ((s.cluster.step (.propose i command)).nodes i).commitIndex
        omega
  · rw [if_neg hrole]
    exact ⟨H, Extends.refl H, h⟩

omit [DecidableEq κ] in
theorem Rel.restart (h : Rel H s) (i : Fin size) (rng : ℕ → ℕ) :
    Rel (H.lose i)
      { s with
        cluster := s.cluster.step (.restart i rng)
        pending := s.pending.filter (·.node ≠ i) } := by
  refine ⟨h.cluster.restart i rng, fun call hcall => ?_⟩
  obtain ⟨hmem, hne⟩ := List.mem_filter.mp hcall
  refine (h.pending call hmem).mono (extends_logs _ _) ?_
  have hne' : call.node ≠ i := by simpa using hne
  have hnode : (s.cluster.step (.restart i rng)).nodes call.node = s.cluster.nodes call.node :=
    Function.update_of_ne hne' _ _
  rw [hnode]
  exact RaftNode.Advanced.of_eq rfl rfl

/-- **Every step keeps the waiting calls in agreement.** -/
theorem Rel.step (h : Rel H s) (htr : StateMachine.Tracks σ) (hen : s.Enabled ev) :
    ∃ H', Extends H H' ∧ Rel H' (s.step ev) := by
  cases ev with
  | tick i => exact h.clusterStep (.tick i) trivial (by intro j rng hev; cases hev)
  | deliver env => exact h.clusterStep (.deliver env) hen (by intro j rng hev; cases hev)
  | submit i command => exact h.submit htr i command
  | poll call =>
    refine ⟨H, Extends.refl H, ?_⟩
    show Rel H (s.poll call)
    unfold RaftServers.poll
    split_ifs
    · exact h
    · exact ⟨h.cluster, fun call' hcall' => h.pending call' (List.mem_of_mem_erase hcall')⟩
  | timeout call =>
    exact ⟨H, Extends.refl H, h.cluster,
      fun call' hcall' => h.pending call' (List.mem_of_mem_erase hcall')⟩
  | restart i rng => exact ⟨H.lose i, extends_logs _ _, h.restart i rng⟩

theorem rel_of_run (htr : StateMachine.Tracks σ) (hinit : s0.IsInit) (hs : Steps s0 s) :
    ∃ H, Rel H s := by
  refine invariant_of_run (I := fun s => ∃ H, Rel H s) ?_ hs ⟨_, rel_init hinit⟩
  rintro s s' ⟨H, h⟩ ⟨ev, hen, rfl⟩
  obtain ⟨H', -, h'⟩ := h.step htr hen
  exact ⟨H', h'⟩

/-- The calls a step adds to those that have returned. -/
theorem mem_returned_step {call : Submission size κ} (hcall : call ∈ (s.step ev).returned) :
    call ∈ s.returned ∨
      (ev = .poll call ∧ call.index ≤ (s.cluster.nodes call.node).lastApplied) := by
  cases ev with
  | tick i => exact Or.inl hcall
  | deliver env => exact Or.inl hcall
  | submit i command =>
    left
    have hret : (s.submit i command).returned = s.returned := by
      unfold RaftServers.submit
      split_ifs
      · cases RaftNode.propose command (s.cluster.nodes i) <;> rfl
      · rfl
    rw [← hret]
    exact hcall
  | poll call' =>
    have hcall' : call ∈ (s.poll call').returned := hcall
    unfold RaftServers.poll at hcall'
    split_ifs at hcall'
    · exact Or.inl hcall'
    · rcases List.mem_append.mp hcall' with hmem | hmem
      · exact Or.inl hmem
      · rw [List.mem_singleton] at hmem
        subst hmem
        exact Or.inr ⟨rfl, by omega⟩
  | timeout call' => exact Or.inl hcall
  | restart i rng => exact Or.inl hcall

/-- In a run whose returning calls have kept their entries, every returned call's
entry is chosen. -/
theorem vouched_of_keptRun (htr : StateMachine.Tracks σ) (hinit : s0.IsInit)
    (hs : KeptSteps s0 s) :
    ∃ H, Rel H s ∧ ∀ call ∈ s.returned, 1 ≤ call.index ∧ Vouched H call := by
  have hret0 := hinit.2.2
  refine invariant_of_run
    (I := fun s => ∃ H, Rel H s ∧ ∀ call ∈ s.returned, 1 ≤ call.index ∧ Vouched H call) ?_ hs
    ⟨_, rel_init hinit, by rw [hret0]; simp⟩
  rintro s s' ⟨H, h, hret⟩ ⟨ev, hen, rfl, hkept⟩
  obtain ⟨H', hext, h'⟩ := h.step htr hen
  refine ⟨H', h', fun call hcall => ?_⟩
  rcases mem_returned_step hcall with hold | ⟨rfl, hlast⟩
  · exact ⟨(hret call hold).1, (hret call hold).2.mono hext⟩
  · -- the call returns now: what its server has committed contains its entry
    have haw := h.pending call hen
    have hget := (haw.entry_iff h.cluster hlast).mpr (hkept call rfl hlast)
    have hentries : (s.cluster.nodes call.node).log.entries = H.log call.node :=
      (h.cluster.nodes call.node).rel.entries
    obtain ⟨-, hch⟩ : Settled H call.node (s.cluster.nodes call.node).commitIndex :=
      (h.cluster.nodes call.node).rel.committed
    have hcom := haw.committed hlast
    refine ⟨haw.pos, Vouched.mono ⟨_, _, hch, ?_⟩ hext⟩
    have hpos := haw.pos
    rw [List.getElem?_take_of_lt (by omega), ← hentries]
    exact hget

/-! ## Runs of three servers -/

/-- The servers after a list of events, each of them possible when it comes. -/
def runEvents (s : RaftServers size κ σ) :
    List (ServerEvent size κ) → Option (RaftServers size κ σ)
  | [] => some s
  | ev :: evs =>
    match ev with
    | .deliver env => if env ∈ s.cluster.sent then (s.step ev).runEvents evs else none
    | .poll call => if call ∈ s.pending then (s.step ev).runEvents evs else none
    | .timeout call => if call ∈ s.pending then (s.step ev).runEvents evs else none
    | _ => (s.step ev).runEvents evs

/-- The events are a run of any relation that holds of them. -/
theorem run_of_runEvents {R : RaftServers size κ σ → RaftServers size κ σ → Prop}
    {evs : List (ServerEvent size κ)} (hR : ∀ ev ∈ evs, ∀ s, s.Enabled ev → R s (s.step ev))
    (h : s.runEvents evs = some s') : ReflTransGen R s s' := by
  induction evs generalizing s with
  | nil =>
    cases h
    exact ReflTransGen.refl
  | cons ev evs ih =>
    have key : s.Enabled ev ∧ (s.step ev).runEvents evs = some s' := by
      cases ev with
      | tick i => exact ⟨trivial, h⟩
      | submit i command => exact ⟨trivial, h⟩
      | restart i rng => exact ⟨trivial, h⟩
      | deliver env => exact Option.ite_none_right_eq_some.mp h
      | poll call => exact Option.ite_none_right_eq_some.mp h
      | timeout call => exact Option.ite_none_right_eq_some.mp h
    rw [List.forall_mem_cons] at hR
    exact ReflTransGen.head (hR.1 s key.1) (ih hR.2 key.2)

/-- Three servers with timeouts of one tick. -/
def threeServers : RaftServers 3 (KVCommand ℕ) (Recorder (KVCommand ℕ)) where
  cluster := RaftCluster.init (fun _ => ⟨1, 1, 1⟩) (fun _ => true) (fun _ _ => 0) (fun _ => {})
  pending := []
  returned := []

theorem threeServers_isInit : threeServers.IsInit :=
  ⟨⟨_, _, _, fun _ => rfl, rfl⟩, rfl, rfl⟩

/-- The call on server 0: index 2, in term 1. -/
def firstCall : Submission 3 (KVCommand ℕ) := ⟨0, 2, ⟨1, .set "x" 1⟩⟩

/-- **What a returned `submit` vouches for.**  In every run in which each returning
call finds an entry of its own term at its index, whatever node commits that index
commits the very entry the call appended.  The condition is exact at each return:
the index is then committed on the call's server, and holds the call's entry if and
only if it holds one of the call's term. -/
theorem submit_vouches (htr : StateMachine.Tracks σ) (hinit : s0.IsInit) :
    (KeptSteps s0 s → ∀ call ∈ s.returned, ∀ v : Fin size,
      call.index ≤ (s.cluster.nodes v).commitIndex →
      (s.cluster.nodes v).log.entries[call.index - 1]? = some call.entry) ∧
    (Steps s0 s → ∀ call ∈ s.pending,
      call.index ≤ (s.cluster.nodes call.node).lastApplied →
      call.index ≤ (s.cluster.nodes call.node).commitIndex ∧
      ((s.cluster.nodes call.node).log.entries[call.index - 1]? = some call.entry ↔
        s.Kept call)) := by
  refine ⟨fun hs call hcall v hv => ?_, fun hs call hcall hlast => ?_⟩
  · obtain ⟨H, h, hret⟩ := vouched_of_keptRun htr hinit hs
    exact (hret call hcall).2.entry h.cluster (hret call hcall).1 hv
  · obtain ⟨H, h⟩ := rel_of_run htr hinit hs
    have haw := h.pending call hcall
    exact ⟨haw.committed hlast, haw.entry_iff h.cluster hlast⟩

/-- Server 0 leads, and server 1 commits the command of its call after it. -/
def servedEvents : List (ServerEvent 3 (KVCommand ℕ)) :=
  [ .tick 0,
    .deliver ⟨0, 1, .requestVote ⟨1, 0, 0, 0⟩⟩,
    .deliver ⟨1, 0, .requestVoteReply ⟨1, true⟩⟩,
    .submit 0 (.set "x" 1),
    .deliver ⟨0, 1, .appendEntries ⟨1, 0, 0, 0, [⟨1, .noop⟩, ⟨1, .set "x" 1⟩], 0⟩⟩,
    .deliver ⟨1, 0, .appendEntriesReply ⟨1, true, 2⟩⟩,
    .tick 0,
    .deliver ⟨0, 1, .appendEntries ⟨1, 0, 2, 1, [], 2⟩⟩ ]

/-- Whether the call would return now, with its index committed by server 1. -/
def answersRightly (s : RaftServers 3 (KVCommand ℕ) (Recorder (KVCommand ℕ))) : Bool :=
  firstCall ∈ s.pending ∧ firstCall ∈ (s.step (.poll firstCall)).returned ∧
    (s.cluster.nodes 0).log.termAt 2 = 1 ∧
    2 ≤ ((s.step (.poll firstCall)).cluster.nodes 1).commitIndex

theorem submit_vouches_three :
    ∃ s, KeptSteps threeServers s ∧ firstCall ∈ s.returned ∧
      (s.cluster.nodes 1).log.entries[1]? = some firstCall.entry := by
  have hrun : (threeServers.runEvents servedEvents).any answersRightly = true := by decide +kernel
  rw [Option.any_eq_true] at hrun
  obtain ⟨s, hs, hright⟩ := hrun
  obtain ⟨hpending, hreturned, hkept, hcommit⟩ : firstCall ∈ s.pending ∧
      firstCall ∈ (s.step (.poll firstCall)).returned ∧
      (s.cluster.nodes 0).log.termAt 2 = 1 ∧
      2 ≤ ((s.step (.poll firstCall)).cluster.nodes 1).commitIndex := by
    simpa [answersRightly] using hright
  have hsteps : KeptSteps threeServers s := by
    refine run_of_runEvents (fun ev hev s hen => ⟨ev, hen, rfl, ?_⟩) hs
    rintro call rfl
    simp [servedEvents] at hev
  have hpoll : KeptStep s (s.step (.poll firstCall)) := by
    refine ⟨.poll firstCall, hpending, rfl, ?_⟩
    rintro call ⟨⟩ -
    exact hkept
  exact ⟨_, hsteps.tail hpoll, hreturned, (submit_vouches (recorder_tracks _)
    threeServers_isInit).1 (hsteps.tail hpoll) firstCall hreturned 1 hcommit⟩

/-! ## A call that is answered with another leader's entry

Server 0 leads term 1 and is given a command; before it is replicated, server 1 is
elected for term 2 by server 2, commits a command of its own at the same index, and
overwrites the log of server 0, whose waiting call then returns. -/

def rivalEvents : List (ServerEvent 3 (KVCommand ℕ)) :=
  [ .tick 0,
    .deliver ⟨0, 1, .requestVote ⟨1, 0, 0, 0⟩⟩,
    .deliver ⟨1, 0, .requestVoteReply ⟨1, true⟩⟩,
    .submit 0 (.set "x" 1),
    .tick 1,
    .deliver ⟨1, 2, .requestVote ⟨2, 1, 0, 0⟩⟩,
    .deliver ⟨2, 1, .requestVoteReply ⟨2, true⟩⟩,
    .submit 1 (.set "x" 2),
    .deliver ⟨1, 2, .appendEntries ⟨2, 1, 0, 0, [⟨2, .noop⟩, ⟨2, .set "x" 2⟩], 0⟩⟩,
    .deliver ⟨2, 1, .appendEntriesReply ⟨2, true, 2⟩⟩,
    .tick 1,
    .deliver ⟨1, 0, .appendEntries ⟨2, 1, 0, 0, [⟨2, .noop⟩, ⟨2, .set "x" 2⟩], 2⟩⟩,
    .poll firstCall ]

/-- Whether the call has returned while its server holds another entry, committed,
at its index. -/
def answeredWrongly (s : RaftServers 3 (KVCommand ℕ) (Recorder (KVCommand ℕ))) : Bool :=
  firstCall ∈ s.returned ∧ firstCall.index ≤ (s.cluster.nodes 0).commitIndex ∧
    (s.cluster.nodes 0).log.entries[firstCall.index - 1]? ≠ some firstCall.entry

theorem answeredWrongly_rival :
    (threeServers.runEvents rivalEvents).any answeredWrongly = true := by decide +kernel

/-- **A `submit` can return for another leader's entry.** -/
theorem submit_answers_wrongly :
    ∃ s0 s : RaftServers 3 (KVCommand ℕ) (Recorder (KVCommand ℕ)), s0.IsInit ∧ Steps s0 s ∧
      ∃ call ∈ s.returned, ∃ v : Fin 3, call.index ≤ (s.cluster.nodes v).commitIndex ∧
        (s.cluster.nodes v).log.entries[call.index - 1]? ≠ some call.entry := by
  have h := answeredWrongly_rival
  cases hs : threeServers.runEvents rivalEvents with
  | none =>
    rw [hs] at h
    cases h
  | some s =>
    rw [hs] at h
    have hwrong : firstCall ∈ s.returned ∧ firstCall.index ≤ (s.cluster.nodes 0).commitIndex ∧
        (s.cluster.nodes 0).log.entries[firstCall.index - 1]? ≠ some firstCall.entry := by
      simpa [answeredWrongly] using h
    exact ⟨threeServers, s, threeServers_isInit, run_of_runEvents (fun ev _ s hen => ⟨ev, hen, rfl⟩) hs,
      firstCall, hwrong.1, 0, hwrong.2⟩

end RaftServers
