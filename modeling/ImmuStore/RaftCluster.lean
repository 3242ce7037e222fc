/-
# Clusters of Raft nodes (`raft/simulation.py`)

A cluster is its nodes and every envelope they ever sent.  The transport may
lose, delay, duplicate and reorder envelopes, so a delivery picks any envelope of
`sent`, at any time and as often as it likes.  A node that raises keeps the
assignments it has made and sends nothing.

`RaftCluster.Step` is one event: a tick, a delivery, a proposal at a leader, or a
restart, after which the node has its saved log, `commit_index = 0` and
`last_applied` read from its state machine.
-/
import ImmuStore.RaftNodeSpec

open Function

structure RaftCluster (size : ℕ) (κ σ : Type) where
  nodes : Fin size → RaftNode (Fin size) κ σ
  sent : List (Envelope (Fin size) κ)

/-- What can happen to a cluster. -/
inductive ClusterEvent (size : ℕ) (κ : Type) where
  | tick (i : Fin size)
  | deliver (env : Envelope (Fin size) κ)
  | propose (i : Fin size) (command : κ)
  | restart (i : Fin size) (rng : ℕ → ℕ)

namespace RaftCluster

variable {size : ℕ} {κ σ : Type} [StateMachine σ κ]

/-- `[j for j in self.ids if j != node_id]`. -/
def peersOf (i : Fin size) : List (Fin size) := (List.finRange size).filter (· ≠ i)

/-- A cluster of fresh nodes with empty logs. -/
def init (config : Fin size → RaftConfig) (path : Fin size → Bool) (rng : Fin size → ℕ → ℕ)
    (sm : Fin size → σ) : RaftCluster size κ σ where
  nodes := fun i => RaftNode.new i (peersOf i) (sm i) [] (RaftLog.new (path i) none) (rng i)
    (config i) (StateMachine.appliedIndex (sm i))
  sent := []

/-- Node `i` runs one of its methods; what it returns is sent. -/
def perform (c : RaftCluster size κ σ) (i : Fin size)
    (m : NodeM (Fin size) κ σ (List (Envelope (Fin size) κ))) : RaftCluster size κ σ :=
  match m (c.nodes i) with
  | .ok out n => ⟨update c.nodes i n, c.sent ++ out⟩
  | .error _ n => ⟨update c.nodes i n, c.sent⟩

/-- `restart`: volatile state is rebuilt from the saved log and the applied index. -/
def restartNode (n : RaftNode (Fin size) κ σ) (rng : ℕ → ℕ) : RaftNode (Fin size) κ σ :=
  RaftNode.new n.nodeId n.peers n.sm n.applied n.log.reopen rng n.config
    (StateMachine.appliedIndex n.sm)

/-- Envelopes are delivered only if they were sent; clients propose to leaders. -/
def Enabled (c : RaftCluster size κ σ) : ClusterEvent size κ → Prop
  | .tick _ => True
  | .deliver env => env ∈ c.sent
  | .propose i _ => (c.nodes i).role = .leader
  | .restart _ _ => True

variable [RaftCommand κ]
variable {c : RaftCluster size κ σ} {i : Fin size}
    {m : NodeM (Fin size) κ σ (List (Envelope (Fin size) κ))}

def step (c : RaftCluster size κ σ) : ClusterEvent size κ → RaftCluster size κ σ
  | .tick i => c.perform i RaftNode.tick
  | .deliver env => c.perform env.dst (RaftNode.step env)
  | .propose i command => c.perform i (Prod.snd <$> RaftNode.propose command)
  | .restart i rng => { c with nodes := update c.nodes i (restartNode (c.nodes i) rng) }

/-- One step of the cluster. -/
def Step (c c' : RaftCluster size κ σ) : Prop := ∃ ev, c.Enabled ev ∧ c' = c.step ev

/-- Any number of steps. -/
def Steps : RaftCluster size κ σ → RaftCluster size κ σ → Prop := Relation.ReflTransGen Step

/-- A cluster as it is before the first step, over state machines that have
applied nothing. -/
def IsInit (c : RaftCluster size κ σ) : Prop :=
  ∃ (config : Fin size → RaftConfig) (path : Fin size → Bool) (rng : Fin size → ℕ → ℕ)
    (sm : Fin size → σ), (∀ i, StateMachine.appliedIndex (sm i) = 0) ∧
      c = init config path rng sm

omit [StateMachine σ κ] [RaftCommand κ]

theorem perform_nodes (c : RaftCluster size κ σ) (i : Fin size)
    (m : NodeM (Fin size) κ σ (List (Envelope (Fin size) κ))) :
    (c.perform i m).nodes = update c.nodes i (resultState (m (c.nodes i))) := by
  unfold perform
  cases m (c.nodes i) <;> rfl

/-- What holds of every node after one of them has run a method. -/
theorem forall_perform {p : Fin size → RaftNode (Fin size) κ σ → Prop}
    (hi : p i (resultState (m (c.nodes i)))) (hne : ∀ j, j ≠ i → p j (c.nodes j)) (j : Fin size) :
    p j ((c.perform i m).nodes j) := by
  rw [perform_nodes]
  exact (forall_update_iff c.nodes p).mpr ⟨hi, hne⟩ j

/-- An envelope was sent before, or is returned by the method. -/
theorem mem_sent_perform {env : Envelope (Fin size) κ} (h : env ∈ (c.perform i m).sent) :
    env ∈ c.sent ∨ ∃ out n, m (c.nodes i) = .ok out n ∧ env ∈ out := by
  unfold perform at h
  cases hr : m (c.nodes i) with
  | ok out n =>
    rw [hr] at h
    exact (List.mem_append.mp h).imp_right fun henv => ⟨out, n, rfl, henv⟩
  | error e n =>
    rw [hr] at h
    exact .inl h

/-- A method that returns sends what it returns. -/
theorem perform_ok {out : List (Envelope (Fin size) κ)} {n : RaftNode (Fin size) κ σ}
    (h : m (c.nodes i) = .ok out n) :
    c.perform i m = ⟨update c.nodes i n, c.sent ++ out⟩ := by
  rw [perform, h]

@[simp] theorem mem_peersOf {j : Fin size} : j ∈ peersOf i ↔ j ≠ i := by simp [peersOf]

theorem nodup_peersOf (i : Fin size) : (peersOf i).Nodup := (List.nodup_finRange size).filter _

theorem length_peersOf (i : Fin size) : (peersOf i).length + 1 = size := by
  have hcard : (peersOf i).toFinset = Finset.univ.erase i := by
    ext j
    simp
  have hlen := List.toFinset_card_of_nodup (nodup_peersOf i)
  rw [hcard, Finset.card_erase_of_mem (Finset.mem_univ i), Finset.card_univ, Fintype.card_fin]
    at hlen
  have := i.pos
  omega

end RaftCluster
