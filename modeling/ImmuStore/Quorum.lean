/-
# Quorum systems and runs of a transition system

Two small pieces of general theory the consensus development rests on.

* `QuorumSystem`: a family of finite sets any two of which share a member, with
  the majorities of a finite type as the instance (`majority`).
* `invariant_of_run` and `simulation_of_run`: what one step preserves, every run
  preserves; what one step of a system simulates, every run simulates.
-/
import Mathlib

open Relation

/-! ## Quorum systems -/

/-- A family of finite sets, the quorums, any two of which meet. -/
structure QuorumSystem (ι : Type) where
  IsQuorum : Finset ι → Prop
  /-- Any two quorums share a member. -/
  meet : ∀ Q Q' : Finset ι, IsQuorum Q → IsQuorum Q' → ∃ v, v ∈ Q ∧ v ∈ Q'

/-- The majorities of a finite type: more than half of its elements. -/
def majority (ι : Type) [Fintype ι] [DecidableEq ι] : QuorumSystem ι where
  IsQuorum := fun Q => Fintype.card ι / 2 + 1 ≤ Q.card
  meet := by
    intro Q Q' hQ hQ'
    -- were they disjoint, their union would have more elements than the type
    by_contra hno
    push Not at hno
    have hdisj : Disjoint Q Q' := Finset.disjoint_left.mpr hno
    have hcard : (Q ∪ Q').card = Q.card + Q'.card := Finset.card_union_of_disjoint hdisj
    have hle : (Q ∪ Q').card ≤ Fintype.card ι := Finset.card_le_univ _
    omega

/-! ## Runs -/

section Runs

variable {σ τ : Type*} {step : σ → σ → Prop} {spec : τ → τ → Prop}

/-- **Invariant rule.**  A property kept by every step is kept by every run. -/
theorem invariant_of_run {I : σ → Prop} (hstep : ∀ s s', I s → step s s' → I s')
    {s s' : σ} (hrun : ReflTransGen step s s') (hs : I s) : I s' := by
  induction hrun with
  | refl => exact hs
  | tail _ hlast ih => exact hstep _ _ ih hlast

/-- **Simulation rule.**  If every step from related states is matched by a run
of the specification, then so is every run. -/
theorem simulation_of_run {R : σ → τ → Prop}
    (hstep : ∀ s s' t, R s t → step s s' → ∃ t', ReflTransGen spec t t' ∧ R s' t')
    {s s' : σ} {t : τ} (hrun : ReflTransGen step s s') (hst : R s t) :
    ∃ t', ReflTransGen spec t t' ∧ R s' t' := by
  induction hrun with
  | refl => exact ⟨t, ReflTransGen.refl, hst⟩
  | tail _ hlast ih =>
    obtain ⟨t1, hrun1, hR1⟩ := ih
    obtain ⟨t2, hrun2, hR2⟩ := hstep _ _ _ hR1 hlast
    exact ⟨t2, hrun1.trans hrun2, hR2⟩

end Runs
