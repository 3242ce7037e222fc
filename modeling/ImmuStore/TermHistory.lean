/-
# Histories of a term-based replicated log

A message-free account of leader-based log replication.  The state is a
*history*: besides each member's current term and log it remembers every vote
ever cast, the log every candidate stood with, the winner of every term and
that winner's log, and how much of it every member has ever acknowledged.
A protocol that exchanges messages is related to it by reading each message as
a fact about the history; those facts are stable (`Extends`), so delay, loss,
duplication and reordering need no treatment of their own.

* `History` and its moves: `raise`, `stand`, `grant`, `win`, `extend`, `hold`,
  `save`, `ack`, collected in `History.Step`, and `Frame`, what one member's moves
  leave alone.  `lose` is what a restart does: the member falls back to the log
  it has saved.
* `overlay`: what a log becomes when it accepts a stretch of the leader's.
* `UpToDate`: the comparison a voter makes before it grants a vote.
-/
import ImmuStore.Quorum

open Function

/-- Log entries carry the term they were created in. -/
class Stamped (ε : Type) where
  stamp : ε → ℕ

open Stamped (stamp)

/-! ## Prefixes of lists -/

section Prefixes

variable {ε : Type}
variable {L L' : List ε}

/-- Two logs that extend a common one agree on its first entries. -/
theorem take_eq_of_isPrefix (h : L <+: L') {n : ℕ} (hn : n ≤ L.length) : L'.take n = L.take n := by
  obtain ⟨t, rfl⟩ := h
  rw [List.take_append_of_le_length hn]

/-- An entry of a log stands at the same index in every extension. -/
theorem getElem?_of_isPrefix (h : L <+: L') {i : ℕ} {e : ε} (hi : L[i]? = some e) :
    L'[i]? = some e := by
  obtain ⟨t, rfl⟩ := h
  have hlt : i < L.length := (List.getElem?_eq_some_iff.mp hi).1
  rw [List.getElem?_append_left hlt, hi]

open Classical in
/-- A log that accepts `new` keeps what it has if that already begins with
`new`, and becomes `new` otherwise. -/
noncomputable def overlay (old new : List ε) : List ε := if new <+: old then old else new

theorem prefix_overlay (old new : List ε) : new <+: overlay old new := by
  unfold overlay
  split_ifs with h
  · exact h
  · exact List.prefix_rfl

/-- What both the old log and the accepted stretch's source begin with survives. -/
theorem prefix_overlay_of_common {old P : List ε} {n : ℕ} (hold : P <+: old) (hL : P <+: L) :
    P <+: overlay old (L.take n) := by
  unfold overlay
  split_ifs with h
  · exact hold
  · -- a conflict lies beyond the common part, so the accepted stretch is longer
    have hlt : P.length ≤ (L.take n).length := by
      by_contra hgt
      push Not at hgt
      exact h ((List.prefix_of_prefix_length_le (List.take_prefix n L) hL hgt.le).trans hold)
    exact List.prefix_of_prefix_length_le hL (List.take_prefix n L) hlt

end Prefixes

/-! ## Up-to-date logs -/

section UpToDate

variable {ε : Type} [Stamped ε]

/-- The term of the last entry, `0` for the empty log. -/
def lastStamp (L : List ε) : ℕ := (L.getLast?.map stamp).getD 0

/-- `UpToDate L X`: a voter with log `X` finds the candidate's log `L` at least
as up to date as its own. -/
def UpToDate (L X : List ε) : Prop :=
  lastStamp X < lastStamp L ∨ (lastStamp L = lastStamp X ∧ X.length ≤ L.length)

@[simp] theorem lastStamp_nil : lastStamp ([] : List ε) = 0 := rfl

/-- The last term of a nonempty log belongs to its last entry. -/
theorem exists_last_of_ne_nil {L : List ε} (h : L ≠ []) :
    ∃ e, L[L.length - 1]? = some e ∧ stamp e = lastStamp L := by
  rcases List.eq_nil_or_concat L with rfl | ⟨M, e, rfl⟩
  · exact absurd rfl h
  · exact ⟨e, by simp, by simp [lastStamp]⟩

/-- Only a nonempty log is as up to date as a nonempty one. -/
theorem UpToDate.ne_nil {L X : List ε} (h : UpToDate L X) (hX : X ≠ []) : L ≠ [] := by
  rintro rfl
  rcases h with h | ⟨-, h⟩
  · simp at h
  · exact hX (List.length_eq_zero_iff.mp (Nat.le_zero.mp h))

end UpToDate

/-! ## Histories -/

/-- The history of a replicated log among the members `ι`, with entries `ε`. -/
structure History (ι ε : Type) where
  /-- The term each member is in. -/
  term : ι → ℕ
  /-- The log each member holds. -/
  log : ι → List ε
  /-- The vote each member cast in each term. -/
  vote : ι → ℕ → Option ι
  /-- The log each candidate stood with in each term. -/
  stood : ι → ℕ → Option (List ε)
  /-- The winner of each term. -/
  leader : ℕ → Option ι
  /-- The log of each term's leader, as far as it has grown. -/
  lead : ℕ → List ε
  /-- The log a member would come back with after a restart. -/
  saved : ι → List ε
  /-- How many entries of the term's leader log each member has acknowledged. -/
  acked : ι → ℕ → ℕ

namespace History

variable {ι ε : Type}
variable {H1 H2 H3 H H' : History ι ε} {i v : ι} {𝒬 : QuorumSystem ι}

/-- Nothing has happened yet. -/
def init : History ι ε where
  term := fun _ => 0
  log := fun _ => []
  vote := fun _ _ => none
  stood := fun _ _ => none
  leader := fun _ => none
  lead := fun _ => []
  saved := fun _ => []
  acked := fun _ _ => 0

/-! ## Growth of a history -/

/-- `Extends H H'`: everything `H` records is still recorded in `H'`, and what
a member acknowledged in a term it has left is final. -/
structure Extends (H H' : History ι ε) : Prop where
  term_le : ∀ v, H.term v ≤ H'.term v
  vote : ∀ v T c, H.vote v T = some c → H'.vote v T = some c
  stood : ∀ v T L, H.stood v T = some L → H'.stood v T = some L
  leader : ∀ T c, H.leader T = some c → H'.leader T = some c
  lead : ∀ T, H.lead T <+: H'.lead T
  acked_le : ∀ v T, H.acked v T ≤ H'.acked v T
  acked_frozen : ∀ v T, T < H.term v → H'.acked v T = H.acked v T

theorem Extends.refl (H : History ι ε) : Extends H H where
  term_le := fun _ => le_rfl
  vote := fun _ _ _ h => h
  stood := fun _ _ _ h => h
  leader := fun _ _ h => h
  lead := fun _ => List.prefix_rfl
  acked_le := fun _ _ => le_rfl
  acked_frozen := fun _ _ _ => rfl

theorem Extends.trans (h : Extends H1 H2) (h' : Extends H2 H3) :
    Extends H1 H3 where
  term_le := fun v => (h.term_le v).trans (h'.term_le v)
  vote := fun v T c hv => h'.vote v T c (h.vote v T c hv)
  stood := fun v T L hv => h'.stood v T L (h.stood v T L hv)
  leader := fun T c hv => h'.leader T c (h.leader T c hv)
  lead := fun T => (h.lead T).trans (h'.lead T)
  acked_le := fun v T => (h.acked_le v T).trans (h'.acked_le v T)
  acked_frozen := fun v T hT => by
    rw [h'.acked_frozen v T (hT.trans_le (h.term_le v)), h.acked_frozen v T hT]

/-! ## Moves -/

variable [DecidableEq ι] (H : History ι ε)

/-- Member `v` moves to the term `T`. -/
def raise (v : ι) (T : ℕ) : History ι ε :=
  { H with term := update H.term v T }

/-- Member `v` opens the next term, votes for itself and stands with its log. -/
def stand (v : ι) : History ι ε :=
  { H with
    term := update H.term v (H.term v + 1)
    vote := fun u S => if u = v ∧ S = H.term v + 1 then some v else H.vote u S
    stood := fun u S => if u = v ∧ S = H.term v + 1 then some (H.log v) else H.stood u S }

/-- Member `v` votes for `c` in its current term. -/
def grant (v c : ι) : History ι ε :=
  { H with vote := fun u S => if u = v ∧ S = H.term v then some c else H.vote u S }

/-- Member `c` wins its current term; the term's leader log is the log it holds. -/
def win (c : ι) : History ι ε :=
  { H with
    leader := update H.leader (H.term c) (some c)
    lead := update H.lead (H.term c) (H.log c)
    saved := update H.saved c (H.log c)
    acked := fun u S => if u = c ∧ S = H.term c then (H.log c).length else H.acked u S }

/-- The leader `c` of its current term appends an entry. -/
def extend (c : ι) (e : ε) : History ι ε :=
  { H with
    log := update H.log c (H.log c ++ [e])
    lead := update H.lead (H.term c) (H.lead (H.term c) ++ [e])
    saved := update H.saved c (H.log c ++ [e])
    acked := fun u S =>
      if u = c ∧ S = H.term c then (H.lead (H.term c)).length + 1 else H.acked u S }

/-- Member `v` takes over the first `n` entries of its term's leader log. -/
noncomputable def hold (v : ι) (n : ℕ) : History ι ε :=
  { H with log := update H.log v (overlay (H.log v) ((H.lead (H.term v)).take n)) }

/-- Member `v` saves its log. -/
def save (v : ι) : History ι ε := { H with saved := update H.saved v (H.log v) }

/-- Member `v` acknowledges the first `n` entries of its term's leader log. -/
def ack (v : ι) (n : ℕ) : History ι ε :=
  { H with
    acked := fun u S =>
      if u = v ∧ S = H.term v then max (H.acked v (H.term v)) n else H.acked u S }

/-- Member `v` falls back to the log it has saved. -/
def lose (v : ι) : History ι ε := { H with log := update H.log v (H.saved v) }

/-- The moves a member can make, with what each of them requires. -/
inductive Step [Stamped ε] (𝒬 : QuorumSystem ι) : ι → History ι ε → History ι ε → Prop
  | raise {H : History ι ε} (v : ι) (T : ℕ) : H.term v < T → Step 𝒬 v H (H.raise v T)
  | stand {H : History ι ε} (v : ι) : Step 𝒬 v H (H.stand v)
  | grant {H : History ι ε} (v c : ι) (L : List ε) :
      H.stood c (H.term v) = some L → UpToDate L (H.log v) →
      (H.vote v (H.term v) = none ∨ H.vote v (H.term v) = some c) → Step 𝒬 v H (H.grant v c)
  | win {H : History ι ε} (c : ι) (Q : Finset ι) :
      H.stood c (H.term c) = some (H.log c) → H.leader (H.term c) ≠ some c →
      𝒬.IsQuorum Q → (∀ v ∈ Q, H.vote v (H.term c) = some c) → Step 𝒬 c H (H.win c)
  | extend {H : History ι ε} (c : ι) (e : ε) :
      H.leader (H.term c) = some c → stamp e = H.term c → Step 𝒬 c H (H.extend c e)
  | hold {H : History ι ε} (v l : ι) (n : ℕ) :
      H.leader (H.term v) = some l → l ≠ v → Step 𝒬 v H (H.hold v n)
  | save {H : History ι ε} (v : ι) : Step 𝒬 v H (H.save v)
  | ack {H : History ι ε} (v : ι) (n : ℕ) :
      n ≤ (H.lead (H.term v)).length → (H.lead (H.term v)).take n <+: H.log v →
      (H.lead (H.term v)).take n <+: H.saved v → Step 𝒬 v H (H.ack v n)

/-- A run of moves of one member. -/
def Run [Stamped ε] (𝒬 : QuorumSystem ι) (i : ι) : History ι ε → History ι ε → Prop :=
  Relation.ReflTransGen (Step 𝒬 i)

/-! ## Moves that grow any history -/

variable {H}

theorem extends_raise {T : ℕ} (hT : H.term v < T) : Extends H (H.raise v T) where
  term_le := by
    intro u
    by_cases hu : u = v
    · subst hu
      simp [raise, hT.le]
    · simp [raise, hu]
  vote := fun _ _ _ h => h
  stood := fun _ _ _ h => h
  leader := fun _ _ h => h
  lead := fun _ => List.prefix_rfl
  acked_le := fun _ _ => le_rfl
  acked_frozen := fun _ _ _ => rfl

theorem extends_grant {c : ι} (hvote : H.vote v (H.term v) = none ∨ H.vote v (H.term v) = some c) :
    Extends H (H.grant v c) where
  term_le := fun _ => le_rfl
  vote := by
    intro u T b h
    by_cases hu : u = v ∧ T = H.term v
    · obtain ⟨rfl, rfl⟩ := hu
      have hb : b = c := by
        rcases hvote with hn | hs
        · rw [hn] at h
          simp at h
        · rw [hs] at h
          exact (Option.some.inj h).symm
      simp [grant, hb]
    · simp only [grant, if_neg hu, h]
  stood := fun _ _ _ h => h
  leader := fun _ _ h => h
  lead := fun _ => List.prefix_rfl
  acked_le := fun _ _ => le_rfl
  acked_frozen := fun _ _ _ => rfl

omit [DecidableEq ι] in
/-- A history with other logs records the same. -/
theorem extends_logs (log saved : ι → List ε) :
    Extends H { H with log := log, saved := saved } where
  term_le := fun _ => le_rfl
  vote := fun _ _ _ h => h
  stood := fun _ _ _ h => h
  leader := fun _ _ h => h
  lead := fun _ => List.prefix_rfl
  acked_le := fun _ _ => le_rfl
  acked_frozen := fun _ _ _ => rfl

theorem extends_ack (v : ι) (n : ℕ) : Extends H (H.ack v n) where
  term_le := fun _ => le_rfl
  vote := fun _ _ _ h => h
  stood := fun _ _ _ h => h
  leader := fun _ _ h => h
  lead := fun _ => List.prefix_rfl
  acked_le := by
    intro u S
    by_cases hu : u = v ∧ S = H.term v
    · obtain ⟨rfl, rfl⟩ := hu
      simp [ack]
    · simp [ack, if_neg hu]
  acked_frozen := by
    intro u S hS
    have hne : ¬ (u = v ∧ S = H.term v) := by
      rintro ⟨rfl, rfl⟩
      omega
    simp [ack, if_neg hne]

/-! ## What a member's moves leave alone -/

/-- `Frame i H H'`: on the way from `H` to `H'` no other member than `i` changed
its term, one of its logs or a vote, or won a term. -/
structure Frame (i : ι) (H H' : History ι ε) : Prop where
  term : ∀ j, j ≠ i → H'.term j = H.term j
  log : ∀ j, j ≠ i → H'.log j = H.log j
  saved : ∀ j, j ≠ i → H'.saved j = H.saved j
  vote : ∀ j, j ≠ i → ∀ T, H'.vote j T = H.vote j T
  leader : ∀ j, j ≠ i → ∀ T, H'.leader T = some j → H.leader T = some j

omit [DecidableEq ι] in
theorem Frame.refl (i : ι) (H : History ι ε) : Frame i H H where
  term := fun _ _ => rfl
  log := fun _ _ => rfl
  saved := fun _ _ => rfl
  vote := fun _ _ _ => rfl
  leader := fun _ _ _ h => h

omit [DecidableEq ι] in
theorem Frame.trans (h : Frame i H1 H2) (h' : Frame i H2 H3) :
    Frame i H1 H3 where
  term := fun j hj => (h'.term j hj).trans (h.term j hj)
  log := fun j hj => (h'.log j hj).trans (h.log j hj)
  saved := fun j hj => (h'.saved j hj).trans (h.saved j hj)
  vote := fun j hj T => (h'.vote j hj T).trans (h.vote j hj T)
  leader := fun j hj T hl => h.leader j hj T (h'.leader j hj T hl)

theorem Step.frame [Stamped ε] (h : Step 𝒬 i H H') : Frame i H H' := by
  cases h with
  | raise v T _ => exact { Frame.refl i H with term := fun j hj => by simp [History.raise, hj] }
  | stand v =>
    exact { Frame.refl i H with
      term := fun j hj => by simp [History.stand, hj]
      vote := fun j hj T => by simp [History.stand, hj] }
  | grant v c L _ _ _ =>
    exact { Frame.refl i H with vote := fun j hj T => by simp [History.grant, hj] }
  | win c Q _ _ _ _ =>
    refine { Frame.refl i H with
      saved := fun j hj => by simp [History.win, hj]
      leader := fun j hj T h => ?_ }
    by_cases hT : T = H.term i
    · subst hT
      have hij : i = j := by simpa [History.win] using h
      exact absurd hij.symm hj
    · simpa [History.win, hT] using h
  | extend c e _ _ =>
    exact { Frame.refl i H with
      log := fun j hj => by simp [History.extend, hj]
      saved := fun j hj => by simp [History.extend, hj] }
  | hold v l n _ _ => exact { Frame.refl i H with log := fun j hj => by simp [History.hold, hj] }
  | save v => exact { Frame.refl i H with saved := fun j hj => by simp [History.save, hj] }
  | ack v n _ _ _ => exact { Frame.refl i H with }

theorem Run.frame [Stamped ε] (h : Run 𝒬 i H H') : Frame i H H' := by
  induction h with
  | refl => exact Frame.refl i H
  | tail _ hlast ih => exact ih.trans hlast.frame

end History
