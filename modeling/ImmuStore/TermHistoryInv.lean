/-
# The inductive invariant of a history

The invariant of `History.Step`, in three groups.

* **Votes.**  Votes are cast in terms already reached, for members that stood;
  a leader was elected by a quorum of them.
* **Logs.**  Every log is `Anchored`: its stretch up to an entry stamped `t` is
  a stretch of the term-`t` leader's log.  This alone is log matching.
* **Completeness.**  An entry of the term-`T` leader's own term is, up to its
  index, in every later leader's log, in the log of whoever acknowledged it and
  in the log of whoever got such a member's vote, unless it is `Dead`: a quorum
  has left the term `T` without acknowledging it, so that it can never be chosen.

`Inv.step` shows that every move keeps it.
-/
import ImmuStore.TermHistory

open Stamped (stamp)

namespace History

variable {ι ε : Type} [Stamped ε]

/-- Up to each of its entries, the log is a stretch of the leader log of that
entry's term. -/
def Anchored (H : History ι ε) (X : List ε) : Prop :=
  ∀ i e, X[i]? = some e → X.take (i + 1) <+: H.lead (stamp e)

/-- The term-`T` leader's log has an entry of the term `T` itself at position `i`. -/
def OwnAt (H : History ι ε) (T i : ℕ) : Prop := ∃ e, (H.lead T)[i]? = some e ∧ stamp e = T

/-- A quorum has left the term `T` without acknowledging `n` of its entries. -/
def Dead (𝒬 : QuorumSystem ι) (H : History ι ε) (T n : ℕ) : Prop :=
  ∃ Q, 𝒬.IsQuorum Q ∧ ∀ v ∈ Q, T < H.term v ∧ H.acked v T < n

/-- `Carries 𝒬 H T i X`: the log `X` holds the term-`T` leader's log up to
position `i`, unless that position can no longer be chosen. -/
def Carries (𝒬 : QuorumSystem ι) (H : History ι ε) (T i : ℕ) (X : List ε) : Prop :=
  (H.lead T).take (i + 1) <+: X ∨ Dead 𝒬 H T (i + 1)

/-- `Holds 𝒬 H v X`: the log `X` is one the member `v` may hold. -/
structure Holds (𝒬 : QuorumSystem ι) (H : History ι ε) (v : ι) (X : List ε) : Prop where
  anchored : H.Anchored X
  /-- It has no entries from the future. -/
  le : ∀ e ∈ X, stamp e ≤ H.term v
  /-- It has what the member acknowledged in its current term. -/
  acked : (H.lead (H.term v)).take (H.acked v (H.term v)) <+: X
  /-- It carries what the member ever acknowledged. -/
  kept : ∀ T i, i < H.acked v T → H.OwnAt T i → Carries 𝒬 H T i X

/-- The inductive invariant. -/
structure Inv (𝒬 : QuorumSystem ι) (H : History ι ε) : Prop where
  /-- Votes are cast in terms already reached. -/
  vote_le : ∀ v T c, H.vote v T = some c → T ≤ H.term v
  /-- Votes go to members that stood. -/
  vote_stood : ∀ v T c, H.vote v T = some c → ∃ L, H.stood c T = some L
  /-- Who stands votes for itself. -/
  stood_vote : ∀ c T L, H.stood c T = some L → H.vote c T = some c
  /-- A candidate's log is older than the term it stands in. -/
  stood_lt : ∀ c T L, H.stood c T = some L → ∀ e ∈ L, stamp e < T
  /-- A leader was elected by a quorum, and its log starts as it stood. -/
  leader_won : ∀ T c, H.leader T = some c →
    ∃ L M Q, H.stood c T = some L ∧ H.lead T = L ++ M ∧ (∀ e ∈ M, stamp e = T) ∧
      𝒬.IsQuorum Q ∧ ∀ v ∈ Q, H.vote v T = some c
  /-- A term without a leader has no leader log. -/
  lead_none : ∀ T, H.leader T = none → H.lead T = []
  lead_anchored : ∀ T, H.Anchored (H.lead T)
  stood_anchored : ∀ c T L, H.stood c T = some L → H.Anchored L
  log_holds : ∀ v, Holds 𝒬 H v (H.log v)
  saved_holds : ∀ v, Holds 𝒬 H v (H.saved v)
  /-- The leader of the term it is in holds that term's leader log. -/
  own : ∀ c, H.leader (H.term c) = some c → H.log c = H.lead (H.term c)
  /-- It has saved it, too. -/
  own_saved : ∀ c, H.leader (H.term c) = some c → H.saved c = H.lead (H.term c)
  acked_le : ∀ v T, H.acked v T ≤ (H.lead T).length
  acked_term : ∀ v T, 0 < H.acked v T → T ≤ H.term v
  /-- Later leaders carry the entries of earlier terms. -/
  complete : ∀ T T' i c, T < T' → H.leader T' = some c → H.OwnAt T i →
    Carries 𝒬 H T i (H.lead T')
  /-- Candidates carry what their voters acknowledged before the vote. -/
  promised : ∀ v T T' c L i, H.vote v T' = some c → H.stood c T' = some L → T < T' →
    i < H.acked v T → H.OwnAt T i → Carries 𝒬 H T i L

/-! ## Stability under growth -/

section Growth

variable {H H' : History ι ε} {𝒬 : QuorumSystem ι}
variable {T i : ℕ}

theorem Anchored.mono (hext : Extends H H') {X : List ε} (h : H.Anchored X) : H'.Anchored X :=
  fun i e hi => (h i e hi).trans (hext.lead _)

omit [Stamped ε] in
theorem Dead.mono (hext : Extends H H') {n : ℕ} (h : Dead 𝒬 H T n) : Dead 𝒬 H' T n := by
  obtain ⟨Q, hQ, hall⟩ := h
  refine ⟨Q, hQ, fun v hv => ?_⟩
  obtain ⟨hterm, hack⟩ := hall v hv
  exact ⟨hterm.trans_le (hext.term_le v), by rw [hext.acked_frozen v T hterm]; exact hack⟩

theorem OwnAt.lt_length (h : H.OwnAt T i) : i < (H.lead T).length := by
  obtain ⟨e, he, -⟩ := h
  exact (List.getElem?_eq_some_iff.mp he).1

/-- What a leader has entered stays. -/
theorem OwnAt.mono (hext : Extends H H') (h : H.OwnAt T i) : H'.OwnAt T i := by
  obtain ⟨e, he, hs⟩ := h
  exact ⟨e, getElem?_of_isPrefix (hext.lead T) he, hs⟩

/-- A position that a leader log already has holds an entry of the log's own term only if it
did before. -/
theorem OwnAt.of_mono (hext : Extends H H') (hi : i < (H.lead T).length) (h : H'.OwnAt T i) :
    H.OwnAt T i := by
  obtain ⟨e, he, hs⟩ := h
  rw [getElem?_of_isPrefix (hext.lead T) (List.getElem?_eq_getElem hi),
    ← List.getElem?_eq_getElem hi] at he
  exact ⟨e, he, hs⟩

omit [Stamped ε] in
/-- Growth of the history does not change the part of a leader log below a
position it already has. -/
theorem Carries.mono (hext : Extends H H') (hi : i < (H.lead T).length) {X X' : List ε}
    (hX : X <+: X') (h : Carries 𝒬 H T i X) : Carries 𝒬 H' T i X' := by
  rcases h with h | h
  · left
    rw [take_eq_of_isPrefix (hext.lead T) (by omega : i + 1 ≤ (H.lead T).length)]
    exact h.trans hX
  · exact Or.inr (h.mono hext)

end Growth

/-! ## Consequences inside one history -/

section Consequences

variable {H : History ι ε} {𝒬 : QuorumSystem ι}
variable {T i : ℕ} {X : List ε}
variable {e e' : ε} {c v : ι}

/-- Anchored logs are sorted by term: nothing before an entry is newer than it. -/
theorem Inv.lead_le (hI : Inv 𝒬 H) : ∀ e ∈ H.lead T, stamp e ≤ T := by
  intro e he
  rcases hc : H.leader T with _ | c
  · rw [hI.lead_none T hc] at he
    simp at he
  · obtain ⟨L, M, Q, hst, hlead, hM, -, -⟩ := hI.leader_won T c hc
    rw [hlead, List.mem_append] at he
    rcases he with he | he
    · exact (hI.stood_lt c T L hst e he).le
    · exact (hM e he).le

theorem Inv.leader_of_mem_lead (hI : Inv 𝒬 H) (he : e ∈ H.lead T) : ∃ c, H.leader T = some c := by
  rcases hc : H.leader T with _ | c
  · rw [hI.lead_none T hc] at he
    simp at he
  · exact ⟨c, rfl⟩

/-- Terms do not fall along a log. -/
theorem Inv.sorted (hI : Inv 𝒬 H) (hX : H.Anchored X) {j : ℕ} (hi : X[i]? = some e)
    (hj : X[j]? = some e') (hij : i ≤ j) : stamp e ≤ stamp e' := by
  have hpre := hX j e' hj
  have hmem : (X.take (j + 1))[i]? = some e := by
    rw [List.getElem?_take_of_lt (by omega)]
    exact hi
  exact hI.lead_le e (List.mem_of_getElem? (getElem?_of_isPrefix hpre hmem))

/-- **Log matching.**  Two anchored logs with the same term at the same position
agree up to it. -/
theorem Anchored.matching {Y : List ε} (hX : H.Anchored X) (hY : H.Anchored Y) (hi : X[i]? = some e)
    (hi' : Y[i]? = some e') (hs : stamp e = stamp e') :
    X.take (i + 1) = Y.take (i + 1) := by
  have hlX : i < X.length := (List.getElem?_eq_some_iff.mp hi).1
  have hlY : i < Y.length := (List.getElem?_eq_some_iff.mp hi').1
  have h1 := hX i e hi
  have h2 := hY i e' hi'
  rw [hs] at h1
  have hlen : (X.take (i + 1)).length = (Y.take (i + 1)).length := by
    rw [List.length_take_of_le (by omega), List.length_take_of_le (by omega)]
  exact (List.prefix_of_prefix_length_le h1 h2 hlen.le).eq_of_length hlen

/-- The whole of an anchored log is a stretch of the leader log of its last term. -/
theorem Anchored.prefix_lead (hX : H.Anchored X) (hne : X ≠ []) : X <+: H.lead (lastStamp X) := by
  obtain ⟨e, he, hs⟩ := exists_last_of_ne_nil hne
  have hlen : 0 < X.length := List.length_pos_iff.mpr hne
  have h := hX _ e he
  rw [hs, show X.length - 1 + 1 = X.length by omega, List.take_length] at h
  exact h

section

variable (hI : Inv 𝒬 H)
include hI

/-- Leaders of a term are unique: whoever holds a quorum of its votes is its winner. -/
theorem Inv.leader_unique {b : ι} (hb : H.leader T = some b) {Q : Finset ι} (hQ : 𝒬.IsQuorum Q)
    (hvotes : ∀ v ∈ Q, H.vote v T = some c) : b = c := by
  obtain ⟨L, M, Q', -, -, -, hQ', hvotes'⟩ := hI.leader_won T b hb
  obtain ⟨v, hv, hv'⟩ := 𝒬.meet Q Q' hQ hQ'
  have h1 := hvotes v hv
  rw [hvotes' v hv'] at h1
  exact Option.some.inj h1

/-- No vote in a term to come, -/
theorem Inv.vote_none (hT : H.term v < T) : H.vote v T = none := by
  rcases h : H.vote v T with _ | c
  · rfl
  · have := hI.vote_le v T c h
    omega

/-- no candidate, -/
theorem Inv.stood_none (hT : H.term v < T) : H.stood v T = none := by
  rcases h : H.stood v T with _ | L
  · rfl
  · have := hI.vote_le v T v (hI.stood_vote v T L h)
    omega

theorem Inv.leader_le (h : H.leader T = some c) : T ≤ H.term c := by
  obtain ⟨L, M, Q, hst, -⟩ := hI.leader_won T c h
  exact hI.vote_le c T c (hI.stood_vote c T L hst)

/-- and nothing acknowledged. -/
theorem Inv.acked_zero (hT : H.term v < T) : H.acked v T = 0 := by
  rcases Nat.eq_zero_or_pos (H.acked v T) with h | h
  · exact h
  · have := hI.acked_term v T h
    omega

/-- A candidate with a quorum of votes finds its term without a leader. -/
theorem Inv.leader_none_of_quorum (hnot : H.leader T ≠ some c) {Q : Finset ι} (hQ : 𝒬.IsQuorum Q)
    (hvotes : ∀ v ∈ Q, H.vote v T = some c) :
    H.leader T = none := by
  rcases h : H.leader T with _ | b
  · rfl
  · rw [hI.leader_unique h hQ hvotes] at h
    exact absurd h hnot

/-- A log a member may hold stays one while the history grows, as long as the
member acknowledges nothing more. -/
theorem Holds.mono {H' : History ι ε} (hext : Extends H H') (hack : ∀ T, H'.acked v T = H.acked v T)
    (h : Holds 𝒬 H v X) :
    Holds 𝒬 H' v X where
  anchored := h.anchored.mono hext
  le := fun e he => (h.le e he).trans (hext.term_le v)
  acked := by
    rw [hack]
    rcases (hext.term_le v).eq_or_lt with heq | hlt
    · rw [← heq, take_eq_of_isPrefix (hext.lead _) (hI.acked_le v _)]
      exact h.acked
    · rw [hI.acked_zero hlt]
      exact List.nil_prefix
  kept := by
    intro T i hi hown
    rw [hack] at hi
    have hlt : i < (H.lead T).length := hi.trans_le (hI.acked_le v T)
    exact (h.kept T i hi (hown.of_mono hext hlt)).mono hext hlt List.prefix_rfl

/-- **Voters pass on what they hold.**  If the voter's log holds the term-`T`
leader's log up to an entry of the term `T`, then so does every candidate log
that is as up to date as the voter's, or the entry is dead. -/
theorem Inv.carries_of_upToDate {L : List ε} (hX : H.Anchored X) (hL : H.Anchored L)
    (hup : UpToDate L X) (hown : H.OwnAt T i) (hXT : (H.lead T).take (i + 1) <+: X) :
    Carries 𝒬 H T i L := by
  have hi : i < (H.lead T).length := hown.lt_length
  obtain ⟨e, he, hs⟩ := id hown
  have hlenP : ((H.lead T).take (i + 1)).length = i + 1 := List.length_take_of_le (by omega)
  have hXi : X[i]? = some e := by
    refine getElem?_of_isPrefix hXT ?_
    rw [List.getElem?_take_of_lt (by omega)]
    exact he
  have hXne : X ≠ [] := by
    rintro rfl
    simp at hXi
  have hLne : L ≠ [] := hup.ne_nil hXne
  obtain ⟨x, hx, hxs⟩ := exists_last_of_ne_nil hXne
  obtain ⟨y, hy, hys⟩ := exists_last_of_ne_nil hLne
  have hXlen : i + 1 ≤ X.length := by
    have := hXT.length_le
    omega
  have hTX : T ≤ lastStamp X := by
    rw [← hs, ← hxs]
    exact hI.sorted hX hXi hx (by omega)
  have hXL : lastStamp X ≤ lastStamp L := by
    rcases hup with h | ⟨h, -⟩ <;> omega
  have hLlead := hL.prefix_lead hLne
  rcases eq_or_lt_of_le (hTX.trans hXL) with heq | hlt
  · -- the candidate's last entry is of the term `T` itself, and its log is no shorter
    left
    rw [← heq] at hLlead
    have hlen : X.length ≤ L.length := by
      rcases hup with h | ⟨-, h⟩ <;> omega
    exact List.prefix_of_prefix_length_le (List.take_prefix _ _) hLlead (by omega)
  · -- it is of a later term, whose leader carries the entry
    obtain ⟨c, hc⟩ : ∃ c, H.leader (lastStamp L) = some c := by
      refine hI.leader_of_mem_lead (e := y) (List.mem_of_getElem? (getElem?_of_isPrefix hLlead hy))
    rcases hI.complete T (lastStamp L) i c hlt hc hown with hcar | hdead
    · left
      rcases le_total (i + 1) L.length with hle | hle
      · exact List.prefix_of_prefix_length_le hcar hLlead (by omega)
      · -- a shorter log would end inside the carried part, which is not that new
        exfalso
        have hpre : L <+: (H.lead T).take (i + 1) :=
          List.prefix_of_prefix_length_le hLlead hcar (by omega)
        have hy' : y ∈ (H.lead T).take (i + 1) :=
          List.mem_of_getElem? (getElem?_of_isPrefix hpre hy)
        have := hI.lead_le y (List.mem_of_mem_take hy')
        omega
    · exact Or.inr hdead

end

end Consequences

/-! ## The moves extend the history -/

section Moves

variable [DecidableEq ι] {H : History ι ε} {𝒬 : QuorumSystem ι}
variable {c : ι}
variable {S : ℕ}

theorem Inv.extends_stand (hI : Inv 𝒬 H) (v : ι) : Extends H (H.stand v) where
  term_le := by
    intro u
    by_cases hu : u = v
    · subst hu
      simp [stand]
    · simp [stand, hu]
  vote := by
    intro u T c h
    have hne : ¬ (u = v ∧ T = H.term v + 1) := by
      rintro ⟨rfl, rfl⟩
      rw [hI.vote_none (Nat.lt_succ_self _)] at h
      simp at h
    simp only [stand, if_neg hne, h]
  stood := by
    intro u T L h
    have hne : ¬ (u = v ∧ T = H.term v + 1) := by
      rintro ⟨rfl, rfl⟩
      rw [hI.stood_none (Nat.lt_succ_self _)] at h
      simp at h
    simp only [stand, if_neg hne, h]
  leader := fun _ _ h => h
  lead := fun _ => List.prefix_rfl
  acked_le := fun _ _ => le_rfl
  acked_frozen := fun _ _ _ => rfl

/-- Member `c` holds `X` as the leader log of its term, and has saved and acknowledged it. -/
def install (H : History ι ε) (c : ι) (X : List ε) : History ι ε :=
  { H with
    log := Function.update H.log c X
    leader := Function.update H.leader (H.term c) (some c)
    lead := Function.update H.lead (H.term c) X
    saved := Function.update H.saved c X
    acked := fun u S => if u = c ∧ S = H.term c then X.length else H.acked u S }

omit [Stamped ε] in
theorem lead_install_self (H : History ι ε) (c : ι) (X : List ε) :
    (H.install c X).lead (H.term c) = X := by
  simp [install]

omit [Stamped ε] in
theorem lead_install_of_ne (hS : S ≠ H.term c) (X : List ε) :
    (H.install c X).lead S = H.lead S := by
  simp [install, hS]

omit [Stamped ε] in
theorem leader_install_of_ne (hS : S ≠ H.term c) (X : List ε) :
    (H.install c X).leader S = H.leader S := by
  simp [install, hS]

omit [Stamped ε] in
theorem acked_install_of_ne {u : ι} (h : ¬ (u = c ∧ S = H.term c)) (X : List ε) :
    (H.install c X).acked u S = H.acked u S :=
  if_neg h

omit [Stamped ε] in
theorem win_eq_install (H : History ι ε) (c : ι) : H.win c = H.install c (H.log c) := by
  simp [win, install]

theorem Inv.extend_eq_install (hI : Inv 𝒬 H) (hc : H.leader (H.term c) = some c) (e : ε) :
    H.extend c e = H.install c (H.log c ++ [e]) := by
  have hleader : Function.update H.leader (H.term c) (some c) = H.leader := by
    rw [← hc]
    exact Function.update_eq_self _ _
  simp [extend, install, hleader, hI.own c hc]

theorem Inv.extends_install (hI : Inv 𝒬 H) {X : List ε}
    (hc : ∀ b, H.leader (H.term c) = some b → b = c) (hX : H.lead (H.term c) <+: X) :
    Extends H (H.install c X) where
  term_le := fun _ => le_rfl
  vote := fun _ _ _ h => h
  stood := fun _ _ _ h => h
  leader := by
    intro T b h
    by_cases hT : T = H.term c
    · subst hT
      simp [install, hc b h]
    · simp [install, hT, h]
  lead := by
    intro T
    by_cases hT : T = H.term c
    · subst hT
      simpa [install] using hX
    · simp [install, hT]
  acked_le := by
    intro u S
    by_cases hu : u = c ∧ S = H.term c
    · obtain ⟨rfl, rfl⟩ := hu
      simpa [install] using (hI.acked_le u _).trans hX.length_le
    · simp [install, if_neg hu]
  acked_frozen := by
    intro u S hS
    have hne : ¬ (u = c ∧ S = H.term c) := by
      rintro ⟨rfl, rfl⟩
      omega
    simp [install, if_neg hne]

theorem Inv.extends_win (hI : Inv 𝒬 H) (hnone : H.leader (H.term c) = none) :
    Extends H (H.win c) := by
  rw [win_eq_install]
  refine hI.extends_install (fun b hb => ?_) (by rw [hI.lead_none _ hnone]; exact List.nil_prefix)
  rw [hnone] at hb
  cases hb

theorem Inv.extends_extend (hI : Inv 𝒬 H) (hc : H.leader (H.term c) = some c) (e : ε) :
    Extends H (H.extend c e) := by
  rw [hI.extend_eq_install hc]
  refine hI.extends_install (fun b hb => Option.some.inj (hb.symm.trans hc)) ?_
  rw [hI.own c hc]
  exact List.prefix_append _ _

end Moves

end History
