/-
# Every move of a history keeps the invariant

One preservation lemma per move of `History.Step`, assembled in `Inv.step`, and
what the invariant says about whole runs: votes, leaders and leader logs are
never taken back (`Inv.steps_extends`), and what a quorum acknowledged in its own term
(`Chosen`) is in every later leader's log (`Chosen.prefix_lead`), so that any two
chosen prefixes are comparable (`ChosenBy.comparable`).
-/
import ImmuStore.TermHistoryInv

open Function
open Stamped (stamp)

namespace History

variable {ι ε : Type} [Stamped ε] {H : History ι ε} {𝒬 : QuorumSystem ι}

/-! ## Moves that leave the logs alone -/

/-- A move that casts votes and enters terms keeps the invariant: a new vote goes to a member
that stood with what the voter has acknowledged, and who newly stands votes for itself and
stands with an older log. -/
theorem Inv.ballot (hI : Inv 𝒬 H) {term : ι → ℕ} {vote : ι → ℕ → Option ι}
    {stood : ι → ℕ → Option (List ε)}
    (hext : Extends H { H with term := term, vote := vote, stood := stood })
    (hleads : ∀ c, H.leader (term c) = some c → term c = H.term c)
    (hvote : ∀ u S c, vote u S = some c → H.vote u S = some c ∨ S ≤ term u ∧
      ∃ L, stood c S = some L ∧
        ∀ T i, T < S → i < H.acked u T → H.OwnAt T i → Carries 𝒬 H T i L)
    (hstood : ∀ c S L, stood c S = some L → H.stood c S = some L ∨
      vote c S = some c ∧ (∀ e ∈ L, stamp e < S) ∧ H.Anchored L) :
    Inv 𝒬 { H with term := term, vote := vote, stood := stood } where
  vote_le := by
    intro u S c h
    rcases hvote u S c h with h | ⟨hle, -⟩
    · exact (hI.vote_le u S c h).trans (hext.term_le u)
    · exact hle
  vote_stood := by
    intro u S c h
    rcases hvote u S c h with h | ⟨-, L, hL, -⟩
    · obtain ⟨L, hL⟩ := hI.vote_stood u S c h
      exact ⟨L, hext.stood _ _ _ hL⟩
    · exact ⟨L, hL⟩
  stood_vote := by
    intro c S L h
    rcases hstood c S L h with h | ⟨hself, -⟩
    · exact hext.vote _ _ _ (hI.stood_vote c S L h)
    · exact hself
  stood_lt := by
    intro c S L h
    rcases hstood c S L h with h | ⟨-, hlt, -⟩
    · exact hI.stood_lt c S L h
    · exact hlt
  leader_won := by
    intro S c h
    obtain ⟨L, M, Q, hst, hlead, hM, hQ, hvotes⟩ := hI.leader_won S c h
    exact ⟨L, M, Q, hext.stood _ _ _ hst, hlead, hM, hQ, fun u hu => hext.vote _ _ _ (hvotes u hu)⟩
  lead_none := hI.lead_none
  lead_anchored := hI.lead_anchored
  stood_anchored := by
    intro c S L h
    rcases hstood c S L h with h | ⟨-, -, hanchored⟩
    · exact hI.stood_anchored c S L h
    · exact hanchored
  log_holds := fun u => (hI.log_holds u).mono hI hext (fun _ => rfl)
  saved_holds := fun u => (hI.saved_holds u).mono hI hext (fun _ => rfl)
  own := by
    intro c hc
    have hsame := hleads c hc
    show H.log c = H.lead (term c)
    rw [hsame]
    exact hI.own c (hsame ▸ hc)
  own_saved := by
    intro c hc
    have hsame := hleads c hc
    show H.saved c = H.lead (term c)
    rw [hsame]
    exact hI.own_saved c (hsame ▸ hc)
  acked_le := hI.acked_le
  acked_term := fun u S h => (hI.acked_term u S h).trans (hext.term_le u)
  complete := fun S S' i c hS hc hown =>
    (hI.complete S S' i c hS hc hown).mono hext hown.lt_length List.prefix_rfl
  promised := by
    intro u S S' c L i hv hst hS hi hown
    obtain ⟨L', hL', hcarries⟩ : ∃ L', stood c S' = some L' ∧ Carries 𝒬 H S i L' := by
      rcases hvote u S' c hv with hv' | ⟨-, L', hL', hkept⟩
      · obtain ⟨L', hL'⟩ := hI.vote_stood u S' c hv'
        exact ⟨L', hext.stood _ _ _ hL', hI.promised u S S' c L' i hv' hL' hS hi hown⟩
      · exact ⟨L', hL', hkept S i hS hi hown⟩
    obtain rfl : L = L' := Option.some.inj (hst.symm.trans hL')
    exact hcarries.mono hext hown.lt_length List.prefix_rfl

variable [DecidableEq ι]
variable {v i c l : ι} {H' : History ι ε}

/-- Nobody leads a term it has just entered. -/
theorem Inv.leads_same (hI : Inv 𝒬 H) {T : ℕ} (hT : H.term v < T) (c : ι)
    (hc : H.leader (update H.term v T c) = some c) :
    update H.term v T c = H.term c := by
  refine update_of_ne ?_ ..
  rintro rfl
  rw [update_self] at hc
  have := hI.leader_le hc
  omega

theorem Inv.raise (hI : Inv 𝒬 H) {T : ℕ} (hT : H.term v < T) : Inv 𝒬 (H.raise v T) :=
  hI.ballot (extends_raise hT) (hI.leads_same hT) (fun _ _ _ h => .inl h) fun _ _ _ h => .inl h

theorem Inv.stand (hI : Inv 𝒬 H) (v : ι) : Inv 𝒬 (H.stand v) := by
  have hnewvote : (H.stand v).vote v (H.term v + 1) = some v := by simp [History.stand]
  have hnewstood : (H.stand v).stood v (H.term v + 1) = some (H.log v) := by simp [History.stand]
  -- the only new vote and the only new candidacy are those of `v` in its new term
  refine hI.ballot (hI.extends_stand v) (hI.leads_same (Nat.lt_succ_self _)) ?_ ?_
  · intro u S c h
    split_ifs at h with hu
    · obtain ⟨rfl, rfl⟩ := hu
      cases h
      refine .inr ⟨by simp, H.log u, hnewstood, fun T i _ hi hown => ?_⟩
      exact (hI.log_holds u).kept T i hi hown
    · exact .inl h
  · intro c S L h
    split_ifs at h with hc
    · obtain ⟨rfl, rfl⟩ := hc
      cases h
      exact .inr ⟨hnewvote, fun e he => Nat.lt_succ_of_le ((hI.log_holds c).le e he),
        (hI.log_holds c).anchored⟩
    · exact .inl h

theorem Inv.grant (hI : Inv 𝒬 H) {L : List ε} (hst : H.stood c (H.term v) = some L)
    (hup : UpToDate L (H.log v))
    (hfree : H.vote v (H.term v) = none ∨ H.vote v (H.term v) = some c) :
    Inv 𝒬 (H.grant v c) := by
  refine hI.ballot (extends_grant hfree) (fun _ _ => rfl) ?_ fun _ _ _ h => .inl h
  intro u S b h
  split_ifs at h with hu
  · obtain ⟨rfl, rfl⟩ := hu
    cases h
    refine .inr ⟨le_rfl, L, hst, fun T i _ hi hown => ?_⟩
    -- the voter holds what it acknowledged, and the candidate is as up to date
    rcases (hI.log_holds u).kept T i hi hown with hk | hd
    · exact hI.carries_of_upToDate (hI.log_holds u).anchored (hI.stood_anchored c _ L hst) hup
        hown hk
    · exact .inr hd
  · exact .inl h

/-! ## Moves of the leader -/

/-- `X` may be the leader log of the term that `c` is in: `c` was elected to it with the log
`L`, and `X` extends what there is of the log of `c` and of the term by entries `M` of the
term. -/
structure Elected (𝒬 : QuorumSystem ι) (H : History ι ε) (c : ι) (X L M : List ε)
    (Q : Finset ι) : Prop where
  only : ∀ b, H.leader (H.term c) = some b → b = c
  lead : H.lead (H.term c) <+: X
  log : H.log c <+: X
  stood : H.stood c (H.term c) = some L
  eq : X = L ++ M
  own : ∀ e ∈ M, stamp e = H.term c
  quorum : 𝒬.IsQuorum Q
  votes : ∀ v ∈ Q, H.vote v (H.term c) = some c

section Install

variable {c : ι} {X L M : List ε} {Q : Finset ι}
variable {Y : ι → List ε}

section

variable (h : Elected 𝒬 H c X L M Q) (hI : Inv 𝒬 H)
include h hI

theorem Elected.extends :
    Extends H (H.install c X) :=
  hI.extends_install h.only h.lead

/-- The installed log is anchored: its first part was stood with, and the rest is its own. -/
theorem Elected.anchored :
    (H.install c X).Anchored X := by
  intro i e hi
  by_cases hlt : i < L.length
  · rw [h.eq, List.getElem?_append_left hlt] at hi
    have htake : X.take (i + 1) = L.take (i + 1) := by
      rw [h.eq, List.take_append_of_le_length (by omega)]
    rw [htake]
    exact ((hI.stood_anchored c _ L h.stood).mono (h.extends hI)) i e hi
  · rw [h.eq, List.getElem?_append_right (by omega)] at hi
    rw [h.own e (List.mem_of_getElem? hi), lead_install_self]
    exact List.take_prefix _ _

/-- The new leader may hold the installed log. -/
theorem Elected.holds :
    Holds 𝒬 (H.install c X) c X where
  anchored := h.anchored hI
  le := by
    intro e he
    rw [h.eq, List.mem_append] at he
    rcases he with he | he
    · exact (hI.stood_lt c _ L h.stood e he).le
    · exact (h.own e he).le
  acked := by
    show ((H.install c X).lead (H.term c)).take _ <+: _
    rw [lead_install_self]
    exact List.take_prefix _ _
  kept := by
    intro S i hi hown
    by_cases hS : S = H.term c
    · subst hS
      left
      rw [lead_install_self]
      exact List.take_prefix _ _
    · rw [acked_install_of_ne (fun h => hS h.2)] at hi
      have hlt := hi.trans_le (hI.acked_le c S)
      exact ((hI.log_holds c).kept S i hi (hown.of_mono (h.extends hI) hlt)).mono (h.extends hI)
        hlt h.log

/-- Where every member may hold its log, the new leader may hold the installed one instead. -/
theorem Elected.holds_update (hY : ∀ u, Holds 𝒬 H u (Y u)) :
    ∀ u, Holds 𝒬 (H.install c X) u (update Y c X u) :=
  (forall_update_iff Y fun u Z => Holds 𝒬 (H.install c X) u Z).mpr ⟨h.holds hI,
    fun u hu => (hY u).mono hI (h.extends hI) fun _ => acked_install_of_ne (fun heq => hu heq.1) X⟩

end

omit [Stamped ε] in
/-- Every leader holds its log, the new one the installed log. -/
theorem own_install (hY : ∀ b, H.leader (H.term b) = some b → Y b = H.lead (H.term b)) :
    ∀ b, (H.install c X).leader (H.term b) = some b →
      update Y c X b = (H.install c X).lead (H.term b) := by
  refine (forall_update_iff Y fun b Z => (H.install c X).leader (H.term b) = some b →
    Z = (H.install c X).lead (H.term b)).mpr ⟨fun _ => (lead_install_self H c X).symm, ?_⟩
  intro b hb hleader
  have hne : H.term b ≠ H.term c := by
    intro heq
    exact hb (by simpa [History.install, heq] using hleader.symm)
  rw [lead_install_of_ne hne]
  rw [leader_install_of_ne hne] at hleader
  exact hY b hleader

section

variable (h : Elected 𝒬 H c X L M Q) (hI : Inv 𝒬 H)
include h hI

/-- The installed log carries the entries of earlier terms: a voter of the leader has
acknowledged the entry, or the voters kill it. -/
theorem Elected.carries {S i : ℕ} (hS : S < H.term c) (hown : H.OwnAt S i) : Carries 𝒬 (H.install c X) S i X := by
  by_cases hex : ∃ v ∈ Q, i < H.acked v S
  · obtain ⟨v, hv, hlt⟩ := hex
    refine (hI.promised v S _ c L i (h.votes v hv) h.stood hS hlt hown).mono (h.extends hI)
      hown.lt_length ?_
    rw [h.eq]
    exact List.prefix_append _ _
  · push Not at hex
    refine .inr ⟨Q, h.quorum, fun v hv => ⟨hS.trans_le (hI.vote_le v _ c (h.votes v hv)), ?_⟩⟩
    rw [acked_install_of_ne (fun heq => hS.ne heq.2)]
    exact Nat.lt_succ_of_le (hex v hv)

/-- The leaders of other terms carry what they have to, of the installed log as well. -/
theorem Elected.complete_of_ne {S S' i : ℕ} {b : ι} (hS : S < S') (hb : H.leader S' = some b)
    (hown : (H.install c X).OwnAt S i) :
    Carries 𝒬 (H.install c X) S i (H.lead S') := by
  by_cases hi : i < (H.lead S).length
  · exact (hI.complete S S' i b hS hb (hown.of_mono (h.extends hI) hi)).mono (h.extends hI) hi
      List.prefix_rfl
  · -- a new entry: whoever elected a later leader has left the term behind
    obtain ⟨L', M', Q', -, -, -, hQ', hvotes'⟩ := hI.leader_won S' b hb
    refine .inr ⟨Q', hQ', fun v hv => ?_⟩
    have hle := hI.vote_le v S' b (hvotes' v hv)
    have hvc : ¬ (v = c ∧ S = H.term c) := by
      rintro ⟨rfl, rfl⟩
      omega
    refine ⟨hS.trans_le hle, ?_⟩
    rw [acked_install_of_ne hvc]
    have := hI.acked_le v S
    omega

/-- An elected member may install such a log. -/
theorem Elected.install : Inv 𝒬 (H.install c X) :=
  { hI with
    leader_won := by
      intro S b hb
      by_cases hS : S = H.term c
      · subst hS
        obtain rfl : c = b := by simpa [History.install] using hb
        exact ⟨L, M, Q, h.stood, (lead_install_self ..).trans h.eq, h.own, h.quorum, h.votes⟩
      · rw [lead_install_of_ne hS]
        exact hI.leader_won S b (by rwa [leader_install_of_ne hS] at hb)
    lead_none := by
      intro S hS'
      by_cases hS : S = H.term c
      · simp [History.install, hS] at hS'
      · rw [lead_install_of_ne hS]
        exact hI.lead_none S (by rwa [leader_install_of_ne hS] at hS')
    lead_anchored := by
      intro S
      by_cases hS : S = H.term c
      · rw [hS, lead_install_self]
        exact h.anchored hI
      · rw [lead_install_of_ne hS]
        exact (hI.lead_anchored S).mono (h.extends hI)
    stood_anchored := fun b S L hL => (hI.stood_anchored b S L hL).mono (h.extends hI)
    log_holds := h.holds_update hI hI.log_holds
    saved_holds := h.holds_update hI hI.saved_holds
    own := own_install hI.own
    own_saved := own_install hI.own_saved
    acked_le := by
      intro u S
      by_cases hu : u = c ∧ S = H.term c
      · simp [History.install, hu]
      · rw [acked_install_of_ne hu]
        exact (hI.acked_le u S).trans ((h.extends hI).lead S).length_le
    acked_term := by
      intro u S hpos
      by_cases hu : u = c ∧ S = H.term c
      · exact (by rw [hu.1, hu.2] : S ≤ H.term u)
      · rw [acked_install_of_ne hu] at hpos
        exact hI.acked_term u S hpos
    complete := by
      intro S S' i b hS hb hown
      by_cases hS' : S' = H.term c
      · subst hS'
        rw [lead_install_self]
        obtain ⟨e, he, hs⟩ := hown
        rw [lead_install_of_ne hS.ne] at he
        exact h.carries hI hS ⟨e, he, hs⟩
      · rw [lead_install_of_ne hS']
        rw [leader_install_of_ne hS'] at hb
        exact h.complete_of_ne hI hS hb hown
    promised := by
      intro u S S' b L' i hv hL hS hi hown
      have hle := hI.vote_le u S' b hv
      have hu : ¬ (u = c ∧ S = H.term c) := by
        rintro ⟨rfl, rfl⟩
        omega
      rw [acked_install_of_ne hu] at hi
      have hlt := hi.trans_le (hI.acked_le u S)
      exact (hI.promised u S S' b L' i hv hL hS hi (hown.of_mono (h.extends hI) hlt)).mono
        (h.extends hI) hlt List.prefix_rfl }

end

end Install

theorem Inv.win (hI : Inv 𝒬 H) {Q : Finset ι} (hst : H.stood c (H.term c) = some (H.log c))
    (hnot : H.leader (H.term c) ≠ some c) (hQ : 𝒬.IsQuorum Q)
    (hvotes : ∀ v ∈ Q, H.vote v (H.term c) = some c) :
    Inv 𝒬 (H.win c) := by
  have hnone : H.leader (H.term c) = none := hI.leader_none_of_quorum hnot hQ hvotes
  rw [win_eq_install]
  refine Elected.install ⟨fun b hb => ?_, ?_, List.prefix_rfl, hst, (List.append_nil _).symm,
    by simp, hQ, hvotes⟩ hI
  · rw [hnone] at hb
    cases hb
  · rw [hI.lead_none _ hnone]
    exact List.nil_prefix

theorem Inv.extend (hI : Inv 𝒬 H) {e : ε} (hc : H.leader (H.term c) = some c)
    (he : stamp e = H.term c) : Inv 𝒬 (H.extend c e) := by
  obtain ⟨L, M, Q, hst, hlead, hM, hQ, hvotes⟩ := hI.leader_won _ c hc
  have hlog : H.log c = H.lead (H.term c) := hI.own c hc
  rw [hI.extend_eq_install hc]
  refine Elected.install (M := M ++ [e]) ⟨fun b hb => Option.some.inj (hb.symm.trans hc), ?_,
    List.prefix_append _ _, hst, ?_, fun x hx => ?_, hQ, hvotes⟩ hI
  · rw [hlog]
    exact List.prefix_append _ _
  · rw [hlog, hlead, List.append_assoc]
  · rw [List.mem_append, List.mem_singleton] at hx
    rcases hx with hx | rfl
    · exact hM x hx
    · exact he

/-! ## Moves of a follower -/

omit [DecidableEq ι] in
/-- A log that takes over a stretch of the current leader's is again one the
member may hold. -/
theorem Holds.takeOver (hI : Inv 𝒬 H) (hl : H.leader (H.term v) = some l) (n : ℕ) {X : List ε}
    (h : Holds 𝒬 H v X) :
    Holds 𝒬 H v (overlay X ((H.lead (H.term v)).take n)) := by
  have hshape : overlay X ((H.lead (H.term v)).take n) = X ∨
      overlay X ((H.lead (H.term v)).take n) = (H.lead (H.term v)).take n := by
    unfold overlay
    split_ifs
    · exact Or.inl rfl
    · exact Or.inr rfl
  exact {
    anchored := by
      rcases hshape with heq | heq
      · rw [heq]
        exact h.anchored
      · rw [heq]
        intro i e hi
        have hin : i < n := by
          have := (List.getElem?_eq_some_iff.mp hi).1
          rw [List.length_take] at this
          omega
        rw [List.getElem?_take_of_lt hin] at hi
        rw [List.take_take, min_eq_left (by omega)]
        exact hI.lead_anchored _ i e hi
    le := by
      intro x hx
      rcases hshape with heq | heq
      · rw [heq] at hx
        exact h.le x hx
      · rw [heq] at hx
        exact hI.lead_le x (List.mem_of_mem_take hx)
    acked := prefix_overlay_of_common h.acked (List.take_prefix _ _)
    kept := by
      intro S i hi hown
      rcases lt_trichotomy S (H.term v) with hS | rfl | hS
      · -- an earlier term: its entry is in the old log and in the leader's, or dead
        rcases h.kept S i hi hown with hk | hd
        · rcases hI.complete S _ i l hS hl hown with hcar | hd
          · exact Or.inl (prefix_overlay_of_common hk hcar)
          · exact Or.inr hd
        · exact Or.inr hd
      · left
        have hk : (H.lead (H.term v)).take (i + 1) <+: X := by
          refine List.IsPrefix.trans ?_ h.acked
          exact List.prefix_of_prefix_length_le (List.take_prefix _ _) (List.take_prefix _ _) (by
            rw [List.length_take, List.length_take]
            omega)
        exact prefix_overlay_of_common hk (List.take_prefix _ _)
      · rw [hI.acked_zero hS] at hi
        omega }

omit [DecidableEq ι] in
/-- A change of logs to ones that may be held keeps the invariant. -/
theorem Inv.logs (hI : Inv 𝒬 H) {log saved : ι → List ε} (hlog : ∀ v, Holds 𝒬 H v (log v))
    (hsaved : ∀ v, Holds 𝒬 H v (saved v))
    (hown : ∀ c, H.leader (H.term c) = some c → log c = H.lead (H.term c))
    (hown' : ∀ c, H.leader (H.term c) = some c → saved c = H.lead (H.term c)) :
    Inv 𝒬 { H with log := log, saved := saved } :=
  { hI with
    log_holds := fun v => (hlog v).mono hI (extends_logs log saved) (fun _ => rfl)
    saved_holds := fun v => (hsaved v).mono hI (extends_logs log saved) (fun _ => rfl)
    own := hown
    own_saved := hown' }

theorem Inv.hold (hI : Inv 𝒬 H) (n : ℕ) (hl : H.leader (H.term v) = some l) (hne : l ≠ v) :
    Inv 𝒬 (H.hold v n) := by
  refine hI.logs ((forall_update_iff H.log (Holds 𝒬 H)).mpr
    ⟨(hI.log_holds v).takeOver hI hl n, fun u _ => hI.log_holds u⟩) hI.saved_holds
    (fun c hc => ?_) hI.own_saved
  · have hcv : c ≠ v := by
      rintro rfl
      rw [hl] at hc
      exact hne (Option.some.inj hc)
    rw [update_of_ne hcv]
    exact hI.own c hc

theorem Inv.save (hI : Inv 𝒬 H) (v : ι) : Inv 𝒬 (H.save v) :=
  hI.logs hI.log_holds
    ((forall_update_iff H.saved (Holds 𝒬 H)).mpr
      ⟨hI.log_holds v, fun u _ => hI.saved_holds u⟩) hI.own
    ((forall_update_iff H.saved fun c X => _ → X = H.lead (H.term c)).mpr
      ⟨hI.own v, fun c _ => hI.own_saved c⟩)

/-- **Restarts are harmless.**  A member that falls back to its saved log keeps
the invariant. -/
theorem Inv.lose (hI : Inv 𝒬 H) (v : ι) : Inv 𝒬 (H.lose v) :=
  hI.logs ((forall_update_iff H.log (Holds 𝒬 H)).mpr
      ⟨hI.saved_holds v, fun u _ => hI.log_holds u⟩) hI.saved_holds
    ((forall_update_iff H.log fun c X => _ → X = H.lead (H.term c)).mpr
      ⟨hI.own_saved v, fun c _ => hI.own c⟩) hI.own_saved

/-- A log that has the acknowledged stretch stays one the member may hold. -/
theorem Holds.ack {n : ℕ} {X : List ε} (hX : (H.lead (H.term v)).take n <+: X) (h : Holds 𝒬 H v X) :
    Holds 𝒬 (H.ack v n) v X := by
  have hext : Extends H (H.ack v n) := extends_ack v n
  have hackself : (H.ack v n).acked v (H.term v) = max (H.acked v (H.term v)) n := by
    simp [History.ack]
  have hpre : (H.lead (H.term v)).take ((H.ack v n).acked v (H.term v)) <+: X := by
    rw [hackself]
    rcases le_total (H.acked v (H.term v)) n with hle | hle
    · rw [max_eq_right hle]
      exact hX
    · rw [max_eq_left hle]
      exact h.acked
  refine ⟨h.anchored.mono hext, h.le, hpre, ?_⟩
  intro S i hi hown
  by_cases hS : S = H.term v
  · subst hS
    left
    refine List.IsPrefix.trans ?_ hpre
    exact List.prefix_of_prefix_length_le (List.take_prefix _ _) (List.take_prefix _ _) (by
      show ((H.lead (H.term v)).take (i + 1)).length ≤ _
      rw [List.length_take, List.length_take]
      omega)
  · have hi' : i < H.acked v S := by simpa [History.ack, hS] using hi
    exact (h.kept S i hi' hown).mono hext hown.lt_length List.prefix_rfl

theorem Inv.ack (hI : Inv 𝒬 H) {n : ℕ} (hn : n ≤ (H.lead (H.term v)).length)
    (hlog : (H.lead (H.term v)).take n <+: H.log v)
    (hsaved : (H.lead (H.term v)).take n <+: H.saved v) : Inv 𝒬 (H.ack v n) := by
  have hext : Extends H (H.ack v n) := extends_ack v n
  have hackother : ∀ u S, ¬ (u = v ∧ S = H.term v) → (H.ack v n).acked u S = H.acked u S := by
    intro u S hu
    simp [History.ack, if_neg hu]
  have hackself : (H.ack v n).acked v (H.term v) = max (H.acked v (H.term v)) n := by
    simp [History.ack]
  have hholds : ∀ (X : ι → List ε), (∀ u, Holds 𝒬 H u (X u)) →
      (H.lead (H.term v)).take n <+: X v → ∀ u, Holds 𝒬 (H.ack v n) u (X u) := by
    intro X hX hv u
    by_cases hu : u = v
    · subst hu
      exact (hX u).ack hv
    · exact (hX u).mono hI hext (fun S => hackother u S fun h => hu h.1)
  exact { hI with
    log_holds := hholds H.log hI.log_holds hlog
    saved_holds := hholds H.saved hI.saved_holds hsaved
    acked_le := by
      intro u S
      by_cases hu : u = v ∧ S = H.term v
      · obtain ⟨rfl, rfl⟩ := hu
        rw [hackself]
        exact max_le (hI.acked_le u _) hn
      · rw [hackother u S hu]
        exact hI.acked_le u S
    acked_term := by
      intro u S h
      by_cases hu : u = v ∧ S = H.term v
      · exact (by rw [hu.1, hu.2] : S ≤ H.term u)
      · rw [hackother u S hu] at h
        exact hI.acked_term u S h
    complete := fun S S' i b hS hb hown =>
      (hI.complete S S' i b hS hb hown).mono hext hown.lt_length List.prefix_rfl
    promised := by
      intro u S S' b L i hv hL hS hi hown
      have hle := hI.vote_le u S' b hv
      have hu : ¬ (u = v ∧ S = H.term v) := by
        rintro ⟨rfl, rfl⟩
        omega
      rw [hackother u S hu] at hi
      exact (hI.promised u S S' b L i hv hL hS hi hown).mono hext hown.lt_length
        List.prefix_rfl }

/-! ## Steps and runs -/

omit [DecidableEq ι] in
theorem Inv.init : Inv 𝒬 (History.init : History ι ε) where
  vote_le := by simp [History.init]
  vote_stood := by simp [History.init]
  stood_vote := by simp [History.init]
  stood_lt := by simp [History.init]
  leader_won := by simp [History.init]
  lead_none := by simp [History.init]
  lead_anchored := by simp [History.init, Anchored]
  stood_anchored := by simp [History.init]
  log_holds := fun v => ⟨by simp [History.init, Anchored], by simp [History.init],
    by simp [History.init], by simp [History.init]⟩
  saved_holds := fun v => ⟨by simp [History.init, Anchored], by simp [History.init],
    by simp [History.init], by simp [History.init]⟩
  own := by simp [History.init]
  own_saved := by simp [History.init]
  acked_le := by simp [History.init]
  acked_term := by simp [History.init]
  complete := by simp [History.init]
  promised := by simp [History.init]

/-- **Every move keeps the invariant.** -/
theorem Inv.step (hI : Inv 𝒬 H) (h : Step 𝒬 i H H') : Inv 𝒬 H' := by
  cases h with
  | raise v T hT => exact hI.raise hT
  | stand v => exact hI.stand i
  | grant v c L hst hup hfree => exact hI.grant hst hup hfree
  | win c Q hst hnot hQ hvotes => exact hI.win hst hnot hQ hvotes
  | extend c e hc he => exact hI.extend hc he
  | hold v l n hl hne => exact hI.hold n hl hne
  | save v => exact hI.save i
  | ack v n hn hlog hsaved => exact hI.ack hn hlog hsaved

/-- Every move extends the history. -/
theorem Inv.step_extends (hI : Inv 𝒬 H) (h : Step 𝒬 i H H') : Extends H H' := by
  cases h with
  | raise v T hT => exact extends_raise hT
  | stand v => exact hI.extends_stand i
  | grant v c L hst hup hfree => exact extends_grant hfree
  | win c Q hst hnot hQ hvotes => exact hI.extends_win (hI.leader_none_of_quorum hnot hQ hvotes)
  | extend c e hc he => exact hI.extends_extend hc e
  | hold v l n hl hne => exact extends_logs _ _
  | save v => exact extends_logs _ _
  | ack v n hn hlog hsaved => exact extends_ack i n

/-- Any number of moves and restarts of any members. -/
def Steps (𝒬 : QuorumSystem ι) : History ι ε → History ι ε → Prop :=
  Relation.ReflTransGen fun H H' => ∃ i, Step 𝒬 i H H' ∨ H' = H.lose i

theorem Run.steps (h : Run 𝒬 i H H') : Steps 𝒬 H H' := by
  induction h with
  | refl => exact Relation.ReflTransGen.refl
  | tail _ hstep ih => exact ih.tail ⟨i, Or.inl hstep⟩

theorem steps_lose (i : ι) : Steps 𝒬 H (H.lose i) :=
  Relation.ReflTransGen.single ⟨i, Or.inr rfl⟩

theorem Inv.steps (hI : Inv 𝒬 H) (h : Steps 𝒬 H H') : Inv 𝒬 H' := by
  refine invariant_of_run (fun H H' hI hs => ?_) h hI
  obtain ⟨i, hstep | rfl⟩ := hs
  · exact hI.step hstep
  · exact hI.lose i

theorem Inv.steps_extends (hI : Inv 𝒬 H) (h : Steps 𝒬 H H') : Extends H H' := by
  induction h with
  | refl => exact Extends.refl H
  | tail hrun hlast ih =>
    obtain ⟨i, hstep | rfl⟩ := hlast
    · exact ih.trans ((hI.steps hrun).step_extends hstep)
    · exact ih.trans (extends_logs _ _)

theorem Inv.run (hI : Inv 𝒬 H) (h : Run 𝒬 i H H') : Inv 𝒬 H' :=
  hI.steps h.steps

theorem Inv.run_extends (hI : Inv 𝒬 H) (h : Run 𝒬 i H H') : Extends H H' :=
  hI.steps_extends h.steps

/-! ## Chosen entries -/

/-- The entry at position `i` of the term-`T` leader log is of that term and a
quorum has acknowledged it there. -/
def Chosen (𝒬 : QuorumSystem ι) (H : History ι ε) (T i : ℕ) : Prop :=
  H.OwnAt T i ∧ ∃ Q, 𝒬.IsQuorum Q ∧ ∀ v ∈ Q, i < H.acked v T

/-- The log `P` is covered by an entry chosen in a term up to `T`. -/
def ChosenBy (𝒬 : QuorumSystem ι) (H : History ι ε) (T : ℕ) (P : List ε) : Prop :=
  P = [] ∨ ∃ T0 i, T0 ≤ T ∧ Chosen 𝒬 H T0 i ∧ P <+: (H.lead T0).take (i + 1)

section Chosen

variable {T T' i : ℕ} {P P' : List ε}
variable {H' : History ι ε} {c : ι}

omit [DecidableEq ι]

theorem Chosen.mono (hext : Extends H H') (h : Chosen 𝒬 H T i) : Chosen 𝒬 H' T i := by
  obtain ⟨hown, Q, hQ, hall⟩ := h
  exact ⟨hown.mono hext, Q, hQ, fun v hv => (hall v hv).trans_le (hext.acked_le v T)⟩

theorem Chosen.not_dead (h : Chosen 𝒬 H T i) : ¬ Dead 𝒬 H T (i + 1) := by
  rintro ⟨Q', hQ', hall'⟩
  obtain ⟨-, Q, hQ, hall⟩ := h
  obtain ⟨v, hv, hv'⟩ := 𝒬.meet Q Q' hQ hQ'
  have h1 := hall v hv
  have h2 := (hall' v hv').2
  omega

/-- **Leader completeness.**  What is chosen in a term is in the log of every
leader of a later term. -/
theorem Chosen.prefix_lead (hI : Inv 𝒬 H) (h : Chosen 𝒬 H T i) (hT : T < T')
    (hc : H.leader T' = some c) : (H.lead T).take (i + 1) <+: H.lead T' :=
  (hI.complete T T' i c hT hc h.1).resolve_right h.not_dead

theorem ChosenBy.nil (T : ℕ) : ChosenBy 𝒬 H T [] := Or.inl rfl

theorem ChosenBy.mono (hext : Extends H H') (hT : T ≤ T') (h : ChosenBy 𝒬 H T P) :
    ChosenBy 𝒬 H' T' P := by
  rcases h with rfl | ⟨T0, i, hT0, hch, hP⟩
  · exact Or.inl rfl
  · refine Or.inr ⟨T0, i, hT0.trans hT, hch.mono hext, ?_⟩
    rw [take_eq_of_isPrefix (hext.lead T0) hch.1.lt_length]
    exact hP

theorem ChosenBy.of_isPrefix (h : ChosenBy 𝒬 H T P) (hP : P' <+: P) : ChosenBy 𝒬 H T P' := by
  rcases h with rfl | ⟨T0, i, hT0, hch, hle⟩
  · exact Or.inl (List.prefix_nil.mp hP)
  · exact Or.inr ⟨T0, i, hT0, hch, hP.trans hle⟩

/-- A chosen log is in the log of every leader from its own term on. -/
theorem ChosenBy.prefix_lead (hI : Inv 𝒬 H) (h : ChosenBy 𝒬 H T P) (hc : H.leader T = some c) :
    P <+: H.lead T := by
  rcases h with rfl | ⟨T0, i, hT0, hch, hP⟩
  · exact List.nil_prefix
  · rcases hT0.eq_or_lt with rfl | hlt
    · exact hP.trans (List.take_prefix _ _)
    · exact hP.trans (hch.prefix_lead hI hlt hc)

/-- A leader stood with everything chosen in earlier terms. -/
theorem ChosenBy.prefix_stood (hI : Inv 𝒬 H) {L : List ε} (h : ChosenBy 𝒬 H T P) (hT : T < T')
    (hc : H.leader T' = some c) (hst : H.stood c T' = some L) : P <+: L := by
  rcases h with rfl | ⟨T0, i, hT0, hch, hP⟩
  · exact List.nil_prefix
  obtain ⟨L', M, Q, hst', hlead, hM, -, -⟩ := hI.leader_won T' c hc
  rw [hst] at hst'
  cases hst'
  have hpre := hch.prefix_lead hI (hT0.trans_lt hT) hc
  rw [hlead] at hpre
  refine hP.trans (List.prefix_of_prefix_length_le hpre (List.prefix_append L M) ?_)
  -- the chosen entry is older than the term, so it lies before the leader's own entries
  rw [List.length_take_of_le hch.1.lt_length]
  obtain ⟨e, he, hs⟩ := hch.1
  have hmem : ((H.lead T0).take (i + 1))[i]? = some e := by
    rw [List.getElem?_take_of_lt (Nat.lt_succ_self i), he]
  have hlm := getElem?_of_isPrefix hpre hmem
  by_contra hlen
  rw [List.getElem?_append_right (by omega)] at hlm
  have := hM e (List.mem_of_getElem? hlm)
  omega

/-- **Agreement.**  Any two chosen logs are comparable. -/
theorem ChosenBy.comparable (hI : Inv 𝒬 H) (h : ChosenBy 𝒬 H T P) (h' : ChosenBy 𝒬 H T' P') :
    P <+: P' ∨ P' <+: P := by
  rcases h with rfl | ⟨S, i, -, hch, hP⟩
  · exact Or.inl List.nil_prefix
  rcases h' with rfl | ⟨S', i', -, hch', hP'⟩
  · exact Or.inr List.nil_prefix
  -- both lie in the leader log of the later of the two terms
  have hcommon : ∀ {S S' i i' : ℕ}, Chosen 𝒬 H S i → Chosen 𝒬 H S' i' → S ≤ S' →
      (H.lead S).take (i + 1) <+: H.lead S' := by
    intro S S' i i' hch hch' hle
    rcases hle.eq_or_lt with rfl | hlt
    · exact List.take_prefix _ _
    · obtain ⟨e, he, -⟩ := hch'.1
      obtain ⟨c, hc⟩ := hI.leader_of_mem_lead (List.mem_of_getElem? he)
      exact hch.prefix_lead hI hlt hc
  rcases le_total S S' with hle | hle
  · exact List.prefix_or_prefix_of_prefix (hP.trans (hcommon hch hch' hle))
      (hP'.trans (List.take_prefix _ _))
  · exact List.prefix_or_prefix_of_prefix (hP.trans (List.take_prefix _ _))
      (hP'.trans (hcommon hch' hch hle))

end Chosen

/-- What is chosen survives every move of the member that holds it. -/
theorem ChosenBy.step (hI : Inv 𝒬 H) (hs : Step 𝒬 i H H') {P : List ε}
    (hch : ChosenBy 𝒬 H (H.term v) P) (hP : P <+: H.log v) :
    ChosenBy 𝒬 H' (H'.term v) P ∧ P <+: H'.log v := by
  have hext := hI.step_extends hs
  refine ⟨hch.mono hext (hext.term_le v), ?_⟩
  by_cases hv : v = i
  · subst hv
    cases hs with
    | extend _ e hc he =>
      simp only [History.extend, update_self]
      exact hP.trans (List.prefix_append _ _)
    | hold _ l n hl hne =>
      simp only [History.hold, update_self]
      exact prefix_overlay_of_common hP (hch.prefix_lead hI hl)
    | _ => exact hP
  · rw [hs.frame.log v hv]
    exact hP

theorem ChosenBy.run (hI : Inv 𝒬 H) (hs : Run 𝒬 i H H') {P : List ε}
    (hch : ChosenBy 𝒬 H (H.term v) P) (hP : P <+: H.log v) :
    ChosenBy 𝒬 H' (H'.term v) P ∧ P <+: H'.log v := by
  induction hs with
  | refl => exact ⟨hch, hP⟩
  | tail hrun hlast ih => exact ih.1.step (hI.run hrun) hlast ih.2

end History
