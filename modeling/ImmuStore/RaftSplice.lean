/-
# What `append_from` leaves

The loop of `append_from` changes the list it measures, so the branch taken for one entry
depends on the truncation an earlier one has made.  What it leaves depends only on the first
conflict: without one the log is extended by what lies beyond its end, and with one the log
is cut before it and the rest of the new entries follow.  After that the new entries are in
place, term by term, and splicing them in again changes nothing.
-/
import ImmuStore.RaftLog

namespace RaftLog

variable {ι κ : Type} {L es : List (LogEntry κ)} {e : LogEntry κ} {p k : ℕ}

/-- The new entry at position `k` has another term than the stored one at its index. -/
def Conflict (entries : List (LogEntry κ)) (prevIndex : ℕ) (newEntries : List (LogEntry κ))
    (k : ℕ) : Prop :=
  ∃ old new, entries[prevIndex + k]? = some old ∧ newEntries[k]? = some new ∧
    old.term ≠ new.term

theorem conflict_cons_succ : Conflict L p (e :: es) (k + 1) ↔ Conflict L (p + 1) es k := by
  have hindex : p + (k + 1) = p + 1 + k := by omega
  simp only [Conflict, hindex, List.getElem?_cons_succ]

theorem spliceEntries_cons_some {old : LogEntry κ} (hold : L[p]? = some old)
    (hterm : old.term = e.term) : spliceEntries L p (e :: es) = spliceEntries L (p + 1) es := by
  rw [spliceEntries, hold]
  exact if_neg (not_not.mpr hterm)

/-- Without a conflict the log is extended by what lies beyond its end. -/
theorem spliceEntries_of_agree (hp : p ≤ L.length) (hagree : ∀ k, ¬ Conflict L p es k) :
    spliceEntries L p es = L ++ es.drop (L.length - p) := by
  induction es generalizing p with
  | nil => simp [spliceEntries]
  | cons e es ih =>
    rcases hp.eq_or_lt with rfl | hlt
    · rw [spliceEntries_eq_append, Nat.sub_self, List.drop_zero]
    · have hold : L[p]? = some L[p] := List.getElem?_eq_getElem hlt
      have hterm : L[p].term = e.term := by
        by_contra hne
        exact hagree 0 ⟨L[p], e, hold, rfl, hne⟩
      have hdrop : L.length - p = L.length - (p + 1) + 1 := by omega
      rw [spliceEntries_cons_some hold hterm, hdrop, List.drop_succ_cons]
      exact ih hlt fun k hk => hagree (k + 1) (conflict_cons_succ.mpr hk)

/-- At the first conflict the log is cut, and the new entries follow from there. -/
theorem spliceEntries_of_conflict (hconflict : Conflict L p es k)
    (hfirst : ∀ j < k, ¬ Conflict L p es j) :
    spliceEntries L p es = L.take (p + k) ++ es.drop k := by
  induction es generalizing p k with
  | nil =>
    obtain ⟨old, new, -, hnew, -⟩ := hconflict
    simp at hnew
  | cons e es ih =>
    cases k with
    | zero =>
      obtain ⟨old, new, hold, hnew, hne⟩ := hconflict
      obtain rfl : e = new := by simpa using hnew
      have hlt : p < L.length := (List.getElem?_eq_some_iff.mp hold).1
      -- from the cut on the log ends where the next entry goes
      have hend : p + 1 = (L.take p ++ [e]).length := by
        rw [List.length_append, List.length_take_of_le hlt.le, List.length_singleton]
      have hstep : spliceEntries L p (e :: es) = spliceEntries (L.take p ++ [e]) (p + 1) es := by
        rw [spliceEntries, show L[p]? = some old from hold]
        exact if_pos hne
      rw [hstep, hend, spliceEntries_eq_append]
      simp
    | succ k =>
      have hlt : p < L.length := by
        obtain ⟨old, _, hold, -, -⟩ := hconflict
        have := (List.getElem?_eq_some_iff.mp hold).1
        omega
      have hold : L[p]? = some L[p] := List.getElem?_eq_getElem hlt
      have hterm : L[p].term = e.term := by
        by_contra hne
        exact hfirst 0 (Nat.zero_lt_succ k) ⟨L[p], e, hold, rfl, hne⟩
      have hindex : p + (k + 1) = p + 1 + k := by omega
      rw [spliceEntries_cons_some hold hterm, hindex, List.drop_succ_cons]
      refine ih (conflict_cons_succ.mp hconflict) fun j hj hj' => ?_
      exact hfirst (j + 1) (Nat.succ_lt_succ hj) (conflict_cons_succ.mpr hj')

/-- The log either agrees with the new entries or has a first conflict with them. -/
theorem agree_or_first_conflict (L : List (LogEntry κ)) (p : ℕ) (es : List (LogEntry κ)) :
    (∀ k, ¬ Conflict L p es k) ∨ ∃ k, Conflict L p es k ∧ ∀ j < k, ¬ Conflict L p es j := by
  classical
  by_cases h : ∃ k, Conflict L p es k
  · exact .inr ⟨Nat.find h, Nat.find_spec h, fun j hj => Nat.find_min h hj⟩
  · exact .inl (not_exists.mp h)

/-- The new entries are in place, term by term, and what stood before them still does. -/
structure Placed (L : List (LogEntry κ)) (p : ℕ) (es R : List (LogEntry κ)) : Prop where
  take_eq : R.take p = L.take p
  le_length : p + es.length ≤ R.length
  agree : ∀ k, ¬ Conflict R p es k

theorem spliceEntries_placed (hp : p ≤ L.length) (es : List (LogEntry κ)) :
    Placed L p es (spliceEntries L p es) := by
  rcases agree_or_first_conflict L p es with hagree | ⟨k, hconflict, hfirst⟩
  · rw [spliceEntries_of_agree hp hagree]
    refine ⟨List.take_append_of_le_length hp, ?_, ?_⟩
    · rw [List.length_append, List.length_drop]
      omega
    · rintro j ⟨old, new, hold, hnew, hne⟩
      by_cases hj : p + j < L.length
      · rw [List.getElem?_append_left hj] at hold
        exact hagree j ⟨old, new, hold, hnew, hne⟩
      · -- beyond the old end stand the new entries themselves
        rw [List.getElem?_append_right (by omega), List.getElem?_drop,
          show L.length - p + (p + j - L.length) = j by omega, hnew] at hold
        exact hne (congrArg LogEntry.term (Option.some.inj hold).symm)
  · have hlt : p + k < L.length ∧ k < es.length := by
      obtain ⟨old, new, hold, hnew, -⟩ := hconflict
      exact ⟨(List.getElem?_eq_some_iff.mp hold).1, (List.getElem?_eq_some_iff.mp hnew).1⟩
    have hlen : (L.take (p + k)).length = p + k := List.length_take_of_le hlt.1.le
    rw [spliceEntries_of_conflict hconflict hfirst]
    refine ⟨?_, ?_, ?_⟩
    · rw [List.take_append_of_le_length (by omega), List.take_take, Nat.min_eq_left (by omega)]
    · rw [List.length_append, hlen, List.length_drop]
      omega
    · rintro j ⟨old, new, hold, hnew, hne⟩
      by_cases hj : j < k
      · rw [List.getElem?_append_left (by omega), List.getElem?_take_of_lt (by omega)] at hold
        exact hfirst j hj ⟨old, new, hold, hnew, hne⟩
      · rw [List.getElem?_append_right (by omega), List.getElem?_drop, hlen,
          show k + (p + j - (p + k)) = j by omega, hnew] at hold
        exact hne (congrArg LogEntry.term (Option.some.inj hold).symm)

/-- Entries that are in place change nothing, nor do the first of them. -/
theorem Placed.spliceEntries_take {R : List (LogEntry κ)} (h : Placed L p es R) (n : ℕ) :
    spliceEntries R p (es.take n) = R := by
  have hle := h.le_length
  have hagree : ∀ k, ¬ Conflict R p (es.take n) k := by
    rintro k ⟨old, new, hold, hnew, hne⟩
    exact h.agree k ⟨old, new, hold, getElem?_of_isPrefix (List.take_prefix n es) hnew, hne⟩
  have hlen := List.length_take_le n es
  have hlen' := List.length_take_le' n es
  rw [spliceEntries_of_agree (by omega) hagree, List.drop_eq_nil_of_le (by omega), List.append_nil]

/-- **What `append_from` leaves.**  If every new entry that overlaps the log has the term
stored at its index, the log is followed by the new entries beyond its end; otherwise it is
cut just before the first index where the terms differ, and the new entries follow from
there.  Doing it again, with all or with the first of the new entries, changes nothing. -/
theorem append_from_splices (log : RaftLog ι κ) (prevIndex : ℕ) (hprev : prevIndex ≤ log.lastIndex)
    (newEntries : List (LogEntry κ)) :
    ((∀ k, ¬ Conflict log.entries prevIndex newEntries k) →
      (log.appendFrom prevIndex newEntries).entries =
        log.entries ++ newEntries.drop (log.lastIndex - prevIndex)) ∧
    (∀ k, Conflict log.entries prevIndex newEntries k →
      (∀ j < k, ¬ Conflict log.entries prevIndex newEntries j) →
      (log.appendFrom prevIndex newEntries).entries =
        log.entries.take (prevIndex + k) ++ newEntries.drop k) ∧
    (log.appendFrom prevIndex newEntries).appendFrom prevIndex newEntries =
      log.appendFrom prevIndex newEntries ∧
    ∀ n, (log.appendFrom prevIndex newEntries).appendFrom prevIndex (newEntries.take n) =
      log.appendFrom prevIndex newEntries := by
  have hplaced := spliceEntries_placed hprev newEntries
  have hreplay : ∀ n, (log.appendFrom prevIndex newEntries).appendFrom prevIndex
      (newEntries.take n) = log.appendFrom prevIndex newEntries := by
    intro n
    simp only [appendFrom, hplaced.spliceEntries_take n]
  refine ⟨spliceEntries_of_agree hprev, fun k => spliceEntries_of_conflict, ?_, hreplay⟩
  have hall := hreplay newEntries.length
  rwa [List.take_length] at hall

/-- A log of two terms that takes over the entries of a third. -/
def sampleLog : RaftLog ℕ ℕ := ⟨false, [⟨1, 10⟩, ⟨1, 11⟩, ⟨2, 12⟩, ⟨2, 13⟩], 2, none, none⟩

theorem append_from_splices_sample :
    1 ≤ sampleLog.lastIndex ∧
    Conflict sampleLog.entries 1 [⟨1, 11⟩, ⟨3, 14⟩] 1 ∧
    (sampleLog.appendFrom 1 [⟨1, 11⟩, ⟨3, 14⟩]).entries = [⟨1, 10⟩, ⟨1, 11⟩, ⟨3, 14⟩] := by
  have hconflict : Conflict sampleLog.entries 1 [⟨1, 11⟩, ⟨3, 14⟩] 1 :=
    ⟨⟨2, 12⟩, ⟨3, 14⟩, rfl, rfl, by decide⟩
  have hfirst : ∀ j < 1, ¬ Conflict sampleLog.entries 1 [⟨1, 11⟩, ⟨3, 14⟩] j := by
    rintro j hj ⟨old, new, hold, hnew, hne⟩
    obtain rfl : j = 0 := by omega
    obtain rfl : ⟨1, 11⟩ = old := by simpa [sampleLog] using hold
    obtain rfl : ⟨1, 11⟩ = new := by simpa using hnew
    exact hne rfl
  exact ⟨by decide, hconflict,
    (append_from_splices sampleLog 1 (by decide) [⟨1, 11⟩, ⟨3, 14⟩]).2.1 1 hconflict hfirst⟩

end RaftLog
