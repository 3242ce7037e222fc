/-
# Raft messages and the persistent log (`raft/messages.py`, `raft/log.py`)

The RPC types and the replicated log with its saved term and vote.  Node ids
`ι` and commands `κ` are arbitrary types: the consensus code compares ids and
passes commands on, and looks into neither.

Indices are 1-based as in the source; `termAt` is an integer because it answers
`-1` beyond the end.  `RaftLog.file` is what the file at the log's path holds, so
that `reopen` can say what a restarted process finds.

* `spliceEntries_eq_append`, `spliceEntries_eq_overlay`: what the splice loop does to a
  log that ends where the new entries start, and to a log that matches the log
  the new entries were cut from.
-/
import ImmuStore.TermHistory

/-! ## Messages -/

structure LogEntry (κ : Type) where
  term : ℕ
  command : κ
  deriving DecidableEq, Repr

instance (κ : Type) : Stamped (LogEntry κ) := ⟨LogEntry.term⟩

@[simp] theorem stamp_logEntry {κ : Type} (e : LogEntry κ) : Stamped.stamp e = e.term := rfl

structure RequestVote (ι : Type) where
  term : ℕ
  candidateId : ι
  lastLogIndex : ℕ
  lastLogTerm : ℕ
  deriving DecidableEq, Repr

structure RequestVoteReply where
  term : ℕ
  voteGranted : Bool
  deriving DecidableEq, Repr

structure AppendEntries (ι κ : Type) where
  term : ℕ
  leaderId : ι
  prevLogIndex : ℕ
  prevLogTerm : ℤ
  entries : List (LogEntry κ)
  leaderCommit : ℕ
  deriving DecidableEq, Repr

structure AppendEntriesReply where
  term : ℕ
  success : Bool
  matchIndex : ℕ
  deriving DecidableEq, Repr

/-- The four RPC bodies an envelope can carry. -/
inductive RpcBody (ι κ : Type) where
  | requestVote (rv : RequestVote ι)
  | requestVoteReply (reply : RequestVoteReply)
  | appendEntries (ae : AppendEntries ι κ)
  | appendEntriesReply (reply : AppendEntriesReply)
  deriving DecidableEq, Repr

structure Envelope (ι κ : Type) where
  src : ι
  dst : ι
  body : RpcBody ι κ
  deriving DecidableEq, Repr

/-! ## The log -/

/-- What `save` writes: the JSON payload with the term, the vote and the entries. -/
structure SavedLog (ι κ : Type) where
  currentTerm : ℕ
  votedFor : Option ι
  entries : List (LogEntry κ)
  deriving DecidableEq, Repr

structure RaftLog (ι κ : Type) where
  /-- Whether a path was supplied. -/
  path : Bool
  entries : List (LogEntry κ)
  currentTerm : ℕ
  votedFor : Option ι
  /-- The contents of the file at the path; `none` when there is no such file. -/
  file : Option (SavedLog ι κ)

namespace RaftLog

variable {ι κ : Type}

/-- `RaftLog(path)`: read the file if there is one, else start empty. -/
def new (path : Bool) (file : Option (SavedLog ι κ)) : RaftLog ι κ :=
  match path, file with
  | true, some data => ⟨true, data.entries, data.currentTerm, data.votedFor, some data⟩
  | path, file => ⟨path, [], 0, none, file⟩

def lastIndex (log : RaftLog ι κ) : ℕ := log.entries.length

def lastTerm (log : RaftLog ι κ) : ℕ := (log.entries.getLast?.map LogEntry.term).getD 0

def termAt (log : RaftLog ι κ) (index : ℕ) : ℤ :=
  if index = 0 then 0
  else match log.entries[index - 1]? with
    | none => -1
    | some entry => entry.term

/-- `get`: `entries[index - 1]`, which for index `0` is Python's last element. -/
def get (log : RaftLog ι κ) (index : ℕ) : Option (LogEntry κ) :=
  if index = 0 then log.entries.getLast? else log.entries[index - 1]?

def entriesFrom (log : RaftLog ι κ) (index : ℕ) : List (LogEntry κ) := log.entries.drop (index - 1)

def appendNew (log : RaftLog ι κ) (entry : LogEntry κ) : RaftLog ι κ :=
  { log with entries := log.entries ++ [entry] }

/-- The loop of `append_from` over the stored entries, `index` being the index
of the entry before the next new one. -/
def spliceEntries (entries : List (LogEntry κ)) (index : ℕ) : List (LogEntry κ) → List (LogEntry κ)
  | [] => entries
  | entry :: rest =>
    match entries[index]? with
    | some old =>
      if old.term ≠ entry.term then spliceEntries (entries.take index ++ [entry]) (index + 1) rest
      else spliceEntries entries (index + 1) rest
    | none => spliceEntries (entries ++ [entry]) (index + 1) rest

def appendFrom (log : RaftLog ι κ) (prevIndex : ℕ) (newEntries : List (LogEntry κ)) :
    RaftLog ι κ :=
  { log with entries := spliceEntries log.entries prevIndex newEntries }

def save (log : RaftLog ι κ) (currentTerm : ℕ) (votedFor : Option ι) : RaftLog ι κ :=
  { log with
    currentTerm := currentTerm
    votedFor := votedFor
    file := if log.path then some ⟨currentTerm, votedFor, log.entries⟩ else log.file }

/-- What a restarted node gets: the log read back from its path, or, for the
in-memory logs of the simulation, the log object itself. -/
def reopen (log : RaftLog ι κ) : RaftLog ι κ := if log.path then new true log.file else log

/-- A restart brings back the term `t`, the vote `v` and the entries `S`. -/
structure SavedAs (log : RaftLog ι κ) (t : ℕ) (v : Option ι) (S : List (LogEntry κ)) : Prop where
  term : log.currentTerm = t
  vote : log.votedFor = v
  file : log.path = true → log.file = some ⟨t, v, S⟩ ∨
    (log.file = none ∧ t = 0 ∧ v = none ∧ S = [])
  memory : log.path = false → log.entries = S

/-- The saved term, vote and entries are those in memory. -/
def Synced (log : RaftLog ι κ) (currentTerm : ℕ) (votedFor : Option ι) : Prop :=
  log.SavedAs currentTerm votedFor log.entries

theorem synced_new (path : Bool) : (new path none : RaftLog ι κ).Synced 0 none := by
  cases path
  · exact ⟨rfl, rfl, by simp [new], fun _ => rfl⟩
  · exact ⟨rfl, rfl, fun _ => Or.inr ⟨rfl, rfl, rfl, rfl⟩, fun _ => rfl⟩

/-- Saving leaves the log synced, whatever it was before. -/
theorem synced_save (log : RaftLog ι κ) (currentTerm : ℕ) (votedFor : Option ι) :
    (log.save currentTerm votedFor).Synced currentTerm votedFor :=
  ⟨rfl, rfl, fun hpath => by
    have hpath' : log.path = true := hpath
    simp [save, hpath'], fun _ => rfl⟩

/-- **A restart brings back what was saved.** -/
theorem SavedAs.reopen {log : RaftLog ι κ} {t : ℕ} {v : Option ι} {S : List (LogEntry κ)}
    (h : log.SavedAs t v S) : log.reopen.SavedAs t v S ∧ log.reopen.entries = S := by
  unfold RaftLog.reopen
  by_cases hpath : log.path = true
  · rw [if_pos hpath]
    rcases h.file hpath with hf | ⟨hf, rfl, rfl, rfl⟩
    · rw [hf]
      exact ⟨⟨rfl, rfl, fun _ => Or.inl rfl, fun _ => rfl⟩, rfl⟩
    · rw [hf]
      exact ⟨⟨rfl, rfl, fun _ => Or.inr ⟨rfl, rfl, rfl, rfl⟩, fun _ => rfl⟩, rfl⟩
  · rw [if_neg hpath]
    exact ⟨h, h.memory (by simpa using hpath)⟩

@[simp] theorem save_entries (log : RaftLog ι κ) (t : ℕ) (v : Option ι) :
    (log.save t v).entries = log.entries := rfl

@[simp] theorem appendNew_entries (log : RaftLog ι κ) (e : LogEntry κ) :
    (log.appendNew e).entries = log.entries ++ [e] := rfl

theorem lastTerm_eq (log : RaftLog ι κ) : log.lastTerm = lastStamp log.entries := rfl

/-! ## The splice loop -/

/-- Entries that start where the log ends are simply appended. -/
theorem spliceEntries_eq_append (es : List (LogEntry κ)) :
    ∀ L : List (LogEntry κ), spliceEntries L L.length es = L ++ es := by
  induction es with
  | nil => intro L; simp [spliceEntries]
  | cons e es ih =>
    intro L
    have hnone : L[L.length]? = none := by simp
    have hlen : L.length + 1 = (L ++ [e]).length := by simp
    rw [spliceEntries, hnone]
    show spliceEntries (L ++ [e]) (L.length + 1) es = L ++ e :: es
    rw [hlen, ih (L ++ [e]), List.append_assoc, List.singleton_append]

/-- **The splice of a matching log.**  Let `X` agree with `L` on the first `p`
entries, and let equal terms at equal positions mean equal entries.  Splicing the
entries `p … n` of `L` into `X` overlays `X` with the first `n` entries of `L`. -/
theorem spliceEntries_eq_overlay {L : List (LogEntry κ)} {n : ℕ} (hn : n ≤ L.length) :
    ∀ (k p : ℕ) (X : List (LogEntry κ)), p + k = n → p ≤ X.length → X.take p = L.take p →
      (∀ (i : ℕ) (e e' : LogEntry κ), X[i]? = some e → L[i]? = some e' → e.term = e'.term →
        e = e') →
      spliceEntries X p ((L.take n).drop p) = overlay X (L.take n) := by
  intro k
  induction k with
  | zero =>
    intro p X hk hp htake _
    -- nothing to splice: `X` already begins with the first `n` entries
    obtain rfl : p = n := by omega
    have hdrop : (L.take p).drop p = [] := List.drop_eq_nil_of_le (List.length_take_le p L)
    rw [hdrop, spliceEntries]
    unfold overlay
    rw [if_pos (htake ▸ List.take_prefix p X)]
  | succ k ih =>
    intro p X hk hp htake hmatch
    have hpn : p < n := by omega
    have hpL : p < L.length := by omega
    have hLp : L[p]? = some L[p] := List.getElem?_eq_getElem hpL
    have hhead : (L.take n).drop p = L[p] :: (L.take n).drop (p + 1) := by
      have hlt : p < (L.take n).length := by
        rw [List.length_take]
        omega
      rw [List.drop_eq_getElem_cons hlt, List.getElem_take]
    have hsucc : L.take (p + 1) = L.take p ++ [L[p]] := (List.take_concat_get' L p hpL).symm
    rw [hhead, spliceEntries]
    rcases hXp : X[p]? with _ | old
    · -- `X` ends here: the rest is appended
      have hlen : X.length = p := by
        have := List.getElem?_eq_none_iff.mp hXp
        omega
      have hX : X = L.take p := by rw [← htake, ← hlen, List.take_length]
      have hX' : X ++ [L[p]] = L.take (p + 1) := by rw [hsucc, hX]
      have hl' : p + 1 = (X ++ [L[p]]).length := by simp [hlen]
      show spliceEntries (X ++ [L[p]]) (p + 1) ((L.take n).drop (p + 1)) = overlay X (L.take n)
      rw [hl', spliceEntries_eq_append, ← hl', hX']
      have hall : L.take (p + 1) ++ (L.take n).drop (p + 1) = L.take n := by
        have := List.take_append_drop (p + 1) (L.take n)
        rwa [List.take_take, min_eq_left (by omega)] at this
      rw [hall]
      unfold overlay
      rw [if_neg]
      intro hpre
      have := hpre.length_le
      rw [List.length_take_of_le hn] at this
      omega
    · by_cases hterm : old.term ≠ L[p].term
      · -- a conflict: everything from here on is replaced
        show (if old.term ≠ L[p].term then _ else _) = _
        rw [if_pos hterm, htake, ← hsucc]
        have hl' : p + 1 = (L.take (p + 1)).length := (List.length_take_of_le (by omega)).symm
        nth_rewrite 2 [hl']
        rw [spliceEntries_eq_append]
        have hall : L.take (p + 1) ++ (L.take n).drop (p + 1) = L.take n := by
          have := List.take_append_drop (p + 1) (L.take n)
          rwa [List.take_take, min_eq_left (by omega)] at this
        rw [hall]
        unfold overlay
        rw [if_neg]
        intro hpre
        have hmem : (L.take n)[p]? = some L[p] := by rw [List.getElem?_take_of_lt hpn, hLp]
        have := getElem?_of_isPrefix hpre hmem
        rw [hXp, Option.some.injEq] at this
        exact hterm (by rw [this])
      · -- the same entry: keep going
        push Not at hterm
        have heq : old = L[p] := hmatch p old _ hXp hLp hterm
        have hpX : p < X.length := (List.getElem?_eq_some_iff.mp hXp).1
        show (if old.term ≠ L[p].term then _ else _) = _
        rw [if_neg (not_not.mpr hterm)]
        refine ih (p + 1) X (by omega) (by omega) ?_ hmatch
        rw [hsucc, ← htake, ← heq]
        have := List.take_concat_get' X p hpX
        rw [← this]
        congr 2
        have h2 : X[p]? = some X[p] := List.getElem?_eq_getElem hpX
        rw [hXp] at h2
        exact (Option.some.inj h2).symm

end RaftLog
