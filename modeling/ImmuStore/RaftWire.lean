/-
# Envelopes on the wire (`raft/wire.py`, the frames of `raft/server.py`)

An envelope is dumped as a JSON dictionary with the name of its body's class, and rebuilt
field by field from what is read.  Nothing checks the types of the fields, so the messages
here have any JSON values in them; `Envelope.onWire` reads the envelopes of the nodes as such
messages.  A frame is the length of the bytes, in four bytes, and the bytes.
-/
import ImmuStore.JsonValue
import ImmuStore.RaftLog
import ImmuStore.RespSpec
import ImmuStore.StorageSpec

namespace Wire

variable {F : Type}
variable {data cut : Bytes}

/-! ## Messages -/

structure LogEntry (F : Type) where
  term : JsonValue F
  command : JsonValue F

structure RequestVote (F : Type) where
  term : JsonValue F
  candidateId : JsonValue F
  lastLogIndex : JsonValue F
  lastLogTerm : JsonValue F

structure RequestVoteReply (F : Type) where
  term : JsonValue F
  voteGranted : JsonValue F

structure AppendEntries (F : Type) where
  term : JsonValue F
  leaderId : JsonValue F
  prevLogIndex : JsonValue F
  prevLogTerm : JsonValue F
  entries : List (LogEntry F)
  leaderCommit : JsonValue F

structure AppendEntriesReply (F : Type) where
  term : JsonValue F
  success : JsonValue F
  matchIndex : JsonValue F

/-- The four classes of bodies. -/
inductive Body (F : Type) where
  | requestVote (rv : RequestVote F)
  | requestVoteReply (reply : RequestVoteReply F)
  | appendEntries (ae : AppendEntries F)
  | appendEntriesReply (reply : AppendEntriesReply F)

structure Envelope (F : Type) where
  src : JsonValue F
  dst : JsonValue F
  body : Body F

/-! ## `wire.py` -/

/-- `type(body).__name__`. -/
def Body.kind : Body F → String
  | .requestVote _ => "RequestVote"
  | .requestVoteReply _ => "RequestVoteReply"
  | .appendEntries _ => "AppendEntries"
  | .appendEntriesReply _ => "AppendEntriesReply"

/-- `_body_to_dict`. -/
def bodyToDict : Body F → JsonValue F
  | .requestVote body => .dict [
      ("term", body.term),
      ("candidate_id", body.candidateId),
      ("last_log_index", body.lastLogIndex),
      ("last_log_term", body.lastLogTerm)]
  | .requestVoteReply body => .dict [("term", body.term), ("vote_granted", body.voteGranted)]
  | .appendEntries body => .dict [
      ("term", body.term),
      ("leader_id", body.leaderId),
      ("prev_log_index", body.prevLogIndex),
      ("prev_log_term", body.prevLogTerm),
      ("entries", .list (body.entries.map fun e => .list [e.term, e.command])),
      ("leader_commit", body.leaderCommit)]
  | .appendEntriesReply body => .dict [
      ("term", body.term), ("success", body.success), ("match_index", body.matchIndex)]

/-- An entry of `data["entries"]`. -/
def entryOfPair (pair : JsonValue F) : Except PyError (LogEntry F) := do
  let (term, command) ← pair.unpackPair
  return ⟨term, command⟩

/-- `_dict_to_body`. -/
def dictToBody (kind data : JsonValue F) : Except PyError (Body F) :=
  match kind with
  | .str "RequestVote" => do
    let term ← data.getItem "term"
    let candidateId ← data.getItem "candidate_id"
    let lastLogIndex ← data.getItem "last_log_index"
    let lastLogTerm ← data.getItem "last_log_term"
    return .requestVote ⟨term, candidateId, lastLogIndex, lastLogTerm⟩
  | .str "RequestVoteReply" => do
    let term ← data.getItem "term"
    let voteGranted ← data.getItem "vote_granted"
    return .requestVoteReply ⟨term, voteGranted⟩
  | .str "AppendEntries" => do
    let pairs ← (← data.getItem "entries").iter
    let entries ← pairs.mapM entryOfPair
    let term ← data.getItem "term"
    let leaderId ← data.getItem "leader_id"
    let prevLogIndex ← data.getItem "prev_log_index"
    let prevLogTerm ← data.getItem "prev_log_term"
    let leaderCommit ← data.getItem "leader_commit"
    return .appendEntries ⟨term, leaderId, prevLogIndex, prevLogTerm, entries, leaderCommit⟩
  | .str "AppendEntriesReply" => do
    let term ← data.getItem "term"
    let success ← data.getItem "success"
    let matchIndex ← data.getItem "match_index"
    return .appendEntriesReply ⟨term, success, matchIndex⟩
  | _ => .error .typeError

/-- The dictionary that `encode` dumps. -/
def envelopeDict (envelope : Envelope F) : JsonValue F :=
  .dict [
    ("src", envelope.src),
    ("dst", envelope.dst),
    ("kind", .str envelope.body.kind),
    ("body", bodyToDict envelope.body)]

/-- `encode`. -/
def encode (json : JsonText F) (envelope : Envelope F) : Bytes :=
  Resp.utf8Encode (json.dumps (envelopeDict envelope))

/-- `decode`. -/
def decode (json : JsonText F) (raw : Bytes) : Except PyError (Envelope F) :=
  match Resp.utf8Decode? raw with
  | none => .error .valueError
  | some text => do
    let data ← json.loads text
    let src ← data.getItem "src"
    let dst ← data.getItem "dst"
    let body ← dictToBody (← data.getItem "kind") (← data.getItem "body")
    return ⟨src, dst, body⟩

/-! ## Frames -/

/-- `_LEN.size`. -/
def lenSize : ℕ := 4

/-- `_frame`. -/
def frame (data : Bytes) : Except PyError Bytes := do
  let header ← packUnsigned lenSize data.length
  return header ++ data

/-- The `try` block of `_read_frame`. -/
def readHeaderAndData : Resp.Reads Bytes := do
  let header ← Resp.readExactly lenSize
  Resp.readExactly (unpackBE header)

/-- `_read_frame`. -/
def readFrame : Resp.Reads (Option Bytes) := fun s => Resp.orNone (readHeaderAndData s)

/-- A frame is read and, unless it is `None`, decoded. -/
def receive (json : JsonText F) : Resp.Reads (Option (Except PyError (Envelope F))) := do
  let raw ← readFrame
  return raw.map (decode json)

/-- The frames of several envelopes, one after the other. -/
def frames (json : JsonText F) (envelopes : List (Envelope F)) : Except PyError Bytes := do
  let parts ← envelopes.mapM fun e => frame (encode json e)
  return parts.flatten

/-! ## What is sent is read back -/

/-- The fields of a body are JSON values. -/
def Body.IsJson : Body F → Prop
  | .requestVote body => body.term.IsJson ∧ body.candidateId.IsJson ∧ body.lastLogIndex.IsJson ∧
      body.lastLogTerm.IsJson
  | .requestVoteReply body => body.term.IsJson ∧ body.voteGranted.IsJson
  | .appendEntries body => body.term.IsJson ∧ body.leaderId.IsJson ∧ body.prevLogIndex.IsJson ∧
      body.prevLogTerm.IsJson ∧ (∀ e ∈ body.entries, e.term.IsJson ∧ e.command.IsJson) ∧
      body.leaderCommit.IsJson
  | .appendEntriesReply body => body.term.IsJson ∧ body.success.IsJson ∧ body.matchIndex.IsJson

/-- The fields of an envelope are JSON values. -/
structure Envelope.IsJson (e : Envelope F) : Prop where
  src : e.src.IsJson
  dst : e.dst.IsJson
  body : e.body.IsJson

theorem Body.IsJson.bodyToDict {body : Body F} (h : body.IsJson) : (bodyToDict body).IsJson := by
  cases body with
  | requestVote body =>
    obtain ⟨h1, h2, h3, h4⟩ := h
    simp [Wire.bodyToDict, JsonValue.IsJson, JsonValue.EntriesJson, h1, h2, h3, h4]
  | requestVoteReply body =>
    obtain ⟨h1, h2⟩ := h
    simp [Wire.bodyToDict, JsonValue.IsJson, JsonValue.EntriesJson, h1, h2]
  | appendEntries body =>
    obtain ⟨h1, h2, h3, h4, hentries, h5⟩ := h
    have hpairs : JsonValue.AllJson (body.entries.map fun e => .list [e.term, e.command]) := by
      rw [JsonValue.allJson_iff]
      intro pair hpair
      obtain ⟨e, he, rfl⟩ := List.mem_map.mp hpair
      exact ⟨(hentries e he).1, (hentries e he).2, trivial⟩
    simp [Wire.bodyToDict, JsonValue.IsJson, JsonValue.EntriesJson, h1, h2, h3, h4, hpairs, h5]
  | appendEntriesReply body =>
    obtain ⟨h1, h2, h3⟩ := h
    simp [Wire.bodyToDict, JsonValue.IsJson, JsonValue.EntriesJson, h1, h2, h3]

variable {e : Envelope F}

theorem Envelope.IsJson.envelopeDict (h : e.IsJson) : (envelopeDict e).IsJson := by
  simp [Wire.envelopeDict, JsonValue.IsJson, JsonValue.EntriesJson, h.src, h.dst, h.body.bodyToDict]

/-- The pairs of the entries are unpacked again. -/
theorem mapM_entryOfPair (entries : List (LogEntry F)) :
    (entries.map fun e => JsonValue.list [e.term, e.command]).mapM entryOfPair = .ok entries := by
  induction entries with
  | nil => rfl
  | cons e entries ih =>
    rw [List.map_cons, List.mapM_cons, ih]
    rfl

/-- The decoder looks every field up under the name the encoder gave it. -/
theorem dictToBody_bodyToDict (body : Body F) :
    dictToBody (.str body.kind) (bodyToDict body) = .ok body := by
  cases body with
  | requestVote body => rfl
  | requestVoteReply body => rfl
  | appendEntries body =>
    -- the fields are looked up by computation, but the entries are a list of any length
    calc dictToBody (.str "AppendEntries") (bodyToDict (.appendEntries body))
        = (do
            let entries ← (body.entries.map fun e => .list [e.term, e.command]).mapM entryOfPair
            return .appendEntries ⟨body.term, body.leaderId, body.prevLogIndex, body.prevLogTerm,
              entries, body.leaderCommit⟩) := rfl
      _ = .ok (.appendEntries body) := by
        rw [mapM_entryOfPair]
        rfl
  | appendEntriesReply body => rfl

theorem decode_encode (json : JsonText F) (h : e.IsJson) : decode json (encode json e) = .ok e := by
  have hloads := json.loads_dumps _ h.envelopeDict
  calc decode json (encode json e)
      = (do
          let body ← dictToBody (.str e.body.kind) (bodyToDict e.body)
          return ⟨e.src, e.dst, body⟩) := by
        rw [decode, encode, Resp.utf8Decode?_utf8Encode]
        simp only [hloads]
        rfl
    _ = .ok e := by
      rw [dictToBody_bodyToDict]
      rfl

/-! ## Frames are read back -/

/-- What `_frame` returns for data that is not too long. -/
def framed (data : Bytes) : Bytes := packBE lenSize data.length ++ data

theorem frame_eq (h : data.length < 2 ^ 32) : frame data = .ok (framed data) := by
  have hfits : 0 ≤ (data.length : ℤ) ∧ (data.length : ℤ).toNat < 256 ^ lenSize :=
    ⟨by omega, by rw [Int.toNat_natCast]; exact h⟩
  rw [frame, packUnsigned, if_pos hfits]
  rfl

/-- Data that is too long for its length to be packed is not sent. -/
theorem length_lt_of_frame {part : Bytes} (h : frame data = .ok part) : data.length < 2 ^ 32 := by
  rw [frame] at h
  cases hpack : packUnsigned lenSize data.length with
  | error e => simp [hpack] at h
  | ok header => exact (Storage.packUnsigned_fits hpack).2

theorem readFrame_framed (h : data.length < 2 ^ 32) (rest : Bytes) :
    readFrame (framed data ++ rest) = .ok (some data) rest := by
  have hheader : Resp.readExactly lenSize (framed data ++ rest) =
      .ok (packBE lenSize data.length) (data ++ rest) := by
    have hread := Resp.readExactly_append (packBE lenSize data.length) (data ++ rest)
    rwa [length_packBE, ← List.append_assoc] at hread
  have hlength : unpackBE (packBE lenSize data.length) = data.length := unpackBE_packBE h
  rw [readFrame, readHeaderAndData, run_bind, hheader]
  simp only [hlength, Resp.readExactly_append]
  rfl

/-- A frame that is cut is the end of the stream. -/
theorem readFrame_cut (h : data.length < 2 ^ 32) (hle : cut <+: framed data)
    (hne : cut ≠ framed data) : readFrame cut = .ok none [] := by
  have hshort : cut.length < lenSize + data.length := by
    have hlength : (framed data).length = lenSize + data.length := by
      simp [framed, length_packBE]
    rw [← hlength]
    exact lt_of_le_of_ne hle.length_le fun heq => hne (hle.eq_of_length heq)
  rw [readFrame, readHeaderAndData, run_bind, Resp.readExactly_natCast]
  by_cases hheader : lenSize ≤ cut.length
  · -- the header is whole, and less than the announced data follows
    have htake : cut.take lenSize = packBE lenSize data.length := by
      rw [List.prefix_iff_eq_take.mp hle, List.take_take, min_eq_left hheader, framed,
        List.take_left' (length_packBE _ _)]
    have hlength : unpackBE (packBE lenSize data.length) = data.length := unpackBE_packBE h
    have hrest : ¬ data.length ≤ (cut.drop lenSize).length := by
      rw [List.length_drop]
      omega
    simp only [if_pos hheader, htake, hlength, Resp.readExactly_natCast, if_neg hrest]
    rfl
  · rw [if_neg hheader]
    rfl

theorem frames_eq (json : JsonText F) {envelopes : List (Envelope F)}
    (h : ∀ e ∈ envelopes, (encode json e).length < 2 ^ 32) :
    frames json envelopes = .ok (envelopes.flatMap fun e => framed (encode json e)) := by
  have hparts : envelopes.mapM (fun e => frame (encode json e)) =
      .ok (envelopes.map fun e => framed (encode json e)) := by
    induction envelopes with
    | nil => rfl
    | cons e envelopes ih =>
      rw [List.mapM_cons, frame_eq (h e (by simp)), ih fun e he => h e (by simp [he])]
      rfl
  rw [frames, hparts, List.flatMap_def]
  rfl

theorem receive_framed (json : JsonText F) (h : e.IsJson) (hshort : (encode json e).length < 2 ^ 32)
    (rest : Bytes) :
    receive json (framed (encode json e) ++ rest) = .ok (some (.ok e)) rest := by
  rw [receive, run_bind, readFrame_framed hshort]
  simp only [run_pure, Option.map_some, decode_encode json h]

theorem receive_cut (json : JsonText F) (h : data.length < 2 ^ 32) (hle : cut <+: framed data)
    (hne : cut ≠ framed data) : receive json cut = .ok none [] := by
  rw [receive, run_bind, readFrame_cut h hle hne]
  rfl

end Wire

/-! ## The envelopes of the nodes -/

section OnWire

variable {F ι κ : Type} (ids : ι → JsonValue F) (commands : κ → JsonValue F)

def LogEntry.onWire (e : LogEntry κ) : Wire.LogEntry F := ⟨.int e.term, commands e.command⟩

def RpcBody.onWire : RpcBody ι κ → Wire.Body F
  | .requestVote rv => .requestVote
      ⟨.int rv.term, ids rv.candidateId, .int rv.lastLogIndex, .int rv.lastLogTerm⟩
  | .requestVoteReply reply => .requestVoteReply ⟨.int reply.term, .bool reply.voteGranted⟩
  | .appendEntries ae => .appendEntries
      ⟨.int ae.term, ids ae.leaderId, .int ae.prevLogIndex, .int ae.prevLogTerm,
        ae.entries.map (LogEntry.onWire commands), .int ae.leaderCommit⟩
  | .appendEntriesReply reply => .appendEntriesReply
      ⟨.int reply.term, .bool reply.success, .int reply.matchIndex⟩

/-- An envelope of the nodes, with its ids and commands as JSON values. -/
def Envelope.onWire (e : Envelope ι κ) : Wire.Envelope F :=
  ⟨ids e.src, ids e.dst, e.body.onWire ids commands⟩

theorem Envelope.isJson_onWire (hids : ∀ i, (ids i).IsJson) (hcommands : ∀ c, (commands c).IsJson)
    (e : Envelope ι κ) : (e.onWire ids commands).IsJson := by
  refine ⟨hids _, hids _, ?_⟩
  cases hbody : e.body with
  | requestVote rv => simp [onWire, hbody, RpcBody.onWire, Wire.Body.IsJson, JsonValue.IsJson, hids]
  | requestVoteReply reply => simp [onWire, hbody, RpcBody.onWire, Wire.Body.IsJson, JsonValue.IsJson]
  | appendEntries ae =>
    simp [onWire, hbody, RpcBody.onWire, LogEntry.onWire, Wire.Body.IsJson, JsonValue.IsJson, hids,
      hcommands]
  | appendEntriesReply reply =>
    simp [onWire, hbody, RpcBody.onWire, Wire.Body.IsJson, JsonValue.IsJson]

end OnWire

namespace Wire

variable {F : Type}

/-- The command of an entry. -/
def sampleCommand : JsonValue Empty :=
  .dict [("op", .str "set"), ("key", .str "k"), ("value", .int 1)]

/-- A leader sends one entry. -/
def sampleSent : Envelope Empty :=
  Envelope.onWire (fun i : ℕ => .int i) (fun _ : Unit => sampleCommand)
    ⟨0, 1, .appendEntries ⟨1, 0, 0, -1, [⟨1, ()⟩], 0⟩⟩

theorem sampleSent_isJson : sampleSent.IsJson := by
  apply Envelope.isJson_onWire
  · intro i
    trivial
  · intro c
    simp [sampleCommand, JsonValue.IsJson, JsonValue.EntriesJson]

theorem sampleSent_short : (encode sampleJsonText sampleSent).length < 2 ^ 32 := by
  decide +kernel

/-- **Envelopes are read back from the wire.**  Decoding is the inverse of encoding, for
envelopes of every kind of body.  The frames of any envelopes, one behind the other, are read
and decoded in order whatever follows them; if a stream is cut inside a further frame, `None`
is returned for it. -/
theorem envelopes_read_back (json : JsonText F) :
    (∀ e : Envelope F, e.IsJson → decode json (encode json e) = .ok e) ∧
      ∀ envelopes : List (Envelope F),
        (∀ e ∈ envelopes, e.IsJson ∧ (encode json e).length < 2 ^ 32) →
        ∃ stream, frames json envelopes = .ok stream ∧
          (∀ rest, Resp.readTimes (receive json) envelopes.length (stream ++ rest) =
            .ok (envelopes.map fun e => some (.ok e)) rest) ∧
          ∀ e part cut, frame (encode json e) = .ok part → cut <+: part → cut ≠ part →
            Resp.readTimes (receive json) (envelopes.length + 1) (stream ++ cut) =
              .ok ((envelopes.map fun e => some (.ok e)) ++ [none]) [] := by
  refine ⟨fun e he => decode_encode json he, fun envelopes hall => ?_⟩
  have hread : ∀ rest, Resp.readTimes (receive json) envelopes.length
      (envelopes.flatMap (fun e => framed (encode json e)) ++ rest) =
        .ok (envelopes.map fun e => some (.ok e)) rest :=
    Resp.readTimes_flatMap fun e he => receive_framed json (hall e he).1 (hall e he).2
  refine ⟨_, frames_eq json fun e he => (hall e he).2, hread, fun e part cut hpart hle hne => ?_⟩
  have hshort := length_lt_of_frame hpart
  rw [frame_eq hshort] at hpart
  cases hpart
  exact Resp.readTimes_concat (hread cut) (receive_cut json hshort hle hne)

/-- The frame of one envelope, and three bytes of the same frame again. -/
theorem envelopes_read_back_sample :
    Resp.readTimes (receive sampleJsonText) 2
        (framed (encode sampleJsonText sampleSent) ++
          (framed (encode sampleJsonText sampleSent)).take 3) =
      .ok [some (.ok sampleSent), none] [] := by
  have hall : ∀ e ∈ [sampleSent], e.IsJson ∧ (encode sampleJsonText e).length < 2 ^ 32 := by
    intro e he
    obtain rfl := List.mem_singleton.mp he
    exact ⟨sampleSent_isJson, sampleSent_short⟩
  obtain ⟨stream, hstream, -, hcut⟩ := (envelopes_read_back sampleJsonText).2 _ hall
  rw [frames_eq sampleJsonText fun e he => (hall e he).2, List.flatMap_singleton] at hstream
  cases hstream
  have hne : (framed (encode sampleJsonText sampleSent)).take 3 ≠
      framed (encode sampleJsonText sampleSent) := by
    intro heq
    have hlength := congrArg List.length heq
    rw [List.length_take, framed, List.length_append, length_packBE, lenSize] at hlength
    omega
  exact hcut sampleSent _ _ (frame_eq sampleSent_short) (List.take_prefix _ _) hne

end Wire
