/-
# Requests and replies of a connection

What the loop of a connection does with the bytes that come in, whatever they are, and what
a client reads back of the replies.
-/
import ImmuStore.RespRequests
import ImmuStore.Server
import ImmuStore.TextPickle

open Resp

namespace Server

variable {reply : Reply} {goesOn : Bool}
variable {command raw : Bytes}

/-! ## Malformed requests -/

/-- **Malformed requests are reported, exactly if no bad header is reached.**  For every
stream: `read_command` returns arguments, or `None` at the end of the stream, or raises
`ProtocolError`, so that the loop goes on, ends or answers with a protocol error, if and
only if neither the first line that is not blank nor a header line of an announced argument
that is read is beyond the limit of the reader, and no such header gives a length that `int`
refuses or that is negative. -/
theorem malformed_requests_reported_iff (limits : Limits) (s : Bytes) :
    (Reported (readCommand limits s) ∧ (∀ rest, readCommand limits s = .ok none rest → rest = []) ∧
        ∀ e, serveTurn limits s ≠ .raises e) ↔ ¬ Escaping limits s := by
  rw [← readCommand_reported_iff]
  refine ⟨And.left, fun hreported => ⟨hreported, fun rest => readCommand_none, fun e hturn => ?_⟩⟩
  rw [serveTurn] at hturn
  cases hread : readCommand limits s with
  | ok command rest =>
    rw [hread] at hturn
    cases command with
    | none => cases hturn
    | some args => cases args <;> cases hturn
  | error e' rest =>
    rw [hread] at hturn hreported
    obtain ⟨message, rfl⟩ := hreported
    cases hturn

/-- `*1`, and a length that is not a number. -/
theorem bad_length_escapes :
    readCommand .standard [42, 49, 13, 10, 36, 97, 98, 99, 13, 10] = .error .valueError [] ∧
      serveTurn .standard [42, 49, 13, 10, 36, 97, 98, 99, 13, 10] = .raises .valueError := by
  constructor
  · rfl
  · rfl

/-! ## Replies of a connection -/

section ReadBack

variable {limits : Limits}

/-- An error that is read back has no CRLF in it: the client reads up to the first one. -/
theorem not_crlf_of_read_back {text : Text} {bytes rest rest' : Bytes}
    (hencode : encode limits.digits (.error text) = .ok bytes)
    (h : readReply limits (bytes ++ rest) = .ok (.error text) rest') : ¬ ['\r', '\n'] <:+: text := by
  cases hencode
  generalize hs : 45 :: utf8Encode text ++ crlf ++ rest = s at h
  rw [readReply, readReplyAux, run_bind] at h
  have hspec := readLine_spec limits.line s
  generalize readLine limits.line s = result at hspec h
  cases hspec with
  | ends => cases h
  | overlong => cases h
  | @line line rest'' hline hfits =>
    obtain ⟨raw, rfl⟩ : ∃ raw, line = 45 :: raw := by
      cases line with
      | nil => simp [crlf] at hs
      | cons mark raw =>
        obtain ⟨rfl, -⟩ : 45 = mark ∧ _ := by simpa using hs
        exact ⟨raw, rfl⟩
    have hread : (.error <$> utf8Decode raw : Reads Reply) rest'' = .ok (.error text) rest' := h
    rw [run_map, utf8Decode] at hread
    cases hdecode : utf8Decode? raw with
    | none => simp [hdecode] at hread
    | some text' =>
      obtain ⟨rfl, -⟩ : text' = text ∧ rest'' = rest' := by simpa [hdecode] using hread
      rw [← crlf_infix_utf8Encode, utf8Encode_of_decode hdecode]
      exact hline.tail

/-- A reply that is read back has no CRLF in a line, and its lines are within the limits. -/
theorem plain_of_read_back {reply : Reply} {bytes rest rest' : Bytes}
    (h : reply.Plain ∨ ∃ text, reply = .error text) (hencode : encode limits.digits reply = .ok bytes)
    (hread : readReply limits (bytes ++ rest) = .ok reply rest') :
    reply.Plain ∧ reply.Fits limits ∧ rest' = rest := by
  have hplain : reply.Plain := by
    rcases h with hplain | ⟨text, rfl⟩
    · exact hplain
    · exact .error (not_crlf_of_read_back hencode hread)
  have hreads := readReply_encode hplain hencode rest
  rw [hread] at hreads
  cases hreads with
  | returns hfits => exact ⟨hplain, hfits, rfl⟩

/-- Of replies of which only errors can have a CRLF, the client reads back all exactly if
none has and their lines are within the limits. -/
theorem read_back_iff {replies : List Reply}
    (h : ∀ reply ∈ replies, reply.Plain ∨ ∃ text, reply = .error text) :
    (∃ bytes, encodeAll limits.digits replies = .ok bytes ∧
        readTimes (readReply limits) replies.length bytes = .ok replies []) ↔
      (∀ text, .error text ∈ replies → ¬ ['\r', '\n'] <:+: text) ∧
        ∀ reply ∈ replies, reply.Fits limits := by
  constructor
  · rintro ⟨bytes, hencode, hread⟩
    induction replies generalizing bytes with
    | nil => simp
    | cons reply replies ih =>
      rw [List.forall_mem_cons] at h
      obtain ⟨first, others, hfirst, hothers, rfl⟩ := encodeAll_cons hencode
      rw [List.length_cons, readTimes, run_bind] at hread
      cases hone : readReply limits (first ++ others) with
      | error e t => simp [hone] at hread
      | ok reply' rest =>
        simp only [hone, run_bind, run_pure] at hread
        cases hrest : readTimes (readReply limits) replies.length rest with
        | error e t => simp [hrest] at hread
        | ok replies' t =>
          obtain ⟨⟨rfl, rfl⟩, rfl⟩ : (reply' = reply ∧ replies' = replies) ∧ t = [] := by
            simpa [hrest] using hread
          obtain ⟨hplain, hfits, rfl⟩ := plain_of_read_back h.1 hfirst hone
          obtain ⟨hno, hall⟩ := ih h.2 _ hothers hrest
          refine ⟨fun text htext => ?_, List.forall_mem_cons.mpr ⟨hfits, hall⟩⟩
          rcases List.mem_cons.mp htext with rfl | htext
          · cases hplain with
            | error hno => exact hno
          · exact hno text htext
  · rintro ⟨hno, hfits⟩
    have hplain : ∀ reply ∈ replies, reply.Plain := by
      intro reply hreply
      rcases h reply hreply with hplain | ⟨text, rfl⟩
      · exact hplain
      · exact .error (hno text hreply)
    obtain ⟨bytes, hencode⟩ := encodeAll_eq_ok fun reply hreply => (hfits reply hreply).encodes
    have hreads := readTimes_encodeAll (x := readReply limits)
      (fun reply hreply _ hbytes _ rest => readReply_encode (hplain reply hreply) hbytes rest)
      hencode le_rfl []
    rw [List.append_nil] at hreads
    refine ⟨bytes, hencode, ?_⟩
    generalize readTimes (readReply limits) replies.length bytes = result at hreads
    cases hreads with
    | returns => rfl
    | raises hnot => exact absurd hfits hnot

end ReadBack

/-- A text without a CR has no CRLF. -/
theorem not_crlf_of_not_mem {text : Text} (h : '\r' ∉ text) : ¬ ['\r', '\n'] <:+: text :=
  fun hinner => h (hinner.subset (by simp))

theorem plain_of_withText {next : Text → Plan}
    (hnext : ∀ text, next text = .send reply goesOn → reply.Plain)
    (h : withText raw next = .send reply goesOn) : reply.Plain := by
  unfold withText at h
  cases hdecode : utf8Decode? raw with
  | none => simp [hdecode] at h
  | some text =>
    rw [hdecode] at h
    exact hnext text h

theorem plain_of_withTexts {raws : List Bytes} {next : List Text → Plan}
    (hnext : ∀ texts, next texts ≠ .send reply goesOn)
    (h : withTexts raws next = .send reply goesOn) : reply.Plain := by
  unfold withTexts at h
  cases hdecode : raws.mapM utf8Decode? with
  | none => simp [hdecode] at h
  | some texts =>
    rw [hdecode] at h
    exact absurd h (hnext texts)

theorem plain_of_wrongArgs {name : Text} (hname : '\r' ∉ name)
    (h : wrongArgs name = .send reply goesOn) : reply.Plain := by
  obtain ⟨rfl, -⟩ := Plan.send.inj h
  refine .error (not_crlf_of_not_mem ?_)
  simp [hname]

theorem Command.plain_of_plan {handler : Command} {args : List Bytes}
    (h : handler.plan args = .send reply goesOn) : reply.Plain := by
  have hstr : ∀ text, Plan.send (.str text) true = .send reply goesOn → reply.Plain := by
    intro text hsend
    obtain ⟨rfl, -⟩ := Plan.send.inj hsend
    exact .str text
  cases handler with
  | ping =>
    simp only [Command.plan] at h
    split at h
    · exact plain_of_withText hstr h
    · obtain ⟨rfl, -⟩ := Plan.send.inj h
      exact .simpleString (by decide)
  | echo =>
    simp only [Command.plan] at h
    split at h
    · exact plain_of_withText hstr h
    · exact plain_of_wrongArgs (by decide) h
  | set =>
    simp only [Command.plan] at h
    split at h
    · refine plain_of_withText (fun key => plain_of_withText fun value hset => ?_) h
      split_ifs at hset
      obtain ⟨rfl, -⟩ := Plan.send.inj hset
      exact .error (not_crlf_of_not_mem (by decide))
    · exact plain_of_wrongArgs (by decide) h
  | get =>
    simp only [Command.plan] at h
    split at h
    · exact plain_of_withText (fun key hget => by cases hget) h
    · exact plain_of_wrongArgs (by decide) h
  | del =>
    simp only [Command.plan] at h
    split at h
    · exact plain_of_withTexts (fun keys hdel => by cases hdel) h
    · exact plain_of_wrongArgs (by decide) h
  | «exists» =>
    simp only [Command.plan] at h
    split at h
    · exact plain_of_withTexts (fun keys hexists => by cases hexists) h
    · exact plain_of_wrongArgs (by decide) h
  | keys =>
    simp only [Command.plan] at h
    split at h
    · exact plain_of_withText (fun pattern hkeys => by cases hkeys) h
    · exact plain_of_wrongArgs (by decide) h
  | dbsize => cases h
  | info => cases h
  | command =>
    obtain ⟨rfl, -⟩ := Plan.send.inj h
    exact .list (by simp)
  | quit =>
    obtain ⟨rfl, -⟩ := Plan.send.inj h
    exact .simpleString (by decide)
  | subscribe =>
    simp only [Command.plan] at h
    split at h
    · cases h
    · exact plain_of_wrongArgs (by decide) h
  | unsubscribe => exact plain_of_withTexts (fun prefixes hun => by cases hun) h

/-! ## Unknown commands -/

/-- Upper case does not give, or take away, a byte that is no letter. -/
theorem upper_eq_iff {b k : UInt8} (hk : k < 65) :
    (if 97 ≤ b ∧ b ≤ 122 then b - 32 else b) = k ↔ b = k := by
  split_ifs with h
  · grind
  · rfl

theorem crlf_infix_upper : crlf <:+: upper raw ↔ crlf <:+: raw := by
  induction raw with
  | nil => simp [upper]
  | cons b raw ih =>
    have hhead : (upper raw).head? = some 10 ↔ raw.head? = some 10 := by
      cases raw with
      | nil => simp [upper]
      | cons c raw =>
        rw [upper, List.map_cons, List.head?_cons, List.head?_cons, Option.some_inj, Option.some_inj]
        exact upper_eq_iff (by decide)
    rw [upper, List.map_cons, List.infix_cons_iff, List.infix_cons_iff, crlf, pair_prefix_iff,
      pair_prefix_iff, upper_eq_iff (by decide), ← upper, hhead]
    exact or_congr_right ih

/-- The reply to an unknown command has a CRLF exactly if the command has. -/
theorem crlf_infix_unknown :
    ['\r', '\n'] <:+: "ERR unknown command '".toList ++ utf8Replace command.length command ++ ['\''] ↔
      crlf <:+: command := by
  have hsuffix : ¬ ['\r', '\n'] <:+ utf8Replace command.length command ++ ['\''] := by
    rintro ⟨t, ht⟩
    have hlast := congrArg List.getLast? ht
    simp at hlast
  rw [List.append_assoc, pair_infix_append (by decide), List.infix_concat_iff,
    (chunks_utf8Replace le_rfl).crlf_infix_iff]
  simp [hsuffix]

/-- No handler has a CR in its name. -/
theorem lookup_of_crlf (h : crlf <:+: command) : handlers.lookup (commandName command) = none := by
  have hmem : '\r' ∈ commandName command := by
    have hcr : (13 : UInt8) ∈ command := h.subset (by simp [crlf])
    exact List.mem_map.mpr ⟨13, List.mem_filter.mpr ⟨hcr, by decide⟩, by decide⟩
  have hnames : ∀ e ∈ handlers, '\r' ∉ e.1 := by decide
  rw [List.lookup_eq_none_iff]
  intro e he
  refine bne_iff_ne.mpr fun heq => hnames e he ?_
  rwa [← heq]

variable (ext : Externals Text) (inClass : Text → Char → Bool)

/-- The replies to a command of a client that is not subscribed, and whether the connection
goes on.  Other connections may have left the handle in any state. -/
inductive Answers (args : List Bytes) : List Reply → Bool → Prop
  | sends {reply : Reply} {goesOn : Bool} : dispatch false args = .send reply goesOn →
      Answers args [reply] goesOn
  | raises : dispatch false args = .raise → Answers args [] false
  | jobReturns {job : Job} {h h' : Handle Text} {result : JobResult} (clients : ℕ) :
      dispatch false args = .run job → job.run ext inClass h = .ok result h' →
      Answers args [result.reply clients] true
  | jobRaises {job : Job} {h h' : Handle Text} {e : PyError} :
      dispatch false args = .run job → job.run ext inClass h = .error e h' → Answers args [] false
  | unsubscribes {prefixes : List Text} : dispatch false args = .unsubscribe prefixes →
      Answers args (prefixes.map fun pre => .list [.str "unsubscribe".toList, .str pre, .int 0]) true

/-- The commands that a connection dispatches until it ends, for a client that does not
subscribe, and the replies that it sends. -/
inductive Conversation : List (List Bytes) → List Reply → Prop
  | idle : Conversation [] []
  | refused {limits : Limits} {s : Bytes} {reply : Reply} : serveTurn limits s = .refuses reply →
      Conversation [] [reply]
  | goesOn {args : List Bytes} {commands : List (List Bytes)} {replies rest : List Reply} :
      Answers ext inClass args replies true → Conversation commands rest →
      Conversation (args :: commands) (replies ++ rest)
  | ends {args : List Bytes} {replies : List Reply} : Answers ext inClass args replies false →
      Conversation [args] replies

variable {ext inClass} {args : List Bytes} {replies : List Reply} {goesOn : Bool}

/-- A command with a CRLF in its name is answered with an error that has it too. -/
theorem dispatch_of_crlf (h : crlf <:+: args.headD []) :
    ∃ text, dispatch false args = .send (.error text) true ∧ ['\r', '\n'] <:+: text := by
  have hcommand : crlf <:+: upper (args.headD []) := crlf_infix_upper.mpr h
  refine ⟨_, ?_, crlf_infix_unknown.mpr hcommand⟩
  simp only [dispatch, Bool.false_eq_true, false_and, if_false, lookup_of_crlf hcommand]

theorem plain_of_dispatch (h : NoCrlf (args.headD []))
    (hsend : dispatch false args = .send reply goesOn) : reply.Plain := by
  unfold dispatch at hsend
  simp only [Bool.false_eq_true, false_and, if_false] at hsend
  cases hlookup : handlers.lookup (commandName (upper (args.headD []))) with
  | none =>
    rw [hlookup] at hsend
    obtain ⟨rfl, -⟩ := Plan.send.inj hsend
    refine .error fun hcrlf => h ?_
    exact crlf_infix_upper.mp (crlf_infix_unknown.mp hcrlf)
  | some handler =>
    rw [hlookup] at hsend
    exact handler.plain_of_plan hsend

theorem JobResult.plain_reply (result : JobResult) (clients : ℕ) : (result.reply clients).Plain := by
  cases result with
  | stored key text => exact .simpleString (by decide)
  | value text =>
    cases text with
    | none => exact .none
    | some text => exact .str text
  | removed keys => exact .int _
  | found count => exact .int _
  | names keys =>
    refine .list fun item hitem => ?_
    obtain ⟨key, -, rfl⟩ := List.mem_map.mp hitem
    exact .str key
  | size count => exact .int _
  | stats record => exact .str _

section

variable (h : Answers ext inClass args replies goesOn)
include h

/-- The replies to a command without a CRLF in its name. -/
theorem Answers.plain (hno : NoCrlf (args.headD [])) :
    ∀ reply ∈ replies, reply.Plain := by
  cases h with
  | sends hsend => simpa using plain_of_dispatch hno hsend
  | raises => simp
  | jobReturns clients _ _ => simpa using JobResult.plain_reply _ clients
  | jobRaises => simp
  | unsubscribes =>
    intro reply hreply
    obtain ⟨pre, -, rfl⟩ := List.mem_map.mp hreply
    refine .list fun item hitem => ?_
    simp only [List.mem_cons, List.not_mem_nil, or_false] at hitem
    rcases hitem with rfl | rfl | rfl
    · exact .str _
    · exact .str _
    · exact .int _

/-- The reply to a command with a CRLF in its name. -/
theorem Answers.of_crlf (hcrlf : crlf <:+: args.headD []) :
    ∃ text, replies = [.error text] ∧ ['\r', '\n'] <:+: text := by
  obtain ⟨text, hdispatch, htext⟩ := dispatch_of_crlf hcrlf
  cases h with
  | sends hsend =>
    obtain ⟨rfl, -⟩ := Plan.send.inj (hsend.symm.trans hdispatch)
    exact ⟨text, rfl, htext⟩
  | raises hraise => cases hraise.symm.trans hdispatch
  | jobReturns _ hrun _ => cases hrun.symm.trans hdispatch
  | jobRaises hrun _ => cases hrun.symm.trans hdispatch
  | unsubscribes hun => cases hun.symm.trans hdispatch

theorem Answers.plain_or_error :
    ∀ reply ∈ replies, reply.Plain ∨ ∃ text, reply = .error text := by
  intro reply hreply
  by_cases hcrlf : crlf <:+: args.headD []
  · obtain ⟨text, rfl, -⟩ := h.of_crlf hcrlf
    exact .inr ⟨text, List.mem_singleton.mp hreply⟩
  · exact .inl (h.plain hcrlf reply hreply)

/-- An error with a CRLF is sent exactly if the command has one in its name. -/
theorem Answers.crlf_iff :
    (∀ text, .error text ∈ replies → ¬ ['\r', '\n'] <:+: text) ↔ NoCrlf (args.headD []) := by
  constructor
  · intro hno hcrlf
    obtain ⟨text, rfl, htext⟩ := h.of_crlf hcrlf
    exact hno text (List.mem_singleton.mpr rfl) htext
  · intro hno text htext
    cases h.plain hno _ htext with
    | error hplain => exact hplain

end

/-! ## Protocol errors -/

theorem hexDigit_ne {n : ℕ} (h : n < 16) : hexDigit n ≠ '\r' := by
  interval_cases n <;> decide

theorem not_mem_reprByte {quote : Char} (hquote : quote ≠ '\r') (b : UInt8) :
    '\r' ∉ reprByte quote b := by
  have hb : b.toNat < 256 := b.toNat_lt
  unfold reprByte
  simp only
  split_ifs with hescaped htab hlf hcr hhex
  · rcases hescaped with hc | hc <;> simp [hc, hquote.symm]
  · simp
  · simp
  · simp
  · have hhigh := (hexDigit_ne (n := b.toNat / 16) (by omega)).symm
    have hlow := (hexDigit_ne (n := b.toNat % 16) (by omega)).symm
    simp [hhigh, hlow]
  · rw [List.mem_singleton]
    intro heq
    -- a byte below 32 is escaped
    have hnat : b.toNat = 13 := by
      have hvalid : b.toNat.isValidChar := .inl (by omega)
      have hchar := congrArg Char.toNat heq
      simpa [Char.ofNat, hvalid, Char.toNat, Char.ofNatAux] using hchar.symm
    exact hcr (UInt8.toNat_inj.mp hnat)

/-- Bytes are shown without a CR. -/
theorem not_mem_reprBytes (raw : Bytes) : '\r' ∉ reprBytes raw := by
  unfold reprBytes
  simp only
  have hquote : ∀ quote : Char, quote ≠ '\r' →
      '\r' ∉ ['b', quote] ++ raw.flatMap (reprByte quote) ++ [quote] := by
    intro quote hne
    simp only [List.mem_append, List.mem_cons, List.not_mem_nil, or_false, List.mem_flatMap, not_or,
      not_exists, not_and]
    exact ⟨⟨⟨by decide, hne.symm⟩, fun b _ => not_mem_reprByte hne b⟩, hne.symm⟩
  split_ifs
  · exact hquote _ (by decide)
  · exact hquote _ (by decide)

/-- The messages of the protocol errors of a reader have no CR. -/
def Legible {β : Type} (x : Reads β) : Prop :=
  ∀ s message rest, x s = .error (.protocolError message) rest → '\r' ∉ message

namespace Legible

variable {β γ : Type} {x : Reads β}

theorem bind {f : β → Reads γ} (hx : Legible x) (hf : ∀ b, Legible (f b)) : Legible (x >>= f) := by
  intro s message rest h
  rw [run_bind] at h
  cases hfirst : x s with
  | ok b s' =>
    rw [hfirst] at h
    exact hf b s' message rest h
  | error e s' =>
    rw [hfirst] at h
    obtain ⟨rfl, rfl⟩ := EStateM.Result.error.inj h
    exact hx s message s' hfirst

theorem pure (b : β) : Legible (Pure.pure b) := by
  intro s message rest h
  cases h

theorem readTimes (hx : Legible x) (n : ℕ) : Legible (Resp.readTimes x n) := by
  induction n with
  | zero => exact .pure []
  | succ n ih => exact hx.bind fun b => ih.bind fun l => .pure (b :: l)

theorem readExactly (n : ℤ) : Legible (Resp.readExactly n) := by
  intro s message rest h
  unfold Resp.readExactly at h
  split_ifs at h <;> cases h

theorem int (digits : Option ℕ) (raw : Bytes) : Legible (Resp.int digits raw) := by
  intro s message rest h
  unfold Resp.int at h
  cases hint : int? digits raw with
  | none => simp [hint] at h
  | some z => simp [hint] at h

theorem readLine (limit : Option ℕ) : Legible (Resp.readLine limit) := by
  intro s message rest h
  have hspec := readLine_spec limit s
  rw [h] at hspec
  cases hspec

theorem readArg (limits : Limits) : Legible (Resp.readArg limits) := by
  refine (readLine limits.line).bind fun header => ?_
  have hrest : Legible (do
      let length ← Resp.int limits.digits (header.drop 1)
      let data ← Resp.readExactly length
      let _ ← Resp.readExactly 2
      return data) :=
    (int _ _).bind fun length => (readExactly length).bind fun data =>
      (readExactly 2).bind fun _ => .pure data
  split_ifs
  · intro s message rest h
    obtain ⟨hmessage, -⟩ := EStateM.Result.error.inj h
    obtain rfl := StreamError.protocolError.inj hmessage
    simp [not_mem_reprBytes]
  · exact hrest

theorem orNone (hx : Legible x) : Legible fun s => Resp.orNone (x s) := by
  intro s message rest h
  simp only at h
  cases hresult : x s with
  | ok b s' => simp [hresult, Resp.orNone] at h
  | error e s' =>
    rw [hresult] at h
    cases e <;> cases h
    exact hx s message _ hresult

theorem readBody (limits : Limits) (line : Bytes) : Legible (Resp.readBody limits line) := by
  unfold Resp.readBody
  split_ifs
  · exact .pure _
  · cases int? limits.digits (line.drop 1) with
    | none =>
      intro s message rest h
      obtain ⟨hmessage, -⟩ := EStateM.Result.error.inj h
      obtain rfl := StreamError.protocolError.inj hmessage
      simp [not_mem_reprBytes]
    | some count =>
      simp only
      split_ifs
      · exact .pure _
      · exact ((readArg limits).readTimes _).orNone

theorem readCommand (limits : Limits) : Legible (Resp.readCommand limits) := by
  intro s message rest h
  rw [Resp.readCommand, nextLine_dropBlank] at h
  cases hline : Resp.orNone (Resp.readLine limits.line (dropBlank s)) with
  | ok line s' =>
    rw [hline] at h
    cases line with
    | none => cases h
    | some line => exact readBody limits line s' message rest h
  | error e s' =>
    rw [hline] at h
    obtain ⟨rfl, rfl⟩ := EStateM.Result.error.inj h
    exact (readLine limits.line).orNone _ message s' hline

end Legible

/-- The reply to a malformed request has no CRLF. -/
theorem plain_of_refuses {limits : Limits} {s : Bytes} (h : serveTurn limits s = .refuses reply) :
    reply.Plain := by
  unfold serveTurn at h
  split at h
  · next message rest hread =>
    obtain rfl := Turn.refuses.inj h
    refine .error (not_crlf_of_not_mem ?_)
    simp [Legible.readCommand limits s message rest hread]
  all_goals cases h

theorem Conversation.crlf_iff {commands : List (List Bytes)} (h : Conversation ext inClass commands replies) :
    (∀ reply ∈ replies, reply.Plain ∨ ∃ text, reply = .error text) ∧
      ((∀ text, .error text ∈ replies → ¬ ['\r', '\n'] <:+: text) ↔
        ∀ args ∈ commands, NoCrlf (args.headD [])) := by
  induction h with
  | idle => simp
  | refused hrefuses =>
    have hplain := plain_of_refuses hrefuses
    refine ⟨by simpa using .inl hplain, by simp, fun _ text htext => ?_⟩
    obtain rfl := List.mem_singleton.mp htext
    cases hplain with
    | error hno => exact hno
  | goesOn hanswers _ ih =>
    constructor
    · intro reply hreply
      rcases List.mem_append.mp hreply with hreply | hreply
      · exact hanswers.plain_or_error reply hreply
      · exact ih.1 reply hreply
    · rw [List.forall_mem_cons, ← hanswers.crlf_iff, ← ih.2]
      simp only [List.mem_append, or_imp, forall_and]
  | ends hanswers =>
    refine ⟨hanswers.plain_or_error, ?_⟩
    rw [List.forall_mem_singleton]
    exact hanswers.crlf_iff

/-- **Replies are framed exactly if no command name has a CRLF and every line fits.**  For
every conversation of a client that does not subscribe, on a database in any state, and
under any limits: the replies are written, and the client reads them back as they were sent,
in order and with nothing left over, if and only if no command that was dispatched has a
CRLF in its name and the lines of the replies are within the limits. -/
theorem replies_framed_iff (limits : Limits) {commands : List (List Bytes)}
    (h : Conversation ext inClass commands replies) :
    (∃ bytes, encodeAll limits.digits replies = .ok bytes ∧
        readTimes (readReply limits) replies.length bytes = .ok replies []) ↔
      (∀ args ∈ commands, NoCrlf (args.headD [])) ∧ ∀ reply ∈ replies, reply.Fits limits := by
  obtain ⟨hkinds, hcrlf⟩ := h.crlf_iff
  rw [read_back_iff hkinds, hcrlf]

/-- `ECHO` of a text with a CRLF, and an unknown command. -/
theorem replies_framed_iff_sample :
    Conversation textExt (fun _ _ => false) [[[69, 67, 72, 79], [13, 10]], [[65]]]
        [.str ['\r', '\n'], .error "ERR unknown command 'A'".toList] ∧
      ∃ bytes, encodeAll Limits.standard.digits
          [.str ['\r', '\n'], .error "ERR unknown command 'A'".toList] = .ok bytes ∧
        readTimes (readReply .standard) 2 bytes =
          .ok [.str ['\r', '\n'], .error "ERR unknown command 'A'".toList] [] := by
  have hecho : dispatch false [[69, 67, 72, 79], [13, 10]] = .send (.str ['\r', '\n']) true := rfl
  have hunknown : dispatch false [[65]] = .send (.error "ERR unknown command 'A'".toList) true := rfl
  have hsession : Conversation textExt (fun _ _ => false)
      [[[69, 67, 72, 79], [13, 10]], [[65]]]
      ([.str ['\r', '\n']] ++ ([.error "ERR unknown command 'A'".toList] ++ [])) :=
    .goesOn (.sends hecho) (.goesOn (.sends hunknown) .idle)
  refine ⟨hsession, (replies_framed_iff .standard hsession).mpr ⟨?_, ?_⟩⟩
  · simp only [List.forall_mem_cons]
    exact ⟨noCrlf_of_not_mem (by decide), noCrlf_of_not_mem (by decide), by simp⟩
  · rw [List.singleton_append, List.append_nil, List.forall_mem_cons, List.forall_mem_singleton]
    refine ⟨.str (Limits.number_standard (by decide)), .error ?_⟩
    rintro _ ⟨⟩
    decide

/-- A command whose name is `A`, CRLF, `+OK`: the client reads an error, and then a reply
that was never sent. -/
theorem unknown_command_splits_reply :
    ∃ text bytes, Conversation textExt (fun _ _ => false) [[[65, 13, 10, 43, 79, 75]]]
        [.error text] ∧
      encode Limits.standard.digits (.error text) = .ok bytes ∧
      readReply .standard bytes =
        .ok (.error "ERR unknown command 'A".toList) [43, 79, 75, 39, 13, 10] ∧
      readReply .standard [43, 79, 75, 39, 13, 10] = .ok (.simpleString ['O', 'K', '\'']) [] := by
  have hdispatch : dispatch false [[65, 13, 10, 43, 79, 75]] =
      .send (.error "ERR unknown command 'A\r\n+OK'".toList) true := rfl
  exact ⟨_, _, .goesOn (.sends hdispatch) .idle, rfl, rfl, rfl⟩

end Server
