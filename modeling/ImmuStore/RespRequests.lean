/-
# What the reader of requests accepts

`read_command` is given any bytes.  A length that `int` refuses, or a negative one, and a
line beyond the limit of the reader make it raise something else than `ProtocolError`;
and whatever two bytes stand behind the data of an argument are taken for its CRLF.
-/
import ImmuStore.RespSpec

namespace Resp

variable {limit : Option ℕ} {limits : Limits}
variable {x s digits rest y : Bytes} {args : List Bytes}
variable {n : ℕ}

/-! ## Lines of any stream -/

/-- The stream goes on for longer than the limit without a CRLF. -/
def Overlong (limit : Option ℕ) (s : Bytes) : Prop :=
  ∃ n ∈ limit, n + 2 ≤ s.length ∧ NoCrlf (s.take (n + 2))

theorem noCrlf_of_infix (hy : NoCrlf y) (hxy : x <:+: y) : NoCrlf x := fun h =>
  hy (h.trans hxy)

theorem readLine_of_overlong (h : Overlong limit s) :
    readLine limit s = .error .limitOverrunError s := by
  obtain ⟨n, hn, hlen, hno⟩ := h
  obtain rfl : limit = some n := hn
  rw [readLine]
  cases hsplit : splitCrlf s with
  | none =>
    have hlong : ¬ s.length ≤ n + 1 := by omega
    simp [hlong]
  | some parts =>
    obtain ⟨line, rest⟩ := parts
    obtain ⟨rfl, -⟩ := splitCrlf_eq_some hsplit
    have hlong : ¬ line.length ≤ n := by
      intro hle
      -- the CRLF would stand within the limit
      have hbegin : line ++ crlf <+: (line ++ crlf ++ rest).take (n + 2) := by
        rw [List.prefix_take_iff]
        exact ⟨List.prefix_append _ _, by simp [crlf]; omega⟩
      exact hno ((List.suffix_append line crlf).isInfix.trans hbegin.isInfix)
    simp [hlong]

/-- A CR behind a line does not make a CRLF with it. -/
theorem noCrlf_append_cr (hx : NoCrlf x) : NoCrlf (x ++ [13]) := by
  rintro ⟨a, b, hab⟩
  rcases List.eq_nil_or_concat b with rfl | ⟨b, last, rfl⟩
  · have hlast := congrArg List.getLast? hab
    simp [crlf] at hlast
  · rw [List.concat_eq_append, ← List.append_assoc] at hab
    obtain ⟨hx', -⟩ := List.append_inj' hab rfl
    exact hx ⟨a, b, hx'⟩

/-- What `readuntil` gives for any stream. -/
inductive LineOutcome (limit : Option ℕ) : Bytes → EStateM.Result StreamError Bytes Bytes → Prop
  | line {line rest : Bytes} : NoCrlf line → Fits limit line →
      LineOutcome limit (line ++ crlf ++ rest) (.ok line rest)
  | ends {s : Bytes} : NoCrlf s → LineOutcome limit s (.error .incompleteReadError [])
  | overlong {s : Bytes} : Overlong limit s → LineOutcome limit s (.error .limitOverrunError s)

theorem readLine_spec (limit : Option ℕ) (s : Bytes) : LineOutcome limit s (readLine limit s) := by
  rw [readLine]
  cases hsplit : splitCrlf s with
  | none =>
    have hno := splitCrlf_eq_none.mp hsplit
    simp only
    split_ifs with hlen
    · exact .ends hno
    · refine .overlong ?_
      cases limit with
      | none => simp at hlen
      | some n =>
        have hlong : n + 1 < s.length := by simpa using hlen
        exact ⟨n, rfl, by omega, noCrlf_of_infix hno (List.take_prefix _ _).isInfix⟩
  | some parts =>
    obtain ⟨line, rest⟩ := parts
    obtain ⟨rfl, hno⟩ := splitCrlf_eq_some hsplit
    simp only
    split_ifs with hlen
    · exact .line hno (all_iff_fits.mp hlen)
    · refine .overlong ?_
      cases limit with
      | none => simp at hlen
      | some n =>
        have hlong : n < line.length := by simpa using hlen
        refine ⟨n, rfl, by simp [crlf]; omega, ?_⟩
        -- at most the CR of the line's end is among these bytes
        have htake : (line ++ crlf ++ rest).take (n + 2) <+: line ++ [13] := by
          refine List.prefix_of_prefix_length_le (List.take_prefix _ _)
            ⟨10 :: rest, by simp [crlf]⟩ ?_
          simp only [List.length_take, List.length_append, List.length_singleton]
          omega
        refine noCrlf_of_infix ?_ htake.isInfix
        exact noCrlf_append_cr hno

/-! ## One argument -/

/-- A length line of digits `digits`, within the limit. -/
structure LengthLine (limits : Limits) (digits : Bytes) : Prop where
  noCrlf : NoCrlf (36 :: digits)
  fits : Fits limits.line (36 :: digits)

/-- The stream begins with a line that is beyond the limit, or with the mark of a length
and something that `int` refuses, or a negative number. -/
def BadHeader (limits : Limits) (s : Bytes) : Prop :=
  Overlong limits.line s ∨ ∃ digits rest, s = 36 :: digits ++ crlf ++ rest ∧ LengthLine limits digits ∧
    ∀ z, int? limits.digits digits = some z → z < 0

/-- What reading an argument gives for any stream. -/
inductive ArgOutcome (limits : Limits) : Bytes → EStateM.Result StreamError Bytes Bytes → Prop
  | returns {digits raw ending rest : Bytes} : LengthLine limits digits →
      int? limits.digits digits = some (raw.length : ℤ) → ending.length = 2 →
      ArgOutcome limits (36 :: digits ++ crlf ++ (raw ++ ending ++ rest)) (.ok raw rest)
  | refuses {s rest : Bytes} {message : Text} : ArgOutcome limits s (.error (.protocolError message) rest)
  | ends {s : Bytes} : ArgOutcome limits s (.error .incompleteReadError [])
  | escapes {s rest : Bytes} {e : StreamError} : BadHeader limits s →
      (∀ message, e ≠ .protocolError message) → e ≠ .incompleteReadError →
      ArgOutcome limits s (.error e rest)

/-- The header of an argument has been read. -/
theorem readArg_of_lengthLine (h : LengthLine limits digits) (rest : Bytes) :
    readArg limits (36 :: digits ++ crlf ++ rest) = match int? limits.digits digits with
      | none => .error .valueError rest
      | some z => (do let data ← readExactly z; let _ ← readExactly 2; return data : Reads Bytes)
          rest := by
  rw [readArg, run_bind, readLine_of_fits h.noCrlf h.fits]
  cases hint : int? limits.digits digits with
  | none => simp [int, hint]
  | some z => simp [int, hint]

theorem readArg_spec (limits : Limits) (s : Bytes) : ArgOutcome limits s (readArg limits s) := by
  have hspec := readLine_spec limits.line s
  generalize hread : readLine limits.line s = result at hspec
  cases hspec with
  | ends hno =>
    rw [readArg, run_bind, hread]
    exact .ends
  | overlong hlong =>
    rw [readArg, run_bind, hread]
    exact .escapes (.inl hlong) (by simp) (by simp)
  | @line line rest hno hfits =>
    by_cases hmark : line.take 1 = [36]
    · obtain ⟨digits, rfl⟩ : ∃ digits, line = 36 :: digits := by
        cases line with
        | nil => cases hmark
        | cons b digits =>
          obtain rfl : b = 36 := by simpa using hmark
          exact ⟨digits, rfl⟩
      have hline : LengthLine limits digits := ⟨hno, hfits⟩
      rw [readArg_of_lengthLine hline]
      cases hint : int? limits.digits digits with
      | none => exact .escapes (.inr ⟨digits, rest, rfl, hline, by simp [hint]⟩) (by simp) (by simp)
      | some z =>
        simp only [run_bind]
        by_cases hneg : z < 0
        · rw [readExactly, if_pos hneg]
          refine .escapes (.inr ⟨digits, rest, rfl, hline, ?_⟩) (by simp) (by simp)
          intro z' hz'
          obtain rfl : z = z' := by simpa [hint] using hz'
          exact hneg
        · obtain ⟨n, rfl⟩ : ∃ n : ℕ, z = n := ⟨z.toNat, by omega⟩
          rw [readExactly_natCast]
          split_ifs with hdata
          · have htwo : readExactly 2 (rest.drop n) = if 2 ≤ (rest.drop n).length
                then .ok ((rest.drop n).take 2) ((rest.drop n).drop 2)
                else .error .incompleteReadError [] := readExactly_natCast 2 _
            simp only [htwo]
            split_ifs with hending
            · have hrest : rest = rest.take n ++ (rest.drop n).take 2 ++ (rest.drop n).drop 2 := by
                rw [List.append_assoc, List.take_append_drop, List.take_append_drop]
              have hreturns : ArgOutcome limits
                  (36 :: digits ++ crlf ++ (rest.take n ++ (rest.drop n).take 2 ++ (rest.drop n).drop 2))
                  (.ok (rest.take n) ((rest.drop n).drop 2)) :=
                .returns hline (by rw [hint, List.length_take, Nat.min_eq_left hdata])
                  (by rw [List.length_take, Nat.min_eq_left hending])
              rw [← hrest] at hreturns
              exact hreturns
            · exact .ends
          · exact .ends
    · have hthrow : readArg limits (line ++ crlf ++ rest) =
          .error (.protocolError ("expected bulk string, got ".toList ++ reprBytes line)) rest := by
        rw [readArg, run_bind, hread]
        simp [hmark]
      rw [hthrow]
      exact .refuses

theorem readArg_escapes (h : BadHeader limits s) :
    ∃ e rest, readArg limits s = .error e rest ∧ (∀ message, e ≠ .protocolError message) ∧
      e ≠ .incompleteReadError := by
  rcases h with hlong | ⟨digits, rest, rfl, hline, hbad⟩
  · exact ⟨.limitOverrunError, s, by rw [readArg, run_bind, readLine_of_overlong hlong], by simp, by simp⟩
  · rw [readArg_of_lengthLine hline]
    cases hint : int? limits.digits digits with
    | none => exact ⟨.valueError, rest, rfl, by simp, by simp⟩
    | some z =>
      have hneg : z < 0 := hbad z hint
      exact ⟨.valueError, rest, by simp [readExactly, hneg], by simp, by simp⟩

theorem readArg_returns {raw ending : Bytes} (hline : LengthLine limits digits)
    (hint : int? limits.digits digits = some (raw.length : ℤ)) (hending : ending.length = 2)
    (rest : Bytes) :
    readArg limits (36 :: digits ++ crlf ++ (raw ++ ending ++ rest)) = .ok raw rest := by
  have htwo : readExactly 2 (ending ++ rest) = .ok ending rest := by
    rw [show (2 : ℤ) = (ending.length : ℤ) by rw [hending]; rfl]
    exact readExactly_append ending rest
  rw [readArg_of_lengthLine hline, hint, List.append_assoc]
  simp [readExactly_append, htwo]

/-! ## All arguments -/

/-- Among the next `n` arguments of the stream, one has a bad header. -/
inductive Stuck (limits : Limits) : ℕ → Bytes → Prop
  | here {n : ℕ} {s : Bytes} : BadHeader limits s → Stuck limits (n + 1) s
  | later {n : ℕ} {digits raw ending rest : Bytes} : LengthLine limits digits →
      int? limits.digits digits = some (raw.length : ℤ) → ending.length = 2 → Stuck limits n rest →
      Stuck limits (n + 1) (36 :: digits ++ crlf ++ (raw ++ ending ++ rest))

/-- The bytes of arguments, up to the spelling of their lengths and with any two bytes
behind their data that meet `Ending`. -/
inductive Spelled (Ending : Bytes → Prop) : List Bytes → Bytes → Prop
  | nil : Spelled Ending [] []
  | cons {args : List Bytes} {digits raw ending x : Bytes} : int? none digits = some (raw.length : ℤ) →
      NoCrlf digits → Ending ending → Spelled Ending args x →
      Spelled Ending (raw :: args) (36 :: digits ++ crlf ++ (raw ++ ending ++ x))

theorem LengthLine.noCrlf_digits (h : LengthLine limits digits) : NoCrlf digits :=
  h.noCrlf.tail

/-- Reading arguments raises something else than `ProtocolError` or the end of the stream
exactly if a header is bad. -/
theorem readTimes_escapes_iff :
    (∃ e rest, readTimes (readArg limits) n s = .error e rest ∧
        (∀ message, e ≠ .protocolError message) ∧ e ≠ .incompleteReadError) ↔ Stuck limits n s := by
  induction n generalizing s with
  | zero =>
    constructor
    · rintro ⟨e, rest, hread, -⟩
      cases hread
    · intro h
      cases h
  | succ n ih =>
    constructor
    · rintro ⟨e, rest, hread, he, he'⟩
      rw [readTimes, run_bind] at hread
      have hspec := readArg_spec limits s
      generalize hfirst : readArg limits s = result at hspec hread
      cases hspec with
      | @returns digits raw ending rest' hline hint hending =>
        refine .later hline hint hending (ih.mp ?_)
        cases hrest : readTimes (readArg limits) n rest' with
        | ok args t => simp [hrest] at hread
        | error e' t =>
          obtain ⟨rfl, rfl⟩ : e' = e ∧ t = rest := by simpa [hrest] using hread
          exact ⟨e', t, rfl, he, he'⟩
      | @refuses _ rest' message =>
        cases hread
        exact absurd rfl (he message)
      | ends =>
        cases hread
        exact absurd rfl he'
      | escapes hbad => exact .here hbad
    · intro h
      rw [readTimes]
      cases h with
      | here hbad =>
        obtain ⟨e, rest, hread, he, he'⟩ := readArg_escapes hbad
        exact ⟨e, rest, by rw [run_bind, hread], he, he'⟩
      | later hline hint hending hrest =>
        obtain ⟨e, rest, hread, he, he'⟩ := ih.mpr hrest
        refine ⟨e, rest, ?_, he, he'⟩
        rw [run_bind, readArg_returns hline hint hending]
        simp [hread]

/-- The bytes of the arguments that were read. -/
theorem readTimes_spelled (h : readTimes (readArg limits) n s = .ok args rest) :
    args.length = n ∧ ∃ x, s = x ++ rest ∧ Spelled (·.length = 2) args x := by
  induction n generalizing s args with
  | zero =>
    cases h
    exact ⟨rfl, [], rfl, .nil⟩
  | succ n ih =>
    rw [readTimes, run_bind] at h
    have hspec := readArg_spec limits s
    generalize hfirst : readArg limits s = result at hspec h
    cases hspec with
    | @returns digits raw ending rest' hline hint hending =>
      cases hrest : readTimes (readArg limits) n rest' with
      | error e t => simp [hrest] at h
      | ok args' t =>
        obtain ⟨rfl, rfl⟩ : raw :: args' = args ∧ t = rest := by simpa [hrest] using h
        obtain ⟨hlen, x, rfl, hx⟩ := ih hrest
        refine ⟨by simp [hlen], 36 :: digits ++ crlf ++ (raw ++ ending ++ x), by simp, ?_⟩
        exact .cons (int?_unlimited hint) hline.noCrlf_digits hending hx
    | refuses => cases h
    | ends => cases h
    | escapes => cases h

/-! ## Commands -/

/-- A stream behind its leading blank lines. -/
def dropBlank : Bytes → Bytes
  | 13 :: 10 :: rest => dropBlank rest
  | s => s

theorem nextLine_dropBlank (limits : Limits) (s : Bytes) :
    nextLine limits s = orNone (readLine limits.line (dropBlank s)) := by
  induction s using dropBlank.induct with
  | case1 rest ih =>
    rw [nextLine, dropBlank]
    exact ih
  | case2 s hs =>
    have hdrop : dropBlank s = s := by
      rw [dropBlank]
      exact fun rest heq => hs rest heq
    rw [nextLine_eq hs, hdrop]

/-- The stream behind a count line, within the limit, of that many arguments. -/
structure CountLine (limits : Limits) (s digits rest : Bytes) : Prop where
  eq : dropBlank s = 42 :: digits ++ crlf ++ rest
  noCrlf : NoCrlf (42 :: digits)
  fits : Fits limits.line (42 :: digits)

theorem CountLine.command_eq (h : CountLine limits s digits rest) :
    readCommand limits s = match int? limits.digits digits with
      | none => .error (.protocolError ("bad multibulk count: ".toList ++ reprBytes (42 :: digits))) rest
      | some count => if count ≤ 0 then .ok (some []) rest else readArgs limits count.toNat rest := by
  rw [readCommand, nextLine_dropBlank, h.eq, readLine_of_fits h.noCrlf h.fits]
  have hmark : ¬ (42 :: digits).take 1 ≠ [42] := by simp
  have hdigits : (42 :: digits).drop 1 = digits := rfl
  show readBody limits (42 :: digits) rest = _
  rw [readBody, if_neg hmark, hdigits]
  cases int? limits.digits digits with
  | none => rfl
  | some count =>
    simp only
    split_ifs
    · rfl
    · rfl

/-- A call returned, or raised `ProtocolError`. -/
def Reported {β : Type} : EStateM.Result StreamError Bytes β → Prop
  | .ok _ _ => True
  | .error e _ => ∃ message, e = .protocolError message

/-- The first line of the stream is beyond the limit, or one of the arguments that it
announces has a bad header. -/
def Escaping (limits : Limits) (s : Bytes) : Prop :=
  Overlong limits.line (dropBlank s) ∨ ∃ digits rest, CountLine limits s digits rest ∧
    ∃ count : ℕ, int? limits.digits digits = some (count : ℤ) ∧ Stuck limits count rest

theorem readArgs_reported_iff : Reported (readArgs limits n s) ↔ ¬ Stuck limits n s := by
  rw [← readTimes_escapes_iff, readArgs]
  cases readTimes (readArg limits) n s with
  | ok args rest => simp [Reported, orNone]
  | error e rest => cases e <;> simp [Reported, orNone]

theorem Escaping.not_reported (h : Escaping limits s) : ¬ Reported (readCommand limits s) := by
  rcases h with hlong | ⟨digits, rest, hline, count, hint, hstuck⟩
  · have hread : readCommand limits s = .error .limitOverrunError (dropBlank s) := by
      rw [readCommand, nextLine_dropBlank, readLine_of_overlong hlong]
      rfl
    simp [hread, Reported]
  · rw [hline.command_eq, hint]
    by_cases hzero : count = 0
    · rw [hzero] at hstuck
      cases hstuck
    · have hpos : ¬ (count : ℤ) ≤ 0 := by omega
      simp only [hpos, if_false, Int.toNat_natCast]
      exact fun hreported => readArgs_reported_iff.mp hreported hstuck

/-- `read_command` returns or raises `ProtocolError`, unless a line is beyond the limit or
a length is not one. -/
theorem readCommand_reported_iff (limits : Limits) (s : Bytes) :
    Reported (readCommand limits s) ↔ ¬ Escaping limits s := by
  refine ⟨fun hreported hescaping => hescaping.not_reported hreported, fun hnot => ?_⟩
  have hspec := readLine_spec limits.line (dropBlank s)
  generalize hs : dropBlank s = s' at hspec
  generalize hread : readLine limits.line s' = result at hspec
  cases hspec with
  | ends =>
    rw [readCommand, nextLine_dropBlank, hs, hread]
    trivial
  | overlong hlong => exact absurd (.inl (hs ▸ hlong)) hnot
  | @line line rest hno hfits =>
    by_cases hmark : line.take 1 = [42]
    · obtain ⟨digits, rfl⟩ : ∃ digits, line = 42 :: digits := by
        cases line with
        | nil => cases hmark
        | cons b digits =>
          obtain rfl : b = 42 := by simpa using hmark
          exact ⟨digits, rfl⟩
      have hline : CountLine limits s digits rest := ⟨hs, hno, hfits⟩
      rw [hline.command_eq]
      cases hint : int? limits.digits digits with
      | none => exact ⟨_, rfl⟩
      | some count =>
        simp only
        split_ifs
        · trivial
        · rw [readArgs_reported_iff]
          refine fun hstuck => hnot (.inr ⟨digits, rest, hline, count.toNat, ?_, hstuck⟩)
          rw [hint, Int.toNat_of_nonneg (by omega)]
    · have hinline : readCommand limits s = .ok (some (splitSpaces line)) rest := by
        rw [readCommand, nextLine_dropBlank, hs, hread]
        simp [orNone, readBody, hmark]
      rw [hinline]
      trivial

theorem readTimes_ends (h : readTimes (readArg limits) n s = .error .incompleteReadError rest) :
    rest = [] := by
  induction n generalizing s with
  | zero => cases h
  | succ n ih =>
    rw [readTimes, run_bind] at h
    have hspec := readArg_spec limits s
    generalize hfirst : readArg limits s = result at hspec h
    cases hspec with
    | @returns digits raw ending rest' hline hint hending =>
      cases hrest : readTimes (readArg limits) n rest' with
      | ok args t => simp [hrest] at h
      | error e t =>
        obtain ⟨rfl, rfl⟩ : e = .incompleteReadError ∧ t = rest := by simpa [hrest] using h
        exact ih hrest
    | refuses => cases h
    | ends => exact (EStateM.Result.error.inj h).2.symm
    | escapes _ _ hne => exact absurd (EStateM.Result.error.inj h).1 hne

/-- `None` is returned at the end of the stream only. -/
theorem readCommand_none (h : readCommand limits s = .ok none rest) : rest = [] := by
  have hspec := readLine_spec limits.line (dropBlank s)
  rw [readCommand, nextLine_dropBlank] at h
  generalize dropBlank s = s' at hspec h
  generalize hread : readLine limits.line s' = result at hspec h
  cases hspec with
  | ends => exact (EStateM.Result.ok.inj h).2.symm
  | overlong => cases h
  | @line line rest' hno hfits =>
    have hbody : readBody limits line rest' = .ok none rest := h
    unfold readBody at hbody
    split_ifs at hbody
    · cases hbody
    · cases hint : int? limits.digits (line.drop 1) with
      | none =>
        rw [hint] at hbody
        cases hbody
      | some count =>
        rw [hint] at hbody
        simp only at hbody
        split_ifs at hbody
        · cases hbody
        · rw [readArgs] at hbody
          cases hargs : readTimes (readArg limits) count.toNat rest' with
          | ok args t => simp [hargs, orNone] at hbody
          | error e t =>
            rw [hargs] at hbody
            cases e <;> cases hbody
            exact readTimes_ends hargs

/-! ## Accepted frames -/

/-- The bytes are a count line and the arguments, each of them a length line, its data and
CRLF: what `encode_command` writes, up to the spelling of the numbers. -/
def WellFormed (args : List Bytes) (x : Bytes) : Prop :=
  ∃ digits body, x = 42 :: digits ++ crlf ++ body ∧ NoCrlf digits ∧
    int? none digits = some (args.length : ℤ) ∧ Spelled (· = crlf) args body

/-- The data of each of the next `n` arguments, as long as its length line says, stands
before a CRLF. -/
inductive Terminated : ℕ → Bytes → Prop
  | zero {s : Bytes} : Terminated 0 s
  | succ {n : ℕ} {digits raw rest : Bytes} : int? none digits = some (raw.length : ℤ) → NoCrlf digits →
      Terminated n rest → Terminated (n + 1) (36 :: digits ++ crlf ++ (raw ++ crlf ++ rest))

theorem Spelled.terminated (h : Spelled (· = crlf) args x) (rest : Bytes) :
    Terminated args.length (x ++ rest) := by
  induction h with
  | nil => exact .zero
  | cons hint hdigits hending _ ih =>
    subst hending
    have hsucc := Terminated.succ hint hdigits ih
    simpa using hsucc

/-- A line is found in one way only. -/
theorem line_unique {a : UInt8} {x' y' : Bytes} (hx : NoCrlf x) (hx' : NoCrlf x')
    (h : a :: x ++ crlf ++ y = a :: x' ++ crlf ++ y') : x = x' ∧ y = y' := by
  have htail : x ++ crlf ++ y = x' ++ crlf ++ y' := by simpa using h
  have hsplit := splitCrlf_append hx y
  rw [htail, splitCrlf_append hx'] at hsplit
  cases Option.some.inj hsplit
  exact ⟨rfl, rfl⟩

theorem Spelled.of_terminated (h : Spelled (·.length = 2) args x)
    (hterm : Terminated args.length (x ++ rest)) :
    Spelled (· = crlf) args x := by
  induction h with
  | nil => exact .nil
  | @cons args digits raw ending x hint hdigits hending _ ih =>
    generalize hs : 36 :: digits ++ crlf ++ (raw ++ ending ++ x) ++ rest = s at hterm
    generalize hn : (raw :: args).length = n at hterm
    cases hterm with
    | zero => cases hn
    | @succ n digits' raw' rest' hint' hdigits' hterm =>
      rw [List.append_assoc] at hs
      obtain ⟨rfl, hbody⟩ := line_unique hdigits hdigits' hs
      have hlen : raw.length = raw'.length := by
        have := hint.symm.trans hint'
        simpa using this
      simp only [List.append_assoc] at hbody
      obtain ⟨rfl, hending'⟩ := List.append_inj hbody hlen
      obtain ⟨rfl, rfl⟩ := List.append_inj hending' (by rw [hending]; rfl)
      obtain rfl : args.length = n := by simpa using hn
      exact .cons hint hdigits rfl (ih hterm)

/-- What was consumed for arguments that were returned. -/
theorem CountLine.of_returns (hstar : (dropBlank s).head? = some 42)
    (hread : readCommand limits s = .ok (some args) rest) (hne : args ≠ []) :
    ∃ digits x, CountLine limits s digits (x ++ rest) ∧ int? none digits = some (args.length : ℤ) ∧
      Spelled (·.length = 2) args x := by
  have hspec := readLine_spec limits.line (dropBlank s)
  generalize hs : dropBlank s = s' at hspec hstar
  generalize hline : readLine limits.line s' = result at hspec
  cases hspec with
  | ends =>
    rw [readCommand, nextLine_dropBlank, hs, hline] at hread
    cases hread
  | overlong =>
    rw [readCommand, nextLine_dropBlank, hs, hline] at hread
    cases hread
  | @line line body hno hfits =>
    obtain ⟨digits, rfl⟩ : ∃ digits, line = 42 :: digits := by
      cases line with
      | nil => simp [crlf] at hstar
      | cons b digits =>
        obtain rfl : b = 42 := by simpa using hstar
        exact ⟨digits, rfl⟩
    have hcount : CountLine limits s digits body := ⟨hs, hno, hfits⟩
    rw [hcount.command_eq] at hread
    cases hint : int? limits.digits digits with
    | none =>
      rw [hint] at hread
      cases hread
    | some count =>
      simp only [hint] at hread
      split_ifs at hread
      · obtain ⟨heq, -⟩ := EStateM.Result.ok.inj hread
        exact absurd (Option.some.inj heq).symm hne
      · rw [readArgs] at hread
        cases htimes : readTimes (readArg limits) count.toNat body with
        | error e t =>
          rw [htimes] at hread
          cases e <;> cases hread
        | ok args' t =>
          obtain ⟨rfl, rfl⟩ : args' = args ∧ t = rest := by simpa [htimes, orNone] using hread
          obtain ⟨hlen, x, rfl, hx⟩ := readTimes_spelled htimes
          refine ⟨digits, x, hcount, ?_, hx⟩
          rw [int?_unlimited hint, hlen, Int.toNat_of_nonneg (by omega)]

/-- **A frame that is accepted is well formed exactly if its data stand before CRLFs.**
For a stream whose first line that is not blank begins with `*`, and from which
`read_command` returns arguments: what it has consumed is their encoding, up to the
spelling of the numbers, if and only if CRLF follows the data of each of the arguments that
the count line announces. -/
theorem accepted_well_formed_iff (limits : Limits) {s rest : Bytes} {args : List Bytes}
    (hstar : (dropBlank s).head? = some 42) (hread : readCommand limits s = .ok (some args) rest)
    (hne : args ≠ []) :
    (∃ x, dropBlank s = x ++ rest ∧ WellFormed args x) ↔
      ∃ digits body, ∃ count : ℕ, dropBlank s = 42 :: digits ++ crlf ++ body ∧ NoCrlf digits ∧
        int? none digits = some (count : ℤ) ∧ Terminated count body := by
  constructor
  · rintro ⟨x, hs, digits, body, rfl, hdigits, hint, hspelled⟩
    exact ⟨digits, body ++ rest, args.length, by rw [hs, List.append_assoc], hdigits, hint,
      hspelled.terminated rest⟩
  · rintro ⟨digits, body, count, hs, hdigits, hcount, hterm⟩
    obtain ⟨digits', x, hline, hint, hx⟩ := CountLine.of_returns hstar hread hne
    have hdigits' : NoCrlf digits' := hline.noCrlf.tail
    obtain ⟨rfl, rfl⟩ := line_unique hdigits hdigits' (hs.symm.trans hline.eq)
    obtain rfl : args.length = count := by
      have := hint.symm.trans hcount
      simpa using this
    refine ⟨42 :: digits ++ crlf ++ x, by simp [hs], digits, x, rfl, hdigits, hint, ?_⟩
    exact hx.of_terminated hterm

theorem accepted_well_formed_iff_sample :
    readCommand .standard [42, 49, 13, 10, 36, 49, 13, 10, 65, 13, 10] = .ok (some [[65]]) [] ∧
      ∃ x, dropBlank [42, 49, 13, 10, 36, 49, 13, 10, 65, 13, 10] = x ++ [] ∧ WellFormed [[65]] x := by
  have hread : readCommand .standard [42, 49, 13, 10, 36, 49, 13, 10, 65, 13, 10] =
      .ok (some [[65]]) [] := rfl
  have hdigits : NoCrlf [49] := noCrlf_of_not_mem (by decide)
  have hterm : Terminated 1 (36 :: [49] ++ crlf ++ ([65] ++ crlf ++ [])) :=
    .succ (by decide) hdigits .zero
  exact ⟨hread, (accepted_well_formed_iff .standard rfl hread (by simp)).mpr
    ⟨[49], _, 1, rfl, hdigits, by decide, hterm⟩⟩

/-- **Any two bytes are taken for the CRLF of an argument.**  The data of the argument are
followed by two other bytes, which are consumed with it. -/
theorem accepts_frame_without_crlf :
    readCommand .standard [42, 49, 13, 10, 36, 49, 13, 10, 65, 88, 89] = .ok (some [[65]]) [] ∧
      ¬ ∃ x, dropBlank [42, 49, 13, 10, 36, 49, 13, 10, 65, 88, 89] = x ++ [] ∧ WellFormed [[65]] x := by
  refine ⟨rfl, ?_⟩
  rintro ⟨x, hx, digits, body, rfl, -, -, hspelled⟩
  -- the encoding ends with LF, and the stream with another byte
  cases hspelled with
  | cons _ _ hending hrest =>
    cases hrest
    subst hending
    have hlast := congrArg List.getLast? hx
    simp [dropBlank, crlf, List.getLast?_cons, List.getLast?_append] at hlast

end Resp
