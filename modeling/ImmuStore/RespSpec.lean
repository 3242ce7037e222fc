/-
# Requests and replies are read back

A line is what stands before the first CRLF, and a number is read back from its digits.
From these two facts the readers return what the encoders have written, take nothing from
what comes behind it, and find the end of a stream that was cut.
-/
import ImmuStore.Resp

namespace Resp

variable {x raw s rest cut : Bytes} {limit digits : Option ℕ} {n : ℕ} {b mark : UInt8} {z : ℤ}
    {text : Text}

/-! ## Lines -/

/-- There is no CRLF in the bytes. -/
def NoCrlf (x : Bytes) : Prop := ¬ crlf <:+: x

theorem NoCrlf.tail {a : UInt8} (h : NoCrlf (a :: x)) : NoCrlf x := fun hx =>
  h (List.infix_cons hx)

theorem noCrlf_of_not_mem (h : 13 ∉ x) : NoCrlf x := fun hx =>
  h (hx.subset (by simp [crlf]))

theorem splitCrlf_append (hx : NoCrlf x) (rest : Bytes) :
    splitCrlf (x ++ crlf ++ rest) = some (x, rest) := by
  induction x with
  | nil => simp [crlf, splitCrlf]
  | cons a x ih =>
    have hne : ¬ (a = 13 ∧ (x ++ crlf ++ rest).head? = some 10) := by
      rintro ⟨rfl, hhead⟩
      cases x with
      | nil => simp [crlf] at hhead
      | cons b x =>
        obtain rfl : b = 10 := by simpa using hhead
        exact hx ⟨[], x, rfl⟩
    have ih := ih hx.tail
    cases htail : x ++ crlf ++ rest with
    | nil => simp [crlf] at htail
    | cons b y =>
      rw [htail] at ih hne
      have hcond : ¬ (a = 13 ∧ b = 10) := by simpa using hne
      simp only [List.cons_append, htail, splitCrlf, if_neg hcond, ih]
      rfl

/-- A line ends at the first CRLF. -/
theorem splitCrlf_eq_some (h : splitCrlf s = some (x, rest)) :
    s = x ++ crlf ++ rest ∧ NoCrlf x := by
  induction s using splitCrlf.induct generalizing x with
  | case1 => cases h
  | case2 => cases h
  | case3 a b y hcond =>
    obtain ⟨rfl, rfl⟩ := hcond
    obtain ⟨rfl, rfl⟩ : [] = x ∧ y = rest := by simpa [splitCrlf] using h
    exact ⟨rfl, noCrlf_of_not_mem (by simp)⟩
  | case4 a b y hcond ih =>
    rw [splitCrlf, if_neg hcond, Option.map_eq_some_iff] at h
    obtain ⟨⟨line, rest'⟩, hsplit, hparts⟩ := h
    cases hparts
    obtain ⟨hy, hline⟩ := ih hsplit
    refine ⟨by simp [hy], fun hinner => ?_⟩
    rcases List.infix_cons_iff.mp hinner with hbegin | hinner
    · obtain ⟨hfirst, t, ht⟩ := by simpa [crlf, List.cons_prefix_iff] using hbegin
      subst hfirst ht
      simp only [List.cons_append, List.cons.injEq] at hy
      exact hcond ⟨rfl, hy.1⟩
    · exact hline hinner

theorem splitCrlf_eq_none : splitCrlf s = none ↔ NoCrlf s := by
  constructor
  · rintro h ⟨x, y, hxy⟩
    have hsome : ∀ x : Bytes, splitCrlf (x ++ crlf ++ y) ≠ none := by
      intro x
      induction x with
      | nil => simp [crlf, splitCrlf]
      | cons a x ih =>
        cases htail : x ++ crlf ++ y with
        | nil => simp [crlf] at htail
        | cons b z =>
          rw [htail] at ih
          simp only [List.cons_append, htail, splitCrlf]
          split_ifs
          · simp
          · simpa using ih
    exact hsome x (hxy ▸ h)
  · intro h
    cases hsplit : splitCrlf s with
    | none => rfl
    | some parts =>
      obtain ⟨line, rest⟩ := parts
      obtain ⟨rfl, -⟩ := splitCrlf_eq_some hsplit
      exact absurd ⟨line, rest, rfl⟩ h

/-- The bytes are within the limit. -/
def Fits (limit : Option ℕ) (x : Bytes) : Prop := ∀ n ∈ limit, x.length ≤ n

theorem all_iff_fits : limit.all (x.length ≤ ·) = true ↔ Fits limit x := by
  cases limit <;> simp [Fits]

theorem fits_none (x : Bytes) : Fits none x := by
  simp [Fits]

@[simp] theorem Limits.line_unbounded : Limits.unbounded.line = none := rfl

@[simp] theorem Limits.digits_unbounded : Limits.unbounded.digits = none := rfl

/-- A line within the limit is read, whatever comes behind it. -/
theorem readLine_of_fits (hx : NoCrlf x) (hfits : Fits limit x) (rest : Bytes) :
    readLine limit (x ++ crlf ++ rest) = .ok x rest := by
  rw [readLine, splitCrlf_append hx]
  exact if_pos (all_iff_fits.mpr hfits)

/-- A longer line is refused. -/
theorem readLine_of_not_fits (hx : NoCrlf x) (hfits : ¬ Fits limit x) (rest : Bytes) :
    readLine limit (x ++ crlf ++ rest) = .error .limitOverrunError (x ++ crlf ++ rest) := by
  rw [readLine, splitCrlf_append hx]
  exact if_neg (mt all_iff_fits.mp hfits)

theorem readExactly_natCast (n : ℕ) (s : Bytes) :
    readExactly n s = if n ≤ s.length then .ok (s.take n) (s.drop n)
      else .error .incompleteReadError [] := by
  rw [readExactly, if_neg (by omega), Int.toNat_natCast]

theorem readExactly_append (x rest : Bytes) :
    readExactly x.length (x ++ rest) = .ok x rest := by
  simp [readExactly_natCast]

/-! ## Numbers -/

theorem isDigit_ofNat {d : ℕ} (hd : d < 10) :
    isDigit (UInt8.ofNat (48 + d)) = true ∧ (UInt8.ofNat (48 + d)).toNat - 48 = d := by
  interval_cases d <;> decide

theorem isDigit_of_mem_decimal (hb : b ∈ decimal n) : isDigit b = true := by
  unfold decimal at hb
  split_ifs at hb
  · obtain rfl : b = 48 := by simpa using hb
    decide
  · obtain ⟨d, hd, rfl⟩ := List.mem_map.mp hb
    exact (isDigit_ofNat (Nat.digits_lt_base (by norm_num) (List.mem_reverse.mp hd))).1

theorem decimal_ne_nil (n : ℕ) : decimal n ≠ [] := by
  unfold decimal
  split_ifs with hn
  · simp
  · simpa [Nat.digits_eq_nil_iff_eq_zero] using hn

/-- Reading digits goes on from the number read before. -/
theorem unsigned_digits {digits : List ℕ} (h : ∀ d ∈ digits, d < 10) (digit : Bool) (n : ℕ)
    (hdigit : digits ≠ [] ∨ digit = true) :
    unsigned digit n (digits.map fun d => UInt8.ofNat (48 + d)) =
      some (digits.foldl (fun n d => 10 * n + d) n) := by
  induction digits generalizing digit n with
  | nil => simpa [unsigned] using hdigit
  | cons d digits ih =>
    obtain ⟨hisDigit, hvalue⟩ := isDigit_ofNat (h d (by simp))
    rw [List.map_cons, unsigned, hisDigit, if_pos rfl, hvalue, List.foldl_cons]
    exact ih (fun d hd => h d (by simp [hd])) true _ (.inr rfl)

/-- A number is read back from its digits. -/
theorem unsigned_decimal (n : ℕ) : unsigned false 0 (decimal n) = some n := by
  by_cases hn : n = 0
  · subst hn
    decide
  · have hdigits : ∀ d ∈ (Nat.digits 10 n).reverse, d < 10 := fun d hd =>
      Nat.digits_lt_base (by norm_num) (List.mem_reverse.mp hd)
    rw [decimal, if_neg hn, unsigned_digits hdigits false 0 (.inl (by simpa [Nat.digits_eq_nil_iff_eq_zero] using hn)),
      List.foldl_reverse, Option.some_inj]
    have hfold : (fun (d m : ℕ) => 10 * m + d) = fun d m => d + 10 * m := by
      funext d m
      exact Nat.add_comm _ _
    rw [hfold]
    simpa [Nat.ofDigits_eq_foldr] using Nat.ofDigits_digits 10 n

theorem isSpace_eq_false_of_isDigit (h : isDigit b = true) : isSpace b = false := by
  simp only [isDigit, Bool.and_eq_true, decide_eq_true_eq, UInt8.le_iff_toNat_le] at h
  simp only [isSpace, Bool.or_eq_false_iff, beq_eq_false_iff_ne, Bool.and_eq_false_iff,
    decide_eq_false_iff_not, UInt8.le_iff_toNat_le, ne_eq, ← UInt8.toNat_inj]
  have h48 : (48 : UInt8).toNat = 48 := rfl
  have h13 : (13 : UInt8).toNat = 13 := rfl
  have h32 : (32 : UInt8).toNat = 32 := rfl
  omega

/-- Bytes that begin and end without whitespace are not stripped. -/
theorem strip_eq_self (hfirst : ∀ b ∈ raw.head?, isSpace b = false)
    (hlast : ∀ b ∈ raw.getLast?, isSpace b = false) :
    (raw.dropWhile isSpace).rdropWhile isSpace = raw := by
  have hdrop : raw.dropWhile isSpace = raw := by
    cases raw with
    | nil => rfl
    | cons b raw => simp [hfirst b rfl]
  rw [hdrop, List.rdropWhile_eq_self_iff]
  intro hne
  simp [hlast _ (List.getLast?_eq_some_getLast hne)]

theorem signed_digits (hdigits : ∀ b ∈ raw, isDigit b = true) :
    signed raw = (unsigned false 0 raw).map Int.ofNat := by
  unfold signed
  split
  · exact absurd (hdigits 45 (by simp)) (by decide)
  · exact absurd (hdigits 43 (by simp)) (by decide)
  · rfl

theorem isSpace_of_mem_decimal (hb : b ∈ decimal n) : isSpace b = false :=
  isSpace_eq_false_of_isDigit (isDigit_of_mem_decimal hb)

theorem countP_spell (z : ℤ) : (spell z).countP isDigit = (decimal z.natAbs).length := by
  have hdecimal : (decimal z.natAbs).countP isDigit = (decimal z.natAbs).length :=
    List.countP_eq_length.mpr fun b => isDigit_of_mem_decimal
  have hminus : isDigit 45 = false := by decide
  unfold spell
  split_ifs
  · rw [List.countP_cons_of_neg (by simp [hminus]), hdecimal]
  · exact hdecimal

theorem signed_spell (z : ℤ) : signed (spell z) = some z := by
  unfold spell
  split_ifs
  · rw [signed, unsigned_decimal, Option.map_some, Option.some_inj]
    omega
  · rw [signed_digits fun b => isDigit_of_mem_decimal, unsigned_decimal, Option.map_some,
      Option.some_inj]
    show (z.natAbs : ℤ) = z
    omega

theorem strip_spell (z : ℤ) : ((spell z).dropWhile isSpace).rdropWhile isSpace = spell z := by
  unfold spell
  split_ifs
  · refine strip_eq_self (fun b hb => ?_) fun b hb => ?_
    · obtain rfl : 45 = b := by simpa using hb
      decide
    · rw [List.getLast?_cons_of_ne_nil (decimal_ne_nil _)] at hb
      exact isSpace_of_mem_decimal (List.mem_of_mem_getLast? hb)
  · exact strip_eq_self (fun b hb => isSpace_of_mem_decimal (List.mem_of_mem_head? hb))
      fun b hb => isSpace_of_mem_decimal (List.mem_of_mem_getLast? hb)

/-- A number is read back if it has no more digits than the limit. -/
theorem int?_spell (h : Fits digits (decimal z.natAbs)) : int? digits (spell z) = some z := by
  rw [int?, countP_spell, if_pos (all_iff_fits.mpr h), strip_spell, signed_spell]

theorem int?_spell_eq_none (h : ¬ Fits digits (decimal z.natAbs)) :
    int? digits (spell z) = none := by
  rw [int?, countP_spell, if_neg (mt all_iff_fits.mp h)]

theorem spell_natCast (n : ℕ) : spell n = decimal n := if_neg (by omega)

theorem int?_decimal (n : ℕ) : int? none (decimal n) = some (n : ℤ) := by
  rw [← spell_natCast]
  exact int?_spell (fits_none _)

/-- A number that is read under a limit is the number without it. -/
theorem int?_unlimited (h : int? digits raw = some z) : int? none raw = some z := by
  unfold int? at h
  split_ifs at h
  exact h

theorem not_mem_spell : 13 ∉ spell z := by
  have hdecimal : 13 ∉ decimal z.natAbs := fun h => absurd (isDigit_of_mem_decimal h) (by decide)
  unfold spell
  split_ifs
  · simp [hdecimal]
  · exact hdecimal

/-! ## Reading several times -/

section Times

variable {β γ : Type} {x : Reads γ} {encodes : β → Bytes} {value : β → γ}

/-- What is written one by one is read one by one. -/
theorem readTimes_flatMap {l : List β}
    (h : ∀ b ∈ l, ∀ rest, x (encodes b ++ rest) = .ok (value b) rest) (rest : Bytes) :
    readTimes x l.length (l.flatMap encodes ++ rest) = .ok (l.map value) rest := by
  induction l with
  | nil => rfl
  | cons b l ih =>
    have ih := ih fun b hb => h b (by simp [hb])
    simp [readTimes, List.append_assoc, h b (by simp), ih]

theorem readTimes_concat {n : ℕ} {l : List γ} {b : γ} {s s' s'' : Bytes}
    (h : readTimes x n s = .ok l s') (hlast : x s' = .ok b s'') :
    readTimes x (n + 1) s = .ok (l ++ [b]) s'' := by
  induction n generalizing l s with
  | zero =>
    cases h
    simp [readTimes, hlast]
  | succ n ih =>
    rw [readTimes, run_bind] at h
    cases hfirst : x s with
    | error e t => simp [hfirst] at h
    | ok a t =>
      simp only [hfirst, run_bind] at h
      cases hrest : readTimes x n t with
      | error e t' => simp [hrest] at h
      | ok l' t' =>
        obtain ⟨rfl, rfl⟩ : a :: l' = l ∧ t' = s' := by simpa [hrest] using h
        rw [readTimes, run_bind, hfirst]
        simp [ih hrest]

/-- Where the reader of one item finds the end of the stream, so does the reader of
several. -/
theorem readTimes_cut {l : List β} {cut : Bytes}
    (h : ∀ b ∈ l, ∀ rest, x (encodes b ++ rest) = .ok (value b) rest)
    (hcut : ∀ b ∈ l, ∀ cut, cut <+: encodes b → cut ≠ encodes b →
      x cut = .error .incompleteReadError [])
    (hle : cut <+: l.flatMap encodes) (hne : cut ≠ l.flatMap encodes) :
    readTimes x l.length cut = .error .incompleteReadError [] := by
  induction l generalizing cut with
  | nil => exact absurd (by simpa using hle) hne
  | cons b l ih =>
    rw [List.length_cons, readTimes, run_bind]
    rw [List.flatMap_cons] at hle hne
    by_cases hfirst : encodes b <+: cut
    · -- the first item is whole, and the cut lies behind it
      obtain ⟨rest, rfl⟩ := hfirst
      rw [List.prefix_append_right_inj] at hle
      have ih := @ih rest (fun b hb => h b (by simp [hb]))
        (fun b hb => hcut b (by simp [hb])) hle fun heq => hne (by rw [heq])
      simp [h b (by simp), ih]
    · have hbegin : cut <+: encodes b :=
        (List.prefix_or_prefix_of_prefix hle (List.prefix_append _ _)).resolve_right hfirst
      have hne' : cut ≠ encodes b := fun heq => hfirst (heq ▸ List.prefix_refl _)
      rw [hcut b (by simp) cut hbegin hne']

end Times

/-! ## Requests -/

theorem noCrlf_of_not_mem_lf (h : 10 ∉ x) : NoCrlf x := fun hx =>
  h (hx.subset (by simp [crlf]))

/-- The line of a number, with a mark before it. -/
def numberLine (mark : UInt8) (n : ℕ) : Bytes := mark :: decimal n

theorem not_mem_numberLine (hmark : b ≠ mark) (hb : isDigit b = false) : b ∉ numberLine mark n := by
  simp only [numberLine, List.mem_cons, not_or]
  refine ⟨hmark, fun h => ?_⟩
  rw [isDigit_of_mem_decimal h] at hb
  cases hb

/-- The line of a number is cut before its end. -/
theorem readLine_cut (hmark : 10 ≠ mark) (hle : cut <+: numberLine mark n ++ crlf ++ rest)
    (hcut : ¬ numberLine mark n ++ crlf <+: cut) :
    readLine none cut = .error .incompleteReadError [] := by
  have hbegin : cut <+: numberLine mark n ++ crlf :=
    (List.prefix_or_prefix_of_prefix hle (List.prefix_append _ _)).resolve_right hcut
  have hshort : cut <+: numberLine mark n ++ [13] := by
    refine List.prefix_of_prefix_length_le hbegin ⟨[10], by simp [crlf]⟩ ?_
    have hne : cut.length ≠ (numberLine mark n ++ crlf).length := fun hlen =>
      hcut ((hbegin.eq_of_length hlen) ▸ List.prefix_refl _)
    have hlen := hbegin.length_le
    simp only [List.length_append, crlf, List.length_cons, List.length_nil] at *
    omega
  have hno : NoCrlf cut := by
    refine noCrlf_of_not_mem_lf fun hmem => ?_
    have := hshort.subset hmem
    rw [List.mem_append] at this
    rcases this with hline | hlast
    · exact not_mem_numberLine hmark (by decide) hline
    · simp at hlast
  rw [readLine, splitCrlf_eq_none.mpr hno]
  rfl

theorem encodeArg_eq (raw : Bytes) :
    encodeArg raw = numberLine 36 raw.length ++ crlf ++ (raw ++ crlf) := by
  simp [encodeArg, numberLine]

theorem encodeCommand_eq (args : List Bytes) :
    encodeCommand args = numberLine 42 args.length ++ crlf ++ args.flatMap encodeArg := by
  simp [encodeCommand, numberLine]

theorem noCrlf_numberLine (hmark : 13 ≠ mark) : NoCrlf (numberLine mark n) :=
  noCrlf_of_not_mem (not_mem_numberLine hmark (by decide))

/-- The header of an argument has been read. -/
theorem readArg_header (rest : Bytes) :
    readArg .unbounded (numberLine 36 n ++ crlf ++ rest) =
      (do let data ← readExactly n; let _ ← readExactly 2; return data : Reads Bytes) rest := by
  rw [readArg, run_bind, Limits.line_unbounded,
    readLine_of_fits (noCrlf_numberLine (by decide)) (fits_none _)]
  simp [numberLine, int, int?_decimal]

theorem readArg_encodeArg (raw rest : Bytes) : readArg .unbounded (encodeArg raw ++ rest) = .ok raw rest := by
  have hcrlf : readExactly 2 (crlf ++ rest) = .ok crlf rest := readExactly_append crlf rest
  rw [encodeArg_eq, List.append_assoc, readArg_header, List.append_assoc, run_bind,
    readExactly_append]
  simp [hcrlf]

/-- An argument that is cut is the end of the stream. -/
theorem readArg_cut (hle : cut <+: encodeArg raw) (hne : cut ≠ encodeArg raw) :
    readArg .unbounded cut = .error .incompleteReadError [] := by
  rw [encodeArg_eq] at hle hne
  by_cases hheader : numberLine 36 raw.length ++ crlf <+: cut
  · obtain ⟨rest, rfl⟩ := hheader
    rw [List.prefix_append_right_inj] at hle
    have hlen : rest.length < raw.length + 2 := by
      have hlt : rest.length ≠ (raw ++ crlf).length := fun hlen =>
        hne (by rw [hle.eq_of_length hlen])
      have := hle.length_le
      simp only [List.length_append, crlf, List.length_cons, List.length_nil] at hlt this
      omega
    rw [readArg_header, run_bind, readExactly_natCast]
    by_cases hdata : raw.length ≤ rest.length
    · have hshort : ¬ 2 ≤ (rest.drop raw.length).length := by
        rw [List.length_drop]
        omega
      have hend : readExactly 2 (rest.drop raw.length) = .error .incompleteReadError [] := by
        rw [show (2 : ℤ) = (2 : ℕ) from rfl, readExactly_natCast, if_neg hshort]
      rw [if_pos hdata]
      simp [hend]
    · rw [if_neg hdata]
  · rw [readArg, run_bind, Limits.line_unbounded, readLine_cut (by decide) hle hheader]

/-- A first line that is not blank. -/
theorem nextLine_eq {limits : Limits} (h : ∀ rest, s ≠ 13 :: 10 :: rest) :
    nextLine limits s = orNone (readLine limits.line s) := by
  rw [nextLine]
  exact fun rest hs => h rest hs

theorem readCommand_header (rest : Bytes) :
    readCommand .unbounded (numberLine 42 n ++ crlf ++ rest) =
      if n = 0 then .ok (some []) rest else readArgs .unbounded n rest := by
  have hnext : nextLine .unbounded (numberLine 42 n ++ crlf ++ rest) = .ok (some (numberLine 42 n)) rest := by
    rw [nextLine_eq (by simp [numberLine]), Limits.line_unbounded,
      readLine_of_fits (noCrlf_numberLine (by decide)) (fits_none _)]
    rfl
  rw [readCommand, hnext]
  simp only [readBody, numberLine, List.take_succ_cons, List.take_zero, ne_eq, not_true_eq_false,
    List.drop_succ_cons, List.drop_zero, Limits.digits_unbounded, int?_decimal, Int.toNat_natCast]
  by_cases hn : n = 0
  · simp [hn]
  · simp [hn]

/-- A command is read back, whatever comes behind it. -/
theorem readCommand_encodeCommand (args : List Bytes) (rest : Bytes) :
    readCommand .unbounded (encodeCommand args ++ rest) = .ok (some args) rest := by
  rw [encodeCommand_eq, List.append_assoc, readCommand_header]
  split_ifs with hargs
  · obtain rfl := List.length_eq_zero_iff.mp hargs
    rfl
  · have harg : ∀ raw ∈ args, ∀ rest, readArg .unbounded (encodeArg raw ++ rest) = .ok (id raw) rest :=
      fun raw _ => readArg_encodeArg raw
    rw [readArgs, readTimes_flatMap harg, List.map_id]
    rfl

/-- A command that is cut is the end of the stream. -/
theorem readCommand_cut {args : List Bytes} (hle : cut <+: encodeCommand args)
    (hne : cut ≠ encodeCommand args) : readCommand .unbounded cut = .ok none [] := by
  rw [encodeCommand_eq] at hle hne
  by_cases hheader : numberLine 42 args.length ++ crlf <+: cut
  · obtain ⟨rest, rfl⟩ := hheader
    rw [List.prefix_append_right_inj] at hle
    have hne' : rest ≠ args.flatMap encodeArg := fun heq => hne (by rw [heq])
    have hargs : args.length ≠ 0 := by
      intro hzero
      obtain rfl := List.length_eq_zero_iff.mp hzero
      exact hne' (by simpa using hle)
    have harg : ∀ raw ∈ args, ∀ rest, readArg .unbounded (encodeArg raw ++ rest) = .ok (id raw) rest :=
      fun raw _ => readArg_encodeArg raw
    rw [readCommand_header, if_neg hargs, readArgs,
      readTimes_cut harg (fun raw _ cut => readArg_cut) hle hne']
    rfl
  · have hfirst : ∀ rest, cut ≠ 13 :: 10 :: rest := by
      rintro rest rfl
      obtain ⟨t, ht⟩ := hle
      simp [numberLine] at ht
    rw [readCommand, nextLine_eq hfirst, Limits.line_unbounded, readLine_cut (by decide) hle hheader]
    rfl

/-- **Pipelined commands are read back.**  The commands written one behind the other are
returned in order, and then `None`; if the stream is cut inside a command, the commands
before it are returned, and then `None`. -/
theorem pipelined_commands_read_back (commands : List (List Bytes)) :
    readTimes (readCommand .unbounded) (commands.length + 1) (commands.flatMap encodeCommand) =
        .ok (commands.map some ++ [none]) [] ∧
      ∀ before args after cut, commands = before ++ args :: after → cut <+: encodeCommand args →
        cut ≠ encodeCommand args →
        readTimes (readCommand .unbounded) (before.length + 1) (before.flatMap encodeCommand ++ cut) =
          .ok (before.map some ++ [none]) [] := by
  have hcommand : ∀ l : List (List Bytes), ∀ args ∈ l, ∀ rest,
      readCommand .unbounded (encodeCommand args ++ rest) = .ok (some args) rest :=
    fun _ args _ => readCommand_encodeCommand args
  constructor
  · have hread := readTimes_flatMap (hcommand commands) []
    have hend : readCommand .unbounded [] = .ok none [] := rfl
    rw [List.append_nil] at hread
    exact readTimes_concat hread hend
  · intro before args after cut _ hle hne
    exact readTimes_concat (readTimes_flatMap (hcommand before) cut) (readCommand_cut hle hne)

/-! ## Text as bytes -/

/-- A code point is one byte of ASCII, or bytes that are not ASCII. -/
theorem utf8EncodeChar_cases (c : Char) :
    (c.toNat < 128 ∧ String.utf8EncodeChar c = [UInt8.ofNat c.toNat]) ∨
      128 ≤ c.toNat ∧ ∀ b ∈ String.utf8EncodeChar c, 128 ≤ b.toNat := by
  have hval : c.val.toNat = c.toNat := rfl
  unfold String.utf8EncodeChar
  simp only [hval]
  by_cases hascii : c.toNat ≤ 127
  · exact .inl ⟨by omega, if_pos hascii⟩
  · refine .inr ⟨by omega, ?_⟩
    rw [if_neg hascii]
    intro b hb
    split_ifs at hb <;> simp only [List.mem_cons, List.not_mem_nil, or_false] at hb
    · rcases hb with rfl | rfl <;> simp <;> omega
    · rcases hb with rfl | rfl | rfl <;> simp <;> omega
    · rcases hb with rfl | rfl | rfl | rfl <;> simp <;> omega

/-- Bytes without a CR before a stream do not begin a CRLF. -/
theorem pair_prefix_iff {γ : Type} {a b c : γ} {l : List γ} :
    [a, b] <+: c :: l ↔ c = a ∧ l.head? = some b := by
  rw [List.cons_prefix_cons, eq_comm]
  refine and_congr_right fun _ => ?_
  cases l with
  | nil => simp
  | cons d l => simp [List.cons_prefix_cons, eq_comm]

/-- A pair does not begin where its first element is not. -/
theorem pair_infix_append {γ : Type} {a b : γ} {x y : List γ} (hx : a ∉ x) :
    [a, b] <:+: x ++ y ↔ [a, b] <:+: y := by
  refine ⟨fun h => ?_, fun h => h.trans (List.suffix_append _ _).isInfix⟩
  induction x with
  | nil => exact h
  | cons c x ih =>
    simp only [List.mem_cons, not_or] at hx
    rw [List.cons_append, List.infix_cons_iff, pair_prefix_iff] at h
    rcases h with ⟨rfl, -⟩ | hinner
    · exact absurd rfl hx.1
    · exact ih hx.2 hinner

/-- The bytes of one character, or of none: one byte of ASCII, or bytes that are not. -/
def Chunk (c : Char) (chunk : Bytes) : Prop :=
  (c.toNat < 128 ∧ chunk = [UInt8.ofNat c.toNat]) ∨
    128 ≤ c.toNat ∧ chunk ≠ [] ∧ ∀ b ∈ chunk, 128 ≤ b.toNat

/-- A text and its bytes, character by character. -/
inductive Chunks : Text → Bytes → Prop
  | nil : Chunks [] []
  | cons {c : Char} {text : Text} {chunk rest : Bytes} : Chunk c chunk → Chunks text rest →
      Chunks (c :: text) (chunk ++ rest)

/-- An ASCII byte stands at the front of a text as at the front of its bytes. -/
theorem Chunk.head_iff {c : Char} {chunk : Bytes} (h : Chunk c chunk) (rest : Bytes) {a : Char}
    (ha : a.toNat < 128) : (chunk ++ rest).head? = some (UInt8.ofNat a.toNat) ↔ c = a := by
  rcases h with ⟨hascii, rfl⟩ | ⟨hnot, hne, hbytes⟩
  · rw [List.singleton_append, List.head?_cons, Option.some_inj, ← UInt8.toNat_inj,
      UInt8.toNat_ofNat', UInt8.toNat_ofNat', Nat.mod_eq_of_lt (by omega),
      Nat.mod_eq_of_lt (by omega), Char.toNat_inj]
  · obtain ⟨b, chunk, rfl⟩ := List.exists_cons_of_ne_nil hne
    have hb := hbytes b (by simp)
    have hca : c ≠ a := by
      rintro rfl
      omega
    have hba : b ≠ UInt8.ofNat a.toNat := by
      rintro rfl
      rw [UInt8.toNat_ofNat', Nat.mod_eq_of_lt (by omega)] at hb
      omega
    simp [hca, hba]

theorem Chunks.head_iff (h : Chunks text raw) : raw.head? = some 10 ↔ text.head? = some '\n' := by
  cases h with
  | nil => simp
  | cons hchunk _ =>
    rw [List.head?_cons, Option.some_inj]
    exact hchunk.head_iff _ (a := '\n') (by decide)

/-- There is a CRLF in the bytes of a text exactly if there is one in the text. -/
theorem Chunks.crlf_infix_iff (h : Chunks text raw) : crlf <:+: raw ↔ ['\r', '\n'] <:+: text := by
  induction h with
  | nil => simp [crlf]
  | @cons c text chunk rest hchunk hrest ih =>
    rw [List.infix_cons_iff]
    refine Iff.trans ?_ (or_congr_right ih)
    rcases hchunk with ⟨hascii, rfl⟩ | ⟨hnot, -, hbytes⟩
    · have hcr : UInt8.ofNat c.toNat = 13 ↔ c = '\r' := by
        have hascii' : Chunk c [UInt8.ofNat c.toNat] := .inl ⟨hascii, rfl⟩
        simpa using hascii'.head_iff rest (a := '\r') (by decide)
      rw [List.singleton_append, List.infix_cons_iff, crlf, pair_prefix_iff, pair_prefix_iff, hcr,
        hrest.head_iff]
    · have hcr : (13 : UInt8) ∉ chunk := fun h => absurd (hbytes 13 h) (by decide)
      have hne : ¬ ['\r', '\n'] <+: c :: text := by
        rw [pair_prefix_iff]
        rintro ⟨rfl, -⟩
        exact absurd hnot (by decide)
      rw [crlf, pair_infix_append hcr]
      simp [hne]

theorem chunk_utf8EncodeChar (c : Char) : Chunk c (String.utf8EncodeChar c) := by
  rcases utf8EncodeChar_cases c with h | ⟨hnot, hbytes⟩
  · exact .inl h
  · exact .inr ⟨hnot, String.utf8EncodeChar_ne_nil, hbytes⟩

theorem chunks_utf8Encode (text : Text) : Chunks text (utf8Encode text) := by
  induction text with
  | nil => exact .nil
  | cons c text ih => exact .cons (chunk_utf8EncodeChar c) ih

theorem crlf_infix_utf8Encode :
    crlf <:+: utf8Encode text ↔ ['\r', '\n'] <:+: text := (chunks_utf8Encode text).crlf_infix_iff

/-- Text that was decoded is encoded as it was. -/
theorem utf8Encode_of_decode (h : utf8Decode? raw = some text) : utf8Encode text = raw := by
  obtain ⟨chars, hchars, rfl⟩ := Option.map_eq_some_iff.mp h
  have hsome : raw.toByteArray.utf8Decode?.isSome = true := by rw [hchars]; rfl
  have hget := ByteArray.utf8Encode_get_utf8Decode? (h := hsome)
  have hencode : (utf8Encode chars.toList).toByteArray = raw.toByteArray := by
    rw [show (utf8Encode chars.toList).toByteArray = chars.toList.utf8Encode from rfl]
    simpa [hchars] using hget
  simpa using congrArg (fun b : ByteArray => b.data.toList) hencode

/-- Bytes that begin a character and do not complete it are not ASCII. -/
theorem not_ascii_of_matching {ranges : List (UInt8 × UInt8)} (h : ∀ r ∈ ranges, 128 ≤ r.1.toNat)
    (rest : Bytes) : ∀ b ∈ rest.take (matching ranges rest), 128 ≤ b.toNat := by
  induction ranges generalizing rest with
  | nil => simp [matching]
  | cons r ranges ih =>
    rw [List.forall_mem_cons] at h
    cases rest with
    | nil => simp
    | cons b rest =>
      rw [matching]
      split_ifs with hb
      · rw [List.take_succ_cons, List.forall_mem_cons]
        exact ⟨h.1.trans (UInt8.le_iff_toNat_le.mp hb.1), ih h.2 rest⟩
      · simp

theorem continuations_ge (b : UInt8) : ∀ r ∈ continuations b, 128 ≤ r.1.toNat := by
  unfold continuations
  split_ifs <;> simp

/-- An ASCII byte is a character. -/
theorem utf8DecodeChar?_of_ascii (hb : b.toNat < 128) (rest : Bytes) :
    (b :: rest).toByteArray.utf8DecodeChar? 0 = some (Char.ofNat b.toNat) := by
  have hvalid : b.toNat.isValidChar := .inl (by omega)
  have hnat : (Char.ofNat b.toNat).toNat = b.toNat := by
    simp [Char.ofNat, hvalid, Char.toNat, Char.ofNatAux]
  have hencode : String.utf8EncodeChar (Char.ofNat b.toNat) = [b] := by
    rcases utf8EncodeChar_cases (Char.ofNat b.toNat) with ⟨-, henc⟩ | ⟨hge, -⟩
    · rw [henc, hnat, UInt8.ofNat_toNat]
    · omega
  have happend : (b :: rest).toByteArray =
      (String.utf8EncodeChar (Char.ofNat b.toNat)).toByteArray ++ rest.toByteArray := by
    rw [hencode, ← List.toByteArray_append]
    rfl
  rw [happend]
  exact ByteArray.utf8DecodeChar?_utf8EncodeChar_append

theorem chunks_utf8Replace (h : raw.length ≤ n) : Chunks (utf8Replace n raw) raw := by
  induction n generalizing raw with
  | zero =>
    obtain rfl := List.length_eq_zero_iff.mp (Nat.le_zero.mp h)
    exact .nil
  | succ n ih =>
    cases raw with
    | nil => exact .nil
    | cons b rest =>
      rw [utf8Replace]
      cases hchar : (b :: rest).toByteArray.utf8DecodeChar? 0 with
      | some c =>
        obtain ⟨l, hl⟩ := ByteArray.exists_of_utf8DecodeChar?_eq_some hchar
        have hraw : b :: rest = String.utf8EncodeChar c ++ l.data.toList := by
          simpa using congrArg (fun b : ByteArray => b.data.toList) hl
        have hne : 0 < (String.utf8EncodeChar c).length := List.length_pos_iff.mpr String.utf8EncodeChar_ne_nil
        have hlen := congrArg List.length hraw
        rw [List.length_append] at hlen
        simp only [hraw, List.drop_left]
        exact .cons (chunk_utf8EncodeChar c) (ih (by omega))
      | none =>
        have hb : 128 ≤ b.toNat := by
          by_contra hlt
          rw [utf8DecodeChar?_of_ascii (by omega)] at hchar
          cases hchar
        set k := matching (continuations b) rest
        have hchunk : Chunk '\uFFFD' (b :: rest.take k) := by
          refine .inr ⟨by decide, by simp, ?_⟩
          rw [List.forall_mem_cons]
          exact ⟨hb, not_ascii_of_matching (continuations_ge b) rest⟩
        have hrest : Chunks (utf8Replace n (rest.drop k)) (rest.drop k) := by
          refine ih ?_
          rw [List.length_drop]
          simp only [List.length_cons] at h
          omega
        have happend := Chunks.cons hchunk hrest
        rwa [List.cons_append, List.take_append_drop] at happend

theorem utf8Decode?_utf8Encode (text : Text) : utf8Decode? (utf8Encode text) = some text := by
  rw [utf8Decode?, show (utf8Encode text).toByteArray = text.utf8Encode from rfl,
    List.utf8Decode?_utf8Encode]
  rfl

theorem utf8Encode_injective : Function.Injective utf8Encode := by
  intro text text' h
  have hdecode := utf8Decode?_utf8Encode text
  rw [h, utf8Decode?_utf8Encode] at hdecode
  exact (Option.some.inj hdecode).symm

theorem utf8Decode_utf8Encode (text : Text) (s : Bytes) :
    utf8Decode (utf8Encode text) s = .ok text s := by
  rw [utf8Decode, utf8Decode?_utf8Encode]
  rfl

/-! ## Replies -/

/-- A reply of the kinds that the readers know, with no CRLF in what is written as a
line. -/
inductive Reply.Plain : Reply → Prop
  | none : Plain .none
  | int (z : ℤ) : Plain (.int z)
  | str (text : Text) : Plain (.str text)
  | simpleString {text : Text} : ¬ ['\r', '\n'] <:+: text → Plain (.simpleString text)
  | error {text : Text} : ¬ ['\r', '\n'] <:+: text → Plain (.error text)
  | list {items : List Reply} : (∀ item ∈ items, Plain item) → Plain (.list items)

/-- The line of a number is within the limits, and so are its digits. -/
structure Limits.Number (limits : Limits) (z : ℤ) : Prop where
  line : Fits limits.line (58 :: spell z)
  digits : Fits limits.digits (decimal z.natAbs)

/-- The lines of a reply are within the limits. -/
inductive Reply.Fits (limits : Limits) : Reply → Prop
  | none : limits.Number (-1) → Fits limits .none
  | int {z : ℤ} : limits.Number z → Fits limits (.int z)
  | str {text : Text} : limits.Number (utf8Encode text).length → Fits limits (.str text)
  | simpleString {text : Text} : Resp.Fits limits.line (43 :: utf8Encode text) →
      Fits limits (.simpleString text)
  | error {text : Text} : Resp.Fits limits.line (45 :: utf8Encode text) → Fits limits (.error text)
  | list {items : List Reply} : limits.Number items.length → (∀ item ∈ items, Fits limits item) →
      Fits limits (.list items)

/-- What a reader gives for a value that was written: the value itself, and the stream
behind it, if `P` holds, and otherwise an exception. -/
inductive ReadsIf {β : Type} (P : Prop) (value : β) (rest : Bytes) :
    EStateM.Result StreamError Bytes β → Prop
  | returns : P → ReadsIf P value rest (.ok value rest)
  | raises {e : StreamError} {rest' : Bytes} : ¬ P → ReadsIf P value rest (.error e rest')

section Replies

variable {limits : Limits} {digits : Option ℕ}
variable {items : List Reply} {bytes x line : Bytes} {value : Reply}

theorem encodeAll_cons {item : Reply} (h : encodeAll digits (item :: items) = .ok bytes) :
    ∃ first rest, encode digits item = .ok first ∧ encodeAll digits items = .ok rest ∧
      bytes = first ++ rest := by
  rw [encodeAll] at h
  obtain ⟨first, hfirst, h⟩ := Except.bind_eq_ok.mp h
  obtain ⟨rest, hrest, h⟩ := Except.bind_eq_ok.mp h
  exact ⟨first, rest, hfirst, hrest, (Except.ok.inj h).symm⟩

theorem encode_list (h : encode digits (.list items) = .ok bytes) :
    ∃ rest, encodeAll digits items = .ok rest ∧ bytes = 42 :: decimal items.length ++ crlf ++ rest := by
  rw [encode] at h
  obtain ⟨rest, hrest, h⟩ := Except.bind_eq_ok.mp h
  exact ⟨rest, hrest, (Except.ok.inj h).symm⟩

theorem encode_int {z : ℤ} : encode digits (.int z) =
    if digits.all ((decimal z.natAbs).length ≤ ·) then .ok (58 :: spell z ++ crlf)
    else .error .valueError := by
  rw [encode, decimalInt]
  split_ifs <;> rfl

/-- Items are read back one by one, up to the first one that is not. -/
theorem readTimes_encodeAll {x : Reads Reply} {P : Reply → Prop} {n : ℕ}
    (h : ∀ item ∈ items, ∀ bytes, encode digits item = .ok bytes → bytes.length ≤ n → ∀ rest,
      ReadsIf (P item) item rest (x (bytes ++ rest))) (hencode : encodeAll digits items = .ok bytes)
    (hn : bytes.length ≤ n) (rest : Bytes) :
    ReadsIf (∀ item ∈ items, P item) items rest (readTimes x items.length (bytes ++ rest)) := by
  induction items generalizing bytes with
  | nil =>
    obtain rfl : [] = bytes := Except.ok.inj hencode
    exact .returns (by simp)
  | cons item items ih =>
    obtain ⟨first, others, hfirst, hothers, rfl⟩ := encodeAll_cons hencode
    rw [List.length_append] at hn
    rw [List.forall_mem_cons] at h ⊢
    have hitem := h.1 first hfirst (by omega) (others ++ rest)
    have hitems := ih h.2 hothers (by omega)
    rw [List.append_assoc, List.length_cons, readTimes, run_bind]
    generalize x (first ++ (others ++ rest)) = result at hitem
    cases hitem with
    | raises hnot => exact .raises fun hall => hnot hall.1
    | returns hP =>
      simp only [run_bind]
      generalize readTimes x items.length (others ++ rest) = result at hitems
      cases hitems with
      | raises hnot => exact .raises fun hall => hnot hall.2
      | returns hall => exact .returns ⟨hP, hall⟩

theorem encodeAll_eq_ok (h : ∀ item ∈ items, ∃ bytes, encode digits item = .ok bytes) :
    ∃ bytes, encodeAll digits items = .ok bytes := by
  induction items with
  | nil => exact ⟨[], rfl⟩
  | cons item items ih =>
    rw [List.forall_mem_cons] at h
    obtain ⟨first, hfirst⟩ := h.1
    obtain ⟨rest, hrest⟩ := ih h.2
    exact ⟨first ++ rest, by rw [encodeAll, hfirst, hrest]; rfl⟩

/-- A reply within the limits is written. -/
theorem Reply.Fits.encodes (h : value.Fits limits) :
    ∃ bytes, encode limits.digits value = .ok bytes := by
  induction h with
  | int hnumber => exact ⟨_, by rw [encode_int, if_pos (all_iff_fits.mpr hnumber.digits)]⟩
  | @list items hnumber _ ih =>
    obtain ⟨rest, hrest⟩ := encodeAll_eq_ok ih
    exact ⟨_, by rw [encode, hrest]; rfl⟩
  | _ => exact ⟨_, rfl⟩

theorem noCrlf_cons {mark : UInt8} (hmark : 13 ≠ mark) (hx : NoCrlf x) :
    NoCrlf (mark :: x) := fun h =>
  hx ((pair_infix_append (x := [mark]) (by simpa using hmark)).mp h)

theorem readReplyAux_of_fits (fuel : ℕ) (hline : NoCrlf line) (hfits : Fits limits.line line)
    (rest : Bytes) :
    readReplyAux limits (fuel + 1) (line ++ crlf ++ rest) =
      replyOfLine limits.digits (readReplyAux limits fuel) line rest := by
  rw [readReplyAux, run_bind, readLine_of_fits hline hfits]

theorem readReplyAux_of_not_fits (fuel : ℕ) (hline : NoCrlf line) (hfits : ¬ Fits limits.line line)
    (rest : Bytes) :
    readReplyAux limits (fuel + 1) (line ++ crlf ++ rest) =
      .error .limitOverrunError (line ++ crlf ++ rest) := by
  rw [readReplyAux, run_bind, readLine_of_not_fits hline hfits]

/-- A reply that is one line of text. -/
theorem readsIf_text (fuel : ℕ) {mark : UInt8} (hmark : 13 ≠ mark) {text : Text}
    (htext : ¬ ['\r', '\n'] <:+: text) {P : Prop}
    (hP : P ↔ Fits limits.line (mark :: utf8Encode text)) (rest : Bytes)
    (hvalue : replyOfLine limits.digits (readReplyAux limits fuel) (mark :: utf8Encode text) rest =
      .ok value rest) :
    ReadsIf P value rest (readReplyAux limits (fuel + 1) (mark :: utf8Encode text ++ crlf ++ rest)) := by
  have hline : NoCrlf (mark :: utf8Encode text) :=
    noCrlf_cons hmark fun h => htext (crlf_infix_utf8Encode.mp h)
  by_cases hfits : Fits limits.line (mark :: utf8Encode text)
  · rw [readReplyAux_of_fits fuel hline hfits, hvalue]
    exact .returns (hP.mpr hfits)
  · rw [readReplyAux_of_not_fits fuel hline hfits]
    exact .raises (mt hP.mp hfits)

/-- A reply that begins with the line of a number. -/
theorem readsIf_number (fuel : ℕ) (mark : UInt8) (hmark : 13 ≠ mark) {z : ℤ} {P Q : Prop}
    (hP : P ↔ limits.Number z ∧ Q) {rest : Bytes} {after : ℤ → Reads Reply}
    (hafter : ∀ raw, replyOfLine limits.digits (readReplyAux limits fuel) (mark :: raw) =
      int limits.digits raw >>= after)
    (hvalue : limits.Number z → ReadsIf Q value rest (after z (x ++ rest))) :
    ReadsIf P value rest (readReplyAux limits (fuel + 1) (mark :: spell z ++ crlf ++ (x ++ rest))) := by
  have hline : NoCrlf (mark :: spell z) := noCrlf_cons hmark (noCrlf_of_not_mem not_mem_spell)
  by_cases hfits : Fits limits.line (mark :: spell z)
  · rw [readReplyAux_of_fits fuel hline hfits, hafter, run_bind, int]
    by_cases hdigits : Fits limits.digits (decimal z.natAbs)
    · rw [int?_spell hdigits]
      have hQ := hvalue ⟨hfits, hdigits⟩
      simp only [run_pure]
      generalize after z (x ++ rest) = result at hQ
      cases hQ with
      | returns hQ => exact .returns (hP.mpr ⟨⟨hfits, hdigits⟩, hQ⟩)
      | raises hnot => exact .raises fun h => hnot (hP.mp h).2
    · rw [int?_spell_eq_none hdigits]
      exact .raises fun h => hdigits (hP.mp h).1.digits
  · rw [readReplyAux_of_not_fits fuel hline hfits]
    exact .raises fun h => hfits (hP.mp h).1.line

theorem readBulk_append (text : Text) (rest : Bytes) :
    readBulk (utf8Encode text).length (utf8Encode text ++ crlf ++ rest) = .ok (.str text) rest := by
  have hlen : ((utf8Encode text).length : ℤ) ≠ -1 := by omega
  have hcrlf : readExactly 2 (crlf ++ rest) = .ok crlf rest := readExactly_append crlf rest
  rw [readBulk, if_neg hlen, run_bind, List.append_assoc, readExactly_append]
  simp [hcrlf, utf8Decode_utf8Encode]

/-- A reply that was written is read back exactly if its lines are within the limits; the
fuel is enough for its arrays. -/
theorem readReplyAux_encode (h : value.Plain) (hencode : encode limits.digits value = .ok bytes)
    {fuel : ℕ} (hfuel : bytes.length ≤ fuel) (rest : Bytes) :
    ReadsIf (value.Fits limits) value rest (readReplyAux limits (fuel + 1) (bytes ++ rest)) := by
  induction h generalizing fuel bytes rest with
  | none =>
    cases hencode
    refine readsIf_number fuel 36 (z := -1) (x := []) (Q := True) (by decide) ?_ (fun _ => rfl)
      fun _ => .returns trivial
    exact ⟨fun h => by cases h; simpa, fun h => .none h.1⟩
  | int z =>
    rw [encode_int] at hencode
    split_ifs at hencode
    cases hencode
    refine readsIf_number fuel 58 (x := []) (Q := True) (by decide) ?_ (fun _ => rfl)
      fun _ => .returns trivial
    exact ⟨fun h => by cases h; simpa, fun h => .int h.1⟩
  | str text =>
    cases hencode
    rw [List.append_assoc, List.append_assoc, ← List.append_assoc (utf8Encode text),
      ← spell_natCast]
    refine readsIf_number fuel 36 (Q := True) (by decide) ?_ (fun _ => rfl) fun _ => ?_
    · exact ⟨fun h => by cases h; simpa, fun h => .str h.1⟩
    · rw [readBulk_append]
      exact .returns trivial
  | simpleString htext =>
    cases hencode
    refine readsIf_text fuel (by decide) htext ?_ rest (by simp [replyOfLine, utf8Decode_utf8Encode])
    exact ⟨fun h => by cases h; assumption, .simpleString⟩
  | error htext =>
    cases hencode
    refine readsIf_text fuel (by decide) htext ?_ rest (by simp [replyOfLine, utf8Decode_utf8Encode])
    exact ⟨fun h => by cases h; assumption, .error⟩
  | @list items _ ih =>
    obtain ⟨others, hothers, rfl⟩ := encode_list hencode
    have hne : (items.length : ℤ) ≠ -1 := by omega
    rw [List.append_assoc, ← spell_natCast]
    refine readsIf_number fuel 42 (Q := ∀ item ∈ items, item.Fits limits) (by decide) ?_
      (fun _ => rfl) fun _ => ?_
    · exact ⟨fun h => by cases h; exact ⟨‹_›, ‹_›⟩, fun h => .list h.1 h.2⟩
    · -- the line of the array leaves enough fuel for its items
      simp only [List.length_append, List.length_cons] at hfuel
      obtain ⟨fuel, rfl⟩ : ∃ n, fuel = n + 1 := ⟨fuel - 1, by omega⟩
      have hitems := readTimes_encodeAll (x := readReplyAux limits (fuel + 1))
        (fun item hitem bytes hbytes hlen rest => ih item hitem hbytes hlen rest) hothers
        (by omega) rest
      simp only [hne, if_false, Int.toNat_natCast, run_map]
      generalize readTimes _ _ _ = result at hitems
      cases hitems with
      | returns hall => exact .returns hall
      | raises hnot => exact .raises hnot

theorem readReply_encode (h : value.Plain) (hencode : encode limits.digits value = .ok bytes)
    (rest : Bytes) :
    ReadsIf (value.Fits limits) value rest (readReply limits (bytes ++ rest)) :=
  readReplyAux_encode h hencode (by simp) rest

end Replies

/-- **A reply is read back exactly if its lines are within the limits.**  Under any limits
on the lines of the reader and the digits of a number, and whatever comes behind it in the
stream: the value is written, and the reader returns it with its kind and leaves the
stream behind it, if and only if each line of the reply, and each number in it, is within
the limits. -/
theorem reply_read_back (limits : Limits) {value : Reply} (h : value.Plain) (rest : Bytes) :
    (∃ bytes, encode limits.digits value = .ok bytes ∧
      readReply limits (bytes ++ rest) = .ok value rest) ↔ value.Fits limits := by
  constructor
  · rintro ⟨bytes, hencode, hread⟩
    have hreads := readReply_encode h hencode rest
    rw [hread] at hreads
    cases hreads with
    | returns hfits => exact hfits
  · intro hfits
    obtain ⟨bytes, hencode⟩ := hfits.encodes
    refine ⟨bytes, hencode, ?_⟩
    have hreads := readReply_encode h hencode rest
    generalize readReply limits (bytes ++ rest) = result at hreads
    cases hreads with
    | returns => rfl
    | raises hnot => exact absurd hfits hnot

/-- A number of a few digits is within the standard limits. -/
theorem Limits.number_standard (h : (decimal z.natAbs).length ≤ 4300) :
    Limits.standard.Number z := by
  have hspell : (spell z).length ≤ (decimal z.natAbs).length + 1 := by
    unfold spell
    split_ifs <;> simp
  refine ⟨?_, ?_⟩
  · rintro _ ⟨⟩
    rw [List.length_cons]
    omega
  · rintro _ ⟨⟩
    exact h

theorem reply_read_back_sample :
    ∃ bytes, encode Limits.standard.digits
        (.list [.none, .int (-7), .str ['\r', '\n'], .list [.error ['E']]]) = .ok bytes ∧
      readReply .standard (bytes ++ [36, 13]) =
        .ok (.list [.none, .int (-7), .str ['\r', '\n'], .list [.error ['E']]]) [36, 13] := by
  refine (reply_read_back .standard (.list ?_) _).mpr (.list (Limits.number_standard (by decide)) ?_)
  · simp only [List.forall_mem_cons]
    refine ⟨.none, .int _, .str _, .list ?_, by simp⟩
    rw [List.forall_mem_singleton]
    exact .error (by decide)
  · simp only [List.forall_mem_cons]
    refine ⟨.none (Limits.number_standard (by decide)), .int (Limits.number_standard (by decide)),
      .str (Limits.number_standard (by decide)), .list (Limits.number_standard (by decide)) ?_, by simp⟩
    rw [List.forall_mem_singleton]
    refine .error ?_
    rintro _ ⟨⟩
    decide

/-- **A line beyond the limit of the reader is not read.**  A simple string of 65537
characters is written, and the client raises `LimitOverrunError`. -/
theorem long_line_not_read_back :
    (Reply.simpleString (.replicate 65537 'a')).Plain ∧
      ∃ bytes, encode Limits.standard.digits (.simpleString (.replicate 65537 'a')) = .ok bytes ∧
        readReply .standard bytes = .error .limitOverrunError bytes := by
  obtain ⟨n, hn⟩ : ∃ n, n = 65537 := ⟨_, rfl⟩
  rw [← hn]
  have hraw : utf8Encode (.replicate n 'a') = .replicate n 97 := by
    simp [utf8Encode, List.flatMap_replicate, show String.utf8EncodeChar 'a' = [97] by decide]
  have hplain : ¬ ['\r', '\n'] <:+: List.replicate n 'a' := fun h => by
    have hmem := h.subset (List.mem_cons_self ..)
    exact absurd (List.eq_of_mem_replicate hmem) (by decide)
  have hlong : ¬ Fits Limits.standard.line (43 :: utf8Encode (.replicate n 'a')) := by
    intro hfits
    have hlen := hfits 65536 rfl
    simp only [hraw, List.length_cons, List.length_replicate] at hlen
    omega
  have hline : NoCrlf (43 :: utf8Encode (.replicate n 'a')) :=
    noCrlf_cons (by decide) fun h => hplain (crlf_infix_utf8Encode.mp h)
  refine ⟨.simpleString hplain, _, rfl, ?_⟩
  have hread := readReplyAux_of_not_fits
    (43 :: utf8Encode (.replicate n 'a') ++ crlf).length hline hlong []
  rwa [List.append_nil] at hread

end Resp
