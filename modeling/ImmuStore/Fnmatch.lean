/-
# Shell patterns (`fnmatch.fnmatchcase`)

A pattern is a list of tokens: `*` stands for any text, `?` for any character, `[…]` for the
characters of a class, and every other character for itself.
-/
import Mathlib

namespace Fnmatch

/-- What a pattern is made of. -/
inductive Token where
  | star
  | any
  | cls (content : List Char)
  | lit (c : Char)
  deriving DecidableEq, Repr

/-- The content of a class and what stands behind its `]`; a `]` at the beginning, also
behind `!`, belongs to the content. -/
def closeClass (rest : List Char) : Option (List Char × List Char) :=
  let opening := match rest with
    | '!' :: ']' :: _ => 2
    | '!' :: _ | ']' :: _ => 1
    | _ => 0
  let tail := rest.drop opening
  if ']' ∈ tail then
    some (rest.take opening ++ tail.takeWhile (· ≠ ']'), (tail.dropWhile (· ≠ ']')).tail)
  else none

/-- The tokens of a pattern; a `[` that is not closed stands for itself.  `fuel` is enough
if it is the length of the pattern. -/
def tokens : ℕ → List Char → List Token
  | fuel + 1, c :: rest =>
    if c = '*' then .star :: tokens fuel rest
    else if c = '?' then .any :: tokens fuel rest
    else if c = '[' then
      match closeClass rest with
      | some (content, rest) => .cls content :: tokens fuel rest
      | none => .lit c :: tokens fuel rest
    else .lit c :: tokens fuel rest
  | _, _ => []

variable (inClass : List Char → Char → Bool)
variable {pre : List Char}

/-- Whether a text is as the tokens say. -/
def matchTokens : List Token → List Char → Bool
  | [], text => text.isEmpty
  | .star :: rest, text => text.tails.any (matchTokens rest)
  | .any :: rest, _ :: text => matchTokens rest text
  | .cls content :: rest, c :: text => inClass content c && matchTokens rest text
  | .lit a :: rest, c :: text => a == c && matchTokens rest text
  | _ :: _, [] => false

/-- `fnmatchcase`, where `inClass` says which characters belong to a class. -/
def fnmatchcase (text pattern : List Char) : Bool :=
  matchTokens inClass (tokens pattern.length pattern) text

/-- `*` matches everything. -/
theorem matchTokens_star (text : List Char) : matchTokens inClass [.star] text = true := by
  rw [matchTokens, List.any_eq_true]
  exact ⟨[], (List.mem_tails _ _).mpr (List.nil_suffix ..), rfl⟩

theorem fnmatchcase_star (text : List Char) : fnmatchcase inClass text ['*'] = true :=
  matchTokens_star inClass text

/-- A character that stands for itself. -/
def Plain (c : Char) : Prop := c ≠ '*' ∧ c ≠ '?' ∧ c ≠ '['

theorem tokens_of_plain (h : ∀ c ∈ pre, Plain c) (rest : List Char) (fuel : ℕ) :
    tokens (pre.length + fuel) (pre ++ rest) = pre.map .lit ++ tokens fuel rest := by
  induction pre with
  | nil => simp
  | cons c pre ih =>
    rw [List.forall_mem_cons] at h
    obtain ⟨⟨hstar, hany, hcls⟩, hpre⟩ := h
    rw [List.length_cons, Nat.succ_add, List.cons_append, tokens, if_neg hstar, if_neg hany,
      if_neg hcls, ih hpre]
    rfl

theorem matchTokens_lit (pre text : List Char) (rest : List Token) :
    matchTokens inClass (pre.map .lit ++ rest) text = true ↔
      ∃ text', text = pre ++ text' ∧ matchTokens inClass rest text' = true := by
  induction pre generalizing text with
  | nil => simp
  | cons a pre ih =>
    cases text with
    | nil => simp [matchTokens]
    | cons c text =>
      rw [List.map_cons, List.cons_append, matchTokens, Bool.and_eq_true, beq_iff_eq, ih]
      constructor
      · rintro ⟨rfl, text', rfl, hrest⟩
        exact ⟨text', rfl, hrest⟩
      · rintro ⟨text', htext, hrest⟩
        cases htext
        exact ⟨rfl, text', rfl, hrest⟩

/-- A pattern of plain characters with a `*` behind them matches what begins with them. -/
theorem fnmatchcase_plain_star (h : ∀ c ∈ pre, Plain c) (text : List Char) :
    fnmatchcase inClass text (pre ++ ['*']) = pre.isPrefixOf text := by
  have htokens : tokens (pre ++ ['*']).length (pre ++ ['*']) = pre.map .lit ++ [.star] := by
    rw [List.length_append, tokens_of_plain h]
    rfl
  rw [fnmatchcase, htokens, Bool.eq_iff_iff, matchTokens_lit, List.isPrefixOf_iff_prefix]
  constructor
  · rintro ⟨text', rfl, -⟩
    exact List.prefix_append ..
  · rintro ⟨text', rfl⟩
    exact ⟨text', rfl, matchTokens_star inClass text'⟩

end Fnmatch
