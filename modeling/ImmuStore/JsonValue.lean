/-
# JSON values

The values that `json.loads` returns, with the Python operations on them that raise for a
value of the wrong kind.  `F` stands for the type of floating point numbers.  A dictionary
is the list of its entries; the values that Python can hold are those whose dictionaries
have no key twice (`IsJson`).
-/
import ImmuStore.Resp

inductive JsonValue (F : Type) where
  | null
  | bool (b : Bool)
  | int (n : ℤ)
  | float (x : F)
  | str (s : String)
  | list (items : List (JsonValue F))
  | dict (entries : List (String × JsonValue F))

namespace JsonValue

variable {F : Type}

mutual

/-- No dictionary in the value has a key twice. -/
def IsJson : JsonValue F → Prop
  | .list items => AllJson items
  | .dict entries => (entries.map Prod.fst).Nodup ∧ EntriesJson entries
  | _ => True

/-- `IsJson` for the items of a list. -/
def AllJson : List (JsonValue F) → Prop
  | [] => True
  | item :: items => IsJson item ∧ AllJson items

/-- `IsJson` for the values of a dictionary. -/
def EntriesJson : List (String × JsonValue F) → Prop
  | [] => True
  | (_, value) :: entries => IsJson value ∧ EntriesJson entries

end

/-- `value[key]` for a key that is a string. -/
def getItem (key : String) : JsonValue F → Except PyError (JsonValue F)
  | .dict entries =>
    match entries.lookup key with
    | some value => .ok value
    | none => .error .keyError
  | _ => .error .typeError

/-- `for item in value`. -/
def iter : JsonValue F → Except PyError (List (JsonValue F))
  | .list items => .ok items
  | .str s => .ok (s.toList.map fun c => .str (.singleton c))
  | .dict entries => .ok (entries.map fun e => .str e.1)
  | _ => .error .typeError

/-- `first, second = value`. -/
def unpackPair (value : JsonValue F) : Except PyError (JsonValue F × JsonValue F) := do
  match ← value.iter with
  | [first, second] => return (first, second)
  | _ => throw .valueError

theorem allJson_iff {items : List (JsonValue F)} : AllJson items ↔ ∀ item ∈ items, IsJson item := by
  induction items with
  | nil => simp [AllJson]
  | cons item items ih => simp [AllJson, ih]

end JsonValue

/-- `json.dumps` and `json.loads`. -/
structure JsonText (F : Type) where
  dumps : JsonValue F → Text
  loads : Text → Except PyError (JsonValue F)
  loads_dumps : ∀ value : JsonValue F, value.IsJson → loads (dumps value) = .ok value

/-! ## A text of values without floating point numbers

The text that `json.dumps` gives for a value of plain ASCII strings, with `gap` behind the
commas and colons.  In other strings a control character, a quote or a backslash is written
with its code, and every other character as it is, which is JSON as well.  The text of a
value is the text of no other value, also if something follows that is no digit. -/

namespace JsonValue

/-- A character in a string. -/
def escape (c : Char) : Text :=
  if c < ' ' ∨ c = '"' ∨ c = '\\' then
    ['\\', 'u', '0', '0', Resp.hexDigit (c.toNat / 16), Resp.hexDigit (c.toNat % 16)]
  else [c]

def writeString (s : String) : Text := '"' :: (s.toList.flatMap escape ++ ['"'])

def writeInt (z : ℤ) : Text :=
  if z < 0 then '-' :: Nat.toDigits 10 z.natAbs else Nat.toDigits 10 z.natAbs

mutual

def write (gap : Text) : JsonValue Empty → Text
  | .null => ['n', 'u', 'l', 'l']
  | .bool true => ['t', 'r', 'u', 'e']
  | .bool false => ['f', 'a', 'l', 's', 'e']
  | .int n => writeInt n
  | .str s => writeString s
  | .list items => '[' :: writeItems gap [] items
  | .dict entries => '{' :: writeEntries gap [] entries

/-- The items and the bracket behind them; `lead` separates the first one from what is
before it. -/
def writeItems (gap lead : Text) : List (JsonValue Empty) → Text
  | [] => [']']
  | item :: items => lead ++ (write gap item ++ writeItems gap (',' :: gap) items)

/-- The entries and the brace behind them. -/
def writeEntries (gap lead : Text) : List (String × JsonValue Empty) → Text
  | [] => ['}']
  | (key, value) :: entries => lead ++ (writeString key ++ (':' :: gap ++ write gap value) ++
      writeEntries gap (',' :: gap) entries)

end

variable {gap r r' : Text}
variable {c close : Char} {x y : JsonValue Empty}

/-! ### Strings -/

theorem toNat_lt_of_escaped (h : c < ' ' ∨ c = '"' ∨ c = '\\') : c.toNat < 256 := by
  rcases h with h | rfl | rfl
  · have hlt : c.toNat < 32 := h
    omega
  · decide
  · decide

theorem escape_append_inj {d : Char} (h : escape c ++ r = escape d ++ r') : c = d ∧ r = r' := by
  have hhex : ∀ a < 16, ∀ b < 16, Resp.hexDigit a = Resp.hexDigit b → a = b := by decide
  unfold escape at h
  split_ifs at h with hc hd hd
  · have hc := toNat_lt_of_escaped hc
    have hd := toNat_lt_of_escaped hd
    simp only [List.cons_append, List.nil_append, List.cons.injEq, true_and] at h
    obtain ⟨hhigh, hlow, hr⟩ := h
    have hhigh := hhex _ (by omega) _ (by omega) hhigh
    have hlow := hhex _ (by omega) _ (by omega) hlow
    exact ⟨Char.toNat_inj.mp (by omega), hr⟩
  · exact absurd (.inr (.inr (List.cons.inj h).1.symm)) hd
  · exact absurd (.inr (.inr (List.cons.inj h).1)) hc
  · simpa using h

theorem escape_ne_quote (c : Char) (t : Text) : escape c ++ r ≠ '"' :: t := by
  unfold escape
  split_ifs with hc
  · simp
  · exact fun h => hc (.inr (.inl (List.cons.inj h).1))

theorem writeString_append_inj {s s' : String} (h : writeString s ++ r = writeString s' ++ r') :
    s = s' ∧ r = r' := by
  have hchars : ∀ {cs cs' : Text}, cs.flatMap escape ++ '"' :: r = cs'.flatMap escape ++ '"' :: r' →
      cs = cs' ∧ r = r' := by
    intro cs
    induction cs with
    | nil =>
      intro cs' h
      cases cs' with
      | nil => exact ⟨rfl, (List.cons.inj h).2⟩
      | cons c' cs' => exact absurd h.symm (by simpa using escape_ne_quote c' r)
    | cons c cs ih =>
      intro cs' h
      cases cs' with
      | nil => exact absurd h (by simpa using escape_ne_quote c r')
      | cons c' cs' =>
        simp only [List.flatMap_cons, List.append_assoc] at h
        obtain ⟨rfl, htail⟩ := escape_append_inj h
        obtain ⟨rfl, hr⟩ := ih htail
        exact ⟨rfl, hr⟩
  simp only [writeString, List.cons_append, List.append_assoc, List.nil_append] at h
  obtain ⟨hs, hr⟩ := hchars (List.cons.inj h).2
  exact ⟨String.toList_inj.mp hs, hr⟩

/-! ### Numbers -/

/-- What follows does not go on with digits. -/
def Stops (r : Text) : Prop := ∀ c ∈ r.head?, c.isDigit = false

theorem digits_append_inj {x y : Text} (hx : ∀ c ∈ x, c.isDigit = true)
    (hy : ∀ c ∈ y, c.isDigit = true) (hr : Stops r) (hr' : Stops r') (h : x ++ r = y ++ r') :
    x = y ∧ r = r' := by
  induction x generalizing y with
  | nil =>
    cases y with
    | nil => exact ⟨rfl, h⟩
    | cons c y =>
      have := hr c (by simp [show r = _ from h])
      simp [hy c (by simp)] at this
  | cons c x ih =>
    cases y with
    | nil =>
      have := hr' c (by simp [← show _ = r' from h])
      simp [hx c (by simp)] at this
    | cons c' y =>
      obtain ⟨rfl, htail⟩ := List.cons.inj h
      obtain ⟨rfl, hr⟩ := ih (fun c hc => hx c (by simp [hc])) (fun c hc => hy c (by simp [hc])) htail
      exact ⟨rfl, hr⟩

theorem toDigits_append_inj {m n : ℕ} (hr : Stops r) (hr' : Stops r')
    (h : Nat.toDigits 10 m ++ r = Nat.toDigits 10 n ++ r') : m = n ∧ r = r' := by
  have hdigit : ∀ n, ∀ c ∈ Nat.toDigits 10 n, c.isDigit = true := fun n c =>
    Nat.isDigit_of_mem_toDigits (by decide) (by decide)
  obtain ⟨hdigits, htail⟩ := digits_append_inj (hdigit m) (hdigit n) hr hr' h
  refine ⟨?_, htail⟩
  rw [← Nat.ofDigitChars_ten_toDigits (n := m), hdigits, Nat.ofDigitChars_ten_toDigits]

/-- The first character of a number. -/
theorem exists_toDigits_eq (n : ℕ) : ∃ c t, Nat.toDigits 10 n = c :: t ∧ c.isDigit = true := by
  obtain ⟨c, t, h⟩ := List.exists_cons_of_ne_nil (Nat.toDigits_ne_nil (b := 10) (n := n))
  exact ⟨c, t, h, Nat.isDigit_of_mem_toDigits (b := 10) (n := n) (by decide) (by decide) (by simp [h])⟩

theorem writeInt_append_inj {m n : ℤ} (hr : Stops r) (hr' : Stops r')
    (h : writeInt m ++ r = writeInt n ++ r') : m = n ∧ r = r' := by
  obtain ⟨c, t, hm, hc⟩ := exists_toDigits_eq m.natAbs
  obtain ⟨c', t', hn, hc'⟩ := exists_toDigits_eq n.natAbs
  unfold writeInt at h
  split_ifs at h with hneg hneg' hneg'
  · obtain ⟨heq, htail⟩ := toDigits_append_inj hr hr' (List.cons.inj h).2
    exact ⟨by omega, htail⟩
  · rw [hn] at h
    rw [← (List.cons.inj h).1] at hc'
    exact absurd hc' (by decide)
  · rw [hm] at h
    rw [(List.cons.inj h).1] at hc
    exact absurd hc (by decide)
  · obtain ⟨heq, htail⟩ := toDigits_append_inj hr hr' h
    exact ⟨by omega, htail⟩

/-! ### Values -/

/-- Parts with commas between them, and a character behind them. -/
def joined {β : Type} (gap : Text) (part : β → Text) (close : Char) : Text → List β → Text
  | _, [] => [close]
  | lead, b :: l => lead ++ (part b ++ joined gap part close (',' :: gap) l)

theorem stops_joined {β : Type} {part : β → Text} (hclose : close.isDigit = false) (l : List β) :
    Stops (joined gap part close (',' :: gap) l ++ r) := by
  cases l with
  | nil =>
    rintro _ ⟨⟩
    exact hclose
  | cons b l =>
    rintro _ ⟨⟩
    decide

theorem not_mem_joined {β : Type} {part : β → Text} (hclose : c ≠ close) (hcomma : c ∉ ',' :: gap)
    {lead : Text} (hlead : c ∉ lead) {l : List β} (h : ∀ b ∈ l, c ∉ part b) :
    c ∉ joined gap part close lead l := by
  induction l generalizing lead with
  | nil => simpa [joined] using hclose
  | cons b l ih =>
    rw [List.forall_mem_cons] at h
    simp only [joined, List.mem_append, not_or]
    exact ⟨hlead, h.1, ih hcomma h.2⟩

theorem joined_append_inj {β : Type} {part : β → Text} {lead : Text} {l l' : List β}
    (hclose : close.isDigit = false) (hcomma : close ≠ ',')
    (hlead : ∀ b t t', lead ++ (part b ++ t) ≠ close :: t')
    (hpart : ∀ b ∈ l, ∀ b' r r', Stops r → Stops r' → part b ++ r = part b' ++ r' → b = b' ∧ r = r')
    (h : joined gap part close lead l ++ r = joined gap part close lead l' ++ r') :
    l = l' ∧ r = r' := by
  induction l generalizing lead l' with
  | nil =>
    cases l' with
    | nil => exact ⟨rfl, (List.cons.inj h).2⟩
    | cons b' l' => exact absurd h.symm (by simpa [joined] using hlead b' _ r)
  | cons b l ih =>
    cases l' with
    | nil => exact absurd h (by simpa [joined] using hlead b _ r')
    | cons b' l' =>
      simp only [joined, List.append_assoc, List.append_cancel_left_eq] at h
      rw [List.forall_mem_cons] at hpart
      obtain ⟨rfl, hrest⟩ := hpart.1 b' _ _ (stops_joined hclose l) (stops_joined hclose l') h
      obtain ⟨rfl, hr⟩ := ih (fun b t t' heq => hcomma (List.cons.inj heq).1.symm) hpart.2 hrest
      exact ⟨rfl, hr⟩

theorem writeItems_eq (gap lead : Text) (items : List (JsonValue Empty)) :
    writeItems gap lead items = joined gap (write gap) ']' lead items := by
  induction items generalizing lead with
  | nil => rfl
  | cons item items ih => rw [writeItems, ih, joined]

/-- An entry of a dictionary. -/
def writeEntry (gap : Text) (entry : String × JsonValue Empty) : Text :=
  writeString entry.1 ++ (':' :: gap ++ write gap entry.2)

theorem writeEntries_eq (gap lead : Text) (entries : List (String × JsonValue Empty)) :
    writeEntries gap lead entries = joined gap (writeEntry gap) '}' lead entries := by
  induction entries generalizing lead with
  | nil => rfl
  | cons entry entries ih => rw [writeEntries, ih, joined, writeEntry]

/-- Two values of one kind. -/
inductive SameKind : JsonValue Empty → JsonValue Empty → Prop
  | null : SameKind .null .null
  | bool (b b' : Bool) : SameKind (.bool b) (.bool b')
  | int (m n : ℤ) : SameKind (.int m) (.int n)
  | str (s s' : String) : SameKind (.str s) (.str s')
  | list (xs ys : List (JsonValue Empty)) : SameKind (.list xs) (.list ys)
  | dict (xs ys : List (String × JsonValue Empty)) : SameKind (.dict xs) (.dict ys)

/-- The kind of a value, as a number. -/
def kind : JsonValue Empty → ℕ
  | .null => 0
  | .bool _ => 1
  | .int _ => 2
  | .str _ => 3
  | .list _ => 4
  | .dict _ => 5

/-- The kind of the values whose texts begin with the character. -/
def kindOfChar (c : Char) : ℕ :=
  if c = 'n' then 0 else if c = 't' ∨ c = 'f' then 1 else if c.isDigit ∨ c = '-' then 2
  else if c = '"' then 3 else if c = '[' then 4 else if c = '{' then 5 else 6

theorem exists_write_eq (gap : Text) (value : JsonValue Empty) :
    ∃ c t, write gap value = c :: t ∧ kindOfChar c = value.kind := by
  have hdigit : ∀ c : Char, c.isDigit = true → kindOfChar c = 2 := by
    intro c hc
    have hne : ∀ d : Char, d.isDigit = false → c ≠ d := by
      rintro d hd rfl
      rw [hc] at hd
      cases hd
    simp [kindOfChar, hne 'n' (by decide), hne 't' (by decide), hne 'f' (by decide), hc]
  cases value with
  | null => exact ⟨'n', _, rfl, rfl⟩
  | bool b => cases b <;> exact ⟨_, _, rfl, rfl⟩
  | int z =>
    rw [write, writeInt]
    split_ifs
    · exact ⟨'-', _, rfl, rfl⟩
    · obtain ⟨c, t, h, hc⟩ := exists_toDigits_eq z.natAbs
      exact ⟨c, t, h, hdigit c hc⟩
  | float x => exact x.elim
  | str s => exact ⟨'"', _, rfl, rfl⟩
  | list items => exact ⟨'[', _, rfl, rfl⟩
  | dict entries => exact ⟨'{', _, rfl, rfl⟩

/-- The first character tells the kind. -/
theorem sameKind_of_append_eq (h : write gap x ++ r = write gap y ++ r') : SameKind x y := by
  obtain ⟨c, t, hx, hkind⟩ := exists_write_eq gap x
  obtain ⟨c', t', hy, hkind'⟩ := exists_write_eq gap y
  rw [hx, hy] at h
  rw [(List.cons.inj h).1, hkind'] at hkind
  rcases x with _ | _ | _ | z | _ | _ | _ <;> rcases y with _ | _ | _ | z' | _ | _ | _ <;>
    first
      | exact z.elim
      | exact z'.elim
      | constructor
      | cases hkind

theorem write_ne_close (x : JsonValue Empty) (t t' : Text) : write gap x ++ t ≠ ']' :: t' := by
  obtain ⟨c, s, hx, hkind⟩ := exists_write_eq gap x
  rw [hx]
  intro h
  rw [(List.cons.inj h).1, show kindOfChar ']' = 6 from rfl] at hkind
  cases x with
  | float z => exact z.elim
  | _ => cases hkind

/-- The text of a value is the text of no other value, whatever follows that is no digit. -/
theorem write_append_inj (hr : Stops r) (hr' : Stops r') (h : write gap x ++ r = write gap y ++ r')
    : x = y ∧ r = r' := by
  induction hn : sizeOf x using Nat.strong_induction_on generalizing x y r r' with
  | _ n ih =>
    subst hn
    cases sameKind_of_append_eq h with
    | null => exact ⟨rfl, List.append_cancel_left h⟩
    | bool b b' =>
      cases b <;> cases b'
      · exact ⟨rfl, List.append_cancel_left h⟩
      · exact absurd (List.cons.inj h).1 (by decide)
      · exact absurd (List.cons.inj h).1 (by decide)
      · exact ⟨rfl, List.append_cancel_left h⟩
    | int m n =>
      obtain ⟨rfl, htail⟩ := writeInt_append_inj hr hr' h
      exact ⟨rfl, htail⟩
    | str s s' =>
      obtain ⟨rfl, htail⟩ := writeString_append_inj h
      exact ⟨rfl, htail⟩
    | list xs ys =>
      simp only [write, writeItems_eq, List.cons_append, List.cons.injEq, true_and] at h
      have hsize : ∀ x ∈ xs, sizeOf x < sizeOf (list xs) := by
        intro x hx
        have := List.sizeOf_lt_of_mem hx
        simp only [list.sizeOf_spec]
        omega
      obtain ⟨rfl, htail⟩ := joined_append_inj (by decide) (by decide) write_ne_close
        (fun x hx y r r' hr hr' h => ih _ (hsize x hx) hr hr' h rfl) h
      exact ⟨rfl, htail⟩
    | dict xs ys =>
      simp only [write, writeEntries_eq, List.cons_append, List.cons.injEq, true_and] at h
      have hentry : ∀ x ∈ xs, ∀ y r r', Stops r → Stops r' →
          writeEntry gap x ++ r = writeEntry gap y ++ r' → x = y ∧ r = r' := by
        intro x hx y r r' hr hr' h
        have hsize : sizeOf x.2 < sizeOf (dict xs) := by
          have := List.sizeOf_lt_of_mem hx
          obtain ⟨key, value⟩ := x
          simp only [dict.sizeOf_spec, Prod.mk.sizeOf_spec] at this ⊢
          omega
        simp only [writeEntry, List.append_assoc] at h
        obtain ⟨hkey, h⟩ := writeString_append_inj h
        simp only [List.cons_append, List.cons.injEq, true_and, List.append_cancel_left_eq] at h
        obtain ⟨hvalue, htail⟩ := ih _ hsize hr hr' h rfl
        exact ⟨Prod.ext hkey hvalue, htail⟩
      obtain ⟨rfl, htail⟩ := joined_append_inj (by decide) (by decide)
        (by simp [writeEntry, writeString]) hentry h
      exact ⟨rfl, htail⟩

theorem write_injective (gap : Text) : Function.Injective (write gap) := by
  intro x y h
  have hstops : Stops [] := by simp [Stops]
  exact (write_append_inj hstops hstops (by rw [h])).1

end JsonValue

open Classical in
/-- The text of a value is read back by looking for the one value that has it. -/
noncomputable def sampleJsonText : JsonText Empty where
  dumps := JsonValue.write [' ']
  loads text := if h : ∃ value, JsonValue.write [' '] value = text then .ok h.choose
    else .error .valueError
  loads_dumps value _ := by
    have h : ∃ value', JsonValue.write [' '] value' = JsonValue.write [' '] value := ⟨value, rfl⟩
    rw [dif_pos h, JsonValue.write_injective _ h.choose_spec]
