/-
# A pickle for keys that are texts

Instances of the parameters of the storage, for keys that are given by texts.  A number is
written as its digits in base 255 with a byte 255 behind them, and a key, as `pickle` writes
it, in UTF-8 behind the number of its bytes.  Records are read back, and are longer than the
keys in them by a few bytes for each key and address.
-/
import ImmuStore.BinaryDatabase
import ImmuStore.Interface
import ImmuStore.RespSpec

open Function Storage

/-! ## Dictionaries as bytes -/

variable {α : Type} {text : α → Text}
variable {n k : ℕ} {rest rest' : Bytes}

/-- The digits of a number, and a mark. -/
def tokenBytes (n : ℕ) : Bytes := (Nat.digits 255 n).map UInt8.ofNat ++ [255]

/-- The bytes of a text, behind their number. -/
def keyBytes (key : Text) : Bytes := tokenBytes (Resp.utf8Encode key).length ++ Resp.utf8Encode key

/-- The bytes of a dictionary. -/
def dictBytes (text : α → Text) : NodeDict α → Bytes
  | .bplus payload => tokenBytes 0 ++ (tokenBytes payload.leaf.toNat ++
      (tokenBytes payload.keys.length ++
        (payload.keys.flatMap (fun key => keyBytes (text key)) ++
          payload.addresses.flatMap tokenBytes)))
  | .binary payload => tokenBytes 1 ++ (tokenBytes payload.left ++ (tokenBytes payload.value ++
      (tokenBytes payload.right ++ (tokenBytes payload.length ++ keyBytes (text payload.key)))))

theorem tokenBytes_inj {n' : ℕ} (h : tokenBytes n ++ rest = tokenBytes n' ++ rest') :
    n = n' ∧ rest = rest' := by
  have hdigits : ∀ n, (255 : UInt8) ∉ (Nat.digits 255 n).map UInt8.ofNat := by
    intro n hmem
    obtain ⟨digit, hdigit, heq⟩ := List.mem_map.mp hmem
    have hlt : digit < 255 := Nat.digits_lt_base (by norm_num) hdigit
    have hnat := congrArg UInt8.toNat heq
    rw [UInt8.toNat_ofNat', Nat.mod_eq_of_lt (by omega : digit < 2 ^ 8)] at hnat
    simp at hnat
    omega
  simp only [tokenBytes, List.append_assoc, List.singleton_append] at h
  obtain ⟨hmap, hrest⟩ := eq_of_append_mark (hdigits n) (hdigits n') h
  refine ⟨?_, hrest⟩
  have hnat : ∀ n, ((Nat.digits 255 n).map UInt8.ofNat).map UInt8.toNat = Nat.digits 255 n := by
    intro n
    rw [List.map_map]
    conv_rhs => rw [← List.map_id (Nat.digits 255 n)]
    refine List.map_congr_left fun digit hdigit => ?_
    have hlt : digit < 255 := Nat.digits_lt_base (by norm_num) hdigit
    simp [Nat.mod_eq_of_lt (by omega : digit < 256)]
  rw [← Nat.ofDigits_digits 255 n, ← Nat.ofDigits_digits 255 n', ← hnat n, ← hnat n', hmap]

theorem flatMap_tokenBytes_inj {l l' : List ℕ} (h : l.flatMap tokenBytes = l'.flatMap tokenBytes) :
    l = l' := by
  have hne : ∀ n rest, tokenBytes n ++ rest ≠ [] := by simp [tokenBytes]
  induction l generalizing l' with
  | nil =>
    cases l' with
    | nil => rfl
    | cons n' l' => exact absurd h.symm (hne n' _)
  | cons n l ih =>
    cases l' with
    | nil => exact absurd h (hne n _)
    | cons n' l' =>
      obtain ⟨rfl, hrest⟩ := tokenBytes_inj h
      rw [ih hrest]

theorem keyBytes_inj {key key' : Text} (h : keyBytes key ++ rest = keyBytes key' ++ rest') :
    key = key' ∧ rest = rest' := by
  simp only [keyBytes, List.append_assoc] at h
  obtain ⟨hlength, h⟩ := tokenBytes_inj h
  obtain ⟨hkey, hrest⟩ := List.append_inj h hlength
  exact ⟨Resp.utf8Encode_injective hkey, hrest⟩

theorem flatMap_keyBytes_inj (htext : Injective text) {keys keys' : List α}
    (hlength : keys.length = keys'.length)
    (h : keys.flatMap (fun key => keyBytes (text key)) ++ rest =
      keys'.flatMap (fun key => keyBytes (text key)) ++ rest') :
    keys = keys' ∧ rest = rest' := by
  induction keys generalizing keys' with
  | nil =>
    obtain rfl : keys' = [] := List.length_eq_zero_iff.mp hlength.symm
    exact ⟨rfl, h⟩
  | cons key keys ih =>
    cases keys' with
    | nil => cases hlength
    | cons key' keys' =>
      simp only [List.flatMap_cons, List.append_assoc] at h
      obtain ⟨hkey, htail⟩ := keyBytes_inj h
      obtain rfl := htext hkey
      obtain ⟨rfl, rfl⟩ := ih (by simpa using hlength) htail
      exact ⟨rfl, rfl⟩

theorem dictBytes_injective (htext : Injective text) :
    Injective (dictBytes text) := by
  have hbool : Injective Bool.toNat := by decide
  intro d d' h
  cases d with
  | bplus payload =>
    obtain ⟨leaf, keys, addresses⟩ := payload
    cases d' with
    | bplus payload' =>
      obtain ⟨leaf', keys', addresses'⟩ := payload'
      simp only [dictBytes] at h
      obtain ⟨-, h⟩ := tokenBytes_inj h
      obtain ⟨hleaf, h⟩ := tokenBytes_inj h
      obtain ⟨hlength, h⟩ := tokenBytes_inj h
      obtain ⟨rfl, haddresses⟩ := flatMap_keyBytes_inj htext hlength h
      rw [hbool hleaf, flatMap_tokenBytes_inj haddresses]
    | binary _ => cases (tokenBytes_inj h).1
  | binary payload =>
    obtain ⟨left, key, value, right, length⟩ := payload
    cases d' with
    | bplus _ => cases (tokenBytes_inj h).1
    | binary payload' =>
      obtain ⟨left', key', value', right', length'⟩ := payload'
      simp only [dictBytes] at h
      obtain ⟨-, h⟩ := tokenBytes_inj h
      obtain ⟨hleft, h⟩ := tokenBytes_inj h
      obtain ⟨hvalue, h⟩ := tokenBytes_inj h
      obtain ⟨hright, h⟩ := tokenBytes_inj h
      obtain ⟨hlength, h⟩ := tokenBytes_inj h
      have happend : keyBytes (text key) ++ [] = keyBytes (text key') ++ [] := by rw [h]
      rw [hleft, hvalue, hright, hlength, htext (keyBytes_inj happend).1]

/-- `pickle` for keys that are given by texts. -/
noncomputable def pickleOf (text : α → Text) (htext : Injective text) : Pickle α where
  crc32 bytes := bytes.foldl (fun n b => 31 * n + b.toNat) 7
  dumps := dictBytes text
  loads record := open Classical in
    if h : ∃ d, dictBytes text d = record then .ok h.choose else .error .valueError
  loads_dumps d := by
    have hex : ∃ d', dictBytes text d' = dictBytes text d := ⟨d, rfl⟩
    rw [dif_pos hex, dictBytes_injective htext hex.choose_spec]

/-- The pickle for keys that are texts. -/
noncomputable def textPickle : Pickle Text := pickleOf id injective_id

/-- What the pages of such keys are written with. -/
noncomputable abbrev textExt : Externals Text := textPickle.ext

/-- Natural keys, as so many characters. -/
noncomputable def sampleExt : Externals ℕ :=
  (pickleOf (List.replicate · 'a') (List.replicate_left_injective 'a')).ext

/-- `BytesCodec`, for keys that are not empty. -/
def bytesCodec : Codec Text Bytes where
  validKey key := !key.isEmpty
  startsWith key pre := pre.isPrefixOf key
  encode := .ok
  decode := .ok

/-! ## The lengths of records -/

theorem length_tokenBytes_le (h : n < 255 ^ k) : (tokenBytes n).length ≤ k + 1 := by
  have := (Nat.digits_length_le_iff (b := 255) (k := k) (by norm_num) n).mpr h
  simpa [tokenBytes] using this

/-- A number of 64 bits takes at most ten bytes. -/
theorem length_tokenBytes_address (h : n < 256 ^ 8) : (tokenBytes n).length ≤ 10 :=
  length_tokenBytes_le (h.trans_le (by norm_num))

/-- A character takes one to four bytes. -/
theorem length_utf8Encode (key : Text) :
    key.length ≤ (Resp.utf8Encode key).length ∧ (Resp.utf8Encode key).length ≤ 4 * key.length := by
  induction key with
  | nil => simp [Resp.utf8Encode]
  | cons c key ih =>
    have hpos := c.utf8Size_pos
    have hle := c.utf8Size_le_four
    simp only [Resp.utf8Encode, List.flatMap_cons, List.length_append, String.length_utf8EncodeChar,
      List.length_cons] at ih ⊢
    omega

/-- The record of a binary node is hardly longer than its key. -/
theorem length_binary_record {key : Text} (hkey : (Resp.utf8Encode key).length < 256 ^ 8)
    {left value right length : ℕ} (hl : left < 256 ^ 8) (hv : value < 256 ^ 8)
    (hr : right < 256 ^ 8) (hlength : length < 256 ^ 8) :
    (textPickle.dumps (.binary ⟨left, key, value, right, length⟩)).length ≤
      (Resp.utf8Encode key).length + 60 := by
  have h0 := length_tokenBytes_address (n := 1) (by norm_num)
  have h1 := length_tokenBytes_address hl
  have h2 := length_tokenBytes_address hv
  have h3 := length_tokenBytes_address hr
  have h4 := length_tokenBytes_address hlength
  have h5 := length_tokenBytes_address hkey
  simp only [textPickle, pickleOf, dictBytes, id, keyBytes, List.length_append]
  omega

/-- The record of a leaf is longer than its keys together. -/
theorem length_leaf_record (leaf : Bool) (keys : List Text) (addresses : List ℕ) :
    (keys.map List.length).sum ≤ (textPickle.ext.dumps ⟨leaf, keys, addresses⟩).length := by
  have hkeys : (keys.map List.length).sum ≤ (keys.flatMap fun key => keyBytes (id key)).length := by
    rw [List.length_flatMap]
    refine List.sum_le_sum fun key _ => ?_
    have := (length_utf8Encode key).1
    simp only [keyBytes, id, List.length_append]
    omega
  simp only [Pickle.ext, textPickle, pickleOf, dictBytes, List.length_append]
  omega

theorem length_flatMap_le {β : Type} {l : List β} {bytes : β → Bytes}
    (h : ∀ b ∈ l, (bytes b).length ≤ k) : (l.flatMap bytes).length ≤ k * l.length := by
  induction l with
  | nil => simp
  | cons b l ih =>
    rw [List.forall_mem_cons] at h
    have hrest := ih h.2
    rw [List.flatMap_cons, List.length_append, List.length_cons, Nat.mul_add, Nat.mul_one]
    omega

/-- The record of a leaf of short keys is short. -/
theorem length_leaf_record_le (htext : Injective text) {keys : List α} {addresses : List ℕ}
    (hn : n < 256 ^ 7) (hkeys : ∀ key ∈ keys, (text key).length ≤ n)
    (hlength : keys.length < 256 ^ 8) (haddresses : ∀ a ∈ addresses, a < 256 ^ 8) :
    ((pickleOf text htext).ext.dumps ⟨true, keys, addresses⟩).length ≤
      30 + ((10 + 4 * n) * keys.length + 10 * addresses.length) := by
  have hkey : ∀ key ∈ keys, (keyBytes (text key)).length ≤ 10 + 4 * n := by
    intro key hkey
    have hutf8 := (length_utf8Encode (text key)).2
    have hle := hkeys key hkey
    have htoken := length_tokenBytes_address (n := (Resp.utf8Encode (text key)).length) (by omega)
    rw [keyBytes, List.length_append]
    omega
  have h0 := length_tokenBytes_address (n := 0) (by norm_num)
  have h1 := length_tokenBytes_address (n := 1) (by norm_num)
  have h2 := length_tokenBytes_address hlength
  have h3 := length_flatMap_le hkey
  have h4 : (addresses.flatMap tokenBytes).length ≤ 10 * addresses.length :=
    length_flatMap_le fun a ha => length_tokenBytes_address (haddresses a ha)
  simp only [Pickle.ext, pickleOf, dictBytes, Bool.toNat_true, List.length_append]
  omega
