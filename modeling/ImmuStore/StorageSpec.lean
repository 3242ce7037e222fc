/-
# What the storage reads back

A packed field unpacks to itself, a written slot is read back as the meta block it
holds, a written record as its payload; and both depend only on the bytes they lie on.
-/
import ImmuStore.Storage

/-! ## `struct` -/

@[simp] theorem length_packBE (width n : ℕ) : (packBE width n).length = width := by
  induction width generalizing n with
  | zero => rfl
  | succ width ih => simp [packBE, ih]

theorem unpackBE_concat (bytes : Bytes) (b : UInt8) :
    unpackBE (bytes ++ [b]) = unpackBE bytes * 256 + b.toNat := by
  simp [unpackBE, List.foldl_append]

theorem unpackBE_packBE {width n : ℕ} (h : n < 256 ^ width) : unpackBE (packBE width n) = n := by
  induction width generalizing n with
  | zero =>
    obtain rfl : n = 0 := by simpa using h
    rfl
  | succ width ih =>
    have hdiv : n / 256 < 256 ^ width := by
      rw [Nat.div_lt_iff_lt_mul (by norm_num)]
      rwa [pow_succ] at h
    have hbyte : (UInt8.ofNat n).toNat = n % 256 := by simp
    rw [packBE, unpackBE_concat, ih hdiv, hbyte]
    omega

theorem packUnsigned_ok {width : ℕ} {n : ℤ} {bytes : Bytes} (h : packUnsigned width n = .ok bytes) :
    bytes.length = width ∧ (unpackBE bytes : ℤ) = n := by
  unfold packUnsigned at h
  split_ifs at h with hn
  obtain rfl : packBE width n.toNat = bytes := by simpa using h
  exact ⟨length_packBE _ _, by rw [unpackBE_packBE hn.2, Int.toNat_of_nonneg hn.1]⟩

namespace Storage

variable {crc32 : Bytes → ℕ} {f g : File}
variable {m m' : Meta} {index L address width : ℕ} {payload block : Bytes}
variable {e : PyError} {d d' : Disk}

theorem unpackBE_crc (payload : Bytes) : unpackBE (packBE 4 (crc crc32 payload)) = crc crc32 payload :=
  unpackBE_packBE (by
    have : crc crc32 payload < 2 ^ 32 := Nat.mod_lt _ (by norm_num)
    norm_num at this ⊢
    exact this)

/-! ## Meta blocks -/

theorem field_append {A b C : Bytes} {offset : ℕ} (hA : A.length = offset) (hb : b.length = width) :
    field (A ++ (b ++ C)) offset width = unpackBE b := by
  subst hA hb
  simp [field]

/-- The fields of a packed body. -/
theorem metaBody_ok {body : Bytes} (h : metaBody m = .ok body) :
    body.length = metaBodyBytes ∧ body.take 4 = magic ∧ field body 4 4 = formatVersion ∧
      field body 8 8 = m.txnId ∧ field body 16 8 = m.rootAddress ∧
      (field body 24 8 : ℤ) = m.keyCount ∧ field body 32 8 = m.dataLength := by
  obtain ⟨txn, htxn, h⟩ := Except.bind_eq_ok.mp h
  obtain ⟨root, hroot, h⟩ := Except.bind_eq_ok.mp h
  obtain ⟨count, hcount, h⟩ := Except.bind_eq_ok.mp h
  obtain ⟨len, hlen, h⟩ := Except.bind_eq_ok.mp h
  obtain ⟨ltxn, vtxn⟩ := packUnsigned_ok htxn
  obtain ⟨lroot, vroot⟩ := packUnsigned_ok hroot
  obtain ⟨lcount, vcount⟩ := packUnsigned_ok hcount
  obtain ⟨llen, vlen⟩ := packUnsigned_ok hlen
  have hmagic : magic.length = 4 := rfl
  have hversion : (packBE 4 formatVersion).length = 4 := rfl
  obtain rfl : magic ++ packBE 4 formatVersion ++ txn ++ root ++ count ++ len = body := by
    simpa [pure, Except.pure] using h
  simp only [List.append_assoc]
  refine ⟨by simp [hmagic, ltxn, lroot, lcount, llen, metaBodyBytes], rfl, ?_, ?_, ?_, ?_, ?_⟩
  · rw [field_append hmagic hversion]
    rfl
  · rw [← List.append_assoc, field_append (by simp [hmagic]) ltxn]
    exact_mod_cast vtxn
  · rw [← List.append_assoc, ← List.append_assoc, field_append (by simp [hmagic, ltxn]) lroot]
    exact_mod_cast vroot
  · rw [← List.append_assoc, ← List.append_assoc, ← List.append_assoc,
      field_append (by simp [hmagic, ltxn, lroot]) lcount]
    exact vcount
  · have hlast : field (magic ++ packBE 4 formatVersion ++ txn ++ root ++ count ++ (len ++ [])) 32 8 =
        unpackBE len := field_append (by simp [hmagic, ltxn, lroot, lcount]) llen
    simp only [List.append_nil, List.append_assoc] at hlast
    rw [hlast]
    exact_mod_cast vlen

/-- The parts of a packed block. -/
theorem metaBlock_ok (h : metaBlock crc32 m = .ok block) :
    ∃ body padding, metaBody m = .ok body ∧ block = body ++ packBE 4 (crc crc32 body) ++ padding ∧
      block.length = metaSlotSize := by
  obtain ⟨body, hbody, h⟩ := Except.bind_eq_ok.mp h
  refine ⟨body, _, hbody, (by simpa [pure, Except.pure] using h.symm), ?_⟩
  have hlen : block = body ++ packBE 4 (crc crc32 body) ++
      List.replicate (metaSlotSize - (metaBodyBytes + metaCrcBytes)) 0 := by
    simpa [pure, Except.pure] using h.symm
  rw [hlen, List.length_append, List.length_append, List.length_replicate, length_packBE,
    (metaBody_ok hbody).1]
  rfl

theorem packUnsigned_fits {n : ℤ} {bytes : Bytes} (h : packUnsigned width n = .ok bytes) :
    0 ≤ n ∧ n.toNat < 256 ^ width := by
  unfold packUnsigned at h
  split_ifs at h with hfits
  exact hfits

theorem packUnsigned_error {n : ℤ} (h : packUnsigned width n = .error e) : e = .structError := by
  unfold packUnsigned at h
  split_ifs at h
  exact (Except.error.inj h).symm

theorem metaBlock_error (h : metaBlock crc32 m = .error e) : e = .structError := by
  rcases Except.bind_eq_error.mp h with h | ⟨_, -, h⟩
  · rcases Except.bind_eq_error.mp h with h | ⟨_, -, h⟩
    · exact packUnsigned_error h
    · rcases Except.bind_eq_error.mp h with h | ⟨_, -, h⟩
      · exact packUnsigned_error h
      · rcases Except.bind_eq_error.mp h with h | ⟨_, -, h⟩
        · exact packUnsigned_error h
        · rcases Except.bind_eq_error.mp h with h | ⟨_, -, h⟩
          · exact packUnsigned_error h
          · cases h
  · cases h

/-- The fields of a packed block fit into eight bytes. -/
theorem metaBlock_fits (h : metaBlock crc32 m = .ok block) :
    m.txnId < 256 ^ 8 ∧ m.rootAddress < 256 ^ 8 ∧
      (0 ≤ m.keyCount ∧ m.keyCount.toNat < 256 ^ 8) ∧ m.dataLength < 256 ^ 8 := by
  obtain ⟨body, -, hbody, -, -⟩ := metaBlock_ok h
  obtain ⟨txn, htxn, h⟩ := Except.bind_eq_ok.mp hbody
  obtain ⟨root, hroot, h⟩ := Except.bind_eq_ok.mp h
  obtain ⟨count, hcount, h⟩ := Except.bind_eq_ok.mp h
  obtain ⟨len, hlen, -⟩ := Except.bind_eq_ok.mp h
  have hnat : ∀ {n : ℕ} {bytes : Bytes}, packUnsigned 8 n = .ok bytes → n < 256 ^ 8 := by
    intro n bytes hn
    have := (packUnsigned_fits hn).2
    rwa [Int.toNat_natCast] at this
  exact ⟨hnat htxn, hnat hroot, packUnsigned_fits hcount, hnat hlen⟩

/-- A meta block whose fields fit into eight bytes can be packed. -/
theorem metaBlock_of_lt (htxn : m.txnId < 256 ^ 8) (hroot : m.rootAddress < 256 ^ 8)
    (hcount : 0 ≤ m.keyCount ∧ m.keyCount.toNat < 256 ^ 8) (hlen : m.dataLength < 256 ^ 8) :
    ∃ block, metaBlock crc32 m = .ok block := by
  have hnat : ∀ n : ℕ, n < 256 ^ 8 → packUnsigned 8 n = .ok (packBE 8 n) := fun n hn =>
    if_pos ⟨Int.natCast_nonneg n, by rwa [Int.toNat_natCast]⟩
  have hint : packUnsigned 8 m.keyCount = .ok (packBE 8 m.keyCount.toNat) := if_pos hcount
  rw [metaBlock, metaBody, hnat _ htxn, hnat _ hroot, hint, hnat _ hlen]
  exact ⟨_, rfl⟩

/-- The bytes of a slot that `_read_slot` looks at. -/
theorem readSlot_congr (h : f.read (index * metaSlotSize) (metaBodyBytes + metaCrcBytes) =
      g.read (index * metaSlotSize) (metaBodyBytes + metaCrcBytes)) :
    readSlot crc32 f index = readSlot crc32 g index := by
  unfold readSlot
  rw [h]

theorem readSlot_sameBelow (h : File.SameBelow L f g) (hL : superblockSize ≤ L) (hindex : index < 2)
    : readSlot crc32 f index = readSlot crc32 g index := by
  refine readSlot_congr (h.read_eq ?_)
  simp only [metaSlotSize, metaBodyBytes, metaCrcBytes, superblockSize] at hL ⊢
  omega

/-- A slot that holds the block of a meta is read back as that meta. -/
theorem readSlot_of_at (h : metaBlock crc32 m = .ok block)
    (hat : f.At (index * metaSlotSize) block) :
    readSlot crc32 f index = .ok (some { m with slot := index }) := by
  obtain ⟨body, padding, hbody, rfl, -⟩ := metaBlock_ok h
  obtain ⟨hlen, hmagic, hversion, htxn, hroot, hcount, hdata⟩ := metaBody_ok hbody
  have hraw : f.read (index * metaSlotSize) (metaBodyBytes + metaCrcBytes) =
      body ++ packBE 4 (crc crc32 body) := by
    have := (File.at_append.mp hat).1.read_eq
    rwa [List.length_append, hlen, length_packBE] at this
  have htake : (body ++ packBE 4 (crc crc32 body)).take metaBodyBytes = body := by
    rw [← hlen, List.take_left]
  have hdrop : (body ++ packBE 4 (crc crc32 body)).drop metaBodyBytes =
      packBE 4 (crc crc32 body) := by
    rw [← hlen, List.drop_left]
  unfold readSlot
  simp only [hraw, htake, hdrop, unpackBE_crc, hmagic, hversion, htxn, hroot, hcount, hdata,
    List.length_append, hlen, length_packBE]
  simp [metaCrcBytes]

/-- The checksum of a slot does not match its body. -/
def CrcFails (crc32 : Bytes → ℕ) (f : File) (index : ℕ) : Prop :=
  let raw := f.read (index * metaSlotSize) (metaBodyBytes + metaCrcBytes)
  crc crc32 (raw.take metaBodyBytes) ≠ unpackBE (raw.drop metaBodyBytes)

theorem readSlot_of_crcFails (h : CrcFails crc32 f index) : readSlot crc32 f index = .ok none := by
  unfold readSlot
  by_cases hlen : (f.read (index * metaSlotSize) (metaBodyBytes + metaCrcBytes)).length <
      metaBodyBytes + metaCrcBytes
  · simp only [hlen, if_true]
  · simp only [hlen, if_false]
    exact if_pos h

/-! ## The adopted meta block -/

/-- `m` is the meta block that `_read_best_meta` adopts: its slot holds it, and the
other slot holds nothing valid or something no newer. -/
structure Adopted (crc32 : Bytes → ℕ) (f : File) (m : Meta) : Prop where
  slot_lt : m.slot < 2
  own : readSlot crc32 f m.slot = .ok (some m)
  other : readSlot crc32 f (1 - m.slot) = .ok none ∨
    ∃ m', readSlot crc32 f (1 - m.slot) = .ok (some m') ∧
      (m'.txnId < m.txnId ∨ m'.txnId = m.txnId ∧ m.slot = 0)

theorem readBestMeta_eq {a b : Option Meta} (ha : readSlot crc32 f 0 = .ok a)
    (hb : readSlot crc32 f 1 = .ok b) : readBestMeta crc32 f = bestOf a b := by
  unfold readBestMeta
  rw [ha, hb]
  rfl

theorem Adopted.readBestMeta (h : Adopted crc32 f m) : readBestMeta crc32 f = .ok m := by
  have hown := h.own
  have hother := h.other
  have hslot : m.slot = 0 ∨ m.slot = 1 := by have := h.slot_lt; omega
  rcases hslot with hslot | hslot
  · rw [show 1 - m.slot = 1 by omega] at hother
    rw [hslot] at hown
    rcases hother with hother | ⟨m', hother, hle⟩
    · exact readBestMeta_eq hown hother
    · rw [readBestMeta_eq hown hother, bestOf, if_neg (by omega)]
  · rw [show 1 - m.slot = 0 by omega] at hother
    rw [hslot] at hown
    rcases hother with hother | ⟨m', hother, hle⟩
    · exact readBestMeta_eq hother hown
    · rw [readBestMeta_eq hother hown, bestOf, if_pos (by omega)]

theorem Adopted.sameBelow (h : Adopted crc32 f m) (hfg : File.SameBelow L f g)
    (hL : superblockSize ≤ L) : Adopted crc32 g m := by
  have hslot := h.slot_lt
  refine ⟨h.slot_lt, ?_, ?_⟩
  · rw [← readSlot_sameBelow hfg hL h.slot_lt]
    exact h.own
  · rw [← readSlot_sameBelow hfg hL (by omega)]
    exact h.other

/-- No valid slot is newer than the adopted meta block. -/
theorem Adopted.txnId_le {x : Meta} (h : Adopted crc32 f m) (hindex : index < 2)
    (hx : readSlot crc32 f index = .ok (some x)) : x.txnId ≤ m.txnId := by
  have hslot := h.slot_lt
  by_cases hown : index = m.slot
  · rw [hown, h.own] at hx
    obtain rfl : m = x := by simpa using hx
    exact le_rfl
  · rw [show index = 1 - m.slot by omega] at hx
    rcases h.other with hother | ⟨m', hother, hle⟩
    · rw [hother] at hx
      cases hx
    · rw [hother] at hx
      obtain rfl : m' = x := by simpa using hx
      omega

/-- `_read_best_meta` picks one of the valid slots. -/
theorem readBestMeta_mem (h : readBestMeta crc32 f = .ok m) :
    ∃ index < 2, readSlot crc32 f index = .ok (some m) := by
  obtain ⟨a, ha, h⟩ := Except.bind_eq_ok.mp h
  obtain ⟨b, hb, h⟩ := Except.bind_eq_ok.mp h
  cases a with
  | none =>
    cases b with
    | none => cases h
    | some b =>
      obtain rfl : b = m := by simpa [bestOf] using h
      exact ⟨1, by omega, hb⟩
  | some a =>
    cases b with
    | none =>
      obtain rfl : a = m := by simpa [bestOf] using h
      exact ⟨0, by omega, ha⟩
    | some b =>
      rw [bestOf] at h
      split_ifs at h
      · obtain rfl : b = m := by simpa using h
        exact ⟨1, by omega, hb⟩
      · obtain rfl : a = m := by simpa using h
        exact ⟨0, by omega, ha⟩

/-- The next meta block of a commit: one transaction later, in the other slot. -/
structure Meta.Succeeds (m' m : Meta) : Prop where
  txnId : m'.txnId = m.txnId + 1
  slot : m'.slot = 1 - m.slot

/-- Two files differ in one slot only. -/
structure SameButSlot (index : ℕ) (f g : File) : Prop where
  size_left : superblockSize ≤ f.size
  size_eq : g.size = f.size
  byte_eq : ∀ i, (i < index * metaSlotSize ∨ index * metaSlotSize + metaSlotSize ≤ i) →
    f.byte i = g.byte i

theorem sameButSlot_write (hindex : index < 2) (hf : superblockSize ≤ f.size) {data : Bytes}
    (hdata : data.length ≤ metaSlotSize) :
    SameButSlot index f (f.write (index * metaSlotSize) data) := by
  refine ⟨hf, ?_, fun i hi => ?_⟩
  · rw [File.size_write]
    simp only [metaSlotSize, superblockSize] at hf hdata ⊢
    omega
  · rcases hi with hi | hi
    · exact (File.byte_write_of_lt f data hi).symm
    · exact (File.byte_write_of_ge f data (by omega)).symm

/-- The other slot is read as before. -/
theorem SameButSlot.readSlot (h : SameButSlot index f g) (hindex : index < 2) :
    readSlot crc32 f (1 - index) = readSlot crc32 g (1 - index) := by
  have hsize := h.size_left
  have hsize' := h.size_eq
  refine readSlot_congr (File.read_congr ?_ ?_ fun i hi hi' => h.byte_eq i ?_)
  all_goals
    simp only [metaSlotSize, metaBodyBytes, metaCrcBytes, superblockSize] at *
    omega

/-- After a complete slot write the new meta block is the adopted one. -/
theorem Adopted.succ (h : Adopted crc32 f m) (hs : m'.Succeeds m) (hfg : SameButSlot m'.slot f g)
    (hnew : readSlot crc32 g m'.slot = .ok (some m')) :
    Adopted crc32 g m' := by
  have hslot := h.slot_lt
  have hslot' := hs.slot
  refine ⟨by omega, hnew, .inr ⟨m, ?_, .inl (by have := hs.txnId; omega)⟩⟩
  rw [← hfg.readSlot (by omega), show 1 - m'.slot = m.slot by omega]
  exact h.own

/-- Writing a meta block that is no newer does not make the adopted one newer. -/
theorem Adopted.readBestMeta_le {best : Meta} (h : Adopted crc32 f m) (hslot : m'.slot < 2)
    (hle : m'.txnId ≤ m.txnId) (hfg : SameButSlot m'.slot f g)
    (hnew : Storage.readSlot crc32 g m'.slot = .ok (some m'))
    (hbest : Storage.readBestMeta crc32 g = .ok best) : best.txnId ≤ m.txnId := by
  obtain ⟨index, hindex, hread⟩ := readBestMeta_mem hbest
  by_cases hown : index = m'.slot
  · rw [hown, hnew] at hread
    obtain rfl : m' = best := by simpa using hread
    exact hle
  · obtain rfl : index = 1 - m'.slot := by omega
    rw [← hfg.readSlot hslot] at hread
    exact h.txnId_le hindex hread

/-- A meta block written over the adopted one, with the same transaction id, takes its
place. -/
theorem Adopted.overwritten (h : Adopted crc32 f m) (htxn : m'.txnId = m.txnId)
    (hslot : m'.slot = m.slot) (hfg : SameButSlot m'.slot f g)
    (hnew : Storage.readSlot crc32 g m'.slot = .ok (some m')) : Adopted crc32 g m' := by
  have hlt := h.slot_lt
  refine ⟨by omega, hnew, ?_⟩
  rw [← hfg.readSlot (by omega), hslot, htxn]
  exact h.other

/-- While the other slot is being overwritten the adopted meta block stays adopted, as
long as what stands there is not valid, or as it was. -/
theorem Adopted.torn (h : Adopted crc32 f m) (hindex : index = 1 - m.slot)
    (hfg : SameButSlot index f g)
    (htorn : readSlot crc32 g index = .ok none ∨ readSlot crc32 g index = readSlot crc32 f index) :
    Adopted crc32 g m := by
  have hslot := h.slot_lt
  refine ⟨h.slot_lt, ?_, ?_⟩
  · rw [show m.slot = 1 - index by omega, ← hfg.readSlot (by omega),
      show 1 - index = m.slot by omega]
    exact h.own
  · rw [← hindex]
    rcases htorn with ht | ht
    · exact .inl ht
    · rw [ht, hindex]
      exact h.other

/-! ## Records -/

/-- A record with this payload stands at `address`, below the length `L`. -/
structure RecordAt (crc32 : Bytes → ℕ) (f : File) (L address : ℕ) (payload : Bytes) : Prop where
  ge : superblockSize ≤ address
  le : address + recordHeaderBytes + payload.length ≤ L
  le_size : L ≤ f.size
  stands : ∃ header, recordHeader crc32 payload = .ok header ∧ f.At address (header ++ payload)

theorem recordHeader_ok {header : Bytes} (h : recordHeader crc32 payload = .ok header) :
    header.length = recordHeaderBytes ∧ unpackBE (header.take 4) = payload.length ∧
      unpackBE (header.drop 4) = crc crc32 payload := by
  obtain ⟨len, hlen, h⟩ := Except.bind_eq_ok.mp h
  obtain ⟨llen, vlen⟩ := packUnsigned_ok hlen
  obtain rfl : len ++ packBE 4 (crc crc32 payload) = header := by simpa [pure, Except.pure] using h
  refine ⟨by simp [llen, recordHeaderBytes], ?_, ?_⟩
  · rw [← llen, List.take_left]
    exact_mod_cast vlen
  · rw [← llen, List.drop_left, llen, unpackBE_crc]

/-- `read` returns the payload of a record. -/
theorem RecordAt.read_eq (h : RecordAt crc32 f L address payload) :
    Storage.read crc32 f address = .ok payload := by
  obtain ⟨header, hheader, hat⟩ := h.stands
  obtain ⟨hlen, hlength, hcrc⟩ := recordHeader_ok hheader
  obtain ⟨hat1, hat2⟩ := File.at_append.mp hat
  have hread1 := hat1.read_eq
  have hread2 := hat2.read_eq
  rw [hlen] at hread1 hread2
  have hne : address ≠ 0 := by have := h.ge; simp only [superblockSize] at this; omega
  unfold Storage.read
  simp only [hread1, hlength, hread2, hlen, hcrc, hne, if_false, ne_eq, not_true_eq_false]

/-- Two files have the same records below `L`, and both are that long. -/
structure SameRecords (L : ℕ) (f g : File) : Prop where
  le_right : L ≤ g.size
  byte_eq : ∀ i, superblockSize ≤ i → i < L → f.byte i = g.byte i

theorem SameRecords.of_sameBelow (h : File.SameBelow L f g) : SameRecords L f g :=
  ⟨h.le_right, fun i _ hi => h.byte_eq i hi⟩

theorem SameButSlot.sameRecords (h : SameButSlot index f g) (hindex : index < 2) :
    SameRecords f.size f g := by
  refine ⟨h.size_eq.ge, fun i hi _ => h.byte_eq i ?_⟩
  simp only [metaSlotSize, superblockSize] at hi ⊢
  omega

/-- The length of a record has been packed into its header. -/
theorem RecordAt.length_lt (h : RecordAt crc32 f L address payload) : payload.length < 256 ^ 4 := by
  obtain ⟨header, hheader, -⟩ := h.stands
  obtain ⟨len, hlen, -⟩ := Except.bind_eq_ok.mp hheader
  simpa using (packUnsigned_fits hlen).2

theorem RecordAt.congr (h : RecordAt crc32 f L address payload) (hfg : SameRecords L f g) :
    RecordAt crc32 g L address payload := by
  obtain ⟨header, hheader, hat⟩ := h.stands
  have hge := h.ge
  have hle := h.le
  have hlen : (header ++ payload).length = recordHeaderBytes + payload.length := by
    rw [List.length_append, (recordHeader_ok hheader).1]
  refine ⟨h.ge, h.le, hfg.le_right, header, hheader, ?_, fun i hi => ?_⟩
  · have := hfg.le_right
    omega
  · rw [← hfg.byte_eq _ (by omega) (by omega), hat.byte_eq i hi]

theorem RecordAt.mono {L' : ℕ} (h : RecordAt crc32 f L address payload) (hL : L ≤ L')
    (hsize : L' ≤ f.size) :
    RecordAt crc32 f L' address payload :=
  ⟨h.ge, h.le.trans hL, hsize, h.stands⟩

/-- `write` refuses a payload whose length does not fit into its header. -/
theorem write_error (h : write crc32 payload d = .error e d') :
    e = .structError ∧ 256 ^ 4 ≤ payload.length := by
  unfold write at h
  cases hheader : recordHeader crc32 payload with
  | ok header => simp [hheader] at h
  | error e' =>
    simp only [hheader] at h
    cases h
    rcases Except.bind_eq_error.mp hheader with h | ⟨_, -, h⟩
    · refine ⟨packUnsigned_error h, ?_⟩
      by_contra hshort
      have hfits : packUnsigned 4 payload.length = .ok (packBE 4 payload.length) :=
        if_pos ⟨Int.natCast_nonneg _, by rw [Int.toNat_natCast]; omega⟩
      rw [hfits] at h
      cases h
    · cases h

/-- There is nothing to read beyond the end of the file. -/
theorem read_of_size_le (hsize : f.size ≤ address) :
    read crc32 f address = .error .databaseCorruptionError := by
  have hlen : (f.read address recordHeaderBytes).length ≠ recordHeaderBytes := by
    rw [File.length_read]
    simp only [recordHeaderBytes]
    omega
  simp only [read, hlen, ne_eq, not_false_eq_true, if_true, ite_self]

/-- `write` appends a record at the end of the file, or raises and writes nothing. -/
theorem write_spec (crc32 : Bytes → ℕ) (payload : Bytes) (d : Disk) (hd : superblockSize ≤ d.live.size) :
    (∃ d', write crc32 payload d = .ok d.live.size d' ∧ d.Appends d' ∧
        RecordAt crc32 d'.live d'.live.size d.live.size payload) ∨
      ∃ e, write crc32 payload d = .error e d := by
  unfold write
  cases hheader : recordHeader crc32 payload with
  | error e => exact .inr ⟨e, rfl⟩
  | ok header =>
    have hlen := (recordHeader_ok hheader).1
    have haddress : max d.live.size superblockSize = d.live.size := by omega
    refine .inl ⟨(d.push (.write d.live.size header)).push
      (.write (d.live.size + recordHeaderBytes) payload), by simp only [haddress], ?_, ?_⟩
    · refine .write payload (.write header .refl le_rfl) ?_
      rw [Disk.live_write, File.size_write, hlen]
      omega
    · have hsize : ((d.live.write d.live.size header).write (d.live.size + recordHeaderBytes)
          payload).size = d.live.size + recordHeaderBytes + payload.length := by
        rw [File.size_write, File.size_write, hlen]
        omega
      have hat : ((d.live.write d.live.size header).write (d.live.size + recordHeaderBytes)
          payload).At d.live.size (header ++ payload) := by
        rw [File.at_append, hlen]
        refine ⟨?_, File.at_write _ _ _⟩
        have hsame : File.SameBelow (d.live.size + recordHeaderBytes)
            (d.live.write d.live.size header)
            ((d.live.write d.live.size header).write (d.live.size + recordHeaderBytes) payload) :=
          .write (by rw [File.size_write, hlen]; omega) le_rfl payload
        exact hsame.at (File.at_write _ _ _) (by rw [hlen])
      rw [Disk.live_write, Disk.live_write]
      exact ⟨hd, hsize.ge, le_rfl, header, hheader, hat⟩

/-- How far `write` makes the file grow. -/
theorem size_of_write (hd : superblockSize ≤ d.live.size)
    (h : write crc32 payload d = .ok address d') :
    d'.live.size = d.live.size + recordHeaderBytes + payload.length := by
  unfold write at h
  cases hheader : recordHeader crc32 payload with
  | error e => simp [hheader] at h
  | ok header =>
    have hlen := (recordHeader_ok hheader).1
    have haddress : max d.live.size superblockSize = d.live.size := by omega
    simp only [hheader, haddress] at h
    cases h
    rw [Disk.live_write, Disk.live_write, File.size_write, File.size_write, hlen]
    omega

/-- A payload whose length fits into its header is written. -/
theorem write_returns (crc32 : Bytes → ℕ) (h : payload.length < 256 ^ 4)
    (hd : superblockSize ≤ d.live.size) :
    ∃ d', write crc32 payload d = .ok d.live.size d' ∧
      d'.live.size = d.live.size + recordHeaderBytes + payload.length := by
  rcases write_spec crc32 payload d hd with ⟨d', hrun, -⟩ | ⟨e, hrun⟩
  · exact ⟨d', hrun, size_of_write hd hrun⟩
  · exact absurd h (write_error hrun).2.not_gt

end Storage
