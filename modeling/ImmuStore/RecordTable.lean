/-
# The table of records

Behind the superblock a file holds its records one after the other.  `Records` says which
ones stand between two positions; `count_records` counts them when the last one ends with
the file, and raises when the file ends inside a record.
-/
import ImmuStore.Interface

namespace Storage

variable {crc32 : Bytes → ℕ} {f g : File} {a b c L : ℕ} {l l' : List (ℕ × Bytes)} {payload : Bytes}
  {d d' : Disk}

/-- The records from `a` to `b`, with their addresses. -/
inductive Records (crc32 : Bytes → ℕ) (f : File) : ℕ → List (ℕ × Bytes) → ℕ → Prop
  | nil (a : ℕ) : Records crc32 f a [] a
  | cons {a b : ℕ} {header payload : Bytes} {l : List (ℕ × Bytes)} :
      recordHeader crc32 payload = .ok header → f.At a (header ++ payload) →
      Records crc32 f (a + recordHeaderBytes + payload.length) l b →
      Records crc32 f a ((a, payload) :: l) b

namespace Records

section

variable (h : Records crc32 f a l b)
include h

theorem append (h' : Records crc32 f b l' c) :
    Records crc32 f a (l ++ l') c := by
  induction h with
  | nil => exact h'
  | cons hheader hat _ ih => exact .cons hheader hat (ih h')

/-- Every record takes at least its header. -/
theorem length_le : a + recordHeaderBytes * l.length ≤ b := by
  induction h with
  | nil => simp
  | cons _ _ _ ih =>
    simp only [List.length_cons, recordHeaderBytes] at ih ⊢
    omega

theorem le : a ≤ b := (Nat.le_add_right _ _).trans h.length_le

theorem recordAt (ha : superblockSize ≤ a) (hb : b ≤ f.size) :
    ∀ r ∈ l, RecordAt crc32 f b r.1 r.2 := by
  induction h with
  | nil => simp
  | cons hheader hat hrest ih =>
    intro r hr
    rcases List.mem_cons.mp hr with rfl | hr
    · exact ⟨ha, hrest.le, hb, _, hheader, hat⟩
    · exact ih (by omega) hb r hr

/-- The table lasts as long as its bytes do. -/
theorem congr (ha : superblockSize ≤ a) (hfg : SameRecords b f g) :
    Records crc32 g a l b := by
  induction h with
  | nil => exact .nil _
  | @cons a b header payload l hheader hat hrest ih =>
    have hlen := (recordHeader_ok hheader).1
    have hle := hrest.le
    have hright := hfg.le_right
    refine .cons hheader ⟨?_, fun i hi => ?_⟩ (ih (by omega) hfg)
    · rw [List.length_append, hlen]
      omega
    · rw [List.length_append, hlen] at hi
      rw [← hfg.byte_eq (a + i) (by omega) (by omega)]
      exact hat.byte_eq i (by rw [List.length_append, hlen]; omega)

end

/-- The walk of `count_records` along whole records. -/
theorem countFrom_eq (h : Records crc32 f a l f.size) {fuel : ℕ} (hfuel : l.length < fuel) :
    countFrom f fuel a = .ok l.length := by
  generalize hend : f.size = n at h
  induction h generalizing fuel with
  | nil a =>
    obtain ⟨fuel, rfl⟩ := Nat.exists_eq_add_one.mpr (Nat.zero_lt_of_lt hfuel)
    rw [countFrom, if_neg (by omega), if_neg (by omega)]
    rfl
  | @cons a b header payload l hheader hat hrest ih =>
    obtain ⟨fuel, rfl⟩ := Nat.exists_eq_add_one.mpr (Nat.zero_lt_of_lt hfuel)
    obtain ⟨hlen, hlength, -⟩ := recordHeader_ok hheader
    have hread : f.read a recordHeaderBytes = header := by
      have := (File.at_append.mp hat).1.read_eq
      rwa [hlen] at this
    have hlt : a < f.size := by
      have := hrest.le
      simp only [recordHeaderBytes] at this
      omega
    rw [countFrom, if_pos hlt]
    simp only [hread, hlen, ne_eq, not_true_eq_false, if_false, hlength]
    rw [ih (by simpa using hfuel) hend]
    rfl

/-- `count_records` counts the table of a file that ends with whole records. -/
theorem countRecords_eq (h : Records crc32 f superblockSize l f.size) :
    countRecords f = .ok l.length := by
  refine h.countFrom_eq ?_
  have := h.length_le
  simp only [recordHeaderBytes] at this
  omega

end Records

/-! ## Writing -/

/-- `write` adds a record to the table. -/
theorem write_records (hd : superblockSize ≤ d.live.size) (h : write crc32 payload d = .ok a d') :
    a = d.live.size ∧ d.Appends d' ∧
      Records crc32 d'.live d.live.size [(d.live.size, payload)] d'.live.size := by
  rcases write_spec crc32 payload d hd with ⟨d'', hrun, happ, hrecord⟩ | ⟨e, hrun⟩
  · obtain ⟨rfl, rfl⟩ : a = d.live.size ∧ d' = d'' := by simpa [h] using hrun
    obtain ⟨header, hheader, hat⟩ := hrecord.stands
    refine ⟨rfl, happ, .cons hheader hat ?_⟩
    rw [← size_of_write hd h]
    exact .nil _
  · rw [h] at hrun
    cases hrun

/-- What can be read stands before the end of the file. -/
theorem lt_size_of_read (h : read crc32 f a = .ok payload) : a < f.size := by
  by_contra hge
  rw [read_of_size_le (by omega)] at h
  cases h

end Storage
