/-
# Files that lose power

A `Disk` is a file together with the operations performed on it since it was powered
on.  What a flush has covered is durable; at a crash every later operation survives
whole, in part or not at all.  The rules below say what a crash cannot touch: bytes
below a length that every operation since the last flush stays above.
-/
import Mathlib

/-! ## Files -/

/-- A file: its bytes by position, zero from `size` on. -/
structure File where
  size : ℕ
  byte : ℕ → UInt8
  zero_of_size_le : ∀ i, size ≤ i → byte i = 0

namespace File

variable {pos n i : ℕ} {data : List UInt8}

/-- A file without bytes. -/
def empty : File := ⟨0, fun _ => 0, fun _ _ => rfl⟩

/-- The bytes from `pos` on, `n` of them or as many as there are. -/
def read (f : File) (pos n : ℕ) : List UInt8 :=
  (List.range' pos (min n (f.size - pos))).map f.byte

/-- Writing `data` at `pos`; a gap before `pos` is filled with zeros. -/
def write (f : File) (pos : ℕ) (data : List UInt8) : File where
  size := max f.size (pos + data.length)
  byte i := if pos ≤ i ∧ i < pos + data.length then data.getD (i - pos) 0 else f.byte i
  zero_of_size_le i hi := by
    rw [if_neg (by omega)]
    exact f.zero_of_size_le i (by omega)

/-- Cutting the file to `n` bytes, or filling it up with zeros. -/
def truncate (f : File) (n : ℕ) : File where
  size := n
  byte i := if i < n then f.byte i else 0
  zero_of_size_le i hi := if_neg (by omega)

/-- A write grows the file if it goes beyond the end. -/
@[simp] theorem size_write (f : File) (pos : ℕ) (data : List UInt8) :
    (f.write pos data).size = max f.size (pos + data.length) := rfl

@[simp] theorem size_truncate (f : File) (n : ℕ) : (f.truncate n).size = n := rfl

/-- A write changes no byte before it. -/
theorem byte_write_of_lt (f : File) (data : List UInt8) (h : i < pos) :
    (f.write pos data).byte i = f.byte i := if_neg (by omega)

theorem byte_write_of_ge (f : File) (data : List UInt8) (h : pos + data.length ≤ i) :
    (f.write pos data).byte i = f.byte i := if_neg (by omega)

/-- A write is read where it was made. -/
theorem byte_write_of_mem (f : File) (data : List UInt8) (h : i < data.length) :
    (f.write pos data).byte (pos + i) = data.getD i 0 := by
  have hmem : pos ≤ pos + i ∧ pos + i < pos + data.length := by omega
  calc (f.write pos data).byte (pos + i)
      = data.getD (pos + i - pos) 0 := if_pos hmem
    _ = data.getD i 0 := by rw [Nat.add_sub_cancel_left]

theorem byte_truncate_of_lt (f : File) (h : i < n) : (f.truncate n).byte i = f.byte i :=
  if_pos h

/-- A read stops at the end of the file. -/
theorem length_read (f : File) (pos n : ℕ) : (f.read pos n).length = min n (f.size - pos) := by
  simp [read]

variable {f : File}

/-- A read depends on the bytes it covers only. -/
theorem read_congr {g : File} (hf : pos + n ≤ f.size) (hg : pos + n ≤ g.size)
    (h : ∀ i, pos ≤ i → i < pos + n → f.byte i = g.byte i) : f.read pos n = g.read pos n := by
  have hmin : min n (f.size - pos) = n := by omega
  have hmin' : min n (g.size - pos) = n := by omega
  rw [read, read, hmin, hmin']
  apply List.map_congr_left
  intro i hi
  rw [List.mem_range'_1] at hi
  exact h i hi.1 hi.2

/-- `data` stands at `pos` in the file. -/
structure At (f : File) (pos : ℕ) (data : List UInt8) : Prop where
  le_size : pos + data.length ≤ f.size
  byte_eq : ∀ i < data.length, f.byte (pos + i) = data.getD i 0

/-- What stands in a file is read. -/
theorem At.read_eq (h : f.At pos data) : f.read pos data.length = data := by
  have hmin : min data.length (f.size - pos) = data.length := by have := h.le_size; omega
  apply List.ext_getElem
  · rw [length_read, hmin]
  · intro i hi hi'
    have hbyte := h.byte_eq i hi'
    rw [List.getD_eq_getElem _ _ hi'] at hbyte
    simpa [read] using hbyte

theorem At.of_read (h : f.read pos data.length = data) (hsize : pos + data.length ≤ f.size) :
    f.At pos data := by
  refine ⟨hsize, fun i hi => ?_⟩
  have hmin : min data.length (f.size - pos) = data.length := by omega
  have hbyte : (f.read pos data.length)[i]? = data[i]? := by rw [h]
  rw [read, hmin, List.getElem?_map, List.getElem?_range' hi] at hbyte
  rw [List.getD_eq_getElem?_getD, ← hbyte]
  simp

theorem take_read (f : File) (pos : ℕ) {k : ℕ} (h : k ≤ n) :
    (f.read pos n).take k = f.read pos k := by
  apply List.ext_getElem
  · rw [List.length_take, length_read, length_read]
    omega
  · intro i hi hi'
    simp [read]

/-- Data stands in a file piece by piece. -/
theorem at_append {a b : List UInt8} :
    f.At pos (a ++ b) ↔ f.At pos a ∧ f.At (pos + a.length) b := by
  constructor
  · intro h
    have hsize := h.le_size
    rw [List.length_append] at hsize
    refine ⟨⟨by omega, fun i hi => ?_⟩, ⟨by omega, fun i hi => ?_⟩⟩
    · rw [h.byte_eq i (by rw [List.length_append]; omega), List.getD_append _ _ _ _ hi]
    · rw [Nat.add_assoc, h.byte_eq (a.length + i) (by rw [List.length_append]; omega),
        List.getD_append_right _ _ _ _ (by omega), Nat.add_sub_cancel_left]
  · rintro ⟨ha, hb⟩
    have hsize := hb.le_size
    refine ⟨by rw [List.length_append]; omega, fun i hi => ?_⟩
    rw [List.length_append] at hi
    rcases Nat.lt_or_ge i a.length with h | h
    · rw [ha.byte_eq i h, List.getD_append _ _ _ _ h]
    · have := hb.byte_eq (i - a.length) (by omega)
      rw [List.getD_append_right _ _ _ _ h, ← this]
      congr 1
      omega

theorem at_write (f : File) (pos : ℕ) (data : List UInt8) : (f.write pos data).At pos data :=
  ⟨by simp, fun _ hi => byte_write_of_mem f data hi⟩

/-! ## Bytes below a length -/

/-- Two files have the same bytes below `L`, and both have that many. -/
structure SameBelow (L : ℕ) (f g : File) : Prop where
  le_left : L ≤ f.size
  le_right : L ≤ g.size
  byte_eq : ∀ i < L, f.byte i = g.byte i

variable {L : ℕ} {f g h : File}

theorem SameBelow.refl (hL : L ≤ f.size) : SameBelow L f f := ⟨hL, hL, fun _ _ => rfl⟩

theorem SameBelow.trans (h1 : SameBelow L f g) (h2 : SameBelow L g h) : SameBelow L f h :=
  ⟨h1.le_left, h2.le_right, fun i hi => (h1.byte_eq i hi).trans (h2.byte_eq i hi)⟩

theorem SameBelow.symm (h1 : SameBelow L f g) : SameBelow L g f :=
  ⟨h1.le_right, h1.le_left, fun i hi => (h1.byte_eq i hi).symm⟩

theorem SameBelow.mono (h1 : SameBelow L f g) {K : ℕ} (hK : K ≤ L) : SameBelow K f g :=
  ⟨hK.trans h1.le_left, hK.trans h1.le_right, fun i hi => h1.byte_eq i (by omega)⟩

/-- A write at `L` or above leaves the bytes below. -/
theorem SameBelow.write (hL : L ≤ f.size) (hpos : L ≤ pos) (data : List UInt8) :
    SameBelow L f (f.write pos data) :=
  ⟨hL, by rw [size_write]; omega, fun i hi => (byte_write_of_lt f data (by omega)).symm⟩

/-- So does cutting the file at `L` or above. -/
theorem SameBelow.truncate (hL : L ≤ f.size) (hn : L ≤ n) : SameBelow L f (f.truncate n) :=
  ⟨hL, hn, fun _ hi => (byte_truncate_of_lt f (by omega)).symm⟩

theorem SameBelow.read_eq (h1 : SameBelow L f g) (hn : pos + n ≤ L) : f.read pos n = g.read pos n :=
  read_congr (hn.trans h1.le_left) (hn.trans h1.le_right) fun i _ hi => h1.byte_eq i (by omega)

/-- Data below `L` stands in both files. -/
theorem SameBelow.at (h1 : SameBelow L f g) (h2 : f.At pos data) (hn : pos + data.length ≤ L) :
    g.At pos data :=
  ⟨hn.trans h1.le_right, fun i hi => by rw [← h1.byte_eq _ (by omega), h2.byte_eq i hi]⟩

end File

/-! ## Operations and what survives of them -/

/-- An operation on a file. -/
inductive DiskOp where
  | write (pos : ℕ) (data : List UInt8)
  | truncate (size : ℕ)
  | flush

namespace DiskOp

/-- The operation as the running program sees it. -/
def applyTo (f : File) : DiskOp → File
  | .write pos data => f.write pos data
  | .truncate size => f.truncate size
  | .flush => f

/-- What a crash may leave of an operation: nothing, all, a prefix of a write, or a
part of a change of length. -/
inductive Survives : File → DiskOp → File → Prop
  | lost (f : File) (op : DiskOp) : Survives f op f
  | written (f : File) (pos : ℕ) (data : List UInt8) (k : ℕ) :
      Survives f (.write pos data) (f.write pos (data.take k))
  | cut (f : File) (size n : ℕ) : (size ≤ n ∧ n ≤ f.size) ∨ (f.size ≤ n ∧ n ≤ size) →
      Survives f (.truncate size) (f.truncate n)

/-- The operation leaves the bytes below `L` alone. -/
def Above (L : ℕ) : DiskOp → Prop
  | .write pos _ => L ≤ pos
  | .truncate size => L ≤ size
  | .flush => True

variable {L : ℕ} {f g : File} {op : DiskOp}

/-- Such an operation leaves the bytes below `L`. -/
theorem Above.applyTo (h : op.Above L) (hL : L ≤ f.size) : File.SameBelow L f (op.applyTo f) := by
  cases op with
  | write pos data => exact .write hL h data
  | truncate size => exact .truncate hL h
  | flush => exact .refl hL

/-- So does what a crash leaves of it. -/
theorem Above.survives (h : op.Above L) (hL : L ≤ f.size) (hs : Survives f op g) :
    File.SameBelow L f g := by
  cases hs with
  | lost => exact .refl hL
  | written pos data k => exact .write hL h _
  | cut size n hn =>
    refine .truncate hL ?_
    have : L ≤ size := h
    omega

theorem sameBelow_foldl {ops : List DiskOp} (hL : L ≤ f.size) (hops : ∀ op ∈ ops, op.Above L) :
    File.SameBelow L f (ops.foldl DiskOp.applyTo f) := by
  induction ops generalizing f with
  | nil => exact .refl hL
  | cons op ops ih =>
    have hfirst := (hops op (by simp)).applyTo hL
    exact hfirst.trans (ih hfirst.le_right fun op hop => hops op (by simp [hop]))

end DiskOp

/-- What a crash may leave of a sequence of operations; `torn` restricts what it may
leave of each. -/
inductive Survive (torn : File → DiskOp → File → Prop) : File → List DiskOp → File → Prop
  | nil (f : File) : Survive torn f [] f
  | cons {f g h : File} {op : DiskOp} {ops : List DiskOp} :
      DiskOp.Survives f op g → torn f op g → Survive torn g ops h → Survive torn f (op :: ops) h

/-- A crash keeps what no pending operation touches. -/
theorem Survive.sameBelow {torn : File → DiskOp → File → Prop} {f g : File} {ops : List DiskOp}
    {L : ℕ} (h : Survive torn f ops g) (hL : L ≤ f.size) (hops : ∀ op ∈ ops, op.Above L) :
    File.SameBelow L f g := by
  induction h with
  | nil f => exact .refl hL
  | cons hs _ _ ih =>
    have hfirst := (hops _ (by simp)).survives hL hs
    exact hfirst.trans (ih hfirst.le_right fun op hop => hops op (by simp [hop]))

/-! ## Disks -/

/-- A file and the operations performed on it since it was powered on. -/
structure Disk where
  base : File
  ops : List DiskOp

namespace Disk

/-- The disk after one more operation. -/
def push (d : Disk) (op : DiskOp) : Disk := { d with ops := d.ops ++ [op] }

/-- The file as of the last flush, and the operations since. -/
def synced (d : Disk) : File × List DiskOp :=
  d.ops.foldl (fun s op => match op with
    | .flush => (s.2.foldl DiskOp.applyTo s.1, [])
    | op => (s.1, s.2 ++ [op])) (d.base, [])

/-- What a crash cannot lose. -/
def durable (d : Disk) : File := d.synced.1

/-- What a crash can lose. -/
def pending (d : Disk) : List DiskOp := d.synced.2

/-- The file as the running program sees it. -/
def live (d : Disk) : File := d.pending.foldl DiskOp.applyTo d.durable

/-- The files that may be found after a crash. -/
def Crashed (torn : File → DiskOp → File → Prop) (d : Disk) (f : File) : Prop :=
  Survive torn d.durable d.pending f

/-- A disk powered on. -/
def powerOn (f : File) : Disk := ⟨f, []⟩

@[simp] theorem durable_powerOn (f : File) : (powerOn f).durable = f := rfl

@[simp] theorem pending_powerOn (f : File) : (powerOn f).pending = [] := rfl

@[simp] theorem live_powerOn (f : File) : (powerOn f).live = f := rfl

/-- Only a flush makes operations durable. -/
theorem synced_push (d : Disk) (op : DiskOp) :
    (d.push op).synced = match op with
      | .flush => (d.live, [])
      | op => (d.durable, d.pending ++ [op]) := by
  cases op <;> simp [synced, push, live, durable, pending, List.foldl_append]

@[simp] theorem durable_flush (d : Disk) : (d.push .flush).durable = d.live := by
  rw [durable, synced_push]

@[simp] theorem pending_flush (d : Disk) : (d.push .flush).pending = [] := by
  rw [pending, synced_push]

@[simp] theorem live_flush (d : Disk) : (d.push .flush).live = d.live := by
  rw [live, pending_flush, durable_flush, List.foldl_nil]

@[simp] theorem durable_write (d : Disk) (pos : ℕ) (data : List UInt8) :
    (d.push (.write pos data)).durable = d.durable := by
  rw [durable, synced_push]

@[simp] theorem pending_write (d : Disk) (pos : ℕ) (data : List UInt8) :
    (d.push (.write pos data)).pending = d.pending ++ [.write pos data] := by
  rw [pending, synced_push]

@[simp] theorem live_write (d : Disk) (pos : ℕ) (data : List UInt8) :
    (d.push (.write pos data)).live = d.live.write pos data := by
  rw [live, pending_write, durable_write, List.foldl_concat]
  rfl

@[simp] theorem durable_truncate (d : Disk) (n : ℕ) :
    (d.push (.truncate n)).durable = d.durable := by
  rw [durable, synced_push]

@[simp] theorem pending_truncate (d : Disk) (n : ℕ) :
    (d.push (.truncate n)).pending = d.pending ++ [.truncate n] := by
  rw [pending, synced_push]

@[simp] theorem live_truncate (d : Disk) (n : ℕ) :
    (d.push (.truncate n)).live = d.live.truncate n := by
  rw [live, pending_truncate, durable_truncate, List.foldl_concat]
  rfl

/-! ## Points of a run -/

/-- `d'` is `d` after more operations. -/
structure Later (d d' : Disk) : Prop where
  base_eq : d'.base = d.base
  ops_le : d.ops <+: d'.ops

theorem Later.refl (d : Disk) : Later d d := ⟨rfl, List.prefix_refl _⟩

theorem Later.trans {d d' d'' : Disk} (h : Later d d') (h' : Later d' d'') : Later d d'' :=
  ⟨h'.base_eq.trans h.base_eq, h.ops_le.trans h'.ops_le⟩

theorem later_push (d : Disk) (op : DiskOp) : Later d (d.push op) :=
  ⟨rfl, List.prefix_append _ _⟩

/-- Every disk on the way from `d` to `d'` meets `P`. -/
def Throughout (P : Disk → Prop) (d d' : Disk) : Prop :=
  ∀ e, Later d e → Later e d' → P e

variable {P Q : Disk → Prop} {d d' d'' : Disk}
variable {L : ℕ}

theorem Later.eq_of_length_le (h : Later d d') (hlen : d'.ops.length ≤ d.ops.length) : d = d' := by
  obtain ⟨base, ops⟩ := d
  obtain ⟨base', ops'⟩ := d'
  obtain rfl : base' = base := h.base_eq
  obtain rfl : ops = ops' := h.ops_le.eq_of_length (Nat.le_antisymm h.ops_le.length_le hlen)
  rfl

theorem Throughout.refl (h : P d) : Throughout P d d := by
  intro e h1 h2
  rw [← h1.eq_of_length_le h2.ops_le.length_le]
  exact h

theorem Throughout.mono (h : Throughout P d d') (hPQ : ∀ e, P e → Q e) : Throughout Q d d' :=
  fun e h1 h2 => hPQ e (h e h1 h2)

/-- A property that holds along two stretches holds along the whole. -/
theorem Throughout.trans (h1 : Throughout P d d') (h2 : Throughout P d' d'') (hd : Later d d')
    (hd' : Later d' d'') : Throughout P d d'' := by
  intro e he he'
  rcases List.prefix_or_prefix_of_prefix he'.ops_le hd'.ops_le with h | h
  · exact h1 e he ⟨hd.base_eq.trans he.base_eq.symm, h⟩
  · exact h2 e ⟨he.base_eq.trans hd.base_eq.symm, h⟩ he'

theorem Throughout.push {op : DiskOp} (h : P d) (h' : P (d.push op)) :
    Throughout P d (d.push op) := by
  intro e he he'
  rcases Nat.lt_or_ge d.ops.length e.ops.length with hlt | hge
  · rw [he'.eq_of_length_le (by simpa [Disk.push] using hlt)]
    exact h'
  · rw [← he.eq_of_length_le hge]
    exact h

/-! ## What a crash cannot touch -/

/-- Everything that has happened since the last flush leaves the bytes below `L`
alone. -/
structure Guarded (L : ℕ) (d : Disk) : Prop where
  le_durable : L ≤ d.durable.size
  above : ∀ op ∈ d.pending, op.Above L

/-- What is guarded survives a crash. -/
theorem Guarded.crashed {torn : File → DiskOp → File → Prop} (h : Guarded L d) {f : File}
    (hf : d.Crashed torn f) : File.SameBelow L d.durable f :=
  Survive.sameBelow hf h.le_durable h.above

theorem Guarded.live (h : Guarded L d) : File.SameBelow L d.durable d.live :=
  DiskOp.sameBelow_foldl h.le_durable h.above

theorem Guarded.write (h : Guarded L d) {pos : ℕ} (hpos : L ≤ pos) (data : List UInt8) :
    Guarded L (d.push (.write pos data)) := by
  constructor
  · rw [durable_write]
    exact h.le_durable
  · intro op hop
    rw [pending_write, List.mem_append, List.mem_singleton] at hop
    rcases hop with hop | rfl
    · exact h.above op hop
    · exact hpos

theorem Guarded.truncate (h : Guarded L d) {n : ℕ} (hn : L ≤ n) :
    Guarded L (d.push (.truncate n)) := by
  constructor
  · rw [durable_truncate]
    exact h.le_durable
  · intro op hop
    rw [pending_truncate, List.mem_append, List.mem_singleton] at hop
    rcases hop with hop | rfl
    · exact h.above op hop
    · exact hn

theorem Guarded.flush (h : L ≤ d.live.size) : Guarded L (d.push .flush) :=
  ⟨by rw [durable_flush]; exact h, by simp⟩

theorem guarded_powerOn {f : File} (h : L ≤ f.size) : Guarded L (powerOn f) :=
  ⟨h, by simp⟩

/-! ## Appending -/

/-- `d'` is `d` after writes at or beyond the end of the file. -/
inductive Appends (d : Disk) : Disk → Prop
  | refl : Appends d d
  | write {d' : Disk} {pos : ℕ} (data : List UInt8) :
      Appends d d' → d'.live.size ≤ pos → Appends d (d'.push (.write pos data))

theorem Appends.trans (h : Appends d d') (h' : Appends d' d'') : Appends d d'' := by
  induction h' with
  | refl => exact h
  | write data _ hpos ih => exact .write data ih hpos

theorem Appends.later (h : Appends d d') : Later d d' := by
  induction h with
  | refl => exact .refl d
  | write data _ _ ih => exact ih.trans (later_push _ _)

/-- Appending keeps the bytes of the file. -/
theorem Appends.sameBelow (h : Appends d d') : File.SameBelow d.live.size d.live d'.live := by
  induction h with
  | refl => exact .refl le_rfl
  | write data _ hpos ih =>
    rw [live_write]
    exact ih.trans (.write ih.le_right (ih.le_right.trans hpos) data)

/-- A property that appending keeps holds all along. -/
theorem Appends.throughout (h : Appends d d') (hd : P d)
    (hstep : ∀ (e : Disk) (pos : ℕ) (data : List UInt8), P e → e.live.size ≤ pos →
      P (e.push (.write pos data))) : Throughout P d d' := by
  induction h with
  | refl => exact .refl hd
  | @write e pos data happ hpos ih =>
    have he := ih e happ.later (.refl e)
    exact ih.trans (.push he (hstep e pos data he hpos)) happ.later (later_push _ _)

/-! ## Properties that survive -/

/-- A property of files that the bytes below `L` decide. -/
structure Below (L : ℕ) (p : File → Prop) : Prop where
  le_size : ∀ {f : File}, p f → L ≤ f.size
  congr : ∀ {f g : File}, p f → File.SameBelow L f g → p g

/-- The file has the property now, and a crash cannot touch what decides it. -/
structure Secure (L : ℕ) (p : File → Prop) (d : Disk) : Prop where
  holds : p d.live
  guarded : d.Guarded L

namespace Secure

variable {L : ℕ} {p : File → Prop}

theorem crashed {torn : File → DiskOp → File → Prop} {f : File} (h : Secure L p d) (hp : Below L p)
    (hf : d.Crashed torn f) : p f :=
  hp.congr h.holds (h.guarded.live.symm.trans (h.guarded.crashed hf))

/-- A write above `L` keeps it secure. -/
theorem write (h : Secure L p d) (hp : Below L p) {pos : ℕ} (hpos : L ≤ pos) (data : List UInt8) :
    Secure L p (d.push (.write pos data)) := by
  refine ⟨?_, h.guarded.write hpos data⟩
  rw [live_write]
  exact hp.congr h.holds (.write (hp.le_size h.holds) hpos data)

theorem truncate (h : Secure L p d) (hp : Below L p) {n : ℕ} (hn : L ≤ n) :
    Secure L p (d.push (.truncate n)) := by
  refine ⟨?_, h.guarded.truncate hn⟩
  rw [live_truncate]
  exact hp.congr h.holds (.truncate (hp.le_size h.holds) hn)

/-- A flush secures what holds of the live file. -/
theorem flush (h : p d.live) (hp : Below L p) : Secure L p (d.push .flush) := by
  refine ⟨?_, .flush (hp.le_size h)⟩
  rw [live_flush]
  exact h

theorem powerOn {f : File} (h : p f) (hp : Below L p) : Secure L p (powerOn f) :=
  ⟨h, guarded_powerOn (hp.le_size h)⟩

/-- Appending is secure all along. -/
theorem appends (h : Secure L p d) (hp : Below L p) (happ : d.Appends d') :
    Throughout (Secure L p) d d' :=
  happ.throughout h fun _ _ data he hpos => he.write hp ((hp.le_size he.holds).trans hpos) data

end Secure

end Disk
