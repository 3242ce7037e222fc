/-
# Record storage (`physical.py`)

Meta slots and records, byte by byte.  `zlib.crc32` is a parameter; everything that
depends on it is stated for any checksum.  A handle is modelled for durability
`full`, and not read-only: its flushes are operations of the disk like its writes.
-/
import ImmuStore.Disk
import ImmuStore.Python

abbrev Bytes := List UInt8

/-! ## `struct` -/

/-- The low `width` bytes of a number, most significant first. -/
def packBE : ℕ → ℕ → Bytes
  | 0, _ => []
  | width + 1, n => packBE width (n / 256) ++ [UInt8.ofNat n]

/-- The number that bytes stand for, most significant first. -/
def unpackBE (bytes : Bytes) : ℕ := bytes.foldl (fun n b => n * 256 + b.toNat) 0

/-- `struct.pack` of one unsigned field of `width` bytes. -/
def packUnsigned (width : ℕ) (n : ℤ) : Except PyError Bytes :=
  if 0 ≤ n ∧ n.toNat < 256 ^ width then .ok (packBE width n.toNat) else .error .structError

namespace Storage

/-! ## Layout -/

/-- `MAGIC`, `b"IMMU"`. -/
def magic : Bytes := [0x49, 0x4d, 0x4d, 0x55]

/-- `FORMAT_VERSION`. -/
def formatVersion : ℕ := 2

/-- `META_SLOT_SIZE`. -/
def metaSlotSize : ℕ := 4096

/-- `SUPERBLOCK_SIZE`; records begin here. -/
def superblockSize : ℕ := 8192

/-- `META_BODY_BYTES`. -/
def metaBodyBytes : ℕ := 40

/-- `META_CRC_BYTES`. -/
def metaCrcBytes : ℕ := 4

/-- `RECORD_HEADER_BYTES`. -/
def recordHeaderBytes : ℕ := 8

/-- `_Meta`. -/
structure Meta where
  txnId : ℕ
  rootAddress : ℕ
  keyCount : ℤ
  dataLength : ℕ
  slot : ℕ
  deriving DecidableEq, Repr

/-- `_crc`, the low 32 bits of the checksum. -/
def crc (crc32 : Bytes → ℕ) (payload : Bytes) : ℕ := crc32 payload % 2 ^ 32

/-! ## Meta blocks -/

/-- The field of a meta body at an offset. -/
def field (body : Bytes) (offset width : ℕ) : ℕ := unpackBE ((body.drop offset).take width)

/-- `_read_slot`. -/
def readSlot (crc32 : Bytes → ℕ) (f : File) (index : ℕ) : Except PyError (Option Meta) :=
  let raw := f.read (index * metaSlotSize) (metaBodyBytes + metaCrcBytes)
  let body := raw.take metaBodyBytes
  if raw.length < metaBodyBytes + metaCrcBytes then .ok none
  else if crc crc32 body ≠ unpackBE (raw.drop metaBodyBytes) then .ok none
  else if body.take 4 ≠ magic then .ok none
  else if field body 4 4 ≠ formatVersion then .error .databaseCorruptionError
  else .ok (some ⟨field body 8 8, field body 16 8, field body 24 8, field body 32 8, index⟩)

/-- The valid one of two candidates with the higher transaction id, the first if they
are equal. -/
def bestOf : Option Meta → Option Meta → Except PyError Meta
  | some a, some b => .ok (if a.txnId < b.txnId then b else a)
  | some a, none => .ok a
  | none, some b => .ok b
  | none, none => .error .databaseCorruptionError

/-- `_read_best_meta`. -/
def readBestMeta (crc32 : Bytes → ℕ) (f : File) : Except PyError Meta := do
  let first ← readSlot crc32 f 0
  let second ← readSlot crc32 f 1
  bestOf first second

/-- The packed body of a meta block. -/
def metaBody (m : Meta) : Except PyError Bytes := do
  let txnId ← packUnsigned 8 m.txnId
  let rootAddress ← packUnsigned 8 m.rootAddress
  let keyCount ← packUnsigned 8 m.keyCount
  let dataLength ← packUnsigned 8 m.dataLength
  return magic ++ packBE 4 formatVersion ++ txnId ++ rootAddress ++ keyCount ++ dataLength

/-- The block `_write_slot` writes: body, checksum and padding. -/
def metaBlock (crc32 : Bytes → ℕ) (m : Meta) : Except PyError Bytes := do
  let body ← metaBody m
  return body ++ packBE 4 (crc crc32 body) ++
    List.replicate (metaSlotSize - (metaBodyBytes + metaCrcBytes)) 0

/-- `_write_slot`. -/
def writeSlot (crc32 : Bytes → ℕ) (index : ℕ) (m : Meta) : Py Disk Unit := fun d =>
  match metaBlock crc32 m with
  | .ok block => .ok () (d.push (.write (index * metaSlotSize) block))
  | .error e => .error e d

/-- `flush`. -/
def flush : Py Disk Unit := modify (·.push .flush)

/-- `_init_meta`. -/
def initMeta (crc32 : Bytes → ℕ) : Py Disk Meta := do
  writeSlot crc32 0 ⟨0, 0, 0, superblockSize, 0⟩
  writeSlot crc32 1 ⟨0, 0, 0, superblockSize, 1⟩
  modify (·.push (.truncate superblockSize))
  flush
  return ⟨0, 0, 0, superblockSize, 0⟩

/-- The recovery of `_ensure_meta` on an existing file: what lies beyond the durable
length of the adopted meta block is cut off. -/
def recover (crc32 : Bytes → ℕ) : Py Disk Meta := fun d =>
  match readBestMeta crc32 d.live with
  | .error e => .error e d
  | .ok m =>
    if m.dataLength < d.live.size then .ok m ((d.push (.truncate m.dataLength)).push .flush)
    else .ok m d

/-- `_ensure_meta`. -/
def ensureMeta (crc32 : Bytes → ℕ) : Py Disk Meta := do
  let d ← get
  if d.live.size < superblockSize then initMeta crc32 else recover crc32

/-! ## Records -/

/-- The header of a record. -/
def recordHeader (crc32 : Bytes → ℕ) (payload : Bytes) : Except PyError Bytes := do
  let length ← packUnsigned 4 payload.length
  return length ++ packBE 4 (crc crc32 payload)

/-- `write`: header and payload are written one after the other at the end of the
file. -/
def write (crc32 : Bytes → ℕ) (payload : Bytes) : Py Disk ℕ := fun d =>
  match recordHeader crc32 payload with
  | .error e => .error e d
  | .ok header =>
    let address := max d.live.size superblockSize
    .ok address
      ((d.push (.write address header)).push (.write (address + recordHeaderBytes) payload))

/-- `read`. -/
def read (crc32 : Bytes → ℕ) (f : File) (address : ℕ) : Except PyError Bytes :=
  let header := f.read address recordHeaderBytes
  let payload := f.read (address + recordHeaderBytes) (unpackBE (header.take 4))
  if address = 0 then .error .databaseCorruptionError
  else if header.length ≠ recordHeaderBytes then .error .databaseCorruptionError
  else if payload.length ≠ unpackBE (header.take 4) then .error .databaseCorruptionError
  else if crc crc32 payload ≠ unpackBE (header.drop 4) then .error .databaseCorruptionError
  else .ok payload

end Storage
