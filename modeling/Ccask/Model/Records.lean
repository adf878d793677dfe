import Ccask.Model.Vectored

/-!
# Records and their checksum (records.c, utils.c)

Headers are stored big-endian. The checksum runs over the header fields in the order
of the host, which is taken to be little-endian, and over key and value. zlib is a
parameter: `crc32` continues a checksum over some bytes.
-/

namespace Ccask.Model

open Ccask.Effect

/-- zlib's `crc32` on a buffer that is not NULL. -/
class Zlib where
  crc32 : UInt32 → Bytes → UInt32

section Crc

def crcBit (c : UInt32) : UInt32 := if c &&& 1 = 1 then (c >>> 1) ^^^ 0xEDB88320 else c >>> 1

def crcByte (c : UInt32) (b : UInt8) : UInt32 :=
  let c := c ^^^ b.toUInt32
  crcBit (crcBit (crcBit (crcBit (crcBit (crcBit (crcBit (crcBit c)))))))

/-- The checksum zlib documents. Only results on fixed inputs use it. -/
@[reducible] def zlib : Zlib where
  crc32 crc buf := ~~~(buf.foldl crcByte (~~~crc))

example : zlib.crc32 0 [0x31, 0x32, 0x33, 0x34, 0x35, 0x36, 0x37, 0x38, 0x39] = 0xCBF43926 := by
  decide +kernel

end Crc

def be32 (v : UInt32) : Bytes :=
  [UInt8.ofNat (v.toNat / 2 ^ 24), UInt8.ofNat (v.toNat / 2 ^ 16), UInt8.ofNat (v.toNat / 2 ^ 8),
    UInt8.ofNat v.toNat]

/-- `read_be32` at the start of a buffer. -/
def readBe32 (b : Bytes) : UInt32 :=
  match b with
  | b₀ :: b₁ :: b₂ :: b₃ :: _ =>
    UInt32.ofNat (b₀.toNat * 2 ^ 24 + b₁.toNat * 2 ^ 16 + b₂.toNat * 2 ^ 8 + b₃.toNat)
  | _ => 0

def be64 (v : UInt64) : Bytes :=
  be32 (UInt32.ofNat (v.toNat / 2 ^ 32)) ++ be32 (UInt32.ofNat v.toNat)

def readBe64 (b : Bytes) : UInt64 :=
  UInt64.ofNat ((readBe32 b).toNat * 2 ^ 32 + (readBe32 (b.drop 4)).toNat)

/-- The bytes of an integer in memory. -/
def native32 (v : UInt32) : Bytes := (be32 v).reverse

def datafileRecordHeaderSize : Nat := 16

def hintfileRecordHeaderSize : Nat := 20

/-- `ccask_datafile_record_header_t`. -/
structure DatafileRecordHeader where
  crc : UInt32
  timestamp : UInt32
  keySize : UInt32
  valueSize : UInt32
  deriving DecidableEq, Repr

/-- `ccask_hintfile_record_t`: the two buffers. -/
structure HintfileRecord where
  header : Bytes
  key : Bytes
  deriving DecidableEq, Repr

/-- `ccask_hintfile_record_header_t`. -/
structure HintfileRecordHeader where
  timestamp : UInt32
  keySize : UInt32
  valueSize : UInt32
  recordPos : UInt64
  deriving DecidableEq, Repr

section Checksum

variable [Zlib]

/-- `crc32(crc, buf, len)`: 0 for NULL, and no defined result past the end of the buffer. -/
def zlibCrc32 (crc : UInt32) (buf : Option Bytes) (len : UInt32) : Option UInt32 :=
  match buf with
  | none => some 0
  | some b => if len.toNat ≤ b.length then some (Zlib.crc32 crc (b.take len.toNat)) else none

/-- `calculate_crc32`; `none` when it reads past a buffer. -/
def calculateCrc32 (timestamp keySize valueSize : UInt32) (key value : Option Bytes) :
    Option UInt32 := do
  let crc ← zlibCrc32 0 (some (native32 timestamp)) 4
  let crc ← zlibCrc32 crc (some (native32 keySize)) 4
  let crc ← zlibCrc32 crc (some (native32 valueSize)) 4
  let crc ← zlibCrc32 crc key keySize
  zlibCrc32 crc value valueSize

end Checksum

/-- One `malloc`: whether it gives memory. A request for no bytes gives a pointer as well. -/
def malloc : Sys Bool := do
  match ← Prog.call with
  | .done _ | .intr => pure true
  | .transient | .fail => pure false

/-- `n` buffers, one after another, as the allocation loops of records.c take them. -/
def mallocAll : Nat → Sys Status
  | 0 => pure (.ok ())
  | n + 1 => do
    if ← malloc then mallocAll n else pure (.fail (some .noMemory))

/-- A buffer fresh from `malloc`, whose bytes nobody reads before they are stored. -/
def freshBuf (len : UInt32) : Bytes := List.replicate len.toNat 0

def ccaskAllocateDatafileRecord (keySize valueSize : UInt32) : Sys (Res DatafileRecord) := do
  match ← mallocAll 3 with
  | .ok () => pure (.ok ⟨List.replicate datafileRecordHeaderSize 0, freshBuf keySize, freshBuf valueSize⟩)
  | .fail e => pure (.fail e)
  | .retry e => pure (.retry e)

/-- The size that is passed along with a pointer. -/
def Ptr.size (p : Ptr) : UInt32 := UInt32.ofNat p.bytes.length

def ccaskCreateDatafileRecord [Zlib] (timestamp : UInt32) (key value : Ptr) :
    Sys (Res DatafileRecord) := do
  match calculateCrc32 timestamp key.size value.size (key.map Subtype.val) (value.map Subtype.val) with
  | none => Prog.block
  | some crc =>
    match ← ccaskAllocateDatafileRecord key.size value.size with
    | .ok _ =>
      pure (.ok ⟨be32 crc ++ be32 timestamp ++ be32 key.size ++ be32 value.size, key.bytes, value.bytes⟩)
    | .fail e => pure (.fail e)
    | .retry e => pure (.retry e)

def ccaskGetDatafileRecordHeader (record : DatafileRecord) : DatafileRecordHeader :=
  ⟨readBe32 record.header, readBe32 (record.header.drop 4), readBe32 (record.header.drop 8),
    readBe32 (record.header.drop 12)⟩

def ccaskGetDatafileRecordTotalSize (record : DatafileRecord) : Nat :=
  record.header.length + record.key.length + record.value.length

/-- The three segments handed to `safe_writev` and `safe_preadv`. -/
def DatafileRecord.iov (record : DatafileRecord) : List Iovec :=
  [.of record.header, .of record.key, .of record.value]

/-- The record as it stands in a file. -/
def DatafileRecord.bytes (record : DatafileRecord) : Bytes :=
  record.header ++ record.key ++ record.value

/-- What `iov_base` of a record holds: NULL, a buffer, or a pointer that was never set or whose buffer has
been freed. -/
inductive IovBase where
  | null
  | buffer
  | dangling
  deriving DecidableEq, Repr

/-- The two pointers of a `ccask_hintfile_record_t`. -/
structure HintfileBuffers where
  header : IovBase
  key : IovBase
  deriving DecidableEq, Repr

/-- A record whose pointers nothing has set. -/
def HintfileBuffers.unset : HintfileBuffers := ⟨.dangling, .dangling⟩

/-- The pointer after `if (iov_base) free(iov_base)`. -/
def IovBase.freed : IovBase → IovBase
  | .null => .null
  | .buffer | .dangling => .dangling

/-- `free_hintfile_record`, with the pointers it leaves. To free a dangling pointer is the end of the
process. -/
def freeHintfileRecord (buffers : HintfileBuffers) : Sys HintfileBuffers :=
  if buffers.header = .dangling ∨ buffers.key = .dangling then Prog.block
  else pure ⟨buffers.header.freed, buffers.key.freed⟩

/-- The pointers are taken one after another. When the first `malloc` is refused the second pointer keeps
what it held. -/
def ccaskAllocateHintfileRecord (keySize : UInt32) (buffers : HintfileBuffers) :
    Sys (Res HintfileRecord × HintfileBuffers) := do
  if ← malloc then
    if ← malloc then
      pure (.ok ⟨List.replicate hintfileRecordHeaderSize 0, freshBuf keySize⟩, ⟨.buffer, .buffer⟩)
    else pure (.fail (some .noMemory), ⟨.buffer, .null⟩)
  else pure (.fail (some .noMemory), { buffers with header := .null })

/-- The key is copied from a buffer of at least `keySize` bytes. -/
def ccaskCreateHintfileRecord (timestamp keySize valueSize : UInt32) (recordPos : UInt64)
    (key : Bytes) (buffers : HintfileBuffers) : Sys (Res HintfileRecord × HintfileBuffers) := do
  match ← ccaskAllocateHintfileRecord keySize buffers with
  | (.ok _, buffers) =>
    pure (.ok ⟨be32 timestamp ++ be32 keySize ++ be32 valueSize ++ be64 recordPos,
      key.take keySize.toNat⟩, buffers)
  | (.fail e, buffers) => pure (.fail e, buffers)
  | (.retry e, buffers) => pure (.retry e, buffers)

def ccaskGetHintfileRecordHeader (record : HintfileRecord) : HintfileRecordHeader :=
  ⟨readBe32 record.header, readBe32 (record.header.drop 4), readBe32 (record.header.drop 8),
    readBe64 (record.header.drop 12)⟩

def HintfileRecord.iov (record : HintfileRecord) : List Iovec := [.of record.header, .of record.key]

def HintfileRecord.bytes (record : HintfileRecord) : Bytes := record.header ++ record.key

section Lemmas

@[simp] theorem length_be32 (v : UInt32) : (be32 v).length = 4 := rfl

@[simp] theorem length_be64 (v : UInt64) : (be64 v).length = 8 := rfl

@[simp] theorem length_native32 (v : UInt32) : (native32 v).length = 4 := rfl

@[simp] theorem readBe32_be32 (v : UInt32) (rest : Bytes) : readBe32 (be32 v ++ rest) = v := by
  have hv := v.toNat_lt
  simp only [be32, readBe32, List.cons_append, UInt8.toNat_ofNat']
  rw [← UInt32.toNat_inj, UInt32.toNat_ofNat']
  omega

@[simp] theorem readBe32_be32_self (v : UInt32) : readBe32 (be32 v) = v := by
  simpa using readBe32_be32 v []

@[simp] theorem drop_be32 (v : UInt32) (rest : Bytes) : (be32 v ++ rest).drop 4 = rest :=
  List.drop_left' rfl

@[simp] theorem drop_be32_8 (v v' : UInt32) (rest : Bytes) :
    (be32 v ++ (be32 v' ++ rest)).drop 8 = rest := by
  rw [← List.append_assoc]
  exact List.drop_left' rfl

@[simp] theorem drop_be32_12 (v v' v'' : UInt32) (rest : Bytes) :
    (be32 v ++ (be32 v' ++ (be32 v'' ++ rest))).drop 12 = rest := by
  rw [← List.append_assoc, ← List.append_assoc]
  exact List.drop_left' rfl

/-- A position that fits into 64 bits is read back. -/
theorem readBe64_be64 (v : UInt64) (rest : Bytes) : readBe64 (be64 v ++ rest) = v := by
  have hv := v.toNat_lt
  have hd : (be64 v ++ rest).drop 4 = be32 (UInt32.ofNat v.toNat) ++ rest := by
    rw [be64, List.append_assoc, drop_be32]
  rw [readBe64, hd, be64, List.append_assoc, readBe32_be32, readBe32_be32, ← UInt64.toNat_inj,
    UInt64.toNat_ofNat', UInt32.toNat_ofNat', UInt32.toNat_ofNat']
  omega

@[simp] theorem readBe64_be64_self (v : UInt64) : readBe64 (be64 v) = v := by
  simpa using readBe64_be64 v []

theorem Ptr.toNat_size (p : Ptr) : p.size.toNat = p.bytes.length := by
  rw [Ptr.size, UInt32.toNat_ofNat']
  exact Nat.mod_eq_of_lt p.length_lt

theorem freeHintfileRecord_set {buffers : HintfileBuffers} (hheader : buffers.header ≠ .dangling)
    (hkey : buffers.key ≠ .dangling) :
    freeHintfileRecord buffers = pure ⟨buffers.header.freed, buffers.key.freed⟩ :=
  if_neg fun h => h.elim hheader hkey

@[simp] theorem length_freshBuf (n : UInt32) : (freshBuf n).length = n.toNat := by
  simp [freshBuf]

end Lemmas

end Ccask.Model
