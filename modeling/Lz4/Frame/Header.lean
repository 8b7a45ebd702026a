import Lz4.Checksum
import Lz4.Error

/-!
# Frame headers

A frame starts with a magic number. In a data frame a descriptor follows, which consists of a byte
of flags, a byte for the block size, and the content size and the dictionary id if the flags
announce them; the last byte of the header is a checksum of the descriptor. In a skippable frame
only the size of its data follows.
-/

namespace Lz4.Frame

/-- The magic number of data frames. -/
def magic : Nat := 0x184D2204

/-- The first of the sixteen magic numbers of skippable frames. -/
def skippableMagic : Nat := 0x184D2A50

/-- The size of a header of a data frame that announces nothing. -/
def minHeaderSize : Nat := 7

/-- The size of a header that announces a content size and a dictionary id. -/
def maxHeaderSize : Nat := 19

/-- The size of the header of a skippable frame. -/
def skippableHeaderSize : Nat := 8

/-- Whether a magic number is that of a skippable frame. -/
def isSkippable (magic : Nat) : Bool := magic / 16 == skippableMagic / 16

/-- How many bytes of content a block has at most. The standard size is that of `max64KB`; the two
are written alike. -/
inductive BlockSize where
  | standard
  | max64KB
  | max256KB
  | max1MB
  | max4MB
  deriving Repr, DecidableEq, Inhabited

namespace BlockSize

/-- The number that stands for a block size in a header. -/
def id : BlockSize → Nat
  | standard => 4
  | max64KB => 4
  | max256KB => 5
  | max1MB => 6
  | max4MB => 7

/-- The block size that a number in a header stands for. -/
def ofId? : Nat → Option BlockSize
  | 4 => some max64KB
  | 5 => some max256KB
  | 6 => some max1MB
  | 7 => some max4MB
  | _ => none

/-- The block size in bytes. -/
def bytes (size : BlockSize) : Nat := 1 <<< (2 * size.id + 8)

theorem bytes_pos (size : BlockSize) : 0 < size.bytes := by
  cases size <;> decide

/-- What a block size is read back as. -/
def readBack : BlockSize → BlockSize
  | standard => max64KB
  | size => size

theorem ofId?_id (size : BlockSize) : ofId? size.id = some size.readBack := by
  cases size <;> rfl

end BlockSize

/-- What the flags of a descriptor announce. -/
structure Flags where
  independentBlocks : Bool
  blockChecksums : Bool
  contentSize : Bool
  contentChecksum : Bool
  dictionaryId : Bool
  deriving Repr, DecidableEq

namespace Flags

/-- The version of the format, which shares a byte with the flags. -/
def version : UInt8 := 1

/-- The flags as a byte, the version in its two highest bits. -/
def toByte (flags : Flags) : UInt8 :=
  let bit (set : Bool) (value : UInt8) := if set then value else 0
  64 * version + bit flags.independentBlocks 32 + bit flags.blockChecksums 16
    + bit flags.contentSize 8 + bit flags.contentChecksum 4 + bit flags.dictionaryId 1

/-- Reads the flags. -/
def ofByte (byte : UInt8) : Except Corruption Flags :=
  if byte >>> 6 ≠ version then .error (.unsupportedVersion (byte >>> 6))
  else if byte &&& 2 ≠ 0 then .error .reservedBitsSet
  else
    let set (bit : UInt8) : Bool := byte &&& bit != 0
    .ok ⟨set 32, set 16, set 8, set 4, set 1⟩

/-- The size of the header that the flags announce. -/
def headerSize (flags : Flags) : Nat :=
  minHeaderSize + (if flags.contentSize then 8 else 0) + (if flags.dictionaryId then 4 else 0)

end Flags

/-- Reads the byte that holds the block size; its other bits have no meaning yet. -/
def blockSizeOfByte (byte : UInt8) : Except Corruption BlockSize :=
  if byte &&& 0x8F ≠ 0 then .error .reservedBitsSet
  else
    match BlockSize.ofId? (byte >>> 4).toNat with
    | some size => .ok size
    | none => .error (.invalidBlockSize (byte >>> 4))

/-- What a frame holds. -/
inductive Kind where
  /-- Compressed data. -/
  | data
  /-- Data that decoders pass over, under one of sixteen magic numbers. -/
  | skippable (nibble : Nat)
  deriving Repr, DecidableEq, Inhabited

/-- What a header tells about its frame. -/
structure Header where
  kind : Kind := .data
  blockSize : BlockSize := .standard
  independentBlocks : Bool := false
  blockChecksums : Bool := false
  contentChecksum : Bool := false
  contentSize : Option UInt64 := none
  dictionaryId : Option UInt32 := none
  deriving Repr, DecidableEq, Inhabited

namespace Header

/-- The announced content size, where an announced zero means that it is not known. -/
def knownContentSize (header : Header) : Option UInt64 := header.contentSize.filter (· ≠ 0)

/-- The flags of a header. -/
def flags (header : Header) : Flags where
  independentBlocks := header.independentBlocks
  blockChecksums := header.blockChecksums
  contentSize := header.contentSize.isSome
  contentChecksum := header.contentChecksum
  dictionaryId := header.dictionaryId.isSome

/-- The part of a header that its checksum covers. -/
def descriptor (header : Header) : Bytes :=
  #[header.flags.toByte, UInt8.ofNat (16 * header.blockSize.id)]
    ++ header.contentSize.elim #[] (fun size => Bytes.ofNat 8 size.toNat)
    ++ header.dictionaryId.elim #[] (fun id => Bytes.ofNat 4 id.toNat)

/-- The header of a data frame as it is written. -/
def encode (header : Header) : Bytes :=
  let descriptor := header.descriptor
  Bytes.ofNat 4 magic ++ descriptor ++ #[headerChecksum descriptor]

/-- How many bytes the header at the start of `data` has, as far as these bytes tell. The number
may grow as more bytes come in, and never shrinks. -/
def requiredSize (data : Bytes) : Except Error Nat :=
  if data.size < 4 then .ok 4
  else
    let found := data.natAt 0 4
    if isSkippable found then .ok skippableHeaderSize
    else if found ≠ magic then .error (.corruptInput 0 (.wrongMagic (UInt32.ofNat found)))
    else if data.size < 5 then .ok minHeaderSize
    else
      match Flags.ofByte (data.byteAt 4) with
      | .error reason => .error (.corruptInput 4 reason)
      | .ok flags => .ok flags.headerSize

/-- Reads the header of a skippable frame, given that all of it is there. -/
def ofSkippable (data : Bytes) : Header where
  kind := .skippable (data.natAt 0 4 % 16)
  contentSize := some (data.word 4 4)

/-- Reads the header of a data frame, given that all of it is there. -/
def ofDescriptor (data : Bytes) : Except Error Header :=
  match Flags.ofByte (data.byteAt 4) with
  | .error reason => .error (.corruptInput 4 reason)
  | .ok flags =>
    match blockSizeOfByte (data.byteAt 5) with
    | .error reason => .error (.corruptInput 5 reason)
    | .ok blockSize =>
      let afterSize := if flags.contentSize then 14 else 6
      let stop := if flags.dictionaryId then afterSize + 4 else afterSize
      if headerChecksum (data.extract 4 stop) ≠ data.byteAt stop then
        .error (.corruptInput stop .headerChecksum)
      else
        .ok {
          kind := .data
          blockSize := blockSize
          independentBlocks := flags.independentBlocks
          blockChecksums := flags.blockChecksums
          contentChecksum := flags.contentChecksum
          contentSize := if flags.contentSize then some (data.word 6 8) else none
          dictionaryId :=
            if flags.dictionaryId then some (data.word afterSize 4).toUInt32 else none }

/-- Reads the header at the start of `data`. The second component is its size. -/
def parse (data : Bytes) : Except Error (Header × Nat) :=
  match requiredSize data with
  | .error error => .error error
  | .ok size =>
    if data.size < size then .error (.corruptInput data.size .truncated)
    else if isSkippable (data.natAt 0 4) then .ok (ofSkippable data, size)
    else (ofDescriptor data).map fun header => (header, size)

theorem four_le_of_requiredSize {data : Bytes} {size : Nat}
    (required : requiredSize data = .ok size) : 4 ≤ size := by
  unfold requiredSize at required
  split at required
  · cases required
    exact Nat.le_refl _
  · extract_lets found at required
    split at required
    · cases required
      decide
    · split at required
      · cases required
      · split at required
        · cases required
          decide
        · split at required
          · cases required
          · cases required
            simp only [Flags.headerSize, minHeaderSize]
            omega

/-- A header that was read lies within the data, and is at least as long as its magic number. -/
theorem size_of_parse {data : Bytes} {header : Header} {size : Nat}
    (parsed : parse data = .ok (header, size)) : 4 ≤ size ∧ size ≤ data.size := by
  unfold parse at parsed
  split at parsed
  · cases parsed
  · rename_i required
    have long := four_le_of_requiredSize required
    split at parsed
    · cases parsed
    · rename_i enough
      have within := Nat.le_of_not_lt enough
      split at parsed
      · simp only [Except.ok.injEq, Prod.mk.injEq] at parsed
        obtain ⟨-, rfl⟩ := parsed
        exact ⟨long, within⟩
      · cases described : ofDescriptor data with
        | error error => simp [described, Except.map] at parsed
        | ok found =>
          simp only [described, Except.map, Except.ok.injEq, Prod.mk.injEq] at parsed
          obtain ⟨-, rfl⟩ := parsed
          exact ⟨long, within⟩

end Header

end Lz4.Frame
