import Lz4.Checksum
import Lz4.Frame.Settings
import Lz4.Stream.Compressor

/-!
# Block records

The blocks of a frame are records: a length of four bytes, whose highest bit tells that the bytes
are stored as they are, the bytes, and their checksum if the frame has one for each block. A
length of zero marks the end of the frame.

A block is stored when its compressed form is longer, so a record never holds more bytes than the
block has.
-/

namespace Lz4.Frame

/-- The bit of a length that tells that a block is stored. -/
def storedBit : Nat := 1 <<< 31

/-- The record that ends a frame. -/
def endMark : Bytes := Bytes.ofNat 4 0

/-- The record of a block. -/
def record (header : Header) (stored : Bool) (payload : Bytes) : Bytes :=
  Bytes.ofNat 4 (payload.size + (if stored then storedBit else 0)) ++ payload
    ++ (if header.blockChecksums then Bytes.ofNat 4 (checksum payload).toNat else #[])

/-- Compresses a block to its record. The compressor is given as much room as the block takes
itself; when that does not suffice the block is stored. -/
def compressRecord (header : Header) (block : Bytes) (stream : Stream.Compressor) :
    Bytes × Stream.Compressor :=
  let stream := if header.independentBlocks then stream.reset else stream
  match stream.compressBlock block block.size with
  | (.ok payload, stream) => (record header false payload, stream)
  | (.error _, stream) => (record header true block, stream)

/-- The blocks of a frame in the making: the stream that compresses them, the bytes that do not
fill a block yet, and the records written so far. -/
structure RecordWriter where
  stream : Stream.Compressor
  pending : Bytes
  written : Bytes

namespace RecordWriter

/-- Writes a block. -/
def writeBlock (header : Header) (writer : RecordWriter) (block : Bytes) : RecordWriter :=
  match writer with
  | ⟨stream, pending, written⟩ =>
    let (record, stream) := compressRecord header block stream
    ⟨stream, pending, written ++ record⟩

/-- Writes what is pending as a block, unless that is nothing. -/
def flush (header : Header) (writer : RecordWriter) : RecordWriter :=
  match writer with
  | ⟨stream, pending, written⟩ =>
    if pending.isEmpty then ⟨stream, pending, written⟩
    else writeBlock header ⟨stream, #[], written⟩ pending

/-- Takes in the data from a position on when nothing is pending. Full blocks are written straight
from the data, and what does not fill a block waits. -/
def appendBlocks (header : Header) (data : Bytes) (pos : Nat) (writer : RecordWriter) :
    RecordWriter :=
  let stop := pos + header.blockSize.bytes
  if stop ≤ data.size then
    appendBlocks header data stop (writer.writeBlock header (data.extract pos stop))
  else
    match writer with
    | ⟨stream, pending, written⟩ => ⟨stream, pending ++ data.extract pos data.size, written⟩
termination_by data.size - pos
decreasing_by
  have positive := header.blockSize.bytes_pos
  omega

/-- Takes in data, and writes the blocks that they fill. If a block is pending, the data fill it
first. -/
def append (header : Header) (writer : RecordWriter) (data : Bytes) : RecordWriter :=
  match writer with
  | ⟨stream, pending, written⟩ =>
    if pending.isEmpty then appendBlocks header data 0 ⟨stream, pending, written⟩
    else
      let limit := header.blockSize.bytes
      let taken := min (limit - pending.size) data.size
      let pending := pending ++ data.extract 0 taken
      let writer : RecordWriter := ⟨stream, pending, written⟩
      appendBlocks header data taken (if pending.size = limit then writer.flush header else writer)

end RecordWriter

end Lz4.Frame
