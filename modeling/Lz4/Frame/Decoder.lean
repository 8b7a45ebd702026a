import Lz4.Frame.Header
import Lz4.Block.Compress

/-!
# The state of a decoder

A decoder collects the bytes of the next record of its frame: the header, a block length, a block
or the content checksum. This module holds what a decoder knows between two bytes, what can be
asked of it, and how it is set up.
-/

namespace Lz4.Frame

open Checksum (Hasher)

/-- What a decoder is waiting for. -/
inductive Stage where
  | header
  | blockLength
  | block (stored : Bool) (size : Nat)
  | contentChecksum
  /-- The rest of a skippable frame. -/
  | skip (remaining : Nat)
  | complete
  deriving Repr, DecidableEq, Inhabited

/-- What stays the same from one frame to the next unless it is set anew. -/
structure Options where
  /-- The dictionary with which frames were compressed. -/
  dictionary : Bytes := #[]
  /-- Whether content checksums are compared. Block checksums always are. -/
  verifyContent : Bool := true
  /-- Whether data after the end of a frame are left alone instead of being refused. -/
  stopAtFrameEnd : Bool := false
  deriving Repr, DecidableEq, Inhabited

/-- The state of a decoder: its options, what it waits for, the header once it is known, the bytes
of the record that is being collected, the number of bytes taken in since the start of the frame,
the last 64 KiB of content if blocks may refer to it, the checksum of the content if it will be
compared, the size of the content so far, and a buffer in which blocks are expanded. -/
structure Decoder where
  options : Options
  stage : Stage
  header : Option Header
  pending : Bytes
  position : Nat
  window : Bytes
  hasher : Option Hasher
  decoded : Nat
  buffer : Bytes

namespace Decoder

/-- A decoder at the start of its first frame. -/
def ofOptions (options : Options) : Decoder where
  options := options
  stage := .header
  header := none
  pending := #[]
  position := 0
  window := #[]
  hasher := none
  decoded := 0
  buffer := #[]

/-- A decoder with default options. -/
def new : Decoder := ofOptions {}

/-- Forgets the present frame and gets ready for the next. The options stay, and what is in the
buffer stays there until the next block is expanded. -/
def reset (decoder : Decoder) : Decoder :=
  { decoder with
    stage := .header
    header := none
    pending := #[]
    position := 0
    window := #[]
    hasher := none
    decoded := 0 }

/-- Sets whether content checksums are compared, from the next frame on. -/
def verifyContent (decoder : Decoder) (verify : Bool) : Decoder :=
  { decoder with options := { decoder.options with verifyContent := verify } }

/-- Sets whether data after the end of a frame are left alone. -/
def stopAtFrameEnd (decoder : Decoder) (stop : Bool) : Decoder :=
  { decoder with options := { decoder.options with stopAtFrameEnd := stop } }

/-- Sets the dictionary, of which the last 64 KiB count. Independent blocks refer to it from the
next block on, linked ones from the next frame on. -/
def setDictionary (decoder : Decoder) (dictionary : Bytes) : Decoder :=
  { decoder with
    options := { decoder.options with dictionary := Block.dictionaryWindow dictionary } }

/-- A decoder with other bytes in its buffer. -/
abbrev withBuffer (decoder : Decoder) (buffer : Bytes) : Decoder :=
  { decoder with buffer := buffer }

/-- Whether the end of the frame was reached. -/
def isComplete (decoder : Decoder) : Bool := decoder.stage == .complete

/-- Whether the header announces a property; it does not before it is known. -/
def announces (decoder : Decoder) (property : Header → Bool) : Bool := decoder.header.any property

/-- The largest number of bytes that a block of the frame has. -/
def blockLimit (decoder : Decoder) : Nat := decoder.header.elim 0 (·.blockSize.bytes)

/-- Whether a record is being collected: the frame has not ended, and its content is not passed
over. -/
def collects (decoder : Decoder) : Bool :=
  match decoder.stage with
  | .skip _ => false
  | .complete => false
  | _ => true

/-- How many bytes the record has that is being collected. -/
def required (decoder : Decoder) : Except Error Nat :=
  match decoder.stage with
  | .header => Header.requiredSize decoder.pending
  | .blockLength => .ok 4
  | .contentChecksum => .ok 4
  | .block _ size => .ok (if decoder.announces (·.blockChecksums) then size + 4 else size)
  | .skip _ => .ok 0
  | .complete => .ok 0

/-- How many more bytes are needed before something can happen. Who feeds no more than so many at
a time feeds nothing from beyond the end of the frame. -/
def inputHint (decoder : Decoder) : Nat :=
  match decoder.stage with
  | .complete => 0
  | .skip remaining => remaining
  | _ =>
    let required := match decoder.required with
      | .ok size => size
      | .error _ => 1
    required - decoder.pending.size

/-- Begins the frame of a header. -/
def start (decoder : Decoder) (header : Header) : Decoder :=
  match header.kind with
  | .skippable _ =>
    { decoder with
      stage := .skip (header.contentSize.elim 0 (·.toNat))
      header := some header
      pending := #[] }
  | .data =>
    { decoder with
      stage := .blockLength
      header := some header
      pending := #[]
      window := if header.independentBlocks then #[] else decoder.options.dictionary
      hasher := if header.contentChecksum && decoder.options.verifyContent then some .new else none
      decoded := 0 }

end Decoder

end Lz4.Frame
