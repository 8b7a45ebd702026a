import Lz4.Frame.Header
import Lz4.Block.Compress

/-!
# Settings of a frame

How a frame is to be compressed, and how large it can become.
-/

namespace Lz4.Frame

/-- The lowest level on which the thorough compressor is used. -/
def minThoroughLevel : Int := 3

/-- The block mode for a level: the thorough compressor from its lowest level on, below that the
greedy one, which negative levels accelerate. -/
def modeOfLevel (level : Int) : Block.Mode :=
  if level < 0 then .fast level.natAbs
  else if level < minThoroughLevel then .standard
  else .high (Block.Thorough.clampLevel level)

/-- How a frame is to be compressed. -/
structure Settings where
  /-- Whether each block can be decoded without the ones before it. -/
  independentBlocks : Bool := true
  /-- Whether each block is followed by a checksum. -/
  blockChecksums : Bool := false
  /-- Whether the frame ends with a checksum of its content. -/
  contentChecksum : Bool := true
  blockSize : BlockSize := .standard
  level : Int := 0
  /-- Whether all data given to an encoder are written at once, instead of waiting for a block to be
  full. -/
  autoFlush : Bool := false
  /-- The content size to announce. Zero is announced, but stands for an unknown size. -/
  contentSize : Option UInt64 := none
  /-- Bytes that both sides know, and that matches may refer to. -/
  dictionary : Bytes := #[]
  /-- The number by which the other side knows which dictionary to use. -/
  dictionaryId : Option UInt32 := none
  deriving Repr, DecidableEq, Inhabited

namespace Settings

/-- Sets a dictionary and its id. -/
def withDictionary (settings : Settings) (id : UInt32) (dictionary : Bytes) : Settings :=
  { settings with dictionary := dictionary, dictionaryId := some id }

/-- The header of a frame with these settings. -/
def header (settings : Settings) : Header where
  kind := .data
  blockSize := settings.blockSize
  independentBlocks := settings.independentBlocks
  blockChecksums := settings.blockChecksums
  contentChecksum := settings.contentChecksum
  contentSize := settings.contentSize
  dictionaryId := settings.dictionaryId

/-- The largest size that is ever reported. -/
def maxReportedSize : Nat := UInt64.size - 1

/-- A size that the frame of `length` bytes does not exceed: the largest header, the content, for
each block its length and checksum, the end marker and the content checksum. -/
def frameBound (settings : Settings) (length : Nat) : Nat :=
  let blocks := length / settings.blockSize.bytes + 1
  let perBlock := if settings.blockChecksums then 8 else 4
  min (maxHeaderSize + length + blocks * perBlock + 8) maxReportedSize

end Settings

end Lz4.Frame
