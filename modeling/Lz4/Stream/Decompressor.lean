import Lz4.Block.Decode
import Lz4.Stream.Settings

/-!
# The decompressing side of a stream

A decompressor remembers the last 64 KiB that it decoded. It has to be given the blocks of a
stream in the order in which they were made. A block that is refused leaves it as it was.
-/

namespace Lz4.Stream

/-- The state of the decompressing side. -/
structure Decompressor where
  settings : Settings
  dictionary : Bytes
  window : Bytes
  deriving Repr, DecidableEq

namespace Decompressor

/-- A decompressor with default settings. -/
def standard : Decompressor := ⟨{}, #[], #[]⟩

/-- Opens a stream. -/
def new (settings : Settings) : Except Error Decompressor :=
  match settings.problem? with
  | some error => .error error
  | none => .ok ⟨settings, #[], #[]⟩

/-- Starts over from a dictionary, of which the last 64 KiB count. -/
def setDictionary (decompressor : Decompressor) (dictionary : Bytes) : Decompressor :=
  let window := Block.dictionaryWindow dictionary
  { decompressor with dictionary := window, window := window }

/-- Forgets everything but the dictionary. -/
def reset (decompressor : Decompressor) : Decompressor :=
  { decompressor with window := decompressor.dictionary }

/-- Decodes a block, without its length in front, to at most `maxSize` bytes. -/
def decompressChunk (decompressor : Decompressor) (block : Bytes) (maxSize : Nat) :
    Except Error Bytes × Decompressor :=
  match decompressor.settings.chunkProblem? maxSize with
  | some error => (.error error, decompressor)
  | none =>
    match Block.decode block decompressor.window maxSize with
    | .error error => (.error error, decompressor)
    | .ok output =>
      (.ok output, { decompressor with window := extendWindow decompressor.window output })

/-- Splits the first record off: its block, and the number of bytes of the record. -/
def splitRecord (decompressor : Decompressor) (data : Bytes) : Except Error (Bytes × Nat) :=
  let width := decompressor.settings.lengthField.width
  if width = 0 then .error (.usage .noLengthField)
  else if data.size < width then .error (.corruptInput data.size .truncated)
  else
    let stop := width + data.natAt 0 width
    if data.size < stop then .error (.corruptInput data.size .truncated)
    else .ok (data.extract width stop, stop)

end Decompressor

end Lz4.Stream
