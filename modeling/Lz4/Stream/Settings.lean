import Lz4.Block.Compress

/-!
# Settings of a block stream

A block stream is a sequence of chunks, each compressed to a block whose matches may reach back into
the chunks before it. Both sides remember the same last 64 KiB. Each block may be written with its
length in front, as a record, so that a sequence of records can be split apart again.
-/

namespace Lz4.Stream

/-- The field in front of a block that holds its length. -/
inductive LengthField where
  | none
  | oneByte
  | twoBytes
  | fourBytes
  deriving Repr, DecidableEq, Inhabited

namespace LengthField

/-- The size of the field. -/
def width : LengthField → Nat
  | none => 0
  | oneByte => 1
  | twoBytes => 2
  | fourBytes => 4

/-- The longest block whose length the field can hold, if there is a field. -/
def maxLength? : LengthField → Option Nat
  | none => Option.none
  | field => some ((1 <<< (8 * field.width)) - 1)

/-- Why a block of this length cannot be written behind the field, if it cannot. -/
def problem? (field : LengthField) (length : Nat) : Option Error :=
  match field.maxLength? with
  | Option.none => Option.none
  | some largest => if largest < length then some (.bufferTooSmall length largest) else Option.none

end LengthField

/-- The longest chunk unless another length is set. -/
def defaultChunkLimit : Nat := 64 * 1024

/-- What the two sides of a stream have to agree on, but for the mode, which only the compressing
side looks at. -/
structure Settings where
  chunkLimit : Nat := defaultChunkLimit
  mode : Block.Mode := .standard
  lengthField : LengthField := .none
  deriving Repr, DecidableEq, Inhabited

namespace Settings

/-- Why no stream can be opened with these settings, if there is a reason. -/
def problem? (settings : Settings) : Option Error :=
  if settings.chunkLimit = 0 then some (.invalidArgument .noBuffer)
  else if Block.maxInputSize < settings.chunkLimit then some (.invalidArgument .bufferTooLarge)
  else none

/-- Why a chunk of this length is refused, if it is. -/
def chunkProblem? (settings : Settings) (length : Nat) : Option Error :=
  if settings.chunkLimit < length then some (.chunkTooLarge length settings.chunkLimit) else none

end Settings

/-- The last bytes of a stream that matches can still refer to, after more data. What makes room is
dropped from the front before the data are added; data that fill a window replace it. -/
def extendWindow (window data : Bytes) : Bytes :=
  if data.size < Block.windowSize then
    window.dropFirst (window.size + data.size - Block.windowSize) ++ data
  else data.takeLast Block.windowSize

end Lz4.Stream
