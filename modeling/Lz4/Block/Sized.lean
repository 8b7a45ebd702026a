import Lz4.Block.Compress
import Lz4.Block.Decode

/-!
# Blocks behind their size

The simplest container for a single block: four bytes that hold the size of its content, then the
block. Empty content has no block, only its size.
-/

namespace Lz4.Block.Sized

/-- The size of the field in front. -/
def fieldSize : Nat := 4

/-- The largest size that is accepted. -/
def maxSize : Nat := (1 <<< 31) - 1

/-- Compresses an input behind a dictionary, with its size in front. -/
def compress (input dictionary : Bytes) (mode : Mode) : Except Error Bytes := do
  let field := Bytes.ofNat fieldSize input.size
  if input.isEmpty then
    return field
  let block ← Block.compress input dictionary mode
  return field ++ block

/-- Decodes a block with its size in front. The block must decode to exactly that many bytes. -/
def decode (data dictionary : Bytes) : Except Error Bytes := do
  if data.size < fieldSize then
    throw (.invalidArgument .sizeMissing)
  let size := data.natAt 0 fieldSize
  if maxSize < size then
    throw (.invalidArgument .sizeTooLarge)
  if size = 0 then
    return #[]
  let output ← (Block.decode (data.dropFirst fieldSize) dictionary size).mapError
    (Error.shifted fieldSize)
  if output.size ≠ size then
    throw (.corruptInput data.size .contentSizeMismatch)
  return output

end Lz4.Block.Sized
