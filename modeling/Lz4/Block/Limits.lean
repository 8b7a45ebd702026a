/-!
# Limits of the block format

The numbers that the block format fixes, and the worst-case size of a compressed block.
-/

namespace Lz4.Block

/-- The longest input that a single block can represent. -/
def maxInputSize : Nat := 0x7E000000

/-- How far back a decoder has to remember. -/
def windowSize : Nat := 64 * 1024

/-- The largest distance a match may have. -/
def maxDistance : Nat := windowSize - 1

/-- The length of the shortest match. -/
def minMatch : Nat := 4

/-- The last bytes of a block, this many, are always literals. -/
def lastLiterals : Nat := 5

/-- No match starts within this many bytes of the end of a block. -/
def endMargin : Nat := 12

/-- The largest acceleration; a larger one counts as this one. -/
def maxAcceleration : Nat := 65537

/-- A size that the block of `length` bytes does not exceed, unless there are too many bytes for a
block. -/
def compressBound (length : Nat) : Option Nat :=
  if length ≤ maxInputSize then some (length + length / 255 + 16) else none

end Lz4.Block
