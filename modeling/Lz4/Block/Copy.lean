import Lz4.Error
import Lz4.Block.Limits

/-!
# Copying a match

A match is copied to the end of the output from a place that lies a distance before it. The
history is a byte string that the output continues, so the place may lie in the history. Source
and target overlap when the match is longer than the distance; then the last bytes are repeated.

`copyMatch` chooses the fastest way for each distance: bytes of the history are appended at once,
a run of one byte is filled in, a match without overlap is appended at once, short periods are
laid out sixteen bytes at a time, and whatever remains is copied byte by byte. `appendMatch` refuses
a match that has no place to be copied from.
-/

namespace Lz4.Block

/-- Why a match at this distance cannot be copied, given how many bytes there are before it. -/
def distanceFault (available distance : Nat) : Option Corruption :=
  if distance = 0 then some .zeroOffset
  else if available < distance then some .offsetOutOfWindow
  else none

/-- Appends the byte at the given distance from the end, `length` times. -/
def copyBytewise (output : Bytes) (distance : Nat) : Nat → Bytes
  | 0 => output
  | length + 1 =>
    let byte := output.byteAt (output.size - distance)
    copyBytewise (output.push byte) distance length

/-- Appends `tile` a number of times. -/
def appendTiles (output tile : Bytes) : Nat → Bytes
  | 0 => output
  | count + 1 => appendTiles (output ++ tile) tile count

/-- Appends `length` bytes of the endless repetition of the last `distance` bytes, by tiles of
sixteen bytes. The distance must divide sixteen. -/
def copyTiled (output : Bytes) (distance length : Nat) : Bytes :=
  let period := output.takeLast distance
  let tile := appendTiles #[] period (16 / distance)
  let output := appendTiles output tile (length / 16)
  output ++ tile.extract 0 (length % 16)

/-- Copies a match that starts inside the output. -/
def copyWithin (output : Bytes) (distance length : Nat) : Bytes :=
  if distance = 1 then
    let byte := output.byteAt (output.size - 1)
    output ++ Array.replicate length byte
  else if length ≤ distance then
    let start := output.size - distance
    let copied := output.extract start (start + length)
    output ++ copied
  else if distance = 2 ∨ distance = 4 ∨ distance = 8 then
    copyTiled output distance length
  else
    copyBytewise output distance length

/-- Copies a match that is in reach to the end of the output, which continues the history. -/
def copyMatch (history output : Bytes) (distance length : Nat) : Bytes :=
  if distance ≤ output.size then
    copyWithin output distance length
  else
    let before := distance - output.size
    let start := history.size - before
    let count := min before length
    let output := output ++ history.extract start (start + count)
    if count < length then copyWithin output distance (length - count) else output

/-- Appends a match to the output, which continues the history. If there is nothing at that
distance, the output stays as it is, and the first component tells why. -/
def appendMatch (history output : Bytes) (distance length : Nat) : Option Corruption × Bytes :=
  match distanceFault (history.size + output.size) distance with
  | some reason => (some reason, output)
  | none => (none, copyMatch history output distance length)

end Lz4.Block
