import Lz4.Block.Copy
import Lz4.Block.Sequence

/-!
# Decoding a block

A block is decoded sequence by sequence. Every length is checked against the data and the capacity
before anything is copied, and every refusal names the position at which it was noticed: a literal
run where the run starts, a match where its distance is stored, and a record that is cut short at
the end of the data, but for a distance, which is refused where it starts. What was decoded before
a refusal is kept.
-/

namespace Lz4.Block

/-- Output, and what stopped the decoder unless it reached the end of its block. -/
structure Decoded where
  output : Bytes
  fault : Option Error
  deriving Repr, DecidableEq

namespace Decoded

/-- The decoder stopped at an offset of its block. -/
def corrupt (output : Bytes) (offset : Nat) (reason : Corruption) : Decoded :=
  ⟨output, some (.corruptInput offset reason)⟩

/-- The output of a block that was decoded to its end. -/
def toExcept (decoded : Decoded) : Except Error Bytes :=
  match decoded.fault with
  | none => .ok decoded.output
  | some error => .error error

end Decoded

/-- Decodes the sequences from a position on, as long as the output does not grow beyond `limit`. -/
def decodeFrom (block history : Bytes) (limit pos : Nat) (output : Bytes) : Decoded :=
  if _inside : pos < block.size then
    let token := (block.byteAt pos).toNat
    match _literalsFound : Length.read block (pos + 1) (token / 16) with
    | .error error => ⟨output, some error⟩
    | .ok (literals, start) =>
      if block.size < start + literals then .corrupt output start .literalOverrun
      else if limit < output.size + literals then .corrupt output start .outputOverrun
      else
        let output := output ++ block.extract start (start + literals)
        let matchPos := start + literals
        if matchPos = block.size then ⟨output, none⟩
        else if block.size < matchPos + 2 then .corrupt output matchPos .truncated
        else
          let distance := block.natAt matchPos 2
          match _lengthFound : Length.read block (matchPos + 2) (token % 16) with
          | .error error => ⟨output, some error⟩
          | .ok (extra, next) =>
            let length := extra + minMatch
            if limit < output.size + length then .corrupt output matchPos .outputOverrun
            else
              match appendMatch history output distance length with
              | (some reason, output) => .corrupt output matchPos reason
              | (none, output) => decodeFrom block history limit next output
  else .corrupt output block.size .truncated
termination_by block.size - pos
decreasing_by
  have literalsAfter := Length.le_of_read _literalsFound
  have lengthAfter := Length.le_of_read _lengthFound
  omega

/-- Decodes a block, appending at most `capacity` bytes to the output. Matches may reach back
through the output to the start of the history. -/
def decodeOnto (block history output : Bytes) (capacity : Nat) : Decoded :=
  decodeFrom block history (output.size + capacity) 0 output

/-- Decodes a block of at most `capacity` bytes that continues the history. -/
def decode (block history : Bytes) (capacity : Nat) : Except Error Bytes :=
  (decodeOnto block history #[] capacity).toExcept

/-- Decodes a block to the start of a buffer. The result is the number of bytes written and the
buffer, whose other bytes stay as they were; a block that is refused leaves the buffer alone. -/
def decodeInto (block buffer : Bytes) : Except Error (Nat × Bytes) := do
  let decoded ← decode block #[] buffer.size
  return (decoded.size, decoded ++ buffer.dropFirst decoded.size)

end Lz4.Block
