import Lz4.Block.MatchTable
import Lz4.Block.Sequence

/-!
# Greedy compression

The greedy compressor asks a match table for an earlier occurrence of the bytes at its cursor and
takes the first that holds at least four bytes. While nothing is found the cursor moves ahead, in
strides that grow the longer nothing is found. A match is extended back over the literals before
it as long as the bytes agree.

The compressor writes as it goes. When the sink has no room for a piece, it stops there, with the
table as it is then.
-/

namespace Lz4.Block.Greedy

/-- How far the cursor moves after a miss, given the number of misses before it since the last
match: by the acceleration, and by one more with every 64 misses. The latest miss does not count
yet, nor does a first miss that moved the cursor by a single byte. -/
def stride (acceleration misses : Nat) : Nat :=
  acceleration + (misses - (if acceleration = 1 then 2 else 1)) / 64

/-- How many bytes from the cursor on repeat those from an earlier position on, up to the literals
that have to end the block. A position that is not before the cursor, or too far before it,
repeats nothing. -/
def repeated (input : Bytes) (cursor candidate : Nat) : Nat :=
  if candidate < cursor ∧ cursor - candidate ≤ maxDistance then
    input.commonFront cursor (input.size - lastLiterals) input candidate input.size
  else 0

/-- Compresses the bytes from `anchor` on, of which those up to `cursor` are known to be literals,
after `misses` misses. -/
@[specialize]
def scan {τ : Type} [MatchTable τ] (input : Bytes) (acceleration anchor cursor misses : Nat)
    (table : τ) (sink : Sink) : Compressed τ :=
  if _nearEnd : input.size < cursor + endMargin then
    let (sink, complete) := sink.writePieces (lastPieces (input.extract anchor input.size))
    ⟨sink, table, complete⟩
  else
    let (candidate, table) := MatchTable.exchange table input cursor
    let length := repeated input cursor candidate
    if _tooShort : length < minMatch then
      scan input acceleration anchor (cursor + max 1 (stride acceleration misses)) (misses + 1)
        table sink
    else
      let back := input.agreeBackward cursor candidate (cursor - anchor)
      let next := cursor + length
      let (_, table) := MatchTable.exchange table input (next - 2)
      let literals := input.extract anchor (cursor - back)
      let (sink, complete) :=
        sink.writePieces (sequencePieces literals ⟨cursor - candidate, length + back⟩)
      if complete then scan input acceleration next next 0 table sink else ⟨sink, table, false⟩
termination_by input.size - cursor
decreasing_by
  all_goals simp only [endMargin, minMatch] at *; omega

/-- Compresses the bytes from `cursor` on as one block; those before it are history that matches may
refer to. The table must have seen the history in this buffer, or nothing. Past the end of the
buffer there is nothing to compress, and nothing is written. -/
def compress {τ : Type} [MatchTable τ] (input : Bytes) (cursor acceleration : Nat) (table : τ)
    (sink : Sink) : Compressed τ :=
  if cursor ≤ input.size then scan input (max 1 acceleration) cursor cursor 0 table sink
  else ⟨sink, table, true⟩

end Lz4.Block.Greedy
