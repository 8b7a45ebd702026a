import Lz4.Sink
import Lz4.Block.Limits

/-!
# Sequences

A block is a list of sequences. A sequence starts with a token, whose high half announces the
number of literals and whose low half the length of the match beyond the shortest. A half of
fifteen means that more bytes follow, which are added up until one of them is below 255. Then come
the literals, the distance of the match in two bytes and the rest of its length. The last sequence
ends with its literals.

A sequence is written as a list of pieces. A sink with a limit takes in each piece as a whole or
not at all, so the pieces say where a block may be cut short for lack of room.
-/

namespace Lz4.Block

/-- A run of bytes that occurred before: how far back it starts, and how long it is. -/
structure Match where
  distance : Nat
  length : Nat
  deriving Repr, DecidableEq

/-- A half of a token. -/
inductive Half where
  /-- The half for the number of literals. -/
  | high
  /-- The half for the length of the match. -/
  | low
  deriving Repr, DecidableEq

/-- How many bits of the token lie below a half. -/
def Half.shift : Half → UInt8
  | high => 4
  | low => 0

namespace Length

/-- The part of a length that the token holds. -/
def nibble (value : Nat) : Nat := min value 15

/-- Notes a length in a half of a token that is clear so far, as much of it as the half holds. -/
def note (token : UInt8) (half : Half) (value : Nat) : UInt8 :=
  token ||| UInt8.ofNat (nibble value) <<< half.shift

/-- What is left of a length after its nibble, in pieces of four full bytes while there are as many,
then of one full byte, and last the byte below 255 that ends the length. -/
def runPieces (rest : Nat) : List Bytes :=
  if 1020 ≤ rest then #[255, 255, 255, 255] :: runPieces (rest - 1020)
  else if 255 ≤ rest then #[255] :: runPieces (rest - 255)
  else [#[UInt8.ofNat rest]]
termination_by rest
decreasing_by all_goals omega

/-- The bytes that follow when the nibble does not hold the whole length. -/
def pieces (value : Nat) : List Bytes := if value < 15 then [] else runPieces (value - 15)

/-- Adds up the bytes from a position on, to the first that is below 255. The second component is
the position after it. Data that end first are refused at their end. -/
def readRun (data : Bytes) (pos : Nat) (sum : Nat) : Except Error (Nat × Nat) :=
  if _inside : pos < data.size then
    let byte := data.byteAt pos
    if byte = 255 then readRun data (pos + 1) (sum + 255) else .ok (sum + byte.toNat, pos + 1)
  else .error (.corruptInput data.size .truncated)
termination_by data.size - pos

/-- Reads the length that starts with `nibble` and goes on at a position. -/
def read (data : Bytes) (pos : Nat) (nibble : Nat) : Except Error (Nat × Nat) :=
  if nibble = 15 then readRun data pos 15 else .ok (nibble, pos)

theorem le_of_readRun {data : Bytes} {pos sum value next : Nat}
    (found : readRun data pos sum = .ok (value, next)) : pos ≤ next := by
  fun_induction readRun data pos sum with
  | case1 pos sum inside byte full ih => exact Nat.le_of_succ_le (ih found)
  | case2 pos sum inside byte full => simp at found; omega
  | case3 pos sum outside => simp at found

/-- Reading a length never goes back. -/
theorem le_of_read {data : Bytes} {pos nibble value next : Nat}
    (found : read data pos nibble = .ok (value, next)) : pos ≤ next := by
  unfold read at found
  split at found
  · exact le_of_readRun found
  · simp at found; omega

end Length

/-- The token that announces a number of literals and a length beyond the shortest match. -/
def token (literals extra : Nat) : Bytes :=
  #[Length.note (Length.note 0 .high literals) .low extra]

/-- The pieces of a sequence that ends in a match. -/
def sequencePieces (literals : Bytes) (found : Match) : List Bytes :=
  let extra := found.length - minMatch
  token literals.size extra :: Length.pieces literals.size
    ++ literals :: Bytes.ofNat 2 found.distance :: Length.pieces extra

/-- The pieces of the last sequence. -/
def lastPieces (literals : Bytes) : List Bytes :=
  token literals.size 0 :: Length.pieces literals.size ++ [literals]

/-- What a compressor leaves behind: its sink, what it remembers earlier positions in, and whether
the sink took the whole block. -/
structure Compressed (τ : Type) where
  sink : Sink
  table : τ
  complete : Bool

end Lz4.Block
