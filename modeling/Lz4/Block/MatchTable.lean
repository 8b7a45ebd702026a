import Lz4.Bytes

/-!
# Match tables

A match table remembers, for a hash of the next few bytes, the last position at which that hash
was seen. Positions count from the start of the buffer the table is used with. When bytes are
dropped from the front of that buffer the table is told how many, and what it remembers keeps its
meaning.

What a table answers is only a proposal: positions may be stale, and different bytes may share a
hash. The compressor compares the bytes before it uses an answer.

There are two tables. The wide one holds 32-bit positions under a hash of five bytes, the narrow
one 16-bit positions under a hash of four bytes and twice as many of them.
-/

namespace Lz4.Block

/-- What a compressor needs of a table of earlier positions. -/
class MatchTable (τ : Type) where
  /-- The table that remembers nothing. -/
  empty : τ
  /-- The longest buffer that the table can be used with. -/
  sizeLimit : Nat
  /-- Looks up the bytes at a position, and remembers the position in place of what was found.
  Where nothing was remembered the answer is the start of the buffer. -/
  exchange : τ → Bytes → Nat → Nat × τ
  /-- Tells the table that so many bytes were dropped from the front of the buffer. -/
  drop : τ → Nat → τ

namespace MatchTable

/-- Puts a position into a slot of a table, and answers what was there before. The slot is never
asked to hold more than `largest`. -/
@[inline] def swap (slots : Array Nat) (slot position largest : Nat) : Nat × Array Nat :=
  let old := slots.getD slot 0
  (old, slots.setIfInBounds slot (min position largest))

/-- Remembers every third position of a dictionary, as long as eight bytes follow it. -/
def prime {τ : Type} [MatchTable τ] (dictionary : Bytes) (pos : Nat) (table : τ) : τ :=
  if pos + 8 < dictionary.size then
    prime dictionary (pos + 3) (exchange table dictionary pos).2
  else table
termination_by dictionary.size - pos

/-- The table that has seen a dictionary and nothing else. -/
def ofDictionary (τ : Type) [MatchTable τ] (dictionary : Bytes) : τ := prime dictionary 0 empty

end MatchTable

/-- A table of 32-bit positions. What it stores is a position plus the number of bytes dropped so
far; that number starts again from zero before positions could outgrow their slots. -/
structure WideTable where
  slots : Array Nat
  dropped : Nat
  deriving Repr, DecidableEq

namespace WideTable

/-- How many slots there are. -/
def slotCount : Nat := 4096

/-- The largest number that a slot holds. -/
def slotLimit : Nat := UInt32.size - 1

/-- The number of dropped bytes is not counted beyond this. -/
def rebaseThreshold : Nat := 1 <<< 30

/-- The table that remembers nothing. -/
def empty : WideTable := ⟨Array.replicate slotCount 0, 0⟩

/-- The slot for the bytes at a position. It depends on five bytes, but is zero unless there are
eight. -/
def slot (data : Bytes) (pos : Nat) : Nat :=
  if pos + 8 ≤ data.size then
    let fiveBytes := data.word pos 8 <<< 24
    ((889523592379 * fiveBytes) >>> 52).toNat
  else 0

@[inherit_doc MatchTable.exchange]
def exchange (table : WideTable) (data : Bytes) (pos : Nat) : Nat × WideTable :=
  match table with
  | ⟨slots, dropped⟩ =>
    let (old, slots) := MatchTable.swap slots (slot data pos) (pos + dropped) slotLimit
    (old - dropped, ⟨slots, dropped⟩)

@[inherit_doc MatchTable.drop]
def drop (table : WideTable) (count : Nat) : WideTable :=
  match table with
  | ⟨slots, dropped⟩ =>
    let dropped := dropped + count
    if rebaseThreshold < dropped then
      let base := dropped % UInt32.size
      ⟨slots.map (· - base), 0⟩
    else ⟨slots, dropped⟩

instance : MatchTable WideTable where
  empty := empty
  sizeLimit := slotLimit - rebaseThreshold
  exchange := exchange
  drop := drop

end WideTable

/-- A table of 16-bit positions, for buffers below 64 KiB. -/
structure NarrowTable where
  slots : Array Nat
  dropped : Nat
  deriving Repr, DecidableEq

namespace NarrowTable

/-- How many slots there are. -/
def slotCount : Nat := 8192

/-- The largest number that a slot holds. -/
def slotLimit : Nat := UInt16.size - 1

/-- The table that remembers nothing. -/
def empty : NarrowTable := ⟨Array.replicate slotCount 0, 0⟩

/-- The slot for the four bytes at a position, zero if there are fewer. -/
def slot (data : Bytes) (pos : Nat) : Nat :=
  if pos + 4 ≤ data.size then ((2654435761 * (data.word pos 4).toUInt32) >>> 19).toNat else 0

@[inherit_doc MatchTable.exchange]
def exchange (table : NarrowTable) (data : Bytes) (pos : Nat) : Nat × NarrowTable :=
  match table with
  | ⟨slots, dropped⟩ =>
    let (old, slots) := MatchTable.swap slots (slot data pos) (pos + dropped) slotLimit
    (old - dropped, ⟨slots, dropped⟩)

@[inherit_doc MatchTable.drop]
def drop (table : NarrowTable) (count : Nat) : NarrowTable :=
  { table with dropped := table.dropped + count }

instance : MatchTable NarrowTable where
  empty := empty
  sizeLimit := slotLimit
  exchange := exchange
  drop := drop

end NarrowTable

end Lz4.Block
