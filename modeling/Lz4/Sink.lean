import Lz4.Error

/-!
# Sinks

A sink takes in a byte string piece by piece. It either grows without limit or has room for a
fixed number of bytes; then a piece that does not fit is refused as a whole, and a later, shorter
piece may still be taken.
-/

namespace Lz4

/-- Where bytes are written to: what it holds so far, and how much more it takes, if it has a
limit. -/
structure Sink where
  written : Bytes
  room : Option Nat
  deriving Repr, DecidableEq

namespace Sink

/-- An empty sink that takes any number of bytes. -/
def growing : Sink := ⟨#[], none⟩

/-- An empty sink that takes `capacity` bytes. -/
def ofCapacity (capacity : Nat) : Sink := ⟨#[], some capacity⟩

/-- Whether a piece fits. -/
def fits (sink : Sink) (piece : Bytes) : Bool :=
  match sink.room with
  | none => true
  | some room => piece.size ≤ room

/-- Appends a piece. -/
def append (sink : Sink) (piece : Bytes) : Sink :=
  match sink with
  | ⟨written, room⟩ => ⟨written ++ piece, room.map (· - piece.size)⟩

/-- Writes a piece if it fits. The flag tells whether it did. -/
def write (sink : Sink) (piece : Bytes) : Sink × Bool :=
  if sink.fits piece then (sink.append piece, true) else (sink, false)

/-- Writes pieces one after the other up to the first that does not fit. The flag tells whether all
of them did. -/
def writePieces (sink : Sink) : List Bytes → Sink × Bool
  | [] => (sink, true)
  | piece :: rest => if sink.fits piece then (sink.append piece).writePieces rest else (sink, false)

/-- The storage behind a sink with a limit: what was written, then zeros for the room that is
left. -/
def storage (sink : Sink) : Bytes := sink.written ++ Array.replicate (sink.room.getD 0) 0

/-- A sink that grows takes every piece. -/
theorem writePieces_growing (pieces : List Bytes) (written : Bytes) :
    writePieces ⟨written, none⟩ pieces = (⟨pieces.foldl (· ++ ·) written, none⟩, true) := by
  induction pieces generalizing written with
  | nil => rfl
  | cons piece rest ih => simp [writePieces, fits, append, ih]

end Sink

end Lz4
