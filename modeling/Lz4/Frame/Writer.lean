import Lz4.Frame.Encoder

/-!
# Encoders with their storage

A writer is an encoder with everything it keeps from one call to the next. One record serves all
frames: the bytes that wait for a block to be full, the checksum and the size of the data, and the
room in which blocks are compressed are used again for the next frame. A frame that begins sets
them back, but for the room, which only grows.

A call that comes at the wrong time is refused before anything is changed. Where a block cannot be
written the call fails in the middle, and what it wrote until then is lost.
-/

namespace Lz4.Frame

open Checksum (Hasher)

/-- Where a writer stands. -/
inductive Phase where
  /-- No frame was begun yet. -/
  | idle
  | started
  /-- The latest frame has ended. -/
  | ended
  deriving Repr, DecidableEq, Inhabited

/-- Why no data are taken now, if none are. -/
def Phase.problem? : Phase → Option Error
  | started => none
  | idle => some (.usage .noFrame)
  | ended => some (.usage .frameEnded)

/-- The state of a writer: where it stands, what the header of its latest frame says, the data that
were not written yet, the room in which blocks are compressed, the checksum and the size of the data
so far, and the stream that compresses the blocks, while a frame is in progress. -/
structure Writer where
  phase : Phase
  header : Header
  autoFlush : Bool
  pending : Bytes
  room : Bytes
  hasher : Option Hasher
  consumed : Nat
  stream : Option Stream.Compressor

namespace Writer

/-- A writer before its first frame. -/
def new : Writer where
  phase := .idle
  header := {}
  autoFlush := false
  pending := #[]
  room := #[]
  hasher := none
  consumed := 0
  stream := none

/-- Whether a frame was begun and has not ended. -/
def isStarted (writer : Writer) : Bool := writer.phase == .started

/-- The size of a full block. -/
def blockLimit (writer : Writer) : Nat := writer.header.blockSize.bytes

/-- What a call returns, and the writer after it. -/
abbrev Outcome := Except Error Bytes × Writer

/-- Does one thing after another, unless the first fails. What both wrote is put together. -/
def Outcome.andThen (first : Outcome) (next : Writer → Outcome) : Outcome :=
  match first with
  | (.error error, writer) => (.error error, writer)
  | (.ok written, writer) =>
    match next writer with
    | (.error error, writer) => (.error error, writer)
    | (.ok more, writer) => (.ok (written ++ more), writer)

/-- Begins a frame. The result is its header. -/
def begin (writer : Writer) (settings : Settings) : Outcome :=
  if writer.isStarted then (.error (.usage .frameInProgress), writer)
  else
    match Stream.Compressor.new (Session.streamSettings settings) with
    | .error error => (.error error, writer)
    | .ok stream =>
      let missing := settings.blockSize.bytes - writer.room.size
      (.ok settings.header.encode,
        { phase := .started
          header := settings.header
          autoFlush := settings.autoFlush
          pending := #[]
          room := writer.room ++ Array.replicate missing 0
          hasher := if settings.contentChecksum then some .new else none
          consumed := 0
          stream := some (stream.setDictionary settings.dictionary) })

/-- Writes a block. It is compressed in as much of the room as it takes itself; when that does not
suffice the block is stored. -/
def writeBlock (writer : Writer) (block : Bytes) : Outcome :=
  match writer.stream with
  | none => (.error (.usage .noFrame), writer)
  | some stream =>
    let stream := if writer.header.independentBlocks then stream.reset else stream
    match stream.compressInto block (writer.room.extract 0 block.size) with
    | (length, slice, stream) =>
      let room := slice ++ writer.room.dropFirst block.size
      let writer := { writer with stream := some stream, room := room }
      match length with
      | .ok length => (.ok (record writer.header false (room.extract 0 length)), writer)
      | .error (.bufferTooSmall _ _) => (.ok (record writer.header true block), writer)
      | .error error => (.error error, writer)

/-- Writes what is pending as a block, unless that is nothing. It is no longer pending then, even
if it could not be written. -/
def flushPending (writer : Writer) : Outcome :=
  if writer.pending.isEmpty then (.ok #[], writer)
  else
    match writer.writeBlock writer.pending with
    | (result, writer) => (result, { writer with pending := #[] })

/-- Takes in the data from a position on when nothing is pending. Full blocks are written straight
from the data, and what does not fill a block waits. -/
def writeBlocks (data : Bytes) (pos : Nat) (writer : Writer) : Outcome :=
  let stop := pos + writer.blockLimit
  if stop ≤ data.size then
    (writer.writeBlock (data.extract pos stop)).andThen fun next => writeBlocks data stop next
  else (.ok #[], { writer with pending := writer.pending ++ data.extract pos data.size })
termination_by data.size - pos
decreasing_by
  have positive : 0 < writer.blockLimit := writer.header.blockSize.bytes_pos
  omega

/-- Takes in data, and writes the blocks that they fill. If a block is pending, the data fill it
first. -/
def append (writer : Writer) (data : Bytes) : Outcome :=
  if writer.pending.isEmpty then writeBlocks data 0 writer
  else
    let limit := writer.blockLimit
    let taken := min (limit - writer.pending.size) data.size
    let pending := writer.pending ++ data.extract 0 taken
    let writer := { writer with pending := pending }
    let filled := if pending.size = limit then writer.flushPending else (.ok #[], writer)
    Outcome.andThen filled (writeBlocks data taken)

/-- Adds data to the checksum and the size. -/
def count (writer : Writer) (data : Bytes) : Writer :=
  { writer with
    hasher := writer.hasher.map (·.update data)
    consumed := writer.consumed + data.size }

/-- Writes what is pending if nothing is to wait. -/
def settle (writer : Writer) : Outcome :=
  if writer.autoFlush then writer.flushPending else (.ok #[], writer)

/-- Takes in data. The result is what became ready, often nothing. -/
def update (writer : Writer) (data : Bytes) : Outcome :=
  match writer.phase.problem? with
  | some error => (.error error, writer)
  | none => ((writer.count data).append data).andThen settle

/-- Writes everything that was taken in, without ending the frame. -/
def flush (writer : Writer) : Outcome :=
  match writer.phase.problem? with
  | some error => (.error error, writer)
  | none => writer.flushPending

/-- Why the frame cannot end here, if it cannot: its header announces another size. -/
def endProblem? (writer : Writer) : Option Error :=
  match writer.header.knownContentSize with
  | none => none
  | some size => if size.toNat = writer.consumed then none else some (.usage .declaredSize)

/-- Writes the end marker and the checksum of the content, and puts the stream away. -/
def close (writer : Writer) : Outcome :=
  let checksum := writer.hasher.elim #[] fun hasher => Bytes.ofNat 4 hasher.finish.toNat
  (.ok (endMark ++ checksum), { writer with phase := .ended, hasher := none, stream := none })

/-- Ends the frame. -/
def finish (writer : Writer) : Outcome :=
  match writer.phase.problem? with
  | some error => (.error error, writer)
  | none =>
    match writer.endProblem? with
    | some error => (.error error, writer)
    | none => writer.flushPending.andThen close

end Writer

/-- What can be asked of an encoder. -/
inductive Request where
  | begin (settings : Settings)
  | update (data : Bytes)
  | flush
  | finish
  deriving Repr, DecidableEq

namespace Writer

def request (writer : Writer) : Request → Outcome
  | .begin settings => writer.begin settings
  | .update data => writer.update data
  | .flush => writer.flush
  | .finish => writer.finish

/-- Makes requests in order; one that is refused does not keep the next from being made. -/
def requests (writer : Writer) : List Request → List (Except Error Bytes) × Writer
  | [] => ([], writer)
  | request :: rest =>
    match writer.request request with
    | (result, after) =>
      match after.requests rest with
      | (results, last) => (result :: results, last)

end Writer

end Lz4.Frame
