import Lz4.Frame.Record

/-!
# Encoding frames

An encoder makes frames, one after the other. Between `begin` and `finish` it takes in data and
gives out the records that became ready; what it gave out, put together, is the frame. A call that
comes at the wrong time is refused and changes nothing.

`encode` makes a frame of data that are all there.
-/

namespace Lz4.Frame

open Checksum (Hasher)

/-- A frame in the making: what its header says, the data that were not written yet, and the
checksum and the size of all data so far. -/
structure Session where
  header : Header
  autoFlush : Bool
  stream : Stream.Compressor
  pending : Bytes
  hasher : Option Hasher
  consumed : Nat

namespace Session

/-- The settings of the block stream inside a frame. -/
def streamSettings (settings : Settings) : Stream.Settings where
  chunkLimit := settings.blockSize.bytes
  mode := modeOfLevel settings.level

/-- A frame of which nothing but the header is written. -/
def start (settings : Settings) : Session where
  header := settings.header
  autoFlush := settings.autoFlush
  stream := .ofDictionary (streamSettings settings) settings.dictionary
  pending := #[]
  hasher := if settings.contentChecksum then some .new else none
  consumed := 0

/-- Writes all pending data. The first component is what was written. -/
def flush (session : Session) : Bytes × Session :=
  match session with
  | ⟨header, autoFlush, stream, pending, hasher, consumed⟩ =>
    let writer := RecordWriter.flush header ⟨stream, pending, #[]⟩
    (writer.written, ⟨header, autoFlush, writer.stream, writer.pending, hasher, consumed⟩)

/-- Takes in data. The first component is what was written. -/
def update (session : Session) (data : Bytes) : Bytes × Session :=
  match session with
  | ⟨header, autoFlush, stream, pending, hasher, consumed⟩ =>
    let writer := RecordWriter.append header ⟨stream, pending, #[]⟩ data
    let writer := if autoFlush then writer.flush header else writer
    (writer.written,
      ⟨header, autoFlush, writer.stream, writer.pending, hasher.map (·.update data),
        consumed + data.size⟩)

/-- Why the frame cannot end here, if it cannot: its header announces another size. -/
def endProblem? (session : Session) : Option Error :=
  match session.header.knownContentSize with
  | none => none
  | some size => if size.toNat = session.consumed then none else some (.usage .declaredSize)

/-- The end of the frame: what is pending, the end marker and the checksum of the content. -/
def close (session : Session) : Bytes :=
  let checksum := session.hasher.elim #[] fun hasher => Bytes.ofNat 4 hasher.finish.toNat
  session.flush.1 ++ endMark ++ checksum

end Session

/-- Where an encoder stands. -/
inductive Encoder where
  /-- No frame was begun yet. -/
  | idle
  /-- A frame was begun. -/
  | started (session : Session)
  /-- The latest frame has ended. -/
  | ended

namespace Encoder

/-- An encoder before its first frame. -/
def new : Encoder := .idle

/-- Whether a frame was begun and has not ended. -/
def isStarted : Encoder → Bool
  | started _ => true
  | _ => false

/-- Begins a frame. The result is its header. -/
def begin (encoder : Encoder) (settings : Settings) : Except Error Bytes × Encoder :=
  match encoder with
  | started session => (.error (.usage .frameInProgress), started session)
  | _ => (.ok settings.header.encode, started (.start settings))

/-- Takes in data. The result is what became ready, often nothing. -/
def update (encoder : Encoder) (data : Bytes) : Except Error Bytes × Encoder :=
  match encoder with
  | idle => (.error (.usage .noFrame), idle)
  | ended => (.error (.usage .frameEnded), ended)
  | started session =>
    let (written, session) := session.update data
    (.ok written, started session)

/-- Writes everything that was taken in, without ending the frame. -/
def flush (encoder : Encoder) : Except Error Bytes × Encoder :=
  match encoder with
  | idle => (.error (.usage .noFrame), idle)
  | ended => (.error (.usage .frameEnded), ended)
  | started session =>
    let (written, session) := session.flush
    (.ok written, started session)

/-- Ends the frame. -/
def finish (encoder : Encoder) : Except Error Bytes × Encoder :=
  match encoder with
  | idle => (.error (.usage .noFrame), idle)
  | ended => (.error (.usage .frameEnded), ended)
  | started session =>
    match session.endProblem? with
    | some error => (.error error, started session)
    | none => (.ok session.close, ended)

end Encoder

/-- Encodes data as one frame. -/
def encode (data : Bytes) (settings : Settings) : Except Error Bytes :=
  let (written, session) := (Session.start settings).update data
  match session.endProblem? with
  | some error => .error error
  | none => .ok (settings.header.encode ++ written ++ session.close)

/-- Wraps data in a skippable frame, which decoders pass over. -/
def encodeSkippable (nibble : Nat) (data : Bytes) : Except Error Bytes :=
  if 15 < nibble then .error (.invalidArgument .nibbleTooLarge)
  else if UInt32.size ≤ data.size then .error (.invalidArgument .skippableTooLong)
  else .ok (Bytes.ofNat 4 (skippableMagic + nibble) ++ Bytes.ofNat 4 data.size ++ data)

end Lz4.Frame
