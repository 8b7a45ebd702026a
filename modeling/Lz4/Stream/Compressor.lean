import Lz4.Stream.Settings

/-!
# The compressing side of a stream

A compressor remembers the last 64 KiB of its stream and, for the greedy modes, a match table for
them. The thorough modes index the history anew for every block, and only reuse the room that the
index takes.

A chunk becomes part of what is remembered once it is compressed, even if the block found no room,
so a caller who stores the chunk as it is stays in step with the other side. A chunk that is
refused, because it is too long or because its block is too long for the length field, leaves the
compressor as it was. Whether the block is too long shows only after it is made, so where it could
be, the compressor keeps what it needs to go back.
-/

namespace Lz4.Stream

open Block (MatchTable WideTable Chain)

/-- What a compressor keeps from block to block besides its history. -/
inductive Engine where
  /-- The table of the greedy compressor. -/
  | greedy (table : WideTable)
  /-- The level of the thorough compressor, and the index that it made for the latest block. -/
  | thorough (level : Int) (chain : Chain)
  deriving Repr, DecidableEq

namespace Engine

/-- The engine of a mode, before any block. -/
def new : Block.Mode → Engine
  | .high level => thorough level .empty
  | _ => greedy .empty

/-- Starts over with a history that was not compressed by this engine. -/
def restart (engine : Engine) (history : Bytes) : Engine :=
  match engine with
  | greedy _ => greedy (MatchTable.ofDictionary WideTable history)
  | thorough level chain => thorough level chain

/-- Compresses the bytes of a buffer from `cursor` on; those before it are history. The result is
what the sink took, whether that is the whole block, and the engine after it. -/
def compress (engine : Engine) (acceleration : Nat) (input : Bytes) (cursor : Nat) (sink : Sink) :
    Block.Compressed Engine :=
  match engine with
  | greedy table =>
    let result := Block.Greedy.compress input cursor acceleration table sink
    ⟨result.sink, greedy result.table, result.complete⟩
  | thorough level chain =>
    let result := Block.Thorough.compressWith chain input cursor level sink
    ⟨result.sink, thorough level result.table, result.complete⟩

/-- Tells the engine that so many bytes were dropped from the front of the history. -/
def drop (engine : Engine) (count : Nat) : Engine :=
  match engine with
  | greedy table => greedy (MatchTable.drop table count)
  | thorough level chain => thorough level chain

/-- The match table, if there is one. -/
def table? : Engine → Option WideTable
  | greedy table => some table
  | thorough _ _ => none

/-- Goes back to a match table that was saved. There is nothing to go back to without one. -/
def putBack (engine : Engine) (saved : Option WideTable) : Engine :=
  match engine, saved with
  | greedy _, some table => greedy table
  | engine, _ => engine

end Engine

/-- The state of the compressing side. -/
structure Compressor where
  settings : Settings
  dictionary : Bytes
  history : Bytes
  engine : Engine
  deriving Repr, DecidableEq

/-- What is saved of a compressor so that it can go back. The index of the thorough compressor is
not saved, since it is made anew for every block. -/
structure Snapshot where
  history : Bytes
  table : Option WideTable
  deriving Repr, DecidableEq

namespace Compressor

/-- A compressor that has seen a dictionary and nothing else. -/
def ofDictionary (settings : Settings) (dictionary : Bytes) : Compressor :=
  let window := Block.dictionaryWindow dictionary
  ⟨settings, window, window, (Engine.new settings.mode).restart window⟩

/-- Opens a stream. -/
def new (settings : Settings) : Except Error Compressor :=
  match settings.problem? with
  | some error => .error error
  | none => .ok (ofDictionary settings #[])

/-- Forgets everything but the dictionary. -/
def reset (compressor : Compressor) : Compressor :=
  match compressor with
  | ⟨settings, dictionary, _, engine⟩ =>
    ⟨settings, dictionary, dictionary, engine.restart dictionary⟩

/-- Starts over from a dictionary, of which the last 64 KiB count. -/
def setDictionary (compressor : Compressor) (dictionary : Bytes) : Compressor :=
  reset { compressor with dictionary := Block.dictionaryWindow dictionary }

/-- Forgets what lies too far back to be referred to, and tells the engine. -/
def slide (compressor : Compressor) : Compressor :=
  match compressor with
  | ⟨settings, dictionary, history, engine⟩ =>
    if Block.windowSize < history.size then
      let forgotten := history.size - Block.windowSize
      ⟨settings, dictionary, history.dropFirst forgotten, engine.drop forgotten⟩
    else ⟨settings, dictionary, history, engine⟩

/-- Compresses a chunk to a block of at most `capacity` bytes, without its length in front. Unless
the chunk is too long, it is remembered whether or not there was room for its block. -/
def compressBlock (compressor : Compressor) (chunk : Bytes) (capacity : Nat) :
    Except Error Bytes × Compressor :=
  match compressor.settings.chunkProblem? chunk.size with
  | some error => (.error error, compressor)
  | none =>
    match compressor with
    | ⟨settings, dictionary, history, engine⟩ =>
      let cursor := history.size
      let history := history ++ chunk
      let result :=
        engine.compress settings.mode.acceleration history cursor (.ofCapacity capacity)
      let block :=
        if result.complete then .ok result.sink.written
        else .error (.bufferTooSmall ((Block.compressBound chunk.size).getD 0) capacity)
      (block, slide ⟨settings, dictionary, history, result.table⟩)

/-- Compresses a chunk to a block in the bytes of a slice, from its front on. The result is the
length of the block, and the slice and the compressor after it. If there is no room for the block,
the slice holds the part of it that was written before this showed. -/
def compressInto (compressor : Compressor) (chunk slice : Bytes) :
    Except Error Nat × Bytes × Compressor :=
  match compressor.settings.chunkProblem? chunk.size with
  | some error => (.error error, slice, compressor)
  | none =>
    match compressor with
    | ⟨settings, dictionary, history, engine⟩ =>
      let cursor := history.size
      let history := history ++ chunk
      let result :=
        engine.compress settings.mode.acceleration history cursor (.ofCapacity slice.size)
      let written := result.sink.written
      let length :=
        if result.complete then .ok written.size
        else .error (.bufferTooSmall ((Block.compressBound chunk.size).getD 0) slice.size)
      (length, written ++ slice.dropFirst written.size,
        slide ⟨settings, dictionary, history, result.table⟩)

/-- Saves what the next block changes. -/
def snapshot (compressor : Compressor) : Snapshot :=
  ⟨compressor.history, compressor.engine.table?⟩

/-- Goes back to what was saved. -/
def restore (compressor : Compressor) (saved : Snapshot) : Compressor :=
  { compressor with
    history := saved.history
    engine := compressor.engine.putBack saved.table }

/-- Compresses a chunk to a record: its block, with the length in front if the settings ask for
it. The compressor saves what it needs to go back if the longest block of such a chunk would be too
long for the length field. -/
def compressChunk (compressor : Compressor) (chunk : Bytes) : Except Error Bytes × Compressor :=
  let field := compressor.settings.lengthField
  let bound := (Block.compressBound chunk.size).getD 0
  let saved := if (field.problem? bound).isSome then some compressor.snapshot else none
  match compressor.compressBlock chunk bound with
  | (.error error, after) => (.error error, after)
  | (.ok block, after) =>
    match field.problem? block.size with
    | some error => (.error error, saved.elim after after.restore)
    | none => (.ok (Bytes.ofNat field.width block.size ++ block), after)

end Compressor

end Lz4.Stream
