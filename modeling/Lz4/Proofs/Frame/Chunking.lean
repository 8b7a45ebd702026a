import Lz4.Proofs.Frame.RoundTrip

/-!
# Frames do not show how their data came

Since blocks are cut from pending bytes and new data together, taking in data in two parts is taking
them in at once (`Lz4.Frame.RecordWriter.append_append`), and an encoder that is not told to write
what is pending makes the same frame however its data are divided into updates
(`Lz4.Frame.frame_updates`).
-/

namespace Lz4.Frame

open Bytes Checksum

namespace RecordWriter

variable {header : Header}

theorem append_empty {writer : RecordWriter} (room : writer.pending.size < header.blockSize.bytes) :
    writer.append header #[] = writer := by
  obtain ⟨stream, pending, written⟩ := writer
  dsimp only at room
  rw [append_eq written #[] room, Array.append_empty, appendBlocks_of_short (by omega),
    Array.empty_append, Array.extract_size]

/-- Cutting blocks from data that go on is cutting them from the data, and then taking in the
rest. -/
theorem appendBlocks_append_rest (first second : Bytes) (pos : Nat) {writer : RecordWriter}
    (within : pos ≤ first.size) (empty : writer.pending = #[]) :
    appendBlocks header (first ++ second) pos writer =
      (appendBlocks header first pos writer).append header second := by
  fun_induction appendBlocks header first pos writer with
  | case1 pos writer stop full ih =>
    have fits : pos + header.blockSize.bytes ≤ (first ++ second).size := by
      rw [Array.size_append]
      omega
    rw [appendBlocks_of_full fits, extract_append_of_le full]
    exact ih full empty
  | case2 pos stop short stream pending written =>
    dsimp only at empty
    subst empty
    have room : (#[] ++ first.extract pos first.size : Bytes).size < header.blockSize.bytes := by
      rw [Array.empty_append, Array.size_extract]
      omega
    have front : (first.extract 0 pos).size = pos := Array.size_extract_of_le within
    have split : first ++ second =
        first.extract 0 pos ++ (first.extract pos first.size ++ second) := by
      rw [← Array.append_assoc, extract_append_extract (Nat.zero_le pos) within,
        Array.extract_size]
    have further := @appendBlocks_append header (first.extract 0 pos)
      (first.extract pos first.size ++ second) 0 ⟨stream, #[], written⟩
    rw [front, Nat.add_zero, ← split] at further
    rw [further, append_eq written second room, Array.empty_append]

/-- Taking in data in two parts is taking them in at once. -/
theorem append_append {writer : RecordWriter} (first second : Bytes)
    (room : writer.pending.size < header.blockSize.bytes) :
    (writer.append header first).append header second =
      writer.append header (first ++ second) := by
  obtain ⟨stream, pending, written⟩ := writer
  rw [append_eq written first room, append_eq written (first ++ second) room, ← Array.append_assoc]
  exact (appendBlocks_append_rest (pending ++ first) second 0 (Nat.zero_le _) rfl).symm

/-- The writer with other records in front of those that it has written. -/
def behind (front : Bytes) (writer : RecordWriter) : RecordWriter :=
  ⟨writer.stream, writer.pending, front ++ writer.written⟩

theorem writeBlock_behind (front : Bytes) (writer : RecordWriter) (block : Bytes) :
    (writer.behind front).writeBlock header block =
      (writer.writeBlock header block).behind front := by
  simp only [writeBlock, behind, Array.append_assoc]

theorem appendBlocks_behind (front data : Bytes) (pos : Nat) (writer : RecordWriter) :
    appendBlocks header data pos (writer.behind front) =
      (appendBlocks header data pos writer).behind front := by
  fun_induction appendBlocks header data pos writer with
  | case1 pos writer stop full ih => rw [appendBlocks_of_full full, writeBlock_behind, ih]
  | case2 pos stop short stream pending written => rw [appendBlocks_of_short short, behind, behind]

/-- Records in front make no difference to those that follow. -/
theorem append_behind (front data : Bytes) {writer : RecordWriter}
    (room : writer.pending.size < header.blockSize.bytes) :
    (writer.behind front).append header data = (writer.append header data).behind front := by
  obtain ⟨stream, pending, written⟩ := writer
  rw [append_eq written data room, ← appendBlocks_behind]
  exact append_eq (front ++ written) data room

end RecordWriter

namespace Session

variable {settings : Settings} {session middle : Session} {input written first records : Bytes}

theorem update_of_calm (header : Header) (stream : Stream.Compressor) (pending : Bytes)
    (hasher : Option Hasher) (consumed : Nat) (data : Bytes) :
    update ⟨header, false, stream, pending, hasher, consumed⟩ data =
      let writer := RecordWriter.append header ⟨stream, pending, #[]⟩ data
      (writer.written, ⟨header, false, writer.stream, writer.pending, hasher.map (·.update data),
        consumed + data.size⟩) := rfl

theorem update_empty (calm : session.autoFlush = false)
    (room : session.pending.size < session.header.blockSize.bytes) :
    session.update #[] = (#[], session) := by
  obtain ⟨header, autoFlush, stream, pending, hasher, consumed⟩ := session
  cases calm
  have same := @RecordWriter.append_empty header ⟨stream, pending, #[]⟩ room
  have kept : hasher.map (·.update #[]) = hasher := by simp
  rw [update_of_calm, same, kept]
  rfl

/-- Taking in data in two parts is taking them in at once. -/
theorem update_append (calm : session.autoFlush = false)
    (room : session.pending.size < session.header.blockSize.bytes)
    (updated : session.update first = (records, middle))
    (roomAfter : middle.pending.size < middle.header.blockSize.bytes) (second : Bytes) :
    session.update (first ++ second) =
      (records ++ (middle.update second).1, (middle.update second).2) := by
  obtain ⟨header, autoFlush, stream, pending, hasher, consumed⟩ := session
  cases calm
  have twice := @RecordWriter.append_append header ⟨stream, pending, #[]⟩ first second room
  rw [update_of_calm] at updated
  rcases appended : RecordWriter.append header ⟨stream, pending, #[]⟩ first
    with ⟨streamAfter, pendingAfter, recordsAfter⟩
  rw [appended] at twice updated
  cases updated
  have parts := @RecordWriter.append_behind header recordsAfter second
    ⟨streamAfter, pendingAfter, #[]⟩ roomAfter
  rw [RecordWriter.behind, Array.append_empty, twice] at parts
  have hashed : hasher.map (·.update (first ++ second)) =
      (hasher.map (·.update first)).map (·.update second) := by
    rw [Option.map_map]
    exact congrArg (hasher.map ·) (funext fun _ => Hasher.update_append _ _ _)
  rw [update_of_calm, update_of_calm, parts, hashed, Array.size_append, ← Nat.add_assoc]
  rfl

end Session

namespace Encoder

variable {settings : Settings} {session : Session} {input written : Bytes}

/-- Updates with pieces do what one update with all of them does. -/
theorem calls_updates (pieces : List Bytes) (calm : session.autoFlush = false)
    (wrote : session.Wrote settings input written) :
    (started session).calls (pieces.map .update) =
      (.ok (session.update (concat pieces)).1, started (session.update (concat pieces)).2) := by
  have room := wrote.room
  rw [← wrote.header] at room
  induction pieces generalizing session input written with
  | nil => rw [concat_nil, Session.update_empty calm room]; rfl
  | cons piece rest ih =>
    have wroteMiddle := wrote.update piece
    have roomMiddle := wroteMiddle.room
    rw [← wroteMiddle.header] at roomMiddle
    rcases updated : session.update piece with ⟨records, middle⟩
    rw [updated] at wroteMiddle roomMiddle
    have kept : middle.autoFlush = false := by
      have same := congrArg (·.2.autoFlush) updated
      exact same.symm.trans calm
    rw [List.map_cons, calls, call, update, updated, concat_cons,
      Session.update_append calm room updated roomMiddle]
    dsimp only
    rw [ih kept wroteMiddle roomMiddle]

end Encoder

/-- However data are divided into updates, with empty ones among them or not, an encoder that is not
told to write what is pending makes of them the frame that they make at once. -/
theorem frame_updates {encoder : Encoder} (quiet : encoder.isStarted = false) (settings : Settings)
    (calm : settings.autoFlush = false) (pieces : List Bytes)
    (announced : ∀ size, settings.contentSize = some size →
      size = 0 ∨ size.toNat = (concat pieces).size) :
    ∃ frame, encode (concat pieces) settings = .ok frame ∧
      encoder.frame settings (pieces.map .update) = (.ok frame, .ended) := by
  have known := knownContentSize_of_announced announced
  have started := Session.wrote_start settings
  have updates := Encoder.calls_updates pieces calm started
  have wrote := started.update (concat pieces)
  rw [Array.empty_append] at wrote
  have ends := wrote.endProblem_none known
  refine ⟨settings.header.encode ++ ((Session.start settings).update (concat pieces)).1 ++
    ((Session.start settings).update (concat pieces)).2.close, ?_, ?_⟩
  · simp only [encode, ends]
  · simp only [Encoder.frame, Encoder.begin_of_quiet quiet, updates, Encoder.finish, ends]

theorem frame_updates_four :
    let settings : Settings := { independentBlocks := false, contentSize := some 6, level := 9 }
    let pieces : List Bytes := [#[1, 2, 3], #[], #[1, 2], #[3]]
    ∃ frame, encode (concat pieces) settings = .ok frame ∧
      Encoder.idle.frame settings (pieces.map .update) = (.ok frame, .ended) := by
  intro settings pieces
  refine frame_updates rfl settings rfl pieces ?_
  intro size same
  cases same
  exact Or.inr rfl

end Lz4.Frame
