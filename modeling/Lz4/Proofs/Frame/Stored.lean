import Lz4.Proofs.Frame.Writing

/-!
# Stored and compressed blocks

A block of a frame is compressed in as much room as it takes itself. So it is stored exactly if its
compressed form is longer (`Lz4.Frame.compressRecord_chosen`), and a record never holds more than its
block. A compressed form of the same length is written as it is, although nothing is gained by it
(`Lz4.Frame.encode_equalLength`).

Whatever is asked of a writer in a frame, all that it gives out behind the header are records that
are chosen in this way, of blocks that together with what is pending make up what it took in
(`Lz4.Frame.Writer.requests_chosen`).
-/

namespace Lz4.Frame

open Bytes

/-- How a block is written behind the history of a stream: as it is if the block that the compressor
makes of it is longer, and compressed otherwise. The highest bit of the length tells which. -/
structure Chosen (header : Header) (stream : Stream.Compressor) (block written : Bytes) : Prop where
  flagged : storedBit ≤ written.natAt 0 4 ↔ block.size < (stream.block block).size
  stored : block.size < (stream.block block).size → written = record header true block
  compressed : (stream.block block).size ≤ block.size →
    written = record header false (stream.block block)

/-- The blocks of a frame and their records, each chosen behind the history that its stream has by
then. No block is empty or longer than the header allows. -/
inductive Choices (header : Header) : Stream.Compressor → List Bytes → List Bytes → Prop
  | nil (stream : Stream.Compressor) : Choices header stream [] []
  | cons {stream : Stream.Compressor} {block written : Bytes} {blocks records : List Bytes}
      (nonempty : 0 < block.size) (fits : block.size ≤ header.blockSize.bytes)
      (chosen : Chosen header (blockStart header stream) block written)
      (onward : Choices header (compressRecord header block stream).2 blocks records) :
      Choices header stream (block :: blocks) (written :: records)

variable {header : Header} {stream : Stream.Compressor} {block payload : Bytes}

/-- The length in front of a record tells whether its block is stored. -/
theorem storedBit_le_record_iff (small : payload.size < storedBit) (stored : Bool) :
    storedBit ≤ (record header stored payload).natAt 0 4 ↔ stored = true := by
  obtain ⟨-, -, flag⟩ := length_field small stored
  rw [Run.natAt_record header small stored]
  constructor
  · exact fun large => flag.symm.trans (decide_eq_true large)
  · exact fun set => of_decide_eq_true (flag.trans set)

/-- The record of a block is the one that is to be chosen. -/
theorem compressRecord_chosen (fits : block.size ≤ header.blockSize.bytes)
    (limit : stream.settings.chunkLimit = header.blockSize.bytes) :
    Chosen header (blockStart header stream) block (compressRecord header block stream).1 := by
  have short := chunkProblem_of_fits limit fits
  have small := lt_storedBit_of_le fits
  rw [compressRecord_fst short]
  by_cases shorter : ((blockStart header stream).block block).size ≤ block.size
  · have smaller := Nat.lt_of_le_of_lt shorter small
    rw [if_pos shorter]
    refine ⟨?_, fun longer => absurd longer (Nat.not_lt_of_le shorter), fun _ => rfl⟩
    exact iff_of_false (fun set => Bool.false_ne_true
      ((storedBit_le_record_iff smaller false).mp set)) (Nat.not_lt_of_le shorter)
  · have longer := Nat.lt_of_not_le shorter
    rw [if_neg shorter]
    refine ⟨?_, fun _ => rfl, fun fitting => absurd fitting shorter⟩
    exact iff_of_true ((storedBit_le_record_iff small true).mpr rfl) longer

/-- The match in place of the four bytes that are repeated saves as many bytes as its distance and
the two tokens take, so the compressed form of these sixteen bytes has sixteen as well. It is not
shorter than the block, and yet the block is not stored. -/
theorem encode_equalLength :
    let settings : Settings := { contentChecksum := false }
    let block : Bytes := #[0, 1, 2, 3, 0, 1, 2, 3, 8, 9, 10, 11, 12, 13, 14, 15]
    let compressed : Bytes := #[0x40, 0, 1, 2, 3, 4, 0, 0x80, 8, 9, 10, 11, 12, 13, 14, 15]
    (blockStart settings.header (Session.start settings).stream).block block = compressed ∧
      ¬ compressed.size < block.size ∧
      encode block settings =
        .ok (settings.header.encode ++ record settings.header false compressed ++ endMark) ∧
      ¬ storedBit ≤ (record settings.header false compressed).natAt 0 4 := by
  intro settings block compressed
  have made : (blockStart settings.header (Session.start settings).stream).block block =
      compressed := by
    decide +kernel
  have encoded : (encode block settings).toOption =
      some (settings.header.encode ++ record settings.header false compressed ++ endMark) := by
    decide +kernel
  have small : compressed.size < storedBit := by decide
  refine ⟨made, by decide, ?_, fun set => Bool.false_ne_true
    ((storedBit_le_record_iff small false).mp set)⟩
  cases found : encode block settings with
  | error error =>
    rw [found] at encoded
    cases encoded
  | ok frame =>
    rw [found] at encoded
    exact congrArg Except.ok (Option.some.inj encoded)

theorem Recorded.choices {before after : Stream.Compressor} {blocks records : List Bytes}
    (recorded : Recorded header before blocks records after)
    (limit : before.settings.chunkLimit = header.blockSize.bytes) :
    Choices header before blocks records := by
  induction recorded with
  | nil stream => exact .nil stream
  | @cons stream after block blocks records nonempty fits onward ih =>
    have limitAfter := (settings_compressRecord header block stream).symm ▸ limit
    exact .cons nonempty fits (compressRecord_chosen fits limit) (ih limitAfter)

/-- A session of a frame that has cut blocks from its input and written their records. The rest is
pending. -/
structure Session.Cuts (settings : Settings) (session : Session) (input : Bytes)
    (blocks records : List Bytes) : Prop where
  wrote : session.Wrote settings input (concat records)
  recorded : Recorded settings.header (start settings).stream blocks records session.stream
  content : input = concat blocks ++ session.pending

namespace Session.Cuts

variable {settings : Settings} {session : Session} {input : Bytes} {blocks records : List Bytes}

theorem start (settings : Settings) : (Session.start settings).Cuts settings #[] [] [] :=
  ⟨Session.wrote_start settings, .nil _, rfl⟩

theorem room (cutting : session.Cuts settings input blocks records) :
    session.pending.size < session.header.blockSize.bytes := by
  rw [cutting.wrote.header]
  exact cutting.wrote.room

/-- What is cut after the blocks of a session are more of its blocks. -/
theorem advance {after : Session} {data written : Bytes} {more moreRecords : List Bytes}
    (cutting : session.Cuts settings input blocks records)
    (wrote : after.Wrote settings (input ++ data) (concat records ++ written))
    (cuts : RecordWriter.Cuts session.header ⟨session.stream, session.pending, #[]⟩
      ⟨after.stream, after.pending, written⟩ data more moreRecords) :
    written = concat moreRecords ∧
      after.Cuts settings (input ++ data) (blocks ++ more) (records ++ moreRecords) := by
  have written_eq : written = concat moreRecords := cuts.written.trans Array.empty_append
  rw [cutting.wrote.header] at cuts
  refine ⟨written_eq, ?_, cutting.recorded.append cuts.recorded, ?_⟩
  · rwa [concat_append, ← written_eq]
  · rw [cutting.content, Array.append_assoc, cuts.content, concat_append, Array.append_assoc]

theorem flush (cutting : session.Cuts settings input blocks records) :
    ∃ more moreRecords, session.flush.1 = concat moreRecords ∧
      session.flush.2.Cuts settings input (blocks ++ more) (records ++ moreRecords) := by
  obtain ⟨⟨more, moreRecords, cuts⟩, -⟩ := session.cuts_flush cutting.room
  have wrote := cutting.wrote.flush
  rw [← @Array.append_empty _ input] at wrote
  have after := cutting.advance wrote cuts
  rw [Array.append_empty] at after
  exact ⟨more, moreRecords, after⟩

theorem update (cutting : session.Cuts settings input blocks records) (data : Bytes) :
    ∃ more moreRecords, (session.update data).1 = concat moreRecords ∧
      (session.update data).2.Cuts settings (input ++ data) (blocks ++ more)
        (records ++ moreRecords) := by
  obtain ⟨⟨more, moreRecords, cuts⟩, -⟩ := session.cuts_update cutting.room data
  exact ⟨more, moreRecords, cutting.advance (cutting.wrote.update data) cuts⟩

theorem call (cutting : session.Cuts settings input blocks records) (call : Call) :
    ∃ more moreRecords after,
      (Encoder.started session).call call = (.ok (concat moreRecords), .started after) ∧
      after.Cuts settings (input ++ call.data) (blocks ++ more) (records ++ moreRecords) := by
  cases call with
  | update data =>
    obtain ⟨more, moreRecords, written, after⟩ := cutting.update data
    refine ⟨more, moreRecords, _, ?_, after⟩
    rw [← written]
    rfl
  | flush =>
    obtain ⟨more, moreRecords, written, after⟩ := cutting.flush
    rw [← @Array.append_empty _ input] at after
    refine ⟨more, moreRecords, _, ?_, after⟩
    rw [← written]
    rfl

/-- Whatever calls are made in a frame, what they give out are the records of more blocks. -/
theorem calls (cutting : session.Cuts settings input blocks records) (made : List Call) :
    ∃ more moreRecords after,
      (Encoder.started session).calls made = (.ok (concat moreRecords), .started after) ∧
      after.Cuts settings (input ++ contents made) (blocks ++ more)
        (records ++ moreRecords) := by
  induction made generalizing session input blocks records with
  | nil =>
    refine ⟨[], [], session, rfl, ?_⟩
    rwa [contents, List.map_nil, concat_nil, Array.append_empty, List.append_nil, List.append_nil]
  | cons call rest ih =>
    obtain ⟨more, moreRecords, middle, called, between⟩ := cutting.call call
    obtain ⟨others, otherRecords, after, calledRest, cuttingAfter⟩ := ih between
    refine ⟨more ++ others, moreRecords ++ otherRecords, after, ?_, ?_⟩
    · rw [Encoder.calls, called]
      dsimp only
      rw [calledRest, concat_append]
    · rwa [contents, List.map_cons, concat_cons, ← contents, ← Array.append_assoc,
        ← List.append_assoc, ← List.append_assoc]

/-- The records that a session has written are chosen for its blocks. -/
theorem choices (cutting : session.Cuts settings input blocks records) :
    Choices settings.header (Session.start settings).stream blocks records :=
  cutting.recorded.choices rfl

end Session.Cuts

namespace Writer

/-- Whatever is asked of a writer in a frame, it gives out the header and the records of blocks that
make up what it took in, but for what is pending, and when the frame ends that is written as well.
Each block is stored as it is exactly if the block that the compressor makes of it behind its history
is longer; otherwise the record holds what the compressor made, which is no longer than the block. -/
theorem requests_chosen {writer : Writer} (quiet : writer.isStarted = false) (settings : Settings)
    (made : List Call) :
    ∃ outputs last blocks records,
      writer.requests (.begin settings :: made.map Call.request) = (outputs.map .ok, last) ∧
      concat outputs = settings.header.encode ++ concat records ∧
      contents made = concat blocks ++ last.pending ∧
      Choices settings.header (Session.start settings).stream blocks records ∧
      ((∀ size, settings.header.knownContentSize = some size →
          size.toNat = (contents made).size) →
        ∃ rest restRecords after,
          last.finish =
            (.ok (concat restRecords ++ ending settings.header (contents made)), after) ∧
          last.pending = concat rest ∧
          Choices settings.header (Session.start settings).stream (blocks ++ rest)
            (records ++ restRecords)) := by
  obtain ⟨blocks, records, after, called, cutting⟩ := (Session.Cuts.start settings).calls made
  rw [Array.empty_append, List.nil_append, List.nil_append] at cutting
  obtain ⟨outputs, last, asked, together, follows⟩ := requests_of_calls quiet called
  have pending := follows.keeps.pending
  refine ⟨outputs, last, blocks, records, asked, together, ?_, cutting.choices, ?_⟩
  · rw [pending]
    exact cutting.content
  · intro announced
    have fine := cutting.wrote.endProblem_none announced
    obtain ⟨closed, finished, -⟩ := (finish_of_follows follows).2 fine
    obtain ⟨rest, restRecords, written, flushed⟩ := cutting.flush
    refine ⟨rest, restRecords, closed, ?_, ?_, flushed.choices⟩
    · rw [finished, cutting.wrote.close_eq, written]
    · have content := flushed.content
      have empty : after.flush.2.pending = #[] := RecordWriter.pending_flush _ _
      rw [empty, Array.append_empty, concat_append, cutting.content,
        Array.append_right_inj] at content
      exact pending.trans content

/-- Two blocks, one of which is flushed and the other closed, behind a dictionary. -/
theorem requests_chosen_linked :
    let settings : Settings :=
      { independentBlocks := false, dictionary := #[2, 3], contentSize := some 7 }
    let made : List Call := [.update #[1, 2, 3], .flush, .update #[1, 2, 3, 4]]
    ∃ outputs last blocks records rest restRecords after,
      new.requests (.begin settings :: made.map Call.request) = (outputs.map .ok, last) ∧
      concat outputs = settings.header.encode ++ concat records ∧
      #[1, 2, 3, 1, 2, 3, 4] = concat blocks ++ last.pending ∧
      last.finish = (.ok (concat restRecords ++
        ending settings.header #[1, 2, 3, 1, 2, 3, 4]), after) ∧
      last.pending = concat rest ∧
      Choices settings.header (Session.start settings).stream (blocks ++ rest)
        (records ++ restRecords) := by
  intro settings made
  obtain ⟨outputs, last, blocks, records, asked, together, content, -, finishes⟩ :=
    @requests_chosen new rfl settings made
  obtain ⟨rest, restRecords, after, finished, pending, choices⟩ := finishes (by
    intro size known
    cases known
    rfl)
  exact ⟨outputs, last, blocks, records, rest, restRecords, after, asked, together, content,
    finished, pending, choices⟩

end Writer

end Lz4.Frame
