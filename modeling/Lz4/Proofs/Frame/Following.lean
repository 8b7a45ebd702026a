import Lz4.Frame.Encoder
import Lz4.Proofs.Frame.Blocks

/-!
# A decoder follows an encoder

Between two records a decoder that was given everything written so far holds the content that was
written, and remembers what the stream of the encoder remembers (`Lz4.Frame.Run.Between`). Written
bytes carry content from one state of the stream to another if they take a decoder from there to
there (`Lz4.Frame.Carries`); this can be chained, and holds of every record. So the records of
blocks carry the blocks (`Lz4.Frame.Carries.of_recorded`), and whatever a record writer does, it
carries the part of its input that is not pending (`Lz4.Frame.RecordWriter.Cuts.advances`).
-/

namespace Lz4.Frame

open Bytes Checksum

/-- The checksum of the content so far, if the frame has one and the decoder compares it. -/
def contentHasher (header : Header) (options : Options) (content : Bytes) : Option Hasher :=
  if header.contentChecksum && options.verifyContent then some (Hasher.new.update content) else none

theorem contentHasher_append (header : Header) (options : Options) (content more : Bytes) :
    (contentHasher header options content).map (·.update more) =
      contentHasher header options (content ++ more) := by
  unfold contentHasher
  split
  · rw [Option.map_some, Hasher.update_append]
  · rfl

/-- A run that waits for a record of a frame, or for the end: it found the content so far. -/
structure Run.Awaits (header : Header) (content : Bytes) (run : Run) : Prop where
  sound : run.fault = none
  stage : run.decoder.stage = .blockLength
  pending : run.decoder.pending = #[]
  known : run.decoder.header = some header
  hasher : run.decoder.hasher = contentHasher header run.decoder.options content
  decoded : run.decoder.decoded = content.size
  output : run.output = content

/-- A run between two records of a frame: it found the content so far, took in so many bytes, and
remembers what the stream of the encoder remembers. -/
structure Run.Between (header : Header) (stream : Stream.Compressor) (content : Bytes)
    (consumed : Nat) (run : Run) : Prop where
  sound : run.fault = none
  stage : run.decoder.stage = .blockLength
  pending : run.decoder.pending = #[]
  known : run.decoder.header = some header.readBack
  hasher : run.decoder.hasher = contentHasher header run.decoder.options content
  decoded : run.decoder.decoded = content.size
  output : run.output = content
  consumed : run.consumed = consumed
  dictionary : run.decoder.options.dictionary = stream.dictionary
  window : header.independentBlocks = false → run.decoder.window = stream.history

theorem Run.Between.awaits {header : Header} {stream : Stream.Compressor} {content : Bytes}
    {consumed : Nat} {run : Run} (between : run.Between header stream content consumed) :
    run.Awaits header.readBack content :=
  ⟨between.sound, between.stage, between.pending, between.known, between.hasher, between.decoded,
    between.output⟩

/-- Nothing between two records depends on what is in the buffer. -/
theorem Run.Between.withBuffer {header : Header} {stream : Stream.Compressor} {content : Bytes}
    {consumed : Nat} {run : Run} (between : run.Between header stream content consumed)
    (buffer : Bytes) : (run.withBuffer buffer).Between header stream content consumed :=
  ⟨between.sound, between.stage, between.pending, between.known, between.hasher, between.decoded,
    between.output, between.consumed, between.dictionary, between.window⟩

/-- The written bytes take a decoder that follows the stream from one state to another, and give it
the content. -/
structure Carries (header : Header) (before after : Stream.Compressor) (written content : Bytes) :
    Prop where
  settings : after.settings = before.settings
  onward : ∀ {data : Bytes} {run : Run} {found : Bytes} {consumed : Nat},
    run.Between header before found consumed → data.Holds consumed written →
      ∃ next : Run, run.drive data = next.drive data ∧
        next.Between header after (found ++ content) (consumed + written.size)

namespace Carries

variable {header : Header} {before middle after : Stream.Compressor}

theorem refl (header : Header) (stream : Stream.Compressor) :
    Carries header stream stream #[] #[] := by
  refine ⟨rfl, ?_⟩
  intro data run found consumed between held
  refine ⟨run, rfl, ?_⟩
  rwa [Array.append_empty]

theorem trans {first second content more : Bytes} (one : Carries header before middle first content)
    (two : Carries header middle after second more) :
    Carries header before after (first ++ second) (content ++ more) := by
  refine ⟨two.settings.trans one.settings, ?_⟩
  intro data run found consumed between held
  obtain ⟨firstHeld, secondHeld⟩ := holds_append_iff.mp held
  obtain ⟨next, same, betweenNext⟩ := one.onward between firstHeld
  obtain ⟨last, sameLast, betweenLast⟩ := two.onward betweenNext secondHeld
  refine ⟨last, same.trans sameLast, ?_⟩
  rwa [Array.append_assoc, Nat.add_assoc, ← Array.size_append] at betweenLast

/-- Taking in a record of a block keeps a decoder in step with the stream. -/
theorem between_addContent {run : Run} {found block record : Bytes} {consumed : Nat}
    (between : run.Between header before found consumed)
    (remembers : (blockStart header before).Remembers after block) :
    ((run.collect record).addContent block).Between header after (found ++ block)
      (consumed + record.size) := by
  obtain ⟨⟨options, stage, header?, pending, position, window, hasher, decoded, buffer⟩, output,
    taken, fault⟩ := run
  obtain ⟨sound, atLength, empty, known, summed, counted, found_eq, taken_eq, dictionary,
    windowSame⟩ := between
  dsimp only at sound atLength empty known summed counted found_eq taken_eq dictionary windowSame
  subst sound atLength empty known summed counted found_eq taken_eq
  refine ⟨rfl, rfl, rfl, rfl, ?_, ?_, rfl, rfl, ?_, ?_⟩
  · exact contentHasher_append header options _ block
  · exact Array.size_append.symm
  · rw [remembers.dictionary, dictionary_blockStart]
    exact dictionary
  · intro linked
    rw [remembers.history, history_blockStart, linked, if_neg Bool.false_ne_true,
      ← windowSame linked, ← Stream.extendWindow_eq_takeLast]
    simp only [Run.collect, Run.addContent, Decoder.announces, Option.any_some, Header.readBack,
      linked, Bool.false_eq_true, ↓reduceIte]

/-- The record of a block carries the block. -/
theorem compressRecord {block : Bytes} {stream : Stream.Compressor} (nonempty : 0 < block.size)
    (fits : block.size ≤ header.blockSize.bytes)
    (limit : stream.settings.chunkLimit = header.blockSize.bytes) :
    Carries header stream (compressRecord header block stream).2
      (compressRecord header block stream).1 block := by
  have short := chunkProblem_of_fits limit fits
  obtain ⟨stored, payload, recorded, positive, smaller, represents, remembers⟩ :=
    compressRecord_eq header nonempty short
  refine ⟨remembers.settings.trans (settings_blockStart header stream), ?_⟩
  intro data run found consumed between held
  rw [recorded] at held ⊢
  have small := lt_storedBit_of_le (Nat.le_trans smaller fits)
  have history : (if header.readBack.independentBlocks then run.decoder.options.dictionary
      else run.decoder.window) =
        if header.independentBlocks then stream.dictionary else stream.history := by
    rw [between.dictionary]
    cases linked : header.independentBlocks with
    | false => simp [Header.readBack, linked, between.window linked]
    | true => simp [Header.readBack, linked]
  have limitSame : header.readBack.blockSize.bytes = header.blockSize.bytes :=
    header.blockSize.bytes_readBack
  have represented := represents header.blockSize.bytes fits
  rw [← history, ← limitSame] at represented
  obtain ⟨buffer, added⟩ :=
    (run.collect (record header stored payload)).exists_addBlock_eq stored block
  refine ⟨_, ?_, (between_addContent between remembers).withBuffer buffer⟩
  rw [← between.consumed] at held
  rw [← added]
  exact @Run.drive_record run header.readBack data payload stored block between.sound between.stage
    between.pending between.known (fun _ => positive) small (limitSame ▸ Nat.le_trans smaller fits)
    represented held

/-- The records of blocks carry the blocks. -/
theorem of_recorded {blocks records : List Bytes}
    (recorded : Recorded header before blocks records after)
    (limit : before.settings.chunkLimit = header.blockSize.bytes) :
    Carries header before after (concat records) (concat blocks) := by
  induction recorded with
  | nil stream => exact Carries.refl header stream
  | @cons stream after block blocks records nonempty fits onward ih =>
    rw [concat_cons, concat_cons]
    have limitAfter := (settings_compressRecord header block stream).symm ▸ limit
    exact (Carries.compressRecord nonempty fits limit).trans (ih limitAfter)

end Carries

namespace RecordWriter

variable {header : Header}

/-- What a writer wrote on the way from one state to another carries its input, but for what is
pending. -/
def Advances (header : Header) (before after : RecordWriter) (data : Bytes) : Prop :=
  ∃ written content, after.written = before.written ++ written ∧
    Carries header before.stream after.stream written content ∧
    before.pending ++ data = content ++ after.pending

theorem Cuts.advances {before after : RecordWriter} {data : Bytes} {blocks records : List Bytes}
    (cuts : Cuts header before after data blocks records)
    (limit : before.stream.settings.chunkLimit = header.blockSize.bytes) :
    Advances header before after data :=
  ⟨concat records, concat blocks, cuts.written, .of_recorded cuts.recorded limit, cuts.content⟩

end RecordWriter

end Lz4.Frame
