import Lz4.Proofs.Frame.Layout

/-!
# Independent blocks

In a frame of independent blocks the stream starts over in front of every block. What starting over
leaves of an earlier block is at most an index that the next block clears, so all blocks of a frame
find the same stream (`Lz4.Frame.reset_compressRecord`) and each becomes the record that it would
become as the first one (`Lz4.Frame.Recorded.eq_map`). So the record of a slice depends on
nothing but the slice and the settings, and what it holds decodes to the slice behind the dictionary
(`Lz4.Frame.encode_independent`).
-/

namespace Lz4.Frame

open Bytes

/-- The record of a block that is the first one of its frame. -/
def Settings.firstRecord (settings : Settings) (block : Bytes) : Bytes :=
  (compressRecord settings.header block (Session.start settings).stream).1

section Records

variable {header : Header} {first second : Stream.Compressor} {block : Bytes}

theorem blockStart_of_independent (independent : header.independentBlocks = true)
    (stream : Stream.Compressor) : blockStart header stream = stream.reset :=
  if_pos independent

/-- Streams that start over alike make the same record of a block. -/
theorem record_of_reset (independent : header.independentBlocks = true)
    (alike : first.reset.cleared = second.reset.cleared)
    (short : first.settings.chunkProblem? block.size = none) :
    (compressRecord header block first).1 = (compressRecord header block second).1 := by
  have settings : first.settings = second.settings := (Stream.Compressor.same_of_cleared alike).1
  have same : first.reset.block block = second.reset.block block := by
    rw [← Stream.Compressor.block_cleared, alike, Stream.Compressor.block_cleared]
  rw [compressRecord_fst short, compressRecord_fst (settings ▸ short),
    blockStart_of_independent independent, blockStart_of_independent independent, same]

/-- A stream starts over in the same way before and after a block. -/
theorem reset_compressRecord (independent : header.independentBlocks = true) (block : Bytes)
    (stream : Stream.Compressor) :
    (compressRecord header block stream).2.reset.cleared = stream.reset.cleared := by
  have again : stream.reset.reset = stream.reset := by
    obtain ⟨settings, dictionary, history, engine⟩ := stream
    exact congrArg (Stream.Compressor.mk settings dictionary dictionary)
      (engine.restart_restart dictionary dictionary)
  rw [compressRecord_snd, blockStart_of_independent independent,
    Stream.Compressor.cleared_reset_compressBlock, again]

end Records

variable {settings : Settings}

/-- Every block becomes the record that it would become as the first one. -/
theorem Recorded.eq_map {before after : Stream.Compressor} {blocks records : List Bytes}
    (recorded : Recorded settings.header before blocks records after)
    (independent : settings.independentBlocks = true)
    (alike : before.reset.cleared = (Session.start settings).stream.reset.cleared) :
    records = blocks.map settings.firstRecord := by
  -- The streams differ from block to block, but all of them start over alike.
  induction recorded with
  | nil => rfl
  | @cons stream after block blocks records nonempty fits onward ih =>
    have same : stream.settings = (Session.start settings).stream.settings :=
      (Stream.Compressor.same_of_cleared alike).1
    have short : stream.settings.chunkProblem? block.size = none := by
      rw [same]
      exact if_neg (Nat.not_lt_of_le fits)
    have again := @reset_compressRecord settings.header independent block stream
    rw [List.map_cons, Settings.firstRecord, record_of_reset independent alike short,
      ih (again.trans alike)]

/-- What the record of a block holds stands for the block behind the dictionary. -/
theorem firstRecord_eq (settings : Settings) {block : Bytes} (nonempty : 0 < block.size)
    (fits : block.size ≤ settings.blockSize.bytes) :
    ∃ (stored : Bool) (payload : Bytes),
      settings.firstRecord block = record settings.header stored payload ∧
        Represents (Block.dictionaryWindow settings.dictionary) settings.blockSize.bytes block
          stored payload := by
  have short : (Session.start settings).stream.settings.chunkProblem? block.size = none :=
    if_neg (Nat.not_lt_of_le fits)
  obtain ⟨stored, payload, written, -, -, represents, -⟩ :=
    compressRecord_eq settings.header nonempty short
  obtain ⟨dictionary, history⟩ := Run.stream_start settings
  have behind := represents settings.blockSize.bytes fits
  rw [dictionary, history, ite_self] at behind
  exact ⟨stored, payload, written, behind⟩

/-- A frame of independent blocks is its header, the record that each slice of its data would have
as the first one, and what stands behind the records. Each record holds its slice, or something that
decodes to it behind nothing but the dictionary. -/
theorem encode_independent (independent : settings.independentBlocks = true) (data : Bytes) :
    (∀ frame, encode data settings = .ok frame ↔
      Announced settings.header data ∧
        frame = settings.header.encode ++
          concat ((settings.blockSize.slices data).map settings.firstRecord) ++
            ending settings.header data) ∧
    ∀ block ∈ settings.blockSize.slices data, ∃ (stored : Bool) (payload : Bytes),
      settings.firstRecord block = record settings.header stored payload ∧
        (stored = true → payload = block) ∧
        (stored = false →
          Block.decode payload (Block.dictionaryWindow settings.dictionary)
            settings.blockSize.bytes = .ok block) := by
  obtain ⟨after, recorded⟩ := settings.recorded_records data
  have records := recorded.eq_map independent rfl
  refine ⟨?_, ?_⟩
  · intro frame
    rw [← records]
    exact encode_eq_ok_iff
  · intro block member
    obtain ⟨nonempty, fits⟩ := BlockSize.size_of_mem_slices member
    obtain ⟨stored, payload, written, represents⟩ := firstRecord_eq settings nonempty fits
    refine ⟨stored, payload, written, ?_, ?_⟩
    · intro plain
      rwa [plain] at represents
    · intro compressed
      rwa [compressed] at represents

/-- A full block and three bytes behind it, with a dictionary that both refer to. -/
theorem encode_independent_two :
    let settings : Settings := { level := 9, dictionary := #[1, 1, 1, 1, 1, 1, 1, 1] }
    let full : Bytes := Array.replicate (1 <<< 16) 1
    ∃ frame, encode (full ++ #[1, 2, 3]) settings = .ok frame ∧
      frame = settings.header.encode ++
        (settings.firstRecord full ++ settings.firstRecord #[1, 2, 3]) ++
          ending settings.header (full ++ #[1, 2, 3]) := by
  intro settings full
  have size : full.size = settings.blockSize.bytes := Array.size_replicate
  have announced : Announced settings.header (full ++ #[1, 2, 3]) := fun _ same => nomatch same
  have slices : settings.blockSize.slices (full ++ #[1, 2, 3]) = [full, #[1, 2, 3]] := by
    rw [BlockSize.slices_append_of_full size, BlockSize.slices_of_le (by decide) (by decide)]
  have made := (@encode_independent settings rfl (full ++ #[1, 2, 3])).1
  rw [slices] at made
  refine ⟨_, (made _).mpr ⟨announced, rfl⟩, ?_⟩
  simp only [List.map_cons, List.map_nil, concat_cons, concat_nil, Array.append_empty]

end Lz4.Frame
