import Lz4.Proofs.Frame.Chunking
import Lz4.Proofs.Frame.Accepted

/-!
# What a frame consists of

The data of a frame are divided into slices that fill a block each, but for the last one, which may
be shorter (`Lz4.Frame.BlockSize.slices`). A frame is its header, the records that the slices become
one after the other, and what stands behind the records, and it is made exactly if the data are as
long as its header announces (`Lz4.Frame.encode_eq_ok_iff`). Whether pending data are written at
once makes no difference to that (`Lz4.Frame.Session.update_append_flush`).
-/

namespace Lz4.Frame

open Bytes Checksum

namespace BlockSize

/-- The blocks that data are divided into, none of which is empty. Only the last may be shorter than
the block size. -/
def slices (size : BlockSize) (data : Bytes) : List Bytes :=
  if data.size = 0 then []
  else data.extract 0 size.bytes :: size.slices (data.dropFirst size.bytes)
termination_by data.size
decreasing_by
  have positive := size.bytes_pos
  rw [size_dropFirst]
  omega

variable {size : BlockSize} {data block : Bytes}

@[simp] theorem slices_empty (size : BlockSize) : size.slices #[] = [] := by
  rw [slices]
  exact if_pos rfl

/-- A full block in front is the first slice. -/
theorem slices_append_of_full (full : block.size = size.bytes) (rest : Bytes) :
    size.slices (block ++ rest) = block :: size.slices rest := by
  have positive := size.bytes_pos
  have some : ¬ (block ++ rest).size = 0 := by
    rw [Array.size_append]
    omega
  rw [slices, if_neg some, ← full, extract_append_of_le (Nat.le_refl _), Array.extract_size,
    dropFirst_append]

/-- Data that do not exceed a block are one slice, unless there are none. -/
theorem slices_of_le (some : 0 < data.size) (fits : data.size ≤ size.bytes) :
    size.slices data = [data] := by
  rw [slices, if_neg (Nat.ne_of_gt some), extract_of_size_le fits, Array.extract_size,
    dropFirst_of_size_le fits, slices_empty]

/-- Data are shorter than a block, or a full block and other data. -/
theorem slices_induction {size : BlockSize} {motive : Bytes → Prop}
    (short : ∀ data, data.size < size.bytes → motive data)
    (full : ∀ block rest, block.size = size.bytes → motive rest → motive (block ++ rest))
    (data : Bytes) : motive data := by
  by_cases enough : size.bytes ≤ data.size
  · have filled : (data.extract 0 size.bytes).size = size.bytes := Array.size_extract_of_le enough
    have parts : data.extract 0 size.bytes ++ data.dropFirst size.bytes = data := by
      rw [dropFirst, extract_append_extract (Nat.zero_le _) enough, Array.extract_size]
    rw [← parts]
    exact full _ _ filled (slices_induction short full (data.dropFirst size.bytes))
  · exact short data (Nat.lt_of_not_le enough)
termination_by data.size
decreasing_by
  have positive := size.bytes_pos
  rw [size_dropFirst]
  omega

/-- The slices make up the data. -/
theorem concat_slices (size : BlockSize) (data : Bytes) : concat (size.slices data) = data := by
  induction data using @slices_induction size with
  | short data short =>
    rcases Nat.eq_zero_or_pos data.size with none | some
    · rw [Array.size_eq_zero_iff.mp none, slices_empty, concat_nil]
    · rw [slices_of_le some (Nat.le_of_lt short), concat_cons, concat_nil, Array.append_empty]
  | full block rest full ih => rw [slices_append_of_full full, concat_cons, ih]

/-- No slice is empty or exceeds a block. -/
theorem size_of_mem_slices (member : block ∈ size.slices data) :
    0 < block.size ∧ block.size ≤ size.bytes := by
  induction data using @slices_induction size with
  | short data short =>
    rcases Nat.eq_zero_or_pos data.size with none | some
    · rw [Array.size_eq_zero_iff.mp none, slices_empty] at member
      cases member
    · rw [slices_of_le some (Nat.le_of_lt short), List.mem_singleton] at member
      subst member
      exact ⟨some, Nat.le_of_lt short⟩
  | full front rest full ih =>
    rw [slices_append_of_full full, List.mem_cons] at member
    rcases member with rfl | later
    · exact ⟨full ▸ size.bytes_pos, Nat.le_of_eq full⟩
    · exact ih later

end BlockSize

/-- The records of blocks that are compressed one after the other. -/
def recordsOf (header : Header) : Stream.Compressor → List Bytes → List Bytes
  | _, [] => []
  | stream, block :: rest =>
    (compressRecord header block stream).1 ::
      recordsOf header (compressRecord header block stream).2 rest

theorem recorded_recordsOf {header : Header} (stream : Stream.Compressor) {blocks : List Bytes}
    (cut : ∀ block ∈ blocks, 0 < block.size ∧ block.size ≤ header.blockSize.bytes) :
    ∃ after, Recorded header stream blocks (recordsOf header stream blocks) after := by
  induction blocks generalizing stream with
  | nil => exact ⟨stream, .nil stream⟩
  | cons block rest ih =>
    obtain ⟨nonempty, fits⟩ := cut block List.mem_cons_self
    obtain ⟨after, onward⟩ := ih (compressRecord header block stream).2
      fun later member => cut later (List.mem_cons_of_mem _ member)
    exact ⟨after, .cons nonempty fits onward⟩

/-- The records that a session makes of data if nothing is pending before them. -/
def Session.records (session : Session) (data : Bytes) : List Bytes :=
  recordsOf session.header session.stream (session.header.blockSize.slices data)

/-- The records of a frame that holds the data. -/
def Settings.records (settings : Settings) (data : Bytes) : List Bytes :=
  (Session.start settings).records data

theorem Settings.recorded_records (settings : Settings) (data : Bytes) :
    ∃ after, Recorded settings.header (Session.start settings).stream
      (settings.blockSize.slices data) (settings.records data) after :=
  recorded_recordsOf _ fun _ member => BlockSize.size_of_mem_slices member

namespace RecordWriter

variable {header : Header}

theorem writeBlock_eq (header : Header) (writer : RecordWriter) (block : Bytes) :
    writer.writeBlock header block =
      ⟨(compressRecord header block writer.stream).2, writer.pending,
        writer.written ++ (compressRecord header block writer.stream).1⟩ := rfl

theorem flush_of_empty (stream : Stream.Compressor) (written : Bytes) :
    flush header ⟨stream, #[], written⟩ = ⟨stream, #[], written⟩ := rfl

theorem flush_of_some {pending : Bytes} (some : 0 < pending.size) (stream : Stream.Compressor)
    (written : Bytes) :
    flush header ⟨stream, pending, written⟩ =
      writeBlock header ⟨stream, #[], written⟩ pending := by
  unfold flush
  dsimp only
  rw [if_neg]
  rw [Array.isEmpty_iff_size_eq_zero]
  exact Nat.ne_of_gt some

/-- Records in front make no difference to what is pending. -/
theorem flush_behind (front : Bytes) (writer : RecordWriter) :
    (writer.behind front).flush header = (writer.flush header).behind front := by
  obtain ⟨stream, pending, written⟩ := writer
  rcases Nat.eq_zero_or_pos pending.size with none | some
  · rw [Array.size_eq_zero_iff.mp none]
    rfl
  · rw [flush_of_some some, ← writeBlock_behind]
    exact flush_of_some some stream (front ++ written)

theorem appendBlocks_empty (writer : RecordWriter) : appendBlocks header #[] 0 writer = writer := by
  have none : ¬ 0 + header.blockSize.bytes ≤ (#[] : Bytes).size :=
    Nat.not_le_of_lt (Nat.lt_of_lt_of_eq header.blockSize.bytes_pos (Nat.zero_add _).symm)
  rw [appendBlocks_of_short none, Array.extract_size, Array.append_empty]

/-- A full block in front is the first one that is cut. -/
theorem appendBlocks_append_of_full {block : Bytes} (full : block.size = header.blockSize.bytes)
    (rest : Bytes) (writer : RecordWriter) :
    appendBlocks header (block ++ rest) 0 writer =
      appendBlocks header rest 0 (writer.writeBlock header block) := by
  have fits : 0 + header.blockSize.bytes ≤ (block ++ rest).size := by
    rw [Array.size_append]
    omega
  have further := @appendBlocks_append header block rest 0
  rw [full, Nat.add_zero] at further
  rw [appendBlocks_of_full fits, Nat.zero_add, ← full, extract_append_of_le (Nat.le_refl _),
    Array.extract_size, full, further]

/-- When everything is written, what was cut from the data are the records of their slices. -/
theorem flush_appendBlocks (data : Bytes) (stream : Stream.Compressor) (written : Bytes) :
    ((appendBlocks header data 0 ⟨stream, #[], written⟩).flush header).written =
      written ++ concat (recordsOf header stream (header.blockSize.slices data)) := by
  induction data using @BlockSize.slices_induction header.blockSize
    generalizing stream written with
  | short data short =>
    rw [appendBlocks_of_short (by omega), Array.empty_append, Array.extract_size]
    rcases Nat.eq_zero_or_pos data.size with none | some
    · rw [Array.size_eq_zero_iff.mp none, BlockSize.slices_empty, flush_of_empty, recordsOf,
        concat_nil, Array.append_empty]
    · rw [BlockSize.slices_of_le some (Nat.le_of_lt short), flush_of_some some, writeBlock_eq,
        recordsOf, recordsOf, concat_cons, concat_nil, Array.append_empty]
  | full block rest full ih =>
    rw [appendBlocks_append_of_full full, writeBlock_eq, ih, BlockSize.slices_append_of_full full,
      recordsOf, concat_cons, Array.append_assoc]

end RecordWriter

namespace Session

/-- Whether or not what is pending is written at once, all that is written of data in the end are the
records of the slices that the pending bytes and the data are divided into. -/
theorem update_append_flush {session : Session} (data : Bytes)
    (room : session.pending.size < session.header.blockSize.bytes) :
    (session.update data).1 ++ (session.update data).2.flush.1 =
      concat (session.records (session.pending ++ data)) := by
  obtain ⟨header, autoFlush, stream, pending, hasher, consumed⟩ := session
  dsimp only [records] at room ⊢
  have cut := @RecordWriter.append_eq header stream pending #[] data room
  have whole := @RecordWriter.flush_appendBlocks header (pending ++ data) stream #[]
  rw [← cut, Array.empty_append] at whole
  rw [← whole]
  -- What `update` leaves pending is written by it or by the flush, behind the same records.
  generalize appended : RecordWriter.append header ⟨stream, pending, #[]⟩ data = writer
  cases autoFlush with
  | false =>
    have parts := @RecordWriter.flush_behind header writer.written
      ⟨writer.stream, writer.pending, #[]⟩
    rw [RecordWriter.behind, Array.append_empty] at parts
    simp only [update, appended, Bool.false_eq_true, ↓reduceIte, flush]
    rw [parts]
    rfl
  | true =>
    simp only [update, appended, ↓reduceIte, flush, RecordWriter.pending_flush,
      RecordWriter.flush_of_empty, Array.append_empty]

/-- A full block is written at once when nothing is pending. -/
theorem update_full {session : Session} {block : Bytes} (empty : session.pending = #[])
    (full : block.size = session.header.blockSize.bytes) :
    session.update block =
      ((compressRecord session.header block session.stream).1,
        { session with
          stream := (compressRecord session.header block session.stream).2
          hasher := session.hasher.map (·.update block)
          consumed := session.consumed + block.size }) := by
  obtain ⟨header, autoFlush, stream, pending, hasher, consumed⟩ := session
  dsimp only at empty full
  subst empty
  have written : RecordWriter.append header ⟨stream, #[], #[]⟩ block =
      ⟨(compressRecord header block stream).2, #[], (compressRecord header block stream).1⟩ := by
    have cut := @RecordWriter.appendBlocks_append_of_full header block full #[] ⟨stream, #[], #[]⟩
    rw [Array.append_empty, RecordWriter.appendBlocks_empty, RecordWriter.writeBlock_eq,
      Array.empty_append] at cut
    have joined := @RecordWriter.append_eq header stream #[] #[] block header.blockSize.bytes_pos
    rw [joined, Array.empty_append, cut]
  cases autoFlush <;>
    simp only [update, written, Bool.false_eq_true, ↓reduceIte, RecordWriter.flush_of_empty]

theorem header_update (session : Session) (data : Bytes) :
    (session.update data).2.header = session.header := rfl

theorem pending_update_of_full {session : Session} {block : Bytes} (empty : session.pending = #[])
    (full : block.size = session.header.blockSize.bytes) :
    (session.update block).2.pending = #[] := by
  rw [update_full empty full]
  exact empty

theorem written_flush_of_empty {session : Session} (empty : session.pending = #[]) :
    session.flush.1 = #[] := by
  obtain ⟨header, autoFlush, stream, pending, hasher, consumed⟩ := session
  dsimp only at empty
  subst empty
  rfl

theorem records_empty (session : Session) : session.records #[] = [] := by
  rw [records, BlockSize.slices_empty, recordsOf]

/-- The record of a full block comes before those of the data behind it. -/
theorem records_append_of_full {session : Session} {block : Bytes} (empty : session.pending = #[])
    (full : block.size = session.header.blockSize.bytes) (rest : Bytes) :
    session.records (block ++ rest) =
      (session.update block).1 :: (session.update block).2.records rest := by
  rw [update_full empty full, records, BlockSize.slices_append_of_full full, recordsOf]
  rfl

end Session

/-- A frame is its header, the records of the slices of its data and what stands behind them. It is
made exactly if the data are as long as announced. -/
theorem encode_eq_ok_iff {settings : Settings} {data frame : Bytes} :
    encode data settings = .ok frame ↔
      Announced settings.header data ∧
        frame = settings.header.encode ++ concat (settings.records data) ++
          ending settings.header data := by
  have start := Session.wrote_start settings
  have wrote := start.update data
  rw [Array.empty_append] at wrote
  have written := @Session.update_append_flush (Session.start settings) data start.room
  have closed := wrote.close_eq
  have records : (Session.start settings).pending ++ data = data := Array.empty_append
  rw [records] at written
  unfold encode
  dsimp only
  cases problem : ((Session.start settings).update data).2.endProblem? with
  | some error =>
    refine iff_of_false (fun made => nomatch made) ?_
    rintro ⟨announced, -⟩
    rw [wrote.endProblem_none announced] at problem
    cases problem
  | none =>
    have announced := wrote.announced problem
    dsimp only
    rw [closed, Except.ok.injEq, ← Array.append_assoc, @Array.append_assoc _ settings.header.encode,
      written]
    exact ⟨fun same => ⟨announced, same.symm⟩, fun made => made.2.symm⟩

end Lz4.Frame
