import Lz4.Proofs.Frame.Record

/-!
# Blocks become records

While less than a block is pending, taking in data is cutting blocks from the pending bytes and the
data together (`Lz4.Frame.RecordWriter.append_eq`). The blocks, none of which is empty or too long,
become records one after the other (`Lz4.Frame.Recorded`). So whatever a record writer takes in, what
it writes are the records of blocks that together with the pending bytes make up its data
(`Lz4.Frame.RecordWriter.cuts_append`, `Lz4.Frame.RecordWriter.cuts_flush`).
-/

namespace Lz4.Frame

open Bytes

/-- Blocks that are neither empty nor too long, and the records that they become one after the other,
on the way of the stream from one state to another. -/
inductive Recorded (header : Header) :
    Stream.Compressor → List Bytes → List Bytes → Stream.Compressor → Prop
  | nil (stream : Stream.Compressor) : Recorded header stream [] [] stream
  | cons {stream after : Stream.Compressor} {block : Bytes} {blocks records : List Bytes}
      (nonempty : 0 < block.size) (fits : block.size ≤ header.blockSize.bytes)
      (onward : Recorded header (compressRecord header block stream).2 blocks records after) :
      Recorded header stream (block :: blocks)
        ((compressRecord header block stream).1 :: records) after

namespace Recorded

variable {header : Header} {before middle after : Stream.Compressor} {block : Bytes}
  {blocks more records moreRecords : List Bytes}

theorem append (first : Recorded header before blocks records middle)
    (second : Recorded header middle more moreRecords after) :
    Recorded header before (blocks ++ more) (records ++ moreRecords) after := by
  induction first with
  | nil => exact second
  | cons nonempty fits onward ih => exact .cons nonempty fits (ih second)

theorem single (stream : Stream.Compressor) (nonempty : 0 < block.size)
    (fits : block.size ≤ header.blockSize.bytes) :
    Recorded header stream [block] [(compressRecord header block stream).1]
      (compressRecord header block stream).2 :=
  .cons nonempty fits (.nil _)

end Recorded

namespace RecordWriter

variable {header : Header}

theorem appendBlocks_of_full {data : Bytes} {pos : Nat}
    (full : pos + header.blockSize.bytes ≤ data.size) (writer : RecordWriter) :
    appendBlocks header data pos writer =
      appendBlocks header data (pos + header.blockSize.bytes)
        (writer.writeBlock header (data.extract pos (pos + header.blockSize.bytes))) := by
  rw [appendBlocks, if_pos full]

theorem appendBlocks_of_short {data : Bytes} {pos : Nat}
    (short : ¬ pos + header.blockSize.bytes ≤ data.size) (writer : RecordWriter) :
    appendBlocks header data pos writer =
      ⟨writer.stream, writer.pending ++ data.extract pos data.size, writer.written⟩ := by
  rw [appendBlocks, if_neg short]

/-- Blocks are cut from the data behind a position, whatever stands before it. -/
theorem appendBlocks_append (front data : Bytes) (pos : Nat) (writer : RecordWriter) :
    appendBlocks header (front ++ data) (front.size + pos) writer =
      appendBlocks header data pos writer := by
  fun_induction appendBlocks header data pos writer with
  | case1 pos writer stop full ih =>
    have fits : front.size + pos + header.blockSize.bytes ≤ (front ++ data).size := by
      rw [Array.size_append]
      omega
    rw [appendBlocks_of_full fits, Nat.add_assoc, extract_append_of_ge, ih]
  | case2 pos stop short stream pending written =>
    have lacking : ¬ front.size + pos + header.blockSize.bytes ≤ (front ++ data).size := by
      rw [Array.size_append]
      omega
    rw [appendBlocks_of_short lacking, Array.size_append, extract_append_of_ge]

/-- A pending block that the data fill is the first one that is cut. -/
theorem flush_filled {stream : Stream.Compressor} {pending data : Bytes} (written : Bytes)
    (room : pending.size < header.blockSize.bytes)
    (enough : header.blockSize.bytes ≤ pending.size + data.size) :
    let taken := header.blockSize.bytes - pending.size
    (pending ++ data.extract 0 taken).size = header.blockSize.bytes ∧
      flush header ⟨stream, pending ++ data.extract 0 taken, written⟩ =
        writeBlock header ⟨stream, #[], written⟩
          ((pending ++ data).extract 0 header.blockSize.bytes) := by
  intro taken
  have filled : (pending ++ data.extract 0 taken).size = header.blockSize.bytes := by
    rw [Array.size_append, Array.size_extract]
    omega
  have first : (pending ++ data).extract 0 header.blockSize.bytes =
      pending ++ data.extract 0 taken := by
    rw [Array.extract_append, extract_of_size_le (Nat.le_of_lt room), Array.extract_size,
      Nat.zero_sub]
  refine ⟨filled, ?_⟩
  have positive := header.blockSize.bytes_pos
  rw [flush, if_neg, first]
  rw [Array.isEmpty_iff_size_eq_zero]
  omega

/-- Blocks are cut from pending bytes and new data as if they had come together. -/
theorem append_eq {stream : Stream.Compressor} {pending : Bytes} (written data : Bytes)
    (room : pending.size < header.blockSize.bytes) :
    append header ⟨stream, pending, written⟩ data =
      appendBlocks header (pending ++ data) 0 ⟨stream, #[], written⟩ := by
  have size : (pending ++ data).size = pending.size + data.size := Array.size_append
  unfold append
  dsimp only
  by_cases nothing : pending.isEmpty = true
  · rw [if_pos nothing, Array.isEmpty_iff.mp nothing, Array.empty_append]
  · rw [if_neg nothing]
    by_cases enough : header.blockSize.bytes ≤ pending.size + data.size
    · have taken : min (header.blockSize.bytes - pending.size) data.size =
          header.blockSize.bytes - pending.size := by omega
      obtain ⟨filled, flushed⟩ := @flush_filled header stream pending data written room enough
      have whole : 0 + header.blockSize.bytes ≤ (pending ++ data).size := by omega
      have further := @appendBlocks_append header pending data
        (header.blockSize.bytes - pending.size)
      rw [Nat.add_sub_cancel' (Nat.le_of_lt room)] at further
      rw [taken, if_pos filled, flushed, appendBlocks_of_full whole, Nat.zero_add, further]
    · have taken : min (header.blockSize.bytes - pending.size) data.size = data.size := by omega
      rw [taken, Array.extract_size, if_neg (by omega), appendBlocks_of_short (by omega),
        appendBlocks_of_short (by omega)]
      simp only [Array.extract_size, Array.empty_append]
      rw [Array.extract_eq_empty_of_le (Nat.min_le_right _ _), Array.append_empty]

/-- A record writer took in data: from the pending bytes and the data it cut blocks, and it wrote
their records. The rest is pending. -/
structure Cuts (header : Header) (before after : RecordWriter) (data : Bytes)
    (blocks records : List Bytes) : Prop where
  recorded : Recorded header before.stream blocks records after.stream
  written : after.written = before.written ++ concat records
  content : before.pending ++ data = concat blocks ++ after.pending

theorem Cuts.trans {before middle after : RecordWriter} {data more : Bytes}
    {blocks records moreBlocks moreRecords : List Bytes}
    (first : Cuts header before middle data blocks records)
    (second : Cuts header middle after more moreBlocks moreRecords) :
    Cuts header before after (data ++ more) (blocks ++ moreBlocks) (records ++ moreRecords) := by
  refine ⟨first.recorded.append second.recorded, ?_, ?_⟩
  · rw [second.written, first.written, concat_append, Array.append_assoc]
  · rw [← Array.append_assoc, first.content, Array.append_assoc, second.content, concat_append,
      Array.append_assoc]

/-- Data that only wait are cut later. -/
theorem cuts_wait (stream : Stream.Compressor) (pending written data : Bytes) :
    Cuts header ⟨stream, pending, written⟩ ⟨stream, pending ++ data, written⟩ data [] [] :=
  ⟨.nil stream, Array.append_empty.symm, Array.empty_append.symm⟩

/-- A block that is written is cut from what comes in when nothing is pending. -/
theorem cuts_writeBlock {writer : RecordWriter} {block : Bytes} (empty : writer.pending = #[])
    (nonempty : 0 < block.size) (fits : block.size ≤ header.blockSize.bytes) :
    Cuts header writer (writer.writeBlock header block) block [block]
      [(compressRecord header block writer.stream).1] := by
  obtain ⟨stream, pending, written⟩ := writer
  subst empty
  refine ⟨.single stream nonempty fits, ?_, ?_⟩
  · rw [concat_cons, concat_nil, Array.append_empty]
    rfl
  · rw [concat_cons, concat_nil, Array.append_empty, Array.empty_append]
    exact Array.append_empty.symm

theorem pending_flush (header : Header) (writer : RecordWriter) :
    (writer.flush header).pending = #[] := by
  obtain ⟨stream, pending, written⟩ := writer
  unfold flush
  dsimp only
  split
  · rename_i nothing
    exact Array.isEmpty_iff.mp nothing
  · rfl

theorem room_flush (header : Header) (writer : RecordWriter) :
    (writer.flush header).pending.size < header.blockSize.bytes := by
  rw [pending_flush]
  exact header.blockSize.bytes_pos

theorem cuts_flush {writer : RecordWriter}
    (room : writer.pending.size ≤ header.blockSize.bytes) :
    ∃ blocks records, Cuts header writer (writer.flush header) #[] blocks records := by
  obtain ⟨stream, pending, written⟩ := writer
  unfold flush
  dsimp only
  by_cases nothing : pending.isEmpty = true
  · rw [if_pos nothing]
    have waits := @cuts_wait header stream pending written #[]
    rw [Array.append_empty] at waits
    exact ⟨[], [], waits⟩
  · rw [if_neg nothing]
    have positive : 0 < pending.size := by
      rw [Array.isEmpty_iff] at nothing
      exact Array.size_pos_iff.mpr nothing
    obtain ⟨recorded, wrote, content⟩ :=
      @cuts_writeBlock header ⟨stream, #[], written⟩ pending rfl positive room
    refine ⟨[pending], _, recorded, wrote, ?_⟩
    rwa [Array.empty_append, ← @Array.append_empty _ pending] at content

theorem cuts_appendBlocks (data : Bytes) (pos : Nat) {writer : RecordWriter}
    (empty : writer.pending = #[]) :
    (∃ blocks records, Cuts header writer (appendBlocks header data pos writer)
      (data.extract pos data.size) blocks records) ∧
      (appendBlocks header data pos writer).pending.size < header.blockSize.bytes := by
  fun_induction appendBlocks header data pos writer with
  | case1 pos writer stop full ih =>
    have size : (data.extract pos stop).size = header.blockSize.bytes := size_extract_add full
    have block := @cuts_writeBlock header writer (data.extract pos stop) empty
      (size ▸ header.blockSize.bytes_pos) (Nat.le_of_eq size)
    obtain ⟨⟨blocks, records, rest⟩, room⟩ := ih empty
    rw [← extract_append_extract (Nat.le_add_right pos _) full]
    exact ⟨⟨_, _, block.trans rest⟩, room⟩
  | case2 pos stop short stream pending written =>
    dsimp only at empty
    subst empty
    refine ⟨⟨[], [], cuts_wait stream #[] written _⟩, ?_⟩
    have positive := header.blockSize.bytes_pos
    rw [Array.empty_append, Array.size_extract]
    omega

/-- Whatever comes in, it is cut into full blocks, and less than a block is pending behind them. -/
theorem cuts_append {writer : RecordWriter} (data : Bytes)
    (room : writer.pending.size < header.blockSize.bytes) :
    (∃ blocks records, Cuts header writer (writer.append header data) data blocks records) ∧
      (writer.append header data).pending.size < header.blockSize.bytes := by
  obtain ⟨stream, pending, written⟩ := writer
  obtain ⟨⟨blocks, records, recorded, wrote, content⟩, roomAfter⟩ :=
    @cuts_appendBlocks header (pending ++ data) 0 ⟨stream, #[], written⟩ rfl
  rw [Array.extract_size, Array.empty_append] at content
  rw [append_eq written data room]
  exact ⟨⟨blocks, records, recorded, wrote, content⟩, roomAfter⟩

end RecordWriter

end Lz4.Frame
