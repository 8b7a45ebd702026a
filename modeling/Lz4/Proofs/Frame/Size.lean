import Mathlib.Data.List.Forall2
import Lz4.Proofs.Frame.Layout

/-!
# The size of a frame

The record of a block never holds more bytes than the block (`Lz4.Frame.Recorded.compact`), so
beside the data a frame takes room for its header, for the length and checksum of each slice, and
for its end. Counting the slices by a division that rounds down, and one more, gives a size that no
frame exceeds (`Lz4.Frame.size_encode_le`). That size is cut off at the largest number of a machine
word, which it never reaches for data that a memory can hold (`Lz4.Frame.frameBound_eq`).
-/

namespace Lz4.Frame

open Bytes

/-- There is one slice more than there are full blocks, or none more. -/
theorem BlockSize.length_slices_le (size : BlockSize) (data : Bytes) :
    (size.slices data).length ≤ data.size / size.bytes + 1 := by
  induction data using @slices_induction size with
  | short data short =>
    rcases Nat.eq_zero_or_pos data.size with none | some
    · rw [Array.size_eq_zero_iff.mp none, slices_empty]
      exact Nat.zero_le _
    · rw [slices_of_le some (Nat.le_of_lt short)]
      exact Nat.le_add_left _ _
  | full block rest full ih =>
    rw [slices_append_of_full full, List.length_cons, Array.size_append, full,
      Nat.add_div_left _ size.bytes_pos]
    exact Nat.succ_le_succ ih

/-- What a record takes beside what it holds. -/
def overhead (header : Header) : Nat := if header.blockChecksums then 8 else 4

theorem size_record (header : Header) (stored : Bool) (payload : Bytes) :
    (record header stored payload).size = payload.size + overhead header := by
  rw [Run.record_eq, Array.size_append, Array.size_append, size_ofNat, Run.size_checksumField,
    overhead]
  split <;> omega

theorem size_ending_le (header : Header) (content : Bytes) : (ending header content).size ≤ 8 := by
  rw [ending, endMark, Array.size_append, size_ofNat]
  split
  · rw [size_ofNat]
  · exact Nat.le_add_right 4 4

/-- A record holds no more bytes than its block. -/
def Compact (header : Header) (block written : Bytes) : Prop :=
  ∃ (stored : Bool) (payload : Bytes),
    written = record header stored payload ∧ payload.size ≤ block.size

variable {header : Header}

/-- Whatever the history, no record holds more bytes than its block. -/
theorem Recorded.compact {before after : Stream.Compressor} {blocks records : List Bytes}
    (recorded : Recorded header before blocks records after)
    (limit : before.settings.chunkLimit = header.blockSize.bytes) :
    List.Forall₂ (Compact header) blocks records := by
  induction recorded with
  | nil => exact .nil
  | @cons stream after block blocks records nonempty fits onward ih =>
    have short := chunkProblem_of_fits limit fits
    obtain ⟨stored, payload, written, -, small, -, -⟩ := compressRecord_eq header nonempty short
    have limitAfter := (settings_compressRecord header block stream).symm ▸ limit
    exact .cons ⟨stored, payload, written, small⟩ (ih limitAfter)

/-- Records take no more room than their blocks and what they need beside them. -/
theorem size_concat_le {blocks records : List Bytes}
    (compact : List.Forall₂ (Compact header) blocks records) :
    (concat records).size ≤ (concat blocks).size + blocks.length * overhead header := by
  induction compact with
  | nil => exact Nat.zero_le _
  | @cons block written blocks records fits onward ih =>
    obtain ⟨stored, payload, rfl, small⟩ := fits
    rw [concat_cons, concat_cons, Array.size_append, Array.size_append, size_record,
      List.length_cons, Nat.succ_mul]
    omega

/-- What a frame may take: the largest header, the data, what each slice needs beside its data, and
what stands behind the records. -/
def largestFrame (settings : Settings) (length : Nat) : Nat :=
  maxHeaderSize + length +
    (length / settings.blockSize.bytes + 1) * overhead settings.header + 8

/-- The bound that is reported is not cut off for data that a memory can hold. -/
theorem frameBound_eq (settings : Settings) {length : Nat} (held : length < 1 <<< 63) :
    settings.frameBound length = largestFrame settings length := by
  have few : length / settings.blockSize.bytes ≤ length / 16 :=
    Nat.div_le_div_left (by cases settings.blockSize <;> decide) (by decide)
  have slight : overhead settings.header ≤ 8 := by
    unfold overhead
    split <;> decide
  have product := Nat.mul_le_mul (Nat.add_le_add_right few 1) slight
  have largest : Settings.maxReportedSize = 18446744073709551615 := rfl
  have header : maxHeaderSize = 19 := rfl
  simp only [Nat.reduceShiftLeft] at held
  have small : largestFrame settings length ≤ Settings.maxReportedSize := by
    unfold largestFrame
    omega
  exact Nat.min_eq_left small

/-- A frame consists of its header, a record for each slice of its data and what stands behind the
records. No record holds more bytes than its slice, so the frame takes no more than its parts may
take, which is what is reported for as many bytes as a memory can hold. -/
theorem size_encode_le {settings : Settings} {data frame : Bytes}
    (encoded : encode data settings = .ok frame) :
    (∃ records,
      frame = settings.header.encode ++ concat records ++ ending settings.header data ∧
        List.Forall₂ (Compact settings.header) (settings.blockSize.slices data) records) ∧
    frame.size ≤ largestFrame settings data.size ∧
    (data.size < 1 <<< 63 → frame.size ≤ settings.frameBound data.size) := by
  obtain ⟨-, parts⟩ := encode_eq_ok_iff.mp encoded
  obtain ⟨after, recorded⟩ := settings.recorded_records data
  have compact := recorded.compact rfl
  have bounded : frame.size ≤ largestFrame settings data.size := by
    have front := settings.header.size_encode_bounds.2
    have middle := size_concat_le compact
    have count := Nat.mul_le_mul_right (overhead settings.header)
      (settings.blockSize.length_slices_le data)
    have back := size_ending_le settings.header data
    rw [BlockSize.concat_slices] at middle
    rw [largestFrame, parts, Array.size_append, Array.size_append]
    omega
  exact ⟨⟨settings.records data, parts, compact⟩, bounded,
    fun held => frameBound_eq settings held ▸ bounded⟩

/-- A block that is filled exactly is followed by no empty one, although one more is counted. -/
theorem size_encode_le_full :
    let settings : Settings :=
      { independentBlocks := false, blockChecksums := true, contentSize := some 65536, level := 9 }
    let full : Bytes := Array.replicate (1 <<< 16) 1
    ∃ frame, encode full settings = .ok frame ∧ frame.size ≤ 65579 := by
  intro settings full
  have size : full.size = 65536 := Array.size_replicate
  have announced : Announced settings.header full := by
    intro known same
    cases same
    exact size.symm
  have made := encode_eq_ok_iff.mpr ⟨announced, rfl⟩
  refine ⟨_, made, ?_⟩
  have bounded := (size_encode_le made).2.2 (by rw [size]; decide)
  rw [size] at bounded
  exact Nat.le_trans bounded (by decide)

end Lz4.Frame
