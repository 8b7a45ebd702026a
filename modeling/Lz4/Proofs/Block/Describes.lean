import Lz4.Proofs.Block.Script
import Lz4.Proofs.Bytes.Agreement
import Lz4.Proofs.Sink

/-!
# Scripts of an input

A script describes the end of an input (`Lz4.Block.Script.Describes`) if it may be written, keeps
its matches away from the end, and makes the input of what comes before. A compressor that found an
earlier occurrence of the bytes at its cursor, and went back from there as far as the bytes agree,
may write it as a match in front of any script for the rest
(`Lz4.Block.Script.Describes.matched`). A compressor is sound if it writes
such a script (`Lz4.Block.Writes`); the script depends on the input, and the sink only decides how
many of its pieces are taken.
-/

namespace Lz4.Block

open Bytes

/-- An earlier occurrence of the bytes at a position: it starts before the position, within reach,
and repeats the bytes from there on. The position and the last of these bytes are as far from the
end of the input as those of a match have to be. -/
structure Occurs (input : Bytes) (pos candidate length : Nat) : Prop where
  before : candidate < pos
  near : pos - candidate ≤ maxDistance
  early : pos + endMargin ≤ input.size
  clear : pos + length + lastLiterals ≤ input.size
  same : ∀ index < length, input.byteAt (pos + index) = input.byteAt (candidate + index)

theorem Occurs.within {input : Bytes} {pos candidate length : Nat}
    (occurs : Occurs input pos candidate length) : pos + length ≤ input.size :=
  Nat.le_of_add_right_le occurs.clear

theorem repeats_extract {input : Bytes} {start distance length : Nat}
    (within : start + length ≤ input.size)
    (back : ∀ pos, start ≤ pos → pos < start + length →
      input.byteAt pos = input.byteAt (pos - distance)) :
    Repeats (input.extract 0 start) (input.extract 0 (start + length)) distance length := by
  have size : (input.extract 0 start).size = start :=
    Array.size_extract_of_le (Nat.le_trans (Nat.le_add_right start length) within)
  have grown : (input.extract 0 (start + length)).size = start + length :=
    Array.size_extract_of_le within
  refine ⟨by rw [size, grown], ?_, ?_⟩
  · intro pos inside
    rw [byteAt_extract within (by omega), byteAt_extract (by omega) (by omega)]
  · intro pos late inside
    rw [byteAt_extract within (by omega), byteAt_extract within (by omega), Nat.zero_add,
      Nat.zero_add]
    exact back pos (by omega) (by omega)

namespace Script

/-- No match starts within the last bytes that a script adds, or leaves fewer literals behind it
than have to end a block. -/
def Margins : Script → Prop
  | last _ => True
  | sequence _ found rest =>
    endMargin ≤ found.length + rest.contentSize ∧ lastLiterals ≤ rest.contentSize ∧ rest.Margins

/-- The script may be written behind the first `anchor` bytes of the input, and adds the rest. -/
structure Describes (script : Script) (input : Bytes) (anchor : Nat) : Prop where
  writable : script.Writable anchor
  margins : script.Margins
  expands : script.expand (input.extract 0 anchor) = input

namespace Describes

variable {input : Bytes} {anchor start distance length : Nat} {rest script : Script}

/-- A script adds what is missing. -/
theorem contentSize_eq (describes : script.Describes input anchor) (within : anchor ≤ input.size) :
    script.contentSize = input.size - anchor := by
  have text : (input.extract 0 anchor).size = anchor := Array.size_extract_of_le within
  have size := script.size_expand (input.extract 0 anchor)
  rw [describes.expands, text] at size
  omega

theorem last (within : anchor ≤ input.size) :
    (Script.last (input.extract anchor input.size)).Describes input anchor := by
  refine ⟨trivial, trivial, ?_⟩
  rw [expand, extract_append_extract (Nat.zero_le _) within, Array.extract_size]

theorem sequence (onward : anchor ≤ start) (early : start + endMargin ≤ input.size)
    (clear : start + length + lastLiterals ≤ input.size) (positive : 1 ≤ distance)
    (reach : distance ≤ start) (near : distance ≤ maxDistance) (long : minMatch ≤ length)
    (back : ∀ pos, start ≤ pos → pos < start + length →
      input.byteAt pos = input.byteAt (pos - distance))
    (further : rest.Describes input (start + length)) :
    (Script.sequence (input.extract anchor start) ⟨distance, length⟩ rest).Describes input
      anchor := by
  have within : start + length ≤ input.size := Nat.le_of_add_right_le clear
  have inside : start ≤ input.size := Nat.le_of_add_right_le within
  have literals : (input.extract anchor start).size = start - anchor :=
    Array.size_extract_of_le inside
  have text : (input.extract 0 start).size = start := Array.size_extract_of_le inside
  have available : anchor + (start - anchor) = start := by omega
  have behind := further.contentSize_eq within
  have fromStart : endMargin ≤ length + rest.contentSize := by omega
  have fromEnd : lastLiterals ≤ rest.contentSize := by omega
  refine ⟨?_, ⟨fromStart, fromEnd, further.margins⟩, ?_⟩
  · refine ⟨⟨positive, ?_⟩, near, long, ?_⟩
    · rwa [literals, available]
    · rw [literals, available]
      exact further.writable
  · have reached : distance ≤ (input.extract 0 start).size := by rwa [text]
    have copied : copyBytewise (input.extract 0 start) distance length =
        input.extract 0 (start + length) :=
      (repeats_copyBytewise positive reached length).unique positive reached
        (repeats_extract within back)
    rw [expand, extract_append_extract (Nat.zero_le _) onward, copied, further.expands]

/-- A match found at a cursor and extended back is a sequence. -/
theorem matched {cursor candidate back : Nat} (occurs : Occurs input cursor candidate length)
    (onward : anchor ≤ cursor) (long : minMatch ≤ length)
    (extended : back = input.agreeBackward cursor candidate (cursor - anchor))
    (further : rest.Describes input (cursor + length)) :
    (Script.sequence (input.extract anchor (cursor - back)) ⟨cursor - candidate, length + back⟩
      rest).Describes input anchor := by
  obtain ⟨before, near, early, clear, same⟩ := occurs
  obtain ⟨fromCursor, fromCandidate, fromAnchor, agree⟩ :=
    byteAt_of_agreeBackward input cursor candidate (cursor - anchor)
  rw [← extended] at fromCursor fromCandidate fromAnchor agree
  have ends : cursor - back + (length + back) = cursor + length := by omega
  apply sequence (by omega) (by omega) (by omega) (by omega) (by omega) near (by omega)
  · intro pos late inside
    by_cases early : pos < cursor
    · obtain ⟨index, rfl⟩ := Nat.exists_eq_add_of_le late
      rw [agree index (by omega)]
      congr 1
      omega
    · obtain ⟨index, rfl⟩ := Nat.exists_eq_add_of_le (Nat.le_of_not_lt early)
      rw [same index (by omega)]
      congr 1
      omega
  · rwa [ends]

/-- There is room for the block of a script within the bound for what the script adds. -/
theorem size_block_le (describes : script.Describes input anchor) (within : anchor ≤ input.size) :
    script.block.size ≤ input.size - anchor + (input.size - anchor) / 255 + 16 := by
  have bound := Script.size_block_le describes.writable
  rw [describes.contentSize_eq within] at bound
  omega

end Describes

end Script

/-- The sink and whether it took the whole block. -/
def Compressed.outcome {τ : Type} (compressed : Compressed τ) : Sink × Bool :=
  (compressed.sink, compressed.complete)

/-- A compressor writes the pieces of one script that describes the input, to whatever sink. -/
def Writes (input : Bytes) (anchor : Nat) (compress : Sink → Sink × Bool) : Prop :=
  ∃ script : Script, script.Describes input anchor ∧
    ∀ sink, compress sink = sink.writePieces script.pieces

/-- Writing a sequence before what writes the rest. -/
theorem Writes.sequence {input literals : Bytes} {anchor next : Nat} {found : Match}
    {compress rest : Sink → Sink × Bool} (further : Writes input next rest)
    (describes : ∀ script : Script, script.Describes input next →
      (Script.sequence literals found script).Describes input anchor)
    (written : ∀ sink, compress sink =
      if (sink.writePieces (sequencePieces literals found)).2 then
        rest (sink.writePieces (sequencePieces literals found)).1
      else ((sink.writePieces (sequencePieces literals found)).1, false)) :
    Writes input anchor compress := by
  obtain ⟨script, described, taken⟩ := further
  refine ⟨.sequence literals found script, describes script described, ?_⟩
  intro sink
  rw [written, Script.pieces, Sink.writePieces_append, taken]

theorem Writes.last {input : Bytes} {anchor : Nat} {compress : Sink → Sink × Bool}
    (within : anchor ≤ input.size)
    (written : ∀ sink, compress sink =
      sink.writePieces (lastPieces (input.extract anchor input.size))) :
    Writes input anchor compress :=
  ⟨.last _, .last within, written⟩

end Lz4.Block
