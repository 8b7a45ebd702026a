import Lz4.Block.Compress
import Lz4.Stream.Compressor
import Lz4.Proofs.Block.Grammar
import Lz4.Proofs.Block.Greedy
import Lz4.Proofs.Block.Thorough

/-!
# Blocks decode to their input

Every compressor writes a script of its input, so its block decodes behind any history that ends in
the one it was made for (`Lz4.Block.Script.Describes.decode`), and always has room within the bound
for its input. The two together give the round trip of a block (`Lz4.Block.decode_compress`).

The greedy compressor compares bytes before it uses what its match table answers, so its blocks
decode to their input with any table at all, even one that answers with positions that it was never
told (`Lz4.Block.Greedy.decode_anyTable`).
-/

namespace Lz4.Block

open Bytes

namespace Script

/-- The block of a script decodes to what the script describes, behind whatever ends in the
history. -/
theorem Describes.decode {script : Script} {history input : Bytes}
    (describes : script.Describes (history ++ input) history.size) (front : Bytes) {capacity : Nat}
    (room : input.size ≤ capacity) :
    Block.decode script.block (front ++ history) capacity = .ok input := by
  have expands := describes.expands
  rw [Array.extract_append_left, Array.extract_size] at expands
  have inReach := describes.writable.inReach
  refine decode_eq_ok_iff.mpr ⟨⟨script, describes.writable.spelled, ?_, ?_⟩, room⟩
  · exact inReach.mono (by rw [Array.size_append]; exact Nat.le_add_left _ _)
  · rw [expand_append front inReach, expands, Array.append_assoc]

theorem writePieces_growing (script : Script) :
    Sink.growing.writePieces script.pieces = (⟨script.block, none⟩, true) := by
  rw [Sink.growing, Sink.writePieces_growing, foldl_append_eq_concat, Array.empty_append]
  rfl

theorem writePieces_ofCapacity {script : Script} {capacity : Nat}
    (room : script.block.size ≤ capacity) :
    (Sink.ofCapacity capacity).writePieces script.pieces =
      (⟨script.block, some (capacity - script.block.size)⟩, true) := by
  rw [Sink.ofCapacity, Sink.writePieces_ofRoom #[] room, Array.empty_append]
  rfl

/-- A sink that lacks room for the block of a script takes a front part of it. -/
theorem writePieces_cut {script : Script} {capacity : Nat}
    (lacking : capacity < script.block.size) :
    ∃ front rest, script.block = front ++ rest ∧ front.size ≤ capacity ∧
      (Sink.ofCapacity capacity).writePieces script.pieces =
        (⟨front, some (capacity - front.size)⟩, false) := by
  obtain ⟨taken, next, others, split, within, -, left⟩ := Sink.writePieces_cut #[] lacking
  rw [Array.empty_append] at left
  refine ⟨concat taken, concat (next :: others), ?_, within, left⟩
  rw [block, split, concat_append]

end Script

/-- What a compressor writes to a sink that grows: the block of a script, all of it. -/
theorem Writes.growing {input : Bytes} {anchor : Nat} {compress : Sink → Sink × Bool}
    (writes : Writes input anchor compress) :
    ∃ script : Script, script.Describes input anchor ∧
      compress .growing = (⟨script.block, none⟩, true) := by
  obtain ⟨script, describes, written⟩ := writes
  exact ⟨script, describes, (written .growing).trans script.writePieces_growing⟩

/-- What a compressor writes to a sink with a limit: what it writes to one that grows if there is
room for it, and it says whether there is. -/
theorem Writes.ofCapacity {input : Bytes} {anchor : Nat} {compress : Sink → Sink × Bool}
    (writes : Writes input anchor compress) (capacity : Nat) :
    let block := (compress .growing).1.written
    ((compress (.ofCapacity capacity)).2 = true ↔ block.size ≤ capacity) ∧
      (block.size ≤ capacity → (compress (.ofCapacity capacity)).1.written = block) := by
  obtain ⟨script, -, written⟩ := writes
  rw [written, written, Script.writePieces_growing]
  intro block
  by_cases room : script.block.size ≤ capacity
  · rw [Script.writePieces_ofCapacity room]
    exact ⟨iff_of_true rfl room, fun _ => rfl⟩
  · obtain ⟨front, rest, -, -, cut⟩ := Script.writePieces_cut (Nat.lt_of_not_le room)
    rw [cut]
    exact ⟨iff_of_false Bool.false_ne_true room, fun enough => absurd enough room⟩

theorem writes_compressWithHistory {input : Bytes} {cursor : Nat} (mode : Mode)
    (within : cursor ≤ input.size) :
    Writes input cursor (compressWithHistory input cursor mode) := by
  unfold compressWithHistory
  split
  · exact Thorough.writes_compress _ within
  · split
    · exact Greedy.writes_compress _ _ within
    · exact Greedy.writes_compress _ _ within

/-- In a stream, a compressor goes on with the table that it has, or with the room of an index. -/
theorem writes_engine {input : Bytes} {cursor : Nat} (engine : Stream.Engine) (acceleration : Nat)
    (within : cursor ≤ input.size) :
    Writes input cursor fun sink =>
      (engine.compress acceleration input cursor sink).outcome := by
  cases engine with
  | greedy table => exact Greedy.writes_compress acceleration table within
  | thorough level chain => exact Thorough.writes_compressWith chain level within

/-- What is written for an input is the block of a script that describes it, unless the input is too
long. -/
theorem exists_describes (input dictionary : Bytes) (mode : Mode) :
    ∃ script : Script,
      script.Describes (dictionaryWindow dictionary ++ input) (dictionaryWindow dictionary).size ∧
      (∀ sink, compressTo input dictionary mode sink = sink.writePieces script.pieces) ∧
      compress input dictionary mode =
        if input.size ≤ maxInputSize then .ok script.block
        else .error (.invalidArgument .inputTooLong) := by
  have sizes := @Array.size_append _ (dictionaryWindow dictionary) input
  have within : (dictionaryWindow dictionary).size ≤
      (dictionaryWindow dictionary ++ input).size := by omega
  obtain ⟨script, describes, written⟩ := writes_compressWithHistory mode within
  have fits := describes.size_block_le within
  rw [sizes, Nat.add_sub_cancel_left] at fits
  refine ⟨script, describes, written, ?_⟩
  unfold compress compressBound
  by_cases short : input.size ≤ maxInputSize
  · rw [if_pos short, if_pos short]
    simp only [compressTo, written, Script.writePieces_ofCapacity fits, ↓reduceIte]
  · rw [if_neg short, if_neg short]

/-- Every input that is not too long has a block, whatever the dictionary and the mode. The block
decodes to the input wherever there is room for it, behind any history that ends in the window of
the dictionary. -/
theorem decode_compress {input : Bytes} (short : input.size ≤ maxInputSize) (dictionary : Bytes)
    (mode : Mode) {capacity : Nat} (room : input.size ≤ capacity) (front : Bytes) :
    ∃ block, compress input dictionary mode = .ok block ∧
      decode block (front ++ dictionaryWindow dictionary) capacity = .ok input := by
  obtain ⟨script, describes, -, compressed⟩ := exists_describes input dictionary mode
  rw [if_pos short] at compressed
  exact ⟨script.block, compressed, describes.decode front room⟩

theorem decode_compress_repetitive :
    ∃ block, compress (Array.replicate 40 7) #[7, 8, 9] (.high 9) = .ok block ∧
      decode block (#[1, 2] ++ dictionaryWindow #[7, 8, 9]) 50 = .ok (Array.replicate 40 7) :=
  decode_compress (by decide) #[7, 8, 9] (.high 9) (by decide) #[1, 2]

namespace Greedy

/-- Whatever table the greedy compressor asks, and whatever it answers, the block is written to its
end, and decodes to the input behind the history wherever there is room for it. -/
theorem decode_anyTable {τ : Type} [MatchTable τ] (table : τ) {input : Bytes} {cursor : Nat}
    (within : cursor ≤ input.size) (acceleration : Nat) {capacity : Nat}
    (room : input.size - cursor ≤ capacity) :
    ∃ block after, compress input cursor acceleration table .growing =
        ⟨⟨block, none⟩, after, true⟩ ∧
      decode block (input.extract 0 cursor) capacity = .ok (input.dropFirst cursor) := by
  obtain ⟨script, describes, written⟩ := (writes_compress acceleration table within).growing
  rcases compressed : compress input cursor acceleration table .growing with ⟨sink, after, complete⟩
  rw [compressed] at written
  cases written
  have split : input.extract 0 cursor ++ input.dropFirst cursor = input := by
    rw [dropFirst, extract_append_extract (Nat.zero_le _) within, Array.extract_size]
  have front : (input.extract 0 cursor).size = cursor := Array.size_extract_of_le within
  have described : script.Describes (input.extract 0 cursor ++ input.dropFirst cursor)
      (input.extract 0 cursor).size := by
    rw [split, front]
    exact describes
  have fits : (input.dropFirst cursor).size ≤ capacity := by
    rw [size_dropFirst]
    exact room
  have decoded := described.decode #[] fits
  rw [Array.empty_append] at decoded
  exact ⟨script.block, after, rfl, decoded⟩

/-- A table that answers as it was told to, whatever it is asked. -/
structure Dictated where
  answers : List Nat

instance : MatchTable Dictated where
  empty := ⟨[]⟩
  sizeLimit := WideTable.slotLimit
  exchange table _ _ := (table.answers.headD 0, ⟨table.answers.tail⟩)
  drop table _ := table

/-- Of these answers the first is past the end, the second is the cursor itself, at the third the
bytes differ, the fourth is ahead of the cursor, and only the fifth can be used. -/
theorem decode_anyTable_dictated :
    let input : Bytes := #[7, 7, 7, 7, 1, 2, 3, 4, 1, 2, 3, 4, 1, 2, 3, 4, 1, 2, 3, 4, 1, 2, 3, 4]
    ∃ block after, compress input 4 0 (Dictated.mk [1000, 5, 0, 20, 4, 9, 9]) .growing =
        ⟨⟨block, none⟩, after, true⟩ ∧
      decode block (input.extract 0 4) 20 = .ok (input.dropFirst 4) :=
  decode_anyTable (Dictated.mk [1000, 5, 0, 20, 4, 9, 9]) (by decide) 0 (by decide)

end Greedy

end Lz4.Block
