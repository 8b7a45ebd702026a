import Lz4.Proofs.Block.RoundTrip

/-!
# Blocks and the room for them

A block needs exactly as much room as it has bytes. Where there is room for the block of an input,
it is written to the start of the buffer and nothing else is touched; where there is not, the buffer
holds a front part of that very block and is left alone behind it
(`Lz4.Block.compressInto_capacity`).

The decoder, too, needs exactly as much room as the block has content. With more it decodes the
same, and with less it runs out of room before anything else goes wrong, after a front part of the
content (`Lz4.Block.decodeOnto_capacity`).
-/

namespace Lz4.Block

open Bytes

section Compress

variable {script : Script} {input dictionary buffer : Bytes} {mode : Mode} {bound : Nat}

theorem compressInto_of_room (written : ∀ sink,
      compressTo input dictionary mode sink = sink.writePieces script.pieces)
    (bounded : compressBound input.size = some bound) (room : script.block.size ≤ buffer.size) :
    compressInto input dictionary mode buffer =
      (.ok script.block.size, script.block ++ buffer.dropFirst script.block.size) := by
  unfold compressInto
  rw [bounded, written, Script.writePieces_ofCapacity room]
  rfl

theorem compressInto_of_noRoom (written : ∀ sink,
      compressTo input dictionary mode sink = sink.writePieces script.pieces)
    (bounded : compressBound input.size = some bound) (lacking : buffer.size < script.block.size) :
    ∃ front rest, script.block = front ++ rest ∧ front.size ≤ buffer.size ∧
      compressInto input dictionary mode buffer =
        (.error (.bufferTooSmall bound buffer.size), front ++ buffer.dropFirst front.size) := by
  obtain ⟨front, rest, split, within, cut⟩ := Script.writePieces_cut lacking
  refine ⟨front, rest, split, within, ?_⟩
  unfold compressInto
  rw [bounded, written, cut]
  rfl

end Compress

/-- An input that is not too long is compressed to a buffer exactly if there is room for its block,
whatever the dictionary and the mode. Then the buffer starts with the block, whose size is the
result. Otherwise the bound for the input is named as what is needed, and the buffer starts with a
front part of the block. In either case the rest of the buffer is as it was. -/
theorem compressInto_capacity {input : Bytes} (short : input.size ≤ maxInputSize)
    (dictionary : Bytes) (mode : Mode) (buffer : Bytes) :
    ∃ block bound, compress input dictionary mode = .ok block ∧
      compressBound input.size = some bound ∧
      ((∃ size, (compressInto input dictionary mode buffer).1 = .ok size) ↔
        block.size ≤ buffer.size) ∧
      (block.size ≤ buffer.size →
        compressInto input dictionary mode buffer =
          (.ok block.size, block ++ buffer.dropFirst block.size)) ∧
      (buffer.size < block.size → ∃ front rest, block = front ++ rest ∧
        front.size ≤ buffer.size ∧
        compressInto input dictionary mode buffer =
          (.error (.bufferTooSmall bound buffer.size), front ++ buffer.dropFirst front.size)) := by
  obtain ⟨script, -, written, compressed⟩ := exists_describes input dictionary mode
  rw [if_pos short] at compressed
  obtain ⟨bound, bounded⟩ : ∃ bound, compressBound input.size = some bound := ⟨_, if_pos short⟩
  refine ⟨script.block, bound, compressed, bounded, ⟨?fits, ?accepted⟩,
    compressInto_of_room written bounded, compressInto_of_noRoom written bounded⟩
  case fits =>
    rintro ⟨size, succeeds⟩
    apply Nat.le_of_not_lt
    intro lacking
    obtain ⟨front, rest, -, -, refused⟩ := compressInto_of_noRoom written bounded lacking
    rw [refused] at succeeds
    cases succeeds
  case accepted =>
    intro room
    exact ⟨_, congrArg Prod.fst (compressInto_of_room written bounded room)⟩

/-- A block of eleven bytes, with room for one more and for one less. -/
theorem compressInto_capacity_eleven :
    let input : Bytes := Array.replicate 40 7
    let dictionary : Bytes := #[7, 8, 9]
    compressInto input dictionary .standard (Array.replicate 12 1) =
        (.ok 11, #[31, 7, 1, 0, 15, 80, 7, 7, 7, 7, 7, 1]) ∧
      ∃ front rest, #[31, 7, 1, 0, 15, 80, 7, 7, 7, 7, 7] = front ++ rest ∧ front.size ≤ 10 ∧
        compressInto input dictionary .standard (Array.replicate 10 1) =
          (.error (.bufferTooSmall 56 10),
            front ++ dropFirst (Array.replicate 10 1) front.size) := by
  intro input dictionary
  have compressed : (compress input dictionary .standard).toOption =
      some #[31, 7, 1, 0, 15, 80, 7, 7, 7, 7, 7] := by
    decide +kernel
  have short : input.size ≤ maxInputSize := by decide
  constructor
  · obtain ⟨block, bound, same, -, -, fits, -⟩ :=
      compressInto_capacity short dictionary .standard (Array.replicate 12 1)
    rw [same] at compressed
    cases compressed
    exact fits (by decide)
  · obtain ⟨block, bound, same, bounded, -, -, cut⟩ :=
      compressInto_capacity short dictionary .standard (Array.replicate 10 1)
    rw [same] at compressed
    cases compressed
    obtain rfl : bound = 56 := Option.some.inj (bounded.symm.trans (by decide))
    exact cut (by decide)

section Decode

variable {block history output : Bytes} {limit pos capacity : Nat}

/-- Without room for what a script adds, the decoder runs out of room before anything else goes
wrong. -/
theorem decodeFrom_of_noRoom {script : Script} {bytes : Bytes}
    (spelled : script.Spelled LastSequence bytes) (within : pos ≤ block.size)
    (here : block.dropFirst pos = bytes) (inReach : script.InReach (history ++ output).size)
    (lacking : limit < output.size + script.contentSize) :
    ∃ offset, (decodeFrom block history limit pos output).fault =
      some (.corruptInput offset .outputOverrun) := by
  induction spelled generalizing pos output with
  | @last literals bytes ends =>
    cases ends with
    | @spelled token code announced =>
      rw [Script.contentSize] at lacking
      rw [← @Array.append_empty _ literals] at here
      obtain ⟨start, -, -, read⟩ :=
        @decodeFrom_literals block history output literals limit pos token code #[] within here
          announced
      exact ⟨start, by rw [read, if_pos lacking, Decoded.corrupt]⟩
  | @sequence token literals code extraCode bytes distance extra rest announced narrow lengthened
      onward ih =>
    obtain ⟨⟨positive, reach⟩, further⟩ := inReach
    simp only [Script.contentSize] at lacking
    dsimp only at positive reach further
    obtain ⟨start, next, copied, nextWithin, nextHere, -, size, read⟩ :=
      @decodeFrom_sequence block history output literals limit pos token code extraCode bytes
        distance extra within here announced narrow lengthened positive reach
    rw [read]
    -- room may be lacking for the literals, for what the match repeats, or only for what follows
    by_cases full : limit < output.size + literals.size
    · exact ⟨start, by rw [if_pos full, Decoded.corrupt]⟩
    · rw [if_neg full]
      by_cases fullAfter : limit < output.size + literals.size + (extra + minMatch)
      · exact ⟨start + literals.size, by rw [if_pos fullAfter, Decoded.corrupt]⟩
      · rw [if_neg fullAfter]
        apply ih nextWithin nextHere
        · simpa only [Array.size_append, size, Nat.add_assoc] using further
        · simp only [Array.size_append, size]
          omega

theorem decodeOnto_of_noRoom {added : Bytes} (expands : Expands block (history ++ output) added)
    (lacking : capacity < added.size) :
    ∃ front rest offset, added = front ++ rest ∧ front.size ≤ capacity ∧ offset ≤ block.size ∧
      decodeOnto block history output capacity =
        .corrupt (output ++ front) offset .outputOverrun := by
  obtain ⟨script, spelled, inReach, expansion⟩ := expands
  have size := script.size_expand (history ++ output)
  rw [expansion, Array.size_append] at size
  obtain ⟨offset, stopped⟩ :=
    @decodeFrom_of_noRoom block history output (output.size + capacity) 0 script block spelled
      (Nat.zero_le _) (dropFirst_zero block) inReach (by omega)
  obtain ⟨front, within, outcome⟩ := outcome_decodeOnto block history output capacity
  rw [← decodeOnto] at stopped
  generalize decodeOnto block history output capacity = decoded at stopped outcome
  cases outcome with
  | whole => cases stopped
  | refused reason begins offsetWithin =>
    cases stopped
    obtain ⟨rest, split⟩ := begins.prefix_of_expands ⟨script, spelled, inReach, expansion⟩
    exact ⟨front, rest, offset, split, within, offsetWithin, rfl⟩

theorem decode_of_noRoom {content : Bytes} (expands : Expands block history content)
    (lacking : capacity < content.size) :
    ∃ offset, offset ≤ block.size ∧
      decode block history capacity = .error (.corruptInput offset .outputOverrun) := by
  rw [← @Array.append_empty _ history] at expands
  obtain ⟨front, rest, offset, -, -, within, stopped⟩ := decodeOnto_of_noRoom expands lacking
  exact ⟨offset, within, by rw [decode, stopped, Decoded.corrupt, Decoded.toExcept]⟩

end Decode

/-- What a block that is decoded with some capacity adds to the output, it adds with every capacity
that is enough for it. With any other, the decoder runs out of room and nothing else goes wrong; what
it has added by then is a front part of the content for which there was room. -/
theorem decodeOnto_capacity {block history output : Bytes} {capacity : Nat}
    (succeeds : (decodeOnto block history output capacity).fault = none) :
    ∃ added, decodeOnto block history output capacity = ⟨output ++ added, none⟩ ∧
      (∀ room, added.size ≤ room →
        decodeOnto block history output room = ⟨output ++ added, none⟩) ∧
      ∀ room < added.size, ∃ front rest offset, added = front ++ rest ∧ front.size ≤ room ∧
        offset ≤ block.size ∧
        decodeOnto block history output room = .corrupt (output ++ front) offset .outputOverrun := by
  obtain ⟨added, room, outcome⟩ := outcome_decodeOnto block history output capacity
  have expands : Expands block (history ++ output) added := by
    generalize decodeOnto block history output capacity = decoded at succeeds outcome
    cases outcome with
    | whole expands => exact expands
    | refused => cases succeeds
  exact ⟨added, decodeOnto_of_expands expands room, fun room => decodeOnto_of_expands expands,
    fun room => decodeOnto_of_noRoom expands⟩

/-- A literal, a match that reaches back into the history, and five more literals, with more room
than they take, with exactly as much and with less. -/
theorem decodeOnto_capacity_eleven :
    let block : Bytes := #[0x11, 7, 3, 0, 0x50, 1, 2, 3, 4, 5]
    let content : Bytes := #[7, 6, 0, 7, 6, 0, 1, 2, 3, 4, 5]
    decodeOnto block #[6] #[0] 20 = ⟨#[0] ++ content, none⟩ ∧
      decodeOnto block #[6] #[0] 11 = ⟨#[0] ++ content, none⟩ ∧
      ∃ front rest offset, content = front ++ rest ∧ front.size ≤ 5 ∧ offset ≤ block.size ∧
        decodeOnto block #[6] #[0] 5 = .corrupt (#[0] ++ front) offset .outputOverrun := by
  intro block content
  have decoded : decodeOnto block #[6] #[0] 20 = ⟨#[0] ++ content, none⟩ := by cbv
  obtain ⟨added, same, enough, lacking⟩ :=
    @decodeOnto_capacity block #[6] #[0] 20 (congrArg Decoded.fault decoded)
  obtain rfl : content = added := by
    rw [decoded, Decoded.mk.injEq, Array.append_right_inj] at same
    exact same.1
  exact ⟨decoded, enough 11 (by decide), lacking 5 (by decide)⟩

end Lz4.Block
