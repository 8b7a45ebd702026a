import Lz4.Proofs.Frame.Calls
import Lz4.Proofs.Frame.Record
import Lz4.Proofs.Stream.Window

/-!
# What is remembered within a frame

A decoder of linked blocks adds every block to its window when it gives out the block. Whatever
else it takes in or refuses leaves the window alone. So its window is the end of its dictionary and
of all blocks that it found (`Lz4.Frame.Run.remembers_drive`), however the frame was cut into
pieces (`Lz4.Frame.Decoder.Finds.window_eq`). This is also what a compressor remembers that
compressed the same chunks behind the same dictionary (`Lz4.Frame.histories_eq_takeLast`).
-/

namespace Lz4.Frame

open Bytes Lz4.Block Lz4.Stream

namespace Run

variable {run next : Run} {front : Bytes}

/-- A run past the header of a frame with linked blocks. Its window is what it should be if what the
run gave out stands behind the bytes `front`. -/
structure Remembers (front : Bytes) (run : Run) : Prop where
  past : run.decoder.stage ≠ .header
  linked : run.decoder.announces (·.independentBlocks) = false
  window : run.decoder.window = takeLast (front ++ run.output) windowSize

/-- A run that goes on and gives out nothing. -/
theorem Remembers.quiet (remembers : run.Remembers front) (onward : run.Onward next)
    (output : next.output = run.output) (window : next.decoder.window = run.decoder.window) :
    next.Remembers front := by
  refine ⟨onward.past, ?_, ?_⟩
  · rw [Decoder.announces, onward.header]
    exact remembers.linked
  · rw [window, output]
    exact remembers.window

theorem finish_quiet (run : Run) :
    run.finish.output = run.output ∧ run.finish.decoder.window = run.decoder.window := by
  rcases run.finish_cases with ended | ⟨-, refused⟩
  · rw [ended]
    exact ⟨rfl, rfl⟩
  · rw [refused]
    exact ⟨rfl, rfl⟩

theorem readBlockLength_quiet (run : Run) (start : Nat) :
    (run.readBlockLength start).output = run.output ∧
      (run.readBlockLength start).decoder.window = run.decoder.window := by
  have finished := run.emptied.finish_quiet
  unfold readBlockLength
  dsimp only
  split
  · split
    · exact ⟨rfl, rfl⟩
    · exact finished
  · split
    · exact ⟨rfl, rfl⟩
    · exact ⟨rfl, rfl⟩

theorem readContentChecksum_quiet (run : Run) (start : Nat) :
    (run.readContentChecksum start).output = run.output ∧
      (run.readContentChecksum start).decoder.window = run.decoder.window := by
  have finished := run.unsummed.finish_quiet
  unfold readContentChecksum
  dsimp only
  split
  · exact finished
  · split
    · exact finished
    · exact ⟨rfl, rfl⟩

/-- What is given out is remembered. -/
theorem remembers_addContent (remembers : run.Remembers front) (content : Bytes) :
    (run.addContent content).Remembers front := by
  obtain ⟨past, linked, window⟩ := remembers
  refine ⟨by simp [addContent], linked, ?_⟩
  have extended : (run.addContent content).decoder.window =
      extendWindow run.decoder.window content := by
    simp only [addContent, linked, Bool.false_eq_true, ↓reduceIte]
  have output : (run.addContent content).output = run.output ++ content := rfl
  rw [extended, output, extendWindow_eq_takeLast, window, takeLast_takeLast_append,
    Array.append_assoc]

theorem remembers_readBlock (remembers : run.Remembers front) (stored : Bool) (size start : Nat) :
    (run.readBlock stored size start).Remembers front := by
  have past := remembers.past
  unfold readBlock
  dsimp only
  split
  · exact remembers.quiet ⟨past, rfl, .inl⟩ rfl rfl
  · split
    · exact remembers_addContent remembers _
    · rcases run.expandBlock_cases (run.decoder.pending.extract 0 size) _ start with
        ⟨block, -, same⟩ | ⟨error, buffer, -, same⟩
      · have filled : (run.withBuffer block).Remembers front :=
          remembers.quiet ⟨past, rfl, .inl⟩ rfl rfl
        exact same ▸ remembers_addContent filled block
      · exact same ▸ remembers.quiet ⟨past, rfl, .inl⟩ rfl rfl

/-- Acting on a record keeps the window what it should be. -/
theorem remembers_advance (remembers : run.Remembers front) : run.advance.Remembers front := by
  have past := remembers.past
  unfold advance
  dsimp only
  split
  · rename_i stage
    exact absurd stage past
  · obtain ⟨output, window⟩ := run.readBlockLength_quiet
      (run.decoder.position - run.decoder.pending.size)
    exact remembers.quiet (onward_readBlockLength past _) output window
  · exact remembers_readBlock remembers _ _ _
  · obtain ⟨output, window⟩ := run.readContentChecksum_quiet
      (run.decoder.position - run.decoder.pending.size)
    exact remembers.quiet (onward_readContentChecksum past _) output window
  · exact remembers
  · exact remembers

/-- However much a run takes in, and whether or not it refuses some of it, its window stays what it
should be. -/
theorem remembers_drive (remembers : run.Remembers front) (data : Bytes) :
    (run.drive data).Remembers front := by
  fun_induction drive run data with
  | case1 | case4 => exact remembers
  | case3 run sound collecting size required lacking more stop ih =>
    exact ih (remembers.quiet ⟨remembers.past, rfl, .inl⟩ rfl rfl)
  | case5 run sound collecting size required collected ih => exact ih (remembers_advance remembers)
  | case6 run sound idle remaining skipping taken all ih =>
    exact ih (remembers.quiet (run.onward_pass taken .complete (by simp) (by simp)) rfl rfl)
  | case7 run sound idle remaining skipping taken some =>
    exact remembers.quiet (run.onward_pass taken _ (by simp) (by simp)) rfl rfl
  | case2 | case8 | case9 => exact remembers.quiet ⟨remembers.past, rfl, .inl⟩ rfl rfl

end Run

namespace Decoder

variable {decoder last : Decoder} {dictionary content : Bytes}

/-- A decoder that has only just read the header of a frame with linked blocks. It was given a
dictionary or, if that is empty, none. -/
inductive Starts (dictionary : Bytes) : Decoder → Prop
  | linked {before : Decoder} {header : Header}
    (given : before.options.dictionary = dictionaryWindow dictionary) (kind : header.kind = .data)
    (linked : header.independentBlocks = false) : Starts dictionary (before.start header)

theorem Starts.window_eq (starts : Starts dictionary decoder) :
    decoder.stage ≠ .header ∧ decoder.announces (·.independentBlocks) = false ∧
      decoder.window = dictionaryWindow dictionary := by
  obtain ⟨given, kind, linked⟩ := starts
  unfold Decoder.start
  split
  · rename_i skippable
    cases kind.symm.trans skippable
  · refine ⟨by simp, linked, ?_⟩
    dsimp only
    rw [if_neg (Bool.eq_false_iff.mp linked), given]

/-- A decoder that is given pieces finds content and becomes another. It may refuse a piece, and
what it found in the piece counts even so. -/
inductive Finds : Decoder → Bytes → Decoder → Prop
  | nil (decoder : Decoder) : Finds decoder #[] decoder
  | cons {decoder last : Decoder} {further : Bytes} (piece : Bytes)
    (onward : Finds (decoder.decode piece).2 further last) :
    Finds decoder ((decoder.fresh.drive piece).output ++ further) last

/-- What a decoder of linked blocks finds is added to its window, whether or not it is given out. -/
theorem Finds.window_eq (finds : decoder.Finds content last) (past : decoder.stage ≠ .header)
    (linked : decoder.announces (·.independentBlocks) = false)
    (filled : decoder.window.size ≤ windowSize) :
    last.window = takeLast (decoder.window ++ content) windowSize := by
  induction finds with
  | nil decoder => rw [Array.append_empty, takeLast_of_size_le filled]
  | @cons decoder last further piece onward ih =>
    have fresh : decoder.fresh.Remembers decoder.window := by
      refine ⟨past, linked, ?_⟩
      rw [Array.append_empty, takeLast_of_size_le filled]
    obtain ⟨past, linked, window⟩ := Run.remembers_drive fresh piece
    rw [← decode_snd] at past linked window
    have again : (decoder.decode piece).2.window.size ≤ windowSize := by
      rw [window, size_takeLast]
      exact Nat.min_le_left _ _
    rw [ih past linked again, window, takeLast_takeLast_append, Array.append_assoc]

/-- A decoder that is given the record of a block finds the block. -/
theorem finds_record {header : Header} {payload block : Bytes} {stored : Bool}
    (between : decoder.stage = .blockLength) (empty : decoder.pending = #[])
    (known : decoder.header = some header) (marked : stored = false → 0 < payload.size)
    (fits : payload.size ≤ header.blockSize.bytes)
    (represents : Represents
      (if header.independentBlocks then decoder.options.dictionary else decoder.window)
      header.blockSize.bytes block stored payload) :
    decoder.Finds block (decoder.decode (record header stored payload)).2 := by
  have driven := @Run.drive_record decoder.fresh header _ payload stored block rfl between empty
    known marked (lt_storedBit_of_le fits) fits represents (holds_self _)
  generalize after_eq : (decoder.fresh.collect (record header stored payload)).addBlock stored
    block = after at driven
  obtain ⟨sound, waiting, nothing, output⟩ : after.fault = none ∧
      after.decoder.stage = .blockLength ∧ after.decoder.pending.size = 0 ∧
      after.output = #[] ++ block := by
    rw [← after_eq]
    cases stored <;> exact ⟨rfl, rfl, rfl, rfl⟩
  have all : (record header stored payload).size ≤ after.consumed := by
    rw [← after_eq, Run.consumed_addBlock, Run.consumed_collect]
    exact Nat.le_add_left _ _
  rw [Run.drive_of_starved sound (by rw [collects, waiting]) (by rw [required, waiting])
    (by rw [nothing]; exact Nat.zero_lt_succ 3) all] at driven
  have found := Finds.cons (record header stored payload)
    (.nil (decoder.decode (record header stored payload)).2)
  rwa [driven, output, Array.empty_append, Array.append_empty] at found

end Decoder

/-- A compressor and all who decompress after it remember the same bytes, if they start from the same
dictionary or from nothing: the last 64 KiB of the dictionary and of all chunks that are not too
long. Whether there is room for a block makes no difference to the compressor, and the other side
need not be given the block of a chunk as long as it gets the chunk. -/
theorem histories_eq_takeLast {compressor : Compressor} {decompressor : Decompressor}
    {decoder : Decoder} {dictionary : Bytes} (compressing : compressor.Starts dictionary)
    (decompressing : decompressor.Starts dictionary) (decoding : decoder.Starts dictionary)
    {calls : List (Bytes × Bytes)}
    (short : ∀ call ∈ calls, call.1.size ≤ compressor.settings.chunkLimit) :
    let chunks := calls.map Prod.fst
    let remembered := takeLast (dictionaryWindow dictionary ++ concat chunks) windowSize
    (compressor.afterBlocks calls).history = remembered ∧
      chunks.foldl extendWindow decompressor.window = remembered ∧
      (∀ last, decompressor.Gives chunks last → last.window = remembered) ∧
      ∀ last, decoder.Finds (concat chunks) last → last.window = remembered := by
  intro chunks remembered
  have filled := size_dictionaryWindow_le dictionary
  have suffix : chunks.foldl extendWindow (dictionaryWindow dictionary) = remembered :=
    foldl_extendWindow filled chunks
  refine ⟨?_, ?_, ?_, ?_⟩
  · rw [Compressor.history_afterBlocks short, compressing.history_eq, suffix]
  · rw [decompressing.window_eq, suffix]
  · intro last gives
    rw [gives.window_eq, decompressing.window_eq, suffix]
  · intro last finds
    obtain ⟨past, linked, window⟩ := decoding.window_eq
    rw [finds.window_eq past linked (window ▸ filled), window]

/-- Two bytes for which there is no room push the first two out of a dictionary of 64 KiB. On the
other side they come from a block that holds them as they are, or from a record of a frame. -/
theorem histories_eq_takeLast_noRoom :
    let dictionary : Bytes := Array.replicate windowSize 0
    let compressor := (Compressor.ofDictionary {} #[]).setDictionary dictionary
    let decompressor := Decompressor.standard.setDictionary dictionary
    let decoder := (Decoder.new.setDictionary dictionary).start {}
    let remembered : Bytes := Array.replicate (windowSize - 2) 0 ++ #[1, 2]
    (compressor.afterBlocks [(#[1, 2], #[])]).history = remembered ∧
      [#[1, 2]].foldl extendWindow decompressor.window = remembered ∧
      (decompressor.decompressChunk #[0x20, 1, 2] 2).2.window = remembered ∧
      (decoder.decode (record {} true #[1, 2])).2.window = remembered := by
  intro dictionary compressor decompressor decoder remembered
  have suffix : takeLast (dictionaryWindow dictionary ++ concat [#[1, 2]]) windowSize =
      remembered := by
    have whole : dictionaryWindow dictionary = Array.replicate 2 0 ++
        Array.replicate (windowSize - 2) 0 := by
      rw [Array.replicate_append_replicate]
      exact takeLast_of_size_le (Nat.le_of_eq Array.size_replicate)
    have size : (Array.replicate (windowSize - 2) (0 : UInt8) ++ #[1, 2]).size = windowSize := by
      rw [Array.size_append, Array.size_replicate]
      rfl
    rw [whole, concat_cons, concat_nil, Array.append_empty, Array.append_assoc,
      takeLast_append_of_le (Nat.le_of_eq size.symm), takeLast_of_size_le (Nat.le_of_eq size)]
  have given : (decompressor.decompressChunk #[0x20, 1, 2] 2).1 = .ok #[1, 2] := by
    have taken : decompressor.settings.chunkProblem? 2 = none := rfl
    have literals : Block.decode #[0x20, 1, 2] decompressor.window 2 = .ok #[1, 2] := by
      generalize decompressor.window = window
      cbv
    rw [Decompressor.decompressChunk, taken, literals]
  have starts : decoder.Starts dictionary := by
    refine .linked ?_ rfl rfl
    rw [Decoder.setDictionary_eq]
  have started : decoder = (Decoder.new.withDictionary (dictionaryWindow dictionary)).start {} :=
    congrArg (Decoder.start · {}) (Decoder.setDictionary_eq _ _)
  have found : decoder.Finds #[1, 2] (decoder.decode (record {} true #[1, 2])).2 := by
    rw [started]
    generalize dictionaryWindow dictionary = window
    exact @Decoder.finds_record _ {} #[1, 2] #[1, 2] true rfl rfl rfl (fun _ => by decide)
      (by decide) rfl
  obtain ⟨compressed, extended, gives, finds⟩ := @histories_eq_takeLast compressor decompressor
    decoder dictionary (.setDictionary _ dictionary) (.setDictionary _ dictionary)
    starts [(#[1, 2], #[])] (by decide)
  rw [List.map_cons, List.map_nil, suffix] at compressed extended gives finds
  exact ⟨compressed, extended, gives _ (.cons (Prod.ext given rfl) (.nil _)), finds _ found⟩

end Lz4.Frame
