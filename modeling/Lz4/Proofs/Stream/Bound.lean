import Lz4.Proofs.Stream.Rejection

/-!
# The longest block

A script pays for each of its sequences with the match in it, which stands for four bytes at least
and takes three and one for every 255 bytes, so that only literals make a block longer than what it
stands for (`Lz4.Block.Script.size_concat_sequencePieces_le`). So whatever a compressor knows of its
history, and whatever its table or its index hold, its block is within the bound for what it
compresses (`Lz4.Block.Writes.withinBound`). Where a block is given as much room as that, there is
no lack of room (`Lz4.Stream.compress_withinBound`).
-/

namespace Lz4.Block

/-- A compressor has one block, which is not empty and is not longer than the bound for an input of
so many bytes. It writes all of it to a sink that grows, and to any that has room for the bound. -/
def WithinBound (length : Nat) (compress : Sink → Sink × Bool) : Prop :=
  ∃ bound block, compressBound length = some bound ∧ bound = length + length / 255 + 16 ∧
    0 < block.size ∧ block.size ≤ bound ∧ compress .growing = (⟨block, none⟩, true) ∧
    ∀ capacity, bound ≤ capacity →
      compress (.ofCapacity capacity) = (⟨block, some (capacity - block.size)⟩, true)

/-- A compressor that writes a script of its input keeps within the bound. -/
theorem Writes.withinBound {input : Bytes} {cursor : Nat} {compress : Sink → Sink × Bool}
    (writes : Writes input cursor compress) (within : cursor ≤ input.size)
    (short : input.size - cursor ≤ maxInputSize) : WithinBound (input.size - cursor) compress := by
  obtain ⟨script, describes, written⟩ := writes
  have fits := describes.size_block_le within
  refine ⟨_, script.block, if_pos short, rfl, script.size_block_pos, fits,
    (written .growing).trans script.writePieces_growing, ?_⟩
  intro capacity room
  rw [written, Script.writePieces_ofCapacity (Nat.le_trans fits room)]

/-- There is always room for the block of an input. -/
theorem compress_ne_bufferTooSmall (input dictionary : Bytes) (mode : Mode)
    (needed available : Nat) :
    compress input dictionary mode ≠ .error (.bufferTooSmall needed available) := by
  obtain ⟨script, -, -, compressed⟩ := exists_describes input dictionary mode
  rw [compressed]
  intro failed
  split at failed <;> cases failed

end Lz4.Block

namespace Lz4.Stream

open Block

namespace Compressor

/-- There is always room for the block of a chunk, unless its length field is too small for it. -/
theorem compressChunk_ne_bufferTooSmall {compressor : Compressor}
    (valid : compressor.settings.problem? = none)
    (noField : compressor.settings.lengthField = .none) (chunk : Bytes) (needed available : Nat) :
    (compressor.compressChunk chunk).1 ≠ .error (.bufferTooSmall needed available) := by
  rcases compressor.compressChunk_cases chunk valid with
    ⟨-, tooLong⟩ | ⟨-, length, largest, bound, -, -, field, -⟩ | ⟨-, script, after, -, -, accepted⟩
  · rw [tooLong]
    intro failed
    cases failed
  · rw [noField] at field
    cases field
  · rw [accepted]
    intro failed
    cases failed

end Compressor

/-- Whatever the input, the history in front of it, the table or the index of the compressor, and
its acceleration or level, the block of `n` bytes has a byte at least and `n + n / 255 + 16` bytes at
most, and it is written to its end wherever there is room for so many. So compressing a block never
fails for want of room, with a dictionary or without; nor does compressing a chunk of a stream
without a length field, whatever was asked of its compressor before. -/
theorem compress_withinBound :
    (∀ (τ : Type) [MatchTable τ] (table : τ) (acceleration : Nat) (input : Bytes) (cursor : Nat),
      cursor ≤ input.size → input.size - cursor ≤ maxInputSize →
        WithinBound (input.size - cursor) fun sink =>
          (Greedy.compress input cursor acceleration table sink).outcome) ∧
    (∀ (chain : Chain) (level : Int) (input : Bytes) (cursor : Nat),
      cursor ≤ input.size → input.size - cursor ≤ maxInputSize →
        WithinBound (input.size - cursor) fun sink =>
          (Thorough.compressWith chain input cursor level sink).outcome) ∧
    (∀ input dictionary mode needed available,
      compress input dictionary mode ≠ .error (.bufferTooSmall needed available)) ∧
    ∀ settings opened, Compressor.new settings = .ok opened → settings.lengthField = .none →
      ∀ calls chunk needed available,
        ((opened.calls calls).2.compressChunk chunk).1 ≠
          .error (.bufferTooSmall needed available) := by
  refine ⟨?_, ?_, compress_ne_bufferTooSmall, ?_⟩
  · intro τ _ table acceleration input cursor within short
    exact (Greedy.writes_compress acceleration table within).withinBound within short
  · intro chain level input cursor within short
    exact (Thorough.writes_compressWith chain level within).withinBound within short
  · intro settings opened opens noField calls
    obtain ⟨kept, valid⟩ := Compressor.settings_of_new opens
    have same := (Compressor.settings_calls (kept ▸ valid) calls).trans kept
    rw [← same] at valid noField
    exact Compressor.compressChunk_ne_bufferTooSmall valid noField

/-- A match behind 15 literals and a history of three bytes, by both compressors; a block of nothing
behind a dictionary; and a chunk of nothing behind another. -/
theorem compress_withinBound_four :
    let input : Bytes := #[7, 7, 7, 0, 1, 2, 3, 4, 5, 6, 7, 8, 9, 10, 11, 12, 13, 14] ++
      Array.replicate 20 9
    let chunks : List Compressor.Call := [.compress #[1, 2, 3], .setDictionary #[7]]
    WithinBound 35 (fun sink =>
        (Greedy.compress input 3 1 (MatchTable.empty : WideTable) sink).outcome) ∧
      WithinBound 35 (fun sink => (Thorough.compressWith .empty input 3 9 sink).outcome) ∧
      compress #[] #[7] .standard ≠ .error (.bufferTooSmall 16 16) ∧
      ((Compressor.calls (.ofDictionary {} #[]) chunks).2.compressChunk #[]).1 ≠
        .error (.bufferTooSmall 16 16) := by
  intro input chunks
  obtain ⟨greedy, thorough, whole, stream⟩ := compress_withinBound
  exact ⟨greedy WideTable MatchTable.empty 1 input 3 (by decide) (by decide),
    thorough .empty 9 input 3 (by decide) (by decide), whole #[] #[7] .standard 16 16,
    stream {} (.ofDictionary {} #[]) rfl rfl chunks #[] 16 16⟩

end Lz4.Stream
