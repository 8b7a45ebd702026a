import Lz4.Stream.Decompressor
import Lz4.Proofs.Stream.History

/-!
# Both sides remember the same bytes

A compressor appends a chunk to its history and then drops what lies too far back. On the other
side, room is made in the window before the chunk is added, or the chunk takes the place of the
whole window. Chunk by chunk the two come to the same, whether or not the blocks of the chunks find
room (`Lz4.Stream.Compressor.history_afterBlocks`, `Lz4.Stream.Decompressor.Gives.window_eq`). So
both remember the last 64 KiB of what they started from and of all chunks since
(`Lz4.Stream.foldl_extendWindow`).
-/

namespace Lz4.Stream

open Bytes Block

/-- A window that is extended again and again holds the last bytes of what it held at first and of
all that came since. -/
theorem foldl_extendWindow {window : Bytes} (filled : window.size ≤ windowSize)
    (chunks : List Bytes) :
    chunks.foldl extendWindow window = takeLast (window ++ concat chunks) windowSize := by
  induction chunks generalizing window with
  | nil => rw [List.foldl_nil, concat_nil, Array.append_empty, takeLast_of_size_le filled]
  | cons chunk rest ih =>
    have again : (takeLast (window ++ chunk) windowSize).size ≤ windowSize := by
      rw [size_takeLast]
      exact Nat.min_le_left _ _
    rw [List.foldl_cons, extendWindow_eq_takeLast, ih again, takeLast_takeLast_append, concat_cons,
      Array.append_assoc]

theorem size_dictionaryWindow_le (dictionary : Bytes) :
    (dictionaryWindow dictionary).size ≤ windowSize := by
  rw [dictionaryWindow, size_takeLast]
  exact Nat.min_le_left _ _

theorem dictionaryWindow_empty : dictionaryWindow #[] = #[] :=
  takeLast_of_size_le (Nat.zero_le _)

namespace Compressor

/-- A compressor that has only just started, from a dictionary or, if that is empty, from nothing. -/
inductive Starts : Bytes → Compressor → Prop
  | new {settings : Settings} {compressor : Compressor}
    (opened : Compressor.new settings = .ok compressor) : Starts #[] compressor
  | setDictionary (before : Compressor) (dictionary : Bytes) :
    Starts dictionary (before.setDictionary dictionary)
  | reset {before : Compressor} {dictionary : Bytes}
    (given : before.dictionary = dictionaryWindow dictionary) : Starts dictionary before.reset

theorem Starts.history_eq {dictionary : Bytes} {compressor : Compressor}
    (starts : compressor.Starts dictionary) :
    compressor.history = dictionaryWindow dictionary := by
  cases starts with
  | setDictionary before =>
    unfold Compressor.setDictionary
    generalize dictionaryWindow dictionary = window
    rfl
  | reset given => exact given
  | new opened =>
    unfold Compressor.new at opened
    split at opened
    · cases opened
    · cases opened
      rfl

/-- A compressor after it has compressed chunks, each in a slice of its own. -/
def afterBlocks (compressor : Compressor) : List (Bytes × Bytes) → Compressor
  | [] => compressor
  | (chunk, slice) :: rest => (compressor.compressInto chunk slice).2.2.afterBlocks rest

/-- A chunk that is compressed in a slice is remembered, whether or not the slice has room for its
block. -/
theorem remembers_compressInto {compressor : Compressor} {chunk : Bytes}
    (short : compressor.settings.chunkProblem? chunk.size = none) (slice : Bytes) :
    compressor.Remembers (compressor.compressInto chunk slice).2.2 chunk := by
  unfold compressInto
  rw [short]
  exact remembers_slide compressor chunk _

/-- The history of a compressor goes as the window of the other side does. -/
theorem history_afterBlocks {compressor : Compressor} {calls : List (Bytes × Bytes)}
    (short : ∀ call ∈ calls, call.1.size ≤ compressor.settings.chunkLimit) :
    (compressor.afterBlocks calls).history =
      (calls.map Prod.fst).foldl extendWindow compressor.history := by
  induction calls generalizing compressor with
  | nil => rfl
  | cons call rest ih =>
    obtain ⟨chunk, slice⟩ := call
    obtain ⟨first, others⟩ := List.forall_mem_cons.mp short
    have taken : compressor.settings.chunkProblem? chunk.size = none :=
      if_neg (Nat.not_lt_of_le first)
    have remembers := remembers_compressInto taken slice
    rw [afterBlocks, ih (by rwa [remembers.settings]), remembers.history, List.map_cons,
      List.foldl_cons, extendWindow_eq_takeLast]

end Compressor

namespace Decompressor

/-- A decompressor that has only just started, from a dictionary or, if that is empty, from
nothing. -/
inductive Starts : Bytes → Decompressor → Prop
  | standard : Starts #[] .standard
  | new {settings : Settings} {decompressor : Decompressor}
    (opened : Decompressor.new settings = .ok decompressor) : Starts #[] decompressor
  | setDictionary (before : Decompressor) (dictionary : Bytes) :
    Starts dictionary (before.setDictionary dictionary)
  | reset {before : Decompressor} {dictionary : Bytes}
    (given : before.dictionary = dictionaryWindow dictionary) : Starts dictionary before.reset

theorem Starts.window_eq {dictionary : Bytes} {decompressor : Decompressor}
    (starts : decompressor.Starts dictionary) :
    decompressor.window = dictionaryWindow dictionary := by
  cases starts with
  | setDictionary before =>
    unfold Decompressor.setDictionary
    generalize dictionaryWindow dictionary = window
    rfl
  | reset given => exact given
  | standard => exact dictionaryWindow_empty.symm
  | new opened =>
    unfold Decompressor.new at opened
    split at opened
    · cases opened
    · cases opened
      exact dictionaryWindow_empty.symm

/-- A decompressor that gives out chunks, one for each block that it is given, becomes another. -/
inductive Gives : Decompressor → List Bytes → Decompressor → Prop
  | nil (decompressor : Decompressor) : Gives decompressor [] decompressor
  | cons {decompressor next last : Decompressor} {block chunk : Bytes} {maxSize : Nat}
    {rest : List Bytes} (given : decompressor.decompressChunk block maxSize = (.ok chunk, next))
    (onward : Gives next rest last) : Gives decompressor (chunk :: rest) last

theorem window_of_decompressChunk {decompressor next : Decompressor} {block chunk : Bytes}
    {maxSize : Nat} (given : decompressor.decompressChunk block maxSize = (.ok chunk, next)) :
    next.window = extendWindow decompressor.window chunk := by
  unfold decompressChunk at given
  split at given
  · cases given
  · split at given
    · cases given
    · cases given
      rfl

theorem Gives.window_eq {decompressor last : Decompressor} {chunks : List Bytes}
    (gives : decompressor.Gives chunks last) :
    last.window = chunks.foldl extendWindow decompressor.window := by
  induction gives with
  | nil => rfl
  | cons given onward ih => rw [ih, List.foldl_cons, window_of_decompressChunk given]

end Decompressor

end Lz4.Stream
