import Lz4.Proofs.Block.RoundTrip

/-!
# What the two sides of a stream remember

The compressing side appends a chunk to its history and then slides; the decompressing side makes
room in its window and then appends, or starts a new window. Either way what is remembered is the
last 64 KiB of what came before and the chunk (`Lz4.Stream.Compressor.history_slide`,
`Lz4.Stream.extendWindow_eq_takeLast`). A compressor has one block for a chunk, which is given out
if there is room for it (`Lz4.Stream.Compressor.compressBlock_fst`). It is a block behind the
history, and the history grows by the chunk whether or not the block found room
(`Lz4.Stream.Compressor.compressBlock_eq`).

A compressor that made a block can go back to what it had saved before it
(`Lz4.Stream.Compressor.cleared_restore`), and starts over as it would have before the block
(`Lz4.Stream.Compressor.cleared_reset_compressBlock`). The index of the thorough compressor is not
saved. Since the next block clears it before anything is looked up there, compressors are compared as
they are once their index is cleared.
-/

namespace Lz4.Stream

open Bytes Block

theorem extendWindow_eq_takeLast (window chunk : Bytes) :
    extendWindow window chunk = takeLast (window ++ chunk) windowSize := by
  unfold extendWindow
  simp only [takeLast]
  rw [Array.extract_append, Array.size_append,
    extract_of_size_le (Nat.le_add_right window.size chunk.size), Nat.add_sub_cancel_left]
  by_cases short : chunk.size < windowSize
  · have inWindow : window.size + chunk.size - windowSize - window.size = 0 := by omega
    rw [if_pos short, dropFirst, inWindow, Array.extract_size]
  · have past : min window.size window.size ≤ window.size + chunk.size - windowSize := by omega
    have inChunk : window.size + chunk.size - windowSize - window.size =
        chunk.size - windowSize := by omega
    rw [if_neg short, Array.extract_eq_empty_of_le past, inChunk, Array.empty_append]

theorem Engine.restart_restart (engine : Engine) (first second : Bytes) :
    (engine.restart first).restart second = engine.restart second := by
  cases engine <;> rfl

namespace Compressor

theorem history_slide (compressor : Compressor) :
    compressor.slide.history = takeLast compressor.history windowSize := by
  obtain ⟨settings, dictionary, history, engine⟩ := compressor
  unfold slide takeLast
  dsimp only
  by_cases long : windowSize < history.size
  · rw [if_pos long, dropFirst]
  · rw [if_neg long, Nat.sub_eq_zero_of_le (Nat.le_of_not_lt long), Array.extract_size]

theorem settings_slide (compressor : Compressor) :
    compressor.slide.settings = compressor.settings := by
  unfold slide
  split
  split <;> rfl

theorem dictionary_slide (compressor : Compressor) :
    compressor.slide.dictionary = compressor.dictionary := by
  unfold slide
  split
  split <;> rfl

/-- A compressor after a chunk: its history has grown by the chunk, the rest is as it was. -/
structure Remembers (before after : Compressor) (chunk : Bytes) : Prop where
  settings : after.settings = before.settings
  dictionary : after.dictionary = before.dictionary
  history : after.history = takeLast (before.history ++ chunk) windowSize

theorem remembers_slide (compressor : Compressor) (chunk : Bytes) (engine : Engine) :
    compressor.Remembers
      (slide ⟨compressor.settings, compressor.dictionary, compressor.history ++ chunk, engine⟩)
      chunk :=
  ⟨settings_slide _, dictionary_slide _, history_slide _⟩

/-- The block that a compressor makes of a chunk where there is room for it. -/
def block (compressor : Compressor) (chunk : Bytes) : Bytes :=
  (compressor.engine.compress compressor.settings.mode.acceleration (compressor.history ++ chunk)
    compressor.history.size .growing).sink.written

theorem writes_block (compressor : Compressor) (chunk : Bytes) :
    Writes (compressor.history ++ chunk) compressor.history.size fun sink =>
      (compressor.engine.compress compressor.settings.mode.acceleration
        (compressor.history ++ chunk) compressor.history.size sink).outcome := by
  apply writes_engine
  rw [Array.size_append]
  exact Nat.le_add_right _ _

/-- The block of a chunk is that of a script for what the history lacks. -/
theorem exists_describes_block (compressor : Compressor) (chunk : Bytes) :
    ∃ script : Script, script.Describes (compressor.history ++ chunk) compressor.history.size ∧
      compressor.block chunk = script.block := by
  obtain ⟨script, describes, whole⟩ := (compressor.writes_block chunk).growing
  exact ⟨script, describes, congrArg (·.1.written) whole⟩

variable {compressor : Compressor} {chunk : Bytes}

/-- A chunk that is not too long is compressed to its block if there is room for that, and to nothing
else. -/
theorem compressBlock_fst (short : compressor.settings.chunkProblem? chunk.size = none)
    (capacity : Nat) :
    (compressor.compressBlock chunk capacity).1 =
      if (compressor.block chunk).size ≤ capacity then .ok (compressor.block chunk)
      else .error (.bufferTooSmall ((compressBound chunk.size).getD 0) capacity) := by
  obtain ⟨complete, written⟩ := (compressor.writes_block chunk).ofCapacity capacity
  simp only [Compressed.outcome] at complete written
  unfold compressBlock
  rw [short]
  dsimp only
  by_cases room : (compressor.block chunk).size ≤ capacity
  · rw [if_pos room, if_pos (complete.mpr room)]
    exact congrArg Except.ok (written room)
  · rw [if_neg room, if_neg (fun fits => room (complete.mp fits))]

/-- A chunk that is not too long is remembered, whether or not there is room for its block. -/
theorem remembers_compressBlock (short : compressor.settings.chunkProblem? chunk.size = none)
    (capacity : Nat) : compressor.Remembers (compressor.compressBlock chunk capacity).2 chunk := by
  unfold compressBlock
  rw [short]
  exact remembers_slide compressor chunk _

/-- A chunk that is not too long is compressed to the block of a script for what the history lacks,
and is remembered even if there is no room for the block. -/
theorem compressBlock_eq (short : compressor.settings.chunkProblem? chunk.size = none)
    (capacity : Nat) :
    ∃ script : Script, script.Describes (compressor.history ++ chunk) compressor.history.size ∧
      (compressor.compressBlock chunk capacity).1 =
        (if script.block.size ≤ capacity then .ok script.block
        else .error (.bufferTooSmall ((compressBound chunk.size).getD 0) capacity)) ∧
      compressor.Remembers (compressor.compressBlock chunk capacity).2 chunk := by
  obtain ⟨script, describes, same⟩ := compressor.exists_describes_block chunk
  refine ⟨script, describes, ?_, remembers_compressBlock short capacity⟩
  rw [compressBlock_fst short, same]

theorem settings_compressBlock (compressor : Compressor) (chunk : Bytes) (capacity : Nat) :
    (compressor.compressBlock chunk capacity).2.settings = compressor.settings := by
  unfold compressBlock
  split
  · rfl
  · exact settings_slide _

/-- A compressor that is given a dictionary before any block is one that began with it. -/
theorem setDictionary_ofDictionary (settings : Settings) (first dictionary : Bytes) :
    (ofDictionary settings first).setDictionary dictionary = ofDictionary settings dictionary := by
  unfold setDictionary ofDictionary reset
  dsimp only
  rw [Engine.restart_restart]

variable {compressor after : Compressor} {chunk slice payload : Bytes} {error : Error}

/-- A block that is compressed in a slice is the one that is given room for as many bytes. -/
theorem compressInto_of_ok
    (compressed : compressor.compressBlock chunk slice.size = (.ok payload, after)) :
    compressor.compressInto chunk slice =
      (.ok payload.size, payload ++ slice.dropFirst payload.size, after) := by
  unfold compressBlock at compressed
  unfold compressInto
  split at compressed
  · cases compressed
  · dsimp only at compressed ⊢
    split at compressed
    · rename_i complete
      cases compressed
      rw [if_pos complete]
    · cases compressed

/-- A block for which there is no room leaves a slice that is no shorter. -/
theorem compressInto_of_error
    (refused : compressor.compressBlock chunk slice.size = (.error error, after)) :
    ∃ left, slice.size ≤ left.size ∧
      compressor.compressInto chunk slice = (.error error, left, after) := by
  unfold compressBlock at refused
  unfold compressInto
  split at refused
  · cases refused
    exact ⟨slice, Nat.le_refl _, rfl⟩
  · dsimp only at refused ⊢
    split at refused
    · cases refused
    · rename_i incomplete
      cases refused
      refine ⟨_, ?_, by rw [if_neg incomplete]⟩
      rw [Array.size_append, size_dropFirst]
      omega

theorem compressInto_fst (short : compressor.settings.chunkProblem? chunk.size = none)
    (slice : Bytes) :
    (compressor.compressInto chunk slice).1 =
      if (compressor.block chunk).size ≤ slice.size then .ok (compressor.block chunk).size
      else .error (.bufferTooSmall ((compressBound chunk.size).getD 0) slice.size) := by
  have result := compressBlock_fst short slice.size
  rcases compressed : compressor.compressBlock chunk slice.size with ⟨found, last⟩
  rw [compressed] at result
  dsimp only at result
  by_cases room : (compressor.block chunk).size ≤ slice.size
  · rw [if_pos room] at result ⊢
    subst result
    rw [compressInto_of_ok compressed]
  · rw [if_neg room] at result ⊢
    subst result
    obtain ⟨left, -, into⟩ := compressInto_of_error compressed
    rw [into]

end Compressor

namespace Engine

variable {engine later : Engine}

/-- The engine as the next block finds it: the thorough compressor forgets its index first. -/
def cleared : Engine → Engine
  | greedy table => greedy table
  | thorough level chain => thorough level chain.reset

theorem cleared_cleared (engine : Engine) : engine.cleared.cleared = engine.cleared := by
  cases engine with
  | greedy table => rfl
  | thorough level chain => rw [cleared, cleared, Chain.reset_reset]

theorem cleared_restart (engine : Engine) (history : Bytes) :
    (engine.restart history).cleared = engine.cleared.restart history := by
  cases engine <;> rfl

theorem table?_cleared (engine : Engine) : engine.cleared.table? = engine.table? := by
  cases engine <;> rfl

/-- Whether the index is cleared makes no difference to a block, nor to what it leaves behind. -/
theorem compress_cleared (engine : Engine) (acceleration : Nat) (input : Bytes) (cursor : Nat)
    (sink : Sink) :
    engine.cleared.compress acceleration input cursor sink =
      engine.compress acceleration input cursor sink := by
  cases engine with
  | greedy table => rfl
  | thorough level chain =>
    simp only [cleared, compress, Thorough.compressWith, Chain.reset_reset]

/-- An engine is got back from a later one by putting its table back. -/
def ReturnsFrom (engine later : Engine) : Prop :=
  (later.putBack engine.table?).cleared = engine.cleared

theorem returns_self (engine : Engine) : engine.ReturnsFrom engine := by
  cases engine <;> rfl

theorem returns_compress (engine : Engine) (acceleration : Nat) (input : Bytes) (cursor : Nat)
    (sink : Sink) : engine.ReturnsFrom (engine.compress acceleration input cursor sink).table := by
  cases engine with
  | greedy table => rfl
  | thorough level chain =>
    have cleared := Thorough.reset_scan input (Thorough.depth level) cursor cursor chain.reset sink
    rw [Chain.reset_reset] at cleared
    exact congrArg (thorough level) cleared

theorem ReturnsFrom.drop (returns : engine.ReturnsFrom later) (count : Nat) :
    engine.ReturnsFrom (later.drop count) := by
  cases later with
  | greedy table =>
    cases engine with
    | greedy saved => rfl
    | thorough level chain => cases returns
  | thorough level chain => exact returns

/-- An engine that leads back to another starts over as that one does. -/
theorem ReturnsFrom.restart (returns : engine.ReturnsFrom later) (history : Bytes) :
    (later.restart history).cleared = (engine.restart history).cleared := by
  cases later with
  | greedy table =>
    cases engine with
    | greedy saved => rfl
    | thorough level chain => cases returns
  | thorough level chain =>
    cases engine with
    | greedy saved => cases returns
    | thorough saved index => exact returns

end Engine

namespace Compressor

/-- The compressor as the next block finds it. -/
def cleared (compressor : Compressor) : Compressor :=
  { compressor with engine := compressor.engine.cleared }

/-- Clearing touches nothing but an index. -/
theorem same_of_cleared {first second : Compressor} (same : first.cleared = second.cleared) :
    first.settings = second.settings ∧ first.dictionary = second.dictionary ∧
      first.history = second.history ∧ first.engine.cleared = second.engine.cleared := by
  simpa only [cleared, mk.injEq] using same

theorem returns_slide {engine later : Engine} (returns : engine.ReturnsFrom later)
    (settings : Settings) (dictionary history : Bytes) :
    engine.ReturnsFrom (slide ⟨settings, dictionary, history, later⟩).engine := by
  unfold slide
  dsimp only
  split
  · exact returns.drop _
  · exact returns

/-- What was saved before a block leads back from it, however much of the block was written. -/
theorem cleared_restore (compressor : Compressor) (chunk : Bytes) (capacity : Nat) :
    ((compressor.compressBlock chunk capacity).2.restore compressor.snapshot).cleared =
      compressor.cleared := by
  cases problem : compressor.settings.chunkProblem? chunk.size with
  | some error =>
    have back := compressor.engine.returns_self
    simp only [compressBlock, problem, restore, snapshot, cleared]
    rw [back]
  | none =>
    have used := compressor.engine.returns_compress compressor.settings.mode.acceleration
      (compressor.history ++ chunk) compressor.history.size (.ofCapacity capacity)
    have back := returns_slide used compressor.settings compressor.dictionary
      (compressor.history ++ chunk)
    simp only [compressBlock, problem, restore, snapshot, cleared, settings_slide,
      dictionary_slide]
    rw [back]

theorem block_cleared (compressor : Compressor) (chunk : Bytes) :
    compressor.cleared.block chunk = compressor.block chunk := by
  simp only [block, cleared, Engine.compress_cleared]

/-- A compressor starts over in the same way before and after a block, however much of the block was
written. -/
theorem cleared_reset_compressBlock (compressor : Compressor) (chunk : Bytes) (capacity : Nat) :
    (compressor.compressBlock chunk capacity).2.reset.cleared = compressor.reset.cleared := by
  cases problem : compressor.settings.chunkProblem? chunk.size with
  | some error => simp only [compressBlock, problem]
  | none =>
    have used := compressor.engine.returns_compress compressor.settings.mode.acceleration
      (compressor.history ++ chunk) compressor.history.size (.ofCapacity capacity)
    have again := (returns_slide used compressor.settings compressor.dictionary
      (compressor.history ++ chunk)).restart compressor.dictionary
    simp only [compressBlock, problem, reset, cleared, settings_slide, dictionary_slide]
    rw [again]

end Compressor

end Lz4.Stream
