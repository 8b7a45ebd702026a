import Mathlib.Data.List.Forall2
import Lz4.Stream.Decompressor
import Lz4.Proofs.Stream.History

/-!
# Streams decode to their chunks

A channel is a compressor and a decompressor that is given its blocks in order. What happens to it
is a sequence of events: a chunk is sent, both sides start over, or both are given a dictionary. The
two sides hold the same history after every event, whatever becomes of a chunk: it is received as
it was sent, or it is refused because it is too long, or because its block is too long for the
length field (`Lz4.Stream.Channel.handle_faithful`). So every run of a channel, of any length, gives
back every chunk that was not refused (`Lz4.Stream.run_new_faithful`).
-/

namespace Lz4.Stream

open Bytes Block

/-- What can happen to a stream. A chunk comes with the size that the other side expects its content
not to exceed. -/
inductive Event where
  | chunk (data : Bytes) (expected : Nat)
  | reset
  | setDictionary (dictionary : Bytes)

/-- What comes of an event: what the other side made of the block of a chunk, why a chunk was
refused, or nothing. -/
inductive Reply where
  | received (result : Except Error Bytes)
  | refused (error : Error)
  | done

/-- The two sides of a stream. -/
structure Channel where
  compressor : Compressor
  decompressor : Decompressor

namespace Channel

/-- Lets an event happen. A chunk is compressed, and its block is passed on without the length in
front. -/
def handle (channel : Channel) : Event → Reply × Channel
  | .chunk data expected =>
    match channel.compressor.compressChunk data with
    | (.error error, compressor) => (.refused error, ⟨compressor, channel.decompressor⟩)
    | (.ok record, compressor) =>
      let block := record.dropFirst channel.compressor.settings.lengthField.width
      let (result, decompressor) := channel.decompressor.decompressChunk block expected
      (.received result, ⟨compressor, decompressor⟩)
  | .reset => (.done, ⟨channel.compressor.reset, channel.decompressor.reset⟩)
  | .setDictionary dictionary =>
    (.done, ⟨channel.compressor.setDictionary dictionary,
      channel.decompressor.setDictionary dictionary⟩)

/-- Lets events happen one after the other. -/
def run (channel : Channel) : List Event → List Reply
  | [] => []
  | event :: rest => (channel.handle event).1 :: run (channel.handle event).2 rest

/-- Both sides hold the same history and the same dictionary, and the decompressor takes whatever
chunks the compressor takes. -/
structure InStep (sending receiving : Settings) (channel : Channel) : Prop where
  compressing : channel.compressor.settings = sending
  decompressing : channel.decompressor.settings = receiving
  history : channel.compressor.history = channel.decompressor.window
  dictionary : channel.compressor.dictionary = channel.decompressor.dictionary

end Channel

/-- A chunk is expected not to be longer than the decompressor takes, nor shorter than it is, if it
can be sent at all. -/
def Event.Expected (sending receiving : Settings) : Event → Prop
  | chunk data expected =>
    data.size ≤ sending.chunkLimit → data.size ≤ expected ∧ expected ≤ receiving.chunkLimit
  | _ => True

/-- A reply is as it has to be: a chunk was received as it was sent, or refused because it is too
long, or because its block, which is never longer than the bound, is too long for the length field.
-/
inductive Faithful (settings : Settings) : Event → Reply → Prop where
  | received {data : Bytes} {expected : Nat} (short : data.size ≤ settings.chunkLimit) :
    Faithful settings (.chunk data expected) (.received (.ok data))
  | tooLong {data : Bytes} {expected : Nat} (long : settings.chunkLimit < data.size) :
    Faithful settings (.chunk data expected)
      (.refused (.chunkTooLarge data.size settings.chunkLimit))
  | noField {data : Bytes} {expected length largest bound : Nat}
    (short : data.size ≤ settings.chunkLimit) (bounded : compressBound data.size = some bound)
    (block : length ≤ bound) (field : settings.lengthField.maxLength? = some largest)
    (exceeds : largest < length) :
    Faithful settings (.chunk data expected) (.refused (.bufferTooSmall length largest))
  | reset : Faithful settings .reset .done
  | setDictionary {dictionary : Bytes} : Faithful settings (.setDictionary dictionary) .done

/-- A block is refused by a length field only if it is too long for it. -/
theorem LengthField.exceeds_of_problem {field : LengthField} {length : Nat} {error : Error}
    (problem : field.problem? length = some error) :
    ∃ largest, field.maxLength? = some largest ∧ largest < length ∧
      error = .bufferTooSmall length largest := by
  unfold LengthField.problem? at problem
  split at problem
  · cases problem
  · rename_i largest limited
    split at problem
    · rename_i exceeds
      cases problem
      exact ⟨largest, limited, exceeds, rfl⟩
    · cases problem

/-- A length field that is too small for a block is too small for every longer one. -/
theorem LengthField.problem_of_le {field : LengthField} {length bound : Nat} {error : Error}
    (problem : field.problem? length = some error) (within : length ≤ bound) :
    (field.problem? bound).isSome := by
  obtain ⟨largest, limited, exceeds, -⟩ := exceeds_of_problem problem
  rw [problem?, limited]
  dsimp only
  rw [if_pos (Nat.lt_of_lt_of_le exceeds within)]
  rfl

namespace Compressor

/-- The block of a chunk that is not too long is made, and the length field decides what becomes of
it. If it refuses the block, the compressor has saved what leads back. -/
theorem compressChunk_of_short {compressor : Compressor} {chunk : Bytes}
    (valid : compressor.settings.problem? = none)
    (short : chunk.size ≤ compressor.settings.chunkLimit) :
    ∃ (script : Script) (after : Compressor) (bound : Nat),
      script.Describes (compressor.history ++ chunk) compressor.history.size ∧
        compressor.Remembers after chunk ∧
        compressBound chunk.size = some bound ∧ script.block.size ≤ bound ∧
        (compressor.settings.lengthField.problem? script.block.size = none →
          compressor.compressChunk chunk =
            (.ok (Bytes.ofNat compressor.settings.lengthField.width script.block.size ++
              script.block), after)) ∧
        ∀ error, compressor.settings.lengthField.problem? script.block.size = some error →
          ∃ restored, restored.cleared = compressor.cleared ∧
            compressor.compressChunk chunk = (.error error, restored) := by
  have taken : compressor.settings.chunkProblem? chunk.size = none :=
    if_neg (Nat.not_lt_of_le short)
  obtain ⟨script, describes, block, remembers⟩ :=
    compressBlock_eq taken ((compressBound chunk.size).getD 0)
  have bound : compressBound chunk.size = some (chunk.size + chunk.size / 255 + 16) := by
    have limit : compressor.settings.chunkLimit ≤ maxInputSize := by
      by_contra large
      simp only [Settings.problem?, if_pos (Nat.lt_of_not_le large)] at valid
      split at valid <;> cases valid
    rw [compressBound, if_pos (Nat.le_trans short limit)]
  have enough := describes.size_block_le (by rw [Array.size_append]; exact Nat.le_add_right _ _)
  rw [Array.size_append, Nat.add_sub_cancel_left] at enough
  have back := compressor.cleared_restore chunk (chunk.size + chunk.size / 255 + 16)
  rw [bound, Option.getD_some] at block remembers
  rw [if_pos enough] at block
  rcases compressed : compressor.compressBlock chunk (chunk.size + chunk.size / 255 + 16) with
    ⟨result, after⟩
  rw [compressed] at block remembers back
  dsimp only at block remembers back
  subst block
  refine ⟨script, after, _, describes, remembers, bound, enough, ?_, ?_⟩
  · intro fitting
    simp only [compressChunk, bound, Option.getD_some, compressed, fitting]
  · intro error problem
    have saved := LengthField.problem_of_le problem enough
    refine ⟨after.restore compressor.snapshot, back, ?_⟩
    simp only [compressChunk, bound, Option.getD_some, compressed, problem, saved, ↓reduceIte,
      Option.elim_some]

/-- What becomes of a chunk: it is too long, or its block is, and then nothing has changed, but for
an index that no block looks at; or there is a record of its block, and the chunk is remembered.
-/
theorem compressChunk_cases (compressor : Compressor) (chunk : Bytes)
    (valid : compressor.settings.problem? = none) :
    (compressor.settings.chunkLimit < chunk.size ∧ compressor.compressChunk chunk =
        (.error (.chunkTooLarge chunk.size compressor.settings.chunkLimit), compressor)) ∨
      (chunk.size ≤ compressor.settings.chunkLimit ∧ ∃ length largest bound,
        compressBound chunk.size = some bound ∧ length ≤ bound ∧
          compressor.settings.lengthField.maxLength? = some largest ∧ largest < length ∧
          ∃ restored, restored.cleared = compressor.cleared ∧ compressor.compressChunk chunk =
            (.error (.bufferTooSmall length largest), restored)) ∨
      (chunk.size ≤ compressor.settings.chunkLimit ∧ ∃ (script : Script) (after : Compressor),
        script.Describes (compressor.history ++ chunk) compressor.history.size ∧
          compressor.Remembers after chunk ∧ compressor.compressChunk chunk =
            (.ok (Bytes.ofNat compressor.settings.lengthField.width script.block.size ++
              script.block), after)) := by
  by_cases long : compressor.settings.chunkLimit < chunk.size
  · have refused : compressor.settings.chunkProblem? chunk.size =
        some (.chunkTooLarge chunk.size compressor.settings.chunkLimit) := if_pos long
    refine Or.inl ⟨long, ?_⟩
    rw [compressChunk, compressBlock, refused]
  · have short := Nat.le_of_not_lt long
    obtain ⟨script, after, bound, describes, remembers, bounded, enough, made, refused⟩ :=
      compressChunk_of_short valid short
    cases problem : compressor.settings.lengthField.problem? script.block.size with
    | none => exact Or.inr (Or.inr ⟨short, script, after, describes, remembers, made problem⟩)
    | some error =>
      obtain ⟨largest, limited, exceeds, rfl⟩ := LengthField.exceeds_of_problem problem
      exact Or.inr (Or.inl ⟨short, script.block.size, largest, bound, bounded, enough, limited,
        exceeds, refused _ problem⟩)

end Compressor

namespace Channel

variable {sending receiving : Settings} {channel : Channel}

/-- A compressor that went back is still in step. -/
theorem InStep.restored {restored : Compressor} (inStep : channel.InStep sending receiving)
    (back : restored.cleared = channel.compressor.cleared) :
    InStep sending receiving ⟨restored, channel.decompressor⟩ := by
  obtain ⟨settings, dictionary, history, -⟩ := Compressor.same_of_cleared back
  exact ⟨settings.trans inStep.compressing, inStep.decompressing, history.trans inStep.history,
    dictionary.trans inStep.dictionary⟩

/-- The block of a chunk is received as the chunk, and the two sides stay in step. -/
theorem decompressChunk_block {script : Script} {chunk : Bytes} {expected : Nat}
    {after : Compressor} (inStep : channel.InStep sending receiving)
    (describes : script.Describes (channel.compressor.history ++ chunk)
      channel.compressor.history.size)
    (remembers : channel.compressor.Remembers after chunk) (room : chunk.size ≤ expected)
    (allowed : expected ≤ receiving.chunkLimit) :
    ∃ decompressor, channel.decompressor.decompressChunk script.block expected =
        (.ok chunk, decompressor) ∧
      InStep sending receiving ⟨after, decompressor⟩ := by
  have taken : channel.decompressor.settings.chunkProblem? expected = none := by
    rw [Settings.chunkProblem?, inStep.decompressing, if_neg (Nat.not_lt_of_le allowed)]
  have decoded := describes.decode #[] room
  rw [Array.empty_append, inStep.history] at decoded
  refine ⟨⟨channel.decompressor.settings, channel.decompressor.dictionary,
    extendWindow channel.decompressor.window chunk⟩, ?_, ?_, inStep.decompressing, ?_, ?_⟩
  · rw [Decompressor.decompressChunk, taken, decoded]
  · exact remembers.settings.trans inStep.compressing
  · rw [remembers.history, inStep.history, extendWindow_eq_takeLast]
  · exact remembers.dictionary.trans inStep.dictionary

/-- One event: the reply is as it has to be, and the two sides stay in step. -/
theorem handle_faithful (valid : sending.problem? = none)
    (inStep : channel.InStep sending receiving) {event : Event}
    (expected : event.Expected sending receiving) :
    Faithful sending event (channel.handle event).1 ∧
      (channel.handle event).2.InStep sending receiving := by
  have compressing := inStep.compressing
  cases event with
  | chunk data allowance =>
    rcases channel.compressor.compressChunk_cases data (compressing ▸ valid) with
      ⟨long, refused⟩ |
      ⟨short, length, largest, bound, bounded, block, field, exceeds, restored, back, refused⟩ |
      ⟨short, script, after, describes, remembers, accepted⟩
    · rw [compressing] at long refused
      rw [handle, refused]
      exact ⟨.tooLong long, inStep⟩
    · rw [compressing] at short field
      rw [handle, refused]
      exact ⟨.noField short bounded block field exceeds, inStep.restored back⟩
    · rw [compressing] at short
      obtain ⟨room, allowed⟩ := expected short
      obtain ⟨decompressor, received, after⟩ :=
        decompressChunk_block inStep describes remembers room allowed
      have block := dropFirst_append
        (Bytes.ofNat channel.compressor.settings.lengthField.width script.block.size) script.block
      rw [size_ofNat] at block
      rw [handle, accepted]
      dsimp only
      rw [block, received]
      exact ⟨.received short, after⟩
  | reset =>
    have dictionary := inStep.dictionary
    exact ⟨.reset, ⟨compressing, inStep.decompressing, dictionary, dictionary⟩⟩
  | setDictionary dictionary =>
    have decompressing := inStep.decompressing
    refine ⟨.setDictionary, ⟨?_, ?_, ?_, ?_⟩⟩
    · simp only [handle, Compressor.setDictionary, Compressor.reset, compressing]
    · simp only [handle, Decompressor.setDictionary, decompressing]
    · simp only [handle, Compressor.setDictionary, Compressor.reset, Decompressor.setDictionary]
    · simp only [handle, Compressor.setDictionary, Compressor.reset, Decompressor.setDictionary]

theorem run_faithful (valid : sending.problem? = none) (inStep : channel.InStep sending receiving)
    {events : List Event} (expected : ∀ event ∈ events, event.Expected sending receiving) :
    List.Forall₂ (Faithful sending) events (channel.run events) := by
  induction events generalizing channel with
  | nil => exact List.Forall₂.nil
  | cons event rest ih =>
    obtain ⟨faithful, after⟩ :=
      handle_faithful valid inStep (expected event List.mem_cons_self)
    refine List.Forall₂.cons faithful (ih after ?_)
    intro later inRest
    exact expected later (List.mem_cons_of_mem event inRest)

end Channel

/-- A compressor and a decompressor that were opened with any settings go through any sequence of
events: every chunk that is not refused is received as it was sent. -/
theorem run_new_faithful {sending receiving : Settings} {compressor : Compressor}
    {decompressor : Decompressor} (opensSending : Compressor.new sending = .ok compressor)
    (opensReceiving : Decompressor.new receiving = .ok decompressor)
    {events : List Event} (expected : ∀ event ∈ events, event.Expected sending receiving) :
    List.Forall₂ (Faithful sending) events (Channel.run ⟨compressor, decompressor⟩ events) := by
  cases problem : sending.problem? with
  | some error =>
    rw [Compressor.new, problem] at opensSending
    cases opensSending
  | none =>
    cases otherProblem : receiving.problem? with
    | some error =>
      rw [Decompressor.new, otherProblem] at opensReceiving
      cases opensReceiving
    | none =>
      rw [Compressor.new, problem] at opensSending
      rw [Decompressor.new, otherProblem] at opensReceiving
      cases opensSending
      cases opensReceiving
      have empty : dictionaryWindow #[] = #[] := by simp [dictionaryWindow, takeLast]
      have inStep : Channel.InStep sending receiving
          ⟨.ofDictionary sending #[], ⟨receiving, #[], #[]⟩⟩ := ⟨rfl, rfl, empty, empty⟩
      exact Channel.run_faithful problem inStep expected

theorem run_new_faithful_short :
    let sending : Settings := { chunkLimit := 8, lengthField := .oneByte }
    let receiving : Settings := { chunkLimit := 9 }
    let events : List Event := [.chunk #[1, 2, 3] 4, .setDictionary #[7, 7], .chunk #[7, 7, 7] 9,
      .reset, .chunk (Array.replicate 9 0) 9]
    List.Forall₂ (Faithful sending) events
      (Channel.run ⟨.ofDictionary sending #[], ⟨receiving, #[], #[]⟩⟩ events) := by
  intro sending receiving events
  have opensSending : Compressor.new sending = .ok (.ofDictionary sending #[]) := rfl
  have opensReceiving : Decompressor.new receiving = .ok ⟨receiving, #[], #[]⟩ := rfl
  refine run_new_faithful opensSending opensReceiving ?_
  simp [events, sending, receiving, Event.Expected]

end Lz4.Stream
