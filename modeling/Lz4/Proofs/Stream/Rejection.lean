import Mathlib.Data.Prod.Basic
import Lz4.Proofs.Stream.RoundTrip

/-!
# A refused chunk leaves no trace

What can be asked of a compressor and of a decompressor, in any order, is a list of calls. Whether
the index of a compressor is cleared makes no difference to what any calls return
(`Lz4.Stream.Compressor.calls_of_cleared`), and a compressor that refused a chunk is, but for that
index, as it was (`Lz4.Stream.Compressor.cleared_of_refused`): the block that a length field refuses
is never longer than the bound, so whenever one is refused something was saved to go back to. A
decompressor does not change before a block is decoded. So a call that is refused changes nothing
that is returned later (`Lz4.Stream.calls_after_refusal`).
-/

namespace Lz4.Stream

open Block

namespace Compressor

/-- What can be asked of a compressor. -/
inductive Call where
  | compress (chunk : Bytes)
  | reset
  | setDictionary (dictionary : Bytes)
  deriving Repr, DecidableEq

/-- What a call returns. -/
inductive Result where
  | compressed (result : Except Error Bytes)
  | nothing

def call (compressor : Compressor) : Call → Result × Compressor
  | .compress chunk =>
    match compressor.compressChunk chunk with
    | (result, after) => (.compressed result, after)
  | .reset => (.nothing, compressor.reset)
  | .setDictionary dictionary => (.nothing, compressor.setDictionary dictionary)

/-- Makes calls in order. -/
def calls (compressor : Compressor) : List Call → List Result × Compressor
  | [] => ([], compressor)
  | call :: rest =>
    match compressor.call call with
    | (result, after) =>
      match after.calls rest with
      | (results, last) => (result :: results, last)

variable {compressor first second after : Compressor} {chunk : Bytes} {error : Error}

theorem calls_cons (call : Call) (rest : List Call) :
    compressor.calls (call :: rest) =
      ((compressor.call call).1 :: ((compressor.call call).2.calls rest).1,
        ((compressor.call call).2.calls rest).2) := rfl

theorem cleared_cleared (compressor : Compressor) :
    compressor.cleared.cleared = compressor.cleared := by
  rw [cleared, cleared, Engine.cleared_cleared]

theorem snapshot_cleared (compressor : Compressor) :
    compressor.cleared.snapshot = compressor.snapshot := by
  rw [snapshot, cleared, Engine.table?_cleared]
  rfl

theorem compressBlock_cleared (taken : compressor.settings.chunkProblem? chunk.size = none)
    (capacity : Nat) :
    compressor.cleared.compressBlock chunk capacity = compressor.compressBlock chunk capacity := by
  simp only [compressBlock, cleared, taken, Engine.compress_cleared]

/-- Compressing a chunk returns the same whether or not the index was cleared before, and after it
the compressors are the same again. -/
theorem compressChunk_cleared (compressor : Compressor) (chunk : Bytes) :
    (compressor.cleared.compressChunk chunk).1 = (compressor.compressChunk chunk).1 ∧
      (compressor.cleared.compressChunk chunk).2.cleared =
        (compressor.compressChunk chunk).2.cleared := by
  cases problem : compressor.settings.chunkProblem? chunk.size with
  | some error =>
    have refused : compressor.cleared.settings.chunkProblem? chunk.size = some error := problem
    simp only [compressChunk, compressBlock, problem, refused, cleared_cleared, and_self]
  | none =>
    have same : compressor.cleared.compressChunk chunk = compressor.compressChunk chunk := by
      simp only [compressChunk, snapshot_cleared, compressBlock_cleared problem]
      rfl
    rw [same]
    exact ⟨rfl, rfl⟩

theorem cleared_reset (compressor : Compressor) :
    compressor.cleared.reset.cleared = compressor.reset.cleared := by
  simp only [reset, cleared, Engine.cleared_restart, Engine.cleared_cleared]

theorem cleared_setDictionary (compressor : Compressor) (dictionary : Bytes) :
    (compressor.cleared.setDictionary dictionary).cleared =
      (compressor.setDictionary dictionary).cleared := by
  unfold setDictionary
  generalize dictionaryWindow dictionary = window
  exact cleared_reset { compressor with dictionary := window }

theorem call_cleared (compressor : Compressor) (call : Call) :
    (compressor.cleared.call call).1 = (compressor.call call).1 ∧
      (compressor.cleared.call call).2.cleared = (compressor.call call).2.cleared := by
  cases call with
  | compress chunk =>
    obtain ⟨result, same⟩ := compressor.compressChunk_cleared chunk
    exact ⟨congrArg Result.compressed result, same⟩
  | reset => exact ⟨rfl, compressor.cleared_reset⟩
  | setDictionary dictionary => exact ⟨rfl, compressor.cleared_setDictionary dictionary⟩

/-- Compressors that differ in an index only return the same, whatever is asked of them. -/
theorem calls_of_cleared (same : first.cleared = second.cleared) (calls : List Call) :
    (first.calls calls).1 = (second.calls calls).1 := by
  induction calls generalizing first second with
  | nil => rfl
  | cons call rest ih =>
    obtain ⟨firstResult, firstAfter⟩ := first.call_cleared call
    obtain ⟨secondResult, secondAfter⟩ := second.call_cleared call
    rw [same] at firstResult firstAfter
    rw [calls_cons, calls_cons, ← firstResult, ← secondResult,
      ih (firstAfter.symm.trans secondAfter)]

/-- A compressor that refuses a chunk is as it was, but for an index. -/
theorem cleared_of_refused (valid : compressor.settings.problem? = none)
    (refused : compressor.compressChunk chunk = (.error error, after)) :
    after.cleared = compressor.cleared := by
  rcases compressor.compressChunk_cases chunk valid with
    ⟨-, tooLong⟩ | ⟨-, length, largest, bound, -, -, -, -, restored, back, noField⟩ |
    ⟨-, script, remembering, -, -, accepted⟩
  · rw [tooLong] at refused
    cases refused
    rfl
  · rw [noField] at refused
    cases refused
    exact back
  · rw [accepted] at refused
    cases refused

theorem settings_of_new {settings : Settings} {opened : Compressor}
    (opens : new settings = .ok opened) :
    opened.settings = settings ∧ settings.problem? = none := by
  unfold new at opens
  split at opens
  · cases opens
  · rename_i sound
    cases opens
    exact ⟨rfl, sound⟩

theorem settings_reset (compressor : Compressor) :
    compressor.reset.settings = compressor.settings := by
  cases compressor
  rfl

theorem settings_setDictionary (compressor : Compressor) (dictionary : Bytes) :
    (compressor.setDictionary dictionary).settings = compressor.settings :=
  settings_reset { compressor with dictionary := _ }

theorem settings_call (valid : compressor.settings.problem? = none) (call : Call) :
    (compressor.call call).2.settings = compressor.settings := by
  cases call with
  | compress chunk =>
    rcases compressor.compressChunk_cases chunk valid with
      ⟨-, tooLong⟩ | ⟨-, length, largest, bound, -, -, -, -, restored, back, noField⟩ |
      ⟨-, script, remembering, -, remembers, accepted⟩
    · rw [Compressor.call, tooLong]
    · rw [Compressor.call, noField]
      exact (same_of_cleared back).1
    · rw [Compressor.call, accepted]
      exact remembers.settings
  | reset => rfl
  | setDictionary dictionary => exact compressor.settings_setDictionary dictionary

theorem settings_calls (valid : compressor.settings.problem? = none) (calls : List Call) :
    (compressor.calls calls).2.settings = compressor.settings := by
  induction calls generalizing compressor with
  | nil => rfl
  | cons call rest ih =>
    have kept := settings_call valid call
    rw [calls_cons]
    exact (ih (by rw [kept]; exact valid)).trans kept

end Compressor

namespace Decompressor

/-- What can be asked of a decompressor. -/
inductive Call where
  | decompress (block : Bytes) (maxSize : Nat)
  | splitRecord (data : Bytes)
  | reset
  | setDictionary (dictionary : Bytes)
  deriving Repr, DecidableEq

/-- What a call returns. -/
inductive Result where
  | decompressed (result : Except Error Bytes)
  | split (result : Except Error (Bytes × Nat))
  | nothing

def call (decompressor : Decompressor) : Call → Result × Decompressor
  | .decompress block maxSize =>
    match decompressor.decompressChunk block maxSize with
    | (result, after) => (.decompressed result, after)
  | .splitRecord data => (.split (decompressor.splitRecord data), decompressor)
  | .reset => (.nothing, decompressor.reset)
  | .setDictionary dictionary => (.nothing, decompressor.setDictionary dictionary)

/-- Makes calls in order. -/
def calls (decompressor : Decompressor) : List Call → List Result × Decompressor
  | [] => ([], decompressor)
  | call :: rest =>
    match decompressor.call call with
    | (result, after) =>
      match after.calls rest with
      | (results, last) => (result :: results, last)

/-- A decompressor that refuses a block is as it was. -/
theorem eq_of_refused {decompressor after : Decompressor} {block : Bytes} {maxSize : Nat}
    {error : Error} (refused : decompressor.decompressChunk block maxSize = (.error error, after)) :
    after = decompressor := by
  unfold decompressChunk at refused
  split at refused
  · cases refused
    rfl
  · split at refused <;> cases refused
    rfl

end Decompressor

/-- However a compressor was used since it was opened, a chunk that it refuses makes no difference
to what any later calls return. Nor does a block that a decompressor refuses. -/
theorem calls_after_refusal :
    (∀ settings opened, Compressor.new settings = .ok opened →
      ∀ before chunk error after,
        (opened.calls before).2.compressChunk chunk = (.error error, after) →
        ∀ later, (after.calls later).1 = ((opened.calls before).2.calls later).1) ∧
    ∀ settings opened, Decompressor.new settings = .ok opened →
      ∀ before block maxSize error after,
        (opened.calls before).2.decompressChunk block maxSize = (.error error, after) →
        ∀ later, (after.calls later).1 = ((opened.calls before).2.calls later).1 := by
  constructor
  · intro settings opened opens before chunk error after refused later
    obtain ⟨rfl, valid⟩ := Compressor.settings_of_new opens
    have kept := Compressor.settings_calls valid before
    rw [← kept] at valid
    exact Compressor.calls_of_cleared (Compressor.cleared_of_refused valid refused) later
  · intro settings opened opens before block maxSize error after refused later
    rw [Decompressor.eq_of_refused refused]

/-- The block of 254 bytes in which no match is found is too long for one byte. -/
theorem compressChunk_noField :
    ∃ after, (Compressor.calls
      (.ofDictionary { chunkLimit := 254, mode := .fast 65537, lengthField := .oneByte } #[])
      [.setDictionary #[7, 7], .compress #[1, 2, 3]]).2.compressChunk (Array.replicate 254 0) =
        (.error (.bufferTooSmall 256 255), after) := by
  refine ⟨_, Prod.fst_eq_iff.mp ?_⟩
  decide +kernel

theorem decompressChunk_overrun :
    ∃ after, (Decompressor.calls ⟨{ chunkLimit := 8 }, #[], #[]⟩
      [.setDictionary #[97]]).2.decompressChunk #[16] 5 =
        (.error (.corruptInput 1 .literalOverrun), after) := by
  refine ⟨_, Prod.fst_eq_iff.mp ?_⟩
  decide +kernel

theorem calls_after_refusal_noField :
    let sending : Settings := { chunkLimit := 254, mode := .fast 65537, lengthField := .oneByte }
    let before : List Compressor.Call := [.setDictionary #[7, 7], .compress #[1, 2, 3]]
    let compressor := (Compressor.calls (.ofDictionary sending #[]) before).2
    let later : List Compressor.Call := [.compress #[1, 2, 3], .reset, .compress #[7, 7, 7]]
    let receiving : Settings := { chunkLimit := 8 }
    let blocks : List Decompressor.Call := [.setDictionary #[97]]
    let decompressor := (Decompressor.calls ⟨receiving, #[], #[]⟩ blocks).2
    let laterBlocks : List Decompressor.Call := [.decompress #[0, 1, 0, 0] 8, .splitRecord #[1]]
    (∃ after, compressor.compressChunk (Array.replicate 254 0) =
        (.error (.bufferTooSmall 256 255), after) ∧
      (after.calls later).1 = (compressor.calls later).1) ∧
    ∃ after, decompressor.decompressChunk #[16] 5 =
        (.error (.corruptInput 1 .literalOverrun), after) ∧
      (after.calls laterBlocks).1 = (decompressor.calls laterBlocks).1 := by
  intro sending before compressor later receiving blocks decompressor laterBlocks
  obtain ⟨after, tooLong⟩ := compressChunk_noField
  obtain ⟨afterBlock, lacking⟩ := decompressChunk_overrun
  obtain ⟨compressing, decompressing⟩ := calls_after_refusal
  exact ⟨⟨after, tooLong,
      compressing sending (.ofDictionary sending #[]) rfl before _ _ _ tooLong later⟩,
    afterBlock, lacking,
    decompressing receiving ⟨receiving, #[], #[]⟩ rfl blocks _ _ _ _ lacking laterBlocks⟩

end Lz4.Stream
