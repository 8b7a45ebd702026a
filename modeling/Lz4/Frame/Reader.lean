import Lz4.Source
import Lz4.Frame.Decode

/-!
# Reading a frame from a source

A reader decodes one frame while it is read from a source, and never reads beyond the end of the
frame, so what follows stays in the source. It asks the source for no more than its decoder is
sure to need. Decoded bytes wait in a buffer until they are consumed. A failure, of the source or
because the data are refused, loses nothing that was decoded before.
-/

namespace Lz4.Frame

/-- A reader: its source, its decoder, the bytes decoded last, and how many of those were
consumed. -/
structure Reader (σ : Type) where
  source : σ
  decoder : Decoder
  buffer : Bytes
  taken : Nat

namespace Reader

variable {σ : Type} [Source σ]

/-- A reader with the options of a decoder, at the start of a frame. -/
def withDecoder (source : σ) (decoder : Decoder) : Reader σ := ⟨source, decoder.reset, #[], 0⟩

/-- A reader with default options. -/
def new (source : σ) : Reader σ := withDecoder source .new

/-- How many bytes are asked for at most. -/
def maxPull : Nat := Block.windowSize

/-- The decoded bytes that wait to be consumed. -/
def waiting (reader : Reader σ) : Bytes := reader.buffer.dropFirst reader.taken

/-- Reads the next piece of the frame from the source, and decodes it to the end of the buffer. -/
def pull (reader : Reader σ) : Except StreamError Unit × Reader σ :=
  match reader with
  | ⟨source, decoder, buffer, taken⟩ =>
    let count := max (min decoder.inputHint maxPull) 1
    match Source.read source count with
    | (.error error, source) => (.error error, ⟨source, decoder, buffer, taken⟩)
    | (.ok bytes, source) =>
      if bytes.isEmpty then (.error .endedEarly, ⟨source, decoder, buffer, taken⟩)
      else
        match decoder.decode bytes with
        | (.error error, decoder) => (.error error.toStream, ⟨source, decoder, buffer, taken⟩)
        | (.ok (content, _), decoder) => (.ok (), ⟨source, decoder, buffer ++ content, taken⟩)

/-- A pull takes something from the source, or fails. -/
theorem size_contents_pull_lt {reader after : Reader σ} (pulled : reader.pull = (.ok (), after)) :
    (Source.contents after.source).size < (Source.contents reader.source).size := by
  obtain ⟨source, decoder, buffer, taken⟩ := reader
  rw [pull] at pulled
  split at pulled
  · simp at pulled
  · rename_i bytes rest handed
    split at pulled
    · simp at pulled
    · rename_i some
      have fewer := Source.size_contents_lt handed (by simpa using some)
      split at pulled
      · simp at pulled
      · simp only [Prod.mk.injEq] at pulled
        obtain ⟨-, rfl⟩ := pulled
        exact fewer

/-- Empties the buffer. -/
def clear (reader : Reader σ) : Reader σ := { reader with buffer := #[], taken := 0 }

/-- Makes decoded bytes wait, unless some do already, or the frame has ended. -/
def refill (reader : Reader σ) : Except StreamError Unit × Reader σ :=
  if reader.taken = reader.buffer.size ∧ reader.decoder.isComplete = false then
    match _pulled : reader.clear.pull with
    | (.error error, after) => (.error error, after)
    | (.ok (), after) => refill after
  else (.ok (), reader)
termination_by (Source.contents reader.source).size
decreasing_by
  have fewer := size_contents_pull_lt _pulled
  exact fewer

/-- Gives out the decoded bytes that wait, without consuming them. There are none only at the end
of the frame. -/
def fill (reader : Reader σ) : Except StreamError Bytes × Reader σ :=
  match reader.refill with
  | (.error error, after) => (.error error, after)
  | (.ok (), after) => (.ok after.waiting, after)

/-- Consumes waiting bytes, as many as there are if `count` is more. -/
def consume (reader : Reader σ) (count : Nat) : Reader σ :=
  { reader with taken := min (reader.taken + count) reader.buffer.size }

/-- Reads up to `count` bytes. There are none only at the end of the frame, unless none are asked
for. -/
def read (reader : Reader σ) (count : Nat) : Except StreamError Bytes × Reader σ :=
  match reader.refill with
  | (.error error, after) => (.error error, after)
  | (.ok (), after) =>
    let bytes := after.buffer.extract after.taken (after.taken + count)
    (.ok bytes, after.consume bytes.size)

/-- Gives out the header, reading up to its end if it is not known yet. -/
def header (reader : Reader σ) : Except StreamError Header × Reader σ :=
  match reader.decoder.header with
  | some header => (.ok header, reader)
  | none =>
    match _pulled : reader.pull with
    | (.error error, after) => (.error error, after)
    | (.ok (), after) => header after
termination_by (Source.contents reader.source).size
decreasing_by exact size_contents_pull_lt _pulled

/-- Reads up to and including the first byte that satisfies a condition, or to the end of the frame.
The first component is what was read, together with the failure if there was one. -/
def readUntil (reader : Reader σ) (stop : UInt8 → Bool) (gathered : Bytes) :
    (Bytes × Option StreamError) × Reader σ :=
  let waiting := reader.waiting
  match waiting.findIdx? stop with
  | some index => ((gathered ++ waiting.extract 0 (index + 1), none), reader.consume (index + 1))
  | none =>
    let gathered := gathered ++ waiting
    if reader.decoder.isComplete then ((gathered, none), reader.consume waiting.size)
    else
      match _pulled : reader.clear.pull with
      | (.error error, after) => ((gathered, some error), after)
      | (.ok (), after) => readUntil after stop gathered
termination_by (Source.contents reader.source).size
decreasing_by
  have fewer := size_contents_pull_lt _pulled
  exact fewer

/-- Reads to the end of the frame. -/
def readToEnd (reader : Reader σ) : (Bytes × Option StreamError) × Reader σ :=
  reader.readUntil (fun _ => false) #[]

end Reader

end Lz4.Frame
