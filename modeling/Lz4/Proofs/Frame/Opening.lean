import Lz4.Proofs.Frame.Language
import Lz4.Proofs.Frame.Reset

/-!
# Headers that are read first

The header can be read by itself before a decoder is given its frame. This parses the data as they
are, while a decoder collects its header in turns and learns only on the way how long it is. Both come
to the same: a decoder that was shown the header stands where it would stand if it had taken the
header in (`Lz4.Frame.Decoder.drive_of_readHeader`), and what is wrong with a header that is all there
is also found in turns (`Lz4.Frame.Decoder.fault_of_parse`). So a caller who wants to see the header
first misses nothing (`Lz4.Frame.Decoder.readHeader_apart`).
-/

namespace Lz4.Frame.Decoder

open Bytes

variable {decoder after : Decoder} {data rest : Bytes} {header : Header} {size : Nat} {error : Error}

theorem readHeader_reset_of_ok (decoder : Decoder)
    (parsed : Header.parse data = .ok (header, size)) :
    decoder.reset.readHeader data =
      (.ok (header, size), { decoder.reset with position := size }.start header) := by
  simp only [readHeader, reset, parsed, ne_eq, List.size_toArray, List.length_nil,
    not_true_eq_false, ↓reduceIte]

theorem readHeader_reset_of_error (decoder : Decoder)
    (refused : Header.parse data = .error error) :
    decoder.reset.readHeader data = (.error error, decoder.reset) := by
  simp only [readHeader, reset, refused, ne_eq, List.size_toArray, List.length_nil,
    not_true_eq_false, ↓reduceIte]

/-- The header is that at the start of the data, and the decoder begins its frame. -/
theorem eq_of_readHeader (read : decoder.reset.readHeader data = (.ok (header, size), after)) :
    Header.parse data = .ok (header, size) ∧
      after = { decoder.reset with position := size }.start header := by
  cases parsed : Header.parse data with
  | error error => cases (decoder.readHeader_reset_of_error parsed).symm.trans read
  | ok found =>
    cases (decoder.readHeader_reset_of_ok parsed).symm.trans read
    exact ⟨rfl, rfl⟩

/-- Without a header the decoder stays as it is. -/
theorem eq_of_readHeader_error (refused : decoder.reset.readHeader data = (.error error, after)) :
    Header.parse data = .error error ∧ after = decoder.reset := by
  cases parsed : Header.parse data with
  | error other =>
    cases (decoder.readHeader_reset_of_error parsed).symm.trans refused
    exact ⟨rfl, rfl⟩
  | ok found => cases (decoder.readHeader_reset_of_ok parsed).symm.trans refused

theorem start_withPending (decoder : Decoder) (pending : Bytes) (header : Header) :
    { decoder with pending := pending }.start header = decoder.start header := by
  unfold start
  split <;> rfl

/-- A decoder that acts on a header it has taken in begins the frame as if it had only been shown
it. -/
theorem readHeader_collect (decoder : Decoder)
    (parsed : Header.parse data = .ok (header, data.size)) :
    (decoder.reset.fresh.collect data).readHeader =
      ({ decoder.reset with position := data.size }.start header).fresh.behind #[] data.size := by
  have placed : (decoder.reset.fresh.collect data).decoder =
      { { decoder.reset with position := data.size } with pending := #[] ++ data } := by
    simp only [Run.collect, reset, Nat.zero_add]
  have joined : (decoder.reset.fresh.collect data).decoder.pending = data := Array.empty_append
  rw [Run.readHeader, joined, parsed]
  dsimp only
  rw [placed, start_withPending, Run.consumed_collect, Nat.zero_add]
  rfl

/-- To go through data is to be shown their header, and to go through what follows it. -/
theorem drive_of_readHeader (read : decoder.reset.readHeader data = (.ok (header, size), after)) :
    decoder.reset.fresh.drive data =
      (after.fresh.drive (data.dropFirst size)).behind #[] size := by
  obtain ⟨parsed, rfl⟩ := eq_of_readHeader read
  have parsedPart := Header.parse_extract parsed
  have within := (Header.size_of_parse parsed).2
  have taken : (data.extract 0 size).size = size := Array.size_extract_of_le within
  have parts : data.extract 0 size ++ data.dropFirst size = data := by
    rw [dropFirst, extract_append_extract (Nat.zero_le size) within, Array.extract_size]
  generalize data.extract 0 size = bytes at *
  generalize data.dropFirst size = rest at *
  subst taken parts
  rw [drive_of_parse rfl rfl parsedPart, readHeader_collect decoder parsedPart]
  exact Run.drive_behind _ _ _ _

/-- What is wrong with a header that is all there is found in any case. -/
theorem fault_of_parse (stage : decoder.stage = .header) (empty : decoder.pending = #[])
    (refused : Header.parse data = .error error)
    (whole : ∀ offset, error ≠ .corruptInput offset .truncated) :
    (decoder.fresh.drive data).fault = some error := by
  have opening := @Run.drive_header decoder data stage empty
  cases required : Header.requiredSize data with
  | error other =>
    rw [Header.parse, required] at refused
    cases refused
    rwa [required] at opening
  | ok size =>
    rw [required] at opening
    dsimp only at opening
    by_cases cut : data.size < size
    · rw [Header.parse, required] at refused
      dsimp only at refused
      rw [if_pos cut] at refused
      cases refused
      exact absurd rfl (whole data.size)
    · have part := Header.parse_extract_of_required required (Nat.le_of_not_lt cut)
      have acts : (decoder.fresh.collect (data.extract 0 size)).readHeader.fault = some error := by
        rw [Run.readHeader, Run.pending_collect, empty, Array.empty_append, part, refused]
      rw [if_neg cut] at opening
      rw [opening, Run.drive_of_fault acts, acts]

/-- What decoding behind other data gives, as it is when it is counted from the front of them. -/
theorem decode_of_drive_behind {later : Decoder}
    (driven : decoder.fresh.drive data = (later.fresh.drive rest).behind #[] size) :
    decoder.decode data =
      ((later.decode rest).1.map (fun taken => (taken.1, size + taken.2)),
        (later.decode rest).2) := by
  cases stopped : (later.fresh.drive rest).fault with
  | some error =>
    rw [decode_of_fault stopped, decode_of_fault (by rw [driven]; exact stopped), driven]
    rfl
  | none =>
    rw [decode_of_sound stopped, decode_of_sound (by rw [driven]; exact stopped), driven]
    dsimp only
    rw [Array.empty_append]
    rfl

/-- It changes nothing to read the header first. If it is read, then to decode what follows it gives
what another decoder with the same options gives for all of the data: the same content, or the same
error at the same offset of the frame, and as many bytes are taken in but for those of the header.
The two decoders cannot be told apart behind it. If the header is not read, the decoder stays as it
is, and if that is not because the header is cut off, to decode all of the data fails in the same
way. -/
theorem readHeader_apart {first second : Decoder} (alike : first.options = second.options)
    (data : Bytes) :
    (∀ header size after, first.reset.readHeader data = (.ok (header, size), after) →
      let apart := after.decode (data.dropFirst size)
      let whole := second.reset.decode data
      size ≤ data.size ∧ whole.1 = apart.1.map (fun taken => (taken.1, size + taken.2)) ∧
        whole.2.isComplete = apart.2.isComplete ∧ whole.2.header = apart.2.header ∧
        whole.2.inputHint = apart.2.inputHint ∧
        ∀ later, (whole.2.calls later).1 = (apart.2.calls later).1) ∧
    ∀ error after, first.reset.readHeader data = (.error error, after) →
      after = first.reset ∧ ((∀ offset, error ≠ .corruptInput offset .truncated) →
        (second.reset.decode data).1 = .error error) := by
  have same : second.reset = first.reset.withBuffer second.buffer := by
    simp only [reset, alike]
  obtain ⟨left, decoded⟩ := first.reset.decode_withBuffer second.buffer data
  rw [← same] at decoded
  rw [decoded]
  refine ⟨?_, ?_⟩
  · intro header size after read
    dsimp only
    rw [decode_of_drive_behind (drive_of_readHeader read)]
    have within := (Header.size_of_parse (eq_of_readHeader read).1).2
    exact ⟨within, rfl, rfl, rfl, rfl, fun later => calls_withBuffer _ left later⟩
  · intro error after refused
    obtain ⟨parsed, rfl⟩ := eq_of_readHeader_error refused
    refine ⟨rfl, fun whole => ?_⟩
    rw [decode_of_fault (fault_of_parse rfl rfl parsed whole)]

/-- A block that is a match with the dictionary, behind a header that is read first by a decoder with
this dictionary, and taken in by another one that has bytes in its buffer. In front of other data the
header has a version that is not known. -/
theorem readHeader_apart_dictionary :
    let first : Decoder := ofOptions { dictionary := #[1, 2, 3, 4] }
    let second : Decoder := first.withBuffer #[7]
    let header : Header := { blockSize := .max64KB, independentBlocks := true }
    let begun : Decoder := { first with stage := .blockLength, header := some header, position := 7 }
    let data : Bytes :=
      #[4, 34, 77, 24, 0x60, 0x40, 0x82, 4, 0, 0, 0, 0, 4, 0, 0, 0, 0, 0, 0]
    let other : Bytes := #[4, 34, 77, 24, 0x20, 0x40, 0x82, 9, 9]
    first.options = second.options ∧
      first.reset.readHeader data = (.ok (header, 7), begun) ∧
      (begun.decode (data.dropFirst 7)).1 = .ok (#[1, 2, 3, 4], 12) ∧
      (second.reset.decode data).1 = .ok (#[1, 2, 3, 4], 19) ∧
      first.reset.readHeader other =
        (.error (.corruptInput 4 (.unsupportedVersion 0)), first.reset) ∧
      (second.reset.decode other).1 = .error (.corruptInput 4 (.unsupportedVersion 0)) := by
  intro first second header begun data other
  have read : first.reset.readHeader data = (.ok (header, 7), begun) := by cbv
  have onward : (begun.decode (data.dropFirst 7)).1 = .ok (#[1, 2, 3, 4], 12) := by cbv
  have refused : first.reset.readHeader other =
      (.error (.corruptInput 4 (.unsupportedVersion 0)), first.reset) := by
    cbv
  have alike : first.options = second.options := rfl
  have whole := ((readHeader_apart alike data).1 header 7 begun read).2.1
  rw [onward] at whole
  have failed := ((readHeader_apart alike other).2 _ _ refused).2 (by
    intro offset same
    cases same)
  exact ⟨alike, read, onward, whole, refused, failed⟩

end Lz4.Frame.Decoder
