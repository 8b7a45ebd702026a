import Lz4.Proofs.Frame.Cuts
import Lz4.Proofs.Frame.Following

/-!
# The first and the last bytes of a frame

A decoder that is given a header stands before the first record, where it follows the stream with
which an encoder starts (`Lz4.Frame.Run.between_readHeader`). The end of the frame completes a
decoder that found as much content as was announced (`Lz4.Frame.Run.drive_ending`).
-/

namespace Lz4.Frame

open Bytes Checksum

/-- What stands behind the records of a frame: the empty record, and the checksum of the content if
there is one. -/
def ending (header : Header) (content : Bytes) : Bytes :=
  endMark ++ if header.contentChecksum then Bytes.ofNat 4 (checksum content).toNat else #[]

namespace Run

variable {decoder : Decoder}

/-- A decoder that has taken in the first bytes of its frame, and no more of them than the header has
for all that they tell: the header is refused, or it is not all there, or it is acted on. -/
theorem drive_collect_header {data : Bytes} {count : Nat} (stage : decoder.stage = .header)
    (empty : decoder.pending = #[]) (within : count ≤ data.size)
    (part : ∀ size, Header.requiredSize (data.extract 0 count) = .ok size → count ≤ size) :
    match Header.requiredSize data with
    | .error error =>
      ((decoder.fresh.collect (data.extract 0 count)).drive data).fault = some error
    | .ok size =>
      (decoder.fresh.collect (data.extract 0 count)).drive data =
        if data.size < size then decoder.fresh.collect data
        else (decoder.fresh.collect (data.extract 0 size)).readHeader.drive data := by
  have taken : (data.extract 0 count).size = count := Array.size_extract_of_le within
  have parts : data.extract 0 count ++ data.extract count data.size = data := by
    rw [extract_append_extract (Nat.zero_le count) within, Array.extract_size]
  have consumed : (decoder.fresh.collect (data.extract 0 count)).consumed = count := by
    rw [consumed_collect, taken, Nat.zero_add]
  have pending : (decoder.fresh.collect (data.extract 0 count)).decoder.pending =
      data.extract 0 count := by
    rw [pending_collect, empty, Array.empty_append]
  have needed : (decoder.fresh.collect (data.extract 0 count)).decoder.required =
      Header.requiredSize (data.extract 0 count) := by
    rw [required_collect, stage, empty, Array.empty_append]
  have collecting : (decoder.fresh.collect (data.extract 0 count)).decoder.collects = true := by
    rw [collects_collect, Decoder.collects, stage]
  cases required : Header.requiredSize (data.extract 0 count) with
  | error error =>
    have still := Header.error_requiredSize_append required (data.extract count data.size)
    rw [parts] at still
    rw [still, drive_of_error rfl collecting (needed.trans required)]
  | ok size =>
    have more := part size required
    rw [required] at needed
    by_cases whole : count = size
    · subst whole
      have acts : (decoder.fresh.collect (data.extract 0 count)).advance =
          (decoder.fresh.collect (data.extract 0 count)).readHeader := by
        have same : (decoder.fresh.collect (data.extract 0 count)).decoder.stage = .header := stage
        rw [advance, same]
      have final := Header.requiredSize_append_of_whole required taken.symm
        (data.extract count data.size)
      rw [parts] at final
      rw [final, drive_of_collected rfl collecting needed (by rw [pending, taken]), acts]
      dsimp only
      rw [if_neg (Nat.not_lt_of_le within)]
    · by_cases all : count = data.size
      · have starved := @drive_of_starved (decoder.fresh.collect (data.extract 0 count)) data size
          rfl collecting needed (by rw [pending, taken]; omega) (by rw [consumed]; omega)
        have everything : data.extract 0 count = data := by rw [all, Array.extract_size]
        rw [starved]
        rw [everything] at required ⊢
        rw [required]
        dsimp only
        rw [if_pos (by omega)]
      · have onward := @drive_of_lacking (decoder.fresh.collect (data.extract 0 count)) data size
          rfl collecting needed (by rw [pending, taken]; omega) (by rw [consumed]; omega)
        have joined : data.extract 0 count ++ data.extract count (min size data.size) =
            data.extract 0 (min size data.size) :=
          extract_append_extract (Nat.zero_le count) (by omega)
        rw [pending, taken, consumed, collect_collect, Nat.add_sub_cancel' more,
          ← extract_min data count size, joined] at onward
        rw [onward]
        refine drive_collect_header stage empty (Nat.min_le_right _ _) ?_
        intro larger after
        rw [← joined] at after
        exact Nat.le_trans (Nat.min_le_left _ _) (Header.le_requiredSize_append required after)
termination_by data.size - count

/-- What a decoder does with the first bytes of its frame depends on what they tell about the size
of the header. -/
theorem drive_header {data : Bytes} (stage : decoder.stage = .header)
    (empty : decoder.pending = #[]) :
    match Header.requiredSize data with
    | .error error => (decoder.fresh.drive data).fault = some error
    | .ok size =>
      decoder.fresh.drive data =
        if data.size < size then decoder.fresh.collect data
        else (decoder.fresh.collect (data.extract 0 size)).readHeader.drive data := by
  have nothing : data.extract 0 0 = #[] := Array.extract_eq_empty_of_le (by omega)
  have start := @drive_collect_header decoder data 0 stage empty (Nat.zero_le _)
    (fun size _ => Nat.zero_le size)
  rwa [nothing, collect_empty] at start

/-- A header is taken in and acted on, though its size becomes known only on the way. -/
theorem same_drive_header (header : Header) (rest : Bytes) (stage : decoder.stage = .header)
    (empty : decoder.pending = #[]) :
    (decoder.fresh.drive (header.encode ++ rest)).Same
      ((decoder.fresh.collect header.encode).readHeader.drive (header.encode ++ rest)) := by
  have acts := @drive_header decoder (header.encode ++ rest) stage empty
  rw [Header.requiredSize_of_holds (Bytes.holds_append_left header.encode rest)] at acts
  dsimp only at acts
  rw [if_neg (by rw [Array.size_append]; omega), Array.extract_append_left, Array.extract_size]
    at acts
  rw [acts]
  exact Same.refl _

theorem start_of_data {decoder : Decoder} {header : Header} (kind : header.kind = .data) :
    decoder.start header =
      { decoder with
        stage := .blockLength
        header := some header
        pending := #[]
        window := if header.independentBlocks then #[] else decoder.options.dictionary
        hasher :=
          if header.contentChecksum && decoder.options.verifyContent then some .new else none
        decoded := 0 } := by
  unfold Decoder.start
  rw [kind]

/-- The stream of a frame starts from the window of the dictionary. -/
theorem stream_start (settings : Settings) :
    (Session.start settings).stream.dictionary = Block.dictionaryWindow settings.dictionary ∧
      (Session.start settings).stream.history = Block.dictionaryWindow settings.dictionary := by
  simp only [Session.start, Stream.Compressor.ofDictionary, and_self]

theorem between_readHeader {settings : Settings} (empty : decoder.pending = #[])
    (dictionary : decoder.options.dictionary = Block.dictionaryWindow settings.dictionary) :
    (decoder.fresh.collect settings.header.encode).readHeader.Between settings.header
      (Session.start settings).stream #[] settings.header.encode.size := by
  have parsed : Header.parse (decoder.fresh.collect settings.header.encode).decoder.pending =
      .ok (settings.header.readBack, settings.header.encode.size) := by
    rw [pending_collect, empty, Array.empty_append]
    exact settings.header.parse_encode rfl
  have started := @start_of_data (decoder.fresh.collect settings.header.encode).decoder
    settings.header.readBack rfl
  obtain ⟨streamDictionary, streamHistory⟩ := stream_start settings
  rw [readHeader, parsed]
  dsimp only
  rw [started]
  refine ⟨rfl, rfl, rfl, rfl, ?_, rfl, rfl, Nat.zero_add _, ?_, ?_⟩
  · simp only [contentHasher, Hasher.update_empty]
    rfl
  · rw [streamDictionary, ← dictionary]
    rfl
  · intro linked
    have shared : settings.header.readBack.independentBlocks = false := linked
    rw [streamHistory, ← dictionary]
    simp only [shared, Bool.false_eq_true, ↓reduceIte]
    rfl

theorem finish_of_size {run : Run} (announced : ∀ size,
    run.decoder.header.bind Header.knownContentSize = some size →
      size.toNat = run.decoder.decoded) :
    run.finish = { run with decoder := { run.decoder with stage := .complete } } := by
  unfold finish
  dsimp only
  split
  · rename_i size known
    rw [if_pos (announced size known)]
  · rfl

theorem advance_endMark {run : Run} {header : Header} (stage : run.decoder.stage = .blockLength)
    (known : run.decoder.header = some header) (pending : run.decoder.pending = endMark)
    (announced : ∀ size, header.knownContentSize = some size → size.toNat = run.decoder.decoded) :
    run.advance =
      { run with decoder := { run.decoder with
          pending := #[]
          stage := if header.contentChecksum then .contentChecksum else .complete } } := by
  have zero : run.decoder.pending.natAt 0 4 = 0 := by
    rw [pending]
    rfl
  unfold advance
  rw [stage]
  unfold readBlockLength
  dsimp only
  rw [if_pos zero]
  simp only [Decoder.announces, known, Option.any_some]
  cases checked : header.contentChecksum with
  | true => simp only [↓reduceIte]
  | false =>
    simp only [Bool.false_eq_true, ↓reduceIte]
    exact finish_of_size (by simpa [known] using announced)

theorem advance_contentChecksum {run : Run} {header : Header} {content : Bytes}
    (stage : run.decoder.stage = .contentChecksum) (known : run.decoder.header = some header)
    (pending : run.decoder.pending = Bytes.ofNat 4 (checksum content).toNat)
    (hasher : run.decoder.hasher = contentHasher header run.decoder.options content)
    (announced : ∀ size, header.knownContentSize = some size → size.toNat = run.decoder.decoded) :
    run.advance =
      { run with decoder := { run.decoder with
          pending := #[]
          hasher := none
          stage := .complete } } := by
  have expected : run.decoder.pending.natAt 0 4 = (checksum content).toNat := by
    rw [pending]
    exact natAt_ofNat_four (checksum content).toNat_lt
  unfold advance
  rw [stage]
  unfold readContentChecksum
  dsimp only
  rw [expected, hasher, contentHasher]
  split
  · rename_i none
    exact finish_of_size (by simpa [known] using announced)
  · rename_i summed some
    split at some
    · cases some
      have same : (Hasher.new.update content).finish.toNat = (checksum content).toNat := rfl
      rw [if_pos same]
      exact finish_of_size (by simpa [known] using announced)
    · cases some

/-- A run that has come to the end of its frame: it found the content and took in so many bytes. -/
structure Ended (content : Bytes) (consumed : Nat) (run : Run) : Prop where
  sound : run.fault = none
  stage : run.decoder.stage = .complete
  output : run.output = content
  consumed : run.consumed = consumed

theorem drive_contentChecksum {run : Run} {header : Header} {content data : Bytes}
    (sound : run.fault = none) (atChecksum : run.decoder.stage = .contentChecksum)
    (empty : run.decoder.pending = #[]) (known : run.decoder.header = some header)
    (summed : run.decoder.hasher = contentHasher header run.decoder.options content)
    (announced : ∀ size, header.knownContentSize = some size → size.toNat = run.decoder.decoded)
    (held : data.Holds run.consumed (Bytes.ofNat 4 (checksum content).toNat)) :
    ∃ after : Run, run.drive data = after.drive data ∧
      after.Ended run.output (run.consumed + 4) := by
  obtain ⟨⟨options, stage, header?, pending, position, window, hasher, decoded, buffer⟩, output,
    consumed, fault⟩ := run
  dsimp only at sound atChecksum empty known summed announced held
  subst sound atChecksum empty known summed
  generalize sum_eq : Bytes.ofNat 4 (checksum content).toNat = sum at held
  have four : sum.size = 4 := by
    rw [← sum_eq]
    exact size_ofNat 4 _
  have afterSum : (collect ⟨⟨options, .contentChecksum, some header, #[], position, window,
      contentHasher header options content, decoded, buffer⟩, output, consumed, none⟩ sum).advance =
        ⟨⟨options, .complete, some header, #[], position + sum.size, window, none, decoded, buffer⟩,
          output, consumed + sum.size, none⟩ :=
    @advance_contentChecksum _ header content rfl rfl (by simp [collect, sum_eq]) rfl announced
  refine ⟨_, drive_of_holds rfl rfl (by simp) rfl (by rw [four]; rfl) held, ?_⟩
  rw [afterSum]
  exact ⟨rfl, rfl, rfl, congrArg (consumed + ·) four⟩

/-- What stands behind the records takes a run to the end of its frame. -/
theorem Awaits.drive_ending {run : Run} {header : Header} {content data : Bytes}
    (awaits : run.Awaits header content)
    (announced : ∀ size, header.knownContentSize = some size → size.toNat = content.size)
    (held : data.Holds run.consumed (ending header content)) :
    ∃ after : Run, run.drive data = after.drive data ∧
      after.Ended content (run.consumed + (ending header content).size) := by
  obtain ⟨⟨options, stage, header?, pending, position, window, hasher, decoded, buffer⟩, output,
    taken, fault⟩ := run
  obtain ⟨sound, atLength, empty, known, summed, counted, found_eq⟩ := awaits
  dsimp only at sound atLength empty known summed counted found_eq held
  subst sound atLength empty known summed counted found_eq
  rw [ending] at held ⊢
  obtain ⟨markHeld, sumHeld⟩ := holds_append_iff.mp held
  have afterMark : (collect ⟨⟨options, .blockLength, some header, #[], position, window,
      contentHasher header options output, output.size, buffer⟩, output, taken,
        none⟩ endMark).advance =
        ⟨⟨options, if header.contentChecksum then .contentChecksum else .complete,
          some header, #[], position + endMark.size, window,
          contentHasher header options output, output.size, buffer⟩, output,
            taken + endMark.size, none⟩ :=
    @advance_endMark _ header rfl rfl rfl announced
  rw [drive_of_holds rfl rfl (by simp) rfl rfl markHeld, afterMark]
  cases checked : header.contentChecksum with
  | false =>
    rw [if_neg Bool.false_ne_true, if_neg Bool.false_ne_true]
    exact ⟨_, rfl, rfl, rfl, rfl, by rw [Array.append_empty]⟩
  | true =>
    rw [checked, if_pos rfl] at sumHeld
    rw [if_pos rfl, if_pos rfl]
    obtain ⟨after, driven, ended⟩ := @drive_contentChecksum ⟨⟨options, .contentChecksum, some header,
      #[], position + endMark.size, window, contentHasher header options output, output.size,
        buffer⟩, output, taken + endMark.size, none⟩ header output data rfl rfl rfl rfl rfl announced
          sumHeld
    refine ⟨after, driven, ended.sound, ended.stage, ended.output, ?_⟩
    rw [ended.consumed, Array.size_append, size_ofNat, Nat.add_assoc]

/-- The end of a frame completes it. -/
theorem drive_ending {run : Run} {header : Header} {stream : Stream.Compressor}
    {content data : Bytes} {consumed : Nat} (between : run.Between header stream content consumed)
    (announced : ∀ size, header.knownContentSize = some size → size.toNat = content.size)
    (held : data.Holds consumed (ending header content))
    (ends : consumed + (ending header content).size = data.size) :
    ∃ after : Decoder, run.drive data = ⟨after, content, data.size, none⟩ ∧
      after.stage = .complete := by
  rw [← between.consumed] at held ends
  obtain ⟨⟨decoder, output, taken, fault⟩, driven, ended⟩ :=
    between.awaits.drive_ending announced held
  obtain ⟨sound, stage, found, consumed_eq⟩ := ended
  have all := consumed_eq.trans ends
  dsimp only at sound stage found all
  subst sound found all
  exact ⟨decoder, driven.trans (drive_of_ended rfl stage rfl), stage⟩

end Run

end Lz4.Frame
