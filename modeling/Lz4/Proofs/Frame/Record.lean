import Lz4.Proofs.Frame.Drive
import Lz4.Proofs.Frame.Header
import Lz4.Proofs.Stream.History

/-!
# Records are read back

A block of a frame is written as a record that holds its compressed form, or the block itself if
that is shorter (`Lz4.Frame.compressRecord_eq`). A decoder that stands between two records takes in
the record and gives out the block (`Lz4.Frame.Run.drive_record`).
-/

namespace Lz4.Frame

open Bytes Checksum

/-- What a record has to hold for a block: the block as it is, or something that decodes to it. -/
def Represents (history : Bytes) (limit : Nat) (block : Bytes) (stored : Bool) (payload : Bytes) :
    Prop :=
  if stored then payload = block else Block.decode payload history limit = .ok block

theorem natAt_ofNat_four {value : Nat} (small : value < UInt32.size) :
    (Bytes.ofNat 4 value).natAt 0 4 = value :=
  (holds_self (Bytes.ofNat 4 value)).natAt_eq (by decide) small

/-- Nothing that fits in a block is so long that its length would tell that it is stored. -/
theorem lt_storedBit_of_le {header : Header} {size : Nat} (fits : size ≤ header.blockSize.bytes) :
    size < storedBit := by
  have largest : header.blockSize.bytes < storedBit := by cases header.blockSize <;> decide
  exact Nat.lt_of_le_of_lt fits largest

/-- The length in front of a payload tells its size, and whether it is stored. -/
theorem length_field {payload : Nat} (small : payload < storedBit) (stored : Bool) :
    payload + (if stored then storedBit else 0) < UInt32.size ∧
      (payload + if stored then storedBit else 0) % storedBit = payload ∧
      decide (storedBit ≤ payload + if stored then storedBit else 0) = stored := by
  simp only [storedBit, UInt32.size, Nat.reduceShiftLeft] at small ⊢
  cases stored with
  | false =>
    simp only [Bool.false_eq_true, ↓reduceIte, decide_eq_false_iff_not]
    omega
  | true =>
    simp only [↓reduceIte, decide_eq_true_eq]
    omega

/-- A length that is read is the one that would be written for what it tells. -/
theorem length_of_field {number : Nat} (small : number < UInt32.size) :
    (number % storedBit + if decide (storedBit ≤ number) then storedBit else 0) = number := by
  have half : UInt32.size = 2 * storedBit := rfl
  by_cases large : storedBit ≤ number
  · rw [decide_eq_true large, if_pos rfl, Nat.mod_eq_sub_mod large, Nat.mod_eq_of_lt (by omega)]
    exact Nat.sub_add_cancel large
  · rw [decide_eq_false large, if_neg Bool.false_ne_true, Nat.add_zero]
    exact Nat.mod_eq_of_lt (Nat.lt_of_not_le large)

namespace Run

variable {run : Run} {header : Header} {data payload : Bytes} {stored : Bool}

theorem readBlockLength_of_length {start : Nat} (known : run.decoder.header = some header)
    (marked : stored = false → 0 < payload.size) (small : payload.size < storedBit)
    (fits : payload.size ≤ header.blockSize.bytes)
    (pending : run.decoder.pending =
      Bytes.ofNat 4 (payload.size + if stored then storedBit else 0)) :
    run.readBlockLength start =
      { run with decoder := { run.decoder with
          stage := .block stored payload.size
          pending := #[] } } := by
  obtain ⟨fieldSmall, size, flag⟩ := length_field small stored
  have nonzero : ¬ (payload.size + if stored then storedBit else 0) = 0 := by
    cases stored with
    | false => exact Nat.ne_of_gt (marked rfl)
    | true => exact Nat.ne_of_gt (Nat.add_pos_right _ (by decide))
  have limit : ¬ header.blockSize.bytes < payload.size := Nat.not_lt_of_le fits
  unfold readBlockLength
  simp only [pending, natAt_ofNat_four fieldSmall, Decoder.blockLimit, known, Option.elim_some,
    size, flag, if_neg nonzero, if_neg limit]

/-- What stands in a record behind the payload. -/
def checksumField (header : Header) (payload : Bytes) : Bytes :=
  if header.blockChecksums then Bytes.ofNat 4 (checksum payload).toNat else #[]

theorem size_checksumField (header : Header) (payload : Bytes) :
    (checksumField header payload).size = if header.blockChecksums then 4 else 0 := by
  unfold checksumField
  split
  · exact size_ofNat 4 _
  · rfl

/-- Gives out a block. It stands in the buffer, unless it was stored. -/
def addBlock (run : Run) (stored : Bool) (block : Bytes) : Run :=
  if stored then run.addContent block else (run.withBuffer block).addContent block

theorem exists_addBlock_eq (run : Run) (stored : Bool) (block : Bytes) :
    ∃ buffer, run.addBlock stored block = (run.addContent block).withBuffer buffer := by
  unfold addBlock
  split
  · exact ⟨run.decoder.buffer, rfl⟩
  · exact ⟨block, rfl⟩

@[simp] theorem consumed_addBlock (run : Run) (stored : Bool) (block : Bytes) :
    (run.addBlock stored block).consumed = run.consumed := by
  cases stored <;> rfl

@[simp] theorem options_addBlock (run : Run) (stored : Bool) (block : Bytes) :
    (run.addBlock stored block).decoder.options = run.decoder.options := by
  cases stored <;> rfl

theorem readBlock_of_payload {block : Bytes} {start : Nat}
    (known : run.decoder.header = some header)
    (pending : run.decoder.pending = payload ++ checksumField header payload)
    (represents : Represents
      (if header.independentBlocks then run.decoder.options.dictionary else run.decoder.window)
      header.blockSize.bytes block stored payload) :
    run.readBlock stored payload.size start = run.addBlock stored block := by
  have front : run.decoder.pending.extract 0 payload.size = payload := by
    rw [pending, Array.extract_append_left, Array.extract_size]
  have verified : (run.decoder.announces (·.blockChecksums) &&
      run.decoder.pending.natAt payload.size 4 != (checksum payload).toNat) = false := by
    rw [Decoder.announces, known, Option.any_some]
    cases announced : header.blockChecksums with
    | false => rfl
    | true =>
      have held := holds_append_right payload (checksumField header payload)
      rw [checksumField, if_pos announced] at held
      have value := held.natAt_eq (by decide) (checksum payload).toNat_lt
      rw [pending, checksumField, if_pos announced, value]
      simp
  unfold readBlock
  dsimp only
  rw [front, if_neg (by rw [verified]; exact Bool.false_ne_true)]
  unfold Represents at represents
  cases stored with
  | true =>
    rw [if_pos rfl] at represents ⊢
    rw [represents]
    rfl
  | false =>
    have limit : run.decoder.blockLimit = header.blockSize.bytes := by
      rw [Decoder.blockLimit, known, Option.elim_some]
    rw [if_neg Bool.false_ne_true, ← limit] at represents
    rw [if_neg Bool.false_ne_true, Decoder.announces, known, Option.any_some,
      expandBlock_of_ok represents]
    rfl

theorem record_eq (header : Header) (stored : Bool) (payload : Bytes) :
    record header stored payload =
      Bytes.ofNat 4 (payload.size + if stored then storedBit else 0) ++
        (payload ++ checksumField header payload) := by
  rw [record, Array.append_assoc]
  rfl

theorem natAt_record (header : Header) (small : payload.size < storedBit) (stored : Bool) :
    (record header stored payload).natAt 0 4 =
      payload.size + if stored then storedBit else 0 := by
  obtain ⟨fieldSmall, -, -⟩ := length_field small stored
  rw [record_eq]
  exact natAt_ofNat_append (by decide) fieldSmall _

/-- A record is taken in, and its block given out. -/
theorem drive_record {block : Bytes} (sound : run.fault = none)
    (between : run.decoder.stage = .blockLength) (empty : run.decoder.pending = #[])
    (known : run.decoder.header = some header) (marked : stored = false → 0 < payload.size)
    (small : payload.size < storedBit) (fits : payload.size ≤ header.blockSize.bytes)
    (represents : Represents
      (if header.independentBlocks then run.decoder.options.dictionary else run.decoder.window)
      header.blockSize.bytes block stored payload)
    (held : data.Holds run.consumed (record header stored payload)) :
    run.drive data =
      ((run.collect (record header stored payload)).addBlock stored block).drive data := by
  obtain ⟨⟨options, stage, header?, pending, position, window, hasher, decoded, buffer⟩, output,
    consumed, fault⟩ := run
  dsimp only at sound between empty known represents held
  subst sound between empty known
  have four : (Bytes.ofNat 4 (payload.size + if stored then storedBit else 0)).size = 4 :=
    size_ofNat 4 _
  rw [record_eq] at held ⊢
  generalize field_eq : Bytes.ofNat 4 (payload.size + if stored then storedBit else 0) = field at *
  obtain ⟨lengthHeld, payloadHeld⟩ := holds_append_iff.mp held
  have afterLength : (collect ⟨⟨options, .blockLength, some header, #[], position, window, hasher,
      decoded, buffer⟩, output, consumed, none⟩ field).advance =
        ⟨⟨options, .block stored payload.size, some header, #[], position + field.size, window,
          hasher, decoded, buffer⟩, output, consumed + field.size, none⟩ :=
    readBlockLength_of_length rfl marked small fits (by simp [collect, field_eq])
  have afterPayload : (collect ⟨⟨options, .block stored payload.size, some header, #[],
      position + field.size, window, hasher, decoded, buffer⟩, output, consumed + field.size, none⟩
        (payload ++ checksumField header payload)).advance =
      addBlock (collect ⟨⟨options, .block stored payload.size, some header, #[],
        position + field.size, window, hasher, decoded, buffer⟩, output, consumed + field.size,
          none⟩ (payload ++ checksumField header payload)) stored block :=
    readBlock_of_payload rfl (by simp [collect]) represents
  have required : (payload ++ checksumField header payload).size =
      if header.blockChecksums then payload.size + 4 else payload.size := by
    rw [Array.size_append, size_checksumField]
    split <;> rfl
  have joined : addBlock (collect ⟨⟨options, .block stored payload.size, some header, #[],
      position + field.size, window, hasher, decoded, buffer⟩, output, consumed + field.size, none⟩
        (payload ++ checksumField header payload)) stored block =
      addBlock (collect ⟨⟨options, .blockLength, some header, #[], position, window, hasher,
        decoded, buffer⟩, output, consumed, none⟩
          (field ++ (payload ++ checksumField header payload))) stored block := by
    cases stored <;>
      simp only [addBlock, addContent, collect, Decoder.announces, Array.size_append, Nat.add_assoc]
  rw [drive_of_holds rfl rfl (by simp) rfl (by rw [four]; rfl) lengthHeld, afterLength,
    drive_of_holds rfl rfl (by simp) rfl (by rw [required]; rfl)
      payloadHeld, afterPayload, joined]

end Run

/-- The stream as it is when a block is compressed: independent blocks start it over. -/
def blockStart (header : Header) (stream : Stream.Compressor) : Stream.Compressor :=
  if header.independentBlocks then stream.reset else stream

theorem settings_blockStart (header : Header) (stream : Stream.Compressor) :
    (blockStart header stream).settings = stream.settings := by
  unfold blockStart
  split <;> rfl

theorem dictionary_blockStart (header : Header) (stream : Stream.Compressor) :
    (blockStart header stream).dictionary = stream.dictionary := by
  unfold blockStart
  split <;> rfl

theorem history_blockStart (header : Header) (stream : Stream.Compressor) :
    (blockStart header stream).history =
      if header.independentBlocks then stream.dictionary else stream.history := by
  unfold blockStart
  split <;> rfl

theorem compressRecord_of_ok {header : Header} {block payload : Bytes}
    {stream after : Stream.Compressor}
    (compressed :
      (blockStart header stream).compressBlock block block.size = (.ok payload, after)) :
    compressRecord header block stream = (record header false payload, after) := by
  rw [blockStart] at compressed
  unfold compressRecord
  dsimp only
  rw [compressed]

theorem compressRecord_of_error {header : Header} {block : Bytes} {stream after : Stream.Compressor}
    {error : Error}
    (refused : (blockStart header stream).compressBlock block block.size = (.error error, after)) :
    compressRecord header block stream = (record header true block, after) := by
  rw [blockStart] at refused
  unfold compressRecord
  dsimp only
  rw [refused]

theorem compressRecord_snd (header : Header) (block : Bytes) (stream : Stream.Compressor) :
    (compressRecord header block stream).2 =
      ((blockStart header stream).compressBlock block block.size).2 := by
  rcases compressed : (blockStart header stream).compressBlock block block.size with
    ⟨_ | _, after⟩
  · rw [compressRecord_of_error compressed]
  · rw [compressRecord_of_ok compressed]

theorem settings_compressRecord (header : Header) (block : Bytes) (stream : Stream.Compressor) :
    (compressRecord header block stream).2.settings = stream.settings := by
  rw [compressRecord_snd, Stream.Compressor.settings_compressBlock, settings_blockStart]

variable {header : Header} {block : Bytes} {stream : Stream.Compressor}

/-- A stream for the blocks of a frame takes whatever fits in a block. -/
theorem chunkProblem_of_fits (limit : stream.settings.chunkLimit = header.blockSize.bytes)
    (fits : block.size ≤ header.blockSize.bytes) :
    stream.settings.chunkProblem? block.size = none := by
  rw [Stream.Settings.chunkProblem?, limit, if_neg (Nat.not_lt_of_le fits)]

/-- A block is written compressed unless that takes more bytes than the block. -/
theorem compressRecord_fst (short : stream.settings.chunkProblem? block.size = none) :
    (compressRecord header block stream).1 =
      if ((blockStart header stream).block block).size ≤ block.size then
        record header false ((blockStart header stream).block block)
      else record header true block := by
  rw [← settings_blockStart header stream] at short
  have result := Stream.Compressor.compressBlock_fst short block.size
  rcases compressed : (blockStart header stream).compressBlock block block.size with
    ⟨outcome, after⟩
  rw [compressed] at result
  dsimp only at result
  by_cases room : ((blockStart header stream).block block).size ≤ block.size
  · rw [if_pos room] at result ⊢
    subst result
    rw [compressRecord_of_ok compressed]
  · rw [if_neg room] at result ⊢
    subst result
    rw [compressRecord_of_error compressed]

/-- The record of a block holds something that represents it and takes no more bytes than it does,
and the block is remembered either way. -/
theorem compressRecord_eq (header : Header) (nonempty : 0 < block.size)
    (short : stream.settings.chunkProblem? block.size = none) :
    ∃ (stored : Bool) (payload : Bytes),
      (compressRecord header block stream).1 = record header stored payload ∧
        0 < payload.size ∧ payload.size ≤ block.size ∧
        (∀ limit, block.size ≤ limit →
          Represents (if header.independentBlocks then stream.dictionary else stream.history) limit
            block stored payload) ∧
        (blockStart header stream).Remembers (compressRecord header block stream).2 block := by
  obtain ⟨script, describes, same⟩ := (blockStart header stream).exists_describes_block block
  have remembers := Stream.Compressor.remembers_compressBlock
    ((settings_blockStart header stream).symm ▸ short) block.size
  rw [compressRecord_fst short, compressRecord_snd, same, ← history_blockStart]
  by_cases room : script.block.size ≤ block.size
  · refine ⟨false, script.block, if_pos room, script.size_block_pos, room, ?_, remembers⟩
    intro limit enough
    have decoded := describes.decode #[] enough
    rw [Array.empty_append] at decoded
    exact decoded
  · exact ⟨true, block, if_neg room, nonempty, Nat.le_refl _, fun _ _ => rfl, remembers⟩

end Lz4.Frame
