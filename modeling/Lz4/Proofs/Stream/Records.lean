import Lz4.Proofs.Stream.Rejection

/-!
# Records are split apart

A stream with a length field writes each block as a record: the length of the block in one, two or
four bytes, and then the block. A block that the field does not refuse has a length that the field
holds (`Lz4.Stream.LengthField.lt_of_fits`), so a record ends where its length says. It can be split
off whatever stands behind it (`Lz4.Stream.IsRecord.splitRecord_append`), and is refused as long as
a byte of it is missing (`Lz4.Stream.IsRecord.splitRecord_front`).

What a compressor gives out for a chunk is a record of the block that it makes of the chunk
(`Lz4.Stream.Compressor.isRecord_of_compressChunk`). So whatever it was asked for, the records that
it gave out are split into its blocks again (`Lz4.Stream.splitRecords_calls`).
-/

namespace Lz4.Stream

open Bytes

/-- What is written for a block: its length in the field, which is long enough for it, and the
block. -/
structure IsRecord (field : LengthField) (block record : Bytes) : Prop where
  spelled : record = Bytes.ofNat field.width block.size ++ block
  fits : field.problem? block.size = none

variable {field : LengthField}

/-- A field that refuses no block of some length holds that length. -/
theorem LengthField.lt_of_fits {length : Nat} (present : field ≠ .none)
    (fits : field.problem? length = Option.none) : length < 256 ^ field.width := by
  have limit : ∀ largest, field.maxLength? = some largest → length ≤ largest := by
    intro largest limited
    by_contra exceeds
    rw [problem?, limited] at fits
    dsimp only at fits
    rw [if_pos (Nat.lt_of_not_le exceeds)] at fits
    cases fits
  cases field with
  | none => exact absurd rfl present
  | oneByte => exact Nat.lt_succ_of_le (limit _ rfl)
  | twoBytes => exact Nat.lt_succ_of_le (limit _ rfl)
  | fourBytes => exact Nat.lt_succ_of_le (limit _ rfl)

theorem LengthField.width_pos (present : field ≠ .none) : 0 < field.width := by
  cases field with
  | none => exact absurd rfl present
  | oneByte | twoBytes | fourBytes => decide

theorem LengthField.width_le (field : LengthField) : field.width ≤ 8 := by
  cases field <;> decide

namespace IsRecord

variable {decompressor : Decompressor} {block record : Bytes}

theorem size_eq (isRecord : IsRecord field block record) :
    record.size = field.width + block.size := by
  rw [isRecord.spelled, Array.size_append, size_ofNat]

/-- The length is read from the front of a record, whatever follows. -/
theorem natAt_append (isRecord : IsRecord field block record) (present : field ≠ .none)
    (rest : Bytes) : (record ++ rest).natAt 0 field.width = block.size := by
  have small := LengthField.lt_of_fits present isRecord.fits
  rw [isRecord.spelled, Array.append_assoc]
  exact natAt_ofNat_append field.width_le small (block ++ rest)

/-- A record is split off whatever follows it. -/
theorem splitRecord_append (isRecord : IsRecord field block record) (present : field ≠ .none)
    (agree : decompressor.settings.lengthField = field) (rest : Bytes) :
    decompressor.splitRecord (record ++ rest) = .ok (block, record.size) := by
  have width := LengthField.width_pos present
  have size := isRecord.size_eq
  have total : (record ++ rest).size = record.size + rest.size := Array.size_append
  have content : (record ++ rest).extract field.width (field.width + block.size) = block := by
    have behind := extract_append_of_ge (Bytes.ofNat field.width block.size) (block ++ rest) 0
      block.size
    rw [size_ofNat, Nat.add_zero] at behind
    rw [isRecord.spelled, Array.append_assoc, behind, Array.extract_append_left,
      Array.extract_size]
  unfold Decompressor.splitRecord
  dsimp only
  rw [agree, if_neg (by omega), if_neg (by omega), isRecord.natAt_append present rest,
    if_neg (by omega), content, size]

/-- A record of which a byte is missing is cut short, wherever it is cut. -/
theorem splitRecord_front {front back : Bytes} (isRecord : IsRecord field block record)
    (present : field ≠ .none) (agree : decompressor.settings.lengthField = field)
    (split : record = front ++ back) (missing : 0 < back.size) :
    decompressor.splitRecord front = .error (.corruptInput front.size .truncated) := by
  have width := LengthField.width_pos present
  have size := isRecord.size_eq
  rw [split, Array.size_append] at size
  unfold Decompressor.splitRecord
  dsimp only
  rw [agree, if_neg (by omega)]
  by_cases short : front.size < field.width
  · rw [if_pos short]
  · -- the length is there, so it tells how much is missing
    have announced := isRecord.natAt_append present #[]
    rw [Array.append_empty, split, natAt_append_left (by omega)] at announced
    rw [if_neg short, announced, if_pos (by omega)]

end IsRecord

namespace Decompressor

/-- Splits so many records off the front of the data, one after the other: their blocks, each with
the number of bytes of its record, and what is left. -/
def splitRecords (decompressor : Decompressor) :
    Nat → Bytes → Except Error (List (Bytes × Nat) × Bytes)
  | 0, data => .ok ([], data)
  | count + 1, data =>
    match decompressor.splitRecord data with
    | .error error => .error error
    | .ok (block, used) =>
      match decompressor.splitRecords count (data.dropFirst used) with
      | .error error => .error error
      | .ok (records, rest) => .ok ((block, used) :: records, rest)

/-- Records are split apart into their blocks, and what follows them is left. -/
theorem splitRecords_concat {decompressor : Decompressor} {blocks records : List Bytes}
    (present : field ≠ .none) (agree : decompressor.settings.lengthField = field)
    (areRecords : List.Forall₂ (IsRecord field) blocks records) (rest : Bytes) :
    decompressor.splitRecords records.length (concat records ++ rest) =
      .ok (blocks.zip (records.map Array.size), rest) := by
  induction areRecords with
  | nil =>
    rw [concat_nil, Array.empty_append]
    rfl
  | @cons block record blocks records isRecord others ih =>
    have first := isRecord.splitRecord_append present agree (concat records ++ rest)
    rw [List.length_cons, concat_cons, Array.append_assoc, splitRecords, first]
    dsimp only
    rw [dropFirst_append, ih]
    rfl

end Decompressor

namespace Compressor

variable {compressor after : Compressor} {chunk payload record : Bytes}

/-- What a chunk is compressed to is its block. -/
theorem eq_block_of_compressBlock {capacity : Nat}
    (compressed : compressor.compressBlock chunk capacity = (.ok payload, after)) :
    payload = compressor.block chunk := by
  cases problem : compressor.settings.chunkProblem? chunk.size with
  | some error =>
    rw [compressBlock, problem] at compressed
    cases compressed
  | none =>
    have result := compressBlock_fst problem capacity
    rw [compressed] at result
    dsimp only at result
    split at result
    · exact Except.ok.inj result
    · cases result

/-- What is given out for a chunk is a record of its block. -/
theorem isRecord_of_compressChunk
    (accepted : compressor.compressChunk chunk = (.ok record, after)) :
    IsRecord compressor.settings.lengthField (compressor.block chunk) record := by
  unfold compressChunk at accepted
  dsimp only at accepted
  split at accepted
  · cases accepted
  · rename_i payload later compressed
    split at accepted
    · cases accepted
    · rename_i fits
      cases accepted
      rw [eq_block_of_compressBlock compressed] at fits ⊢
      exact ⟨rfl, fits⟩

/-- The record that was given out, if one was. -/
def Result.record? : Result → Option Bytes
  | compressed (.ok record) => some record
  | _ => none

/-- The blocks that are made of the chunks that are not refused. -/
def blocks (compressor : Compressor) : List Call → List Bytes
  | [] => []
  | .compress chunk :: rest =>
    match compressor.compressChunk chunk with
    | (.ok _, after) => compressor.block chunk :: after.blocks rest
    | (.error _, after) => after.blocks rest
  | call :: rest => (compressor.call call).2.blocks rest

/-- Whatever is asked of a compressor, it gives out records of the blocks that it makes. -/
theorem areRecords_calls (valid : compressor.settings.problem? = none) (calls : List Call) :
    List.Forall₂ (IsRecord compressor.settings.lengthField) (compressor.blocks calls)
      ((compressor.calls calls).1.filterMap Result.record?) := by
  induction calls generalizing compressor with
  | nil => exact .nil
  | cons call rest ih =>
    have kept := settings_call valid call
    have others := ih (kept ▸ valid)
    rw [kept] at others
    rw [calls_cons]
    cases call with
    | compress chunk =>
      rcases accepted : compressor.compressChunk chunk with ⟨error | record, after⟩
      · have called : compressor.call (.compress chunk) = (.compressed (.error error), after) := by
          rw [Compressor.call, accepted]
        rw [called] at others ⊢
        rw [blocks, accepted]
        exact others
      · have called : compressor.call (.compress chunk) = (.compressed (.ok record), after) := by
          rw [Compressor.call, accepted]
        rw [called] at others ⊢
        rw [blocks, accepted]
        exact .cons (isRecord_of_compressChunk accepted) others
    | reset | setDictionary =>
      rw [blocks]
      · exact others
      · intro chunk same
        cases same

end Compressor

/-- However a compressor with a length field was used since it was opened, it gave out records of
the blocks that it made. One behind the other and with anything behind them, they are split apart
into these blocks, and what is behind them is left. A front part of any of the records is cut short,
and that changes nothing. -/
theorem splitRecords_calls {settings : Settings} {opened : Compressor}
    (opens : Compressor.new settings = .ok opened) (present : settings.lengthField ≠ .none)
    (calls : List Compressor.Call) {decompressor : Decompressor}
    (agree : decompressor.settings.lengthField = settings.lengthField) (rest : Bytes) :
    let records := (opened.calls calls).1.filterMap Compressor.Result.record?
    let blocks := opened.blocks calls
    List.Forall₂ (IsRecord settings.lengthField) blocks records ∧
      decompressor.splitRecords records.length (concat records ++ rest) =
        .ok (blocks.zip (records.map Array.size), rest) ∧
      ∀ record ∈ records, ∀ front back, record = front ++ back → 0 < back.size →
        decompressor.call (.splitRecord front) =
          (.split (.error (.corruptInput front.size .truncated)), decompressor) := by
  intro records blocks
  obtain ⟨kept, valid⟩ := Compressor.settings_of_new opens
  have areRecords := Compressor.areRecords_calls (kept ▸ valid) calls
  rw [kept] at areRecords
  refine ⟨areRecords, Decompressor.splitRecords_concat present agree areRecords rest, ?_⟩
  intro record given front back split missing
  obtain ⟨index, inside, rfl⟩ := List.getElem_of_mem given
  have isRecord := areRecords.get (areRecords.length_eq ▸ inside) inside
  rw [Decompressor.call, isRecord.splitRecord_front present agree split missing]

/-- Two records, between which a chunk is refused, with a byte behind them; and the second without
its last byte. -/
theorem splitRecords_calls_two :
    let settings : Settings := { chunkLimit := 8, lengthField := .twoBytes }
    let made : List Compressor.Call :=
      [.compress #[1, 2, 3], .compress (Array.replicate 9 0), .setDictionary #[7],
        .compress #[7, 7]]
    let decompressor : Decompressor := ⟨settings, #[], #[]⟩
    (Compressor.calls (.ofDictionary settings #[]) made).1.filterMap Compressor.Result.record? =
        [#[4, 0, 0x30, 1, 2, 3], #[3, 0, 0x20, 7, 7]] ∧
      decompressor.splitRecords 2 #[4, 0, 0x30, 1, 2, 3, 3, 0, 0x20, 7, 7, 9] =
        .ok ([(#[0x30, 1, 2, 3], 6), (#[0x20, 7, 7], 5)], #[9]) ∧
      decompressor.call (.splitRecord #[3, 0, 0x20, 7]) =
        (.split (.error (.corruptInput 4 .truncated)), decompressor) := by
  intro settings made decompressor
  have records : (Compressor.calls (.ofDictionary settings #[]) made).1.filterMap
      Compressor.Result.record? = [#[4, 0, 0x30, 1, 2, 3], #[3, 0, 0x20, 7, 7]] := by
    decide +kernel
  have blocks : Compressor.blocks (.ofDictionary settings #[]) made =
      [#[0x30, 1, 2, 3], #[0x20, 7, 7]] := by
    decide +kernel
  have present : settings.lengthField ≠ .none := by decide
  obtain ⟨-, apart, fronts⟩ := @splitRecords_calls settings (.ofDictionary settings #[]) rfl present
    made decompressor rfl #[9]
  rw [records, blocks] at apart
  rw [records] at fronts
  have cut := fronts #[3, 0, 0x20, 7, 7] (by decide) #[3, 0, 0x20, 7] #[7] rfl (by decide)
  exact ⟨records, apart, cut⟩

end Lz4.Stream
