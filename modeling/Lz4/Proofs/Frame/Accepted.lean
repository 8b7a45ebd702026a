import Lz4.Proofs.Frame.Edges

/-!
# What a decoder accepts

A run that comes to the end of its frame accepted every record on the way. What each stage accepts
is inverted here, one stage after the other: the end of a frame, a block length, a block and a
content checksum. Between two records the run then took in what stands behind the records, or the
record of a block that is stored or can be decoded
(`Lz4.Frame.Run.Completes.holds_ending_or_record`).
-/

namespace Lz4.Frame

open Bytes Checksum

/-- The content is as long as announced, if that is known. -/
def Announced (header : Header) (content : Bytes) : Prop :=
  ∀ size, header.knownContentSize = some size → size.toNat = content.size

namespace Run

variable {run : Run} {header : Header} {content data : Bytes} {size : Nat}

/-- The data take the run to the end of its frame. -/
structure Completes (data : Bytes) (run : Run) : Prop where
  sound : (run.drive data).fault = none
  stage : (run.drive data).decoder.stage = .complete

theorem Completes.of_eq {next : Run} (completes : run.Completes data)
    (same : run.drive data = next.drive data) : next.Completes data :=
  ⟨same ▸ completes.sound, same ▸ completes.stage⟩

theorem Completes.fault_eq (completes : run.Completes data) : run.fault = none := by
  cases fault : run.fault with
  | none => rfl
  | some error =>
    have sound := completes.sound
    rw [drive_of_fault fault, fault] at sound
    cases sound

/-- A run that is given too few bytes goes on waiting for its record. -/
theorem stage_drive_of_short (sound : run.fault = none) (collecting : run.decoder.collects = true)
    (past : run.decoder.stage ≠ .header) (empty : run.decoder.pending = #[])
    (required : run.decoder.required = .ok size) (within : run.consumed ≤ data.size)
    (short : data.size < run.consumed + size) :
    (run.drive data).decoder.stage = run.decoder.stage := by
  have nothing : run.decoder.pending.size = 0 := by
    rw [empty]
    rfl
  by_cases more : run.consumed < data.size
  · generalize piece_eq : data.extract run.consumed
      (run.consumed + (size - run.decoder.pending.size)) = piece
    have part : piece.size = data.size - run.consumed := by
      rw [← piece_eq, Array.size_extract]
      omega
    have same : (run.collect piece).decoder.required = .ok size := by
      rw [required_collect]
      split
      · rename_i stage
        exact absurd stage past
      · exact required
    have starved := @drive_of_starved (run.collect piece) data size
      ((fault_collect run piece).trans sound) ((collects_collect run piece).trans collecting) same
      (by rw [pending_collect, Array.size_append]; omega) (by rw [consumed_collect]; omega)
    rw [drive_of_lacking sound collecting required (by omega) more, piece_eq, starved]
    rfl
  · rw [drive_of_starved sound collecting required (by omega) (Nat.le_of_not_lt more)]

/-- A run that comes to the end of its frame finds all of the record that it waits for. -/
theorem Completes.drive_record (completes : run.Completes data)
    (collecting : run.decoder.collects = true) (past : run.decoder.stage ≠ .header)
    (empty : run.decoder.pending = #[]) (required : run.decoder.required = .ok size)
    (within : run.consumed ≤ data.size) :
    run.consumed + size ≤ data.size ∧
      run.drive data =
        (run.collect (data.extract run.consumed (run.consumed + size))).advance.drive data := by
  have enough : run.consumed + size ≤ data.size := by
    apply Nat.le_of_not_lt
    intro short
    have waiting := stage_drive_of_short completes.fault_eq collecting past empty required within
      short
    rw [completes.stage] at waiting
    simp [Decoder.collects, ← waiting] at collecting
  have taken := size_extract_add enough
  have held := holds_extract enough
  generalize data.extract run.consumed (run.consumed + size) = piece at *
  subst taken
  exact ⟨enough, drive_of_holds completes.fault_eq collecting past empty required held⟩

/-- The end of a frame is accepted if the content is as long as announced. -/
theorem finish_of_sound (known : run.decoder.header = some header)
    (decoded : run.decoder.decoded = content.size) (sound : run.finish.fault = none) :
    Announced header content ∧
      run.finish = { run with decoder := { run.decoder with stage := .complete } } := by
  unfold finish at sound ⊢
  dsimp only at sound ⊢
  rw [known, Option.bind_some] at sound ⊢
  unfold Announced
  cases announced : header.knownContentSize with
  | none => exact ⟨fun _ same => (nomatch same), rfl⟩
  | some size =>
    rw [announced] at sound
    dsimp only at sound ⊢
    by_cases same : size.toNat = run.decoder.decoded
    · rw [if_pos same]
      refine ⟨?_, rfl⟩
      intro other otherSame
      cases otherSame
      exact same.trans decoded
    · rw [if_neg same] at sound
      cases sound

/-- What a block length is accepted as: the end of the records, or the length of a block that is not
too large. -/
theorem advance_blockLength_of_sound (atLength : run.decoder.stage = .blockLength)
    (known : run.decoder.header = some header) (decoded : run.decoder.decoded = content.size)
    (sound : run.advance.fault = none) :
    (run.decoder.pending.natAt 0 4 = 0 ∧
      (header.contentChecksum = false → Announced header content) ∧
      run.advance =
        { run with decoder := { run.decoder with
            pending := #[]
            stage := if header.contentChecksum then .contentChecksum else .complete } }) ∨
    (run.decoder.pending.natAt 0 4 ≠ 0 ∧
      run.decoder.pending.natAt 0 4 % storedBit ≤ header.blockSize.bytes ∧
      run.advance =
        { run with decoder := { run.decoder with
            pending := #[]
            stage := .block (storedBit ≤ run.decoder.pending.natAt 0 4)
              (run.decoder.pending.natAt 0 4 % storedBit) } }) := by
  rw [advance, atLength] at sound ⊢
  obtain ⟨⟨options, stage, header?, pending, position, window, hasher, found, buffer⟩, output,
    consumed, fault⟩ := run
  dsimp only at known decoded
  subst decoded
  simp only [readBlockLength, Decoder.announces, Decoder.blockLimit, known, Option.any_some,
    Option.elim_some] at sound ⊢
  by_cases ends : pending.natAt 0 4 = 0
  · rw [if_pos ends] at sound ⊢
    refine .inl ⟨ends, ?_⟩
    by_cases checked : header.contentChecksum = true
    · rw [if_pos checked, if_pos checked]
      exact ⟨fun unchecked => absurd checked (by simp [unchecked]), rfl⟩
    · rw [if_neg checked] at sound ⊢
      obtain ⟨announced, finished⟩ := @finish_of_sound ⟨⟨options, stage, some header, #[], position,
        window, hasher, content.size, buffer⟩, output, consumed, fault⟩ header content rfl rfl sound
      rw [if_neg checked]
      exact ⟨fun _ => announced, finished⟩
  · rw [if_neg ends] at sound ⊢
    refine .inr ⟨ends, ?_⟩
    by_cases large : header.blockSize.bytes < pending.natAt 0 4 % storedBit
    · rw [if_pos large] at sound
      cases sound
    · rw [if_neg large]
      exact ⟨Nat.le_of_not_lt large, rfl⟩

/-- What a block is accepted as: something that represents it, with its checksum behind it. -/
theorem advance_block_of_sound {stored : Bool} (atBlock : run.decoder.stage = .block stored size)
    (known : run.decoder.header = some header) (sound : run.advance.fault = none) :
    (header.blockChecksums = true →
      run.decoder.pending.natAt size 4 = (checksum (run.decoder.pending.extract 0 size)).toNat) ∧
    ∃ block, Represents
        (if header.independentBlocks then run.decoder.options.dictionary else run.decoder.window)
        header.blockSize.bytes block stored (run.decoder.pending.extract 0 size) ∧
      run.advance = run.addBlock stored block := by
  rw [advance, atBlock] at sound ⊢
  have limit : run.decoder.blockLimit = header.blockSize.bytes := by
    rw [Decoder.blockLimit, known, Option.elim_some]
  simp only [readBlock, Decoder.announces, known, Option.any_some, Represents] at sound ⊢
  split at sound
  · cases sound
  · rename_i verified
    rw [if_neg verified]
    refine ⟨?_, ?_⟩
    · intro checked
      rw [checked, Bool.true_and, bne_iff_ne, ne_eq, Classical.not_not] at verified
      exact verified
    · cases stored with
      | true => exact ⟨_, rfl, rfl⟩
      | false =>
        simp only [Bool.false_eq_true, ↓reduceIte] at sound ⊢
        rw [← limit]
        rcases run.expandBlock_cases (run.decoder.pending.extract 0 size) _ _ with
          ⟨block, decoded, same⟩ | ⟨error, buffer, -, same⟩
        · exact ⟨block, decoded, same⟩
        · rw [same] at sound
          cases sound

/-- A content checksum is accepted if it is that of the content. -/
theorem advance_contentChecksum_of_sound (atChecksum : run.decoder.stage = .contentChecksum)
    (known : run.decoder.header = some header) (decoded : run.decoder.decoded = content.size)
    (hasher : run.decoder.hasher = some (Hasher.new.update content))
    (sound : run.advance.fault = none) :
    run.decoder.pending.natAt 0 4 = (checksum content).toNat ∧ Announced header content := by
  rw [advance, atChecksum] at sound
  obtain ⟨⟨options, stage, header?, pending, position, window, hasher?, found, buffer⟩, output,
    consumed, fault⟩ := run
  dsimp only at known decoded hasher
  subst known decoded hasher
  unfold readContentChecksum at sound
  dsimp only at sound ⊢
  have sum : (Hasher.new.update content).finish = checksum content := rfl
  rw [sum] at sound
  by_cases same : (checksum content).toNat = pending.natAt 0 4
  · rw [if_pos same] at sound
    obtain ⟨announced, -⟩ := @finish_of_sound ⟨⟨options, stage, some header, #[], position,
      window, none, content.size, buffer⟩, output, consumed, fault⟩ header content rfl rfl sound
    exact ⟨same.symm, announced⟩
  · rw [if_neg same] at sound
    cases sound

theorem payload_append_checksumField {piece : Bytes}
    (total : piece.size = if header.blockChecksums then size + 4 else size)
    (checked : header.blockChecksums = true →
      piece.natAt size 4 = (checksum (piece.extract 0 size)).toNat) :
    piece.extract 0 size ++ checksumField header (piece.extract 0 size) = piece := by
  have within : size ≤ piece.size := by
    rw [total]
    split <;> omega
  have parts : piece.extract 0 size ++ piece.dropFirst size = piece := by
    rw [dropFirst, extract_append_extract (Nat.zero_le _) within, Array.extract_size]
  have behind : checksumField header (piece.extract 0 size) = piece.dropFirst size := by
    unfold checksumField
    by_cases flagged : header.blockChecksums = true
    · rw [if_pos flagged] at total ⊢
      have held := @holds_ofNat_natAt piece size 4 (by decide) (Nat.le_of_eq total.symm)
      rw [held.dropFirst_eq, size_ofNat, dropFirst_of_size_le (Nat.le_of_eq total),
        Array.append_empty, checked flagged]
    · rw [if_neg flagged] at total ⊢
      exact (dropFirst_of_size_le (Nat.le_of_eq total)).symm
  rw [behind, parts]

namespace Completes

/-- A run that waits for a number of four bytes and comes to the end of its frame takes in the
number, and accepts it. -/
theorem advance_number (completes : run.Completes data) (collecting : run.decoder.collects = true)
    (past : run.decoder.stage ≠ .header) (empty : run.decoder.pending = #[])
    (required : run.decoder.required = .ok 4) (within : run.consumed ≤ data.size) :
    ∃ number field, data.Holds run.consumed field ∧ field = Bytes.ofNat 4 number ∧
      field.natAt 0 4 = number ∧ number < UInt32.size ∧
      (run.collect field).advance.Completes data := by
  obtain ⟨enough, driven⟩ := completes.drive_record collecting past empty required within
  have held := @holds_ofNat_natAt data run.consumed 4 (by decide) enough
  have small : data.natAt run.consumed 4 < UInt32.size := data.natAt_lt run.consumed (by decide)
  have field := held.extract_eq
  rw [size_ofNat] at field
  rw [field] at driven
  exact ⟨_, _, held, rfl, natAt_ofNat_four small, small, completes.of_eq driven⟩

/-- A run that waits for the content checksum and comes to the end of its frame takes in that of the
content. -/
theorem holds_contentChecksum (completes : run.Completes data)
    (atChecksum : run.decoder.stage = .contentChecksum) (empty : run.decoder.pending = #[])
    (known : run.decoder.header = some header) (decoded : run.decoder.decoded = content.size)
    (hasher : run.decoder.hasher = some (Hasher.new.update content))
    (within : run.consumed ≤ data.size) :
    data.Holds run.consumed (Bytes.ofNat 4 (checksum content).toNat) ∧
      Announced header content := by
  obtain ⟨number, field, held, rfl, value, -, onward⟩ := completes.advance_number
    (by rw [Decoder.collects, atChecksum]) (by simp [atChecksum]) empty
    (by rw [Decoder.required, atChecksum]) within
  obtain ⟨same, announced⟩ := @advance_contentChecksum_of_sound (run.collect _) header content
    atChecksum known decoded hasher onward.fault_eq
  rw [pending_collect, empty, Array.empty_append, value] at same
  exact ⟨same ▸ held, announced⟩

/-- A run that waits for a block and comes to the end of its frame takes in something that represents
a block. -/
theorem holds_payload {stored : Bool} (completes : run.Completes data)
    (atBlock : run.decoder.stage = .block stored size) (empty : run.decoder.pending = #[])
    (known : run.decoder.header = some header) (within : run.consumed ≤ data.size) :
    ∃ payload block : Bytes, payload.size = size ∧
      Represents
        (if header.independentBlocks then run.decoder.options.dictionary else run.decoder.window)
        header.blockSize.bytes block stored payload ∧
      data.Holds run.consumed (payload ++ checksumField header payload) := by
  have required : run.decoder.required =
      .ok (if header.blockChecksums then size + 4 else size) := by
    rw [Decoder.required, atBlock, Decoder.announces, known, Option.any_some]
  generalize total_eq : (if header.blockChecksums then size + 4 else size) = total at required
  obtain ⟨enough, driven⟩ := completes.drive_record (by rw [Decoder.collects, atBlock])
    (by simp [atBlock]) empty required within
  have held := holds_extract enough
  have taken := size_extract_add enough
  generalize data.extract run.consumed (run.consumed + total) = piece at *
  obtain ⟨checked, block, represents, -⟩ := @advance_block_of_sound (run.collect piece) header size
    stored atBlock known (completes.of_eq driven).fault_eq
  rw [pending_collect, empty, Array.empty_append] at checked represents
  refine ⟨piece.extract 0 size, block, ?_, represents, ?_⟩
  · rw [Array.size_extract_of_le, Nat.sub_zero]
    rw [taken, ← total_eq]
    split <;> omega
  · rwa [payload_append_checksumField (taken.trans total_eq.symm) checked]

/-- What a run takes in that waits for a record and comes to the end of its frame: what stands behind
the records, or a record of a block. -/
theorem holds_ending_or_record (completes : run.Completes data) (awaits : run.Awaits header content)
    (verifies : run.decoder.options.verifyContent = true) (within : run.consumed ≤ data.size) :
    (data.Holds run.consumed (ending header content) ∧ Announced header content) ∨
      ∃ (stored : Bool) (payload block : Bytes), payload.size ≤ header.blockSize.bytes ∧
        (stored = false → 0 < payload.size) ∧
        Represents
          (if header.independentBlocks then run.decoder.options.dictionary else run.decoder.window)
          header.blockSize.bytes block stored payload ∧
        data.Holds run.consumed (record header stored payload) := by
  obtain ⟨number, field, held, field_eq, value, small, onward⟩ := completes.advance_number
    (by rw [Decoder.collects, awaits.stage]) (by simp [awaits.stage]) awaits.pending
    (by rw [Decoder.required, awaits.stage]) within
  have taken := held.within
  have zeroOr := @advance_blockLength_of_sound (run.collect field) header content awaits.stage
    awaits.known awaits.decoded onward.fault_eq
  rw [pending_collect, awaits.pending, Array.empty_append, value] at zeroOr
  rcases zeroOr with ⟨rfl, announced, advanced⟩ | ⟨nonzero, fits, advanced⟩
  · refine .inl ?_
    subst field_eq
    rw [ending, holds_append_iff]
    by_cases checked : header.contentChecksum = true
    · rw [advanced, if_pos checked] at onward
      have hasher := awaits.hasher
      rw [contentHasher, checked, verifies, Bool.true_and, if_pos rfl] at hasher
      obtain ⟨sumHeld, total⟩ := @holds_contentChecksum _ header content data onward rfl
        rfl awaits.known awaits.decoded hasher taken
      rw [if_pos checked]
      exact ⟨⟨held, sumHeld⟩, total⟩
    · rw [if_neg checked]
      exact ⟨⟨held, holds_empty held.within⟩, announced (Bool.of_not_eq_true checked)⟩
  · rw [advanced] at onward
    obtain ⟨payload, block, size, represents, payloadHeld⟩ := @holds_payload _ header data _ _
      onward rfl rfl awaits.known taken
    refine .inr ⟨storedBit ≤ number, payload, block, size ▸ fits, ?_, represents, ?_⟩
    · intro plain
      have below : number < storedBit := Nat.lt_of_not_le (of_decide_eq_false plain)
      rw [size, Nat.mod_eq_of_lt below]
      exact Nat.pos_of_ne_zero nonzero
    · rw [record_eq, size, length_of_field small, ← field_eq, holds_append_iff]
      exact ⟨held, payloadHeld⟩

end Completes

end Run

end Lz4.Frame
