import Lz4.Proofs.Frame.Accepted
import Lz4.Proofs.Frame.Faults

/-!
# The language of frames

A frame is data to be passed over, or it is a header, records for its blocks and what stands behind
them (`Lz4.Frame.IsFrame`). Each block is stored as it is, or something that expands to it behind
the content so far (`Lz4.Frame.Records`).

Records take a decoder on (`Lz4.Frame.Run.Recalls.drive_records`), and a decoder that comes to the
end of its frame took in records (`Lz4.Frame.Run.Recalls.exists_records`). So exactly the frames are
decoded (`Lz4.Frame.decode_iff_isFrame`).
-/

namespace Lz4.Frame

open Bytes Checksum

/-- What the matches of a block may reach back to: the dictionary in frames of independent blocks,
and otherwise the last 64 KiB of the dictionary and the content before. -/
def prior (header : Header) (dictionary before : Bytes) : Bytes :=
  if header.independentBlocks then dictionary
  else takeLast (dictionary ++ before) Block.windowSize

/-- Records of blocks one behind the other, and the content that they add to what came before. -/
inductive Records (header : Header) (dictionary : Bytes) : Bytes → Bytes → Bytes → Prop
  | nil (before : Bytes) : Records header dictionary before #[] #[]
  | stored {before block rest content : Bytes} (fits : block.size ≤ header.blockSize.bytes)
      (onward : Records header dictionary (before ++ block) rest content) :
    Records header dictionary before (record header true block ++ rest) (block ++ content)
  | compressed {before payload block rest content : Bytes}
      (fits : payload.size ≤ header.blockSize.bytes)
      (expands : Block.Expands payload (prior header dictionary before) block)
      (room : block.size ≤ header.blockSize.bytes)
      (onward : Records header dictionary (before ++ block) rest content) :
    Records header dictionary before (record header false payload ++ rest) (block ++ content)

/-- A block size is read back as another name of itself, and that makes no difference. -/
theorem Records.readBack {header : Header} {dictionary before records content : Bytes}
    (inside : Records header dictionary before records content) :
    Records header.readBack dictionary before records content := by
  have limit : header.readBack.blockSize.bytes = header.blockSize.bytes :=
    header.blockSize.bytes_readBack
  induction inside with
  | nil before => exact .nil before
  | stored fits onward ih => exact .stored (limit.symm ▸ fits) ih
  | compressed fits expands room onward ih =>
    exact .compressed (limit.symm ▸ fits) expands (limit.symm ▸ room) ih

/-- The bytes are a frame with the content. -/
inductive IsFrame (dictionary : Bytes) : Bytes → Bytes → Prop
  | skippable {nibble : Nat} {passed : Bytes} (small : nibble < 16) (short : passed.size < 2 ^ 32) :
    IsFrame dictionary (Header.skippable nibble passed.size ++ passed) #[]
  | data {header : Header} {records content : Bytes} (kind : header.kind = .data)
      (inside : Records header dictionary #[] records content)
      (announced : Announced header content) :
    IsFrame dictionary (header.encode ++ (records ++ ending header content)) content

namespace Run

variable {run : Run} {header : Header} {content data : Bytes} {size : Nat}

/-- A run that waits for a record, with the window that the next block needs. -/
structure Recalls (header : Header) (content : Bytes) (run : Run) : Prop
    extends run.Awaits header content where
  window : header.independentBlocks = false →
    run.decoder.window = takeLast (run.decoder.options.dictionary ++ content) Block.windowSize

namespace Recalls

variable {block : Bytes} {stored : Bool} {payload : Bytes}

/-- The bytes to which the next block may refer are those that it should. -/
theorem history_eq (recalls : run.Recalls header content) :
    (if header.independentBlocks then run.decoder.options.dictionary else run.decoder.window) =
      prior header run.decoder.options.dictionary content := by
  unfold prior
  by_cases independent : header.independentBlocks = true
  · rw [if_pos independent, if_pos independent]
  · rw [if_neg independent, if_neg independent,
      recalls.window (Bool.of_not_eq_true independent)]

theorem addContent (recalls : run.Recalls header content) (record block : Bytes) :
    ((run.collect record).addContent block).Recalls header (content ++ block) := by
  obtain ⟨⟨sound, atLength, empty, known, summed, counted, found⟩, window⟩ := recalls
  obtain ⟨⟨options, stage, header?, pending, position, remembered, hasher, decoded, buffer⟩, output,
    consumed, fault⟩ := run
  dsimp only at sound atLength empty known summed counted found window
  subst sound atLength empty known summed counted found
  refine ⟨⟨rfl, rfl, rfl, rfl, ?_, ?_, rfl⟩, ?_⟩
  · exact contentHasher_append header options _ block
  · exact Array.size_append.symm
  · intro linked
    have extended : Stream.extendWindow remembered block =
        takeLast (options.dictionary ++ (output ++ block)) Block.windowSize := by
      rw [Stream.extendWindow_eq_takeLast, window linked, takeLast_takeLast_append,
        Array.append_assoc]
    refine Eq.trans ?_ extended
    simp only [collect, Run.addContent, Decoder.announces, Option.any_some, linked,
      Bool.false_eq_true, ↓reduceIte]

theorem addBlock (recalls : run.Recalls header content) (record : Bytes) (stored : Bool)
    (block : Bytes) : ((run.collect record).addBlock stored block).Recalls header
      (content ++ block) := by
  obtain ⟨buffer, added⟩ := (run.collect record).exists_addBlock_eq stored block
  obtain ⟨⟨sound, atLength, empty, known, summed, counted, found⟩, window⟩ :=
    recalls.addContent record block
  rw [added]
  exact ⟨⟨sound, atLength, empty, known, summed, counted, found⟩, window⟩

/-- A record takes a run on, and gives it its block. -/
theorem drive_record (recalls : run.Recalls header content)
    (marked : stored = false → 0 < payload.size) (fits : payload.size ≤ header.blockSize.bytes)
    (represents : Represents (prior header run.decoder.options.dictionary content)
      header.blockSize.bytes block stored payload)
    (held : data.Holds run.consumed (record header stored payload)) :
    run.drive data =
      ((run.collect (record header stored payload)).addBlock stored block).drive data := by
  have small := lt_storedBit_of_le fits
  rw [← recalls.history_eq] at represents
  exact Run.drive_record recalls.sound recalls.stage recalls.pending recalls.known marked small fits
    represents held

/-- Records take a run on, and give it their blocks. -/
theorem drive_records {dictionary records added : Bytes}
    (inside : Records header dictionary content records added)
    (recalls : run.Recalls header content) (same : run.decoder.options.dictionary = dictionary)
    (held : data.Holds run.consumed records) :
    ∃ next : Run, run.drive data = next.drive data ∧ next.Recalls header (content ++ added) ∧
      next.consumed = run.consumed + records.size := by
  induction inside generalizing run with
  | nil content => exact ⟨run, rfl, by rwa [Array.append_empty], rfl⟩
  | @stored content block rest added fits onward ih =>
    obtain ⟨here, there⟩ := holds_append_iff.mp held
    have step := @drive_record run header content data block true block recalls
      (fun plain => nomatch plain) fits rfl here
    obtain ⟨next, driven, recallsNext, consumed⟩ := ih (recalls.addBlock _ true block) same there
    refine ⟨next, step.trans driven, by rwa [← Array.append_assoc], ?_⟩
    rw [consumed, Array.size_append, ← Nat.add_assoc]
    rfl
  | @compressed content payload block rest added fits expands room onward ih =>
    obtain ⟨here, there⟩ := holds_append_iff.mp held
    have decoded := Block.decode_eq_ok_iff.mpr ⟨same ▸ expands, room⟩
    have step := @drive_record run header content data block false payload recalls
      (fun _ => expands.size_pos) fits decoded here
    obtain ⟨next, driven, recallsNext, consumed⟩ := ih (recalls.addBlock _ false block) same there
    refine ⟨next, step.trans driven, by rwa [← Array.append_assoc], ?_⟩
    rw [consumed, Array.size_append, ← Nat.add_assoc]
    rfl

/-- A run that comes to the end of its frame took in records, and behind them what belongs there. -/
theorem exists_records {run : Run} {content : Bytes} (recalls : run.Recalls header content)
    (verifies : run.decoder.options.verifyContent = true) (completes : run.Completes data)
    (within : run.consumed ≤ data.size) :
    ∃ records added, Records header run.decoder.options.dictionary content records added ∧
      Announced header (content ++ added) ∧
      data.Holds run.consumed (records ++ ending header (content ++ added)) := by
  rcases completes.holds_ending_or_record recalls.toAwaits verifies within with
    ⟨held, announced⟩ | ⟨stored, payload, block, fits, marked, represents, held⟩
  · refine ⟨#[], #[], .nil content, ?_, ?_⟩
    · rwa [Array.append_empty]
    · rwa [Array.append_empty, Array.empty_append]
  · rw [recalls.history_eq] at represents
    have step := recalls.drive_record marked fits represents held
    have further := held.within
    have positive : 0 < (record header stored payload).size := by
      rw [record_eq, Array.size_append, size_ofNat]
      omega
    have options := (run.collect (record header stored payload)).options_addBlock stored block
    have consumed := (run.collect (record header stored payload)).consumed_addBlock stored block
    obtain ⟨records, added, inside, announced, behind⟩ := exists_records
      (recalls.addBlock (record header stored payload) stored block) (options ▸ verifies)
      (completes.of_eq step) (consumed ▸ further)
    have joined : content ++ block ++ added = content ++ (block ++ added) := Array.append_assoc
    rw [options] at inside
    rw [joined] at announced behind
    rw [consumed] at behind
    refine ⟨record header stored payload ++ records, block ++ added, ?_, announced, ?_⟩
    · cases stored with
      | true =>
        cases represents
        exact .stored fits inside
      | false =>
        obtain ⟨expands, room⟩ := Block.decode_eq_ok_iff.mp represents
        exact .compressed fits expands room inside
    · rw [Array.append_assoc, holds_append_iff]
      exact ⟨held, behind⟩
termination_by data.size - run.consumed
decreasing_by
  rw [consumed_addBlock, consumed_collect]
  omega

end Recalls

theorem Ended.drive_self (ended : run.Ended content data.size) : run.drive data = run :=
  drive_of_ended ended.sound ended.stage ended.consumed

/-- A run after the end of its frame is done, or refuses what follows. -/
theorem Ended.drive_eq {consumed : Nat} (ended : run.Ended content consumed)
    (refuses : run.decoder.options.stopAtFrameEnd = false) (sound : (run.drive data).fault = none)
    (within : run.consumed ≤ data.size) : consumed = data.size ∧ run.drive data = run := by
  by_cases trailing : run.consumed < data.size
  · rw [drive_of_complete ended.sound ended.stage, if_pos ⟨trailing, refuses⟩] at sound
    cases sound
  · have all : run.consumed = data.size := by omega
    exact ⟨ended.consumed.symm.trans all, drive_of_ended ended.sound ended.stage all⟩

/-- Records and what belongs behind them take a run to the end of its frame. -/
theorem Recalls.drive_frame {records added : Bytes} (recalls : run.Recalls header content)
    (inside : Records header run.decoder.options.dictionary content records added)
    (announced : Announced header (content ++ added))
    (held : data.Holds run.consumed (records ++ ending header (content ++ added))) :
    ∃ after : Run, run.drive data = after.drive data ∧
      after.Ended (content ++ added)
        (run.consumed + (records ++ ending header (content ++ added)).size) := by
  obtain ⟨recordsHeld, endHeld⟩ := holds_append_iff.mp held
  obtain ⟨next, driven, recallsNext, consumed⟩ := recalls.drive_records inside rfl recordsHeld
  obtain ⟨after, drivenNext, ended⟩ :=
    recallsNext.toAwaits.drive_ending announced (consumed ▸ endHeld)
  refine ⟨after, driven.trans drivenNext, ?_⟩
  rwa [consumed, Nat.add_assoc, ← Array.size_append] at ended

variable {decoder : Decoder}

/-- A decoder that has read the header of a data frame waits for the first record. -/
theorem recalls_readHeader {bytes : Bytes} (empty : decoder.pending = #[])
    (short : decoder.options.dictionary.size ≤ Block.windowSize)
    (parsed : Header.parse bytes = .ok (header, size)) (kind : header.kind = .data) :
    (decoder.fresh.collect bytes).readHeader.Recalls header #[] := by
  rw [← @Array.empty_append _ bytes, ← empty] at parsed
  rw [readHeader, pending_collect, parsed]
  dsimp only
  rw [start_of_data kind]
  refine ⟨⟨rfl, rfl, rfl, rfl, ?_, rfl, rfl⟩, ?_⟩
  · simp only [contentHasher, Hasher.update_empty]
  · intro linked
    have all := takeLast_of_size_le short
    rw [Array.append_empty]
    simp only [linked, Bool.false_eq_true, ↓reduceIte]
    exact all.symm

/-- A decoder that has read the header of a skippable frame passes over what follows. -/
theorem readHeader_skippable {bytes : Bytes} {nibble : Nat} {count : UInt64}
    (empty : decoder.pending = #[])
    (parsed : Header.parse bytes =
      .ok ({ kind := .skippable nibble, contentSize := some count }, size)) :
    ∃ passing : Run, (decoder.fresh.collect bytes).readHeader = passing ∧ passing.fault = none ∧
      passing.decoder.stage = .skip count.toNat ∧ passing.output = #[] ∧
      passing.consumed = bytes.size := by
  rw [← @Array.empty_append _ bytes, ← empty] at parsed
  rw [readHeader, pending_collect, parsed]
  exact ⟨_, rfl, rfl, rfl, rfl, Nat.zero_add _⟩

theorem drive_of_passed {count : Nat} (sound : run.fault = none)
    (skipping : run.decoder.stage = .skip count) (enough : run.consumed + count ≤ data.size) :
    ∃ after : Run, run.drive data = after.drive data ∧
      after.Ended run.output (run.consumed + count) := by
  refine ⟨run.pass count .complete, ?_, sound, rfl, rfl, rfl⟩
  rw [drive_of_skip sound skipping, if_pos (by omega)]

theorem Completes.enough_passed {count : Nat} (completes : run.Completes data)
    (skipping : run.decoder.stage = .skip count) (within : run.consumed ≤ data.size) :
    run.consumed + count ≤ data.size := by
  apply Nat.le_of_not_lt
  intro short
  have ended := completes.stage
  rw [drive_of_skip completes.fault_eq skipping, if_neg (by omega)] at ended
  cases ended

end Run

namespace Decoder

variable {decoder : Decoder} {data content bytes rest : Bytes} {header : Header} {size : Nat}

/-- A header in front is read, whatever follows. -/
theorem drive_of_parse (stage : decoder.stage = .header) (empty : decoder.pending = #[])
    (parsed : Header.parse bytes = .ok (header, bytes.size)) :
    decoder.fresh.drive (bytes ++ rest) =
      (decoder.fresh.collect bytes).readHeader.drive (bytes ++ rest) := by
  have acts := @Run.drive_header decoder (bytes ++ rest) stage empty
  rw [Header.requiredSize_append_of_whole (Header.requiredSize_of_parse parsed) rfl rest] at acts
  dsimp only at acts
  rwa [if_neg (by rw [Array.size_append]; omega), Array.extract_append_left, Array.extract_size]
    at acts

theorem consumed_readHeader (decoder : Decoder) (bytes : Bytes) :
    (decoder.fresh.collect bytes).readHeader.consumed = bytes.size := by
  rw [(Run.unmoved_readHeader _).consumed, Run.consumed_collect, Nat.zero_add]

theorem options_readHeader (decoder : Decoder) (bytes : Bytes) :
    (decoder.fresh.collect bytes).readHeader.decoder.options = decoder.options :=
  (Run.unmoved_readHeader _).options

/-- A decoder that starts a frame comes to the end of data that are a frame, with its content. -/
theorem ended_of_isFrame (stage : decoder.stage = .header) (empty : decoder.pending = #[])
    (short : decoder.options.dictionary.size ≤ Block.windowSize)
    (frame : IsFrame decoder.options.dictionary data content) :
    (decoder.fresh.drive data).Ended content data.size := by
  cases frame with
  | @skippable nibble passed small few =>
    obtain ⟨count, counted, parsed⟩ := Header.parse_skippable small few
    obtain ⟨passing, read, sound, skipping, nothing, consumed⟩ :=
      Run.readHeader_skippable empty parsed
    have total : passing.consumed + count.toNat =
        (Header.skippable nibble passed.size ++ passed).size := by
      rw [consumed, counted, Array.size_append]
    obtain ⟨after, driven, ended⟩ :=
      Run.drive_of_passed sound skipping (Nat.le_of_eq total)
    rw [total, nothing] at ended
    rwa [drive_of_parse stage empty parsed, read, driven, ended.drive_self]
  | @data header records content kind inside announced =>
    have parsed := header.parse_encode kind
    have recalls := Run.recalls_readHeader empty short parsed kind
    have consumed := decoder.consumed_readHeader header.encode
    have same := decoder.options_readHeader header.encode
    have held := holds_append_right header.encode (records ++ ending header content)
    rw [← same] at inside
    rw [← @Array.empty_append _ content] at announced
    rw [← consumed, ← @Array.empty_append _ content] at held
    obtain ⟨after, driven, ended⟩ := recalls.drive_frame inside.readBack announced held
    rw [Array.empty_append] at driven
    have ends : ending header.readBack content = ending header content := rfl
    rw [Array.empty_append, consumed, ends, ← Array.size_append] at ended
    rwa [drive_of_parse stage empty parsed, driven, ended.drive_self]

/-- A decoder that comes to the end of its frame has read a header first. -/
theorem exists_header_of_completes (stage : decoder.stage = .header) (empty : decoder.pending = #[])
    (completes : decoder.fresh.Completes data) :
    ∃ bytes rest header, data = bytes ++ rest ∧ Header.parse bytes = .ok (header, bytes.size) ∧
      (decoder.fresh.collect bytes).readHeader.Completes data := by
  have opening := @Run.drive_header decoder data stage empty
  cases required : Header.requiredSize data with
  | error error =>
    rw [required] at opening
    cases completes.sound.symm.trans opening
  | ok size =>
    rw [required] at opening
    dsimp only at opening
    by_cases cut : data.size < size
    · rw [if_pos cut] at opening
      have waiting := completes.stage
      rw [opening] at waiting
      cases stage.symm.trans waiting
    · rw [if_neg cut] at opening
      have within := Nat.le_of_not_lt cut
      have requiredPart := Header.requiredSize_extract required within
      have taken : (data.extract 0 size).size = size := Array.size_extract_of_le within
      have parts : data.extract 0 size ++ data.dropFirst size = data := by
        rw [dropFirst, extract_append_extract (Nat.zero_le size) within, Array.extract_size]
      have onward := completes.of_eq opening
      generalize data.extract 0 size = bytes at *
      cases parsed : Header.parse bytes with
      | error error =>
        have fault := onward.fault_eq
        rw [← @Array.empty_append _ bytes, ← empty] at parsed
        rw [Run.readHeader, Run.pending_collect, parsed] at fault
        cases fault
      | ok found =>
        obtain ⟨header, count⟩ := found
        have count_eq : count = size := by
          have requiredCount := Header.requiredSize_of_parse parsed
          rw [requiredPart] at requiredCount
          cases requiredCount
          rfl
        rw [count_eq, ← taken] at parsed
        exact ⟨bytes, _, header, parts.symm, parsed, onward⟩

/-- A decoder that starts a frame, compares the content checksum and refuses what follows comes to
the end of nothing but frames. -/
theorem isFrame_of_completes (stage : decoder.stage = .header) (empty : decoder.pending = #[])
    (short : decoder.options.dictionary.size ≤ Block.windowSize)
    (verifies : decoder.options.verifyContent = true)
    (refuses : decoder.options.stopAtFrameEnd = false)
    (completes : decoder.fresh.Completes data) :
    IsFrame decoder.options.dictionary data (decoder.fresh.drive data).output := by
  obtain ⟨bytes, rest, header, rfl, parsed, onward⟩ :=
    exists_header_of_completes stage empty completes
  have consumed := decoder.consumed_readHeader bytes
  have same := decoder.options_readHeader bytes
  have read := @drive_of_parse decoder bytes rest header stage empty parsed
  have within : bytes.size ≤ (bytes ++ rest).size := by
    rw [Array.size_append]
    exact Nat.le_add_right _ _
  have finished : ∀ {after : Run} {found : Bytes} {total : Nat},
      (decoder.fresh.collect bytes).readHeader.drive (bytes ++ rest) = after.drive (bytes ++ rest) →
      after.Ended found total → total ≤ (bytes ++ rest).size →
      total = (bytes ++ rest).size ∧ (decoder.fresh.drive (bytes ++ rest)).output = found := by
    intro after found total driven ended fits
    rw [← read] at driven
    have options := after.options_drive (bytes ++ rest)
    rw [← driven, Run.options_drive] at options
    obtain ⟨all, still⟩ := ended.drive_eq (options ▸ refuses) (driven ▸ completes.sound)
      (ended.consumed ▸ fits)
    exact ⟨all, by rw [driven, still, ended.output]⟩
  rcases Header.parse_eq_ok parsed with ⟨kind, held, size_eq⟩ | ⟨nibble, small, rfl, held, size_eq⟩
  · have recalls := Run.recalls_readHeader empty short parsed kind
    obtain ⟨records, added, inside, announced, behind⟩ := recalls.exists_records
      (by rw [same]; exact verifies) onward (consumed ▸ within)
    obtain ⟨after, driven, ended⟩ := recalls.drive_frame inside announced behind
    obtain ⟨all, output⟩ := finished driven ended behind.within
    rw [same] at inside
    rw [consumed] at behind all
    rw [Array.empty_append] at announced behind all output
    have encoded := held.eq_of_size size_eq
    have rest_eq := behind.dropFirst_of_size all
    rw [dropFirst_append] at rest_eq
    rw [output, rest_eq, ← encoded]
    exact .data kind inside announced
  · obtain ⟨passing, start, sound, skipping, nothing, consumedPassing⟩ :=
      Run.readHeader_skippable empty parsed
    have enough := onward.enough_passed (start ▸ skipping) (consumed ▸ within)
    rw [start] at enough
    obtain ⟨after, driven, ended⟩ := Run.drive_of_passed sound skipping enough
    rw [← start] at driven
    obtain ⟨all, output⟩ := finished driven ended enough
    have few := @natAt_lt bytes 4 4 (by decide)
    have counted : bytes.natAt 4 4 = rest.size := by
      rw [consumedPassing, Array.size_append] at all
      exact Nat.add_left_cancel all
    rw [counted] at held few
    have encoded := held.eq_of_size ((Header.size_skippable _ _).trans size_eq.symm)
    rw [output, nothing, ← encoded]
    exact .skippable small few

end Decoder

theorem decode_of_completes {data : Bytes} (completes : Decoder.new.fresh.Completes data) :
    decode data = .ok (Decoder.new.fresh.drive data).output := by
  rw [decode, Decoder.decode_of_sound completes.sound]
  dsimp only
  rw [Decoder.isComplete, completes.stage]
  rfl

theorem decode_of_not_completes {data : Bytes} (short : ¬ Decoder.new.fresh.Completes data) :
    ∃ offset reason, decode data = .error (.corruptInput offset reason) := by
  cases stopped : (Decoder.new.fresh.drive data).fault with
  | some error =>
    obtain ⟨offset, reason, rfl⟩ := Run.corruptInput_of_drive rfl stopped
    refine ⟨offset, reason, ?_⟩
    rw [decode, Decoder.decode_of_fault stopped]
  | none =>
    refine ⟨data.size, .truncated, ?_⟩
    have going : (Decoder.new.fresh.drive data).decoder.isComplete = false := by
      rw [Decoder.isComplete, beq_eq_false_iff_ne]
      exact fun ended => short ⟨stopped, ended⟩
    rw [decode, Decoder.decode_of_sound stopped]
    dsimp only
    rw [going]
    rfl

/-- Exactly the frames are decoded, to their content, and everything else is refused. -/
theorem decode_iff_isFrame (data : Bytes) :
    (∀ content, decode data = .ok content ↔ IsFrame #[] data content) ∧
      ((∃ content, decode data = .ok content) ∨
        ∃ offset reason, decode data = .error (.corruptInput offset reason)) := by
  by_cases completes : Decoder.new.fresh.Completes data
  · have frame := Decoder.isFrame_of_completes rfl rfl (Nat.zero_le _) rfl rfl completes
    have decoded := decode_of_completes completes
    refine ⟨fun content => ⟨?_, ?_⟩, .inl ⟨_, decoded⟩⟩
    · intro found
      cases decoded.symm.trans found
      exact frame
    · intro isFrame
      have ended := @Decoder.ended_of_isFrame .new data content rfl rfl (Nat.zero_le _) isFrame
      rw [decoded, ended.output]
  · obtain ⟨offset, reason, refused⟩ := decode_of_not_completes completes
    refine ⟨fun content => ⟨?_, ?_⟩, .inr ⟨offset, reason, refused⟩⟩
    · intro found
      cases refused.symm.trans found
    · intro isFrame
      have ended := @Decoder.ended_of_isFrame .new data content rfl rfl (Nat.zero_le _) isFrame
      exact absurd ⟨ended.sound, ended.stage⟩ completes

end Lz4.Frame
