import Lz4.Proofs.Frame.Buffer
import Lz4.Proofs.Frame.Record
import Lz4.Proofs.Frame.Stuck

/-!
# Refusals that are final

A header and a block that are refused are kept, so the decoder is stuck. The other records are taken
out before they are refused. A decoder that refused the length of a block, or the end of the blocks,
goes on with the next length, so more content may come
(`Lz4.Frame.Decoder.exists_content_of_length`). A decoder that refused a content checksum takes
whatever comes next for the checksum without comparing it, and so it comes to the end of the frame
unless the content is not as long as announced (`Lz4.Frame.Decoder.isComplete_of_unsummed`). Within
a frame, these are the refusals that are not final (`Lz4.Frame.Decoder.final_iff_fruitless`).
-/

namespace Lz4.Frame

namespace Decoder

variable {decoder : Decoder}

/-- Whether a refusal for this reason, which leaves this decoder, is final: the record is kept, or
the end of the frame is refused each time because the content is not as long as announced. -/
def Final (after : Decoder) : Corruption → Prop
  | .blockTooLarge => False
  | .contentSizeMismatch => after.announces (·.contentChecksum) = true
  | .contentChecksum => after.Miscounted
  | _ => True

theorem final_of_ofHeader (after : Decoder) {reason : Corruption}
    (ofHeader : reason.ofHeader = true) : after.Final reason := by
  cases reason <;> trivial

theorem final_of_ofBlock (after : Decoder) {reason : Corruption}
    (ofBlock : reason.ofBlock = true) : after.Final reason := by
  cases reason <;> trivial

/-- A decoder that can get on after a refusal: it has taken out the record, and waits for a block
length, or for a content checksum that it will not compare, at the end of content that is as long as
announced. -/
inductive Open (decoder : Decoder) : Prop
  | length (stage : decoder.stage = .blockLength) (empty : decoder.pending = #[])
  | unsummed (stage : decoder.stage = .contentChecksum) (empty : decoder.pending = #[])
      (unsummed : decoder.hasher = none) (counted : ¬ decoder.Miscounted)

theorem stuck_of_corrupt {last : Run} {size offset : Nat} {reason : Corruption}
    (sound : last.fault = none) (collecting : last.decoder.collects = true)
    (required : last.decoder.required = .ok size) (collected : size ≤ last.decoder.pending.size)
    (refused : last.advance = last.corrupt offset reason) : last.decoder.Stuck := by
  refine .kept collecting ?_ ((Run.advance_eq_iff sound).mp refused)
  intro other same
  rw [required] at same
  cases same
  exact collected

theorem stuck_of_required {error : Error} (collecting : decoder.collects = true)
    (refused : decoder.required = .error error) : decoder.Stuck := by
  obtain ⟨stage, unsized⟩ := Run.stage_of_required refused
  have parsed : Header.parse decoder.pending = .error error := by
    rw [Header.parse, unsized]
  refine @Stuck.kept _ error collecting ?_ ?_
  · intro size required
    rw [refused] at required
    cases required
  · rw [Run.advance, stage]
    exact (Run.readHeader_eq_iff rfl).mpr parsed

/-- A record that is refused leaves a decoder stuck or open, depending on the reason. -/
theorem stuck_or_open_of_refused {last after : Run} {size offset : Nat} {reason : Corruption}
    (sound : last.fault = none) (consistent : after.decoder.Consistent)
    (collecting : last.decoder.collects = true) (required : last.decoder.required = .ok size)
    (collected : size ≤ last.decoder.pending.size) (acted : last.advance = after)
    (refused : last.Refused offset reason after) :
    after.decoder.Final reason ∧ after.decoder.Stuck ∨
      ¬ after.decoder.Final reason ∧ after.decoder.Open := by
  cases refused with
  | header stage reason ofHeader parsed =>
    exact .inl ⟨final_of_ofHeader _ ofHeader,
      @stuck_of_corrupt last _ _ _ sound collecting required collected acted⟩
  | tooLarge stage => exact .inr ⟨id, .length stage rfl⟩
  | miscounted stage unchecked =>
    exact .inr ⟨fun announced => Bool.noConfusion (unchecked.symm.trans announced),
      .length stage rfl⟩
  | block stage reason ofBlock buffer =>
    -- The block is refused again, and leaves the same bytes in the buffer.
    have again : (last.withBuffer buffer).advance =
        (last.withBuffer buffer).corrupt offset reason := by
      rcases last.advance_withBuffer buffer with replaced | kept
      · exact replaced.trans acted
      · exact kept.trans (congrArg (Run.withBuffer · buffer) acted)
    exact .inl ⟨final_of_ofBlock _ ofBlock, @stuck_of_corrupt (last.withBuffer buffer) _ _ _ sound
      collecting required collected again⟩
  | wrongSum stage =>
    by_cases differs : last.decoder.Miscounted
    · exact .inl ⟨differs, .miscounted stage (Nat.zero_le 4) rfl differs⟩
    · exact .inr ⟨differs, .unsummed stage rfl rfl differs⟩
  | summedMiscounted stage differs =>
    -- The decoder would not wait for a content checksum if none were announced.
    exact .inl ⟨consistent.summed stage, .miscounted stage (Nat.zero_le 4) rfl differs⟩

/-- A decoder that refuses its input within the frame is stuck if the refusal is final, and open
otherwise. -/
theorem stuck_or_open {data : Bytes} {offset : Nat} {reason : Corruption} {after : Decoder}
    (consistent : decoder.Consistent)
    (refused : decoder.decode data = (.error (.corruptInput offset reason), after))
    (going : after.isComplete = false) :
    after.Final reason ∧ after.Stuck ∨ ¬ after.Final reason ∧ after.Open := by
  have stopped : (decoder.fresh.drive data).fault = some (.corruptInput offset reason) := by
    cases fault : (decoder.fresh.drive data).fault with
    | none =>
      rw [decode_of_sound fault] at refused
      cases refused
    | some error =>
      rw [decode_of_fault fault] at refused
      cases refused
      rfl
  have same : (decoder.fresh.drive data).decoder = after := by
    rw [← decode_snd, refused]
  obtain ⟨last, sound, stops⟩ := Run.exists_last_of_fault rfl stopped
  have still := @Run.consistent_drive decoder.fresh consistent data
  generalize acted : decoder.fresh.drive data = halted at same still stops
  cases stops with
  | required collecting unsized =>
    subst same
    obtain ⟨_, _, named, ofHeader⟩ :=
      Header.corruptInput_of_requiredSize (Run.stage_of_required unsized).2
    cases named
    exact .inl ⟨final_of_ofHeader _ ofHeader,
      @stuck_of_required last.decoder _ collecting unsized⟩
  | record collecting required collected record =>
    subst same
    exact stuck_or_open_of_refused sound still collecting required collected rfl record
  | trailing ended =>
    subst same
    have complete : last.decoder.isComplete = true := by
      rw [isComplete, ended]
      rfl
    exact Bool.noConfusion (complete.symm.trans going)

/-- A decoder that waits for a block length can be given a block of one byte. -/
theorem exists_content_of_length {header : Header} (stage : decoder.stage = .blockLength)
    (empty : decoder.pending = #[]) (known : decoder.header = some header) :
    ∃ data count, (decoder.decode data).1 = .ok (#[0], count) := by
  have fits : (#[0] : Bytes).size ≤ header.blockSize.bytes := by
    cases header.blockSize <;> decide
  have driven := @Run.drive_record decoder.fresh header (record header true #[0]) #[0] true #[0] rfl
    stage empty known (by simp) (by decide) fits rfl (Bytes.holds_self _)
  have starved := @Run.drive_of_starved
    ((decoder.fresh.collect (record header true #[0])).addBlock true #[0]) (record header true #[0]) 4
      rfl rfl rfl (Nat.zero_lt_succ 3) (Nat.le_of_eq (Nat.zero_add _).symm)
  rw [starved] at driven
  have sound : (decoder.fresh.drive (record header true #[0])).fault = none := by
    rw [driven]
    rfl
  refine ⟨record header true #[0], (decoder.fresh.drive (record header true #[0])).consumed, ?_⟩
  rw [decode_of_sound sound, driven]
  rfl

/-- A decoder that waits for a content checksum that it will not compare comes to the end of its
frame with any four bytes, if the content is as long as announced. -/
theorem isComplete_of_unsummed {piece : Bytes} (four : piece.size = 4)
    (stage : decoder.stage = .contentChecksum) (empty : decoder.pending = #[])
    (unsummed : decoder.hasher = none) (counted : ¬ decoder.Miscounted) :
    (decoder.decode piece).2.isComplete = true := by
  have collecting : decoder.collects = true := by rw [collects, stage]
  have past : decoder.stage ≠ .header := by simp [stage]
  have required : decoder.required = .ok piece.size := by rw [Decoder.required, stage, four]
  have driven := @Run.drive_of_holds decoder.fresh piece piece rfl collecting past empty
    required (Bytes.holds_self piece)
  have acted : (decoder.fresh.collect piece).advance =
      (decoder.fresh.collect piece).unsummed.finish := Run.advance_of_unsummed stage unsummed
  rw [((decoder.fresh.collect piece).unsummed.finish_cases).resolve_right
    fun miscounted => counted miscounted.1] at acted
  have ended : (decoder.fresh.collect piece).advance.drive piece =
      (decoder.fresh.collect piece).advance := by
    rw [acted]
    exact Run.drive_of_ended rfl rfl (Nat.zero_add _)
  rw [decode_snd, driven, ended, acted]
  rfl

/-- A decoder that is open can be given something that gives out content, or ends the frame. -/
theorem fruitful_of_open (consistent : decoder.Consistent) (opened : decoder.Open) :
    ∃ data, ¬ (answer (decoder.call (.decode data)).1
      (decoder.call (.decode data)).2).Fruitless := by
  cases opened with
  | length stage empty =>
    obtain ⟨header, known⟩ := Option.ne_none_iff_exists'.mp
      (mt consistent.known.mpr (by simp [stage]))
    obtain ⟨data, count, decoded⟩ := exists_content_of_length stage empty known
    refine ⟨data, ?_⟩
    intro fruitless
    have nothing := fruitless.nothing #[0] count (congrArg Result.decoded decoded)
    cases nothing
  | unsummed stage empty unsummed counted =>
    refine ⟨#[0, 0, 0, 0], ?_⟩
    intro fruitless
    have complete := @isComplete_of_unsummed _ #[0, 0, 0, 0] rfl stage empty unsummed counted
    exact Bool.noConfusion (complete.symm.trans fruitless.incomplete)

/-- What can come after a refusal within a frame, however the decoder was called before. If the
refusal is final, then no later call gives out content or ends the frame, as long as the decoder is
not reset and independent blocks keep their dictionary; and a reader that failed with it gives out
nothing more, not even that it is at the end. If the refusal is not final, then there is something
to decode that gives out content or ends the frame. -/
theorem final_iff_fruitless {before : List Call} {data : Bytes} {offset : Nat} {reason : Corruption}
    {after : Decoder}
    (refused : (new.calls before).2.decode data = (.error (.corruptInput offset reason), after))
    (going : after.isComplete = false) :
    (after.Final reason ↔
      ∀ later : List Call, .reset ∉ later →
        (after.announces (·.independentBlocks) = true →
          ∀ dictionary, .setDictionary dictionary ∉ later) →
        ∀ answer ∈ (after.calls later).1, answer.Fruitless) ∧
    (after.Final reason →
      ∀ (σ : Type) [Source σ] (previous reader : Reader σ) (count : Nat) (error : StreamError),
        previous.read count = (.error error, reader) → reader.decoder = after →
        ∀ (later : List Reader.Call) (content : Bytes),
          .bytes (.ok content) ∉ (reader.calls later).1) := by
  have consistent := consistent_calls (consistent_ofOptions {}) before
  change (new.calls before).2.Consistent at consistent
  generalize (new.calls before).2 = decoder at *
  have still : after.Consistent := by
    have driven := @Run.consistent_drive decoder.fresh consistent data
    rwa [← decode_snd, refused] at driven
  rcases stuck_or_open consistent refused going with ⟨final, stuck⟩ | ⟨notFinal, opened⟩
  · refine ⟨iff_of_true final fun later within kept => calls_of_stuck still stuck within kept, ?_⟩
    rintro - σ _ previous reader count error failed rfl
    exact Reader.calls_of_stuck ⟨stuck, Reader.drained_of_read_error failed⟩
  · refine ⟨iff_of_false notFinal ?_, fun final => absurd final notFinal⟩
    intro fruitless
    obtain ⟨more, fruitful⟩ := fruitful_of_open still opened
    refine fruitful (fruitless [.decode more] (by simp) (by simp) _ ?_)
    rw [calls_cons]
    exact List.mem_cons_self

theorem final_iff_fruitless_wrongMagic :
    (new.decode #[1, 2, 3, 4]).1 = .error (.corruptInput 0 (.wrongMagic 0x04030201)) ∧
      ∀ answer ∈ ((new.decode #[1, 2, 3, 4]).2.calls
        [.readHeader #[4], .setDictionary #[5], .decode #[0x04, 0x22, 0x4D, 0x18]]).1,
          answer.Fruitless := by
  have refused : new.decode #[1, 2, 3, 4] =
      (.error (.corruptInput 0 (.wrongMagic 0x04030201)),
        { new with pending := #[1, 2, 3, 4], position := 4 }) := by
    cbv
  have final := (@final_iff_fruitless [] _ _ _ _ refused rfl).1.mp trivial
  rw [refused]
  exact ⟨rfl, final _ (by simp) (by simp [announces, new, ofOptions])⟩

/-- A content checksum that was refused does not keep the frame from being accepted: any four bytes
that follow end it. -/
theorem contentChecksum_not_final :
    let after : Decoder := { new with
      stage := .contentChecksum
      header := some { blockSize := .max64KB, contentChecksum := true }
      position := 15 }
    let last : Decoder := { after with stage := .complete, position := 19 }
    new.decode #[0x04, 0x22, 0x4D, 0x18, 0x44, 0x40, 0x5E, 0, 0, 0, 0, 1, 2, 3, 4] =
        (.error (.corruptInput 11 .contentChecksum), after) ∧
      after.isComplete = false ∧ after.decode #[1, 2, 3, 4] = (.ok (#[], 4), last) ∧
      last.isComplete = true := by
  refine ⟨?_, rfl, ?_, rfl⟩ <;> cbv

end Decoder

end Lz4.Frame
