import Lz4.Proofs.Frame.Fronts

/-!
# Frames delimit themselves

A decoder that is given a front part of its input refuses it or accepts it
(`Lz4.Frame.Decoder.accepts_or_refuses`). A front part of a frame cannot be refused, since the frame
would be refused with it, and before the end of the frame a decoder that accepts it is not done
(`Lz4.Frame.Decoder.Accepts.exists_front`). So wherever a frame is cut, the only thing that is wrong
with what is left is that it ends too soon; and the only thing that is wrong with a frame and
something behind it is that it does not end (`Lz4.Frame.decode_delimited`).
-/

namespace Lz4.Frame

open Bytes

namespace Decoder

variable {start middle after : Decoder} {front more rest content whole : Bytes} {error : Error}

/-- Unless it stops at the end of a frame, a decoder takes in all of its input or refuses it. -/
theorem accepts_or_refuses (start : Decoder) (strict : start.options.stopAtFrameEnd = false)
    (front : Bytes) :
    (∃ content after, start.Accepts front content after) ∨ ∃ error, start.Refuses front error := by
  cases stopped : (start.fresh.drive front).fault with
  | some error => exact .inr ⟨error, refuses_iff.mpr stopped⟩
  | none =>
    rcases Run.drive_consumes (Nat.zero_le _) stopped with all | ⟨-, -, stops⟩
    · refine .inl ⟨(start.fresh.drive front).output, (start.fresh.drive front).decoder, ?_⟩
      rw [accepts_iff, ← all, ← stopped]
    · rw [Run.options_drive] at stops
      cases strict.symm.trans stops

theorem Accepts.options (accepts : start.Accepts front content after) :
    after.options = start.options := by
  have options := start.fresh.options_drive front
  rwa [accepts_iff.mp accepts] at options

theorem Accepts.position (accepts : start.Accepts front content after) :
    after.position = start.position + front.size := by
  have moved := start.fresh.position_drive front
  rwa [accepts_iff.mp accepts] at moved

/-- What is accepted is accepted up to every point, and before its last byte the frame goes on. -/
theorem Accepts.exists_front (accepts : start.Accepts (front ++ rest) whole after)
    (strict : start.options.stopAtFrameEnd = false) (cut : rest ≠ #[]) :
    ∃ content middle, start.Accepts front content middle ∧ middle.isComplete = false := by
  rcases start.accepts_or_refuses strict front with ⟨content, middle, accepted⟩ | ⟨error, refused⟩
  · refine ⟨content, middle, accepted, ?_⟩
    rw [← Bool.not_eq_true]
    exact fun complete => cut (accepted.eq_empty_of_complete complete accepts)
  · exact absurd accepts (refused.append rest).not_accepts

/-- What follows the end of a frame is refused where it starts. -/
theorem Accepts.refuses_more (accepts : start.Accepts front content middle)
    (strict : start.options.stopAtFrameEnd = false) (complete : middle.isComplete = true)
    (further : more ≠ #[]) : start.Refuses (front ++ more)
      (.corruptInput (start.position + front.size) .trailingData) := by
  have some : 0 < more.size := Array.size_pos_iff.mpr further
  have ended : middle.stage = .complete := by simpa [isComplete] using complete
  rw [accepts.refuses_append_iff, refuses_iff, Run.drive_of_complete rfl ended,
    if_pos ⟨some, accepts.options ▸ strict⟩, ← accepts.position]
  rfl

end Decoder

variable {frame front more content : Bytes} {after : Decoder} {error : Error}

theorem decode_of_accepts (accepts : Decoder.new.Accepts front content after) :
    decode front =
      if after.isComplete then .ok content else .error (.corruptInput front.size .truncated) := by
  rw [decode, accepts]

theorem decode_of_refuses (refuses : Decoder.new.Refuses front error) :
    decode front = .error error := by
  rw [decode, Decoder.decode_of_fault (Decoder.refuses_iff.mp refuses)]

/-- What is decoded is accepted up to the end of the frame. -/
theorem exists_accepts (decoded : decode frame = .ok content) :
    ∃ after, Decoder.new.Accepts frame content after ∧ after.isComplete = true := by
  rcases Decoder.new.accepts_or_refuses rfl frame with ⟨found, after, accepted⟩ | ⟨error, refused⟩
  · rw [decode_of_accepts accepted] at decoded
    split at decoded
    · rename_i complete
      cases decoded
      exact ⟨after, accepted, complete⟩
    · cases decoded
  · cases (decode_of_refuses refused).symm.trans decoded

/-- Frames delimit themselves. Wherever a frame that is decoded is cut, be it in front of its first
byte, the part in front is refused for being truncated, at its end. Whatever is put behind the frame
is refused for being there, at the end of the frame. -/
theorem decode_delimited (decoded : decode frame = .ok content) :
    (∀ front rest, frame = front ++ rest → rest ≠ #[] →
      decode front = .error (.corruptInput front.size .truncated)) ∧
    ∀ more, more ≠ #[] →
      decode (frame ++ more) = .error (.corruptInput frame.size .trailingData) := by
  obtain ⟨after, accepts, complete⟩ := exists_accepts decoded
  refine ⟨?_, ?_⟩
  · rintro front rest rfl cut
    obtain ⟨content, middle, accepted, going⟩ := accepts.exists_front rfl cut
    rw [decode_of_accepts accepted, going]
    rfl
  · intro more further
    have refused := accepts.refuses_more rfl complete further
    rw [decode_of_refuses refused, Decoder.new, Decoder.ofOptions, Nat.zero_add]

/-- A frame with one block, which is stored, and a content checksum, and a skippable frame. -/
theorem decode_delimited_two :
    let letter : Bytes :=
      #[4, 34, 77, 24, 0x44, 0x40, 0x5E, 1, 0, 0, 0x80, 0x61, 0, 0, 0, 0, 0x56, 0x74, 0x0D, 0x55]
    let passed : Bytes := #[0x50, 0x2A, 0x4D, 0x18, 2, 0, 0, 0, 7, 8]
    decode letter = .ok #[0x61] ∧
      decode (letter.extract 0 11) = .error (.corruptInput 11 .truncated) ∧
      decode passed = .ok #[] ∧ decode #[] = .error (.corruptInput 0 .truncated) ∧
      decode (passed ++ letter) = .error (.corruptInput 10 .trailingData) := by
  intro letter passed
  have decoded : decode letter = .ok #[0x61] := by cbv
  have skipped : decode passed = .ok #[] := by cbv
  have parts : letter = letter.extract 0 11 ++ letter.extract 11 20 := by decide
  exact ⟨decoded, (decode_delimited decoded).1 _ _ parts (by decide), skipped,
    (decode_delimited skipped).1 #[] passed Array.empty_append.symm (by decide),
    (decode_delimited skipped).2 letter (by decide)⟩

end Lz4.Frame
