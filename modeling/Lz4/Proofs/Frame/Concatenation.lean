import Lz4.Proofs.Frame.Language
import Lz4.Proofs.Frame.Layout
import Lz4.Proofs.Frame.Reset

/-!
# Frames one after the other

Frames that are accepted are decoded as if nothing came behind them
(`Lz4.Frame.decodeAllFrom_append_right`). What comes behind them is decoded as if they were not
there, but for the offset of an error, and as if the decoder that is used again were new
(`Lz4.Frame.decodeAllFrom_append_left`). So decoding is a homomorphism
(`Lz4.Frame.decodeAll_append`), and frames that were encoded one by one are decoded together.
-/

namespace Lz4.Frame

open Bytes

section

variable {decoder after : Decoder} {data content output : Bytes} {offset consumed : Nat}
  {error : Error}

theorem decodeAllFrom_of_end (past : data.size ≤ offset) :
    decodeAllFrom decoder data offset output = .ok output := by
  rw [decodeAllFrom, if_neg (Nat.not_lt_of_le past)]

theorem decodeAllFrom_of_error (more : offset < data.size)
    (refused : decoder.reset.decode (data.dropFirst offset) = (.error error, after)) :
    decodeAllFrom decoder data offset output = .error (error.shifted offset) := by
  rw [decodeAllFrom, if_pos more]
  split
  · rename_i other last same
    cases refused.symm.trans same
    rfl
  · rename_i content consumed last same
    cases refused.symm.trans same

theorem decodeAllFrom_of_ok (more : offset < data.size)
    (decoded : decoder.reset.decode (data.dropFirst offset) = (.ok (content, consumed), after)) :
    decodeAllFrom decoder data offset output =
      if after.isComplete then decodeAllFrom after data (offset + consumed) (output ++ content)
      else .error (.corruptInput data.size .truncated) := by
  rw [decodeAllFrom, if_pos more]
  split
  · rename_i other last same
    cases decoded.symm.trans same
  · rename_i content consumed last same
    cases decoded.symm.trans same
    split <;> rfl

theorem decode_eq_ok (decoded : decoder.decode data = (.ok (content, consumed), after)) :
    (decoder.fresh.drive data).fault = none ∧ (decoder.fresh.drive data).output = content ∧
      (decoder.fresh.drive data).consumed = consumed ∧
      (decoder.fresh.drive data).decoder = after := by
  cases stopped : (decoder.fresh.drive data).fault with
  | some error =>
    rw [Decoder.decode_of_fault stopped] at decoded
    cases decoded
  | none =>
    rw [Decoder.decode_of_sound stopped] at decoded
    cases decoded
    exact ⟨rfl, rfl, rfl, rfl⟩

theorem corruptInput_of_decode (refused : decoder.decode data = (.error error, after)) :
    ∃ place reason, error = .corruptInput place reason := by
  cases stopped : (decoder.fresh.drive data).fault with
  | some fault =>
    rw [Decoder.decode_of_fault stopped] at refused
    cases refused
    exact Run.corruptInput_of_drive rfl stopped
  | none =>
    rw [Decoder.decode_of_sound stopped] at refused
    cases refused

theorem consumed_le (decoded : decoder.decode data = (.ok (content, consumed), after)) :
    consumed ≤ data.size := by
  obtain ⟨sound, -, rfl, -⟩ := decode_eq_ok decoded
  rcases Run.drive_consumes (Nat.zero_le _) sound with all | ⟨some, -, -⟩
  · exact Nat.le_of_eq all
  · exact Nat.le_of_lt some

/-- A decoder that stops at the end of a frame decodes the frame whatever comes behind it. -/
theorem decode_append_of_complete (stops : decoder.options.stopAtFrameEnd = true)
    (decoded : decoder.decode data = (.ok (content, consumed), after))
    (complete : after.isComplete = true) (rest : Bytes) :
    decoder.decode (data ++ rest) = (.ok (content, consumed), after) := by
  obtain ⟨sound, -, -, rfl⟩ := decode_eq_ok decoded
  have ended : (decoder.fresh.drive data).decoder.stage = .complete := by
    simpa [Decoder.isComplete] using complete
  have stopping : (decoder.fresh.drive data).decoder.options.stopAtFrameEnd = true := by
    rw [Run.options_drive]
    exact stops
  have same := Decoder.drive_append_of_stop sound ended stopping rest
  have soundToo := same.fault.trans sound
  rw [Decoder.decode_of_sound soundToo, same.eq_of_sound soundToo, ← decoded,
    Decoder.decode_of_sound sound]

theorem options_of_decode (decoded : decoder.reset.decode data = (.ok (content, consumed), after)) :
    after.options = decoder.options := by
  obtain ⟨-, -, -, rfl⟩ := decode_eq_ok decoded
  exact Run.options_drive _ _

end

/-- What is found in data, seen from a container in which so many bytes and some content stand in
front of them. -/
def behind (count : Nat) (found : Bytes) : Except Error Bytes → Except Error Bytes
  | .ok content => .ok (found ++ content)
  | .error error => .error (error.shifted count)

section

variable {first second decoder : Decoder} {data content output found : Bytes} {offset : Nat}

/-- A decoder that is used again starts a frame like another one that has the same options. -/
theorem decode_reset_of_options (same : second.options = first.options) (data : Bytes) :
    ∃ left, second.reset.decode data =
      ((first.reset.decode data).1, (first.reset.decode data).2.withBuffer left) := by
  have reset : second.reset = first.reset.withBuffer second.buffer := by
    rw [Decoder.reset, same]
    rfl
  rw [reset]
  exact first.reset.decode_withBuffer second.buffer data

theorem shifted_shifted (error : Error) (first second : Nat) :
    (error.shifted first).shifted second = error.shifted (second + first) := by
  cases error with
  | corruptInput offset reason => simp only [Error.shifted, Nat.add_assoc]
  | _ => rfl

/-- What stands in front of the frames makes no difference to them but for the offset of an error,
nor does the decoder that is used for them if it has the same options. -/
theorem decodeAllFrom_append_left (same : second.options = first.options) (front found : Bytes)
    (data : Bytes) (offset : Nat) (output : Bytes) :
    decodeAllFrom second (front ++ data) (front.size + offset) (found ++ output) =
      behind front.size found (decodeAllFrom first data offset output) := by
  have grown : (front ++ data).size = front.size + data.size := Array.size_append
  have here : ∀ offset,
      (front ++ data).dropFirst (front.size + offset) = data.dropFirst offset := by
    intro offset
    rw [dropFirst, grown, extract_append_of_ge, dropFirst]
  fun_induction decodeAllFrom first data offset output generalizing second with
  | case1 decoder offset output more error after refused =>
    obtain ⟨left, other⟩ := decode_reset_of_options same (data.dropFirst offset)
    rw [refused, ← here] at other
    rw [decodeAllFrom_of_error (by omega) other, behind, shifted_shifted]
  | case2 decoder offset output more content consumed after decoded complete ih =>
    obtain ⟨left, other⟩ := decode_reset_of_options same (data.dropFirst offset)
    rw [decoded, ← here] at other
    have options : (after.withBuffer left).options = after.options := rfl
    rw [decodeAllFrom_of_ok (by omega) other, if_pos (by exact complete), Nat.add_assoc,
      Array.append_assoc, ih options]
  | case3 decoder offset output more content consumed after decoded incomplete =>
    obtain ⟨left, other⟩ := decode_reset_of_options same (data.dropFirst offset)
    rw [decoded, ← here] at other
    rw [decodeAllFrom_of_ok (by omega) other, if_neg (by exact incomplete), grown]
    rfl
  | case4 decoder offset output past =>
    rw [decodeAllFrom_of_end (by omega), behind]

/-- Frames that are accepted are accepted whatever comes behind them, which is decoded next. -/
theorem decodeAllFrom_append_right (stops : decoder.options.stopAtFrameEnd = true)
    (within : offset ≤ data.size) (accepted : decodeAllFrom decoder data offset output = .ok found)
    (rest : Bytes) :
    ∃ last : Decoder, last.options = decoder.options ∧
      decodeAllFrom decoder (data ++ rest) offset output =
        decodeAllFrom last (data ++ rest) data.size found := by
  have grown : (data ++ rest).size = data.size + rest.size := Array.size_append
  fun_induction decodeAllFrom decoder data offset output with
  | case1 decoder offset output more error after refused => cases accepted
  | case2 decoder offset output more content consumed after decoded complete ih =>
    have taken := consumed_le decoded
    rw [size_dropFirst] at taken
    have options := options_of_decode decoded
    have stopsReset : decoder.reset.options.stopAtFrameEnd = true := stops
    have further := decode_append_of_complete stopsReset decoded complete rest
    rw [← dropFirst_append_of_le within] at further
    obtain ⟨last, optionsLast, onward⟩ := ih (options ▸ stops) (by omega) accepted
    refine ⟨last, optionsLast.trans options, ?_⟩
    rw [decodeAllFrom_of_ok (by omega) further, if_pos complete, onward]
  | case3 decoder offset output more content consumed after decoded incomplete => cases accepted
  | case4 decoder offset output past =>
    cases accepted
    have all : offset = data.size := by omega
    rw [all]
    exact ⟨decoder, rfl, rfl⟩

/-- Decoding is a homomorphism behind frames that are accepted. -/
theorem decodeAll_eq_behind {front : Bytes} (accepted : decodeAll front = .ok found)
    (rest : Bytes) : decodeAll (front ++ rest) = behind front.size found (decodeAll rest) := by
  obtain ⟨last, options, onward⟩ :=
    decodeAllFrom_append_right rfl (Nat.zero_le _) accepted rest
  have placed := decodeAllFrom_append_left options front found rest 0 #[]
  rw [Nat.add_zero, Array.append_empty] at placed
  exact onward.trans placed

/-- Whatever is refused, the data are at fault. -/
theorem corruptInput_of_decodeAllFrom {error : Error}
    (refused : decodeAllFrom decoder data offset output = .error error) :
    ∃ place reason, error = .corruptInput place reason := by
  fun_induction decodeAllFrom decoder data offset output with
  | case1 decoder offset output more fault after failed =>
    cases refused
    obtain ⟨place, reason, rfl⟩ := corruptInput_of_decode failed
    exact ⟨_, _, rfl⟩
  | case2 decoder offset output more content consumed after decoded complete ih => exact ih refused
  | case3 decoder offset output more content consumed after decoded incomplete =>
    cases refused
    exact ⟨_, _, rfl⟩
  | case4 decoder offset output past => cases refused

end

/-- What is put in a frame: content, or data to be passed over. -/
inductive Part where
  | data (content : Bytes) (settings : Settings)
  | skippable (nibble : Nat) (passed : Bytes)
  deriving Repr, DecidableEq

namespace Part

def encode : Part → Except Error Bytes
  | data content settings => Frame.encode content settings
  | skippable nibble passed => encodeSkippable nibble passed

/-- The content that is found in the frame. -/
def content : Part → Bytes
  | data content _ => content
  | skippable _ _ => #[]

/-- The bytes that a decoder has to know in advance. -/
def dictionary : Part → Bytes
  | data _ settings => settings.dictionary
  | skippable _ _ => #[]

end Part

variable {content frame : Bytes}

/-- A frame that is decoded as a whole is the only one. -/
theorem decodeAll_of_decode {after : Decoder}
    (decoded : (Decoder.new.stopAtFrameEnd true).decode frame = (.ok (content, frame.size), after))
    (complete : after.isComplete = true) : decodeAll frame = .ok content := by
  have reset : (Decoder.new.stopAtFrameEnd true).reset.decode (frame.dropFirst 0) =
      (.ok (content, frame.size), after) := by
    rw [dropFirst_zero]
    exact decoded
  have positive := Decoder.consumed_pos reset complete
  rw [decodeAll, decodeAllFrom_of_ok positive reset, if_pos complete,
    decodeAllFrom_of_end (Nat.le_add_left _ _), Array.empty_append]

theorem decodeAll_encode {settings : Settings} (plain : settings.dictionary = #[])
    (encoded : encode content settings = .ok frame) : decodeAll frame = .ok content := by
  obtain ⟨announced, parts⟩ := encode_eq_ok_iff.mp encoded
  obtain ⟨after, recorded⟩ := settings.recorded_records content
  have carries := Carries.of_recorded recorded rfl
  rw [BlockSize.concat_slices] at carries
  have dictionary : (Decoder.new.stopAtFrameEnd true).options.dictionary =
      Block.dictionaryWindow settings.dictionary := by
    rw [plain]
    rfl
  obtain ⟨final, decoded, complete⟩ :=
    @decode_of_carries (Decoder.new.stopAtFrameEnd true) settings _ _ content rfl rfl dictionary
      announced carries
  rw [← Array.append_assoc, ← parts] at decoded
  exact decodeAll_of_decode decoded complete

theorem decodeAll_encodeSkippable {nibble : Nat} {passed : Bytes}
    (encoded : encodeSkippable nibble passed = .ok frame) : decodeAll frame = .ok #[] := by
  unfold encodeSkippable at encoded
  split at encoded
  · cases encoded
  · split at encoded
    · cases encoded
    · rename_i small short
      cases encoded
      have isFrame : IsFrame (Decoder.new.stopAtFrameEnd true).options.dictionary
          (Header.skippable nibble passed.size ++ passed) #[] :=
        .skippable (Nat.lt_succ_of_le (Nat.le_of_not_lt small)) (Nat.lt_of_not_le short)
      have ended := Decoder.ended_of_isFrame rfl rfl (Nat.zero_le _) isFrame
      have decoded := Decoder.decode_of_sound ended.sound
      rw [ended.output, ended.consumed] at decoded
      refine decodeAll_of_decode decoded ?_
      rw [Decoder.isComplete, ended.stage]
      rfl

theorem decodeAll_part {part : Part} (plain : part.dictionary = #[])
    (encoded : part.encode = .ok frame) : decodeAll frame = .ok part.content := by
  cases part with
  | data content settings => exact decodeAll_encode plain encoded
  | skippable nibble passed => exact decodeAll_encodeSkippable encoded

theorem decodeAll_empty : decodeAll #[] = .ok #[] := decodeAllFrom_of_end (Nat.le_refl 0)

/-- Frames that were encoded one by one are decoded together. -/
theorem decodeAll_parts {parts : List Part} {frames : List Bytes}
    (plain : ∀ part ∈ parts, part.dictionary = #[])
    (encoded : parts.map Part.encode = frames.map .ok) :
    decodeAll (concat frames) = .ok (concat (parts.map Part.content)) := by
  induction parts generalizing frames with
  | nil =>
    cases List.map_eq_nil_iff.mp encoded.symm
    exact decodeAll_empty
  | cons part parts ih =>
    obtain ⟨frame, others, rfl, here, there⟩ := List.map_eq_cons_iff.mp encoded.symm
    rw [List.forall_mem_cons] at plain
    rw [concat_cons, decodeAll_eq_behind (decodeAll_part plain.1 here.symm), ih plain.2 there.symm,
      behind, List.map_cons, concat_cons]

/-- Decoding any number of frames is a homomorphism. Behind data that are accepted, data are decoded
as they are alone; if they are refused, it is for the same reason, at an offset that is shifted by
the size of what stands in front, and nothing else can happen to them. Frames that were encoded
without a dictionary give their content, and skippable ones give none. Every frame that is decoded
to its end takes in something, so there is an end to the frames. -/
theorem decodeAll_append :
    (∀ front found rest, decodeAll front = .ok found →
      (∃ content, decodeAll rest = .ok content ∧
        decodeAll (front ++ rest) = .ok (found ++ content)) ∨
      ∃ offset reason, decodeAll rest = .error (.corruptInput offset reason) ∧
        decodeAll (front ++ rest) = .error (.corruptInput (front.size + offset) reason)) ∧
    (∀ (parts : List Part) (frames : List Bytes), (∀ part ∈ parts, part.dictionary = #[]) →
      parts.map Part.encode = frames.map .ok →
        decodeAll (concat frames) = .ok (concat (parts.map Part.content))) ∧
    ∀ (decoder after : Decoder) (data content : Bytes) (consumed : Nat),
      decoder.reset.decode data = (.ok (content, consumed), after) → after.isComplete = true →
        0 < consumed ∧ consumed ≤ data.size := by
  refine ⟨?_, ?_, ?_⟩
  · intro front found rest accepted
    have split := decodeAll_eq_behind accepted rest
    cases alone : decodeAll rest with
    | ok content =>
      rw [alone] at split
      exact Or.inl ⟨content, rfl, split⟩
    | error error =>
      obtain ⟨offset, reason, rfl⟩ := corruptInput_of_decodeAllFrom alone
      rw [alone] at split
      exact Or.inr ⟨offset, reason, rfl, split⟩
  · exact fun parts frames plain encoded => decodeAll_parts plain encoded
  · exact fun decoder after data content consumed decoded complete =>
      ⟨Decoder.consumed_pos decoded complete, consumed_le decoded⟩

theorem decodeAll_append_three :
    let parts : List Part := [.skippable 3 #[1, 2], .data #[7, 8, 9] {}, .skippable 15 #[]]
    ∃ frames : List Bytes, parts.map Part.encode = frames.map .ok ∧
      decodeAll (concat frames) = .ok #[7, 8, 9] ∧
      decodeAll (concat frames ++ concat frames) = .ok #[7, 8, 9, 7, 8, 9] := by
  intro parts
  obtain ⟨homomorphism, together, -⟩ := decodeAll_append
  obtain ⟨frames, encoded⟩ : ∃ frames : List Bytes, parts.map Part.encode = frames.map .ok :=
    ⟨[_, _, _], rfl⟩
  have plain : ∀ part ∈ parts, part.dictionary = #[] := by simp [parts, Part.dictionary]
  have accepted := together parts frames plain encoded
  refine ⟨frames, encoded, accepted, ?_⟩
  rcases homomorphism _ _ (concat frames) accepted with
    ⟨content, alone, both⟩ | ⟨offset, reason, refused, -⟩
  · cases accepted.symm.trans alone
    exact both
  · cases accepted.symm.trans refused

end Lz4.Frame
