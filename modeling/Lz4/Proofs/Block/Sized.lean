import Lz4.Block.Sized
import Lz4.Proofs.Block.Capacity

/-!
# Blocks behind their size are read back

What is written for an input is read back behind the same dictionary. With another size in front it
is refused: the block has no room for its content if the size is too small, and does not fill it if
the size is too large (`Lz4.Block.Sized.decode_resized`).

A container of some content is the size of the content with a block behind it that expands to the
content, or with nothing behind it if there is no content (`Lz4.Block.Sized.Container`). All
containers are accepted, and so is a size of zero with anything behind it, which is not looked at
(`Lz4.Block.Sized.decode_rest_ignored`). Everything else is refused
(`Lz4.Block.Sized.decode_container_or_zero`).
-/

namespace Lz4.Block.Sized

open Bytes

section Reading

variable {data dictionary rest content : Bytes} {size : Nat} {error : Error}

theorem decode_of_short (short : data.size < fieldSize) (dictionary : Bytes) :
    decode data dictionary = .error (.invalidArgument .sizeMissing) := by
  unfold decode
  rw [if_pos short]
  rfl

theorem decode_of_large (enough : fieldSize ≤ data.size) (large : maxSize < data.natAt 0 fieldSize)
    (dictionary : Bytes) : decode data dictionary = .error (.invalidArgument .sizeTooLarge) := by
  unfold decode
  dsimp only
  rw [if_neg (Nat.not_lt_of_le enough), if_pos large]
  rfl

theorem lt_of_le_maxSize (small : size ≤ maxSize) : size < 256 ^ fieldSize :=
  Nat.lt_of_le_of_lt small (by decide)

theorem size_field_append (size : Nat) (rest : Bytes) :
    (Bytes.ofNat fieldSize size ++ rest).size = fieldSize + rest.size := by
  rw [Array.size_append, size_ofNat]

theorem dropFirst_field_append (size : Nat) (rest : Bytes) :
    (Bytes.ofNat fieldSize size ++ rest).dropFirst fieldSize = rest := by
  have behind := dropFirst_append (Bytes.ofNat fieldSize size) rest
  rwa [size_ofNat] at behind

/-- What follows a size is decoded with as much room, and has to fill it, unless that is none. -/
theorem decode_field_append (small : size ≤ maxSize) (rest dictionary : Bytes) :
    decode (Bytes.ofNat fieldSize size ++ rest) dictionary =
      if size = 0 then .ok #[]
      else ((Block.decode rest dictionary size).mapError (Error.shifted fieldSize)).bind
        fun output =>
          if output.size = size then .ok output
          else .error (.corruptInput (fieldSize + rest.size) .contentSizeMismatch) := by
  have read := natAt_ofNat_append (by decide) (lt_of_le_maxSize small) rest
  have total := size_field_append size rest
  unfold decode
  dsimp only
  rw [dropFirst_field_append, read, total, if_neg (Nat.not_lt_of_le (Nat.le_add_right _ _)),
    if_neg (Nat.not_lt_of_le small)]
  split
  · rfl
  · congr 1
    funext output
    by_cases fills : output.size = size
    · rw [if_pos fills, if_neg (not_not_intro fills)]
      rfl
    · rw [if_neg fills, if_pos fills]
      rfl

theorem decode_zero (rest dictionary : Bytes) :
    decode (Bytes.ofNat fieldSize 0 ++ rest) dictionary = .ok #[] :=
  (decode_field_append (Nat.zero_le _) rest dictionary).trans (if_pos rfl)

theorem decode_of_error (small : size ≤ maxSize) (positive : 0 < size)
    (refused : Block.decode rest dictionary size = .error error) :
    decode (Bytes.ofNat fieldSize size ++ rest) dictionary = .error (error.shifted fieldSize) := by
  rw [decode_field_append small, if_neg (Nat.ne_of_gt positive), refused]
  rfl

theorem decode_of_ok (small : size ≤ maxSize) (positive : 0 < size)
    (decoded : Block.decode rest dictionary size = .ok content) :
    decode (Bytes.ofNat fieldSize size ++ rest) dictionary =
      if content.size = size then .ok content
      else .error (.corruptInput (fieldSize + rest.size) .contentSizeMismatch) := by
  rw [decode_field_append small, if_neg (Nat.ne_of_gt positive), decoded]
  rfl

end Reading

/-- A container with another size in front. -/
def resized (data : Bytes) (size : Nat) : Bytes :=
  Bytes.ofNat fieldSize size ++ data.dropFirst fieldSize

variable {input dictionary block : Bytes} {mode : Mode}

theorem compress_of_nonempty (nonempty : 0 < input.size)
    (compressed : Block.compress input dictionary mode = .ok block) :
    compress input dictionary mode = .ok (Bytes.ofNat fieldSize input.size ++ block) := by
  have some : ¬ input.isEmpty = true := by
    rw [Array.isEmpty_iff]
    exact Array.size_pos_iff.mp nonempty
  unfold compress
  dsimp only
  rw [if_neg some, compressed]
  rfl

theorem resized_append (size other : Nat) (rest : Bytes) :
    resized (Bytes.ofNat fieldSize size ++ rest) other = Bytes.ofNat fieldSize other ++ rest := by
  rw [resized, dropFirst_field_append]

/-- A block that expands to some content is refused behind any size but that of the content. -/
theorem decode_of_mismatch {content : Bytes} (expands : Expands block dictionary content)
    {size : Nat} (small : size ≤ maxSize) (positive : 0 < size) :
    (size < content.size → ∃ offset, fieldSize ≤ offset ∧ offset ≤ fieldSize + block.size ∧
      decode (Bytes.ofNat fieldSize size ++ block) dictionary =
        .error (.corruptInput offset .outputOverrun)) ∧
    (content.size < size → decode (Bytes.ofNat fieldSize size ++ block) dictionary =
      .error (.corruptInput (fieldSize + block.size) .contentSizeMismatch)) := by
  constructor
  · intro lacking
    obtain ⟨offset, within, refused⟩ := decode_of_noRoom expands lacking
    exact ⟨fieldSize + offset, Nat.le_add_right _ _, Nat.add_le_add_left within _,
      decode_of_error small positive refused⟩
  · intro roomy
    have decoded := decode_eq_ok_iff.mpr ⟨expands, Nat.le_of_lt roomy⟩
    rw [decode_of_ok small positive decoded, if_neg (Nat.ne_of_lt roomy)]

/-- An input that is not too long is read back from its container, whatever the dictionary and the
mode. With any other size in front that is not zero, the container of an input that is not empty is
refused: there is no room for the input if the size is too small, and the input is not as long as
announced if it is too large. -/
theorem decode_resized {input : Bytes} (short : input.size ≤ maxInputSize) (dictionary : Bytes)
    (mode : Mode) :
    ∃ data, compress input dictionary mode = .ok data ∧ decode data dictionary = .ok input ∧
      resized data input.size = data ∧
      (0 < input.size → ∀ size, 0 < size → size ≤ maxSize →
        (size < input.size → ∃ offset, fieldSize ≤ offset ∧ offset ≤ data.size ∧
          decode (resized data size) dictionary = .error (.corruptInput offset .outputOverrun)) ∧
        (input.size < size → decode (resized data size) dictionary =
          .error (.corruptInput data.size .contentSizeMismatch))) := by
  rcases Nat.eq_zero_or_pos input.size with none | nonempty
  · obtain rfl : input = #[] := Array.size_eq_zero_iff.mp none
    have same := resized_append 0 0 #[]
    have read := decode_zero #[] dictionary
    rw [Array.append_empty] at same read
    exact ⟨Bytes.ofNat fieldSize 0, rfl, read, same, fun some => absurd some (Nat.lt_irrefl 0)⟩
  · obtain ⟨script, describes, -, compressed⟩ := exists_describes input dictionary mode
    rw [if_pos short] at compressed
    have small : input.size ≤ maxSize := Nat.le_trans short (by decide)
    have decoded := describes.decode (dictionary.extract 0 (dictionary.size - windowSize))
      (Nat.le_refl input.size)
    rw [dictionaryWindow, extract_append_takeLast] at decoded
    refine ⟨_, compress_of_nonempty nonempty compressed, ?_, resized_append _ _ _, ?_⟩
    · rw [decode_of_ok small nonempty decoded, if_pos rfl]
    · intro _ size positive allowed
      rw [resized_append, size_field_append]
      exact decode_of_mismatch (decode_eq_ok_iff.mp decoded).1 allowed positive

/-- An input of twelve bytes behind a dictionary, with eleven and thirteen in place of twelve. -/
theorem decode_resized_twelve :
    let input : Bytes := Array.replicate 12 7
    let dictionary : Bytes := #[1, 7, 7, 7, 7]
    ∃ data, compress input dictionary (.high 9) = .ok data ∧ decode data dictionary = .ok input ∧
      (∃ offset, decode (resized data 11) dictionary =
        .error (.corruptInput offset .outputOverrun)) ∧
      decode (resized data 13) dictionary =
        .error (.corruptInput data.size .contentSizeMismatch) := by
  intro input dictionary
  obtain ⟨data, compressed, read, -, refused⟩ :=
    @decode_resized input (by decide) dictionary (.high 9)
  obtain ⟨offset, -, -, noRoom⟩ := (refused (by decide) 11 (by decide) (by decide)).1 (by decide)
  have unfilled := (refused (by decide) 13 (by decide) (by decide)).2 (by decide)
  exact ⟨data, compressed, read, ⟨offset, noRoom⟩, unfilled⟩

/-- The containers of some content: its size, and a block that expands to it, or nothing if there is
no content. -/
def Container (data dictionary content : Bytes) : Prop :=
  content.size ≤ maxSize ∧ ∃ rest, data = Bytes.ofNat fieldSize content.size ++ rest ∧
    (Expands rest dictionary content ∨ content = #[] ∧ rest = #[])

section Accepted

variable {data dictionary content : Bytes} {error : Error}

/-- No size, a size that is too large, or a size that is not. -/
theorem size_field_cases (data : Bytes) :
    data.size < fieldSize ∨ (fieldSize ≤ data.size ∧ maxSize < data.natAt 0 fieldSize) ∨
      ∃ size rest, size ≤ maxSize ∧ data = Bytes.ofNat fieldSize size ++ rest := by
  rcases Nat.lt_or_ge data.size fieldSize with short | enough
  · exact .inl short
  rcases Nat.lt_or_ge maxSize (data.natAt 0 fieldSize) with large | small
  · exact .inr (.inl ⟨enough, large⟩)
  · have held := @holds_ofNat_natAt data 0 fieldSize (by decide) (by rwa [Nat.zero_add])
    have split := held.dropFirst_eq
    rw [dropFirst_zero] at split
    exact .inr (.inr ⟨_, _, small, split⟩)

theorem Container.decode_eq_ok (container : Container data dictionary content) :
    decode data dictionary = .ok content := by
  obtain ⟨small, rest, rfl, spells⟩ := container
  rcases spells with expands | ⟨rfl, rfl⟩
  · rcases Nat.eq_zero_or_pos content.size with none | positive
    · obtain rfl : content = #[] := Array.size_eq_zero_iff.mp none
      exact decode_zero rest dictionary
    · have decoded := decode_eq_ok_iff.mpr ⟨expands, Nat.le_refl content.size⟩
      rw [decode_of_ok small positive decoded, if_pos rfl]
  · exact decode_zero #[] dictionary

theorem container_or_zero_of_decode (decoded : decode data dictionary = .ok content) :
    Container data dictionary content ∨
      content = #[] ∧ ∃ rest, data = Bytes.ofNat fieldSize 0 ++ rest := by
  rcases size_field_cases data with short | ⟨enough, large⟩ | ⟨size, rest, small, rfl⟩
  · rw [decode_of_short short] at decoded
    cases decoded
  · rw [decode_of_large enough large] at decoded
    cases decoded
  · rcases Nat.eq_zero_or_pos size with rfl | positive
    · rw [decode_zero] at decoded
      cases decoded
      exact .inr ⟨rfl, rest, rfl⟩
    · cases expanded : Block.decode rest dictionary size with
      | error stopped =>
        rw [decode_of_error small positive expanded] at decoded
        cases decoded
      | ok output =>
        rw [decode_of_ok small positive expanded] at decoded
        split at decoded
        · rename_i fills
          cases decoded
          subst fills
          exact .inl ⟨small, rest, rfl, .inl (decode_eq_ok_iff.mp expanded).1⟩
        · cases decoded

/-- What is wrong behind a size is found behind the size and no later than at the end. -/
theorem exists_offset_of_decode_error (refused : decode data dictionary = .error error) :
    (data.size < fieldSize ∧ error = .invalidArgument .sizeMissing) ∨
    (fieldSize ≤ data.size ∧ maxSize < data.natAt 0 fieldSize ∧
      error = .invalidArgument .sizeTooLarge) ∨
    ∃ offset reason, error = .corruptInput offset reason ∧ fieldSize ≤ offset ∧
      offset ≤ data.size := by
  rcases size_field_cases data with short | ⟨enough, large⟩ | ⟨size, rest, small, rfl⟩
  · rw [decode_of_short short] at refused
    cases refused
    exact .inl ⟨short, rfl⟩
  · rw [decode_of_large enough large] at refused
    cases refused
    exact .inr (.inl ⟨enough, large, rfl⟩)
  · right; right
    rw [size_field_append]
    rcases Nat.eq_zero_or_pos size with rfl | positive
    · rw [decode_zero] at refused
      cases refused
    · cases expanded : Block.decode rest dictionary size with
      | error stopped =>
        rw [decode_of_error small positive expanded] at refused
        cases refused
        obtain ⟨offset, reason, rfl, within, -⟩ := decode_eq_error expanded
        exact ⟨fieldSize + offset, reason, rfl, Nat.le_add_right _ _,
          Nat.add_le_add_left within _⟩
      | ok output =>
        rw [decode_of_ok small positive expanded] at refused
        split at refused
        · cases refused
        · cases refused
          exact ⟨_, _, rfl, Nat.le_add_right _ _, Nat.le_refl _⟩

/-- Accepted are the containers of some content, and a size of zero with anything behind it, for no
content. Everything else is refused: for want of a size, for a size that is too large, or at some
place behind the size. -/
theorem decode_container_or_zero (data dictionary : Bytes) :
    (∀ content, decode data dictionary = .ok content ↔
      Container data dictionary content ∨
        content = #[] ∧ ∃ rest, data = Bytes.ofNat fieldSize 0 ++ rest) ∧
    (∀ error, decode data dictionary = .error error →
      (data.size < fieldSize ∧ error = .invalidArgument .sizeMissing) ∨
      (fieldSize ≤ data.size ∧ maxSize < data.natAt 0 fieldSize ∧
        error = .invalidArgument .sizeTooLarge) ∨
      ∃ offset reason, error = .corruptInput offset reason ∧ fieldSize ≤ offset ∧
        offset ≤ data.size) := by
  refine ⟨fun content => ⟨container_or_zero_of_decode, ?_⟩,
    fun error => exists_offset_of_decode_error⟩
  rintro (container | ⟨rfl, rest, rfl⟩)
  · exact container.decode_eq_ok
  · exact decode_zero rest dictionary

/-- Four bytes behind a size of zero that are no block. -/
theorem decode_rest_ignored :
    decode #[0, 0, 0, 0, 0x6a, 0x75, 0x6e, 0x6b] #[] = .ok #[] ∧
      ¬ Container #[0, 0, 0, 0, 0x6a, 0x75, 0x6e, 0x6b] #[] #[] := by
  refine ⟨by decide, ?_⟩
  rintro ⟨-, rest, split, spells⟩
  obtain rfl : #[0x6a, 0x75, 0x6e, 0x6b] = rest :=
    (congrArg (Bytes.dropFirst · fieldSize) split).trans (dropFirst_field_append 0 rest)
  rcases spells with expands | ⟨-, nothing⟩
  · have decoded := decode_eq_ok_iff.mpr ⟨expands, Nat.le_refl 0⟩
    have stopped : Block.decode #[0x6a, 0x75, 0x6e, 0x6b] #[] 0 =
        .error (.corruptInput 1 .literalOverrun) := by cbv
    cases stopped.symm.trans decoded
  · cases nothing

end Accepted

end Lz4.Block.Sized
