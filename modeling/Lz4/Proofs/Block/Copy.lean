import Lz4.Block.Copy
import Lz4.Proofs.Bytes.Content
import Mathlib.Logic.Function.Iterate

/-!
# Copies of earlier bytes

A copy adds bytes each of which repeats the one at a distance before it (`Lz4.Block.Repeats`). That
pins the result down (`Lz4.Block.Repeats.unique`), so every fast way to copy gives what copying byte
by byte gives. A match that starts in the history copies from the history and the output as if they
were one byte string (`Lz4.Block.append_copyMatch`). A match that has no place to be copied from is
refused and adds nothing; every other one adds what comes of adding one byte at a time
(`Lz4.Block.appendMatch_eq_bytewise`).
-/

namespace Lz4.Block

open Bytes

variable {before after further history output : Bytes} {distance length : Nat}

/-- The second byte string is the first and `length` more bytes, each of which repeats the one at
`distance` before it. -/
structure Repeats (before after : Bytes) (distance length : Nat) : Prop where
  size : after.size = before.size + length
  kept : ∀ pos < before.size, after.byteAt pos = before.byteAt pos
  back : ∀ pos, before.size ≤ pos → pos < after.size →
    after.byteAt pos = after.byteAt (pos - distance)

namespace Repeats

theorem refl (output : Bytes) (distance : Nat) : Repeats output output distance 0 :=
  ⟨rfl, fun _ _ => rfl, fun _ late inside => absurd inside (Nat.not_lt_of_le late)⟩

theorem trans {more : Nat} (positive : 1 ≤ distance) (first : Repeats before after distance length)
    (second : Repeats after further distance more) :
    Repeats before further distance (length + more) := by
  have grown := first.size
  refine ⟨by rw [second.size, grown, Nat.add_assoc], ?_, ?_⟩
  · intro pos inside
    rw [second.kept pos (by omega), first.kept pos inside]
  · intro pos late inside
    by_cases early : pos < after.size
    · rw [second.kept pos early, second.kept (pos - distance) (by omega),
        first.back pos late early]
    · exact second.back pos (Nat.le_of_not_lt early) inside

/-- There is one way to copy. -/
theorem unique {other : Bytes} (positive : 1 ≤ distance) (reach : distance ≤ before.size)
    (first : Repeats before after distance length)
    (second : Repeats before other distance length) : after = other := by
  have same : ∀ pos, pos < before.size + length → after.byteAt pos = other.byteAt pos := by
    intro pos
    induction pos using Nat.strongRecOn with
    | ind pos ih =>
      intro inside
      by_cases early : pos < before.size
      · rw [first.kept pos early, second.kept pos early]
      · have late := Nat.le_of_not_lt early
        rw [first.back pos late (first.size ▸ inside), second.back pos late (second.size ▸ inside)]
        exact ih (pos - distance) (by omega) (by omega)
  apply eq_of_byteAt (first.size.trans second.size.symm)
  intro pos inside
  exact same pos (first.size ▸ inside)

/-- A copy reaches back through what comes before it. -/
theorem append_left (front : Bytes) (reach : distance ≤ before.size)
    (copied : Repeats before after distance length) :
    Repeats (front ++ before) (front ++ after) distance length := by
  have grown := copied.size
  refine ⟨by simp only [Array.size_append]; omega, ?_, ?_⟩
  · intro pos inside
    rw [Array.size_append] at inside
    by_cases inFront : pos < front.size
    · rw [byteAt_append_left inFront, byteAt_append_left inFront]
    · obtain ⟨offset, rfl⟩ := Nat.exists_eq_add_of_le (Nat.le_of_not_lt inFront)
      rw [byteAt_append_right, byteAt_append_right, copied.kept offset (by omega)]
  · intro pos late inside
    rw [Array.size_append] at late inside
    obtain ⟨offset, rfl⟩ := Nat.exists_eq_add_of_le (Nat.le_trans (Nat.le_add_right _ _) late)
    rw [Nat.add_sub_assoc (by omega), byteAt_append_right, byteAt_append_right]
    exact copied.back offset (by omega) (by omega)

/-- Bytes that go round in the last `distance` bytes are a copy. -/
theorem of_cyclic (positive : 1 ≤ distance) (reach : distance ≤ before.size) (added : Bytes)
    (cyclic : ∀ index < added.size,
      added.byteAt index = before.byteAt (before.size - distance + index % distance)) :
    Repeats before (before ++ added) distance added.size := by
  refine ⟨Array.size_append, fun pos inside => byteAt_append_left inside, ?_⟩
  intro pos late inside
  rw [Array.size_append] at inside
  obtain ⟨index, rfl⟩ := Nat.exists_eq_add_of_le late
  rw [byteAt_append_right, cyclic index (by omega)]
  by_cases early : index < distance
  · rw [Nat.mod_eq_of_lt early, byteAt_append_left (by omega)]
    congr 1
    omega
  · have round : index % distance = (index - distance) % distance :=
      Nat.mod_eq_sub_mod (Nat.le_of_not_lt early)
    rw [Nat.add_sub_assoc (Nat.le_of_not_lt early), byteAt_append_right,
      cyclic (index - distance) (by omega), round]

end Repeats

/-- A text and one more byte, the one at a distance before its end. -/
def repeatByte (distance : Nat) (text : Bytes) : Bytes :=
  text.push (text.byteAt (text.size - distance))

theorem copyBytewise_eq_iterate (output : Bytes) (distance length : Nat) :
    copyBytewise output distance length = (repeatByte distance)^[length] output := by
  induction length generalizing output with
  | zero => rfl
  | succ length ih => exact ih (repeatByte distance output)

/-- Copying byte by byte adds as many bytes as are asked for. -/
theorem exists_copyBytewise (output : Bytes) (distance length : Nat) :
    ∃ copied, copyBytewise output distance length = output ++ copied ∧ copied.size = length := by
  induction length generalizing output with
  | zero => exact ⟨#[], Array.append_empty.symm, rfl⟩
  | succ length ih =>
    obtain ⟨copied, grown, size⟩ := ih (output.push (output.byteAt (output.size - distance)))
    refine ⟨#[output.byteAt (output.size - distance)] ++ copied, ?_, ?_⟩
    · rw [copyBytewise, grown, ← Array.append_singleton, Array.append_assoc]
    · rw [Array.size_append, size, Nat.add_comm]
      rfl

theorem size_copyBytewise (output : Bytes) (distance length : Nat) :
    (copyBytewise output distance length).size = output.size + length := by
  obtain ⟨copied, grown, size⟩ := exists_copyBytewise output distance length
  rw [grown, Array.size_append, size]

theorem repeats_copyBytewise (positive : 1 ≤ distance) (reach : distance ≤ output.size)
    (length : Nat) : Repeats output (copyBytewise output distance length) distance length := by
  induction length generalizing output with
  | zero => exact Repeats.refl output distance
  | succ length ih =>
    rw [copyBytewise]
    have step :
        Repeats output (output.push (output.byteAt (output.size - distance))) distance 1 := by
      rw [← Array.append_singleton]
      apply Repeats.of_cyclic positive reach #[_]
      intro index inside
      obtain rfl : index = 0 := Nat.lt_one_iff.mp inside
      rw [Nat.zero_mod]
      rfl
    have grown : distance ≤ (output.push (output.byteAt (output.size - distance))).size := by
      rw [Array.size_push]
      omega
    have rest := ih grown
    rw [Nat.add_comm]
    exact step.trans positive rest

/-- Tiles are what was there and the tile over and over. -/
theorem exists_appendTiles (output tile : Bytes) (count : Nat) :
    ∃ added : Bytes, appendTiles output tile count = output ++ added ∧
      added.size = count * tile.size ∧
      ∀ index < added.size, added.byteAt index = tile.byteAt (index % tile.size) := by
  induction count generalizing output with
  | zero => exact ⟨#[], by simp [appendTiles], by simp, by simp⟩
  | succ count ih =>
    obtain ⟨added, made, size, same⟩ := ih (output ++ tile)
    refine ⟨tile ++ added, ?_, ?_, ?_⟩
    · rw [appendTiles, made, Array.append_assoc]
    · rw [Array.size_append, size, Nat.succ_mul, Nat.add_comm]
    · intro index inside
      rw [Array.size_append] at inside
      by_cases first : index < tile.size
      · rw [byteAt_append_left first, Nat.mod_eq_of_lt first]
      · obtain ⟨offset, rfl⟩ := Nat.exists_eq_add_of_le (Nat.le_of_not_lt first)
        rw [byteAt_append_right, same offset (by omega), Nat.add_mod_left]

theorem byteAt_takeLast {count index : Nat} (reach : count ≤ output.size) (inside : index < count) :
    byteAt (output.takeLast count) index = output.byteAt (output.size - count + index) :=
  byteAt_extract (Nat.le_refl _) (by omega)

theorem repeats_copyTiled (positive : 1 ≤ distance) (reach : distance ≤ output.size)
    (divides : distance ∣ 16) (length : Nat) :
    Repeats output (copyTiled output distance length) distance length := by
  have period : (output.takeLast distance).size = distance := by
    rw [size_takeLast]
    omega
  obtain ⟨tile, made, tileSize, tiled⟩ :=
    exists_appendTiles #[] (output.takeLast distance) (16 / distance)
  rw [Array.empty_append] at made
  rw [period, Nat.div_mul_cancel divides] at tileSize
  obtain ⟨full, laid, fullSize, repeated⟩ := exists_appendTiles output tile (length / 16)
  rw [tileSize] at fullSize repeated
  -- A tile has a whole number of periods, so it goes round in the last bytes as well.
  have round : ∀ index < 16,
      tile.byteAt index = output.byteAt (output.size - distance + index % distance) := by
    intro index inside
    rw [tiled index (by omega), period, byteAt_takeLast reach (Nat.mod_lt _ positive)]
  have size : (full ++ tile.extract 0 (length % 16)).size = length := by
    rw [Array.size_append, Array.size_extract, fullSize, tileSize]
    omega
  have cyclic : Repeats output (output ++ (full ++ tile.extract 0 (length % 16))) distance
      (full ++ tile.extract 0 (length % 16)).size := by
    apply Repeats.of_cyclic positive reach
    intro index inside
    rw [size] at inside
    by_cases early : index < full.size
    · rw [byteAt_append_left early, repeated index early, round _ (Nat.mod_lt _ (by decide)),
        Nat.mod_mod_of_dvd index divides]
    · obtain ⟨offset, rfl⟩ := Nat.exists_eq_add_of_le (Nat.le_of_not_lt early)
      have whole : distance ∣ full.size := fullSize ▸ Nat.dvd_mul_left_of_dvd divides _
      obtain ⟨periods, whole⟩ := whole
      rw [byteAt_append_right, byteAt_extract (by omega) (by omega), Nat.zero_add,
        round offset (by omega), whole, Nat.mul_add_mod]
  rw [size] at cyclic
  simp only [copyTiled, made, laid, Array.append_assoc]
  exact cyclic

theorem repeats_copyWithin (positive : 1 ≤ distance) (reach : distance ≤ output.size)
    (length : Nat) : Repeats output (copyWithin output distance length) distance length := by
  unfold copyWithin
  split
  · rename_i one
    subst one
    have filled := Repeats.of_cyclic positive reach
      (Array.replicate length (output.byteAt (output.size - 1))) (by
        intro index inside
        rw [Array.size_replicate] at inside
        rw [byteAt_eq_getElem (by rwa [Array.size_replicate]), Array.getElem_replicate,
          Nat.mod_one, Nat.add_zero])
    rwa [Array.size_replicate] at filled
  · split
    · rename_i apart
      have size : (output.extract (output.size - distance)
          (output.size - distance + length)).size = length :=
        size_extract_add (by omega)
      have copied := Repeats.of_cyclic positive reach
        (output.extract (output.size - distance) (output.size - distance + length)) (by
          intro index inside
          rw [size] at inside
          rw [byteAt_extract (by omega) (by omega), Nat.mod_eq_of_lt (by omega)])
      rwa [size] at copied
    · split
      · rename_i short
        apply repeats_copyTiled positive reach
        rcases short with rfl | rfl | rfl <;> decide
      · exact repeats_copyBytewise positive reach length

/-- Copying a match reads the history and the output as one byte string. -/
theorem repeats_copyMatch (positive : 1 ≤ distance)
    (reach : distance ≤ history.size + output.size) (length : Nat) :
    Repeats (history ++ output) (history ++ copyMatch history output distance length) distance
      length := by
  unfold copyMatch
  by_cases within : distance ≤ output.size
  · rw [if_pos within]
    exact (repeats_copyWithin positive within length).append_left history within
  · rw [if_neg within]
    extract_lets lacking start count extended
    have all : distance ≤ (history ++ output).size := by rwa [Array.size_append]
    have size : (history.extract start (start + count)).size = count :=
      size_extract_add (by omega)
    have fromHistory : Repeats (history ++ output) (history ++ extended) distance count := by
      have cyclic := Repeats.of_cyclic positive all (history.extract start (start + count))
        (by
          intro index inside
          rw [size] at inside
          have place : (history ++ output).size - distance + index % distance = start + index := by
            rw [Array.size_append, Nat.mod_eq_of_lt (by omega)]
            omega
          rw [place, byteAt_extract (by omega) (by omega), byteAt_append_left (by omega)])
      rwa [size, Array.append_assoc] at cyclic
    by_cases more : count < length
    · rw [if_pos more]
      have reached : distance ≤ extended.size := by
        simp only [extended, Array.size_append, size]
        omega
      have onward := (repeats_copyWithin positive reached (length - count)).append_left history
        reached
      have whole := fromHistory.trans positive onward
      rwa [Nat.add_sub_of_le (Nat.le_of_lt more)] at whole
    · rw [if_neg more]
      have whole : count = length := by omega
      rwa [whole] at fromHistory

/-- Copying a match is copying byte by byte from the history and the output. -/
theorem append_copyMatch (positive : 1 ≤ distance)
    (reach : distance ≤ history.size + output.size) (length : Nat) :
    history ++ copyMatch history output distance length =
      copyBytewise (history ++ output) distance length := by
  have all : distance ≤ (history ++ output).size := by rwa [Array.size_append]
  exact (repeats_copyMatch positive reach length).unique positive all
    (repeats_copyBytewise positive all length)

/-- A match that is in reach is copied byte by byte from the history and the output. -/
theorem exists_copyMatch (positive : 1 ≤ distance)
    (reach : distance ≤ history.size + output.size) (length : Nat) :
    ∃ copied, copyMatch history output distance length = output ++ copied ∧
      copyBytewise (history ++ output) distance length = history ++ output ++ copied ∧
      copied.size = length := by
  obtain ⟨copied, copy, size⟩ := exists_copyBytewise (history ++ output) distance length
  refine ⟨copied, ?_, copy, size⟩
  rw [← append_copyMatch positive reach, Array.append_assoc, Array.append_right_inj] at copy
  exact copy

theorem distanceFault_eq_none_iff {available distance : Nat} :
    distanceFault available distance = none ↔ 1 ≤ distance ∧ distance ≤ available := by
  unfold distanceFault
  split
  · simp only [reduceCtorEq, false_iff]
    omega
  · split
    · simp only [reduceCtorEq, false_iff]
      omega
    · simp only [true_iff]
      omega

/-- A match in reach is copied. -/
theorem appendMatch_of_reach (positive : 1 ≤ distance)
    (reach : distance ≤ history.size + output.size) (length : Nat) :
    appendMatch history output distance length =
      (none, copyMatch history output distance length) := by
  rw [appendMatch, distanceFault_eq_none_iff.mpr ⟨positive, reach⟩]

/-- Only a match in reach is copied. -/
theorem reach_of_appendMatch {grown : Bytes}
    (appended : appendMatch history output distance length = (none, grown)) :
    (1 ≤ distance ∧ distance ≤ history.size + output.size) ∧
      grown = copyMatch history output distance length := by
  unfold appendMatch at appended
  split at appended
  · cases appended
  · rename_i allowed
    cases appended
    exact ⟨distanceFault_eq_none_iff.mp allowed, rfl⟩

/-- A match that is refused leaves the output as it was. -/
theorem fault_of_appendMatch {left : Bytes} {reason : Corruption}
    (refused : appendMatch history output distance length = (some reason, left)) :
    distanceFault (history.size + output.size) distance = some reason ∧ left = output := by
  unfold appendMatch at refused
  split at refused
  · rename_i fault
    cases refused
    exact ⟨fault, rfl⟩
  · cases refused

/-- A match is appended exactly if there is something at its distance. Whatever way is taken to copy
it, what it adds is what is added one byte at a time, each the one at that distance before the end of
the history and all the output so far. Otherwise the output stays as it is, and the reason is that
the distance is zero, or that it reaches back too far. -/
theorem appendMatch_eq_bytewise (history output : Bytes) (distance length : Nat) :
    ((appendMatch history output distance length).1 = none ↔
        1 ≤ distance ∧ distance ≤ history.size + output.size) ∧
      ∃ copied : Bytes, copied.size = length ∧
        (repeatByte distance)^[length] (history ++ output) = history ++ output ++ copied ∧
        appendMatch history output distance length =
          if distance = 0 then (some .zeroOffset, output)
          else if history.size + output.size < distance then (some .offsetOutOfWindow, output)
          else (none, output ++ copied) := by
  obtain ⟨bytes, bytewise, size⟩ := exists_copyBytewise (history ++ output) distance length
  have fault : (appendMatch history output distance length).1 =
      distanceFault (history.size + output.size) distance := by
    unfold appendMatch
    cases distanceFault (history.size + output.size) distance <;> rfl
  refine ⟨by rw [fault, distanceFault_eq_none_iff], bytes, size, ?_, ?_⟩
  · rw [← copyBytewise_eq_iterate, bytewise]
  · by_cases zero : distance = 0
    · rw [if_pos zero, appendMatch, distanceFault, if_pos zero]
    · by_cases far : history.size + output.size < distance
      · rw [if_neg zero, if_pos far, appendMatch, distanceFault, if_neg zero, if_pos far]
      · have positive := Nat.one_le_iff_ne_zero.mpr zero
        have reach := Nat.le_of_not_lt far
        obtain ⟨copied, copy, expansion, -⟩ := exists_copyMatch positive reach length
        have same : copied = bytes := (Array.append_right_inj _).mp (expansion.symm.trans bytewise)
        rw [if_neg zero, if_neg far, appendMatch_of_reach positive reach, copy, same]

end Lz4.Block
