import Lz4.Proofs.Block.Grammar

/-!
# History and output

A match reaches back through the output into the history, and it does not matter to it where one
ends and the other begins: it is copied as if the two were one byte string
(`Lz4.Block.copyMatch_joined`). So a block is decoded in the same way whether what it refers to is
kept apart or stands in front of the output already. It is accepted in both cases or refused in
both, for the same reason and at the same offset, and gives the same output behind what was there
(`Lz4.Block.decodeOnto_joined`).
-/

namespace Lz4.Block

open Bytes

variable {block history output : Bytes} {limit distance : Nat}

/-- A match that can be copied from the history and the output is copied in the same way when the
output starts with the history. -/
theorem copyMatch_joined (positive : 1 ≤ distance) (reach : distance ≤ history.size + output.size)
    (length : Nat) :
    copyMatch #[] (history ++ output) distance length =
      history ++ copyMatch history output distance length := by
  have reachJoined : distance ≤ (#[] : Bytes).size + (history ++ output).size := by
    rw [Array.size_append]
    exact Nat.le_trans reach (Nat.le_add_left _ _)
  calc copyMatch #[] (history ++ output) distance length
      = #[] ++ copyMatch #[] (history ++ output) distance length := Array.empty_append.symm
    _ = copyBytewise (#[] ++ (history ++ output)) distance length :=
        append_copyMatch positive reachJoined length
    _ = copyBytewise (history ++ output) distance length := by rw [Array.empty_append]
    _ = history ++ copyMatch history output distance length :=
        (append_copyMatch positive reach length).symm

/-- Whether a match is refused does not depend on where the history ends, nor does what it adds. -/
theorem appendMatch_joined (history output : Bytes) (distance length : Nat) :
    appendMatch #[] (history ++ output) distance length =
      ((appendMatch history output distance length).1,
        history ++ (appendMatch history output distance length).2) := by
  have available : (#[] : Bytes).size + (history ++ output).size =
      history.size + output.size := by
    rw [Array.size_append]
    exact Nat.zero_add _
  unfold appendMatch
  rw [available]
  cases fault : distanceFault (history.size + output.size) distance with
  | some reason => rfl
  | none =>
    obtain ⟨positive, reach⟩ := distanceFault_eq_none_iff.mp fault
    dsimp only
    rw [copyMatch_joined positive reach]

/-- What was decoded, with other bytes in front of the output. -/
abbrev Decoded.behind (decoded : Decoded) (front : Bytes) : Decoded :=
  { decoded with output := front ++ decoded.output }

/-- If it makes no difference to the sequences that follow, it makes none to a match whether the
history is kept apart from the output. -/
theorem decodeMatch_joined {matchPos : Nat}
    (onward : ∀ next grown, matchPos < next →
      decodeFrom block #[] (history.size + limit) next (history ++ grown) =
        (decodeFrom block history limit next grown).behind history) (token : Nat) (output : Bytes) :
    decodeMatch block #[] (history.size + limit) token matchPos (history ++ output) =
      (decodeMatch block history limit token matchPos output).behind history := by
  unfold decodeMatch
  split
  · rfl
  · split
    · rfl
    · cases read : Length.read block (matchPos + 2) (token % 16) with
      | error => rfl
      | ok found =>
        obtain ⟨extra, next⟩ := found
        have later := Length.le_of_read read
        dsimp only
        rw [Array.size_append]
        by_cases full : limit < output.size + (extra + minMatch)
        · rw [if_pos (by omega), if_pos full]
          rfl
        · rw [if_neg (by omega), if_neg full]
          rw [appendMatch_joined]
          rcases appendMatch history output (block.natAt matchPos 2) (extra + minMatch) with
            ⟨_ | reason, grown⟩
          · exact onward next grown (by omega)
          · rfl

/-- The sequences from a position on are decoded in the same way whether the history is kept apart
from the output or stands in front of it. -/
theorem decodeFrom_joined (block history output : Bytes) (limit pos : Nat) :
    decodeFrom block #[] (history.size + limit) pos (history ++ output) =
      (decodeFrom block history limit pos output).behind history := by
  by_cases inside : pos < block.size
  · rw [decodeFrom_of_inside inside, decodeFrom_of_inside inside]
    cases read : Length.read block (pos + 1) ((block.byteAt pos).toNat / 16) with
    | error => rfl
    | ok found =>
      obtain ⟨literals, start⟩ := found
      have later := Length.le_of_read read
      dsimp only
      rw [Array.size_append]
      split
      · rfl
      · by_cases full : limit < output.size + literals
        · rw [if_pos (by omega), if_pos full]
          rfl
        · rw [if_neg (by omega), if_neg full, Array.append_assoc]
          apply decodeMatch_joined
          intro next grown further
          exact decodeFrom_joined block history grown limit next
  · rw [decodeFrom, decodeFrom, dif_neg inside, dif_neg inside]
    rfl
termination_by block.size - pos

/-- A history that is kept apart and one that the output starts with are interchangeable. A block is
accepted with both or with neither, and refused for the same reason and at the same offset. In
either case the output is the same, with the history in front of it if it was there before. -/
theorem decodeOnto_joined (block history output : Bytes) (capacity : Nat) :
    decodeOnto block #[] (history ++ output) capacity =
      ⟨history ++ (decodeOnto block history output capacity).output,
        (decodeOnto block history output capacity).fault⟩ := by
  unfold decodeOnto
  rw [Array.size_append, Nat.add_assoc]
  exact decodeFrom_joined block history output (output.size + capacity) 0

-- A match of six bytes starts in the history, goes on in the output and then repeats itself.
example : decodeOnto #[0x02, 3, 0, 0x00] #[1, 2] #[3] 6 = ⟨#[3, 1, 2, 3, 1, 2, 3], none⟩ ∧
    decodeOnto #[0x02, 3, 0, 0x00] #[] #[1, 2, 3] 6 =
      ⟨#[1, 2, 3, 1, 2, 3, 1, 2, 3], none⟩ := by
  cbv

end Lz4.Block
