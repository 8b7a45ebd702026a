import Lz4.Block.Greedy
import Lz4.Proofs.Block.Describes

/-!
# Greedy compression is sound

Whatever its table proposes, the greedy compressor writes the pieces of a script that describes its
input (`Lz4.Block.Greedy.writes_compress`): a proposal is used only where the bytes agree. The
script depends on the input and the table, not on the sink; the sink decides how many of the pieces
it takes.
-/

namespace Lz4.Block.Greedy

/-- What is repeated is an occurrence. -/
theorem occurs_of_repeated {input : Bytes} {cursor candidate : Nat}
    (roomForMatch : cursor + endMargin ≤ input.size)
    (long : minMatch ≤ repeated input cursor candidate) :
    Occurs input cursor candidate (repeated input cursor candidate) := by
  unfold repeated at long ⊢
  split at long
  · rename_i reachable
    rw [if_pos reachable]
    have agreement := Bytes.agreement_commonFront input cursor (input.size - lastLiterals) input
      candidate input.size
    have short := agreement.length_le
    have clear : cursor + input.commonFront cursor (input.size - lastLiterals) input candidate
        input.size + lastLiterals ≤ input.size := by
      simp only [endMargin, lastLiterals] at roomForMatch short ⊢
      omega
    exact ⟨reachable.1, reachable.2, roomForMatch, clear, agreement.same⟩
  · exact absurd long (by decide)

theorem writes_scan {τ : Type} [MatchTable τ] {input : Bytes} (acceleration : Nat)
    {anchor cursor : Nat} (misses : Nat) (table : τ) (onward : anchor ≤ cursor)
    (within : anchor ≤ input.size) :
    Writes input anchor fun sink =>
      (scan input acceleration anchor cursor misses table sink).outcome := by
  by_cases nearEnd : input.size < cursor + endMargin
  · apply Writes.last within
    intro sink
    rw [scan, dif_pos nearEnd]
    rfl
  · rcases exchanged : MatchTable.exchange table input cursor with ⟨candidate, seen⟩
    by_cases tooShort : repeated input cursor candidate < minMatch
    · have further := writes_scan acceleration (misses + 1) seen
        (Nat.le_trans onward (Nat.le_add_right cursor (max 1 (stride acceleration misses)))) within
      obtain ⟨script, describes, written⟩ := further
      refine ⟨script, describes, ?_⟩
      intro sink
      dsimp only
      rw [scan, dif_neg nearEnd]
      simp only [exchanged, dif_pos tooShort]
      exact written sink
    · have long := Nat.le_of_not_lt tooShort
      have roomForMatch := Nat.le_of_not_lt nearEnd
      have occurs := occurs_of_repeated roomForMatch long
      rcases passed : MatchTable.exchange seen input
        (cursor + repeated input cursor candidate - 2) with ⟨ignored, table'⟩
      have further := writes_scan acceleration 0 table'
        (Nat.le_refl (cursor + repeated input cursor candidate)) occurs.within
      apply Writes.sequence further (fun script describes =>
        Script.Describes.matched occurs onward long rfl describes)
      intro sink
      conv => lhs; rw [scan, dif_neg nearEnd]
      simp only [exchanged, dif_neg tooShort, passed]
      split <;> rfl
termination_by input.size - cursor
decreasing_by
  all_goals simp only [endMargin, minMatch] at *; omega

/-- The greedy compressor writes a script of its input. -/
theorem writes_compress {τ : Type} [MatchTable τ] {input : Bytes} {cursor : Nat}
    (acceleration : Nat) (table : τ) (within : cursor ≤ input.size) :
    Writes input cursor fun sink => (compress input cursor acceleration table sink).outcome := by
  simp only [compress, if_pos within]
  exact writes_scan (max 1 acceleration) 0 table (Nat.le_refl cursor) within

end Lz4.Block.Greedy
