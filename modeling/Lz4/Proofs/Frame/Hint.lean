import Lz4.Proofs.Frame.Cuts
import Lz4.Proofs.Frame.Faults

/-!
# What a decoder asks for

Between two pieces of its input a decoder waits for bytes of which it knows that they belong to its
frame (`Lz4.Frame.Decoder.Waits`). If it is given no more than it asks for, it takes in all that it
is given (`Lz4.Frame.Decoder.drive_of_hint`); if it is given less, nothing can be given out yet
(`Lz4.Frame.Decoder.output_of_short`).
-/

namespace Lz4.Frame

open Bytes

/-- A decoder between two pieces of its input: its frame has ended, or it passes over bytes and some
are left, or it collects a record that still lacks bytes. -/
inductive Decoder.Waits (decoder : Decoder) : Prop
  | ended (complete : decoder.stage = .complete)
  | skips {remaining : Nat} (skipping : decoder.stage = .skip remaining) (some : 0 < remaining)
  | lacks {size : Nat} (collecting : decoder.collects = true)
      (required : decoder.required = .ok size) (lacking : decoder.pending.size < size)

namespace Run

variable {run : Run} {data : Bytes}

/-- A run that stops without a fault leaves a decoder that waits. -/
theorem waits_drive (stopped : (run.drive data).fault = none) :
    (run.drive data).decoder.Waits := by
  fun_induction drive run data with
  | case1 run error fault => cases fault.symm.trans stopped
  | case2 | case8 => cases stopped
  | case3 run sound collecting size required lacking more stop ih => exact ih stopped
  | case4 run sound collecting size required lacking all => exact .lacks collecting required lacking
  | case5 run sound collecting size required collected ih => exact ih stopped
  | case6 run sound idle remaining skipping taken all ih => exact ih stopped
  | case7 run sound idle remaining skipping taken some => exact .skips rfl (by omega)
  | case9 run sound idle quiet other => exact .ended (complete_of_idle idle other)

theorem Refused.ne_trailingData {offset : Nat} {reason : Corruption} {after : Run}
    (refused : run.Refused offset reason after) : reason ≠ .trailingData := by
  rintro rfl
  cases refused with
  | header stage reason ofHeader parsed => cases ofHeader
  | block stage reason ofBlock => cases ofBlock

/-- A run that has taken in all data takes in no more, and does not complain that there is more
behind the frame. -/
theorem drive_of_all (sound : run.fault = none) (all : run.consumed = data.size) :
    (run.drive data).consumed = data.size ∧
      ∀ error, (run.drive data).fault = some error → error.corruption? ≠ some .trailingData := by
  fun_induction drive run data with
  | case1 run error fault => cases sound.symm.trans fault
  | case2 run sound collecting error refused =>
    refine ⟨all, ?_⟩
    rintro other same trailing
    cases same
    obtain ⟨offset, reason, rfl, ofHeader⟩ :=
      Header.corruptInput_of_requiredSize (stage_of_required refused).2
    cases trailing
    cases ofHeader
  | case3 run sound collecting size required lacking more stop ih => omega
  | case4 run sound collecting size required lacking none =>
    exact ⟨all, fun error fault => by cases sound.symm.trans fault⟩
  | case5 run sound collecting size required collected ih =>
    have still : run.advance.consumed = data.size := run.unmoved_advance.consumed.trans all
    rcases refused_advance sound with going | ⟨offset, reason, refused⟩
    · exact ih going still
    · rw [drive_of_fault refused.fault_eq]
      refine ⟨still, ?_⟩
      rintro other fault trailing
      cases refused.fault_eq.symm.trans fault
      cases trailing
      exact refused.ne_trailingData rfl
  | case6 run sound idle remaining skipping taken whole ih =>
    refine ih sound ?_
    simp only [pass]
    omega
  | case7 run sound idle remaining skipping taken some =>
    refine ⟨?_, fun error fault => by cases sound.symm.trans fault⟩
    simp only [pass]
    omega
  | case8 run sound idle trailing other => omega
  | case9 run sound idle quiet other =>
    exact ⟨all, fun error fault => by cases sound.symm.trans fault⟩

end Run

namespace Decoder

variable {decoder : Decoder} {piece : Bytes}

theorem inputHint_of_skip {remaining : Nat} (skipping : decoder.stage = .skip remaining) :
    decoder.inputHint = remaining := by
  rw [inputHint, skipping]

theorem inputHint_of_lacks {size : Nat} (collecting : decoder.collects = true)
    (required : decoder.required = .ok size) :
    decoder.inputHint = size - decoder.pending.size := by
  unfold inputHint
  rw [required]
  unfold collects at collecting
  split
  · rename_i complete
    rw [complete] at collecting
    cases collecting
  · rename_i skipping
    rw [skipping] at collecting
    cases collecting
  · rfl

/-- A decoder asks for something until its frame has ended. -/
theorem Waits.inputHint_pos (waits : decoder.Waits) (going : decoder.isComplete = false) :
    0 < decoder.inputHint := by
  cases waits with
  | ended complete => simp [isComplete, complete] at going
  | skips skipping some => rwa [inputHint_of_skip skipping]
  | lacks collecting required lacking =>
    rw [inputHint_of_lacks collecting required]
    exact Nat.sub_pos_of_lt lacking

/-- A piece of a record that is not longer than what the record lacks is taken into it as a
whole. -/
theorem drive_of_lacks {size : Nat} (collecting : decoder.collects = true)
    (required : decoder.required = .ok size) (lacking : decoder.pending.size < size)
    (few : decoder.pending.size + piece.size ≤ size) :
    decoder.fresh.drive piece = (decoder.fresh.collect piece).drive piece := by
  rcases Nat.eq_zero_or_pos piece.size with none | some
  · have nothing : piece = #[] := Array.size_eq_zero_iff.mp none
    rw [nothing, Run.collect_empty]
  · have enough : piece.size ≤ 0 + (size - decoder.pending.size) := by omega
    have whole : piece.extract 0 (0 + (size - decoder.pending.size)) = piece := by
      rw [extract_of_size_le enough, Array.extract_size]
    rw [@Run.drive_of_lacking decoder.fresh _ _ rfl collecting required lacking some]
    exact congrArg (fun part => (decoder.fresh.collect part).drive piece) whole

/-- Of what it asks for a decoder takes in everything, and does not complain that there is more
behind the frame. -/
theorem drive_of_hint (waits : decoder.Waits) (going : decoder.isComplete = false)
    (few : piece.size ≤ decoder.inputHint) :
    (decoder.fresh.drive piece).consumed = piece.size ∧
      ∀ error, (decoder.fresh.drive piece).fault = some error →
        error.corruption? ≠ some .trailingData := by
  cases waits with
  | ended complete => simp [isComplete, complete] at going
  | @skips remaining skipping some =>
    rw [inputHint_of_skip skipping] at few
    rw [Run.drive_of_skip rfl skipping]
    split
    · rename_i all
      have taken : remaining = piece.size := by omega
      exact @Run.drive_of_all (decoder.fresh.pass remaining .complete) piece rfl
        (by simp only [Run.pass]; omega)
    · refine ⟨?_, fun error fault => by cases fault⟩
      simp only [Run.pass]
      omega
  | lacks collecting required lacking =>
    rw [inputHint_of_lacks collecting required] at few
    rw [drive_of_lacks collecting required lacking (by omega)]
    exact Run.drive_of_all rfl (Nat.zero_add _)

/-- A decoder that is given less than it asks for gives out nothing. -/
theorem output_of_short (waits : decoder.Waits) (few : piece.size < decoder.inputHint) :
    (decoder.fresh.drive piece).output = #[] := by
  cases waits with
  | ended complete => simp [inputHint, complete] at few
  | @skips remaining skipping some =>
    rw [inputHint_of_skip skipping] at few
    rw [Run.drive_of_skip rfl skipping, if_neg (by dsimp only; omega)]
    rfl
  | @lacks size collecting required lacking =>
    rw [inputHint_of_lacks collecting required] at few
    rw [drive_of_lacks collecting required lacking (by omega)]
    -- With the piece the record is at least as long as it was before, so it still lacks bytes.
    cases later : (decoder.fresh.collect piece).decoder.required with
    | error error =>
      rw [Run.drive_of_error rfl collecting later]
      rfl
    | ok larger =>
      have grown := Run.le_required_collect required later
      rw [Run.drive_of_starved rfl collecting later]
      · rfl
      · rw [Run.pending_collect, Array.size_append]
        dsimp only
        omega
      · exact Nat.le_of_eq (Nat.zero_add _).symm

end Decoder

end Lz4.Frame
