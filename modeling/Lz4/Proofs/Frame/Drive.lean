import Lz4.Frame.Decode
import Lz4.Proofs.Bytes.Content

/-!
# Steps of a decoder at work

A run goes on by one of a few steps, each of which is a lemma here: it takes in bytes for the record
that it collects, acts on the record, passes over bytes, or stops. A run that stopped without a
fault has taken in all data, unless its frame has ended and data after it are left alone
(`Lz4.Frame.Run.drive_consumes`).
-/

namespace Lz4.Frame.Run

open Bytes

variable {run : Run} {data : Bytes}

theorem drive_of_fault {error : Error} (fault : run.fault = some error) : run.drive data = run := by
  unfold drive
  split
  · rfl
  · rename_i sound
    rw [sound] at fault
    cases fault

/-- What a run does while it collects a record. -/
theorem drive_of_collects (sound : run.fault = none) (collecting : run.decoder.collects = true) :
    run.drive data =
      match run.decoder.required with
      | .error error => { run with fault := some error }
      | .ok size =>
        if run.decoder.pending.size < size then
          if run.consumed < data.size then
            (run.collect (data.extract run.consumed
              (run.consumed + (size - run.decoder.pending.size)))).drive data
          else run
        else run.advance.drive data := by
  conv => lhs; unfold drive
  split
  · rename_i fault
    rw [sound] at fault
    cases fault
  · rw [dif_pos collecting]
    split
    · rename_i refused
      rw [refused]
    · rename_i required
      rw [required]
      dsimp only
      split
      · split <;> rfl
      · rfl

theorem drive_of_error {error : Error} (sound : run.fault = none)
    (collecting : run.decoder.collects = true) (refused : run.decoder.required = .error error) :
    run.drive data = { run with fault := some error } := by
  rw [drive_of_collects sound collecting, refused]

variable {size : Nat}

theorem drive_of_lacking (sound : run.fault = none) (collecting : run.decoder.collects = true)
    (required : run.decoder.required = .ok size) (lacking : run.decoder.pending.size < size)
    (more : run.consumed < data.size) :
    run.drive data =
      (run.collect (data.extract run.consumed
        (run.consumed + (size - run.decoder.pending.size)))).drive data := by
  rw [drive_of_collects sound collecting, required]
  dsimp only
  rw [if_pos lacking, if_pos more]

theorem drive_of_starved (sound : run.fault = none) (collecting : run.decoder.collects = true)
    (required : run.decoder.required = .ok size) (lacking : run.decoder.pending.size < size)
    (all : data.size ≤ run.consumed) : run.drive data = run := by
  rw [drive_of_collects sound collecting, required]
  dsimp only
  rw [if_pos lacking, if_neg (Nat.not_lt_of_le all)]

theorem drive_of_collected (sound : run.fault = none) (collecting : run.decoder.collects = true)
    (required : run.decoder.required = .ok size) (collected : size ≤ run.decoder.pending.size) :
    run.drive data = run.advance.drive data := by
  rw [drive_of_collects sound collecting, required]
  dsimp only
  rw [if_neg (Nat.not_lt_of_le collected)]

@[simp] theorem fault_collect (run : Run) (bytes : Bytes) :
    (run.collect bytes).fault = run.fault := rfl

@[simp] theorem collects_collect (run : Run) (bytes : Bytes) :
    (run.collect bytes).decoder.collects = run.decoder.collects := rfl

theorem required_collect (run : Run) (bytes : Bytes) :
    (run.collect bytes).decoder.required =
      match run.decoder.stage with
      | .header => Header.requiredSize (run.decoder.pending ++ bytes)
      | _ => run.decoder.required := by
  obtain ⟨⟨options, stage, header, pending, position, window, hasher, decoded, buffer⟩, output,
    consumed, fault⟩ := run
  cases stage <;> rfl

theorem collect_empty (run : Run) : run.collect #[] = run := by
  obtain ⟨⟨options, stage, header, pending, position, window, hasher, decoded, buffer⟩, output,
    consumed, fault⟩ := run
  simp only [collect, Array.append_empty, List.size_toArray, List.length_nil, Nat.add_zero]

/-- A record whose size is known is taken in as a whole and acted on. -/
theorem drive_of_holds {piece : Bytes} (sound : run.fault = none)
    (collecting : run.decoder.collects = true) (past : run.decoder.stage ≠ .header)
    (empty : run.decoder.pending = #[]) (required : run.decoder.required = .ok piece.size)
    (held : data.Holds run.consumed piece) :
    run.drive data = (run.collect piece).advance.drive data := by
  have within := held.within
  have nothing : run.decoder.pending.size = 0 := by
    rw [empty]
    rfl
  have same : (run.collect piece).decoder.required = .ok piece.size := by
    rw [required_collect]
    split
    · rename_i stage
      exact absurd stage past
    · exact required
  have all : piece.size ≤ (run.collect piece).decoder.pending.size := by
    apply Nat.le_of_eq
    rw [pending_collect, empty, Array.empty_append]
  have acts := @drive_of_collected (run.collect piece) data piece.size
    ((fault_collect run piece).trans sound) ((collects_collect run piece).trans collecting) same all
  rcases Nat.eq_zero_or_pos piece.size with none | some
  · have nothingHeld : piece = #[] := Array.size_eq_zero_iff.mp none
    rw [← acts, nothingHeld, collect_empty]
  · rw [drive_of_lacking sound collecting required (by omega) (by omega), nothing, Nat.sub_zero,
      held.extract_eq]
    exact acts

theorem drive_of_skip {remaining : Nat} (sound : run.fault = none)
    (skipping : run.decoder.stage = .skip remaining) :
    run.drive data =
      if min remaining (data.size - run.consumed) = remaining then
        (run.pass remaining .complete).drive data
      else
        run.pass (data.size - run.consumed) (.skip (remaining - (data.size - run.consumed))) := by
  have idle : ¬ run.decoder.collects = true := by simp [Decoder.collects, skipping]
  conv => lhs; unfold drive
  split
  · rename_i fault
    rw [sound] at fault
    cases fault
  · rw [dif_neg idle]
    split
    · rename_i same
      rw [skipping] at same
      cases same
      dsimp only
      split
      · rename_i all
        rw [all]
      · rename_i some
        have rest : min remaining (data.size - run.consumed) = data.size - run.consumed := by omega
        rw [rest]
    · rename_i other
      exact absurd skipping (other remaining)

theorem drive_of_complete (sound : run.fault = none) (ended : run.decoder.stage = .complete) :
    run.drive data =
      if run.consumed < data.size ∧ run.decoder.options.stopAtFrameEnd = false then
        run.corrupt run.decoder.position .trailingData
      else run := by
  have idle : ¬ run.decoder.collects = true := by simp [Decoder.collects, ended]
  unfold drive
  split
  · rename_i fault
    rw [sound] at fault
    cases fault
  · rw [dif_neg idle]
    split
    · rename_i same
      rw [ended] at same
      cases same
    · rfl

theorem drive_of_ended (sound : run.fault = none)
    (ended : run.decoder.stage = .complete) (all : run.consumed = data.size) :
    run.drive data = run := by
  rw [drive_of_complete sound ended, if_neg]
  intro trailing
  omega

theorem complete_of_idle {decoder : Decoder} (idle : ¬ decoder.collects = true)
    (other : ∀ remaining, decoder.stage = .skip remaining → False) : decoder.stage = .complete := by
  unfold Decoder.collects at idle
  split at idle
  · rename_i remaining skipping
    exact absurd skipping (other remaining)
  · assumption
  · exact absurd rfl idle

/-- A run that stops without a fault has taken in all data, or its frame has ended and data after it
are left alone. -/
theorem drive_consumes (within : run.consumed ≤ data.size)
    (stopped : (run.drive data).fault = none) :
    (run.drive data).consumed = data.size ∨
      (run.drive data).consumed < data.size ∧ (run.drive data).decoder.stage = .complete ∧
        (run.drive data).decoder.options.stopAtFrameEnd = true := by
  fun_induction drive run data with
  | case1 run error fault =>
    rw [fault] at stopped
    cases stopped
  | case2 run sound collecting error refused => cases stopped
  | case3 run sound collecting size required lacking more stop ih =>
    apply ih _ stopped
    rw [consumed_collect, Array.size_extract]
    omega
  | case4 run sound collecting size required lacking all =>
    exact Or.inl (Nat.le_antisymm within (Nat.le_of_not_lt all))
  | case5 run sound collecting size required collected ih =>
    apply ih _ stopped
    rwa [run.unmoved_advance.consumed]
  | case6 run sound idle remaining skipping taken all ih =>
    apply ih _ stopped
    simp only [pass]
    omega
  | case7 run sound idle remaining skipping taken some =>
    left
    simp only [pass]
    omega
  | case8 run sound idle trailing other => cases stopped
  | case9 run sound idle quiet other =>
    have ended := complete_of_idle idle other
    by_cases all : run.consumed < data.size
    · refine Or.inr ⟨all, ended, ?_⟩
      exact Bool.of_not_eq_false fun going => quiet ⟨all, going⟩
    · exact Or.inl (Nat.le_antisymm within (Nat.le_of_not_lt all))

/-- Taking in data leaves the options alone. -/
theorem options_drive (run : Run) (data : Bytes) :
    (run.drive data).decoder.options = run.decoder.options := by
  fun_induction drive run data with
  | case1 | case2 | case4 | case7 | case8 | case9 => rfl
  | case3 run sound collecting size required lacking more stop ih => exact ih
  | case5 run sound collecting size required collected ih =>
    exact ih.trans run.unmoved_advance.options
  | case6 run sound idle remaining skipping taken all ih => exact ih

end Lz4.Frame.Run
