import Lz4.Proofs.Frame.Drive

/-!
# The buffer of a decoder

A decoder empties its buffer before it expands a block there. So the bytes that are left in it from
before are replaced or stay where they are, and nothing is decided by them: acting on a record does
the same whatever they are (`Lz4.Frame.Run.advance_withBuffer`), and so does a whole run
(`Lz4.Frame.Run.drive_withBuffer`).
-/

namespace Lz4.Frame

theorem Decoder.start_withBuffer (decoder : Decoder) (buffer : Bytes) (header : Header) :
    (decoder.withBuffer buffer).start header = (decoder.start header).withBuffer buffer := by
  unfold start
  split <;> rfl

namespace Run

theorem finish_withBuffer (run : Run) (buffer : Bytes) :
    (run.withBuffer buffer).finish = run.finish.withBuffer buffer := by
  unfold finish
  simp only [withBuffer, Decoder.withBuffer]
  cases run.decoder.header.bind Header.knownContentSize with
  | none => rfl
  | some size =>
    dsimp only
    by_cases same : size.toNat = run.decoder.decoded
    · rw [if_pos same, if_pos same]
    · rw [if_neg same, if_neg same]
      rfl

theorem readHeader_withBuffer (run : Run) (buffer : Bytes) :
    (run.withBuffer buffer).readHeader = run.readHeader.withBuffer buffer := by
  unfold readHeader
  dsimp only
  split
  · rfl
  · rw [Decoder.start_withBuffer]

theorem readBlockLength_withBuffer (run : Run) (buffer : Bytes) (start : Nat) :
    (run.withBuffer buffer).readBlockLength start =
      (run.readBlockLength start).withBuffer buffer := by
  have finished := finish_withBuffer
    { run with decoder := { run.decoder with pending := #[] } } buffer
  unfold readBlockLength
  dsimp only
  rw [apply_ite (withBuffer · buffer), apply_ite (withBuffer · buffer),
    apply_ite (withBuffer · buffer)]
  refine ite_congr rfl (fun _ => ite_congr rfl (fun _ => rfl) fun _ => finished) fun _ => ?_
  exact ite_congr rfl (fun _ => rfl) fun _ => rfl

/-- Other bytes in the buffer stay there, unless a block is expanded over them. -/
theorem readBlock_withBuffer (run : Run) (buffer : Bytes) (stored : Bool) (size start : Nat) :
    (run.withBuffer buffer).readBlock stored size start = run.readBlock stored size start ∨
      (run.withBuffer buffer).readBlock stored size start =
        (run.readBlock stored size start).withBuffer buffer := by
  -- The conditions do not look at the buffer, so the two sides take the same branch.
  by_cases mismatch : (run.decoder.announces (·.blockChecksums) &&
      run.decoder.pending.natAt size 4 !=
        (checksum (run.decoder.pending.extract 0 size)).toNat) = true
  · have refused : run.readBlock stored size start = _ := if_pos mismatch
    rw [refused]
    exact .inr (if_pos mismatch)
  · have accepted : run.readBlock stored size start = _ := if_neg mismatch
    rw [accepted]
    cases stored with
    | true => exact .inr (if_neg mismatch)
    | false => exact .inl ((if_neg mismatch).trans (run.expandBlock_withBuffer buffer _ _ start))

theorem readContentChecksum_withBuffer (run : Run) (buffer : Bytes) (start : Nat) :
    (run.withBuffer buffer).readContentChecksum start =
      (run.readContentChecksum start).withBuffer buffer := by
  obtain ⟨⟨options, stage, header, pending, position, window, hasher, decoded, held⟩, output,
    consumed, fault⟩ := run
  have finished := finish_withBuffer ⟨⟨options, stage, header, #[], position, window, none, decoded,
    held⟩, output, consumed, fault⟩ buffer
  simp only [readContentChecksum, withBuffer, Decoder.withBuffer] at finished ⊢
  cases hasher with
  | none => exact finished
  | some hasher =>
    dsimp only
    split
    · exact finished
    · rfl

/-- Acting on a record leaves other bytes in the buffer as they are, or replaces them unseen. -/
theorem advance_withBuffer (run : Run) (buffer : Bytes) :
    (run.withBuffer buffer).advance = run.advance ∨
      (run.withBuffer buffer).advance = run.advance.withBuffer buffer := by
  unfold advance
  dsimp only
  split
  · exact .inr (run.readHeader_withBuffer buffer)
  · exact .inr (run.readBlockLength_withBuffer buffer _)
  · exact run.readBlock_withBuffer buffer _ _ _
  · exact .inr (run.readContentChecksum_withBuffer buffer _)
  · exact .inr rfl
  · exact .inr rfl

/-- A run does the same whatever is in the buffer at first. -/
theorem drive_withBuffer (run : Run) (buffer data : Bytes) :
    ∃ left, (run.withBuffer buffer).drive data = (run.drive data).withBuffer left := by
  fun_induction drive run data generalizing buffer with
  | case1 run error fault => exact ⟨buffer, drive_of_fault fault⟩
  | case2 run sound collecting error refused =>
    exact ⟨buffer, drive_of_error sound collecting refused⟩
  | case3 run sound collecting size required lacking more stop ih =>
    rw [@drive_of_lacking (run.withBuffer buffer) data size sound collecting required lacking more]
    exact ih buffer
  | case4 run sound collecting size required lacking all =>
    exact ⟨buffer, @drive_of_starved (run.withBuffer buffer) data size sound collecting required
      lacking (Nat.le_of_not_lt all)⟩
  | case5 run sound collecting size required collected ih =>
    rw [@drive_of_collected (run.withBuffer buffer) data size sound collecting required
      (Nat.le_of_not_lt collected)]
    rcases run.advance_withBuffer buffer with replaced | kept
    · rw [replaced]
      exact ⟨(run.advance.drive data).decoder.buffer, rfl⟩
    · rw [kept]
      exact ih buffer
  | case6 run sound idle remaining skipping taken all ih =>
    rw [@drive_of_skip (run.withBuffer buffer) data remaining sound skipping, if_pos all]
    rw [show taken = remaining from all] at ih ⊢
    exact ih buffer
  | case7 run sound idle remaining skipping taken some =>
    have rest : taken = data.size - run.consumed := by omega
    rw [@drive_of_skip (run.withBuffer buffer) data remaining sound skipping, if_neg some, rest]
    exact ⟨buffer, rfl⟩
  | case8 run sound idle trailing other =>
    rw [@drive_of_complete (run.withBuffer buffer) data sound (complete_of_idle idle other),
      if_pos trailing]
    exact ⟨buffer, rfl⟩
  | case9 run sound idle quiet other =>
    rw [@drive_of_complete (run.withBuffer buffer) data sound (complete_of_idle idle other),
      if_neg quiet]
    exact ⟨buffer, rfl⟩

end Run

end Lz4.Frame
