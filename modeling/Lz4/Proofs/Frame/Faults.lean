import Lz4.Proofs.Block.Grammar
import Lz4.Proofs.Frame.Drive
import Lz4.Proofs.Frame.Header

/-!
# What a refused record leaves behind

A run stops with a fault where the record that it collected is refused, or where its frame has ended
and data follow (`Lz4.Frame.Run.exists_last_of_fault`). A header and a block that are refused leave
the decoder as it was, but for the buffer in which the block was being expanded. A length and a
content checksum are taken out before they are refused, and the checksum of the content so far is
given up with them (`Lz4.Frame.Run.Refused`). Whatever is refused, the error names an offset and a
reason (`Lz4.Frame.Run.corruptInput_of_drive`).
-/

namespace Lz4.Frame

/-- The content is not as long as the header announces. -/
def Decoder.Miscounted (decoder : Decoder) : Prop :=
  ∃ size, decoder.header.bind Header.knownContentSize = some size ∧ size.toNat ≠ decoder.decoded

namespace Run

variable {run : Run} {data : Bytes}

/-- A run without the record that it collected. -/
def emptied (run : Run) : Run := { run with decoder := { run.decoder with pending := #[] } }

/-- A run without its content checksum, and without the checksum of the content to compare. -/
def unsummed (run : Run) : Run :=
  { run with decoder := { run.decoder with pending := #[], hasher := none } }

/-- What comes of a record that is refused, with an offset and a reason. -/
inductive Refused (run : Run) (offset : Nat) : Corruption → Run → Prop
  | header (stage : run.decoder.stage = .header) (reason : Corruption)
      (ofHeader : reason.ofHeader = true)
      (parsed : Header.parse run.decoder.pending = .error (.corruptInput offset reason)) :
    Refused run offset reason (run.corrupt offset reason)
  | tooLarge (stage : run.decoder.stage = .blockLength) :
    Refused run offset .blockTooLarge (run.emptied.corrupt offset .blockTooLarge)
  | miscounted (stage : run.decoder.stage = .blockLength)
      (unchecked : run.decoder.announces (·.contentChecksum) = false) :
    Refused run offset .contentSizeMismatch (run.emptied.corrupt offset .contentSizeMismatch)
  | block {stored : Bool} {size : Nat} (stage : run.decoder.stage = .block stored size)
      (reason : Corruption) (ofBlock : reason.ofBlock = true) (buffer : Bytes) :
    Refused run offset reason ((run.withBuffer buffer).corrupt offset reason)
  | wrongSum (stage : run.decoder.stage = .contentChecksum) :
    Refused run offset .contentChecksum (run.unsummed.corrupt offset .contentChecksum)
  | summedMiscounted (stage : run.decoder.stage = .contentChecksum)
      (differs : run.decoder.Miscounted) :
    Refused run offset .contentSizeMismatch (run.unsummed.corrupt offset .contentSizeMismatch)

theorem finish_cases (run : Run) :
    run.finish = { run with decoder := { run.decoder with stage := .complete } } ∨
      run.decoder.Miscounted ∧ run.finish = run.corrupt run.decoder.position .contentSizeMismatch := by
  unfold finish
  dsimp only
  split
  · rename_i size known
    split
    · exact .inl rfl
    · rename_i differs
      exact .inr ⟨⟨size, known, differs⟩, rfl⟩
  · exact .inl rfl

theorem finish_of_miscounted (differs : run.decoder.Miscounted) :
    run.finish = run.corrupt run.decoder.position .contentSizeMismatch := by
  obtain ⟨size, known, differs⟩ := differs
  unfold finish
  dsimp only
  rw [known]
  exact if_neg differs

theorem refused_readHeader (sound : run.fault = none) (stage : run.decoder.stage = .header) :
    run.readHeader.fault = none ∨ ∃ offset reason, run.Refused offset reason run.readHeader := by
  unfold readHeader
  cases parsed : Header.parse run.decoder.pending with
  | ok found => exact .inl sound
  | error error =>
    obtain ⟨offset, reason, rfl, ofHeader⟩ := Header.corruptInput_of_parse parsed
    exact .inr ⟨offset, reason, .header stage reason ofHeader parsed⟩

theorem refused_readBlockLength (sound : run.fault = none) (start : Nat)
    (stage : run.decoder.stage = .blockLength) :
    (run.readBlockLength start).fault = none ∨
      ∃ offset reason, run.Refused offset reason (run.readBlockLength start) := by
  unfold readBlockLength
  dsimp only
  split
  · split
    · exact .inl sound
    · rename_i unchecked
      rcases run.emptied.finish_cases with ended | ⟨-, refused⟩
      · exact .inl (ended ▸ sound)
      · refine .inr ⟨run.decoder.position, .contentSizeMismatch, ?_⟩
        change run.Refused _ _ run.emptied.finish
        rw [refused]
        exact .miscounted stage (Bool.of_not_eq_true unchecked)
  · split
    · exact .inr ⟨start, _, .tooLarge stage⟩
    · exact .inl sound

theorem refused_readBlock {stored : Bool} {size : Nat} (sound : run.fault = none) (start : Nat)
    (stage : run.decoder.stage = .block stored size) :
    (run.readBlock stored size start).fault = none ∨
      ∃ offset reason, run.Refused offset reason (run.readBlock stored size start) := by
  unfold readBlock
  dsimp only
  split
  · exact .inr ⟨_, _, .block stage _ rfl run.decoder.buffer⟩
  · split
    · exact .inl sound
    · rcases run.expandBlock_cases (run.decoder.pending.extract 0 size) _ start with
        ⟨block, -, same⟩ | ⟨error, buffer, refused, same⟩
      · exact same ▸ .inl sound
      · obtain ⟨offset, reason, rfl, -, ofBlock⟩ := Block.decode_eq_error refused
        exact same ▸ .inr ⟨start + offset, reason, .block stage reason ofBlock buffer⟩

theorem refused_readContentChecksum (sound : run.fault = none) (start : Nat)
    (stage : run.decoder.stage = .contentChecksum) :
    (run.readContentChecksum start).fault = none ∨
      ∃ offset reason, run.Refused offset reason (run.readContentChecksum start) := by
  have finished : run.unsummed.finish.fault = none ∨
      ∃ offset reason, run.Refused offset reason run.unsummed.finish := by
    rcases run.unsummed.finish_cases with ended | ⟨differs, refused⟩
    · exact .inl (ended ▸ sound)
    · refine .inr ⟨run.decoder.position, .contentSizeMismatch, ?_⟩
      rw [refused]
      exact .summedMiscounted stage differs
  unfold readContentChecksum
  dsimp only
  split
  · exact finished
  · split
    · exact finished
    · exact .inr ⟨start, _, .wrongSum stage⟩

/-- Acting on a record goes well, or the record is refused. -/
theorem refused_advance (sound : run.fault = none) :
    run.advance.fault = none ∨ ∃ offset reason, run.Refused offset reason run.advance := by
  unfold advance
  dsimp only
  split
  · rename_i stage
    exact refused_readHeader sound stage
  · rename_i stage
    exact refused_readBlockLength sound _ stage
  · rename_i stage
    exact refused_readBlock sound _ stage
  · rename_i stage
    exact refused_readContentChecksum sound _ stage
  · exact .inl sound
  · exact .inl sound

theorem Refused.fault_eq {offset : Nat} {reason : Corruption} {after : Run}
    (refused : run.Refused offset reason after) :
    after.fault = some (.corruptInput offset reason) := by
  cases refused <;> rfl

/-- A run that stops with a fault was sound up to a place where the size of a header could not be
told, or a record was refused, or data followed the end of the frame. -/
inductive Stops (data : Bytes) (last : Run) : Error → Run → Prop
  | required {error : Error} (collecting : last.decoder.collects = true)
      (refused : last.decoder.required = .error error) :
    Stops data last error { last with fault := some error }
  | record {size offset : Nat} {reason : Corruption} (collecting : last.decoder.collects = true)
      (required : last.decoder.required = .ok size) (collected : size ≤ last.decoder.pending.size)
      (refused : last.Refused offset reason last.advance) :
    Stops data last (.corruptInput offset reason) last.advance
  | trailing (ended : last.decoder.stage = .complete) :
    Stops data last (.corruptInput last.decoder.position .trailingData)
      (last.corrupt last.decoder.position .trailingData)

theorem exists_last_of_fault {error : Error} (sound : run.fault = none)
    (fault : (run.drive data).fault = some error) :
    ∃ last : Run, last.fault = none ∧ Stops data last error (run.drive data) := by
  fun_induction drive run data with
  | case1 run other faulty => cases sound.symm.trans faulty
  | case2 run sound collecting other refused =>
    cases fault
    exact ⟨run, sound, .required collecting refused⟩
  | case3 run sound collecting size required lacking more stop ih => exact ih sound fault
  | case4 run sound collecting size required lacking all => cases sound.symm.trans fault
  | case5 run sound collecting size required collected ih =>
    rcases refused_advance sound with going | ⟨offset, reason, refused⟩
    · exact ih going fault
    · have stopped := @drive_of_fault run.advance data _ refused.fault_eq
      rw [stopped] at fault ⊢
      cases refused.fault_eq.symm.trans fault
      exact ⟨run, sound, .record collecting required (Nat.le_of_not_lt collected) refused⟩
  | case6 run sound idle remaining skipping taken all ih => exact ih sound fault
  | case7 run sound idle remaining skipping taken some => cases sound.symm.trans fault
  | case8 run sound idle trailing other =>
    cases fault
    exact ⟨run, sound, .trailing (complete_of_idle idle other)⟩
  | case9 run sound idle quiet other => cases sound.symm.trans fault

/-- Only the size of a header can fail to be told. -/
theorem stage_of_required {decoder : Decoder} {error : Error}
    (refused : decoder.required = .error error) :
    decoder.stage = .header ∧ Header.requiredSize decoder.pending = .error error := by
  unfold Decoder.required at refused
  split at refused
  · rename_i stage
    exact ⟨stage, refused⟩
  all_goals cases refused

/-- Whatever is refused, the input is at fault. -/
theorem corruptInput_of_drive {error : Error} (sound : run.fault = none)
    (fault : (run.drive data).fault = some error) :
    ∃ offset reason, error = .corruptInput offset reason := by
  obtain ⟨last, -, stops⟩ := exists_last_of_fault sound fault
  generalize run.drive data = after at stops
  cases stops with
  | required collecting refused =>
    obtain ⟨offset, reason, same, -⟩ :=
      Header.corruptInput_of_requiredSize (stage_of_required refused).2
    exact ⟨offset, reason, same⟩
  | record => exact ⟨_, _, rfl⟩
  | trailing => exact ⟨_, _, rfl⟩

end Run

end Lz4.Frame
