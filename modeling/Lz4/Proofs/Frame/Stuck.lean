import Lz4.Proofs.Frame.Calls

/-!
# Decoders that cannot get on

A decoder that keeps a record that it refuses comes back to it with every call, and refuses it
again. A decoder that waits for a content checksum that it will not compare refuses the end of the
frame each time, if the content is not as long as announced. Such a decoder is stuck: as long as it
is not reset, and independent blocks keep their dictionary, it gives out no more content and does
not come to the end of its frame (`Lz4.Frame.Decoder.calls_of_stuck`). A reader that stands on it
and has given out what was decoded before fails from then on (`Lz4.Frame.Reader.calls_of_stuck`).
-/

namespace Lz4.Frame

namespace Decoder

variable {decoder : Decoder}

/-- An answer that gives out no content, of a decoder that has not come to the end of its frame. -/
structure Answer.Fruitless (answer : Answer) : Prop where
  incomplete : answer.isComplete = false
  nothing : ∀ content count, answer.result = .decoded (.ok (content, count)) → content = #[]

/-- A decoder that cannot get on. It has collected a record that it refuses, or it waits for a
content checksum that it will not compare, at the end of content that is not as long as
announced. -/
inductive Stuck (decoder : Decoder) : Prop
  | kept {error : Error} (collecting : decoder.collects = true)
      (collected : ∀ size, decoder.required = .ok size → size ≤ decoder.pending.size)
      (refused : decoder.fresh.advance = { decoder.fresh with fault := some error })
  | miscounted (stage : decoder.stage = .contentChecksum) (within : decoder.pending.size ≤ 4)
      (unsummed : decoder.hasher = none) (differs : decoder.Miscounted)

theorem Stuck.collecting (stuck : decoder.Stuck) : decoder.collects = true := by
  cases stuck with
  | kept collecting => exact collecting
  | miscounted stage => rw [collects, stage]

theorem Stuck.incomplete (stuck : decoder.Stuck) : decoder.isComplete = false := by
  have collecting := stuck.collecting
  rw [isComplete, beq_eq_false_iff_ne]
  intro complete
  rw [collects, complete] at collecting
  cases collecting

end Decoder

namespace Run

variable {run : Run} {data : Bytes}

/-- A record that is refused is refused whatever came before it. -/
theorem advance_eq_iff (sound : run.fault = none) {error : Error} :
    run.advance = { run with fault := some error } ↔
      run.decoder.fresh.advance = { run.decoder.fresh with fault := some error } := by
  obtain ⟨decoder, output, consumed, fault⟩ := run
  dsimp only at sound
  subst sound
  have moved := decoder.fresh.advance_behind output consumed
  simp only [behind, Array.append_empty, Nat.add_zero] at moved
  rw [moved]
  constructor
  · intro refused
    apply @eq_of_behind_eq _ _ output consumed
    simp only [behind, Array.append_empty, Nat.add_zero]
    exact refused
  · intro refused
    rw [refused]
    simp only [Array.append_empty, Nat.add_zero]

/-- A content checksum that is not compared ends the frame, unless the content is not as long as
announced. -/
theorem advance_of_unsummed (stage : run.decoder.stage = .contentChecksum)
    (unsummed : run.decoder.hasher = none) : run.advance = run.unsummed.finish := by
  rw [advance, stage]
  dsimp only
  rw [readContentChecksum]
  dsimp only
  rw [unsummed]
  rfl

/-- One run gives out no more content than another, in the same frame, and is stuck. -/
structure Halts (before after : Run) : Prop where
  stuck : after.decoder.Stuck
  output : after.output = before.output
  header : after.decoder.header = before.decoder.header

theorem halts_advance (sound : run.fault = none) (stuck : run.decoder.Stuck) :
    run.Halts run.advance := by
  cases stuck with
  | kept collecting collected refused =>
    rw [(advance_eq_iff sound).mpr refused]
    exact ⟨.kept collecting collected refused, rfl, rfl⟩
  | miscounted stage within unsummed differs =>
    have finished : run.unsummed.finish = _ := finish_of_miscounted differs
    rw [advance_of_unsummed stage unsummed, finished]
    exact ⟨.miscounted stage (Nat.zero_le 4) rfl differs, rfl, rfl⟩

theorem halts_drive (stuck : run.decoder.Stuck) (data : Bytes) : run.Halts (run.drive data) := by
  fun_induction drive run data with
  | case1 | case2 | case4 => exact ⟨stuck, rfl, rfl⟩
  | case3 run sound collecting size required lacking more stop ih =>
    -- A record that is kept lacks nothing, so only a content checksum is still being collected.
    cases stuck with
    | kept _ collected => exact absurd lacking (Nat.not_lt_of_le (collected size required))
    | miscounted stage within unsummed differs =>
      have taken : (run.collect (data.extract run.consumed stop)).decoder.pending.size ≤ 4 := by
        rw [Decoder.required, stage] at required
        cases required
        rw [pending_collect, Array.size_append, Array.size_extract]
        omega
      have rest := ih (.miscounted stage taken unsummed differs)
      exact ⟨rest.stuck, rest.output, rest.header⟩
  | case5 run sound collecting size required collected ih =>
    have step := halts_advance sound stuck
    have rest := ih step.stuck
    exact ⟨rest.stuck, rest.output.trans step.output, rest.header.trans step.header⟩
  | case6 run sound idle | case7 run sound idle | case8 run sound idle | case9 run sound idle =>
    exact absurd stuck.collecting idle

theorem readHeader_eq_iff (sound : run.fault = none) {error : Error} :
    run.readHeader = { run with fault := some error } ↔
      Header.parse run.decoder.pending = .error error := by
  unfold readHeader
  cases Header.parse run.decoder.pending with
  | error other => simp
  | ok found => simp [sound]

end Run

namespace Decoder

variable {decoder : Decoder}

/-- A decoder stays stuck under other options, unless independent blocks get another dictionary. -/
theorem Stuck.withOptions {options : Options} (stuck : decoder.Stuck)
    (same : decoder.announces (·.independentBlocks) = true →
      options.dictionary = decoder.options.dictionary) : (decoder.withOptions options).Stuck := by
  cases stuck with
  | @kept error collecting collected refused =>
    refine @Stuck.kept _ error collecting collected ?_
    by_cases stage : decoder.stage = .header
    · have parsed : Header.parse decoder.pending = .error error := by
        rw [Run.advance, stage] at refused
        exact (Run.readHeader_eq_iff rfl).mp refused
      rw [Run.advance, stage]
      exact (Run.readHeader_eq_iff rfl).mpr parsed
    · have advanced := @Run.advance_withOptions decoder.fresh options stage same
      rw [refused] at advanced
      exact advanced
  | miscounted stage within unsummed differs => exact .miscounted stage within unsummed differs

theorem size_pending_of_stuck (stuck : decoder.Stuck) (stage : decoder.stage = .header) :
    decoder.pending.size ≠ 0 := by
  cases stuck with
  | kept collecting collected refused =>
    intro empty
    have required : decoder.required = .ok 4 := by
      rw [Decoder.required, stage]
      dsimp only
      rw [Header.requiredSize, if_pos (by omega)]
    have whole := collected 4 required
    omega
  | miscounted other => cases stage.symm.trans other

theorem decode_of_stuck (stuck : decoder.Stuck) (data : Bytes) :
    (decoder.decode data).2.Stuck ∧ (decoder.decode data).2.header = decoder.header ∧
      ∀ content count, (decoder.decode data).1 = .ok (content, count) → content = #[] := by
  have halts := @Run.halts_drive decoder.fresh stuck data
  rw [decode_snd]
  refine ⟨halts.stuck, halts.header, ?_⟩
  intro content count given
  cases stopped : (decoder.fresh.drive data).fault with
  | some error =>
    rw [decode_of_fault stopped] at given
    cases given
  | none =>
    rw [decode_of_sound stopped] at given
    cases given
    exact halts.output

theorem readHeader_of_stuck (consistent : decoder.Consistent) (stuck : decoder.Stuck)
    (data : Bytes) : (decoder.readHeader data).2 = decoder := by
  unfold readHeader
  cases known : decoder.header with
  | some header => rfl
  | none =>
    dsimp only
    rw [if_pos (size_pending_of_stuck stuck (consistent.known.mpr known))]

theorem call_of_stuck (consistent : decoder.Consistent) (stuck : decoder.Stuck) {call : Call}
    (within : call ≠ .reset)
    (kept : decoder.announces (·.independentBlocks) = true →
      ∀ dictionary, call ≠ .setDictionary dictionary) :
    (answer (decoder.call call).1 (decoder.call call).2).Fruitless ∧
      (decoder.call call).2.Stuck ∧ (decoder.call call).2.header = decoder.header := by
  cases call with
  | decode data =>
    obtain ⟨still, header, nothing⟩ := decode_of_stuck stuck data
    refine ⟨⟨still.incomplete, ?_⟩, still, header⟩
    intro content count given
    exact nothing content count (Result.decoded.inj given)
  | readHeader data =>
    have still : (decoder.call (.readHeader data)).2 = decoder :=
      readHeader_of_stuck consistent stuck data
    rw [still]
    exact ⟨⟨stuck.incomplete, fun _ _ given => Result.noConfusion given⟩, stuck, rfl⟩
  | reset => exact absurd rfl within
  | setDictionary dictionary =>
    obtain ⟨window, set⟩ := call_setDictionary dictionary
    rw [set]
    have after : (decoder.withDictionary window).Stuck :=
      stuck.withOptions fun independent => absurd rfl (kept independent dictionary)
    exact ⟨⟨after.incomplete, fun _ _ given => Result.noConfusion given⟩, after, rfl⟩
  | verifyContent verify =>
    have after : (decoder.verifyContent verify).Stuck := stuck.withOptions fun _ => rfl
    exact ⟨⟨after.incomplete, fun _ _ given => Result.noConfusion given⟩, after, rfl⟩
  | stopAtFrameEnd stop =>
    have after : (decoder.stopAtFrameEnd stop).Stuck := stuck.withOptions fun _ => rfl
    exact ⟨⟨after.incomplete, fun _ _ given => Result.noConfusion given⟩, after, rfl⟩

/-- Whatever a stuck decoder is given and asked, no content comes of it, and the frame does not
end. -/
theorem calls_of_stuck (consistent : decoder.Consistent) (stuck : decoder.Stuck) {made : List Call}
    (within : .reset ∉ made)
    (kept : decoder.announces (·.independentBlocks) = true →
      ∀ dictionary, .setDictionary dictionary ∉ made) :
    ∀ answer ∈ (decoder.calls made).1, answer.Fruitless := by
  induction made generalizing decoder with
  | nil => simp [calls]
  | cons call rest ih =>
    obtain ⟨first, restWithin⟩ := not_or.mp (mt List.mem_cons.mpr within)
    obtain ⟨fruitless, still, header⟩ := call_of_stuck consistent stuck (Ne.symm first)
      fun independent dictionary same =>
        kept independent dictionary (same ▸ List.mem_cons_self)
    rw [calls_cons, List.forall_mem_cons]
    refine ⟨fruitless, ih (consistent_call consistent call) still restWithin ?_⟩
    rw [announces, header]
    exact fun independent dictionary set =>
      kept independent dictionary (List.mem_cons_of_mem _ set)

end Decoder

namespace Reader

variable {σ : Type} [Source σ] {reader : Reader σ}

/-- A reader whose decoder is stuck, and of which all decoded bytes were consumed. -/
structure Stuck (reader : Reader σ) : Prop where
  decoder : reader.decoder.Stuck
  drained : reader.taken = reader.buffer.size

theorem Stuck.pull (stuck : reader.Stuck) : reader.pull.2.Stuck := by
  obtain ⟨source, decoder, buffer, taken⟩ := reader
  obtain ⟨stuck, drained⟩ := stuck
  dsimp only at stuck drained
  unfold Reader.pull
  dsimp only
  split
  · exact ⟨stuck, drained⟩
  · split
    · exact ⟨stuck, drained⟩
    · rename_i bytes rest handed some
      obtain ⟨still, -, nothing⟩ := Decoder.decode_of_stuck stuck bytes
      generalize decoder.decode bytes = decoded at still nothing ⊢
      obtain ⟨error | ⟨content, count⟩, after⟩ := decoded
      · exact ⟨still, drained⟩
      · rw [nothing content count rfl]
        dsimp only
        rw [Array.append_empty]
        exact ⟨still, drained⟩

theorem refill_of_stuck (stuck : reader.Stuck) :
    (∃ error, reader.refill.1 = .error error) ∧ reader.refill.2.Stuck := by
  fun_induction refill reader with
  | case1 reader drained error after pulled =>
    have still := @Stuck.pull _ _ reader.clear ⟨stuck.decoder, rfl⟩
    rw [pulled] at still
    exact ⟨⟨error, rfl⟩, still⟩
  | case2 reader drained after pulled ih =>
    have still := @Stuck.pull _ _ reader.clear ⟨stuck.decoder, rfl⟩
    rw [pulled] at still
    exact ih still
  | case3 reader full => exact absurd ⟨stuck.drained, stuck.decoder.incomplete⟩ full

theorem header_of_stuck (stuck : reader.Stuck) : reader.header.2.Stuck := by
  fun_induction header reader with
  | case1 reader header known => exact stuck
  | case2 reader unknown error after pulled =>
    have still := stuck.pull
    rwa [pulled] at still
  | case3 reader unknown after pulled ih =>
    have still := stuck.pull
    rw [pulled] at still
    exact ih still

theorem call_of_stuck (stuck : reader.Stuck) (call : Call) :
    (∀ content, (reader.call call).1 ≠ .bytes (.ok content)) ∧ (reader.call call).2.Stuck := by
  obtain ⟨⟨error, failed⟩, still⟩ := refill_of_stuck stuck
  rcases refilled : reader.refill with ⟨outcome, after⟩
  rw [refilled] at failed still
  dsimp only at failed still
  subst failed
  cases call with
  | read count =>
    rw [call, read, refilled]
    exact ⟨by simp, still⟩
  | fill =>
    rw [call, fill, refilled]
    exact ⟨by simp, still⟩
  | consume count =>
    refine ⟨fun _ given => Result.noConfusion given, stuck.decoder, ?_⟩
    have drained := stuck.drained
    change min (reader.taken + count) reader.buffer.size = reader.buffer.size
    omega
  | header => exact ⟨fun _ given => Result.noConfusion given, header_of_stuck stuck⟩

/-- Whatever a stuck reader is asked, it gives out no bytes, and does not tell that there are none
left either. -/
theorem calls_of_stuck (stuck : reader.Stuck) (made : List Call) (content : Bytes) :
    .bytes (.ok content) ∉ (reader.calls made).1 := by
  induction made generalizing reader with
  | nil => exact List.not_mem_nil
  | cons call rest ih =>
    obtain ⟨unread, still⟩ := call_of_stuck stuck call
    rw [calls_cons, List.mem_cons, not_or]
    exact ⟨(unread content).symm, ih still⟩

end Reader

end Lz4.Frame
