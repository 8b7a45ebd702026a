import Lz4.Frame.Reader
import Lz4.Proofs.Frame.Cuts
import Lz4.Proofs.Frame.Faults

/-!
# Calls of decoders and readers

What can be asked of a decoder, in any order, and what a caller sees of it
(`Lz4.Frame.Decoder.calls`); and the same of a reader (`Lz4.Frame.Reader.calls`). However a decoder
was called, it knows the header of its frame exactly when it is past the header, and waits for a
content checksum only if one is announced (`Lz4.Frame.Decoder.consistent_calls`). While it is past
the header it looks at its options in two places only: the dictionary is read for independent
blocks, and what is to be done behind the frame at its end. Other options make no difference to a
run (`Lz4.Frame.Run.drive_withOptions`).
-/

namespace Lz4.Frame

namespace Decoder

/-- What can be asked of a decoder. -/
inductive Call where
  | decode (data : Bytes)
  | readHeader (data : Bytes)
  | reset
  | setDictionary (dictionary : Bytes)
  | verifyContent (verify : Bool)
  | stopAtFrameEnd (stop : Bool)
  deriving Repr, DecidableEq

/-- What a call returns. -/
inductive Result where
  | decoded (result : Except Error (Bytes × Nat))
  | header (result : Except Error (Header × Nat))
  | nothing

/-- What a caller sees of a call: its result, and then whether the frame has ended, how many bytes
are needed, and the header if it is known. -/
structure Answer where
  result : Result
  isComplete : Bool
  inputHint : Nat
  header : Option Header

def call (decoder : Decoder) : Call → Result × Decoder
  | .decode data =>
    match decoder.decode data with
    | (result, after) => (.decoded result, after)
  | .readHeader data =>
    match decoder.readHeader data with
    | (result, after) => (.header result, after)
  | .reset => (.nothing, decoder.reset)
  | .setDictionary dictionary => (.nothing, decoder.setDictionary dictionary)
  | .verifyContent verify => (.nothing, decoder.verifyContent verify)
  | .stopAtFrameEnd stop => (.nothing, decoder.stopAtFrameEnd stop)

/-- What a caller sees of a decoder after a call. -/
def answer (result : Result) (after : Decoder) : Answer :=
  ⟨result, after.isComplete, after.inputHint, after.header⟩

/-- Makes calls in order. -/
def calls (decoder : Decoder) : List Call → List Answer × Decoder
  | [] => ([], decoder)
  | call :: rest =>
    match decoder.call call with
    | (result, after) =>
      match after.calls rest with
      | (answers, last) => (answer result after :: answers, last)

/-- A decoder knows the header of its frame exactly when it is past the header, and waits for a
content checksum only if one is announced. -/
structure Consistent (decoder : Decoder) : Prop where
  known : decoder.stage = .header ↔ decoder.header = none
  summed : decoder.stage = .contentChecksum → decoder.announces (·.contentChecksum) = true

end Decoder

namespace Run

variable {run : Run}

/-- A run past the header stays past it, keeps the header, and comes to a content checksum only if
one is announced. -/
structure Onward (before after : Run) : Prop where
  past : after.decoder.stage ≠ .header
  header : after.decoder.header = before.decoder.header
  summed : after.decoder.stage = .contentChecksum →
    before.decoder.stage = .contentChecksum ∨ before.decoder.announces (·.contentChecksum) = true

namespace Onward

variable {before middle after : Run}

theorem refl (past : before.decoder.stage ≠ .header) : before.Onward before := ⟨past, rfl, .inl⟩

theorem trans (first : before.Onward middle) (second : middle.Onward after) :
    before.Onward after := by
  refine ⟨second.past, second.header.trans first.header, ?_⟩
  intro summing
  rcases second.summed summing with atSum | announced
  · exact first.summed atSum
  · rw [Decoder.announces, first.header] at announced
    exact .inr announced

end Onward

theorem onward_finish (past : run.decoder.stage ≠ .header) : run.Onward run.finish := by
  rcases run.finish_cases with ended | ⟨-, refused⟩
  · rw [ended]
    exact ⟨by simp, rfl, by simp⟩
  · rw [refused]
    exact ⟨past, rfl, .inl⟩

theorem onward_readBlockLength (past : run.decoder.stage ≠ .header) (start : Nat) :
    run.Onward (run.readBlockLength start) := by
  have emptied : run.Onward run.emptied := ⟨past, rfl, .inl⟩
  unfold readBlockLength
  dsimp only
  split
  · split
    · rename_i announced
      exact ⟨by simp, rfl, fun _ => .inr announced⟩
    · exact emptied.trans (@onward_finish run.emptied past)
  · split
    · exact ⟨past, rfl, .inl⟩
    · exact ⟨by simp, rfl, by simp⟩

theorem onward_readBlock (past : run.decoder.stage ≠ .header) (stored : Bool) (size start : Nat) :
    run.Onward (run.readBlock stored size start) := by
  have added : ∀ content, run.Onward (run.addContent content) :=
    fun _ => ⟨by simp [addContent], rfl, by simp [addContent]⟩
  unfold readBlock
  dsimp only
  split
  · exact ⟨past, rfl, .inl⟩
  · split
    · exact added _
    · rcases run.expandBlock_cases (run.decoder.pending.extract 0 size) _ start with
        ⟨block, -, same⟩ | ⟨error, buffer, -, same⟩
      · have expanded := added block
        exact same ▸ ⟨expanded.past, expanded.header, expanded.summed⟩
      · exact same ▸ ⟨past, rfl, .inl⟩

theorem onward_readContentChecksum (past : run.decoder.stage ≠ .header) (start : Nat) :
    run.Onward (run.readContentChecksum start) := by
  have unsummed : run.Onward run.unsummed := ⟨past, rfl, .inl⟩
  have finished := unsummed.trans (@onward_finish run.unsummed past)
  unfold readContentChecksum
  dsimp only
  split
  · exact finished
  · split
    · exact finished
    · exact ⟨past, rfl, .inl⟩

theorem onward_advance (past : run.decoder.stage ≠ .header) : run.Onward run.advance := by
  unfold advance
  dsimp only
  split
  · rename_i stage
    exact absurd stage past
  · exact onward_readBlockLength past _
  · exact onward_readBlock past _ _ _
  · exact onward_readContentChecksum past _
  · exact .refl past
  · exact .refl past

theorem onward_pass (run : Run) (count : Nat) (stage : Stage) (past : stage ≠ .header)
    (unsummed : stage ≠ .contentChecksum) : run.Onward (run.pass count stage) :=
  ⟨past, rfl, fun summing => absurd summing unsummed⟩

theorem onward_drive (past : run.decoder.stage ≠ .header) (data : Bytes) :
    run.Onward (run.drive data) := by
  fun_induction drive run data with
  | case1 | case2 | case4 | case8 | case9 => exact ⟨past, rfl, .inl⟩
  | case3 run sound collecting size required lacking more stop ih =>
    have taken : run.Onward (run.collect (data.extract run.consumed stop)) := ⟨past, rfl, .inl⟩
    exact taken.trans (ih past)
  | case5 run sound collecting size required collected ih =>
    have step := onward_advance past
    exact step.trans (ih step.past)
  | case6 run sound idle remaining skipping taken all ih =>
    have passed := run.onward_pass taken .complete (by simp) (by simp)
    exact passed.trans (ih passed.past)
  | case7 run sound idle remaining skipping taken some =>
    exact run.onward_pass taken _ (by simp) (by simp)

theorem Onward.consistent {after : Run} (onward : run.Onward after)
    (past : run.decoder.stage ≠ .header) (consistent : run.decoder.Consistent) :
    after.decoder.Consistent := by
  obtain ⟨known, summed⟩ := consistent
  refine ⟨?_, ?_⟩
  · rw [onward.header, ← known]
    exact ⟨fun again => absurd again onward.past, fun again => absurd again past⟩
  · rw [Decoder.announces, onward.header]
    exact fun summing => (onward.summed summing).elim summed id

theorem consistent_start (decoder : Decoder) (header : Header) :
    (decoder.start header).Consistent := by
  unfold Decoder.start
  split <;> exact ⟨by simp, by simp⟩

theorem consistent_advance (consistent : run.decoder.Consistent) :
    run.advance.decoder.Consistent := by
  by_cases stage : run.decoder.stage = .header
  · rw [advance, stage]
    dsimp only
    unfold readHeader
    split
    · exact consistent
    · exact consistent_start _ _
  · exact (onward_advance stage).consistent stage consistent

theorem consistent_drive (consistent : run.decoder.Consistent) (data : Bytes) :
    (run.drive data).decoder.Consistent := by
  fun_induction drive run data with
  | case1 | case2 | case4 | case8 | case9 => exact ⟨consistent.known, consistent.summed⟩
  | case3 run sound collecting size required lacking more stop ih =>
    exact ih ⟨consistent.known, consistent.summed⟩
  | case5 run sound collecting size required collected ih => exact ih (consistent_advance consistent)
  | case6 run sound idle remaining skipping taken all ih =>
    have past : run.decoder.stage ≠ .header := by simp [skipping]
    have passed := run.onward_pass taken .complete (by simp) (by simp)
    exact ih (passed.consistent past consistent)
  | case7 run sound idle remaining skipping taken some =>
    have past : run.decoder.stage ≠ .header := by simp [skipping]
    have passed := run.onward_pass taken (.skip (remaining - taken)) (by simp) (by simp)
    exact passed.consistent past consistent

end Run

namespace Decoder

theorem calls_cons (decoder : Decoder) (call : Call) (rest : List Call) :
    decoder.calls (call :: rest) =
      (answer (decoder.call call).1 (decoder.call call).2 ::
        ((decoder.call call).2.calls rest).1, ((decoder.call call).2.calls rest).2) := rfl

theorem consistent_ofOptions (options : Options) : (ofOptions options).Consistent :=
  ⟨⟨fun _ => rfl, fun _ => rfl⟩, by simp [ofOptions]⟩

theorem consistent_reset (decoder : Decoder) : decoder.reset.Consistent :=
  ⟨⟨fun _ => rfl, fun _ => rfl⟩, by simp [reset]⟩

theorem decode_snd (decoder : Decoder) (data : Bytes) :
    (decoder.decode data).2 = (decoder.fresh.drive data).decoder := by
  cases stopped : (decoder.fresh.drive data).fault with
  | none => rw [decode_of_sound stopped]
  | some error => rw [decode_of_fault stopped]

/-- A decoder with other options. -/
abbrev withOptions (decoder : Decoder) (options : Options) : Decoder :=
  { decoder with options := options }

/-- A decoder with another dictionary, all of which counts. -/
abbrev withDictionary (decoder : Decoder) (window : Bytes) : Decoder :=
  decoder.withOptions { decoder.options with dictionary := window }

theorem setDictionary_eq (decoder : Decoder) (dictionary : Bytes) :
    decoder.setDictionary dictionary = decoder.withDictionary (Block.dictionaryWindow dictionary) :=
  rfl

-- The window is hidden, since whoever compares it with another one has to count out its 64 KiB.
theorem call_setDictionary (dictionary : Bytes) :
    ∃ window, ∀ decoder : Decoder,
      decoder.call (.setDictionary dictionary) = (.nothing, decoder.withDictionary window) :=
  ⟨Block.dictionaryWindow dictionary, fun _ => rfl⟩

theorem Consistent.withOptions {decoder : Decoder} (consistent : decoder.Consistent)
    (options : Options) : (decoder.withOptions options).Consistent :=
  ⟨consistent.known, consistent.summed⟩

theorem consistent_call {decoder : Decoder} (consistent : decoder.Consistent) (call : Call) :
    (decoder.call call).2.Consistent := by
  cases call with
  | decode data =>
    have driven := @Run.consistent_drive decoder.fresh consistent data
    rwa [← decode_snd] at driven
  | readHeader data =>
    unfold Decoder.call readHeader
    dsimp only
    split
    · exact consistent
    · split
      · exact consistent
      · split
        · exact consistent
        · exact Run.consistent_start _ _
  | reset => exact consistent_reset decoder
  | setDictionary dictionary =>
    rw [call, setDictionary_eq]
    exact consistent.withOptions _
  | verifyContent | stopAtFrameEnd => exact consistent.withOptions _

/-- What a decoder keeps at each call, it keeps however it is called. -/
theorem kept_calls {kept : Decoder → Prop}
    (step : ∀ {decoder : Decoder}, kept decoder → ∀ call, kept (decoder.call call).2)
    {decoder : Decoder} (holds : kept decoder) (made : List Call) :
    kept (decoder.calls made).2 := by
  induction made generalizing decoder with
  | nil => exact holds
  | cons call rest ih =>
    rw [calls_cons]
    exact ih (step holds call)

/-- However a decoder is called, it stays consistent. -/
theorem consistent_calls {decoder : Decoder} (consistent : decoder.Consistent) (made : List Call) :
    (decoder.calls made).2.Consistent :=
  kept_calls consistent_call consistent made

end Decoder

namespace Run

variable {run : Run}

/-- A run with other options. -/
abbrev withOptions (run : Run) (options : Options) : Run :=
  { run with decoder := run.decoder.withOptions options }

theorem finish_withOptions (run : Run) (options : Options) :
    (run.withOptions options).finish = run.finish.withOptions options := by
  unfold finish
  simp only [withOptions, Decoder.withOptions]
  cases run.decoder.header.bind Header.knownContentSize with
  | none => rfl
  | some size =>
    dsimp only
    by_cases same : size.toNat = run.decoder.decoded
    · rw [if_pos same, if_pos same]
    · rw [if_neg same, if_neg same]
      rfl

theorem readBlockLength_withOptions (run : Run) (options : Options) (start : Nat) :
    (run.withOptions options).readBlockLength start =
      (run.readBlockLength start).withOptions options := by
  have finished := finish_withOptions
    { run with decoder := { run.decoder with pending := #[] } } options
  unfold readBlockLength
  dsimp only
  -- No condition looks at the options, so the two sides agree branch by branch.
  rw [apply_ite (withOptions · options), apply_ite (withOptions · options),
    apply_ite (withOptions · options)]
  refine ite_congr rfl (fun _ => ite_congr rfl (fun _ => rfl) fun _ => finished) fun _ => ?_
  exact ite_congr rfl (fun _ => rfl) fun _ => rfl

theorem expandBlock_withOptions (run : Run) (options : Options) (payload history : Bytes)
    (start : Nat) : (run.withOptions options).expandBlock payload history start =
      (run.expandBlock payload history start).withOptions options := by
  cases decoded : Block.decode payload history run.decoder.blockLimit with
  | ok block =>
    rw [expandBlock_of_ok decoded, @expandBlock_of_ok (run.withOptions options) _ _ _ _ decoded]
    rfl
  | error error =>
    rw [expandBlock_of_error decoded,
      @expandBlock_of_error (run.withOptions options) _ _ _ _ decoded]
    rfl

/-- The dictionary is read for independent blocks. -/
theorem readBlock_withOptions (run : Run) {options : Options} (stored : Bool) (size start : Nat)
    (same : run.decoder.announces (·.independentBlocks) = true →
      options.dictionary = run.decoder.options.dictionary) :
    (run.withOptions options).readBlock stored size start =
      (run.readBlock stored size start).withOptions options := by
  have history : (if run.decoder.announces (·.independentBlocks) then options.dictionary
      else run.decoder.window) =
        if run.decoder.announces (·.independentBlocks) then run.decoder.options.dictionary
        else run.decoder.window := ite_congr rfl same fun _ => rfl
  unfold readBlock
  dsimp only
  rw [apply_ite (withOptions · options), apply_ite (withOptions · options)]
  refine ite_congr rfl (fun _ => rfl) fun _ => ite_congr rfl (fun _ => rfl) fun _ => ?_
  rw [expandBlock_withOptions]
  exact congrArg (fun history => (run.expandBlock _ history start).withOptions options) history

theorem readContentChecksum_withOptions (run : Run) (options : Options) (start : Nat) :
    (run.withOptions options).readContentChecksum start =
      (run.readContentChecksum start).withOptions options := by
  obtain ⟨⟨own, stage, header, pending, position, window, hasher, decoded, buffer⟩, output,
    consumed, fault⟩ := run
  have finished := finish_withOptions ⟨⟨own, stage, header, #[], position, window, none, decoded,
    buffer⟩, output, consumed, fault⟩ options
  simp only [readContentChecksum, withOptions, Decoder.withOptions] at finished ⊢
  cases hasher with
  | none => exact finished
  | some hasher =>
    dsimp only
    split
    · exact finished
    · rfl

/-- Past the header, a record is acted on in the same way under other options, unless the frame is
one of independent blocks and they hold another dictionary. -/
theorem advance_withOptions {options : Options} (past : run.decoder.stage ≠ .header)
    (same : run.decoder.announces (·.independentBlocks) = true →
      options.dictionary = run.decoder.options.dictionary) :
    (run.withOptions options).advance = run.advance.withOptions options := by
  unfold advance
  dsimp only
  have stage : (run.withOptions options).decoder.stage = run.decoder.stage := rfl
  rw [stage]
  split
  · rename_i atHeader
    exact absurd atHeader past
  · exact run.readBlockLength_withOptions options _
  · exact run.readBlock_withOptions _ _ _ same
  · exact run.readContentChecksum_withOptions options _
  · rfl
  · rfl

/-- Past the header, a run over linked blocks does the same under other options, as long as they say
the same of what is behind the frame. -/
theorem drive_withOptions {options : Options} (past : run.decoder.stage ≠ .header)
    (same : run.decoder.announces (·.independentBlocks) = true →
      options.dictionary = run.decoder.options.dictionary)
    (behind : options.stopAtFrameEnd = run.decoder.options.stopAtFrameEnd) (data : Bytes) :
    (run.withOptions options).drive data = (run.drive data).withOptions options := by
  fun_induction drive run data with
  | case1 run error fault => exact drive_of_fault fault
  | case2 run sound collecting error refused => exact drive_of_error sound collecting refused
  | case3 run sound collecting size required lacking more stop ih =>
    have step := @drive_of_lacking (run.withOptions options) data size sound collecting required
      lacking more
    rw [step]
    exact ih past same behind
  | case4 run sound collecting size required lacking all =>
    exact @drive_of_starved (run.withOptions options) data size sound collecting required lacking
      (Nat.le_of_not_lt all)
  | case5 run sound collecting size required collected ih =>
    have onward := onward_advance past
    have step := @drive_of_collected (run.withOptions options) data size sound collecting required
      (Nat.le_of_not_lt collected)
    rw [step, advance_withOptions past same]
    refine ih onward.past ?_ ?_
    · rw [Decoder.announces, onward.header, run.unmoved_advance.options]
      exact same
    · rw [run.unmoved_advance.options]
      exact behind
  | case6 run sound idle remaining skipping taken all ih =>
    have step := @drive_of_skip (run.withOptions options) data remaining sound skipping
    have passed : (run.withOptions options).pass remaining .complete =
        (run.pass remaining .complete).withOptions options := rfl
    have consumed : (run.withOptions options).consumed = run.consumed := rfl
    rw [step, consumed, if_pos all, passed]
    rw [show taken = remaining from all] at ih ⊢
    exact ih (by simp [pass]) same behind
  | case7 run sound idle remaining skipping taken some =>
    have step := @drive_of_skip (run.withOptions options) data remaining sound skipping
    have consumed : (run.withOptions options).consumed = run.consumed := rfl
    have rest : taken = data.size - run.consumed := by omega
    rw [step, consumed, if_neg some, rest]
    rfl
  | case8 run sound idle trailing other =>
    have step := @drive_of_complete (run.withOptions options) data sound
      (complete_of_idle idle other)
    rw [step, if_pos ⟨trailing.1, behind.trans trailing.2⟩]
    rfl
  | case9 run sound idle quiet other =>
    have step := @drive_of_complete (run.withOptions options) data sound
      (complete_of_idle idle other)
    rw [step, if_neg]
    rintro ⟨more, refuses⟩
    exact quiet ⟨more, behind.symm.trans refuses⟩

end Run

namespace Reader

variable {σ : Type} [Source σ]

/-- What can be asked of a reader. -/
inductive Call where
  | read (count : Nat)
  | fill
  | consume (count : Nat)
  | header
  deriving Repr, DecidableEq

/-- What a call returns. -/
inductive Result where
  | bytes (result : Except StreamError Bytes)
  | header (result : Except StreamError Header)
  | nothing

def call (reader : Reader σ) : Call → Result × Reader σ
  | .read count =>
    match reader.read count with
    | (result, after) => (.bytes result, after)
  | .fill =>
    match reader.fill with
    | (result, after) => (.bytes result, after)
  | .consume count => (.nothing, reader.consume count)
  | .header =>
    match reader.header with
    | (result, after) => (.header result, after)

/-- Makes calls in order. -/
def calls (reader : Reader σ) : List Call → List Result × Reader σ
  | [] => ([], reader)
  | call :: rest =>
    match reader.call call with
    | (result, after) =>
      match after.calls rest with
      | (results, last) => (result :: results, last)

theorem calls_cons (reader : Reader σ) (call : Call) (rest : List Call) :
    reader.calls (call :: rest) =
      ((reader.call call).1 :: ((reader.call call).2.calls rest).1,
        ((reader.call call).2.calls rest).2) := rfl

/-- A pull that fails leaves the buffer alone. -/
theorem buffer_of_pull_error {reader after : Reader σ} {error : StreamError}
    (failed : reader.pull = (.error error, after)) :
    after.buffer = reader.buffer ∧ after.taken = reader.taken := by
  obtain ⟨source, decoder, buffer, taken⟩ := reader
  rw [pull] at failed
  split at failed
  · cases failed
    exact ⟨rfl, rfl⟩
  · split at failed
    · cases failed
      exact ⟨rfl, rfl⟩
    · split at failed
      · cases failed
        exact ⟨rfl, rfl⟩
      · cases failed

theorem drained_of_refill_error {reader after : Reader σ} {error : StreamError}
    (failed : reader.refill = (.error error, after)) : after.taken = after.buffer.size := by
  fun_induction refill reader with
  | case1 reader drained other stopped pulled =>
    cases failed
    obtain ⟨buffer, taken⟩ := buffer_of_pull_error pulled
    rw [buffer, taken]
    rfl
  | case2 reader drained middle pulled ih => exact ih failed
  | case3 => cases failed

/-- When a read fails, everything that was decoded before was consumed. -/
theorem drained_of_read_error {reader after : Reader σ} {count : Nat} {error : StreamError}
    (failed : reader.read count = (.error error, after)) : after.taken = after.buffer.size := by
  unfold read at failed
  split at failed
  · rename_i refilled
    cases failed
    exact drained_of_refill_error refilled
  · cases failed

end Reader

end Lz4.Frame
