import Mathlib.Logic.Relation
import Lz4.Proofs.Frame.Calls
import Lz4.Proofs.Frame.Hint
import Lz4.Proofs.Stream.History

/-!
# How much a decoder holds

However a decoder is called, and whatever it was given and refused before, it has collected no more
than the record needs that it waits for, a block that it waits for is no longer than the blocks of
its frame, and its window, its dictionary and its buffer are as small as they should be
(`Lz4.Frame.Decoder.Bounded`). Acting on a record keeps to these bounds and gives out no more than a
block (`Lz4.Frame.Run.adds_advance`), whether the record is accepted or refused.

A run goes on turn by turn (`Lz4.Frame.Run.Turn`). Before each turn all bytes are there that will be
looked at, and nothing is subtracted from a number that is smaller (`Lz4.Frame.Run.InRange`). So it
is for every turn of every run of a decoder that was called in any way
(`Lz4.Frame.Decoder.bounded_calls`).
-/

namespace Lz4.Frame

open Bytes

theorem Header.requiredSize_le {data : Bytes} {size : Nat}
    (required : requiredSize data = .ok size) : size ≤ 19 := by
  unfold requiredSize at required
  split at required
  · cases required
    decide
  · extract_lets found at required
    split at required
    · cases required
      decide
    · split at required
      · cases required
      · split at required
        · cases required
          decide
        · split at required
          · cases required
          · cases required
            rw [Flags.headerSize, minHeaderSize]
            split <;> split <;> decide

theorem Header.four_le_of_error {data : Bytes} {error : Error}
    (refused : requiredSize data = .error error) : 4 ≤ data.size := by
  apply Nat.le_of_not_lt
  intro short
  rw [requiredSize, if_pos short] at refused
  cases refused

namespace Decoder

variable {decoder : Decoder}

theorem blockLimit_le (decoder : Decoder) : decoder.blockLimit ≤ 4 * 1024 * 1024 := by
  rw [blockLimit]
  cases decoder.header with
  | none => exact Nat.zero_le _
  | some header =>
    rw [Option.elim_some]
    cases header.blockSize <;> decide

/-- What a decoder has collected is part of what it has taken in and of the record that it waits
for, and at most as long as the longest header if it waits for one. What it remembers and expands is
within the limits of the format. -/
structure Bounded (decoder : Decoder) : Prop extends decoder.Placed where
  pending_le : ∀ size, decoder.required = .ok size → decoder.pending.size ≤ size
  header_le : decoder.stage = .header → decoder.pending.size ≤ 19
  window_le : decoder.window.size ≤ 64 * 1024
  dictionary_le : decoder.options.dictionary.size ≤ 64 * 1024
  block_le : ∀ stored size, decoder.stage = .block stored size → size ≤ decoder.blockLimit
  limit_le : decoder.blockLimit ≤ 4 * 1024 * 1024
  buffer_le : decoder.buffer.size ≤ 4 * 1024 * 1024

namespace Bounded

/-- A decoder that has collected nothing. -/
theorem of_empty (placed : decoder.Placed) (empty : decoder.pending = #[])
    (window : decoder.window.size ≤ 64 * 1024)
    (dictionary : decoder.options.dictionary.size ≤ 64 * 1024)
    (block : ∀ stored size, decoder.stage = .block stored size → size ≤ decoder.blockLimit)
    (buffer : decoder.buffer.size ≤ 4 * 1024 * 1024) : decoder.Bounded := by
  have nothing : decoder.pending.size = 0 := by
    rw [empty]
    rfl
  exact ⟨placed, fun size _ => by omega, fun _ => by omega, window, dictionary, block,
    decoder.blockLimit_le, buffer⟩

theorem withOptions (bounded : decoder.Bounded) {options : Options}
    (short : options.dictionary.size ≤ 64 * 1024) : (decoder.withOptions options).Bounded :=
  ⟨⟨bounded.size_pending_le, bounded.position_pos⟩, bounded.pending_le, bounded.header_le,
    bounded.window_le, short, bounded.block_le, bounded.limit_le, bounded.buffer_le⟩

theorem withBuffer (bounded : decoder.Bounded) {buffer : Bytes}
    (short : buffer.size ≤ 4 * 1024 * 1024) : (decoder.withBuffer buffer).Bounded :=
  ⟨⟨bounded.size_pending_le, bounded.position_pos⟩, bounded.pending_le, bounded.header_le,
    bounded.window_le, bounded.dictionary_le, bounded.block_le, bounded.limit_le, short⟩

/-- A decoder from which the record is taken out that it collected, and perhaps the checksum of the
content. -/
theorem withoutRecord (bounded : decoder.Bounded) (positive : 0 < decoder.position)
    (hasher : Option Checksum.Hasher) :
    Bounded { decoder with pending := #[], hasher := hasher } := by
  have placed : Decoder.Placed { decoder with pending := #[], hasher := hasher } :=
    ⟨Nat.zero_le _, fun _ => positive⟩
  exact .of_empty placed rfl bounded.window_le bounded.dictionary_le bounded.block_le
    bounded.buffer_le

/-- A decoder that has collected nothing may go on to wait for something else. -/
theorem withStage (bounded : decoder.Bounded) (empty : decoder.pending = #[])
    (positive : 0 < decoder.position) {stage : Stage}
    (block : ∀ stored size, stage = .block stored size → size ≤ decoder.blockLimit) :
    Bounded { decoder with stage := stage } := by
  have placed : Decoder.Placed { decoder with stage := stage } :=
    ⟨bounded.size_pending_le, fun _ => positive⟩
  exact .of_empty placed empty bounded.window_le bounded.dictionary_le block bounded.buffer_le

/-- A decoder that passes over bytes, or has come to the end of its frame, collects nothing. -/
theorem pending_eq_empty (bounded : decoder.Bounded) (required : decoder.required = .ok 0) :
    decoder.pending = #[] :=
  Array.size_eq_zero_iff.mp (Nat.le_zero.mp (bounded.pending_le 0 required))

end Bounded

theorem bounded_start (positive : 0 < decoder.position)
    (dictionary : decoder.options.dictionary.size ≤ 64 * 1024)
    (buffer : decoder.buffer.size ≤ 4 * 1024 * 1024)
    (window : decoder.window.size ≤ 64 * 1024) (header : Header) :
    (decoder.start header).Bounded := by
  have placed := Run.placed_start positive header
  unfold Decoder.start at placed ⊢
  split at placed
  · exact .of_empty placed rfl window dictionary (by simp) buffer
  · refine .of_empty placed rfl ?_ dictionary (by simp) buffer
    dsimp only
    split
    · exact Nat.zero_le _
    · exact dictionary

end Decoder

theorem Block.size_decodeOnto_le (block history : Bytes) (capacity : Nat) :
    (Block.decodeOnto block history #[] capacity).output.size ≤ capacity := by
  obtain ⟨added, room, outcome⟩ := Block.outcome_decodeOnto block history #[] capacity
  generalize Block.decodeOnto block history #[] capacity = decoded at outcome
  cases outcome with
  | whole => simpa using room
  | refused => simpa [Block.Decoded.corrupt] using room

theorem Decoder.ne_of_collects {decoder : Decoder} (collecting : decoder.collects = true) :
    (∀ remaining, decoder.stage ≠ .skip remaining) ∧ decoder.stage ≠ .complete := by
  constructor
  · intro remaining skipping
    rw [collects, skipping] at collecting
    cases collecting
  · intro complete
    rw [collects, complete] at collecting
    cases collecting

/-- The record that a decoder waits for is there. -/
def Decoder.Ready (decoder : Decoder) : Prop :=
  decoder.collects = true ∧ ∃ size, decoder.required = .ok size ∧ size ≤ decoder.pending.size

namespace Run

variable {run next : Run} {data : Bytes}

/-- A run that goes on within the bounds, and gives out no more than a block on the way. -/
structure Adds (before after : Run) : Prop where
  bounded : after.decoder.Bounded
  output : ∃ added, after.output = before.output ++ added ∧
    added.size ≤ before.decoder.blockLimit

/-- A run that goes on and gives out nothing. -/
theorem Adds.quiet (bounded : next.decoder.Bounded) (same : next.output = run.output) :
    run.Adds next :=
  ⟨bounded, #[], by rw [same, Array.append_empty], Nat.zero_le _⟩

theorem adds_readHeader (bounded : run.decoder.Bounded) : run.Adds run.readHeader := by
  unfold readHeader
  split
  · exact .quiet bounded rfl
  · rename_i header size parsed
    have long := Header.size_of_parse parsed
    have collected := bounded.size_pending_le
    exact .quiet (Decoder.bounded_start (by omega) bounded.dictionary_le bounded.buffer_le
      bounded.window_le header) rfl

theorem adds_finish (bounded : run.decoder.Bounded) (empty : run.decoder.pending = #[])
    (positive : 0 < run.decoder.position) : run.Adds run.finish := by
  rcases run.finish_cases with ended | ⟨-, refused⟩
  · rw [ended]
    exact .quiet (bounded.withStage empty positive (by simp)) rfl
  · rw [refused]
    exact .quiet bounded rfl

theorem adds_readBlockLength (bounded : run.decoder.Bounded)
    (positive : 0 < run.decoder.position) (start : Nat) :
    run.Adds (run.readBlockLength start) := by
  have emptied : run.emptied.decoder.Bounded :=
    bounded.withoutRecord positive run.decoder.hasher
  have finished := adds_finish emptied rfl positive
  unfold readBlockLength
  dsimp only
  split
  · split
    · exact .quiet (emptied.withStage rfl positive (by simp)) rfl
    · exact ⟨finished.bounded, finished.output⟩
  · split
    · exact .quiet emptied rfl
    · rename_i fits
      refine .quiet (emptied.withStage rfl positive ?_) rfl
      rintro stored size same
      cases same
      exact Nat.le_of_not_lt fits

/-- Content that is no longer than a block may be given out. -/
theorem adds_addContent (bounded : run.decoder.Bounded) (positive : 0 < run.decoder.position)
    {content : Bytes} (fits : content.size ≤ run.decoder.blockLimit) :
    run.Adds (run.addContent content) := by
  refine ⟨.of_empty (placed_addContent positive content) rfl ?_ bounded.dictionary_le ?_
    bounded.buffer_le, content, rfl, fits⟩
  · simp only [addContent]
    split
    · exact bounded.window_le
    · rw [Stream.extendWindow_eq_takeLast, size_takeLast]
      exact Nat.min_le_left _ _
  · simp [addContent]

theorem adds_expandBlock (bounded : run.decoder.Bounded) (positive : 0 < run.decoder.position)
    (payload history : Bytes) (start : Nat) :
    run.Adds (run.expandBlock payload history start) := by
  have limit := bounded.limit_le
  cases decoded : Block.decode payload history run.decoder.blockLimit with
  | ok block =>
    have fits := (Block.decode_eq_ok_iff.mp decoded).2
    have filled := bounded.withBuffer (Nat.le_trans fits limit)
    rw [expandBlock_of_ok decoded]
    obtain ⟨after, output⟩ := @adds_addContent (run.withBuffer block) filled positive block fits
    exact ⟨after, output⟩
  | error error =>
    have fits := Block.size_decodeOnto_le payload history run.decoder.blockLimit
    rw [expandBlock_of_error decoded]
    exact .quiet (bounded.withBuffer (Nat.le_trans fits limit)) rfl

theorem adds_readBlock {stored : Bool} {size : Nat} (bounded : run.decoder.Bounded)
    (stage : run.decoder.stage = .block stored size) (start : Nat) :
    run.Adds (run.readBlock stored size start) := by
  have positive := bounded.position_pos (by simp [stage])
  have fits := bounded.block_le stored size stage
  unfold readBlock
  dsimp only
  split
  · exact .quiet bounded rfl
  · split
    · refine adds_addContent bounded positive (Nat.le_trans ?_ fits)
      rw [Array.size_extract]
      omega
    · exact adds_expandBlock bounded positive _ _ start

theorem adds_readContentChecksum (bounded : run.decoder.Bounded)
    (stage : run.decoder.stage = .contentChecksum) (start : Nat) :
    run.Adds (run.readContentChecksum start) := by
  have positive := bounded.position_pos (by simp [stage])
  have unsummed : run.unsummed.decoder.Bounded := bounded.withoutRecord positive none
  obtain ⟨finished, output⟩ := adds_finish unsummed rfl positive
  unfold readContentChecksum
  dsimp only
  split
  · exact ⟨finished, output⟩
  · split
    · exact ⟨finished, output⟩
    · exact .quiet unsummed rfl

/-- Acting on a record keeps within the bounds, and gives out no more than a block. -/
theorem adds_advance (bounded : run.decoder.Bounded) : run.Adds run.advance := by
  unfold advance
  dsimp only
  split
  · exact adds_readHeader bounded
  · rename_i stage
    exact adds_readBlockLength bounded (bounded.position_pos (by simp [stage])) _
  · rename_i stage
    exact adds_readBlock bounded stage _
  · rename_i stage
    exact adds_readContentChecksum bounded stage _
  · exact .quiet bounded rfl
  · exact .quiet bounded rfl

/-- No more is collected than the record needs. -/
theorem bounded_collect {size : Nat} {bytes : Bytes} (bounded : run.decoder.Bounded)
    (required : run.decoder.required = .ok size)
    (fits : run.decoder.pending.size + bytes.size ≤ size) :
    (run.collect bytes).decoder.Bounded := by
  have grown : (run.collect bytes).decoder.pending.size =
      run.decoder.pending.size + bytes.size := by
    rw [pending_collect, Array.size_append]
  refine ⟨placed_collect bounded.toPlaced bytes, ?_, ?_, bounded.window_le, bounded.dictionary_le,
    bounded.block_le, bounded.limit_le, bounded.buffer_le⟩
  · -- A header may turn out to be longer while it comes in, and never turns out to be shorter.
    intro larger after
    have growing := le_required_collect required after
    omega
  · intro stage
    have atHeader : run.decoder.stage = .header := stage
    rw [Decoder.required, atHeader] at required
    have few := Header.requiredSize_le required
    omega

/-- What is passed over is not collected. -/
theorem bounded_pass {remaining : Nat} (bounded : run.decoder.Bounded)
    (skipping : run.decoder.stage = .skip remaining) (count : Nat) {stage : Stage}
    (other : ∀ stored size, stage ≠ .block stored size) :
    (run.pass count stage).decoder.Bounded := by
  have empty := bounded.pending_eq_empty (by rw [Decoder.required, skipping])
  exact .of_empty (placed_pass bounded.toPlaced skipping count stage) empty bounded.window_le
    bounded.dictionary_le (fun stored size same => absurd same (other stored size))
    bounded.buffer_le

/-- However much a run takes in, its decoder stays within the bounds. -/
theorem bounded_drive (bounded : run.decoder.Bounded) (data : Bytes) :
    (run.drive data).decoder.Bounded := by
  fun_induction drive run data with
  | case1 | case2 | case4 | case8 | case9 => exact bounded
  | case3 run sound collecting size required lacking more stop ih =>
    apply ih
    apply bounded_collect bounded required
    rw [Array.size_extract]
    omega
  | case5 run sound collecting size required collected ih => exact ih (adds_advance bounded).bounded
  | case6 run sound idle remaining skipping taken all ih =>
    exact ih (bounded_pass bounded skipping taken (by simp))
  | case7 run sound idle remaining skipping taken some =>
    exact bounded_pass bounded skipping taken (by simp)

/-- One turn of a run: it collects bytes of a record, acts on a record that is there, or passes over
the rest of a skippable frame. -/
inductive Turn (data : Bytes) (run : Run) : Run → Prop
  | collect {size : Nat} (sound : run.fault = none) (collecting : run.decoder.collects = true)
      (required : run.decoder.required = .ok size) (lacking : run.decoder.pending.size < size)
      (more : run.consumed < data.size) :
    Turn data run (run.collect
      (data.extract run.consumed (run.consumed + (size - run.decoder.pending.size))))
  | act (sound : run.fault = none) (ready : run.decoder.Ready) : Turn data run run.advance
  | pass {remaining : Nat} (sound : run.fault = none)
      (skipping : run.decoder.stage = .skip remaining)
      (enough : remaining ≤ data.size - run.consumed) :
    Turn data run (run.pass remaining .complete)

/-- Some turns, one after the other. -/
abbrev Turns (data : Bytes) : Run → Run → Prop := Relation.ReflTransGen (Turn data)

/-- What a run looks at is there, and nothing is subtracted from a number that is smaller. Where a number
of four bytes is read there are four; a block is there with the four bytes of its checksum, if it
has one; and a header is there as long as it says. The hint makes up for what a record lacks, and is
zero once the header is known to be refused. -/
structure InRange (run : Run) (data : Bytes) : Prop where
  consumed_le : run.consumed ≤ data.size
  header : run.decoder.Ready → run.decoder.stage = .header →
    Header.requiredSize run.decoder.pending = .ok run.decoder.pending.size
  number : run.decoder.Ready →
    run.decoder.stage = .blockLength ∨ run.decoder.stage = .contentChecksum →
    run.decoder.pending.size = 4
  block : run.decoder.Ready → ∀ stored size, run.decoder.stage = .block stored size →
    run.decoder.pending.size =
      if run.decoder.announces (·.blockChecksums) then size + 4 else size
  hint : run.decoder.collects = true → ∀ size, run.decoder.required = .ok size →
    run.decoder.inputHint + run.decoder.pending.size = size
  refused : ∀ error, run.decoder.required = .error error → run.decoder.inputHint = 0

theorem inRange_of_bounded (bounded : run.decoder.Bounded) (within : run.consumed ≤ data.size) :
    run.InRange data := by
  have whole : run.decoder.Ready →
      run.decoder.required = .ok run.decoder.pending.size := by
    rintro ⟨-, size, required, collected⟩
    rw [required, Nat.le_antisymm collected (bounded.pending_le size required)]
  refine ⟨within, ?_, ?_, ?_, ?_, ?_⟩
  · intro ready stage
    have required := whole ready
    rwa [Decoder.required, stage] at required
  · intro ready stage
    have required := whole ready
    rcases stage with atLength | atSum
    · rw [Decoder.required, atLength] at required
      exact (Except.ok.inj required).symm
    · rw [Decoder.required, atSum] at required
      exact (Except.ok.inj required).symm
  · intro ready stored size stage
    have required := whole ready
    rw [Decoder.required, stage] at required
    exact (Except.ok.inj required).symm
  · intro collecting size required
    have collected := bounded.pending_le size required
    rw [Decoder.inputHint_of_lacks collecting required]
    omega
  · intro error refused
    obtain ⟨stage, unknown⟩ := stage_of_required refused
    have some := Header.four_le_of_error unknown
    rw [Decoder.inputHint, stage, refused]
    dsimp only
    omega

theorem Turn.drive_eq (turn : Turn data run next) : run.drive data = next.drive data := by
  cases turn with
  | collect sound collecting required lacking more =>
    exact drive_of_lacking sound collecting required lacking more
  | act sound ready =>
    obtain ⟨collecting, size, required, collected⟩ := ready
    exact drive_of_collected sound collecting required collected
  | pass sound skipping enough => rw [drive_of_skip sound skipping, if_pos (by omega)]

theorem Turn.adds (turn : Turn data run next) (bounded : run.decoder.Bounded) : run.Adds next := by
  cases turn with
  | collect sound collecting required lacking more =>
    refine .quiet (bounded_collect bounded required ?_) rfl
    rw [Array.size_extract]
    omega
  | act sound ready => exact adds_advance bounded
  | pass sound skipping enough => exact .quiet (bounded_pass bounded skipping _ (by simp)) rfl

theorem Turn.consumed_le (turn : Turn data run next) (within : run.consumed ≤ data.size) :
    next.consumed ≤ data.size := by
  cases turn with
  | collect sound collecting required lacking more =>
    rw [consumed_collect, Array.size_extract]
    omega
  | act sound ready => rwa [run.unmoved_advance.consumed]
  | @pass remaining sound skipping enough =>
    have moved : (run.pass remaining .complete).consumed = run.consumed + remaining := rfl
    omega

theorem Turns.bounded (turns : Turns data run next) (bounded : run.decoder.Bounded)
    (within : run.consumed ≤ data.size) : next.decoder.Bounded ∧ next.consumed ≤ data.size := by
  induction turns with
  | refl => exact ⟨bounded, within⟩
  | tail before turn ih => exact ⟨(turn.adds ih.1).bounded, turn.consumed_le ih.2⟩

/-- A run that has come to its last turn: it has stopped, or the size of a header cannot be told, or
all data are taken in and more are needed, or the frame has ended. -/
inductive Rests (data : Bytes) (run : Run) : Prop
  | fault {error : Error} (fault : run.fault = some error)
  | refused {error : Error} (sound : run.fault = none) (collecting : run.decoder.collects = true)
      (refused : run.decoder.required = .error error)
  | starved {size : Nat} (sound : run.fault = none) (collecting : run.decoder.collects = true)
      (required : run.decoder.required = .ok size) (lacking : run.decoder.pending.size < size)
      (all : data.size ≤ run.consumed)
  | skips {remaining : Nat} (sound : run.fault = none)
      (skipping : run.decoder.stage = .skip remaining)
      (few : data.size - run.consumed < remaining)
  | ended (sound : run.fault = none) (complete : run.decoder.stage = .complete)

theorem Rests.not_turn (rests : run.Rests data) : ¬ Turn data run next := by
  intro turn
  cases rests with
  | fault fault =>
    cases turn with
    | collect sound | act sound | pass sound => cases sound.symm.trans fault
  | refused sound collecting refused =>
    cases turn with
    | collect _ _ required => cases refused.symm.trans required
    | act _ ready =>
      obtain ⟨-, size, required, -⟩ := ready
      cases refused.symm.trans required
    | pass _ skipping => exact (Decoder.ne_of_collects collecting).1 _ skipping
  | starved sound collecting required lacking all =>
    cases turn with
    | collect _ _ _ _ more => exact Nat.not_lt_of_le all more
    | act _ ready =>
      obtain ⟨-, size, requiredToo, collected⟩ := ready
      cases required.symm.trans requiredToo
      exact Nat.not_lt_of_le collected lacking
    | pass _ skipping => exact (Decoder.ne_of_collects collecting).1 _ skipping
  | skips sound skipping few =>
    cases turn with
    | collect _ collecting => exact (Decoder.ne_of_collects collecting).1 _ skipping
    | act _ ready => exact (Decoder.ne_of_collects ready.1).1 _ skipping
    | pass _ skippingToo enough =>
      cases skipping.symm.trans skippingToo
      exact Nat.not_lt_of_le enough few
  | ended sound complete =>
    cases turn with
    | collect _ collecting => exact (Decoder.ne_of_collects collecting).2 complete
    | act _ ready => exact (Decoder.ne_of_collects ready.1).2 complete
    | pass _ skipping => cases complete.symm.trans skipping

/-- Behind its last turn a run gives out nothing more. -/
theorem Rests.output_drive (rests : run.Rests data) : (run.drive data).output = run.output := by
  cases rests with
  | fault fault => rw [drive_of_fault fault]
  | refused sound collecting refused => rw [drive_of_error sound collecting refused]
  | starved sound collecting required lacking all =>
    rw [drive_of_starved sound collecting required lacking all]
  | skips sound skipping few =>
    rw [drive_of_skip sound skipping, if_neg (by omega)]
    rfl
  | ended sound complete =>
    rw [drive_of_complete sound complete]
    split <;> rfl

/-- A run is some turns, and what is left to do behind the last of them. -/
theorem exists_turns (run : Run) (data : Bytes) :
    ∃ last, Turns data run last ∧ last.Rests data ∧ run.drive data = last.drive data := by
  -- Where the run goes on, it does so by one turn; where it ends, there is a reason for it.
  fun_induction drive run data with
  | case1 run error fault => exact ⟨run, .refl, .fault fault, (drive_of_fault fault).symm⟩
  | case2 run sound collecting error refused =>
    exact ⟨run, .refl, .refused sound collecting refused,
      (drive_of_error sound collecting refused).symm⟩
  | case3 run sound collecting size required lacking more stop ih =>
    obtain ⟨last, turns, rests, same⟩ := ih
    exact ⟨last, .head (.collect sound collecting required lacking more) turns, rests, same⟩
  | case4 run sound collecting size required lacking none =>
    have all := Nat.le_of_not_lt none
    exact ⟨run, .refl, .starved sound collecting required lacking all,
      (drive_of_starved sound collecting required lacking all).symm⟩
  | case5 run sound collecting size required collected ih =>
    obtain ⟨last, turns, rests, same⟩ := ih
    have ready : run.decoder.Ready := ⟨collecting, size, required, Nat.le_of_not_lt collected⟩
    exact ⟨last, .head (.act sound ready) turns, rests, same⟩
  | case6 run sound idle remaining skipping taken all ih =>
    obtain ⟨last, turns, rests, same⟩ := ih
    have whole : taken = remaining := all
    have enough : remaining ≤ data.size - run.consumed := by omega
    rw [whole] at turns
    exact ⟨last, .head (.pass sound skipping enough) turns, rests, same⟩
  | case7 run sound idle remaining skipping taken some =>
    have few : data.size - run.consumed < remaining := by omega
    have rest : taken = data.size - run.consumed := by omega
    refine ⟨run, .refl, .skips sound skipping few, ?_⟩
    rw [drive_of_skip sound skipping, if_neg (by omega), rest]
  | case8 run sound idle trailing other =>
    have complete := complete_of_idle idle other
    refine ⟨run, .refl, .ended sound complete, ?_⟩
    rw [drive_of_complete sound complete, if_pos trailing]
  | case9 run sound idle quiet other =>
    have complete := complete_of_idle idle other
    refine ⟨run, .refl, .ended sound complete, ?_⟩
    rw [drive_of_complete sound complete, if_neg quiet]

end Run

namespace Decoder

variable {decoder : Decoder}

theorem bounded_ofOptions {options : Options} (short : options.dictionary.size ≤ 64 * 1024) :
    (ofOptions options).Bounded :=
  .of_empty ⟨Nat.zero_le _, fun past => absurd rfl past⟩ rfl (Nat.zero_le _) short
    (by simp [ofOptions]) (Nat.zero_le _)

theorem bounded_reset (bounded : decoder.Bounded) : decoder.reset.Bounded :=
  .of_empty ⟨Nat.zero_le _, fun past => absurd rfl past⟩ rfl (Nat.zero_le _) bounded.dictionary_le
    (by simp [reset]) bounded.buffer_le

theorem bounded_call (bounded : decoder.Bounded) (call : Call) :
    (decoder.call call).2.Bounded := by
  cases call with
  | decode data =>
    have driven := @Run.bounded_drive decoder.fresh bounded data
    rwa [← decode_snd] at driven
  | readHeader data =>
    unfold Decoder.call readHeader
    dsimp only
    split
    · exact bounded
    · split
      · exact bounded
      · split
        · exact bounded
        · rename_i header size parsed
          have long := Header.size_of_parse parsed
          exact @bounded_start { decoder with position := size } (by dsimp only; omega)
            bounded.dictionary_le bounded.buffer_le bounded.window_le header
  | reset => exact bounded_reset bounded
  | setDictionary dictionary =>
    have short : (Block.dictionaryWindow dictionary).size ≤ 64 * 1024 := by
      rw [Block.dictionaryWindow, size_takeLast]
      exact Nat.min_le_left _ _
    rw [call, setDictionary_eq]
    generalize Block.dictionaryWindow dictionary = window at short ⊢
    exact bounded.withOptions short
  | verifyContent | stopAtFrameEnd => exact bounded.withOptions bounded.dictionary_le

/-- However a decoder was called, and whatever it refused before, it keeps within its bounds. So it
does at every turn that it takes when it is given data, and what it looks at then is there; each
turn gives out no more than a block of the frame. These turns make up what the decoder does: behind
the last of them nothing is given out. -/
theorem bounded_calls (made : List Call) :
    (new.calls made).2.Bounded ∧
    ∀ data,
      (∀ run, Run.Turns data (new.calls made).2.fresh run →
        run.decoder.Bounded ∧ run.InRange data ∧
          ∀ next, Run.Turn data run next → run.drive data = next.drive data ∧
            ∃ added, next.output = run.output ++ added ∧ added.size ≤ run.decoder.blockLimit) ∧
      ∃ last, Run.Turns data (new.calls made).2.fresh last ∧ (∀ next, ¬ Run.Turn data last next) ∧
        (new.calls made).2.fresh.drive data = last.drive data ∧
        (last.drive data).output = last.output := by
  have bounded := kept_calls bounded_call (@bounded_ofOptions {} (Nat.zero_le _)) made
  refine ⟨bounded, fun data => ⟨?_, ?_⟩⟩
  · intro run turns
    obtain ⟨boundedRun, within⟩ := turns.bounded bounded (Nat.zero_le _)
    exact ⟨boundedRun, Run.inRange_of_bounded boundedRun within,
      fun next turn => ⟨turn.drive_eq, (turn.adds boundedRun).output⟩⟩
  · obtain ⟨last, turns, rests, same⟩ := (new.calls made).2.fresh.exists_turns data
    exact ⟨last, turns, fun next => rests.not_turn, same, rests.output_drive⟩

/-- A frame is begun behind a wrong magic number, and the one byte of its first block is given out in
the second turn. -/
theorem bounded_calls_refused :
    let made : List Call := [.decode #[9, 9, 9, 9, 9], .decode #[1], .reset,
      .decode #[4, 34, 77, 24, 0x40, 0x40, 0xC0, 1, 0, 0, 0x80]]
    let run := (new.calls made).2.fresh.collect #[97]
    (new.calls made).2.Bounded ∧ run.InRange #[97] ∧
      Run.Turn #[97] run run.advance ∧ run.advance.output = #[97] ∧
      ∃ added, run.advance.output = run.output ++ added ∧ added.size ≤ run.decoder.blockLimit := by
  intro made run
  obtain ⟨bounded, turns⟩ := bounded_calls made
  obtain ⟨answers, begun⟩ : ∃ answers, new.calls made = (answers,
      { new with
        stage := .block true 1
        header := some { blockSize := .max64KB }
        position := 11 }) := ⟨_, by cbv⟩
  have first : Run.Turn #[97] (new.calls made).2.fresh run := by
    simp only [run]
    rw [begun]
    exact @Run.Turn.collect #[97] _ 1 rfl rfl rfl Nat.zero_lt_one Nat.zero_lt_one
  have second : Run.Turn #[97] run run.advance := by
    simp only [run]
    rw [begun]
    exact .act rfl ⟨rfl, 1, rfl, Nat.le_refl 1⟩
  have output : run.advance.output = #[97] := by
    simp only [run]
    rw [begun]
    rfl
  obtain ⟨-, inRange, further⟩ := (turns #[97]).1 run (.single first)
  exact ⟨bounded, inRange, second, output, (further _ second).2⟩

end Decoder

end Lz4.Frame
