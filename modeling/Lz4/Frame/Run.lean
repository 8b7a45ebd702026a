import Lz4.Block.Decode
import Lz4.Frame.Decoder
import Lz4.Frame.Record

/-!
# A decoder at work

A decoder collects the bytes of the next record and acts on the record when all of it is there. From
a piece of input it takes at a time as many bytes as the record still lacks, or what is left of the
piece. The header tells how long it is only while it comes in, so it is collected in several turns.

After the end of its frame a decoder refuses more data, or leaves them alone if it is told to stop
there. Refused data are reported at their offset from the start of the frame.
-/

namespace Lz4.Frame

open Checksum (Hasher)

/-- What a decoder has collected is part of what it has taken in, and it has taken in something
when it is past the header. -/
structure Decoder.Placed (decoder : Decoder) : Prop where
  size_pending_le : decoder.pending.size ≤ decoder.position
  position_pos : decoder.stage ≠ .header → 0 < decoder.position

/-- A decoder at work on a piece of input: its state, the content it found, the number of bytes of
the piece that it took in, and why it stopped, if it did. -/
structure Run where
  decoder : Decoder
  output : Bytes
  consumed : Nat
  fault : Option Error

namespace Run

/-- Stops at an offset of the frame. -/
def corrupt (run : Run) (offset : Nat) (reason : Corruption) : Run :=
  { run with fault := some (.corruptInput offset reason) }

/-- Reaches the end of the frame, unless the content is not as long as announced. -/
def finish (run : Run) : Run :=
  let decoder := run.decoder
  match decoder.header.bind Header.knownContentSize with
  | some size =>
    if size.toNat = decoder.decoded then { run with decoder := { decoder with stage := .complete } }
    else run.corrupt decoder.position .contentSizeMismatch
  | none => { run with decoder := { decoder with stage := .complete } }

/-- Acts on a header. -/
def readHeader (run : Run) : Run :=
  match Header.parse run.decoder.pending with
  | .error error => { run with fault := some error }
  | .ok (header, _) => { run with decoder := run.decoder.start header }

/-- Acts on a block length, which starts at the offset `start`. -/
def readBlockLength (run : Run) (start : Nat) : Run :=
  let length := run.decoder.pending.natAt 0 4
  let run := { run with decoder := { run.decoder with pending := #[] } }
  if length = 0 then
    if run.decoder.announces (·.contentChecksum) then
      { run with decoder := { run.decoder with stage := .contentChecksum } }
    else run.finish
  else
    let size := length % storedBit
    if run.decoder.blockLimit < size then run.corrupt start .blockTooLarge
    else { run with decoder := { run.decoder with stage := .block (storedBit ≤ length) size } }

/-- Gives out the content of a block. -/
def addContent (run : Run) (content : Bytes) : Run :=
  match run with
  | ⟨decoder, output, consumed, fault⟩ =>
    let window :=
      if decoder.announces (·.independentBlocks) then decoder.window
      else Stream.extendWindow decoder.window content
    ⟨{ decoder with
        stage := .blockLength
        pending := #[]
        window := window
        hasher := decoder.hasher.map (·.update content)
        decoded := decoder.decoded + content.size },
      output ++ content, consumed, fault⟩

/-- A run with other bytes in the buffer. -/
abbrev withBuffer (run : Run) (buffer : Bytes) : Run :=
  { run with decoder := run.decoder.withBuffer buffer }

/-- Expands a block in the buffer, which is emptied first, and gives out what is in it then. -/
def expandBlock (run : Run) (payload history : Bytes) (start : Nat) : Run :=
  let run := run.withBuffer #[]
  let expanded := Block.decodeOnto payload history run.decoder.buffer run.decoder.blockLimit
  let run := run.withBuffer expanded.output
  match expanded.fault with
  | some error => { run with fault := some (error.shifted start) }
  | none => run.addContent run.decoder.buffer

/-- Acts on a block, which starts at the offset `start`. -/
def readBlock (run : Run) (stored : Bool) (size start : Nat) : Run :=
  let decoder := run.decoder
  let payload := decoder.pending.extract 0 size
  if decoder.announces (·.blockChecksums)
      && decoder.pending.natAt size 4 != (checksum payload).toNat then
    run.corrupt (start + size) .blockChecksum
  else if stored then run.addContent payload
  else
    let history :=
      if decoder.announces (·.independentBlocks) then decoder.options.dictionary else decoder.window
    run.expandBlock payload history start

/-- Acts on the content checksum, which starts at the offset `start`. -/
def readContentChecksum (run : Run) (start : Nat) : Run :=
  let expected := run.decoder.pending.natAt 0 4
  let hasher := run.decoder.hasher
  let run := { run with decoder := { run.decoder with pending := #[], hasher := none } }
  match hasher with
  | none => run.finish
  | some hasher =>
    if hasher.finish.toNat = expected then run.finish else run.corrupt start .contentChecksum

/-- Acts on the record that was collected. -/
def advance (run : Run) : Run :=
  let start := run.decoder.position - run.decoder.pending.size
  match run.decoder.stage with
  | .header => run.readHeader
  | .blockLength => run.readBlockLength start
  | .block stored size => run.readBlock stored size start
  | .contentChecksum => run.readContentChecksum start
  | .skip _ => run
  | .complete => run

/-- What is in the buffer before does not matter to a block that is expanded in it. -/
theorem expandBlock_withBuffer (run : Run) (buffer payload history : Bytes) (start : Nat) :
    (run.withBuffer buffer).expandBlock payload history start =
      run.expandBlock payload history start := rfl

theorem expandBlock_of_ok {run : Run} {payload history block : Bytes} {start : Nat}
    (decoded : Block.decode payload history run.decoder.blockLimit = .ok block) :
    run.expandBlock payload history start = (run.withBuffer block).addContent block := by
  have limit : (run.withBuffer #[]).decoder.blockLimit = run.decoder.blockLimit := rfl
  unfold Block.decode Block.Decoded.toExcept at decoded
  unfold expandBlock
  dsimp only
  rw [limit]
  split at decoded
  · rename_i ended
    cases decoded
    rw [ended]
  · cases decoded

theorem expandBlock_of_error {run : Run} {payload history : Bytes} {start : Nat} {error : Error}
    (refused : Block.decode payload history run.decoder.blockLimit = .error error) :
    run.expandBlock payload history start =
      { run.withBuffer
          (Block.decodeOnto payload history #[] run.decoder.blockLimit).output with
        fault := some (error.shifted start) } := by
  have limit : (run.withBuffer #[]).decoder.blockLimit = run.decoder.blockLimit := rfl
  unfold Block.decode Block.Decoded.toExcept at refused
  unfold expandBlock
  dsimp only
  rw [limit]
  split at refused
  · cases refused
  · rename_i stopped
    cases refused
    rw [stopped]

/-- A block is expanded and given out, or it is refused and a part of it stays in the buffer. -/
theorem expandBlock_cases (run : Run) (payload history : Bytes) (start : Nat) :
    (∃ block, Block.decode payload history run.decoder.blockLimit = .ok block ∧
      run.expandBlock payload history start = (run.withBuffer block).addContent block) ∨
    ∃ error buffer, Block.decode payload history run.decoder.blockLimit = .error error ∧
      run.expandBlock payload history start =
        { run.withBuffer buffer with fault := some (error.shifted start) } := by
  cases decoded : Block.decode payload history run.decoder.blockLimit with
  | ok block => exact .inl ⟨block, rfl, expandBlock_of_ok decoded⟩
  | error error => exact .inr ⟨error, _, rfl, expandBlock_of_error decoded⟩

/-- Takes bytes into the record that is being collected. -/
def collect (run : Run) (bytes : Bytes) : Run :=
  match run with
  | ⟨⟨options, stage, header, pending, position, window, hasher, decoded, buffer⟩, output,
      consumed, fault⟩ =>
    let pending := pending ++ bytes
    ⟨⟨options, stage, header, pending, position + bytes.size, window, hasher, decoded, buffer⟩,
      output, consumed + bytes.size, fault⟩

@[simp] theorem pending_collect (run : Run) (bytes : Bytes) :
    (run.collect bytes).decoder.pending = run.decoder.pending ++ bytes := rfl

@[simp] theorem position_collect (run : Run) (bytes : Bytes) :
    (run.collect bytes).decoder.position = run.decoder.position + bytes.size := rfl

@[simp] theorem consumed_collect (run : Run) (bytes : Bytes) :
    (run.collect bytes).consumed = run.consumed + bytes.size := rfl

/-- Passes over bytes of a skippable frame. -/
def pass (run : Run) (count : Nat) (stage : Stage) : Run :=
  { run with
    decoder := { run.decoder with stage := stage, position := run.decoder.position + count }
    consumed := run.consumed + count }

/-- How much a decoder can do before it needs another byte: acting on a record empties it, and a
record without bytes is acted on once. -/
def weight (run : Run) : Nat :=
  match run.fault, run.decoder.stage with
  | some _, _ => 0
  | none, .block _ _ => 2 * run.decoder.pending.size + 2
  | none, .skip _ => 2 * run.decoder.pending.size + 2
  | none, _ => 2 * run.decoder.pending.size + 1

/-- One run stands where another does: it has taken in as much, and has the same options. -/
structure Unmoved (before after : Run) : Prop where
  position : after.decoder.position = before.decoder.position
  consumed : after.consumed = before.consumed
  options : after.decoder.options = before.decoder.options

theorem unmoved_finish (run : Run) : run.Unmoved run.finish := by
  unfold finish
  extract_lets decoder
  split
  · split <;> exact ⟨rfl, rfl, rfl⟩
  · exact ⟨rfl, rfl, rfl⟩

theorem unmoved_readHeader (run : Run) : run.Unmoved run.readHeader := by
  unfold readHeader
  split
  · exact ⟨rfl, rfl, rfl⟩
  · unfold Decoder.start
    split <;> exact ⟨rfl, rfl, rfl⟩

theorem unmoved_readBlockLength (run : Run) (start : Nat) :
    run.Unmoved (run.readBlockLength start) := by
  unfold readBlockLength
  extract_lets length decoder emptied size
  have finished := emptied.unmoved_finish
  split
  · split
    · exact ⟨rfl, rfl, rfl⟩
    · exact ⟨finished.position, finished.consumed, finished.options⟩
  · split <;> exact ⟨rfl, rfl, rfl⟩

theorem unmoved_expandBlock (run : Run) (payload history : Bytes) (start : Nat) :
    run.Unmoved (run.expandBlock payload history start) := by
  rcases run.expandBlock_cases payload history start with ⟨_, -, same⟩ | ⟨_, _, -, same⟩
  · exact same ▸ ⟨rfl, rfl, rfl⟩
  · exact same ▸ ⟨rfl, rfl, rfl⟩

theorem unmoved_readBlock (run : Run) (stored : Bool) (size start : Nat) :
    run.Unmoved (run.readBlock stored size start) := by
  unfold readBlock
  extract_lets decoder payload history
  split
  · exact ⟨rfl, rfl, rfl⟩
  · split
    · exact ⟨rfl, rfl, rfl⟩
    · exact run.unmoved_expandBlock payload history start

theorem unmoved_readContentChecksum (run : Run) (start : Nat) :
    run.Unmoved (run.readContentChecksum start) := by
  unfold readContentChecksum
  extract_lets expected hasher decoder emptied
  have finished := emptied.unmoved_finish
  clear_value hasher
  cases hasher with
  | none => exact ⟨finished.position, finished.consumed, finished.options⟩
  | some hasher =>
    dsimp only
    split
    · exact ⟨finished.position, finished.consumed, finished.options⟩
    · exact ⟨rfl, rfl, rfl⟩

/-- Acting on a record takes in nothing, and leaves the options alone. -/
theorem unmoved_advance (run : Run) : run.Unmoved run.advance := by
  unfold advance
  extract_lets start
  split
  · exact run.unmoved_readHeader
  · exact run.unmoved_readBlockLength start
  · exact run.unmoved_readBlock _ _ start
  · exact run.unmoved_readContentChecksum start
  · exact ⟨rfl, rfl, rfl⟩
  · exact ⟨rfl, rfl, rfl⟩

@[simp] theorem pending_finish (run : Run) :
    run.finish.decoder.pending = run.decoder.pending := by
  unfold finish
  extract_lets decoder
  split
  · split <;> rfl
  · rfl

theorem pending_readBlockLength (run : Run) (start : Nat) :
    (run.readBlockLength start).decoder.pending = #[] := by
  unfold readBlockLength
  extract_lets length emptied size
  split
  · split
    · rfl
    · exact pending_finish _
  · split <;> rfl

theorem pending_readContentChecksum (run : Run) (start : Nat) :
    (run.readContentChecksum start).decoder.pending = #[] := by
  unfold readContentChecksum
  extract_lets expected hasher emptied
  clear_value hasher
  cases hasher with
  | none => exact pending_finish _
  | some hasher =>
    dsimp only
    split
    · exact pending_finish _
    · rfl

theorem weight_le (run : Run) : run.weight ≤ 2 * run.decoder.pending.size + 2 := by
  unfold weight
  split <;> omega

theorem weight_pos {run : Run} (sound : run.fault = none) : 0 < run.weight := by
  unfold weight
  split <;> simp_all

/-- Acting on a record that was collected leaves less to do. -/
theorem weight_advance_lt {run : Run} {size : Nat} (sound : run.fault = none)
    (collecting : run.decoder.collects = true)
    (required : run.decoder.required = .ok size) (collected : size ≤ run.decoder.pending.size) :
    run.advance.weight < run.weight := by
  have positive := weight_pos sound
  unfold advance
  extract_lets start
  split
  · rename_i stage
    simp only [Decoder.required, stage] at required
    have long := Header.four_le_of_requiredSize required
    have heavy : 2 * run.decoder.pending.size + 1 = run.weight := by
      simp [weight, sound, stage]
    unfold readHeader
    split
    · simpa [weight] using positive
    · rename_i header _ _
      have emptied : (run.decoder.start header).pending = #[] := by
        unfold Decoder.start
        split <;> rfl
      have light := weight_le { run with decoder := run.decoder.start header }
      simp only [emptied, List.size_toArray, List.length_nil] at light
      omega
  · rename_i stage
    simp only [Decoder.required, stage, Except.ok.injEq] at required
    have light := weight_le (run.readBlockLength start)
    have heavy : 2 * run.decoder.pending.size + 1 = run.weight := by
      simp [weight, sound, stage]
    simp only [pending_readBlockLength, List.size_toArray, List.length_nil] at light
    omega
  · rename_i stored length stage
    have heavy : 2 * run.decoder.pending.size + 2 = run.weight := by
      simp [weight, sound, stage]
    have added : ∀ content, (run.addContent content).weight < run.weight := by
      intro content
      simp only [addContent, weight, sound, stage]
      simp
    unfold readBlock
    extract_lets decoder payload history
    split
    · simpa [corrupt, weight] using positive
    · split
      · exact added _
      · rcases run.expandBlock_cases payload history start with
          ⟨block, -, same⟩ | ⟨error, buffer, -, same⟩
        · exact same ▸ added block
        · rw [same]
          simpa [weight] using positive
  · rename_i stage
    simp only [Decoder.required, stage, Except.ok.injEq] at required
    have light := weight_le (run.readContentChecksum start)
    have heavy : 2 * run.decoder.pending.size + 1 = run.weight := by
      simp [weight, sound, stage]
    simp only [pending_readContentChecksum, List.size_toArray, List.length_nil] at light
    omega
  · rename_i remaining stage
    simp [Decoder.collects, stage] at collecting
  · rename_i stage
    simp [Decoder.collects, stage] at collecting

/-- Passing over bytes to the end of a skippable frame leaves less to do. -/
theorem weight_pass_lt {run : Run} {remaining : Nat} (sound : run.fault = none)
    (skipping : run.decoder.stage = .skip remaining) (count : Nat) :
    (run.pass count .complete).weight < run.weight := by
  simp [pass, weight, sound, skipping]

theorem weight_collect (run : Run) (bytes : Bytes) (sound : run.fault = none) :
    (run.collect bytes).weight = run.weight + 2 * bytes.size := by
  obtain ⟨⟨options, stage, header, pending, position, window, hasher, decoded, buffer⟩, output,
    consumed, fault⟩ := run
  cases sound
  cases stage <;> simp only [collect, weight, Array.size_append] <;> omega

/-- Takes in data from the first byte that was not consumed yet. Once the decoder has stopped, and
after the end of the frame, it takes in nothing. -/
def drive (run : Run) (data : Bytes) : Run :=
  match _sound : run.fault with
  | some _ => run
  | none =>
    if _collecting : run.decoder.collects then
      match _required : run.decoder.required with
      | .error error => { run with fault := some error }
      | .ok size =>
        if _short : run.decoder.pending.size < size then
          if _more : run.consumed < data.size then
            let stop := run.consumed + (size - run.decoder.pending.size)
            drive (run.collect (data.extract run.consumed stop)) data
          else run
        else drive run.advance data
    else
      match _stage : run.decoder.stage with
      | .skip remaining =>
        let taken := min remaining (data.size - run.consumed)
        if taken = remaining then drive (run.pass taken .complete) data
        else run.pass taken (.skip (remaining - taken))
      | _ =>
        if run.consumed < data.size ∧ run.decoder.options.stopAtFrameEnd = false then
          run.corrupt run.decoder.position .trailingData
        else run
termination_by 3 * (data.size - run.consumed) + run.weight
decreasing_by
  · have heavier := weight_collect run (data.extract run.consumed stop) _sound
    simp only [consumed_collect, Array.size_extract, stop] at heavier ⊢
    omega
  · have lighter := weight_advance_lt _sound _collecting _required (Nat.le_of_not_lt _short)
    rw [run.unmoved_advance.consumed]
    omega
  · have lighter := weight_pass_lt _sound _stage (min remaining (data.size - run.consumed))
    simp only [pass] at lighter ⊢
    omega

theorem placed_finish {run : Run} (placed : run.decoder.Placed)
    (past : run.decoder.stage ≠ .header) : run.finish.decoder.Placed := by
  have positive := placed.position_pos past
  unfold finish
  extract_lets decoder
  split
  · split
    · exact ⟨placed.size_pending_le, fun _ => positive⟩
    · exact placed
  · exact ⟨placed.size_pending_le, fun _ => positive⟩

theorem placed_start {decoder : Decoder} (positive : 0 < decoder.position) (header : Header) :
    (decoder.start header).Placed := by
  unfold Decoder.start
  split
  · exact ⟨Nat.zero_le _, fun _ => positive⟩
  · exact ⟨Nat.zero_le _, fun _ => positive⟩

theorem placed_readHeader {run : Run} (placed : run.decoder.Placed) :
    run.readHeader.decoder.Placed := by
  unfold readHeader
  split
  · exact placed
  · rename_i header size parsed
    have long := Header.size_of_parse parsed
    have collected := placed.size_pending_le
    exact placed_start (by omega) header

theorem placed_readBlockLength {run : Run} (placed : run.decoder.Placed)
    (past : run.decoder.stage ≠ .header) (start : Nat) :
    (run.readBlockLength start).decoder.Placed := by
  have positive := placed.position_pos past
  unfold readBlockLength
  extract_lets length decoder emptied
  have still : emptied.decoder.Placed := ⟨Nat.zero_le _, fun _ => positive⟩
  split
  · split
    · exact ⟨Nat.zero_le _, fun _ => positive⟩
    · exact placed_finish still past
  · split
    · exact still
    · exact ⟨Nat.zero_le _, fun _ => positive⟩

theorem placed_addContent {run : Run} (positive : 0 < run.decoder.position) (content : Bytes) :
    (run.addContent content).decoder.Placed :=
  ⟨Nat.zero_le _, fun _ => positive⟩

theorem placed_readBlock {run : Run} (placed : run.decoder.Placed)
    (past : run.decoder.stage ≠ .header) (stored : Bool) (size start : Nat) :
    (run.readBlock stored size start).decoder.Placed := by
  have positive := placed.position_pos past
  unfold readBlock
  extract_lets decoder payload history
  split
  · exact placed
  · split
    · exact placed_addContent positive _
    · rcases run.expandBlock_cases payload history start with
        ⟨block, -, same⟩ | ⟨error, buffer, -, same⟩
      · exact same ▸ @placed_addContent (run.withBuffer block) positive block
      · exact same ▸ ⟨placed.size_pending_le, placed.position_pos⟩

theorem placed_readContentChecksum {run : Run} (placed : run.decoder.Placed)
    (past : run.decoder.stage ≠ .header) (start : Nat) :
    (run.readContentChecksum start).decoder.Placed := by
  have positive := placed.position_pos past
  unfold readContentChecksum
  extract_lets expected hasher decoder emptied
  have still : emptied.decoder.Placed := ⟨Nat.zero_le _, fun _ => positive⟩
  clear_value hasher
  cases hasher with
  | none => exact placed_finish still past
  | some hasher =>
    dsimp only
    split
    · exact placed_finish still past
    · exact still

theorem placed_advance {run : Run} (placed : run.decoder.Placed) : run.advance.decoder.Placed := by
  unfold advance
  extract_lets start
  split
  · exact placed_readHeader placed
  · rename_i stage
    exact placed_readBlockLength placed (by simp [stage]) start
  · rename_i stored size stage
    exact placed_readBlock placed (by simp [stage]) stored size start
  · rename_i stage
    exact placed_readContentChecksum placed (by simp [stage]) start
  · exact placed
  · exact placed

theorem placed_collect {run : Run} (placed : run.decoder.Placed) (bytes : Bytes) :
    (run.collect bytes).decoder.Placed := by
  have collected := placed.size_pending_le
  refine ⟨?_, fun past => Nat.lt_of_lt_of_le (placed.position_pos past) (Nat.le_add_right _ _)⟩
  simpa using collected

theorem placed_pass {run : Run} {remaining : Nat} (placed : run.decoder.Placed)
    (skipping : run.decoder.stage = .skip remaining) (count : Nat) (stage : Stage) :
    (run.pass count stage).decoder.Placed := by
  have positive := placed.position_pos (by simp [skipping])
  exact ⟨Nat.le_add_right_of_le placed.size_pending_le,
    fun _ => Nat.lt_of_lt_of_le positive (Nat.le_add_right _ _)⟩

/-- Taking in data keeps a decoder placed. -/
theorem placed_drive {run : Run} (placed : run.decoder.Placed) (data : Bytes) :
    (run.drive data).decoder.Placed := by
  fun_induction drive run data with
  | case1 | case2 | case4 => exact placed
  | case3 run sound collecting size required short more stop ih =>
    exact ih (placed_collect placed _)
  | case5 run sound collecting size required long ih => exact ih (placed_advance placed)
  | case6 run sound idle remaining skipping taken all ih =>
    exact ih (placed_pass placed skipping _ _)
  | case7 run sound idle remaining skipping taken some => exact placed_pass placed skipping _ _
  | case8 | case9 => exact placed

/-- A decoder moves on by what it takes in. -/
theorem position_drive (run : Run) (data : Bytes) :
    (run.drive data).decoder.position + run.consumed =
      run.decoder.position + (run.drive data).consumed := by
  fun_induction drive run data with
  | case1 | case2 | case4 | case8 | case9 => rfl
  | case3 run sound collecting size required short more stop ih =>
    simp only [position_collect, consumed_collect] at ih
    omega
  | case5 run sound collecting size required long ih =>
    rwa [run.unmoved_advance.position, run.unmoved_advance.consumed] at ih
  | case6 run sound idle remaining skipping taken all ih =>
    simp only [pass] at ih ⊢
    omega
  | case7 run sound idle remaining skipping taken some =>
    simp only [pass]
    omega

end Run

end Lz4.Frame
