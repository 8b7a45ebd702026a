import Mathlib.Data.List.Forall2
import Lz4.Proofs.Frame.Writing

/-!
# The blocks that are to be written

A writer in a frame has a stream that takes blocks, less pending than a block, and room for a block
(`Lz4.Frame.Writer.Ready`). So whatever a request makes it write, be it pending data or a block
straight from the data, can be written: it is neither empty nor longer than a block, the room holds
it, and the stream takes it, even if its compressed form should be too long for the room
(`Lz4.Frame.Attempt.Sound`).

The blocks that a request makes a writer write are listed with the state that the writer is in by
then (`Lz4.Frame.Writer.attempts`). Each is written with what the one before has left
(`Lz4.Frame.Writer.Linked`), and their records are all that is given out besides the header, the end
marker and the checksum of the content. No length in front of a record is that of the end marker
(`Lz4.Frame.Writer.requests_serves`).
-/

namespace Lz4.Frame

open Bytes

/-- A block that a writer is to write. -/
structure Attempt where
  writer : Writer
  block : Bytes

/-- A block that can be written, and its record: it is not empty, no longer than a block may be, and
no longer than the room that it is compressed in; the writer has a stream, which takes the block and
can only lack the room for its compressed form; and the length of the record is not that of the end
marker. -/
structure Attempt.Sound (attempt : Attempt) (written : Bytes) : Prop where
  nonempty : 0 < attempt.block.size
  fits : attempt.block.size ≤ attempt.writer.blockLimit
  inRoom : attempt.block.size ≤ attempt.writer.room.size
  taken : ∃ stream, attempt.writer.stream = some stream ∧
    ∀ error, ((blockStart attempt.writer.header stream).compressInto attempt.block
        (attempt.writer.room.extract 0 attempt.block.size)).1 = .error error →
      ∃ needed, error = .bufferTooSmall needed attempt.block.size
  wrote : (attempt.writer.writeBlock attempt.block).1 = .ok written
  unlikeEnd : written.natAt 0 4 ≠ 0

namespace Writer

/-- What holds of a writer in a frame between two calls: its stream takes blocks of the size of the
frame, less than a block is pending, so that a block always lacks something, and there is room for a
block. -/
structure Ready (writer : Writer) : Prop where
  stream : ∃ stream, writer.stream = some stream ∧
    stream.settings.chunkLimit = writer.blockLimit
  pending : writer.pending.size < writer.blockLimit
  room : writer.blockLimit ≤ writer.room.size

/-- What comes after something that may have failed. -/
def Outcome.thenAttempts (outcome : Outcome) (next : Writer → List Attempt) : List Attempt :=
  match outcome with
  | (.error _, _) => []
  | (.ok _, writer) => next writer

/-- The block that is written when what is pending is. -/
def flushAttempts (writer : Writer) : List Attempt :=
  if writer.pending.isEmpty then [] else [⟨writer, writer.pending⟩]

/-- The blocks that are written straight from the data. -/
def blockAttempts (data : Bytes) (pos : Nat) (writer : Writer) : List Attempt :=
  let stop := pos + writer.blockLimit
  if stop ≤ data.size then
    ⟨writer, data.extract pos stop⟩ ::
      (writer.writeBlock (data.extract pos stop)).thenAttempts fun next =>
        blockAttempts data stop next
  else []
termination_by data.size - pos
decreasing_by
  have positive : 0 < writer.blockLimit := writer.header.blockSize.bytes_pos
  omega

/-- The blocks that are written when data are appended. -/
def appendAttempts (writer : Writer) (data : Bytes) : List Attempt :=
  if writer.pending.isEmpty then blockAttempts data 0 writer
  else
    let limit := writer.blockLimit
    let taken := min (limit - writer.pending.size) data.size
    let pending := writer.pending ++ data.extract 0 taken
    let writer := { writer with pending := pending }
    if pending.size = limit then
      writer.flushAttempts ++ writer.flushPending.thenAttempts (blockAttempts data taken)
    else blockAttempts data taken writer

/-- The block that is written if nothing is to wait. -/
def settleAttempts (writer : Writer) : List Attempt :=
  if writer.autoFlush then writer.flushAttempts else []

/-- The blocks that a request makes a writer write, in order. -/
def attempts (writer : Writer) : Request → List Attempt
  | .begin _ => []
  | .update data =>
    match writer.phase.problem? with
    | some _ => []
    | none =>
      (writer.count data).appendAttempts data ++
        ((writer.count data).append data).thenAttempts settleAttempts
  | .flush =>
    match writer.phase.problem? with
    | some _ => []
    | none => writer.flushAttempts
  | .finish =>
    match writer.phase.problem? with
    | some _ => []
    | none =>
      match writer.endProblem? with
      | some _ => []
      | none => writer.flushAttempts

/-- What a block is written with. -/
def tools (writer : Writer) : Header × Option Stream.Compressor × Bytes :=
  (writer.header, writer.stream, writer.room)

/-- Blocks that are written one after the other, each with what the one before has left. -/
inductive Linked : Writer → List Attempt → Writer → Prop
  | nil {first last : Writer} (same : last.tools = first.tools) : Linked first [] last
  | cons {first last : Writer} {attempt : Attempt} {rest : List Attempt}
      (same : attempt.writer.tools = first.tools)
      (onward : Linked (attempt.writer.writeBlock attempt.block).2 rest last) :
      Linked first (attempt :: rest) last

/-- What a request gives out with the records of its blocks. -/
def around (writer : Writer) (records : Bytes) : Request → Bytes
  | .begin settings => settings.header.encode
  | .update _ | .flush => records
  | .finish =>
    records ++ (endMark ++ writer.hasher.elim #[] fun hasher =>
      Bytes.ofNat 4 hasher.finish.toNat)

/-- The blocks that a request makes a writer write can be written one after the other, and what it
gives out, if anything, are their records with what belongs around them. -/
def Serves (writer : Writer) (request : Request) : Prop :=
  ∃ written last, List.Forall₂ Attempt.Sound (writer.attempts request) written ∧
    Linked writer (writer.attempts request) last ∧
    ∀ output after, writer.request request = (.ok output, after) →
      output = writer.around (concat written) request

variable {writer first middle last : Writer} {header : Header} {records : RecordWriter}
  {block : Bytes} {outcome : Outcome} {listed more : List Attempt} {session : Session}
  {encoder : Encoder}

theorem Linked.of_tools (linked : Linked middle listed last) (same : middle.tools = first.tools) :
    Linked first listed last := by
  cases linked with
  | nil stays => exact .nil (stays.trans same)
  | cons meets onward => exact .cons (meets.trans same) onward

theorem Linked.append (linked : Linked first listed middle) (onward : Linked middle more last) :
    Linked first (listed ++ more) last := by
  induction linked with
  | nil same => exact onward.of_tools same
  | cons meets _ ih => exact .cons meets (ih onward)

/-- The blocks that are listed can be written one after the other, and what is given out are their
records. -/
def Accounts (writer : Writer) (listed : List Attempt) (outcome : Outcome) : Prop :=
  ∃ written, List.Forall₂ Attempt.Sound listed written ∧ Linked writer listed outcome.2 ∧
    outcome.1 = .ok (concat written)

namespace Accounts

theorem nothing (same : last.tools = writer.tools) : Accounts writer [] (.ok #[], last) :=
  ⟨[], .nil, .nil same, rfl⟩

theorem of_tools (accounts : Accounts middle listed outcome) (same : middle.tools = first.tools) :
    Accounts first listed outcome := by
  obtain ⟨written, sound, linked, gave⟩ := accounts
  exact ⟨written, sound, linked.of_tools same, gave⟩

/-- What is given out, if anything, are the records of the blocks. -/
theorem output (accounts : Accounts writer listed outcome) :
    ∃ written last, List.Forall₂ Attempt.Sound listed written ∧ Linked writer listed last ∧
      ∀ output after, outcome = (.ok output, after) → output = concat written := by
  obtain ⟨written, sound, linked, gave⟩ := accounts
  refine ⟨written, _, sound, linked, fun output after granted => ?_⟩
  subst granted
  exact Except.ok.inj gave

/-- The blocks of one thing and then of the next. -/
theorem andThen {attempts : Writer → List Attempt} {next : Writer → Outcome}
    (before : Accounts writer listed outcome)
    (behind : Accounts outcome.2 (attempts outcome.2) (next outcome.2)) :
    Accounts writer (listed ++ outcome.thenAttempts attempts) (outcome.andThen next) := by
  obtain ⟨written, sound, linked, gave⟩ := before
  obtain ⟨others, soundToo, linkedToo, gaveToo⟩ := behind
  obtain ⟨result, middle⟩ := outcome
  dsimp only at gave linked soundToo linkedToo gaveToo
  subst gave
  generalize next_eq : next middle = following at linkedToo gaveToo
  obtain ⟨resultToo, last⟩ := following
  dsimp only at linkedToo gaveToo
  subst gaveToo
  rw [Outcome.andThen, next_eq]
  refine ⟨written ++ others, List.rel_append sound soundToo, linked.append linkedToo, ?_⟩
  rw [concat_append]

end Accounts

/-- The length in front of the record of a block is not that of the end marker. -/
theorem natAt_compressRecord_ne_zero {stream : Stream.Compressor} (nonempty : 0 < block.size)
    (limit : stream.settings.chunkLimit = header.blockSize.bytes)
    (fits : block.size ≤ header.blockSize.bytes) :
    (compressRecord header block stream).1.natAt 0 4 ≠ 0 := by
  obtain ⟨stored, payload, same, positive, shorter, -⟩ :=
    compressRecord_eq header nonempty (chunkProblem_of_fits limit fits)
  have small := lt_storedBit_of_le (Nat.le_trans shorter fits)
  rw [same, Run.natAt_record header small stored]
  exact Nat.ne_of_gt (Nat.add_pos_left positive _)

theorem sound_writeBlock (keeps : writer.Keeps header records) (nonempty : 0 < block.size)
    (fits : block.size ≤ header.blockSize.bytes) :
    Attempt.Sound ⟨writer, block⟩ (compressRecord header block records.stream).1 := by
  have short := chunkProblem_of_fits keeps.limit fits
  have inRoom := Nat.le_trans fits keeps.room
  obtain ⟨room, -, wrote⟩ := writeBlock_eq keeps.stream inRoom short
  have unlikeEnd := natAt_compressRecord_ne_zero nonempty keeps.limit fits
  cases keeps.header
  refine ⟨nonempty, fits, inRoom, ⟨_, keeps.stream, ?_⟩, congrArg Prod.fst wrote, unlikeEnd⟩
  intro error refused
  rw [Stream.Compressor.compressInto_fst ((settings_blockStart _ _).symm ▸ short),
    size_slice inRoom] at refused
  split at refused
  · cases refused
  · cases refused
    exact ⟨_, rfl⟩

theorem accounts_writeBlock (keeps : writer.Keeps header records) (nonempty : 0 < block.size)
    (fits : block.size ≤ header.blockSize.bytes) :
    Accounts writer [⟨writer, block⟩] (writer.writeBlock block) := by
  have sound := sound_writeBlock keeps nonempty fits
  refine ⟨_, .cons sound .nil, .cons rfl (.nil rfl), ?_⟩
  rw [concat_cons, concat_nil, Array.append_empty]
  exact sound.wrote

theorem accounts_flushPending (keeps : writer.Keeps header records)
    (fits : records.pending.size ≤ header.blockSize.bytes) :
    Accounts writer writer.flushAttempts writer.flushPending := by
  unfold flushAttempts flushPending
  by_cases nothing : writer.pending.isEmpty = true
  · rw [if_pos nothing, if_pos nothing]
    exact .nothing rfl
  · rw [if_neg nothing, if_neg nothing]
    have nonempty : 0 < writer.pending.size := by
      rw [Array.isEmpty_iff] at nothing
      exact Array.size_pos_iff.mpr nothing
    rw [← keeps.pending] at fits
    obtain ⟨written, sound, linked, gave⟩ := accounts_writeBlock keeps nonempty fits
    -- that nothing is pending any more is no matter for the next block
    exact ⟨written, sound, linked.append (.nil rfl), gave⟩

theorem accounts_writeBlocks (data : Bytes) (pos : Nat) (keeps : writer.Keeps header records) :
    Accounts writer (blockAttempts data pos writer) (writeBlocks data pos writer) := by
  cases keeps.header
  fun_induction writeBlocks data pos writer generalizing records with
  | case1 pos writer stop full =>
    rename_i ih
    have size : (data.extract pos stop).size = writer.blockLimit := size_extract_add full
    have positive : 0 < (data.extract pos stop).size := size ▸ writer.header.blockSize.bytes_pos
    have first := accounts_writeBlock keeps positive (Nat.le_of_eq size)
    have after := (mirrors_writeBlock keeps (Nat.le_of_eq size)).keeps keeps
    unfold blockAttempts
    dsimp only
    rw [if_pos full]
    exact first.andThen (ih _ (after.header.symm ▸ after))
  | case2 pos writer stop =>
    rename_i short
    unfold blockAttempts
    dsimp only
    rw [if_neg short]
    exact .nothing rfl

theorem accounts_append (data : Bytes) (keeps : writer.Keeps header records)
    (fits : records.pending.size ≤ header.blockSize.bytes) :
    Accounts writer (writer.appendAttempts data) (writer.append data) := by
  obtain ⟨stream, pending, written⟩ := records
  unfold append appendAttempts
  dsimp only at fits ⊢
  rw [keeps.blockLimit_eq, keeps.pending]
  by_cases nothing : pending.isEmpty = true
  · rw [if_pos nothing, if_pos nothing]
    exact accounts_writeBlocks data 0 keeps
  · rw [if_neg nothing, if_neg nothing]
    generalize taken_eq : min (header.blockSize.bytes - pending.size) data.size = taken
    have filled : Keeps header ⟨stream, pending ++ data.extract 0 taken, written⟩
        { writer with pending := pending ++ data.extract 0 taken } :=
      ⟨keeps.limit, keeps.room, keeps.header, keeps.stream, rfl⟩
    -- the data fill the pending block first, and only a full one is written before the others
    by_cases full : (pending ++ data.extract 0 taken).size = header.blockSize.bytes
    · rw [if_pos full, if_pos full]
      have flushed := accounts_flushPending filled (Nat.le_of_eq full)
      have after := (mirrors_flushPending filled (Nat.le_of_eq full)).keeps filled
      exact (flushed.andThen (accounts_writeBlocks data taken after)).of_tools rfl
    · rw [if_neg full, if_neg full]
      have waiting : Accounts writer []
          (.ok #[], { writer with pending := pending ++ data.extract 0 taken }) := .nothing rfl
      exact waiting.andThen (accounts_writeBlocks data taken filled)

theorem accounts_settle (keeps : writer.Keeps header records)
    (fits : records.pending.size ≤ header.blockSize.bytes) :
    Accounts writer writer.settleAttempts writer.settle := by
  unfold settle settleAttempts
  split
  · exact accounts_flushPending keeps fits
  · exact .nothing rfl

theorem ready_of_follows (follows : writer.Follows session) : writer.Ready := by
  obtain ⟨keeps, short, -, -, -, -⟩ := follows
  have limit := keeps.blockLimit_eq
  refine ⟨⟨session.stream, keeps.stream, keeps.limit.trans limit.symm⟩, ?_, limit ▸ keeps.room⟩
  rw [limit, keeps.pending]
  exact short

theorem accounts_update (follows : writer.Follows session) (data : Bytes) :
    Accounts writer (writer.attempts (.update data)) (writer.update data) := by
  obtain ⟨header, autoFlush, stream, pending, hasher, consumed⟩ := session
  obtain ⟨keeps, short, phase, -, -, -⟩ := follows
  dsimp only at keeps short
  have counting : (writer.count data).Keeps header ⟨stream, pending, #[]⟩ :=
    ⟨keeps.limit, keeps.room, keeps.header, keeps.stream, keeps.pending⟩
  have appended := accounts_append data counting (Nat.le_of_lt short)
  have after := (mirrors_append data counting (Nat.le_of_lt short)).keeps counting
  have room := (@RecordWriter.cuts_append header ⟨stream, pending, #[]⟩ data short).2
  unfold attempts update
  rw [phase]
  exact (appended.andThen (accounts_settle after (Nat.le_of_lt room))).of_tools rfl

theorem accounts_flush (follows : writer.Follows session) :
    Accounts writer (writer.attempts .flush) writer.flush := by
  unfold attempts flush
  rw [follows.phase]
  exact accounts_flushPending follows.keeps (Nat.le_of_lt follows.short)

/-- Behind the records of the blocks of a frame that ends stand the end marker and the checksum. -/
theorem serves_finish (follows : writer.Follows session) : writer.Serves .finish := by
  unfold Serves attempts request finish
  dsimp only
  rw [follows.phase]
  dsimp only [Phase.problem?]
  cases writer.endProblem? with
  | some error =>
    refine ⟨[], writer, .nil, .nil rfl, fun output after granted => ?_⟩
    cases granted
  | none =>
    have fits := Nat.le_of_lt follows.short
    obtain ⟨written, sound, linked, gave⟩ := accounts_flushPending follows.keeps fits
    obtain ⟨bytes, room, -, -, -, flushed⟩ := mirrors_flushPending follows.keeps fits
    refine ⟨written, _, sound, linked, fun output after granted => ?_⟩
    rw [flushed] at gave granted
    obtain rfl : bytes = concat written := Except.ok.inj gave
    cases granted
    rfl

/-- Outside a frame nothing is written. -/
theorem serves_of_problem {error : Error} {request : Request}
    (problem : writer.phase.problem? = some error) (inside : request.begins = false) :
    writer.Serves request := by
  have nothing : writer.attempts request = [] := by
    cases request with
    | begin settings => rfl
    | update data | flush | finish =>
      unfold attempts
      dsimp only
      rw [problem]
  unfold Serves
  rw [nothing, request_of_problem problem inside]
  refine ⟨[], writer, .nil, .nil rfl, fun output after granted => ?_⟩
  cases granted

theorem serves_begin (writer : Writer) (settings : Settings) : writer.Serves (.begin settings) := by
  refine ⟨[], writer, .nil, .nil rfl, fun output after granted => ?_⟩
  rw [request] at granted
  cases quiet : writer.isStarted with
  | true =>
    rw [begin, if_pos quiet] at granted
    cases granted
  | false =>
    obtain ⟨last, began, -⟩ := @begin_of_quiet writer settings quiet
    rw [began] at granted
    cases granted
    rfl

theorem serves_of_shows (shows : writer.Shows encoder) (request : Request) :
    writer.Serves request := by
  cases request with
  | begin settings => exact serves_begin writer settings
  | update data =>
    cases shows with
    | started follows => exact (accounts_update follows data).output
    | idle phase | ended phase => exact serves_of_problem (congrArg Phase.problem? phase) rfl
  | flush =>
    cases shows with
    | started follows => exact (accounts_flush follows).output
    | idle phase | ended phase => exact serves_of_problem (congrArg Phase.problem? phase) rfl
  | finish =>
    cases shows with
    | started follows => exact serves_finish follows
    | idle phase | ended phase => exact serves_of_problem (congrArg Phase.problem? phase) rfl

/-- Whatever was asked of a writer before, in a frame it has a stream for its blocks, less pending
than a block, and room for a block. Whatever is asked of it next, every block that it is to write
for that can be written, each with what the one before has left, and what is given out are the
records of these blocks, besides the header, the end marker and the checksum. -/
theorem requests_serves (made : List Request) :
    ((new.requests made).2.isStarted = true → (new.requests made).2.Ready) ∧
      ∀ request, (new.requests made).2.Serves request := by
  have shows := (requests_shows (.idle rfl : new.Shows .idle) made).2
  refine ⟨fun started => ?_, serves_of_shows shows⟩
  generalize encoder_eq : (Encoder.requests .idle made).2 = encoder at shows
  cases shows with
  | idle phase | ended phase =>
    rw [isStarted, phase] at started
    cases started
  | started follows => exact ready_of_follows follows

/-- Data that wait since two calls are the one block that is written when they are flushed. -/
example : ((new.requests [.begin {}, .update #[1, 2], .update #[3]]).2.attempts .flush).map
    Attempt.block = [#[1, 2, 3]] := by
  decide +kernel

end Writer

end Lz4.Frame
