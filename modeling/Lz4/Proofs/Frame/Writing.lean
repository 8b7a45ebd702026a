import Lz4.Frame.Writer
import Lz4.Proofs.Frame.RoundTrip

/-!
# A writer does what its encoder does

A writer keeps room, pending data and a stream of its own, and can fail in the middle of a call. As
long as the room is no smaller than a block it never does: what it writes is what is written to the
records of its frame, and nothing else is touched but the room (`Lz4.Frame.Writer.Mirrors`).

What can be seen of a writer from the outside is an encoder (`Lz4.Frame.Writer.Shows`), and the two
give the same results, request by request (`Lz4.Frame.Writer.request_shows`) and over any number of
requests (`Lz4.Frame.Writer.requests_shows`). So what is known of encoders holds of writers: they
make the same frames (`Lz4.Frame.Writer.requests_of_frame`, `Lz4.Frame.Writer.requests_encode`).
-/

namespace Lz4.Frame

open Bytes

namespace Writer

variable {writer : Writer} {header : Header} {records middle after : RecordWriter}
  {outcome : Outcome}

/-- A writer that has the stream and the pending data of a record writer, and room for a block. -/
structure Keeps (header : Header) (records : RecordWriter) (writer : Writer) : Prop where
  limit : records.stream.settings.chunkLimit = header.blockSize.bytes
  room : header.blockSize.bytes ≤ writer.room.size
  header : writer.header = header
  stream : writer.stream = some records.stream
  pending : writer.pending = records.pending

/-- A writer with the stream and the pending data of a record writer. -/
def withRecords (writer : Writer) (records : RecordWriter) (room : Bytes) : Writer :=
  { writer with stream := some records.stream, pending := records.pending, room := room }

/-- What is done to the writer is done to the records: the outcome is what was written to them, and
the writer has what they have. Nothing else is touched but the room, which does not shrink. -/
def Mirrors (writer : Writer) (records after : RecordWriter) (outcome : Outcome) : Prop :=
  ∃ written room, after.written = records.written ++ written ∧
    after.stream.settings = records.stream.settings ∧ writer.room.size ≤ room.size ∧
      outcome = (.ok written, writer.withRecords after room)

theorem Keeps.blockLimit_eq (keeps : writer.Keeps header records) :
    writer.blockLimit = header.blockSize.bytes := by
  rw [blockLimit, keeps.header]

theorem Keeps.withRecords_self (keeps : writer.Keeps header records) :
    writer.withRecords records writer.room = writer := by
  obtain ⟨phase, header, autoFlush, pending, room, hasher, consumed, stream⟩ := writer
  cases keeps.stream
  cases keeps.pending
  rfl

theorem Keeps.mirrors (keeps : writer.Keeps header records) :
    writer.Mirrors records records (.ok #[], writer) :=
  ⟨#[], writer.room, Array.append_empty.symm, rfl, Nat.le_refl _, by
    rw [keeps.withRecords_self]⟩

namespace Mirrors

theorem keeps (mirrors : writer.Mirrors records after outcome)
    (before : writer.Keeps header records) : outcome.2.Keeps header after := by
  obtain ⟨written, room, -, settings, grown, rfl⟩ := mirrors
  exact ⟨settings ▸ before.limit, Nat.le_trans before.room grown, before.header, rfl, rfl⟩

theorem autoFlush (mirrors : writer.Mirrors records after outcome) :
    outcome.2.autoFlush = writer.autoFlush := by
  obtain ⟨written, room, -, -, -, rfl⟩ := mirrors
  rfl

/-- One thing after another is done to the writer as it is to the records. -/
theorem andThen {next : Writer → Outcome} (first : writer.Mirrors records middle outcome)
    (second : outcome.2.Mirrors middle after (next outcome.2)) :
    writer.Mirrors records after (outcome.andThen next) := by
  obtain ⟨written, room, wrote, settings, grown, rfl⟩ := first
  obtain ⟨more, last, wroteMore, settingsMore, grownMore, same⟩ := second
  refine ⟨written ++ more, last, ?_, settingsMore.trans settings, Nat.le_trans grown grownMore, ?_⟩
  · rw [wroteMore, wrote, Array.append_assoc]
  · rw [Outcome.andThen, same]
    rfl

end Mirrors

variable {stream last : Stream.Compressor} {block payload : Bytes}

theorem size_slice (enough : block.size ≤ writer.room.size) :
    (writer.room.extract 0 block.size).size = block.size := by
  rw [Array.size_extract]
  omega

/-- A slice that is put back in place of as many bytes does not shrink the room. -/
theorem size_room_le {slice : Bytes} (enough : block.size ≤ slice.size) :
    writer.room.size ≤ (slice ++ dropFirst writer.room block.size).size := by
  rw [Array.size_append, size_dropFirst]
  omega

theorem writeBlock_of_ok (streaming : writer.stream = some stream)
    (enough : block.size ≤ writer.room.size)
    (compressed :
      (blockStart writer.header stream).compressBlock block block.size = (.ok payload, last)) :
    ∃ room, writer.room.size ≤ room.size ∧
      writer.writeBlock block =
        (.ok (record writer.header false payload),
          { writer with stream := some last, room := room }) := by
  have slice := size_slice enough
  rw [← slice] at compressed
  have into := Stream.Compressor.compressInto_of_ok compressed
  rw [blockStart] at into
  generalize back_eq : dropFirst (writer.room.extract 0 block.size) payload.size = back at into
  refine ⟨payload ++ back ++ writer.room.dropFirst block.size, size_room_le ?_, ?_⟩
  · rw [← back_eq, Array.size_append, size_dropFirst, slice]
    omega
  · unfold writeBlock
    rw [streaming]
    dsimp only
    rw [into]
    dsimp only
    rw [Array.append_assoc, Array.extract_append_left, Array.extract_size]

theorem writeBlock_of_bufferTooSmall {needed : Nat} (streaming : writer.stream = some stream)
    (enough : block.size ≤ writer.room.size)
    (refused : (blockStart writer.header stream).compressBlock block block.size =
      (.error (.bufferTooSmall needed block.size), last)) :
    ∃ room, writer.room.size ≤ room.size ∧
      writer.writeBlock block =
        (.ok (record writer.header true block),
          { writer with stream := some last, room := room }) := by
  have slice := size_slice enough
  rw [← slice] at refused
  obtain ⟨left, kept, into⟩ := Stream.Compressor.compressInto_of_error refused
  rw [blockStart] at into
  refine ⟨left ++ writer.room.dropFirst block.size, size_room_le (slice ▸ kept), ?_⟩
  unfold writeBlock
  rw [streaming]
  dsimp only
  rw [into]

/-- A block becomes the record that it becomes in the stream alone. -/
theorem writeBlock_eq (streaming : writer.stream = some stream)
    (enough : block.size ≤ writer.room.size)
    (short : stream.settings.chunkProblem? block.size = none) :
    ∃ room, writer.room.size ≤ room.size ∧
      writer.writeBlock block =
        (.ok (compressRecord writer.header block stream).1,
          { writer with
            stream := some (compressRecord writer.header block stream).2
            room := room }) := by
  rw [← settings_blockStart writer.header stream] at short
  have result := Stream.Compressor.compressBlock_fst short block.size
  rcases compressed : (blockStart writer.header stream).compressBlock block block.size with
    ⟨found, last⟩
  rw [compressed] at result
  dsimp only at result
  split at result
  · subst result
    rw [compressRecord_of_ok compressed]
    exact writeBlock_of_ok streaming enough compressed
  · subst result
    rw [compressRecord_of_error compressed]
    exact writeBlock_of_bufferTooSmall streaming enough compressed

theorem mirrors_writeBlock (keeps : writer.Keeps header records)
    (fits : block.size ≤ header.blockSize.bytes) :
    writer.Mirrors records (records.writeBlock header block) (writer.writeBlock block) := by
  have short := chunkProblem_of_fits keeps.limit fits
  obtain ⟨room, grown, wrote⟩ :=
    writeBlock_eq keeps.stream (Nat.le_trans fits keeps.room) short
  cases keeps.header
  refine ⟨_, room, rfl, settings_compressRecord writer.header block records.stream, grown, ?_⟩
  rw [wrote, keeps.pending]
  rfl

/-- What is pending is written as it is written to the records. -/
theorem mirrors_flushPending (keeps : writer.Keeps header records)
    (fits : records.pending.size ≤ header.blockSize.bytes) :
    writer.Mirrors records (records.flush header) writer.flushPending := by
  obtain ⟨stream, pending, written⟩ := records
  unfold flushPending RecordWriter.flush
  rw [keeps.pending]
  dsimp only at fits ⊢
  by_cases nothing : pending.isEmpty = true
  · rw [if_pos nothing, if_pos nothing]
    exact keeps.mirrors
  · rw [if_neg nothing, if_neg nothing]
    obtain ⟨bytes, room, wrote, settings, grown, same⟩ := mirrors_writeBlock keeps fits
    rw [same]
    exact ⟨bytes, room, wrote, settings, grown, rfl⟩

/-- Full blocks are written straight from the data, by the writer as by the record writer. -/
theorem mirrors_writeBlocks (data : Bytes) (pos : Nat) (keeps : writer.Keeps header records) :
    writer.Mirrors records (records.appendBlocks header data pos)
      (writeBlocks data pos writer) := by
  fun_induction RecordWriter.appendBlocks header data pos records generalizing writer with
  | case1 pos records stop full =>
    rename_i ih
    have size : (data.extract pos stop).size = header.blockSize.bytes := size_extract_add full
    have first := mirrors_writeBlock keeps (Nat.le_of_eq size)
    unfold writeBlocks
    dsimp only
    rw [keeps.blockLimit_eq, if_pos full]
    exact first.andThen (ih (first.keeps keeps))
  | case2 pos stop short stream pending =>
    unfold writeBlocks
    dsimp only
    rw [keeps.blockLimit_eq, if_neg short]
    refine ⟨#[], writer.room, Array.append_empty.symm, rfl, Nat.le_refl _, ?_⟩
    rw [withRecords, keeps.pending, ← keeps.stream]

theorem mirrors_append (data : Bytes) (keeps : writer.Keeps header records)
    (fits : records.pending.size ≤ header.blockSize.bytes) :
    writer.Mirrors records (records.append header data) (writer.append data) := by
  obtain ⟨stream, pending, written⟩ := records
  unfold append RecordWriter.append
  dsimp only at fits ⊢
  rw [keeps.blockLimit_eq, keeps.pending]
  by_cases nothing : pending.isEmpty = true
  · rw [if_pos nothing, if_pos nothing]
    exact mirrors_writeBlocks data 0 keeps
  · rw [if_neg nothing, if_neg nothing]
    generalize taken_eq : min (header.blockSize.bytes - pending.size) data.size = taken
    have filled : Keeps header ⟨stream, pending ++ data.extract 0 taken, written⟩
        { writer with pending := pending ++ data.extract 0 taken } :=
      ⟨keeps.limit, keeps.room, keeps.header, keeps.stream, rfl⟩
    by_cases full : (pending ++ data.extract 0 taken).size = header.blockSize.bytes
    · rw [if_pos full, if_pos full]
      have flushed := mirrors_flushPending filled (Nat.le_of_eq full)
      exact flushed.andThen (mirrors_writeBlocks data taken (flushed.keeps filled))
    · rw [if_neg full, if_neg full]
      exact filled.mirrors.andThen (mirrors_writeBlocks data taken filled)

theorem mirrors_settle (keeps : writer.Keeps header records)
    (fits : records.pending.size ≤ header.blockSize.bytes) :
    writer.Mirrors records (if writer.autoFlush then records.flush header else records)
      writer.settle := by
  unfold settle
  split
  · exact mirrors_flushPending keeps fits
  · exact keeps.mirrors

variable {session : Session} {encoder : Encoder} {settings : Settings}

/-- A writer in a frame that is where the session is. -/
structure Follows (session : Session) (writer : Writer) : Prop where
  keeps : writer.Keeps session.header ⟨session.stream, session.pending, #[]⟩
  short : session.pending.size < session.header.blockSize.bytes
  phase : writer.phase = .started
  autoFlush : writer.autoFlush = session.autoFlush
  hasher : writer.hasher = session.hasher
  consumed : writer.consumed = session.consumed

/-- What can be seen of a writer from the outside: that it is before, in or after a frame. -/
inductive Shows (writer : Writer) : Encoder → Prop where
  | idle (phase : writer.phase = .idle) : writer.Shows .idle
  | started {session : Session} (follows : writer.Follows session) : writer.Shows (.started session)
  | ended (phase : writer.phase = .ended) : writer.Shows .ended

theorem isStarted_of_shows (shows : writer.Shows encoder) :
    writer.isStarted = encoder.isStarted := by
  cases shows with
  | idle phase =>
    rw [isStarted, phase]
    rfl
  | started follows =>
    rw [isStarted, follows.phase]
    rfl
  | ended phase =>
    rw [isStarted, phase]
    rfl

/-- Every frame can have a stream. -/
theorem new_streamSettings (settings : Settings) :
    Stream.Compressor.new (Session.streamSettings settings) =
      .ok (.ofDictionary (Session.streamSettings settings) #[]) := by
  have valid : (Session.streamSettings settings).problem? = none := by
    have positive := settings.blockSize.bytes_pos
    have small : settings.blockSize.bytes ≤ Block.maxInputSize := by
      cases settings.blockSize <;> decide
    rw [Stream.Settings.problem?, Session.streamSettings, if_neg (Nat.ne_of_gt positive),
      if_neg (Nat.not_lt_of_le small)]
  rw [Stream.Compressor.new, valid]

/-- A frame begins like any other, whatever is left from the frame before. -/
theorem begin_of_quiet (quiet : writer.isStarted = false) :
    ∃ after, writer.begin settings = (.ok settings.header.encode, after) ∧
      after.Follows (.start settings) := by
  unfold begin
  rw [if_neg (by rw [quiet]; exact Bool.false_ne_true), new_streamSettings]
  refine ⟨_, rfl, ⟨rfl, ?_, rfl, ?_, rfl⟩, settings.blockSize.bytes_pos, rfl, rfl, rfl, rfl⟩
  · dsimp only
    rw [Array.size_append, Array.size_replicate]
    change settings.blockSize.bytes ≤ _
    omega
  · exact congrArg some (Stream.Compressor.setDictionary_ofDictionary _ _ _)

/-- A writer that did what was done to the records is where a session with these records is, if what
is pending does not fill a block. -/
theorem Mirrors.follows {stream : Stream.Compressor} {pending : Bytes}
    (mirrors : writer.Mirrors ⟨stream, pending, #[]⟩ after outcome)
    (keeps : writer.Keeps header ⟨stream, pending, #[]⟩) (phase : writer.phase = .started)
    (short : after.pending.size < header.blockSize.bytes) :
    ∃ last, outcome = (.ok after.written, last) ∧
      last.Follows ⟨header, writer.autoFlush, after.stream, after.pending, writer.hasher,
        writer.consumed⟩ := by
  have standsAfter := mirrors.keeps keeps
  obtain ⟨written, room, wrote, -, -, rfl⟩ := mirrors
  rw [Array.empty_append] at wrote
  rw [wrote]
  refine ⟨_, rfl, ?_, short, phase, rfl, rfl, rfl⟩
  exact ⟨standsAfter.limit, standsAfter.room, keeps.header, rfl, rfl⟩

/-- Taking in data is never refused in a frame, and the writer goes on with the session. -/
theorem update_of_follows (follows : writer.Follows session) (data : Bytes) :
    ∃ last, writer.update data = (.ok (session.update data).1, last) ∧
      last.Follows (session.update data).2 := by
  obtain ⟨header, autoFlush, stream, pending, hasher, consumed⟩ := session
  obtain ⟨keeps, short, phase, rfl, rfl, rfl⟩ := follows
  dsimp only at keeps short
  have counting : (writer.count data).Keeps header ⟨stream, pending, #[]⟩ :=
    ⟨keeps.limit, keeps.room, keeps.header, keeps.stream, keeps.pending⟩
  have appended := mirrors_append data counting (Nat.le_of_lt short)
  have room := (@RecordWriter.cuts_append header ⟨stream, pending, #[]⟩ data short).2
  have settled := appended.andThen (mirrors_settle (appended.keeps counting) (Nat.le_of_lt room))
  rw [appended.autoFlush] at settled
  unfold update
  rw [phase]
  dsimp only [Phase.problem?]
  refine settled.follows counting phase ?_
  split
  · exact RecordWriter.room_flush header _
  · exact room

theorem flush_of_follows (follows : writer.Follows session) :
    ∃ last, writer.flush = (.ok session.flush.1, last) ∧ last.Follows session.flush.2 := by
  obtain ⟨header, autoFlush, stream, pending, hasher, consumed⟩ := session
  obtain ⟨keeps, short, phase, rfl, rfl, rfl⟩ := follows
  have flushed := mirrors_flushPending keeps (Nat.le_of_lt short)
  unfold flush
  rw [phase]
  dsimp only [Phase.problem?]
  exact flushed.follows keeps phase (RecordWriter.room_flush header _)

theorem endProblem_of_follows (follows : writer.Follows session) :
    writer.endProblem? = session.endProblem? := by
  obtain ⟨header, autoFlush, stream, pending, hasher, consumed⟩ := session
  obtain ⟨keeps, -, -, -, -, rfl⟩ := follows
  cases keeps.header
  rfl

/-- A frame ends as the session does, or is refused the end and goes on. -/
theorem finish_of_follows (follows : writer.Follows session) :
    (∀ error, session.endProblem? = some error → writer.finish = (.error error, writer)) ∧
    (session.endProblem? = none →
      ∃ last, writer.finish = (.ok session.close, last) ∧ last.phase = .ended) := by
  unfold finish
  rw [follows.phase, endProblem_of_follows follows]
  dsimp only [Phase.problem?]
  constructor
  · intro error refused
    rw [refused]
  · intro fine
    rw [fine]
    dsimp only
    obtain ⟨header, autoFlush, stream, pending, hasher, consumed⟩ := session
    obtain ⟨keeps, short, phase, rfl, rfl, rfl⟩ := follows
    have flushed := mirrors_flushPending keeps (Nat.le_of_lt short)
    obtain ⟨written, room, wrote, -, -, same⟩ := flushed
    rw [Array.empty_append] at wrote
    rw [same, Session.close, Session.flush]
    dsimp only
    rw [wrote, Array.append_assoc]
    exact ⟨_, rfl, rfl⟩

end Writer

/-- Whether a request begins a frame. -/
def Request.begins : Request → Bool
  | begin _ => true
  | _ => false

/-- Whether a request ends a frame. -/
def Request.ends : Request → Bool
  | finish => true
  | _ => false

theorem Encoder.exists_session {encoder : Encoder} (busy : encoder.isStarted = true) :
    ∃ session, encoder = .started session := by
  cases encoder with
  | started session => exact ⟨session, rfl⟩
  | idle => cases busy
  | ended => cases busy

def Encoder.request (encoder : Encoder) : Request → Except Error Bytes × Encoder
  | .begin settings => encoder.begin settings
  | .update data => encoder.update data
  | .flush => encoder.flush
  | .finish => encoder.finish

/-- Makes requests in order; one that is refused does not keep the next from being made. -/
def Encoder.requests (encoder : Encoder) : List Request → List (Except Error Bytes) × Encoder
  | [] => ([], encoder)
  | request :: rest =>
    match encoder.request request with
    | (result, after) =>
      match after.requests rest with
      | (results, last) => (result :: results, last)

theorem Encoder.requests_cons (encoder : Encoder) (request : Request) (rest : List Request) :
    encoder.requests (request :: rest) =
      ((encoder.request request).1 :: ((encoder.request request).2.requests rest).1,
        ((encoder.request request).2.requests rest).2) := rfl

namespace Writer

variable {writer first second : Writer} {encoder : Encoder} {session : Session}

/-- Outside a frame nothing but its beginning is granted. -/
theorem request_of_problem {error : Error} (problem : writer.phase.problem? = some error)
    {request : Request} (inside : request.begins = false) :
    writer.request request = (.error error, writer) := by
  cases request with
  | begin settings => cases inside
  | update data => rw [Writer.request, update, problem]
  | flush => rw [Writer.request, flush, problem]
  | finish => rw [Writer.request, finish, problem]

/-- A frame is begun by both or by neither. -/
theorem begin_shows (shows : writer.Shows encoder) (settings : Settings) :
    (∃ error, encoder.begin settings = (.error error, encoder) ∧
      writer.begin settings = (.error error, writer)) ∨
    ∃ written next last, encoder.begin settings = (.ok written, next) ∧
      writer.begin settings = (.ok written, last) ∧ last.Shows next := by
  have started := isStarted_of_shows shows
  cases busy : encoder.isStarted with
  | true =>
    rw [busy] at started
    obtain ⟨session, rfl⟩ := Encoder.exists_session busy
    refine Or.inl ⟨_, rfl, ?_⟩
    rw [begin, if_pos started]
  | false =>
    rw [busy] at started
    obtain ⟨last, began, follows⟩ := @begin_of_quiet writer settings started
    exact Or.inr ⟨_, _, last, Encoder.begin_of_quiet busy, began, .started follows⟩

theorem finish_shows (follows : writer.Follows session) :
    (∃ error, (Encoder.started session).finish = (.error error, .started session) ∧
      writer.finish = (.error error, writer)) ∨
    ∃ written next last, (Encoder.started session).finish = (.ok written, next) ∧
      writer.finish = (.ok written, last) ∧ last.Shows next := by
  obtain ⟨refused, granted⟩ := finish_of_follows follows
  unfold Encoder.finish
  dsimp only
  cases problem : session.endProblem? with
  | some error => exact Or.inl ⟨error, rfl, refused error problem⟩
  | none =>
    obtain ⟨last, same, after⟩ := granted problem
    exact Or.inr ⟨_, .ended, last, rfl, same, .ended after⟩

/-- A request is refused for the reason for which the encoder refuses it, and changes nothing then.
Otherwise both give out the same. -/
theorem request_shows (shows : writer.Shows encoder) (request : Request) :
    (∃ error, encoder.request request = (.error error, encoder) ∧
      writer.request request = (.error error, writer)) ∨
    ∃ written next last, encoder.request request = (.ok written, next) ∧
      writer.request request = (.ok written, last) ∧ last.Shows next := by
  cases request with
  | begin settings => exact begin_shows shows settings
  | update data =>
    cases shows with
    | started follows =>
      obtain ⟨last, same, after⟩ := update_of_follows follows data
      exact Or.inr ⟨_, _, last, rfl, same, .started after⟩
    | idle phase | ended phase => exact Or.inl ⟨_, rfl, request_of_problem (phase ▸ rfl) rfl⟩
  | flush =>
    cases shows with
    | started follows =>
      obtain ⟨last, same, after⟩ := flush_of_follows follows
      exact Or.inr ⟨_, _, last, rfl, same, .started after⟩
    | idle phase | ended phase => exact Or.inl ⟨_, rfl, request_of_problem (phase ▸ rfl) rfl⟩
  | finish =>
    cases shows with
    | started follows => exact finish_shows follows
    | idle phase | ended phase => exact Or.inl ⟨_, rfl, request_of_problem (phase ▸ rfl) rfl⟩

theorem requests_cons (writer : Writer) (request : Request) (rest : List Request) :
    writer.requests (request :: rest) =
      ((writer.request request).1 :: ((writer.request request).2.requests rest).1,
        ((writer.request request).2.requests rest).2) := rfl

/-- Whatever is asked of a writer, it gives the results of its encoder and goes on showing it. -/
theorem requests_shows (shows : writer.Shows encoder) (made : List Request) :
    (writer.requests made).1 = (encoder.requests made).1 ∧
      (writer.requests made).2.Shows (encoder.requests made).2 := by
  induction made generalizing writer encoder with
  | nil => exact ⟨rfl, shows⟩
  | cons request rest ih =>
    rw [requests_cons, Encoder.requests_cons]
    rcases request_shows shows request with
      ⟨error, refuses, refused⟩ | ⟨written, next, last, grants, granted, onward⟩
    · obtain ⟨same, further⟩ := ih shows
      rw [refuses, refused]
      exact ⟨by rw [same], further⟩
    · obtain ⟨same, further⟩ := ih onward
      rw [grants, granted]
      exact ⟨by rw [same], further⟩

/-- Writers that show the same encoder give the same results. -/
theorem requests_of_shows (shows : first.Shows encoder) (same : second.Shows encoder)
    (made : List Request) : (first.requests made).1 = (second.requests made).1 :=
  (requests_shows shows made).1.trans (requests_shows same made).1.symm

end Writer

/-- The request that is made by a call in a frame. -/
def Call.request : Call → Request
  | update data => .update data
  | flush => .flush

namespace Encoder

variable {encoder after : Encoder} {settings : Settings} {written frame : Bytes}

theorem requests_append (encoder : Encoder) (made more : List Request) :
    encoder.requests (made ++ more) =
      ((encoder.requests made).1 ++ ((encoder.requests made).2.requests more).1,
        ((encoder.requests made).2.requests more).2) := by
  induction made generalizing encoder with
  | nil => rfl
  | cons request rest ih => rw [List.cons_append, requests_cons, ih, requests_cons]; rfl

/-- Calls of which none is refused give out what the requests give out, put together. -/
theorem requests_of_calls {calls : List Call} (made : encoder.calls calls = (.ok written, after)) :
    ∃ outputs, encoder.requests (calls.map Call.request) = (outputs.map .ok, after) ∧
      concat outputs = written := by
  induction calls generalizing encoder written with
  | nil =>
    cases made
    exact ⟨[], rfl, rfl⟩
  | cons call rest ih =>
    have asked : encoder.request call.request = encoder.call call := by cases call <;> rfl
    rw [List.map_cons, requests_cons, asked]
    unfold Encoder.calls at made
    split at made
    · cases made
    · rename_i first middle given
      split at made
      · cases made
      · rename_i others last givenRest
        cases made
        obtain ⟨outputs, same, together⟩ := ih givenRest
        refine ⟨first :: outputs, ?_, ?_⟩
        · rw [given, same]
          rfl
        · rw [concat_cons, together]

theorem requests_of_frame {calls : List Call}
    (made : encoder.frame settings calls = (.ok frame, after)) :
    ∃ outputs, encoder.requests (.begin settings :: calls.map Call.request ++ [.finish]) =
        (outputs.map .ok, after) ∧ concat outputs = frame := by
  unfold Encoder.frame at made
  split at made
  · cases made
  · rename_i front begun began
    split at made
    · cases made
    · rename_i records filled called
      split at made
      · cases made
      · rename_i back last finished
        cases made
        obtain ⟨outputs, same, together⟩ := requests_of_calls called
        refine ⟨front :: outputs ++ [back], ?_, ?_⟩
        · rw [requests_append, requests_cons, Encoder.request, began, same, requests_cons,
            Encoder.request, finished, List.map_append]
          rfl
        · rw [concat_append, concat_cons, together, concat_cons, concat_nil, Array.append_empty]

end Encoder

namespace Writer

variable {writer : Writer} {encoder after : Encoder} {settings : Settings}

/-- A writer outside of frames shows an encoder that is outside of frames. -/
theorem exists_shows_of_quiet (quiet : writer.isStarted = false) :
    ∃ encoder, writer.Shows encoder ∧ encoder.isStarted = false := by
  cases phase : writer.phase with
  | idle => exact ⟨.idle, .idle phase, rfl⟩
  | started =>
    rw [isStarted, phase] at quiet
    cases quiet
  | ended => exact ⟨.ended, .ended phase, rfl⟩

/-- Calls that a session grants are granted by a writer that begins its frame. -/
theorem requests_of_calls {calls : List Call} {written : Bytes} {session : Session}
    (quiet : writer.isStarted = false)
    (made : (Encoder.started (.start settings)).calls calls = (.ok written, .started session)) :
    ∃ outputs last, writer.requests (.begin settings :: calls.map Call.request) =
        (outputs.map .ok, last) ∧
      concat outputs = settings.header.encode ++ written ∧ last.Follows session := by
  obtain ⟨encoder, shows, quietToo⟩ := exists_shows_of_quiet quiet
  obtain ⟨outputs, requested, together⟩ := Encoder.requests_of_calls made
  have asked : encoder.requests (.begin settings :: calls.map Call.request) =
      (.ok settings.header.encode :: outputs.map .ok, .started session) := by
    rw [Encoder.requests_cons, Encoder.request, Encoder.begin_of_quiet quietToo, requested]
  obtain ⟨same, onward⟩ := requests_shows shows (.begin settings :: calls.map Call.request)
  rw [asked] at same onward
  cases onward with
  | started follows =>
    refine ⟨settings.header.encode :: outputs, _, Prod.ext same rfl, ?_, follows⟩
    rw [concat_cons, together]

/-- A frame that is made by the encoder of a writer is made by the writer. -/
theorem requests_of_frame {calls : List Call} {frame : Bytes} (shows : writer.Shows encoder)
    (made : encoder.frame settings calls = (.ok frame, after)) :
    ∃ outputs last, writer.requests (.begin settings :: calls.map Call.request ++ [.finish]) =
        (outputs.map .ok, last) ∧ concat outputs = frame ∧ last.Shows after := by
  obtain ⟨outputs, asked, together⟩ := Encoder.requests_of_frame made
  obtain ⟨same, onward⟩ :=
    requests_shows shows (.begin settings :: calls.map Call.request ++ [.finish])
  rw [asked] at same onward
  exact ⟨outputs, _, Prod.ext same rfl, together, onward⟩

/-- Data that are all there are encoded as a new writer encodes them. -/
theorem requests_encode (data : Bytes) (settings : Settings) :
    ∃ header records back last,
      new.requests [.begin settings, .update data, .finish] =
        ([.ok header, .ok records, back], last) ∧
      encode data settings = back.map (header ++ records ++ ·) := by
  obtain ⟨begun, began, follows⟩ := @begin_of_quiet new settings rfl
  obtain ⟨filled, updated, follows⟩ := update_of_follows follows data
  obtain ⟨refused, granted⟩ := finish_of_follows follows
  refine ⟨settings.header.encode, ((Session.start settings).update data).1, filled.finish.1,
    filled.finish.2, ?_, ?_⟩
  · rw [requests_cons, Writer.request, began, requests_cons, Writer.request, updated]
    rfl
  · unfold encode
    dsimp only
    cases problem : ((Session.start settings).update data).2.endProblem? with
    | some error =>
      rw [refused error problem]
      rfl
    | none =>
      obtain ⟨last, same, -⟩ := granted problem
      rw [same]
      rfl

end Writer

end Lz4.Frame
