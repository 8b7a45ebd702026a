import Lz4.Proofs.Frame.Edges

/-!
# Frames decode to what was encoded

However the data of a frame are divided into calls of its encoder, and wherever the encoder is told
to write what is pending, a decoder that holds the same dictionary gives out the data, takes in the
whole frame and is complete (`Lz4.Frame.decode_frame`). What an encoder wrote always carries what it
took in, but for what is pending (`Lz4.Frame.Session.Wrote`).
-/

namespace Lz4.Frame

open Bytes Checksum

/-- What can be asked of an encoder between the beginning and the end of a frame. -/
inductive Call where
  | update (data : Bytes)
  | flush
  deriving Repr, DecidableEq

/-- The data that a call takes in. -/
def Call.data : Call → Bytes
  | update data => data
  | flush => #[]

/-- The data that calls take in, put together. -/
def contents (calls : List Call) : Bytes := concat (calls.map Call.data)

namespace Encoder

def call (encoder : Encoder) : Call → Except Error Bytes × Encoder
  | .update data => encoder.update data
  | .flush => encoder.flush

/-- Makes calls up to the first that is refused. The result is what they gave out, put together. -/
def calls (encoder : Encoder) : List Call → Except Error Bytes × Encoder
  | [] => (.ok #[], encoder)
  | call :: rest =>
    match encoder.call call with
    | (.error error, encoder) => (.error error, encoder)
    | (.ok written, encoder) =>
      match encoder.calls rest with
      | (.error error, encoder) => (.error error, encoder)
      | (.ok more, encoder) => (.ok (written ++ more), encoder)

/-- Begins a frame, makes calls and ends it. The result is the frame. -/
def frame (encoder : Encoder) (settings : Settings) (calls : List Call) :
    Except Error Bytes × Encoder :=
  match encoder.begin settings with
  | (.error error, encoder) => (.error error, encoder)
  | (.ok front, encoder) =>
    match encoder.calls calls with
    | (.error error, encoder) => (.error error, encoder)
    | (.ok records, encoder) =>
      match encoder.finish with
      | (.error error, encoder) => (.error error, encoder)
      | (.ok back, encoder) => (.ok (front ++ records ++ back), encoder)

end Encoder

namespace Session

/-- Writing what is pending is cutting a block from it. -/
theorem cuts_flush (session : Session)
    (room : session.pending.size < session.header.blockSize.bytes) :
    (∃ blocks records, RecordWriter.Cuts session.header ⟨session.stream, session.pending, #[]⟩
      ⟨session.flush.2.stream, session.flush.2.pending, session.flush.1⟩ #[] blocks records) ∧
      session.flush.2.pending.size < session.header.blockSize.bytes :=
  ⟨RecordWriter.cuts_flush (Nat.le_of_lt room), RecordWriter.room_flush _ _⟩

/-- Taking in data is cutting blocks from the pending bytes and the data. -/
theorem cuts_update (session : Session)
    (room : session.pending.size < session.header.blockSize.bytes) (data : Bytes) :
    (∃ blocks records, RecordWriter.Cuts session.header ⟨session.stream, session.pending, #[]⟩
      ⟨(session.update data).2.stream, (session.update data).2.pending, (session.update data).1⟩
      data blocks records) ∧
      (session.update data).2.pending.size < session.header.blockSize.bytes := by
  obtain ⟨header, autoFlush, stream, pending, hasher, consumed⟩ := session
  obtain ⟨⟨blocks, records, appended⟩, roomAfter⟩ :=
    @RecordWriter.cuts_append header ⟨stream, pending, #[]⟩ data room
  unfold update
  cases autoFlush with
  | false => exact ⟨⟨blocks, records, appended⟩, roomAfter⟩
  | true =>
    obtain ⟨more, moreRecords, flushed⟩ := RecordWriter.cuts_flush (Nat.le_of_lt roomAfter)
    have cuts := appended.trans flushed
    rw [Array.append_empty] at cuts
    exact ⟨⟨_, _, cuts⟩, RecordWriter.room_flush _ _⟩

/-- What a session of a frame wrote behind the header carries its input, but for what is pending. -/
structure Wrote (settings : Settings) (session : Session) (input written : Bytes) : Prop where
  header : session.header = settings.header
  hasher : session.hasher = contentHasher settings.header {} input
  consumed : session.consumed = input.size
  room : session.pending.size < settings.header.blockSize.bytes
  carried : ∃ content,
    Carries settings.header (start settings).stream session.stream written content ∧
      input = content ++ session.pending

variable {settings : Settings} {session : Session} {input written : Bytes}

theorem wrote_start (settings : Settings) : Wrote settings (start settings) #[] #[] := by
  refine ⟨rfl, ?_, rfl, settings.header.blockSize.bytes_pos, #[], Carries.refl _ _, rfl⟩
  rw [contentHasher, Hasher.update_empty, Bool.and_true]
  rfl

namespace Wrote

theorem limit (wrote : session.Wrote settings input written) :
    session.stream.settings.chunkLimit = settings.header.blockSize.bytes := by
  obtain ⟨content, carries, -⟩ := wrote.carried
  rw [carries.settings]
  rfl

/-- The invariant holds behind whatever a record writer does with the pending data and more. -/
theorem advance {after : RecordWriter} {data : Bytes}
    (wrote : session.Wrote settings input written)
    (advances : RecordWriter.Advances settings.header ⟨session.stream, session.pending, #[]⟩ after
      data)
    (room : after.pending.size < settings.header.blockSize.bytes) :
    Wrote settings ⟨session.header, session.autoFlush, after.stream, after.pending,
      session.hasher.map (·.update data), session.consumed + data.size⟩ (input ++ data)
      (written ++ after.written) := by
  obtain ⟨content, carries, kept⟩ := wrote.carried
  obtain ⟨more, moreContent, grown, carriesMore, keptMore⟩ := advances
  rw [Array.empty_append] at grown
  refine ⟨wrote.header, ?_, ?_, room, content ++ moreContent, ?_, ?_⟩
  · rw [wrote.hasher, contentHasher_append]
  · rw [wrote.consumed, Array.size_append]
  · rw [grown]
    exact carries.trans carriesMore
  · rw [kept, Array.append_assoc, keptMore, Array.append_assoc]

theorem flush (wrote : session.Wrote settings input written) :
    session.flush.2.Wrote settings input (written ++ session.flush.1) := by
  have room := wrote.room
  rw [← wrote.header] at room
  obtain ⟨⟨blocks, records, cuts⟩, roomAfter⟩ := session.cuts_flush room
  rw [wrote.header] at cuts roomAfter
  have after := wrote.advance (cuts.advances wrote.limit) roomAfter
  obtain ⟨header, autoFlush, stream, pending, hasher, consumed⟩ := session
  have same : hasher.map (·.update #[]) = hasher := by simp
  dsimp only at after
  rwa [Array.append_empty, same] at after

theorem update (wrote : session.Wrote settings input written) (data : Bytes) :
    (session.update data).2.Wrote settings (input ++ data)
      (written ++ (session.update data).1) := by
  have room := wrote.room
  rw [← wrote.header] at room
  obtain ⟨⟨blocks, records, cuts⟩, roomAfter⟩ := session.cuts_update room data
  rw [wrote.header] at cuts roomAfter
  exact wrote.advance (cuts.advances wrote.limit) roomAfter

/-- Once everything is flushed, what was written carries the whole input. -/
theorem carries_flush (wrote : session.Wrote settings input written) :
    Carries settings.header (start settings).stream session.flush.2.stream
      (written ++ session.flush.1) input := by
  obtain ⟨content, carries, kept⟩ := wrote.flush.carried
  have empty : session.flush.2.pending = #[] := RecordWriter.pending_flush _ _
  rw [empty, Array.append_empty] at kept
  rwa [← kept] at carries

theorem close_eq (wrote : session.Wrote settings input written) :
    session.close = session.flush.1 ++ ending settings.header input := by
  rw [close, ending, wrote.hasher, contentHasher, ← Array.append_assoc]
  cases settings.header.contentChecksum with
  | false => rfl
  | true => rfl

theorem endProblem_none (wrote : session.Wrote settings input written)
    (announced : ∀ size, settings.header.knownContentSize = some size → size.toNat = input.size) :
    session.endProblem? = none := by
  unfold endProblem?
  rw [wrote.header]
  split
  · rfl
  · rename_i size known
    rw [if_pos]
    rw [wrote.consumed, announced size known]

theorem announced (wrote : session.Wrote settings input written)
    (fine : session.endProblem? = none) :
    ∀ size, settings.header.knownContentSize = some size → size.toNat = input.size := by
  intro size known
  rw [endProblem?, wrote.header, known] at fine
  dsimp only at fine
  split at fine
  · rename_i total
    exact total.trans wrote.consumed
  · cases fine

end Wrote

end Session

namespace Encoder

variable {settings : Settings} {session : Session} {input written : Bytes}

/-- Unless a frame is in progress, a frame is begun. -/
theorem begin_of_quiet {encoder : Encoder} (quiet : encoder.isStarted = false) :
    encoder.begin settings = (.ok settings.header.encode, .started (.start settings)) := by
  cases encoder with
  | started session => cases quiet
  | idle => rfl
  | ended => rfl

/-- No call in a frame is refused, and the invariant holds behind every one. -/
theorem wrote_call (wrote : session.Wrote settings input written) (call : Call) :
    ∃ more after, (started session).call call = (.ok more, started after) ∧
      after.Wrote settings (input ++ call.data) (written ++ more) := by
  cases call with
  | update data => exact ⟨_, _, rfl, wrote.update data⟩
  | flush => exact ⟨_, _, rfl, wrote.flush⟩

theorem wrote_calls (calls : List Call) (wrote : session.Wrote settings input written) :
    ∃ more after, (started session).calls calls = (.ok more, started after) ∧
      after.Wrote settings (input ++ contents calls) (written ++ more) := by
  induction calls generalizing session input written with
  | nil =>
    refine ⟨#[], session, rfl, ?_⟩
    rwa [Array.append_empty, contents, List.map_nil, concat_nil, Array.append_empty]
  | cons call rest ih =>
    obtain ⟨more, middle, made, wroteMiddle⟩ := wrote_call wrote call
    obtain ⟨others, after, madeRest, wroteAfter⟩ := ih wroteMiddle
    refine ⟨more ++ others, after, ?_, ?_⟩
    · rw [Encoder.calls, made]
      dsimp only
      rw [madeRest]
    · rwa [contents, List.map_cons, concat_cons, ← contents, ← Array.append_assoc,
        ← Array.append_assoc]

end Encoder

/-- A size of zero is not announced. -/
theorem knownContentSize_of_announced {settings : Settings} {length : Nat}
    (announced : ∀ size, settings.contentSize = some size → size = 0 ∨ size.toNat = length) :
    ∀ size, settings.header.knownContentSize = some size → size.toNat = length := by
  intro size same
  obtain ⟨given, nonzero⟩ := Option.filter_eq_some_iff.mp same
  rcases announced size given with zero | total
  · simp [zero] at nonzero
  · exact total

/-- A decoder that is given a header and records takes them in, and has then found the content that
the records carry, whatever comes behind them. -/
theorem between_of_carries {decoder : Decoder} {settings : Settings} {after : Stream.Compressor}
    {records content : Bytes} (stage : decoder.stage = .header) (empty : decoder.pending = #[])
    (dictionary : decoder.options.dictionary = Block.dictionaryWindow settings.dictionary)
    (carries : Carries settings.header (Session.start settings).stream after records content)
    (rest : Bytes) :
    let data := settings.header.encode ++ (records ++ rest)
    ∃ next : Run, (decoder.fresh.drive data).Same (next.drive data) ∧
      next.Between settings.header after content (settings.header.encode.size + records.size) := by
  intro data
  have held : data.Holds settings.header.encode.size (records ++ rest) := holds_append_right _ _
  have header := Run.same_drive_header settings.header (records ++ rest) stage empty
  obtain ⟨next, toNext, between⟩ :=
    carries.onward (Run.between_readHeader empty dictionary) (holds_append_iff.mp held).1
  rw [toNext] at header
  rw [Array.empty_append] at between
  exact ⟨next, header, between⟩

/-- A header, records that carry the content and the end of the frame are decoded to the content. -/
theorem decode_of_carries {decoder : Decoder} {settings : Settings} {after : Stream.Compressor}
    {records content : Bytes} (stage : decoder.stage = .header) (empty : decoder.pending = #[])
    (dictionary : decoder.options.dictionary = Block.dictionaryWindow settings.dictionary)
    (announced : ∀ size, settings.header.knownContentSize = some size → size.toNat = content.size)
    (carries : Carries settings.header (Session.start settings).stream after records content) :
    let frame := settings.header.encode ++ (records ++ ending settings.header content)
    ∃ final, decoder.decode frame = (.ok (content, frame.size), final) ∧
      final.isComplete = true := by
  intro frame
  have held : frame.Holds settings.header.encode.size (records ++ ending settings.header content) :=
    holds_append_right _ _
  obtain ⟨last, toLast, between⟩ :=
    between_of_carries stage empty dictionary carries (ending settings.header content)
  have ends : settings.header.encode.size + records.size +
      (ending settings.header content).size = frame.size := by
    simp only [frame, Array.size_append, Nat.add_assoc]
  obtain ⟨final, stopped, complete⟩ :=
    Run.drive_ending between announced (holds_append_iff.mp held).2 ends
  have driven := toLast.symm.eq_of_sound (by rw [stopped])
  rw [stopped] at driven
  refine ⟨final, ?_, ?_⟩
  · rw [Decoder.decode_of_sound (by rw [← driven]), ← driven]
  · rw [Decoder.isComplete, complete]
    rfl

/-- However the data of a frame are divided into calls, and wherever the encoder is told to write
what is pending, a decoder that holds the same dictionary gives out the data, takes in the whole
frame and is complete. -/
theorem decode_frame (decoder : Decoder) {encoder : Encoder} (quiet : encoder.isStarted = false)
    (settings : Settings) (calls : List Call)
    (announced : ∀ size, settings.contentSize = some size →
      size = 0 ∨ size.toNat = (contents calls).size) :
    ∃ frame final, encoder.frame settings calls = (.ok frame, .ended) ∧
      (decoder.reset.setDictionary settings.dictionary).decode frame =
        (.ok (contents calls, frame.size), final) ∧
      final.isComplete = true := by
  have known := knownContentSize_of_announced announced
  obtain ⟨records, session, made, wrote⟩ :=
    Encoder.wrote_calls calls (Session.wrote_start settings)
  rw [Array.empty_append, Array.empty_append] at wrote
  have dictionary : (decoder.reset.setDictionary settings.dictionary).options.dictionary =
      Block.dictionaryWindow settings.dictionary := by
    simp only [Decoder.setDictionary]
  obtain ⟨final, decoded, complete⟩ :=
    decode_of_carries rfl rfl dictionary known wrote.carries_flush
  refine ⟨_, final, ?_, decoded, complete⟩
  simp only [Encoder.frame, Encoder.begin_of_quiet quiet, made, Encoder.finish,
    wrote.endProblem_none known, wrote.close_eq, Array.append_assoc]

theorem decode_frame_two_blocks :
    let settings : Settings :=
      { independentBlocks := false, contentSize := some 6, dictionary := #[2, 3] }
    let calls : List Call := [.update #[1, 2, 3], .flush, .update #[1, 2, 3]]
    ∃ frame final, Encoder.ended.frame settings calls = (.ok frame, .ended) ∧
      (Decoder.new.reset.setDictionary settings.dictionary).decode frame =
        (.ok (#[1, 2, 3, 1, 2, 3], frame.size), final) ∧
      final.isComplete = true := by
  intro settings calls
  refine decode_frame Decoder.new rfl settings calls ?_
  intro size same
  cases same
  exact Or.inr rfl

end Lz4.Frame
