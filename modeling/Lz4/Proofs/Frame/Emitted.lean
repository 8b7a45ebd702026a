import Mathlib.Data.List.Induction
import Lz4.Proofs.Frame.Writing

/-!
# Nothing but what is pending is missing

In the middle of a frame everything that a writer gave out can be decoded at once: a decoder that
was fed all of it has found what the writer took in, but for what is pending, and waits for more
(`Lz4.Frame.Writer.feed_emitted`). What is pending never fills a block, and nothing is when the last
request was to flush, or when the writer flushes after every update.
-/

namespace Lz4.Frame

open Bytes

namespace Session

theorem pending_flush (session : Session) : session.flush.2.pending = #[] :=
  RecordWriter.pending_flush _ _

theorem pending_update {session : Session} (flushes : session.autoFlush = true) (data : Bytes) :
    (session.update data).2.pending = #[] := by
  unfold update
  dsimp only
  rw [if_pos flushes]
  exact RecordWriter.pending_flush _ _

end Session

/-- A decoder that is fed a header and records has found the content that they carry, and waits for
more. -/
theorem feed_of_carries (decoder : Decoder) {settings : Settings} {after : Stream.Compressor}
    {records content : Bytes}
    (carries : Carries settings.header (Session.start settings).stream after records content)
    {pieces : List Bytes} (fed : concat pieces = settings.header.encode ++ records) :
    ∃ final, (decoder.reset.setDictionary settings.dictionary).feed pieces =
        (.ok (content, (concat pieces).size), final) ∧ final.isComplete = false := by
  have settled : (decoder.reset.setDictionary settings.dictionary).Settled :=
    (decoder.setDictionary settings.dictionary).settled_reset
  have dictionary : (decoder.reset.setDictionary settings.dictionary).options.dictionary =
      Block.dictionaryWindow settings.dictionary := by
    simp only [Decoder.setDictionary]
  obtain ⟨next, toNext, between⟩ := between_of_carries rfl rfl dictionary carries #[]
  rw [Array.append_empty, ← fed] at toNext
  have all : (concat pieces).size = next.consumed := by
    rw [fed, Array.size_append, between.consumed]
  have collecting : next.decoder.collects = true := by rw [Decoder.collects, between.stage]
  have required : next.decoder.required = .ok 4 := by rw [Decoder.required, between.stage]
  have lacking : next.decoder.pending.size < 4 := by
    rw [between.pending]
    exact Nat.zero_lt_succ 3
  rw [Run.drive_of_starved between.sound collecting required lacking (Nat.le_of_eq all)] at toNext
  have driven := toNext.symm.eq_of_sound between.sound
  have sound := driven ▸ between.sound
  refine ⟨next.decoder, ?_, ?_⟩
  · rw [(Decoder.feed_of_settled settled pieces).2 sound, Decoder.decode_of_sound sound, ← driven,
      all, between.output]
  · rw [Decoder.isComplete, between.stage]
    rfl

/-- What an encoder has given out behind the header of a frame, and what it has taken in. -/
structure Session.Emits (settings : Settings) (session : Session) (input written : Bytes) :
    Prop where
  wrote : session.Wrote settings input written
  flushes : session.autoFlush = settings.autoFlush

variable {settings : Settings} {session : Session} {input written : Bytes}

/-- No call in a frame is refused, and nothing is pending behind those that flush. -/
theorem Session.Emits.call (emits : session.Emits settings input written) (call : Call) :
    ∃ more after, (Encoder.started session).request call.request = (.ok more, .started after) ∧
      after.Emits settings (input ++ call.data) (written ++ more) ∧
        (settings.autoFlush = true ∨ call = .flush → after.pending = #[]) := by
  cases call with
  | update data =>
    refine ⟨_, _, rfl, ⟨emits.wrote.update data, emits.flushes⟩, ?_⟩
    rintro (flushes | flushing)
    · exact Session.pending_update (emits.flushes.trans flushes) data
    · cases flushing
  | flush =>
    refine ⟨_, _, rfl, ⟨?_, emits.flushes⟩, fun _ => session.pending_flush⟩
    rw [Call.data, Array.append_empty]
    exact emits.wrote.flush

/-- Whatever calls are made in a frame, nothing is pending before the first or behind one that
flushes. -/
theorem Session.Emits.calls (emits : session.Emits settings #[] #[]) (empty : session.pending = #[])
    (made : List Call) :
    ∃ outputs after, (Encoder.started session).requests (made.map Call.request) =
        (outputs.map .ok, .started after) ∧
      after.Emits settings (contents made) (concat outputs) ∧
        (settings.autoFlush = true ∨ made.getLast? = some .flush → after.pending = #[]) := by
  induction made using List.reverseRecOn with
  | nil => exact ⟨[], session, rfl, emits, fun _ => empty⟩
  | append_singleton calls call ih =>
    obtain ⟨outputs, between, done, emitted, -⟩ := ih
    obtain ⟨more, after, given, emittedMore, settled⟩ := emitted.call call
    refine ⟨outputs ++ [more], after, ?_, ?_, ?_⟩
    · rw [List.map_append, Encoder.requests_append, done, List.map_singleton,
        Encoder.requests_cons, given, List.map_append]
      rfl
    · rwa [contents, List.map_append, concat_append, List.map_singleton, concat_cons, concat_nil,
        Array.append_empty, ← contents, concat_append, concat_cons, concat_nil, Array.append_empty]
    · rw [List.getLast?_concat, Option.some_inj]
      exact settled

namespace Writer

/-- In the middle of a frame everything that a writer gave out can be decoded. However it is cut
into pieces, a decoder that holds the same dictionary finds in it what the writer took in, but for
what is pending, and waits for more. What is pending does not fill a block, and nothing is pending
behind a call that flushes. -/
theorem feed_emitted (decoder : Decoder) {writer : Writer} (quiet : writer.isStarted = false)
    (settings : Settings) (made : List Call) :
    ∃ outputs last, writer.requests (.begin settings :: made.map Call.request) =
        (outputs.map .ok, last) ∧
      last.isStarted = true ∧
      last.pending.size < settings.blockSize.bytes ∧
      (settings.autoFlush = true ∨ made.getLast? = some .flush → last.pending = #[]) ∧
      ∀ pieces, concat pieces = concat outputs →
        ∃ content final, contents made = content ++ last.pending ∧
          (decoder.reset.setDictionary settings.dictionary).feed pieces =
            (.ok (content, (concat outputs).size), final) ∧
          final.isComplete = false := by
  obtain ⟨encoder, shows, quietToo⟩ := exists_shows_of_quiet quiet
  have emits : (Session.start settings).Emits settings #[] #[] :=
    ⟨Session.wrote_start settings, rfl⟩
  obtain ⟨outputs, after, done, emitted, settled⟩ := emits.calls rfl made
  have asked : encoder.requests (.begin settings :: made.map Call.request) =
      (.ok settings.header.encode :: outputs.map .ok, .started after) := by
    rw [Encoder.requests_cons, Encoder.request, Encoder.begin_of_quiet quietToo, done]
  obtain ⟨same, onward⟩ := requests_shows shows (.begin settings :: made.map Call.request)
  rw [asked] at same onward
  cases onward with
  | started follows =>
    have pending := follows.keeps.pending
    refine ⟨settings.header.encode :: outputs, _, Prod.ext same rfl, ?_, ?_, ?_, ?_⟩
    · rw [isStarted, follows.phase]
      rfl
    · rw [pending]
      exact emitted.wrote.room
    · rw [pending]
      exact settled
    · intro pieces fed
      obtain ⟨content, carries, kept⟩ := emitted.wrote.carried
      rw [concat_cons] at fed
      obtain ⟨final, decoded, waiting⟩ := feed_of_carries decoder carries fed
      rw [pending, concat_cons, ← fed]
      exact ⟨content, final, kept, decoded, waiting⟩

theorem feed_emitted_linked :
    let settings : Settings := { independentBlocks := false, dictionary := #[2, 3] }
    let made : List Call := [.update #[1, 2, 3], .flush, .update #[1, 2, 3, 4]]
    new.isStarted = false ∧
    ∃ outputs last, new.requests (.begin settings :: made.map Call.request) =
        (outputs.map .ok, last) ∧
      last.isStarted = true ∧
      last.pending.size < settings.blockSize.bytes ∧
      (settings.autoFlush = true ∨ made.getLast? = some .flush → last.pending = #[]) ∧
      ∀ pieces, concat pieces = concat outputs →
        ∃ content final, contents made = content ++ last.pending ∧
          (Decoder.new.reset.setDictionary settings.dictionary).feed pieces =
            (.ok (content, (concat outputs).size), final) ∧
          final.isComplete = false := by
  intro settings made
  exact ⟨rfl, feed_emitted Decoder.new rfl settings made⟩

end Writer

end Lz4.Frame
