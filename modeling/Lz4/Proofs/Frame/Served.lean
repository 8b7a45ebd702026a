import Lz4.Proofs.Frame.Fronts
import Lz4.Proofs.Frame.Opening

/-!
# Decoders that are given what they ask for

A decoder that was called without an error since its frame began (`Lz4.Frame.Decoder.Reached`) waits
for bytes of its frame, or it read a header by itself that leaves nothing to pass over
(`Lz4.Frame.Decoder.Poised`). Such a decoder takes in all that it is given as long as this is no more
than it asks for, and of a frame that it will accept it never asks for more than there is left
(`Lz4.Frame.Decoder.inputHint_le_of_accepts`). So a decoder that is served what it asks for, however
little of it at a time, gets to the end of its frame and no further
(`Lz4.Frame.Decoder.feed_of_served`). The main result puts these laws together
(`Lz4.Frame.Decoder.inputHint_laws`).
-/

namespace Lz4.Frame

open Bytes

namespace Decoder

variable {decoder start middle after done : Decoder} {front piece left rest content : Bytes}

/-- The error that a call returns. -/
def Result.error? : Result → Option Error
  | .decoded (.error error) => some error
  | .header (.error error) => some error
  | _ => none

/-- A decoder that was called without an error since its frame began. -/
inductive Reached : Decoder → Prop
  | reset (decoder : Decoder) : Reached decoder.reset
  | call {decoder : Decoder} (reached : Reached decoder) (call : Call)
      (fine : (decoder.call call).1.error? = none) : Reached (decoder.call call).2

/-- A decoder that waits, or that has nothing left to pass over and does not say yet that its frame
has ended. -/
def Poised (decoder : Decoder) : Prop := decoder.Waits ∨ decoder.stage = .skip 0

theorem Waits.withOptions (waits : decoder.Waits) (options : Options) :
    (decoder.withOptions options).Waits := by
  cases waits with
  | ended complete => exact .ended complete
  | skips skipping some => exact .skips skipping some
  | lacks collecting required lacking => exact .lacks collecting required lacking

theorem Poised.withOptions (poised : decoder.Poised) (options : Options) :
    (decoder.withOptions options).Poised :=
  poised.imp (fun waits => waits.withOptions options) id

theorem poised_reset (decoder : Decoder) : decoder.reset.Poised :=
  .inl (.lacks rfl rfl (Nat.zero_lt_succ 3))

theorem poised_start (decoder : Decoder) (header : Header) : (decoder.start header).Poised := by
  unfold start
  split
  · rcases Nat.eq_zero_or_pos (header.contentSize.elim 0 (·.toNat)) with none | some
    · exact .inr (congrArg Stage.skip none)
    · exact .inl (.skips rfl some)
  · exact .inl (.lacks rfl rfl (Nat.zero_lt_succ 3))

/-- What comes of reading a header by itself: it is known, or there is an error, or it is read. -/
theorem readHeader_cases (decoder : Decoder) (data : Bytes) :
    (∃ header, decoder.header = some header ∧
      decoder.readHeader data = (.ok (header, 0), decoder)) ∨
    (∃ error, decoder.readHeader data = (.error error, decoder)) ∨
    ∃ header size, decoder.header = none ∧ decoder.pending = #[] ∧
      Header.parse data = .ok (header, size) ∧
      decoder.readHeader data =
        (.ok (header, size), { decoder with position := size }.start header) := by
  unfold readHeader
  cases known : decoder.header with
  | some header => exact .inl ⟨header, rfl, rfl⟩
  | none =>
    dsimp only
    by_cases fed : decoder.pending.size ≠ 0
    · rw [if_pos fed]
      exact .inr (.inl ⟨_, rfl⟩)
    · rw [if_neg fed]
      have empty : decoder.pending = #[] := Array.size_eq_zero_iff.mp (not_not.mp fed)
      cases parsed : Header.parse data with
      | error error => exact .inr (.inl ⟨error, rfl⟩)
      | ok found => exact .inr (.inr ⟨found.1, found.2, rfl, empty, rfl, rfl⟩)

theorem poised_call (poised : decoder.Poised) (call : Call)
    (fine : (decoder.call call).1.error? = none) : (decoder.call call).2.Poised := by
  cases call with
  | decode data =>
    change (decoder.decode data).2.Poised
    rw [decode_snd]
    cases stopped : (decoder.fresh.drive data).fault with
    | none => exact .inl (Run.waits_drive stopped)
    | some error =>
      rw [Decoder.call, decode_of_fault stopped] at fine
      cases fine
  | readHeader data =>
    change (Result.header (decoder.readHeader data).1).error? = none at fine
    change (decoder.readHeader data).2.Poised
    rcases decoder.readHeader_cases data with
      ⟨header, -, known⟩ | ⟨error, refused⟩ | ⟨header, size, -, -, -, read⟩
    · rwa [known]
    · rw [refused] at fine
      cases fine
    · rw [read]
      exact poised_start _ header
  | reset => exact poised_reset decoder
  | setDictionary dictionary =>
    rw [Decoder.call, setDictionary_eq]
    exact poised.withOptions _
  | verifyContent | stopAtFrameEnd => exact poised.withOptions _

namespace Reached

theorem poised (reached : decoder.Reached) : decoder.Poised := by
  induction reached with
  | reset decoder => exact poised_reset decoder
  | call reached call fine ih => exact poised_call ih call fine

theorem consistent (reached : decoder.Reached) : decoder.Consistent := by
  induction reached with
  | reset decoder => exact consistent_reset decoder
  | call reached call fine ih => exact consistent_call ih call

end Reached

/-- A decoder that waits has nothing to do before it is given something. -/
theorem Waits.settled (waits : decoder.Waits) : decoder.Settled := by
  cases waits with
  | ended complete => exact Run.drive_of_ended rfl complete rfl
  | @skips remaining skipping some =>
    have same : { decoder with stage := .skip remaining } = decoder := by rw [← skipping]
    rw [Settled, Run.drive_of_skip rfl skipping, if_neg (by simp; omega)]
    exact congrArg fresh same
  | lacks collecting required lacking =>
    exact Run.drive_of_starved rfl collecting required lacking (Nat.le_refl 0)

/-- A decoder that has nothing to pass over ends its frame when it is called. -/
theorem accepts_of_passed (skipping : decoder.stage = .skip 0) :
    decoder.Accepts #[] #[] { decoder with stage := .complete } := by
  rw [accepts_iff, Run.drive_of_skip rfl skipping, if_pos (Nat.zero_min _),
    Run.drive_of_ended rfl rfl rfl]
  rfl

theorem Poised.exists_settled (poised : decoder.Poised) :
    ∃ settled, decoder.Accepts #[] #[] settled := by
  rcases poised with waits | skipping
  · exact ⟨decoder, accepts_empty waits.settled⟩
  · exact ⟨_, accepts_of_passed skipping⟩

/-- Of what it asks for, a decoder takes in everything, and does not complain that there is more
behind the frame. -/
theorem Poised.drive_of_hint (poised : decoder.Poised) (few : piece.size ≤ decoder.inputHint) :
    (decoder.fresh.drive piece).consumed = piece.size ∧
      ∀ error, (decoder.fresh.drive piece).fault = some error →
        error.corruption? ≠ some .trailingData := by
  -- A decoder that asks for nothing can only be given nothing.
  have idle : decoder.inputHint = 0 → (decoder.fresh.drive piece).consumed = piece.size ∧
      ∀ error, (decoder.fresh.drive piece).fault = some error →
        error.corruption? ≠ some .trailingData := by
    intro none
    obtain rfl : piece = #[] := Array.size_eq_zero_iff.mp (by omega)
    obtain ⟨settled, accepts⟩ := poised.exists_settled
    rw [accepts_iff.mp accepts]
    exact ⟨rfl, fun error fault => by cases fault⟩
  rcases poised with waits | skipping
  · cases going : decoder.isComplete with
    | false => exact Decoder.drive_of_hint waits going few
    | true =>
      have complete : decoder.stage = .complete := by simpa [isComplete] using going
      exact idle (by rw [inputHint, complete])
  · exact idle (inputHint_of_skip skipping)

/-- Past the header, a decoder that is given less than it asks for finds nothing wrong with it. -/
theorem Waits.sound_of_short (waits : decoder.Waits) (past : decoder.stage ≠ .header)
    (few : piece.size < decoder.inputHint) : (decoder.fresh.drive piece).fault = none := by
  cases waits with
  | ended complete => simp [inputHint, complete] at few
  | @skips remaining skipping some =>
    rw [inputHint_of_skip skipping] at few
    rw [Run.drive_of_skip rfl skipping, if_neg (by dsimp only; omega)]
    rfl
  | @lacks size collecting required lacking =>
    rw [inputHint_of_lacks collecting required] at few
    have same : (decoder.fresh.collect piece).decoder.required = .ok size := by
      rw [Run.required_collect]
      split
      · rename_i stage
        exact absurd stage past
      · exact required
    rw [drive_of_lacks collecting required lacking (by omega),
      Run.drive_of_starved rfl collecting same]
    · rfl
    · rw [Run.pending_collect, Array.size_append]
      dsimp only
      omega
    · exact Nat.le_of_eq (Nat.zero_add _).symm

/-- Of a frame that is accepted a decoder never asks for more than there is left. -/
theorem inputHint_le_of_accepts (poised : decoder.Poised)
    (accepts : decoder.Accepts left content done) (complete : done.isComplete = true) :
    decoder.inputHint ≤ left.size := by
  by_contra short
  -- Otherwise it would take in a byte behind the frame, or complain about something else.
  have few : (left ++ #[0]).size ≤ decoder.inputHint := by
    rw [Array.size_append]
    exact Nat.lt_of_not_le short
  obtain ⟨all, other⟩ := poised.drive_of_hint few
  cases stopped : (decoder.fresh.drive (left ++ #[0])).fault with
  | some error =>
    exact other error stopped
      (accepts.trailingData_of_complete complete (refuses_iff.mpr stopped))
  | none =>
    have further : decoder.Accepts (left ++ #[0]) (decoder.fresh.drive (left ++ #[0])).output
        (decoder.fresh.drive (left ++ #[0])).decoder := by
      rw [accepts_iff, ← all, ← stopped]
    have nothing := accepts.eq_empty_of_complete complete further
    cases nothing

/-- A decoder that asks for nothing is at the end of its frame. -/
theorem eq_empty_of_inputHint (poised : decoder.Poised)
    (accepts : decoder.Accepts left content done) (none : decoder.inputHint = 0) :
    left = #[] := by
  have ended : ∃ settled, decoder.Accepts #[] #[] settled ∧ settled.isComplete = true := by
    rcases poised with waits | skipping
    · refine ⟨decoder, accepts_empty waits.settled, ?_⟩
      rw [← Bool.not_eq_false]
      intro going
      have asks := waits.inputHint_pos going
      omega
    · exact ⟨_, accepts_of_passed skipping, rfl⟩
  obtain ⟨settled, nothing, complete⟩ := ended
  exact nothing.eq_empty_of_complete complete (by rwa [Array.empty_append])

/-- A piece of a frame that a decoder asked for is accepted, and so is the rest of the frame behind
it. -/
theorem exists_accepts_piece (poised : decoder.Poised)
    (accepts : decoder.Accepts (piece ++ rest) content done)
    (few : piece.size ≤ decoder.inputHint) :
    ∃ given next extra, decoder.Accepts piece given next ∧ next.Accepts rest extra done := by
  have all := (poised.drive_of_hint few).1
  cases stopped : (decoder.fresh.drive piece).fault with
  | some error =>
    have refused : decoder.Refuses (piece ++ rest) error := (refuses_iff.mpr stopped).append rest
    exact absurd accepts refused.not_accepts
  | none =>
    have taken : decoder.Accepts piece (decoder.fresh.drive piece).output
        (decoder.fresh.drive piece).decoder := by
      rw [accepts_iff, ← all, ← stopped]
    obtain ⟨extra, onward, -⟩ := taken.append_iff.mp accepts
    exact ⟨_, _, extra, taken, onward⟩

/-- The pieces are given to the decoder one after the other. None of them is empty, and none is
longer than what the decoder asks for at that time. -/
def Served (decoder : Decoder) : List Bytes → Prop
  | [] => True
  | piece :: rest =>
    0 < piece.size ∧ piece.size ≤ decoder.inputHint ∧ (decoder.decode piece).2.Served rest

theorem feed_cons_of_accepts {given : Bytes} {next : Decoder}
    (accepts : decoder.Accepts piece given next) (pieces : List Bytes) :
    decoder.feed (piece :: pieces) =
      (next.feed pieces).map
        (Except.map fun further => (given ++ further.1, piece.size + further.2)) id := by
  have driven := accepts_iff.mp accepts
  have fed := @feed_cons_of_all decoder piece (by rw [driven]) (by rw [driven]) pieces
  rwa [driven] at fed

/-- Pieces of an accepted frame that a decoder is served are all taken in. There are no more of them
than bytes, and what is left of the frame is accepted behind them. -/
theorem feed_of_served (poised : decoder.Poised) {pieces : List Bytes}
    (served : decoder.Served pieces)
    (accepts : decoder.Accepts (concat pieces ++ rest) content done) :
    ∃ given last extra, decoder.feed pieces = (.ok (given, (concat pieces).size), last) ∧
      last.Poised ∧ last.Accepts rest extra done ∧ pieces.length ≤ (concat pieces).size ∧
      (decoder.Waits ∨ pieces ≠ [] → last.Waits) := by
  induction pieces generalizing decoder content with
  | nil =>
    rw [concat_nil, Array.empty_append] at accepts
    exact ⟨#[], decoder, content, rfl, poised, accepts, Nat.le_refl 0,
      fun either => either.resolve_right fun some => some rfl⟩
  | cons piece pieces ih =>
    obtain ⟨some, few, onward⟩ := served
    rw [concat_cons, Array.append_assoc] at accepts
    obtain ⟨given, next, extra, taken, further⟩ := exists_accepts_piece poised accepts few
    rw [taken] at onward
    obtain ⟨more, last, ending, fed, poisedLast, acceptsLast, count, waits⟩ :=
      ih (.inl taken.waits) onward further
    refine ⟨given ++ more, last, ending, ?_, poisedLast, acceptsLast, ?_,
      fun _ => waits (.inl taken.waits)⟩
    · rw [feed_cons_of_accepts taken, fed, concat_cons, Array.size_append]
      rfl
    · rw [List.length_cons, concat_cons, Array.size_append]
      omega

/-- What a decoder was fed of its frame since it began. The header may be read by itself. -/
inductive Fed (start : Decoder) : Bytes → Decoder → Prop
  | nothing : Fed start #[] start
  | header {data : Bytes} {header : Header} {size : Nat} {after : Decoder}
      (read : start.readHeader data = (.ok (header, size), after)) :
    Fed start (data.extract 0 size) after
  | piece {front piece content : Bytes} {middle after : Decoder} (before : Fed start front middle)
      (taken : middle.decode piece = (.ok (content, piece.size), after)) :
    Fed start (front ++ piece) after

namespace Fed

theorem reached (fed : Fed decoder.reset front middle) : middle.Reached := by
  induction fed with
  | nothing => exact .reset decoder
  | @header data header size after read =>
    have called : decoder.reset.call (.readHeader data) = (.header (.ok (header, size)), after) := by
      rw [Decoder.call, read]
    have reached := Reached.call (.reset decoder) (.readHeader data) (by rw [called]; rfl)
    rwa [called] at reached
  | @piece front piece content middle after before taken ih =>
    have called : middle.call (.decode piece) = (.decoded (.ok (content, piece.size)), after) := by
      rw [Decoder.call, taken]
    have reached := Reached.call ih (.decode piece) (by rw [called]; rfl)
    rwa [called] at reached

end Fed

/-- A header that is read by itself is accepted, and the decoder stands where it would stand if it
had been fed the header; at most it does not say yet that there is nothing to pass over. -/
theorem exists_accepts_header {data : Bytes} {header : Header} {size : Nat}
    (read : decoder.reset.readHeader data = (.ok (header, size), after)) :
    ∃ settled, decoder.reset.Accepts (data.extract 0 size) #[] settled ∧
      after.Accepts #[] #[] settled := by
  obtain ⟨parsed, rfl⟩ := eq_of_readHeader read
  have taken : (data.extract 0 size).size = size :=
    Array.size_extract_of_le (Header.size_of_parse parsed).2
  obtain ⟨settled, same⟩ :=
    (poised_start { decoder.reset with position := size } header).exists_settled
  have acts := drive_of_readHeader (decoder.readHeader_reset_of_ok (Header.parse_extract parsed))
  rw [dropFirst_of_size_le (Nat.le_of_eq taken), accepts_iff.mp same] at acts
  refine ⟨settled, accepts_iff.mpr ?_, same⟩
  rw [acts, taken]
  rfl

theorem Fed.exists_accepts (fed : Fed decoder.reset front middle) :
    ∃ content settled, decoder.reset.Accepts front content settled ∧
      middle.Accepts #[] #[] settled := by
  induction fed with
  | nothing => exact ⟨#[], decoder.reset, accepts_empty decoder.settled_reset,
      accepts_empty decoder.settled_reset⟩
  | header read =>
    obtain ⟨settled, accepts, same⟩ := exists_accepts_header read
    exact ⟨#[], settled, accepts, same⟩
  | @piece front piece content middle after before taken ih =>
    obtain ⟨earlier, settled, accepts, same⟩ := ih
    have further : middle.Accepts (#[] ++ piece) content after := by
      rw [Array.empty_append]
      exact taken
    obtain ⟨more, onward, -⟩ := same.append_iff.mp further
    exact ⟨earlier ++ more, after, accepts.append_iff.mpr ⟨more, onward, rfl⟩,
      accepts_empty onward.waits.settled⟩

/-- What is left of an accepted frame is accepted by a decoder that was fed the front part. -/
theorem Fed.accepts_left (fed : Fed decoder.reset front middle)
    (accepts : decoder.reset.Accepts (front ++ left) content done) :
    ∃ extra, middle.Accepts left extra done := by
  obtain ⟨given, settled, taken, same⟩ := fed.exists_accepts
  obtain ⟨extra, onward, -⟩ := taken.append_iff.mp accepts
  have further := same.append_iff.mpr ⟨extra, onward, rfl⟩
  rw [Array.empty_append] at further
  exact ⟨_, further⟩

/-- All of a piece that is no longer than what was asked for is taken in, or something is wrong with
it, but not that the frame is over. -/
theorem Reached.decode_of_hint (reached : decoder.Reached)
    (few : piece.size ≤ decoder.inputHint) :
    (∃ content after, decoder.decode piece = (.ok (content, piece.size), after)) ∨
      ∃ offset reason after,
        decoder.decode piece = (.error (.corruptInput offset reason), after) ∧
          reason ≠ .trailingData := by
  obtain ⟨all, other⟩ := reached.poised.drive_of_hint few
  cases stopped : (decoder.fresh.drive piece).fault with
  | none =>
    rw [decode_of_sound stopped, all]
    exact .inl ⟨_, _, rfl⟩
  | some error =>
    obtain ⟨offset, reason, rfl⟩ := Run.corruptInput_of_drive rfl stopped
    rw [decode_of_fault stopped]
    refine .inr ⟨offset, reason, _, rfl, ?_⟩
    rintro rfl
    exact other _ stopped rfl

/-- With less than it asks for, a decoder that knows its header does nothing yet. -/
theorem Reached.decode_of_short (reached : decoder.Reached) (known : decoder.header ≠ none)
    (few : piece.size < decoder.inputHint) :
    ∃ after, decoder.decode piece = (.ok (#[], piece.size), after) := by
  have past : decoder.stage ≠ .header := mt reached.consistent.known.mp known
  have all := (reached.poised.drive_of_hint (Nat.le_of_lt few)).1
  rcases reached.poised with waits | skipping
  · have sound := waits.sound_of_short past few
    rw [decode_of_sound sound, all, output_of_short waits few]
    exact ⟨_, rfl⟩
  · rw [inputHint_of_skip skipping] at few
    exact absurd few (Nat.not_lt_zero _)

/-- Served what is left of an accepted frame, a decoder takes everything in. As long as something is
left it goes on asking, for no more than that; then it is where the whole frame leads. -/
theorem Poised.feed_laws (poised : decoder.Poised) {pieces : List Bytes}
    (accepts : decoder.Accepts (concat pieces ++ rest) content done)
    (complete : done.isComplete = true) (served : decoder.Served pieces) :
    pieces.length ≤ (concat pieces ++ rest).size ∧
      ∃ given last, decoder.feed pieces = (.ok (given, (concat pieces).size), last) ∧
        (rest ≠ #[] → 0 < last.inputHint ∧ last.inputHint ≤ rest.size) ∧
        (rest = #[] → last.decode #[] = (.ok (#[], 0), done) ∧ (pieces ≠ [] → last = done)) := by
  obtain ⟨given, last, ending, taken, poisedLast, acceptsLast, count, waits⟩ :=
    feed_of_served poised served accepts
  refine ⟨?_, given, last, taken, ?_, ?_⟩
  · rw [Array.size_append]
    exact Nat.le_add_right_of_le count
  · intro some
    refine ⟨?_, inputHint_le_of_accepts poisedLast acceptsLast complete⟩
    exact Nat.pos_of_ne_zero fun none => some (eq_empty_of_inputHint poisedLast acceptsLast none)
  · rintro rfl
    obtain ⟨settled, nothing⟩ := poisedLast.exists_settled
    obtain ⟨rfl, rfl⟩ := nothing.eq acceptsLast
    refine ⟨nothing, fun some => ?_⟩
    exact ((accepts_empty (waits (.inr some)).settled).eq nothing).2

/-- What a decoder asks for belongs to its frame, and it is enough. First, in every state without an
error it takes in all of a piece that is no longer, or finds the piece corrupt, but not because the
frame is over. Second, of a frame that is accepted it asks for no more than is left, and for nothing
only when nothing is left; served such pieces, it takes them all in, gets closer to the end of the
frame with each, and is where one call with the whole frame leads when nothing is left. Third, with
less than it asks for it does nothing yet, once the header is known. -/
theorem inputHint_laws :
    (∀ decoder : Decoder, decoder.Reached → ∀ piece : Bytes, piece.size ≤ decoder.inputHint →
      (∃ content after, decoder.decode piece = (.ok (content, piece.size), after)) ∨
        ∃ offset reason after,
          decoder.decode piece = (.error (.corruptInput offset reason), after) ∧
            reason ≠ .trailingData) ∧
    (∀ (decoder middle done : Decoder) (front left content : Bytes),
      decoder.reset.decode (front ++ left) = (.ok (content, (front ++ left).size), done) →
      done.isComplete = true → Fed decoder.reset front middle →
        middle.inputHint ≤ left.size ∧ (middle.inputHint = 0 → left = #[]) ∧
        ∀ (pieces : List Bytes) (rest : Bytes), left = concat pieces ++ rest →
          middle.Served pieces →
            pieces.length ≤ left.size ∧
            ∃ given last, middle.feed pieces = (.ok (given, (concat pieces).size), last) ∧
              (rest ≠ #[] → 0 < last.inputHint ∧ last.inputHint ≤ rest.size) ∧
              (rest = #[] → last.decode #[] = (.ok (#[], 0), done) ∧
                (pieces ≠ [] → last = done))) ∧
    ∀ decoder : Decoder, decoder.Reached → decoder.header ≠ none →
      ∀ piece : Bytes, piece.size < decoder.inputHint →
        ∃ after, decoder.decode piece = (.ok (#[], piece.size), after) := by
  refine ⟨fun decoder reached piece few => reached.decode_of_hint few, ?_,
    fun decoder reached known piece few => reached.decode_of_short known few⟩
  intro decoder middle done front left content accepts complete fed
  have poised := fed.reached.poised
  obtain ⟨extra, onward⟩ := fed.accepts_left accepts
  refine ⟨inputHint_le_of_accepts poised onward complete, eq_empty_of_inputHint poised onward, ?_⟩
  rintro pieces rest rfl served
  exact poised.feed_laws onward complete served

/-- The header of a frame of one byte is read by itself, and the decoder is fed a byte more. Then it
is given less than it asks for, as much as that but with a length that is too large, and what is left
of the frame in four pieces. -/
theorem inputHint_laws_letter :
    let opening : Bytes := #[4, 34, 77, 24, 0x60, 0x40, 0x82]
    let header : Header := { blockSize := .max64KB, independentBlocks := true }
    let begun : Decoder :=
      { new with stage := .blockLength, header := some header, position := 7 }
    let middle : Decoder := { begun with pending := #[1], position := 8 }
    let pieces : List Bytes := [#[0, 0], #[0x80], #[0x61], #[0, 0, 0, 0]]
    new.reset.readHeader opening = (.ok (header, 7), begun) ∧
      begun.decode #[1] = (.ok (#[], 1), middle) ∧
      (∃ after, middle.decode #[0] = (.ok (#[], 1), after)) ∧
      ((∃ content after, middle.decode #[0, 0, 1] = (.ok (content, 3), after)) ∨
        ∃ offset reason after, middle.decode #[0, 0, 1] =
          (.error (.corruptInput offset reason), after) ∧ reason ≠ .trailingData) ∧
      middle.inputHint ≤ 8 ∧
      ∃ given last, middle.feed pieces = (.ok (given, 8), last) ∧ last.isComplete = true := by
  intro opening header begun middle pieces
  have read : new.reset.readHeader opening = (.ok (header, 7), begun) := by cbv
  have taken : begun.decode #[1] = (.ok (#[], 1), middle) := by cbv
  let front : Bytes := #[4, 34, 77, 24, 0x60, 0x40, 0x82, 1]
  let left : Bytes := #[0, 0, 0x80, 0x61, 0, 0, 0, 0]
  let done : Decoder :=
    { middle with stage := .complete, pending := #[], position := 16, decoded := 1 }
  have accepts : new.reset.decode (front ++ left) = (.ok (#[0x61], (front ++ left).size), done) := by
    cbv
  have fed : Fed new.reset front middle := by
    have parts : front = opening.extract 0 7 ++ #[1] := by decide
    rw [parts]
    exact .piece (.header read) taken
  have served : middle.Served pieces := by
    let second : Decoder := { middle with pending := #[1, 0, 0], position := 10 }
    let third : Decoder := { middle with stage := .block true 1, pending := #[], position := 11 }
    let fourth : Decoder := { middle with pending := #[], position := 12, decoded := 1 }
    have toSecond : middle.decode #[0, 0] = (.ok (#[], 2), second) := by cbv
    have toThird : second.decode #[0x80] = (.ok (#[], 1), third) := by cbv
    have toFourth : third.decode #[0x61] = (.ok (#[0x61], 1), fourth) := by cbv
    refine ⟨by decide, by decide, ?_⟩
    rw [toSecond]
    refine ⟨by decide, by decide, ?_⟩
    rw [toThird]
    refine ⟨by decide, by decide, ?_⟩
    rw [toFourth]
    exact ⟨by decide, by decide, trivial⟩
  have whole : left = concat pieces ++ #[] := by decide
  obtain ⟨safe, sufficient, quiet⟩ := inputHint_laws
  obtain ⟨within, -, servings⟩ := sufficient new middle done front left #[0x61] accepts rfl fed
  obtain ⟨-, given, last, takenAll, -, ended⟩ := servings pieces #[] whole served
  have complete : last = done := (ended rfl).2 (List.cons_ne_nil _ _)
  have lacking : (#[0] : Bytes).size < middle.inputHint := by decide
  have enough : (#[0, 0, 1] : Bytes).size ≤ middle.inputHint := by decide
  refine ⟨read, taken, quiet middle fed.reached (Option.some_ne_none header) #[0] lacking,
    safe middle fed.reached #[0, 0, 1] enough, within, given, last, takenAll, ?_⟩
  rw [complete]
  rfl

end Decoder

end Lz4.Frame
