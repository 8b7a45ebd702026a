import Lz4.Proofs.Source
import Lz4.Proofs.Frame.Fronts

/-!
# Reading a frame to its end, and no further

A reader asks its source for no more than its decoder asks for, so all it was handed is a front part
of its frame, and what it gave away and what waits in its buffer are together the content of that
part (`Lz4.Frame.Reader.Follows`). Every call keeps to that (`Lz4.Frame.Reader.follows_call`), also
when the source fails in between and the caller tries again. Hence a reader hands out the content of
its frame and nothing else, and leaves the bytes behind the frame to its source; of a frame that is
refused it hands out all the content there is before it says so
(`Lz4.Frame.Reader.answered_calls`).
-/

namespace Lz4.Frame

open Bytes

/-- A frame begins with a header if a decoder knows that header once it was given some front part of
the frame. -/
def Decoder.Begins (start : Decoder) (frame : Bytes) (header : Header) : Prop :=
  ∃ front rest content after, frame = front ++ rest ∧ start.Accepts front content after ∧
    after.header = some header

/-- A frame begins with one header, which is known whenever the frame was accepted. -/
theorem Decoder.Begins.header_eq {start after : Decoder} {frame content : Bytes} {header : Header}
    (begins : start.Begins frame header) (consistent : start.Consistent)
    (accepts : start.Accepts frame content after) : after.header = some header := by
  obtain ⟨front, rest, less, middle, rfl, accepted, known⟩ := begins
  exact accepted.header_of_append consistent known accepts

namespace Reader

variable {σ : Type}

theorem waiting_eq_empty {reader : Reader σ} (drained : reader.taken = reader.buffer.size) :
    reader.waiting = #[] :=
  dropFirst_of_size_le (Nat.le_of_eq drained.symm)

/-- Consuming takes off the first bytes that wait. -/
theorem waiting_consume {reader : Reader σ} (within : reader.taken ≤ reader.buffer.size)
    (count : Nat) :
    reader.waiting.extract 0 count ++ (reader.consume count).waiting = reader.waiting := by
  unfold consume waiting dropFirst
  dsimp only
  rw [Array.extract_extract, Nat.add_zero]
  exact extract_append_extract (Nat.le_min.mpr ⟨Nat.le_add_right _ _, within⟩)
    (Nat.min_le_right _ _)

variable [Source σ]

/-- The error that a call reports. -/
def Result.error? : Result → Option StreamError
  | .bytes (.error error) => some error
  | .header (.error error) => some error
  | _ => none

/-- The bytes that a call takes off a reader: those that are read, and those that are consumed. -/
def takes (reader : Reader σ) : Call → Bytes
  | .read count =>
    match reader.read count with
    | (.ok bytes, _) => bytes
    | (.error _, _) => #[]
  | .consume count => reader.waiting.extract 0 count
  | .fill => #[]
  | .header => #[]

/-- All bytes that calls take off a reader, in order. -/
def takesAll (reader : Reader σ) : List Call → Bytes
  | [] => #[]
  | call :: rest => reader.takes call ++ (reader.call call).2.takesAll rest

/-- How a reader answers a call when some content of its frame was taken already. What it gives out
continues what was taken, and is empty only if nothing is asked for, or if all was taken and the
frame is over. Every error is one of the source, or says that the frame is refused, and then all
content was taken before. -/
inductive Answered (origin : σ) (start : Decoder) (frame content : Bytes) (ending : Option Error)
    (taken : Bytes) : Call → Result → Prop
  | read {count : Nat} {bytes ahead : Bytes} (few : bytes.size ≤ count)
      (continued : content = taken ++ bytes ++ ahead)
      (finished : bytes = #[] ↔ count = 0 ∨ ending = none ∧ taken = content) :
      Answered origin start frame content ending taken (.read count) (.bytes (.ok bytes))
  | fill {bytes ahead : Bytes} (continued : content = taken ++ bytes ++ ahead)
      (finished : bytes = #[] ↔ ending = none ∧ taken = content) :
      Answered origin start frame content ending taken .fill (.bytes (.ok bytes))
  | consume (count : Nat) :
      Answered origin start frame content ending taken (.consume count) .nothing
  | header {header : Header} (begins : start.Begins frame header) :
      Answered origin start frame content ending taken .header (.header (.ok header))
  | failed {call : Call} {result : Result} {error : StreamError}
      (fails : Source.Fails origin error) (reports : result.error? = some error) :
      Answered origin start frame content ending taken call result
  | refused {call : Call} {result : Result} {error : Error} (refused : ending = some error)
      (all : taken = content) (reports : result.error? = some error.toStream) :
      Answered origin start frame content ending taken call result

/-- A reader whose decoder accepted all bytes that it was handed by its source. What was taken off
the reader and what waits in it are the content of these bytes. -/
structure Follows (origin : σ) (start : Decoder) (taken : Bytes) (reader : Reader σ) : Prop where
  reached : Source.Reaches origin reader.source
  within : reader.taken ≤ reader.buffer.size
  accepted : ∃ front, Source.contents origin = front ++ Source.contents reader.source ∧
    start.Accepts front (taken ++ reader.waiting) reader.decoder

/-- What comes of reading on: the reader goes on following its frame, even if the source fails, or
the frame is refused, and then all of its content was given out. -/
inductive Goes (origin : σ) (start : Decoder) (content : Bytes) (ending : Option Error)
    (taken given : Bytes) {α : Type} : Except StreamError α × Reader σ → Prop
  | on {value : α} {after : Reader σ} (follows : Follows origin start taken after) :
      Goes origin start content ending taken given (.ok value, after)
  | failed {error : StreamError} {after : Reader σ} (fails : Source.Fails origin error)
      (follows : Follows origin start taken after) :
      Goes origin start content ending taken given (.error error, after)
  | refused {error : Error} {after : Reader σ} (refused : ending = some error)
      (all : content = given) :
      Goes origin start content ending taken given (.error error.toStream, after)

theorem full_of_refill {reader after : Reader σ} (refilled : reader.refill = (.ok (), after))
    (drained : after.taken = after.buffer.size) : after.decoder.isComplete = true := by
  fun_induction refill reader with
  | case1 => cases refilled
  | case2 reader drained middle pulled ih => exact ih refilled
  | case3 reader full =>
    cases refilled
    by_contra going
    exact full ⟨drained, by simpa using going⟩

theorem read_of_refill {reader after : Reader σ} (refilled : reader.refill = (.ok (), after))
    (count : Nat) :
    reader.read count = (.ok (after.waiting.extract 0 count),
      after.consume (after.waiting.extract 0 count).size) := by
  have bytes : after.waiting.extract 0 count =
      after.buffer.extract after.taken (after.taken + count) := by
    rw [waiting, dropFirst, Array.extract_extract, Nat.add_zero, extract_min]
  rw [read, refilled, bytes]

theorem header_of_header {reader after : Reader σ} {known : Header}
    (told : reader.header = (.ok known, after)) : after.decoder.header = some known := by
  fun_induction header reader with
  | case1 reader header known =>
    cases told
    exact known
  | case2 => cases told
  | case3 reader unknown middle pulled ih => exact ih told

section

variable {origin : σ} {start : Decoder} {frame behind content taken : Bytes}
  {ending : Option Error} {reader : Reader σ}

theorem follows_withDecoder (source : σ) (decoder : Decoder) :
    Follows source decoder.reset #[] (withDecoder source decoder) :=
  ⟨.refl, Nat.le_refl 0, #[], (Array.empty_append).symm,
    Decoder.accepts_empty decoder.settled_reset⟩

namespace Follows

theorem clear (follows : Follows origin start taken reader)
    (drained : reader.taken = reader.buffer.size) : Follows origin start taken reader.clear := by
  obtain ⟨reached, -, front, split, accepts⟩ := follows
  rw [waiting_eq_empty drained] at accepts
  exact ⟨reached, Nat.le_refl 0, front, split, accepts⟩

theorem consume (follows : Follows origin start taken reader) (count : Nat) :
    Follows origin start (taken ++ reader.waiting.extract 0 count) (reader.consume count) := by
  obtain ⟨reached, within, front, split, accepts⟩ := follows
  rw [← waiting_consume within count, ← Array.append_assoc] at accepts
  exact ⟨reached, Nat.min_le_right _ _, front, split, accepts⟩

/-- A failure of the source makes no difference. -/
theorem failed {count : Nat} {error : StreamError} {source : σ}
    (follows : Follows origin start taken reader)
    (fails : Source.read reader.source count = (.error error, source)) :
    Follows origin start taken { reader with source := source } := by
  obtain ⟨reached, within, front, split, accepts⟩ := follows
  have further := reached.read count
  rw [fails] at further
  refine ⟨further, within, front, ?_, accepts⟩
  rw [split, Source.contents_of_read_error fails]

/-- The content of the next piece is put behind what waits already. -/
theorem handed {count : Nat} {bytes more : Bytes} {source : σ} {decoder : Decoder}
    (follows : Follows origin start taken reader)
    (gives : Source.read reader.source count = (.ok bytes, source))
    (accepted : reader.decoder.Accepts bytes more decoder) :
    Follows origin start taken ⟨source, decoder, reader.buffer ++ more, reader.taken⟩ := by
  obtain ⟨reached, within, front, split, accepts⟩ := follows
  have further := reached.read count
  rw [gives] at further
  refine ⟨further, ?_, front ++ bytes, ?_, accepts.append_iff.mpr ⟨more, accepted, ?_⟩⟩
  · dsimp only
    rw [Array.size_append]
    exact Nat.le_trans within (Nat.le_add_right _ _)
  · rw [split, (Source.contents_of_read_ok gives).2, Array.append_assoc]
  · rw [waiting, waiting, dropFirst_append_of_le within, Array.append_assoc]

/-- Before it knows the header a reader has given out nothing. -/
theorem of_header (follows : Follows origin start taken reader) (consistent : start.Consistent)
    (unknown : reader.decoder.header = none) :
    reader.decoder.isComplete = false ∧ reader.waiting = #[] := by
  obtain ⟨-, -, front, -, accepts⟩ := follows
  have stage := (accepts.consistent consistent).known.mpr unknown
  have nothing := Array.append_eq_empty_iff.mp (accepts.content_of_header consistent unknown)
  exact ⟨by rw [Decoder.isComplete, stage]; rfl, nothing.2⟩

end Follows

/-- A call that cannot be answered reports why. -/
theorem Goes.reports {α : Type} {error : StreamError} {after : Reader σ} {call : Call}
    {result : Result}
    (goes : Goes origin start content ending taken taken
      ((.error error, after) : Except StreamError α × Reader σ))
    (told : result.error? = some error) :
    Answered origin start frame content ending taken call result ∧
      (Follows origin start taken after ∨
        ∃ error, ending = some error ∧ result.error? = some error.toStream ∧ taken = content) := by
  cases goes with
  | failed fails follows => exact ⟨.failed fails told, .inl follows⟩
  | refused refused all => exact ⟨.refused refused all.symm told, .inr ⟨_, refused, told, all.symm⟩⟩

variable (consistent : start.Consistent) (eager : Source.Eager origin)
  (ends : start.Ends frame content ending) (held : Source.contents origin = frame ++ behind)

include ends held

/-- What a reader was handed is a front part of its frame. -/
theorem Follows.exists_left (follows : Follows origin start taken reader) :
    ∃ front left, frame = front ++ left ∧ Source.contents reader.source = left ++ behind ∧
      start.Accepts front (taken ++ reader.waiting) reader.decoder := by
  obtain ⟨-, -, front, split, accepts⟩ := follows
  obtain ⟨left, whole, rest⟩ := ends.exists_left accepts (split.symm.trans held)
  exact ⟨front, left, whole, rest, accepts⟩

/-- What was taken off a reader and what waits in it is continued in the content of the frame. -/
theorem Follows.exists_ahead (follows : Follows origin start taken reader) :
    ∃ ahead, content = taken ++ reader.waiting ++ ahead := by
  obtain ⟨front, left, rfl, -, accepts⟩ := follows.exists_left ends held
  exact ends.exists_ahead accepts

/-- Until the frame has ended, the source holds some of it. -/
theorem Follows.contents_ne_empty (follows : Follows origin start taken reader)
    (going : reader.decoder.isComplete = false) : Source.contents reader.source ≠ #[] := by
  obtain ⟨front, left, rfl, rest, accepts⟩ := follows.exists_left ends held
  rw [rest]
  intro nothing
  exact ends.ne_empty_of_going accepts going (Array.append_eq_empty_iff.mp nothing).1

/-- Once a reader is refilled nothing waits in it only at the end of the frame. -/
theorem waiting_eq_empty_iff {after : Reader σ} (refilled : reader.refill = (.ok (), after))
    (follows : Follows origin start taken after) :
    after.waiting = #[] ↔ ending = none ∧ taken = content := by
  obtain ⟨front, left, rfl, -, accepts⟩ := follows.exists_left ends held
  constructor
  · intro nothing
    have sizes := congrArg Array.size nothing
    rw [waiting, size_dropFirst, Array.size_empty] at sizes
    have drained := Nat.le_antisymm follows.within (Nat.le_of_sub_eq_zero sizes)
    obtain ⟨finished, -, all⟩ := ends.of_complete accepts (full_of_refill refilled drained)
    rw [nothing, Array.append_empty] at all
    exact ⟨finished, all.symm⟩
  · rintro ⟨-, rfl⟩
    obtain ⟨ahead, continued⟩ := ends.exists_ahead accepts
    have sizes := congrArg Array.size continued
    simp only [Array.size_append] at sizes
    exact Array.size_eq_zero_iff.mp (by omega)

include eager

theorem goes_pull (follows : Follows origin start taken reader)
    (going : reader.decoder.isComplete = false) :
    Goes origin start content ending taken (taken ++ reader.waiting) reader.pull := by
  obtain ⟨front, left, whole, rest, accepts⟩ := follows.exists_left ends held
  have more := follows.contents_ne_empty ends held going
  have asked := accepts.waits.inputHint_pos going
  -- The source is asked for something, but for no more than the decoder waits for.
  have few : max (min reader.decoder.inputHint maxPull) 1 ≤ reader.decoder.inputHint := by omega
  have some : 0 < max (min reader.decoder.inputHint maxPull) 1 := by omega
  obtain ⟨source, decoder, buffer, eaten⟩ := reader
  rw [pull]
  dsimp only at *
  generalize max (min decoder.inputHint maxPull) 1 = count at few some ⊢
  have gives := eager source count follows.reached some more
  cases handed : Source.read source count with
  | mk result after =>
    rw [handed] at gives
    cases result with
    | error error =>
      exact .failed ⟨source, count, follows.reached, congrArg Prod.fst handed⟩
        (follows.failed handed)
    | ok bytes =>
      have notEmpty : ¬ bytes.isEmpty = true :=
        fun nothing => gives (congrArg Except.ok (Array.isEmpty_iff.mp nothing))
      obtain ⟨limited, given⟩ := Source.contents_of_read_ok handed
      have short := Nat.le_trans limited few
      dsimp only
      rw [if_neg notEmpty]
      cases decoded : decoder.decode bytes with
      | mk outcome last =>
        cases outcome with
        | error error =>
          have split : front ++ (bytes ++ Source.contents after) = frame ++ behind := by
            rw [← given, rest, whole, Array.append_assoc]
          obtain ⟨refused, all⟩ :=
            ends.of_refuses accepts going short (congrArg Prod.fst decoded) split
          exact .refused refused all
        | ok pair =>
          exact .on (follows.handed handed
            (Decoder.accepts_of_decode accepts.waits going short decoded))

theorem goes_refill (follows : Follows origin start taken reader) :
    Goes origin start content ending taken taken reader.refill := by
  fun_induction refill reader with
  | case1 reader drained error after pulled =>
    have goes := goes_pull eager ends held (follows.clear drained.1) drained.2
    rwa [pulled, waiting_eq_empty rfl, Array.append_empty] at goes
  | case2 reader drained middle pulled ih =>
    have goes := goes_pull eager ends held (follows.clear drained.1) drained.2
    rw [pulled] at goes
    cases goes with
    | on follows => exact ih follows
  | case3 reader full => exact .on follows

include consistent

theorem goes_header (follows : Follows origin start taken reader) :
    Goes origin start content ending taken taken reader.header := by
  fun_induction header reader with
  | case1 reader header known => exact .on follows
  | case2 reader unknown error after pulled =>
    obtain ⟨going, nothing⟩ := follows.of_header consistent unknown
    have goes := goes_pull eager ends held follows going
    rw [pulled] at goes
    cases goes with
    | failed fails follows => exact .failed fails follows
    | refused refused all => exact .refused refused (by rw [all, nothing, Array.append_empty])
  | case3 reader unknown middle pulled ih =>
    obtain ⟨going, -⟩ := follows.of_header consistent unknown
    have goes := goes_pull eager ends held follows going
    rw [pulled] at goes
    cases goes with
    | on follows => exact ih follows

/-- A call is answered from the content of the frame, and the reader goes on following the frame
unless it refused it. -/
theorem follows_call (follows : Follows origin start taken reader) (call : Call) :
    Answered origin start frame content ending taken call (reader.call call).1 ∧
      (Follows origin start (taken ++ reader.takes call) (reader.call call).2 ∨
        ∃ error, ending = some error ∧ (reader.call call).1.error? = some error.toStream ∧
          taken = content) := by
  cases call with
  | read count =>
    have goes := goes_refill eager ends held follows
    rcases refilled : reader.refill with ⟨error | value, after⟩
    · have given : reader.read count = (.error error, after) := by rw [read, refilled]
      rw [refilled] at goes
      rw [Reader.call, takes, given, Array.append_empty]
      exact goes.reports rfl
    · rw [refilled] at goes
      cases goes with
      | on follows =>
        have finished := waiting_eq_empty_iff ends held refilled follows
        obtain ⟨ahead, continued⟩ := follows.exists_ahead ends held
        have part : after.waiting.extract 0 (after.waiting.extract 0 count).size =
            after.waiting.extract 0 count := by
          rw [Array.size_extract, Nat.sub_zero, extract_min]
        have split := waiting_consume follows.within (after.waiting.extract 0 count).size
        have still := follows.consume (after.waiting.extract 0 count).size
        rw [part] at split still
        rw [← split, ← Array.append_assoc, Array.append_assoc] at continued
        rw [Reader.call, takes, read_of_refill refilled count]
        refine ⟨.read ?_ continued ?_, .inl still⟩
        · rw [Array.size_extract]
          omega
        · rw [← finished, Array.extract_eq_empty_iff, ← Array.size_eq_zero_iff]
          omega
  | fill =>
    have goes := goes_refill eager ends held follows
    rcases refilled : reader.refill with ⟨error | value, after⟩
    · rw [refilled] at goes
      rw [Reader.call, fill, refilled, takes, Array.append_empty]
      exact goes.reports rfl
    · rw [refilled] at goes
      rw [Reader.call, fill, refilled, takes, Array.append_empty]
      cases goes with
      | on follows =>
        obtain ⟨ahead, continued⟩ := follows.exists_ahead ends held
        exact ⟨.fill continued (waiting_eq_empty_iff ends held refilled follows), .inl follows⟩
  | consume count => exact ⟨.consume count, .inl (follows.consume count)⟩
  | header =>
    have goes := goes_header consistent eager ends held follows
    rcases told : reader.header with ⟨error | known, after⟩
    · rw [told] at goes
      rw [Reader.call, told, takes, Array.append_empty]
      exact goes.reports rfl
    · rw [told] at goes
      rw [Reader.call, told, takes, Array.append_empty]
      cases goes with
      | on follows =>
        obtain ⟨front, left, whole, -, accepts⟩ := follows.exists_left ends held
        exact ⟨.header ⟨front, left, _, _, whole, accepts, header_of_header told⟩, .inl follows⟩

/-- After any calls a reader follows its frame, unless one of them reported that the frame is
refused, and by then all content was taken off. -/
theorem follows_calls (follows : Follows origin start taken reader) (made : List Call) :
    Follows origin start (taken ++ reader.takesAll made) (reader.calls made).2 ∨
      ∃ error front call back, ending = some error ∧ made = front ++ call :: back ∧
        ((reader.calls front).2.call call).1.error? = some error.toStream ∧
        taken ++ reader.takesAll front = content := by
  induction made generalizing reader taken with
  | nil =>
    rw [takesAll, Array.append_empty]
    exact .inl follows
  | cons call rest ih =>
    rw [calls_cons, takesAll]
    -- A report by the first call stands as it is, one by a later call behind the first call.
    rcases (follows_call consistent eager ends held follows call).2 with
      still | ⟨error, refused, reports, all⟩
    · rcases ih still with last | ⟨error, front, other, back, refused, rfl, reports, all⟩
      · rw [Array.append_assoc] at last
        exact .inl last
      · refine .inr ⟨error, call :: front, other, back, refused, rfl, ?_, ?_⟩
        · rwa [calls_cons]
        · rw [takesAll, ← Array.append_assoc, all]
    · exact .inr ⟨error, [], call, rest, refused, rfl, reports, by
        rw [takesAll, Array.append_empty, all]⟩

end

/-- In whatever pieces a source hands out its bytes, however often it fails in between, and whatever
is asked of a reader: if the bytes begin with a frame that is accepted, what is taken off the reader
is the content of the frame from the beginning on, and nothing is given out only at its end. Of the
source no byte behind the frame is read, and all bytes of the frame are read once the decoder has
come to its end. If something in the frame is refused, all content in front of it was taken off by
the time this is reported. -/
theorem answered_calls {source : σ} {decoder : Decoder} {start : Reader σ} {frame behind : Bytes}
    (begins : start = withDecoder source decoder) (eager : Source.Eager source)
    (held : Source.contents source = frame ++ behind) :
    (∀ content after, decoder.reset.Accepts frame content after → after.isComplete = true →
      ∀ made next,
        Answered source decoder.reset frame content none (start.takesAll made) next
          ((start.calls made).2.call next).1 ∧
        (∃ ahead, content = start.takesAll made ++ (start.calls made).2.waiting ++ ahead) ∧
        ∃ front left, frame = front ++ left ∧
          Source.contents (start.calls made).2.source = left ++ behind ∧
          ((start.calls made).2.decoder.isComplete = true ↔ left = #[])) ∧
    ∀ error, decoder.reset.Refuses frame error → error.corruption? ≠ some .trailingData →
      error.toStream.kind = .invalidData ∧
      ∃ content, decoder.reset.Yields frame content ∧ ∀ made next,
        Answered source decoder.reset frame content (some error) (start.takesAll made) next
            ((start.calls made).2.call next).1 ∨
          ∃ front call back, made = front ++ call :: back ∧
            ((start.calls front).2.call call).1.error? = some error.toStream ∧
            start.takesAll front = content := by
  have consistent : decoder.reset.Consistent := decoder.consistent_reset
  have follows : Follows source decoder.reset #[] start := begins ▸ follows_withDecoder _ _
  refine ⟨?_, ?_⟩
  · intro content after accepted complete made next
    have ends := Decoder.Ends.whole accepted complete
    rcases follows_calls consistent eager ends held follows made with
      still | ⟨error, front, call, back, refused, -⟩
    · rw [Array.empty_append] at still
      refine ⟨(follows_call consistent eager ends held still next).1,
        still.exists_ahead ends held, ?_⟩
      obtain ⟨front, left, rfl, rest, accepts⟩ := still.exists_left ends held
      refine ⟨front, left, rfl, rest, fun finished => (ends.of_complete accepts finished).2.1, ?_⟩
      intro none
      by_contra going
      exact ends.ne_empty_of_going accepts (by simpa using going) none
    · cases refused
  · intro error refuses inside
    obtain ⟨content, yields⟩ := Decoder.exists_yields decoder.settled_reset frame
    have ends := Decoder.Ends.refused yields refuses inside
    refine ⟨refuses.kind_toStream, content, yields, ?_⟩
    intro made next
    rcases follows_calls consistent eager ends held follows made with
      still | ⟨other, front, call, back, same, split, reports, all⟩
    · rw [Array.empty_append] at still
      exact .inl (follows_call consistent eager ends held still next).1
    · rw [Array.empty_append] at all
      cases same
      exact .inr ⟨front, call, back, split, reports, all⟩

theorem answered_calls_paced :
    let whole : Bytes :=
      #[0x04, 0x22, 0x4D, 0x18, 0x60, 0x40, 0x82, 3, 0, 0, 0x80, 7, 8, 9, 0, 0, 0, 0]
    let bad : Bytes :=
      #[0x04, 0x22, 0x4D, 0x18, 0x60, 0x40, 0x82, 3, 0, 0, 0x80, 7, 8, 9, 0, 0, 0, 1]
    let last : Decoder := { Decoder.new with
      stage := .complete
      header := some { blockSize := .max64KB, independentBlocks := true }
      position := 18
      decoded := 3 }
    let slow (frame : Bytes) : Paced := { data := frame ++ #[5, 6], pace := some 2 }
    let reader (frame : Bytes) : Reader Paced := withDecoder (slow frame) .new
    let after (frame : Bytes) : Reader Paced := ((reader frame).calls [.header, .read 2]).2
    (∀ frame, Source.Eager (slow frame) ∧ Source.contents (slow frame) = frame ++ #[5, 6]) ∧
      Decoder.new.reset.Accepts whole #[7, 8, 9] last ∧
      Decoder.new.reset.Refuses bad (.corruptInput 14 .blockTooLarge) ∧
      Answered (slow whole) Decoder.new.reset whole #[7, 8, 9] none
        ((reader whole).takesAll [.header, .read 2]) (.read 4) ((after whole).call (.read 4)).1 ∧
      (∃ front left, whole = front ++ left ∧
        Source.contents (after whole).source = left ++ #[5, 6] ∧
        ((after whole).decoder.isComplete = true ↔ left = #[])) ∧
      ∃ content, Decoder.new.reset.Yields bad content ∧
        (Answered (slow bad) Decoder.new.reset bad content (some (.corruptInput 14 .blockTooLarge))
            ((reader bad).takesAll [.header, .read 2]) (.read 4) ((after bad).call (.read 4)).1 ∨
          ∃ front call back, [.header, .read 2] = front ++ call :: back ∧
            (((reader bad).calls front).2.call call).1.error? =
              some (Error.corruptInput 14 .blockTooLarge).toStream ∧
            (reader bad).takesAll front = content) := by
  intro whole bad last slow reader after
  have eager (frame : Bytes) : Source.Eager (slow frame) := Paced.eager (by simp [slow])
  have held (frame : Bytes) : Source.contents (slow frame) = frame ++ #[5, 6] := dropFirst_zero _
  have accepted : Decoder.new.reset.Accepts whole #[7, 8, 9] last := by
    unfold Decoder.Accepts
    cbv
  have refused : Decoder.new.reset.Refuses bad (.corruptInput 14 .blockTooLarge) := by
    unfold Decoder.Refuses
    cbv
  have answered := (answered_calls rfl (eager whole) (held whole)).1 _ _ accepted rfl
    [.header, .read 2] (.read 4)
  obtain ⟨-, content, yields, reported⟩ :=
    (answered_calls rfl (eager bad) (held bad)).2 _ refused (by decide)
  exact ⟨fun frame => ⟨eager frame, held frame⟩, accepted, refused, answered.1, answered.2.2,
    content, yields, reported [.header, .read 2] (.read 4)⟩

end Reader

end Lz4.Frame
