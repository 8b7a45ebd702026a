import Mathlib.Data.Nat.Find
import Lz4.Proofs.Frame.Hint
import Lz4.Proofs.Frame.Calls

/-!
# Front parts of a frame

A decoder accepts a front part of its input if it takes all of it in
(`Lz4.Frame.Decoder.Accepts`). Front parts are accepted one behind the other: the contents are put
together, and what is refused behind an accepted part is refused with it
(`Lz4.Frame.Decoder.Accepts.append_iff`, `Lz4.Frame.Decoder.Accepts.refuses_append_iff`). So the
contents of the accepted front parts continue each other, and one of them holds all the others
(`Lz4.Frame.Decoder.exists_yields`), whatever becomes of the frame in the end
(`Lz4.Frame.Decoder.Ends`).
-/

namespace Lz4.Frame

open Bytes

namespace Run

variable {run : Run} {data : Bytes}

theorem stage_of_header (atHeader : (run.drive data).decoder.stage = .header) :
    run.decoder.stage = .header := by
  by_contra past
  exact (onward_drive past data).past atHeader

/-- A run that does not come past the header gives out nothing. -/
theorem output_of_header (atHeader : (run.drive data).decoder.stage = .header) :
    (run.drive data).output = run.output := by
  have starts := stage_of_header atHeader
  fun_induction drive run data with
  | case1 | case2 | case4 | case8 | case9 => rfl
  | case3 run sound collecting size required lacking more stop ih => exact ih atHeader starts
  | case5 run sound collecting size required collected ih =>
    have same : run.advance.output = run.output := by
      rw [advance, starts]
      dsimp only
      unfold readHeader
      split <;> rfl
    rw [← same]
    exact ih atHeader (stage_of_header atHeader)
  | case6 run sound idle remaining skipping taken all ih =>
    rw [skipping] at starts
    cases starts
  | case7 run sound idle remaining skipping taken some =>
    rw [skipping] at starts
    cases starts

end Run

namespace Decoder

variable {start middle after : Decoder} {front more rest content whole : Bytes} {error : Error}

/-- A decoder takes in all of the input so far, and has given out its content. -/
def Accepts (start : Decoder) (front content : Bytes) (after : Decoder) : Prop :=
  start.decode front = (.ok (content, front.size), after)

/-- A decoder refuses the input. -/
def Refuses (start : Decoder) (front : Bytes) (error : Error) : Prop :=
  (start.decode front).1 = .error error

theorem accepts_iff : start.Accepts front content after ↔
    start.fresh.drive front = ⟨after, content, front.size, none⟩ := by
  unfold Accepts decode
  split
  · rename_i stopped
    rw [stopped]
    simp
  · rename_i stopped
    rw [stopped]
    simp only [Prod.mk.injEq, Except.ok.injEq, Run.mk.injEq, and_true]
    constructor
    · rintro ⟨⟨rfl, rfl⟩, rfl⟩
      exact ⟨rfl, rfl, rfl⟩
    · rintro ⟨rfl, rfl, rfl⟩
      exact ⟨⟨rfl, rfl⟩, rfl⟩

theorem refuses_iff : start.Refuses front error ↔
    (start.fresh.drive front).fault = some error := by
  cases stopped : (start.fresh.drive front).fault with
  | none => simp [Refuses, decode_of_sound stopped]
  | some other => simp [Refuses, decode_of_fault stopped]

theorem accepts_empty (settled : start.Settled) : start.Accepts #[] #[] start :=
  accepts_iff.mpr settled

namespace Accepts

theorem waits (accepts : start.Accepts front content after) : after.Waits := by
  have driven := accepts_iff.mp accepts
  have waits := @Run.waits_drive start.fresh front (by rw [driven])
  rwa [driven] at waits

theorem same (accepts : start.Accepts front content middle) (more : Bytes) :
    (start.fresh.drive (front ++ more)).Same
      ((middle.fresh.drive more).behind content front.size) := by
  have driven := accepts_iff.mp accepts
  have same := @drive_append_of_all start front (by rw [driven]) (by rw [driven]) more
  rwa [driven] at same

/-- What is accepted behind an accepted front part adds its content. -/
theorem append_iff (accepts : start.Accepts front content middle) :
    start.Accepts (front ++ more) whole after ↔
      ∃ extra, middle.Accepts more extra after ∧ whole = content ++ extra := by
  have same := accepts.same more
  rw [accepts_iff]
  constructor
  · intro driven
    have joined := same.eq_of_sound (by rw [driven])
    rw [driven] at joined
    generalize further : middle.fresh.drive more = last at joined
    obtain ⟨decoder, extra, consumed, fault⟩ := last
    simp only [Run.behind, Run.mk.injEq, Array.size_append, Nat.add_left_cancel_iff] at joined
    obtain ⟨rfl, rfl, rfl, rfl⟩ := joined
    exact ⟨extra, accepts_iff.mpr further, rfl⟩
  · rintro ⟨extra, further, rfl⟩
    have driven := accepts_iff.mp further
    have joined := same.symm.eq_of_sound (by rw [driven])
    rw [← joined, driven, Run.behind, Array.size_append]

/-- What is refused behind an accepted front part is refused with it. -/
theorem refuses_append_iff (accepts : start.Accepts front content middle) :
    start.Refuses (front ++ more) error ↔ middle.Refuses more error := by
  rw [refuses_iff, refuses_iff, (accepts.same more).fault]

/-- Behind the end of a frame nothing is accepted. -/
theorem eq_empty_of_complete (accepts : start.Accepts front content middle)
    (complete : middle.isComplete = true) (further : start.Accepts (front ++ more) whole after) :
    more = #[] := by
  obtain ⟨extra, taken, -⟩ := accepts.append_iff.mp further
  have stops := @Run.drive_of_complete middle.fresh more rfl (by simpa [isComplete] using complete)
  rw [accepts_iff.mp taken] at stops
  split at stops
  · have fault : (none : Option Error) = some _ := congrArg Run.fault stops
    cases fault
  · have nothing : more.size = 0 := congrArg Run.consumed stops
    exact Array.size_eq_zero_iff.mp nothing

/-- What is behind the end of a frame is only refused for being there. -/
theorem trailingData_of_complete (accepts : start.Accepts front content middle)
    (complete : middle.isComplete = true) (refused : start.Refuses (front ++ more) error) :
    error.corruption? = some .trailingData := by
  have fault := refuses_iff.mp (accepts.refuses_append_iff.mp refused)
  rw [@Run.drive_of_complete middle.fresh more rfl (by simpa [isComplete] using complete)] at fault
  split at fault
  · cases fault
    rfl
  · cases fault

end Accepts

namespace Refuses

/-- Whatever follows a refused front part, it is refused for the same reason. -/
theorem append (refuses : start.Refuses front error) (more : Bytes) :
    start.Refuses (front ++ more) error := by
  have fault := refuses_iff.mp refuses
  have same := start.fresh.same_drive_append front more (Nat.zero_le _)
  rw [Run.drive_of_fault fault] at same
  exact refuses_iff.mpr (same.fault.trans fault)

theorem eq {other : Error} (refuses : start.Refuses front error)
    (again : start.Refuses front other) : error = other :=
  Except.error.inj (refuses.symm.trans again)

/-- Of the same data there are no two reasons to refuse a front part. -/
theorem eq_of_common {other : Error} {piece behind : Bytes} (refuses : start.Refuses front error)
    (again : start.Refuses piece other) (same : front ++ rest = piece ++ behind) :
    error = other := by
  rcases Array.append_eq_append_iff.mp same with ⟨more, rfl, -⟩ | ⟨more, rfl, -⟩
  · exact (refuses.append more).eq again
  · exact refuses.eq (again.append more)

theorem not_accepts (refuses : start.Refuses front error) :
    ¬ start.Accepts front content after := by
  intro accepts
  have same := refuses.symm.trans (congrArg Prod.fst accepts)
  cases same

/-- A front part that is accepted ends before one that is refused. -/
theorem exists_more {piece behind : Bytes} (refuses : start.Refuses piece error)
    (accepts : start.Accepts front content after) (same : front ++ rest = piece ++ behind) :
    ∃ more, piece = front ++ more ∧ 0 < more.size := by
  rcases Array.append_eq_append_iff.mp same with ⟨more, rfl, -⟩ | ⟨more, rfl, -⟩
  · refine ⟨more, rfl, Array.size_pos_iff.mpr ?_⟩
    rintro rfl
    rw [Array.append_empty] at refuses
    exact refuses.not_accepts accepts
  · exact absurd accepts (refuses.append more).not_accepts

/-- A reader reports what is refused as invalid data. -/
theorem kind_toStream (refuses : start.Refuses front error) :
    error.toStream.kind = .invalidData := by
  obtain ⟨offset, reason, rfl⟩ := Run.corruptInput_of_drive rfl (refuses_iff.mp refuses)
  rfl

end Refuses

/-- A piece that was asked for is accepted, unless it is refused. -/
theorem accepts_of_decode {consumed : Nat} (waits : middle.Waits)
    (going : middle.isComplete = false) (few : more.size ≤ middle.inputHint)
    (decoded : middle.decode more = (.ok (content, consumed), after)) :
    middle.Accepts more content after := by
  have all := (drive_of_hint waits going few).1
  cases stopped : (middle.fresh.drive more).fault with
  | some error =>
    rw [decode_of_fault stopped] at decoded
    cases decoded
  | none =>
    rw [decode_of_sound stopped] at decoded
    cases decoded
    rw [Accepts, decode_of_sound stopped, all]

/-- Less than what was asked for has no content. -/
theorem Accepts.content_of_short (accepts : middle.Accepts more content after)
    (waits : middle.Waits) (few : more.size < middle.inputHint) : content = #[] := by
  have short := output_of_short waits few
  rwa [accepts_iff.mp accepts] at short

namespace Accepts

theorem eq (accepts : start.Accepts front content middle)
    (again : start.Accepts front whole after) : content = whole ∧ middle = after := by
  have same := accepts.symm.trans again
  simpa using same

/-- A longer front part has the content of a shorter one, and more. -/
theorem exists_extra (accepts : start.Accepts front content middle)
    (further : start.Accepts (front ++ more) whole after) : ∃ extra, whole = content ++ extra := by
  obtain ⟨extra, -, continued⟩ := accepts.append_iff.mp further
  exact ⟨extra, continued⟩

theorem consistent (accepts : start.Accepts front content after) (consistent : start.Consistent) :
    after.Consistent := by
  have driven := @Run.consistent_drive start.fresh consistent front
  rwa [accepts_iff.mp accepts] at driven

/-- Up to the end of its header a frame has no content. -/
theorem content_of_header (accepts : start.Accepts front content after)
    (consistent : start.Consistent) (unknown : after.header = none) : content = #[] := by
  have driven := accepts_iff.mp accepts
  have atHeader := (accepts.consistent consistent).known.mpr unknown
  have nothing := @Run.output_of_header start.fresh front (by rw [driven]; exact atHeader)
  rwa [driven] at nothing

/-- A header that is known stays the same. -/
theorem header_of_append {header : Header} (accepts : start.Accepts front content middle)
    (consistent : start.Consistent) (known : middle.header = some header)
    (further : start.Accepts (front ++ more) whole after) : after.header = some header := by
  obtain ⟨extra, taken, -⟩ := accepts.append_iff.mp further
  have past : middle.stage ≠ .header := by
    rw [ne_eq, (accepts.consistent consistent).known, known]
    exact nofun
  have onward := @Run.onward_drive middle.fresh past more
  rw [accepts_iff.mp taken] at onward
  exact onward.header.trans known

end Accepts

/-- What a decoder can give out of its input, even if it refuses it in the end: the content of a
front part, which continues that of every other front part. -/
structure Yields (start : Decoder) (frame content : Bytes) : Prop where
  accepted : ∃ front rest after, frame = front ++ rest ∧ start.Accepts front content after
  most : ∀ front rest less after, frame = front ++ rest → start.Accepts front less after →
    ∃ more, content = less ++ more

/-- When a piece that was asked for is refused, all that can be given out was given out. -/
theorem Yields.eq_of_refuses {left piece behind given : Bytes}
    (yields : start.Yields (front ++ left) content) (accepts : start.Accepts front given middle)
    (few : piece.size ≤ middle.inputHint) (refused : middle.Refuses piece error)
    (held : left ++ behind = piece ++ rest) : content = given := by
  obtain ⟨longest, last, after, whole, accepted⟩ := yields.accepted
  -- What is accepted beyond the front part is shorter than the piece, so it has no content.
  rcases Array.append_eq_append_iff.mp whole with ⟨more, longer, further⟩ | ⟨more, shorter, -⟩
  · rw [longer] at accepted
    obtain ⟨extra, taken, continued⟩ := accepts.append_iff.mp accepted
    rw [further, Array.append_assoc] at held
    obtain ⟨beyond, split, some⟩ := refused.exists_more taken held
    have short : more.size < middle.inputHint := by
      rw [split, Array.size_append] at few
      omega
    rw [continued, taken.content_of_short accepts.waits short, Array.append_empty]
  · obtain ⟨ahead, continued⟩ := yields.most front left given middle rfl accepts
    rw [shorter] at accepts
    obtain ⟨extra, again⟩ := accepted.exists_extra accepts
    have sizes := congrArg Array.size again
    rw [continued, Array.size_append, Array.size_append] at sizes
    rw [continued, Array.size_eq_zero_iff.mp (by omega : ahead.size = 0), Array.append_empty]

open Classical in
/-- Some front part of the input has all the content that can be given out: the longest one that is
accepted. -/
theorem exists_yields (settled : start.Settled) (frame : Bytes) :
    ∃ content, start.Yields frame content := by
  let accepted (count : Nat) : Prop := ∃ front rest content after,
    frame = front ++ rest ∧ front.size = count ∧ start.Accepts front content after
  have nothing : accepted 0 :=
    ⟨#[], frame, #[], start, (Array.empty_append).symm, rfl, accepts_empty settled⟩
  obtain ⟨front, rest, content, after, whole, size, accepts⟩ :=
    Nat.findGreatest_spec (Nat.zero_le frame.size) nothing
  refine ⟨content, ⟨front, rest, after, whole, accepts⟩, ?_⟩
  intro other behind less middle split acceptsOther
  have shorter : other.size ≤ front.size := by
    rw [size]
    refine Nat.le_findGreatest ?_ ⟨other, behind, less, middle, split, rfl, acceptsOther⟩
    rw [split, Array.size_append]
    exact Nat.le_add_right _ _
  rcases Array.append_eq_append_iff.mp (split.symm.trans whole) with
    ⟨more, longer, -⟩ | ⟨more, longer, -⟩
  · rw [longer] at accepts
    exact acceptsOther.exists_extra accepts
  · have empty : more = #[] := by
      have sizes := congrArg Array.size longer
      rw [Array.size_append] at sizes
      exact Array.size_eq_zero_iff.mp (by omega)
    rw [longer, empty, Array.append_empty] at acceptsOther
    exact ⟨#[], by rw [(accepts.eq acceptsOther).1, Array.append_empty]⟩

/-- How a frame comes to its end, of which some content can be given out before: it is accepted as a
whole and nothing is missing, or something in it is refused. -/
inductive Ends (start : Decoder) (frame content : Bytes) : Option Error → Prop
  | whole {after : Decoder} (accepted : start.Accepts frame content after)
      (complete : after.isComplete = true) : Ends start frame content none
  | refused {error : Error} (yields : start.Yields frame content)
      (refuses : start.Refuses frame error) (inside : error.corruption? ≠ some .trailingData) :
      Ends start frame content (some error)

namespace Ends

variable {frame behind piece given : Bytes} {ending : Option Error}

/-- What is accepted of the bytes that begin with a frame is not longer than the frame. -/
theorem exists_left (ends : start.Ends frame content ending)
    (accepts : start.Accepts front given middle) (held : front ++ rest = frame ++ behind) :
    ∃ left, frame = front ++ left ∧ rest = left ++ behind := by
  rcases Array.append_eq_append_iff.mp held with within | ⟨more, rfl, continued⟩
  · exact within
  · cases ends with
    | whole accepted complete =>
      obtain rfl := accepted.eq_empty_of_complete complete accepts
      exact ⟨#[], by rw [Array.append_empty, Array.append_empty],
        by rw [continued, Array.empty_append, Array.empty_append]⟩
    | refused yields refuses inside => exact absurd accepts (refuses.append more).not_accepts

/-- The content of what is accepted is continued. -/
theorem exists_ahead (ends : start.Ends (front ++ more) content ending)
    (accepts : start.Accepts front given middle) : ∃ ahead, content = given ++ ahead := by
  cases ends with
  | whole accepted complete => exact accepts.exists_extra accepted
  | refused yields refuses inside => exact yields.most front more given middle rfl accepts

/-- A decoder that has come to the end of the frame was given all of it, and has given out all of
the content. -/
theorem of_complete (ends : start.Ends (front ++ more) content ending)
    (accepts : start.Accepts front given middle) (complete : middle.isComplete = true) :
    ending = none ∧ more = #[] ∧ content = given := by
  cases ends with
  | @whole after accepted done =>
    obtain rfl := accepts.eq_empty_of_complete complete accepted
    rw [Array.append_empty] at accepted
    exact ⟨rfl, rfl, (accepted.eq accepts).1⟩
  | refused yields refuses inside =>
    exact absurd (accepts.trailingData_of_complete complete refuses) inside

/-- A decoder that has not come to the end was not given all of the frame. -/
theorem ne_empty_of_going (ends : start.Ends (front ++ more) content ending)
    (accepts : start.Accepts front given middle) (going : middle.isComplete = false) :
    more ≠ #[] := by
  rintro rfl
  rw [Array.append_empty] at ends
  cases ends with
  | whole accepted complete =>
    rw [(accepted.eq accepts).2, going] at complete
    cases complete
  | refused yields refuses inside => exact refuses.not_accepts accepts

/-- A piece that was asked for and is refused begins with the first record that is bad, so
everything in front of it was given out. -/
theorem of_refuses (ends : start.Ends frame content ending)
    (accepts : start.Accepts front given middle) (going : middle.isComplete = false)
    (few : piece.size ≤ middle.inputHint) (refused : middle.Refuses piece error)
    (held : front ++ (piece ++ rest) = frame ++ behind) :
    ending = some error ∧ content = given := by
  have both : start.Refuses (front ++ piece) error := accepts.refuses_append_iff.mpr refused
  have other := (drive_of_hint accepts.waits going few).2 error (refuses_iff.mp refused)
  obtain ⟨left, split, continued⟩ := ends.exists_left accepts held
  rw [← Array.append_assoc] at held
  cases ends with
  | whole accepted complete =>
    -- The piece would have to reach beyond the frame, and be refused for that.
    obtain ⟨more, longer, -⟩ := both.exists_more accepted held.symm
    rw [longer] at both
    exact absurd (accepted.trailingData_of_complete complete both) other
  | refused yields refuses inside =>
    rw [split] at yields
    exact ⟨congrArg some (refuses.eq_of_common both held.symm),
      yields.eq_of_refuses accepts few refused continued.symm⟩

end Ends

end Decoder

end Lz4.Frame
