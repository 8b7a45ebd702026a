import Lz4.Proofs.Frame.Writing

/-!
# Using a writer again

Which request a writer refuses, and why, can be told from the requests before it alone
(`Lz4.Frame.Standing`), and a request that is refused leaves the writer as it was. The requests that
are granted are those of frames, one after the other, and what each frame gave out is what a new
writer gives out that is asked for this frame only (`Lz4.Frame.Writer.requests_frames`).
-/

namespace Lz4.Frame

/-- Where the requests that were granted led: before the first frame, into a frame with the content
size that its header announces and the number of bytes that it took in, or behind a frame. -/
inductive Standing where
  | idle
  | started (announced : Option UInt64) (taken : Nat)
  | ended
  deriving Repr, DecidableEq

namespace Standing

/-- Where a request leads, or why it is refused. An announced size of zero binds to nothing. -/
def next : Standing → Request → Except Misuse Standing
  | started _ _, .begin _ => .error .frameInProgress
  | _, .begin settings => .ok (started settings.contentSize 0)
  | idle, _ => .error .noFrame
  | ended, _ => .error .frameEnded
  | started announced taken, .update data => .ok (started announced (taken + data.size))
  | started announced taken, .flush => .ok (started announced taken)
  | started announced taken, .finish =>
    if announced.all fun size => size == 0 || size.toNat == taken then .ok ended
    else .error .declaredSize

/-- Where requests lead. One that is refused leads nowhere. -/
def follow (standing : Standing) : List Request → Standing
  | [] => standing
  | request :: rest =>
    match standing.next request with
    | .error _ => standing.follow rest
    | .ok after => after.follow rest

example :
    (idle.follow [.begin { contentSize := some 3 }, .update #[1, 2], .begin {}]).next .finish =
      .error .declaredSize := by
  rfl

end Standing

namespace Encoder

/-- Where an encoder stands. -/
def standing : Encoder → Standing
  | idle => .idle
  | started session => .started session.header.contentSize session.consumed
  | ended => .ended

variable {encoder : Encoder} {session : Session}

/-- A frame is refused the end exactly if its header announces another size that is not zero. -/
theorem endProblem_eq (session : Session) :
    session.endProblem? =
      if session.header.contentSize.all fun size => size == 0 || size.toNat == session.consumed
      then none else some (.usage .declaredSize) := by
  unfold Session.endProblem? Header.knownContentSize
  cases announced : session.header.contentSize with
  | none => rfl
  | some size =>
    by_cases zero : size = 0
    · rw [Option.filter_some, if_neg (by simp [zero]), Option.all_some, if_pos (by simp [zero])]
    · rw [Option.filter_some, if_pos (by simp [zero]), Option.all_some]
      by_cases total : size.toNat = session.consumed
      · rw [if_pos (by simp [total])]
        exact if_pos total
      · rw [if_neg (by simp [zero, total])]
        exact if_neg total

/-- A request is refused for the reason that can be told from where the encoder stands, and leads to
where it leads from there. -/
theorem standing_request (encoder : Encoder) (request : Request) :
    (∃ misuse, encoder.standing.next request = .error misuse ∧
      encoder.request request = (.error (.usage misuse), encoder)) ∨
    ∃ written after, encoder.request request = (.ok written, after) ∧
      encoder.standing.next request = .ok after.standing := by
  cases encoder with
  | idle | ended =>
    cases request with
    | begin settings => exact Or.inr ⟨_, _, rfl, rfl⟩
    | update | flush | finish => exact Or.inl ⟨_, rfl, rfl⟩
  | started session =>
    cases request with
    | begin settings => exact Or.inl ⟨_, rfl, rfl⟩
    | update data => exact Or.inr ⟨_, _, rfl, rfl⟩
    | flush => exact Or.inr ⟨_, _, rfl, rfl⟩
    | finish =>
      unfold Encoder.request Encoder.finish standing Standing.next
      dsimp only
      rw [endProblem_eq]
      split
      · exact Or.inr ⟨_, .ended, rfl, rfl⟩
      · exact Or.inl ⟨_, rfl, rfl⟩

theorem standing_requests (encoder : Encoder) (made : List Request) :
    (encoder.requests made).2.standing = encoder.standing.follow made := by
  induction made generalizing encoder with
  | nil => rfl
  | cons request rest ih =>
    rw [requests_cons, Standing.follow]
    rcases encoder.standing_request request with
      ⟨misuse, told, refused⟩ | ⟨written, after, granted, told⟩
    · rw [refused, told]
      exact ih encoder
    · rw [granted, told]
      exact ih after

/-- A frame is begun outside of frames only, everything else is granted inside only, and nothing but
the end leads outside. -/
theorem isStarted_request {request : Request} {written : Bytes} {next : Encoder}
    (grants : encoder.request request = (.ok written, next)) :
    encoder.isStarted = !request.begins ∧ next.isStarted = !request.ends := by
  cases encoder with
  | started session =>
    cases request with
    | begin settings => cases grants
    | update data => cases grants; exact ⟨rfl, rfl⟩
    | flush => cases grants; exact ⟨rfl, rfl⟩
    | finish =>
      unfold Encoder.request Encoder.finish at grants
      dsimp only at grants
      split at grants
      · cases grants
      · cases grants
        exact ⟨rfl, rfl⟩
  | idle | ended =>
    cases request with
    | begin settings => cases grants; exact ⟨rfl, rfl⟩
    | update | flush | finish => cases grants

end Encoder

namespace Writer

variable {writer : Writer} {encoder : Encoder}

/-- A writer refuses what can be told from where its encoder stands, and is not changed then. -/
theorem request_standing (shows : writer.Shows encoder) (request : Request) :
    (∃ misuse, encoder.standing.next request = .error misuse ∧
      writer.request request = (.error (.usage misuse), writer)) ∨
    ∃ standing written last, encoder.standing.next request = .ok standing ∧
      writer.request request = (.ok written, last) := by
  rcases encoder.standing_request request with
    ⟨misuse, told, refuses⟩ | ⟨written, next, grants, told⟩
  · rcases request_shows shows request with
      ⟨error, refusesToo, refused⟩ | ⟨more, other, last, grants, -, -⟩
    · rw [refuses] at refusesToo
      cases refusesToo
      exact Or.inl ⟨misuse, told, refused⟩
    · rw [refuses] at grants
      cases grants
  · rcases request_shows shows request with
      ⟨error, refuses, -⟩ | ⟨more, other, last, grantsToo, granted, -⟩
    · rw [grants] at refuses
      cases refuses
    · rw [grants] at grantsToo
      cases grantsToo
      exact Or.inr ⟨next.standing, written, last, told, granted⟩

end Writer

namespace Writer

/-- The requests that were granted, with what they gave out. -/
def granted : List Request → List (Except Error Bytes) → List (Request × Bytes)
  | request :: rest, .ok written :: results => (request, written) :: granted rest results
  | _ :: rest, .error _ :: results => granted rest results
  | _, _ => []

/-- The last request ends a frame. -/
def Closed (done : List (Request × Bytes)) : Prop :=
  ∃ last ∈ done.getLast?, last.1.ends = true

/-- The requests of one frame: the first begins it, no other begins one, and nothing comes behind
its end. -/
structure OneFrame (done : List (Request × Bytes)) : Prop where
  begun : ∃ first rest, done = first :: rest ∧ first.1.begins = true ∧
    ∀ later ∈ rest, later.1.begins = false
  ended : ∀ earlier ∈ done.dropLast, earlier.1.ends = false

/-- What was done is what the writer does when nothing else is asked of it. -/
def Does (writer : Writer) (done : List (Request × Bytes)) : Prop :=
  (writer.requests (done.map Prod.fst)).1 = done.map fun given => .ok given.2

/-- What was done, divided into what the frame in progress still did, if there is one, and the
frames after it. -/
structure Divides (writer : Writer) (done here : List (Request × Bytes))
    (frames : List (List (Request × Bytes))) : Prop where
  joined : done = here ++ frames.flatten
  does : writer.Does here
  quiet : writer.isStarted = false → here = []
  inner : ∀ given ∈ here, given.1.begins = false
  ended : ∀ earlier ∈ here.dropLast, earlier.1.ends = false
  closed : writer.isStarted = true → frames ≠ [] → Closed here
  alone : ∀ frame ∈ frames, OneFrame frame ∧ new.Does frame
  closedFrames : ∀ frame ∈ frames.dropLast, Closed frame

variable {writer last : Writer} {encoder next : Encoder} {request : Request} {written : Bytes}
  {done here : List (Request × Bytes)} {frames : List (List (Request × Bytes))}

theorem does_nil (writer : Writer) : writer.Does [] := rfl

theorem Does.cons (does : last.Does here) (given : writer.request request = (.ok written, last)) :
    writer.Does ((request, written) :: here) := by
  unfold Does at does ⊢
  rw [List.map_cons, List.map_cons, requests_cons, given, does]

/-- What is done is the same for writers that show the same encoder. -/
theorem Does.of_shows (does : writer.Does done) (shows : writer.Shows encoder)
    (same : last.Shows encoder) : last.Does done :=
  (requests_of_shows same shows _).trans does

theorem shows_new : new.Shows .idle := .idle rfl

/-- What ends nothing can come before what ends only at its own end. -/
theorem ends_dropLast_cons (ended : ∀ earlier ∈ here.dropLast, earlier.1.ends = false)
    (onward : request.ends = false) :
    ∀ earlier ∈ ((request, written) :: here).dropLast, earlier.1.ends = false := by
  cases here with
  | nil => exact List.forall_mem_nil _
  | cons first rest =>
    rw [List.dropLast_cons_cons, List.forall_mem_cons]
    exact ⟨onward, ended⟩

theorem closed_cons (closed : Closed here) : Closed ((request, written) :: here) := by
  obtain ⟨last, isLast, ends⟩ := closed
  cases here with
  | nil => cases isLast
  | cons first rest =>
    refine ⟨last, ?_, ends⟩
    rwa [List.getLast?_cons_cons]

theorem divides_nil (writer : Writer) : writer.Divides [] [] [] where
  joined := rfl
  does := does_nil writer
  quiet := fun _ => rfl
  inner := List.forall_mem_nil _
  ended := List.forall_mem_nil _
  closed := fun _ some => absurd rfl some
  alone := List.forall_mem_nil _
  closedFrames := List.forall_mem_nil _

/-- A frame that is begun comes before the frames after it, and could be begun by a new writer. -/
theorem Divides.begin (divides : last.Divides done here frames) (shows : last.Shows next)
    (quiet : writer.isStarted = false) (started : last.isStarted = true)
    (fresh : ∃ other, new.request request = (.ok written, other) ∧ other.Shows next)
    (begins : request.begins = true) (onward : request.ends = false) :
    writer.Divides ((request, written) :: done) [] (((request, written) :: here) :: frames) where
  joined := by rw [divides.joined]; rfl
  does := does_nil writer
  quiet := fun _ => rfl
  inner := List.forall_mem_nil _
  ended := List.forall_mem_nil _
  closed := by
    intro inside
    rw [quiet] at inside
    cases inside
  alone := by
    obtain ⟨other, given, showsToo⟩ := fresh
    rw [List.forall_mem_cons]
    refine ⟨⟨⟨⟨_, _, rfl, begins, divides.inner⟩, ?_⟩, ?_⟩, divides.alone⟩
    · exact ends_dropLast_cons divides.ended onward
    · exact (divides.does.of_shows shows showsToo).cons given
  closedFrames := by
    cases frames with
    | nil => exact List.forall_mem_nil _
    | cons frame rest =>
      rw [List.dropLast_cons_cons, List.forall_mem_cons]
      exact ⟨closed_cons (divides.closed started (List.cons_ne_nil frame rest)),
        divides.closedFrames⟩

/-- What is granted in a frame comes before what the frame does after it. -/
theorem Divides.inside (divides : last.Divides done here frames)
    (started : writer.isStarted = true) (still : last.isStarted = true)
    (given : writer.request request = (.ok written, last)) (within : request.begins = false)
    (onward : request.ends = false) :
    writer.Divides ((request, written) :: done) ((request, written) :: here) frames where
  joined := by rw [divides.joined]; rfl
  does := divides.does.cons given
  quiet := by
    intro outside
    rw [started] at outside
    cases outside
  inner := List.forall_mem_cons.mpr ⟨within, divides.inner⟩
  ended := ends_dropLast_cons divides.ended onward
  closed := fun _ some => closed_cons (divides.closed still some)
  alone := divides.alone
  closedFrames := divides.closedFrames

/-- Nothing comes behind the end of a frame but other frames. -/
theorem Divides.finish (divides : last.Divides done here frames)
    (started : writer.isStarted = true) (quiet : last.isStarted = false)
    (given : writer.request request = (.ok written, last)) (within : request.begins = false)
    (ends : request.ends = true) :
    writer.Divides ((request, written) :: done) [(request, written)] frames := by
  have nothing := divides.quiet quiet
  have joined := divides.joined
  rw [nothing, List.nil_append] at joined
  exact {
    joined := by rw [joined]; rfl
    does := (does_nil last).cons given
    quiet := by
      intro outside
      rw [started] at outside
      cases outside
    inner := List.forall_mem_singleton.mpr within
    ended := List.forall_mem_nil _
    closed := fun _ _ => ⟨_, rfl, ends⟩
    alone := divides.alone
    closedFrames := divides.closedFrames }

theorem exists_divides (shows : writer.Shows encoder) (made : List Request) :
    ∃ here frames, writer.Divides (granted made (writer.requests made).1) here frames := by
  induction made generalizing writer encoder with
  | nil => exact ⟨[], [], divides_nil writer⟩
  | cons request rest ih =>
    rw [requests_cons]
    rcases request_shows shows request with
      ⟨error, -, refused⟩ | ⟨written, next, last, grants, given, onward⟩
    · rw [refused]
      exact ih shows
    · obtain ⟨here, frames, divides⟩ := ih onward
      obtain ⟨before, after⟩ := Encoder.isStarted_request grants
      rw [← isStarted_of_shows shows] at before
      rw [← isStarted_of_shows onward] at after
      rw [given]
      cases request with
      | begin settings =>
        have quiet : encoder.isStarted = false := (isStarted_of_shows shows).symm.trans before
        obtain ⟨other, fresh, follows⟩ := @begin_of_quiet new settings rfl
        cases (Encoder.begin_of_quiet quiet).symm.trans grants
        exact ⟨[], _, divides.begin onward before after ⟨other, fresh, .started follows⟩ rfl rfl⟩
      | update data => exact ⟨_, frames, divides.inside before after given rfl rfl⟩
      | flush => exact ⟨_, frames, divides.inside before after given rfl rfl⟩
      | finish => exact ⟨_, frames, divides.finish before after given rfl rfl⟩

/-- A writer refuses exactly the requests that come at the wrong time, for the reason that can be
told from the requests before, and a request that is refused changes nothing. The requests that are
granted are those of frames, of which all but the last are ended, and a new writer that is asked for
one of the frames and for nothing else grants all of it and gives out the same. -/
theorem requests_frames (made : List Request) :
    (∀ request,
      (∃ misuse, (Standing.idle.follow made).next request = .error misuse ∧
        (new.requests made).2.request request = (.error (.usage misuse), (new.requests made).2)) ∨
      ∃ standing written last, (Standing.idle.follow made).next request = .ok standing ∧
        (new.requests made).2.request request = (.ok written, last)) ∧
    ∃ frames : List (List (Request × Bytes)),
      granted made (new.requests made).1 = frames.flatten ∧
      (∀ frame ∈ frames, OneFrame frame ∧
        (new.requests (frame.map Prod.fst)).1 = frame.map fun given => .ok given.2) ∧
      ∀ frame ∈ frames.dropLast, Closed frame := by
  constructor
  · intro request
    have stands := Encoder.idle.standing_requests made
    rw [Encoder.standing] at stands
    rw [← stands]
    exact request_standing (requests_shows shows_new made).2 request
  · obtain ⟨here, frames, divides⟩ := exists_divides shows_new made
    have joined := divides.joined
    rw [divides.quiet rfl, List.nil_append] at joined
    exact ⟨frames, joined, divides.alone, divides.closedFrames⟩

end Writer

end Lz4.Frame
