import Lz4.Proofs.Frame.Drive
import Lz4.Proofs.Frame.Header

/-!
# Decoders do not see where their input is cut

What a record tells about its size only grows as more of it comes in, and what is wrong with it
stays wrong. So it makes no difference in how many turns a record is collected
(`Lz4.Frame.Run.same_drive_collect`), nor whether a decoder is given all of its input or one part
after the other (`Lz4.Frame.Run.same_drive_append`). A decoder that is fed pieces
therefore comes to what it comes to when it is given all of them at once
(`Lz4.Frame.Decoder.feed_reset`).
-/

namespace Lz4.Frame

open Bytes

namespace Run

variable {run : Run}

/-- Two runs come to the same: they stop for the same reason, or they do not differ at all. -/
structure Same (first second : Run) : Prop where
  fault : first.fault = second.fault
  eq_of_sound : first.fault = none → first = second

namespace Same

theorem refl (run : Run) : run.Same run := ⟨rfl, fun _ => rfl⟩

theorem symm {first second : Run} (same : first.Same second) : second.Same first :=
  ⟨same.fault.symm, fun sound => (same.eq_of_sound (same.fault.trans sound)).symm⟩

theorem trans {first second third : Run} (same : first.Same second) (next : second.Same third) :
    first.Same third := by
  refine ⟨same.fault.trans next.fault, ?_⟩
  intro sound
  exact (same.eq_of_sound sound).trans (next.eq_of_sound (same.fault ▸ sound))

end Same

theorem collect_collect (run : Run) (front back : Bytes) :
    (run.collect front).collect back = run.collect (front ++ back) := by
  obtain ⟨⟨options, stage, header, pending, position, window, hasher, decoded, buffer⟩, output,
    consumed, fault⟩ := run
  simp only [collect, Array.append_assoc, Array.size_append, Nat.add_assoc]

theorem error_required_collect {error : Error} (refused : run.decoder.required = .error error)
    (bytes : Bytes) : (run.collect bytes).decoder.required = .error error := by
  rw [required_collect]
  split
  · rename_i stage
    rw [Decoder.required, stage] at refused
    exact Header.error_requiredSize_append refused bytes
  · exact refused

theorem le_required_collect {size larger : Nat} {bytes : Bytes}
    (required : run.decoder.required = .ok size)
    (after : (run.collect bytes).decoder.required = .ok larger) : size ≤ larger := by
  rw [required_collect] at after
  split at after
  · rename_i stage
    rw [Decoder.required, stage] at required
    exact Header.le_requiredSize_append required after
  · rw [required] at after
    cases after
    exact Nat.le_refl _

theorem same_of_error {error : Error} {first second : Run} {data : Bytes}
    (firstStops : first.drive data = { first with fault := some error })
    (secondStops : second.drive data = { second with fault := some error }) :
    (first.drive data).Same (second.drive data) := by
  rw [firstStops, secondStops]
  exact ⟨rfl, fun sound => by cases sound⟩

/-- What can be taken in at once is a part of it and a rest. -/
theorem exists_rest {data : Bytes} {start count needed : Nat} (lacking : count ≤ needed)
    (within : start + count ≤ data.size) :
    ∃ rest, start + count + rest ≤ data.size ∧ count + rest ≤ needed ∧
      data.extract start (start + needed) =
        data.extract start (start + count) ++
          data.extract (start + count) (start + count + rest) := by
  by_cases enough : start + needed ≤ data.size
  · refine ⟨needed - count, by omega, by omega, ?_⟩
    rw [extract_append_extract (Nat.le_add_right _ _) (Nat.le_add_right _ _)]
    congr 1
    omega
  · refine ⟨data.size - (start + count), by omega, by omega, ?_⟩
    rw [extract_append_extract (Nat.le_add_right _ _) (Nat.le_add_right _ _),
      extract_of_size_le (Nat.le_of_not_le enough)]
    congr 1
    omega

/-- Some of the bytes that a record lacks may be taken in before the others. -/
theorem same_drive_collect {run : Run} {data : Bytes} {size count : Nat} (sound : run.fault = none)
    (collecting : run.decoder.collects = true) (required : run.decoder.required = .ok size)
    (lacking : run.decoder.pending.size + count ≤ size)
    (within : run.consumed + count ≤ data.size) :
    (run.drive data).Same
      ((run.collect (data.extract run.consumed (run.consumed + count))).drive data) := by
  rcases Nat.eq_zero_or_pos count with rfl | some
  · rw [Nat.add_zero, Array.extract_eq_empty_of_le (by omega), collect_empty]
    exact Same.refl _
  · obtain ⟨rest, inside, further, taken⟩ :=
      @exists_rest data run.consumed count (size - run.decoder.pending.size) (by omega) within
    rw [drive_of_lacking sound collecting required (by omega) (by omega), taken,
      ← collect_collect]
    have part := size_extract_add within
    have pending := congrArg Array.size
      (pending_collect run (data.extract run.consumed (run.consumed + count)))
    have consumed := consumed_collect run (data.extract run.consumed (run.consumed + count))
    rw [Array.size_append, part] at pending
    rw [part] at consumed
    have soundEarly := (fault_collect run (data.extract run.consumed (run.consumed + count))).trans
      sound
    have collectingEarly := (collects_collect run
      (data.extract run.consumed (run.consumed + count))).trans collecting
    have growing : ∀ larger, (run.collect (data.extract run.consumed
        (run.consumed + count))).decoder.required = .ok larger → size ≤ larger :=
      fun larger after => le_required_collect required after
    generalize run.collect (data.extract run.consumed (run.consumed + count)) = early at *
    cases after : early.decoder.required with
    | error error =>
      exact same_of_error
        (drive_of_error soundEarly collectingEarly (error_required_collect after _))
        (drive_of_error soundEarly collectingEarly after)
    | ok larger =>
      have grown := growing larger after
      have onward := @same_drive_collect early data larger rest soundEarly collectingEarly after
        (by omega) (by omega)
      rw [consumed] at onward
      exact onward.symm
termination_by data.size - run.consumed

theorem pass_pass (run : Run) (count more : Nat) (stage later : Stage) :
    (run.pass count stage).pass more later = run.pass (count + more) later := by
  simp only [pass, Nat.add_assoc]

/-- A run over all of the data comes to what a run comes to that goes on after the front part. -/
theorem same_drive_append (run : Run) (front back : Bytes) (within : run.consumed ≤ front.size) :
    (run.drive (front ++ back)).Same ((run.drive front).drive (front ++ back)) := by
  have grown : (front ++ back).size = front.size + back.size := Array.size_append
  fun_induction drive run front with
  | case1 run error fault => exact Same.refl _
  | case2 run sound collecting error refused =>
    rw [drive_of_error sound collecting refused, drive_of_fault rfl]
    exact Same.refl _
  | case3 run sound collecting size required lacking more stop ih =>
    have taken : (front.extract run.consumed stop).size = min stop front.size - run.consumed :=
      Array.size_extract
    have place : run.consumed + (min stop front.size - run.consumed) = min stop front.size := by
      omega
    have part : (front ++ back).extract run.consumed
        (run.consumed + (min stop front.size - run.consumed)) =
          front.extract run.consumed stop := by
      rw [place, extract_append_of_le (Nat.min_le_right _ _), extract_min]
    have early := @same_drive_collect run (front ++ back) size (min stop front.size - run.consumed)
      sound collecting required (by omega) (by omega)
    rw [part] at early
    refine early.trans (ih ?_)
    rw [consumed_collect, taken]
    omega
  | case4 run sound collecting size required lacking all => exact Same.refl _
  | case5 run sound collecting size required collected ih =>
    rw [drive_of_collected sound collecting required (Nat.le_of_not_lt collected)]
    exact ih (run.unmoved_advance.consumed ▸ within)
  | case6 run sound idle remaining skipping taken all ih =>
    have further : min remaining ((front ++ back).size - run.consumed) = remaining := by omega
    rw [drive_of_skip sound skipping, if_pos further, ← all]
    apply ih
    simp only [pass]
    omega
  | case7 run sound idle remaining skipping taken some =>
    have rest : taken = front.size - run.consumed := by omega
    have onward := @drive_of_skip (run.pass taken (.skip (remaining - taken))) (front ++ back)
      (remaining - taken) sound rfl
    have passed :
        (run.pass taken (.skip (remaining - taken))).consumed = run.consumed + taken := rfl
    rw [passed, pass_pass, pass_pass] at onward
    rw [drive_of_skip sound skipping, onward]
    by_cases all : min remaining ((front ++ back).size - run.consumed) = remaining
    · have allAfter : min (remaining - taken) ((front ++ back).size - (run.consumed + taken)) =
          remaining - taken := by omega
      rw [if_pos all, if_pos allAfter, Nat.add_sub_cancel' (by omega)]
      exact Same.refl _
    · have someAfter : ¬ min (remaining - taken) ((front ++ back).size - (run.consumed + taken)) =
          remaining - taken := by omega
      have count : taken + ((front ++ back).size - (run.consumed + taken)) =
          (front ++ back).size - run.consumed := by omega
      rw [if_neg all, if_neg someAfter, Nat.sub_sub, count]
      exact Same.refl _
  | case8 run sound idle trailing other =>
    have ended := complete_of_idle idle other
    rw [drive_of_complete sound ended, if_pos ⟨by omega, trailing.2⟩, drive_of_fault rfl]
    exact Same.refl _
  | case9 run sound idle quiet other => exact Same.refl _

/-- A run over data that come behind others, with their content already found. -/
abbrev behind (run : Run) (output : Bytes) (count : Nat) : Run :=
  ⟨run.decoder, output ++ run.output, count + run.consumed, run.fault⟩

theorem finish_behind (run : Run) (output : Bytes) (count : Nat) :
    (run.behind output count).finish = run.finish.behind output count := by
  unfold finish
  simp only [behind]
  cases run.decoder.header.bind Header.knownContentSize with
  | none => rfl
  | some size =>
    dsimp only
    by_cases same : size.toNat = run.decoder.decoded
    · rw [if_pos same, if_pos same]
    · rw [if_neg same, if_neg same]
      rfl

theorem readHeader_behind (run : Run) (output : Bytes) (count : Nat) :
    (run.behind output count).readHeader = run.readHeader.behind output count := by
  simp only [readHeader, behind]
  cases Header.parse run.decoder.pending <;> rfl

theorem readBlockLength_behind (run : Run) (output : Bytes) (count start : Nat) :
    (run.behind output count).readBlockLength start =
      (run.readBlockLength start).behind output count := by
  obtain ⟨decoder, content, consumed, fault⟩ := run
  have finished := finish_behind ⟨{ decoder with pending := #[] }, content, consumed, fault⟩ output
    count
  simp only [readBlockLength, behind] at finished ⊢
  by_cases ends : decoder.pending.natAt 0 4 = 0
  · rw [if_pos ends, if_pos ends]
    split
    · rfl
    · exact finished
  · rw [if_neg ends, if_neg ends]
    split <;> rfl

theorem addContent_behind (run : Run) (output content : Bytes) (count : Nat) :
    (run.behind output count).addContent content =
      (run.addContent content).behind output count := by
  simp only [addContent, behind, Array.append_assoc]

theorem expandBlock_behind (run : Run) (output payload history : Bytes) (count start : Nat) :
    (run.behind output count).expandBlock payload history start =
      (run.expandBlock payload history start).behind output count := by
  cases decoded : Block.decode payload history run.decoder.blockLimit with
  | ok block =>
    rw [expandBlock_of_ok decoded, @expandBlock_of_ok (run.behind output count) _ _ _ _ decoded]
    exact (run.withBuffer block).addContent_behind output block count
  | error error =>
    rw [expandBlock_of_error decoded,
      @expandBlock_of_error (run.behind output count) _ _ _ _ decoded]

theorem readBlock_behind (run : Run) (output : Bytes) (count : Nat) (stored : Bool)
    (size start : Nat) : (run.behind output count).readBlock stored size start =
      (run.readBlock stored size start).behind output count := by
  have expanded := fun history =>
    run.expandBlock_behind output (run.decoder.pending.extract 0 size) history count start
  unfold readBlock
  dsimp only
  split
  · rfl
  · split
    · exact run.addContent_behind output _ count
    · exact expanded _

theorem readContentChecksum_behind (run : Run) (output : Bytes) (count start : Nat) :
    (run.behind output count).readContentChecksum start =
      (run.readContentChecksum start).behind output count := by
  obtain ⟨decoder, content, consumed, fault⟩ := run
  have finished := finish_behind
    ⟨{ decoder with pending := #[], hasher := none }, content, consumed, fault⟩ output count
  simp only [readContentChecksum, behind] at finished ⊢
  cases decoder.hasher with
  | none => exact finished
  | some hasher =>
    dsimp only
    split
    · exact finished
    · rfl

/-- Acting on a record does not depend on what came before. -/
theorem advance_behind (run : Run) (output : Bytes) (count : Nat) :
    (run.behind output count).advance = run.advance.behind output count := by
  unfold advance
  dsimp only
  split
  · exact run.readHeader_behind output count
  · exact run.readBlockLength_behind output count _
  · exact run.readBlock_behind output count _ _ _
  · exact run.readContentChecksum_behind output count _
  · rfl
  · rfl

theorem collect_behind (run : Run) (output bytes : Bytes) (count : Nat) :
    (run.behind output count).collect bytes = (run.collect bytes).behind output count := by
  simp only [collect, behind, Nat.add_assoc]

theorem pass_behind (run : Run) (output : Bytes) (count more : Nat) (stage : Stage) :
    (run.behind output count).pass more stage = (run.pass more stage).behind output count := by
  simp only [pass, behind, Nat.add_assoc]

/-- A run behind other data does what it does without them. -/
theorem drive_behind (run : Run) (output front data : Bytes) :
    (run.behind output front.size).drive (front ++ data) =
      (run.drive data).behind output front.size := by
  have grown : (front ++ data).size = front.size + data.size := Array.size_append
  fun_induction drive run data with
  | case1 run error fault => exact drive_of_fault fault
  | case2 run sound collecting error refused => exact drive_of_error sound collecting refused
  | case3 run sound collecting size required lacking more stop ih =>
    have inside : (run.behind output front.size).consumed < (front ++ data).size := by
      dsimp only
      omega
    have step := @drive_of_lacking (run.behind output front.size) _ _ sound collecting required
      lacking inside
    dsimp only at step
    rw [step, Nat.add_assoc, extract_append_of_ge, collect_behind]
    exact ih
  | case4 run sound collecting size required lacking all =>
    exact drive_of_starved sound collecting required lacking (by dsimp only; omega)
  | case5 run sound collecting size required collected ih =>
    have step := @drive_of_collected (run.behind output front.size) (front ++ data) _ sound
      collecting required (Nat.le_of_not_lt collected)
    rw [step, advance_behind]
    exact ih
  | case6 run sound idle remaining skipping taken all ih =>
    have left : (front ++ data).size - (front.size + run.consumed) = data.size - run.consumed := by
      omega
    have step := @drive_of_skip (run.behind output front.size) (front ++ data) _ sound skipping
    dsimp only at step
    rw [step, left, if_pos all, pass_behind, ← ih, all]
  | case7 run sound idle remaining skipping taken some =>
    have left : (front ++ data).size - (front.size + run.consumed) = data.size - run.consumed := by
      omega
    have rest : taken = data.size - run.consumed := by omega
    have step := @drive_of_skip (run.behind output front.size) (front ++ data) _ sound skipping
    dsimp only at step
    rw [step, left, if_neg some, pass_behind, rest]
  | case8 run sound idle trailing other =>
    have step := @drive_of_complete (run.behind output front.size) (front ++ data) sound
      (complete_of_idle idle other)
    dsimp only at step
    rw [step, if_pos ⟨by omega, trailing.2⟩]
    rfl
  | case9 run sound idle quiet other =>
    have quietAfter : ¬ (front.size + run.consumed < (front ++ data).size ∧
        run.decoder.options.stopAtFrameEnd = false) := fun trailing => quiet ⟨by omega, trailing.2⟩
    have step := @drive_of_complete (run.behind output front.size) (front ++ data) sound
      (complete_of_idle idle other)
    dsimp only at step
    rw [step, if_neg quietAfter]

theorem eq_of_behind_eq {first second : Run} {output : Bytes} {count : Nat}
    (same : first.behind output count = second.behind output count) : first = second := by
  obtain ⟨decoder, content, consumed, fault⟩ := first
  simp only [mk.injEq, Array.append_right_inj, Nat.add_left_cancel_iff] at same
  obtain ⟨rfl, rfl, rfl, rfl⟩ := same
  rfl

end Run

namespace Decoder

/-- Feeds pieces in order, until one is refused or not taken in as a whole. The result is the
content of all of them and the number of bytes that were taken in. -/
def feed (decoder : Decoder) : List Bytes → Except Error (Bytes × Nat) × Decoder
  | [] => (.ok (#[], 0), decoder)
  | piece :: rest =>
    match decoder.decode piece with
    | (.error error, after) => (.error error, after)
    | (.ok (content, consumed), after) =>
      if consumed < piece.size then (.ok (content, consumed), after)
      else
        match after.feed rest with
        | (.error error, last) => (.error error, last)
        | (.ok (further, count), last) => (.ok (content ++ further, consumed + count), last)

/-- A decoder that is about to work on a piece of input. -/
abbrev fresh (decoder : Decoder) : Run := ⟨decoder, #[], 0, none⟩

theorem decode_of_fault {decoder : Decoder} {data : Bytes} {error : Error}
    (fault : (decoder.fresh.drive data).fault = some error) :
    decoder.decode data = (.error error, (decoder.fresh.drive data).decoder) := by
  unfold decode
  split
  · rename_i stopped
    rw [stopped] at fault ⊢
    cases fault
    rfl
  · rename_i stopped
    rw [stopped] at fault
    cases fault

theorem decode_of_sound {decoder : Decoder} {data : Bytes}
    (sound : (decoder.fresh.drive data).fault = none) :
    decoder.decode data =
      (.ok ((decoder.fresh.drive data).output, (decoder.fresh.drive data).consumed),
        (decoder.fresh.drive data).decoder) := by
  unfold decode
  split
  · rename_i stopped
    rw [stopped] at sound
    cases sound
  · rename_i stopped
    rw [stopped]

/-- A decoder that has nothing to do before it is given more. -/
def Settled (decoder : Decoder) : Prop := decoder.fresh.drive #[] = decoder.fresh

theorem settled_reset (decoder : Decoder) : decoder.reset.Settled :=
  Run.drive_of_starved rfl rfl rfl (Nat.zero_lt_succ 3) (Nat.le_refl 0)

/-- After a piece that was taken in as a whole, a run is where a run would be that begins there. -/
theorem drive_eq_behind {decoder : Decoder} {piece : Bytes}
    (sound : (decoder.fresh.drive piece).fault = none)
    (all : (decoder.fresh.drive piece).consumed = piece.size) :
    decoder.fresh.drive piece = (decoder.fresh.drive piece).decoder.fresh.behind
      (decoder.fresh.drive piece).output piece.size := by
  generalize decoder.fresh.drive piece = middle at *
  obtain ⟨after, content, consumed, fault⟩ := middle
  dsimp only at sound all
  subst sound all
  simp only [Run.behind, Array.append_empty, Nat.add_zero]

/-- If a piece is taken in as a whole, what comes behind it is taken in as if nothing had come
before. -/
theorem drive_append_of_all {decoder : Decoder} {piece : Bytes}
    (sound : (decoder.fresh.drive piece).fault = none)
    (all : (decoder.fresh.drive piece).consumed = piece.size) (rest : Bytes) :
    (decoder.fresh.drive (piece ++ rest)).Same
      (((decoder.fresh.drive piece).decoder.fresh.drive rest).behind
        (decoder.fresh.drive piece).output piece.size) := by
  have same := decoder.fresh.same_drive_append piece rest (Nat.zero_le _)
  have onward := (decoder.fresh.drive piece).decoder.fresh.drive_behind
    (decoder.fresh.drive piece).output piece rest
  rw [← drive_eq_behind sound all] at onward
  rwa [onward] at same

/-- If the frame ended within a piece and the decoder stops there, what comes behind the piece does
not matter. -/
theorem drive_append_of_stop {decoder : Decoder} {piece : Bytes}
    (sound : (decoder.fresh.drive piece).fault = none)
    (ended : (decoder.fresh.drive piece).decoder.stage = .complete)
    (stops : (decoder.fresh.drive piece).decoder.options.stopAtFrameEnd = true) (rest : Bytes) :
    (decoder.fresh.drive (piece ++ rest)).Same (decoder.fresh.drive piece) := by
  have same := decoder.fresh.same_drive_append piece rest (Nat.zero_le _)
  rw [Run.drive_of_complete sound ended, if_neg] at same
  · exact same
  · intro going
    rw [stops] at going
    cases going.2

theorem settled_of_drive {decoder : Decoder} {piece : Bytes}
    (sound : (decoder.fresh.drive piece).fault = none)
    (all : (decoder.fresh.drive piece).consumed = piece.size) :
    (decoder.fresh.drive piece).decoder.Settled := by
  have same := drive_append_of_all sound all #[]
  rw [Array.append_empty] at same
  have still := same.eq_of_sound sound
  rw [drive_eq_behind sound all] at still
  exact (Run.eq_of_behind_eq still).symm

theorem feed_cons_of_fault {decoder : Decoder} {piece : Bytes} {error : Error}
    (fault : (decoder.fresh.drive piece).fault = some error) (rest : List Bytes) :
    (decoder.feed (piece :: rest)).1 = .error error := by
  rw [feed, decode_of_fault fault]

theorem feed_cons_of_some {decoder : Decoder} {piece : Bytes}
    (sound : (decoder.fresh.drive piece).fault = none)
    (some : (decoder.fresh.drive piece).consumed < piece.size) (rest : List Bytes) :
    decoder.feed (piece :: rest) = decoder.decode piece := by
  rw [feed, decode_of_sound sound]
  dsimp only
  rw [if_pos some]

theorem feed_cons_of_all {decoder : Decoder} {piece : Bytes}
    (sound : (decoder.fresh.drive piece).fault = none)
    (all : (decoder.fresh.drive piece).consumed = piece.size) (rest : List Bytes) :
    decoder.feed (piece :: rest) =
      ((decoder.fresh.drive piece).decoder.feed rest).map
        (Except.map fun further =>
          ((decoder.fresh.drive piece).output ++ further.1, piece.size + further.2)) id := by
  rw [feed, decode_of_sound sound]
  dsimp only
  rw [if_neg (Nat.not_lt_of_le (Nat.le_of_eq all.symm)), all]
  rcases (decoder.fresh.drive piece).decoder.feed rest with ⟨_ | _, last⟩ <;> rfl

/-- A decoder that is fed pieces comes to what it comes to when it is given all of them at once. -/
theorem feed_of_settled {decoder : Decoder} (settled : decoder.Settled) (pieces : List Bytes) :
    (∀ error, (decoder.fresh.drive (concat pieces)).fault = some error →
      (decoder.feed pieces).1 = .error error) ∧
    ((decoder.fresh.drive (concat pieces)).fault = none →
      decoder.feed pieces = decoder.decode (concat pieces)) := by
  induction pieces generalizing decoder with
  | nil =>
    have still : decoder.fresh.drive (concat []) = decoder.fresh := settled
    refine ⟨?_, ?_⟩
    · intro error fault
      rw [still] at fault
      cases fault
    · intro sound
      rw [decode_of_sound sound, still]
      rfl
  | cons piece rest ih =>
    rw [concat_cons]
    cases stopped : (decoder.fresh.drive piece).fault with
    | some error =>
      have same := decoder.fresh.same_drive_append piece (concat rest) (Nat.zero_le _)
      rw [Run.drive_of_fault stopped] at same
      have fault := same.fault.trans stopped
      refine ⟨?_, ?_⟩
      · intro other otherFault
        rw [fault] at otherFault
        cases otherFault
        exact feed_cons_of_fault stopped rest
      · intro sound
        rw [fault] at sound
        cases sound
    | none =>
      rcases Run.drive_consumes (Nat.zero_le _) stopped with all | ⟨some, ended, stops⟩
      · obtain ⟨refused, taken⟩ := ih (settled_of_drive stopped all)
        have same := drive_append_of_all stopped all (concat rest)
        rw [feed_cons_of_all stopped all]
        refine ⟨?_, ?_⟩
        · intro error fault
          rw [Prod.map_fst, refused error (same.fault.symm.trans fault)]
          rfl
        · intro sound
          have soundRest := same.fault.symm.trans sound
          rw [taken soundRest, decode_of_sound soundRest, decode_of_sound sound,
            same.eq_of_sound sound]
          rfl
      · have same := drive_append_of_stop stopped ended stops (concat rest)
        have sound := same.fault.trans stopped
        refine ⟨?_, ?_⟩
        · intro error fault
          rw [sound] at fault
          cases fault
        · intro _
          rw [feed_cons_of_some stopped some, decode_of_sound stopped, decode_of_sound sound,
            same.eq_of_sound sound]

/-- It does not matter how the input of a decoder that starts a frame is cut. Pieces are refused if
they are refused when put together, for the same reason and at the same offset. Otherwise all of
them are taken in, they give the same content and leave the decoder in the same state, and nothing
is left over unless the frame ended and the decoder was told to stop there. -/
theorem feed_reset (decoder : Decoder) (pieces : List Bytes) :
    (∀ error after, decoder.reset.decode (concat pieces) = (.error error, after) →
      (decoder.reset.feed pieces).1 = .error error) ∧
    (∀ content consumed after,
      decoder.reset.decode (concat pieces) = (.ok (content, consumed), after) →
        decoder.reset.feed pieces = (.ok (content, consumed), after) ∧
          (consumed = (concat pieces).size ∨
            consumed < (concat pieces).size ∧ after.isComplete = true ∧
              decoder.options.stopAtFrameEnd = true)) := by
  obtain ⟨refused, taken⟩ := feed_of_settled decoder.settled_reset pieces
  cases stopped : (decoder.reset.fresh.drive (concat pieces)).fault with
  | some error =>
    rw [decode_of_fault stopped]
    refine ⟨?_, ?_⟩
    · rintro other after same
      cases same
      exact refused error stopped
    · rintro content consumed after same
      cases same
  | none =>
    have fed := taken stopped
    rw [fed, decode_of_sound stopped]
    refine ⟨?_, ?_⟩
    · rintro error after same
      cases same
    · rintro content consumed after same
      cases same
      refine ⟨rfl, ?_⟩
      rcases Run.drive_consumes (Nat.zero_le _) stopped with all | ⟨some, ended, stops⟩
      · exact Or.inl all
      · refine Or.inr ⟨some, ?_, ?_⟩
        · rw [isComplete, ended]
          rfl
        · rw [Run.options_drive] at stops
          exact stops

theorem feed_reset_cut_header :
    (new.reset.feed [#[1], #[2, 3, 4, 5]]).1 =
        .error (.corruptInput 0 (.wrongMagic 0x04030201)) ∧
      (new.reset.feed [#[0x50, 0x2A], #[0x4D, 0x18, 2, 0, 0], #[0, 9], #[9]]).1 =
        .ok (#[], 10) := by
  refine ⟨?_, ?_⟩
  · exact (feed_reset new [#[1], #[2, 3, 4, 5]]).1 _
      { new with pending := #[1, 2, 3, 4], position := 4 } (by cbv)
  · have decoded : new.reset.decode
        (concat [#[0x50, 0x2A], #[0x4D, 0x18, 2, 0, 0], #[0, 9], #[9]]) =
          (.ok (#[], 10),
            { new with
              stage := .complete
              header := some { kind := .skippable 0, contentSize := some 2 }
              position := 10 }) := by
      cbv
    rw [((feed_reset new _).2 #[] 10 _ decoded).1]

end Decoder

end Lz4.Frame
