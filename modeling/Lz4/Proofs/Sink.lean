import Lz4.Sink
import Lz4.Proofs.Bytes.Content

/-!
# What sinks take

Pieces are taken one after the other (`Lz4.Sink.writePieces_append`). A sink with a limit takes all
of them exactly when there is room for what they make up (`Lz4.Sink.writePieces_ofRoom`), and
otherwise those in front of the first that does not fit (`Lz4.Sink.writePieces_cut`). A piece that a
sink `Lz4.Sink.Takes` is appended.
-/

namespace Lz4.Sink

open Bytes

theorem writePieces_append (sink : Sink) (front back : List Bytes) :
    sink.writePieces (front ++ back) =
      if (sink.writePieces front).2 then (sink.writePieces front).1.writePieces back
      else ((sink.writePieces front).1, false) := by
  induction front generalizing sink with
  | nil => rfl
  | cons piece rest ih =>
    rw [List.cons_append, writePieces, writePieces]
    by_cases fits : sink.fits piece
    · simp only [fits, ↓reduceIte]
      exact ih (sink.append piece)
    · simp only [fits, Bool.false_eq_true, ↓reduceIte]

theorem writePieces_ofRoom {room : Nat} {pieces : List Bytes} (written : Bytes)
    (enough : (concat pieces).size ≤ room) :
    writePieces ⟨written, some room⟩ pieces =
      (⟨written ++ concat pieces, some (room - (concat pieces).size)⟩, true) := by
  induction pieces generalizing room written with
  | nil => simp [writePieces]
  | cons piece rest ih =>
    rw [concat_cons, Array.size_append] at enough
    have fits : fits ⟨written, some room⟩ piece = true := decide_eq_true (by omega)
    rw [writePieces, if_pos fits]
    simp only [append, Option.map_some]
    rw [ih (written ++ piece) (by omega), concat_cons, Array.append_assoc, Array.size_append,
      Nat.sub_sub]

/-- A sink with a limit that lacks room takes the pieces in front of the first that does not fit. -/
theorem writePieces_cut {room : Nat} {pieces : List Bytes} (written : Bytes)
    (lacking : room < (concat pieces).size) :
    ∃ taken next others, pieces = taken ++ next :: others ∧ (concat taken).size ≤ room ∧
      room < (concat taken).size + next.size ∧
      writePieces ⟨written, some room⟩ pieces =
        (⟨written ++ concat taken, some (room - (concat taken).size)⟩, false) := by
  induction pieces generalizing room written with
  | nil => exact absurd lacking (Nat.not_lt_zero room)
  | cons piece rest ih =>
    rw [concat_cons, Array.size_append] at lacking
    rw [writePieces]
    by_cases fits : piece.size ≤ room
    · have accepted : Sink.fits ⟨written, some room⟩ piece = true := decide_eq_true fits
      obtain ⟨taken, next, others, rfl, within, beyond, left⟩ :=
        @ih (room - piece.size) (written ++ piece) (by omega)
      refine ⟨piece :: taken, next, others, rfl, ?_, ?_, ?_⟩
      · rw [concat_cons, Array.size_append]
        omega
      · rw [concat_cons, Array.size_append]
        omega
      · rw [if_pos accepted]
        simp only [append, Option.map_some]
        rw [left, concat_cons, Array.append_assoc, Array.size_append, Nat.sub_sub]
    · have refused : ¬ Sink.fits ⟨written, some room⟩ piece = true := by
        simpa [Sink.fits] using fits
      refine ⟨[], piece, rest, rfl, Nat.zero_le room, ?_, ?_⟩
      · simpa using fits
      · rw [if_neg refused, concat_nil, Array.append_empty]
        rfl

/-- The sink takes so many bytes more. -/
def Takes (sink : Sink) (count : Nat) : Prop := ∀ room, sink.room = some room → count ≤ room

theorem takes_growing (count : Nat) : growing.Takes count := fun _ limited => nomatch limited

@[simp] theorem append_empty (sink : Sink) : sink.append #[] = sink := by
  obtain ⟨written, room⟩ := sink
  cases room <;> simp [append]

theorem append_append (sink : Sink) (first second : Bytes) :
    (sink.append first).append second = sink.append (first ++ second) := by
  obtain ⟨written, room⟩ := sink
  cases room <;> simp [append, Nat.sub_sub]

variable {sink : Sink} {count less : Nat} {piece : Bytes}

theorem Takes.of_le (takes : sink.Takes count) (fewer : less ≤ count) : sink.Takes less :=
  fun room limited => Nat.le_trans fewer (takes room limited)

theorem Takes.write_eq (takes : sink.Takes piece.size) :
    sink.write piece = (sink.append piece, true) := by
  have fits : sink.fits piece = true := by
    unfold fits
    split
    · rfl
    · exact decide_eq_true (takes _ ‹_›)
  rw [write, if_pos fits]

/-- What is left of a sink behind a piece takes the rest. -/
theorem Takes.append (takes : sink.Takes (piece.size + count)) :
    (sink.append piece).Takes count := by
  obtain ⟨written, room⟩ := sink
  intro left limited
  obtain ⟨before, known, rfl⟩ := Option.map_eq_some_iff.mp limited
  exact Nat.le_sub_of_add_le' (takes before known)

end Lz4.Sink
