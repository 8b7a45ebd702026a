import Lz4.Frame.Run

/-!
# Decoding frames

A decoder is fed its frame in pieces of any size and gives out the content as it becomes known.
`decode` and `decodeAll` decode data that are all there, one frame or any number of them.
-/

namespace Lz4.Frame

namespace Decoder

/-- Decodes as much of `data` as possible. The result is the content that became known and the
number of bytes taken in, which is all of them unless the frame ends before. A decoder that
refuses its input keeps the state in which it stopped. -/
def decode (decoder : Decoder) (data : Bytes) : Except Error (Bytes × Nat) × Decoder :=
  match (Run.mk decoder #[] 0 none).drive data with
  | ⟨decoder, _, _, some error⟩ => (.error error, decoder)
  | ⟨decoder, output, consumed, none⟩ => (.ok (output, consumed), decoder)

/-- A frame that was decoded to its end has taken in something. -/
theorem consumed_pos {decoder : Decoder} {data content : Bytes} {consumed : Nat} {after : Decoder}
    (decoded : decoder.reset.decode data = (.ok (content, consumed), after))
    (complete : after.isComplete = true) : 0 < consumed := by
  have placed : decoder.reset.Placed := ⟨Nat.zero_le _, fun past => absurd rfl past⟩
  have still := @Run.placed_drive ⟨decoder.reset, #[], 0, none⟩ placed data
  have moved := Run.position_drive ⟨decoder.reset, #[], 0, none⟩ data
  unfold decode at decoded
  split at decoded
  · simp at decoded
  · rename_i decoder output taken stopped
    simp only [Prod.mk.injEq, Except.ok.injEq] at decoded
    obtain ⟨⟨-, rfl⟩, rfl⟩ := decoded
    rw [stopped] at still moved
    have atEnd : decoder.stage = .complete := by simpa [isComplete] using complete
    have positive := still.position_pos (by simp [atEnd])
    simp only [reset, Nat.add_zero, Nat.zero_add] at moved
    exact moved ▸ positive

/-- Reads the header at the start of `data`. The result is the header and its size; the caller
goes on with the bytes behind it. A header that is known already is given out again. -/
def readHeader (decoder : Decoder) (data : Bytes) : Except Error (Header × Nat) × Decoder :=
  match decoder.header with
  | some header => (.ok (header, 0), decoder)
  | none =>
    if decoder.pending.size ≠ 0 then (.error (.usage .headerPartlyFed), decoder)
    else
      match Header.parse data with
      | .error error => (.error error, decoder)
      | .ok (header, size) => (.ok (header, size), { decoder with position := size }.start header)

end Decoder

/-- Decodes data that hold exactly one frame. -/
def decode (data : Bytes) : Except Error Bytes :=
  match Decoder.new.decode data with
  | (.error error, _) => .error error
  | (.ok (output, _), decoder) =>
    if decoder.isComplete then .ok output else .error (.corruptInput data.size .truncated)

/-- Decodes the frames from an offset on, behind the output of those before it. The decoder is reset
for each of them. -/
def decodeAllFrom (decoder : Decoder) (data : Bytes) (offset : Nat) (output : Bytes) :
    Except Error Bytes :=
  if offset < data.size then
    match _decoded : decoder.reset.decode (data.dropFirst offset) with
    | (.error error, _) => .error (error.shifted offset)
    | (.ok (content, consumed), decoder) =>
      if _complete : decoder.isComplete then
        decodeAllFrom decoder data (offset + consumed) (output ++ content)
      else .error (.corruptInput data.size .truncated)
  else .ok output
termination_by data.size - offset
decreasing_by
  have positive := Decoder.consumed_pos _decoded _complete
  omega

/-- Decodes data that hold any number of frames, one after the other. -/
def decodeAll (data : Bytes) : Except Error Bytes :=
  decodeAllFrom (Decoder.new.stopAtFrameEnd true) data 0 #[]

end Lz4.Frame
