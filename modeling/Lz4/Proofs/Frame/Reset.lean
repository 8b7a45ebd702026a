import Lz4.Proofs.Frame.Buffer
import Lz4.Proofs.Frame.Calls

/-!
# Decoders that are reset

A decoder that is reset is a new one with its options, but for the bytes that are left in its
buffer, and these make no difference to any call (`Lz4.Frame.Decoder.calls_withBuffer`). The options
are what the calls that set them made of those of a new decoder; no other call changes them
(`Lz4.Frame.Decoder.calls_filter_sets`). So whatever a decoder was given and asked before, and
whatever it refused, after a reset it answers like a new one for which only the options were set
(`Lz4.Frame.Decoder.calls_reset`).
-/

namespace Lz4.Frame.Decoder

theorem decode_withBuffer (decoder : Decoder) (buffer data : Bytes) :
    ∃ left, (decoder.withBuffer buffer).decode data =
      ((decoder.decode data).1, (decoder.decode data).2.withBuffer left) := by
  obtain ⟨left, driven⟩ := decoder.fresh.drive_withBuffer buffer data
  refine ⟨left, ?_⟩
  cases stopped : (decoder.fresh.drive data).fault with
  | some error =>
    rw [decode_of_fault stopped, decode_of_fault (by rw [driven]; exact stopped), driven]
  | none =>
    rw [decode_of_sound stopped, decode_of_sound (by rw [driven]; exact stopped), driven]

theorem readHeader_withBuffer (decoder : Decoder) (buffer data : Bytes) :
    (decoder.withBuffer buffer).readHeader data =
      ((decoder.readHeader data).1, (decoder.readHeader data).2.withBuffer buffer) := by
  unfold readHeader
  dsimp only
  split
  · rfl
  · split
    · rfl
    · split
      · rfl
      · rename_i header size _
        exact Prod.ext rfl ({ decoder with position := size }.start_withBuffer buffer header)

/-- A call returns the same whatever is in the buffer. -/
theorem call_withBuffer (decoder : Decoder) (buffer : Bytes) (call : Call) :
    ∃ left, (decoder.withBuffer buffer).call call =
      ((decoder.call call).1, (decoder.call call).2.withBuffer left) := by
  cases call with
  | decode data =>
    obtain ⟨left, same⟩ := decoder.decode_withBuffer buffer data
    refine ⟨left, ?_⟩
    rw [Decoder.call, Decoder.call, same]
  | readHeader data =>
    refine ⟨buffer, ?_⟩
    rw [Decoder.call, Decoder.call, readHeader_withBuffer]
  | reset | setDictionary | verifyContent | stopAtFrameEnd => exact ⟨buffer, rfl⟩

/-- No answer depends on what is in the buffer. -/
theorem calls_withBuffer (decoder : Decoder) (buffer : Bytes) (made : List Call) :
    ((decoder.withBuffer buffer).calls made).1 = (decoder.calls made).1 := by
  induction made generalizing decoder buffer with
  | nil => rfl
  | cons call rest ih =>
    obtain ⟨left, same⟩ := decoder.call_withBuffer buffer call
    rw [calls_cons, calls_cons, same]
    exact congrArg (_ :: ·) (ih (decoder.call call).2 left)

/-- Whether a call sets an option. -/
def Call.sets : Call → Bool
  | .setDictionary _ => true
  | .verifyContent _ => true
  | .stopAtFrameEnd _ => true
  | _ => false

theorem options_call_of_not_sets (decoder : Decoder) {call : Call} (other : call.sets = false) :
    (decoder.call call).2.options = decoder.options := by
  cases call with
  | decode data =>
    change (decoder.decode data).2.options = decoder.options
    rw [decode_snd]
    exact decoder.fresh.options_drive data
  | readHeader data =>
    change (decoder.readHeader data).2.options = decoder.options
    unfold readHeader
    split
    · rfl
    · split
      · rfl
      · split
        · rfl
        · unfold start
          split <;> rfl
  | reset => rfl
  | setDictionary | verifyContent | stopAtFrameEnd => cases other

theorem call_ofOptions (decoder : Decoder) {call : Call} (sets : call.sets = true) :
    ((ofOptions decoder.options).call call).2 = ofOptions (decoder.call call).2.options := by
  cases call with
  | decode | readHeader | reset => cases sets
  | setDictionary | verifyContent | stopAtFrameEnd => rfl

/-- The options come from the calls that set them, and nothing else does. -/
theorem calls_filter_sets (decoder : Decoder) (made : List Call) :
    ((ofOptions decoder.options).calls (made.filter Call.sets)).2 =
      ofOptions (decoder.calls made).2.options := by
  induction made generalizing decoder with
  | nil => rfl
  | cons call rest ih =>
    rw [calls_cons]
    cases sets : call.sets with
    | true =>
      rw [List.filter_cons_of_pos sets, calls_cons, call_ofOptions decoder sets]
      exact ih (decoder.call call).2
    | false =>
      rw [List.filter_cons_of_neg (by simp [sets]), ← options_call_of_not_sets decoder sets]
      exact ih (decoder.call call).2

/-- However a decoder was called, once it is reset it cannot be told from a new decoder for which
the same options were set: it has these options, shows the same, and gives the same answers to whatever
it is asked from then on. -/
theorem calls_reset (before later : List Call) :
    let used := (new.calls before).2.reset
    let fresh := (new.calls (before.filter Call.sets)).2
    fresh.options = (new.calls before).2.options ∧
      (∀ result, answer result used = answer result fresh) ∧
      (used.calls later).1 = (fresh.calls later).1 := by
  intro used fresh
  have set : fresh = ofOptions (new.calls before).2.options := calls_filter_sets new before
  have same : used = fresh.withBuffer (new.calls before).2.buffer := by
    rw [set]
    rfl
  refine ⟨by rw [set]; rfl, fun result => by rw [same]; rfl, ?_⟩
  rw [same]
  exact fresh.calls_withBuffer _ later

end Lz4.Frame.Decoder
