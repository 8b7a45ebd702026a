import Lz4.Proofs.Frame.Calls

/-!
# A dictionary that is set within a frame

The window of linked blocks begins with the dictionary that was set when the frame began. So another
dictionary that is set within the frame is not looked at before the next frame, whatever the decoder
is given and asked in between. Independent blocks are decoded behind the dictionary that is set at
the time. For them nothing changes as long as the dictionary stays the same
(`Lz4.Frame.Decoder.calls_setDictionary`).
-/

namespace Lz4.Frame.Decoder

variable {decoder : Decoder} {window : Bytes}

/-- A decoder past the header that does not look at a dictionary in its frame, or has the same. -/
structure Ignores (decoder : Decoder) (window : Bytes) : Prop where
  consistent : decoder.Consistent
  past : decoder.stage ≠ .header
  same : decoder.announces (·.independentBlocks) = true → window = decoder.options.dictionary

theorem ignores_own (consistent : decoder.Consistent) (past : decoder.stage ≠ .header)
    (window : Bytes) :
    (decoder.withDictionary window).Ignores window :=
  ⟨consistent.withOptions _, past, fun _ => rfl⟩

theorem drive_withDictionary (ignores : decoder.Ignores window) (data : Bytes) :
    (decoder.withDictionary window).fresh.drive data =
      (decoder.fresh.drive data).withOptions { decoder.options with dictionary := window } :=
  @Run.drive_withOptions decoder.fresh { decoder.options with dictionary := window } ignores.past
    ignores.same rfl data

theorem decode_withDictionary (ignores : decoder.Ignores window) (data : Bytes) :
    (decoder.withDictionary window).decode data =
      ((decoder.decode data).1, (decoder.decode data).2.withDictionary window) := by
  have driven := drive_withDictionary ignores data
  have options := decoder.fresh.options_drive data
  cases stopped : (decoder.fresh.drive data).fault with
  | some error =>
    rw [decode_of_fault stopped, decode_of_fault (by rw [driven]; exact stopped), driven,
      withDictionary, options]
  | none =>
    rw [decode_of_sound stopped, decode_of_sound (by rw [driven]; exact stopped), driven,
      withDictionary, options]

theorem ignores_decode (ignores : decoder.Ignores window) (data : Bytes) :
    (decoder.decode data).2.Ignores window := by
  have onward := @Run.onward_drive decoder.fresh ignores.past data
  have consistent := @Run.consistent_drive decoder.fresh ignores.consistent data
  rw [decode_snd]
  refine ⟨consistent, onward.past, ?_⟩
  rw [announces, onward.header, Run.options_drive]
  exact ignores.same

theorem readHeader_of_known {header : Header} (known : decoder.header = some header)
    (data : Bytes) : decoder.readHeader data = (.ok (header, 0), decoder) := by
  unfold readHeader
  rw [known]

/-- One call within the frame returns the same, and the dictionary stays out of sight unless it is
replaced. -/
theorem call_withDictionary (ignores : decoder.Ignores window) {call : Call}
    (within : call ≠ .reset) :
    ∃ next, (decoder.withDictionary window).call call =
        ((decoder.call call).1, (decoder.call call).2.withDictionary next) ∧
      (decoder.call call).2.Ignores next ∧
      ((∀ other, call ≠ .setDictionary other) → next = window) := by
  obtain ⟨consistent, past, same⟩ := ignores
  cases call with
  | decode data =>
    refine ⟨window, ?_, ignores_decode ⟨consistent, past, same⟩ data, fun _ => rfl⟩
    rw [Decoder.call, Decoder.call, decode_withDictionary ⟨consistent, past, same⟩]
  | readHeader data =>
    obtain ⟨header, known⟩ := Option.ne_none_iff_exists'.mp (mt consistent.known.mpr past)
    have read := readHeader_of_known known data
    refine ⟨window, ?_, ?_, fun _ => rfl⟩
    · rw [Decoder.call, Decoder.call, read,
        @readHeader_of_known (decoder.withDictionary window) header known]
    · rw [Decoder.call, read]
      exact ⟨consistent, past, same⟩
  | reset => exact absurd rfl within
  | setDictionary other =>
    obtain ⟨next, set⟩ := call_setDictionary other
    rw [set, set]
    exact ⟨next, rfl, ignores_own consistent past next, fun kept => absurd rfl (kept other)⟩
  | verifyContent | stopAtFrameEnd =>
    exact ⟨window, rfl, ⟨consistent.withOptions _, past, same⟩, fun _ => rfl⟩

theorem calls_withDictionary (ignores : decoder.Ignores window) {made : List Call}
    (within : .reset ∉ made) :
    ∃ next, (decoder.withDictionary window).calls made =
        ((decoder.calls made).1, (decoder.calls made).2.withDictionary next) ∧
      ((∀ other, .setDictionary other ∉ made) → next = window) := by
  induction made generalizing decoder window with
  | nil => exact ⟨window, rfl, fun _ => rfl⟩
  | cons call rest ih =>
    obtain ⟨first, restWithin⟩ := not_or.mp (mt List.mem_cons.mpr within)
    obtain ⟨middle, called, stays, kept⟩ := call_withDictionary ignores (Ne.symm first)
    obtain ⟨last, madeRest, keptRest⟩ := ih stays restWithin
    refine ⟨last, ?_, ?_⟩
    · rw [calls_cons, calls_cons, called, madeRest]
      rfl
    · intro unset
      rw [keptRest fun other set => unset other (List.mem_cons_of_mem _ set)]
      exact kept fun other set => unset other (set ▸ List.mem_cons_self)

/-- A dictionary that is set within a frame, at any point behind its header, is not looked at in
this frame: whatever the decoder is given and asked after that, its answers are the ones that it
would give without. The next frame is decoded with it, unless it is replaced before that. This
holds of a frame of linked blocks, and of one of independent blocks if the dictionary is the one
that is set already. -/
theorem calls_setDictionary {before later : List Call} {header : Header} (dictionary : Bytes)
    (known : (new.calls before).2.header = some header)
    (same : header.independentBlocks = true →
      Block.dictionaryWindow dictionary = (new.calls before).2.options.dictionary)
    (within : .reset ∉ later) :
    (((new.calls before).2.setDictionary dictionary).calls later).1 =
        ((new.calls before).2.calls later).1 ∧
      ((∀ other, .setDictionary other ∉ later) →
        (((new.calls before).2.setDictionary dictionary).calls later).2.reset =
          ((new.calls before).2.calls later).2.reset.setDictionary dictionary) := by
  have consistent := consistent_calls (consistent_ofOptions {}) before
  change (new.calls before).2.Consistent at consistent
  generalize (new.calls before).2 = decoder at *
  have ignores : decoder.Ignores (Block.dictionaryWindow dictionary) := by
    refine ⟨consistent, ?_, ?_⟩
    · intro atHeader
      cases known.symm.trans (consistent.known.mp atHeader)
    · rw [announces, known]
      exact same
  obtain ⟨last, made, kept⟩ := calls_withDictionary ignores within
  rw [setDictionary_eq, made]
  refine ⟨rfl, ?_⟩
  intro unset
  rw [kept unset, setDictionary_eq]
  rfl

theorem calls_setDictionary_linked :
    (((new.calls [.setDictionary #[1, 2, 3, 4],
        .decode #[0x04, 0x22, 0x4D, 0x18, 0x40, 0x40, 0xC0]]).2.setDictionary #[5, 6, 7, 8]).calls
          [.decode #[4, 0, 0, 0, 0, 4, 0, 0, 0, 0, 0, 0]]).1 =
      [⟨.decoded (.ok (#[1, 2, 3, 4], 12)), true, 0, some { blockSize := .max64KB }⟩] := by
  have begun : new.calls [.setDictionary #[1, 2, 3, 4],
      .decode #[0x04, 0x22, 0x4D, 0x18, 0x40, 0x40, 0xC0]] =
        ([⟨.nothing, false, 4, none⟩,
          ⟨.decoded (.ok (#[], 7)), false, 4, some { blockSize := .max64KB }⟩],
          { new with
            options := { dictionary := #[1, 2, 3, 4] }
            stage := .blockLength
            header := some { blockSize := .max64KB }
            position := 7
            window := #[1, 2, 3, 4] }) := by
    cbv
  have known := congrArg (·.2.header) begun
  rw [(@calls_setDictionary _ _ { blockSize := .max64KB } #[5, 6, 7, 8] known (by simp)
    (by decide)).1, begun]
  dsimp only
  cbv

/-- Independent blocks are decoded behind the dictionary that was set last, even within their
frame: here a match in the dictionary gives the bytes of the new one. -/
theorem calls_setDictionary_independent :
    (((new.calls [.setDictionary #[1, 2, 3, 4],
        .decode #[0x04, 0x22, 0x4D, 0x18, 0x60, 0x40, 0x82]]).2.setDictionary #[5, 6, 7, 8]).calls
          [.decode #[4, 0, 0, 0, 0, 4, 0, 0, 0, 0, 0, 0]]).1 ≠
      ((new.calls [.setDictionary #[1, 2, 3, 4],
        .decode #[0x04, 0x22, 0x4D, 0x18, 0x60, 0x40, 0x82]]).2.calls
          [.decode #[4, 0, 0, 0, 0, 4, 0, 0, 0, 0, 0, 0]]).1 := by
  have begun : new.calls [.setDictionary #[1, 2, 3, 4],
      .decode #[0x04, 0x22, 0x4D, 0x18, 0x60, 0x40, 0x82]] =
        ([⟨.nothing, false, 4, none⟩,
          ⟨.decoded (.ok (#[], 7)), false, 4,
            some { blockSize := .max64KB, independentBlocks := true }⟩],
          { new with
            options := { dictionary := #[1, 2, 3, 4] }
            stage := .blockLength
            header := some { blockSize := .max64KB, independentBlocks := true }
            position := 7 }) := by
    cbv
  rw [begun]
  dsimp only
  cbv
  simp

end Lz4.Frame.Decoder
