import Lz4.Frame.Transfer
import Lz4.Proofs.Sink
import Lz4.Proofs.Source
import Lz4.Proofs.Frame.Layout

/-!
# Encoding from a source is encoding what it holds

A transfer reads its source a block at a time, so what it hands to its session are the slices of
what the source holds, however the source divides that into reads. Behind a full block nothing is
pending, and the record of the block has been written
(`Lz4.Frame.Session.records_append_of_full`). So if the source ends, the sink has taken the frame of
what the source held (`Lz4.Frame.transfer_of_ends`), and if it fails, the header and the records of
the full blocks that it had handed out (`Lz4.Frame.transfer_of_fails`). A source that is moved to its
end and back, so that its size can be announced, holds what it held before
(`Lz4.Frame.transferSized_of_steady`). Together this is `Lz4.Frame.transfer_encode`.
-/

namespace Lz4.Frame

open Bytes

theorem writeTo_of_takes {sink : Sink} {bytes : Bytes} (takes : sink.Takes bytes.size) :
    writeTo sink bytes = (sink.append bytes, none) := by
  rw [writeTo, takes.write_eq]

section Blocks

variable {σ : Type} [Source σ] {source rest : σ} {session : Session} {sink : Sink} {block : Bytes}

theorem transferBlocks_of_error {error : StreamError}
    (read : Source.readAll source session.header.blockSize.bytes #[] =
      ((block, some error), rest)) :
    transferBlocks source session sink = (sink, some error) := by
  rw [transferBlocks]
  split
  · rename_i failed
    cases read.symm.trans failed
    rfl
  · rename_i handed
    cases read.symm.trans handed

theorem transferBlocks_of_block
    (read : Source.readAll source session.header.blockSize.bytes #[] = ((block, none), rest))
    (some : 0 < block.size) (takes : sink.Takes (session.update block).1.size) :
    transferBlocks source session sink =
      transferBlocks rest (session.update block).2 (sink.append (session.update block).1) := by
  have nonempty : ¬ block.isEmpty = true := by
    rw [Array.isEmpty_iff_size_eq_zero]
    omega
  rw [transferBlocks]
  split
  · rename_i failed
    cases read.symm.trans failed
  · rename_i handed
    cases read.symm.trans handed
    rw [dif_neg nonempty]
    dsimp only
    rw [writeTo_of_takes takes]

theorem transferBlocks_of_end
    (read : Source.readAll source session.header.blockSize.bytes #[] = ((#[], none), rest))
    (fine : session.endProblem? = none) (takes : sink.Takes session.close.size) :
    transferBlocks source session sink = (sink.append session.close, none) := by
  rw [transferBlocks]
  split
  · rename_i failed
    cases read.symm.trans failed
  · rename_i handed
    cases read.symm.trans handed
    rw [fine]
    exact writeTo_of_takes takes

variable {count : Nat} {error : StreamError} {settings : Settings} {input written : Bytes}

/-- If the source fails, the sink has taken the records of the full blocks that it handed out
before. -/
theorem transferBlocks_of_fails (gives : Source.Gives source count (some error))
    (empty : session.pending = #[])
    (takes : sink.Takes (concat ((session.records (Source.contents source)).take
      (count / session.header.blockSize.bytes))).size) :
    transferBlocks source session sink =
      (sink.append (concat ((session.records (Source.contents source)).take
        (count / session.header.blockSize.bytes))), some error) := by
  -- A full block brings the failure nearer by a block, and leaves nothing pending.
  induction count using Nat.strongRecOn generalizing source session sink with
  | ind count ih =>
    by_cases enough : session.header.blockSize.bytes ≤ count
    · obtain ⟨block, rest, read, full, split, onward⟩ := gives.readAll_block enough
      have positive := session.header.blockSize.bytes_pos
      have kept := session.header_update block
      have emptyAfter := Session.pending_update_of_full empty full
      have blocks := Nat.div_eq_sub_div positive enough
      rw [split, Session.records_append_of_full empty full, blocks, List.take_succ_cons,
        concat_cons] at takes ⊢
      rw [Array.size_append] at takes
      have further := @ih _ (Nat.sub_lt_of_pos_le positive enough) rest
        (session.update block).2 (sink.append (session.update block).1) onward emptyAfter
        (kept ▸ takes.append)
      rw [transferBlocks_of_block read (full ▸ positive)
        (takes.of_le (Nat.le_add_right _ _)), further, kept, Sink.append_append]
    · obtain ⟨block, rest, read, -⟩ := gives.readAll_rest (Nat.lt_of_not_le enough)
      rw [transferBlocks_of_error read, Nat.div_eq_of_lt (Nat.lt_of_not_le enough), List.take_zero,
        concat_nil, Sink.append_empty]

/-- When the source has ended, what is pending and the end of the frame are written. -/
theorem transferBlocks_of_done (gives : Source.Gives source 0 none)
    (wrote : session.Wrote settings input written) (announced : Announced settings.header input)
    (takes : sink.Takes session.close.size) :
    transferBlocks source session sink = (sink.append session.close, none) := by
  obtain ⟨block, rest, read, nothing, -⟩ := gives.readAll_rest session.header.blockSize.bytes_pos
  rw [Array.size_eq_zero_iff.mp nothing] at read
  exact transferBlocks_of_end read (wrote.endProblem_none announced) takes

/-- If the source ends, the sink has taken the records of all that it held, and the end of the
frame. -/
theorem transferBlocks_of_ends (gives : Source.Gives source count none)
    (wrote : session.Wrote settings input written) (empty : session.pending = #[])
    (announced : Announced settings.header (input ++ Source.contents source))
    (takes : sink.Takes (concat (session.records (Source.contents source)) ++
      ending settings.header (input ++ Source.contents source)).size) :
    transferBlocks source session sink =
      (sink.append (concat (session.records (Source.contents source)) ++
        ending settings.header (input ++ Source.contents source)), none) := by
  have positive := session.header.blockSize.bytes_pos
  induction count using Nat.strongRecOn generalizing source session sink input written with
  | ind count ih =>
    by_cases enough : session.header.blockSize.bytes ≤ count
    · obtain ⟨block, rest, read, full, split, onward⟩ := gives.readAll_block enough
      have kept := session.header_update block
      have emptyAfter := Session.pending_update_of_full empty full
      rw [split, ← @Array.append_assoc _ input] at announced
      rw [split, Session.records_append_of_full empty full, concat_cons, Array.append_assoc,
        ← @Array.append_assoc _ input] at takes ⊢
      rw [Array.size_append] at takes
      have further := @ih _ (Nat.sub_lt_of_pos_le positive enough) rest
        (session.update block).2 (sink.append (session.update block).1) (input ++ block) _ onward
        (wrote.update block) emptyAfter announced takes.append (kept ▸ positive)
      rw [transferBlocks_of_block read (full ▸ positive)
        (takes.of_le (Nat.le_add_right _ _)), further, Sink.append_append]
    · obtain ⟨block, rest, read, size, split, ended⟩ :=
        gives.readAll_rest (Nat.lt_of_not_le enough)
      have nothing : Source.contents rest = #[] :=
        Array.size_eq_zero_iff.mp ((ended rfl).count_eq rfl).symm
      rw [nothing, Array.append_empty] at split
      -- If nothing is left, the session is not given an empty block but closed at once.
      rcases Nat.eq_zero_or_pos count with rfl | some
      · have none : Source.contents source = #[] := split.trans (Array.size_eq_zero_iff.mp size)
        have close := wrote.close_eq
        rw [Session.written_flush_of_empty empty, Array.empty_append] at close
        rw [none, Session.records_empty, concat_nil, Array.empty_append, Array.append_empty,
          ← close] at takes ⊢
        rw [none, Array.append_empty] at announced
        exact transferBlocks_of_done gives wrote announced takes
      · have cut := @Session.update_append_flush session block (by rw [empty]; exact positive)
        have wroteAfter := wrote.update block
        rw [empty, Array.empty_append] at cut
        rw [split, ← cut, Array.append_assoc, ← wroteAfter.close_eq] at takes ⊢
        rw [split] at announced
        rw [Array.size_append] at takes
        rw [transferBlocks_of_block read (size ▸ some) (takes.of_le (Nat.le_add_right _ _)),
          transferBlocks_of_done (ended rfl) wroteAfter announced takes.append,
          Sink.append_append]

/-- If the source ends, the sink takes the frame of what it held. -/
theorem transfer_of_ends {frame : Bytes} (gives : Source.Gives source count none)
    (encoded : encode (Source.contents source) settings = .ok frame)
    (takes : sink.Takes frame.size) :
    transfer source settings sink = (sink.append frame, none) := by
  obtain ⟨announced, parts⟩ := encode_eq_ok_iff.mp encoded
  have all : #[] ++ Source.contents source = Source.contents source := Array.empty_append
  rw [parts, Array.append_assoc, Array.size_append] at takes
  have behind := @transferBlocks_of_ends σ _ source (.start settings)
    (sink.append settings.header.encode) count settings #[] #[] gives (Session.wrote_start settings)
    rfl (by rwa [all]) (by rw [all]; exact takes.append)
  rw [transfer, writeTo_of_takes (takes.of_le (Nat.le_add_right _ _))]
  dsimp only
  rw [behind, all, Sink.append_append, parts, Array.append_assoc]
  rfl

/-- If the source fails, the sink takes the header and the records of the full blocks that were
handed out before. -/
theorem transfer_of_fails (gives : Source.Gives source count (some error))
    (takes : sink.Takes (settings.header.encode ++ concat ((settings.records
      (Source.contents source)).take (count / settings.blockSize.bytes))).size) :
    transfer source settings sink =
      (sink.append (settings.header.encode ++ concat ((settings.records
        (Source.contents source)).take (count / settings.blockSize.bytes))), some error) := by
  rw [Array.size_append] at takes
  have behind := @transferBlocks_of_fails σ _ source (.start settings)
    (sink.append settings.header.encode) count error gives rfl takes.append
  rw [transfer, writeTo_of_takes (takes.of_le (Nat.le_add_right _ _))]
  dsimp only
  rw [behind, Sink.append_append]
  rfl

end Blocks

/-- The size that is announced for a source is that of what it holds. -/
theorem transferSized_of_steady {σ : Type} [SeekableSource σ] {source : σ}
    (steady : SeekableSource.Steady source)
    (within : SeekableSource.position source ≤ (SeekableSource.whole source).size) :
    ∃ (size : UInt64) (after : σ), size.toNat = (Source.contents source).size ∧
      Source.contents after = Source.contents source ∧
      Source.Gives after (Source.contents after).size none ∧
      ∀ (settings : Settings) (sink : Sink), transferSized source settings sink =
        transfer after { settings with contentSize := some size } sink := by
  obtain ⟨start, stop, reached, here, back, after, toHere, toBack, toFront, first, last, held,
    gives⟩ := steady.seek_back within
  refine ⟨stop - start, after, ?_, held, gives, ?_⟩
  · rw [SeekableSource.contents_eq, size_dropFirst, UInt64.toNat_sub_of_le, first, last]
    rw [UInt64.le_iff_toNat_le]
    omega
  · intro settings sink
    rw [transferSized, toHere]
    dsimp only
    rw [toBack]
    dsimp only
    rw [toFront]

/-- A transfer writes the frame of what its source holds, however the source divides that into
reads, if no wrong size is announced. If the source fails, the header and the records of the full
blocks that it handed out are all that is written, and its error is passed on. If the size is to be
found, a source is encoded from where it stands, and the size of what stands behind is announced. -/
theorem transfer_encode :
    (∀ (σ : Type) [Source σ] (source : σ) (settings : Settings),
      Source.Gives source (Source.contents source).size none →
      (∀ size, settings.contentSize = some size →
        size = 0 ∨ size.toNat = (Source.contents source).size) →
      ∃ frame, encode (Source.contents source) settings = .ok frame ∧
        ∀ sink : Sink, sink.Takes frame.size →
          transfer source settings sink = (sink.append frame, none)) ∧
    (∀ (σ : Type) [Source σ] (source : σ) (settings : Settings) (count : Nat)
        (error : StreamError), Source.Gives source count (some error) →
      let records := settings.records (Source.contents source)
      let full := count / settings.blockSize.bytes
      let front := settings.header.encode ++ concat (records.take full)
      (∀ sink : Sink, sink.Takes front.size →
        transfer source settings sink = (sink.append front, some error)) ∧
      ∀ frame, encode (Source.contents source) settings = .ok frame →
        frame = front ++ concat (records.drop full) ++
          ending settings.header (Source.contents source)) ∧
    ∀ (σ : Type) [SeekableSource σ] (source : σ) (settings : Settings),
      SeekableSource.Steady source →
      SeekableSource.position source ≤ (SeekableSource.whole source).size →
      ∃ (size : UInt64) (frame : Bytes),
        size.toNat = (SeekableSource.whole source).size - SeekableSource.position source ∧
        encode ((SeekableSource.whole source).dropFirst (SeekableSource.position source))
          { settings with contentSize := some size } = .ok frame ∧
        ∀ sink : Sink, sink.Takes frame.size →
          transferSized source settings sink = (sink.append frame, none) := by
  refine ⟨?_, ?_, ?_⟩
  · intro σ _ source settings gives sizes
    have announced : Announced settings.header (Source.contents source) :=
      knownContentSize_of_announced sizes
    have encoded := encode_eq_ok_iff.mpr ⟨announced, rfl⟩
    exact ⟨_, encoded, fun sink takes => transfer_of_ends gives encoded takes⟩
  · intro σ _ source settings count error gives records full front
    refine ⟨fun sink takes => transfer_of_fails gives takes, ?_⟩
    intro frame encoded
    obtain ⟨-, parts⟩ := encode_eq_ok_iff.mp encoded
    have divided : concat (records.take full) ++ concat (records.drop full) = concat records := by
      rw [← concat_append, List.take_append_drop]
    rw [parts, ← divided, ← Array.append_assoc]
  · intro σ _ source settings steady within
    obtain ⟨size, after, sized, held, gives, transferred⟩ := transferSized_of_steady steady within
    have announced :
        Announced { settings with contentSize := some size }.header (Source.contents source) := by
      refine knownContentSize_of_announced ?_
      intro other same
      cases same
      exact .inr sized
    have encoded := encode_eq_ok_iff.mpr ⟨announced, rfl⟩
    rw [SeekableSource.contents_eq, size_dropFirst] at sized
    rw [← SeekableSource.contents_eq]
    refine ⟨size, _, sized, encoded, ?_⟩
    intro sink takes
    rw [transferred]
    exact transfer_of_ends gives (held ▸ encoded) takes

/-- A full block and two bytes, handed out five bytes at a time: all of them, or up to a failure
within the two bytes, or only those behind the block. -/
theorem transfer_encode_paced :
    let full : Bytes := Array.replicate (1 <<< 16) 1
    let settings : Settings := { autoFlush := true, contentSize := some 65538, level := 9 }
    let error : StreamError := ⟨.other, .text "source failed"⟩
    let slow : Paced := { data := full ++ #[2, 3], pace := some 5 }
    let failing : Paced := { slow with failure := some (65537, error) }
    let moved : Paced := { slow with position := 65536 }
    (∃ frame, encode (full ++ #[2, 3]) settings = .ok frame ∧
      transfer slow settings .growing = (Sink.growing.append frame, none)) ∧
    transfer failing settings .growing =
      (Sink.growing.append (settings.header.encode ++
        concat ((settings.records (full ++ #[2, 3])).take 1)), some error) ∧
    ∃ frame, encode #[2, 3] { settings with contentSize := some 2 } = .ok frame ∧
      transferSized moved settings .growing = (Sink.growing.append frame, none) := by
  intro full settings error slow failing moved
  have size : full.size = 65536 := Array.size_replicate
  have total : (full ++ #[2, 3]).size = 65538 := by
    rw [Array.size_append, size]
    rfl
  have paced : some 5 ≠ some 0 := by decide
  have held : Source.contents slow = full ++ #[2, 3] := dropFirst_zero _
  have small : slow.data.size < UInt64.size := Nat.lt_of_le_of_lt (Nat.le_of_eq total) (by decide)
  have steady : SeekableSource.Steady slow := Paced.steady paced rfl small
  have steadyMoved : SeekableSource.Steady moved := Paced.steady paced rfl small
  have fails : Source.Gives failing 65537 (some error) :=
    failing.gives paced (Nat.le_trans (by decide) (Nat.le_of_eq total.symm))
  obtain ⟨ends, stops, sized⟩ := transfer_encode
  refine ⟨?_, ?_, ?_⟩
  · obtain ⟨frame, encoded, writes⟩ := ends Paced slow settings (steady.gives slow .refl) (by
      intro size same
      cases same
      rw [held, total]
      exact .inr rfl)
    rw [held] at encoded
    exact ⟨frame, encoded, writes .growing (Sink.takes_growing _)⟩
  · have writes := (stops Paced failing settings 65537 error fails).1
    have heldFailing : Source.contents failing = full ++ #[2, 3] := dropFirst_zero _
    have one : 65537 / settings.blockSize.bytes = 1 := by decide
    rw [heldFailing, one] at writes
    exact writes .growing (Sink.takes_growing _)
  · obtain ⟨count, frame, counted, encoded, writes⟩ := sized Paced moved settings steadyMoved
      (Nat.le_trans (by decide) (Nat.le_of_eq total.symm))
    have behind : (full ++ #[2, 3]).dropFirst 65536 = #[2, 3] := size ▸ dropFirst_append full _
    have two : count = 2 := by
      have left : count.toNat = (full ++ #[2, 3]).size - 65536 := counted
      rw [total] at left
      exact UInt64.toNat_inj.mp (left.trans (by decide))
    subst two
    have encodedRest : encode ((full ++ #[2, 3]).dropFirst 65536)
        { settings with contentSize := some 2 } = .ok frame := encoded
    rw [behind] at encodedRest
    exact ⟨frame, encodedRest, writes .growing (Sink.takes_growing _)⟩

end Lz4.Frame
