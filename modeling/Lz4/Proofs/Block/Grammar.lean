import Lz4.Block.Decode
import Lz4.Proofs.Block.Script

/-!
# The language of blocks

A block spells a script (`Lz4.Block.Script.Spelled`): sequences, each with a token, its literals and
a match, and a last one that ends with its literals. What a block adds to a text is what its script
makes of it, carried out byte by byte, provided that every match reaches back to bytes that are
there (`Lz4.Block.Expands`). A byte string that spells no script may still begin with sequences that
can be carried out (`Lz4.Block.Begins`).

The decoder gives out what a block expands to where there is room for it, and accepts nothing else.
By the time it refuses, it has given out all that the block begins with as far as there was room for
it, and no more (`Lz4.Block.decodeOnto_expands_or_begins`).
-/

namespace Lz4

/-- Whether this is something that can be wrong with a block. -/
def Corruption.ofBlock : Corruption → Bool
  | .truncated | .zeroOffset | .offsetOutOfWindow | .literalOverrun | .outputOverrun
  | .blockChecksum => true
  | _ => false

namespace Block

open Bytes

/-- How a script is spelled. A sequence with a match is a token, whose halves announce the number of
literals and how much longer the match is than the shortest; what goes on with the first length; the
literals; the distance in two bytes; and what goes on with the second length. How the literals at
the end are spelled, `tail` says. -/
inductive Script.Spelled (tail : Bytes → Bytes → Prop) : Script → Bytes → Prop
  | last {literals block : Bytes} (ends : tail literals block) :
    Spelled tail (.last literals) block
  | sequence {token : UInt8} {literals code extraCode block : Bytes} {distance extra : Nat}
      {rest : Script} (announced : Length.Spelled literals.size (token.toNat / 16) code)
      (narrow : distance < 2 ^ 16)
      (lengthened : Length.Spelled extra (token.toNat % 16) extraCode)
      (onward : Spelled tail rest block) :
    Spelled tail (.sequence literals ⟨distance, extra + minMatch⟩ rest)
      (#[token] ++ (code ++ (literals ++ (Bytes.ofNat 2 distance ++ (extraCode ++ block)))))

/-- How literals end a block: behind their token and what goes on with their number. The low half of
the token means nothing. -/
inductive LastSequence (literals : Bytes) : Bytes → Prop
  | spelled {token : UInt8} {code : Bytes}
      (announced : Length.Spelled literals.size (token.toNat / 16) code) :
    LastSequence literals (#[token] ++ (code ++ literals))

/-- How literals end a block that is written: the low half of their token is zero. -/
inductive PlainSequence (literals : Bytes) : Bytes → Prop
  | spelled {token : UInt8} {code : Bytes}
      (announced : Length.Spelled literals.size (token.toNat / 16) code)
      (plain : token.toNat % 16 = 0) :
    PlainSequence literals (#[token] ++ (code ++ literals))

theorem PlainSequence.lastSequence {literals block : Bytes} (plain : PlainSequence literals block) :
    LastSequence literals block := by
  cases plain with
  | spelled announced => exact .spelled announced

/-- What is there of a sequence that does not go on as it should: nothing, or its literals. -/
inductive OpenSequence : Bytes → Bytes → Prop
  | nothing (block : Bytes) : OpenSequence #[] block
  | spelled {token : UInt8} {code literals : Bytes} (further : Bytes)
      (announced : Length.Spelled literals.size (token.toNat / 16) code) :
    OpenSequence literals (#[token] ++ (code ++ (literals ++ further)))

theorem Script.Spelled.mono {tail other : Bytes → Bytes → Prop} {script : Script} {block : Bytes}
    (weaker : ∀ literals bytes, tail literals bytes → other literals bytes)
    (spelled : script.Spelled tail block) : script.Spelled other block := by
  induction spelled with
  | last ends => exact .last (weaker _ _ ends)
  | sequence announced narrow lengthened onward ih =>
    exact .sequence announced narrow lengthened ih

/-- The bytes spell a script that adds something to the text, with every match in reach. -/
def Says (tail : Bytes → Bytes → Prop) (block text added : Bytes) : Prop :=
  ∃ script : Script, script.Spelled tail block ∧ script.InReach text.size ∧
    script.expand text = text ++ added

/-- What a whole block adds to the text before it. -/
abbrev Expands (block text added : Bytes) : Prop := Says LastSequence block text added

/-- What the first sequences of a byte string add to the text before it, whatever follows. -/
abbrev Begins (block text added : Bytes) : Prop := Says OpenSequence block text added

namespace Says

variable {tail : Bytes → Bytes → Prop} {block text literals copied added : Bytes}

theorem last (ends : tail literals block) : Says tail block text literals :=
  ⟨.last literals, .last ends, trivial, rfl⟩

/-- A sequence in front of what says more. -/
theorem sequence {token : UInt8} {code extraCode : Bytes} {distance extra : Nat}
    (announced : Length.Spelled literals.size (token.toNat / 16) code)
    (narrow : distance < 2 ^ 16) (lengthened : Length.Spelled extra (token.toNat % 16) extraCode)
    (positive : 1 ≤ distance) (reach : distance ≤ text.size + literals.size)
    (copy : copyBytewise (text ++ literals) distance (extra + minMatch) =
      text ++ literals ++ copied)
    (onward : Says tail block (text ++ literals ++ copied) added) :
    Says tail (#[token] ++ (code ++ (literals ++ (Bytes.ofNat 2 distance ++
      (extraCode ++ block))))) text (literals ++ copied ++ added) := by
  obtain ⟨rest, spelled, inReach, expands⟩ := onward
  have grown := size_copyBytewise (text ++ literals) distance (extra + minMatch)
  rw [← copy, grown, Array.size_append] at inReach
  refine ⟨.sequence literals ⟨distance, extra + minMatch⟩ rest,
    .sequence announced narrow lengthened spelled, ⟨⟨positive, reach⟩, inReach⟩, ?_⟩
  rw [Script.expand, copy, expands]
  simp only [Array.append_assoc]

/-- A block has at least a token. -/
theorem size_pos (expands : Expands block text added) : 0 < block.size := by
  obtain ⟨script, spelled, -⟩ := expands
  cases spelled with
  | last ends =>
    cases ends
    rw [Array.size_append]
    exact Nat.add_pos_left Nat.zero_lt_one _
  | sequence =>
    rw [Array.size_append]
    exact Nat.add_pos_left Nat.zero_lt_one _

end Says

/-- A token holds both nibbles. -/
theorem toNat_token (literals extra : Nat) :
    (Length.note (Length.note 0 .high literals) .low extra).toNat / 16 = Length.nibble literals ∧
      (Length.note (Length.note 0 .high literals) .low extra).toNat % 16 = Length.nibble extra :=
  ⟨(Length.get_other_note _ .low extra).trans (Length.get_note rfl literals),
    Length.get_note (Length.get_other_note 0 .high literals) extra⟩

/-- What is written for a script spells it, and nothing more in its last token. -/
theorem Script.Writable.spelled_plain {script : Script} {available : Nat}
    (writable : script.Writable available) : script.Spelled PlainSequence script.block := by
  induction script generalizing available with
  | last literals =>
    obtain ⟨high, low⟩ := toNat_token literals.size 0
    have announced := Length.spelled_pieces literals.size
    rw [← high] at announced
    rw [block, pieces, concat_lastPieces]
    exact .last (.spelled announced low)
  | sequence literals found rest ih =>
    obtain ⟨-, near, long, further⟩ := writable
    obtain ⟨high, low⟩ := toNat_token literals.size (found.length - minMatch)
    have announced := Length.spelled_pieces literals.size
    have lengthened := Length.spelled_pieces (found.length - minMatch)
    rw [← high] at announced
    rw [← low] at lengthened
    have spelled := Spelled.sequence announced (Nat.lt_of_le_of_lt near (by decide)) lengthened
      (ih further)
    rw [Nat.sub_add_cancel long] at spelled
    rw [block, pieces, concat_append, concat_sequencePieces]
    simp only [Array.append_assoc]
    exact spelled

/-- What is written for a script spells it. -/
theorem Script.Writable.spelled {script : Script} {available : Nat}
    (writable : script.Writable available) : script.Spelled LastSequence script.block :=
  writable.spelled_plain.mono fun _ _ => PlainSequence.lastSequence

/-- What the decoder does from the end of the literals of a sequence on. -/
def decodeMatch (block history : Bytes) (limit token matchPos : Nat) (output : Bytes) : Decoded :=
  if matchPos = block.size then ⟨output, none⟩
  else if block.size < matchPos + 2 then .corrupt output matchPos .truncated
  else
    match Length.read block (matchPos + 2) (token % 16) with
    | .error error => ⟨output, some error⟩
    | .ok (extra, next) =>
      if limit < output.size + (extra + minMatch) then .corrupt output matchPos .outputOverrun
      else
        match appendMatch history output (block.natAt matchPos 2) (extra + minMatch) with
        | (some reason, output) => .corrupt output matchPos reason
        | (none, output) => decodeFrom block history limit next output

variable {block history output literals : Bytes} {limit pos : Nat}

theorem decodeFrom_of_inside (inside : pos < block.size) :
    decodeFrom block history limit pos output =
      match Length.read block (pos + 1) ((block.byteAt pos).toNat / 16) with
      | .error error => ⟨output, some error⟩
      | .ok (literals, start) =>
        if block.size < start + literals then .corrupt output start .literalOverrun
        else if limit < output.size + literals then .corrupt output start .outputOverrun
        else
          decodeMatch block history limit (block.byteAt pos).toNat (start + literals)
            (output ++ block.extract start (start + literals)) := by
  conv => lhs; rw [decodeFrom, dif_pos inside]
  extract_lets token
  split
  · rename_i error refused
    rw [refused]
  · rename_i literals start found
    rw [found]
    unfold decodeMatch
    dsimp only
    split
    · rfl
    · split
      · rfl
      · split
        · rfl
        · split
          · rfl
          · split
            · rename_i error refused
              rw [refused]
            · rename_i extra next found
              rewrite [found]
              rfl

/-- The literals of a sequence are read, and given out if there is room for them. -/
theorem decodeFrom_literals {token : UInt8} {code further : Bytes} (within : pos ≤ block.size)
    (here : block.dropFirst pos = #[token] ++ (code ++ (literals ++ further)))
    (announced : Length.Spelled literals.size (token.toNat / 16) code) :
    ∃ start, start + literals.size ≤ block.size ∧
      block.dropFirst (start + literals.size) = further ∧
      decodeFrom block history limit pos output =
        if limit < output.size + literals.size then .corrupt output start .outputOverrun
        else
          decodeMatch block history limit token.toNat (start + literals.size)
            (output ++ literals) := by
  obtain ⟨tokenHeld, behindToken⟩ := holds_of_dropFirst_eq here within
  obtain ⟨codeHeld, behindCode⟩ := holds_of_dropFirst_eq behindToken tokenHeld.within
  obtain ⟨literalsHeld, behindLiterals⟩ := holds_of_dropFirst_eq behindCode codeHeld.within
  have enough := literalsHeld.within
  have read := announced.read codeHeld
  have one : (#[token] : Bytes).size = 1 := rfl
  refine ⟨_, enough, behindLiterals, ?_⟩
  rw [one] at read literalsHeld enough ⊢
  rw [decodeFrom_of_inside tokenHeld.within, tokenHeld.byteAt_eq, read]
  dsimp only
  rw [if_neg (Nat.not_lt_of_le enough), literalsHeld.extract_eq]

theorem decodeFrom_of_literals {token : UInt8} {code further : Bytes} (within : pos ≤ block.size)
    (here : block.dropFirst pos = #[token] ++ (code ++ (literals ++ further)))
    (announced : Length.Spelled literals.size (token.toNat / 16) code)
    (room : output.size + literals.size ≤ limit) :
    ∃ matchPos, matchPos ≤ block.size ∧ block.dropFirst matchPos = further ∧
      decodeFrom block history limit pos output =
        decodeMatch block history limit token.toNat matchPos (output ++ literals) := by
  obtain ⟨start, enough, behind, read⟩ := decodeFrom_literals within here announced
  exact ⟨start + literals.size, enough, behind, read.trans (if_neg (Nat.not_lt_of_le room))⟩

/-- A match in reach is carried out if there is room for it. -/
theorem decodeMatch_match {token : UInt8} {extraCode rest : Bytes} {matchPos distance extra : Nat}
    (within : matchPos ≤ block.size)
    (here : block.dropFirst matchPos = Bytes.ofNat 2 distance ++ (extraCode ++ rest))
    (narrow : distance < 2 ^ 16) (lengthened : Length.Spelled extra (token.toNat % 16) extraCode)
    (positive : 1 ≤ distance) (reach : distance ≤ history.size + output.size) :
    ∃ next, next ≤ block.size ∧ block.dropFirst next = rest ∧
      decodeMatch block history limit token.toNat matchPos output =
        if limit < output.size + (extra + minMatch) then .corrupt output matchPos .outputOverrun
        else
          decodeFrom block history limit next
            (copyMatch history output distance (extra + minMatch)) := by
  obtain ⟨distanceHeld, behindDistance⟩ := holds_of_dropFirst_eq here within
  obtain ⟨extraHeld, behindExtra⟩ := holds_of_dropFirst_eq behindDistance distanceHeld.within
  have enough := distanceHeld.within
  have read := lengthened.read extraHeld
  have stored : block.natAt matchPos 2 = distance := distanceHeld.natAt_eq (by decide) narrow
  refine ⟨_, extraHeld.within, behindExtra, ?_⟩
  rw [size_ofNat] at enough read ⊢
  unfold decodeMatch
  rw [if_neg (by omega), if_neg (by omega), read]
  dsimp only
  rw [stored, appendMatch_of_reach positive reach]

/-- A sequence with a match in reach is carried out as far as there is room for it: its literals are
given out, and then what they repeat. -/
theorem decodeFrom_sequence {token : UInt8} {code extraCode rest : Bytes} {distance extra : Nat}
    (within : pos ≤ block.size)
    (here : block.dropFirst pos =
      #[token] ++ (code ++ (literals ++ (Bytes.ofNat 2 distance ++ (extraCode ++ rest)))))
    (announced : Length.Spelled literals.size (token.toNat / 16) code) (narrow : distance < 2 ^ 16)
    (lengthened : Length.Spelled extra (token.toNat % 16) extraCode) (positive : 1 ≤ distance)
    (reach : distance ≤ (history ++ output).size + literals.size) :
    ∃ start next copied, next ≤ block.size ∧ block.dropFirst next = rest ∧
      copyBytewise (history ++ output ++ literals) distance (extra + minMatch) =
        history ++ output ++ literals ++ copied ∧
      copied.size = extra + minMatch ∧
      decodeFrom block history limit pos output =
        if limit < output.size + literals.size then .corrupt output start .outputOverrun
        else if limit < output.size + literals.size + (extra + minMatch) then
          .corrupt (output ++ literals) (start + literals.size) .outputOverrun
        else decodeFrom block history limit next (output ++ literals ++ copied) := by
  obtain ⟨start, inside, behind, read⟩ :=
    @decodeFrom_literals block history output literals limit pos token code _ within here announced
  have grown : (output ++ literals).size = output.size + literals.size := Array.size_append
  have reached : distance ≤ history.size + (output ++ literals).size := by
    rwa [grown, ← Nat.add_assoc, ← Array.size_append]
  obtain ⟨next, nextWithin, nextHere, matched⟩ :=
    @decodeMatch_match block history (output ++ literals) limit token extraCode rest
      (start + literals.size) distance extra inside behind narrow lengthened positive reached
  obtain ⟨copied, copy, expansion, size⟩ := exists_copyMatch positive reached (extra + minMatch)
  rw [← Array.append_assoc] at expansion
  rw [grown, copy] at matched
  exact ⟨start, next, copied, nextWithin, nextHere, expansion, size, by rw [read, matched]⟩

/-- The decoder gets through the sequences of a script, as long as there is room for what they add,
and stands before the literals at its end. -/
theorem decodeFrom_of_spelled {tail : Bytes → Bytes → Prop} {script : Script} {bytes : Bytes}
    (spelled : script.Spelled tail bytes) (within : pos ≤ block.size)
    (here : block.dropFirst pos = bytes) (inReach : script.InReach (history ++ output).size)
    (room : output.size + script.contentSize ≤ limit) :
    ∃ next front last, next ≤ block.size ∧ tail last (block.dropFirst next) ∧
      decodeFrom block history limit pos output =
        decodeFrom block history limit next (output ++ front) ∧
      script.expand (history ++ output) = history ++ output ++ (front ++ last) := by
  induction spelled generalizing pos output with
  | @last literals bytes ends =>
    refine ⟨pos, #[], literals, within, here ▸ ends, ?_, ?_⟩
    · rw [Array.append_empty]
    · rw [Array.empty_append, Script.expand]
  | @sequence token literals code extraCode bytes distance extra rest announced narrow lengthened
      onward ih =>
    obtain ⟨⟨positive, reach⟩, further⟩ := inReach
    simp only [Script.contentSize] at room
    dsimp only at positive reach further
    obtain ⟨start, next, copied, nextWithin, nextHere, expansion, size, read⟩ :=
      @decodeFrom_sequence block history output literals limit pos token code extraCode bytes
        distance extra within here announced narrow lengthened positive reach
    rw [if_neg (by omega), if_neg (by omega)] at read
    have text : history ++ (output ++ literals ++ copied) =
        history ++ output ++ literals ++ copied := by
      simp only [Array.append_assoc]
    have grown : (output ++ literals ++ copied).size =
        output.size + literals.size + (extra + minMatch) := by
      rw [Array.size_append, Array.size_append, size]
    obtain ⟨stop, front, literalsLast, endWithin, ends, through, expands⟩ :=
      @ih (output ++ literals ++ copied) next nextWithin nextHere
        (by rwa [text, Array.size_append, Array.size_append, size]) (by omega)
    refine ⟨stop, literals ++ copied ++ front, literalsLast, endWithin, ends, ?_, ?_⟩
    · rw [read, through]
      simp only [Array.append_assoc]
    · rw [Script.expand, expansion, ← text, expands]
      simp only [Array.append_assoc]

theorem decodeFrom_of_saying {tail : Bytes → Bytes → Prop} {added : Bytes}
    (within : pos ≤ block.size) (saying : Says tail (block.dropFirst pos) (history ++ output) added)
    (room : output.size + added.size ≤ limit) :
    ∃ next front last, next ≤ block.size ∧ added = front ++ last ∧
      tail last (block.dropFirst next) ∧
      decodeFrom block history limit pos output =
        decodeFrom block history limit next (output ++ front) := by
  obtain ⟨script, spelled, inReach, expansion⟩ := saying
  obtain ⟨content, grown, size⟩ := script.exists_expand (history ++ output)
  have same : added = content := (Array.append_right_inj _).mp (expansion.symm.trans grown)
  have roomy : output.size + script.contentSize ≤ limit := by
    rw [← size, ← same]
    exact room
  obtain ⟨next, front, last, nextWithin, ends, through, whole⟩ :=
    decodeFrom_of_spelled spelled within rfl inReach roomy
  rw [expansion, Array.append_right_inj] at whole
  exact ⟨next, front, last, nextWithin, whole, ends, through⟩

/-- What comes of decoding bytes behind a text: all that they expand to, or what they begin with and
a place to stop at. -/
inductive Outcome (bytes text output : Bytes) (size : Nat) (added : Bytes) : Decoded → Prop
  | whole (expands : Expands bytes text added) :
    Outcome bytes text output size added ⟨output ++ added, none⟩
  | refused {offset : Nat} (reason : Corruption) (begins : Begins bytes text added)
      (within : offset ≤ size) :
    Outcome bytes text output size added (.corrupt (output ++ added) offset reason)

theorem high_lt (token : UInt8) : token.toNat / 16 < 16 := by
  have byte := token.toNat_lt
  omega

/-- What was read as a token, a number of literals and the literals stands there. -/
theorem dropFirst_of_literals {count start : Nat} (inside : pos < block.size)
    (read : Length.read block (pos + 1) ((block.byteAt pos).toNat / 16) = .ok (count, start))
    (enough : start + count ≤ block.size) :
    ∃ code,
      Length.Spelled (block.extract start (start + count)).size
        ((block.byteAt pos).toNat / 16) code ∧
      block.dropFirst pos = #[block.byteAt pos] ++ (code ++
        (block.extract start (start + count) ++ block.dropFirst (start + count))) := by
  obtain ⟨code, announced, codeHeld, rfl⟩ := Length.spelled_of_read (high_lt _) inside read
  refine ⟨code, by rwa [size_extract_add enough], ?_⟩
  have literals : block.dropFirst (pos + 1 + code.size) =
      block.extract (pos + 1 + code.size) (pos + 1 + code.size + count) ++
        block.dropFirst (pos + 1 + code.size + count) :=
    (extract_append_extract (Nat.le_add_right _ _) enough).symm
  rw [← literals, ← codeHeld.dropFirst_eq]
  exact (holds_byte inside rfl).dropFirst_eq

/-- What was read as a distance and a length stands there. -/
theorem dropFirst_of_match {matchPos extra next : Nat} {token : UInt8}
    (enough : matchPos + 2 ≤ block.size)
    (read : Length.read block (matchPos + 2) (token.toNat % 16) = .ok (extra, next)) :
    ∃ code, Length.Spelled extra (token.toNat % 16) code ∧ next ≤ block.size ∧
      block.dropFirst matchPos =
        Bytes.ofNat 2 (block.natAt matchPos 2) ++ (code ++ block.dropFirst next) := by
  obtain ⟨code, lengthened, codeHeld, rfl⟩ :=
    Length.spelled_of_read (Nat.mod_lt _ (by decide)) enough read
  refine ⟨code, lengthened, codeHeld.within, ?_⟩
  rw [← codeHeld.dropFirst_eq]
  have distanceHeld := holds_ofNat_natAt (by decide) enough
  have front := distanceHeld.dropFirst_eq
  rwa [size_ofNat] at front

namespace Outcome

variable {bytes rest text front added : Bytes} {size offset : Nat} {decoded : Decoded}

/-- Any bytes begin with nothing, which is given out when they are refused at their start. -/
theorem nothing (bytes text output : Bytes) (reason : Corruption) (within : offset ≤ size) :
    Outcome bytes text output size #[] (.corrupt output offset reason) := by
  have refused := @Outcome.refused bytes text output size #[] offset reason (.last (.nothing _))
    within
  rwa [Array.append_empty] at refused

/-- What comes of the rest of some bytes comes of all of them, with what those in front of it add. -/
theorem onward (outcome : Outcome rest (text ++ front) (output ++ front) size added decoded)
    (step : ∀ {tail : Bytes → Bytes → Prop},
      Says tail rest (text ++ front) added → Says tail bytes text (front ++ added)) :
    Outcome bytes text output size (front ++ added) decoded := by
  cases outcome with
  | whole expands =>
    rw [Array.append_assoc]
    exact .whole (step expands)
  | refused reason begins within =>
    rw [Array.append_assoc]
    exact .refused reason (step begins) within

end Outcome

/-- Literals that stand in a block are given out, whatever is wrong behind them. -/
theorem exists_outcome_of_literals {text : Bytes} {count start offset : Nat}
    (inside : pos < block.size)
    (read : Length.read block (pos + 1) ((block.byteAt pos).toNat / 16) = .ok (count, start))
    (enough : start + count ≤ block.size) (room : output.size + count ≤ limit)
    (reason : Corruption) (within : offset ≤ block.size) :
    ∃ added, output.size + added.size ≤ limit ∧
      Outcome (block.dropFirst pos) text output block.size added
        (.corrupt (output ++ block.extract start (start + count)) offset reason) := by
  obtain ⟨code, announced, here⟩ := dropFirst_of_literals inside read enough
  refine ⟨block.extract start (start + count), ?_, .refused reason ?_ within⟩
  · rwa [size_extract_add enough]
  · rw [here]
    exact .last (.spelled _ announced)

/-- A sequence that stands in a block is said in front of what is said behind it. -/
theorem says_of_sequence {tail : Bytes → Bytes → Prop} {text copied added : Bytes}
    {count start extra next : Nat} (inside : pos < block.size)
    (read : Length.read block (pos + 1) ((block.byteAt pos).toNat / 16) = .ok (count, start))
    (enough : start + count + 2 ≤ block.size)
    (lengthRead : Length.read block (start + count + 2) ((block.byteAt pos).toNat % 16) =
      .ok (extra, next))
    (positive : 1 ≤ block.natAt (start + count) 2)
    (reach : block.natAt (start + count) 2 ≤ text.size + count)
    (copy : copyBytewise (text ++ block.extract start (start + count))
        (block.natAt (start + count) 2) (extra + minMatch) =
      text ++ block.extract start (start + count) ++ copied)
    (onward : Says tail (block.dropFirst next)
      (text ++ (block.extract start (start + count) ++ copied)) added) :
    Says tail (block.dropFirst pos) text
      (block.extract start (start + count) ++ copied ++ added) := by
  have literals : start + count ≤ block.size := Nat.le_of_add_right_le enough
  obtain ⟨code, announced, here⟩ := dropFirst_of_literals inside read literals
  obtain ⟨extraCode, lengthened, -, behind⟩ := dropFirst_of_match enough lengthRead
  rw [here, behind]
  apply Says.sequence announced (natAt_lt _ _ (by decide)) lengthened positive
  · rwa [size_extract_add literals]
  · exact copy
  · rwa [Array.append_assoc]

/-- Whatever the decoder gives out, the bytes say it. -/
theorem outcome_decodeFrom (within : pos ≤ block.size) (started : output.size ≤ limit) :
    ∃ added, output.size + added.size ≤ limit ∧
      Outcome (block.dropFirst pos) (history ++ output) output block.size added
        (decodeFrom block history limit pos output) := by
  fun_induction decodeFrom block history limit pos output with
  | case1 pos output inside token error endless =>
    rw [Length.eq_truncated_of_read endless]
    exact ⟨#[], started, .nothing _ _ output _ (Nat.le_refl _)⟩
  | case2 pos output inside token count start read beyond =>
    have startWithin := Length.le_size_of_read (high_lt _) inside read
    exact ⟨#[], started, .nothing _ _ output _ startWithin⟩
  | case3 pos output inside token count start read enough full =>
    exact ⟨#[], started, .nothing _ _ output _ (by omega)⟩
  | case4 pos output inside token count start read enough room grown matchPos ends =>
    have enough : start + count ≤ block.size := Nat.le_of_not_lt enough
    obtain ⟨code, announced, here⟩ := dropFirst_of_literals inside read enough
    rw [dropFirst_of_size_le (Nat.le_of_eq ends.symm), Array.append_empty] at here
    refine ⟨_, ?_, .whole (.last ?_)⟩
    · rw [size_extract_add enough]
      omega
    · rw [here]
      exact .spelled announced
  | case5 pos output inside token count start read enough room grown matchPos going cut =>
    exact exists_outcome_of_literals inside read (by omega) (by omega) _ (by omega)
  | case6 pos output inside token count start read enough room grown matchPos going more error
      endless =>
    rw [Length.eq_truncated_of_read endless]
    exact exists_outcome_of_literals inside read (by omega) (by omega) _ (Nat.le_refl _)
  | case7 pos output inside token count start read enough room grown matchPos going more extra next
      lengthRead length full =>
    exact exists_outcome_of_literals inside read (by omega) (by omega) _ (by omega)
  | case8 pos output inside token count start read enough room grown matchPos going more distance
      extra next lengthRead length roomy reason left refused =>
    rw [(fault_of_appendMatch refused).2]
    exact exists_outcome_of_literals inside read (by omega) (by omega) _ (by omega)
  | case9 pos output inside token count start read enough room grown matchPos going more distance
      extra next lengthRead length roomy appendedTo appended ih =>
    have enough : matchPos + 2 ≤ block.size := Nat.le_of_not_lt more
    obtain ⟨-, -, nextWithin, -⟩ := dropFirst_of_match enough lengthRead
    obtain ⟨⟨positive, reach⟩, rfl⟩ := reach_of_appendMatch appended
    obtain ⟨copied, copy, expansion, size⟩ := exists_copyMatch positive reach length
    have literals := size_extract_add (Nat.le_of_add_right_le enough)
    have total : grown.size = output.size + count := by rw [Array.size_append, literals]
    have near : distance ≤ (history ++ output).size + count := by
      rwa [Array.size_append, Nat.add_assoc, ← total]
    have text : history ++ grown = history ++ output ++ block.extract start (start + count) :=
      Array.append_assoc.symm
    have joined : grown ++ copied = output ++ (block.extract start (start + count) ++ copied) :=
      Array.append_assoc
    rw [copy] at ih ⊢
    obtain ⟨added, fits, outcome⟩ := ih nextWithin (by rw [Array.size_append, size]; omega)
    rw [Array.size_append, size] at fits
    refine ⟨block.extract start (start + count) ++ copied ++ added, ?_, ?_⟩
    · rw [Array.size_append, Array.size_append, literals, size]
      omega
    · rw [joined, ← Array.append_assoc] at outcome
      rw [joined]
      refine outcome.onward fun onward => ?_
      rw [text] at expansion
      exact says_of_sequence inside read enough lengthRead positive near expansion onward
  | case10 pos output outside =>
    exact ⟨#[], started, .nothing _ _ output _ (Nat.le_refl _)⟩

/-- What was there before stays in front. -/
theorem exists_decodeFrom_output (history : Bytes) (within : pos ≤ block.size)
    (started : output.size ≤ limit) :
    ∃ added, (decodeFrom block history limit pos output).output = output ++ added := by
  obtain ⟨added, -, outcome⟩ := @outcome_decodeFrom block history output limit pos within started
  refine ⟨added, ?_⟩
  generalize decodeFrom block history limit pos output = decoded at outcome
  cases outcome <;> rfl

theorem exists_decodeMatch_output (history : Bytes) {token : UInt8} {matchPos : Nat} :
    ∃ added, (decodeMatch block history limit token.toNat matchPos output).output =
      output ++ added := by
  have nothing : output = output ++ #[] := Array.append_empty.symm
  unfold decodeMatch
  split
  · exact ⟨#[], nothing⟩
  · split
    · exact ⟨#[], nothing⟩
    · split
      · exact ⟨#[], nothing⟩
      · rename_i extra next read
        split
        · exact ⟨#[], nothing⟩
        · split
          · rename_i reason left refused
            rw [(fault_of_appendMatch refused).2]
            exact ⟨#[], nothing⟩
          · rename_i grown appended
            obtain ⟨code, -, within, -⟩ := dropFirst_of_match (by omega) read
            obtain ⟨⟨positive, reach⟩, rfl⟩ := reach_of_appendMatch appended
            obtain ⟨copied, copy, -, size⟩ := exists_copyMatch positive reach (extra + minMatch)
            rw [copy]
            obtain ⟨added, output_eq⟩ := @exists_decodeFrom_output block (output ++ copied) limit
              next history within (by rw [Array.size_append, size]; omega)
            exact ⟨copied ++ added, by rw [output_eq, Array.append_assoc]⟩

/-- What a block expands to is decoded if there is room for it. -/
theorem decodeFrom_of_expands {added : Bytes} (within : pos ≤ block.size)
    (expands : Expands (block.dropFirst pos) (history ++ output) added)
    (room : output.size + added.size ≤ limit) :
    decodeFrom block history limit pos output = ⟨output ++ added, none⟩ := by
  obtain ⟨next, front, literals, nextWithin, rfl, ends, through⟩ :=
    decodeFrom_of_saying within expands room
  generalize here : block.dropFirst next = bytes at ends
  cases ends with
  | @spelled token code announced =>
    have here' : block.dropFirst next = #[token] ++ (code ++ (literals ++ #[])) := by
      rw [here, Array.append_empty]
    rw [Array.size_append] at room
    obtain ⟨matchPos, matchWithin, behind, read⟩ :=
      @decodeFrom_of_literals block history (output ++ front) literals limit next token code #[]
        nextWithin here' announced (by rw [Array.size_append]; omega)
    have ended : matchPos = block.size := by
      have none := congrArg Array.size behind
      rw [size_dropFirst] at none
      have zero : (#[] : Bytes).size = 0 := rfl
      omega
    rw [through, read, decodeMatch, if_pos ended, Array.append_assoc]

/-- What a block begins with is given out if there is room for it. -/
theorem decodeFrom_of_begins {added : Bytes} (within : pos ≤ block.size)
    (begins : Begins (block.dropFirst pos) (history ++ output) added)
    (room : output.size + added.size ≤ limit) :
    ∃ more, (decodeFrom block history limit pos output).output = output ++ (added ++ more) := by
  obtain ⟨next, front, literals, nextWithin, rfl, ends, through⟩ :=
    decodeFrom_of_saying within begins room
  rw [Array.size_append] at room
  generalize here : block.dropFirst next = bytes at ends
  cases ends with
  | nothing =>
    obtain ⟨more, onward⟩ := @exists_decodeFrom_output block (output ++ front) limit next history
      nextWithin (by rw [Array.size_append]; omega)
    refine ⟨more, ?_⟩
    rw [through, onward]
    simp only [Array.append_assoc, Array.append_empty]
  | @spelled token code literals further announced =>
    obtain ⟨matchPos, matchWithin, behind, read⟩ :=
      @decodeFrom_of_literals block history (output ++ front) literals limit next token code further
        nextWithin here announced (by rw [Array.size_append]; omega)
    obtain ⟨more, onward⟩ := @exists_decodeMatch_output block (output ++ front ++ literals) limit
      history token matchPos
    refine ⟨more, ?_⟩
    rw [through, read, onward]
    simp only [Array.append_assoc]

theorem ofBlock_of_distanceFault {available distance : Nat} {reason : Corruption}
    (fault : distanceFault available distance = some reason) : reason.ofBlock = true := by
  unfold distanceFault at fault
  split at fault
  · cases fault
    rfl
  · split at fault <;> cases fault
    rfl

theorem ofBlock_of_decodeFrom {error : Error}
    (fault : (decodeFrom block history limit pos output).fault = some error) :
    ∃ offset reason, error = .corruptInput offset reason ∧ reason.ofBlock = true := by
  fun_induction decodeFrom block history limit pos output with
  | case4 => cases fault
  | case8 pos output inside token count start read enough room grown matchPos going more distance
      extra next lengthRead length roomy reason left refused =>
    cases fault
    exact ⟨_, _, rfl, ofBlock_of_distanceFault (fault_of_appendMatch refused).1⟩
  | case9 pos output inside token count start read enough room grown matchPos going more distance
      extra next lengthRead length roomy grownTo appended ih => exact ih fault
  | case1 pos output inside token refusal endless =>
    cases fault
    exact ⟨_, _, Length.eq_truncated_of_read endless, rfl⟩
  | case6 pos output inside token count start read enough room grown matchPos going more refusal
      endless =>
    cases fault
    exact ⟨_, _, Length.eq_truncated_of_read endless, rfl⟩
  | case2 | case3 | case5 | case7 | case10 =>
    cases fault
    exact ⟨_, _, rfl, rfl⟩

section Onto

variable {block history output text added whole : Bytes} {capacity : Nat}

theorem outcome_decodeOnto (block history output : Bytes) (capacity : Nat) :
    ∃ added, added.size ≤ capacity ∧
      Outcome block (history ++ output) output block.size added
        (decodeOnto block history output capacity) := by
  obtain ⟨added, room, outcome⟩ :=
    @outcome_decodeFrom block history output (output.size + capacity) 0 (Nat.zero_le _)
      (Nat.le_add_right _ _)
  rw [dropFirst_zero] at outcome
  exact ⟨added, by omega, outcome⟩

theorem decodeOnto_of_expands (expands : Expands block (history ++ output) added)
    (room : added.size ≤ capacity) :
    decodeOnto block history output capacity = ⟨output ++ added, none⟩ :=
  decodeFrom_of_expands (Nat.zero_le _) (by rwa [dropFirst_zero]) (Nat.add_le_add_left room _)

theorem decodeOnto_of_begins (begins : Begins block (history ++ output) added)
    (room : added.size ≤ capacity) :
    ∃ more, (decodeOnto block history output capacity).output = output ++ (added ++ more) :=
  decodeFrom_of_begins (Nat.zero_le _) (by rwa [dropFirst_zero]) (Nat.add_le_add_left room _)

/-- What a block begins with is a front part of what it expands to. -/
theorem Says.prefix_of_expands (begins : Begins block text added)
    (expands : Expands block text whole) : ∃ rest, whole = added ++ rest := by
  have roomy : Expands block (text ++ #[]) whole := by rwa [Array.append_empty]
  have begun : Begins block (text ++ #[]) added := by rwa [Array.append_empty]
  obtain ⟨rest, output⟩ := decodeOnto_of_begins begun (Nat.le_add_left added.size whole.size)
  rw [decodeOnto_of_expands roomy (Nat.le_add_right _ _), Array.empty_append,
    Array.empty_append] at output
  exact ⟨rest, output⟩

theorem decodeOnto_eq_whole_iff :
    decodeOnto block history output capacity = ⟨output ++ added, none⟩ ↔
      Expands block (history ++ output) added ∧ added.size ≤ capacity := by
  refine ⟨fun decoded => ?_, fun ⟨expands, room⟩ => decodeOnto_of_expands expands room⟩
  obtain ⟨given, room, outcome⟩ := outcome_decodeOnto block history output capacity
  generalize decodeOnto block history output capacity = result at decoded outcome
  cases outcome with
  | whole expands =>
    simp only [Decoded.mk.injEq, and_true, Array.append_right_inj] at decoded
    subst decoded
    exact ⟨expands, room⟩
  | refused reason =>
    rw [Decoded.corrupt, Decoded.mk.injEq] at decoded
    exact absurd decoded.2 (by simp)

/-- A block is decoded where it expands to something for which there is room. -/
theorem decode_eq_ok_iff {content : Bytes} :
    decode block history capacity = .ok content ↔
      Expands block history content ∧ content.size ≤ capacity := by
  have whole := @decodeOnto_eq_whole_iff block history #[] content capacity
  rw [Array.empty_append, Array.append_empty] at whole
  rw [← whole, decode, Decoded.toExcept]
  generalize decodeOnto block history #[] capacity = decoded
  obtain ⟨output, fault⟩ := decoded
  cases fault with
  | none => simp
  | some error => simp

/-- A block is refused with a place to stop at, and something that can be wrong with a block. -/
theorem decode_eq_error {error : Error} (refused : decode block history capacity = .error error) :
    ∃ offset reason, error = .corruptInput offset reason ∧ offset ≤ block.size ∧
      reason.ofBlock = true := by
  obtain ⟨added, -, outcome⟩ := outcome_decodeOnto block history #[] capacity
  have stopped : (decodeOnto block history #[] capacity).fault = some error := by
    rw [decode, Decoded.toExcept] at refused
    split at refused
    · cases refused
    · rename_i fault
      cases refused
      exact fault
  obtain ⟨offset, reason, rfl, ofBlock⟩ := ofBlock_of_decodeFrom stopped
  generalize decodeOnto block history #[] capacity = decoded at stopped outcome
  cases outcome with
  | whole expands => cases stopped
  | refused other begins within =>
    cases stopped
    exact ⟨offset, reason, rfl, within, ofBlock⟩

/-- The decoder gives out what a block expands to where that is something, and there is room for
it. Everything else it refuses, with an offset within the block. By then it has given out all that
the block begins with as far as there is room for it, and that is a front part of whatever the block
expands to. -/
theorem decodeOnto_expands_or_begins (block history output : Bytes) (capacity : Nat) :
    (∀ added, decodeOnto block history output capacity = ⟨output ++ added, none⟩ ↔
      Expands block (history ++ output) added ∧ added.size ≤ capacity) ∧
    ((∃ added, Expands block (history ++ output) added ∧ added.size ≤ capacity) ∨
      ∃ added offset reason,
        decodeOnto block history output capacity = .corrupt (output ++ added) offset reason ∧
        offset ≤ block.size ∧ added.size ≤ capacity ∧ Begins block (history ++ output) added ∧
        (∀ front, Begins block (history ++ output) front → front.size ≤ capacity →
          ∃ rest, added = front ++ rest) ∧
        ∀ whole, Expands block (history ++ output) whole → ∃ rest, whole = added ++ rest) := by
  refine ⟨fun added => decodeOnto_eq_whole_iff, ?_⟩
  obtain ⟨added, room, outcome⟩ := outcome_decodeOnto block history output capacity
  generalize decoded : decodeOnto block history output capacity = result at outcome
  cases outcome with
  | whole expands => exact .inl ⟨added, expands, room⟩
  | @refused offset reason begins within =>
    refine .inr ⟨added, offset, reason, rfl, within, room, begins, ?_, ?_⟩
    · intro front further fits
      obtain ⟨rest, output_eq⟩ := decodeOnto_of_begins further fits
      rw [decoded, Decoded.corrupt, Array.append_right_inj] at output_eq
      exact ⟨rest, output_eq⟩
    · exact fun whole expands => begins.prefix_of_expands expands

end Onto

end Block

end Lz4
