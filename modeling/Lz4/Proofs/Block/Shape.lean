import Lz4.Proofs.Block.RoundTrip

/-!
# The shape of a block

A block spells one script only (`Lz4.Block.Script.Spelled.unique`), so its matches and where they
start can be read off its bytes. In the blocks that compressors write they keep to the limits of the
format: each reaches back to a byte that is there and no further than a distance of two bytes can
tell, each is long enough, and none starts or ends too close to the end
(`Lz4.Block.Script.Regular`). The decoder of this library does not ask for all of that, but others
may (`Lz4.Block.compress_regular`).
-/

namespace Lz4.Block

open Bytes

/-- A match that starts at a position of an input of so many bytes, behind a history of so many,
keeps to the limits of the format. -/
structure Match.Regular (found : Match) (history size start : Nat) : Prop where
  positive : 1 ≤ found.distance
  near : found.distance ≤ 65535
  reach : found.distance ≤ history + start
  long : 4 ≤ found.length
  early : start + 12 ≤ size
  clear : start + found.length + 5 ≤ size

namespace Script

/-- The matches of a script, each behind the position at which it starts; the first literals start
at `start`. -/
def copies (start : Nat) : Script → List (Nat × Match)
  | last _ => []
  | sequence literals found rest =>
    (start + literals.size, found) :: rest.copies (start + literals.size + found.length)

/-- The literals at the end of a script. -/
def ending : Script → Bytes
  | last literals => literals
  | sequence _ _ rest => rest.ending

/-- A script for an input of so many bytes, behind a history of so many, keeps to the limits of the
format. -/
structure Regular (script : Script) (history size : Nat) : Prop where
  copies : ∀ start found, (start, found) ∈ script.copies 0 → found.Regular history size start
  ending : min 5 size ≤ script.ending.size
  short : size < 12 → ∃ literals, script = .last literals

variable {script other : Script} {block : Bytes} {available history size start : Nat}

/-- The matches of a script that may be written keep to the limits of the format. -/
theorem Writable.regular_of_mem (writable : script.Writable available) (margins : script.Margins)
    (behind : available = history + start) (whole : start + script.contentSize = size) :
    ∀ pos found, (pos, found) ∈ script.copies start → found.Regular history size pos := by
  induction script generalizing available start with
  | last literals => exact nofun
  | sequence literals found rest ih =>
    obtain ⟨⟨positive, reach⟩, near, long, further⟩ := writable
    obtain ⟨fromStart, fromEnd, onward⟩ := margins
    simp only [contentSize] at whole
    simp only [endMargin] at fromStart
    simp only [lastLiterals] at fromEnd
    intro pos later member
    rcases List.mem_cons.mp member with here | there
    · cases here
      exact ⟨positive, near, by omega, long, by omega, by omega⟩
    · exact ih further onward (by omega) (by omega) pos later there

theorem Margins.lastLiterals_le (margins : script.Margins)
    (enough : lastLiterals ≤ script.contentSize) : lastLiterals ≤ script.ending.size := by
  induction script with
  | last literals => exact enough
  | sequence literals found rest ih =>
    obtain ⟨-, fromEnd, onward⟩ := margins
    exact ih onward fromEnd

theorem Margins.regular (margins : script.Margins) (writable : script.Writable history)
    (whole : script.contentSize = size) : script.Regular history size := by
  refine ⟨writable.regular_of_mem margins rfl (by rw [Nat.zero_add, whole]), ?_, ?_⟩
  · cases script with
    | last literals =>
      rw [← whole]
      exact Nat.min_le_right _ _
    | sequence literals found rest =>
      have enough : lastLiterals ≤ (sequence literals found rest).contentSize :=
        Nat.le_trans margins.2.1 (Nat.le_add_left _ _)
      exact Nat.le_trans (Nat.min_le_left _ _) (margins.lastLiterals_le enough)
  · intro short
    cases script with
    | last literals => exact ⟨literals, rfl⟩
    | sequence literals found rest =>
      have fromStart := margins.1
      simp only [contentSize] at whole
      simp only [endMargin] at fromStart
      omega

/-- A distance is told from its two bytes. -/
theorem ofNat_two_append_inj {first second : Nat} {rest otherRest : Bytes} (narrow : first < 2 ^ 16)
    (narrowToo : second < 2 ^ 16)
    (same : Bytes.ofNat 2 first ++ rest = Bytes.ofNat 2 second ++ otherRest) :
    first = second ∧ rest = otherRest := by
  obtain ⟨bytes, rests⟩ := Array.append_inj same (by rw [size_ofNat, size_ofNat])
  have stored := (holds_self (Bytes.ofNat 2 first)).natAt_eq (by decide) narrow
  rw [bytes] at stored
  have storedToo := (holds_self (Bytes.ofNat 2 second)).natAt_eq (by decide) narrowToo
  exact ⟨stored.symm.trans storedToo, rests⟩

/-- The literals of a sequence are told from what follows them. -/
theorem literals_append_inj {token otherToken : UInt8}
    {literals otherLiterals code otherCode rest otherRest : Bytes}
    (announced : Length.Spelled literals.size (token.toNat / 16) code)
    (again : Length.Spelled otherLiterals.size (otherToken.toNat / 16) otherCode)
    (same : #[token] ++ (code ++ (literals ++ rest)) =
      #[otherToken] ++ (otherCode ++ (otherLiterals ++ otherRest))) :
    token = otherToken ∧ literals = otherLiterals ∧ rest = otherRest := by
  obtain ⟨tokens, behind⟩ := Array.append_inj same rfl
  cases tokens
  obtain ⟨sizes, -, behindCode⟩ := announced.append_inj again behind
  obtain ⟨literal, rests⟩ := Array.append_inj behindCode sizes
  exact ⟨rfl, literal, rests⟩

/-- Behind the literals at the end there is no room for a distance. -/
theorem literals_ne_append {token otherToken : UInt8} {distance : Nat}
    {literals otherLiterals code otherCode rest : Bytes}
    (announced : Length.Spelled literals.size (token.toNat / 16) code)
    (again : Length.Spelled otherLiterals.size (otherToken.toNat / 16) otherCode) :
    #[token] ++ (code ++ literals) ≠
      #[otherToken] ++ (otherCode ++ (otherLiterals ++ (Bytes.ofNat 2 distance ++ rest))) := by
  intro same
  rw [← @Array.append_empty _ literals] at same
  obtain ⟨-, -, nothing⟩ := literals_append_inj announced again same
  have sizes := congrArg Array.size nothing
  rw [Array.size_append, size_ofNat, Array.size_empty] at sizes
  omega

/-- A block spells no more than one script. -/
theorem Spelled.unique (spelled : script.Spelled LastSequence block)
    (again : other.Spelled LastSequence block) : other = script := by
  -- Both scripts are read off the same bytes, so they begin with the same literals; then one of them
  -- goes on with a match exactly if the other does.
  induction spelled generalizing other with
  | @last literals block ends =>
    obtain ⟨announced⟩ := ends
    generalize whole : #[_] ++ (_ ++ literals) = bytes at again
    cases again with
    | @last literalsToo _ endsToo =>
      obtain ⟨announcedToo⟩ := endsToo
      rw [← @Array.append_empty _ literals, ← @Array.append_empty _ literalsToo] at whole
      obtain ⟨-, rfl, -⟩ := literals_append_inj announced announcedToo whole
      rfl
    | sequence announcedToo => exact absurd whole (literals_ne_append announced announcedToo)
  | @sequence token literals code extraCode block distance extra rest announced narrow lengthened
      onward ih =>
    generalize whole : #[token] ++ (code ++ (literals ++ (Bytes.ofNat 2 distance ++
      (extraCode ++ block)))) = bytes at again
    cases again with
    | last endsToo =>
      obtain ⟨announcedToo⟩ := endsToo
      exact absurd whole.symm (literals_ne_append announcedToo announced)
    | sequence announcedToo narrowToo lengthenedToo onwardToo =>
      obtain ⟨rfl, rfl, behind⟩ := literals_append_inj announced announcedToo whole
      obtain ⟨rfl, behindDistance⟩ := ofNat_two_append_inj narrow narrowToo behind
      obtain ⟨rfl, -, rfl⟩ := lengthened.append_inj lengthenedToo behindDistance
      rw [ih onwardToo]

end Script

/-- Whatever the input, the dictionary and the mode, the block that is written spells one script,
and the low half of its last token is zero. It is the script that the compressor means, whose
distances lead back from the input to the bytes that are repeated: none of them changes when it is
written in two bytes. All of its matches keep to the limits of the format, there are literals enough
at its end, and for a short input there is nothing else. -/
theorem compress_regular (input dictionary : Bytes) (mode : Mode) :
    ∃ script : Script,
      compress input dictionary mode =
        (if input.size ≤ maxInputSize then .ok script.block
        else .error (.invalidArgument .inputTooLong)) ∧
      (∀ sink, compressTo input dictionary mode sink = sink.writePieces script.pieces) ∧
      script.Spelled PlainSequence script.block ∧
      (∀ other : Script, other.Spelled LastSequence script.block → other = script) ∧
      script.expand (dictionaryWindow dictionary) = dictionaryWindow dictionary ++ input ∧
      script.Regular (dictionaryWindow dictionary).size input.size := by
  obtain ⟨script, describes, written, compressed⟩ := exists_describes input dictionary mode
  have sizes := @Array.size_append _ (dictionaryWindow dictionary) input
  have size := describes.contentSize_eq (by omega)
  have expands := describes.expands
  rw [sizes, Nat.add_sub_cancel_left] at size
  rw [Array.extract_append_left, Array.extract_size] at expands
  exact ⟨script, compressed, written, describes.writable.spelled_plain,
    fun other spelled => describes.writable.spelled.unique spelled, expands,
    describes.margins.regular describes.writable size⟩

theorem compress_regular_repetitive :
    let input : Bytes := #[5, 6] ++ Array.replicate 30 7
    let dictionary : Bytes := #[7, 7, 7, 7, 8, 9]
    ∃ script : Script, compress input dictionary (.high 9) = .ok script.block ∧
      (∀ other : Script, other.Spelled LastSequence script.block → other = script) ∧
      script.expand dictionary = dictionary ++ input ∧ script.Regular 6 32 := by
  intro input dictionary
  obtain ⟨script, compressed, -, -, unique, expands, regular⟩ :=
    compress_regular input dictionary (.high 9)
  have window : dictionaryWindow dictionary = dictionary := by decide
  rw [window] at expands regular
  exact ⟨script, compressed, unique, expands, regular⟩

end Lz4.Block
