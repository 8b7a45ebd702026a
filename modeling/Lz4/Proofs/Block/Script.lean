import Lz4.Proofs.Block.Copy
import Lz4.Proofs.Block.Length

/-!
# Scripts

A script is a block as a compressor means it, literals and matches in turn
(`Lz4.Block.Script`). It tells what it says in two ways: as the pieces that are written, and as the
text that it makes of the text before it, one byte at a time. The block of a script is hardly longer
than the text that it adds (`Lz4.Block.Script.size_block_le`).
-/

namespace Lz4.Block

open Bytes

/-- Literals and matches in turn, and literals at the end. -/
inductive Script where
  | last (literals : Bytes)
  | sequence (literals : Bytes) (found : Match) (rest : Script)

namespace Script

/-- What is written for a script. -/
def pieces : Script → List Bytes
  | last literals => lastPieces literals
  | sequence literals found rest => sequencePieces literals found ++ rest.pieces

def block (script : Script) : Bytes := concat script.pieces

/-- What a script makes of the text before it. -/
def expand (text : Bytes) : Script → Bytes
  | last literals => text ++ literals
  | sequence literals found rest =>
    rest.expand (copyBytewise (text ++ literals) found.distance found.length)

/-- How many bytes a script adds. -/
def contentSize : Script → Nat
  | last literals => literals.size
  | sequence literals found rest => literals.size + found.length + rest.contentSize

/-- Every match reaches back to one of the bytes of the text, of which so many are there at first,
or of what the script made so far. -/
def InReach (available : Nat) : Script → Prop
  | last _ => True
  | sequence literals found rest =>
    (1 ≤ found.distance ∧ found.distance ≤ available + literals.size) ∧
      rest.InReach (available + literals.size + found.length)

/-- Every match is long enough to be written, and reaches back to one of the last bytes of the
text, of which so many are there at first. -/
def Writable (available : Nat) : Script → Prop
  | last _ => True
  | sequence literals found rest =>
    (1 ≤ found.distance ∧ found.distance ≤ available + literals.size) ∧
      found.distance ≤ maxDistance ∧ minMatch ≤ found.length ∧
      rest.Writable (available + literals.size + found.length)

variable {script : Script} {text : Bytes} {available : Nat}

theorem Writable.inReach (writable : script.Writable available) : script.InReach available := by
  induction script generalizing available with
  | last literals => trivial
  | sequence literals found rest ih =>
    obtain ⟨reach, -, -, further⟩ := writable
    exact ⟨reach, ih further⟩

theorem InReach.mono {more : Nat} (inReach : script.InReach available) (grown : available ≤ more) :
    script.InReach more := by
  induction script generalizing available more with
  | last literals => trivial
  | sequence literals found rest ih =>
    obtain ⟨⟨positive, reach⟩, further⟩ := inReach
    exact ⟨⟨positive, by omega⟩, ih further (by omega)⟩

/-- A script adds to the text. -/
theorem exists_expand (script : Script) (text : Bytes) :
    ∃ added, script.expand text = text ++ added ∧ added.size = script.contentSize := by
  induction script generalizing text with
  | last literals => exact ⟨literals, rfl, rfl⟩
  | sequence literals found rest ih =>
    obtain ⟨copied, copy, size⟩ :=
      exists_copyBytewise (text ++ literals) found.distance found.length
    obtain ⟨added, grown, more⟩ := ih (text ++ literals ++ copied)
    refine ⟨literals ++ copied ++ added, ?_, ?_⟩
    · rw [expand, copy, grown]
      simp only [Array.append_assoc]
    · simp only [Array.size_append, size, more, contentSize]

theorem size_expand (script : Script) (text : Bytes) :
    (script.expand text).size = text.size + script.contentSize := by
  obtain ⟨added, grown, size⟩ := script.exists_expand text
  rw [grown, Array.size_append, size]

/-- Text that no match reaches stays in front. -/
theorem expand_append (front : Bytes) (inReach : script.InReach text.size) :
    script.expand (front ++ text) = front ++ script.expand text := by
  induction script generalizing text with
  | last literals => exact Array.append_assoc
  | sequence literals found rest ih =>
    obtain ⟨⟨positive, reach⟩, further⟩ := inReach
    rw [← Array.size_append] at reach further
    have copied := repeats_copyBytewise positive reach found.length
    rw [← copied.size] at further
    have reachFront : found.distance ≤ (front ++ (text ++ literals)).size := by
      rw [Array.size_append]
      omega
    have same := (repeats_copyBytewise positive reachFront found.length).unique positive reachFront
      (copied.append_left front reach)
    rw [expand, expand, Array.append_assoc, same, ih further]

end Script

theorem concat_lastPieces (literals : Bytes) :
    concat (lastPieces literals) =
      token literals.size 0 ++ (concat (Length.pieces literals.size) ++ literals) := by
  simp [lastPieces]

theorem concat_sequencePieces (literals : Bytes) (found : Match) :
    concat (sequencePieces literals found) =
      token literals.size (found.length - minMatch) ++
        (concat (Length.pieces literals.size) ++ (literals ++ (Bytes.ofNat 2 found.distance ++
          concat (Length.pieces (found.length - minMatch))))) := by
  simp [sequencePieces]

namespace Script

variable {script : Script} {available : Nat}

/-- A sequence with a match takes no more than what it stands for and a byte for every 255
literals. -/
theorem size_concat_sequencePieces_le (literals : Bytes) {found : Match}
    (long : minMatch ≤ found.length) :
    255 * (concat (sequencePieces literals found)).size ≤
      256 * literals.size + 255 * found.length := by
  have four : minMatch = 4 := rfl
  have token : ∀ literals extra, (token literals extra).size = 1 := fun _ _ => rfl
  rw [concat_sequencePieces]
  simp only [Array.size_append, token, size_ofNat, Length.size_concat_pieces]
  split <;> split <;> omega

theorem size_concat_lastPieces_le (literals : Bytes) :
    255 * (concat (lastPieces literals)).size ≤ 256 * literals.size + 495 := by
  have token : ∀ literals extra, (token literals extra).size = 1 := fun _ _ => rfl
  rw [concat_lastPieces]
  simp only [Array.size_append, token, Length.size_concat_pieces]
  split <;> omega

theorem size_block_mul_le (writable : script.Writable available) :
    255 * script.block.size ≤ 256 * script.contentSize + 495 := by
  induction script generalizing available with
  | last literals => exact size_concat_lastPieces_le literals
  | sequence literals found rest ih =>
    obtain ⟨-, -, long, further⟩ := writable
    have here := size_concat_sequencePieces_le literals long
    have there := ih further
    rw [block] at there
    rw [block, pieces, concat_append, Array.size_append, contentSize]
    omega

/-- A block takes two bytes and one for every 255 bytes of its content more than the content. -/
theorem size_block_le (writable : script.Writable available) :
    script.block.size ≤ script.contentSize + script.contentSize / 255 + 2 := by
  have bound := size_block_mul_le writable
  omega

/-- A block starts with a token. -/
theorem size_block_pos (script : Script) : 0 < script.block.size := by
  cases script with
  | last literals =>
    rw [block, pieces, concat_lastPieces, Array.size_append]
    exact Nat.add_pos_left Nat.zero_lt_one _
  | sequence literals found rest =>
    rw [block, pieces, concat_append, concat_sequencePieces, Array.size_append, Array.size_append]
    exact Nat.add_pos_left (Nat.add_pos_left Nat.zero_lt_one _) _

end Script

end Lz4.Block
