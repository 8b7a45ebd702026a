import Lz4.Block.Sequence
import Lz4.Proofs.Bytes.Content

/-!
# Length codes

What follows the nibble of a length is a run of full bytes and one byte below 255
(`Lz4.Block.Length.concat_runPieces`), in whatever pieces it was written. That is how a length is
spelled (`Lz4.Block.Length.Spelled`). Wherever it is spelled, it is read back, and the position is
left behind it (`Lz4.Block.Length.Spelled.read`); and nothing else is read as a length
(`Lz4.Block.Length.spelled_of_read`). The nibble comes back from the half of a token where it was
noted, and the other half keeps what it holds (`Lz4.Block.Length.read_note_pieces`).
-/

namespace Lz4.Block

open Bytes

namespace Half

/-- The other half of a token. -/
def other : Half → Half
  | high => low
  | low => high

/-- What a half of a token holds. -/
def get : Half → UInt8 → Nat
  | high, token => token.toNat / 16
  | low, token => token.toNat % 16

theorem get_or (half : Half) (first second : UInt8) :
    half.get (first ||| second) = half.get first ||| half.get second := by
  cases half with
  | high =>
    rw [get, UInt8.toNat_or]
    exact Nat.or_div_two_pow (n := 4)
  | low =>
    rw [get, UInt8.toNat_or]
    exact Nat.or_mod_two_pow (n := 4)

end Half

namespace Length

theorem nibble_lt (value : Nat) : nibble value < 16 := by
  rw [nibble]
  omega

/-- The bits of a nibble lie in the half that it is moved to. -/
theorem get_shifted_nibble (half : Half) (value : Nat) :
    half.get (UInt8.ofNat (nibble value) <<< half.shift) = nibble value ∧
      half.other.get (UInt8.ofNat (nibble value) <<< half.shift) = 0 := by
  have small := nibble_lt value
  have byte : (UInt8.ofNat (nibble value)).toNat = nibble value := by
    rw [UInt8.toNat_ofNat', Nat.mod_eq_of_lt (by omega)]
  cases half with
  | high =>
    have moved : (UInt8.ofNat (nibble value) <<< Half.high.shift).toNat = nibble value * 16 := by
      rw [UInt8.toNat_shiftLeft, byte, Nat.shiftLeft_eq]
      exact Nat.mod_eq_of_lt (Nat.mul_lt_mul_of_pos_right small (by decide))
    rw [Half.get, Half.other, Half.get, moved]
    omega
  | low =>
    have kept : (UInt8.ofNat (nibble value) <<< Half.low.shift).toNat = nibble value := by
      rw [UInt8.toNat_shiftLeft, byte]
      change nibble value % 256 = nibble value
      exact Nat.mod_eq_of_lt (by omega)
    rw [Half.get, Half.other, Half.get, kept]
    omega

/-- A half that is clear holds what is noted there. -/
theorem get_note {token : UInt8} {half : Half} (clear : half.get token = 0) (value : Nat) :
    half.get (note token half value) = nibble value := by
  rw [note, Half.get_or, clear, (get_shifted_nibble half value).1, Nat.zero_or]

/-- What is noted in one half leaves the other as it is. -/
theorem get_other_note (token : UInt8) (half : Half) (value : Nat) :
    half.other.get (note token half value) = half.other.get token := by
  rw [note, Half.get_or, (get_shifted_nibble half value).2, Nat.or_zero]

/-- The bytes that follow a nibble of fifteen: as many full ones as fit, and what is left. -/
theorem concat_runPieces (rest : Nat) :
    concat (runPieces rest) =
      Array.replicate (rest / 255) 255 ++ #[UInt8.ofNat (rest % 255)] := by
  fun_induction runPieces rest with
  | case1 rest large ih =>
    have four : (#[255, 255, 255, 255] : Bytes) = Array.replicate 4 255 := rfl
    have count : 4 + (rest - 1020) / 255 = rest / 255 := by omega
    have last : (rest - 1020) % 255 = rest % 255 := by omega
    rw [concat_cons, ih, four, ← Array.append_assoc, Array.replicate_append_replicate, count, last]
  | case2 rest small large ih =>
    have one : (#[255] : Bytes) = Array.replicate 1 255 := rfl
    have count : 1 + (rest - 255) / 255 = rest / 255 := by omega
    have last : (rest - 255) % 255 = rest % 255 := by omega
    rw [concat_cons, ih, one, ← Array.append_assoc, Array.replicate_append_replicate, count, last]
  | case3 rest notFour notOne =>
    have none : rest / 255 = 0 := by omega
    have all : rest % 255 = rest := by omega
    simp [none, all]

/-- How many bytes a length takes behind its nibble. -/
theorem size_concat_pieces (value : Nat) :
    (concat (pieces value)).size = if value < 15 then 0 else 1 + (value - 15) / 255 := by
  unfold pieces
  split
  · rfl
  · simp [concat_runPieces, Nat.add_comm]

/-- One full byte more, in front of the others. -/
theorem replicate_succ_front (full : Nat) :
    Array.replicate (full + 1) (255 : UInt8) = #[255] ++ Array.replicate full 255 := by
  rw [Nat.add_comm, ← Array.replicate_append_replicate]
  rfl

theorem readRun_of_holds {data : Bytes} {pos full : Nat} {last : UInt8} (sum : Nat)
    (ends : last ≠ 255) (held : data.Holds pos (Array.replicate full 255 ++ #[last])) :
    readRun data pos sum = .ok (sum + 255 * full + last.toNat, pos + full + 1) := by
  induction full generalizing pos sum with
  | zero =>
    have held : data.Holds pos #[last] := by simpa using held
    have inside : pos < data.size := held.within
    rw [readRun]
    simp [inside, held.byteAt_eq, ends]
  | succ full ih =>
    rw [replicate_succ_front, Array.append_assoc, holds_append_iff] at held
    obtain ⟨here, rest⟩ := held
    have inside : pos < data.size := here.within
    rw [readRun, dif_pos inside]
    simp only [here.byteAt_eq, ↓reduceIte]
    have onward : readRun data (pos + 1) (sum + 255) = _ := ih (sum + 255) rest
    rw [onward]
    congr 2 <;> omega

/-- A run is refused only because the data end in it. -/
theorem eq_truncated_of_readRun {data : Bytes} {pos sum : Nat} {error : Error}
    (refused : readRun data pos sum = .error error) :
    error = .corruptInput data.size .truncated := by
  fun_induction readRun data pos sum with
  | case1 pos sum inside byte full ih => exact ih refused
  | case2 pos sum inside byte notFull => cases refused
  | case3 pos sum outside =>
    cases refused
    rfl

theorem eq_truncated_of_read {data : Bytes} {pos nibble : Nat} {error : Error}
    (refused : read data pos nibble = .error error) :
    error = .corruptInput data.size .truncated := by
  unfold read at refused
  split at refused
  · exact eq_truncated_of_readRun refused
  · cases refused

/-- What a run is read as stands there: full bytes and one byte below 255. -/
theorem holds_of_readRun {data : Bytes} {pos sum value next : Nat}
    (found : readRun data pos sum = .ok (value, next)) :
    ∃ (full : Nat) (last : UInt8), last ≠ 255 ∧
      data.Holds pos (Array.replicate full 255 ++ #[last]) ∧
      value = sum + 255 * full + last.toNat ∧ next = pos + full + 1 := by
  fun_induction readRun data pos sum with
  | case1 pos sum inside byte isFull ih =>
    obtain ⟨full, last, ends, held, value_eq, next_eq⟩ := ih found
    refine ⟨full + 1, last, ends, ?_, by omega, by omega⟩
    rw [replicate_succ_front, Array.append_assoc, holds_append_iff]
    exact ⟨holds_byte inside isFull, held⟩
  | case2 pos sum inside byte notFull =>
    simp only [Except.ok.injEq, Prod.mk.injEq] at found
    refine ⟨0, byte, notFull, ?_, by omega, by omega⟩
    rw [Array.replicate_zero, Array.empty_append]
    exact holds_byte inside rfl
  | case3 pos sum outside => cases found

/-- What is refused is full bytes to the end. -/
theorem holds_of_readRun_error {data : Bytes} {pos sum : Nat} {error : Error}
    (within : pos ≤ data.size) (refused : readRun data pos sum = .error error) :
    data.Holds pos (Array.replicate (data.size - pos) 255) := by
  fun_induction readRun data pos sum with
  | case1 pos sum inside byte full ih =>
    have first : Array.replicate (data.size - pos) (255 : UInt8) =
        #[255] ++ Array.replicate (data.size - (pos + 1)) 255 := by
      rw [← replicate_succ_front]
      congr 1
      omega
    rw [first, holds_append_iff]
    exact ⟨holds_byte inside full, ih inside refused⟩
  | case2 pos sum inside byte notFull => cases refused
  | case3 pos sum outside =>
    rw [Nat.sub_eq_zero_of_le (Nat.le_of_not_lt outside), Array.replicate_zero]
    exact holds_empty within

/-- What comes of reading a length at a position: a nibble that is not full, as it is; the sum of a
full one, of the full bytes there and of the byte that ends them; or, where there is no such byte, a
refusal at the end of the data. -/
inductive Reading (data : Bytes) (pos : Nat) : Nat → Except Error (Nat × Nat) → Prop
  | short {nibble : Nat} (rest : nibble ≠ 15) : Reading data pos nibble (.ok (nibble, pos))
  | long {full : Nat} {last : UInt8} (ends : last ≠ 255)
    (held : data.Holds pos (Array.replicate full 255 ++ #[last])) :
    Reading data pos 15 (.ok (15 + 255 * full + last.toNat, pos + full + 1))
  | truncated (held : data.Holds pos (Array.replicate (data.size - pos) 255)) :
    Reading data pos 15 (.error (.corruptInput data.size .truncated))

theorem reading_read {data : Bytes} {pos : Nat} (within : pos ≤ data.size) (nibble : Nat) :
    Reading data pos nibble (read data pos nibble) := by
  unfold read
  split
  · rename_i more
    subst more
    cases result : readRun data pos 15 with
    | error error =>
      rw [eq_truncated_of_readRun result]
      exact .truncated (holds_of_readRun_error within result)
    | ok found =>
      obtain ⟨value, next⟩ := found
      obtain ⟨full, last, ends, held, rfl, rfl⟩ := holds_of_readRun result
      exact .long ends held
  · rename_i few
    exact .short few

/-- How a length is spelled: the nibble in a token, and the bytes that go on where the nibble does
not suffice. -/
inductive Spelled : Nat → Nat → Bytes → Prop
  | short {value : Nat} (small : value < 15) : Spelled value value #[]
  | long (full : Nat) {last : UInt8} (ends : last ≠ 255) :
    Spelled (15 + 255 * full + last.toNat) 15 (Array.replicate full 255 ++ #[last])

/-- A length is spelled as it is written. -/
theorem spelled_pieces (value : Nat) : Spelled value (nibble value) (concat (pieces value)) := by
  unfold pieces nibble
  by_cases short : value < 15
  · have nibble : min value 15 = value := by omega
    rw [nibble, if_pos short]
    exact .short short
  · have nibble : min value 15 = 15 := by omega
    have small : (value - 15) % 255 < 255 := Nat.mod_lt _ (by decide)
    have byte : (UInt8.ofNat ((value - 15) % 255)).toNat = (value - 15) % 255 := by
      rw [UInt8.toNat_ofNat', Nat.mod_eq_of_lt (by omega)]
    have ends : UInt8.ofNat ((value - 15) % 255) ≠ 255 := by
      intro full
      rw [full] at byte
      have : (255 : UInt8).toNat = 255 := rfl
      omega
    have spelled := Spelled.long ((value - 15) / 255) ends
    have whole : 15 + 255 * ((value - 15) / 255) + (value - 15) % 255 = value := by omega
    rw [byte, whole] at spelled
    rwa [nibble, if_neg short, concat_runPieces]

/-- A length is read back wherever it is spelled. -/
theorem Spelled.read {data code : Bytes} {pos value nibble : Nat}
    (spelled : Spelled value nibble code) (held : data.Holds pos code) :
    Length.read data pos nibble = .ok (value, pos + code.size) := by
  cases spelled with
  | short small => rw [Length.read, if_neg (by omega)]; rfl
  | long full ends =>
    rw [Length.read, if_pos rfl, readRun_of_holds 15 ends held, Array.size_append,
      Array.size_replicate]
    rfl

/-- A length is told apart from what follows it. -/
theorem Spelled.append_inj {value other nibble : Nat} {code otherCode rest otherRest : Bytes}
    (spelled : Spelled value nibble code) (again : Spelled other nibble otherCode)
    (same : code ++ rest = otherCode ++ otherRest) :
    value = other ∧ code = otherCode ∧ rest = otherRest := by
  have read := spelled.read (holds_append_left code rest)
  have readOther := again.read (holds_append_left otherCode otherRest)
  rw [← same, read] at readOther
  simp only [Except.ok.injEq, Prod.mk.injEq, Nat.add_left_cancel_iff] at readOther
  obtain ⟨values, sizes⟩ := readOther
  obtain ⟨codes, rests⟩ := Array.append_inj same sizes
  exact ⟨values, codes, rests⟩

/-- What is read as a length spells it. -/
theorem spelled_of_read {data : Bytes} {pos nibble value next : Nat} (half : nibble < 16)
    (within : pos ≤ data.size) (found : read data pos nibble = .ok (value, next)) :
    ∃ code, Spelled value nibble code ∧ data.Holds pos code ∧ next = pos + code.size := by
  unfold read at found
  split at found
  · rename_i more
    subst more
    obtain ⟨full, last, ends, held, rfl, rfl⟩ := holds_of_readRun found
    refine ⟨_, .long full ends, held, ?_⟩
    rw [Array.size_append, Array.size_replicate]
    rfl
  · simp only [Except.ok.injEq, Prod.mk.injEq] at found
    obtain ⟨rfl, rfl⟩ := found
    exact ⟨#[], .short (by omega), holds_empty within, rfl⟩

theorem le_size_of_read {data : Bytes} {pos nibble value next : Nat} (half : nibble < 16)
    (within : pos ≤ data.size) (found : read data pos nibble = .ok (value, next)) :
    next ≤ data.size := by
  obtain ⟨code, -, held, rfl⟩ := spelled_of_read half within found
  exact held.within

/-- A length is read back from the half of a token where it was noted and the bytes that were written
for what the half does not hold, whatever stands before and behind them, and the position is left
where they end; the other half of the token is as it was. There are no such bytes below fifteen, and
from there on one, and one more for every 255. Whatever is read as a length, wherever it stands, is
the sum of its nibble, of the full bytes behind it and of the byte that ends them, and where there is
no such byte, the data are refused at their end. -/
theorem read_note_pieces {token : UInt8} {half : Half} (clear : half.get token = 0) (value : Nat)
    (before rest : Bytes) :
    half.other.get (note token half value) = half.other.get token ∧
      read (before ++ concat (pieces value) ++ rest) before.size
          (half.get (note token half value)) =
        .ok (value, (before ++ concat (pieces value)).size) ∧
      (concat (pieces value)).size = (if value < 15 then 0 else 1 + (value - 15) / 255) ∧
      ∀ (data : Bytes) (pos nibble : Nat), pos ≤ data.size →
        Reading data pos nibble (read data pos nibble) := by
  refine ⟨get_other_note token half value, ?_, size_concat_pieces value,
    fun data pos nibble within => reading_read within nibble⟩
  have held : (before ++ concat (pieces value) ++ rest).Holds before.size
      (concat (pieces value)) := by
    rw [Array.append_assoc]
    exact (holds_append_iff.mp (holds_append_right before _)).1
  rw [get_note clear, (spelled_pieces value).read held, Array.size_append]

/-- A length of 1300 takes six bytes behind the low half of a token whose high half is in use. Two
full bytes at the end of the data are no length. -/
theorem read_note_pieces_long :
    Half.low.get 0xA0 = 0 ∧ Half.high.get (note 0xA0 .low 1300) = 10 ∧
      read (#[7] ++ concat (pieces 1300) ++ #[255]) 1 (Half.low.get (note 0xA0 .low 1300)) =
        .ok (1300, (#[7] ++ concat (pieces 1300)).size) ∧
      (concat (pieces 1300)).size = 6 ∧
      read #[0xFF, 255, 255] 1 15 = .error (.corruptInput 3 .truncated) := by
  obtain ⟨other, back, size, reads⟩ :=
    @read_note_pieces 0xA0 .low (by decide) 1300 #[7] #[255]
  refine ⟨by decide, other, back, size, ?_⟩
  have reading := reads #[0xFF, 255, 255] 1 15 (by decide)
  generalize read #[0xFF, 255, 255] 1 15 = result at reading
  cases reading with
  | short few => exact absurd rfl few
  | @long full last ends held =>
    have stands := (holds_append_iff.mp held).2
    have few := stands.within
    rw [Array.size_replicate] at stands few
    obtain rfl | rfl : full = 0 ∨ full = 1 := by
      change 1 + full + 1 ≤ 3 at few
      omega
    · exact absurd (stands.byteAt_eq.symm.trans (by decide)) ends
    · exact absurd (stands.byteAt_eq.symm.trans (by decide)) ends
  | truncated => rfl

end Length

end Lz4.Block
