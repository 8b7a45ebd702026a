import Lz4.Bytes
import Mathlib.Algebra.Group.Nat.Defs

/-!
# What byte strings hold

Two byte strings are the same when they are of one size and agree at every position. A byte string
*holds* a piece at a position when the bytes from there on are those of the piece
(`Lz4.Bytes.Holds`); it holds two pieces one behind the other exactly when it holds what they make
up (`Lz4.Bytes.holds_append_iff`). A number written in little-endian order is read back wherever it
is held (`Lz4.Bytes.Holds.natAt_eq`).
-/

namespace Lz4

/-- What is put in a slot of an array leaves the other slots as they are. -/
theorem getD_setIfInBounds {α : Type} {slots : Array α} {index : Nat} (inside : index < slots.size)
    (value : α) (other : Nat) (default : α) :
    (slots.setIfInBounds index value).getD other default =
      if index = other then value else slots.getD other default := by
  rw [Array.getD_eq_getD_getElem?, Array.getElem?_setIfInBounds, Array.getD_eq_getD_getElem?]
  by_cases same : index = other
  · rw [if_pos same, if_pos same, if_pos inside, Option.getD_some]
  · rw [if_neg same, if_neg same]

namespace Bytes

variable {data first second piece : Bytes} {pos : Nat}

theorem byteAt_eq_getElem (inside : pos < data.size) : data.byteAt pos = data[pos] := by
  simp [byteAt, inside]

/-- Byte strings of one size that agree at every position are the same. -/
theorem eq_of_byteAt (sizes : first.size = second.size)
    (same : ∀ pos < first.size, first.byteAt pos = second.byteAt pos) : first = second := by
  apply Array.ext sizes
  intro pos inFirst inSecond
  rw [← byteAt_eq_getElem inFirst, ← byteAt_eq_getElem inSecond]
  exact same pos inFirst

theorem byteAt_append_left (inside : pos < first.size) :
    (first ++ second).byteAt pos = first.byteAt pos := by
  have longer : pos < (first ++ second).size := by
    rw [Array.size_append]
    omega
  rw [byteAt_eq_getElem longer, byteAt_eq_getElem inside, Array.getElem_append_left inside]

theorem byteAt_append_right (first second : Bytes) (pos : Nat) :
    (first ++ second).byteAt (first.size + pos) = second.byteAt pos := by
  simp only [byteAt, Array.getD_eq_getD_getElem?]
  rw [Array.getElem?_append_right (Nat.le_add_right _ _), Nat.add_sub_cancel_left]

theorem byteAt_extract {start stop : Nat} (within : stop ≤ data.size)
    (inside : start + pos < stop) :
    byteAt (data.extract start stop) pos = data.byteAt (start + pos) := by
  have short : pos < (data.extract start stop).size := by
    simp only [Array.size_extract]
    omega
  rw [byteAt_eq_getElem short, byteAt_eq_getElem (Nat.lt_of_lt_of_le inside within),
    Array.getElem_extract]

theorem size_extract_add {start count : Nat} (within : start + count ≤ data.size) :
    (data.extract start (start + count)).size = count := by
  rw [Array.size_extract_of_le within, Nat.add_sub_cancel_left]

/-- Neighbouring parts of a byte string make up one part. -/
theorem extract_append_extract {start middle stop : Nat} (onward : start ≤ middle)
    (further : middle ≤ stop) :
    data.extract start middle ++ data.extract middle stop = data.extract start stop := by
  rw [Array.extract_append_extract, Nat.min_eq_left onward, Nat.max_eq_right further]

theorem extract_of_size_le {start stop : Nat} (past : data.size ≤ stop) :
    data.extract start stop = data.extract start data.size := by
  rcases Nat.eq_or_lt_of_le past with ends | further
  · rw [← ends]
  · exact Array.extract_of_size_lt further

/-- A part reaches no further than the end. -/
theorem extract_min (data : Bytes) (start stop : Nat) :
    data.extract start (min stop data.size) = data.extract start stop := by
  by_cases past : data.size ≤ stop
  · rw [Nat.min_eq_right past, extract_of_size_le past]
  · rw [Nat.min_eq_left (Nat.le_of_not_le past)]

theorem extract_append_of_le {start stop : Nat} (inside : stop ≤ first.size) :
    (first ++ second).extract start stop = first.extract start stop := by
  rw [Array.extract_append, Nat.sub_eq_zero_of_le inside,
    Array.extract_eq_empty_of_le (Nat.le_trans (Nat.min_le_left _ _) (Nat.zero_le _)),
    Array.append_empty]

theorem extract_append_of_ge (first second : Bytes) (start stop : Nat) :
    (first ++ second).extract (first.size + start) (first.size + stop) =
      second.extract start stop := by
  rw [Array.extract_append, Nat.add_sub_cancel_left, Nat.add_sub_cancel_left,
    Array.extract_eq_empty_of_le (Nat.le_trans (Nat.min_le_right _ _) (Nat.le_add_right _ _)),
    Array.empty_append]

theorem dropFirst_zero (data : Bytes) : dropFirst data 0 = data := Array.extract_size

theorem dropFirst_of_size_le (past : data.size ≤ pos) : data.dropFirst pos = #[] :=
  Array.extract_eq_empty_of_le (Nat.le_trans (Nat.min_le_left _ _) past)

theorem dropFirst_append (front back : Bytes) : dropFirst (front ++ back) front.size = back := by
  rw [dropFirst, Array.size_append, Array.extract_append_right, Array.extract_size]

theorem dropFirst_append_of_le (within : pos ≤ first.size) :
    dropFirst (first ++ second) pos = dropFirst first pos ++ second := by
  rw [dropFirst, Array.extract_append, Nat.sub_eq_zero_of_le within, Array.size_append,
    Nat.add_sub_cancel_left, Array.extract_size, extract_of_size_le (Nat.le_add_right _ _),
    dropFirst]

theorem takeLast_append_of_le {count : Nat} (enough : count ≤ second.size) :
    takeLast (first ++ second) count = takeLast second count := by
  have start : (first ++ second).size - count = first.size + (second.size - count) := by
    rw [Array.size_append]
    omega
  rw [takeLast, start, Array.size_append, extract_append_of_ge, takeLast]

theorem takeLast_of_size_le {count : Nat} (few : data.size ≤ count) : takeLast data count = data := by
  rw [takeLast, Nat.sub_eq_zero_of_le few, Array.extract_size]

/-- The last bytes stand behind the others. -/
theorem extract_append_takeLast (data : Bytes) (count : Nat) :
    data.extract 0 (data.size - count) ++ takeLast data count = data := by
  rw [takeLast, extract_append_extract (Nat.zero_le _) (Nat.sub_le _ _), Array.extract_size]

/-- What does not count any more may be forgotten before something is added. -/
theorem takeLast_takeLast_append (data more : Bytes) (count : Nat) :
    takeLast (takeLast data count ++ more) count = takeLast (data ++ more) count := by
  by_cases few : data.size ≤ count
  · rw [takeLast_of_size_le few]
  · have parts := extract_append_takeLast data count
    have enough : count ≤ (takeLast data count ++ more).size := by
      rw [Array.size_append, size_takeLast]
      omega
    rw [← takeLast_append_of_le enough, ← Array.append_assoc, parts]

/-- What pieces make up. -/
def concat (pieces : List Bytes) : Bytes := pieces.foldl (· ++ ·) #[]

theorem foldl_append_eq_concat (pieces : List Bytes) (written : Bytes) :
    pieces.foldl (· ++ ·) written = written ++ concat pieces := by
  induction pieces generalizing written with
  | nil => simp [concat]
  | cons piece rest ih =>
    rw [concat, List.foldl_cons, List.foldl_cons, ih, ih (#[] ++ piece), Array.empty_append,
      Array.append_assoc]

@[simp] theorem concat_nil : concat [] = #[] := rfl

@[simp] theorem concat_cons (piece : Bytes) (rest : List Bytes) :
    concat (piece :: rest) = piece ++ concat rest := by
  rw [concat, List.foldl_cons, foldl_append_eq_concat, Array.empty_append]

@[simp] theorem concat_append (front back : List Bytes) :
    concat (front ++ back) = concat front ++ concat back := by
  induction front with
  | nil => simp
  | cons piece rest ih => simp [ih, Array.append_assoc]

/-- The bytes from a position on are those of a piece. -/
structure Holds (data : Bytes) (pos : Nat) (piece : Bytes) : Prop where
  within : pos + piece.size ≤ data.size
  same : ∀ index < piece.size, data.byteAt (pos + index) = piece.byteAt index

theorem holds_append_iff {front back : Bytes} :
    data.Holds pos (front ++ back) ↔
      data.Holds pos front ∧ data.Holds (pos + front.size) back := by
  constructor
  · intro held
    have within := held.within
    rw [Array.size_append] at within
    refine ⟨⟨by omega, ?_⟩, ⟨by omega, ?_⟩⟩
    · intro index inside
      rw [held.same index (by rw [Array.size_append]; omega), byteAt_append_left inside]
    · intro index inside
      rw [Nat.add_assoc, held.same (front.size + index) (by rw [Array.size_append]; omega),
        byteAt_append_right]
  · rintro ⟨inFront, inBack⟩
    have within := inBack.within
    refine ⟨by rw [Array.size_append]; omega, ?_⟩
    intro index inside
    rw [Array.size_append] at inside
    by_cases early : index < front.size
    · rw [byteAt_append_left early, inFront.same index early]
    · obtain ⟨offset, rfl⟩ := Nat.exists_eq_add_of_le (Nat.le_of_not_lt early)
      rw [byteAt_append_right, ← inBack.same offset (by omega), Nat.add_assoc]

/-- A byte string holds itself. -/
theorem holds_self (data : Bytes) : data.Holds 0 data :=
  ⟨by omega, fun index _ => by rw [Nat.zero_add]⟩

theorem holds_empty (within : pos ≤ data.size) : data.Holds pos #[] :=
  ⟨within, fun _ none => absurd none (Nat.not_lt_zero _)⟩

theorem holds_byte {byte : UInt8} (inside : pos < data.size) (same : data.byteAt pos = byte) :
    data.Holds pos #[byte] := by
  refine ⟨inside, ?_⟩
  intro index first
  obtain rfl : index = 0 := Nat.lt_one_iff.mp first
  exact same

/-- A piece is held behind what comes before it. -/
theorem holds_extract {count : Nat} (within : pos + count ≤ data.size) :
    data.Holds pos (data.extract pos (pos + count)) := by
  have size := size_extract_add within
  refine ⟨by rwa [size], ?_⟩
  intro index inside
  rw [size] at inside
  rw [byteAt_extract within (by omega)]

theorem holds_append_left (piece after : Bytes) : (piece ++ after).Holds 0 piece :=
  (holds_append_iff.mp (holds_self (piece ++ after))).1

theorem holds_append_right (before piece : Bytes) : (before ++ piece).Holds before.size piece := by
  have parts := holds_append_iff.mp (holds_self (before ++ piece))
  simpa using parts.2

/-- A little-endian number is its first byte plus 256 times the rest; nothing is lost while there
are at most eight bytes. -/
theorem natAt_succ (data : Bytes) (pos : Nat) {width : Nat} (narrow : width < 8) :
    data.natAt pos (width + 1) = (data.byteAt pos).toNat + 256 * data.natAt (pos + 1) width ∧
      data.natAt pos (width + 1) < 256 ^ (width + 1) := by
  have rest : data.natAt (pos + 1) width < 256 ^ width := by
    cases width with
    | zero => simp [natAt, word]
    | succ width => exact (natAt_succ data (pos + 1) (Nat.lt_of_succ_lt narrow)).2
  have room : 256 ^ width ≤ 256 ^ 7 := Nat.pow_le_pow_right (by decide) (by omega)
  have byte := (data.byteAt pos).toNat_lt
  have split : data.natAt pos (width + 1) =
      (data.byteAt pos).toNat + 256 * data.natAt (pos + 1) width := by
    simp only [natAt, word, UInt64.toNat_add, UInt64.toNat_mul, UInt8.toNat_toUInt64] at rest ⊢
    rw [show (256 : UInt64).toNat = 256 from rfl]
    omega
  refine ⟨split, ?_⟩
  rw [split, Nat.pow_succ]
  omega

theorem natAt_lt (data : Bytes) (pos : Nat) {width : Nat} (narrow : width ≤ 8) :
    data.natAt pos width < 256 ^ width := by
  cases width with
  | zero => simp [natAt, word]
  | succ width => exact (natAt_succ data pos narrow).2

/-- A field that lies in front is read as if nothing came behind. -/
theorem word_append_left {pos width : Nat} (inside : pos + width ≤ first.size) :
    (first ++ second).word pos width = first.word pos width := by
  induction width generalizing pos with
  | zero => rfl
  | succ width ih => rw [word, word, byteAt_append_left (by omega), ih (by omega)]

theorem natAt_append_left {pos width : Nat} (inside : pos + width ≤ first.size) :
    (first ++ second).natAt pos width = first.natAt pos width := by
  rw [natAt, natAt, word_append_left inside]

theorem ofNat_succ (width value : Nat) :
    ofNat (width + 1) value = #[UInt8.ofNat value] ++ ofNat width (value / 256) := by
  simp [ofNat, lowBytes]

/-- The bytes of a number are those that it is written with. -/
theorem holds_ofNat_natAt {width : Nat} (narrow : width ≤ 8) (within : pos + width ≤ data.size) :
    data.Holds pos (ofNat width (data.natAt pos width)) := by
  induction width generalizing pos with
  | zero => exact holds_empty within
  | succ width ih =>
    obtain ⟨split, -⟩ := natAt_succ data pos narrow
    have byte := (data.byteAt pos).toNat_lt
    have low : UInt8.ofNat (data.natAt pos (width + 1)) = data.byteAt pos := by
      apply UInt8.toNat_inj.mp
      rw [UInt8.toNat_ofNat', split]
      omega
    have high : data.natAt pos (width + 1) / 256 = data.natAt (pos + 1) width := by
      rw [split]
      omega
    have one : (#[data.byteAt pos] : Bytes).size = 1 := rfl
    rw [ofNat_succ, low, high, holds_append_iff, one]
    exact ⟨holds_byte (by omega) rfl, ih (by omega) (by omega)⟩

namespace Holds

theorem extract_eq (held : data.Holds pos piece) :
    data.extract pos (pos + piece.size) = piece := by
  have within := held.within
  apply eq_of_byteAt
  · rw [Array.size_extract]
    omega
  · intro index inside
    have short : index < piece.size := by
      rw [Array.size_extract] at inside
      omega
    rw [byteAt_extract within (by omega), held.same index short]

/-- What is held from the start to the end is the whole. -/
theorem eq_of_size (held : data.Holds 0 piece) (size : piece.size = data.size) : piece = data := by
  rw [← held.extract_eq, size, Nat.zero_add, Array.extract_size]

/-- What is held to the end is all that is left. -/
theorem dropFirst_of_size (held : data.Holds pos piece) (ends : pos + piece.size = data.size) :
    data.dropFirst pos = piece := by
  rw [dropFirst, ← ends, held.extract_eq]

/-- From where a piece is held, it comes first and then whatever is behind it. -/
theorem dropFirst_eq (held : data.Holds pos piece) :
    data.dropFirst pos = piece ++ data.dropFirst (pos + piece.size) := by
  rw [dropFirst, ← extract_append_extract (Nat.le_add_right pos piece.size) held.within,
    held.extract_eq, dropFirst]

theorem byteAt_eq {byte : UInt8} (held : data.Holds pos #[byte]) : data.byteAt pos = byte :=
  held.same 0 Nat.zero_lt_one

/-- A number that fits into its bytes is read back from where it was written. -/
theorem natAt_eq {width value : Nat} (narrow : width ≤ 8) (small : value < 256 ^ width)
    (held : data.Holds pos (ofNat width value)) : data.natAt pos width = value := by
  induction width generalizing pos value with
  | zero =>
    have zero : value = 0 := Nat.lt_one_iff.mp small
    simp [zero, natAt, word]
  | succ width ih =>
    rw [ofNat_succ, holds_append_iff] at held
    obtain ⟨first, rest⟩ := held
    rw [Nat.pow_succ'] at small
    have following : data.natAt (pos + 1) width = value / 256 :=
      ih (Nat.le_of_succ_le narrow) (Nat.div_lt_of_lt_mul small) rest
    have byte : (UInt8.ofNat value).toNat = value % 256 := UInt8.toNat_ofNat'
    rw [(natAt_succ data pos narrow).1, first.byteAt_eq, following, byte, Nat.mod_add_div]

end Holds

/-- A number that fits into its bytes is read back in front of anything. -/
theorem natAt_ofNat_append {width value : Nat} (narrow : width ≤ 8) (small : value < 256 ^ width)
    (rest : Bytes) : (ofNat width value ++ rest).natAt 0 width = value :=
  (holds_append_left (ofNat width value) rest).natAt_eq narrow small

/-- What comes first from a position on is held there, and what comes next is behind it. -/
theorem holds_of_dropFirst_eq {front back : Bytes} (here : data.dropFirst pos = front ++ back)
    (within : pos ≤ data.size) :
    data.Holds pos front ∧ data.dropFirst (pos + front.size) = back := by
  have whole : data = data.extract 0 pos ++ (front ++ back) := by
    rw [← here, dropFirst, extract_append_extract (Nat.zero_le pos) within, Array.extract_size]
  have before : (data.extract 0 pos).size = pos := Array.size_extract_of_le within
  have held := holds_append_right (data.extract 0 pos) (front ++ back)
  rw [← whole, before] at held
  have inFront := (holds_append_iff.mp held).1
  refine ⟨inFront, ?_⟩
  have parts := inFront.dropFirst_eq
  rwa [here, Array.append_right_inj, eq_comm] at parts

end Bytes

end Lz4
