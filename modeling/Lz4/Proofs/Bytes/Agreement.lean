import Lz4.Proofs.Bytes.Content
import Mathlib.Data.Nat.Find

/-!
# How far byte strings agree

The count of `Lz4.Bytes.agree` is exact: the bytes below it agree, and unless it is all that was
asked for, the bytes at it differ (`Lz4.Bytes.agreement_agree`). Comparing eight bytes at a time
relies on the lowest bit in which two words differ: it lies in the first byte in which they differ
(`Lz4.Bytes.agreement_lowestByteSet`). Of two parts of byte strings, of any lengths, the count is
the length of the longest common prefix (`Lz4.Bytes.commonFront_longest`). Backward counting is
treated the same way, for the bytes that agree (`Lz4.Bytes.byteAt_of_agreeBackward`).
-/

namespace Lz4.Bytes

variable {first second data : Bytes} {left right count length : Nat}

/-- The bytes at `left` and at `right` agree up to the first difference or up to `count`, and there
are `length` of them. -/
structure Agreement (first : Bytes) (left : Nat) (second : Bytes) (right count length : Nat) :
    Prop where
  length_le : length ≤ count
  same : ∀ index < length, first.byteAt (left + index) = second.byteAt (right + index)
  differ : length < count → first.byteAt (left + length) ≠ second.byteAt (right + length)

namespace Agreement

theorem zero (differ : first.byteAt left ≠ second.byteAt right) :
    Agreement first left second right count 0 :=
  ⟨Nat.zero_le _, fun _ inside => absurd inside (Nat.not_lt_zero _), fun _ => differ⟩

/-- An agreement goes on behind bytes that agree. -/
theorem add {before : Nat}
    (same : ∀ index < before, first.byteAt (left + index) = second.byteAt (right + index))
    (rest : Agreement first (left + before) second (right + before) count length) :
    Agreement first left second right (before + count) (before + length) := by
  have bound := rest.length_le
  refine ⟨by omega, ?_, ?_⟩
  · intro index inside
    by_cases early : index < before
    · exact same index early
    · obtain ⟨offset, rfl⟩ := Nat.exists_eq_add_of_le (Nat.le_of_not_lt early)
      simpa only [Nat.add_assoc] using rest.same offset (by omega)
  · intro short
    simpa only [Nat.add_assoc] using rest.differ (by omega)

end Agreement

theorem agreement_agreeBytewise (first : Bytes) (left : Nat) (second : Bytes)
    (right found count : Nat) :
    ∃ length, agreeBytewise first left second right found count = found + length ∧
      Agreement first left second right count length := by
  induction count generalizing left right found with
  | zero => exact ⟨0, rfl, Nat.le_refl _, by simp, by simp⟩
  | succ count ih =>
    rw [agreeBytewise]
    by_cases same : first.byteAt left = second.byteAt right
    · obtain ⟨length, counted, rest⟩ := ih (left + 1) (right + 1) (found + 1)
      rw [if_pos (beq_iff_eq.mpr same), counted]
      refine ⟨1 + length, Nat.add_assoc _ _ _, ?_⟩
      rw [Nat.add_comm count 1]
      apply Agreement.add _ rest
      intro index inside
      obtain rfl : index = 0 := by omega
      exact same
    · rw [if_neg (by simpa using same)]
      exact ⟨0, rfl, Agreement.zero same⟩

/-- The bytes of a word, one by one. -/
theorem natAt_div_mod (data : Bytes) (pos : Nat) {width index : Nat} (narrow : width ≤ 8)
    (inside : index < width) :
    data.natAt pos width / 256 ^ index % 256 = (data.byteAt (pos + index)).toNat := by
  induction index generalizing pos width with
  | zero =>
    obtain ⟨width, rfl⟩ := Nat.exists_eq_succ_of_ne_zero (Nat.ne_of_gt inside)
    have byte := (data.byteAt pos).toNat_lt
    rw [(natAt_succ data pos narrow).1, Nat.pow_zero, Nat.div_one]
    simp only [Nat.add_zero]
    omega
  | succ index ih =>
    obtain ⟨width, rfl⟩ := Nat.exists_eq_succ_of_ne_zero (Nat.ne_of_gt (Nat.zero_lt_of_lt inside))
    have byte := (data.byteAt pos).toNat_lt
    have rest : data.natAt pos (width + 1) / 256 = data.natAt (pos + 1) width := by
      rw [(natAt_succ data pos narrow).1]
      omega
    rw [Nat.pow_succ', ← Nat.div_div_eq_div_mul, rest,
      ih (pos + 1) (by omega) (Nat.lt_of_succ_lt_succ inside)]
    congr 2
    omega

/-- Two words agree in a byte when they agree in its bits. -/
theorem byteAt_eq_of_testBit {index : Nat} (inside : index < 8)
    (bits : ∀ bit, 8 * index ≤ bit → bit < 8 * index + 8 →
      (first.natAt left 8).testBit bit = (second.natAt right 8).testBit bit) :
    first.byteAt (left + index) = second.byteAt (right + index) := by
  apply UInt8.toNat_inj.mp
  rw [← natAt_div_mod first left (Nat.le_refl 8) inside,
    ← natAt_div_mod second right (Nat.le_refl 8) inside]
  have power : 256 ^ index = 2 ^ (8 * index) := by rw [Nat.pow_mul]
  apply Nat.eq_of_testBit_eq
  intro bit
  rw [power, show 256 = 2 ^ 8 from rfl]
  simp only [Nat.testBit_mod_two_pow, Nat.testBit_div_two_pow]
  by_cases low : bit < 8
  · rw [bits (bit + 8 * index) (by omega) (by omega)]
  · simp [low]

theorem testBit_eq_of_byteAt {index bit : Nat} (inside : index < 8)
    (same : first.byteAt (left + index) = second.byteAt (right + index)) (low : bit < 8) :
    (first.natAt left 8).testBit (8 * index + bit) =
      (second.natAt right 8).testBit (8 * index + bit) := by
  have bytes := congrArg (fun byte : UInt8 => byte.toNat.testBit bit) same
  simp only [← natAt_div_mod first left (Nat.le_refl 8) inside,
    ← natAt_div_mod second right (Nat.le_refl 8) inside] at bytes
  have power : 256 ^ index = 2 ^ (8 * index) := by rw [Nat.pow_mul]
  rw [power, show 256 = 2 ^ 8 from rfl] at bytes
  simpa only [Nat.testBit_mod_two_pow, Nat.testBit_div_two_pow, low, decide_true, Bool.true_and,
    Nat.add_comm bit] using bytes

/-- A word without all its bits but the lowest one keeps a bit exactly when none is below it. -/
theorem testBit_and_neg (word : UInt64) {bit : Nat} (inside : bit < 64) :
    (word &&& (0 - word)).toNat.testBit bit =
      (word.toNat.testBit bit && !decide (∃ lower < bit, word.toNat.testBit lower = true)) := by
  have bits : (word &&& (0 - word)).toNat = (word.toBitVec &&& -word.toBitVec).toNat := by simp
  rw [bits, BitVec.testBit_toNat, BitVec.getLsbD_and, BitVec.getLsbD_neg]
  simp only [BitVec.getLsbD, inside, decide_true, Bool.true_and, UInt64.toNat_toBitVec]
  cases word.toNat.testBit bit <;> simp

theorem lt_of_testBit {word : UInt64} {bit : Nat} (set : word.toNat.testBit bit = true) :
    bit < 64 := by
  by_contra large
  have small : word.toNat < 2 ^ bit :=
    Nat.lt_of_lt_of_le word.toNat_lt (Nat.pow_le_pow_right (by decide) (Nat.le_of_not_lt large))
  rw [Nat.testBit_lt_two_pow small] at set
  exact Bool.false_ne_true set

/-- The lowest bit of a word that is set, and the byte that it lies in. -/
theorem exists_lowest_bit {word : UInt64} (nonzero : word ≠ 0) :
    ∃ lowest, lowestByteSet word = lowest / 8 ∧ word.toNat.testBit lowest = true ∧
      ∀ bit < lowest, word.toNat.testBit bit = false := by
  have some : ∃ bit, word.toNat.testBit bit = true :=
    Nat.exists_testBit_of_ne_zero fun none => nonzero (UInt64.toNat_inj.mp none)
  classical
  have kept : (word &&& (0 - word)).toNat.testBit (Nat.find some) = true := by
    have set := Nat.find_spec some
    rw [testBit_and_neg word (lt_of_testBit set), set]
    simpa using fun lower => Nat.find_min some (m := lower)
  have nonzero : (word &&& (0 - word)).toNat ≠ 0 := by
    intro none
    rw [none, Nat.zero_testBit] at kept
    exact Bool.false_ne_true kept
  -- The isolated bit is the highest one of a word that has no other.
  have top := Nat.testBit_log2 nonzero
  have inside := lt_of_testBit top
  rw [testBit_and_neg word inside] at top
  simp only [Bool.and_eq_true, Bool.not_eq_true', decide_eq_false_iff_not, not_exists,
    not_and, Bool.not_eq_true] at top
  exact ⟨(word &&& (0 - word)).toNat.log2, rfl, top.1, top.2⟩

/-- The lowest byte in which two words differ is the first one in which the bytes they stand for
do. -/
theorem agreement_lowestByteSet
    (differ : first.word left 8 ^^^ second.word right 8 ≠ 0) (enough : 8 ≤ count) :
    Agreement first left second right count
      (lowestByteSet (first.word left 8 ^^^ second.word right 8)) := by
  obtain ⟨lowest, byte, set, below⟩ := exists_lowest_bit differ
  have inside := lt_of_testBit set
  have bits : ∀ bit, (first.word left 8 ^^^ second.word right 8).toNat.testBit bit =
      ((first.natAt left 8).testBit bit ^^ (second.natAt right 8).testBit bit) := by
    intro bit
    rw [UInt64.toNat_xor, Nat.testBit_xor]
    rfl
  rw [byte]
  refine ⟨by omega, ?_, ?_⟩
  · intro index early
    apply byteAt_eq_of_testBit (by omega)
    intro bit from_ until_
    have same := below bit (by omega)
    rw [bits] at same
    simpa using same
  · intro _ same
    have equal := testBit_eq_of_byteAt (by omega) same (Nat.mod_lt lowest (by decide : 0 < 8))
    rw [Nat.div_add_mod] at equal
    rw [bits, equal, Bool.xor_self] at set
    exact Bool.false_ne_true set

theorem byteAt_eq_of_word_eq {width index : Nat} (narrow : width ≤ 8)
    (same : first.word left width = second.word right width) (inside : index < width) :
    first.byteAt (left + index) = second.byteAt (right + index) := by
  apply UInt8.toNat_inj.mp
  rw [← natAt_div_mod first left narrow inside, ← natAt_div_mod second right narrow inside, natAt,
    natAt, same]

theorem agreement_agreeFrom (first : Bytes) (left : Nat) (second : Bytes)
    (right found count : Nat) :
    ∃ length, agreeFrom first left second right found count = found + length ∧
      Agreement first left second right count length := by
  rw [agreeFrom]
  by_cases enough : 8 ≤ count
  · rw [if_pos enough]
    extract_lets difference
    by_cases same : difference = 0
    · obtain ⟨length, counted, rest⟩ :=
        agreement_agreeFrom first (left + 8) second (right + 8) (found + 8) (count - 8)
      rw [if_pos (beq_iff_eq.mpr same), counted]
      refine ⟨8 + length, Nat.add_assoc _ _ _, ?_⟩
      rw [← Nat.add_sub_of_le enough]
      apply Agreement.add _ rest
      intro index inside
      exact byteAt_eq_of_word_eq (Nat.le_refl 8) (UInt64.xor_eq_zero_iff.mp same) inside
    · rw [if_neg (by simpa using same)]
      exact ⟨_, rfl, agreement_lowestByteSet same enough⟩
  · rw [if_neg enough]
    exact agreement_agreeBytewise first left second right found count
termination_by count

/-- The count is the length of the run on which the bytes agree. -/
theorem agreement_agree (first : Bytes) (left : Nat) (second : Bytes) (right count : Nat) :
    Agreement first left second right count (agree first left second right count) := by
  obtain ⟨length, counted, agreement⟩ := agreement_agreeFrom first left second right 0 count
  rw [agree, counted, Nat.zero_add]
  exact agreement

/-- The length of the longest common prefix. -/
def commonPrefix : List UInt8 → List UInt8 → Nat
  | [], _ => 0
  | _ :: _, [] => 0
  | a :: left, b :: right => if a = b then commonPrefix left right + 1 else 0

theorem commonPrefix_nil (first : List UInt8) : commonPrefix first [] = 0 := by
  cases first <;> rfl

theorem commonPrefix_replicate (byte : UInt8) (first second : Nat) :
    commonPrefix (List.replicate first byte) (List.replicate second byte) = min first second := by
  induction first generalizing second with
  | zero => rw [List.replicate_zero, commonPrefix, Nat.zero_min]
  | succ first ih =>
    cases second with
    | zero => rw [List.replicate_zero, commonPrefix_nil, Nat.min_zero]
    | succ second =>
      rw [List.replicate_succ, List.replicate_succ, commonPrefix, if_pos rfl, ih,
        Nat.add_min_add_right]

/-- There is a common prefix of every length up to this one, and of no other. -/
theorem exists_prefix_iff (first second : List UInt8) (length : Nat) :
    (∃ front, front <+: first ∧ front <+: second ∧ front.length = length) ↔
      length ≤ commonPrefix first second := by
  fun_induction commonPrefix first second generalizing length with
  | case1 second =>
    constructor
    · rintro ⟨front, inFirst, -, rfl⟩
      rw [List.prefix_nil.mp inFirst]
      exact Nat.le_refl 0
    · intro short
      exact ⟨[], List.nil_prefix, List.nil_prefix, (Nat.le_zero.mp short).symm⟩
  | case2 a first =>
    constructor
    · rintro ⟨front, -, inSecond, rfl⟩
      rw [List.prefix_nil.mp inSecond]
      exact Nat.le_refl 0
    · intro short
      exact ⟨[], List.nil_prefix, List.nil_prefix, (Nat.le_zero.mp short).symm⟩
  | case3 first b second ih =>
    cases length with
    | zero => exact iff_of_true ⟨[], List.nil_prefix, List.nil_prefix, rfl⟩ (Nat.zero_le _)
    | succ length =>
      rw [Nat.add_le_add_iff_right, ← ih]
      constructor
      · rintro ⟨_ | ⟨c, front⟩, inFirst, inSecond, size⟩
        · cases size
        · exact ⟨front, (List.cons_prefix_cons.mp inFirst).2, (List.cons_prefix_cons.mp inSecond).2,
            Nat.succ.inj size⟩
      · rintro ⟨front, inFirst, inSecond, rfl⟩
        exact ⟨b :: front, List.cons_prefix_cons.mpr ⟨rfl, inFirst⟩,
          List.cons_prefix_cons.mpr ⟨rfl, inSecond⟩, rfl⟩
  | case4 a first b second differ =>
    constructor
    · rintro ⟨_ | ⟨c, front⟩, inFirst, inSecond, rfl⟩
      · exact Nat.le_refl 0
      · exact absurd ((List.cons_prefix_cons.mp inFirst).1.symm.trans
          (List.cons_prefix_cons.mp inSecond).1) differ
    · intro short
      exact ⟨[], List.nil_prefix, List.nil_prefix, (Nat.le_zero.mp short).symm⟩

theorem toList_extract_cons {pos stop : Nat} (inside : pos < stop) (within : stop ≤ data.size) :
    (data.extract pos stop).toList = data.byteAt pos :: (data.extract (pos + 1) stop).toList := by
  have first : data.extract pos (pos + 1) = #[data.byteAt pos] := by
    apply eq_of_byteAt
    · rw [size_extract_add (by omega)]
      rfl
    · intro index here
      rw [size_extract_add (by omega)] at here
      obtain rfl : index = 0 := Nat.lt_one_iff.mp here
      exact byteAt_extract (by omega) (Nat.lt_succ_self pos)
  rw [← extract_append_extract (Nat.le_add_right pos 1) inside, first, Array.toList_append]
  rfl

theorem toList_extract_nil {pos stop : Nat} (past : stop ≤ pos) :
    (data.extract pos stop).toList = [] := by
  rw [Array.extract_eq_empty_of_le (Nat.le_trans (Nat.min_le_left _ _) past)]

namespace Agreement

/-- Behind a byte that is the same, the agreement is one byte shorter. -/
theorem behind (agreement : Agreement first left second right (count + 1) length)
    (same : first.byteAt left = second.byteAt right) :
    ∃ rest, length = rest + 1 ∧ Agreement first (left + 1) second (right + 1) count rest := by
  cases length with
  | zero => exact absurd same (agreement.differ (Nat.succ_pos count))
  | succ rest =>
    refine ⟨rest, rfl, Nat.le_of_succ_le_succ agreement.length_le, ?_, ?_⟩
    · intro index inside
      rw [Nat.add_right_comm, Nat.add_right_comm right]
      exact agreement.same (index + 1) (Nat.succ_lt_succ inside)
    · intro short
      rw [Nat.add_right_comm, Nat.add_right_comm right]
      exact agreement.differ (Nat.succ_lt_succ short)

theorem eq_zero (agreement : Agreement first left second right count length)
    (differ : first.byteAt left ≠ second.byteAt right) : length = 0 := by
  by_contra nonzero
  exact differ (agreement.same 0 (Nat.pos_of_ne_zero nonzero))

/-- The count is the length of the longest common prefix of what is compared, if that is as much as
the shorter of two parts. -/
theorem commonPrefix_eq {left leftStop right rightStop length : Nat}
    (agreement : Agreement first left second right (min (leftStop - left) (rightStop - right))
      length)
    (leftFits : leftStop ≤ first.size) (rightFits : rightStop ≤ second.size) :
    commonPrefix (first.extract left leftStop).toList (second.extract right rightStop).toList =
      length := by
  by_cases inFirst : left < leftStop
  · by_cases inSecond : right < rightStop
    · have more : min (leftStop - left) (rightStop - right) =
          min (leftStop - (left + 1)) (rightStop - (right + 1)) + 1 := by omega
      rw [more] at agreement
      rw [toList_extract_cons inFirst leftFits, toList_extract_cons inSecond rightFits]
      by_cases same : first.byteAt left = second.byteAt right
      · obtain ⟨rest, rfl, further⟩ := agreement.behind same
        rw [commonPrefix, if_pos same, commonPrefix_eq further leftFits rightFits]
      · rw [commonPrefix, if_neg same, agreement.eq_zero same]
    · have none := agreement.length_le
      rw [toList_extract_nil (Nat.le_of_not_lt inSecond), commonPrefix_nil]
      omega
  · have none := agreement.length_le
    rw [toList_extract_nil (Nat.le_of_not_lt inFirst), commonPrefix]
    omega
termination_by leftStop - left

end Agreement

theorem agreement_commonFront (first : Bytes) (left leftStop : Nat) (second : Bytes)
    (right rightStop : Nat) :
    Agreement first left second right (min (leftStop - left) (rightStop - right))
      (commonFront first left leftStop second right rightStop) :=
  agreement_agree first left second right _

theorem commonFront_eq_commonPrefix {leftStop rightStop : Nat} (leftFits : leftStop ≤ first.size)
    (rightFits : rightStop ≤ second.size) :
    commonFront first left leftStop second right rightStop =
      commonPrefix (first.extract left leftStop).toList (second.extract right rightStop).toList :=
  ((agreement_commonFront first left leftStop second right rightStop).commonPrefix_eq leftFits
    rightFits).symm

/-- Of two parts of byte strings, of any lengths, the bytes that are counted as the same at their
front are the longest common prefix. -/
theorem commonFront_longest {leftStop rightStop : Nat} (leftFits : leftStop ≤ first.size)
    (rightFits : rightStop ≤ second.size) :
    commonFront first left leftStop second right rightStop =
        commonPrefix (first.extract left leftStop).toList
          (second.extract right rightStop).toList ∧
      ∀ length,
        (∃ front, front <+: (first.extract left leftStop).toList ∧
          front <+: (second.extract right rightStop).toList ∧ front.length = length) ↔
        length ≤ commonFront first left leftStop second right rightStop := by
  have same := @commonFront_eq_commonPrefix first second left right _ _ leftFits rightFits
  refine ⟨same, fun length => ?_⟩
  rw [same]
  exact exists_prefix_iff _ _ length

/-- Ten bytes and thirteen bytes that differ first behind a word and another byte. -/
theorem commonFront_longest_nine :
    commonFront #[0, 1, 2, 3, 4, 5, 6, 7, 8, 9, 10] 1 11
      #[1, 2, 3, 4, 5, 6, 7, 8, 9, 11, 12, 13, 14] 0 13 = 9 :=
  (commonFront_longest (by decide) (by decide)).1.trans (by decide)

theorem byteAt_of_agreeBackwardFrom (data : Bytes) (found left right count : Nat) :
    ∃ length, agreeBackwardFrom data found left right count = found + length ∧
      length ≤ left ∧ length ≤ right ∧ length ≤ count ∧
      ∀ index < length,
        data.byteAt (left - length + index) = data.byteAt (right - length + index) := by
  fun_induction agreeBackwardFrom data found left right count with
  | case1 found left right count same ih =>
    obtain ⟨length, counted, inLeft, inRight, inCount, agree⟩ := ih
    refine ⟨length + 1, by omega, by omega, by omega, by omega, ?_⟩
    intro index inside
    rw [Nat.succ_sub_succ, Nat.succ_sub_succ]
    by_cases last : index = length
    · subst last
      rw [Nat.sub_add_cancel inLeft, Nat.sub_add_cancel inRight]
      exact beq_iff_eq.mp same
    · exact agree index (by omega)
  | case2 | case3 => exact ⟨0, rfl, Nat.zero_le _, Nat.zero_le _, Nat.zero_le _, by simp⟩

/-- The bytes counted backward agree, and there are no more of them than asked for. -/
theorem byteAt_of_agreeBackward (data : Bytes) (left right count : Nat) :
    data.agreeBackward left right count ≤ left ∧ data.agreeBackward left right count ≤ right ∧
      data.agreeBackward left right count ≤ count ∧
      ∀ index < data.agreeBackward left right count,
        data.byteAt (left - data.agreeBackward left right count + index) =
          data.byteAt (right - data.agreeBackward left right count + index) := by
  obtain ⟨length, counted, spec⟩ := byteAt_of_agreeBackwardFrom data 0 left right count
  rw [agreeBackward, counted, Nat.zero_add]
  exact spec

end Lz4.Bytes
