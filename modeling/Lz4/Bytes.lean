/-!
# Byte strings

Byte strings are arrays of bytes. This module holds the few operations on them that the block
and frame formats share: numbers in little-endian order, the last bytes of a string, and the
length of the run on which two strings agree.
-/

namespace Lz4

/-- A byte string. -/
abbrev Bytes := Array UInt8

namespace Bytes

/-- The byte at a position, zero past the end. -/
@[inline] def byteAt (data : Bytes) (pos : Nat) : UInt8 := data.getD pos 0

/-- The bytes from a position to the end. -/
def dropFirst (data : Bytes) (count : Nat) : Bytes := data.extract count data.size

/-- The last `count` bytes, or all of them if there are fewer. -/
def takeLast (data : Bytes) (count : Nat) : Bytes := data.extract (data.size - count) data.size

@[simp] theorem size_takeLast (data : Bytes) (count : Nat) :
    (takeLast data count).size = min count data.size := by
  simp [takeLast]; omega

@[simp] theorem size_dropFirst (data : Bytes) (count : Nat) :
    (dropFirst data count).size = data.size - count := by
  simp [dropFirst]

/-- The number stored in `width` bytes at a position, least significant byte first.
Bytes past the end count as zero. -/
def word (data : Bytes) (pos : Nat) : Nat → UInt64
  | 0 => 0
  | width + 1 => (byteAt data pos).toUInt64 + 256 * word data (pos + 1) width

/-- The natural number stored in `width` bytes at a position, for widths up to eight. -/
def natAt (data : Bytes) (pos width : Nat) : Nat := (word data pos width).toNat

/-- The `width` low bytes of a number, least significant byte first. -/
def lowBytes : Nat → Nat → List UInt8
  | 0, _ => []
  | width + 1, value => UInt8.ofNat value :: lowBytes width (value / 256)

/-- A number as a little-endian field of `width` bytes. -/
def ofNat (width value : Nat) : Bytes := (lowBytes width value).toArray

@[simp] theorem length_lowBytes (width value : Nat) : (lowBytes width value).length = width := by
  induction width generalizing value with
  | zero => rfl
  | succ width ih => simp [lowBytes, ih]

@[simp] theorem size_ofNat (width value : Nat) : (ofNat width value).size = width := by
  simp [ofNat]

/-- Counts on from `found` while the bytes at `left` and at `right` agree, one by one, for at most
`count` bytes. -/
def agreeBytewise (first : Bytes) (left : Nat) (second : Bytes) (right found : Nat) : Nat → Nat
  | 0 => found
  | count + 1 =>
    if byteAt first left == byteAt second right then
      agreeBytewise first (left + 1) second (right + 1) (found + 1) count
    else found

/-- The index of the lowest byte of a nonzero word that is not zero. -/
def lowestByteSet (difference : UInt64) : Nat :=
  (difference &&& (0 - difference)).log2.toNat / 8

/-- Counts on from `found` while the bytes at `left` and at `right` agree, for at most `count`
bytes. Eight bytes are compared at a time while there are as many; in a pair of words that differ,
the lowest byte of their exclusive or that is not zero is the first difference. -/
def agreeFrom (first : Bytes) (left : Nat) (second : Bytes) (right found count : Nat) : Nat :=
  if 8 ≤ count then
    let difference := word first left 8 ^^^ word second right 8
    if difference == 0 then
      agreeFrom first (left + 8) second (right + 8) (found + 8) (count - 8)
    else
      found + lowestByteSet difference
  else
    agreeBytewise first left second right found count
termination_by count

/-- How many of the bytes at `left` and at `right` agree, up to the first difference and at most
`count`. -/
def agree (first : Bytes) (left : Nat) (second : Bytes) (right count : Nat) : Nat :=
  agreeFrom first left second right 0 count

/-- How many bytes are the same at the front of two parts, the bytes of the first string from `left`
up to `leftStop` and those of the second from `right` up to `rightStop`. The shorter part may be the
front of the other. -/
def commonFront (first : Bytes) (left leftStop : Nat) (second : Bytes) (right rightStop : Nat) :
    Nat :=
  agree first left second right (min (leftStop - left) (rightStop - right))

/-- Counts on from `found` while the bytes before `left` and before `right` agree, going
backwards, for at most `count` bytes. -/
def agreeBackwardFrom (data : Bytes) (found : Nat) : Nat → Nat → Nat → Nat
  | left + 1, right + 1, count + 1 =>
    if byteAt data left == byteAt data right then
      agreeBackwardFrom data (found + 1) left right count
    else found
  | _, _, _ => found

/-- How many of the bytes before `left` and before `right` agree, going backwards, at most
`count`. -/
def agreeBackward (data : Bytes) (left right count : Nat) : Nat :=
  agreeBackwardFrom data 0 left right count

end Bytes

end Lz4
