import Lz4.Bytes

/-!
# Checksums

The 32-bit xxHash with seed zero, which the frame format uses for headers, blocks and content. Four
lanes take in stripes of sixteen bytes; what does not fill a stripe is mixed in at the end. A
`Hasher` is fed byte by byte, so the checksum of data that arrive in pieces is the checksum of the
pieces put together (`Hasher.update_append`).
-/

namespace Lz4

namespace Checksum

/-- The five constants of the hash. -/
def prime1 : UInt32 := 2654435761

@[inherit_doc prime1] def prime2 : UInt32 := 2246822519

@[inherit_doc prime1] def prime3 : UInt32 := 3266489917

@[inherit_doc prime1] def prime4 : UInt32 := 668265263

@[inherit_doc prime1] def prime5 : UInt32 := 374761393

/-- The bits of a word moved left, those that fall out coming back in on the right. -/
@[inline] def rotate (word : UInt32) (amount : UInt32) : UInt32 :=
  (word <<< amount) ||| (word >>> (32 - amount))

/-- One lane after taking in a word. -/
@[inline] def round (lane word : UInt32) : UInt32 := prime1 * rotate (lane + prime2 * word) 13

/-- The four lanes. -/
structure Lanes where
  first : UInt32
  second : UInt32
  third : UInt32
  fourth : UInt32
  deriving Repr, DecidableEq

namespace Lanes

/-- The lanes before any data. -/
def initial : Lanes := ⟨prime1 + prime2, prime2, 0, 0 - prime1⟩

/-- The lanes after a stripe, each taking in one of its four words. -/
def absorb (lanes : Lanes) (stripe : Bytes) : Lanes where
  first := round lanes.first (stripe.word 0 4).toUInt32
  second := round lanes.second (stripe.word 4 4).toUInt32
  third := round lanes.third (stripe.word 8 4).toUInt32
  fourth := round lanes.fourth (stripe.word 12 4).toUInt32

/-- The four lanes as one word. -/
def merge (lanes : Lanes) : UInt32 :=
  rotate lanes.first 1 + rotate lanes.second 7 + rotate lanes.third 12 + rotate lanes.fourth 18

end Lanes

/-- How many bytes make a stripe. -/
def stripeSize : Nat := 16

/-- A checksum in progress: the lanes, the bytes since the last stripe and the count of all bytes.
-/
structure Hasher where
  lanes : Lanes
  tail : Bytes
  count : Nat
  deriving Repr

namespace Hasher

/-- The hasher before any data. -/
def new : Hasher := ⟨.initial, #[], 0⟩

/-- Takes in one byte. -/
def push (hasher : Hasher) (byte : UInt8) : Hasher :=
  match hasher with
  | ⟨lanes, tail, count⟩ =>
    let tail := tail.push byte
    if tail.size = stripeSize then ⟨lanes.absorb tail, #[], count + 1⟩
    else ⟨lanes, tail, count + 1⟩

/-- Takes in data. -/
def update (hasher : Hasher) (data : Bytes) : Hasher := data.foldl push hasher

theorem update_append (hasher : Hasher) (first second : Bytes) :
    hasher.update (first ++ second) = (hasher.update first).update second := by
  simp [update]

@[simp] theorem update_empty (hasher : Hasher) : hasher.update #[] = hasher := by
  simp [update]

/-- Mixes in the bytes from a position on, four at a time while there are as many. -/
def mixTail (tail : Bytes) (pos : Nat) (hash : UInt32) : UInt32 :=
  if pos + 4 ≤ tail.size then
    mixTail tail (pos + 4) (prime4 * rotate (hash + prime3 * (tail.word pos 4).toUInt32) 17)
  else if pos < tail.size then
    mixTail tail (pos + 1) (prime1 * rotate (hash + prime5 * (tail.byteAt pos).toUInt32) 11)
  else hash
termination_by tail.size - pos

/-- Spreads the influence of every bit over the whole word. -/
def avalanche (hash : UInt32) : UInt32 :=
  let hash := prime2 * (hash ^^^ (hash >>> 15))
  let hash := prime3 * (hash ^^^ (hash >>> 13))
  hash ^^^ (hash >>> 16)

/-- The checksum of the data taken in so far. -/
def finish (hasher : Hasher) : UInt32 :=
  let start := if hasher.count < stripeSize then prime5 else hasher.lanes.merge
  avalanche (mixTail hasher.tail 0 (start + UInt32.ofNat hasher.count))

end Hasher

end Checksum

/-- The checksum of a byte string. -/
def checksum (data : Bytes) : UInt32 := (Checksum.Hasher.new.update data).finish

/-- The checksum byte of a frame header: the second byte of the checksum of its descriptor. -/
def headerChecksum (descriptor : Bytes) : UInt8 := (checksum descriptor >>> 8).toUInt8

end Lz4
