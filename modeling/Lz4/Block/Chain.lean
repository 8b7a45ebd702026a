import Lz4.Bytes
import Lz4.Block.Limits

/-!
# Position chains

An index of all positions of a buffer by the hash of the four bytes there. For every hash the
index knows the latest position, and for every position the distance to the one before it with the
same hash, so the positions with one hash form a chain from the latest to the earliest. Distances
are kept for the last 64 Ki positions only; a chain also ends where the next position is too far
away to be addressed by a match. Positions are kept in 32 bits and distances in 16. Of a position
that takes more, the low 32 bits are kept.
-/

namespace Lz4.Block

/-- The latest position for every hash, the distance from a position to the one before it with the
same hash, zero if there is none in reach, and the first position that is not yet in the index. -/
structure Chain where
  heads : Array UInt32
  links : Array UInt16
  next : Nat
  deriving Repr, DecidableEq

/-- An earlier position and the number of bytes on which it agrees with the present one. -/
structure Candidate where
  position : Nat
  length : Nat
  deriving Repr, DecidableEq

namespace Chain

/-- How many hashes there are. -/
def hashCount : Nat := 32768

/-- How many positions have their links kept. -/
def linkCount : Nat := 65536

/-- What is kept for a hash that no position has. -/
def nowhere : UInt32 := 0xFFFFFFFF

/-- The index of no positions. -/
def empty : Chain := ⟨Array.replicate hashCount nowhere, Array.replicate linkCount 0, 0⟩

/-- Forgets all positions. What held them is used again. -/
def reset (chain : Chain) : Chain :=
  ⟨chain.heads.map fun _ => nowhere, chain.links.map fun _ => 0, 0⟩

/-- The hash of the four bytes at a position. -/
def hash (data : Bytes) (pos : Nat) : Nat :=
  ((2654435761 * (data.word pos 4).toUInt32) >>> 17).toNat

/-- The latest position with a hash. -/
def head (chain : Chain) (hash : Nat) : UInt32 := chain.heads.getD hash nowhere

/-- The distance from a position to the one before it with the same hash, zero if there is none. -/
def link (chain : Chain) (pos : Nat) : Nat := (chain.links.getD (pos % linkCount) 0).toNat

/-- The distance from a position to an earlier one, zero if there is none or if it is too far away
for a match. -/
def distanceTo (earlier : UInt32) (pos : Nat) : Nat :=
  if earlier = nowhere then 0
  else
    let distance := pos - earlier.toNat
    if maxDistance < distance then 0 else distance

/-- Adds the first position that is not in the index. -/
def insertNext (chain : Chain) (data : Bytes) : Chain :=
  match chain with
  | ⟨heads, links, pos⟩ =>
    let hash := hash data pos
    let distance := distanceTo (heads.getD hash nowhere) pos
    ⟨heads.setIfInBounds hash pos.toUInt32,
      links.setIfInBounds (pos % linkCount) distance.toUInt16, pos + 1⟩

/-- Adds `count` positions. -/
def insertMany (chain : Chain) (data : Bytes) : Nat → Chain
  | 0 => chain
  | count + 1 => insertMany (chain.insertNext data) data count

/-- Adds all positions before `target`. -/
def insertUpTo (chain : Chain) (data : Bytes) (target : Nat) : Chain :=
  insertMany chain data (target - chain.next)

/-- Follows a chain for at most `attempts` positions, looking for one that agrees with `pos` on
more than `best` bytes before `limit`. A position that disagrees on the byte just past the best
length is passed over without comparing the others, and the search ends early when nothing could
be longer. -/
def longestFrom (chain : Chain) (data : Bytes) (pos limit : Nat) (found : Option Candidate)
    (best : Nat) (candidate : UInt32) : Nat → Option Candidate
  | 0 => found
  | attempts + 1 =>
    if candidate = nowhere then found
    else
      let place := candidate.toNat
      if maxDistance < pos - place then found
      else
        let length :=
          if data.byteAt (place + best) == data.byteAt (pos + best) then
            data.commonFront pos limit data place data.size
          else 0
        let better := best < length
        let found := if better then some ⟨place, length⟩ else found
        if better && pos + length == limit then found
        else
          let distance := chain.link place
          if distance = 0 then found
          else
            longestFrom chain data pos limit found (max best length) (place - distance).toUInt32
              attempts

/-- The position among the latest `attempts` with the same hash that agrees with `pos` on the most
bytes before `limit`, the latest of those if there are several; none if no position agrees on the
four bytes of the shortest match. -/
def longest (chain : Chain) (data : Bytes) (pos limit attempts : Nat) : Option Candidate :=
  longestFrom chain data pos limit none (minMatch - 1) (chain.head (hash data pos)) attempts

theorem minMatch_le_of_longestFrom {chain : Chain} {data : Bytes} {pos limit best : Nat}
    {candidate : UInt32} {found : Option Candidate} {attempts : Nat} (large : minMatch - 1 ≤ best)
    (before : ∀ earlier, found = some earlier → minMatch ≤ earlier.length) :
    ∀ result, chain.longestFrom data pos limit found best candidate attempts = some result →
      minMatch ≤ result.length := by
  induction attempts generalizing found best candidate with
  | zero => simpa [longestFrom] using before
  | succ attempts ih =>
    intro result
    rw [longestFrom]
    split
    · exact before result
    · extract_lets place length better found' distance
      split
      · exact before result
      · have after : ∀ earlier, found' = some earlier → minMatch ≤ earlier.length := by
          intro earlier
          simp only [found', better]
          split
          · intro same
            cases same
            simp only [minMatch] at *
            omega
          · exact before earlier
        split
        · exact after result
        · split
          · exact after result
          · exact ih (Nat.le_trans large (Nat.le_max_left _ _)) after result

/-- A match that is found is long enough to be written. -/
theorem minMatch_le_of_longest {chain : Chain} {data : Bytes} {pos limit attempts : Nat}
    {result : Candidate} (found : chain.longest data pos limit attempts = some result) :
    minMatch ≤ result.length :=
  minMatch_le_of_longestFrom (Nat.le_refl _) (by simp) result found

end Chain

end Lz4.Block
