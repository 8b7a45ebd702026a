import Lz4.Block.Chain
import Lz4.Block.Sequence

/-!
# Thorough compression

The thorough compressor indexes every position it passes and takes the longest match there is among
the latest positions with the same hash; the level decides how many of them it looks at. Before it
settles for a match, it looks whether the next position has a longer one. What it writes is read by
the same decoder as any other block.
-/

namespace Lz4.Block.Thorough

/-- The lowest level. -/
def minLevel : Int := 1

/-- The level that is meant when none is asked for. -/
def defaultLevel : Int := 9

/-- The highest level. -/
def maxLevel : Int := 12

/-- The level that a requested level stands for: the default below the lowest, the highest above
it. -/
def clampLevel (level : Int) : Int :=
  if level < minLevel then defaultLevel else min level maxLevel

/-- How many positions are looked at on each of the twelve levels. -/
def depths : Array Nat := #[2, 4, 8, 16, 32, 64, 128, 256, 256, 512, 1024, 4096]

/-- How many positions are looked at on a level. -/
def depth (level : Int) : Nat := depths.getD (clampLevel level - 1).toNat 0

/-- Moves the start of a match ahead by one byte for as long as a strictly longer match starts
there. -/
def improve (input : Bytes) (limit attempts start : Nat) (chosen : Candidate) (chain : Chain) :
    Nat × Candidate × Chain :=
  if start + 1 + endMargin ≤ input.size then
    let chain := chain.insertUpTo input (start + 1)
    match chain.longest input (start + 1) limit attempts with
    | none => (start, chosen, chain)
    | some later =>
      if chosen.length < later.length then improve input limit attempts (start + 1) later chain
      else (start, chosen, chain)
  else (start, chosen, chain)
termination_by input.size - start
decreasing_by omega

/-- Improving a match never goes back, and keeps it long enough to be written. -/
theorem le_of_improve {input : Bytes} {limit attempts start improvedStart : Nat}
    {chosen improvedChoice : Candidate} {chain improvedChain : Chain}
    (long : minMatch ≤ chosen.length)
    (improved : improve input limit attempts start chosen chain =
      (improvedStart, improvedChoice, improvedChain)) :
    start ≤ improvedStart ∧ minMatch ≤ improvedChoice.length := by
  fun_induction improve input limit attempts start chosen chain with
  | case1 | case3 | case4 =>
    simp only [Prod.mk.injEq] at improved
    obtain ⟨rfl, rfl, -⟩ := improved
    exact ⟨Nat.le_refl _, long⟩
  | case2 start chosen chain room chain' later found longer ih =>
    have further := ih (Chain.minMatch_le_of_longest found) improved
    exact ⟨Nat.le_trans (Nat.le_succ _) further.1, further.2⟩

/-- Compresses the bytes from `anchor` on, of which those up to `pos` are known to be literals. -/
def scan (input : Bytes) (attempts anchor pos : Nat) (chain : Chain) (sink : Sink) :
    Compressed Chain :=
  if _roomForMatch : pos + endMargin ≤ input.size then
    let limit := input.size - lastLiterals
    let chain := chain.insertUpTo input pos
    match _found : chain.longest input pos limit attempts with
    | none => scan input attempts anchor (pos + 1) chain sink
    | some first =>
      match _improved : improve input limit attempts pos first chain with
      | (start, chosen, chain) =>
        let back := input.agreeBackward start chosen.position (start - anchor)
        let next := start + chosen.length
        let literals := input.extract anchor (start - back)
        let (sink, complete) := sink.writePieces
          (sequencePieces literals ⟨start - chosen.position, chosen.length + back⟩)
        if complete then scan input attempts next next chain sink else ⟨sink, chain, false⟩
  else
    let (sink, complete) := sink.writePieces (lastPieces (input.extract anchor input.size))
    ⟨sink, chain, complete⟩
termination_by input.size - pos
decreasing_by
  · simp only [endMargin] at _roomForMatch
    omega
  · have further := le_of_improve (Chain.minMatch_le_of_longest _found) _improved
    simp only [endMargin, minMatch] at *
    omega

/-- Compresses the bytes from `cursor` on as one block, with an index that was used before; what the
index still holds is forgotten first. The bytes before the cursor are history that matches may
refer to. -/
def compressWith (chain : Chain) (input : Bytes) (cursor : Nat) (level : Int) (sink : Sink) :
    Compressed Chain :=
  scan input (depth level) cursor cursor chain.reset sink

/-- Compresses the bytes from `cursor` on as one block, with an index of its own. The flag tells
whether the sink took the whole block. -/
def compress (input : Bytes) (cursor : Nat) (level : Int) (sink : Sink) : Sink × Bool :=
  let result := compressWith .empty input cursor level sink
  (result.sink, result.complete)

end Lz4.Block.Thorough
