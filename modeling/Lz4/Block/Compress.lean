import Lz4.Block.Greedy
import Lz4.Block.Thorough

/-!
# Compressing a block

A block is compressed on its own or behind a dictionary, a byte string known to both sides that
matches may refer to. The mode selects the compressor. Whatever the mode, the block decodes to its
input behind the same dictionary, and it is never longer than the bound for its input.
-/

namespace Lz4.Block

/-- How hard a compressor looks for matches. -/
inductive Mode where
  /-- The greedy compressor. -/
  | standard
  /-- The greedy compressor, moving ahead the faster the larger the acceleration. -/
  | fast (acceleration : Nat)
  /-- The thorough compressor on a level. -/
  | high (level : Int)
  deriving Repr, DecidableEq, Inhabited

/-- The acceleration of the greedy compressor in a mode. -/
def Mode.acceleration : Mode → Nat
  | fast acceleration => min (max acceleration 1) maxAcceleration
  | _ => 1

/-- The part of a dictionary that matches can refer to. -/
def dictionaryWindow (dictionary : Bytes) : Bytes := dictionary.takeLast windowSize

/-- Compresses with the greedy compressor and a table that has seen the history. -/
@[specialize]
def compressPrimed (τ : Type) [MatchTable τ] (input : Bytes) (cursor acceleration : Nat)
    (sink : Sink) : Sink × Bool :=
  let table := MatchTable.ofDictionary τ (input.extract 0 cursor)
  let result := Greedy.compress input cursor acceleration table sink
  (result.sink, result.complete)

/-- Compresses the bytes from `cursor` on in the given mode; those before it are history.
Positions below 64 KiB fit the narrow table, which holds more of them. The flag tells whether the
sink took the whole block. -/
def compressWithHistory (input : Bytes) (cursor : Nat) (mode : Mode) (sink : Sink) : Sink × Bool :=
  match mode with
  | .high level => Thorough.compress input cursor level sink
  | _ =>
    if input.size ≤ MatchTable.sizeLimit NarrowTable then
      compressPrimed NarrowTable input cursor mode.acceleration sink
    else compressPrimed WideTable input cursor mode.acceleration sink

/-- Compresses an input behind a dictionary to a sink. The flag tells whether the sink took the
whole block. -/
def compressTo (input dictionary : Bytes) (mode : Mode) (sink : Sink) : Sink × Bool :=
  let history := dictionaryWindow dictionary
  compressWithHistory (history ++ input) history.size mode sink

/-- Compresses an input behind a dictionary to the start of a buffer. The result is the size of the
block and the buffer. If there is too little room, the buffer holds the part of the block for which
there was. -/
def compressInto (input dictionary : Bytes) (mode : Mode) (buffer : Bytes) :
    Except Error Nat × Bytes :=
  match compressBound input.size with
  | none => (.error (.invalidArgument .inputTooLong), buffer)
  | some bound =>
    let (sink, complete) := compressTo input dictionary mode (.ofCapacity buffer.size)
    let size := sink.written.size
    let after := sink.written ++ buffer.dropFirst size
    if complete then (.ok size, after) else (.error (.bufferTooSmall bound buffer.size), after)

/-- Compresses an input behind a dictionary. -/
def compress (input dictionary : Bytes) (mode : Mode) : Except Error Bytes :=
  match compressBound input.size with
  | none => .error (.invalidArgument .inputTooLong)
  | some bound =>
    let (sink, complete) := compressTo input dictionary mode (.ofCapacity bound)
    if complete then .ok sink.written else .error (.bufferTooSmall bound bound)

end Lz4.Block
