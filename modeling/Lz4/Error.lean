import Lz4.Bytes

/-!
# Errors

Every operation of the library reports why it failed as an `Error`, a cause. `Error.message` is the
one place that puts a cause into words. `StreamError` is the error of the operations that read from
a source or write to a sink; `Error.toStream` says how a cause travels through them.
-/

namespace Lz4

/-- Why a piece of compressed data was refused. -/
inductive Corruption where
  /-- The data end before the record does. -/
  | truncated
  /-- A match refers to the byte it is about to write. -/
  | zeroOffset
  /-- A match refers to bytes before the start of the window. -/
  | offsetOutOfWindow
  /-- A literal run is longer than the data that remain. -/
  | literalOverrun
  /-- A block expands to more bytes than there is room for. -/
  | outputOverrun
  /-- The data do not start with the magic number of a frame. -/
  | wrongMagic (magic : UInt32)
  /-- The frame is of a version this library does not read. -/
  | unsupportedVersion (version : UInt8)
  /-- A bit is set whose meaning is not yet assigned. -/
  | reservedBitsSet
  /-- The block size id stands for no block size. -/
  | invalidBlockSize (id : UInt8)
  /-- The header does not match its checksum. -/
  | headerChecksum
  /-- A block does not match its checksum. -/
  | blockChecksum
  /-- The content does not match its checksum. -/
  | contentChecksum
  /-- A block record announces more bytes than a block of the frame may have. -/
  | blockTooLarge
  /-- The content is not as long as announced. -/
  | contentSizeMismatch
  /-- Data follow the end of the frame. -/
  | trailingData
  deriving Repr, DecidableEq, Inhabited

/-- Why an argument was refused. -/
inductive BadArgument where
  /-- The input is too long for a single block. -/
  | inputTooLong
  /-- The data are too short to hold a size. -/
  | sizeMissing
  /-- The announced size does not fit a signed 32-bit number. -/
  | sizeTooLarge
  /-- A stream with chunks of no bytes. -/
  | noBuffer
  /-- A stream with chunks that are too long for a block. -/
  | bufferTooLarge
  /-- A skippable frame has one of sixteen magic numbers. -/
  | nibbleTooLarge
  /-- The user data are too long for a skippable frame. -/
  | skippableTooLong
  /-- A reason of the caller's own. -/
  | other (text : String)
  deriving Repr, DecidableEq, Inhabited

/-- Which call came at the wrong time. -/
inductive Misuse where
  /-- A frame was begun inside a frame. -/
  | frameInProgress
  /-- Data were given to an encoder before its first frame. -/
  | noFrame
  /-- Data were given to an encoder after the end of its frame. -/
  | frameEnded
  /-- A frame was ended after another number of bytes than its header announces. -/
  | declaredSize
  /-- Records were to be split apart that have no length in front. -/
  | noLengthField
  /-- A header was to be read of which a part is in the decoder already. -/
  | headerPartlyFed
  /-- A reason of the caller's own. -/
  | other (text : String)
  deriving Repr, DecidableEq, Inhabited

/-- What a source or a sink that failed reports as the kind of its failure. -/
inductive FailureKind where
  | invalidData
  | invalidInput
  | outOfMemory
  | other
  | unexpectedEnd
  | noRoom
  | brokenPipe
  deriving Repr, DecidableEq, Inhabited

/-- Everything that can go wrong when compressing or decompressing. -/
inductive Error where
  | invalidArgument (reason : BadArgument)
  /-- The result does not fit: a size that is certain to suffice, and the size there was. -/
  | bufferTooSmall (needed available : Nat)
  /-- The data are not what the format allows, found at an offset. -/
  | corruptInput (offset : Nat) (reason : Corruption)
  | outOfMemory
  | usage (misuse : Misuse)
  /-- A chunk of `length` bytes was given to a stream that takes `limit`. -/
  | chunkTooLarge (length limit : Nat)
  /-- A source or a sink failed for a reason of its own. -/
  | failure (kind : FailureKind) (text : String)
  deriving Repr, DecidableEq, Inhabited

/-- The digits of a number in base sixteen, at least `width` of them. -/
def hexDigits (width value : Nat) : String :=
  let digits := Nat.toDigits 16 value
  String.ofList (List.replicate (width - digits.length) '0' ++ digits)

namespace Corruption

/-- The reason in words. -/
def message : Corruption → String
  | truncated => "unexpected end of input"
  | zeroOffset => "match offset of zero"
  | offsetOutOfWindow => "match offset points before the start of the window"
  | literalOverrun => "literal run reads past the end of the input"
  | outputOverrun => "decompressed data exceeds the destination capacity"
  | wrongMagic magic => "wrong magic number: " ++ hexDigits 8 magic.toNat
  | unsupportedVersion version => "frame version " ++ toString version.toNat ++ " not supported"
  | reservedBitsSet => "reserved bits set"
  | invalidBlockSize id => "block size id " ++ toString id.toNat ++ " is reserved"
  | headerChecksum => "the header checksum was invalid"
  | blockChecksum => "a block checksum was invalid"
  | contentChecksum => "the content checksum was invalid"
  | blockTooLarge => "a block is larger than the frame's block maximum"
  | contentSizeMismatch => "decompressed size differs from the declared content size"
  | trailingData => "unexpected data after the end of the frame"

end Corruption

namespace BadArgument

/-- The reason in words. -/
def message : BadArgument → String
  | inputTooLong => "input exceeds the maximum block input size"
  | sizeMissing => "input too short for a size header"
  | sizeTooLarge => "size header exceeds i32::MAX"
  | noBuffer => "buffer size must not be zero"
  | bufferTooLarge => "buffer size exceeds the maximum block input size"
  | nibbleTooLarge => "skippable magic nibble must be below 16"
  | skippableTooLong => "skippable frame data exceeds 4 GiB"
  | other text => text

end BadArgument

namespace Misuse

/-- The reason in words. -/
def message : Misuse → String
  | frameInProgress => "a frame is already in progress"
  | noFrame => "no frame in progress, call begin first"
  | frameEnded => "the frame has already ended"
  | declaredSize => "the amount of data fed differs from the declared content size"
  | noLengthField => "stream is not configured with a length prefix"
  | headerPartlyFed => "part of the header was already fed to decompress"
  | other text => text

end Misuse

namespace Error

/-- The error in words. -/
def message : Error → String
  | invalidArgument reason => "invalid argument: " ++ reason.message
  | bufferTooSmall needed available =>
    "destination too small: " ++ toString needed ++ " bytes needed, " ++ toString available
      ++ " available"
  | corruptInput offset reason =>
    "corrupt input at byte " ++ toString offset ++ ": " ++ reason.message
  | outOfMemory => "allocation failed"
  | usage misuse => "usage error: " ++ misuse.message
  | chunkTooLarge length limit =>
    "chunk of " ++ toString length ++ " bytes exceeds the configured block size of "
      ++ toString limit ++ " bytes"
  | failure _ text => text

/-- The reason for which data were refused, if that is the error. -/
def corruption? : Error → Option Corruption
  | corruptInput _ reason => some reason
  | _ => none

/-- Whether data were refused. -/
def isCorruption (error : Error) : Bool := error.corruption?.isSome

/-- The same error seen from a container in which the refused data start at `base`. -/
def shifted (base : Nat) : Error → Error
  | corruptInput offset reason => corruptInput (base + offset) reason
  | error => error

@[simp] theorem corruption?_shifted (base : Nat) (error : Error) :
    (error.shifted base).corruption? = error.corruption? := by
  cases error <;> rfl

end Error

/-- What a stream error carries besides its kind. -/
inductive Payload where
  | nothing
  | text (text : String)
  | error (error : Error)
  deriving Repr, DecidableEq, Inhabited

/-- The error of an operation that reads from a source or writes to a sink. -/
structure StreamError where
  kind : FailureKind
  payload : Payload
  deriving Repr, DecidableEq, Inhabited

namespace StreamError

/-- The payload in words, if there is one. -/
def message? (error : StreamError) : Option String :=
  match error.payload with
  | .nothing => none
  | .text text => some text
  | .error inner => some inner.message

/-- The library's own error inside a stream error, if there is one. -/
def inner? (error : StreamError) : Option Error :=
  match error.payload with
  | .error inner => some inner
  | _ => none

/-- A sink has no room for what it was given. -/
def noRoom : StreamError := ⟨.noRoom, .nothing⟩

/-- The source ended inside a frame. -/
def endedEarly : StreamError := ⟨.unexpectedEnd, .text "the frame ended prematurely"⟩

end StreamError

namespace Error

/-- How an error travels through an operation on sources and sinks: refused data and refused
arguments keep their kind, and the failure of a source or a sink is passed on as it was. -/
def toStream (error : Error) : StreamError :=
  match error with
  | failure kind text => ⟨kind, .text text⟩
  | corruptInput .. => ⟨.invalidData, .error error⟩
  | invalidArgument _ => ⟨.invalidInput, .error error⟩
  | chunkTooLarge .. => ⟨.invalidInput, .error error⟩
  | outOfMemory => ⟨.outOfMemory, .error error⟩
  | bufferTooSmall .. => ⟨.other, .error error⟩
  | usage _ => ⟨.other, .error error⟩

end Error

end Lz4
