import Lz4.Sink
import Lz4.Source
import Lz4.Frame.Encoder

/-!
# Encoding from a source to a sink

Everything a source holds becomes one frame, which is written to a sink. The source is read a
block at a time; a block that the source does not hand out in full because it fails is not
written.
-/

namespace Lz4.Frame

variable {σ : Type} [Source σ]

/-- Writes all of a byte string to a sink, unless it fails. -/
def writeTo (sink : Sink) (bytes : Bytes) : Sink × Option StreamError :=
  match sink.write bytes with
  | (sink, true) => (sink, none)
  | (sink, false) => (sink, some .noRoom)

/-- Encodes what a source still holds, a block at a time, and ends the frame. -/
def transferBlocks (source : σ) (session : Session) (sink : Sink) : Sink × Option StreamError :=
  match _gathered : Source.readAll source session.header.blockSize.bytes #[] with
  | ((_, some error), _) => (sink, some error)
  | ((block, none), rest) =>
    if _atEnd : block.isEmpty then
      match session.endProblem? with
      | some error => (sink, some error.toStream)
      | none => writeTo sink session.close
    else
      match session.update block with
      | (records, session) =>
        match writeTo sink records with
        | (sink, some error) => (sink, some error)
        | (sink, none) => transferBlocks rest session sink
termination_by (Source.contents source).size
decreasing_by exact Source.size_contents_readAll_lt _gathered (by simpa using _atEnd)

/-- Encodes what a source holds as one frame and writes it to a sink. The result is the sink, and
what went wrong if something did. -/
def transfer (source : σ) (settings : Settings) (sink : Sink) : Sink × Option StreamError :=
  match writeTo sink settings.header.encode with
  | (sink, some error) => (sink, some error)
  | (sink, none) => transferBlocks source (.start settings) sink

/-- Like `transfer`, announcing the size of what the source still holds. To find it the source is
moved to its end and back to where it stood. -/
def transferSized {σ : Type} [SeekableSource σ] (source : σ) (settings : Settings) (sink : Sink) :
    Sink × Option StreamError :=
  match SeekableSource.seek source (.here 0) with
  | (.error error, _) => (sink, some error)
  | (.ok start, source) =>
    match SeekableSource.seek source (.back 0) with
    | (.error error, _) => (sink, some error)
    | (.ok stop, source) =>
      match SeekableSource.seek source (.front start) with
      | (.error error, _) => (sink, some error)
      | (.ok _, source) =>
        transfer source { settings with contentSize := some (stop - start) } sink

end Lz4.Frame
