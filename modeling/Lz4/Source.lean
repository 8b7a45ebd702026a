import Lz4.Error

/-!
# Sources

A source hands out the bytes it holds, some at a time, and may fail in between. What it still holds
is a byte string, its contents; a read hands out the first bytes of it, and a failure loses nothing.
So whoever reads until nothing comes any more, gets there in finitely many reads.

A source over a byte string that stays where it is can be moved to a place in it. What it holds is
then what stands behind that place.

`Paced` is a source over a byte string that hands out a limited number of bytes at a time and may be
set to fail at a position.
-/

namespace Lz4

/-- Where bytes are read from. -/
class Source (σ : Type) where
  /-- What the source still holds. -/
  contents : σ → Bytes
  /-- Asks for up to `count` bytes. No bytes are handed out at the end. -/
  read : σ → Nat → Except StreamError Bytes × σ
  /-- A read hands out the first bytes of the contents, not more than were asked for. -/
  contents_of_read_ok : ∀ {source rest : σ} {count : Nat} {bytes : Bytes},
    read source count = (.ok bytes, rest) →
      bytes.size ≤ count ∧ contents source = bytes ++ contents rest
  /-- A failure loses nothing. -/
  contents_of_read_error : ∀ {source rest : σ} {count : Nat} {error : StreamError},
    read source count = (.error error, rest) → contents rest = contents source

/-- A place to which a source can be moved. -/
inductive Place where
  /-- So many bytes behind the front. -/
  | front (offset : UInt64)
  /-- So many bytes behind where the source stands, or before it. -/
  | here (offset : Int64)
  /-- So many bytes behind the end, or before it. -/
  | back (offset : Int64)
  deriving Repr, DecidableEq

/-- Where a place lies, seen from the front. It may lie before the front, which nothing can be moved
to, or behind the end. -/
def Place.locate (place : Place) (size position : Nat) : Int :=
  match place with
  | front offset => offset.toNat
  | here offset => position + offset.toInt
  | back offset => size + offset.toInt

/-- A source over a byte string in which it can be moved. -/
class SeekableSource (σ : Type) extends Source σ where
  /-- All that the source is over, before its position and behind it. -/
  whole : σ → Bytes
  /-- Where the source stands. -/
  position : σ → Nat
  /-- The source holds what stands behind its position. -/
  contents_eq : ∀ source : σ, contents source = (whole source).dropFirst (position source)
  /-- Moves the source to a place. The result is where that lies. -/
  seek : σ → Place → Except StreamError UInt64 × σ
  /-- A source that is moved stands where it was moved to, over the same bytes. -/
  of_seek_ok : ∀ {source rest : σ} {place : Place} {reached : UInt64},
    seek source place = (.ok reached, rest) →
      place.locate (whole source).size (position source) = reached.toNat ∧
        whole rest = whole source ∧ position rest = reached.toNat

namespace Source

variable {σ : Type} [Source σ]

/-- A read leaves fewer bytes, unless it handed out none. -/
theorem size_contents_lt {source rest : σ} {count : Nat} {bytes : Bytes}
    (taken : read source count = (.ok bytes, rest)) (some : bytes.isEmpty = false) :
    (contents rest).size < (contents source).size := by
  have split := (contents_of_read_ok taken).2
  have positive : bytes.size ≠ 0 := by
    intro none
    simp [Array.size_eq_zero_iff.mp none] at some
  rw [split, Array.size_append]
  omega

/-- Reads until `count` bytes are there, or the source ends or fails. The first component is what
was read, together with the failure if there was one. -/
def readAll (source : σ) (count : Nat) (gathered : Bytes) : (Bytes × Option StreamError) × σ :=
  if gathered.size < count then
    match _taken : read source (count - gathered.size) with
    | (.error error, rest) => ((gathered, some error), rest)
    | (.ok bytes, rest) =>
      if _atEnd : bytes.isEmpty then ((gathered, none), rest)
      else readAll rest count (gathered ++ bytes)
  else ((gathered, none), source)
termination_by (contents source).size
decreasing_by exact size_contents_lt _taken (by simpa using _atEnd)

/-- What was read and what is left make up what was there. -/
theorem append_contents_readAll {source rest : σ} {count : Nat} {gathered bytes : Bytes}
    {failure : Option StreamError}
    (taken : readAll source count gathered = ((bytes, failure), rest)) :
    gathered ++ contents source = bytes ++ contents rest := by
  fun_induction readAll source count gathered with
  | case1 source gathered short error rest' failed =>
    simp only [Prod.mk.injEq] at taken
    obtain ⟨⟨rfl, -⟩, rfl⟩ := taken
    rw [contents_of_read_error failed]
  | case2 source gathered short bytes' rest' handed atEnd =>
    simp only [Prod.mk.injEq] at taken
    obtain ⟨⟨rfl, -⟩, rfl⟩ := taken
    rw [(contents_of_read_ok handed).2, Array.isEmpty_iff.mp atEnd, Array.empty_append]
  | case3 source gathered short bytes' rest' handed more ih =>
    rw [← ih taken, (contents_of_read_ok handed).2, Array.append_assoc]
  | case4 source gathered enough =>
    simp only [Prod.mk.injEq] at taken
    obtain ⟨⟨rfl, -⟩, rfl⟩ := taken
    rfl

/-- Reading leaves fewer bytes, unless nothing was read. -/
theorem size_contents_readAll_lt {source rest : σ} {count : Nat} {bytes : Bytes}
    {failure : Option StreamError}
    (taken : readAll source count #[] = ((bytes, failure), rest)) (some : bytes.isEmpty = false) :
    (contents rest).size < (contents source).size := by
  have whole := congrArg Array.size (append_contents_readAll taken)
  have positive : bytes.size ≠ 0 := by
    intro none
    simp [Array.size_eq_zero_iff.mp none] at some
  simp only [Array.empty_append, Array.size_append] at whole
  omega

end Source

/-- A source over a byte string, at a position in it. It hands out at most `pace` bytes at a time
if there is a pace, and once a position is reached at which it is set to fail, it fails. -/
structure Paced where
  data : Bytes
  position : Nat := 0
  pace : Option Nat := none
  failure : Option (Nat × StreamError) := none
  deriving Repr, DecidableEq

namespace Paced

/-- How many bytes are handed out when `count` are asked for, but for the end of the data. -/
def allowance (source : Paced) (count : Nat) : Nat :=
  let paced := source.pace.elim count (min count)
  source.failure.elim paced fun failure => min paced (failure.1 - source.position)

/-- Hands out what there is and what is allowed. -/
def handOut (source : Paced) (count : Nat) : Bytes × Paced :=
  let bytes := source.data.extract source.position (source.position + source.allowance count)
  (bytes, { source with position := source.position + bytes.size })

@[inherit_doc Source.read]
def read (source : Paced) (count : Nat) : Except StreamError Bytes × Paced :=
  let (bytes, rest) := source.handOut count
  match source.failure with
  | some (stop, error) =>
    if stop ≤ source.position then (.error error, source) else (.ok bytes, rest)
  | none => (.ok bytes, rest)

theorem allowance_le (source : Paced) (count : Nat) : source.allowance count ≤ count := by
  have paced : source.pace.elim count (min count) ≤ count := by
    cases source.pace with
    | none => exact Nat.le_refl _
    | some pace => exact Nat.min_le_left _ _
  unfold allowance
  cases source.failure with
  | none => exact paced
  | some failure => exact Nat.le_trans (Nat.min_le_left _ _) paced

theorem size_handOut_le (source : Paced) (count : Nat) :
    (source.handOut count).1.size ≤ count := by
  have allowed := allowance_le source count
  simp only [handOut, Array.size_extract]
  omega

/-- What is handed out and what is left make up what was there. -/
theorem handOut_append (source : Paced) (count : Nat) :
    (source.handOut count).1 ++ (source.handOut count).2.data.dropFirst
      (source.handOut count).2.position = source.data.dropFirst source.position := by
  apply Array.ext
  · simp only [handOut, Array.size_append, Bytes.size_dropFirst, Array.size_extract]
    omega
  · intro index before after
    simp only [handOut, Bytes.dropFirst, Array.getElem_append, Array.size_extract,
      Array.getElem_extract]
    split
    · rfl
    · congr 1
      omega

theorem read_eq_ok {source rest : Paced} {count : Nat} {bytes : Bytes}
    (taken : source.read count = (.ok bytes, rest)) : source.handOut count = (bytes, rest) := by
  unfold read at taken
  split at taken
  rename_i handed
  rw [handed]
  split at taken
  · split at taken
    · simp at taken
    · simpa using taken
  · simpa using taken

theorem read_eq_error {source rest : Paced} {count : Nat} {error : StreamError}
    (taken : source.read count = (.error error, rest)) : rest = source := by
  unfold read at taken
  split at taken
  split at taken
  · split at taken
    · simp only [Prod.mk.injEq] at taken
      exact taken.2.symm
    · simp at taken
  · simp at taken

/-- Moves to a place behind the front, whether or not that lies within the data. -/
def seek (source : Paced) (place : Place) : Except StreamError UInt64 × Paced :=
  let target := place.locate source.data.size source.position
  if 0 ≤ target ∧ target < UInt64.size then
    (.ok (UInt64.ofNat target.toNat), { source with position := target.toNat })
  else (.error ⟨.invalidInput, .nothing⟩, source)

theorem seek_eq_ok {source rest : Paced} {place : Place} {reached : UInt64}
    (moved : source.seek place = (.ok reached, rest)) :
    place.locate source.data.size source.position = reached.toNat ∧
      rest = { source with position := reached.toNat } := by
  unfold seek at moved
  dsimp only at moved
  split at moved
  · rename_i valid
    cases moved
    have exact : (UInt64.ofNat (place.locate source.data.size source.position).toNat).toNat =
        (place.locate source.data.size source.position).toNat :=
      UInt64.toNat_ofNat_of_lt (by omega)
    rw [exact, Int.toNat_of_nonneg valid.1]
    exact ⟨rfl, rfl⟩
  · cases moved

instance : SeekableSource Paced where
  contents source := source.data.dropFirst source.position
  read := read
  contents_of_read_ok := by
    intro source rest count bytes taken
    have handed := read_eq_ok taken
    have few := size_handOut_le source count
    have whole := handOut_append source count
    rw [handed] at few whole
    exact ⟨few, whole.symm⟩
  contents_of_read_error := by
    intro source rest count error taken
    rw [read_eq_error taken]
  whole := data
  position := position
  contents_eq _ := rfl
  seek := seek
  of_seek_ok := by
    intro source rest place reached moved
    obtain ⟨place, rfl⟩ := seek_eq_ok moved
    exact ⟨place, rfl, rfl⟩

end Paced

end Lz4
