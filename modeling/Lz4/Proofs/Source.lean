import Lz4.Source
import Lz4.Proofs.Bytes.Content

/-!
# How sources can be read

A source may hand out fewer bytes than it is asked for, and may fail at any time.
`Lz4.Source.Reaches` are the states to which it can be brought by reading, `Lz4.Source.Fails` the
errors that it reports in them. A source that is `Lz4.Source.Eager` hands out something as long as it
holds something. The sources over byte strings are eager, however slowly they are paced and wherever
they are set to fail (`Lz4.Paced.eager`).

A source that `Lz4.Source.Gives` so many bytes hands them out with reads of any sizes, and then ends
or fails. Reading until enough bytes are there comes to the same with every such source: the bytes
are there (`Lz4.Source.Gives.readAll_block`), or the source has ended or failed
(`Lz4.Source.Gives.readAll_rest`). Sources over byte strings give what stands before the place at
which they are set to fail (`Lz4.Paced.gives`), and if they are not set to fail, they do so wherever
they were moved (`Lz4.Paced.steady`).
-/

namespace Lz4

namespace Source

variable {σ : Type} [Source σ]

/-- The states to which a source is brought by reading, whether the reads fail or not. -/
inductive Reaches (origin : σ) : σ → Prop
  | refl : Reaches origin origin
  | read {source : σ} (reached : Reaches origin source) (count : Nat) :
      Reaches origin (Source.read source count).2

/-- As long as it holds something, a source that does not fail hands out at least one of the bytes
it is asked for. -/
def Eager (origin : σ) : Prop :=
  ∀ (source : σ) (count : Nat), Reaches origin source → 0 < count → contents source ≠ #[] →
    (Source.read source count).1 ≠ .ok #[]

/-- Some read of a source fails with an error. -/
def Fails (origin : σ) (error : StreamError) : Prop :=
  ∃ (source : σ) (count : Nat), Reaches origin source ∧
    (Source.read source count).1 = .error error

theorem reaches_of_read {origin source : σ} {count : Nat}
    (reached : Reaches (Source.read origin count).2 source) : Reaches origin source := by
  induction reached with
  | refl => exact .read .refl count
  | read reached more ih => exact .read ih more

/-- A source hands out `count` bytes, at least one of them with every read. Then it has ended for
good, or the next read fails. -/
inductive Gives : σ → Nat → Option StreamError → Prop
  | ends {source : σ} (empty : contents source = #[]) (sound : ∀ error, ¬ Fails source error) :
      Gives source 0 none
  | fails {source : σ} {error : StreamError}
      (refuses : ∀ asked, 0 < asked → (Source.read source asked).1 = .error error) :
      Gives source 0 (some error)
  | hands {source : σ} {count : Nat} {failure : Option StreamError}
      (more : ∀ asked, 0 < asked → ∃ bytes : Bytes, (Source.read source asked).1 = .ok bytes ∧
        0 < bytes.size ∧ bytes.size ≤ count)
      (onward : ∀ (asked : Nat) (bytes : Bytes) (rest : σ), 0 < asked →
        Source.read source asked = (.ok bytes, rest) → Gives rest (count - bytes.size) failure) :
      Gives source count failure

section ReadAll

variable {source rest : σ} {limit : Nat} {gathered bytes : Bytes} {error : StreamError}

theorem readAll_of_full (full : limit ≤ gathered.size) :
    readAll source limit gathered = ((gathered, none), source) := by
  rw [readAll, if_neg (Nat.not_lt_of_le full)]

theorem readAll_of_error (short : gathered.size < limit)
    (taken : Source.read source (limit - gathered.size) = (.error error, rest)) :
    readAll source limit gathered = ((gathered, some error), rest) := by
  rw [readAll, if_pos short]
  split
  · rename_i failed
    cases taken.symm.trans failed
    rfl
  · rename_i handed
    cases taken.symm.trans handed

theorem readAll_of_ok (short : gathered.size < limit)
    (taken : Source.read source (limit - gathered.size) = (.ok bytes, rest)) :
    readAll source limit gathered =
      if bytes.isEmpty then ((gathered, none), rest)
      else readAll rest limit (gathered ++ bytes) := by
  rw [readAll, if_pos short]
  split
  · rename_i failed
    cases taken.symm.trans failed
  · rename_i handed
    cases taken.symm.trans handed
    rfl

end ReadAll

namespace Gives

variable {source : σ} {count limit : Nat} {failure : Option StreamError} {gathered : Bytes}

/-- A source that ends hands out all that it holds. -/
theorem count_eq (gives : Gives source count failure) (sound : failure = none) :
    count = (contents source).size := by
  induction gives with
  | ends empty => rw [empty, Array.size_empty]
  | fails => cases sound
  | @hands source count failure more onward ih =>
    obtain ⟨bytes, handed, -, few⟩ := more 1 Nat.one_pos
    have taken : Source.read source 1 = (.ok bytes, (Source.read source 1).2) :=
      Prod.ext handed rfl
    have left := ih 1 bytes _ Nat.one_pos taken sound
    have split := congrArg Array.size (contents_of_read_ok taken).2
    rw [Array.size_append] at split
    omega

/-- A source that has ended hands out nothing, now or later. -/
theorem read_of_ended (empty : contents source = #[]) (sound : ∀ error, ¬ Fails source error)
    (asked : Nat) :
    ∃ rest, Source.read source asked = (.ok #[], rest) ∧ Gives rest 0 none := by
  rcases taken : Source.read source asked with ⟨error | bytes, rest⟩
  · exact absurd ⟨source, asked, .refl, congrArg Prod.fst taken⟩ (sound error)
  · have split := (contents_of_read_ok taken).2
    rw [empty] at split
    obtain ⟨none, left⟩ := Array.append_eq_empty_iff.mp split.symm
    subst none
    refine ⟨rest, rfl, .ends left ?_⟩
    rintro error ⟨later, count, reached, fails⟩
    have there : (Source.read source asked).2 = rest := congrArg Prod.snd taken
    exact sound error ⟨later, count, reaches_of_read (there ▸ reached), fails⟩

/-- Reading from a source that hands something out goes on with what it handed out. -/
theorem readAll_of_more
    (more : ∀ asked, 0 < asked → ∃ bytes : Bytes, (Source.read source asked).1 = .ok bytes ∧
      0 < bytes.size ∧ bytes.size ≤ count)
    (short : gathered.size < limit) :
    ∃ bytes rest, Source.read source (limit - gathered.size) = (.ok bytes, rest) ∧
      bytes.size ≤ count ∧ (gathered ++ bytes).size ≤ limit ∧
      readAll source limit gathered = readAll rest limit (gathered ++ bytes) := by
  obtain ⟨bytes, handed, some, few⟩ := more _ (Nat.sub_pos_of_lt short)
  have taken : Source.read source (limit - gathered.size) = (.ok bytes, _) := Prod.ext handed rfl
  have limited := (contents_of_read_ok taken).1
  have nonempty : ¬ bytes.isEmpty = true := by
    rw [Array.isEmpty_iff_size_eq_zero]
    exact Nat.ne_of_gt some
  refine ⟨bytes, _, taken, few, ?_, ?_⟩
  · rw [Array.size_append]
    omega
  · rw [readAll_of_ok short taken, if_neg nonempty]

/-- If a source gives enough, so many bytes are read from it. -/
theorem readAll_of_enough (gives : Gives source count failure) (room : gathered.size ≤ limit)
    (enough : limit ≤ gathered.size + count) :
    ∃ bytes rest, readAll source limit gathered = ((gathered ++ bytes, none), rest) ∧
      gathered.size + bytes.size = limit ∧ Gives rest (count - bytes.size) failure := by
  induction gives generalizing gathered with
  | @ends source empty sound =>
    exact ⟨#[], source, by rw [readAll_of_full enough, Array.append_empty],
      Nat.le_antisymm room enough, .ends empty sound⟩
  | @fails source error refuses =>
    exact ⟨#[], source, by rw [readAll_of_full enough, Array.append_empty],
      Nat.le_antisymm room enough, .fails refuses⟩
  | @hands source count failure more onward ih =>
    by_cases full : limit ≤ gathered.size
    · exact ⟨#[], source, by rw [readAll_of_full full, Array.append_empty],
        Nat.le_antisymm room full, .hands more onward⟩
    · have short := Nat.lt_of_not_le full
      obtain ⟨bytes, rest, taken, few, within, read⟩ := readAll_of_more more short
      obtain ⟨others, last, readRest, total, gives⟩ := @ih _ bytes rest
        (Nat.sub_pos_of_lt short) taken (gathered ++ bytes) within
        (by rw [Array.size_append]; omega)
      rw [Array.size_append, Nat.add_assoc, ← Array.size_append] at total
      refine ⟨bytes ++ others, last, ?_, total, ?_⟩
      · rw [read, readRest, Array.append_assoc]
      · rwa [Array.size_append, ← Nat.sub_sub]

/-- If a source gives too few, they are read, and it is seen to end or to fail. -/
theorem readAll_of_few (gives : Gives source count failure) (few : gathered.size + count < limit) :
    ∃ bytes rest, readAll source limit gathered = ((gathered ++ bytes, failure), rest) ∧
      bytes.size = count ∧ (failure = none → Gives rest 0 none) := by
  have short : gathered.size < limit := Nat.lt_of_le_of_lt (Nat.le_add_right _ _) few
  induction gives generalizing gathered with
  | ends empty sound =>
    obtain ⟨rest, taken, gives⟩ := read_of_ended empty sound (limit - gathered.size)
    refine ⟨#[], rest, ?_, rfl, fun _ => gives⟩
    rw [readAll_of_ok short taken, Array.append_empty]
    exact if_pos rfl
  | @fails source error refuses =>
    have taken : Source.read source (limit - gathered.size) = (.error error, _) :=
      Prod.ext (refuses _ (Nat.sub_pos_of_lt short)) rfl
    refine ⟨#[], (Source.read source (limit - gathered.size)).2, ?_, rfl, ?_⟩
    · rw [readAll_of_error short taken, Array.append_empty]
    · intro sound
      cases sound
  | @hands source count failure more onward ih =>
    obtain ⟨bytes, rest, taken, within, -, read⟩ := readAll_of_more more short
    have sizes : (gathered ++ bytes).size = gathered.size + bytes.size := Array.size_append
    obtain ⟨others, last, readRest, total, gives⟩ := @ih _ bytes rest (Nat.sub_pos_of_lt short)
      taken (gathered ++ bytes) (by omega) (by omega)
    refine ⟨bytes ++ others, last, ?_, ?_, gives⟩
    · rw [read, readRest, Array.append_assoc]
    · rw [Array.size_append]
      omega

/-- If a source gives a block, it is read, and what the source then holds comes behind it. -/
theorem readAll_block (gives : Gives source count failure) (enough : limit ≤ count) :
    ∃ block rest, readAll source limit #[] = ((block, none), rest) ∧ block.size = limit ∧
      contents source = block ++ contents rest ∧ Gives rest (count - limit) failure := by
  obtain ⟨block, rest, read, full, onward⟩ :=
    @readAll_of_enough _ _ _ _ limit _ #[] gives (Nat.zero_le _) (by simpa using enough)
  rw [Array.size_empty, Nat.zero_add] at full
  have split := append_contents_readAll read
  rw [Array.empty_append, Array.empty_append] at split
  rw [Array.empty_append] at read
  exact ⟨block, rest, read, full, split, full ▸ onward⟩

/-- If a source gives less than a block, what it gives is read before it ends or fails. -/
theorem readAll_rest (gives : Gives source count failure) (few : count < limit) :
    ∃ block rest, readAll source limit #[] = ((block, failure), rest) ∧ block.size = count ∧
      contents source = block ++ contents rest ∧ (failure = none → Gives rest 0 none) := by
  obtain ⟨block, rest, read, size, ended⟩ :=
    @readAll_of_few _ _ _ _ limit _ #[] gives (by simpa using few)
  have split := append_contents_readAll read
  rw [Array.empty_append, Array.empty_append] at split
  rw [Array.empty_append] at read
  exact ⟨block, rest, read, size, split, ended⟩

end Gives

end Source

namespace SeekableSource

variable {σ : Type} [SeekableSource σ]

/-- The states to which a source is brought by moving it. -/
inductive Moved (origin : σ) : σ → Prop
  | refl : Moved origin origin
  | seek {source rest : σ} {place : Place} {reached : UInt64} (moved : Moved origin source)
      (sought : SeekableSource.seek source place = (.ok reached, rest)) : Moved origin rest

/-- A source that can be moved to all places in it, and gives all that it then holds. -/
structure Steady (origin : σ) : Prop where
  moves : ∀ (source : σ) (place : Place), Moved origin source →
    0 ≤ place.locate (whole source).size (position source) →
    place.locate (whole source).size (position source) ≤ (whole source).size →
      ∃ reached rest, SeekableSource.seek source place = (.ok reached, rest)
  gives : ∀ source : σ, Moved origin source →
    Source.Gives source (Source.contents source).size none

/-- A steady source can be moved to its end and back. -/
theorem Steady.seek_back {source : σ} (steady : Steady source)
    (within : position source ≤ (whole source).size) :
    ∃ (start stop reached : UInt64) (here back after : σ),
      seek source (.here 0) = (.ok start, here) ∧ seek here (.back 0) = (.ok stop, back) ∧
      seek back (.front start) = (.ok reached, after) ∧ start.toNat = position source ∧
      stop.toNat = (whole source).size ∧ Source.contents after = Source.contents source ∧
      Source.Gives after (Source.contents after).size none := by
  have zero : (0 : Int64).toInt = 0 := rfl
  obtain ⟨start, here, toHere⟩ := steady.moves source (.here 0) .refl
    (by simp only [Place.locate, zero]; omega) (by simp only [Place.locate, zero]; omega)
  have movedHere := Moved.refl.seek toHere
  obtain ⟨startPlace, wholeHere, positionHere⟩ := of_seek_ok toHere
  simp only [Place.locate, zero] at startPlace
  obtain ⟨stop, back, toBack⟩ := steady.moves here (.back 0) movedHere
    (by simp only [Place.locate, zero]; omega) (by simp only [Place.locate, zero]; omega)
  have movedBack := movedHere.seek toBack
  obtain ⟨stopPlace, wholeBack, positionBack⟩ := of_seek_ok toBack
  simp only [Place.locate, zero] at stopPlace
  obtain ⟨reached, after, toFront⟩ := steady.moves back (.front start) movedBack
    (by simp only [Place.locate]; omega)
    (by rw [wholeBack, wholeHere]; simp only [Place.locate]; omega)
  obtain ⟨frontPlace, wholeAfter, positionAfter⟩ := of_seek_ok toFront
  simp only [Place.locate] at frontPlace
  refine ⟨start, stop, reached, here, back, after, toHere, toBack, toFront, by omega, ?_, ?_,
    steady.gives after (movedBack.seek toFront)⟩
  · rw [wholeHere] at stopPlace
    omega
  · rw [contents_eq, contents_eq, wholeAfter, wholeBack, wholeHere]
    congr 1
    omega

end SeekableSource

namespace Paced

/-- Reading changes nothing but the position. -/
theorem snd_read (source : Paced) (count : Nat) :
    (source.read count).2 = { source with position := (source.read count).2.position } := by
  rcases taken : source.read count with ⟨error | bytes, rest⟩
  · rw [read_eq_error taken]
  · have handed := congrArg Prod.snd (read_eq_ok taken)
    rw [← handed]
    rfl

theorem eq_of_reaches {origin source : Paced} (reached : Source.Reaches origin source) :
    source = { origin with position := source.position } := by
  induction reached with
  | refl => rfl
  | @read source reached count ih =>
    have same : (Source.read source count).2 = _ := snd_read source count
    rw [same, ih]

theorem eq_of_moved {origin source : Paced} (moved : SeekableSource.Moved origin source) :
    source = { origin with position := source.position } := by
  induction moved with
  | refl => rfl
  | seek moved sought ih =>
    obtain ⟨-, rfl⟩ := seek_eq_ok sought
    rw [ih]

/-- A source that has not come to where it fails may hand something out. -/
theorem allowance_pos {source : Paced} {count : Nat} (asked : 0 < count)
    (paced : source.pace ≠ some 0)
    (sound : ∀ failure, source.failure = some failure → source.position < failure.1) :
    0 < source.allowance count := by
  have slow : 0 < source.pace.elim count (min count) := by
    cases pace : source.pace with
    | none => exact asked
    | some limit =>
      rw [pace] at paced
      exact Nat.lt_min.mpr ⟨asked, Nat.pos_of_ne_zero fun none => paced (congrArg some none)⟩
  unfold allowance
  cases failure : source.failure with
  | none => exact slow
  | some failure => exact Nat.lt_min.mpr ⟨slow, Nat.sub_pos_of_lt (sound _ ‹_›)⟩

theorem read_ne_empty {source : Paced} {count : Nat} (asked : 0 < count)
    (paced : source.pace ≠ some 0) (more : source.position < source.data.size) :
    (source.read count).1 ≠ .ok #[] := by
  intro nothing
  cases taken : source.read count with
  | mk result rest =>
    rw [taken] at nothing
    cases nothing
    have handed := congrArg (fun pair => pair.1.size) (read_eq_ok taken)
    have sound : ∀ failure, source.failure = some failure → source.position < failure.1 := by
      intro failure fails
      refine Nat.lt_of_not_le fun reached => ?_
      rw [read, fails] at taken
      dsimp only at taken
      rw [if_pos reached] at taken
      cases taken
    have allowed := allowance_pos asked paced sound
    simp only [handOut, Array.size_extract, Array.size_empty] at handed
    omega

/-- However slow its pace, a source over a byte string is eager. -/
theorem eager {origin : Paced} (paced : origin.pace ≠ some 0) : Source.Eager origin := by
  intro source count reached asked more
  refine read_ne_empty asked ?_ ?_
  · rw [eq_of_reaches reached]
    exact paced
  · have size : 0 < (source.data.dropFirst source.position).size :=
      Array.size_pos_iff.mpr more
    rw [Bytes.size_dropFirst] at size
    omega

/-- The place from which on a source hands out nothing: the one at which it is set to fail, or the
end of its data. -/
def reach (source : Paced) : Nat := source.failure.elim source.data.size Prod.fst

/-- A source that has not come to the end of its reach hands out at least one of the bytes that it
is asked for, and none behind its reach. -/
theorem read_of_inside {source : Paced} {asked : Nat} (asking : 0 < asked)
    (paced : source.pace ≠ some 0) (inside : source.position < source.reach)
    (within : source.reach ≤ source.data.size) :
    source.read asked = (.ok (source.handOut asked).1, (source.handOut asked).2) ∧
      0 < (source.handOut asked).1.size ∧
      source.position + (source.handOut asked).1.size ≤ source.reach := by
  have sound : ∀ failure, source.failure = some failure → source.position < failure.1 := by
    intro failure fails
    rwa [reach, fails] at inside
  have allowed := allowance_pos asking paced sound
  have limited : source.position + source.allowance asked ≤ source.reach ∨
      source.data.size ≤ source.reach := by
    unfold reach allowance
    cases fails : source.failure with
    | none => exact .inr (Nat.le_refl _)
    | some failure =>
      have ahead := sound failure fails
      have less := Nat.min_le_right (source.pace.elim asked (min asked))
        (failure.1 - source.position)
      dsimp only [Option.elim_some]
      omega
  refine ⟨?_, ?_, ?_⟩
  · unfold read
    cases fails : source.failure with
    | none => rfl
    | some failure =>
      dsimp only
      rw [if_neg (Nat.not_le_of_lt (sound failure fails))]
  · simp only [handOut, Array.size_extract]
    omega
  · simp only [handOut, Array.size_extract]
    omega

/-- A source that is not set to fail never does. -/
theorem not_fails {origin : Paced} (sound : origin.failure = none) (error : StreamError) :
    ¬ Source.Fails origin error := by
  rintro ⟨source, asked, reached, fails⟩
  have soundAfter : source.failure = none := by
    rw [eq_of_reaches reached]
    exact sound
  have taken : source.read asked = (.ok (source.handOut asked).1, (source.handOut asked).2) := by
    rw [read, soundAfter]
  cases (congrArg Prod.fst taken).symm.trans fails

/-- Whatever its pace, a source gives the bytes up to the end of its reach, and fails there if it is
set to. -/
theorem gives (source : Paced) (paced : source.pace ≠ some 0)
    (within : source.reach ≤ source.data.size) :
    Source.Gives source (source.reach - source.position) (source.failure.map Prod.snd) := by
  by_cases inside : source.position < source.reach
  · refine .hands ?_ ?_
    · intro asked asking
      obtain ⟨taken, nonempty, inReach⟩ := read_of_inside asking paced inside within
      exact ⟨_, congrArg Prod.fst taken, nonempty, by omega⟩
    · intro asked bytes rest asking handed
      obtain ⟨taken, nonempty, inReach⟩ := read_of_inside asking paced inside within
      cases taken.symm.trans handed
      have onward := gives (source.handOut asked).2 paced within
      rwa [Nat.sub_sub]
  · rw [Nat.sub_eq_zero_of_le (Nat.le_of_not_lt inside)]
    unfold reach at inside
    cases fails : source.failure with
    | none =>
      rw [fails] at inside
      exact .ends (Bytes.dropFirst_of_size_le (Nat.le_of_not_lt inside)) (not_fails fails)
    | some failure =>
      rw [fails] at inside
      refine .fails fun asked _ => ?_
      have taken : source.read asked = (.error failure.2, source) := by
        rw [read, fails]
        exact if_pos (Nat.le_of_not_lt inside)
      exact congrArg Prod.fst taken
termination_by source.reach - source.position
decreasing_by
  change source.reach - (source.position + (source.handOut asked).1.size) <
    source.reach - source.position
  omega

/-- A source that is not set to fail is steady, if its places can be counted. -/
theorem steady {origin : Paced} (paced : origin.pace ≠ some 0) (sound : origin.failure = none)
    (small : origin.data.size < UInt64.size) : SeekableSource.Steady origin := by
  refine ⟨?_, ?_⟩
  · intro source place moved behind inside
    refine ⟨_, _, if_pos ⟨behind, ?_⟩⟩
    have size : source.data.size = origin.data.size := by rw [eq_of_moved moved]
    have inData : place.locate source.data.size source.position ≤ source.data.size := inside
    omega
  · intro source moved
    have failure : source.failure = none := by rw [eq_of_moved moved, sound]
    have whole : source.reach = source.data.size := by rw [reach, failure, Option.elim_none]
    have given := gives source (by rw [eq_of_moved moved]; exact paced) (Nat.le_of_eq whole)
    have held : (Source.contents source).size = source.data.size - source.position :=
      Bytes.size_dropFirst _ _
    rwa [failure, whole, ← held] at given

end Paced

end Lz4
