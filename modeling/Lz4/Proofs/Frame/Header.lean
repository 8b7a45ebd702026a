import Lz4.Frame.Header
import Lz4.Proofs.Bytes.Content

/-!
# Reading headers

What a header tells about its size only grows as more of it comes in, and what is wrong with it
stays wrong (`Lz4.Frame.Header.le_requiredSize_append`,
`Lz4.Frame.Header.error_requiredSize_append`). Once the flags are there, the size is known
(`Lz4.Frame.Header.requiredSize_append`). A header that was written is parsed as what was written,
whatever follows it, but for the standard block size, which is read back as the size that it stands
for (`Lz4.Frame.Header.parse_of_holds`); conversely, what is parsed as a header was written as one
(`Lz4.Frame.Header.parse_eq_ok`). The codec of headers brings these laws together
(`Lz4.Frame.Header.codec_laws`).
-/

namespace Lz4

/-- Whether this is something that can be wrong with a header. -/
def Corruption.ofHeader : Corruption → Bool
  | .truncated | .wrongMagic _ | .unsupportedVersion _ | .reservedBitsSet | .invalidBlockSize _
  | .headerChecksum => true
  | _ => false

namespace Frame

open Bytes

theorem Flags.ofByte_toByte (flags : Flags) : Flags.ofByte flags.toByte = .ok flags := by
  rcases flags with ⟨_ | _, _ | _, _ | _, _ | _, _ | _⟩ <;> rfl

theorem Flags.toByte_of_ofByte {byte : UInt8} {flags : Flags} (read : ofByte byte = .ok flags) :
    flags.toByte = byte := by
  have all : ∀ value : Fin 256, (ofByte (.ofFin value)).toOption.all fun flags =>
      flags.toByte == .ofFin value := by
    decide +kernel
  have here := all byte.toFin
  rw [UInt8.ofFin_toFin, read] at here
  exact eq_of_beq here

theorem Flags.ofHeader_of_ofByte {byte : UInt8} {reason : Corruption}
    (refused : ofByte byte = .error reason) : reason.ofHeader = true := by
  unfold ofByte at refused
  split at refused
  · cases refused
    rfl
  · split at refused <;> cases refused
    rfl

theorem blockSizeOfByte_ofNat (size : BlockSize) :
    blockSizeOfByte (UInt8.ofNat (16 * size.id)) = .ok size.readBack := by
  cases size <;> rfl

theorem ofNat_id_of_blockSizeOfByte {byte : UInt8} {size : BlockSize}
    (read : blockSizeOfByte byte = .ok size) : UInt8.ofNat (16 * size.id) = byte := by
  have all : ∀ value : Fin 256, (blockSizeOfByte (.ofFin value)).toOption.all fun size =>
      UInt8.ofNat (16 * size.id) == .ofFin value := by
    decide +kernel
  have here := all byte.toFin
  rw [UInt8.ofFin_toFin, read] at here
  exact eq_of_beq here

theorem ofHeader_of_blockSizeOfByte {byte : UInt8} {reason : Corruption}
    (refused : blockSizeOfByte byte = .error reason) : reason.ofHeader = true := by
  unfold blockSizeOfByte at refused
  split at refused
  · cases refused
    rfl
  · split at refused <;> cases refused
    rfl

@[simp] theorem BlockSize.bytes_readBack (size : BlockSize) : size.readBack.bytes = size.bytes := by
  cases size <;> rfl

namespace Header

section Required

variable {data : Bytes}

/-- From the flags on, the bytes that follow do not count. -/
theorem requiredSize_append (flags : 5 ≤ data.size) (more : Bytes) :
    requiredSize (data ++ more) = requiredSize data := by
  have grown : data.size ≤ (data ++ more).size := by
    rw [Array.size_append]
    exact Nat.le_add_right _ _
  have number : (data ++ more).natAt 0 4 = data.natAt 0 4 := natAt_append_left (by omega)
  have byte : (data ++ more).byteAt 4 = data.byteAt 4 := byteAt_append_left flags
  have long : ¬ data.size < 4 := by omega
  have longer : ¬ (data ++ more).size < 4 := by omega
  have known : ¬ data.size < 5 := by omega
  have knownAfter : ¬ (data ++ more).size < 5 := by omega
  rw [requiredSize, requiredSize, if_neg long, if_neg longer, number, byte, if_neg known,
    if_neg knownAfter]

theorem error_requiredSize_append {error : Error} (refused : requiredSize data = .error error)
    (more : Bytes) : requiredSize (data ++ more) = .error error := by
  by_cases flags : 5 ≤ data.size
  · rwa [requiredSize_append flags]
  · unfold requiredSize at refused ⊢
    by_cases short : data.size < 4
    · rw [if_pos short] at refused
      cases refused
    · have number : (data ++ more).natAt 0 4 = data.natAt 0 4 := natAt_append_left (by omega)
      have long : ¬ (data ++ more).size < 4 := by
        rw [Array.size_append]
        omega
      rw [if_neg short] at refused
      rw [if_neg long, number]
      dsimp only at refused ⊢
      by_cases skippable : isSkippable (data.natAt 0 4) = true
      · rw [if_pos skippable] at refused
        cases refused
      · rw [if_neg skippable] at refused ⊢
        by_cases wrong : data.natAt 0 4 ≠ magic
        · rwa [if_pos wrong] at refused ⊢
        · rw [if_neg wrong, if_pos (Nat.lt_of_not_le flags)] at refused
          cases refused

theorem isSkippable_iff {found : Nat} :
    isSkippable found = true ↔ ∃ nibble < 16, found = skippableMagic + nibble := by
  simp only [isSkippable, skippableMagic, beq_iff_eq]
  refine ⟨fun same => ⟨found % 16, Nat.mod_lt _ (by decide), by omega⟩, ?_⟩
  rintro ⟨nibble, small, rfl⟩
  omega

/-- When the size of a header is known and all of it is there, its kind is known as well, and so
are its flags. -/
theorem requiredSize_eq_ok {size : Nat} (required : requiredSize data = .ok size)
    (enough : size ≤ data.size) :
    (∃ nibble < 16, data.natAt 0 4 = skippableMagic + nibble ∧ size = skippableHeaderSize) ∨
      data.natAt 0 4 = magic ∧
        ∃ flags, Flags.ofByte (data.byteAt 4) = .ok flags ∧ size = flags.headerSize := by
  unfold requiredSize at required
  split at required
  · cases required
    omega
  · extract_lets found at required
    split at required
    · rename_i passed
      cases required
      obtain ⟨nibble, small, same⟩ := isSkippable_iff.mp passed
      exact .inl ⟨nibble, small, same, rfl⟩
    · split at required
      · cases required
      · rename_i right
        split at required
        · cases required
          rw [minHeaderSize] at enough
          omega
        · split at required
          · cases required
          · rename_i flags flagsRead
            cases required
            exact .inr ⟨Classical.not_not.mp right, flags, flagsRead, rfl⟩

theorem corruptInput_of_requiredSize {error : Error} (refused : requiredSize data = .error error) :
    ∃ offset reason, error = .corruptInput offset reason ∧ reason.ofHeader = true := by
  unfold requiredSize at refused
  split at refused
  · cases refused
  · extract_lets found at refused
    split at refused
    · cases refused
    · split at refused
      · cases refused
        exact ⟨_, _, rfl, rfl⟩
      · split at refused
        · cases refused
        · split at refused
          · rename_i unread
            cases refused
            exact ⟨_, _, rfl, Flags.ofHeader_of_ofByte unread⟩
          · cases refused

theorem corruptInput_of_ofDescriptor {error : Error} (refused : ofDescriptor data = .error error) :
    ∃ offset reason, error = .corruptInput offset reason ∧ reason.ofHeader = true := by
  unfold ofDescriptor at refused
  split at refused
  · rename_i unread
    cases refused
    exact ⟨_, _, rfl, Flags.ofHeader_of_ofByte unread⟩
  · split at refused
    · rename_i unread
      cases refused
      exact ⟨_, _, rfl, ofHeader_of_blockSizeOfByte unread⟩
    · extract_lets afterSize stop at refused
      split at refused
      · cases refused
        exact ⟨_, _, rfl, rfl⟩
      · cases refused

theorem requiredSize_of_parse {header : Header} {size : Nat}
    (read : parse data = .ok (header, size)) : requiredSize data = .ok size := by
  unfold parse at read
  split at read
  · cases read
  · rename_i required
    rw [required]
    split at read
    · cases read
    · split at read
      · cases read
        rfl
      · cases described : ofDescriptor data with
        | error error =>
          rw [described] at read
          cases read
        | ok found =>
          rw [described] at read
          cases read
          rfl

theorem corruptInput_of_parse {error : Error} (refused : parse data = .error error) :
    ∃ offset reason, error = .corruptInput offset reason ∧ reason.ofHeader = true := by
  unfold parse at refused
  split at refused
  · rename_i required
    cases refused
    exact corruptInput_of_requiredSize required
  · split at refused
    · cases refused
      exact ⟨_, _, rfl, rfl⟩
    · split at refused
      · cases refused
      · cases described : ofDescriptor data with
        | error other =>
          rw [described] at refused
          cases refused
          exact corruptInput_of_ofDescriptor described
        | ok found =>
          rw [described] at refused
          cases refused

theorem five_le_of_requiredSize {size : Nat} (required : requiredSize data = .ok size)
    (enough : size ≤ data.size) : 5 ≤ size := by
  rcases requiredSize_eq_ok required enough with ⟨_, _, _, rfl⟩ | ⟨_, flags, _, rfl⟩
  · decide
  · rw [Flags.headerSize, minHeaderSize]
    omega

/-- A header that is there up to the size that it tells has that size whatever follows. -/
theorem requiredSize_append_of_whole {size : Nat} (required : requiredSize data = .ok size)
    (whole : size = data.size) (more : Bytes) : requiredSize (data ++ more) = .ok size := by
  have flags := five_le_of_requiredSize required (Nat.le_of_eq whole)
  rw [requiredSize_append (whole ▸ flags), required]

/-- What follows a header is not needed to tell its size. -/
theorem requiredSize_extract {size : Nat} (required : requiredSize data = .ok size)
    (enough : size ≤ data.size) : requiredSize (data.extract 0 size) = .ok size := by
  have flags := five_le_of_requiredSize required enough
  have taken : (data.extract 0 size).size = size := Array.size_extract_of_le enough
  have parts : data.extract 0 size ++ data.extract size data.size = data := by
    rw [extract_append_extract (Nat.zero_le size) enough, Array.extract_size]
  rw [← requiredSize_append (taken.symm ▸ flags) (data.extract size data.size), parts, required]

theorem le_requiredSize_append {size larger : Nat} {more : Bytes}
    (required : requiredSize data = .ok size) (after : requiredSize (data ++ more) = .ok larger) :
    size ≤ larger := by
  by_cases flags : 5 ≤ data.size
  · rw [requiredSize_append flags, required] at after
    cases after
    exact Nat.le_refl _
  · by_cases short : data.size < 4
    · have least := four_le_of_requiredSize after
      rw [requiredSize, if_pos short] at required
      cases required
      exact least
    · have number : (data ++ more).natAt 0 4 = data.natAt 0 4 := natAt_append_left (by omega)
      have long : ¬ (data ++ more).size < 4 := by
        rw [Array.size_append]
        omega
      unfold requiredSize at required after
      rw [if_neg short] at required
      rw [if_neg long, number] at after
      dsimp only at required after
      by_cases skippable : isSkippable (data.natAt 0 4) = true
      · rw [if_pos skippable] at required after
        rw [required] at after
        cases after
        exact Nat.le_refl _
      · rw [if_neg skippable] at required after
        by_cases wrong : data.natAt 0 4 ≠ magic
        · rw [if_pos wrong] at required
          cases required
        · rw [if_neg wrong] at required after
          rw [if_pos (Nat.lt_of_not_le flags)] at required
          cases required
          split at after
          · cases after
            exact Nat.le_refl _
          · split at after
            · cases after
            · cases after
              rw [Flags.headerSize]
              omega

end Required

/-- What a header is read back as. -/
def readBack (header : Header) : Header := { header with blockSize := header.blockSize.readBack }

theorem size_descriptor (header : Header) :
    header.descriptor.size =
      2 + (if header.flags.contentSize then 8 else 0) +
        (if header.flags.dictionaryId then 4 else 0) := by
  obtain ⟨kind, blockSize, independent, checksums, checksum, contentSize, dictionaryId⟩ := header
  cases contentSize <;> cases dictionaryId <;> simp [descriptor, flags]

theorem size_encode (header : Header) : header.encode.size = header.flags.headerSize := by
  have descriptor := header.size_descriptor
  have checksum : (#[headerChecksum header.descriptor] : Bytes).size = 1 := rfl
  simp only [encode, Flags.headerSize, minHeaderSize, Array.size_append, size_ofNat, checksum]
  omega

/-- Where the parts of a header lie. -/
theorem holds_encode_iff {header : Header} {data : Bytes} :
    data.Holds 0 header.encode ↔
      data.Holds 0 (Bytes.ofNat 4 magic) ∧ data.Holds 4 header.descriptor ∧
        data.Holds (4 + header.descriptor.size) #[headerChecksum header.descriptor] := by
  rw [encode, Array.append_assoc, holds_append_iff, holds_append_iff, size_ofNat, Nat.zero_add]

/-- Where the parts of a descriptor lie. -/
theorem holds_descriptor_iff {header : Header} {data : Bytes} {pos : Nat} :
    data.Holds pos header.descriptor ↔
      data.byteAt pos = header.flags.toByte ∧
      data.byteAt (pos + 1) = UInt8.ofNat (16 * header.blockSize.id) ∧
      data.Holds (pos + 2) (header.contentSize.elim #[] fun size => Bytes.ofNat 8 size.toNat) ∧
      data.Holds (pos + if header.contentSize.isSome then 10 else 2)
        (header.dictionaryId.elim #[] fun id => Bytes.ofNat 4 id.toNat) := by
  have first : (#[header.flags.toByte, UInt8.ofNat (16 * header.blockSize.id)] : Bytes) =
      #[header.flags.toByte] ++ #[UInt8.ofNat (16 * header.blockSize.id)] := rfl
  have place : pos + (#[header.flags.toByte] ++ #[UInt8.ofNat (16 * header.blockSize.id)] ++
      header.contentSize.elim #[] fun size => Bytes.ofNat 8 size.toNat : Bytes).size =
        pos + if header.contentSize.isSome then 10 else 2 := by
    cases header.contentSize <;> simp
  rw [descriptor, first, holds_append_iff, place, holds_append_iff, holds_append_iff]
  refine ⟨?_, ?_⟩
  · rintro ⟨⟨⟨flagsHeld, sizeHeld⟩, contentHeld⟩, idHeld⟩
    exact ⟨flagsHeld.byteAt_eq, sizeHeld.byteAt_eq, contentHeld, idHeld⟩
  · rintro ⟨flagsByte, sizeByte, contentHeld, idHeld⟩
    have within : pos + 2 ≤ data.size := Nat.le_of_add_right_le contentHeld.within
    exact ⟨⟨⟨holds_byte (by omega) flagsByte, holds_byte within sizeByte⟩, contentHeld⟩, idHeld⟩

/-- A content size is read back from the eight bytes that hold it. -/
theorem word_of_holds {data : Bytes} {pos : Nat} {size : UInt64}
    (held : data.Holds pos (Bytes.ofNat 8 size.toNat)) : data.word pos 8 = size := by
  have value : (data.word pos 8).toNat = size.toNat := held.natAt_eq (Nat.le_refl 8) size.toNat_lt
  exact UInt64.toNat_inj.mp value

theorem word_toUInt32_of_holds {data : Bytes} {pos : Nat} {id : UInt32}
    (held : data.Holds pos (Bytes.ofNat 4 id.toNat)) : (data.word pos 4).toUInt32 = id := by
  have value : (data.word pos 4).toNat = id.toNat := held.natAt_eq (by decide) id.toNat_lt
  apply UInt32.toNat_inj.mp
  rw [UInt64.toNat_toUInt32, value, Nat.mod_eq_of_lt id.toNat_lt]

section Held

variable {header : Header} {data : Bytes}

theorem ofDescriptor_of_holds (held : data.Holds 0 header.encode) (kind : header.kind = .data) :
    ofDescriptor data = .ok header.readBack := by
  obtain ⟨-, descriptorHeld, checksumHeld⟩ := holds_encode_iff.mp held
  obtain ⟨flagsByte, sizeByte, contentHeld, idHeld⟩ := holds_descriptor_iff.mp descriptorHeld
  have size := header.size_descriptor
  have checksum := checksumHeld.byteAt_eq
  have covered := descriptorHeld.extract_eq
  rw [ofDescriptor, flagsByte, Flags.ofByte_toByte]
  dsimp only
  rw [sizeByte, blockSizeOfByte_ofNat]
  dsimp only
  have stop : (if header.flags.dictionaryId then (if header.flags.contentSize then 14 else 6) + 4
      else if header.flags.contentSize then 14 else 6) = 4 + header.descriptor.size := by
    rw [size]
    cases header.flags.contentSize <;> cases header.flags.dictionaryId <;> rfl
  rw [stop, covered, checksum, if_neg (fun differ => differ rfl)]
  congr 1
  obtain ⟨_, blockSize, independent, checksums, checksum, contentSize, dictionaryId⟩ := header
  subst kind
  simp only [readBack, mk.injEq, true_and, flags]
  refine ⟨?_, ?_⟩
  · cases contentSize with
    | none => rfl
    | some size => exact congrArg some (word_of_holds contentHeld)
  · cases dictionaryId with
    | none => rfl
    | some id =>
      cases contentSize with
      | none => exact congrArg some (word_toUInt32_of_holds idHeld)
      | some size => exact congrArg some (word_toUInt32_of_holds idHeld)

theorem requiredSize_of_holds (held : data.Holds 0 header.encode) :
    requiredSize data = .ok header.encode.size := by
  have within := held.within
  obtain ⟨magicHeld, descriptorHeld, -⟩ := holds_encode_iff.mp held
  obtain ⟨flagsByte, -⟩ := holds_descriptor_iff.mp descriptorHeld
  have number : data.natAt 0 4 = magic := magicHeld.natAt_eq (by decide) (by decide)
  rw [Nat.zero_add, size_encode, Flags.headerSize, minHeaderSize] at within
  have long : ¬ data.size < 4 := by omega
  have known : ¬ data.size < 5 := by omega
  rw [requiredSize, if_neg long, number]
  dsimp only
  rw [if_neg (by decide), if_neg (fun wrong => wrong rfl), if_neg known, flagsByte,
    Flags.ofByte_toByte, size_encode]

/-- A header that was written is read back, whatever follows it. -/
theorem parse_of_holds (held : data.Holds 0 header.encode) (kind : header.kind = .data) :
    parse data = .ok (header.readBack, header.encode.size) := by
  have within := held.within
  rw [Nat.zero_add] at within
  have number : data.natAt 0 4 = magic :=
    (holds_encode_iff.mp held).1.natAt_eq (by decide) (by decide)
  rw [parse, requiredSize_of_holds held]
  dsimp only
  rw [if_neg (Nat.not_lt_of_le within), number, if_neg (by decide), ofDescriptor_of_holds held kind]
  rfl

end Held

theorem parse_encode (header : Header) (data : header.kind = .data) :
    parse header.encode = .ok (header.readBack, header.encode.size) :=
  parse_of_holds (holds_self header.encode) data

section Read

variable {data : Bytes} {header : Header} {flags : Flags} {size pos : Nat}

theorem holds_contentSize (announced : Bool)
    (within : pos + (if announced then 8 else 0) ≤ data.size) :
    data.Holds pos ((if announced then some (data.word pos 8) else none).elim #[]
      fun size => Bytes.ofNat 8 size.toNat) := by
  cases announced with
  | false => exact holds_empty within
  | true => exact holds_ofNat_natAt (by decide) within

theorem holds_dictionaryId (announced : Bool)
    (within : pos + (if announced then 4 else 0) ≤ data.size) :
    data.Holds pos ((if announced then some (data.word pos 4).toUInt32 else none).elim #[]
      fun id => Bytes.ofNat 4 id.toNat) := by
  cases announced with
  | false => exact holds_empty within
  | true =>
    have small : (data.word pos 4).toNat < 2 ^ 32 := data.natAt_lt pos (by decide)
    have same : (data.word pos 4).toUInt32.toNat = data.natAt pos 4 := by
      rw [UInt64.toNat_toUInt32, Nat.mod_eq_of_lt small]
      rfl
    simp only [↓reduceIte, Option.elim_some, same]
    exact holds_ofNat_natAt (by decide) within

/-- What is read as a header is what is written for it. -/
theorem holds_encode_of_ofDescriptor (magicHeld : data.Holds 0 (Bytes.ofNat 4 magic))
    (flagsRead : Flags.ofByte (data.byteAt 4) = .ok flags) (enough : flags.headerSize ≤ data.size)
    (read : ofDescriptor data = .ok header) :
    header.kind = .data ∧ header.flags = flags ∧ data.Holds 0 header.encode := by
  unfold ofDescriptor at read
  split at read
  · cases read
  rename_i found foundRead
  cases flagsRead.symm.trans foundRead
  split at read
  · cases read
  · rename_i blockSize sizeRead
    extract_lets afterSize stop at read
    split at read
    · cases read
    · rename_i summed
      cases read
      refine ⟨rfl, ?_⟩
      rw [Flags.headerSize, minHeaderSize] at enough
      have place : afterSize = 6 + if flags.contentSize then 8 else 0 := by
        simp only [afterSize]
        split <;> rfl
      have contentHeld := @holds_contentSize data 6 flags.contentSize (by omega)
      have idHeld := @holds_dictionaryId data afterSize flags.dictionaryId (by omega)
      generalize header_eq : Header.mk .data blockSize flags.independentBlocks
        flags.blockChecksums flags.contentChecksum
        (if flags.contentSize then some (data.word 6 8) else none)
        (if flags.dictionaryId then some (data.word afterSize 4).toUInt32 else none) = header
      have same : header.flags = flags := by
        subst header_eq
        obtain ⟨independent, checks, sized, total, identified⟩ := flags
        cases sized <;> cases identified <;> rfl
      have size := header.size_descriptor
      have stop_eq : stop = 4 + header.descriptor.size := by
        simp only [stop, afterSize, size, same]
        cases flags.contentSize <;> cases flags.dictionaryId <;> rfl
      have descriptorHeld : data.Holds 4 header.descriptor := by
        have sized : header.contentSize.isSome = flags.contentSize :=
          congrArg Flags.contentSize same
        rw [holds_descriptor_iff, same, Flags.toByte_of_ofByte flagsRead, sized]
        subst header_eq
        refine ⟨rfl, (ofNat_id_of_blockSizeOfByte sizeRead).symm, contentHeld, ?_⟩
        have fromFlags : (4 + if flags.contentSize then 10 else 2) = afterSize := by
          simp only [afterSize]
          split <;> rfl
        rw [fromFlags]
        exact idHeld
      have checksumHeld : data.Holds stop #[headerChecksum header.descriptor] := by
        apply holds_byte (by rw [stop_eq, size, same]; omega)
        have covered := descriptorHeld.extract_eq
        rw [← stop_eq] at covered
        rw [← covered]
        exact (Classical.not_not.mp summed).symm
      refine ⟨same, ?_⟩
      rw [holds_encode_iff, ← stop_eq]
      exact ⟨magicHeld, descriptorHeld, checksumHeld⟩

/-- The header of a skippable frame as it is written. -/
def skippable (nibble count : Nat) : Bytes :=
  Bytes.ofNat 4 (skippableMagic + nibble) ++ Bytes.ofNat 4 count

theorem size_skippable (nibble count : Nat) : (skippable nibble count).size = 8 := by
  rw [skippable, Array.size_append, size_ofNat, size_ofNat]

/-- What is parsed as a header is one. -/
theorem parse_eq_ok (read : parse data = .ok (header, size)) :
    (header.kind = .data ∧ data.Holds 0 header.encode ∧ header.encode.size = size) ∨
      ∃ nibble < 16, header = { kind := .skippable nibble, contentSize := some (data.word 4 4) } ∧
        data.Holds 0 (skippable nibble (data.natAt 4 4)) ∧ size = skippableHeaderSize := by
  unfold parse at read
  split at read
  · cases read
  · rename_i required
    split at read
    · cases read
    · rename_i enough
      have within := Nat.le_of_not_lt enough
      have long := four_le_of_requiredSize required
      have numberHeld := @holds_ofNat_natAt data 0 4 (by decide) (by omega)
      rcases requiredSize_eq_ok required within with
        ⟨nibble, small, found, rfl⟩ | ⟨right, flags, flagsRead, rfl⟩
      · rw [found, if_pos (isSkippable_iff.mpr ⟨nibble, small, rfl⟩)] at read
        cases read
        have rest : (skippableMagic + nibble) % 16 = nibble := by
          simp only [skippableMagic]
          omega
        rw [skippableHeaderSize] at within
        refine .inr ⟨nibble, small, ?_, ?_, rfl⟩
        · rw [ofSkippable, found, rest]
        · rw [skippable, ← found, holds_append_iff, size_ofNat]
          exact ⟨numberHeld, holds_ofNat_natAt (by decide) (by omega)⟩
      · rw [right] at read numberHeld
        rw [if_neg (by decide)] at read
        cases described : ofDescriptor data with
        | error error =>
          rw [described] at read
          cases read
        | ok found =>
          rw [described] at read
          cases read
          obtain ⟨kind, same, held⟩ :=
            holds_encode_of_ofDescriptor numberHeld flagsRead within described
          exact .inl ⟨kind, held, by rw [size_encode, same]⟩

theorem parse_skippable {nibble count : Nat} (small : nibble < 16) (short : count < 2 ^ 32) :
    ∃ word : UInt64, word.toNat = count ∧
      parse (skippable nibble count) =
        .ok ({ kind := .skippable nibble, contentSize := some word },
          (skippable nibble count).size) := by
  have size := size_skippable nibble count
  obtain ⟨numberHeld, countHeld⟩ := holds_append_iff.mp (holds_self (skippable nibble count))
  rw [size_ofNat] at countHeld
  have limit : skippableMagic + nibble < 256 ^ 4 := by
    simp only [skippableMagic]
    omega
  have rest : (skippableMagic + nibble) % 16 = nibble := by
    simp only [skippableMagic]
    omega
  have number : (skippable nibble count).natAt 0 4 = skippableMagic + nibble :=
    numberHeld.natAt_eq (by decide) limit
  have passed : isSkippable ((skippable nibble count).natAt 0 4) = true :=
    isSkippable_iff.mpr ⟨nibble, small, number⟩
  refine ⟨_, countHeld.natAt_eq (by decide) short, ?_⟩
  rw [parse, requiredSize, if_neg (by omega)]
  dsimp only
  rw [if_pos passed]
  dsimp only
  rw [skippableHeaderSize, if_neg (by omega), if_pos passed, ofSkippable, number, rest, size]

end Read

section Codec

variable {front rest : Bytes} {size : Nat}

theorem requiredSize_front (required : requiredSize (front ++ rest) = .ok size) :
    ∃ fewer, requiredSize front = .ok fewer ∧ fewer ≤ size := by
  cases told : requiredSize front with
  | error error =>
    have refused := error_requiredSize_append told rest
    rw [required] at refused
    cases refused
  | ok fewer => exact ⟨fewer, rfl, le_requiredSize_append told required⟩

/-- As long as a header is not complete, what is there of it is reported as cut off. -/
theorem parse_front (required : requiredSize (front ++ rest) = .ok size)
    (short : front.size < size) : parse front = .error (.corruptInput front.size .truncated) := by
  obtain ⟨fewer, told, -⟩ := requiredSize_front required
  have lacking : front.size < fewer := by
    -- if all that it asks for were there, the flags would be, and they decide the size
    apply Nat.lt_of_not_le
    intro within
    have flags := Nat.le_trans (five_le_of_requiredSize told within) within
    rw [requiredSize_append flags, told] at required
    cases required
    exact Nat.not_le_of_lt short within
  rw [parse, told]
  dsimp only
  rw [if_pos lacking]

/-- A descriptor is read as if nothing came behind the bytes that its flags ask for. -/
theorem ofDescriptor_append {data : Bytes} {flags : Flags}
    (read : Flags.ofByte (data.byteAt 4) = .ok flags) (whole : flags.headerSize ≤ data.size)
    (more : Bytes) : ofDescriptor (data ++ more) = ofDescriptor data := by
  rw [Flags.headerSize, minHeaderSize] at whole
  have flagByte : (data ++ more).byteAt 4 = data.byteAt 4 := byteAt_append_left (by omega)
  have sizeByte : (data ++ more).byteAt 5 = data.byteAt 5 := byteAt_append_left (by omega)
  unfold ofDescriptor
  rw [flagByte, sizeByte, read]
  dsimp only
  generalize afterSize_eq : (if flags.contentSize = true then 14 else 6) = afterSize
  generalize stop_eq : (if flags.dictionaryId = true then afterSize + 4 else afterSize) = stop
  have inside : stop < data.size := by
    subst stop_eq afterSize_eq
    split <;> split <;> simp_all <;> omega
  have covered : (data ++ more).extract 4 stop = data.extract 4 stop :=
    extract_append_of_le (Nat.le_of_lt inside)
  have sumByte : (data ++ more).byteAt stop = data.byteAt stop := byteAt_append_left inside
  have sizeField : (if flags.contentSize then some ((data ++ more).word 6 8) else none) =
      if flags.contentSize then some (data.word 6 8) else none := by
    by_cases sized : flags.contentSize = true
    · rw [if_pos sized, if_pos sized, word_append_left]
      rw [if_pos sized] at whole
      omega
    · rw [if_neg sized, if_neg sized]
  have idField : (if flags.dictionaryId then
        some ((data ++ more).word afterSize 4).toUInt32 else none) =
      if flags.dictionaryId then some (data.word afterSize 4).toUInt32 else none := by
    by_cases named : flags.dictionaryId = true
    · rw [if_pos named, if_pos named, word_append_left]
      rw [if_pos named] at stop_eq
      omega
    · rw [if_neg named, if_neg named]
  rw [covered, sumByte, sizeField, idField]

/-- A header that is all there is read, or found to be wrong, as if nothing came behind it. -/
theorem parse_append {data : Bytes} (required : requiredSize data = .ok size)
    (whole : size = data.size) (more : Bytes) : parse (data ++ more) = parse data := by
  have requiredAfter := requiredSize_append_of_whole required whole more
  have number : (data ++ more).natAt 0 4 = data.natAt 0 4 :=
    natAt_append_left (whole ▸ four_le_of_requiredSize required)
  have fits : ¬ (data ++ more).size < size := by
    rw [Array.size_append]
    omega
  have fitsFront : ¬ data.size < size := by omega
  rw [parse, parse, required, requiredAfter]
  dsimp only
  rw [if_neg fits, if_neg fitsFront, number]
  rcases requiredSize_eq_ok required (Nat.le_of_eq whole) with
    ⟨nibble, small, same, eight⟩ | ⟨same, flags, read, described⟩
  · have passed : isSkippable (data.natAt 0 4) = true := isSkippable_iff.mpr ⟨nibble, small, same⟩
    have field : (data ++ more).word 4 4 = data.word 4 4 :=
      word_append_left (by rw [← whole, eight]; decide)
    rw [if_pos passed, if_pos passed, ofSkippable, ofSkippable, number, field]
  · have kept : ¬ isSkippable (data.natAt 0 4) = true := by
      rw [same]
      decide
    rw [if_neg kept, if_neg kept, ofDescriptor_append read (by omega)]

theorem parse_extract_of_required {data : Bytes} (required : requiredSize data = .ok size)
    (enough : size ≤ data.size) : parse (data.extract 0 size) = parse data := by
  have taken : (data.extract 0 size).size = size := Array.size_extract_of_le enough
  have same := parse_append (requiredSize_extract required enough) taken.symm
    (data.extract size data.size)
  rw [extract_append_extract (Nat.zero_le size) enough, Array.extract_size] at same
  exact same.symm

/-- What follows a header is not needed to read it. -/
theorem parse_extract {data : Bytes} {header : Header} (read : parse data = .ok (header, size)) :
    parse (data.extract 0 size) = .ok (header, size) := by
  rw [parse_extract_of_required (requiredSize_of_parse read) (size_of_parse read).2, read]

theorem size_encode_bounds (header : Header) :
    minHeaderSize ≤ header.encode.size ∧ header.encode.size ≤ maxHeaderSize := by
  rw [size_encode, Flags.headerSize, Nat.add_assoc]
  refine ⟨Nat.le_add_right _ _, ?_⟩
  cases header.flags.contentSize <;> cases header.flags.dictionaryId <;> decide

/-- Headers are written and read without loss. A header is read back in front of any bytes, along
with its exact size. What is read as the header of a data frame is, byte for byte, what is written
for it. The first bytes of a header never ask for more than all of them do, and they are reported as
cut off where they end. -/
theorem codec_laws :
    (∀ (header : Header) (rest : Bytes), header.kind = .data →
      parse (header.encode ++ rest) = .ok (header.readBack, header.encode.size) ∧
        minHeaderSize ≤ header.encode.size ∧ header.encode.size ≤ maxHeaderSize) ∧
    (∀ (data : Bytes) (header : Header) (size : Nat), parse data = .ok (header, size) →
      header.kind = .data → header.encode = data.extract 0 size) ∧
    ∀ (front rest : Bytes) (size : Nat), requiredSize (front ++ rest) = .ok size →
      (∃ fewer, requiredSize front = .ok fewer ∧ fewer ≤ size) ∧
        (front.size < size → parse front = .error (.corruptInput front.size .truncated)) := by
  refine ⟨?reads, ?writes, ?fronts⟩
  case reads =>
    intro header rest kind
    exact ⟨parse_of_holds (holds_append_left header.encode rest) kind, header.size_encode_bounds⟩
  case writes =>
    intro data header size read kind
    rcases parse_eq_ok read with ⟨-, held, rfl⟩ | ⟨nibble, -, rfl, -⟩
    · have taken := held.extract_eq
      rw [Nat.zero_add] at taken
      exact taken.symm
    · cases kind
  case fronts =>
    intro front rest size required
    exact ⟨requiredSize_front required, parse_front required⟩

theorem codec_laws_full :
    let header : Header := {
      blockSize := .max4MB
      independentBlocks := true
      blockChecksums := true
      contentChecksum := true
      contentSize := some 123456789
      dictionaryId := some 0xdeadbeef }
    parse (header.encode ++ #[0, 1]) = .ok (header, maxHeaderSize) ∧
      header.encode = (header.encode ++ #[0, 1]).extract 0 maxHeaderSize ∧
      parse #[0x04, 0x22, 0x4d, 0x18, 0x7d] = .error (.corruptInput 5 .truncated) := by
  intro header
  obtain ⟨reads, writes, fronts⟩ := codec_laws
  have read := (reads header #[0, 1] rfl).1
  have size : header.encode.size = maxHeaderSize := header.size_encode
  rw [size] at read
  have required :
      requiredSize (#[0x04, 0x22, 0x4d, 0x18, 0x7d] ++ #[0x70, 0x15]) = .ok maxHeaderSize := by
    rfl
  exact ⟨read, writes _ header maxHeaderSize read rfl, (fronts _ _ _ required).2 (by decide)⟩

end Codec

end Header

end Frame

end Lz4
