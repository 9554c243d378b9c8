import Mathlib.Data.List.TakeWhile
import GarudaCodec.FileTransfer.Protocol

/-! # The header as a format

What a header is turned into and read back as, for every header, and which buffers are read as
headers at all.  A name that the field keeps as it is is `Canonical`; every other name is
normalised to such a one, and the canonical encodings are those of headers with canonical names.
-/

namespace GarudaCodec.FileTransfer

open GarudaCodec.Foundation
open GarudaCodec.Foundation.BigEndian

/-! ## Names that the field keeps -/

structure Canonical (name : String) : Prop where
  fits : name.utf8ByteSize ≤ fileNameLen
  noWhitespace : ∀ char ∈ name.toList, isWhitespace char = false
  noNul : ∀ char ∈ name.toList, char ≠ '\x00'

theorem withoutWhitespace_eq_self {name : String} :
    withoutWhitespace name = name ↔ ∀ char ∈ name.toList, isWhitespace char = false := by
  have characters : withoutWhitespace name = name ↔
      (name.toList.filter fun char => !isWhitespace char) = name.toList := by
    rw [withoutWhitespace, ← String.toList_inj, String.toList_ofList]
  rw [characters, List.filter_eq_self]
  simp

theorem transmittedName_eq {name truncated : String}
    (truncation : truncateUtf8 name fileNameLen = some truncated) :
    transmittedName name =
      String.ofList ((withoutWhitespace truncated).toList.takeWhile (· != '\x00')) := by
  rw [transmittedName, truncation, withoutWhitespace, String.toList_ofList]

theorem Canonical.transmittedName {name : String} (canonical : Canonical name) :
    transmittedName name = name := by
  have truncation : truncateUtf8 name fileNameLen = some name := by
    rw [truncateUtf8, if_pos canonical.fits]
  have uncut : name.toList.takeWhile (· != '\x00') = name.toList := by
    apply List.takeWhile_eq_self_iff.mpr
    intro char member
    simpa using canonical.noNul char member
  rw [transmittedName_eq truncation, withoutWhitespace_eq_self.mpr canonical.noWhitespace, uncut,
    String.ofList_toList]

/-- Whatever the name, the one that the receiver recovers is kept by a second transfer. -/
theorem canonical_transmittedName (name : String) : Canonical (transmittedName name) := by
  obtain ⟨kept, rest, -, truncation, fits, -⟩ := truncateUtf8_spec name fileNameLen
  have bytes := asBytes_transmittedName truncation
  rw [transmittedName_eq truncation] at bytes ⊢
  refine ⟨?_, fun char member => ?_, fun char member => ?_⟩
  · calc (String.ofList _).utf8ByteSize
        = ((asBytes (withoutWhitespace (String.ofList kept))).takeWhile (· != 0)).length := by
          rw [← bytes, length_asBytes]
      _ ≤ (asBytes (withoutWhitespace (String.ofList kept))).length :=
          (List.takeWhile_prefix _).length_le
      _ ≤ (asBytes (String.ofList kept)).length := length_withoutWhitespace _
      _ ≤ fileNameLen := fits
  · rw [String.toList_ofList] at member
    have unfiltered := (List.takeWhile_prefix _).subset member
    rw [withoutWhitespace, String.toList_ofList] at unfiltered
    simpa using (List.mem_filter.mp unfiltered).2
  · rw [String.toList_ofList] at member
    simpa using List.mem_takeWhile_imp member

/-! ## From a header and back -/

/-- The longest prefix of characters that fits into the name field. -/
structure LongestFitting (name : String) (kept : List Char) : Prop where
  isPrefix : kept <+: name.toList
  fits : (String.ofList kept).utf8ByteSize ≤ fileNameLen
  longest : ∀ other, other <+: name.toList →
    (String.ofList other).utf8ByteSize ≤ fileNameLen → other <+: kept

theorem truncateUtf8_longest (name : String) :
    ∃ kept, truncateUtf8 name fileNameLen = some (String.ofList kept) ∧
      LongestFitting name kept := by
  obtain ⟨kept, rest, characters, truncation, fits, next⟩ := truncateUtf8_spec name fileNameLen
  refine ⟨kept, truncation, ⟨rest, characters.symm⟩, fits, fun other isPrefix otherFits => ?_⟩
  by_contra notPrefix
  have longer : kept.length < other.length := by
    by_contra shorter
    exact notPrefix (List.prefix_of_prefix_length_le isPrefix ⟨rest, characters.symm⟩ (by omega))
  -- a longer prefix contains the character that did not fit
  obtain ⟨char, first, within⟩ := exists_next_of_longer (characters ▸ isPrefix) longer
  have tooLong := next char first
  omega

/-- Serialising never panics and fills exactly the header; what is read back differs only in the
    name, of which the field keeps the whitespace-free characters of the longest prefix that fits,
    up to the first NUL; and nothing changes the second time. -/
theorem DatagramHeader.header_round_trip (header : DatagramHeader) :
    ∃ bytes kept, header.serialize = some bytes ∧ bytes.length = datagramHeaderLen ∧
      LongestFitting header.fileName kept ∧
      ∃ recovered, recovered = { header with
          fileName := String.ofList ((kept.filter fun char => !isWhitespace char).takeWhile
            (· != '\x00')) } ∧
        (∀ rest, deserialize (bytes ++ rest) = .ok recovered) ∧
        ∃ again, recovered.serialize = some again ∧
          ∀ rest, deserialize (again ++ rest) = .ok recovered := by
  obtain ⟨kept, truncation, longest⟩ := truncateUtf8_longest header.fileName
  obtain ⟨bytes, serializes, length, reads⟩ := header.deserialize_serialize
  have name : transmittedName header.fileName =
      String.ofList ((kept.filter fun char => !isWhitespace char).takeWhile (· != '\x00')) := by
    rw [transmittedName_eq truncation, withoutWhitespace, String.toList_ofList,
      String.toList_ofList]
  refine ⟨bytes, kept, serializes, length, longest, _, rfl, fun rest => ?_, ?_⟩
  · rw [← name]
    exact reads rest
  · obtain ⟨again, serializesAgain, -, readsAgain⟩ :=
      deserialize_serialize { header with fileName := transmittedName header.fileName }
    rw [← name]
    refine ⟨again, serializesAgain, fun rest => ?_⟩
    rw [readsAgain rest, (canonical_transmittedName header.fileName).transmittedName]

/-! ## From a buffer and back -/

theorem fromUtf8_isSome {bytes : List UInt8} :
    (∃ string, fromUtf8 bytes = some string) ↔ bytes.toByteArray.IsValidUTF8 := by
  rw [fromUtf8, String.fromUTF8?]
  split
  · next valid => simp [valid]
  · next invalid => simp [invalid]

theorem field_take {buf : List UInt8} {start width count : Nat} (inside : start + width ≤ count) :
    field (buf.take count) start width = field buf start width := by
  rw [field, field, List.drop_take, List.take_take, Nat.min_eq_left (by omega)]

/-- The bytes of a header are those of its fields. -/
theorem take_header (buf : List UInt8) :
    buf.take datagramHeaderLen = field buf 0 16 ++ (field buf 16 8 ++ (field buf 24 8 ++
      (field buf 32 4 ++ field buf 36 fileNameLen))) := by
  have whole : datagramHeaderLen = 16 + (8 + (8 + (4 + fileNameLen))) := rfl
  simp only [whole, field, List.take_add, List.drop_drop, List.drop_zero]

section Accepted

variable {buf : List UInt8} {header : DatagramHeader}

theorem DatagramHeader.exists_deserialize :
    (∃ header, deserialize buf = .ok header) ↔
      datagramHeaderLen ≤ buf.length ∧ (nameBytes buf).toByteArray.IsValidUTF8 := by
  rw [← fromUtf8_isSome]
  constructor
  · rintro ⟨header, read⟩
    refine ⟨length_of_deserialize read, header.fileName, ?_⟩
    rw [← asBytes_fileName read, fromUtf8_asBytes]
  · rintro ⟨enough, fileName, decoded⟩
    rw [deserialize_of_length enough, strFromUtf8, decoded]
    exact ⟨_, rfl⟩

/-- Only the first bytes of a buffer are read. -/
theorem DatagramHeader.deserialize_take (buf : List UInt8) :
    deserialize (buf.take datagramHeaderLen) = deserialize buf := by
  by_cases enough : datagramHeaderLen ≤ buf.length
  · have whole : datagramHeaderLen ≤ (buf.take datagramHeaderLen).length := by
      rw [List.length_take, Nat.min_eq_left enough]
    have sameName : nameBytes (buf.take datagramHeaderLen) = nameBytes buf := by
      rw [nameBytes, nameBytes, field_take (by decide)]
    rw [deserialize_of_length whole, deserialize_of_length enough, sameName]
    simp only [field_take (show 0 + 16 ≤ datagramHeaderLen by decide),
      field_take (show 16 + 8 ≤ datagramHeaderLen by decide),
      field_take (show 24 + 8 ≤ datagramHeaderLen by decide),
      field_take (show 32 + 4 ≤ datagramHeaderLen by decide)]
  · rw [List.take_of_length_le (by omega)]

/-- The fields of an accepted buffer are serialised as they stand in it. -/
theorem DatagramHeader.layout_deserialized (read : deserialize buf = .ok header)
    (name : List UInt8) :
    header.layout name = field buf 0 16 ++ (field buf 16 8 ++ (field buf 24 8 ++
      (field buf 32 4 ++ (name ++ List.replicate (fileNameLen - name.length) 0)))) := by
  have enough := length_of_deserialize read
  have whole : 292 ≤ buf.length := enough
  have fileLength := length_field (show 16 + 8 ≤ buf.length by omega)
  have chunkOffset := length_field (show 24 + 8 ≤ buf.length by omega)
  have payloadLength := length_field (show 32 + 4 ≤ buf.length by omega)
  rw [deserialize_of_length enough, strFromUtf8] at read
  cases decoded : fromUtf8 (nameBytes buf) with
  | none =>
    rw [decoded] at read
    cases read
  | some fileName =>
    rw [decoded] at read
    rw [← Outcome.ok.inj read, layout]
    simp only
    rw [UInt64.toNat_ofNat_of_lt' (fromBeBytes_lt fileLength),
      UInt64.toNat_ofNat_of_lt' (fromBeBytes_lt chunkOffset),
      UInt32.toNat_ofNat_of_lt' (fromBeBytes_lt payloadLength), toBeBytes_fromBeBytes fileLength,
      toBeBytes_fromBeBytes chunkOffset, toBeBytes_fromBeBytes payloadLength]

theorem DatagramHeader.serialize_deserialized (read : deserialize buf = .ok header) :
    header.serialize = some (header.layout (asBytes (withoutWhitespace header.fileName))) := by
  have fits : (asBytes header.fileName).length ≤ fileNameLen := by
    rw [asBytes_fileName read, nameBytes, field]
    exact Nat.le_trans (List.takeWhile_prefix _).length_le (List.length_take_le _ _)
  have small := Nat.le_trans (length_withoutWhitespace header.fileName) fits
  have truncation : truncateUtf8 header.fileName fileNameLen = some header.fileName := if_pos fits
  rw [serialize, truncation]
  exact if_pos small

/-- Without its whitespace a name is as long as before only if it has none. -/
theorem withoutWhitespace_of_length {name : String}
    (length : (asBytes name).length ≤ (asBytes (withoutWhitespace name)).length) :
    withoutWhitespace name = name := by
  have kept : ((name.toList.filter fun char => !isWhitespace char).flatMap
      String.utf8EncodeChar).Sublist (name.toList.flatMap String.utf8EncodeChar) :=
    List.filter_sublist.flatMap _
  rw [← asBytes_ofList, ← asBytes_eq] at kept
  exact asBytes_injective (kept.eq_of_length_le length)

/-- A padded name is the name field itself exactly when nothing was taken from the name and
    nothing stands behind its end. -/
theorem padded_eq_field {name : String} (whole : 36 + fileNameLen ≤ buf.length)
    (bytes : asBytes name = nameBytes buf) :
    asBytes (withoutWhitespace name) ++
        List.replicate (fileNameLen - (asBytes (withoutWhitespace name)).length) 0 =
          field buf 36 fileNameLen ↔
      (∀ char ∈ name.toList, isWhitespace char = false) ∧
        ∀ byte ∈ (field buf 36 fileNameLen).dropWhile (· != 0), byte = 0 := by
  have length := length_field whole
  have parts : nameBytes buf ++ (field buf 36 fileNameLen).dropWhile (· != 0) =
      field buf 36 fileNameLen := List.takeWhile_append_dropWhile
  rw [← withoutWhitespace_eq_self]
  constructor
  · intro same
    -- up to the first zero byte, the field holds no more than the whitespace-free name
    have cut : (asBytes (withoutWhitespace name)).takeWhile (· != 0) = asBytes name := by
      rw [bytes, nameBytes, ← same, takeWhile_padded]
    have unchanged : withoutWhitespace name = name := by
      apply withoutWhitespace_of_length
      rw [← cut]
      exact (List.takeWhile_prefix _).length_le
    refine ⟨unchanged, fun byte member => ?_⟩
    rw [unchanged, ← parts, ← bytes] at same
    rw [← List.append_cancel_left same] at member
    exact List.eq_of_mem_replicate member
  · rintro ⟨unchanged, zeros⟩
    have padding := List.eq_replicate_of_mem zeros
    have rest : ((field buf 36 fileNameLen).dropWhile (· != 0)).length =
        fileNameLen - (nameBytes buf).length := by
      have total := congrArg List.length parts
      rw [List.length_append, length] at total
      omega
    rw [rest] at padding
    rw [unchanged, bytes, ← padding, parts]

theorem DatagramHeader.canonical_iff (read : deserialize buf = .ok header) :
    header.serialize = some (buf.take datagramHeaderLen) ↔
      (∀ char ∈ header.fileName.toList, isWhitespace char = false) ∧
        ∀ byte ∈ (field buf 36 fileNameLen).dropWhile (· != 0), byte = 0 := by
  rw [serialize_deserialized read, Option.some_inj, layout_deserialized read, take_header,
    List.append_cancel_left_eq, List.append_cancel_left_eq, List.append_cancel_left_eq,
    List.append_cancel_left_eq]
  exact padded_eq_field (length_of_deserialize read) (asBytes_fileName read)

end Accepted

/-- A buffer is a header exactly when it is long enough and its name is valid UTF-8, whatever
    stands behind the header; and it is the serialised form of what it is read as exactly when its
    name has no whitespace and nothing but zeros stands behind the name. -/
theorem DatagramHeader.deserialize_accepts (buf : List UInt8) :
    deserialize buf ≠ .panic ∧
      ((∃ header, deserialize buf = .ok header) ↔
        datagramHeaderLen ≤ buf.length ∧ (nameBytes buf).toByteArray.IsValidUTF8) ∧
      (∀ other : List UInt8, other.take datagramHeaderLen = buf.take datagramHeaderLen →
        deserialize other = deserialize buf) ∧
      ∀ header, deserialize buf = .ok header →
        asBytes header.fileName = nameBytes buf ∧
        (header.serialize = some (buf.take datagramHeaderLen) ↔
          (∀ char ∈ header.fileName.toList, isWhitespace char = false) ∧
            ∀ byte ∈ (field buf 36 fileNameLen).dropWhile (· != 0), byte = 0) := by
  refine ⟨deserialize_ne_panic buf, exists_deserialize, fun other same => ?_,
    fun header read => ⟨asBytes_fileName read, canonical_iff read⟩⟩
  rw [← deserialize_take other, same, deserialize_take]

end GarudaCodec.FileTransfer
