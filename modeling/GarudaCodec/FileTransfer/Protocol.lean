import Mathlib.Data.List.Flatten
import GarudaCodec.Foundation.BigEndian
import GarudaCodec.Foundation.Outcome
import GarudaCodec.FileTransfer.Strings

/-! # `protocol.rs`: the datagram header

A header has a fixed length: four numbers, then the file name in a field of 256 bytes padded with
zeros.  `deserialize_of_length` says what any sufficiently long buffer is read as, and
`deserialize_serialize` that a header comes back with its file name normalised.
-/

namespace GarudaCodec.FileTransfer

open GarudaCodec.Foundation
open GarudaCodec.Foundation.BigEndian

def fileNameLen : Nat := 256
def datagramHeaderLen : Nat := 16 + 8 + 8 + 4 + fileNameLen

structure Uuid where
  bytes : List UInt8
  length_bytes : bytes.length = 16
deriving DecidableEq

/-- `Uuid::nil`. -/
def Uuid.nil : Uuid := ⟨List.replicate 16 0, List.length_replicate⟩

structure DatagramHeader where
  fileId : Uuid
  fileLength : UInt64
  chunkOffset : UInt64
  payloadLength : UInt32
  fileName : String
deriving DecidableEq

inductive DatagramHeaderDeserializationError where
  | bufferTooSmall
  | invalidUuid
  | invalidUtf8
deriving DecidableEq, Repr

/-! ## Serialisation -/

/-- The whitespace-free name that goes into the name field. -/
def withoutWhitespace (name : String) : String :=
  String.ofList (name.toList.filter fun char => !isWhitespace char)

/-- The buffer with all fields in it; the name is padded with zeros. -/
def DatagramHeader.layout (header : DatagramHeader) (name : List UInt8) : List UInt8 :=
  header.fileId.bytes ++ (toBeBytes 8 header.fileLength.toNat ++
    (toBeBytes 8 header.chunkOffset.toNat ++ (toBeBytes 4 header.payloadLength.toNat ++
      (name ++ List.replicate (fileNameLen - name.length) 0))))

/-- `none` is a panic: of the truncation, or the underflow of the padding's length. -/
def DatagramHeader.serialize (header : DatagramHeader) : Option (List UInt8) :=
  match truncateUtf8 header.fileName fileNameLen with
  | none => none
  | some truncated =>
    let name := asBytes (withoutWhitespace truncated)
    if name.length ≤ fileNameLen then some (header.layout name) else none

/-! ## Deserialisation -/

/-- `&buf[start..stop]`, which panics when it is out of bounds. -/
def slice (buf : List UInt8) (start stop : Nat) : Option (List UInt8) :=
  if start ≤ stop ∧ stop ≤ buf.length then some ((buf.drop start).take (stop - start)) else none

def Uuid.fromSlice (bytes : List UInt8) : Outcome DatagramHeaderDeserializationError Uuid :=
  if sixteen : bytes.length = 16 then .ok ⟨bytes, sixteen⟩ else .err .invalidUuid

/-- `from_be_bytes` of a slice that is first converted to an array of `width` bytes. -/
def fromBeSlice (width : Nat) (bytes : List UInt8) :
    Outcome DatagramHeaderDeserializationError Nat :=
  if bytes.length = width then .ok (fromBeBytes bytes) else .err .bufferTooSmall

def strFromUtf8 (bytes : List UInt8) : Outcome DatagramHeaderDeserializationError String :=
  match fromUtf8 bytes with
  | some string => .ok string
  | none => .err .invalidUtf8

def DatagramHeader.deserialize (buf : List UInt8) :
    Outcome DatagramHeaderDeserializationError DatagramHeader :=
  if buf.length < datagramHeaderLen then .err .bufferTooSmall
  else do
    let fileId ← Uuid.fromSlice (← Outcome.orPanic (slice buf 0 (0 + 16)))
    let fileLength ← fromBeSlice 8 (← Outcome.orPanic (slice buf 16 (16 + 8)))
    let chunkOffset ← fromBeSlice 8 (← Outcome.orPanic (slice buf 24 (24 + 8)))
    let payloadLength ← fromBeSlice 4 (← Outcome.orPanic (slice buf 32 (32 + 4)))
    let rawName ← Outcome.orPanic (slice buf 36 (36 + fileNameLen))
    let stop := (rawName.findIdx? (· == 0)).getD fileNameLen
    let fileName ← strFromUtf8 (← Outcome.orPanic (slice rawName 0 stop))
    return {
      fileId
      fileLength := UInt64.ofNat fileLength
      chunkOffset := UInt64.ofNat chunkOffset
      payloadLength := UInt32.ofNat payloadLength
      fileName }

/-! ## What a buffer is read as -/

/-- The bytes of a field of `width` bytes that begins at `start`. -/
def field (buf : List UInt8) (start width : Nat) : List UInt8 := (buf.drop start).take width

/-- The bytes of the name field before its first zero byte. -/
def nameBytes (buf : List UInt8) : List UInt8 := (field buf 36 fileNameLen).takeWhile (· != 0)

theorem length_field {buf : List UInt8} {start width : Nat}
    (inside : start + width ≤ buf.length) : (field buf start width).length = width := by
  rw [field, List.length_take, List.length_drop]
  omega

theorem slice_field {buf : List UInt8} {start width : Nat}
    (inside : start + width ≤ buf.length) :
    slice buf start (start + width) = some (field buf start width) := by
  rw [slice, if_pos ⟨by omega, inside⟩, field, Nat.add_sub_cancel_left]

/-- Cutting at `position(..).unwrap_or(FILE_NAME_LEN)` is cutting at the first zero byte. -/
theorem slice_name {rawName : List UInt8} (length : rawName.length = fileNameLen) :
    slice rawName 0 ((rawName.findIdx? (· == 0)).getD fileNameLen) =
      some (rawName.takeWhile (· != 0)) := by
  have stop : (rawName.findIdx? (· == 0)).getD fileNameLen = rawName.findIdx (· == 0) := by
    rw [List.findIdx_eq_getD_findIdx?, length]
  have cut : rawName.takeWhile (· != 0) = rawName.take (rawName.findIdx (· == 0)) := by
    rw [List.takeWhile_eq_take_findIdx_not]
    congr 2
    funext byte
    simp [bne]
  rw [stop, cut, slice, if_pos ⟨Nat.zero_le _, List.findIdx_le_length⟩, List.drop_zero,
    Nat.sub_zero]

/-- A buffer that is long enough is a header exactly when its name is valid UTF-8. -/
theorem DatagramHeader.deserialize_of_length {buf : List UInt8}
    (enough : datagramHeaderLen ≤ buf.length) :
    deserialize buf = (strFromUtf8 (nameBytes buf)).bind fun fileName => .ok {
      fileId := ⟨field buf 0 16, length_field (Nat.le_trans (by decide) enough)⟩
      fileLength := UInt64.ofNat (fromBeBytes (field buf 16 8))
      chunkOffset := UInt64.ofNat (fromBeBytes (field buf 24 8))
      payloadLength := UInt32.ofNat (fromBeBytes (field buf 32 4))
      fileName } := by
  have whole : 292 ≤ buf.length := enough
  have nameLength : (field buf 36 fileNameLen).length = fileNameLen :=
    length_field (by rw [fileNameLen]; omega)
  have fileId := length_field (show 0 + 16 ≤ buf.length by omega)
  have fileLength := length_field (show 16 + 8 ≤ buf.length by omega)
  have chunkOffset := length_field (show 24 + 8 ≤ buf.length by omega)
  have payloadLength := length_field (show 32 + 4 ≤ buf.length by omega)
  rw [deserialize, if_neg (by omega)]
  rw [slice_field (by omega), slice_field (by omega), slice_field (by omega),
    slice_field (by omega), slice_field (by rw [fileNameLen]; omega)]
  simp only [Outcome.orPanic_some, Outcome.bind_ok, Uuid.fromSlice, dif_pos fileId, fromBeSlice,
    if_pos fileLength, if_pos chunkOffset, if_pos payloadLength, slice_name nameLength]
  rfl

theorem DatagramHeader.length_of_deserialize {buf : List UInt8} {header : DatagramHeader}
    (read : deserialize buf = .ok header) : datagramHeaderLen ≤ buf.length := by
  by_contra short
  rw [deserialize, if_pos (by omega)] at read
  cases read

theorem DatagramHeader.asBytes_fileName {buf : List UInt8} {header : DatagramHeader}
    (read : deserialize buf = .ok header) : asBytes header.fileName = nameBytes buf := by
  rw [deserialize_of_length (length_of_deserialize read), strFromUtf8] at read
  cases decoded : fromUtf8 (nameBytes buf) with
  | none =>
    rw [decoded] at read
    cases read
  | some fileName =>
    rw [decoded] at read
    rw [← Outcome.ok.inj read]
    exact asBytes_of_fromUtf8 decoded

theorem DatagramHeader.deserialize_ne_panic (buf : List UInt8) : deserialize buf ≠ .panic := by
  intro panics
  by_cases enough : datagramHeaderLen ≤ buf.length
  · rw [deserialize_of_length enough, strFromUtf8] at panics
    cases decoded : fromUtf8 (nameBytes buf) with
    | none =>
      rw [decoded] at panics
      cases panics
    | some fileName =>
      rw [decoded] at panics
      cases panics
  · rw [deserialize, if_pos (by omega)] at panics
    cases panics

theorem DatagramHeader.deserialize_eq_ok {buf : List UInt8} {header : DatagramHeader}
    (enough : datagramHeaderLen ≤ buf.length)
    (fileId : field buf 0 16 = header.fileId.bytes)
    (fileLength : fromBeBytes (field buf 16 8) = header.fileLength.toNat)
    (chunkOffset : fromBeBytes (field buf 24 8) = header.chunkOffset.toNat)
    (payloadLength : fromBeBytes (field buf 32 4) = header.payloadLength.toNat)
    (fileName : nameBytes buf = asBytes header.fileName) : deserialize buf = .ok header := by
  rw [deserialize_of_length enough, strFromUtf8, fileName, fromUtf8_asBytes]
  simp [Outcome.bind, fileId, fileLength, chunkOffset, payloadLength]

/-! ## The round trip -/

/-- The name the receiver recovers: truncated, without whitespace, and cut at the first NUL. -/
def transmittedName (fileName : String) : String :=
  match truncateUtf8 fileName fileNameLen with
  | none => ""
  | some truncated =>
    String.ofList ((truncated.toList.filter fun char => !isWhitespace char).takeWhile
      (· != '\x00'))

theorem length_withoutWhitespace (name : String) :
    (asBytes (withoutWhitespace name)).length ≤ (asBytes name).length := by
  rw [withoutWhitespace, asBytes_ofList, asBytes_eq]
  exact (List.filter_sublist.flatMap _).length_le

theorem field_head {part tail : List UInt8} {width : Nat} (size : part.length = width) :
    field (part ++ tail) 0 width = part := by
  rw [field, List.drop_zero, List.take_left' size]

theorem field_skip {part tail : List UInt8} {size start width : Nat} (length : part.length = size) :
    field (part ++ tail) (size + start) width = field tail start width := by
  rw [field, ← List.drop_drop, List.drop_left' length, field]

theorem asBytes_transmittedName {fileName truncated : String}
    (truncation : truncateUtf8 fileName fileNameLen = some truncated) :
    asBytes (transmittedName fileName) =
      (asBytes (withoutWhitespace truncated)).takeWhile (· != 0) := by
  simp only [transmittedName, truncation]
  rw [asBytes_ofList, withoutWhitespace, asBytes_ofList, takeWhile_flatMap_utf8EncodeChar]

/-- A name field is padded with zeros, so cutting it gives the name up to its own first zero. -/
theorem takeWhile_padded (name : List UInt8) (count : Nat) :
    (name ++ List.replicate count 0).takeWhile (· != 0) = name.takeWhile (· != 0) := by
  induction name with
  | nil =>
    cases count with
    | zero => rfl
    | succ count => rfl
  | cons byte name inductionHypothesis =>
    rw [List.cons_append, List.takeWhile_cons, List.takeWhile_cons, inductionHypothesis]

section Layout

variable (header : DatagramHeader) {name : List UInt8} (rest : List UInt8)

theorem DatagramHeader.length_fields :
    header.fileId.bytes.length = 16 ∧ (toBeBytes 8 header.fileLength.toNat).length = 8 ∧
      (toBeBytes 8 header.chunkOffset.toNat).length = 8 ∧
      (toBeBytes 4 header.payloadLength.toNat).length = 4 :=
  ⟨header.fileId.length_bytes, length_toBeBytes header.fileLength.toNat_lt,
    length_toBeBytes header.chunkOffset.toNat_lt, length_toBeBytes header.payloadLength.toNat_lt⟩

theorem length_padded (fits : name.length ≤ fileNameLen) :
    (name ++ List.replicate (fileNameLen - name.length) 0).length = fileNameLen := by
  rw [List.length_append, List.length_replicate]
  omega

theorem DatagramHeader.length_layout (fits : name.length ≤ fileNameLen) :
    (header.layout name).length = datagramHeaderLen := by
  obtain ⟨fileId, fileLength, chunkOffset, payloadLength⟩ := header.length_fields
  rw [layout, List.length_append, List.length_append, List.length_append, List.length_append,
    length_padded fits, fileId, fileLength, chunkOffset, payloadLength]
  rfl

theorem DatagramHeader.nameBytes_layout (fits : name.length ≤ fileNameLen) :
    nameBytes (header.layout name ++ rest) = name.takeWhile (· != 0) := by
  obtain ⟨fileId, fileLength, chunkOffset, payloadLength⟩ := header.length_fields
  simp only [layout, List.append_assoc]
  rw [nameBytes, show 36 = 16 + (8 + (8 + (4 + 0))) from rfl, field_skip fileId,
    field_skip fileLength, field_skip chunkOffset, field_skip payloadLength,
    ← List.append_assoc, field_head (length_padded fits), takeWhile_padded]

theorem DatagramHeader.deserialize_layout {fileName : String} (fits : name.length ≤ fileNameLen)
    (cut : name.takeWhile (· != 0) = asBytes fileName) :
    deserialize (header.layout name ++ rest) = .ok { header with fileName } := by
  obtain ⟨fileId, fileLength, chunkOffset, payloadLength⟩ := header.length_fields
  have enough : datagramHeaderLen ≤ (header.layout name ++ rest).length := by
    rw [List.length_append, header.length_layout fits]
    omega
  have cutField := (header.nameBytes_layout rest fits).trans cut
  simp only [layout, List.append_assoc] at enough cutField ⊢
  -- each field is found behind those before it
  apply deserialize_eq_ok enough
  · exact field_head fileId
  · rw [show 16 = 16 + 0 from rfl, field_skip fileId, field_head fileLength, fromBeBytes_toBeBytes]
  · rw [show 24 = 16 + (8 + 0) from rfl, field_skip fileId, field_skip fileLength,
      field_head chunkOffset, fromBeBytes_toBeBytes]
  · rw [show 32 = 16 + (8 + (8 + 0)) from rfl, field_skip fileId, field_skip fileLength,
      field_skip chunkOffset, field_head payloadLength, fromBeBytes_toBeBytes]
  · exact cutField

end Layout

/-- Every header serialises, and what comes back differs in nothing but the normalised name. -/
theorem DatagramHeader.deserialize_serialize (header : DatagramHeader) :
    ∃ bytes, header.serialize = some bytes ∧ bytes.length = datagramHeaderLen ∧
      ∀ rest, deserialize (bytes ++ rest) =
        .ok { header with fileName := transmittedName header.fileName } := by
  obtain ⟨kept, dropped, -, truncation, fits, -⟩ := truncateUtf8_spec header.fileName fileNameLen
  have small := Nat.le_trans (length_withoutWhitespace (String.ofList kept)) fits
  refine ⟨header.layout (asBytes (withoutWhitespace (String.ofList kept))), ?_,
    header.length_layout small, fun rest => ?_⟩
  · rw [serialize, truncation]
    exact if_pos small
  · exact header.deserialize_layout rest small (asBytes_transmittedName truncation).symm

end GarudaCodec.FileTransfer
