import Mathlib.Data.List.Basic

/-! # `string.rs`: UTF-8 strings and their truncation

`String` carries the proof that its bytes are valid UTF-8, as `str` promises it.  Bytes on the
wire are lists, so `asBytes` and `fromUtf8` go between the two.
-/

namespace GarudaCodec.FileTransfer

/-- `str::as_bytes`. -/
def asBytes (string : String) : List UInt8 := string.toByteArray.data.toList

/-- `str::from_utf8`. -/
def fromUtf8 (bytes : List UInt8) : Option String := String.fromUTF8? bytes.toByteArray

/-- `str::is_char_boundary`. -/
def isCharBoundary (string : String) (idx : Nat) : Bool :=
  String.Pos.Raw.isValid string ⟨idx⟩

/-- `&s[..end]`, which panics unless the end is a character boundary. -/
def sliceTo (string : String) (stop : Nat) : Option String :=
  if boundary : String.Pos.Raw.IsValid string ⟨stop⟩ then
    some (String.fromUTF8 (string.toByteArray.extract 0 stop) boundary.isValidUTF8_extract_zero)
  else none

/-- The loop that moves backward to a boundary; `none` is the underflow of `end -= 1`. -/
def boundaryBelow (string : String) (stop : Nat) : Option Nat :=
  if isCharBoundary string stop then some stop
  else
    match stop with
    | 0 => none
    | stop + 1 => boundaryBelow string stop

def truncateUtf8 (string : String) (maxBytes : Nat) : Option String :=
  if string.utf8ByteSize ≤ maxBytes then some string
  else (boundaryBelow string maxBytes).bind (sliceTo string)

/-- `char::is_whitespace`: the code points with the Unicode property `White_Space`. -/
def isWhitespace (char : Char) : Bool :=
  let code := char.toNat
  (0x9 ≤ code && code ≤ 0xD) || code == 0x20 || code == 0x85 || code == 0xA0 || code == 0x1680 ||
    (0x2000 ≤ code && code ≤ 0x200A) || code == 0x2028 || code == 0x2029 || code == 0x202F ||
    code == 0x205F || code == 0x3000

/-! ## Bytes and characters -/

@[simp] theorem asBytes_ofList (chars : List Char) :
    asBytes (String.ofList chars) = chars.flatMap String.utf8EncodeChar := by
  rw [asBytes, String.toByteArray_ofList, List.utf8Encode, List.toList_data_toByteArray]

theorem asBytes_eq (string : String) :
    asBytes string = string.toList.flatMap String.utf8EncodeChar := by
  rw [← asBytes_ofList, String.ofList_toList]

@[simp] theorem length_asBytes (string : String) :
    (asBytes string).length = string.utf8ByteSize := rfl

theorem asBytes_injective : Function.Injective asBytes := by
  intro left right same
  apply String.toByteArray_inj.mp
  exact ByteArray.ext (Array.toList_inj.mp same)

@[simp] theorem fromUtf8_asBytes (string : String) : fromUtf8 (asBytes string) = some string := by
  have bytes : (asBytes string).toByteArray = string.toByteArray := by
    apply ByteArray.ext
    rw [asBytes, List.data_toByteArray]
  rw [fromUtf8, bytes, String.fromUTF8?, dif_pos string.isValidUTF8]
  rfl

theorem asBytes_of_fromUtf8 {bytes : List UInt8} {string : String}
    (decoded : fromUtf8 bytes = some string) : asBytes string = bytes := by
  rw [fromUtf8, String.fromUTF8?] at decoded
  split at decoded
  · cases decoded
    exact List.toList_data_toByteArray
  · cases decoded

theorem utf8EncodeChar_nul : String.utf8EncodeChar '\x00' = [0] := rfl

theorem ofNat_ne_zero {value : Nat} (positive : 0 < value) (below : value < 256) :
    UInt8.ofNat value ≠ 0 := by
  intro zero
  have same : value % 256 = 0 := congrArg UInt8.toNat zero
  omega

/-- Only the character NUL has a zero byte in its encoding. -/
theorem utf8EncodeChar_ne_zero {char : Char} (notNul : char ≠ '\x00') :
    ∀ byte ∈ String.utf8EncodeChar char, byte ≠ 0 := by
  have positive : char.val.toNat ≠ 0 := by
    intro zero
    exact notNul (Char.ext (UInt32.toNat_inj.mp zero))
  rw [String.utf8EncodeChar]
  split
  · simp only [List.forall_mem_cons]
    exact ⟨ofNat_ne_zero (by omega) (by omega), by simp⟩
  -- every byte of a longer encoding has its marker bits set
  · split
    · simp only [List.forall_mem_cons]
      exact ⟨ofNat_ne_zero (by omega) (by omega), ofNat_ne_zero (by omega) (by omega), by simp⟩
    · split
      · simp only [List.forall_mem_cons]
        exact ⟨ofNat_ne_zero (by omega) (by omega), ofNat_ne_zero (by omega) (by omega),
          ofNat_ne_zero (by omega) (by omega), by simp⟩
      · simp only [List.forall_mem_cons]
        exact ⟨ofNat_ne_zero (by omega) (by omega), ofNat_ne_zero (by omega) (by omega),
          ofNat_ne_zero (by omega) (by omega), ofNat_ne_zero (by omega) (by omega), by simp⟩

/-- Cutting the bytes at the first zero byte is cutting the characters at the first NUL. -/
theorem takeWhile_flatMap_utf8EncodeChar (chars : List Char) :
    (chars.flatMap String.utf8EncodeChar).takeWhile (· != 0) =
      (chars.takeWhile (· != '\x00')).flatMap String.utf8EncodeChar := by
  induction chars with
  | nil => rfl
  | cons char chars inductionHypothesis =>
    by_cases nul : char = '\x00'
    · subst nul
      rw [List.flatMap_cons, utf8EncodeChar_nul]
      simp
    · have nonzero : ∀ byte ∈ String.utf8EncodeChar char, (byte != 0) = true := by
        intro byte member
        simpa using utf8EncodeChar_ne_zero nul byte member
      rw [List.flatMap_cons, List.takeWhile_append_of_pos nonzero, inductionHypothesis,
        List.takeWhile_cons_of_pos (by simpa using nul), List.flatMap_cons]

/-! ## Truncation -/

theorem sliceTo_take (chars : List Char) (count : Nat) :
    sliceTo (String.ofList chars) (String.ofList (chars.take count)).utf8ByteSize =
      some (String.ofList (chars.take count)) := by
  have boundary : String.Pos.Raw.IsValid (String.ofList chars)
      ⟨(String.ofList (chars.take count)).utf8ByteSize⟩ :=
    String.Pos.Raw.isValid_ofList.mpr ⟨count, rfl⟩
  rw [sliceTo, dif_pos boundary]
  congr 1
  apply String.toByteArray_inj.mp
  show (String.ofList chars).toByteArray.extract 0 _ = _
  have split : (String.ofList chars).toByteArray =
      (String.ofList (chars.take count)).toByteArray ++
        (String.ofList (chars.drop count)).toByteArray := by
    rw [← String.toByteArray_append, ← String.ofList_append, List.take_append_drop]
  rw [split]
  exact ByteArray.extract_append_eq_left rfl

theorem isCharBoundary_ofList {chars : List Char} {idx : Nat} :
    isCharBoundary (String.ofList chars) idx ↔
      ∃ count, idx = (String.ofList (chars.take count)).utf8ByteSize := by
  rw [isCharBoundary, String.Pos.Raw.isValid_eq_true_iff, String.Pos.Raw.isValid_ofList]

theorem utf8ByteSize_le_of_prefix {front chars : List Char} (isPrefix : front <+: chars) :
    (String.ofList front).utf8ByteSize ≤ (String.ofList chars).utf8ByteSize := by
  obtain ⟨rest, rfl⟩ := isPrefix
  simp

/-- A prefix that is longer than another has the character behind the other one. -/
theorem exists_next_of_longer {kept rest other : List Char} (isPrefix : other <+: kept ++ rest)
    (longer : kept.length < other.length) :
    ∃ char ∈ rest.head?, (String.ofList kept).utf8ByteSize + char.utf8Size ≤
      (String.ofList other).utf8ByteSize := by
  obtain ⟨more, rfl⟩ :=
    List.prefix_of_prefix_length_le (List.prefix_append kept rest) isPrefix (Nat.le_of_lt longer)
  obtain ⟨behind, rfl⟩ := (List.prefix_append_right_inj kept).mp isPrefix
  cases more with
  | nil => simp at longer
  | cons char more =>
    refine ⟨char, by simp, ?_⟩
    simp [String.ofList_cons]

/-- The loop ends at the last boundary that is not above its start. -/
theorem boundaryBelow_spec (string : String) (stop : Nat) :
    ∃ last, boundaryBelow string stop = some last ∧ last ≤ stop ∧
      isCharBoundary string last ∧
      ∀ idx, last < idx → idx ≤ stop → ¬isCharBoundary string idx := by
  induction stop with
  | zero =>
    have boundary : isCharBoundary string 0 :=
      String.Pos.Raw.isValid_eq_true_iff.mpr String.Pos.Raw.isValid_zero
    refine ⟨0, ?_, Nat.le_refl _, boundary, fun idx above below => by omega⟩
    rw [boundaryBelow, if_pos boundary]
  | succ stop inductionHypothesis =>
    by_cases boundary : isCharBoundary string (stop + 1)
    · refine ⟨stop + 1, ?_, Nat.le_refl _, boundary, fun idx above below => by omega⟩
      rw [boundaryBelow, if_pos boundary]
    · obtain ⟨last, found, below, isBoundary, none⟩ := inductionHypothesis
      refine ⟨last, ?_, by omega, isBoundary, fun idx above low => ?_⟩
      · rw [boundaryBelow, if_neg boundary]
        exact found
      · rcases Nat.lt_or_ge stop idx with top | lower
        · obtain rfl : idx = stop + 1 := by omega
          exact boundary
        · exact none idx above lower

/-- Truncation keeps the longest prefix of characters that fits. -/
theorem truncateUtf8_spec (string : String) (maxBytes : Nat) :
    ∃ kept rest, string.toList = kept ++ rest ∧
      truncateUtf8 string maxBytes = some (String.ofList kept) ∧
      (String.ofList kept).utf8ByteSize ≤ maxBytes ∧
      ∀ char ∈ rest.head?, maxBytes < (String.ofList kept).utf8ByteSize + char.utf8Size := by
  obtain ⟨chars, rfl⟩ := string.exists_eq_ofList
  rw [String.toList_ofList]
  by_cases fits : (String.ofList chars).utf8ByteSize ≤ maxBytes
  · refine ⟨chars, [], by simp, ?_, fits, by simp⟩
    rw [truncateUtf8, if_pos fits]
  · obtain ⟨last, found, below, isBoundary, none⟩ :=
      boundaryBelow_spec (String.ofList chars) maxBytes
    obtain ⟨count, size⟩ := isCharBoundary_ofList.mp isBoundary
    refine ⟨chars.take count, chars.drop count, (List.take_append_drop _ _).symm, ?_, ?_, ?_⟩
    · rw [truncateUtf8, if_neg fits, found, Option.bind_some, size, sliceTo_take]
    · omega
    · intro char first
      -- one more character ends at the next boundary, which the loop did not stop at
      have next : (String.ofList (chars.take (count + 1))).utf8ByteSize =
          (String.ofList (chars.take count)).utf8ByteSize + char.utf8Size := by
        rw [List.take_add_one, String.ofList_append, String.utf8ByteSize_append]
        rw [Option.mem_def, List.head?_drop] at first
        rw [first]
        simp
      have boundary : isCharBoundary (String.ofList chars)
          ((String.ofList (chars.take count)).utf8ByteSize + char.utf8Size) := by
        rw [← next]
        exact isCharBoundary_ofList.mpr ⟨_, rfl⟩
      by_contra small
      exact none _ (by have := char.utf8Size_pos; omega) (by omega) boundary

/-- Where a string is cut no character is split, and no boundary behind the cut fits. -/
theorem boundary_of_cut {kept rest : List Char} {maxBytes : Nat}
    (next : ∀ char ∈ rest.head?, maxBytes < (String.ofList kept).utf8ByteSize + char.utf8Size) :
    isCharBoundary (String.ofList (kept ++ rest)) (String.ofList kept).utf8ByteSize ∧
      ∀ idx, isCharBoundary (String.ofList (kept ++ rest)) idx →
        (String.ofList kept).utf8ByteSize < idx → maxBytes < idx := by
  constructor
  · rw [isCharBoundary_ofList]
    exact ⟨kept.length, by rw [List.take_left]⟩
  · intro idx boundary above
    rw [isCharBoundary_ofList] at boundary
    obtain ⟨count, rfl⟩ := boundary
    have isPrefix := List.take_prefix count (kept ++ rest)
    have longer : kept.length < ((kept ++ rest).take count).length := by
      by_contra shorter
      have small := utf8ByteSize_le_of_prefix (List.prefix_of_prefix_length_le isPrefix
        (List.prefix_append kept rest) (Nat.le_of_not_lt shorter))
      omega
    obtain ⟨char, first, within⟩ := exists_next_of_longer isPrefix longer
    have tooLong := next char first
    omega

/-- What a cut gives up is less than the encoding of one character. -/
theorem lost_of_cut {kept rest : List Char} {maxBytes : Nat}
    (next : ∀ char ∈ rest.head?, maxBytes < (String.ofList kept).utf8ByteSize + char.utf8Size)
    (long : maxBytes < (String.ofList (kept ++ rest)).utf8ByteSize)
    (fits : (String.ofList kept).utf8ByteSize ≤ maxBytes) :
    maxBytes ≤ (String.ofList kept).utf8ByteSize + 3 := by
  cases rest with
  | nil =>
    rw [List.append_nil] at long
    omega
  | cons char rest =>
    have tooLong := next char (by simp)
    have atMostFour := char.utf8Size_le_four
    omega

/-- The result of a truncation is a prefix that ends at a character boundary and fits, no boundary
    behind it fits, and at most 3 bytes are given up. -/
theorem truncateUtf8_longest_boundary (string : String) (maxBytes : Nat) :
    ∃ result, truncateUtf8 string maxBytes = some result ∧
      asBytes result <+: asBytes string ∧
      result.toList <+: string.toList ∧
      isCharBoundary string result.utf8ByteSize ∧
      result.utf8ByteSize ≤ maxBytes ∧
      (∀ idx, isCharBoundary string idx → result.utf8ByteSize < idx → maxBytes < idx) ∧
      (maxBytes < string.utf8ByteSize → maxBytes ≤ result.utf8ByteSize + 3) := by
  obtain ⟨kept, rest, characters, truncated, fits, next⟩ := truncateUtf8_spec string maxBytes
  have whole : string = String.ofList (kept ++ rest) := by
    rw [← characters, String.ofList_toList]
  obtain ⟨boundary, longest⟩ := boundary_of_cut next
  rw [← whole] at boundary longest
  refine ⟨String.ofList kept, truncated, ?_, ?_, boundary, fits, longest, fun long => ?_⟩
  · rw [asBytes_eq string, characters, List.flatMap_append, asBytes_ofList]
    exact List.prefix_append _ _
  · rw [characters, String.toList_ofList]
    exact List.prefix_append _ _
  · rw [whole] at long
    exact lost_of_cut next long fits

end GarudaCodec.FileTransfer
