import Mathlib.Data.List.TakeWhile
import GarudaCodec.FileTransfer.Protocol
import GarudaCodec.FileTransfer.Paths

/-! # File names across the header

What the name field does to a name: a name without whitespace is only cut to the length of the
field, and stays a plain name.
-/

namespace GarudaCodec.FileTransfer

theorem notMem_nul {string : String} (noNul : (0 : UInt8) ∉ asBytes string) :
    '\x00' ∉ string.toList := by
  intro member
  apply noNul
  rw [asBytes_eq]
  exact List.mem_flatMap_of_mem member (by simp [utf8EncodeChar_nul])

/-- A name without whitespace and NUL is transmitted as its longest prefix that fits. -/
theorem transmittedName_spec {name : String}
    (noWhitespace : ∀ char ∈ name.toList, isWhitespace char = false)
    (noNul : (0 : UInt8) ∉ asBytes name) :
    ∃ kept rest, name.toList = kept ++ rest ∧ transmittedName name = String.ofList kept ∧
      ∀ char ∈ rest.head?, fileNameLen < (String.ofList kept).utf8ByteSize + char.utf8Size := by
  obtain ⟨kept, rest, chars, truncation, -, longest⟩ := truncateUtf8_spec name fileNameLen
  refine ⟨kept, rest, chars, ?_, longest⟩
  have keptWhitespace : (kept.filter fun char => !isWhitespace char) = kept := by
    apply List.filter_eq_self.mpr
    intro char member
    rw [noWhitespace char (chars ▸ List.mem_append_left _ member)]
    rfl
  have keptNul : kept.takeWhile (· != '\x00') = kept := by
    apply List.takeWhile_eq_self_iff.mpr
    intro char member
    simp only [bne_iff_ne, ne_eq]
    rintro rfl
    exact notMem_nul noNul (chars ▸ List.mem_append_left _ member)
  simp only [transmittedName, truncation, String.toList_ofList, keptWhitespace, keptNul]

/-- A plain name without whitespace is transmitted as a plain name. -/
theorem plain_transmittedName {name : String} (plain : PlainName (asBytes name))
    (noWhitespace : ∀ char ∈ name.toList, isWhitespace char = false) :
    PlainName (asBytes (transmittedName name)) := by
  obtain ⟨kept, rest, chars, transmitted, longest⟩ :=
    transmittedName_spec noWhitespace plain.noNul
  have bytes : asBytes name = asBytes (String.ofList kept) ++ asBytes (String.ofList rest) := by
    rw [asBytes_eq, chars, List.flatMap_append, asBytes_ofList, asBytes_ofList]
  rw [transmitted]
  cases rest with
  | nil =>
    have whole : asBytes (String.ofList kept) = asBytes name := by
      rw [bytes]
      exact (List.append_nil _).symm
    rw [whole]
    exact plain
  | cons char rest =>
    -- a name that was cut is far too long to be a dot name
    have long : 3 ≤ (asBytes (String.ofList kept)).length := by
      have cut := longest char rfl
      have width := char.utf8Size_le_four
      rw [length_asBytes]
      rw [fileNameLen] at cut
      omega
    have nonempty : asBytes (String.ofList kept) ≠ [] := by
      intro empty
      rw [empty] at long
      simp at long
    have keeps : ∀ byte ∈ asBytes (String.ofList kept), byte ∈ asBytes name := by
      intro byte member
      rw [bytes]
      exact List.mem_append_left _ member
    refine ⟨nonempty, fun member => plain.noSeparator (keeps _ member),
      fun member => plain.noNul (keeps _ member), fun same => ?_, fun same => ?_⟩
    · rw [same] at long
      simp at long
    · rw [same] at long
      simp at long

end GarudaCodec.FileTransfer
