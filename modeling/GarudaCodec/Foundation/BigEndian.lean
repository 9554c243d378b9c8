import Mathlib.Data.Nat.Digits.Lemmas

/-! # Fixed-width big-endian numbers

`toBeBytes width value` writes a number below `256 ^ width` with its most significant byte first;
`fromBeBytes` reads it back.
-/

namespace GarudaCodec.Foundation.BigEndian

def toBeBytes (width value : Nat) : List UInt8 :=
  ((Nat.digitsAppend 256 width value).map UInt8.ofNat).reverse

def fromBeBytes (bytes : List UInt8) : Nat :=
  Nat.ofDigits 256 (bytes.reverse.map UInt8.toNat)

theorem one_lt_base : 1 < 256 := by decide

theorem toNat_ofNat_digits (width value : Nat) :
    ((Nat.digitsAppend 256 width value).map UInt8.ofNat).map UInt8.toNat =
      Nat.digitsAppend 256 width value := by
  rw [List.map_map]
  conv_rhs => rw [← List.map_id (Nat.digitsAppend 256 width value)]
  apply List.map_congr_left
  intro digit member
  exact UInt8.toNat_ofNat_of_lt (Nat.lt_of_mem_digitsAppend one_lt_base width digit member)

theorem length_toBeBytes {width value : Nat} (fits : value < 256 ^ width) :
    (toBeBytes width value).length = width := by
  rw [toBeBytes, List.length_reverse, List.length_map,
    Nat.length_digitsAppend one_lt_base width fits]

@[simp] theorem fromBeBytes_toBeBytes (width value : Nat) :
    fromBeBytes (toBeBytes width value) = value := by
  rw [fromBeBytes, toBeBytes, List.reverse_reverse, toNat_ofNat_digits, Nat.digitsAppend,
    Nat.ofDigits_append_replicate_zero, Nat.ofDigits_digits]

section Digits

variable {bytes : List UInt8} {width : Nat}

/-- The least significant byte first, as `Nat.ofDigits` has it. -/
theorem digits_mem (length : bytes.length = width) : bytes.reverse.map UInt8.toNat ∈
    {digits : List Nat | digits.length = width ∧ ∀ digit ∈ digits, digit < 256} := by
  refine ⟨by rw [List.length_map, List.length_reverse, length], fun digit member => ?_⟩
  obtain ⟨byte, -, rfl⟩ := List.mem_map.mp member
  exact byte.toNat_lt

theorem fromBeBytes_lt (length : bytes.length = width) : fromBeBytes bytes < 256 ^ width :=
  Nat.mapsTo_ofDigits one_lt_base width (digits_mem length)

theorem toBeBytes_fromBeBytes (length : bytes.length = width) :
    toBeBytes width (fromBeBytes bytes) = bytes := by
  have digits := (Nat.setInvOn_digitsAppend_ofDigits one_lt_base width).1 (digits_mem length)
  have bytewise : (bytes.reverse.map UInt8.toNat).map UInt8.ofNat = bytes.reverse := by
    rw [List.map_map]
    conv_rhs => rw [← List.map_id bytes.reverse]
    exact List.map_congr_left fun byte _ => UInt8.ofNat_toNat
  rw [toBeBytes, fromBeBytes, digits, bytewise, List.reverse_reverse]

end Digits

end GarudaCodec.Foundation.BigEndian
