import GarudaCodec.Foundation.Groups
import GarudaCodec.Core.Encoder

/-! # Block numbers at one queue

Block numbers count up modulo 256 and are dealt out by their remainder modulo the number of
workers.  Two blocks that follow each other at one queue have the same number exactly if that
number is the only one of its queue.
-/

namespace GarudaCodec.Core

open GarudaCodec.Foundation.Groups

variable {workers : Nat}

/-- The number of the block at this position of a session. -/
def blockId (initial : UInt8) (position : Nat) : UInt8 := initial + UInt8.ofNat position

theorem blockId_eq_iff (initial : UInt8) (left right : Nat) :
    blockId initial left = blockId initial right ↔ left % 256 = right % 256 := by
  rw [blockId, blockId, UInt8.add_right_inj, ← UInt8.toNat_inj, UInt8.toNat_ofNat',
    UInt8.toNat_ofNat']

/-- Every number comes up within 256 blocks. -/
theorem exists_blockId (initial : UInt8) (position : Nat) (id : UInt8) :
    ∃ steps, steps < 256 ∧ blockId initial (position + steps) = id := by
  refine ⟨(id - blockId initial position).toNat, UInt8.toNat_lt _, ?_⟩
  rw [blockId, UInt8.ofNat_add, UInt8.ofNat_toNat, ← UInt8.add_assoc, ← blockId]
  rw [UInt8.add_comm, UInt8.sub_add_cancel]

/-- The numbers of the blocks of a session. -/
def blockIds (initial : UInt8) (count : Nat) : List UInt8 :=
  (List.range count).map (blockId initial)

theorem map_id_numbered (position : Nat) (initial : UInt8) (chunks : List (List UInt8)) :
    (numbered position initial chunks).map (fun block => block.item.id) =
      blockIds initial chunks.length := by
  apply List.ext_getElem
  · simp [blockIds]
  · intro idx _ _
    simp [numbered, blockIds, blockId]

/-- The numbers at one queue keep changing exactly if none that comes up again is alone there. -/
theorem isChain_blockIds (positive : 0 < workers) (initial : UInt8) (count : Nat) :
    (∀ key, ((blockIds initial count).filter fun id => queueOf positive id = key).IsChain
        (fun left right => left ≠ right)) ↔
      ∀ position, position + 256 < count → ∃ other, other ≠ blockId initial position ∧
        queueOf positive other = queueOf positive (blockId initial position) := by
  constructor
  · intro chains position again
    by_contra alone
    push Not at alone
    have chain := chains (queueOf positive (blockId initial position))
    rw [blockIds, List.filter_map, List.isChain_map] at chain
    have same : blockId initial position = blockId initial (position + 256) := by
      rw [blockId_eq_iff, Nat.add_mod_right]
    refine isChain_filter_range.mp chain position (position + 256) (by omega) again (by simp)
      (by simp [same]) ?_ same
    intro between after before
    have different : blockId initial between ≠ blockId initial position := by
      rw [Ne, blockId_eq_iff]
      omega
    simpa using alone _ different
  · intro others key
    rw [blockIds, List.filter_map, List.isChain_map]
    refine isChain_filter_range.mpr ?_
    intro left right less below leftHere rightHere none same
    rw [blockId_eq_iff] at same
    -- the two are whole cycles apart, and another number of the queue comes up in between
    obtain ⟨other, different, otherHere⟩ := others left (by omega)
    obtain ⟨steps, few, rfl⟩ := exists_blockId initial left other
    have some : steps ≠ 0 := by
      rintro rfl
      exact different rfl
    have isNone := none (left + steps) (by omega) (by omega)
    simp only [Function.comp_apply, decide_eq_true_eq] at leftHere
    simp [otherHere, leftHere] at isNone

/-- Up to 128 workers, no number is alone at its queue. -/
theorem exists_other (positive : 0 < workers) (few : workers ≤ 128) (id : UInt8) :
    ∃ other, other ≠ id ∧ queueOf positive other = queueOf positive id := by
  have small : id.toNat < 256 := id.toNat_lt
  by_cases above : id.toNat < 128
  · have value : (UInt8.ofNat (id.toNat + workers)).toNat = id.toNat + workers :=
      UInt8.toNat_ofNat_of_lt (by unfold UInt8.size; omega)
    refine ⟨UInt8.ofNat (id.toNat + workers), ?_, ?_⟩
    · rw [Ne, ← UInt8.toNat_inj, value]
      omega
    · rw [queueOf, queueOf, Fin.mk.injEq, value, Nat.add_mod_right]
  · have value : (UInt8.ofNat (id.toNat - workers)).toNat = id.toNat - workers :=
      UInt8.toNat_ofNat_of_lt (by unfold UInt8.size; omega)
    refine ⟨UInt8.ofNat (id.toNat - workers), ?_, ?_⟩
    · rw [Ne, ← UInt8.toNat_inj, value]
      omega
    · rw [queueOf, queueOf, Fin.mk.injEq, value, ← Nat.mod_eq_sub_mod (by omega)]

end GarudaCodec.Core
