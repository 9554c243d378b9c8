import Mathlib.Data.List.Basic

/-! # Complete chunks of a list

`chunkAt size list idx` is the chunk at index `idx`, and `chunksExact size list` are all chunks
that are complete; a shorter rest at the end belongs to none of them.
-/

namespace GarudaCodec.Foundation.Chunks

variable {α : Type*}

def chunkAt (size : Nat) (list : List α) (idx : Nat) : List α :=
  (list.drop (idx * size)).take size

/-- As `slice::chunks_exact`. -/
def chunksExact (size : Nat) (list : List α) : List (List α) :=
  (List.range (list.length / size)).map (chunkAt size list)

@[simp] theorem length_chunksExact (size : Nat) (list : List α) :
    (chunksExact size list).length = list.length / size := by
  simp [chunksExact]

theorem length_chunkAt {size : Nat} {list : List α} {idx : Nat}
    (inside : idx < list.length / size) : (chunkAt size list idx).length = size := by
  have ends : (idx + 1) * size ≤ list.length :=
    Nat.le_trans (Nat.mul_le_mul_right size inside) (Nat.div_mul_le_self _ _)
  rw [Nat.succ_mul] at ends
  rw [chunkAt, List.length_take, List.length_drop]
  omega

theorem flatten_chunks (size count : Nat) (list : List α) :
    ((List.range count).map (chunkAt size list)).flatten = list.take (count * size) := by
  induction count with
  | zero => simp
  | succ count inductionHypothesis =>
    rw [List.range_succ, List.map_append, List.flatten_append, inductionHypothesis, Nat.succ_mul,
      List.take_add]
    simp [chunkAt]

theorem chunksExact_short {size : Nat} {list : List α} (short : list.length < size) :
    chunksExact size list = [] := by
  rw [chunksExact, Nat.div_eq_of_lt short, List.range_zero, List.map_nil]

/-- A complete piece in front is the first chunk. -/
theorem chunksExact_append {size : Nat} {piece : List α} (positive : 0 < size)
    (pieceSize : piece.length = size) (rest : List α) :
    chunksExact size (piece ++ rest) = piece :: chunksExact size rest := by
  have count : (piece ++ rest).length / size = rest.length / size + 1 := by
    rw [List.length_append, pieceSize, Nat.add_div_left _ positive]
  rw [chunksExact, count, List.range_succ_eq_map, List.map_cons, List.map_map, chunksExact]
  congr 1
  · simp [chunkAt, ← pieceSize]
  · apply List.map_congr_left
    intro idx _
    -- skipping one more chunk of the whole list is skipping the first piece
    have skip : (idx + 1) * size = piece.length + idx * size := by
      rw [pieceSize, Nat.succ_mul, Nat.add_comm]
    simp only [Function.comp_apply, chunkAt, Nat.succ_eq_add_one]
    rw [skip, ← List.drop_drop, List.drop_left]

/-- The complete chunks of the front of a list are the first ones of the whole list. -/
theorem chunksExact_prefix (size : Nat) (front back : List α) :
    chunksExact size front <+: chunksExact size (front ++ back) := by
  have same : chunksExact size front =
      (List.range (front.length / size)).map (chunkAt size (front ++ back)) := by
    apply List.map_congr_left
    intro idx member
    have ends : (idx + 1) * size ≤ front.length :=
      Nat.le_trans (Nat.mul_le_mul_right size (List.mem_range.mp member))
        (Nat.div_mul_le_self _ _)
    rw [Nat.succ_mul] at ends
    rw [chunkAt, chunkAt, List.drop_append_of_le_length (by omega),
      List.take_append_of_le_length (by rw [List.length_drop]; omega)]
  rw [same, chunksExact]
  have fewer : front.length / size ≤ (front ++ back).length / size :=
    Nat.div_le_div_right (by rw [List.length_append]; omega)
  obtain ⟨more, total⟩ := Nat.exists_eq_add_of_le fewer
  rw [total, List.range_add, List.map_append]
  exact List.prefix_append _ _

/-- Cutting a list that was put together from pieces of one size gives the pieces back. -/
theorem chunksExact_flatten {size : Nat} {pieces : List (List α)} {rest : List α}
    (sizes : ∀ piece ∈ pieces, piece.length = size) (short : rest.length < size) :
    chunksExact size (pieces.flatten ++ rest) = pieces := by
  induction pieces with
  | nil => exact chunksExact_short short
  | cons piece pieces inductionHypothesis =>
    obtain ⟨pieceSize, others⟩ := List.forall_mem_cons.mp sizes
    rw [List.flatten_cons, List.append_assoc, chunksExact_append (by omega) pieceSize,
      inductionHypothesis others]

end GarudaCodec.Foundation.Chunks
