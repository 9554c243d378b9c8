import Mathlib.Data.List.Basic
import Mathlib.Logic.Function.Basic

/-! # Positional writes into a growing sequence

`writeAt fill offset piece old` puts `piece` at position `offset` of `old`; where the write starts
past the end, the gap is filled with `fill`, and an empty piece changes nothing.

A write is `Within source` when it puts a part of `source` at the place it has there.  Such writes
never disagree, so neither their order nor repetitions matter: once every position of `source` is
covered, the first `source.length` positions hold `source`, and what `old` had behind them is
still there.

A `Store` holds such sequences under keys; a write under one key leaves all others alone.
-/

namespace GarudaCodec.Foundation.PositionalWrites

variable {α : Type*}

def writeAt (fill : α) (offset : Nat) (piece old : List α) : List α :=
  if piece = [] then old
  else (old ++ List.replicate (offset - old.length) fill).take offset ++ piece ++
    old.drop (offset + piece.length)

/-- A write is a position and the piece that goes there. -/
abbrev Write (α : Type*) := Nat × List α

def writeAll (fill : α) (writes : List (Write α)) (old : List α) : List α :=
  writes.foldl (fun content write => writeAt fill write.1 write.2 content) old

def Within (source : List α) (write : Write α) : Prop :=
  ∀ idx, idx < write.2.length →
    write.1 + idx < source.length ∧ write.2[idx]? = source[write.1 + idx]?

def Covers (write : Write α) (idx : Nat) : Prop :=
  write.1 ≤ idx ∧ idx < write.1 + write.2.length

variable {fill : α} {offset : Nat} {piece old source : List α}

@[simp] theorem writeAt_nil : writeAt fill offset [] old = old := if_pos rfl

/-! ## One write -/

theorem length_gap :
    ((old ++ List.replicate (offset - old.length) fill).take offset).length = offset := by
  rw [List.length_take, List.length_append, List.length_replicate]
  omega

theorem getElem?_writeAt_inside {idx : Nat} (covered : Covers (offset, piece) idx) :
    (writeAt fill offset piece old)[idx]? = piece[idx - offset]? := by
  obtain ⟨low, high⟩ := covered
  have nonempty : piece ≠ [] := by
    rintro rfl
    simp at high
    omega
  rw [writeAt, if_neg nonempty, List.append_assoc,
    List.getElem?_append_right (by rw [length_gap]; exact low), length_gap,
    List.getElem?_append_left (by simp only at high; omega)]

theorem getElem?_writeAt_behind {idx : Nat} (behind : offset + piece.length ≤ idx) :
    (writeAt fill offset piece old)[idx]? = old[idx]? := by
  by_cases empty : piece = []
  · rw [empty, writeAt_nil]
  · rw [writeAt, if_neg empty, List.getElem?_append_right, List.length_append, length_gap,
      List.getElem?_drop]
    · congr 1
      omega
    · rw [List.length_append, length_gap]
      exact behind

theorem getElem?_writeAt_before {idx : Nat} (before : idx < offset) (inside : idx < old.length) :
    (writeAt fill offset piece old)[idx]? = old[idx]? := by
  by_cases empty : piece = []
  · rw [empty, writeAt_nil]
  · rw [writeAt, if_neg empty, List.append_assoc,
      List.getElem?_append_left (by rw [length_gap]; exact before), List.getElem?_take,
      if_pos before, List.getElem?_append_left inside]

/-- A position that already holds the source's element keeps it. -/
theorem Within.keeps {idx : Nat} (within : Within source (offset, piece))
    (inside : idx < source.length) (holds : old[idx]? = source[idx]?) :
    (writeAt fill offset piece old)[idx]? = source[idx]? := by
  by_cases covered : Covers (offset, piece) idx
  · have same := (within (idx - offset) (by obtain ⟨low, high⟩ := covered; simp_all; omega)).2
    rw [getElem?_writeAt_inside covered, same]
    congr 1
    obtain ⟨low, -⟩ := covered
    simp only at low ⊢
    omega
  -- the position exists already, so it is not a part of the gap
  · have held : idx < old.length := by
      by_contra outside
      rw [List.getElem?_eq_none (by omega), List.getElem?_eq_getElem inside] at holds
      cases holds
    rcases Nat.lt_or_ge idx offset with before | notBefore
    · rw [getElem?_writeAt_before before held, holds]
    · rw [getElem?_writeAt_behind (by simp only [Covers] at covered; omega), holds]

theorem Within.puts {idx : Nat} (within : Within source (offset, piece))
    (covered : Covers (offset, piece) idx) :
    idx < source.length ∧ (writeAt fill offset piece old)[idx]? = source[idx]? := by
  obtain ⟨low, high⟩ := covered
  simp only at low high
  obtain ⟨inside, same⟩ := within (idx - offset) (by simp only; omega)
  have position : offset + (idx - offset) = idx := by omega
  simp only [position] at inside same
  exact ⟨inside, by rw [getElem?_writeAt_inside ⟨low, high⟩, same]⟩

/-- A write within the source leaves everything behind the source's end alone. -/
theorem Within.leaves {idx : Nat} (within : Within source (offset, piece))
    (behind : source.length ≤ idx) : (writeAt fill offset piece old)[idx]? = old[idx]? := by
  by_cases empty : piece = []
  · rw [empty, writeAt_nil]
  · have positive := List.length_pos_iff.mpr empty
    have last := (within (piece.length - 1) (by simp only; omega)).1
    simp only at last
    exact getElem?_writeAt_behind (by omega)

/-! ## Runs of writes -/

variable {writes : List (Write α)}

@[simp] theorem writeAll_nil : writeAll fill [] old = old := rfl

@[simp] theorem writeAll_cons (write : Write α) :
    writeAll fill (write :: writes) old =
      writeAll fill writes (writeAt fill write.1 write.2 old) := rfl

theorem writeAll_keeps {idx : Nat} (within : ∀ write ∈ writes, Within source write)
    (inside : idx < source.length) (holds : old[idx]? = source[idx]?) :
    (writeAll fill writes old)[idx]? = source[idx]? := by
  induction writes generalizing old with
  | nil => exact holds
  | cons write writes inductionHypothesis =>
    have head := within write List.mem_cons_self
    exact inductionHypothesis (fun other member => within other (List.mem_cons_of_mem _ member))
      (head.keeps inside holds)

theorem writeAll_puts {idx : Nat} (within : ∀ write ∈ writes, Within source write)
    (covered : ∃ write ∈ writes, Covers write idx) :
    (writeAll fill writes old)[idx]? = source[idx]? := by
  induction writes generalizing old with
  | nil =>
    obtain ⟨write, member, -⟩ := covered
    cases member
  | cons write writes inductionHypothesis =>
    have head := within write List.mem_cons_self
    have tail : ∀ other ∈ writes, Within source other :=
      fun other member => within other (List.mem_cons_of_mem _ member)
    obtain ⟨other, member, covers⟩ := covered
    rw [writeAll_cons]
    cases member with
    | head =>
      -- this write puts the element there, and the later ones keep it
      obtain ⟨inside, holds⟩ := head.puts covers
      exact writeAll_keeps tail inside holds
    | tail _ inTail => exact inductionHypothesis tail ⟨other, inTail, covers⟩

theorem writeAll_leaves {idx : Nat} (within : ∀ write ∈ writes, Within source write)
    (behind : source.length ≤ idx) : (writeAll fill writes old)[idx]? = old[idx]? := by
  induction writes generalizing old with
  | nil => rfl
  | cons write writes inductionHypothesis =>
    have head := within write List.mem_cons_self
    rw [writeAll_cons,
      inductionHypothesis fun other member => within other (List.mem_cons_of_mem _ member)]
    exact head.leaves behind

/-- Writes that lie within the source and cover it leave the source, followed by what was behind
    its end before. -/
theorem writeAll_eq (within : ∀ write ∈ writes, Within source write)
    (covered : ∀ idx, idx < source.length → ∃ write ∈ writes, Covers write idx) :
    writeAll fill writes old = source ++ old.drop source.length := by
  apply List.ext_getElem?
  intro idx
  -- a position of the source is covered; one behind it is never written
  rcases Nat.lt_or_ge idx source.length with inside | behind
  · rw [writeAll_puts within (covered idx inside), List.getElem?_append_left inside]
  · rw [writeAll_leaves within behind, List.getElem?_append_right behind, List.getElem?_drop]
    congr 1
    omega

/-! ## Stores -/

/-- The sequences that exist, by key. -/
abbrev Store (κ α : Type*) := κ → Option (List α)

variable {κ : Type*} [DecidableEq κ]

/-- Writes under a key, where a missing sequence starts empty. -/
def Store.put (fill : α) (key : κ) (write : Write α) (store : Store κ α) : Store κ α :=
  Function.update store key (some (writeAt fill write.1 write.2 ((store key).getD [])))

def Store.putAll (fill : α) (writes : List (κ × Write α)) (store : Store κ α) : Store κ α :=
  writes.foldl (fun store write => store.put fill write.1 write.2) store

variable {store : Store κ α} {key : κ} {puts : List (κ × Write α)}

@[simp] theorem Store.putAll_nil : store.putAll fill [] = store := rfl

@[simp] theorem Store.putAll_cons (put : κ × Write α) :
    store.putAll fill (put :: puts) = (store.put fill put.1 put.2).putAll fill puts := rfl

theorem Store.put_self (write : Write α) :
    store.put fill key write key = some (writeAt fill write.1 write.2 ((store key).getD [])) :=
  Function.update_self ..

theorem Store.put_other {other : κ} (differ : other ≠ key) (write : Write α) :
    store.put fill key write other = store other :=
  Function.update_of_ne differ ..

theorem Store.putAll_other (elsewhere : ∀ put ∈ puts, put.1 ≠ key) :
    store.putAll fill puts key = store key := by
  induction puts generalizing store with
  | nil => rfl
  | cons put puts inductionHypothesis =>
    rw [Store.putAll_cons,
      inductionHypothesis fun other member => elsewhere other (List.mem_cons_of_mem _ member),
      Store.put_other (elsewhere put List.mem_cons_self).symm]

/-- The writes under one key, in order. -/
def under (key : κ) (puts : List (κ × Write α)) : List (Write α) :=
  puts.filterMap fun put => if put.1 = key then some put.2 else none

theorem mem_under {write : Write α} : write ∈ under key puts ↔ (key, write) ∈ puts := by
  simp only [under, List.mem_filterMap, Option.ite_none_right_eq_some, Option.some.injEq]
  constructor
  · rintro ⟨⟨_, _⟩, member, rfl, rfl⟩
    exact member
  · intro member
    exact ⟨(key, write), member, rfl, rfl⟩

/-- A sequence that exists sees exactly the writes under its key. -/
theorem Store.putAll_eq {content : List α} (present : store key = some content) :
    store.putAll fill puts key = some (writeAll fill (under key puts) content) := by
  induction puts generalizing store content with
  | nil => exact present
  | cons put puts inductionHypothesis =>
    obtain ⟨target, write⟩ := put
    rw [Store.putAll_cons]
    by_cases same : target = key
    · subst same
      rw [inductionHypothesis (Store.put_self write), present]
      simp [under]
    · rw [inductionHypothesis ((Store.put_other (Ne.symm same) write).trans present)]
      simp [under, same]

/-- A missing sequence comes into being with the first write under its key. -/
theorem Store.putAll_eq_of_none (missing : store key = none) (written : under key puts ≠ []) :
    store.putAll fill puts key = some (writeAll fill (under key puts) []) := by
  induction puts generalizing store with
  | nil => exact absurd rfl written
  | cons put puts inductionHypothesis =>
    obtain ⟨target, write⟩ := put
    rw [Store.putAll_cons]
    by_cases same : target = key
    · subst same
      -- from this write on the sequence exists
      rw [Store.putAll_eq (Store.put_self write), missing]
      simp [under]
    · have later : under key ((target, write) :: puts) = under key puts := by simp [under, same]
      rw [later] at written ⊢
      exact inductionHypothesis ((Store.put_other (Ne.symm same) write).trans missing) written

/-- When the writes under a key lie within a source and cover it, the key holds the source,
    followed by what was behind the source's end before. -/
theorem Store.putAll_covered (within : ∀ write, (key, write) ∈ puts → Within source write)
    (covered : ∀ idx, idx < source.length → ∃ write, (key, write) ∈ puts ∧ Covers write idx)
    (nonempty : source ≠ []) :
    store.putAll fill puts key =
      some (source ++ ((store key).getD []).drop source.length) := by
  have allWithin : ∀ write ∈ under key puts, Within source write :=
    fun write member => within write (mem_under.mp member)
  have allCovered : ∀ idx, idx < source.length → ∃ write ∈ under key puts, Covers write idx := by
    intro idx inside
    obtain ⟨write, member, covers⟩ := covered idx inside
    exact ⟨write, mem_under.mpr member, covers⟩
  cases state : store key with
  | some content =>
    rw [Store.putAll_eq state, writeAll_eq allWithin allCovered, Option.getD_some]
  | none =>
    -- the first position is covered, so some write brings the sequence into being
    obtain ⟨write, member, -⟩ := allCovered 0 (List.length_pos_iff.mpr nonempty)
    rw [Store.putAll_eq_of_none state (List.ne_nil_of_mem member),
      writeAll_eq allWithin allCovered, Option.getD_none]

end GarudaCodec.Foundation.PositionalWrites
