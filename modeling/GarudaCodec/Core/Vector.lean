import Mathlib.Algebra.Ring.Nat
import GarudaCodec.Foundation.Lanes

/-! # `vector.rs`: interleaving two vectors

`interleave` walks the positions of the output from the last to the first and takes the next
element of the shorter vector at precomputed targets.  `Balanced` says how far the shorter vector
has been used up after any number of positions; with it no pop meets an empty vector, so the
output is a merge of the two reversed vectors that loses and repeats nothing.
-/

namespace GarudaCodec.Core.Vector

open GarudaCodec.Foundation.Lanes

variable {α : Type*}

/-- `Vec::pop`. -/
def pop (vector : List α) : Option α × List α :=
  (vector.getLast?, vector.dropLast)

/-- What the closure passed to `filter_map` captures and changes. -/
structure Interleave (α : Type*) where
  long : List α
  short : List α
  shortIdx : Nat

/-- The position at which the next element of the shorter vector goes.  The product is taken in
    64-bit arithmetic. -/
def target (totalLen shortLen shortIdx : Nat) : Nat :=
  totalLen - (shortIdx * totalLen % 2 ^ 64) / shortLen - 1

/-- One call of the closure. -/
def interleaveStep (totalLen shortLen : Nat) (state : Interleave α) (idx : Nat) :
    Option α × Interleave α :=
  if state.shortIdx < shortLen ∧ idx = target totalLen shortLen state.shortIdx then
    ((pop state.short).1,
      { state with short := (pop state.short).2, shortIdx := state.shortIdx + 1 })
  else
    ((pop state.long).1, { state with long := (pop state.long).2 })

/-- `(0..idx).rev().filter_map(..)`. -/
def interleaveFrom (totalLen shortLen : Nat) : Nat → Interleave α → List α
  | 0, _ => []
  | idx + 1, state =>
    let (item, state') := interleaveStep totalLen shortLen state idx
    item.toList ++ interleaveFrom totalLen shortLen idx state'

def interleave (v1 v2 : List α) : List α :=
  let (long, short) := if v1.length ≥ v2.length then (v1, v2) else (v2, v1)
  let totalLen := long.length + short.length
  interleaveFrom totalLen short.length totalLen { long, short, shortIdx := 0 }

theorem mem_of_mem_interleaveFrom {totalLen shortLen remaining : Nat} {state : Interleave α}
    {item : α} (member : item ∈ interleaveFrom totalLen shortLen remaining state) :
    item ∈ state.long ∨ item ∈ state.short := by
  induction remaining generalizing state with
  | zero => simp [interleaveFrom] at member
  | succ idx inductionHypothesis =>
    rw [interleaveFrom, interleaveStep] at member
    by_cases hit : state.shortIdx < shortLen ∧ idx = target totalLen shortLen state.shortIdx
    · simp only [if_pos hit, List.mem_append, Option.mem_toList, pop] at member
      rcases member with popped | later
      · exact Or.inr (List.mem_of_getLast? popped)
      · exact (inductionHypothesis later).imp_right List.mem_of_mem_dropLast
    · simp only [if_neg hit, List.mem_append, Option.mem_toList, pop] at member
      rcases member with popped | later
      · exact Or.inl (List.mem_of_getLast? popped)
      · exact (inductionHypothesis later).imp_left List.mem_of_mem_dropLast

/-- Whatever the lengths, nothing comes out that was not put in. -/
theorem mem_of_mem_interleave {v1 v2 : List α} {item : α} (member : item ∈ interleave v1 v2) :
    item ∈ v1 ∨ item ∈ v2 := by
  rw [interleave] at member
  split at member
  next first second same =>
  split at same
  · cases same
    exact mem_of_mem_interleaveFrom member
  · cases same
    exact (mem_of_mem_interleaveFrom member).symm

/-! ## The invariant of the iteration -/

/-- After all positions from `remaining` on, `⌈m * shortLen / totalLen⌉` elements of the shorter
    vector have been used, where `m` is the number of these positions. -/
structure Balanced (longLen shortLen remaining : Nat) (state : Interleave α) : Prop where
  within : remaining ≤ longLen + shortLen
  used : state.shortIdx ≤ shortLen
  short : state.short.length = shortLen - state.shortIdx
  long : state.long.length + state.short.length = remaining
  least : (longLen + shortLen - remaining) * shortLen ≤ state.shortIdx * (longLen + shortLen)
  most : 0 < longLen + shortLen → state.shortIdx * (longLen + shortLen) <
    (longLen + shortLen - remaining) * shortLen + (longLen + shortLen)

/-- The target of an unused element is hit exactly when the positions so far use up its share. -/
theorem idx_eq_target_iff {longLen shortLen shortIdx idx : Nat}
    (noWrap : shortLen * (longLen + shortLen) < 2 ^ 64) (unused : shortIdx < shortLen)
    (within : idx < longLen + shortLen)
    (least : (longLen + shortLen - (idx + 1)) * shortLen ≤ shortIdx * (longLen + shortLen)) :
    idx = target (longLen + shortLen) shortLen shortIdx ↔
      shortIdx * (longLen + shortLen) < (longLen + shortLen - idx) * shortLen := by
  have product : shortIdx * (longLen + shortLen) < 2 ^ 64 :=
    lt_of_le_of_lt (Nat.mul_le_mul_right _ unused.le) noWrap
  have quotient : shortIdx * (longLen + shortLen) / shortLen < longLen + shortLen :=
    Nat.div_lt_of_lt_mul (Nat.mul_lt_mul_of_pos_right unused (by omega))
  rw [target, Nat.mod_eq_of_lt product]
  have lower : longLen + shortLen - (idx + 1) ≤ shortIdx * (longLen + shortLen) / shortLen :=
    (Nat.le_div_iff_mul_le (by omega)).mpr least
  rw [← Nat.div_lt_iff_lt_mul (by omega)]
  omega

theorem pop_of_pos {vector : List α} (nonempty : 0 < vector.length) :
    ∃ item, vector = (pop vector).2 ++ [item] ∧ (pop vector).1 = some item := by
  have notNil : vector ≠ [] := List.length_pos_iff.mp nonempty
  exact ⟨vector.getLast notNil, (List.dropLast_append_getLast notNil).symm,
    List.getLast?_eq_some_getLast notNil⟩

/-- One call takes the last element of one of the two vectors and keeps the balance. -/
theorem Balanced.step {longLen shortLen idx : Nat} {state : Interleave α}
    (noWrap : shortLen * (longLen + shortLen) < 2 ^ 64)
    (balanced : Balanced longLen shortLen (idx + 1) state) :
    ∃ item state', interleaveStep (longLen + shortLen) shortLen state idx = (some item, state') ∧
      Balanced longLen shortLen idx state' ∧
      ((state.short = state'.short ++ [item] ∧ state.long = state'.long) ∨
        (state.long = state'.long ++ [item] ∧ state.short = state'.short)) := by
  obtain ⟨within, used, short, long, least, most⟩ := balanced
  have next : (longLen + shortLen - idx) * shortLen =
      (longLen + shortLen - (idx + 1)) * shortLen + shortLen := by
    rw [show longLen + shortLen - idx = longLen + shortLen - (idx + 1) + 1 by omega,
      Nat.succ_mul]
  by_cases hit : state.shortIdx < shortLen ∧
      idx = target (longLen + shortLen) shortLen state.shortIdx
  · obtain ⟨unused, atTarget⟩ := hit
    have due := (idx_eq_target_iff noWrap unused (by omega) least).mp atTarget
    obtain ⟨item, split, popped⟩ := pop_of_pos (by omega : 0 < state.short.length)
    have shorter := congrArg List.length split
    simp only [List.length_append, List.length_singleton] at shorter
    refine ⟨item, { state with short := (pop state.short).2, shortIdx := state.shortIdx + 1 },
      by rw [interleaveStep, if_pos ⟨unused, atTarget⟩, popped], ?_, Or.inl ⟨split, rfl⟩⟩
    have share : (state.shortIdx + 1) * (longLen + shortLen) =
        state.shortIdx * (longLen + shortLen) + (longLen + shortLen) := Nat.succ_mul _ _
    exact
      { within := by omega
        used := unused
        short := by simp only; omega
        long := by simp only; omega
        least := by simp only [share]; omega
        most := fun _ => by simp only [share]; omega }
  · -- the share of the unused elements is not due, so the longer vector cannot be used up
    have notDue : (longLen + shortLen - idx) * shortLen ≤
        state.shortIdx * (longLen + shortLen) := by
      by_cases unused : state.shortIdx < shortLen
      · have missed : idx ≠ target (longLen + shortLen) shortLen state.shortIdx :=
          fun atTarget => hit ⟨unused, atTarget⟩
        rw [Ne, idx_eq_target_iff noWrap unused (by omega) least] at missed
        omega
      · rw [show state.shortIdx = shortLen by omega, Nat.mul_comm shortLen]
        exact Nat.mul_le_mul_right _ (by omega)
    have longLeft : 0 < state.long.length := by
      by_contra empty
      have count : longLen + shortLen - idx = longLen + state.shortIdx + 1 := by omega
      have bound : state.shortIdx * longLen ≤ shortLen * longLen :=
        Nat.mul_le_mul_right _ used
      rw [count, Nat.add_mul, Nat.add_mul, Nat.mul_add, Nat.mul_comm longLen] at notDue
      omega
    obtain ⟨item, split, popped⟩ := pop_of_pos longLeft
    have shorter := congrArg List.length split
    simp only [List.length_append, List.length_singleton] at shorter
    refine ⟨item, { state with long := (pop state.long).2 },
      by rw [interleaveStep, if_neg hit, popped], ?_, Or.inr ⟨split, rfl⟩⟩
    exact
      { within := by omega
        used := used
        short := short
        long := by simp only; omega
        least := notDue
        most := fun positive => by have := most positive; simp only; omega }

/-- The output from a balanced state merges what is left of the two vectors, last elements
    first: labelled by the vector it came from, each reads as that vector reversed. -/
theorem Balanced.lanes {longLen shortLen remaining : Nat} {state : Interleave α}
    (noWrap : shortLen * (longLen + shortLen) < 2 ^ 64)
    (balanced : Balanced longLen shortLen remaining state) :
    ∃ labelled : List (Bool × α),
      labelled.map Prod.snd = interleaveFrom (longLen + shortLen) shortLen remaining state ∧
      lane labelled true = state.long.reverse ∧ lane labelled false = state.short.reverse := by
  induction remaining generalizing state with
  | zero =>
    have long : state.long = [] := List.length_eq_zero_iff.mp (by have := balanced.long; omega)
    have short : state.short = [] := List.length_eq_zero_iff.mp (by have := balanced.long; omega)
    exact ⟨[], rfl, by simp [long], by simp [short]⟩
  | succ idx inductionHypothesis =>
    obtain ⟨item, state', called, balanced', taken⟩ := balanced.step noWrap
    obtain ⟨labelled, output, longLane, shortLane⟩ := inductionHypothesis balanced'
    rw [interleaveFrom, called]
    rcases taken with ⟨short, long⟩ | ⟨long, short⟩
    · refine ⟨(false, item) :: labelled, by simp [output], ?_, ?_⟩
      · simp [lane_cons, longLane, long]
      · simp [lane_cons, shortLane, short]
    · refine ⟨(true, item) :: labelled, by simp [output], ?_, ?_⟩
      · simp [lane_cons, longLane, long]
      · simp [lane_cons, shortLane, short]

theorem Balanced.start (long short : List α) :
    Balanced long.length short.length (long.length + short.length)
      { long, short, shortIdx := 0 } where
  within := le_rfl
  used := Nat.zero_le _
  short := rfl
  long := rfl
  least := by simp
  most := by simp

/-- `interleave` merges its two vectors, each read from its end. -/
theorem interleave_lanes (v1 v2 : List α)
    (noWrap : min v1.length v2.length * (v1.length + v2.length) < 2 ^ 64) :
    ∃ labelled : List (Bool × α), labelled.map Prod.snd = interleave v1 v2 ∧
      lane labelled true = v1.reverse ∧ lane labelled false = v2.reverse := by
  rw [interleave]
  by_cases longer : v1.length ≥ v2.length
  · simp only [if_pos longer]
    rw [min_eq_right longer] at noWrap
    exact (Balanced.start v1 v2).lanes noWrap
  · simp only [if_neg longer]
    rw [min_eq_left (by omega), Nat.add_comm] at noWrap
    obtain ⟨labelled, output, second, first⟩ := (Balanced.start v2 v1).lanes noWrap
    refine ⟨labelled.map (fun entry => (!entry.1, entry.2)),
      by simpa [Function.comp_def] using output, ?_, ?_⟩
    · rw [← first]
      simp [lane, List.filter_map, Function.comp_def]
    · rw [← second]
      simp [lane, List.filter_map, Function.comp_def]

/-- `interleave` loses and repeats nothing. -/
theorem interleave_perm (v1 v2 : List α)
    (noWrap : min v1.length v2.length * (v1.length + v2.length) < 2 ^ 64) :
    (interleave v1 v2).Perm (v1 ++ v2) := by
  obtain ⟨labelled, output, first, second⟩ := interleave_lanes v1 v2 noWrap
  have lanes := perm_lanes labelled
  rw [output, first, second] at lanes
  exact lanes.trans ((List.reverse_perm v1).append (List.reverse_perm v2))

theorem mem_interleave {v1 v2 : List α}
    (noWrap : min v1.length v2.length * (v1.length + v2.length) < 2 ^ 64) {item : α} :
    item ∈ interleave v1 v2 ↔ item ∈ v1 ∨ item ∈ v2 := by
  rw [(interleave_perm v1 v2 noWrap).mem_iff, List.mem_append]

theorem length_interleave (v1 v2 : List α)
    (noWrap : min v1.length v2.length * (v1.length + v2.length) < 2 ^ 64) :
    (interleave v1 v2).length = v1.length + v2.length := by
  rw [(interleave_perm v1 v2 noWrap).length_eq, List.length_append]

example : interleave [10, 20, 30, 40, 50] [1, 2] = [2, 50, 40, 1, 30, 20, 10] := by decide

end GarudaCodec.Core.Vector
