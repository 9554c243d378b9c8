import Mathlib.Algebra.Order.Floor.Div
import GarudaCodec.Core.Vector

/-! # What `interleave` yields

Every call of the closure that `interleave` passes to `filter_map` finds an element to pop, so
nothing is lost; and the elements of the shorter vector are spread so evenly that every prefix and
every window of the output contains its share of them.
-/

namespace GarudaCodec.Core.Vector

open GarudaCodec.Foundation.Lanes

variable {α β : Type*}

/-! ## The calls of the closure -/

/-- The calls of the closure, with the position and the captured state of each. -/
def closureCalls (totalLen shortLen : Nat) : Nat → Interleave α → List (Nat × Interleave α)
  | 0, _ => []
  | idx + 1, state =>
    (idx, state) :: closureCalls totalLen shortLen idx
      (interleaveStep totalLen shortLen state idx).2

/-- The state in which `interleave` starts to iterate. -/
def interleaveStart (v1 v2 : List α) : Interleave α :=
  if v1.length ≥ v2.length then { long := v1, short := v2, shortIdx := 0 }
  else { long := v2, short := v1, shortIdx := 0 }

/-- The output is what the calls return, without the `None`s. -/
theorem interleaveFrom_eq (totalLen shortLen remaining : Nat) (state : Interleave α) :
    interleaveFrom totalLen shortLen remaining state =
      (closureCalls totalLen shortLen remaining state).filterMap fun call =>
        (interleaveStep totalLen shortLen call.2 call.1).1 := by
  induction remaining generalizing state with
  | zero => rfl
  | succ idx inductionHypothesis =>
    rw [interleaveFrom, closureCalls, List.filterMap_cons]
    obtain ⟨item, state'⟩ := interleaveStep totalLen shortLen state idx
    simp only [inductionHypothesis]
    cases item with
    | none => rfl
    | some item => rfl

theorem interleaveStart_lengths (v1 v2 : List α) :
    (interleaveStart v1 v2).short.length = min v1.length v2.length ∧
      (interleaveStart v1 v2).long.length + (interleaveStart v1 v2).short.length =
        v1.length + v2.length := by
  rw [interleaveStart]
  split
  · exact ⟨by simp only; omega, rfl⟩
  · exact ⟨by simp only; omega, Nat.add_comm _ _⟩

theorem Balanced.interleaveStart (v1 v2 : List α) :
    Balanced (interleaveStart v1 v2).long.length (min v1.length v2.length)
      (v1.length + v2.length) (interleaveStart v1 v2) := by
  obtain ⟨short, total⟩ := interleaveStart_lengths v1 v2
  have start : (Vector.interleaveStart v1 v2).shortIdx = 0 := by
    rw [Vector.interleaveStart]
    split <;> rfl
  have balanced := Balanced.start (Vector.interleaveStart v1 v2).long
    (Vector.interleaveStart v1 v2).short
  rw [total, short] at balanced
  rw [← start] at balanced
  exact balanced

theorem interleave_eq (v1 v2 : List α) :
    interleave v1 v2 = interleaveFrom (v1.length + v2.length) (min v1.length v2.length)
      (v1.length + v2.length) (interleaveStart v1 v2) := by
  rw [interleave, interleaveStart]
  by_cases longer : v1.length ≥ v2.length
  · simp only [if_pos longer, min_eq_right longer]
  · simp only [if_neg longer, min_eq_left (Nat.le_of_not_le longer), Nat.add_comm v2.length]

/-- A call whose arithmetic does not overflow, underflow or divide by zero, and which pops an
    element. -/
structure Sound (totalLen shortLen : Nat) (call : Nat × Interleave α) : Prop where
  divides : call.2.shortIdx < shortLen → shortLen ≠ 0
  product : call.2.shortIdx < shortLen → call.2.shortIdx * totalLen < 2 ^ 64
  target : call.2.shortIdx < shortLen → call.2.shortIdx * totalLen / shortLen + 1 ≤ totalLen
  pops : (interleaveStep totalLen shortLen call.2 call.1).1.isSome

theorem Balanced.sound {longLen shortLen remaining : Nat} {state : Interleave α}
    (noWrap : shortLen * (longLen + shortLen) < 2 ^ 64)
    (balanced : Balanced longLen shortLen remaining state) :
    ∀ call ∈ closureCalls (longLen + shortLen) shortLen remaining state,
      Sound (longLen + shortLen) shortLen call := by
  induction remaining generalizing state with
  | zero => simp [closureCalls]
  | succ idx inductionHypothesis =>
    obtain ⟨item, state', called, balanced', -⟩ := balanced.step noWrap
    rw [closureCalls, called]
    refine List.forall_mem_cons.mpr ⟨?_, inductionHypothesis balanced'⟩
    exact
      { divides := fun unused => by simp only at unused; omega
        product := fun unused => lt_of_le_of_lt (Nat.mul_le_mul_right _ unused.le) noWrap
        target := fun unused => by
          have within := balanced.within
          exact Nat.div_lt_of_lt_mul (Nat.mul_lt_mul_of_pos_right unused (by omega))
        pops := by rw [called]; rfl }

/-- `interleave` loses and repeats nothing: it merges its two vectors, each read from its end, and
    no call of its closure misses an element or goes out of range. -/
theorem interleave_complete (v1 v2 : List α)
    (noWrap : min v1.length v2.length * (v1.length + v2.length) < 2 ^ 64) :
    (interleave v1 v2).length = v1.length + v2.length ∧
      (∃ labelled : List (Bool × α), labelled.map Prod.snd = interleave v1 v2 ∧
        lane labelled true = v1.reverse ∧ lane labelled false = v2.reverse) ∧
      interleave v1 v2 = (closureCalls (v1.length + v2.length) (min v1.length v2.length)
          (v1.length + v2.length) (interleaveStart v1 v2)).filterMap (fun call =>
        (interleaveStep (v1.length + v2.length) (min v1.length v2.length) call.2 call.1).1) ∧
      ∀ call ∈ closureCalls (v1.length + v2.length) (min v1.length v2.length)
          (v1.length + v2.length) (interleaveStart v1 v2),
        Sound (v1.length + v2.length) (min v1.length v2.length) call := by
  refine ⟨length_interleave v1 v2 noWrap, interleave_lanes v1 v2 noWrap,
    (interleave_eq v1 v2).trans (interleaveFrom_eq ..), ?_⟩
  obtain ⟨short, total⟩ := interleaveStart_lengths v1 v2
  rw [short] at total
  rw [← total] at noWrap ⊢
  refine Balanced.sound noWrap ?_
  rw [total]
  exact Balanced.interleaveStart v1 v2

theorem interleave_complete_sample :
    (interleave [10, 20, 30, 40, 50] [1, 2]).length = 7 :=
  (interleave_complete [10, 20, 30, 40, 50] [1, 2] (by decide)).1

/-! ## Tagged elements -/

/-- The iteration does not look at the elements. -/
theorem interleaveFrom_map (f : α → β) (totalLen shortLen remaining : Nat)
    (state : Interleave α) :
    (interleaveFrom totalLen shortLen remaining state).map f =
      interleaveFrom totalLen shortLen remaining
        { long := state.long.map f, short := state.short.map f, shortIdx := state.shortIdx } := by
  induction remaining generalizing state with
  | zero => rfl
  | succ idx inductionHypothesis =>
    rw [interleaveFrom, interleaveFrom, interleaveStep, interleaveStep]
    by_cases hit : state.shortIdx < shortLen ∧ idx = target totalLen shortLen state.shortIdx
    · simp only [if_pos hit, List.map_append, inductionHypothesis, pop, List.map_dropLast,
        List.getLast?_map]
      cases state.short.getLast? <;> rfl
    · simp only [if_neg hit, List.map_append, inductionHypothesis, pop, List.map_dropLast,
        List.getLast?_map]
      cases state.long.getLast? <;> rfl

theorem interleave_map (f : α → β) (v1 v2 : List α) :
    (interleave v1 v2).map f = interleave (v1.map f) (v2.map f) := by
  rw [interleave_eq, interleave_eq, interleaveFrom_map, List.length_map, List.length_map]
  congr 1
  rw [interleaveStart, interleaveStart, List.length_map, List.length_map]
  split <;> rfl

/-- `interleave` on elements that carry the vector they are from: `true` is the first one. -/
def tagged (v1 v2 : List α) : List (Bool × α) :=
  interleave (v1.map (Prod.mk true)) (v2.map (Prod.mk false))

/-- The tag of the shorter vector, which is the second one when the lengths are equal. -/
def shorterTag (v1 v2 : List α) : Bool := decide (v1.length < v2.length)

/-! ## The share of the shorter vector -/

/-- How many of the first `count` elements are due to come from the shorter vector. -/
def share (totalLen shortLen count : Nat) : Nat := (count * shortLen) ⌈/⌉ totalLen

theorem share_le_iff {totalLen shortLen count bound : Nat} (positive : 0 < totalLen) :
    share totalLen shortLen count ≤ bound ↔ count * shortLen ≤ totalLen * bound :=
  ceilDiv_le_iff_le_mul positive

/-- A balanced state has used up the share of the positions so far. -/
theorem Balanced.shortIdx_eq {longLen shortLen remaining : Nat} {state : Interleave α}
    (balanced : Balanced longLen shortLen remaining state) (positive : 0 < longLen + shortLen) :
    state.shortIdx =
      share (longLen + shortLen) shortLen (longLen + shortLen - remaining) := by
  have least := balanced.least
  have most := balanced.most positive
  apply Nat.le_antisymm
  · -- one element less would fall short of the share
    by_contra more
    have bound := (share_le_iff positive).mp (Nat.le_sub_one_of_lt (Nat.lt_of_not_le more))
    have used : state.shortIdx = state.shortIdx - 1 + 1 := by omega
    rw [used, Nat.succ_mul, Nat.mul_comm] at most
    omega
  · rw [share_le_iff positive, Nat.mul_comm (longLen + shortLen)]
    exact least

/-- Every prefix of the output brings the share of the shorter vector up to date. -/
theorem Balanced.countP_take {longLen shortLen remaining : Nat} {state : Interleave α}
    {fromShort : α → Bool} (noWrap : shortLen * (longLen + shortLen) < 2 ^ 64)
    (balanced : Balanced longLen shortLen remaining state)
    (short : ∀ item ∈ state.short, fromShort item = true)
    (long : ∀ item ∈ state.long, fromShort item = false) {count : Nat}
    (within : count ≤ remaining) (positive : 0 < longLen + shortLen) :
    state.shortIdx +
        ((interleaveFrom (longLen + shortLen) shortLen remaining state).take count).countP
          fromShort =
      share (longLen + shortLen) shortLen (longLen + shortLen - remaining + count) := by
  induction count generalizing remaining state with
  | zero => simpa using balanced.shortIdx_eq positive
  | succ count inductionHypothesis =>
    cases remaining with
    | zero => omega
    | succ idx =>
      obtain ⟨item, state', called, balanced', taken⟩ := balanced.step noWrap
      have positions : longLen + shortLen - (idx + 1) + (count + 1) =
          longLen + shortLen - idx + count := by
        have := balanced.within
        omega
      rw [interleaveFrom, called, positions]
      simp only [Option.toList_some, List.singleton_append, List.take_succ_cons, List.countP_cons]
      have used := balanced.short
      have used' := balanced'.short
      have bound := balanced.used
      have bound' := balanced'.used
      obtain ⟨shortSplit, longSame⟩ | ⟨longSplit, shortSame⟩ := taken
      · have isShort : fromShort item = true := short item (by simp [shortSplit])
        have rest := inductionHypothesis balanced'
          (fun other member => short other (by simp [shortSplit, member]))
          (fun other member => long other (longSame ▸ member)) (by omega)
        have lengths := congrArg List.length shortSplit
        rw [List.length_append, List.length_singleton] at lengths
        rw [← rest, isShort]
        simp only [if_true]
        omega
      · have isLong : fromShort item = false := long item (by simp [longSplit])
        have rest := inductionHypothesis balanced'
          (fun other member => short other (shortSame ▸ member))
          (fun other member => long other (by simp [longSplit, member])) (by omega)
        have lengths := congrArg List.length shortSame
        rw [← rest, isLong]
        simp only [Bool.false_eq_true, if_false]
        omega

/-- The shares of a window's two ends differ by the window's own share, rounded down or up. -/
theorem share_window {totalLen : Nat} (shortLen : Nat) (positive : 0 < totalLen)
    (offset width : Nat) :
    ∃ count, share totalLen shortLen (offset + width) = share totalLen shortLen offset + count ∧
      (count = width * shortLen / totalLen ∨ count = (width * shortLen) ⌈/⌉ totalLen) := by
  have joint : (offset + width) * shortLen = offset * shortLen + width * shortLen :=
    Nat.add_mul _ _ _
  have reached : (offset + width) * shortLen ≤
      totalLen * share totalLen shortLen (offset + width) :=
    (share_le_iff positive).mp (Nat.le_refl _)
  have floor : totalLen * (width * shortLen / totalLen) ≤ width * shortLen :=
    Nat.mul_div_le _ _
  have upper : share totalLen shortLen (offset + width) ≤
      share totalLen shortLen offset + (width * shortLen) ⌈/⌉ totalLen := by
    rw [share_le_iff positive, joint, Nat.mul_add]
    exact Nat.add_le_add ((share_le_iff positive).mp (Nat.le_refl _))
      ((ceilDiv_le_iff_le_mul positive).mp (Nat.le_refl _))
  have small : width * shortLen / totalLen ≤ share totalLen shortLen (offset + width) :=
    Nat.le_of_mul_le_mul_left (by omega) positive
  have lower : share totalLen shortLen offset ≤
      share totalLen shortLen (offset + width) - width * shortLen / totalLen := by
    rw [share_le_iff positive, Nat.mul_sub]
    omega
  have narrow : (width * shortLen) ⌈/⌉ totalLen ≤ width * shortLen / totalLen + 1 := by
    rw [ceilDiv_le_iff_le_mul positive]
    have := Nat.lt_mul_div_succ (width * shortLen) positive
    omega
  refine ⟨share totalLen shortLen (offset + width) - share totalLen shortLen offset, ?_⟩
  generalize width * shortLen / totalLen = roundedDown at small lower narrow ⊢
  generalize (width * shortLen) ⌈/⌉ totalLen = roundedUp at upper narrow ⊢
  omega

theorem mem_interleaveStart_tagged (v1 v2 : List α) :
    (∀ entry ∈ (interleaveStart (v1.map (Prod.mk true)) (v2.map (Prod.mk false))).short,
      (entry.1 == shorterTag v1 v2) = true) ∧
    ∀ entry ∈ (interleaveStart (v1.map (Prod.mk true)) (v2.map (Prod.mk false))).long,
      (entry.1 == shorterTag v1 v2) = false := by
  rw [interleaveStart, List.length_map, List.length_map, shorterTag]
  by_cases longer : v1.length ≥ v2.length
  · simp [longer, Nat.not_lt.mpr longer]
  · simp [longer, Nat.lt_of_not_le longer]

theorem countP_take_tagged (v1 v2 : List α) (positive : 0 < v1.length + v2.length)
    (noWrap : min v1.length v2.length * (v1.length + v2.length) < 2 ^ 64) :
    ∀ count ≤ v1.length + v2.length,
      ((tagged v1 v2).take count).countP (fun entry => entry.1 == shorterTag v1 v2) =
        share (v1.length + v2.length) (min v1.length v2.length) count := by
  intro count within
  obtain ⟨short, long⟩ := mem_interleaveStart_tagged v1 v2
  have balanced := Balanced.interleaveStart (v1.map (Prod.mk true)) (v2.map (Prod.mk false))
  obtain ⟨shortLen, total⟩ :=
    interleaveStart_lengths (v1.map (Prod.mk true)) (v2.map (Prod.mk false))
  rw [List.length_map, List.length_map] at balanced shortLen total
  rw [shortLen] at total
  rw [← total] at noWrap positive within
  have counted := balanced.countP_take noWrap short long (total ▸ within) positive
  have start := balanced.shortIdx_eq positive
  rw [total, Nat.sub_self] at counted start
  have none : share (v1.length + v2.length) (min v1.length v2.length) 0 = 0 := by
    rw [share, Nat.zero_mul, zero_ceilDiv]
  rw [start, none, Nat.zero_add, Nat.zero_add] at counted
  rw [tagged, interleave_eq, List.length_map, List.length_map]
  exact counted

/-- The shorter vector is spread evenly: of the first `count` elements, `⌈count * s / T⌉` are from
    it, where `s` is its length and `T` the length of the output, and any window contains its
    share, rounded down or up. -/
theorem interleave_spreads (v1 v2 : List α) (positive : 0 < v1.length + v2.length)
    (noWrap : min v1.length v2.length * (v1.length + v2.length) < 2 ^ 64) :
    (tagged v1 v2).map Prod.snd = interleave v1 v2 ∧
      (∀ count ≤ v1.length + v2.length,
        ((tagged v1 v2).take count).countP (fun entry => entry.1 == shorterTag v1 v2) =
          (count * min v1.length v2.length) ⌈/⌉ (v1.length + v2.length)) ∧
      ∀ offset width, offset + width ≤ v1.length + v2.length →
        let inWindow :=
          (((tagged v1 v2).drop offset).take width).countP fun entry => entry.1 == shorterTag v1 v2
        inWindow = width * min v1.length v2.length / (v1.length + v2.length) ∨
          inWindow = (width * min v1.length v2.length) ⌈/⌉ (v1.length + v2.length) := by
  have prefixes := countP_take_tagged v1 v2 positive noWrap
  refine ⟨?_, prefixes, ?_⟩
  · rw [tagged, interleave_map, List.map_map, List.map_map]
    simp [Function.comp_def]
  · intro offset width within
    obtain ⟨count, ends, rounded⟩ :=
      share_window (min v1.length v2.length) positive offset width
    have whole := prefixes (offset + width) within
    rw [List.take_add, List.countP_append, prefixes offset (by omega)] at whole
    have same : _ = count := Nat.add_left_cancel (whole.trans ends)
    simp only [same]
    exact rounded

theorem interleave_spreads_sample :
    ((tagged [10, 20, 30, 40, 50] [1, 2]).take 4).countP
      (fun entry => entry.1 == shorterTag [10, 20, 30, 40, 50] [1, 2]) = 2 :=
  (interleave_spreads [10, 20, 30, 40, 50] [1, 2] (by decide) (by decide)).2.1 4 (by decide)

end GarudaCodec.Core.Vector
