import GarudaCodec.Foundation.PositionalWrites

/-! # What positional writes leave behind

A position holds what the last write that covers it has put there, or else what it held before, or
else the fill if it lies before the end (`getElem?_writeAll`).  So doing the same writes once more
changes nothing (`writeAll_again`), and writes that lie within one source patch it into what was
there (`writeAll_patched`).
-/

namespace GarudaCodec.Foundation.PositionalWrites

variable {α : Type*}

/-- What one write puts at a position. -/
def putsAt (write : Write α) (idx : Nat) : Option α :=
  if write.1 ≤ idx then write.2[idx - write.1]? else none

/-- What the last of the writes that cover a position puts there. -/
def lastAt : List (Write α) → Nat → Option α
  | [], _ => none
  | write :: writes, idx => (lastAt writes idx).or (putsAt write idx)

/-- Where a write ends; an empty one does not extend anything. -/
def endOf (write : Write α) : Nat :=
  if write.2 = [] then 0 else write.1 + write.2.length

/-- Where the furthest of the writes ends. -/
def reach : List (Write α) → Nat
  | [] => 0
  | write :: writes => max (endOf write) (reach writes)

variable {fill : α} {old : List α} {write : Write α} {writes : List (Write α)} {idx : Nat}

theorem putsAt_isSome : (putsAt write idx).isSome ↔ Covers write idx := by
  simp only [putsAt, Covers]
  split
  · simp only [isSome_getElem?]
    omega
  · simp
    omega

theorem lt_endOf (covered : Covers write idx) : idx < endOf write := by
  obtain ⟨low, high⟩ := covered
  have nonempty : write.2 ≠ [] := by
    intro empty
    simp only [empty, List.length_nil] at high
    omega
  simpa [endOf, nonempty] using high

theorem lastAt_append (earlier later : List (Write α)) :
    lastAt (earlier ++ later) idx = (lastAt later idx).or (lastAt earlier idx) := by
  induction earlier with
  | nil => simp [lastAt]
  | cons write earlier inductionHypothesis =>
    rw [List.cons_append, lastAt, inductionHypothesis, lastAt, Option.or_assoc]

theorem lastAt_isSome : (lastAt writes idx).isSome ↔ ∃ write ∈ writes, Covers write idx := by
  induction writes with
  | nil => simp [lastAt]
  | cons write writes inductionHypothesis =>
    simp only [lastAt, Option.isSome_or, Bool.or_eq_true, inductionHypothesis, putsAt_isSome,
      List.exists_mem_cons_iff]
    exact or_comm

theorem length_writeAt (write : Write α) :
    (writeAt fill write.1 write.2 old).length = max old.length (endOf write) := by
  obtain ⟨offset, piece⟩ := write
  dsimp only
  by_cases empty : piece = []
  · simp [empty, endOf]
  · simp only [writeAt, empty, endOf, if_false, List.length_append, length_gap, List.length_drop]
    omega

/-- One position after one write. -/
theorem getElem?_writeAt (write : Write α) :
    (writeAt fill write.1 write.2 old)[idx]? =
      if idx < max old.length (endOf write) then some (((putsAt write idx).or old[idx]?).getD fill)
      else none := by
  obtain ⟨offset, piece⟩ := write
  dsimp only
  by_cases inside : idx < max old.length (endOf (offset, piece))
  · rw [if_pos inside]
    by_cases covered : Covers (offset, piece) idx
    · obtain ⟨value, puts⟩ := Option.isSome_iff_exists.mp (putsAt_isSome.mpr covered)
      rw [getElem?_writeAt_inside covered, puts]
      rw [putsAt, if_pos covered.1] at puts
      simp [puts]
    · have nothing : putsAt (offset, piece) idx = none := by
        simpa using mt putsAt_isSome.mp covered
      rw [nothing, Option.none_or]
      cases Nat.lt_or_ge idx old.length with
      | inl held =>
        rw [List.getElem?_eq_getElem held, Option.getD_some, ← List.getElem?_eq_getElem held]
        cases Nat.lt_or_ge idx offset with
        | inl before => exact getElem?_writeAt_before before held
        | inr notBefore =>
          apply getElem?_writeAt_behind
          simp only [Covers] at covered
          omega
      | inr behind =>
        -- the position lies in the gap that the write leaves
        rw [List.getElem?_eq_none behind, Option.getD_none]
        have nonempty : piece ≠ [] := by
          intro empty
          simp [endOf, empty] at inside
          omega
        have before : idx < offset := by
          simp only [Covers] at covered
          simp only [endOf, nonempty, if_false] at inside
          omega
        rw [writeAt, if_neg nonempty, List.append_assoc,
          List.getElem?_append_left (by rw [length_gap]; exact before), List.getElem?_take,
          if_pos before, List.getElem?_append_right behind, List.getElem?_replicate]
        exact if_pos (by omega)
  · rw [if_neg inside, List.getElem?_eq_none]
    have length : (writeAt fill offset piece old).length = _ := length_writeAt (offset, piece)
    omega

theorem length_writeAll :
    (writeAll fill writes old).length = max old.length (reach writes) := by
  induction writes generalizing old with
  | nil => simp [reach]
  | cons write writes inductionHypothesis =>
    rw [writeAll_cons, inductionHypothesis, length_writeAt, reach]
    omega

/-- One position after a run of writes. -/
theorem getElem?_writeAll :
    (writeAll fill writes old)[idx]? =
      if idx < max old.length (reach writes) then
        some (((lastAt writes idx).or old[idx]?).getD fill)
      else none := by
  induction writes generalizing old with
  | nil =>
    simp only [writeAll_nil, reach, Nat.max_zero, lastAt, Option.none_or]
    split
    · next inside => simp [inside]
    · next outside => simpa using outside
  | cons write writes inductionHypothesis =>
    rw [writeAll_cons, inductionHypothesis, length_writeAt, reach, Nat.max_assoc, lastAt,
      getElem?_writeAt]
    split
    · cases later : lastAt writes idx with
      | some value => simp
      | none =>
        split
        · simp
        · next outside =>
          -- neither the old content nor this write reaches as far
          have nothing : putsAt write idx = none := by
            simpa using mt putsAt_isSome.mp (mt lt_endOf (by omega))
          have ended : old[idx]? = none := List.getElem?_eq_none (by omega)
          simp [nothing, ended]
    · rfl

/-- Doing the same writes once more changes nothing. -/
theorem writeAll_again : writeAll fill writes (writeAll fill writes old) =
    writeAll fill writes old := by
  apply List.ext_getElem?
  intro idx
  rw [getElem?_writeAll, length_writeAll, Nat.max_assoc, Nat.max_self, getElem?_writeAll]
  split
  · cases lastAt writes idx with
    | some value => simp
    | none => simp
  · rfl

/-! ## Contents before and after -/

/-- Where something is said about a position, it holds that; everything else is as it was before,
    and gaps are filled. -/
structure Overwritten (fill : α) (said : Nat → Option α) (before after : List α) : Prop where
  inPlace : ∀ idx value, said idx = some value → after[idx]? = some value
  kept : ∀ idx, said idx = none → idx < before.length → after[idx]? = before[idx]?
  gap : ∀ idx later, said idx = none → before.length ≤ idx → idx < later → (said later).isSome →
    after[idx]? = some fill
  ends : ∀ idx, before.length ≤ idx → (∀ later, idx ≤ later → said later = none) →
    after[idx]? = none

/-- The parts of a source that have arrived are in place, everything else is as it was before, and
    gaps are filled. -/
structure Patched (fill : α) (source : List α) (arrived : Nat → Prop) (before after : List α) :
    Prop where
  inPlace : ∀ idx, arrived idx → idx < source.length ∧ after[idx]? = source[idx]?
  kept : ∀ idx, ¬arrived idx → idx < before.length → after[idx]? = before[idx]?
  gap : ∀ idx later, ¬arrived idx → before.length ≤ idx → idx < later → arrived later →
    after[idx]? = some fill
  ends : ∀ idx, before.length ≤ idx → (∀ later, idx ≤ later → ¬arrived later) → after[idx]? = none

variable {source before after : List α} {said : Nat → Option α} {arrived : Nat → Prop}

theorem Overwritten.patched (overwritten : Overwritten fill said before after)
    (agrees : ∀ idx value, said idx = some value → source[idx]? = some value)
    (isArrived : ∀ idx, (said idx).isSome ↔ arrived idx) :
    Patched fill source arrived before after where
  inPlace := by
    intro idx here
    obtain ⟨value, isSaid⟩ := Option.isSome_iff_exists.mp ((isArrived idx).mpr here)
    have same := agrees idx value isSaid
    have holds := overwritten.inPlace idx value isSaid
    exact ⟨(List.getElem?_eq_some_iff.mp same).1, holds.trans same.symm⟩
  kept := fun idx notHere => overwritten.kept idx (by simpa [← isArrived] using notHere)
  gap := fun idx later notHere behind before here => overwritten.gap idx later
    (by simpa [← isArrived] using notHere) behind before ((isArrived later).mpr here)
  ends := fun idx behind none => overwritten.ends idx behind fun later notBefore => by
    simpa [← isArrived] using none later notBefore

theorem Patched.congr {others : Nat → Prop} (patched : Patched fill source arrived before after)
    (same : ∀ idx, arrived idx ↔ others idx) : Patched fill source others before after := by
  have equal : arrived = others := funext fun idx => propext (same idx)
  rwa [equal] at patched

/-- What has arrived, and where, leaves nothing open. -/
theorem Patched.unique {other : List α} (patched : Patched fill source arrived before after)
    (otherPatched : Patched fill source arrived before other) : after = other := by
  apply List.ext_getElem?
  intro idx
  by_cases here : arrived idx
  · rw [(patched.inPlace idx here).2, (otherPatched.inPlace idx here).2]
  · cases Nat.lt_or_ge idx before.length with
    | inl held => rw [patched.kept idx here held, otherPatched.kept idx here held]
    | inr behind =>
      by_cases further : ∃ later, idx < later ∧ arrived later
      · obtain ⟨later, isLater, there⟩ := further
        rw [patched.gap idx later here behind isLater there,
          otherPatched.gap idx later here behind isLater there]
      · have nothing : ∀ later, idx ≤ later → ¬arrived later := by
          intro later notBefore there
          cases Nat.eq_or_lt_of_le notBefore with
          | inl same => exact here (same ▸ there)
          | inr isLater => exact further ⟨later, isLater, there⟩
        rw [patched.ends idx behind nothing, otherPatched.ends idx behind nothing]

/-- A source all of which has arrived is there, with what was behind its end before. -/
theorem Patched.complete (patched : Patched fill source arrived before after)
    (all : ∀ idx, idx < source.length → arrived idx) :
    after = source ++ before.drop source.length := by
  apply List.ext_getElem?
  intro idx
  cases Nat.lt_or_ge idx source.length with
  | inl inside =>
    rw [(patched.inPlace idx (all idx inside)).2, List.getElem?_append_left inside]
  | inr outside =>
    have notArrived : ∀ later, idx ≤ later → ¬arrived later := by
      intro later notBefore here
      have inside := (patched.inPlace later here).1
      omega
    rw [List.getElem?_append_right outside, List.getElem?_drop,
      Nat.add_sub_cancel' outside]
    cases Nat.lt_or_ge idx before.length with
    | inl held => exact patched.kept idx (notArrived idx (Nat.le_refl idx)) held
    | inr behind => rw [patched.ends idx behind notArrived, List.getElem?_eq_none behind]

/-- When a front of the source is what has arrived, it is put over what was there. -/
theorem Patched.front {part : List α} (patched : Patched fill source arrived before after)
    (isFront : part <+: source) (all : ∀ idx, arrived idx ↔ idx < part.length) :
    after = part ++ before.drop part.length := by
  have ofPart : Patched fill part arrived before after :=
    { patched with
      inPlace := by
        intro idx here
        have inside := (all idx).mp here
        obtain ⟨rest, rfl⟩ := isFront
        obtain ⟨-, same⟩ := patched.inPlace idx here
        rw [List.getElem?_append_left inside] at same
        exact ⟨inside, same⟩ }
  exact ofPart.complete fun idx inside => (all idx).mpr inside

theorem lt_reach_iff : idx < reach writes ↔ ∃ write ∈ writes, idx < endOf write := by
  induction writes with
  | nil => simp [reach]
  | cons write writes inductionHypothesis =>
    rw [List.exists_mem_cons_iff, ← inductionHypothesis, reach]
    omega

/-- A write that reaches past a position covers it or a later one. -/
theorem exists_covers (far : idx < endOf write) : ∃ later, idx ≤ later ∧ Covers write later := by
  simp only [endOf] at far
  split at far
  · omega
  · next nonempty =>
    have positive := List.length_pos_iff.mpr nonempty
    exact ⟨max idx write.1, Nat.le_max_left _ _, Nat.le_max_right _ _, by omega⟩

/-- Any writes overwrite what was there, and the last one wins. -/
theorem writeAll_overwritten : Overwritten fill (lastAt writes) old (writeAll fill writes old) where
  inPlace := by
    intro idx value last
    have covered : (lastAt writes idx).isSome := by simp [last]
    obtain ⟨write, member, covers⟩ := lastAt_isSome.mp covered
    have far := lt_reach_iff.mpr ⟨write, member, lt_endOf covers⟩
    rw [getElem?_writeAll, if_pos (by omega), last, Option.some_or, Option.getD_some]
  kept := by
    intro idx nothing held
    rw [getElem?_writeAll, if_pos (by omega), nothing, Option.none_or,
      List.getElem?_eq_getElem held, Option.getD_some]
  gap := by
    intro idx later nothing behind before covered
    obtain ⟨write, member, covers⟩ := lastAt_isSome.mp covered
    have far : idx < reach writes :=
      lt_reach_iff.mpr ⟨write, member, Nat.lt_trans before (lt_endOf covers)⟩
    rw [getElem?_writeAll, if_pos (by omega), nothing, Option.none_or,
      List.getElem?_eq_none behind, Option.getD_none]
  ends := by
    intro idx behind nothing
    have near : ¬idx < reach writes := by
      intro far
      obtain ⟨write, member, reaches⟩ := lt_reach_iff.mp far
      obtain ⟨later, notBefore, covers⟩ := exists_covers reaches
      have covered := lastAt_isSome.mpr ⟨write, member, covers⟩
      simp [nothing later notBefore] at covered
    rw [getElem?_writeAll, if_neg (by omega)]

/-- What writes within a source put anywhere is what the source has there. -/
theorem lastAt_within (within : ∀ write ∈ writes, Within source write) {value : α}
    (last : lastAt writes idx = some value) : source[idx]? = some value := by
  have covered : (lastAt writes idx).isSome := by simp [last]
  have holds : (writeAll value writes [])[idx]? = some value :=
    writeAll_overwritten.inPlace idx value last
  rw [← holds]
  exact (writeAll_puts within (lastAt_isSome.mp covered)).symm

/-- Writes that lie within a source patch it into what was there. -/
theorem writeAll_patched (within : ∀ write ∈ writes, Within source write) :
    Patched fill source (fun idx => ∃ write ∈ writes, Covers write idx) old
      (writeAll fill writes old) :=
  writeAll_overwritten.patched (fun _ _ => lastAt_within within) fun _ => lastAt_isSome

/-- A patched source is what any writes leave that are within the source and say the same. -/
theorem Patched.eq_writeAll (patched : Patched fill source arrived before after)
    (within : ∀ write ∈ writes, Within source write)
    (same : ∀ idx, arrived idx ↔ ∃ write ∈ writes, Covers write idx) :
    after = writeAll fill writes before :=
  (patched.congr same).unique (writeAll_patched within)

/-! ## Stores -/

variable {κ : Type*} [DecidableEq κ] {store : Store κ α} {key : κ} {puts : List (κ × Write α)}

/-- What a key holds after any writes. -/
theorem Store.putAll_apply :
    store.putAll fill puts key =
      if under key puts = [] then store key
      else some (writeAll fill (under key puts) ((store key).getD [])) := by
  split
  · next nothing =>
    apply Store.putAll_other
    intro put member same
    have inUnder : put.2 ∈ under key puts := mem_under.mpr (by rw [← same]; exact member)
    simp [nothing] at inUnder
  · next written =>
    cases state : store key with
    | some content => rw [Store.putAll_eq state, Option.getD_some]
    | none => rw [Store.putAll_eq_of_none state written, Option.getD_none]

theorem Store.getD_putAll :
    (store.putAll fill puts key).getD [] =
      writeAll fill (under key puts) ((store key).getD []) := by
  rw [Store.putAll_apply]
  split
  · next nothing => rw [nothing, writeAll_nil]
  · rfl

/-- A key that nothing is written under is left as it is, even if it is missing. -/
theorem Store.putAll_eq_ite {content : List α}
    (holds : (store.putAll fill puts key).getD [] = content) :
    store.putAll fill puts key = if under key puts = [] then store key else some content := by
  rw [Store.putAll_apply] at holds ⊢
  split
  · rfl
  · next written =>
    rw [if_neg written, Option.getD_some] at holds
    rw [holds]

theorem Store.putAll_append (earlier later : List (κ × Write α)) :
    store.putAll fill (earlier ++ later) = (store.putAll fill earlier).putAll fill later := by
  simp [Store.putAll]

theorem Store.putAll_again :
    (store.putAll fill puts).putAll fill puts = store.putAll fill puts := by
  funext key
  rw [Store.putAll_apply, Store.putAll_apply]
  split
  · rfl
  · rw [Option.getD_some, writeAll_again]

end GarudaCodec.Foundation.PositionalWrites
