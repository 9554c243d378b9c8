import Mathlib.Data.List.Basic
import Mathlib.Data.List.Chain
import Mathlib.Data.List.Infix
import Mathlib.Data.List.Nodup
import Mathlib.Order.Basic

/-! # Groups in sorted lists

A list sorted by a numeric key is the concatenation of its groups of equal keys, and two numbers
are neighbours in a filtered range exactly when nothing wanted lies between them.
-/

namespace GarudaCodec.Foundation.Groups

variable {α : Type*}

/-- A list sorted by a key starts with the elements of the least key. -/
theorem filter_append_filter_of_sorted {key : α → Nat} {list : List α} {least : Nat}
    (sorted : (list.map key).Pairwise (· ≤ ·)) (bounded : ∀ value ∈ list, least ≤ key value) :
    list.filter (fun value => key value = least) ++
      list.filter (fun value => key value ≠ least) = list := by
  induction list with
  | nil => rfl
  | cons head list inductionHypothesis =>
    rw [List.map_cons, List.pairwise_cons] at sorted
    have tailBounded := fun value member => bounded value (List.mem_cons_of_mem head member)
    by_cases isLeast : key head = least
    · have rest := inductionHypothesis sorted.2 tailBounded
      simp only [List.filter_cons, isLeast, decide_true, if_true, ne_eq, not_true_eq_false,
        decide_false, Bool.false_eq_true, if_false, List.cons_append]
      rw [rest]
    · -- nothing after a greater key is least
      have headGreater := bounded head List.mem_cons_self
      have greater : ∀ value ∈ list, key value ≠ least := by
        intro value member
        have step := sorted.1 (key value) (List.mem_map_of_mem member)
        omega
      rw [List.filter_eq_nil_iff.mpr, List.nil_append, List.filter_eq_self.mpr]
      · simpa [isLeast] using greater
      · simpa [isLeast] using greater

/-- A sorted list is put together from its groups of equal keys. -/
theorem flatMap_filter_of_sorted {key : α → Nat} {list : List α} {keys : List Nat}
    (sorted : (list.map key).Pairwise (· ≤ ·)) (increasing : keys.Pairwise (· < ·))
    (covers : ∀ value ∈ list, key value ∈ keys) :
    keys.flatMap (fun least => list.filter (fun value => key value = least)) = list := by
  induction keys generalizing list with
  | nil =>
    cases list with
    | nil => rfl
    | cons head => exact absurd (covers head List.mem_cons_self) (List.not_mem_nil)
  | cons least keys inductionHypothesis =>
    rw [List.pairwise_cons] at increasing
    have bounded : ∀ value ∈ list, least ≤ key value := by
      intro value member
      cases List.mem_cons.mp (covers value member) with
      | inl same => omega
      | inr later => exact (increasing.1 _ later).le
    -- the later groups are those of the list without its least elements
    have restSorted : ((list.filter fun value => key value ≠ least).map key).Pairwise (· ≤ ·) :=
      sorted.sublist (List.filter_sublist.map key)
    have rest := inductionHypothesis restSorted increasing.2 (by
      intro value member
      obtain ⟨inList, different⟩ := List.mem_filter.mp member
      exact (List.mem_cons.mp (covers value inList)).resolve_left (by simpa using different))
    conv_rhs => rw [← filter_append_filter_of_sorted sorted bounded, ← rest]
    rw [List.flatMap_cons]
    congr 1
    apply List.flatMap_congr
    intro later member
    have different := increasing.1 later member
    rw [List.filter_filter]
    apply List.filter_congr
    intro value _
    by_cases same : key value = later
    · simp [same, different.ne']
    · simp [same]

/-- Elements with an empty image contribute nothing. -/
theorem flatMap_filter_isEmpty {β : Type*} (image : α → List β) (list : List α) :
    (list.filter fun value => !(image value).isEmpty).flatMap image = list.flatMap image := by
  induction list with
  | nil => rfl
  | cons head list inductionHypothesis =>
    cases empty : image head with
    | nil => simp [empty, inductionHypothesis]
    | cons first rest => simp [empty, inductionHypothesis]

/-- If the elements of a group share its key, filtering by the key picks whole groups. -/
theorem filter_flatMap_of_keys {β κ : Type*} [DecidableEq κ] {label : α → κ} {key : β → κ}
    {elements : α → List β} (keys : ∀ group, ∀ value ∈ elements group, key value = label group)
    (groups : List α) (chosen : κ) :
    (groups.flatMap elements).filter (fun value => key value = chosen) =
      (groups.filter fun group => label group = chosen).flatMap elements := by
  induction groups with
  | nil => rfl
  | cons group groups inductionHypothesis =>
    rw [List.flatMap_cons, List.filter_append, inductionHypothesis]
    by_cases same : label group = chosen
    · have whole : (elements group).filter (fun value => key value = chosen) = elements group := by
        rw [List.filter_eq_self]
        intro value member
        simp [keys group value member, same]
      simp [whole, same]
    · have none : (elements group).filter (fun value => key value = chosen) = [] := by
        rw [List.filter_eq_nil_iff]
        intro value member
        simp [keys group value member, same]
      simp [none, same]

/-- Where the key of an element tells which group it is from, filtering gives the group back. -/
theorem filter_flatMap_eq {β κ : Type*} [DecidableEq κ] {label : α → κ} {key : β → κ}
    {elements : α → List β} {groups : List α} (nodup : (groups.map label).Nodup)
    (keys : ∀ group ∈ groups, ∀ value ∈ elements group, key value = label group) {group : α}
    (member : group ∈ groups) :
    (groups.flatMap elements).filter (fun value => key value = label group) = elements group := by
  have others : ∀ list : List α, (∀ other ∈ list, other ∈ groups) →
      (∀ other ∈ list, label other ≠ label group) →
      (list.flatMap elements).filter (fun value => key value = label group) = [] := by
    intro list inGroups different
    refine List.filter_eq_nil_iff.mpr ?_
    intro value inList
    obtain ⟨other, inOthers, inOther⟩ := List.mem_flatMap.mp inList
    simpa [keys other (inGroups other inOthers) value inOther] using different other inOthers
  have own : (elements group).filter (fun value => key value = label group) = elements group :=
    List.filter_eq_self.mpr fun value inGroup => by simp [keys group member value inGroup]
  obtain ⟨before, after, split⟩ := List.append_of_mem member
  rw [split, List.map_append, List.map_cons, List.nodup_middle, List.nodup_cons] at nodup
  -- the group occurs once, so its label comes up nowhere else
  have apart : ∀ other ∈ before ++ after, label other ≠ label group := by
    intro other inOther same
    refine nodup.1 ?_
    rw [← List.map_append, ← same]
    exact List.mem_map_of_mem inOther
  have noneBefore := others before (fun other inBefore => by simp [split, inBefore])
    (fun other inBefore => apart other (List.mem_append_left _ inBefore))
  have noneAfter := others after (fun other inAfter => by simp [split, inAfter])
    (fun other inAfter => apart other (List.mem_append_right _ inAfter))
  rw [split, List.flatMap_append, List.flatMap_cons, List.filter_append, List.filter_append,
    noneBefore, own, noneAfter]
  simp

/-! ## Neighbours among the numbers below a bound -/

theorem getLast?_filter_range {wanted : Nat → Bool} {bound last : Nat} :
    last ∈ ((List.range bound).filter wanted).getLast? ↔
      last < bound ∧ wanted last = true ∧
        ∀ between, last < between → between < bound → wanted between = false := by
  induction bound with
  | zero => simp
  | succ bound inductionHypothesis =>
    rw [List.range_succ, List.filter_append]
    cases isWanted : wanted bound with
    | true =>
      simp only [List.filter_cons, isWanted, if_true, List.filter_nil, List.getLast?_concat,
        Option.mem_some_iff]
      constructor
      · rintro rfl
        exact ⟨Nat.lt_succ_self _, isWanted, fun between _ _ => by omega⟩
      · rintro ⟨below, _, none⟩
        by_contra different
        have noBound := none bound (by omega) (Nat.lt_succ_self _)
        rw [isWanted] at noBound
        cases noBound
    | false =>
      simp only [List.filter_cons, isWanted, Bool.false_eq_true, if_false, List.filter_nil,
        List.append_nil, inductionHypothesis]
      constructor
      · rintro ⟨below, lastWanted, none⟩
        refine ⟨by omega, lastWanted, fun between after before => ?_⟩
        by_cases isBound : between = bound
        · exact isBound ▸ isWanted
        · exact none between after (by omega)
      · rintro ⟨below, lastWanted, none⟩
        have different : last ≠ bound := by
          rintro rfl
          rw [isWanted] at lastWanted
          cases lastWanted
        exact ⟨by omega, lastWanted, fun between after before => none between after (by omega)⟩

/-- Neighbours among the wanted numbers are those with no wanted number between them. -/
theorem isChain_filter_range {relation : Nat → Nat → Prop} {wanted : Nat → Bool} {bound : Nat} :
    ((List.range bound).filter wanted).IsChain relation ↔
      ∀ left right, left < right → right < bound → wanted left = true → wanted right = true →
        (∀ between, left < between → between < right → wanted between = false) →
        relation left right := by
  induction bound with
  | zero => simp
  | succ bound inductionHypothesis =>
    rw [List.range_succ, List.filter_append, List.isChain_append, inductionHypothesis]
    constructor
    · rintro ⟨chain, _, joint⟩ left right less below leftWanted rightWanted none
      -- the joint between the range and its new last number is the only new pair
      by_cases isBound : right = bound
      · subst isBound
        exact joint left (getLast?_filter_range.mpr ⟨less, leftWanted, none⟩) right
          (by simp [rightWanted])
      · exact chain left right less (by omega) leftWanted rightWanted none
    · intro neighbours
      refine ⟨fun left right less below => neighbours left right less (by omega), ?_, ?_⟩
      · cases isWanted : wanted bound <;> simp [isWanted]
      · intro left isLast right isFirst
        obtain ⟨below, leftWanted, none⟩ := getLast?_filter_range.mp isLast
        cases isWanted : wanted bound with
        | false => simp [isWanted] at isFirst
        | true =>
          obtain rfl : bound = right := by simpa [isWanted] using isFirst
          exact neighbours left bound below (Nat.lt_succ_self _) leftWanted isWanted none

end GarudaCodec.Foundation.Groups
