import Mathlib.Data.List.Basic
import Mathlib.Data.List.Perm.Basic
import Mathlib.Data.List.Infix
import Mathlib.Data.List.Nodup

/-! # Lanes of a merged list

Several producers append to one list; `lane labelled key` is what the producer `key`
contributed, in its own order.  Two facts carry every argument about such a merge: a
relabelling of the elements can be done lane by lane (`lane_lift`), and a list is determined
up to permutation by its lanes (`perm_of_lanes`).
-/

namespace GarudaCodec.Foundation.Lanes

variable {κ α β γ : Type*} [DecidableEq κ]

/-- The elements that carry the label `key`, in order. -/
def lane (labelled : List (κ × α)) (key : κ) : List α :=
  (labelled.filter (fun entry => entry.1 = key)).map Prod.snd

@[simp] theorem lane_nil (key : κ) : lane ([] : List (κ × α)) key = [] := rfl

theorem lane_cons (entry : κ × α) (labelled : List (κ × α)) (key : κ) :
    lane (entry :: labelled) key =
      if entry.1 = key then entry.2 :: lane labelled key else lane labelled key := by
  by_cases same : entry.1 = key <;> simp [lane, same]

theorem lane_append (left right : List (κ × α)) (key : κ) :
    lane (left ++ right) key = lane left key ++ lane right key := by
  simp [lane]

@[simp] theorem lane_concat (labelled : List (κ × α)) (label key : κ) (value : α) :
    lane (labelled ++ [(label, value)]) key =
      if label = key then lane labelled key ++ [value] else lane labelled key := by
  rw [lane_append, lane_cons]
  split <;> simp

theorem mem_lane {labelled : List (κ × α)} {key : κ} {value : α} :
    value ∈ lane labelled key ↔ (key, value) ∈ labelled := by
  simp [lane]

/-- A merge of two lanes consists of them. -/
theorem perm_lanes (labelled : List (Bool × α)) :
    (labelled.map Prod.snd).Perm (lane labelled true ++ lane labelled false) := by
  have split := (List.filter_append_perm (fun entry => entry.1) labelled).map Prod.snd
  simpa [lane] using split.symm

/-- If the label of every element is computed from the element, a lane is a filter. -/
theorem lane_eq_filter (labelled : List (κ × α)) (label : α → κ)
    (labels : ∀ entry ∈ labelled, label entry.2 = entry.1) (key : κ) :
    lane labelled key = (labelled.map Prod.snd).filter (fun value => label value = key) := by
  rw [lane, List.filter_map]
  congr 1
  apply List.filter_congr
  intro entry member
  simp [labels entry member]

/-- When every lane is the start of an image list, so is the whole merge: the elements can be
    replaced by preimages without moving any of them. -/
theorem lane_lift (image : γ → α) :
    ∀ (labelled : List (κ × α)) (sources : κ → List γ),
      (∀ key, lane labelled key <+: (sources key).map image) →
      ∃ lifted : List (κ × γ),
        lifted.map (fun entry => (entry.1, image entry.2)) = labelled ∧
        ∀ key, lane lifted key <+: sources key
  | [], sources, _ => ⟨[], rfl, fun _ => List.nil_prefix⟩
  | (label, value) :: labelled, sources, prefixes => by
    have head := prefixes label
    rw [lane_cons, if_pos rfl] at head
    -- the merge starts with what its producer starts with
    obtain ⟨origin, rest, split, sameValue, restPrefix⟩ :
        ∃ origin rest, sources label = origin :: rest ∧ image origin = value ∧
          lane labelled label <+: rest.map image := by
      cases split : sources label with
      | nil => simp [split] at head
      | cons origin rest =>
        rw [split, List.map_cons, List.cons_prefix_cons] at head
        exact ⟨origin, rest, rfl, head.1.symm, head.2⟩
    -- the remaining merge draws on the same sources, less the one just consumed
    obtain ⟨lifted, erased, lanes⟩ := lane_lift image labelled (Function.update sources label rest)
      (by
        intro key
        by_cases same : key = label
        · subst same
          simpa using restPrefix
        -- the other producers have not moved
        · have other := prefixes key
          rw [lane_cons, if_neg (fun equal => same equal.symm)] at other
          simpa [Function.update_of_ne same] using other)
    refine ⟨(label, origin) :: lifted, by simp [erased, sameValue], ?_⟩
    intro key
    have tailPrefix := lanes key
    rw [lane_cons]
    by_cases same : label = key
    · subst same
      rw [if_pos rfl, split, List.cons_prefix_cons]
      exact ⟨rfl, by simpa using tailPrefix⟩
    · rw [if_neg same]
      simpa [Function.update_of_ne (Ne.symm same)] using tailPrefix

/-- A lane of the lifted merge is as long as the lane it lifts. -/
theorem length_lane_map (image : γ → α) (lifted : List (κ × γ)) (key : κ) :
    lane (lifted.map (fun entry => (entry.1, image entry.2))) key =
      (lane lifted key).map image := by
  simp [lane, List.filter_map, Function.comp_def]

/-- `lane_lift` for lanes that are complete. -/
theorem lane_lift_complete (image : γ → α) (labelled : List (κ × α)) (sources : κ → List γ)
    (complete : ∀ key, lane labelled key = (sources key).map image) :
    ∃ lifted : List (κ × γ),
      lifted.map (fun entry => (entry.1, image entry.2)) = labelled ∧
      ∀ key, lane lifted key = sources key := by
  obtain ⟨lifted, erased, lanes⟩ := lane_lift image labelled sources
    (fun key => (complete key) ▸ List.prefix_rfl)
  refine ⟨lifted, erased, fun key => (lanes key).eq_of_length ?_⟩
  -- the lift reaches the end of every source, as its lane is no longer than the lane it lifts
  have lengths := congrArg List.length (complete key)
  rw [← erased, length_lane_map] at lengths
  simpa using lengths

/-- A merge whose lanes start lists of images, where the label of an element can be read off it,
    consists of the images of those elements in one order. -/
theorem exists_labelled_order (image : γ → α) (label : γ → κ) {labelled : List (κ × α)}
    {sources : κ → List γ} (labels : ∀ key, ∀ value ∈ sources key, label value = key)
    (prefixes : ∀ key, lane labelled key <+: (sources key).map image) :
    ∃ order : List γ, labelled = order.map (fun value => (label value, image value)) ∧
      ∀ key, order.filter (fun value => label value = key) <+: sources key := by
  obtain ⟨lifted, erased, lanes⟩ := lane_lift image labelled sources prefixes
  have labelOf : ∀ entry ∈ lifted, label entry.2 = entry.1 := fun entry member =>
    labels entry.1 entry.2 ((lanes entry.1).subset (mem_lane.mpr member))
  refine ⟨lifted.map Prod.snd, ?_, ?_⟩
  · rw [← erased, List.map_map]
    apply List.map_congr_left
    intro entry member
    simp [labelOf entry member]
  · intro key
    rw [← lane_eq_filter lifted label labelOf]
    exact lanes key

/-- A lane of a list that is labelled in this way. -/
theorem lane_map_label (image : γ → α) (label : γ → κ) (order : List γ) (key : κ) :
    lane (order.map fun value => (label value, image value)) key =
      (order.filter fun value => label value = key).map image := by
  simp [lane, List.filter_map, Function.comp_def]

/-- `exists_labelled_order` without the labels. -/
theorem exists_order (image : γ → α) (label : γ → κ) {labelled : List (κ × α)}
    {sources : κ → List γ} (labels : ∀ key, ∀ value ∈ sources key, label value = key)
    (prefixes : ∀ key, lane labelled key <+: (sources key).map image) :
    ∃ order : List γ, labelled.map Prod.snd = order.map image ∧
      ∀ key, order.filter (fun value => label value = key) <+: sources key := by
  obtain ⟨order, rfl, lanes⟩ := exists_labelled_order image label labels prefixes
  exact ⟨order, by simp, lanes⟩

/-- `exists_order` for lanes that are complete. -/
theorem exists_order_complete (image : γ → α) (label : γ → κ) {labelled : List (κ × α)}
    {sources : κ → List γ} (labels : ∀ key, ∀ value ∈ sources key, label value = key)
    (complete : ∀ key, lane labelled key = (sources key).map image) :
    ∃ order : List γ, labelled.map Prod.snd = order.map image ∧
      ∀ key, order.filter (fun value => label value = key) = sources key := by
  obtain ⟨lifted, erased, lanes⟩ := lane_lift_complete image labelled sources complete
  refine ⟨lifted.map Prod.snd, ?_, ?_⟩
  · rw [← erased, List.map_map, List.map_map]
    rfl
  · intro key
    rw [← lane_eq_filter lifted label, lanes key]
    intro entry member
    exact labels entry.1 entry.2 (lanes entry.1 ▸ mem_lane.mpr member)

section Counting

variable [DecidableEq α]

/-- An element occurs in a list as often as in the part of the list that shares its label. -/
theorem count_eq_count_filter (label : α → κ) (list : List α) (value : α) :
    list.count value = (list.filter (fun other => label other = label value)).count value := by
  rw [List.count_filter (by simp)]

/-- Lists with the same lanes are permutations of each other. -/
theorem perm_of_lanes (label : α → κ) {left right : List α}
    (lanes : ∀ key, left.filter (fun value => label value = key) =
      right.filter (fun value => label value = key)) : left.Perm right := by
  rw [List.perm_iff_count]
  intro value
  rw [count_eq_count_filter label left, count_eq_count_filter label right, lanes]

/-- A list whose lanes are sublists of another's is, reordered, a sublist of it. -/
theorem subperm_of_lanes (label : α → κ) {left right : List α}
    (lanes : ∀ key, (left.filter (fun value => label value = key)).Sublist
      (right.filter (fun value => label value = key))) : left.Subperm right := by
  rw [List.subperm_ext_iff]
  intro value _
  rw [count_eq_count_filter label left, count_eq_count_filter label right]
  exact (lanes _).count_le value

end Counting

end GarudaCodec.Foundation.Lanes
