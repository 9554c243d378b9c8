import Mathlib.Data.List.SplitBy
import Mathlib.Data.List.Chain

/-! # Maximal runs of equal keys

`runs key list` cuts a list wherever two neighbours have different keys.  The module gives the
induction principle that follows the cuts, the runs of a list that was put together from groups
of one key each, and the case where no two neighbours share a key.
-/

namespace GarudaCodec.Foundation.Runs

variable {α γ κ : Type*} [DecidableEq κ]

/-- The maximal runs of consecutive elements with the same key. -/
def runs (key : α → κ) (list : List α) : List (List α) :=
  list.splitBy (fun left right => key left == key right)

@[simp] theorem runs_nil (key : α → κ) : runs key [] = [] := rfl

@[simp] theorem flatten_runs (key : α → κ) (list : List α) : (runs key list).flatten = list :=
  List.flatten_splitBy _ _

theorem ne_nil_of_mem_runs {key : α → κ} {list run : List α} (member : run ∈ runs key list) :
    run ≠ [] :=
  List.ne_nil_of_mem_splitBy member

theorem key_eq_of_mem_run {key : α → κ} {list run : List α} (member : run ∈ runs key list) :
    run.Pairwise (fun left right => key left = key right) := by
  -- equality of keys is transitive, so what holds of neighbours holds of any two elements
  have chain := List.isChain_of_mem_splitBy member
  simp only [beq_iff_eq] at chain
  have : IsTrans α (fun left right => key left = key right) := ⟨fun _ _ _ => Eq.trans⟩
  exact List.isChain_iff_pairwise.mp chain

/-- All keys of a run are the key of its first element. -/
theorem key_eq_head {key : α → κ} {list run : List α} {head : α}
    (member : run ∈ runs key list) (first : run.head? = some head) :
    ∀ value ∈ run, key value = key head := by
  have pairs := key_eq_of_mem_run member
  cases run with
  | nil => simp at first
  | cons other rest =>
    obtain rfl : other = head := by simpa using first
    intro value inRun
    rcases List.mem_cons.mp inRun with rfl | inRest
    · rfl
    · exact ((List.pairwise_cons.mp pairs).1 value inRest).symm

/-- The list of runs is determined by three properties: it flattens to the list, every run is
    nonempty with one key, and neighbouring runs have different keys. -/
theorem runs_eq {key : α → κ} {pieces : List (List α)} (nonempty : ∀ piece ∈ pieces, piece ≠ [])
    (oneKey : ∀ piece ∈ pieces, piece.IsChain (fun left right => key left = key right))
    (apart : pieces.IsChain (fun left right => ∀ last ∈ left.getLast?, ∀ first ∈ right.head?,
      key last ≠ key first)) : runs key pieces.flatten = pieces := by
  refine List.splitBy_flatten (fun member => nonempty [] member rfl) ?_ ?_
  · intro piece member
    simpa using oneKey piece member
  · apply List.IsChain.imp_of_mem_imp _ apart
    intro left right inLeft inRight different
    have leftNonempty := nonempty left inLeft
    have rightNonempty := nonempty right inRight
    refine ⟨leftNonempty, rightNonempty, ?_⟩
    simpa using different _ (List.getLast_mem_getLast? leftNonempty) _
      (List.head_mem_head? rightNonempty)

/-- Induction along the runs: the empty list, and a run put in front of a list that starts with
    another key. -/
theorem runs_induction (key : α → κ) {motive : List α → Prop} (nil : motive [])
    (step : ∀ (head : α) (run rest : List α), (∀ value ∈ run, key value = key head) →
      (∀ first ∈ rest.head?, key first ≠ key head) →
      runs key (head :: run ++ rest) = (head :: run) :: runs key rest →
      motive rest → motive (head :: run ++ rest)) :
    ∀ list, motive list := by
  -- the induction is on the list of runs: its tail is the runs of the list behind the first run
  have main : ∀ (pieces : List (List α)) (list : List α), runs key list = pieces → motive list := by
    intro pieces
    induction pieces with
    | nil =>
      intro list noRuns
      rw [← flatten_runs key list, noRuns]
      exact nil
    | cons piece pieces inductionHypothesis =>
      intro list split
      have chain := List.isChain_getLast_head_splitBy
        (fun left right => key left == key right) list
      rw [← runs, split] at chain
      have restSplit : runs key pieces.flatten = pieces := by
        apply List.splitBy_flatten
        · intro member
          exact ne_nil_of_mem_runs (split ▸ List.mem_cons_of_mem _ member) rfl
        · intro other member
          exact List.isChain_of_mem_splitBy (split ▸ List.mem_cons_of_mem _ member)
        · exact chain.tail
      have whole : list = piece ++ pieces.flatten := by
        rw [← flatten_runs key list, split, List.flatten_cons]
      have inRuns : piece ∈ runs key list := split ▸ List.mem_cons_self
      cases piece with
      | nil => exact absurd rfl (ne_nil_of_mem_runs inRuns)
      | cons head run =>
        have sameKey := key_eq_head inRuns rfl
        rw [whole]
        apply step head run
        · exact fun value member => sameKey value (List.mem_cons_of_mem _ member)
        · intro first isFirst
          cases pieces with
          | nil => simp at isFirst
          | cons next pieces =>
            obtain ⟨⟨nonempty, nextNonempty, different⟩, -⟩ := List.isChain_cons_cons.mp chain
            rw [beq_eq_false_iff_ne] at different
            rw [List.flatten_cons, List.head?_append_of_ne_nil _ nextNonempty,
              List.head?_eq_some_head nextNonempty, Option.mem_some_iff] at isFirst
            subst isFirst
            rw [← sameKey _ (List.getLast_mem nonempty)]
            exact fun equal => different equal.symm
        · rw [← whole, split, restSplit]
        · exact inductionHypothesis _ restSplit
  exact fun list => main _ list rfl

/-- The runs of a list put together from nonempty groups of one key each are the runs of the
    groups, each flattened. -/
theorem runs_flatMap (key : α → κ) (groupKey : γ → κ) (elements : γ → List α) (groups : List γ)
    (nonempty : ∀ group ∈ groups, elements group ≠ [])
    (keys : ∀ group ∈ groups, ∀ value ∈ elements group, key value = groupKey group) :
    runs key (groups.flatMap elements) = (runs groupKey groups).map (List.flatMap elements) := by
  induction groups using runs_induction groupKey with
  | nil => rfl
  | step head run rest sameKey apart cut inductionHypothesis =>
    have inGroups : ∀ group ∈ rest, group ∈ head :: run ++ rest := fun group member =>
      List.mem_append_right _ member
    rw [cut, List.map_cons, List.flatMap_append,
      ← inductionHypothesis (fun group member => nonempty group (inGroups group member))
        (fun group member => keys group (inGroups group member))]
    have runKeys : ∀ value ∈ (head :: run).flatMap elements, key value = groupKey head := by
      intro value member
      obtain ⟨group, inRun, inGroup⟩ := List.mem_flatMap.mp member
      rw [keys group (List.mem_append_left _ inRun) value inGroup]
      rcases List.mem_cons.mp inRun with rfl | inTail
      · rfl
      · exact sameKey group inTail
    have runNonempty : (head :: run).flatMap elements ≠ [] := by
      have headNonempty := nonempty head (by simp)
      simp [headNonempty]
    have runChain : ((head :: run).flatMap elements).IsChain
        (fun left right => (key left == key right) = true) := by
      apply List.Pairwise.isChain
      rw [List.pairwise_iff_forall_sublist]
      intro left right sublist
      have inLeft := sublist.subset (List.mem_cons_self (a := left))
      have inRight := sublist.subset (List.mem_cons_of_mem left (List.mem_singleton_self right))
      simp [runKeys left inLeft, runKeys right inRight]
    -- the run of groups is one run of elements, and the cut behind it stays a cut
    rw [runs, List.splitBy_append, List.splitBy_of_isChain runNonempty runChain]
    · rfl
    · intro last isLast first isFirst
      cases rest with
      | nil => simp at isFirst
      | cons next rest =>
        have nextNonempty := nonempty next (by simp)
        have inNext : first ∈ elements next := by
          rw [List.flatMap_cons, List.head?_append_of_ne_nil _ nextNonempty] at isFirst
          exact List.mem_of_mem_head? isFirst
        rw [runKeys last (List.mem_of_getLast? isLast), keys next (by simp) first inNext]
        exact beq_eq_false_iff_ne.mpr (fun equal => apart next rfl equal.symm)

/-- Where no two neighbours share a key, every element is a run of its own. -/
theorem runs_of_distinct {key : α → κ} {list : List α}
    (distinct : list.IsChain (fun left right => key left ≠ key right)) :
    runs key list = list.map (fun value => [value]) := by
  have whole : (list.map (fun value => [value])).flatten = list := by
    rw [← List.flatMap_def, List.flatMap_singleton']
  -- the singletons have the three properties that determine the runs
  conv_lhs => rw [← whole]
  apply runs_eq
  · simp
  · simp
  · rw [List.isChain_map]
    apply List.IsChain.imp _ distinct
    intro left right different
    simpa using different

theorem length_runs_le (key : α → κ) (list : List α) :
    (runs key list).length ≤ list.length := by
  induction list using runs_induction key with
  | nil => simp
  | step head run rest _ _ cut inductionHypothesis =>
    rw [cut]
    simp only [List.length_cons, List.cons_append, List.length_append]
    omega

/-- There are as many runs as elements only where no two neighbours share a key. -/
theorem distinct_of_length_runs {key : α → κ} {list : List α}
    (full : (runs key list).length = list.length) :
    list.IsChain (fun left right => key left ≠ key right) := by
  induction list using runs_induction key with
  | nil => exact List.isChain_nil
  | step head run rest _ apart cut inductionHypothesis =>
    have restLength := length_runs_le key rest
    rw [cut] at full
    simp only [List.length_cons, List.cons_append, List.length_append] at full
    -- the runs behind the first cannot make up for elements it holds besides its head
    obtain rfl : run = [] := List.length_eq_zero_iff.mp (by omega)
    rw [List.singleton_append, List.isChain_cons]
    exact ⟨fun next isFirst => (apart next isFirst).symm, inductionHypothesis (by omega)⟩

/-! ## The first element of every run -/

/-- The first elements of the runs, as far as they are good. -/
def firsts (key : α → κ) (good : α → Bool) (list : List α) : List α :=
  (runs key list).flatMap fun run => run.head?.toList.filter good

theorem head_sublist (list : List α) : list.head?.toList.Sublist list := by
  cases list with
  | nil => exact List.Sublist.refl _
  | cons head tail => exact List.singleton_sublist.mpr List.mem_cons_self

theorem firsts_sublist (key : α → κ) (good : α → Bool) (list : List α) :
    (firsts key good list).Sublist list := by
  conv_rhs => rw [← flatten_runs key list, ← List.flatMap_id]
  rw [firsts]
  induction runs key list with
  | nil => exact List.Sublist.refl _
  | cons run rest inductionHypothesis =>
    rw [List.flatMap_cons, List.flatMap_cons]
    exact ((List.filter_sublist).trans (head_sublist run)).append inductionHypothesis

theorem firsts_of_distinct {key : α → κ} {good : α → Bool} {list : List α}
    (distinct : list.IsChain (fun left right => key left ≠ key right)) :
    firsts key good list = list.filter good := by
  rw [firsts, runs_of_distinct distinct, List.flatMap_map]
  induction list with
  | nil => rfl
  | cons head list inductionHypothesis =>
    rw [List.flatMap_cons, inductionHypothesis distinct.tail]
    exact (List.filter_append [head] list).symm

/-- Where every element is good, there is one first element for each run. -/
theorem length_firsts {key : α → κ} {good : α → Bool} {list : List α}
    (allGood : ∀ value ∈ list, good value = true) :
    (firsts key good list).length = (runs key list).length := by
  rw [firsts, List.length_flatMap]
  have ones : ∀ run ∈ runs key list, (run.head?.toList.filter good).length = 1 := by
    intro run member
    cases run with
    | nil => exact absurd rfl (ne_nil_of_mem_runs member)
    | cons head run =>
      have inList : head ∈ list := by
        rw [← flatten_runs key list]
        exact List.mem_flatten.mpr ⟨_, member, List.mem_cons_self⟩
      simp [allGood head inList]
  rw [List.map_congr_left ones]
  simp

end GarudaCodec.Foundation.Runs
