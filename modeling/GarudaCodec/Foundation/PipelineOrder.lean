import GarudaCodec.Foundation.PipelineBounds

/-! # The order of the outputs

The workers of a pipeline are not in step, so that the outputs come out in another order than the
items went in.  But back pressure sets a limit to this: `Moment` says what had been sent when an
output entered the shared queue, and what went before it, and there was such a moment for every
output (`timed_of_reachable`).

A merge in which nothing is overtaken by something much later is nearly sorted, and its elements are
not far from their places (`displaced_less`).
-/

namespace GarudaCodec.Foundation.Pipeline

open GarudaCodec.Foundation.Lanes

variable {ι σ α ω β : Type*} [DecidableEq ι]

/-- What had happened when a worker put an output into the shared queue.  These items had been sent,
    and of those for the worker only so many were behind the one the output is made of.  These
    outputs had gone before, all made of items that had been sent. -/
inductive Moment (program : Program ι σ α ω β) (workers : ι → ω) (sent : List α)
    (before : List (ι × β)) (key : ι) (output : β) : Prop
  | handedOn {done value behind worker next earlier out handed} :
      sent.filter (fun item => program.route item = key) = done ++ value :: behind →
      behind.length ≤ program.capacity →
      program.run (workers key) done = some (worker, earlier) →
      program.work worker value = .outputs next out →
      lane before key = earlier ++ handed → handed ++ [output] <+: out →
      (∀ other, ∃ taken last outs, taken <+: sent.filter (fun item => program.route item = other) ∧
        program.run (workers other) taken = some (last, outs) ∧ lane before other <+: outs) →
      Moment program workers sent before key output

/-- There was such a moment for every output. -/
def Timed (program : Program ι σ α ω β) (workers : ι → ω) (s : State ι σ α ω β) : Prop :=
  ∀ before key output after, s.merged = before ++ (key, output) :: after →
    ∃ sent, sent <+: s.sent ∧ Moment program workers sent before key output

variable {program : Program ι σ α ω β} {workers : ι → ω} {s s' : State ι σ α ω β}

theorem Timed.start (program : Program ι σ α ω β) (source : σ) (workers : ι → ω) :
    Timed program workers (State.start source workers) := by
  intro before key output after split
  simp [State.start] at split

/-- Neither depends on the source's own state. -/
theorem Paced.with_source (paced : Paced program workers s) (source : σ) :
    Paced program workers { s with source := source } :=
  ⟨paced.source, paced.queues, paced.workers, paced.shared, paced.sink⟩

theorem Timed.with_source (timed : Timed program workers s) (source : σ) :
    Timed program workers { s with source := source } := timed

/-- The moment at which a worker sends. -/
theorem Moment.now (wired : Wired program workers s) (paced : Paced program workers s) {key : ι}
    {output : β} {pending : List β} (running : s.workerPhases key = .running (output :: pending)) :
    Moment program workers s.sent s.merged key output := by
  cases paced.held_of_one wired running with
  | inl empty => cases empty
  | inr ofOne =>
    obtain ⟨done, value, worker, next, earlier, out, taken, ran, worked, handed, made⟩ := ofOne
    -- what is handed on and what is held are all outputs so far
    have handedOn : lane s.merged key = earlier ++ handed := by
      obtain ⟨rest, ranAll, holds⟩ := wired.worked key
      rw [running] at holds
      cases holds
      rw [taken, run_concat program ran worked] at ranAll
      obtain ⟨-, whole⟩ : next = s.workers key ∧
          earlier ++ out = lane s.merged key ++ output :: pending := by simpa using ranAll
      rw [← made, ← List.append_assoc] at whole
      exact (List.append_cancel_right whole).symm
    have split := wired.queued key
    rw [taken, List.append_assoc] at split
    refine .handedOn split (paced.queues key) ran worked handedOn ?_ ?_
    · rw [← made]
      exact (List.prefix_append_right_inj handed).mpr ⟨pending, rfl⟩
    · intro other
      obtain ⟨rest, ranOther, -⟩ := wired.worked other
      exact ⟨_, _, _, wired.received_prefix other, ranOther, List.prefix_append _ _⟩

theorem Timed.step (wired : Wired program workers s) (paced : Paced program workers s)
    (timed : Timed program workers s) (step : Step program s s') : Timed program workers s' := by
  cases step with
  | sourceSend =>
    intro before key output after split
    obtain ⟨sent, isPrefix, moment⟩ := timed before key output after split
    exact ⟨sent, isPrefix.trans (List.prefix_append _ _), moment⟩
  -- the outputs before are the ones that have entered the queue so far, for the last output
  | @workerSend key output pending held running sink room =>
    intro before other value after split
    cases after.eq_nil_or_concat' with
    | inl last =>
      rw [last] at split
      obtain ⟨rfl, same⟩ := List.append_inj' split rfl
      cases same
      exact ⟨s.sent, List.prefix_rfl, .now wired paced running⟩
    | inr more =>
      obtain ⟨between, final, rfl⟩ := more
      rw [← List.cons_append, ← List.append_assoc] at split
      exact timed before other value between (List.append_inj' split rfl).1
  | fetchItem | fetchStop | sourceSendFail | workerReceive | workerFail | workerPanic
  | workerSendFail | workerFinish | sinkReceive | sinkWrite | sinkWriteFail | sinkFinish =>
    exact timed

theorem timed_of_reachable {source : σ}
    (reachable : Reachable program (State.start source workers) s) : Timed program workers s := by
  induction reachable with
  | refl => exact .start _ _ _
  | tail reaches step inductionHypothesis =>
    obtain ⟨wired, paced⟩ := paced_of_reachable reaches
    exact inductionHypothesis.step wired paced step

/-! ## Nearly sorted lists -/

theorem pairwise_of_splits {γ : Type*} {relation : γ → γ → Prop} {list : List γ}
    (before : ∀ front later back, list = front ++ later :: back →
      ∀ earlier ∈ front, relation earlier later) : list.Pairwise relation := by
  rw [List.pairwise_iff_forall_sublist]
  intro earlier later inOrder
  obtain ⟨front, rest, rfl, inFront, inRest⟩ := List.cons_sublist_iff.mp inOrder
  obtain ⟨between, back, rfl⟩ := List.append_of_mem (List.singleton_sublist.mp inRest)
  exact before (front ++ between) later back (by simp) earlier (List.mem_append_left _ inFront)

/-- What comes later in a sorted list is behind. -/
theorem length_le_behind {γ : Type*} {rank : γ → Nat} {front behind : List γ} {value : γ}
    (sorted : ((front ++ value :: behind).map rank).Pairwise (· ≤ ·)) {ranks : List Nat}
    (nodup : ranks.Nodup)
    (later : ∀ number ∈ ranks, rank value < number ∧
      number ∈ (front ++ value :: behind).map rank) : ranks.length ≤ behind.length := by
  rw [List.map_append, List.map_cons] at sorted later
  obtain ⟨-, -, inFront⟩ := List.pairwise_append.mp sorted
  have isBehind : ranks ⊆ behind.map rank := by
    intro number member
    obtain ⟨larger, inList⟩ := later number member
    cases List.mem_append.mp inList with
    | inl early =>
      have less := inFront number early (rank value) List.mem_cons_self
      omega
    | inr late =>
      cases List.mem_cons.mp late with
      | inl same => omega
      | inr isLate => exact isLate
  simpa using (List.subperm_of_subset nodup isBehind).length_le

/-- In an order in which no number comes before one that is that much smaller, every number is less
    than that far from its place. -/
theorem displaced_less {order : List Nat} {count most : Nat} (perm : order.Perm (List.range count))
    (positive : 0 < most)
    (close : order.Pairwise fun earlier later => earlier < later + most) {idx value : Nat}
    (found : order[idx]? = some value) : idx < value + most ∧ value < idx + most := by
  obtain ⟨inside, isValue⟩ := List.getElem?_eq_some_iff.mp found
  have split : order = order.take idx ++ value :: order.drop (idx + 1) := by
    rw [← isValue, List.getElem_cons_drop, List.take_append_drop]
  have size : (order.take idx).length = idx := by
    rw [List.length_take]
    omega
  have nodup := perm.nodup_iff.mpr List.nodup_range
  have counted := fun number => (perm.mem_iff (a := number)).trans List.mem_range
  rw [split] at nodup close counted
  obtain ⟨-, afterValue, beforeValue⟩ := List.pairwise_append.mp close
  constructor
  -- the numbers before it are less than a bound, and so is it
  · have bounded : value :: order.take idx ⊆ List.range (value + most) := by
      intro number member
      rw [List.mem_range]
      cases List.mem_cons.mp member with
      | inl same => omega
      | inr isBefore => exact beforeValue number isBefore value List.mem_cons_self
    have few := (List.subperm_of_subset
      ((List.nodup_middle.mp nodup).sublist (List.sublist_append_left _ _)) bounded).length_le
    rw [List.length_cons, size, List.length_range] at few
    omega
  -- the much smaller numbers are all before it
  · have bounded : List.range (value + 1 - most) ⊆ order.take idx := by
      intro number member
      rw [List.mem_range] at member
      have top := (counted value).mp (by simp)
      cases List.mem_append.mp ((counted number).mpr (by omega)) with
      | inl isBefore => exact isBefore
      | inr isAfter =>
        cases List.mem_cons.mp isAfter with
        | inl same => omega
        | inr later =>
          have less := (List.pairwise_cons.mp afterValue).1 number later
          omega
    have few := (List.subperm_of_subset List.nodup_range bounded).length_le
    rw [List.length_range, size] at few
    omega

end GarudaCodec.Foundation.Pipeline
