import Mathlib.Algebra.BigOperators.Fin
import Mathlib.Algebra.Order.BigOperators.Group.Finset
import GarudaCodec.Foundation.PipelineFailures

/-! # Back pressure in a pipeline

Full queues hold the threads before them back.  The source and the sink have at most one item in
hand, and a worker takes an item when it has handed on all outputs of the items before.  `Paced`
says so for every state of every run, also for runs in which threads have failed; what it comes to
is that no more than `capacity + 1` items a worker and `capacity + 1` outputs are on their way
(`Paced.exists_waiting`, `Paced.sink`), however long the input is.
-/

namespace GarudaCodec.Foundation.Pipeline

open GarudaCodec.Foundation.Lanes

variable {ι σ α ω β : Type*}

/-- All outputs of the items in `done` are in the shared queue or behind it. -/
def HandedOn (program : Program ι σ α ω β) (worker : ω) (done : List α) (lane : List β) : Prop :=
  ∃ next out, program.run worker done = some (next, out) ∧ out <+: lane

theorem HandedOn.trans {program : Program ι σ α ω β} {worker : ω} {done : List α}
    {lane longer : List β} (handedOn : HandedOn program worker done lane)
    (isPrefix : lane <+: longer) : HandedOn program worker done longer := by
  obtain ⟨next, out, ran, isOut⟩ := handedOn
  exact ⟨next, out, ran, isOut.trans isPrefix⟩

variable [DecidableEq ι]

/-- How far each thread is ahead of the next one. -/
structure Paced (program : Program ι σ α ω β) (workers : ι → ω) (s : State ι σ α ω β) :
    Prop where
  source : ∀ held, s.sourcePhase = .running held → held.length ≤ 1
  queues : ∀ key, (s.queues key).length ≤ program.capacity
  workers : ∀ key, ∃ done current, s.received key = done ++ current ∧ current.length ≤ 1 ∧
    HandedOn program (workers key) done (lane s.merged key)
  shared : s.shared.length ≤ program.capacity
  sink : ∃ rest, s.merged.map Prod.snd = s.written ++ rest ++ s.shared ∧ rest.length ≤ 1 ∧
    s.sinkPhase.Holds rest

theorem Paced.start (program : Program ι σ α ω β) (source : σ) (workers : ι → ω) :
    Paced program workers (State.start source workers) where
  source := by simp [State.start]
  queues := by simp [State.start]
  workers := fun key => ⟨[], [], rfl, by simp, workers key, [], rfl, List.nil_prefix⟩
  shared := by simp [State.start]
  sink := ⟨[], rfl, by simp, rfl⟩

section StepLemmas

variable {program : Program ι σ α ω β} {workers : ι → ω} {s s' : State ι σ α ω β}

/-- A worker with nothing in its hands has handed on everything. -/
theorem Wired.handedOn (wired : Wired program workers s) {key : ι}
    (idle : s.workerPhases key = .running []) :
    HandedOn program (workers key) (s.received key) (lane s.merged key) := by
  obtain ⟨rest, ran, holds⟩ := wired.worked key
  rw [idle] at holds
  cases holds
  exact ⟨s.workers key, lane s.merged key ++ [], ran, by simp⟩

theorem Paced.workers_receive (wired : Wired program workers s) (paced : Paced program workers s)
    {key : ι} (idle : s.workerPhases key = .running []) (value : α) (other : ι) :
    ∃ done current,
      Function.update s.received key (s.received key ++ [value]) other = done ++ current ∧
      current.length ≤ 1 ∧ HandedOn program (workers other) done (lane s.merged other) := by
  by_cases same : other = key
  · subst same
    exact ⟨s.received other, [value], by simp, by simp, wired.handedOn idle⟩
  · simpa [Function.update_of_ne same] using paced.workers other

theorem Paced.workers_send (paced : Paced program workers s) (label : ι) (output : β) (key : ι) :
    ∃ done current, s.received key = done ++ current ∧ current.length ≤ 1 ∧
      HandedOn program (workers key) done (lane (s.merged ++ [(label, output)]) key) := by
  obtain ⟨done, current, split, one, handedOn⟩ := paced.workers key
  refine ⟨done, current, split, one, handedOn.trans ?_⟩
  rw [lane_append]
  exact List.prefix_append _ _

/-- One queue may change, if it stays within the capacity. -/
theorem Paced.queues_update (paced : Paced program workers s) {key : ι} {queue : List α}
    (room : queue.length ≤ program.capacity) (other : ι) :
    (Function.update s.queues key queue other).length ≤ program.capacity :=
  forall_update (fun queue : List α => queue.length ≤ program.capacity) room paced.queues other

theorem Paced.step (wired : Wired program workers s) (paced : Paced program workers s)
    (step : Step program s s') : Paced program workers s' := by
  cases step with
  | fetchItem => exact { paced with source := by simp }
  | fetchStop | sourceSendFail => exact { paced with source := by simp }
  | sourceSend busy receiver room =>
    exact { paced with
      source := by simp
      queues := paced.queues_update (by rw [List.length_append]; exact room) }
  -- the queue gets shorter, and the worker has just handed on all it had
  | @workerReceive key value queue worker out idle front worked =>
    have shorter : queue.length ≤ program.capacity := by
      have full := paced.queues key
      simp only [front, List.length_cons] at full
      omega
    exact { paced with
      queues := paced.queues_update shorter
      workers := paced.workers_receive wired idle value }
  | workerFail | workerPanic | workerSendFail | workerFinish => exact { paced with }
  | workerSend busy receiver room =>
    obtain ⟨rest, flows, one, holds⟩ := paced.sink
    exact { paced with
      workers := paced.workers_send _ _
      shared := by rw [List.length_append]; exact room
      sink := ⟨rest, by simp [flows], one, holds⟩ }
  | @sinkReceive output shared idle front =>
    obtain ⟨rest, flows, one, holds⟩ := paced.sink
    rw [idle] at holds
    cases holds
    have shorter : shared.length ≤ program.capacity := by
      have full := paced.shared
      simp only [front, List.length_cons] at full
      omega
    exact { paced with
      shared := shorter
      sink := ⟨[output], by simp [flows, front], by simp, rfl⟩ }
  | sinkWrite busy =>
    obtain ⟨rest, flows, one, holds⟩ := paced.sink
    rw [busy] at holds
    cases holds
    exact { paced with sink := ⟨[], by simp [flows], by simp, rfl⟩ }
  -- what the sink had in its hands is lost
  | sinkWriteFail =>
    obtain ⟨rest, flows, one, -⟩ := paced.sink
    exact { paced with sink := ⟨rest, flows, one, trivial⟩ }
  | sinkFinish idle =>
    obtain ⟨rest, flows, one, holds⟩ := paced.sink
    rw [idle] at holds
    exact { paced with sink := ⟨rest, flows, one, holds⟩ }

theorem paced_of_reachable {source : σ}
    (reachable : Reachable program (State.start source workers) s) :
    Wired program workers s ∧ Paced program workers s := by
  induction reachable with
  | refl => exact ⟨.start _ _ _, .start _ _ _⟩
  | tail _ step inductionHypothesis =>
    obtain ⟨wired, paced⟩ := inductionHypothesis
    exact ⟨wired.step step, paced.step wired step⟩

/-! ## What is on its way -/

theorem length_flatMap_le {γ δ : Type*} {list : List γ} {part : γ → List δ} {most : Nat}
    (bounded : ∀ value ∈ list, (part value).length ≤ most) :
    (list.flatMap part).length ≤ list.length * most := by
  rw [List.length_flatMap]
  have sum := List.sum_le_card_nsmul (list.map fun value => (part value).length) most
    (by simpa using bounded)
  simpa using sum

/-- Of the items sent, a fixed number may be waiting; the outputs of the others are handed on. -/
theorem Paced.exists_waiting [Fintype ι] (wired : Wired program workers s)
    (paced : Paced program workers s) :
    ∃ (waiting : List α) (done : ι → List α),
      waiting.length ≤ Fintype.card ι * (program.capacity + 1) ∧
      (∀ value ∈ s.sent, value ∈ waiting ∨ value ∈ done (program.route value)) ∧
      ∀ key, HandedOn program (workers key) (done key) (lane s.merged key) := by
  choose done current split one handedOn using paced.workers
  refine ⟨Finset.univ.toList.flatMap fun key => current key ++ s.queues key, done, ?_, ?_,
    handedOn⟩
  · have bounded : ∀ key ∈ (Finset.univ : Finset ι).toList,
        (current key ++ s.queues key).length ≤ program.capacity + 1 := by
      intro key _
      have atMostOne := one key
      have full := paced.queues key
      rw [List.length_append]
      omega
    simpa using length_flatMap_le bounded
  · intro value inSent
    have routed : value ∈ s.sent.filter fun item => program.route item = program.route value := by
      simpa using inSent
    rw [wired.queued, split, List.append_assoc, List.mem_append] at routed
    cases routed with
    | inl finished => exact Or.inr finished
    | inr pending =>
      exact Or.inl (List.mem_flatMap.mpr ⟨program.route value, by simp, pending⟩)

/-- Every element has one label. -/
theorem sum_length_filter {γ : Type*} [Fintype ι] (label : γ → ι) (list : List γ) :
    ∑ key, (list.filter fun value => label value = key).length = list.length := by
  induction list with
  | nil => simp
  | cons value list inductionHypothesis =>
    simp only [List.filter_cons, apply_ite List.length, List.length_cons, decide_eq_true_eq]
    rw [← inductionHypothesis]
    have one : ∑ key, (if label value = key then 1 else 0) = 1 := by simp
    calc ∑ key, (if label value = key then
            (list.filter fun value => label value = key).length + 1
          else (list.filter fun value => label value = key).length)
        = ∑ key, ((list.filter fun value => label value = key).length +
            if label value = key then 1 else 0) := by
          apply Finset.sum_congr rfl
          intro key _
          split <;> simp
      _ = _ := by rw [Finset.sum_add_distrib, one]

/-- All but so many of the items sent have been taken by the workers. -/
theorem Paced.sent_le [Fintype ι] (wired : Wired program workers s)
    (paced : Paced program workers s) :
    s.sent.length ≤ ∑ key, (s.received key).length + Fintype.card ι * program.capacity := by
  have queues : ∑ key, (s.queues key).length ≤ Fintype.card ι * program.capacity := by
    simpa using Finset.sum_le_card_nsmul Finset.univ (fun key => (s.queues key).length)
      program.capacity fun key _ => paced.queues key
  rw [← sum_length_filter program.route s.sent]
  simp only [wired.queued, List.length_append, Finset.sum_add_distrib]
  omega

/-- All but so many of the outputs handed on have been written. -/
theorem Paced.lanes_le [Fintype ι] (paced : Paced program workers s) :
    ∑ key, (lane s.merged key).length ≤ s.written.length + program.capacity + 1 := by
  obtain ⟨rest, flows, one, -⟩ := paced.sink
  have shared := paced.shared
  have merged := congrArg List.length flows
  simp only [List.length_map, List.length_append] at merged
  simp only [lane, List.length_map]
  rw [sum_length_filter Prod.fst s.merged]
  omega

/-- What a worker still has in its hands comes from the item it has taken last. -/
theorem Paced.held_of_one (wired : Wired program workers s) (paced : Paced program workers s)
    {key : ι} {held : List β} (running : s.workerPhases key = .running held) :
    held = [] ∨ ∃ done value worker next before out, s.received key = done ++ [value] ∧
      program.run (workers key) done = some (worker, before) ∧
      program.work worker value = .outputs next out ∧ held <:+ out := by
  obtain ⟨rest, ran, holds⟩ := wired.worked key
  rw [running] at holds
  cases holds
  obtain ⟨done, current, split, one, worker, before, ranDone, handed, handedOn⟩ :=
    paced.workers key
  rw [split, run_append program ranDone] at ran
  cases current with
  | nil =>
    obtain ⟨-, whole⟩ : worker = s.workers key ∧ before = lane s.merged key ++ held := by
      simpa using ran
    rw [← handedOn, List.append_assoc, List.self_eq_append_right] at whole
    exact Or.inl (List.append_eq_nil_iff.mp whole).2
  | cons value more =>
    obtain rfl : more = [] := by simpa using one
    cases worked : program.work worker value with
    | failed | panicked => simp [Program.run, worked] at ran
    | outputs next out =>
      obtain ⟨-, whole⟩ : next = s.workers key ∧ before ++ out = lane s.merged key ++ held := by
        simpa [Program.run, worked] using ran
      rw [← handedOn, List.append_assoc] at whole
      have suffix : held <:+ out := ⟨handed, (List.append_cancel_left whole).symm⟩
      exact Or.inr ⟨done, value, worker, next, before, out, split, ranDone, worked, suffix⟩

/-- What a thread has in its hands. -/
def Phase.held {γ : Type*} : Phase γ → List γ
  | .running held => held
  | .ended _ => []

/-- The item a worker has taken last, which it may keep until it takes the next one. -/
def State.taken (s : State ι σ α ω β) (key : ι) : Option α :=
  match s.workerPhases key with
  | .running _ => (s.received key).getLast?
  | .ended _ => none

/-- How many items are in memory: with the source, in the queues and with the workers. -/
def State.items [Fintype ι] (s : State ι σ α ω β) : Nat :=
  s.sourcePhase.held.length + s.queueLoad + ∑ key, (s.taken key).toList.length

/-- How many outputs are in memory. -/
def State.outputs [Fintype ι] (s : State ι σ α ω β) : Nat :=
  ∑ key, (s.workerPhases key).held.length + s.shared.length + s.sinkPhase.held.length

theorem Paced.items_le [Fintype ι] (paced : Paced program workers s) :
    s.items ≤ Fintype.card ι * (program.capacity + 1) + 1 := by
  have source : s.sourcePhase.held.length ≤ 1 := by
    cases phase : s.sourcePhase with
    | running held => exact paced.source held phase
    | ended => exact Nat.zero_le 1
  have queues : s.queueLoad ≤ Fintype.card ι * program.capacity := by
    simpa [State.queueLoad] using Finset.sum_le_card_nsmul Finset.univ
      (fun key => (s.queues key).length) program.capacity fun key _ => paced.queues key
  have taken : ∑ key, (s.taken key).toList.length ≤ Fintype.card ι := by
    simpa using Finset.sum_le_card_nsmul Finset.univ (fun key => (s.taken key).toList.length) 1
      fun key _ => Option.length_toList_le
  rw [State.items, Nat.mul_succ]
  omega

theorem Paced.outputs_le [Fintype ι] (paced : Paced program workers s) {most : Nat}
    (few : ∀ key held, s.workerPhases key = .running held → held.length ≤ most) :
    s.outputs ≤ Fintype.card ι * most + program.capacity + 1 := by
  have handsOf : ∀ key, (s.workerPhases key).held.length ≤ most := by
    intro key
    cases phase : s.workerPhases key with
    | running held => exact few key held phase
    | ended => exact Nat.zero_le most
  have hands : ∑ key, (s.workerPhases key).held.length ≤ Fintype.card ι * most := by
    simpa using Finset.sum_le_card_nsmul Finset.univ
      (fun key => (s.workerPhases key).held.length) most fun key _ => handsOf key
  have sink : s.sinkPhase.held.length ≤ 1 := by
    obtain ⟨rest, -, one, holds⟩ := paced.sink
    cases phase : s.sinkPhase with
    | running held =>
      rw [phase] at holds
      cases holds
      exact one
    | ended => exact Nat.zero_le 1
  have shared := paced.shared
  rw [State.outputs]
  omega

end StepLemmas

end GarudaCodec.Foundation.Pipeline
