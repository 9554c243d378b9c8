import Mathlib.Algebra.Order.BigOperators.Group.Finset
import Mathlib.Data.Prod.Lex
import Mathlib.Order.WellFounded
import GarudaCodec.Foundation.Pipeline

/-! # A pipeline always ends

If the source never waits and its input is finite, no schedule hangs: as long as some thread has
not returned, some thread can step, whatever has failed before (`Live.progress`), and every step
uses up a measure (`Live.measure_lt`), so every run is finite (`Live.alwaysEnds`).
-/

namespace GarudaCodec.Foundation.Pipeline

open GarudaCodec.Foundation.Lanes

variable {ι σ α ω β : Type*} {program : Program ι σ α ω β}

/-- Fetches from a source with this property never wait, keep the property, and use up fuel with
    every item. -/
structure Fueled (program : Program ι σ α ω β) (good : σ → Prop) (fuel : σ → Nat) : Prop where
  fetches : ∀ {source}, good source → ∃ fetched, program.fetch source = some fetched
  item : ∀ {source value next}, good source → program.fetch source = some (.item value next) →
    good next ∧ fuel next < fuel source

/-- The source can go on fetching, and the two ends hold at most one item. -/
structure Live (good : σ → Prop) (s : State ι σ α ω β) : Prop where
  source : ∀ held, s.sourcePhase = .running held → good s.source ∧ held.length ≤ 1
  sink : ∀ held, s.sinkPhase = .running held → held.length ≤ 1

section Live

variable {good : σ → Prop} {fuel : σ → Nat} {s s' : State ι σ α ω β}

theorem Live.start {source : σ} (holds : good source) (workers : ι → ω) :
    Live good (State.start (α := α) (β := β) source workers) := by
  constructor
  · intro held running
    cases running
    exact ⟨holds, Nat.zero_le 1⟩
  · intro held running
    cases running
    exact Nat.zero_le 1

variable [DecidableEq ι]

theorem Live.step (fueled : Fueled program good fuel) (live : Live good s)
    (step : Step program s s') : Live good s' := by
  cases step with
  | fetchItem idle fetched =>
    refine ⟨fun held running => ?_, live.sink⟩
    cases running
    exact ⟨(fueled.item (live.source [] idle).1 fetched).1, Nat.le_refl 1⟩
  | fetchStop idle fetched => exact ⟨fun held running => (nomatch running), live.sink⟩
  | sourceSend busy receiver room =>
    refine ⟨fun held running => ?_, live.sink⟩
    cases running
    exact ⟨(live.source _ busy).1, Nat.zero_le 1⟩
  | sourceSendFail busy receiver => exact ⟨fun held running => (nomatch running), live.sink⟩
  -- the workers' own phases do not matter
  | workerReceive | workerFail | workerPanic | workerSend | workerSendFail | workerFinish =>
    exact ⟨live.source, live.sink⟩
  | sinkReceive idle front =>
    refine ⟨live.source, fun held running => ?_⟩
    cases running
    exact Nat.le_refl 1
  | sinkWrite busy =>
    refine ⟨live.source, fun held running => ?_⟩
    cases running
    exact Nat.zero_le 1
  | sinkWriteFail | sinkFinish => exact ⟨live.source, fun held running => (nomatch running)⟩

theorem Live.reachable (fueled : Fueled program good fuel) (live : Live good s)
    (reachable : Reachable program s s') : Live good s' := by
  induction reachable with
  | refl => exact live
  | tail _ step inductionHypothesis => exact inductionHypothesis.step fueled step

/-! ## Progress -/

/-- A send into the shared queue does not have to wait: there is room, or it fails. -/
def SharedOpen (s : State ι σ α ω β) : Prop :=
  (∃ held, s.sinkPhase = .running held ∧ s.shared = []) ∨ ∃ exit, s.sinkPhase = .ended exit

/-- A worker with an output to send or an item to take can step. -/
theorem exists_step_of_worker (program : Program ι σ α ω β) (opened : SharedOpen s) {key : ι}
    {held : List β} (running : s.workerPhases key = .running held)
    (busy : held ≠ [] ∨ s.queues key ≠ []) : ∃ s', Step program s s' := by
  cases held with
  | cons output pending =>
    rcases opened with ⟨sinkHeld, sink, empty⟩ | ⟨exit, ended⟩
    · have room : s.shared.length < program.capacity := by
        rw [empty]
        exact program.capacity_pos
      exact ⟨_, .workerSend running sink room⟩
    · exact ⟨_, .workerSendFail running ended⟩
  | nil =>
    cases front : s.queues key with
    | nil => simp [front] at busy
    | cons value queue =>
      cases worked : program.work (s.workers key) value with
      | outputs worker out => exact ⟨_, .workerReceive running front worked⟩
      | failed => exact ⟨_, .workerFail running front worked⟩
      | panicked => exact ⟨_, .workerPanic running front worked⟩

/-- A running source can step, or waits for a worker that can. -/
theorem Live.exists_step_of_source (fueled : Fueled program good fuel) (live : Live good s)
    (opened : SharedOpen s) {held : List α} (running : s.sourcePhase = .running held) :
    ∃ s', Step program s s' := by
  obtain ⟨holds, short⟩ := live.source held running
  match held, short with
  | [], _ =>
    obtain ⟨fetched, fetches⟩ := fueled.fetches holds
    cases fetched with
    | item value next => exact ⟨_, .fetchItem running fetches⟩
    | stop exit next => exact ⟨_, .fetchStop running fetches⟩
  | [value], _ =>
    cases receiver : s.workerPhases (program.route value) with
    | ended exit => exact ⟨_, .sourceSendFail running receiver⟩
    | running pending =>
      by_cases room : (s.queues (program.route value)).length < program.capacity
      · exact ⟨_, .sourceSend running receiver room⟩
      · -- the queue is full, so its worker has something to take
        apply exists_step_of_worker program opened receiver
        refine Or.inr fun empty => room ?_
        rw [empty]
        exact program.capacity_pos

/-- No deadlock: while some thread has not returned, some thread can step. -/
theorem Live.progress (fueled : Fueled program good fuel) (live : Live good s)
    (unfinished : ¬AllEnded s) : ∃ s', Step program s s' := by
  -- what is in the shared queue or in its hands the sink can always pass on
  have sinkSteps : (∃ s', Step program s s') ∨ SharedOpen s := by
    cases sink : s.sinkPhase with
    | ended exit => exact Or.inr (Or.inr ⟨exit, sink⟩)
    | running held =>
      match held, live.sink held sink with
      | [output], _ => exact Or.inl ⟨_, .sinkWrite sink⟩
      | [], _ =>
        cases shared : s.shared with
        | nil => exact Or.inr (Or.inl ⟨[], sink, shared⟩)
        | cons output rest => exact Or.inl ⟨_, .sinkReceive sink shared⟩
  rcases sinkSteps with steps | opened
  · exact steps
  cases source : s.sourcePhase with
  | running held => exact live.exists_step_of_source fueled opened source
  | ended sourceExit =>
    by_cases ended : ∀ key, ∃ exit, s.workerPhases key = .ended exit
    · rcases opened with ⟨held, sink, empty⟩ | sinkEnded
      · match held, live.sink held sink with
        | [output], _ => exact ⟨_, .sinkWrite sink⟩
        | [], _ => exact ⟨_, .sinkFinish sink empty ended⟩
      · exact absurd ⟨⟨sourceExit, source⟩, ended, sinkEnded⟩ unfinished
    · obtain ⟨key, notEnded⟩ := not_forall.mp ended
      cases worker : s.workerPhases key with
      | ended exit => exact absurd ⟨exit, worker⟩ notEnded
      | running held =>
        by_cases busy : held ≠ [] ∨ s.queues key ≠ []
        · exact exists_step_of_worker program opened worker busy
        · obtain ⟨rfl, empty⟩ : held = [] ∧ s.queues key = [] := by simpa using busy
          exact ⟨_, .workerFinish worker empty source⟩

end Live

/-! ## Termination -/

/-- What a thread still has to do with the items it holds. -/
def Phase.load {γ : Type*} : Phase γ → Nat
  | .running held => held.length + 1
  | .ended _ => 0

section Loads

variable (s : State ι σ α ω β)

def State.sourceLoad (fuel : σ → Nat) : Nat :=
  match s.sourcePhase with
  | .running held => 2 * fuel s.source + held.length + 1
  | .ended _ => 0

def State.queueLoad [Fintype ι] : Nat := ∑ key, (s.queues key).length

def State.workerLoad [Fintype ι] : Nat := ∑ key, (s.workerPhases key).load

def State.sinkLoad : Nat := 2 * s.shared.length + s.sinkPhase.load

/-- The loads from the source to the sink, most significant first: an item that moves on is worth
    less, whatever it is turned into there. -/
def State.measure [Fintype ι] (fuel : σ → Nat) : ℕ ×ₗ ℕ ×ₗ ℕ ×ₗ ℕ :=
  toLex (s.sourceLoad fuel, toLex (s.queueLoad, toLex (s.workerLoad, s.sinkLoad)))

end Loads

theorem sum_update_lt [Fintype ι] [DecidableEq ι] {γ : Type*} (weight : γ → Nat) {values : ι → γ}
    {key : ι} {value : γ} (less : weight value < weight (values key)) :
    ∑ other, weight (Function.update values key value other) < ∑ other, weight (values other) := by
  apply Finset.sum_lt_sum
  · intro other _
    by_cases same : other = key
    · subst same
      simpa using Nat.le_of_lt less
    · rw [Function.update_of_ne same]
  · exact ⟨key, Finset.mem_univ key, by simpa using less⟩

section Termination

variable [Fintype ι] {good : σ → Prop} {fuel : σ → Nat} {s s' : State ι σ α ω β}

theorem State.measure_lt_of_source (less : s'.sourceLoad fuel < s.sourceLoad fuel) :
    s'.measure fuel < s.measure fuel :=
  Prod.Lex.toLex_lt_toLex.mpr (Or.inl less)

theorem State.measure_lt_of_queues (source : s'.sourceLoad fuel = s.sourceLoad fuel)
    (less : s'.queueLoad < s.queueLoad) : s'.measure fuel < s.measure fuel :=
  Prod.Lex.toLex_lt_toLex.mpr (Or.inr ⟨source, Prod.Lex.toLex_lt_toLex.mpr (Or.inl less)⟩)

theorem State.measure_lt_of_workers (source : s'.sourceLoad fuel = s.sourceLoad fuel)
    (queues : s'.queueLoad = s.queueLoad) (less : s'.workerLoad < s.workerLoad) :
    s'.measure fuel < s.measure fuel :=
  Prod.Lex.toLex_lt_toLex.mpr (Or.inr ⟨source, Prod.Lex.toLex_lt_toLex.mpr
    (Or.inr ⟨queues, Prod.Lex.toLex_lt_toLex.mpr (Or.inl less)⟩)⟩)

theorem State.measure_lt_of_sink (source : s'.sourceLoad fuel = s.sourceLoad fuel)
    (queues : s'.queueLoad = s.queueLoad) (workers : s'.workerLoad = s.workerLoad)
    (less : s'.sinkLoad < s.sinkLoad) : s'.measure fuel < s.measure fuel :=
  Prod.Lex.toLex_lt_toLex.mpr (Or.inr ⟨source, Prod.Lex.toLex_lt_toLex.mpr
    (Or.inr ⟨queues, Prod.Lex.toLex_lt_toLex.mpr (Or.inr ⟨workers, less⟩)⟩)⟩)

variable [DecidableEq ι]

/-- Every step uses up the measure. -/
theorem Live.measure_lt (fueled : Fueled program good fuel) (live : Live good s)
    (step : Step program s s') : s'.measure fuel < s.measure fuel := by
  cases step with
  | fetchItem idle fetched =>
    have less := (fueled.item (live.source [] idle).1 fetched).2
    apply State.measure_lt_of_source
    simp only [State.sourceLoad, idle, List.length_cons, List.length_nil]
    omega
  | fetchStop idle _ | sourceSend idle _ _ | sourceSendFail idle _ =>
    apply State.measure_lt_of_source
    simp only [State.sourceLoad, idle, List.length_cons, List.length_nil]
    omega
  | workerReceive idle front worked =>
    exact State.measure_lt_of_queues rfl (sum_update_lt List.length (by simp [front]))
  | workerFail idle _ _ | workerPanic idle _ _ | workerFinish idle _ _ | workerSend idle _ _
  | workerSendFail idle _ =>
    exact State.measure_lt_of_workers rfl rfl
      (sum_update_lt Phase.load (by simp [idle, Phase.load]))
  | sinkReceive idle front =>
    refine State.measure_lt_of_sink rfl rfl rfl ?_
    simp only [State.sinkLoad, idle, front, Phase.load, List.length_cons, List.length_nil]
    omega
  | sinkWrite idle | sinkWriteFail idle | sinkFinish idle _ _ =>
    refine State.measure_lt_of_sink rfl rfl rfl ?_
    simp only [State.sinkLoad, idle, Phase.load, List.length_cons, List.length_nil]
    omega

/-- Every run is finite. -/
theorem Live.finite (fueled : Fueled program good fuel) (live : Live good s) :
    ¬∃ run : Nat → State ι σ α ω β, run 0 = s ∧ ∀ idx, Step program (run idx) (run (idx + 1)) := by
  rintro ⟨run, rfl, steps⟩
  have always : ∀ idx, Live good (run idx) := by
    intro idx
    induction idx with
    | zero => exact live
    | succ idx inductionHypothesis => exact inductionHypothesis.step fueled (steps idx)
  obtain ⟨idx, stays⟩ := WellFounded.not_rel_apply_succ (r := (· < ·))
    fun idx => (run idx).measure fuel
  exact stays ((always idx).measure_lt fueled (steps idx))

/-- No run can go on for ever, and none can stop before every thread has returned. -/
structure AlwaysEnds (program : Program ι σ α ω β) (start : State ι σ α ω β) : Prop where
  progress : ∀ s, Reachable program start s → ¬AllEnded s → ∃ s', Step program s s'
  finite : ¬∃ run : Nat → State ι σ α ω β,
    run 0 = start ∧ ∀ idx, Step program (run idx) (run (idx + 1))

theorem Live.alwaysEnds (fueled : Fueled program good fuel) (live : Live good s) :
    AlwaysEnds program s where
  progress := fun _ reachable => (live.reachable fueled reachable).progress fueled
  finite := live.finite fueled

/-- Some run from here ends. -/
theorem Live.exists_ended (fueled : Fueled program good fuel) (live : Live good s) :
    ∃ last, Reachable program s last ∧ AllEnded last := by
  -- the induction is on the measure, over all live states
  induction amount : s.measure fuel using WellFoundedLT.induction generalizing s with
  | ind amount inductionHypothesis =>
    by_cases ended : AllEnded s
    · exact ⟨s, .refl, ended⟩
    · obtain ⟨s', step⟩ := live.progress fueled ended
      obtain ⟨last, reachable, lastEnded⟩ := inductionHypothesis (s'.measure fuel)
        (amount ▸ live.measure_lt fueled step) (live.step fueled step) rfl
      exact ⟨last, reachable.head step, lastEnded⟩

end Termination

/-! ## A thread that has returned stays so -/

section Ended

variable [DecidableEq ι] {s s' : State ι σ α ω β}

theorem Step.source_ended (step : Step program s s') {exit : Exit}
    (ended : s.sourcePhase = .ended exit) : s'.sourcePhase = .ended exit := by
  cases step with
  | fetchItem idle _ | fetchStop idle _ | sourceSend idle _ _ | sourceSendFail idle _ =>
    rw [idle] at ended
    cases ended
  | workerReceive | workerFail | workerPanic | workerSend | workerSendFail | workerFinish
  | sinkReceive | sinkWrite | sinkWriteFail | sinkFinish => exact ended

theorem Step.worker_ended (step : Step program s s') {key : ι} {exit : Exit}
    (ended : s.workerPhases key = .ended exit) : s'.workerPhases key = .ended exit := by
  have other : ∀ {busy : ι} {held : List β} (phase : Phase β),
      s.workerPhases busy = .running held →
        Function.update s.workerPhases busy phase key = .ended exit := by
    intro busy held phase running
    have different : key ≠ busy := by
      rintro rfl
      rw [running] at ended
      cases ended
    rw [Function.update_of_ne different, ended]
  cases step with
  | workerReceive running _ _ | workerFail running _ _ | workerPanic running _ _
  | workerSend running _ _ | workerSendFail running _ | workerFinish running _ _ =>
    exact other _ running
  | fetchItem | fetchStop | sourceSend | sourceSendFail | sinkReceive | sinkWrite
  | sinkWriteFail | sinkFinish => exact ended

/-- Nothing is written any more once the sink has returned. -/
theorem Step.sink_ended (step : Step program s s') {exit : Exit}
    (ended : s.sinkPhase = .ended exit) :
    s'.sinkPhase = .ended exit ∧ s'.written = s.written := by
  cases step with
  | sinkReceive idle _ | sinkWrite idle | sinkWriteFail idle | sinkFinish idle _ _ =>
    rw [idle] at ended
    cases ended
  | fetchItem | fetchStop | sourceSend | sourceSendFail | workerReceive | workerFail
  | workerPanic | workerSend | workerSendFail | workerFinish => exact ⟨ended, rfl⟩

theorem source_ended_of_reachable (reachable : Reachable program s s') {exit : Exit}
    (ended : s.sourcePhase = .ended exit) : s'.sourcePhase = .ended exit := by
  induction reachable with
  | refl => exact ended
  | tail _ step inductionHypothesis => exact step.source_ended inductionHypothesis

theorem sink_ended_of_reachable (reachable : Reachable program s s') {exit : Exit}
    (ended : s.sinkPhase = .ended exit) :
    s'.sinkPhase = .ended exit ∧ s'.written = s.written := by
  induction reachable with
  | refl => exact ⟨ended, rfl⟩
  | tail _ step inductionHypothesis =>
    obtain ⟨stillEnded, written⟩ := step.sink_ended inductionHypothesis.1
    exact ⟨stillEnded, written.trans inductionHypothesis.2⟩

end Ended

end GarudaCodec.Foundation.Pipeline
