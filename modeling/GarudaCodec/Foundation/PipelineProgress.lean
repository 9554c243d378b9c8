import GarudaCodec.Foundation.PipelineFailures

/-! # Pipelines that nothing goes wrong with

A pipeline part of a larger system may have to wait for its source.  Its steps still use up a
measure (`Live.measure_lt_of_burns`), and while no write fails and no other thread fails by itself,
threads return only without an error (`Unharmed.step`), so that the end is a drained state.
-/

namespace GarudaCodec.Foundation.Pipeline

variable {ι σ α ω β : Type*} {program : Program ι σ α ω β}

/-! ## Sources that wait -/

/-- The same pipeline, only that its source ends where it would wait. -/
def Program.impatient (program : Program ι σ α ω β) : Program ι σ α ω β :=
  { program with
    fetch := fun source => (program.fetch source).or (some (.stop .ok source)) }

theorem Program.impatient_fetch {source : σ} {fetched : Fetch σ α}
    (fetches : program.fetch source = some fetched) :
    program.impatient.fetch source = some fetched := by
  simp [impatient, fetches]

/-- Items that use up fuel. -/
def Program.Burns (program : Program ι σ α ω β) (good : σ → Prop) (fuel : σ → Nat) : Prop :=
  ∀ {source value next}, good source → program.fetch source = some (.item value next) →
    good next ∧ fuel next < fuel source

theorem Program.Burns.fueled {good : σ → Prop} {fuel : σ → Nat} (burns : program.Burns good fuel) :
    Fueled program.impatient good fuel where
  fetches := by
    intro source _
    cases fetched : program.fetch source with
    | none => exact ⟨.stop .ok source, by simp [impatient, fetched]⟩
    | some other => exact ⟨other, impatient_fetch fetched⟩
  item := by
    intro source value next holds fetched
    cases fetches : program.fetch source with
    | none => simp [impatient, fetches] at fetched
    | some other =>
      rw [impatient_fetch fetches] at fetched
      cases fetched
      exact burns holds fetches

section Steps

variable [DecidableEq ι] {s s' : State ι σ α ω β} {good : σ → Prop} {fuel : σ → Nat}

theorem Step.impatient (step : Step program s s') : Step program.impatient s s' := by
  cases step with
  | fetchItem idle fetched => exact .fetchItem idle (Program.impatient_fetch fetched)
  | fetchStop idle fetched => exact .fetchStop idle (Program.impatient_fetch fetched)
  | sourceSend busy receiver room =>
    have send := @Step.sourceSend _ _ _ _ _ _ program.impatient s _ _ busy receiver room
    exact send
  | sourceSendFail busy receiver =>
    have fails := @Step.sourceSendFail _ _ _ _ _ _ program.impatient s _ _ busy receiver
    exact fails
  | workerReceive idle front worked => exact .workerReceive idle front worked
  | workerFail idle front worked => exact .workerFail idle front worked
  | workerPanic idle front worked => exact .workerPanic idle front worked
  | workerSend busy sink room => exact .workerSend busy sink room
  | workerSendFail busy sink => exact .workerSendFail busy sink
  | workerFinish idle empty ended => exact .workerFinish idle empty ended
  | sinkReceive idle front => exact .sinkReceive idle front
  | sinkWrite busy => exact .sinkWrite busy
  | sinkWriteFail busy => exact .sinkWriteFail busy
  | sinkFinish idle empty ended => exact .sinkFinish idle empty ended

theorem Live.step_of_burns (burns : program.Burns good fuel) (live : Live good s)
    (step : Step program s s') : Live good s' :=
  live.step burns.fueled step.impatient

theorem Live.measure_lt_of_burns [Fintype ι] (burns : program.Burns good fuel) (live : Live good s)
    (step : Step program s s') : s'.measure fuel < s.measure fuel :=
  live.measure_lt burns.fueled step.impatient

end Steps

/-! ## Threads that only return well -/

/-- No thread has returned with an error. -/
structure Unharmed (s : State ι σ α ω β) : Prop where
  source : ∀ exit, s.sourcePhase = .ended exit → exit = .ok
  workers : ∀ key exit, s.workerPhases key = .ended exit → exit = .ok
  sink : ∀ exit, s.sinkPhase = .ended exit → exit = .ok

theorem Unharmed.start (source : σ) (workers : ι → ω) :
    Unharmed (State.start (α := α) (β := β) source workers) where
  source := nofun
  workers := nofun
  sink := nofun

theorem Unharmed.drained {s : State ι σ α ω β} (unharmed : Unharmed s) (ended : AllEnded s) :
    Drained s where
  source := by
    obtain ⟨exit, isEnded⟩ := ended.source
    rw [isEnded, unharmed.source exit isEnded]
  workers := by
    intro key
    obtain ⟨exit, isEnded⟩ := ended.workers key
    rw [isEnded, unharmed.workers key exit isEnded]
  sink := by
    obtain ⟨exit, isEnded⟩ := ended.sink
    rw [isEnded, unharmed.sink exit isEnded]

section Unharmed

variable [DecidableEq ι] {s s' : State ι σ α ω β} {workers : ι → ω}

/-- A thread returns with an error only by itself or because a receiver is gone, which is gone only
    if it has failed before. -/
theorem Unharmed.step (wired : Wired program workers s) (unharmed : Unharmed s)
    (stops : ∀ exit next, s.sourcePhase = .running [] →
      program.fetch s.source = some (.stop exit next) → exit = .ok)
    (works : ∀ key, ∀ value ∈ s.queues key,
      ∃ worker out, program.work (s.workers key) value = .outputs worker out)
    (step : Step program s s') (writes : ¬WriteFailure s s') : Unharmed s' := by
  have updated : ∀ {key : ι} {phase : Phase β}, (∀ exit, phase = .ended exit → exit = .ok) →
      ∀ other exit, Function.update s.workerPhases key phase other = .ended exit → exit = .ok := by
    intro key phase fine
    exact forall_update (fun phase : Phase β => ∀ exit, phase = .ended exit → exit = .ok) fine
      unharmed.workers
  cases step with
  | fetchItem | sourceSend => exact { unharmed with source := nofun }
  | fetchStop idle fetched =>
    refine { unharmed with source := ?_ }
    intro exit isEnded
    cases isEnded
    exact stops _ _ idle fetched
  | sourceSendFail busy receiver =>
    have fine := unharmed.workers _ _ receiver
    subst fine
    exact absurd receiver (wired.not_done_of_source busy _)
  | @workerFail key value queue idle front worked =>
    obtain ⟨worker, out, works⟩ := works key value (by simp [front])
    simp [works] at worked
  | @workerPanic key value queue idle front worked =>
    obtain ⟨worker, out, works⟩ := works key value (by simp [front])
    simp [works] at worked
  | workerReceive | workerSend => exact { unharmed with workers := updated nofun }
  | workerSendFail busy sink =>
    have fine := unharmed.sink _ sink
    subst fine
    exact absurd sink (wired.not_done_of_worker busy)
  | workerFinish =>
    refine { unharmed with workers := updated ?_ }
    intro exit isEnded
    cases isEnded
    rfl
  | sinkReceive | sinkWrite => exact { unharmed with sink := nofun }
  | sinkWriteFail busy => exact absurd ⟨_, busy, rfl⟩ writes
  | sinkFinish =>
    refine { unharmed with sink := ?_ }
    intro exit isEnded
    cases isEnded
    rfl

/-- Where a step is possible, one is that is no failed write. -/
theorem Step.exists_without_write_failure (step : Step program s s') :
    ∃ other, Step program s other ∧ ¬WriteFailure s other := by
  by_cases writes : WriteFailure s s'
  · obtain ⟨output, busy, -⟩ := writes
    refine ⟨_, .sinkWrite busy, ?_⟩
    intro failure
    obtain ⟨other, -, ended⟩ := failure
    cases ended
  · exact ⟨s', step, writes⟩

end Unharmed

/-! ## Runs that end -/

/-- A measure that every step uses up rules out runs without an end. -/
theorem no_endless_run {τ γ : Type*} [Preorder γ] [WellFoundedLT γ] {step : τ → τ → Prop}
    {invariant : τ → Prop} (keeps : ∀ {s s'}, invariant s → step s s' → invariant s')
    (measure : τ → γ) (less : ∀ {s s'}, invariant s → step s s' → measure s' < measure s)
    {start : τ} (holds : invariant start) :
    ¬∃ run : Nat → τ, run 0 = start ∧ ∀ idx, step (run idx) (run (idx + 1)) := by
  intro endless
  obtain ⟨run, rfl, steps⟩ := endless
  have always : ∀ idx, invariant (run idx) := by
    intro idx
    induction idx with
    | zero => exact holds
    | succ idx inductionHypothesis => exact keeps inductionHypothesis (steps idx)
  obtain ⟨idx, stays⟩ := WellFounded.not_rel_apply_succ (r := (· < ·)) fun idx => measure (run idx)
  exact stays (less (always idx) (steps idx))

end GarudaCodec.Foundation.Pipeline
