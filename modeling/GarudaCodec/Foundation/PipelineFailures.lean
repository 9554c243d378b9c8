import GarudaCodec.Foundation.PipelineEnds
import GarudaCodec.Foundation.PipelineRuns

/-! # What a failure does to a pipeline

A fetch and a write are the only steps that can fail by themselves; other threads fail because a
queue end was dropped, and only upstream of the sink.  So while no write has failed, the source
sends what its loop on its own would send, and everything that was sent is consumed
(`Intact.consumed`).  A run ends without any error exactly if no fetch has ended in one and no
write has failed (`drained_iff`).
-/

namespace GarudaCodec.Foundation.Pipeline

open GarudaCodec.Foundation.Lanes

variable {ι σ α ω β : Type*}

/-- The source's loop ends with an error of its own, so not because a receiver is gone. -/
def FetchFailure (s s' : State ι σ α ω β) : Prop :=
  s.sourcePhase = .running [] ∧ ∃ exit, exit ≠ .ok ∧ s'.sourcePhase = .ended exit

/-- The sink's loop ends on a write that failed. -/
def WriteFailure (s s' : State ι σ α ω β) : Prop :=
  ∃ output, s.sinkPhase = .running [output] ∧ s'.sinkPhase = .ended .failed

def IoFailure (s s' : State ι σ α ω β) : Prop :=
  FetchFailure s s' ∨ WriteFailure s s'

/-- The source is where its loop on its own would be after the same items. -/
def Program.Follows (program : Program ι σ α ω β) (source : σ) :
    σ × Phase α × List α → Prop
  | (next, .running held, sent) => ∀ {rest exit}, program.Dispatches next rest exit →
      program.Dispatches source (sent ++ held ++ rest) exit
  | (_, .ended exit, sent) => program.Dispatches source sent exit

variable {program : Program ι σ α ω β}

/-- No thread downstream of the source has failed, and the source has not missed a send. -/
structure Intact (program : Program ι σ α ω β) (source : σ) (s : State ι σ α ω β) : Prop where
  follows : program.Follows source s.sourceView
  workers : ∀ key exit, s.workerPhases key = .ended exit → exit = .ok
  sink : ∀ exit, s.sinkPhase = .ended exit → exit = .ok

theorem Intact.start (source : σ) (workers : ι → ω) :
    Intact program source (State.start source workers) where
  follows := fun dispatches => dispatches
  workers := nofun
  sink := nofun

variable [DecidableEq ι]

/-- The states of the runs in which no step fails like that. -/
abbrev ReachableWithout (program : Program ι σ α ω β)
    (failure : State ι σ α ω β → State ι σ α ω β → Prop) :
    State ι σ α ω β → State ι σ α ω β → Prop :=
  Relation.ReflTransGen fun s s' => Step program s s' ∧ ¬failure s s'

theorem reachable_of_reachableWithout {failure : State ι σ α ω β → State ι σ α ω β → Prop}
    {s s' : State ι σ α ω β} (run : ReachableWithout program failure s s') :
    Reachable program s s' :=
  Relation.ReflTransGen.mono (fun _ _ step => step.1) _ _ run

theorem reachableWithout_write {s s' : State ι σ α ω β}
    (run : ReachableWithout program IoFailure s s') : ReachableWithout program WriteFailure s s' :=
  Relation.ReflTransGen.mono (fun _ _ step => ⟨step.1, fun fails => step.2 (Or.inr fails)⟩) _ _ run

/-- What holds of all values and of a new one holds after an update with it. -/
theorem forall_update {γ : Type*} (property : γ → Prop) {values : ι → γ} {key : ι} {value : γ}
    (changed : property value) (others : ∀ other, property (values other)) :
    ∀ other, property (Function.update values key value other) :=
  (Function.forall_update_iff values fun _ => property).mpr ⟨changed, fun other _ => others other⟩

section Step

variable {source : σ} {workers : ι → ω} {s s' : State ι σ α ω β}

/-- A worker that is put into another phase is fine if that phase is. -/
theorem Intact.update (intact : Intact program source s) {key : ι} {phase : Phase β}
    (fine : ∀ exit, phase = .ended exit → exit = .ok) :
    ∀ other exit, Function.update s.workerPhases key phase other = .ended exit → exit = .ok :=
  forall_update (fun phase : Phase β => ∀ exit, phase = .ended exit → exit = .ok) fine
    intact.workers

/-- A failed write, an error of a worker or a panic is needed to disturb the threads. -/
theorem Intact.step (wired : Wired program workers s) (intact : Intact program source s)
    (sound : ∀ key, ∀ value ∈ s.queues key, program.work (s.workers key) value ≠ .failed)
    (step : Step program s s') (writes : ¬WriteFailure s s') :
    Intact program source s' ∨ ∃ key, s'.workerPhases key = .ended .panicked := by
  obtain ⟨follows, workersFine, sinkFine⟩ := intact
  cases step with
  | fetchItem idle fetched =>
    simp only [State.sourceView, idle, Program.Follows] at follows
    refine Or.inl ⟨?_, workersFine, sinkFine⟩
    intro rest exit dispatches
    simpa using follows (.item fetched dispatches)
  | fetchStop idle fetched =>
    simp only [State.sourceView, idle, Program.Follows] at follows
    refine Or.inl ⟨?_, workersFine, sinkFine⟩
    simpa [State.sourceView, Program.Follows] using follows (.stop fetched)
  | sourceSend busy receiver room =>
    simp only [State.sourceView, busy, Program.Follows] at follows
    refine Or.inl ⟨?_, workersFine, sinkFine⟩
    intro rest exit dispatches
    simpa using follows dispatches
  -- the receiver would have ended without an error, which it does only after the source
  | sourceSendFail busy receiver =>
    have fine := workersFine _ _ receiver
    subst fine
    exact absurd receiver (wired.not_done_of_source busy _)
  | workerReceive idle front worked =>
    exact Or.inl ⟨follows, Intact.update ⟨follows, workersFine, sinkFine⟩ (by simp), sinkFine⟩
  | workerFail idle front worked =>
    exact absurd worked (sound _ _ (by simp [front]))
  | workerPanic idle front worked =>
    exact Or.inr ⟨_, Function.update_self _ _ _⟩
  | workerSend busy sink room =>
    exact Or.inl ⟨follows, Intact.update ⟨follows, workersFine, sinkFine⟩ (by simp), sinkFine⟩
  -- likewise for the sink and a worker
  | workerSendFail busy sink =>
    have fine := sinkFine _ sink
    subst fine
    exact absurd sink (wired.not_done_of_worker busy)
  | workerFinish idle empty ended =>
    refine Or.inl ⟨follows, Intact.update ⟨follows, workersFine, sinkFine⟩ ?_, sinkFine⟩
    intro exit same
    cases same
    rfl
  | sinkReceive idle front => exact Or.inl ⟨follows, workersFine, by simp⟩
  | sinkWrite busy => exact Or.inl ⟨follows, workersFine, by simp⟩
  | sinkWriteFail busy => exact absurd ⟨_, busy, rfl⟩ writes
  | sinkFinish idle empty ended =>
    refine Or.inl ⟨follows, workersFine, ?_⟩
    intro exit same
    cases same
    rfl

end Step

section Runs

variable {source : σ} {workers : ι → ω} {s : State ι σ α ω β}

/-- No worker returns an error for an item that reaches its queue. -/
def WorkSound (program : Program ι σ α ω β) (start : State ι σ α ω β) : Prop :=
  ∀ s, Reachable program start s →
    ∀ key, ∀ value ∈ s.queues key, program.work (s.workers key) value ≠ .failed

/-- While every write succeeds, only a panic of a worker can disturb the threads. -/
theorem intact_or_panicked (sound : WorkSound program (State.start source workers))
    (run : ReachableWithout program WriteFailure (State.start source workers) s) :
    Intact program source s ∨ ∃ key, s.workerPhases key = .ended .panicked := by
  induction run with
  | refl => exact Or.inl (.start source workers)
  | tail run step inductionHypothesis =>
    rcases inductionHypothesis with intact | ⟨key, panicked⟩
    · have reachable := reachable_of_reachableWithout run
      have wired := (Wired.start program source workers).reachable reachable
      exact intact.step wired (sound _ reachable) step.1 step.2
    · exact Or.inr ⟨key, step.1.worker_ended panicked⟩

/-- No worker panics if none panics on an item that reaches its queue. -/
theorem never_panicked {start : State ι σ α ω β}
    (started : ∀ key, start.workerPhases key ≠ .ended .panicked)
    (calm : ∀ s, Reachable program start s →
      ∀ key, ∀ value ∈ s.queues key, program.work (s.workers key) value ≠ .panicked)
    (reachable : Reachable program start s) :
    ∀ key, s.workerPhases key ≠ .ended .panicked := by
  induction reachable with
  | refl => exact started
  | @tail mid last reachesMid step inductionHypothesis =>
    have update : ∀ {key : ι} {phase : Phase β}, phase ≠ .ended .panicked →
        ∀ other, Function.update mid.workerPhases key phase other ≠ .ended .panicked := by
      intro key phase notPanicked
      exact forall_update (fun phase : Phase β => phase ≠ .ended .panicked) notPanicked
        inductionHypothesis
    cases step with
    | workerPanic _ front worked => exact absurd worked (calm _ reachesMid _ _ (by simp [front]))
    | workerReceive | workerFail | workerSend | workerSendFail | workerFinish =>
      exact update (by simp)
    | fetchItem | fetchStop | sourceSend | sourceSendFail | sinkReceive | sinkWrite
    | sinkWriteFail | sinkFinish => exact inductionHypothesis

/-- Once all threads have returned and none was disturbed, the source has sent what its loop on its
    own sends, and nothing of it is left. -/
theorem Intact.consumed (wired : Wired program workers s) (intact : Intact program source s)
    (ended : AllEnded s) :
    Consumed program workers s ∧
      ∃ exit, s.sourcePhase = .ended exit ∧ program.Dispatches source s.sent exit := by
  have workersEnded : ∀ key, s.workerPhases key = .ended .ok := by
    intro key
    obtain ⟨exit, workerEnded⟩ := ended.workers key
    rw [workerEnded, intact.workers key exit workerEnded]
  have sinkEnded : s.sinkPhase = .ended .ok := by
    obtain ⟨exit, sinkEnded⟩ := ended.sink
    rw [sinkEnded, intact.sink exit sinkEnded]
  refine ⟨wired.consumed workersEnded sinkEnded, ?_⟩
  obtain ⟨exit, sourceEnded⟩ := ended.source
  have follows := intact.follows
  simp only [State.sourceView, sourceEnded, Program.Follows] at follows
  exact ⟨exit, sourceEnded, follows⟩

/-- No step of a run to a drained state was a failed fetch or write. -/
theorem Drained.reachableWithout {start : State ι σ α ω β} (drained : Drained s)
    (reachable : Reachable program start s) : ReachableWithout program IoFailure start s := by
  induction reachable using Relation.ReflTransGen.head_induction_on with
  | refl => exact .refl
  | head step reaches inductionHypothesis =>
    refine .head ⟨step, ?_⟩ inductionHypothesis
    rintro (⟨_, exit, notOk, ended⟩ | ⟨_, _, ended⟩)
    · have stillEnded := source_ended_of_reachable reaches ended
      rw [drained.source] at stillEnded
      cases stillEnded
      exact notOk rfl
    · have stillEnded := (sink_ended_of_reachable reaches ended).1
      rw [drained.sink] at stillEnded
      cases stillEnded

/-- While every read and every write succeeds, the source does not return with an error. -/
theorem source_ok_or_panicked (sound : WorkSound program (State.start source workers))
    (run : ReachableWithout program IoFailure (State.start source workers) s) {exit : Exit}
    (ended : s.sourcePhase = .ended exit) :
    exit = .ok ∨ ∃ key, s.workerPhases key = .ended .panicked := by
  induction run generalizing exit with
  | refl => cases ended
  | @tail mid last run step inductionHypothesis =>
    obtain ⟨step, fine⟩ := step
    have undisturbed := intact_or_panicked sound (reachableWithout_write run)
    have wired := (Wired.start program source workers).reachable (reachable_of_reachableWithout run)
    cases midSource : mid.sourcePhase with
    | ended before =>
      have stillEnded := step.source_ended midSource
      rw [ended] at stillEnded
      cases stillEnded
      rcases inductionHypothesis midSource with ok | ⟨key, panicked⟩
      · exact Or.inl ok
      · exact Or.inr ⟨key, step.worker_ended panicked⟩
    | running held =>
      cases step with
      | fetchStop idle fetched =>
        by_contra bad
        exact fine (Or.inl ⟨idle, exit, fun ok => bad (Or.inl ok), ended⟩)
      -- the receiver is gone although the source runs, so it has panicked or was disturbed
      | sourceSendFail busy receiver =>
        rcases undisturbed with intact | panicked
        · have ok := intact.workers _ _ receiver
          subst ok
          exact absurd receiver (wired.not_done_of_source busy _)
        · exact Or.inr panicked
      | fetchItem | sourceSend => cases ended
      | workerReceive | workerFail | workerPanic | workerSend | workerSendFail | workerFinish
      | sinkReceive | sinkWrite | sinkWriteFail | sinkFinish =>
        simp only [midSource] at ended
        cases ended

/-- Unless a worker has panicked, all threads return without an error exactly if no read and no
    write has failed. -/
theorem drained_iff (sound : WorkSound program (State.start source workers))
    (reachable : Reachable program (State.start source workers) s) (ended : AllEnded s)
    (calm : ∀ key, s.workerPhases key ≠ .ended .panicked) :
    Drained s ↔ ReachableWithout program IoFailure (State.start source workers) s := by
  constructor
  · intro drained
    exact drained.reachableWithout reachable
  · intro run
    have notPanicked : ¬∃ key, s.workerPhases key = .ended .panicked :=
      fun ⟨key, panicked⟩ => calm key panicked
    have intact := (intact_or_panicked sound (reachableWithout_write run)).resolve_right notPanicked
    obtain ⟨sourceExit, sourceEnded⟩ := ended.source
    obtain ⟨sinkExit, sinkEnded⟩ := ended.sink
    refine ⟨?_, fun key => ?_, ?_⟩
    · rw [sourceEnded, (source_ok_or_panicked sound run sourceEnded).resolve_right notPanicked]
    · obtain ⟨exit, workerEnded⟩ := ended.workers key
      rw [workerEnded, intact.workers key exit workerEnded]
    · rw [sinkEnded, intact.sink sinkExit sinkEnded]

/-- A run in which already the first write fails ends like any other, with nothing written. -/
theorem exists_write_failure [Fintype ι] {good : σ → Prop} {fuel : σ → Nat}
    (fueled : Fueled program good fuel) (live : Live good s) (idle : Idle s) {value : α}
    {next : σ} {worker : ω} {output : β} {pending : List β}
    (fetched : program.fetch s.source = some (.item value next))
    (worked : program.work (s.workers (program.route value)) value =
      .outputs worker (output :: pending)) :
    ∃ last, Reachable program s last ∧ AllEnded last ∧ last.sinkPhase = .ended .failed ∧
      last.written = s.written := by
  obtain ⟨mid, reachesMid, sending, -, -, midWritten⟩ := idle.exists_sending fetched worked
  obtain ⟨failed, reachesFailed, sinkFailed, failedWritten⟩ := sending.exists_write_failure program
  have reaches := reachesMid.trans reachesFailed
  obtain ⟨last, reachesLast, ended⟩ := (live.reachable fueled reaches).exists_ended fueled
  obtain ⟨stillFailed, lastWritten⟩ := sink_ended_of_reachable reachesLast sinkFailed
  exact ⟨last, reaches.trans reachesLast, ended, stillFailed,
    lastWritten.trans (failedWritten.trans midWritten)⟩

end Runs

end GarudaCodec.Foundation.Pipeline
