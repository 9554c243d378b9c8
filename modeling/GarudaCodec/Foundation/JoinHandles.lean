import GarudaCodec.Foundation.Outcome
import GarudaCodec.Foundation.PipelineFailures

/-! # Starting and joining the threads of a pipeline

The owner of a pipeline starts its threads from the sink to the source, keeps a handle of each, and
joins them from the source to the sink.  A join waits for its thread.  Threads return no value, so
all that a join shows is whether its thread has panicked (`wait_eq_ok_iff`).
-/

namespace GarudaCodec.Foundation.Pipeline

variable {ι σ α ω β : Type*} {ε : Type}

/-- The threads of a pipeline. -/
inductive Thread (ι : Type*) where
  | source
  | worker (key : ι)
  | sink
deriving DecidableEq, Repr

def Phase.exit? {γ : Type*} : Phase γ → Option Exit
  | .running _ => none
  | .ended exit => some exit

/-- How a thread has returned, if it has. -/
def State.exit? (s : State ι σ α ω β) : Thread ι → Option Exit
  | .source => s.sourcePhase.exit?
  | .worker key => (s.workerPhases key).exit?
  | .sink => s.sinkPhase.exit?

/-- The handles that have not been joined yet. -/
structure Handles (ι : Type*) where
  source : Option (Thread ι)
  workers : List (Thread ι)
  sink : Option (Thread ι)

/-- Before anything is started. -/
def Handles.empty : Handles ι where
  source := none
  workers := []
  sink := none

/-- Joins one thread after the other; `none` while it waits.  A panic is passed on, an error is
    not: the thread has printed it and returned nothing. -/
def joinAll (exit? : Thread ι → Option Exit) : List (Thread ι) → Option (Outcome ε Unit)
  | [] => some (.ok ())
  | handle :: handles =>
    match exit? handle with
    | none => none
    | some .panicked => some .panic
    | some .ok | some .failed => joinAll exit? handles

/-- What is left of the handles when those of the source and the sink have been taken and the
    source's thread has returned like this: the workers' handles are taken after it is joined, so
    they stay in place when it passes on a panic. -/
def Handles.afterSource (handles : Handles ι) : Option Exit → Handles ι
  | none | some .panicked => { handles with source := none, sink := none }
  | some .ok | some .failed => .empty

/-- Takes the handles and joins them all, and fails if there is none of the source or the sink. -/
def Handles.wait (noSource noSink : ε) (exit? : Thread ι → Option Exit) (handles : Handles ι) :
    Option (Outcome ε Unit) × Handles ι :=
  match handles.source with
  | none => (some (.err noSource), handles)
  | some first =>
    match handles.sink with
    | none => (some (.err noSink), { handles with source := none })
    | some last =>
      (joinAll exit? (first :: handles.workers ++ [last]), handles.afterSource (exit? first))

/-- The handles of every thread, of the workers in the order they were started in. -/
def Handles.all (keys : List ι) : Handles ι where
  source := some .source
  workers := keys.map .worker
  sink := some .sink

section Start

variable {κ σ α ω β : Type}

/-- Starts the sink, then the workers, then the source.  What has been started keeps its handle
    when something later cannot be made. -/
def Handles.start (handles : Handles κ) (keys : List κ) (makeWorkers : Outcome ε (κ → ω))
    (makeSource : Outcome ε σ) : Outcome ε (State κ σ α ω β) × Handles κ :=
  let forwarding := { handles with sink := some .sink }
  match makeWorkers with
  | .err error => (.err error, forwarding)
  | .panic => (.panic, forwarding)
  | .ok workers =>
    let working := { forwarding with workers := forwarding.workers ++ keys.map .worker }
    match makeSource with
    | .err error => (.err error, working)
    | .panic => (.panic, working)
    | .ok source => (.ok (State.start source workers), { working with source := some .source })

variable {keys : List κ} {makeWorkers : Outcome ε (κ → ω)} {makeSource : Outcome ε σ}
variable {handles : Handles κ}

/-- A start that succeeds has made everything. -/
theorem Handles.start_eq_ok {s : State κ σ α ω β}
    (starts : Handles.empty.start keys makeWorkers makeSource = (.ok s, handles)) :
    ∃ workers source, makeWorkers = .ok workers ∧ makeSource = .ok source ∧
      s = State.start source workers ∧ handles = .all keys := by
  cases makeWorkers with
  | err error => cases starts
  | panic => cases starts
  | ok workers =>
    cases makeSource with
    | err error => cases starts
    | panic => cases starts
    | ok source =>
      cases starts
      exact ⟨workers, source, rfl, rfl, rfl, rfl⟩

/-- After a start that failed there is no source to wait for. -/
theorem Handles.wait_of_failed_start {outcome : Outcome ε (State κ σ α ω β)}
    (starts : Handles.empty.start keys makeWorkers makeSource = (outcome, handles))
    (failed : ∀ s, outcome ≠ .ok s) {ε' : Type} (noSource noSink : ε')
    (exit? : Thread κ → Option Exit) :
    (handles.wait noSource noSink exit?).1 = some (.err noSource) := by
  cases makeWorkers with
  | err error =>
    cases starts
    rfl
  | panic =>
    cases starts
    rfl
  | ok workers =>
    cases makeSource with
    | err error =>
      cases starts
      rfl
    | panic =>
      cases starts
      rfl
    | ok source =>
      cases starts
      exact absurd rfl (failed _)

end Start

/-! ## What joining shows -/

theorem joinAll_eq_ok {exit? : Thread ι → Option Exit} {handles : List (Thread ι)} :
    joinAll (ε := ε) exit? handles = some (.ok ()) ↔
      ∀ handle ∈ handles, ∃ exit, exit? handle = some exit ∧ exit ≠ .panicked := by
  induction handles with
  | nil => simp [joinAll]
  | cons handle handles inductionHypothesis =>
    rw [joinAll, List.forall_mem_cons]
    cases joined : exit? handle with
    | none => simp
    | some exit =>
      cases exit with
      | panicked => simp
      | ok | failed => simpa using inductionHypothesis

/-- Once its threads have returned, joining them ends. -/
theorem joinAll_of_ended {exit? : Thread ι → Option Exit} {handles : List (Thread ι)}
    (ended : ∀ handle ∈ handles, ∃ exit, exit? handle = some exit) :
    joinAll (ε := ε) exit? handles = some (.ok ()) ∨
      joinAll (ε := ε) exit? handles = some .panic ∧
        ∃ handle ∈ handles, exit? handle = some .panicked := by
  induction handles with
  | nil => exact Or.inl rfl
  | cons handle handles inductionHypothesis =>
    obtain ⟨⟨exit, joined⟩, othersEnded⟩ := List.forall_mem_cons.mp ended
    rw [joinAll, joined]
    cases exit with
    | panicked => exact Or.inr ⟨rfl, handle, List.mem_cons_self, joined⟩
    | ok | failed =>
      rcases inductionHypothesis othersEnded with fine | ⟨unwinds, other, member, panicked⟩
      · exact Or.inl fine
      · exact Or.inr ⟨unwinds, other, List.mem_cons_of_mem _ member, panicked⟩

theorem Phase.exit?_eq_some {γ : Type*} {phase : Phase γ} {exit : Exit} :
    phase.exit? = some exit ↔ phase = .ended exit := by
  cases phase <;> simp [Phase.exit?]

section Started

variable {s : State ι σ α ω β}

theorem allEnded_iff : AllEnded s ↔ ∀ thread, ∃ exit, s.exit? thread = some exit := by
  constructor
  · intro ended thread
    cases thread with
    | source => exact ended.source.imp fun _ => Phase.exit?_eq_some.mpr
    | worker key => exact (ended.workers key).imp fun _ => Phase.exit?_eq_some.mpr
    | sink => exact ended.sink.imp fun _ => Phase.exit?_eq_some.mpr
  · intro ended
    exact ⟨(ended .source).imp fun _ => Phase.exit?_eq_some.mp,
      fun key => (ended (.worker key)).imp fun _ => Phase.exit?_eq_some.mp,
      (ended .sink).imp fun _ => Phase.exit?_eq_some.mp⟩

theorem forall_mem_all {keys : List ι} (complete : ∀ key, key ∈ keys) {property : Thread ι → Prop} :
    (∀ thread ∈ Thread.source :: (Handles.all keys).workers ++ [.sink], property thread) ↔
      ∀ thread, property thread := by
  constructor
  · intro holds thread
    apply holds
    cases thread with
    | source => simp
    | worker key => simp [Handles.all, complete key]
    | sink => simp
  · intro holds thread _
    exact holds thread

/-- Waiting for all threads succeeds exactly if they have all returned and none has panicked. -/
theorem wait_eq_ok_iff {keys : List ι} (complete : ∀ key, key ∈ keys) (noSource noSink : ε) :
    ((Handles.all keys).wait noSource noSink s.exit?).1 = some (.ok ()) ↔
      AllEnded s ∧ ∀ thread, s.exit? thread ≠ some .panicked := by
  show joinAll s.exit? (Thread.source :: (Handles.all keys).workers ++ [.sink]) = _ ↔ _
  rw [joinAll_eq_ok, forall_mem_all complete, allEnded_iff, ← forall_and]
  apply forall_congr'
  intro thread
  cases s.exit? thread <;> simp

theorem Drained.calm (drained : Drained s) (thread : Thread ι) :
    s.exit? thread ≠ some .panicked := by
  intro panicked
  cases thread with
  | source => simp [State.exit?, Phase.exit?, drained.source] at panicked
  | worker key => simp [State.exit?, Phase.exit?, drained.workers key] at panicked
  | sink => simp [State.exit?, Phase.exit?, drained.sink] at panicked

/-- Waiting ends when all threads have returned. -/
theorem wait_of_allEnded {keys : List ι} (complete : ∀ key, key ∈ keys) (noSource noSink : ε)
    (ended : AllEnded s) :
    ((Handles.all keys).wait noSource noSink s.exit?).1 = some (.ok ()) ∨
      ((Handles.all keys).wait noSource noSink s.exit?).1 = some .panic ∧
        ∃ thread, s.exit? thread = some .panicked := by
  have joins := joinAll_of_ended (ε := ε)
    ((forall_mem_all complete).mpr (allEnded_iff.mp ended))
  rcases joins with fine | ⟨unwinds, thread, _, panicked⟩
  · exact Or.inl fine
  · exact Or.inr ⟨unwinds, thread, panicked⟩

end Started

section Runs

variable [DecidableEq ι] {program : Program ι σ α ω β} {source : σ} {workers : ι → ω}
variable {s : State ι σ α ω β}

/-- No fetch ends the source's loop with a panic. -/
def FetchCalm (program : Program ι σ α ω β) : Prop :=
  ∀ {source exit next}, program.fetch source = some (.stop exit next) → exit ≠ .panicked

/-- If no fetch panics, a thread that has panicked is a worker. -/
theorem worker_of_panicked (stops : FetchCalm program)
    (reachable : Reachable program (State.start source workers) s) {thread : Thread ι}
    (panicked : s.exit? thread = some .panicked) :
    ∃ key, s.workerPhases key = .ended .panicked := by
  have others : s.sourcePhase ≠ .ended .panicked ∧ s.sinkPhase ≠ .ended .panicked := by
    clear panicked
    induction reachable with
    | refl => exact ⟨nofun, nofun⟩
    | tail _ step inductionHypothesis =>
      cases step with
      | fetchStop idle fetched => exact ⟨by simpa using stops fetched, inductionHypothesis.2⟩
      | fetchItem | sourceSend | sourceSendFail => exact ⟨by simp, inductionHypothesis.2⟩
      | sinkReceive | sinkWrite | sinkWriteFail | sinkFinish =>
        exact ⟨inductionHypothesis.1, by simp⟩
      | workerReceive | workerFail | workerPanic | workerSend | workerSendFail | workerFinish =>
        exact inductionHypothesis
  cases thread with
  | source => exact absurd (Phase.exit?_eq_some.mp panicked) others.1
  | worker key => exact ⟨key, Phase.exit?_eq_some.mp panicked⟩
  | sink => exact absurd (Phase.exit?_eq_some.mp panicked) others.2

/-- Whatever fails, the threads return and so does the wait for them; if no fetch and no write
    fails and no worker panics, nothing is left in the queues then. -/
structure NeverHangs (program : Program ι σ α ω β) (workers : ι → ω) (start : State ι σ α ω β)
    (wait : State ι σ α ω β → Option (Outcome ε Unit)) : Prop where
  alwaysEnds : AlwaysEnds program start
  waits : ∀ s, Reachable program start s → (∀ s', ¬Step program s s') →
    wait s = some (.ok ()) ∨ wait s = some .panic ∧ ∃ key, s.workerPhases key = .ended .panicked
  consumes : ∀ s, ReachableWithout program IoFailure start s → AllEnded s →
    (∀ key, s.workerPhases key ≠ .ended .panicked) → Drained s ∧ Consumed program workers s

variable {good : σ → Prop} {fuel : σ → Nat} {keys : List ι}

theorem neverHangs [Fintype ι] (fueled : Fueled program good fuel) (holds : good source)
    (sound : WorkSound program (State.start source workers)) (stops : FetchCalm program)
    (complete : ∀ key, key ∈ keys) (noSource noSink : ε) :
    NeverHangs program workers (State.start source workers)
      fun s => ((Handles.all keys).wait noSource noSink s.exit?).1 := by
  have live : Live good (State.start (α := α) (β := β) source workers) := .start holds workers
  refine ⟨live.alwaysEnds fueled, ?_, ?_⟩
  · intro s reachable stuck
    have ended : AllEnded s := by
      by_contra unfinished
      obtain ⟨s', step⟩ := (live.reachable fueled reachable).progress fueled unfinished
      exact stuck s' step
    rcases wait_of_allEnded complete noSource noSink ended with fine | ⟨unwinds, thread, panicked⟩
    · exact Or.inl fine
    · exact Or.inr ⟨unwinds, worker_of_panicked stops reachable panicked⟩
  · intro s run ended calm
    have reachable := reachable_of_reachableWithout run
    have drained := (drained_iff sound reachable ended calm).mpr run
    have wired := (Wired.start program source workers).reachable reachable
    exact ⟨drained, wired.consumed drained.workers drained.sink⟩

/-- What a successful wait says about the threads: they have all returned, but it tells nothing
    about the fetches and writes that have failed. -/
structure Accounted (program : Program ι σ α ω β) (start s : State ι σ α ω β) : Prop where
  ended : AllEnded s
  calm : ∀ thread, s.exit? thread ≠ some .panicked
  drained_iff : Drained s ↔ ReachableWithout program IoFailure start s

theorem accounted (sound : WorkSound program (State.start source workers))
    (reachable : Reachable program (State.start source workers) s) (ended : AllEnded s)
    (calm : ∀ thread, s.exit? thread ≠ some .panicked) :
    Accounted program (State.start source workers) s := by
  refine ⟨ended, calm, drained_iff sound reachable ended fun key panicked => ?_⟩
  exact calm (.worker key) (Phase.exit?_eq_some.mpr panicked)

/-- As long as every write has succeeded, nothing of what the source's loop on its own sends is
    missing. -/
theorem Accounted.consumed (sound : WorkSound program (State.start source workers))
    (accounts : Accounted program (State.start source workers) s)
    (run : ReachableWithout program WriteFailure (State.start source workers) s) :
    Consumed program workers s ∧
      ∃ exit, s.sourcePhase = .ended exit ∧ program.Dispatches source s.sent exit := by
  have wired := (Wired.start program source workers).reachable (reachable_of_reachableWithout run)
  have notPanicked : ¬∃ key, s.workerPhases key = .ended .panicked := by
    rintro ⟨key, panicked⟩
    exact accounts.calm (.worker key) (Phase.exit?_eq_some.mpr panicked)
  exact ((intact_or_panicked sound run).resolve_right notPanicked).consumed wired accounts.ended

end Runs

end GarudaCodec.Foundation.Pipeline
