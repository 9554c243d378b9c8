import GarudaCodec.Foundation.PipelineFailures

/-! # Pipelines with another source

What a pipeline does depends on its source only through what the source fetches.  At any time the
source has sent a part from the front of what its loop sends on its own
(`sent_prefix_of_dispatches`), and all of that once it has returned without an error
(`dispatches_of_source_ok`).  Two pipelines whose sources fetch alike have the same runs
(`FetchAlike.reachable`).
-/

namespace GarudaCodec.Foundation.Pipeline

variable {ι σ τ α ω β : Type*}

/-! ## A source that has returned -/

/-- The source is where its loop on its own would be, or a send of it has failed. -/
def Program.FollowsOrFailed (program : Program ι σ α ω β) (source : σ)
    (view : σ × Phase α × List α) : Prop :=
  program.Follows source view ∨ view.2.1 = .ended .failed

theorem Program.FollowsOrFailed.move {program : Program ι σ α ω β} {source : σ}
    {view view' : σ × Phase α × List α} (move : SourceMove program view view')
    (follows : program.FollowsOrFailed source view) : program.FollowsOrFailed source view' := by
  cases follows with
  | inr failed =>
    cases move with
    | refused => exact Or.inr rfl
    | fetched | stopped | sent => cases failed
  | inl running =>
    cases move with
    | refused => exact Or.inr rfl
    | fetched fetch =>
      refine Or.inl ?_
      intro rest exit dispatches
      simpa [Follows] using @running _ _ (.item fetch dispatches)
    | stopped fetch =>
      have stopped := @running _ _ (.stop fetch)
      exact Or.inl (by simpa [Follows] using stopped)
    | sent =>
      refine Or.inl ?_
      intro rest exit dispatches
      simpa [Follows] using @running _ _ dispatches

/-- The source has sent a part from the front of these values and goes on with the rest of them. -/
def Program.SendsFrom (program : Program ι σ α ω β) (values : List α) (exit : Exit) :
    σ × Phase α × List α → Prop
  | (next, .running held, sent) =>
    ∃ rest, values = sent ++ held ++ rest ∧ program.Dispatches next rest exit
  | (_, .ended _, sent) => sent <+: values

theorem Program.SendsFrom.move {program : Program ι σ α ω β} {values : List α} {exit : Exit}
    {view view' : σ × Phase α × List α} (move : SourceMove program view view')
    (sends : program.SendsFrom values exit view) : program.SendsFrom values exit view' := by
  cases move with
  | fetched fetch =>
    obtain ⟨rest, split, dispatches⟩ := sends
    obtain ⟨later, rfl, goesOn⟩ := (Program.dispatches_item fetch).mp dispatches
    exact ⟨later, by simp [split], goesOn⟩
  | stopped fetch =>
    obtain ⟨rest, split, -⟩ := sends
    exact ⟨rest, by simp [split]⟩
  | sent =>
    obtain ⟨rest, split, dispatches⟩ := sends
    exact ⟨rest, by simp [split], dispatches⟩
  | @refused source value sent =>
    obtain ⟨rest, split, -⟩ := sends
    exact ⟨value :: rest, by simp [split]⟩

section Ended

variable [DecidableEq ι]

/-- Whatever else has failed, a source that has returned without an error has sent what its loop
    sends on its own. -/
theorem dispatches_of_source_ok {program : Program ι σ α ω β} {source : σ} {workers : ι → ω}
    {s : State ι σ α ω β} (reachable : Reachable program (State.start source workers) s)
    (ended : s.sourcePhase = .ended .ok) : program.Dispatches source s.sent .ok := by
  have follows : program.FollowsOrFailed source s.sourceView := by
    clear ended
    induction reachable with
    | refl => exact Or.inl fun dispatches => dispatches
    | tail _ step inductionHypothesis =>
      exact step.source_invariant Program.FollowsOrFailed.move inductionHypothesis
  simpa [Program.FollowsOrFailed, Program.Follows, State.sourceView, ended] using follows

/-- At any time and whatever has failed, the source has sent a part from the front of what its loop
    sends on its own. -/
theorem sent_prefix_of_dispatches {program : Program ι σ α ω β} {source : σ} {workers : ι → ω}
    {values : List α} {exit : Exit} (dispatches : program.Dispatches source values exit)
    {s : State ι σ α ω β} (reachable : Reachable program (State.start source workers) s) :
    s.sent <+: values := by
  have sends : program.SendsFrom values exit s.sourceView := by
    induction reachable with
    | refl => exact ⟨values, rfl, dispatches⟩
    | tail _ step inductionHypothesis =>
      exact step.source_invariant Program.SendsFrom.move inductionHypothesis
  obtain ⟨source', phase, queues, _, _, _, _, _, sent, _, _⟩ := s
  cases phase with
  | running held =>
    obtain ⟨rest, split, -⟩ := sends
    exact ⟨held ++ rest, by simpa using split.symm⟩
  | ended exit => exact sends

theorem Step.sent_cases {program : Program ι σ α ω β} {s s' : State ι σ α ω β}
    (step : Step program s s') : s'.sent = s.sent ∨ ∃ value, s'.sent = s.sent ++ [value] := by
  cases step with
  | sourceSend => exact Or.inr ⟨_, rfl⟩
  | fetchItem | fetchStop | sourceSendFail | workerReceive | workerFail | workerPanic | workerSend
  | workerSendFail | workerFinish | sinkReceive | sinkWrite | sinkWriteFail | sinkFinish =>
    exact Or.inl rfl

theorem Step.written_cases {program : Program ι σ α ω β} {s s' : State ι σ α ω β}
    (step : Step program s s') :
    s'.written = s.written ∨ ∃ output, s'.written = s.written ++ [output] := by
  cases step with
  | sinkWrite => exact Or.inr ⟨_, rfl⟩
  | fetchItem | fetchStop | sourceSend | sourceSendFail | workerReceive | workerFail | workerPanic
  | workerSend | workerSendFail | workerFinish | sinkReceive | sinkWriteFail | sinkFinish =>
    exact Or.inl rfl

end Ended

/-! ## Sources that fetch alike -/

/-- The same state with another source. -/
def State.withSource (s : State ι σ α ω β) (source : τ) : State ι τ α ω β where
  source := source
  sourcePhase := s.sourcePhase
  queues := s.queues
  workers := s.workers
  workerPhases := s.workerPhases
  shared := s.shared
  sinkPhase := s.sinkPhase
  written := s.written
  sent := s.sent
  received := s.received
  merged := s.merged

@[simp] theorem State.withSource_self (s : State ι σ α ω β) : s.withSource s.source = s := rfl

@[simp] theorem State.withSource_withSource {υ : Type*} (s : State ι σ α ω β) (middle : τ)
    (source : υ) : (s.withSource middle).withSource source = s.withSource source := rfl

/-- Two programs with the same workers, queues and sink, and a relation of their sources under which
    they fetch the same. -/
structure FetchAlike (program : Program ι σ α ω β) (other : Program ι τ α ω β)
    (alike : σ → τ → Prop) : Prop where
  route : program.route = other.route
  work : program.work = other.work
  capacity : program.capacity = other.capacity
  fetch : ∀ {source otherSource}, alike source otherSource →
    (∃ value next otherNext, program.fetch source = some (.item value next) ∧
      other.fetch otherSource = some (.item value otherNext) ∧ alike next otherNext) ∨
    (∃ exit next otherNext, program.fetch source = some (.stop exit next) ∧
      other.fetch otherSource = some (.stop exit otherNext)) ∨
    program.fetch source = none ∧ other.fetch otherSource = none

/-- The sources are related as long as they run. -/
def AlikeWhileRunning (alike : σ → τ → Prop) (s : State ι σ α ω β) (source : τ) : Prop :=
  ∀ held, s.sourcePhase = .running held → alike s.source source

variable {program : Program ι σ α ω β} {other : Program ι τ α ω β} {alike : σ → τ → Prop}

theorem FetchAlike.symm (fetchAlike : FetchAlike program other alike) :
    FetchAlike other program fun otherSource source => alike source otherSource where
  route := fetchAlike.route.symm
  work := fetchAlike.work.symm
  capacity := fetchAlike.capacity.symm
  fetch := by
    intro otherSource source related
    cases fetchAlike.fetch related with
    | inl items =>
      obtain ⟨value, next, otherNext, fetched, otherFetched, nextAlike⟩ := items
      exact Or.inl ⟨value, otherNext, next, otherFetched, fetched, nextAlike⟩
    | inr noItems =>
      cases noItems with
      | inl stops =>
        obtain ⟨exit, next, otherNext, fetched, otherFetched⟩ := stops
        exact Or.inr (Or.inl ⟨exit, otherNext, next, otherFetched, fetched⟩)
      | inr waits => exact Or.inr (Or.inr ⟨waits.2, waits.1⟩)

theorem FetchAlike.item (fetchAlike : FetchAlike program other alike) {source next : σ}
    {otherSource : τ} {value : α} (related : alike source otherSource)
    (fetched : program.fetch source = some (.item value next)) :
    ∃ otherNext, other.fetch otherSource = some (.item value otherNext) ∧ alike next otherNext := by
  have cases := fetchAlike.fetch related
  simp only [fetched] at cases
  grind

theorem FetchAlike.stop (fetchAlike : FetchAlike program other alike) {source next : σ}
    {otherSource : τ} {exit : Exit} (related : alike source otherSource)
    (fetched : program.fetch source = some (.stop exit next)) :
    ∃ otherNext, other.fetch otherSource = some (.stop exit otherNext) := by
  have cases := fetchAlike.fetch related
  simp only [fetched] at cases
  grind

variable [DecidableEq ι] {s s' : State ι σ α ω β}

/-- Each step of the one is a step of the other. -/
theorem FetchAlike.step (fetchAlike : FetchAlike program other alike) {source : τ}
    (related : AlikeWhileRunning alike s source) (step : Step program s s') :
    ∃ source', Step other (s.withSource source) (s'.withSource source') ∧
      AlikeWhileRunning alike s' source' := by
  have work := fetchAlike.work
  have route := fetchAlike.route
  have capacity := fetchAlike.capacity
  cases step with
  | fetchItem idle fetched =>
    obtain ⟨next, fetches, nextAlike⟩ := fetchAlike.item (related [] idle) fetched
    exact ⟨next, .fetchItem idle fetches, fun _ _ => nextAlike⟩
  | fetchStop idle fetched =>
    obtain ⟨next, fetches⟩ := fetchAlike.stop (related [] idle) fetched
    exact ⟨next, .fetchStop idle fetches, nofun⟩
  | sourceSend busy receiver room =>
    rw [route] at receiver
    rw [route, capacity] at room
    refine ⟨source, ?_, fun _ _ => related _ busy⟩
    rw [route]
    exact .sourceSend (s := s.withSource source) busy receiver room
  | sourceSendFail busy receiver =>
    rw [route] at receiver
    exact ⟨source, .sourceSendFail (s := s.withSource source) busy receiver, nofun⟩
  | workerReceive idle front worked =>
    rw [work] at worked
    exact ⟨source, .workerReceive (s := s.withSource source) idle front worked, related⟩
  | workerFail idle front worked =>
    rw [work] at worked
    exact ⟨source, .workerFail (s := s.withSource source) idle front worked, related⟩
  | workerPanic idle front worked =>
    rw [work] at worked
    exact ⟨source, .workerPanic (s := s.withSource source) idle front worked, related⟩
  | workerSend busy sink room =>
    rw [capacity] at room
    exact ⟨source, .workerSend (s := s.withSource source) busy sink room, related⟩
  | workerSendFail busy sink =>
    exact ⟨source, .workerSendFail (s := s.withSource source) busy sink, related⟩
  | workerFinish idle empty ended =>
    exact ⟨source, .workerFinish (s := s.withSource source) idle empty ended, related⟩
  | sinkReceive idle front =>
    exact ⟨source, .sinkReceive (s := s.withSource source) idle front, related⟩
  | sinkWrite busy => exact ⟨source, .sinkWrite (s := s.withSource source) busy, related⟩
  | sinkWriteFail busy => exact ⟨source, .sinkWriteFail (s := s.withSource source) busy, related⟩
  | sinkFinish idle empty ended =>
    exact ⟨source, .sinkFinish (s := s.withSource source) idle empty ended, related⟩

/-- Each run of the one is a run of the other. -/
theorem FetchAlike.reachable (fetchAlike : FetchAlike program other alike) {source : σ}
    {otherSource : τ} (related : alike source otherSource) {workers : ι → ω}
    (reachable : Reachable program (State.start source workers) s) :
    ∃ last, Reachable other (State.start otherSource workers) (s.withSource last) := by
  suffices related : ∃ last, Reachable other (State.start otherSource workers)
      (s.withSource last) ∧ AlikeWhileRunning alike s last by
    obtain ⟨last, reaches, -⟩ := related
    exact ⟨last, reaches⟩
  induction reachable with
  | refl => exact ⟨otherSource, .refl, fun _ _ => related⟩
  | tail _ step inductionHypothesis =>
    obtain ⟨mid, reaches, midRelated⟩ := inductionHypothesis
    obtain ⟨last, lastStep, lastRelated⟩ := fetchAlike.step midRelated step
    exact ⟨last, reaches.tail lastStep, lastRelated⟩

end GarudaCodec.Foundation.Pipeline
