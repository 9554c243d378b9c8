import Mathlib.Logic.Function.Basic
import Mathlib.Logic.Relation
import GarudaCodec.Foundation.Lanes

/-! # Fan-out, fan-in pipelines over bounded queues

One *source* thread sends every item it fetches to the queue of one worker; each *worker* turns
the items of its own queue into outputs, which all workers send to one *shared* queue; one *sink*
thread writes what arrives there.  All queues are bounded FIFO channels: a send waits while the
queue is full and fails once the receiver is gone, a receive waits while the queue is empty and
ends once all senders are gone, and a thread that returns drops its queue ends.

A thread returns without an error, with an error or by a panic, and drops its queue ends in any
case.  `Step` interleaves the threads in any order and lets any write fail.  `Wired` is the
invariant that ties the queues to what went through them, and `Wired.consumed` is what it says once
the workers and the sink have returned without an error.
-/

namespace GarudaCodec.Foundation.Pipeline

open GarudaCodec.Foundation.Lanes

variable {ι σ α ω β : Type*}

/-- How a thread returned. -/
inductive Exit where
  | ok
  | failed
  | panicked
deriving DecidableEq, Repr

/-- The control state of a thread: in its loop, with the items it still has to hand on, or
    returned. -/
inductive Phase (γ : Type*) where
  | running (held : List γ)
  | ended (exit : Exit)

/-- What a successful or unsuccessful fetch leaves behind. -/
inductive Fetch (σ α : Type*) where
  | item (value : α) (source : σ)
  | stop (exit : Exit) (source : σ)

/-- What a worker makes of an item: its next state and its outputs, an error or a panic. -/
inductive Worked (ω β : Type*) where
  | outputs (worker : ω) (out : List β)
  | failed
  | panicked

/-- The code of the three kinds of threads.  `fetch` is one iteration of the source's loop up to
    the send (`none` while its read blocks); `work` is one iteration of a worker's loop up to
    the sends. -/
structure Program (ι σ α ω β : Type*) where
  fetch : σ → Option (Fetch σ α)
  route : α → ι
  work : ω → α → Worked ω β
  capacity : Nat
  capacity_pos : 0 < capacity

/-- The state of a pipeline.  The last three fields are history: no step reads them. -/
structure State (ι σ α ω β : Type*) where
  source : σ
  sourcePhase : Phase α
  queues : ι → List α
  workers : ι → ω
  workerPhases : ι → Phase β
  shared : List β
  sinkPhase : Phase β
  written : List β
  /-- All items the source has sent, to any queue. -/
  sent : List α
  /-- All items a worker has taken from its queue and processed. -/
  received : ι → List α
  /-- All outputs that entered the shared queue, with the worker that sent them. -/
  merged : List (ι × β)

/-- All threads started, all queues empty. -/
def State.start (source : σ) (workers : ι → ω) : State ι σ α ω β where
  source := source
  sourcePhase := .running []
  queues := fun _ => []
  workers := workers
  workerPhases := fun _ => .running []
  shared := []
  sinkPhase := .running []
  written := []
  sent := []
  received := fun _ => []
  merged := []

/-- A step of one thread. -/
inductive Step [DecidableEq ι] (program : Program ι σ α ω β) :
    State ι σ α ω β → State ι σ α ω β → Prop
  | fetchItem {s value source} :
      s.sourcePhase = .running [] → program.fetch s.source = some (.item value source) →
      Step program s { s with source := source, sourcePhase := .running [value] }
  | fetchStop {s exit source} :
      s.sourcePhase = .running [] → program.fetch s.source = some (.stop exit source) →
      Step program s { s with source := source, sourcePhase := .ended exit }
  | sourceSend {s value held} :
      s.sourcePhase = .running [value] → s.workerPhases (program.route value) = .running held →
      (s.queues (program.route value)).length < program.capacity →
      Step program s { s with
        sourcePhase := .running []
        queues := Function.update s.queues (program.route value)
          (s.queues (program.route value) ++ [value])
        sent := s.sent ++ [value] }
  -- the receiver of the queue is gone: `send` returns an error, and so does the source
  | sourceSendFail {s value exit} :
      s.sourcePhase = .running [value] → s.workerPhases (program.route value) = .ended exit →
      Step program s { s with sourcePhase := .ended .failed }
  | workerReceive {s key value queue worker out} :
      s.workerPhases key = .running [] → s.queues key = value :: queue →
      program.work (s.workers key) value = .outputs worker out →
      Step program s { s with
        queues := Function.update s.queues key queue
        workers := Function.update s.workers key worker
        workerPhases := Function.update s.workerPhases key (.running out)
        received := Function.update s.received key (s.received key ++ [value]) }
  | workerFail {s key value queue} :
      s.workerPhases key = .running [] → s.queues key = value :: queue →
      program.work (s.workers key) value = .failed →
      Step program s { s with
        workerPhases := Function.update s.workerPhases key (.ended .failed) }
  | workerPanic {s key value queue} :
      s.workerPhases key = .running [] → s.queues key = value :: queue →
      program.work (s.workers key) value = .panicked →
      Step program s { s with
        workerPhases := Function.update s.workerPhases key (.ended .panicked) }
  | workerSend {s key output pending held} :
      s.workerPhases key = .running (output :: pending) → s.sinkPhase = .running held →
      s.shared.length < program.capacity →
      Step program s { s with
        workerPhases := Function.update s.workerPhases key (.running pending)
        shared := s.shared ++ [output]
        merged := s.merged ++ [(key, output)] }
  | workerSendFail {s key output pending exit} :
      s.workerPhases key = .running (output :: pending) → s.sinkPhase = .ended exit →
      Step program s { s with
        workerPhases := Function.update s.workerPhases key (.ended .failed) }
  -- the queue is empty and its only sender is gone: the worker's loop is over
  | workerFinish {s key exit} :
      s.workerPhases key = .running [] → s.queues key = [] → s.sourcePhase = .ended exit →
      Step program s { s with
        workerPhases := Function.update s.workerPhases key (.ended .ok) }
  | sinkReceive {s output shared} :
      s.sinkPhase = .running [] → s.shared = output :: shared →
      Step program s { s with sinkPhase := .running [output], shared := shared }
  | sinkWrite {s output} :
      s.sinkPhase = .running [output] →
      Step program s { s with sinkPhase := .running [], written := s.written ++ [output] }
  | sinkWriteFail {s output} :
      s.sinkPhase = .running [output] →
      Step program s { s with sinkPhase := .ended .failed }
  | sinkFinish {s} :
      s.sinkPhase = .running [] → s.shared = [] →
      (∀ key, ∃ exit, s.workerPhases key = .ended exit) →
      Step program s { s with sinkPhase := .ended .ok }

/-- The states some schedule leads to. -/
abbrev Reachable [DecidableEq ι] (program : Program ι σ α ω β) :
    State ι σ α ω β → State ι σ α ω β → Prop :=
  Relation.ReflTransGen (Step program)

/-- Every thread has returned, with or without an error, so that joining them all succeeds. -/
structure AllEnded (s : State ι σ α ω β) : Prop where
  source : ∃ exit, s.sourcePhase = .ended exit
  workers : ∀ key, ∃ exit, s.workerPhases key = .ended exit
  sink : ∃ exit, s.sinkPhase = .ended exit

/-- Every thread has returned without an error. -/
structure Drained (s : State ι σ α ω β) : Prop where
  source : s.sourcePhase = .ended .ok
  workers : ∀ key, s.workerPhases key = .ended .ok
  sink : s.sinkPhase = .ended .ok

/-- The source's loop on its own, while every send succeeds: what it sends and how it returns. -/
inductive Program.Dispatches (program : Program ι σ α ω β) : σ → List α → Exit → Prop
  | stop {source exit next} : program.fetch source = some (.stop exit next) →
      program.Dispatches source [] exit
  | item {source value next values exit} : program.fetch source = some (.item value next) →
      program.Dispatches next values exit → program.Dispatches source (value :: values) exit

/-- The loop on its own is deterministic. -/
theorem Program.dispatches_stop {program : Program ι σ α ω β} {source next : σ} {exit : Exit}
    (fetched : program.fetch source = some (.stop exit next)) {values : List α} {other : Exit} :
    program.Dispatches source values other ↔ values = [] ∧ other = exit := by
  constructor
  · intro dispatches
    cases dispatches with
    | stop stopped =>
      rw [fetched] at stopped
      cases stopped
      exact ⟨rfl, rfl⟩
    | item went =>
      rw [fetched] at went
      cases went
  · rintro ⟨rfl, rfl⟩
    exact .stop fetched

theorem Program.dispatches_item {program : Program ι σ α ω β} {source next : σ} {value : α}
    (fetched : program.fetch source = some (.item value next)) {values : List α} {exit : Exit} :
    program.Dispatches source values exit ↔
      ∃ rest, values = value :: rest ∧ program.Dispatches next rest exit := by
  constructor
  · intro dispatches
    cases dispatches with
    | stop stopped =>
      rw [fetched] at stopped
      cases stopped
    | item went later =>
      rw [fetched] at went
      cases went
      exact ⟨_, rfl, later⟩
  · rintro ⟨rest, rfl, later⟩
    exact .item fetched later

theorem Drained.allEnded {s : State ι σ α ω β} (drained : Drained s) : AllEnded s :=
  ⟨⟨_, drained.source⟩, fun key => ⟨_, drained.workers key⟩, ⟨_, drained.sink⟩⟩

/-! ## A worker's loop on its own -/

/-- A worker's loop over a whole list of items: its final state and everything it sent. -/
def Program.run (program : Program ι σ α ω β) : ω → List α → Option (ω × List β)
  | worker, [] => some (worker, [])
  | worker, item :: items =>
    match program.work worker item with
    | .failed | .panicked => none
    | .outputs worker out =>
      match program.run worker items with
      | none => none
      | some (worker, outs) => some (worker, out ++ outs)

@[simp] theorem run_nil (program : Program ι σ α ω β) (worker : ω) :
    program.run worker [] = some (worker, []) := rfl

theorem run_append (program : Program ι σ α ω β) {worker mid : ω} {front : List α}
    {frontOut : List β} (ran : program.run worker front = some (mid, frontOut)) (back : List α) :
    program.run worker (front ++ back) =
      (program.run mid back).map (fun result => (result.1, frontOut ++ result.2)) := by
  induction front generalizing worker frontOut with
  | nil =>
    obtain ⟨rfl, rfl⟩ : worker = mid ∧ [] = frontOut := by simpa [Program.run] using ran
    simp
  | cons item front inductionHypothesis =>
    simp only [Program.run, List.cons_append] at ran ⊢
    cases worked : program.work worker item with
    | failed | panicked => simp [worked] at ran
    | outputs next out =>
      simp only [worked] at ran ⊢
      cases rest : program.run next front with
      | none => simp [rest] at ran
      | some result =>
        obtain ⟨last, outs⟩ := result
        simp only [rest, Option.some.injEq, Prod.mk.injEq] at ran
        obtain ⟨rfl, rfl⟩ := ran
        rw [inductionHypothesis rest]
        cases program.run last back <;> simp [List.append_assoc]

theorem run_concat (program : Program ι σ α ω β) {worker mid next : ω} {front : List α}
    {frontOut out : List β} {item : α}
    (ran : program.run worker front = some (mid, frontOut))
    (worked : program.work mid item = .outputs next out) :
    program.run worker (front ++ [item]) = some (next, frontOut ++ out) := by
  simp [run_append program ran, Program.run, worked]

/-! ## The invariant -/

variable [DecidableEq ι]

/-- `rest` is what a thread in this phase still has to hand on; a thread that failed or panicked
    may have dropped anything. -/
def Phase.Holds {γ : Type*} : Phase γ → List γ → Prop
  | .running held, rest => rest = held
  | .ended .ok, rest => rest = []
  | .ended .failed, _ => True
  | .ended .panicked, _ => True

/-- Nothing is lost, duplicated or reordered between the threads. -/
structure Wired (program : Program ι σ α ω β) (workers : ι → ω) (s : State ι σ α ω β) :
    Prop where
  queued : ∀ key, s.sent.filter (fun item => program.route item = key) =
    s.received key ++ s.queues key
  worked : ∀ key, ∃ rest,
    program.run (workers key) (s.received key) =
      some (s.workers key, lane s.merged key ++ rest) ∧
    (s.workerPhases key).Holds rest
  forwarded : ∃ rest, s.merged.map Prod.snd = s.written ++ rest ++ s.shared ∧
    s.sinkPhase.Holds rest
  workerDone : ∀ key, s.workerPhases key = .ended .ok →
    (∃ exit, s.sourcePhase = .ended exit) ∧ s.queues key = []
  sinkDone : s.sinkPhase = .ended .ok →
    (∀ key, ∃ exit, s.workerPhases key = .ended exit) ∧ s.shared = []

theorem Wired.start (program : Program ι σ α ω β) (source : σ) (workers : ι → ω) :
    Wired program workers (State.start source workers) where
  queued := fun _ => rfl
  worked := fun _ => ⟨[], rfl, rfl⟩
  forwarded := ⟨[], rfl, rfl⟩
  workerDone := fun _ ended => nomatch ended
  sinkDone := fun ended => nomatch ended

/-- The invariant does not depend on the source's own state. -/
theorem Wired.with_source {program : Program ι σ α ω β} {workers : ι → ω} {s : State ι σ α ω β}
    (wired : Wired program workers s) (source : σ) :
    Wired program workers { s with source := source } :=
  ⟨wired.queued, wired.worked, wired.forwarded, wired.workerDone, wired.sinkDone⟩

section StepLemmas

variable {program : Program ι σ α ω β} {workers : ι → ω} {s : State ι σ α ω β}

/-- A worker ends normally only after the source, so none has while the source runs. -/
theorem Wired.not_done_of_source (wired : Wired program workers s) {held : List α}
    (running : s.sourcePhase = .running held) (key : ι) : s.workerPhases key ≠ .ended .ok := by
  intro ended
  obtain ⟨⟨exit, sourceEnded⟩, _⟩ := wired.workerDone key ended
  rw [running] at sourceEnded
  cases sourceEnded

/-- The sink ends normally only after all workers, so it has not while one runs. -/
theorem Wired.not_done_of_worker (wired : Wired program workers s) {key : ι} {held : List β}
    (running : s.workerPhases key = .running held) : s.sinkPhase ≠ .ended .ok := by
  intro ended
  obtain ⟨exit, workerEnded⟩ := (wired.sinkDone ended).1 key
  rw [running] at workerEnded
  cases workerEnded

theorem Wired.queued_send (wired : Wired program workers s) (value : α) (key : ι) :
    (s.sent ++ [value]).filter (fun item => program.route item = key) =
      s.received key ++ Function.update s.queues (program.route value)
        (s.queues (program.route value) ++ [value]) key := by
  rw [List.filter_append, wired.queued key]
  by_cases same : key = program.route value
  · subst same
    simp
  · simp [Function.update_of_ne same, Ne.symm same]

theorem Wired.queued_receive (wired : Wired program workers s) {key : ι} {value : α}
    {queue : List α} (front : s.queues key = value :: queue) (other : ι) :
    s.sent.filter (fun item => program.route item = other) =
      Function.update s.received key (s.received key ++ [value]) other ++
        Function.update s.queues key queue other := by
  rw [wired.queued other]
  by_cases same : other = key
  · subst same
    simp [front]
  · simp [Function.update_of_ne same]

theorem Wired.worked_receive (wired : Wired program workers s) {key : ι} {value : α}
    {worker : ω} {out : List β} (idle : s.workerPhases key = .running [])
    (worked : program.work (s.workers key) value = .outputs worker out) (other : ι) :
    ∃ rest, program.run (workers other)
        (Function.update s.received key (s.received key ++ [value]) other) =
          some (Function.update s.workers key worker other, lane s.merged other ++ rest) ∧
      Phase.Holds (Function.update s.workerPhases key (.running out) other) rest := by
  by_cases same : other = key
  · subst same
    obtain ⟨rest, ran, holds⟩ := wired.worked other
    rw [idle] at holds
    cases holds
    exact ⟨out, by simpa using run_concat program ran worked, by simp [Phase.Holds]⟩
  · simpa [Function.update_of_ne same] using wired.worked other

theorem Wired.worked_send (wired : Wired program workers s) {key : ι} {output : β}
    {pending : List β} (busy : s.workerPhases key = .running (output :: pending)) (other : ι) :
    ∃ rest, program.run (workers other) (s.received other) =
        some (s.workers other, lane (s.merged ++ [(key, output)]) other ++ rest) ∧
      Phase.Holds (Function.update s.workerPhases key (.running pending) other) rest := by
  obtain ⟨rest, ran, holds⟩ := wired.worked other
  by_cases same : other = key
  · subst same
    rw [busy] at holds
    cases holds
    exact ⟨pending, by simpa using ran, by simp [Phase.Holds]⟩
  · exact ⟨rest, by simpa [Ne.symm same] using ran,
      by simpa [Function.update_of_ne same] using holds⟩

theorem Wired.worked_end (wired : Wired program workers s) {key : ι} {exit : Exit}
    (allowed : exit = .ok → s.workerPhases key = .running []) (other : ι) :
    ∃ rest, program.run (workers other) (s.received other) =
        some (s.workers other, lane s.merged other ++ rest) ∧
      Phase.Holds (Function.update s.workerPhases key (.ended exit) other) rest := by
  obtain ⟨rest, ran, holds⟩ := wired.worked other
  refine ⟨rest, ran, ?_⟩
  by_cases same : other = key
  · subst same
    cases exit with
    | failed | panicked => simp [Phase.Holds]
    | ok =>
      rw [allowed rfl] at holds
      simpa [Phase.Holds] using holds
  · simpa [Function.update_of_ne same] using holds

/-- A worker that was put into another phase is not newly done unless that phase says so. -/
theorem Wired.workerDone_update (wired : Wired program workers s) {key : ι} {phase : Phase β}
    (notDone : phase ≠ .ended .ok) (other : ι)
    (ended : Function.update s.workerPhases key phase other = .ended .ok) :
    other ≠ key ∧ (∃ exit, s.sourcePhase = .ended exit) ∧ s.queues other = [] := by
  have different : other ≠ key := by
    rintro rfl
    exact notDone (by simpa using ended)
  rw [Function.update_of_ne different] at ended
  exact ⟨different, wired.workerDone other ended⟩

theorem Wired.step {s' : State ι σ α ω β} (wired : Wired program workers s)
    (step : Step program s s') : Wired program workers s' := by
  cases step with
  | fetchItem idle _ =>
    exact { wired with
      workerDone := fun key ended => absurd ended (wired.not_done_of_source idle key) }
  | fetchStop idle _ =>
    exact { wired with
      workerDone := fun key ended => absurd ended (wired.not_done_of_source idle key) }
  -- the item moves from the source to the end of its queue
  | sourceSend busy _ _ =>
    exact { wired with
      queued := wired.queued_send _
      workerDone := fun key ended => absurd ended (wired.not_done_of_source busy key) }
  | sourceSendFail busy _ =>
    exact { wired with
      workerDone := fun key ended => absurd ended (wired.not_done_of_source busy key) }
  -- the item moves from the front of the queue to what the worker has received
  | workerReceive idle front worked =>
    exact { wired with
      queued := wired.queued_receive front
      worked := wired.worked_receive idle worked
      workerDone := fun other ended => by
        obtain ⟨different, sourceEnded, empty⟩ :=
          wired.workerDone_update (by simp) other ended
        exact ⟨sourceEnded, by simpa [Function.update_of_ne different] using empty⟩
      sinkDone := fun ended => absurd ended (wired.not_done_of_worker idle) }
  -- a worker that failed or panicked promises nothing about what it still held
  | workerFail idle _ _ | workerPanic idle _ _ =>
    exact { wired with
      worked := wired.worked_end nofun
      workerDone := fun other ended => (wired.workerDone_update (by simp) other ended).2
      sinkDone := fun ended => absurd ended (wired.not_done_of_worker idle) }
  -- the output moves from what the worker holds to its lane and to the shared queue
  | workerSend busy _ _ =>
    obtain ⟨rest, flows, holds⟩ := wired.forwarded
    exact { wired with
      worked := wired.worked_send busy
      forwarded := ⟨rest, by simp [flows], holds⟩
      workerDone := fun other ended => (wired.workerDone_update (by simp) other ended).2
      sinkDone := fun ended => absurd ended (wired.not_done_of_worker busy) }
  | workerSendFail busy _ =>
    exact { wired with
      worked := wired.worked_end nofun
      workerDone := fun other ended => (wired.workerDone_update (by simp) other ended).2
      sinkDone := fun ended => absurd ended (wired.not_done_of_worker busy) }
  -- the only step that makes a worker done, and it is taken on an empty queue
  | @workerFinish key exit idle empty sourceEnded =>
    exact { wired with
      worked := wired.worked_end fun _ => idle
      workerDone := fun other ended => by
        by_cases same : other = key
        · subst same
          exact ⟨⟨exit, sourceEnded⟩, empty⟩
        · have unchanged : s.workerPhases other = .ended .ok := by
            simpa [Function.update_of_ne same] using ended
          exact wired.workerDone other unchanged
      sinkDone := fun ended => absurd ended (wired.not_done_of_worker idle) }
  -- the sink's steps move an output through its hands; the workers are not concerned
  | @sinkReceive output shared idle front =>
    obtain ⟨rest, flows, holds⟩ := wired.forwarded
    rw [idle] at holds
    cases holds
    exact { wired with
      forwarded := ⟨[output], by simp [flows, front], rfl⟩
      sinkDone := nofun }
  | sinkWrite busy =>
    obtain ⟨rest, flows, holds⟩ := wired.forwarded
    rw [busy] at holds
    cases holds
    exact { wired with
      forwarded := ⟨[], by simp [flows], rfl⟩
      sinkDone := nofun }
  | sinkWriteFail busy =>
    obtain ⟨rest, flows, _⟩ := wired.forwarded
    exact { wired with
      forwarded := ⟨rest, flows, trivial⟩
      sinkDone := nofun }
  -- the only step that makes the sink done, taken after all workers have ended
  | sinkFinish idle empty ended =>
    obtain ⟨rest, flows, holds⟩ := wired.forwarded
    rw [idle] at holds
    exact { wired with
      forwarded := ⟨rest, flows, holds⟩
      sinkDone := fun _ => ⟨ended, empty⟩ }

theorem Wired.reachable {s' : State ι σ α ω β} (wired : Wired program workers s)
    (reachable : Reachable program s s') : Wired program workers s' := by
  induction reachable with
  | refl => exact wired
  | tail _ step inductionHypothesis => exact inductionHypothesis.step step

/-! ## The source thread on its own -/

/-- The moves of the source thread, on its own state, its phase and what it has sent. -/
inductive SourceMove (program : Program ι σ α ω β) :
    σ × Phase α × List α → σ × Phase α × List α → Prop
  | fetched {source value next sent} : program.fetch source = some (.item value next) →
      SourceMove program (source, .running [], sent) (next, .running [value], sent)
  | stopped {source exit next sent} : program.fetch source = some (.stop exit next) →
      SourceMove program (source, .running [], sent) (next, .ended exit, sent)
  | sent {source value sent} :
      SourceMove program (source, .running [value], sent)
        (source, .running [], sent ++ [value])
  | refused {source value sent} :
      SourceMove program (source, .running [value], sent) (source, .ended .failed, sent)

/-- The part of a state that only the source thread changes. -/
def State.sourceView (s : State ι σ α ω β) : σ × Phase α × List α :=
  (s.source, s.sourcePhase, s.sent)

theorem Step.source_view {s' : State ι σ α ω β} (step : Step program s s') :
    s'.sourceView = s.sourceView ∨ SourceMove program s.sourceView s'.sourceView := by
  cases step with
  | fetchItem idle fetched =>
    simp only [State.sourceView, idle]
    exact Or.inr (.fetched fetched)
  | fetchStop idle fetched =>
    simp only [State.sourceView, idle]
    exact Or.inr (.stopped fetched)
  | sourceSend busy _ _ =>
    simp only [State.sourceView, busy]
    exact Or.inr .sent
  | sourceSendFail busy _ =>
    simp only [State.sourceView, busy]
    exact Or.inr .refused
  -- the other threads do not touch the source's part
  | workerReceive | workerFail | workerPanic | workerSend | workerSendFail | workerFinish
  | sinkReceive | sinkWrite | sinkWriteFail | sinkFinish => exact Or.inl rfl

/-- A property of the source thread that its own moves keep is kept by every step. -/
theorem Step.source_invariant {property : σ × Phase α × List α → Prop}
    (keeps : ∀ {view view'}, SourceMove program view view' → property view → property view')
    {s' : State ι σ α ω β} (step : Step program s s') (holds : property s.sourceView) :
    property s'.sourceView := by
  rcases step.source_view with unchanged | move
  · rwa [unchanged]
  · exact keeps move holds

theorem Step.written_prefix {s' : State ι σ α ω β} (step : Step program s s') :
    s.written <+: s'.written := by
  cases step with
  | sinkWrite => exact List.prefix_append _ _
  | fetchItem | fetchStop | sourceSend | sourceSendFail | workerReceive | workerFail
  | workerPanic | workerSend | workerSendFail | workerFinish | sinkReceive | sinkWriteFail
  | sinkFinish =>
    exact List.prefix_rfl

/-! ## What the invariant gives -/

/-- What a worker has sent comes from the start of the items the source sent to it. -/
theorem Wired.received_prefix (wired : Wired program workers s) (key : ι) :
    s.received key <+: s.sent.filter (fun item => program.route item = key) :=
  wired.queued key ▸ List.prefix_append _ _

theorem Wired.written_prefix (wired : Wired program workers s) :
    s.written <+: s.merged.map Prod.snd := by
  obtain ⟨rest, flows, _⟩ := wired.forwarded
  rw [flows, List.append_assoc]
  exact List.prefix_append _ _

/-- Nothing is left in the queues: every worker has handled all items routed to it, and the sink
    has written the merge of their outputs. -/
structure Consumed (program : Program ι σ α ω β) (workers : ι → ω) (s : State ι σ α ω β) :
    Prop where
  queues : ∀ key, s.queues key = []
  shared : s.shared = []
  received : ∀ key, s.received key = s.sent.filter (fun item => program.route item = key)
  worked : ∀ key, program.run (workers key) (s.received key) =
    some (s.workers key, lane s.merged key)
  written : s.written = s.merged.map Prod.snd

/-- However the source returned, nothing is left once the others have returned without an
    error. -/
theorem Wired.consumed (wired : Wired program workers s)
    (workersEnded : ∀ key, s.workerPhases key = .ended .ok) (sinkEnded : s.sinkPhase = .ended .ok) :
    Consumed program workers s := by
  have queues : ∀ key, s.queues key = [] := fun key => (wired.workerDone key (workersEnded key)).2
  have shared : s.shared = [] := (wired.sinkDone sinkEnded).2
  refine ⟨queues, shared, ?_, ?_, ?_⟩
  · intro key
    rw [wired.queued key, queues key, List.append_nil]
  · intro key
    obtain ⟨rest, ran, holds⟩ := wired.worked key
    rw [workersEnded key] at holds
    cases holds
    simpa using ran
  · obtain ⟨rest, flows, holds⟩ := wired.forwarded
    rw [sinkEnded] at holds
    cases holds
    simpa [shared] using flows.symm

end StepLemmas

end GarudaCodec.Foundation.Pipeline
