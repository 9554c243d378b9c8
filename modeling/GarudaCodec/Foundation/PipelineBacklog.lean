import GarudaCodec.Foundation.PipelineBounds

/-! # Runs in which items pile up

The bounds on what a pipeline holds are reached where a thread stands still.  Before a sink that is
busy everything fills up (`exists_backedUp`); behind a worker that is busy its queue fills
up, and the items of the other workers overtake it (`Lagging.exists_overtaken`).
-/

namespace GarudaCodec.Foundation.Pipeline

variable {ι σ α ω β : Type*}

/-- The source fetches the next one of the items it dispatches. -/
theorem Program.Dispatches.fetches {program : Program ι σ α ω β} {source : σ} {value : α}
    {values : List α} {exit : Exit}
    (dispatches : program.Dispatches source (value :: values) exit) :
    ∃ next, program.fetch source = some (.item value next) ∧
      program.Dispatches next values exit := by
  cases dispatches with
  | item fetched later => exact ⟨_, fetched, later⟩

variable [DecidableEq ι] {program : Program ι σ α ω β} {s : State ι σ α ω β} {key : ι}

/-! ## A sink that stands still -/

/-- The source goes on until the queue of a worker is full. -/
theorem exists_filled {values rest : List α} {exit : Exit} {held : List β}
    (source : s.sourcePhase = .running [])
    (dispatches : program.Dispatches s.source (values ++ rest) exit)
    (routed : ∀ value ∈ values, program.route value = key)
    (running : s.workerPhases key = .running held)
    (room : (s.queues key).length + values.length ≤ program.capacity) :
    ∃ next, program.Dispatches next rest exit ∧ Reachable program s { s with
      source := next
      queues := Function.update s.queues key (s.queues key ++ values)
      sent := s.sent ++ values } := by
  induction values generalizing s with
  | nil => exact ⟨s.source, dispatches, by simpa using Relation.ReflTransGen.refl⟩
  | cons value values inductionHypothesis =>
    obtain ⟨next, fetched, later⟩ := dispatches.fetches
    obtain ⟨toKey, others⟩ := List.forall_mem_cons.mp routed
    rw [List.length_cons] at room
    subst toKey
    have queued := reachable_queues source fetched running (by omega)
    obtain ⟨last, remains, filled⟩ := inductionHypothesis (s := { s with
        source := next
        queues := Function.update s.queues (program.route value)
          (s.queues (program.route value) ++ [value])
        sent := s.sent ++ [value] }) source later others running
      (by simp only [Function.update_self, List.length_append, List.length_singleton]; omega)
    simp only [Function.update_idem, Function.update_self, List.append_assoc,
      List.singleton_append] at filled
    exact ⟨last, remains, queued.trans filled⟩

/-- A worker hands its outputs on to the shared queue while the sink is busy. -/
theorem reachable_stores {out held : List β} (busy : s.workerPhases key = .running out)
    (sink : s.sinkPhase = .running held)
    (room : s.shared.length + out.length ≤ program.capacity) :
    Reachable program s { s with
      workerPhases := Function.update s.workerPhases key (.running [])
      shared := s.shared ++ out
      merged := s.merged ++ out.map fun output => (key, output) } := by
  induction out generalizing s with
  | nil =>
    rw [← busy, Function.update_eq_self]
    simpa using Relation.ReflTransGen.refl
  | cons output out inductionHypothesis =>
    rw [List.length_cons] at room
    have send : Step program s { s with
        workerPhases := Function.update s.workerPhases key (.running out)
        shared := s.shared ++ [output]
        merged := s.merged ++ [(key, output)] } := .workerSend busy sink (by omega)
    have rest := inductionHypothesis (s := { s with
        workerPhases := Function.update s.workerPhases key (.running out)
        shared := s.shared ++ [output]
        merged := s.merged ++ [(key, output)] }) (Function.update_self _ _ _) sink
      (by rw [List.length_append, List.length_singleton]; omega)
    simp only [Function.update_idem, List.append_assoc, List.singleton_append] at rest
    exact .head send rest

/-- Items pass their worker one by one until the shared queue is full. -/
theorem exists_stored {values rest : List α} {exit : Exit} {worker : ω} {outs held : List β}
    (source : s.sourcePhase = .running [])
    (dispatches : program.Dispatches s.source (values ++ rest) exit)
    (routed : ∀ value ∈ values, program.route value = key)
    (idle : s.workerPhases key = .running []) (empty : s.queues key = [])
    (sink : s.sinkPhase = .running held)
    (ran : program.run (s.workers key) values = some (worker, outs))
    (room : s.shared.length + outs.length ≤ program.capacity) :
    ∃ next, program.Dispatches next rest exit ∧ Reachable program s { s with
      source := next
      workers := Function.update s.workers key worker
      shared := s.shared ++ outs
      sent := s.sent ++ values
      received := Function.update s.received key (s.received key ++ values)
      merged := s.merged ++ outs.map fun output => (key, output) } := by
  induction values generalizing s outs with
  | nil =>
    obtain ⟨rfl, rfl⟩ : s.workers key = worker ∧ [] = outs := by simpa using ran
    exact ⟨s.source, dispatches, by simpa using Relation.ReflTransGen.refl⟩
  | cons value values inductionHypothesis =>
    obtain ⟨next, fetched, later⟩ := dispatches.fetches
    obtain ⟨toKey, others⟩ := List.forall_mem_cons.mp routed
    subst toKey
    cases worked : program.work (s.workers (program.route value)) value with
    | failed | panicked => simp [Program.run, worked] at ran
    | outputs mid out =>
      simp only [Program.run, worked] at ran
      split at ran
      next => cases ran
      next last more ranMore =>
        cases ran
        rw [List.length_append] at room
        have taken := reachable_takes source fetched idle empty worked
        have stores : Reachable program { s with
            source := next
            workers := Function.update s.workers (program.route value) mid
            workerPhases := Function.update s.workerPhases (program.route value) (.running out)
            sent := s.sent ++ [value]
            received := Function.update s.received (program.route value)
              (s.received (program.route value) ++ [value]) } _ :=
          reachable_stores (Function.update_self _ _ _) sink (by simp only; omega)
        simp only [Function.update_idem, ← idle, Function.update_eq_self] at stores
        obtain ⟨final, remains, rest⟩ := inductionHypothesis (s := { s with
            source := next
            workers := Function.update s.workers (program.route value) mid
            shared := s.shared ++ out
            sent := s.sent ++ [value]
            received := Function.update s.received (program.route value)
              (s.received (program.route value) ++ [value])
            merged := s.merged ++ out.map fun output => (program.route value, output) })
          source later others idle empty sink (by simpa using ranMore)
          (by simp only [List.length_append]; omega)
        simp only [Function.update_idem, Function.update_self, List.append_assoc,
          List.singleton_append, ← List.map_append] at rest
        exact ⟨final, remains, (taken.trans stores).trans rest⟩

/-- The sink is busy with its first output while a worker goes on storing others. -/
structure Storing (s : State ι σ α ω β) (key : ι) (worker : ω) (taken : List α) (stored : List β)
    (output : β) : Prop where
  source : s.sourcePhase = .running []
  sent : s.sent = taken
  received : s.received key = taken
  queue : s.queues key = []
  worker : s.workers key = worker
  phase : s.workerPhases key = .running []
  shared : s.shared = stored
  sink : s.sinkPhase = .running [output]
  written : s.written = []

/-- Everything before a sink that does not get on is full: the worker has outputs left to hand on,
    its queue holds items, and the source has one more in hand. -/
structure BackedUp (s : State ι σ α ω β) (key : ι) (taken : List α) (pending : List β)
    (queued : List α) (held : α) (stored : List β) (output : β) : Prop where
  source : s.sourcePhase = .running [held]
  sent : s.sent = taken ++ queued
  received : s.received key = taken
  queue : s.queues key = queued
  worker : s.workerPhases key = .running pending
  shared : s.shared = stored
  sink : s.sinkPhase = .running [output]
  written : s.written = []

theorem exists_storing {source : σ} (workers : ι → ω) {first rest : List α} {exit : Exit}
    {worker : ω} {output : β} {more : List β}
    (dispatches : program.Dispatches source (first ++ rest) exit)
    (routed : ∀ value ∈ first, program.route value = key)
    (ran : program.run (workers key) first = some (worker, output :: more))
    (fits : (output :: more).length ≤ program.capacity) :
    ∃ s, Reachable program (State.start source workers) s ∧
      program.Dispatches s.source rest exit ∧ Storing s key worker first more output := by
  obtain ⟨next, remains, stores⟩ := exists_stored (s := State.start source workers) rfl
    dispatches routed rfl rfl rfl ran (by simpa [State.start] using fits)
  refine ⟨_, stores.tail (.sinkReceive rfl rfl), remains, ?_⟩
  exact ⟨rfl, rfl, by simp [State.start], rfl, by simp, rfl, rfl, rfl, rfl⟩

theorem Storing.goes_on {worker next : ω} {taken values rest : List α} {stored outs : List β}
    {output : β} {exit : Exit} (storing : Storing s key worker taken stored output)
    (dispatches : program.Dispatches s.source (values ++ rest) exit)
    (routed : ∀ value ∈ values, program.route value = key)
    (ran : program.run worker values = some (next, outs))
    (room : (stored ++ outs).length ≤ program.capacity) :
    ∃ s', Reachable program s s' ∧ program.Dispatches s'.source rest exit ∧
      Storing s' key next (taken ++ values) (stored ++ outs) output := by
  obtain ⟨source, sent, received, queue, rfl, phase, rfl, sink, written⟩ := storing
  obtain ⟨last, remains, stores⟩ := exists_stored source dispatches routed phase queue sink ran
    (by rwa [← List.length_append])
  refine ⟨_, stores, remains, ?_⟩
  exact ⟨source, by simp [sent], by simp [received], queue, by simp, phase, rfl, sink, written⟩

/-- Then the worker takes one item more, its queue fills up, and the source waits for room. -/
theorem Storing.exists_backedUp {worker next : ω} {taken queued rest : List α} {current held : α}
    {stored pending : List β} {output : β} {exit : Exit}
    (storing : Storing s key worker taken stored output)
    (dispatches : program.Dispatches s.source (current :: (queued ++ held :: rest)) exit)
    (routed : ∀ value ∈ current :: queued, program.route value = key)
    (worked : program.work worker current = .outputs next pending)
    (room : queued.length ≤ program.capacity) :
    ∃ s', Reachable program s s' ∧
      BackedUp s' key (taken ++ [current]) pending queued held stored output := by
  obtain ⟨source, sent, received, queue, rfl, phase, rfl, sink, written⟩ := storing
  obtain ⟨toKey, others⟩ := List.forall_mem_cons.mp routed
  subst toKey
  obtain ⟨_, fetched, later⟩ := dispatches.fetches
  have takes := reachable_takes source fetched phase queue worked
  obtain ⟨_, remains, fills⟩ := exists_filled (s := { s with
      source := _
      workers := Function.update s.workers (program.route current) next
      workerPhases := Function.update s.workerPhases (program.route current) (.running pending)
      sent := s.sent ++ [current]
      received := Function.update s.received (program.route current)
        (s.received (program.route current) ++ [current]) }) source later others
    (Function.update_self _ _ _) (by simpa [queue] using room)
  obtain ⟨_, lastFetched, -⟩ := remains.fetches
  refine ⟨_, (takes.trans fills).tail (.fetchItem source lastFetched), ?_⟩
  exact ⟨rfl, by simp [sent], by simp [received], by simp [queue], by simp, rfl, sink, written⟩

/-- A worker that gets all items fills up everything before the sink: with the outputs of some first
    items the sink gets busy, those of the items behind them fill the shared queue, and one item
    more keeps the worker busy. -/
theorem exists_backedUp {source : σ} (workers : ι → ω) {first middle queued rest : List α}
    {current held : α} {begun next last : ω} {output : β} {more stored pending : List β}
    {exit : Exit}
    (dispatches : program.Dispatches source
      (first ++ (middle ++ current :: (queued ++ held :: rest))) exit)
    (routed : ∀ value, program.route value = key)
    (begins : program.run (workers key) first = some (begun, output :: more))
    (goesOn : program.run begun middle = some (next, stored))
    (worked : program.work next current = .outputs last pending)
    (fits : (output :: more).length ≤ program.capacity)
    (room : (more ++ stored).length ≤ program.capacity)
    (few : queued.length ≤ program.capacity) :
    ∃ s, Reachable program (State.start source workers) s ∧
      BackedUp s key (first ++ middle ++ [current]) pending queued held (more ++ stored)
        output := by
  obtain ⟨_, started, remains, storing⟩ :=
    exists_storing workers dispatches (fun value _ => routed value) begins fits
  obtain ⟨_, stores, remains, storing⟩ :=
    storing.goes_on remains (fun value _ => routed value) goesOn room
  obtain ⟨s, fills, backedUp⟩ :=
    storing.exists_backedUp remains (fun value _ => routed value) worked few
  exact ⟨s, (started.trans stores).trans fills, backedUp⟩

omit [DecidableEq ι] in
/-- With a single worker, that is everything in memory. -/
theorem BackedUp.loads [Fintype ι] [Unique ι] {taken queued : List α} {held : α}
    {pending stored : List β} {output : β}
    (full : BackedUp s key taken pending queued held stored output) (began : taken ≠ []) :
    s.items = 1 + queued.length + 1 ∧ s.outputs = pending.length + stored.length + 1 := by
  obtain rfl : key = default := Subsingleton.elim _ _
  have last : (s.taken default).toList.length = 1 := by
    simp [State.taken, full.worker, full.received, began]
  simp [State.items, State.outputs, State.queueLoad, Phase.held, full.source, full.queue, last,
    full.worker, full.shared, full.sink]

/-! ## A worker that falls behind -/

/-- One worker has outputs to hand on and items in its queue; everything else waits. -/
structure Lagging (s : State ι σ α ω β) (key : ι) (pending : List β) (queued : List α) : Prop where
  source : s.sourcePhase = .running []
  queue : s.queues key = queued
  worker : s.workerPhases key = .running pending
  others : ∀ other, other ≠ key → s.queues other = [] ∧ s.workerPhases other = .running []
  shared : s.shared = []
  sink : s.sinkPhase = .running []

omit [DecidableEq ι] in
theorem Sending.lagging {pending : List β} (sending : Sending s key pending) :
    Lagging s key pending [] where
  source := sending.source
  queue := sending.queues key
  worker := sending.worker
  others := fun other different => ⟨sending.queues other, sending.others other different⟩
  shared := sending.shared
  sink := sending.sink

theorem Lagging.idle (lagging : Lagging s key [] []) : Idle s where
  source := lagging.source
  queues := fun other => by
    by_cases same : other = key
    · exact same ▸ lagging.queue
    · exact (lagging.others other same).1
  workers := fun other => by
    by_cases same : other = key
    · exact same ▸ lagging.worker
    · exact (lagging.others other same).2
  shared := lagging.shared
  sink := lagging.sink

/-- One more item waits in the queue. -/
theorem Lagging.exists_queued {pending : List β} {queued : List α}
    (lagging : Lagging s key pending queued) {value : α} {next : σ}
    (fetched : program.fetch s.source = some (.item value next))
    (toKey : program.route value = key) (room : queued.length < program.capacity) :
    ∃ s', Reachable program s s' ∧ Lagging s' key pending (queued ++ [value]) ∧
      s'.source = next ∧ s'.workers = s.workers ∧ s'.written = s.written := by
  subst toKey
  obtain ⟨source, rfl, worker, others, shared, sink⟩ := lagging
  refine ⟨_, reachable_queues source fetched worker room, ?_, rfl, rfl, rfl⟩
  exact ⟨source, Function.update_self _ _ _, worker, fun other different => by
    simpa [Function.update_of_ne different] using others other different, shared, sink⟩

/-- An item of another worker overtakes those in the queue. -/
theorem Lagging.exists_passed {pending : List β} {queued : List α}
    (lagging : Lagging s key pending queued) {value : α} {next : σ} {out : List β}
    (fetched : program.fetch s.source = some (.item value next))
    (toOther : program.route value ≠ key)
    (worked : program.work (s.workers (program.route value)) value =
      .outputs (s.workers (program.route value)) out) :
    ∃ s', Reachable program s s' ∧ Lagging s' key pending queued ∧
      s'.source = next ∧ s'.workers = s.workers ∧ s'.written = s.written ++ out := by
  obtain ⟨empty, idle⟩ := lagging.others _ toOther
  have taken := reachable_takes lagging.source fetched idle empty worked
  have sends := reachable_sends program (s := { s with
      source := next
      workers := Function.update s.workers (program.route value)
        (s.workers (program.route value))
      workerPhases := Function.update s.workerPhases (program.route value) (.running out)
      sent := s.sent ++ [value]
      received := Function.update s.received (program.route value)
        (s.received (program.route value) ++ [value]) })
    (Function.update_self _ _ _) lagging.shared lagging.sink
  simp only [Function.update_idem, ← idle, Function.update_eq_self] at taken sends
  exact ⟨_, taken.trans sends, ⟨lagging.source, lagging.queue, lagging.worker, lagging.others,
    lagging.shared, lagging.sink⟩, rfl, rfl, rfl⟩

/-- While a worker is busy, items for it wait in its queue and the others overtake them. -/
theorem Lagging.exists_overtaken {pending : List β} {queued values rest : List α} {exit : Exit}
    (outputs : α → List β) (lagging : Lagging s key pending queued)
    (dispatches : program.Dispatches s.source (values ++ rest) exit)
    (works : ∀ value ∈ values, program.route value ≠ key →
      program.work (s.workers (program.route value)) value =
        .outputs (s.workers (program.route value)) (outputs value))
    (room : (queued ++ values.filter fun value => program.route value = key).length ≤
      program.capacity) :
    ∃ s', Reachable program s s' ∧
      Lagging s' key pending (queued ++ values.filter fun value => program.route value = key) ∧
      program.Dispatches s'.source rest exit ∧ s'.workers = s.workers ∧ s'.written = s.written ++
        (values.filter fun value => program.route value ≠ key).flatMap outputs := by
  induction values generalizing s queued with
  | nil => exact ⟨s, .refl, by simpa using lagging, dispatches, rfl, by simp⟩
  | cons value values inductionHypothesis =>
    obtain ⟨next, fetched, later⟩ := dispatches.fetches
    obtain ⟨workedFirst, worksLater⟩ := List.forall_mem_cons.mp works
    by_cases toKey : program.route value = key
    · simp only [toKey, decide_true, List.filter_cons_of_pos, List.length_append,
        List.length_cons] at room
      obtain ⟨mid, reachesMid, laggingMid, rfl, workers, written⟩ :=
        lagging.exists_queued fetched toKey (by omega)
      obtain ⟨s', reaches, stillLagging, remains, sameWorkers, allWritten⟩ :=
        inductionHypothesis laggingMid later (workers ▸ worksLater)
          (by simp only [List.length_append, List.length_singleton]; omega)
      exact ⟨s', reachesMid.trans reaches, by simpa [toKey] using stillLagging, remains,
        sameWorkers.trans workers, by simp [allWritten, written, toKey]⟩
    · obtain ⟨mid, reachesMid, laggingMid, rfl, workers, written⟩ :=
        lagging.exists_passed fetched toKey (workedFirst toKey)
      obtain ⟨s', reaches, stillLagging, remains, sameWorkers, allWritten⟩ :=
        inductionHypothesis laggingMid later (workers ▸ worksLater) (by simpa [toKey] using room)
      exact ⟨s', reachesMid.trans reaches, by simpa [toKey] using stillLagging, remains,
        sameWorkers.trans workers, by simp [allWritten, written, toKey]⟩

/-- The worker hands on what it has in hand. -/
theorem Lagging.exists_handedOn (program : Program ι σ α ω β) {pending : List β} {queued : List α}
    (lagging : Lagging s key pending queued) :
    ∃ s', Reachable program s s' ∧ Lagging s' key [] queued ∧ s'.source = s.source ∧
      s'.workers = s.workers ∧ s'.written = s.written ++ pending := by
  refine ⟨_, reachable_sends program lagging.worker lagging.shared lagging.sink, ?_, rfl, rfl, rfl⟩
  exact ⟨lagging.source, lagging.queue, Function.update_self _ _ _, fun other different => by
    simpa [Function.update_of_ne different] using lagging.others other different, lagging.shared,
    lagging.sink⟩

/-- Then it goes through its queue. -/
theorem Lagging.exists_idle {queued : List α} (outputs : α → List β)
    (lagging : Lagging s key [] queued)
    (works : ∀ value ∈ queued,
      program.work (s.workers key) value = .outputs (s.workers key) (outputs value)) :
    ∃ s', Reachable program s s' ∧ Idle s' ∧ s'.source = s.source ∧
      s'.written = s.written ++ queued.flatMap outputs := by
  induction queued generalizing s with
  | nil => exact ⟨s, .refl, lagging.idle, rfl, by simp⟩
  | cons value queued inductionHypothesis =>
    obtain ⟨workedFirst, worksLater⟩ := List.forall_mem_cons.mp works
    have receive : Step program s _ := .workerReceive lagging.worker lagging.queue workedFirst
    have busy : Lagging { s with
        queues := Function.update s.queues key queued
        workers := Function.update s.workers key (s.workers key)
        workerPhases := Function.update s.workerPhases key (.running (outputs value))
        received := Function.update s.received key (s.received key ++ [value]) } key
        (outputs value) queued :=
      ⟨lagging.source, Function.update_self _ _ _, Function.update_self _ _ _,
        fun other different => by
          simpa [Function.update_of_ne different] using lagging.others other different,
        lagging.shared, lagging.sink⟩
    obtain ⟨mid, reachesMid, laggingMid, source, workers, written⟩ := busy.exists_handedOn program
    rw [Function.update_eq_self] at workers
    obtain ⟨s', reaches, idle, sameSource, allWritten⟩ :=
      inductionHypothesis laggingMid (workers ▸ worksLater)
    exact ⟨s', .head receive (reachesMid.trans reaches), idle, sameSource.trans source,
      by simp [allWritten, written]⟩

end GarudaCodec.Foundation.Pipeline
