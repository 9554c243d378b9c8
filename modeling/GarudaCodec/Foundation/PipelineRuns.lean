import Mathlib.Data.Finset.Basic
import Mathlib.Data.Fintype.Basic
import GarudaCodec.Foundation.Pipeline

/-! # A pipeline can always be drained

From a state where all threads wait for input, one item can be carried through the whole
pipeline before the next one is fetched.  If the source's input is finite and neither fetches
nor workers fail, repeating this and then letting every thread return is a run to a drained
state.
-/

namespace GarudaCodec.Foundation.Pipeline

variable {ι σ α ω β : Type*}

/-! ## Single threads, while the others stand still -/

section Threads

variable [DecidableEq ι] {program : Program ι σ α ω β} {s : State ι σ α ω β}

/-- The source fetches an item and puts it into a queue that has room. -/
theorem reachable_queues {value : α} {next : σ} {held : List β}
    (source : s.sourcePhase = .running [])
    (fetched : program.fetch s.source = some (.item value next))
    (running : s.workerPhases (program.route value) = .running held)
    (room : (s.queues (program.route value)).length < program.capacity) :
    Reachable program s { s with
      source := next
      queues := Function.update s.queues (program.route value)
        (s.queues (program.route value) ++ [value])
      sent := s.sent ++ [value] } := by
  have fetch : Step program s { s with source := next, sourcePhase := .running [value] } :=
    .fetchItem source fetched
  have send : Step program { s with source := next, sourcePhase := .running [value] } { s with
      source := next
      sourcePhase := .running []
      queues := Function.update s.queues (program.route value)
        (s.queues (program.route value) ++ [value])
      sent := s.sent ++ [value] } := .sourceSend rfl running room
  rw [source]
  exact .head fetch (.single send)

/-- An item goes through the empty queue of its worker. -/
theorem reachable_takes {value : α} {next : σ} {worker : ω} {out : List β}
    (source : s.sourcePhase = .running [])
    (fetched : program.fetch s.source = some (.item value next))
    (idle : s.workerPhases (program.route value) = .running [])
    (empty : s.queues (program.route value) = [])
    (worked : program.work (s.workers (program.route value)) value = .outputs worker out) :
    Reachable program s { s with
      source := next
      workers := Function.update s.workers (program.route value) worker
      workerPhases := Function.update s.workerPhases (program.route value) (.running out)
      sent := s.sent ++ [value]
      received := Function.update s.received (program.route value)
        (s.received (program.route value) ++ [value]) } := by
  have queued := reachable_queues source fetched idle (by simpa [empty] using program.capacity_pos)
  have alone : Function.update s.queues (program.route value)
      (s.queues (program.route value) ++ [value]) (program.route value) = [value] := by
    simp [empty]
  have receive : Step program { s with
      source := next
      queues := Function.update s.queues (program.route value)
        (s.queues (program.route value) ++ [value])
      sent := s.sent ++ [value] } _ :=
    .workerReceive idle alone worked
  have restored : Function.update s.queues (program.route value) [] = s.queues := by
    rw [← empty, Function.update_eq_self]
  simp only [Function.update_idem, restored] at receive
  exact queued.tail receive

/-- A worker hands all its outputs on to a sink that has nothing else to write. -/
theorem reachable_sends (program : Program ι σ α ω β) {key : ι} {out : List β}
    (busy : s.workerPhases key = .running out) (shared : s.shared = [])
    (sink : s.sinkPhase = .running []) :
    Reachable program s { s with
      workerPhases := Function.update s.workerPhases key (.running [])
      written := s.written ++ out
      merged := s.merged ++ out.map fun output => (key, output) } := by
  induction out generalizing s with
  | nil =>
    rw [← busy, Function.update_eq_self]
    simpa using Relation.ReflTransGen.refl
  | cons output out inductionHypothesis =>
    have send : Step program s { s with
        workerPhases := Function.update s.workerPhases key (.running out)
        shared := s.shared ++ [output]
        merged := s.merged ++ [(key, output)] } :=
      .workerSend busy sink (by simpa [shared] using program.capacity_pos)
    have receive : Step program { s with
        workerPhases := Function.update s.workerPhases key (.running out)
        shared := s.shared ++ [output]
        merged := s.merged ++ [(key, output)] } { s with
        workerPhases := Function.update s.workerPhases key (.running out)
        sinkPhase := .running [output]
        merged := s.merged ++ [(key, output)] } :=
      .sinkReceive sink (by simp [shared])
    have write : Step program { s with
        workerPhases := Function.update s.workerPhases key (.running out)
        sinkPhase := .running [output]
        merged := s.merged ++ [(key, output)] } { s with
        workerPhases := Function.update s.workerPhases key (.running out)
        sinkPhase := .running []
        written := s.written ++ [output]
        merged := s.merged ++ [(key, output)] } := .sinkWrite rfl
    have rest := inductionHypothesis (s := { s with
        workerPhases := Function.update s.workerPhases key (.running out)
        sinkPhase := .running []
        written := s.written ++ [output]
        merged := s.merged ++ [(key, output)] }) (Function.update_self _ _ _) shared rfl
    simp only [Function.update_idem, List.append_assoc, List.singleton_append] at rest
    rw [sink]
    exact .head send (.head receive (.head write rest))

end Threads

/-! ## One item after the other -/

/-- Every thread waits for input, and no item is under way. -/
structure Idle (s : State ι σ α ω β) : Prop where
  source : s.sourcePhase = .running []
  queues : ∀ key, s.queues key = []
  workers : ∀ key, s.workerPhases key = .running []
  shared : s.shared = []
  sink : s.sinkPhase = .running []

theorem Idle.start (source : σ) (workers : ι → ω) :
    Idle (State.start (α := α) (β := β) source workers) :=
  ⟨rfl, fun _ => rfl, fun _ => rfl, rfl, rfl⟩

/-- One worker has outputs to send; everything else waits. -/
structure Sending (s : State ι σ α ω β) (key : ι) (pending : List β) : Prop where
  source : s.sourcePhase = .running []
  queues : ∀ other, s.queues other = []
  worker : s.workerPhases key = .running pending
  others : ∀ other, other ≠ key → s.workerPhases other = .running []
  shared : s.shared = []
  sink : s.sinkPhase = .running []

theorem Sending.idle {s : State ι σ α ω β} {key : ι} (sending : Sending s key []) : Idle s where
  source := sending.source
  queues := sending.queues
  workers := fun other => by
    by_cases same : other = key
    · exact same ▸ sending.worker
    · exact sending.others other same
  shared := sending.shared
  sink := sending.sink

variable [DecidableEq ι] {program : Program ι σ α ω β}

/-- The first pending output goes through the empty shared queue to the waiting sink. -/
theorem Sending.reaches_sink (program : Program ι σ α ω β) {s : State ι σ α ω β} {key : ι}
    {output : β} {pending : List β} (sending : Sending s key (output :: pending)) :
    Reachable program s { s with
      workerPhases := Function.update s.workerPhases key (.running pending)
      shared := []
      sinkPhase := .running [output]
      merged := s.merged ++ [(key, output)] } := by
  have send : Step program s { s with
      workerPhases := Function.update s.workerPhases key (.running pending)
      shared := s.shared ++ [output]
      merged := s.merged ++ [(key, output)] } :=
    .workerSend sending.worker sending.sink (by simpa [sending.shared] using program.capacity_pos)
  have receive : Step program { s with
      workerPhases := Function.update s.workerPhases key (.running pending)
      shared := s.shared ++ [output]
      merged := s.merged ++ [(key, output)] } { s with
      workerPhases := Function.update s.workerPhases key (.running pending)
      shared := []
      sinkPhase := .running [output]
      merged := s.merged ++ [(key, output)] } :=
    .sinkReceive sending.sink (by simp [sending.shared])
  exact .head send (.single receive)

/-- The pending outputs of one worker travel to the sink one by one. -/
theorem Sending.exists_idle (program : Program ι σ α ω β) {s : State ι σ α ω β} {key : ι}
    {pending : List β}
    (sending : Sending s key pending) :
    ∃ s', Reachable program s s' ∧ Idle s' ∧ s'.source = s.source ∧
      ∀ other, s'.workers other = s.workers other := by
  have sent := reachable_sends program sending.worker sending.shared sending.sink
  have sentAll : Sending { s with
      workerPhases := Function.update s.workerPhases key (.running [])
      written := s.written ++ pending
      merged := s.merged ++ pending.map fun output => (key, output) } key [] :=
    { source := sending.source
      queues := sending.queues
      worker := by simp
      others := fun other different => by
        simpa [Function.update_of_ne different] using sending.others other different
      shared := sending.shared
      sink := sending.sink }
  exact ⟨_, sent, sentAll.idle, rfl, fun _ => rfl⟩

/-- The sink may as well fail to write the first pending output. -/
theorem Sending.exists_write_failure (program : Program ι σ α ω β) {s : State ι σ α ω β} {key : ι}
    {output : β} {pending : List β} (sending : Sending s key (output :: pending)) :
    ∃ s', Reachable program s s' ∧ s'.sinkPhase = .ended .failed ∧ s'.written = s.written :=
  ⟨_, (sending.reaches_sink program).tail (.sinkWriteFail rfl), rfl, rfl⟩

/-- One item is carried from the source to its worker, which then has its outputs to send. -/
theorem Idle.exists_sending {s : State ι σ α ω β} (idle : Idle s) {value : α} {source : σ}
    {worker : ω} {out : List β} (fetched : program.fetch s.source = some (.item value source))
    (worked : program.work (s.workers (program.route value)) value = .outputs worker out) :
    ∃ s', Reachable program s s' ∧ Sending s' (program.route value) out ∧ s'.source = source ∧
      s'.workers = Function.update s.workers (program.route value) worker ∧
      s'.written = s.written := by
  -- all queues are empty, so that neither the send nor the receive has to wait
  have taken := reachable_takes idle.source fetched (idle.workers _) (idle.queues _) worked
  refine ⟨_, taken, ?_, rfl, rfl, rfl⟩
  exact
    { source := idle.source
      queues := idle.queues
      worker := by simp
      others := fun key different => by
        simpa [Function.update_of_ne different] using idle.workers key
      shared := idle.shared
      sink := idle.sink }

/-- One item is carried from the source to the output. -/
theorem Idle.carry {s : State ι σ α ω β} (idle : Idle s) {value : α} {source : σ} {worker : ω}
    {out : List β} (fetched : program.fetch s.source = some (.item value source))
    (worked : program.work (s.workers (program.route value)) value = .outputs worker out) :
    ∃ s', Reachable program s s' ∧ Idle s' ∧ s'.source = source ∧
      ∀ key, s'.workers key = Function.update s.workers (program.route value) worker key := by
  obtain ⟨mid, reachesMid, sending, midSource, midWorkers, _⟩ := idle.exists_sending fetched worked
  obtain ⟨s', reaches, idle', source', workers'⟩ := sending.exists_idle program
  refine ⟨s', reachesMid.trans reaches, idle', source'.trans midSource, fun key => ?_⟩
  rw [workers' key, midWorkers]

/-- After the source has returned, the workers of any finite set can return as well. -/
theorem exists_finished (program : Program ι σ α ω β) {s : State ι σ α ω β}
    (source : s.sourcePhase = .ended .ok)
    (queues : ∀ key, s.queues key = []) (workers : ∀ key, s.workerPhases key = .running [])
    (keys : Finset ι) :
    ∃ phases : ι → Phase β, Reachable program s { s with workerPhases := phases } ∧
      (∀ key ∈ keys, phases key = .ended .ok) ∧
      ∀ key, key ∉ keys → phases key = .running [] := by
  -- one worker returns after the other; those still in their loops wait on empty queues
  induction keys using Finset.induction_on with
  | empty => exact ⟨s.workerPhases, .refl, by simp, fun key _ => workers key⟩
  | insert key keys absent inductionHypothesis =>
    obtain ⟨phases, reachable, ended, running⟩ := inductionHypothesis
    have finish : Step program { s with workerPhases := phases } _ :=
      .workerFinish (running key absent) (queues key) source
    refine ⟨Function.update phases key (.ended .ok), reachable.tail finish, ?_, ?_⟩
    · intro other member
      by_cases same : other = key
      · simp [same]
      · rw [Function.update_of_ne same]
        exact ended other ((Finset.mem_insert.mp member).resolve_left same)
    · intro other notMember
      have different : other ≠ key := fun same => notMember (same ▸ Finset.mem_insert_self _ _)
      rw [Function.update_of_ne different]
      exact running other fun member => notMember (Finset.mem_insert_of_mem member)

theorem Idle.finish [Fintype ι] {s : State ι σ α ω β} (idle : Idle s) {source : σ}
    (fetched : program.fetch s.source = some (.stop .ok source)) :
    ∃ s', Reachable program s s' ∧ Drained s' ∧ s'.written = s.written := by
  have stop : Step program s { s with source := source, sourcePhase := .ended .ok } :=
    .fetchStop idle.source fetched
  have sourceEnded : ({ s with source := source, sourcePhase := .ended .ok } :
      State ι σ α ω β).sourcePhase = .ended .ok := rfl
  obtain ⟨phases, reachable, ended, _⟩ :=
    exists_finished program sourceEnded idle.queues idle.workers Finset.univ
  have sinkFinish : Step program
      { s with source := source, sourcePhase := .ended .ok, workerPhases := phases } _ :=
    .sinkFinish idle.sink idle.shared (fun key => ⟨.ok, ended key (Finset.mem_univ key)⟩)
  exact ⟨_, .head stop (reachable.tail sinkFinish),
    ⟨rfl, fun key => ended key (Finset.mem_univ key), rfl⟩, rfl⟩

/-- If fetches succeed, come to an end, and give items that no worker fails on, there is a run to
    a drained state. -/
theorem exists_drained [Fintype ι] (fuel : σ → Nat) (goodSource : σ → Prop)
    (goodWorker : ω → Prop)
    (fetches : ∀ source, goodSource source →
      (∃ next, program.fetch source = some (.stop .ok next)) ∨
      ∃ value next, program.fetch source = some (.item value next) ∧ goodSource next ∧
        fuel next < fuel source ∧
        ∀ worker, goodWorker worker →
          ∃ worker' out, program.work worker value = .outputs worker' out ∧ goodWorker worker')
    {s : State ι σ α ω β} (idle : Idle s) (source : goodSource s.source)
    (workers : ∀ key, goodWorker (s.workers key)) :
    ∃ s', Reachable program s s' ∧ Drained s' := by
  -- the induction is on the fuel of the source, over all idle states
  induction enough : fuel s.source using Nat.strong_induction_on generalizing s with
  | _ amount inductionHypothesis =>
    rcases fetches s.source source with ⟨next, stopped⟩ | ⟨value, next, fetched, good, less, works⟩
    · obtain ⟨s', reachable, drained, -⟩ := idle.finish stopped
      exact ⟨s', reachable, drained⟩
    · obtain ⟨worker, out, worked, goodWorker'⟩ := works _ (workers (program.route value))
      obtain ⟨s', reachable, idle', source', workers'⟩ := idle.carry fetched worked
      obtain ⟨last, more, drained⟩ := inductionHypothesis (fuel next) (enough ▸ less) idle'
        (source' ▸ good)
        (fun key => by
          rw [workers' key]
          by_cases same : key = program.route value
          · simpa [same] using goodWorker'
          · simpa [Function.update_of_ne same] using workers key)
        (by rw [source'])
      exact ⟨last, reachable.trans more, drained⟩

end GarudaCodec.Foundation.Pipeline
