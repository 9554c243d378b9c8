import GarudaCodec.Core.LinkRuns
import GarudaCodec.Core.Sockets
import GarudaCodec.Core.Threads

/-! # `main.rs`: serving connections

`run_encoder` and `run_decoder` take one input stream after the other from their listener, hand it
to a new codec together with a clone of the output stream, and wait for the codec's threads.  The
dispatcher's thread drops the input stream when it returns, and the forwarder's thread the clone.

As long as no error ends the server, however the threads run and whatever fails in them, the
descriptors of a session are closed when the next one begins (`sessions_keep_descriptors`), and what
a session leaves open is the output, which outlives all sessions (`connections_last`).  A server
that returns without an error has read stdin (`returns_ok_after_stdin`).
-/

namespace GarudaCodec.Core

open GarudaCodec.Foundation
open GarudaCodec.Foundation.Descriptors
open GarudaCodec.Foundation.Readers
open GarudaCodec.Foundation.Pipeline
open GarudaCodec.Core.Io

/-- What a command does with an input stream, in an environment that settles all that is not up to
    the command, such as what the reads will meet. -/
structure Command (workers : Nat) where
  Environment : Type
  Source : Type
  Item : Type
  Worker : Type
  Output : Type
  Codec : Type
  Error : Type
  program : Program (Fin workers) Source Item Worker Output
  start : Environment → Outcome Error (State (Fin workers) Source Item Worker Output) × Codec
  wait : Codec → (Thread (Fin workers) → Option Exit) → Option (Outcome Error Unit)
  begins : ∀ {environment threads codec}, start environment = (.ok threads, codec) →
    ∃ source workers, threads = .start source workers
  joins : ∀ {environment threads codec exit?}, start environment = (.ok threads, codec) →
    wait codec exit? = some (.ok ()) → ∀ thread, exit? thread ≠ none

/-! ## The commands -/

variable {workers : Nat}

theorem exit?_of_joined {ε : Type} {exit? : Thread (Fin workers) → Option Exit}
    {noSource noSink : ε}
    (joined : ((Handles.all (List.finRange workers)).wait noSource noSink exit?).1 =
      some (.ok ())) (thread : Thread (Fin workers)) : exit? thread ≠ none := by
  obtain ⟨exit, returned, -⟩ :=
    (forall_mem_all List.mem_finRange).mp (joinAll_eq_ok.mp joined) thread
  rw [returned]
  exact Option.some_ne_none exit

/-- The body of the loop in `run_encoder`, after the number of repair packets has been computed, for
    a random number and what the stream will deliver. -/
def runEncoder (rq : Raptorq) (positive : 0 < workers) (blockSize : Nat)
    (maxPacketSize : UInt16) (repairPacketsPerBlock : UInt32) : Command workers where
  Environment := Except ErrorKind UInt8 × Reader
  Source := BlockDispatcher
  Item := Sourced Block
  Worker := BlockEncoder rq
  Output := Sourced rq.EncodingPacket
  Codec := Encoder workers
  Error := EncoderError
  program := encoderProgram rq positive
  start := fun environment =>
    (Encoder.new workers blockSize maxPacketSize repairPacketsPerBlock).startEncoding rq
      environment.1 environment.2
  wait := fun encoder exit? => (encoder.wait exit?).1
  begins := by
    intro environment threads encoder starts
    obtain ⟨⟨currentBlockId, blockEncoder, -, -, same⟩, -⟩ :=
      Encoder.startEncoding_eq_ok positive starts
    exact ⟨_, _, same⟩
  joins := by
    intro environment threads encoder exit? starts joined
    obtain ⟨noSource, noSink, waits⟩ := encoder.wait_fst
    rw [waits, (Encoder.startEncoding_eq_ok positive starts).2] at joined
    exact exit?_of_joined joined

/-- The body of the loop in `run_decoder`, for what the stream will deliver. -/
def runDecoder (rq : Raptorq) (positive : 0 < workers) (blockSize : Nat)
    (maxPacketSize : UInt16) : Command workers where
  Environment := Reader
  Source := PacketDispatcher
  Item := rq.EncodingPacket
  Worker := BlockDecoder rq
  Output := List UInt8
  Codec := Decoder workers
  Error := DecoderError
  program := decoderProgram rq positive
  start := fun input => (Decoder.new workers blockSize maxPacketSize).startDecoding rq input
  wait := fun decoder exit? => (decoder.wait exit?).1
  begins := by
    intro input threads decoder starts
    obtain ⟨⟨packetSize, blockDecoder, -, -, same⟩, -⟩ :=
      Decoder.startDecoding_eq_ok positive starts
    exact ⟨_, _, same⟩
  joins := by
    intro input threads decoder exit? starts joined
    obtain ⟨noSource, noSink, waits⟩ := decoder.wait_fst
    rw [waits, (Decoder.startDecoding_eq_ok positive starts).2] at joined
    exact exit?_of_joined joined

/-! ## The server -/

inductive ServerError (ε : Type) where
  | io (error : IoError)
  | codec (error : ε)

/-- A session: the streams that its threads have been given, and the threads. -/
structure Running (command : Command workers) where
  input : InputStream
  output : OutputStream
  threads : State (Fin workers) command.Source command.Item command.Worker command.Output
  codec : command.Codec

/-- Where the main thread is. -/
inductive Stage (command : Command workers) where
  | idle
  | accepted (input : InputStream)
  | session (running : Running command)
  | returned (outcome : Outcome (ServerError command.Error) Unit)

structure Server (command : Command workers) where
  table : Descriptors
  listener : Listener
  output : OutputStream
  stage : Stage command
  /-- History: the sessions that have been waited for. -/
  served : Nat

/-- What a stream's descriptor allows: one that has none can be written to only if it is stdout. -/
def OutputStream.Writable (table : Descriptors) (stream : OutputStream) : Prop :=
  stream = .stdout ∨ ∃ fd ∈ stream.fds, ∃ description, table fd = some description

namespace Running

variable {command : Command workers}

/-- What the threads that have not returned hold. -/
def fds (running : Running command) : List RawFd :=
  (if running.threads.exit? .source ≠ none then [] else running.input.fds) ++
    (if running.threads.exit? .sink ≠ none then [] else running.output.fds)

/-- What is closed when the threads get to this state. -/
def dropped (running : Running command)
    (threads : State (Fin workers) command.Source command.Item command.Worker command.Output)
    (table : Descriptors) : Descriptors :=
  let table :=
    if ¬running.threads.exit? .source ≠ none ∧ threads.exit? .source ≠ none then
      running.input.drop table
    else table
  if ¬running.threads.exit? .sink ≠ none ∧ threads.exit? .sink ≠ none then
    running.output.drop table
  else table

theorem length_fds_le (running : Running command) : running.fds.length ≤ 2 := by
  rw [fds, List.length_append]
  apply Nat.add_le_add (b := 1) (d := 1)
  · split
    · exact Nat.zero_le 1
    · exact running.input.length_fds_le
  · split
    · exact Nat.zero_le 1
    · exact running.output.length_fds_le

variable {running : Running command} {table : Descriptors}
variable {threads : State (Fin workers) command.Source command.Item command.Worker command.Output}

theorem dropped_of_source (runs : threads.exit? .source = none) :
    running.dropped threads table =
      if ¬running.threads.exit? .sink ≠ none ∧ threads.exit? .sink ≠ none then
        running.output.drop table
      else table := by
  simp only [dropped, runs, ne_eq, not_true, and_false, if_false]

theorem dropped_of_sink (runs : threads.exit? .sink = none) :
    running.dropped threads table =
      if ¬running.threads.exit? .source ≠ none ∧ threads.exit? .source ≠ none then
        running.input.drop table
      else table := by
  simp only [dropped, runs, ne_eq, not_true, and_false, if_false]

end Running

def Stage.fds {command : Command workers} : Stage command → List RawFd
  | .idle | .returned _ => []
  | .accepted input => input.fds
  | .session running => running.fds

/-- What the input stream has, until the dispatcher returns. -/
def Stage.inputFds {command : Command workers} : Stage command → List RawFd
  | .idle | .returned _ => []
  | .accepted input => input.fds
  | .session running =>
    if running.threads.exit? .source ≠ none then [] else running.input.fds

namespace Server

variable {command : Command workers}

/-- The beginning of `run_encoder` and `run_decoder`. -/
def launch (command : Command workers) (listening connecting : Kernel)
    (inputUri outputUri : List Char) (table : Descriptors) : Except IoError (Server command) :=
  match Listener.fromUri listening inputUri table with
  | (.error error, _) => .error error
  | (.ok listener, table) =>
    match OutputStream.fromUri connecting outputUri table with
    | (.error error, _) => .error error
    | (.ok output, table) => .ok { table, listener, output, stage := .idle, served := 0 }

/-- A turn of the loop, with the steps of the session's threads in between.  When the main thread
    returns, the process ends. -/
inductive Step : Server command → Server command → Prop
  | noMore {s kernel listener table} :
      s.stage = .idle → kernel.Sound s.table →
      s.listener.next kernel s.table = (none, listener, table) →
      Step s { s with table, listener, stage := .returned (.ok ()) }
  | acceptFail {s kernel error listener table} :
      s.stage = .idle → kernel.Sound s.table →
      s.listener.next kernel s.table = (some (.error error), listener, table) →
      Step s { s with table, listener, stage := .returned (.err (.io error)) }
  | accept {s kernel input listener table} :
      s.stage = .idle → kernel.Sound s.table →
      s.listener.next kernel s.table = (some (.ok input), listener, table) →
      Step s { s with table, listener, stage := .accepted input }
  | cloneFail {s kernel input error table} :
      s.stage = .accepted input → kernel.Sound s.table →
      s.output.tryClone kernel s.table = (.error error, table) →
      Step s { s with table := input.drop table, stage := .returned (.err (.io error)) }
  -- the clone stays with the forwarder, which has been started first
  | startFail {s kernel input output table environment error codec} :
      s.stage = .accepted input → kernel.Sound s.table →
      s.output.tryClone kernel s.table = (.ok output, table) →
      command.start environment = (.err error, codec) →
      Step s { s with table := input.drop table, stage := .returned (.err (.codec error)) }
  | startPanic {s kernel input output table environment codec} :
      s.stage = .accepted input → kernel.Sound s.table →
      s.output.tryClone kernel s.table = (.ok output, table) →
      command.start environment = (.panic, codec) →
      Step s { s with table := input.drop table, stage := .returned .panic }
  | start {s kernel input output table environment threads codec} :
      s.stage = .accepted input → kernel.Sound s.table →
      s.output.tryClone kernel s.table = (.ok output, table) →
      command.start environment = (.ok threads, codec) →
      Step s { s with table, stage := .session { input, output, threads, codec } }
  | thread {s running threads} :
      s.stage = .session running → Pipeline.Step command.program running.threads threads →
      (threads.written = running.threads.written ∨ running.output.Writable s.table) →
      Step s { s with
        table := running.dropped threads s.table
        stage := .session { running with threads } }
  | join {s running} :
      s.stage = .session running →
      command.wait running.codec running.threads.exit? = some (.ok ()) →
      Step s { s with stage := .idle, served := s.served + 1 }
  | joinFail {s running error} :
      s.stage = .session running →
      command.wait running.codec running.threads.exit? = some (.err error) →
      Step s { s with stage := .returned (.err (.codec error)) }
  | joinPanic {s running} :
      s.stage = .session running →
      command.wait running.codec running.threads.exit? = some .panic →
      Step s { s with stage := .returned .panic }

abbrev Reachable : Server command → Server command → Prop := Relation.ReflTransGen Step

/-! ## The descriptors of a session -/

/-- The account of a session, for a server that has started with the table `base`. -/
structure Attached (base : Descriptors) (output : OutputStream) (running : Running command)
    (table : Descriptors) : Prop where
  account : Account base running.fds table
  input : running.threads.exit? .source = none → ∀ fd ∈ running.input.fds,
    ∃ description, table fd = some description ∧ ¬IsOpen base description
  output : running.threads.exit? .sink = none → ∀ fd ∈ running.output.fds,
    ∃ original ∈ output.fds, table fd = base original
  begun : ∃ environment threads, command.start environment = (.ok threads, running.codec) ∧
    Pipeline.Reachable command.program threads running.threads
  silent : running.output ≠ .stdout → running.output.fds = [] → running.threads.written = []

/-- What is open in each stage. -/
def Stage.Keeps (base : Descriptors) (output : OutputStream) (table : Descriptors) :
    Stage command → Prop
  | .idle => table = base
  | .accepted input => Opened base input.fds table
  | .session running => Attached base output running table
  | .returned _ => True

structure Keeps (launched s : Server command) : Prop where
  output : s.output = launched.output
  stage : Stage.Keeps launched.table launched.output s.table s.stage

/-- A thread that has returned does not run again. -/
theorem exit?_stays {program : Program (Fin workers) command.Source command.Item command.Worker
      command.Output}
    {threads later : State (Fin workers) command.Source command.Item command.Worker command.Output}
    (step : Pipeline.Step program threads later) {thread : Thread (Fin workers)}
    (returned : threads.exit? thread ≠ none) : later.exit? thread ≠ none := by
  obtain ⟨exit, isExit⟩ := Option.ne_none_iff_exists'.mp returned
  cases thread with
  | source =>
    have ended := step.source_ended (Phase.exit?_eq_some.mp isExit)
    simp [State.exit?, Phase.exit?, ended]
  | worker key =>
    have ended := step.worker_ended (Phase.exit?_eq_some.mp isExit)
    simp [State.exit?, Phase.exit?, ended]
  | sink =>
    have ended := (step.sink_ended (Phase.exit?_eq_some.mp isExit)).1
    simp [State.exit?, Phase.exit?, ended]

theorem Attached.step {base table : Descriptors} {output : OutputStream}
    {running : Running command}
    {threads : State (Fin workers) command.Source command.Item command.Worker command.Output}
    (attached : Attached base output running table)
    (step : Pipeline.Step command.program running.threads threads)
    (writes : threads.written = running.threads.written ∨ running.output.Writable table) :
    Attached base output { running with threads } (running.dropped threads table) where
  account := by
    have first := attached.account.release (exit?_stays step)
    rw [← running.input.drop_eq attached.account.nonneg] at first
    have second := (first.perm List.perm_append_comm).release (exit?_stays step)
    rw [← running.output.drop_eq first.nonneg] at second
    exact second.perm List.perm_append_comm
  input := by
    intro runs fd member
    have ran : running.threads.exit? .source = none := by
      by_contra returned
      exact exit?_stays step returned runs
    obtain ⟨description, refers, unopened⟩ := attached.input ran fd member
    refine ⟨description, ?_, unopened⟩
    rw [← refers, Running.dropped_of_source runs]
    split
    · next ends =>
      apply OutputStream.drop_of_not_mem (attached.account.nonneg_of_open refers)
      have distinct := attached.account.distinct
      rw [Running.fds, if_neg (not_not.mpr ran), if_neg ends.1] at distinct
      exact (List.disjoint_of_nodup_append distinct) member
    · rfl
  output := by
    intro runs fd member
    have ran : running.threads.exit? .sink = none := by
      by_contra returned
      exact exit?_stays step returned runs
    obtain ⟨original, isOutput, refers⟩ := attached.output ran fd member
    refine ⟨original, isOutput, ?_⟩
    have held : fd ∈ running.fds := by
      rw [Running.fds, if_neg (not_not.mpr ran)]
      exact List.mem_append_right _ member
    obtain ⟨description, isOpen⟩ := attached.account.refers fd held
    rw [← refers, Running.dropped_of_sink runs]
    split
    · next ends =>
      apply InputStream.drop_of_not_mem (attached.account.nonneg_of_open isOpen)
      have distinct := attached.account.distinct
      rw [Running.fds, if_neg ends.1, if_neg (not_not.mpr ran)] at distinct
      exact fun other => (List.disjoint_of_nodup_append distinct) other member
    · rfl
  begun := by
    obtain ⟨environment, start, starts, run⟩ := attached.begun
    exact ⟨environment, start, starts, run.tail step⟩
  silent := by
    intro other none
    cases writes with
    | inl same => exact same.trans (attached.silent other none)
    | inr writable =>
      cases writable with
      | inl isStdout => exact absurd isStdout other
      | inr usable =>
        obtain ⟨fd, member, -⟩ := usable
        rw [none] at member
        cases member

/-- A server as it is launched. -/
structure Ready (launched : Server command) : Prop where
  nonneg : ∀ fd < 0, launched.table fd = none
  output : ∀ fd ∈ launched.output.fds, ∃ description, launched.table fd = some description
  idle : launched.stage = .idle
  none_served : launched.served = 0

variable {launched s s' : Server command}

theorem Keeps.start (ready : Ready launched) : Keeps launched launched where
  output := rfl
  stage := by
    rw [ready.idle]
    rfl

/-- A session that starts has its own connection and a clone of the output. -/
theorem Ready.attached (ready : Ready launched) {input : InputStream} {clone : OutputStream}
    {table : Descriptors} {kernel : Kernel} {environment : command.Environment}
    {threads : State (Fin workers) command.Source command.Item command.Worker command.Output}
    {codec : command.Codec} (opened : Opened launched.table input.fds s.table)
    (sound : kernel.Sound s.table)
    (clones : launched.output.tryClone kernel s.table = (.ok clone, table))
    (starts : command.start environment = (.ok threads, codec)) :
    Attached launched.table launched.output ⟨input, clone, threads, codec⟩ table := by
  have accepted := (Account.nothing ready.nonneg).opened opened
  have cloned := OutputStream.tryClone_ok sound accepted.nonneg clones
  obtain ⟨source, made, rfl⟩ := command.begins starts
  exact
    { account := (accepted.cloned cloned).perm (by
        rw [List.append_nil]
        exact List.perm_append_comm)
      input := by
        intro _ fd member
        obtain ⟨description, refers, unopened⟩ := opened.new member
        exact ⟨description, cloned.keeps refers, unopened⟩
      output := by
        intro _ fd member
        obtain ⟨original, isOutput, same⟩ := cloned.new member
        obtain ⟨description, refers⟩ := ready.output original isOutput
        exact ⟨original, isOutput, by rw [same, opened.keeps refers, refers]⟩
      begun := ⟨environment, _, starts, .refl⟩
      silent := fun _ _ => rfl }

/-- When a session has been waited for, all it had opened is closed. -/
theorem Attached.joined {base table : Descriptors} {output : OutputStream}
    {running : Running command} (attached : Attached base output running table)
    (joined : command.wait running.codec running.threads.exit? = some (.ok ())) :
    table = base := by
  obtain ⟨environment, threads, starts, -⟩ := attached.begun
  have returned := command.joins starts joined
  have account := attached.account
  rw [Running.fds, if_pos (returned .source), if_pos (returned .sink)] at account
  exact account.eq_base

theorem Keeps.step (ready : Ready launched) (keeps : Keeps launched s) (step : Step s s') :
    Keeps launched s' := by
  obtain ⟨output, stage⟩ := keeps
  cases step with
  | noMore | acceptFail | cloneFail | startFail | startPanic | joinFail | joinPanic =>
    exact ⟨output, trivial⟩
  | accept idle sound accepts =>
    rw [idle] at stage
    refine ⟨output, ?_⟩
    have opened := (Listener.next_ok sound accepts).1
    rwa [stage] at opened
  | start accepted sound clones starts =>
    rw [accepted] at stage
    exact ⟨output, ready.attached stage sound (output ▸ clones) starts⟩
  | thread session step writes =>
    rw [session] at stage
    exact ⟨output, stage.step step writes⟩
  | join session joined =>
    rw [session] at stage
    exact ⟨output, stage.joined joined⟩

theorem Keeps.run (ready : Ready launched) (keeps : Keeps launched s) (reachable : Reachable s s') :
    Keeps launched s' := by
  induction reachable with
  | refl => exact keeps
  | tail _ step inductionHypothesis => exact inductionHypothesis.step ready step

theorem Keeps.reachable (ready : Ready launched) (reachable : Reachable launched s) :
    Keeps launched s :=
  (Keeps.start ready).run ready reachable

/-! ## What a server can do -/

/-- The threads of a session can do in the server whatever they can do alone, if the clone has a
    descriptor. -/
theorem Keeps.exists_reachable (ready : Ready launched) (keeps : Keeps launched s)
    {running : Running command} (session : s.stage = .session running)
    (usable : running.output = .stdout ∨ running.output.fds ≠ [])
    {threads : State (Fin workers) command.Source command.Item command.Worker command.Output}
    (run : Pipeline.Reachable command.program running.threads threads) :
    ∃ table, Reachable s { s with table, stage := .session { running with threads } } := by
  induction run with
  | refl => exact ⟨s.table, by rw [← session]⟩
  | @tail threads later _ step inductionHypothesis =>
    obtain ⟨table, reached⟩ := inductionHypothesis
    have attached := ((keeps.run ready reached).stage :
      Attached launched.table launched.output { running with threads } table)
    have writes : later.written = threads.written ∨ running.output.Writable table := by
      cases sink : threads.exit? .sink with
      | some exit => exact Or.inl (step.sink_ended (Phase.exit?_eq_some.mp sink)).2
      | none =>
        refine Or.inr (usable.imp_right fun some => ?_)
        obtain ⟨fd, member⟩ := List.exists_mem_of_ne_nil _ some
        refine ⟨fd, member, attached.account.refers fd ?_⟩
        rw [Running.fds, if_neg (not_not.mpr sink)]
        exact List.mem_append_right _ member
    exact ⟨_, reached.tail (@Step.thread _ _ _ { running with threads } _ rfl step writes)⟩

/-! ## From the launch on -/

/-- A launch that succeeds, with answers the kernel can give. -/
structure Launched (command : Command workers) (base : Descriptors)
    (inputUri outputUri : List Char) (launched : Server command) : Prop where
  nonneg : ∀ fd < 0, base fd = none
  launches : ∃ listening connecting, listening.Sound base ∧
    connecting.Sound (Listener.fromUri listening inputUri base).2 ∧
    launch command listening connecting inputUri outputUri base = .ok launched

variable {base : Descriptors} {inputUri outputUri : List Char}

theorem launch_eq_ok {listening connecting : Kernel}
    (launches : launch command listening connecting inputUri outputUri base = .ok launched) :
    ∃ table, Listener.fromUri listening inputUri base = (.ok launched.listener, table) ∧
      OutputStream.fromUri connecting outputUri table = (.ok launched.output, launched.table) ∧
      launched.stage = .idle ∧ launched.served = 0 := by
  rw [launch] at launches
  split at launches
  · cases launches
  · next listener table listens =>
    split at launches
    · cases launches
    · next output opened connects =>
      cases launches
      exact ⟨table, listens, connects, rfl, rfl⟩

namespace Launched

theorem account (launches : Launched command base inputUri outputUri launched) :
    Account base (launched.output.fds ++ launched.listener.fds) launched.table := by
  obtain ⟨listening, connecting, listeningSound, connectingSound, succeeds⟩ := launches.launches
  obtain ⟨table, listens, connects, -, -⟩ := launch_eq_ok succeeds
  rw [listens] at connectingSound
  have listened := (Account.nothing launches.nonneg).opened
    (Listener.fromUri_ok listeningSound listens)
  rw [List.append_nil] at listened
  exact listened.opened (OutputStream.fromUri_ok connectingSound connects)

theorem ready (launches : Launched command base inputUri outputUri launched) : Ready launched := by
  have account := launches.account
  obtain ⟨listening, connecting, -, -, succeeds⟩ := launches.launches
  obtain ⟨table, -, -, idle, none_served⟩ := launch_eq_ok succeeds
  exact
    { nonneg := account.nonneg
      output := fun fd member => account.refers fd (List.mem_append_left _ member)
      idle, none_served }

end Launched

/-! ## A small server -/

/-- A kernel that grants nothing. -/
def refusing : Kernel where
  tcpConnect := fun _ => .error (.os 13)
  unixConnect := fun _ => .error (.os 13)
  tcpListen := fun _ => .error (.os 13)
  unixListen := fun _ => .error (.os 13)
  removeFile := fun _ => .error 13
  accept := fun _ => .error (.os 13)
  socket := .error 13
  ifNameToIndex := fun _ => .error 13
  setReceiveTimeout := fun _ _ => .error 13
  bind := fun _ _ => .error 13
  dup := fun _ => .error 13

theorem refusing_sound (table : Descriptors) : refusing.Sound table := by
  constructor <;> simp [refusing]

/-- An encoder of one worker, for blocks of two symbols. -/
def smallEncoder : Command 1 := runEncoder systematicCodec Nat.one_pos 16 8 0

/-- It can serve a connection that it has accepted. -/
theorem exists_served {launched s : Server smallEncoder} (ready : Ready launched)
    (keeps : Keeps launched s) {input : InputStream} (accepted : s.stage = .accepted input)
    {kernel : Kernel} (sound : kernel.Sound s.table) {clone : OutputStream} {table : Descriptors}
    (clones : s.output.tryClone kernel s.table = (.ok clone, table))
    (usable : clone = .stdout ∨ clone.fds ≠ []) :
    ∃ s', Reachable s s' ∧ s'.stage = .idle ∧ s'.served = s.served + 1 ∧
      s'.listener = s.listener := by
  have quiet : Quiet onError (Session.mk 7 []).input := by simp [Quiet]
  obtain ⟨threads, run, drained⟩ := exists_drained_encoder (Link.systematicSetup Nat.one_pos)
    (show 0 < 16 by decide)
    (fun block size => (Link.systematicSetup Nat.one_pos).accepted.encode_ok Systematic.counted
      (show (0 : UInt32).toNat ≤ 2 ^ 23 by decide) block size) 0 quiet
  obtain ⟨encoder, starts⟩ :=
    Encoder.startEncoding_ok 1 (Link.systematicSetup Nat.one_pos).encoder_created 7 []
  have handles := (Encoder.startEncoding_eq_ok Nat.one_pos starts).2
  have begins : smallEncoder.start ((.ok 7, []) : Except ErrorKind UInt8 × Reader) =
      (.ok (State.start ((Link.systematicSetup Nat.one_pos).dispatcher 0 (Session.mk 7 []))
        fun _ => (Link.systematicSetup Nat.one_pos).encoder), encoder) := starts
  have joined : smallEncoder.wait encoder threads.exit? = some (.ok ()) :=
    (Encoder.wait_eq_ok_iff handles).mpr ⟨drained.allEnded, drained.calm⟩
  have began := Step.start accepted sound clones begins
  obtain ⟨last, reached⟩ := (keeps.step ready began).exists_reachable ready rfl usable run
  exact ⟨_, (Relation.ReflTransGen.single began).trans (reached.tail (.join rfl joined)), rfl, rfl,
    rfl⟩

/-- Launched with two TCP addresses. -/
def tcpServer : Server smallEncoder where
  table := (Table.insert (fun _ => none) 3 0).insert 4 1
  listener := .tcp 3
  output := .tcp 4
  stage := .idle
  served := 0

theorem launched_tcpServer : Launched smallEncoder (fun _ => none) (tcpUriPrefix ++ ['a'])
    (tcpUriPrefix ++ ['b']) tcpServer where
  nonneg := fun _ _ => rfl
  launches := by
    refine ⟨{ refusing with tcpListen := fun _ => .ok (3, 0) },
      { refusing with tcpConnect := fun _ => .ok (4, 1) }, ?_, ?_, rfl⟩
    · refine { refusing_sound _ with tcpListen := ?_ }
      intro address opened answer
      cases answer
      exact ⟨by decide, rfl, fun isOpen => nomatch isOpen⟩
    · refine { refusing_sound _ with tcpConnect := ?_ }
      intro address opened answer
      cases answer
      refine ⟨by decide, rfl, fun isOpen => ?_⟩
      cases Table.isOpen_of_insert isOpen with
      | inl same => cases same
      | inr before => exact nomatch before

/-- It accepts a connection. -/
theorem exists_accepted_tcpServer :
    ∃ s, Reachable tcpServer s ∧ s.stage = .accepted (.tcp 5) ∧ s.output = .tcp 4 ∧
      s.table = tcpServer.table.insert 5 2 ∧ s.served = 0 := by
  refine ⟨_, .single (@Step.accept _ _ _ { refusing with accept := fun _ => .ok (5, 2) } _ _ _ rfl
    ?_ rfl), rfl, rfl, rfl, rfl⟩
  refine { refusing_sound _ with accept := ?_ }
  intro fd opened answer
  cases answer
  refine ⟨by decide, rfl, fun isOpen => ?_⟩
  cases Table.isOpen_of_insert isOpen with
  | inl same => cases same
  | inr before =>
    cases Table.isOpen_of_insert before with
    | inl same => cases same
    | inr before => exact nomatch before

/-- Launched with stdin and stdout. -/
def stdServer : Server smallEncoder where
  table := fun _ => none
  listener := .stdin false
  output := .stdout
  stage := .idle
  served := 0

theorem launched_stdServer : Launched smallEncoder (fun _ => none) ['-'] ['-'] stdServer where
  nonneg := fun _ _ => rfl
  launches := ⟨refusing, refusing, refusing_sound _, refusing_sound _, rfl⟩

theorem exists_accepted_stdServer :
    ∃ s, Reachable stdServer s ∧ s.stage = .accepted .stdin ∧ s.output = .stdout ∧
      s.listener = .stdin true :=
  ⟨_, .single (@Step.accept _ _ _ refusing _ _ _ rfl (refusing_sound _) rfl), rfl, rfl, rfl⟩

/-- A kernel that duplicates the output's descriptor. -/
def duplicating : Kernel :=
  { refusing with dup := fun fd => if fd = 4 then .ok 6 else .error 9 }

theorem duplicating_sound {table : Descriptors} (unused : table 6 = none)
    (isOpen : ∃ description, table 4 = some description) : duplicating.Sound table := by
  refine { refusing_sound table with dup := ?_ }
  intro fd copied answer
  simp only [duplicating] at answer
  split at answer
  · next isOutput =>
    cases answer
    exact ⟨by decide, unused, isOutput ▸ isOpen⟩
  · cases answer

/-! ## Sessions -/

theorem Keeps.owns (ready : Ready launched) (keeps : Keeps launched s)
    (serving : ∀ outcome, s.stage ≠ .returned outcome) :
    Owns launched.table s.stage.fds s.table := by
  have stage := keeps.stage
  cases isStage : s.stage with
  | idle =>
    rw [isStage] at stage
    exact stage ▸ .nothing launched.table
  | accepted input =>
    rw [isStage] at stage
    have account := (Account.nothing ready.nonneg).opened stage
    rw [List.append_nil] at account
    exact account.toOwns
  | session running =>
    rw [isStage] at stage
    exact stage.account.toOwns
  | returned outcome => exact absurd isStage (serving outcome)

/-- Whatever the kernel answers, however the threads run and whatever fails in them, as long as the
    server goes on: it has opened its listener and its output, and besides them no more than the
    streams of the session, while the threads that hold them run.  Between two sessions its
    descriptors are those it has been launched with. -/
theorem sessions_keep_descriptors
    (launches : Launched command base inputUri outputUri launched)
    (reachable : Reachable launched s) (serving : ∀ outcome, s.stage ≠ .returned outcome) :
    Owns base (launched.output.fds ++ launched.listener.fds) launched.table ∧
      Owns launched.table s.stage.fds s.table ∧ s.stage.fds.length ≤ 2 ∧
      (s.stage = .idle → s.table = launched.table) ∧
      ∀ running, s.stage = .session running → ∃ environment threads,
        command.start environment = (.ok threads, running.codec) ∧
        Pipeline.Reachable command.program threads running.threads := by
  have ready := launches.ready
  have keeps := Keeps.reachable ready reachable
  refine ⟨launches.account.toOwns, keeps.owns ready serving, ?_, ?_, ?_⟩
  · cases s.stage with
    | idle | returned => exact Nat.zero_le 2
    | accepted input => exact Nat.le_succ_of_le input.length_fds_le
    | session running => exact running.length_fds_le
  · intro idle
    have stage := keeps.stage
    rwa [idle] at stage
  · intro running session
    have stage := keeps.stage
    rw [session] at stage
    exact stage.begun

/-- A session over TCP, from its beginning to its end. -/
theorem sessions_keep_descriptors_sample :
    ∃ s, Reachable tcpServer s ∧ s.served = 1 ∧ s.table = tcpServer.table := by
  obtain ⟨s, reached, accepted, output, table, zero⟩ := exists_accepted_tcpServer
  have ready := launched_tcpServer.ready
  have sound : duplicating.Sound s.table := table ▸ duplicating_sound rfl ⟨1, rfl⟩
  have clones : s.output.tryClone duplicating s.table =
      (.ok (.tcp 6), duplicate s.table 4 6) := by
    rw [output]
    rfl
  obtain ⟨s', served, idle, one, -⟩ := exists_served ready (.reachable ready reached) accepted
    sound clones (Or.inr (by simp [OutputStream.fds]))
  obtain ⟨-, -, -, between, -⟩ := sessions_keep_descriptors launched_tcpServer
    (reached.trans served) (by simp [idle])
  exact ⟨s', reached.trans served, by rw [one, zero], between idle⟩

/-- The input stream's descriptor is for something that was not open when the server was launched. -/
theorem Keeps.input (keeps : Keeps launched s) {fd : RawFd} (member : fd ∈ s.stage.inputFds) :
    ∃ description, s.table fd = some description ∧ ¬IsOpen launched.table description := by
  have stage := keeps.stage
  cases isStage : s.stage with
  | idle | returned => simp [isStage, Stage.inputFds] at member
  | accepted input =>
    rw [isStage] at stage member
    exact Opened.new stage member
  | session running =>
    rw [isStage] at stage member
    rw [Stage.inputFds] at member
    split at member
    · cases member
    · next runs => exact stage.input (not_not.mp runs) fd member

/-- What else a session holds is for the output. -/
theorem Keeps.others (keeps : Keeps launched s) {fd : RawFd} (member : fd ∈ s.stage.fds) :
    fd ∈ s.stage.inputFds ∨ ∃ original ∈ launched.output.fds, s.table fd = launched.table original := by
  have stage := keeps.stage
  cases isStage : s.stage with
  | idle | returned => simp [isStage, Stage.fds] at member
  | accepted input =>
    rw [isStage] at member
    exact Or.inl member
  | session running =>
    rw [isStage] at stage member
    cases List.mem_append.mp member with
    | inl isInput => exact Or.inl isInput
    | inr isOutput =>
      split at isOutput
      · cases isOutput
      · next runs => exact Or.inr (stage.output (not_not.mp runs) fd isOutput)

/-- As long as the server goes on, a connection that has been accepted stays open until its
    dispatcher returns and not longer, and what was open when the server was launched, such as the
    connection of the output, stays open over all sessions. -/
theorem connections_last (launches : Launched command base inputUri outputUri launched)
    (reachable : Reachable launched s) (serving : ∀ outcome, s.stage ≠ .returned outcome) :
    (∀ description, IsOpen s.table description ↔ IsOpen launched.table description ∨
      ∃ fd ∈ s.stage.inputFds, s.table fd = some description) ∧
      ∀ fd ∈ s.stage.inputFds, ∃ description, s.table fd = some description ∧
        ¬IsOpen launched.table description := by
  have ready := launches.ready
  have keeps := Keeps.reachable ready reachable
  have owns := keeps.owns ready serving
  refine ⟨fun description => ?_, fun fd => keeps.input⟩
  constructor
  · intro isOpen
    cases owns.isOpen_iff.mp isOpen with
    | inr before => exact Or.inl before
    | inl held =>
      obtain ⟨fd, member, refers⟩ := held
      cases keeps.others member with
      | inl isInput => exact Or.inr ⟨fd, isInput, refers⟩
      | inr isOutput =>
        obtain ⟨original, -, same⟩ := isOutput
        exact Or.inl ⟨original, same ▸ refers⟩
  · intro held
    cases held with
    | inl before => exact owns.isOpen_iff.mpr (Or.inr before)
    | inr isInput =>
      obtain ⟨fd, -, refers⟩ := isInput
      exact ⟨fd, refers⟩

theorem connections_last_sample :
    ∃ s, Reachable tcpServer s ∧ s.stage = .accepted (.tcp 5) ∧ IsOpen s.table 1 ∧
      ¬IsOpen tcpServer.table 2 := by
  obtain ⟨s, reached, accepted, -, table, -⟩ := exists_accepted_tcpServer
  obtain ⟨lasts, new⟩ := connections_last launched_tcpServer reached (by simp [accepted])
  refine ⟨s, reached, accepted, (lasts 1).mpr (Or.inl ⟨4, rfl⟩), ?_⟩
  obtain ⟨description, refers, unopened⟩ := new 5 (by simp [accepted, Stage.inputFds, InputStream.fds])
  rw [table, Table.insert_self] at refers
  cases refers
  exact unopened

/-- When the `dup` for the clone of a raw socket fails, nobody is told, and nothing of the session
    gets out. -/
theorem failed_dup_is_silent (launches : Launched command base inputUri outputUri launched)
    (reachable : Reachable launched s) {running : Running command}
    (session : s.stage = .session running) {socket : RawSocket}
    (isRaw : running.output = .rawSocket socket) (failed : socket.socketFd < 0) :
    running.threads.written = [] := by
  have stage := (Keeps.reachable launches.ready reachable).stage
  rw [session] at stage
  apply stage.silent
  · simp [isRaw]
  · rw [isRaw]
    exact if_pos failed

/-! ## How a server returns -/

/-- How far a server has got that reads stdin, which it is given once. -/
inductive ReadsStdin (s : Server command) : Prop
  | before : s.listener = .stdin false → s.stage = .idle → s.served = 0 → ReadsStdin s
  | during : s.listener = .stdin true → s.stage ≠ .idle → s.stage ≠ .returned (.ok ()) →
      s.served = 0 → ReadsStdin s
  | after : s.listener = .stdin true → s.stage = .idle ∨ s.stage = .returned (.ok ()) →
      s.served = 1 → ReadsStdin s

theorem ReadsStdin.step (reads : ReadsStdin s) (step : Step s s') : ReadsStdin s' := by
  cases step with
  | noMore idle sound ends =>
    obtain ⟨closed, rfl, -⟩ := Listener.next_none ends
    cases reads with
    | before isOpen => simp [closed] at isOpen
    | during _ busy => exact absurd idle busy
    | after _ _ one => exact .after rfl (Or.inr rfl) one
  | acceptFail idle sound fails =>
    cases reads with
    | before isOpen => simp [isOpen, Listener.next] at fails
    | during _ busy => exact absurd idle busy
    | after closed => simp [closed, Listener.next] at fails
  | accept idle sound accepts =>
    cases reads with
    | before isOpen _ zero =>
      simp only [isOpen, Listener.next, Bool.false_eq_true, if_false, Prod.mk.injEq] at accepts
      exact .during accepts.2.1.symm (by simp) (by simp) zero
    | during _ busy => exact absurd idle busy
    | after closed => simp [closed, Listener.next] at accepts
  | cloneFail accepted | startFail accepted | startPanic accepted | start accepted =>
    cases reads with
    | before _ idle => simp [accepted] at idle
    | during closed _ _ zero => exact .during closed (by simp) (by simp) zero
    | after _ ended => simp [accepted] at ended
  | thread session | joinFail session | joinPanic session =>
    cases reads with
    | before _ idle => simp [session] at idle
    | during closed _ _ zero => exact .during closed (by simp) (by simp) zero
    | after _ ended => simp [session] at ended
  | join session joined =>
    cases reads with
    | before _ idle => simp [session] at idle
    | during closed _ _ zero => exact .after closed (Or.inl rfl) (by simp [zero])
    | after _ ended => simp [session] at ended

/-- A server that does not read stdin keeps its listener, which always has another connection. -/
structure Listens (s : Server command) : Prop where
  listener : ∀ isClosed, s.listener ≠ .stdin isClosed
  stage : s.stage ≠ .returned (.ok ())

theorem Listens.step (listens : Listens s) (step : Step s s') : Listens s' := by
  cases step with
  | noMore idle sound ends => exact absurd (Listener.next_none ends).1 (listens.listener true)
  | acceptFail idle sound fails =>
    obtain ⟨-, -, rfl, -⟩ := Listener.next_error sound fails
    exact ⟨listens.listener, by simp⟩
  | accept idle sound accepts =>
    cases (Listener.next_ok sound accepts).2 with
    | inl isStdin => exact absurd isStdin.1 (listens.listener false)
    | inr same =>
      obtain ⟨rfl, -⟩ := same
      exact ⟨listens.listener, by simp⟩
  | cloneFail | startFail | startPanic | start | thread | join | joinFail | joinPanic =>
    exact ⟨listens.listener, by simp⟩

/-- A server that returns without an error has been launched with `-` and has served one session,
    which is all that it serves then; any other server goes on until something fails. -/
theorem returns_ok_after_stdin (launches : Launched command base inputUri outputUri launched)
    (reachable : Reachable launched s) :
    (s.stage = .returned (.ok ()) → inputUri = ['-'] ∧ s.served = 1) ∧
      (inputUri = ['-'] → s.served ≤ 1) := by
  have ready := launches.ready
  obtain ⟨listening, connecting, -, -, succeeds⟩ := launches.launches
  obtain ⟨table, listens, -⟩ := launch_eq_ok succeeds
  cases Listener.fromUri_stdin listens with
  | inl isStdin =>
    obtain ⟨isDash, first⟩ := isStdin
    have reads : ReadsStdin s := by
      induction reachable with
      | refl => exact .before first ready.idle ready.none_served
      | tail _ step inductionHypothesis => exact inductionHypothesis.step step
    constructor
    · intro returned
      cases reads with
      | before _ idle => simp [returned] at idle
      | during _ _ other => exact absurd returned other
      | after _ _ one => exact ⟨isDash, one⟩
    · intro _
      cases reads with
      | before _ _ zero | during _ _ _ zero => exact zero ▸ Nat.zero_le 1
      | after _ _ one => exact one ▸ Nat.le_refl 1
  | inr other =>
    obtain ⟨notDash, first⟩ := other
    have goesOn : Listens s := by
      induction reachable with
      | refl => exact ⟨first, by simp [ready.idle]⟩
      | tail _ step inductionHypothesis => exact inductionHypothesis.step step
    exact ⟨fun returned => absurd returned goesOn.stage, fun isDash => absurd isDash notDash⟩

theorem returns_ok_after_stdin_sample :
    ∃ s, Reachable stdServer s ∧ s.stage = .returned (.ok ()) ∧ s.served = 1 := by
  obtain ⟨s, reached, accepted, output, closed⟩ := exists_accepted_stdServer
  have ready := launched_stdServer.ready
  have clones : s.output.tryClone refusing s.table = (.ok .stdout, s.table) := by
    rw [output]
    rfl
  obtain ⟨s', served, idle, -, listener⟩ := exists_served ready (.reachable ready reached) accepted
    (refusing_sound _) clones (Or.inl rfl)
  have ends : s'.listener.next refusing s'.table = (none, .stdin true, s'.table) := by
    rw [listener, closed]
    rfl
  have run := (reached.trans served).tail (.noMore idle (refusing_sound _) ends)
  obtain ⟨returns, -⟩ := returns_ok_after_stdin launched_stdServer run
  exact ⟨_, run, rfl, (returns rfl).2⟩

end Server

end GarudaCodec.Core
