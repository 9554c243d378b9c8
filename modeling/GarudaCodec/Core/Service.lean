import GarudaCodec.Foundation.PipelineSources
import GarudaCodec.Foundation.Serving
import GarudaCodec.Core.Guarantees
import GarudaCodec.Core.Threads

/-! # A decoder as a server

`run_decoder` takes its connections in turn, each with a new decoder, and all decoders write to one
output stream.  At the other end of a connection is an encoder, which may run before the connection
is accepted and after it has been served.  Since each decoder is new, blocks of different
connections cannot mix, whatever their numbers are (`separate_connections_deliver`).
-/

namespace GarudaCodec.Core

open GarudaCodec.Foundation
open GarudaCodec.Foundation.Readers
open GarudaCodec.Foundation.Pipeline
open GarudaCodec.Foundation.Serving
open GarudaCodec.Core.Io

variable {rq : Raptorq} {setup : Setup rq}

/-- What is left of a decoder after `start_decoding`. -/
def Setup.startedDecoder (setup : Setup rq) : Decoder setup.workers :=
  { Decoder.new setup.workers setup.blockSize setup.maxPacketSize with
    handles := .all (List.finRange setup.workers) }

theorem exit?_withSource {ι σ α ω β : Type*} (s : State ι σ α ω β) (source : σ) :
    (s.withSource source).exit? = s.exit? := by
  funext thread
  cases thread <;> rfl

/-- One connection of `run_decoder`: its threads, everything else that happens, and the end of
    `wait`. -/
def decoderServer (setup : Setup rq) : Discipline (Link rq setup.workers) where
  serve := fun s s' => ∃ decoder', Pipeline.Step (decoderProgram rq setup.workers_pos)
    s.decoder decoder' ∧ s' = { s with decoder := decoder' }
  other := fun s s' => Link.Step setup s s' ∧ s'.decoder = s.decoder.withSource s'.decoder.source
  done := fun s => (setup.startedDecoder.wait s.decoder.exit?).1 = some (.ok ())
  done_other := by
    intro s s' done others
    rw [others.2, exit?_withSource]
    exact done

namespace Link

variable {s s' : Link rq setup.workers}

theorem any_iff_step : (decoderServer setup).any s s' ↔ Step setup s s' := by
  constructor
  · intro moves
    cases moves with
    | inl serves =>
      obtain ⟨decoder', decoderStep, rfl⟩ := serves
      exact .decode decoderStep
    | inr others => exact others.1
  · intro step
    cases step with
    | decode decoderStep => exact Or.inl ⟨_, decoderStep, rfl⟩
    | accept idle waits => exact Or.inr ⟨.accept idle waits, rfl⟩
    | encode running encoderStep => exact Or.inr ⟨.encode running encoderStep, rfl⟩
    | finish running ended => exact Or.inr ⟨.finish running ended, rfl⟩
    | drop next => exact Or.inr ⟨.drop next, rfl⟩
    | deliver next isOpen quiet bytes => exact Or.inr ⟨.deliver next isOpen quiet bytes, rfl⟩
    | close served idle => exact Or.inr ⟨.close served idle, rfl⟩

theorem any_eq_step : (decoderServer setup).any = Step setup := by
  funext s s'
  exact propext any_iff_step

/-- Before a connection is served its packets wait at the decoder. -/
theorem untouched_of_others (run : Relation.ReflTransGen (decoderServer setup).other s s') :
    s'.decoder = s.decoder.withSource s'.decoder.source := by
  induction run with
  | refl => exact (State.withSource_self _).symm
  | tail _ others inductionHypothesis =>
    have same := others.2
    rwa [inductionHypothesis, State.withSource_withSource] at same

end Link

theorem decoderServer_outputs (setup : Setup rq) :
    (decoderServer setup).Outputs fun s => s.decoder.written where
  serve := by
    intro s s' serves
    obtain ⟨decoder', decoderStep, rfl⟩ := serves
    exact decoderStep.written_prefix
  other := by
    intro s s' others
    rw [others.2]
    rfl

/-- The blocks the server has written. -/
def blocksWritten (s : Service (Link rq setup.workers)) : List (List UInt8) :=
  s.output fun link => link.decoder.written

/-- A connection that has been drained has been served. -/
theorem done_of_drained {link : Link rq setup.workers} (drained : link.Drained) :
    (decoderServer setup).done link :=
  (Decoder.wait_eq_ok_iff rfl).mpr ⟨drained.decoder.allEnded, drained.decoder.calm⟩

/-- Connections that can be drained alone can be served. -/
theorem exists_served {connections : List (List Session)} {links : List (Link rq setup.workers)}
    (runs : List.Forall₂ (Link.Reachable setup) (connections.map (Link.start setup)) links)
    (drained : ∀ link ∈ links, link.Drained) :
    Reachable (decoderServer setup) ⟨connections.map (Link.start setup), 0⟩
      ⟨links, links.length⟩ := by
  have alike : List.Forall₂ (Relation.ReflTransGen (decoderServer setup).any)
      (connections.map (Link.start setup)) links := by
    rwa [Link.any_eq_step]
  simpa using exists_run alike (fun link member => done_of_drained (drained link member)) []

/-- Two connections, the first blocks of which have the same number. -/
theorem exists_served_systematic {workers : Nat} (positive : 0 < workers) :
    ∃ s : Service (Link systematicCodec (Link.systematicSetup positive).workers),
      Reachable (decoderServer (Link.systematicSetup positive))
        ⟨[[Link.wholeSession 7 (List.replicate 16 1)], [Link.wholeSession 7 (List.replicate 16 2)]].map
          (Link.start (Link.systematicSetup positive)), 0⟩ s ∧
      s.serving = 2 ∧ (∀ link ∈ s.connections, link.Drained) ∧
      ∀ link ∈ s.connections, link.delivered = link.wire := by
  have exists_link : ∀ byte : UInt8, ∃ link,
      Link.Reachable (Link.systematicSetup positive)
        (Link.start _ [Link.wholeSession 7 (List.replicate 16 byte)]) link ∧
      link.Drained ∧ link.delivered = link.wire := by
    intro byte
    have quiet : ∀ session ∈ [Link.wholeSession 7 (List.replicate 16 byte)],
        Quiet onError session.input := by
      simpa using Link.quiet_wholeSession 7 (by simp)
    obtain ⟨link, reachable, drained, kept⟩ :=
      Link.exists_drained_systematic positive quiet fun _ => true
    exact ⟨link, reachable, drained, by simpa using kept⟩
  obtain ⟨first, firstRun, firstDrained, firstWhole⟩ := exists_link 1
  obtain ⟨second, secondRun, secondDrained, secondWhole⟩ := exists_link 2
  refine ⟨⟨[first, second], 2⟩, exists_served (.cons firstRun (.cons secondRun .nil)) ?_, rfl, ?_,
    ?_⟩
  · simp [firstDrained, secondDrained]
  · simp [firstDrained, secondDrained]
  · simp [firstWhole, secondWhole]

/-- The runs of each connection are those it has alone, only that it has to wait for its turn, and
    what is written for it stands between what is written for the others. -/
theorem connections_isolated (setup : Setup rq) (connections : List (List Session))
    {s : Service (Link rq setup.workers)}
    (reachable : Reachable (decoderServer setup) ⟨connections.map (Link.start setup), 0⟩ s) :
    s.connections.length = connections.length ∧
      (∀ idx sessions link, connections[idx]? = some sessions → s.connections[idx]? = some link →
        Link.Reachable setup (Link.start setup sessions) link ∧
        (s.serving < idx → link.decoder =
          (Link.start setup sessions).decoder.withSource link.decoder.source) ∧
        (idx < s.serving → AllEnded link.decoder)) ∧
      ∀ s', Reachable (decoderServer setup) s s' → blocksWritten s <+: blocksWritten s' := by
  have served := served_of_reachable reachable
  constructor
  · simpa using served.length
  constructor
  · intro idx sessions link isSessions isLink
    have isStart : (connections.map (Link.start setup))[idx]? = some (Link.start setup sessions) := by
      simp [isSessions]
    constructor
    · have run := served.each idx _ link isStart isLink
      rwa [Link.any_eq_step] at run
    constructor
    · intro waits
      exact Link.untouched_of_others (served.later idx waits _ link isStart isLink)
    · intro before
      exact ((Decoder.wait_eq_ok_iff rfl).mp (served.earlier idx link before isLink)).1
  · intro s' later
    refine output_prefix (decoderServer_outputs setup) ?_ reachable later
    intro start member
    obtain ⟨sessions, -, rfl⟩ := List.mem_map.mp member
    rfl

theorem connections_isolated_systematic :
    ∃ s : Service (Link systematicCodec (Link.systematicSetup Nat.one_pos).workers),
      s.serving = 2 ∧ ∀ link ∈ s.connections, AllEnded link.decoder := by
  obtain ⟨s, reachable, serving, -, -⟩ := exists_served_systematic Nat.one_pos
  obtain ⟨length, isolated, -⟩ := connections_isolated _ _ reachable
  refine ⟨s, serving, fun link member => ?_⟩
  obtain ⟨idx, inside, isLink⟩ := List.mem_iff_getElem.mp member
  rw [length] at inside
  exact (isolated idx _ link (List.getElem?_eq_getElem inside) (by simp [← isLink])).2.2
    (serving ▸ inside)

end GarudaCodec.Core
