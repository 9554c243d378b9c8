import GarudaCodec.Core.BlockDecoder
import GarudaCodec.Core.Encoder

/-! # `decoder.rs`

The decoder as a pipeline: the packet dispatcher cuts its byte stream into packets of the size it
has inferred and deals them out by their block number, each worker runs a block decoder, and the
block forwarder writes the decoded blocks.
-/

namespace GarudaCodec.Core

open GarudaCodec.Foundation
open GarudaCodec.Foundation.Lanes
open GarudaCodec.Foundation.Readers
open GarudaCodec.Foundation.Pipeline
open GarudaCodec.Core.Io

variable {rq : Raptorq}

/-- `PacketDispatcher` together with its input stream.  While the stream is open, a read at the
    end of what has arrived so far waits for more. -/
structure PacketDispatcher where
  packetSize : Nat
  input : Reader
  isOpen : Bool

/-- One iteration of the loop in `dispatch`. -/
def PacketDispatcher.fetch (rq : Raptorq) (dispatcher : PacketDispatcher) :
    Option (Fetch PacketDispatcher rq.EncodingPacket) :=
  match readExact dispatcher.input dispatcher.packetSize with
  | (.ok packet, input) => some (.item (rq.deserialize packet) { dispatcher with input })
  | (.error kind, input) =>
    if kind = .unexpectedEof ∧ dispatcher.isOpen then none
    else some (.stop (exitOf kind) { dispatcher with input })

/-- One iteration of `decode_stream`. -/
def BlockDecoder.decodeNext (decoder : BlockDecoder rq) (packet : rq.EncodingPacket) :
    Worked (BlockDecoder rq) (List UInt8) :=
  .outputs (decoder.decode packet).1 (decoder.decode packet).2.toList

/-- The threads `start_decoding` starts. -/
def decoderProgram (rq : Raptorq) {workers : Nat} (positive : 0 < workers) :
    Program (Fin workers) PacketDispatcher rq.EncodingPacket (BlockDecoder rq) (List UInt8) where
  fetch := PacketDispatcher.fetch rq
  route := fun packet => queueOf positive (rq.sourceBlockNumber packet)
  work := BlockDecoder.decodeNext
  capacity := queueCapacity
  capacity_pos := queueCapacity_pos

theorem run_decoder {workers : Nat} (positive : 0 < workers) (decoder : BlockDecoder rq)
    (packets : List rq.EncodingPacket) :
    (decoderProgram rq positive).run decoder packets = some (decoder.decodeStream packets) := by
  induction packets generalizing decoder with
  | nil => rfl
  | cons packet packets inductionHypothesis =>
    have worked : (decoderProgram rq positive).work decoder packet =
        .outputs (decoder.decode packet).1 (decoder.decode packet).2.toList := rfl
    rw [Program.run, worked]
    simp only [inductionHypothesis, BlockDecoder.decodeStream]

/-! ## What the packet dispatcher sends -/

/-- A packet that fills the buffer of the dispatcher and is recovered from it. -/
structure Whole (rq : Raptorq) (packetSize : Nat) (packet : rq.EncodingPacket) : Prop where
  length : (rq.serialize packet).length = packetSize
  recovers : rq.deserialize (rq.serialize packet) = packet

namespace PacketDispatcher

/-- With a packet's bytes in front, the dispatcher fetches that packet. -/
theorem fetch_packet {dispatcher : PacketDispatcher} {packet : rq.EncodingPacket}
    {bytes : List UInt8} (quiet : Quiet onError dispatcher.input)
    (whole : Whole rq dispatcher.packetSize packet)
    (front : contents dispatcher.input = rq.serialize packet ++ bytes) :
    ∃ input, dispatcher.fetch rq = some (.item packet { dispatcher with input }) ∧
      Quiet onError input ∧ contents input = bytes := by
  obtain ⟨input, reads, restQuiet, rest⟩ := quiet.reads_front front
  refine ⟨input, ?_, restQuiet, rest⟩
  rw [fetch, readExact, ← whole.length, reads]
  simp only [whole.recovers, whole.length]

/-- With too few bytes left, the dispatcher waits while the stream is open and then ends well. -/
theorem fetch_end {dispatcher : PacketDispatcher} (quiet : Quiet onError dispatcher.input)
    (few : (contents dispatcher.input).length < dispatcher.packetSize) :
    dispatcher.fetch rq =
      if dispatcher.isOpen then none else some (.stop .ok { dispatcher with input := [] }) := by
  rw [fetch, readExact, quiet.reads_eof few]
  cases isOpen : dispatcher.isOpen with
  | true => rfl
  | false => rfl

/-- What is left to read, by the phase of the dispatcher. -/
def Unread (rq : Raptorq) (dispatcher : PacketDispatcher) (pending : List rq.EncodingPacket) :
    Phase rq.EncodingPacket → Prop
  | .running _ => Quiet onError dispatcher.input ∧
      contents dispatcher.input = pending.flatMap rq.serialize
  | .ended .ok => pending = [] ∧ dispatcher.isOpen = false
  | .ended .failed => True
  | .ended .panicked => True

/-- Of the packets that have arrived, the dispatcher has sent all but those it holds or still has
    to read. -/
structure Receives (packetSize : Nat) (packets : List rq.EncodingPacket)
    (view : PacketDispatcher × Phase rq.EncodingPacket × List rq.EncodingPacket) : Prop where
  packetSize : view.1.packetSize = packetSize
  sent : ∃ rest pending, packets = view.2.2 ++ rest ++ pending ∧ view.2.1.Holds rest ∧
    view.1.Unread rq pending view.2.1

variable {packetSize : Nat} {packets : List rq.EncodingPacket}

/-- In its loop, the dispatcher is at the end of what has arrived or fetches the next packet. -/
theorem Receives.fetch_cases (positive : 0 < packetSize) {dispatcher : PacketDispatcher}
    {sent : List rq.EncodingPacket}
    (receives : Receives packetSize packets (dispatcher, .running [], sent))
    (whole : ∀ packet ∈ packets, Whole rq packetSize packet) :
    (dispatcher.fetch rq =
        (if dispatcher.isOpen then none else some (.stop .ok { dispatcher with input := [] })) ∧
      packets = sent) ∨
    ∃ packet input, dispatcher.fetch rq = some (.item packet { dispatcher with input }) ∧
      Receives packetSize packets ({ dispatcher with input }, .running [packet], sent) := by
  have size : dispatcher.packetSize = packetSize := receives.packetSize
  obtain ⟨rest, pending, split, held, quiet, unread⟩ := receives.sent
  cases held
  cases pending with
  | nil =>
    have few : (contents dispatcher.input).length < dispatcher.packetSize := by
      rw [size, unread]
      exact positive
    exact Or.inl ⟨fetch_end quiet few, by simpa using split⟩
  | cons first pending =>
    have inPackets : first ∈ packets := by
      rw [split]
      simp
    obtain ⟨input, fetches, restQuiet, restUnread⟩ :=
      fetch_packet quiet (size ▸ whole first inPackets) unread
    exact Or.inr ⟨first, input, fetches, size, [first], pending, by simp [split], rfl, restQuiet,
      restUnread⟩

theorem Receives.fetched (positive : 0 < packetSize) {dispatcher next : PacketDispatcher}
    {sent : List rq.EncodingPacket} {packet : rq.EncodingPacket}
    (receives : Receives packetSize packets (dispatcher, .running [], sent))
    (whole : ∀ packet ∈ packets, Whole rq packetSize packet)
    (fetched : dispatcher.fetch rq = some (.item packet next)) :
    Receives packetSize packets (next, .running [packet], sent) := by
  rcases receives.fetch_cases positive whole with ⟨ends, -⟩ | ⟨first, input, fetches, received⟩
  · rw [ends] at fetched
    split at fetched <;> cases fetched
  · rw [fetches] at fetched
    cases fetched
    exact received

theorem Receives.stopped {dispatcher next : PacketDispatcher} {sent : List rq.EncodingPacket}
    {exit : Exit} (receives : Receives packetSize packets (dispatcher, .running [], sent))
    (whole : ∀ packet ∈ packets, Whole rq packetSize packet) (positive : 0 < packetSize)
    (fetched : dispatcher.fetch rq = some (.stop exit next)) :
    Receives packetSize packets (next, .ended exit, sent) := by
  rcases receives.fetch_cases positive whole with ⟨ends, all⟩ | ⟨first, input, fetches, -⟩
  · rw [ends] at fetched
    split at fetched
    next => cases fetched
    next closed =>
      cases fetched
      exact ⟨receives.packetSize, [], [], by simpa using all, rfl, rfl, by simpa using closed⟩
  · rw [fetches] at fetched
    cases fetched

/-- Every move of the dispatcher keeps `Receives`. -/
theorem Receives.move {workers : Nat} {positive : 0 < workers}
    {view view' : PacketDispatcher × Phase rq.EncodingPacket × List rq.EncodingPacket}
    (sizePositive : 0 < packetSize) (whole : ∀ packet ∈ packets, Whole rq packetSize packet)
    (move : SourceMove (decoderProgram rq positive) view view')
    (receives : Receives packetSize packets view) : Receives packetSize packets view' := by
  cases move with
  | fetched fetch => exact receives.fetched sizePositive whole fetch
  | stopped fetch => exact receives.stopped whole sizePositive fetch
  | sent =>
    obtain ⟨rest, pending, split, held, unread⟩ := receives.sent
    cases held
    exact ⟨receives.packetSize, [], pending, by simpa using split, rfl, unread⟩
  | refused =>
    obtain ⟨rest, pending, split, _, _⟩ := receives.sent
    exact ⟨receives.packetSize, rest, pending, split, trivial, trivial⟩

/-- The channel hands on one more packet, in any fragments. -/
theorem Receives.arrive {dispatcher : PacketDispatcher} {phase : Phase rq.EncodingPacket}
    {sent : List rq.EncodingPacket}
    (receives : Receives packetSize packets (dispatcher, phase, sent))
    (isOpen : dispatcher.isOpen = true) {packet : rq.EncodingPacket} {fragments : Reader}
    (quiet : Quiet onError fragments) (bytes : contents fragments = rq.serialize packet) :
    Receives packetSize (packets ++ [packet])
      ({ dispatcher with input := dispatcher.input ++ fragments }, phase, sent) := by
  obtain ⟨rest, pending, split, held, unread⟩ := receives.sent
  refine ⟨receives.packetSize, rest, pending ++ [packet], by simp [split], held, ?_⟩
  cases phase with
  | running =>
    obtain ⟨stillQuiet, unread⟩ := unread
    exact ⟨stillQuiet.append quiet, by simp [unread, bytes]⟩
  | ended exit =>
    cases exit with
    | failed | panicked => trivial
    | ok =>
      -- the dispatcher does not end well while the stream is open
      rw [unread.2] at isOpen
      cases isOpen

theorem Receives.close {dispatcher : PacketDispatcher} {phase : Phase rq.EncodingPacket}
    {sent : List rq.EncodingPacket}
    (receives : Receives packetSize packets (dispatcher, phase, sent)) :
    Receives packetSize packets ({ dispatcher with isOpen := false }, phase, sent) := by
  obtain ⟨rest, pending, split, held, unread⟩ := receives.sent
  refine ⟨receives.packetSize, rest, pending, split, held, ?_⟩
  cases phase with
  | running => exact unread
  | ended exit =>
    cases exit with
    | failed | panicked => trivial
    | ok => exact ⟨unread.1, rfl⟩

end PacketDispatcher

/-! ## Runs of a decoder -/

abbrev DecoderState (rq : Raptorq) (workers : Nat) :=
  State (Fin workers) PacketDispatcher rq.EncodingPacket (BlockDecoder rq) (List UInt8)

/-- What holds in every state of a run in which these packets have arrived. -/
structure Decodes {workers : Nat} (positive : 0 < workers) (decoder : BlockDecoder rq)
    (packetSize : Nat) (packets : List rq.EncodingPacket) (s : DecoderState rq workers) :
    Prop where
  wired : Wired (decoderProgram rq positive) (fun _ => decoder) s
  receives : PacketDispatcher.Receives packetSize packets s.sourceView

/-- Once nothing is left in the queues, every worker has sent what its decoder makes of all packets
    dispatched to it. -/
theorem lane_of_consumed {workers : Nat} {positive : 0 < workers} {decoder : BlockDecoder rq}
    {s : DecoderState rq workers}
    (consumed : Consumed (decoderProgram rq positive) (fun _ => decoder) s) (key : Fin workers) :
    lane s.merged key = (decoder.decodeStream (s.sent.filter fun packet =>
      queueOf positive (rq.sourceBlockNumber packet) = key)).2 := by
  have ran := consumed.worked key
  rw [run_decoder, Option.some.injEq, consumed.received key] at ran
  exact (congrArg Prod.snd ran).symm

namespace Decodes

variable {workers : Nat} {positive : 0 < workers} {decoder : BlockDecoder rq} {packetSize : Nat}
variable {packets : List rq.EncodingPacket} {s s' : DecoderState rq workers}

theorem start (positive : 0 < workers) (decoder : BlockDecoder rq) (packetSize : Nat) :
    Decodes positive decoder packetSize []
      (State.start { packetSize, input := [], isOpen := true } fun _ => decoder) :=
  ⟨.start _ _ _, rfl, [], [], rfl, rfl, .nil, rfl⟩

theorem step (sizePositive : 0 < packetSize)
    (whole : ∀ packet ∈ packets, Whole rq packetSize packet)
    (decodes : Decodes positive decoder packetSize packets s)
    (step : Step (decoderProgram rq positive) s s') :
    Decodes positive decoder packetSize packets s' where
  wired := decodes.wired.step step
  receives := step.source_invariant (.move sizePositive whole) decodes.receives

theorem sent_prefix (decodes : Decodes positive decoder packetSize packets s) :
    s.sent <+: packets := by
  obtain ⟨rest, pending, split, _⟩ := decodes.receives.sent
  rw [split, List.append_assoc]
  exact List.prefix_append _ _

/-- What a worker has put into the block queue is the start of what its decoder makes of all
    packets that arrived for it. -/
theorem lane_prefix (decodes : Decodes positive decoder packetSize packets s)
    (key : Fin workers) :
    lane s.merged key <+: (decoder.decodeStream
      (packets.filter fun packet => queueOf positive (rq.sourceBlockNumber packet) = key)).2 := by
  obtain ⟨rest, ran, _⟩ := decodes.wired.worked key
  rw [run_decoder, Option.some.injEq] at ran
  -- the worker's decoder has seen the start of the packets for its queue
  have outputs : lane s.merged key <+: (decoder.decodeStream (s.received key)).2 := by
    rw [ran]
    exact List.prefix_append _ _
  have inputs : s.received key <+:
      packets.filter fun packet => queueOf positive (rq.sourceBlockNumber packet) = key :=
    (decodes.wired.received_prefix key).trans (decodes.sent_prefix.filter _)
  obtain ⟨queue, split⟩ := inputs
  rw [← split, BlockDecoder.decodeStream_append]
  exact outputs.trans (List.prefix_append _ _)

/-- A drained decoder has written what its block decoders make of all packets that arrived. -/
theorem drained (decodes : Decodes positive decoder packetSize packets s) (drained : Drained s) :
    s.sent = packets ∧ s.written = s.merged.map Prod.snd ∧
      ∀ key, lane s.merged key = (decoder.decodeStream
        (packets.filter fun packet => queueOf positive (rq.sourceBlockNumber packet) = key)).2 := by
  have consumed := decodes.wired.consumed drained.workers drained.sink
  have phase : s.sourceView.2.1 = .ended .ok := drained.source
  obtain ⟨rest, pending, split, held, unread⟩ := decodes.receives.sent
  rw [phase] at held unread
  cases held
  obtain ⟨rfl, _⟩ := unread
  have sent : s.sent = packets := by simpa [State.sourceView] using split.symm
  refine ⟨sent, consumed.written, fun key => ?_⟩
  rw [lane_of_consumed consumed key, sent]

end Decodes

end GarudaCodec.Core
