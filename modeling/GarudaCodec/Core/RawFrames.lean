import GarudaCodec.Foundation.Messages
import GarudaCodec.Foundation.PipelineSources
import GarudaCodec.Core.Framing

/-! # `socket.rs`: a decoder that reads frames

With a `RawSocketReader` as its input, the packet dispatcher receives the frames of an interface,
one for each `recvfrom`, and every frame there is, not only those of the encoder.  The socket has a
receive timeout, and a timed-out receive is where a stop is noticed.

On a link that carries nothing but packets this makes no difference
(`raw_runs_as_stream`).  On any other link `raw_recovers_packets` says what is left of the packets
and what the block decoders get besides them.
-/

namespace GarudaCodec.Core

open GarudaCodec.Foundation
open GarudaCodec.Foundation.Readers
open GarudaCodec.Foundation.Messages
open GarudaCodec.Foundation.Pipeline
open GarudaCodec.Core.Io

variable {rq : Raptorq}

/-- `PacketDispatcher` together with a `RawSocketReader`. -/
structure RawPacketDispatcher where
  packetSize : Nat
  input : Socket

/-- One iteration of the loop in `dispatch`.  A receive waits until a frame arrives or the timeout
    is over. -/
def RawPacketDispatcher.fetch (rq : Raptorq) (dispatcher : RawPacketDispatcher) :
    Option (Fetch RawPacketDispatcher rq.EncodingPacket) :=
  match receiveExactWith onError dispatcher.input dispatcher.packetSize with
  | (some (.ok packet), input) => some (.item (rq.deserialize packet) { dispatcher with input })
  | (some (.error kind), input) => some (.stop (exitOf kind) { dispatcher with input })
  | (none, _) => none

/-- The threads `start_decoding` starts on a `RawSocketReader`. -/
def rawDecoderProgram (rq : Raptorq) {workers : Nat} (positive : 0 < workers) :
    Program (Fin workers) RawPacketDispatcher rq.EncodingPacket (BlockDecoder rq) (List UInt8) where
  fetch := RawPacketDispatcher.fetch rq
  route := (decoderProgram rq positive).route
  work := (decoderProgram rq positive).work
  capacity := (decoderProgram rq positive).capacity
  capacity_pos := (decoderProgram rq positive).capacity_pos

/-- The packets the dispatcher makes of frames. -/
def packetsOf (rq : Raptorq) (packetSize : Nat) (frames : List (List UInt8)) :
    List rq.EncodingPacket :=
  (groups packetSize [] frames).map rq.deserialize

/-- What a raw socket meets until a stop is noticed: frames that have bytes and timeouts that are
    retried, and then a timeout with the stop flag set. -/
structure Stopped (arrivals : Socket) (kind : ErrorKind) : Prop where
  calm : Calm onError arrivals
  noticed : onError kind true = some .interrupted

variable {packetSize workers : Nat} {arrivals later : Socket} {kind : ErrorKind}

theorem Stopped.suffix (stopped : Stopped arrivals kind) {rest : Socket}
    (suffix : rest <:+ arrivals) : Stopped rest kind :=
  ⟨stopped.calm.suffix suffix, stopped.noticed⟩

/-- One iteration of the loop until the stop: it makes a packet of the next frames, or ends. -/
theorem Stopped.fetch_cases (rq : Raptorq) (stopped : Stopped arrivals kind)
    (sizePositive : 0 < packetSize) (later : Socket) :
    (∃ buffer rest, rest <:+ arrivals ∧ rest.length < arrivals.length ∧
      groups packetSize [] (messages arrivals) =
        buffer :: groups packetSize [] (messages rest) ∧
      RawPacketDispatcher.fetch rq ⟨packetSize, arrivals ++ .fail kind true :: later⟩ =
        some (.item (rq.deserialize buffer) ⟨packetSize, rest ++ .fail kind true :: later⟩)) ∨
    (groups packetSize [] (messages arrivals) = [] ∧
      RawPacketDispatcher.fetch rq ⟨packetSize, arrivals ++ .fail kind true :: later⟩ =
        some (.stop .ok ⟨packetSize, later⟩)) := by
  have empty : ([] : List UInt8).length < packetSize := sizePositive
  have unrolled := groups_receiveExactWith stopped.calm empty
  rw [List.length_nil, Nat.sub_zero] at unrolled
  cases stopped.calm.receives sizePositive with
  | inl filled =>
    obtain ⟨buffer, rest, receives, shorter⟩ := filled
    have more := receiveExactWith_append receives (.fail kind true :: later)
    have suffix : rest <:+ arrivals := by
      simpa [receives] using receiveExactWith_suffix onError arrivals packetSize
    refine Or.inl ⟨buffer, rest, suffix, shorter, ?_, ?_⟩
    · rw [unrolled, receives]
      rfl
    · simp [RawPacketDispatcher.fetch, more]
  | inr waits =>
    obtain ⟨rest, waits⟩ := waits
    have ends := stopped.calm.gives_up waits stopped.noticed later
    refine Or.inr ⟨?_, ?_⟩
    · rw [unrolled, waits]
    · simp [RawPacketDispatcher.fetch, ends, exitOf]

/-- The loop sends what it makes of the frames up to the stop and then ends well. -/
theorem Stopped.dispatches (stopped : Stopped arrivals kind) (positive : 0 < workers)
    (sizePositive : 0 < packetSize) {packets : List rq.EncodingPacket} {exit : Exit} :
    (rawDecoderProgram rq positive).Dispatches
        ⟨packetSize, arrivals ++ .fail kind true :: later⟩ packets exit ↔
      packets = packetsOf rq packetSize (messages arrivals) ∧ exit = .ok := by
  induction enough : arrivals.length using Nat.strong_induction_on generalizing arrivals packets with
  | _ amount inductionHypothesis =>
    cases stopped.fetch_cases rq sizePositive later with
    | inl fetched =>
      obtain ⟨buffer, rest, suffix, shorter, unrolled, fetches⟩ := fetched
      have restStopped := stopped.suffix suffix
      have item : (rawDecoderProgram rq positive).fetch
          ⟨packetSize, arrivals ++ .fail kind true :: later⟩ = some (.item _ _) := fetches
      rw [Program.dispatches_item item, packetsOf, unrolled, List.map_cons]
      constructor
      · rintro ⟨others, rfl, goesOn⟩
        obtain ⟨rfl, rfl⟩ :=
          (inductionHypothesis _ (enough ▸ shorter) restStopped rfl).mp goesOn
        exact ⟨rfl, rfl⟩
      · rintro ⟨rfl, rfl⟩
        exact ⟨_, rfl, (inductionHypothesis _ (enough ▸ shorter) restStopped rfl).mpr ⟨rfl, rfl⟩⟩
    | inr ended =>
      obtain ⟨unrolled, fetches⟩ := ended
      have stop : (rawDecoderProgram rq positive).fetch
          ⟨packetSize, arrivals ++ .fail kind true :: later⟩ = some (.stop .ok _) := fetches
      rw [Program.dispatches_stop stop, packetsOf, unrolled]
      rfl

/-! ## Frames of others -/

theorem packetsOf_serialize {packets : List rq.EncodingPacket}
    (whole : ∀ packet ∈ packets, Whole rq packetSize packet) :
    (packets.map rq.serialize).map rq.deserialize = packets := by
  rw [List.map_map]
  conv => rhs; rw [← List.map_id packets]
  exact List.map_congr_left fun packet member => (whole packet member).recovers

/-- Of the encoder's packets and any frames of others, in any order and with any timeouts, the
    decoder's queues get all that arrives before the stop is noticed: at most one packet is lost
    for each foreign frame that is shorter than a packet, and at most one packet is made up for
    each foreign frame. -/
theorem raw_recovers_packets (positive : 0 < workers) (sizePositive : 0 < packetSize)
    {packets : List rq.EncodingPacket} (whole : ∀ packet ∈ packets, Whole rq packetSize packet)
    (frames : List (Bool × List UInt8)) (ours : own frames = packets.map rq.serialize)
    (stopped : Stopped arrivals kind) (arrive : messages arrivals = frames.map Prod.snd)
    {decoders : Fin workers → BlockDecoder rq}
    {s : State (Fin workers) RawPacketDispatcher rq.EncodingPacket (BlockDecoder rq) (List UInt8)}
    (reachable : Reachable (rawDecoderProgram rq positive)
      (State.start ⟨packetSize, arrivals ++ .fail kind true :: later⟩ decoders) s)
    (ended : s.sourcePhase = .ended .ok) :
    s.sent = packetsOf rq packetSize (frames.map Prod.snd) ∧
      ∃ recovered : List rq.EncodingPacket, recovered.Sublist packets ∧ recovered.Sublist s.sent ∧
        packets.length ≤ recovered.length + shortForeign packetSize frames ∧
        s.sent.length ≤ recovered.length + (foreign frames).length := by
  have dispatches := dispatches_of_source_ok reachable ended
  obtain ⟨sent, -⟩ := (stopped.dispatches positive sizePositive).mp dispatches
  rw [arrive] at sent
  refine ⟨sent, ?_⟩
  have sized : ∀ bytes ∈ own frames, bytes.length = packetSize := by
    intro bytes member
    rw [ours] at member
    obtain ⟨packet, inPackets, rfl⟩ := List.mem_map.mp member
    exact (whole packet inPackets).length
  have empty : ([] : List UInt8).length < packetSize := sizePositive
  obtain ⟨recovered, recovers⟩ := groups_recover empty frames sized
  have missing := recovers.missing
  have extra := recovers.extra
  rw [ours, List.length_map] at missing
  refine ⟨recovered.map rq.deserialize, ?_, ?_, by simpa using missing, ?_⟩
  · have fromOwn := recovers.fromOwn.map rq.deserialize
    rwa [ours, packetsOf_serialize whole] at fromOwn
  · rw [sent]
    exact recovers.inGroups.map rq.deserialize
  · simpa [sent, packetsOf] using extra

/-- Between two packets, a frame of three bytes: the second packet is lost with it, and a packet of
    that frame's bytes and its own is made up. -/
theorem raw_recovers_packets_systematic :
    ∃ s : State (Fin 1) RawPacketDispatcher Systematic.Packet (BlockDecoder systematicCodec)
        (List UInt8),
      s.sent = [⟨7, 0, List.replicate 8 1⟩, ⟨9, 9 * 2 ^ 16 + 9 * 2 ^ 8 + 7, [0, 0, 1, 2, 2, 2, 2, 2]⟩] ∧
        ∃ recovered : List Systematic.Packet,
          recovered.Sublist [⟨7, 0, List.replicate 8 1⟩, ⟨7, 1, List.replicate 8 2⟩] ∧
          recovered.Sublist s.sent ∧ 2 ≤ recovered.length + 1 ∧
          s.sent.length ≤ recovered.length + 1 := by
  have whole : ∀ packet ∈ ([⟨7, 0, List.replicate 8 1⟩, ⟨7, 1, List.replicate 8 2⟩] :
      List Systematic.Packet), Whole systematicCodec 12 packet := by
    simp only [List.forall_mem_cons]
    exact ⟨⟨rfl, rfl⟩, ⟨rfl, rfl⟩, nofun⟩
  let arrivals : Socket :=
    [.message [7, 0, 0, 0, 1, 1, 1, 1, 1, 1, 1, 1], .fail .wouldBlock false, .message [9, 9, 9],
      .message [7, 0, 0, 1, 2, 2, 2, 2, 2, 2, 2, 2]]
  have stopped : Stopped arrivals .wouldBlock := by
    constructor
    · simp [arrivals, Calm, onError]
    · rfl
  obtain ⟨s, reachable, ended⟩ :
      ∃ s, Reachable (rawDecoderProgram systematicCodec Nat.one_pos)
        (State.start ⟨12, arrivals ++ [.fail .wouldBlock true]⟩
          fun _ => ⟨16, 8, none, systematicCodec.newDecoder 0 8 16, false, 0, 0, []⟩) s ∧
        s.sourcePhase = .ended .ok := by
    refine ⟨_, .head (.fetchItem rfl rfl) (.head (.sourceSend rfl rfl ?_) (.head
      (.fetchItem rfl rfl) (.head (.sourceSend rfl rfl ?_) (.single (.fetchStop rfl rfl))))), rfl⟩
    · exact (show 0 < 10 by decide)
    · exact (show 1 < 10 by decide)
  obtain ⟨sent, recovered, fromPackets, inSent, missing, extra⟩ :=
    raw_recovers_packets Nat.one_pos (show 0 < 12 by decide) whole
      [(true, [7, 0, 0, 0, 1, 1, 1, 1, 1, 1, 1, 1]), (false, [9, 9, 9]),
        (true, [7, 0, 0, 1, 2, 2, 2, 2, 2, 2, 2, 2])] rfl stopped rfl reachable ended
  exact ⟨s, sent, recovered, fromPackets, inSent, missing, extra⟩

/-! ## A link that carries nothing but packets -/

/-- A dispatcher on a raw socket and one on a byte stream that have the same packets ahead of
    them. -/
structure SamePackets (kind : ErrorKind) (later : Socket) (packetSize : Nat)
    (raw : RawPacketDispatcher) (stream : PacketDispatcher) : Prop where
  frames : ∃ arrivals, Stopped arrivals kind ∧
    raw = ⟨packetSize, arrivals ++ .fail kind true :: later⟩ ∧
    (∀ frame ∈ messages arrivals, frame.length = packetSize) ∧
    contents stream.input = (messages arrivals).flatten
  packetSize : stream.packetSize = packetSize
  quiet : Quiet onError stream.input
  closed : stream.isOpen = false

theorem SamePackets.fetchAlike (rq : Raptorq) (kind : ErrorKind) (later : Socket)
    (positive : 0 < workers) (sizePositive : 0 < packetSize) :
    FetchAlike (rawDecoderProgram rq positive) (decoderProgram rq positive)
      (SamePackets kind later packetSize) where
  route := rfl
  work := rfl
  capacity := rfl
  fetch := by
    intro raw stream same
    obtain ⟨arrivals, stopped, rfl, whole, bytes⟩ := same.frames
    have asTheyAre := groups_whole whole
    cases stopped.fetch_cases rq sizePositive later with
    | inl fetched =>
      obtain ⟨buffer, rest, suffix, shorter, unrolled, fetches⟩ := fetched
      have messagesRest : messages rest <:+ messages arrivals := by
        obtain ⟨front, rfl⟩ := suffix
        rw [messages_append]
        exact List.suffix_append _ _
      have restWhole := fun frame member => whole frame (messagesRest.subset member)
      rw [groups_whole restWhole, asTheyAre] at unrolled
      rw [unrolled, List.flatten_cons] at bytes
      have size : buffer.length = stream.packetSize := by
        rw [same.packetSize]
        exact whole buffer (by simp [unrolled])
      obtain ⟨input, reads, quiet, restBytes⟩ := same.quiet.reads_front bytes
      rw [size] at reads
      have streamFetches :
          PacketDispatcher.fetch rq stream = some (.item (rq.deserialize buffer)
            { stream with input }) := by
        simp only [PacketDispatcher.fetch, readExact, reads]
      exact Or.inl ⟨_, _, _, fetches, streamFetches,
        ⟨rest, stopped.suffix suffix, rfl, restWhole, restBytes⟩, same.packetSize, quiet,
        same.closed⟩
    | inr ended =>
      obtain ⟨unrolled, fetches⟩ := ended
      rw [asTheyAre] at unrolled
      rw [unrolled] at bytes
      have few : (contents stream.input).length < stream.packetSize := by
        simpa [bytes, same.packetSize] using sizePositive
      have ends : PacketDispatcher.fetch rq stream = _ :=
        PacketDispatcher.fetch_end same.quiet few
      simp only [same.closed] at ends
      exact Or.inr (Or.inl ⟨_, _, _, fetches, ends⟩)

/-- On a link whose frames are all of the size of a packet, a decoder does with a raw socket exactly
    what it does with a byte stream of the same bytes. -/
theorem raw_runs_as_stream (positive : 0 < workers) (sizePositive : 0 < packetSize)
    (stopped : Stopped arrivals kind)
    (whole : ∀ frame ∈ messages arrivals, frame.length = packetSize) {input : Reader}
    (quiet : Quiet onError input) (bytes : contents input = (messages arrivals).flatten)
    (decoders : Fin workers → BlockDecoder rq)
    (s : State (Fin workers) Unit rq.EncodingPacket (BlockDecoder rq) (List UInt8)) :
    (∃ dispatcher, Reachable (rawDecoderProgram rq positive)
      (State.start ⟨packetSize, arrivals ++ .fail kind true :: later⟩ decoders)
      (s.withSource dispatcher)) ↔
    ∃ dispatcher, Reachable (decoderProgram rq positive)
      (State.start { packetSize, input, isOpen := false } decoders) (s.withSource dispatcher) := by
  have same : SamePackets kind later packetSize
      ⟨packetSize, arrivals ++ .fail kind true :: later⟩ { packetSize, input, isOpen := false } :=
    ⟨⟨arrivals, stopped, rfl, whole, bytes⟩, rfl, quiet, rfl⟩
  have fetchAlike := SamePackets.fetchAlike rq kind later positive sizePositive
  constructor
  · rintro ⟨dispatcher, reachable⟩
    exact fetchAlike.reachable same reachable
  · rintro ⟨dispatcher, reachable⟩
    exact fetchAlike.symm.reachable same reachable

/-- A run with one packet, which the stream brings in two pieces. -/
theorem raw_runs_as_stream_systematic :
    ∃ s : State (Fin 1) Unit Systematic.Packet (BlockDecoder systematicCodec) (List UInt8),
      s.sourcePhase = .ended .ok ∧ s.sent = [⟨7, 0, List.replicate 8 1⟩] ∧
        ∃ dispatcher, Reachable (decoderProgram systematicCodec Nat.one_pos)
          (State.start ⟨12, [.data [7, 0, 0, 0, 1], .data [1, 1, 1, 1, 1, 1, 1]], false⟩
            fun _ => ⟨16, 8, none, systematicCodec.newDecoder 0 8 16, false, 0, 0, []⟩)
          (s.withSource dispatcher) := by
  have stopped : Stopped [.message [7, 0, 0, 0, 1, 1, 1, 1, 1, 1, 1, 1]] .timedOut := by
    constructor
    · simp [Calm]
    · rfl
  obtain ⟨s, reachable, ended, sent⟩ :
      ∃ s, Reachable (rawDecoderProgram systematicCodec Nat.one_pos)
        (State.start ⟨12, [.message [7, 0, 0, 0, 1, 1, 1, 1, 1, 1, 1, 1]] ++ [.fail .timedOut true]⟩
          fun _ => ⟨16, 8, none, systematicCodec.newDecoder 0 8 16, false, 0, 0, []⟩) s ∧
        s.sourcePhase = .ended .ok ∧ s.sent = [⟨7, 0, List.replicate 8 1⟩] :=
    ⟨_, .head (.fetchItem rfl rfl) (.head (.sourceSend rfl rfl (show 0 < 10 by decide))
      (.single (.fetchStop rfl rfl))), rfl, rfl⟩
  have quiet : Quiet onError [.data [7, 0, 0, 0, 1], .data [1, 1, 1, 1, 1, 1, 1]] := by
    simp [Quiet]
  refine ⟨s.withSource (), ended, sent, ?_⟩
  exact (raw_runs_as_stream Nat.one_pos (show 0 < 12 by decide) stopped (by simp [messages])
    quiet rfl _ _).mp ⟨s.source, reachable⟩

end GarudaCodec.Core
