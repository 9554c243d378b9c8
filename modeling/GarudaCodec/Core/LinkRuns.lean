import GarudaCodec.Foundation.PipelineRuns
import GarudaCodec.Core.Link

/-! # Every choice of losses has a run

For every list of sessions with quiet inputs and every choice of packets to keep, there is a run
that serves all sessions, loses the other packets and ends with both sides drained.
-/

namespace GarudaCodec.Core

open GarudaCodec.Foundation
open GarudaCodec.Foundation.Chunks
open GarudaCodec.Foundation.Readers
open GarudaCodec.Foundation.Pipeline
open GarudaCodec.Core.Io

variable {rq : Raptorq}

/-- An encoder drains on a quiet input if no block makes it fail. -/
theorem exists_drained_encoder (setup : Setup rq) (positive : 0 < setup.blockSize)
    (encodes : ∀ block : Block, block.data.length = setup.blockSize →
      ∃ packets, setup.encoder.encode block = .ok packets)
    (position : Nat) {session : Session} (quiet : Quiet onError session.input) :
    ∃ encoder : EncoderState rq setup.workers,
      Pipeline.Reachable (encoderProgram rq setup.workers_pos)
        (.start (setup.dispatcher position session) fun _ => setup.encoder) encoder ∧
      Pipeline.Drained encoder := by
  apply exists_drained (fun dispatcher => (contents dispatcher.input).length)
    (fun dispatcher => Quiet onError dispatcher.input ∧ dispatcher.blockSize = setup.blockSize)
    (fun encoder => encoder = setup.encoder) ?_ (Idle.start _ _) ⟨quiet, rfl⟩ (fun _ => rfl)
  intro dispatcher ⟨quiet, size⟩
  by_cases enough : dispatcher.blockSize ≤ (contents dispatcher.input).length
  · obtain ⟨rest, reads, restQuiet, restContents⟩ := quiet.reads enough
    obtain ⟨packets, encoded⟩ := encodes
      { id := dispatcher.currentBlockId
        data := (contents dispatcher.input).take dispatcher.blockSize }
      (by rw [List.length_take, Nat.min_eq_left enough, size])
    refine Or.inr ⟨_, _, BlockDispatcher.fetch_of_ok reads, ⟨restQuiet, size⟩, ?_, ?_⟩
    · simp only [restContents, List.length_drop]
      omega
    · intro encoder isEncoder
      subst isEncoder
      have worked : setup.encoder.encodeNext
          { origin := dispatcher.position
            item := { id := dispatcher.currentBlockId
                      data := (contents dispatcher.input).take dispatcher.blockSize } } =
          .outputs setup.encoder (packets.map fun packet =>
            { origin := dispatcher.position, item := packet }) := by
        rw [BlockEncoder.encodeNext, encoded]
      exact ⟨_, _, worked, rfl⟩
  · have few := Nat.lt_of_not_le enough
    exact Or.inl ⟨_, BlockDispatcher.fetch_of_error (quiet.reads_eof few)⟩

/-- A decoder whose stream is closed drains if all that is left to read are whole packets. -/
theorem exists_drained_decoder (setup : Setup rq) (framed : rq.Framed)
    {decoder : DecoderState rq setup.workers} (idle : Idle decoder)
    (isOpen : decoder.source.isOpen = false)
    (size : decoder.source.packetSize = setup.packetSize)
    (quiet : Quiet onError decoder.source.input) {packets : List rq.EncodingPacket}
    (whole : ∀ packet ∈ packets, Whole rq setup.packetSize packet)
    (bytes : contents decoder.source.input = forwardPackets rq packets) :
    ∃ decoder', Pipeline.Reachable (decoderProgram rq setup.workers_pos) decoder decoder' ∧
      Pipeline.Drained decoder' := by
  have positive := setup.packetSize_pos framed
  refine exists_drained (fun dispatcher => (contents dispatcher.input).length)
    (fun dispatcher => dispatcher.isOpen = false ∧ dispatcher.packetSize = setup.packetSize ∧
      Quiet onError dispatcher.input ∧ ∃ pending,
        (∀ packet ∈ pending, Whole rq setup.packetSize packet) ∧
          contents dispatcher.input = forwardPackets rq pending)
    (fun _ => True) ?_ idle ⟨isOpen, size, quiet, packets, whole, bytes⟩ (fun _ => trivial)
  intro dispatcher ⟨isOpen, size, quiet, pending, whole, bytes⟩
  cases pending with
  | nil =>
    have few : (contents dispatcher.input).length < dispatcher.packetSize := by
      rw [bytes, size]
      exact positive
    refine Or.inl ⟨{ dispatcher with input := [] }, ?_⟩
    show dispatcher.fetch rq = _
    rw [PacketDispatcher.fetch_end quiet few, isOpen]
    rfl
  | cons packet pending =>
    have wholePacket := whole packet List.mem_cons_self
    obtain ⟨input, fetched, restQuiet, restBytes⟩ :=
      PacketDispatcher.fetch_packet quiet (size ▸ wholePacket) bytes
    refine Or.inr ⟨_, _, fetched, ⟨isOpen, size, restQuiet, pending, ?_, restBytes⟩, ?_, ?_⟩
    · exact fun other member => whole other (List.mem_cons_of_mem packet member)
    · have total : (contents dispatcher.input).length =
          setup.packetSize + (contents input).length := by
        rw [bytes, restBytes, forwardPackets, List.flatMap_cons, List.length_append,
          wholePacket.length]
        rfl
      simp only
      omega
    · exact fun worker _ => ⟨_, _, rfl, trivial⟩

namespace Link

variable {setup : Setup rq}

theorem reachable_encode (s : Link rq setup.workers)
    {encoder encoder' : EncoderState rq setup.workers}
    (reachable : Pipeline.Reachable (encoderProgram rq setup.workers_pos) encoder encoder') :
    Reachable setup { s with current := some encoder } { s with current := some encoder' } :=
  reachable.lift (fun encoder => { s with current := some encoder })
    fun _ _ step => .encode rfl step

theorem reachable_decode {s : Link rq setup.workers} {decoder' : DecoderState rq setup.workers}
    (reachable : Pipeline.Reachable (decoderProgram rq setup.workers_pos) s.decoder decoder') :
    Reachable setup s { s with decoder := decoder' } :=
  reachable.lift (fun decoder => { s with decoder }) fun _ _ step => .decode step

/-- All sessions are served, one after another; the channel and the decoder wait. -/
theorem exists_served (positive : 0 < setup.blockSize)
    (encodes : ∀ block : Block, block.data.length = setup.blockSize →
      ∃ packets, setup.encoder.encode block = .ok packets)
    {sessions : List Session} (quiet : ∀ session ∈ sessions, Quiet onError session.input)
    {s : Link rq setup.workers} (waiting : s.waiting = sessions) (idle : s.current = none)
    (drained : ∀ encoder ∈ s.past, Pipeline.Drained encoder) :
    ∃ past : List (EncoderState rq setup.workers),
      Reachable setup s { s with waiting := [], past := past, current := none } ∧
      ∀ encoder ∈ past, Pipeline.Drained encoder := by
  induction sessions generalizing s with
  | nil =>
    refine ⟨s.past, ?_, drained⟩
    rw [← waiting, ← idle]
  | cons session sessions inductionHypothesis =>
    obtain ⟨encoder, runs, ends⟩ := exists_drained_encoder setup positive encodes
      s.dispatched.length (quiet session List.mem_cons_self)
    have accept : Step setup s { s with
        waiting := sessions
        current := some (.start (setup.dispatcher s.dispatched.length session)
          fun _ => setup.encoder) } := .accept idle waiting
    have encode : Reachable setup { s with
        waiting := sessions
        current := some (.start (setup.dispatcher s.dispatched.length session)
          fun _ => setup.encoder) } { s with waiting := sessions, current := some encoder } :=
      reachable_encode { s with waiting := sessions } runs
    have finish : Step setup { s with waiting := sessions, current := some encoder }
        { s with waiting := sessions, past := s.past ++ [encoder], current := none } :=
      .finish rfl ends.allEnded
    have drained' : ∀ other ∈ s.past ++ [encoder], Pipeline.Drained other := by
      intro other member
      cases List.mem_append.mp member with
      | inl earlier => exact drained other earlier
      | inr last => exact List.mem_singleton.mp last ▸ ends
    have served : ({ s with
        waiting := sessions
        past := s.past ++ [encoder]
        current := none } : Link rq setup.workers).waiting = sessions := rfl
    obtain ⟨past, rest, allDrained⟩ := inductionHypothesis
      (fun other member => quiet other (List.mem_cons_of_mem _ member)) served rfl drained'
    exact ⟨past, .head accept (encode.trans (.head finish rest)), allDrained⟩

/-- The channel keeps the packets of a choice and drops the others. -/
theorem exists_carried (keep : Sourced rq.EncodingPacket → Bool) {count : Nat}
    {s : Link rq setup.workers}
    (serialized : ∀ packet ∈ s.wire, rq.serialize packet.item ≠ [])
    (enough : count ≤ s.wire.length) (isOpen : s.decoder.source.isOpen = true)
    (nothing : s.carried = 0) (empty : s.delivered = [])
    (quiet : Quiet onError s.decoder.source.input)
    (unread : contents s.decoder.source.input = []) :
    ∃ input : Reader,
      Reachable setup s { s with
        carried := count
        delivered := (s.wire.take count).filter keep
        decoder := { s.decoder with source := { s.decoder.source with input } } } ∧
      Quiet onError input ∧
      contents input =
        forwardPackets rq (((s.wire.take count).filter keep).map Sourced.item) := by
  induction count with
  | zero =>
    refine ⟨s.decoder.source.input, ?_, quiet, unread⟩
    rw [← nothing, nothing, List.take_zero, List.filter_nil, ← empty, ← nothing]
  | succ count inductionHypothesis =>
    obtain ⟨input, reachable, inputQuiet, inputBytes⟩ := inductionHypothesis (by omega)
    obtain ⟨packet, next⟩ : ∃ packet, s.wire[count]? = some packet :=
      ⟨s.wire[count], List.getElem?_eq_getElem _⟩
    have taken : s.wire.take (count + 1) = s.wire.take count ++ [packet] := by
      rw [List.take_add_one, next]
      rfl
    rw [taken, List.filter_append]
    cases kept : keep packet with
    | false =>
      have drop : Step setup { s with
          carried := count
          delivered := (s.wire.take count).filter keep
          decoder := { s.decoder with source := { s.decoder.source with input } } } _ :=
        .drop next
      refine ⟨input, ?_, inputQuiet, ?_⟩
      · simpa [kept] using reachable.tail drop
      · simpa [kept] using inputBytes
    | true =>
      have nonempty : rq.serialize packet.item ≠ [] := serialized packet
        (List.mem_of_getElem? next)
      have fragmentQuiet : Quiet onError [.data (rq.serialize packet.item)] := by
        simpa [Quiet] using nonempty
      have deliver : Step setup { s with
          carried := count
          delivered := (s.wire.take count).filter keep
          decoder := { s.decoder with source := { s.decoder.source with input } } } _ :=
        .deliver next isOpen fragmentQuiet (by simp)
      refine ⟨input ++ [.data (rq.serialize packet.item)], ?_,
        inputQuiet.append fragmentQuiet, ?_⟩
      · simpa [kept] using reachable.tail deliver
      · simp [kept, inputBytes, forwardPackets]

/-- Once all sessions are served, the channel keeps the packets of a choice and the decoder
    drains. -/
theorem exists_drained_of_served (setup : Setup rq) (framed : rq.Framed)
    {sessions : List Session} {past : List (EncoderState rq setup.workers)}
    (served : Reachable setup (start setup sessions)
      { start setup sessions with waiting := [], past := past, current := none })
    (ends : ∀ encoder ∈ past, Pipeline.Drained encoder)
    (keep : Sourced rq.EncodingPacket → Bool) :
    ∃ s, Reachable setup (start setup sessions) s ∧ Drained s ∧ s.past = past ∧
      s.delivered = s.wire.filter keep := by
  generalize isServed :
      ({ start setup sessions with waiting := [], past := past, current := none } :
    Link rq setup.workers) = s at served
  have idle : Idle s.decoder := isServed ▸ Idle.start _ _
  have source : s.decoder.source = ⟨setup.packetSize, [], true⟩ := isServed ▸ rfl
  have connected := (Connected.start setup sessions).reachable framed served
  obtain ⟨input, carried, inputQuiet, bytes⟩ := exists_carried keep
    (fun packet member => connected.serialize_ne_nil framed member) (Nat.le_refl _)
    (by rw [source]) (isServed ▸ rfl) (isServed ▸ rfl) (by rw [source]; exact .nil)
    (by rw [source]; rfl)
  rw [List.take_length] at carried bytes
  have connected' := connected.reachable framed carried
  have close : Step setup { s with
      carried := s.wire.length
      delivered := s.wire.filter keep
      decoder := { s.decoder with source := { s.decoder.source with input } } } { s with
      carried := s.wire.length
      delivered := s.wire.filter keep
      decoder := { s.decoder with
        source := { s.decoder.source with input, isOpen := false } } } :=
    .close (isServed ▸ rfl) (isServed ▸ rfl)
  have idle' : Idle ({ s.decoder with
      source := { s.decoder.source with input, isOpen := false } } :
        DecoderState rq setup.workers) :=
    ⟨idle.source, idle.queues, idle.workers, idle.shared, idle.sink⟩
  have size : s.decoder.source.packetSize = setup.packetSize := by rw [source]
  obtain ⟨decoder, decodes, decoderEnds⟩ := exists_drained_decoder setup framed idle' rfl size
    inputQuiet (connected'.whole_delivered framed) bytes
  refine ⟨_, served.trans (carried.trans (.head close (reachable_decode decodes))), ?_, ?_, rfl⟩
  · exact ⟨isServed ▸ rfl, isServed ▸ rfl, isServed ▸ ends, decoderEnds⟩
  · exact isServed ▸ rfl

/-- Every choice of sessions and of packets to keep has a run to a drained state. -/
theorem exists_drained (setup : Setup rq) (framed : rq.Framed) (positive : 0 < setup.blockSize)
    (encodes : ∀ block : Block, block.data.length = setup.blockSize →
      ∃ packets, setup.encoder.encode block = .ok packets)
    {sessions : List Session} (quiet : ∀ session ∈ sessions, Quiet onError session.input)
    (keep : Sourced rq.EncodingPacket → Bool) :
    ∃ s, Reachable setup (start setup sessions) s ∧ Drained s ∧
      s.delivered = s.wire.filter keep := by
  have startWaiting : (start setup sessions).waiting = sessions := rfl
  obtain ⟨past, served, ends⟩ := exists_served positive encodes quiet startWaiting rfl nofun
  obtain ⟨s, reachable, drained, -, kept⟩ :=
    exists_drained_of_served setup framed served ends keep
  exact ⟨s, reachable, drained, kept⟩

section OneSession

variable (setup) {session : Session} {e : EncoderState rq setup.workers}

/-- A run of the encoder of a single session, from the first connection on. -/
theorem reachable_encoder
    (runs : Pipeline.Reachable (encoderProgram rq setup.workers_pos)
      (.start (setup.dispatcher 0 session) fun _ => setup.encoder) e) :
    Reachable setup (start setup [session])
      { start setup [session] with waiting := [], current := some e } := by
  have accept : Step setup (start setup [session]) { start setup [session] with
      waiting := []
      current := some (.start (setup.dispatcher 0 session) fun _ => setup.encoder) } :=
    .accept rfl rfl
  exact .head accept (reachable_encode { start setup [session] with waiting := [] } runs)

/-- The channel keeps packets of what such a run has written. -/
theorem exists_carried_encoder (framed : rq.Framed)
    (runs : Pipeline.Reachable (encoderProgram rq setup.workers_pos)
      (.start (setup.dispatcher 0 session) fun _ => setup.encoder) e)
    (keep : Sourced rq.EncodingPacket → Bool) :
    ∃ s, Reachable setup (start setup [session]) s ∧ s.current = some e ∧ s.wire = e.written ∧
      s.delivered = s.wire.filter keep := by
  have reachable := reachable_encoder setup runs
  have connected := (Connected.start setup [session]).reachable framed reachable
  obtain ⟨input, carried, -, -⟩ := exists_carried keep
    (fun packet member => connected.serialize_ne_nil framed member) (Nat.le_refl _) rfl rfl rfl
    .nil rfl
  rw [List.take_length] at carried
  exact ⟨_, reachable.trans carried, rfl, by simp [wire, encoders, start], rfl⟩

/-- After such a run that drains, the whole system can drain. -/
theorem exists_drained_of_encoder (framed : rq.Framed)
    (runs : Pipeline.Reachable (encoderProgram rq setup.workers_pos)
      (.start (setup.dispatcher 0 session) fun _ => setup.encoder) e)
    (ends : Pipeline.Drained e) (keep : Sourced rq.EncodingPacket → Bool) :
    ∃ s, Reachable setup (start setup [session]) s ∧ Drained s ∧ s.wire = e.written ∧
      s.delivered = s.wire.filter keep := by
  have finish : Step setup { start setup [session] with waiting := [], current := some e }
      { start setup [session] with waiting := [], past := [e], current := none } :=
    .finish rfl ends.allEnded
  obtain ⟨s, reachable, drained, isPast, kept⟩ := exists_drained_of_served setup framed
    ((reachable_encoder setup runs).tail finish) (by simpa using ends) keep
  exact ⟨s, reachable, drained, by simp [wire, encoders, isPast, drained.current], kept⟩

end OneSession

/-! ## A small system -/

/-- Blocks of two symbols of 8 bytes, without repair packets. -/
def systematicSetup {workers : Nat} (positive : 0 < workers) : Setup systematicCodec where
  blockSize := 16
  maxPacketSize := 8
  repairPacketsPerBlock := 0
  workers := workers
  workers_pos := positive
  encoder := ⟨16, 0, 8, 2⟩
  decoder := ⟨16, 8, none, systematicCodec.newDecoder 0 8 16, false, 0, 0, []⟩
  packetSize := 12
  encoder_created := rfl
  decoder_created := rfl
  packetSize_inferred := rfl

/-- A session whose input arrives in one piece. -/
def wholeSession (initialBlockId : UInt8) (bytes : List UInt8) : Session where
  initialBlockId := initialBlockId
  input := [.data bytes]

theorem quiet_wholeSession (initialBlockId : UInt8) {bytes : List UInt8} (nonempty : bytes ≠ []) :
    Quiet onError (wholeSession initialBlockId bytes).input := by
  simpa [Quiet, wholeSession] using nonempty

theorem chunks_wholeSession (setup : Setup rq) (initialBlockId : UInt8) (bytes : List UInt8) :
    setup.chunks (wholeSession initialBlockId bytes) = chunksExact setup.blockSize bytes := by
  simp [Setup.chunks, wholeSession]

theorem exists_drained_systematic {workers : Nat} (positive : 0 < workers)
    {sessions : List Session} (quiet : ∀ session ∈ sessions, Quiet onError session.input)
    (keep : Sourced Systematic.Packet → Bool) :
    ∃ s, Reachable (systematicSetup positive) (start (systematicSetup positive) sessions) s ∧
      Drained s ∧ s.delivered = s.wire.filter keep := by
  refine exists_drained _ Systematic.framed (show 0 < 16 by decide) ?_ quiet keep
  intro block size
  exact (systematicSetup positive).accepted.encode_ok Systematic.counted
    (show (0 : UInt32).toNat ≤ 2 ^ 23 by decide) block size

end Link

end GarudaCodec.Core
