import GarudaCodec.Core.Framing

/-! # Encoder, channel and decoder together

`run_encoder` serves its connections one after another, each with a new encoder that starts at a
random block number, and all of them write to one output stream.  The channel hands the packets
of that stream on in order, may drop any of them and may deliver their bytes in any fragments.
One decoder reads what comes out of it for its whole life.
-/

namespace GarudaCodec.Core

open GarudaCodec.Foundation
open GarudaCodec.Foundation.Lanes
open GarudaCodec.Foundation.Chunks
open GarudaCodec.Foundation.Readers
open GarudaCodec.Foundation.Pipeline
open GarudaCodec.Core.Io

variable {rq : Raptorq}

/-- The settings of both sides, which have been accepted, with what the constructors made of
    them. -/
structure Setup (rq : Raptorq) where
  blockSize : Nat
  maxPacketSize : UInt16
  repairPacketsPerBlock : UInt32
  workers : Nat
  workers_pos : 0 < workers
  encoder : BlockEncoder rq
  decoder : BlockDecoder rq
  packetSize : Nat
  encoder_created :
    BlockEncoder.new rq blockSize maxPacketSize repairPacketsPerBlock = .ok encoder
  decoder_created : BlockDecoder.new rq blockSize maxPacketSize = .ok decoder
  packetSize_inferred : inferPacketSize rq blockSize maxPacketSize = .ok packetSize

/-- One connection to the encoder: the number `get_random_u8` gave its first block, and what its
    reads will meet. -/
structure Session where
  initialBlockId : UInt8
  input : Reader

namespace Setup

/-- The queue, on either side, of blocks with this number. -/
def queue (setup : Setup rq) (id : UInt8) : Fin setup.workers := queueOf setup.workers_pos id

/-- `BlockDispatcher::new`, in a session that starts when `position` blocks have been
    dispatched. -/
def dispatcher (setup : Setup rq) (position : Nat) (session : Session) : BlockDispatcher where
  blockSize := setup.blockSize
  currentBlockId := session.initialBlockId
  input := session.input
  position := position

/-- The complete blocks of a session's input. -/
def chunks (setup : Setup rq) (session : Session) : List (List UInt8) :=
  chunksExact setup.blockSize (contents session.input)

/-- The blocks all sessions amount to, the first of them at `position`. -/
def blocks (setup : Setup rq) (position : Nat) : List Session → List (Sourced Block)
  | [] => []
  | session :: sessions =>
    numbered position session.initialBlockId (setup.chunks session) ++
      setup.blocks (position + (setup.chunks session).length) sessions

theorem accepted (setup : Setup rq) :
    Accepted setup.blockSize setup.maxPacketSize setup.encoder :=
  (BlockEncoder.new_eq_ok.mp setup.encoder_created).1

theorem packetSize_eq (setup : Setup rq) (framed : rq.Framed) :
    setup.packetSize = 4 + (rq.symbolSize setup.encoder.config).toNat :=
  inferPacketSize_eq framed setup.accepted.configured setup.packetSize_inferred

theorem packetSize_pos (setup : Setup rq) (framed : rq.Framed) : 0 < setup.packetSize := by
  rw [setup.packetSize_eq framed]
  omega

theorem whole (setup : Setup rq) (framed : rq.Framed) {block : Sourced Block}
    {packet : Sourced rq.EncodingPacket} (member : packet ∈ emitted setup.encoder block) :
    Whole rq setup.packetSize packet.item := by
  have packetOf := (mem_emitted member).2
  exact ⟨by rw [setup.packetSize_eq framed, framed.length_serialize packetOf],
    framed.deserialize_serialize packetOf⟩

/-- Both sides work with the same configuration. -/
theorem decodeStream (setup : Setup rq) (packets : List rq.EncodingPacket) :
    (setup.decoder.decodeStream packets).2 =
      decodeRuns setup.encoder.config setup.blockSize packets := by
  obtain ⟨config, configured, created⟩ := BlockDecoder.new_eq_ok.mp setup.decoder_created
  rw [setup.accepted.config_eq configured,
    BlockDecoder.decodeStream_eq_decodeRuns _ _ (by simp [created]), created]

end Setup

/-- The state of the whole system. -/
structure Link (rq : Raptorq) (workers : Nat) where
  /-- Connections that have not been accepted yet. -/
  waiting : List Session
  /-- The encoders of finished sessions, as they ended. -/
  past : List (EncoderState rq workers)
  current : Option (EncoderState rq workers)
  /-- How many of the packets written so far the channel has taken. -/
  carried : Nat
  /-- History: the packets the channel has handed on. -/
  delivered : List (Sourced rq.EncodingPacket)
  decoder : DecoderState rq workers

namespace Link

variable {workers : Nat}

def encoders (s : Link rq workers) : List (EncoderState rq workers) :=
  s.past ++ s.current.toList

/-- All blocks dispatched so far, in stream order. -/
def dispatched (s : Link rq workers) : List (Sourced Block) :=
  s.encoders.flatMap fun encoder => encoder.sent

/-- All packets written to the output stream so far. -/
def wire (s : Link rq workers) : List (Sourced rq.EncodingPacket) :=
  s.encoders.flatMap fun encoder => encoder.written

/-- All packets the encoder workers with this index have put into their packet queues. -/
def emission (s : Link rq workers) (key : Fin workers) : List (Sourced rq.EncodingPacket) :=
  s.encoders.flatMap fun encoder => lane encoder.merged key

/-- The packets of the block at this position that have come through the channel. -/
def survivors (s : Link rq workers) (position : Nat) : List rq.EncodingPacket :=
  (s.delivered.filter fun packet => packet.origin = position).map Sourced.item

def start (setup : Setup rq) (sessions : List Session) : Link rq setup.workers where
  waiting := sessions
  past := []
  current := none
  carried := 0
  delivered := []
  decoder := .start { packetSize := setup.packetSize, input := [], isOpen := true }
    fun _ => setup.decoder

/-- One step of one thread, of the channel, or of the loop in `run_encoder`. -/
inductive Step (setup : Setup rq) : Link rq setup.workers → Link rq setup.workers → Prop
  | accept {s session waiting} :
      s.current = none → s.waiting = session :: waiting →
      Step setup s { s with
        waiting := waiting
        current := some (.start (setup.dispatcher s.dispatched.length session)
          fun _ => setup.encoder) }
  | encode {s encoder encoder'} :
      s.current = some encoder →
      Pipeline.Step (encoderProgram rq setup.workers_pos) encoder encoder' →
      Step setup s { s with current := some encoder' }
  -- `wait` has joined all threads of the session
  | finish {s encoder} :
      s.current = some encoder → AllEnded encoder →
      Step setup s { s with past := s.past ++ [encoder], current := none }
  | drop {s packet} :
      s.wire[s.carried]? = some packet →
      Step setup s { s with carried := s.carried + 1 }
  | deliver {s packet fragments} :
      s.wire[s.carried]? = some packet → s.decoder.source.isOpen = true →
      Quiet onError fragments → contents fragments = rq.serialize packet.item →
      Step setup s { s with
        carried := s.carried + 1
        delivered := s.delivered ++ [packet]
        decoder := { s.decoder with
          source := { s.decoder.source with input := s.decoder.source.input ++ fragments } } }
  | close {s} :
      s.waiting = [] → s.current = none →
      Step setup s { s with
        decoder := { s.decoder with source := { s.decoder.source with isOpen := false } } }
  | decode {s decoder'} :
      Pipeline.Step (decoderProgram rq setup.workers_pos) s.decoder decoder' →
      Step setup s { s with decoder := decoder' }

abbrev Reachable (setup : Setup rq) : Link rq setup.workers → Link rq setup.workers → Prop :=
  Relation.ReflTransGen (Step setup)

/-- All sessions have been served, and both sides have ended without an error. -/
structure Drained (s : Link rq workers) : Prop where
  waiting : s.waiting = []
  current : s.current = none
  encoders : ∀ encoder ∈ s.past, Pipeline.Drained encoder
  decoder : Pipeline.Drained s.decoder

/-! ## The invariant -/

/-- Every encoder belongs to its session and goes on counting blocks where the one before it
    stopped. -/
def Chained (setup : Setup rq) :
    Nat → List Session → List (EncoderState rq setup.workers) → Prop
  | _, [], [] => True
  | position, session :: sessions, encoder :: encoders =>
    Encodes setup.workers_pos setup.encoder (setup.dispatcher position session) encoder ∧
      Chained setup (position + encoder.sent.length) sessions encoders
  | _, [], _ :: _ => False
  | _, _ :: _, [] => False

/-- The encoders of a chain come session by session. -/
theorem Chained.induction {setup : Setup rq}
    {motive : (position : Nat) → (sessions : List Session) →
      (encoders : List (EncoderState rq setup.workers)) →
      Chained setup position sessions encoders → Prop}
    (nil : ∀ position, motive position [] [] trivial)
    (cons : ∀ {position session sessions encoder encoders}
      (encodes : Encodes setup.workers_pos setup.encoder (setup.dispatcher position session)
        encoder)
      (rest : Chained setup (position + encoder.sent.length) sessions encoders),
      motive _ _ _ rest →
      motive position (session :: sessions) (encoder :: encoders) ⟨encodes, rest⟩)
    {position : Nat} {sessions : List Session} {encoders : List (EncoderState rq setup.workers)}
    (chained : Chained setup position sessions encoders) :
    motive position sessions encoders chained := by
  induction sessions generalizing position encoders with
  | nil =>
    cases encoders with
    | nil => exact nil position
    | cons => cases chained
  | cons session sessions inductionHypothesis =>
    cases encoders with
    | nil => cases chained
    | cons encoder encoders => exact cons chained.1 chained.2 (inductionHypothesis chained.2)

theorem chained_concat {setup : Setup rq} {position : Nat} {sessions : List Session}
    {session : Session} {encoders : List (EncoderState rq setup.workers)}
    {encoder : EncoderState rq setup.workers} :
    Chained setup position (sessions ++ [session]) (encoders ++ [encoder]) ↔
      Chained setup position sessions encoders ∧
        Encodes setup.workers_pos setup.encoder
          (setup.dispatcher (position + (encoders.flatMap fun other => other.sent).length) session)
          encoder := by
  induction sessions generalizing position encoders with
  | nil =>
    cases encoders with
    | nil => simp [Chained]
    | cons other encoders => cases encoders <;> simp [Chained]
  | cons first sessions inductionHypothesis =>
    cases encoders with
    | nil => cases sessions <;> simp [Chained]
    | cons other encoders =>
      simp only [List.cons_append, Chained, inductionHypothesis, List.flatMap_cons,
        List.length_append, Nat.add_assoc, and_assoc]

theorem chained_length {setup : Setup rq} {position : Nat} {sessions : List Session}
    {encoders : List (EncoderState rq setup.workers)}
    (chained : Chained setup position sessions encoders) :
    sessions.length = encoders.length := by
  induction chained using Chained.induction with
  | nil => rfl
  | cons encodes rest inductionHypothesis => simp [inductionHypothesis]

/-- What holds in every reachable state. -/
structure Connected (setup : Setup rq) (sessions : List Session) (s : Link rq setup.workers) :
    Prop where
  encoders : ∃ served, sessions = served ++ s.waiting ∧ Chained setup 0 served s.encoders
  carried : s.carried ≤ s.wire.length
  delivered : s.delivered.Sublist (s.wire.take s.carried)
  decoder : Decodes setup.workers_pos setup.decoder setup.packetSize
    (s.delivered.map Sourced.item) s.decoder

/-- The positions of the dispatched blocks count up from 0. -/
theorem map_origin_flatMap_sent {setup : Setup rq} {position : Nat} {sessions : List Session}
    {encoders : List (EncoderState rq setup.workers)}
    (chained : Chained setup position sessions encoders) :
    (encoders.flatMap fun encoder => encoder.sent).map Sourced.origin =
      List.range' position (encoders.flatMap fun encoder => encoder.sent).length := by
  induction chained using Chained.induction with
  | nil => rfl
  | cons encodes rest inductionHypothesis =>
    obtain ⟨chunks, _, sent⟩ := encodes.sent_eq
    rw [List.flatMap_cons, List.map_append, inductionHypothesis, List.length_append,
      ← List.range'_append_1, sent, map_origin_numbered, length_numbered]
    rfl

theorem length_of_mem_flatMap_sent {setup : Setup rq} {position : Nat} {sessions : List Session}
    {encoders : List (EncoderState rq setup.workers)}
    (chained : Chained setup position sessions encoders) :
    ∀ block ∈ encoders.flatMap fun encoder => encoder.sent,
      block.item.data.length = setup.blockSize := by
  induction chained using Chained.induction with
  | nil => exact nofun
  | cons encodes rest inductionHypothesis =>
    intro block member
    rw [List.flatMap_cons] at member
    cases List.mem_append.mp member with
    | inl inFirst =>
      obtain ⟨chunks, sizes, sent⟩ := encodes.sent_eq
      rw [sent] at inFirst
      obtain ⟨idx, inside, rfl⟩ := List.mem_mapIdx.mp inFirst
      exact sizes _ (List.getElem_mem inside)
    | inr inRest => exact inductionHypothesis block inRest

/-- What the workers with one index have emitted is taken from the packets of their blocks. -/
theorem lanes_sublist {setup : Setup rq} {position : Nat} {sessions : List Session}
    {encoders : List (EncoderState rq setup.workers)}
    (chained : Chained setup position sessions encoders) (key : Fin setup.workers) :
    (encoders.flatMap fun encoder => lane encoder.merged key).Sublist
      (((encoders.flatMap fun encoder => encoder.sent).filter fun block =>
        setup.queue block.item.id = key).flatMap (emitted setup.encoder)) := by
  induction chained using Chained.induction with
  | nil => exact List.Sublist.refl _
  | cons encodes rest inductionHypothesis =>
    rw [List.flatMap_cons, List.flatMap_cons, List.filter_append, List.flatMap_append]
    exact (encodes.lane_prefix key).sublist.append inductionHypothesis

/-- On the wire, the packets for one queue stem from the workers with one index. -/
theorem wire_sublist {setup : Setup rq} {position : Nat} {sessions : List Session}
    {encoders : List (EncoderState rq setup.workers)} (framed : rq.Framed)
    (chained : Chained setup position sessions encoders) (key : Fin setup.workers) :
    ((encoders.flatMap fun encoder => encoder.written).filter fun packet =>
      setup.queue (rq.sourceBlockNumber packet.item) = key).Sublist
        (encoders.flatMap fun encoder => lane encoder.merged key) := by
  induction chained using Chained.induction with
  | nil => exact List.Sublist.refl _
  | cons encodes rest inductionHypothesis =>
    rw [List.flatMap_cons, List.flatMap_cons, List.filter_append]
    exact (encodes.written_filter framed key).sublist.append inductionHypothesis

/-- What drained encoders have made of quiet inputs. -/
structure Served (setup : Setup rq) (position : Nat) (sessions : List Session)
    (encoders : List (EncoderState rq setup.workers)) : Prop where
  sent : (encoders.flatMap fun encoder => encoder.sent) = setup.blocks position sessions
  encoded : ∀ block ∈ encoders.flatMap fun encoder => encoder.sent,
    ∃ packets, setup.encoder.encode block.item = .ok packets
  written : ∀ key, ((encoders.flatMap fun encoder => encoder.written).filter fun packet =>
      setup.queue (rq.sourceBlockNumber packet.item) = key) =
    ((encoders.flatMap fun encoder => encoder.sent).filter fun block =>
      setup.queue block.item.id = key).flatMap (emitted setup.encoder)
  blockSize_pos : sessions ≠ [] → 0 < setup.blockSize

theorem served {setup : Setup rq} {position : Nat} {sessions : List Session}
    {encoders : List (EncoderState rq setup.workers)} (framed : rq.Framed)
    (chained : Chained setup position sessions encoders)
    (drained : ∀ encoder ∈ encoders, Pipeline.Drained encoder)
    (quiet : ∀ session ∈ sessions, Quiet onError session.input) :
    Served setup position sessions encoders := by
  induction chained using Chained.induction with
  | nil => exact ⟨rfl, nofun, fun _ => rfl, fun nonempty => absurd rfl nonempty⟩
  | @cons position session sessions encoder encoders encodes rest inductionHypothesis =>
    have all := encodes.drained framed (drained encoder List.mem_cons_self)
      (quiet session List.mem_cons_self)
    have later := inductionHypothesis
      (fun other member => drained other (List.mem_cons_of_mem _ member))
      (fun other member => quiet other (List.mem_cons_of_mem _ member))
    have sent : encoder.sent =
        numbered position session.initialBlockId (setup.chunks session) := all.sent
    refine ⟨?_, ?_, ?_, fun _ => all.blockSize_pos⟩
    · rw [List.flatMap_cons, later.sent, sent, length_numbered, Setup.blocks]
    · intro block member
      rw [List.flatMap_cons] at member
      cases List.mem_append.mp member with
      | inl inFirst => exact all.encoded block inFirst
      | inr inRest => exact later.encoded block inRest
    · intro key
      rw [List.flatMap_cons, List.flatMap_cons, List.filter_append, List.filter_append,
        List.flatMap_append, later.written key]
      congr 1
      exact all.written key

namespace Connected

variable {setup : Setup rq} {sessions : List Session} {s s' : Link rq setup.workers}

theorem start (setup : Setup rq) (sessions : List Session) :
    Connected setup sessions (Link.start setup sessions) where
  encoders := ⟨[], rfl, trivial⟩
  carried := Nat.le_refl _
  delivered := List.Sublist.refl _
  decoder := .start _ _ _

/-- Every packet on the wire comes from a dispatched block with the same position. -/
theorem mem_wire (framed : rq.Framed) (connected : Connected setup sessions s)
    {packet : Sourced rq.EncodingPacket} (member : packet ∈ s.wire) :
    ∃ block ∈ s.dispatched, packet ∈ emitted setup.encoder block := by
  obtain ⟨served, _, chained⟩ := connected.encoders
  -- at its own queue the packet can be traced back to a worker
  have inQueue : packet ∈ s.wire.filter fun other => setup.queue
      (rq.sourceBlockNumber other.item) = setup.queue (rq.sourceBlockNumber packet.item) :=
    List.mem_filter.mpr ⟨member, by simp⟩
  have isEmitted :=
    (lanes_sublist chained _).subset ((wire_sublist framed chained _).subset inQueue)
  obtain ⟨block, inSent, inBlock⟩ := List.mem_flatMap.mp isEmitted
  exact ⟨block, (List.mem_filter.mp inSent).1, inBlock⟩

theorem whole_delivered (framed : rq.Framed) (connected : Connected setup sessions s) :
    ∀ packet ∈ s.delivered.map Sourced.item, Whole rq setup.packetSize packet := by
  intro packet member
  obtain ⟨sourced, inDelivered, rfl⟩ := List.mem_map.mp member
  have inWire := List.mem_of_mem_take (connected.delivered.subset inDelivered)
  obtain ⟨block, _, isEmitted⟩ := connected.mem_wire framed inWire
  exact setup.whole framed isEmitted

/-- A packet on the wire has some bytes. -/
theorem serialize_ne_nil (framed : rq.Framed) (connected : Connected setup sessions s)
    {packet : Sourced rq.EncodingPacket} (member : packet ∈ s.wire) :
    rq.serialize packet.item ≠ [] := by
  obtain ⟨block, _, isEmitted⟩ := connected.mem_wire framed member
  intro empty
  have length := (setup.whole framed isEmitted).length
  rw [empty] at length
  exact absurd length (setup.packetSize_pos framed).ne

/-- A step of the encoder side changes the wire only beyond what the channel has taken. -/
theorem of_wire_prefix (connected : Connected setup sessions s) {waiting : List Session}
    {past : List (EncoderState rq setup.workers)} {current : Option (EncoderState rq setup.workers)}
    (encoders : ∃ served, sessions = served ++ waiting ∧
      Chained setup 0 served (past ++ current.toList))
    (grows : s.wire <+: (past ++ current.toList).flatMap fun encoder => encoder.written) :
    Connected setup sessions { s with waiting := waiting, past := past, current := current } where
  encoders := encoders
  carried := connected.carried.trans grows.length_le
  delivered := by
    -- what the channel has taken is the same part of the longer wire
    have same := List.prefix_iff_eq_take.mp ((s.wire.take_prefix s.carried).trans grows)
    rw [List.length_take, Nat.min_eq_left connected.carried] at same
    exact same ▸ connected.delivered
  decoder := connected.decoder

theorem step (framed : rq.Framed) (connected : Connected setup sessions s)
    (step : Step setup s s') : Connected setup sessions s' := by
  obtain ⟨served, split, chained⟩ := connected.encoders
  cases step with
  | @accept session waiting idle first =>
    refine connected.of_wire_prefix ⟨served ++ [session], by simp [split, first], ?_⟩ ?_
    · simp only [Link.encoders, idle, Option.toList_none, List.append_nil] at chained
      refine chained_concat.mpr ⟨chained, ?_⟩
      simpa [dispatched, Link.encoders, idle] using Encodes.start setup.workers_pos setup.encoder _
    · simp [wire, Link.encoders, idle, State.start]
  | @encode encoder encoder' running encoderStep =>
    refine connected.of_wire_prefix ⟨served, split, ?_⟩ ?_
    · -- the running encoder belongs to the last session served
      cases served.eq_nil_or_concat' with
      | inl none =>
        rw [none] at chained
        simpa [Link.encoders, running] using chained_length chained
      | inr last =>
        obtain ⟨earlier, session, rfl⟩ := last
        simp only [Link.encoders, running, Option.toList_some] at chained ⊢
        obtain ⟨before, encodes⟩ := chained_concat.mp chained
        exact chained_concat.mpr ⟨before, encodes.step encoderStep⟩
    · simp only [wire, Link.encoders, running, Option.toList_some, List.flatMap_append,
        List.flatMap_cons, List.flatMap_nil, List.append_nil]
      exact List.prefix_append_right_inj _ |>.mpr encoderStep.written_prefix
  | @finish encoder running ended =>
    refine connected.of_wire_prefix ⟨served, split, ?_⟩ ?_
    · simpa [Link.encoders, running] using chained
    · simp [wire, Link.encoders, running]
  | @drop packet next =>
    have more := (List.getElem?_eq_some_iff.mp next).1
    exact
      { encoders := connected.encoders
        carried := more
        delivered := connected.delivered.trans
          (List.take_prefix_take_left (Nat.le_succ _)).sublist
        decoder := connected.decoder }
  | @deliver packet fragments next isOpen quiet bytes =>
    obtain ⟨more, isNext⟩ := List.getElem?_eq_some_iff.mp next
    refine
      { encoders := connected.encoders
        carried := more
        delivered := ?_
        decoder := ⟨connected.decoder.wired.with_source _, ?_⟩ }
    -- the packet handed on is the next one the channel takes
    · have taken : s.wire.take (s.carried + 1) = s.wire.take s.carried ++ [packet] := by
        rw [List.take_add_one, next]
        rfl
      exact taken ▸ connected.delivered.append (List.Sublist.refl _)
    · rw [List.map_append]
      exact connected.decoder.receives.arrive isOpen quiet bytes
  | close =>
    exact
      { encoders := connected.encoders
        carried := connected.carried
        delivered := connected.delivered
        decoder := ⟨connected.decoder.wired.with_source _, connected.decoder.receives.close⟩ }
  | decode decoderStep =>
    have whole := connected.whole_delivered framed
    exact
      { encoders := connected.encoders
        carried := connected.carried
        delivered := connected.delivered
        decoder := connected.decoder.step (setup.packetSize_pos framed) whole decoderStep }

theorem reachable (framed : rq.Framed) (connected : Connected setup sessions s)
    (reachable : Reachable setup s s') : Connected setup sessions s' := by
  induction reachable with
  | refl => exact connected
  | tail _ step inductionHypothesis => exact inductionHypothesis.step framed step

theorem drained (framed : rq.Framed) (connected : Connected setup sessions s)
    (drained : Drained s) (quiet : ∀ session ∈ sessions, Quiet onError session.input) :
    Served setup 0 sessions s.encoders := by
  obtain ⟨served, split, chained⟩ := connected.encoders
  rw [drained.waiting, List.append_nil] at split
  subst split
  have encoders : s.encoders = s.past := by simp [Link.encoders, drained.current]
  exact Link.served framed chained (encoders ▸ drained.encoders) quiet

end Connected

end Link

end GarudaCodec.Core
