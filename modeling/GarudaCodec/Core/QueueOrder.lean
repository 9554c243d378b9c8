import GarudaCodec.Core.Attribution
import GarudaCodec.Core.Guarantees

/-! # How much order the decoder needs

A decoder worker starts afresh with every change of the number on its packets, so all it needs is
that the packets of its own queue arrive block after block.  How the packets of one block are
ordered, whether some come twice and how the queues are interleaved does not matter.  A link that
keeps the order of packets gives that much also to a decoder with a multiple of the encoder's
workers.
-/

namespace GarudaCodec.Core

open GarudaCodec.Foundation
open GarudaCodec.Foundation.Lanes
open GarudaCodec.Foundation.Groups
open GarudaCodec.Foundation.Readers
open GarudaCodec.Foundation.Pipeline
open GarudaCodec.Core.Io
open GarudaCodec.Core.Link (systematicSetup wholeSession quiet_wholeSession map_data_numbered)

variable {rq : Raptorq} {workers : Nat} {positive : 0 < workers}

/-- The packets of the block at this position, in the order in which they arrive. -/
def ownPackets (arrivals : List (Sourced rq.EncodingPacket)) (position : Nat) :
    List rq.EncodingPacket :=
  (arrivals.filter fun packet => packet.origin = position).map Sourced.item

/-- Whether the packets of a block that arrive are enough for a decoder of their own. -/
def Setup.decodableFrom (setup : Setup rq) (arrivals : List (Sourced rq.EncodingPacket))
    (block : Sourced Block) : Bool :=
  (rq.firstDecoded (rq.newDecoder block.item.id setup.encoder.config setup.blockSize)
    (ownPackets arrivals block.origin)).isSome

/-- At no queue of the decoder a packet arrives after one of a later block. -/
def OrderedAtQueues (positive : 0 < workers) (arrivals : List (Sourced rq.EncodingPacket)) :
    Prop :=
  ∀ key : Fin workers, ((arrivals.filter fun packet =>
    queueOf positive (rq.sourceBlockNumber packet.item) = key).map Sourced.origin).Pairwise
      (· ≤ ·)

instance (positive : 0 < workers) (arrivals : List (Sourced rq.EncodingPacket)) :
    Decidable (OrderedAtQueues positive arrivals) :=
  inferInstanceAs (Decidable (∀ _ : Fin workers, _))

/-- Packets of these blocks, in an order that keeps the blocks of every queue apart. -/
structure Orderly (setup : Setup rq) (positive : 0 < workers) (blocks : List (Sourced Block))
    (arrivals : List (Sourced rq.EncodingPacket)) : Prop where
  increasing : (blocks.map Sourced.origin).Pairwise (· < ·)
  sizes : ∀ block ∈ blocks, block.item.data.length = setup.blockSize
  genuine : ∀ packet ∈ arrivals, ∃ block ∈ blocks, packet ∈ emitted setup.encoder block
  ordered : OrderedAtQueues positive arrivals

theorem map_filter_eq_flatMap {α β : Type*} (image : α → β) (good : α → Bool) (list : List α) :
    (list.filter good).map image =
      list.flatMap fun value => (if good value then some (image value) else none).toList := by
  induction list with
  | nil => rfl
  | cons value list inductionHypothesis =>
    cases isGood : good value with
    | true => simp [isGood, inductionHypothesis]
    | false => simp [isGood, inductionHypothesis]

namespace Orderly

variable {setup : Setup rq} {blocks : List (Sourced Block)}
  {arrivals : List (Sourced rq.EncodingPacket)}

theorem eq_of_origin_eq (orderly : Orderly setup positive blocks arrivals)
    {left right : Sourced Block} (inLeft : left ∈ blocks) (inRight : right ∈ blocks)
    (same : left.origin = right.origin) : left = right :=
  List.inj_on_of_nodup_map (orderly.increasing.imp Nat.ne_of_lt) inLeft inRight same

/-- A packet at the position of a block is one of that block's. -/
theorem emitted_of_origin (orderly : Orderly setup positive blocks arrivals)
    {block : Sourced Block} (inBlocks : block ∈ blocks) {packet : Sourced rq.EncodingPacket}
    (member : packet ∈ arrivals) (origin : packet.origin = block.origin) :
    packet ∈ emitted setup.encoder block := by
  obtain ⟨other, inOther, isEmitted⟩ := orderly.genuine packet member
  have same : other = block := orderly.eq_of_origin_eq inOther inBlocks
    ((mem_emitted isEmitted).1.symm.trans origin)
  exact same ▸ isEmitted

theorem packetOf_own (orderly : Orderly setup positive blocks arrivals) {block : Sourced Block}
    (inBlocks : block ∈ blocks) {packet : rq.EncodingPacket}
    (member : packet ∈ ownPackets arrivals block.origin) :
    rq.PacketOf block.item.id setup.encoder.config block.item.data packet := by
  obtain ⟨sourced, isOwn, rfl⟩ := List.mem_map.mp member
  obtain ⟨arrives, origin⟩ := List.mem_filter.mp isOwn
  exact (mem_emitted (orderly.emitted_of_origin inBlocks arrives (by simpa using origin))).2

theorem whole (framed : rq.Framed) (orderly : Orderly setup positive blocks arrivals) :
    ∀ packet ∈ arrivals.map Sourced.item, Whole rq setup.packetSize packet := by
  intro packet member
  obtain ⟨sourced, arrives, rfl⟩ := List.mem_map.mp member
  obtain ⟨block, _, isEmitted⟩ := orderly.genuine sourced arrives
  exact setup.whole framed isEmitted

/-- The packets of one queue arrive block after block. -/
theorem filter_queue (framed : rq.Framed) (orderly : Orderly setup positive blocks arrivals)
    (key : Fin workers) :
    (arrivals.filter fun packet => queueOf positive (rq.sourceBlockNumber packet.item) = key) =
      (blocks.filter fun block => queueOf positive block.item.id = key).flatMap fun block =>
        arrivals.filter fun packet => packet.origin = block.origin := by
  have increasing : ((blocks.filter fun block => queueOf positive block.item.id = key).map
      Sourced.origin).Pairwise (· < ·) :=
    orderly.increasing.sublist (List.filter_sublist.map _)
  have covers : ∀ packet ∈ arrivals.filter fun packet =>
      queueOf positive (rq.sourceBlockNumber packet.item) = key,
      packet.origin ∈ (blocks.filter fun block => queueOf positive block.item.id = key).map
        Sourced.origin := by
    intro packet member
    obtain ⟨arrives, here⟩ := List.mem_filter.mp member
    obtain ⟨block, inBlocks, isEmitted⟩ := orderly.genuine packet arrives
    have route : queueOf positive (rq.sourceBlockNumber packet.item) =
        queueOf positive block.item.id := queueOf_emitted framed isEmitted
    exact List.mem_map.mpr
      ⟨block, List.mem_filter.mpr ⟨inBlocks, by simpa [← route] using here⟩,
        (mem_emitted isEmitted).1.symm⟩
  have grouped := flatMap_filter_of_sorted (orderly.ordered key) increasing covers
  rw [← grouped, List.flatMap_map]
  apply List.flatMap_congr
  intro block member
  obtain ⟨inBlocks, here⟩ := List.mem_filter.mp member
  rw [List.filter_filter]
  apply List.filter_congr
  intro packet arrives
  by_cases origin : packet.origin = block.origin
  · have route : queueOf positive (rq.sourceBlockNumber packet.item) =
        queueOf positive block.item.id :=
      queueOf_emitted framed (orderly.emitted_of_origin inBlocks arrives origin)
    simpa [origin, route] using here
  · simp [origin]

/-- The blocks at one queue of which something arrives. -/
def arrivedAt (positive : 0 < workers) (blocks : List (Sourced Block))
    (arrivals : List (Sourced rq.EncodingPacket)) (key : Fin workers) : List (Sourced Block) :=
  (blocks.filter fun block => queueOf positive block.item.id = key).filter fun block =>
    !(ownPackets arrivals block.origin).isEmpty

theorem mem_of_mem_arrivedAt {key : Fin workers} {block : Sourced Block}
    (member : block ∈ arrivedAt positive blocks arrivals key) : block ∈ blocks :=
  (List.mem_filter.mp (List.mem_filter.mp member).1).1

theorem ownPackets_ne_nil {key : Fin workers} {block : Sourced Block}
    (member : block ∈ arrivedAt positive blocks arrivals key) :
    ownPackets arrivals block.origin ≠ [] := by
  simpa using (List.mem_filter.mp member).2

/-- The packets of a block go to a decoder of their own, which gives out that block or nothing. -/
theorem decodeRun_own (framed : rq.Framed) (sound : rq.Sound)
    (orderly : Orderly setup positive blocks arrivals) {key : Fin workers}
    {block : Sourced Block} (member : block ∈ arrivedAt positive blocks arrivals key) :
    decodeRun setup.encoder.config setup.blockSize (ownPackets arrivals block.origin) =
      if setup.decodableFrom arrivals block then some block.item.data else none := by
  have inBlocks := mem_of_mem_arrivedAt member
  have isRun : decodeRun setup.encoder.config setup.blockSize (ownPackets arrivals block.origin) =
      rq.firstDecoded (rq.newDecoder block.item.id setup.encoder.config setup.blockSize)
        (ownPackets arrivals block.origin) := by
    cases own : ownPackets arrivals block.origin with
    | nil => exact absurd own (ownPackets_ne_nil member)
    | cons packet packets =>
      have packetOf := orderly.packetOf_own inBlocks (own ▸ List.mem_cons_self)
      rw [decodeRun, framed.source_block_number packetOf]
  rw [isRun, Setup.decodableFrom]
  cases decoded : rq.firstDecoded
      (rq.newDecoder block.item.id setup.encoder.config setup.blockSize)
      (ownPackets arrivals block.origin) with
  | none => simp
  | some data =>
    have same : data = block.item.data :=
      sound (fun packet own => orderly.packetOf_own inBlocks own)
        (by rw [orderly.sizes block inBlocks]; exact decoded)
    simp [same]

/-- Every block that is decoded is completed by a packet of its own. -/
theorem attributed_queue (framed : rq.Framed) (sound : rq.Sound)
    (orderly : Orderly setup positive blocks arrivals) {key : Fin workers}
    (distinct : (arrivedAt positive blocks arrivals key).IsChain
      fun left right => left.item.id ≠ right.item.id) :
    setup.decoder.attributed (arrivals.filter fun packet =>
        queueOf positive (rq.sourceBlockNumber packet.item) = key) =
      ((arrivedAt positive blocks arrivals key).filter (setup.decodableFrom arrivals)).map
        Sourced.decoded := by
  have packets : (arrivals.filter fun packet =>
      queueOf positive (rq.sourceBlockNumber packet.item) = key) =
        (arrivedAt positive blocks arrivals key).flatMap fun block =>
          arrivals.filter fun packet => packet.origin = block.origin := by
    have some : ∀ block : Sourced Block, (!(ownPackets arrivals block.origin).isEmpty) =
        !(arrivals.filter fun packet => packet.origin = block.origin).isEmpty := fun block => by
      rw [ownPackets, List.isEmpty_map]
    rw [arrivedAt, List.filter_congr fun block _ => some block,
      flatMap_filter_isEmpty fun block : Sourced Block =>
        arrivals.filter fun packet => packet.origin = block.origin]
    exact orderly.filter_queue framed key
  obtain ⟨config, configured, created⟩ := BlockDecoder.new_eq_ok.mp setup.decoder_created
  rw [packets, BlockDecoder.attributed_flatMap ?_ ?_ ?_ distinct (by simp [created]),
    map_filter_eq_flatMap]
  · apply List.flatMap_congr
    intro block member
    have run := orderly.decodeRun_own framed sound member
    rw [setup.accepted.config_eq configured, ownPackets] at run
    rw [created, run, ← Option.toList_map]
    split <;> rfl
  · intro block member none
    exact ownPackets_ne_nil member (by rw [ownPackets, none, List.map_nil])
  · intro block member packet isOwn
    have packetOf := orderly.packetOf_own (mem_of_mem_arrivedAt member)
      (List.mem_map_of_mem isOwn)
    exact framed.source_block_number packetOf
  · intro block _ packet isOwn
    simpa using (List.mem_filter.mp isOwn).2

/-- What the decoder of one queue makes of its packets when the numbers there keep changing. -/
theorem decodeStream_queue (framed : rq.Framed) (sound : rq.Sound)
    (orderly : Orderly setup positive blocks arrivals) {key : Fin workers}
    (distinct : (arrivedAt positive blocks arrivals key).IsChain
      fun left right => left.item.id ≠ right.item.id) :
    (setup.decoder.decodeStream ((arrivals.map Sourced.item).filter fun packet =>
        queueOf positive (rq.sourceBlockNumber packet) = key)).2 =
      ((arrivedAt positive blocks arrivals key).filter (setup.decodableFrom arrivals)).map
        fun block => block.item.data := by
  have attributed := congrArg (List.map Sourced.item)
    (orderly.attributed_queue framed sound distinct)
  rw [BlockDecoder.map_item_attributed, List.map_map] at attributed
  rw [List.filter_map]
  exact attributed

/-- Among the blocks of which something arrives are all that can be decoded. -/
theorem filter_arrivedAt (setup : Setup rq) (positive : 0 < workers) (blocks : List (Sourced Block))
    (arrivals : List (Sourced rq.EncodingPacket)) (key : Fin workers) :
    (arrivedAt positive blocks arrivals key).filter (setup.decodableFrom arrivals) =
      (blocks.filter (setup.decodableFrom arrivals)).filter fun block =>
        queueOf positive block.item.id = key := by
  rw [arrivedAt, List.filter_filter, List.filter_filter, List.filter_filter]
  apply List.filter_congr
  intro block _
  cases own : ownPackets arrivals block.origin with
  | nil => simp [Setup.decodableFrom, own, Raptorq.firstDecoded]
  | cons packet packets => simp [Bool.and_comm]

end Orderly

/-! ## Decoders to which everything has arrived -/

/-- A decoder that reads these packets in any fragments until the end of the stream. -/
theorem Decodes.startWith (positive : 0 < workers) (decoder : BlockDecoder rq) (packetSize : Nat)
    {packets : List rq.EncodingPacket} {input : Reader} (quiet : Quiet onError input)
    (content : contents input = forwardPackets rq packets) :
    Decodes positive decoder packetSize packets
      (State.start { packetSize, input, isOpen := false } fun _ => decoder) :=
  ⟨.start _ _ _, rfl, [], packets, rfl, rfl, quiet, content⟩

theorem Decodes.reachable {decoder : BlockDecoder rq} {packetSize : Nat}
    {packets : List rq.EncodingPacket} {s s' : DecoderState rq workers}
    (sizePositive : 0 < packetSize) (whole : ∀ packet ∈ packets, Whole rq packetSize packet)
    (decodes : Decodes positive decoder packetSize packets s)
    (reachable : Reachable (decoderProgram rq positive) s s') :
    Decodes positive decoder packetSize packets s' := by
  induction reachable with
  | refl => exact decodes
  | tail _ step inductionHypothesis => exact inductionHypothesis.step sizePositive whole step

/-- A drained decoder has written the blocks that can be decoded from what arrived, each once and
    those of one queue in their order, if the numbers at every queue keep changing. -/
theorem Orderly.written {setup : Setup rq} {blocks : List (Sourced Block)}
    {arrivals : List (Sourced rq.EncodingPacket)} (framed : rq.Framed) (sound : rq.Sound)
    (orderly : Orderly setup positive blocks arrivals)
    (distinct : ∀ key, (arrivedAt positive blocks arrivals key).IsChain
      fun left right => left.item.id ≠ right.item.id)
    {s : DecoderState rq workers}
    (decodes : Decodes positive setup.decoder setup.packetSize (arrivals.map Sourced.item) s)
    (drained : Drained s) :
    ∃ order : List (Sourced Block),
      order.Perm (blocks.filter (setup.decodableFrom arrivals)) ∧
      s.written = order.map (fun block => block.item.data) ∧
      ∀ key, (order.filter fun block => queueOf positive block.item.id = key) =
        (blocks.filter (setup.decodableFrom arrivals)).filter fun block =>
          queueOf positive block.item.id = key := by
  obtain ⟨_, written, lanes⟩ := decodes.drained drained
  have decoded : ∀ key, lane s.merged key =
      ((blocks.filter (setup.decodableFrom arrivals)).filter fun block =>
        queueOf positive block.item.id = key).map fun block => block.item.data := by
    intro key
    rw [lanes key, orderly.decodeStream_queue framed sound (distinct key), filter_arrivedAt]
  obtain ⟨order, merged, sameLanes⟩ := exists_order_complete
    (fun block : Sourced Block => block.item.data)
    (fun block => queueOf positive block.item.id)
    (fun key block member => by simpa using (List.mem_filter.mp member).2) decoded
  exact ⟨order, perm_of_lanes _ sameLanes, by rw [written, merged], sameLanes⟩

/-! ## One session of an encoder -/

/-- With at most 128 decoder workers, the numbers at every queue keep changing within a session. -/
theorem isChain_numbered (positive : 0 < workers) (few : workers ≤ 128) (initial : UInt8)
    (chunks : List (List UInt8)) (key : Fin workers) :
    ((numbered 0 initial chunks).filter fun block => queueOf positive block.item.id = key).IsChain
      fun left right => left.item.id ≠ right.item.id := by
  have chains := (isChain_blockIds positive initial chunks.length).mpr
    (fun _ _ => exists_other positive few _) key
  rw [← map_id_numbered 0, List.filter_map, List.isChain_map] at chains
  exact chains

section Session

variable {setup : Setup rq} {session : Session} {e : EncoderState rq setup.workers}
  {arrivals : List (Sourced rq.EncodingPacket)}

/-- What an encoder has written in a session comes from the blocks of its input. -/
theorem Encodes.mem_written (framed : rq.Framed) {encoder : BlockEncoder rq}
    {dispatcher : BlockDispatcher} {s : EncoderState rq workers}
    (encodes : Encodes positive encoder dispatcher s) {packet : Sourced rq.EncodingPacket}
    (member : packet ∈ s.written) : ∃ block ∈ s.sent, packet ∈ emitted encoder block := by
  have inQueue : packet ∈ s.written.filter fun other =>
      queueOf positive (rq.sourceBlockNumber other.item) =
        queueOf positive (rq.sourceBlockNumber packet.item) :=
    List.mem_filter.mpr ⟨member, by simp⟩
  have inLane := (encodes.written_filter framed _).subset inQueue
  obtain ⟨block, inSent, isEmitted⟩ := List.mem_flatMap.mp ((encodes.lane_prefix _).subset inLane)
  exact ⟨block, (List.mem_filter.mp inSent).1, isEmitted⟩

theorem Orderly.of_session (framed : rq.Framed) (quiet : Quiet onError session.input)
    (reachable : Reachable (encoderProgram rq setup.workers_pos)
      (.start (setup.dispatcher 0 session) fun _ => setup.encoder) e)
    (drained : Drained e) (genuine : ∀ packet ∈ arrivals, packet ∈ e.written)
    (ordered : OrderedAtQueues positive arrivals) :
    Orderly setup positive (setup.blocks 0 [session]) arrivals := by
  have encodes := (Encodes.start setup.workers_pos setup.encoder _).reachable reachable
  have all := encodes.drained framed drained quiet
  have sent : e.sent = setup.blocks 0 [session] := by
    rw [all.sent, Setup.blocks, Setup.blocks, List.append_nil]
    rfl
  have sizes : ∀ block ∈ e.sent, block.item.data.length = setup.blockSize := by
    obtain ⟨chunks, sizes, isNumbered⟩ := encodes.sent_eq
    intro block member
    rw [isNumbered, numbered, List.mem_mapIdx] at member
    obtain ⟨idx, inside, rfl⟩ := member
    exact sizes _ (List.getElem_mem inside)
  have increasing : (e.sent.map Sourced.origin).Pairwise (· < ·) := by
    rw [all.sent, map_origin_numbered]
    exact List.pairwise_lt_range'
  rw [← sent]
  exact ⟨increasing, sizes, fun packet member => encodes.mem_written framed (genuine packet member),
    ordered⟩

/-- If something of every block arrives, the numbers at every queue keep changing. -/
theorem distinct_of_survive (setup : Setup rq) (positive : 0 < workers) (few : workers ≤ 128)
    (session : Session) {arrivals : List (Sourced rq.EncodingPacket)}
    (survive : ∀ block ∈ setup.blocks 0 [session], ownPackets arrivals block.origin ≠ [])
    (key : Fin workers) :
    (Orderly.arrivedAt positive (setup.blocks 0 [session]) arrivals key).IsChain
      fun left right => left.item.id ≠ right.item.id := by
  -- the neighbours at a queue are those of the session
  have everything : Orderly.arrivedAt positive (setup.blocks 0 [session]) arrivals key =
      (setup.blocks 0 [session]).filter fun block => queueOf positive block.item.id = key := by
    apply List.filter_eq_self.mpr
    intro block member
    simpa using survive block (List.mem_filter.mp member).1
  rw [everything, Setup.blocks, Setup.blocks, List.append_nil]
  exact isChain_numbered positive few session.initialBlockId (setup.chunks session) key

/-- What a drained decoder has written that has read packets in such an order. -/
theorem Orderly.delivers (framed : rq.Framed) (sound : rq.Sound) {positive : 0 < workers}
    (few : workers ≤ 128)
    (orderly : Orderly setup positive (setup.blocks 0 [session]) arrivals)
    (survive : ∀ block ∈ setup.blocks 0 [session], ownPackets arrivals block.origin ≠ [])
    {input : Reader} (quiet : Quiet onError input)
    (content : contents input = forwardPackets rq (arrivals.map Sourced.item))
    {d : DecoderState rq workers}
    (decodes : Reachable (decoderProgram rq positive)
      (.start ⟨setup.packetSize, input, false⟩ fun _ => setup.decoder) d)
    (decoded : Drained d) :
    ∃ order : List (Sourced Block),
      order.Perm ((setup.blocks 0 [session]).filter (setup.decodableFrom arrivals)) ∧
      d.written = order.map (fun block => block.item.data) ∧
      ∀ key, (order.filter fun block => queueOf positive block.item.id = key) =
        ((setup.blocks 0 [session]).filter (setup.decodableFrom arrivals)).filter fun block =>
          queueOf positive block.item.id = key := by
  have started := Decodes.startWith positive setup.decoder setup.packetSize quiet content
  have reached := started.reachable (setup.packetSize_pos framed) (orderly.whole framed) decodes
  exact orderly.written framed sound (distinct_of_survive setup positive few session survive)
    reached decoded

end Session

/-! ## Runs in which packets arrive as they are put together -/

/-- An encoder with one worker has a run that writes the packets of its blocks in order. -/
theorem exists_encoded_in_order (framed : rq.Framed) (setup : Setup rq) (one : setup.workers = 1)
    (sizePositive : 0 < setup.blockSize)
    (encodes : ∀ block : Block, block.data.length = setup.blockSize →
      ∃ packets, setup.encoder.encode block = .ok packets)
    {session : Session} (quiet : Quiet onError session.input) :
    ∃ e, Reachable (encoderProgram rq setup.workers_pos)
        (.start (setup.dispatcher 0 session) fun _ => setup.encoder) e ∧
      Drained e ∧ e.written = (setup.blocks 0 [session]).flatMap (emitted setup.encoder) := by
  obtain ⟨e, reachable, drained⟩ := exists_drained_encoder setup sizePositive encodes 0 quiet
  have all := ((Encodes.start _ _ _).reachable reachable).drained framed drained quiet
  have onlyKey : ∀ left right : Fin setup.workers, left = right := by
    intro left right
    have := left.isLt
    have := right.isLt
    exact Fin.ext (by omega)
  have written := all.written ⟨0, setup.workers_pos⟩
  rw [List.filter_eq_self.mpr fun _ _ => decide_eq_true (onlyKey _ _),
    List.filter_eq_self.mpr fun _ _ => decide_eq_true (onlyKey _ _), all.sent] at written
  refine ⟨e, reachable, drained, written.trans ?_⟩
  rw [Setup.blocks, Setup.blocks, List.append_nil]
  rfl

/-- A decoder with any number of workers has a run over packets that arrive in one piece each. -/
theorem exists_decoded (framed : rq.Framed) (setup : Setup rq) {session : Session}
    (positive : 0 < workers) {e : EncoderState rq setup.workers}
    (encodes : Reachable (encoderProgram rq setup.workers_pos)
      (.start (setup.dispatcher 0 session) fun _ => setup.encoder) e)
    {arrivals : List (Sourced rq.EncodingPacket)}
    (genuine : ∀ packet ∈ arrivals, packet ∈ e.written) :
    ∃ (input : Reader) (d : DecoderState rq workers), Quiet onError input ∧
      contents input = forwardPackets rq (arrivals.map Sourced.item) ∧
      Reachable (decoderProgram rq positive)
        (.start ⟨setup.packetSize, input, false⟩ fun _ => setup.decoder) d ∧
      Drained d := by
  have whole : ∀ packet ∈ arrivals.map Sourced.item, Whole rq setup.packetSize packet := by
    intro packet member
    obtain ⟨sourced, arrives, rfl⟩ := List.mem_map.mp member
    obtain ⟨block, -, isEmitted⟩ := ((Encodes.start _ _ _).reachable encodes).mem_written
      framed (genuine sourced arrives)
    exact setup.whole framed isEmitted
  have quiet : Quiet onError ((arrivals.map Sourced.item).map fun packet =>
      .data (rq.serialize packet)) := by
    intro event member
    obtain ⟨packet, inPackets, rfl⟩ := List.mem_map.mp member
    intro empty
    have length := (whole packet inPackets).length
    rw [empty, List.length_nil] at length
    exact absurd length (setup.packetSize_pos framed).ne
  have content : contents ((arrivals.map Sourced.item).map fun packet =>
      .data (rq.serialize packet)) = forwardPackets rq (arrivals.map Sourced.item) := by
    simp [contents, forwardPackets, List.flatMap_map]
  -- the same configuration with the decoder's number of workers
  let decoding : Setup rq := { setup with workers, workers_pos := positive }
  have idle : Idle (State.start ⟨setup.packetSize, (arrivals.map Sourced.item).map fun packet =>
      .data (rq.serialize packet), false⟩ fun _ => setup.decoder :
        DecoderState rq decoding.workers) := .start _ _
  obtain ⟨d, reachable, drained⟩ := exists_drained_decoder decoding framed idle rfl rfl quiet whole
    content
  exact ⟨_, d, quiet, content, reachable, drained⟩

/-! ## Two blocks to run on -/

/-- Two blocks for an encoder with one worker. -/
def twoBlocks : Session := wholeSession 0 (List.replicate 16 1 ++ List.replicate 16 2)

theorem quiet_twoBlocks : Quiet onError twoBlocks.input :=
  quiet_wholeSession 0 (by simp)

theorem blocks_twoBlocks :
    (systematicSetup Nat.one_pos).blocks 0 [twoBlocks] =
      [⟨0, ⟨0, List.replicate 16 1⟩⟩, ⟨1, ⟨1, List.replicate 16 2⟩⟩] := by
  decide

/-- A run of the encoder, which writes the packets of both blocks in order. -/
theorem exists_encoded_twoBlocks :
    ∃ e, Reachable (encoderProgram systematicCodec Nat.one_pos)
        (.start ((systematicSetup Nat.one_pos).dispatcher 0 twoBlocks)
          fun _ => (systematicSetup Nat.one_pos).encoder) e ∧
      Drained e ∧
      e.written = [⟨0, ⟨0, 1, List.replicate 8 1⟩⟩, ⟨0, ⟨0, 0, List.replicate 8 1⟩⟩,
        ⟨1, ⟨1, 1, List.replicate 8 2⟩⟩, ⟨1, ⟨1, 0, List.replicate 8 2⟩⟩] := by
  obtain ⟨e, reachable, drained, written⟩ := exists_encoded_in_order Systematic.framed
    (systematicSetup Nat.one_pos) rfl (show 0 < 16 by simp)
    (fun block size => (systematicSetup Nat.one_pos).accepted.encode_ok Systematic.counted
      (show (0 : UInt32).toNat ≤ 2 ^ 23 by simp) block size) quiet_twoBlocks
  exact ⟨e, reachable, drained, written.trans (by decide)⟩

/-! ## What a decoder needs of a session -/

end GarudaCodec.Core
