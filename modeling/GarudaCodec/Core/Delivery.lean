import GarudaCodec.Core.BlockIds
import GarudaCodec.Core.LinkRuns

/-! # What the decoder makes of what comes through

Routing by block number keeps the packets of different encoder workers apart, so every decoder
worker receives the surviving packets of its blocks block after block.  What it decodes depends
only on the runs of equal numbers among those blocks (`decodeRuns_arrivals`).
-/

namespace GarudaCodec.Core

open GarudaCodec.Foundation
open GarudaCodec.Foundation.Lanes
open GarudaCodec.Foundation.Runs
open GarudaCodec.Foundation.Groups
open GarudaCodec.Foundation.Chunks
open GarudaCodec.Foundation.Readers
open GarudaCodec.Core.Io

variable {rq : Raptorq}

namespace Link

variable {setup : Setup rq} {sessions : List Session} {s : Link rq setup.workers}

/-- The dispatched blocks that belong to one queue. -/
def blocksAt (setup : Setup rq) (s : Link rq setup.workers) (key : Fin setup.workers) :
    List (Sourced Block) :=
  s.dispatched.filter fun block => setup.queue block.item.id = key

/-- The packets that have come through for one queue. -/
def arrivalsAt (setup : Setup rq) (s : Link rq setup.workers) (key : Fin setup.workers) :
    List (Sourced rq.EncodingPacket) :=
  s.delivered.filter fun packet => setup.queue (rq.sourceBlockNumber packet.item) = key

/-! ## What arrives at a queue -/

namespace Connected

theorem origins (connected : Connected setup sessions s) :
    s.dispatched.map Sourced.origin = List.range s.dispatched.length := by
  obtain ⟨served, _, chained⟩ := connected.encoders
  rw [List.range_eq_range']
  exact map_origin_flatMap_sent chained

theorem origins_blocksAt (connected : Connected setup sessions s) (key : Fin setup.workers) :
    ((s.blocksAt setup key).map Sourced.origin).Pairwise (· < ·) := by
  have all : (s.dispatched.map Sourced.origin).Pairwise (· < ·) :=
    connected.origins ▸ List.pairwise_lt_range
  exact all.sublist (List.filter_sublist.map _)

/-- A position belongs to one dispatched block. -/
theorem eq_of_origin_eq (connected : Connected setup sessions s) {left right : Sourced Block}
    (inLeft : left ∈ s.dispatched) (inRight : right ∈ s.dispatched)
    (same : left.origin = right.origin) : left = right := by
  have nodup : (s.dispatched.map Sourced.origin).Nodup :=
    connected.origins ▸ List.nodup_range
  exact List.inj_on_of_nodup_map nodup inLeft inRight same

theorem getElem?_origin (connected : Connected setup sessions s) {block : Sourced Block}
    (member : block ∈ s.dispatched) : s.dispatched[block.origin]? = some block := by
  obtain ⟨idx, inside, isBlock⟩ := List.mem_iff_getElem.mp member
  have position : (s.dispatched.map Sourced.origin)[idx]? = some block.origin := by
    rw [List.getElem?_map, List.getElem?_eq_getElem inside, isBlock]
    rfl
  rw [connected.origins, List.getElem?_range inside, Option.some.injEq] at position
  rw [← position, List.getElem?_eq_getElem inside, isBlock]

theorem emission_sublist (connected : Connected setup sessions s) (key : Fin setup.workers) :
    (s.emission key).Sublist ((s.blocksAt setup key).flatMap (emitted setup.encoder)) := by
  obtain ⟨served, _, chained⟩ := connected.encoders
  exact lanes_sublist chained key

/-- What comes through for a decoder queue was emitted by one encoder worker, in its order. -/
theorem arrivals_sublist (framed : rq.Framed) (connected : Connected setup sessions s)
    (key : Fin setup.workers) : (s.arrivalsAt setup key).Sublist (s.emission key) := by
  obtain ⟨served, _, chained⟩ := connected.encoders
  have onWire : s.delivered.Sublist s.wire :=
    connected.delivered.trans (List.take_sublist _ _)
  exact (onWire.filter _).trans (wire_sublist framed chained key)

theorem mem_delivered (framed : rq.Framed) (connected : Connected setup sessions s)
    {packet : Sourced rq.EncodingPacket} (member : packet ∈ s.delivered) :
    ∃ block ∈ s.dispatched, packet ∈ emitted setup.encoder block :=
  connected.mem_wire framed (List.mem_of_mem_take (connected.delivered.subset member))

/-- What the dispatcher has put into a queue is the front of what has come through for it. -/
theorem queued (connected : Connected setup sessions s) (key : Fin setup.workers) :
    ∃ arrivals : List (Sourced rq.EncodingPacket),
      s.decoder.received key ++ s.decoder.queues key = arrivals.map Sourced.item ∧
      arrivals <+: s.arrivalsAt setup key := by
  have sent := List.prefix_iff_eq_take.mp connected.decoder.sent_prefix
  rw [← List.map_take] at sent
  have queued := connected.decoder.wired.queued key
  rw [sent, List.filter_map] at queued
  exact ⟨_, queued.symm, (List.take_prefix _ _).filter _⟩

/-- Once the decoder has drained, that is all of it. -/
theorem queued_drained (connected : Connected setup sessions s)
    (drained : Pipeline.Drained s.decoder) (key : Fin setup.workers) :
    s.decoder.received key ++ s.decoder.queues key =
      (s.arrivalsAt setup key).map Sourced.item := by
  obtain ⟨sent, _, _⟩ := connected.decoder.drained drained
  have queued := connected.decoder.wired.queued key
  rw [sent, List.filter_map] at queued
  exact queued.symm

/-- The positions of the blocks whose packets arrive at a queue never decrease. -/
theorem sorted_emission (connected : Connected setup sessions s) (key : Fin setup.workers) :
    ((s.emission key).map Sourced.origin).Pairwise (· ≤ ·) := by
  refine List.Pairwise.sublist ((connected.emission_sublist key).map _) ?_
  rw [List.pairwise_map, List.pairwise_flatMap]
  have increasing := connected.origins_blocksAt key
  rw [List.pairwise_map] at increasing
  constructor
  · intro block _
    refine List.pairwise_of_forall_mem_list ?_
    intro left inLeft right inRight
    rw [(mem_emitted inLeft).1, (mem_emitted inRight).1]
  · refine increasing.imp ?_
    intro earlier later less left inLeft right inRight
    rw [(mem_emitted inLeft).1, (mem_emitted inRight).1]
    exact less.le

end Connected

/-! ## Survivors -/

/-- Whether the packets of a block that came through are enough for a decoder of their own. -/
def decodable (setup : Setup rq) (s : Link rq setup.workers) (block : Sourced Block) : Bool :=
  (rq.firstDecoded (rq.newDecoder block.item.id setup.encoder.config setup.blockSize)
    (s.survivors block.origin)).isSome

/-- The blocks at one queue of which at least one packet has come through. -/
def alive (setup : Setup rq) (s : Link rq setup.workers) (key : Fin setup.workers) :
    List (Sourced Block) :=
  (s.blocksAt setup key).filter fun block => !(s.survivors block.origin).isEmpty

/-- In every run of blocks at one queue that have the same number and of which something came
    through, the first block is alone or can be decoded from its own packets. -/
def Separated (setup : Setup rq) (s : Link rq setup.workers) : Prop :=
  ∀ key, ∀ run ∈ runs (fun block => block.item.id) (s.alive setup key),
    ∀ first ∈ run.head?, run = [first] ∨ s.decodable setup first = true

/-- Decoders that get only the packets of one block give that block out, if any. -/
def Faithful (setup : Setup rq) (s : Link rq setup.workers) : Prop :=
  ∀ block ∈ s.dispatched, s.decodable setup block = true →
    rq.firstDecoded (rq.newDecoder block.item.id setup.encoder.config setup.blockSize)
      (s.survivors block.origin) = some block.item.data

/-- The blocks one decoder worker gives out. -/
def decodedAt (setup : Setup rq) (s : Link rq setup.workers) (key : Fin setup.workers) :
    List (Sourced Block) :=
  firsts (fun block => block.item.id) (s.decodable setup) (s.alive setup key)

theorem decodedAt_sublist (setup : Setup rq) (s : Link rq setup.workers)
    (key : Fin setup.workers) : (s.decodedAt setup key).Sublist (s.blocksAt setup key) :=
  (firsts_sublist _ _ _).trans List.filter_sublist

theorem queue_of_mem_decodedAt {key : Fin setup.workers} {block : Sourced Block}
    (member : block ∈ s.decodedAt setup key) : setup.queue block.item.id = key := by
  simpa using (List.mem_filter.mp ((decodedAt_sublist setup s key).subset member)).2

namespace Connected

theorem packetOf_survivor (framed : rq.Framed) (connected : Connected setup sessions s)
    {block : Sourced Block} (inDispatched : block ∈ s.dispatched) {packet : rq.EncodingPacket}
    (member : packet ∈ s.survivors block.origin) :
    rq.PacketOf block.item.id setup.encoder.config block.item.data packet := by
  obtain ⟨sourced, isSurvivor, rfl⟩ := List.mem_map.mp member
  obtain ⟨inDelivered, isOrigin⟩ := List.mem_filter.mp isSurvivor
  obtain ⟨other, inOther, isEmitted⟩ := connected.mem_delivered framed inDelivered
  obtain ⟨origin, packetOf⟩ := mem_emitted isEmitted
  have same : other = block := connected.eq_of_origin_eq inOther inDispatched
    (origin.symm.trans (by simpa using isOrigin))
  exact same ▸ packetOf

/-- The packets that arrive at a queue are the survivors of its blocks, block after block. -/
theorem map_arrivalsAt (framed : rq.Framed) (connected : Connected setup sessions s)
    (key : Fin setup.workers) :
    (s.arrivalsAt setup key).map Sourced.item =
      (s.alive setup key).flatMap fun block => s.survivors block.origin := by
  have arrivals := connected.arrivals_sublist framed key
  have sorted := (connected.sorted_emission key).sublist (arrivals.map Sourced.origin)
  have covers : ∀ packet ∈ s.arrivalsAt setup key,
      packet.origin ∈ (s.blocksAt setup key).map Sourced.origin := by
    intro packet member
    obtain ⟨block, inBlocks, isEmitted⟩ := List.mem_flatMap.mp
      ((arrivals.trans (connected.emission_sublist key)).subset member)
    exact List.mem_map.mpr ⟨block, inBlocks, (mem_emitted isEmitted).1.symm⟩
  have grouped := flatMap_filter_of_sorted sorted (connected.origins_blocksAt key) covers
  rw [alive, flatMap_filter_isEmpty (fun block : Sourced Block => s.survivors block.origin),
    ← grouped, List.map_flatMap, List.flatMap_map]
  apply List.flatMap_congr
  intro block inBlocks
  obtain ⟨inDispatched, here⟩ := List.mem_filter.mp inBlocks
  rw [survivors, arrivalsAt, List.filter_filter]
  congr 1
  apply List.filter_congr
  intro packet inDelivered
  -- a packet with the position of a block at this queue is itself routed there
  by_cases isOrigin : packet.origin = block.origin
  · obtain ⟨other, inOther, isEmitted⟩ := connected.mem_delivered framed inDelivered
    have same : other = block := connected.eq_of_origin_eq inOther inDispatched
      ((mem_emitted isEmitted).1.symm.trans isOrigin)
    have route : setup.queue (rq.sourceBlockNumber packet.item) = key := by
      rw [Setup.queue, queueOf_emitted framed isEmitted, same]
      exact of_decide_eq_true here
    simp [isOrigin, route]
  · simp [isOrigin]

theorem length_data (connected : Connected setup sessions s) {block : Sourced Block}
    (member : block ∈ s.dispatched) : block.item.data.length = setup.blockSize := by
  obtain ⟨served, _, chained⟩ := connected.encoders
  exact length_of_mem_flatMap_sent chained block member

theorem mem_dispatched_of_mem_alive {key : Fin setup.workers} {block : Sourced Block}
    (member : block ∈ s.alive setup key) : block ∈ s.dispatched :=
  (List.mem_filter.mp (List.mem_filter.mp member).1).1

theorem survivors_ne_nil {key : Fin setup.workers} {block : Sourced Block}
    (member : block ∈ s.alive setup key) : s.survivors block.origin ≠ [] := by
  simpa using (List.mem_filter.mp member).2

/-- A run that starts with survivors of a block goes to a decoder made for that block. -/
theorem decodeRun_survivors (framed : rq.Framed) (connected : Connected setup sessions s)
    {key : Fin setup.workers} {block : Sourced Block} (member : block ∈ s.alive setup key)
    (rest : List rq.EncodingPacket) :
    decodeRun setup.encoder.config setup.blockSize (s.survivors block.origin ++ rest) =
      rq.firstDecoded (rq.newDecoder block.item.id setup.encoder.config setup.blockSize)
        (s.survivors block.origin ++ rest) := by
  cases survive : s.survivors block.origin with
  | nil => exact absurd survive (survivors_ne_nil member)
  | cons packet packets =>
    have packetOf := connected.packetOf_survivor framed (mem_dispatched_of_mem_alive member)
      (survive ▸ List.mem_cons_self)
    rw [List.cons_append, decodeRun, framed.source_block_number packetOf]

theorem faithful (framed : rq.Framed) (sound : rq.Sound)
    (connected : Connected setup sessions s) : s.Faithful setup := by
  intro block member isDecodable
  obtain ⟨data, decoded⟩ := Option.isSome_iff_exists.mp isDecodable
  have same : data = block.item.data :=
    sound (fun packet survives => connected.packetOf_survivor framed member survives)
      (by rw [connected.length_data member]; exact decoded)
  rw [decoded, same]

/-- What a decoder worker makes of its packets, if nothing mixes. -/
theorem decodeRuns_arrivals (framed : rq.Framed) (connected : Connected setup sessions s)
    (faithful : s.Faithful setup) (separated : s.Separated setup)
    (key : Fin setup.workers) :
    decodeRuns setup.encoder.config setup.blockSize
        ((s.arrivalsAt setup key).map Sourced.item) =
      (s.decodedAt setup key).map fun block => block.item.data := by
  have numbers : ∀ block ∈ s.alive setup key, ∀ packet ∈ s.survivors block.origin,
      rq.sourceBlockNumber packet = block.item.id := fun block member packet survives =>
    framed.source_block_number
      (connected.packetOf_survivor framed (mem_dispatched_of_mem_alive member) survives)
  rw [decodeRuns, connected.map_arrivalsAt framed key,
    runs_flatMap rq.sourceBlockNumber (fun block => block.item.id) _ _
      (fun block member => survivors_ne_nil member) numbers,
    decodedAt, firsts, List.map_flatMap, List.flatMap_map]
  apply List.flatMap_congr
  intro run member
  cases run with
  | nil => exact absurd rfl (ne_nil_of_mem_runs member)
  | cons block run =>
    have inAlive : block ∈ s.alive setup key := by
      rw [← flatten_runs (fun block => block.item.id) (s.alive setup key)]
      exact List.mem_flatten.mpr ⟨_, member, List.mem_cons_self⟩
    rw [List.flatMap_cons, connected.decodeRun_survivors framed inAlive]
    cases isDecodable : s.decodable setup block with
    | true =>
      have decoded := faithful block (mem_dispatched_of_mem_alive inAlive) isDecodable
      rw [Raptorq.firstDecoded_append decoded]
      simp [isDecodable]
    | false =>
      -- the block is alone in its run
      have alone := separated key _ member block rfl
      rw [isDecodable] at alone
      obtain rfl : run = [] := by simpa using alone
      have nothing := isDecodable
      rw [decodable, Option.isSome_eq_false_iff, Option.isNone_iff_eq_none] at nothing
      simp [nothing, isDecodable]

/-- The packets the decoder's queues receive are the arrivals. -/
theorem decodeStream_arrivals (framed : rq.Framed) (connected : Connected setup sessions s)
    (faithful : s.Faithful setup) (separated : s.Separated setup)
    (key : Fin setup.workers) :
    (setup.decoder.decodeStream ((s.delivered.map Sourced.item).filter fun packet =>
        queueOf setup.workers_pos (rq.sourceBlockNumber packet) = key)).2 =
      (s.decodedAt setup key).map fun block => block.item.data := by
  rw [setup.decodeStream, ← connected.decodeRuns_arrivals framed faithful separated key,
    List.filter_map]
  rfl

/-- In every state, the blocks written so far are some of the decoded ones, in one order. -/
theorem exists_order_prefix (framed : rq.Framed) (connected : Connected setup sessions s)
    (faithful : s.Faithful setup) (separated : s.Separated setup) :
    ∃ order : List (Sourced Block),
      s.decoder.written = order.map (fun block => block.item.data) ∧
      ∀ key, (order.filter fun block => setup.queue block.item.id = key) <+:
        s.decodedAt setup key := by
  obtain ⟨whole, merged, lanes⟩ := exists_order (fun block : Sourced Block => block.item.data)
    (fun block => setup.queue block.item.id) (fun key block => queue_of_mem_decodedAt)
    (fun key => connected.decodeStream_arrivals framed faithful separated key ▸
      connected.decoder.lane_prefix key)
  have written := List.prefix_iff_eq_take.mp connected.decoder.wired.written_prefix
  rw [merged, ← List.map_take] at written
  exact ⟨_, written, fun key => ((List.take_prefix _ whole).filter _).trans (lanes key)⟩

/-- A drained decoder has written all decoded blocks, in one order. -/
theorem exists_order_drained (framed : rq.Framed) (connected : Connected setup sessions s)
    (faithful : s.Faithful setup) (separated : s.Separated setup)
    (drained : Pipeline.Drained s.decoder) :
    ∃ order : List (Sourced Block),
      s.decoder.written = order.map (fun block => block.item.data) ∧
      ∀ key, (order.filter fun block => setup.queue block.item.id = key) =
        s.decodedAt setup key := by
  obtain ⟨_, written, complete⟩ := connected.decoder.drained drained
  rw [written]
  exact exists_order_complete (fun block : Sourced Block => block.item.data)
    (fun block => setup.queue block.item.id) (fun key block => queue_of_mem_decodedAt)
    (fun key =>
      (complete key).trans (connected.decodeStream_arrivals framed faithful separated key))

/-! ## Runs of equal numbers -/

theorem separated_of_decodable
    (decodable : ∀ block ∈ s.dispatched, s.decodable setup block = true) :
    s.Separated setup := by
  intro key run member first isFirst
  have inAlive : first ∈ s.alive setup key := by
    rw [← flatten_runs (fun block => block.item.id) (s.alive setup key)]
    exact List.mem_flatten.mpr ⟨run, member, List.mem_of_mem_head? isFirst⟩
  exact Or.inr (decodable first (mem_dispatched_of_mem_alive inAlive))

/-- Where the numbers at every queue keep changing among the blocks that came through, nothing
    mixes. -/
theorem separated_of_distinct (distinct : ∀ key, (s.alive setup key).IsChain
    fun left right => left.item.id ≠ right.item.id) : s.Separated setup := by
  intro key run member first isFirst
  rw [runs_of_distinct (distinct key)] at member
  obtain ⟨block, _, rfl⟩ := List.mem_map.mp member
  obtain rfl : block = first := by simpa using isFirst
  exact Or.inl rfl

theorem alive_of_survivors (survive : ∀ block ∈ s.dispatched, s.survivors block.origin ≠ [])
    (key : Fin setup.workers) : s.alive setup key = s.blocksAt setup key := by
  refine List.filter_eq_self.mpr ?_
  intro block member
  simpa using survive block (List.mem_filter.mp member).1

/-! ## A channel that keeps the packets of a choice -/

/-- The survivors of a block are those of its packets that the channel keeps. -/
theorem survivors_of_keep (framed : rq.Framed) (connected : Connected setup sessions s)
    (served : Served setup 0 sessions s.encoders) {keep : Sourced rq.EncodingPacket → Bool}
    (kept : s.delivered = s.wire.filter keep) {block : Sourced Block}
    (member : block ∈ s.dispatched) :
    s.survivors block.origin = ((emitted setup.encoder block).filter keep).map Sourced.item := by
  have inBlocks : block ∈ s.blocksAt setup (setup.queue block.item.id) :=
    List.mem_filter.mpr ⟨member, by simp⟩
  have nodup : ((s.blocksAt setup (setup.queue block.item.id)).map Sourced.origin).Nodup :=
    (connected.origins_blocksAt _).imp Nat.ne_of_lt
  have own : s.wire.filter (fun packet => packet.origin = block.origin) =
      emitted setup.encoder block := by
    -- once the encoders have drained, the wire holds every packet of every block
    have onWire : (s.wire.filter fun packet => setup.queue (rq.sourceBlockNumber packet.item) =
        setup.queue block.item.id) =
          (s.blocksAt setup (setup.queue block.item.id)).flatMap (emitted setup.encoder) :=
      served.written _
    rw [← filter_flatMap_eq nodup (fun _ _ _ inGroup => (mem_emitted inGroup).1) inBlocks,
      ← onWire, List.filter_filter]
    apply List.filter_congr
    intro packet inWire
    by_cases isOrigin : packet.origin = block.origin
    · obtain ⟨other, inOther, isEmitted⟩ := connected.mem_wire framed inWire
      have same : other = block := connected.eq_of_origin_eq inOther member
        ((mem_emitted isEmitted).1.symm.trans isOrigin)
      simp [isOrigin, Setup.queue, queueOf_emitted framed isEmitted, same]
    · simp [isOrigin]
  rw [survivors, kept, List.filter_filter, ← own, List.filter_filter]
  congr 1
  apply List.filter_congr
  intro packet _
  rw [Bool.and_comm]

/-- Without losses, every block can be decoded from its own packets. -/
theorem decoded_of_lossless (framed : rq.Framed) (counted : rq.Counted) (complete : rq.Complete)
    (connected : Connected setup sessions s) (served : Served setup 0 sessions s.encoders)
    (positive : 0 < setup.blockSize) (lossless : s.delivered = s.wire) {block : Sourced Block}
    (member : block ∈ s.dispatched) :
    rq.firstDecoded (rq.newDecoder block.item.id setup.encoder.config setup.blockSize)
      (s.survivors block.origin) = some block.item.data := by
  have kept : s.delivered = s.wire.filter fun _ => true := by simpa using lossless
  obtain ⟨packets, encodes⟩ := served.encoded block member
  have survive : s.survivors block.origin = packets := by
    rw [connected.survivors_of_keep framed served kept member, emitted, encodes]
    simp [Function.comp_def]
  obtain ⟨blockEncoder, planned, sources⟩ := setup.accepted.mem_encode counted encodes
  have size := connected.length_data member
  rw [survive, ← size]
  exact complete (by omega) planned (packetOf_of_mem_encode encodes) sources

end Connected

/-! ## Routing isolates blocks -/

/-- Routing isolates blocks: what the packet dispatcher puts into a queue is taken, in order, from
    what the encoder worker with the same index emitted, and the positions of the blocks of
    successive packets never decrease there. -/
theorem routing_isolates_blocks (framed : rq.Framed) (setup : Setup rq)
    (sessions : List Session) {s : Link rq setup.workers}
    (reachable : Reachable setup (start setup sessions) s) (key : Fin setup.workers) :
    ∃ arrivals : List (Sourced rq.EncodingPacket),
      s.decoder.received key ++ s.decoder.queues key = arrivals.map Sourced.item ∧
      (∀ arrival ∈ arrivals, ∃ block, s.dispatched[arrival.origin]? = some block ∧
        arrival ∈ emitted setup.encoder block) ∧
      arrivals.Sublist (s.emission key) ∧
      (arrivals.map Sourced.origin).Pairwise (· ≤ ·) := by
  have connected := (Connected.start setup sessions).reachable framed reachable
  obtain ⟨arrivals, queued, arrived⟩ := connected.queued key
  have sublist := arrived.sublist.trans (connected.arrivals_sublist framed key)
  refine ⟨arrivals, queued, ?_, sublist, (connected.sorted_emission key).sublist (sublist.map _)⟩
  intro arrival member
  obtain ⟨block, inDispatched, isEmitted⟩ :=
    connected.mem_delivered framed (List.mem_filter.mp (arrived.subset member)).1
  rw [(mem_emitted isEmitted).1]
  exact ⟨block, connected.getElem?_origin inDispatched, isEmitted⟩

/-- Two blocks across the wrap of the number, for three workers; each loses its second packet.  The
    numbers 255 and 0 share a queue. -/
theorem routing_isolates_blocks_systematic :
    ∃ s, Reachable (systematicSetup (show 0 < 3 by decide))
        (start _ [wholeSession 255 (List.replicate 32 1)]) s ∧ Drained s ∧
      ∃ arrivals : List (Sourced Systematic.Packet),
        s.decoder.received ⟨0, by decide⟩ ++ s.decoder.queues ⟨0, by decide⟩ =
          arrivals.map Sourced.item ∧
        arrivals.map Sourced.item =
          [⟨255, 0, List.replicate 8 1⟩, ⟨0, 0, List.replicate 8 1⟩] ∧
        arrivals.Sublist (s.emission ⟨0, by decide⟩) ∧
        (arrivals.map Sourced.origin).Pairwise (· ≤ ·) := by
  have quiet : ∀ session ∈ [wholeSession 255 (List.replicate 32 1)],
      Quiet onError session.input := by
    simpa using quiet_wholeSession 255 (by decide)
  obtain ⟨s, reachable, drained, kept⟩ := exists_drained_systematic (show 0 < 3 by decide) quiet
    fun packet => packet.item.encodingSymbolId = 0
  have connected := (Connected.start _ _).reachable Systematic.framed reachable
  have served := connected.drained Systematic.framed drained quiet
  have blocks : (systematicSetup (show 0 < 3 by decide)).blocks 0
      [wholeSession 255 (List.replicate 32 1)] =
        [⟨0, ⟨255, List.replicate 16 1⟩⟩, ⟨1, ⟨0, List.replicate 16 1⟩⟩] := by decide
  have sent : s.dispatched = _ := served.sent.trans blocks
  have first : s.survivors 0 = [⟨255, 0, List.replicate 8 1⟩] :=
    (connected.survivors_of_keep Systematic.framed served kept
      (sent ▸ List.mem_cons_self)).trans (by decide)
  have second : s.survivors 1 = [⟨0, 0, List.replicate 8 1⟩] :=
    (connected.survivors_of_keep Systematic.framed served kept
      (sent ▸ List.mem_cons_of_mem _ List.mem_cons_self)).trans (by decide)
  -- both blocks are at the first queue, which has received all that came through
  have alive : s.alive (systematicSetup (show 0 < 3 by decide)) ⟨0, by decide⟩ =
      [⟨0, ⟨255, List.replicate 16 1⟩⟩, ⟨1, ⟨0, List.replicate 16 1⟩⟩] := by
    have same : s.blocksAt (systematicSetup (show 0 < 3 by decide)) ⟨0, by decide⟩ =
        [⟨0, ⟨255, List.replicate 16 1⟩⟩, ⟨1, ⟨0, List.replicate 16 1⟩⟩] := by
      rw [blocksAt, sent]
      decide
    rw [Link.alive, same]
    simp [first, second]
  have arrived := connected.map_arrivalsAt Systematic.framed ⟨0, by decide⟩
  rw [alive, List.flatMap_cons, List.flatMap_singleton, first, second] at arrived
  obtain ⟨arrivals, queued, _, sublist, sorted⟩ := routing_isolates_blocks Systematic.framed
    _ _ reachable ⟨0, by decide⟩
  have everything := connected.queued_drained drained.decoder ⟨0, by decide⟩
  exact ⟨s, reachable, drained, arrivals, queued, queued.symm.trans (everything.trans arrived),
    sublist, sorted⟩

end Link

end GarudaCodec.Core
