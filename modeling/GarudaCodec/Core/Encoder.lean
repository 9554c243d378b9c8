import GarudaCodec.Foundation.Chunks
import GarudaCodec.Foundation.Pipeline
import GarudaCodec.Core.Io
import GarudaCodec.Core.BlockEncoder

/-! # `encoder.rs`

The encoder as a pipeline: the block dispatcher reads blocks and deals them out by their 8-bit
number, the workers turn each block into its packets, and the packet forwarder writes them.  A
block and its packets carry the position of the block in the stream as history.
-/

namespace GarudaCodec.Core

open GarudaCodec.Foundation
open GarudaCodec.Foundation.Lanes
open GarudaCodec.Foundation.Chunks
open GarudaCodec.Foundation.Readers
open GarudaCodec.Foundation.Pipeline
open GarudaCodec.Core.Io

variable {rq : Raptorq}

/-- An item and the position of the block it comes from.  No function reads the position. -/
structure Sourced (α : Type) where
  origin : Nat
  item : α
deriving DecidableEq, Repr

/-- The queue a block number belongs to, on both sides: `queues[id as usize % queues.len()]`. -/
def queueOf {workers : Nat} (positive : 0 < workers) (id : UInt8) : Fin workers :=
  ⟨id.toNat % workers, Nat.mod_lt _ positive⟩

/-- `BlockDispatcher` together with its input stream. -/
structure BlockDispatcher where
  blockSize : Nat
  currentBlockId : UInt8
  input : Reader
  /-- History: the position of the next block. -/
  position : Nat

/-- One iteration of the loop in `dispatch`. -/
def BlockDispatcher.fetch (dispatcher : BlockDispatcher) :
    Option (Fetch BlockDispatcher (Sourced Block)) :=
  match readExact dispatcher.input dispatcher.blockSize with
  | (.ok buffer, input) =>
    let block : Block := { id := dispatcher.currentBlockId, data := buffer }
    some (.item { origin := dispatcher.position, item := block }
      { dispatcher with
        input
        -- `wrapping_add`; it follows the send, which nothing can observe
        currentBlockId := dispatcher.currentBlockId + 1
        position := dispatcher.position + 1 })
  | (.error kind, input) => some (.stop (exitOf kind) { dispatcher with input })

/-- One iteration of `encode_stream`. -/
def BlockEncoder.encodeNext (encoder : BlockEncoder rq) (block : Sourced Block) :
    Worked (BlockEncoder rq) (Sourced rq.EncodingPacket) :=
  match encoder.encode block.item with
  | .ok packets =>
    .outputs encoder (packets.map fun packet => { origin := block.origin, item := packet })
  | .err _ => .failed
  | .panic => .panicked

/-- The bytes that `forward_packets` writes. -/
def forwardPackets (rq : Raptorq) (packetQueue : List rq.EncodingPacket) : List UInt8 :=
  packetQueue.flatMap rq.serialize

/-- The threads `start_encoding` starts. -/
def encoderProgram (rq : Raptorq) {workers : Nat} (positive : 0 < workers) :
    Program (Fin workers) BlockDispatcher (Sourced Block) (BlockEncoder rq)
      (Sourced rq.EncodingPacket) where
  fetch := BlockDispatcher.fetch
  route := fun block => queueOf positive block.item.id
  work := BlockEncoder.encodeNext
  capacity := queueCapacity
  capacity_pos := queueCapacity_pos

/-! ## What the block dispatcher sends -/

/-- Blocks with consecutive numbers and positions. -/
def numbered (position : Nat) (id : UInt8) (chunks : List (List UInt8)) : List (Sourced Block) :=
  chunks.mapIdx fun idx data =>
    { origin := position + idx, item := { id := id + UInt8.ofNat idx, data } }

@[simp] theorem length_numbered (position : Nat) (id : UInt8) (chunks : List (List UInt8)) :
    (numbered position id chunks).length = chunks.length := by
  simp [numbered]

theorem numbered_concat (position : Nat) (id : UInt8) (chunks : List (List UInt8))
    (data : List UInt8) :
    numbered position id (chunks ++ [data]) = numbered position id chunks ++
      [{ origin := position + chunks.length
         item := { id := id + UInt8.ofNat chunks.length, data } }] := by
  simp [numbered, List.mapIdx_append]

theorem numbered_prefix {position : Nat} {id : UInt8} {chunks : List (List UInt8)}
    {sent rest : List (Sourced Block)} (split : numbered position id chunks = sent ++ rest) :
    ∃ front, front <+: chunks ∧ sent = numbered position id front := by
  obtain ⟨front, back, rfl, isSent, _⟩ := List.mapIdx_eq_append_iff.mp split
  exact ⟨front, List.prefix_append _ _, isSent.symm⟩

theorem map_origin_numbered (position : Nat) (id : UInt8) (chunks : List (List UInt8)) :
    (numbered position id chunks).map Sourced.origin = List.range' position chunks.length := by
  apply List.ext_getElem
  · simp
  · intro idx _ _
    simp [numbered]

namespace BlockDispatcher

/-- What is left to read, by the phase of the dispatcher. -/
def Unread (dispatcher : BlockDispatcher) (whole : List UInt8) (chunks : List (List UInt8)) :
    Phase (Sourced Block) → Prop
  | .running _ => Quiet onError dispatcher.input ∧
      chunks.flatten ++ contents dispatcher.input = whole
  | .ended .ok => ∃ rest, rest.length < dispatcher.blockSize ∧ chunks.flatten ++ rest = whole
  | .ended .failed => True
  | .ended .panicked => True

/-- The dispatcher has cut `chunks` off its input, and has sent all of them but those it holds. -/
structure Sends (start : BlockDispatcher) (chunks : List (List UInt8))
    (view : BlockDispatcher × Phase (Sourced Block) × List (Sourced Block)) : Prop where
  blockSize : view.1.blockSize = start.blockSize
  position : view.1.position = start.position + chunks.length
  currentBlockId : view.1.currentBlockId = start.currentBlockId + UInt8.ofNat chunks.length
  sizes : ∀ chunk ∈ chunks, chunk.length = start.blockSize
  sent : ∃ rest, numbered start.position start.currentBlockId chunks = view.2.2 ++ rest ∧
    view.2.1.Holds rest
  unread : Quiet onError start.input → view.1.Unread (contents start.input) chunks view.2.1

theorem Sends.start (dispatcher : BlockDispatcher) :
    Sends dispatcher [] (dispatcher, .running [], []) where
  blockSize := rfl
  position := rfl
  currentBlockId := by simp
  sizes := nofun
  sent := ⟨[], rfl, rfl⟩
  unread := fun quiet => ⟨quiet, rfl⟩

theorem fetch_of_ok {dispatcher : BlockDispatcher} {buffer : List UInt8} {input : Reader}
    (reads : readExact dispatcher.input dispatcher.blockSize = (.ok buffer, input)) :
    dispatcher.fetch = some (.item ⟨dispatcher.position, ⟨dispatcher.currentBlockId, buffer⟩⟩
      ⟨dispatcher.blockSize, dispatcher.currentBlockId + 1, input, dispatcher.position + 1⟩) := by
  rw [fetch, reads]

theorem fetch_of_error {dispatcher : BlockDispatcher} {kind : ErrorKind} {input : Reader}
    (reads : readExact dispatcher.input dispatcher.blockSize = (.error kind, input)) :
    dispatcher.fetch = some (.stop (exitOf kind) { dispatcher with input }) := by
  rw [fetch, reads]

theorem fetch_eq_item {dispatcher next : BlockDispatcher} {block : Sourced Block}
    (fetched : dispatcher.fetch = some (.item block next)) :
    ∃ buffer input, readExact dispatcher.input dispatcher.blockSize = (.ok buffer, input) ∧
      block = ⟨dispatcher.position, ⟨dispatcher.currentBlockId, buffer⟩⟩ ∧
      next = ⟨dispatcher.blockSize, dispatcher.currentBlockId + 1, input,
        dispatcher.position + 1⟩ := by
  rw [fetch] at fetched
  split at fetched
  next buffer input reads =>
    cases fetched
    exact ⟨buffer, input, reads, rfl, rfl⟩
  next => cases fetched

theorem fetch_eq_stop {dispatcher next : BlockDispatcher} {exit : Exit}
    (fetched : dispatcher.fetch = some (.stop exit next)) :
    ∃ kind input, readExact dispatcher.input dispatcher.blockSize = (.error kind, input) ∧
      exit = exitOf kind ∧ next = { dispatcher with input } := by
  rw [fetch] at fetched
  split at fetched
  next => cases fetched
  next kind input reads =>
    cases fetched
    exact ⟨kind, input, reads, rfl, rfl⟩

theorem Sends.fetched {start dispatcher next : BlockDispatcher} {chunks : List (List UInt8)}
    {sent : List (Sourced Block)} {block : Sourced Block}
    (sends : Sends start chunks (dispatcher, .running [], sent))
    (fetched : dispatcher.fetch = some (.item block next)) :
    ∃ chunks, Sends start chunks (next, .running [block], sent) := by
  obtain ⟨buffer, input, reads, rfl, rfl⟩ := fetch_eq_item fetched
  have position : dispatcher.position = start.position + chunks.length := sends.position
  have currentBlockId : dispatcher.currentBlockId =
      start.currentBlockId + UInt8.ofNat chunks.length := sends.currentBlockId
  obtain ⟨rest, isSent, held⟩ := sends.sent
  cases held
  refine ⟨chunks ++ [buffer], ?_⟩
  exact
    { blockSize := sends.blockSize
      position := by simp [position, Nat.add_assoc]
      currentBlockId := by simp [currentBlockId, UInt8.add_assoc]
      sizes := by
        intro chunk member
        cases List.mem_append.mp member with
        | inl earlier => exact sends.sizes chunk earlier
        | inr last =>
          cases List.mem_singleton.mp last
          rw [length_readExactWith reads, sends.blockSize]
      sent := by
        refine ⟨_, ?_, rfl⟩
        rw [numbered_concat, isSent, position, currentBlockId]
        simp
      unread := by
        intro quiet
        obtain ⟨stillQuiet, whole⟩ := sends.unread quiet
        -- a successful read had enough bytes, as a quiet reader fails only at its end
        have enough : dispatcher.blockSize ≤ (contents dispatcher.input).length := by
          by_contra few
          rw [readExact, stillQuiet.reads_eof (Nat.lt_of_not_le few)] at reads
          cases reads
        obtain ⟨rest, readsOn, restQuiet, restContents⟩ := stillQuiet.reads enough
        rw [readExact, readsOn] at reads
        cases reads
        refine ⟨restQuiet, ?_⟩
        simp [restContents, ← whole] }

theorem Sends.stopped {start dispatcher next : BlockDispatcher} {chunks : List (List UInt8)}
    {sent : List (Sourced Block)} {exit : Exit}
    (sends : Sends start chunks (dispatcher, .running [], sent))
    (fetched : dispatcher.fetch = some (.stop exit next)) :
    Sends start chunks (next, .ended exit, sent) := by
  obtain ⟨kind, input, reads, rfl, rfl⟩ := fetch_eq_stop fetched
  obtain ⟨rest, isSent, held⟩ := sends.sent
  cases held
  exact
    { blockSize := sends.blockSize
      position := sends.position
      currentBlockId := sends.currentBlockId
      sizes := sends.sizes
      sent := ⟨[], isSent, by cases exitOf kind <;> trivial⟩
      unread := by
        intro quiet
        obtain ⟨stillQuiet, whole⟩ := sends.unread quiet
        cases exitOf kind with
        | failed | panicked => trivial
        | ok =>
          -- the read failed, so less than a block was left
          refine ⟨contents dispatcher.input, ?_, whole⟩
          by_contra enough
          obtain ⟨rest, readsOn, _⟩ := stillQuiet.reads (Nat.le_of_not_lt enough)
          rw [readExact, readsOn] at reads
          cases reads }

/-- Every move of the dispatcher keeps `Sends`. -/
theorem Sends.move {workers : Nat} {positive : 0 < workers} {start : BlockDispatcher}
    {view view' : BlockDispatcher × Phase (Sourced Block) × List (Sourced Block)}
    (move : SourceMove (encoderProgram rq positive) view view')
    (sends : ∃ chunks, Sends start chunks view) : ∃ chunks, Sends start chunks view' := by
  obtain ⟨chunks, sends⟩ := sends
  cases move with
  | fetched fetch => exact sends.fetched fetch
  | stopped fetch => exact ⟨chunks, sends.stopped fetch⟩
  | sent =>
    obtain ⟨rest, isSent, held⟩ := sends.sent
    cases held
    exact ⟨chunks, { sends with sent := ⟨[], by simpa using isSent, rfl⟩ }⟩
  | refused =>
    obtain ⟨rest, isSent, _⟩ := sends.sent
    exact ⟨chunks, { sends with sent := ⟨rest, isSent, trivial⟩, unread := fun _ => trivial }⟩

end BlockDispatcher

/-! ## What the workers send -/

/-- The packets of a block as a worker sends them. -/
def emitted (encoder : BlockEncoder rq) (block : Sourced Block) :
    List (Sourced rq.EncodingPacket) :=
  match encoder.encode block.item with
  | .ok packets => packets.map fun packet => { origin := block.origin, item := packet }
  | .err _ => []
  | .panic => []

theorem encodeNext_eq_outputs {encoder encoder' : BlockEncoder rq} {block : Sourced Block}
    {out : List (Sourced rq.EncodingPacket)}
    (encoded : encoder.encodeNext block = .outputs encoder' out) :
    encoder' = encoder ∧ out = emitted encoder block ∧
      ∃ packets, encoder.encode block.item = .ok packets := by
  rw [BlockEncoder.encodeNext] at encoded
  rw [emitted]
  split at encoded
  next packets encodes =>
    cases encoded
    exact ⟨rfl, rfl, packets, encodes⟩
  next => cases encoded
  next => cases encoded

theorem encodeNext_of_ok {encoder : BlockEncoder rq} {block : Sourced Block}
    {packets : List rq.EncodingPacket} (encodes : encoder.encode block.item = .ok packets) :
    encoder.encodeNext block = .outputs encoder (emitted encoder block) := by
  rw [BlockEncoder.encodeNext, emitted, encodes]

/-- A worker keeps its encoder, and sends the packets of all its blocks. -/
theorem run_encoder {workers : Nat} {positive : 0 < workers} {encoder encoder' : BlockEncoder rq}
    {blocks : List (Sourced Block)} {out : List (Sourced rq.EncodingPacket)}
    (ran : (encoderProgram rq positive).run encoder blocks = some (encoder', out)) :
    encoder' = encoder ∧ out = blocks.flatMap (emitted encoder) ∧
      ∀ block ∈ blocks, ∃ packets, encoder.encode block.item = .ok packets := by
  induction blocks generalizing out encoder with
  | nil =>
    cases ran
    exact ⟨rfl, rfl, nofun⟩
  | cons block blocks inductionHypothesis =>
    simp only [Program.run] at ran
    cases encoded : (encoderProgram rq positive).work encoder block with
    | failed | panicked => simp [encoded] at ran
    | outputs next blockOut =>
      obtain ⟨rfl, rfl, encodes⟩ := encodeNext_eq_outputs encoded
      cases rest : (encoderProgram rq positive).run next blocks with
      | none => simp [encoded, rest] at ran
      | some result =>
        obtain ⟨last, restOut⟩ := result
        simp only [encoded, rest, Option.some.injEq, Prod.mk.injEq] at ran
        obtain ⟨rfl, rfl⟩ := ran
        obtain ⟨same, rfl, restEncodes⟩ := inductionHypothesis rest
        exact ⟨same, rfl, List.forall_mem_cons.mpr ⟨encodes, restEncodes⟩⟩

theorem mem_emitted {encoder : BlockEncoder rq} {block : Sourced Block}
    {packet : Sourced rq.EncodingPacket} (member : packet ∈ emitted encoder block) :
    packet.origin = block.origin ∧
      rq.PacketOf block.item.id encoder.config block.item.data packet.item := by
  rw [emitted] at member
  split at member
  next packets encodes =>
    obtain ⟨item, inPackets, rfl⟩ := List.mem_map.mp member
    exact ⟨rfl, packetOf_of_mem_encode encodes item inPackets⟩
  next => cases member
  next => cases member

/-- The number on a packet sends it to the queue of its block. -/
theorem queueOf_emitted {workers : Nat} {positive : 0 < workers} (framed : rq.Framed)
    {encoder : BlockEncoder rq} {block : Sourced Block} {packet : Sourced rq.EncodingPacket}
    (member : packet ∈ emitted encoder block) :
    queueOf positive (rq.sourceBlockNumber packet.item) = queueOf positive block.item.id := by
  rw [framed.source_block_number (mem_emitted member).2]

/-! ## Runs of an encoder -/

abbrev EncoderState (rq : Raptorq) (workers : Nat) :=
  State (Fin workers) BlockDispatcher (Sourced Block) (BlockEncoder rq) (Sourced rq.EncodingPacket)

/-- What holds in every state of a run that started with this dispatcher and these workers. -/
structure Encodes {workers : Nat} (positive : 0 < workers) (encoder : BlockEncoder rq)
    (dispatcher : BlockDispatcher) (s : EncoderState rq workers) : Prop where
  wired : Wired (encoderProgram rq positive) (fun _ => encoder) s
  sends : ∃ chunks, dispatcher.Sends chunks s.sourceView

namespace Encodes

variable {workers : Nat} {positive : 0 < workers} {encoder : BlockEncoder rq}
variable {dispatcher : BlockDispatcher} {s s' : EncoderState rq workers}

theorem start (positive : 0 < workers) (encoder : BlockEncoder rq)
    (dispatcher : BlockDispatcher) :
    Encodes positive encoder dispatcher (State.start dispatcher fun _ => encoder) :=
  ⟨.start _ _ _, [], .start dispatcher⟩

theorem step (encodes : Encodes positive encoder dispatcher s)
    (step : Step (encoderProgram rq positive) s s') : Encodes positive encoder dispatcher s' where
  wired := encodes.wired.step step
  sends := step.source_invariant BlockDispatcher.Sends.move encodes.sends

theorem reachable (encodes : Encodes positive encoder dispatcher s)
    (reachable : Reachable (encoderProgram rq positive) s s') :
    Encodes positive encoder dispatcher s' := by
  induction reachable with
  | refl => exact encodes
  | tail _ step inductionHypothesis => exact inductionHypothesis.step step

/-- The blocks dispatched so far, with any reader. -/
theorem sent_eq (encodes : Encodes positive encoder dispatcher s) :
    ∃ chunks : List (List UInt8), (∀ chunk ∈ chunks, chunk.length = dispatcher.blockSize) ∧
      s.sent = numbered dispatcher.position dispatcher.currentBlockId chunks := by
  obtain ⟨chunks, sends⟩ := encodes.sends
  obtain ⟨rest, split, _⟩ := sends.sent
  obtain ⟨front, isPrefix, isSent⟩ := numbered_prefix split
  exact ⟨front, fun chunk member => sends.sizes chunk (isPrefix.subset member), isSent⟩

/-- What a worker has put into the packet queue is the start of what its blocks amount to. -/
theorem lane_prefix (encodes : Encodes positive encoder dispatcher s) (key : Fin workers) :
    lane s.merged key <+:
      (s.sent.filter fun block => queueOf positive block.item.id = key).flatMap
        (emitted encoder) := by
  obtain ⟨rest, ran, _⟩ := encodes.wired.worked key
  obtain ⟨-, whole, -⟩ := run_encoder ran
  obtain ⟨queue, split⟩ := encodes.wired.received_prefix key
  -- what was received starts what was sent, and the outputs follow the items
  have outputs : lane s.merged key <+: (s.received key).flatMap (emitted encoder) :=
    whole ▸ List.prefix_append _ _
  refine outputs.trans ⟨queue.flatMap (emitted encoder), ?_⟩
  rw [← List.flatMap_append, split]
  rfl

/-- What the workers put into the packet queue can be told apart by the numbers on the packets. -/
theorem lane_eq_filter (framed : rq.Framed) (encodes : Encodes positive encoder dispatcher s)
    (key : Fin workers) :
    lane s.merged key = (s.merged.map Prod.snd).filter fun packet =>
      queueOf positive (rq.sourceBlockNumber packet.item) = key := by
  apply Lanes.lane_eq_filter s.merged
    (fun packet => queueOf positive (rq.sourceBlockNumber packet.item))
  intro entry member
  have inLane : entry.2 ∈ lane s.merged entry.1 := mem_lane.mpr member
  obtain ⟨block, inSent, isEmitted⟩ :=
    List.mem_flatMap.mp ((encodes.lane_prefix entry.1).subset inLane)
  rw [queueOf_emitted framed isEmitted]
  simpa using (List.mem_filter.mp inSent).2

/-- The part of the output that goes to one queue on the other side stems from one worker. -/
theorem written_filter (framed : rq.Framed) (encodes : Encodes positive encoder dispatcher s)
    (key : Fin workers) :
    (s.written.filter fun packet => queueOf positive (rq.sourceBlockNumber packet.item) = key) <+:
      lane s.merged key := by
  rw [encodes.lane_eq_filter framed key]
  exact encodes.wired.written_prefix.filter _

end Encodes

/-- Once nothing is left in the queues, the output has all packets of the blocks dispatched, and
    those of one queue are in the order of their blocks. -/
theorem Encodes.consumed {workers : Nat} {positive : 0 < workers} {encoder : BlockEncoder rq}
    {dispatcher : BlockDispatcher} {s : EncoderState rq workers} (framed : rq.Framed)
    (encodes : Encodes positive encoder dispatcher s)
    (consumed : Consumed (encoderProgram rq positive) (fun _ => encoder) s) :
    (∀ block ∈ s.sent, ∃ packets, encoder.encode block.item = .ok packets) ∧
      ∀ key, (s.written.filter fun packet =>
          queueOf positive (rq.sourceBlockNumber packet.item) = key) =
        (s.sent.filter fun block => queueOf positive block.item.id = key).flatMap
          (emitted encoder) := by
  have ran : ∀ key, (encoderProgram rq positive).run encoder
      (s.sent.filter fun block => queueOf positive block.item.id = key) =
        some (s.workers key, lane s.merged key) := by
    intro key
    have worked := consumed.worked key
    rw [consumed.received key] at worked
    exact worked
  constructor
  · intro block member
    exact (run_encoder (ran (queueOf positive block.item.id))).2.2 block
      (List.mem_filter.mpr ⟨member, by simp⟩)
  · intro key
    rw [consumed.written, ← encodes.lane_eq_filter framed key]
    exact (run_encoder (ran key)).2.1

/-- Everything a drained encoder has done to a quiet input. -/
structure EncodedAll {workers : Nat} (positive : 0 < workers) (encoder : BlockEncoder rq)
    (dispatcher : BlockDispatcher) (s : EncoderState rq workers) : Prop where
  blockSize_pos : 0 < dispatcher.blockSize
  sent : s.sent = numbered dispatcher.position dispatcher.currentBlockId
    (chunksExact dispatcher.blockSize (contents dispatcher.input))
  encoded : ∀ block ∈ s.sent, ∃ packets, encoder.encode block.item = .ok packets
  written : ∀ key, (s.written.filter fun packet =>
      queueOf positive (rq.sourceBlockNumber packet.item) = key) =
    (s.sent.filter fun block => queueOf positive block.item.id = key).flatMap (emitted encoder)

theorem Encodes.drained {workers : Nat} {positive : 0 < workers} {encoder : BlockEncoder rq}
    {dispatcher : BlockDispatcher} {s : EncoderState rq workers} (framed : rq.Framed)
    (encodes : Encodes positive encoder dispatcher s) (drained : Drained s)
    (quiet : Quiet onError dispatcher.input) : EncodedAll positive encoder dispatcher s := by
  obtain ⟨chunks, sends⟩ := encodes.sends
  have consumed := encodes.wired.consumed drained.workers drained.sink
  obtain ⟨encoded, written⟩ := encodes.consumed framed consumed
  have phase : s.sourceView.2.1 = .ended .ok := drained.source
  have unread := sends.unread quiet
  obtain ⟨left, split, held⟩ := sends.sent
  rw [phase] at held unread
  cases held
  obtain ⟨rest, short, whole⟩ := unread
  rw [sends.blockSize] at short
  -- the dispatcher has cut its input the way `chunksExact` does
  have cut : chunksExact dispatcher.blockSize (contents dispatcher.input) = chunks := by
    rw [← whole, chunksExact_flatten sends.sizes short]
  refine ⟨by omega, ?_, encoded, written⟩
  rw [cut, split]
  simp [State.sourceView]

end GarudaCodec.Core
