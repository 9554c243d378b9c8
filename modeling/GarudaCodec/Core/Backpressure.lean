import GarudaCodec.Foundation.PipelineBacklog
import GarudaCodec.Core.Dispatch
import GarudaCodec.Core.QueueOrder

/-! # Back pressure

Every queue holds ten items.  However long the input is and however slow the output, an encoder with
`W` workers is never more than `11 * W + 12` blocks ahead of what it has written in full, a decoder
never more than `10 * W` packets ahead of its workers and these never more than `W + 11` blocks
ahead of the output, and what both have in memory is bounded in the same way.  With one worker and
blocks of one packet all these bounds are reached.
-/

namespace GarudaCodec.Core

open GarudaCodec.Foundation
open GarudaCodec.Foundation.Chunks
open GarudaCodec.Foundation.Lanes
open GarudaCodec.Foundation.Readers
open GarudaCodec.Foundation.Pipeline
open GarudaCodec.Core.Io
open GarudaCodec.Core.Link (systematicSetup wholeSession quiet_wholeSession)

variable {rq : Raptorq} {workers : Nat} {positive : 0 < workers}

/-- All packets of the block are written. -/
def WrittenInFull (encoder : BlockEncoder rq) (s : EncoderState rq workers)
    (block : Sourced Block) : Prop :=
  ∃ packets, encoder.encode block.item = .ok packets ∧
    (packets.map fun packet => ⟨block.origin, packet⟩ : List (Sourced rq.EncodingPacket)).Sublist
      s.written

/-! ## Full queues to run on -/

/-- One worker on each side, for blocks of a single symbol. -/
def singleSetup : Setup systematicCodec where
  blockSize := 8
  maxPacketSize := 8
  repairPacketsPerBlock := 0
  workers := 1
  workers_pos := Nat.one_pos
  encoder := ⟨8, 0, 8, 1⟩
  decoder := ⟨8, 8, none, systematicCodec.newDecoder 0 8 8, false, 0, 0, []⟩
  packetSize := 12
  encoder_created := rfl
  decoder_created := rfl
  packetSize_inferred := rfl

def singleBlock (position : Nat) : Sourced Block :=
  ⟨position, ⟨UInt8.ofNat position, List.replicate 8 0⟩⟩

def singlePacket (position : Nat) : Sourced Systematic.Packet :=
  ⟨position, ⟨UInt8.ofNat position, 0, List.replicate 8 0⟩⟩

/-- Twenty-three blocks. -/
def fullSession : Session := wholeSession 0 (List.replicate (23 * 8) 0)

theorem dispatches_fullSession :
    (encoderProgram systematicCodec Nat.one_pos).Dispatches (singleSetup.dispatcher 0 fullSession)
      ([singleBlock 0] ++ ((List.range' 1 10).map singleBlock ++
        singleBlock 11 :: ((List.range' 12 10).map singleBlock ++ singleBlock 22 :: []))) .ok := by
  have quiet : Quiet onError fullSession.input := quiet_wholeSession 0 (by decide)
  refine (dispatches_iff systematicCodec Nat.one_pos quiet .endOfFile (show 0 < 8 by decide)
    (List.append_nil _).symm _ .ok).mpr ⟨?_, rfl⟩
  decide +kernel

/-- The output does not get on with the first packet, so that the encoder fills up. -/
theorem exists_full_encoder :
    ∃ e : EncoderState systematicCodec 1,
      Reachable (encoderProgram systematicCodec Nat.one_pos)
        (.start (singleSetup.dispatcher 0 fullSession) fun _ => singleSetup.encoder) e ∧
      BackedUp e 0 ((List.range 12).map singleBlock) [singlePacket 11]
        ((List.range' 12 10).map singleBlock) (singleBlock 22)
        ((List.range' 1 10).map singlePacket) (singlePacket 0) := by
  have routed : ∀ block, (encoderProgram systematicCodec Nat.one_pos).route block = 0 :=
    fun _ => Subsingleton.elim _ _
  have first : (encoderProgram systematicCodec Nat.one_pos).run singleSetup.encoder
      [singleBlock 0] = some (singleSetup.encoder, [singlePacket 0]) := rfl
  have stored : (encoderProgram systematicCodec Nat.one_pos).run singleSetup.encoder
      ((List.range' 1 10).map singleBlock) =
        some (singleSetup.encoder, (List.range' 1 10).map singlePacket) := rfl
  have last : (encoderProgram systematicCodec Nat.one_pos).work singleSetup.encoder
      (singleBlock 11) = .outputs singleSetup.encoder [singlePacket 11] := rfl
  exact exists_backedUp (fun _ => singleSetup.encoder) dispatches_fullSession routed first stored
    last (by decide) (by decide) (by decide)

/-- Their packets, in one piece. -/
def fullInput : Reader :=
  [.data (forwardPackets systematicCodec ((List.range 23).map (singlePacket · |>.item)))]

theorem dispatches_fullInput :
    (decoderProgram systematicCodec Nat.one_pos).Dispatches ⟨12, fullInput, false⟩
      ([(singlePacket 0).item] ++ ((List.range' 1 10).map (singlePacket · |>.item) ++
        (singlePacket 11).item :: ((List.range' 12 10).map (singlePacket · |>.item) ++
          (singlePacket 22).item :: []))) .ok := by
  have whole : ∀ packet ∈ (List.range 23).map (singlePacket · |>.item),
      Whole systematicCodec 12 packet := by
    have recovered : ∀ packet ∈ (List.range 23).map (singlePacket · |>.item),
        systematicCodec.deserialize (systematicCodec.serialize packet) = packet := by decide
    intro packet member
    obtain ⟨position, -, rfl⟩ := List.mem_map.mp member
    exact ⟨rfl, recovered _ member⟩
  have quiet : Quiet onError fullInput := by
    intro event member
    rw [List.mem_singleton.mp member]
    decide +kernel
  have cut : contents fullInput = (forwardPackets systematicCodec
      ((List.range 23).map (singlePacket · |>.item))).take 276 := by decide +kernel
  exact dispatches_packets Nat.one_pos (show 0 < 12 by decide) whole quiet cut

/-- The output does not get on with the first block, so that the decoder fills up. -/
theorem exists_full_decoder :
    ∃ d : DecoderState systematicCodec 1,
      Reachable (decoderProgram systematicCodec Nat.one_pos)
        (.start ⟨12, fullInput, false⟩ fun _ => singleSetup.decoder) d ∧
      BackedUp d 0 ((List.range 12).map (singlePacket · |>.item)) [List.replicate 8 0]
        ((List.range' 12 10).map (singlePacket · |>.item)) (singlePacket 22).item
        (List.replicate 10 (List.replicate 8 0)) (List.replicate 8 0) := by
  have routed : ∀ packet, (decoderProgram systematicCodec Nat.one_pos).route packet = 0 :=
    fun _ => Subsingleton.elim _ _
  have first : (decoderProgram systematicCodec Nat.one_pos).run singleSetup.decoder
      [(singlePacket 0).item] = some (_, [List.replicate 8 0]) := rfl
  have stored : (decoderProgram systematicCodec Nat.one_pos).run
      (singleSetup.decoder.decodeStream [(singlePacket 0).item]).1
      ((List.range' 1 10).map (singlePacket · |>.item)) =
        some (_, List.replicate 10 (List.replicate 8 0)) := rfl
  exact exists_backedUp (fun _ => singleSetup.decoder) dispatches_fullInput routed first stored
    rfl (by decide) (by decide) (by decide)

/-! ## Encoder -/

section Encoder

variable {encoder : BlockEncoder rq} {dispatcher : BlockDispatcher} {s : EncoderState rq workers}

/-- The dispatcher has counted the blocks it has sent and the one it has in hand. -/
def BlockDispatcher.Counts (start : BlockDispatcher) :
    BlockDispatcher × Phase (Sourced Block) × List (Sourced Block) → Prop
  | (dispatcher, .running held, sent) => held.length ≤ 1 ∧
      dispatcher.position = start.position + sent.length + held.length
  | (dispatcher, .ended _, sent) => dispatcher.position ≤ start.position + sent.length + 1

theorem BlockDispatcher.Counts.move {start : BlockDispatcher}
    {view view' : BlockDispatcher × Phase (Sourced Block) × List (Sourced Block)}
    (move : SourceMove (encoderProgram rq positive) view view') (counts : start.Counts view) :
    start.Counts view' := by
  cases move with
  | fetched fetch =>
    obtain ⟨buffer, input, -, rfl, rfl⟩ := BlockDispatcher.fetch_eq_item fetch
    simpa [Counts] using counts
  | stopped fetch =>
    obtain ⟨kind, input, -, rfl, rfl⟩ := BlockDispatcher.fetch_eq_stop fetch
    obtain ⟨-, position⟩ := counts
    simp only [List.length_nil] at position
    simp only [Counts]
    omega
  | sent =>
    obtain ⟨-, position⟩ := counts
    simp only [List.length_cons, List.length_nil] at position
    simp only [Counts, List.length_append, List.length_cons, List.length_nil]
    omega
  | refused =>
    obtain ⟨-, position⟩ := counts
    simp only [List.length_cons, List.length_nil] at position
    simp only [Counts]
    omega

theorem position_le (reachable : Reachable (encoderProgram rq positive)
      (.start dispatcher fun _ => encoder) s) :
    s.source.position ≤ dispatcher.position + s.sent.length + 1 := by
  have counts : dispatcher.Counts s.sourceView := by
    induction reachable with
    | refl => simp [BlockDispatcher.Counts, State.sourceView, State.start]
    | tail _ step inductionHypothesis =>
      exact step.source_invariant BlockDispatcher.Counts.move inductionHypothesis
  rw [State.sourceView] at counts
  cases phase : s.sourcePhase with
  | running held =>
    rw [phase] at counts
    obtain ⟨one, position⟩ := counts
    omega
  | ended exit =>
    rw [phase] at counts
    exact counts

theorem sublist_of_append {α : Type*} {list front back : List α}
    (isSublist : list.Sublist (front ++ back)) (apart : ∀ value ∈ list, value ∉ back) :
    list.Sublist front := by
  obtain ⟨left, right, rfl, inFront, inBack⟩ := List.sublist_append_iff.mp isSublist
  have empty : right = [] := by
    apply List.eq_nil_iff_forall_not_mem.mpr
    intro value member
    exact apart value (List.mem_append_right _ member) (inBack.subset member)
  simpa [empty] using inFront

/-- What the worker of a block has handed on includes all packets of the block. -/
theorem merged_of_handedOn {done : List (Sourced Block)} {key : Fin workers}
    (handedOn : HandedOn (encoderProgram rq positive) encoder done (lane s.merged key))
    {block : Sourced Block} (member : block ∈ done) :
    ∃ packets, encoder.encode block.item = .ok packets ∧
      (packets.map fun packet => ⟨block.origin, packet⟩ :
        List (Sourced rq.EncodingPacket)).Sublist (s.merged.map Prod.snd) := by
  obtain ⟨next, out, ran, isOut⟩ := handedOn
  obtain ⟨-, rfl, encodes⟩ := run_encoder ran
  obtain ⟨packets, encoded⟩ := encodes block member
  have isEmitted : emitted encoder block =
      packets.map fun packet => ⟨block.origin, packet⟩ := by
    rw [emitted, encoded]
  have inOut : (emitted encoder block).Sublist (done.flatMap (emitted encoder)) := by
    rw [List.flatMap_def]
    exact List.sublist_flatten_of_mem (List.mem_map_of_mem member)
  refine ⟨packets, encoded, ?_⟩
  rw [← isEmitted]
  exact (inOut.trans isOut.sublist).trans (List.filter_sublist.map Prod.snd)

/-- Blocks can be looked up by their positions. -/
theorem find_origin (reachable : Reachable (encoderProgram rq positive)
      (.start dispatcher fun _ => encoder) s) {block : Sourced Block} (inSent : block ∈ s.sent)
    {position : Nat} (origin : position = block.origin) :
    (s.sent.find? fun other => other.origin = position) = some block := by
  obtain ⟨chunks, -, isSent⟩ := ((Encodes.start _ _ _).reachable reachable).sent_eq
  have nodup : (s.sent.map Sourced.origin).Nodup := by
    rw [isSent, map_origin_numbered]
    exact List.nodup_range'
  cases found : s.sent.find? fun other => other.origin = position with
  | none =>
    have absent := List.find?_eq_none.mp found block inSent
    simp [origin] at absent
  | some other =>
    have same : other.origin = position := by simpa using List.find?_some found
    rw [List.inj_on_of_nodup_map nodup (List.mem_of_find?_eq_some found) inSent
      (same.trans origin)]

/-- At any time, also after failures, the encoder has read at most one block more than it has
    dispatched, and all but a fixed number of these are written in full. -/
theorem encoder_reads_ahead (positive : 0 < workers)
    (reachable : Reachable (encoderProgram rq positive)
      (.start dispatcher fun _ => encoder) s) :
    s.source.position ≤ dispatcher.position + s.sent.length + 1 ∧
      ∃ unfinished : List (Sourced Block), unfinished.length ≤ 11 * workers + 11 ∧
        ∀ block ∈ s.sent, block ∈ unfinished ∨ WrittenInFull encoder s block := by
  refine ⟨position_le reachable, ?_⟩
  obtain ⟨wired, paced⟩ := paced_of_reachable reachable
  obtain ⟨waiting, done, few, placed, handedOn⟩ := paced.exists_waiting wired
  obtain ⟨rest, flows, one, -⟩ := paced.sink
  -- the blocks of which some packet is still on its way to the output
  refine ⟨waiting ++ (rest ++ s.shared).filterMap fun packet =>
    s.sent.find? fun block => block.origin = packet.origin, ?_, ?_⟩
  · have onTheirWay := List.length_filterMap_le
      (fun packet => s.sent.find? fun block => block.origin = packet.origin) (rest ++ s.shared)
    have shared : s.shared.length ≤ 10 := paced.shared
    have waits : waiting.length ≤ Fintype.card (Fin workers) * 11 := few
    rw [Fintype.card_fin] at waits
    rw [List.length_append] at onTheirWay ⊢
    omega
  · intro block inSent
    cases placed block inSent with
    | inl waits => exact Or.inl (List.mem_append_left _ waits)
    | inr finished =>
      obtain ⟨packets, encoded, merged⟩ := merged_of_handedOn (handedOn _) finished
      by_cases behind : ∃ packet ∈ rest ++ s.shared, packet.origin = block.origin
      · obtain ⟨packet, member, origin⟩ := behind
        have found := find_origin reachable inSent origin
        exact Or.inl (List.mem_append_right _ (List.mem_filterMap.mpr ⟨packet, member, found⟩))
      · refine Or.inr ⟨packets, encoded, ?_⟩
        rw [flows, List.append_assoc] at merged
        apply sublist_of_append merged
        intro packet member inBack
        obtain ⟨item, -, rfl⟩ := List.mem_map.mp member
        exact behind ⟨_, inBack, rfl⟩

/-- In a full encoder none of the twenty-two blocks dispatched is written. -/
theorem encoder_reads_ahead_systematic :
    ∃ e : EncoderState systematicCodec 1, e.sent.length = 22 ∧ e.written = [] ∧
      e.source.position ≤ 0 + e.sent.length + 1 ∧
      ∃ unfinished : List (Sourced Block), unfinished.length ≤ 11 * 1 + 11 ∧
        ∀ block ∈ e.sent, block ∈ unfinished ∨ WrittenInFull singleSetup.encoder e block := by
  obtain ⟨e, reachable, full⟩ := exists_full_encoder
  exact ⟨e, by simp [full.sent], full.written, encoder_reads_ahead Nat.one_pos reachable⟩

end Encoder

/-- What an encoder has in memory does not grow with its input: for each worker eleven blocks and
    the packets of one, and one block and eleven packets besides. -/
theorem encoder_memory (counted : rq.Counted) (setup : Setup rq) {dispatcher : BlockDispatcher}
    {s : EncoderState rq setup.workers}
    (reachable : Reachable (encoderProgram rq setup.workers_pos)
      (.start dispatcher fun _ => setup.encoder) s) :
    s.items ≤ 11 * setup.workers + 1 ∧
      s.outputs ≤ setup.workers *
        (setup.encoder.symbolCount + setup.encoder.repairPacketsPerBlock.toNat) + 11 := by
  obtain ⟨wired, paced⟩ := paced_of_reachable reachable
  constructor
  · have few : s.items ≤ Fintype.card (Fin setup.workers) * 11 + 1 := paced.items_le
    rw [Fintype.card_fin] at few
    omega
  · have ofOneBlock : ∀ key held, s.workerPhases key = .running held →
        held.length ≤ setup.encoder.symbolCount + setup.encoder.repairPacketsPerBlock.toNat := by
      intro key held running
      cases paced.held_of_one wired running with
      | inl empty => simp [empty]
      | inr ofOne =>
        obtain ⟨done, block, worker, next, before, out, -, ran, worked, suffix⟩ := ofOne
        have few := suffix.length_le
        obtain ⟨rfl, -, -⟩ := run_encoder ran
        obtain ⟨-, rfl, packets, encoded⟩ := encodeNext_eq_outputs worked
        have count := setup.accepted.length_encode counted encoded
        rw [emitted, encoded] at few
        rw [BlockEncoder.symbolCount, setup.accepted.size, ← count]
        simpa using few
    have few : s.outputs ≤ Fintype.card (Fin setup.workers) * _ + 10 + 1 :=
      paced.outputs_le ofOneBlock
    rwa [Fintype.card_fin] at few

/-- A full encoder has as much in memory as it can have. -/
theorem encoder_memory_systematic :
    ∃ e : EncoderState systematicCodec 1, e.items = 12 ∧ e.outputs = 12 ∧
      e.items ≤ 11 * 1 + 1 ∧ e.outputs ≤ 1 * (1 + 0) + 11 := by
  obtain ⟨e, reachable, full⟩ := exists_full_encoder
  obtain ⟨items, outputs⟩ := full.loads (by decide)
  exact ⟨e, items, outputs, encoder_memory Systematic.counted singleSetup reachable⟩

/-! ## Decoder -/

/-- A decoder worker sends at most one block for a packet. -/
theorem length_decodeNext {decoder next : BlockDecoder rq} {packet : rq.EncodingPacket}
    {out : List (List UInt8)} (worked : decoder.decodeNext packet = .outputs next out) :
    out.length ≤ 1 := by
  cases worked
  simp

theorem length_decodeStream_concat (decoder : BlockDecoder rq)
    (front current : List rq.EncodingPacket) (one : current.length ≤ 1) :
    (decoder.decodeStream (front ++ current)).2.length ≤
      (decoder.decodeStream front).2.length + 1 := by
  rw [BlockDecoder.decodeStream_append, List.length_append]
  cases current with
  | nil => simp [BlockDecoder.decodeStream]
  | cons packet more =>
    obtain rfl : more = [] := by simpa using one
    simp [BlockDecoder.decodeStream]

/-- At any time, also after failures, the workers have taken all packets dispatched but ten each,
    and all blocks they have decoded but a fixed number are written; and what a decoder has in its
    queues and threads does not grow with its input. -/
theorem decoder_lags (positive : 0 < workers) {dispatcher : PacketDispatcher}
    {decoder : BlockDecoder rq} {s : DecoderState rq workers}
    (reachable : Reachable (decoderProgram rq positive) (.start dispatcher fun _ => decoder) s) :
    (∀ key, s.received key <+: s.sent.filter fun packet =>
      queueOf positive (rq.sourceBlockNumber packet) = key) ∧
    s.sent.length ≤ ∑ key, (s.received key).length + 10 * workers ∧
    ∑ key, (decoder.decodeStream (s.received key)).2.length ≤ s.written.length + workers + 11 ∧
    s.items ≤ 11 * workers + 1 ∧ s.outputs ≤ workers + 11 := by
  obtain ⟨wired, paced⟩ := paced_of_reachable reachable
  refine ⟨wired.received_prefix, ?_, ?_, ?_, ?_⟩
  · have few : s.sent.length ≤ _ + Fintype.card (Fin workers) * 10 := paced.sent_le wired
    rw [Fintype.card_fin] at few
    omega
  · have handedOn : ∀ key, (decoder.decodeStream (s.received key)).2.length ≤
        (lane s.merged key).length + 1 := by
      intro key
      obtain ⟨done, current, split, one, next, out, ran, isOut⟩ := paced.workers key
      rw [run_decoder, Option.some.injEq] at ran
      have atMost := length_decodeStream_concat decoder done current one
      have shorter := isOut.length_le
      simp only [ran] at atMost
      rw [split]
      omega
    have sums := Finset.sum_le_sum fun key (_ : key ∈ Finset.univ) => handedOn key
    have few : _ ≤ s.written.length + 10 + 1 := paced.lanes_le
    simp only [Finset.sum_add_distrib, Finset.sum_const, Finset.card_univ, Fintype.card_fin,
      smul_eq_mul, Nat.mul_one] at sums
    omega
  · have few : s.items ≤ Fintype.card (Fin workers) * 11 + 1 := paced.items_le
    rw [Fintype.card_fin] at few
    omega
  · have oneBlock : ∀ key held, s.workerPhases key = .running held → held.length ≤ 1 := by
      intro key held running
      cases paced.held_of_one wired running with
      | inl empty => simp [empty]
      | inr ofOne =>
        obtain ⟨done, packet, worker, next, before, out, -, -, worked, suffix⟩ := ofOne
        exact suffix.length_le.trans (length_decodeNext worked)
    have few : s.outputs ≤ Fintype.card (Fin workers) * 1 + 10 + 1 := paced.outputs_le oneBlock
    rw [Fintype.card_fin] at few
    omega

/-- The worker of a full decoder has decoded twelve blocks, of which none is written, and ten
    packets wait for it. -/
theorem decoder_lags_systematic :
    ∃ d : DecoderState systematicCodec 1, (d.received 0).length = 12 ∧ d.sent.length = 22 ∧
      d.written = [] ∧ d.items = 12 ∧ d.outputs = 12 ∧
      d.sent.length ≤ (d.received 0).length + 10 * 1 ∧
      (singleSetup.decoder.decodeStream (d.received 0)).2.length ≤ d.written.length + 1 + 11 ∧
      d.items ≤ 11 * 1 + 1 ∧ d.outputs ≤ 1 + 11 := by
  obtain ⟨d, reachable, full⟩ := exists_full_decoder
  obtain ⟨items, outputs⟩ := full.loads (by decide)
  obtain ⟨-, taken, decoded, bounds⟩ := decoder_lags Nat.one_pos reachable
  simp only [Finset.univ_unique, Fin.default_eq_zero, Finset.sum_singleton] at taken decoded
  exact ⟨d, by simp [full.received], by simp [full.sent], full.written, items, outputs, taken,
    decoded, bounds⟩

end GarudaCodec.Core
