import GarudaCodec.Core.ShortSessions
import GarudaCodec.Core.WireOrder

/-! # How far the order of the blocks strays

The workers of a decoder are not in step either.  What holds them together is again that a queue
which is full stops the dispatcher, but a queue fills up with packets that arrive, so something of
every block has to.  Then the blocks leave the decoder in an order that strays from the one of their
packets by less than eleven rounds of its workers (`decoder_keeps_close`), and from that of the
input by less than twice as much (`Link.blocks_keep_close`).
-/

namespace GarudaCodec.Core

open GarudaCodec.Foundation
open GarudaCodec.Foundation.Lanes
open GarudaCodec.Foundation.Readers
open GarudaCodec.Foundation.Pipeline
open GarudaCodec.Core.Io
open GarudaCodec.Core.Link (systematicSetup)

variable {rq : Raptorq} {workers : Nat} {positive : 0 < workers}

/-! ## One decoder -/

theorem eq_of_prefix_toList {γ : Type} {front : List γ} {value : γ} {option : Option γ}
    (isPrefix : front ++ [value] <+: option.toList) : front = [] ∧ option = some value := by
  cases option with
  | none => simp at isPrefix
  | some other =>
    have short := isPrefix.length_le
    obtain rfl : front = [] := List.eq_nil_of_length_eq_zero (by simpa using short)
    simpa [eq_comm] using isPrefix

/-- A block is decoded from a packet which has only so many behind it in its queue, and the blocks
    before it from packets that have been dispatched. -/
theorem packets_of_moment {decoder : BlockDecoder rq}
    {dispatched : List (Sourced rq.EncodingPacket)} {before : List (Fin workers × List UInt8)}
    {key : Fin workers} {data : List UInt8}
    (moment : Moment (decoderProgram rq positive) (fun _ => decoder)
      (dispatched.map Sourced.item) before key data) :
    (∃ front packet behind, (dispatched.filter fun item =>
        queueOf positive (rq.sourceBlockNumber item.item) = key) = front ++ packet :: behind ∧
      behind.length ≤ queueCapacity ∧
      (decoder.attributed front).length = (lane before key).length ∧
      decoder.attributed (front ++ [packet]) =
        decoder.attributed front ++ [⟨packet.origin, data⟩]) ∧
    ∀ other, ∃ taken, taken <+: (dispatched.filter fun item =>
        queueOf positive (rq.sourceBlockNumber item.item) = other) ∧
      (lane before other).length ≤ (decoder.attributed taken).length := by
  obtain ⟨split, few, ran, worked, handedOn, handed, others⟩ := moment
  have routed : ∀ other, (dispatched.map Sourced.item).filter (fun packet =>
      (decoderProgram rq positive).route packet = other) =
        (dispatched.filter fun item =>
          queueOf positive (rq.sourceBlockNumber item.item) = other).map Sourced.item :=
    fun other => List.filter_map
  constructor
  · rw [routed] at split
    obtain ⟨front, rest, isSplit, rfl, isRest⟩ := List.map_eq_append_iff.mp split
    obtain ⟨packet, behind, rfl, rfl, rfl⟩ := List.map_eq_cons_iff.mp isRest
    rw [run_decoder, Option.some.injEq, Prod.mk.injEq] at ran
    obtain ⟨rfl, rfl⟩ := ran
    rw [List.length_map] at few
    -- a packet completes at most one block
    cases worked
    obtain ⟨rfl, complete⟩ := eq_of_prefix_toList handed
    rw [List.append_nil] at handedOn
    refine ⟨front, packet, behind, isSplit, few, by
      rw [BlockDecoder.length_attributed, handedOn], ?_⟩
    simp [BlockDecoder.attributed_append, BlockDecoder.attributed, complete]
  · intro other
    obtain ⟨taken, last, outs, isPrefix, ranOther, made⟩ := others other
    rw [routed] at isPrefix
    rw [run_decoder, Option.some.injEq] at ranOther
    obtain ⟨packets, takenPrefix, rfl⟩ := List.prefix_map_iff.mp isPrefix
    refine ⟨packets, takenPrefix, ?_⟩
    rw [BlockDecoder.length_attributed, ranOther]
    exact made.length_le

namespace Orderly

variable {setup : Setup rq} {blocks : List (Sourced Block)}
  {arrivals : List (Sourced rq.EncodingPacket)}

theorem exists_arrived (framed : rq.Framed) (orderly : Orderly setup positive blocks arrivals)
    {block : Sourced Block} (inBlocks : block ∈ blocks)
    (survive : ownPackets arrivals block.origin ≠ []) :
    ∃ packet ∈ arrivals, packet.origin = block.origin ∧
      queueOf positive (rq.sourceBlockNumber packet.item) = queueOf positive block.item.id := by
  obtain ⟨own, isOwn⟩ := List.exists_mem_of_ne_nil _ survive
  obtain ⟨packet, isArrived, rfl⟩ := List.mem_map.mp isOwn
  obtain ⟨arrives, sameOrigin⟩ := List.mem_filter.mp isArrived
  have origin : packet.origin = block.origin := by simpa using sameOrigin
  exact ⟨packet, arrives, origin,
    queueOf_emitted framed (orderly.emitted_of_origin inBlocks arrives origin)⟩

/-- While a packet waits, only packets of the blocks that find room behind it are dispatched. -/
theorem origin_lt_of_waiting (framed : rq.Framed) {position : Nat} {id : UInt8}
    {chunks : List (List UInt8)}
    (orderly : Orderly setup positive (numbered position id chunks) arrivals)
    (survive : ∀ block ∈ numbered position id chunks, ownPackets arrivals block.origin ≠ [])
    {most : Nat}
    (close : arrivals.Pairwise fun earlier later => earlier.origin < later.origin + most)
    {dispatched : List (Sourced rq.EncodingPacket)} (isPrefix : dispatched <+: arrivals)
    {key : Fin workers} {front behind : List (Sourced rq.EncodingPacket)}
    {packet : Sourced rq.EncodingPacket}
    (split : (dispatched.filter fun item =>
      queueOf positive (rq.sourceBlockNumber item.item) = key) = front ++ packet :: behind)
    (few : behind.length ≤ queueCapacity) : ∀ other ∈ dispatched,
      other.origin < packet.origin + (queueCapacity + 1) * stride workers + most := by
  intro other member
  by_contra far
  have inLane : packet ∈ dispatched.filter fun item =>
      queueOf positive (rq.sourceBlockNumber item.item) = key := by simp [split]
  obtain ⟨inDispatched, atKey⟩ := List.mem_filter.mp inLane
  obtain ⟨block, inBlocks, isEmitted⟩ := orderly.genuine packet (isPrefix.subset inDispatched)
  obtain ⟨last, lastInBlocks, lastEmitted⟩ := orderly.genuine other (isPrefix.subset member)
  have origin := (mem_emitted isEmitted).1
  have lastOrigin := (mem_emitted lastEmitted).1
  obtain ⟨later, size, sorted, located⟩ := exists_blocks_behind positive inBlocks lastInBlocks
    (show block.origin + (queueCapacity + 1) * stride workers ≤ last.origin by omega)
  have all := (orderly.ordered key).sublist ((isPrefix.sublist.filter _).map Sourced.origin)
  rw [split] at all
  have many := length_le_behind all
    (List.Pairwise.imp Nat.ne_of_lt (List.pairwise_map.mpr sorted)) (by
      intro number isNumber
      obtain ⟨one, isLater, rfl⟩ := List.mem_map.mp isNumber
      obtain ⟨inNumbered, atQueue, above, below⟩ := located one isLater
      obtain ⟨arrived, arrives, sameOrigin, sameQueue⟩ :=
        orderly.exists_arrived framed inNumbered (survive one inNumbered)
      obtain ⟨rest, rfl⟩ := isPrefix
      -- a packet that came after the other one would have strayed too far
      have here : arrived ∈ dispatched := by
        cases List.mem_append.mp arrives with
        | inl here => exact here
        | inr after =>
          have near := (List.pairwise_append.mp close).2.2 other member arrived after
          omega
      refine ⟨by omega, List.mem_map.mpr ⟨arrived, ?_, sameOrigin⟩⟩
      rw [← split]
      have packetQueue : queueOf positive (rq.sourceBlockNumber packet.item) =
          queueOf positive block.item.id := queueOf_emitted framed isEmitted
      exact List.mem_filter.mpr ⟨here, by simpa [sameQueue, atQueue, ← packetQueue] using atKey⟩)
  rw [List.length_map, size] at many
  omega

/-- When a block is put into the block queue, few packets are behind the one that has completed it,
    and the blocks before it have been completed by packets that have been dispatched as well. -/
theorem packets_of_split (framed : rq.Framed) (sound : rq.Sound)
    (orderly : Orderly setup positive blocks arrivals)
    (distinct : ∀ key, (arrivedAt positive blocks arrivals key).IsChain
      fun left right => left.item.id ≠ right.item.id)
    {s : DecoderState rq workers}
    (decodes : Decodes positive setup.decoder setup.packetSize (arrivals.map Sourced.item) s)
    (timed : Timed (decoderProgram rq positive) (fun _ => setup.decoder) s)
    {before after : List (Sourced Block)} {later : Sourced Block}
    (merged : s.merged = (before ++ later :: after).map fun block =>
      (queueOf positive block.item.id, block.item.data))
    (lanes : ∀ key, ((before ++ later :: after).filter fun block =>
      queueOf positive block.item.id = key) <+:
        (arrivedAt positive blocks arrivals key).filter (setup.decodableFrom arrivals)) :
    ∃ dispatched, dispatched <+: arrivals ∧
      (∃ front packet behind, (dispatched.filter fun item =>
          queueOf positive (rq.sourceBlockNumber item.item) = queueOf positive later.item.id) =
          front ++ packet :: behind ∧
        behind.length ≤ queueCapacity ∧ later.origin = packet.origin) ∧
      ∀ earlier ∈ before, ∃ packet ∈ dispatched, earlier.origin = packet.origin := by
  rw [List.map_append, List.map_cons] at merged
  obtain ⟨sent, isPrefix, moment⟩ := timed _ _ _ _ merged
  obtain ⟨dispatched, dispatchedPrefix, rfl⟩ :=
    List.prefix_map_iff.mp (isPrefix.trans decodes.sent_prefix)
  obtain ⟨⟨front, packet, behind, waiting, few, size, completes⟩, others⟩ :=
    packets_of_moment moment
  simp only [lane_map_label (fun block : Sourced Block => block.item.data)
    (fun block => queueOf positive block.item.id), List.length_map] at size others
  -- the blocks of a queue are listed in the order in which its decoder completes them
  have completed : ∀ {key} {packets : List (Sourced rq.EncodingPacket)},
      packets <+: (dispatched.filter fun item =>
        queueOf positive (rq.sourceBlockNumber item.item) = key) →
      setup.decoder.attributed packets <+: ((arrivedAt positive blocks arrivals key).filter
        (setup.decodableFrom arrivals)).map Sourced.decoded := by
    intro key packets isFront
    rw [← orderly.attributed_queue framed sound (distinct key)]
    exact BlockDecoder.attributed_prefix _ (isFront.trans (dispatchedPrefix.filter _))
  have listed := fun key => (lanes key).map Sourced.decoded
  simp only [List.filter_append, List.map_append] at listed
  refine ⟨dispatched, dispatchedPrefix, ⟨front, packet, behind, waiting, few, ?_⟩, ?_⟩
  · have isFront : front ++ [packet] <+: dispatched.filter fun item =>
        queueOf positive (rq.sourceBlockNumber item.item) = queueOf positive later.item.id :=
      ⟨behind, by rw [waiting, List.append_assoc]; rfl⟩
    have itself := completed isFront
    have upTo := listed (queueOf positive later.item.id)
    rw [List.filter_cons_of_pos (by simp), List.map_cons, ← List.singleton_append,
      ← List.append_assoc] at upTo
    rw [completes] at itself
    have same := (List.prefix_of_prefix_length_le ((List.prefix_append _ _).trans upTo) itself
      (by simp [size])).eq_of_length (by simp [size])
    have last := (List.append_inj' same rfl).2
    exact congrArg Sourced.origin (List.singleton_inj.mp last)
  · intro earlier isBefore
    obtain ⟨taken, takenPrefix, enough⟩ := others (queueOf positive earlier.item.id)
    have upTo := List.prefix_of_prefix_length_le
      ((List.prefix_append _ _).trans (listed (queueOf positive earlier.item.id)))
      (completed takenPrefix) (by simpa using enough)
    have isDecoded : earlier.decoded ∈ setup.decoder.attributed taken :=
      upTo.subset (List.mem_map_of_mem (List.mem_filter.mpr ⟨isBefore, by simp⟩))
    obtain ⟨other, inTaken, same⟩ := BlockDecoder.exists_origin isDecoded
    exact ⟨other, (List.mem_filter.mp (takenPrefix.subset inTaken)).1, same⟩

/-- The blocks come out in an order that strays a little more than the one of their packets. -/
theorem order_keeps_close (framed : rq.Framed) (sound : rq.Sound) {position : Nat} {id : UInt8}
    {chunks : List (List UInt8)}
    (orderly : Orderly setup positive (numbered position id chunks) arrivals)
    (distinct : ∀ key, (arrivedAt positive (numbered position id chunks) arrivals key).IsChain
      fun left right => left.item.id ≠ right.item.id)
    (survive : ∀ block ∈ numbered position id chunks, ownPackets arrivals block.origin ≠ [])
    {most : Nat}
    (close : arrivals.Pairwise fun earlier later => earlier.origin < later.origin + most)
    {s : DecoderState rq workers}
    (decodes : Decodes positive setup.decoder setup.packetSize (arrivals.map Sourced.item) s)
    (timed : Timed (decoderProgram rq positive) (fun _ => setup.decoder) s) :
    ∃ order : List (Sourced Block), s.written = order.map (fun block => block.item.data) ∧
      (∀ key, (order.filter fun block => queueOf positive block.item.id = key) <+:
        ((numbered position id chunks).filter (setup.decodableFrom arrivals)).filter fun block =>
          queueOf positive block.item.id = key) ∧
      order.Pairwise fun earlier later =>
        earlier.origin < later.origin + (queueCapacity + 1) * stride workers + most := by
  obtain ⟨whole, merged, lanes⟩ := exists_labelled_order
    (fun block : Sourced Block => block.item.data) (fun block => queueOf positive block.item.id)
    (fun key block member => by
      rw [filter_arrivedAt] at member
      simpa using (List.mem_filter.mp member).2)
    (fun key => orderly.decodeStream_queue framed sound (distinct key) ▸ decodes.lane_prefix key)
  have written := List.prefix_iff_eq_take.mp decodes.wired.written_prefix
  rw [merged, List.map_map, ← List.map_take] at written
  refine ⟨whole.take s.written.length, written, fun key => ?_, ?_⟩
  · rw [← filter_arrivedAt]
    exact ((List.take_prefix _ whole).filter _).trans (lanes key)
  · refine List.Pairwise.sublist (List.take_sublist _ _) (pairwise_of_splits ?_)
    intro before later after split earlier isBefore
    subst split
    obtain ⟨dispatched, isPrefix, ⟨front, packet, behind, waiting, few, origin⟩, others⟩ :=
      orderly.packets_of_split framed sound distinct decodes timed merged lanes
    obtain ⟨other, inDispatched, same⟩ := others earlier isBefore
    rw [origin, same]
    exact orderly.origin_lt_of_waiting framed survive close isPrefix waiting few other inDispatched

end Orderly

/-- At any time the blocks that a decoder has written are in an order that strays from the one of
    their packets by less than eleven rounds of its workers, if something of every block arrives and
    every queue gets its blocks one after another. -/
theorem decoder_keeps_close (framed : rq.Framed) (sound : rq.Sound) (setup : Setup rq)
    {session : Session} {e : EncoderState rq setup.workers}
    {arrivals : List (Sourced rq.EncodingPacket)}
    (positive : 0 < workers) (few : workers ≤ 128) (quiet : Quiet onError session.input)
    (encodes : Reachable (encoderProgram rq setup.workers_pos)
      (.start (setup.dispatcher 0 session) fun _ => setup.encoder) e)
    (encoded : Drained e) (genuine : ∀ packet ∈ arrivals, packet ∈ e.written)
    (ordered : OrderedAtQueues positive arrivals)
    (survive : ∀ block ∈ setup.blocks 0 [session], ownPackets arrivals block.origin ≠ [])
    {most : Nat}
    (close : arrivals.Pairwise fun earlier later => earlier.origin < later.origin + most)
    {input : Reader} (arrivesQuietly : Quiet onError input)
    (content : contents input = forwardPackets rq (arrivals.map Sourced.item))
    {d : DecoderState rq workers}
    (decodes : Reachable (decoderProgram rq positive)
      (.start ⟨setup.packetSize, input, false⟩ fun _ => setup.decoder) d) :
    ∃ order : List (Sourced Block), d.written = order.map (fun block => block.item.data) ∧
      (∀ key, (order.filter fun block => queueOf positive block.item.id = key) <+:
        ((setup.blocks 0 [session]).filter (setup.decodableFrom arrivals)).filter fun block =>
          queueOf positive block.item.id = key) ∧
      order.Pairwise fun earlier later =>
        earlier.origin < later.origin + 11 * stride workers + most := by
  have orderly := Orderly.of_session framed quiet encodes encoded genuine ordered
  have distinct := distinct_of_survive setup positive few session survive
  have reached := (Decodes.startWith positive setup.decoder setup.packetSize arrivesQuietly
    content).reachable (setup.packetSize_pos framed) (orderly.whole framed) decodes
  rw [Setup.blocks, Setup.blocks, List.append_nil] at orderly distinct survive ⊢
  exact orderly.order_keeps_close framed sound distinct survive close reached
    (timed_of_reachable decodes)

/-- The packets of two blocks arrive in reverse. -/
theorem decoder_keeps_close_systematic :
    ∃ d : DecoderState systematicCodec 3, Drained d ∧
      ∃ order : List (Sourced Block), d.written = order.map (fun block => block.item.data) ∧
        order.Pairwise fun earlier later => earlier.origin < later.origin + 11 * stride 3 + 2 := by
  obtain ⟨e, encodes, encoded, written⟩ := exists_encoded_twoBlocks
  have genuine : ∀ packet ∈ e.written.reverse, packet ∈ e.written := by simp
  obtain ⟨input, d, quiet, content, decodes, decoded⟩ :=
    exists_decoded Systematic.framed (systematicSetup Nat.one_pos) (show 0 < 3 by simp) encodes
      genuine
  have reversed : e.written.reverse.Pairwise fun earlier later =>
      earlier.origin < later.origin + 2 := by
    rw [written]
    decide
  obtain ⟨order, isWritten, -, close⟩ := decoder_keeps_close Systematic.framed Systematic.sound
    (systematicSetup Nat.one_pos) (show 0 < 3 by simp) (show 3 ≤ 128 by simp) quiet_twoBlocks
    encodes encoded genuine (by rw [written]; decide) (by rw [written, blocks_twoBlocks]; decide)
    reversed quiet content decodes
  exact ⟨d, decoded, order, isWritten, close⟩

/-! ## The link -/

namespace Link

variable {setup : Setup rq} {sessions : List Session} {s : Link rq setup.workers}

/-- The threads of the decoder of a link run like those of any decoder, but for the packets that
    arrive in the meantime. -/
theorem decoder_timed (reachable : Reachable setup (start setup sessions) s) :
    Wired (decoderProgram rq setup.workers_pos) (fun _ => setup.decoder) s.decoder ∧
      Paced (decoderProgram rq setup.workers_pos) (fun _ => setup.decoder) s.decoder ∧
      Timed (decoderProgram rq setup.workers_pos) (fun _ => setup.decoder) s.decoder := by
  induction reachable with
  | refl => exact ⟨.start _ _ _, .start _ _ _, .start _ _ _⟩
  | tail _ step inductionHypothesis =>
    obtain ⟨wired, paced, timed⟩ := inductionHypothesis
    cases step with
    | decode decoderStep =>
      exact ⟨wired.step decoderStep, paced.step wired decoderStep,
        timed.step wired paced decoderStep⟩
    | deliver | close =>
      exact ⟨wired.with_source _, paced.with_source _, timed.with_source _⟩
    | accept | encode | finish | drop => exact ⟨wired, paced, timed⟩

/-- What comes through a link is in an order that suits a decoder with as many workers. -/
theorem Connected.orderly (framed : rq.Framed) (connected : Connected setup sessions s) :
    Orderly setup setup.workers_pos s.dispatched s.delivered where
  increasing := connected.origins ▸ List.pairwise_lt_range
  sizes := fun _ member => connected.length_data member
  genuine := fun _ member => connected.mem_delivered framed member
  ordered := fun key =>
    (connected.sorted_emission key).sublist ((connected.arrivals_sublist framed key).map _)

theorem exists_numbered_dispatched {session : Session}
    (reachable : Reachable setup (start setup [session]) s) :
    ∃ chunks, s.dispatched = numbered 0 session.initialBlockId chunks := by
  cases oneEncoder reachable with
  | inl before => exact ⟨[], by simp [dispatched, before.2.1, numbered]⟩
  | inr after =>
    obtain ⟨-, e, isOnly, reaches⟩ := after
    obtain ⟨chunks, -, isSent⟩ :=
      ((Encodes.start setup.workers_pos setup.encoder _).reachable reaches).sent_eq
    have numbers : e.sent = numbered 0 session.initialBlockId chunks := isSent
    exact ⟨chunks, by simp [dispatched, isOnly, numbers]⟩

/-- At any time of a session of which something of every block has come through, the blocks written
    are in an order that strays from the one of the input by less than twenty-two rounds of the
    workers; once all are written, each is less than that far from its place. -/
theorem blocks_keep_close (framed : rq.Framed) (sound : rq.Sound) (setup : Setup rq)
    (few : setup.workers ≤ 128) (session : Session) {s : Link rq setup.workers}
    (reachable : Reachable setup (start setup [session]) s)
    (survive : ∀ block ∈ s.dispatched, s.survivors block.origin ≠ []) :
    ∃ order : List (Sourced Block),
      s.decoder.written = order.map (fun block => block.item.data) ∧
      order.Subperm (s.dispatched.filter (s.decodable setup)) ∧
      order.Pairwise (fun earlier later =>
        earlier.origin < later.origin + 22 * stride setup.workers) ∧
      (order.length = s.dispatched.length → ∀ idx block, order[idx]? = some block →
        idx < block.origin + 22 * stride setup.workers ∧
          block.origin < idx + 22 * stride setup.workers) := by
  have connected := (Connected.start setup [session]).reachable framed reachable
  have orderly := connected.orderly framed
  have packets := (wire_close framed reachable).sublist
    (connected.delivered.trans (List.take_sublist _ _))
  obtain ⟨-, -, timed⟩ := decoder_timed reachable
  obtain ⟨chunks, sent⟩ := exists_numbered_dispatched reachable
  have arrived : ∀ block ∈ s.dispatched, ownPackets s.delivered block.origin ≠ [] := survive
  have distinct : ∀ key, (Orderly.arrivedAt setup.workers_pos s.dispatched s.delivered key).IsChain
      fun left right => left.item.id ≠ right.item.id := by
    intro key
    rw [Orderly.arrivedAt, List.filter_eq_self.mpr fun block member => ?_, sent]
    · exact isChain_numbered setup.workers_pos few session.initialBlockId chunks key
    · simpa using arrived block (List.mem_filter.mp member).1
  have origins := connected.origins
  rw [sent] at orderly distinct arrived
  obtain ⟨order, written, lanes, close⟩ := orderly.order_keeps_close framed sound distinct arrived
    packets connected.decoder timed
  rw [← sent] at lanes
  have subperm : order.Subperm (s.dispatched.filter (s.decodable setup)) :=
    subperm_of_lanes (fun block => queueOf setup.workers_pos block.item.id) fun key =>
      (lanes key).sublist
  have twice : order.Pairwise fun earlier later =>
      earlier.origin < later.origin + 22 * stride setup.workers := by
    refine close.imp fun {earlier later} less => ?_
    rw [queueCapacity] at less
    omega
  refine ⟨order, written, subperm, twice, ?_⟩
  intro all idx block found
  have perm := (subperm.trans List.filter_sublist.subperm).perm_of_length_le all.ge
  refine displaced_less ((perm.map Sourced.origin).trans (.of_eq origins)) ?_
    (List.pairwise_map.mpr twice) ?_
  · exact Nat.mul_pos (by simp) (stride_pos setup.workers_pos)
  · rw [List.getElem?_map, found, Option.map_some]

/-- The encoder's first worker falls behind and catches up when its queue is full. -/
theorem blocks_keep_close_systematic :
    ∃ s, Reachable (systematicSetup Nat.two_pos) (start _ [slowSession]) s ∧ Drained s ∧
      s.delivered.map Sourced.origin =
        [1, 1, 3, 3, 5, 5, 7, 7, 9, 9, 11, 11, 13, 13, 15, 15, 17, 17, 19, 19, 21, 21,
          0, 0, 2, 2, 4, 4, 6, 6, 8, 8, 10, 10, 12, 12, 14, 14, 16, 16, 18, 18, 20, 20] ∧
      ∃ order : List (Sourced Block),
        s.decoder.written = order.map (fun block => block.item.data) ∧
        order.Pairwise fun earlier later => earlier.origin < later.origin + 44 := by
  obtain ⟨e, reaches, ends, written⟩ := exists_slow_drained
  obtain ⟨s, reachable, drained, wire, kept⟩ := exists_drained_of_encoder
    (systematicSetup Nat.two_pos) Systematic.framed reaches ends fun _ => true
  have quiet : ∀ session ∈ [slowSession], Quiet onError session.input := by
    simpa using quiet_slowSession
  have connected := (Connected.start _ _).reachable Systematic.framed reachable
  have served := connected.drained Systematic.framed drained quiet
  have survive : ∀ block ∈ s.dispatched, s.survivors block.origin ≠ [] := by
    intro block member empty
    have decoded := connected.decoded_of_lossless Systematic.framed Systematic.counted
      Systematic.complete served (show 0 < 16 by decide) (by simpa using kept) member
    rw [empty] at decoded
    cases decoded
  obtain ⟨order, isWritten, -, close, -⟩ := blocks_keep_close Systematic.framed Systematic.sound _
    (show 2 ≤ 128 by decide) _ reachable survive
  refine ⟨s, reachable, drained, ?_, order, isWritten, close⟩
  rw [kept, List.filter_true, wire, written]
  decide +kernel

end Link

end GarudaCodec.Core
